import Mathlib.Data.Fintype.Basic
import VmSim.Library.Interleaving
import VmSim.ProcessInvariant

/-!
The page fault protocol of vmsim/mmu.c and vmsim/prm.c. Any number of client
threads pin pages and one PRM thread serves their faults; a step is one critical
section, or the statements between two of them. Commands are numbered in the
order of their `malloc`, so that a number names one command for ever. A failed
assertion, or a copy outside an array, stops every thread. The lists of pushed,
popped and served commands are kept for the statements only.
-/

namespace VmSim.FaultProtocol
open PageTable FramePool MemoryUnit PageReplacement PagingRuns Interleaving

structure PrmCommand where
  addr : VirtAddr
  done : Bool
  freed : Bool
  deriving DecidableEq

/-- Where a client stands in `mmu_read` or `mmu_write`. A pinned page comes with
what `ipt_translate` said of it at the end of `mmu_pin_page`. -/
inductive ClientPc where
  | out
  | testing (page : VirtAddr)
  | faulting (page : VirtAddr)
  | requesting (page : VirtAddr)
  | created (page : VirtAddr) (cmd : Nat)
  | waiting (page : VirtAddr) (cmd : Nat)
  | completed (page : VirtAddr) (cmd : Nat)
  | returned (page : VirtAddr)
  | retesting (page : VirtAddr)
  | pinned (page : VirtAddr) (frame : Outcome Nat)
  deriving DecidableEq

inductive PrmPc where
  | idle
  | popped (cmd : Nat)
  | fetched (cmd : Nat) (addr : VirtAddr)
  | writing (cmd : Nat) (addr : VirtAddr)
  | loaded (cmd : Nat)
  deriving DecidableEq

def ClientPc.Holds : ClientPc → Prop
  | .testing _ => True
  | .faulting _ => True
  | .retesting _ => True
  | .pinned _ _ => True
  | _ => False

def ClientPc.command : ClientPc → Option Nat
  | .created _ cmd => some cmd
  | .waiting _ cmd => some cmd
  | .completed _ cmd => some cmd
  | _ => none

def PrmPc.Writes : PrmPc → Prop
  | .writing _ _ => True
  | _ => False

def PrmPc.command : PrmPc → Option Nat
  | .idle => none
  | .popped cmd => some cmd
  | .fetched cmd _ => some cmd
  | .writing cmd _ => some cmd
  | .loaded cmd => some cmd

def PrmPc.unserved : PrmPc → Option Nat
  | .loaded _ => none
  | prm => prm.command

structure State (Thread : Type) where
  machine : Machine
  aborted : Option Fault
  queue : List Nat
  command : Nat → PrmCommand
  fresh : Nat
  pc : Thread → ClientPc
  prm : PrmPc
  pushed : List Nat
  popped : List Nat
  served : List Nat

/-- A client's steps name the page and the command it is about; from `pops` on
the steps are the PRM's. -/
inductive Event (Thread : Type) where
  | enters (t : Thread) (page : VirtAddr)
  | tests (t : Thread) (page : VirtAddr)
  | releases (t : Thread) (page : VirtAddr)
  | allocates (t : Thread) (page : VirtAddr)
  | pushes (t : Thread) (page : VirtAddr) (cmd : Nat)
  | wakes (t : Thread) (page : VirtAddr) (cmd : Nat)
  | frees (t : Thread) (page : VirtAddr) (cmd : Nat)
  | reacquires (t : Thread) (page : VirtAddr)
  | retests (t : Thread) (page : VirtAddr)
  | reads (t : Thread) (page : VirtAddr) (frame : Outcome Nat) (nbytes : Nat)
  | writes (t : Thread) (page : VirtAddr) (frame : Outcome Nat) (buf : List BYTE)
  | leaves (t : Thread) (page : VirtAddr) (frame : Outcome Nat)
  | pops (cmd : Nat)
  | fetches (cmd : Nat)
  | acquires (cmd : Nat) (addr : VirtAddr)
  | serves (cmd : Nat) (addr : VirtAddr)
  | completes (cmd : Nat)

variable {Thread : Type} [DecidableEq Thread]

def Ready (s : State Thread) : Event Thread → Prop
  | .enters t _ => s.pc t = .out ∧ ¬ s.prm.Writes
  | .tests t page => s.pc t = .testing page
  | .releases t page => s.pc t = .faulting page
  | .allocates t page => s.pc t = .requesting page
  | .pushes t page cmd => s.pc t = .created page cmd
  | .wakes t page cmd => s.pc t = .waiting page cmd
  | .frees t page cmd => s.pc t = .completed page cmd
  | .reacquires t page => s.pc t = .returned page ∧ ¬ s.prm.Writes
  | .retests t page => s.pc t = .retesting page
  | .reads t page frame _ => s.pc t = .pinned page frame
  | .writes t page frame _ => s.pc t = .pinned page frame
  | .leaves t page frame => s.pc t = .pinned page frame
  | .pops cmd => s.prm = .idle ∧ s.queue.head? = some cmd
  | .fetches cmd => s.prm = .popped cmd
  | .acquires cmd addr => s.prm = .fetched cmd addr ∧ ∀ t, ¬ (s.pc t).Holds
  | .serves cmd addr => s.prm = .writing cmd addr
  | .completes cmd => s.prm = .loaded cmd

def Enabled (s : State Thread) (event : Event Thread) : Prop := s.aborted = none ∧ Ready s event

def State.go (s : State Thread) (t : Thread) (pc : ClientPc) : State Thread :=
  { s with pc := Function.update s.pc t pc }

def State.onMmu (s : State Thread) (mmu : Mmu) : State Thread :=
  { s with machine := ⟨mmu, s.machine.prm⟩ }

def State.setCommand (s : State Thread) (cmd : Nat) (value : PrmCommand) : State Thread :=
  { s with command := Function.update s.command cmd value }

def State.newCommand (s : State Thread) (page : VirtAddr) : State Thread :=
  { s.setCommand s.fresh ⟨page, false, false⟩ with fresh := s.fresh + 1 }

def State.after (s : State Thread) (result : Outcome α) (rest : α → State Thread) : State Thread :=
  match result with
  | .ok a => rest a
  | .error fault => { s with aborted := some fault }

/-- `mmu_pin_page` after a residency check: its end, or its loop. -/
def State.checked (s : State Thread) (t : Thread) (page : VirtAddr) (present : Bool) : State Thread :=
  s.go t (if present then .pinned page (iptTranslate s.machine.mmu.memIpt page) else .faulting page)

def next (s : State Thread) : Event Thread → State Thread
  | .enters t page => s.go t (.testing page)
  | .tests t page => s.after (mmuPinCheck s.machine.mmu page) fun r => (s.onMmu r.2).checked t page r.1
  | .releases t page => s.go t (.requesting page)
  | .allocates t page => (s.newCommand page).go t (.created page s.fresh)
  | .pushes t page cmd =>
      { s with queue := s.queue ++ [cmd], pushed := s.pushed ++ [cmd] }.go t (.waiting page cmd)
  | .wakes t page cmd =>
      s.go t (if (s.command cmd).done then .completed page cmd else .waiting page cmd)
  | .frees t page cmd =>
      (s.go t (.returned page)).setCommand cmd { s.command cmd with freed := true }
  | .reacquires t page => s.go t (.retesting page)
  | .retests t page => s.after (iptHasTranslation s.machine.mmu.memIpt page) (s.checked t page)
  | .reads _ page _ nbytes => s.after (mmuReadBody s.machine.mmu page nbytes) fun r => s.onMmu r.2
  | .writes _ page _ buf => s.after (mmuWriteBody s.machine.mmu page buf) s.onMmu
  | .leaves t _ _ => s.go t .out
  | .pops cmd => { s with queue := s.queue.tail, popped := s.popped ++ [cmd], prm := .popped cmd }
  | .fetches cmd => { s with prm := .fetched cmd (s.command cmd).addr }
  | .acquires cmd addr => { s with prm := .writing cmd addr }
  | .serves cmd addr => s.after (prmService s.machine.prm s.machine.mmu addr) fun r =>
      { s with machine := ⟨r.2, r.1⟩, served := s.served ++ [cmd], prm := .loaded cmd }
  | .completes cmd => { s.setCommand cmd { s.command cmd with done := true } with prm := .idle }

def program (Thread : Type) [DecidableEq Thread] : Program (State Thread) (Event Thread) :=
  ⟨Enabled, next⟩

instance : DecidablePred ClientPc.Holds
  | .testing _ => inferInstanceAs (Decidable True)
  | .faulting _ => inferInstanceAs (Decidable True)
  | .retesting _ => inferInstanceAs (Decidable True)
  | .pinned _ _ => inferInstanceAs (Decidable True)
  | .out => inferInstanceAs (Decidable False)
  | .requesting _ => inferInstanceAs (Decidable False)
  | .created _ _ => inferInstanceAs (Decidable False)
  | .waiting _ _ => inferInstanceAs (Decidable False)
  | .completed _ _ => inferInstanceAs (Decidable False)
  | .returned _ => inferInstanceAs (Decidable False)

instance : DecidablePred PrmPc.Writes
  | .writing _ _ => inferInstanceAs (Decidable True)
  | .idle => inferInstanceAs (Decidable False)
  | .popped _ => inferInstanceAs (Decidable False)
  | .fetched _ _ => inferInstanceAs (Decidable False)
  | .loaded _ => inferInstanceAs (Decidable False)

instance [Fintype Thread] (s : State Thread) : DecidablePred (Ready s)
  | .enters _ _ => inferInstanceAs (Decidable (_ ∧ _))
  | .tests _ _ => inferInstanceAs (Decidable (_ = _))
  | .releases _ _ => inferInstanceAs (Decidable (_ = _))
  | .allocates _ _ => inferInstanceAs (Decidable (_ = _))
  | .pushes _ _ _ => inferInstanceAs (Decidable (_ = _))
  | .wakes _ _ _ => inferInstanceAs (Decidable (_ = _))
  | .frees _ _ _ => inferInstanceAs (Decidable (_ = _))
  | .reacquires _ _ => inferInstanceAs (Decidable (_ ∧ _))
  | .retests _ _ => inferInstanceAs (Decidable (_ = _))
  | .reads _ _ _ _ => inferInstanceAs (Decidable (_ = _))
  | .writes _ _ _ _ => inferInstanceAs (Decidable (_ = _))
  | .leaves _ _ _ => inferInstanceAs (Decidable (_ = _))
  | .pops _ => inferInstanceAs (Decidable (_ ∧ _))
  | .fetches _ => inferInstanceAs (Decidable (_ = _))
  | .acquires _ _ => inferInstanceAs (Decidable (_ ∧ ∀ t, ¬ (s.pc t).Holds))
  | .serves _ _ => inferInstanceAs (Decidable (_ = _))
  | .completes _ => inferInstanceAs (Decidable (_ = _))

instance [Fintype Thread] (s : State Thread) (event : Event Thread) :
    Decidable ((program Thread).enabled s event) := inferInstanceAs (Decidable (_ ∧ Ready s event))

def start (Thread : Type) (machine : Machine) : State Thread :=
  ⟨machine, none, [], fun _ => ⟨⟨0, 0, 0⟩, false, false⟩, 0, fun _ => .out, .idle, [], [], []⟩

def ClientPc.Asks (command : Nat → PrmCommand) (key : Key) : ClientPc → Prop
  | .requesting page => page.key = key
  | .created page _ => page.key = key
  | .waiting page cmd => page.key = key ∧ (command cmd).done = false
  | _ => False

instance (command : Nat → PrmCommand) (key : Key) : DecidablePred (ClientPc.Asks command key)
  | .requesting page => inferInstanceAs (Decidable (page.key = key))
  | .created page _ => inferInstanceAs (Decidable (page.key = key))
  | .waiting page cmd => inferInstanceAs (Decidable (page.key = key ∧ (command cmd).done = false))
  | .out => inferInstanceAs (Decidable False)
  | .testing _ => inferInstanceAs (Decidable False)
  | .faulting _ => inferInstanceAs (Decidable False)
  | .completed _ _ => inferInstanceAs (Decidable False)
  | .returned _ => inferInstanceAs (Decidable False)
  | .retesting _ => inferInstanceAs (Decidable False)
  | .pinned _ _ => inferInstanceAs (Decidable False)

/-- At most one outstanding fault for each page. -/
def OneFault (s : State Thread) : Event Thread → Prop
  | .releases t page => ∀ u, u ≠ t → ¬ (s.pc u).Asks s.command page.key
  | _ => True

instance [Fintype Thread] (s : State Thread) (event : Event Thread) : Decidable (OneFault s event) := by
  cases event <;> unfold OneFault <;> infer_instance

def Absent (s : State Thread) (page : VirtAddr) : Prop :=
  frameOf s.machine.mmu.memIpt page.key = none

def Fits (s : State Thread) : ClientPc → Prop
  | .faulting page => Absent s page
  | .requesting page => Absent s page
  | .created page cmd => Absent s page ∧ s.command cmd = ⟨page, false, false⟩ ∧ cmd < s.fresh ∧
      cmd ∉ s.pushed
  | .waiting page cmd => (s.command cmd).addr = page ∧ (s.command cmd).freed = false ∧
      cmd ∈ s.pushed ∧ ((s.command cmd).done = false → s.prm ≠ .loaded cmd →
        Absent s page ∧ (cmd ∈ s.queue ∨ s.prm.command = some cmd))
  | .completed _ cmd => (s.command cmd).freed = false ∧ (s.command cmd).done = true ∧ cmd ∈ s.pushed
  | .pinned page frame => ∃ i, frame = .ok i ∧ frameOf s.machine.mmu.memIpt page.key = some i
  | _ => True

structure Invariant (s : State Thread) : Prop where
  sound : MmuSound (books s.machine.mmu)
  intact : s.aborted ≠ some (.assertion .mmuMapPage)
  clients : ∀ t, Fits s (s.pc t)
  alone : ∀ t u cmd, (s.pc t).command = some cmd → (s.pc u).command = some cmd → t = u
  one : ∀ t u key, (s.pc t).Asks s.command key → (s.pc u).Asks s.command key → t = u
  pending : ∀ cmd, cmd ∈ s.queue ∨ s.prm.command = some cmd →
    ∃ t page, s.pc t = .waiting page cmd ∧ (s.command cmd).done = false
  finished : ∀ cmd, (s.command cmd).done = true → cmd ∈ s.served
  ordered : s.pushed = s.popped ++ s.queue
  popped : s.popped = s.served ++ s.prm.unserved.toList
  once : s.pushed.Nodup
  known : ∀ cmd ∈ s.pushed, cmd < s.fresh
  locked : s.prm.Writes → ∀ t, ¬ (s.pc t).Holds
  fetched : ∀ cmd addr, s.prm = .fetched cmd addr ∨ s.prm = .writing cmd addr →
    addr = (s.command cmd).addr
  loaded : ∀ cmd, s.prm = .loaded cmd → cmd ∈ s.served

@[simp] theorem go_self (s : State Thread) (t : Thread) (pc : ClientPc) : (s.go t pc).pc t = pc := by
  simp [State.go]

@[simp] theorem go_other (s : State Thread) {t u : Thread} (pc : ClientPc) (other : u ≠ t) :
    (s.go t pc).pc u = s.pc u := by
  simp [State.go, other]

section Steps
variable {s after : State Thread}

omit [DecidableEq Thread]

structure Unnoticed (s after : State Thread) (pc : ClientPc) : Prop where
  frames : frameOf after.machine.mmu.memIpt = frameOf s.machine.mmu.memIpt
  command : ∀ cmd, pc.command = some cmd → after.command cmd = s.command cmd
  fresh : s.fresh ≤ after.fresh
  pushed : ∀ cmd, pc.command = some cmd → (cmd ∈ after.pushed ↔ cmd ∈ s.pushed)
  pending : ∀ cmd, pc.command = some cmd → after.prm ≠ .loaded cmd → s.prm ≠ .loaded cmd ∧
    (cmd ∈ s.queue ∨ s.prm.command = some cmd → cmd ∈ after.queue ∨ after.prm.command = some cmd)

theorem unnoticed_fits {pc : ClientPc} (fits : Fits s pc) (same : Unnoticed s after pc) :
    Fits after pc := by
  have absent : ∀ page, Absent s page → Absent after page := by
    intro page before
    rw [Absent, same.frames]
    exact before
  cases pc with
  | faulting page => exact absent page fits
  | requesting page => exact absent page fits
  | created page cmd =>
      obtain ⟨gone, value, low, unpushed⟩ := fits
      refine ⟨absent page gone, ?_, Nat.lt_of_lt_of_le low same.fresh, ?_⟩
      · rw [same.command cmd rfl, value]
      · rwa [same.pushed cmd rfl]
  | waiting page cmd =>
      obtain ⟨addr, kept, pushed, waits⟩ := fits
      rw [Fits, same.command cmd rfl]
      refine ⟨addr, kept, (same.pushed cmd rfl).mpr pushed, fun undone unloaded => ?_⟩
      obtain ⟨unloaded', comes⟩ := same.pending cmd rfl unloaded
      obtain ⟨gone, coming⟩ := waits undone unloaded'
      exact ⟨absent page gone, comes coming⟩
  | completed page cmd =>
      obtain ⟨kept, done, pushed⟩ := fits
      rw [Fits, same.command cmd rfl]
      exact ⟨kept, done, (same.pushed cmd rfl).mpr pushed⟩
  | pinned page frame =>
      obtain ⟨i, found, held⟩ := fits
      exact ⟨i, found, by rw [same.frames, held]⟩
  | _ => trivial

structure Moves (s : State Thread) (t : Thread) (pc : ClientPc) : Prop where
  fits : Fits s pc
  alone : ∀ cmd u, u ≠ t → pc.command = some cmd → (s.pc u).command ≠ some cmd
  one : ∀ key u, u ≠ t → pc.Asks s.command key → ¬ (s.pc u).Asks s.command key
  stays : ∀ page cmd, s.pc t = .waiting page cmd → (s.command cmd).done = false →
    pc = .waiting page cmd
  free : pc.Holds → ¬ s.prm.Writes

theorem distinct_kept [DecidableEq Thread] {t : Thread} {pc : ClientPc} (owns : ClientPc → β → Prop)
    (before : ∀ t u x, owns (s.pc t) x → owns (s.pc u) x → t = u)
    (moved : ∀ x u, u ≠ t → owns pc x → ¬ owns (s.pc u) x) :
    ∀ u v x, owns ((s.go t pc).pc u) x → owns ((s.go t pc).pc v) x → u = v := by
  intro u v x left right
  by_cases mine : u = t
  · by_cases yours : v = t
    · exact mine.trans yours.symm
    · subst mine
      rw [go_self] at left
      rw [go_other s pc yours] at right
      exact absurd right (moved x v yours left)
  · rw [go_other s pc mine] at left
    by_cases yours : v = t
    · subst yours
      rw [go_self] at right
      exact absurd left (moved x u mine right)
    · rw [go_other s pc yours] at right
      exact before u v x left right

theorem moves_keeps [DecidableEq Thread] (inv : Invariant s) {t : Thread} {pc : ClientPc}
    (moves : Moves s t pc) : Invariant (s.go t pc) := by
  refine { inv with
    clients := ?_
    alone := distinct_kept (fun pc cmd => pc.command = some cmd) inv.alone moves.alone
    one := distinct_kept (fun pc key => pc.Asks s.command key) inv.one moves.one
    pending := ?_
    locked := ?_ }
  · intro u
    by_cases mine : u = t
    · subst mine
      rw [go_self]
      exact moves.fits
    · rw [go_other s pc mine]
      exact inv.clients u
  · intro cmd waited
    obtain ⟨u, page, waits, undone⟩ := inv.pending cmd waited
    refine ⟨u, page, ?_, undone⟩
    -- A thread that waits for an unfinished command keeps waiting, this one included.
    by_cases mine : u = t
    · subst mine
      rw [go_self]
      exact moves.stays page cmd waits undone
    · rw [go_other s pc mine]
      exact waits
  · intro writes u holds
    by_cases mine : u = t
    · subst mine
      rw [go_self] at holds
      exact moves.free holds writes
    · rw [go_other s pc mine] at holds
      exact inv.locked writes u holds

theorem mmu_keeps (inv : Invariant s) {mmu : Mmu} (sound : MmuSound (books mmu))
    (frames : frameOf mmu.memIpt = frameOf s.machine.mmu.memIpt) : Invariant (s.onMmu mmu) :=
  { inv with
    sound := sound
    clients := fun t => unnoticed_fits (inv.clients t)
      ⟨frames, fun _ _ => rfl, Nat.le_refl _, fun _ _ => Iff.rfl, fun _ _ unloaded => ⟨unloaded, id⟩⟩ }

theorem after_keeps (inv : Invariant s) {result : Outcome α} {rest : α → State Thread}
    (fails : result ≠ .error (.assertion .mmuMapPage))
    (goes : ∀ a, result = .ok a → Invariant (rest a)) : Invariant (s.after result rest) := by
  cases result with
  | ok a => exact goes a rfl
  | error fault =>
      have intact : some fault ≠ some (.assertion .mmuMapPage) := by
        intro same
        cases same
        exact fails rfl
      exact { inv with intact := intact, clients := inv.clients }

theorem spare_keeps (inv : Invariant s) {cmd fresh : Nat} {value : PrmCommand}
    (spare : ∀ t, (s.pc t).command ≠ some cmd) (done : value.done = true → cmd ∈ s.served)
    (grows : s.fresh ≤ fresh) : Invariant { s.setCommand cmd value with fresh := fresh } := by
  have others : ∀ t other, (s.pc t).command = some other →
      (s.setCommand cmd value).command other = s.command other := by
    intro t other owns
    have different : other ≠ cmd := fun same => spare t (same ▸ owns)
    simp [State.setCommand, different]
  have asks : ∀ t key, (s.pc t).Asks (s.setCommand cmd value).command key ↔
      (s.pc t).Asks s.command key := by
    intro t key
    have same := others t
    cases stands : s.pc t with
    | waiting page mine =>
        rw [stands] at same
        simp [ClientPc.Asks, same mine rfl]
    | _ => rfl
  -- Whatever the PRM has still to do is waited for by a client, and this command is not.
  have waited : ∀ other, other ∈ s.queue ∨ s.prm.command = some other → other ≠ cmd := by
    intro other coming same
    obtain ⟨t, page, waits, -⟩ := inv.pending other coming
    apply spare t
    rw [waits, ← same]
    rfl
  refine { inv with clients := ?_, one := ?_, pending := ?_, finished := ?_, known := ?_, fetched := ?_ }
  · exact fun t => unnoticed_fits (inv.clients t)
      ⟨rfl, others t, grows, fun _ _ => Iff.rfl, fun _ _ unloaded => ⟨unloaded, id⟩⟩
  · intro t u key left right
    exact inv.one t u key ((asks t key).mp left) ((asks u key).mp right)
  · intro other coming
    obtain ⟨t, page, waits, undone⟩ := inv.pending other coming
    refine ⟨t, page, waits, ?_⟩
    simpa [State.setCommand, waited other coming] using undone
  · intro other finished
    by_cases same : other = cmd
    · subst same
      exact done (by simpa [State.setCommand] using finished)
    · exact inv.finished other (by simpa [State.setCommand, same] using finished)
  · exact fun other pushed => Nat.lt_of_lt_of_le (inv.known other pushed) grows
  · intro other addr fetched
    have current : s.prm.command = some other := by
      have stands : s.prm = .fetched other addr ∨ s.prm = .writing other addr := fetched
      rcases stands with stands | stands <;> rw [stands] <;> rfl
    simpa [State.setCommand, waited other (.inr current)] using inv.fetched other addr fetched

/-! What the sections that hold the lock for reading do. -/

theorem referenced_keeps (sound : MmuSound (books s.machine.mmu)) {page : VirtAddr} {i : Nat}
    (held : frameOf s.machine.mmu.memIpt page.key = some i) (reftype : RefType) :
    ∃ ipt, iptReference s.machine.mmu.memIpt page reftype = .ok ipt ∧ iptTranslate ipt page = .ok i ∧
      MmuSound (books { s.machine.mmu with memIpt := ipt }) ∧
      frameOf ipt = frameOf s.machine.mmu.memIpt := by
  obtain ⟨ipt, referenced, moved, -⟩ := reference_touches sound.table held reftype
  have frames : frameOf ipt = frameOf s.machine.mmu.memIpt := congrArg Pool.frame moved.pool
  exact ⟨ipt, referenced, translate_exact moved.sound (by rw [frames, held]),
    touched_sound sound moved, frames⟩

theorem reads_keeps (inv : Invariant s) {page : VirtAddr} {i : Nat}
    (held : frameOf s.machine.mmu.memIpt page.key = some i) (nbytes : Nat) :
    Invariant (s.after (mmuReadBody s.machine.mmu page nbytes) fun r => s.onMmu r.2) := by
  obtain ⟨ipt, referenced, translated, sound, frames⟩ := referenced_keeps inv.sound held .refRead
  simp only [mmuReadBody, referenced, translated, bind_ok]
  apply after_keeps inv
  · cases copied : copyOut s.machine.mmu.mem.data (memAddr s.machine.mmu i page.offset) nbytes with
    | ok bytes => simp
    | error fault =>
        rintro same
        cases same
        exact copy_out_silent _ _ _ _ copied
  · rintro ⟨bytes, mmu⟩ ran
    obtain ⟨copied, -, same⟩ := bind_eq_ok.mp ran
    cases same
    exact mmu_keeps inv sound frames

theorem writes_keeps (inv : Invariant s) {page : VirtAddr} {i : Nat}
    (held : frameOf s.machine.mmu.memIpt page.key = some i) (buf : List BYTE) :
    Invariant (s.after (mmuWriteBody s.machine.mmu page buf) s.onMmu) := by
  obtain ⟨ipt, referenced, translated, sound, frames⟩ := referenced_keeps inv.sound held .refWrite
  simp only [mmuWriteBody, referenced, translated, bind_ok]
  apply after_keeps inv
  · cases copied : copyIn s.machine.mmu.mem.data (memAddr s.machine.mmu i page.offset) buf with
    | ok bytes => simp
    | error fault =>
        rintro same
        cases same
        exact copy_in_silent _ _ _ _ copied
  · intro mmu ran
    obtain ⟨copied, -, same⟩ := bind_eq_ok.mp ran
    cases same
    exact mmu_keeps inv sound frames

/-! The clients, one statement after the other. -/

section Clients
variable {t : Thread} {page : VirtAddr} {cmd : Nat}

theorem quiet_moves {pc : ClientPc} (fits : Fits s pc) (command : pc.command = none)
    (asks : ∀ key, ¬ pc.Asks s.command key) (stays : ∀ page cmd, s.pc t ≠ .waiting page cmd)
    (free : pc.Holds → ¬ s.prm.Writes) : Moves s t pc where
  fits := fits
  alone := by simp [command]
  one key _ _ asked := absurd asked (asks key)
  stays page cmd waits := absurd waits (stays page cmd)
  free := free

theorem asked_once (inv : Invariant s) {pc : ClientPc}
    (before : ∀ key, pc.Asks s.command key → (s.pc t).Asks s.command key) (key : Key) (u : Thread)
    (other : u ≠ t) (asked : pc.Asks s.command key) : ¬ (s.pc u).Asks s.command key :=
  fun asks => other (inv.one u t key asks (before key asked))

theorem holder_free (inv : Invariant s) (holds : (s.pc t).Holds) : ¬ s.prm.Writes :=
  fun writes => inv.locked writes t holds

theorem fresh_spare (inv : Invariant s) (u : Thread) : (s.pc u).command ≠ some s.fresh := by
  have fits := inv.clients u
  intro owns
  cases stands : s.pc u with
  | created page cmd =>
      rw [stands] at fits owns
      cases owns
      exact Nat.lt_irrefl _ fits.2.2.1
  | waiting page cmd =>
      rw [stands] at fits owns
      cases owns
      exact Nat.lt_irrefl _ (inv.known _ fits.2.2.1)
  | completed page cmd =>
      rw [stands] at fits owns
      cases owns
      exact Nat.lt_irrefl _ (inv.known _ fits.2.2)
  | _ =>
      rw [stands] at owns
      cases owns

variable [DecidableEq Thread]

theorem checked_keeps (inv : Invariant s) (holds : (s.pc t).Holds) :
    Invariant (s.checked t page (frameOf s.machine.mmu.memIpt page.key).isSome) := by
  have stays : ∀ page cmd, s.pc t ≠ .waiting page cmd := by
    intro page cmd waits
    simp [waits, ClientPc.Holds] at holds
  apply moves_keeps inv
  cases resident : frameOf s.machine.mmu.memIpt page.key with
  | none =>
      exact quiet_moves resident rfl (fun _ => id) stays fun _ => holder_free inv holds
  | some i =>
      have translated : iptTranslate s.machine.mmu.memIpt page = .ok i :=
        translate_exact inv.sound.table resident
      exact quiet_moves ⟨i, translated, resident⟩ rfl (fun _ => id) stays
        fun _ => holder_free inv holds

theorem tests_keeps (inv : Invariant s) (stands : s.pc t = .testing page) :
    Invariant (next s (.tests t page)) := by
  have table : Sound s.machine.mmu.memIpt := inv.sound.table
  obtain ⟨stats, checked⟩ := pin_check_exact table page
  simp only [next, checked]
  exact checked_keeps (mmu_keeps inv (stats_sound inv.sound stats) rfl)
    (by simp [State.onMmu, stands, ClientPc.Holds])

theorem retests_keeps (inv : Invariant s) (stands : s.pc t = .retesting page) :
    Invariant (next s (.retests t page)) := by
  have present : iptHasTranslation s.machine.mmu.memIpt page =
      .ok (frameOf s.machine.mmu.memIpt page.key).isSome := has_translation_exact inv.sound.table page
  simp only [next, present]
  exact checked_keeps inv (by simp [stands, ClientPc.Holds])

theorem releases_keeps (inv : Invariant s) (stands : s.pc t = .faulting page)
    (one : ∀ u, u ≠ t → ¬ (s.pc u).Asks s.command page.key) :
    Invariant (next s (.releases t page)) := by
  have absent := inv.clients t
  rw [stands] at absent
  apply moves_keeps inv
  refine ⟨absent, by simp [ClientPc.command], ?_, by simp [stands], by simp [ClientPc.Holds]⟩
  rintro key u other rfl
  exact one u other

theorem allocates_keeps (inv : Invariant s) (stands : s.pc t = .requesting page) :
    Invariant (next s (.allocates t page)) := by
  have absent := inv.clients t
  rw [stands] at absent
  have spare := fresh_spare inv
  have created : Invariant (s.newCommand page) :=
    spare_keeps inv spare (by simp) (Nat.le_succ s.fresh)
  have requests : (s.newCommand page).pc t = .requesting page := stands
  refine moves_keeps created ⟨⟨absent, by simp [State.newCommand, State.setCommand],
    Nat.lt_succ_self _, ?_⟩, ?_, ?_, by simp [requests], by simp [ClientPc.Holds]⟩
  · exact fun pushed => Nat.lt_irrefl _ (inv.known _ pushed)
  · intro cmd u _ owns
    cases owns
    exact spare u
  · exact asked_once created fun key asked => requests ▸ asked

theorem pushes_keeps (inv : Invariant s) (stands : s.pc t = .created page cmd) :
    Invariant (next s (.pushes t page cmd)) := by
  have created := inv.clients t
  rw [stands] at created
  obtain ⟨absent, value, low, unpushed⟩ := created
  have mine : (s.pc t).command = some cmd := by rw [stands]; rfl
  have others : ∀ u, u ≠ t → ∀ other, (s.pc u).command = some other → other ≠ cmd := by
    rintro u different other owns rfl
    exact different (inv.alone u t other owns mine)
  refine { inv with
    clients := fun u => ?_
    alone := distinct_kept (s := { s with queue := _, pushed := _ })
      (fun pc cmd => pc.command = some cmd) inv.alone ?_
    one := distinct_kept (s := { s with queue := _, pushed := _ })
      (fun pc key => pc.Asks s.command key) inv.one
      (asked_once inv fun key asked => stands ▸ asked.1)
    pending := fun other waited => ?_
    ordered := ?_
    once := ?_
    known := fun other pushed => ?_
    locked := fun writes u holds => ?_ }
  -- The client that pushes waits from now on for a command that is in the queue.
  · by_cases same : u = t
    · subst same
      simp only [next, go_self]
      exact ⟨by simp [State.go, value], by simp [State.go, value], by simp [State.go],
        fun _ _ => ⟨absent, .inl (by simp [State.go])⟩⟩
    · simp only [next, go_other _ _ same]
      refine unnoticed_fits (inv.clients u) ⟨rfl, fun _ _ => rfl, Nat.le_refl _, ?_, ?_⟩
      · intro other owns
        simp [State.go, others u same other owns]
      · intro other _ unloaded
        exact ⟨unloaded, Or.imp_left (List.mem_append_left _)⟩
  · intro other u different same owns
    cases same
    exact others u different cmd owns rfl
  -- The new command is waited for by the client that has pushed it, an older one as before.
  · have waited' : (other ∈ s.queue ∨ other = cmd) ∨ s.prm.command = some other := by
      simpa [next, State.go] using waited
    by_cases same : other = cmd
    · subst same
      exact ⟨t, page, by simp [next], by simp [next, State.go, value]⟩
    · obtain ⟨u, wanted, waits, undone⟩ :=
        inv.pending other (waited'.imp_left fun inside => inside.resolve_right same)
      have different : u ≠ t := by
        rintro rfl
        rw [stands] at waits
        cases waits
      exact ⟨u, wanted, by simpa [next, different] using waits, undone⟩
  · simp [next, State.go, inv.ordered]
  · simpa [next, State.go, List.nodup_append] using ⟨inv.once, fun other inside same =>
      unpushed (same ▸ inside)⟩
  · have either : other ∈ s.pushed ∨ other = cmd := by simpa [next, State.go] using pushed
    exact either.elim (inv.known other) fun same => same ▸ low
  · by_cases same : u = t
    · subst same
      simp [next, ClientPc.Holds] at holds
    · rw [next, go_other _ _ same] at holds
      exact inv.locked writes u holds

theorem wakes_keeps (inv : Invariant s) (stands : s.pc t = .waiting page cmd) :
    Invariant (next s (.wakes t page cmd)) := by
  have waiting := inv.clients t
  rw [stands] at waiting
  have alone : ∀ other u, u ≠ t → some cmd = some other → (s.pc u).command ≠ some other := by
    intro other u different same owns
    exact different (inv.alone u t other owns (by rw [stands]; exact same))
  apply moves_keeps inv
  cases done : (s.command cmd).done with
  | true =>
      exact ⟨⟨waiting.2.1, done, waiting.2.2.1⟩, alone, fun _ _ _ => False.elim,
        fun _ _ waits undone => by rw [stands] at waits; cases waits; simp [done] at undone,
        False.elim⟩
  | false =>
      exact ⟨waiting, alone, asked_once inv fun key asked => stands ▸ asked,
        fun _ _ waits _ => stands ▸ waits, False.elim⟩

theorem frees_keeps (inv : Invariant s) (stands : s.pc t = .completed page cmd) :
    Invariant (next s (.frees t page cmd)) := by
  have completed := inv.clients t
  rw [stands] at completed
  have returned : Invariant (s.go t (.returned page)) :=
    moves_keeps inv (quiet_moves trivial rfl (fun _ => id) (by simp [stands]) False.elim)
  refine spare_keeps returned (fun u owns => ?_) (fun _ => inv.finished cmd completed.2.1)
    (Nat.le_refl _)
  by_cases mine : u = t
  · subst mine
    rw [go_self] at owns
    cases owns
  · rw [go_other s _ mine] at owns
    exact mine (inv.alone u t cmd owns (by rw [stands]; rfl))

end Clients

/-! The PRM, one statement after the other. -/

section Prm
variable {cmd : Nat} {addr : VirtAddr}

theorem pops_keeps [DecidableEq Thread] (inv : Invariant s) (idle : s.prm = .idle)
    (first : s.queue.head? = some cmd) : Invariant (next s (.pops cmd)) := by
  obtain ⟨rest, queue⟩ : ∃ rest, s.queue = cmd :: rest := by
    cases queue : s.queue with
    | nil => simp [queue] at first
    | cons head rest =>
        rw [queue] at first
        cases first
        exact ⟨rest, rfl⟩
  have popped : s.popped = s.served := by simpa [idle, PrmPc.unserved, PrmPc.command] using inv.popped
  refine { inv with
    clients := fun t => unnoticed_fits (inv.clients t) ⟨rfl, fun _ _ => rfl, Nat.le_refl _,
      fun _ _ => Iff.rfl, fun other _ _ => ⟨by simp [idle], ?_⟩⟩
    pending := fun other waited => inv.pending other ?_
    ordered := by simp [next, inv.ordered, queue]
    popped := by simp [next, popped, PrmPc.unserved, PrmPc.command]
    locked := False.elim
    fetched := by simp [next]
    loaded := by simp [next] }
  · intro waits
    simp only [queue, idle, PrmPc.command, List.mem_cons] at waits
    simp only [next, queue, List.tail_cons, PrmPc.command, Option.some.injEq]
    tauto
  · simp only [next, queue, List.tail_cons, PrmPc.command, Option.some.injEq] at waited
    simp only [queue, List.mem_cons]
    tauto

theorem prm_keeps (inv : Invariant s) {prm : PrmPc} (command : prm.command = s.prm.command)
    (unserved : prm.unserved = s.prm.unserved) (before : ∀ cmd, s.prm ≠ .loaded cmd)
    (loaded : ∀ cmd, prm ≠ .loaded cmd) (locked : prm.Writes → ∀ t, ¬ (s.pc t).Holds)
    (fetched : ∀ cmd addr, prm = .fetched cmd addr ∨ prm = .writing cmd addr →
      addr = (s.command cmd).addr) : Invariant { s with prm := prm } :=
  { inv with
    clients := fun t => unnoticed_fits (inv.clients t) ⟨rfl, fun _ _ => rfl, Nat.le_refl _,
      fun _ _ => Iff.rfl, fun cmd _ _ => ⟨before cmd, by rw [command]; exact id⟩⟩
    pending := fun cmd waited => inv.pending cmd (by rwa [← command])
    popped := by rw [inv.popped, ← unserved]
    locked := locked
    fetched := fetched
    loaded := fun cmd stands => absurd stands (loaded cmd) }

theorem fetches_keeps [DecidableEq Thread] (inv : Invariant s) (stands : s.prm = .popped cmd) :
    Invariant (next s (.fetches cmd)) := by
  apply prm_keeps inv
  · rw [stands]; rfl
  · rw [stands]; rfl
  · simp [stands]
  · simp
  · exact False.elim
  · rintro other addr (same | same) <;> cases same
    rfl

theorem acquires_keeps [DecidableEq Thread] (inv : Invariant s) (stands : s.prm = .fetched cmd addr)
    (free : ∀ t, ¬ (s.pc t).Holds) : Invariant (next s (.acquires cmd addr)) := by
  apply prm_keeps inv
  · rw [stands]; rfl
  · rw [stands]; rfl
  · simp [stands]
  · simp
  · exact fun _ => free
  · rintro other place (same | same) <;> cases same
    exact inv.fetched cmd addr (.inl stands)

theorem completes_keeps [DecidableEq Thread] (inv : Invariant s) (stands : s.prm = .loaded cmd) :
    Invariant (next s (.completes cmd)) := by
  obtain ⟨t, page, waits, -⟩ := inv.pending cmd (.inr (by rw [stands]; rfl))
  have served := inv.loaded cmd stands
  have popped : s.popped = s.served := by simpa [stands, PrmPc.unserved] using inv.popped
  have owner : ∀ u, (s.pc u).command = some cmd → u = t :=
    fun u owns => inv.alone u t cmd owns (by rw [waits]; rfl)
  -- A command is pushed once, and this one has been popped, so it is not in the queue again.
  have unqueued : cmd ∉ s.queue := by
    have once := inv.once
    rw [inv.ordered, popped, List.nodup_append] at once
    exact fun queued => once.2.2 cmd served cmd queued rfl
  have done : (next s (.completes cmd)).command cmd = { s.command cmd with done := true } := by
    simp [next, State.setCommand]
  have others : ∀ other, other ≠ cmd → (next s (.completes cmd)).command other = s.command other := by
    intro other different
    simp [next, State.setCommand, different]
  have asks : ∀ u key, (s.pc u).Asks (next s (.completes cmd)).command key →
      (s.pc u).Asks s.command key := by
    intro u key asked
    cases at' : s.pc u with
    | waiting wanted other =>
        rw [at'] at asked
        refine ⟨asked.1, ?_⟩
        by_cases same : other = cmd
        · have undone := asked.2
          rw [same, done] at undone
          cases undone
        · rw [← others other same]
          exact asked.2
    | _ =>
        rw [at'] at asked
        exact asked
  refine { inv with
    clients := fun u => ?_
    one := fun u v key left right => inv.one u v key (asks u key left) (asks v key right)
    pending := fun other waited => ?_
    finished := fun other finished => ?_
    popped := by simpa [next, State.setCommand, PrmPc.unserved, PrmPc.command] using popped
    locked := False.elim
    fetched := by simp [next, State.setCommand]
    loaded := by simp [next, State.setCommand] }
  · by_cases same : u = t
    · -- its own command is done now
      subst same
      have fits := inv.clients u
      rw [waits] at fits
      change Fits _ (s.pc u)
      rw [waits, Fits, done]
      exact ⟨fits.1, fits.2.1, fits.2.2.1, fun undone => by cases undone⟩
    -- Nobody else waits for this command, so nobody else sees its flag.
    · have different : ∀ other, (s.pc u).command = some other → other ≠ cmd := by
        rintro other owns rfl
        exact same (owner u owns)
      refine unnoticed_fits (inv.clients u) ⟨rfl, fun other owns => others other (different other owns),
        Nat.le_refl _, fun _ _ => Iff.rfl, fun other owns _ => ⟨?_, ?_⟩⟩
      · rw [stands]
        rintro ⟨⟩
        exact different cmd owns rfl
      · rintro (queued | current)
        · exact .inl queued
        · rw [stands] at current
          cases current
          exact absurd rfl (different cmd owns)
  -- The PRM serves nothing now, so whatever is still waited for is in the queue.
  · have queued : other ∈ s.queue := by simpa [next, State.setCommand, PrmPc.command] using waited
    obtain ⟨u, wanted, standing, undone⟩ := inv.pending other (.inl queued)
    have different : other ≠ cmd := fun same => unqueued (same ▸ queued)
    exact ⟨u, wanted, standing, by rw [others other different, undone]⟩
  · by_cases same : other = cmd
    · exact same ▸ served
    · rw [others other same] at finished
      exact inv.finished other finished

theorem service_exact {m : Machine} (sound : MmuSound (books m.mmu))
    (absent : frameOf m.mmu.memIpt addr.key = none) :
    prmService m.prm m.mmu addr ≠ .error (.assertion .mmuMapPage) ∧
    ∀ prm mmu, prmService m.prm m.mmu addr = .ok (prm, mmu) → MmuSound (books mmu) ∧
      ∀ key, key ≠ addr.key → frameOf m.mmu.memIpt key = none → frameOf mmu.memIpt key = none := by
  have follows := prm_service_follows m.mmu m.prm addr
  rcases prm_service_cases sound m.prm absent with ⟨prm', after, ran, kept, -, others⟩ | refused
  · refine ⟨fun failed => ?_, fun prm mmu ran' => ?_⟩
    · rw [follows.asserts _ failed] at ran
      cases ran
    · obtain ⟨_, same, rfl⟩ := follows.succeeds _ ran'
      rw [same] at ran
      cases ran
      exact ⟨kept, others⟩
  · refine ⟨fun failed => ?_, fun prm mmu ran => ?_⟩
    · rw [follows.asserts _ failed] at refused
      cases refused
    · obtain ⟨_, same, rfl⟩ := follows.succeeds _ ran
      rw [same] at refused
      cases refused

theorem serves_keeps [DecidableEq Thread] (inv : Invariant s) (stands : s.prm = .writing cmd addr) :
    Invariant (next s (.serves cmd addr)) := by
  obtain ⟨t, page, waits, undone⟩ := inv.pending cmd (.inr (by rw [stands]; rfl))
  have waiting := inv.clients t
  rw [waits] at waiting
  have named : addr = page := (inv.fetched cmd addr (.inr stands)).trans waiting.1
  have absent : frameOf s.machine.mmu.memIpt addr.key = none := by
    rw [named]
    exact (waiting.2.2.2 undone (by simp [stands])).1
  have asked : (s.pc t).Asks s.command addr.key := by
    rw [waits, named]
    exact ⟨rfl, undone⟩
  -- The one fault for each page: what the other clients ask for is not the page loaded here.
  have apart : ∀ u (page : VirtAddr), u ≠ t → (s.pc u).Asks s.command page.key →
      page.key ≠ addr.key :=
    fun u page different asks same => different (inv.one u t addr.key (same ▸ asks) asked)
  obtain ⟨fails, served⟩ := service_exact inv.sound absent
  apply after_keeps inv
  · exact fails
  · rintro ⟨prm, mmu⟩ ran
    obtain ⟨sound, others⟩ := served prm mmu ran
    refine { inv with
      sound := sound
      clients := fun u => ?_
      pending := fun other waited => inv.pending other (by rwa [stands])
      finished := fun other done => List.mem_append_left _ (inv.finished other done)
      popped := by simp [inv.popped, stands, PrmPc.unserved, PrmPc.command]
      locked := False.elim
      fetched := by simp
      loaded := fun other same => by cases same; simp }
    have fits := inv.clients u
    have outside := inv.locked (by rw [stands]; trivial) u
    have apart := apart u
    change Fits _ (s.pc u)
    -- Its page is mapped, and the client that waits for it promises nothing before its flag is set.
    by_cases same : u = t
    · subst same
      rw [waits]
      exact ⟨waiting.1, waiting.2.1, waiting.2.2.1, fun _ unloaded => absurd rfl unloaded⟩
    · cases at' : s.pc u with
      | faulting page =>
          rw [at'] at outside
          exact absurd trivial outside
      | pinned page frame =>
          rw [at'] at outside
          exact absurd trivial outside
      | requesting page =>
          rw [at'] at fits apart
          exact others _ (apart page same rfl) fits
      | created page other =>
          rw [at'] at fits apart
          exact ⟨others _ (apart page same rfl) fits.1, fits.2⟩
      | waiting page other =>
          rw [at'] at fits apart
          refine ⟨fits.1, fits.2.1, fits.2.2.1, fun undone unloaded => ?_⟩
          obtain ⟨gone, coming⟩ := fits.2.2.2 undone (by simp [stands])
          refine ⟨others _ (apart page same ⟨rfl, undone⟩) gone, coming.imp_right fun current => ?_⟩
          rwa [stands] at current
      | completed page other =>
          rw [at'] at fits
          exact fits
      | _ => trivial

end Prm

theorem step_keeps [DecidableEq Thread] (inv : Invariant s) {event : Event Thread}
    (enabled : ((program Thread).only OneFault).enabled s event) : Invariant (next s event) := by
  obtain ⟨⟨-, ready⟩, one⟩ := enabled
  cases event with
  | enters t page =>
      exact moves_keeps inv (quiet_moves trivial rfl (fun _ => id) (by simp [ready.1])
        fun _ => ready.2)
  | tests t page => exact tests_keeps inv ready
  | releases t page => exact releases_keeps inv ready one
  | allocates t page => exact allocates_keeps inv ready
  | pushes t page cmd => exact pushes_keeps inv ready
  | wakes t page cmd => exact wakes_keeps inv ready
  | frees t page cmd => exact frees_keeps inv ready
  | reacquires t page =>
      exact moves_keeps inv (quiet_moves trivial rfl (fun _ => id) (by simp [ready.1])
        fun _ => ready.2)
  | retests t page => exact retests_keeps inv ready
  | reads t page frame nbytes =>
      have held := inv.clients t
      rw [ready] at held
      obtain ⟨i, -, held⟩ := held
      exact reads_keeps inv held nbytes
  | writes t page frame buf =>
      have held := inv.clients t
      rw [ready] at held
      obtain ⟨i, -, held⟩ := held
      exact writes_keeps inv held buf
  | leaves t page frame =>
      have stands : s.pc t = .pinned page frame := ready
      -- The frame stays resident as long as the read lock is held, and here it is given back.
      exact moves_keeps inv (quiet_moves trivial rfl (fun _ => id) (by simp [stands]) False.elim)
  | pops cmd => exact pops_keeps inv ready.1 ready.2
  | fetches cmd => exact fetches_keeps inv ready
  | acquires cmd addr => exact acquires_keeps inv ready.1 ready.2
  | serves cmd addr => exact serves_keeps inv ready
  | completes cmd => exact completes_keeps inv ready

end Steps

omit [DecidableEq Thread] in
theorem start_invariant {machine : Machine} (sound : MmuSound (books machine.mmu)) :
    Invariant (start Thread machine) where
  sound := sound
  intact := by simp [start]
  clients _ := trivial
  alone := by simp [start, ClientPc.command]
  one _ _ _ asked := asked.elim
  pending := by simp [start, PrmPc.command]
  finished := by simp [start]
  ordered := rfl
  popped := rfl
  once := .nil
  known := by simp [start]
  locked := False.elim
  fetched := by simp [start]
  loaded := by simp [start]

/-- What the protocol promises in a state: `popped_order` to `served_once` of the
queue, the rest of the clients and of the commands they own. -/
structure Protocol (s : State Thread) : Prop where
  popped_order : s.pushed = s.popped ++ s.queue
  served_order : s.popped = s.served ++ s.prm.unserved.toList
  served_once : s.pushed.Nodup
  completed : ∀ t page cmd, s.pc t = .completed page cmd → cmd ∈ s.served
  coming : ∀ t page cmd, s.pc t = .waiting page cmd → (s.command cmd).done = false →
    cmd ∈ s.queue ∨ s.prm.command = some cmd
  allocated : ∀ cmd, s.prm.command = some cmd → (s.command cmd).freed = false
  absent : s.aborted ≠ some (.assertion .mmuMapPage)
  pinned : ∀ t page frame, s.pc t = .pinned page frame →
    (∃ i, frame = .ok i) ∧ iptTranslate s.machine.mmu.memIpt page = frame ∧ ¬ s.prm.Writes

omit [DecidableEq Thread] in
theorem invariant_protocol {s : State Thread} (inv : Invariant s) : Protocol s where
  popped_order := inv.ordered
  served_order := inv.popped
  served_once := inv.once
  completed t page cmd stands := by
    have fits := inv.clients t
    rw [stands] at fits
    exact inv.finished cmd fits.2.1
  coming t page cmd stands undone := by
    have fits := inv.clients t
    rw [stands] at fits
    by_cases loaded : s.prm = .loaded cmd
    · exact .inr (by rw [loaded]; rfl)
    · exact (fits.2.2.2 undone loaded).2
  allocated cmd current := by
    obtain ⟨t, page, waits, -⟩ := inv.pending cmd (.inr current)
    have fits := inv.clients t
    rw [waits] at fits
    exact fits.2.1
  absent := inv.intact
  pinned t page frame stands := by
    have fits := inv.clients t
    rw [stands] at fits
    obtain ⟨i, rfl, held⟩ := fits
    exact ⟨⟨i, rfl⟩, translate_exact inv.sound.table held,
      holder_free inv (t := t) (by rw [stands]; trivial)⟩

/-- In every interleaving the commands are popped and served in the order they
were pushed, a client returns after its own command was served, no freed command
is touched and a pinned page stays in its frame. -/
theorem faults_served_once {frames pages block : Nat} (oneFrame : 0 < frames)
    (onePage : 0 < pages) (positive : 0 < block) (size nprocs freq : Nat)
    {past : List ProcessTable.Step} {sys : ProcessTable.System}
    (before : ProcessTable.Run ProcessTable.Step.Allowed
      (ProcessTable.initialSystem frames pages size block nprocs freq) past sys)
    {events : List (Event Thread)} {s : State Thread}
    (run : Run ((program Thread).only OneFault) (start Thread sys.machine) events s) :
    Protocol s := by
  obtain ⟨sound, -⟩ :=
    ProcessTable.run_books (ProcessTable.initial_books oneFrame onePage positive nprocs freq) before
  exact invariant_protocol (run_invariant run (start_invariant sound.mmu)
    fun _ _ inv enabled => step_keeps inv enabled)

/-- The only frame holds the page of process 0 and process 1 faults. -/
def twoProcesses : List ProcessTable.Step :=
  [.create fun _ => 0, .create fun _ => 0, .start 0, .start 1]

/-- Each of the two clients evicts the page of the other, and the second one has
to ask again. -/
def stolenFrame : List (Event (Fin 2)) :=
  [.enters 1 ⟨1, 0, 0⟩, .tests 1 ⟨1, 0, 0⟩, .releases 1 ⟨1, 0, 0⟩, .allocates 1 ⟨1, 0, 0⟩,
    .pushes 1 ⟨1, 0, 0⟩ 0, .wakes 1 ⟨1, 0, 0⟩ 0, .pops 0, .fetches 0, .acquires 0 ⟨1, 0, 0⟩,
    .serves 0 ⟨1, 0, 0⟩, .enters 0 ⟨0, 0, 0⟩, .tests 0 ⟨0, 0, 0⟩, .releases 0 ⟨0, 0, 0⟩,
    .allocates 0 ⟨0, 0, 0⟩, .pushes 0 ⟨0, 0, 0⟩ 1, .completes 0, .pops 1, .fetches 1,
    .acquires 1 ⟨0, 0, 0⟩, .serves 1 ⟨0, 0, 0⟩, .completes 1, .wakes 1 ⟨1, 0, 0⟩ 0,
    .frees 1 ⟨1, 0, 0⟩ 0, .reacquires 1 ⟨1, 0, 0⟩, .retests 1 ⟨1, 0, 0⟩, .releases 1 ⟨1, 0, 0⟩,
    .allocates 1 ⟨1, 0, 0⟩, .pushes 1 ⟨1, 0, 0⟩ 2, .pops 2, .wakes 0 ⟨0, 0, 0⟩ 1,
    .frees 0 ⟨0, 0, 0⟩ 1, .reacquires 0 ⟨0, 0, 0⟩, .retests 0 ⟨0, 0, 0⟩, .writes 0 ⟨0, 0, 0⟩ (.ok 0) [7]]

theorem faults_served_once_stolen :
    ∃ sys events, ∃ s : State (Fin 2),
      Run ((program (Fin 2)).only OneFault) (start (Fin 2) (ProcessTable.System.machine sys)) events s ∧
      s.pushed = [0, 1, 2] ∧ s.pc 0 = .pinned ⟨0, 0, 0⟩ (.ok 0) ∧ s.pc 1 = .waiting ⟨1, 0, 0⟩ 2 ∧
      Protocol s := by
  have replayed : (ProcessTable.replaySteps ProcessTable.Step.Allowed
      (ProcessTable.initialSystem 1 2 1 1 2 1) twoProcesses).any (fun sys =>
        (replay ((program (Fin 2)).only OneFault) (start (Fin 2) sys.machine) stolenFrame).any
          fun s => decide (s.pushed = [0, 1, 2] ∧ s.pc 0 = .pinned ⟨0, 0, 0⟩ (.ok 0) ∧
            s.pc 1 = .waiting ⟨1, 0, 0⟩ 2)) = true := by decide
  obtain ⟨sys, ran, found⟩ := (Option.any_eq_true _ _).mp replayed
  obtain ⟨events, s, run, pushed, first, second⟩ := replay_finds found
  exact ⟨sys, events, s, run, pushed, first, second, faults_served_once (by decide) (by decide)
    (by decide) 1 2 1 (ProcessTable.replay_steps_run .nil ran) run⟩

end VmSim.FaultProtocol
