import VmSim.ThreadPaging

/-!
The steps of the threads over the memory: none of them fails, each leaves the memory
in order, and the written bytes stay where they can be read.
-/

namespace VmSim.ThreadCode
open LockedThreads Interleaving PageTable DiskBlocks KeyedMap MemoryUnit PageReplacement PagingRuns
open FramePool DemandPaging BlockAllocator Leases

section Instructions
variable {t : Thread} {sh : Shared} {post : Place t → Shared → Prop} {next : Place t}

theorem on_mmu_goes {does : Mmu → Outcome Mmu} {mmu : Mmu} (done : does sh.machine.mmu = .ok mmu)
    (there : post next (sh.onMmu mmu)) : (onMmu does next).Goes sh post :=
  ⟨sh.onMmu mmu, next, by simp [done], there⟩

theorem test_mmu_goes {test : Mmu → Outcome Bool} {found : Bool} {yes no : Place t}
    (done : test sh.machine.mmu = .ok found) (there : post (if found then yes else no) sh) :
    (testMmu test yes no).Goes sh post :=
  ⟨sh, if found then yes else no, by simp [done], there⟩

theorem section_goes {lock : Lock} {mode : Mode} {does : Mmu → Outcome Mmu} {pc : Phase → Place t}
    {phase : Phase} (enters : phase = .want → post (pc .inside) sh)
    (inside : phase = .inside → ∃ mmu, does sh.machine.mmu = .ok mmu ∧ post (pc .leave) (sh.onMmu mmu))
    (ends : phase = .leave → post next sh) : (mmuSection lock mode does pc next phase).Goes sh post := by
  cases phase with
  | want => exact enters rfl
  | inside =>
      obtain ⟨mmu, done, there⟩ := inside rfl
      exact on_mmu_goes done there
  | leave => exact ends rfl

end Instructions

/-! A thread of a process. -/

section Process
variable {blk size n : Nat} {procs : Nat → ProcessPc} {ui : UiPc} {prm : PrmPc} {sh sh' : Shared}
variable {place' : ProcessPc}

/-- It is the turn of the process: nobody else has what it claims for writing. -/
structure Turn (blk size : Nat) (procs : Nat → ProcessPc) (ui : UiPc) (prm : PrmPc) (sh : Shared)
    (n : Nat) : Prop where
  paged : Paged blk size procs ui prm sh
  others : ∀ m, m ≠ n → (Lock.mmu, Mode.read) ∈ (procs m).claims →
    (Lock.mmu, Mode.write) ∉ (procs n).claims
  alone : (Lock.mmu, Mode.write) ∈ prm.claims → ∀ mode, (Lock.mmu, mode) ∉ (procs n).claims
  requested : Requested procs prm sh.control

/-- The memory is in order after a step, and the written bytes are with what was written. -/
structure ProcessPaged (blk size : Nat) (procs : Nat → ProcessPc) (ui : UiPc) (prm : PrmPc) (n : Nat)
    (sh : Shared) (place' : ProcessPc) (sh' : Shared) : Prop where
  paged : Paged blk size (Function.update procs n place') ui prm sh'
  holds : ∀ written, prm.Holds written sh.store →
    prm.Holds (recorded written (procs n).action) sh'.store

theorem process_paged (turn : Turn blk size procs ui prm sh n) (sound : MmuSound sh'.machine.mmu)
    (sized : Sized blk size sh') (housed : Housed blk (Function.update procs n place') ui sh')
    (store : StoreStep (procs n).claims (fun _ => False) sh.store sh'.store)
    (queued : ∀ cmd ∈ sh'.control.queue, Absent sh'.store (sh'.control.command cmd).addr)
    (commands : ∀ cmd, prm.command = some cmd →
      (sh'.control.command cmd).addr = (sh.control.command cmd).addr)
    (counts : place'.Counts blk) (knows : place'.Knows sh'.store) :
    Paged blk size (Function.update procs n place') ui prm sh' where
  sound := sound
  sized := sized
  housed := housed
  counts m := by
    by_cases mine : m = n
    · rwa [mine, Function.update_self]
    · rw [Function.update_of_ne mine]
      exact turn.paged.counts m
  counting := turn.paged.counting
  queued := queued
  process m := by
    by_cases mine : m = n
    · rwa [mine, Function.update_self]
    · rw [Function.update_of_ne mine]
      exact process_knows store (turn.others m mine) (fun _ _ _ _ _ => id) (turn.paged.process m)
  service := prm_knows store turn.alone commands (fun _ _ _ _ => id) turn.requested.serves
    turn.paged.service

theorem leases_updated {c' : Control} (starts : SameStarts sh.control c') :
    leaseOf blk (Function.update procs n place') ui c' =
      Function.update (leaseOf blk procs ui sh.control) (some n) (place'.lease blk sh.control) := by
  funext owner
  cases owner with
  | none => exact ui_lease_starts starts ui
  | some m =>
      by_cases mine : m = n
      · subst mine
        rw [Function.update_self, leaseOf, Function.update_self]
        exact process_lease_starts starts place'
      · rw [Function.update_of_ne (by simpa using mine), leaseOf, Function.update_of_ne mine]
        exact process_lease_starts starts (procs m)

theorem leases_kept {c' : Control} (starts : SameStarts sh.control c')
    (lease : place'.lease blk sh.control = (procs n).lease blk sh.control) :
    leaseOf blk (Function.update procs n place') ui c' = leaseOf blk procs ui sh.control := by
  rw [leases_updated starts, lease]
  exact Function.update_eq_self (some n) (leaseOf blk procs ui sh.control)

structure Idles (c c' : Control) : Prop where
  commands : SameCommands c c'
  processes : c'.prcBlkSize = c.prcBlkSize
  starts : SameStarts c c'

theorem idles_refl (c : Control) : Idles c c := ⟨same_commands_refl c, rfl, fun _ => rfl⟩

theorem set_slot_idles {i : Nat} {slot : Slot}
    (same : slot.diskBlockStart = (sh.control.slot i).diskBlockStart) :
    Idles sh.control (sh.setSlot i slot).control :=
  ⟨set_slot_commands, rfl, set_slot_starts same⟩

theorem process_leaves (turn : Turn blk size procs ui prm sh n) {mmu : Mmu} {st : ByteStore}
    (leaves : Leaves sh.machine.mmu mmu st) (backing : st.backing = sh.store.backing)
    (store : StoreStep (procs n).claims (fun _ => False) sh.store st)
    (lease : place'.lease blk sh.control = (procs n).lease blk sh.control)
    (counts : place'.Counts blk) (knows : place'.Knows st)
    (holds : ∀ written, prm.Holds written sh.store →
      prm.Holds (recorded written (procs n).action) st) :
    ProcessPaged blk size procs ui prm n sh place' (sh.onMmu mmu) := by
  have view : (sh.onMmu mmu).store = st := leaves.view
  refine ⟨process_paged turn leaves.sound (sized_leaves turn.paged.sized leaves.shape rfl)
    (housed_leaves turn.paged.housed leaves backing (leases_kept (fun _ => rfl) lease)) (by rwa [view])
    (fun cmd queued => ?_) (fun _ _ => rfl) counts (by rwa [view]), by rwa [view]⟩
  rw [view]
  exact store.gains _ id (turn.paged.queued cmd queued)

theorem process_still (turn : Turn blk size procs ui prm sh n) (machine : sh'.machine = sh.machine)
    (idles : Idles sh.control sh'.control)
    (lease : place'.lease blk sh.control = (procs n).lease blk sh.control)
    (counts : place'.Counts blk) (knows : place'.Knows sh.store) (action : (procs n).action = none) :
    ProcessPaged blk size procs ui prm n sh place' sh' := by
  have view : sh'.store = sh.store := by rw [Shared.store, machine]
  have leaves : Leaves sh.machine.mmu sh'.machine.mmu sh.store := by
    rw [machine]
    exact leaves_refl turn.paged.sound
  refine ⟨process_paged turn leaves.sound
    (sized_leaves turn.paged.sized leaves.shape idles.processes)
    (housed_leaves turn.paged.housed leaves rfl (leases_kept idles.starts lease)) ?_ ?_ ?_ counts ?_,
    fun written => ?_⟩
  · rw [view]
    exact store_still
  · rw [idles.commands.queue, idles.commands.command, view]
    exact turn.paged.queued
  · rw [idles.commands.command]
    exact fun _ _ => rfl
  · rwa [view]
  · rw [view, action]
    exact id

theorem process_same (turn : Turn blk size procs ui prm sh n) {mmu : Mmu}
    (leaves : Leaves sh.machine.mmu mmu sh.store)
    (lease : place'.lease blk sh.control = (procs n).lease blk sh.control) (counts : place'.Counts blk)
    (knows : place'.Knows sh.store) (action : (procs n).action = none) :
    ProcessPaged blk size procs ui prm n sh place' (sh.onMmu mmu) := by
  refine process_leaves turn leaves rfl store_still lease counts knows fun written => ?_
  rw [action]
  exact id

theorem access_quiet {pid : Nat} {a : Access} {rest : List Access} {pc : AccessPc}
    (place : procs n = ⟨pid, .access a rest pc⟩) (other : pc ≠ .copying) :
    (procs n).action = none := by
  rw [place]
  cases a <;> cases pc <;> first | rfl | exact absurd rfl other

theorem marks_step {claims : List (Lock × Mode)} {st st' : ByteStore}
    (has : (Lock.mmu, Mode.read) ∈ claims) (frames : st'.pool.frame = st.pool.frame)
    (marks : ∀ key, st.pool.dirty key = true → st'.pool.dirty key = true) :
    StoreStep claims (fun _ => False) st st' where
  apart none := absurd has (none .read)
  frames _ := frames
  marks _ := marks
  gains key _ absent := by rwa [frames]

section Accessing
variable {pid : Nat} {a : Access} {rest : List Access} {pc : AccessPc}

theorem referencing_goes (turn : Turn blk size procs ui prm sh n)
    (place : procs n = ⟨pid, .access a rest (.referencing .inside)⟩) :
    ∃ mmu, reference a sh.machine.mmu = .ok mmu ∧
      ProcessPaged blk size procs ui prm n sh ⟨pid, .access a rest (.referencing .leave)⟩
        (sh.onMmu mmu) := by
  have held : Resident sh.store a.addr := by
    have knows := turn.paged.process n
    rwa [place] at knows
  have claimed : (Lock.mmu, Mode.read) ∈ (procs n).claims := by
    rw [place]
    simp [ProcessPc.claims, AccessPc.claims, Phase.claims]
  have free : (Lock.mmu, Mode.write) ∉ prm.claims := fun has => turn.alone has .read claimed
  obtain ⟨mmu, referenced, leaves⟩ := reference_goes turn.paged.sound held
  have marked : ∀ key, sh.store.pool.dirty key = true →
      (touch sh.store.pool a.addr.key a.writes).dirty key = true := by
    intro key dirty
    by_cases same : key = a.addr.key
    · subst same
      simp [touch, dirty]
    · simpa [touch, same] using dirty
  refine ⟨mmu, referenced, process_leaves turn leaves rfl (marks_step claimed rfl marked)
    (by rw [place]; rfl) trivial ⟨held, fun writes => ?_⟩ fun written => ?_⟩
  · simp [touch, writes]
  · rw [access_quiet place (by simp), plain_holds free, plain_holds free]
    exact touch_preserves

theorem copying_goes (turn : Turn blk size procs ui prm sh n) (proper : Proper blk size pid a)
    (place : procs n = ⟨pid, .access a rest .copying⟩) :
    ∃ mmu, copyBytes a sh.machine.mmu = .ok mmu ∧
      ProcessPaged blk size procs ui prm n sh ⟨pid, .access a rest .releasing⟩ (sh.onMmu mmu) := by
  obtain ⟨held, marked⟩ : Resident sh.store a.addr ∧ Dirtied sh.store a := by
    have knows := turn.paged.process n
    rwa [place] at knows
  have claimed : (Lock.mmu, Mode.read) ∈ (procs n).claims := by
    rw [place]
    simp [ProcessPc.claims, AccessPc.claims]
  have free : (Lock.mmu, Mode.write) ∉ prm.claims := fun has => turn.alone has .read claimed
  obtain ⟨mmu, copied, leaves⟩ := copy_goes turn.paged.sound held
    (by rw [turn.paged.sized.pages]; exact proper.inside)
  refine ⟨mmu, copied, process_leaves turn leaves rfl (marks_step claimed rfl fun _ => id)
    (by rw [place]; rfl) trivial trivial fun written => ?_⟩
  rw [plain_holds free, plain_holds free, place]
  cases a with
  | read addr nbytes =>
      have same : writeFrame sh.store addr.key (fun _ => none) = sh.store.memory := by
        unfold writeFrame
        split <;> simp
      intro preserves
      simp only [Access.change, Access.addr, same]
      exact preserves
  | write addr buf =>
      have writes : Access.writes (.write addr buf) = true := rfl
      intro preserves
      exact copy_preserves turn.paged.sound.layout preserves held (marked writes) (changeOf addr buf)

theorem translation_goes (turn : Turn blk size procs ui prm sh n) {yes no : Place (.process n)}
    {post : Place (.process n) → Shared → Prop} (left : Resident sh.store a.addr → post yes sh)
    (right : Absent sh.store a.addr → post no sh) :
    (testMmu (fun mmu => iptHasTranslation mmu.memIpt a.addr) yes no).Goes sh post := by
  refine test_mmu_goes (has_translation_exact turn.paged.sound.table a.addr) ?_
  cases found : frameOf sh.machine.mmu.memIpt a.addr.key with
  | none => exact right found
  | some frame =>
      refine left fun absent => ?_
      have same : frameOf sh.machine.mmu.memIpt a.addr.key = none := absent
      rw [found] at same
      cases same

theorem access_idle (turn : Turn blk size procs ui prm sh n) (place : procs n = ⟨pid, .access a rest pc⟩)
    (other : pc ≠ .copying) {pc' : AccessPc} (machine : sh'.machine = sh.machine)
    (idles : Idles sh.control sh'.control) (knows : pc'.Knows sh.store a) :
    ProcessPaged blk size procs ui prm n sh ⟨pid, .access a rest pc'⟩ sh' :=
  process_still turn machine idles (by rw [place]; rfl) trivial knows (access_quiet place other)

theorem access_still (turn : Turn blk size procs ui prm sh n) (place : procs n = ⟨pid, .access a rest pc⟩)
    (other : pc ≠ .copying) {pc' : AccessPc} (knows : pc'.Knows sh.store a) :
    ProcessPaged blk size procs ui prm n sh ⟨pid, .access a rest pc'⟩ sh :=
  access_idle turn place other rfl (idles_refl _) knows

theorem access_ends (turn : Turn blk size procs ui prm sh n) (place : procs n = ⟨pid, .access a rest pc⟩)
    (other : pc ≠ .copying) : ProcessPaged blk size procs ui prm n sh ⟨pid, .working rest⟩ sh :=
  process_still turn rfl (idles_refl _) (by rw [place]; rfl) trivial trivial (access_quiet place other)

theorem access_same (turn : Turn blk size procs ui prm sh n) (place : procs n = ⟨pid, .access a rest pc⟩)
    (other : pc ≠ .copying) {pc' : AccessPc} {mmu : Mmu} (leaves : Leaves sh.machine.mmu mmu sh.store)
    (knows : pc'.Knows sh.store a) :
    ProcessPaged blk size procs ui prm n sh ⟨pid, .access a rest pc'⟩ (sh.onMmu mmu) :=
  process_same turn leaves (by rw [place]; rfl) trivial knows (access_quiet place other)

theorem counting_goes (turn : Turn blk size procs ui prm sh n) {hit : Bool} {phase : Phase}
    (place : procs n = ⟨pid, .access a rest (.counting hit phase)⟩) :
    (accessCode (t := .process n) a (fun pc => (⟨pid, .access a rest pc⟩ : ProcessPc))
      (⟨pid, .working rest⟩ : ProcessPc) (.counting hit phase)).Goes sh
      (ProcessPaged blk size procs ui prm n sh) := by
  have knows := turn.paged.process n
  rw [place] at knows
  have there : ∀ phase', AccessPc.Knows sh.store a (.counting hit phase') := by
    intro phase'
    cases hit <;> exact knows
  rw [accessCode]
  refine section_goes (fun _ => access_still turn place (by simp) (there .inside)) (fun _ => ?_) fun _ => ?_
  · obtain ⟨mmu, counted, leaves⟩ := count_goes turn.paged.sound hit
    exact ⟨mmu, counted, access_same turn place (by simp) leaves (there .leave)⟩
  · cases hit with
    | true => exact access_still turn place (by simp) knows
    | false => exact access_still turn place (by simp) knows

theorem requests_paged (turn : Turn blk size procs ui prm sh n) (place : procs n = ⟨pid, .access a rest pc⟩)
    (other : pc ≠ .copying) (machine : sh'.machine = sh.machine) (starts : SameStarts sh.control sh'.control)
    (blocks : sh'.control.prcBlkSize = sh.control.prcBlkSize)
    (queued : ∀ cmd ∈ sh'.control.queue, Absent sh.store (sh'.control.command cmd).addr)
    (commands : ∀ cmd, prm.command = some cmd →
      (sh'.control.command cmd).addr = (sh.control.command cmd).addr)
    {pc' : AccessPc} (knows : pc'.Knows sh.store a) :
    ProcessPaged blk size procs ui prm n sh ⟨pid, .access a rest pc'⟩ sh' := by
  have view : sh'.store = sh.store := by rw [Shared.store, machine]
  have leaves : Leaves sh.machine.mmu sh'.machine.mmu sh.store := by
    rw [machine]
    exact leaves_refl turn.paged.sound
  have leases : leaseOf blk (Function.update procs n ⟨pid, .access a rest pc'⟩) ui sh'.control =
      leaseOf blk procs ui sh.control := leases_kept starts (by rw [place]; rfl)
  refine ⟨process_paged turn leaves.sound (sized_leaves turn.paged.sized leaves.shape blocks)
    (housed_leaves turn.paged.housed leaves rfl leases) ?_ ?_ commands trivial ?_, fun written => ?_⟩
  · rw [view]
    exact store_still
  · rwa [view]
  · rwa [view]
  · rw [view, access_quiet place other]
    exact id

/-- A new command: the ones that are outstanding keep their addresses. -/
theorem requesting_goes (turn : Turn blk size procs ui prm sh n)
    (place : procs n = ⟨pid, .access a rest .requesting⟩) :
    (accessCode (t := .process n) a (fun pc => (⟨pid, .access a rest pc⟩ : ProcessPc))
      (⟨pid, .working rest⟩ : ProcessPc) .requesting).Goes sh (ProcessPaged blk size procs ui prm n sh) := by
  have knows := turn.paged.process n
  rw [place] at knows
  have older : ∀ cmd addr, (∃ m, (procs m).Has cmd addr) →
      Function.update sh.control.command sh.control.fresh ⟨a.addr, false⟩ cmd = sh.control.command cmd := by
    rintro cmd addr ⟨m, has⟩
    exact Function.update_of_ne (Nat.ne_of_lt (turn.requested.numbered m cmd addr has).1) ..
  have outside : ∀ cmd ∈ outstanding prm sh.control, ∃ addr m, (procs m).Has cmd addr := by
    intro cmd member
    obtain ⟨-, m, addr, asked⟩ := turn.requested.awaited cmd member
    exact ⟨addr, m, .inr asked⟩
  refine ⟨_, _, rfl, ?_⟩
  refine requests_paged turn place (by simp) (by rfl) (fun _ => by rfl) (by rfl) (fun cmd queued => ?_)
    (fun cmd command => ?_) ?_
  · obtain ⟨addr, asker⟩ := outside cmd (by simpa [outstanding] using .inr queued)
    have before := turn.paged.queued cmd queued
    change Absent sh.store (Function.update sh.control.command sh.control.fresh ⟨a.addr, false⟩ cmd).addr
    rwa [older cmd addr asker]
  · obtain ⟨addr, asker⟩ := outside cmd (by simp [outstanding, command])
    exact congrArg PrmCommand.addr (older cmd addr asker)
  · exact knows

/-- The command is pushed while its page is still absent. -/
theorem pushing_goes (turn : Turn blk size procs ui prm sh n) {cmd : Nat} {phase : Phase}
    (place : procs n = ⟨pid, .access a rest (.pushing cmd phase)⟩) :
    (accessCode (t := .process n) a (fun pc => (⟨pid, .access a rest pc⟩ : ProcessPc))
      (⟨pid, .working rest⟩ : ProcessPc) (.pushing cmd phase)).Goes sh
      (ProcessPaged blk size procs ui prm n sh) := by
  have knows := turn.paged.process n
  rw [place] at knows
  cases phase with
  | want => exact access_still turn place (by simp) knows
  | inside =>
      have has : (procs n).Has cmd a.addr := by
        rw [place]
        exact .inl rfl
      have addr := (turn.requested.numbered n cmd a.addr has).2
      have queued : ∀ other ∈ sh.control.queue ++ [cmd], Absent sh.store (sh.control.command other).addr := by
        intro other member
        rcases List.mem_append.mp member with earlier | last
        · exact turn.paged.queued other earlier
        · rw [List.mem_singleton.mp last, addr]
          exact knows
      have pushed : ∀ pc' : AccessPc, pc'.Knows sh.store a → ProcessPaged blk size procs ui prm n sh
          ⟨pid, .access a rest pc'⟩ (sh.onControl { sh.control with queue := sh.control.queue ++ [cmd] }) := by
        intro pc' there
        exact requests_paged turn place (by simp) (by rfl) (fun _ => by rfl) (by rfl) queued
          (fun _ _ => by rfl) there
      refine ⟨_, _, rfl, ?_⟩
      split
      · exact pushed (.signallingPush cmd) trivial
      · exact pushed (.pushing cmd .leave) trivial
  | leave => exact access_still turn place (by simp) trivial

theorem reading_goes (turn : Turn blk size procs ui prm sh n) {due : Bool} {phase : Phase}
    (place : procs n = ⟨pid, .access a rest (.reading due phase)⟩) :
    (accessCode (t := .process n) a (fun pc => (⟨pid, .access a rest pc⟩ : ProcessPc))
      (⟨pid, .working rest⟩ : ProcessPc) (.reading due phase)).Goes sh
      (ProcessPaged blk size procs ui prm n sh) := by
  cases phase with
  | want => exact access_still turn place (by simp) trivial
  | inside =>
      rw [accessCode]
      refine test_mmu_goes rfl ?_
      split
      · exact access_still turn place (by simp) trivial
      · exact access_still turn place (by simp) trivial
  | leave =>
      cases due with
      | true => exact access_still turn place (by simp) trivial
      | false => exact access_ends turn place (by simp)

theorem access_goes (turn : Turn blk size procs ui prm sh n) (proper : Proper blk size pid a)
    (place : procs n = ⟨pid, .access a rest pc⟩) :
    (accessCode (t := .process n) a (fun pc => (⟨pid, .access a rest pc⟩ : ProcessPc))
      (⟨pid, .working rest⟩ : ProcessPc) pc).Goes sh (ProcessPaged blk size procs ui prm n sh) := by
  have sound := turn.paged.sound
  have knows := turn.paged.process n
  rw [place] at knows
  cases pc with
  | checking =>
      have inside : a.addr.offset + a.nbytes ≤ sh.machine.mmu.mem.pageSize := by
        rw [turn.paged.sized.pages]
        exact proper.inside
      exact on_mmu_goes (in_page_goes sound inside) (access_same turn place (by simp) (leaves_refl sound) trivial)
  | acquiring => exact access_still turn place (by simp) trivial
  | testing =>
      rw [accessCode]
      exact translation_goes turn (fun held => access_still turn place (by simp) held)
        fun absent => access_still turn place (by simp) absent
  | counting hit phase => exact counting_goes turn place
  | faulting => exact access_still turn place (by simp) knows
  | requesting => exact requesting_goes turn place
  | pushing cmd phase => exact pushing_goes turn place
  | signallingPush cmd => exact access_still turn place (by simp) trivial
  | completing cmd phase =>
      cases phase with
      | want => exact access_still turn place (by simp) trivial
      | inside => exact fun _ => access_still turn place (by simp) trivial
      | leave => exact access_still turn place (by simp) trivial
  | reacquiring => exact access_still turn place (by simp) trivial
  | retesting =>
      rw [accessCode]
      exact translation_goes turn (fun held => access_still turn place (by simp) held)
        fun absent => access_still turn place (by simp) absent
  | referencing phase =>
      rw [accessCode]
      refine section_goes (fun want => ?_) (fun inside => ?_) fun leave => ?_
      · subst want
        exact access_still turn place (by simp) knows
      · subst inside
        exact referencing_goes turn place
      · subst leave
        exact access_still turn place (by simp) knows
  | copying =>
      obtain ⟨mmu, copied, there⟩ := copying_goes turn proper place
      exact on_mmu_goes copied there
  | releasing => exact access_still turn place (by simp) trivial
  | reading due phase => exact reading_goes turn place
  | zeroing phase =>
      rw [accessCode]
      exact section_goes (fun _ => access_still turn place (by simp) trivial)
        (fun _ => ⟨_, rfl, access_same turn place (by simp) (zero_goes sound) trivial⟩)
        fun _ => access_still turn place (by simp) trivial
  | asking phase =>
      cases phase with
      | want => exact access_still turn place (by simp) trivial
      | inside =>
          exact ⟨_, _, rfl, access_idle turn place (by simp) rfl ⟨⟨rfl, rfl, rfl⟩, rfl, fun _ => rfl⟩ trivial⟩
      | leave => exact access_ends turn place (by simp)
  | signallingUpdate => exact access_still turn place (by simp) trivial
  | awaitingUpdate => exact fun _ => access_still turn place (by simp) trivial

end Accessing

/-! The deletion of a process. -/

section Freeing
variable {pid page : Nat}

theorem dealloc_leases {pc : DeallocPc} (place : procs n = ⟨pid, .dealloc pc⟩) {l : Lease}
    (lease : pc.lease pid (sh.control.slot pid).diskBlockStart blk = some l) :
    leaseOf blk procs ui sh.control (some n) = some l := by
  rw [leaseOf, place]
  exact lease

theorem freeing_page_goes (turn : Turn blk size procs ui prm sh n)
    (place : procs n = ⟨pid, .dealloc (.freeingPage page .inside)⟩) :
    ∃ mmu, (·.2) <$> mmuFreePage sh.machine.mmu ⟨pid, page, 0⟩ = .ok mmu ∧
      ProcessPaged blk size procs ui prm n sh ⟨pid, .dealloc (.freeingPage page .leave)⟩
        (sh.onMmu mmu) := by
  have sound := turn.paged.sound
  have room : page < blk := by
    have counts := turn.paged.counts n
    rwa [place] at counts
  have claimed : (Lock.mmu, Mode.write) ∈ (procs n).claims := by
    rw [place]
    simp [ProcessPc.claims, DeallocPc.claims, Phase.claims]
  have free : (Lock.mmu, Mode.write) ∉ prm.claims := fun has => turn.alone has .write claimed
  obtain ⟨live, owned, leased⟩ := turn.paged.housed
  have mine : leaseOf blk procs ui sh.control (some n) =
      some ⟨pid, (sh.control.slot pid).diskBlockStart, page, blk⟩ := dealloc_leases place rfl
  have backed := backed_page leased mine (Nat.le_refl page) room
  have present : backingOf sh.machine.mmu (VirtAddr.key ⟨pid, page, 0⟩) ≠ none := by
    intro absent
    cases absent.symm.trans backed
  obtain ⟨mmu, ran, leaves⟩ := free_page_goes sound present
  have retracted := lease_retracted leased mine room
  have view : (sh.onMmu mmu).store = _ := leaves.view
  have store : StoreStep (procs n).claims (fun _ => False) sh.store (sh.onMmu mmu).store := by
    refine ⟨fun none => absurd claimed (none .write), fun none => absurd claimed none,
      fun none => absurd claimed none, fun key _ absent => ?_⟩
    rw [view]
    simp only [Action.apply, given_back_frame]
    by_cases same : key = VirtAddr.key ⟨pid, page, 0⟩
    · rw [same, Function.update_self]
    · rwa [Function.update_of_ne same]
  refine ⟨mmu, by rw [ran]; rfl, process_paged turn leaves.sound
    (sized_leaves turn.paged.sized leaves.shape rfl) ⟨live, leaves_owned leaves owned, ?_⟩ store
    (fun cmd queued => store.gains _ id (turn.paged.queued cmd queued)) (fun _ _ => rfl) room trivial,
    fun written => ?_⟩
  · have backing : backingOf mmu =
        Function.update (backingOf sh.machine.mmu) (pid, page) none := congrArg Store.backing leaves.view
    have pages : mmu.disk.npages = sh.machine.mmu.disk.npages := leaves.shape.diskPages
    have leases : leaseOf blk (Function.update procs n ⟨pid, .dealloc (.freeingPage page .leave)⟩) ui
        sh.control = _ := leases_updated fun _ => rfl
    change Leased blk mmu.disk.npages live _ (backingOf mmu)
    rw [backing, pages]
    change Leased blk _ live (leaseOf blk _ ui sh.control) _
    rw [leases]
    exact retracted
  · rw [plain_holds free, plain_holds free, place, view]
    exact fun preserves => release_preserves sound.layout preserves

theorem freeing_block_goes (turn : Turn blk size procs ui prm sh n)
    (place : procs n = ⟨pid, .dealloc (.freeingBlock .inside)⟩) :
    ∃ disk, diskFreeProcessBlock sh.machine.mmu.disk (sh.control.slot pid).diskBlockStart = .ok disk ∧
      ProcessPaged blk size procs ui prm n sh ⟨pid, .dealloc (.freeingBlock .leave)⟩
        (sh.onMmu { sh.machine.mmu with disk := disk }) := by
  obtain ⟨live, owned, leased⟩ := turn.paged.housed
  have mine : leaseOf blk procs ui sh.control (some n) =
      some ⟨pid, (sh.control.slot pid).diskBlockStart, blk, blk⟩ := dealloc_leases place rfl
  have member : (sh.control.slot pid).diskBlockStart ∈ live := (leased.listed _).mpr ⟨some n, _, mine, rfl⟩
  -- All pages of the process have been freed.
  have unused : ∀ i, (sh.control.slot pid).diskBlockStart ≤ i →
      i < (sh.control.slot pid).diskBlockStart + sh.machine.mmu.disk.processBlockSize →
      ∀ key, backingOf sh.machine.mmu key ≠ some i := by
    intro i low high key
    rw [turn.paged.sized.blocks] at high
    have bound : i - (sh.control.slot pid).diskBlockStart < blk := by omega
    have cell := unused_cell leased mine bound (.inl bound) key
    rwa [Nat.add_sub_cancel' low] at cell
  obtain ⟨disk, ran, marks⟩ := free_block_goes turn.paged.sound owned member unused
  have view : (sh.onMmu { sh.machine.mmu with disk := disk }).store = sh.store := marks.view
  refine ⟨disk, ran, process_paged turn marks.sound (sized_leaves turn.paged.sized marks.shape rfl)
    ⟨_, marks.owned, ?_⟩ (by rw [view]; exact store_still) (fun cmd queued => ?_) (fun _ _ => rfl) trivial
    trivial, fun written => ?_⟩
  · have dropped := lease_dropped leased mine (Nat.le_refl blk)
    have leases : leaseOf blk (Function.update procs n ⟨pid, .dealloc (.freeingBlock .leave)⟩) ui
        sh.control = _ := leases_updated fun _ => rfl
    have pages : disk.npages = sh.machine.mmu.disk.npages := marks.shape.diskPages
    change Leased blk disk.npages _ (leaseOf blk _ ui sh.control) (backingOf sh.machine.mmu)
    rw [leases, pages]
    exact dropped
  · rw [view]
    exact turn.paged.queued cmd queued
  · rw [view, place]
    exact id

structure Condemned (pid : Nat) (pc : DeallocPc) (c : Control) : Prop where
  used : pc = .checking → (c.slot pid).junk = false
  seen : pc = .checking → (c.slot pid).del = true
  box : pc = .emptying .inside → (c.slot pid).mailBox ≠ none

theorem dealloc_goes (turn : Turn blk size procs ui prm sh n) {pc : DeallocPc}
    (place : procs n = ⟨pid, .dealloc pc⟩) (condemned : Condemned pid pc sh.control) :
    (deallocCode (t := .process n) pid (fun pc => (⟨pid, .dealloc pc⟩ : ProcessPc))
      (⟨pid, .lowering⟩ : ProcessPc) pc).Goes sh (ProcessPaged blk size procs ui prm n sh) := by
  have action : (procs n).action = none := by rw [place]; rfl
  have idle : ∀ (pc' : WorkerPc) (sh' : Shared), sh'.machine = sh.machine →
      Idles sh.control sh'.control →
      ProcessPc.lease blk sh.control ⟨pid, pc'⟩ = (procs n).lease blk sh.control →
      ProcessPc.Counts blk ⟨pid, pc'⟩ → ProcessPc.Knows sh.store ⟨pid, pc'⟩ →
      ProcessPaged blk size procs ui prm n sh ⟨pid, pc'⟩ sh' := fun pc' sh' machine idles lease counts knows =>
    process_still turn machine idles lease counts knows action
  have still : ∀ pc' : WorkerPc,
      ProcessPc.lease blk sh.control ⟨pid, pc'⟩ = (procs n).lease blk sh.control →
      ProcessPc.Counts blk ⟨pid, pc'⟩ → ProcessPc.Knows sh.store ⟨pid, pc'⟩ →
      ProcessPaged blk size procs ui prm n sh ⟨pid, pc'⟩ sh := fun pc' =>
    idle pc' sh rfl (idles_refl _)
  cases pc with
  | locking => exact still (.dealloc .checking) (by rw [place]; rfl) trivial trivial
  | checking =>
      refine ⟨sh, ⟨pid, .dealloc (.emptying .want)⟩, ?_,
        still (.dealloc (.emptying .want)) (by rw [place]; rfl) trivial trivial⟩
      simp [condemned.used rfl, condemned.seen rfl, assert]
  | emptying phase =>
      cases phase with
      | want => exact still (.dealloc (.emptying .inside)) (by rw [place]; rfl) trivial trivial
      | inside =>
          obtain ⟨mails, box⟩ := Option.ne_none_iff_exists'.mp (condemned.box rfl)
          refine ⟨sh.setSlot pid { sh.control.slot pid with mailBox := none },
            ⟨pid, .dealloc (.emptying .leave)⟩, by simp only [box], ?_⟩
          exact idle (.dealloc (.emptying .leave)) _ rfl (set_slot_idles rfl) (by rw [place]; rfl) trivial
            trivial
      | leave => exact still (.dealloc (.freeing 0)) (by rw [place]; rfl) trivial trivial
  | freeing page =>
      refine ⟨_, _, rfl, ?_⟩
      split
      · rename_i more
        rw [turn.paged.sized.processes] at more
        exact still (.dealloc (.freeingPage page .want)) (by rw [place]; rfl) more trivial
      · rename_i done
        -- The lease says that no more pages were freed than there are.
        obtain ⟨live, owned, leased⟩ := turn.paged.housed
        have bounded := leased.bounded (some n) _ (dealloc_leases place rfl)
        rw [turn.paged.sized.processes] at done
        have all : page = blk := by
          dsimp only at bounded
          omega
        subst all
        exact still (.dealloc (.freeingBlock .want)) (by rw [place]; rfl) trivial trivial
  | freeingPage page phase =>
      have room : page < blk := by
        have counts := turn.paged.counts n
        rwa [place] at counts
      rw [deallocCode]
      refine section_goes (fun want => ?_) (fun inside => ?_) fun leave => ?_
      · subst want
        exact still (.dealloc (.freeingPage page .inside)) (by rw [place]; rfl) room trivial
      · subst inside
        exact freeing_page_goes turn place
      · subst leave
        exact still (.dealloc (.freeing (page + 1))) (by rw [place]; rfl) trivial trivial
  | freeingBlock phase =>
      cases phase with
      | want => exact still (.dealloc (.freeingBlock .inside)) (by rw [place]; rfl) trivial trivial
      | inside =>
          obtain ⟨disk, ran, there⟩ := freeing_block_goes turn place
          exact ⟨_, _, by simp only [ran]; rfl, there⟩
      | leave => exact still (.dealloc .marking) (by rw [place]; rfl) trivial trivial
  | marking =>
      exact ⟨_, _, rfl, idle (.dealloc .signalling) _ rfl (set_slot_idles rfl) (by rw [place]; rfl) trivial
        trivial⟩
  | signalling => exact still (.dealloc .unlocking) (by rw [place]; rfl) trivial trivial
  | unlocking => exact still .lowering (by rw [place]; rfl) trivial trivial

end Freeing

theorem process_goes (turn : Turn blk size procs ui prm sh n)
    (jobs : (procs n).pc.Fits (Proper blk size) (procs n).pid)
    (popping : (procs n).pc = .popping → (sh.control.slot (procs n).pid).HasMail)
    (condemned : ∀ pc, (procs n).pc = .dealloc pc → Condemned (procs n).pid pc sh.control) :
    (processCode n (procs n)).Goes sh (ProcessPaged blk size procs ui prm n sh) := by
  cases place : procs n with
  | mk pid pc =>
      rw [place] at jobs popping condemned
      have idle : ∀ (pc' : WorkerPc) (sh' : Shared), (procs n).action = none →
          sh'.machine = sh.machine → Idles sh.control sh'.control →
          ProcessPc.lease blk sh.control ⟨pid, pc'⟩ = (procs n).lease blk sh.control →
          ProcessPc.Counts blk ⟨pid, pc'⟩ → ProcessPc.Knows sh.store ⟨pid, pc'⟩ →
          ProcessPaged blk size procs ui prm n sh ⟨pid, pc'⟩ sh' :=
        fun pc' sh' action machine idles lease counts knows =>
          process_still turn machine idles lease counts knows action
      have still : ∀ pc' : WorkerPc, (procs n).action = none →
          ProcessPc.lease blk sh.control ⟨pid, pc'⟩ = (procs n).lease blk sh.control →
          ProcessPc.Counts blk ⟨pid, pc'⟩ → ProcessPc.Knows sh.store ⟨pid, pc'⟩ →
          ProcessPaged blk size procs ui prm n sh ⟨pid, pc'⟩ sh := fun pc' action =>
        idle pc' sh action rfl (idles_refl _)
      cases pc with
      | raising =>
          exact ⟨_, _, rfl, idle .locking _ (by rw [place]; rfl) rfl (set_slot_idles rfl)
            (by rw [place]; rfl) trivial trivial⟩
      | locking => exact still .waiting (by rw [place]; rfl) (by rw [place]; rfl) trivial trivial
      | waiting => exact fun _ => still .popping (by rw [place]; rfl) (by rw [place]; rfl) trivial trivial
      | popping =>
          obtain ⟨mail, rest, box⟩ := popping rfl
          dsimp only at box
          refine ⟨sh.setSlot pid { sh.control.slot pid with mailBox := some rest },
            ⟨pid, .unlocking mail⟩, by simp only [box], ?_⟩
          exact idle (.unlocking mail) _ (by rw [place]; rfl) rfl (set_slot_idles rfl) (by rw [place]; rfl)
            trivial trivial
      | unlocking mail =>
          cases mail with
          | job accesses =>
              exact still (.working accesses) (by rw [place]; rfl) (by rw [place]; rfl) trivial trivial
          | del =>
              exact still (.dealloc .locking) (by rw [place]; rfl) (by rw [place]; rfl) trivial trivial
      | working rest =>
          cases rest with
          | nil =>
              exact ⟨_, _, rfl, still .locking (by rw [place]; rfl) (by rw [place]; rfl) trivial trivial⟩
          | cons a rest =>
              exact ⟨_, _, rfl, still (.access a rest .checking) (by rw [place]; rfl)
                (by rw [place]; rfl) trivial trivial⟩
      | access a rest pc =>
          rw [processCode]
          exact access_goes turn jobs.1 place
      | dealloc pc =>
          rw [processCode]
          exact dealloc_goes turn place (condemned pc rfl)
      | lowering =>
          exact ⟨_, _, rfl, idle .gone _ (by rw [place]; rfl) rfl (set_slot_idles rfl) (by rw [place]; rfl)
            trivial trivial⟩
      | gone => trivial

end Process

/-! The PRM. -/

section Prm
variable {blk size : Nat} {procs : Nat → ProcessPc} {ui : UiPc} {prm prm' : PrmPc} {sh sh' : Shared}

/-- It is the turn of the PRM: while it has the MMU for writing no process has it. -/
structure PrmTurn (blk size : Nat) (procs : Nat → ProcessPc) (ui : UiPc) (prm : PrmPc) (sh : Shared) :
    Prop where
  paged : Paged blk size procs ui prm sh
  alone : ∀ n mode, (Lock.mmu, mode) ∈ (procs n).claims → (Lock.mmu, Mode.write) ∉ prm.claims
  requested : Requested procs prm sh.control
  residents : Residents procs sh.control
  jobs : ∀ n, (procs n).pc.Fits (Proper blk size) (procs n).pid

structure PrmPaged (blk size : Nat) (procs : Nat → ProcessPc) (ui : UiPc) (prm : PrmPc) (sh : Shared)
    (prm' : PrmPc) (sh' : Shared) : Prop where
  paged : Paged blk size procs ui prm' sh'
  holds : ∀ written, prm.Holds written sh.store → prm'.Holds written sh'.store

theorem asker_proper (sh : Shared) {n cmd : Nat} {addr : VirtAddr}
    (jobs : (procs n).pc.Fits (Proper blk size) (procs n).pid)
    (asked : (procs n).asked = some (cmd, addr)) :
    (procs n).stage.Live ∧ addr.pid = (procs n).pid ∧ addr.page < blk ∧
      (procs n).lease blk sh.control =
        some ⟨(procs n).pid, (sh.control.slot (procs n).pid).diskBlockStart, 0, blk⟩ := by
  cases place : procs n with
  | mk pid pc =>
      rw [place] at jobs asked
      cases pc with
      | access a rest pc =>
          obtain ⟨_, -, same⟩ := Option.map_eq_some_iff.mp asked
          cases same
          exact ⟨trivial, jobs.1.pid, jobs.1.page, rfl⟩
      | _ => cases asked

theorem asker_alone (turn : PrmTurn blk size procs ui prm sh) {m n cmd cmd' : Nat} {addr addr' : VirtAddr}
    (first : (procs m).asked = some (cmd, addr)) (second : (procs n).asked = some (cmd', addr'))
    (same : addr.key = addr'.key) : m = n ∧ cmd = cmd' := by
  obtain ⟨live, own, -⟩ := asker_proper sh (turn.jobs m) first
  obtain ⟨live', own', -⟩ := asker_proper sh (turn.jobs n) second
  have pids : addr.pid = addr'.pid := congrArg Prod.fst same
  have one : m = n := turn.residents.alone m n live live' (own.symm.trans (pids.trans own'))
  subst one
  rw [first] at second
  cases second
  exact ⟨rfl, rfl⟩

theorem asker_apart (turn : PrmTurn blk size procs ui prm sh) {m n cmd : Nat} {addr : VirtAddr}
    (asked : (procs m).asked = some (cmd, addr)) {a : Access} {rest : List Access} {pc : AccessPc}
    (place : (procs n).pc = .access a rest pc) (unasked : pc.asked = none) :
    a.addr.key ≠ addr.key := by
  intro same
  obtain ⟨live, own, -⟩ := asker_proper sh (turn.jobs m) asked
  have jobs := turn.jobs n
  rw [place] at jobs
  have pids : a.addr.pid = addr.pid := congrArg Prod.fst same
  have mine : (procs n).stage.Live := by
    simp only [ProcessPc.stage, place]
    trivial
  have one : m = n := by
    refine turn.residents.alone m n live mine ?_
    rw [← own, ← pids]
    exact jobs.1.pid
  subst one
  simp only [ProcessPc.asked, place, unasked] at asked
  cases asked

theorem served (turn : PrmTurn blk size procs ui prm sh) {cmd : Nat} (command : prm.command = some cmd) :
    ∃ n, (procs n).asked = some (cmd, (sh.control.command cmd).addr) := by
  have member : cmd ∈ outstanding prm sh.control := by simp [outstanding, command]
  obtain ⟨-, n, addr, asked⟩ := turn.requested.awaited cmd member
  rw [(turn.requested.numbered n cmd addr (.inr asked)).2]
  exact ⟨n, asked⟩

theorem served_backed (turn : PrmTurn blk size procs ui prm sh) {cmd : Nat}
    (command : prm.command = some cmd) :
    sh.store.backing (sh.control.command cmd).addr.key ≠ none := by
  obtain ⟨n, asked⟩ := served turn command
  obtain ⟨-, own, page, lease⟩ := asker_proper sh (turn.jobs n) asked
  obtain ⟨live, -, leased⟩ := turn.paged.housed
  have mine : leaseOf blk procs ui sh.control (some n) = _ := lease
  have backed := backed_page leased mine (Nat.zero_le _) page
  intro none
  have same : backingOf sh.machine.mmu (sh.control.command cmd).addr.key = Option.none := none
  rw [VirtAddr.key, own, backed] at same
  cases same

theorem prm_paged (turn : PrmTurn blk size procs ui prm sh) {gains : Key → Prop}
    (gained : ∀ key, gains key → ∃ cmd, prm.command = some cmd ∧
      key = (sh.control.command cmd).addr.key)
    {st : ByteStore} (view : sh'.store = st) (leaves : Leaves sh.machine.mmu sh'.machine.mmu st)
    (backing : st.backing = sh.store.backing) (store : StoreStep prm.claims gains sh.store st)
    (processes : sh'.control.prcBlkSize = sh.control.prcBlkSize)
    (starts : SameStarts sh.control sh'.control)
    (queue : ∀ cmd ∈ sh'.control.queue, cmd ∈ sh.control.queue)
    (addrs : ∀ cmd, (sh'.control.command cmd).addr = (sh.control.command cmd).addr)
    (service : prm'.Knows st sh'.control) : Paged blk size procs ui prm' sh' where
  sound := leaves.sound
  sized := sized_leaves turn.paged.sized leaves.shape processes
  housed := housed_leaves turn.paged.housed leaves backing
    (lease_same (ui_lease_starts starts ui) fun n => process_lease_starts starts (procs n))
  counts := turn.paged.counts
  counting := turn.paged.counting
  queued cmd member := by
    rw [addrs, view]
    have before := queue cmd member
    refine store.gains _ (fun gains => ?_) (turn.paged.queued cmd before)
    -- A page that waits is not the one that is served.
    obtain ⟨other, command, same⟩ := gained _ gains
    obtain ⟨m, asked⟩ := served turn command
    have outside : cmd ∈ outstanding prm sh.control := by simp [outstanding, before]
    obtain ⟨-, n, addr, waits⟩ := turn.requested.awaited cmd outside
    rw [(turn.requested.numbered n cmd addr (.inr waits)).2] at same
    obtain ⟨-, rfl⟩ := asker_alone turn waits asked same
    have once := turn.requested.once
    rw [outstanding, command] at once
    exact (List.nodup_cons.mp once).1 before
  process n := by
    rw [view]
    refine process_knows store (fun claimed => turn.alone n .read claimed)
      (fun a rest pc place unasked gains => ?_) (turn.paged.process n)
    obtain ⟨cmd, command, same⟩ := gained _ gains
    obtain ⟨m, asked⟩ := served turn command
    exact asker_apart turn asked place unasked same
  service := by rwa [view]

theorem prm_same (turn : PrmTurn blk size procs ui prm sh)
    (leaves : Leaves sh.machine.mmu sh'.machine.mmu sh.store) (control : sh'.control = sh.control)
    (service : prm'.Knows sh.store sh.control)
    (holds : ∀ written, prm.Holds written sh.store → prm'.Holds written sh.store) :
    PrmPaged blk size procs ui prm sh prm' sh' := by
  have view : sh'.store = sh.store := leaves.view
  have still : StoreStep prm.claims (fun _ => False) sh.store sh.store := store_still
  refine ⟨prm_paged turn ?_ view leaves rfl still ?_ ?_ ?_ ?_ ?_, by rwa [view]⟩
  · exact fun _ => False.elim
  · rw [control]
  · rw [control]
    exact fun _ => rfl
  · rw [control]
    exact fun _ => id
  · rw [control]
    exact fun _ => rfl
  · rwa [control]

theorem service_leaves (turn : PrmTurn blk size procs ui prm sh) {gains : Key → Prop}
    (gained : ∀ key, gains key → ∃ cmd, prm.command = some cmd ∧
      key = (sh.control.command cmd).addr.key)
    {mmu : Mmu} {st : ByteStore} (leaves : Leaves sh.machine.mmu mmu st)
    (backing : st.backing = sh.store.backing) (claimed : (Lock.mmu, Mode.write) ∈ prm.claims)
    (adds : ∀ key, ¬ gains key → sh.store.pool.frame key = none → st.pool.frame key = none)
    (service : prm'.Knows st sh.control)
    (holds : ∀ written, prm.Holds written sh.store → prm'.Holds written st) :
    PrmPaged blk size procs ui prm sh prm' (sh.onMmu mmu) := by
  have view : (sh.onMmu mmu).store = st := leaves.view
  have store : StoreStep prm.claims gains sh.store st :=
    ⟨fun none => absurd claimed (none .write), fun none => absurd claimed none,
      fun none => absurd claimed none, adds⟩
  exact ⟨prm_paged turn gained view leaves backing store rfl (fun _ => rfl) (fun _ => id)
    (fun _ => rfl) service, by rwa [view]⟩

section Service
variable {cmd : Nat} {addr : VirtAddr} {pc : ServicePc}

theorem map_page_goes {t : Thread} {post : Place t → Shared → Prop} {again : Bool} {mapped full : Place t}
    {errcode : Errcode} {mmu : Mmu} (ran : mmuMapPage sh.machine.mmu addr = .ok (errcode, mmu))
    (found : again = true → ∃ frame, iptTranslate mmu.memIpt addr = .ok frame)
    (there : post (if errcode = .ecSuccess then mapped else full) (sh.onMmu mmu)) :
    (mapPage addr again mapped full).Goes sh post := by
  refine ⟨sh.onMmu mmu, _, ?_, there⟩
  cases again with
  | false => simp [ran]
  | true =>
      obtain ⟨frame, translated⟩ := found rfl
      simp [ran, translated]

/-- With a frame to spare the page is mapped, and may hold anything. -/
theorem mapped_goes (turn : PrmTurn blk size procs ui (.serving cmd addr pc) sh)
    (begun : pc ≠ .acquiring) (plain : ∀ written st, pc.Holds written st addr → Preserves written st)
    (absent : Absent sh.store addr) {mmu : Mmu}
    (leaves : Leaves sh.machine.mmu mmu (takeFrame sh.store addr.key))
    (room : sh.store.pool.free ≠ []) :
    PrmPaged blk size procs ui (.serving cmd addr pc) sh (.serving cmd addr (.loading .want))
      (sh.onMmu mmu) := by
  have same := turn.requested.serves cmd addr pc rfl
  have layout := turn.paged.sound.layout
  have claimed : (Lock.mmu, Mode.write) ∈ PrmPc.claims (.serving cmd addr pc) := service_claims begun
  have adds : ∀ key, ¬ key = addr.key → sh.store.pool.frame key = none →
      (takeFrame sh.store addr.key).pool.frame key = none := fun key apart none =>
    (lent_other layout.pool absent apart).1.trans none
  refine service_leaves turn ?_ leaves rfl claimed adds (take_holds room) fun written holds => ?_
  · rintro key rfl
    exact ⟨cmd, rfl, by rw [same]⟩
  · exact take_preserves_but layout (plain written _ holds) absent

theorem service_moves (turn : PrmTurn blk size procs ui (.serving cmd addr pc) sh)
    (begun : pc ≠ .acquiring) {mmu : Mmu} {st : ByteStore} (leaves : Leaves sh.machine.mmu mmu st)
    (backing : st.backing = sh.store.backing)
    (keeps : ∀ key, sh.store.pool.frame key = none → st.pool.frame key = none)
    (service : prm'.Knows st sh.control)
    (holds : ∀ written, pc.Holds written sh.store addr → prm'.Holds written st) :
    PrmPaged blk size procs ui (.serving cmd addr pc) sh prm' (sh.onMmu mmu) := by
  have claimed : (Lock.mmu, Mode.write) ∈ PrmPc.claims (.serving cmd addr pc) := service_claims begun
  have adds : ∀ key, ¬ False → sh.store.pool.frame key = none → st.pool.frame key = none :=
    fun key _ => keeps key
  exact service_leaves turn (fun _ => False.elim) leaves backing claimed adds service holds

theorem service_goes (turn : PrmTurn blk size procs ui (.serving cmd addr pc) sh) :
    (serviceCode (t := .prm) addr (fun pc => .serving cmd addr pc) (.reporting cmd .want) pc).Goes sh
      (PrmPaged blk size procs ui (.serving cmd addr pc) sh) := by
  have sound := turn.paged.sound
  have layout := sound.layout
  have knows := turn.paged.service
  have same := turn.requested.serves cmd addr pc rfl
  have backed : sh.store.backing addr.key ≠ none := by
    have there : sh.store.backing (sh.control.command cmd).addr.key ≠ none := served_backed turn rfl
    rwa [same] at there
  have still : ∀ pc' : ServicePc, pc'.Knows sh.store addr →
      (∀ written, pc.Holds written sh.store addr → pc'.Holds written sh.store addr) →
      PrmPaged blk size procs ui (.serving cmd addr pc) sh (.serving cmd addr pc') sh :=
    fun pc' there holds => prm_same turn (leaves_refl sound) rfl there holds
  cases pc with
  | acquiring => exact still .mapping knows fun _ => id
  | mapping =>
      obtain ⟨errcode, mmu, ran, leaves, succeeds⟩ := map_goes sound knows backed
      refine map_page_goes ran (by simp) ?_
      by_cases room : sh.store.pool.free = []
      · have failed : errcode ≠ .ecSuccess := fun success => succeeds.mp success room
        rw [if_neg failed]
        rw [take_none room] at leaves
        exact prm_same turn leaves rfl ⟨knows, room⟩ fun _ => id
      · rw [if_pos (succeeds.mpr room)]
        exact mapped_goes turn (by simp) (fun _ _ => id) knows leaves room
  | choosing =>
      obtain ⟨victim, prm', ran, other, held⟩ :=
        swap_goes sound sh.machine.prm knows.1 knows.2
      refine ⟨{ sh with machine := ⟨sh.machine.mmu, prm'⟩ }, .serving cmd addr (.testing victim),
        by simp [ran], ?_⟩
      exact prm_same turn (leaves_refl sound) rfl ⟨knows.1, other, held⟩ fun _ => id
  | testing victim =>
      obtain ⟨frame, held⟩ := Option.ne_none_iff_exists'.mp knows.2.resident
      rw [serviceCode]
      refine test_mmu_goes (is_dirty_exact sound.table held) ?_
      cases dirty : dirtyOf sh.machine.mmu.memIpt victim.key with
      | true => exact still (.syncing victim .want) knows fun _ => id
      | false =>
          exact still (.unmapping victim) knows fun written preserves =>
            ⟨preserves, clean_flushed preserves (.inr dirty)⟩
  | syncing victim phase =>
      rw [serviceCode]
      refine section_goes (fun want => ?_) (fun inside => ?_) fun leave => ?_
      · subst want
        exact still (.syncing victim .inside) knows fun _ => id
      · subst inside
        obtain ⟨mmu, ran, leaves⟩ := sync_out_goes sound knows.2.resident
        refine ⟨mmu, ran, service_moves turn (by simp) leaves rfl (fun _ => id)
          ⟨knows.1, knows.2.other, knows.2.resident⟩ fun written preserves => ?_⟩
        exact copy_back_preserves layout preserves knows.2.resident
      · subst leave
        exact still (.unmapping victim) knows fun _ => id
  | unmapping victim =>
      obtain ⟨mmu, ran, leaves⟩ := unmap_out_goes sound knows.2.resident
      have gone : ∀ key, sh.store.pool.frame key = none →
          (dropFrame sh.store victim.key).pool.frame key = none := by
        intro key none
        simp only [dropFrame, given_back_frame]
        by_cases mine : key = victim.key
        · rw [mine, Function.update_self]
        · rwa [Function.update_of_ne mine]
      refine on_mmu_goes ran (service_moves turn (by simp) leaves rfl gone
        ⟨gone addr.key knows.1, drop_room knows.2.resident⟩ fun written holds => ?_)
      exact drop_preserves layout holds.1 holds.2
  | remapping =>
      obtain ⟨errcode, mmu, ran, leaves, succeeds⟩ := map_goes sound knows.1 backed
      have there := mapped_goes turn (by simp) (fun _ _ => id) knows.1 leaves knows.2
      have held : frameOf mmu.memIpt addr.key ≠ none := there.paged.service
      obtain ⟨frame, here⟩ := Option.ne_none_iff_exists'.mp held
      refine map_page_goes ran (fun _ => ⟨frame, translate_exact leaves.sound.table here⟩) ?_
      rw [if_pos (succeeds.mpr knows.2)]
      exact there
  | loading phase =>
      rw [serviceCode]
      refine section_goes (fun want => ?_) (fun inside => ?_) fun leave => ?_
      · subst want
        exact still (.loading .inside) knows fun _ => id
      · subst inside
        obtain ⟨frame, slot, mmu, held, home, ran, leaves⟩ := sync_from_goes sound knows
        refine ⟨mmu, by rw [ran]; rfl, service_moves turn (by simp) leaves rfl (fun _ => id) trivial
          fun written but => ?_⟩
        exact fill_preserves layout but held home
      · subst leave
        exact still .releasing trivial fun _ => id
  | releasing => exact prm_same turn (leaves_refl sound) rfl trivial fun _ => id

end Service

theorem prm_goes (turn : PrmTurn blk size procs ui prm sh) :
    (prmCode prm).Goes sh (PrmPaged blk size procs ui prm sh) := by
  have sound := turn.paged.sound
  have still : ∀ prm' : PrmPc, prm'.Knows sh.store sh.control →
      (∀ written, prm.Holds written sh.store → prm'.Holds written sh.store) →
      PrmPaged blk size procs ui prm sh prm' sh := fun prm' there holds =>
    prm_same turn (leaves_refl sound) rfl there holds
  cases prm with
  | locking => exact still .waiting trivial fun _ => id
  | waiting => exact fun _ => still .popping trivial fun _ => id
  | popping =>
      cases queue : sh.control.queue with
      | nil => exact absurd queue (turn.requested.popping rfl)
      | cons cmd rest =>
          refine ⟨sh.onControl { sh.control with queue := rest }, .unlocking cmd, by simp only [queue], ?_, ?_⟩
          · have still : StoreStep (PrmPc.claims .popping) (fun _ => False) sh.store sh.store := store_still
            refine prm_paged turn ?_ rfl (leaves_refl sound) rfl still rfl (fun _ => rfl) ?_ (fun _ => rfl) ?_
            · exact fun _ => False.elim
            · intro other member
              rw [queue]
              exact .tail _ member
            · exact turn.paged.queued cmd (by rw [queue]; exact .head _)
          · exact fun _ => id
  | unlocking cmd => exact still (.fetching cmd) turn.paged.service fun _ => id
  | fetching cmd =>
      exact ⟨_, _, rfl, still (.serving cmd _ .acquiring) turn.paged.service fun _ => id⟩
  | serving cmd addr pc =>
      rw [prmCode]
      exact service_goes turn
  | reporting cmd phase =>
      cases phase with
      | want => exact still (.reporting cmd .inside) trivial fun _ => id
      | inside =>
          have addrs : ∀ other, ((sh.setCommand cmd { sh.control.command cmd with done := true }).control.command
              other).addr = (sh.control.command other).addr := by
            intro other
            by_cases mine : other = cmd
            · simp [Shared.setCommand, Shared.onControl, mine]
            · simp [Shared.setCommand, Shared.onControl, mine]
          have still : StoreStep (PrmPc.claims (.reporting cmd .inside)) (fun _ => False) sh.store
              sh.store := store_still
          refine ⟨_, _, rfl, prm_paged turn ?_ rfl (leaves_refl sound) rfl still rfl (fun _ => rfl)
            (fun _ => id) addrs trivial, fun _ => id⟩
          exact fun _ => False.elim
      | leave => exact still .locking trivial fun _ => id
  | signalling cmd => exact still (.reporting cmd .leave) trivial fun _ => id

end Prm

/-! The UI. -/

section Ui
variable {blk size : Nat} {procs : Nat → ProcessPc} {ui ui' : UiPc} {prm : PrmPc} {sh sh' : Shared}

structure UiTurn (blk size : Nat) (procs : Nat → ProcessPc) (ui : UiPc) (prm : PrmPc) (sh : Shared) :
    Prop where
  paged : Paged blk size procs ui prm sh
  others : ∀ n, (Lock.mmu, Mode.read) ∈ (procs n).claims → (Lock.mmu, Mode.write) ∉ ui.claims
  alone : (Lock.mmu, Mode.write) ∈ prm.claims → ∀ mode, (Lock.mmu, mode) ∉ ui.claims
  requested : Requested procs prm sh.control
  jobs : ∀ n, (procs n).pc.Fits (Proper blk size) (procs n).pid
  finds : ui.Finds (Proper blk size) procs sh.control
  vacant : ∀ past pc i, ui = .creating past pc → pc.slot = some i → ¬ Alive procs i

structure UiPaged (blk size : Nat) (procs : Nat → ProcessPc) (ui : UiPc) (prm : PrmPc) (sh : Shared)
    (ui' : UiPc) (sh' : Shared) : Prop where
  paged : Paged blk size procs ui' prm sh'
  holds : ∀ written, prm.Holds written sh.store → prm.Holds (recorded written ui.action) sh'.store

theorem dead_lease {c : Control} {place : ProcessPc} (dead : ¬ place.stage.Live) :
    place.lease blk c = none := by
  obtain ⟨pid, pc⟩ := place
  cases pc with
  | dealloc pc =>
      cases pc with
      | signalling => rfl
      | unlocking => rfl
      | _ => exact absurd trivial dead
  | unlocking mail => cases mail <;> exact absurd trivial dead
  | lowering => rfl
  | gone => rfl
  | _ => exact absurd trivial dead

theorem vacant_lease {i : Nat} {slot : Slot} (empty : ¬ Alive procs i) (n : Nat) :
    (procs n).lease blk (sh.setSlot i slot).control = (procs n).lease blk sh.control := by
  by_cases live : (procs n).stage.Live
  · have apart : (procs n).pid ≠ i := fun own => empty ⟨n, own, live⟩
    rw [ProcessPc.lease, ProcessPc.lease, set_slot_other apart]
  · rw [dead_lease live, dead_lease live]

theorem lease_tenant {c : Control} {place : ProcessPc} {l : Lease} (lease : place.lease blk c = some l) :
    l.tenant = place.pid ∧ place.stage.Live := by
  have live : place.stage.Live := by
    by_contra dead
    rw [dead_lease dead] at lease
    cases lease
  refine ⟨?_, live⟩
  obtain ⟨pid, pc⟩ := place
  cases pc with
  | dealloc pc =>
      cases pc with
      | freeingPage page phase => cases phase <;> (cases lease; rfl)
      | freeingBlock phase => cases phase <;> (cases lease; try rfl)
      | _ => cases lease; try rfl
  | lowering => cases lease
  | gone => cases lease
  | _ =>
      cases lease
      rfl

theorem ui_paged (turn : UiTurn blk size procs ui prm sh) {gains : Key → Prop}
    (gained : ∀ key, gains key → ¬ Alive procs key.1) (sound : MmuSound sh'.machine.mmu)
    (sized : Sized blk size sh') (housed : Housed blk procs ui' sh') (counting : ui'.Counts blk)
    (store : StoreStep ui.claims gains sh.store sh'.store)
    (commands : SameCommands sh.control sh'.control) : Paged blk size procs ui' prm sh' where
  sound := sound
  sized := sized
  housed := housed
  counts := turn.paged.counts
  counting := counting
  queued cmd member := by
    rw [commands.queue] at member
    rw [commands.command]
    refine store.gains _ (fun gains => ?_) (turn.paged.queued cmd member)
    have outside : cmd ∈ outstanding prm sh.control := by simp [outstanding, member]
    obtain ⟨-, n, addr, asked⟩ := turn.requested.awaited cmd outside
    obtain ⟨live, own, -⟩ := asker_proper sh (turn.jobs n) asked
    rw [(turn.requested.numbered n cmd addr (.inr asked)).2] at gains
    exact gained _ gains ⟨n, own.symm, live⟩
  process n := by
    refine process_knows store (turn.others n) (fun a rest pc place _ gains => ?_) (turn.paged.process n)
    have jobs := turn.jobs n
    rw [place] at jobs
    refine gained _ gains ⟨n, jobs.1.pid.symm, ?_⟩
    simp only [ProcessPc.stage, place]
    trivial
  service := by
    refine prm_knows store turn.alone (fun _ _ => by rw [commands.command]) (fun cmd addr command same gains => ?_)
      turn.requested.serves turn.paged.service
    have outside : cmd ∈ outstanding prm sh.control := by simp [outstanding, command]
    obtain ⟨-, n, other, asked⟩ := turn.requested.awaited cmd outside
    have there := (turn.requested.numbered n cmd other (.inr asked)).2
    obtain ⟨live, own, -⟩ := asker_proper sh (turn.jobs n) asked
    refine gained _ gains ⟨n, ?_, live⟩
    rw [VirtAddr.key, ← same, there]
    exact own.symm

theorem ui_still (turn : UiTurn blk size procs ui prm sh) (machine : sh'.machine = sh.machine)
    (commands : SameCommands sh.control sh'.control)
    (processes : sh'.control.prcBlkSize = sh.control.prcBlkSize)
    (mine : ui'.lease blk sh'.control = ui.lease blk sh.control)
    (theirs : ∀ n, (procs n).lease blk sh'.control = (procs n).lease blk sh.control)
    (counting : ui'.Counts blk) (action : ui.action = none) :
    UiPaged blk size procs ui prm sh ui' sh' := by
  have view : sh'.store = sh.store := by rw [Shared.store, machine]
  have leaves : Leaves sh.machine.mmu sh'.machine.mmu sh.store := by
    rw [machine]
    exact leaves_refl turn.paged.sound
  have still : StoreStep ui.claims (fun _ => False) sh.store sh'.store := by
    rw [view]
    exact store_still
  refine ⟨ui_paged turn (fun _ => False.elim) leaves.sound
    (sized_leaves turn.paged.sized leaves.shape processes)
    (housed_leaves turn.paged.housed leaves rfl (lease_same mine theirs)) counting still commands,
    fun written => ?_⟩
  rw [view, action]
  exact id

section Creating
variable {past : Nat → PackedBitmap.Block} {i page k : Nat}

theorem allocating_goes {before : Option Nat}
    (turn : UiTurn blk size procs (.creating past (.allocating i before .inside)) prm sh) :
    ∃ page disk, diskAllocProcessBlock past sh.machine.mmu.disk = .ok (page, disk) ∧
      UiPaged blk size procs (.creating past (.allocating i before .inside)) prm sh
        (.creating past (.allocating i page .leave))
        (sh.onMmu { sh.machine.mmu with disk := disk }) := by
  have empty := turn.vacant past _ i rfl rfl
  obtain ⟨live, owned, leased⟩ := turn.paged.housed
  have small : sh.machine.mmu.disk.npages + sh.machine.mmu.disk.processBlockSize ≤ 2 ^ 31 := by
    rw [turn.paged.sized.blocks]
    exact turn.paged.sized.small
  obtain ⟨page, disk, ran, marks⟩ := alloc_block_goes turn.paged.sound owned small past
  have view : (sh.onMmu { sh.machine.mmu with disk := disk }).store = sh.store := marks.view
  have pages : disk.npages = sh.machine.mmu.disk.npages := marks.shape.diskPages
  have blocks : disk.processBlockSize = sh.machine.mmu.disk.processBlockSize := marks.shape.blockSize
  have still : StoreStep (UiPc.claims (.creating past (.allocating i before .inside))) (fun _ => False)
      sh.store (sh.onMmu { sh.machine.mmu with disk := disk }).store := by
    rw [view]
    exact store_still
  refine ⟨page, disk, ran, ui_paged turn (fun _ => False.elim) marks.sound
    (sized_leaves turn.paged.sized marks.shape rfl) ⟨_, marks.owned, ?_⟩ trivial still ⟨rfl, rfl, rfl⟩,
    fun written => by rw [view]; exact id⟩
  change Leased blk disk.npages _ (leaseOf blk procs _ sh.control) (backingOf sh.machine.mmu)
  rw [pages]
  cases page with
  | none =>
      have same : leaseOf blk procs (.creating past (.allocating i none .leave)) sh.control =
          leaseOf blk procs (.creating past (.allocating i before .inside)) sh.control :=
        lease_same (by cases before <;> rfl) fun _ => rfl
      rw [same]
      exact leased
  | some page =>
      have packed := marks.owned.packed
      rw [blocks, pages, turn.paged.sized.blocks] at packed
      have fresh : ∀ o l, leaseOf blk procs (.creating past (.allocating i before .inside)) sh.control o =
          some l → l.tenant ≠ i := by
        intro o l lease same
        cases o with
        | none => cases before <;> cases lease
        | some n =>
            have lease : (procs n).lease blk sh.control = some l := lease
            obtain ⟨own, live⟩ := lease_tenant lease
            exact empty ⟨n, own.symm.trans same, live⟩
      have unleased : leaseOf blk procs (.creating past (.allocating i before .inside)) sh.control none =
          none := by cases before <;> rfl
      have acquired := lease_acquired leased unleased packed fresh
      have leases : leaseOf blk procs (.creating past (.allocating i (some page) .leave)) sh.control =
          Function.update (leaseOf blk procs (.creating past (.allocating i before .inside)) sh.control) none
            (some ⟨i, page, 0, 0⟩) := by
        funext o
        cases o with
        | none => rfl
        | some n => rfl
      rw [leases]
      exact acquired

theorem mapping_goes (turn : UiTurn blk size procs (.creating past (.mappingPage i page k .inside)) prm sh) :
    ∃ mmu, (·.2) <$> mmuAllocPage sh.machine.mmu ⟨i, k, 0⟩ (page + k) = .ok mmu ∧
      UiPaged blk size procs (.creating past (.mappingPage i page k .inside)) prm sh
        (.creating past (.mappingPage i page k .leave)) (sh.onMmu mmu) := by
  have sound := turn.paged.sound
  have empty := turn.vacant past _ i rfl rfl
  have room : k < blk := turn.paged.counting
  have claimed : (Lock.mmu, Mode.write) ∈ UiPc.claims (.creating past (.mappingPage i page k .inside)) := by
    simp [UiPc.claims, CreatePc.claims, Phase.claims]
  have free : (Lock.mmu, Mode.write) ∉ prm.claims := fun has => turn.alone has .write claimed
  obtain ⟨live, owned, leased⟩ := turn.paged.housed
  have mine : leaseOf blk procs (.creating past (.mappingPage i page k .inside)) sh.control none =
      some ⟨i, page, 0, k⟩ := rfl
  have member : page ∈ live := (leased.listed page).mpr ⟨none, _, mine, rfl⟩
  have unbacked : backingOf sh.machine.mmu (VirtAddr.key ⟨i, k, 0⟩) = none :=
    unbacked_page leased mine (.inr (Nat.le_refl k))
  have unused := unused_cell leased mine room (.inr (Nat.le_refl k))
  obtain ⟨mmu, ran, leaves, absent⟩ := alloc_page_goes sound owned member (Nat.le_add_right page k)
    (by rw [turn.paged.sized.blocks]; omega) unbacked unused
  have view : (sh.onMmu mmu).store = _ := leaves.view
  have store : StoreStep (UiPc.claims (.creating past (.mappingPage i page k .inside)))
      (fun key => key = (i, k)) sh.store (sh.onMmu mmu).store := by
    refine ⟨fun none => absurd claimed (none .write), fun none => absurd claimed none,
      fun none => absurd claimed none, fun key apart none => ?_⟩
    rw [view]
    exact (lent_other sound.layout.pool absent apart).1.trans none
  refine ⟨mmu, by rw [ran]; rfl, ui_paged turn ?_ leaves.sound
    (sized_leaves turn.paged.sized leaves.shape rfl) ⟨live, leaves_owned leaves owned, ?_⟩ room store
    ⟨rfl, rfl, rfl⟩, fun written => ?_⟩
  · rintro key rfl
    exact empty
  · have extended := lease_extended leased mine room
    have backing : backingOf mmu =
        Function.update (backingOf sh.machine.mmu) (i, k) (some (page + k)) :=
      congrArg Store.backing leaves.view
    have pages : mmu.disk.npages = sh.machine.mmu.disk.npages := leaves.shape.diskPages
    have leases : leaseOf blk procs (.creating past (.mappingPage i page k .leave)) sh.control =
        Function.update (leaseOf blk procs (.creating past (.mappingPage i page k .inside)) sh.control) none
          (some ⟨i, page, 0, k + 1⟩) := by
      funext o
      cases o with
      | none => rfl
      | some n => rfl
    change Leased blk mmu.disk.npages live (leaseOf blk procs _ sh.control) (backingOf mmu)
    rw [backing, pages, leases]
    exact extended
  · rw [plain_holds free, plain_holds free, view]
    exact fun preserves => alloc_preserves sound.layout preserves ⟨unbacked, unused⟩

theorem create_goes {pc : CreatePc} (turn : UiTurn blk size procs (.creating past pc) prm sh)
    (residents : Residents procs sh.control) (waits : ∀ i, pc ≠ .spawning i)
    (granted : ∀ i, pc ≠ .freeing i) : (createCode past pc).Goes sh (UiPaged blk size procs (.creating past pc) prm sh) := by
  have quiet : ∀ ui' : UiPc, ui'.lease blk sh.control = pc.lease blk sh.control → ui'.Counts blk →
      UiPc.action (.creating past pc) = none →
      UiPaged blk size procs (.creating past pc) prm sh ui' sh := fun ui' mine counting action =>
    ui_still turn rfl (same_commands_refl _) rfl mine (fun _ => rfl) counting action
  cases pc with
  | locking => exact quiet (.creating past .selecting) rfl trivial rfl
  | selecting =>
      cases found : (List.range sh.control.maxNumOfProc).find? fun i => (sh.control.slot i).junk with
      | none => exact ⟨sh, .returning, by simp only [found], quiet .returning rfl trivial rfl⟩
      | some i =>
          refine ⟨sh.setSlot i zeroSlot, .creating past (.allocating i none .want), by simp only [found], ?_⟩
          have junk : (sh.control.slot i).junk = true := by simpa using List.find?_some found
          have empty : ¬ Alive procs i := by
            rintro ⟨n, own, live⟩
            have used := residents.junk n live
            rw [own, junk] at used
            cases used
          exact ui_still turn rfl set_slot_commands rfl rfl (vacant_lease empty) trivial rfl
  | allocating i page phase =>
      cases phase with
      | want => exact quiet (.creating past (.allocating i page .inside)) (by cases page <;> rfl) trivial rfl
      | inside =>
          obtain ⟨page', disk, ran, there⟩ := allocating_goes turn
          exact ⟨_, _, by simp only [ran]; rfl, there⟩
      | leave =>
          cases page with
          | none => exact quiet (.creating past (.refusing i)) rfl trivial rfl
          | some page => exact quiet (.creating past (.mapping i page 0)) rfl trivial rfl
  | mapping i page k =>
      refine ⟨_, _, rfl, ?_⟩
      split
      · rename_i more
        rw [turn.paged.sized.processes] at more
        exact quiet (.creating past (.mappingPage i page k .want)) rfl more rfl
      · rename_i done
        rw [turn.paged.sized.processes] at done
        -- The lease says that no more pages were mapped than there are.
        obtain ⟨live, owned, leased⟩ := turn.paged.housed
        have bounded := leased.bounded none ⟨i, page, 0, k⟩ rfl
        have all : k = blk := by
          dsimp only at bounded
          omega
        subst all
        exact quiet (.creating past (.filling i page)) rfl trivial rfl
  | mappingPage i page k phase =>
      have room : k < blk := turn.paged.counting
      rw [createCode]
      refine section_goes (fun want => ?_) (fun inside => ?_) fun leave => ?_
      · subst want
        exact quiet (.creating past (.mappingPage i page k .inside)) rfl room rfl
      · subst inside
        exact mapping_goes turn
      · subst leave
        exact quiet (.creating past (.mapping i page (k + 1))) rfl trivial rfl
  | filling i page =>
      refine ⟨_, _, rfl, ?_⟩
      have empty := turn.vacant past _ i rfl rfl
      refine ui_still turn rfl set_slot_commands rfl ?_ (vacant_lease empty) trivial rfl
      simp only [UiPc.lease, CreatePc.lease, set_slot_self]
  | unlocking i => exact quiet (.creating past (.spawning i)) rfl trivial rfl
  | spawning i => exact absurd rfl (waits i)
  | spinning i => exact fun _ => quiet .idle rfl trivial rfl
  | refusing i => exact quiet (.creating past (.freeing i)) rfl trivial rfl
  | freeing i => exact absurd rfl (granted i)

end Creating

section Composing
variable {pid : Nat} {mail : Mail} {pc : ComposePc}

theorem compose_goes (turn : UiTurn blk size procs (.composing pid mail pc) prm sh) :
    (composeCode pid mail pc).Goes sh (UiPaged blk size procs (.composing pid mail pc) prm sh) := by
  obtain ⟨inside, -, there⟩ := turn.finds
  have quiet : ∀ ui' : UiPc, ui'.lease blk sh.control = none → ui'.Counts blk →
      UiPaged blk size procs (.composing pid mail pc) prm sh ui' sh := fun ui' mine counting =>
    ui_still turn rfl (same_commands_refl _) rfl mine (fun _ => rfl) counting rfl
  have ends : UiPaged blk size procs (.composing pid mail pc) prm sh (mail.after pid) sh := by
    refine quiet _ ?_ ?_ <;> cases mail <;> first | rfl | trivial
  cases pc with
  | testing =>
      have low : ¬ sh.control.maxNumOfProc < pid := by omega
      have apart : pid ≠ sh.control.maxNumOfProc := by omega
      by_cases junk : (sh.control.slot pid).junk = true
      · exact ⟨sh, mail.after pid, by simp only [if_neg low, if_neg apart, if_pos junk], ends⟩
      · exact ⟨sh, .composing pid mail .locking, by simp only [if_neg low, if_neg apart, if_neg junk],
          quiet (.composing pid mail .locking) rfl trivial⟩
  | locking => exact quiet (.composing pid mail .pushing) rfl trivial
  | pushing =>
      by_cases flag : (sh.control.slot pid).del = true
      · exact ⟨sh, .composing pid mail .unlocking, by simp only [if_pos flag],
          quiet (.composing pid mail .unlocking) rfl trivial⟩
      · obtain ⟨mails, box⟩ := Option.ne_none_iff_exists'.mp (there.resolve_left flag)
        refine ⟨sh.setSlot pid { sh.control.slot pid with mailBox := some (mails ++ [mail]) },
          .composing pid mail .signalling, by simp only [if_neg flag, box], ?_⟩
        have starts : SameStarts sh.control
            (sh.setSlot pid { sh.control.slot pid with mailBox := some (mails ++ [mail]) }).control :=
          set_slot_starts rfl
        exact ui_still turn rfl set_slot_commands rfl rfl
          (fun n => process_lease_starts starts (procs n)) trivial rfl
  | signalling => exact quiet (.composing pid mail .unlocking) rfl trivial
  | unlocking => exact ends

end Composing

/-- No statement of the UI fails but the free of a slot. -/
theorem ui_goes_on (turn : UiTurn blk size procs ui prm sh) (residents : Residents procs sh.control)
    (chosen : ui ≠ .idle) (waits : ∀ past i, ui ≠ .creating past (.spawning i))
    (granted : ∀ past i, ui ≠ .creating past (.freeing i)) :
    (uiCode ui).Goes sh (UiPaged blk size procs ui prm sh) := by
  have quiet : ∀ ui' : UiPc, ui.lease blk sh.control = none → ui.action = none →
      ui'.lease blk sh.control = none → ui'.Counts blk → UiPaged blk size procs ui prm sh ui' sh :=
    fun ui' before action mine counting =>
      ui_still turn rfl (same_commands_refl _) rfl (mine.trans before.symm) (fun _ => rfl) counting action
  cases ui with
  | idle => exact absurd rfl chosen
  | creating past pc =>
      exact create_goes turn residents (fun i same => waits past i (by rw [same]))
        fun i same => granted past i (by rw [same])
  | destroying pid => exact quiet (.testing pid) rfl rfl rfl trivial
  | testing pid =>
      refine ⟨_, _, rfl, ?_⟩
      split
      · exact quiet .returning rfl rfl rfl trivial
      · exact quiet (.composing pid .del .testing) rfl rfl rfl trivial
  | composing pid mail pc => exact compose_goes turn
  | marking pid =>
      have starts : SameStarts sh.control
          (sh.setSlot pid { sh.control.slot pid with del := true }).control := set_slot_starts rfl
      exact ⟨_, _, rfl, ui_still turn rfl set_slot_commands rfl rfl
        (fun n => process_lease_starts starts (procs n)) trivial rfl⟩
  | waiting pid => exact fun _ => quiet .returning rfl rfl rfl trivial
  | returning => exact quiet .idle rfl rfl rfl trivial

end Ui

end VmSim.ThreadCode
