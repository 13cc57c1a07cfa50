import VmSim.ReachableFaults
import VmSim.Isolation
import VmSim.Library.CallTree

/-!
The jobs of util/pcb_util.c: `sim_read`, `sim_write` and `sim_loop_write` as
programs that call `mmu_read` and `mmu_write`, one byte at a time. The three
walks differ in their bounds and in what they do at an address; none of them
looks at the size of the process, so a walk stays inside it exactly when its
last address does.
-/

namespace VmSim.ProcessTable
open PageTable MemoryUnit DemandPaging PageReplacement PagingRuns CallTree

/-- The calls a job makes, each for one byte. -/
inductive MmuCall where
  | read (addr : VirtAddr)
  | write (addr : VirtAddr) (byte : BYTE)

def MmuCall.Reply : MmuCall → Type
  | .read _ => Errcode × BYTE
  | .write _ _ => Errcode

def MmuCall.addr : MmuCall → VirtAddr
  | .read addr => addr
  | .write addr _ => addr

/-- `mmu_read` and `mmu_write` have one code to return. -/
def MmuCall.Gives : (call : MmuCall) → call.Reply → Prop
  | .read _, reply => reply.1 = .ecSuccess
  | .write _ _, reply => reply = .ecSuccess

abbrev Job := Tree MmuCall MmuCall.Reply Fault

def compute (x : Outcome α) : Job α :=
  match x with
  | .ok a => .done a
  | .error fault => .stop fault

def mmuRead (addr : VirtAddr) : Job (Errcode × BYTE) := .call (.read addr) .done

def mmuWrite (addr : VirtAddr) (byte : BYTE) : Job Errcode := .call (.write addr byte) .done

/-- The loop of `advance_virt_addr`, which never ends on pages without bytes. -/
def carryPages (pageSize : Nat) (addr : VirtAddr) : Nat → Outcome VirtAddr
  | 0 => .error .diverges
  | turns + 1 =>
      if pageSize ≤ addr.offset then
        carryPages pageSize
          { addr with page := (addr.page + 1) % 2 ^ 32, offset := addr.offset - pageSize } turns
      else .ok addr

def advanceVirtAddr (addr : VirtAddr) (offset : Int) (pageSize : Nat) : Outcome VirtAddr :=
  let moved := ((addr.offset + offset) % 2 ^ 32).toNat
  carryPages pageSize { addr with offset := moved } (moved + 1)

def walk (pageSize : Nat) (step : Int) (access : Nat → VirtAddr → σ → Job (Errcode × σ)) :
    Nat → Nat → VirtAddr → Errcode → σ → Job (Errcode × σ)
  | 0, _, _, err, s => pure (err, s)
  | left + 1, multiplier, vAddr, err, s =>
      if err = .ecSuccess then do
        let (err, s) ← access multiplier vAddr s
        let vAddr ← compute (advanceVirtAddr vAddr step pageSize)
        walk pageSize step access left (multiplier + 1) vAddr err s
      else pure (err, s)

/-- The bytes `sim_read` prints, one a line, to a file or to stdout. -/
structure Printed where
  fileName : Option String
  bytes : List BYTE
  deriving DecidableEq, Repr

/-- `amount * off + 1`, the size `sim_read` allocates, is an `int`. -/
def readBufferSize (off amount : Int) : Outcome Int :=
  if amount * off < -2 ^ 31 ∨ 2 ^ 31 ≤ amount * off + 1 then .error .overflow
  else .ok (amount * off + 1)

def readByte (_ : Nat) (vAddr : VirtAddr) (buf : List BYTE) : Job (Errcode × List BYTE) := do
  let (err, byte) ← mmuRead vAddr
  pure (err, buf ++ [byte])

def simRead (pageSize : Nat) (vAddr : VirtAddr) (off amount : Int) (fileName : Option String) :
    Job (Errcode × Option Printed) := do
  let _ ← compute (readBufferSize off amount)
  compute (assert .simRead (0 < off))
  compute (assert .simRead (0 < amount))
  let (err, buf) ← walk pageSize off readByte amount.toNat 0 vAddr .ecSuccess []
  if err = .ecSuccess then pure (err, some ⟨fileName, buf⟩) else pure (err, none)

def writeByte (s : List BYTE) (multiplier : Nat) (vAddr : VirtAddr) (_ : Unit) :
    Job (Errcode × Unit) := do
  let byte ← compute (load s multiplier)
  let err ← mmuWrite vAddr byte
  pure (err, ())

/-- The loop has two bounds, the second of them a page. -/
def simWrite (pageSize : Nat) (vAddr : VirtAddr) (s : List BYTE) (amount : Int) : Job Errcode := do
  compute (assert .simWrite (0 < amount))
  let (err, _) ← walk pageSize 1 (writeByte s) (min amount.toNat pageSize) 0 vAddr .ecSuccess ()
  pure err

def writeSame (c : BYTE) (_ : Nat) (vAddr : VirtAddr) (_ : Unit) : Job (Errcode × Unit) := do
  let err ← mmuWrite vAddr c
  pure (err, ())

def simLoopWrite (pageSize : Nat) (vAddr : VirtAddr) (c : BYTE) (offset amount : Int) :
    Job Errcode := do
  compute (assert .simLoopWrite (0 ≤ offset))
  compute (assert .simLoopWrite (0 < amount))
  let (err, _) ← walk pageSize offset (writeSame c) amount.toNat 0 vAddr .ecSuccess ()
  pure err

@[simp] theorem compute_ok (a : α) : compute (.ok a) = (.done a : Job α) := rfl

@[simp] theorem compute_error (fault : Fault) : compute (.error fault) = (.stop fault : Job α) :=
  rfl

/-! What the jobs test before they begin. -/

theorem assert_positive (site : Site) {n : Nat} (positive : 0 < n) :
    assert site (0 < (n : Int)) = .ok () := by
  rw [decide_eq_true (Int.natCast_pos.mpr positive)]
  rfl

theorem assert_natural (site : Site) (n : Nat) : assert site (0 ≤ (n : Int)) = .ok () := by
  rw [decide_eq_true (Int.natCast_nonneg n)]
  rfl

section Buffers
variable {off amount : Nat}

theorem read_buffer_exact (fits : amount * off + 1 < 2 ^ 31) :
    readBufferSize off amount = .ok ((amount : Int) * off + 1) := by
  have product : (amount : Int) * off = (amount * off : Nat) := by push_cast; rfl
  rw [readBufferSize, product, if_neg]
  omega

theorem read_buffer_overflows (large : ¬ amount * off + 1 < 2 ^ 31) :
    readBufferSize off amount = .error .overflow := by
  have product : (amount : Int) * off = (amount * off : Nat) := by push_cast; rfl
  rw [readBufferSize, product, if_pos]
  omega

end Buffers

/-! Addresses as positions in the memory of a process. -/

def placeAt (pid size position : Nat) : VirtAddr := ⟨pid, position / size, position % size⟩

def placeOf (size : Nat) (addr : VirtAddr) : Nat := addr.page * size + addr.offset

section Places
variable {pid size position : Nat}

theorem place_of_at (addr : VirtAddr) (inPage : addr.offset < size) :
    placeAt addr.pid size (placeOf size addr) = addr := by
  have positive : 0 < size := by omega
  have page : (addr.page * size + addr.offset) / size = addr.page := by
    rw [Nat.mul_comm, Nat.mul_add_div positive, Nat.div_eq_of_lt inPage, Nat.add_zero]
  have offset : (addr.page * size + addr.offset) % size = addr.offset := by
    rw [Nat.mul_comm, Nat.mul_add_mod, Nat.mod_eq_of_lt inPage]
  simp only [placeAt, placeOf, page, offset]

theorem place_inside {block : Nat} (positive : 0 < size) :
    (placeAt pid size position).page < block ↔ position < block * size :=
  Nat.div_lt_iff_lt_mul positive

theorem carry_pages_exact {page offset turns : Nat} (positive : 0 < size) (enough : offset < turns)
    (bound : page + offset / size < 2 ^ 32) :
    carryPages size ⟨pid, page, offset⟩ turns =
      .ok ⟨pid, page + offset / size, offset % size⟩ := by
  induction turns generalizing page offset with
  | zero => omega
  | succ turns ih =>
      unfold carryPages
      by_cases carries : size ≤ offset
      · have quotient : offset / size = (offset - size) / size + 1 :=
          Nat.div_eq_sub_div positive carries
        have remainder : offset % size = (offset - size) % size := Nat.mod_eq_sub_mod carries
        have more : page + 1 + (offset - size) / size < 2 ^ 32 := by
          rw [quotient, ← Nat.add_assoc, Nat.add_right_comm] at bound
          exact bound
        have wrapped : (page + 1) % 2 ^ 32 = page + 1 :=
          Nat.mod_eq_of_lt (Nat.lt_of_le_of_lt (Nat.le_add_right _ _) more)
        have rest := @ih (page + 1) (offset - size) (by omega) more
        rw [if_pos carries, quotient, remainder, ← Nat.add_assoc, Nat.add_right_comm]
        simpa only [wrapped] using rest
      · have small : offset < size := by omega
        rw [if_neg carries, Nat.div_eq_of_lt small, Nat.mod_eq_of_lt small, Nat.add_zero]

theorem advance_reaches {step : Nat} (positive : 0 < size) (sizeInt : size ≤ 2 ^ 31)
    (stepInt : step < 2 ^ 31) (reach : (position + step) / size < 2 ^ 32) :
    advanceVirtAddr (placeAt pid size position) step size =
      .ok (placeAt pid size (position + step)) := by
  have inPage := Nat.mod_lt position positive
  have moved : (((position % size : Nat) : Int) + step) % 2 ^ 32 = (position % size + step : Nat) :=
    Int.emod_eq_of_lt (by omega) (by omega)
  have split : position + step = size * (position / size) + (position % size + step) := by
    have parts := Nat.div_add_mod position size
    omega
  have page' : (position + step) / size = position / size + (position % size + step) / size := by
    rw [split, Nat.mul_add_div positive]
  have offset' : (position + step) % size = (position % size + step) % size := by
    rw [split, Nat.mul_add_mod]
  simp only [advanceVirtAddr, placeAt]
  rw [moved, Int.toNat_natCast,
    carry_pages_exact positive (Nat.lt_succ_self _) (page' ▸ reach), page', offset']

theorem advance_exact {step : Nat} (positive : 0 < size) (sizeInt : size < 2 ^ 31)
    (stepInt : step < 2 ^ 31) (page : position / size < 2 ^ 31) :
    advanceVirtAddr (placeAt pid size position) step size =
      .ok (placeAt pid size (position + step)) := by
  apply advance_reaches positive (Nat.le_of_lt sizeInt) stepInt
  have whole : position < 2 ^ 31 * size := (Nat.div_lt_iff_lt_mul positive).mp page
  have scaled : step ≤ 2 ^ 31 * size :=
    Nat.le_trans (Nat.le_of_lt stepInt) (Nat.le_mul_of_pos_right _ positive)
  apply Nat.div_lt_of_lt_mul
  rw [Nat.mul_comm]
  omega

end Places

/-! A walk makes one call at every address it comes to. -/

abbrev Keeps (place : VirtAddr → Prop) (post : α → Prop) : Job α → Prop :=
  Every (fun call => place call.addr) MmuCall.Gives post

theorem keeps_bind {place : VirtAddr → Prop} {post : β → Prop} (job : Job α) (rest : α → Job β) :
    Keeps place post (job >>= rest) ↔ Keeps place (fun result => Keeps place post (rest result)) job :=
  every_bind job rest

/-- An access is a call for its address and makes of `s` what `becomes` says. -/
def Visits (access : VirtAddr → σ → Job (Errcode × σ)) (becomes : σ → σ → Prop) : Prop :=
  ∀ (place : VirtAddr → Prop) (post : Errcode × σ → Prop) (vAddr : VirtAddr) (s : σ),
    Keeps place post (access vAddr s) ↔
      place vAddr ∧ ∀ after, becomes s after → post (.ecSuccess, after)

theorem read_byte_visits (multiplier : Nat) :
    Visits (readByte multiplier) fun buf after => ∃ byte, after = buf ++ [byte] := by
  intro place post vAddr buf
  refine and_congr_right fun _ => ?_
  constructor
  · rintro calls _ ⟨byte, rfl⟩
    exact calls (.ecSuccess, byte) rfl
  · rintro calls ⟨_, byte⟩ rfl
    exact calls _ ⟨byte, rfl⟩

theorem write_byte_visits {s : List BYTE} {multiplier : Nat} (bound : multiplier < s.length) :
    Visits (writeByte s multiplier) fun _ _ => True := by
  intro place post vAddr _
  simp only [writeByte, load_of_get (List.getElem?_eq_getElem bound), compute_ok, done_bind]
  refine and_congr_right fun _ => ?_
  constructor
  · rintro calls ⟨⟩ _
    exact calls .ecSuccess rfl
  · rintro calls _ rfl
    exact calls () trivial

theorem write_same_visits (c : BYTE) (multiplier : Nat) :
    Visits (writeSame c multiplier) fun _ _ => True := by
  intro place post vAddr _
  refine and_congr_right fun _ => ?_
  constructor
  · rintro calls ⟨⟩ _
    exact calls .ecSuccess rfl
  · rintro calls _ rfl
    exact calls () trivial

section Walks
variable {access : Nat → VirtAddr → σ → Job (Errcode × σ)} {becomes : σ → σ → Prop}
  {place : VirtAddr → Prop} {pid size step limit : Nat}

theorem walk_keeps (positive : 0 < size) (sizeInt : size < 2 ^ 31) (stepInt : step < 2 ^ 31)
    (limitInt : limit ≤ 2 ^ 31 * size) (serial : ∀ s, ∃ after, becomes s after)
    (inside : ∀ position, place (placeAt pid size position) ↔ position < limit)
    (left : Nat) {multiplier position : Nat}
    (visits : ∀ turn, turn < multiplier + left + 1 → Visits (access turn) becomes)
    (here : position < limit) (s : σ) :
    Keeps place (fun _ => True)
        (walk size step access (left + 1) multiplier (placeAt pid size position) .ecSuccess s) ↔
      position + left * step < limit := by
  have page : ∀ position, position < limit → position / size < 2 ^ 31 := fun position small =>
    Nat.div_lt_of_lt_mul (by rw [Nat.mul_comm]; omega)
  induction left generalizing multiplier position s with
  | zero =>
      unfold walk
      rw [if_pos rfl, keeps_bind, visits multiplier (by omega), inside]
      simp [advance_exact positive sizeInt stepInt (page position here), walk, Every, here]
  | succ left ih =>
      unfold walk
      rw [if_pos rfl, keeps_bind, visits multiplier (by omega), inside]
      simp only [advance_exact positive sizeInt stepInt (page position here), compute_ok, done_bind]
      by_cases next : position + step < limit
      · have rest := fun after => @ih (multiplier + 1) (position + step)
          (fun turn bound => visits turn (by omega)) next after
        obtain ⟨first, made⟩ := serial s
        have reach : position + step + left * step = position + (left + 1) * step := by
          rw [Nat.succ_mul]
          omega
        rw [← reach]
        exact ⟨fun all => (rest first).mp (all.2 first made),
          fun bound => ⟨here, fun after _ => (rest after).mpr bound⟩⟩
      · -- the walk leaves at its next address
        have beyond : ¬ position + (left + 1) * step < limit := by
          rw [Nat.succ_mul]
          omega
        refine iff_of_false (fun all => ?_) beyond
        obtain ⟨first, made⟩ := serial s
        have later := all.2 first made
        unfold walk at later
        rw [if_pos rfl, keeps_bind, visits (multiplier + 1) (by omega), inside] at later
        exact next later.1

theorem keeps_then (job : Job α) (rest : α → Job β) (quiet : ∀ result, Keeps place (fun _ => True)
    (rest result)) : Keeps place (fun _ => True) (job >>= rest) ↔ Keeps place (fun _ => True) job := by
  rw [keeps_bind]
  simp only [quiet]

end Walks

/-! The processes stay live until they delete themselves. -/

section Lives
variable {s after : System} {pid : Nat}

theorem live_iff_backed {cont : ProcCont} (sound : ContSound cont) (pid : Nat) :
    (∃ p, Live cont pid p) ↔ backingOf cont.mmu (pid, 0) ≠ none := by
  have positive : 0 < cont.prcBlkSize := by
    rw [← sound.blockSize]
    exact sound.owned.positive
  constructor
  · rintro ⟨p, live⟩
    have owns : Owns cont ⟨pid, 0, 0⟩ := ⟨⟨p, live⟩, positive⟩
    exact owns_backed (s := ⟨cont, prmStatics⟩) sound owns
  · intro backed
    obtain ⟨page, stored⟩ := Option.ne_none_iff_exists'.mp backed
    obtain ⟨p, live, -⟩ := (sound.backing (pid, 0) page).mp stored
    exact ⟨p, live⟩

theorem step_keeps_live (sound : ContSound (contBooks s.cont)) {next : Step} {reply : Reply}
    (allowed : next.Allowed s) (ran : next.run s = .ok (reply, after)) (code : 0 ≤ reply.code)
    (stays : next ≠ .dealloc pid) (live : ∃ p, Live s.cont pid p) : ∃ p, Live after.cont pid p := by
  have booked : ¬ next.Access → ∃ p, Live after.cont pid p := by
    intro plain
    have advanced := booked_advances sound plain allowed ran code
    obtain ⟨actions, performs, path⟩ := advanced.performs
    have used : ∀ key, InRange pid 0 1 key → backingOf (contBooks s.cont).mmu key ≠ none := by
      rintro ⟨owner, page⟩ ⟨same, -, bound⟩
      obtain rfl : page = 0 := by simpa using bound
      obtain rfl : owner = pid := same
      exact (live_iff_backed sound owner).mp live
    have kept := path_spares used path (performs_spares stays performs) (pid, 0)
      ⟨rfl, by omega, by omega⟩
    exact (live_iff_backed advanced.sound pid).mpr kept
  cases next with
  | memory next =>
      simp only [Step.run, bind_eq_ok, pure_eq_ok] at ran
      obtain ⟨⟨bytes, machine⟩, -, same⟩ := ran
      cases same
      exact live
  | _ => exact booked id

theorem run_keeps_live {begin : System} {past : List Step}
    (sound : ContSound (contBooks begin.cont)) (run : Run Step.Allowed begin past s)
    (stays : Step.dealloc pid ∉ past) (live : ∃ p, Live begin.cont pid p) :
    ∃ p, Live s.cont pid p := by
  induction run with
  | nil => exact live
  | step next before allowed ran code ih =>
      refine step_keeps_live (run_books sound before).1 allowed ran code ?_
        (ih fun member => stays (List.mem_cons_of_mem _ member))
      rintro rfl
      exact stays (by simp)

end Lives

/-- As long as the process of `addr` is not deleted, the page of `addr` has a backing
page and the service of a fault on it passes the assertion that asks for one. -/
def KeepsBacking (s : System) (addr : VirtAddr) : Prop :=
  ∀ later after, Run Step.Allowed s later after → Step.dealloc addr.pid ∉ later →
    backingPage after.cont.mmu addr ≠ none ∧
      (frameOf after.cont.mmu.memIpt addr.key = none →
        (Step.memory (.service addr)).run after ≠ .error (.assertion .mmuSyncFromBackingPage))

def InProcess (s : System) (pid : Nat) (addr : VirtAddr) : Prop :=
  addr.pid = pid ∧ addr.page < s.cont.prcBlkSize ∧ KeepsBacking s addr

/-- The job calls `mmu_read` and `mmu_write` for backed pages of `pid` only, and it
ends. -/
def StaysInside (s : System) (pid : Nat) (job : Job α) : Prop :=
  Keeps (InProcess s pid) (fun _ => True) job

section Jobs
variable {s : System} {pid size : Nat}

theorem owned_keeps_backing (sound : ContSound (contBooks s.cont)) {addr : VirtAddr}
    (owns : Owns s.cont addr) : KeepsBacking s addr := by
  intro later after run stays
  obtain ⟨booked, same⟩ := run_books sound run
  have owns' : Owns after.cont addr :=
    ⟨run_keeps_live sound run stays owns.1, by rw [same.prcBlkSize]; exact owns.2⟩
  have backed := owns_backed (s := sysBooks after) booked owns'
  refine ⟨?_, fun absent failed => ?_⟩
  · rw [backingPage, backing_exact]
    exact backed
  · have allowed : (Step.memory (.service addr)).Allowed after := ⟨owns', absent⟩
    have controlled := (step_control allowed).2 _ failed (by decide) (by decide)
    obtain ⟨served, ran, -⟩ := service_exact (s := sysBooks after) booked allowed
    have same : (Step.memory (.service addr)).control (sysBooks after) = .ok (0, served) := by
      rw [Step.control, ran]
      · rfl
      · exact fun _ _ same => by cases same
      · exact fun _ _ same => by cases same
    rw [same] at controlled
    cases controlled

theorem inside_iff (sound : ContSound (contBooks s.cont)) (live : ∃ p, Live s.cont pid p)
    (positive : 0 < size) (position : Nat) :
    InProcess s pid (placeAt pid size position) ↔ position < s.cont.prcBlkSize * size := by
  have page : (placeAt pid size position).page < s.cont.prcBlkSize ↔
      position < s.cont.prcBlkSize * size := place_inside positive
  rw [← page]
  exact ⟨fun inside => inside.2.1, fun bound =>
    ⟨rfl, bound, owned_keeps_backing sound ⟨live, bound⟩⟩⟩

theorem block_fits {cont : ProcCont} (sound : ContSound cont) (live : ∃ p, Live cont pid p) :
    cont.prcBlkSize ≤ cont.mmu.disk.npages := by
  obtain ⟨p, live⟩ := live
  by_cases empty : cont.prcBlkSize = 0
  · omega
  · have stored := (sound.backing (pid, cont.prcBlkSize - 1) _).mpr
      ⟨p, live, by simp only; omega, rfl⟩
    have bound := (sound.mmu.backed _ _ stored).1
    omega

variable (left : Nat) {limit start step : Nat} {place : VirtAddr → Prop} (positive : 0 < size)
  (sizeInt : size < 2 ^ 31) (limitInt : limit ≤ 2 ^ 31 * size)
  (inside : ∀ position, place (placeAt pid size position) ↔ position < limit) (here : start < limit)
include positive sizeInt limitInt inside here

theorem sim_read_keeps (stepInt : step < 2 ^ 31) (moves : 0 < step) (fileName : Option String) :
    Keeps place (fun _ => True)
        (simRead size (placeAt pid size start) step (left + 1 : Nat) fileName) ↔
      (left + 1) * step + 1 < 2 ^ 31 ∧ start + left * step < limit := by
  have visits : ∀ turn, turn < 0 + left + 1 →
      Visits (readByte turn) fun buf after => ∃ byte, after = buf ++ [byte] :=
    fun turn _ => read_byte_visits turn
  have walks := walk_keeps positive sizeInt stepInt limitInt (fun buf => ⟨buf ++ [0], 0, rfl⟩)
    inside left visits here []
  rw [← walks]
  by_cases fits : (left + 1) * step + 1 < 2 ^ 31
  · simp only [simRead, read_buffer_exact fits, assert_positive _ moves,
      assert_positive _ (Nat.succ_pos left), compute_ok, done_bind, Int.toNat_natCast, fits, true_and]
    apply keeps_then
    rintro ⟨err, buf⟩
    simp only
    split <;> trivial
  · simp only [simRead, read_buffer_overflows fits, compute_error, stop_bind, fits, false_and, iff_false]
    exact id

theorem sim_write_keeps {s : List BYTE} {amount : Nat} (bounds : min amount size = left + 1)
    (held : amount ≤ s.length) :
    Keeps place (fun _ => True) (simWrite size (placeAt pid size start) s amount) ↔
      start + left < limit := by
  have visits : ∀ turn, turn < 0 + left + 1 → Visits (writeByte s turn) fun _ _ => True :=
    fun turn bound => write_byte_visits (by omega)
  have walks := walk_keeps positive sizeInt (by decide : 1 < 2 ^ 31) limitInt
    (fun _ => ⟨(), trivial⟩) inside left visits here ()
  rw [Nat.mul_one] at walks
  have some : 0 < amount := by omega
  rw [← walks]
  simp only [simWrite, assert_positive _ some, compute_ok, done_bind, Int.toNat_natCast, bounds]
  exact keeps_then _ _ fun _ => trivial

theorem sim_loop_write_keeps (stepInt : step < 2 ^ 31) (c : BYTE) :
    Keeps place (fun _ => True)
        (simLoopWrite size (placeAt pid size start) c step (left + 1 : Nat)) ↔
      start + left * step < limit := by
  have visits : ∀ turn, turn < 0 + left + 1 → Visits (writeSame c turn) fun _ _ => True :=
    fun turn _ => write_same_visits c turn
  have walks := walk_keeps positive sizeInt stepInt limitInt (fun _ => ⟨(), trivial⟩) inside left
    visits here ()
  rw [← walks]
  simp only [simLoopWrite, assert_natural, assert_positive _ (Nat.succ_pos left), compute_ok, done_bind, Int.toNat_natCast]
  exact keeps_then _ _ fun _ => trivial

end Jobs

/-- A job of a live process stays inside the memory of the process exactly when the
last address it walks to does, and the buffer of a read has a size. -/
theorem jobs_stay_inside {frames pages block size : Nat} (oneFrame : 0 < frames)
    (onePage : 0 < pages) (positive : 0 < block) (pagesInt : pages < 2 ^ 31)
    (sizeInt : size < 2 ^ 31) (nprocs freq : Nat) {past : List Step} {s : System}
    (run : Run Step.Allowed (initialSystem frames pages size block nprocs freq) past s) {pid : Nat}
    (live : ∃ p, Live s.cont pid p) {start : VirtAddr} (mine : start.pid = pid)
    (page : start.page < block) (inPage : start.offset < size) {off amount : Int} (step : 0 < off)
    (stepInt : off < 2 ^ 31) (some : 0 < amount) :
    (∀ fileName, StaysInside s pid (simRead s.cont.mmu.mem.pageSize start off amount fileName) ↔
      amount * off + 1 < 2 ^ 31 ∧ placeOf size start + (amount - 1) * off < block * size) ∧
    (∀ text : List BYTE, amount ≤ text.length →
      (StaysInside s pid (simWrite s.cont.mmu.mem.pageSize start text amount) ↔
        placeOf size start + (min amount size - 1) < block * size)) ∧
    ∀ c, StaysInside s pid (simLoopWrite s.cont.mmu.mem.pageSize start c off amount) ↔
      placeOf size start + (amount - 1) * off < block * size := by
  obtain ⟨booked, same⟩ := run_books (initial_books oneFrame onePage positive nprocs freq) run
  have pageSize : s.cont.mmu.mem.pageSize = size := (run_arrays run).pageSize
  have prcBlkSize : s.cont.prcBlkSize = block := same.prcBlkSize
  have diskPages : s.cont.mmu.disk.npages = pages := same.diskPages
  -- A live process holds a block, so the block fits the disk and its addresses an int.
  have blockFits : (contBooks s.cont).prcBlkSize ≤ (contBooks s.cont).mmu.disk.npages :=
    block_fits booked live
  change s.cont.prcBlkSize ≤ s.cont.mmu.disk.npages at blockFits
  have bytes : 0 < size := by omega
  have limitInt : block * size ≤ 2 ^ 31 * size := Nat.mul_le_mul_right size (by omega)
  have here : placeOf size start < block * size := by
    have whole := place_of_at start inPage
    rw [← whole] at page
    exact (place_inside bytes).mp page
  have inside := inside_iff booked live bytes
  rw [prcBlkSize] at inside
  obtain ⟨left, rfl⟩ : ∃ left : Nat, amount = (left + 1 : Nat) := ⟨(amount - 1).toNat, by omega⟩
  obtain ⟨step', rfl⟩ : ∃ step' : Nat, off = step' := ⟨off.toNat, by omega⟩
  simp only [StaysInside, pageSize]
  have there := place_of_at start inPage
  rw [mine] at there
  have last : ((left + 1 : Nat) : Int) - 1 = left := by omega
  refine ⟨fun fileName => ?_, fun text held => ?_, fun c => ?_⟩
  · have keeps := sim_read_keeps left bytes sizeInt limitInt inside here
      (by omega : step' < 2 ^ 31) (by omega) fileName
    rw [there] at keeps
    rw [keeps, last]
    omega
  -- The walk of a write stops after as many turns as a page has bytes.
  · obtain ⟨turns, bounds⟩ : ∃ turns, min (left + 1) size = turns + 1 :=
      ⟨min (left + 1) size - 1, by omega⟩
    have keeps := sim_write_keeps turns bytes sizeInt limitInt inside here bounds
      (by omega : left + 1 ≤ text.length)
    rw [there] at keeps
    rw [keeps]
    omega
  · have keeps := sim_loop_write_keeps left bytes sizeInt limitInt inside here
      (by omega : step' < 2 ^ 31) c
    rw [there] at keeps
    rw [keeps, last]
    omega

def onePageRun : List Step := [.create fun _ => 0, .start 0]

theorem one_page_reached :
    ∃ s, Run Step.Allowed (initialSystem 2 2 2 1 1 1) onePageRun.reverse s ∧
      (∃ p, Live s.cont 0 p) ∧
      (Step.memory (.service ⟨0, 1, 0⟩)).run s = .error (.assertion .mmuSyncFromBackingPage) := by
  have replayed : ((replaySteps Step.Allowed (initialSystem 2 2 2 1 1 1) onePageRun).any fun s : System =>
      decide ((∃ p, Live s.cont 0 p) ∧ (Step.memory (.service ⟨0, 1, 0⟩)).run s =
        .error (.assertion .mmuSyncFromBackingPage))) = true := by decide
  obtain ⟨s, ran, found⟩ := (Option.any_eq_true _ _).mp replayed
  obtain ⟨live, fails⟩ := of_decide_eq_true found
  exact ⟨s, by simpa using replay_steps_run .nil ran, live, fails⟩

theorem jobs_stay_inside_page :
    ∃ s, Run Step.Allowed (initialSystem 2 2 2 1 1 1) onePageRun.reverse s ∧
      StaysInside s 0 (simRead s.cont.mmu.mem.pageSize ⟨0, 0, 0⟩ 1 2 none) := by
  obtain ⟨s, run, live, -⟩ := one_page_reached
  have inside := (jobs_stay_inside (by decide) (by decide) (by decide) (by decide) (by decide) 1 1
    run live (rfl : (⟨0, 0, 0⟩ : VirtAddr).pid = 0) (by decide) (by decide)
    (by decide : (0 : Int) < 1) (by decide) (by decide : (0 : Int) < 2)).1 none
  exact ⟨s, run, inside.mpr (by decide)⟩

/-- A read of three bytes calls for a page the process does not have, and the PRM
fails on it. -/
theorem long_read_leaves :
    (¬ ∀ past s pid, Run Step.Allowed (initialSystem 2 2 2 1 1 1) past s →
      (∃ p, Live s.cont pid p) → ∀ start : VirtAddr, start.pid = pid → start.page < 1 →
      start.offset < 2 → ∀ off amount : Int, 0 < off → 0 < amount →
      StaysInside s pid (simRead s.cont.mmu.mem.pageSize start off amount none)) ∧
    ∃ s, Run Step.Allowed (initialSystem 2 2 2 1 1 1) onePageRun.reverse s ∧
      (Step.memory (.service ⟨0, 1, 0⟩)).run s = .error (.assertion .mmuSyncFromBackingPage) := by
  obtain ⟨s, run, live, fails⟩ := one_page_reached
  refine ⟨fun stays => ?_, s, run, fails⟩
  have inside := stays _ s 0 run live ⟨0, 0, 0⟩ rfl (by decide) (by decide) 1 3 (by decide) (by decide)
  have pageSize : s.cont.mmu.mem.pageSize = 2 := (run_arrays run).pageSize
  have prcBlkSize : s.cont.prcBlkSize = 1 :=
    (run_books (initial_books (by decide) (by decide) (by decide) 1 1) run).2.prcBlkSize
  rw [pageSize] at inside
  have third := ((inside.2 (.ecSuccess, 0) rfl).2 (.ecSuccess, 0) rfl).1.2.1
  rw [prcBlkSize] at third
  exact absurd third (by decide)

end VmSim.ProcessTable
