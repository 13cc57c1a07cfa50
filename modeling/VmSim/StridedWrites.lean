import VmSim.ReadBack
import VmSim.WrittenBytes

/-!
`sim_loop_write`, which stores one byte at every `off`-th place of a process. A
stride may be any number of bytes: zero, several pages or no divisor of a page.
The run behind the job and the job with the steps of the other threads are one
history, whose last writes tell what every byte reads as.
-/

namespace VmSim.ProcessTable
open PageTable DiskBlocks KeyedMap FramePool DemandPaging MemoryUnit PageReplacement PagingRuns
open PagedBytes CallTree

/-- The step between two worlds computes no position outside its integer. -/
def Fitted (w after : World) : Prop := ∀ next, after.past = next :: w.past → next.Fits w.state

/-- One of the `amount` places from `start` on, `off` bytes apart. -/
def OnStride (size : Nat) (start : VirtAddr) (off amount : Nat) (key : Key) (offset : Nat) : Prop :=
  ∃ k, k < amount ∧ key = (placeAt start.pid size (placeOf size start + k * off)).key ∧
    offset = (placeAt start.pid size (placeOf size start + k * off)).offset

def loopWriteThenRead (pageSize : Nat) (vAddr : VirtAddr) (c : BYTE) (off amount : Int)
    (fileName : Option String) : Job (Errcode × Option Printed) := do
  let _ ← simLoopWrite pageSize vAddr c off amount
  simRead pageSize vAddr off amount fileName

abbrev GuardedMoves (guard : World → World → Prop) (pid : Nat) (w after : World) : Prop :=
  Moves pid w after ∧ guard w after

abbrev GuardedAccesses (guard : World → World → Prop) (w : World) (call : MmuCall)
    (reply : call.Reply) (after : World) : Prop :=
  Accesses w call reply after ∧ guard w after

abbrev Goes (guard : World → World → Prop) (pid : Nat) (job : Job α) (begin : System)
    (rest : Job α) (w : World) : Prop :=
  Executes (GuardedMoves guard pid) (GuardedAccesses guard) job ⟨[], begin⟩ rest w

/-- The places hold `c` afterwards, every other byte written in the run up to `begin`
keeps its value as long as no other process rewrites its own, and a read along the
same places collects `c` from each. -/
structure WritesStride (guard : World → World → Prop) (past : List Step) (begin : System)
    (start : VirtAddr) (c : BYTE) (off amount : Nat) : Prop where
  hits : ∀ err w, Goes guard start.pid
      (simLoopWrite begin.cont.mmu.mem.pageSize start c off amount) begin (.done err) w →
    err = .ecSuccess ∧ ∀ key offset, OnStride begin.cont.mmu.mem.pageSize start off amount key offset →
      contents (storeOf w.state.cont.mmu) key offset = some c
  keeps : ∀ rest w, Goes guard start.pid
      (simLoopWrite begin.cont.mmu.mem.pageSize start c off amount) begin rest w →
    ∀ key offset value, lastByte past key offset = some value →
      ¬ OnStride begin.cont.mmu.mem.pageSize start off amount key offset →
      (key.1 ≠ start.pid → ∀ next ∈ w.past, next.Leaves key offset) →
      contents (storeOf w.state.cont.mmu) key offset = some value
  collects : 0 < off → amount * off + 1 < 2 ^ 31 → ∀ fileName result w, Goes guard start.pid
      (loopWriteThenRead begin.cont.mmu.mem.pageSize start c off amount fileName) begin
      (.done result) w →
    result = (.ecSuccess, some ⟨fileName, List.replicate amount c⟩)

/-- However far the job is, it can go on to its end. -/
def Finishes (guard : World → World → Prop) (pid : Nat) (job : Job α) (begin : System) : Prop :=
  ∀ rest w, Goes guard pid job begin rest w → ∃ result last,
    Executes (GuardedMoves guard pid) (GuardedAccesses guard) rest w (.done result) last

/-! A write of a job touches one byte, a move of another thread none of its process. -/

theorem last_byte_leaves {next : Step} {key : Key} {offset : Nat} (leaves : next.Leaves key offset)
    (past : List Step) : lastByte (next :: past) key offset = lastByte past key offset := by
  cases next with
  | dealloc pid => exact if_neg (Ne.symm leaves)
  | memory next =>
      cases next with
      | write addr buf =>
          change (if key = addr.key then (changeOf addr buf offset).or (lastByte past key offset)
            else lastByte past key offset) = _
          by_cases same : key = addr.key
          · rw [if_pos same, leaves same.symm, Option.none_or]
          · rw [if_neg same]
      | _ => rfl
  | _ => rfl

theorem last_byte_write (addr : VirtAddr) (c : BYTE) (past : List Step) (key : Key) (offset : Nat) :
    lastByte (.memory (.write addr [c]) :: past) key offset =
      if key = addr.key ∧ offset = addr.offset then some c else lastByte past key offset := by
  change (if key = addr.key then (changeOf addr [c] offset).or (lastByte past key offset)
    else lastByte past key offset) = _
  rw [change_of_byte]
  by_cases own : key = addr.key <;> by_cases there : offset = addr.offset <;> simp [own, there]

theorem foreign_leaves {next : Step} {key : Key} (foreign : ForeignStep key.1 next) (offset : Nat) :
    next.Leaves key offset := by
  cases next with
  | dealloc pid => exact foreign
  | memory next =>
      cases next with
      | write addr buf => exact fun same => absurd (congrArg Prod.fst same) foreign
      | _ => trivial
  | _ => trivial

def MmuCall.step : MmuCall → Step
  | .read addr => .memory (.read addr 1)
  | .write addr byte => .memory (.write addr [byte])

theorem access_step {w after : World} {call : MmuCall} {reply : call.Reply}
    (accessed : Accesses w call reply after) : CheckedStep w.state call.step ∧
      (∃ given, call.step.run w.state = .ok (given, after.state) ∧ 0 ≤ given.code) ∧
      after.past = call.step :: w.past := by
  cases call with
  | read addr => exact ⟨accessed.1, ⟨_, accessed.2.2.1, le_refl (0 : Int)⟩, accessed.2.2.2⟩
  | write addr byte => exact ⟨accessed.1, ⟨_, accessed.2.2.1, le_refl (0 : Int)⟩, accessed.2.2.2⟩

/-! What the job of a process knows of the world. -/

structure Writing (init : System) (past : List Step) (pid : Nat) (w : World) : Prop where
  run : Run FittedStep init (w.past ++ past) w.state
  live : ∃ p, Live w.state.cont pid p

/-- Outside the stride, what was written before is still the last write. -/
def Spared (size : Nat) (past : List Step) (start : VirtAddr) (off amount : Nat) (w : World) : Prop :=
  ∀ key offset value, lastByte past key offset = some value →
    ¬ OnStride size start off amount key offset →
    (key.1 ≠ start.pid → ∀ next ∈ w.past, next.Leaves key offset) →
    lastByte (w.past ++ past) key offset = some value

structure Marked (init : System) (size : Nat) (past : List Step) (start : VirtAddr) (c : BYTE)
    (off amount count : Nat) (w : World) : Prop where
  writing : Writing init past start.pid w
  spared : Spared size past start off amount w
  marks : ∀ key offset, OnStride size start off count key offset →
    lastByte (w.past ++ past) key offset = some c

structure ReadyToMark (init : System) (size block : Nat) (past : List Step) (start : VirtAddr)
    (off amount : Nat) (w : World) (call : MmuCall) : Prop where
  writing : Writing init past start.pid w
  spared : Spared size past start off amount w
  mine : call.addr.pid = start.pid
  page : call.addr.page < block
  inPage : call.addr.offset < size

section Rely
variable {init : System} {size block : Nat} {past : List Step} {start : VirtAddr} {c : BYTE}
  {off amount count : Nat} {guard : World → World → Prop} {w after : World}
  (reached : ∀ past s, Run FittedStep init past s → Reached size block past s)
  (fits : ∀ w after, Run FittedStep init (w.past ++ past) w.state → guard w after →
    ∀ next, CheckedStep w.state next → after.past = next :: w.past → next.Fits w.state)

include reached fits in
theorem taken_writing {next : Step} {reply : Reply} (guarded : guard w after)
    (checked : CheckedStep w.state next) (ran : next.run w.state = .ok (reply, after.state))
    (code : 0 ≤ reply.code) (taken : after.past = next :: w.past)
    (stays : next ≠ .dealloc start.pid) (writing : Writing init past start.pid w) :
    Writing init past start.pid after := by
  have fitted : FittedStep w.state next :=
    ⟨checked, fits w after writing.run guarded next checked taken⟩
  refine ⟨?_, ?_⟩
  · rw [taken]
    exact writing.run.step next fitted ran code
  · exact step_keeps_live (reached _ _ writing.run).booked checked.1 ran code stays writing.live

theorem taken_spared {next : Step} (taken : after.past = next :: w.past)
    (leaves : ∀ key offset, ¬ OnStride size start off amount key offset → key.1 = start.pid →
      next.Leaves key offset) (spared : Spared size past start off amount w) :
    Spared size past start off amount after := by
  intro key offset value before apart foreign
  have now : next.Leaves key offset := by
    by_cases own : key.1 = start.pid
    · exact leaves key offset apart own
    · exact foreign own next (by rw [taken]; exact List.mem_cons_self)
  rw [taken, List.cons_append, last_byte_leaves now]
  refine spared key offset value before apart fun own other member => foreign own other ?_
  rw [taken]
  exact List.mem_cons_of_mem _ member

include reached fits in
theorem moves_marked (moved : Moves start.pid w after) (guarded : guard w after)
    (marked : Marked init size past start c off amount count w) :
    Marked init size past start c off amount count after := by
  obtain ⟨next, reply, foreign, checked, ran, code, taken⟩ := moved
  have stays : next ≠ .dealloc start.pid := by
    rintro rfl
    exact foreign rfl
  have leaves : ∀ (key : Key) offset, key.1 = start.pid → next.Leaves key offset := by
    intro key offset own
    exact foreign_leaves (own ▸ foreign) offset
  refine ⟨taken_writing reached fits guarded checked ran code taken stays marked.writing,
    taken_spared taken (fun key offset _ own => leaves key offset own) marked.spared, ?_⟩
  intro key offset here
  obtain ⟨k, bound, rfl, rfl⟩ := here
  rw [taken, List.cons_append, last_byte_leaves (leaves _ _ rfl)]
  exact marked.marks _ _ ⟨k, bound, rfl, rfl⟩

theorem stride_leaves {k : Nat} (bound : k < amount) {key : Key} {offset : Nat}
    (apart : ¬ OnStride size start off amount key offset) :
    (MmuCall.write (placeAt start.pid size (placeOf size start + k * off)) c).step.Leaves key
      offset := by
  intro same
  rw [change_of_byte, if_neg]
  rintro rfl
  exact apart ⟨k, bound, same.symm, rfl⟩

include reached fits in
theorem write_marked (more : count < amount) {reply : Errcode}
    (accessed : Accesses w
      (.write (placeAt start.pid size (placeOf size start + count * off)) c) reply after)
    (guarded : guard w after) (marked : Marked init size past start c off amount count w) :
    Marked init size past start c off amount (count + 1) after := by
  obtain ⟨checked, ⟨given, ran, code⟩, taken⟩ := access_step accessed
  refine ⟨taken_writing reached fits guarded checked ran code taken (by simp [MmuCall.step])
    marked.writing, taken_spared taken (fun key offset apart _ => stride_leaves more apart)
    marked.spared, ?_⟩
  rintro key offset ⟨k, bound, rfl, rfl⟩
  rw [taken, List.cons_append, MmuCall.step, last_byte_write]
  split
  · rfl
  · rename_i other
    -- an earlier place, or the place itself when the stride is zero
    have earlier : k ≠ count := by
      rintro rfl
      exact other ⟨rfl, rfl⟩
    exact marked.marks _ _ ⟨k, by omega, rfl, rfl⟩

include reached fits in
theorem read_marked {addr : VirtAddr} {reply : Errcode × BYTE}
    (accessed : Accesses w (.read addr) reply after) (guarded : guard w after)
    (marked : Marked init size past start c off amount count w) :
    Marked init size past start c off amount count after := by
  obtain ⟨checked, ⟨given, ran, code⟩, taken⟩ := access_step accessed
  refine ⟨taken_writing reached fits guarded checked ran code taken (by simp [MmuCall.step])
    marked.writing, taken_spared taken (fun _ _ _ _ => trivial) marked.spared, ?_⟩
  intro key offset here
  rw [taken, List.cons_append, last_byte_leaves (by trivial)]
  exact marked.marks key offset here

include reached fits in
theorem writing_reads (writing : Writing init past start.pid w) {addr : VirtAddr}
    {reply : Errcode × BYTE} (accessed : Accesses w (.read addr) reply after)
    (guarded : guard w after) {value : BYTE}
    (written : lastByte (w.past ++ past) addr.key addr.offset = some value) :
    reply = (.ecSuccess, value) := by
  obtain ⟨err, byte⟩ := reply
  obtain ⟨checked, success, ran, taken⟩ := accessed
  have here := reached _ _ writing.run
  have fitted : FittedStep w.state (.memory (.read addr 1)) :=
    ⟨checked, fits w after writing.run guarded _ checked taken⟩
  have first := read_returns here.consistent here.remembers fitted ran (i := 0) (by decide) written
  exact Prod.ext success (Option.some.inj first)

end Rely

/-! The two jobs, one after the other. -/

section Jobs
variable {init : System} {size block : Nat} {past : List Step} {start : VirtAddr} {c : BYTE}
  {off amount turn : Nat} {guard : World → World → Prop} {w : World}
  (reached : ∀ past s, Run FittedStep init past s → Reached size block past s)
  (fits : ∀ w after, Run FittedStep init (w.past ++ past) w.state → guard w after →
    ∀ next, CheckedStep w.state next → after.past = next :: w.past → next.Fits w.state)
  (positive : 0 < size) (inside : placeOf size start + (amount - 1) * off < block * size)

include inside in
theorem stride_inside (bound : turn < amount) :
    placeOf size start + turn * off < block * size := by
  have part : turn * off ≤ (amount - 1) * off := Nat.mul_le_mul_right off (by omega)
  omega

include positive inside in
theorem ready_to_mark {count : Nat} (marked : Marked init size past start c off amount count w)
    (bound : turn < amount) {call : MmuCall}
    (here : call.addr = placeAt start.pid size (placeOf size start + turn * off)) :
    ReadyToMark init size block past start off amount w call := by
  refine ⟨marked.writing, marked.spared, by rw [here]; rfl, ?_, ?_⟩
  · rw [here]
    exact (place_inside positive).mpr (stride_inside inside bound)
  · rw [here]
    exact Nat.mod_lt _ positive

include reached fits in
theorem marked_stable (count : Nat) (w after : World)
    (moved : GuardedMoves guard start.pid w after)
    (marked : Marked init size past start c off amount count w) :
    Marked init size past start c off amount count after :=
  moves_marked reached fits moved.1 moved.2 marked

include reached fits positive inside

theorem write_same_ensures (bound : turn < amount)
    (marked : Marked init size past start c off amount turn w) :
    Ensures (GuardedMoves guard start.pid) (GuardedAccesses guard)
      (ReadyToMark init size block past start off amount)
      (fun result after => result.1 = .ecSuccess ∧
        Marked init size past start c off amount (turn + 1) after)
      (writeSame c turn (placeAt start.pid size (placeOf size start + turn * off)) ()) w := by
  apply ensures_call (marked_stable reached fits turn) marked
  intro w marked
  refine ⟨ready_to_mark positive inside marked bound rfl, ?_⟩
  rintro reply after ⟨accessed, guarded⟩
  obtain rfl : reply = .ecSuccess := accessed.2.1
  exact ensures_done (marked_stable reached fits (turn + 1))
    (write_marked reached fits bound accessed guarded marked) fun last kept => ⟨rfl, kept⟩

theorem read_same_ensures (bound : turn < amount)
    (marked : Marked init size past start c off amount amount w) :
    Ensures (GuardedMoves guard start.pid) (GuardedAccesses guard)
      (ReadyToMark init size block past start off amount)
      (fun result after => result.1 = .ecSuccess ∧ result.2 = List.replicate (turn + 1) c ∧
        Marked init size past start c off amount amount after)
      (readByte turn (placeAt start.pid size (placeOf size start + turn * off))
        (List.replicate turn c)) w := by
  apply ensures_call (marked_stable reached fits amount) marked
  intro w marked
  refine ⟨ready_to_mark positive inside marked bound rfl, ?_⟩
  rintro reply after ⟨accessed, guarded⟩
  have value := writing_reads reached fits marked.writing accessed guarded
    (marked.marks _ _ ⟨turn, bound, rfl, rfl⟩)
  subst value
  refine ensures_done (marked_stable reached fits amount)
    (read_marked reached fits accessed guarded marked) fun last kept => ⟨rfl, ?_, kept⟩
  exact List.replicate_succ'.symm

variable (sizeInt : size < 2 ^ 31) (blockInt : block ≤ 2 ^ 31) (inPage : start.offset < size)
  (stepInt : off < 2 ^ 31) (some : 0 < amount)
include sizeInt blockInt inPage stepInt some

theorem loop_write_ensures (unmarked : Marked init size past start c off amount 0 w) :
    Ensures (GuardedMoves guard start.pid) (GuardedAccesses guard)
      (ReadyToMark init size block past start off amount)
      (fun err after => err = .ecSuccess ∧ Marked init size past start c off amount amount after)
      (simLoopWrite size start c off amount) w := by
  have small : ∀ turn, turn < amount → placeOf size start + turn * off < 2 ^ 31 * size :=
    fun turn bound => Nat.lt_of_lt_of_le (stride_inside inside bound)
      (Nat.mul_le_mul_right size blockInt)
  have walks := walk_whole_ensures (writeSame c) positive sizeInt inPage stepInt small
    (fun turn _ => marked_stable reached fits turn)
    (fun turn _ _ bound marked => write_same_ensures reached fits positive inside bound marked)
    (s := ()) unmarked
  simp only [simLoopWrite, assert_natural, assert_positive _ some, compute_ok, done_bind,
    Int.toNat_natCast]
  refine ensures_bind (ensures_mono ?_ walks)
  rintro ⟨err, u⟩ w ⟨success, marked⟩
  exact ensures_done (marked_stable reached fits amount) marked fun w marked => ⟨success, marked⟩

theorem stride_read_ensures (moves : 0 < off) (buffer : amount * off + 1 < 2 ^ 31)
    (fileName : Option String) (marked : Marked init size past start c off amount amount w) :
    Ensures (GuardedMoves guard start.pid) (GuardedAccesses guard)
      (ReadyToMark init size block past start off amount)
      (fun result _ => result = (.ecSuccess, .some ⟨fileName, List.replicate amount c⟩))
      (simRead size start off amount fileName) w := by
  have small : ∀ turn, turn < amount → placeOf size start + turn * off < 2 ^ 31 * size :=
    fun turn bound => Nat.lt_of_lt_of_le (stride_inside inside bound)
      (Nat.mul_le_mul_right size blockInt)
  have stable : ∀ turn (buf : List BYTE) (w after : World),
      GuardedMoves guard start.pid w after →
      buf = List.replicate turn c ∧ Marked init size past start c off amount amount w →
      buf = List.replicate turn c ∧ Marked init size past start c off amount amount after :=
    fun _ _ w after moved known => ⟨known.1, marked_stable reached fits amount w after moved known.2⟩
  have walks := walk_whole_ensures readByte positive sizeInt inPage stepInt small stable
    (fun turn buf w bound known => by
      obtain ⟨rfl, marked⟩ := known
      exact read_same_ensures reached fits positive inside bound marked)
    (s := []) ⟨rfl, marked⟩
  simp only [simRead, read_buffer_exact buffer, assert_positive _ moves, assert_positive _ some,
    compute_ok, done_bind, Int.toNat_natCast]
  refine ensures_bind (ensures_mono ?_ walks)
  -- Each turn read the byte its write had left, so the buffer is that byte throughout.
  rintro ⟨err, buf⟩ w ⟨success, collected, marked⟩
  obtain rfl : err = .ecSuccess := success
  obtain rfl : buf = List.replicate amount c := collected
  exact ensures_done (marked_stable reached fits amount) marked fun _ _ => rfl

theorem loop_write_then_read_ensures (moves : 0 < off) (buffer : amount * off + 1 < 2 ^ 31)
    (fileName : Option String) (unmarked : Marked init size past start c off amount 0 w) :
    Ensures (GuardedMoves guard start.pid) (GuardedAccesses guard)
      (ReadyToMark init size block past start off amount)
      (fun result _ => result = (.ecSuccess, .some ⟨fileName, List.replicate amount c⟩))
      (loopWriteThenRead size start c off amount fileName) w := by
  refine ensures_bind (ensures_mono ?_ (loop_write_ensures reached fits positive inside sizeInt
    blockInt inPage stepInt some unmarked))
  rintro err w ⟨-, marked⟩
  exact stride_read_ensures reached fits positive inside sizeInt blockInt inPage stepInt some moves
    buffer fileName marked

omit reached fits positive inside sizeInt blockInt inPage stepInt some in
theorem begins_unmarked {begin : System} (run : Run FittedStep init past begin)
    (live : ∃ p, Live begin.cont start.pid p) :
    Marked init size past start c off amount 0 ⟨[], begin⟩ := by
  refine ⟨⟨run, live⟩, fun _ _ _ before _ _ => before, ?_⟩
  rintro key offset ⟨k, bound, -⟩
  exact absurd bound (Nat.not_lt_zero k)

theorem writes_stride {begin : System} (pageSize : begin.cont.mmu.mem.pageSize = size)
    (run : Run FittedStep init past begin) (live : ∃ p, Live begin.cont start.pid p) :
    WritesStride guard past begin start c off amount := by
  have unmarked : Marked init size past start c off amount 0 ⟨[], begin⟩ :=
    begins_unmarked run live
  have ensures := loop_write_ensures reached fits positive inside sizeInt blockInt inPage stepInt
    some unmarked
  subst pageSize
  refine ⟨fun err w goes => ?_, fun rest w goes => ?_, fun moves buffer fileName result w goes => ?_⟩
  · obtain ⟨success, marked⟩ := ensures_executes ensures goes w .refl
    exact ⟨success, fun key offset here =>
      remembered (reached _ _ marked.writing.run).remembers (marked.marks key offset here)⟩
  · have known := ensures_here
      (fun w => Writing init past start.pid w ∧
        Spared begin.cont.mmu.mem.pageSize past start off amount w)
      (fun _ _ ended => ⟨ended.2.writing, ended.2.spared⟩)
      (fun _ _ ready => ⟨ready.writing, ready.spared⟩) (ensures_executes ensures goes)
    intro key offset value before apart foreign
    exact remembered (reached _ _ known.1.run).remembers (known.2 key offset value before apart foreign)
  · have collects := loop_write_then_read_ensures reached fits positive inside sizeInt blockInt inPage
      stepInt some moves buffer fileName unmarked
    exact ensures_executes collects goes w .refl

end Jobs

/-! Where every position fits, no call of a job is stuck. -/

theorem small_step_fits {s : System} {next : Step} (consistent : Consistent s.cont.mmu)
    (memSmall : s.cont.mmu.mem.npages * s.cont.mmu.mem.pageSize < 2 ^ 32)
    (diskSmall : s.cont.mmu.disk.npages * s.cont.mmu.disk.pageSize ≤ 2 ^ 31)
    (checked : CheckedStep s next) : next.Fits s := by
  have access : ∀ (addr : VirtAddr) nbytes, addr.offset + nbytes ≤ s.cont.mmu.mem.pageSize →
      AccessFits s.cont.mmu addr := by
    intro addr nbytes inPage frame held
    have last := page_end_le s.cont.mmu.mem.pageSize (consistent_frame consistent held)
    omega
  cases next with
  | memory next =>
      cases next with
      | service addr => exact small_fits consistent (Nat.le_of_lt memSmall) diskSmall
      | read addr nbytes => exact access addr nbytes checked.2
      | write addr buf => exact access addr buf.length checked.2
      | _ => trivial
  | _ => trivial

section Progress
variable {init : System} {size block : Nat} {past : List Step} {start : VirtAddr}
  {off amount : Nat} {guard : World → World → Prop} {w : World}
  (reached : ∀ past s, Run FittedStep init past s → Reached size block past s)
  (room : ∀ past s, Run FittedStep init past s → ∀ next, CheckedStep s next → next.Fits s)
  (sizeInt : size < 2 ^ 31)

include reached room sizeInt in
theorem resident_access {past : List Step} (run : Run FittedStep init past w.state) {call : MmuCall}
    (owns : Owns w.state.cont call.addr) (inPage : call.addr.offset < size)
    (resident : frameOf w.state.cont.mmu.memIpt call.addr.key ≠ none) :
    ∃ reply after, Accesses w call reply after := by
  have here := reached _ _ run
  have small : w.state.cont.mmu.mem.pageSize < 2 ^ 31 := by rw [here.pageSize]; exact sizeInt
  obtain ⟨frame, held⟩ := Option.ne_none_iff_exists'.mp resident
  cases call with
  | read addr =>
      have inside : addr.offset + 1 ≤ w.state.cont.mmu.mem.pageSize := by
        rw [here.pageSize]
        exact inPage
      have checked : CheckedStep w.state (.memory (.read addr 1)) := ⟨⟨owns, resident⟩, inside⟩
      obtain ⟨place, fits⟩ := access_place here.consistent held inside (room _ _ run _ checked)
      obtain ⟨ipt, body, -⟩ := read_body_view here.consistent.table held place fits
      -- The page is resident and the offset lies in it, so the read gives its one byte.
      obtain ⟨byte, one⟩ := List.length_eq_one_iff.mp (slice_length fits)
      rw [one] at body
      have passes := read_in_page_passes (m := w.state.machine) small inside
      simp only [MmuCall.addr] at body
      have ran : (Step.memory (.read addr 1)).run w.state = .ok (⟨0, [byte]⟩,
          w.state.withMachine ⟨{ w.state.cont.mmu with memIpt := ipt }, w.state.prm⟩) := by
        simp only [System.machine] at passes
        simp [Step.run, Section.run, System.machine, passes, body]
      exact ⟨(.ecSuccess, byte), ⟨_, _⟩, checked, rfl, ran, rfl⟩
  | write addr byte =>
      have inside : addr.offset + [byte].length ≤ w.state.cont.mmu.mem.pageSize := by
        rw [here.pageSize]
        exact inPage
      have checked : CheckedStep w.state (.memory (.write addr [byte])) :=
        ⟨⟨owns, resident⟩, inside⟩
      obtain ⟨place, fits⟩ := access_place here.consistent held inside (room _ _ run _ checked)
      obtain ⟨ipt, data, body, -⟩ := write_body_view here.consistent.table held inside place fits
      have passes := write_in_page_passes (m := w.state.machine) small inside
      simp only [MmuCall.addr] at body
      have ran : (Step.memory (.write addr [byte])).run w.state = .ok (⟨0, []⟩,
          w.state.withMachine ⟨{ w.state.cont.mmu with
            memIpt := ipt
            mem := { w.state.cont.mmu.mem with data := data } }, w.state.prm⟩) := by
        simp only [System.machine, List.length_singleton] at passes
        simp [Step.run, Section.run, System.machine, passes, body]
      exact ⟨.ecSuccess, ⟨_, _⟩, checked, rfl, ran, rfl⟩

include reached room in
theorem absent_loads {past : List Step} (run : Run FittedStep init past w.state) {addr : VirtAddr}
    (owns : Owns w.state.cont addr) (absent : frameOf w.state.cont.mmu.memIpt addr.key = none) :
    ∃ after, FittedStep w.state (.memory (.service addr)) ∧
      (Step.memory (.service addr)).run w.state = .ok (⟨0, []⟩, after) ∧
      Owns after.cont addr ∧ frameOf after.cont.mmu.memIpt addr.key ≠ none := by
  have here := reached _ _ run
  have checked : CheckedStep w.state (.memory (.service addr)) := ⟨⟨owns, absent⟩, trivial⟩
  have fitted : FittedStep w.state (.memory (.service addr)) := ⟨checked, room _ _ run _ checked⟩
  have mapped : backingPage w.state.cont.mmu addr ≠ none := by
    rw [backingPage, backing_exact]
    exact owns_backed (s := sysBooks w.state) here.booked owns
  have missing : iptHasTranslation w.state.cont.mmu.memIpt addr = .ok false := by
    rw [has_translation_exact here.consistent.table, absent]
    rfl
  obtain ⟨prm, mmu, served, serves⟩ :=
    service_serves here.consistent mapped missing fitted.2 w.state.prm
  have ran : (Step.memory (.service addr)).run w.state =
      .ok (⟨0, []⟩, w.state.withMachine ⟨mmu, prm⟩) := by
    simp [Step.run, Section.run, System.machine, served]
  have table := (reached _ _ (run.step _ fitted ran (le_refl (0 : Int)))).consistent.table
  obtain ⟨frame, slot, translated, -⟩ := serves.loaded.translated
  exact ⟨_, fitted, ran, owns,
    Option.ne_none_iff_exists'.mpr ⟨frame, (translate_iff table).mp translated⟩⟩

include reached room sizeInt in
theorem ready_goes_on (open' : ∀ w after, guard w after) {call : MmuCall}
    (ready : ReadyToMark init size block past start off amount w call) :
    ∃ middle reply after, Relation.ReflTransGen (GuardedMoves guard start.pid) w middle ∧
      GuardedAccesses guard middle call reply after := by
  obtain ⟨⟨run, live⟩, -, mine, page, inPage⟩ := ready
  have owns : Owns w.state.cont call.addr := by
    refine ⟨mine ▸ live, ?_⟩
    rw [(reached _ _ run).prcBlkSize]
    exact page
  by_cases absent : frameOf w.state.cont.mmu.memIpt call.addr.key = none
  · obtain ⟨loaded, fitted, ran, owns', resident⟩ := absent_loads reached room run owns absent
    let middle : World := ⟨.memory (.service call.addr) :: w.past, loaded⟩
    have moved : Moves start.pid w middle :=
      ⟨.memory (.service call.addr), ⟨0, []⟩, trivial, fitted.1, ran, le_refl (0 : Int), rfl⟩
    have run' : Run FittedStep init (middle.past ++ past) middle.state :=
      run.step _ fitted ran (le_refl (0 : Int))
    obtain ⟨reply, after, accessed⟩ := resident_access reached room sizeInt run' owns' inPage resident
    exact ⟨middle, reply, after, .single ⟨moved, open' _ _⟩, accessed, open' _ _⟩
  · obtain ⟨reply, after, accessed⟩ := resident_access reached room sizeInt run owns inPage absent
    exact ⟨w, reply, after, .refl, accessed, open' _ _⟩

include reached room sizeInt in
theorem ensures_finishes (open' : ∀ w after, guard w after) {begin : System} {job : Job α}
    {post : α → World → Prop}
    (ensures : Ensures (GuardedMoves guard start.pid) (GuardedAccesses guard)
      (ReadyToMark init size block past start off amount) post job ⟨[], begin⟩) :
    Finishes guard start.pid job begin := by
  intro rest w goes
  obtain ⟨result, last, finished, -⟩ := ensures_completes
    (fun w call ready => ready_goes_on reached room sizeInt open' ready)
    (ensures_executes ensures goes)
  exact ⟨result, last, finished⟩

end Progress

section Small
variable {frames pages block size : Nat} (oneFrame : 0 < frames) (onePage : 0 < pages)
  (positive : 0 < block) (memSmall : frames * size < 2 ^ 32) (diskSmall : pages * size ≤ 2 ^ 31)
  (nprocs freq : Nat) {past : List Step} {s : System}
include oneFrame onePage positive memSmall diskSmall

theorem small_fitted (run : Run CheckedStep (initialSystem frames pages size block nprocs freq) past s)
    {next : Step} (checked : CheckedStep s next) : next.Fits s := by
  have allowed := checked_allowed run
  have arrays := run_arrays allowed
  apply small_step_fits (run_consistent oneFrame onePage positive size nprocs freq allowed) _ _ checked
  · rw [arrays.npages, arrays.pageSize]
    exact memSmall
  · rw [arrays.diskPages, arrays.diskSize]
    exact diskSmall

theorem small_run_fitted
    (run : Run CheckedStep (initialSystem frames pages size block nprocs freq) past s) :
    Run FittedStep (initialSystem frames pages size block nprocs freq) past s := by
  induction run with
  | nil => exact .nil
  | step next before checked ran code ih =>
      have fits := small_fitted oneFrame onePage positive memSmall diskSmall nprocs freq before checked
      exact ih.step next ⟨checked, fits⟩ ran code

end Small

/-- The loop write of a live process stores its byte at the places of the stride and
loses no other, in every run whose steps compute no wrong position; and where no
step can compute one, it comes to its end. -/
theorem strided_write_exact {frames pages block size : Nat} (oneFrame : 0 < frames)
    (onePage : 0 < pages) (positive : 0 < block) (pagesInt : pages < 2 ^ 31)
    (sizeInt : size < 2 ^ 31) (nprocs freq : Nat) {past : List Step} {s : System}
    (run : Run CheckedStep (initialSystem frames pages size block nprocs freq) past s)
    {start : VirtAddr} (live : ∃ p, Live s.cont start.pid p) (inPage : start.offset < size)
    {off amount : Nat} (stepInt : off < 2 ^ 31) (some : 0 < amount)
    (inside : placeOf size start + (amount - 1) * off < block * size) (c : BYTE) :
    (Run FittedStep (initialSystem frames pages size block nprocs freq) past s →
      WritesStride Fitted past s start c off amount) ∧
    (frames * size < 2 ^ 32 → pages * size ≤ 2 ^ 31 →
      WritesStride (fun _ _ => True) past s start c off amount ∧
      Finishes (fun _ _ => True) start.pid (simLoopWrite size start c off amount) s ∧
      (0 < off → amount * off + 1 < 2 ^ 31 → ∀ fileName,
        Finishes (fun _ _ => True) start.pid
          (loopWriteThenRead size start c off amount fileName) s)) := by
  have reached := fun past s => @run_reached frames pages block oneFrame onePage positive size nprocs
    freq past s
  have bytes : 0 < size := by omega
  have allowed := checked_allowed run
  have pageSize : s.cont.mmu.mem.pageSize = size := (run_arrays allowed).pageSize
  have blockInt : block ≤ 2 ^ 31 := by
    obtain ⟨booked, same⟩ := run_books (initial_books oneFrame onePage positive nprocs freq) allowed
    have fits := block_fits booked live
    change s.cont.prcBlkSize ≤ s.cont.mmu.disk.npages at fits
    rw [same.prcBlkSize, same.diskPages] at fits
    exact Nat.le_trans fits (Nat.le_of_lt pagesInt)
  refine ⟨fun fitted => ?_, fun memSmall diskSmall => ?_⟩
  · exact writes_stride reached (fun w after _ guarded next _ taken => guarded next taken) bytes inside
      sizeInt blockInt inPage stepInt some pageSize fitted live
  -- When memory and disk are small no address product wraps, whatever is done next.
  · have room : ∀ past s, Run FittedStep (initialSystem frames pages size block nprocs freq) past s →
        ∀ next, CheckedStep s next → next.Fits s := fun past s before next checked =>
      small_fitted oneFrame onePage positive memSmall diskSmall nprocs freq (fitted_checked before)
        checked
    have fitted := small_run_fitted oneFrame onePage positive memSmall diskSmall nprocs freq run
    have fits : ∀ w after : World,
        Run FittedStep (initialSystem frames pages size block nprocs freq) (w.past ++ past) w.state →
        True → ∀ next, CheckedStep w.state next → after.past = next :: w.past → next.Fits w.state :=
      fun w _ before _ next checked _ => room _ _ before next checked
    have unmarked : Marked (initialSystem frames pages size block nprocs freq) size past start c off
        amount 0 ⟨[], s⟩ := begins_unmarked fitted live
    refine ⟨writes_stride reached fits bytes inside sizeInt blockInt inPage stepInt some pageSize fitted
      live, ?_, fun moves buffer fileName => ?_⟩
    · exact ensures_finishes reached room sizeInt (fun _ _ => trivial) (loop_write_ensures reached fits
        bytes inside sizeInt blockInt inPage stepInt some unmarked)
    · exact ensures_finishes reached room sizeInt (fun _ _ => trivial) (loop_write_then_read_ensures
        reached fits bytes inside sizeInt blockInt inPage stepInt some moves buffer fileName unmarked)

/-- A process of three pages and a byte it has written; two frames. -/
def stridedRun : List Step :=
  [.create fun _ => 0, .start 0, .memory (.write ⟨0, 0, 1⟩ [7])]

/-- A stride of two pages and a half. -/
theorem strided_write_exact_pages :
    ∃ s, Run CheckedStep (initialSystem 2 3 2 3 1 1) stridedRun.reverse s ∧
      WritesStride Fitted stridedRun.reverse s ⟨0, 0, 0⟩ 9 5 2 ∧
      Finishes (fun _ _ => True) 0 (loopWriteThenRead 2 ⟨0, 0, 0⟩ 9 5 2 none) s := by
  have replayed : ((replaySteps CheckedStep (initialSystem 2 3 2 3 1 1) stridedRun).any
      fun s : System => decide (∃ p, Live s.cont 0 p)) = true := by decide
  obtain ⟨s, ran, found⟩ := (Option.any_eq_true _ _).mp replayed
  have run : Run CheckedStep (initialSystem 2 3 2 3 1 1) stridedRun.reverse s := by
    simpa using replay_steps_run .nil ran
  have live : ∃ p, Live s.cont (⟨0, 0, 0⟩ : VirtAddr).pid p := of_decide_eq_true found
  obtain ⟨strides, small⟩ := @strided_write_exact 2 3 3 2 (by decide) (by decide) (by decide)
    (by decide) (by decide) 1 1 _ s run ⟨0, 0, 0⟩ live (by decide) 5 2 (by decide) (by decide)
    (by decide) 9
  have fitted := small_run_fitted (by decide) (by decide) (by decide) (by decide) (by decide) 1 1 run
  exact ⟨s, run, strides fitted, (small (by decide) (by decide)).2.2 (by decide) (by decide) none⟩

/-- Five frames of 2^30 bytes: the fifth one starts where an `unsigned` is zero again. -/
def fiveCreations : List Step := List.replicate 5 (.create fun _ => 0)

theorem five_created :
    ∃ s, Run CheckedStep (initialSystem 5 5 (2 ^ 30) 1 5 1) fiveCreations.reverse s ∧
      Owns s.cont ⟨0, 0, 0⟩ ∧ Owns s.cont ⟨4, 0, 0⟩ ∧
      frameOf s.cont.mmu.memIpt (0, 0) = some 0 ∧ frameOf s.cont.mmu.memIpt (4, 0) = some 4 := by
  have replayed : ((replaySteps CheckedStep (initialSystem 5 5 (2 ^ 30) 1 5 1) fiveCreations).any
      fun s : System => decide (Owns s.cont ⟨0, 0, 0⟩ ∧ Owns s.cont ⟨4, 0, 0⟩ ∧
        frameOf s.cont.mmu.memIpt (0, 0) = some 0 ∧
        frameOf s.cont.mmu.memIpt (4, 0) = some 4)) = true := by decide
  obtain ⟨s, ran, found⟩ := (Option.any_eq_true _ _).mp replayed
  exact ⟨s, by simpa using replay_steps_run .nil ran, of_decide_eq_true found⟩

theorem write_lands {s : System} (consistent : Consistent s.cont.mmu)
    (sizeInt : s.cont.mmu.mem.pageSize < 2 ^ 31) {addr : VirtAddr} {byte : BYTE} {frame : Nat}
    (held : frameOf s.cont.mmu.memIpt addr.key = some frame)
    (inPage : addr.offset < s.cont.mmu.mem.pageSize) :
    ∃ after, (Step.memory (.write addr [byte])).run s = .ok (⟨0, []⟩, after) ∧
      frameOf after.cont.mmu.memIpt = frameOf s.cont.mmu.memIpt ∧
      after.cont.mmu.mem = { s.cont.mmu.mem with
        data := overwrite s.cont.mmu.mem.data (memAddr s.cont.mmu frame addr.offset) [byte] } ∧
      memAddr s.cont.mmu frame addr.offset + 1 ≤ s.cont.mmu.mem.data.length ∧
      ∀ other, Owns after.cont other ↔ Owns s.cont other := by
  -- The address may wrap, but to a smaller one, so it stays inside the memory.
  have last := page_end_le s.cont.mmu.mem.pageSize (consistent_frame consistent held)
  have wraps : memAddr s.cont.mmu frame addr.offset ≤
      frame * s.cont.mmu.mem.pageSize + addr.offset := Nat.mod_le _ _
  have sized := consistent.memSized
  have fits : memAddr s.cont.mmu frame addr.offset + 1 ≤ s.cont.mmu.mem.data.length := by omega
  have lands : memAddr s.cont.mmu frame addr.offset + [byte].length ≤ s.cont.mmu.mem.data.length := fits
  obtain ⟨ipt, body, moved⟩ := write_body_runs consistent.table held lands
  have passes : mmuWriteInPage s.cont.mmu addr 1 = .ok () :=
    write_in_page_passes (m := s.machine) sizeInt inPage
  refine ⟨s.withMachine ⟨{ s.cont.mmu with
    memIpt := ipt
    mem := { s.cont.mmu.mem with
      data := overwrite s.cont.mmu.mem.data (memAddr s.cont.mmu frame addr.offset) [byte] } }, s.prm⟩,
    ?_, congrArg Pool.frame moved.pool, rfl, fits, fun _ => Iff.rfl⟩
  simp [Step.run, Section.run, System.machine, passes, body]

/-- Process 4 stores a byte at its address 0, and process 0 has lost its own. -/
theorem wrapped_write_lost :
    ¬ ∀ past s, Run CheckedStep (initialSystem 5 5 (2 ^ 30) 1 5 1) past s →
      ∀ start : VirtAddr, (∃ p, Live s.cont start.pid p) → start.offset < 2 ^ 30 →
      ∀ off amount : Nat, off < 2 ^ 31 → 0 < amount →
      placeOf (2 ^ 30) start + (amount - 1) * off < 1 * 2 ^ 30 →
      ∀ c, WritesStride (fun _ _ => True) past s start c off amount := by
  intro correct
  obtain ⟨s, run, owns, owns', held, held'⟩ := five_created
  have consistent := run_consistent (by decide) (by decide) (by decide) (2 ^ 30) 5 1
    (checked_allowed run)
  have pageSize : s.cont.mmu.mem.pageSize = 2 ^ 30 := (run_arrays (checked_allowed run)).pageSize
  have small : s.cont.mmu.mem.pageSize < 2 ^ 31 := by rw [pageSize]; decide
  have inPage : 0 < s.cont.mmu.mem.pageSize := by rw [pageSize]; decide
  -- process 0 writes 7 at its address 0
  obtain ⟨first, ran, frames, mem, room, owners⟩ :=
    @write_lands s consistent small ⟨0, 0, 0⟩ 7 0 held inPage
  have resident : frameOf s.cont.mmu.memIpt (0, 0) ≠ none := by simp [held]
  have run' := run.step (.memory (.write ⟨0, 0, 0⟩ [7])) ⟨⟨owns, resident⟩, inPage⟩ ran
    (le_refl (0 : Int))
  -- and the job of process 4 writes 9 at its own
  have consistent' := run_consistent (by decide) (by decide) (by decide) (2 ^ 30) 5 1
    (checked_allowed run')
  have pageSize' : first.cont.mmu.mem.pageSize = 2 ^ 30 := (run_arrays (checked_allowed run')).pageSize
  have there : frameOf first.cont.mmu.memIpt (4, 0) = some 4 := by rw [frames, held']
  obtain ⟨second, ran', frames', mem', room', -⟩ := @write_lands first consistent'
    (by rw [pageSize']; decide) ⟨4, 0, 0⟩ 9 4 there (by rw [pageSize']; decide)
  have owns'' : Owns first.cont ⟨4, 0, 0⟩ := (owners _).mpr owns'
  have accessed : Accesses ⟨[], first⟩ (.write ⟨4, 0, 0⟩ 9) .ecSuccess
      ⟨[.memory (.write ⟨4, 0, 0⟩ [9])], second⟩ := by
    have inPage' : 0 + 1 ≤ first.cont.mmu.mem.pageSize := by rw [pageSize']; decide
    refine ⟨⟨⟨owns'', ?_⟩, inPage'⟩, rfl, ran', rfl⟩
    simp [VirtAddr.key, there]
  have strides := correct _ first run' ⟨4, 0, 0⟩ owns''.1 (by decide) 1 1 (by decide) (by decide)
    (by decide) 9
  obtain ⟨next, job⟩ : ∃ next, simLoopWrite first.cont.mmu.mem.pageSize ⟨4, 0, 0⟩ 9 (1 : Nat)
      (1 : Nat) = .call (.write ⟨4, 0, 0⟩ 9) next := ⟨_, rfl⟩
  have goes : Goes (fun _ _ => True) 4 (simLoopWrite first.cont.mmu.mem.pageSize ⟨4, 0, 0⟩ 9 (1 : Nat)
      (1 : Nat)) first (next .ecSuccess) ⟨[.memory (.write ⟨4, 0, 0⟩ [9])], second⟩ := by
    rw [job]
    exact Executes.start.call ⟨accessed, trivial⟩
  have apart : ¬ OnStride first.cont.mmu.mem.pageSize ⟨4, 0, 0⟩ 1 1 (0, 0) 0 := by
    rintro ⟨k, -, same, -⟩
    have pids : (0 : Nat) = 4 := congrArg Prod.fst same
    cases pids
  have kept := strides.keeps _ _ goes (0, 0) 0 7 rfl apart (by simp [Step.Leaves, VirtAddr.key])
  -- the position of frame 4 wraps to that of frame 0
  have origin : memAddr first.cont.mmu 4 0 = 0 := by rw [memAddr, pageSize']; decide
  have here : (storeOf second.cont.mmu).pool.frame (0, 0) = some 0 := by
    change frameOf second.cont.mmu.memIpt (0, 0) = some 0
    rw [frames', frames, held]
  have bytes : (storeOf second.cont.mmu).memory 0 0 = some 9 := by
    simp only [origin] at mem' room'
    simp only [storeOf, mem', pageCell, pageSize']
    rw [if_pos (by decide), overwrite_get room']
    simp
  rw [contents_resident here, bytes] at kept
  exact absurd kept (by decide)

end VmSim.ProcessTable
