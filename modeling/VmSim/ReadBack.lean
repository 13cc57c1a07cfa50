import VmSim.ProcessJobs

/-!
A string that `sim_write` stores and `sim_read` fetches again, while the other
threads go on. A world is the state of the program with the steps taken since
the job began; every byte the job has written is the last one written to its
page, so whatever is evicted in between, the read finds it.
-/

namespace VmSim.ProcessTable
open PageTable MemoryUnit DemandPaging PageReplacement PagingRuns CallTree

structure World where
  past : List Step
  state : System

/-- A step that the thread of `pid` does not take. -/
def ForeignStep (pid : Nat) : Step → Prop
  | .dealloc other => other ≠ pid
  | .memory (.read addr _) => addr.pid ≠ pid
  | .memory (.write addr _) => addr.pid ≠ pid
  | _ => True

def Moves (pid : Nat) (w after : World) : Prop :=
  ∃ next reply, ForeignStep pid next ∧ CheckedStep w.state next ∧
    next.run w.state = .ok (reply, after.state) ∧ 0 ≤ reply.code ∧ after.past = next :: w.past

def Accesses (w : World) : (call : MmuCall) → call.Reply → World → Prop
  | .read addr, reply, after => CheckedStep w.state (.memory (.read addr 1)) ∧
      reply.1 = .ecSuccess ∧
      (Step.memory (.read addr 1)).run w.state = .ok (⟨0, [reply.2]⟩, after.state) ∧
      after.past = .memory (.read addr 1) :: w.past
  | .write addr byte, reply, after => CheckedStep w.state (.memory (.write addr [byte])) ∧
      reply = .ecSuccess ∧
      (Step.memory (.write addr [byte])).run w.state = .ok (⟨0, []⟩, after.state) ∧
      after.past = .memory (.write addr [byte]) :: w.past

def writeThenRead (pageSize : Nat) (vAddr : VirtAddr) (s : List BYTE) (fileName : Option String) :
    Job (Errcode × Option Printed) := do
  let _ ← simWrite pageSize vAddr s s.length
  simRead pageSize vAddr 1 s.length fileName

def OutsideRange (size : Nat) (start : VirtAddr) (amount : Nat) (key : Key) (offset : Nat) : Prop :=
  key.1 = start.pid → offset < size →
    key.2 * size + offset < placeOf size start ∨ placeOf size start + amount ≤ key.2 * size + offset

/-- However the other threads move, the two jobs can go on to their end, the read
returns the string and no write of theirs changes a byte elsewhere. -/
structure ReadsBack (begin : System) (start : VirtAddr) (s : List BYTE)
    (fileName : Option String) : Prop where
  finishes : ∀ rest w, Executes (Moves start.pid) Accesses
      (writeThenRead begin.cont.mmu.mem.pageSize start s fileName) ⟨[], begin⟩ rest w →
    ∃ result last, Executes (Moves start.pid) Accesses rest w (.done result) last
  returns : ∀ result w, Executes (Moves start.pid) Accesses
      (writeThenRead begin.cont.mmu.mem.pageSize start s fileName) ⟨[], begin⟩ (.done result) w →
    result = (.ecSuccess, some ⟨fileName, s⟩)
  spares : ∀ addr byte next w reply after, Executes (Moves start.pid) Accesses
      (writeThenRead begin.cont.mmu.mem.pageSize start s fileName) ⟨[], begin⟩
      (.call (.write addr byte) next) w → Accesses w (.write addr byte) reply after →
    ∀ key offset, OutsideRange begin.cont.mmu.mem.pageSize start s.length key offset →
      contents (storeOf after.state.cont.mmu) key offset =
        contents (storeOf w.state.cont.mmu) key offset

/-! The rule for a walk of single steps. -/

section Walks
variable {others : World → World → Prop} {performs : World → (call : MmuCall) → call.Reply → World → Prop}
  {ready : World → MmuCall → Prop} {access : Nat → VirtAddr → σ → Job (Errcode × σ)} {pid size : Nat}

theorem walk_ensures (access : Nat → VirtAddr → σ → Job (Errcode × σ)) (positive : 0 < size)
    (sizeInt : size < 2 ^ 31) {start step total : Nat} (stepInt : step < 2 ^ 31)
    (fits : ∀ turn, turn < total → start + turn * step < 2 ^ 31 * size)
    {holds : Nat → σ → World → Prop}
    (stable : ∀ turn s w after, others w after → holds turn s w → holds turn s after)
    (visits : ∀ turn s w, turn < total → holds turn s w → Ensures others performs ready
      (fun result after => result.1 = .ecSuccess ∧ holds (turn + 1) result.2 after)
      (access turn (placeAt pid size (start + turn * step)) s) w)
    {left multiplier : Nat} (turns : multiplier + left = total) {s : σ} {w : World}
    (here : holds multiplier s w) :
    Ensures others performs ready
      (fun result after => result.1 = .ecSuccess ∧ holds total result.2 after)
      (walk size step access left multiplier (placeAt pid size (start + multiplier * step))
        .ecSuccess s) w := by
  induction left generalizing multiplier s w with
  | zero =>
      obtain rfl : multiplier = total := turns
      exact ensures_done (stable multiplier s) here fun after kept => ⟨rfl, kept⟩
  | succ left ih =>
      have inside := fits multiplier (by omega)
      have page : (start + multiplier * step) / size < 2 ^ 31 :=
        Nat.div_lt_of_lt_mul (by rw [Nat.mul_comm size]; exact inside)
      have next : start + multiplier * step + step = start + (multiplier + 1) * step := by
        rw [Nat.succ_mul]
        omega
      -- The address of the next turn is the one the loop computes, page and offset apart.
      have advanced : advanceVirtAddr (placeAt pid size (start + multiplier * step)) step size =
          .ok (placeAt pid size (start + (multiplier + 1) * step)) := by
        rw [← next]
        exact advance_exact positive sizeInt stepInt page
      unfold walk
      rw [if_pos rfl]
      refine ensures_bind (ensures_mono ?_ (visits multiplier s w (by omega) here))
      rintro ⟨err, s⟩ after ⟨success, kept⟩
      obtain rfl : err = .ecSuccess := success
      have rest := ih (by omega : multiplier + 1 + left = total) kept
      simpa only [advanced, compute_ok, done_bind] using rest

theorem walk_whole_ensures (access : Nat → VirtAddr → σ → Job (Errcode × σ)) (positive : 0 < size)
    (sizeInt : size < 2 ^ 31) {vAddr : VirtAddr} (inPage : vAddr.offset < size) {step total : Nat}
    (stepInt : step < 2 ^ 31)
    (fits : ∀ turn, turn < total → placeOf size vAddr + turn * step < 2 ^ 31 * size)
    {holds : Nat → σ → World → Prop}
    (stable : ∀ turn s w after, others w after → holds turn s w → holds turn s after)
    (visits : ∀ turn s w, turn < total → holds turn s w → Ensures others performs ready
      (fun result after => result.1 = .ecSuccess ∧ holds (turn + 1) result.2 after)
      (access turn (placeAt vAddr.pid size (placeOf size vAddr + turn * step)) s) w)
    {s : σ} {w : World} (here : holds 0 s w) :
    Ensures others performs ready
      (fun result after => result.1 = .ecSuccess ∧ holds total result.2 after)
      (walk size step access total 0 vAddr .ecSuccess s) w := by
  have walks := walk_ensures access positive sizeInt stepInt fits stable visits (Nat.zero_add _) here
  rwa [Nat.zero_mul, Nat.add_zero, place_of_at vAddr inPage] at walks

theorem walk_congr {access' : Nat → VirtAddr → σ → Job (Errcode × σ)} {step : Int}
    {left multiplier : Nat} (same : ∀ turn, turn < multiplier + left → access turn = access' turn)
    (vAddr : VirtAddr) (err : Errcode) (s : σ) :
    walk size step access left multiplier vAddr err s =
      walk size step access' left multiplier vAddr err s := by
  induction left generalizing multiplier vAddr err s with
  | zero => rfl
  | succ left ih =>
      have rest : ∀ vAddr err s, walk size step access left (multiplier + 1) vAddr err s =
          walk size step access' left (multiplier + 1) vAddr err s :=
        ih fun turn bound => same turn (by omega)
      unfold walk
      simp only [same multiplier (by omega), rest]

end Walks

/-! What the jobs of one process know of the world. -/

/-- The run from the beginning of the jobs; their process is not deleted. -/
structure Underway (begin : System) (pid : Nat) (w : World) : Prop where
  run : Run CheckedStep begin w.past w.state
  stays : Step.dealloc pid ∉ w.past

/-- The last bytes written from the position `start` on are the first of `s`. -/
def Stored (pid size start : Nat) (s : List BYTE) (count : Nat) (w : World) : Prop :=
  ∀ i, i < count → lastWritten (sectionsOf w.past) (placeAt pid size (start + i)).key
    (placeAt pid size (start + i)).offset = s[i]?

/-- A call the world is ready for: an address of the process and, if it is a write,
one in the range. -/
def ReadyFor (begin : System) (start : VirtAddr) (amount : Nat) (w : World) (call : MmuCall) : Prop :=
  Underway begin start.pid w ∧ Owns w.state.cont call.addr ∧ call.addr.pid = start.pid ∧
    call.addr.offset < begin.cont.mmu.mem.pageSize ∧
    ∀ addr byte, call = .write addr byte →
      placeOf begin.cont.mmu.mem.pageSize start ≤ placeOf begin.cont.mmu.mem.pageSize addr ∧
        placeOf begin.cont.mmu.mem.pageSize addr <
          placeOf begin.cont.mmu.mem.pageSize start + amount

theorem last_written_write (addr : VirtAddr) (buf : List BYTE) (past : List Step) (key : Key)
    (offset : Nat) : lastWritten (sectionsOf (.memory (.write addr buf) :: past)) key offset =
      if key = addr.key then (changeOf addr buf offset).or (lastWritten (sectionsOf past) key offset)
      else lastWritten (sectionsOf past) key offset := rfl

theorem change_of_byte (addr : VirtAddr) (byte : BYTE) (offset : Nat) :
    changeOf addr [byte] offset = if offset = addr.offset then some byte else none := by
  unfold changeOf
  by_cases same : offset = addr.offset
  · simp [same]
  · rw [if_neg (by simp only [List.length_singleton]; omega), if_neg same]

theorem foreign_keeps_written {w : World} {next : Step} {key : Key}
    (foreign : ForeignStep key.1 next) (guarded : CheckedStep w.state next) :
    lastWritten (sectionsOf (next :: w.past)) key = lastWritten (sectionsOf w.past) key := by
  cases next with
  | memory next =>
      cases next with
      | allocPage addr backing => exact absurd guarded.1 id
      | write addr buf =>
          have distinct : key ≠ addr.key := by
            rintro rfl
            exact foreign rfl
          funext offset
          exact if_neg distinct
      | _ => rfl
  | _ => rfl

section Rely
variable {begin : System} {pid size start count : Nat} {s : List BYTE} {w after : World}

theorem moves_underway (moved : Moves pid w after) (underway : Underway begin pid w) :
    Underway begin pid after := by
  obtain ⟨next, reply, foreign, guarded, ran, code, past⟩ := moved
  refine ⟨?_, ?_⟩
  · rw [past]
    exact underway.run.step next guarded ran code
  · rw [past, List.mem_cons, not_or]
    refine ⟨?_, underway.stays⟩
    rintro rfl
    exact foreign rfl

theorem moves_stored (moved : Moves pid w after) (stored : Stored pid size start s count w) :
    Stored pid size start s count after := by
  obtain ⟨next, reply, foreign, guarded, ran, code, past⟩ := moved
  intro i bound
  have kept : lastWritten (sectionsOf (next :: w.past)) (placeAt pid size (start + i)).key =
      lastWritten (sectionsOf w.past) (placeAt pid size (start + i)).key :=
    foreign_keeps_written foreign guarded
  rw [past, kept]
  exact stored i bound

theorem accesses_underway {call : MmuCall} {reply : call.Reply}
    (accessed : Accesses w call reply after) (underway : Underway begin pid w) :
    Underway begin pid after := by
  cases call with
  | read addr =>
      obtain ⟨guarded, -, ran, past⟩ := accessed
      refine ⟨past ▸ underway.run.step _ guarded ran (le_refl (0 : Int)), ?_⟩
      simpa [past] using underway.stays
  | write addr byte =>
      obtain ⟨guarded, -, ran, past⟩ := accessed
      refine ⟨past ▸ underway.run.step _ guarded ran (le_refl (0 : Int)), ?_⟩
      simpa [past] using underway.stays

theorem read_stored {addr : VirtAddr} {reply : Errcode × BYTE}
    (accessed : Accesses w (.read addr) reply after) (stored : Stored pid size start s count w) :
    Stored pid size start s count after := by
  obtain ⟨-, -, -, past⟩ := accessed
  intro i bound
  rw [past]
  exact stored i bound

theorem write_stored {byte : BYTE} {reply : Errcode}
    (accessed : Accesses w (.write (placeAt pid size (start + count)) byte) reply after)
    (byteOf : s[count]? = some byte) (stored : Stored pid size start s count w) :
    Stored pid size start s (count + 1) after := by
  obtain ⟨-, -, -, past⟩ := accessed
  intro i bound
  rw [past, last_written_write, change_of_byte]
  by_cases last : i = count
  · subst last
    simp [byteOf]
  · have earlier := stored i (by omega)
    by_cases onPage : (placeAt pid size (start + i)).key = (placeAt pid size (start + count)).key
    · have apart : (placeAt pid size (start + i)).offset ≠
          (placeAt pid size (start + count)).offset := by
        intro equal
        have same : (start + i) % size = (start + count) % size := equal
        have pages : (start + i) / size = (start + count) / size := congrArg Prod.snd onPage
        have left := Nat.div_add_mod (start + i) size
        have right := Nat.div_add_mod (start + count) size
        rw [pages, same] at left
        omega
      rw [if_pos onPage, if_neg apart, Option.none_or, earlier]
    · rw [if_neg onPage, earlier]

variable (sound : ContSound begin.cont) (live : ∃ p, Live begin.cont pid p)
include sound live

theorem underway_backed (underway : Underway begin pid w) :
    (∀ key, InRange pid 0 begin.cont.prcBlkSize key → backingOf w.state.cont.mmu key ≠ none) ∧
      Preserves (ownWritten pid begin.cont.prcBlkSize w.past) (storeOf w.state.cont.mmu) := by
  obtain ⟨p, live⟩ := live
  exact own_preserved sound (live_backed sound live) underway.run underway.stays

theorem underway_owns (underway : Underway begin pid w) {addr : VirtAddr} (mine : addr.pid = pid)
    (page : addr.page < begin.cont.prcBlkSize) : Owns w.state.cont addr := by
  have kept := checked_run sound underway.run
  refine ⟨?_, by rw [kept.prcBlkSize]; exact page⟩
  rw [live_iff_backed kept.sound, mine]
  exact (underway_backed sound live underway).1 (pid, 0) ⟨rfl, by omega, by omega⟩

theorem underway_reads (underway : Underway begin pid w) {addr : VirtAddr} (mine : addr.pid = pid)
    (page : addr.page < begin.cont.prcBlkSize) {reply : Errcode × BYTE}
    (accessed : Accesses w (.read addr) reply after) {value : BYTE}
    (written : lastWritten (sectionsOf w.past) addr.key addr.offset = some value) :
    reply = (.ecSuccess, value) := by
  obtain ⟨err, byte⟩ := reply
  obtain ⟨guarded, success, ran, -⟩ := accessed
  obtain ⟨frame, bytes, after', held, ran', -, cells⟩ :=
    read_cells (checked_run sound underway.run).sound guarded
  rw [ran] at ran'
  cases ran'
  have own : ownWritten pid begin.cont.prcBlkSize w.past addr.key addr.offset = some value := by
    rw [ownWritten, if_pos ⟨mine, Nat.zero_le _, (Nat.zero_add _).symm ▸ page⟩, written]
  have here := (underway_backed sound live underway).2.resident addr.key frame held _ value own
  have first := cells 0 (by omega)
  rw [Nat.add_zero, here] at first
  simp only [List.getElem?_cons_zero, Option.some.injEq] at first
  exact Prod.ext success first

end Rely

structure Written (begin : System) (start : VirtAddr) (size : Nat) (s : List BYTE) (count : Nat)
    (w : World) : Prop where
  underway : Underway begin start.pid w
  stored : Stored start.pid size (placeOf size start) s count w

theorem moves_written {begin : System} {start : VirtAddr} {size count : Nat} {s : List BYTE}
    (w after : World) (moved : Moves start.pid w after) (written : Written begin start size s count w) :
    Written begin start size s count after :=
  ⟨moves_underway moved written.underway, moves_stored moved written.stored⟩

/-! The two jobs, one after the other. -/

section Jobs
variable {begin : System} {start : VirtAddr} {s : List BYTE} {size turn : Nat} {w : World}
  (sound : ContSound begin.cont) (live : ∃ p, Live begin.cont start.pid p)
  (pageSize : begin.cont.mmu.mem.pageSize = size) (positive : 0 < size)
  (inside : placeOf size start + s.length ≤ begin.cont.prcBlkSize * size)
include positive inside

theorem place_in_block (bound : turn < s.length) :
    (placeAt start.pid size (placeOf size start + turn)).page < begin.cont.prcBlkSize :=
  (place_inside positive).mpr (by omega)

include sound live pageSize

theorem ready_for (underway : Underway begin start.pid w) (bound : turn < s.length)
    {call : MmuCall} (here : call.addr = placeAt start.pid size (placeOf size start + turn)) :
    ReadyFor begin start s.length w call := by
  have page : call.addr.page < begin.cont.prcBlkSize := by
    rw [here]
    exact place_in_block positive inside bound
  have mine : call.addr.pid = start.pid := by rw [here]; rfl
  refine ⟨underway, underway_owns sound live underway mine page, mine, ?_, ?_⟩
  · rw [pageSize, here]
    exact Nat.mod_lt _ positive
  · rintro addr byte rfl
    have there : placeOf size addr = placeOf size start + turn := by
      have split := Nat.div_add_mod (placeOf size start + turn) size
      rw [Nat.mul_comm] at split
      rw [show addr = _ from here]
      exact split
    rw [pageSize, there]
    omega

theorem write_byte_ensures (bound : turn < s.length) (written : Written begin start size s turn w) :
    Ensures (Moves start.pid) Accesses (ReadyFor begin start s.length)
      (fun result after => result.1 = .ecSuccess ∧ Written begin start size s (turn + 1) after)
      (writeByte s turn (placeAt start.pid size (placeOf size start + turn)) ()) w := by
  have byteOf := List.getElem?_eq_getElem bound
  simp only [writeByte, load_of_get byteOf, compute_ok, done_bind]
  apply ensures_call moves_written written
  intro w written
  refine ⟨ready_for sound live pageSize positive inside written.underway bound rfl, ?_⟩
  rintro reply after accessed
  obtain rfl : reply = .ecSuccess := accessed.2.1
  exact ensures_done moves_written ⟨accesses_underway accessed written.underway,
    write_stored accessed byteOf written.stored⟩ fun last kept => ⟨rfl, kept⟩

theorem read_byte_ensures (bound : turn < s.length)
    (written : Written begin start size s s.length w) :
    Ensures (Moves start.pid) Accesses (ReadyFor begin start s.length)
      (fun result after => result.1 = .ecSuccess ∧
        result.2 = s.take (turn + 1) ∧ Written begin start size s s.length after)
      (readByte turn (placeAt start.pid size (placeOf size start + turn)) (s.take turn)) w := by
  have byteOf := List.getElem?_eq_getElem bound
  apply ensures_call moves_written written
  intro w written
  refine ⟨ready_for sound live pageSize positive inside written.underway bound rfl, ?_⟩
  intro reply after accessed
  have mine : (placeAt start.pid size (placeOf size start + turn)).pid = start.pid := rfl
  have value := underway_reads sound live written.underway mine
    (place_in_block positive inside bound) accessed ((written.stored turn bound).trans byteOf)
  subst value
  refine ensures_done moves_written ⟨accesses_underway accessed written.underway,
    read_stored accessed written.stored⟩ fun last kept => ⟨rfl, ?_, kept⟩
  exact List.take_append_getElem bound

variable (sizeInt : size < 2 ^ 31) (blockInt : begin.cont.prcBlkSize ≤ 2 ^ 31)
  (inPage : start.offset < size) (some : 0 < s.length)
include sizeInt blockInt inPage some

theorem write_then_read_ensures (short : s.length ≤ size) (buffer : s.length + 1 < 2 ^ 31)
    (fileName : Option String) (underway : Underway begin start.pid w) :
    Ensures (Moves start.pid) Accesses (ReadyFor begin start s.length)
      (fun result _ => result = (.ecSuccess, .some ⟨fileName, s⟩))
      (writeThenRead size start s fileName) w := by
  have fits : ∀ turn, turn < s.length → placeOf size start + turn * 1 < 2 ^ 31 * size := by
    intro turn bound
    have whole := inside.trans (Nat.mul_le_mul_right size blockInt)
    omega
  have bufferSize : readBufferSize 1 s.length = .ok ((s.length : Int) * 1 + 1) :=
    read_buffer_exact (by omega : s.length * 1 + 1 < 2 ^ 31)
  have turns : min s.length size = s.length := Nat.min_eq_left short
  have written : Ensures (Moves start.pid) Accesses (ReadyFor begin start s.length)
      (fun result after => result.1 = .ecSuccess ∧ Written begin start size s s.length after)
      (walk size 1 (writeByte s) s.length 0 start .ecSuccess ()) w := by
    have stable : ∀ turn (u : Unit) (w after : World), Moves start.pid w after →
        Written begin start size s turn w → Written begin start size s turn after :=
      fun _ _ w after moved known => moves_written w after moved known
    refine walk_whole_ensures (writeByte s) positive sizeInt inPage (by decide : 1 < 2 ^ 31) fits stable
      (fun turn _ w bound known => ?_)
      ⟨underway, fun i bound => absurd bound (by omega)⟩
    rw [Nat.mul_one]
    exact write_byte_ensures sound live pageSize positive inside bound known
  have read : ∀ w, Written begin start size s s.length w →
      Ensures (Moves start.pid) Accesses (ReadyFor begin start s.length)
        (fun result after => result.1 = .ecSuccess ∧
          result.2 = s.take s.length ∧ Written begin start size s s.length after)
        (walk size 1 readByte s.length 0 start .ecSuccess []) w := by
    intro w written
    have stable : ∀ turn (buf : List BYTE) (w after : World), Moves start.pid w after →
        buf = s.take turn ∧ Written begin start size s s.length w →
        buf = s.take turn ∧ Written begin start size s s.length after :=
      fun _ _ w after moved known => ⟨known.1, moves_written w after moved known.2⟩
    refine walk_whole_ensures readByte positive sizeInt inPage (by decide : 1 < 2 ^ 31) fits stable
      (fun turn buf w bound known => ?_) ⟨rfl, written⟩
    obtain ⟨rfl, written⟩ := known
    rw [Nat.mul_one]
    exact read_byte_ensures sound live pageSize positive inside bound written
  refine ensures_bind ?_
  simp only [simWrite, assert_positive _ some, compute_ok, done_bind, Int.toNat_natCast, turns]
  refine ensures_bind (ensures_mono ?_ written)
  rintro ⟨err, -⟩ w ⟨-, written⟩
  refine ensures_done moves_written written fun w written => ?_
  have forward : assert .simRead (0 < (1 : Int)) = .ok () := rfl
  simp only [simRead, bufferSize, forward, assert_positive _ some, compute_ok, done_bind,
    Int.toNat_natCast]
  refine ensures_bind (ensures_mono ?_ (read w written))
  -- The whole text has been taken, so the buffer is the text.
  rintro ⟨err, buf⟩ w ⟨success, taken, written⟩
  obtain rfl : err = .ecSuccess := success
  obtain rfl : buf = s := taken.trans List.take_length
  exact ensures_done moves_written written fun _ _ => rfl

end Jobs

/-! A call the world is ready for can be made, once the PRM has loaded its page. -/

section Progress
variable {begin : System} {start : VirtAddr} {amount : Nat} {w : World}

theorem resident_accesses (sound : ContSound w.state.cont) {call : MmuCall}
    (owns : Owns w.state.cont call.addr)
    (inPage : call.addr.offset + 1 ≤ w.state.cont.mmu.mem.pageSize)
    (resident : frameOf w.state.cont.mmu.memIpt call.addr.key ≠ none) :
    ∃ reply after, Accesses w call reply after := by
  cases call with
  | read addr =>
      have guarded : CheckedStep w.state (.memory (.read addr 1)) := ⟨⟨owns, resident⟩, inPage⟩
      obtain ⟨frame, bytes, after, -, ran, length, -⟩ := read_cells sound guarded
      obtain ⟨byte, rfl⟩ := List.length_eq_one_iff.mp length
      exact ⟨(.ecSuccess, byte), ⟨_, after⟩, guarded, rfl, ran, rfl⟩
  | write addr byte =>
      have inPage : addr.offset + [byte].length ≤ w.state.cont.mmu.mem.pageSize := inPage
      obtain ⟨after, ran, -⟩ := write_exact sound resident inPage
      exact ⟨.ecSuccess, ⟨_, after⟩, ⟨⟨owns, resident⟩, inPage⟩, rfl, ran, rfl⟩

theorem ready_progresses (sound : ContSound begin.cont) {call : MmuCall}
    (ready : ReadyFor begin start amount w call) :
    ∃ middle reply after, Relation.ReflTransGen (Moves start.pid) w middle ∧
      Accesses middle call reply after := by
  obtain ⟨underway, owns, mine, inPage, -⟩ := ready
  have kept := checked_run sound underway.run
  rw [← kept.pageSize] at inPage
  by_cases resident : frameOf w.state.cont.mmu.memIpt call.addr.key = none
  · have allowed : (Step.memory (.service call.addr)).Allowed w.state := ⟨owns, resident⟩
    obtain ⟨machine, served, -, loaded⟩ := service_advances (m := w.state.machine) kept.sound.mmu
      (owns_backed kept.sound owns) resident
    let after := w.state.withMachine machine
    have ran : (Step.memory (.service call.addr)).run w.state = .ok (⟨0, []⟩, after) := by
      simp [Step.run, served, after]
    have advanced := step_advances kept.sound allowed trivial ran (le_refl (0 : Int))
    have moved : Moves start.pid w ⟨.memory (.service call.addr) :: w.past, after⟩ :=
      ⟨.memory (.service call.addr), ⟨0, []⟩, trivial, ⟨allowed, trivial⟩, ran, le_refl (0 : Int), rfl⟩
    obtain ⟨reply, last, accessed⟩ := resident_accesses
      (w := ⟨.memory (.service call.addr) :: w.past, after⟩) advanced.sound owns
      (by rw [advanced.pageSize]; exact inPage) loaded
    exact ⟨_, reply, last, .single moved, accessed⟩
  · obtain ⟨reply, after, accessed⟩ := resident_accesses kept.sound owns inPage resident
    exact ⟨w, reply, after, .refl, accessed⟩

end Progress

/-! What a write of the jobs leaves alone. -/

section Writes
variable {begin : System} {start : VirtAddr} {amount : Nat} {w after : World}

theorem write_spares (sound : ContSound begin.cont) {addr : VirtAddr} {byte : BYTE} {reply : Errcode}
    (ready : ReadyFor begin start amount w (.write addr byte))
    (accessed : Accesses w (.write addr byte) reply after) {key : Key} {offset : Nat}
    (outside : OutsideRange begin.cont.mmu.mem.pageSize start amount key offset) :
    contents (storeOf after.state.cont.mmu) key offset =
      contents (storeOf w.state.cont.mmu) key offset := by
  obtain ⟨underway, owns, mine, inPage, range⟩ := ready
  obtain ⟨low, high⟩ := range addr byte rfl
  obtain ⟨guarded, -, ran, -⟩ := accessed
  have sound := (checked_run sound underway.run).sound
  obtain ⟨actions, performs, path⟩ :=
    (step_advances sound guarded.1 guarded.2 ran (le_refl (0 : Int))).performs
  cases performs with
  | quiet still => exact absurd still id
  | write =>
      obtain ⟨enabled, view⟩ := path_one path
      -- The one byte written lies in the range, the cell looked at outside it.
      have untouched : addr.key = key → changeOf addr [byte] offset = none := by
        rintro rfl
        rw [change_of_byte, if_neg]
        rintro rfl
        rcases outside mine inPage with below | above
        · exact absurd low (Nat.not_le.mpr below)
        · exact absurd high (Nat.not_lt.mpr above)
      rw [view]
      by_cases backed : backingOf w.state.cont.mmu key = none
      · -- a page nobody has is in neither store, before the write and after it
        have absent : frameOf w.state.cont.mmu.memIpt key = none := by
          cases held : frameOf w.state.cont.mmu.memIpt key with
          | none => rfl
          | some frame =>
              obtain ⟨slot, stored⟩ := sound.mmu.layout.backed key frame held
              rw [show backingOf w.state.cont.mmu key = some slot from stored] at backed
              cases backed
        have absent' : (storeOf w.state.cont.mmu).pool.frame key = none := absent
        have unbacked : (storeOf w.state.cont.mmu).backing key = none := backed
        simp [contents, Action.apply, FramePool.touch, absent', unbacked]
      · exact (action_contents sound.mmu.layout enabled backed untouched (by simp)).2

end Writes

/-! Running a job alone, as long as its pages are resident. -/

def runJob : Job α → World → Option (α × World)
  | .done result, w => some (result, w)
  | .stop _, _ => none
  | .call (.read addr) next, w =>
      if CheckedStep w.state (.memory (.read addr 1)) then
        match (Step.memory (.read addr 1)).run w.state with
        | .ok (⟨0, [byte]⟩, after) =>
            runJob (next (.ecSuccess, byte)) ⟨.memory (.read addr 1) :: w.past, after⟩
        | _ => none
      else none
  | .call (.write addr byte) next, w =>
      if CheckedStep w.state (.memory (.write addr [byte])) then
        match (Step.memory (.write addr [byte])).run w.state with
        | .ok (⟨0, []⟩, after) =>
            runJob (next .ecSuccess) ⟨.memory (.write addr [byte]) :: w.past, after⟩
        | _ => none
      else none

theorem run_job_executes {pid : Nat} {job rest : Job α} {begin w last : World} {result : α}
    (executed : Executes (Moves pid) Accesses job begin rest w)
    (finished : runJob rest w = some (result, last)) :
    Executes (Moves pid) Accesses job begin (.done result) last := by
  induction rest generalizing w with
  | done found =>
      simp only [runJob, Option.some.injEq, Prod.mk.injEq] at finished
      obtain ⟨rfl, rfl⟩ := finished
      exact executed
  | stop reason => cases finished
  | call callee next ih =>
      cases callee with
      | read addr =>
          unfold runJob at finished
          split at finished
          · rename_i guarded
            split at finished
            · rename_i byte after ran
              exact ih _ (executed.call ⟨guarded, rfl, ran, rfl⟩) finished
            · cases finished
          · cases finished
      | write addr byte =>
          unfold runJob at finished
          split at finished
          · rename_i guarded
            split at finished
            · rename_i after ran
              exact ih _ (executed.call ⟨guarded, rfl, ran, rfl⟩) finished
            · cases finished
          · cases finished

theorem write_then_read_congr {size : Nat} {s s' : List BYTE} (length : s.length = s'.length)
    (same : ∀ i, i < size → s[i]? = s'[i]?) (vAddr : VirtAddr) (fileName : Option String) :
    writeThenRead size vAddr s fileName = writeThenRead size vAddr s' fileName := by
  have bytes : ∀ turn, turn < 0 + min s'.length size → writeByte s turn = writeByte s' turn := by
    intro turn bound
    funext addr u
    simp only [writeByte, load, same turn (by omega)]
  simp only [writeThenRead, simWrite, length, Int.toNat_natCast, walk_congr bytes]

section Limits
variable {s : System} {start : VirtAddr} {amount : Nat} {fileName : Option String}
  (reads : ∀ text : List BYTE, text.length = amount → ReadsBack s start text fileName)
include reads

theorem reads_back_short : amount ≤ s.cont.mmu.mem.pageSize := by
  by_contra long
  let size := s.cont.mmu.mem.pageSize
  let zeros : List BYTE := List.replicate amount 0
  have length : (zeros.set size 1).length = amount := by simp [zeros]
  have one := reads zeros List.length_replicate
  have other := reads (zeros.set size 1) length
  have sameJobs : writeThenRead size start zeros fileName =
      writeThenRead size start (zeros.set size 1) fileName := by
    apply write_then_read_congr (by simp)
    exact fun i bound => (List.getElem?_set_ne (Nat.ne_of_gt bound)).symm
  -- One run of these jobs would have to return both texts.
  obtain ⟨result, last, executed⟩ := one.finishes _ _ .start
  have result₁ := one.returns result last executed
  change Executes _ _ (writeThenRead size start zeros fileName) _ _ _ at executed
  rw [sameJobs] at executed
  have result₂ := other.returns result last executed
  rw [result₁] at result₂
  simp only [Prod.mk.injEq, Option.some.injEq, Printed.mk.injEq, true_and] at result₂
  have there := congrArg (fun text => text[size]?) result₂
  have inside : size < amount := Nat.lt_of_not_le long
  simp [zeros, inside] at there

/-- The reading job of a longer text stops where it computes the size of its buffer. -/
theorem reads_back_buffer : amount + 1 < 2 ^ 31 := by
  by_contra large
  have overflow : readBufferSize 1 amount = .error .overflow :=
    read_buffer_overflows (by omega : ¬ amount * 1 + 1 < 2 ^ 31)
  obtain ⟨result, last, executed⟩ :=
    (reads (List.replicate amount 0) List.length_replicate).finishes _ _ .start
  have stops : ∃ first : Job Errcode, writeThenRead s.cont.mmu.mem.pageSize start
      (List.replicate amount 0) fileName = first >>= fun _ => .stop .overflow :=
    ⟨simWrite s.cont.mmu.mem.pageSize start (List.replicate amount 0) amount, by
      simp [writeThenRead, simRead, overflow]⟩
  obtain ⟨first, done⟩ := executes_to_stop stops executed
  exact stop_not_done first result done.symm

end Limits

/-- A string of a live process reads back, and nothing else is written, whatever the
other threads do, exactly when it is not longer than a page and the buffer of the
read has a size. -/
theorem string_reads_back {frames pages block size : Nat} (oneFrame : 0 < frames)
    (onePage : 0 < pages) (positive : 0 < block) (memSmall : frames * size < 2 ^ 31)
    (diskSmall : pages * size < 2 ^ 31) (nprocs freq : Nat) {past : List Step} {s : System}
    (run : Run CheckedStep (initialSystem frames pages size block nprocs freq) past s)
    {start : VirtAddr} (live : ∃ p, Live s.cont start.pid p) (inPage : start.offset < size)
    {amount : Nat} (some : 1 ≤ amount) (inside : placeOf size start + amount ≤ block * size)
    (fileName : Option String) :
    (∀ text : List BYTE, text.length = amount → ReadsBack s start text fileName) ↔
      amount ≤ size ∧ amount + 1 < 2 ^ 31 := by
  have opening := initial_system_sound oneFrame onePage positive memSmall diskSmall nprocs freq
  have kept := checked_run opening run
  have pageSize : s.cont.mmu.mem.pageSize = size := kept.pageSize
  have prcBlkSize : s.cont.prcBlkSize = block := kept.prcBlkSize
  have bytes : 0 < size := by omega
  constructor
  · intro reads
    rw [← pageSize]
    exact ⟨reads_back_short reads, reads_back_buffer reads⟩
  -- Conversely a text of at most a page is written whole, and the size of its buffer fits an int.
  · rintro ⟨short, buffer⟩ text rfl
    have arrays := run_arrays (run_mono run fun _ _ guarded => guarded.1)
    have diskPages : s.cont.mmu.disk.npages = pages := arrays.diskPages
    have blockFits := block_fits kept.sound live
    have scaledSize : size ≤ frames * size := Nat.le_mul_of_pos_left size oneFrame
    have scaledPages : pages ≤ pages * size := Nat.le_mul_of_pos_right pages bytes
    have underway : Underway s start.pid ⟨[], s⟩ := ⟨.nil, by simp⟩
    have ensures := write_then_read_ensures kept.sound live pageSize bytes
      (by rw [prcBlkSize]; exact inside) (by omega) (by omega) inPage some short buffer fileName
      underway
    rw [← pageSize] at ensures
    refine ⟨fun rest w executed => ?_, fun result w executed => ?_,
      fun addr byte next w reply after executed accessed key offset outside => ?_⟩
    · obtain ⟨result, last, finished, -⟩ := ensures_completes
        (fun w call ready => ready_progresses kept.sound ready) (ensures_executes ensures executed)
      exact ⟨result, last, finished⟩
    · exact ensures_executes ensures executed w .refl
    · exact write_spares kept.sound (ensures_executes ensures executed w .refl).1 accessed outside

def twoPageRun : List Step := [.create fun _ => 0, .start 0]

theorem string_reads_back_pages :
    ∃ s, Run CheckedStep (initialSystem 1 2 2 2 1 1) twoPageRun.reverse s ∧
      ReadsBack s ⟨0, 0, 1⟩ [5, 6] none := by
  have replayed : ((replaySteps CheckedStep (initialSystem 1 2 2 2 1 1) twoPageRun).any
      fun s : System => decide (∃ p, Live s.cont 0 p)) = true := by decide
  obtain ⟨s, ran, found⟩ := (Option.any_eq_true _ _).mp replayed
  have run : Run CheckedStep (initialSystem 1 2 2 2 1 1) twoPageRun.reverse s := by
    simpa using replay_steps_run .nil ran
  have live : ∃ p, Live s.cont (⟨0, 0, 1⟩ : VirtAddr).pid p := of_decide_eq_true found
  exact ⟨s, run, (string_reads_back (by decide) (by decide) (by decide) (by decide) (by decide) 1 1
    run live (by decide) (by decide) (by decide) none).mpr (by decide) [5, 6] rfl⟩

/-- Of two bytes on pages of one byte the first is written. -/
theorem long_string_cut :
    ¬ ∀ past s (start : VirtAddr) (text : List BYTE),
      Run CheckedStep (initialSystem 2 2 1 2 1 1) past s → (∃ p, Live s.cont start.pid p) →
      start.offset < 1 → 1 ≤ text.length → placeOf 1 start + text.length ≤ 2 * 1 →
      ReadsBack s start text none := by
  intro correct
  have replayed : ((replaySteps CheckedStep (initialSystem 2 2 1 2 1 1) twoPageRun).any
      fun s : System => decide (∃ p, Live s.cont 0 p) &&
        (runJob (writeThenRead s.cont.mmu.mem.pageSize ⟨0, 0, 0⟩ [5, 6] none) ⟨[], s⟩).any
          fun r => decide (r.1 = (.ecSuccess, some ⟨none, [5, 0]⟩))) = true := by decide +kernel
  obtain ⟨s, ran, found⟩ := (Option.any_eq_true _ _).mp replayed
  rw [Bool.and_eq_true] at found
  have live : ∃ p, Live s.cont (⟨0, 0, 0⟩ : VirtAddr).pid p := of_decide_eq_true found.1
  obtain ⟨⟨result, last⟩, finished, same⟩ := (Option.any_eq_true _ _).mp found.2
  have run : Run CheckedStep (initialSystem 2 2 1 2 1 1) twoPageRun.reverse s := by
    simpa using replay_steps_run .nil ran
  have reads := correct _ s ⟨0, 0, 0⟩ [5, 6] run live (by decide) (by decide) (by decide)
  have returned := reads.returns result last (run_job_executes .start finished)
  have cut : result = (.ecSuccess, some ⟨none, [5, 0]⟩) := of_decide_eq_true same
  rw [cut] at returned
  exact absurd returned (by decide)

end VmSim.ProcessTable
