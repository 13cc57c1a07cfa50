import Mathlib.Order.Bounds.Basic
import VmSim.BlockAllocator

/-!
Histories of a bitmap of util/bitmap.c, and the blocks its searches read. What
a bitmap holds is the set of the indices whose last operation was a set. The
search for a bit looks at one block too many exactly when every block can be
skipped, whatever the byte there is.
-/

namespace VmSim.PackedBitmap
open DiskBlocks BlockAllocator

inductive BitOp where
  | set (idx : Nat)
  | clear (idx : Nat)
  deriving DecidableEq, Repr

def BitOp.idx : BitOp → Nat
  | .set idx => idx
  | .clear idx => idx

def BitOp.run (bitmap : Bitmap) : BitOp → Outcome Bitmap
  | .set idx => bitmapSet bitmap idx
  | .clear idx => bitmapClear bitmap idx

/-- Operations on indices of the bitmap since `bitmap_init`, the latest first. -/
inductive BitmapRun (nbits : Nat) : List BitOp → Bitmap → Prop where
  | init : BitmapRun nbits [] (bitmapInit nbits)
  | step {ops bitmap after} (op : BitOp) : BitmapRun nbits ops bitmap → op.idx < nbits →
      op.run bitmap = .ok after → BitmapRun nbits (op :: ops) after

def lastOp (ops : List BitOp) (i : Nat) : Option BitOp := ops.find? fun op => op.idx == i

def searchResult (found : Option Nat) : Errcode × Int :=
  let idx : Int := (found.map Int.ofNat).getD (-1)
  (if 0 ≤ idx then .ecSuccess else .ecNotFound, idx)

/-- The indices the first loop of `find_first` reads, one for each test of its
condition. -/
def skipReads (past : Nat → Block) (bitmap : Bitmap) (skip : Block) : Nat → Nat → List Nat
  | 0, blockidx => [blockidx]
  | count + 1, blockidx =>
      blockidx :: if blockAt past bitmap blockidx = skip then
        skipReads past bitmap skip count (blockidx + 1)
      else []

def findFirstReads (past : Nat → Block) (bitmap : Bitmap) (skip : Block) : List Nat :=
  let blockidx := skipBlocks past bitmap skip (blockIdx bitmap.size + 1) 0
  skipReads past bitmap skip (blockIdx bitmap.size + 1) 0 ++
    if blockIdx bitmap.size < blockidx then [] else [blockidx]

def firstSetReads (past : Nat → Block) (bitmap : Bitmap) : List Nat :=
  findFirstReads past bitmap 0x00#8

def firstClearReads (past : Nat → Block) (bitmap : Bitmap) : List Nat :=
  findFirstReads past bitmap 0xFF#8

/-- The reads of the search of `disk_alloc_process_block`. -/
def allocBlockReads (past : Nat → Block) (disk : Disk) : List Nat :=
  firstClearReads past disk.allocBitmap

section Histories
variable {nbits : Nat} {ops : List BitOp} {bitmap after : Bitmap}

theorem op_exact (valid : WellFormed bitmap) {op : BitOp} (bound : op.idx < bitmap.size) :
    ∃ after, op.run bitmap = .ok after ∧ WellFormed after ∧ after.size = bitmap.size ∧
      ∀ i, bit after i = if i = op.idx then decide (op = .set i) else bit bitmap i := by
  cases op with
  | set idx =>
      obtain ⟨after, ran, kept, size, bits⟩ := bitmap_set_exact valid bound
      refine ⟨after, ran, kept, size, fun i => (bits i).trans ?_⟩
      by_cases same : i = idx <;> simp [BitOp.idx, same]
  | clear idx =>
      obtain ⟨after, ran, kept, size, bits⟩ := bitmap_clear_exact valid bound
      refine ⟨after, ran, kept, size, fun i => (bits i).trans ?_⟩
      by_cases same : i = idx <;> simp [BitOp.idx, same]

theorem bitmap_run_bits (positive : 0 < nbits) (run : BitmapRun nbits ops bitmap) :
    WellFormed bitmap ∧ bitmap.size = nbits ∧
      ∀ i, bit bitmap i = decide (lastOp ops i = some (.set i)) ∧
        (nbits ≤ i → bit bitmap i = false) := by
  induction run with
  | init =>
      refine ⟨bitmap_init_wellformed nbits positive, rfl, fun i => ⟨?_, fun _ => ?_⟩⟩
      · simp [bitmap_init_bit, lastOp]
      · exact bitmap_init_bit nbits i
  | @step ops bitmap after op _ bound ran ih =>
      obtain ⟨valid, size, bits⟩ := ih
      obtain ⟨after', ran', kept, size', bits'⟩ := op_exact valid (size ▸ bound)
      rw [ran] at ran'
      cases ran'
      refine ⟨kept, size'.trans size, fun i => ⟨?_, fun beyond => ?_⟩⟩
      · rw [bits' i]
        by_cases same : i = op.idx
        · subst same
          simp [lastOp]
        · have other : (op.idx == i) = false := by simpa using Ne.symm same
          have earlier : lastOp (op :: ops) i = lastOp ops i := by simp [lastOp, other]
          rw [if_neg same, (bits i).1, earlier]
      · rw [bits' i, if_neg (by omega)]
        exact (bits i).2 beyond

theorem op_runs (positive : 0 < nbits) (run : BitmapRun nbits ops bitmap) {op : BitOp}
    (bound : op.idx < nbits) : ∃ after, op.run bitmap = .ok after ∧
      BitmapRun nbits (op :: ops) after := by
  obtain ⟨valid, size, -⟩ := bitmap_run_bits positive run
  obtain ⟨after, ran, -⟩ := op_exact valid (size ▸ bound)
  exact ⟨after, ran, run.step op bound ran⟩

theorem run_get (positive : 0 < nbits) (run : BitmapRun nbits ops bitmap) {i : Nat}
    (bound : i < nbits) : bitmapGet bitmap i = .ok (decide (lastOp ops i = some (.set i))) := by
  obtain ⟨valid, size, bits⟩ := bitmap_run_bits positive run
  rw [bitmap_get_exact valid (size ▸ bound), (bits i).1]

theorem search_result_found (found : Option Nat) (idx : Nat) :
    searchResult found = (.ecSuccess, (idx : Int)) ↔ found = some idx := by
  cases found with
  | none => simp [searchResult]
  | some other =>
      change (Errcode.ecSuccess, (other : Int)) = (.ecSuccess, (idx : Int)) ↔ _
      rw [Prod.mk.injEq, Int.ofNat_inj, Option.some.injEq]
      exact and_iff_right rfl

theorem search_result_missing (found : Option Nat) :
    (searchResult found).1 = .ecNotFound ↔ found = none := by
  cases found with
  | none => simp [searchResult]
  | some other => simp [searchResult]

theorem search_least (positive : 0 < nbits) (run : BitmapRun nbits ops bitmap) {value : Bool}
    {found : Option Nat} (first : ∀ idx, found = some idx ↔
      idx < bitmap.size ∧ bit bitmap idx = value ∧ ∀ j < idx, bit bitmap j = !value)
    (missing : found = none ↔ ∀ j < bitmap.size, bit bitmap j = !value) :
    (∀ idx : Nat, searchResult found = (.ecSuccess, (idx : Int)) ↔
      IsLeast { i | i < nbits ∧ bitmapGet bitmap i = .ok value } idx) ∧
    ((searchResult found).1 = .ecNotFound ↔
      ¬ ∃ i < nbits, bitmapGet bitmap i = .ok value) := by
  obtain ⟨valid, size, -⟩ := bitmap_run_bits positive run
  have gets : ∀ i, i < nbits → (bitmapGet bitmap i = .ok value ↔ bit bitmap i = value) := by
    intro i bound
    rw [bitmap_get_exact valid (size ▸ bound)]
    simp
  have other : ∀ i, bit bitmap i = !value ↔ bit bitmap i ≠ value := by
    intro i
    cases bit bitmap i <;> cases value <;> simp
  refine ⟨fun idx => ?_, ?_⟩
  · rw [search_result_found, first, size]
    constructor
    · rintro ⟨bound, hit, before⟩
      refine ⟨⟨bound, (gets idx bound).mpr hit⟩, fun i among => ?_⟩
      -- A smaller index with the value would have been found first.
      by_contra earlier
      have miss := before i (Nat.not_le.mp earlier)
      exact (other i).mp miss ((gets i among.1).mp among.2)
    · rintro ⟨⟨bound, hit⟩, least⟩
      refine ⟨bound, (gets idx bound).mp hit, fun i earlier => (other i).mpr fun same => ?_⟩
      have inside : i < nbits := Nat.lt_trans earlier bound
      exact Nat.not_lt.mpr (least ⟨inside, (gets i inside).mpr same⟩) earlier
  · rw [search_result_missing, missing, size]
    constructor
    · rintro absent ⟨i, bound, hit⟩
      exact (other i).mp (absent i bound) ((gets i bound).mp hit)
    · intro absent i bound
      exact (other i).mpr fun same => absent ⟨i, bound, (gets i bound).mpr same⟩

end Histories

/-- A bitmap is the set of the indices last set: `bitmap_get` decides membership,
an operation changes it at its own index alone and the searches return the least
member and the least other index, whatever lies behind the blocks. -/
theorem bitmap_refines_set {nbits : Nat} (positive : 0 < nbits) {ops : List BitOp} {bitmap : Bitmap}
    (run : BitmapRun nbits ops bitmap) :
    (∀ i < nbits, bitmapGet bitmap i = .ok (decide (lastOp ops i = some (.set i)))) ∧
    (∀ op : BitOp, op.idx < nbits → ∃ after, op.run bitmap = .ok after ∧
      ∀ i < nbits, i ≠ op.idx → bitmapGet after i = bitmapGet bitmap i) ∧
    ∀ past : Nat → Block,
      ((∀ idx : Nat, searchResult (bitmapFirstSet past bitmap) = (.ecSuccess, (idx : Int)) ↔
          IsLeast { i | i < nbits ∧ bitmapGet bitmap i = .ok true } idx) ∧
        ((searchResult (bitmapFirstSet past bitmap)).1 = .ecNotFound ↔
          ¬ ∃ i < nbits, bitmapGet bitmap i = .ok true)) ∧
      (∀ idx : Nat, searchResult (bitmapFirstClear past bitmap) = (.ecSuccess, (idx : Int)) ↔
          IsLeast { i | i < nbits ∧ bitmapGet bitmap i = .ok false } idx) ∧
        ((searchResult (bitmapFirstClear past bitmap)).1 = .ecNotFound ↔
          ¬ ∃ i < nbits, bitmapGet bitmap i = .ok false) := by
  obtain ⟨valid, -, -⟩ := bitmap_run_bits positive run
  refine ⟨fun i => run_get positive run, fun op bound => ?_, fun past => ⟨?_, ?_⟩⟩
  · obtain ⟨after, ran, later⟩ := op_runs positive run bound
    refine ⟨after, ran, fun i inside other => ?_⟩
    -- The latest operation on another bit is not this one.
    have apart : (op.idx == i) = false := by simpa using Ne.symm other
    rw [run_get positive later inside, run_get positive run inside]
    have earlier : lastOp (op :: ops) i = lastOp ops i := by simp [lastOp, apart]
    rw [earlier]
  · exact search_least positive run (bitmap_first_set_some valid past)
      (bitmap_first_set_none valid past)
  · exact search_least positive run (bitmap_first_clear_some valid past)
      (bitmap_first_clear_none valid past)

def ninthBits : Bitmap := ⟨[0x08, 0], 9⟩

theorem ninth_bits_reached : BitmapRun 9 [.set 3, .clear 8, .set 3, .set 8] ninthBits :=
  .step (.set 3) (.step (.clear 8) (.step (.set 3) (.step (.set 8) .init (by decide) rfl)
    (by decide) rfl) (by decide) rfl) (by decide) rfl

theorem bitmap_refines_set_ninth : IsLeast { i | i < 9 ∧ bitmapGet ninthBits i = .ok true } 3 :=
  (((bitmap_refines_set (by decide) ninth_bits_reached).2.2 fun _ => 0xFF).1.1 3).mp (by decide)

/-! What the searches read. -/

section Reads
variable {nbits : Nat} {ops : List BitOp} {bitmap : Bitmap} {skip : Block} (past : Nat → Block)

theorem mem_skip_reads (count start i : Nat) :
    i ∈ skipReads past bitmap skip count start ↔
      start ≤ i ∧ i ≤ skipBlocks past bitmap skip count start := by
  induction count generalizing start with
  | zero =>
      simp only [skipReads, skipBlocks, List.mem_singleton]
      omega
  | succ count ih =>
      have walk := (skip_blocks_exact past bitmap skip count (start + 1)).1
      by_cases hit : blockAt past bitmap start = skip
      · simp only [skipReads, skipBlocks, hit, if_true, List.mem_cons, ih]
        omega
      · simp only [skipReads, skipBlocks, hit, if_false, List.mem_singleton]
        omega

theorem mem_find_first_reads (i : Nat) : i ∈ findFirstReads past bitmap skip ↔
    i ≤ skipBlocks past bitmap skip (blockIdx bitmap.size + 1) 0 := by
  simp only [findFirstReads, List.mem_append, mem_skip_reads, Nat.zero_le, true_and]
  split
  · simp
  · simp only [List.mem_singleton]
    omega

theorem reads_inside_iff (valid : WellFormed bitmap) :
    (∀ i ∈ findFirstReads past bitmap skip, i < bitmap.data.length) ↔
      ∃ i < bitmap.data.length, bitmap.data.getD i 0 ≠ skip := by
  have walk := skip_blocks_exact past bitmap skip (blockIdx bitmap.size + 1) 0
  simp only [mem_find_first_reads]
  generalize skipBlocks past bitmap skip (blockIdx bitmap.size + 1) 0 = stop at walk
  obtain ⟨-, passed, stopped⟩ := walk
  have stored : ∀ i, i < bitmap.data.length → blockAt past bitmap i = bitmap.data.getD i 0 := by
    intro i bound
    simp [blockAt, List.getElem?_eq_getElem bound]
  constructor
  · intro inside
    have bound := inside stop (Nat.le_refl _)
    refine ⟨stop, bound, ?_⟩
    rw [← stored stop bound]
    rcases stopped with same | differs
    -- Stopping only at the end means the block read there is outside the array.
    · have length := valid.stored
      unfold blockIdx at same length
      have positive := valid.positive
      have step : (bitmap.size - 1) / blockSize ≤ bitmap.size / blockSize :=
        Nat.div_le_div_right (Nat.sub_le _ _)
      omega
    · exact differs
  · rintro ⟨i, bound, differs⟩ j read
    rw [← stored i bound] at differs
    have most : stop ≤ i := by
      by_contra beyond
      exact differs (passed i (Nat.zero_le _) (Nat.not_le.mp beyond))
    omega

theorem block_bit (bitmap : Bitmap) (i k : Nat) (small : k < blockSize) :
    getBit (bitmap.data.getD i 0) k = bit bitmap (i * blockSize + k) := by
  have place : blockIdx (i * blockSize + k) = i ∧ bitIdx (i * blockSize + k) = k := by
    unfold blockIdx bitIdx
    unfold blockSize at small ⊢
    omega
  rw [bit, place.1, place.2]

theorem differs_iff_bit {value : Bool} (searches : Searches value skip) (bitmap : Bitmap) (i : Nat) :
    bitmap.data.getD i 0 ≠ skip ↔ ∃ k < blockSize, bit bitmap (i * blockSize + k) = value := by
  constructor
  · intro differs
    obtain ⟨k, small, hit⟩ := searches.kept _ differs
    exact ⟨k, small, by rw [← block_bit bitmap i k small, hit]⟩
  · rintro ⟨k, small, hit⟩ same
    rw [← block_bit bitmap i k small, same] at hit
    exact searches.skipped k small hit

theorem bit_stops (valid : WellFormed bitmap) {value : Bool} (searches : Searches value skip) {i : Nat}
    (inside : i < bitmap.size) (hit : bit bitmap i = value) :
    ∃ j < bitmap.data.length, bitmap.data.getD j 0 ≠ skip := by
  have whole : blockIdx i * blockSize + bitIdx i = i := Nat.div_add_mod' i blockSize
  refine ⟨blockIdx i, stored_block valid inside, ?_⟩
  exact (differs_iff_bit searches bitmap _).mpr ⟨bitIdx i, bit_idx_lt i, by rw [whole, hit]⟩

theorem first_set_inside (positive : 0 < nbits) (run : BitmapRun nbits ops bitmap) :
    (∀ i ∈ firstSetReads past bitmap, i < bitmap.data.length) ↔
      ∃ i < nbits, bitmapGet bitmap i = .ok true := by
  obtain ⟨valid, size, bits⟩ := bitmap_run_bits positive run
  rw [firstSetReads, reads_inside_iff past valid]
  constructor
  · rintro ⟨i, -, differs⟩
    obtain ⟨k, -, hit⟩ := (differs_iff_bit searches_set bitmap i).mp differs
    have inside : i * blockSize + k < nbits := by
      by_contra beyond
      rw [(bits _).2 (Nat.not_lt.mp beyond)] at hit
      cases hit
    exact ⟨_, inside, by rw [bitmap_get_exact valid (size ▸ inside), hit]⟩
  · rintro ⟨i, inside, hit⟩
    rw [bitmap_get_exact valid (size ▸ inside)] at hit
    exact bit_stops valid searches_set (size ▸ inside) (Except.ok.inj hit)

theorem first_clear_inside (positive : 0 < nbits) (run : BitmapRun nbits ops bitmap) :
    (∀ i ∈ firstClearReads past bitmap, i < bitmap.data.length) ↔
      nbits % 8 ≠ 0 ∨ ∃ i < nbits, bitmapGet bitmap i = .ok false := by
  obtain ⟨valid, size, bits⟩ := bitmap_run_bits positive run
  have length : bitmap.data.length = (nbits - 1) / 8 + 1 := by
    rw [valid.stored, size]
    rfl
  rw [firstClearReads, reads_inside_iff past valid]
  constructor
  · rintro ⟨i, bound, differs⟩
    obtain ⟨k, small, hit⟩ := (differs_iff_bit searches_clear bitmap i).mp differs
    by_cases inside : i * blockSize + k < nbits
    · exact .inr ⟨_, inside, by rw [bitmap_get_exact valid (size ▸ inside), hit]⟩
    · -- an unused bit, so the last block is not full
      left
      unfold blockSize at small inside
      omega
  · intro either
    by_cases part : nbits % 8 = 0
    · obtain ⟨i, inside, hit⟩ := either.resolve_left (not_not.mpr part)
      rw [bitmap_get_exact valid (size ▸ inside)] at hit
      exact bit_stops valid searches_clear (size ▸ inside) (Except.ok.inj hit)
    -- The first unused bit of the last block is clear and stops the search there.
    · refine ⟨nbits / 8, by omega, (differs_iff_bit searches_clear bitmap _).mpr ?_⟩
      exact ⟨nbits % 8, Nat.mod_lt _ (by decide), (bits _).2 (Nat.div_add_mod' nbits 8).ge⟩

theorem clear_bit_inside (valid : WellFormed bitmap) {i : Nat} (inside : i < bitmap.size)
    (clear : bit bitmap i = false) : ∀ read ∈ firstClearReads past bitmap, read < bitmap.data.length :=
  (reads_inside_iff past valid).mpr (bit_stops valid searches_clear inside clear)

end Reads

/-! The bitmap of a disk has a history of its own. -/

section Disks
variable {nbits : Nat}

def HasRun (nbits : Nat) (bitmap : Bitmap) : Prop := ∃ ops, BitmapRun nbits ops bitmap

theorem op_has_run (positive : 0 < nbits) {bitmap after : Bitmap} (run : HasRun nbits bitmap)
    {op : BitOp} (ran : op.run bitmap = .ok after) : HasRun nbits after := by
  obtain ⟨ops, run⟩ := run
  have inside : op.idx < bitmap.size := by
    cases op with
    | set idx =>
        obtain ⟨u, passed, -⟩ := bind_eq_ok.mp ran
        exact of_decide_eq_true (assert_ok passed)
    | clear idx =>
        obtain ⟨u, passed, -⟩ := bind_eq_ok.mp ran
        exact of_decide_eq_true (assert_ok passed)
  rw [(bitmap_run_bits positive run).2.1] at inside
  exact ⟨op :: ops, run.step op inside ran⟩

theorem for_pages_has_run {body : Disk → Nat → Outcome Disk}
    (keeps : ∀ disk page after, HasRun nbits disk.allocBitmap → body disk page = .ok after →
      HasRun nbits after.allocBitmap) {disk after : Disk} {page count : Nat}
    (run : HasRun nbits disk.allocBitmap) (ran : forPages body disk page count = .ok after) :
    HasRun nbits after.allocBitmap := by
  induction count generalizing disk page with
  | zero =>
      cases ran
      exact run
  | succ count ih =>
      obtain ⟨middle, first, rest⟩ := bind_eq_ok.mp ran
      exact ih (keeps disk page middle run first) rest

theorem alloc_page_has_run (positive : 0 < nbits) (disk : Disk) (page : Nat) (after : Disk)
    (run : HasRun nbits disk.allocBitmap) (ran : allocPage disk page = .ok after) :
    HasRun nbits after.allocBitmap := by
  simp only [allocPage, bind_eq_ok, pure_eq_ok] at ran
  obtain ⟨_, -, _, -, bitmap, set, same⟩ := ran
  cases same
  have ran : BitOp.run disk.allocBitmap (.set page) = .ok bitmap := set
  exact op_has_run positive run ran

theorem free_page_has_run (positive : 0 < nbits) (disk : Disk) (page : Nat) (after : Disk)
    (run : HasRun nbits disk.allocBitmap) (ran : freePage disk page = .ok after) :
    HasRun nbits after.allocBitmap := by
  simp only [freePage, bind_eq_ok, pure_eq_ok] at ran
  obtain ⟨_, -, _, -, bitmap, cleared, same⟩ := ran
  cases same
  have ran : BitOp.run disk.allocBitmap (.clear page) = .ok bitmap := cleared
  exact op_has_run positive run ran

theorem alloc_block_has_run (positive : 0 < nbits) {past : Nat → Block} {disk after : Disk}
    {page : Option Nat} (run : HasRun nbits disk.allocBitmap)
    (ran : diskAllocProcessBlock past disk = .ok (page, after)) : HasRun nbits after.allocBitmap := by
  unfold diskAllocProcessBlock at ran
  cases found : bitmapFirstClear past disk.allocBitmap with
  | none =>
      rw [found] at ran
      cases ran
      exact run
  | some first =>
      simp only [found, bind_eq_ok] at ran
      obtain ⟨enough, -, rest⟩ := ran
      cases enough with
      | false =>
          cases rest
          exact run
      | true =>
          obtain ⟨middle, looped, same⟩ := bind_eq_ok.mp rest
          cases same
          exact for_pages_has_run (alloc_page_has_run positive) run looped

theorem alloc_run_has_run {npages blocksize : PosInt} {pagesize : Nat} {live : List Nat} {disk : Disk}
    (run : AllocRun npages blocksize pagesize live disk) : HasRun npages disk.allocBitmap := by
  have positive : 0 < (npages : Nat) := npages.2.1
  induction run with
  | init => exact ⟨[], .init⟩
  | alloc past _ ran ih => exact alloc_block_has_run positive ih ran
  | fail past _ ran ih => exact alloc_block_has_run positive ih ran
  | free _ _ ran ih => exact for_pages_has_run (free_page_has_run positive) ih ran

end Disks

/-- The search for a set bit stays inside the blocks exactly when there is one, and the
search for a clear bit exactly when there is one or the last block is not full; so
the allocator looks behind the bitmap of a full disk of whole blocks. -/
theorem searches_inside {nbits : Nat} (positive : 0 < nbits) {ops : List BitOp} {bitmap : Bitmap}
    (run : BitmapRun nbits ops bitmap) (past : Nat → Block) :
    ((∀ i ∈ firstSetReads past bitmap, i < (bitmapInit nbits).data.length) ↔
      ∃ i < nbits, bitmapGet bitmap i = .ok true) ∧
    ((∀ i ∈ firstClearReads past bitmap, i < (bitmapInit nbits).data.length) ↔
      nbits % 8 ≠ 0 ∨ ∃ i < nbits, bitmapGet bitmap i = .ok false) ∧
    ∀ (npages blocksize : PosInt) (pagesize : Nat) (live : List Nat) (disk : Disk),
      AllocRun npages blocksize pagesize live disk →
      ((∀ i ∈ allocBlockReads past disk,
          i < (diskInit npages pagesize blocksize).allocBitmap.data.length) ↔
        (npages : Nat) % 8 ≠ 0 ∨ ∃ page < (npages : Nat), isPageAllocated disk page = .ok false) := by
  have length : ∀ {nbits : Nat} {ops : List BitOp} {bitmap : Bitmap}, 0 < nbits →
      BitmapRun nbits ops bitmap → (bitmapInit nbits).data.length = bitmap.data.length := by
    intro nbits ops bitmap positive run
    obtain ⟨valid, size, -⟩ := bitmap_run_bits positive run
    rw [valid.stored, size]
    simp [bitmapInit]
  refine ⟨?_, ?_, fun npages blocksize pagesize live disk allocs => ?_⟩
  · rw [length positive run]
    exact first_set_inside past positive run
  · rw [length positive run]
    exact first_clear_inside past positive run
  · obtain ⟨ops, run⟩ := alloc_run_has_run allocs
    have positive : 0 < (npages : Nat) := npages.2.1
    have same : (diskInit npages pagesize blocksize).allocBitmap = bitmapInit npages := rfl
    rw [same, length positive run]
    exact first_clear_inside past positive run

theorem searches_inside_ninth :
    (firstSetReads (fun _ => 0) ninthBits).all (· < (bitmapInit 9).data.length) = true := by
  have inside := (searches_inside (by decide) ninth_bits_reached fun _ => 0).1.mpr
    ⟨3, by decide, by decide⟩
  exact List.all_eq_true.mpr fun i read => decide_eq_true (inside i read)

/-- A bitmap of one block without a set bit is read in its second block. -/
theorem search_reads_behind :
    ¬ ∀ (nbits : Nat) (ops : List BitOp) (bitmap : Bitmap) (past : Nat → Block), 1 ≤ nbits →
      BitmapRun nbits ops bitmap → (∀ i ∈ firstSetReads past bitmap,
        i < (bitmapInit nbits).data.length) ∧
      ∀ i ∈ firstClearReads past bitmap, i < (bitmapInit nbits).data.length := by
  intro inside
  have behind := (inside 8 [] (bitmapInit 8) (fun _ => 0) (by decide) .init).1 1 (by decide)
  exact absurd behind (by decide)

end VmSim.PackedBitmap
