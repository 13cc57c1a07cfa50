import Mathlib.Data.Nat.Find
import VmSim.DiskBlocks

/-!
Runs of the process block allocator of vmsim/disk.c. `AllocRun` collects the
blocks returned and not yet freed; the invariant ties the allocation bitmap
to them and keeps every block on a multiple of the block size, which is what
makes looking at the first clear page alone enough.
-/

namespace VmSim.BlockAllocator
open PackedBitmap AlignedBlocks DiskBlocks

/-- The values of a positive C `int`. -/
abbrev PosInt := { n : Nat // 0 < n ∧ n < 2 ^ 31 }

/-- Histories of allocations and of frees of live blocks, with the live blocks. -/
inductive AllocRun (npages blocksize : PosInt) (pagesize : Nat) : List Nat → Disk → Prop where
  | init : AllocRun npages blocksize pagesize [] (diskInit npages pagesize blocksize)
  | alloc {live disk after page} (past : Nat → Block) :
      AllocRun npages blocksize pagesize live disk →
      diskAllocProcessBlock past disk = .ok (some page, after) →
      AllocRun npages blocksize pagesize (page :: live) after
  | fail {live disk after} (past : Nat → Block) :
      AllocRun npages blocksize pagesize live disk →
      diskAllocProcessBlock past disk = .ok (none, after) →
      AllocRun npages blocksize pagesize live after
  | free {live disk after page} :
      AllocRun npages blocksize pagesize live disk → page ∈ live →
      diskFreeProcessBlock disk page = .ok after →
      AllocRun npages blocksize pagesize (live.erase page) after

structure Owned (live : List Nat) (disk : Disk) : Prop where
  wellformed : WellFormed disk
  positive : 0 < disk.processBlockSize
  packed : Packed disk.processBlockSize disk.npages live
  exact : ∀ i < disk.npages, allocated disk i = true ↔ Covered disk.processBlockSize live i

theorem marked_owned {live next : List Nat} {disk after : Disk} {low high : Nat} {value : Bool}
    (owned : Owned live disk) (marked : Marked disk after low high value)
    (packed : Packed disk.processBlockSize disk.npages next)
    (change : ∀ i < disk.npages, Covered disk.processBlockSize next i ↔
      if low ≤ i ∧ i < high then value = true else Covered disk.processBlockSize live i) :
    Owned next after := by
  refine ⟨marked.wellformed, marked.blockSize ▸ owned.positive, ?_, ?_⟩
  · rw [marked.blockSize, marked.npages]
    exact packed
  · intro i bound
    rw [marked.npages] at bound
    rw [marked.blockSize, marked.bits, change i bound]
    split
    · rfl
    · exact owned.exact i bound

theorem first_clear_gap {live : List Nat} {disk : Disk} (owned : Owned live disk)
    (past : Nat → Block) {page : Nat}
    (found : bitmapFirstClear past disk.allocBitmap = some page) :
    page < disk.npages ∧ disk.processBlockSize ∣ page ∧
      ¬ Covered disk.processBlockSize live page ∧
      ∀ j < page, Covered disk.processBlockSize live j := by
  obtain ⟨bound, clear, before⟩ :=
    (bitmap_first_clear_some owned.wellformed.bitmap past page).mp found
  rw [owned.wellformed.sized] at bound
  have vacant : ¬ Covered disk.processBlockSize live page := by
    intro covered
    have set := (owned.exact page bound).mpr covered
    exact absurd (set.symm.trans clear) (by decide)
  have covered : ∀ j < page, Covered disk.processBlockSize live j :=
    fun j earlier => (owned.exact j (by omega)).mp (before j earlier)
  exact ⟨bound, first_gap_aligned owned.packed covered vacant, vacant, covered⟩

theorem gap_clear {live : List Nat} {disk : Disk} (owned : Owned live disk) {gap : Nat}
    (aligned : disk.processBlockSize ∣ gap) (fits : gap + disk.processBlockSize ≤ disk.npages)
    (vacant : ¬ Covered disk.processBlockSize live gap) :
    ∀ i < disk.processBlockSize, allocated disk (gap + i) = false := by
  intro i bound
  have absent := aligned_gap_open owned.packed aligned vacant bound
  rw [← owned.exact (gap + i) (by omega)] at absent
  simpa using absent

/-- What one allocation call does: it takes the first gap, or reports that the
disk is full, or stops in the `int` sum of `hasEnoughConsecutivePages`. -/
theorem alloc_cases {live : List Nat} {disk : Disk} (owned : Owned live disk)
    (past : Nat → Block) :
    (∃ page after, diskAllocProcessBlock past disk = .ok (some page, after) ∧
      Marked disk after page (page + disk.processBlockSize) true ∧
      disk.processBlockSize ∣ page ∧ page + disk.processBlockSize ≤ disk.npages ∧
      page + disk.processBlockSize < 2 ^ 31 ∧ ¬ Covered disk.processBlockSize live page) ∨
    (diskAllocProcessBlock past disk = .ok (none, disk) ∧
      ∀ gap, disk.processBlockSize ∣ gap → gap + disk.processBlockSize ≤ disk.npages →
        Covered disk.processBlockSize live gap) ∨
    (diskAllocProcessBlock past disk = .error .overflow ∧
      ∃ page, page < disk.npages ∧ 2 ^ 31 ≤ page + disk.processBlockSize ∧
        disk.processBlockSize ∣ page ∧ ∀ j < page, Covered disk.processBlockSize live j) := by
  cases found : bitmapFirstClear past disk.allocBitmap with
  | none =>
      right; left
      refine ⟨by simp [diskAllocProcessBlock, found], ?_⟩
      intro gap _ fits
      have full := (bitmap_first_clear_none owned.wellformed.bitmap past).mp found
      have bound : gap < disk.npages := by have := owned.positive; omega
      exact (owned.exact gap bound).mp (full gap (owned.wellformed.sized ▸ bound))
  | some page =>
      obtain ⟨bound, aligned, vacant, before⟩ := first_clear_gap owned past found
      -- The end of the candidate block is computed first and may wrap.
      by_cases wraps : 2 ^ 31 ≤ page + disk.processBlockSize
      · right; right
        have refused : hasEnoughConsecutivePages disk page disk.processBlockSize =
            .error .overflow := if_pos wraps
        exact ⟨by simp [diskAllocProcessBlock, found, refused], page, bound, wraps, aligned, before⟩
      · by_cases fits : page + disk.processBlockSize ≤ disk.npages
        · left
          obtain ⟨enough, scanned, iff⟩ := pages_clear_exact owned.wellformed fits
          have clear := gap_clear owned aligned fits vacant
          have accepted : enough = true := iff.mpr clear
          obtain ⟨after, looped, marked⟩ := for_pages_exact allocPage true
            (fun _ _ valid inside free => alloc_page_exact valid inside free)
            owned.wellformed fits (by
              intro i low high
              have free := clear (i - page) (by omega)
              rwa [show page + (i - page) = i by omega] at free)
          have passed : hasEnoughConsecutivePages disk page disk.processBlockSize = .ok true := by
            rw [hasEnoughConsecutivePages, if_neg wraps, if_neg (Nat.not_lt.mpr fits), scanned,
              accepted]
          refine ⟨page, after, ?_, marked, aligned, fits, by omega, vacant⟩
          simp [diskAllocProcessBlock, found, passed, looped]
        · right; left
          have refused : hasEnoughConsecutivePages disk page disk.processBlockSize = .ok false := by
            rw [hasEnoughConsecutivePages, if_neg wraps, if_pos (Nat.lt_of_not_le fits)]
          refine ⟨by simp [diskAllocProcessBlock, found, refused], ?_⟩
          intro gap _ inside
          exact before gap (by omega)

theorem alloc_first {past : Nat → Block} {disk after : Disk} {page : Nat}
    (taken : diskAllocProcessBlock past disk = .ok (some page, after)) :
    bitmapFirstClear past disk.allocBitmap = some page := by
  unfold diskAllocProcessBlock at taken
  split at taken
  · cases taken
  · rename_i first found
    obtain ⟨enough, -, rest⟩ := bind_eq_ok.mp taken
    cases enough with
    | false => cases rest
    | true =>
        obtain ⟨marked, -, same⟩ := bind_eq_ok.mp rest
        cases same
        exact found

theorem alloc_owned {live : List Nat} {disk after : Disk} (owned : Owned live disk)
    {page : Nat} (marked : Marked disk after page (page + disk.processBlockSize) true)
    (aligned : disk.processBlockSize ∣ page) (fits : page + disk.processBlockSize ≤ disk.npages)
    (vacant : ¬ Covered disk.processBlockSize live page) : Owned (page :: live) after := by
  apply marked_owned owned marked (packed_cons owned.packed owned.positive aligned fits vacant)
  intro i _
  rw [covered_cons]
  split <;> simp [*]

theorem free_exact {live : List Nat} {disk : Disk} (owned : Owned live disk) {page : Nat}
    (member : page ∈ live) :
    ∃ after, diskFreeProcessBlock disk page = .ok after ∧
      Marked disk after page (page + disk.processBlockSize) false := by
  have fits := owned.packed.inside page member
  apply for_pages_exact freePage false
    (fun _ _ valid inside set => free_page_exact valid inside (by simpa using set))
    owned.wellformed fits
  intro i low high
  simpa using (owned.exact i (by omega)).mpr ⟨page, member, low, high⟩

theorem free_owned {live : List Nat} {disk after : Disk} (owned : Owned live disk) {page : Nat}
    (member : page ∈ live)
    (marked : Marked disk after page (page + disk.processBlockSize) false) :
    Owned (live.erase page) after := by
  apply marked_owned owned marked (packed_erase owned.packed page)
  intro i _
  rw [covered_erase owned.packed member]
  split
  · rename_i here
    simp [here]
  · rename_i there
    simp [there]

theorem owned_perm {live other : List Nat} {disk : Disk} (owned : Owned live disk)
    (same : live.Perm other) : Owned other disk where
  wellformed := owned.wellformed
  positive := owned.positive
  packed := ⟨same.nodup_iff.mp owned.packed.unique,
    fun start member => owned.packed.aligned start (same.mem_iff.mpr member),
    fun start member => owned.packed.inside start (same.mem_iff.mpr member)⟩
  exact := by
    intro i bound
    rw [owned.exact i bound]
    simp only [Covered, same.mem_iff]

theorem owned_bitmap {live : List Nat} {disk after : Disk} (owned : Owned live disk)
    (bitmap : after.allocBitmap = disk.allocBitmap) (npages : after.npages = disk.npages)
    (blockSize : after.processBlockSize = disk.processBlockSize) : Owned live after where
  wellformed := ⟨bitmap ▸ owned.wellformed.bitmap, by rw [bitmap, npages, owned.wellformed.sized]⟩
  positive := blockSize ▸ owned.positive
  packed := by
    rw [blockSize, npages]
    exact owned.packed
  exact := by
    intro i bound
    rw [npages] at bound
    rw [allocated, bitmap, blockSize]
    exact owned.exact i bound

theorem init_owned (npages blocksize : PosInt) (pagesize : Nat) :
    Owned [] (diskInit npages pagesize blocksize) := by
  refine ⟨disk_init_wellformed _ _ _ npages.2.1, blocksize.2.1, packed_nil, ?_⟩
  intro i _
  simp [allocated, diskInit, bitmap_init_bit, Covered]

theorem run_owned {npages blocksize : PosInt} {pagesize : Nat} {live : List Nat} {disk : Disk}
    (run : AllocRun npages blocksize pagesize live disk) :
    Owned live disk ∧ disk.npages = npages ∧ disk.processBlockSize = blocksize := by
  induction run with
  | init => exact ⟨init_owned npages blocksize pagesize, rfl, rfl⟩
  | alloc past _ called ih =>
      obtain ⟨owned, size, block⟩ := ih
      rcases alloc_cases owned past with ⟨page, after, taken, marked, aligned, fits, -, vacant⟩ |
        ⟨full, -⟩ | ⟨wrapped, -⟩
      · rw [taken] at called
        cases called
        exact ⟨alloc_owned owned marked aligned fits vacant,
          marked.npages.trans size, marked.blockSize.trans block⟩
      · rw [full] at called
        cases called
      · rw [wrapped] at called
        cases called
  | fail past _ called ih =>
      obtain ⟨owned, size, block⟩ := ih
      rcases alloc_cases owned past with ⟨page, after, taken, -⟩ | ⟨full, -⟩ | ⟨wrapped, -⟩
      · rw [taken] at called
        cases called
      · rw [full] at called
        cases called
        exact ⟨owned, size, block⟩
      · rw [wrapped] at called
        cases called
  | free _ member called ih =>
      obtain ⟨owned, size, block⟩ := ih
      obtain ⟨after, freed, marked⟩ := free_exact owned member
      rw [freed] at called
      cases called
      exact ⟨free_owned owned member marked, marked.npages.trans size,
        marked.blockSize.trans block⟩

theorem room_iff_clear_run {live : List Nat} {disk : Disk} (owned : Owned live disk) :
    live.length < disk.npages / disk.processBlockSize ↔
      ∃ start, start + disk.processBlockSize ≤ disk.npages ∧
        ∀ i < disk.processBlockSize, allocated disk (start + i) = false := by
  have positive := owned.positive
  constructor
  · intro room
    obtain ⟨gap, aligned, fits, vacant⟩ := (room_iff owned.packed positive).mp room
    exact ⟨gap, fits, gap_clear owned aligned fits vacant⟩
  · rintro ⟨start, fits, clear⟩
    -- The first vacant page lies at or before the run, so its block fits as well.
    have vacantStart : ¬ Covered disk.processBlockSize live start := by
      rw [← owned.exact start (by omega)]
      simpa using clear 0 positive
    obtain ⟨first, vacant, least⟩ : ∃ first, ¬ Covered disk.processBlockSize live first ∧
        ∀ j < first, Covered disk.processBlockSize live j := by
      classical
      have some_gap : ∃ page, ¬ Covered disk.processBlockSize live page := ⟨start, vacantStart⟩
      exact ⟨Nat.find some_gap, Nat.find_spec some_gap,
        fun j earlier => not_not.mp (Nat.find_min some_gap earlier)⟩
    have before : first ≤ start := by
      by_contra later
      exact vacantStart (least start (by omega))
    exact (room_iff owned.packed positive).mpr
      ⟨first, first_gap_aligned owned.packed least vacant, by omega, vacant⟩

theorem alloc_succeeds_iff {live : List Nat} {disk : Disk} (owned : Owned live disk)
    (size_int : disk.npages < 2 ^ 31) (past : Nat → Block) :
    (∃ page after, diskAllocProcessBlock past disk = .ok (some page, after)) ↔
      live.length < disk.npages / disk.processBlockSize := by
  rw [room_iff owned.packed owned.positive]
  rcases alloc_cases owned past with ⟨page, after, taken, -, aligned, fits, -, vacant⟩ |
    ⟨full, covered⟩ | ⟨wrapped, page, -, beyond, -, before⟩
  · exact iff_of_true ⟨page, after, taken⟩ ⟨page, aligned, fits, vacant⟩
  · apply iff_of_false
    · rintro ⟨page, after, taken⟩
      rw [full] at taken
      cases taken
    · rintro ⟨gap, aligned, fits, vacant⟩
      exact vacant (covered gap aligned fits)
  · apply iff_of_false
    · rintro ⟨page, after, taken⟩
      rw [wrapped] at taken
      cases taken
    · rintro ⟨gap, -, fits, vacant⟩
      exact vacant (before gap (by omega))

/-- The one way a call does not return: the sum `page_idx_start + npages` of
the leftover tail leaves the range of `int`. -/
theorem alloc_fault {live : List Nat} {disk : Disk} (owned : Owned live disk)
    (size_int : disk.npages < 2 ^ 31) (past : Nat → Block) {fault : Fault}
    (stopped : diskAllocProcessBlock past disk = .error fault) :
    fault = .overflow ∧ ¬ disk.processBlockSize ∣ disk.npages ∧
      2 ^ 31 ≤ (disk.npages / disk.processBlockSize + 1) * disk.processBlockSize := by
  rcases alloc_cases owned past with ⟨page, after, taken, -⟩ | ⟨full, -⟩ |
    ⟨wrapped, page, bound, beyond, aligned, -⟩
  · rw [taken] at stopped
    cases stopped
  · rw [full] at stopped
    cases stopped
  · rw [wrapped] at stopped
    cases stopped
    have positive := owned.positive
    refine ⟨rfl, ?_, ?_⟩
    · intro whole
      have same := aligned_same aligned whole (by omega) (by omega)
      omega
    -- The page found is aligned, inside the disk and its block is not: it is the last, short one.
    · obtain ⟨place, rfl⟩ := aligned
      have quotient : disk.npages / disk.processBlockSize = place := by
        apply Nat.div_eq_of_lt_le
        · rw [Nat.mul_comm]
          omega
        · rw [Nat.succ_mul, Nat.mul_comm]
          omega
      rw [quotient, Nat.succ_mul, Nat.mul_comm]
      exact beyond

theorem alloc_overflows {live : List Nat} {disk : Disk} (owned : Owned live disk)
    (full : ¬ live.length < disk.npages / disk.processBlockSize)
    (tail : ¬ disk.processBlockSize ∣ disk.npages)
    (beyond : 2 ^ 31 ≤ (disk.npages / disk.processBlockSize + 1) * disk.processBlockSize)
    (past : Nat → Block) : diskAllocProcessBlock past disk = .error .overflow := by
  have positive := owned.positive
  have closed := mt (room_iff owned.packed positive).mpr full
  push Not at closed
  have split := Nat.div_add_mod disk.npages disk.processBlockSize
  have rest : 0 < disk.npages % disk.processBlockSize :=
    Nat.pos_of_ne_zero fun zero => tail (Nat.dvd_of_mod_eq_zero zero)
  have small := Nat.mod_lt disk.npages positive
  have aligned : disk.processBlockSize ∣
      disk.processBlockSize * (disk.npages / disk.processBlockSize) := Nat.dvd_mul_right _ _
  rw [Nat.succ_mul, Nat.mul_comm] at beyond
  generalize disk.processBlockSize * (disk.npages / disk.processBlockSize) = last at *
  -- A live block on the short tail would reach past the disk.
  have vacant : ¬ Covered disk.processBlockSize live last := by
    rintro ⟨start, member, low, high⟩
    have inside := owned.packed.inside start member
    have same := aligned_same (owned.packed.aligned start member) aligned (by omega) high
    omega
  cases found : bitmapFirstClear past disk.allocBitmap with
  | none =>
      have set := (bitmap_first_clear_none owned.wellformed.bitmap past).mp found last
        (by rw [owned.wellformed.sized]; omega)
      exact absurd ((owned.exact last (by omega)).mp set) vacant
  | some page =>
      obtain ⟨bound, pageAligned, open', -⟩ := first_clear_gap owned past found
      have outside : ¬ page + disk.processBlockSize ≤ disk.npages :=
        fun fits => open' (closed page pageAligned fits)
      have same : page = last := aligned_same pageAligned aligned (by omega) (by omega)
      have wraps : hasEnoughConsecutivePages disk page disk.processBlockSize =
          .error .overflow := if_pos (by omega)
      simp [diskAllocProcessBlock, found, wraps]

/-- The process block allocator over every history of calls. -/
theorem process_blocks_packed (npages blocksize : PosInt) (pagesize : Nat)
    {live : List Nat} {disk : Disk} (run : AllocRun npages blocksize pagesize live disk) :
    (live.Nodup ∧ (∀ page ∈ live, page + blocksize ≤ npages) ∧
      ∀ left ∈ live, ∀ right ∈ live, left ≠ right →
        left + blocksize ≤ right ∨ right + blocksize ≤ left) ∧
    (∀ i < npages.1, allocated disk i = true ↔
      ∃ page ∈ live, page ≤ i ∧ i < page + blocksize) ∧
    (∀ past, (∃ page after, diskAllocProcessBlock past disk = .ok (some page, after)) ↔
      live.length < npages / blocksize) ∧
    (live.length < npages.1 / blocksize ↔
      ∃ start, start + blocksize ≤ npages.1 ∧
        ∀ i < blocksize.1, allocated disk (start + i) = false) ∧
    (∀ past after, diskAllocProcessBlock past disk = .ok (none, after) → after = disk) ∧
    (∀ past fault, diskAllocProcessBlock past disk = .error fault →
      fault = .overflow ∧ ¬ blocksize.1 ∣ npages ∧
        2 ^ 31 ≤ (npages.1 / blocksize + 1) * blocksize) ∧
    (∀ page ∈ live, ∃ after, diskFreeProcessBlock disk page = .ok after) := by
  obtain ⟨owned, size, block⟩ := run_owned run
  have size_int : disk.npages < 2 ^ 31 := size ▸ npages.2.2
  rw [← size, ← block]
  refine ⟨⟨owned.packed.unique, owned.packed.inside,
      fun left a right b => blocks_disjoint owned.packed a b⟩, owned.exact,
    alloc_succeeds_iff owned size_int, room_iff_clear_run owned, ?_,
    fun past fault => alloc_fault owned size_int past,
    fun page member => (free_exact owned member).imp fun _ freed => freed.1⟩
  intro past after failed
  rcases alloc_cases owned past with ⟨page, other, taken, -⟩ | ⟨full, -⟩ | ⟨wrapped, -⟩
  · rw [taken] at failed
    cases failed
  · rw [full] at failed
    cases failed
    rfl
  · rw [wrapped] at failed
    cases failed

/-- Five pages in blocks of two, both blocks taken and one page left over. -/
def tailDisk : Disk := ⟨[0, 0, 0, 0, 0], 5, 1, 2, ⟨[0x0F], 5⟩⟩

theorem tail_disk_reached :
    AllocRun ⟨5, by decide⟩ ⟨2, by decide⟩ 1 [2, 0] tailDisk :=
  .alloc (fun _ => 0) (.alloc (fun _ => 0) .init rfl) rfl

theorem process_blocks_packed_tail :
    (∃ page after, diskAllocProcessBlock (fun _ => 0) tailDisk = .ok (some page, after)) ↔
      2 < 5 / 2 :=
  (process_blocks_packed ⟨5, by decide⟩ ⟨2, by decide⟩ 1 tail_disk_reached).2.2.1 _

end VmSim.BlockAllocator
