import VmSim.Types
import VmSim.PackedBitmap
import VmSim.Library.AlignedBlocks

/-!
vmsim/disk.c without its lock: every function below is the body between the
lock's acquisition and its release. Page indices are natural numbers, so the
`page >= 0` of `is_page_allocated` always holds. `int` sums and products that
leave 31 bits are undefined in C and end the call with `Fault.overflow`.
-/

namespace VmSim.DiskBlocks
open PackedBitmap AlignedBlocks

structure Disk where
  data : List BYTE
  npages : Nat
  pageSize : Nat
  processBlockSize : Nat
  allocBitmap : Bitmap
  deriving DecidableEq, Repr

def diskInit (npages pagesize blocksize : Nat) : Disk :=
  { data := List.replicate (npages * pagesize) 0
    npages := npages
    pageSize := pagesize
    processBlockSize := blocksize
    allocBitmap := bitmapInit npages }

def getPageStart (disk : Disk) (page : Nat) : Outcome Nat :=
  if 2 ^ 31 ≤ page * disk.pageSize then .error .overflow else .ok (page * disk.pageSize)

def isPageAllocated (disk : Disk) (page : Nat) : Outcome Bool :=
  bitmapGet disk.allocBitmap page

def allocPage (disk : Disk) (page : Nat) : Outcome Disk := do
  let allocated ← isPageAllocated disk page
  assert .allocPage (!allocated)
  let bitmap ← bitmapSet disk.allocBitmap page
  pure { disk with allocBitmap := bitmap }

def freePage (disk : Disk) (page : Nat) : Outcome Disk := do
  let allocated ← isPageAllocated disk page
  assert .freePage allocated
  let bitmap ← bitmapClear disk.allocBitmap page
  pure { disk with allocBitmap := bitmap }

/-- The loop of `hasEnoughConsecutivePages`. -/
def pagesClear (disk : Disk) (page : Nat) : Nat → Outcome Bool
  | 0 => .ok true
  | count + 1 => do
      let allocated ← bitmapGet disk.allocBitmap page
      if allocated then pure false else pagesClear disk (page + 1) count

def hasEnoughConsecutivePages (disk : Disk) (pageIdxStart npages : Nat) : Outcome Bool :=
  if 2 ^ 31 ≤ pageIdxStart + npages then .error .overflow
  else if disk.npages < pageIdxStart + npages then .ok false
  else pagesClear disk pageIdxStart npages

def forPages (body : Disk → Nat → Outcome Disk) (disk : Disk) (page : Nat) : Nat → Outcome Disk
  | 0 => .ok disk
  | count + 1 => do
      let next ← body disk page
      forPages body next (page + 1) count

/-- `some page` is ecSuccess with `*page`, `none` is ecFail. -/
def diskAllocProcessBlock (past : Nat → Block) (disk : Disk) : Outcome (Option Nat × Disk) :=
  match bitmapFirstClear past disk.allocBitmap with
  | none => .ok (none, disk)
  | some page => do
      let enough ← hasEnoughConsecutivePages disk page disk.processBlockSize
      if enough then do
        let after ← forPages allocPage disk page disk.processBlockSize
        pure (some page, after)
      else pure (none, disk)

def diskFreeProcessBlock (disk : Disk) (page : Nat) : Outcome Disk :=
  forPages freePage disk page disk.processBlockSize

/-- `none` is ecFail: the page is not allocated and the buffer stays as it was. -/
def diskGetPage (disk : Disk) (page : Nat) : Outcome (Option (List BYTE)) := do
  assert .diskGetPage (page < disk.npages)
  let allocated ← isPageAllocated disk page
  if allocated then do
    let start ← getPageStart disk page
    let bytes ← copyOut disk.data start disk.pageSize
    pure (some bytes)
  else pure none

/-- `source` is the `page_size` bytes at the caller's pointer. -/
def diskSetPage (disk : Disk) (page : Nat) (source : List BYTE) : Outcome (Errcode × Disk) := do
  assert .diskSetPage (page < disk.npages)
  let allocated ← isPageAllocated disk page
  if allocated then do
    let start ← getPageStart disk page
    let data ← copyIn disk.data start source
    pure (.ecSuccess, { disk with data := data })
  else pure (.ecFail, disk)

/-! Which pages are allocated, and what the loops do to that set. -/

def allocated (disk : Disk) (page : Nat) : Bool := bit disk.allocBitmap page

structure WellFormed (disk : Disk) : Prop where
  bitmap : PackedBitmap.WellFormed disk.allocBitmap
  sized : disk.allocBitmap.size = disk.npages

structure Marked (before after : Disk) (low high : Nat) (value : Bool) : Prop where
  data : after.data = before.data
  npages : after.npages = before.npages
  pageSize : after.pageSize = before.pageSize
  blockSize : after.processBlockSize = before.processBlockSize
  wellformed : WellFormed after
  bits : ∀ i, allocated after i = if low ≤ i ∧ i < high then value else allocated before i

theorem disk_init_wellformed (npages pagesize blocksize : Nat) (positive : 0 < npages) :
    WellFormed (diskInit npages pagesize blocksize) :=
  ⟨bitmap_init_wellformed npages positive, rfl⟩

theorem is_page_allocated_exact {disk : Disk} (valid : WellFormed disk) {page : Nat}
    (bound : page < disk.npages) : isPageAllocated disk page = .ok (allocated disk page) :=
  bitmap_get_exact valid.bitmap (valid.sized ▸ bound)

theorem marked_refl {disk : Disk} (valid : WellFormed disk) (page : Nat) (value : Bool) :
    Marked disk disk page page value :=
  ⟨rfl, rfl, rfl, rfl, valid, fun i => by rw [if_neg (by omega)]⟩

theorem marked_append {first second third : Disk} {low middle high : Nat} {value : Bool}
    (a : Marked first second low middle value) (b : Marked second third middle high value)
    (order : low ≤ middle) (order' : middle ≤ high) : Marked first third low high value := by
  refine ⟨b.data.trans a.data, b.npages.trans a.npages, b.pageSize.trans a.pageSize,
    b.blockSize.trans a.blockSize, b.wellformed, ?_⟩
  intro i
  rw [b.bits, a.bits]
  by_cases left : i < middle <;> by_cases right : middle ≤ i <;>
    by_cases outer : low ≤ i ∧ i < high <;> simp [left, right, outer] <;> omega

theorem alloc_page_exact {disk : Disk} (valid : WellFormed disk) {page : Nat}
    (bound : page < disk.npages) (clear : allocated disk page = false) :
    ∃ after, allocPage disk page = .ok after ∧ Marked disk after page (page + 1) true := by
  obtain ⟨bitmap, set, kept, size, bits⟩ :=
    bitmap_set_exact valid.bitmap (valid.sized ▸ bound : page < disk.allocBitmap.size)
  refine ⟨{ disk with allocBitmap := bitmap }, ?_, rfl, rfl, rfl, rfl,
    ⟨kept, size.trans valid.sized⟩, ?_⟩
  · simp [allocPage, is_page_allocated_exact valid bound, clear, set]
  · intro i
    have single : i = page ↔ page ≤ i ∧ i < page + 1 := by omega
    simp only [allocated, bits, single]

theorem free_page_exact {disk : Disk} (valid : WellFormed disk) {page : Nat}
    (bound : page < disk.npages) (set : allocated disk page = true) :
    ∃ after, freePage disk page = .ok after ∧ Marked disk after page (page + 1) false := by
  obtain ⟨bitmap, cleared, kept, size, bits⟩ :=
    bitmap_clear_exact valid.bitmap (valid.sized ▸ bound : page < disk.allocBitmap.size)
  refine ⟨{ disk with allocBitmap := bitmap }, ?_, rfl, rfl, rfl, rfl,
    ⟨kept, size.trans valid.sized⟩, ?_⟩
  · simp [freePage, is_page_allocated_exact valid bound, set, cleared]
  · intro i
    have single : i = page ↔ page ≤ i ∧ i < page + 1 := by omega
    simp only [allocated, bits, single]

theorem for_pages_exact (body : Disk → Nat → Outcome Disk) (value : Bool)
    (exact : ∀ disk page, WellFormed disk → page < disk.npages →
      allocated disk page = !value →
      ∃ after, body disk page = .ok after ∧ Marked disk after page (page + 1) value)
    {disk : Disk} (valid : WellFormed disk) {page count : Nat}
    (inside : page + count ≤ disk.npages)
    (ready : ∀ i, page ≤ i → i < page + count → allocated disk i = !value) :
    ∃ after, forPages body disk page count = .ok after ∧
      Marked disk after page (page + count) value := by
  induction count generalizing disk page with
  | zero => exact ⟨disk, rfl, marked_refl valid page value⟩
  | succ count ih =>
      obtain ⟨next, stepped, marked⟩ :=
        exact disk page valid (by omega) (ready page (Nat.le_refl _) (by omega))
      have pending : ∀ i, page + 1 ≤ i → i < page + 1 + count → allocated next i = !value := by
        intro i low high
        rw [marked.bits, if_neg (by omega)]
        exact ready i (by omega) (by omega)
      obtain ⟨after, looped, rest⟩ := ih marked.wellformed
        (by rw [marked.npages]; omega) pending
      refine ⟨after, by simp [forPages, stepped, looped], ?_⟩
      have joined := marked_append marked rest (by omega) (by omega)
      rwa [show page + 1 + count = page + (count + 1) by omega] at joined

theorem pages_clear_exact {disk : Disk} (valid : WellFormed disk) {page count : Nat}
    (inside : page + count ≤ disk.npages) :
    ∃ enough, pagesClear disk page count = .ok enough ∧
      (enough = true ↔ ∀ i < count, allocated disk (page + i) = false) := by
  induction count generalizing page with
  | zero => exact ⟨true, rfl, by simp⟩
  | succ count ih =>
      have sized : page < disk.allocBitmap.size := by
        rw [valid.sized]
        omega
      have read := bitmap_get_exact valid.bitmap sized
      cases first : allocated disk page with
      | true =>
          refine ⟨false, ?_, ?_⟩
          · simp [pagesClear, read, show bit disk.allocBitmap page = true from first]
          · constructor
            · simp
            · intro all
              simpa [first] using all 0 (by omega)
      | false =>
          have inside' : page + 1 + count ≤ disk.npages := by omega
          obtain ⟨enough, looped, iff⟩ := ih inside'
          refine ⟨enough, ?_, iff.trans ?_⟩
          · simp [pagesClear, read, show bit disk.allocBitmap page = false from first, looped]
          · constructor
            -- Page i from here is page i - 1 from the next one.
            · intro all i bound
              rcases Nat.eq_zero_or_pos i with zero | positive
              · simpa [zero] using first
              · have shifted := all (i - 1) (by omega)
                rwa [show page + 1 + (i - 1) = page + i by omega] at shifted
            · intro all i bound
              have shifted := all (i + 1) (by omega)
              rwa [show page + (i + 1) = page + 1 + i by omega] at shifted

/-! No call gives the disk more pages, or takes one away. -/

section Pages
variable {disk after : Disk} {page : Nat}

theorem for_pages_pages {body : Disk → Nat → Outcome Disk} {count : Nat}
    (keeps : ∀ disk page after, body disk page = .ok after → after.npages = disk.npages)
    (ran : forPages body disk page count = .ok after) : after.npages = disk.npages := by
  induction count generalizing disk page with
  | zero =>
      cases ran
      rfl
  | succ count ih =>
      obtain ⟨next, stepped, rest⟩ := bind_eq_ok.mp ran
      exact (ih rest).trans (keeps disk page next stepped)

theorem alloc_block_pages {past : Nat → Block} {found : Option Nat}
    (ran : diskAllocProcessBlock past disk = .ok (found, after)) : after.npages = disk.npages := by
  have marks : ∀ disk page after, allocPage disk page = .ok after → after.npages = disk.npages := by
    intro disk page after ran
    simp only [allocPage, bind_eq_ok, pure_eq_ok, Except.ok.injEq] at ran
    obtain ⟨-, -, -, -, bitmap, -, rfl⟩ := ran
    rfl
  unfold diskAllocProcessBlock at ran
  split at ran
  · cases ran
    rfl
  · obtain ⟨enough, -, rest⟩ := bind_eq_ok.mp ran
    cases enough with
    | false =>
        cases rest
        rfl
    | true =>
        obtain ⟨marked, looped, made⟩ := bind_eq_ok.mp rest
        cases made
        exact for_pages_pages marks looped

theorem free_block_pages (ran : diskFreeProcessBlock disk page = .ok after) :
    after.npages = disk.npages := by
  refine for_pages_pages (fun disk page after ran => ?_) ran
  simp only [freePage, bind_eq_ok, pure_eq_ok, Except.ok.injEq] at ran
  obtain ⟨-, -, -, -, bitmap, -, rfl⟩ := ran
  rfl

theorem set_page_pages {source : List BYTE} {errcode : Errcode}
    (ran : diskSetPage disk page source = .ok (errcode, after)) : after.npages = disk.npages := by
  simp only [diskSetPage, bind_eq_ok] at ran
  obtain ⟨-, -, found, -, rest⟩ := ran
  cases found with
  | false =>
      cases rest
      rfl
  | true =>
      simp only [if_true, bind_eq_ok] at rest
      obtain ⟨-, -, data, -, made⟩ := rest
      cases made
      rfl

end Pages

end VmSim.DiskBlocks
