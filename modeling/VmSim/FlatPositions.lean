import VmSim.BlockAllocator
import VmSim.MemoryUnit

/-!
Where the bytes of a page lie. `mmu_read`, `mmu_write` and the two copies of
vmsim/mmu.c multiply in `unsigned`, vmsim/disk.c in `int`, while `mm_init` and
`disk_init` allocate `npages * page_size` bytes with the product in `size_t`.
Nothing compares the two.
-/

namespace VmSim.FlatPositions
open MemoryUnit DiskBlocks BlockAllocator PagedBytes

/-- The byte `mmu_read` and `mmu_write` start at. -/
def accessPlace (mmu : Mmu) (page offset : Nat) : Outcome Nat := .ok (memAddr mmu page offset)

/-- A byte of the frame that the copies to and from the backing page move. -/
def syncPlace (mmu : Mmu) (page offset : Nat) : Outcome Nat := .ok (memAddr mmu page 0 + offset)

def diskPlace (disk : Disk) (page offset : Nat) : Outcome Nat := do
  let start ← getPageStart disk page
  pure (start + offset)

/-- Every byte of every page has a position of its own inside the allocation. -/
structure Placed (npages pageSize : Nat) (place : Nat → Nat → Outcome Nat) : Prop where
  inside : ∀ page < npages, ∀ offset < pageSize,
    ∃ position < npages * pageSize, place page offset = .ok position
  apart : ∀ page < npages, ∀ other < npages, ∀ offset < pageSize, ∀ offset' < pageSize,
    place page offset = place other offset' → page = other ∧ offset = offset'

def MemoryPlaced (mmu : Mmu) : Prop :=
  Placed mmu.mem.npages mmu.mem.pageSize (accessPlace mmu) ∧
  Placed mmu.mem.npages mmu.mem.pageSize (syncPlace mmu)

def DiskPlaced (disk : Disk) : Prop := Placed disk.npages disk.pageSize (diskPlace disk)

theorem place_inside {npages pageSize page offset : Nat} (page_lt : page < npages)
    (offset_lt : offset < pageSize) : page * pageSize + offset < npages * pageSize := by
  have ends := page_end_le pageSize page_lt
  omega

theorem placed_flat {npages pageSize : Nat} {place : Nat → Nat → Outcome Nat}
    (flat : ∀ page < npages, ∀ offset < pageSize, place page offset = .ok (page * pageSize + offset)) :
    Placed npages pageSize place := by
  constructor
  · intro page page_lt offset offset_lt
    exact ⟨_, place_inside page_lt offset_lt, flat page page_lt offset offset_lt⟩
  · intro page page_lt other other_lt offset offset_lt offset' offset_lt' same
    rw [flat page page_lt offset offset_lt, flat other other_lt offset' offset_lt'] at same
    exact (flat_injective offset_lt offset_lt').mp (Except.ok.inj same)

section Memory
variable {mmu : Mmu}

theorem mem_addr_flat (fits : mmu.mem.npages * mmu.mem.pageSize ≤ 2 ^ 32) {page offset : Nat}
    (page_lt : page < mmu.mem.npages) (offset_lt : offset < mmu.mem.pageSize) :
    memAddr mmu page offset = page * mmu.mem.pageSize + offset :=
  Nat.mod_eq_of_lt (Nat.lt_of_lt_of_le (place_inside page_lt offset_lt) fits)

theorem mem_addr_alias :
    memAddr mmu (2 ^ 32 / mmu.mem.pageSize) (2 ^ 32 % mmu.mem.pageSize) = memAddr mmu 0 0 := by
  unfold memAddr
  rw [Nat.div_add_mod', Nat.mod_self, Nat.zero_mul, Nat.zero_mod]

theorem memory_placed_iff (positive : 0 < mmu.mem.pageSize) :
    MemoryPlaced mmu ↔ mmu.mem.npages * mmu.mem.pageSize ≤ 2 ^ 32 := by
  constructor
  · intro placed
    by_contra large
    -- the page and offset of byte 2 ^ 32, which wraps to byte 0
    have page_lt : 2 ^ 32 / mmu.mem.pageSize < mmu.mem.npages := by
      rw [Nat.div_lt_iff_lt_mul positive]
      omega
    have offset_lt : 2 ^ 32 % mmu.mem.pageSize < mmu.mem.pageSize := Nat.mod_lt _ positive
    obtain ⟨page, offset⟩ := placed.1.apart _ page_lt 0 (Nat.zero_lt_of_lt page_lt) _ offset_lt 0
      positive (congrArg Except.ok mem_addr_alias)
    have whole := Nat.div_add_mod' (2 ^ 32) mmu.mem.pageSize
    rw [page, offset, Nat.zero_mul] at whole
    exact absurd whole (by decide)
  · intro fits
    constructor
    · apply placed_flat
      intro page page_lt offset offset_lt
      exact congrArg Except.ok (mem_addr_flat fits page_lt offset_lt)
    · apply placed_flat
      intro page page_lt offset offset_lt
      have start := mem_addr_flat fits page_lt positive
      exact congrArg Except.ok (by rw [start]; rfl)

end Memory

theorem disk_place_of_lt {disk : Disk} {page : Nat} (small : page * disk.pageSize < 2 ^ 31)
    (offset : Nat) : diskPlace disk page offset = .ok (page * disk.pageSize + offset) := by
  rw [diskPlace, getPageStart, if_neg (Nat.not_le_of_lt small)]
  rfl

theorem disk_place_overflow {disk : Disk} {page : Nat} (large : 2 ^ 31 ≤ page * disk.pageSize)
    (offset : Nat) : diskPlace disk page offset = .error .overflow := by
  rw [diskPlace, getPageStart, if_pos large]
  rfl

theorem disk_placed_iff {disk : Disk} (pages : 0 < disk.npages) (positive : 0 < disk.pageSize) :
    DiskPlaced disk ↔ (disk.npages - 1) * disk.pageSize < 2 ^ 31 := by
  constructor
  · intro placed
    obtain ⟨position, -, found⟩ := placed.inside (disk.npages - 1) (by omega) 0 positive
    by_contra large
    rw [disk_place_overflow (Nat.le_of_not_lt large)] at found
    cases found
  · intro fits
    apply placed_flat
    intro page page_lt offset _
    have before : page * disk.pageSize ≤ (disk.npages - 1) * disk.pageSize :=
      Nat.mul_le_mul_right _ (by omega)
    exact disk_place_of_lt (Nat.lt_of_le_of_lt before fits) offset

/-- The products are right exactly while the memory has at most 2 ^ 32 bytes and
the last page of the disk starts below 2 ^ 31. -/
theorem positions_apart {frames pages pageSize : PosInt} {mmu : Mmu}
    (mem : mmu.mem.npages = frames ∧ mmu.mem.pageSize = pageSize)
    (disk : mmu.disk.npages = pages ∧ mmu.disk.pageSize = pageSize) :
    (MemoryPlaced mmu ↔ (frames : Nat) * pageSize ≤ 2 ^ 32) ∧
    (DiskPlaced mmu.disk ↔ ((pages : Nat) - 1) * pageSize < 2 ^ 31) := by
  obtain ⟨frameCount, frameSize⟩ := mem
  obtain ⟨pageCount, blockSize⟩ := disk
  have memory := @memory_placed_iff mmu (by rw [frameSize]; exact pageSize.2.1)
  have backing := @disk_placed_iff mmu.disk (by rw [pageCount]; exact pages.2.1)
    (by rw [blockSize]; exact pageSize.2.1)
  rw [frameCount, frameSize] at memory
  rw [pageCount, blockSize] at backing
  exact ⟨memory, backing⟩

theorem positions_apart_pages :
    MemoryPlaced (mmuInit (mmInit 3 8) (diskInit 5 8 1) 2) ∧ DiskPlaced (diskInit 5 8 1) := by
  obtain ⟨memory, disk⟩ := @positions_apart ⟨3, by decide⟩ ⟨5, by decide⟩ ⟨8, by decide⟩
    (mmuInit (mmInit 3 8) (diskInit 5 8 1) 2) ⟨rfl, rfl⟩ ⟨rfl, rfl⟩
  exact ⟨memory.mpr (by decide), disk.mpr (by decide)⟩

/-- Three pages of 2 ^ 30 bytes: the start of the last one overflows `int`. -/
theorem last_page_overflows :
    ¬ ∀ (npages pageSize blocksize : PosInt) (agingFreq : Nat),
      MemoryPlaced (mmuInit (mmInit npages pageSize) (diskInit npages pageSize blocksize) agingFreq) ∧
      DiskPlaced (diskInit npages pageSize blocksize) := by
  intro placed
  obtain ⟨-, disk⟩ := placed ⟨3, by decide⟩ ⟨2 ^ 30, by decide⟩ ⟨1, by decide⟩ 1
  have small := (@disk_placed_iff (diskInit 3 (2 ^ 30) 1) (by decide) (by decide)).mp disk
  exact absurd small (by decide)

end VmSim.FlatPositions
