import Mathlib.Data.List.Basic
import VmSim.Types

/-!
util/bitmap.c. Bits are packed in bytes. `findFirst` skips whole blocks
before it looks at bits, and its skipping loop reads a block before it tests
the index, so it can look one block past the allocation. `past` is whatever
memory holds there: it is an argument of the searches and every result below
holds for every value of it.
-/

namespace VmSim.PackedBitmap

abbrev Block := BitVec 8

structure Bitmap where
  data : List Block
  size : Nat
  deriving DecidableEq, Repr

def blockSize : Nat := 8

def blockIdx (bit : Nat) : Nat := bit / blockSize

def bitIdx (bit : Nat) : Nat := bit % blockSize

def getBit (block : Block) (bitidx : Nat) : Bool := (block &&& (1#8 <<< bitidx)) != 0#8

def setBit (block : Block) (bitidx : Nat) : Block := block ||| (1#8 <<< bitidx)

def clearBit (block : Block) (bitidx : Nat) : Block := block &&& ~~~(1#8 <<< bitidx)

/-- `bitmap_init` for `nbits >= 1`: a zeroed allocation. -/
def bitmapInit (nbits : Nat) : Bitmap :=
  ⟨List.replicate (blockIdx (nbits - 1) + 1) 0, nbits⟩

def blockAt (past : Nat → Block) (bitmap : Bitmap) (idx : Nat) : Block :=
  bitmap.data.getD idx (past idx)

/-- The first loop of `find_first`; `count` iterations of its index test are
left, so the loop stops by itself once `blockidx` exceeds the last block. -/
def skipBlocks (past : Nat → Block) (bitmap : Bitmap) (skip : Block) : Nat → Nat → Nat
  | 0, blockidx => blockidx
  | count + 1, blockidx =>
      if blockAt past bitmap blockidx = skip then
        skipBlocks past bitmap skip count (blockidx + 1)
      else blockidx

/-- The second loop of `find_first`, over the bits of one block. -/
def scanBits (block : Block) (value : Bool) (maxbitidx : Nat) : Nat → Nat → Option Nat
  | 0, _ => none
  | count + 1, bitidx =>
      if bitidx < maxbitidx then
        if getBit block bitidx = value then some bitidx
        else scanBits block value maxbitidx count (bitidx + 1)
      else none

def findFirst (past : Nat → Block) (bitmap : Bitmap) (value : Bool) (skip : Block) :
    Option Nat :=
  let blockidx := skipBlocks past bitmap skip (blockIdx bitmap.size + 1) 0
  if blockIdx bitmap.size < blockidx then none
  else
    (scanBits (blockAt past bitmap blockidx) value (bitmap.size - blockidx * blockSize)
      blockSize 0).map (blockidx * blockSize + ·)

def bitmapFirstSet (past : Nat → Block) (bitmap : Bitmap) : Option Nat :=
  findFirst past bitmap true 0x00#8

def bitmapFirstClear (past : Nat → Block) (bitmap : Bitmap) : Option Nat :=
  findFirst past bitmap false 0xFF#8

def bitmapSet (bitmap : Bitmap) (idx : Nat) : Outcome Bitmap := do
  assert .bitmapSet (idx < bitmap.size)
  let block ← load bitmap.data (blockIdx idx)
  let data ← store bitmap.data (blockIdx idx) (setBit block (bitIdx idx))
  pure { bitmap with data := data }

def bitmapClear (bitmap : Bitmap) (idx : Nat) : Outcome Bitmap := do
  assert .bitmapClear (idx < bitmap.size)
  let block ← load bitmap.data (blockIdx idx)
  let data ← store bitmap.data (blockIdx idx) (clearBit block (bitIdx idx))
  pure { bitmap with data := data }

def bitmapGet (bitmap : Bitmap) (idx : Nat) : Outcome Bool := do
  assert .bitmapGet (idx < bitmap.size)
  let block ← load bitmap.data (blockIdx idx)
  pure (getBit block (bitIdx idx))

/-! The set of indices a bitmap stands for, and what each operation does to it. -/

def bit (bitmap : Bitmap) (i : Nat) : Bool :=
  getBit (bitmap.data.getD (blockIdx i) 0) (bitIdx i)

structure WellFormed (bitmap : Bitmap) : Prop where
  positive : 0 < bitmap.size
  stored : bitmap.data.length = blockIdx (bitmap.size - 1) + 1

theorem bit_idx_lt (i : Nat) : bitIdx i < blockSize := Nat.mod_lt _ (by decide)

theorem get_bit_exact (block : Block) (i : Nat) (bound : i < blockSize) :
    getBit block i = block.getLsbD i := by
  unfold blockSize at bound
  unfold getBit
  rw [← BitVec.twoPow_eq, Bool.eq_iff_iff, bne_iff_ne, BitVec.and_twoPow]
  cases h : block.getLsbD i
  · simp
  · simp only [if_true, ne_eq, iff_true]
    intro zero
    have low := congrArg (fun b => BitVec.getLsbD b i) zero
    simp [bound] at low

theorem get_set_bit (block : Block) (i j : Nat) (bound : j < blockSize) :
    getBit (setBit block i) j = if i = j then true else getBit block j := by
  rw [get_bit_exact _ _ bound, get_bit_exact _ _ bound, setBit, ← BitVec.twoPow_eq]
  unfold blockSize at bound
  by_cases same : i = j
  · simp [same, bound]
  · simp [BitVec.getLsbD_or, BitVec.getLsbD_twoPow, same]

theorem get_clear_bit (block : Block) (i j : Nat) (bound : j < blockSize) :
    getBit (clearBit block i) j = if i = j then false else getBit block j := by
  rw [get_bit_exact _ _ bound, get_bit_exact _ _ bound, clearBit, ← BitVec.twoPow_eq]
  unfold blockSize at bound
  by_cases same : i = j
  · simp [same, bound]
  · simp [bound, same, Ne.symm same]

theorem get_bit_zero (i : Nat) : getBit 0#8 i = false := by
  simp [getBit]

theorem block_ext (left right : Block)
    (same : ∀ i < blockSize, getBit left i = getBit right i) : left = right := by
  apply BitVec.eq_of_getLsbD_eq
  intro i bound
  simpa only [get_bit_exact _ _ bound] using same i bound

theorem stored_block {bitmap : Bitmap} (valid : WellFormed bitmap) {i : Nat}
    (bound : i < bitmap.size) : blockIdx i < bitmap.data.length := by
  rw [valid.stored]
  unfold blockIdx blockSize
  omega

theorem bitmap_init_bit (nbits i : Nat) : bit (bitmapInit nbits) i = false := by
  simp only [bit, bitmapInit, List.getD_eq_getElem?_getD, List.getElem?_replicate]
  split <;> exact get_bit_zero _

theorem bitmap_init_wellformed (nbits : Nat) (positive : 0 < nbits) :
    WellFormed (bitmapInit nbits) :=
  ⟨positive, by simp [bitmapInit]⟩

theorem bitmap_get_exact {bitmap : Bitmap} (valid : WellFormed bitmap) {idx : Nat}
    (bound : idx < bitmap.size) : bitmapGet bitmap idx = .ok (bit bitmap idx) := by
  have stored := stored_block valid bound
  simp [bitmapGet, bound, load, bit, List.getElem?_eq_getElem stored]

theorem same_bit_iff (i j : Nat) : (blockIdx i = blockIdx j ∧ bitIdx i = bitIdx j) ↔ i = j := by
  unfold blockIdx bitIdx blockSize
  omega

/-- The common part of `bitmap_set` and `bitmap_clear`: one block is replaced. -/
def editBlock (bitmap : Bitmap) (idx : Nat) (change : Block → Nat → Block) : Bitmap :=
  let block := bitmap.data.getD (blockIdx idx) 0
  { bitmap with data := bitmap.data.set (blockIdx idx) (change block (bitIdx idx)) }

theorem edit_block_bit (bitmap : Bitmap) (change : Block → Nat → Block) (value : Bool)
    (exact : ∀ block i j, j < blockSize →
      getBit (change block i) j = if i = j then value else getBit block j)
    {idx : Nat} (stored : blockIdx idx < bitmap.data.length) (i : Nat) :
    bit (editBlock bitmap idx change) i = if i = idx then value else bit bitmap i := by
  have place := same_bit_iff idx i
  by_cases same : blockIdx idx = blockIdx i
  · have written : (editBlock bitmap idx change).data.getD (blockIdx i) 0 =
        change (bitmap.data.getD (blockIdx idx) 0) (bitIdx idx) := by
      simp [editBlock, ← same, stored]
    have changed : bit (editBlock bitmap idx change) i =
        if bitIdx idx = bitIdx i then value else bit bitmap i := by
      rw [bit, written, exact _ _ _ (bit_idx_lt _), same]
      rfl
    rw [changed]
    by_cases equal : bitIdx idx = bitIdx i
    · simp [place.mp ⟨same, equal⟩]
    · have distinct : i ≠ idx := by rintro rfl; exact equal rfl
      simp [equal, distinct]
  · have distinct : i ≠ idx := by rintro rfl; exact same rfl
    simp [editBlock, bit, List.getElem?_set_ne same, distinct]

theorem edit_block_wellformed {bitmap : Bitmap} (valid : WellFormed bitmap)
    (idx : Nat) (change : Block → Nat → Block) : WellFormed (editBlock bitmap idx change) :=
  ⟨valid.positive, by simpa [editBlock] using valid.stored⟩

theorem bitmap_set_exact {bitmap : Bitmap} (valid : WellFormed bitmap) {idx : Nat}
    (bound : idx < bitmap.size) :
    ∃ after, bitmapSet bitmap idx = .ok after ∧ WellFormed after ∧ after.size = bitmap.size ∧
      ∀ i, bit after i = if i = idx then true else bit bitmap i := by
  have stored := stored_block valid bound
  refine ⟨editBlock bitmap idx setBit, ?_,
    edit_block_wellformed valid idx setBit, rfl,
    edit_block_bit bitmap setBit true get_set_bit stored⟩
  simp [bitmapSet, editBlock, bound, load, store_of_lt stored, List.getElem?_eq_getElem stored]

theorem bitmap_clear_exact {bitmap : Bitmap} (valid : WellFormed bitmap) {idx : Nat}
    (bound : idx < bitmap.size) :
    ∃ after, bitmapClear bitmap idx = .ok after ∧ WellFormed after ∧ after.size = bitmap.size ∧
      ∀ i, bit after i = if i = idx then false else bit bitmap i := by
  have stored := stored_block valid bound
  refine ⟨editBlock bitmap idx clearBit, ?_,
    edit_block_wellformed valid idx clearBit, rfl,
    edit_block_bit bitmap clearBit false get_clear_bit stored⟩
  simp [bitmapClear, editBlock, bound, load, store_of_lt stored, List.getElem?_eq_getElem stored]

theorem skip_blocks_exact (past : Nat → Block) (bitmap : Bitmap) (skip : Block)
    (count start : Nat) :
    let stop := skipBlocks past bitmap skip count start
    start ≤ stop ∧ (∀ i, start ≤ i → i < stop → blockAt past bitmap i = skip) ∧
      (stop = start + count ∨ blockAt past bitmap stop ≠ skip) := by
  induction count generalizing start with
  | zero => exact ⟨Nat.le_refl _, fun i low high => absurd high (Nat.not_lt_of_le low), Or.inl rfl⟩
  | succ count ih =>
      by_cases hit : blockAt past bitmap start = skip
      · obtain ⟨low, skipped, stopped⟩ := ih (start + 1)
        simp only [skipBlocks, hit, if_true]
        refine ⟨by omega, ?_, ?_⟩
        · intro i after before
          rcases Nat.eq_or_lt_of_le after with same | later
          · exact same ▸ hit
          · exact skipped i later before
        · exact stopped.imp_left (fun same => by omega)
      · simp only [skipBlocks, hit, if_false]
        exact ⟨Nat.le_refl _, fun i low high => absurd high (Nat.not_lt_of_le low), Or.inr hit⟩

theorem scan_bits_some (block : Block) (value : Bool) (maxbitidx count start found : Nat)
    (scanned : scanBits block value maxbitidx count start = some found) :
    start ≤ found ∧ found < maxbitidx ∧ found < start + count ∧ getBit block found = value ∧
      ∀ i, start ≤ i → i < found → getBit block i ≠ value := by
  induction count generalizing start with
  | zero => simp [scanBits] at scanned
  | succ count ih =>
      simp only [scanBits] at scanned
      split at scanned
      · rename_i inside
        split at scanned
        · rename_i hit
          cases scanned
          exact ⟨Nat.le_refl _, inside, by omega, hit,
            fun i low high => absurd high (Nat.not_lt_of_le low)⟩
        · rename_i miss
          obtain ⟨low, limit, near, hit, before⟩ := ih (start + 1) scanned
          refine ⟨by omega, limit, by omega, hit, ?_⟩
          intro i after earlier
          rcases Nat.eq_or_lt_of_le after with same | later
          · exact same ▸ miss
          · exact before i later earlier
      · cases scanned

theorem scan_bits_none (block : Block) (value : Bool) (maxbitidx count start : Nat)
    (scanned : scanBits block value maxbitidx count start = none) :
    ∀ i, start ≤ i → i < maxbitidx → i < start + count → getBit block i ≠ value := by
  induction count generalizing start with
  | zero => intro i low _ high; omega
  | succ count ih =>
      intro i low limit high
      have inside : start < maxbitidx := by omega
      simp only [scanBits, inside, if_true] at scanned
      split at scanned
      · cases scanned
      · rename_i miss
        rcases Nat.eq_or_lt_of_le low with same | later
        · exact same ▸ miss
        · exact ih (start + 1) scanned i later limit (by omega)

/-- A search is exact for a value no bit of the skipped block has and every
other block has somewhere. The byte behind the allocation never decides. -/
structure Searches (value : Bool) (skip : Block) : Prop where
  skipped : ∀ i < blockSize, getBit skip i ≠ value
  kept : ∀ block, block ≠ skip → ∃ i < blockSize, getBit block i = value

theorem searches_clear : Searches false 0xFF#8 := by
  refine ⟨by decide, ?_⟩
  intro block differs
  by_contra none
  push Not at none
  have full : ∀ i < blockSize, getBit 0xFF#8 i = true := by decide
  apply differs
  apply block_ext
  intro i bound
  rw [full i bound]
  simpa using none i bound

theorem searches_set : Searches true 0x00#8 := by
  refine ⟨by decide, ?_⟩
  intro block differs
  by_contra none
  push Not at none
  apply differs
  apply block_ext
  intro i bound
  rw [get_bit_zero]
  simpa using none i bound

theorem block_at_bit {bitmap : Bitmap} (valid : WellFormed bitmap) (past : Nat → Block)
    {i : Nat} (bound : i < bitmap.size) :
    getBit (blockAt past bitmap (blockIdx i)) (bitIdx i) = bit bitmap i := by
  have stored := stored_block valid bound
  simp [blockAt, bit, List.getElem?_eq_getElem stored]

section Search
variable {bitmap : Bitmap} {value : Bool} {skip : Block}

theorem passed_bits (valid : WellFormed bitmap) (searches : Searches value skip)
    (past : Nat → Block) {stop : Nat}
    (passed : ∀ i, 0 ≤ i → i < stop → blockAt past bitmap i = skip)
    {j : Nat} (bound : j < bitmap.size) (before : blockIdx j < stop) :
    bit bitmap j ≠ value := by
  rw [← block_at_bit valid past bound, passed _ (Nat.zero_le _) before]
  exact searches.skipped _ (bit_idx_lt j)

theorem find_first_some (valid : WellFormed bitmap) (searches : Searches value skip)
    (past : Nat → Block) {idx : Nat} (found : findFirst past bitmap value skip = some idx) :
    idx < bitmap.size ∧ bit bitmap idx = value ∧ ∀ j < idx, bit bitmap j ≠ value := by
  have walk := skip_blocks_exact past bitmap skip (blockIdx bitmap.size + 1) 0
  unfold findFirst at found
  generalize skipBlocks past bitmap skip (blockIdx bitmap.size + 1) 0 = stop at walk found
  obtain ⟨-, passed, -⟩ := walk
  simp only at found
  split at found
  · cases found
  · obtain ⟨offset, scanned, place⟩ := Option.map_eq_some_iff.mp found
    obtain ⟨-, limit, near, hit, before⟩ := scan_bits_some _ _ _ _ _ _ scanned
    have inside : idx < bitmap.size := by omega
    have split_idx : blockIdx idx = stop ∧ bitIdx idx = offset := by
      unfold blockIdx bitIdx blockSize at *
      omega
    refine ⟨inside, ?_, ?_⟩
    · rw [← block_at_bit valid past inside, split_idx.1, split_idx.2]
      exact hit
    -- Blocks passed over hold no bit of the value; within the block hit the scan went upward.
    · intro j earlier
      have bound : j < bitmap.size := by omega
      rcases Nat.lt_or_ge (blockIdx j) stop with low | high
      · exact passed_bits valid searches past passed bound low
      · have same : blockIdx j = stop ∧ bitIdx j < offset := by
          unfold blockIdx bitIdx blockSize at *
          omega
        rw [← block_at_bit valid past bound, same.1]
        exact before _ (Nat.zero_le _) same.2

theorem find_first_none (valid : WellFormed bitmap) (searches : Searches value skip)
    (past : Nat → Block) (missing : findFirst past bitmap value skip = none) :
    ∀ j < bitmap.size, bit bitmap j ≠ value := by
  intro j bound
  have walk := skip_blocks_exact past bitmap skip (blockIdx bitmap.size + 1) 0
  unfold findFirst at missing
  generalize skipBlocks past bitmap skip (blockIdx bitmap.size + 1) 0 = stop at walk missing
  obtain ⟨-, passed, stopped⟩ := walk
  have within : blockIdx j ≤ blockIdx bitmap.size := by
    unfold blockIdx blockSize
    omega
  -- Position j lies in a block passed over or in the block where the scan stopped.
  rcases Nat.lt_or_ge (blockIdx j) stop with low | high
  · exact passed_bits valid searches past passed bound low
  · have inside : ¬ blockIdx bitmap.size < stop := by omega
    have differs : blockAt past bitmap stop ≠ skip := by
      rcases stopped with same | differs
      · omega
      · exact differs
    simp only [inside, if_false, Option.map_eq_none_iff] at missing
    have absent := scan_bits_none _ _ _ _ _ missing
    rcases Nat.eq_or_lt_of_le high with same | later
    · rw [← block_at_bit valid past bound, ← same]
      apply absent _ (Nat.zero_le _)
      · unfold blockIdx bitIdx blockSize at *
        omega
      · simpa using bit_idx_lt j
    · -- A block before the last one is full length, so its hit was in range.
      obtain ⟨i, small, hit⟩ := searches.kept _ differs
      have limit : i < bitmap.size - stop * blockSize := by
        unfold blockIdx blockSize at *
        omega
      exact absurd hit (absent i (Nat.zero_le _) limit (by simpa using small))

theorem find_first_some_iff (valid : WellFormed bitmap) (searches : Searches value skip)
    (past : Nat → Block) (idx : Nat) : findFirst past bitmap value skip = some idx ↔
      idx < bitmap.size ∧ bit bitmap idx = value ∧ ∀ j < idx, bit bitmap j ≠ value := by
  constructor
  · exact find_first_some valid searches past
  · rintro ⟨bound, hit, before⟩
    cases found : findFirst past bitmap value skip with
    | none => exact absurd hit (find_first_none valid searches past found idx bound)
    | some other =>
        obtain ⟨-, otherHit, earlier⟩ := find_first_some valid searches past found
        rcases Nat.lt_trichotomy other idx with low | same | high
        · exact absurd otherHit (before other low)
        · exact congrArg some same
        · exact absurd hit (earlier idx high)

theorem find_first_none_iff (valid : WellFormed bitmap) (searches : Searches value skip)
    (past : Nat → Block) : findFirst past bitmap value skip = none ↔
      ∀ j < bitmap.size, bit bitmap j ≠ value := by
  constructor
  · exact find_first_none valid searches past
  · intro missing
    cases found : findFirst past bitmap value skip with
    | none => rfl
    | some idx =>
        obtain ⟨bound, hit, -⟩ := find_first_some valid searches past found
        exact absurd hit (missing idx bound)

end Search

/-- Both searches return the least index with the wanted bit, whatever memory
holds past the last block. -/
theorem bitmap_first_clear_some {bitmap : Bitmap} (valid : WellFormed bitmap)
    (past : Nat → Block) (idx : Nat) :
    bitmapFirstClear past bitmap = some idx ↔
      idx < bitmap.size ∧ bit bitmap idx = false ∧ ∀ j < idx, bit bitmap j = true := by
  simpa [bitmapFirstClear] using find_first_some_iff valid searches_clear past idx

theorem bitmap_first_clear_none {bitmap : Bitmap} (valid : WellFormed bitmap)
    (past : Nat → Block) :
    bitmapFirstClear past bitmap = none ↔ ∀ j < bitmap.size, bit bitmap j = true := by
  simpa [bitmapFirstClear] using find_first_none_iff valid searches_clear past

theorem bitmap_first_set_some {bitmap : Bitmap} (valid : WellFormed bitmap)
    (past : Nat → Block) (idx : Nat) :
    bitmapFirstSet past bitmap = some idx ↔
      idx < bitmap.size ∧ bit bitmap idx = true ∧ ∀ j < idx, bit bitmap j = false := by
  simpa [bitmapFirstSet] using find_first_some_iff valid searches_set past idx

theorem bitmap_first_set_none {bitmap : Bitmap} (valid : WellFormed bitmap)
    (past : Nat → Block) :
    bitmapFirstSet past bitmap = none ↔ ∀ j < bitmap.size, bit bitmap j = false := by
  simpa [bitmapFirstSet] using find_first_none_iff valid searches_set past

end VmSim.PackedBitmap
