import Mathlib.Data.List.Nodup
import Mathlib.Data.List.Range
import Mathlib.Data.List.Perm.Subperm

/-!
Equal blocks of `width` cells on a line of `total` cells, each starting at a
multiple of `width`. The least cell that no block covers is then itself a
multiple of `width`, so an allocator that only ever looks at that cell finds
a place for a block whenever there is one.
-/

namespace VmSim.AlignedBlocks

variable {width total : Nat} {live : List Nat}

def Covered (width : Nat) (live : List Nat) (cell : Nat) : Prop :=
  ∃ start ∈ live, start ≤ cell ∧ cell < start + width

structure Packed (width total : Nat) (live : List Nat) : Prop where
  unique : live.Nodup
  aligned : ∀ start ∈ live, width ∣ start
  inside : ∀ start ∈ live, start + width ≤ total

theorem packed_nil : Packed width total [] := ⟨List.nodup_nil, by simp, by simp⟩

theorem covered_cons (start : Nat) (cell : Nat) :
    Covered width (start :: live) cell ↔
      (start ≤ cell ∧ cell < start + width) ∨ Covered width live cell := by
  simp [Covered]

theorem aligned_same {left right : Nat} (a : width ∣ left) (b : width ∣ right)
    (low : left < right + width) (high : right < left + width) : left = right := by
  obtain ⟨i, rfl⟩ := a
  obtain ⟨j, rfl⟩ := b
  have below : i < j + 1 := by
    apply Nat.lt_of_mul_lt_mul_left (a := width)
    rw [Nat.mul_add, Nat.mul_one]
    exact low
  have above : j < i + 1 := by
    apply Nat.lt_of_mul_lt_mul_left (a := width)
    rw [Nat.mul_add, Nat.mul_one]
    exact high
  rw [show i = j by omega]

theorem blocks_disjoint (packed : Packed width total live) {left right : Nat}
    (a : left ∈ live) (b : right ∈ live) (different : left ≠ right) :
    left + width ≤ right ∨ right + width ≤ left := by
  by_contra overlap
  push Not at overlap
  exact different (aligned_same (packed.aligned left a) (packed.aligned right b)
    overlap.2 overlap.1)

/-- Everything below the first gap is covered, so the gap opens where a block ends. -/
theorem first_gap_aligned (packed : Packed width total live) {gap : Nat}
    (before : ∀ cell < gap, Covered width live cell) (vacant : ¬ Covered width live gap) :
    width ∣ gap := by
  rcases Nat.eq_zero_or_pos gap with zero | positive
  · exact zero ▸ Nat.dvd_zero width
  · obtain ⟨start, member, low, high⟩ := before (gap - 1) (by omega)
    have ends : gap = start + width := by
      have outside : ¬ (start ≤ gap ∧ gap < start + width) :=
        fun within => vacant ⟨start, member, within⟩
      omega
    rw [ends]
    exact Nat.dvd_add (packed.aligned start member) (Nat.dvd_refl width)

theorem aligned_gap_open (packed : Packed width total live) {gap : Nat} (aligned : width ∣ gap)
    (vacant : ¬ Covered width live gap) {i : Nat} (bound : i < width) :
    ¬ Covered width live (gap + i) := by
  rintro ⟨start, member, low, high⟩
  have same : start = gap :=
    aligned_same (packed.aligned start member) aligned (by omega) (by omega)
  exact vacant ⟨start, member, by omega, by omega⟩

theorem packed_cons (packed : Packed width total live) (positive : 0 < width) {gap : Nat}
    (aligned : width ∣ gap) (fits : gap + width ≤ total) (vacant : ¬ Covered width live gap) :
    Packed width total (gap :: live) := by
  refine ⟨List.nodup_cons.mpr ⟨?_, packed.unique⟩, ?_, ?_⟩
  · intro member
    exact vacant ⟨gap, member, Nat.le_refl _, by omega⟩
  · simpa using ⟨aligned, packed.aligned⟩
  · simpa using ⟨fits, packed.inside⟩

theorem packed_erase (packed : Packed width total live) (start : Nat) :
    Packed width total (live.erase start) :=
  ⟨packed.unique.erase start, fun s member => packed.aligned s (List.mem_of_mem_erase member),
    fun s member => packed.inside s (List.mem_of_mem_erase member)⟩

theorem covered_erase (packed : Packed width total live) {start : Nat} (member : start ∈ live)
    (cell : Nat) :
    Covered width (live.erase start) cell ↔
      Covered width live cell ∧ ¬ (start ≤ cell ∧ cell < start + width) := by
  constructor
  · rintro ⟨other, kept, low, high⟩
    obtain ⟨different, old⟩ := (packed.unique.mem_erase_iff).mp kept
    refine ⟨⟨other, old, low, high⟩, ?_⟩
    rintro ⟨low', high'⟩
    exact different (aligned_same (packed.aligned other old) (packed.aligned start member)
      (by omega) (by omega))
  · rintro ⟨⟨other, old, low, high⟩, outside⟩
    refine ⟨other, (packed.unique.mem_erase_iff).mpr ⟨?_, old⟩, low, high⟩
    rintro rfl
    exact outside ⟨low, high⟩

theorem live_places (packed : Packed width total live) (positive : 0 < width) :
    (live.map (· / width)).Nodup ∧ ∀ place ∈ live.map (· / width), place < total / width := by
  constructor
  · apply (List.nodup_map_iff_inj_on packed.unique).mpr
    intro left a right b same
    obtain ⟨i, rfl⟩ := packed.aligned left a
    obtain ⟨j, rfl⟩ := packed.aligned right b
    simp only [Nat.mul_div_cancel_left _ positive] at same
    rw [same]
  · intro place member
    obtain ⟨start, old, rfl⟩ := List.mem_map.mp member
    have fits := Nat.div_le_div_right (c := width) (packed.inside start old)
    rw [Nat.add_div_right _ positive] at fits
    exact fits

theorem room_iff (packed : Packed width total live) (positive : 0 < width) :
    live.length < total / width ↔
      ∃ gap, width ∣ gap ∧ gap + width ≤ total ∧ ¬ Covered width live gap := by
  obtain ⟨unique, below⟩ := live_places packed positive
  constructor
  · intro room
    by_contra full
    push Not at full
    -- If every place were covered, the live blocks would be as many as the places.
    have subset : List.range (total / width) ⊆ live.map (· / width) := by
      intro place member
      have bound := List.mem_range.mp member
      have fits : width * place + width ≤ total := by
        rw [← Nat.mul_succ]
        exact (Nat.mul_le_mul_left width bound).trans (Nat.mul_div_le total width)
      obtain ⟨start, old, low, high⟩ := full (width * place) (Nat.dvd_mul_right _ _) fits
      have same := aligned_same (packed.aligned start old) (Nat.dvd_mul_right width place)
        (by omega) (by omega)
      exact List.mem_map.mpr ⟨start, old, by rw [same, Nat.mul_div_cancel_left _ positive]⟩
    have count := List.nodup_range.length_le_of_subset subset
    simp only [List.length_range, List.length_map] at count
    omega
  · rintro ⟨gap, aligned, fits, vacant⟩
    have extended := live_places (packed_cons packed positive aligned fits vacant) positive
    -- Adding the vacant place keeps the blocks packed, so they still fit the places.
    have subset : ((gap :: live).map (· / width)) ⊆ List.range (total / width) :=
      fun place member => List.mem_range.mpr (extended.2 place member)
    have count := extended.1.length_le_of_subset subset
    simp only [List.length_range, List.length_map, List.length_cons] at count
    omega

end VmSim.AlignedBlocks
