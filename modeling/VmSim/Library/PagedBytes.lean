import Mathlib.Data.List.Basic
import Mathlib.Logic.Function.Basic

/-!
A flat array cut into pages of `size` cells. `slice` and `overwrite` are the
two directions of a block copy at a flat position; the lemmas restate them by
page and offset, where a copy inside one page leaves every other page alone.
-/

namespace VmSim.PagedBytes

variable {α : Type}

def slice (cells : List α) (start count : Nat) : List α := (cells.drop start).take count

def overwrite (cells : List α) (start : Nat) (source : List α) : List α :=
  cells.take start ++ source ++ cells.drop (start + source.length)

/-- The cell at `offset` of page `page`; nothing lies past the end of a page. -/
def pageCell (cells : List α) (size page offset : Nat) : Option α :=
  if offset < size then cells[page * size + offset]? else none

def pageSlice (cells : List α) (size page : Nat) : List α := slice cells (page * size) size

theorem slice_get (cells : List α) (start count i : Nat) :
    (slice cells start count)[i]? = if i < count then cells[start + i]? else none := by
  unfold slice
  split
  · rename_i inside
    rw [List.getElem?_take_of_lt inside, List.getElem?_drop]
  · rename_i outside
    exact List.getElem?_eq_none (by simp; omega)

theorem slice_length {cells : List α} {start count : Nat} (fits : start + count ≤ cells.length) :
    (slice cells start count).length = count := by
  simp only [slice, List.length_take, List.length_drop]
  omega

theorem overwrite_length {cells source : List α} {start : Nat}
    (fits : start + source.length ≤ cells.length) :
    (overwrite cells start source).length = cells.length := by
  simp only [overwrite, List.length_append, List.length_take, List.length_drop]
  omega

theorem overwrite_get {cells source : List α} {start : Nat}
    (fits : start + source.length ≤ cells.length) (i : Nat) :
    (overwrite cells start source)[i]? =
      if start ≤ i ∧ i < start + source.length then source[i - start]? else cells[i]? := by
  have front : (cells.take start).length = start := by simp; omega
  have middle : (cells.take start ++ source).length = start + source.length := by simp; omega
  unfold overwrite
  by_cases early : i < start
  · rw [List.getElem?_append_left (by omega), List.getElem?_append_left (by omega),
      List.getElem?_take_of_lt early, if_neg (by omega)]
  · by_cases late : i < start + source.length
    · rw [List.getElem?_append_left (by omega), List.getElem?_append_right (by omega), front,
        if_pos ⟨by omega, late⟩]
    · rw [List.getElem?_append_right (by omega), middle, List.getElem?_drop, if_neg (by omega)]
      congr 1
      omega

theorem page_end_le (size : Nat) {pages page : Nat} (inside : page < pages) :
    page * size + size ≤ pages * size := by
  rw [← Nat.succ_mul]
  exact Nat.mul_le_mul_right size inside

theorem flat_injective {size left right i j : Nat} (a : i < size) (b : j < size) :
    left * size + i = right * size + j ↔ left = right ∧ i = j := by
  constructor
  · intro same
    have pages := congrArg (· / size) same
    have positive : 0 < size := by omega
    simp only [Nat.mul_comm _ size, Nat.mul_add_div positive, Nat.div_eq_of_lt a,
      Nat.div_eq_of_lt b, Nat.add_zero] at pages
    subst pages
    exact ⟨rfl, by omega⟩
  · rintro ⟨rfl, rfl⟩
    rfl

theorem page_slice_get (cells : List α) (size page i : Nat) :
    (pageSlice cells size page)[i]? = pageCell cells size page i :=
  slice_get cells (page * size) size i

theorem read_in_page (cells : List α) {size page offset count : Nat}
    (inside : offset + count ≤ size) {i : Nat} (bound : i < count) :
    (slice cells (page * size + offset) count)[i]? = pageCell cells size page (offset + i) := by
  have small : offset + i < size := by omega
  rw [slice_get, if_pos bound, pageCell, if_pos small, Nat.add_assoc]

theorem write_in_page {cells source : List α} {size page offset : Nat}
    (inside : offset + source.length ≤ size)
    (fits : page * size + offset + source.length ≤ cells.length) (other i : Nat) :
    pageCell (overwrite cells (page * size + offset) source) size other i =
      if other = page ∧ offset ≤ i ∧ i < offset + source.length then source[i - offset]?
      else pageCell cells size other i := by
  unfold pageCell
  by_cases bound : i < size
  · rw [if_pos bound, if_pos bound, overwrite_get fits]
    by_cases here : other = page ∧ offset ≤ i ∧ i < offset + source.length
    · obtain ⟨rfl, low, high⟩ := here
      rw [if_pos ⟨by omega, by omega⟩, if_pos ⟨rfl, low, high⟩]
      congr 1
      omega
    · rw [if_neg here, if_neg]
      rintro ⟨low, high⟩
      have position : other * size + i = page * size +
          (other * size + i - page * size) := by omega
      obtain ⟨rfl, -⟩ := (flat_injective bound (by omega)).mp position
      exact here ⟨rfl, by omega, by omega⟩
  · rw [if_neg bound, if_neg bound, if_neg]
    omega

theorem copy_page {target source : List α} {size page origin : Nat}
    (fits : page * size + size ≤ target.length) (there : origin * size + size ≤ source.length) :
    pageCell (overwrite target (page * size) (pageSlice source size origin)) size =
      Function.update (pageCell target size) page (pageCell source size origin) := by
  have length : (pageSlice source size origin).length = size := slice_length there
  have inside : 0 + (pageSlice source size origin).length ≤ size := by omega
  have whole : page * size + 0 + (pageSlice source size origin).length ≤ target.length := by omega
  funext other i
  have written := write_in_page inside whole other i
  rw [Nat.add_zero] at written
  rw [written, length, page_slice_get]
  by_cases same : other = page
  · subst same
    rw [Function.update_self]
    by_cases bound : i < size
    · simp [bound]
    · simp [pageCell, bound]
  · simp [same]

theorem overwrite_page {cells source : List α} {size page : Nat} (length : source.length = size)
    (fits : page * size + size ≤ cells.length) (other : Nat) :
    pageSlice (overwrite cells (page * size) source) size other =
      if other = page then source else pageSlice cells size other := by
  have inside : 0 + source.length ≤ size := by omega
  have whole : page * size + 0 + source.length ≤ cells.length := by omega
  apply List.ext_getElem?
  intro i
  have written := write_in_page inside whole other i
  rw [Nat.add_zero] at written
  rw [page_slice_get, written]
  by_cases same : other = page
  · subst same
    by_cases bound : i < size
    · simp [length, bound]
    · simp [length, bound, pageCell]
  · simp [same, page_slice_get]

end VmSim.PagedBytes
