import Mathlib.Data.List.Basic
import Mathlib.Data.List.Nodup
import Mathlib.Logic.Function.Basic

/-!
Doubly linked chains threaded through an indexed store by two partial links.
A segment runs from a first cell to the pointer behind its last cell; a chain
is a segment that runs to `none`. The edits of a list at its tail and in its
middle are edits of segments, and a segment only reads the links of the cells
it visits.
-/

namespace VmSim.LinkedChain

variable {Cell : Type} {next prev next' prev' : Cell → Option Cell}

/-- `path` from `first` to the pointer `after`, entered from `before`. -/
def Segment (next prev : Cell → Option Cell) :
    Option Cell → Option Cell → List Cell → Option Cell → Prop
  | _, first, [], after => first = after
  | before, first, cell :: rest, after =>
      first = some cell ∧ prev cell = before ∧ Segment next prev (some cell) (next cell) rest after

def Linked (next prev : Cell → Option Cell) (head : Option Cell) (path : List Cell) : Prop :=
  Segment next prev none head path none

/-- The cell a segment of cells `path` entered from `before` leaves from. -/
def lastOr (before : Option Cell) (path : List Cell) : Option Cell := path.getLast?.or before

@[simp] theorem last_or_nil (before : Option Cell) : lastOr before [] = before := rfl

@[simp] theorem last_or_concat (before : Option Cell) (path : List Cell) (cell : Cell) :
    lastOr before (path ++ [cell]) = some cell := by
  simp [lastOr]

theorem last_or_cons (before : Option Cell) (cell : Cell) (rest : List Cell) :
    lastOr before (cell :: rest) = lastOr (some cell) rest := by
  cases rest with
  | nil => rfl
  | cons other rest => simp [lastOr, List.getLast?_cons]

theorem segment_append (before first : Option Cell) (left right : List Cell)
    (after : Option Cell) :
    Segment next prev before first (left ++ right) after ↔
      ∃ middle, Segment next prev before first left middle ∧
        Segment next prev (lastOr before left) middle right after := by
  induction left generalizing before first with
  | nil => simp [Segment]
  | cons cell left ih => simp [Segment, ih, last_or_cons, and_assoc]

theorem segment_congr {before first : Option Cell} {path : List Cell} {after : Option Cell}
    (segment : Segment next prev before first path after)
    (sameNext : ∀ cell ∈ path, next' cell = next cell)
    (samePrev : ∀ cell ∈ path, prev' cell = prev cell) :
    Segment next' prev' before first path after := by
  induction path generalizing before first with
  | nil => exact segment
  | cons cell rest ih =>
      obtain ⟨here, back, tail⟩ := segment
      refine ⟨here, (samePrev cell (by simp)).trans back, ?_⟩
      rw [sameNext cell (by simp)]
      exact ih tail (fun c member => sameNext c (by simp [member]))
        (fun c member => samePrev c (by simp [member]))

theorem segment_redirect {before first : Option Cell} {path : List Cell} {after : Option Cell}
    (segment : Segment next prev before first path after) (unique : path.Nodup)
    (target : Option Cell)
    (others : ∀ cell ∈ path, some cell ≠ path.getLast? → next' cell = next cell)
    (last : ∀ cell, path.getLast? = some cell → next' cell = target)
    (samePrev : ∀ cell ∈ path, prev' cell = prev cell) (nonempty : path ≠ []) :
    Segment next' prev' before first path target := by
  obtain ⟨front, cell, rfl⟩ := List.eq_nil_or_concat path |>.resolve_left nonempty
  have fresh : cell ∉ front := by
    have parts := List.nodup_append.mp (by simpa using unique)
    exact fun member => parts.2.2 cell member cell (by simp) rfl
  rw [List.concat_eq_append] at *
  obtain ⟨middle, left, here, back, -⟩ := (segment_append _ _ _ _ _).mp segment
  refine (segment_append _ _ _ _ _).mpr ⟨middle, segment_congr left ?_ ?_, here, ?_, ?_⟩
  · intro c member
    apply others c (by simp [member])
    rw [List.getLast?_concat]
    rintro ⟨⟩
    exact fresh member
  · exact fun c member => samePrev c (by simp [member])
  · exact (samePrev cell (by simp)).trans back
  · exact last cell (by simp)

theorem segment_reenter {before first : Option Cell} {path : List Cell} {after : Option Cell}
    (segment : Segment next prev before first path after) (unique : path.Nodup)
    (entry : Option Cell)
    (others : ∀ cell ∈ path, some cell ≠ path.head? → prev' cell = prev cell)
    (head : ∀ cell, path.head? = some cell → prev' cell = entry)
    (sameNext : ∀ cell ∈ path, next' cell = next cell) :
    Segment next' prev' entry first path after := by
  cases path with
  | nil => exact segment
  | cons cell rest =>
      obtain ⟨here, -, tail⟩ := segment
      have fresh := (List.nodup_cons.mp unique).1
      refine ⟨here, head cell rfl, ?_⟩
      rw [sameNext cell (by simp)]
      apply segment_congr tail (fun c member => sameNext c (by simp [member]))
      intro c member
      apply others c (by simp [member])
      rintro ⟨⟩
      exact fresh member

theorem linked_middle {head : Option Cell} {left right : List Cell} {cell : Cell}
    (linked : Linked next prev head (left ++ cell :: right)) :
    prev cell = left.getLast? ∧ next cell = right.head? ∧
      Segment next prev none head left (some cell) ∧
      Segment next prev (some cell) (next cell) right none := by
  obtain ⟨middle, front, here, back, rest⟩ := (segment_append _ _ _ _ _).mp linked
  refine ⟨by simpa [lastOr] using back, ?_, here ▸ front, rest⟩
  cases right with
  | nil => exact rest
  | cons other right => exact rest.1

/-- Appending a fresh cell: the old tail points forward to it and it points back. -/
theorem linked_append {head : Option Cell} {path : List Cell} {new : Cell}
    (linked : Linked next prev head path) (unique : path.Nodup)
    (others : ∀ cell ∈ path, some cell ≠ path.getLast? → next' cell = next cell)
    (tail : ∀ cell, path.getLast? = some cell → next' cell = some new)
    (samePrev : ∀ cell ∈ path, prev' cell = prev cell)
    (newPrev : prev' new = path.getLast?) (newNext : next' new = none) :
    Linked next' prev' (if path = [] then some new else head) (path ++ [new]) := by
  apply (segment_append _ _ _ _ _).mpr
  by_cases empty : path = []
  · subst empty
    exact ⟨some new, rfl, rfl, newPrev, newNext⟩
  · rw [if_neg empty]
    exact ⟨some new, segment_redirect linked unique (some new) others tail samePrev empty,
      rfl, by simpa [lastOr] using newPrev, newNext⟩

/-- Unlinking a cell: its neighbours are joined, every other link stays. -/
theorem linked_unlink {head : Option Cell} {left right : List Cell} {cell : Cell}
    (linked : Linked next prev head (left ++ cell :: right))
    (unique : (left ++ cell :: right).Nodup)
    (sameNext : ∀ c ∈ left ++ right, some c ≠ left.getLast? → next' c = next c)
    (joinNext : ∀ c, left.getLast? = some c → next' c = right.head?)
    (samePrev : ∀ c ∈ left ++ right, some c ≠ right.head? → prev' c = prev c)
    (joinPrev : ∀ c, right.head? = some c → prev' c = left.getLast?) :
    Linked next' prev' (if left = [] then right.head? else head) (left ++ right) := by
  obtain ⟨-, forward, front, back⟩ := linked_middle linked
  obtain ⟨leftUnique, restUnique, apart⟩ := List.nodup_append.mp unique
  have rightUnique := (List.nodup_cons.mp restUnique).2
  have disjoint : ∀ c ∈ left, c ∉ right :=
    fun c inLeft inRight => apart c inLeft c (by simp [inRight]) rfl
  -- The right part is entered from the last cell of the left part instead of the removed cell.
  have rejoined : Segment next' prev' (lastOr none left) right.head? right none := by
    rw [forward] at back
    apply segment_reenter back rightUnique
    · exact fun c member distinct => samePrev c (by simp [member]) distinct
    · intro c first
      simpa [lastOr] using joinPrev c first
    · intro c member
      apply sameNext c (by simp [member])
      intro isLast
      exact disjoint c (List.mem_of_getLast? isLast.symm) member
  apply (segment_append _ _ _ _ _).mpr
  -- With no left part it is the head that has to move.
  by_cases empty : left = []
  · subst empty
    exact ⟨right.head?, rfl, rejoined⟩
  · rw [if_neg empty]
    refine ⟨right.head?, segment_redirect front leftUnique _ ?_ joinNext ?_ empty, rejoined⟩
    · exact fun c member distinct => sameNext c (by simp [member]) distinct
    · intro c member
      apply samePrev c (by simp [member])
      intro isHead
      exact disjoint c member (List.mem_of_mem_head? isHead.symm)

/-! Chains with forward links alone. -/

def Forward (next : Cell → Option Cell) : Option Cell → List Cell → Prop
  | first, [] => first = none
  | first, cell :: rest => first = some cell ∧ Forward next (next cell) rest

theorem forward_congr {first : Option Cell} {path : List Cell} (forward : Forward next first path)
    (same : ∀ cell ∈ path, next' cell = next cell) : Forward next' first path := by
  induction path generalizing first with
  | nil => exact forward
  | cons cell rest ih =>
      refine ⟨forward.1, ?_⟩
      rw [same cell (by simp)]
      exact ih forward.2 fun c member => same c (by simp [member])

theorem forward_append {first : Option Cell} {path : List Cell} {new : Cell}
    (forward : Forward next first path) (unique : path.Nodup)
    (others : ∀ cell ∈ path, some cell ≠ path.getLast? → next' cell = next cell)
    (last : ∀ cell, path.getLast? = some cell → next' cell = some new) (newNext : next' new = none) :
    Forward next' (if path = [] then some new else first) (path ++ [new]) := by
  induction path generalizing first with
  | nil => exact ⟨rfl, newNext⟩
  | cons cell rest ih =>
      obtain ⟨fresh, uniqueRest⟩ := List.nodup_cons.mp unique
      refine ⟨by simpa using forward.1, ?_⟩
      by_cases empty : rest = []
      · subst empty
        exact ⟨last cell rfl, newNext⟩
      · have same : (cell :: rest).getLast? = rest.getLast? := by
          rw [List.getLast?_cons_of_ne_nil empty]
        have inner := ih forward.2 uniqueRest
          (fun c member other => others c (by simp [member]) (by rwa [same]))
          (fun c isLast => last c (by rw [same, isLast]))
        have notLast : some cell ≠ (cell :: rest).getLast? := by
          rw [same]
          exact fun isLast => fresh (List.mem_of_getLast? isLast.symm)
        rw [if_neg empty] at inner
        rw [others cell (by simp) notLast]
        exact inner

end VmSim.LinkedChain
