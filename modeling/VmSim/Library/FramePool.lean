import Mathlib.Data.Finset.Card
import Mathlib.Logic.Function.Basic

/-!
A pool of frames lent to keys: a partial injective map, a dirty bit for every
key and the queue of the frames nobody holds. Frames are lent from the front
of the queue and come back at its end.
-/

namespace VmSim.FramePool

variable {Key Frame : Type} [DecidableEq Key]

@[ext] structure Pool (Key Frame : Type) where
  frame : Key → Option Frame
  dirty : Key → Bool
  free : List Frame

def lend (pool : Pool Key Frame) (key : Key) : Option (Pool Key Frame) :=
  match pool.free with
  | [] => none
  | frame :: rest => some
      { frame := Function.update pool.frame key (some frame)
        dirty := Function.update pool.dirty key false
        free := rest }

def giveBack (pool : Pool Key Frame) (key : Key) : Option (Pool Key Frame) :=
  (pool.frame key).map fun frame =>
    { frame := Function.update pool.frame key none
      dirty := Function.update pool.dirty key false
      free := pool.free ++ [frame] }

def touch (pool : Pool Key Frame) (key : Key) (write : Bool) : Pool Key Frame :=
  { pool with dirty := Function.update pool.dirty key (pool.dirty key || write) }

/-- The frames of `all` are free or lent, each once. -/
structure WellFormed (all : List Frame) (pool : Pool Key Frame) : Prop where
  injective : ∀ left right frame, pool.frame left = some frame →
    pool.frame right = some frame → left = right
  freeUnique : pool.free.Nodup
  split : ∀ frame, frame ∈ all ↔ frame ∈ pool.free ∨ ∃ key, pool.frame key = some frame
  apart : ∀ key frame, pool.frame key = some frame → frame ∉ pool.free
  clean : ∀ key, pool.frame key = none → pool.dirty key = false

variable {all : List Frame} {pool after : Pool Key Frame} {key : Key}

theorem lend_some (lent : lend pool key = some after) :
    ∃ frame rest, pool.free = frame :: rest ∧
      after = { frame := Function.update pool.frame key (some frame)
                dirty := Function.update pool.dirty key false
                free := rest } := by
  unfold lend at lent
  cases free : pool.free with
  | nil => simp [free] at lent
  | cons frame rest => exact ⟨frame, rest, rfl, by simpa [free] using lent.symm⟩

theorem lend_none : lend pool key = none ↔ pool.free = [] := by
  unfold lend
  cases pool.free <;> simp

theorem lend_wellformed (valid : WellFormed all pool) (absent : pool.frame key = none)
    (lent : lend pool key = some after) : WellFormed all after := by
  obtain ⟨frame, rest, free, rfl⟩ := lend_some lent
  have unique := valid.freeUnique
  rw [free, List.nodup_cons] at unique
  have unused : ∀ other, pool.frame other ≠ some frame :=
    fun other held => valid.apart other frame held (by simp [free])
  constructor
  · intro left right f a b
    simp only [Function.update_apply] at a b
    -- The frame taken from the free list is held by nobody, so two holders are old ones.
    split at a <;> split at b
    · simp_all
    · rw [← a] at b
      exact absurd b (unused right)
    · rw [← b] at a
      exact absurd a (unused left)
    · exact valid.injective left right f a b
  · exact unique.2
  · intro f
    rw [valid.split, free, List.mem_cons]
    constructor
    -- The first free frame moves to the key, the others stay free or held.
    · rintro ((rfl | later) | ⟨other, held⟩)
      · exact .inr ⟨key, by simp⟩
      · exact .inl later
      · refine .inr ⟨other, ?_⟩
        have distinct : other ≠ key := by
          rintro rfl
          simp [absent] at held
        exact (Function.update_of_ne distinct _ _).trans held
    · rintro (later | ⟨other, held⟩)
      · exact .inl (.inr later)
      · simp only [Function.update_apply] at held
        split at held
        · exact .inl (.inl (by simpa using held.symm))
        · exact .inr ⟨other, held⟩
  · intro other f held member
    simp only [Function.update_apply] at held
    split at held
    · injection held with same
      exact unique.1 (same ▸ member)
    · exact valid.apart other f held (by simp [free, member])
  · intro other gone
    simp only [Function.update_apply] at gone ⊢
    split at gone
    · cases gone
    · rename_i distinct
      rw [if_neg distinct]
      exact valid.clean other gone

theorem give_back_some (returned : giveBack pool key = some after) :
    ∃ frame, pool.frame key = some frame ∧
      after = { frame := Function.update pool.frame key none
                dirty := Function.update pool.dirty key false
                free := pool.free ++ [frame] } := by
  simp only [giveBack, Option.map_eq_some_iff] at returned
  obtain ⟨frame, held, rfl⟩ := returned
  exact ⟨frame, held, rfl⟩

theorem give_back_wellformed (valid : WellFormed all pool)
    (returned : giveBack pool key = some after) : WellFormed all after := by
  obtain ⟨frame, held, rfl⟩ := give_back_some returned
  have others : ∀ other f, Function.update pool.frame key none other = some f →
      other ≠ key ∧ pool.frame other = some f := by
    intro other f still
    simp only [Function.update_apply] at still
    split at still
    · cases still
    · rename_i distinct
      exact ⟨distinct, still⟩
  constructor
  · intro left right f a b
    exact valid.injective left right f (others left f a).2 (others right f b).2
  · have new := valid.apart key frame held
    simpa [List.nodup_append, valid.freeUnique] using
      fun f member (same : f = frame) => new (same ▸ member)
  · intro f
    rw [valid.split, List.mem_append, List.mem_singleton]
    constructor
    -- The frame goes to the end of the free list.
    · rintro (before | ⟨other, lent⟩)
      · exact .inl (.inl before)
      · by_cases same : other = key
        · subst same
          rw [held] at lent
          exact .inl (.inr (by simpa using lent.symm))
        · exact .inr ⟨other, (Function.update_of_ne same _ _).trans lent⟩
    · rintro ((before | rfl) | ⟨other, lent⟩)
      · exact .inl before
      · exact .inr ⟨key, held⟩
      · exact .inr ⟨other, (others other f lent).2⟩
  · intro other f still member
    obtain ⟨distinct, lent⟩ := others other f still
    rcases List.mem_append.mp member with before | last
    · exact valid.apart other f lent before
    · rw [List.mem_singleton] at last
      subst last
      exact distinct (valid.injective other key f lent held)
  · intro other gone
    by_cases same : other = key
    · subst same
      simp
    · exact (Function.update_of_ne same _ _).trans
        (valid.clean other ((Function.update_of_ne same _ _).symm.trans gone))

theorem touch_wellformed (valid : WellFormed all pool) {write : Bool}
    (present : pool.frame key ≠ none) : WellFormed all (touch pool key write) := by
  refine ⟨valid.injective, valid.freeUnique, valid.split, valid.apart, ?_⟩
  intro other gone
  have distinct : other ≠ key := fun same => present (same ▸ gone)
  simp only [touch, Function.update_of_ne distinct]
  exact valid.clean other gone

/-! Counting the keys that hold a frame. -/

structure Counted (total : Nat) (residents : Finset Key) (pool : Pool Key Frame) : Prop where
  holders : ∀ key, key ∈ residents ↔ ∃ frame, pool.frame key = some frame
  total : residents.card + pool.free.length = total

variable {total : Nat} {residents : Finset Key}

theorem lend_counted (counted : Counted total residents pool) (absent : pool.frame key = none)
    (lent : lend pool key = some after) : Counted total (insert key residents) after := by
  obtain ⟨frame, rest, free, rfl⟩ := lend_some lent
  have fresh : key ∉ residents := by
    rw [counted.holders]
    simp [absent]
  constructor
  · intro other
    by_cases same : other = key
    · subst same
      simp
    · simp [same, counted.holders]
  · have total := counted.total
    rw [Finset.card_insert_of_notMem fresh]
    simp only [free, List.length_cons] at total ⊢
    omega

theorem give_back_counted (counted : Counted total residents pool)
    (returned : giveBack pool key = some after) : Counted total (residents.erase key) after := by
  obtain ⟨frame, held, rfl⟩ := give_back_some returned
  have member : key ∈ residents := (counted.holders key).mpr ⟨frame, held⟩
  constructor
  · intro other
    by_cases same : other = key
    · subst same
      simp
    · simp [same, counted.holders]
  · have total := counted.total
    have positive := Finset.card_pos.mpr ⟨key, member⟩
    rw [Finset.card_erase_of_mem member]
    simp only [List.length_append, List.length_singleton]
    omega

theorem full_iff (counted : Counted total residents pool) (key : Key) :
    lend pool key = none ↔ residents.card = total := by
  have sum := counted.total
  rw [lend_none, ← List.length_eq_zero_iff]
  omega

end VmSim.FramePool
