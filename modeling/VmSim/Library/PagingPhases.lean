import VmSim.Library.DemandPaging

/-!
The actions of a demand paging store in parts. An eviction first copies the frame
to the slot and then gives the frame back; a load first takes a frame and then
fills it; a write marks the key and then changes the frame. Others may look on in
between, so each part says what of the written values is where.
-/

namespace VmSim.DemandPaging
open FramePool

variable {Key Frame Slot Offset Value : Type} [DecidableEq Key]
variable {all : List Frame} {s : Store Key Frame Slot Offset Value} {key : Key}
variable {written : Key → Offset → Option Value}

def Flushed (written : Key → Offset → Option Value) (s : Store Key Frame Slot Offset Value)
    (key : Key) : Prop :=
  ∀ slot, s.backing key = some slot → ∀ offset value,
    written key offset = some value → s.disk slot offset = some value

/-- The written values are kept but for one key, whose frame may hold anything. -/
structure PreservesBut (written : Key → Offset → Option Value)
    (s : Store Key Frame Slot Offset Value) (key : Key) : Prop where
  resident : ∀ other frame, other ≠ key → s.pool.frame other = some frame → ∀ offset value,
    written other offset = some value → s.memory frame offset = some value
  stored : ∀ other slot, other ≠ key → s.backing other = some slot →
    (s.pool.frame other = none ∨ s.pool.dirty other = false) → ∀ offset value,
    written other offset = some value → s.disk slot offset = some value
  flushed : Flushed written s key

def dropFrame (s : Store Key Frame Slot Offset Value) (key : Key) :
    Store Key Frame Slot Offset Value :=
  { s with pool := (giveBack s.pool key).getD s.pool }

def takeFrame (s : Store Key Frame Slot Offset Value) (key : Key) :
    Store Key Frame Slot Offset Value :=
  { s with pool := (lend s.pool key).getD s.pool }

omit [DecidableEq Key] in
theorem clean_flushed (preserves : Preserves written s)
    (clean : s.pool.frame key = none ∨ s.pool.dirty key = false) : Flushed written s key :=
  fun slot backed => preserves.stored key slot backed clean

section Slots
variable [DecidableEq Slot]

def copyBack (s : Store Key Frame Slot Offset Value) (key : Key) :
    Store Key Frame Slot Offset Value :=
  { s with disk := writeBack s key }

omit [DecidableEq Key] in
theorem copy_back_layout (layout : Layout all s) : Layout all (copyBack s key) :=
  ⟨layout.pool, layout.backed, layout.separate⟩

omit [DecidableEq Key] in
theorem copy_back_preserves (layout : Layout all s) (preserves : Preserves written s)
    (held : s.pool.frame key ≠ none) :
    Preserves written (copyBack s key) ∧ Flushed written (copyBack s key) key := by
  obtain ⟨frame, mine⟩ := Option.ne_none_iff_exists'.mp held
  have flushed : Flushed written (copyBack s key) key := by
    intro slot backed offset value here
    change writeBack s key slot offset = some value
    cases dirty : s.pool.dirty key with
    | false =>
        rw [write_back_clean dirty]
        exact preserves.stored key slot backed (.inr dirty) offset value here
    | true =>
        rw [write_back_dirty dirty mine backed, Function.update_self]
        exact preserves.resident key frame mine offset value here
  refine ⟨⟨preserves.resident, fun other slot backed free => ?_⟩, flushed⟩
  by_cases same : other = key
  · subst same
    exact flushed slot backed
  · intro offset value here
    change writeBack s key slot offset = some value
    rw [write_back_other layout same backed]
    exact preserves.stored other slot backed free offset value here

end Slots

theorem drop_layout (layout : Layout all s) : Layout all (dropFrame s key) :=
  ⟨given_back_wellformed layout.pool key,
    fun other frame held => layout.backed other frame (given_back_before held).2, layout.separate⟩

theorem drop_preserves (layout : Layout all s) (preserves : Preserves written s)
    (flushed : Flushed written s key) : Preserves written (dropFrame s key) := by
  refine ⟨fun other frame held => preserves.resident other frame (given_back_before held).2,
    fun other slot backed free => ?_⟩
  by_cases same : other = key
  · subst same
    exact flushed slot backed
  · refine preserves.stored other slot backed ?_
    simpa only [dropFrame, given_back_frame, given_back_dirty layout.pool,
      Function.update_of_ne same] using free

theorem take_layout (layout : Layout all s) (absent : s.pool.frame key = none)
    (backed : s.backing key ≠ none) : Layout all (takeFrame s key) := by
  refine ⟨lent_wellformed layout.pool absent, fun other frame held => ?_, layout.separate⟩
  by_cases same : other = key
  · subst same
    exact Option.ne_none_iff_exists'.mp backed
  · have before := (lent_other layout.pool absent same).1.symm.trans held
    exact layout.backed other frame before

theorem take_preserves_but (layout : Layout all s) (preserves : Preserves written s)
    (absent : s.pool.frame key = none) : PreservesBut written (takeFrame s key) key := by
  refine ⟨fun other frame apart held => ?_, fun other slot apart backed free => ?_,
    fun slot backed => preserves.stored key slot backed (.inl absent)⟩
  · exact preserves.resident other frame ((lent_other layout.pool absent apart).1.symm.trans held)
  · obtain ⟨frames, marks⟩ := lent_other layout.pool absent apart
    refine preserves.stored other slot backed ?_
    simpa only [takeFrame, frames, marks] using free

theorem fill_preserves [DecidableEq Frame] (layout : Layout all s) {frame : Frame} {slot : Slot}
    (but : PreservesBut written s key) (held : s.pool.frame key = some frame)
    (backed : s.backing key = some slot) :
    Preserves written { s with memory := Function.update s.memory frame (s.disk slot) } := by
  constructor
  · intro other place there offset value here
    by_cases same : other = key
    · subst same
      rw [held] at there
      cases there
      simpa using but.flushed slot backed offset value here
    · have apart : place ≠ frame := by
        rintro rfl
        exact same (layout.pool.injective other key place there held)
      simpa only [Function.update_of_ne apart] using
        but.resident other place same there offset value here
  · intro other place there free
    by_cases same : other = key
    · subst same
      rw [backed] at there
      cases there
      exact but.flushed slot backed
    · exact but.stored other place same there free

theorem touch_layout {write : Bool} (layout : Layout all s) (held : s.pool.frame key ≠ none) :
    Layout all { s with pool := touch s.pool key write } :=
  ⟨touch_wellformed layout.pool held, layout.backed, layout.separate⟩

theorem touch_preserves {write : Bool} (preserves : Preserves written s) :
    Preserves written { s with pool := touch s.pool key write } := by
  refine ⟨preserves.resident, fun other slot backed free => preserves.stored other slot backed ?_⟩
  refine free.imp_right fun clean => ?_
  by_cases same : other = key
  · subst same
    simp only [touch, Function.update_self, Bool.or_eq_false_iff] at clean
    exact clean.1
  · simpa only [touch, Function.update_of_ne same] using clean

theorem copy_preserves [DecidableEq Frame] [DecidableEq Slot] (layout : Layout all s)
    (preserves : Preserves written s) (held : s.pool.frame key ≠ none)
    (marked : s.pool.dirty key = true) (change : Offset → Option Value) :
    Preserves ((Action.write key change : Action Key Slot Offset Value).record written)
      { s with memory := writeFrame s key change } := by
  have same : touch s.pool key true = s.pool := by
    have marks : Function.update s.pool.dirty key (s.pool.dirty key || true) = s.pool.dirty :=
      Function.update_eq_self_iff.mpr (by simp [marked])
    simp only [touch, marks]
  have enabled : (Action.write key change : Action Key Slot Offset Value).Enabled s := held
  have kept : Preserves _ ((Action.write key change).apply s) := write_preserves layout preserves enabled
  simpa only [Action.apply, same] using kept

end VmSim.DemandPaging
