import VmSim.Library.FramePool

/-!
Demand paging over any keys, frames, slots and values. A key has a backing
slot from its allocation to its release and is resident while the pool lends
it a frame. Loading copies the slot into the frame, evicting a dirty key
copies the frame back and evicting a clean one drops it. `writtenBy` is what
the keys hold by their history; `Preserves` says that frame and slot carry it
wherever it can still be read from.
-/

namespace VmSim.DemandPaging
open FramePool

variable {Key Frame Slot Offset Value : Type}

@[ext] structure Store (Key Frame Slot Offset Value : Type) where
  pool : Pool Key Frame
  backing : Key → Option Slot
  memory : Frame → Offset → Option Value
  disk : Slot → Offset → Option Value

/-- `change` gives the new values of a write and `none` where it writes nothing. -/
inductive Action (Key Slot Offset Value : Type) where
  | alloc (key : Key) (slot : Slot)
  | release (key : Key)
  | evict (key : Key)
  | load (key : Key)
  | write (key : Key) (change : Offset → Option Value)
  | read (key : Key)

section Defs
variable [DecidableEq Key] [DecidableEq Frame] [DecidableEq Slot]

def Action.Enabled (s : Store Key Frame Slot Offset Value) :
    Action Key Slot Offset Value → Prop
  | .alloc key slot => s.backing key = none ∧ ∀ other, s.backing other ≠ some slot
  | .release key => s.backing key ≠ none
  | .evict key => s.pool.frame key ≠ none
  | .load key => s.pool.frame key = none ∧ s.backing key ≠ none ∧ s.pool.free ≠ []
  | .write key _ => s.pool.frame key ≠ none
  | .read key => s.pool.frame key ≠ none

def writeBack (s : Store Key Frame Slot Offset Value) (key : Key) : Slot → Offset → Option Value :=
  match s.pool.dirty key, s.pool.frame key, s.backing key with
  | true, some frame, some slot => Function.update s.disk slot (s.memory frame)
  | _, _, _ => s.disk

def fill (s : Store Key Frame Slot Offset Value) (pool : Pool Key Frame) (key : Key) :
    Frame → Offset → Option Value :=
  match pool.frame key, s.backing key with
  | some frame, some slot => Function.update s.memory frame (s.disk slot)
  | _, _ => s.memory

def writeFrame (s : Store Key Frame Slot Offset Value) (key : Key) (change : Offset → Option Value) :
    Frame → Offset → Option Value :=
  match s.pool.frame key with
  | some frame => Function.update s.memory frame fun offset =>
      (change offset).or (s.memory frame offset)
  | none => s.memory

def Action.apply (s : Store Key Frame Slot Offset Value) :
    Action Key Slot Offset Value → Store Key Frame Slot Offset Value
  | .alloc key slot =>
      { s with
        pool := (lend s.pool key).getD s.pool
        backing := Function.update s.backing key (some slot) }
  | .release key =>
      { s with
        pool := (giveBack s.pool key).getD s.pool
        backing := Function.update s.backing key none }
  | .evict key => { s with pool := (giveBack s.pool key).getD s.pool, disk := writeBack s key }
  | .load key =>
      { s with
        pool := (lend s.pool key).getD s.pool
        memory := fill s ((lend s.pool key).getD s.pool) key }
  | .write key change => { s with pool := touch s.pool key true, memory := writeFrame s key change }
  | .read key => { s with pool := touch s.pool key false }

/-- The values written since the key was last allocated, from a history with the
latest action first. -/
def writtenBy : List (Action Key Slot Offset Value) → Key → Offset → Option Value
  | [], _, _ => none
  | .alloc key _ :: past, other, offset =>
      if other = key then none else writtenBy past other offset
  | .write key change :: past, other, offset =>
      if other = key then (change offset).or (writtenBy past other offset)
      else writtenBy past other offset
  | _ :: past, other, offset => writtenBy past other offset

structure Layout (all : List Frame) (s : Store Key Frame Slot Offset Value) : Prop where
  pool : WellFormed all s.pool
  backed : ∀ key frame, s.pool.frame key = some frame → ∃ slot, s.backing key = some slot
  separate : ∀ left right slot, s.backing left = some slot → s.backing right = some slot →
    left = right

/-- Every written value is in the frame of its key and, where the frame may be
dropped or is not there, in the slot. -/
structure Preserves (written : Key → Offset → Option Value)
    (s : Store Key Frame Slot Offset Value) : Prop where
  resident : ∀ key frame, s.pool.frame key = some frame → ∀ offset value,
    written key offset = some value → s.memory frame offset = some value
  stored : ∀ key slot, s.backing key = some slot →
    (s.pool.frame key = none ∨ s.pool.dirty key = false) → ∀ offset value,
    written key offset = some value → s.disk slot offset = some value

def Synced (s : Store Key Frame Slot Offset Value) : Prop :=
  ∀ key frame slot, s.pool.frame key = some frame → s.backing key = some slot →
    s.pool.dirty key = false → s.memory frame = s.disk slot

end Defs

section Pools
variable [DecidableEq Key] {all : List Frame} {pool : Pool Key Frame} {key : Key}

theorem given_back_frame (pool : Pool Key Frame) (key : Key) :
    ((giveBack pool key).getD pool).frame = Function.update pool.frame key none := by
  cases held : pool.frame key with
  | none => simp [giveBack, held]
  | some frame => simp [giveBack, held]

theorem given_back_dirty (valid : WellFormed all pool) (key : Key) :
    ((giveBack pool key).getD pool).dirty = Function.update pool.dirty key false := by
  cases held : pool.frame key with
  | none =>
      have clean := valid.clean key held
      simpa [giveBack, held] using (Function.update_eq_self_iff.mpr clean.symm).symm
  | some frame => simp [giveBack, held]

theorem given_back_wellformed (valid : WellFormed all pool) (key : Key) :
    WellFormed all ((giveBack pool key).getD pool) := by
  cases returned : giveBack pool key with
  | none => exact valid
  | some after => exact give_back_wellformed valid returned

theorem lent_wellformed (valid : WellFormed all pool) (absent : pool.frame key = none) :
    WellFormed all ((lend pool key).getD pool) := by
  cases lent : lend pool key with
  | none => exact valid
  | some after => exact lend_wellformed valid absent lent

theorem lent_cases (valid : WellFormed all pool) (absent : pool.frame key = none) :
    (pool.free = [] ∧ (lend pool key).getD pool = pool) ∨
      ∃ frame, frame ∈ pool.free ∧ (∀ other, pool.frame other ≠ some frame) ∧
        ((lend pool key).getD pool).frame = Function.update pool.frame key (some frame) ∧
        ((lend pool key).getD pool).dirty = pool.dirty := by
  cases lent : lend pool key with
  | none => exact .inl ⟨lend_none.mp lent, rfl⟩
  | some after =>
      obtain ⟨frame, rest, free, rfl⟩ := lend_some lent
      have member : frame ∈ pool.free := by simp [free]
      refine .inr ⟨frame, member, fun other held => valid.apart other frame held member, rfl, ?_⟩
      exact Function.update_eq_self_iff.mpr (valid.clean key absent).symm

theorem given_back_before {other : Key} {frame : Frame}
    (held : ((giveBack pool key).getD pool).frame other = some frame) :
    other ≠ key ∧ pool.frame other = some frame := by
  rw [given_back_frame, Function.update_apply] at held
  split at held
  · cases held
  · exact ⟨‹_›, held⟩

theorem lent_other (valid : WellFormed all pool) (absent : pool.frame key = none) {other : Key}
    (apart : other ≠ key) :
    ((lend pool key).getD pool).frame other = pool.frame other ∧
      ((lend pool key).getD pool).dirty other = pool.dirty other := by
  rcases lent_cases valid absent with ⟨-, kept⟩ | ⟨new, -, -, frames, marks⟩
  · rw [kept]
    exact ⟨rfl, rfl⟩
  · rw [frames, marks]
    exact ⟨Function.update_of_ne apart .., rfl⟩

end Pools

section Histories
variable [DecidableEq Key]

def Action.record (written : Key → Offset → Option Value) :
    Action Key Slot Offset Value → Key → Offset → Option Value
  | .alloc key _ => Function.update written key fun _ => none
  | .write key change => Function.update written key fun offset =>
      (change offset).or (written key offset)
  | _ => written

theorem written_by_cons (action : Action Key Slot Offset Value)
    (past : List (Action Key Slot Offset Value)) :
    writtenBy (action :: past) = action.record (writtenBy past) := by
  funext other offset
  cases action <;> simp only [writtenBy, Action.record, Function.update_apply]
  all_goals
    split
    · simp_all
    · rfl

end Histories

section Steps
variable {all : List Frame} {s : Store Key Frame Slot Offset Value}

theorem alloc_absent {key : Key} {slot : Slot} (layout : Layout all s)
    (enabled : (Action.alloc key slot : Action Key Slot Offset Value).Enabled s) :
    s.pool.frame key = none := by
  cases held : s.pool.frame key with
  | none => rfl
  | some frame =>
      obtain ⟨slot, backed⟩ := layout.backed key frame held
      rw [enabled.1] at backed
      cases backed

variable [DecidableEq Slot]

theorem write_back_clean {key : Key} (clean : s.pool.dirty key = false) :
    writeBack s key = s.disk := by
  simp [writeBack, clean]

theorem write_back_dirty {key : Key} {frame : Frame} {slot : Slot}
    (dirty : s.pool.dirty key = true) (held : s.pool.frame key = some frame)
    (backed : s.backing key = some slot) :
    writeBack s key = Function.update s.disk slot (s.memory frame) := by
  simp [writeBack, dirty, held, backed]

theorem write_back_other (layout : Layout all s) {key other : Key} {slot : Slot}
    (distinct : other ≠ key) (backed : s.backing other = some slot) :
    writeBack s key slot = s.disk slot := by
  cases dirty : s.pool.dirty key with
  | false => rw [write_back_clean dirty]
  | true =>
      cases held : s.pool.frame key with
      | none => simp [writeBack, held]
      | some frame =>
          cases own : s.backing key with
          | none => simp [writeBack, own]
          | some slot' =>
              have apart : slot ≠ slot' := by
                rintro rfl
                exact distinct (layout.separate other key slot backed own)
              rw [write_back_dirty dirty held own, Function.update_of_ne apart]

theorem write_back_own {key : Key} {frame : Frame} {slot : Slot}
    (held : s.pool.frame key = some frame) (backed : s.backing key = some slot) :
    writeBack s key slot = if s.pool.dirty key then s.memory frame else s.disk slot := by
  cases dirty : s.pool.dirty key with
  | true => simp [write_back_dirty dirty held backed]
  | false => simp [write_back_clean dirty]

variable [DecidableEq Key] [DecidableEq Frame]

structure Loads (s : Store Key Frame Slot Offset Value) (key : Key) (slot : Slot) (new : Frame) :
    Prop where
  absent : s.pool.frame key = none
  backed : s.backing key = some slot
  unused : ∀ other, s.pool.frame other ≠ some new
  frames : ((lend s.pool key).getD s.pool).frame = Function.update s.pool.frame key (some new)
  marks : ((lend s.pool key).getD s.pool).dirty = s.pool.dirty
  filled : fill s ((lend s.pool key).getD s.pool) key = Function.update s.memory new (s.disk slot)

omit [DecidableEq Slot] in
theorem load_loads (layout : Layout all s) {key : Key}
    (enabled : (Action.load key : Action Key Slot Offset Value).Enabled s) :
    ∃ slot new, Loads s key slot new := by
  obtain ⟨absent, allocated, room⟩ := enabled
  obtain ⟨slot, backed⟩ := Option.ne_none_iff_exists'.mp allocated
  rcases lent_cases layout.pool absent with ⟨full, -⟩ | ⟨new, -, unused, frames, marks⟩
  · exact absurd full room
  · exact ⟨slot, new, absent, backed, unused, frames, marks, by simp [fill, frames, backed]⟩

variable {action : Action Key Slot Offset Value} {written : Key → Offset → Option Value}

theorem action_layout (layout : Layout all s) (enabled : action.Enabled s) :
    Layout all (action.apply s) := by
  cases action with
  | alloc key slot =>
      have absent := alloc_absent layout enabled
      refine ⟨lent_wellformed layout.pool absent, ?_, ?_⟩
      · intro other frame held
        by_cases same : other = key
        · exact ⟨slot, by simp [Action.apply, same]⟩
        · have before := (lent_other layout.pool absent same).1.symm.trans held
          simpa [Action.apply, same] using layout.backed other frame before
      · -- The new slot backs no other key, so two keys with one slot are both old or both new.
        intro left right slot' a b
        simp only [Action.apply, Function.update_apply] at a b
        split at a <;> split at b
        · simp_all
        · exact absurd (a ▸ b) (enabled.2 right)
        · exact absurd (b ▸ a) (enabled.2 left)
        · exact layout.separate left right slot' a b
  | release key =>
      refine ⟨given_back_wellformed layout.pool key, ?_, ?_⟩
      · intro other frame held
        obtain ⟨distinct, before⟩ := given_back_before held
        simpa [Action.apply, distinct] using layout.backed other frame before
      · intro left right slot a b
        simp only [Action.apply, Function.update_apply] at a b
        split at a <;> split at b
        · simp_all
        · cases a
        · cases b
        · exact layout.separate left right slot a b
  | evict key =>
      refine ⟨given_back_wellformed layout.pool key, ?_, layout.separate⟩
      exact fun other frame held => layout.backed other frame (given_back_before held).2
  | load key =>
      refine ⟨lent_wellformed layout.pool enabled.1, ?_, layout.separate⟩
      intro other frame held
      by_cases same : other = key
      · subst same
        exact Option.ne_none_iff_exists'.mp enabled.2.1
      · exact layout.backed other frame ((lent_other layout.pool enabled.1 same).1.symm.trans held)
  | write key change =>
      exact ⟨touch_wellformed layout.pool enabled, layout.backed, layout.separate⟩
  | read key => exact ⟨touch_wellformed layout.pool enabled, layout.backed, layout.separate⟩

/-! Each action preserves what is written, by what it does to frame and slot. -/

theorem alloc_preserves {key : Key} {slot : Slot} (layout : Layout all s)
    (preserves : Preserves written s)
    (enabled : (Action.alloc key slot : Action Key Slot Offset Value).Enabled s) :
    Preserves ((Action.alloc key slot).record written) ((Action.alloc key slot).apply s) := by
  have absent := alloc_absent layout enabled
  -- Nothing is written under the new key, and the others keep their places.
  constructor
  · intro other frame held offset value here
    by_cases same : other = key
    · simp [Action.record, same] at here
    · simp only [Action.record, Function.update_of_ne same] at here
      have before := (lent_other layout.pool absent same).1.symm.trans held
      exact preserves.resident other frame before offset value here
  · intro other slot' backed free offset value here
    by_cases same : other = key
    · simp [Action.record, same] at here
    · obtain ⟨frames, marks⟩ := lent_other layout.pool absent same
      simp only [Action.record, Action.apply, Function.update_of_ne same, frames, marks] at here backed free
      exact preserves.stored other slot' backed free offset value here

theorem release_preserves {key : Key} (layout : Layout all s) (preserves : Preserves written s) :
    Preserves ((Action.release key : Action Key Slot Offset Value).record written)
      ((Action.release key).apply s) := by
  constructor
  · exact fun other frame held => preserves.resident other frame (given_back_before held).2
  · intro other slot backed free
    simp only [Action.apply, given_back_frame, given_back_dirty layout.pool,
      Function.update_apply] at backed free
    split at backed
    · cases backed
    · rename_i distinct
      simp only [if_neg distinct] at free
      exact preserves.stored other slot backed free

/-- The frame of a dirty key is written back, and the slot of a clean one is up to date. -/
theorem evict_preserves {key : Key} (layout : Layout all s) (preserves : Preserves written s)
    (enabled : (Action.evict key : Action Key Slot Offset Value).Enabled s) :
    Preserves ((Action.evict key : Action Key Slot Offset Value).record written)
      ((Action.evict key).apply s) := by
  constructor
  · exact fun other frame held => preserves.resident other frame (given_back_before held).2
  · intro other slot backed free offset value here
    by_cases same : other = key
    · subst same
      obtain ⟨frame, held⟩ := Option.ne_none_iff_exists'.mp enabled
      change writeBack s other slot offset = some value
      rw [write_back_own held backed]
      cases dirty : s.pool.dirty other with
      | true => exact preserves.resident other frame held offset value here
      | false => exact preserves.stored other slot backed (.inr dirty) offset value here
    · change writeBack s key slot offset = some value
      rw [write_back_other layout same backed]
      simp only [Action.apply, given_back_frame, given_back_dirty layout.pool,
        Function.update_of_ne same] at free
      exact preserves.stored other slot backed free offset value here

/-- A key that is not resident has its values in the slot the load reads. -/
theorem load_preserves {key : Key} (layout : Layout all s) (preserves : Preserves written s)
    (enabled : (Action.load key : Action Key Slot Offset Value).Enabled s) :
    Preserves ((Action.load key : Action Key Slot Offset Value).record written)
      ((Action.load key).apply s) := by
  obtain ⟨slot, new, loads⟩ := load_loads layout enabled
  constructor
  · intro other frame held offset value here
    simp only [Action.apply, loads.filled]
    by_cases same : other = key
    · subst same
      have lent : new = frame := by simpa [Action.apply, loads.frames] using held
      subst lent
      simpa using preserves.stored other slot loads.backed (.inl loads.absent) offset value here
    · have before : s.pool.frame other = some frame := by
        simpa [Action.apply, loads.frames, same] using held
      have apart : frame ≠ new := fun here => loads.unused other (here ▸ before)
      rw [Function.update_of_ne apart]
      exact preserves.resident other frame before offset value here
  · intro other slot' backed' free offset value here
    refine preserves.stored other slot' backed' ?_ offset value here
    by_cases same : other = key
    · exact .inl (same ▸ loads.absent)
    · simpa [Action.apply, loads.frames, loads.marks, same] using free

/-- A written key is dirty, so that only its frame counts. -/
theorem write_preserves {key : Key} {change : Offset → Option Value} (layout : Layout all s)
    (preserves : Preserves written s)
    (enabled : (Action.write key change : Action Key Slot Offset Value).Enabled s) :
    Preserves ((Action.write key change : Action Key Slot Offset Value).record written)
      ((Action.write key change).apply s) := by
  obtain ⟨frame, held⟩ := Option.ne_none_iff_exists'.mp enabled
  constructor
  · intro other frame' held' offset value here
    simp only [Action.apply, writeFrame, held]
    by_cases same : other = key
    · subst same
      have one : frame' = frame := Option.some.inj (held'.symm.trans held)
      subst one
      simp only [Action.record, Function.update_self] at here ⊢
      cases new : change offset with
      | some fresh => simpa [new] using here
      | none =>
          simp only [new, Option.none_or] at here ⊢
          exact preserves.resident other frame' held offset value here
    -- Another key has another frame, which the write leaves alone.
    · have apart : frame' ≠ frame := by
        rintro rfl
        exact same (layout.pool.injective other key frame' held' held)
      simp only [Action.record, Function.update_of_ne same] at here
      rw [Function.update_of_ne apart]
      exact preserves.resident other frame' held' offset value here
  · intro other slot backed free offset value here
    by_cases same : other = key
    · subst same
      simp [Action.apply, touch, held] at free
    · simp only [Action.record, Function.update_of_ne same] at here
      simp only [Action.apply, touch, Function.update_of_ne same] at free
      exact preserves.stored other slot backed free offset value here

theorem read_preserves {key : Key} (preserves : Preserves written s) :
    Preserves ((Action.read key : Action Key Slot Offset Value).record written)
      ((Action.read key).apply s) := by
  refine ⟨preserves.resident, ?_⟩
  intro other slot backed free
  apply preserves.stored other slot backed
  by_cases same : other = key
  · subst same
    simpa [Action.apply, touch] using free
  · simpa [Action.apply, touch, same] using free

theorem action_preserves (layout : Layout all s) (preserves : Preserves written s)
    (enabled : action.Enabled s) : Preserves (action.record written) (action.apply s) := by
  cases action with
  | alloc key slot => exact alloc_preserves layout preserves enabled
  | release key => exact release_preserves layout preserves
  | evict key => exact evict_preserves layout preserves enabled
  | load key => exact load_preserves layout preserves enabled
  | write key change => exact write_preserves layout preserves enabled
  | read key => exact read_preserves preserves

theorem write_elsewhere (layout : Layout all s) {key other : Key} {frame : Frame}
    {change : Offset → Option Value} {offset : Offset} (held : s.pool.frame other = some frame)
    (outside : other ≠ key ∨ change offset = none) :
    ((Action.write key change).apply s).memory frame offset = s.memory frame offset := by
  cases mine : s.pool.frame key with
  | none => simp [Action.apply, writeFrame, mine]
  | some own =>
      by_cases same : frame = own
      · subst same
        have one : other = key := layout.pool.injective other key frame held mine
        have silent : change offset = none := outside.resolve_left (not_not.mpr one)
        simp [Action.apply, writeFrame, mine, silent]
      · simp [Action.apply, writeFrame, mine, same]

theorem action_synced (layout : Layout all s) (synced : Synced s) (enabled : action.Enabled s)
    (fresh : ∀ key slot frame, action = .alloc key slot →
      ((lend s.pool key).getD s.pool).frame key = some frame → s.memory frame = s.disk slot) :
    Synced (action.apply s) := by
  cases action with
  | alloc key slot =>
      have absent := alloc_absent layout enabled
      intro other frame slot' held backed clean
      by_cases same : other = key
      · subst same
        have one : slot = slot' := by simpa [Action.apply] using backed
        subst one
        exact fresh other slot frame rfl held
      · simp only [Action.apply, Function.update_of_ne same] at backed
        obtain ⟨frames, marks⟩ := lent_other layout.pool absent same
        exact synced other frame slot' (frames.symm.trans held) backed (marks.symm.trans clean)
  | release key =>
      intro other frame slot held backed clean
      obtain ⟨distinct, before⟩ := given_back_before held
      simp only [Action.apply, given_back_dirty layout.pool, Function.update_of_ne distinct] at backed clean
      exact synced other frame slot before backed clean
  | evict key =>
      intro other frame slot held backed clean
      obtain ⟨distinct, before⟩ := given_back_before held
      simp only [Action.apply, given_back_dirty layout.pool, Function.update_of_ne distinct] at clean
      change s.memory frame = writeBack s key slot
      rw [write_back_other layout distinct backed]
      exact synced other frame slot before backed clean
  | load key =>
      obtain ⟨own, new, loads⟩ := load_loads layout enabled
      intro other frame slot held backed clean
      simp only [Action.apply, loads.filled, loads.frames, loads.marks,
        Function.update_apply] at held clean ⊢
      have known : s.backing other = some slot := backed
      split at held
      · -- The loaded key has the frame that has just been filled from its slot.
        rename_i same
        subst same
        injection held with one
        subst one
        rw [loads.backed] at known
        injection known with slots
        simp [slots]
      · have apart : frame ≠ new := fun one => loads.unused other (one ▸ held)
        rw [if_neg apart]
        exact synced other frame slot held known clean
  | write key change =>
      obtain ⟨own, mine⟩ := Option.ne_none_iff_exists'.mp enabled
      intro other frame slot held backed clean
      have holds : s.pool.frame other = some frame := held
      have known : s.backing other = some slot := backed
      by_cases same : other = key
      · subst same
        simp [Action.apply, touch] at clean
      · have apart : frame ≠ own := by
          rintro rfl
          exact same (layout.pool.injective other key frame holds mine)
        simp only [Action.apply, touch, writeFrame, mine, Function.update_of_ne same,
          Function.update_of_ne apart] at clean ⊢
        exact synced other frame slot holds known clean
  | read key =>
      intro other frame slot held backed clean
      have before : s.pool.dirty other = false := by
        by_cases same : other = key
        · subst same
          simpa [Action.apply, touch] using clean
        · simpa [Action.apply, touch, same] using clean
      exact synced other frame slot held backed before

inductive Reached (all : List Frame) :
    List (Action Key Slot Offset Value) → Store Key Frame Slot Offset Value → Prop where
  | start {empty : Store Key Frame Slot Offset Value} : WellFormed all empty.pool →
      (∀ key, empty.pool.frame key = none) → (∀ key, empty.backing key = none) →
      Reached all [] empty
  | step {past} {before : Store Key Frame Slot Offset Value}
      {next : Action Key Slot Offset Value} : Reached all past before → next.Enabled before →
      Reached all (next :: past) (next.apply before)

theorem reached_layout {past : List (Action Key Slot Offset Value)}
    (reached : Reached all past s) : Layout all s := by
  induction reached with
  | start pool absent unbacked =>
      refine ⟨pool, ?_, ?_⟩
      · intro key frame held
        rw [absent key] at held
        cases held
      · intro left right slot backed
        rw [unbacked left] at backed
        cases backed
  | step _ enabled ih => exact action_layout ih enabled

theorem reached_preserves {past : List (Action Key Slot Offset Value)}
    (reached : Reached all past s) : Preserves (writtenBy past) s := by
  induction reached with
  | start => exact ⟨by simp [writtenBy], by simp [writtenBy]⟩
  | step before enabled ih =>
      rw [written_by_cons]
      exact action_preserves (reached_layout before) ih enabled

/-- A stretch of a run: enabled actions one after the other, the latest first. -/
inductive Path (begin : Store Key Frame Slot Offset Value) :
    List (Action Key Slot Offset Value) → Store Key Frame Slot Offset Value → Prop where
  | nil : Path begin [] begin
  | step {past} {before : Store Key Frame Slot Offset Value}
      {next : Action Key Slot Offset Value} : Path begin past before → next.Enabled before →
      Path begin (next :: past) (next.apply before)

theorem path_single (enabled : action.Enabled s) : Path s [action] (action.apply s) :=
  .step .nil enabled

theorem path_append {first second : List (Action Key Slot Offset Value)}
    {middle last : Store Key Frame Slot Offset Value} (left : Path s first middle)
    (right : Path middle second last) : Path s (second ++ first) last := by
  induction right with
  | nil => exact left
  | step _ enabled ih => exact ih.step enabled

theorem path_layout {past : List (Action Key Slot Offset Value)}
    {last : Store Key Frame Slot Offset Value} (layout : Layout all s) (path : Path s past last) :
    Layout all last := by
  induction path with
  | nil => exact layout
  | step _ enabled ih => exact action_layout ih enabled

theorem path_split {first second : List (Action Key Slot Offset Value)}
    {last : Store Key Frame Slot Offset Value} (path : Path s (second ++ first) last) :
    ∃ middle, Path s first middle ∧ Path middle second last := by
  induction second generalizing last with
  | nil => exact ⟨last, path, .nil⟩
  | cons next rest ih =>
      cases path with
      | step before enabled =>
          obtain ⟨middle, left, right⟩ := ih before
          exact ⟨middle, left, right.step enabled⟩

omit [DecidableEq Slot] [DecidableEq Key] [DecidableEq Frame] in
theorem preserves_mono {fewer : Key → Offset → Option Value} (preserves : Preserves written s)
    (part : ∀ key offset value, fewer key offset = some value → written key offset = some value) :
    Preserves fewer s :=
  ⟨fun key frame held offset value here =>
      preserves.resident key frame held offset value (part key offset value here),
    fun key slot backed free offset value here =>
      preserves.stored key slot backed free offset value (part key offset value here)⟩

def recordAll (written : Key → Offset → Option Value) :
    List (Action Key Slot Offset Value) → Key → Offset → Option Value
  | [] => written
  | action :: past => action.record (recordAll written past)

theorem path_preserves {past : List (Action Key Slot Offset Value)}
    {last : Store Key Frame Slot Offset Value} (layout : Layout all s)
    (preserves : Preserves written s) (path : Path s past last) :
    Preserves (recordAll written past) last := by
  induction path with
  | nil => exact preserves
  | step before enabled ih => exact action_preserves (path_layout layout before) ih enabled

/-- What a key reads as, from its frame or, once it is loaded again, its slot. -/
def contents (s : Store Key Frame Slot Offset Value) (key : Key) (offset : Offset) : Option Value :=
  match s.pool.frame key, s.backing key with
  | some frame, _ => s.memory frame offset
  | none, some slot => s.disk slot offset
  | none, none => none

omit [DecidableEq Slot] [DecidableEq Key] [DecidableEq Frame] in
theorem contents_resident {key : Key} {frame : Frame} (held : s.pool.frame key = some frame)
    (offset : Offset) : contents s key offset = s.memory frame offset := by
  simp [contents, held]

/-- Whether an action may change what `key` reads as at `offset`. -/
def Action.Leaves (key : Key) (offset : Offset) : Action Key Slot Offset Value → Prop
  | .release other => other ≠ key
  | .write other change => other = key → change offset = none
  | _ => True

/-- A key in use keeps its slot and its contents through every action that leaves
it alone, its own eviction included as long as clean frames equal their slots. -/
theorem action_contents (layout : Layout all s) (enabled : action.Enabled s) {key : Key}
    {offset : Offset} (backed : s.backing key ≠ none) (leaves : action.Leaves key offset)
    (synced : action = .evict key → Synced s) :
    (action.apply s).backing key = s.backing key ∧
      contents (action.apply s) key offset = contents s key offset := by
  obtain ⟨slot, own⟩ := Option.ne_none_iff_exists'.mp backed
  cases action with
  | alloc other fresh =>
      have apart : key ≠ other := by
        rintro rfl
        exact backed enabled.1
      have kept := (lent_other layout.pool (alloc_absent layout enabled) apart).1
      simp [Action.apply, contents, kept, apart]
  | release other =>
      have apart : key ≠ other := Ne.symm leaves
      simp [Action.apply, contents, given_back_frame, apart]
  | evict other =>
      refine ⟨rfl, ?_⟩
      by_cases same : key = other
      · subst same
        obtain ⟨frame, held⟩ := Option.ne_none_iff_exists'.mp enabled
        have stored : writeBack s key slot = s.memory frame := by
          cases dirty : s.pool.dirty key with
          | true => rw [write_back_own held own, if_pos dirty]
          | false =>
              rw [write_back_clean dirty]
              exact (synced rfl key frame slot held own dirty).symm
        simp [Action.apply, contents, given_back_frame, held, own, stored]
      · have stored := write_back_other layout same own
        cases held : s.pool.frame key <;>
          simp [Action.apply, contents, given_back_frame, same, own, stored, held]
  | load other =>
      refine ⟨rfl, ?_⟩
      obtain ⟨source, new, loads⟩ := load_loads layout enabled
      by_cases same : key = other
      · -- What the slot held is now read from the frame.
        subst same
        simp [Action.apply, contents, loads.filled, loads.frames, loads.absent, loads.backed]
      · cases held : s.pool.frame key with
        | none => simp [Action.apply, contents, loads.filled, loads.frames, same, held, own]
        | some frame =>
            have apart : frame ≠ new := fun one => loads.unused key (one ▸ held)
            simp [Action.apply, contents, loads.filled, loads.frames, same, held, apart]
  | write other change =>
      refine ⟨rfl, ?_⟩
      cases held : s.pool.frame key with
      | none => simp [Action.apply, contents, touch, held, own]
      | some frame =>
          have outside : key ≠ other ∨ change offset = none := by
            by_cases same : other = key
            · exact .inr (leaves same)
            · exact .inl (Ne.symm same)
          have kept := write_elsewhere layout held outside
          simpa [Action.apply, contents, touch, held] using kept
  | read other => simp [Action.apply, contents, touch]

end Steps

end VmSim.DemandPaging
