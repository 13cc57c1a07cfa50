import VmSim.Library.DemandPaging

/-!
Two runs of a demand paging store that differ in the values some keys write.
`Alike secret` says that the stores agree wherever no secret key has its frame
or its slot; it survives as long as no secret key is released. `AlikeOn mine`
says only that the frames and slots of the keys in `mine` agree, and survives
everything the other keys do.
-/

namespace VmSim.DemandPaging
open FramePool

variable {Key Frame Slot Offset Value : Type}

structure Alike (secret : Key → Prop) (left right : Store Key Frame Slot Offset Value) : Prop where
  pool : left.pool = right.pool
  backing : left.backing = right.backing
  memory : ∀ frame, (∀ key, secret key → left.pool.frame key ≠ some frame) →
    left.memory frame = right.memory frame
  disk : ∀ slot, (∀ key, secret key → left.backing key ≠ some slot) →
    left.disk slot = right.disk slot

structure AlikeOn (mine : Key → Prop) (left right : Store Key Frame Slot Offset Value) : Prop where
  pool : left.pool = right.pool
  backing : left.backing = right.backing
  memory : ∀ key frame, mine key → left.pool.frame key = some frame →
    left.memory frame = right.memory frame
  disk : ∀ key slot, mine key → left.backing key = some slot → left.disk slot = right.disk slot

variable {secret mine : Key → Prop} {left right : Store Key Frame Slot Offset Value}
  {all : List Frame}

theorem alike_refl (secret : Key → Prop) (s : Store Key Frame Slot Offset Value) :
    Alike secret s s := ⟨rfl, rfl, fun _ _ => rfl, fun _ _ => rfl⟩

theorem alike_mono {larger : Key → Prop} (alike : Alike secret left right)
    (grows : ∀ key, secret key → larger key) : Alike larger left right :=
  ⟨alike.pool, alike.backing,
    fun frame apart => alike.memory frame fun key hidden => apart key (grows key hidden),
    fun slot apart => alike.disk slot fun key hidden => apart key (grows key hidden)⟩

theorem alike_without {gone : Key → Prop} (alike : Alike secret left right)
    (layout : Layout all left) (unused : ∀ key, gone key → left.backing key = none) :
    Alike (fun key => secret key ∧ ¬ gone key) left right where
  pool := alike.pool
  backing := alike.backing
  memory := by
    intro frame apart
    apply alike.memory
    intro key hidden held
    by_cases left' : gone key
    · obtain ⟨slot, backed⟩ := layout.backed key frame held
      rw [unused key left'] at backed
      cases backed
    · exact apart key ⟨hidden, left'⟩ held
  disk := by
    intro slot apart
    apply alike.disk
    intro key hidden backed
    by_cases left' : gone key
    · rw [unused key left'] at backed
      cases backed
    · exact apart key ⟨hidden, left'⟩ backed

theorem alike_on (alike : Alike secret left right) (layout : Layout all left)
    (open' : ∀ key, mine key → ¬ secret key) : AlikeOn mine left right where
  pool := alike.pool
  backing := alike.backing
  memory := by
    intro key frame own held
    apply alike.memory
    intro other hidden held'
    have same := layout.pool.injective other key frame held' held
    exact open' key own (same ▸ hidden)
  disk := by
    intro key slot own backed
    apply alike.disk
    intro other hidden backed'
    have same := layout.separate other key slot backed' backed
    exact open' key own (same ▸ hidden)

section Actions
variable [DecidableEq Key] [DecidableEq Frame] [DecidableEq Slot]

theorem apply_pool (pool : left.pool = right.pool) (action : Action Key Slot Offset Value) :
    (action.apply left).pool = (action.apply right).pool := by
  cases action <;> simp [Action.apply, pool]

theorem apply_backing (backing : left.backing = right.backing)
    (action : Action Key Slot Offset Value) :
    (action.apply left).backing = (action.apply right).backing := by
  cases action <;> simp [Action.apply, backing]

omit [DecidableEq Key] [DecidableEq Slot] in
theorem write_frame_at {key : Key} {frame : Frame} (held : left.pool.frame key = some frame)
    (change : Offset → Option Value) :
    writeFrame left key change = Function.update left.memory frame fun offset =>
      (change offset).or (left.memory frame offset) := by
  simp [writeFrame, held]

omit [DecidableEq Slot] in
theorem loads_congr {key : Key} {source : Slot} {new : Frame} (loads : Loads left key source new)
    (pool : left.pool = right.pool) (backing : left.backing = right.backing) :
    Loads right key source new where
  absent := pool ▸ loads.absent
  backed := backing ▸ loads.backed
  unused := pool ▸ loads.unused
  frames := pool ▸ loads.frames
  marks := pool ▸ loads.marks
  filled := by
    rw [← pool]
    simp [fill, loads.frames, ← backing, loads.backed]

omit [DecidableEq Key] [DecidableEq Slot] in
theorem write_frame_congr {key : Key} (change : Offset → Option Value) (pool : left.pool = right.pool)
    {frame : Frame} (before : left.memory frame = right.memory frame) :
    writeFrame left key change frame = writeFrame right key change frame := by
  cases held : left.pool.frame key with
  | none =>
      have held' : right.pool.frame key = none := pool ▸ held
      simpa [writeFrame, held, held'] using before
  | some own =>
      have held' : right.pool.frame key = some own := pool ▸ held
      rw [write_frame_at held, write_frame_at held']
      by_cases same : frame = own
      · subst same
        simp [before]
      · simpa [same] using before

section Hidden
variable (alike : Alike secret left right) (layout : Layout all left)
include alike layout

theorem alloc_alike {key : Key} {slot : Slot} (enabled : (Action.alloc key slot).Enabled left) :
    Alike secret ((Action.alloc key slot).apply left) ((Action.alloc key slot).apply right) where
  pool := apply_pool alike.pool _
  backing := apply_backing alike.backing _
  memory := by
    intro frame apart
    apply alike.memory
    intro other hidden held
    have absent := alloc_absent layout enabled
    have distinct : other ≠ key := by
      rintro rfl
      rw [absent] at held
      cases held
    exact apart other hidden ((lent_other layout.pool absent distinct).1.trans held)
  disk := by
    intro slot' apart
    apply alike.disk
    intro other hidden backed
    apply apart other hidden
    have distinct : other ≠ key := by
      rintro rfl
      rw [enabled.1] at backed
      cases backed
    simp [Action.apply, distinct, backed]

omit layout in
theorem release_alike {key : Key} (open' : ¬ secret key) :
    Alike secret ((Action.release key : Action Key Slot Offset Value).apply left)
      ((Action.release key : Action Key Slot Offset Value).apply right) where
  pool := apply_pool alike.pool _
  backing := apply_backing alike.backing _
  memory := by
    intro frame apart
    apply alike.memory
    intro other hidden held
    have distinct : other ≠ key := by
      rintro rfl
      exact open' hidden
    exact apart other hidden (by simp [Action.apply, given_back_frame, distinct, held])
  disk := by
    intro slot apart
    apply alike.disk
    intro other hidden backed
    have distinct : other ≠ key := by
      rintro rfl
      exact open' hidden
    exact apart other hidden (by simp [Action.apply, distinct, backed])

omit [DecidableEq Key] [DecidableEq Frame] [DecidableEq Slot] in
theorem source_alike {key : Key} {source : Slot} (open' : ¬ secret key)
    (backed : left.backing key = some source) : left.disk source = right.disk source := by
  apply alike.disk
  intro other hidden backed'
  have same := layout.separate other key source backed' backed
  exact open' (same ▸ hidden)

theorem load_alike {key : Key}
    (enabled : (Action.load key : Action Key Slot Offset Value).Enabled left) :
    Alike secret ((Action.load key : Action Key Slot Offset Value).apply left)
      ((Action.load key : Action Key Slot Offset Value).apply right) := by
  obtain ⟨source, new, loads⟩ := load_loads layout enabled
  have loads' := loads_congr loads alike.pool alike.backing
  refine ⟨apply_pool alike.pool _, apply_backing alike.backing _, ?_, alike.disk⟩
  intro frame apart
  simp only [Action.apply, loads.filled, loads'.filled]
  by_cases same : frame = new
  · -- The new frame shows no secret, so its key is none and its slot agrees.
    subst same
    have open' : ¬ secret key := fun hidden =>
      apart key hidden (by simp [Action.apply, loads.frames])
    simpa using source_alike alike layout open' loads.backed
  · rw [Function.update_of_ne same, Function.update_of_ne same]
    apply alike.memory
    intro other hidden held
    have distinct : other ≠ key := by
      rintro rfl
      rw [loads.absent] at held
      cases held
    exact apart other hidden (by simp [Action.apply, loads.frames, distinct, held])

omit layout in
theorem write_alike {key : Key} (change : Offset → Option Value) :
    Alike secret ((Action.write key change).apply left) ((Action.write key change).apply right) := by
  refine ⟨apply_pool alike.pool _, apply_backing alike.backing _, ?_, alike.disk⟩
  exact fun frame apart => write_frame_congr change alike.pool (alike.memory frame apart)

omit layout in
theorem secret_write_alike {key : Key} (hidden : secret key) (change change' : Offset → Option Value) :
    Alike secret ((Action.write key change).apply left) ((Action.write key change').apply right) := by
  refine ⟨by simp [Action.apply, alike.pool], alike.backing, ?_, alike.disk⟩
  intro frame apart
  have before : left.memory frame = right.memory frame := alike.memory frame apart
  cases held : left.pool.frame key with
  | none =>
      have held' : right.pool.frame key = none := alike.pool ▸ held
      simpa [Action.apply, writeFrame, held, held'] using before
  | some own =>
      have held' : right.pool.frame key = some own := alike.pool ▸ held
      have distinct : frame ≠ own := by
        rintro rfl
        exact apart key hidden (by simpa [Action.apply, touch] using held)
      simpa [Action.apply, write_frame_at held, write_frame_at held', distinct] using before

omit layout in
theorem read_alike (key : Key) :
    Alike secret ((Action.read key : Action Key Slot Offset Value).apply left)
      ((Action.read key : Action Key Slot Offset Value).apply right) :=
  ⟨apply_pool alike.pool _, alike.backing, alike.memory, alike.disk⟩

/-- An eviction from a full store and the load that follows it: the load takes
the frame the victim had, so nothing of the victim is left in the memory. -/
theorem swap_alike {victim key : Key} (full : left.pool.free = [])
    (evicts : (Action.evict victim : Action Key Slot Offset Value).Enabled left)
    (absent : left.pool.frame key = none) (allocated : left.backing key ≠ none)
    (distinct : victim ≠ key) :
    Alike secret ((Action.load key).apply ((Action.evict victim).apply left))
      ((Action.load key).apply ((Action.evict victim).apply right)) := by
  obtain ⟨own, held⟩ := Option.ne_none_iff_exists'.mp evicts
  obtain ⟨source, here⟩ := Option.ne_none_iff_exists'.mp allocated
  obtain ⟨slot, backed⟩ := layout.backed victim own held
  have backs : ∀ s : Store Key Frame Slot Offset Value, left.pool = s.pool →
      left.backing = s.backing → writeBack s victim =
        if left.pool.dirty victim then Function.update s.disk slot (s.memory own) else s.disk := by
    intro s pool backing
    cases dirty : left.pool.dirty victim <;> simp [writeBack, ← pool, ← backing, held, backed, dirty]
  -- With the pool full the victim's frame is the one lent, so both stores move alike.
  have moved : ∀ s : Store Key Frame Slot Offset Value, left.pool = s.pool →
      left.backing = s.backing →
      (Action.load key).apply ((Action.evict victim).apply s) =
        { pool :=
            { frame := Function.update (Function.update left.pool.frame victim none) key (some own)
              dirty := Function.update (Function.update left.pool.dirty victim false) key false
              free := [] }
          backing := left.backing
          memory := Function.update s.memory own (writeBack s victim source)
          disk := writeBack s victim } := by
    intro s pool backing
    simp [Action.apply, giveBack, lend, fill, ← pool, ← backing, held, full, here]
  have apartSlot : source ≠ slot := by
    rintro rfl
    exact distinct (layout.separate victim key source backed here)
  rw [moved left rfl rfl, moved right alike.pool alike.backing, backs left rfl rfl,
    backs right alike.pool alike.backing]
  refine ⟨rfl, rfl, ?_, ?_⟩
  · intro frame apart
    -- The frame in hand now holds the loaded key; the others hold what they held.
    by_cases same : frame = own
    · subst same
      have open' : ¬ secret key := fun hidden => apart key hidden (by simp)
      have sources := source_alike alike layout open' here
      cases left.pool.dirty victim <;> simp [apartSlot, sources]
    · simp only [Function.update_of_ne same]
      apply alike.memory
      intro other hidden held'
      have notVictim : other ≠ victim := by
        rintro rfl
        rw [held] at held'
        exact same (Option.some.inj held').symm
      have notKey : other ≠ key := by
        rintro rfl
        rw [absent] at held'
        cases held'
      exact apart other hidden (by simp [notVictim, notKey, held'])
  · intro other apart
    have before : left.disk other = right.disk other := alike.disk other apart
    cases left.pool.dirty victim with
    | false => simpa using before
    | true =>
        by_cases same : other = slot
        · subst same
          have bytes : left.memory own = right.memory own := by
            apply alike.memory
            intro holder hidden held'
            have one := layout.pool.injective holder victim own held' held
            exact apart holder hidden (by rw [one]; exact backed)
          simp [bytes]
        · simpa [same] using before

end Hidden

section Own
variable (alike : AlikeOn mine left right) (layout : Layout all left)
include alike layout

/-- Keys of its own agree after every action, except that a key joins them only
with what an allocation finds. -/
theorem action_alike_on {action : Action Key Slot Offset Value} (enabled : action.Enabled left)
    (settled : ∀ key slot, action = .alloc key slot → ¬ mine key) :
    AlikeOn mine (action.apply left) (action.apply right) := by
  refine ⟨apply_pool alike.pool _, apply_backing alike.backing _, ?_, ?_⟩
  · intro key frame own held
    cases action with
    | alloc other slot =>
        have distinct : key ≠ other := by
          rintro rfl
          exact settled key slot rfl own
        have kept := (lent_other layout.pool (alloc_absent layout enabled) distinct).1
        exact alike.memory key frame own (kept.symm.trans held)
    | release other => exact alike.memory key frame own (given_back_before held).2
    | evict other => exact alike.memory key frame own (given_back_before held).2
    | load other =>
        obtain ⟨source, new, loads⟩ := load_loads layout enabled
        have loads' := loads_congr loads alike.pool alike.backing
        simp only [Action.apply, loads.filled, loads'.filled]
        by_cases same : key = other
        · -- The frame of the loaded key comes from its slot, which agrees.
          subst same
          have one : new = frame := by simpa [Action.apply, loads.frames] using held
          subst one
          simpa using alike.disk key source own loads.backed
        · have held' : left.pool.frame key = some frame := by
            simpa [Action.apply, loads.frames, same] using held
          have distinct : frame ≠ new := fun one => loads.unused key (one ▸ held')
          simpa [distinct] using alike.memory key frame own held'
    | write other change => exact write_frame_congr change alike.pool (alike.memory key frame own held)
    | read other => exact alike.memory key frame own held
  · intro key slot own backed
    cases action with
    | alloc other slot' =>
        have distinct : key ≠ other := by
          rintro rfl
          exact settled key slot' rfl own
        exact alike.disk key slot own (by simpa [Action.apply, distinct] using backed)
    | release other =>
        apply alike.disk key slot own
        simp only [Action.apply, Function.update_apply] at backed
        split at backed
        · cases backed
        · exact backed
    | evict other =>
        have backed' : left.backing key = some slot := backed
        have before := alike.disk key slot own backed'
        change writeBack left other slot = writeBack right other slot
        by_cases same : key = other
        · subst same
          obtain ⟨frame, held⟩ := Option.ne_none_iff_exists'.mp enabled
          have held' : right.pool.frame key = some frame := alike.pool ▸ held
          have backed'' : right.backing key = some slot := alike.backing ▸ backed'
          rw [write_back_own held backed', write_back_own held' backed'', ← alike.pool, before,
            alike.memory key frame own held]
        · have layout' : Layout all { right with pool := left.pool, backing := left.backing } :=
            ⟨layout.pool, layout.backed, layout.separate⟩
          rw [alike.pool, alike.backing] at layout'
          have backed'' : right.backing key = some slot := alike.backing ▸ backed'
          rw [write_back_other layout same backed', write_back_other layout' same backed'', before]
    | load other => exact alike.disk key slot own backed
    | write other change => exact alike.disk key slot own backed
    | read other => exact alike.disk key slot own backed

theorem other_write_alike_on {key : Key} (foreign : ¬ mine key)
    (change change' : Offset → Option Value) :
    AlikeOn mine ((Action.write key change).apply left) ((Action.write key change').apply right) := by
  refine ⟨by simp [Action.apply, alike.pool], alike.backing, ?_, alike.disk⟩
  intro other frame own held
  have held' : left.pool.frame other = some frame := held
  have distinct : other ≠ key := by
    rintro rfl
    exact foreign own
  have layout' : Layout all { right with pool := left.pool, backing := left.backing } :=
    ⟨layout.pool, layout.backed, layout.separate⟩
  rw [alike.pool, alike.backing] at layout'
  have held'' : right.pool.frame other = some frame := alike.pool ▸ held'
  have offsets : ∀ offset, ((Action.write key change).apply left).memory frame offset =
      ((Action.write key change').apply right).memory frame offset := by
    intro offset
    rw [write_elsewhere layout held' (.inl distinct), write_elsewhere layout' held'' (.inl distinct),
      alike.memory other frame own held']
  exact funext offsets

end Own

/-! Whole paths. -/

section Paths
variable {last : Store Key Frame Slot Offset Value}
  {actions : List (Action Key Slot Offset Value)}

def applyAll (s : Store Key Frame Slot Offset Value) :
    List (Action Key Slot Offset Value) → Store Key Frame Slot Offset Value
  | [] => s
  | action :: past => action.apply (applyAll s past)

theorem path_apply_all (path : Path left actions last) : last = applyAll left actions := by
  induction path with
  | nil => rfl
  | step _ _ ih => rw [applyAll, ih]

/-- The actions that leave every frame and every slot as they are. -/
def Action.Settled : Action Key Slot Offset Value → Prop
  | .alloc _ _ => True
  | .release _ => True
  | .read _ => True
  | _ => False

theorem settled_values (settled : ∀ action ∈ actions, action.Settled) :
    (applyAll left actions).memory = left.memory ∧ (applyAll left actions).disk = left.disk := by
  induction actions with
  | nil => exact ⟨rfl, rfl⟩
  | cons action past ih =>
      obtain ⟨memory, disk⟩ := ih fun action member => settled action (List.mem_cons_of_mem _ member)
      have still : action.Settled := settled action (by simp)
      cases action with
      | alloc key slot => exact ⟨memory, disk⟩
      | release key => exact ⟨memory, disk⟩
      | read key => exact ⟨memory, disk⟩
      | evict key => exact absurd still id
      | load key => exact absurd still id
      | write key change => exact absurd still id

theorem path_replays (path : Path left actions last) (pool : left.pool = right.pool)
    (backing : left.backing = right.backing) :
    Path right actions (applyAll right actions) ∧ last.pool = (applyAll right actions).pool ∧
      last.backing = (applyAll right actions).backing := by
  induction path with
  | nil => exact ⟨.nil, pool, backing⟩
  | @step past before next _ enabled ih =>
      obtain ⟨replayed, pool, backing⟩ := ih
      have enabled' : next.Enabled (applyAll right past) := by
        cases next <;> simpa only [Action.Enabled, pool, backing] using enabled
      exact ⟨replayed.step enabled', apply_pool pool next, apply_backing backing next⟩

theorem settled_path {after : Store Key Frame Slot Offset Value} (path : Path left actions last)
    (settled : ∀ action ∈ actions, action.Settled) (pool : left.pool = right.pool)
    (backing : left.backing = right.backing) (pool' : last.pool = after.pool)
    (backing' : last.backing = after.backing) (memory : after.memory = right.memory)
    (disk : after.disk = right.disk) : Path right actions after := by
  obtain ⟨replayed, pools, backings⟩ := path_replays path pool backing
  have values : (applyAll right actions).memory = right.memory ∧
      (applyAll right actions).disk = right.disk := settled_values settled
  have same : after = applyAll right actions := by
    cases after
    cases ended : applyAll right actions
    simp_all
  exact same ▸ replayed

def Action.Discreet (secret : Key → Prop) : Action Key Slot Offset Value → Prop
  | .release key => ¬ secret key
  | .evict _ => False
  | _ => True

theorem action_alike {action : Action Key Slot Offset Value} (alike : Alike secret left right)
    (layout : Layout all left) (enabled : action.Enabled left) (discreet : action.Discreet secret) :
    Alike secret (action.apply left) (action.apply right) := by
  cases action with
  | alloc key slot => exact alloc_alike alike layout enabled
  | release key => exact release_alike alike discreet
  | evict key => exact absurd discreet id
  | load key => exact load_alike alike layout enabled
  | write key change => exact write_alike alike change
  | read key => exact read_alike alike key

theorem path_alike (alike : Alike secret left right) (layout : Layout all left)
    (path : Path left actions last) (discreet : ∀ action ∈ actions, action.Discreet secret) :
    Alike secret last (applyAll right actions) := by
  induction path with
  | nil => exact alike
  | @step past before next path enabled ih =>
      exact action_alike (ih fun action member => discreet action (List.mem_cons_of_mem _ member))
        (path_layout layout path) enabled (discreet next (by simp))

def Action.Spares (mine : Key → Prop) : Action Key Slot Offset Value → Prop
  | .release key => ¬ mine key
  | _ => True

omit [DecidableEq Key] [DecidableEq Slot] in
theorem spares_mono {fewer : Key → Prop} {action : Action Key Slot Offset Value}
    (spares : action.Spares mine) (part : ∀ key, fewer key → mine key) : action.Spares fewer := by
  cases action with
  | release key => exact fun own => spares (part key own)
  | _ => trivial

theorem action_spares {action : Action Key Slot Offset Value}
    (backed : ∀ key, mine key → left.backing key ≠ none) (spares : action.Spares mine) :
    ∀ key, mine key → (action.apply left).backing key ≠ none := by
  intro key own
  cases action with
  | alloc other slot =>
      simp only [Action.apply, Function.update_apply]
      split
      · simp
      · exact backed key own
  | release other =>
      have distinct : key ≠ other := by
        rintro rfl
        exact spares own
      simpa [Action.apply, distinct] using backed key own
  | evict other => exact backed key own
  | load other => exact backed key own
  | write other change => exact backed key own
  | read other => exact backed key own

theorem path_spares (backed : ∀ key, mine key → left.backing key ≠ none)
    (path : Path left actions last) (spares : ∀ action ∈ actions, action.Spares mine) :
    ∀ key, mine key → last.backing key ≠ none := by
  induction path with
  | nil => exact backed
  | step _ _ ih =>
      exact action_spares (ih fun action member => spares action (List.mem_cons_of_mem _ member))
        (spares _ (by simp))

theorem path_record {written : Key → Offset → Option Value} {key : Key}
    (backed : left.backing key ≠ none) (path : Path left actions last)
    (spares : ∀ action ∈ actions, action.Spares (· = key))
    (silent : ∀ change, Action.write key change ∉ actions) :
    recordAll written actions key = written key := by
  induction path with
  | nil => rfl
  | @step past before next path enabled ih =>
      have earlier : ∀ action ∈ past, action.Spares (· = key) :=
        fun action member => spares action (List.mem_cons_of_mem _ member)
      -- The key stays backed all along, so no allocation can start its record anew.
      have same := ih earlier fun change member => silent change (List.mem_cons_of_mem _ member)
      have inUse := path_spares (fun other own => own ▸ backed) path earlier
      cases next with
      | alloc other slot =>
          have distinct : key ≠ other := by
            rintro rfl
            exact inUse key rfl enabled.1
          simpa [recordAll, Action.record, distinct] using same
      | write other change =>
          have distinct : key ≠ other := by
            rintro rfl
            exact silent change (by simp)
          simpa [recordAll, Action.record, distinct] using same
      | release other => exact same
      | evict other => exact same
      | load other => exact same
      | read other => exact same

theorem path_alike_on (alike : AlikeOn mine left right) (layout : Layout all left)
    (backed : ∀ key, mine key → left.backing key ≠ none) (path : Path left actions last)
    (spares : ∀ action ∈ actions, action.Spares mine) :
    AlikeOn mine last (applyAll right actions) := by
  induction path with
  | nil => exact alike
  | @step past before next path enabled ih =>
      have earlier : ∀ action ∈ past, action.Spares mine :=
        fun action member => spares action (List.mem_cons_of_mem _ member)
      apply action_alike_on (ih earlier) (path_layout layout path) enabled
      rintro key slot rfl own
      exact path_spares backed path earlier key own enabled.1

end Paths

end Actions

end VmSim.DemandPaging
