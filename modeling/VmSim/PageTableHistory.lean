import VmSim.PageTableMap

/-!
Histories of the inverted page table. A run lists its calls with their return
codes, the latest first; `residents` and `dirtied` are computed from that list
alone and the table answers as they say. The frame of a page is fixed from its
addition to its removal, and offsets never matter.
-/

namespace VmSim.PageTable
open FramePool

inductive Op where
  | add (addr : VirtAddr)
  | remove (addr : VirtAddr)
  | reference (addr : VirtAddr) (reftype : RefType)
  deriving DecidableEq, Repr

def Op.run (ipt : Ipt) : Op → Outcome (Errcode × Ipt)
  | .add addr => iptAdd ipt addr
  | .remove addr => iptRemove ipt addr
  | .reference addr reftype => do
      let after ← iptReference ipt addr reftype
      pure (.ecSuccess, after)

/-- What the callers check: only absent pages are added and only resident ones referenced. -/
def Op.Allowed (ipt : Ipt) : Op → Prop
  | .add addr => iptHasTranslation ipt addr = .ok false
  | .remove _ => True
  | .reference addr _ => iptHasTranslation ipt addr = .ok true

/-- The calls leading from one table to another with their codes, latest first. -/
inductive Run (start : Ipt) : List (Op × Errcode) → Ipt → Prop where
  | nil : Run start [] start
  | step {past ipt op code after} : Run start past ipt → op.Allowed ipt →
      op.run ipt = .ok (code, after) → Run start ((op, code) :: past) after

def residents : List (Op × Errcode) → Finset Key
  | [] => ∅
  | (.add addr, .ecSuccess) :: past => insert addr.key (residents past)
  | (.remove addr, _) :: past => (residents past).erase addr.key
  | _ :: past => residents past

def dirtied : List (Op × Errcode) → Finset Key
  | [] => ∅
  | (.add addr, .ecSuccess) :: past => (dirtied past).erase addr.key
  | (.remove addr, _) :: past => (dirtied past).erase addr.key
  | (.reference addr .refWrite, _) :: past => insert addr.key (dirtied past)
  | _ :: past => dirtied past

def Op.apply (pool : Pool Key Nat) : Op → Errcode × Pool Key Nat
  | .add addr =>
      match lend pool addr.key with
      | none => (.ecFail, pool)
      | some after => (.ecSuccess, after)
  | .remove addr =>
      match giveBack pool addr.key with
      | none => (.ecNotFound, pool)
      | some after => (.ecSuccess, after)
  | .reference addr reftype => (.ecSuccess, touch pool addr.key (reftype = .refWrite))

def Op.onPage : Op → Op
  | .add addr => .add { addr with offset := 0 }
  | .remove addr => .remove { addr with offset := 0 }
  | .reference addr reftype => .reference { addr with offset := 0 } reftype

theorem on_page_apply (pool : Pool Key Nat) (op : Op) : op.onPage.apply pool = op.apply pool := by
  cases op <;> rfl

theorem apply_congr {left right : Op} (same : left.onPage = right.onPage) (pool : Pool Key Nat) :
    left.apply pool = right.apply pool := by
  rw [← on_page_apply, same, on_page_apply]

theorem give_back_none {ipt : Ipt} {key : Key} (absent : giveBack (poolOf ipt) key = none) :
    frameOf ipt key = none :=
  Option.map_eq_none_iff.mp absent

theorem op_refines {ipt : Ipt} (sound : Sound ipt) {op : Op} (allowed : op.Allowed ipt) :
    ∃ after, op.run ipt = .ok ((op.apply (poolOf ipt)).1, after) ∧
      Moved ipt after (op.apply (poolOf ipt)).2 := by
  cases op with
  | add addr =>
      have absent : frameOf ipt addr.key = none := by
        simpa [Op.Allowed, has_translation_exact sound] using allowed
      cases lent : lend (poolOf ipt) addr.key with
      | none => exact ⟨ipt, by simp [Op.run, Op.apply, lent, add_full lent], sound,
          by simp [Op.apply, lent], rfl⟩
      | some pool =>
          obtain ⟨after, ran, moved, -⟩ := add_lends sound absent lent
          exact ⟨after, by simp [Op.run, Op.apply, lent, ran], by simpa [Op.apply, lent] using moved⟩
  | remove addr =>
      cases returned : giveBack (poolOf ipt) addr.key with
      | none =>
          have absent := remove_absent sound (give_back_none returned)
          exact ⟨ipt, by simp [Op.run, Op.apply, returned, absent], sound,
            by simp [Op.apply, returned], rfl⟩
      | some pool =>
          obtain ⟨after, ran, moved, -⟩ := remove_gives sound returned
          exact ⟨after, by simp [Op.run, Op.apply, returned, ran],
            by simpa [Op.apply, returned] using moved⟩
  | reference addr reftype =>
      have present : (frameOf ipt addr.key).isSome = true := by
        simpa [Op.Allowed, has_translation_exact sound] using allowed
      obtain ⟨frame, held⟩ := Option.isSome_iff_exists.mp present
      obtain ⟨after, ran, moved, -⟩ := reference_touches sound held reftype
      exact ⟨after, by simp [Op.run, Op.apply, ran], moved⟩

structure Traced (size : Nat) (past : List (Op × Errcode)) (ipt : Ipt) : Prop where
  sound : Sound ipt
  sized : ipt.size = size
  counted : Counted size (residents past) (poolOf ipt)
  dirty : ∀ key, key ∈ dirtied past ↔ dirtyOf ipt key = true

theorem init_traced {size : Nat} (positive : 0 < size) : Traced size [] (iptInit size) where
  sound := ipt_init_sound positive
  sized := rfl
  counted :=
    { holders := by simp [residents, poolOf, ipt_init_frame positive]
      total := by simp [residents, poolOf, iptInit] }
  dirty := by simp [dirtied, dirtyOf, ipt_init_frame positive]

theorem op_traced {size : Nat} {past : List (Op × Errcode)} {ipt after : Ipt} {op : Op}
    {code : Errcode} (traced : Traced size past ipt) (allowed : op.Allowed ipt)
    (ran : op.run ipt = .ok (code, after)) : Traced size ((op, code) :: past) after := by
  obtain ⟨after', ran', moved⟩ := op_refines traced.sound allowed
  rw [ran] at ran'
  simp only [Except.ok.injEq, Prod.mk.injEq] at ran'
  obtain ⟨rfl, rfl⟩ := ran'
  have dirty' : ∀ key, dirtyOf after key = (op.apply (poolOf ipt)).2.dirty key :=
    fun key => congrFun (congrArg Pool.dirty moved.pool) key
  refine ⟨moved.sound, moved.size.trans traced.sized, ?_, ?_⟩
  · rw [moved.pool]
    cases op with
    | add addr =>
        have absent : frameOf ipt addr.key = none := by
          simpa [Op.Allowed, has_translation_exact traced.sound] using allowed
        cases lent : lend (poolOf ipt) addr.key with
        | none => simpa [Op.apply, lent, residents] using traced.counted
        | some pool =>
            simpa [Op.apply, lent, residents] using lend_counted traced.counted absent lent
    | remove addr =>
        cases returned : giveBack (poolOf ipt) addr.key with
        | none =>
            -- A failed removal leaves the table, and the history never had the page resident.
            have gone : addr.key ∉ residents past := by
              rw [traced.counted.holders]
              simp [poolOf, give_back_none returned]
            simpa [Op.apply, returned, residents, gone] using traced.counted
        | some pool =>
            simpa [Op.apply, returned, residents] using
              give_back_counted traced.counted returned
    | reference addr reftype =>
        cases reftype <;> exact ⟨traced.counted.holders, traced.counted.total⟩
  · intro key
    rw [dirty']
    have before : key ∈ dirtied past ↔ (poolOf ipt).dirty key = true := traced.dirty key
    cases op with
    | add addr =>
        cases lent : lend (poolOf ipt) addr.key with
        | none => simpa [Op.apply, lent, dirtied] using before
        | some pool =>
            obtain ⟨frame, rest, -, rfl⟩ := lend_some lent
            by_cases same : key = addr.key
            · simp [Op.apply, lent, dirtied, same]
            · simp [Op.apply, lent, dirtied, same, before]
    | remove addr =>
        cases returned : giveBack (poolOf ipt) addr.key with
        | none =>
            have clean : (poolOf ipt).dirty addr.key = false := by
              simp [poolOf, dirtyOf, give_back_none returned]
            by_cases same : key = addr.key
            · subst same
              simp [Op.apply, returned, dirtied, clean]
            · simpa [Op.apply, returned, dirtied, same] using before
        | some pool =>
            obtain ⟨frame, -, rfl⟩ := give_back_some returned
            by_cases same : key = addr.key
            · simp [Op.apply, returned, dirtied, same]
            · simp [Op.apply, returned, dirtied, same, before]
    -- A write reference marks its page dirty, a read reference keeps the mark.
    | reference addr reftype =>
        by_cases same : key = addr.key
        · subst same
          cases reftype <;> simp [Op.apply, dirtied, touch, before]
        · cases reftype <;> simp [Op.apply, dirtied, touch, same, before]

theorem run_traced {size : Nat} (positive : 0 < size) {past : List (Op × Errcode)} {ipt : Ipt}
    (run : Run (iptInit size) past ipt) : Traced size past ipt := by
  induction run with
  | nil => exact init_traced positive
  | step _ allowed ran ih => exact op_traced ih allowed ran

theorem op_keeps_frame {ipt after : Ipt} (sound : Sound ipt) {op : Op} {code : Errcode}
    (allowed : op.Allowed ipt) (ran : op.run ipt = .ok (code, after)) {key : Key} {frame : Nat}
    (held : frameOf ipt key = some frame) (kept : ∀ addr, op = .remove addr → addr.key ≠ key) :
    Sound after ∧ frameOf after key = some frame := by
  obtain ⟨after', ran', moved⟩ := op_refines sound allowed
  rw [ran] at ran'
  simp only [Except.ok.injEq, Prod.mk.injEq] at ran'
  obtain ⟨-, rfl⟩ := ran'
  have frames : frameOf after key = (op.apply (poolOf ipt)).2.frame key :=
    congrFun (congrArg Pool.frame moved.pool) key
  have before : (poolOf ipt).frame key = some frame := held
  refine ⟨moved.sound, frames.trans ?_⟩
  cases op with
  | add addr =>
      cases lent : lend (poolOf ipt) addr.key with
      | none => simpa [Op.apply, lent] using before
      | some pool =>
          -- A page that is added was absent, so it is not the one held.
          obtain ⟨new, rest, -, rfl⟩ := lend_some lent
          have distinct : key ≠ addr.key := by
            rintro rfl
            simp [Op.Allowed, has_translation_exact sound, held] at allowed
          simp [Op.apply, lent, distinct, before]
  | remove addr =>
      cases returned : giveBack (poolOf ipt) addr.key with
      | none => simpa [Op.apply, returned] using before
      | some pool =>
          obtain ⟨old, -, rfl⟩ := give_back_some returned
          simp [Op.apply, returned, Ne.symm (kept addr rfl), before]
  | reference addr reftype => exact held

theorem run_keeps_frame {ipt ipt' : Ipt} (sound : Sound ipt) {later : List (Op × Errcode)}
    (run : Run ipt later ipt') {key : Key} {frame : Nat} (held : frameOf ipt key = some frame)
    (kept : ∀ addr code, (Op.remove addr, code) ∈ later → addr.key ≠ key) :
    Sound ipt' ∧ frameOf ipt' key = some frame := by
  induction run with
  | nil => exact ⟨sound, held⟩
  | @step _ _ op code _ _ allowed ran ih =>
      obtain ⟨sound', held'⟩ := ih fun addr code member => kept addr code (by simp [member])
      exact op_keeps_frame sound' allowed ran held' fun addr here => kept addr code (by simp [here])

/-- Runs that differ in offsets only return the same codes and lend the same frames. -/
theorem run_same_pages {size : Nat} (positive : 0 < size) {past past' : List (Op × Errcode)}
    {ipt ipt' : Ipt} (run : Run (iptInit size) past ipt) (run' : Run (iptInit size) past' ipt')
    (same : past.map (·.1.onPage) = past'.map (·.1.onPage)) :
    past.map (·.2) = past'.map (·.2) ∧ poolOf ipt = poolOf ipt' := by
  induction run generalizing past' ipt' with
  | nil =>
      cases run' with
      | nil => exact ⟨rfl, rfl⟩
      | step => simp at same
  | step before allowed ran ih =>
      cases run' with
      | nil => simp at same
      | step before' allowed' ran' =>
          simp only [List.map_cons, List.cons.injEq] at same
          obtain ⟨codes, pools⟩ := ih before' same.2
          obtain ⟨after, exact, moved⟩ := op_refines (run_traced positive before).sound allowed
          obtain ⟨after', exact', moved'⟩ := op_refines (run_traced positive before').sound allowed'
          rw [ran] at exact
          rw [ran'] at exact'
          simp only [Except.ok.injEq, Prod.mk.injEq] at exact exact'
          obtain ⟨rfl, rfl⟩ := exact
          obtain ⟨rfl, rfl⟩ := exact'
          rw [List.map_cons, List.map_cons, moved.pool, moved'.pool, codes, pools,
            apply_congr same.1]
          exact ⟨rfl, rfl⟩

/-- The table answers as a partial injective map from pages to frames below `size`. -/
structure Answers (size : Nat) (past : List (Op × Errcode)) (ipt : Ipt) : Prop where
  translated : ∀ addr, iptHasTranslation ipt addr = .ok (decide (addr.key ∈ residents past))
  frame : ∀ addr, addr.key ∈ residents past → ∃ frame < size, iptTranslate ipt addr = .ok frame
  injective : ∀ left right frame, iptTranslate ipt left = .ok frame →
    iptTranslate ipt right = .ok frame → left.key = right.key
  dirty : ∀ addr, addr.key ∈ residents past →
    iptIsDirty ipt addr = .ok (decide (addr.key ∈ dirtied past))
  full : ∀ addr, addr.key ∉ residents past → (residents past).card = size →
    iptAdd ipt addr = .ok (.ecFail, ipt)
  room : ∀ addr, addr.key ∉ residents past → (residents past).card ≠ size →
    ∃ after, iptAdd ipt addr = .ok (.ecSuccess, after)
  absent : ∀ addr, addr.key ∉ residents past → iptRemove ipt addr = .ok (.ecNotFound, ipt)
  present : ∀ addr, addr.key ∈ residents past →
    ∃ after, iptRemove ipt addr = .ok (.ecSuccess, after)
  referenced : ∀ addr reftype, addr.key ∈ residents past →
    ∃ after, iptReference ipt addr reftype = .ok after

theorem traced_answers {size : Nat} {past : List (Op × Errcode)} {ipt : Ipt}
    (traced : Traced size past ipt) : Answers size past ipt := by
  have sound := traced.sound
  have gone : ∀ {key}, key ∉ residents past → frameOf ipt key = none := by
    intro key absent
    rw [traced.counted.holders] at absent
    exact Option.eq_none_iff_forall_ne_some.mpr (not_exists.mp absent)
  have here : ∀ {key}, key ∈ residents past → ∃ frame, frameOf ipt key = some frame :=
    fun present => (traced.counted.holders _).mp present
  constructor
  · intro addr
    rw [has_translation_exact sound]
    by_cases present : addr.key ∈ residents past
    · obtain ⟨frame, held⟩ := here present
      simp [present, held]
    · simp [present, gone present]
  · intro addr present
    obtain ⟨frame, held⟩ := here present
    exact ⟨frame, traced.sized ▸ frame_lt sound held, translate_exact sound held⟩
  · intro left right frame a b
    exact (sound_pool sound).injective left.key right.key frame
      ((translate_iff sound).mp a) ((translate_iff sound).mp b)
  · intro addr present
    obtain ⟨frame, held⟩ := here present
    rw [is_dirty_exact sound held]
    have dirty := traced.dirty addr.key
    by_cases written : addr.key ∈ dirtied past
    · simp [written, dirty.mp written]
    · simp [written, Bool.eq_false_iff.mpr (mt dirty.mpr written)]
  · intro addr _ full
    exact add_full ((full_iff traced.counted addr.key).mpr full)
  · intro addr absent room
    cases lent : lend (poolOf ipt) addr.key with
    | none => exact absurd ((full_iff traced.counted addr.key).mp lent) room
    | some pool =>
        obtain ⟨after, ran, -⟩ := add_lends sound (gone absent) lent
        exact ⟨after, ran⟩
  · exact fun addr absent => remove_absent sound (gone absent)
  · intro addr present
    obtain ⟨frame, held⟩ := here present
    obtain ⟨after, ran, -⟩ := remove_gives sound (Option.map_eq_some_iff.mpr ⟨frame, held, rfl⟩)
    exact ⟨after, ran⟩
  · intro addr reftype present
    obtain ⟨frame, held⟩ := here present
    obtain ⟨after, ran, -⟩ := reference_touches sound held reftype
    exact ⟨after, ran⟩

/-- The table refines a finite injective map from pages to frames: it answers
by its history, keeps the frame of a page until the page is removed, and
answers alike after any run of the same calls at other offsets. -/
theorem table_refines_map {size : Nat} (positive : 0 < size) {past : List (Op × Errcode)}
    {ipt : Ipt} (run : Run (iptInit size) past ipt) :
    Answers size past ipt ∧
      (∀ later ipt', Run ipt later ipt' → ∀ addr, addr.key ∈ residents past →
        (∀ removed code, (Op.remove removed, code) ∈ later → removed.key ≠ addr.key) →
        iptTranslate ipt' addr = iptTranslate ipt addr) ∧
      ∀ past' ipt', Run (iptInit size) past' ipt' →
        past.map (·.1.onPage) = past'.map (·.1.onPage) →
        past.map (·.2) = past'.map (·.2) ∧ ∀ addr addr', addr.key = addr'.key →
          iptHasTranslation ipt addr = iptHasTranslation ipt' addr' ∧
          iptTranslate ipt addr = iptTranslate ipt' addr' ∧
          iptIsDirty ipt addr = iptIsDirty ipt' addr' := by
  have traced := run_traced positive run
  refine ⟨traced_answers traced, ?_, ?_⟩
  · intro later ipt' onward addr present kept
    obtain ⟨frame, held⟩ := (traced.counted.holders _).mp present
    obtain ⟨sound', held'⟩ := run_keeps_frame traced.sound onward held kept
    rw [translate_exact sound' held', translate_exact traced.sound held]
  · intro past' ipt' run' same
    obtain ⟨codes, pools⟩ := run_same_pages positive run run' same
    have sound' := (run_traced positive run').sound
    have frames : frameOf ipt = frameOf ipt' := congrArg Pool.frame pools
    have marks : dirtyOf ipt = dirtyOf ipt' := congrArg Pool.dirty pools
    refine ⟨codes, fun addr addr' key => ?_⟩
    rw [has_translation_exact traced.sound, has_translation_exact sound', key, frames]
    refine ⟨rfl, ?_⟩
    -- Absent, both tables answer alike too: the lookups fail in the same way.
    cases held : frameOf ipt addr.key with
    | none =>
        have held' : frameOf ipt' addr'.key = none := by rw [← frames, ← key, held]
        simp [iptTranslate, iptIsDirty, get_vaddr_idx_frame traced.sound,
          get_vaddr_idx_frame sound', iptHasTranslation, held, held']
    | some frame =>
        have held' : frameOf ipt' addr'.key = some frame := by rw [← frames, ← key, held]
        rw [translate_exact traced.sound held, translate_exact sound' held',
          is_dirty_exact traced.sound held, is_dirty_exact sound' held', key, marks]
        exact ⟨rfl, rfl⟩

/-- Two pages collide, the second one is written and the first one leaves. -/
def collidedPast : List (Op × Errcode) :=
  [(.remove ⟨0, 5, 3⟩, .ecSuccess), (.reference ⟨1, 0, 7⟩ .refWrite, .ecSuccess),
    (.add ⟨1, 0, 0⟩, .ecSuccess), (.add ⟨0, 5, 0⟩, .ecSuccess)]

theorem collided_run : ∃ ipt, Run (iptInit 2) collidedPast ipt :=
  ⟨_, .step (.step (.step (.step .nil rfl rfl) rfl rfl) rfl rfl) trivial rfl⟩

theorem table_refines_map_collided : ∃ ipt, Answers 2 collidedPast ipt := by
  obtain ⟨ipt, run⟩ := collided_run
  exact ⟨ipt, (table_refines_map (by decide) run).1⟩

end VmSim.PageTable
