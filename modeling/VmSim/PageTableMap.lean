import VmSim.PageTableInvariant
import VmSim.Library.FramePool

/-!
The inverted page table as a pool of frames lent to pages. `poolOf` reads the
pool off the entries without the hash chains; on a table that keeps the
representation invariant and names every page at most once, each call of
vmsim/ipt.c is the call of the pool.
-/

namespace VmSim.PageTable
open LinkedChain FramePool

def frameOf (ipt : Ipt) (key : Key) : Option Nat :=
  ipt.entries.findIdx? fun entry => entry.pageData.valid && entry.pageData.addr.key == key

def dirtyOf (ipt : Ipt) (key : Key) : Bool :=
  match frameOf ipt key with
  | none => false
  | some frame => (dataOf ipt.entries frame).any (·.dirty)

def poolOf (ipt : Ipt) : Pool Key Nat := ⟨frameOf ipt, dirtyOf ipt, ipt.freePages⟩

def Holds (data : Nat → Option PageData) (key : Key) (i : Nat) : Prop :=
  ∃ page, data i = some page ∧ page.valid = true ∧ page.addr.key = key

structure Sound (ipt : Ipt) : Prop where
  chained : ∃ chain, Chained ipt chain
  distinct : ∀ key i j, Holds (dataOf ipt.entries) key i → Holds (dataOf ipt.entries) key j → i = j

theorem holds_update {data : Nat → Option PageData} {i j : Nat} {page : PageData} {key : Key} :
    Holds (Function.update data i (some page)) key j ↔
      if j = i then page.valid = true ∧ page.addr.key = key else Holds data key j := by
  by_cases same : j = i
  · subst same
    simp [Holds]
  · simp [Holds, same]

section Lookups
variable {ipt : Ipt}

theorem frame_holds {key : Key} {i : Nat} (found : frameOf ipt key = some i) :
    Holds (dataOf ipt.entries) key i := by
  obtain ⟨bound, hit, -⟩ := List.findIdx?_eq_some_iff_getElem.mp found
  simp only [Bool.and_eq_true, beq_iff_eq] at hit
  exact ⟨ipt.entries[i].pageData, by simp [dataOf, bound], hit.1, hit.2⟩

theorem frame_iff (sound : Sound ipt) {key : Key} {i : Nat} :
    frameOf ipt key = some i ↔ Holds (dataOf ipt.entries) key i := by
  constructor
  · exact frame_holds
  · intro holds
    cases found : frameOf ipt key with
    | some j => rw [sound.distinct key i j holds (frame_holds found)]
    | none =>
        obtain ⟨page, data, valid, named⟩ := holds
        simp only [dataOf, Option.map_eq_some_iff] at data
        obtain ⟨entry, here, rfl⟩ := data
        have missed := List.findIdx?_eq_none_iff.mp found entry (List.mem_of_getElem? here)
        simp [valid, named] at missed

theorem frame_none (sound : Sound ipt) {key : Key} :
    frameOf ipt key = none ↔ ∀ i, ¬ Holds (dataOf ipt.entries) key i := by
  rw [Option.eq_none_iff_forall_ne_some]
  exact forall_congr' fun i => not_congr (frame_iff sound)

theorem dirty_iff (sound : Sound ipt) {key : Key} :
    dirtyOf ipt key = true ↔ ∃ i page, dataOf ipt.entries i = some page ∧ page.valid = true ∧
      page.addr.key = key ∧ page.dirty = true := by
  unfold dirtyOf
  cases found : frameOf ipt key with
  | none =>
      have nowhere := (frame_none sound).mp found
      simp only [Bool.false_eq_true, false_iff, not_exists, not_and]
      intro i page data valid named _
      exact nowhere i ⟨page, data, valid, named⟩
  | some frame =>
      obtain ⟨page, data, valid, named⟩ := frame_holds found
      simp only [data, Option.any_some]
      constructor
      · intro dirty
        exact ⟨frame, page, data, valid, named, dirty⟩
      · rintro ⟨i, other, data', valid', named', dirty⟩
        have same := sound.distinct key i frame ⟨other, data', valid', named'⟩
          ⟨page, data, valid, named⟩
        subst same
        rw [data] at data'
        injection data' with equal
        rw [equal]
        exact dirty

/-- The hash chains find what a scan of the whole table finds. -/
theorem get_vaddr_idx_frame (sound : Sound ipt) (addr : VirtAddr) :
    getVaddrIdx ipt addr = .ok (frameOf ipt addr.key) := by
  obtain ⟨chain, chained⟩ := sound.chained
  rw [get_vaddr_idx_exact chained]
  cases hit : (chain (bucket ipt.size addr)).find? (answers ipt.entries addr) with
  | some idx =>
      obtain ⟨-, -, data, -, found, valid, named⟩ := search_hit chained hit
      rw [(frame_iff sound).mpr ⟨data, found, valid, named⟩]
  | none =>
      have absent : frameOf ipt addr.key = none := by
        rw [frame_none sound]
        rintro i ⟨page, data, valid, named⟩
        have bound := bucket_lt chained.positive addr
        have member := (chained.member _ bound i).mpr ⟨page, data, valid, bucket_congr named⟩
        have missed := List.find?_eq_none.mp hit i member
        simp [answers, data, (virt_addr_page_eq_iff page.addr addr).mpr named] at missed
      rw [absent]

theorem has_translation_exact (sound : Sound ipt) (addr : VirtAddr) :
    iptHasTranslation ipt addr = .ok (frameOf ipt addr.key).isSome := by
  simp [iptHasTranslation, get_vaddr_idx_frame sound]

theorem translate_exact (sound : Sound ipt) {addr : VirtAddr} {frame : Nat}
    (found : frameOf ipt addr.key = some frame) : iptTranslate ipt addr = .ok frame := by
  simp [iptTranslate, get_vaddr_idx_frame sound, found]

theorem translate_iff (sound : Sound ipt) {addr : VirtAddr} {frame : Nat} :
    iptTranslate ipt addr = .ok frame ↔ frameOf ipt addr.key = some frame := by
  cases found : frameOf ipt addr.key with
  | none => simp [iptTranslate, get_vaddr_idx_frame sound, found]
  | some other => simp [translate_exact sound found]

theorem is_dirty_exact (sound : Sound ipt) {addr : VirtAddr} {frame : Nat}
    (found : frameOf ipt addr.key = some frame) :
    iptIsDirty ipt addr = .ok (dirtyOf ipt addr.key) := by
  obtain ⟨page, data, -⟩ := frame_holds found
  simp [iptIsDirty, has_translation_exact sound, entryOf, get_vaddr_idx_frame sound, found,
    load_of_get (entry_of_data data), dirtyOf, data]

theorem frame_lt (sound : Sound ipt) {key : Key} {frame : Nat}
    (found : frameOf ipt key = some frame) : frame < ipt.size := by
  obtain ⟨chain, chained⟩ := sound.chained
  obtain ⟨page, data, -⟩ := frame_holds found
  rw [← chained.entriesSized]
  exact data_lt data

end Lookups

theorem ipt_init_sound {size : Nat} (positive : 0 < size) : Sound (iptInit size) where
  chained := ⟨_, ipt_init_chained positive⟩
  distinct := by
    rintro key i j ⟨page, data, valid, named⟩ -
    have member := ((ipt_init_chained positive).member _
      (bucket_lt positive page.addr) i).mpr ⟨page, data, valid, rfl⟩
    simp at member

theorem ipt_init_frame {size : Nat} (positive : 0 < size) (key : Key) :
    frameOf (iptInit size) key = none := by
  rw [frame_none (ipt_init_sound positive)]
  rintro i ⟨page, data, valid, named⟩
  have member := ((ipt_init_chained positive).member _
    (bucket_lt positive page.addr) i).mpr ⟨page, data, valid, rfl⟩
  simp at member

theorem free_holds_none {ipt : Ipt} {chain : Nat → List Nat} (chained : Chained ipt chain) {i : Nat}
    (free : i ∈ ipt.freePages) (key : Key) : ¬ Holds (dataOf ipt.entries) key i := by
  rintro ⟨page, data, valid, -⟩
  obtain ⟨page', data', invalid⟩ := (chained.free i).mp free
  rw [data] at data'
  injection data' with same
  rw [← same, valid] at invalid
  cases invalid

theorem sound_pool {ipt : Ipt} (sound : Sound ipt) :
    WellFormed (List.range ipt.size) (poolOf ipt) := by
  obtain ⟨chain, chained⟩ := sound.chained
  constructor
  · intro left right frame a b
    obtain ⟨page, data, -, named⟩ := frame_holds a
    obtain ⟨page', data', -, named'⟩ := frame_holds b
    rw [data] at data'
    injection data' with same
    rw [← named, ← named', same]
  · exact chained.freeUnique
  · intro frame
    rw [List.mem_range]
    constructor
    · intro bound
      rw [← chained.entriesSized] at bound
      have data : dataOf ipt.entries frame = some ipt.entries[frame].pageData := by
        simp [dataOf, bound]
      -- An entry is on the free list or valid, and a valid one is found under its own address.
      cases valid : ipt.entries[frame].pageData.valid with
      | true => exact .inr ⟨_, (frame_iff sound).mpr ⟨_, data, valid, rfl⟩⟩
      | false => exact .inl ((chained.free frame).mpr ⟨_, data, valid⟩)
    · rintro (free | ⟨key, held⟩)
      · obtain ⟨data, found, -⟩ := (chained.free frame).mp free
        rw [← chained.entriesSized]
        exact data_lt found
      · exact frame_lt sound held
  · exact fun key frame held free => free_holds_none chained free key (frame_holds held)
  · intro key gone
    have gone' : frameOf ipt key = none := gone
    simp [poolOf, dirtyOf, gone']

section Calls
variable {ipt after : Ipt} {pool : Pool Key Nat}

structure Moved (ipt after : Ipt) (pool : Pool Key Nat) : Prop where
  sound : Sound after
  pool : poolOf after = pool
  size : after.size = ipt.size

/-- The entry of one frame is rewritten: it may have held the page `own` and may hold it
now, and no other frame holds it. -/
structure Rewrites (ipt after : Ipt) (frame : Nat) (page : PageData) (own : Key) : Prop where
  data : dataOf after.entries = Function.update (dataOf ipt.entries) frame (some page)
  named : page.valid = true → page.addr.key = own
  clean : page.valid = true → page.dirty = false
  before : ∀ key, Holds (dataOf ipt.entries) key frame → key = own
  elsewhere : ∀ i, i ≠ frame → ¬ Holds (dataOf ipt.entries) own i

section Rewriting
variable {frame : Nat} {page : PageData} {own : Key} (rewrites : Rewrites ipt after frame page own)
include rewrites

theorem rewrites_holds (key : Key) (i : Nat) : Holds (dataOf after.entries) key i ↔
    if i = frame then page.valid = true ∧ page.addr.key = key else Holds (dataOf ipt.entries) key i := by
  rw [rewrites.data, holds_update]

theorem rewrites_sound (sound : Sound ipt) (kept : ∃ chain, Chained after chain) : Sound after := by
  refine ⟨kept, ?_⟩
  intro key i j left right
  rw [rewrites_holds rewrites] at left right
  split at left <;> split at right
  · omega
  · exact absurd right (left.2 ▸ rewrites.named left.1 ▸ rewrites.elsewhere j ‹_›)
  · exact absurd left (right.2 ▸ rewrites.named right.1 ▸ rewrites.elsewhere i ‹_›)
  · exact sound.distinct key i j left right

theorem rewrites_frame (sound : Sound ipt) (sound' : Sound after) :
    frameOf after = Function.update (frameOf ipt) own (if page.valid then some frame else none) := by
  funext key
  ext i
  rw [frame_iff sound', rewrites_holds rewrites, Function.update_apply]
  by_cases mine : key = own
  · subst mine
    rw [if_pos rfl]
    by_cases here : i = frame
    · subst here
      cases valid : page.valid with
      | true => simp [rewrites.named valid]
      | false => simp
    · rw [if_neg here]
      have nowhere := rewrites.elsewhere i here
      cases page.valid <;> simp [nowhere, Ne.symm here]
  · rw [if_neg mine]
    by_cases here : i = frame
    · -- The frame holds no other page than `own`, neither before nor after.
      subst here
      have old : frameOf ipt key ≠ some i := fun found => mine (rewrites.before key (frame_holds found))
      rw [if_pos rfl]
      simp only [old, iff_false, not_and]
      exact fun valid same => mine (same.symm.trans (rewrites.named valid))
    · rw [if_neg here, frame_iff sound]

theorem rewrites_dirty (sound : Sound ipt) (sound' : Sound after) :
    dirtyOf after = Function.update (dirtyOf ipt) own false := by
  funext key
  rw [Bool.eq_iff_iff]
  simp only [dirty_iff sound', rewrites.data, Function.update_apply]
  by_cases mine : key = own
  · subst mine
    simp only [↓reduceIte, Bool.false_eq_true, iff_false, not_exists, not_and]
    intro i other data valid same
    split at data
    · injection data with new
      subst new
      simp [rewrites.clean valid]
    · exact absurd ⟨other, data, valid, same⟩ (rewrites.elsewhere i ‹_›)
  · rw [if_neg mine, dirty_iff sound]
    constructor
    · rintro ⟨i, other, data, valid, same, dirty⟩
      split at data
      · injection data with new
        subst new
        exact absurd (same.symm.trans (rewrites.named valid)) mine
      · exact ⟨i, other, data, valid, same, dirty⟩
    -- The frame rewritten held no other page, so the dirty entry is not that one.
    · rintro ⟨i, other, data, valid, same, dirty⟩
      have apart : i ≠ frame := fun here =>
        mine (rewrites.before key (here ▸ ⟨other, data, valid, same⟩))
      exact ⟨i, other, by rw [if_neg apart]; exact data, valid, same, dirty⟩

end Rewriting

theorem add_full (full : lend (poolOf ipt) addr.key = none) :
    iptAdd ipt addr = .ok (.ecFail, ipt) :=
  ipt_add_full (lend_none.mp full) addr

theorem add_lends (sound : Sound ipt) {addr : VirtAddr} (absent : frameOf ipt addr.key = none)
    (lent : lend (poolOf ipt) addr.key = some pool) :
    ∃ after, iptAdd ipt addr = .ok (.ecSuccess, after) ∧ Moved ipt after pool ∧
      after.refCount = ipt.refCount := by
  obtain ⟨chain, chained⟩ := sound.chained
  obtain ⟨new, rest, free, rfl⟩ := lend_some lent
  have free' : ipt.freePages = new :: rest := free
  obtain ⟨after, added, written, pages, count, hat⟩ := ipt_add_exact chained free' addr
  have kept := chained_add chained free' written pages hat
  have vacant := free_holds_none chained (i := new) (by simp [free'])
  have rewrites : Rewrites ipt after new (freshPage addr) addr.key :=
    { data := written.data
      named := fun _ => rfl
      clean := fun _ => rfl
      before := fun key held => absurd held (vacant key)
      elsewhere := fun i _ => (frame_none sound).mp absent i }
  have sound' := rewrites_sound rewrites sound ⟨_, kept⟩
  refine ⟨after, added, ⟨sound', ?_, written.size⟩, count⟩
  ext1
  · exact rewrites_frame rewrites sound sound'
  · exact rewrites_dirty rewrites sound sound'
  · exact pages

theorem add_data (sound : Sound ipt) {addr : VirtAddr} {new : Nat} {rest : List Nat}
    (free : ipt.freePages = new :: rest) (added : iptAdd ipt addr = .ok (.ecSuccess, after)) :
    dataOf after.entries = Function.update (dataOf ipt.entries) new (some (freshPage addr)) := by
  obtain ⟨chain, chained⟩ := sound.chained
  obtain ⟨after', added', written, -⟩ := ipt_add_exact chained free addr
  rw [added] at added'
  cases added'
  exact written.data

theorem remove_absent (sound : Sound ipt) {addr : VirtAddr}
    (absent : frameOf ipt addr.key = none) : iptRemove ipt addr = .ok (.ecNotFound, ipt) := by
  simp [iptRemove, get_vaddr_idx_frame sound, absent]

theorem held_hit (sound : Sound ipt) {chain : Nat → List Nat} (chained : Chained ipt chain)
    {addr : VirtAddr} {idx : Nat} (held : frameOf ipt addr.key = some idx) :
    (chain (bucket ipt.size addr)).find? (answers ipt.entries addr) = some idx := by
  have walked := get_vaddr_idx_frame sound addr
  rw [get_vaddr_idx_exact chained, held] at walked
  injection walked

theorem remove_data (sound : Sound ipt) {addr : VirtAddr} {idx : Nat}
    (held : frameOf ipt addr.key = some idx)
    (removed : iptRemove ipt addr = .ok (.ecSuccess, after)) :
    ∃ page : PageData, dataOf after.entries =
      Function.update (dataOf ipt.entries) idx (some { page with valid := false }) := by
  obtain ⟨chain, chained⟩ := sound.chained
  have hit := held_hit sound chained held
  obtain ⟨left, right, page, split, found, -, -⟩ := search_hit chained hit
  obtain ⟨after', removed', written, -⟩ := ipt_remove_exact chained hit split found
  rw [removed] at removed'
  cases removed'
  exact ⟨page, written.data⟩

theorem remove_gives (sound : Sound ipt) {addr : VirtAddr}
    (returned : giveBack (poolOf ipt) addr.key = some pool) :
    ∃ after, iptRemove ipt addr = .ok (.ecSuccess, after) ∧ Moved ipt after pool ∧
      after.refCount = ipt.refCount := by
  obtain ⟨chain, chained⟩ := sound.chained
  obtain ⟨idx, held, rfl⟩ := give_back_some returned
  have held' : frameOf ipt addr.key = some idx := held
  have hit := held_hit sound chained held'
  obtain ⟨left, right, data, split, found, valid, named⟩ := search_hit chained hit
  obtain ⟨after, removed, written, pages, count, hat⟩ := ipt_remove_exact chained hit split found
  have kept := chained_remove chained split found written pages hat
  have rewrites : Rewrites ipt after idx { data with valid := false } addr.key := by
    refine ⟨written.data, fun valid => absurd valid (by simp), fun valid => absurd valid (by simp), ?_, ?_⟩
    · rintro key ⟨page, stored, -, same⟩
      rw [found] at stored
      cases stored
      exact same.symm.trans named
    · exact fun i other held => other (sound.distinct _ i idx held ⟨data, found, valid, named⟩)
  have sound' := rewrites_sound rewrites sound ⟨_, kept⟩
  refine ⟨after, removed, ⟨sound', ?_, written.size⟩, count⟩
  ext1
  · exact rewrites_frame rewrites sound sound'
  · exact rewrites_dirty rewrites sound sound'
  · exact pages

def SameLabels (data data' : Nat → Option PageData) : Prop :=
  ∀ i, (data' i).map (fun page => (page.addr, page.valid)) =
    (data i).map (fun page => (page.addr, page.valid))

theorem same_labels_holds {data data' : Nat → Option PageData} (same : SameLabels data data')
    (key : Key) (i : Nat) : Holds data' key i ↔ Holds data key i := by
  have equal := same i
  unfold Holds
  cases new : data' i <;> cases old : data i <;> simp_all

theorem relabel_sound {data' : Nat → Option PageData} (sound : Sound ipt)
    (written : Rewritten ipt after (nextOf ipt.entries) (prevOf ipt.entries) data')
    (same : SameLabels (dataOf ipt.entries) data')
    (hat : after.hat = ipt.hat) (free : after.freePages = ipt.freePages) :
    Sound after ∧ frameOf after = frameOf ipt := by
  obtain ⟨chain, chained⟩ := sound.chained
  have holds : ∀ key i, Holds (dataOf after.entries) key i ↔ Holds (dataOf ipt.entries) key i := by
    intro key i
    rw [written.data]
    exact same_labels_holds same key i
  have sound' : Sound after :=
    ⟨⟨chain, chained_relabel chained written same hat free⟩, fun key i j a b =>
      sound.distinct key i j ((holds key i).mp a) ((holds key j).mp b)⟩
  refine ⟨sound', ?_⟩
  funext key
  ext i
  rw [frame_iff sound', holds, ← frame_iff sound]

def touchedPage (page : PageData) (reftype : RefType) : PageData :=
  { page with referenced := true, dirty := page.dirty || decide (reftype = .refWrite) }

theorem reference_exact (sound : Sound ipt) {addr : VirtAddr} {frame : Nat} {page : PageData}
    (held : frameOf ipt addr.key = some frame) (data : dataOf ipt.entries frame = some page)
    (reftype : RefType) :
    ∃ after, iptReference ipt addr reftype = .ok after ∧
      Rewritten ipt after (nextOf ipt.entries) (prevOf ipt.entries)
        (Function.update (dataOf ipt.entries) frame (some (touchedPage page reftype))) ∧
      after.hat = ipt.hat ∧ after.freePages = ipt.freePages ∧
      after.refCount = (ipt.refCount + 1) % 2 ^ 32 := by
  have bound := data_lt data
  let entry : IptEntry :=
    ⟨touchedPage page reftype, nextOf ipt.entries frame, prevOf ipt.entries frame⟩
  have stored := stored_exact ipt bound entry
  rw [redirect_self, redirect_self] at stored
  refine ⟨{ ipt with
    entries := ipt.entries.set frame entry
    refCount := (ipt.refCount + 1) % 2 ^ 32 }, ?_, ?_, rfl, rfl, rfl⟩
  · cases reftype <;>
      simp [iptReference, has_translation_exact sound, held, entryOf, get_vaddr_idx_frame sound,
        load_of_get (entry_of_data data), store_of_lt bound, entry, touchedPage]
  · exact ⟨rfl, stored.sized, stored.next, stored.prev, stored.data⟩

theorem reference_labels {frame : Nat} {page : PageData}
    (data : dataOf ipt.entries frame = some page) (reftype : RefType) :
    SameLabels (dataOf ipt.entries)
      (Function.update (dataOf ipt.entries) frame (some (touchedPage page reftype))) := by
  intro i
  by_cases here : i = frame
  · subst here
    simp [data, touchedPage]
  · simp [here]

theorem reference_touches (sound : Sound ipt) {addr : VirtAddr} {frame : Nat}
    (held : frameOf ipt addr.key = some frame) (reftype : RefType) :
    ∃ after, iptReference ipt addr reftype = .ok after ∧
      Moved ipt after (touch (poolOf ipt) addr.key (reftype = .refWrite)) ∧
      after.refCount = (ipt.refCount + 1) % 2 ^ 32 := by
  obtain ⟨page, data, valid, named⟩ := frame_holds held
  obtain ⟨after, ran, written, hat, free, count⟩ := reference_exact sound held data reftype
  obtain ⟨sound', frames⟩ :=
    relabel_sound sound written (reference_labels data reftype) hat free
  refine ⟨after, ran, ⟨sound', ?_, written.size⟩, count⟩
  ext1
  · exact frames
  · funext key
    have frames' : frameOf after key = frameOf ipt key := congrFun frames key
    simp only [poolOf, touch, dirtyOf, frames', written.data, Function.update_apply]
    by_cases same : key = addr.key
    · subst same
      simp [held, data, touchedPage]
    · cases elsewhere : frameOf ipt key with
      | none => simp [same]
      -- Another resident page has another frame, whose entry was not touched.
      | some other =>
          have distinct : other ≠ frame := by
            rintro rfl
            exact same ((sound_pool sound).injective key addr.key other elsewhere held)
          simp [same, distinct]
  · exact free

end Calls

end VmSim.PageTable
