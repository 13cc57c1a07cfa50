import VmSim.MemoryStore
import VmSim.ProcessTable

/-!
The page loops of `init_process` and `process_dealloc`: a chain of allocations
or of releases, each one action of the store.
-/

namespace VmSim.ProcessTable
open PageTable DiskBlocks KeyedMap FramePool DemandPaging MemoryUnit

/-- Sections one after the other, the latest action first. -/
inductive Chain (mmu : Mmu) : List ByteAction → Mmu → Prop where
  | nil : Chain mmu [] mmu
  | step {past middle after action} : Chain mmu past middle → Acts middle after action →
      Chain mmu (action :: past) after

variable {mmu after : Mmu} {actions : List ByteAction}

theorem chain_append {middle : Mmu} {later : List ByteAction} (first : Chain mmu actions middle)
    (second : Chain middle later after) : Chain mmu (later ++ actions) after := by
  induction second with
  | nil => exact first
  | step _ acts ih => exact ih.step acts

structure SameShape (mmu after : Mmu) : Prop where
  npages : after.mem.npages = mmu.mem.npages
  pageSize : after.mem.pageSize = mmu.mem.pageSize
  bitmap : after.disk.allocBitmap = mmu.disk.allocBitmap
  diskPages : after.disk.npages = mmu.disk.npages
  blockSize : after.disk.processBlockSize = mmu.disk.processBlockSize

theorem same_shape_refl (mmu : Mmu) : SameShape mmu mmu := ⟨rfl, rfl, rfl, rfl, rfl⟩

theorem same_shape_trans {middle : Mmu} (first : SameShape mmu middle)
    (second : SameShape middle after) : SameShape mmu after :=
  ⟨second.npages.trans first.npages, second.pageSize.trans first.pageSize,
    second.bitmap.trans first.bitmap, second.diskPages.trans first.diskPages,
    second.blockSize.trans first.blockSize⟩

theorem acts_shape {action : ByteAction} (acts : Acts mmu after action) : SameShape mmu after :=
  ⟨acts.npages, acts.pageSize, acts.bitmap, acts.diskPages, acts.blockSize⟩

theorem chain_shape (chain : Chain mmu actions after) : SameShape mmu after := by
  induction chain with
  | nil => exact same_shape_refl mmu
  | step _ acts ih => exact same_shape_trans ih (acts_shape acts)

theorem chain_sound (sound : MmuSound mmu) (chain : Chain mmu actions after) : MmuSound after := by
  cases chain with
  | nil => exact sound
  | step _ acts => exact acts.sound

theorem acts_path {action : ByteAction} (acts : Acts mmu after action) :
    Path (storeOf mmu) [action] (storeOf after) := by
  rw [acts.view]
  exact path_single acts.enabled

theorem chain_path (chain : Chain mmu actions after) :
    Path (storeOf mmu) actions (storeOf after) := by
  induction chain with
  | nil => exact .nil
  | step _ acts ih =>
      rw [acts.view]
      exact ih.step acts.enabled

theorem acts_backing {action : ByteAction} (acts : Acts mmu after action) :
    backingOf after = (action.apply (storeOf mmu)).backing := congrArg Store.backing acts.view

def allocActions (pid page backing : Nat) : Nat → List ByteAction
  | 0 => []
  | npages + 1 => allocActions pid (page + 1) (backing + 1) npages ++ [.alloc (pid, page) backing]

def freeActions (pid page : Nat) : Nat → List ByteAction
  | 0 => []
  | npages + 1 => freeActions pid (page + 1) npages ++ [.release (pid, page)]

theorem mem_alloc_actions {pid page backing npages : Nat} {action : ByteAction}
    (member : action ∈ allocActions pid page backing npages) :
    ∃ number slot, action = .alloc (pid, number) slot := by
  induction npages generalizing page backing with
  | zero => cases member
  | succ npages ih =>
      rcases List.mem_append.mp member with later | first
      · exact ih later
      · exact ⟨page, backing, List.mem_singleton.mp first⟩

theorem mem_free_actions {pid page npages : Nat} {action : ByteAction}
    (member : action ∈ freeActions pid page npages) : ∃ number, action = .release (pid, number) := by
  induction npages generalizing page with
  | zero => cases member
  | succ npages ih =>
      rcases List.mem_append.mp member with later | first
      · exact ih later
      · exact ⟨page, List.mem_singleton.mp first⟩

def InRange (pid page npages : Nat) (key : Key) : Prop :=
  key.1 = pid ∧ page ≤ key.2 ∧ key.2 < page + npages

instance (pid page npages : Nat) (key : Key) : Decidable (InRange pid page npages key) :=
  inferInstanceAs (Decidable (_ ∧ _ ∧ _))

theorem in_range_succ (pid page npages : Nat) (key : Key) :
    InRange pid page (npages + 1) key ↔
      key = (pid, page) ∨ InRange pid (page + 1) npages key := by
  obtain ⟨owner, number⟩ := key
  simp only [InRange, Prod.mk.injEq]
  omega

theorem first_outside {pid page npages : Nat} {key : Key}
    (inside : InRange pid (page + 1) npages key) : key ≠ (pid, page) := by
  rintro rfl
  exact absurd inside.2.1 (by simp)

theorem alloc_multiple_exact (sound : MmuSound mmu) {pid page backing npages : Nat}
    (unbacked : ∀ key, InRange pid page npages key → backingOf mmu key = none)
    (unused : ∀ i, i < npages → ∀ key, backingOf mmu key ≠ some (backing + i))
    (taken : ∀ i, i < npages → backing + i < mmu.disk.npages ∧
      allocated mmu.disk (backing + i) = true) :
    ∃ after, mmuAllocMultiple mmu pid page backing npages = .ok (.ecSuccess, after) ∧
      Chain mmu (allocActions pid page backing npages) after ∧
      ∀ key, backingOf after key =
        if InRange pid page npages key then some (backing + (key.2 - page))
        else backingOf mmu key := by
  induction npages generalizing mmu page backing with
  | zero =>
      refine ⟨mmu, rfl, .nil, ?_⟩
      intro key
      rw [if_neg (by unfold InRange; omega)]
  | succ npages ih =>
      have first := taken 0 (by omega)
      have enabled : (Action.alloc (VirtAddr.key ⟨pid, page, 0⟩) backing : ByteAction).Enabled
          (storeOf mmu) :=
        ⟨unbacked (pid, page) ((in_range_succ ..).mpr (.inl rfl)), unused 0 (by omega)⟩
      obtain ⟨middle, ran, acts⟩ := MemoryUnit.alloc_page_exact sound enabled
        first.1 first.2
      have backings : backingOf middle = Function.update (backingOf mmu) (pid, page) (some backing) :=
        acts_backing acts
      have shape := acts_shape acts
      have unbacked' : ∀ key, InRange pid (page + 1) npages key → backingOf middle key = none := by
        intro key inside
        rw [backings, Function.update_of_ne (first_outside inside)]
        exact unbacked key ((in_range_succ ..).mpr (.inr inside))
      -- The pages still to come stay unbacked and their disk pages unused and taken.
      have unused' : ∀ i, i < npages → ∀ key, backingOf middle key ≠ some (backing + 1 + i) := by
        intro i bound key
        rw [backings, Function.update_apply]
        split
        · simp only [ne_eq, Option.some.injEq]
          omega
        · have fresh := unused (i + 1) (by omega) key
          rwa [show backing + (i + 1) = backing + 1 + i by omega] at fresh
      have taken' : ∀ i, i < npages → backing + 1 + i < middle.disk.npages ∧
          allocated middle.disk (backing + 1 + i) = true := by
        intro i bound
        have here := taken (i + 1) (by omega)
        rw [show backing + (i + 1) = backing + 1 + i by omega] at here
        rw [shape.diskPages, allocated, shape.bitmap]
        exact here
      obtain ⟨after, looped, chain, lookups⟩ := ih acts.sound unbacked' unused' taken'
      refine ⟨after, by simp [mmuAllocMultiple, ran, looped], chain_append (.step .nil acts) chain, ?_⟩
      intro key
      rw [lookups key, backings, Function.update_apply]
      by_cases rest : InRange pid (page + 1) npages key
      · obtain ⟨-, low, -⟩ := id rest
        rw [if_pos rest, if_pos ((in_range_succ ..).mpr (.inr rest))]
        congr 1
        omega
      · by_cases here : key = (pid, page)
        · subst here
          rw [if_neg rest, if_pos rfl, if_pos ((in_range_succ ..).mpr (.inl rfl))]
          simp
        · rw [if_neg rest, if_neg here, if_neg]
          rw [in_range_succ]
          exact not_or.mpr ⟨here, rest⟩

theorem free_multiple_exact (sound : MmuSound mmu) {pid page npages : Nat}
    (backed : ∀ key, InRange pid page npages key → backingOf mmu key ≠ none) :
    ∃ after, mmuFreeMultiple mmu pid page npages = .ok (.ecSuccess, after) ∧
      Chain mmu (freeActions pid page npages) after ∧
      ∀ key, backingOf after key =
        if InRange pid page npages key then none else backingOf mmu key := by
  induction npages generalizing mmu page with
  | zero =>
      refine ⟨mmu, rfl, .nil, ?_⟩
      intro key
      rw [if_neg (by unfold InRange; omega)]
  | succ npages ih =>
      have enabled : (Action.release (VirtAddr.key ⟨pid, page, 0⟩) : ByteAction).Enabled
          (storeOf mmu) :=
        backed (pid, page) ((in_range_succ ..).mpr (.inl rfl))
      -- Freeing the first page leaves the others backed.
      obtain ⟨middle, ran, acts⟩ := MemoryUnit.free_page_exact sound enabled
      have backings : backingOf middle = Function.update (backingOf mmu) (pid, page) none :=
        acts_backing acts
      have backed' : ∀ key, InRange pid (page + 1) npages key → backingOf middle key ≠ none := by
        intro key inside
        rw [backings, Function.update_of_ne (first_outside inside)]
        exact backed key ((in_range_succ ..).mpr (.inr inside))
      obtain ⟨after, looped, chain, lookups⟩ := ih acts.sound backed'
      refine ⟨after, by simp [mmuFreeMultiple, ran, looped], chain_append (.step .nil acts) chain, ?_⟩
      intro key
      rw [lookups key, backings, Function.update_apply]
      by_cases rest : InRange pid (page + 1) npages key
      · rw [if_pos rest, if_pos ((in_range_succ ..).mpr (.inr rest))]
      · by_cases here : key = (pid, page)
        · subst here
          rw [if_neg rest, if_pos rfl, if_pos ((in_range_succ ..).mpr (.inl rfl))]
        · rw [if_neg rest, if_neg here, if_neg]
          rw [in_range_succ]
          exact not_or.mpr ⟨here, rest⟩

end VmSim.ProcessTable
