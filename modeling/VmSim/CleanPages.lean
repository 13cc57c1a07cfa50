import VmSim.ProcessInvariant

/-!
When a clean page equals its backing page. Eviction drops a clean page without
copying it, which is sound as long as every way a page becomes resident leaves
frame and backing page equal. Swapping in copies the page; a creation maps its
pages to free frames and copies nothing, so it has to find the frames equal to
the new backing pages already. A frame a deleted process has written to is not.
-/

namespace VmSim.ProcessTable
open PageTable DiskBlocks KeyedMap FramePool DemandPaging MemoryUnit BlockAllocator AlignedBlocks
open PageReplacement PagingRuns PagedBytes

/-- The frames a creation hands out hold the bytes of its backing pages. -/
def Step.Fresh (s : System) : Step → Prop
  | .create past => ∀ page,
      PackedBitmap.bitmapFirstClear past s.cont.mmu.disk.allocBitmap = some page →
      ∀ k, k < s.cont.prcBlkSize → ∀ frame, s.cont.mmu.memIpt.freePages[k]? = some frame →
        pageSlice s.cont.mmu.mem.data s.cont.mmu.mem.pageSize frame =
          pageSlice s.cont.mmu.disk.data s.cont.mmu.disk.pageSize (page + k)
  | _ => True

def FreshStep (s : System) (next : Step) : Prop :=
  next.Allowed s ∧ next.InPage s ∧ next.Fresh s

/-- A step that neither deletes the page nor writes at the offset. -/
def Step.Leaves (key : Key) (offset : Nat) : Step → Prop
  | .dealloc pid => pid ≠ key.1
  | .memory (.write addr buf) => addr.key = key → changeOf addr buf offset = none
  | _ => True

section Paths
variable {frames : List Nat} {store last : ByteStore}

theorem alloc_path_synced {pid page backing npages : Nat} (layout : Layout frames store)
    (synced : Synced store)
    (fresh : ∀ k, k < npages → ∀ frame, store.pool.free[k]? = some frame →
      store.memory frame = store.disk (backing + k))
    (path : Path store (allocActions pid page backing npages) last) : Synced last := by
  induction npages generalizing store page backing with
  | zero =>
      cases path
      exact synced
  | succ npages ih =>
      obtain ⟨middle, first, rest⟩ := path_split path
      cases first with
      | step before enabled =>
          cases before
          -- The page just allocated shows its frame's bytes, which the disk page already has;
          -- the pages still to come find their frames one place further down the free list.
          have absent := alloc_absent layout enabled
          refine ih (action_layout layout enabled) ?_ ?_ rest
          · apply action_synced layout synced enabled
            intro key slot frame same held
            cases same
            cases free : store.pool.free with
            | nil =>
                have none : lend store.pool (pid, page) = none := lend_none.mpr free
                rw [none, Option.getD_none, absent] at held
                cases held
            | cons head tail =>
                have one : head = frame := by simpa [lend, free] using held
                exact fresh 0 (by omega) frame (by simp [free, one])
          · intro k bound frame there
            have shifted : store.pool.free[k + 1]? = some frame := by
              cases free : store.pool.free with
              | nil => simp [Action.apply, lend, free] at there
              | cons head tail => simpa [Action.apply, lend, free] using there
            have equal := fresh (k + 1) (by omega) frame shifted
            rwa [show backing + (k + 1) = backing + 1 + k by omega] at equal

theorem path_synced {actions : List ByteAction} (layout : Layout frames store)
    (synced : Synced store) (none : ∀ key slot, Action.alloc key slot ∉ actions)
    (path : Path store actions last) : Synced last := by
  induction path with
  | nil => exact synced
  | @step past before next path enabled ih =>
      have earlier := ih fun key slot member => none key slot (List.mem_cons_of_mem _ member)
      apply action_synced (path_layout layout path) earlier enabled
      intro key slot frame same
      exact absurd (by simp [same]) (none key slot)

theorem free_no_alloc (pid page npages : Nat) (key : Key) (slot : Nat) :
    Action.alloc key slot ∉ freeActions pid page npages := by
  intro member
  obtain ⟨number, same⟩ := mem_free_actions member
  cases same

theorem path_contents {actions : List ByteAction} {key : Key} {offset : Nat}
    (layout : Layout frames store) (backed : store.backing key ≠ none)
    (leaves : ∀ action ∈ actions, action.Leaves key offset)
    (stays : Action.evict key ∉ actions) (path : Path store actions last) :
    last.backing key = store.backing key ∧ contents last key offset = contents store key offset := by
  induction path with
  | nil => exact ⟨rfl, rfl⟩
  | @step past before next path enabled ih =>
      obtain ⟨slot, same⟩ := ih (fun action member => leaves action (List.mem_cons_of_mem _ member))
        fun member => stays (List.mem_cons_of_mem _ member)
      obtain ⟨slot', same'⟩ := action_contents (path_layout layout path) enabled
        (by rw [slot]; exact backed) (leaves next (by simp))
        fun evicts => absurd (by simp [evicts]) stays
      exact ⟨slot'.trans slot, same'.trans same⟩

theorem alloc_leaves (pid page backing npages : Nat) (key : Key) (offset : Nat) :
    ∀ action ∈ allocActions pid page backing npages, action.Leaves key offset := by
  intro action member
  obtain ⟨number, slot, rfl⟩ := mem_alloc_actions member
  trivial

theorem alloc_no_evict (pid page backing npages : Nat) (key : Key) :
    Action.evict key ∉ allocActions pid page backing npages := by
  intro member
  obtain ⟨number, slot, same⟩ := mem_alloc_actions member
  cases same

theorem free_leaves {pid : Nat} {key : Key} (other : pid ≠ key.1) (page npages offset : Nat) :
    ∀ action ∈ freeActions pid page npages, action.Leaves key offset := by
  intro action member
  obtain ⟨number, rfl⟩ := mem_free_actions member
  rintro rfl
  exact other rfl

theorem free_no_evict (pid page npages : Nat) (key : Key) :
    Action.evict key ∉ freeActions pid page npages := by
  intro member
  obtain ⟨number, same⟩ := mem_free_actions member
  cases same

end Paths

theorem page_slice_eq {left right : List BYTE} {size i j : Nat} :
    pageSlice left size i = pageSlice right size j ↔ pageCell left size i = pageCell right size j := by
  constructor
  · intro same
    funext offset
    rw [← page_slice_get, ← page_slice_get, same]
  · intro same
    apply List.ext_getElem?
    intro offset
    rw [page_slice_get, page_slice_get, same]

section Steps
variable {s after : System} {next : Step} {code : Int}

theorem step_synced (sound : ContSound s.cont) (synced : Synced (storeOf s.cont.mmu))
    (fresh : next.Fresh s) (advanced : Advanced s next code after) :
    Synced (storeOf after.cont.mmu) := by
  have layout := sound.mmu.layout
  obtain ⟨actions, performs, path⟩ := advanced.performs
  cases performs with
  | create returned first =>
      apply alloc_path_synced layout synced _ path
      intro k bound frame free
      have equal := fresh _ first k bound frame free
      rw [sound.mmu.geometry.samePage, page_slice_eq] at equal
      change pageCell s.cont.mmu.mem.data _ frame = pageCell s.cont.mmu.disk.data _ _
      rw [sound.mmu.geometry.samePage]
      exact equal
  | dealloc => exact path_synced layout synced (free_no_alloc _ _ _) path
  | load => exact path_synced layout synced (by simp) path
  | swap distinct full => exact path_synced layout synced (by simp) path
  | read => exact path_synced layout synced (by simp) path
  | write => exact path_synced layout synced (by simp) path
  | quiet still => exact path_synced layout synced (by simp) path

theorem step_contents (sound : ContSound s.cont) (synced : Synced (storeOf s.cont.mmu))
    (advanced : Advanced s next code after) {key : Key} {offset : Nat}
    (backed : backingOf s.cont.mmu key ≠ none) (leaves : next.Leaves key offset) :
    backingOf after.cont.mmu key = backingOf s.cont.mmu key ∧
      contents (storeOf after.cont.mmu) key offset = contents (storeOf s.cont.mmu) key offset := by
  have layout := sound.mmu.layout
  obtain ⟨actions, performs, path⟩ := advanced.performs
  cases performs with
  | create returned first =>
      exact path_contents layout backed (alloc_leaves _ _ _ _ key offset)
        (alloc_no_evict _ _ _ _ key) path
  | dealloc =>
      exact path_contents layout backed (free_leaves leaves _ _ offset) (free_no_evict _ _ _ key) path
  | load => exact path_contents layout backed (by simp [Action.Leaves]) (by simp) path
  | @swap addr victim distinct full =>
      have split : Path (storeOf s.cont.mmu) ([.load addr.key] ++ [.evict victim])
          (storeOf after.cont.mmu) := path
      -- Writing the victim back keeps what it holds; the load brings in another page.
      obtain ⟨middle, evicts, loads⟩ := path_split split
      cases evicts with
      | step before enabled =>
          cases before
          obtain ⟨slot, same⟩ := action_contents layout enabled backed trivial fun _ => synced
          obtain ⟨slot', same'⟩ := path_contents (action_layout layout enabled)
            (by rw [slot]; exact backed) (by simp [Action.Leaves]) (by simp) loads
          exact ⟨slot'.trans slot, same'.trans same⟩
  | read => exact path_contents layout backed (by simp [Action.Leaves]) (by simp) path
  | @write addr buf =>
      refine path_contents layout backed ?_ (by simp) path
      intro action member
      rw [List.mem_singleton.mp member]
      exact leaves
  | quiet still => exact path_contents layout backed (by simp) (by simp) path

end Steps

theorem run_synced {begin s : System} {past : List Step} (sound : ContSound begin.cont)
    (synced : Synced (storeOf begin.cont.mmu)) (run : Run FreshStep begin past s) :
    ContSound s.cont ∧ Synced (storeOf s.cont.mmu) := by
  induction run with
  | nil => exact ⟨sound, synced⟩
  | step next _ guarded ran code ih =>
      obtain ⟨before, equal⟩ := ih
      obtain ⟨allowed, inPage, fresh⟩ := guarded
      have advanced := step_advances before allowed inPage ran code
      exact ⟨advanced.sound, step_synced before equal fresh advanced⟩

theorem run_contents {begin s : System} {past : List Step} (sound : ContSound begin.cont)
    (synced : Synced (storeOf begin.cont.mmu)) (run : Run FreshStep begin past s) {key : Key}
    {offset : Nat} (backed : backingOf begin.cont.mmu key ≠ none)
    (leaves : ∀ next ∈ past, next.Leaves key offset) :
    backingOf s.cont.mmu key = backingOf begin.cont.mmu key ∧
      contents (storeOf s.cont.mmu) key offset = contents (storeOf begin.cont.mmu) key offset := by
  induction run with
  | nil => exact ⟨rfl, rfl⟩
  | step next earlier guarded ran code ih =>
      obtain ⟨before, equal⟩ := run_synced sound synced earlier
      obtain ⟨allowed, inPage, -⟩ := guarded
      have advanced := step_advances before allowed inPage ran code
      obtain ⟨slot, same⟩ := ih fun other member => leaves other (List.mem_cons_of_mem _ member)
      obtain ⟨slot', same'⟩ := step_contents before equal advanced (by rw [slot]; exact backed)
        (leaves next (by simp))
      exact ⟨slot'.trans slot, same'.trans same⟩

theorem initial_system_sound {frames pages size block : Nat} (oneFrame : 0 < frames)
    (onePage : 0 < pages) (positive : 0 < block) (memSmall : frames * size < 2 ^ 31)
    (diskSmall : pages * size < 2 ^ 31) (nprocs freq : Nat) :
    ContSound (initialSystem frames pages size block nprocs freq).cont :=
  initial_sound (init_setup oneFrame onePage memSmall diskSmall) positive
    (PackedBitmap.bitmap_init_bit pages) nprocs freq

theorem initial_synced {frames : Nat} (oneFrame : 0 < frames) (pages size block nprocs freq : Nat) :
    Synced (storeOf (initialSystem frames pages size block nprocs freq).cont.mmu) := by
  intro key frame slot held
  have absent := ipt_init_frame oneFrame key
  have held' : frameOf (iptInit frames) key = some frame := held
  rw [absent] at held'
  cases held'

/-- In every state of a run whose creations find fresh frames a clean page equals
its backing page, syncing a page makes the two equal, and a byte nobody writes
reads the same whatever happens to its page. -/
theorem clean_pages_equal {frames pages size block : Nat} (oneFrame : 0 < frames)
    (onePage : 0 < pages) (positive : 0 < block) (memSmall : frames * size < 2 ^ 31)
    (diskSmall : pages * size < 2 ^ 31) (nprocs freq : Nat) {past : List Step} {s : System}
    (run : Run FreshStep (initialSystem frames pages size block nprocs freq) past s) :
    (∀ addr frame page, frameOf s.cont.mmu.memIpt addr.key = some frame →
      iptIsDirty s.cont.mmu.memIpt addr = .ok false →
      mapGet diskMapComparator s.cont.mmu.diskMap addr = some page →
      pageSlice s.cont.mmu.mem.data s.cont.mmu.mem.pageSize frame =
        pageSlice s.cont.mmu.disk.data s.cont.mmu.disk.pageSize page) ∧
    (∀ addr frame page, frameOf s.cont.mmu.memIpt addr.key = some frame →
      mapGet diskMapComparator s.cont.mmu.diskMap addr = some page →
      ∃ after, mmuSyncToBackingPage s.cont.mmu addr = .ok (.ecSuccess, after) ∧
        pageSlice after.mem.data after.mem.pageSize frame =
          pageSlice after.disk.data after.disk.pageSize page) ∧
    (∀ later t, Run FreshStep s later t → ∀ key offset frame frame',
      (∀ next ∈ later, next.Leaves key offset) →
      frameOf s.cont.mmu.memIpt key = some frame → frameOf t.cont.mmu.memIpt key = some frame' →
      pageCell s.cont.mmu.mem.data s.cont.mmu.mem.pageSize frame offset =
        pageCell t.cont.mmu.mem.data t.cont.mmu.mem.pageSize frame' offset) := by
  obtain ⟨sound, synced⟩ := run_synced
    (initial_system_sound oneFrame onePage positive memSmall diskSmall nprocs freq)
    (initial_synced oneFrame pages size block nprocs freq) run
  have samePage := sound.mmu.geometry.samePage
  refine ⟨?_, ?_, ?_⟩
  · intro addr frame page held clean backed
    rw [backing_exact] at backed
    rw [is_dirty_exact sound.mmu.table held, Except.ok.injEq] at clean
    have equal : pageCell s.cont.mmu.mem.data s.cont.mmu.mem.pageSize frame =
        pageCell s.cont.mmu.disk.data s.cont.mmu.disk.pageSize page :=
      synced addr.key frame page held backed clean
    rw [samePage] at equal ⊢
    exact page_slice_eq.mpr equal
  · intro addr frame page held backed
    rw [backing_exact] at backed
    obtain ⟨data, ran, length, copied⟩ := sync_to_exact sound.mmu held
    refine ⟨_, ran, ?_⟩
    have own := congrFun copied page
    have held' : (storeOf s.cont.mmu).pool.frame addr.key = some frame := held
    have backed' : (storeOf s.cont.mmu).backing addr.key = some page := backed
    rw [write_back_own held' backed'] at own
    have equal : pageCell s.cont.mmu.mem.data s.cont.mmu.mem.pageSize frame =
        pageCell data s.cont.mmu.disk.pageSize page := by
      rw [own]
      -- A dirty page is copied out, a clean one already equals its disk page.
      split
      · rfl
      · rename_i clean
        exact synced addr.key frame page held backed (by simpa using clean)
    change pageSlice s.cont.mmu.mem.data s.cont.mmu.mem.pageSize frame =
      pageSlice data s.cont.mmu.disk.pageSize page
    rw [samePage] at equal ⊢
    exact page_slice_eq.mpr equal
  · intro later t more key offset frame frame' leaves held held'
    obtain ⟨page, backed⟩ := sound.mmu.layout.backed key frame held
    have stored : backingOf s.cont.mmu key ≠ none :=
      Option.ne_none_iff_exists'.mpr ⟨page, backed⟩
    obtain ⟨-, same⟩ := run_contents sound synced more stored leaves
    have known : (storeOf s.cont.mmu).pool.frame key = some frame := held
    have known' : (storeOf t.cont.mmu).pool.frame key = some frame' := held'
    rw [contents_resident known, contents_resident known'] at same
    exact same.symm

instance (s : System) (next : Step) : Decidable (next.InPage s) :=
  match next with
  | .memory (.read addr nbytes) => Nat.decLe (addr.offset + nbytes) s.cont.mmu.mem.pageSize
  | .memory (.write addr buf) => Nat.decLe (addr.offset + buf.length) s.cont.mmu.mem.pageSize
  | .create _ | .start _ | .destroy _ | .dealloc _ | .memory (.pin _) | .memory (.service _)
  | .memory .age | .memory (.allocPage _ _) | .memory (.freePage _) | .memory (.allocBlock _)
  | .memory (.freeBlock _) => inferInstanceAs (Decidable True)

/-- The new block is where the first clear page is, so only that page is looked at. -/
def freshFrames (s : System) (page : Nat) : Bool :=
  (List.range s.cont.prcBlkSize).all fun k =>
    (s.cont.mmu.memIpt.freePages[k]?).all fun frame =>
      pageSlice s.cont.mmu.mem.data s.cont.mmu.mem.pageSize frame ==
        pageSlice s.cont.mmu.disk.data s.cont.mmu.disk.pageSize (page + k)

theorem fresh_create_iff (s : System) (past : Nat → PackedBitmap.Block) :
    (PackedBitmap.bitmapFirstClear past s.cont.mmu.disk.allocBitmap).all (freshFrames s) = true ↔
      (Step.create past).Fresh s := by
  unfold Step.Fresh
  cases found : PackedBitmap.bitmapFirstClear past s.cont.mmu.disk.allocBitmap with
  | none => simp [found]
  | some page => simp [found, freshFrames, Option.all_eq_true]

instance (s : System) (next : Step) : Decidable (next.Fresh s) :=
  match next with
  | .create past => decidable_of_iff _ (fresh_create_iff s past)
  | .start _ | .destroy _ | .dealloc _ | .memory _ => inferInstanceAs (Decidable True)

instance (s : System) (next : Step) : Decidable (FreshStep s next) :=
  inferInstanceAs (Decidable (_ ∧ _ ∧ _))

/-- A page whose eviction wrote it back and that was brought in again is clean. -/
theorem clean_pages_equal_swapped :
    ∃ s, Run FreshStep (initialSystem 1 2 1 1 2 1)
        [.memory (.service ⟨0, 0, 0⟩), .memory (.service ⟨1, 0, 0⟩),
          .memory (.write ⟨0, 0, 0⟩ [7]), .create fun _ => 0, .create fun _ => 0] s ∧
      pageSlice s.cont.mmu.mem.data s.cont.mmu.mem.pageSize 0 =
        pageSlice s.cont.mmu.disk.data s.cont.mmu.disk.pageSize 0 := by
  have replayed : ((replaySteps FreshStep (initialSystem 1 2 1 1 2 1)
      [.create fun _ => 0, .create fun _ => 0, .memory (.write ⟨0, 0, 0⟩ [7]),
        .memory (.service ⟨1, 0, 0⟩), .memory (.service ⟨0, 0, 0⟩)]).any fun s =>
      decide (frameOf s.cont.mmu.memIpt (0, 0) = some 0 ∧
        iptIsDirty s.cont.mmu.memIpt ⟨0, 0, 0⟩ = .ok false ∧
        mapGet diskMapComparator s.cont.mmu.diskMap ⟨0, 0, 0⟩ = some 0)) = true := by decide
  obtain ⟨s, reached, facts⟩ := (Option.any_eq_true _ _).mp replayed
  obtain ⟨held, clean, backed⟩ := of_decide_eq_true facts
  have run := replay_steps_run (.nil : Run FreshStep (initialSystem 1 2 1 1 2 1) [] _) reached
  refine ⟨s, by simpa using run, ?_⟩
  exact (clean_pages_equal (by decide) (by decide) (by decide) (by decide) (by decide) 2 1 run).1
    ⟨0, 0, 0⟩ 0 0 held clean backed

/-- A process created in the frame and the block of a deleted one: its page is
clean and is not its backing page. -/
theorem clean_page_differs :
    ∃ s, Run (fun s next => next.Allowed s ∧ next.InPage s) (initialSystem 1 1 1 1 1 1)
        [.create fun _ => 0, .dealloc 0, .destroy 0, .memory (.write ⟨0, 0, 0⟩ [7]), .start 0,
          .create fun _ => 0] s ∧
      frameOf s.cont.mmu.memIpt (0, 0) = some 0 ∧
      iptIsDirty s.cont.mmu.memIpt ⟨0, 0, 0⟩ = .ok false ∧
      mapGet diskMapComparator s.cont.mmu.diskMap ⟨0, 0, 0⟩ = some 0 ∧
      pageSlice s.cont.mmu.mem.data s.cont.mmu.mem.pageSize 0 = [7] ∧
      pageSlice s.cont.mmu.disk.data s.cont.mmu.disk.pageSize 0 = [0] := by
  have replayed : ((replaySteps (fun s next => next.Allowed s ∧ next.InPage s)
      (initialSystem 1 1 1 1 1 1)
      [.create fun _ => 0, .start 0, .memory (.write ⟨0, 0, 0⟩ [7]), .destroy 0, .dealloc 0,
        .create fun _ => 0]).any fun s =>
      decide (frameOf s.cont.mmu.memIpt (0, 0) = some 0 ∧
        iptIsDirty s.cont.mmu.memIpt ⟨0, 0, 0⟩ = .ok false ∧
        mapGet diskMapComparator s.cont.mmu.diskMap ⟨0, 0, 0⟩ = some 0 ∧
        pageSlice s.cont.mmu.mem.data s.cont.mmu.mem.pageSize 0 = [7] ∧
        pageSlice s.cont.mmu.disk.data s.cont.mmu.disk.pageSize 0 = [0])) = true := by decide
  obtain ⟨s, reached, facts⟩ := (Option.any_eq_true _ _).mp replayed
  exact ⟨s, by simpa using replay_steps_run .nil reached, of_decide_eq_true facts⟩

end VmSim.ProcessTable
