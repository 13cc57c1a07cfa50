import VmSim.AgeHistory

/-!
One page fault, served on an MMU of any size. A consistent MMU has what every
reachable state has; where the positions of the pages that the service may
touch fit the integers that hold them, the service loads the page, evicts one
page exactly when no frame is free and leaves everything else as it is.
-/

namespace VmSim.PageReplacement
open PageTable DiskBlocks KeyedMap FramePool PagedBytes MemoryUnit AgeHistory

structure Consistent (mmu : Mmu) : Prop where
  frames : mmu.memIpt.size = mmu.mem.npages
  samePage : mmu.disk.pageSize = mmu.mem.pageSize
  memSized : mmu.mem.data.length = mmu.mem.npages * mmu.mem.pageSize
  diskSized : mmu.disk.data.length = mmu.disk.npages * mmu.disk.pageSize
  table : Sound mmu.memIpt
  bitmap : DiskBlocks.WellFormed mmu.disk
  backed : ∀ key slot, backingOf mmu key = some slot →
    slot < mmu.disk.npages ∧ allocated mmu.disk slot = true
  resident : ∀ key, frameOf mmu.memIpt key ≠ none → backingOf mmu key ≠ none
  distinct : ∀ left right slot, backingOf mmu left = some slot → backingOf mmu right = some slot →
    left = right

/-- The positions of the pages that the service of a fault may touch fit an
`unsigned` in memory and an `int` on the disk. -/
structure Fits (mmu : Mmu) (addr : VirtAddr) : Prop where
  home : ∀ slot, backingOf mmu addr.key = some slot → slot * mmu.disk.pageSize < 2 ^ 31
  free : ∀ frame, mmu.memIpt.freePages.head? = some frame → frame * mmu.mem.pageSize < 2 ^ 32
  victim : mmu.memIpt.freePages = [] → ∀ key frame, frameOf mmu.memIpt key = some frame →
    frame * mmu.mem.pageSize < 2 ^ 32 ∧ (dirtyOf mmu.memIpt key = true →
      ∀ slot, backingOf mmu key = some slot → slot * mmu.disk.pageSize < 2 ^ 31)

def frameBytes (mmu : Mmu) (frame : Nat) : List BYTE :=
  pageSlice mmu.mem.data mmu.mem.pageSize frame

def diskBytes (mmu : Mmu) (slot : Nat) : List BYTE :=
  pageSlice mmu.disk.data mmu.disk.pageSize slot

section Consistency
variable {mmu : Mmu}

theorem consistent_frame (consistent : Consistent mmu) {key : Key} {frame : Nat}
    (held : frameOf mmu.memIpt key = some frame) : frame < mmu.mem.npages := by
  rw [← consistent.frames]
  exact frame_lt consistent.table held

theorem consistent_placed (consistent : Consistent mmu) {page : VirtAddr} {frame slot : Nat}
    (held : frameOf mmu.memIpt page.key = some frame)
    (backed : backingOf mmu page.key = some slot)
    (frameStart : frame * mmu.mem.pageSize < 2 ^ 32)
    (slotStart : slot * mmu.disk.pageSize < 2 ^ 31) : Placed mmu page frame slot := by
  obtain ⟨bound, set⟩ := consistent.backed page.key slot backed
  refine ⟨consistent.table, held, backed, consistent.bitmap, bound, set, consistent.samePage,
    frameStart, ?_, slotStart, ?_⟩
  · rw [consistent.memSized]
    exact page_end_le mmu.mem.pageSize (consistent_frame consistent held)
  · rw [consistent.diskSized]
    exact page_end_le mmu.disk.pageSize bound

theorem small_fits (consistent : Consistent mmu) {addr : VirtAddr}
    (memSmall : mmu.mem.npages * mmu.mem.pageSize ≤ 2 ^ 32)
    (diskSmall : mmu.disk.npages * mmu.disk.pageSize ≤ 2 ^ 31) : Fits mmu addr := by
  have starts : ∀ {pages size bound page : Nat}, pages * size ≤ bound → 0 < bound → page < pages →
      page * size < bound := by
    intro pages size bound page small positive inside
    have last := page_end_le size inside
    rcases Nat.eq_zero_or_pos size with rfl | some
    · omega
    · omega
  have disk : ∀ key slot, backingOf mmu key = some slot → slot * mmu.disk.pageSize < 2 ^ 31 :=
    fun key slot backed => starts diskSmall (by decide) (consistent.backed key slot backed).1
  have mem : ∀ frame, frame < mmu.mem.npages → frame * mmu.mem.pageSize < 2 ^ 32 :=
    fun frame inside => starts memSmall (by decide) inside
  refine ⟨disk addr.key, fun frame free => mem frame ?_, fun _ key frame held => ⟨mem frame ?_,
    fun _ => disk key⟩⟩
  · have member : frame ∈ (poolOf mmu.memIpt).free := List.mem_of_head? free
    have all := ((sound_pool consistent.table).split frame).mpr (.inl member)
    rw [← consistent.frames]
    exact List.mem_range.mp all
  · exact consistent_frame consistent held

end Consistency

/-- The page `page` is written back to `slot` if it was dirty, and unmapped. -/
structure SwappedOut (mmu after : Mmu) (page : VirtAddr) (frame slot : Nat) : Prop where
  mem : after.mem = mmu.mem
  diskMap : after.diskMap = mmu.diskMap
  disk : after.disk = { mmu.disk with data := after.disk.data }
  gone : frameOf after.memIpt page.key = none
  kept : ∀ key, key ≠ page.key → frameOf after.memIpt key = frameOf mmu.memIpt key
  data : ∀ i, i ≠ frame → dataOf after.memIpt.entries i = dataOf mmu.memIpt.entries i
  free : after.memIpt.freePages = mmu.memIpt.freePages ++ [frame]
  bytes : ∀ other, diskBytes after other =
    if other = slot ∧ dirtyOf mmu.memIpt page.key = true then frameBytes mmu frame
    else diskBytes mmu other

section SwappingOut
variable {mmu : Mmu}

theorem sync_to_written (consistent : Consistent mmu) {page : VirtAddr} {frame slot : Nat}
    (held : frameOf mmu.memIpt page.key = some frame)
    (backed : backingOf mmu page.key = some slot)
    (fits : dirtyOf mmu.memIpt page.key = true →
      frame * mmu.mem.pageSize < 2 ^ 32 ∧ slot * mmu.disk.pageSize < 2 ^ 31) :
    ∃ data, mmuSyncToBackingPage mmu page =
        .ok (.ecSuccess, { mmu with disk := { mmu.disk with data := data } }) ∧
      data.length = mmu.disk.data.length ∧
      ∀ other, pageSlice data mmu.disk.pageSize other =
        if other = slot ∧ dirtyOf mmu.memIpt page.key = true then frameBytes mmu frame
        else diskBytes mmu other := by
  cases dirty : dirtyOf mmu.memIpt page.key with
  | false => exact ⟨_, sync_to_clean consistent.table held dirty, rfl, fun other => by simp [diskBytes]⟩
  | true =>
      obtain ⟨frameStart, slotStart⟩ := fits dirty
      have placed := consistent_placed consistent held backed frameStart slotStart
      have length : (pageSlice mmu.mem.data mmu.disk.pageSize frame).length = mmu.disk.pageSize :=
        slice_length (by rw [placed.samePage]; exact placed.frameRoom)
      refine ⟨_, sync_to_dirty placed dirty, ?_, fun other => ?_⟩
      · exact overwrite_length (by rw [length]; exact placed.slotRoom)
      · rw [overwrite_page length placed.slotRoom]
        simp [frameBytes, diskBytes, placed.samePage]

theorem swap_out_written (consistent : Consistent mmu) {page : VirtAddr} {frame slot : Nat}
    (held : frameOf mmu.memIpt page.key = some frame)
    (backed : backingOf mmu page.key = some slot)
    (fits : dirtyOf mmu.memIpt page.key = true →
      frame * mmu.mem.pageSize < 2 ^ 32 ∧ slot * mmu.disk.pageSize < 2 ^ 31) :
    ∃ after, prmSwapOut mmu page = .ok after ∧ SwappedOut mmu after page frame slot ∧
      Consistent after := by
  obtain ⟨data, synced, length, bytes⟩ := sync_to_written consistent held backed fits
  obtain ⟨pool, returned⟩ : ∃ pool, giveBack (poolOf mmu.memIpt) page.key = some pool :=
    ⟨_, Option.map_eq_some_iff.mpr ⟨frame, held, rfl⟩⟩
  obtain ⟨ipt, removed, moved, -⟩ := remove_gives consistent.table returned
  obtain ⟨old, written⟩ := remove_data consistent.table held removed
  obtain ⟨frame', held', poolEq⟩ := give_back_some returned
  have same : frame' = frame := Option.some.inj (held'.symm.trans held)
  subst same
  -- Only the page swapped out loses its frame.
  have frames : frameOf ipt = Function.update (frameOf mmu.memIpt) page.key none := by
    have view : frameOf ipt = pool.frame := congrArg Pool.frame moved.pool
    rw [view, poolEq]
    rfl
  have kept : ∀ key, key ≠ page.key → frameOf ipt key = frameOf mmu.memIpt key := by
    intro key other
    rw [frames, Function.update_of_ne other]
  refine ⟨{ mmu with memIpt := ipt, disk := { mmu.disk with data := data } },
    by simp [prmSwapOut, synced, mmuUnmapPage, removed], ?_, ?_⟩
  · refine ⟨rfl, rfl, rfl, by simp [frames], kept, fun i other => ?_, ?_, bytes⟩
    · rw [written, Function.update_of_ne other]
    · have free : ipt.freePages = pool.free := congrArg Pool.free moved.pool
      rw [free, poolEq]
      rfl
  · refine ⟨moved.size.trans consistent.frames, consistent.samePage, consistent.memSized,
      length.trans consistent.diskSized, moved.sound,
      ⟨consistent.bitmap.bitmap, consistent.bitmap.sized⟩, consistent.backed,
      fun key held => ?_, consistent.distinct⟩
    have before : frameOf mmu.memIpt key ≠ none := by
      by_cases own : key = page.key
      · simp [own, frames] at held
      · rwa [← kept key own]
    exact consistent.resident key before

end SwappingOut

/-- The absent page `addr` is loaded from `slot` into `frame`. -/
structure LoadedIn (mmu after : Mmu) (addr : VirtAddr) (frame slot : Nat) : Prop where
  disk : after.disk = mmu.disk
  diskMap : after.diskMap = mmu.diskMap
  table : Sound after.memIpt
  held : frameOf after.memIpt addr.key = some frame
  clean : dirtyOf after.memIpt addr.key = false
  kept : ∀ key, key ≠ addr.key → frameOf after.memIpt key = frameOf mmu.memIpt key
  data : ∀ i, i ≠ frame → dataOf after.memIpt.entries i = dataOf mmu.memIpt.entries i
  bytes : ∀ other, frameBytes after other =
    if other = frame then diskBytes mmu slot else frameBytes mmu other

section Loading
variable {mmu : Mmu}

theorem load_written (consistent : Consistent mmu) {addr : VirtAddr} {frame slot : Nat}
    {rest : List Nat} (absent : frameOf mmu.memIpt addr.key = none)
    (backed : backingOf mmu addr.key = some slot) (free : mmu.memIpt.freePages = frame :: rest)
    (frameStart : frame * mmu.mem.pageSize < 2 ^ 32)
    (slotStart : slot * mmu.disk.pageSize < 2 ^ 31) :
    ∃ mapped after, mmuMapPage mmu addr = .ok (.ecSuccess, mapped) ∧
      iptTranslate mapped.memIpt addr = .ok frame ∧
      mmuSyncFromBackingPage mapped addr = .ok (.ecSuccess, after) ∧
      LoadedIn mmu after addr frame slot := by
  obtain ⟨pool, lent⟩ : ∃ pool, lend (poolOf mmu.memIpt) addr.key = some pool :=
    Option.ne_none_iff_exists'.mp (mt lend_none.mp (by simp [poolOf, free]))
  obtain ⟨ipt, added, moved, -⟩ := add_lends consistent.table absent lent
  have written := add_data consistent.table free added
  obtain ⟨first, others, front, poolEq⟩ := lend_some lent
  have same : first = frame := by
    have front' : mmu.memIpt.freePages = first :: others := front
    rw [free] at front'
    exact (List.cons.inj front').1.symm
  subst same
  have frames : frameOf ipt = Function.update (frameOf mmu.memIpt) addr.key (some first) := by
    have view : frameOf ipt = pool.frame := congrArg Pool.frame moved.pool
    rw [view, poolEq]
    rfl
  have clean : dirtyOf ipt addr.key = false := by
    have view : dirtyOf ipt = pool.dirty := congrArg Pool.dirty moved.pool
    simp [view, poolEq]
  have held : frameOf ipt addr.key = some first := by simp [frames]
  -- The table is consistent with the page mapped already, before its bytes are read in.
  have consistent' : Consistent { mmu with memIpt := ipt } := by
    refine ⟨moved.size.trans consistent.frames, consistent.samePage, consistent.memSized,
      consistent.diskSized, moved.sound, consistent.bitmap, consistent.backed,
      fun key there => ?_, consistent.distinct⟩
    by_cases own : key = addr.key
    · change backingOf mmu key ≠ none
      simp [own, backed]
    · have before : frameOf mmu.memIpt key ≠ none := by
        have there' : frameOf ipt key ≠ none := there
        rwa [frames, Function.update_of_ne own] at there'
      exact consistent.resident key before
  have placed := consistent_placed consistent' held backed frameStart slotStart
  refine ⟨{ mmu with memIpt := ipt }, _,
    by simp [mmuMapPage, has_translation_exact consistent.table, absent, added],
    translate_exact moved.sound held, sync_from_placed placed, ?_⟩
  refine ⟨rfl, rfl, moved.sound, held, clean, fun key other => ?_, fun i other => ?_,
    fun other => ?_⟩
  · exact (congrFun frames key).trans (Function.update_of_ne other _ _)
  · exact (congrFun written i).trans (Function.update_of_ne other _ _)
  · have length : (pageSlice mmu.disk.data mmu.disk.pageSize slot).length = mmu.mem.pageSize :=
      (slice_length placed.slotRoom).trans placed.samePage
    exact overwrite_page length placed.frameRoom other

end Loading

structure Loaded (after : Mmu) (addr : VirtAddr) : Prop where
  translated : ∃ frame slot, iptTranslate after.memIpt addr = .ok frame ∧
    backingPage after addr = some slot ∧ frameBytes after frame = diskBytes after slot
  clean : iptIsDirty after.memIpt addr = .ok false

/-- The service evicts the page `evicted`, or none, and writes back what was dirty. -/
structure Evicts (mmu after : Mmu) (addr : VirtAddr) (evicted : Option Key) : Prop where
  one : evicted = none ↔ mmu.memIpt.freePages ≠ []
  gone : ∀ key, evicted = some key → key ≠ addr.key ∧ frameOf mmu.memIpt key ≠ none ∧
    frameOf after.memIpt key = none
  written : ∀ key frame slot, evicted = some key → frameOf mmu.memIpt key = some frame →
    backingOf mmu key = some slot → diskBytes after slot =
      if dirtyOf mmu.memIpt key = true then frameBytes mmu frame else diskBytes mmu slot

/-- What the service of a fault does to the MMU. -/
structure Serves (mmu after : Mmu) (addr : VirtAddr) : Prop where
  loaded : Loaded after addr
  evicts : ∃ evicted, Evicts mmu after addr evicted ∧
    (∀ key frame, key ≠ addr.key → evicted ≠ some key → frameOf mmu.memIpt key = some frame →
      frameOf after.memIpt key = some frame ∧
        dataOf after.memIpt.entries frame = dataOf mmu.memIpt.entries frame ∧
        frameBytes after frame = frameBytes mmu frame) ∧
    (∀ key, key ≠ addr.key → frameOf mmu.memIpt key = none → frameOf after.memIpt key = none) ∧
    ∀ slot, (∀ key, evicted = some key → backingOf mmu key ≠ some slot) →
      diskBytes after slot = diskBytes mmu slot
  diskMap : after.diskMap = mmu.diskMap
  bitmap : after.disk.allocBitmap = mmu.disk.allocBitmap

section Service
variable {mmu after : Mmu} {addr : VirtAddr}

theorem loaded_in_loaded {frame slot : Nat} (loaded : LoadedIn mmu after addr frame slot)
    (backed : backingOf mmu addr.key = some slot) : Loaded after addr where
  translated := by
    refine ⟨frame, slot, translate_exact loaded.table loaded.held, ?_, ?_⟩
    · rw [backingPage, loaded.diskMap, backing_exact]
      exact backed
    · rw [loaded.bytes, if_pos rfl, diskBytes, diskBytes, loaded.disk]
  clean := by rw [is_dirty_exact loaded.table loaded.held, loaded.clean]

theorem serves_free {frame slot : Nat} {rest : List Nat} (sound : Sound mmu.memIpt)
    (free : mmu.memIpt.freePages = frame :: rest) (backed : backingOf mmu addr.key = some slot)
    (loaded : LoadedIn mmu after addr frame slot) : Serves mmu after addr where
  loaded := loaded_in_loaded loaded backed
  evicts := by
    refine ⟨none, ⟨by simp [free], fun _ none => (by cases none), fun _ _ _ none => (by cases none)⟩,
      fun key i other _ held => ?_, fun key other absent => ?_, fun page _ => ?_⟩
    · have distinct : i ≠ frame := by
        rintro rfl
        exact (sound_pool sound).apart key i held (by simp [poolOf, free])
      exact ⟨(loaded.kept key other).trans held, loaded.data i distinct,
        by rw [loaded.bytes, if_neg distinct]⟩
    · exact (loaded.kept key other).trans absent
    · rw [diskBytes, loaded.disk, diskBytes]
  diskMap := loaded.diskMap
  bitmap := by rw [loaded.disk]

theorem serves_full {middle : Mmu} {victim : VirtAddr} {frame slot home : Nat}
    (consistent : Consistent mmu) (full : mmu.memIpt.freePages = [])
    (distinct : victim.key ≠ addr.key) (held : frameOf mmu.memIpt victim.key = some frame)
    (stored : backingOf mmu victim.key = some slot) (backed : backingOf mmu addr.key = some home)
    (swapped : SwappedOut mmu middle victim frame slot)
    (loaded : LoadedIn middle after addr frame home) : Serves mmu after addr where
  loaded := by
    refine loaded_in_loaded loaded ?_
    rw [backingOf, swapped.diskMap]
    exact backed
  evicts := by
    have disk : ∀ page, diskBytes after page = diskBytes middle page := fun page => by
      rw [diskBytes, loaded.disk, diskBytes]
    refine ⟨some victim.key, ⟨by simp [full], ?_, ?_⟩, ?_, ?_, ?_⟩
    · rintro key same
      cases same
      refine ⟨distinct, by simp [held], (loaded.kept _ distinct).trans swapped.gone⟩
    · rintro key i page same there kept
      cases same
      rw [held] at there
      rw [stored] at kept
      cases there
      cases kept
      rw [disk, swapped.bytes]
      simp
    -- A page that is neither loaded nor evicted keeps its frame and its bytes.
    · intro key i other survives there
      have survivor : key ≠ victim.key := fun same => survives (same ▸ rfl)
      have apart : i ≠ frame := by
        rintro rfl
        exact survivor ((sound_pool consistent.table).injective key victim.key i there held)
      refine ⟨?_, ?_, ?_⟩
      · exact ((loaded.kept key other).trans (swapped.kept key survivor)).trans there
      · exact (loaded.data i apart).trans (swapped.data i apart)
      · rw [loaded.bytes, if_neg apart, frameBytes, swapped.mem, frameBytes]
    · intro key other absent
      have survivor : key ≠ victim.key := by
        rintro rfl
        rw [held] at absent
        cases absent
      exact ((loaded.kept key other).trans (swapped.kept key survivor)).trans absent
    · intro page unowned
      have other : page ≠ slot := by
        rintro rfl
        exact unowned victim.key rfl stored
      rw [disk, swapped.bytes]
      simp [other]
  diskMap := loaded.diskMap.trans swapped.diskMap
  bitmap := by rw [loaded.disk, swapped.disk]

end Service

/-- Where the positions it may touch fit, the service of a fault ends, without a
failed assertion, with the page loaded and one page evicted if it had to be. -/
theorem service_serves {mmu : Mmu} (consistent : Consistent mmu) {addr : VirtAddr}
    (mapped : backingPage mmu addr ≠ none)
    (absent : iptHasTranslation mmu.memIpt addr = .ok false) (fits : Fits mmu addr)
    (prm : PrmStatics) :
    ∃ prm' after, prmService prm mmu addr = .ok (prm', after) ∧ Serves mmu after addr := by
  have gone : frameOf mmu.memIpt addr.key = none := by
    simpa [has_translation_exact consistent.table] using absent
  obtain ⟨home, backed⟩ : ∃ home, backingOf mmu addr.key = some home := by
    rw [backingPage, backing_exact] at mapped
    exact Option.ne_none_iff_exists'.mp mapped
  have homeStart := fits.home home backed
  cases free : mmu.memIpt.freePages with
  | cons frame rest =>
      obtain ⟨middle, after, map, -, synced, loaded⟩ := load_written consistent gone backed free
        (fits.free frame (by rw [free, List.head?_cons])) homeStart
      refine ⟨prm, after, ?_, serves_free consistent.table free backed loaded⟩
      simp [prmService, map, swapUntilMapped, synced]
  | nil =>
      obtain ⟨i, entry, oldest, distinct, chosen⟩ := page_to_swap_oldest consistent.table gone free
      obtain ⟨prm', victim⟩ := chosen prm
      obtain ⟨frame, held⟩ := Option.ne_none_iff_exists'.mp
        (full_known consistent.table free entry (List.mem_of_getElem? oldest.here))
      obtain ⟨slot, stored⟩ := Option.ne_none_iff_exists'.mp
        (consistent.resident entry.pageData.addr.key (by simp [held]))
      obtain ⟨frameStart, slotStart⟩ := fits.victim free _ frame held
      obtain ⟨middle, swap, swapped, consistent'⟩ := swap_out_written consistent held stored
        fun dirty => ⟨frameStart, slotStart dirty slot stored⟩
      -- After the swap the victim's frame is the free one and the second attempt is the first case.
      have gone' : frameOf middle.memIpt addr.key = none :=
        (swapped.kept addr.key (Ne.symm distinct)).trans gone
      have backed' : backingOf middle addr.key = some home := by
        rw [backingOf, swapped.diskMap]
        exact backed
      have free' : middle.memIpt.freePages = [frame] := by rw [swapped.free, free, List.nil_append]
      have frameStart' : frame * middle.mem.pageSize < 2 ^ 32 := by rw [swapped.mem]; exact frameStart
      have homeStart' : home * middle.disk.pageSize < 2 ^ 31 := by rw [swapped.disk]; exact homeStart
      obtain ⟨last, after, map, translated, synced, loaded⟩ :=
        load_written consistent' gone' backed' free' frameStart' homeStart'
      refine ⟨prm', after, ?_,
        serves_full consistent free distinct held stored backed swapped loaded⟩
      have refused : mmuMapPage mmu addr = .ok (.ecFail, mmu) := by
        simp [mmuMapPage, has_translation_exact consistent.table, gone,
          add_full (lend_none.mpr free)]
      -- One turn of the loop is enough, and a machine with a resident page has one.
      obtain ⟨turns, frames⟩ : ∃ turns, mmu.mem.npages = turns + 1 := by
        have bound := consistent_frame consistent held
        exact ⟨mmu.mem.npages - 1, by omega⟩
      simp [prmService, refused, frames, swapUntilMapped, victim, swap, map, translated, synced]

end VmSim.PageReplacement
