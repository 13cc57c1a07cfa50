import VmSim.MemoryStore

/-!
The service of a page fault as actions of the store: a load when a frame is
free, else the eviction of one resident page and then the load. The victim is
some resident page other than the faulting one, whatever the static variables
of vmsim/prm.c held before. An aging pass is no action at all.
-/

namespace VmSim.PageReplacement
open PageTable DiskBlocks KeyedMap FramePool DemandPaging PagedBytes MemoryUnit

section Copies
variable {mmu : Mmu}

/-- A resident page and its backing page, at positions that the index arithmetic holds. -/
structure Placed (mmu : Mmu) (page : VirtAddr) (frame slot : Nat) : Prop where
  table : Sound mmu.memIpt
  held : frameOf mmu.memIpt page.key = some frame
  backed : backingOf mmu page.key = some slot
  bitmap : DiskBlocks.WellFormed mmu.disk
  bound : slot < mmu.disk.npages
  set : allocated mmu.disk slot = true
  samePage : mmu.disk.pageSize = mmu.mem.pageSize
  frameStart : frame * mmu.mem.pageSize < 2 ^ 32
  frameRoom : frame * mmu.mem.pageSize + mmu.mem.pageSize ≤ mmu.mem.data.length
  slotStart : slot * mmu.disk.pageSize < 2 ^ 31
  slotRoom : slot * mmu.disk.pageSize + mmu.disk.pageSize ≤ mmu.disk.data.length

theorem sound_placed (sound : MmuSound mmu) {page : VirtAddr} {frame slot : Nat}
    (held : frameOf mmu.memIpt page.key = some frame)
    (backed : backingOf mmu page.key = some slot) : Placed mmu page frame slot := by
  have geometry := sound.geometry
  obtain ⟨bound, set⟩ := sound.backed page.key slot backed
  have lastFrame := page_end_le mmu.mem.pageSize (frame_bound sound held)
  have lastSlot := page_end_le mmu.disk.pageSize bound
  have memSmall := geometry.memSmall
  have diskSmall := geometry.diskSmall
  exact ⟨sound.table, held, backed, sound.bitmap, bound, set, geometry.samePage, by omega,
    by rw [geometry.memSized]; exact lastFrame, by omega, by rw [geometry.diskSized]; exact lastSlot⟩

theorem placed_addr {page : VirtAddr} {frame slot : Nat} (placed : Placed mmu page frame slot) :
    memAddr mmu frame 0 = frame * mmu.mem.pageSize :=
  Nat.mod_eq_of_lt placed.frameStart

theorem sync_to_clean {page : VirtAddr} {frame : Nat} (table : Sound mmu.memIpt)
    (held : frameOf mmu.memIpt page.key = some frame) (clean : dirtyOf mmu.memIpt page.key = false) :
    mmuSyncToBackingPage mmu page = .ok (.ecSuccess, mmu) := by
  simp [mmuSyncToBackingPage, is_dirty_exact table held, clean]

theorem sync_to_dirty {page : VirtAddr} {frame slot : Nat} (placed : Placed mmu page frame slot)
    (dirty : dirtyOf mmu.memIpt page.key = true) :
    mmuSyncToBackingPage mmu page = .ok (.ecSuccess, { mmu with disk := { mmu.disk with
      data := overwrite mmu.disk.data (slot * mmu.disk.pageSize)
        (pageSlice mmu.mem.data mmu.disk.pageSize frame) } }) := by
  have room : frame * mmu.mem.pageSize + mmu.disk.pageSize ≤ mmu.mem.data.length := by
    rw [placed.samePage]
    exact placed.frameRoom
  have copied : copyOut mmu.mem.data (memAddr mmu frame 0) mmu.disk.pageSize =
      .ok (pageSlice mmu.mem.data mmu.disk.pageSize frame) := by
    rw [placed_addr placed, copyOut, if_pos room, pageSlice, placed.samePage]
  have length : (pageSlice mmu.mem.data mmu.disk.pageSize frame).length = mmu.disk.pageSize :=
    slice_length (by rw [placed.samePage]; exact placed.frameRoom)
  have start : getPageStart mmu.disk slot = .ok (slot * mmu.disk.pageSize) :=
    if_neg (Nat.not_le.mpr placed.slotStart)
  have read := is_page_allocated_exact placed.bitmap placed.bound
  simp [mmuSyncToBackingPage, is_dirty_exact placed.table placed.held, dirty,
    translate_exact placed.table placed.held, backing_exact, placed.backed, copied, diskSetPage,
    placed.bound, read, placed.set, start, copyIn, length, placed.slotRoom]

theorem sync_from_placed {page : VirtAddr} {frame slot : Nat} (placed : Placed mmu page frame slot) :
    mmuSyncFromBackingPage mmu page = .ok (.ecSuccess, { mmu with mem := { mmu.mem with
      data := overwrite mmu.mem.data (frame * mmu.mem.pageSize)
        (pageSlice mmu.disk.data mmu.disk.pageSize slot) } }) := by
  have copied : copyOut mmu.disk.data (slot * mmu.disk.pageSize) mmu.disk.pageSize =
      .ok (pageSlice mmu.disk.data mmu.disk.pageSize slot) := if_pos placed.slotRoom
  have length : (pageSlice mmu.disk.data mmu.disk.pageSize slot).length = mmu.mem.pageSize :=
    (slice_length placed.slotRoom).trans placed.samePage
  have start : getPageStart mmu.disk slot = .ok (slot * mmu.disk.pageSize) :=
    if_neg (Nat.not_le.mpr placed.slotStart)
  have read := is_page_allocated_exact placed.bitmap placed.bound
  simp [mmuSyncFromBackingPage, translate_exact placed.table placed.held, backing_exact,
    placed.backed, diskGetPage, placed.bound, read, placed.set, start, copied, placed_addr placed,
    copyIn, length, placed.frameRoom]

end Copies

section SwapOut
variable {mmu : Mmu}

theorem sync_to_exact (sound : MmuSound mmu) {page : VirtAddr} {frame : Nat}
    (held : frameOf mmu.memIpt page.key = some frame) :
    ∃ data, mmuSyncToBackingPage mmu page =
        .ok (.ecSuccess, { mmu with disk := { mmu.disk with data := data } }) ∧
      data.length = mmu.disk.data.length ∧
      pageCell data mmu.disk.pageSize = writeBack (storeOf mmu) page.key := by
  obtain ⟨slot, backed, -⟩ := frame_backed sound held
  have placed := sound_placed sound held backed
  cases dirty : dirtyOf mmu.memIpt page.key with
  | false =>
      refine ⟨mmu.disk.data, sync_to_clean sound.table held dirty, rfl, ?_⟩
      have clean : (storeOf mmu).pool.dirty page.key = false := dirty
      rw [write_back_clean clean]
      rfl
  | true =>
      have fits : frame * mmu.disk.pageSize + mmu.disk.pageSize ≤ mmu.mem.data.length := by
        rw [placed.samePage]
        exact placed.frameRoom
      refine ⟨_, sync_to_dirty placed dirty, ?_, ?_⟩
      · have length : (pageSlice mmu.mem.data mmu.disk.pageSize frame).length = mmu.disk.pageSize :=
          slice_length fits
        have room := placed.slotRoom
        exact overwrite_length (by omega)
      · rw [copy_page placed.slotRoom fits]
        have marked : (storeOf mmu).pool.dirty page.key = true := dirty
        have mine : (storeOf mmu).pool.frame page.key = some frame := held
        have home : (storeOf mmu).backing page.key = some slot := backed
        rw [write_back_dirty marked mine home]
        simp only [storeOf, placed.samePage]

theorem swap_out_exact (sound : MmuSound mmu) {page : VirtAddr} {frame : Nat}
    (held : frameOf mmu.memIpt page.key = some frame) :
    ∃ after, prmSwapOut mmu page = .ok after ∧ Acts mmu after (.evict page.key) := by
  obtain ⟨data, synced, length, copied⟩ := sync_to_exact sound held
  obtain ⟨pool, returned⟩ : ∃ pool, giveBack (poolOf mmu.memIpt) page.key = some pool :=
    ⟨_, Option.map_eq_some_iff.mpr ⟨frame, held, rfl⟩⟩
  obtain ⟨ipt, removed, moved, -⟩ := remove_gives sound.table returned
  have given : (giveBack (storeOf mmu).pool page.key).getD (storeOf mmu).pool = pool := by
    have returned' : giveBack (storeOf mmu).pool page.key = some pool := returned
    simp [returned']
  refine ⟨{ mmu with memIpt := ipt, disk := { mmu.disk with data := data } }, ?_, ?_⟩
  · simp [prmSwapOut, synced, mmuUnmapPage, removed]
  · apply acts_rebuilt sound
    · simpa [Action.apply, given] using moved
    · rfl
    · exact ⟨data, rfl, length⟩
    · exact sound.map
    · exact Option.ne_none_iff_exists'.mpr ⟨frame, held⟩
    · simp only [storeOf, moved.pool, copied, Action.apply] at given ⊢
      rw [given]
      rfl
    · exact sound.backed

end SwapOut

section Victim

theorem for_each_reads {func : Nat → PageData → σ → PageData × σ}
    (reads : ∀ i page s, (func i page s).1 = page) (entries : List IptEntry) (i : Nat) (s : σ) :
    (forEachEntry func i entries s).1 = entries := by
  induction entries generalizing i s with
  | nil => rfl
  | cons entry rest ih =>
      cases valid : entry.pageData.valid <;> simp [forEachEntry, valid, reads, ih]

theorem for_each_invariant {func : Nat → PageData → σ → PageData × σ} {P : σ → Prop}
    {entries : List IptEntry} (visit : ∀ entry ∈ entries, entry.pageData.valid = true →
      ∀ i s, P s → P (func i entry.pageData s).2) {s : σ} (start : P s) (i : Nat) :
    P (forEachEntry func i entries s).2 := by
  induction entries generalizing i s with
  | nil => exact start
  | cons entry rest ih =>
      have later : ∀ entry ∈ rest, entry.pageData.valid = true →
          ∀ i s, P s → P (func i entry.pageData s).2 :=
        fun other member => visit other (by simp [member])
      cases valid : entry.pageData.valid with
      | true => simpa [forEachEntry, valid] using ih later (visit entry (by simp) valid i s start) _
      | false => simpa [forEachEntry, valid] using ih later start _

theorem get_oldest_cases (i : Nat) (page : PageData) (prm : PrmStatics) :
    (virtAddrPageEq prm.swapTarget page.addr = false ∧ ∃ idx, getOldestPage i page prm =
      (page, { prm with
        oldestPageIdx := some idx
        oldestPageAge := page.pageAge
        oldestPageVaddr := page.addr
        curIdx := idx })) ∨
    ((prm.oldestPageIdx ≠ none ∨ virtAddrPageEq prm.swapTarget page.addr = true) ∧
      ∃ idx, getOldestPage i page prm = (page, { prm with curIdx := idx })) := by
  simp only [getOldestPage]
  generalize (if prm.oldestPageIdx.isNone then 0 else prm.curIdx) = idx
  by_cases taken : ((page.pageAge < prm.oldestPageAge || prm.oldestPageIdx.isNone) &&
      !virtAddrPageEq prm.swapTarget page.addr) = true
  · left
    rw [if_pos taken]
    simp only [Bool.and_eq_true, Bool.not_eq_true'] at taken
    exact ⟨taken.2, idx, rfl⟩
  · right
    rw [if_neg taken]
    refine ⟨?_, idx, rfl⟩
    by_contra neither
    simp only [ne_eq, not_or, not_not, Bool.not_eq_true] at neither
    simp [neither.1, neither.2] at taken

structure Chosen (entries : List IptEntry) (target : VirtAddr) (prm : PrmStatics) : Prop where
  aimed : prm.swapTarget = target
  valid : prm.oldestPageIdx ≠ none → ∃ entry ∈ entries, entry.pageData.valid = true ∧
    entry.pageData.addr = prm.oldestPageVaddr ∧ prm.oldestPageVaddr.key ≠ target.key

theorem get_oldest_chosen {entries : List IptEntry} {target : VirtAddr} {prm : PrmStatics}
    (chosen : Chosen entries target prm) {entry : IptEntry} (member : entry ∈ entries)
    (valid : entry.pageData.valid = true) (i : Nat) :
    Chosen entries target (getOldestPage i entry.pageData prm).2 := by
  rcases get_oldest_cases i entry.pageData prm with ⟨differs, idx, taken⟩ | ⟨-, idx, passed⟩
  · rw [taken]
    refine ⟨chosen.aimed, fun _ => ⟨entry, member, valid, rfl, ?_⟩⟩
    intro same
    rw [chosen.aimed, (virt_addr_page_eq_iff target entry.pageData.addr).mpr same.symm] at differs
    cases differs
  · rw [passed]
    exact ⟨chosen.aimed, chosen.valid⟩

theorem get_oldest_found (target : VirtAddr) (entries : List IptEntry) (i : Nat)
    (prm : PrmStatics) (aimed : prm.swapTarget = target)
    (seen : prm.oldestPageIdx ≠ none ∨ ∃ entry ∈ entries, entry.pageData.valid = true ∧
      entry.pageData.addr.key ≠ target.key) :
    (forEachEntry getOldestPage i entries prm).2.oldestPageIdx ≠ none := by
  induction entries generalizing i prm with
  | nil => simpa [forEachEntry] using seen
  | cons entry rest ih =>
      cases valid : entry.pageData.valid with
      | false =>
          have seen' : prm.oldestPageIdx ≠ none ∨ ∃ entry ∈ rest, entry.pageData.valid = true ∧
              entry.pageData.addr.key ≠ target.key := by
            simpa [valid] using seen
          simpa [forEachEntry, valid] using ih (i + 1) prm aimed seen'
      | true =>
          -- Passed over, the entry is the target itself or something has been chosen before it.
          rcases get_oldest_cases i entry.pageData prm with ⟨-, idx, taken⟩ | ⟨passes, idx, passed⟩
          · simp only [forEachEntry, valid, ↓reduceIte, taken]
            apply ih
            · exact aimed
            · exact .inl (by simp)
          · simp only [forEachEntry, valid, ↓reduceIte, passed]
            apply ih
            · exact aimed
            · rcases seen with before | ⟨other, member, live, distinct⟩
              · exact .inl before
              · rcases List.mem_cons.mp member with rfl | later
                · rcases passes with before | same
                  · exact .inl before
                  · rw [aimed] at same
                    exact absurd ((virt_addr_page_eq_iff _ _).mp same).symm distinct
                · exact .inr ⟨other, later, live, distinct⟩

theorem get_oldest_reads (i : Nat) (page : PageData) (prm : PrmStatics) :
    (getOldestPage i page prm).1 = page := by
  rcases get_oldest_cases i page prm with ⟨-, idx, taken⟩ | ⟨-, idx, passed⟩
  · rw [taken]
  · rw [passed]

section Full
variable {ipt : Ipt}

theorem full_occupied (sound : Sound ipt) (full : ipt.freePages = []) :
    ∀ entry ∈ ipt.entries, entry.pageData.valid = true := by
  obtain ⟨chain, chained⟩ := sound.chained
  intro entry member
  obtain ⟨i, here⟩ := List.mem_iff_getElem?.mp member
  cases valid : entry.pageData.valid with
  | true => rfl
  | false =>
      have free := (chained.free i).mpr ⟨entry.pageData, by simp [dataOf, here], valid⟩
      rw [full] at free
      simp at free

theorem full_known (sound : Sound ipt) (full : ipt.freePages = []) :
    ∀ entry ∈ ipt.entries, frameOf ipt entry.pageData.addr.key ≠ none := by
  intro entry member
  obtain ⟨i, here⟩ := List.mem_iff_getElem?.mp member
  rw [Option.ne_none_iff_exists']
  exact ⟨i, (frame_iff sound).mpr
    ⟨entry.pageData, by simp [dataOf, here], full_occupied sound full entry member, rfl⟩⟩

theorem full_others (sound : Sound ipt) (full : ipt.freePages = []) {key : Key}
    (absent : frameOf ipt key = none) :
    ∀ entry ∈ ipt.entries, entry.pageData.addr.key ≠ key := by
  intro entry member same
  exact full_known sound full entry member (same ▸ absent)

theorem table_first (sound : Sound ipt) : ∃ first rest, ipt.entries = first :: rest := by
  obtain ⟨chain, chained⟩ := sound.chained
  apply List.exists_cons_of_length_pos
  rw [chained.entriesSized]
  exact chained.positive

end Full

variable {mmu : Mmu}

theorem get_page_to_swap_exact (sound : MmuSound mmu) (prm : PrmStatics) {addr : VirtAddr}
    (absent : frameOf mmu.memIpt addr.key = none) (full : mmu.memIpt.freePages = []) :
    ∃ victim prm', getPageToSwap prm mmu addr = .ok (victim, prm', mmu) ∧
      victim.key ≠ addr.key ∧ frameOf mmu.memIpt victim.key ≠ none := by
  have occupied := full_occupied sound.table full
  have known := full_known sound.table full
  have others := full_others sound.table full absent
  obtain ⟨first, rest, entries⟩ := table_first sound.table
  have member : first ∈ mmu.memIpt.entries := by simp [entries]
  let start : PrmStatics := { prm with oldestPageIdx := none, swapTarget := addr }
  have unchanged := for_each_reads get_oldest_reads mmu.memIpt.entries 0 start
  have found := get_oldest_found addr mmu.memIpt.entries 0 start rfl
    (.inr ⟨first, member, occupied first member, others first member⟩)
  -- The walk keeps that its choice is a valid page of the table other than the target.
  have unset : Chosen mmu.memIpt.entries addr start := ⟨rfl, fun set => absurd rfl set⟩
  have chosen : Chosen mmu.memIpt.entries addr
      (forEachEntry getOldestPage 0 mmu.memIpt.entries start).2 :=
    for_each_invariant (P := Chosen mmu.memIpt.entries addr)
      (fun entry member valid i s good => get_oldest_chosen good member valid i) unset 0
  obtain ⟨entry, inTable, -, named, distinct⟩ := chosen.valid found
  have passes : virtAddrPageEq addr
      (forEachEntry getOldestPage 0 mmu.memIpt.entries start).2.oldestPageVaddr = false := by
    rw [Bool.eq_false_iff]
    exact fun same => distinct ((virt_addr_page_eq_iff _ _).mp same).symm
  refine ⟨(forEachEntry getOldestPage 0 mmu.memIpt.entries start).2.oldestPageVaddr,
    (forEachEntry getOldestPage 0 mmu.memIpt.entries start).2, ?_, distinct,
    named ▸ known entry inTable⟩
  simp only [getPageToSwap, mmuForEachMemPage, iptForEachEntry]
  rw [show ({ prm with oldestPageIdx := none, swapTarget := addr } : PrmStatics) = start from rfl,
    unchanged, passes]
  rfl

end Victim

section Service
variable {mmu : Mmu}

theorem load_exact (sound : MmuSound mmu) {addr : VirtAddr}
    (enabled : (Action.load addr.key : ByteAction).Enabled (storeOf mmu)) :
    ∃ mapped frame after, mmuMapPage mmu addr = .ok (.ecSuccess, mapped) ∧
      iptTranslate mapped.memIpt addr = .ok frame ∧
      mmuSyncFromBackingPage mapped addr = .ok (.ecSuccess, after) ∧
      Acts mmu after (.load addr.key) := by
  obtain ⟨absent, allocated, room⟩ := enabled
  obtain ⟨slot, backed⟩ := Option.ne_none_iff_exists'.mp allocated
  obtain ⟨pool, lent⟩ := Option.ne_none_iff_exists'.mp (mt lend_none.mp room)
  obtain ⟨ipt, mapped, moved⟩ := map_page_lends sound absent lent
  obtain ⟨frame, rest, free, poolEq⟩ := lend_some lent
  have held : frameOf ipt addr.key = some frame := by
    have frames : frameOf ipt addr.key = pool.frame addr.key :=
      congrFun (congrArg Pool.frame moved.pool) addr.key
    rw [frames, poolEq]
    simp
  have inside : frame < mmu.mem.npages := by
    rw [← sound.geometry.frames, ← moved.size]
    exact frame_lt moved.sound held
  -- Frame and slot end inside their arrays, and those are small enough not to wrap.
  have placed : Placed { mmu with memIpt := ipt } addr frame slot := by
    obtain ⟨bound, set⟩ := sound.backed addr.key slot backed
    have lastFrame := page_end_le mmu.mem.pageSize inside
    have lastSlot := page_end_le mmu.disk.pageSize bound
    have memSmall := sound.geometry.memSmall
    have diskSmall := sound.geometry.diskSmall
    refine ⟨moved.sound, held, backed, sound.bitmap, bound, set, sound.geometry.samePage, ?_, ?_,
      ?_, ?_⟩
    · exact show frame * mmu.mem.pageSize < 2 ^ 32 by omega
    · rw [sound.geometry.memSized]
      exact lastFrame
    · exact show slot * mmu.disk.pageSize < 2 ^ 31 by omega
    · rw [sound.geometry.diskSized]
      exact lastSlot
  have there := placed.slotRoom
  have fits := placed.frameRoom
  have length : (pageSlice mmu.disk.data mmu.disk.pageSize slot).length = mmu.mem.pageSize :=
    (slice_length there).trans placed.samePage
  refine ⟨{ mmu with memIpt := ipt }, frame, _, mapped, translate_exact moved.sound held,
    sync_from_placed placed, ?_⟩
  apply acts_in_memory sound moved.sound moved.size (overwrite_length (by rw [length]; exact fits))
  · exact ⟨absent, allocated, room⟩
  · have lent' : lend (storeOf mmu).pool addr.key = some pool := lent
    have home : (storeOf mmu).backing addr.key = some slot := backed
    rw [placed.samePage] at there
    simp only [Action.apply, lent', Option.getD_some, moved.pool]
    congr 1
    rw [placed.samePage, copy_page fits there, fill, home, poolEq]
    simp [storeOf, sound.geometry.samePage]

theorem prm_service_free (sound : MmuSound mmu) (prm : PrmStatics) {addr : VirtAddr}
    (enabled : (Action.load addr.key : ByteAction).Enabled (storeOf mmu)) :
    ∃ after, prmService prm mmu addr = .ok (prm, after) ∧ Acts mmu after (.load addr.key) := by
  obtain ⟨mapped, frame, after, map, -, synced, acts⟩ := load_exact sound enabled
  exact ⟨after, by simp [prmService, map, swapUntilMapped, synced], acts⟩

theorem evict_leaves {middle : Mmu} {victim key : Key} (evicted : Acts mmu middle (.evict victim))
    (absent : (storeOf mmu).pool.frame key = none) :
    (storeOf middle).pool.frame key = none ∧ (storeOf middle).pool.free ≠ [] ∧
      (storeOf middle).backing = (storeOf mmu).backing := by
  obtain ⟨frame, held⟩ := Option.ne_none_iff_exists'.mp evicted.enabled
  have returned : giveBack (storeOf mmu).pool victim =
      some ⟨_, _, (storeOf mmu).pool.free ++ [frame]⟩ :=
    Option.map_eq_some_iff.mpr ⟨frame, held, rfl⟩
  rw [evicted.view]
  refine ⟨?_, ?_, rfl⟩
  · simp only [Action.apply, given_back_frame]
    by_cases same : key = victim
    · simp [same]
    · rw [Function.update_of_ne same]
      exact absent
  · simp [Action.apply, returned]

theorem evict_enables_load {middle : Mmu} {victim key : Key}
    (evicted : Acts mmu middle (.evict victim)) (absent : (storeOf mmu).pool.frame key = none)
    (backed : (storeOf mmu).backing key ≠ none) :
    (Action.load key : ByteAction).Enabled (storeOf middle) := by
  obtain ⟨absent', room, same⟩ := evict_leaves evicted absent
  exact ⟨absent', same ▸ backed, room⟩

theorem prm_service_full (sound : MmuSound mmu) (prm : PrmStatics) {addr : VirtAddr}
    (absent : frameOf mmu.memIpt addr.key = none) (backed : backingOf mmu addr.key ≠ none)
    (full : mmu.memIpt.freePages = []) :
    ∃ victim prm' middle after, prmService prm mmu addr = .ok (prm', after) ∧
      victim ≠ addr.key ∧ Acts mmu middle (.evict victim) ∧
      Acts middle after (.load addr.key) := by
  obtain ⟨victim, prm', chosen, distinct, resident⟩ :=
    get_page_to_swap_exact sound prm absent full
  obtain ⟨frame, held⟩ := Option.ne_none_iff_exists'.mp resident
  obtain ⟨middle, swapped, evicted⟩ := swap_out_exact sound held
  have enabled := evict_enables_load evicted absent backed
  obtain ⟨mapped, frame', after, map, translated, synced, loaded⟩ :=
    load_exact evicted.sound enabled
  refine ⟨victim.key, prm', middle, after, ?_, distinct, evicted, loaded⟩
  have refused := map_page_full sound absent (lend_none.mpr full)
  obtain ⟨turns, frames⟩ : ∃ turns, mmu.mem.npages = turns + 1 := by
    have bound := frame_bound sound held
    exact ⟨mmu.mem.npages - 1, by omega⟩
  simp [prmService, refused, frames, swapUntilMapped, chosen, swapped, map, translated, synced]

theorem map_unbacked (sound : MmuSound mmu) {addr : VirtAddr}
    (absent : frameOf mmu.memIpt addr.key = none) (unbacked : backingOf mmu addr.key = none)
    (room : (poolOf mmu.memIpt).free ≠ []) :
    ∃ mapped frame, mmuMapPage mmu addr = .ok (.ecSuccess, mapped) ∧
      iptTranslate mapped.memIpt addr = .ok frame ∧
      mmuSyncFromBackingPage mapped addr = .error (.assertion .mmuSyncFromBackingPage) := by
  obtain ⟨pool, lent⟩ := Option.ne_none_iff_exists'.mp (mt lend_none.mp room)
  obtain ⟨ipt, mapped, moved⟩ := map_page_lends sound absent lent
  obtain ⟨frame, rest, free, poolEq⟩ := lend_some lent
  have held : frameOf ipt addr.key = some frame := by
    have frames : frameOf ipt addr.key = pool.frame addr.key :=
      congrFun (congrArg Pool.frame moved.pool) addr.key
    rw [frames, poolEq]
    simp
  have translated := translate_exact moved.sound held
  have unmapped : mapGet diskMapComparator mmu.diskMap addr = none :=
    (backing_exact mmu addr).trans unbacked
  exact ⟨_, frame, mapped, translated, by simp [mmuSyncFromBackingPage, translated, unmapped]⟩

theorem prm_service_unbacked (sound : MmuSound mmu) (prm : PrmStatics) {addr : VirtAddr}
    (absent : frameOf mmu.memIpt addr.key = none) (unbacked : backingOf mmu addr.key = none) :
    prmService prm mmu addr = .error (.assertion .mmuSyncFromBackingPage) := by
  by_cases full : mmu.memIpt.freePages = []
  · obtain ⟨victim, prm', chosen, distinct, resident⟩ := get_page_to_swap_exact sound prm absent full
    obtain ⟨frame, held⟩ := Option.ne_none_iff_exists'.mp resident
    obtain ⟨middle, swapped, evicted⟩ := swap_out_exact sound held
    obtain ⟨absent', room, same⟩ := evict_leaves evicted absent
    have unbacked' : backingOf middle addr.key = none := (congrFun same addr.key).trans unbacked
    obtain ⟨mapped, frame', map, translated, failed⟩ :=
      map_unbacked evicted.sound absent' unbacked' room
    have refused := map_page_full sound absent (lend_none.mpr full)
    obtain ⟨turns, frames⟩ : ∃ turns, mmu.mem.npages = turns + 1 := by
      have bound := frame_bound sound held
      exact ⟨mmu.mem.npages - 1, by omega⟩
    simp [prmService, refused, frames, swapUntilMapped, chosen, swapped, map, translated, failed]
  · obtain ⟨mapped, frame, map, -, failed⟩ := map_unbacked sound absent unbacked full
    simp [prmService, map, swapUntilMapped, failed]

theorem load_frames {after : Mmu} {key : Key} (loaded : Acts mmu after (.load key)) :
    frameOf after.memIpt key ≠ none ∧
      ∀ other, other ≠ key → frameOf after.memIpt other = frameOf mmu.memIpt other := by
  obtain ⟨-, -, room⟩ := loaded.enabled
  have lends : lend (storeOf mmu).pool key ≠ none := mt lend_none.mp room
  obtain ⟨pool, lent⟩ := Option.ne_none_iff_exists'.mp lends
  obtain ⟨frame, rest, -, poolEq⟩ := lend_some lent
  have frames : frameOf after.memIpt = Function.update (frameOf mmu.memIpt) key (some frame) := by
    have view := congrArg (fun store => store.pool.frame) loaded.view
    simp only [Action.apply, lent, Option.getD_some, poolEq] at view
    exact view
  rw [frames]
  exact ⟨by simp, fun other distinct => Function.update_of_ne distinct _ _⟩

/-- The service of an absent page loads it and no other page, or stops at the copy
of a page that nothing backs. -/
theorem prm_service_cases (sound : MmuSound mmu) (prm : PrmStatics) {addr : VirtAddr}
    (absent : frameOf mmu.memIpt addr.key = none) :
    (∃ prm' after, prmService prm mmu addr = .ok (prm', after) ∧ MmuSound after ∧
      frameOf after.memIpt addr.key ≠ none ∧
      ∀ key, key ≠ addr.key → frameOf mmu.memIpt key = none → frameOf after.memIpt key = none) ∨
    prmService prm mmu addr = .error (.assertion .mmuSyncFromBackingPage) := by
  by_cases backed : backingOf mmu addr.key = none
  · exact .inr (prm_service_unbacked sound prm absent backed)
  · left
    by_cases full : mmu.memIpt.freePages = []
    · obtain ⟨victim, prm', middle, after, ran, -, evicted, loaded⟩ :=
        prm_service_full sound prm absent backed full
      obtain ⟨resident, others⟩ := load_frames loaded
      refine ⟨prm', after, ran, loaded.sound, resident, fun key distinct before => ?_⟩
      rw [others key distinct]
      exact (evict_leaves evicted before).1
    · obtain ⟨after, ran, loaded⟩ := prm_service_free sound prm ⟨absent, backed, full⟩
      obtain ⟨resident, others⟩ := load_frames loaded
      exact ⟨prm, after, ran, loaded.sound, resident,
        fun key distinct before => (others key distinct).trans before⟩

end Service

section Aging
variable {mmu : Mmu}

def agedEntry (entry : IptEntry) : IptEntry :=
  if entry.pageData.valid then { entry with pageData := (agePage 0 entry.pageData ()).1 } else entry

theorem for_each_age (entries : List IptEntry) (i : Nat) :
    (forEachEntry agePage i entries ()).1 = entries.map agedEntry := by
  induction entries generalizing i with
  | nil => rfl
  | cons entry rest ih =>
      cases valid : entry.pageData.valid <;>
        simp [forEachEntry, valid, agedEntry, ih, agePage]

def agedPage (page : PageData) : PageData := if page.valid then (agePage 0 page ()).1 else page

theorem aged_data (entries : List IptEntry) (i : Nat) :
    dataOf (entries.map agedEntry) i = (dataOf entries i).map agedPage := by
  simp only [dataOf, List.getElem?_map]
  cases entries[i]? with
  | none => rfl
  | some entry =>
      simp only [Option.map_some, agedEntry, agedPage]
      split <;> rfl

theorem aged_link {link : IptEntry → Option Nat} (kept : ∀ entry, link (agedEntry entry) = link entry)
    (entries : List IptEntry) (i : Nat) :
    (entries.map agedEntry)[i]?.bind link = entries[i]?.bind link := by
  rw [List.getElem?_map]
  cases entries[i]? with
  | none => rfl
  | some entry => exact kept entry

theorem age_table_exact {ipt : Ipt} (sound : Sound ipt) :
    Sound (iptForEachEntry ipt agePage ()).1 ∧
      frameOf (iptForEachEntry ipt agePage ()).1 = frameOf ipt ∧
      ∀ i, dataOf (iptForEachEntry ipt agePage ()).1.entries i = (dataOf ipt.entries i).map agedPage := by
  have entries : (iptForEachEntry ipt agePage ()).1.entries = ipt.entries.map agedEntry :=
    for_each_age ipt.entries 0
  have data : ∀ i, dataOf (iptForEachEntry ipt agePage ()).1.entries i =
      (dataOf ipt.entries i).map agedPage := by
    intro i
    rw [entries]
    exact aged_data ipt.entries i
  have next : nextOf (iptForEachEntry ipt agePage ()).1.entries = nextOf ipt.entries := by
    funext i
    rw [entries]
    refine aged_link (fun entry => ?_) ipt.entries i
    rw [agedEntry]
    split <;> rfl
  have prev : prevOf (iptForEachEntry ipt agePage ()).1.entries = prevOf ipt.entries := by
    funext i
    rw [entries]
    refine aged_link (fun entry => ?_) ipt.entries i
    rw [agedEntry]
    split <;> rfl
  have labels : SameLabels (dataOf ipt.entries)
      (dataOf (iptForEachEntry ipt agePage ()).1.entries) := by
    intro i
    rw [data]
    cases dataOf ipt.entries i with
    | none => rfl
    | some page =>
        simp only [Option.map_some, agedPage]
        split <;> rfl
  have written : Rewritten ipt (iptForEachEntry ipt agePage ()).1 (nextOf ipt.entries)
      (prevOf ipt.entries) (dataOf (iptForEachEntry ipt agePage ()).1.entries) :=
    ⟨rfl, by rw [entries, List.length_map], next, prev, rfl⟩
  obtain ⟨table, frames⟩ := relabel_sound sound written labels rfl rfl
  exact ⟨table, frames, data⟩

theorem age_pages_exact (sound : MmuSound mmu) :
    MmuSound (agePages mmu) ∧ storeOf (agePages mmu) = storeOf mmu := by
  obtain ⟨aged, frames, data⟩ := age_table_exact sound.table
  have table : Sound (agePages mmu).memIpt := aged
  have frames : frameOf (agePages mmu).memIpt = frameOf mmu.memIpt := frames
  have data : ∀ i, dataOf (agePages mmu).memIpt.entries i =
      (dataOf mmu.memIpt.entries i).map agedPage := data
  have dirty : dirtyOf (agePages mmu).memIpt = dirtyOf mmu.memIpt := by
    funext key
    -- Ageing writes the age alone, so the marks survive.
    simp only [dirtyOf, frames]
    cases frameOf mmu.memIpt key with
    | none => rfl
    | some frame =>
        simp only [data]
        cases dataOf mmu.memIpt.entries frame with
        | none => rfl
        | some page =>
            simp only [Option.map_some, Option.any_some, agedPage]
            split <;> rfl
  have view : storeOf (agePages mmu) = storeOf mmu := by
    have pool : poolOf (agePages mmu).memIpt = poolOf mmu.memIpt := by
      simp only [poolOf, frames, dirty]
      rfl
    simp only [storeOf, pool]
    rfl
  refine ⟨⟨⟨?_, ?_, ?_, ?_, ?_, ?_⟩, table, sound.map, sound.bitmap, sound.backed, ?_⟩, view⟩
  · exact sound.geometry.frames
  · exact sound.geometry.samePage
  · exact sound.geometry.memSized
  · exact sound.geometry.diskSized
  · exact sound.geometry.memSmall
  · exact sound.geometry.diskSmall
  · rw [view]
    exact sound.layout

end Aging

end VmSim.PageReplacement
