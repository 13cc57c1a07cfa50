import VmSim.PageReplacement
import VmSim.PageTableMap
import VmSim.Library.DemandPaging

/-!
The MMU as a demand paging store. `storeOf` reads the frames, the backing
pages and the bytes off the page table, the disk map and the two flat arrays;
on a sound MMU every critical section succeeds and is one action of the store.
-/

namespace VmSim.MemoryUnit
open PageTable DiskBlocks KeyedMap FramePool DemandPaging PagedBytes

abbrev ByteStore := Store Key Nat Nat Nat BYTE

abbrev ByteAction := Action Key Nat Nat BYTE

theorem disk_map_compares : Compares diskMapComparator VirtAddr.key := by
  intro a b
  rw [← virt_addr_page_eq_iff]
  simp [diskMapComparator]

def backingOf (mmu : Mmu) (key : Key) : Option Nat :=
  mapGet diskMapComparator mmu.diskMap ⟨key.1, key.2, 0⟩

def storeOf (mmu : Mmu) : ByteStore :=
  { pool := poolOf mmu.memIpt
    backing := backingOf mmu
    memory := pageCell mmu.mem.data mmu.mem.pageSize
    disk := pageCell mmu.disk.data mmu.disk.pageSize }

/-- The arrays have the sizes of their headers and fit the integers that index them. -/
structure Geometry (mmu : Mmu) : Prop where
  frames : mmu.memIpt.size = mmu.mem.npages
  samePage : mmu.disk.pageSize = mmu.mem.pageSize
  memSized : mmu.mem.data.length = mmu.mem.npages * mmu.mem.pageSize
  diskSized : mmu.disk.data.length = mmu.disk.npages * mmu.disk.pageSize
  memSmall : mmu.mem.npages * mmu.mem.pageSize < 2 ^ 31
  diskSmall : mmu.disk.npages * mmu.disk.pageSize < 2 ^ 31

structure MmuSound (mmu : Mmu) : Prop where
  geometry : Geometry mmu
  table : Sound mmu.memIpt
  map : Distinct VirtAddr.key mmu.diskMap
  bitmap : DiskBlocks.WellFormed mmu.disk
  backed : ∀ key page, backingOf mmu key = some page →
    page < mmu.disk.npages ∧ allocated mmu.disk page = true
  layout : Layout (List.range mmu.mem.npages) (storeOf mmu)

theorem backing_exact (mmu : Mmu) (addr : VirtAddr) :
    mapGet diskMapComparator mmu.diskMap addr = backingOf mmu addr.key :=
  map_get_congr disk_map_compares rfl

theorem unused_iff (mmu : Mmu) (page : Nat) :
    (∀ stored ∈ mmu.diskMap.keys, backingOf mmu stored.key ≠ some page) ↔
      ∀ key, backingOf mmu key ≠ some page := by
  constructor
  · intro unused key backed
    by_cases listed : ∀ stored ∈ mmu.diskMap.keys, stored.key ≠ key
    · have missing : findKey diskMapComparator mmu.diskMap ⟨key.1, key.2, 0⟩ = none := by
        rw [find_key_none disk_map_compares]
        exact listed
      have absent : backingOf mmu key = none := (map_get_none disk_map_compares).mpr missing
      rw [absent] at backed
      cases backed
    · push Not at listed
      obtain ⟨stored, member, rfl⟩ := listed
      exact unused stored member backed
  · intro unused stored _
    exact unused stored.key

instance (mmu : Mmu) (page : Nat) : Decidable (∀ key, backingOf mmu key ≠ some page) :=
  decidable_of_iff _ (unused_iff mmu page)

section Positions
variable {mmu : Mmu}

theorem frame_fits (geometry : Geometry mmu) {frame offset count : Nat}
    (bound : frame < mmu.mem.npages) (inside : offset + count ≤ mmu.mem.pageSize) :
    memAddr mmu frame offset = frame * mmu.mem.pageSize + offset ∧
      frame * mmu.mem.pageSize + offset + count ≤ mmu.mem.data.length := by
  have last := page_end_le mmu.mem.pageSize bound
  have small := geometry.memSmall
  have sized := geometry.memSized
  exact ⟨Nat.mod_eq_of_lt (by omega), by omega⟩

end Positions

section Sections
variable {mmu : Mmu}

/-- A critical section that is one action of the store and leaves the shape of
the machine and the allocation bitmap alone. -/
structure Acts (mmu after : Mmu) (action : ByteAction) : Prop where
  sound : MmuSound after
  enabled : action.Enabled (storeOf mmu)
  view : storeOf after = action.apply (storeOf mmu)
  npages : after.mem.npages = mmu.mem.npages
  pageSize : after.mem.pageSize = mmu.mem.pageSize
  bitmap : after.disk.allocBitmap = mmu.disk.allocBitmap
  diskPages : after.disk.npages = mmu.disk.npages
  blockSize : after.disk.processBlockSize = mmu.disk.processBlockSize

theorem frame_bound (sound : MmuSound mmu) {key : Key} {frame : Nat}
    (held : frameOf mmu.memIpt key = some frame) : frame < mmu.mem.npages := by
  rw [← sound.geometry.frames]
  exact frame_lt sound.table held

theorem frame_backed (sound : MmuSound mmu) {key : Key} {frame : Nat}
    (held : frameOf mmu.memIpt key = some frame) :
    ∃ page, backingOf mmu key = some page ∧ page < mmu.disk.npages ∧
      allocated mmu.disk page = true := by
  obtain ⟨page, backed⟩ := sound.layout.backed key frame held
  exact ⟨page, backed, sound.backed key page backed⟩

theorem acts_in_memory (sound : MmuSound mmu) {ipt : Ipt} {data : List BYTE} {action : ByteAction}
    (table : Sound ipt) (size : ipt.size = mmu.memIpt.size)
    (length : data.length = mmu.mem.data.length) (enabled : action.Enabled (storeOf mmu))
    (view : action.apply (storeOf mmu) =
      { storeOf mmu with pool := poolOf ipt, memory := pageCell data mmu.mem.pageSize }) :
    Acts mmu { mmu with memIpt := ipt, mem := { mmu.mem with data := data } } action where
  sound :=
    { geometry := ⟨size.trans sound.geometry.frames, sound.geometry.samePage,
        length.trans sound.geometry.memSized, sound.geometry.diskSized,
        sound.geometry.memSmall, sound.geometry.diskSmall⟩
      table := table
      map := sound.map
      bitmap := sound.bitmap
      backed := sound.backed
      layout := by
        have layout := action_layout sound.layout enabled
        rw [view] at layout
        exact layout }
  enabled := enabled
  view := view.symm
  npages := rfl
  pageSize := rfl
  bitmap := rfl
  diskPages := rfl
  blockSize := rfl

theorem stats_sound (sound : MmuSound mmu) (stats : MmuStats) :
    MmuSound { mmu with stats := stats } := by
  have geometry := sound.geometry
  exact ⟨⟨geometry.frames, geometry.samePage, geometry.memSized, geometry.diskSized,
    geometry.memSmall, geometry.diskSmall⟩, sound.table, sound.map, sound.bitmap, sound.backed,
    sound.layout⟩

theorem pin_check_exact (table : Sound mmu.memIpt) (page : VirtAddr) :
    ∃ stats, mmuPinCheck mmu page =
      .ok ((frameOf mmu.memIpt page.key).isSome, { mmu with stats := stats }) := by
  rw [mmuPinCheck, has_translation_exact table page]
  cases (frameOf mmu.memIpt page.key).isSome with
  | true => exact ⟨_, rfl⟩
  | false => exact ⟨_, rfl⟩

theorem touched_sound (sound : MmuSound mmu) {ipt : Ipt} {key : Key} {write : Bool}
    (moved : Moved mmu.memIpt ipt (touch (poolOf mmu.memIpt) key write)) :
    MmuSound { mmu with memIpt := ipt } := by
  have frames : frameOf ipt = frameOf mmu.memIpt := congrArg Pool.frame moved.pool
  have geometry := sound.geometry
  have layout := sound.layout
  refine ⟨⟨moved.size.trans geometry.frames, geometry.samePage, geometry.memSized,
    geometry.diskSized, geometry.memSmall, geometry.diskSmall⟩, moved.sound, sound.map,
    sound.bitmap, sound.backed, ?_, ?_, layout.separate⟩
  · change WellFormed (List.range mmu.mem.npages) (poolOf ipt)
    rw [← geometry.frames, ← moved.size]
    exact sound_pool moved.sound
  · intro key frame held
    have before : frameOf mmu.memIpt key = some frame := by
      rw [← frames]
      exact held
    exact layout.backed key frame before

theorem read_body_view (table : Sound mmu.memIpt) {addr : VirtAddr} {frame nbytes : Nat}
    (held : frameOf mmu.memIpt addr.key = some frame)
    (place : memAddr mmu frame addr.offset = frame * mmu.mem.pageSize + addr.offset)
    (fits : frame * mmu.mem.pageSize + addr.offset + nbytes ≤ mmu.mem.data.length) :
    ∃ ipt, mmuReadBody mmu addr nbytes =
        .ok (slice mmu.mem.data (frame * mmu.mem.pageSize + addr.offset) nbytes,
          { mmu with memIpt := ipt }) ∧
      Moved mmu.memIpt ipt (touch (poolOf mmu.memIpt) addr.key false) := by
  obtain ⟨ipt, referenced, moved, -⟩ := reference_touches table held .refRead
  have held' : frameOf ipt addr.key = some frame := by
    have frames := congrFun (congrArg Pool.frame moved.pool) addr.key
    exact frames.trans held
  exact ⟨ipt, by simp [mmuReadBody, referenced, translate_exact moved.sound held', place, copyOut,
    fits], moved⟩

theorem read_body_exact (sound : MmuSound mmu) {addr : VirtAddr} {frame nbytes : Nat}
    (held : frameOf mmu.memIpt addr.key = some frame)
    (inside : addr.offset + nbytes ≤ mmu.mem.pageSize) :
    ∃ after, mmuReadBody mmu addr nbytes =
        .ok (slice mmu.mem.data (frame * mmu.mem.pageSize + addr.offset) nbytes, after) ∧
      Acts mmu after (.read addr.key) := by
  obtain ⟨place, fits⟩ := frame_fits sound.geometry (frame_bound sound held) inside
  obtain ⟨ipt, ran, moved⟩ := read_body_view sound.table held place fits
  refine ⟨{ mmu with memIpt := ipt }, ran, ?_⟩
  apply acts_in_memory sound moved.sound moved.size rfl
  · exact Option.ne_none_iff_exists'.mpr ⟨frame, held⟩
  · rw [moved.pool]
    rfl

def changeOf (addr : VirtAddr) (buf : List BYTE) (offset : Nat) : Option BYTE :=
  if addr.offset ≤ offset ∧ offset < addr.offset + buf.length then buf[offset - addr.offset]?
  else none

theorem write_body_runs (table : Sound mmu.memIpt) {addr : VirtAddr} {buf : List BYTE} {frame : Nat}
    (held : frameOf mmu.memIpt addr.key = some frame)
    (fits : memAddr mmu frame addr.offset + buf.length ≤ mmu.mem.data.length) :
    ∃ ipt, mmuWriteBody mmu addr buf =
        .ok { mmu with
          memIpt := ipt
          mem := { mmu.mem with
            data := overwrite mmu.mem.data (memAddr mmu frame addr.offset) buf } } ∧
      Moved mmu.memIpt ipt (touch (poolOf mmu.memIpt) addr.key true) := by
  obtain ⟨ipt, referenced, moved, -⟩ := reference_touches table held .refWrite
  have held' : frameOf ipt addr.key = some frame := by
    have frames := congrFun (congrArg Pool.frame moved.pool) addr.key
    exact frames.trans held
  have copied : copyIn mmu.mem.data (memAddr mmu frame addr.offset) buf =
      .ok (overwrite mmu.mem.data (memAddr mmu frame addr.offset) buf) := if_pos fits
  exact ⟨ipt, by simp [mmuWriteBody, referenced, translate_exact moved.sound held', copied], moved⟩

theorem write_body_view (table : Sound mmu.memIpt) {addr : VirtAddr} {buf : List BYTE} {frame : Nat}
    (held : frameOf mmu.memIpt addr.key = some frame)
    (inside : addr.offset + buf.length ≤ mmu.mem.pageSize)
    (place : memAddr mmu frame addr.offset = frame * mmu.mem.pageSize + addr.offset)
    (fits : frame * mmu.mem.pageSize + addr.offset + buf.length ≤ mmu.mem.data.length) :
    ∃ ipt data, mmuWriteBody mmu addr buf =
        .ok { mmu with memIpt := ipt, mem := { mmu.mem with data := data } } ∧
      data.length = mmu.mem.data.length ∧
      Moved mmu.memIpt ipt (touch (poolOf mmu.memIpt) addr.key true) ∧
      (Action.write addr.key (changeOf addr buf)).apply (storeOf mmu) =
        { storeOf mmu with pool := poolOf ipt, memory := pageCell data mmu.mem.pageSize } := by
  obtain ⟨ipt, ran, moved⟩ := write_body_runs table held (by rw [place]; exact fits)
  rw [place] at ran
  refine ⟨ipt, _, ran, overwrite_length fits, moved, ?_⟩
  rw [moved.pool]
  have known : (storeOf mmu).pool.frame addr.key = some frame := held
  simp only [Action.apply, writeFrame, known]
  congr 1
  funext other offset
  rw [write_in_page inside fits]
  -- In the page's own frame the bytes of the buffer, elsewhere what was there.
  by_cases same : other = frame
  · subst same
    simp only [Function.update_self, changeOf, true_and]
    split
    · rename_i range
      have stored : offset - addr.offset < buf.length := by omega
      simp [stored]
    · rfl
  · simp [same, storeOf]

theorem write_body_exact (sound : MmuSound mmu) {addr : VirtAddr} {buf : List BYTE} {frame : Nat}
    (held : frameOf mmu.memIpt addr.key = some frame)
    (inside : addr.offset + buf.length ≤ mmu.mem.pageSize) :
    ∃ after, mmuWriteBody mmu addr buf = .ok after ∧
      Acts mmu after (.write addr.key (changeOf addr buf)) := by
  obtain ⟨place, fits⟩ := frame_fits sound.geometry (frame_bound sound held) inside
  obtain ⟨ipt, data, ran, length, moved, view⟩ :=
    write_body_view sound.table held inside place fits
  refine ⟨_, ran, acts_in_memory sound moved.sound moved.size length ?_ view⟩
  exact Option.ne_none_iff_exists'.mpr ⟨frame, held⟩

theorem map_page_full (sound : MmuSound mmu) {addr : VirtAddr}
    (absent : frameOf mmu.memIpt addr.key = none)
    (full : lend (poolOf mmu.memIpt) addr.key = none) :
    mmuMapPage mmu addr = .ok (.ecFail, mmu) := by
  simp [mmuMapPage, has_translation_exact sound.table, absent, add_full full]

theorem map_page_lends (sound : MmuSound mmu) {addr : VirtAddr} {pool : Pool Key Nat}
    (absent : frameOf mmu.memIpt addr.key = none)
    (lent : lend (poolOf mmu.memIpt) addr.key = some pool) :
    ∃ ipt, mmuMapPage mmu addr = .ok (.ecSuccess, { mmu with memIpt := ipt }) ∧
      Moved mmu.memIpt ipt pool := by
  obtain ⟨ipt, added, moved, -⟩ := add_lends sound.table absent lent
  exact ⟨ipt, by simp [mmuMapPage, has_translation_exact sound.table, absent, added], moved⟩

theorem map_page_moves (sound : MmuSound mmu) {addr : VirtAddr}
    (absent : frameOf mmu.memIpt addr.key = none) :
    ∃ errcode ipt, mmuMapPage mmu addr = .ok (errcode, { mmu with memIpt := ipt }) ∧
      Moved mmu.memIpt ipt ((lend (poolOf mmu.memIpt) addr.key).getD (poolOf mmu.memIpt)) := by
  cases lent : lend (poolOf mmu.memIpt) addr.key with
  | none => exact ⟨_, mmu.memIpt, map_page_full sound absent lent, sound.table, rfl, rfl⟩
  | some pool =>
      obtain ⟨ipt, mapped, moved⟩ := map_page_lends sound absent lent
      exact ⟨_, ipt, mapped, moved⟩

theorem unmap_page_moves (sound : MmuSound mmu) (page : VirtAddr) :
    ∃ errcode ipt, mmuUnmapPage mmu page = .ok (errcode, { mmu with memIpt := ipt }) ∧
      (errcode = .ecSuccess ↔ frameOf mmu.memIpt page.key ≠ none) ∧
      Moved mmu.memIpt ipt
        ((giveBack (poolOf mmu.memIpt) page.key).getD (poolOf mmu.memIpt)) := by
  cases held : frameOf mmu.memIpt page.key with
  | none =>
      have returned : giveBack (poolOf mmu.memIpt) page.key = none := by simp [giveBack, poolOf, held]
      have removed := remove_absent sound.table held
      exact ⟨_, mmu.memIpt, by simp [mmuUnmapPage, removed]; rfl, by simp, sound.table,
        by simp [returned], rfl⟩
  | some frame =>
      obtain ⟨pool, returned⟩ : ∃ pool, giveBack (poolOf mmu.memIpt) page.key = some pool :=
        ⟨_, Option.map_eq_some_iff.mpr ⟨frame, held, rfl⟩⟩
      obtain ⟨ipt, removed, moved, -⟩ := remove_gives sound.table returned
      exact ⟨_, ipt, by simp [mmuUnmapPage, removed]; rfl, by simp, by simpa [returned] using moved⟩

theorem acts_rebuilt (sound : MmuSound mmu) {after : Mmu} {action : ByteAction}
    (table : Moved mmu.memIpt after.memIpt (action.apply (storeOf mmu)).pool)
    (mem : after.mem = mmu.mem) (disk : ∃ data, after.disk = { mmu.disk with data := data } ∧
      data.length = mmu.disk.data.length)
    (map : Distinct VirtAddr.key after.diskMap)
    (enabled : action.Enabled (storeOf mmu)) (view : storeOf after = action.apply (storeOf mmu))
    (backed : ∀ key page, backingOf after key = some page →
      page < mmu.disk.npages ∧ allocated mmu.disk page = true) :
    Acts mmu after action := by
  obtain ⟨data, changed, length⟩ := disk
  have layout := action_layout sound.layout enabled
  rw [← view] at layout
  refine ⟨⟨⟨?_, ?_, ?_, ?_, ?_, ?_⟩, table.sound, map, ?_, ?_, ?_⟩, enabled, view, ?_, ?_, ?_, ?_, ?_⟩
  · rw [table.size, mem]
    exact sound.geometry.frames
  · rw [changed, mem]
    exact sound.geometry.samePage
  · rw [mem]
    exact sound.geometry.memSized
  · rw [changed]
    exact length.trans sound.geometry.diskSized
  · rw [mem]
    exact sound.geometry.memSmall
  · rw [changed]
    exact sound.geometry.diskSmall
  · rw [changed]
    exact ⟨sound.bitmap.bitmap, sound.bitmap.sized⟩
  · rw [changed]
    exact backed
  · rw [mem]
    exact layout
  all_goals simp [mem, changed]

theorem alloc_page_exact (sound : MmuSound mmu) {addr : VirtAddr} {page : Nat}
    (enabled : (Action.alloc addr.key page : ByteAction).Enabled (storeOf mmu))
    (bound : page < mmu.disk.npages) (set : allocated mmu.disk page = true) :
    ∃ after, mmuAllocPage mmu addr page = .ok (.ecSuccess, after) ∧
      Acts mmu after (.alloc addr.key page) := by
  have absent : frameOf mmu.memIpt addr.key = none := alloc_absent sound.layout enabled
  obtain ⟨errcode, ipt, mapped, moved⟩ := map_page_moves sound absent
  have unbacked : mapGet diskMapComparator mmu.diskMap addr = none := by
    rw [backing_exact]
    exact enabled.1
  obtain ⟨map, added, distinct, lookups⟩ :=
    map_set_get disk_map_compares sound.map unbacked page
  have backing : backingOf { mmu with memIpt := ipt, diskMap := map } =
      Function.update (backingOf mmu) addr.key (some page) := by
    funext key
    rw [backingOf, lookups, Function.update_apply]
    rfl
  refine ⟨{ mmu with memIpt := ipt, diskMap := map }, ?_, ?_⟩
  · simp [mmuAllocPage, mapped, unbacked, added]
  · apply acts_rebuilt sound
    · exact moved
    · rfl
    · exact ⟨_, rfl, rfl⟩
    · exact distinct
    · exact enabled
    · simp only [storeOf, backing, moved.pool]
      rfl
    · intro key page' stored
      rw [backing, Function.update_apply] at stored
      split at stored
      · injection stored with same
        exact same ▸ ⟨bound, set⟩
      · exact sound.backed key page' stored

theorem free_page_exact (sound : MmuSound mmu) {addr : VirtAddr}
    (enabled : (Action.release addr.key : ByteAction).Enabled (storeOf mmu)) :
    ∃ after, mmuFreePage mmu addr = .ok (.ecSuccess, after) ∧
      Acts mmu after (.release addr.key) := by
  obtain ⟨errcode, ipt, unmapped, -, moved⟩ := unmap_page_moves sound addr
  have present : mapGet diskMapComparator mmu.diskMap addr ≠ none := by
    rw [backing_exact]
    exact enabled
  obtain ⟨map, removed, distinct, lookups⟩ := map_remove_get disk_map_compares sound.map present
  have backing : backingOf { mmu with memIpt := ipt, diskMap := map } =
      Function.update (backingOf mmu) addr.key none := by
    funext key
    rw [backingOf, lookups, Function.update_apply]
    rfl
  refine ⟨{ mmu with memIpt := ipt, diskMap := map }, ?_, ?_⟩
  · simp [mmuFreePage, Option.isSome_iff_ne_none.mpr present, unmapped, removed]
  · apply acts_rebuilt sound
    · exact moved
    · rfl
    · exact ⟨_, rfl, rfl⟩
    · exact distinct
    · exact enabled
    · simp only [storeOf, backing, moved.pool]
      rfl
    · intro key page stored
      rw [backing, Function.update_apply] at stored
      split at stored
      · cases stored
      · exact sound.backed key page stored

theorem marked_sound (sound : MmuSound mmu) {disk : Disk} {low high : Nat} {value : Bool}
    (marked : Marked mmu.disk disk low high value)
    (kept : value = false → ∀ i, low ≤ i → i < high → ∀ key, backingOf mmu key ≠ some i) :
    MmuSound { mmu with disk := disk } ∧ storeOf { mmu with disk := disk } = storeOf mmu := by
  have geometry := sound.geometry
  have view : storeOf { mmu with disk := disk } = storeOf mmu := by
    simp only [storeOf, marked.data, marked.pageSize]
    rfl
  refine ⟨⟨⟨geometry.frames, ?_, geometry.memSized, ?_, geometry.memSmall, ?_⟩, sound.table,
    sound.map, marked.wellformed, ?_, ?_⟩, view⟩
  · exact marked.pageSize.trans geometry.samePage
  · change disk.data.length = disk.npages * disk.pageSize
    rw [marked.data, marked.npages, marked.pageSize]
    exact geometry.diskSized
  · change disk.npages * disk.pageSize < 2 ^ 31
    rw [marked.npages, marked.pageSize]
    exact geometry.diskSmall
  · intro key page stored
    obtain ⟨bound, set⟩ := sound.backed key page stored
    change page < disk.npages ∧ allocated disk page = true
    rw [marked.npages, marked.bits]
    refine ⟨bound, ?_⟩
    split
    · rename_i inside
      cases value with
      | true => rfl
      -- Clearing a bit is allowed only where no key has its page.
      | false => exact absurd stored (kept rfl page inside.1 inside.2 key)
    · exact set
  · rw [view]
    exact sound.layout

end Sections

end VmSim.MemoryUnit
