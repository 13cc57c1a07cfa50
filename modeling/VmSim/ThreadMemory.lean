import VmSim.BlockAllocator
import VmSim.Library.PagingPhases
import VmSim.ThreadCode

/-!
What each statement of the threads does to a sound MMU, as a change of the demand
paging store: the parts of `mmu_read` and `mmu_write`, of the service of a fault, of
an aging pass, and of the creation and deletion of a process.
-/

namespace VmSim.ThreadCode
open LockedThreads PageTable DiskBlocks KeyedMap MemoryUnit PageReplacement PagingRuns
open FramePool DemandPaging PagedBytes BlockAllocator

structure SameShape (mmu after : Mmu) : Prop where
  frames : after.mem.npages = mmu.mem.npages
  pageSize : after.mem.pageSize = mmu.mem.pageSize
  diskPages : after.disk.npages = mmu.disk.npages
  blockSize : after.disk.processBlockSize = mmu.disk.processBlockSize

/-- A statement has succeeded, with this store behind it. -/
structure Leaves (mmu after : Mmu) (store : ByteStore) : Prop where
  sound : MmuSound after
  view : storeOf after = store
  shape : SameShape mmu after
  bitmap : after.disk.allocBitmap = mmu.disk.allocBitmap

def Access.nbytes : Access → Nat
  | .read _ nbytes => nbytes
  | .write _ buf => buf.length

/-- What the bytes of the access change on its page. -/
def Access.change : Access → Nat → Option BYTE
  | .read _ _ => fun _ => none
  | .write addr buf => changeOf addr buf

def Access.writes (a : Access) : Bool := decide (a.refType = .refWrite)

section Statements
variable {mmu : Mmu}

theorem same_shape_refl (mmu : Mmu) : SameShape mmu mmu := ⟨rfl, rfl, rfl, rfl⟩

theorem leaves_refl (sound : MmuSound mmu) : Leaves mmu mmu (storeOf mmu) :=
  ⟨sound, rfl, same_shape_refl mmu, rfl⟩

theorem acts_leaves {after : Mmu} {action : ByteAction} (acts : Acts mmu after action) :
    Leaves mmu after (action.apply (storeOf mmu)) :=
  ⟨acts.sound, acts.view, ⟨acts.npages, acts.pageSize, acts.diskPages, acts.blockSize⟩, acts.bitmap⟩

theorem table_leaves (sound : MmuSound mmu) {ipt : Ipt} {cells blocks : List BYTE}
    (table : Sound ipt) (size : ipt.size = mmu.memIpt.size)
    (memLength : cells.length = mmu.mem.data.length)
    (diskLength : blocks.length = mmu.disk.data.length)
    {store : ByteStore} (layout : Layout (List.range mmu.mem.npages) store)
    (view : storeOf { mmu with
      memIpt := ipt
      mem := { mmu.mem with data := cells }
      disk := { mmu.disk with data := blocks } } = store) :
    Leaves mmu { mmu with
      memIpt := ipt
      mem := { mmu.mem with data := cells }
      disk := { mmu.disk with data := blocks } } store where
  sound :=
    { geometry := ⟨size.trans sound.geometry.frames, sound.geometry.samePage,
        memLength.trans sound.geometry.memSized, diskLength.trans sound.geometry.diskSized,
        sound.geometry.memSmall, sound.geometry.diskSmall⟩
      table := table
      map := sound.map
      bitmap := ⟨sound.bitmap.bitmap, sound.bitmap.sized⟩
      backed := sound.backed
      layout := by
        rw [view]
        exact layout }
  view := view
  shape := ⟨rfl, rfl, rfl, rfl⟩
  bitmap := rfl

theorem page_size_lt (sound : MmuSound mmu) : mmu.mem.pageSize < 2 ^ 31 := by
  obtain ⟨chain, chained⟩ := sound.table.chained
  have frames : 0 < mmu.mem.npages := by
    rw [← sound.geometry.frames]
    exact chained.positive
  have last := page_end_le mmu.mem.pageSize frames
  have small := sound.geometry.memSmall
  omega

/-! `mmu_read` and `mmu_write`. -/

theorem in_page_goes (sound : MmuSound mmu) {a : Access}
    (inside : a.addr.offset + a.nbytes ≤ mmu.mem.pageSize) : inPage a mmu = .ok mmu := by
  have small := page_size_lt sound
  cases a with
  | read addr nbytes =>
      have passes : mmuReadInPage mmu addr nbytes = .ok () :=
        read_in_page_passes (m := ⟨mmu, prmStatics⟩) small inside
      simp [inPage, passes]
  | write addr buf =>
      have passes : mmuWriteInPage mmu addr buf.length = .ok () :=
        write_in_page_passes (m := ⟨mmu, prmStatics⟩) small inside
      simp [inPage, passes]

theorem count_goes (sound : MmuSound mmu) (hit : Bool) :
    ∃ after, countReference hit mmu = .ok after ∧ Leaves mmu after (storeOf mmu) :=
  ⟨_, rfl, stats_sound sound _, rfl, ⟨rfl, rfl, rfl, rfl⟩, rfl⟩

theorem reference_goes (sound : MmuSound mmu) {a : Access}
    (held : frameOf mmu.memIpt a.addr.key ≠ none) :
    ∃ after, reference a mmu = .ok after ∧ Leaves mmu after
      { storeOf mmu with pool := touch (storeOf mmu).pool a.addr.key a.writes } := by
  obtain ⟨frame, here⟩ := Option.ne_none_iff_exists'.mp held
  obtain ⟨ipt, referenced, moved, -⟩ := reference_touches sound.table here a.refType
  refine ⟨{ mmu with memIpt := ipt }, by simp [reference, referenced], ?_⟩
  have layout : Layout (List.range mmu.mem.npages)
      { storeOf mmu with pool := touch (storeOf mmu).pool a.addr.key a.writes } :=
    touch_layout sound.layout held
  refine table_leaves sound moved.sound moved.size rfl rfl layout ?_
  simp only [storeOf, moved.pool, Access.writes]
  rfl

theorem read_goes (sound : MmuSound mmu) {addr : VirtAddr} {frame nbytes : Nat}
    (held : frameOf mmu.memIpt addr.key = some frame)
    (inside : addr.offset + nbytes ≤ mmu.mem.pageSize) :
    ∃ bytes, iptTranslate mmu.memIpt addr = .ok frame ∧
      copyOut mmu.mem.data (memAddr mmu frame addr.offset) nbytes = .ok bytes ∧
      bytes.length = nbytes ∧
      ∀ i, i < nbytes → bytes[i]? = (storeOf mmu).memory frame (addr.offset + i) := by
  obtain ⟨place, fits⟩ := frame_fits sound.geometry (frame_bound sound held) inside
  refine ⟨slice mmu.mem.data (frame * mmu.mem.pageSize + addr.offset) nbytes,
    translate_exact sound.table held, ?_, slice_length fits, fun i bound => ?_⟩
  · rw [place, copyOut, if_pos fits]
  · exact PagedBytes.read_in_page _ inside bound

theorem copied_frame (sound : MmuSound mmu) {addr : VirtAddr} {buf : List BYTE} {frame : Nat}
    (held : frameOf mmu.memIpt addr.key = some frame)
    (inside : addr.offset + buf.length ≤ mmu.mem.pageSize)
    (fits : frame * mmu.mem.pageSize + addr.offset + buf.length ≤ mmu.mem.data.length) :
    pageCell (overwrite mmu.mem.data (frame * mmu.mem.pageSize + addr.offset) buf)
      mmu.mem.pageSize = writeFrame (storeOf mmu) addr.key (changeOf addr buf) := by
  have place := (frame_fits sound.geometry (frame_bound sound held) inside).1
  obtain ⟨ipt, data, ran, -, -, view⟩ := write_body_view sound.table held inside place fits
  obtain ⟨ipt', ran', -⟩ := write_body_runs sound.table held (by rw [place]; exact fits)
  rw [ran, place] at ran'
  cases ran'
  exact (congrArg Store.memory view).symm

theorem copy_goes (sound : MmuSound mmu) {a : Access}
    (held : frameOf mmu.memIpt a.addr.key ≠ none)
    (inside : a.addr.offset + a.nbytes ≤ mmu.mem.pageSize) :
    ∃ after, copyBytes a mmu = .ok after ∧ Leaves mmu after
      { storeOf mmu with memory := writeFrame (storeOf mmu) a.addr.key a.change } := by
  obtain ⟨frame, here⟩ := Option.ne_none_iff_exists'.mp held
  have translated := translate_exact sound.table here
  cases a with
  | read addr nbytes =>
      obtain ⟨bytes, found, copied, -⟩ := read_goes sound here inside
      have found : iptTranslate mmu.memIpt addr = .ok frame := found
      have copied : copyOut mmu.mem.data (memAddr mmu frame addr.offset) nbytes = .ok bytes := copied
      refine ⟨mmu, by simp [copyBytes, Access.addr, found, copied], ?_⟩
      have same : writeFrame (storeOf mmu) addr.key (fun _ => none) = (storeOf mmu).memory := by
        unfold writeFrame
        split <;> simp
      simp only [Access.change, Access.addr, same]
      exact leaves_refl sound
  | write addr buf =>
      have inside : addr.offset + buf.length ≤ mmu.mem.pageSize := inside
      have here : frameOf mmu.memIpt addr.key = some frame := here
      obtain ⟨place, fits⟩ := frame_fits sound.geometry (frame_bound sound here) inside
      have copied : copyIn mmu.mem.data (memAddr mmu frame addr.offset) buf =
          .ok (overwrite mmu.mem.data (frame * mmu.mem.pageSize + addr.offset) buf) := by
        rw [place, copyIn, if_pos fits]
      have moved := copied_frame sound here inside fits
      have found : iptTranslate mmu.memIpt addr = .ok frame := translated
      refine ⟨{ mmu with mem := { mmu.mem with
          data := overwrite mmu.mem.data (frame * mmu.mem.pageSize + addr.offset) buf } },
        by simp [copyBytes, Access.addr, found, copied], ?_⟩
      have layout := sound.layout
      refine table_leaves sound sound.table rfl (overwrite_length fits) rfl
        ⟨layout.pool, layout.backed, layout.separate⟩ ?_
      simp only [Access.change, Access.addr, ← moved]
      rfl

theorem zero_goes (sound : MmuSound mmu) :
    Leaves mmu { mmu with memIpt := iptZeroRefCount mmu.memIpt } (storeOf mmu) := by
  obtain ⟨chain, chained⟩ := sound.table.chained
  have table : Sound (iptZeroRefCount mmu.memIpt) :=
    ⟨⟨chain, chained.positive, chained.entriesSized, chained.hatSized, chained.linked,
      chained.unique, chained.member, chained.freeUnique, chained.free⟩, sound.table.distinct⟩
  exact table_leaves sound table rfl rfl rfl sound.layout rfl

theorem age_goes (sound : MmuSound mmu) : Leaves mmu (agePages mmu) (storeOf mmu) := by
  obtain ⟨aged, view⟩ := age_pages_exact sound
  exact ⟨aged, view, ⟨rfl, rfl, rfl, rfl⟩, rfl⟩

/-! The service of a fault. -/

theorem lends_exact (mmu : Mmu) (key : Key) : lend (storeOf mmu).pool key = none ↔
    (storeOf mmu).pool.free = [] := lend_none

theorem map_goes (sound : MmuSound mmu) {addr : VirtAddr} (absent : frameOf mmu.memIpt addr.key = none)
    (backed : backingOf mmu addr.key ≠ none) :
    ∃ errcode after, mmuMapPage mmu addr = .ok (errcode, after) ∧
      Leaves mmu after (takeFrame (storeOf mmu) addr.key) ∧
      (errcode = .ecSuccess ↔ (storeOf mmu).pool.free ≠ []) := by
  obtain ⟨errcode, ipt, mapped, moved⟩ := map_page_moves sound absent
  refine ⟨errcode, { mmu with memIpt := ipt }, mapped, ?_, ?_⟩
  · refine table_leaves sound moved.sound moved.size rfl rfl
      (take_layout sound.layout absent backed) ?_
    simp only [storeOf, moved.pool]
    rfl
  · cases lent : lend (poolOf mmu.memIpt) addr.key with
    | none =>
        have fails := map_page_full sound absent lent
        rw [mapped] at fails
        have failed : errcode = .ecFail := congrArg Prod.fst (Except.ok.inj fails)
        simp [failed, (lends_exact mmu addr.key).mp lent]
    | some pool =>
        obtain ⟨other, succeeds, -⟩ := map_page_lends sound absent lent
        rw [mapped] at succeeds
        have succeeded : errcode = .ecSuccess := congrArg Prod.fst (Except.ok.inj succeeds)
        have room : (storeOf mmu).pool.free ≠ [] := by
          rw [Ne, ← lends_exact mmu addr.key]
          exact fun none => by cases lent.symm.trans none
        simp [succeeded, room]

theorem take_holds {addr : VirtAddr} (room : (storeOf mmu).pool.free ≠ []) :
    (takeFrame (storeOf mmu) addr.key).pool.frame addr.key ≠ none := by
  obtain ⟨pool, lent⟩ := Option.ne_none_iff_exists'.mp (mt (lends_exact mmu addr.key).mp room)
  obtain ⟨frame, rest, -, rfl⟩ := lend_some lent
  simp [takeFrame, lent]

theorem take_none {addr : VirtAddr} (full : (storeOf mmu).pool.free = []) :
    takeFrame (storeOf mmu) addr.key = storeOf mmu := by
  have none := (lends_exact mmu addr.key).mpr full
  simp [takeFrame, none]

theorem swap_goes (sound : MmuSound mmu) (prm : PrmStatics) {addr : VirtAddr}
    (absent : frameOf mmu.memIpt addr.key = none) (full : (storeOf mmu).pool.free = []) :
    ∃ victim prm', getPageToSwap prm mmu addr = .ok (victim, prm', mmu) ∧
      victim.key ≠ addr.key ∧ frameOf mmu.memIpt victim.key ≠ none :=
  get_page_to_swap_exact sound prm absent full

theorem sync_out_goes (sound : MmuSound mmu) {victim : VirtAddr}
    (held : frameOf mmu.memIpt victim.key ≠ none) :
    ∃ after, syncOut victim mmu = .ok after ∧
      Leaves mmu after (copyBack (storeOf mmu) victim.key) := by
  obtain ⟨frame, here⟩ := Option.ne_none_iff_exists'.mp held
  obtain ⟨data, synced, length, copied⟩ := sync_to_exact sound here
  refine ⟨{ mmu with disk := { mmu.disk with data := data } }, by simp [syncOut, synced, assert], ?_⟩
  refine table_leaves sound sound.table rfl rfl length (copy_back_layout sound.layout) ?_
  simp only [storeOf, copied]
  rfl

theorem unmap_out_goes (sound : MmuSound mmu) {victim : VirtAddr}
    (held : frameOf mmu.memIpt victim.key ≠ none) :
    ∃ after, unmapOut victim mmu = .ok after ∧
      Leaves mmu after (dropFrame (storeOf mmu) victim.key) := by
  obtain ⟨errcode, ipt, unmapped, succeeds, moved⟩ := unmap_page_moves sound victim
  have success := succeeds.mpr held
  refine ⟨{ mmu with memIpt := ipt }, by simp [unmapOut, unmapped, success, assert], ?_⟩
  refine table_leaves sound moved.sound moved.size rfl rfl (drop_layout sound.layout) ?_
  simp only [storeOf, moved.pool]
  rfl

theorem drop_room {victim : VirtAddr} (held : frameOf mmu.memIpt victim.key ≠ none) :
    (dropFrame (storeOf mmu) victim.key).pool.free ≠ [] := by
  obtain ⟨frame, here⟩ := Option.ne_none_iff_exists'.mp held
  have returned : giveBack (storeOf mmu).pool victim.key =
      some ⟨_, _, (storeOf mmu).pool.free ++ [frame]⟩ :=
    Option.map_eq_some_iff.mpr ⟨frame, here, rfl⟩
  simp [dropFrame, returned]

theorem sync_from_goes (sound : MmuSound mmu) {addr : VirtAddr}
    (held : frameOf mmu.memIpt addr.key ≠ none) :
    ∃ frame slot after, frameOf mmu.memIpt addr.key = some frame ∧
      backingOf mmu addr.key = some slot ∧
      mmuSyncFromBackingPage mmu addr = .ok (.ecSuccess, after) ∧
      Leaves mmu after { storeOf mmu with
        memory := Function.update (storeOf mmu).memory frame ((storeOf mmu).disk slot) } := by
  obtain ⟨frame, here⟩ := Option.ne_none_iff_exists'.mp held
  obtain ⟨slot, backed⟩ := sound.layout.backed addr.key frame here
  have placed := sound_placed sound here backed
  have there := placed.slotRoom
  have length : (pageSlice mmu.disk.data mmu.disk.pageSize slot).length = mmu.mem.pageSize :=
    (slice_length there).trans placed.samePage
  have fits : frame * mmu.mem.pageSize +
      (pageSlice mmu.disk.data mmu.disk.pageSize slot).length ≤ mmu.mem.data.length := by
    rw [length]
    exact placed.frameRoom
  refine ⟨frame, slot, _, here, backed, sync_from_placed placed, ?_⟩
  have layout := sound.layout
  refine table_leaves sound sound.table rfl (overwrite_length fits) rfl
    ⟨layout.pool, layout.backed, layout.separate⟩ ?_
  rw [placed.samePage] at there
  simp only [storeOf, placed.samePage]
  rw [copy_page placed.frameRoom there]
  rfl

/-! Blocks. -/

structure Remarks (mmu : Mmu) (disk : Disk) (live : List Nat) : Prop where
  sound : MmuSound { mmu with disk := disk }
  view : storeOf { mmu with disk := disk } = storeOf mmu
  shape : SameShape mmu { mmu with disk := disk }
  owned : Owned live disk

theorem alloc_block_goes (sound : MmuSound mmu) {live : List Nat} (owned : Owned live mmu.disk)
    (small : mmu.disk.npages + mmu.disk.processBlockSize ≤ 2 ^ 31) (past : Nat → PackedBitmap.Block) :
    ∃ page disk, diskAllocProcessBlock past mmu.disk = .ok (page, disk) ∧
      Remarks mmu disk (page.toList ++ live) := by
  rcases alloc_cases owned past with ⟨page, disk, ran, marked, aligned, fits, -, vacant⟩ | ⟨ran, -⟩ |
    ⟨-, page, bound, wraps, -⟩
  · obtain ⟨good, view⟩ := marked_sound sound marked (by simp)
    refine ⟨some page, disk, ran, good, view, ⟨rfl, rfl, marked.npages, marked.blockSize⟩, ?_⟩
    exact alloc_owned owned marked aligned fits vacant
  · exact ⟨none, mmu.disk, ran, sound, rfl, same_shape_refl mmu, owned⟩
  · omega

theorem free_block_goes (sound : MmuSound mmu) {live : List Nat} (owned : Owned live mmu.disk)
    {page : Nat} (member : page ∈ live)
    (unused : ∀ i, page ≤ i → i < page + mmu.disk.processBlockSize → ∀ key, backingOf mmu key ≠ some i) :
    ∃ disk, diskFreeProcessBlock mmu.disk page = .ok disk ∧ Remarks mmu disk (live.erase page) := by
  obtain ⟨disk, ran, marked⟩ := free_exact owned member
  obtain ⟨good, view⟩ := marked_sound sound marked fun _ => unused
  exact ⟨disk, ran, good, view, ⟨rfl, rfl, marked.npages, marked.blockSize⟩,
    free_owned owned member marked⟩

/-! Backing pages. -/

theorem alloc_page_goes (sound : MmuSound mmu) {live : List Nat} (owned : Owned live mmu.disk)
    {addr : VirtAddr} {page start : Nat} (member : start ∈ live) (low : start ≤ page)
    (high : page < start + mmu.disk.processBlockSize) (unbacked : backingOf mmu addr.key = none)
    (unused : ∀ key, backingOf mmu key ≠ some page) :
    ∃ after, mmuAllocPage mmu addr page = .ok (.ecSuccess, after) ∧
      Leaves mmu after ((Action.alloc addr.key page : ByteAction).apply (storeOf mmu)) ∧
      frameOf mmu.memIpt addr.key = none := by
  have inside := owned.packed.inside start member
  have bound : page < mmu.disk.npages := by omega
  have enabled : (Action.alloc addr.key page : ByteAction).Enabled (storeOf mmu) := ⟨unbacked, unused⟩
  obtain ⟨after, ran, acts⟩ := alloc_page_exact sound enabled bound
    ((owned.exact page bound).mpr ⟨start, member, low, high⟩)
  exact ⟨after, ran, acts_leaves acts, alloc_absent sound.layout enabled⟩

theorem free_page_goes (sound : MmuSound mmu) {addr : VirtAddr}
    (backed : backingOf mmu addr.key ≠ none) :
    ∃ after, mmuFreePage mmu addr = .ok (.ecSuccess, after) ∧
      Leaves mmu after ((Action.release addr.key : ByteAction).apply (storeOf mmu)) := by
  obtain ⟨after, ran, acts⟩ := MemoryUnit.free_page_exact sound backed
  exact ⟨after, ran, acts_leaves acts⟩

theorem leaves_owned {after : Mmu} {store : ByteStore} {live : List Nat}
    (leaves : Leaves mmu after store) (owned : Owned live mmu.disk) : Owned live after.disk :=
  owned_bitmap owned leaves.bitmap leaves.shape.diskPages leaves.shape.blockSize

end Statements

end VmSim.ThreadCode
