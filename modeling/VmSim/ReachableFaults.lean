import VmSim.ServiceExact
import VmSim.ProcessInvariant

/-!
Every state that the program reaches is consistent, however large its memory
and its disk are: the bookkeeping is that of a system with empty pages, and no
function changes the size of an array.
-/

namespace VmSim.ProcessTable
open PageTable DiskBlocks MemoryUnit PageReplacement PagingRuns

structure SameArrays (mmu after : Mmu) : Prop where
  npages : after.mem.npages = mmu.mem.npages
  pageSize : after.mem.pageSize = mmu.mem.pageSize
  memLength : after.mem.data.length = mmu.mem.data.length
  diskPages : after.disk.npages = mmu.disk.npages
  diskSize : after.disk.pageSize = mmu.disk.pageSize
  diskLength : after.disk.data.length = mmu.disk.data.length

theorem same_arrays_of {mmu after : Mmu} (mem : after.mem = mmu.mem) (disk : after.disk = mmu.disk) :
    SameArrays mmu after := by
  constructor <;> simp only [mem, disk]

theorem same_arrays_refl (mmu : Mmu) : SameArrays mmu mmu := same_arrays_of rfl rfl

theorem same_arrays_trans {mmu middle after : Mmu} (first : SameArrays mmu middle)
    (second : SameArrays middle after) : SameArrays mmu after :=
  ⟨second.npages.trans first.npages, second.pageSize.trans first.pageSize,
    second.memLength.trans first.memLength, second.diskPages.trans first.diskPages,
    second.diskSize.trans first.diskSize, second.diskLength.trans first.diskLength⟩

/-- Bytes may move as well, but nothing counts an access. -/
structure SameHeaders (mmu after : Mmu) : Prop extends SameArrays mmu after where
  stats : after.stats = mmu.stats

theorem same_headers_refl (mmu : Mmu) : SameHeaders mmu mmu := ⟨same_arrays_refl mmu, rfl⟩

theorem same_headers_trans {mmu middle after : Mmu} (first : SameHeaders mmu middle)
    (second : SameHeaders middle after) : SameHeaders mmu after :=
  ⟨same_arrays_trans first.toSameArrays second.toSameArrays, second.stats.trans first.stats⟩

/-- Only the page table, the disk map and the allocation bitmap change. -/
structure Rearranges (mmu after : Mmu) : Prop where
  mem : after.mem = mmu.mem
  disk : after.disk = { mmu.disk with allocBitmap := after.disk.allocBitmap }
  stats : after.stats = mmu.stats

theorem rearranges_refl (mmu : Mmu) : Rearranges mmu mmu := ⟨rfl, rfl, rfl⟩

theorem rearranges_trans {mmu middle after : Mmu} (first : Rearranges mmu middle)
    (second : Rearranges middle after) : Rearranges mmu after where
  mem := second.mem.trans first.mem
  disk := by rw [second.disk, first.disk]
  stats := second.stats.trans first.stats

theorem rearranges_headers {mmu after : Mmu} (rearranges : Rearranges mmu after) :
    SameHeaders mmu after := by
  refine ⟨⟨?_, ?_, ?_, ?_, ?_, ?_⟩, rearranges.stats⟩
  · rw [rearranges.mem]
  · rw [rearranges.mem]
  · rw [rearranges.mem]
  · rw [rearranges.disk]
  · rw [rearranges.disk]
  · rw [rearranges.disk]

theorem copy_in_length {cells source data : List α} {start : Nat}
    (copied : copyIn cells start source = .ok data) : data.length = cells.length := by
  unfold copyIn at copied
  split at copied
  · rename_i fits
    cases copied
    exact PagedBytes.overwrite_length fits
  · cases copied

section Functions
variable {mmu after : Mmu} {code : Errcode} {addr : VirtAddr}

theorem map_page_rearranges (ran : mmuMapPage mmu addr = .ok (code, after)) :
    Rearranges mmu after := by
  unfold mmuMapPage at ran
  simp only [bind_eq_ok, pure_eq_ok] at ran
  obtain ⟨_, -, _, -, _, -, same⟩ := ran
  cases same
  exact ⟨rfl, rfl, rfl⟩

theorem unmap_page_rearranges (ran : mmuUnmapPage mmu addr = .ok (code, after)) :
    Rearranges mmu after := by
  unfold mmuUnmapPage at ran
  simp only [bind_eq_ok, pure_eq_ok] at ran
  obtain ⟨_, -, _, -, same⟩ := ran
  cases same
  exact ⟨rfl, rfl, rfl⟩

theorem alloc_page_rearranges {backing : Nat}
    (ran : mmuAllocPage mmu addr backing = .ok (code, after)) : Rearranges mmu after := by
  unfold mmuAllocPage at ran
  simp only [bind_eq_ok, pure_eq_ok] at ran
  obtain ⟨⟨_, middle⟩, mapped, _, -, _, -, same⟩ := ran
  cases same
  exact rearranges_trans (map_page_rearranges mapped) ⟨rfl, rfl, rfl⟩

theorem free_page_rearranges (ran : mmuFreePage mmu addr = .ok (code, after)) :
    Rearranges mmu after := by
  unfold mmuFreePage at ran
  simp only [bind_eq_ok, pure_eq_ok] at ran
  obtain ⟨_, -, ⟨_, middle⟩, unmapped, same⟩ := ran
  cases same
  exact rearranges_trans (unmap_page_rearranges unmapped) ⟨rfl, rfl, rfl⟩

theorem alloc_multiple_rearranges {pid page backing npages : Nat}
    (ran : mmuAllocMultiple mmu pid page backing npages = .ok (code, after)) :
    Rearranges mmu after := by
  induction npages generalizing mmu page backing with
  | zero =>
      cases ran
      exact rearranges_refl _
  | succ npages ih =>
      simp only [mmuAllocMultiple, bind_eq_ok] at ran
      obtain ⟨⟨errcode, middle⟩, first, rest⟩ := ran
      have step := alloc_page_rearranges first
      split at rest
      · cases rest
        exact step
      · exact rearranges_trans step (ih rest)

theorem free_multiple_rearranges {pid page npages : Nat}
    (ran : mmuFreeMultiple mmu pid page npages = .ok (code, after)) : Rearranges mmu after := by
  induction npages generalizing mmu page with
  | zero =>
      cases ran
      exact rearranges_refl _
  | succ npages ih =>
      simp only [mmuFreeMultiple, bind_eq_ok] at ran
      obtain ⟨⟨errcode, middle⟩, first, rest⟩ := ran
      have step := free_page_rearranges first
      split at rest
      · cases rest
        exact step
      · exact rearranges_trans step (ih rest)

theorem sync_to_headers (ran : mmuSyncToBackingPage mmu addr = .ok (code, after)) :
    SameHeaders mmu after := by
  unfold mmuSyncToBackingPage at ran
  simp only [bind_eq_ok] at ran
  obtain ⟨dirty, -, ran⟩ := ran
  split at ran
  · simp only [bind_eq_ok] at ran
    obtain ⟨memPage, -, ran⟩ := ran
    split at ran
    · cases ran
    · simp only [bind_eq_ok, pure_eq_ok] at ran
      obtain ⟨bytes, -, ⟨errcode, disk⟩, written, same⟩ := ran
      cases same
      unfold diskSetPage at written
      simp only [bind_eq_ok] at written
      obtain ⟨_, -, taken, -, written⟩ := written
      split at written
      · simp only [bind_eq_ok, pure_eq_ok] at written
        obtain ⟨start, -, data, copied, same⟩ := written
        cases same
        exact ⟨⟨rfl, rfl, rfl, rfl, rfl, copy_in_length copied⟩, rfl⟩
      · cases written
        exact same_headers_refl mmu
  · cases ran
    exact same_headers_refl mmu

theorem sync_from_headers (ran : mmuSyncFromBackingPage mmu addr = .ok (code, after)) :
    SameHeaders mmu after := by
  unfold mmuSyncFromBackingPage at ran
  simp only [bind_eq_ok] at ran
  obtain ⟨memPage, -, ran⟩ := ran
  split at ran
  · cases ran
  · simp only [bind_eq_ok] at ran
    obtain ⟨bytes, -, ran⟩ := ran
    split at ran
    · cases ran
      exact same_headers_refl mmu
    · simp only [bind_eq_ok, pure_eq_ok] at ran
      obtain ⟨data, copied, same⟩ := ran
      cases same
      exact ⟨⟨rfl, rfl, copy_in_length copied, rfl, rfl, rfl⟩, rfl⟩

theorem page_to_swap_headers {prm prm' : PrmStatics} {victim : VirtAddr}
    (ran : getPageToSwap prm mmu addr = .ok (victim, prm', after)) : SameHeaders mmu after := by
  simp only [getPageToSwap, mmuForEachMemPage, bind_eq_ok, pure_eq_ok] at ran
  obtain ⟨_, -, same⟩ := ran
  cases same
  exact ⟨same_arrays_of rfl rfl, rfl⟩

theorem swap_out_headers (ran : prmSwapOut mmu addr = .ok after) : SameHeaders mmu after := by
  unfold prmSwapOut at ran
  simp only [bind_eq_ok, pure_eq_ok] at ran
  obtain ⟨⟨_, middle⟩, synced, _, -, ⟨_, last⟩, unmapped, _, -, same⟩ := ran
  cases same
  exact same_headers_trans (sync_to_headers synced) (rearranges_headers (unmap_page_rearranges unmapped))

theorem swap_until_mapped_headers {fuel : Nat} {errcode : Errcode} {prm prm' : PrmStatics}
    (ran : swapUntilMapped addr fuel errcode prm mmu = .ok (prm', after)) :
    SameHeaders mmu after := by
  induction fuel generalizing errcode prm mmu with
  | zero =>
      cases errcode with
      | ecSuccess =>
          cases ran
          exact same_headers_refl _
      | ecFail => cases ran
      | ecNotFound => cases ran
  | succ fuel ih =>
      cases errcode with
      | ecSuccess =>
          cases ran
          exact same_headers_refl _
      | _ =>
          unfold swapUntilMapped at ran
          simp only [bind_eq_ok] at ran
          obtain ⟨⟨victim, prm₁, first⟩, chosen, second, swapped, ⟨errcode, third⟩, mapped, _, -,
            rest⟩ := ran
          exact same_headers_trans (page_to_swap_headers chosen) (same_headers_trans
            (swap_out_headers swapped)
              (same_headers_trans (rearranges_headers (map_page_rearranges mapped)) (ih rest)))

theorem service_headers {prm prm' : PrmStatics} (ran : prmService prm mmu addr = .ok (prm', after)) :
    SameHeaders mmu after := by
  unfold prmService at ran
  simp only [bind_eq_ok, pure_eq_ok] at ran
  obtain ⟨⟨_, mapped⟩, first, ⟨_, swapped⟩, second, ⟨_, last⟩, third, same⟩ := ran
  cases same
  exact same_headers_trans (rearranges_headers (map_page_rearranges first))
    (same_headers_trans (swap_until_mapped_headers second) (sync_from_headers third))

end Functions

/-! The allocator marks pages; it moves no byte. -/

theorem for_pages_data {body : Disk → Nat → Outcome Disk}
    (marks : ∀ disk page after, body disk page = .ok after →
      after = { disk with allocBitmap := after.allocBitmap })
    {disk after : Disk} {page count : Nat} (ran : forPages body disk page count = .ok after) :
    after = { disk with allocBitmap := after.allocBitmap } := by
  induction count generalizing disk page with
  | zero =>
      cases ran
      rfl
  | succ count ih =>
      simp only [forPages, bind_eq_ok] at ran
      obtain ⟨next, first, rest⟩ := ran
      have step := marks _ _ _ first
      have later := ih rest
      rw [later, step]

theorem alloc_page_marks (disk : Disk) (page : Nat) (after : Disk)
    (ran : allocPage disk page = .ok after) :
    after = { disk with allocBitmap := after.allocBitmap } := by
  unfold allocPage at ran
  simp only [bind_eq_ok, pure_eq_ok] at ran
  obtain ⟨_, -, _, -, bitmap, -, same⟩ := ran
  cases same
  rfl

theorem free_page_marks (disk : Disk) (page : Nat) (after : Disk)
    (ran : freePage disk page = .ok after) :
    after = { disk with allocBitmap := after.allocBitmap } := by
  unfold freePage at ran
  simp only [bind_eq_ok, pure_eq_ok] at ran
  obtain ⟨_, -, _, -, bitmap, -, same⟩ := ran
  cases same
  rfl

theorem marked_rearranges {mmu : Mmu} {disk : Disk}
    (marks : disk = { mmu.disk with allocBitmap := disk.allocBitmap }) :
    Rearranges mmu { mmu with disk := disk } := ⟨rfl, marks, rfl⟩

theorem alloc_block_data {past : Nat → PackedBitmap.Block} {disk after : Disk} {page : Option Nat}
    (ran : diskAllocProcessBlock past disk = .ok (page, after)) :
    after = { disk with allocBitmap := after.allocBitmap } := by
  unfold diskAllocProcessBlock at ran
  split at ran
  · cases ran
    rfl
  · simp only [bind_eq_ok] at ran
    obtain ⟨enough, -, ran⟩ := ran
    split at ran
    · simp only [bind_eq_ok, pure_eq_ok] at ran
      obtain ⟨marked, looped, same⟩ := ran
      cases same
      exact for_pages_data alloc_page_marks looped
    · cases ran
      rfl

section Steps
variable {cont after : ProcCont}

theorem init_process_rearranges {past : Nat → PackedBitmap.Block} {code : Int}
    {freed : List SlotPointer} (ran : initProcess past cont = .ok (code, freed, after)) :
    Rearranges cont.mmu after.mmu := by
  unfold initProcess at ran
  simp only [bind_eq_ok] at ran
  obtain ⟨found, -, ran⟩ := ran
  split at ran
  · cases ran
    exact rearranges_refl _
  · simp only [bind_eq_ok] at ran
    obtain ⟨processes, -, ⟨page, disk⟩, allocated, ran⟩ := ran
    -- Reserving a block only marks bits, so what a failed creation leaves behind is in order.
    have marked : Rearranges cont.mmu { cont.mmu with disk := disk } :=
      marked_rearranges (alloc_block_data allocated)
    split at ran
    · cases ran
      exact marked
    · simp only [fillSlot, bind_eq_ok] at ran
      obtain ⟨⟨errs, mmu⟩, pages, ran⟩ := ran
      have step := rearranges_trans marked (alloc_multiple_rearranges pages)
      split at ran
      · cases ran
        exact step
      · simp only [bind_eq_ok] at ran
        obtain ⟨prc, -, processes, -, ran⟩ := ran
        split at ran
        · cases ran
          exact step
        · cases ran
          exact step

theorem process_dealloc_rearranges {pid : Nat} {code : Errcode}
    (ran : processDealloc cont pid = .ok (code, after)) : Rearranges cont.mmu after.mmu := by
  unfold processDealloc at ran
  simp only [bind_eq_ok] at ran
  obtain ⟨process, -, _, -, _, -, ran⟩ := ran
  split at ran
  · cases ran
  · simp only [bind_eq_ok, pure_eq_ok] at ran
    obtain ⟨⟨_, mmu⟩, freed, disk, cleared, processes, -, _, -, same⟩ := ran
    cases same
    exact rearranges_trans (free_multiple_rearranges freed)
      (marked_rearranges (for_pages_data free_page_marks cleared))

theorem process_start_mmu {pid : Nat} (ran : processStart cont pid = .ok after) :
    after.mmu = cont.mmu := by
  unfold processStart at ran
  simp only [bind_eq_ok, pure_eq_ok] at ran
  obtain ⟨process, -, processes, -, same⟩ := ran
  cases same
  rfl

theorem compose_mail_mmu {pid : Nat} {post : Post} {code : Errcode}
    (ran : composeMail cont pid post = .ok (code, after)) : after.mmu = cont.mmu := by
  unfold composeMail at ran
  split at ran
  · cases ran
    rfl
  · simp only [bind_eq_ok] at ran
    obtain ⟨prc, -, ran⟩ := ran
    split at ran
    · cases ran
      rfl
    · split at ran
      · cases ran
        rfl
      · split at ran
        · cases ran
        · simp only [bind_eq_ok, pure_eq_ok] at ran
          obtain ⟨processes, -, same⟩ := ran
          cases same
          rfl

theorem process_destroy_mmu {id : Nat} {code : Errcode}
    (ran : processDestroy cont id = .ok (code, after)) : after.mmu = cont.mmu := by
  unfold processDestroy at ran
  split at ran
  · cases ran
    rfl
  · simp only [bind_eq_ok] at ran
    obtain ⟨process, -, ran⟩ := ran
    split at ran
    · cases ran
      rfl
    · simp only [bind_eq_ok, pure_eq_ok] at ran
      obtain ⟨⟨_, middle⟩, mailed, _, -, processes, -, same⟩ := ran
      cases same
      change middle.mmu = cont.mmu
      exact compose_mail_mmu mailed

end Steps

theorem read_body_headers {mmu after : Mmu} {addr : VirtAddr} {nbytes : Nat} {bytes : List BYTE}
    (ran : mmuReadBody mmu addr nbytes = .ok (bytes, after)) : SameHeaders mmu after := by
  simp only [mmuReadBody, bind_eq_ok, pure_eq_ok] at ran
  obtain ⟨ipt, -, frame, -, read, -, same⟩ := ran
  cases same
  exact ⟨same_arrays_of rfl rfl, rfl⟩

theorem write_body_headers {mmu after : Mmu} {addr : VirtAddr} {buf : List BYTE}
    (ran : mmuWriteBody mmu addr buf = .ok after) : SameHeaders mmu after := by
  simp only [mmuWriteBody, bind_eq_ok, pure_eq_ok] at ran
  obtain ⟨ipt, -, frame, -, data, copied, same⟩ := ran
  cases same
  exact ⟨⟨rfl, rfl, copy_in_length copied, rfl, rfl, rfl⟩, rfl⟩

theorem pin_arrays {m after : Machine} {addr : VirtAddr} {bytes : List BYTE}
    (ran : (Section.pin addr).run m = .ok (bytes, after)) : SameArrays m.mmu after.mmu := by
  simp only [Section.run, mmuPinCheck, bind_eq_ok, pure_eq_ok] at ran
  obtain ⟨_, ⟨present, -, checked⟩, same⟩ := ran
  cases same
  split at checked
  · cases checked
    exact same_arrays_of rfl rfl
  · cases checked
    exact same_arrays_of rfl rfl

section Runs
variable {s after : System} {reply : Reply}

theorem memory_arrays {next : Section} (allowed : (Step.memory next).Allowed s)
    (ran : (Step.memory next).run s = .ok (reply, after)) :
    SameArrays s.cont.mmu after.cont.mmu := by
  simp only [Step.run, bind_eq_ok, pure_eq_ok] at ran
  obtain ⟨⟨bytes, machine⟩, taken, same⟩ := ran
  cases same
  cases next with
  | service addr =>
      simp only [Section.run, bind_eq_ok, pure_eq_ok] at taken
      obtain ⟨_, served, same⟩ := taken
      cases same
      exact (service_headers served).toSameArrays
  | pin addr => exact pin_arrays taken
  | read addr nbytes =>
      simp only [Section.run, bind_eq_ok] at taken
      obtain ⟨_, -, ⟨_, mmu⟩, read, same⟩ := taken
      cases same
      exact (read_body_headers read).toSameArrays
  | write addr buf =>
      simp only [Section.run, bind_eq_ok] at taken
      obtain ⟨_, -, mmu, wrote, same⟩ := taken
      cases same
      exact (write_body_headers wrote).toSameArrays
  | age =>
      cases taken
      exact same_arrays_of rfl rfl
  | allocPage addr backing => exact allowed.elim
  | freePage addr => exact allowed.elim
  | allocBlock past => exact allowed.elim
  | freeBlock page => exact allowed.elim

theorem step_rearranges {next : Step} (process : ∀ part, next ≠ .memory part)
    (ran : next.run s = .ok (reply, after)) : Rearranges s.cont.mmu after.cont.mmu := by
  cases next with
  | create past =>
      obtain ⟨⟨code, freed, cont⟩, made, same⟩ := bind_eq_ok.mp ran
      cases same
      exact init_process_rearranges made
  | start pid =>
      obtain ⟨cont, started, same⟩ := bind_eq_ok.mp ran
      cases same
      rw [process_start_mmu started]
      exact rearranges_refl _
  | destroy id =>
      obtain ⟨⟨code, cont⟩, destroyed, same⟩ := bind_eq_ok.mp ran
      cases same
      rw [process_destroy_mmu destroyed]
      exact rearranges_refl _
  | dealloc pid =>
      obtain ⟨⟨code, cont⟩, freed, same⟩ := bind_eq_ok.mp ran
      cases same
      exact process_dealloc_rearranges freed
  | memory part => exact absurd rfl (process part)

theorem step_arrays {next : Step} (allowed : next.Allowed s)
    (ran : next.run s = .ok (reply, after)) : SameArrays s.cont.mmu after.cont.mmu := by
  cases next with
  | memory next => exact memory_arrays allowed ran
  | _ => exact (rearranges_headers (step_rearranges (by simp) ran)).toSameArrays

theorem run_arrays {begin : System} {past : List Step} (run : Run Step.Allowed begin past s) :
    SameArrays begin.cont.mmu s.cont.mmu := by
  induction run with
  | nil => exact same_arrays_refl _
  | step next _ allowed ran _ ih => exact same_arrays_trans ih (step_arrays allowed ran)

end Runs

theorem booked_consistent {mmu : Mmu} (booked : MmuSound (books mmu))
    (samePage : mmu.disk.pageSize = mmu.mem.pageSize)
    (memSized : mmu.mem.data.length = mmu.mem.npages * mmu.mem.pageSize)
    (diskSized : mmu.disk.data.length = mmu.disk.npages * mmu.disk.pageSize) : Consistent mmu where
  frames := booked.geometry.frames
  samePage := samePage
  memSized := memSized
  diskSized := diskSized
  table := booked.table
  bitmap := ⟨booked.bitmap.bitmap, booked.bitmap.sized⟩
  backed := booked.backed
  resident := by
    intro key resident
    obtain ⟨frame, held⟩ := Option.ne_none_iff_exists'.mp resident
    obtain ⟨slot, backed⟩ := booked.layout.backed key frame held
    exact Option.ne_none_iff_exists'.mpr ⟨slot, backed⟩
  distinct := booked.layout.separate

theorem run_consistent {frames pages block : Nat} (oneFrame : 0 < frames) (onePage : 0 < pages)
    (positive : 0 < block) (size nprocs freq : Nat) {past : List Step} {s : System}
    (run : Run Step.Allowed (initialSystem frames pages size block nprocs freq) past s) :
    Consistent s.cont.mmu := by
  have booked := (run_books (initial_books oneFrame onePage positive nprocs freq) run).1
  have arrays := run_arrays run
  refine booked_consistent booked.mmu (arrays.diskSize.trans arrays.pageSize.symm) ?_ ?_
  · rw [arrays.memLength, arrays.npages, arrays.pageSize]
    exact List.length_replicate
  · rw [arrays.diskLength, arrays.diskPages, arrays.diskSize]
    exact List.length_replicate

/-- In every reached state, which is consistent, the service of a fault is correct
wherever the positions it may touch fit, whatever the last fault left in the statics. -/
theorem fault_service_exact {frames pages block : Nat} (oneFrame : 0 < frames)
    (onePage : 0 < pages) (positive : 0 < block) (size nprocs freq : Nat) {past : List Step}
    {s : System}
    (run : Run Step.Allowed (initialSystem frames pages size block nprocs freq) past s) :
    Consistent s.cont.mmu ∧
      ∀ addr, backingPage s.cont.mmu addr ≠ none →
        iptHasTranslation s.cont.mmu.memIpt addr = .ok false → Fits s.cont.mmu addr →
        ∀ prm, ∃ prm' after, prmService prm s.cont.mmu addr = .ok (prm', after) ∧
          Serves s.cont.mmu after addr := by
  have consistent := run_consistent oneFrame onePage positive size nprocs freq run
  exact ⟨consistent, fun addr mapped absent fits prm =>
    service_serves consistent mapped absent fits prm⟩

/-- A dirty page makes room for a page of another process. -/
def crowdedRun : List Step :=
  [.create fun _ => 0, .create fun _ => 0, .start 0, .start 1, .memory (.write ⟨0, 0, 0⟩ [7])]

theorem fault_service_exact_crowded :
    ∃ s prm' after, Run Step.Allowed (initialSystem 1 2 1 1 2 1) crowdedRun.reverse s ∧
      prmService s.prm s.cont.mmu ⟨1, 0, 0⟩ = .ok (prm', after) ∧
      Serves s.cont.mmu after ⟨1, 0, 0⟩ := by
  have replayed : ((replaySteps Step.Allowed (initialSystem 1 2 1 1 2 1) crowdedRun).any
      fun s => decide (backingPage s.cont.mmu ⟨1, 0, 0⟩ ≠ none ∧
        iptHasTranslation s.cont.mmu.memIpt ⟨1, 0, 0⟩ = .ok false)) = true := by decide
  obtain ⟨s, ran, found⟩ := (Option.any_eq_true _ _).mp replayed
  obtain ⟨mapped, absent⟩ := of_decide_eq_true found
  have run : Run Step.Allowed (initialSystem 1 2 1 1 2 1) crowdedRun.reverse s := by
    simpa using replay_steps_run .nil ran
  have arrays := run_arrays run
  obtain ⟨consistent, serviced⟩ :=
    fault_service_exact (by decide) (by decide) (by decide) 1 2 1 run
  have fits : Fits s.cont.mmu ⟨1, 0, 0⟩ := by
    apply small_fits consistent
    · rw [arrays.npages, arrays.pageSize]
      decide
    · rw [arrays.diskPages, arrays.diskSize]
      decide
  obtain ⟨prm', after, served, serves⟩ := serviced ⟨1, 0, 0⟩ mapped absent fits s.prm
  exact ⟨s, prm', after, run, served, serves⟩

/-- Three disk pages of 2^30 bytes: the third one starts where an `int` ends. -/
def hugeRun : List Step := [.create fun _ => 0, .create fun _ => 0, .create fun _ => 0, .start 2]

theorem huge_fault_overflows :
    ¬ ∀ past s, Run Step.Allowed (initialSystem 1 3 (2 ^ 30) 1 3 1) past s →
      ∀ addr, backingPage s.cont.mmu addr ≠ none →
        iptHasTranslation s.cont.mmu.memIpt addr = .ok false →
        ∃ prm' after, prmService s.prm s.cont.mmu addr = .ok (prm', after) ∧
          Serves s.cont.mmu after addr := by
  intro correct
  have replayed : ((replaySteps Step.Allowed (initialSystem 1 3 (2 ^ 30) 1 3 1) hugeRun).any
      fun s => decide (backingPage s.cont.mmu ⟨2, 0, 0⟩ ≠ none ∧
        iptHasTranslation s.cont.mmu.memIpt ⟨2, 0, 0⟩ = .ok false ∧
        prmService s.prm s.cont.mmu ⟨2, 0, 0⟩ = .error .overflow)) = true := by decide
  obtain ⟨s, ran, found⟩ := (Option.any_eq_true _ _).mp replayed
  obtain ⟨mapped, absent, overflows⟩ := of_decide_eq_true found
  have run : Run Step.Allowed (initialSystem 1 3 (2 ^ 30) 1 3 1) hugeRun.reverse s := by
    simpa using replay_steps_run .nil ran
  obtain ⟨prm', after, served, -⟩ := correct _ s run ⟨2, 0, 0⟩ mapped absent
  rw [overflows] at served
  cases served

end VmSim.ProcessTable
