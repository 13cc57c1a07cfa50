import VmSim.ProcessInvariant

/-!
Who owns what in every state of a run: each disk page at most one live
process, each entry of the disk map and each resident page the process it is
named after. Nothing is left when every process is deleted.
-/

namespace VmSim.ProcessTable
open PageTable DiskBlocks KeyedMap FramePool DemandPaging MemoryUnit BlockAllocator AlignedBlocks
open PageReplacement PagingRuns

section Ownership
variable {cont : ProcCont}

theorem stored_key_iff (sound : ContSound (contBooks cont)) (key : Key) :
    key ∈ cont.mmu.diskMap.keys.map VirtAddr.key ↔
      ∃ p, Live cont key.1 p ∧ key.2 < cont.prcBlkSize := by
  have listed : key ∈ cont.mmu.diskMap.keys.map VirtAddr.key ↔ backingOf cont.mmu key ≠ none := by
    have absent : backingOf cont.mmu key = none ↔
        ∀ stored ∈ cont.mmu.diskMap.keys, stored.key ≠ key :=
      (map_get_none disk_map_compares).trans (find_key_none disk_map_compares)
    rw [ne_eq, absent, List.mem_map]
    push Not
    rfl
  rw [listed]
  constructor
  · intro stored
    obtain ⟨page, backed⟩ := Option.ne_none_iff_exists'.mp stored
    obtain ⟨p, live, inside, -⟩ := (sound.backing key page).mp backed
    exact ⟨p, live, inside⟩
  · rintro ⟨p, live, inside⟩
    have backed : backingOf cont.mmu key = some (p.diskBlockStart + key.2) :=
      (sound.backing key _).mpr ⟨p, live, inside, rfl⟩
    simp [backed]

theorem resident_stored (sound : ContSound (contBooks cont)) {key : Key}
    (resident : frameOf cont.mmu.memIpt key ≠ none) :
    key ∈ cont.mmu.diskMap.keys.map VirtAddr.key := by
  obtain ⟨frame, held⟩ := Option.ne_none_iff_exists'.mp resident
  obtain ⟨page, backed⟩ := sound.mmu.layout.backed key frame held
  obtain ⟨p, live, inside, -⟩ := (sound.backing key page).mp backed
  exact (stored_key_iff sound key).mpr ⟨p, live, inside⟩

theorem set_bit_iff (sound : ContSound (contBooks cont)) {i : Nat}
    (bound : i < cont.mmu.disk.npages) :
    allocated cont.mmu.disk i = true ↔ ∃ pid p, Live cont pid p ∧ p.diskBlockStart ≤ i ∧
      i < p.diskBlockStart + cont.prcBlkSize := by
  have blockSize : cont.mmu.disk.processBlockSize = cont.prcBlkSize := sound.blockSize
  have exact : allocated cont.mmu.disk i = true ↔
      Covered cont.mmu.disk.processBlockSize (starts cont.processes) i :=
    sound.owned.exact i bound
  rw [exact, blockSize, Covered]
  constructor
  · rintro ⟨start, member, low, high⟩
    obtain ⟨pid, p, here, used, rfl⟩ := mem_starts.mp member
    exact ⟨pid, p, ⟨here, used⟩, low, high⟩
  · rintro ⟨pid, p, live, low, high⟩
    exact ⟨p.diskBlockStart, live_start live, low, high⟩

theorem owned_apart (sound : ContSound (contBooks cont)) {left right : Nat} {p q : Process}
    (a : Live cont left p) (b : Live cont right q) (different : left ≠ right) :
    p.diskBlockStart + cont.prcBlkSize ≤ q.diskBlockStart ∨
      q.diskBlockStart + cont.prcBlkSize ≤ p.diskBlockStart := by
  have blockSize : cont.mmu.disk.processBlockSize = cont.prcBlkSize := sound.blockSize
  have packed : Packed cont.mmu.disk.processBlockSize cont.mmu.disk.npages
      (starts cont.processes) := sound.owned.packed
  rw [blockSize] at packed
  apply blocks_disjoint packed (live_start a) (live_start b)
  intro same
  exact different (starts_distinct packed.unique a.1 b.1 a.2 b.2 same)

theorem nothing_left (sound : ContSound (contBooks cont)) (dead : ∀ pid p, ¬ Live cont pid p) :
    (∀ i < cont.mmu.disk.npages, allocated cont.mmu.disk i = false) ∧ cont.mmu.diskMap.keys = [] ∧
      ∀ key, frameOf cont.mmu.memIpt key = none := by
  have empty : ∀ key, key ∉ cont.mmu.diskMap.keys.map VirtAddr.key := by
    intro key member
    obtain ⟨p, live, -⟩ := (stored_key_iff sound key).mp member
    exact dead key.1 p live
  refine ⟨fun i bound => ?_, ?_, fun key => ?_⟩
  · rw [← Bool.not_eq_true, set_bit_iff sound bound]
    rintro ⟨pid, p, live, -⟩
    exact dead pid p live
  · exact List.map_eq_nil_iff.mp (List.eq_nil_iff_forall_not_mem.mpr empty)
  · by_contra resident
    exact empty key (resident_stored sound resident)

end Ownership

/-- In every state of a run the bitmap, the disk map and the page table belong to
the live processes, and no step a thread may take fails an assertion of theirs. -/
theorem process_ownership {frames pages block : Nat} (oneFrame : 0 < frames)
    (onePage : 0 < pages) (positive : 0 < block) (size nprocs freq : Nat) {past : List Step} {s : System}
    (run : Run Step.Allowed (initialSystem frames pages size block nprocs freq) past s) :
    (∀ i < pages, allocated s.cont.mmu.disk i = true ↔
      ∃ pid p, Live s.cont pid p ∧ p.diskBlockStart ≤ i ∧ i < p.diskBlockStart + block) ∧
    (∀ left right p q, Live s.cont left p → Live s.cont right q → left ≠ right →
      p.diskBlockStart + block ≤ q.diskBlockStart ∨ q.diskBlockStart + block ≤ p.diskBlockStart) ∧
    (∀ pid p, Live s.cont pid p → p.diskBlockStart + block ≤ pages) ∧
    (s.cont.mmu.diskMap.keys.map VirtAddr.key).Nodup ∧
    (∀ key, key ∈ s.cont.mmu.diskMap.keys.map VirtAddr.key ↔
      ∃ p, Live s.cont key.1 p ∧ key.2 < block) ∧
    (∀ addr p, Live s.cont addr.pid p → addr.page < block →
      mapGet diskMapComparator s.cont.mmu.diskMap addr = some (p.diskBlockStart + addr.page)) ∧
    (∀ key, frameOf s.cont.mmu.memIpt key ≠ none →
      key ∈ s.cont.mmu.diskMap.keys.map VirtAddr.key) ∧
    (∀ (next : Step) (site : Site), next.Allowed s → next.run s = .error (.assertion site) →
      site = .mmuRead ∨ site = .mmuWrite ∨ (site = .funcArgDestroy ∧
        ∃ pid p, next = .dealloc pid ∧ Live s.cont pid p ∧ p.procThrdArg = none)) ∧
    ((∀ pid p, ¬ Live s.cont pid p) →
      (∀ i < pages, allocated s.cont.mmu.disk i = false) ∧ s.cont.mmu.diskMap.keys = [] ∧
      ∀ key, frameOf s.cont.mmu.memIpt key = none) := by
  obtain ⟨sound, same⟩ := run_books (initial_books oneFrame onePage positive nprocs freq) run
  have blockSize : s.cont.prcBlkSize = block := same.prcBlkSize
  have npages : s.cont.mmu.disk.npages = pages := same.diskPages
  have bits : ∀ i < pages, allocated s.cont.mmu.disk i = true ↔
      ∃ pid p, Live s.cont pid p ∧ p.diskBlockStart ≤ i ∧ i < p.diskBlockStart + block := by
    intro i bound
    rw [← npages] at bound
    rw [set_bit_iff sound bound, blockSize]
  have keys : ∀ key, key ∈ s.cont.mmu.diskMap.keys.map VirtAddr.key ↔
      ∃ p, Live s.cont key.1 p ∧ key.2 < block := by
    intro key
    rw [stored_key_iff sound key, blockSize]
  refine ⟨bits, ?_, ?_, sound.mmu.map, keys, ?_, fun key => resident_stored sound, ?_, ?_⟩
  · intro left right p q a b different
    have apart := owned_apart sound a b different
    rwa [blockSize] at apart
  · intro pid p live
    have inside := sound.owned.packed.inside p.diskBlockStart (live_start live)
    have width : (contBooks s.cont).mmu.disk.processBlockSize = block :=
      sound.blockSize.trans blockSize
    rw [width] at inside
    rw [← npages]
    exact inside
  · intro addr p live inside
    rw [backing_exact]
    exact (sound.backing addr.key _).mpr ⟨p, live, by rw [← blockSize] at inside; exact inside, rfl⟩
  · intro next site allowed failed
    by_cases reads : site = .mmuRead
    · exact .inl reads
    · by_cases writes : site = .mmuWrite
      · exact .inr (.inl writes)
      -- The other assertions depend on the books only, and there the step is known exactly.
      · have controlled := (step_control allowed).2 site failed reads writes
        have allowed' : next.Allowed (sysBooks s) := allowed
        rcases control_exact (s := sysBooks s) sound allowed' with
          ⟨code, after, ran, -⟩ | ⟨wrapped, -⟩ | ⟨faulted, pid, p, made, live, unstarted⟩
        · rw [controlled] at ran
          cases ran
        · rw [controlled] at wrapped
          cases wrapped
        · rw [controlled] at faulted
          cases faulted
          exact .inr (.inr ⟨rfl, pid, p, made, live, unstarted⟩)
  · exact npages ▸ nothing_left sound

/-- Two processes share one frame and are then deleted, the second one after an eviction. -/
def deletedRun : List Step :=
  [.create fun _ => 0, .create fun _ => 0, .start 0, .start 1, .memory (.write ⟨0, 0, 0⟩ [7]),
    .memory (.service ⟨1, 0, 0⟩), .destroy 0, .dealloc 0, .memory .age, .destroy 1, .dealloc 1]

theorem process_ownership_deleted :
    ∃ s, Run Step.Allowed (initialSystem 1 2 1 1 2 1) deletedRun.reverse s ∧
      (∀ i < 2, allocated s.cont.mmu.disk i = false) ∧ s.cont.mmu.diskMap.keys = [] ∧
      ∀ key, frameOf s.cont.mmu.memIpt key = none := by
  have replayed : ((replaySteps Step.Allowed (initialSystem 1 2 1 1 2 1) deletedRun).any
      fun s => s.cont.processes.all (·.junk)) = true := by decide
  obtain ⟨s, ran, junk⟩ := (Option.any_eq_true _ _).mp replayed
  have run : Run Step.Allowed (initialSystem 1 2 1 1 2 1) deletedRun.reverse s := by
    simpa using replay_steps_run .nil ran
  refine ⟨s, run, ?_⟩
  obtain ⟨-, -, -, -, -, -, -, -, empty⟩ :=
    process_ownership (by decide) (by decide) (by decide) 1 2 1 run
  apply empty
  rintro pid p ⟨here, used⟩
  have all := List.all_eq_true.mp junk p (List.mem_of_getElem? here)
  rw [used] at all
  cases all

end VmSim.ProcessTable
