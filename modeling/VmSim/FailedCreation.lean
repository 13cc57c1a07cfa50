import VmSim.ProcessOwnership

/-!
The failure exits of `init_process`. Without a free slot nothing is touched.
When the disk refuses a block the slot has already been zeroed, so it is no
longer marked as junk, and the pointer into the middle of the slot array is
passed to `free`; the exits after that are never taken.
-/

namespace VmSim.ProcessTable
open PageTable DiskBlocks KeyedMap FramePool DemandPaging MemoryUnit BlockAllocator AlignedBlocks
open PageReplacement PagingRuns

def Harmless (past : Nat → PackedBitmap.Block) (cont : ProcCont) : Prop :=
  ∀ code freed after, initProcess past cont = .ok (code, freed, after) → code < 0 →
    after.processes = cont.processes ∧ after.mmu = cont.mmu ∧
      ∀ pointer ∈ freed, pointer.whole = true

def liveCount (cont : ProcCont) : Nat := cont.processes.countP fun p => !p.junk

/-- No free slot, room for a block on the disk, or a tail that overflows an `int`. -/
def NoRefusal (cont : ProcCont) : Prop :=
  (∀ p ∈ cont.processes, p.junk = false) ∨
    liveCount cont < cont.mmu.disk.npages / cont.prcBlkSize ∨
    (¬ cont.prcBlkSize ∣ cont.mmu.disk.npages ∧
      2 ^ 31 ≤ (cont.mmu.disk.npages / cont.prcBlkSize + 1) * cont.prcBlkSize)

theorem starts_length (processes : List Process) :
    (starts processes).length = processes.countP fun p => !p.junk := by
  rw [starts, List.length_map, List.countP_eq_length_filter]

theorem no_slot_exact {cont : ProcCont} (slots : cont.processes.length = cont.maxNumOfProc)
    (used : ∀ p ∈ cont.processes, p.junk = false) (past : Nat → PackedBitmap.Block) :
    initProcess past cont = .ok (-1, [], cont) := by
  have within : 0 + cont.maxNumOfProc ≤ cont.processes.length := by rw [slots]; omega
  rcases find_junk_cases within with ⟨none, -⟩ | ⟨slot, p, -, here, junk⟩
  · simp [initProcess, none]
  · rw [used p (List.mem_of_getElem? here)] at junk
    cases junk

theorem init_process_of_books {cont : ProcCont} {past : Nat → PackedBitmap.Block} {code : Int}
    {freed : List SlotPointer} {after : ProcCont}
    (ran : initProcess past (contBooks cont) = .ok (code, freed, after)) :
    ∃ after', initProcess past cont = .ok (code, freed, after') ∧ contBooks after' = after := by
  rw [init_process_books] at ran
  cases own : initProcess past cont with
  | error fault =>
      rw [own] at ran
      cases ran
  | ok result =>
      rw [own] at ran
      cases ran
      exact ⟨result.2.2, rfl, rfl⟩

theorem harmless_iff {cont : ProcCont} (sound : ContSound (contBooks cont))
    (pages : cont.mmu.disk.npages < 2 ^ 31) (past : Nat → PackedBitmap.Block) :
    Harmless past cont ↔ NoRefusal cont := by
  have slots : cont.processes.length = cont.maxNumOfProc := sound.slots
  have room := room_iff sound.owned.packed sound.owned.positive
  have overflows := alloc_overflows sound.owned
  rw [sound.blockSize, starts_length] at room overflows
  rcases init_process_cases sound past with ⟨-, used⟩ | ⟨slot, old, here, junk, cases⟩
  · have all : ∀ p ∈ cont.processes, p.junk = false := by
      intro p member
      obtain ⟨pid, here⟩ := List.mem_iff_getElem?.mp member
      exact used pid p here
    apply iff_of_true
    · intro code freed after same _
      rw [no_slot_exact slots all] at same
      cases same
      exact ⟨rfl, rfl, by simp⟩
    · exact .inl all
  · rcases cases with ⟨ran, refused, full⟩ | ⟨ran, wrapped⟩ |
      ⟨page, after, ran, -, fits, aligned, vacant, -⟩
    · have closed : ¬ liveCount cont < cont.mmu.disk.npages / cont.prcBlkSize := by
        intro less
        obtain ⟨gap, aligned, fits, vacant⟩ := room.mp less
        exact vacant (full gap aligned fits)
      apply iff_of_false
      · intro harmless
        -- The slot was junk and is zeroed now.
        obtain ⟨after, own, forgot⟩ := init_process_of_books ran
        obtain ⟨same, -⟩ := harmless _ _ _ own (by decide)
        have set : after.processes = cont.processes.set slot zeroProcess :=
          congrArg ProcCont.processes forgot
        have at_slot : cont.processes[slot]? = some old := here
        have bound := (List.getElem?_eq_some_iff.mp at_slot).1
        have zeroed := congrArg (·[slot]?) (set.symm.trans same)
        simp only [List.getElem?_set_self bound, at_slot, Option.some.injEq] at zeroed
        rw [← zeroed] at junk
        cases junk
      · rintro (used | less | ⟨tail, beyond⟩)
        · have kept := used old (List.mem_of_getElem? here)
          rw [junk] at kept
          cases kept
        · exact closed less
        · rw [overflows closed tail beyond past] at refused
          cases refused
    · apply iff_of_true
      · intro code freed after same
        rw [init_process_books, same] at ran
        cases ran
      · have fault := (alloc_fault sound.owned pages past wrapped).2
        rw [sound.blockSize] at fault
        exact .inr (.inr fault)
    · apply iff_of_true
      · intro code freed after' same negative
        rw [init_process_books, same] at ran
        cases ran
        exact absurd negative (Int.not_lt.mpr (Int.natCast_nonneg slot))
      · exact .inr (.inl (room.mpr ⟨page, aligned, fits, vacant⟩))

/-- A failed creation is harmless exactly where no block is refused to a free slot. -/
theorem failed_creation_iff {frames pages block : Nat} (oneFrame : 0 < frames)
    (onePage : 0 < pages) (positive : 0 < block) (int : pages < 2 ^ 31) (size nprocs freq : Nat)
    {past : List Step} {s : System}
    (run : Run Step.Allowed (initialSystem frames pages size block nprocs freq) past s)
    (table : Nat → PackedBitmap.Block) : Harmless table s.cont ↔ NoRefusal s.cont := by
  obtain ⟨sound, same⟩ := run_books (initial_books oneFrame onePage positive nprocs freq) run
  have npages : s.cont.mmu.disk.npages = pages := same.diskPages
  exact harmless_iff sound (npages ▸ int) table

/-- Two slots and a disk of one block: the second creation zeroes its slot and
frees a pointer into the array. -/
theorem failed_creation_leaves_slot :
    ∃ s freed after, Run Step.Allowed (initialSystem 1 1 1 1 2 1) [.create fun _ => 0] s ∧
      initProcess (fun _ => 0) s.cont = .ok (-2, freed, after) ∧
      s.cont.processes.map (·.junk) = [false, true] ∧
      after.processes.map (·.junk) = [false, false] ∧
      freed = [⟨1⟩] ∧ (SlotPointer.mk 1).whole = false ∧
      ¬ Harmless (fun _ => 0) s.cont := by
  have replayed : ((replaySteps Step.Allowed (initialSystem 1 1 1 1 2 1) [.create fun _ => 0]).any
      fun s => match initProcess (fun _ => 0) s.cont with
        | .ok (code, freed, after) => code = -2 ∧ freed = [⟨1⟩] ∧
            s.cont.processes.map (·.junk) = [false, true] ∧
            after.processes.map (·.junk) = [false, false]
        | .error _ => false) = true := by decide
  -- The replay names the state after one creation; the second one fails there.
  obtain ⟨s, reached, outcome⟩ := (Option.any_eq_true _ _).mp replayed
  cases ran : initProcess (fun _ => 0) s.cont with
  | error fault =>
      rw [ran] at outcome
      cases outcome
  | ok result =>
      obtain ⟨code, freed, after⟩ := result
      rw [ran] at outcome
      simp only [decide_eq_true_eq] at outcome
      obtain ⟨rfl, rfl, before, now⟩ := outcome
      refine ⟨s, _, after, replay_steps_run .nil reached, ran, before, now, rfl, rfl, ?_⟩
      intro harmless
      have whole := (harmless _ _ _ ran (by decide)).2.2 ⟨1⟩ (by simp)
      exact absurd whole (by decide)

/-- With one slot in use and no other, a further creation fails and changes nothing. -/
theorem failed_creation_iff_full :
    ∃ s, Run Step.Allowed (initialSystem 1 1 1 1 1 1) [.create fun _ => 0] s ∧
      Harmless (fun _ => 0) s.cont := by
  have replayed : ((replaySteps Step.Allowed (initialSystem 1 1 1 1 1 1) [.create fun _ => 0]).any
      fun s => s.cont.processes.all fun p => !p.junk) = true := by decide
  obtain ⟨s, reached, used⟩ := (Option.any_eq_true _ _).mp replayed
  have run : Run Step.Allowed (initialSystem 1 1 1 1 1 1) [.create fun _ => 0] s :=
    replay_steps_run .nil reached
  refine ⟨s, run, ?_⟩
  apply (failed_creation_iff (by decide) (by decide) (by decide) (by decide) 1 1 1 run _).mpr
  left
  intro p member
  simpa using List.all_eq_true.mp used p member

end VmSim.ProcessTable
