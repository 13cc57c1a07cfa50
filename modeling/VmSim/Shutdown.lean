import VmSim.ProcessOwnership

/-!
The end of the program: `free_app_data` calls `process_destroy` for every slot and then
`proc_cont_destroy`. `process_destroy` waits for a signal that only the thread of the
process sends, at the end of `process_dealloc`; the posts before its own are taken to be
done with, and a wake-up before the signal is left out.
-/

namespace VmSim.ProcessTable
open PageTable DiskBlocks KeyedMap MemoryUnit PagingRuns

def isStarted (cont : ProcCont) (pid : Nat) : Bool :=
  cont.processes[pid]?.any fun process => process.procThrdArg.isSome

/-- `process_destroy`, and what the thread of the process does before it comes back. Where
no thread reads the post, nobody signals and the wait has no end. -/
def destroyAndWait (cont : ProcCont) (pid : Nat) : Outcome ProcCont := do
  let (errcode, cont) ← processDestroy cont pid
  if errcode = .ecSuccess then
    if isStarted cont pid then do
      let (_, cont) ← processDealloc cont pid
      pure cont
    else .error .diverges
  else pure cont

def destroyFrom (cont : ProcCont) : Nat → Nat → Outcome ProcCont
  | 0, _ => .ok cont
  | count + 1, pid => do
      let cont ← destroyAndWait cont pid
      destroyFrom cont count (pid + 1)

/-- What `proc_cont_destroy` returns, and the container it is called for. -/
def freeAppData (cont : ProcCont) : Outcome (Errcode × ProcCont) := do
  let cont ← destroyFrom cont cont.maxNumOfProc 0
  pure (procContDestroy cont, cont)

section Clearing
variable {cont middle after : ProcCont}

structure Cleared (gone : Nat → Prop) (cont after : ProcCont) : Prop where
  sound : ContSound after
  maxNumOfProc : after.maxNumOfProc = cont.maxNumOfProc
  diskPages : after.mmu.disk.npages = cont.mmu.disk.npages
  live : ∀ pid p, Live after pid p ↔ ¬ gone pid ∧ Live cont pid p

theorem cleared_same (sound : ContSound cont) {gone : Nat → Prop}
    (dead : ∀ pid p, gone pid → ¬ Live cont pid p) : Cleared gone cont cont where
  sound := sound
  maxNumOfProc := rfl
  diskPages := rfl
  live pid p := ⟨fun live => ⟨fun there => dead pid p there live, live⟩, And.right⟩

theorem cleared_trans {first second : Nat → Prop} (before : Cleared first cont middle)
    (behind : Cleared second middle after) : Cleared (fun pid => first pid ∨ second pid) cont after where
  sound := behind.sound
  maxNumOfProc := behind.maxNumOfProc.trans before.maxNumOfProc
  diskPages := behind.diskPages.trans before.diskPages
  live pid p := by
    rw [behind.live, before.live, not_or]
    exact ⟨fun ⟨last, here, live⟩ => ⟨⟨here, last⟩, live⟩, fun ⟨⟨here, last⟩, live⟩ => ⟨last, here, live⟩⟩

theorem cleared_slots {gone slots : Nat → Prop} (cleared : Cleared gone cont after)
    (same : ∀ pid, gone pid ↔ slots pid) : Cleared slots cont after where
  sound := cleared.sound
  maxNumOfProc := cleared.maxNumOfProc
  diskPages := cleared.diskPages
  live pid p := by rw [cleared.live, same]

theorem destroy_and_wait_exact (sound : ContSound cont) (pid : Nat) :
    (destroyAndWait cont pid = .ok cont ∧ ∀ p, ¬ Live cont pid p) ∨
    ∃ p after, Live cont pid p ∧ Cleared (· = pid) cont after ∧
      destroyAndWait cont pid = if p.procThrdArg.isSome then .ok after else .error .diverges := by
  rcases process_destroy_cases sound pid with ⟨errcode, ran, failed, dead⟩ | ⟨p, box, live, ran, marked⟩
  · refine .inl ⟨?_, dead⟩
    rw [destroyAndWait, ran, bind_ok]
    exact if_neg failed
  · have bound := (List.getElem?_eq_some_iff.mp live.1).1
    let own : Process := { p with del := true, mailBox := some box }
    let flagged : ProcCont := { cont with processes := cont.processes.set pid own }
    have set : flagged.processes = cont.processes.set pid own := rfl
    have here : Live flagged pid own := (live_set set bound pid own).mpr (by simp [own, live.2])
    obtain ⟨after, destroyed, deallocated⟩ := process_dealloc_exact marked here rfl
    refine .inr ⟨p, after, live, ?_, ?_⟩
    · obtain ⟨freed, disk, chain, unmarked, same⟩ := destroyed.pages
      refine ⟨destroyed.sound, destroyed.maxNumOfProc, ?_, fun q r => ?_⟩
      · rw [same]
        exact unmarked.npages.trans (chain_shape chain).diskPages
      · rw [live_set destroyed.processes (by simpa [flagged] using bound) q r]
        by_cases at_pid : q = pid
        · simp [at_pid]
        · rw [if_neg at_pid, live_set set bound q r, if_neg at_pid]
          exact ⟨fun live => ⟨at_pid, live⟩, And.right⟩
    · have thread : isStarted flagged pid = p.procThrdArg.isSome := by
        simp only [isStarted, here.1, Option.any_some, own]
      rw [destroyAndWait, ran, bind_ok]
      change (if isStarted flagged pid then processDealloc flagged pid >>= fun result => pure result.2
        else .error .diverges) = _
      rw [thread]
      by_cases started : p.procThrdArg.isSome
      · rw [if_pos started, if_pos started, deallocated]
        change (if p.procThrdArg.isSome then _ else _) >>= _ = _
        rw [if_pos started]
        rfl
      · rw [if_neg started, if_neg started]

theorem destroy_from_exact (sound : ContSound cont) (count pid : Nat) :
    (∃ after, destroyFrom cont count pid = .ok after ∧
      Cleared (fun q => pid ≤ q ∧ q < pid + count) cont after ∧
      ∀ q p, pid ≤ q → q < pid + count → Live cont q p → p.procThrdArg ≠ none) ∨
    (destroyFrom cont count pid = .error .diverges ∧
      ∃ q p, Live cont q p ∧ p.procThrdArg = none) := by
  induction count generalizing cont pid with
  | zero => exact .inl ⟨cont, rfl, cleared_same sound (fun q p there => by omega), fun q p low high => by omega⟩
  | succ count ih =>
      have slots : ∀ q, (q = pid ∨ pid + 1 ≤ q ∧ q < pid + 1 + count) ↔ pid ≤ q ∧ q < pid + (count + 1) := by
        intro q
        omega
      rcases destroy_and_wait_exact sound pid with ⟨ran, dead⟩ | ⟨p, middle, live, cleared, ran⟩
      · rw [destroyFrom, ran, bind_ok]
        rcases ih sound (pid + 1) with ⟨after, looped, rest, started⟩ | failed
        · have first : Cleared (· = pid) cont cont := cleared_same sound fun q r same => same ▸ dead r
          refine .inl ⟨after, looped, cleared_slots (cleared_trans first rest) slots, fun q r low high alive => ?_⟩
          rcases (slots q).mpr ⟨low, high⟩ with rfl | ⟨low, high⟩
          · exact absurd alive (dead r)
          · exact started q r low high alive
        · exact .inr failed
      · cases started : p.procThrdArg with
        | none =>
            rw [started] at ran
            exact .inr ⟨by rw [destroyFrom, ran]; rfl, pid, p, live, started⟩
        | some arg =>
            rw [started] at ran
            have ran : destroyAndWait cont pid = .ok middle := ran
            rw [destroyFrom, ran, bind_ok]
            rcases ih cleared.sound (pid + 1) with ⟨after, looped, rest, others⟩ | ⟨failed, q, r, alive, never⟩
            · refine .inl ⟨after, looped, cleared_slots (cleared_trans cleared rest) slots, fun q r low high alive => ?_⟩
              by_cases same : q = pid
              · subst same
                have equal : r = p := Option.some.inj (alive.1.symm.trans live.1)
                rw [equal, started]
                simp
              · exact others q r (by omega) (by omega) ((cleared.live q r).mpr ⟨same, alive⟩)
            · exact .inr ⟨failed, q, r, ((cleared.live q r).mp alive).2, never⟩

theorem cont_destroyed (dead : ∀ pid p, ¬ Live cont pid p) : procContDestroy cont = .ecSuccess := by
  have junk : ∀ p ∈ cont.processes.take cont.maxNumOfProc, p.junk = true := by
    intro p member
    obtain ⟨pid, here⟩ := List.mem_iff_getElem?.mp (List.mem_of_mem_take member)
    by_contra used
    exact dead pid p ⟨here, by simpa using used⟩
  exact if_pos (List.all_eq_true.mpr junk)

theorem free_app_data_cases (sound : ContSound cont) :
    (∃ after, freeAppData cont = .ok (.ecSuccess, after) ∧ Cleared (fun _ => True) cont after ∧
      ∀ pid p, Live cont pid p → p.procThrdArg ≠ none) ∨
    (freeAppData cont = .error .diverges ∧ ∃ pid p, Live cont pid p ∧ p.procThrdArg = none) := by
  have within : ∀ {pid p}, Live cont pid p → 0 ≤ pid ∧ pid < 0 + cont.maxNumOfProc := by
    intro pid p live
    have bound := (List.getElem?_eq_some_iff.mp live.1).1
    rw [sound.slots] at bound
    omega
  rcases destroy_from_exact sound cont.maxNumOfProc 0 with ⟨after, looped, cleared, started⟩ | ⟨failed, never⟩
  · have all : Cleared (fun _ => True) cont after :=
      { cleared with
        live := fun pid p => by
          rw [cleared.live]
          exact ⟨fun ⟨outside, live⟩ => absurd (within live) outside, fun ⟨never, _⟩ => absurd trivial never⟩ }
    have dead : ∀ pid p, ¬ Live after pid p := fun pid p live => ((all.live pid p).mp live).1 trivial
    refine .inl ⟨after, ?_, all, fun pid p live => started pid p (within live).1 (within live).2 live⟩
    rw [freeAppData, looped, bind_ok, cont_destroyed dead]
    rfl
  · refine .inr ⟨?_, never⟩
    rw [freeAppData, failed]
    rfl

end Clearing

/-! The bytes of the memory and the disk play no part in it. -/

theorem destroy_and_wait_books (cont : ProcCont) (pid : Nat) :
    destroyAndWait (contBooks cont) pid = (destroyAndWait cont pid).map contBooks := by
  rw [destroyAndWait, process_destroy_books]
  refine map_bind_map fun ⟨errcode, middle⟩ => ?_
  change (if errcode = .ecSuccess then _ else _) = Except.map contBooks (if errcode = .ecSuccess then _ else _)
  by_cases posted : errcode = .ecSuccess
  · rw [if_pos posted, if_pos posted]
    change (if isStarted middle pid then _ else _) = Except.map contBooks (if isStarted middle pid then _ else _)
    by_cases started : isStarted middle pid
    · rw [if_pos started, if_pos started, process_dealloc_books]
      exact map_bind_map fun result => rfl
    · rw [if_neg started, if_neg started]
      rfl
  · rw [if_neg posted, if_neg posted]
    rfl

theorem destroy_from_books (cont : ProcCont) (count pid : Nat) :
    destroyFrom (contBooks cont) count pid = (destroyFrom cont count pid).map contBooks := by
  induction count generalizing cont pid with
  | zero => rfl
  | succ count ih =>
      rw [destroyFrom, destroy_and_wait_books]
      exact map_bind_map fun middle => ih middle (pid + 1)

theorem free_app_data_books (cont : ProcCont) :
    freeAppData (contBooks cont) = (freeAppData cont).map fun result => (result.1, contBooks result.2) := by
  change (destroyFrom (contBooks cont) cont.maxNumOfProc 0 >>= _) = _
  rw [destroy_from_books]
  exact map_bind_map fun after => rfl

/-- The program comes to its end exactly if every process was started, and then everything
that the processes had is free; otherwise it waits for ever. -/
theorem shutdown_exact {frames pages block : Nat} (oneFrame : 0 < frames) (onePage : 0 < pages)
    (positive : 0 < block) (size nprocs freq : Nat) {past : List Step} {s : System}
    (run : Run Step.Allowed (initialSystem frames pages size block nprocs freq) past s) :
    ((∃ after, freeAppData s.cont = .ok (.ecSuccess, after)) ↔
      ∀ pid p, Live s.cont pid p → p.procThrdArg ≠ none) ∧
    (freeAppData s.cont = .error .diverges ↔ ∃ pid p, Live s.cont pid p ∧ p.procThrdArg = none) ∧
    ∀ code after, freeAppData s.cont = .ok (code, after) → code = .ecSuccess ∧
      (∀ pid p, ¬ Live after pid p) ∧ (∀ i < pages, allocated after.mmu.disk i = false) ∧
      after.mmu.diskMap.keys = [] ∧ ∀ key, frameOf after.mmu.memIpt key = none := by
  obtain ⟨sound, same⟩ := run_books (initial_books oneFrame onePage positive nprocs freq) run
  have npages : s.cont.mmu.disk.npages = pages := same.diskPages
  have booked := free_app_data_books s.cont
  rcases free_app_data_cases sound with ⟨kept, freed, cleared, started⟩ | ⟨failed, pid, p, live, never⟩
  · rw [freed] at booked
    obtain ⟨after, ran, rfl⟩ : ∃ after, freeAppData s.cont = .ok (.ecSuccess, after) ∧ contBooks after = kept := by
      cases own : freeAppData s.cont with
      | error fault =>
          rw [own] at booked
          cases booked
      | ok result =>
          rw [own] at booked
          obtain ⟨code, books⟩ := Prod.mk.inj (Except.ok.inj booked)
          exact ⟨result.2, by rw [code], books.symm⟩
    refine ⟨iff_of_true ⟨after, ran⟩ started, iff_of_false ?_ ?_, fun code' after' ran' => ?_⟩
    · simp [ran]
    · rintro ⟨pid, p, live, never⟩
      exact started pid p live never
    rw [ran] at ran'
    cases ran'
    have dead : ∀ pid p, ¬ Live after pid p := fun pid p live => ((cleared.live pid p).mp live).1 trivial
    have size : after.mmu.disk.npages = pages := cleared.diskPages.trans npages
    exact ⟨rfl, dead, size ▸ nothing_left cleared.sound dead⟩
  · have waits : freeAppData s.cont = .error .diverges := by
      rw [failed] at booked
      cases own : freeAppData s.cont with
      | error fault =>
          rw [own] at booked
          exact booked.symm
      | ok result =>
          rw [own] at booked
          cases booked
    have stuck : ∀ result, freeAppData s.cont ≠ .ok result := fun result => by simp [waits]
    exact ⟨iff_of_false (fun ⟨after, ran⟩ => stuck _ ran) fun started => started pid p live never,
      iff_of_true waits ⟨pid, p, live, never⟩, fun code after ran => absurd ran (stuck _)⟩

/-- Two processes that were started, one of them with its page in the only frame. -/
def twoStarted : List Step :=
  [.create fun _ => 0, .start 0, .create fun _ => 0, .start 1, .memory (.service ⟨1, 0, 0⟩)]

theorem shutdown_exact_two : ∃ s, Run Step.Allowed (initialSystem 1 2 1 1 2 1) twoStarted.reverse s ∧
    ∃ after, freeAppData s.cont = .ok (.ecSuccess, after) := by
  have replayed : ((replaySteps Step.Allowed (initialSystem 1 2 1 1 2 1) twoStarted).any
      fun s => s.cont.processes.all fun p => p.procThrdArg.isSome) = true := by decide
  obtain ⟨s, ran, all⟩ := (Option.any_eq_true _ _).mp replayed
  have run : Run Step.Allowed (initialSystem 1 2 1 1 2 1) twoStarted.reverse s := by
    simpa using replay_steps_run .nil ran
  refine ⟨s, run, (shutdown_exact (by decide) (by decide) (by decide) 1 2 1 run).1.mpr ?_⟩
  rintro pid p ⟨here, -⟩ none
  have started := List.all_eq_true.mp all p (List.mem_of_getElem? here)
  rw [none] at started
  cases started

end VmSim.ProcessTable
