import Mathlib.Data.Rat.Floor
import VmSim.FaultProtocol
import VmSim.ReachableFaults

/-!
The statistics of the MMU and the `hitRate` command. Both counters are advanced
under the statistics lock at the first residency check of an access, and by
nothing else in the program.
-/

namespace VmSim.HitRate
open PageTable DiskBlocks KeyedMap MemoryUnit PageReplacement PagingRuns ProcessTable Interleaving

/-- `print_hit_rate` with an exact quotient. A quotient by zero is infinite or not
a number, and one of the two comparisons fails. -/
def printHitRate (mmu : Mmu) : Outcome ℚ :=
  if asInt mmu.stats.nrefs = 0 then .error (.assertion .printHitRate)
  else do
    let hitrate : ℚ := asInt mmu.stats.hits / asInt mmu.stats.nrefs
    assert .printHitRate (hitrate ≤ 1)
    assert .printHitRate (0 ≤ hitrate)
    pure hitrate

/-! What the first residency check of an access finds, and what it adds; nothing else
counts. -/

def pinAnswer (mmu : Mmu) (page : VirtAddr) : Option Bool :=
  (iptHasTranslation mmu.memIpt page).toOption

def count (present : Bool) (stats : MmuStats) : MmuStats :=
  ⟨stats.nrefs + 1, if present then stats.hits + 1 else stats.hits⟩

theorem pin_check_counts {mmu after : Mmu} {page : VirtAddr} {present : Bool}
    (ran : mmuPinCheck mmu page = .ok (present, after)) :
    pinAnswer mmu page = some present ∧ after.stats = count present mmu.stats := by
  obtain ⟨found, checked, rest⟩ := bind_eq_ok.mp ran
  cases found with
  | true =>
      cases rest
      exact ⟨congrArg Except.toOption checked, rfl⟩
  | false =>
      cases rest
      exact ⟨congrArg Except.toOption checked, rfl⟩

theorem pin_check_fails {mmu : Mmu} {page : VirtAddr} {fault : Fault}
    (ran : mmuPinCheck mmu page = .error fault) : pinAnswer mmu page = none := by
  unfold mmuPinCheck at ran
  unfold pinAnswer
  cases checked : iptHasTranslation mmu.memIpt page with
  | error other => rfl
  | ok present =>
      rw [checked] at ran
      cases present <;> cases ran

theorem count_folds (answers : List Bool) :
    answers.foldr count ⟨0, 0⟩ = ⟨answers.length, answers.count true⟩ := by
  induction answers with
  | nil => rfl
  | cons present rest ih =>
      rw [List.foldr_cons, ih]
      cases present <;> simp [count]

/-! The same in runs of the whole program, whose sections come in any order. -/

def sectionAnswer (m : Machine) : Section → Option Bool
  | .pin addr => pinAnswer m.mmu addr
  | _ => none

def stepAnswer (sys : System) : Step → Option Bool
  | .memory next => sectionAnswer sys.machine next
  | _ => none

def Step.after (sys : System) (next : Step) : System :=
  match next.run sys with
  | .ok (_, after) => after
  | .error _ => sys

def systemProgram : Program System Step :=
  ⟨fun sys next => ∃ reply after, next.run sys = .ok (reply, after), Step.after⟩

theorem section_counts {m after : Machine} {next : Section} {bytes : List BYTE}
    (ran : next.run m = .ok (bytes, after)) :
    after.mmu.stats = (sectionAnswer m next).elim m.mmu.stats (count · m.mmu.stats) := by
  cases next with
  | allocPage addr backing =>
      obtain ⟨⟨code, mmu⟩, alloc, same⟩ := bind_eq_ok.mp ran
      cases same
      exact (alloc_page_rearranges alloc).stats
  | freePage addr =>
      obtain ⟨⟨code, mmu⟩, free, same⟩ := bind_eq_ok.mp ran
      cases same
      exact (free_page_rearranges free).stats
  | service addr =>
      obtain ⟨⟨prm, mmu⟩, served, same⟩ := bind_eq_ok.mp ran
      cases same
      exact (service_headers served).stats
  | pin addr =>
      obtain ⟨⟨present, mmu⟩, checked, same⟩ := bind_eq_ok.mp ran
      obtain ⟨answer, counted⟩ := pin_check_counts checked
      cases same
      rw [sectionAnswer, answer]
      exact counted
  | read addr nbytes =>
      simp only [Section.run, bind_eq_ok] at ran
      obtain ⟨_, -, ⟨_, mmu⟩, read, same⟩ := ran
      cases same
      exact (read_body_headers read).stats
  | write addr buf =>
      simp only [Section.run, bind_eq_ok] at ran
      obtain ⟨_, -, mmu, wrote, same⟩ := ran
      cases same
      exact (write_body_headers wrote).stats
  | age =>
      cases ran
      rfl
  | allocBlock past =>
      obtain ⟨_, -, same⟩ := bind_eq_ok.mp ran
      cases same
      rfl
  | freeBlock page =>
      obtain ⟨_, -, same⟩ := bind_eq_ok.mp ran
      cases same
      rfl

theorem step_counts {sys after : System} {next : Step} {reply : Reply}
    (ran : next.run sys = .ok (reply, after)) :
    after.cont.mmu.stats =
      (stepAnswer sys next).elim sys.cont.mmu.stats (count · sys.cont.mmu.stats) := by
  cases next with
  | memory next =>
      obtain ⟨⟨bytes, machine⟩, taken, same⟩ := bind_eq_ok.mp ran
      cases same
      exact section_counts taken
  | _ => exact (step_rearranges (by simp) ran).stats

theorem step_after {sys after : System} {next : Step} {reply : Reply}
    (ran : next.run sys = .ok (reply, after)) : Step.after sys next = after := by
  rw [Step.after, ran]

theorem system_run {guard : System → Step → Prop} {begin sys : System} {past : List Step}
    (run : ProcessTable.Run guard begin past sys) :
    Interleaving.Run systemProgram begin past sys := by
  induction run with
  | nil => exact .nil
  | step next before _ ran _ ih =>
      rw [← step_after ran]
      exact ih.step next ⟨_, _, ran⟩

theorem system_counts {guard : System → Step → Prop} {begin sys : System} {past : List Step}
    (run : ProcessTable.Run guard begin past sys) :
    sys.cont.mmu.stats =
      (systemProgram.observed stepAnswer begin past).foldr count begin.cont.mmu.stats :=
  run_adds (fun sys => sys.cont.mmu.stats) (system_run run) fun sys next ran => by
    obtain ⟨reply, after, ran⟩ := ran
    rw [← step_counts ran, ← step_after ran]
    rfl

section Threads
open FaultProtocol
variable {Thread : Type} [DecidableEq Thread]

def eventAnswer (s : State Thread) : Event Thread → Option Bool
  | .tests _ page => pinAnswer s.machine.mmu page
  | _ => none

omit [DecidableEq Thread] in
theorem after_stats {result : Outcome α} {rest : α → State Thread} {s : State Thread}
    (kept : ∀ a, result = .ok a → (rest a).machine.mmu.stats = s.machine.mmu.stats) :
    (s.after result rest).machine.mmu.stats = s.machine.mmu.stats := by
  cases result with
  | error fault => rfl
  | ok a => exact kept a rfl

theorem event_counts (s : State Thread) (event : Event Thread) :
    (next s event).machine.mmu.stats =
      (eventAnswer s event).elim s.machine.mmu.stats (count · s.machine.mmu.stats) := by
  cases event with
  | tests t page =>
      cases checked : mmuPinCheck s.machine.mmu page with
      | error fault =>
          simp only [next, checked, State.after, eventAnswer, pin_check_fails checked, Option.elim]
      | ok result =>
          obtain ⟨present, mmu⟩ := result
          obtain ⟨answer, counted⟩ := pin_check_counts checked
          simp only [next, checked, State.after, eventAnswer, answer, Option.elim]
          exact counted
  | retests t page => exact after_stats fun _ _ => rfl
  | reads t page frame nbytes => exact after_stats fun _ read => (read_body_headers read).stats
  | writes t page frame buf => exact after_stats fun _ wrote => (write_body_headers wrote).stats
  | serves cmd addr => exact after_stats fun _ served => (service_headers served).stats
  | _ => rfl

theorem thread_counts {machine : Machine} {events : List (Event Thread)} {s : State Thread}
    (run : Interleaving.Run (program Thread) (start Thread machine) events s) :
    s.machine.mmu.stats =
      ((program Thread).observed eventAnswer (start Thread machine) events).foldr count
        machine.mmu.stats :=
  run_adds (fun s => s.machine.mmu.stats) run fun s event _ => event_counts s event

/-- What the first residency checks since `load_app_data` found, the latest first:
those of a run of the whole program and those of the threads after it. -/
def accesses (begin : System) (past : List Step) (events : List (Event Thread)) : List Bool :=
  (program Thread).observed eventAnswer (start Thread (systemProgram.state begin past).machine)
    events ++ systemProgram.observed stepAnswer begin past

end Threads

theorem hit_rate_defined {mmu : Mmu} (accessed : 0 < mmu.stats.nrefs)
    (hits : mmu.stats.hits ≤ mmu.stats.nrefs) (few : mmu.stats.nrefs < 2 ^ 31) :
    printHitRate mmu = .ok (mmu.stats.hits / mmu.stats.nrefs : ℚ) := by
  have positive : (0 : ℚ) < mmu.stats.nrefs := by exact_mod_cast accessed
  have low : (0 : ℚ) ≤ mmu.stats.hits / mmu.stats.nrefs :=
    div_nonneg (by exact_mod_cast Nat.zero_le _) positive.le
  have high : (mmu.stats.hits / mmu.stats.nrefs : ℚ) ≤ 1 := by
    rw [div_le_one positive]
    exact_mod_cast hits
  have some_access : ¬ (mmu.stats.nrefs : Int) = 0 := by omega
  rw [printHitRate, as_int_small few, as_int_small (Nat.lt_of_le_of_lt hits few), if_neg some_access]
  simp [low, high]

theorem hit_rate_undefined {mmu : Mmu} (unused : mmu.stats.nrefs = 0) :
    printHitRate mmu = .error (.assertion .printHitRate) := by
  rw [printHitRate, unused]
  rfl

/-- At every moment after `load_app_data` the counters are the number of accesses
and of hits so far, and `hitRate` passes its assertions once there was an access. -/
theorem hit_rate_printable {Thread : Type} [DecidableEq Thread]
    {frames pages size block nprocs freq : Nat} {begin sys : System} {past : List Step}
    (loaded : begin = initialSystem frames pages size block nprocs freq)
    (before : ProcessTable.Run Step.Allowed begin past sys)
    {events : List (FaultProtocol.Event Thread)} {s : FaultProtocol.State Thread}
    (run : Interleaving.Run (FaultProtocol.program Thread) (FaultProtocol.start Thread sys.machine)
      events s)
    (few : (accesses begin past events).length < 2 ^ 31) :
    s.machine.mmu.stats.nrefs = (accesses begin past events).length ∧
    s.machine.mmu.stats.hits = (accesses begin past events).count true ∧
    s.machine.mmu.stats.hits ≤ s.machine.mmu.stats.nrefs ∧
    ((∃ rate, printHitRate s.machine.mmu = .ok rate) ↔ accesses begin past events ≠ []) := by
  -- The counters are the fold of the answers over everything that has happened.
  have unused : begin.cont.mmu.stats = ⟨0, 0⟩ := by rw [loaded]; rfl
  have counted : s.machine.mmu.stats = (accesses begin past events).foldr count ⟨0, 0⟩ := by
    rw [accesses, List.foldr_append, run_state (system_run before), thread_counts run, ← unused,
      ← system_counts before]
    rfl
  rw [count_folds] at counted
  have nrefs : s.machine.mmu.stats.nrefs = (accesses begin past events).length := by rw [counted]
  have hits : s.machine.mmu.stats.hits = (accesses begin past events).count true := by rw [counted]
  have order : s.machine.mmu.stats.hits ≤ s.machine.mmu.stats.nrefs := by
    rw [hits, nrefs]
    exact List.count_le_length
  refine ⟨nrefs, hits, order, ?_, ?_⟩
  · intro printable none
    obtain ⟨rate, printed⟩ := printable
    rw [none] at nrefs
    rw [hit_rate_undefined nrefs] at printed
    cases printed
  · intro accessed
    have positive : 0 < s.machine.mmu.stats.nrefs := by
      rw [nrefs]
      exact List.length_pos_iff.mpr accessed
    exact ⟨_, hit_rate_defined positive order (nrefs ▸ few)⟩

def residentAccess : List Step :=
  [.create fun _ => 0, .create fun _ => 0, .start 0, .start 1, .memory (.pin ⟨0, 0, 0⟩)]

def faultingAccess : List (FaultProtocol.Event (Fin 1)) :=
  [.enters 0 ⟨1, 0, 0⟩, .tests 0 ⟨1, 0, 0⟩]

theorem hit_rate_printable_half :
    ∃ s : FaultProtocol.State (Fin 1), s.machine.mmu.stats = ⟨2, 1⟩ ∧
      ∃ rate, printHitRate s.machine.mmu = .ok rate := by
  have replayed : (replaySteps Step.Allowed (initialSystem 1 2 1 1 2 1) residentAccess).any
      (fun sys => (replay (FaultProtocol.program (Fin 1)) (FaultProtocol.start (Fin 1) sys.machine)
        faultingAccess).any fun s => decide (s.machine.mmu.stats = ⟨2, 1⟩)) = true := by decide
  obtain ⟨sys, before, found⟩ := (Option.any_eq_true _ _).mp replayed
  obtain ⟨s, run, counted⟩ := (Option.any_eq_true _ _).mp found
  have before := replay_steps_run .nil before
  have run := replay_run .nil run
  have printable := hit_rate_printable rfl before run (by decide)
  exact ⟨s, of_decide_eq_true counted, printable.2.2.2.mpr (by decide)⟩

/-- Nothing keeps the user from asking before the first access. -/
theorem hit_rate_too_early :
    ¬ ∀ (past : List Step) (sys : System) (events : List (FaultProtocol.Event (Fin 1)))
      (s : FaultProtocol.State (Fin 1)),
      ProcessTable.Run Step.Allowed (initialSystem 1 1 1 1 1 1) past sys →
      Interleaving.Run (FaultProtocol.program (Fin 1))
        (FaultProtocol.start (Fin 1) sys.machine) events s →
      ∃ rate, printHitRate s.machine.mmu = .ok rate := by
  intro printable
  obtain ⟨rate, printed⟩ := printable [] _ [] _ .nil .nil
  rw [hit_rate_undefined rfl] at printed
  cases printed

end VmSim.HitRate
