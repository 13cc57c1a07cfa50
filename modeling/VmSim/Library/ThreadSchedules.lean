import VmSim.Library.LockedThreads

/-!
Schedules of programs with locks, checked by computation. Where only listed threads
hold locks, whether a lock is free is a test over the list, so a list of events can
be replayed, and a replay that succeeds is a run of the program.
-/

namespace VmSim.LockedThreads
open Interleaving

variable {Thread Lock Cond Shared Stop : Type} {Place : Thread → Type} {t : Thread}

def State.HeldAmong (s : State Thread Lock Shared Stop Place) (threads : List Thread) : Prop :=
  ∀ t, t ∉ threads → s.held t = []

section Checks
variable [DecidableEq Lock]

def State.freeAmong (s : State Thread Lock Shared Stop Place) (threads : List Thread) (lock : Lock) :
    Mode → Bool
  | .read => threads.all fun t => (s.held t).all fun claim => claim ≠ (lock, .write)
  | .write => threads.all fun t => (s.held t).all fun claim => claim.1 ≠ lock

def Instr.runsAmong (s : State Thread Lock Shared Stop Place) (threads : List Thread) :
    Instr Thread Lock Cond Shared Stop Place t → Bool
  | .acquire lock mode _ => s.freeAmong threads lock mode
  | .choose _ => false
  | .halt => false
  | _ => true

def Instr.wakesAmong (s : State Thread Lock Shared Stop Place) (threads : List Thread) :
    Instr Thread Lock Cond Shared Stop Place t → Bool
  | .wait _ mutex _ _ _ _ => s.freeAmong threads mutex .write
  | _ => false

/-- The steps of the listed threads, with choices that pass a test. -/
def readyAmong [DecidableEq Thread] (code : Code Thread Lock Cond Shared Stop Place)
    (threads : List Thread) (chooses : State Thread Lock Shared Stop Place → ∀ t, Place t → Bool)
    (s : State Thread Lock Shared Stop Place) : Event Thread Place → Bool
  | .runs t => threads.contains t && s.nap t = .awake && (code t (s.place t)).runsAmong s threads
  | .picks t place => s.nap t = .awake && chooses s t place
  | .wakes t => threads.contains t && s.nap t ≠ .awake && (code t (s.place t)).wakesAmong s threads

variable {s : State Thread Lock Shared Stop Place} {threads : List Thread}

theorem free_among (among : s.HeldAmong threads) {lock : Lock} {mode : Mode}
    (free : s.freeAmong threads lock mode = true) : s.Free lock mode := by
  cases mode with
  | read =>
      intro t held
      by_cases listed : t ∈ threads
      · have mine := List.all_eq_true.mp (List.all_eq_true.mp free t listed) _ held
        simp at mine
      · rw [among t listed] at held
        cases held
  | write =>
      intro t mode held
      by_cases listed : t ∈ threads
      · have mine := List.all_eq_true.mp (List.all_eq_true.mp free t listed) _ held
        simp at mine
      · rw [among t listed] at held
        cases held

end Checks

section Schedules
variable [DecidableEq Thread] [DecidableEq Lock] [DecidableEq Cond]

/-- The program with the enabled steps that can be seen to be so. -/
def scheduled (code : Code Thread Lock Cond Shared Stop Place) (threads : List Thread)
    (chooses : State Thread Lock Shared Stop Place → ∀ t, Place t → Bool) :
    Program (State Thread Lock Shared Stop Place) (Event Thread Place) where
  enabled s event := (s.stopped.isNone && readyAmong code threads chooses s event) = true
  next := next code

instance {code : Code Thread Lock Cond Shared Stop Place} {threads : List Thread}
    {chooses : State Thread Lock Shared Stop Place → ∀ t, Place t → Bool}
    (s : State Thread Lock Shared Stop Place) (event : Event Thread Place) :
    Decidable ((scheduled code threads chooses).enabled s event) := inferInstanceAs (Decidable (_ = true))

variable {code : Code Thread Lock Cond Shared Stop Place} {threads : List Thread}
variable {chooses : State Thread Lock Shared Stop Place → ∀ t, Place t → Bool}
variable {s begin : State Thread Lock Shared Stop Place} {event : Event Thread Place}
variable {past : List (Event Thread Place)}

theorem scheduled_enabled (chosen : ∀ s t place, chooses s t place = true → Picks place (code t (s.place t)))
    (among : s.HeldAmong threads) (enabled : (scheduled code threads chooses).enabled s event) :
    Enabled code s event := by
  obtain ⟨going, ready⟩ := Bool.and_eq_true_iff.mp enabled
  refine ⟨Option.isNone_iff_eq_none.mp going, ?_⟩
  cases event with
  | runs t =>
      simp only [readyAmong, Bool.and_eq_true, decide_eq_true_eq] at ready
      obtain ⟨⟨-, awake⟩, runs⟩ := ready
      refine ⟨awake, ?_⟩
      cases instr : code t (s.place t) with
      | acquire lock mode next =>
          rw [instr] at runs
          exact free_among among runs
      | choose allowed =>
          rw [instr] at runs
          cases runs
      | halt =>
          rw [instr] at runs
          cases runs
      | _ => trivial
  | picks t place =>
      simp only [readyAmong, Bool.and_eq_true, decide_eq_true_eq] at ready
      exact ⟨ready.1, chosen s t place ready.2⟩
  | wakes t =>
      simp only [readyAmong, Bool.and_eq_true, decide_eq_true_eq] at ready
      obtain ⟨⟨-, sleeps⟩, wakes⟩ := ready
      refine ⟨sleeps, ?_⟩
      cases instr : code t (s.place t) with
      | wait cond mutex timed tests ready next =>
          rw [instr] at wakes
          have free : s.freeAmong threads mutex .write = true := wakes
          exact free_among among free
      | _ =>
          rw [instr] at wakes
          cases wakes

theorem scheduled_among (among : s.HeldAmong threads)
    (enabled : (scheduled code threads chooses).enabled s event) :
    (next code s event).HeldAmong threads := by
  intro u apart
  have ready := (Bool.and_eq_true_iff.mp enabled).2
  cases event with
  | runs t =>
      simp only [readyAmong, Bool.and_eq_true, List.contains_iff_mem] at ready
      have other : u ≠ t := fun same => apart (same ▸ ready.1.1)
      simp only [next]
      cases instr : code t (s.place t) with
      | acquire lock mode place => simpa [run, other] using among u apart
      | release lock place => simpa [run, other] using among u apart
      | act does =>
          simp only [run]
          split <;> exact among u apart
      | wait cond mutex timed tests ready place =>
          simp only [run]
          split
          · exact among u apart
          · simpa [other] using among u apart
      | spin ready place =>
          simp only [run]
          split <;> exact among u apart
      | spawn does place =>
          simp only [run, naps_held]
          by_cases child : u = (does s.shared).2.1
          · rw [child]
            exact holds_self ..
          · rw [holds_other _ _ child]
            exact among u apart
      | _ => exact among u apart
  | picks t place => exact among u apart
  | wakes t =>
      simp only [readyAmong, Bool.and_eq_true, List.contains_iff_mem] at ready
      have other : u ≠ t := fun same => apart (same ▸ ready.1.1)
      simp only [next]
      cases instr : code t (s.place t) with
      | wait cond mutex timed tests ready place =>
          simp only [wake]
          split
          · simpa [other] using among u apart
          · exact among u apart
      | _ => exact among u apart

/-- What has been replayed is a run, whose choices keep to the guard. -/
theorem scheduled_run {guard : State Thread Lock Shared Stop Place → Event Thread Place → Prop}
    (chosen : ∀ s t place, chooses s t place = true → Picks place (code t (s.place t)))
    (guarded : ∀ s event, (scheduled code threads chooses).enabled s event → guard s event)
    (among : begin.HeldAmong threads) (run : Run (scheduled code threads chooses) begin past s) :
    Run ((program code).only guard) begin past s := by
  have both : Run ((program code).only guard) begin past s ∧ s.HeldAmong threads := by
    induction run with
    | nil => exact ⟨.nil, among⟩
    | step event _ enabled ih =>
        obtain ⟨before, held⟩ := ih
        exact ⟨before.step event ⟨scheduled_enabled chosen held enabled, guarded _ event enabled⟩,
          scheduled_among held enabled⟩
  exact both.1

end Schedules

end VmSim.LockedThreads
