import Mathlib.Logic.Function.Basic

/-!
Programs of several threads that take atomic steps in any order. An event names
the thread and the statement; `enabled` says when it may be taken and `next`
what it does. Runs list their events, the latest first, so that a property may
speak of what has happened and not only of the state.
-/

namespace VmSim.Interleaving

structure Program (State Event : Type) where
  enabled : State → Event → Prop
  next : State → Event → State

variable {State Event : Type}

inductive Run (program : Program State Event) (begin : State) : List Event → State → Prop where
  | nil : Run program begin [] begin
  | step {past : List Event} {s : State} (event : Event) : Run program begin past s →
      program.enabled s event → Run program begin (event :: past) (program.next s event)

/-- The same program where every step also meets a condition. -/
def Program.only (program : Program State Event) (guard : State → Event → Prop) :
    Program State Event where
  enabled s event := program.enabled s event ∧ guard s event
  next := program.next

instance {program : Program State Event} {guard : State → Event → Prop} {s : State} {event : Event}
    [Decidable (program.enabled s event)] [Decidable (guard s event)] :
    Decidable ((program.only guard).enabled s event) := inferInstanceAs (Decidable (_ ∧ _))

section Runs
variable {program : Program State Event} {begin s middle : State} {past later : List Event}

theorem run_keeps {invariant : List Event → State → Prop} (run : Run program begin past s)
    (start : invariant [] begin)
    (keeps : ∀ past s event, invariant past s → program.enabled s event →
      invariant (event :: past) (program.next s event)) : invariant past s := by
  induction run with
  | nil => exact start
  | step event _ enabled ih => exact keeps _ _ event ih enabled

theorem run_invariant {invariant : State → Prop} (run : Run program begin past s)
    (start : invariant begin)
    (keeps : ∀ s event, invariant s → program.enabled s event → invariant (program.next s event)) :
    invariant s := by
  induction run with
  | nil => exact start
  | step event _ enabled ih => exact keeps _ event ih enabled

theorem run_append (first : Run program begin past middle) (second : Run program middle later s) :
    Run program begin (later ++ past) s := by
  induction second with
  | nil => exact first
  | step event _ enabled ih => exact ih.step event enabled

theorem run_split (run : Run program begin (later ++ past) s) :
    ∃ middle, Run program begin past middle ∧ Run program middle later s := by
  induction later generalizing s with
  | nil => exact ⟨s, run, .nil⟩
  | cons event later ih =>
      cases run with
      | step _ before enabled =>
          obtain ⟨middle, first, second⟩ := ih before
          exact ⟨middle, first, second.step event enabled⟩

theorem run_last {event : Event} (run : Run program begin (event :: past) s) :
    ∃ middle, Run program begin past middle ∧ program.enabled middle event ∧
      s = program.next middle event := by
  cases run with
  | step _ before enabled => exact ⟨_, before, enabled, rfl⟩

def Program.state (program : Program State Event) (begin : State) (past : List Event) : State :=
  past.foldr (fun event s => program.next s event) begin

/-- What an observer notes of the events, each in the state it is taken in. -/
def Program.observed (program : Program State Event) (observe : State → Event → Option α)
    (begin : State) : List Event → List α
  | [] => []
  | event :: past =>
      (observe (program.state begin past) event).toList ++ program.observed observe begin past

theorem run_state (run : Run program begin past s) : program.state begin past = s := by
  induction run with
  | nil => rfl
  | step event _ _ ih => exact congrArg (fun s => program.next s event) ih

theorem run_adds {observe : State → Event → Option α} {add : α → β → β} (measure : State → β)
    (run : Run program begin past s)
    (adds : ∀ s event, program.enabled s event →
      measure (program.next s event) = (observe s event).elim (measure s) (add · (measure s))) :
    measure s = (program.observed observe begin past).foldr add (measure begin) := by
  induction run with
  | nil => rfl
  | step event before enabled ih =>
      rw [adds _ event enabled, Program.observed, run_state before, ih]
      cases observe _ event <;> rfl

/-- The events in the order they are taken, checked one by one. -/
def replay (program : Program State Event) [∀ s event, Decidable (program.enabled s event)]
    (s : State) : List Event → Option State
  | [] => some s
  | event :: rest => if program.enabled s event then replay program (program.next s event) rest else none

theorem replay_run [∀ s event, Decidable (program.enabled s event)] {events : List Event}
    (run : Run program begin past middle) (replayed : replay program middle events = some s) :
    Run program begin (events.reverse ++ past) s := by
  induction events generalizing past middle with
  | nil =>
      injection replayed with same
      simpa [← same] using run
  | cons event rest ih =>
      unfold replay at replayed
      split at replayed
      · rename_i enabled
        simpa using ih (run.step event enabled) replayed
      · cases replayed

theorem replay_finds [∀ s event, Decidable (program.enabled s event)] {events : List Event}
    {property : State → Prop} [DecidablePred property]
    (found : (replay program begin events).any (fun s => decide (property s)) = true) :
    ∃ past s, Run program begin past s ∧ property s := by
  obtain ⟨s, reached, holds⟩ := (Option.any_eq_true _ _).mp found
  exact ⟨_, s, replay_run .nil reached, of_decide_eq_true holds⟩

end Runs

end VmSim.Interleaving
