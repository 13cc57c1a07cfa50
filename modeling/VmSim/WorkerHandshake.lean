import VmSim.Library.Interleaving

/-!
util/worker_thread.c: the thread that starts a worker, the worker, and a thread
that may stop it. Each access to the two flags is a step of its own. A worker is
a sequence of results, its function's answers to one call after the other. A
stop is early if it may come before the start has returned.
-/

namespace VmSim.WorkerHandshake
open Interleaving

inductive StarterPc where
  | creating
  | waiting
  | returned
  deriving DecidableEq, Repr

/-- `worker_thread_func`. In `checking` the function has answered, and `stop` is its
local variable. -/
inductive WorkerPc where
  | unborn
  | raising
  | calling (n : Nat)
  | checking (n : Nat) (stop : Bool)
  | lowering
  | terminated
  deriving DecidableEq, Repr

inductive StopperPc where
  | away
  | waiting
  | returned
  deriving DecidableEq, Repr

structure State where
  running : Bool
  stop : Bool
  starter : StarterPc
  worker : WorkerPc
  stopper : StopperPc
  deriving DecidableEq, Repr

inductive Event where
  | creates
  | fails
  | polls
  | raises
  | calls (n : Nat)
  | checks (n : Nat) (stop : Bool)
  | lowers
  | requests
  | observes
  deriving DecidableEq, Repr

def Enabled (early : Bool) (s : State) : Event → Prop
  | .creates => s.starter = .creating
  | .fails => s.starter = .creating
  | .polls => s.starter = .waiting
  | .raises => s.worker = .raising
  | .calls n => s.worker = .calling n
  | .checks n stop => s.worker = .checking n stop
  | .lowers => s.worker = .lowering
  | .requests => s.stopper = .away ∧ (early = true ∨ s.starter = .returned)
  | .observes => s.stopper = .waiting

def next (func : Nat → Bool) (s : State) : Event → State
  | .creates => { s with starter := .waiting, worker := .raising }
  | .fails => { s with starter := .returned }
  | .polls => { s with starter := if s.running then .returned else .waiting }
  | .raises => { s with running := true, worker := .calling 0 }
  | .calls n => { s with worker := .checking n (func n) }
  | .checks n stop =>
      { s with worker := if stop || s.stop then .lowering else .calling (n + 1) }
  | .lowers => { s with running := false, worker := .terminated }
  | .requests => { s with stop := true, stopper := .waiting }
  | .observes => { s with stopper := if s.running then .waiting else .returned }

def program (func : Nat → Bool) (early : Bool) : Program State Event := ⟨Enabled early, next func⟩

def start : State := ⟨false, false, .creating, .unborn, .away⟩

/-- The worker has come and gone, and the starter still waits for it. -/
def Missed (s : State) : Prop := s.worker = .terminated ∧ s.starter = .waiting

section Handshake
variable {func : Nat → Bool} {early : Bool} {past : List Event} {s : State}

/-- The flag of a worker that has terminated stays down. -/
structure Gone (s : State) : Prop where
  missed : Missed s
  down : s.running = false

theorem next_gone (gone : Gone s) {event : Event} (enabled : Enabled early s event) :
    Gone (next func s event) := by
  obtain ⟨⟨terminated, waits⟩, down⟩ := gone
  have creating : s.starter ≠ .creating := by rw [waits]; decide
  cases event with
  | creates => exact absurd enabled creating
  | fails => exact absurd enabled creating
  | polls => exact ⟨⟨terminated, by simp [next, down]⟩, down⟩
  | requests => exact ⟨⟨terminated, waits⟩, down⟩
  | observes => exact ⟨⟨terminated, waits⟩, down⟩
  | _ =>
      have running : s.worker ≠ .terminated := by rw [show s.worker = _ from enabled]; simp
      exact absurd terminated running

def Flagged (s : State) : Prop := s.worker = .terminated → s.running = false

theorem next_flagged (flagged : Flagged s) {event : Event} (enabled : Enabled early s event) :
    Flagged (next func s event) := by
  cases event with
  | creates => exact fun same => by cases same
  | raises => exact fun same => by cases same
  | calls n => exact fun same => by cases same
  | checks n stop =>
      intro same
      simp only [next] at same
      split at same <;> cases same
  | lowers => exact fun _ => rfl
  | _ => exact flagged

theorem missed_gone (run : Run (program func early) start past s) (missed : Missed s) : Gone s := by
  have flagged : Flagged s := run_invariant run (fun same => by cases same)
    fun _ _ flagged enabled => next_flagged flagged enabled
  exact ⟨missed, flagged missed.1⟩

/-- Up to the return of the starter nobody has stopped the worker. -/
structure Unhurried (s : State) : Prop where
  unasked : s.stop = false
  away : s.stopper = .away
  goes : s.worker ≠ .lowering ∧ s.worker ≠ .terminated ∧ ∀ n, s.worker ≠ .checking n true

def Sure (s : State) : Prop := s.starter ≠ .returned → Unhurried s

theorem next_sure (endless : ∀ n, func n = false) (sure : Sure s) {event : Event}
    (enabled : Enabled false s event) : Sure (next func s event) := by
  intro waits
  cases event with
  | fails => exact absurd rfl waits
  | creates =>
      obtain ⟨unasked, away, -⟩ := sure (by rw [show s.starter = .creating from enabled]; decide)
      exact ⟨unasked, away, by simp [next]⟩
  -- Nobody has asked the worker to stop while the starter still waits for it.
  | polls =>
      obtain ⟨unasked, away, goes⟩ := sure (by rw [show s.starter = .waiting from enabled]; decide)
      exact ⟨unasked, away, goes⟩
  | raises =>
      obtain ⟨unasked, away, -⟩ := sure waits
      exact ⟨unasked, away, by simp [next]⟩
  | calls n =>
      obtain ⟨unasked, away, -⟩ := sure waits
      exact ⟨unasked, away, by simp [next, endless]⟩
  | checks n stop =>
      obtain ⟨unasked, away, -, -, goes⟩ := sure waits
      have goesOn : stop = false := by
        cases stop with
        | false => rfl
        | true => exact absurd enabled (goes n)
      exact ⟨unasked, away, by simp [next, goesOn, unasked]⟩
  | lowers => exact absurd enabled (sure waits).goes.1
  | requests =>
      obtain ⟨-, early⟩ := enabled
      exact absurd (early.resolve_left (by decide)) waits
  | observes =>
      have asked := (sure waits).away
      rw [show s.stopper = .waiting from enabled] at asked
      cases asked

theorem taken (run : Run (program func early) start past s) (event : Event)
    (enabled : Enabled early s event) :
    Run (program func early) start (event :: past) (next func s event) := run.step event enabled

theorem run_calling {n : Nat} (before : ∀ m < n, func m = false) :
    ∃ past, Run (program func early) start past ⟨true, false, .waiting, .calling n, .away⟩ := by
  induction n with
  | zero =>
      have created : Run (program func early) start _ _ := taken .nil .creates rfl
      exact ⟨_, taken created .raises rfl⟩
  | succ n ih =>
      obtain ⟨past, run⟩ := ih fun m bound => before m (by omega)
      have answered := taken run (.calls n) rfl
      have checked := taken answered (.checks n (func n)) rfl
      have last : func n = false := before n (by omega)
      simp only [next, last, Bool.or_false, Bool.false_eq_true, if_false] at checked
      exact ⟨_, checked⟩

/-- A worker whose function answers TRUE may be gone at the first look at the flag. -/
theorem answer_misses {n : Nat} (answers : func n = true) :
    ∃ past s, Run (program func early) start past s ∧ Missed s := by
  induction n using Nat.strongRecOn with
  | ind n earlier =>
  by_cases first : ∃ m < n, func m = true
  · obtain ⟨m, bound, answers⟩ := first
    exact earlier m bound answers
  have before : ∀ m < n, func m = false := fun m bound =>
    Bool.eq_false_iff.mpr fun answers => first ⟨m, bound, answers⟩
  obtain ⟨past, run⟩ := @run_calling func early n before
  have answered := taken run (.calls n) rfl
  have checked := taken answered (.checks n (func n)) rfl
  simp only [next, answers, Bool.true_or, if_true] at checked
  exact ⟨_, _, taken checked .lowers rfl, rfl, rfl⟩

theorem early_stop_misses : ∃ past s, Run (program func true) start past s ∧ Missed s := by
  obtain ⟨past, run⟩ := @run_calling func true 0 fun m bound => absurd bound (by omega)
  have requested := taken run .requests ⟨rfl, .inl rfl⟩
  have answered := taken requested (.calls 0) rfl
  have checked := taken answered (.checks 0 (func 0)) rfl
  simp only [next, Bool.or_true, if_true] at checked
  exact ⟨_, _, taken checked .lowers rfl, rfl, rfl⟩

end Handshake

/-- No interleaving misses the worker exactly when its function never answers TRUE and
no stop comes before the start has returned; a starter that missed it waits for ever. -/
theorem handshake_exact (func : Nat → Bool) (early : Bool) :
    ((∀ past s, Run (program func early) start past s → ¬ Missed s) ↔
      (∀ n, func n = false) ∧ early = false) ∧
    ∀ past s, Run (program func early) start past s → Missed s →
      ∀ later after, Run (program func early) s later after → Missed after := by
  constructor
  · constructor
    · intro never
      constructor
      · intro n
        by_contra answers
        obtain ⟨past, s, run, missed⟩ := answer_misses (Bool.not_eq_false _ ▸ answers)
        exact never past s run missed
      · cases early with
        | false => rfl
        | true =>
            obtain ⟨past, s, run, missed⟩ := early_stop_misses
            exact absurd missed (never past s run)
    -- With neither defect the flag stays up until the starter has seen it.
    · rintro ⟨endless, rfl⟩ past s run ⟨terminated, waits⟩
      have opening : Sure start := fun _ => ⟨rfl, rfl, by simp [start]⟩
      have sure : Sure s := run_invariant run opening
        fun _ _ sure enabled => next_sure endless sure enabled
      have unhurried := sure (by rw [waits]; decide)
      exact unhurried.goes.2.1 terminated
  · intro past s run missed later after rest
    exact (run_invariant rest (missed_gone run missed) fun _ _ gone enabled =>
      next_gone gone enabled).missed

/-- A function that answers TRUE at once. -/
theorem quick_worker_missed :
    ¬ ∀ (func : Nat → Bool) (early : Bool) (past : List Event) (s : State),
      Run (program func early) start past s → ¬ Missed s := by
  intro never
  obtain ⟨past, s, run, missed⟩ := @answer_misses (fun _ => true) false 0 rfl
  exact never _ _ past s run missed

end VmSim.WorkerHandshake
