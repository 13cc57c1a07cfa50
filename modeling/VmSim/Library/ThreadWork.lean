import Mathlib.Algebra.BigOperators.Group.Finset.Basic
import VmSim.Library.LockedThreads

/-!
How much the threads have left to do. Places have prices and the shared state has a
value; where every statement costs less than it brings, a step that advances takes one
from the total. A wait pays twice, for falling asleep and for waking up. Steps that do
not pay borrow, and the length of a run is bounded by the total at its start and what
has been borrowed since.
-/

namespace VmSim.Interleaving

variable {State Event Note : Type}

/-- Where every step takes one from a measure, or adds to it with a note, a run is no
longer than the measure and its notes allow. -/
theorem run_length_bounded {program : Program State Event} (invariant : State → Prop)
    {measure : State → Nat} {observe : State → Event → Option Note} {loan : Nat} {begin s : State} {later : List Event} (run : Run program begin later s) (holds : invariant begin)
    (pays : ∀ s event, invariant s → program.enabled s event → invariant (program.next s event) ∧
      measure (program.next s event) + 1 ≤ measure s + loan * (observe s event).toList.length) :
    later.length + measure s ≤
      measure begin + loan * (program.observed observe begin later).length := by
  have both : invariant s ∧ later.length + measure s ≤
      measure begin + loan * (program.observed observe begin later).length := by
    induction run with
    | nil => exact ⟨holds, by simp [Program.observed]⟩
    | step event before enabled ih =>
        obtain ⟨here, bound⟩ := ih
        obtain ⟨after, paid⟩ := pays _ event here enabled
        refine ⟨after, ?_⟩
        rw [Program.observed, run_state before, List.length_append, Nat.mul_add, List.length_cons]
        omega
  exact both.2

end VmSim.Interleaving

namespace VmSim.LockedThreads
open Interleaving

variable {Thread Lock Cond Shared Stop : Type} {Place : Thread → Type}

/-- What places and the shared state are worth, and which threads there are. -/
structure Account (Thread Shared : Type) (Place : Thread → Type) where
  price : ∀ t, Place t → Nat
  value : Shared → Nat
  crew : Shared → Finset Thread

variable {account : Account Thread Shared Place} {t : Thread}

/-- A thread that sleeps has paid for falling asleep. -/
def Account.worth (account : Account Thread Shared Place) (s : State Thread Lock Shared Stop Place)
    (t : Thread) : Nat :=
  account.price t (s.place t) - if s.nap t = .awake then 0 else 1

def Account.total (account : Account Thread Shared Place) (s : State Thread Lock Shared Stop Place) :
    Nat :=
  account.value s.shared + ∑ t ∈ account.crew s.shared, account.worth s t

/-- Where the threads have stopped nothing is left to do. -/
def Account.left (account : Account Thread Shared Place) (s : State Thread Lock Shared Stop Place) :
    Nat :=
  match s.stopped with
  | none => account.total s
  | some _ => 0

/-- The instruction leaves less than it finds, but for what it may borrow. -/
def Instr.Pays [DecidableEq Thread] (account : Account Thread Shared Place) (loan : Nat) (sh : Shared)
    (here : Nat) : Instr Thread Lock Cond Shared Stop Place t → Prop
  | .acquire _ _ next => account.price t next + 1 ≤ here
  | .release _ next => account.price t next + 1 ≤ here
  | .act does => ∀ after next, does sh = .ok (after, next) → account.crew after = account.crew sh ∧
      account.price t next + account.value after + 1 ≤ here + account.value sh + loan
  | .wait _ _ _ _ _ next => account.price t next + 2 ≤ here
  | .signal _ next => account.price t next + 1 ≤ here
  | .spin _ next => account.price t next + 1 ≤ here
  | .spawn does next => (does sh).2.1 ∉ account.crew sh ∧
      account.crew (does sh).1 = insert (does sh).2.1 (account.crew sh) ∧
      account.price t next + account.price _ (does sh).2.2 + account.value (does sh).1 + 1 ≤
        here + account.value sh
  | _ => True

section Totals
variable [DecidableEq Thread] {s after : State Thread Lock Shared Stop Place} {loan : Nat}

omit [DecidableEq Thread] in
theorem worth_awake (awake : s.nap t = .awake) : account.worth s t = account.price t (s.place t) := by
  simp [Account.worth, awake]

omit [DecidableEq Thread] in
theorem worth_asleep (sleeps : s.nap t ≠ .awake) :
    account.worth s t = account.price t (s.place t) - 1 := by
  simp [Account.worth, sleeps]

omit [DecidableEq Thread] in
theorem worth_same {u : Thread} (place : after.place u = s.place u)
    (nap : after.nap u = .awake ↔ s.nap u = .awake) : account.worth after u = account.worth s u := by
  simp only [Account.worth, place, nap]

theorem worth_le_total (member : t ∈ account.crew s.shared) : account.worth s t ≤ account.total s := by
  rw [Account.total, ← Finset.add_sum_erase _ _ member]
  omega

theorem total_moved (member : t ∈ account.crew s.shared)
    (crew : account.crew after.shared = account.crew s.shared)
    (others : ∀ u, u ≠ t → account.worth after u = account.worth s u)
    (mine : account.worth after t + account.value after.shared + 1 ≤
      account.worth s t + account.value s.shared + loan) :
    account.total after + 1 ≤ account.total s + loan := by
  have rest : ∑ u ∈ (account.crew s.shared).erase t, account.worth after u =
      ∑ u ∈ (account.crew s.shared).erase t, account.worth s u :=
    Finset.sum_congr rfl fun u listed => others u (Finset.ne_of_mem_erase listed)
  rw [Account.total, Account.total, crew, ← Finset.add_sum_erase _ _ member,
    ← Finset.add_sum_erase _ (account.worth s) member, rest]
  omega

theorem total_spawned {child : Thread} (member : t ∈ account.crew s.shared)
    (fresh : child ∉ account.crew s.shared)
    (crew : account.crew after.shared = insert child (account.crew s.shared))
    (others : ∀ u, u ≠ t → u ≠ child → account.worth after u = account.worth s u)
    (mine : account.worth after t + account.worth after child + account.value after.shared + 1 ≤
      account.worth s t + account.value s.shared) :
    account.total after + 1 ≤ account.total s := by
  have rest : ∑ u ∈ (account.crew s.shared).erase t, account.worth after u =
      ∑ u ∈ (account.crew s.shared).erase t, account.worth s u :=
    Finset.sum_congr rfl fun u listed => others u (Finset.ne_of_mem_erase listed) fun same =>
      fresh (same ▸ Finset.mem_of_mem_erase listed)
  rw [Account.total, Account.total, crew, Finset.sum_insert fresh, ← Finset.add_sum_erase _ _ member,
    ← Finset.add_sum_erase _ (account.worth s) member, rest]
  omega

variable [DecidableEq Lock] [DecidableEq Cond] {code : Code Thread Lock Cond Shared Stop Place}
variable {event : Event Thread Place}

theorem runs_pays (member : t ∈ account.crew s.shared) (awake : s.nap t = .awake)
    (runs : Runs s (code t (s.place t))) (steady : ¬ SpinsAt s (code t (s.place t)))
    (going : (next code s (.runs t)).stopped = none)
    (pays : (code t (s.place t)).Pays account loan s.shared (account.price t (s.place t))) :
    account.total (next code s (.runs t)) + 1 ≤ account.total s + loan := by
  have here : account.worth s t = account.price t (s.place t) := worth_awake awake
  simp only [next] at going ⊢
  -- The thread moves on to a place that is worth less, and the others stay.
  have onward : ∀ (s' : State Thread Lock Shared Stop Place) place, s'.shared = s.shared →
      s'.place = s.place → (∀ u, s'.nap u = .awake ↔ s.nap u = .awake) →
      account.price t place + 1 ≤ account.price t (s.place t) →
      account.total (s'.moves t place) + 1 ≤ account.total s + loan := by
    intro s' place shared places naps less
    refine total_moved member (congrArg account.crew shared) (fun u other => ?_) ?_
    · exact worth_same ((moves_other s' place other).trans (congrFun places u)) (naps u)
    · rw [here, Account.worth, moves_self, moves_shared, moves_nap, shared]
      omega
  cases instr : code t (s.place t) with
  | acquire lock mode place =>
      rw [instr] at pays
      exact onward _ place rfl rfl (fun _ => Iff.rfl) pays
  | release lock place =>
      rw [instr] at pays
      exact onward _ place rfl rfl (fun _ => Iff.rfl) pays
  | act does =>
      rw [instr] at pays going
      cases done : does s.shared with
      | error reason =>
          simp only [run, done] at going
          cases going
      | ok result =>
          obtain ⟨crew, less⟩ := pays result.1 result.2 done
          simp only [run, done]
          refine total_moved member crew (fun u other => worth_same (moves_other _ _ other) Iff.rfl) ?_
          have there : ({ s with shared := result.1 }.moves t result.2).nap t = .awake := awake
          rw [here, worth_awake there, moves_self]
          exact less
  | wait cond mutex timed tests ready place =>
      rw [instr] at pays
      have pays : account.price t place + 2 ≤ account.price t (s.place t) := pays
      simp only [run]
      split
      · exact onward _ place rfl rfl (fun _ => Iff.rfl) (by omega)
      · refine total_moved member rfl (fun u other => ?_) ?_
        · exact worth_same rfl (by rw [naps_other _ _ other, holds_nap])
        · have there : ((s.holds t (s.without t mutex)).naps t .asleep).nap t ≠ .awake := by simp
          rw [here, worth_asleep there, naps_place, holds_place, naps_shared, holds_shared]
          omega
  | signal cond place =>
      rw [instr] at pays
      exact onward _ place rfl rfl (fun u => signals_awake code s cond u) pays
  | spin ready place =>
      rw [instr] at pays steady
      have found : ready s.shared = true := by
        simpa [SpinsAt] using steady
      simp only [run, found, if_true]
      exact onward s place rfl rfl (fun _ => Iff.rfl) pays
  | spawn does place =>
      rw [instr] at pays
      obtain ⟨fresh, crew, less⟩ := pays
      have apart : t ≠ (does s.shared).2.1 := fun same => fresh (same ▸ member)
      refine Nat.le_trans (total_spawned member fresh crew (fun u other older => ?_) ?_) (Nat.le_add_right ..)
      · refine worth_same ?_ ?_
        · simp only [run, naps_place, holds_place]
          rw [moves_other _ _ older, moves_other _ _ other]
        · simp only [run]
          rw [naps_other _ _ older]
          rfl
      · have first : (run code s t (.spawn does place)).nap t = .awake := by
          simp only [run]
          rw [naps_other _ _ apart]
          exact awake
        have second : (run code s t (.spawn does place)).nap (does s.shared).2.1 = .awake := by simp [run]
        have stays : (run code s t (.spawn does place)).place t = place := by
          simp only [run, naps_place, holds_place]
          rw [moves_other _ _ apart, moves_self]
        have comes : (run code s t (.spawn does place)).place (does s.shared).2.1 = (does s.shared).2.2 := by
          simp [run]
        rw [here, worth_awake first, worth_awake second, stays, comes]
        exact less
  | choose allowed =>
      rw [instr] at runs
      exact runs.elim
  | halt =>
      rw [instr] at runs
      exact runs.elim

theorem step_pays (member : event.thread ∈ account.crew s.shared) (enabled : Enabled code s event)
    (advances : Advances code s event) (steady : ¬ Spins code s event)
    (going : (next code s event).stopped = none)
    (pays : (code event.thread (s.place event.thread)).Pays account loan s.shared
      (account.price event.thread (s.place event.thread))) :
    account.total (next code s event) + 1 ≤ account.total s + loan := by
  have ready := enabled.2
  cases event with
  | runs t => exact runs_pays member ready.1 ready.2 steady going pays
  | picks t place => exact advances.elim
  | wakes t =>
      have sleeps := ready.1
      dsimp only [Event.thread] at member pays
      simp only [next, Advances] at advances ⊢
      cases instr : code t (s.place t) with
      | wait cond mutex timed tests ready place =>
          rw [instr] at pays advances
          have pays : account.price t place + 2 ≤ account.price t (s.place t) := pays
          simp only [wake, advances.2, if_true]
          refine total_moved member rfl (fun u other => ?_) ?_
          · exact worth_same (by simp [other]) (by simp [other])
          · have there : (((s.holds t ((mutex, .write) :: s.held t)).moves t place).naps t .awake).nap t =
                .awake := by simp
            rw [worth_asleep sleeps, worth_awake there, naps_place, moves_self, naps_shared, moves_shared,
              holds_shared]
            omega
      | _ =>
          rw [instr] at advances
          exact advances.elim

/-- A step that fails takes away all that is left, so something has to be. -/
theorem step_leaves (member : event.thread ∈ account.crew s.shared) (enabled : Enabled code s event)
    (advances : Advances code s event) (steady : ¬ Spins code s event)
    (fails : (next code s event).stopped ≠ none → 0 < account.total s)
    (pays : (code event.thread (s.place event.thread)).Pays account loan s.shared
      (account.price event.thread (s.place event.thread))) :
    account.left (next code s event) + 1 ≤ account.left s + loan := by
  have all : account.left s = account.total s := by rw [Account.left, enabled.1]
  cases stopped : (next code s event).stopped with
  | none =>
      rw [Account.left, stopped, all]
      exact step_pays member enabled advances steady stopped pays
  | some reason =>
      have some := fails (by simp [stopped])
      rw [Account.left, stopped, all]
      dsimp only
      omega

end Totals

end VmSim.LockedThreads
