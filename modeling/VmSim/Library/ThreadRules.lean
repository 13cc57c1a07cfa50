import VmSim.Library.LockedThreads

/-!
Rules for programs whose threads take their locks in order. A lock guards a part
of the shared state when only statements that claim the lock for writing change
that part: while a thread holds the lock, in either mode, nobody else changes what
it guards, however the threads take their steps. And where the thread that moves
never fails, a property of its next place and of the shared state carries over.
-/

namespace VmSim.LockedThreads
open Interleaving

variable {Thread Lock Cond Shared Stop : Type} {Place : Thread → Type}
variable {code : Code Thread Lock Cond Shared Stop Place}

def Instr.Spares {t : Thread} (same : Shared → Shared → Prop) :
    Instr Thread Lock Cond Shared Stop Place t → Prop
  | .act does => ∀ before after next, does before = .ok (after, next) → same before after
  | .spawn does _ => ∀ before, same before (does before).1
  | _ => True

/-- The instruction starts no thread, and changes the shared state in no other way. -/
def Instr.Within {t : Thread} (change : Shared → Shared → Prop) :
    Instr Thread Lock Cond Shared Stop Place t → Prop
  | .act does => ∀ before after next, does before = .ok (after, next) → change before after
  | .spawn _ _ => False
  | _ => True

theorem within_spares {t : Thread} {change same : Shared → Shared → Prop}
    (less : ∀ before after, change before after → same before after)
    {instr : Instr Thread Lock Cond Shared Stop Place t} (within : instr.Within change) :
    instr.Spares same := by
  cases instr with
  | act does => exact fun before after next done => less before after (within before after next done)
  | spawn does next => exact within.elim
  | _ => trivial

/-- Without the lock, taken for writing, no statement changes what it guards. -/
def Guards (order : LockOrder code) (lock : Lock) (same : Shared → Shared → Prop) : Prop :=
  ∀ t place, (lock, .write) ∉ order.claims t place → (code t place).Spares same

section Guarding
variable [DecidableEq Thread] [DecidableEq Lock] [DecidableEq Cond]
variable {order : LockOrder code} {s after : State Thread Lock Shared Stop Place} {t : Thread}
variable {lock : Lock} {same : Shared → Shared → Prop} {event : Event Thread Place}

theorem run_spares (refl : ∀ shared, same shared shared)
    (spares : (code t (s.place t)).Spares same) :
    same s.shared (run code s t (code t (s.place t))).shared := by
  cases instr : code t (s.place t) with
  | act does =>
      rw [instr] at spares
      cases done : does s.shared with
      | ok result =>
          simp only [run, done, moves_shared]
          exact spares s.shared result.1 result.2 done
      | error reason => simpa only [run, done] using refl s.shared
  | spawn does next =>
      rw [instr] at spares
      exact spares s.shared
  | wait cond mutex timed tests ready next =>
      simp only [run]
      split <;> exact refl s.shared
  | spin ready next =>
      simp only [run]
      split <;> exact refl s.shared
  | _ => exact refl s.shared

omit [DecidableEq Lock] [DecidableEq Cond] in
theorem wake_shared (instr : Instr Thread Lock Cond Shared Stop Place t) :
    (wake s t instr).shared = s.shared := by
  cases instr with
  | wait cond mutex timed tests ready next =>
      simp only [wake]
      split <;> rfl
  | _ => rfl

theorem step_spares (refl : ∀ shared, same shared shared)
    (spares : event = .runs event.thread →
      (code event.thread (s.place event.thread)).Spares same) :
    same s.shared (next code s event).shared := by
  cases event with
  | runs u => exact run_spares refl (spares rfl)
  | picks u place => exact refl s.shared
  | wakes u =>
      have unchanged : (next code s (.wakes u)).shared = s.shared := wake_shared _
      rw [unchanged]
      exact refl s.shared

omit [DecidableEq Thread] [DecidableEq Lock] [DecidableEq Cond] in
theorem claims_held (orderly : Orderly order s) (awake : s.nap t = .awake) {claim : Lock × Mode}
    (member : claim ∈ order.claims t (s.place t)) : claim ∈ s.held t := by
  rwa [(orderly.keeps t).awake awake]

theorem guarded_step (refl : ∀ shared, same shared shared) (guards : Guards order lock same)
    (orderly : Orderly order s) {mode : Mode} (holds : (lock, mode) ∈ s.held t)
    (enabled : Enabled code s event) (other : event.thread ≠ t) :
    same s.shared (next code s event).shared := by
  refine step_spares refl fun runs => guards event.thread (s.place event.thread) fun claims => other ?_
  rw [runs] at enabled
  exact orderly.exclusive event.thread t lock mode (claims_held orderly enabled.2.1 claims) holds

def SpawnsIdle (code : Code Thread Lock Cond Shared Stop Place)
    (s : State Thread Lock Shared Stop Place) : Prop :=
  ∀ u does place, code u (s.place u) = .spawn does place → s.held (does s.shared).2.1 = []

theorem held_step (idle : SpawnsIdle code s) (other : event.thread ≠ t) :
    (next code s event).held t = s.held t := by
  have apart : t ≠ event.thread := Ne.symm other
  cases event with
  | runs u =>
      dsimp only [Event.thread] at apart
      simp only [next]
      cases instr : code u (s.place u) with
      | act does => cases done : does s.shared <;> simp [run, done]
      | spawn does place =>
          by_cases mine : t = (does s.shared).2.1
          · have none : s.held t = [] := by
              rw [mine]
              exact idle u does place instr
            rw [none, mine]
            simp [run]
          · simp [run, mine]
      | wait cond mutex timed tests ready place =>
          simp only [run]
          split <;> simp [apart]
      | spin ready place =>
          simp only [run]
          split <;> simp
      | signal cond place => simp [run]
      | _ => simp [run, apart]
  | picks u place => simp [next]
  | wakes u =>
      dsimp only [Event.thread] at apart
      simp only [next]
      cases instr : code u (s.place u) with
      | wait cond mutex timed tests ready place =>
          simp only [wake]
          split <;> simp [apart]
      | _ => rfl

theorem place_step (other : event.thread ≠ t)
    (old : ∀ u does place, event = .runs u → code u (s.place u) = .spawn does place →
      (does s.shared).2.1 ≠ t) : (next code s event).place t = s.place t := by
  have apart : t ≠ event.thread := Ne.symm other
  cases event with
  | runs u =>
      dsimp only [Event.thread] at apart
      simp only [next]
      cases instr : code u (s.place u) with
      | act does => cases done : does s.shared <;> simp [run, done, apart]
      | spawn does place => simp [run, apart, Ne.symm (old u does place rfl instr)]
      | wait cond mutex timed tests ready place =>
          simp only [run]
          split <;> simp [apart]
      | spin ready place =>
          simp only [run]
          split <;> simp [apart]
      | _ => simp [run, apart]
  | picks u place => exact moves_other s place apart
  | wakes u =>
      dsimp only [Event.thread] at apart
      simp only [next]
      cases instr : code u (s.place u) with
      | wait cond mutex timed tests ready place =>
          simp only [wake]
          split <;> simp [apart]
      | _ => rfl

/-- As long as a thread holds a lock, in any mode and through any steps of the others,
what the lock guards stays as it is. -/
theorem guarded_run {begin : State Thread Lock Shared Stop Place}
    {earlier later : List (Event Thread Place)} (refl : ∀ shared, same shared shared)
    (trans : ∀ first second third, same first second → same second third → same first third)
    (guards : Guards order lock same)
    (orderly : ∀ past s, Run (program code) begin past s → Orderly order s)
    (idle : ∀ past s, Run (program code) begin past s → SpawnsIdle code s) {mode : Mode}
    (reached : Run (program code) begin earlier s) (holds : (lock, mode) ∈ s.held t)
    (run : Run (program code) s later after) (others : ∀ event ∈ later, event.thread ≠ t) :
    same s.shared after.shared ∧ after.held t = s.held t := by
  induction run with
  | nil => exact ⟨refl s.shared, rfl⟩
  | step event before enabled ih =>
      obtain ⟨kept, held⟩ := ih fun event member => others event (.tail _ member)
      have there := run_append reached before
      have other := others event (.head _)
      have still := guarded_step refl guards (orderly _ _ there) (held ▸ holds) enabled other
      exact ⟨trans _ _ _ kept still, (held_step (idle _ _ there) other).trans held⟩

end Guarding

/-! What a thread finds after a step of its own that starts nobody. -/

/-- A wait goes on once it finds itself ready. -/
def Instr.Yields {t : Thread} (shared : Shared) (post : Place t → Shared → Prop) :
    Instr Thread Lock Cond Shared Stop Place t → Prop
  | .acquire _ _ next => post next shared
  | .release _ next => post next shared
  | .act does => ∀ after next, does shared = .ok (after, next) → post next after
  | .wait _ _ _ _ ready next => ready shared = true → post next shared
  | .signal _ next => post next shared
  | .spin ready next => ready shared = true → post next shared
  | .spawn _ _ => False
  | .choose allowed => ∀ next, allowed next → post next shared
  | .halt => True

/-- The same of statements that do not fail. -/
def Instr.Goes {t : Thread} (shared : Shared) (post : Place t → Shared → Prop) :
    Instr Thread Lock Cond Shared Stop Place t → Prop
  | .act does => ∃ after next, does shared = .ok (after, next) ∧ post next after
  | instr => instr.Yields shared post

theorem leads_yields {t : Thread} {shared : Shared} {post : Place t → Shared → Prop}
    {instr : Instr Thread Lock Cond Shared Stop Place t} (leads : Leads shared post instr) :
    instr.Yields shared post := by
  cases instr with
  | wait cond mutex timed tests ready next => exact fun _ => leads
  | spin ready next => exact fun _ => leads
  | _ => exact leads

theorem goes_yields {t : Thread} {shared : Shared} {post : Place t → Shared → Prop}
    {instr : Instr Thread Lock Cond Shared Stop Place t} (goes : instr.Goes shared post) :
    instr.Yields shared post := by
  cases instr with
  | act does =>
      obtain ⟨after, next, does_ok, there⟩ := goes
      intro other place done
      rw [does_ok] at done
      cases done
      exact there
  | _ => exact goes

section Yielding
variable [DecidableEq Thread] [DecidableEq Lock] [DecidableEq Cond]
variable {s : State Thread Lock Shared Stop Place} {t : Thread} {event : Event Thread Place}
variable {post : Place t → Shared → Prop}

structure Moved (code : Code Thread Lock Cond Shared Stop Place) (event : Event Thread Place)
    (s : State Thread Lock Shared Stop Place) (t : Thread) (post : Place t → Shared → Prop) :
    Prop where
  post : post ((next code s event).place t) (next code s event).shared
  others : ∀ u, u ≠ t → (next code s event).place u = s.place u

theorem step_yields (whose : event.thread = t) (enabled : Enabled code s event)
    (here : post (s.place t) s.shared) (yields : (code t (s.place t)).Yields s.shared post) :
    Moved code event s t post := by
  subst whose
  cases event with
  | runs u =>
      dsimp only [Event.thread] at here yields ⊢
      cases instr : code u (s.place u) with
      | act does =>
          rw [instr] at yields
          cases done : does s.shared with
          | ok result =>
              refine ⟨?_, fun v other => ?_⟩ <;> simp only [next, run, instr, done]
              · simpa using yields result.1 result.2 done
              · simp [other]
          | error reason =>
              refine ⟨?_, fun v other => ?_⟩ <;> simp only [next, run, instr, done]
              exact here
      | wait cond mutex timed tests ready place =>
          rw [instr] at yields
          by_cases goes : (tests && ready s.shared) = true
          · refine ⟨?_, fun v other => ?_⟩ <;> simp only [next, run, instr, if_pos goes]
            · simpa using yields (Bool.and_eq_true_iff.mp goes).2
            · simp [other]
          · refine ⟨?_, fun v other => ?_⟩ <;> simp only [next, run, instr, if_neg goes]
            · simpa using here
            · simp
      | spin ready place =>
          rw [instr] at yields
          by_cases goes : ready s.shared = true
          · refine ⟨?_, fun v other => ?_⟩ <;> simp only [next, run, instr, if_pos goes]
            · simpa using yields goes
            · simp [other]
          · refine ⟨?_, fun v other => ?_⟩ <;> simp only [next, run, instr, if_neg goes]
            exact here
      | spawn does place =>
          rw [instr] at yields
          exact yields.elim
      | choose allowed => exact ⟨by simpa [next, run, instr] using here, fun v _ => by simp [next, run, instr]⟩
      | halt => exact ⟨by simpa [next, run, instr] using here, fun v _ => by simp [next, run, instr]⟩
      | _ =>
          rw [instr] at yields
          exact ⟨by simpa [next, run, instr, Instr.Yields] using yields,
            fun v other => by simp [next, run, instr, other]⟩
  | picks u place =>
      have picks := enabled.2.2
      dsimp only [Event.thread] at yields
      cases instr : code u (s.place u) with
      | choose allowed =>
          rw [instr] at yields picks
          have there : post ((s.moves u place).place u) s.shared := by simpa using yields place picks
          exact ⟨there, fun v other => moves_other s place other⟩
      | _ =>
          rw [instr] at picks
          exact picks.elim
  | wakes u =>
      have wakes := enabled.2.2
      dsimp only [Event.thread] at here yields ⊢
      cases instr : code u (s.place u) with
      | wait cond mutex timed tests ready place =>
          rw [instr] at yields
          by_cases goes : ready s.shared = true
          · refine ⟨?_, fun v other => ?_⟩ <;> simp only [next, wake, instr, if_pos goes]
            · simpa using yields goes
            · simp [other]
          · refine ⟨?_, fun v other => ?_⟩ <;> simp only [next, wake, instr, if_neg goes]
            · simpa using here
            · simp
      | _ =>
          rw [instr] at wakes
          exact wakes.elim

/-- Only a thread that may stay where it is has to show what holds there. -/
theorem step_goes (whose : event.thread = t) (enabled : Enabled code s event)
    (here : (∀ does, code t (s.place t) ≠ .act does) → post (s.place t) s.shared)
    (goes : (code t (s.place t)).Goes s.shared post) :
    Moved code event s t post ∧ (next code s event).stopped = none := by
  have going := enabled.1
  by_cases acts : ∃ does, code t (s.place t) = .act does
  · obtain ⟨does, instr⟩ := acts
    have ready := enabled.2
    subst whose
    cases event with
    | runs u =>
        dsimp only [Event.thread] at instr goes
        rw [instr] at goes
        obtain ⟨after, place, done, there⟩ := goes
        have moves : next code s (.runs u) = { s with shared := after }.moves u place := by
          simp only [next, run, instr, done]
        have post' : post (({ s with shared := after }.moves u place).place u) after := by simpa using there
        refine ⟨⟨?_, fun v other => ?_⟩, ?_⟩ <;> rw [moves]
        · exact post'
        · exact moves_other _ place other
        · exact going
    | picks u place =>
        dsimp only [Event.thread] at instr
        simp only [Ready, instr] at ready
        exact ready.2.elim
    | wakes u =>
        dsimp only [Event.thread] at instr
        simp only [Ready, instr] at ready
        exact ready.2.elim
  · have other : ∀ does, code t (s.place t) ≠ .act does := fun does same => acts ⟨does, same⟩
    refine ⟨step_yields whose enabled (here other) (goes_yields goes), ?_⟩
    subst whose
    cases event with
    | runs u =>
        dsimp only [Event.thread] at other
        simp only [next]
        cases instr : code u (s.place u) with
        | act does => exact absurd instr (other does)
        | wait cond mutex timed tests ready place =>
            simp only [run]
            split <;> exact going
        | spin ready place =>
            simp only [run]
            split <;> exact going
        | _ => exact going
    | picks u place => exact going
    | wakes u =>
        simp only [next]
        cases instr : code u (s.place u) with
        | wait cond mutex timed tests ready place =>
            simp only [wake]
            split <;> exact going
        | _ => exact going

/-- The thread may be asleep without this lock, though its place claims it. -/
def Instr.WaitsUnder {t : Thread} (lock : Lock) :
    Instr Thread Lock Cond Shared Stop Place t → Prop
  | .wait _ mutex _ _ _ _ => mutex = lock
  | _ => False

omit [DecidableEq Thread] [DecidableEq Lock] [DecidableEq Cond] in
theorem firm_held {order : LockOrder code} {lock : Lock} {mode : Mode} (orderly : Orderly order s)
    (firm : ¬ (code t (s.place t)).WaitsUnder lock)
    (member : (lock, mode) ∈ order.claims t (s.place t)) : (lock, mode) ∈ s.held t := by
  by_cases awake : s.nap t = .awake
  · exact claims_held orderly awake member
  · have waits := ((orderly.keeps t).asleep awake).2
    have obeys := order.obeys t (s.place t)
    cases instr : code t (s.place t) with
    | wait cond mutex timed tests ready next =>
        rw [instr] at obeys firm
        rw [obeys.1, List.mem_singleton] at member
        exact absurd (congrArg Prod.fst member).symm firm
    | _ =>
        rw [instr] at waits
        exact waits.elim

omit [DecidableEq Thread] [DecidableEq Lock] [DecidableEq Cond] in
theorem firm_exclusive {order : LockOrder code} {lock : Lock} {mode : Mode} {u : Thread}
    (orderly : Orderly order s) (firm : ∀ v, v = t ∨ v = u → ¬ (code v (s.place v)).WaitsUnder lock)
    (writes : (lock, .write) ∈ order.claims t (s.place t))
    (has : (lock, mode) ∈ order.claims u (s.place u)) : t = u :=
  orderly.exclusive t u lock mode (firm_held orderly (firm t (.inl rfl)) writes)
    (firm_held orderly (firm u (.inr rfl)) has)

end Yielding

end VmSim.LockedThreads
