import VmSim.Library.Interleaving

/-!
Threads that share locks and conditions. Each thread stands at a place of its
code, and the code says what the thread does there: it takes or releases a lock,
waits on a condition, wakes those who wait, starts a thread, or changes the
shared state. A wait gives up its mutex, and whenever its thread wakes the wait
tests again under the mutex; a thread may wake at any time. Where the locks are
taken in the order of a rank, a lock stops no thread for ever.
-/

namespace VmSim.LockedThreads
open Interleaving

inductive Mode where
  | read
  | write
  deriving DecidableEq, Repr

/-- What a thread does at a place. A wait is the condition wait of a loop that goes on
once it finds itself `ready`; `tests` says that the loop tests before it waits. `spin`
is a loop that only tests. A failing `act` stops all threads, and `choose` leaves the
way on to the surroundings. -/
inductive Instr (Thread Lock Cond Shared Stop : Type) (Place : Thread → Type) (t : Thread) where
  | acquire (lock : Lock) (mode : Mode) (next : Place t)
  | release (lock : Lock) (next : Place t)
  | act (does : Shared → Except Stop (Shared × Place t))
  | wait (cond : Cond) (mutex : Lock) (timed tests : Bool) (ready : Shared → Bool) (next : Place t)
  | signal (cond : Cond) (next : Place t)
  | spin (ready : Shared → Bool) (next : Place t)
  | spawn (does : Shared → Shared × (u : Thread) × Place u) (next : Place t)
  | choose (allowed : Place t → Prop)
  | halt

inductive Nap where
  | awake
  | asleep
  | signalled
  deriving DecidableEq, Repr

/-- `held` is the locks of each thread, the latest first. -/
structure State (Thread Lock Shared Stop : Type) (Place : Thread → Type) where
  shared : Shared
  stopped : Option Stop
  place : ∀ t, Place t
  held : Thread → List (Lock × Mode)
  nap : Thread → Nap

inductive Event (Thread : Type) (Place : Thread → Type) where
  | runs (t : Thread)
  | picks (t : Thread) (place : Place t)
  | wakes (t : Thread)

variable {Thread Lock Cond Shared Stop : Type} {Place : Thread → Type}

abbrev Code (Thread Lock Cond Shared Stop : Type) (Place : Thread → Type) :=
  ∀ t, Place t → Instr Thread Lock Cond Shared Stop Place t

def State.Free (s : State Thread Lock Shared Stop Place) (lock : Lock) : Mode → Prop
  | .read => ∀ t, (lock, .write) ∉ s.held t
  | .write => ∀ t mode, (lock, mode) ∉ s.held t

section Steps
variable [DecidableEq Thread] [DecidableEq Lock] [DecidableEq Cond] {t : Thread}

def State.moves (s : State Thread Lock Shared Stop Place) (t : Thread) (place : Place t) :
    State Thread Lock Shared Stop Place :=
  { s with place := Function.update s.place t place }

def State.holds (s : State Thread Lock Shared Stop Place) (t : Thread) (held : List (Lock × Mode)) :
    State Thread Lock Shared Stop Place :=
  { s with held := Function.update s.held t held }

def State.naps (s : State Thread Lock Shared Stop Place) (t : Thread) (nap : Nap) :
    State Thread Lock Shared Stop Place :=
  { s with nap := Function.update s.nap t nap }

def State.without (s : State Thread Lock Shared Stop Place) (t : Thread) (lock : Lock) :
    List (Lock × Mode) := (s.held t).filter fun claim => claim.1 ≠ lock

def Instr.waitsOn (cond : Cond) : Instr Thread Lock Cond Shared Stop Place t → Bool
  | .wait other _ _ _ _ _ => other = cond
  | _ => false

def State.signals (code : Code Thread Lock Cond Shared Stop Place)
    (s : State Thread Lock Shared Stop Place) (cond : Cond) : State Thread Lock Shared Stop Place :=
  { s with
    nap := fun u =>
      if s.nap u = .asleep ∧ (code u (s.place u)).waitsOn cond then .signalled else s.nap u }

def run (code : Code Thread Lock Cond Shared Stop Place) (s : State Thread Lock Shared Stop Place)
    (t : Thread) : Instr Thread Lock Cond Shared Stop Place t → State Thread Lock Shared Stop Place
  | .acquire lock mode next => (s.holds t ((lock, mode) :: s.held t)).moves t next
  | .release lock next => (s.holds t (s.without t lock)).moves t next
  | .act does =>
      match does s.shared with
      | .ok (shared, next) => { s with shared := shared }.moves t next
      | .error reason => { s with stopped := some reason }
  | .wait _ mutex _ tests ready next =>
      if tests && ready s.shared then s.moves t next
      else (s.holds t (s.without t mutex)).naps t .asleep
  | .signal cond next => (s.signals code cond).moves t next
  | .spin ready next => if ready s.shared then s.moves t next else s
  | .spawn does next =>
      let (shared, ⟨child, place⟩) := does s.shared
      ((({ s with shared := shared }.moves t next).moves child place).holds child []).naps child .awake
  | .choose _ => s
  | .halt => s

/-- A sleeping thread has the mutex and tests: it goes on with the mutex, or it sleeps again. -/
def wake (s : State Thread Lock Shared Stop Place) (t : Thread) :
    Instr Thread Lock Cond Shared Stop Place t → State Thread Lock Shared Stop Place
  | .wait _ mutex _ _ ready next =>
      if ready s.shared then ((s.holds t ((mutex, .write) :: s.held t)).moves t next).naps t .awake
      else s.naps t .asleep
  | _ => s

def next (code : Code Thread Lock Cond Shared Stop Place) (s : State Thread Lock Shared Stop Place) :
    Event Thread Place → State Thread Lock Shared Stop Place
  | .runs t => run code s t (code t (s.place t))
  | .picks t place => s.moves t place
  | .wakes t => wake s t (code t (s.place t))

/-- Nothing keeps a thread that is awake from taking the step. -/
def Runs (s : State Thread Lock Shared Stop Place) : Instr Thread Lock Cond Shared Stop Place t → Prop
  | .acquire lock mode _ => s.Free lock mode
  | .choose _ => False
  | .halt => False
  | _ => True

def Picks (place : Place t) : Instr Thread Lock Cond Shared Stop Place t → Prop
  | .choose allowed => allowed place
  | _ => False

def Wakes (s : State Thread Lock Shared Stop Place) :
    Instr Thread Lock Cond Shared Stop Place t → Prop
  | .wait _ mutex _ _ _ _ => s.Free mutex .write
  | _ => False

def Ready (code : Code Thread Lock Cond Shared Stop Place) (s : State Thread Lock Shared Stop Place) :
    Event Thread Place → Prop
  | .runs t => s.nap t = .awake ∧ Runs s (code t (s.place t))
  | .picks t place => s.nap t = .awake ∧ Picks place (code t (s.place t))
  | .wakes t => s.nap t ≠ .awake ∧ Wakes s (code t (s.place t))

def Enabled (code : Code Thread Lock Cond Shared Stop Place)
    (s : State Thread Lock Shared Stop Place) (event : Event Thread Place) : Prop :=
  s.stopped = none ∧ Ready code s event

def program (code : Code Thread Lock Cond Shared Stop Place) :
    Program (State Thread Lock Shared Stop Place) (Event Thread Place) := ⟨Enabled code, next code⟩

def EndsWait (s : State Thread Lock Shared Stop Place) (t : Thread) :
    Instr Thread Lock Cond Shared Stop Place t → Prop
  | .wait _ _ timed _ ready _ => (timed = true ∨ s.nap t = .signalled) ∧ ready s.shared = true
  | _ => False

/-- The step is one of a thread, not of the surroundings, and no wait that wakes and
sleeps again or wakes for no reason. -/
def Advances (code : Code Thread Lock Cond Shared Stop Place)
    (s : State Thread Lock Shared Stop Place) : Event Thread Place → Prop
  | .runs _ => True
  | .picks _ _ => False
  | .wakes t => EndsWait s t (code t (s.place t))

def SpinsAt (s : State Thread Lock Shared Stop Place) :
    Instr Thread Lock Cond Shared Stop Place t → Prop
  | .spin ready _ => ready s.shared = false
  | _ => False

/-- The step is a test that fails, of a thread that only tests. -/
def Spins (code : Code Thread Lock Cond Shared Stop Place)
    (s : State Thread Lock Shared Stop Place) : Event Thread Place → Prop
  | .runs t => SpinsAt s (code t (s.place t))
  | _ => False

theorem failed_stands {code : Code Thread Lock Cond Shared Stop Place}
    {s : State Thread Lock Shared Stop Place} {event : Event Thread Place} (going : s.stopped = none)
    (failed : (next code s event).stopped ≠ none) : (next code s event).place = s.place := by
  cases event with
  | runs t =>
      simp only [next] at failed ⊢
      cases instr : code t (s.place t) with
      | act does =>
          rw [instr] at failed
          cases done : does s.shared with
          | error reason => simp only [run, done]
          | ok result =>
              simp only [run, done] at failed
              exact absurd going failed
      | wait cond mutex timed tests ready place =>
          rw [instr] at failed
          simp only [run] at failed
          split at failed <;> exact absurd going failed
      | spin ready place =>
          rw [instr] at failed
          simp only [run] at failed
          split at failed <;> exact absurd going failed
      | _ =>
          rw [instr] at failed
          exact absurd going failed
  | picks t place => exact absurd going failed
  | wakes t =>
      simp only [next] at failed
      cases instr : code t (s.place t) with
      | wait cond mutex timed tests ready place =>
          rw [instr] at failed
          simp only [wake] at failed
          split at failed <;> exact absurd going failed
      | _ =>
          rw [instr] at failed
          exact absurd going failed

def Advancing (code : Code Thread Lock Cond Shared Stop Place)
    (s : State Thread Lock Shared Stop Place) : Prop :=
  ∃ event, Enabled code s event ∧ Advances code s event ∧ ¬ Spins code s event

end Steps

/-! What a change of one field leaves alone. -/

section Fields
variable [DecidableEq Thread] (s : State Thread Lock Shared Stop Place) {t u : Thread}

@[simp] theorem moves_self (place : Place t) : (s.moves t place).place t = place :=
  Function.update_self ..

@[simp] theorem moves_other (place : Place t) (other : u ≠ t) :
    (s.moves t place).place u = s.place u := Function.update_of_ne other ..

@[simp] theorem moves_shared (place : Place t) : (s.moves t place).shared = s.shared := rfl

@[simp] theorem moves_held (place : Place t) : (s.moves t place).held = s.held := rfl

@[simp] theorem moves_nap (place : Place t) : (s.moves t place).nap = s.nap := rfl

@[simp] theorem holds_self (held : List (Lock × Mode)) : (s.holds t held).held t = held :=
  Function.update_self ..

@[simp] theorem holds_other (held : List (Lock × Mode)) (other : u ≠ t) :
    (s.holds t held).held u = s.held u := Function.update_of_ne other ..

@[simp] theorem holds_shared (held : List (Lock × Mode)) : (s.holds t held).shared = s.shared := rfl

@[simp] theorem holds_place (held : List (Lock × Mode)) : (s.holds t held).place = s.place := rfl

@[simp] theorem holds_nap (held : List (Lock × Mode)) : (s.holds t held).nap = s.nap := rfl

@[simp] theorem naps_self (nap : Nap) : (s.naps t nap).nap t = nap := Function.update_self ..

@[simp] theorem naps_other (nap : Nap) (other : u ≠ t) : (s.naps t nap).nap u = s.nap u :=
  Function.update_of_ne other ..

@[simp] theorem naps_shared (nap : Nap) : (s.naps t nap).shared = s.shared := rfl

@[simp] theorem naps_place (nap : Nap) : (s.naps t nap).place = s.place := rfl

@[simp] theorem naps_held (nap : Nap) : (s.naps t nap).held = s.held := rfl

end Fields

section Signals
variable [DecidableEq Cond] (code : Code Thread Lock Cond Shared Stop Place)
variable (s : State Thread Lock Shared Stop Place) (cond : Cond)

@[simp] theorem signals_shared : (s.signals code cond).shared = s.shared := rfl

@[simp] theorem signals_place : (s.signals code cond).place = s.place := rfl

@[simp] theorem signals_held : (s.signals code cond).held = s.held := rfl

@[simp] theorem signals_awake (u : Thread) :
    (s.signals code cond).nap u = .awake ↔ s.nap u = .awake := by
  cases nap : s.nap u <;> simp [State.signals, nap]
  split <;> simp

end Signals

/-! What one step does to the other threads. -/

def Event.thread : Event Thread Place → Thread
  | .runs t => t
  | .picks t _ => t
  | .wakes t => t

/-- Wherever the instruction takes its thread from this shared state, `post` holds. -/
def Leads {t : Thread} (shared : Shared) (post : Place t → Shared → Prop) :
    Instr Thread Lock Cond Shared Stop Place t → Prop
  | .acquire _ _ next => post next shared
  | .release _ next => post next shared
  | .act does => ∀ after next, does shared = .ok (after, next) → post next after
  | .wait _ _ _ _ _ next => post next shared
  | .signal _ next => post next shared
  | .spin _ next => post next shared
  | .spawn _ _ => False
  | .choose allowed => ∀ next, allowed next → post next shared
  | .halt => True

structure Local (t : Thread) (post : Place t → Shared → Prop)
    (s after : State Thread Lock Shared Stop Place) : Prop where
  post : post (after.place t) after.shared
  others : ∀ u, u ≠ t → after.place u = s.place u
  asleep : ∀ u, u ≠ t → after.nap u = .asleep → s.nap u = .asleep
  signalled : ∀ u, u ≠ t → after.nap u ≠ .signalled → s.nap u ≠ .signalled

/-- What makes a thread fall asleep, or go on sleeping. -/
def Unready (s : State Thread Lock Shared Stop Place) {t : Thread} :
    Instr Thread Lock Cond Shared Stop Place t → Prop
  | .wait _ _ _ tests ready _ => tests = true → ready s.shared = false
  | _ => False

section Steps
variable [DecidableEq Thread] [DecidableEq Lock] [DecidableEq Cond]
variable {code : Code Thread Lock Cond Shared Stop Place} {s : State Thread Lock Shared Stop Place}
variable {t : Thread} {post : Place t → Shared → Prop}

omit [DecidableEq Thread] [DecidableEq Lock] in
theorem signals_asleep (cond : Cond) {u : Thread} (asleep : (s.signals code cond).nap u = .asleep) :
    s.nap u = .asleep := by
  simp only [State.signals] at asleep
  split at asleep
  · cases asleep
  · exact asleep

omit [DecidableEq Thread] [DecidableEq Lock] in
theorem signals_signalled (cond : Cond) {u : Thread}
    (not : (s.signals code cond).nap u ≠ .signalled) : s.nap u ≠ .signalled := by
  intro signalled
  simp [State.signals, signalled] at not

omit [DecidableEq Lock] [DecidableEq Cond] in
theorem moves_local {shared : Shared} {place : Place t} (there : post place shared) :
    Local t post s ({ s with shared := shared }.moves t place) where
  post := by simpa using there
  others u other := moves_other _ place other
  asleep _ _ := id
  signalled _ _ := id

omit [DecidableEq Lock] [DecidableEq Cond] [DecidableEq Thread] in
theorem still_local (here : post (s.place t) s.shared) (stopped : Option Stop) :
    Local t post s { s with stopped := stopped } :=
  ⟨here, fun _ _ => rfl, fun _ _ => id, fun _ _ => id⟩

theorem run_local (here : post (s.place t) s.shared)
    (leads : Leads s.shared post (code t (s.place t))) :
    Local t post s (run code s t (code t (s.place t))) := by
  cases instr : code t (s.place t) with
  | acquire lock mode next =>
      rw [instr] at leads
      exact ⟨by simpa [run, Leads] using leads, fun u other => by simp [run, other], fun _ _ => id,
        fun _ _ => id⟩
  | release lock next =>
      rw [instr] at leads
      exact ⟨by simpa [run, Leads] using leads, fun u other => by simp [run, other], fun _ _ => id,
        fun _ _ => id⟩
  | act does =>
      rw [instr] at leads
      cases done : does s.shared with
      | ok result => simpa only [run, done] using moves_local (leads result.1 result.2 done)
      | error reason => simpa only [run, done] using still_local here (some reason)
  | wait cond mutex timed tests ready next =>
      rw [instr] at leads
      simp only [run]
      split
      · exact moves_local leads
      · exact ⟨here, fun _ _ => rfl, fun u other => by simp [other], fun u other => by simp [other]⟩
  | signal cond next =>
      rw [instr] at leads
      exact ⟨by simpa [run, Leads] using leads, fun u other => by simp [run, other],
        fun _ _ => signals_asleep cond, fun _ _ => signals_signalled cond⟩
  | spin ready next =>
      rw [instr] at leads
      simp only [run]
      split
      · exact moves_local leads
      · exact still_local here s.stopped
  | spawn does next =>
      rw [instr] at leads
      exact leads.elim
  | choose allowed => exact still_local here s.stopped
  | halt => exact still_local here s.stopped

omit [DecidableEq Lock] [DecidableEq Cond] in
theorem wake_local (here : post (s.place t) s.shared)
    (leads : Leads s.shared post (code t (s.place t))) :
    Local t post s (wake s t (code t (s.place t))) := by
  cases instr : code t (s.place t) with
  | wait cond mutex timed tests ready next =>
      rw [instr] at leads
      simp only [wake]
      split
      · exact ⟨by simpa [Leads] using leads, fun u other => by simp [other], fun u other => by simp [other],
          fun u other => by simp [other]⟩
      · exact ⟨here, fun _ _ => rfl, fun u other => by simp [other], fun u other => by simp [other]⟩
  | _ => exact still_local here s.stopped

/-- A thread falls asleep only in a wait, where it is. -/
structure FallsAsleep (t : Thread) (instr : Instr Thread Lock Cond Shared Stop Place t)
    (s after : State Thread Lock Shared Stop Place) : Prop where
  unready : Unready s instr
  place : after.place t = s.place t
  shared : after.shared = s.shared

theorem run_asleep (awake : s.nap t = .awake) {instr : Instr Thread Lock Cond Shared Stop Place t}
    (asleep : (run code s t instr).nap t = .asleep) : FallsAsleep t instr s (run code s t instr) := by
  cases instr with
  -- Only a wait puts its own thread to sleep.
  | wait cond mutex timed tests ready next =>
      simp only [run] at asleep ⊢
      split at asleep
      · rw [moves_nap, awake] at asleep
        cases asleep
      · rename_i unready
        rw [if_neg unready]
        refine ⟨fun tested => ?_, rfl, rfl⟩
        simpa [tested] using unready
  | spawn does next =>
      by_cases mine : t = (does s.shared).2.1
      · simp [run, ← mine] at asleep
      · simp [run, mine, awake] at asleep
  | act does =>
      cases done : does s.shared <;> simp [run, done, awake] at asleep
  | signal cond next =>
      have still : s.nap t = .asleep := signals_asleep cond asleep
      rw [awake] at still
      cases still
  | spin ready next =>
      simp only [run] at asleep
      split at asleep <;> simp [awake] at asleep
  | _ => simp [run, awake] at asleep

omit [DecidableEq Lock] [DecidableEq Cond] in
theorem wake_asleep {instr : Instr Thread Lock Cond Shared Stop Place t} (wakes : Wakes s instr)
    (asleep : (wake s t instr).nap t = .asleep) : FallsAsleep t instr s (wake s t instr) := by
  cases instr with
  | wait cond mutex timed tests ready next =>
      simp only [wake] at asleep ⊢
      split at asleep
      · simp at asleep
      · rename_i unready
        rw [if_neg unready]
        exact ⟨fun _ => by simpa using unready, rfl, rfl⟩
  | _ => exact wakes.elim

theorem step_local {event : Event Thread Place} (whose : event.thread = t)
    (enabled : Enabled code s event) (here : post (s.place t) s.shared)
    (leads : Leads s.shared post (code t (s.place t))) : Local t post s (next code s event) := by
  subst whose
  cases event with
  | runs t => exact run_local here leads
  | picks t place =>
      have picks := enabled.2.2
      dsimp only [Event.thread] at here leads
      cases instr : code t (s.place t) with
      | choose allowed =>
          rw [instr] at leads picks
          exact moves_local (leads place picks)
      | _ =>
          rw [instr] at picks
          exact picks.elim
  | wakes t => exact wake_local here leads

theorem step_asleep {event : Event Thread Place} (whose : event.thread = t)
    (enabled : Enabled code s event) (asleep : (next code s event).nap t = .asleep) :
    FallsAsleep t (code t (s.place t)) s (next code s event) := by
  subst whose
  cases event with
  | runs t => exact run_asleep enabled.2.1 asleep
  | picks t place =>
      have awake := enabled.2.1
      simp only [next, Event.thread, moves_nap, awake] at asleep
      cases asleep
  | wakes t => exact wake_asleep enabled.2.2 asleep

theorem signal_wakes {event : Event Thread Place} (whose : event.thread = t)
    (enabled : Enabled code s event) {cond : Cond} {place : Place t}
    (signals : code t (s.place t) = .signal cond place) {u : Thread} (asleep : s.nap u = .asleep)
    (listens : (code u (s.place u)).waitsOn cond = true) :
    (next code s event).nap u = .signalled := by
  subst whose
  cases event with
  | runs t =>
      dsimp only [Event.thread] at signals
      simp only [next, signals, run]
      exact if_pos ⟨asleep, listens⟩
  | picks t chosen =>
      have picks := enabled.2.2
      dsimp only [Event.thread] at signals
      rw [signals] at picks
      exact picks.elim
  | wakes t =>
      have wakes := enabled.2.2
      dsimp only [Event.thread] at signals
      rw [signals] at wakes
      exact wakes.elim

end Steps

/-! Locks in the order of a rank. -/

def Instr.IsWait {t : Thread} : Instr Thread Lock Cond Shared Stop Place t → Prop
  | .wait _ _ _ _ _ _ => True
  | _ => False

/-- What the code at a place does to the locks its thread is to hold there. -/
def Obeys (claims : ∀ t, Place t → List (Lock × Mode)) {t : Thread} (place : Place t) :
    Instr Thread Lock Cond Shared Stop Place t → Prop
  | .acquire lock mode next => claims t next = (lock, mode) :: claims t place
  | .release lock next => ∃ mode, claims t place = (lock, mode) :: claims t next
  | .act does => ∀ before after next, does before = .ok (after, next) →
      claims t next = claims t place
  | .wait _ mutex _ _ _ next => claims t place = [(mutex, .write)] ∧ claims t next = [(mutex, .write)]
  | .signal _ next => claims t next = claims t place
  | .spin _ next => claims t place = [] ∧ claims t next = []
  | .spawn does next => claims t next = claims t place ∧
      ∀ before, claims _ (does before).2.2 = []
  | .choose allowed => claims t place = [] ∧ ∀ next, allowed next → claims t next = []
  | .halt => claims t place = []

/-- The code takes a lock only above those it has, waits with no lock but the mutex of
the condition, and releases the lock it has taken last. -/
structure LockOrder (code : Code Thread Lock Cond Shared Stop Place) where
  rank : Lock → Nat
  top : Nat
  bounded : ∀ lock, rank lock ≤ top
  claims : ∀ t, Place t → List (Lock × Mode)
  obeys : ∀ t place, Obeys claims place (code t place)
  ordered : ∀ t place, (claims t place).Pairwise fun inner outer => rank outer.1 < rank inner.1

variable {code : Code Thread Lock Cond Shared Stop Place}

/-- A thread that is awake has the locks its place claims, a sleeping one has none. -/
structure Keeps (order : LockOrder code) (s : State Thread Lock Shared Stop Place) (t : Thread) :
    Prop where
  awake : s.nap t = .awake → s.held t = order.claims t (s.place t)
  asleep : s.nap t ≠ .awake → s.held t = [] ∧ (code t (s.place t)).IsWait

def Exclusive (held : Thread → List (Lock × Mode)) : Prop :=
  ∀ t u lock mode, (lock, .write) ∈ held t → (lock, mode) ∈ held u → t = u

structure Orderly (order : LockOrder code) (s : State Thread Lock Shared Stop Place) : Prop where
  keeps : ∀ t, Keeps order s t
  exclusive : Exclusive s.held

section Claims
variable (order : LockOrder code) {t : Thread}

theorem release_claims [DecidableEq Lock] {place next : Place t} {lock : Lock} {mode : Mode}
    (claims : order.claims t place = (lock, mode) :: order.claims t next) :
    (order.claims t place).filter (fun claim => claim.1 ≠ lock) = order.claims t next := by
  have above := order.ordered t place
  rw [claims] at above
  have others : ∀ claim ∈ order.claims t next, claim.1 ≠ lock := by
    intro claim member same
    have lower := (List.pairwise_cons.mp above).1 claim member
    rw [same] at lower
    exact Nat.lt_irrefl _ lower
  rw [claims, List.filter_cons_of_neg (by simp), List.filter_eq_self]
  exact fun claim member => decide_eq_true (others claim member)

theorem acquire_above {place next : Place t} {lock : Lock} {mode : Mode}
    (takes : code t place = .acquire lock mode next) {claim : Lock × Mode}
    (member : claim ∈ order.claims t place) : order.rank claim.1 < order.rank lock := by
  have claims := order.obeys t place
  rw [takes] at claims
  have above := order.ordered t next
  rw [show order.claims t next = _ from claims] at above
  exact (List.pairwise_cons.mp above).1 claim member

end Claims

section Exclusion
variable [DecidableEq Thread] {held : Thread → List (Lock × Mode)} {t : Thread}

theorem exclusive_shrinks (exclusive : Exclusive held) {fewer : List (Lock × Mode)}
    (within : fewer ⊆ held t) : Exclusive (Function.update held t fewer) := by
  have inside : ∀ u, Function.update held t fewer u ⊆ held u := by
    intro u
    by_cases mine : u = t
    · subst mine
      simpa using within
    · simp [mine]
  intro u v lock mode writes has
  exact exclusive u v lock mode (inside u writes) (inside v has)

theorem exclusive_grows (exclusive : Exclusive held) {lock : Lock} {mode : Mode}
    (free : ∀ u, (lock, .write) ∉ held u)
    (alone : mode = .write → ∀ u other, (lock, other) ∉ held u) :
    Exclusive (Function.update held t ((lock, mode) :: held t)) := by
  have cases : ∀ u claim, claim ∈ Function.update held t ((lock, mode) :: held t) u →
      claim ∈ held u ∨ u = t ∧ claim = (lock, mode) := by
    intro u claim member
    by_cases mine : u = t
    · subst mine
      rw [Function.update_self, List.mem_cons] at member
      exact member.symm.imp_right fun same => ⟨rfl, same⟩
    · rw [Function.update_of_ne mine] at member
      exact .inl member
  intro u v other mode' writes has
  rcases cases u _ writes with mine | ⟨mine, same⟩
  · rcases cases v _ has with yours | ⟨yours, same⟩
    · exact exclusive u v other mode' mine yours
    · cases same
      exact absurd mine (free u)
  · cases same
    rcases cases v _ has with yours | ⟨yours, -⟩
    · exact absurd yours (alone rfl v mode')
    · exact mine.trans yours.symm

end Exclusion

section Frames
variable {order : LockOrder code} {s after : State Thread Lock Shared Stop Place} {t : Thread}

structure Undisturbed (s after : State Thread Lock Shared Stop Place) (u : Thread) : Prop where
  place : after.place u = s.place u
  held : after.held u = s.held u
  nap : after.nap u = .awake ↔ s.nap u = .awake

theorem undisturbed_keeps (keeps : Keeps order s t) (same : Undisturbed s after t) :
    Keeps order after t := by
  constructor
  · intro awake
    rw [same.held, same.place, keeps.awake (same.nap.mp awake)]
  · intro sleeps
    rw [same.held, same.place]
    exact keeps.asleep fun awake => sleeps (same.nap.mpr awake)

theorem awake_keeps (awake : after.nap t = .awake)
    (held : after.held t = order.claims t (after.place t)) : Keeps order after t :=
  ⟨fun _ => held, fun sleeps => absurd awake sleeps⟩

theorem orderly_after (orderly : Orderly order s) (mine : Keeps order after t)
    (others : ∀ u, u ≠ t → Undisturbed s after u) (exclusive : Exclusive after.held) :
    Orderly order after := by
  refine ⟨fun u => ?_, exclusive⟩
  by_cases same : u = t
  · subst same
    exact mine
  · exact undisturbed_keeps (orderly.keeps u) (others u same)

variable [DecidableEq Thread]

theorem moves_orderly (orderly : Orderly order s) (awake : s.nap t = .awake) (shared : Shared)
    {next : Place t} (claims : order.claims t next = order.claims t (s.place t)) :
    Orderly order ({ s with shared := shared }.moves t next) := by
  refine orderly_after (t := t) orderly (awake_keeps awake ?_) (fun u other => ?_) orderly.exclusive
  · simp [claims, (orderly.keeps t).awake awake]
  · exact ⟨moves_other _ next other, rfl, Iff.rfl⟩

theorem holds_orderly (orderly : Orderly order s) (awake : s.nap t = .awake)
    {held : List (Lock × Mode)} {next : Place t} (claims : held = order.claims t next)
    (exclusive : Exclusive (Function.update s.held t held)) :
    Orderly order ((s.holds t held).moves t next) := by
  refine orderly_after (t := t) orderly (awake_keeps awake ?_) (fun u other => ?_) exclusive
  · simp [claims]
  · exact ⟨moves_other _ next other, holds_other s held other, Iff.rfl⟩

end Frames

theorem without_subset [DecidableEq Lock] (s : State Thread Lock Shared Stop Place) (t : Thread)
    (lock : Lock) : s.without t lock ⊆ s.held t := fun _ member => (List.mem_filter.mp member).1

section Runs
variable [DecidableEq Thread] [DecidableEq Lock] [DecidableEq Cond]
variable {order : LockOrder code} {begin s : State Thread Lock Shared Stop Place} {t : Thread}

theorem run_orderly (orderly : Orderly order s) (awake : s.nap t = .awake)
    (runs : Runs s (code t (s.place t))) : Orderly order (run code s t (code t (s.place t))) := by
  have held := (orderly.keeps t).awake awake
  have obeys := order.obeys t (s.place t)
  cases here : code t (s.place t) with
  | acquire lock mode next =>
      rw [here] at runs obeys
      have claims : (lock, mode) :: s.held t = order.claims t next := by
        rw [held]
        exact obeys.symm
      refine holds_orderly orderly awake claims (exclusive_grows orderly.exclusive ?_ ?_)
      · cases mode with
        | read => exact runs
        | write => exact fun u => runs u .write
      · intro writes
        subst writes
        exact runs
  -- Giving a lock back can only make the others freer.
  | release lock next =>
      rw [here] at obeys
      obtain ⟨mode, claims⟩ := obeys
      refine holds_orderly orderly awake ?_ (exclusive_shrinks orderly.exclusive (without_subset s t lock))
      rw [State.without, held]
      exact release_claims order claims
  | act does =>
      rw [here] at obeys
      cases done : does s.shared with
      | ok result =>
          simpa only [run, done] using
            moves_orderly orderly awake result.1 (obeys s.shared result.1 result.2 done)
      | error reason =>
          simp only [run, done]
          exact ⟨fun u => ⟨(orderly.keeps u).awake, (orderly.keeps u).asleep⟩, orderly.exclusive⟩
  | wait cond mutex timed tests ready next =>
      rw [here] at obeys
      obtain ⟨before, behind⟩ := obeys
      simp only [run]
      split
      · exact moves_orderly orderly awake s.shared (behind.trans before.symm)
      · -- The mutex is all the thread has, so it falls asleep without a lock.
        have empty : s.without t mutex = [] := by simp [State.without, held, before]
        refine orderly_after (t := t) orderly ⟨fun wakes => ?_, fun _ => ?_⟩ (fun u other => ?_) ?_
        · simp at wakes
        · simp [empty, here, Instr.IsWait]
        · exact ⟨rfl, holds_other s _ other, by simp [other]⟩
        · exact exclusive_shrinks orderly.exclusive (without_subset s t mutex)
  | signal cond next =>
      rw [here] at obeys
      refine orderly_after (t := t) orderly (awake_keeps ?_ ?_) (fun u other => ?_) orderly.exclusive
      · exact (signals_awake code s cond t).mpr awake
      · simpa [run] using held.trans (Eq.symm obeys)
      · exact ⟨moves_other _ next other, rfl, signals_awake code s cond u⟩
  | spin ready next =>
      rw [here] at obeys
      simp only [run]
      split
      · exact moves_orderly orderly awake s.shared (obeys.2.trans obeys.1.symm)
      · exact orderly
  | spawn does next =>
      rw [here] at obeys
      obtain ⟨claims, empty⟩ := obeys
      -- The thread spawned starts awake and with no lock.
      have moved := moves_orderly orderly awake (does s.shared).1 claims
      refine orderly_after (t := (does s.shared).2.1) moved (awake_keeps ?_ ?_) (fun u other => ?_) ?_
      · simp [run]
      · simp [run, empty]
      · exact ⟨by simp [run, other], by simp [run, other], by simp [run, other]⟩
      · exact exclusive_shrinks orderly.exclusive (List.nil_subset _)
  | choose allowed => exact orderly
  | halt => exact orderly

omit [DecidableEq Lock] [DecidableEq Cond] in
theorem wake_orderly (orderly : Orderly order s) (sleeps : s.nap t ≠ .awake)
    (wakes : Wakes s (code t (s.place t))) : Orderly order (wake s t (code t (s.place t))) := by
  have obeys := order.obeys t (s.place t)
  have asleep := (orderly.keeps t).asleep sleeps
  cases here : code t (s.place t) with
  | wait cond mutex timed tests ready place =>
      rw [here] at wakes obeys
      simp only [wake]
      split
      · refine orderly_after (t := t) orderly (awake_keeps ?_ ?_) (fun u other => ?_) ?_
        · simp
        · simp [asleep.1, obeys.2]
        · exact ⟨by simp [other], by simp [other], by simp [other]⟩
        · exact exclusive_grows orderly.exclusive (fun u => wakes u .write) fun _ => wakes
      · refine orderly_after (t := t) orderly ⟨fun awake => ?_, fun _ => asleep⟩ (fun u other => ?_)
          orderly.exclusive
        · simp at awake
        · exact ⟨rfl, rfl, by simp [other]⟩
  | _ =>
      rw [here] at wakes
      exact wakes.elim

theorem step_orderly (orderly : Orderly order s) {event : Event Thread Place}
    (enabled : Enabled code s event) : Orderly order (next code s event) := by
  cases event with
  | runs t => exact run_orderly orderly enabled.2.1 enabled.2.2
  | picks t place =>
      obtain ⟨awake, picks⟩ := enabled.2
      have obeys := order.obeys t (s.place t)
      cases here : code t (s.place t) with
      | choose allowed =>
          rw [here] at picks obeys
          exact moves_orderly orderly awake s.shared ((obeys.2 place picks).trans obeys.1.symm)
      | _ =>
          rw [here] at picks
          exact picks.elim
  | wakes t => exact wake_orderly orderly enabled.2.1 enabled.2.2

end Runs

/-! Who can go on. -/

/-- The thread is at rest: it waits for the surroundings or spins, or it is over. -/
def Rests (s : State Thread Lock Shared Stop Place) {t : Thread} :
    Instr Thread Lock Cond Shared Stop Place t → Prop
  | .spin ready _ => ready s.shared = false
  | .choose _ => True
  | .halt => True
  | _ => False

/-- The thread goes on by itself, once it has the lock it takes. -/
def Instr.Acts {t : Thread} : Instr Thread Lock Cond Shared Stop Place t → Prop
  | .wait _ _ _ _ _ _ => False
  | .spin _ _ => False
  | .choose _ => False
  | .halt => False
  | _ => True

theorem acts_no_wait {t : Thread} {instr : Instr Thread Lock Cond Shared Stop Place t}
    (acts : instr.Acts) : ¬ instr.IsWait := by
  cases instr with
  | wait cond mutex timed tests ready next => exact acts.elim
  | _ => exact id

theorem acts_no_rest {s : State Thread Lock Shared Stop Place} {t : Thread}
    {instr : Instr Thread Lock Cond Shared Stop Place t} (acts : instr.Acts) : ¬ Rests s instr := by
  cases instr with
  | spin ready next => exact acts.elim
  | choose allowed => exact acts.elim
  | halt => exact acts.elim
  | _ => exact id

theorem acts_no_choice {t : Thread} {instr : Instr Thread Lock Cond Shared Stop Place t}
    (acts : instr.Acts) {place : Place t} : ¬ Picks place instr := by
  cases instr with
  | choose allowed => exact acts.elim
  | _ => exact id

section Progress
variable {order : LockOrder code} {s : State Thread Lock Shared Stop Place} {t : Thread}

theorem somebody_holds {lock : Lock} {mode : Mode} (taken : ¬ s.Free lock mode) :
    ∃ u other, (lock, other) ∈ s.held u := by
  cases mode with
  | read =>
      obtain ⟨u, writes⟩ := not_forall_not.mp taken
      exact ⟨u, .write, writes⟩
  | write =>
      obtain ⟨u, others⟩ := not_forall.mp taken
      obtain ⟨other, has⟩ := not_forall_not.mp others
      exact ⟨u, other, has⟩

theorem spins_rests {instr : Instr Thread Lock Cond Shared Stop Place t} (spins : SpinsAt s instr) :
    Rests s instr := by
  cases instr with
  | spin ready next => exact spins
  | _ => exact spins.elim

theorem rests_empty (order : LockOrder code) {place : Place t} (rests : Rests s (code t place)) :
    order.claims t place = [] := by
  have obeys := order.obeys t place
  cases here : code t place with
  | spin ready next =>
      rw [here] at obeys
      exact obeys.1
  | choose allowed =>
      rw [here] at obeys
      exact obeys.1
  | halt =>
      rw [here] at obeys
      exact obeys
  | _ =>
      rw [here] at rests
      exact rests.elim

theorem runs_or_blocked (going : s.stopped = none) (awake : s.nap t = .awake)
    (acts : ¬ Rests s (code t (s.place t))) :
    Advancing code s ∨ ∃ lock mode next, code t (s.place t) = .acquire lock mode next ∧
      ¬ s.Free lock mode := by
  by_cases runs : Runs s (code t (s.place t))
  · exact .inl ⟨.runs t, ⟨going, awake, runs⟩, trivial, fun spins => acts (spins_rests spins)⟩
  · right
    cases here : code t (s.place t) with
    | acquire lock mode next => exact ⟨lock, mode, next, rfl, by rwa [here] at runs⟩
    | choose allowed => exact absurd (by rw [here]; trivial) acts
    | halt => exact absurd (by rw [here]; trivial) acts
    | _ => exact absurd (by rw [here]; trivial) runs

/-- Behind a lock that is held stands a thread that can go on: each holder in the way
waits for a lock of a higher rank. -/
theorem holder_advances (orderly : Orderly order s) (going : s.stopped = none) {lock : Lock} {mode : Mode}
    (holds : (lock, mode) ∈ s.held t) : Advancing code s := by
  induction distance : order.top - order.rank lock using Nat.strongRecOn
    generalizing t lock mode with
  | ind distance ih =>
    have awake : s.nap t = .awake := by
      by_contra sleeps
      rw [((orderly.keeps t).asleep sleeps).1] at holds
      cases holds
    rw [(orderly.keeps t).awake awake] at holds
    have acts : ¬ Rests s (code t (s.place t)) := by
      intro rests
      rw [rests_empty order rests] at holds
      cases holds
    rcases runs_or_blocked going awake acts with advances | ⟨higher, wanted, next, takes, taken⟩
    · exact advances
    · have above : order.rank lock < order.rank higher := acquire_above order takes holds
      have bounded := order.bounded higher
      obtain ⟨u, other, has⟩ := somebody_holds taken
      exact ih (order.top - order.rank higher) (by omega) has rfl

theorem awake_advances (orderly : Orderly order s) (going : s.stopped = none) (awake : s.nap t = .awake)
    (acts : ¬ Rests s (code t (s.place t))) : Advancing code s := by
  rcases runs_or_blocked going awake acts with advances | ⟨lock, mode, next, -, taken⟩
  · exact advances
  · obtain ⟨u, other, has⟩ := somebody_holds taken
    exact holder_advances orderly going has

theorem sleeper_advances (orderly : Orderly order s) (going : s.stopped = none) (sleeps : s.nap t ≠ .awake)
    (ends : EndsWait s t (code t (s.place t))) : Advancing code s := by
  cases here : code t (s.place t) with
  | wait cond mutex timed tests ready next =>
      by_cases free : s.Free mutex .write
      · exact ⟨.wakes t, ⟨going, sleeps, by rw [here]; exact free⟩, ends, id⟩
      · obtain ⟨u, other, has⟩ := somebody_holds free
        exact holder_advances orderly going has
  | _ =>
      rw [here] at ends
      exact ends.elim

end Progress

end VmSim.LockedThreads
