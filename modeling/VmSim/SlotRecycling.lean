import VmSim.Library.Interleaving
import VmSim.ProcessTable

/-!
The reuse of a process slot: `init_process`, `process_start` and
`process_destroy` of the UI thread against the threads of the processes, one
step for each access to the `worker_thread_t` of a slot. `process_dealloc` runs
inside the thread it ends: it marks the slot as junk and wakes the UI while
`worker_thread_func` still has a flag to read, a flag to clear and two fields to
read. Mail other than the deletion is left out, for the jobs touch no slot.
-/

namespace VmSim.SlotRecycling
open ProcessTable Interleaving

/-- The fields of a `process_t` that matter here; `mailed` says that the post
with `fcDel` is in the mailbox. -/
structure Slot where
  junk : Bool
  del : Bool
  mailed : Bool
  procThrd : WorkerThread
  deriving DecidableEq, Repr

/-- The statement the UI reaches next: after the `bzero` of `init_process`, after
`worker_thread_create`, before `pthread_create` and in the loop that waits for
the new thread; then the wait of `process_destroy`. -/
inductive UiPc where
  | idle
  | zeroed (i : Nat)
  | created (i : Nat)
  | armed (i : Nat)
  | spinning (i : Nat)
  | waiting
  deriving DecidableEq, Repr

/-- The access `worker_thread_func` makes next: `running = TRUE`, the call
`func(arg)`, what goes on inside it, the read of `stop`, the same read after a
deletion, `running = FALSE`, and the reads of `tid` and `arg` at the end. -/
inductive WorkerPc where
  | spawned
  | looping
  | inFunc
  | checking
  | leaving
  | clearing
  | logging
  | returning
  | gone
  deriving DecidableEq, Repr

/-- In its loop, with a process that is not deallocated. -/
def WorkerPc.InLoop : WorkerPc → Prop
  | .looping => True
  | .inFunc => True
  | .checking => True
  | _ => False

/-- Between the end of `process_dealloc` and the end of `worker_thread_func`. -/
def WorkerPc.InTail : WorkerPc → Prop
  | .leaving => True
  | .clearing => True
  | .logging => True
  | .returning => True
  | _ => False

/-- Threads are numbered in the order of their creation; those to come are `gone`. -/
structure State where
  slots : Nat
  slot : Nat → Slot
  ui : UiPc
  spawned : Nat
  slotOf : Nat → Nat
  pc : Nat → WorkerPc

/-- `fails` is a refused allocation of `init_process` or of `pthread_create`;
`wakes` ends the wait of `process_destroy`, signalled or not. -/
inductive Event where
  | selects
  | fails (i : Nat)
  | creates (i : Nat)
  | setsArg (i : Nat)
  | spawns (i : Nat)
  | sees (i : Nat)
  | destroys (pid : Nat)
  | wakes
  | begins (t : Nat)
  | calls (t : Nat)
  | returns (t : Nat)
  | deallocs (t : Nat)
  | readsStop (t : Nat)
  | clears (t : Nat)
  | readsTid (t : Nat)
  | readsArg (t : Nat)
  deriving DecidableEq

def zeroSlot : Slot := ⟨false, false, false, ⟨none, false, false⟩⟩

def junkSlot (s : State) : Option Nat := (List.range s.slots).find? fun i => (s.slot i).junk

def State.fills (s : State) (i : Nat) (slot : Slot) (ui : UiPc) : State :=
  { s with slot := Function.update s.slot i slot, ui := ui }

def State.moves (s : State) (t : Nat) (slot : Slot) (pc : WorkerPc) : State :=
  { s with slot := Function.update s.slot (s.slotOf t) slot, pc := Function.update s.pc t pc }

/-- `init_process` has the mutex of the container until it returns. -/
def UiPc.HoldsCont : UiPc → Prop
  | .zeroed _ => True
  | _ => False

def State.own (s : State) (t : Nat) : Slot := s.slot (s.slotOf t)

def Enabled (s : State) : Event → Prop
  | .selects => s.ui = .idle
  | .fails i => s.ui = .zeroed i ∨ s.ui = .armed i
  | .creates i => s.ui = .zeroed i
  | .setsArg i => s.ui = .created i
  | .spawns i => s.ui = .armed i
  | .sees i => s.ui = .spinning i ∧ (s.slot i).procThrd.running = true
  | .destroys _ => s.ui = .idle
  | .wakes => s.ui = .waiting
  | .begins t => s.pc t = .spawned
  | .calls t => s.pc t = .looping
  | .returns t => s.pc t = .inFunc
  | .deallocs t => s.pc t = .inFunc ∧ (s.own t).mailed = true ∧ ¬ s.ui.HoldsCont
  | .readsStop t => s.pc t = .checking ∨ s.pc t = .leaving
  | .clears t => s.pc t = .clearing
  | .readsTid t => s.pc t = .logging
  | .readsArg t => s.pc t = .returning

def setRunning (slot : Slot) (running : Bool) : Slot :=
  { slot with procThrd := { slot.procThrd with running := running } }

def selectSlot (s : State) : State :=
  match junkSlot s with
  | none => s
  | some i => s.fills i zeroSlot (.zeroed i)

/-- The tests of `process_destroy`, its post and the flag it sets; `compose_mail`
refuses a second post. -/
def destroyProcess (s : State) (pid : Nat) : State :=
  if s.slots ≤ pid ∨ (s.slot pid).junk then s
  else
    s.fills pid { s.slot pid with mailed := (s.slot pid).mailed || !(s.slot pid).del, del := true }
      .waiting

def next (s : State) : Event → State
  | .selects => selectSlot s
  | .fails _ => { s with ui := .idle }
  | .creates i =>
      s.fills i { s.slot i with procThrd := (workerThreadCreate (s.slot i).procThrd).2 } (.created i)
  | .setsArg i =>
      s.fills i { s.slot i with procThrd := { (s.slot i).procThrd with arg := some ⟨i⟩ } } (.armed i)
  | .spawns i =>
      { s with
        ui := .spinning i
        spawned := s.spawned + 1
        slotOf := Function.update s.slotOf s.spawned i
        pc := Function.update s.pc s.spawned .spawned }
  | .sees _ => { s with ui := .idle }
  | .destroys pid => destroyProcess s pid
  | .wakes => { s with ui := .idle }
  | .begins t => s.moves t (setRunning (s.own t) true) .looping
  | .calls t => s.moves t (s.own t) .inFunc
  | .returns t => s.moves t (s.own t) .checking
  | .deallocs t => s.moves t { s.own t with junk := true, mailed := false } .leaving
  | .readsStop t =>
      s.moves t (s.own t)
        (if s.pc t = .leaving ∨ (s.own t).procThrd.stop then .clearing else .looping)
  | .clears t => s.moves t (setRunning (s.own t) false) .logging
  | .readsTid t => s.moves t (s.own t) .returning
  | .readsArg t => s.moves t (s.own t) .gone

def program : Program State Event := ⟨Enabled, next⟩

def start (slots : Nat) : State :=
  ⟨slots, fun _ => { zeroSlot with junk := true }, .idle, 0, fun _ => 0, fun _ => .gone⟩

/-- `init_process` does not select a slot whose old thread is in its tail. -/
def TailsOver (s : State) (event : Event) : Prop :=
  event = .selects → ∀ t < s.spawned, junkSlot s = some (s.slotOf t) → ¬ (s.pc t).InTail

/-- What a slot owes its threads, where `steps` says when a slot may be selected. -/
structure Recycles (steps : Program State Event) (s : State) : Prop where
  selected : steps.enabled s .selects → ∀ t, junkSlot s = some (s.slotOf t) → s.pc t = .gone
  running : ∀ t, (s.pc t).InLoop → (s.own t).del = false → (s.own t).procThrd.running = true
  started : ∀ i, s.ui = .spinning i → (s.slot i).procThrd.running = true ∨
    ∃ t, s.slotOf t = i ∧ s.pc t = .spawned

instance : DecidablePred WorkerPc.InLoop
  | .spawned => inferInstanceAs (Decidable False)
  | .looping => inferInstanceAs (Decidable True)
  | .inFunc => inferInstanceAs (Decidable True)
  | .checking => inferInstanceAs (Decidable True)
  | .leaving => inferInstanceAs (Decidable False)
  | .clearing => inferInstanceAs (Decidable False)
  | .logging => inferInstanceAs (Decidable False)
  | .returning => inferInstanceAs (Decidable False)
  | .gone => inferInstanceAs (Decidable False)

instance : DecidablePred WorkerPc.InTail
  | .spawned => inferInstanceAs (Decidable False)
  | .looping => inferInstanceAs (Decidable False)
  | .inFunc => inferInstanceAs (Decidable False)
  | .checking => inferInstanceAs (Decidable False)
  | .leaving => inferInstanceAs (Decidable True)
  | .clearing => inferInstanceAs (Decidable True)
  | .logging => inferInstanceAs (Decidable True)
  | .returning => inferInstanceAs (Decidable True)
  | .gone => inferInstanceAs (Decidable False)

instance : DecidablePred UiPc.HoldsCont
  | .idle => inferInstanceAs (Decidable False)
  | .zeroed _ => inferInstanceAs (Decidable True)
  | .created _ => inferInstanceAs (Decidable False)
  | .armed _ => inferInstanceAs (Decidable False)
  | .spinning _ => inferInstanceAs (Decidable False)
  | .waiting => inferInstanceAs (Decidable False)

instance (s : State) : DecidablePred (Enabled s)
  | .selects => inferInstanceAs (Decidable (_ = _))
  | .fails _ => inferInstanceAs (Decidable (_ ∨ _))
  | .creates _ => inferInstanceAs (Decidable (_ = _))
  | .setsArg _ => inferInstanceAs (Decidable (_ = _))
  | .spawns _ => inferInstanceAs (Decidable (_ = _))
  | .sees _ => inferInstanceAs (Decidable (_ ∧ _))
  | .destroys _ => inferInstanceAs (Decidable (_ = _))
  | .wakes => inferInstanceAs (Decidable (_ = _))
  | .begins _ => inferInstanceAs (Decidable (_ = _))
  | .calls _ => inferInstanceAs (Decidable (_ = _))
  | .returns _ => inferInstanceAs (Decidable (_ = _))
  | .deallocs _ => inferInstanceAs (Decidable (_ ∧ _ ∧ _))
  | .readsStop _ => inferInstanceAs (Decidable (_ ∨ _))
  | .clears _ => inferInstanceAs (Decidable (_ = _))
  | .readsTid _ => inferInstanceAs (Decidable (_ = _))
  | .readsArg _ => inferInstanceAs (Decidable (_ = _))

instance (s : State) (event : Event) : Decidable (program.enabled s event) :=
  inferInstanceAs (Decidable (Enabled _ _))

instance (s : State) (event : Event) : Decidable (TailsOver s event) :=
  inferInstanceAs (Decidable (_ → ∀ t < s.spawned, _ → _))

def Fits (slot : Slot) : WorkerPc → Prop
  | .spawned => slot.junk = false
  | .looping => slot.junk = false ∧ slot.procThrd.running = true
  | .inFunc => slot.junk = false ∧ slot.procThrd.running = true
  | .checking => slot.junk = false ∧ slot.procThrd.running = true
  | .leaving => slot.junk = true
  | .clearing => slot.junk = true
  | .logging => slot.junk = true
  | .returning => slot.junk = true
  | .gone => True

def UiPc.Builds (i : Nat) : UiPc → Prop
  | .zeroed j => i = j
  | .created j => i = j
  | .armed j => i = j
  | _ => False

structure Orderly (s : State) : Prop where
  fits : ∀ t, Fits (s.own t) (s.pc t)
  alone : ∀ t u, s.slotOf t = s.slotOf u → s.pc t ≠ .gone → s.pc u ≠ .gone → t = u
  later : ∀ t, s.spawned ≤ t → s.pc t = .gone
  stops : ∀ i, (s.slot i).procThrd.stop = false
  building : ∀ i, s.ui.Builds i → (s.slot i).junk = false ∧ (s.slot i).mailed = false ∧
    ∀ t, s.slotOf t = i → s.pc t = .gone
  spinning : ∀ i, s.ui = .spinning i → (s.slot i).mailed = false ∧
    ∃ t, s.slotOf t = i ∧ (s.pc t = .spawned ∨ (s.pc t).InLoop)

section Steps
variable {s : State}

theorem loop_fits {slot : Slot} {pc : WorkerPc} (fits : Fits slot pc) (loops : pc.InLoop) :
    slot.junk = false ∧ slot.procThrd.running = true := by
  cases pc <;> first | exact fits | cases loops

theorem junk_fits {slot : Slot} {pc : WorkerPc} (fits : Fits slot pc) (junk : slot.junk = true) :
    pc = .gone ∨ pc.InTail := by
  cases pc <;> simp_all [Fits, WorkerPc.InTail]

theorem fills_own {i : Nat} {slot : Slot} {ui : UiPc} (t : Nat) :
    (s.fills i slot ui).own t = if s.slotOf t = i then slot else s.own t := by
  simp [State.fills, State.own, Function.update_apply]

theorem idle_orderly (orderly : Orderly s) {ui : UiPc} (builds : ∀ i, ¬ ui.Builds i)
    (spins : ∀ i, ui ≠ .spinning i) : Orderly { s with ui := ui } :=
  ⟨orderly.fits, orderly.alone, orderly.later, orderly.stops,
    fun i building => absurd building (builds i), fun i spinning => absurd spinning (spins i)⟩

/-- The UI writes to a slot whose threads are all gone. -/
theorem build_orderly (orderly : Orderly s) {i : Nat} {slot : Slot} {ui : UiPc}
    (gone : ∀ t, s.slotOf t = i → s.pc t = .gone) (stop : slot.procThrd.stop = false)
    (junk : slot.junk = false) (mailed : slot.mailed = false) (builds : ∀ j, ui.Builds j → j = i)
    (spins : ∀ j, ui ≠ .spinning j) : Orderly (s.fills i slot ui) where
  fits t := by
    rw [fills_own]
    split
    · rename_i here
      change Fits slot (s.pc t)
      rw [gone t here]
      trivial
    · exact orderly.fits t
  alone := orderly.alone
  later := orderly.later
  stops j := by
    by_cases here : j = i
    · simpa [State.fills, here] using stop
    · simpa [State.fills, here] using orderly.stops j
  building j building := by
    obtain rfl := builds j building
    exact ⟨by simpa [State.fills] using junk, by simpa [State.fills] using mailed, gone⟩
  spinning j spinning := absurd spinning (spins j)

theorem moves_pc {t : Nat} {slot : Slot} {pc : WorkerPc} (u : Nat) :
    (s.moves t slot pc).pc u = if u = t then pc else s.pc u := by
  simp [State.moves, Function.update_apply]

theorem moves_slot {t : Nat} {slot : Slot} {pc : WorkerPc} (i : Nat) :
    (s.moves t slot pc).slot i = if i = s.slotOf t then slot else s.slot i := by
  simp [State.moves, Function.update_apply]

/-- A thread writes to the slot that nobody else has, and the UI has not. -/
theorem thread_orderly (orderly : Orderly s) {t : Nat} {slot : Slot} {pc : WorkerPc}
    (alive : s.pc t ≠ .gone) (fits : Fits slot pc) (stop : slot.procThrd.stop = false)
    (spins : s.ui = .spinning (s.slotOf t) → slot.mailed = false ∧ (pc = .spawned ∨ pc.InLoop)) :
    Orderly (s.moves t slot pc) where
  fits u := by
    change Fits ((s.moves t slot pc).slot (s.slotOf u)) _
    rw [moves_pc, moves_slot]
    by_cases same : u = t
    · simpa [same] using fits
    · by_cases shared : s.slotOf u = s.slotOf t
      -- Two threads share a slot only when one of them is gone.
      · have gone : s.pc u = .gone := by
          by_contra present
          exact same (orderly.alone u t shared present alive)
        simp [same, gone, Fits]
      · rw [if_neg same, if_neg shared]
        exact orderly.fits u
  alone u v shared here there := by
    have before : ∀ w, (s.moves t slot pc).pc w ≠ .gone → s.pc w ≠ .gone := by
      intro w present
      rw [moves_pc] at present
      split at present
      · rename_i same
        exact same ▸ alive
      · exact present
    exact orderly.alone u v shared (before u here) (before v there)
  later u unborn := by
    have distinct : u ≠ t := by
      rintro rfl
      exact alive (orderly.later u unborn)
    rw [moves_pc, if_neg distinct]
    exact orderly.later u unborn
  stops i := by
    rw [moves_slot]
    split
    · exact stop
    · exact orderly.stops i
  building i building := by
    obtain ⟨junk, mailed, gone⟩ := orderly.building i building
    -- The slot under construction has no thread that could move.
    have other : i ≠ s.slotOf t := by
      rintro rfl
      exact alive (gone t rfl)
    refine ⟨by rw [moves_slot, if_neg other]; exact junk,
      by rw [moves_slot, if_neg other]; exact mailed, fun u here => ?_⟩
    have distinct : u ≠ t := by
      rintro rfl
      exact other here.symm
    rw [moves_pc, if_neg distinct]
    exact gone u here
  spinning i spinning := by
    obtain ⟨mailed, u, here, live⟩ := orderly.spinning i spinning
    by_cases other : i = s.slotOf t
    · subst other
      obtain ⟨mailed, live⟩ := spins spinning
      exact ⟨by rw [moves_slot, if_pos rfl]; exact mailed, t, rfl, by rw [moves_pc, if_pos rfl]; exact live⟩
    · have distinct : u ≠ t := by
        rintro rfl
        exact other here.symm
      exact ⟨by rw [moves_slot, if_neg other]; exact mailed, u, here,
        by rw [moves_pc, if_neg distinct]; exact live⟩

theorem spawn_orderly (orderly : Orderly s) {i : Nat} (armed : s.ui = .armed i) :
    Orderly (next s (.spawns i)) := by
  obtain ⟨junk, mailed, gone⟩ := orderly.building i (by simp [armed, UiPc.Builds])
  have slots : ∀ t, (next s (.spawns i)).slotOf t = if t = s.spawned then i else s.slotOf t :=
    fun t => by simp [next, Function.update_apply]
  have pcs : ∀ t, (next s (.spawns i)).pc t = if t = s.spawned then .spawned else s.pc t :=
    fun t => by simp [next, Function.update_apply]
  refine ⟨fun t => ?_, fun t u shared here there => ?_, fun t unborn => ?_, orderly.stops,
    fun j building => building.elim, fun j spinning => ?_⟩
  · change Fits (s.slot _) _
    rw [slots, pcs]
    split
    · exact junk
    · exact orderly.fits t
  · rw [slots, slots] at shared
    rw [pcs] at here there
    -- The slot just armed had no live thread, so the newcomer is alone on it.
    by_cases first : t = s.spawned <;> by_cases second : u = s.spawned
    · rw [first, second]
    · rw [if_pos first, if_neg second] at shared
      rw [if_neg second] at there
      exact absurd (gone u shared.symm) there
    · rw [if_neg first, if_pos second] at shared
      rw [if_neg first] at here
      exact absurd (gone t shared) here
    · rw [if_neg first, if_neg second] at shared
      rw [if_neg first] at here
      rw [if_neg second] at there
      exact orderly.alone t u shared here there
  · have beyond : s.spawned + 1 ≤ t := unborn
    rw [pcs, if_neg (by omega)]
    exact orderly.later t (by omega)
  · cases spinning
    exact ⟨mailed, s.spawned, by rw [slots, if_pos rfl], by rw [pcs, if_pos rfl]; exact .inl rfl⟩

theorem destroy_orderly (orderly : Orderly s) (pid : Nat) :
    Orderly (destroyProcess s pid) := by
  unfold destroyProcess
  split
  · exact orderly
  · refine ⟨fun t => ?_, orderly.alone, orderly.later, fun i => ?_, fun i building => building.elim,
      fun i spinning => by cases spinning⟩
    · have fits := orderly.fits t
      rw [fills_own]
      split
      · rename_i here
        subst here
        exact fits
      · exact fits
    · by_cases here : i = pid
      · simpa [State.fills, here] using orderly.stops pid
      · simpa [State.fills, here] using orderly.stops i

theorem selected_gone (orderly : Orderly s) (ended : TailsOver s .selects) {t : Nat}
    (selected : junkSlot s = some (s.slotOf t)) : s.pc t = .gone := by
  have found := List.find?_some selected
  have junk : (s.own t).junk = true := found
  cases junk_fits (orderly.fits t) junk with
  | inl gone => exact gone
  | inr tail =>
      by_cases born : t < s.spawned
      · exact absurd tail (ended rfl t born selected)
      · exact orderly.later t (Nat.not_lt.mp born)

theorem select_orderly (orderly : Orderly s) (ended : TailsOver s .selects) :
    Orderly (selectSlot s) := by
  unfold selectSlot
  split
  · exact orderly
  · rename_i i selected
    refine build_orderly orderly (fun t here => ?_) rfl rfl rfl (fun j same => same) (by simp)
    exact selected_gone orderly ended (here ▸ selected)

theorem tail_not_spinning (orderly : Orderly s) {t : Nat} (tail : (s.pc t).InTail) :
    s.ui ≠ .spinning (s.slotOf t) := by
  intro spinning
  obtain ⟨-, u, here, live⟩ := orderly.spinning _ spinning
  have there : s.pc t ≠ .gone := by
    intro gone
    simp [gone, WorkerPc.InTail] at tail
  have present : s.pc u ≠ .gone := by
    intro gone
    simp [gone, WorkerPc.InLoop] at live
  obtain rfl := orderly.alone u t here present there
  cases live with
  | inl fresh => simp [fresh, WorkerPc.InTail] at tail
  | inr loops => cases pc : s.pc u <;> simp_all [WorkerPc.InTail, WorkerPc.InLoop]

theorem loop_orderly (orderly : Orderly s) {t : Nat} {slot : Slot} {pc : WorkerPc}
    (alive : s.pc t ≠ .gone) (loops : pc.InLoop) (fits : Fits slot pc)
    (stop : slot.procThrd.stop = (s.own t).procThrd.stop)
    (mailed : slot.mailed = (s.own t).mailed) : Orderly (s.moves t slot pc) :=
  thread_orderly orderly alive fits (stop.trans (orderly.stops _)) fun spinning =>
    ⟨mailed.trans (orderly.spinning _ spinning).1, .inr loops⟩

theorem tail_orderly (orderly : Orderly s) {t : Nat} {slot : Slot} {pc : WorkerPc}
    (tail : (s.pc t).InTail) (fits : Fits slot pc)
    (stop : slot.procThrd.stop = (s.own t).procThrd.stop) : Orderly (s.moves t slot pc) := by
  refine thread_orderly orderly ?_ fits (stop.trans (orderly.stops _)) fun spinning => ?_
  · intro gone
    simp [gone, WorkerPc.InTail] at tail
  · exact absurd spinning (tail_not_spinning orderly tail)

theorem step_orderly {event : Event} (orderly : Orderly s)
    (enabled : (program.only TailsOver).enabled s event) : Orderly (next s event) := by
  obtain ⟨ready, ended⟩ := enabled
  cases event with
  | selects => exact select_orderly orderly ended
  | fails i => exact idle_orderly orderly (fun _ => id) (by simp)
  | creates i =>
      have zeroed : s.ui = .zeroed i := ready
      obtain ⟨junk, mailed, gone⟩ := orderly.building i (by simp [zeroed, UiPc.Builds])
      exact build_orderly orderly gone rfl junk mailed (fun j same => same) (by simp)
  | setsArg i =>
      have created : s.ui = .created i := ready
      obtain ⟨junk, mailed, gone⟩ := orderly.building i (by simp [created, UiPc.Builds])
      exact build_orderly orderly gone (orderly.stops i) junk mailed (fun j same => same) (by simp)
  | spawns i => exact spawn_orderly orderly ready
  | sees i => exact idle_orderly orderly (fun _ => id) (by simp)
  | destroys pid => exact destroy_orderly orderly pid
  | wakes => exact idle_orderly orderly (fun _ => id) (by simp)
  | begins t =>
      have spawned : s.pc t = .spawned := ready
      have fits := orderly.fits t
      rw [spawned] at fits
      exact loop_orderly orderly (by simp [spawned]) trivial ⟨fits, rfl⟩ rfl rfl
  | calls t =>
      have looping : s.pc t = .looping := ready
      have fits := orderly.fits t
      rw [looping] at fits
      exact loop_orderly orderly (by simp [looping]) trivial fits rfl rfl
  | returns t =>
      have inside : s.pc t = .inFunc := ready
      have fits := orderly.fits t
      rw [inside] at fits
      exact loop_orderly orderly (by simp [inside]) trivial fits rfl rfl
  | deallocs t =>
      obtain ⟨inside, mailed, -⟩ := ready
      refine thread_orderly orderly (by simp [inside]) rfl (orderly.stops _) fun spinning => ?_
      -- A process that is being started has no mail yet.
      exact absurd mailed (by simp [State.own, (orderly.spinning _ spinning).1])
  | readsStop t =>
      have fits := orderly.fits t
      cases ready with
      | inl checking =>
          have stop : (s.own t).procThrd.stop = false := orderly.stops _
          have stays : next s (.readsStop t) = s.moves t (s.own t) .looping := by
            simp [next, checking, stop]
          rw [checking] at fits
          rw [stays]
          exact loop_orderly orderly (by simp [checking]) trivial fits rfl rfl
      | inr leaving =>
          have leaves : next s (.readsStop t) = s.moves t (s.own t) .clearing := by
            simp [next, leaving]
          rw [leaving] at fits
          rw [leaves]
          exact tail_orderly orderly (by simp [leaving, WorkerPc.InTail]) fits rfl
  | clears t =>
      have clearing : s.pc t = .clearing := ready
      have fits := orderly.fits t
      rw [clearing] at fits
      exact tail_orderly orderly (by simp [clearing, WorkerPc.InTail]) fits rfl
  | readsTid t =>
      have logging : s.pc t = .logging := ready
      have fits := orderly.fits t
      rw [logging] at fits
      exact tail_orderly orderly (by simp [logging, WorkerPc.InTail]) fits rfl
  | readsArg t =>
      have returning : s.pc t = .returning := ready
      exact tail_orderly orderly (by simp [returning, WorkerPc.InTail]) trivial rfl

theorem start_orderly (slots : Nat) : Orderly (start slots) := by
  refine ⟨fun t => trivial, fun t u _ here => absurd rfl here, fun _ _ => rfl, fun _ => rfl,
    fun i building => building.elim, fun i spinning => by cases spinning⟩

theorem orderly_recycles (orderly : Orderly s) : Recycles (program.only TailsOver) s where
  selected enabled t chosen := selected_gone orderly enabled.2 chosen
  running t loops _ := (loop_fits (orderly.fits t) loops).2
  started i spinning := by
    obtain ⟨-, t, here, live⟩ := orderly.spinning i spinning
    cases live with
    | inl fresh => exact .inr ⟨t, here, fresh⟩
    | inr loops => exact .inl (here ▸ (loop_fits (orderly.fits t) loops).2)

end Steps

/-- In a run where `init_process` selects no slot whose old thread is in its tail, no
thread of an earlier process touches a slot again, and running flags are right. -/
theorem slots_recycled_in_turn {slots : Nat} {past : List Event} {s : State}
    (run : Run (program.only TailsOver) (start slots) past s) :
    Recycles (program.only TailsOver) s :=
  orderly_recycles (run_invariant run (start_orderly slots) fun _ _ orderly enabled =>
    step_orderly orderly enabled)

/-- One slot, two processes in turn, the first thread gone before the second process. -/
theorem slots_recycled_in_turn_twice :
    ∃ past s, Run (program.only TailsOver) (start 1) past s ∧
      Recycles (program.only TailsOver) s ∧ s.spawned = 2 := by
  have replayed : (replay (program.only TailsOver) (start 1)
      [.selects, .creates 0, .setsArg 0, .spawns 0, .begins 0, .sees 0, .destroys 0, .calls 0,
        .deallocs 0, .wakes, .readsStop 0, .clears 0, .readsTid 0, .readsArg 0, .selects, .creates 0,
        .setsArg 0, .spawns 0, .begins 1, .sees 0]).any (fun s => decide (s.spawned = 2)) = true := by
    decide
  obtain ⟨past, s, run, two⟩ := replay_finds replayed
  exact ⟨past, s, run, slots_recycled_in_turn run, two⟩

/-- The first thread clears the flag of the second, for which the UI then waits. -/
theorem old_thread_clears_flag :
    ¬ ∀ past s, Run program (start 1) past s → Recycles program s := by
  intro recycles
  have replayed : (replay program (start 1)
      [.selects, .creates 0, .setsArg 0, .spawns 0, .begins 0, .sees 0, .destroys 0, .calls 0,
        .deallocs 0, .wakes, .selects, .creates 0, .setsArg 0, .spawns 0, .begins 1, .readsStop 0,
        .clears 0]).any (fun s => decide ((s.pc 1).InLoop ∧ (s.own 1).del = false ∧
          (s.own 1).procThrd.running = false ∧ s.ui = .spinning 0)) = true := by decide
  obtain ⟨past, s, run, loops, live, cleared, -⟩ := replay_finds replayed
  have running := (recycles past s run).running 1 loops live
  rw [cleared] at running
  cases running

end VmSim.SlotRecycling
