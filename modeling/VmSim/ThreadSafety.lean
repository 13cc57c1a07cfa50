import VmSim.DeadlockFreedom
import VmSim.Library.ThreadSchedules
import VmSim.PagingSteps

/-!
All threads together over the memory: one invariant of every state, in any order of
their steps, says what each thread has found, where the written bytes are, how the
disk is shared out among the processes, and that no statement fails but the free of
a slot that got no block.
-/

namespace VmSim.ThreadCode
open LockedThreads Interleaving PageTable DiskBlocks KeyedMap MemoryUnit PageReplacement PagingRuns
open FramePool DemandPaging BlockAllocator Leases

/-- Nothing has failed but the free of a slot. -/
def Stops (s : Threads) : Prop := ∀ fault, s.stopped = some fault →
  fault = .badFree ∧ ∃ past i, s.place .ui = UiPc.creating past (.freeing i)

theorem going_stops {s : Threads} (going : s.stopped = none) : Stops s := by
  intro fault stopped
  rw [going] at stopped
  cases stopped

/-- What holds in every state, with the bytes written so far. -/
structure Tended (blk size : Nat) (written : Key → Nat → Option BYTE) (s : Threads) : Prop where
  unborn : Unborn s
  hands : HandsOver s
  requested : Requested (procs s) (s.place .prm) s.shared.control
  mailed : Mailed (Proper blk size) (procs s) (s.place .ui) s.shared.control
  paged : Paged blk size (procs s) (s.place .ui) (s.place .prm) s.shared
  holds : PrmPc.Holds written s.shared.store (s.place .prm)
  stops : Stops s

def actionAt (s : Threads) : Event Thread Place → Option ByteAction
  | .runs .ui => UiPc.action (s.place .ui)
  | .runs (.process n) => (procs s n).action
  | _ => none

/-! No wait gives up the lock of the MMU. -/

theorem mmu_firm (t : Thread) (place : Place t) : ¬ (code t place).WaitsUnder .mmu := by
  have acts : ∀ instr : Step t, instr.Acts → ¬ instr.WaitsUnder .mmu := by
    intro instr acts waits
    cases instr with
    | wait cond mutex timed tests ready next => exact acts
    | _ => exact waits
  cases t with
  | ui =>
      rcases ui_acts place with there | rfl | ⟨past, i, rfl⟩ | ⟨pid, rfl⟩
      · exact acts _ there
      · exact id
      · exact id
      · exact fun same => by cases same
  | prm =>
      rcases prm_acts place with there | rfl
      · exact acts _ there
      · exact fun same => by cases same
  | daemon =>
      rcases daemon_acts place with there | rfl
      · exact acts _ there
      · exact fun same => by cases same
  | process n =>
      obtain ⟨pid, pc⟩ := place
      rcases process_acts n ⟨pid, pc⟩ with there | waits | gone | ⟨a, rest, at_pc, same, waits⟩
      · exact acts _ there
      · cases waits
        exact fun same => by cases same
      · cases gone
        exact id
      · cases same
        rcases waits with ⟨cmd, rfl⟩ | rfl
        · exact fun same => by cases same
        · exact fun same => by cases same

section Exclusion
variable {s : Threads}

theorem mmu_exclusive (orderly : Orderly lockOrder s) {t u : Thread} {mode : Mode}
    (writes : (Lock.mmu, Mode.write) ∈ claims t (s.place t))
    (has : (Lock.mmu, mode) ∈ claims u (s.place u)) : t = u :=
  firm_exclusive orderly (fun v _ => mmu_firm v (s.place v)) writes has

end Exclusion

section Turns
variable {blk size : Nat} {written : Key → Nat → Option BYTE} {s : Threads}

theorem process_turn (tended : Tended blk size written s) (n : Nat) :
    Turn blk size (procs s) (s.place .ui) (s.place .prm) s.shared n where
  paged := tended.paged
  others m other reads writes := by
    have same : Thread.process n = .process m := mmu_exclusive tended.hands.orderly writes reads
    cases same
    exact other rfl
  alone writes mode has := by
    have same : Thread.prm = .process n := mmu_exclusive tended.hands.orderly writes has
    cases same
  requested := tended.requested

theorem prm_turn (tended : Tended blk size written s) :
    PrmTurn blk size (procs s) (s.place .ui) (s.place .prm) s.shared where
  paged := tended.paged
  alone n mode has writes := by
    have same : Thread.prm = .process n := mmu_exclusive tended.hands.orderly writes has
    cases same
  requested := tended.requested
  residents := tended.hands.residents
  jobs := tended.mailed.jobs

theorem ui_turn (tended : Tended blk size written s) :
    UiTurn blk size (procs s) (s.place .ui) (s.place .prm) s.shared where
  paged := tended.paged
  others n reads writes := by
    have same : Thread.ui = .process n := mmu_exclusive tended.hands.orderly writes reads
    cases same
  alone writes mode has := by
    have same : Thread.prm = .ui := mmu_exclusive tended.hands.orderly writes has
    cases same
  requested := tended.requested
  jobs := tended.mailed.jobs
  finds := tended.mailed.finds
  vacant past pc i creates slot := (ui_vacant tended.hands creates slot).empty

/-- A process that deletes itself has been marked: the UI has gone on since its mail. -/
theorem process_condemned (tended : Tended blk size written s) (n : Nat) (pc : DeallocPc)
    (place : (procs s n).pc = .dealloc pc) : Condemned (procs s n).pid pc s.shared.control := by
  have live : pc = .checking → (procs s n).stage.Live := by
    rintro rfl
    simp only [ProcessPc.stage, place]
    trivial
  refine ⟨fun checks => tended.hands.residents.junk n (live checks), fun checks => ?_, fun empties => ?_⟩
  · have doomed : (s.shared.control.slot (procs s n).pid).Doomed (procs s n).stage := by
      left
      simp only [ProcessPc.stage, place, checks]
      rfl
    refine (tended.mailed.marked n (live checks) doomed).resolve_right fun marks => ?_
    -- Both would have the mutex of the container.
    have mine : (Lock.cont, Mode.write) ∈ claims (.process n) (s.place (.process n)) := by
      change (Lock.cont, Mode.write) ∈ ProcessPc.claims (procs s n)
      simp [ProcessPc.claims, place, checks, DeallocPc.claims]
    have yours : (Lock.cont, Mode.write) ∈ claims .ui (s.place .ui) := by
      change (Lock.cont, Mode.write) ∈ UiPc.claims (s.place .ui)
      cases ui : s.place .ui with
      | composing pid mail at_pc =>
          rw [ui] at marks
          cases mail with
          | job accesses => exact marks.elim
          | del => cases at_pc <;> first | exact marks.elim | simp [UiPc.claims, ComposePc.claims, Mail.claims]
      | marking pid => simp [UiPc.claims]
      | _ =>
          rw [ui] at marks
          exact marks.elim
    have firm : ∀ v, v = Thread.process n ∨ v = .ui → ¬ (code v (s.place v)).WaitsUnder .cont := by
      rintro v (rfl | rfl)
      · change ¬ (processCode n (procs s n)).WaitsUnder .cont
        simp only [processCode, place, checks]
        exact id
      · change ¬ (uiCode (s.place .ui)).WaitsUnder .cont
        cases ui : s.place .ui with
        | composing pid mail at_pc =>
            cases at_pc <;> exact id
        | marking pid => exact id
        | _ =>
            rw [ui] at marks
            exact marks.elim
    have same : Thread.process n = .ui := firm_exclusive tended.hands.orderly firm mine yours
    cases same
  · refine tended.mailed.boxes n ?_
    rw [place, empties]
    trivial

end Turns

/-! The step of each thread. -/

section Steps
variable {blk size : Nat} {written : Key → Nat → Option BYTE} {s : Threads}
variable {event : Event Thread Place}

theorem process_action_acts {n : Nat} {place : ProcessPc} {action : ByteAction}
    (writes : place.action = some action) : ∃ does, processCode n place = .act does := by
  obtain ⟨pid, pc⟩ := place
  cases pc with
  | access a rest pc =>
      cases pc with
      | copying => exact ⟨_, rfl⟩
      | _ => cases a <;> cases writes
  | _ => cases writes

theorem ui_action_acts {place : UiPc} {action : ByteAction} (writes : place.action = some action) :
    ∃ does, uiCode place = .act does := by
  cases place with
  | creating past pc =>
      cases pc with
      | mappingPage i page k phase =>
          cases phase with
          | inside => exact ⟨_, rfl⟩
          | _ => cases writes
      | _ => cases writes
  | _ => cases writes

theorem acts_runs {t : Thread} (whose : event.thread = t) (enabled : Enabled code s event)
    {does : Shared → Except Fault (Shared × Place t)} (acts : code t (s.place t) = .act does) :
    event = .runs t := by
  have ready := enabled.2
  cases event with
  | runs u =>
      cases whose
      rfl
  | picks u place =>
      cases whose
      dsimp only [Event.thread] at acts
      simp only [Ready, acts] at ready
      exact ready.2.elim
  | wakes u =>
      cases whose
      dsimp only [Event.thread] at acts
      simp only [Ready, acts] at ready
      exact ready.2.elim

structure TendedStep (blk size : Nat) (written : Key → Nat → Option BYTE) (s : Threads)
    (event : Event Thread Place) (after : Threads) : Prop where
  paged : Paged blk size (procs after) (after.place .ui) (after.place .prm) after.shared
  holds : PrmPc.Holds (recorded written (actionAt s event)) after.shared.store (after.place .prm)
  stops : Stops after

theorem process_tended (tended : Tended blk size written s) {n : Nat}
    (whose : event.thread = .process n) (enabled : Enabled code s event) :
    TendedStep blk size written s event (next code s event) := by
  have turn := process_turn tended n
  have here : (∀ does, code (.process n) (s.place (.process n)) ≠ .act does) →
      ProcessPaged blk size (procs s) (s.place .ui) (s.place .prm) n s.shared (s.place (.process n))
        s.shared := by
    intro other
    have action : (procs s n).action = none := by
      by_contra writes
      obtain ⟨action, there⟩ := Option.ne_none_iff_exists'.mp writes
      obtain ⟨does, acts⟩ := process_action_acts (n := n) there
      exact other does acts
    refine ⟨?_, fun written => ?_⟩
    · have same : Function.update (procs s) n (s.place (.process n)) = procs s :=
        Function.update_eq_self n (procs s)
      rw [same]
      exact tended.paged
    · rw [action]
      exact id
  obtain ⟨moved, going⟩ := step_goes whose enabled here
    (process_goes turn (tended.mailed.jobs n) (tended.mailed.popping n) (process_condemned tended n))
  have holds := moved.post.holds written tended.holds
  have prm : (next code s event).place .prm = s.place .prm := moved.others .prm (by simp)
  have ui : (next code s event).place .ui = s.place .ui := moved.others .ui (by simp)
  refine ⟨?_, ?_, going_stops going⟩
  · rw [procs_moved moved, prm, ui]
    exact moved.post.paged
  · have same : actionAt s event = (procs s n).action := by
      cases writes : (procs s n).action with
      | some action =>
          obtain ⟨does, acts⟩ := process_action_acts (n := n) writes
          rw [acts_runs whose enabled acts]
          exact writes
      | none =>
          cases event with
          | runs t =>
              cases whose
              exact writes
          | picks t place => cases t <;> rfl
          | wakes t => cases t <;> rfl
    rw [same, prm]
    exact holds

theorem prm_tended (tended : Tended blk size written s) (whose : event.thread = .prm)
    (enabled : Enabled code s event) : TendedStep blk size written s event (next code s event) := by
  have turn := prm_turn tended
  have here : PrmPaged blk size (procs s) (s.place .ui) (s.place .prm) s.shared (s.place .prm) s.shared :=
    ⟨tended.paged, fun _ => id⟩
  obtain ⟨moved, going⟩ := step_goes whose enabled (fun _ => here) (prm_goes turn)
  have same : procs (next code s event) = procs s :=
    funext fun n => moved.others (.process n) (by simp)
  have ui : (next code s event).place .ui = s.place .ui := moved.others .ui (by simp)
  refine ⟨?_, ?_, going_stops going⟩
  · rw [same, ui]
    exact moved.post.paged
  · have nothing : actionAt s event = none := by
      cases event <;> cases whose <;> rfl
    rw [nothing]
    exact moved.post.holds written tended.holds

theorem daemon_goes (paged : Paged blk size (procs s) (s.place .ui) (s.place .prm) s.shared)
    (place : DaemonPc) : (daemonCode place).Goes s.shared fun (_ : DaemonPc) (sh' : Shared) =>
      Paged blk size (procs s) (s.place .ui) (s.place .prm) sh' ∧ sh'.store = s.shared.store := by
  have still : Paged blk size (procs s) (s.place .ui) (s.place .prm) s.shared ∧
      s.shared.store = s.shared.store := ⟨paged, rfl⟩
  cases place with
  | waiting => exact fun _ => still
  | aging =>
      have leaves := age_goes paged.sound
      have view : (s.shared.onMmu (agePages s.shared.machine.mmu)).store = s.shared.store := leaves.view
      refine ⟨_, _, rfl, ⟨leaves.sound, sized_leaves paged.sized leaves.shape rfl,
        housed_leaves paged.housed leaves rfl rfl, paged.counts, paged.counting, ?_, ?_, ?_⟩, view⟩
      · rw [view]
        exact paged.queued
      · rw [view]
        exact paged.process
      · rw [view]
        exact paged.service
  | reporting =>
      refine ⟨_, _, rfl, ⟨paged.sound, ⟨paged.sized.blocks, paged.sized.processes, paged.sized.pages,
        paged.sized.small⟩, paged.housed, paged.counts, paged.counting, paged.queued, paged.process,
        paged.service⟩, rfl⟩
  | _ => exact still

theorem daemon_tended (tended : Tended blk size written s) (whose : event.thread = .daemon)
    (enabled : Enabled code s event) : TendedStep blk size written s event (next code s event) := by
  obtain ⟨moved, going⟩ := step_goes whose enabled (fun _ => ⟨tended.paged, rfl⟩)
    (daemon_goes tended.paged (s.place .daemon))
  have same : procs (next code s event) = procs s :=
    funext fun n => moved.others (.process n) (by simp)
  have ui : (next code s event).place .ui = s.place .ui := moved.others .ui (by simp)
  have prm : (next code s event).place .prm = s.place .prm := moved.others .prm (by simp)
  refine ⟨?_, ?_, going_stops going⟩
  · rw [same, ui, prm]
    exact moved.post.1
  · have nothing : actionAt s event = none := by
      cases event <;> cases whose <;> rfl
    rw [nothing, prm, moved.post.2]
    exact tended.holds

/-- The lease of the UI goes to the thread it starts. -/
theorem spawned_tended (tended : Tended blk size written s) (going : s.stopped = none) {after : Threads}
    {past : Nat → PackedBitmap.Block} {i : Nat} (spawns : s.place .ui = .creating past (.spawning i))
    (spawned : Spawned s after past i) : TendedStep blk size written s (.runs .ui) after := by
  have paged := tended.paged
  have unborn := tended.hands.residents.unborn _ (Nat.le_refl s.shared.control.spawned)
  have knows : ∀ n, (procs after n).Knows s.shared.store ∧ (procs after n).Counts blk := by
    intro n
    rw [spawned.procs]
    by_cases new : n = s.shared.control.spawned
    · subst new
      rw [Function.update_self]
      exact ⟨trivial, trivial⟩
    · rw [Function.update_of_ne new]
      exact ⟨paged.process n, paged.counts n⟩
  obtain ⟨live, owned, leased⟩ := paged.housed
  have machine : after.shared.machine = s.shared.machine := by
    rw [spawned.shared]
    rfl
  have view : after.shared.store = s.shared.store := congrArg (fun m => storeOf m.mmu) machine
  have action : actionAt s (.runs .ui) = none := by
    rw [actionAt, spawns]
    rfl
  refine ⟨⟨?_, ?_, ?_, fun n => (knows n).2, ?_, ?_, fun n => ?_, ?_⟩, ?_, ?_⟩
  · rw [machine]
    exact paged.sound
  · have sized := paged.sized
    rw [spawned.shared]
    exact ⟨sized.blocks, sized.processes, sized.pages, sized.small⟩
  · have free : leaseOf blk (procs s) (s.place .ui) s.shared.control
        (some s.shared.control.spawned) = none := by
      refine dead_lease ?_
      rw [unborn]
      exact id
    have handed : Leased blk s.shared.machine.mmu.disk.npages live
        (Function.update (Function.update (leaseOf blk (procs s) (s.place .ui) s.shared.control) none none)
          (some s.shared.control.spawned) (leaseOf blk (procs s) (s.place .ui) s.shared.control none))
        (backingOf s.shared.machine.mmu) := lease_handed leased free
    have leases : leaseOf blk (procs after) (after.place .ui) after.shared.control =
        Function.update (Function.update (leaseOf blk (procs s) (s.place .ui) s.shared.control) none none)
          (some s.shared.control.spawned)
          (leaseOf blk (procs s) (s.place .ui) s.shared.control none) := by
      funext o
      rw [spawned.procs, spawned.ui, spawned.shared, spawns]
      cases o with
      | none => rfl
      | some n =>
          by_cases new : n = s.shared.control.spawned
          · subst new
            rw [Function.update_self]
            simp only [leaseOf, Function.update_self]
            rfl
          · rw [Function.update_of_ne (by simpa using new), Function.update_of_ne (by simp)]
            simp only [leaseOf, Function.update_of_ne new]
            rfl
    refine ⟨live, by rw [machine]; exact owned, ?_⟩
    rw [leases, machine]
    exact handed
  · rw [spawned.ui]
    trivial
  · rw [view, spawned.shared]
    exact paged.queued
  · rw [view]
    exact (knows n).1
  · rw [view, spawned.prm, spawned.shared]
    exact paged.service
  · rw [view, spawned.prm, action]
    exact tended.holds
  · exact going_stops (spawned.stopped.trans going)

theorem freeing_tended (tended : Tended blk size written s) {past : Nat → PackedBitmap.Block} {i : Nat}
    (frees : s.place .ui = .creating past (.freeing i)) :
    TendedStep blk size written s (.runs .ui) (next code s (.runs .ui)) := by
  have stopped : next code s (.runs .ui) = { s with stopped := some .badFree } := by
    simp only [next, frees]
    rfl
  have action : actionAt s (.runs .ui) = none := by
    rw [actionAt, frees]
    rfl
  rw [stopped]
  refine ⟨tended.paged, ?_, ?_⟩
  · rw [action]
    exact tended.holds
  · rintro fault there
    cases there
    exact ⟨rfl, past, i, frees⟩

theorem idle_picks (enabled : Enabled code s event) (whose : event.thread = .ui) (idle : s.place .ui = .idle) :
    ∃ place, event = .picks .ui place ∧ place.Command := by
  have ready := enabled.2
  cases event with
  | runs t =>
      cases whose
      rw [Ready, idle] at ready
      exact ready.2.elim
  | picks t place =>
      cases whose
      exact ⟨place, rfl, (ui_idle ready.2).2⟩
  | wakes t =>
      cases whose
      rw [Ready, idle] at ready
      exact ready.2.elim

theorem creation_runs (enabled : Enabled code s event) (whose : event.thread = .ui)
    {past : Nat → PackedBitmap.Block} {pc : CreatePc} (creates : s.place .ui = .creating past pc)
    (statement : (∃ i, pc = .spawning i) ∨ ∃ i, pc = .freeing i) : event = .runs .ui := by
  have ready := enabled.2
  cases event with
  | runs t =>
      cases whose
      rfl
  | picks t place =>
      cases whose
      rcases statement with ⟨i, rfl⟩ | ⟨i, rfl⟩
      all_goals
        rw [Ready, creates] at ready
        exact ready.2.elim
  | wakes t =>
      cases whose
      rcases statement with ⟨i, rfl⟩ | ⟨i, rfl⟩
      all_goals
        rw [Ready, creates] at ready
        exact ready.2.elim

theorem picked_tended (tended : Tended blk size written s) {place : UiPc}
    (enabled : Enabled code s (.picks .ui place)) (idle : s.place .ui = .idle) (command : place.Command) :
    TendedStep blk size written s (.picks .ui place) (next code s (.picks .ui place)) := by
  have paged := tended.paged
  have same : procs (next code s (.picks .ui place)) = procs s :=
    funext fun n => moves_other (t := .ui) (u := .process n) s place (by simp)
  have ui : (next code s (.picks .ui place)).place .ui = place := moves_self (t := .ui) s place
  have prm : (next code s (.picks .ui place)).place .prm = s.place .prm :=
    moves_other (t := .ui) (u := .prm) s place (by simp)
  have mine : place.lease blk s.shared.control = UiPc.lease blk s.shared.control (s.place .ui) ∧
      place.Counts blk := by
    rw [idle]
    cases place with
    | creating past pc => cases pc <;> first | exact ⟨rfl, trivial⟩ | cases command
    | _ => exact ⟨rfl, trivial⟩
  refine ⟨?_, ?_, going_stops enabled.1⟩
  · rw [same, ui, prm]
    exact ⟨paged.sound, paged.sized, housed_leaves paged.housed (leaves_refl paged.sound) rfl
      (lease_same mine.1 fun _ => rfl), paged.counts, mine.2, paged.queued, paged.process, paged.service⟩
  · rw [prm]
    exact tended.holds

theorem ui_action (enabled : Enabled code s event) (whose : event.thread = .ui) :
    actionAt s event = UiPc.action (s.place .ui) := by
  cases writes : UiPc.action (s.place .ui) with
  | some action =>
      obtain ⟨does, acts⟩ := ui_action_acts writes
      rw [acts_runs whose enabled acts]
      exact writes
  | none =>
      cases event with
      | runs t =>
          cases whose
          exact writes
      | picks t place => cases t <;> rfl
      | wakes t => cases t <;> rfl

theorem busy_tended (tended : Tended blk size written s) (whose : event.thread = .ui)
    (enabled : Enabled code s event) (busy : s.place .ui ≠ .idle)
    (spawns : ∀ past i, s.place .ui ≠ .creating past (.spawning i))
    (frees : ∀ past i, s.place .ui ≠ .creating past (.freeing i)) :
    TendedStep blk size written s event (next code s event) := by
  have goes := ui_goes_on (ui_turn tended) tended.hands.residents busy spawns frees
  have here : (∀ does, code .ui (s.place .ui) ≠ .act does) →
      UiPaged blk size (procs s) (s.place .ui) (s.place .prm) s.shared (s.place .ui) s.shared := by
    intro other
    have still : UiPc.action (s.place .ui) = none := by
      by_contra writes
      obtain ⟨action, there⟩ := Option.ne_none_iff_exists'.mp writes
      obtain ⟨does, acts⟩ := ui_action_acts there
      exact other does acts
    refine ⟨tended.paged, fun written => ?_⟩
    rw [still]
    exact id
  obtain ⟨moved, going⟩ := step_goes whose enabled here goes
  have same : procs (next code s event) = procs s :=
    funext fun n => moved.others (.process n) (by simp)
  have prm : (next code s event).place .prm = s.place .prm := moved.others .prm (by simp)
  have holds := moved.post.holds written tended.holds
  refine ⟨?_, ?_, going_stops going⟩
  · rw [same, prm]
    exact moved.post.paged
  · rw [ui_action enabled whose, prm]
    exact holds

theorem ui_tended (tended : Tended blk size written s) (whose : event.thread = .ui)
    (enabled : Enabled code s event) : TendedStep blk size written s event (next code s event) := by
  by_cases idle : s.place .ui = .idle
  · obtain ⟨place, rfl, command⟩ := idle_picks enabled whose idle
    exact picked_tended tended enabled idle command
  by_cases spawns : ∃ past i, s.place .ui = .creating past (.spawning i)
  · obtain ⟨past, i, spawns⟩ := spawns
    cases creation_runs enabled whose spawns (.inl ⟨i, rfl⟩)
    exact spawned_tended tended enabled.1 spawns (spawn_step spawns)
  by_cases frees : ∃ past i, s.place .ui = .creating past (.freeing i)
  · obtain ⟨past, i, frees⟩ := frees
    cases creation_runs enabled whose frees (.inr ⟨i, rfl⟩)
    exact freeing_tended tended frees
  exact busy_tended tended whose enabled idle (fun past i there => spawns ⟨past, i, there⟩)
    fun past i there => frees ⟨past, i, there⟩

theorem tended_step (tended : Tended blk size written s) (enabled : Enabled code s event)
    (obedient : Obedient (Proper blk size) s event) :
    Tended blk size (recorded written (actionAt s event)) (next code s event) := by
  have step : TendedStep blk size written s event (next code s event) := by
    cases whose : event.thread with
    | ui => exact ui_tended tended whose enabled
    | prm => exact prm_tended tended whose enabled
    | daemon => exact daemon_tended tended whose enabled
    | process n => exact process_tended tended whose enabled
  exact ⟨unborn_step tended.unborn enabled, step_keeps tended.hands ⟨enabled, obedient_started obedient⟩,
    requested_step tended.unborn enabled tended.requested,
    mailed_step tended.hands tended.mailed enabled obedient, step.paged, step.holds, step.stops⟩

end Steps

/-! Runs from where `load_app_data` leaves off. -/

structure Configured (mem : Mm) (disk : Disk) : Prop where
  setup : Setup mem disk
  empty : Owned [] disk
  small : disk.npages + disk.processBlockSize ≤ 2 ^ 31

def boot (maxNumOfProc : Nat) (mem : Mm) (disk : Disk) (freq : Nat) (prm : PrmStatics) : Threads :=
  start maxNumOfProc disk.processBlockSize ⟨mmuInit mem disk freq, prm⟩

/-- The bytes last written to each page since it was allocated, after events of which the
latest is the first. -/
def lastWrites (begin : Threads) : List (Event Thread Place) → Key → Nat → Option BYTE
  | [] => fun _ _ => none
  | event :: past => recorded (lastWrites begin past) (actionAt ((program code).state begin past) event)

section Runs
variable {mem : Mm} {disk : Disk} {maxNumOfProc freq : Nat} {prm : PrmStatics} {s : Threads}
variable {past : List (Event Thread Place)}

theorem boot_holds (store : ByteStore) : Preserves (fun _ _ => none) store := by
  constructor
  · intro key frame held offset value there
    cases there
  · intro key slot backed free offset value there
    cases there

theorem boot_tended (configured : Configured mem disk) :
    Tended disk.processBlockSize mem.pageSize (fun _ _ => none) (boot maxNumOfProc mem disk freq prm) where
  unborn _ _ := rfl
  hands := start_hands_over ..
  requested := start_requested ..
  mailed := start_mailed ..
  paged :=
    { sound := init_sound configured.setup freq
      sized := ⟨rfl, rfl, rfl, configured.small⟩
      housed := by
        have leases : leaseOf disk.processBlockSize (procs (boot maxNumOfProc mem disk freq prm)) .idle
            (boot maxNumOfProc mem disk freq prm).shared.control = fun _ => none := by
          funext owner
          cases owner <;> rfl
        refine ⟨[], configured.empty, ?_⟩
        change Leased disk.processBlockSize disk.npages [] (leaseOf _ _ .idle _) _
        rw [leases]
        exact nothing_leased
      counts := fun _ => trivial
      counting := trivial
      queued := by
        intro cmd member
        cases member
      process := fun _ => trivial
      service := trivial }
  holds := boot_holds _
  stops := going_stops rfl

/-- What holds in every run whose users give jobs that stay inside their process's pages. -/
theorem running_tended (configured : Configured mem disk)
    (run : Run (tended (Proper disk.processBlockSize mem.pageSize))
      (boot maxNumOfProc mem disk freq prm) past s) :
    Tended disk.processBlockSize mem.pageSize
      (lastWrites (boot maxNumOfProc mem disk freq prm) past) s := by
  induction run with
  | nil => exact boot_tended configured
  | @step past s event before enabled ih =>
      have there := run_state before
      have reached : (program code).state (boot maxNumOfProc mem disk freq prm) past = s := there
      rw [lastWrites, reached]
      exact tended_step ih enabled.1 enabled.2

theorem tended_runs {Fit : Nat → Access → Prop} {begin s : Threads} {past : List (Event Thread Place)}
    (run : Run (tended Fit) begin past s) : Run (program code) begin past s := by
  induction run with
  | nil => exact .nil
  | step event _ enabled ih => exact @Interleaving.Run.step Threads _ (program code) _ _ _ event ih enabled.1

end Runs

end VmSim.ThreadCode
