import Mathlib.Data.Fintype.Basic
import VmSim.Library.Interleaving
import VmSim.FaultService

/-!
vmsim/aging_daemon.c with its threads. Any number of threads call
`aging_daemon_update_pages`; the flags they share with the daemon are read and
written under `daemon_mutex` only, so a caller's statements between taking and
releasing the mutex are one step. The daemon keeps the mutex while it ages the
frames one by one, and there the threads that hold the MMU for reading go on
referencing pages. A wait may end at any time, by a broadcast, by its deadline
or for no reason. No request is lost: a call returns after a full pass that
began after it asked.
-/

namespace VmSim.AgingDaemon
open PageTable PageReplacement Interleaving

inductive CallerPc where
  | out
  | waiting
  deriving DecidableEq, Repr

/-- The statement `daemon_func` reaches next; `daemon_mutex` is the daemon's
from `updating` on. `aging i` stands in the loop of `ipt_for_each_entry`. -/
inductive DaemonPc where
  | unlocked
  | waiting
  | updating
  | aging (i : Nat)
  | aged
  deriving DecidableEq, Repr

def DaemonPc.Holds : DaemonPc → Prop
  | .unlocked => False
  | .waiting => False
  | _ => True

def DaemonPc.Reads : DaemonPc → Prop
  | .aging _ => True
  | _ => False

/-- `writing` says that a thread holds the MMU's lock for writing. -/
structure State (Thread : Type) where
  ipt : Ipt
  shouldUpdate : Bool
  doneUpdating : Bool
  writing : Bool
  pc : Thread → CallerPc
  daemon : DaemonPc

inductive Event (Thread : Type) where
  | request (t : Thread)
  | wakes (t : Thread)
  | daemonWaits
  | daemonWakes
  | daemonAcquires
  | ages (i : Nat)
  | daemonReleases
  | daemonReports
  | writerEnters
  | writes (ipt : Ipt)
  | writerLeaves
  | reference (addr : VirtAddr) (reftype : RefType)

def ageEntry (ipt : Ipt) (i : Nat) : Ipt := { ipt with entries := ipt.entries.modify i agedEntry }

variable {Thread : Type} [DecidableEq Thread]

/-- The test of `while (!done_updating)` by a thread that holds the mutex. -/
def State.tests (s : State Thread) (t : Thread) : State Thread :=
  { s with pc := Function.update s.pc t (if s.doneUpdating then .out else .waiting) }

def Enabled (s : State Thread) : Event Thread → Prop
  | .request t => s.pc t = .out ∧ ¬ s.daemon.Holds
  | .wakes t => s.pc t = .waiting ∧ ¬ s.daemon.Holds
  | .daemonWaits => s.daemon = .unlocked
  | .daemonWakes => s.daemon = .waiting
  | .daemonAcquires => s.daemon = .updating ∧ s.writing = false
  | .ages i => s.daemon = .aging i ∧ i < s.ipt.entries.length
  | .daemonReleases => s.daemon = .aging s.ipt.entries.length
  | .daemonReports => s.daemon = .aged
  | .writerEnters => s.writing = false ∧ ¬ s.daemon.Reads
  | .writes _ => s.writing = true
  | .writerLeaves => s.writing = true
  | .reference addr reftype => s.writing = false ∧ (iptReference s.ipt addr reftype).toOption.isSome

def next (s : State Thread) : Event Thread → State Thread
  | .request t => { s with doneUpdating := false, shouldUpdate := true }.tests t
  | .wakes t => s.tests t
  | .daemonWaits => { s with daemon := .waiting }
  | .daemonWakes => { s with daemon := if s.shouldUpdate then .updating else .unlocked }
  | .daemonAcquires => { s with daemon := .aging 0 }
  | .ages i => { s with ipt := ageEntry s.ipt i, daemon := .aging (i + 1) }
  | .daemonReleases => { s with daemon := .aged }
  | .daemonReports => { s with shouldUpdate := false, doneUpdating := true, daemon := .unlocked }
  | .writerEnters => { s with writing := true }
  | .writes ipt => { s with ipt := ipt }
  | .writerLeaves => { s with writing := false }
  | .reference addr reftype =>
      match iptReference s.ipt addr reftype with
      | .ok ipt => { s with ipt := ipt }
      | .error _ => s

def program (Thread : Type) [DecidableEq Thread] : Program (State Thread) (Event Thread) :=
  ⟨Enabled, next⟩

def start (Thread : Type) (ipt : Ipt) : State Thread :=
  ⟨ipt, false, false, false, fun _ => .out, .unlocked⟩

instance : DecidablePred DaemonPc.Holds
  | .unlocked => inferInstanceAs (Decidable False)
  | .waiting => inferInstanceAs (Decidable False)
  | .updating => inferInstanceAs (Decidable True)
  | .aging _ => inferInstanceAs (Decidable True)
  | .aged => inferInstanceAs (Decidable True)

instance : DecidablePred DaemonPc.Reads
  | .unlocked => inferInstanceAs (Decidable False)
  | .waiting => inferInstanceAs (Decidable False)
  | .updating => inferInstanceAs (Decidable False)
  | .aging _ => inferInstanceAs (Decidable True)
  | .aged => inferInstanceAs (Decidable False)

instance (s : State Thread) : DecidablePred (Enabled s)
  | .request _ => inferInstanceAs (Decidable (_ ∧ _))
  | .wakes _ => inferInstanceAs (Decidable (_ ∧ _))
  | .daemonWaits => inferInstanceAs (Decidable (_ = _))
  | .daemonWakes => inferInstanceAs (Decidable (_ = _))
  | .daemonAcquires => inferInstanceAs (Decidable (_ ∧ _))
  | .ages _ => inferInstanceAs (Decidable (_ ∧ _))
  | .daemonReleases => inferInstanceAs (Decidable (_ = _))
  | .daemonReports => inferInstanceAs (Decidable (_ = _))
  | .writerEnters => inferInstanceAs (Decidable (_ ∧ _))
  | .writes _ => inferInstanceAs (Decidable (_ = _))
  | .writerLeaves => inferInstanceAs (Decidable (_ = _))
  | .reference _ _ => inferInstanceAs (Decidable (_ ∧ _))

instance (s : State Thread) (event : Event Thread) :
    Decidable ((program Thread).enabled s event) := inferInstanceAs (Decidable (Enabled _ _))

def residentOf (entry : IptEntry) : Option VirtAddr :=
  if entry.pageData.valid then some entry.pageData.addr else none

def residents (ipt : Ipt) : List (Option VirtAddr) := ipt.entries.map residentOf

def visited : Event Thread → Option Nat
  | .ages i => some i
  | _ => none

/-- From the acquisition of the MMU's lock to its release: every frame is visited
once, in order, and the resident pages are the same at each step. -/
structure FullPass (first : State Thread) (during : List (Event Thread)) (last : State Thread) :
    Prop where
  run : Run (program Thread) first during last
  visits : during.filterMap visited = (List.range first.ipt.entries.length).reverse
  resident : ∀ earlier middle, earlier <:+ during → Run (program Thread) first earlier middle →
    residents middle.ipt = residents first.ipt

/-- Since the latest request of `t` a pass began and ended. -/
def Served (begin : State Thread) (t : Thread) (past : List (Event Thread)) : Prop :=
  ∃ after during early before first last,
    past = after ++ .daemonReleases :: (during ++ .daemonAcquires :: (early ++ .request t :: before)) ∧
    .request t ∉ after ++ during ++ early ∧
    Run (program Thread) begin (.daemonAcquires :: (early ++ .request t :: before)) first ∧
    FullPass first during last

def Returns (s : State Thread) (t : Thread) (event : Event Thread) : Prop :=
  (event = .request t ∨ event = .wakes t) ∧ (next s event).pc t = .out

section Residents
variable {ipt : Ipt}

theorem set_residents {entries : List IptEntry} {i : Nat} {entry after : IptEntry}
    (found : entries[i]? = some entry) (same : residentOf after = residentOf entry) :
    (entries.set i after).map residentOf = entries.map residentOf := by
  apply List.ext_getElem?
  intro j
  simp only [List.getElem?_map, List.getElem?_set]
  by_cases here : i = j
  · subst here
    obtain ⟨bound, here⟩ := List.getElem?_eq_some_iff.mp found
    simp [bound, here, same]
  · simp [here]

theorem aged_resident (entry : IptEntry) : residentOf (agedEntry entry) = residentOf entry := by
  cases valid : entry.pageData.valid <;> simp [residentOf, agedEntry, agePage, valid]

theorem age_entries (ipt : Ipt) (i : Nat) :
    (ageEntry ipt i).entries = ipt.entries.modify i agedEntry := rfl

theorem aged_residents (i : Nat) : residents (ageEntry ipt i) = residents ipt := by
  apply List.ext_getElem?
  intro j
  simp only [residents, age_entries, List.getElem?_map, List.getElem?_modify]
  cases ipt.entries[j]? with
  | none => rfl
  | some entry =>
      by_cases here : i = j <;> simp [here, aged_resident]

theorem reference_residents {after : Ipt} {addr : VirtAddr} {reftype : RefType}
    (referenced : iptReference ipt addr reftype = .ok after) : residents after = residents ipt := by
  unfold iptReference entryOf at referenced
  simp only [bind_eq_ok, pure_eq_ok] at referenced
  obtain ⟨present, -, -, -, found, selected, entries, stored, same⟩ := referenced
  obtain ⟨slot, -, selected⟩ := selected
  cases slot with
  | none => cases selected
  | some idx =>
      simp only [bind_eq_ok, load_ok] at selected
      obtain ⟨entry, loaded, paired⟩ := selected
      cases paired
      unfold store at stored
      split at stored
      · cases stored
        cases same
        exact set_residents loaded (by cases reftype <;> rfl)
      · cases stored

end Residents

def Event.Quiet : Event Thread → Prop
  | .request _ => False
  | .writes _ => False
  | _ => True

section Passes
variable {begin s first last : State Thread} {past during : List (Event Thread)} {event : Event Thread}

theorem quiet_residents (quiet : event.Quiet) : residents (next s event).ipt = residents s.ipt := by
  cases event with
  | writes => cases quiet
  | request => cases quiet
  | ages i => exact aged_residents i
  | reference addr reftype =>
      cases referenced : iptReference s.ipt addr reftype with
      | error => simp [next, referenced]
      | ok ipt => simpa [next, referenced] using reference_residents referenced
  | _ => rfl

theorem run_residents (run : Run (program Thread) first during last)
    (quiet : ∀ event ∈ during, event.Quiet) : residents last.ipt = residents first.ipt := by
  induction run with
  | nil => rfl
  | step event _ _ ih =>
      have before := ih fun event among => quiet event (List.mem_cons_of_mem _ among)
      exact (quiet_residents (quiet event List.mem_cons_self)).trans before

/-- Between two entries of a frame nothing has touched its register. -/
structure Unaged (entry after : IptEntry) : Prop where
  age : after.pageData.pageAge = entry.pageData.pageAge
  referenced : entry.pageData.referenced = true → after.pageData.referenced = true

theorem reference_unaged {ipt after : Ipt} {addr : VirtAddr} {reftype : RefType}
    (referenced : iptReference ipt addr reftype = .ok after) {j : Nat} {entry : IptEntry}
    (here : ipt.entries[j]? = some entry) : ∃ next, after.entries[j]? = some next ∧ Unaged entry next := by
  unfold iptReference entryOf at referenced
  simp only [bind_eq_ok, pure_eq_ok] at referenced
  obtain ⟨present, -, -, -, found, selected, entries, stored, same⟩ := referenced
  obtain ⟨slot, -, selected⟩ := selected
  cases slot with
  | none => cases selected
  | some idx =>
      simp only [bind_eq_ok, load_ok] at selected
      obtain ⟨old, loaded, paired⟩ := selected
      cases paired
      unfold store at stored
      split at stored
      · rename_i bound
        cases stored
        cases same
        by_cases mine : idx = j
        · subst mine
          rw [loaded] at here
          cases here
          refine ⟨_, List.getElem?_set_self bound, ?_⟩
          cases reftype <;> exact ⟨rfl, fun _ => rfl⟩
        · exact ⟨entry, by simpa only [List.getElem?_set_ne mine] using here, rfl, id⟩
      · cases stored

theorem quiet_unaged (quiet : event.Quiet) {j : Nat} (other : visited event ≠ some j) {entry : IptEntry}
    (here : s.ipt.entries[j]? = some entry) :
    ∃ after, (next s event).ipt.entries[j]? = some after ∧ Unaged entry after := by
  have same : Unaged entry entry := ⟨rfl, id⟩
  cases event with
  | writes => cases quiet
  | request => cases quiet
  | ages i =>
      have apart : i ≠ j := fun mine => other (congrArg some mine)
      refine ⟨entry, ?_, same⟩
      simp only [next, age_entries, List.getElem?_modify, here, if_neg apart]
      rfl
  | reference addr reftype =>
      cases referenced : iptReference s.ipt addr reftype with
      | error => exact ⟨entry, by simpa only [next, referenced] using here, same⟩
      | ok ipt =>
          obtain ⟨after, there, unaged⟩ := reference_unaged referenced here
          exact ⟨after, by simpa only [next, referenced] using there, unaged⟩
  | _ => exact ⟨entry, here, same⟩

theorem run_unaged (run : Run (program Thread) first during last) (quiet : ∀ event ∈ during, event.Quiet)
    {j : Nat} (other : j ∉ during.filterMap visited) {entry : IptEntry}
    (here : first.ipt.entries[j]? = some entry) :
    ∃ after, last.ipt.entries[j]? = some after ∧ Unaged entry after := by
  induction run with
  | nil => exact ⟨entry, here, rfl, id⟩
  | step event _ _ ih =>
      have apart : visited event ≠ some j := by
        intro mine
        exact other (List.mem_filterMap.mpr ⟨event, List.mem_cons_self, mine⟩)
      have earlier : j ∉ _ := fun member =>
        other (List.mem_filterMap.mpr ((List.mem_filterMap.mp member).imp fun _ found =>
          ⟨List.mem_cons_of_mem _ found.1, found.2⟩))
      obtain ⟨middle, before, unaged⟩ := ih (fun event among => quiet event (List.mem_cons_of_mem _ among)) earlier
      obtain ⟨after, there, kept⟩ := quiet_unaged (quiet event List.mem_cons_self) apart before
      exact ⟨after, there, kept.age.trans unaged.age, fun up => kept.referenced (unaged.referenced up)⟩

def Passing (begin : State Thread) (past : List (Event Thread)) (s : State Thread) (i : Nat) : Prop :=
  ∃ during early first, past = during ++ .daemonAcquires :: early ∧
    Run (program Thread) begin (.daemonAcquires :: early) first ∧
    Run (program Thread) first during s ∧
    during.filterMap visited = (List.range i).reverse ∧ ∀ event ∈ during, event.Quiet

/-- The daemon after a pass, with nobody's request since its beginning. -/
def Passed (begin : State Thread) (past : List (Event Thread)) : Prop :=
  ∃ closing during early first last,
    past = closing ++ .daemonReleases :: (during ++ .daemonAcquires :: early) ∧
    (∀ t, .request t ∉ closing ++ during) ∧
    Run (program Thread) begin (.daemonAcquires :: early) first ∧ FullPass first during last

theorem acquire_passing (run : Run (program Thread) begin past s)
    (enabled : (program Thread).enabled s .daemonAcquires) :
    Passing begin (.daemonAcquires :: past) (next s .daemonAcquires) 0 :=
  ⟨[], past, _, rfl, run.step .daemonAcquires enabled, .nil, rfl, by simp⟩

theorem quiet_passing {i j : Nat} (passing : Passing begin past s i)
    (enabled : (program Thread).enabled s event)
    (quiet : event.Quiet) (visits : (visited event).toList ++ (List.range i).reverse =
      (List.range j).reverse) : Passing begin (event :: past) (next s event) j := by
  obtain ⟨during, early, first, rfl, before, run, order, silent⟩ := passing
  refine ⟨event :: during, early, first, rfl, before, run.step event enabled, ?_, ?_⟩
  · rw [← visits, ← order]
    cases seen : visited event <;> simp [seen]
  · intro other among
    cases List.mem_cons.mp among with
    | inl same => exact same ▸ quiet
    | inr earlier => exact silent other earlier

theorem passing_passed (passing : Passing begin past s s.ipt.entries.length) :
    Passed begin (.daemonReleases :: past) := by
  obtain ⟨during, early, first, rfl, before, run, order, silent⟩ := passing
  have frames : s.ipt.entries.length = first.ipt.entries.length := by
    simpa [residents] using congrArg List.length (run_residents run silent)
  refine ⟨[], during, early, first, s, rfl, ?_, before, run, frames ▸ order, ?_⟩
  · intro t asked
    exact silent _ asked
  · intro earlier middle suffix reached
    exact run_residents reached fun event among => silent event (suffix.subset among)

theorem passed_grows (passed : Passed begin past) (other : ∀ t, event ≠ .request t) :
    Passed begin (event :: past) := by
  obtain ⟨closing, during, early, first, last, rfl, unasked, before, full⟩ := passed
  refine ⟨event :: closing, during, early, first, last, rfl, ?_, before, full⟩
  intro t among
  cases List.mem_cons.mp among with
  | inl same => exact other t same.symm
  | inr earlier => exact unasked t earlier

theorem served_grows {t : Thread} (served : Served begin t past) (other : event ≠ .request t) :
    Served begin t (event :: past) := by
  obtain ⟨after, during, early, before, first, last, rfl, unasked, run, full⟩ := served
  refine ⟨event :: after, during, early, before, first, last, rfl, ?_, run, full⟩
  intro among
  cases List.mem_cons.mp among with
  | inl same => exact other same.symm
  | inr earlier => exact unasked earlier

theorem passed_serves {t : Thread} (passed : Passed begin past) (asked : .request t ∈ past) :
    Served begin t past := by
  obtain ⟨closing, during, early, first, last, rfl, unasked, run, full⟩ := passed
  have before : .request t ∈ early := by
    have absent := unasked t
    simp only [List.mem_append, not_or] at absent
    simpa [absent] using asked
  obtain ⟨later, earlier, rfl, fresh⟩ := List.eq_append_cons_of_mem before
  refine ⟨closing, during, later, earlier, first, last, rfl, ?_, run, full⟩
  intro among
  cases List.mem_append.mp among with
  | inl here => exact unasked t here
  | inr here => exact fresh here

end Passes

structure Callers (begin : State Thread) (past : List (Event Thread)) (s : State Thread) : Prop where
  asked : ∀ t, s.pc t = .waiting → .request t ∈ past
  served : ∀ t, s.pc t = .waiting → s.doneUpdating = true → Served begin t past
  coming : ∀ t, s.pc t = .waiting → s.doneUpdating = false → s.shouldUpdate = true

structure Daemon (begin : State Thread) (past : List (Event Thread)) (s : State Thread) : Prop where
  exclusive : s.daemon.Reads → s.writing = false
  passing : ∀ i, s.daemon = .aging i → Passing begin past s i
  passed : s.daemon = .aged → Passed begin past

section Steps
variable {begin s after : State Thread} {past : List (Event Thread)} {event : Event Thread}

theorem callers_grow (callers : Callers begin past s) (other : ∀ t, event ≠ .request t)
    (pc : ∀ t, after.pc t = .waiting → s.pc t = .waiting)
    (done : after.doneUpdating = s.doneUpdating) (should : after.shouldUpdate = s.shouldUpdate) :
    Callers begin (event :: past) after where
  asked t waits := List.mem_cons_of_mem _ (callers.asked t (pc t waits))
  served t waits finished := served_grows (callers.served t (pc t waits) (done ▸ finished)) (other t)
  coming t waits pending := should ▸ callers.coming t (pc t waits) (done ▸ pending)

theorem request_callers (callers : Callers begin past s) (t : Thread) :
    Callers begin (.request t :: past) (next s (.request t)) where
  asked u waits := by
    by_cases same : u = t
    · exact same ▸ List.mem_cons_self
    · have before : s.pc u = .waiting := by simpa [next, State.tests, same] using waits
      exact List.mem_cons_of_mem _ (callers.asked u before)
  served _ _ finished := by cases finished
  coming _ _ _ := rfl

theorem wakes_callers (callers : Callers begin past s) {t : Thread} (waits : s.pc t = .waiting) :
    Callers begin (.wakes t :: past) (next s (.wakes t)) := by
  refine callers_grow callers (by simp) (fun u still => ?_) rfl rfl
  by_cases same : u = t
  · exact same ▸ waits
  · simpa [next, State.tests, same] using still

theorem report_callers (callers : Callers begin past s) (passed : Passed begin past) :
    Callers begin (.daemonReports :: past) (next s .daemonReports) where
  asked t waits := List.mem_cons_of_mem _ (callers.asked t waits)
  served t waits _ := served_grows (passed_serves passed (callers.asked t waits)) (by simp)
  coming _ _ pending := by cases pending

theorem idle_daemon (reads : ¬ s.daemon.Reads) (aged : s.daemon ≠ .aged) : Daemon begin past s where
  exclusive within := absurd within reads
  passing i within := absurd (by simp [within, DaemonPc.Reads]) reads
  passed within := absurd within aged

theorem free_daemon (free : ¬ s.daemon.Holds) : Daemon begin past s := by
  apply idle_daemon
  · intro reads
    cases stands : s.daemon <;> simp_all [DaemonPc.Reads, DaemonPc.Holds]
  · intro aged
    simp [aged, DaemonPc.Holds] at free

theorem reference_next (addr : VirtAddr) (reftype : RefType) :
    ∃ ipt, next s (.reference addr reftype) = { s with ipt := ipt } := by
  cases referenced : iptReference s.ipt addr reftype with
  | error => exact ⟨s.ipt, by simp [next, referenced]⟩
  | ok ipt => exact ⟨ipt, by simp [next, referenced]⟩

theorem step_callers (callers : Callers begin past s) (daemon : Daemon begin past s)
    (enabled : Enabled s event) : Callers begin (event :: past) (next s event) := by
  cases event with
  | request t => exact request_callers callers t
  | wakes t => exact wakes_callers callers enabled.1
  | daemonReports => exact report_callers callers (daemon.passed enabled)
  | reference addr reftype =>
      obtain ⟨ipt, same⟩ := reference_next (s := s) addr reftype
      rw [same]
      exact callers_grow callers (by simp) (fun _ waits => waits) rfl rfl
  | _ => exact callers_grow callers (by simp) (fun _ waits => waits) rfl rfl

theorem writer_daemon (daemon : Daemon begin past s) (reads : ¬ s.daemon.Reads)
    (other : ∀ t, event ≠ .request t) (same : after.daemon = s.daemon) :
    Daemon begin (event :: past) after where
  exclusive within := absurd (same ▸ within) reads
  passing i within := absurd (by simp [← same, within, DaemonPc.Reads]) reads
  passed within := passed_grows (daemon.passed (same ▸ within)) other

theorem step_daemon (daemon : Daemon begin past s) (run : Run (program Thread) begin past s)
    (enabled : Enabled s event) : Daemon begin (event :: past) (next s event) := by
  have outside : s.writing = true → ¬ s.daemon.Reads := by
    intro writing reads
    simp [daemon.exclusive reads] at writing
  cases event with
  | request t => exact free_daemon enabled.2
  | wakes t => exact free_daemon enabled.2
  | daemonWaits => exact free_daemon id
  | daemonWakes =>
      refine idle_daemon ?_ ?_ <;> cases should : s.shouldUpdate <;>
        simp [next, should, DaemonPc.Reads]
  | daemonAcquires =>
      refine ⟨fun _ => enabled.2, fun i within => ?_, fun within => by cases within⟩
      cases within
      exact acquire_passing run enabled
  | ages i =>
      -- the frame just visited is the next of the range
      refine ⟨fun _ => daemon.exclusive (by simp [enabled.1, DaemonPc.Reads]), fun j within => ?_,
        fun within => by cases within⟩
      cases within
      exact quiet_passing (daemon.passing i enabled.1) enabled trivial
        (by simp [visited, List.range_succ])
  | daemonReleases =>
      refine ⟨False.elim, fun _ within => ?_, fun _ => ?_⟩
      · cases within
      · exact passing_passed (daemon.passing _ enabled)
  | daemonReports => exact free_daemon id
  | writerEnters => exact writer_daemon daemon enabled.2 (by simp) rfl
  | writes ipt => exact writer_daemon daemon (outside enabled) (by simp) rfl
  | writerLeaves => exact writer_daemon daemon (outside enabled) (by simp) rfl
  | reference addr reftype =>
      obtain ⟨ipt, same⟩ := reference_next (s := s) addr reftype
      refine ⟨fun reads => ?_, fun i within => ?_, fun within => ?_⟩
      · simpa [same] using enabled.1
      · exact quiet_passing (daemon.passing i (by simpa [same] using within)) enabled trivial rfl
      · exact passed_grows (daemon.passed (by simpa [same] using within)) (by simp)

end Steps

theorem run_follows {ipt : Ipt} {past : List (Event Thread)} {s : State Thread}
    (run : Run (program Thread) (start Thread ipt) past s) :
    Callers (start Thread ipt) past s ∧ Daemon (start Thread ipt) past s := by
  induction run with
  | nil => exact ⟨⟨by simp [start], by simp [start], by simp [start]⟩, free_daemon id⟩
  | step event before enabled ih =>
      exact ⟨step_callers ih.1 ih.2 enabled, step_daemon ih.2 before enabled⟩

/-- Since its acquisition of the MMU's lock the daemon has shifted the register of every frame once:
with the flag as it stood when the frame's turn came. -/
def AgedAll (begin : State Thread) (past : List (Event Thread)) (s : State Thread) : Prop :=
  ∃ during early first, past = during ++ .daemonAcquires :: early ∧
    Run (program Thread) begin (.daemonAcquires :: early) first ∧
    ∀ j entry, first.ipt.entries[j]? = some entry → ∃ earlier middle seen last,
      earlier <:+ during ∧ Run (program Thread) first earlier middle ∧ middle.daemon = .aging j ∧
      middle.ipt.entries[j]? = some seen ∧ Unaged entry seen ∧
      s.ipt.entries[j]? = some last ∧ last.pageData.pageAge = (agedEntry seen).pageData.pageAge

omit [DecidableEq Thread] in
theorem visited_once {during : List (Event Thread)} {count j : Nat}
    (order : during.filterMap visited = (List.range count).reverse) (inside : j < count) :
    ∃ later earlier, during = later ++ .ages j :: earlier ∧
      j ∉ later.filterMap visited ∧ j ∉ earlier.filterMap visited := by
  have listed : j ∈ during.filterMap visited := by
    rw [order]
    simpa using inside
  obtain ⟨event, among, turn⟩ := List.mem_filterMap.mp listed
  have same : event = .ages j := by
    cases event with
    | ages i => rw [Option.some.inj turn]
    | _ => cases turn
  subst same
  obtain ⟨later, earlier, rfl⟩ := List.append_of_mem among
  have once : ((later ++ .ages j :: earlier).filterMap visited).Nodup := by
    rw [order]
    exact List.nodup_reverse.mpr List.nodup_range
  rw [List.filterMap_append, List.filterMap_cons_some turn, List.nodup_append] at once
  exact ⟨later, earlier, rfl, fun member => once.2.2 j member j List.mem_cons_self rfl,
    (List.nodup_cons.mp once.2.1).1⟩

/-- Whatever the readers of the table do meanwhile, a pass of the daemon shifts every register once. -/
theorem pass_ages {ipt : Ipt} {past : List (Event Thread)} {s : State Thread}
    (run : Run (program Thread) (start Thread ipt) past s)
    (ends : s.daemon = .aging s.ipt.entries.length) : AgedAll (start Thread ipt) past s := by
  obtain ⟨during, early, first, rfl, before, within, order, quiet⟩ := (run_follows run).2.passing _ ends
  have frames : s.ipt.entries.length = first.ipt.entries.length := by
    simpa [residents] using congrArg List.length (run_residents within quiet)
  refine ⟨during, early, first, rfl, before, fun j entry here => ?_⟩
  have inside : j < s.ipt.entries.length := by
    rw [frames]
    exact (List.getElem?_eq_some_iff.mp here).1
  obtain ⟨later, earlier, rfl, notLater, notEarlier⟩ := visited_once order inside
  obtain ⟨after, upToTurn, ended⟩ := run_split within
  obtain ⟨middle, started, turn, rfl⟩ := run_last upToTurn
  obtain ⟨seen, there, unaged⟩ :=
    run_unaged started (fun event among => quiet event (by simp [among])) notEarlier here
  have shifted : (next middle (.ages j)).ipt.entries[j]? = some (agedEntry seen) := by
    simp only [next, age_entries, List.getElem?_modify, there, if_true]
    rfl
  obtain ⟨last, found, kept⟩ :=
    run_unaged ended (fun event among => quiet event (by simp [among])) notLater shifted
  exact ⟨earlier, middle, seen, last, ⟨later ++ [.ages j], by simp⟩, started, turn.1, there, unaged,
    found, kept.age⟩

def onePage : Ipt := ((iptAdd (iptInit 1) ⟨0, 0, 0⟩).toOption.map (·.2)).getD (iptInit 1)

/-- The page is referenced in the pass, before its turn. -/
theorem pass_ages_referenced :
    ∃ (past : List (Event (Fin 1))) (s : State (Fin 1)),
      Run (program (Fin 1)) (start (Fin 1) onePage) past s ∧
        (s.ipt.entries[0]?.map (·.pageData.pageAge)) = some 0xC0000000#32 ∧
        AgedAll (start (Fin 1) onePage) past s := by
  have replayed : (replay (program (Fin 1)) (start (Fin 1) onePage)
      [.daemonWaits, .request 0, .daemonWakes, .daemonAcquires, .reference ⟨0, 0, 0⟩ .refRead,
        .ages 0]).any (fun s => decide (s.daemon = .aging s.ipt.entries.length ∧
          (s.ipt.entries[0]?.map (·.pageData.pageAge)) = some 0xC0000000#32)) = true := by decide
  obtain ⟨past, s, run, ends, age⟩ := replay_finds replayed
  exact ⟨past, s, run, age, pass_ages run ends⟩

/-- A call of `aging_daemon_update_pages` returns after a full pass that began
after the call asked, and while it waits in vain the flag that makes the daemon
start a pass is up or the daemon is in one. -/
theorem no_request_lost {ipt : Ipt} {past : List (Event Thread)} {s : State Thread}
    (run : Run (program Thread) (start Thread ipt) past s) :
    (∀ t event, Enabled s event → Returns s t event →
      Served (start Thread ipt) t (event :: past)) ∧
    ∀ t, s.pc t = .waiting → s.doneUpdating = false →
      (s.shouldUpdate = true ∨ s.daemon.Holds) ∧
      (s.daemon = .waiting → (next s .daemonWakes).daemon = .updating) := by
  obtain ⟨callers, -⟩ := run_follows run
  refine ⟨fun t event enabled returns => ?_, fun t waits pending => ?_⟩
  · obtain ⟨own, out⟩ := returns
    cases own with
    | inl same =>
        subst same
        simp [next, State.tests] at out
    | inr same =>
        subst same
        have done : s.doneUpdating = true := by
          by_contra pending
          simp [next, State.tests, pending] at out
        exact served_grows (callers.served t enabled.1 done) (by simp)
  · have coming := callers.coming t waits pending
    exact ⟨.inl coming, fun _ => by simp [next, coming]⟩

/-- The second caller takes back the completion the first one waits for; both
return after the next pass. -/
theorem no_request_lost_twice :
    ∃ (past : List (Event (Fin 2))) (s : State (Fin 2)),
      Run (program (Fin 2)) (start (Fin 2) onePage) past s ∧
        Served (start (Fin 2) onePage) 0 (.wakes 0 :: past) := by
  have replayed : (replay (program (Fin 2)) (start (Fin 2) onePage)
      [.daemonWaits, .request 0, .daemonWakes, .daemonAcquires, .ages 0,
        .reference ⟨0, 0, 0⟩ .refRead, .daemonReleases, .daemonReports, .request 1, .wakes 0,
        .daemonWaits, .daemonWakes, .daemonAcquires, .ages 0, .daemonReleases,
        .daemonReports]).any (fun s => decide (s.pc 0 = .waiting ∧ ¬ s.daemon.Holds ∧
          s.doneUpdating = true)) = true := by decide
  obtain ⟨past, s, run, waits, free, done⟩ := replay_finds replayed
  have returns : Returns s 0 (.wakes 0) := ⟨.inr rfl, by simp [next, State.tests, done]⟩
  exact ⟨past, s, run, (no_request_lost run).1 0 _ ⟨waits, free⟩ returns⟩

end VmSim.AgingDaemon
