import Mathlib.Data.Fintype.Basic
import VmSim.Library.Interleaving
import VmSim.PageTable

/-!
When `mmu_age_pages_if_needed` asks for an aging pass. Threads count their
references in `ref_count`, read it, zero it and ask for the pass in separate
steps, so that two of them can both find the threshold reached. Where nobody
reads the counter while a thread is about to zero it, and nobody counts between
its zeroing and its request, passes are `aging_freq` references apart.
-/

namespace VmSim.AgingSpacing
open PageTable Interleaving

/-- Where a thread is in `mmu_read` or `mmu_write` and what these call last:
`counted` is the call of `mmu_age_pages_if_needed`, `reached` after a comparison
that found `aging_freq` references and `zeroed` before `aging_daemon_update_pages`. -/
inductive Pc where
  | out
  | counted
  | reached
  | zeroed
  deriving DecidableEq

structure State (Thread : Type) where
  ipt : Ipt
  pc : Thread → Pc

/-- `edit` is whatever else happens to the table: loads, evictions, aging passes. -/
inductive Event (Thread : Type) where
  | reference (t : Thread) (addr : VirtAddr) (reftype : RefType)
  | refCount (t : Thread)
  | zeroRefCount (t : Thread)
  | updatePages (t : Thread)
  | edit (ipt : Ipt)

variable {Thread : Type} [DecidableEq Thread]

def State.moves (s : State Thread) (t : Thread) (pc : Pc) : State Thread :=
  { s with pc := Function.update s.pc t pc }

def Enabled (s : State Thread) : Event Thread → Prop
  | .reference t addr reftype => s.pc t = .out ∧ (iptReference s.ipt addr reftype).toOption.isSome
  | .refCount t => s.pc t = .counted
  | .zeroRefCount t => s.pc t = .reached
  | .updatePages t => s.pc t = .zeroed
  | .edit ipt => ipt.refCount = s.ipt.refCount

def next (agingFreq : Nat) (s : State Thread) : Event Thread → State Thread
  | .reference t addr reftype =>
      match iptReference s.ipt addr reftype with
      | .ok ipt => { s with ipt := ipt }.moves t .counted
      | .error _ => s
  | .refCount t => s.moves t (if agingFreq ≤ iptRefCount s.ipt then .reached else .out)
  | .zeroRefCount t => { s with ipt := iptZeroRefCount s.ipt }.moves t .zeroed
  | .updatePages t => s.moves t .out
  | .edit ipt => { s with ipt := ipt }

def program (Thread : Type) [DecidableEq Thread] (agingFreq : Nat) :
    Program (State Thread) (Event Thread) := ⟨Enabled, next agingFreq⟩

def start (Thread : Type) (frames : Nat) : State Thread := ⟨iptInit frames, fun _ => .out⟩

def refsSince : List (Event Thread) → Nat
  | [] => 0
  | .reference _ _ _ :: past => refsSince past + 1
  | .updatePages _ :: _ => 0
  | _ :: past => refsSince past

/-- Nobody reads the counter while a thread that found it high has yet to zero it,
and nobody counts a reference while a thread that zeroed it has yet to ask. -/
def Unhurried (s : State Thread) : Event Thread → Prop
  | .refCount _ => ∀ u, s.pc u ≠ .reached
  | .reference _ _ _ => ∀ u, s.pc u ≠ .zeroed
  | _ => True

instance (s : State Thread) (event : Event Thread) : Decidable (Enabled s event) := by
  cases event <;> unfold Enabled <;> infer_instance

instance (agingFreq : Nat) (s : State Thread) (event : Event Thread) :
    Decidable ((program Thread agingFreq).enabled s event) := inferInstanceAs (Decidable (Enabled _ _))

instance [Fintype Thread] (s : State Thread) (event : Event Thread) :
    Decidable (Unhurried s event) := by
  cases event <;> unfold Unhurried <;> infer_instance

theorem reference_counts {ipt after : Ipt} {addr : VirtAddr} {reftype : RefType}
    (referenced : iptReference ipt addr reftype = .ok after) :
    after.refCount = (ipt.refCount + 1) % 2 ^ 32 := by
  unfold iptReference at referenced
  simp only [bind_eq_ok, pure_eq_ok] at referenced
  obtain ⟨present, -, -, -, entry, -, entries, -, same⟩ := referenced
  cases same
  rfl

def Pc.Crosses : Pc → Prop
  | .reached => True
  | .zeroed => True
  | _ => False

structure Spaced (agingFreq : Nat) (past : List (Event Thread)) (s : State Thread) : Prop where
  counter : (∀ u, s.pc u ≠ .zeroed) → s.ipt.refCount ≤ refsSince past
  cleared : ∀ u, s.pc u = .zeroed → s.ipt.refCount = 0
  crossing : ∀ u, (s.pc u).Crosses → agingFreq ≤ refsSince past
  alone : ∀ t u, (s.pc t).Crosses → (s.pc u).Crosses → t = u

omit [DecidableEq Thread] in
theorem start_spaced (agingFreq frames : Nat) :
    Spaced agingFreq ([] : List (Event Thread)) (start Thread frames) := by
  constructor <;> simp [start, iptInit, refsSince, Pc.Crosses]

section Steps
variable {agingFreq : Nat} {past : List (Event Thread)} {s : State Thread} {t : Thread}

theorem moves_pc (pc : Pc) (u : Thread) : (s.moves t pc).pc u = if u = t then pc else s.pc u := by
  simp [State.moves, Function.update_apply]

theorem moved_crosses {pc : Pc} (leaves : ¬ pc.Crosses) {u : Thread}
    (crosses : ((s.moves t pc).pc u).Crosses) : u ≠ t ∧ (s.pc u).Crosses := by
  rw [moves_pc] at crosses
  split at crosses
  · exact absurd crosses leaves
  · rename_i distinct
    exact ⟨distinct, crosses⟩

theorem reference_spaced (spaced : Spaced agingFreq past s) {ipt : Ipt} {addr : VirtAddr}
    {reftype : RefType} (counts : ipt.refCount = (s.ipt.refCount + 1) % 2 ^ 32)
    (quiet : ∀ u, s.pc u ≠ .zeroed) :
    Spaced agingFreq (.reference t addr reftype :: past)
      (({ s with ipt := ipt } : State Thread).moves t .counted) where
  counter _ := by
    have before := spaced.counter quiet
    have wraps := Nat.mod_le (s.ipt.refCount + 1) (2 ^ 32)
    change ipt.refCount ≤ refsSince past + 1
    omega
  cleared u zeroed := by
    rw [moves_pc] at zeroed
    split at zeroed
    · cases zeroed
    · exact absurd zeroed (quiet u)
  crossing u crosses := by
    have enough := spaced.crossing u (moved_crosses id crosses).2
    change agingFreq ≤ refsSince past + 1
    omega
  alone a b here there := spaced.alone a b (moved_crosses id here).2 (moved_crosses id there).2

/-- A thread that reads the counter joins the crossing only when it is empty. -/
theorem ref_count_spaced (spaced : Spaced agingFreq past s) (positive : 0 < agingFreq)
    (waits : s.pc t = .counted) (quiet : ∀ u, s.pc u ≠ .reached) :
    Spaced agingFreq (.refCount t :: past)
      (s.moves t (if agingFreq ≤ iptRefCount s.ipt then .reached else .out)) := by
  -- The thread that reads the counter at the threshold is the only one to cross;
  -- nobody else is between the test and the zeroing, or the counter would be low.
  by_cases high : agingFreq ≤ iptRefCount s.ipt
  · have none : ∀ u, s.pc u ≠ .zeroed := by
      intro u zeroed
      have empty := spaced.cleared u zeroed
      simp only [iptRefCount] at high
      omega
    have idle : ∀ u, ¬ (s.pc u).Crosses := by
      intro u crosses
      cases there : s.pc u with
      | reached => exact quiet u there
      | zeroed => exact none u there
      | _ => simp [there, Pc.Crosses] at crosses
    have only : ∀ u, ((s.moves t .reached).pc u).Crosses → u = t := by
      intro u crosses
      rw [moves_pc] at crosses
      split at crosses
      · assumption
      · exact absurd crosses (idle u)
    have enough : agingFreq ≤ refsSince past := high.trans (spaced.counter none)
    rw [if_pos high]
    refine ⟨fun _ => spaced.counter none, fun u zeroed => ?_, fun _ _ => enough, fun a b here there => ?_⟩
    · rw [moves_pc] at zeroed
      split at zeroed
      · cases zeroed
      · exact absurd zeroed (none u)
    · rw [only a here, only b there]
  -- Below the threshold the thread leaves, and what the others are at is untouched.
  · rw [if_neg high]
    refine ⟨fun none => spaced.counter fun u zeroed => none u ?_, fun u zeroed => ?_,
      fun u crosses => spaced.crossing u (moved_crosses id crosses).2,
      fun a b here there => spaced.alone a b (moved_crosses id here).2 (moved_crosses id there).2⟩
    · rw [moves_pc, if_neg (by rintro rfl; simp [waits] at zeroed)]
      exact zeroed
    · rw [moves_pc] at zeroed
      split at zeroed
      · cases zeroed
      · exact spaced.cleared u zeroed

theorem zero_spaced (spaced : Spaced agingFreq past s) (reached : s.pc t = .reached) :
    Spaced agingFreq (.zeroRefCount t :: past)
      (({ s with ipt := iptZeroRefCount s.ipt } : State Thread).moves t .zeroed) := by
  have own : (s.pc t).Crosses := by simp [reached, Pc.Crosses]
  have before : ∀ u, ((({ s with ipt := iptZeroRefCount s.ipt } : State Thread).moves t .zeroed).pc
      u).Crosses → (s.pc u).Crosses := by
    intro u crosses
    rw [moves_pc] at crosses
    split at crosses
    · rename_i same
      exact same ▸ own
    · exact crosses
  refine ⟨fun none => ?_, fun _ _ => rfl, fun u crosses => spaced.crossing u (before u crosses),
    fun a b here there => spaced.alone a b (before a here) (before b there)⟩
  exact absurd (by simp [moves_pc]) (none t)

theorem request_spaced (spaced : Spaced agingFreq past s) (zeroed : s.pc t = .zeroed) :
    Spaced agingFreq (.updatePages t :: past) (s.moves t .out) := by
  have own : (s.pc t).Crosses := by simp [zeroed, Pc.Crosses]
  have idle : ∀ u, ¬ ((s.moves t .out).pc u).Crosses := by
    intro u crosses
    obtain ⟨distinct, also⟩ := moved_crosses id crosses
    exact distinct (spaced.alone u t also own)
  refine ⟨fun _ => ?_, fun u there => ?_, fun u crosses => absurd crosses (idle u),
    fun a _ here => absurd here (idle a)⟩
  · exact (spaced.cleared t zeroed).le
  · exact absurd (by simp [there, Pc.Crosses]) (idle u)

omit [DecidableEq Thread] in
theorem edit_spaced (spaced : Spaced agingFreq past s) {ipt : Ipt}
    (same : ipt.refCount = s.ipt.refCount) :
    Spaced agingFreq (.edit ipt :: past) ({ s with ipt := ipt } : State Thread) := by
  refine ⟨fun none => ?_, fun u zeroed => ?_, spaced.crossing, spaced.alone⟩
  · exact same.le.trans (spaced.counter none)
  · exact same.trans (spaced.cleared u zeroed)

theorem step_spaced (positive : 0 < agingFreq) {event : Event Thread}
    (spaced : Spaced agingFreq past s)
    (enabled : ((program Thread agingFreq).only Unhurried).enabled s event) :
    Spaced agingFreq (event :: past) (next agingFreq s event) := by
  obtain ⟨ready, unhurried⟩ := enabled
  cases event with
  | reference t addr reftype =>
      cases referenced : iptReference s.ipt addr reftype with
      | error fault => simp [program, Enabled, referenced, Except.toOption] at ready
      | ok ipt =>
          simpa [next, referenced] using
            reference_spaced spaced (reference_counts referenced) unhurried
  | refCount t => exact ref_count_spaced spaced positive ready unhurried
  | zeroRefCount t => exact zero_spaced spaced ready
  | updatePages t => exact request_spaced spaced ready
  | edit ipt => exact edit_spaced spaced ready

end Steps

/-- In a run without such an overlap at least `aging_freq` references lie between
two requests for a pass, and before the first. -/
theorem aging_passes_spaced {agingFreq : Nat} (positive : 0 < agingFreq) (frames : Nat)
    {past : List (Event Thread)} {s : State Thread} {t : Thread}
    (run : Run ((program Thread agingFreq).only Unhurried) (start Thread frames)
      (.updatePages t :: past) s) : agingFreq ≤ refsSince past := by
  obtain ⟨middle, earlier, ready, -⟩ := run_last run
  have spaced := run_keeps earlier (start_spaced agingFreq frames)
    fun _ _ _ before enabled => step_spaced positive before enabled
  have zeroed : middle.pc t = .zeroed := ready.1
  exact spaced.crossing t (by simp [zeroed, Pc.Crosses])

def loaded : Ipt := ((iptAdd (iptInit 1) ⟨0, 0, 0⟩).toOption.map (·.2)).getD (iptInit 1)

/-- One thread, a threshold of two and a pass after every second reference. -/
theorem aging_passes_spaced_twice :
    ∃ (past : List (Event (Fin 2))) (s : State (Fin 2)),
      Run ((program (Fin 2) 2).only Unhurried) (start (Fin 2) 1) (.updatePages 0 :: past) s ∧
        2 ≤ refsSince past := by
  have replayed : (replay ((program (Fin 2) 2).only Unhurried) (start (Fin 2) 1)
      [.edit loaded, .reference 0 ⟨0, 0, 0⟩ .refRead, .refCount 0, .reference 0 ⟨0, 0, 0⟩ .refWrite,
        .refCount 0, .zeroRefCount 0, .updatePages 0]).isSome = true := by decide
  obtain ⟨s, reached⟩ := Option.isSome_iff_exists.mp replayed
  have run := replay_run .nil reached
  exact ⟨_, s, run, aging_passes_spaced (by decide) 1 run⟩

/-- Two threads read the counter before either zeroes it, and both ask for a pass. -/
theorem aging_passes_adjacent :
    ¬ ∀ (past : List (Event (Fin 2))) (s : State (Fin 2)) (t : Fin 2),
      Run (program (Fin 2) 1) (start (Fin 2) 1) (.updatePages t :: past) s → 1 ≤ refsSince past := by
  intro spaced
  have replayed : (replay (program (Fin 2) 1) (start (Fin 2) 1)
      [.edit loaded, .reference 0 ⟨0, 0, 0⟩ .refRead, .reference 1 ⟨0, 0, 0⟩ .refRead, .refCount 0,
        .refCount 1, .zeroRefCount 0, .zeroRefCount 1, .updatePages 0, .updatePages 1]).isSome =
      true := by decide
  obtain ⟨s, reached⟩ := Option.isSome_iff_exists.mp replayed
  exact absurd (spaced _ s 1 (replay_run .nil reached)) (by decide)

end VmSim.AgingSpacing
