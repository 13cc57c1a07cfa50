import Mathlib.Logic.Function.Basic

/-!
Commands that may open scripts of further commands. A command proceeds, leaves all the
scripts it stands in, opens a script, which is run to its end before the next command,
fails, or never comes back. What closes a script may not come back either. The commands
are run by a recursion whose depth is how far scripts may nest.
-/

namespace VmSim.Scripts

inductive Verdict (Line State Error : Type) where
  | proceeds (after : State)
  | leaves (after : State)
  | opens (script : List Line) (closes : State → Option State)
  | fails (error : Error)
  | stalls

/-- How a script ends: behind its last command, at one that leaves, or at one that fails. -/
inductive Ending (State Error : Type) where
  | through (after : State)
  | left (after : State)
  | failed (error : Error)
  deriving DecidableEq, Repr

variable {Line State Error : Type}

def Ending.andThen (rest : State → Option (Ending State Error)) : Ending State Error → Option (Ending State Error)
  | .through after => rest after
  | ending => some ending

/-- What is done behind a script, also where it was left. -/
def Ending.closed (closes : State → Option State) : Ending State Error → Option (Ending State Error)
  | .through after => (closes after).map .through
  | .left after => (closes after).map .left
  | .failed error => some (.failed error)

def each (run : State → Line → Option (Ending State Error)) : State → List Line → Option (Ending State Error)
  | s, [] => some (.through s)
  | s, line :: rest => (run s line).bind (Ending.andThen fun after => each run after rest)

/-- A command with the scripts it opens; `none` where they nest deeper or something stalls. -/
def handle (meaning : State → Line → Verdict Line State Error) :
    Nat → State → Line → Option (Ending State Error)
  | 0, _, _ => none
  | depth + 1, s, line =>
      match meaning s line with
      | .proceeds after => some (.through after)
      | .leaves after => some (.left after)
      | .opens script closes => (each (handle meaning depth) s script).bind (Ending.closed closes)
      | .fails error => some (.failed error)
      | .stalls => none

def Returns (meaning : State → Line → Verdict Line State Error) (s : State) (script : List Line)
    (ending : Ending State Error) : Prop := ∃ depth, each (handle meaning depth) s script = some ending

def Ending.Stops (ending : Ending State Error) : Prop := ∀ after, ending ≠ .through after

section Depth
variable {run other : State → Line → Option (Ending State Error)} {s : State} {ending : Ending State Error}

theorem and_then_some {first : Ending State Error} {rest : State → Option (Ending State Error)} :
    first.andThen rest = some ending ↔
      (∃ after, first = .through after ∧ rest after = some ending) ∨ (first = ending ∧ ending.Stops) := by
  cases first with
  | through after =>
      simp only [Ending.andThen, Ending.through.injEq, exists_eq_left', Ending.Stops]
      exact ⟨.inl, fun found => found.elim id fun ⟨same, stops⟩ => absurd same.symm (stops after)⟩
  | left after =>
      simp only [Ending.andThen, Option.some.injEq, reduceCtorEq, false_and, exists_false, false_or]
      exact ⟨fun same => ⟨same, by simp [← same, Ending.Stops]⟩, And.left⟩
  | failed error =>
      simp only [Ending.andThen, Option.some.injEq, reduceCtorEq, false_and, exists_false, false_or]
      exact ⟨fun same => ⟨same, by simp [← same, Ending.Stops]⟩, And.left⟩

theorem each_cons {line : Line} {rest : List Line} : each run s (line :: rest) = some ending ↔
    (∃ after, run s line = some (.through after) ∧ each run after rest = some ending) ∨
      (run s line = some ending ∧ ending.Stops) := by
  rw [each, Option.bind_eq_some_iff]
  constructor
  · rintro ⟨first, ran, continued⟩
    rcases and_then_some.mp continued with ⟨after, rfl, later⟩ | ⟨rfl, stops⟩
    · exact .inl ⟨after, ran, later⟩
    · exact .inr ⟨ran, stops⟩
  · rintro (⟨after, ran, later⟩ | ⟨ran, stops⟩)
    · exact ⟨_, ran, and_then_some.mpr (.inl ⟨after, rfl, later⟩)⟩
    · exact ⟨_, ran, and_then_some.mpr (.inr ⟨rfl, stops⟩)⟩

theorem each_append {before after : List Line} : each run s (before ++ after) = some ending ↔
    (∃ middle, each run s before = some (.through middle) ∧ each run middle after = some ending) ∨
      (each run s before = some ending ∧ ending.Stops) := by
  induction before generalizing s with
  | nil =>
      rw [List.nil_append]
      constructor
      · exact fun ran => .inl ⟨s, rfl, ran⟩
      · rintro (⟨middle, same, ran⟩ | ⟨same, stops⟩)
        · cases same
          exact ran
        · exact absurd (Option.some.inj same).symm (stops s)
  | cons line before ih =>
      rw [List.cons_append, each_cons]
      constructor
      · rintro (⟨mid, ran, later⟩ | ⟨ran, stops⟩)
        · rcases ih.mp later with ⟨middle, first, second⟩ | ⟨first, stops⟩
          · exact .inl ⟨middle, each_cons.mpr (.inl ⟨mid, ran, first⟩), second⟩
          · exact .inr ⟨each_cons.mpr (.inl ⟨mid, ran, first⟩), stops⟩
        · exact .inr ⟨each_cons.mpr (.inr ⟨ran, stops⟩), stops⟩
      · rintro (⟨middle, first, second⟩ | ⟨first, stops⟩)
        · rcases each_cons.mp first with ⟨mid, ran, first⟩ | ⟨-, stops⟩
          · exact .inl ⟨mid, ran, ih.mpr (.inl ⟨middle, first, second⟩)⟩
          · exact absurd rfl (stops middle)
        · rcases each_cons.mp first with ⟨mid, ran, first⟩ | ⟨ran, stops⟩
          · exact .inl ⟨mid, ran, ih.mpr (.inr ⟨first, stops⟩)⟩
          · exact .inr ⟨ran, stops⟩

theorem each_keeps {script : List Line} (keeps : ∀ s line ending, run s line = some ending → other s line = some ending)
    (ran : each run s script = some ending) : each other s script = some ending := by
  induction script generalizing s with
  | nil => exact ran
  | cons line rest ih =>
      rcases each_cons.mp ran with ⟨after, first, later⟩ | ⟨first, stops⟩
      · exact each_cons.mpr (.inl ⟨after, keeps _ _ _ first, ih later⟩)
      · exact each_cons.mpr (.inr ⟨keeps _ _ _ first, stops⟩)

end Depth

section Language
variable {meaning : State → Line → Verdict Line State Error} {s : State} {ending : Ending State Error}
variable {depth deeper : Nat} {line : Line} {script before after : List Line} {closes : State → Option State}

theorem handle_succ (ran : handle meaning depth s line = some ending) :
    handle meaning (depth + 1) s line = some ending := by
  induction depth generalizing s line ending with
  | zero => cases ran
  | succ depth ih =>
      rw [handle] at ran ⊢
      cases what : meaning s line with
      | opens script closes =>
          simp only [what] at ran ⊢
          obtain ⟨inner, came, closed⟩ := Option.bind_eq_some_iff.mp ran
          exact Option.bind_eq_some_iff.mpr ⟨inner, each_keeps (fun _ _ _ => ih) came, closed⟩
      | _ => simpa only [what] using ran

theorem handle_deeper (below : depth ≤ deeper) (ran : handle meaning depth s line = some ending) :
    handle meaning deeper s line = some ending := by
  induction below with
  | refl => exact ran
  | step _ ih => exact handle_succ ih

theorem each_deeper (below : depth ≤ deeper) (ran : each (handle meaning depth) s script = some ending) :
    each (handle meaning deeper) s script = some ending :=
  each_keeps (fun _ _ _ => handle_deeper below) ran

theorem returns_once {other : Ending State Error} (first : Returns meaning s script ending)
    (second : Returns meaning s script other) : ending = other := by
  obtain ⟨depth, first⟩ := first
  obtain ⟨deeper, second⟩ := second
  have atFirst := each_deeper (Nat.le_max_left depth deeper) first
  have atSecond := each_deeper (Nat.le_max_right depth deeper) second
  exact Option.some.inj (atFirst.symm.trans atSecond)

theorem returns_nil : Returns meaning s [] ending ↔ ending = .through s :=
  ⟨fun ⟨_, ran⟩ => (Option.some.inj ran).symm, fun same => ⟨0, congrArg some same.symm⟩⟩

theorem returns_append : Returns meaning s (before ++ after) ending ↔
    (∃ middle, Returns meaning s before (.through middle) ∧ Returns meaning middle after ending) ∨
      (Returns meaning s before ending ∧ ending.Stops) := by
  constructor
  · rintro ⟨depth, ran⟩
    rcases each_append.mp ran with ⟨middle, first, second⟩ | ⟨first, stops⟩
    · exact .inl ⟨middle, ⟨depth, first⟩, ⟨depth, second⟩⟩
    · exact .inr ⟨⟨depth, first⟩, stops⟩
  · rintro (⟨middle, ⟨depth, first⟩, ⟨deeper, second⟩⟩ | ⟨⟨depth, first⟩, stops⟩)
    · exact ⟨max depth deeper, each_append.mpr (.inl ⟨middle, each_deeper (Nat.le_max_left ..) first,
        each_deeper (Nat.le_max_right ..) second⟩)⟩
    · exact ⟨depth, each_append.mpr (.inr ⟨first, stops⟩)⟩

theorem each_single {run : State → Line → Option (Ending State Error)} :
    each run s [line] = some ending ↔ run s line = some ending := by
  rw [each_cons]
  constructor
  · rintro (⟨after, ran, same⟩ | ⟨ran, -⟩)
    · exact ran.trans same
    · exact ran
  · intro ran
    cases ending with
    | through after => exact .inl ⟨after, ran, rfl⟩
    | left after => exact .inr ⟨ran, by simp [Ending.Stops]⟩
    | failed error => exact .inr ⟨ran, by simp [Ending.Stops]⟩

theorem returns_single : Returns meaning s [line] ending ↔ ∃ depth, handle meaning depth s line = some ending := by
  simp only [Returns, each_single]

theorem returns_proceeds {next : State} (what : meaning s line = .proceeds next) :
    Returns meaning s [line] ending ↔ ending = .through next := by
  rw [returns_single]
  constructor
  · rintro ⟨depth, ran⟩
    cases depth with
    | zero => cases ran
    | succ depth =>
        simp only [handle, what] at ran
        exact (Option.some.inj ran).symm
  · rintro rfl
    exact ⟨1, by simp only [handle, what]⟩

theorem returns_leaves {next : State} (what : meaning s line = .leaves next) :
    Returns meaning s [line] ending ↔ ending = .left next := by
  have leaves : Returns meaning s [line] (.left next) :=
    returns_single.mpr ⟨1, by simp only [handle, what]⟩
  exact ⟨fun returns => returns_once returns leaves, fun same => same ▸ leaves⟩

theorem returns_opens (what : meaning s line = .opens script closes) : Returns meaning s [line] ending ↔
    ∃ inner, Returns meaning s script inner ∧ inner.closed closes = some ending := by
  rw [returns_single]
  constructor
  · rintro ⟨depth, ran⟩
    cases depth with
    | zero => cases ran
    | succ depth =>
        simp only [handle, what] at ran
        obtain ⟨inner, came, closed⟩ := Option.bind_eq_some_iff.mp ran
        exact ⟨inner, ⟨depth, came⟩, closed⟩
  · rintro ⟨inner, ⟨depth, came⟩, closed⟩
    refine ⟨depth + 1, ?_⟩
    simp only [handle, what]
    exact Option.bind_eq_some_iff.mpr ⟨inner, came, closed⟩

theorem returns_same (same : ∀ middle ending, Returns meaning middle before ending ↔ Returns meaning middle after ending)
    (first last : List Line) : Returns meaning s (first ++ before ++ last) ending ↔
      Returns meaning s (first ++ after ++ last) ending := by
  simp only [returns_append, same]

/-! Scripts that open scripts without end. -/

/-- The command of the script that another one opens, and where it is reached. -/
def Calls (meaning : State → Line → Verdict Line State Error) (inner outer : State × Line) : Prop :=
  ∃ before after closes, meaning outer.1 outer.2 = .opens (before ++ inner.2 :: after) closes ∧
    Returns meaning outer.1 before (.through inner.1)

theorem handled_acc (ran : handle meaning depth s line = some ending) : Acc (Calls meaning) (s, line) := by
  induction depth generalizing s line ending with
  | zero => cases ran
  | succ depth ih =>
      refine Acc.intro _ ?_
      rintro ⟨reached, inner⟩ ⟨before, after, closes, what, first⟩
      simp only [handle, what] at ran
      obtain ⟨ending, opened, -⟩ := Option.bind_eq_some_iff.mp ran
      rcases each_append.mp opened with ⟨middle, came, later⟩ | ⟨came, stops⟩
      · -- The script comes to the inner command in one state only.
        have same := returns_once first ⟨depth, came⟩
        cases same
        rcases each_cons.mp later with ⟨_, handled, -⟩ | ⟨handled, -⟩
        · exact ih handled
        · exact ih handled
      · exact absurd (returns_once ⟨depth, came⟩ first) (stops reached)

theorem script_returns (calls : ∀ before inner after reached, script = before ++ inner :: after →
      Returns meaning s before (.through reached) → ∃ ending, Returns meaning reached [inner] ending)
    (whole : script = before ++ after) {reached : State} (came : Returns meaning s before (.through reached)) :
    ∃ ending, Returns meaning reached after ending := by
  induction after generalizing before reached with
  | nil => exact ⟨_, returns_nil.mpr rfl⟩
  | cons inner after ih =>
      obtain ⟨ending, handled⟩ := calls before inner after reached whole came
      by_cases stops : ending.Stops
      · exact ⟨ending, returns_append.mpr (.inr ⟨handled, stops⟩)⟩
      · obtain ⟨next, rfl⟩ : ∃ next, ending = .through next := by
          simpa only [Ending.Stops, not_forall, not_not] using stops
        have whole' : script = before ++ [inner] ++ after := by rw [whole, List.append_assoc]; rfl
        obtain ⟨last, later⟩ := ih whole' (returns_append.mpr (.inl ⟨reached, came, handled⟩))
        exact ⟨last, returns_append.mpr (.inl ⟨next, handled, later⟩)⟩

structure Steady (meaning : State → Line → Verdict Line State Error) : Prop where
  comes : ∀ s line, meaning s line ≠ .stalls
  closes : ∀ s line script closes, meaning s line = .opens script closes → ∀ after, ∃ closed, closes after = some closed

theorem closed_some (inner : Ending State Error) (closes : State → Option State)
    (steady : ∀ after, ∃ closed, closes after = some closed) : ∃ ending, inner.closed closes = some ending := by
  cases inner with
  | through after =>
      obtain ⟨closed, same⟩ := steady after
      exact ⟨.through closed, by rw [Ending.closed, same]; rfl⟩
  | left after =>
      obtain ⟨closed, same⟩ := steady after
      exact ⟨.left closed, by rw [Ending.closed, same]; rfl⟩
  | failed error => exact ⟨_, rfl⟩

/-- Where nothing stalls, a command comes to an end exactly if scripts do not open scripts forever. -/
theorem returns_iff_acc (steady : Steady meaning) :
    (∃ ending, Returns meaning s [line] ending) ↔ Acc (Calls meaning) (s, line) := by
  constructor
  · rintro ⟨ending, returns⟩
    obtain ⟨depth, ran⟩ := returns_single.mp returns
    exact handled_acc ran
  · intro acc
    generalize same : (s, line) = at_ at acc
    induction acc generalizing s line with
    | intro _ _ ih =>
        subst same
        cases what : meaning s line with
        | proceeds next => exact ⟨_, (returns_proceeds what).mpr rfl⟩
        | leaves next => exact ⟨_, (returns_leaves what).mpr rfl⟩
        | fails error => exact ⟨.failed error, returns_single.mpr ⟨1, by simp only [handle, what]⟩⟩
        | stalls => exact absurd what (steady.comes s line)
        | opens script closes =>
            have calls : ∀ before inner after reached, script = before ++ inner :: after →
                Returns meaning s before (.through reached) → ∃ ending, Returns meaning reached [inner] ending :=
              fun before inner after reached whole came =>
                ih (reached, inner) ⟨before, after, closes, by rw [what, whole], came⟩ rfl
            obtain ⟨inner, returns⟩ :=
              script_returns calls (List.nil_append script).symm (returns_nil.mpr rfl)
            obtain ⟨ending, closed⟩ := closed_some inner closes (steady.closes s line script closes what)
            exact ⟨ending, (returns_opens what).mpr ⟨inner, returns, closed⟩⟩

end Language

/-! Commands over a view of the state. -/

section Views
variable {Seen : Type} {view : State → Seen}

def Ending.map (view : State → Seen) : Ending State Error → Ending Seen Error
  | .through after => .through (view after)
  | .left after => .left (view after)
  | .failed error => .failed error

/-- A command comes to the same over the view, as long as it does not stall. -/
inductive Viewed (view : State → Seen) : Verdict Line State Error → Verdict Line Seen Error → Prop where
  | proceeds (after : State) : Viewed view (.proceeds after) (.proceeds (view after))
  | leaves (after : State) : Viewed view (.leaves after) (.leaves (view after))
  | opens (script : List Line) {closes : State → Option State} {shuts : Seen → Option Seen}
      (same : ∀ after closed, closes after = some closed → shuts (view after) = some (view closed)) :
      Viewed view (.opens script closes) (.opens script shuts)
  | fails (error : Error) : Viewed view (.fails error) (.fails error)
  | stalls (seen : Verdict Line Seen Error) : Viewed view .stalls seen

theorem closed_viewed {closes : State → Option State} {shuts : Seen → Option Seen} {inner ending : Ending State Error}
    (same : ∀ after closed, closes after = some closed → shuts (view after) = some (view closed))
    (closed : inner.closed closes = some ending) : (inner.map view).closed shuts = some (ending.map view) := by
  cases inner with
  | through after =>
      obtain ⟨next, found, rfl⟩ := Option.map_eq_some_iff.mp closed
      exact Option.map_eq_some_iff.mpr ⟨_, same after next found, rfl⟩
  | left after =>
      obtain ⟨next, found, rfl⟩ := Option.map_eq_some_iff.mp closed
      exact Option.map_eq_some_iff.mpr ⟨_, same after next found, rfl⟩
  | failed error =>
      cases closed
      rfl

theorem stops_viewed {ending : Ending State Error} : (ending.map view).Stops ↔ ending.Stops := by
  cases ending with
  | through after => simp [Ending.Stops, Ending.map]
  | left after => simp [Ending.Stops, Ending.map]
  | failed error => simp [Ending.Stops, Ending.map]

variable {meaning : State → Line → Verdict Line State Error} {seen : Seen → Line → Verdict Line Seen Error}
variable {s : State} {line : Line} {script : List Line} {ending : Ending State Error} {depth : Nat}

theorem each_viewed {run : State → Line → Option (Ending State Error)} {shown : Seen → Line → Option (Ending Seen Error)}
    (viewed : ∀ s line ending, run s line = some ending → shown (view s) line = some (ending.map view))
    (ran : each run s script = some ending) : each shown (view s) script = some (ending.map view) := by
  induction script generalizing s with
  | nil =>
      cases ran
      rfl
  | cons line rest ih =>
      rcases each_cons.mp ran with ⟨after, first, later⟩ | ⟨first, stops⟩
      · exact each_cons.mpr (.inl ⟨view after, viewed _ _ _ first, ih later⟩)
      · exact each_cons.mpr (.inr ⟨viewed _ _ _ first, stops_viewed.mpr stops⟩)

theorem handle_viewed (viewed : ∀ s line, Viewed view (meaning s line) (seen (view s) line))
    (ran : handle meaning depth s line = some ending) : handle seen depth (view s) line = some (ending.map view) := by
  induction depth generalizing s line ending with
  | zero => cases ran
  | succ depth ih =>
      have verdict := viewed s line
      rw [handle] at ran ⊢
      generalize seen (view s) line = shown at verdict ⊢
      generalize meaning s line = what at verdict ran
      cases verdict with
      | proceeds after =>
          cases ran
          rfl
      | leaves after =>
          cases ran
          rfl
      | opens script same =>
          obtain ⟨inner, came, closed⟩ := Option.bind_eq_some_iff.mp ran
          have shown := each_viewed (fun _ _ _ => ih) came
          exact Option.bind_eq_some_iff.mpr ⟨_, shown, closed_viewed same closed⟩
      | fails error =>
          cases ran
          rfl
      | stalls => cases ran

theorem returns_viewed (viewed : ∀ s line, Viewed view (meaning s line) (seen (view s) line))
    (returns : Returns meaning s script ending) : Returns seen (view s) script (ending.map view) :=
  returns.imp fun _ ran => each_viewed (fun _ _ _ => handle_viewed viewed) ran

theorem each_seen {run : State → Line → Option (Ending State Error)} {shown : Seen → Line → Option (Ending Seen Error)}
    (comes : ∀ s line ending, shown (view s) line = some ending → ∃ full, run s line = some full ∧ full.map view = ending)
    {ending : Ending Seen Error} (ran : each shown (view s) script = some ending) :
    ∃ full, each run s script = some full ∧ full.map view = ending := by
  induction script generalizing s with
  | nil => exact ⟨.through s, rfl, Option.some.inj ran⟩
  | cons line rest ih =>
      rcases each_cons.mp ran with ⟨after, first, later⟩ | ⟨first, stops⟩
      · obtain ⟨full, handled, same⟩ := comes _ _ _ first
        cases full with
        | through next =>
            cases same
            obtain ⟨last, came, same⟩ := ih later
            exact ⟨last, each_cons.mpr (.inl ⟨next, handled, came⟩), same⟩
        | left next => cases same
        | failed error => cases same
      · obtain ⟨full, handled, rfl⟩ := comes _ _ _ first
        exact ⟨full, each_cons.mpr (.inr ⟨handled, stops_viewed.mp stops⟩), rfl⟩

theorem handle_seen (viewed : ∀ s line, Viewed view (meaning s line) (seen (view s) line)) (steady : Steady meaning)
    {ending : Ending Seen Error} (ran : handle seen depth (view s) line = some ending) :
    ∃ full, handle meaning depth s line = some full ∧ full.map view = ending := by
  induction depth generalizing s line ending with
  | zero => cases ran
  | succ depth ih =>
      have verdict := viewed s line
      have comes := steady.comes s line
      have shuts := steady.closes s line
      rw [handle] at ran ⊢
      generalize seen (view s) line = shown at verdict ran
      generalize meaning s line = what at verdict comes shuts ⊢
      cases verdict with
      | proceeds after => exact ⟨_, rfl, Option.some.inj ran⟩
      | leaves after => exact ⟨_, rfl, Option.some.inj ran⟩
      | opens script same =>
          obtain ⟨inner, came, closed⟩ := Option.bind_eq_some_iff.mp ran
          obtain ⟨full, ran, rfl⟩ := each_seen (fun _ _ _ => ih) came
          obtain ⟨ending, shut⟩ := closed_some full _ (shuts _ _ rfl)
          refine ⟨ending, Option.bind_eq_some_iff.mpr ⟨full, ran, shut⟩, ?_⟩
          exact Option.some.inj ((closed_viewed same shut).symm.trans closed)
      | fails error => exact ⟨_, rfl, Option.some.inj ran⟩
      | stalls => exact absurd rfl comes

/-- Where nothing stalls, the endings over the view are the views of the endings. -/
theorem returns_seen (viewed : ∀ s line, Viewed view (meaning s line) (seen (view s) line)) (steady : Steady meaning)
    {ending : Ending Seen Error} : Returns seen (view s) script ending ↔
      ∃ full, Returns meaning s script full ∧ full.map view = ending := by
  constructor
  · rintro ⟨depth, ran⟩
    obtain ⟨full, ran, same⟩ := each_seen (fun _ _ _ => handle_seen viewed steady) ran
    exact ⟨full, ⟨depth, ran⟩, same⟩
  · rintro ⟨full, returns, rfl⟩
    exact returns_viewed viewed returns

end Views

end VmSim.Scripts
