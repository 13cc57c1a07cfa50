import Mathlib.Data.List.TakeWhile

/-!
Texts read by a format: white space that may be missing, letters that have to be there
and numbers. The scan takes as much white space and as many digits as there are, so what
a text must look like depends on what comes behind it; the grammar says so at each place.
-/

namespace VmSim.Formats

inductive Directive (Letter : Type) where
  | blank (c : Letter)
  | letter (c : Letter)
  | number
  deriving DecidableEq, Repr

variable {Letter Value : Type}

/-- The scan of a format: the numbers, and where it stops; `none` where it breaks off. -/
def scan [DecidableEq Letter] (space : Letter → Bool) (number : List Letter → Option (Value × List Letter)) :
    List (Directive Letter) → List Letter → Option (List Value × List Letter)
  | [], stream => some ([], stream)
  | .blank _ :: format, stream => scan space number format (stream.dropWhile space)
  | .letter _ :: _, [] => none
  | .letter c :: format, d :: stream => if c = d then scan space number format stream else none
  | .number :: format, stream =>
      (number (stream.dropWhile space)).bind fun read =>
        (scan space number format read.2).map fun later => (read.1 :: later.1, later.2)

def Ends (kind : Letter → Bool) (text : List Letter) : Prop := ∀ c, text.head? = some c → kind c = false

/-- The texts of a format, in front of what comes behind them. -/
inductive Reads (space digit : Letter → Bool) (Numeral : List Letter → Value → Prop) (rest : List Letter) :
    List (Directive Letter) → List Letter → List Value → Prop where
  | done : Reads space digit Numeral rest [] [] []
  | blank {format text xs c} (gap : List Letter) : (∀ c ∈ gap, space c = true) → Ends space (text ++ rest) →
      Reads space digit Numeral rest format text xs → Reads space digit Numeral rest (.blank c :: format) (gap ++ text) xs
  | letter {format text xs} (c : Letter) : Reads space digit Numeral rest format text xs →
      Reads space digit Numeral rest (.letter c :: format) (c :: text) xs
  | number {format text xs x} (gap numeral : List Letter) : (∀ c ∈ gap, space c = true) → Numeral numeral x →
      Ends digit (text ++ rest) → Reads space digit Numeral rest format text xs →
      Reads space digit Numeral rest (.number :: format) (gap ++ numeral ++ text) (x :: xs)

theorem drop_gap {space : Letter → Bool} {gap text : List Letter} (all : ∀ c ∈ gap, space c = true) (ends : Ends space text) :
    (gap ++ text).dropWhile space = text := by
  rw [List.dropWhile_append_of_pos all]
  cases text with
  | nil => rfl
  | cons c text => rw [List.dropWhile_cons_of_neg (by simp [ends c rfl])]

theorem gap_splits (space : Letter → Bool) (stream : List Letter) : ∃ gap, stream = gap ++ stream.dropWhile space ∧
    (∀ c ∈ gap, space c = true) ∧ Ends space (stream.dropWhile space) := by
  refine ⟨stream.takeWhile space, List.takeWhile_append_dropWhile.symm, fun c => List.mem_takeWhile_imp, ?_⟩
  intro c head
  have first := List.head?_dropWhile_not space stream
  rw [head] at first
  exact first

section Scan
variable [DecidableEq Letter] {space digit : Letter → Bool} {Numeral : List Letter → Value → Prop}
  {number : List Letter → Option (Value × List Letter)}
  {format : List (Directive Letter)} {stream rest : List Letter} {xs : List Value}

theorem scan_append (later : List (Directive Letter)) : scan space number (format ++ later) stream =
    (scan space number format stream).bind fun read =>
      (scan space number later read.2).map fun others => (read.1 ++ others.1, others.2) := by
  induction format generalizing stream with
  | nil =>
      rw [List.nil_append, scan, Option.bind_some]
      cases scan space number later stream <;> rfl
  | cons directive format ih =>
      cases directive with
      | blank c => exact ih
      | letter c =>
          cases stream with
          | nil => rfl
          | cons d stream =>
              rw [List.cons_append, scan, scan]
              split
              · exact ih
              · rfl
      | number =>
          rw [List.cons_append, scan, scan]
          cases number (stream.dropWhile space) with
          | none => rfl
          | some read =>
              rw [Option.bind_some, Option.bind_some, ih]
              cases scan space number format read.2 with
              | none => rfl
              | some first =>
                  rw [Option.bind_some, Option.map_some, Option.bind_some, Option.map_map]
                  rfl

theorem scan_iff
    (numbers : ∀ stream x rest, Ends space stream → (number stream = some (x, rest) ↔
      ∃ numeral, stream = numeral ++ rest ∧ Numeral numeral x ∧ Ends digit rest))
    (solid : ∀ numeral x, Numeral numeral x → numeral ≠ [] ∧ Ends space numeral) :
    scan space number format stream = some (xs, rest) ↔
      ∃ text, stream = text ++ rest ∧ Reads space digit Numeral rest format text xs := by
  constructor
  · intro scanned
    induction format generalizing stream xs with
    | nil =>
        cases scanned
        exact ⟨[], rfl, .done⟩
    | cons directive format ih =>
        cases directive with
        | blank c =>
            obtain ⟨gap, split, all, ends⟩ := gap_splits space stream
            obtain ⟨text, same, reads⟩ := ih scanned
            rw [same] at split ends
            exact ⟨gap ++ text, by rw [split, List.append_assoc], .blank gap all ends reads⟩
        | letter c =>
            cases stream with
            | nil => cases scanned
            | cons d stream =>
                rw [scan] at scanned
                split at scanned
                · rename_i same
                  subst same
                  obtain ⟨text, same, reads⟩ := ih scanned
                  exact ⟨c :: text, by rw [same]; rfl, .letter c reads⟩
                · cases scanned
        | number =>
            obtain ⟨gap, split, all, begins⟩ := gap_splits space stream
            obtain ⟨⟨x, later⟩, taken, mapped⟩ := Option.bind_eq_some_iff.mp scanned
            obtain ⟨⟨others, last⟩, behind, same⟩ := Option.map_eq_some_iff.mp mapped
            cases same
            obtain ⟨numeral, here, valid, ends⟩ := (numbers _ _ _ begins).mp taken
            obtain ⟨text, same, reads⟩ := ih behind
            have same : later = text ++ last := same
            subst same
            rw [here] at split
            exact ⟨gap ++ numeral ++ text, by rw [split]; simp, .number gap numeral all valid ends reads⟩
  · rintro ⟨text, rfl, reads⟩
    induction reads with
    | done => rfl
    | blank gap all ends _ ih =>
        rw [scan, List.append_assoc, drop_gap all ends]
        exact ih
    | letter c _ ih => rw [List.cons_append, scan, if_pos rfl, ih]
    | @number format text xs x gap numeral all valid ends _ ih =>
        obtain ⟨filled, begins⟩ := solid numeral x valid
        have solid' : Ends space (numeral ++ (text ++ rest)) := by
          intro c head
          obtain ⟨first, others, rfl⟩ := List.exists_cons_of_ne_nil filled
          exact begins c head
        have taken : number (numeral ++ (text ++ rest)) = some (x, text ++ rest) :=
          (numbers _ _ _ solid').mpr ⟨numeral, rfl, valid, ends⟩
        rw [scan, List.append_assoc, List.append_assoc, drop_gap all solid', taken, Option.bind_some]
        dsimp only
        rw [ih]
        rfl

end Scan

/-! Texts that are written as the format has them. -/

/-- The format's own letters, and numerals in the places of its numbers. -/
def fill (numeral : Value → List Letter) : List (Directive Letter) → List Value → List Letter
  | [], _ => []
  | .blank c :: format, xs => c :: fill numeral format xs
  | .letter c :: format, xs => c :: fill numeral format xs
  | .number :: format, [] => fill numeral format []
  | .number :: format, x :: xs => numeral x ++ fill numeral format xs

/-- What stands side by side in a format can be told apart in its texts. -/
def separable (space digit : Letter → Bool) : List (Directive Letter) → Bool
  | [] => true
  | .letter c :: format => !space c && !digit c && separable space digit format
  | .blank _ :: [] => false
  | .blank _ :: .blank _ :: _ => false
  | .blank c :: format => space c && !digit c && separable space digit format
  | .number :: .number :: _ => false
  | .number :: format => separable space digit format

def numberCount : List (Directive Letter) → Nat
  | [] => 0
  | .number :: format => numberCount format + 1
  | _ :: format => numberCount format

section Fill
variable {space digit : Letter → Bool} {Numeral : List Letter → Value → Prop} {numeral : Value → List Letter}
  {format : List (Directive Letter)} {rest : List Letter} {xs : List Value}

theorem numeral_ends {kind : Letter → Bool} {text later : List Letter} (filled : text ≠ []) (ends : Ends kind text) :
    Ends kind (text ++ later) := by
  obtain ⟨c, others, rfl⟩ := List.exists_cons_of_ne_nil filled
  exact fun d head => ends d head

theorem separable_rest {directive : Directive Letter} (apart : separable space digit (directive :: format) = true) :
    separable space digit format = true := by
  cases directive with
  | letter c =>
      simp only [separable, Bool.and_eq_true] at apart
      exact apart.2
  | blank c =>
      cases format with
      | nil => rfl
      | cons next format =>
          cases next with
          | blank d => cases apart
          | letter d => exact (Bool.and_eq_true_iff.mp apart).2
          | number => exact (Bool.and_eq_true_iff.mp apart).2
  | number =>
      cases format with
      | nil => rfl
      | cons next format =>
          cases next with
          | number => cases apart
          | letter d => exact apart
          | blank d => exact apart

theorem blank_letter {c : Letter} (apart : separable space digit (.blank c :: format) = true) :
    space c = true ∧ digit c = false := by
  cases format with
  | nil => cases apart
  | cons next format =>
      cases next with
      | blank d => cases apart
      | letter d => simpa using (Bool.and_eq_true_iff.mp apart).1
      | number => simpa using (Bool.and_eq_true_iff.mp apart).1

theorem plain_letter {c : Letter} (apart : separable space digit (.letter c :: format) = true) :
    space c = false ∧ digit c = false := by
  simpa using (Bool.and_eq_true_iff.mp apart).1

theorem after_blank {c : Letter} (solid : ∀ x, numeral x ≠ [] ∧ Ends space (numeral x))
    (apart : separable space digit (.blank c :: format) = true) (counted : numberCount format = xs.length) :
    Ends space (fill numeral format xs ++ rest) := by
  have later := separable_rest apart
  cases format with
  | nil => cases apart
  | cons next format =>
      cases next with
      | blank d => cases apart
      | letter d =>
          intro e head
          cases head
          exact (plain_letter later).1
      | number =>
          cases xs with
          | nil => cases counted
          | cons x xs =>
              change Ends space (numeral x ++ fill numeral format xs ++ rest)
              rw [List.append_assoc]
              exact numeral_ends (solid x).1 (solid x).2

theorem after_number (apart : separable space digit (.number :: format) = true) (ends : Ends digit rest) :
    Ends digit (fill numeral format xs ++ rest) := by
  have later := separable_rest apart
  cases format with
  | nil => exact ends
  | cons next format =>
      intro e head
      cases next with
      | number => cases apart
      | letter d =>
          cases head
          exact (plain_letter later).2
      | blank d =>
          cases head
          exact (blank_letter later).2

theorem fill_reads (valid : ∀ x, Numeral (numeral x) x) (solid : ∀ x, numeral x ≠ [] ∧ Ends space (numeral x))
    (apart : separable space digit format = true) (counted : numberCount format = xs.length)
    (ends : Ends digit rest) : Reads space digit Numeral rest format (fill numeral format xs) xs := by
  induction format generalizing xs with
  | nil =>
      rw [List.eq_nil_of_length_eq_zero counted.symm]
      exact .done
  | cons directive format ih =>
      have later := separable_rest apart
      cases directive with
      | letter c => exact .letter c (ih later counted)
      | blank c =>
          have gap : ∀ d ∈ [c], space d = true := by simpa using (blank_letter apart).1
          exact .blank [c] gap (after_blank solid apart counted) (ih later counted)
      | number =>
          cases xs with
          | nil => cases counted
          | cons x xs =>
              have counted : numberCount format = xs.length := Nat.succ.inj counted
              exact .number [] (numeral x) (by simp) (valid x) (after_number apart ends) (ih later counted)

end Fill

end VmSim.Formats
