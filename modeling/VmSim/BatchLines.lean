import Mathlib.Data.List.TakeWhile
import VmSim.CommandLine

/-!
How vmsim/ui_app.c cuts a line into a command and its parameter: `get_command`
at the prompt and `do_batch_file` for the lines of a file. The prompt reads on
where `scanf` has stopped, the batch file counts the length of the command from
the start of the line. The accesses of `do_batch_file` to its buffers are listed
as they are made; an index may be negative where a `strlen` is 0.
-/

namespace VmSim.CommandLine

def maxCmdLen : Nat := 14

/-- `ui_cmd_t`, each array as the string in it. -/
structure UiCmd where
  command : List BYTE
  param : List BYTE
  deriving DecidableEq, Repr

def takeLine : Nat → List BYTE → List BYTE × List BYTE
  | 0, stream => ([], stream)
  | _ + 1, [] => ([], [])
  | n + 1, c :: rest =>
      if c = 10 then ([c], rest)
      else
        let (line, rest) := takeLine n rest
        (c :: line, rest)

def fgets (size : Nat) (stream : List BYTE) : Option (List BYTE × List BYTE) :=
  let read := takeLine (size - 1) stream
  if read.1 = [] then none else some read

def cString (buffer : List BYTE) : List BYTE := buffer.takeWhile fun c => c ≠ 0

def scanWord (text : List BYTE) : List BYTE × List BYTE :=
  let text := text.dropWhile isSpace
  let word := (text.takeWhile fun c => !isSpace c).take maxCmdLen
  (word, text.drop word.length)

/-- `if (s[strlen(s) - 1] == '\n') s[strlen(s) - 1] = '\0'`. What lies before an empty
string is never part of it. -/
def stripNewline (s : List BYTE) : List BYTE := if s.getLast? = some 10 then s.dropLast else s

def getCommand (stdin : List BYTE) : UiCmd × List BYTE :=
  let (command, rest) := scanWord stdin
  match rest with
  | [] => (⟨cString command, []⟩, [])
  | sep :: rest =>
      if sep = 10 then (⟨cString command, []⟩, rest)
      else
        match fgets filenameMax rest with
        | none => (⟨cString command, []⟩, rest)
        | some (param, rest) => (⟨cString command, stripNewline (cString param)⟩, rest)

inductive Buffer where
  | rawCmd
  | command
  | param
  deriving DecidableEq, Repr

def Buffer.size : Buffer → Nat
  | .rawCmd => maxCmdLen + 1 + filenameMax
  | .command => maxCmdLen + 1
  | .param => filenameMax

/-- `count` cells of a buffer from an index on. -/
structure Access where
  buffer : Buffer
  index : Int
  count : Nat
  deriving DecidableEq, Repr

def Access.Inside (access : Access) : Prop :=
  0 ≤ access.index ∧ access.index + access.count ≤ access.buffer.size

structure Split where
  cmd : UiCmd
  accesses : List Access

/-- The body of the loop of `do_batch_file` for a line that `fgets` has read. -/
def splitLine (read : List BYTE) : Split :=
  let line := cString read
  let raw := stripNewline line
  let word := (scanWord raw).1
  let rawFor := raw.drop (word.length + 1)
  let differ := raw ≠ word
  { cmd := ⟨stripNewline word, if differ then stripNewline rawFor else []⟩
    accesses :=
      [ ⟨.rawCmd, 0, read.length + 1⟩, ⟨.rawCmd, line.length - 1, 1⟩,
        ⟨.command, 0, maxCmdLen + 1⟩, ⟨.param, 0, filenameMax⟩,
        -- `sscanf` and `strcmp`
        ⟨.rawCmd, 0, raw.length + 1⟩, ⟨.command, 0, word.length + 1⟩ ] ++
      (if differ then
        [ ⟨.rawCmd, word.length + 1, rawFor.length + 1⟩, ⟨.param, 0, rawFor.length⟩,
          ⟨.param, 0, rawFor.length + 1⟩, ⟨.param, rawFor.length - 1, 1⟩ ]
      else []) ++
      [⟨.command, word.length - 1, 1⟩] }

def batchCommand (file : List BYTE) : Option UiCmd :=
  (fgets Buffer.rawCmd.size file).map fun read => (splitLine read.1).cmd

/-! Words and lines. -/

theorem scan_word_splits (text : List BYTE) :
    text = text.takeWhile isSpace ++ (scanWord text).1 ++ (scanWord text).2 := by
  have prefix_ : (scanWord text).1 <+: text.dropWhile isSpace :=
    (List.take_prefix ..).trans (List.takeWhile_prefix _)
  have rest : (scanWord text).1 ++ (scanWord text).2 = text.dropWhile isSpace := by
    obtain ⟨behind, same⟩ := prefix_
    have dropped : (scanWord text).2 = (text.dropWhile isSpace).drop (scanWord text).1.length := rfl
    rw [dropped, ← same, List.drop_left]
  rw [List.append_assoc, rest, List.takeWhile_append_dropWhile]

theorem scan_word_short (text : List BYTE) : (scanWord text).1.length ≤ maxCmdLen := by
  simp only [scanWord, List.length_take]
  omega

theorem scan_word_solid {text : List BYTE} {c : BYTE} (member : c ∈ (scanWord text).1) :
    isSpace c = false := by
  have inside := List.mem_of_mem_take member
  simpa using List.mem_takeWhile_imp inside

theorem solid_head {text : List BYTE} (solid : ∃ c ∈ text, isSpace c = false) :
    ∃ c rest, text.dropWhile isSpace = c :: rest ∧ isSpace c = false := by
  obtain ⟨c, member, solid⟩ := solid
  cases behind : text.dropWhile isSpace with
  | nil =>
      have spaces := List.dropWhile_eq_nil_iff.mp behind c member
      rw [solid] at spaces
      cases spaces
  | cons first rest =>
      have head := List.head?_dropWhile_not isSpace text
      rw [behind] at head
      exact ⟨first, rest, rfl, head⟩

theorem scan_word_some {text : List BYTE} : (scanWord text).1 ≠ [] ↔ ∃ c ∈ text, isSpace c = false := by
  constructor
  · intro found
    obtain ⟨c, member⟩ := List.exists_mem_of_ne_nil _ found
    refine ⟨c, ?_, scan_word_solid member⟩
    rw [scan_word_splits text]
    simp [member]
  · intro solid
    obtain ⟨c, rest, behind, solid⟩ := solid_head solid
    simp [scanWord, behind, solid, maxCmdLen]

theorem take_while_append {text ending : List BYTE}
    (ends : ∀ c, ending.head? = some c → isSpace c = true) :
    ((text ++ ending).takeWhile fun c => !isSpace c) = text.takeWhile fun c => !isSpace c := by
  have nothing : (ending.takeWhile fun c => !isSpace c) = [] := by
    cases ending with
    | nil => rfl
    | cons c rest => simp [ends c rfl]
  rw [List.takeWhile_append, nothing, List.append_nil]
  split
  · rename_i whole
    exact ((List.takeWhile_prefix _).eq_of_length whole).symm
  · rfl

theorem scan_word_append {text ending : List BYTE} (solid : ∃ c ∈ text, isSpace c = false)
    (ends : ∀ c, ending.head? = some c → isSpace c = true) :
    scanWord (text ++ ending) = ((scanWord text).1, (scanWord text).2 ++ ending) := by
  obtain ⟨c, rest, behind, -⟩ := solid_head solid
  have before : (text ++ ending).dropWhile isSpace = text.dropWhile isSpace ++ ending := by
    rw [List.dropWhile_append, behind]
    rfl
  have short : (scanWord text).1.length ≤ (text.dropWhile isSpace).length := by
    simp only [scanWord, List.length_take]
    exact Nat.le_trans (Nat.min_le_right ..) (List.takeWhile_prefix _).length_le
  have word : (scanWord (text ++ ending)).1 = (scanWord text).1 := by
    simp only [scanWord]
    rw [before, take_while_append ends]
  refine Prod.ext word ?_
  change ((text ++ ending).dropWhile isSpace).drop (scanWord (text ++ ending)).1.length = _
  rw [word, before, List.drop_append_of_le_length short]
  rfl

theorem take_line_whole {line ending : List BYTE} {n : Nat} (plain : ∀ c ∈ line, c ≠ 10)
    (ends : ∀ c, ending.head? = some c → c = 10) (fits : line.length ≤ n) :
    (takeLine n (line ++ ending)).1 = line ∨ (takeLine n (line ++ ending)).1 = line ++ [10] := by
  induction line generalizing n with
  | nil =>
      cases n with
      | zero => exact .inl rfl
      | succ n =>
          cases ending with
          | nil => exact .inl rfl
          | cons c rest => simp [takeLine, ends c rfl]
  | cons c line ih =>
      cases n with
      | zero => simp at fits
      | succ n =>
          have inner := ih (n := n) (fun c member => plain c (by simp [member]))
            (Nat.le_of_succ_le_succ fits)
          rw [List.cons_append, takeLine, if_neg (plain c (by simp))]
          simpa using inner

theorem strip_newline_plain {line : List BYTE} (plain : ∀ c ∈ line, c ≠ 10) :
    stripNewline line = line := by
  rw [stripNewline, if_neg]
  exact fun last => plain 10 (List.mem_of_getLast? last) rfl

theorem c_string_plain {line : List BYTE} (plain : ∀ c ∈ line, c ≠ 0) : cString line = line := by
  rw [cString, List.takeWhile_eq_self_iff]
  exact fun c member => decide_eq_true (plain c member)

theorem read_line_text {line ending : List BYTE} {n : Nat} (plain : ∀ c ∈ line, c ≠ 0 ∧ c ≠ 10)
    (ends : ∀ c, ending.head? = some c → c = 10) (fits : line.length ≤ n) :
    stripNewline (cString (takeLine n (line ++ ending)).1) = line := by
  rcases take_line_whole (fun c member => (plain c member).2) ends fits with whole | newline
  · rw [whole, c_string_plain fun c member => (plain c member).1]
    exact strip_newline_plain fun c member => (plain c member).2
  · have text : ∀ c ∈ line ++ [10], c ≠ (0 : BYTE) := by
      intro c member
      rcases List.mem_append.mp member with inside | last
      · exact (plain c inside).1
      · rw [List.mem_singleton.mp last]
        decide
    rw [newline, c_string_plain text]
    simp [stripNewline]

/-! The batch file against the prompt. -/

section Text
variable {line ending later : List BYTE}

theorem scan_word_text (text : ∀ c ∈ line, c ≠ 0 ∧ c ≠ 10) {c : BYTE}
    (member : c ∈ (scanWord line).1 ∨ c ∈ (scanWord line).2) : c ≠ 0 ∧ c ≠ 10 := by
  apply text c
  rw [scan_word_splits line]
  rcases member with inside | behind
  · simp [inside]
  · simp [behind]

theorem prompt_text (text : ∀ c ∈ line, c ≠ 0 ∧ c ≠ 10) (solid : ∃ c ∈ line, isSpace c = false)
    (paramFits : ((scanWord line).2.drop 1).length < filenameMax) :
    (getCommand (line ++ 10 :: later)).1 = ⟨(scanWord line).1, (scanWord line).2.drop 1⟩ := by
  have scanned : scanWord (line ++ 10 :: later) = ((scanWord line).1, (scanWord line).2 ++ 10 :: later) :=
    scan_word_append solid (by simp [isSpace])
  have word : cString (scanWord line).1 = (scanWord line).1 :=
    c_string_plain fun c member => (scan_word_text text (.inl member)).1
  cases tail : (scanWord line).2 with
  | nil => simp only [getCommand, scanned, tail, List.nil_append, if_true, word, List.drop_nil]
  | cons sep rest =>
      have plain : ∀ c ∈ rest, c ≠ 0 ∧ c ≠ 10 := fun c member =>
        scan_word_text text (.inr (by simp [tail, member]))
      have notNewline : sep ≠ 10 := (scan_word_text text (.inr (by simp [tail]))).2
      have fits : rest.length ≤ filenameMax - 1 := by
        rw [tail] at paramFits
        exact Nat.le_sub_one_of_lt paramFits
      have read : stripNewline (cString (takeLine (filenameMax - 1) (rest ++ 10 :: later)).1) = rest :=
        read_line_text plain (by simp) fits
      simp only [getCommand, scanned, tail, List.cons_append, if_neg notNewline, fgets, word]
      -- The prompt keeps the parameter read by fgets, or the empty one if there was none.
      by_cases nothing : (takeLine (filenameMax - 1) (rest ++ 10 :: later)).1 = []
      · rw [nothing] at read
        rw [if_pos nothing]
        exact congrArg _ read
      · rw [if_neg nothing]
        exact congrArg _ read

theorem batch_text (text : ∀ c ∈ line, c ≠ 0 ∧ c ≠ 10) (solid : ∃ c ∈ line, isSpace c = false)
    (ends : ∀ c, ending.head? = some c → c = 10) (lineFits : line.length < Buffer.rawCmd.size) :
    batchCommand (line ++ ending) =
      some ⟨(scanWord line).1, line.drop ((scanWord line).1.length + 1)⟩ := by
  have fits : line.length ≤ Buffer.rawCmd.size - 1 := Nat.le_sub_one_of_lt lineFits
  have read := read_line_text text ends fits
  have some : (takeLine (Buffer.rawCmd.size - 1) (line ++ ending)).1 ≠ [] := by
    intro nothing
    obtain ⟨c, member, -⟩ := solid
    rw [nothing] at read
    rw [← read] at member
    cases member
  have word : stripNewline (scanWord line).1 = (scanWord line).1 :=
    strip_newline_plain fun c member => (scan_word_text text (.inl member)).2
  have param : stripNewline (line.drop ((scanWord line).1.length + 1)) =
      line.drop ((scanWord line).1.length + 1) :=
    strip_newline_plain fun c member => (text c (List.mem_of_mem_drop member)).2
  have alone : line = (scanWord line).1 → line.drop ((scanWord line).1.length + 1) = [] := by
    intro same
    rw [← same]
    exact List.drop_eq_nil_of_le (Nat.le_succ _)
  have split : (splitLine (takeLine (Buffer.rawCmd.size - 1) (line ++ ending)).1).cmd =
      ⟨(scanWord line).1, line.drop ((scanWord line).1.length + 1)⟩ := by
    simp only [splitLine, read, word, param]
    -- A line that is its first word alone has no parameter to copy.
    by_cases same : line = (scanWord line).1
    · rw [if_neg (not_not.mpr same), alone same]
    · rw [if_pos same]
  simp [batchCommand, fgets, some, split]

/-- No white space before the word, or one character beside it. -/
def Aligned (line : List BYTE) : Prop :=
  (∀ c, line.head? = some c → isSpace c = false) ∨ line.length = (scanWord line).1.length + 1

/-- For a text line the batch file and the prompt agree exactly if the word stands at the
start of the line, or there is no parameter that a single blank could shift. -/
theorem lines_agree_iff (line ending later : List BYTE) (text : ∀ c ∈ line, c ≠ 0 ∧ c ≠ 10)
    (solid : ∃ c ∈ line, isSpace c = false) (ends : ∀ c, ending.head? = some c → c = 10)
    (lineFits : line.length < Buffer.rawCmd.size)
    (paramFits : ((scanWord line).2.drop 1).length < filenameMax) :
    batchCommand (line ++ ending) = some (getCommand (line ++ 10 :: later)).1 ↔ Aligned line := by
  rw [batch_text text solid ends lineFits, prompt_text text solid paramFits]
  have split := scan_word_splits line
  have blanks : (line.takeWhile isSpace).length = 0 ↔ ∀ c, line.head? = some c → isSpace c = false := by
    cases line with
    | nil => simp
    | cons c rest => cases space : isSpace c <;> simp [space]
  have total := congrArg List.length split
  rw [List.length_append, List.length_append] at total
  have rest : (scanWord line).2.drop 1 =
      line.drop ((line.takeWhile isSpace ++ (scanWord line).1).length + 1) := by
    refine Eq.symm ?_
    calc line.drop ((line.takeWhile isSpace ++ (scanWord line).1).length + 1)
        = (line.takeWhile isSpace ++ (scanWord line).1 ++ (scanWord line).2).drop
            ((line.takeWhile isSpace ++ (scanWord line).1).length + 1) := congrArg _ split
      _ = (scanWord line).2.drop 1 := by rw [← List.drop_drop, List.drop_left]
  rw [rest, List.length_append, Option.some.injEq, UiCmd.mk.injEq, Aligned, ← blanks]
  constructor
  · rintro ⟨-, same⟩
    have lengths := congrArg List.length same
    rw [List.length_drop, List.length_drop] at lengths
    omega
  -- Leading blanks shift the parameter, which matters unless nothing is left of it.
  · rintro (none | short)
    · rw [none, Nat.zero_add]
      exact ⟨rfl, rfl⟩
    · refine ⟨rfl, ?_⟩
      rw [List.drop_eq_nil_of_le (by omega), List.drop_eq_nil_of_le (by omega)]

/-- A word with its parameter, and a word behind a blank. -/
theorem lines_agree_iff_read :
    (batchCommand [114, 100, 32, 53, 32, 48, 10] = some (getCommand [114, 100, 32, 53, 32, 48, 10]).1 ↔
      Aligned [114, 100, 32, 53, 32, 48]) ∧
    (batchCommand [32, 114, 100] = some (getCommand [32, 114, 100, 10]).1 ↔ Aligned [32, 114, 100]) :=
  ⟨lines_agree_iff [114, 100, 32, 53, 32, 48] [10] [] (by decide) (by decide) (by simp) (by decide)
      (by decide),
    lines_agree_iff [32, 114, 100] [] [] (by decide) (by decide) (by simp) (by decide) (by decide)⟩

/-- With two blanks before it, the end of the word is taken for its parameter. -/
theorem blanks_shift_parameter :
    batchCommand [32, 32, 114, 100, 32, 53, 10] = some ⟨[114, 100], [100, 32, 53]⟩ ∧
      (getCommand [32, 32, 114, 100, 32, 53, 10]).1 = ⟨[114, 100], [53]⟩ ∧
      batchCommand [32, 32, 114, 100, 32, 53, 10] ≠
        some (getCommand [32, 32, 114, 100, 32, 53, 10]).1 := by
  decide +kernel

end Text

/-! The buffers of the batch file. -/

theorem scan_word_alone (text : List BYTE) :
    text ≠ (scanWord text).1 ↔ (scanWord text).1.length + 1 ≤ text.length := by
  have split := scan_word_splits text
  have total := congrArg List.length split
  rw [List.length_append, List.length_append] at total
  constructor
  · intro differ
    by_contra same
    have before : text.takeWhile isSpace = [] := List.eq_nil_of_length_eq_zero (by omega)
    have behind : (scanWord text).2 = [] := List.eq_nil_of_length_eq_zero (by omega)
    rw [before, behind, List.nil_append, List.append_nil] at split
    exact differ split
  · intro longer same
    have lengths := congrArg List.length same
    omega

theorem take_line_length (n : Nat) (stream : List BYTE) : (takeLine n stream).1.length ≤ n := by
  induction n generalizing stream with
  | zero => exact Nat.le_refl 0
  | succ n ih =>
      cases stream with
      | nil => exact Nat.zero_le _
      | cons c rest =>
          rw [takeLine]
          split
          · exact Nat.succ_le_succ (Nat.zero_le n)
          · exact Nat.succ_le_succ (ih rest)

theorem strip_newline_length (s : List BYTE) : (stripNewline s).length ≤ s.length := by
  unfold stripNewline
  split
  · rw [List.length_dropLast]
    exact Nat.sub_le ..
  · exact Nat.le_refl _

/-- What stays inside the buffers: something but white space, no single character beside
the command, and a parameter that fits. -/
def SafeLine (read : List BYTE) : Prop :=
  let text := stripNewline (cString read)
  (∃ c ∈ text, isSpace c = false) ∧ text.length ≠ (scanWord text).1.length + 1 ∧
    text.length ≤ (scanWord text).1.length + filenameMax

instance (buffer : Buffer) (index : Int) (count : Nat) :
    Decidable (Access.mk buffer index count).Inside := inferInstanceAs (Decidable (_ ∧ _))

/-- The commands of a batch file stay inside the buffers exactly for the safe lines. -/
theorem split_inside_iff {file read rest : List BYTE}
    (delivered : fgets Buffer.rawCmd.size file = some (read, rest)) :
    (∀ access ∈ (splitLine read).accesses, access.Inside) ↔ SafeLine read := by
  have short : read.length ≤ Buffer.rawCmd.size - 1 := by
    dsimp only [fgets] at delivered
    split at delivered
    · cases delivered
    · have same := congrArg Prod.fst (Option.some.inj delivered)
      rw [← show (takeLine (Buffer.rawCmd.size - 1) file).1 = read from same]
      exact take_line_length ..
  have string : (cString read).length ≤ read.length := (List.takeWhile_prefix _).length_le
  have stripped := strip_newline_length (cString read)
  dsimp only [SafeLine, splitLine]
  generalize stripNewline (cString read) = text at *
  have wordShort := scan_word_short text
  have alone := scan_word_alone text
  have split := congrArg List.length (scan_word_splits text)
  rw [List.length_append, List.length_append] at split
  rw [← scan_word_some, ← List.length_pos_iff]
  simp only [Buffer.size, maxCmdLen, filenameMax] at short wordShort ⊢
  -- With a parameter its buffer is written too, without one only the command matters.
  by_cases differ : text ≠ (scanWord text).1
  · have longer := alone.mp differ
    simp only [if_pos differ, List.forall_mem_append, List.forall_mem_cons, Access.Inside, Buffer.size,
      List.length_drop, maxCmdLen, filenameMax]
    constructor
    · rintro ⟨⟨-, -, -, copied, last, -⟩, word, -⟩
      omega
    · rintro ⟨some, apart, fits⟩
      simp only [List.not_mem_nil, false_implies, implies_true, and_true]
      omega
  · have exact_ := mt alone.mpr differ
    simp only [if_neg differ, List.forall_mem_append, List.forall_mem_cons, Access.Inside, Buffer.size,
      maxCmdLen, filenameMax]
    constructor
    · rintro ⟨-, word, -⟩
      omega
    · rintro ⟨some, -, -⟩
      simp only [List.not_mem_nil, false_implies, implies_true, and_true]
      omega

/-- A command with its parameter is safe. -/
theorem split_inside_iff_read :
    (∀ access ∈ (splitLine [114, 100, 32, 53, 10]).accesses, access.Inside) ↔
      SafeLine [114, 100, 32, 53, 10] := by
  have delivered : fgets Buffer.rawCmd.size [114, 100, 32, 53, 10, 114] =
      some ([114, 100, 32, 53, 10], [114]) := by decide +kernel
  exact split_inside_iff delivered

/-- A blank line: the last character of its empty command is looked for before the array. -/
theorem blank_line_outside :
    fgets Buffer.rawCmd.size [10] = some ([10], []) ∧
      ⟨.command, -1, 1⟩ ∈ (splitLine [10]).accesses ∧ ¬ (⟨.command, -1, 1⟩ : Access).Inside := by
  decide +kernel

end VmSim.CommandLine
