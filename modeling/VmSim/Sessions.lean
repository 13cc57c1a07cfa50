import VmSim.Console

/-!
Sessions at the prompt and batch files. What a command does is one matter, its calls of
`signal_job_done` and `wait_job_done` another: where every call comes back, the console
does what the bare commands do.
-/

namespace VmSim.Console
open CommandLine Scripts

/-! The bare commands. -/

/-- The commands without `job_done`. -/
def plain (files : Files) (acts : List Act) : Outcome Cmd → Verdict (Outcome Cmd) (List Act) Fault
  | .error fault => .fails fault
  | .ok cmd =>
      match branch files acts cmd with
      | .exits => .leaves acts
      | .does act => .proceeds (acts ++ [act])
      | .batch file => .opens (fileScript file) some

theorem plain_steady (files : Files) : Steady (plain files) where
  comes := by
    intro acts line
    cases line with
    | error fault => simp [plain]
    | ok cmd =>
        rw [plain]
        cases branch files acts cmd with
        | exits => simp
        | does act => simp
        | batch file => simp
  closes := by
    intro acts line script closes what after
    cases line with
    | error fault => cases what
    | ok cmd =>
        simp only [plain] at what
        cases going : branch files acts cmd with
        | exits => simp [going] at what
        | does act => simp [going] at what
        | batch file =>
            rw [going] at what
            cases what
            exact ⟨after, rfl⟩

@[simp] theorem acts_of_append (calls more : List Call) : actsOf (calls ++ more) = actsOf calls ++ actsOf more :=
  List.filterMap_append

@[simp] theorem acts_of_body (act : Act) : actsOf (body act) = [act] := by
  cases act with
  | createsProcess => rfl
  | requests request => rfl
  | runs command => rfl
  | prints text => rfl

@[simp] theorem acts_of_behind (retCmd asyncWait : Bool) : actsOf (behind retCmd asyncWait) = [] := by
  cases retCmd <;> cases asyncWait <;> rfl

section Worlds
variable {world : World} {calls more done : List Call}

theorem makes_append (made : makes world calls more = some done) : done = calls ++ more := by
  induction more generalizing calls with
  | nil => simpa [makes] using made.symm
  | cons call rest ih =>
      rw [makes] at made
      split at made
      · rw [ih made, List.append_assoc, List.singleton_append]
      · cases made

theorem does_acts {asyncWait : Bool} {act : Act} (made : does world calls asyncWait act = some done) :
    actsOf done = actsOf calls ++ [act] := by
  obtain ⟨called, first, last⟩ := Option.bind_eq_some_iff.mp made
  rw [makes_append last, makes_append first]
  simp

theorem meaning_viewed (world : World) (calls : List Call) (line : Outcome Cmd) :
    Viewed actsOf (meaning world calls line) (plain world.files (actsOf calls) line) := by
  cases line with
  | error fault => exact .fails fault
  | ok cmd =>
      rw [meaning, plain]
      cases branch world.files (actsOf calls) cmd with
      | exits => exact .leaves calls
      | does act =>
          dsimp only
          cases made : does world calls (asyncWait (commandOf cmd.1.command)) act with
          | none => exact .stalls _
          | some after =>
              rw [← does_acts made]
              exact .proceeds after
      | batch file =>
          refine .opens _ fun after closed made => ?_
          rw [makes_append made]
          simp

/-- Every call comes back: a job ends, a process starts, a wait is woken. -/
def Patient (world : World) : Prop := ∀ calls, world.returns calls = true

theorem Patient.makes (patient : Patient world) (calls more : List Call) :
    makes world calls more = some (calls ++ more) := by
  induction more generalizing calls with
  | nil => rw [Console.makes, List.append_nil]
  | cons call rest ih =>
      rw [Console.makes, if_pos (patient _), ih, List.append_assoc, List.singleton_append]

theorem Patient.does (patient : Patient world) (calls : List Call) (asyncWait : Bool) (act : Act) :
    ∃ done, does world calls asyncWait act = some done := by
  refine ⟨_, Option.bind_eq_some_iff.mpr ⟨_, patient.makes calls (body act), patient.makes _ _⟩⟩

theorem Patient.steady (patient : Patient world) : Steady (meaning world) where
  comes := by
    intro calls line
    cases line with
    | error fault => simp [meaning]
    | ok cmd =>
        rw [meaning]
        cases branch world.files (actsOf calls) cmd with
        | exits => simp
        | does act =>
            obtain ⟨done, made⟩ := patient.does calls (asyncWait (commandOf cmd.1.command)) act
            simp [made]
        | batch file => simp
  closes := by
    intro calls line script closes what after
    cases line with
    | error fault => cases what
    | ok cmd =>
        rw [meaning] at what
        cases going : branch world.files (actsOf calls) cmd with
        | exits => simp [going] at what
        | does act =>
            obtain ⟨done, made⟩ := patient.does calls (asyncWait (commandOf cmd.1.command)) act
            simp [going, made] at what
        | batch file =>
            simp only [going] at what
            cases what
            exact ⟨_, patient.makes after _⟩

end Worlds

/-! Sessions at the prompt. -/

section Sessions
variable {State : Type} {meaning : State → Outcome Cmd → Verdict (Outcome Cmd) State Fault}
variable {s : State} {ending : Ending State Fault}

theorem main_loop_deeper {depth deeper turns more : Nat} {stdin : List BYTE} (below : depth ≤ deeper)
    (fewer : turns ≤ more) (ran : mainLoop meaning depth turns s stdin = some ending) :
    mainLoop meaning deeper more s stdin = some ending := by
  induction turns generalizing more s stdin with
  | zero => cases ran
  | succ turns ih =>
      cases more with
      | zero => cases fewer
      | succ more =>
          obtain ⟨first, handled, later⟩ := Option.bind_eq_some_iff.mp ran
          refine Option.bind_eq_some_iff.mpr ⟨first, handle_deeper below handled, ?_⟩
          rcases and_then_some.mp later with ⟨after, rfl, looped⟩ | ⟨rfl, stops⟩
          · exact and_then_some.mpr (.inl ⟨after, rfl, ih (Nat.le_of_succ_le_succ fewer) looped⟩)
          · exact and_then_some.mpr (.inr ⟨rfl, stops⟩)

theorem session_step (stdin : List BYTE) : Session meaning s stdin ending ↔
    (∃ middle, Returns meaning s [.ok (promptCommand stdin).1] (.through middle) ∧
      Session meaning middle (promptCommand stdin).2 ending) ∨
    (Returns meaning s [.ok (promptCommand stdin).1] ending ∧ ending.Stops) := by
  simp only [returns_single]
  constructor
  · rintro ⟨depth, turns, ran⟩
    cases turns with
    | zero => cases ran
    | succ turns =>
        obtain ⟨first, handled, later⟩ := Option.bind_eq_some_iff.mp ran
        rcases and_then_some.mp later with ⟨after, rfl, looped⟩ | ⟨rfl, stops⟩
        · exact .inl ⟨after, ⟨depth, handled⟩, depth, turns, looped⟩
        · exact .inr ⟨⟨depth, handled⟩, stops⟩
  · rintro (⟨middle, ⟨depth, handled⟩, deeper, turns, looped⟩ | ⟨⟨depth, handled⟩, stops⟩)
    · have first := handle_deeper (Nat.le_max_left depth deeper) handled
      have later := main_loop_deeper (Nat.le_max_right depth deeper) (Nat.le_refl turns) looped
      exact ⟨max depth deeper, turns + 1, Option.bind_eq_some_iff.mpr
        ⟨_, first, and_then_some.mpr (.inl ⟨middle, rfl, later⟩)⟩⟩
    · exact ⟨depth, 1, Option.bind_eq_some_iff.mpr ⟨_, handled, and_then_some.mpr (.inr ⟨rfl, stops⟩)⟩⟩

def text (lines : List (List BYTE)) : List BYTE := lines.flatMap fun line => line ++ [10]

theorem text_cons (line : List BYTE) (lines : List (List BYTE)) (later : List BYTE) :
    text (line :: lines) ++ later = line ++ 10 :: (text lines ++ later) := by
  simp [text]

/-- Lines typed at the prompt are the script that a file of them is. -/
theorem session_lines {lines : List (List BYTE)} (regular : ∀ line ∈ lines, Regular line) (later : List BYTE) :
    Session meaning s (text lines ++ later) ending ↔
      (∃ middle, Returns meaning s (fileScript (text lines)) (.through middle) ∧
        Session meaning middle later ending) ∨
      (Returns meaning s (fileScript (text lines)) ending ∧ ending.Stops) := by
  induction lines generalizing s with
  | nil =>
      have nothing : fileScript (text []) = [] := rfl
      simp only [nothing, returns_nil]
      constructor
      · exact fun session => .inl ⟨s, rfl, session⟩
      · rintro (⟨middle, same, session⟩ | ⟨same, stops⟩)
        · cases same
          exact session
        · exact absurd same (stops s)
  | cons line lines ih =>
      have this := regular line List.mem_cons_self
      have others : ∀ line ∈ lines, Regular line := fun _ member => regular _ (List.mem_cons_of_mem _ member)
      have script : fileScript (text (line :: lines)) = [.ok this.cmd] ++ fileScript (text lines) := by
        have cut := text_cons line lines []
        rw [List.append_nil, List.append_nil] at cut
        rw [cut, batch_regular this]
        rfl
      rw [text_cons, session_step, prompt_regular this, script]
      simp only [returns_append, ih others]
      constructor
      · rintro (⟨first, ran, ⟨middle, script, session⟩ | ⟨script, stops⟩⟩ | ⟨ran, stops⟩)
        · exact .inl ⟨middle, .inl ⟨first, ran, script⟩, session⟩
        · exact .inr ⟨.inl ⟨first, ran, script⟩, stops⟩
        · exact .inr ⟨.inr ⟨ran, stops⟩, stops⟩
      · rintro (⟨middle, ⟨first, ran, script⟩ | ⟨-, stops⟩, session⟩ | ⟨⟨first, ran, script⟩ | ⟨ran, -⟩, stops⟩)
        · exact .inl ⟨first, ran, .inl ⟨middle, script, session⟩⟩
        · exact absurd rfl (stops middle)
        · exact .inl ⟨first, ran, .inr ⟨script, stops⟩⟩
        · exact .inr ⟨ran, stops⟩

section Views
variable {Seen : Type} {view : State → Seen} {seen : Seen → Outcome Cmd → Verdict (Outcome Cmd) Seen Fault}

theorem main_loop_viewed (viewed : ∀ s line, Viewed view (meaning s line) (seen (view s) line))
    {depth turns : Nat} {stdin : List BYTE} (ran : mainLoop meaning depth turns s stdin = some ending) :
    mainLoop seen depth turns (view s) stdin = some (ending.map view) := by
  induction turns generalizing s stdin with
  | zero => cases ran
  | succ turns ih =>
      obtain ⟨first, handled, later⟩ := Option.bind_eq_some_iff.mp ran
      refine Option.bind_eq_some_iff.mpr ⟨first.map view, handle_viewed viewed handled, ?_⟩
      rcases and_then_some.mp later with ⟨after, rfl, looped⟩ | ⟨rfl, stops⟩
      · exact and_then_some.mpr (.inl ⟨view after, rfl, ih looped⟩)
      · exact and_then_some.mpr (.inr ⟨rfl, stops_viewed.mpr stops⟩)

theorem session_viewed (viewed : ∀ s line, Viewed view (meaning s line) (seen (view s) line)) {stdin : List BYTE}
    (session : Session meaning s stdin ending) : Session seen (view s) stdin (ending.map view) := by
  obtain ⟨depth, turns, ran⟩ := session
  exact ⟨depth, turns, main_loop_viewed viewed ran⟩

theorem main_loop_seen (viewed : ∀ s line, Viewed view (meaning s line) (seen (view s) line))
    (steady : Steady meaning) {depth turns : Nat} {stdin : List BYTE} {ending : Ending Seen Fault}
    (ran : mainLoop seen depth turns (view s) stdin = some ending) :
    ∃ full, mainLoop meaning depth turns s stdin = some full ∧ full.map view = ending := by
  induction turns generalizing s stdin with
  | zero => cases ran
  | succ turns ih =>
      obtain ⟨first, handled, later⟩ := Option.bind_eq_some_iff.mp ran
      obtain ⟨full, command, rfl⟩ := handle_seen viewed steady handled
      rcases and_then_some.mp later with ⟨after, same, looped⟩ | ⟨rfl, stops⟩
      · cases full with
        | through next =>
            cases same
            obtain ⟨last, ended, shown⟩ := ih looped
            exact ⟨last, Option.bind_eq_some_iff.mpr ⟨_, command, and_then_some.mpr (.inl ⟨next, rfl, ended⟩)⟩, shown⟩
        | left next => cases same
        | failed fault => cases same
      · exact ⟨full, Option.bind_eq_some_iff.mpr ⟨_, command,
          and_then_some.mpr (.inr ⟨rfl, stops_viewed.mp stops⟩)⟩, rfl⟩

end Views

end Sessions

structure FileName (name : List BYTE) : Prop where
  text : ∀ c ∈ name, c ≠ 0 ∧ c ≠ 10
  filled : name ≠ []
  fits : name.length + 1 < filenameMax

def batchLine (name : List BYTE) : List BYTE := ascii "batchFile " ++ name

theorem scan_word_blank {word : List BYTE} (solid : ∀ c ∈ word, isSpace c = false) (filled : word ≠ [])
    (short : word.length ≤ maxCmdLen) (later : List BYTE) : scanWord (word ++ 32 :: later) = (word, 32 :: later) := by
  have alone : scanWord word = (word, []) := by
    have first : word.dropWhile isSpace = word := by
      cases word with
      | nil => rfl
      | cons c rest => rw [List.dropWhile_cons_of_neg (by simp [solid c])]
    have all : word.takeWhile (fun c => !isSpace c) = word := by
      rw [List.takeWhile_eq_self_iff]
      exact fun c member => by simp [solid c member]
    simp only [scanWord, first, all, List.take_of_length_le short, List.drop_length]
  obtain ⟨c, rest, rfl⟩ := List.exists_cons_of_ne_nil filled
  rw [scan_word_append ⟨c, List.mem_cons_self, solid c List.mem_cons_self⟩ (by simp [isSpace]), alone]
  rfl

theorem batch_line_scan (name : List BYTE) : scanWord (batchLine name) = (ascii "batchFile", 32 :: name) := by
  have solid : ∀ c ∈ ascii "batchFile", isSpace c = false := by decide +kernel
  exact scan_word_blank solid (by decide +kernel) (by decide +kernel) name

theorem batch_line_regular {name : List BYTE} (named : FileName name) : Regular (batchLine name) where
  text := by
    intro c member
    rcases List.mem_append.mp member with word | inside
    · have plain : ∀ c ∈ ascii "batchFile ", c ≠ 0 ∧ c ≠ 10 := by decide +kernel
      exact plain c word
    · exact named.text c inside
  begins := ⟨98, ascii "atchFile " ++ name, rfl, by decide +kernel⟩
  apart := by
    have filled := List.length_pos_iff.mpr named.filled
    rw [batch_line_scan, batchLine, List.length_append]
    change 10 + name.length ≠ 9 + 1
    omega
  fits := by
    have fits := named.fits
    rw [batch_line_scan, batchLine, List.length_append]
    change 10 + name.length < 9 + filenameMax
    omega

theorem batch_line_cmd {name : List BYTE} (named : FileName name) :
    (batch_line_regular named).cmd.1 = ⟨ascii "batchFile", name⟩ := by
  have param : paramOf (batchLine name) = name := by
    rw [paramOf, batch_line_scan]
    rfl
  change (⟨(scanWord (batchLine name)).1, paramOf (batchLine name)⟩ : UiCmd) = _
  rw [batch_line_scan, param]

/-- The ends of a run of the console, each by what has been done. -/
def Comes (ends : Ending (List Call) Fault → Prop) (done : Ending (List Act) Fault) : Prop :=
  ∃ ending, ends ending ∧ ending.map actsOf = done

section Files
variable {files : Files} {acts : List Act} {world : World} {calls : List Call} {done : Ending (List Act) Fault}

theorem session_plain (patient : Patient world) (stdin : List BYTE) :
    Comes (Session (meaning world) calls stdin) done ↔ Session (plain world.files) (actsOf calls) stdin done := by
  constructor
  · rintro ⟨ending, session, rfl⟩
    exact session_viewed (meaning_viewed world) session
  · rintro ⟨depth, turns, ran⟩
    obtain ⟨full, looped, same⟩ := main_loop_seen (meaning_viewed world) patient.steady ran
    exact ⟨full, ⟨depth, turns, looped⟩, same⟩

theorem batch_plain (patient : Patient world) (file : List BYTE) :
    Comes (BatchEnds (meaning world) calls file) done ↔ BatchEnds (plain world.files) (actsOf calls) file done :=
  (returns_seen (meaning_viewed world) patient.steady).symm

theorem batch_line_opens {name file : List BYTE} (named : FileName name) (holds : files acts name = some file) :
    plain files acts (.ok (batch_line_regular named).cmd) = .opens (fileScript file) some := by
  have batch : commandOf (ascii "batchFile") = .batchFile := by decide +kernel
  simp only [plain, branch, batch_line_cmd named, batch, holds]

theorem ending_closed {inner ending : Ending (List Act) Fault} : inner.closed some = some ending ↔ inner = ending := by
  cases inner with
  | through after => simp [Ending.closed]
  | left after => simp [Ending.closed]
  | failed fault => simp [Ending.closed]

theorem batch_line_returns {name file : List BYTE} (named : FileName name) (holds : files acts name = some file) :
    Returns (plain files) acts [.ok (batch_line_regular named).cmd] done ↔
      Returns (plain files) acts (fileScript file) done := by
  rw [returns_opens (batch_line_opens named holds)]
  simp only [ending_closed, exists_eq_right]

/-- To type the lines of a batch file is to name the file, whatever the lines are: further batch
files, commands that fail, an exit. -/
theorem typed_or_named (patient : Patient world) {name later : List BYTE} {lines : List (List BYTE)}
    (regular : ∀ line ∈ lines, Regular line) (named : FileName name)
    (holds : world.files (actsOf calls) name = some (text lines)) :
    Comes (Session (meaning world) calls (batchLine name ++ 10 :: later)) done ↔
      Comes (Session (meaning world) calls (text lines ++ later)) done := by
  rw [session_plain patient, session_plain patient, session_lines regular later, session_step,
    prompt_regular (batch_line_regular named)]
  simp only [batch_line_returns named holds]

def creating : World where
  files := fun _ name => if name = [102] then some (text [ascii "createProcess", ascii "exit"]) else none
  succeeds := fun _ => true
  returns := fun _ => true

theorem creating_patient : Patient creating := fun _ => rfl

theorem creating_regular : ∀ line ∈ [ascii "createProcess", ascii "exit"], Regular line := by
  intro line member
  rcases List.mem_cons.mp member with rfl | member
  · exact ⟨by decide +kernel, ⟨99, ascii "reateProcess", rfl, by decide +kernel⟩, by decide +kernel, by decide +kernel⟩
  · obtain rfl := List.mem_singleton.mp member
    exact ⟨by decide +kernel, ⟨101, ascii "xit", rfl, by decide +kernel⟩, by decide +kernel, by decide +kernel⟩

theorem typed_or_named_exit :
    Comes (Session (meaning creating) [] (batchLine [102] ++ 10 :: [])) (.left [.createsProcess]) ↔
      Comes (Session (meaning creating) [] (text [ascii "createProcess", ascii "exit"] ++ []))
        (.left [.createsProcess]) :=
  typed_or_named creating_patient creating_regular ⟨by decide +kernel, by decide +kernel, by decide +kernel⟩ rfl

/-! Batch files that name batch files. -/

theorem file_script_append {text : List BYTE} (whole : Whole text) (later : List BYTE) :
    fileScript (text ++ later) = fileScript text ++ fileScript later := by
  rw [fileScript, file_lines_append whole, List.map_append]
  rfl

/-- A line that names a file may be replaced by what the file holds, at any depth. -/
theorem batch_inlined (patient : Patient world) {before file after name : List BYTE} (whole : Whole before)
    (inner : Whole file) (named : FileName name) (holds : ∀ acts, world.files acts name = some file) :
    Comes (BatchEnds (meaning world) calls (before ++ (batchLine name ++ 10 :: after))) done ↔
      Comes (BatchEnds (meaning world) calls (before ++ (file ++ after))) done := by
  have line : fileScript (batchLine name ++ 10 :: after) =
      [.ok (batch_line_regular named).cmd] ++ fileScript after := batch_regular (batch_line_regular named) after
  have same : ∀ middle ending, Returns (plain world.files) middle [.ok (batch_line_regular named).cmd] ending ↔
      Returns (plain world.files) middle (fileScript file) ending :=
    fun middle ending => batch_line_returns named (holds middle)
  rw [batch_plain patient, batch_plain patient]
  change Returns (plain world.files) _ (fileScript _) done ↔ Returns (plain world.files) _ (fileScript _) done
  rw [file_script_append whole, file_script_append whole, file_script_append inner, line,
    ← List.append_assoc, ← List.append_assoc]
  exact returns_same same (fileScript before) (fileScript after)

theorem batch_inlined_exit :
    Comes (BatchEnds (meaning creating) [] ([] ++ (batchLine [102] ++ 10 :: ascii "debug")))
        (.left [.createsProcess]) ↔
      Comes (BatchEnds (meaning creating) []
        ([] ++ (text [ascii "createProcess", ascii "exit"] ++ ascii "debug"))) (.left [.createsProcess]) :=
  batch_inlined creating_patient (.inl rfl) (.inr (by decide +kernel))
    ⟨by decide +kernel, by decide +kernel, by decide +kernel⟩ fun _ => rfl

def Opens (files : Files) (inner outer : List Act × List BYTE) : Prop :=
  ∃ file before cmd after, files outer.1 outer.2 = some file ∧ fileScript file = before ++ .ok cmd :: after ∧
    Returns (plain files) outer.1 before (.through inner.1) ∧ cmd.1 = ⟨ascii "batchFile", inner.2⟩

theorem batch_command {command : List BYTE} (batch : commandOf command = .batchFile) :
    command = ascii "batchFile" := by
  have once : ∀ entry ∈ commandTable, entry.2 = .batchFile → entry.1 = ascii "batchFile" := by decide +kernel
  unfold commandOf at batch
  cases found : commandTable.find? fun entry => entry.1 = command with
  | none => simp [found] at batch
  | some entry =>
      simp only [found, Option.map_some, Option.getD_some] at batch
      have same : entry.1 = command := by simpa using List.find?_some found
      rw [← same]
      exact once entry (List.mem_of_find?_eq_some found) batch

theorem branch_batch {cmd : Cmd} {file : List BYTE} (going : branch files acts cmd = .batch file) :
    ∃ name, cmd.1 = ⟨ascii "batchFile", name⟩ ∧ files acts name = some file := by
  simp only [branch] at going
  cases command : commandOf cmd.1.command with
  | batchFile =>
      simp only [command] at going
      cases holds : files acts cmd.1.param with
      | none => simp [holds] at going
      | some opened =>
          simp only [holds] at going
          cases going
          refine ⟨cmd.1.param, ?_, holds⟩
          rw [← batch_command command]
  | _ => simp [command] at going

theorem opens_script {line : Outcome Cmd} {script : List (Outcome Cmd)} {closes : List Act → Option (List Act)}
    (what : plain files acts line = .opens script closes) :
    ∃ cmd name file, line = .ok cmd ∧ cmd.1 = ⟨ascii "batchFile", name⟩ ∧ files acts name = some file ∧
      script = fileScript file := by
  cases line with
  | error fault => cases what
  | ok cmd =>
      rw [plain] at what
      cases going : branch files acts cmd with
      | exits => simp [going] at what
      | does act => simp [going] at what
      | batch file =>
          obtain ⟨name, batch, holds⟩ := branch_batch going
          rw [going] at what
          cases what
          exact ⟨cmd, name, file, rfl, batch, holds, rfl⟩

theorem batch_opens {cmd : Cmd} {name file : List BYTE} (batch : cmd.1 = ⟨ascii "batchFile", name⟩)
    (holds : files acts name = some file) : plain files acts (.ok cmd) = .opens (fileScript file) some := by
  have command : commandOf (ascii "batchFile") = .batchFile := by decide +kernel
  simp only [plain, branch, batch, command, holds]

theorem opens_calls {cmd : Cmd} {name : List BYTE} (batch : cmd.1 = ⟨ascii "batchFile", name⟩) :
    Acc (Calls (plain files)) (acts, .ok cmd) ↔ Acc (Opens files) (acts, name) := by
  constructor
  · intro acc
    generalize same : (acts, (.ok cmd : Outcome Cmd)) = outer at acc
    induction acc generalizing acts cmd name with
    | intro _ _ ih =>
        subst same
        refine Acc.intro _ ?_
        rintro ⟨reached, inner⟩ ⟨file, before, line, after, holds, script, came, named⟩
        refine ih (reached, .ok line) ⟨before, after, some, ?_, came⟩ named rfl
        rw [batch_opens batch holds, script]
  · intro acc
    generalize same : (acts, name) = outer at acc
    induction acc generalizing acts cmd name with
    | intro _ _ ih =>
        subst same
        refine Acc.intro _ ?_
        rintro ⟨reached, line⟩ ⟨before, after, closes, what, came⟩
        obtain ⟨opened, inner, file, same, named, holds, script⟩ := opens_script what
        cases same
        have outer : inner = name := by
          rw [batch] at named
          cases named
          rfl
        subst outer
        -- A line that opens nothing calls nothing.
        refine Acc.intro _ fun called calls => ?_
        have ⟨_, _, _, within, _⟩ := calls
        obtain ⟨next, target, _, same, named, -⟩ := opens_script within
        obtain rfl : line = .ok next := same
        have opens : Opens files (reached, target) (acts, inner) :=
          ⟨file, before, next, after, holds, script.symm, came, named⟩
        exact (ih _ opens named rfl).inv calls

theorem plain_ends {name file : List BYTE} (fits : name.length < filenameMax) (holds : files acts name = some file) :
    (∃ done, BatchEnds (plain files) acts file done) ↔ Acc (Opens files) (acts, name) := by
  let cmd : Cmd := ⟨⟨ascii "batchFile", name⟩, fits⟩
  have opens : plain files acts (.ok cmd) = .opens (fileScript file) some := batch_opens rfl holds
  rw [← opens_calls (show cmd.1 = ⟨ascii "batchFile", name⟩ from rfl), ← returns_iff_acc (plain_steady files)]
  simp only [returns_opens opens, ending_closed, exists_eq_right]
  rfl

/-- A batch file that comes to its end is no start of an endless chain of files, each opened by a
line that the one before it comes to; and where every call comes back, nothing else keeps it. -/
theorem batch_ends_iff {name file : List BYTE} (fits : name.length < filenameMax)
    (holds : world.files (actsOf calls) name = some file) :
    ((∃ ending, BatchEnds (meaning world) calls file ending) → Acc (Opens world.files) (actsOf calls, name)) ∧
    (Patient world → Acc (Opens world.files) (actsOf calls, name) →
      ∃ ending, BatchEnds (meaning world) calls file ending) := by
  constructor
  · rintro ⟨ending, ends⟩
    exact (plain_ends fits holds).mp ⟨_, returns_viewed (meaning_viewed world) ends⟩
  · intro patient acc
    obtain ⟨done, ends⟩ := (plain_ends fits holds).mpr acc
    obtain ⟨ending, ends, -⟩ := (batch_plain patient file).mpr ends
    exact ⟨ending, ends⟩

theorem batch_ends_iff_exit :
    ((∃ ending, BatchEnds (meaning creating) [] (text [ascii "createProcess", ascii "exit"]) ending) →
      Acc (Opens creating.files) ([], [102])) ∧
    (Patient creating → Acc (Opens creating.files) ([], [102]) →
      ∃ ending, BatchEnds (meaning creating) [] (text [ascii "createProcess", ascii "exit"]) ending) :=
  batch_ends_iff (by decide +kernel) rfl

end Files

end VmSim.Console
