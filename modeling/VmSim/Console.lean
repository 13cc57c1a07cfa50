import VmSim.Library.Scripts
import VmSim.BatchLines
import VmSim.JobDone

/-!
The console of vmsim/ui_app.c. `app_main` takes commands from the prompt and hands them
to `command_handler`; for `batchFile` it has the lines of a file run by `do_batch_file`,
which hands each of them to `command_handler` again. What the commands call is listed in
its order, `signal_job_done` and `wait_job_done` with the rest. Any call may fail to come
back: a job may leave `wait_job_done` asleep (JobDone.lean), and the statements of other
threads are not here. A line of a batch file that leaves its buffers is a fault.
-/

namespace VmSim.Console
open CommandLine Scripts

def ascii (s : String) : List BYTE := s.toList.map fun c => BitVec.ofNat 8 c.toNat

/-- The comparisons of `command_handler`, in their order. -/
def commandTable : List (List BYTE × JobDone.Command) :=
  [ (ascii "exit", .exit), (ascii "createProcess", .createProcess),
    (ascii "delProcess", .delProcess), (ascii "read", .read), (ascii "loopRead", .loopRead),
    (ascii "readToFile", .readToFile), (ascii "loopReadToFile", .loopReadToFile),
    (ascii "write", .write), (ascii "loopWrite", .loopWrite), (ascii "hitRate", .hitRate),
    (ascii "printMM", .printMM), (ascii "printMMUTable", .printMMUTable),
    (ascii "printRegisters", .printRegisters), (ascii "printHAT", .printHAT),
    (ascii "monitor", .monitor), (ascii "noMonitor", .noMonitor), (ascii "debug", .debug),
    (ascii "batchFile", .batchFile) ]

def commandOf (command : List BYTE) : JobDone.Command :=
  ((commandTable.find? fun entry => entry.1 = command).map Prod.snd).getD .wrongInput

/-- What a command calls: `create_process` and `process_start`, the function of app_util.c
for a request, one that prints or sets the level of the log, or `printf` alone. -/
inductive Act where
  | createsProcess
  | requests (request : Request)
  | runs (command : JobDone.Command)
  | prints (text : String)
  deriving DecidableEq

def numbersRead : Nat → List (List BYTE) → Nat
  | 0, _ => 0
  | n + 1, tokens =>
      match number tokens with
      | none => 0
      | some (_, rest) => numbersRead n rest + 1

def badOrNot (numbers : Nat) (usage : String) (param : Param) : String :=
  if numbersRead numbers (strtok param) = numbers then "Not enough or bad arguments. usage: " ++ usage
  else "Bad or not enough arguments. usage: " ++ usage

def complaint (name : CommandName) (param : Param) : String :=
  match name with
  | .read =>
      if param.1 = [] then "Not enough arguments\n"
      else "Not enough or bad arguments. usage: read vAddr id amount\n"
  | .loopRead =>
      if param.1 = [] then "Not enough arguments\n"
      else "Not enough or bad arguments. usage: loopRead vAddr id off amount\n"
  | .readToFile =>
      if param.1 = [] then "Not enough arguments\n"
      else badOrNot 3 "readToFile vAddr id amount filename\n" param
  | .loopReadToFile =>
      if param.1 = [] then "Not enough or bad arguments. usage: loopReadToFile vAddr id off amount filename\n"
      else badOrNot 4 "loopReadToFile vAddr id off amount filename\n" param
  | .write =>
      if param.1 = [] then "Not enough or bad arguments. usage: write vAddr id s\n"
      else badOrNot 2 "write vAddr id s\n" param
  | .loopWrite => "Not enough or bad arguments. usage: loopWrite vAddr id c off amount\n"
  | .delProcess => if param.1 = [] then "A proc_id argument is needed\n" else "Illegal argument\n"

def request (name : CommandName) (param : Param) : Act :=
  match CommandLine.commandHandler name param with
  | some request => .requests request
  | none => .prints (complaint name param)

abbrev Cmd := { cmd : UiCmd // cmd.param.length < filenameMax }

abbrev Files := List Act → List BYTE → Option (List BYTE)

/-! The lines of a file. -/

/-- The calls of `fgets`, each taking a character at least. -/
def readLines : Nat → List BYTE → List (List BYTE)
  | 0, _ => []
  | turns + 1, file =>
      match fgets Buffer.rawCmd.size file with
      | none => []
      | some (read, rest) => read :: readLines turns rest

def fileLines (file : List BYTE) : List (List BYTE) := readLines file.length file

instance (access : Access) : Decidable access.Inside := inferInstanceAs (Decidable (_ ∧ _))

theorem split_fits {read : List BYTE} (inside : ∀ access ∈ (splitLine read).accesses, access.Inside) :
    (splitLine read).cmd.param.length < filenameMax := by
  dsimp only [splitLine] at inside ⊢
  split
  · rename_i differ
    have copied : (⟨.param, 0, ((stripNewline (cString read)).drop
        ((scanWord (stripNewline (cString read))).1.length + 1)).length + 1⟩ : Access).Inside :=
      inside _ (by simp [differ])
    have stripped := strip_newline_length ((stripNewline (cString read)).drop
      ((scanWord (stripNewline (cString read))).1.length + 1))
    have bound := copied.2
    simp only [Buffer.size] at bound
    omega
  · decide

def lineCommand (read : List BYTE) : Outcome Cmd :=
  if inside : ∀ access ∈ (splitLine read).accesses, access.Inside then
    .ok ⟨(splitLine read).cmd, split_fits inside⟩
  else .error .outOfBounds

def fileScript (file : List BYTE) : List (Outcome Cmd) := (fileLines file).map lineCommand

/-! The commands. -/

inductive Branch where
  | exits
  | does (act : Act)
  | batch (file : List BYTE)

/-- The branches of `command_handler`; `do_batch_file` goes on where it cannot open its file. -/
def branch (files : Files) (acts : List Act) (cmd : Cmd) : Branch :=
  let param : Param := ⟨cmd.1.param, cmd.2⟩
  match commandOf cmd.1.command with
  | .exit => .exits
  | .createProcess => .does .createsProcess
  | .delProcess => .does (request .delProcess param)
  | .read => .does (request .read param)
  | .loopRead => .does (request .loopRead param)
  | .readToFile => .does (request .readToFile param)
  | .loopReadToFile => .does (request .loopReadToFile param)
  | .write => .does (request .write param)
  | .loopWrite => .does (request .loopWrite param)
  | .batchFile =>
      match files acts cmd.1.param with
      | none => .does (.prints ("Can't open the file specified: " ++ nameOf cmd.1.param ++ "\n"))
      | some file => .batch file
  | .wrongInput => .does (.prints "Wrong input, please type again\n")
  | command => .does (.runs command)

def asyncWait : JobDone.Command → Bool
  | .exit => false
  | .createProcess => false
  | .delProcess => false
  | _ => true

/-- A call of `command_handler`: the work of a command, `signal_job_done` or `wait_job_done`. -/
inductive Call where
  | acts (act : Act)
  | signals
  | waits

def actsOf (calls : List Call) : List Act :=
  calls.filterMap fun call =>
    match call with
    | .acts act => some act
    | _ => none

/-- What is around the console: the files, whether the last call gives what its `do_` function
takes for success, and whether it comes back at all. -/
structure World where
  files : Files
  succeeds : List Call → Bool
  returns : List Call → Bool

def makes (world : World) : List Call → List Call → Option (List Call)
  | calls, [] => some calls
  | calls, call :: rest =>
      if world.returns (calls ++ [call]) then makes world (calls ++ [call]) rest else none

/-- `ret_cmd`. `del_process` gives nothing back, and the functions that print nothing but FALSE
for a program that is not initialised. -/
def retCmd (world : World) (calls : List Call) : Act → Bool
  | .prints _ => false
  | .runs _ => true
  | .requests (.delProcess _) => true
  | _ => world.succeeds calls

/-- A branch of `command_handler`; some of them signal there already. -/
def body : Act → List Call
  | .runs command => [.acts (.runs command), .signals]
  | act => [.acts act]

/-- What `command_handler` calls behind its branches. -/
def behind (retCmd asyncWait : Bool) : List Call :=
  (if retCmd then [] else [.signals]) ++ if asyncWait then [.waits] else []

def does (world : World) (calls : List Call) (asyncWait : Bool) (act : Act) : Option (List Call) :=
  (makes world calls (body act)).bind fun called =>
    makes world called (behind (retCmd world called act) asyncWait)

/-- What `command_handler` comes to. `do_batch_file` leaves `ret_cmd` FALSE. -/
def meaning (world : World) (calls : List Call) : Outcome Cmd → Verdict (Outcome Cmd) (List Call) Fault
  | .error fault => .fails fault
  | .ok cmd =>
      match branch world.files (actsOf calls) cmd with
      | .exits => .leaves calls
      | .does act =>
          match does world calls (asyncWait (commandOf cmd.1.command)) act with
          | some after => .proceeds after
          | none => .stalls
      | .batch file => .opens (fileScript file) fun called => makes world called (behind false true)

theorem get_command_fits (stdin : List BYTE) : (getCommand stdin).1.param.length < filenameMax := by
  have nothing : ([] : List BYTE).length < filenameMax := by decide
  simp only [getCommand]
  split
  · exact nothing
  · split
    · exact nothing
    · split
      · exact nothing
      · rename_i rest param left read
        have short : param.length ≤ filenameMax - 1 := by
          simp only [fgets] at read
          split at read
          · cases read
          · have same := congrArg Prod.fst (Option.some.inj read)
            rw [← show _ = param from same]
            exact take_line_length ..
        have string : (cString param).length ≤ param.length := (List.takeWhile_prefix _).length_le
        have stripped := strip_newline_length (cString param)
        simp only [filenameMax] at short ⊢
        omega

def promptCommand (stdin : List BYTE) : Cmd × List BYTE :=
  (⟨(getCommand stdin).1, get_command_fits stdin⟩, (getCommand stdin).2)

section Loops
variable {State : Type} (meaning : State → Outcome Cmd → Verdict (Outcome Cmd) State Fault)

/-- `command_handler` over the meaning of its commands, with batch files nested to a depth. Its
TRUE is `through`, its FALSE is `left`. -/
def commandHandler (depth : Nat) (s : State) (cmd : Cmd) : Option (Ending State Fault) :=
  handle meaning depth s (.ok cmd)

def doBatchFile (depth : Nat) (s : State) (file : List BYTE) : Option (Ending State Fault) :=
  each (handle meaning depth) s (fileScript file)

/-- The loop of `app_main`, for a number of turns. -/
def mainLoop (depth : Nat) : Nat → State → List BYTE → Option (Ending State Fault)
  | 0, _, _ => none
  | turns + 1, s, stdin =>
      (commandHandler meaning depth s (promptCommand stdin).1).bind
        (Ending.andThen fun after => mainLoop depth turns after (promptCommand stdin).2)

def Session (s : State) (stdin : List BYTE) (ending : Ending State Fault) : Prop :=
  ∃ depth turns, mainLoop meaning depth turns s stdin = some ending

def BatchEnds (s : State) (file : List BYTE) (ending : Ending State Fault) : Prop :=
  ∃ depth, doBatchFile meaning depth s file = some ending

end Loops

/-! How a text falls into lines. -/

theorem take_line_lengths (n : Nat) (stream : List BYTE) :
    (takeLine n stream).1.length + (takeLine n stream).2.length = stream.length := by
  induction n generalizing stream with
  | zero => simp [takeLine]
  | succ n ih =>
      cases stream with
      | nil => rfl
      | cons c rest =>
          rw [takeLine]
          split
          · simp [Nat.add_comm]
          · have inner := ih rest
            simp only [List.length_cons]
            omega

theorem fgets_lengths {size : Nat} {file read rest : List BYTE} (found : fgets size file = some (read, rest)) :
    rest.length < file.length := by
  have lengths := take_line_lengths (size - 1) file
  simp only [fgets] at found
  split at found
  · cases found
  · rename_i filled
    have same : takeLine (size - 1) file = (read, rest) := Option.some.inj found
    rw [same] at lengths filled
    have longer : 0 < read.length := List.length_pos_iff.mpr filled
    have total : read.length + rest.length = file.length := lengths
    omega

theorem read_lines_turns {turns more : Nat} {file : List BYTE} (enough : file.length ≤ turns)
    (also : file.length ≤ more) : readLines turns file = readLines more file := by
  induction turns generalizing more file with
  | zero =>
      have nothing : file = [] := List.eq_nil_of_length_eq_zero (Nat.le_zero.mp enough)
      subst nothing
      cases more with
      | zero => rfl
      | succ more => rfl
  | succ turns ih =>
      cases more with
      | zero =>
          have nothing : file = [] := List.eq_nil_of_length_eq_zero (Nat.le_zero.mp also)
          subst nothing
          rfl
      | succ more =>
          simp only [readLines]
          cases found : fgets Buffer.rawCmd.size file with
          | none => rfl
          | some line =>
              have shorter := fgets_lengths found
              exact congrArg _ (ih (by omega) (by omega))

theorem file_lines_cons {file read rest : List BYTE} (found : fgets Buffer.rawCmd.size file = some (read, rest)) :
    fileLines file = read :: fileLines rest := by
  have shorter := fgets_lengths found
  obtain ⟨turns, length⟩ : ∃ turns, file.length = turns + 1 := ⟨file.length - 1, by omega⟩
  rw [fileLines, length, readLines, found]
  exact congrArg _ (read_lines_turns (by omega) (Nat.le_refl _))

def Whole (text : List BYTE) : Prop := text = [] ∨ text.getLast? = some 10

theorem take_line_append {text : List BYTE} (ends : text.getLast? = some 10) (n : Nat) (later : List BYTE) :
    takeLine n (text ++ later) = ((takeLine n text).1, (takeLine n text).2 ++ later) ∧
      Whole (takeLine n text).2 := by
  induction n generalizing text with
  | zero => exact ⟨rfl, .inr ends⟩
  | succ n ih =>
      cases text with
      | nil => cases ends
      | cons c rest =>
          simp only [List.cons_append, takeLine]
          split
          · refine ⟨rfl, ?_⟩
            cases rest with
            | nil => exact .inl rfl
            | cons d rest => exact .inr (by simpa using ends)
          · rename_i other
            cases rest with
            | nil => exact absurd (by simpa using ends) other
            | cons d rest =>
                have inner : (d :: rest).getLast? = some 10 := by simpa using ends
                obtain ⟨same, whole⟩ := ih inner
                exact ⟨by rw [same], whole⟩

theorem file_lines_append {text : List BYTE} (whole : Whole text) (later : List BYTE) :
    fileLines (text ++ later) = fileLines text ++ fileLines later := by
  induction length : text.length using Nat.strong_induction_on generalizing text with
  | _ n ih =>
      rcases whole with rfl | ends
      · rfl
      · obtain ⟨same, rest⟩ := take_line_append ends (Buffer.rawCmd.size - 1) later
        have filled : (takeLine (Buffer.rawCmd.size - 1) text).1 ≠ [] := by
          cases text with
          | nil => cases ends
          | cons c text =>
              change (takeLine (4110 : Nat) (c :: text)).1 ≠ []
              rw [takeLine]
              split <;> simp
        have first : fgets Buffer.rawCmd.size text = some (takeLine (Buffer.rawCmd.size - 1) text) := by
          simp only [fgets, if_neg filled]
        have both : fgets Buffer.rawCmd.size (text ++ later) = some
            ((takeLine (Buffer.rawCmd.size - 1) text).1, (takeLine (Buffer.rawCmd.size - 1) text).2 ++ later) := by
          simp only [fgets, same, if_neg filled]
        have shorter := fgets_lengths first
        rw [file_lines_cons both, file_lines_cons first, ih _ (length ▸ shorter) rest rfl]
        rfl

theorem take_line_newline {line : List BYTE} {n : Nat} (plain : ∀ c ∈ line, c ≠ 10) (fits : line.length < n)
    (later : List BYTE) : takeLine n (line ++ 10 :: later) = (line ++ [10], later) := by
  induction line generalizing n with
  | nil =>
      cases n with
      | zero => cases fits
      | succ n => simp [takeLine]
  | cons c line ih =>
      cases n with
      | zero => cases fits
      | succ n =>
          have inner := ih (n := n) (fun c member => plain c (by simp [member])) (Nat.lt_of_succ_lt_succ fits)
          rw [List.cons_append, takeLine, if_neg (plain c (by simp)), inner]
          rfl

/-! Lines that the prompt and a batch file understand alike. -/

/-- A line of text that begins with its command and has no parameter, or one that fits with
the newline behind it. -/
structure Regular (line : List BYTE) : Prop where
  text : ∀ c ∈ line, c ≠ 0 ∧ c ≠ 10
  begins : ∃ c rest, line = c :: rest ∧ isSpace c = false
  apart : line.length ≠ (scanWord line).1.length + 1
  fits : line.length < (scanWord line).1.length + filenameMax

section Lines
variable {line : List BYTE}

theorem Regular.solid (regular : Regular line) : ∃ c ∈ line, isSpace c = false := by
  obtain ⟨c, rest, rfl, solid⟩ := regular.begins
  exact ⟨c, List.mem_cons_self, solid⟩

theorem Regular.splits (regular : Regular line) : line = (scanWord line).1 ++ (scanWord line).2 := by
  have split := scan_word_splits line
  obtain ⟨c, rest, same, solid⟩ := regular.begins
  have blanks : line.takeWhile isSpace = [] := by
    rw [same, List.takeWhile_cons_of_neg (by simp [solid])]
  rwa [blanks, List.nil_append] at split

def paramOf (line : List BYTE) : List BYTE := line.drop ((scanWord line).1.length + 1)

theorem Regular.param (regular : Regular line) : (paramOf line).length < filenameMax := by
  have fits := regular.fits
  rw [paramOf, List.length_drop]
  have some : 0 < filenameMax := by decide
  omega

def Regular.cmd (regular : Regular line) : Cmd := ⟨⟨(scanWord line).1, paramOf line⟩, regular.param⟩

theorem Regular.behind (regular : Regular line) : (scanWord line).2.drop 1 = paramOf line := by
  have split := regular.splits
  calc (scanWord line).2.drop 1
      = ((scanWord line).1 ++ (scanWord line).2).drop ((scanWord line).1.length + 1) := by
        rw [← List.drop_drop, List.drop_left]
    _ = paramOf line := by rw [← split, paramOf]

theorem prompt_regular (regular : Regular line) (later : List BYTE) :
    promptCommand (line ++ 10 :: later) = (regular.cmd, later) := by
  have scanned : scanWord (line ++ 10 :: later) = ((scanWord line).1, (scanWord line).2 ++ 10 :: later) :=
    scan_word_append regular.solid (by simp [isSpace])
  have word : cString (scanWord line).1 = (scanWord line).1 :=
    c_string_plain fun c member => (scan_word_text regular.text (.inl member)).1
  have behind := regular.behind
  have read : getCommand (line ++ 10 :: later) = (⟨(scanWord line).1, paramOf line⟩, later) := by
    cases tail : (scanWord line).2 with
    | nil =>
        rw [tail, List.drop_nil] at behind
        simp only [getCommand, scanned, tail, List.nil_append, if_true, word, ← behind]
    | cons sep rest =>
        have plain : ∀ c ∈ rest, c ≠ 0 ∧ c ≠ 10 := fun c member =>
          scan_word_text regular.text (.inr (by simp [tail, member]))
        have notNewline : sep ≠ 10 := (scan_word_text regular.text (.inr (by simp [tail]))).2
        rw [tail, List.drop_succ_cons, List.drop_zero] at behind
        have split := congrArg List.length regular.splits
        rw [tail, List.length_append, List.length_cons] at split
        have fits := regular.fits
        have room : rest.length < filenameMax - 1 := by omega
        have string : ∀ c ∈ rest ++ [10], c ≠ 0 := by
          intro c member
          rcases List.mem_append.mp member with inside | last
          · exact (plain c inside).1
          · rw [List.mem_singleton.mp last]
            decide
        have cut : stripNewline (cString (rest ++ [10])) = rest := by
          rw [c_string_plain string]
          simp [stripNewline]
        have filled : rest ++ [10] ≠ [] := by simp
        simp only [getCommand, scanned, tail, List.cons_append, if_neg notNewline, fgets,
          take_line_newline (fun c member => (plain c member).2) room, if_neg filled, word, cut, ← behind]
  have command : (promptCommand (line ++ 10 :: later)).1 = regular.cmd :=
    Subtype.ext (congrArg Prod.fst read)
  have left : (promptCommand (line ++ 10 :: later)).2 = later := congrArg Prod.snd read
  exact Prod.ext command left

theorem Regular.short (regular : Regular line) : line.length < Buffer.rawCmd.size - 1 := by
  have word := scan_word_short line
  have fits := regular.fits
  simp only [Buffer.size, maxCmdLen, filenameMax] at *
  omega

theorem batch_regular (regular : Regular line) (later : List BYTE) :
    fileScript (line ++ 10 :: later) = .ok regular.cmd :: fileScript later := by
  have taken := take_line_newline (fun c member => (regular.text c member).2) regular.short later
  have filled : line ++ [10] ≠ [] := by simp
  have found : fgets Buffer.rawCmd.size (line ++ 10 :: later) = some (line ++ [10], later) := by
    simp only [fgets, taken, if_neg filled]
  have string : ∀ c ∈ line ++ [10], c ≠ 0 := by
    intro c member
    rcases List.mem_append.mp member with inside | last
    · exact (regular.text c inside).1
    · rw [List.mem_singleton.mp last]
      decide
  have whole : cString (line ++ [10]) = line ++ [10] := c_string_plain string
  have cut : stripNewline (line ++ [10]) = line := by simp [stripNewline]
  have word : stripNewline (scanWord line).1 = (scanWord line).1 :=
    strip_newline_plain fun c member => (scan_word_text regular.text (.inl member)).2
  have param : stripNewline (paramOf line) = paramOf line :=
    strip_newline_plain fun c member => (regular.text c (List.mem_of_mem_drop member)).2
  have alone : line = (scanWord line).1 → paramOf line = [] := by
    intro same
    rw [paramOf, ← same]
    exact List.drop_eq_nil_of_le (Nat.le_succ _)
  have cmd : (splitLine (line ++ [10])).cmd = ⟨(scanWord line).1, paramOf line⟩ := by
    simp only [splitLine, whole, cut, word]
    by_cases same : line = (scanWord line).1
    · rw [if_neg (not_not.mpr same), alone same]
    · rw [if_pos same]
      exact congrArg _ param
  have inside : ∀ access ∈ (splitLine (line ++ [10])).accesses, access.Inside := by
    have length := regular.short
    have command := scan_word_short line
    have some : 0 < (scanWord line).1.length := List.length_pos_iff.mpr (scan_word_some.mpr regular.solid)
    have apart := regular.apart
    have fits := regular.fits
    have solo := scan_word_alone line
    simp only [splitLine, whole, cut, List.length_append, List.length_singleton]
    simp only [Buffer.size, maxCmdLen, filenameMax] at length command fits
    by_cases differ : line ≠ (scanWord line).1
    · have longer := solo.mp differ
      simp only [if_pos differ, List.forall_mem_append, List.forall_mem_cons, Access.Inside, Buffer.size,
        List.length_drop, maxCmdLen, filenameMax, List.not_mem_nil, false_implies, implies_true, and_true]
      omega
    · simp only [if_neg differ, List.forall_mem_append, List.forall_mem_cons, Access.Inside, Buffer.size,
        maxCmdLen, filenameMax, List.not_mem_nil, false_implies, implies_true, and_true]
      omega
  have command : lineCommand (line ++ [10]) = .ok regular.cmd := by
    rw [lineCommand, dif_pos inside]
    exact congrArg Except.ok (Subtype.ext cmd)
  rw [fileScript, file_lines_cons found, List.map_cons, command]
  rfl

end Lines

end VmSim.Console
