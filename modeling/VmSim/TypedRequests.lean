import VmSim.Sessions

/-!
Requests as a user types them, and the way back: numbers in decimal, words apart by one
blank. The console takes a line that is written so for the request it was written for,
whether it comes from the prompt or from a batch file.
-/

namespace VmSim.Console
open CommandLine Scripts

def digits (n : Nat) : List BYTE := (Nat.toDigits 10 n).map fun c => BitVec.ofNat 8 c.toNat

def unwords : List (List BYTE) → List BYTE
  | [] => []
  | [word] => word
  | word :: next :: rest => word ++ 32 :: unwords (next :: rest)

def nameOfRequest : Request → CommandName
  | .read .. => .read
  | .loopRead .. => .loopRead
  | .readToFile .. => .readToFile
  | .loopReadToFile .. => .loopReadToFile
  | .write .. => .write
  | .loopWrite .. => .loopWrite
  | .delProcess .. => .delProcess

def wordOf : CommandName → List BYTE
  | .read => ascii "read"
  | .loopRead => ascii "loopRead"
  | .readToFile => ascii "readToFile"
  | .loopReadToFile => ascii "loopReadToFile"
  | .write => ascii "write"
  | .loopWrite => ascii "loopWrite"
  | .delProcess => ascii "delProcess"

def paramWords : Request → List (List BYTE)
  | .read vaddr id amount => [digits vaddr.toNat, digits id.toNat, digits amount.toNat]
  | .loopRead vaddr id off amount =>
      [digits vaddr.toNat, digits id.toNat, digits off.toNat, digits amount.toNat]
  | .readToFile vaddr id amount fileName =>
      [digits vaddr.toNat, digits id.toNat, digits amount.toNat, ascii fileName]
  | .loopReadToFile vaddr id off amount fileName =>
      [digits vaddr.toNat, digits id.toNat, digits off.toNat, digits amount.toNat, ascii fileName]
  | .write vaddr id s => [digits vaddr.toNat, digits id.toNat, s]
  | .loopWrite vaddr id c off amount =>
      [digits vaddr.toNat, digits id.toNat, [c], digits off.toNat, digits amount.toNat]
  | .delProcess id => [digits id.toNat]

def requestLine (request : Request) : List BYTE :=
  wordOf (nameOfRequest request) ++ 32 :: unwords (paramWords request)

structure Word (word : List BYTE) : Prop where
  filled : word ≠ []
  text : ∀ c ∈ word, c ≠ 0 ∧ c ≠ 10 ∧ c ≠ 32

def fileNameOf : Request → Option String
  | .readToFile _ _ _ fileName => some fileName
  | .loopReadToFile _ _ _ _ fileName => some fileName
  | _ => none

/-- The strings of a request are words, the name of its file is one of single bytes, and the
line fits its arrays. -/
structure Typable (request : Request) : Prop where
  words : ∀ word ∈ paramWords request, Word word
  named : ∀ fileName, fileNameOf request = some fileName → nameOf (ascii fileName) = fileName
  fits : (unwords (paramWords request)).length + 1 < filenameMax

/-! Numbers. -/

theorem digits_step (n : Nat) :
    digits n = (if n < 10 then [] else digits (n / 10)) ++ [BitVec.ofNat 8 (48 + n % 10)] := by
  have single : ∀ d < 10, BitVec.ofNat 8 (Nat.digitChar d).toNat = BitVec.ofNat 8 (48 + d) := by decide
  unfold digits
  rw [Nat.toDigits_eq_if (by decide)]
  split
  · rename_i small
    rw [Nat.mod_eq_of_lt small]
    exact congrArg (· :: []) (single n small)
  · rw [List.map_append]
    exact congrArg _ (congrArg (· :: []) (single _ (Nat.mod_lt _ (by decide))))

theorem digits_filled (n : Nat) : digits n ≠ [] := by
  rw [digits_step]
  simp

theorem digits_digit {n : Nat} {c : BYTE} (member : c ∈ digits n) : isDigit c = true := by
  have last : ∀ d < 10, isDigit (BitVec.ofNat 8 (48 + d)) = true := by decide
  induction n using Nat.strong_induction_on with
  | _ n ih =>
      rw [digits_step] at member
      rcases List.mem_append.mp member with before | here
      · split at before
        · cases before
        · exact ih (n / 10) (by omega) before
      · rw [List.mem_singleton.mp here]
        exact last _ (Nat.mod_lt _ (by decide))

theorem decimal_digits (n : Nat) : decimal (digits n) = n := by
  have value : ∀ d < 10, (BitVec.ofNat 8 (48 + d)).toNat - 48 = d := by decide
  induction n using Nat.strong_induction_on with
  | _ n ih =>
      rw [digits_step, decimal, List.foldl_append, List.foldl_cons, List.foldl_nil,
        value _ (Nat.mod_lt _ (by decide))]
      split
      · rename_i small
        rw [List.foldl_nil, Nat.mod_eq_of_lt small]
        omega
      · have before : decimal (digits (n / 10)) = n / 10 := ih (n / 10) (by omega)
        rw [decimal] at before
        rw [before]
        omega

theorem scan_digits (x : BitVec 32) : scanUnsigned (digits x.toNat) = some x := by
  have digit : ∀ c : BYTE, isDigit c = true → isSpace c = false ∧ c ≠ 45 ∧ c ≠ 43 := by decide
  obtain ⟨c, rest, same⟩ := List.exists_cons_of_ne_nil (digits_filled x.toNat)
  have first := digit c (digits_digit (same ▸ List.mem_cons_self))
  have blanks : (digits x.toNat).dropWhile isSpace = digits x.toNat := by
    rw [same, List.dropWhile_cons_of_neg (by simp [first.1])]
  have minus : (digits x.toNat).head? ≠ some 45 := by
    rw [same]
    exact fun head => first.2.1 (Option.some.inj head)
  have plus : (digits x.toNat).head? ≠ some 43 := by
    rw [same]
    exact fun head => first.2.2 (Option.some.inj head)
  have all : (digits x.toNat).takeWhile isDigit = digits x.toNat := by
    rw [List.takeWhile_eq_self_iff]
    exact fun c member => digits_digit member
  have bound := x.isLt
  simp only [scanUnsigned, blanks, minus, plus, or_self, if_false, all, if_neg (digits_filled _),
    decimal_digits]
  rw [if_neg (by omega), BitVec.ofNat_toNat, BitVec.setWidth_eq]

theorem number_digits (x : BitVec 32) (rest : List (List BYTE)) :
    number (digits x.toNat :: rest) = some (x, rest) := by
  rw [number, scan_digits]
  rfl

theorem digits_word (n : Nat) : Word (digits n) where
  filled := digits_filled n
  text := by
    have digit : ∀ c : BYTE, isDigit c = true → c ≠ 0 ∧ c ≠ 10 ∧ c ≠ 32 := by decide
    exact fun c member => digit c (digits_digit member)

/-! Words. -/

theorem strtok_from_last {current word : List BYTE} (solid : 32 ∉ word) (filled : current ++ word ≠ []) :
    strtokFrom current word = [current ++ word] := by
  induction word generalizing current with
  | nil =>
      rw [List.append_nil] at filled ⊢
      rw [strtokFrom, if_neg filled]
  | cons c word ih =>
      obtain ⟨other, solid⟩ := not_or.mp (mt List.mem_cons.mpr solid)
      rw [strtokFrom, if_neg (Ne.symm other), ih solid (by simp)]
      simp

theorem strtok_from_word {current word : List BYTE} (solid : 32 ∉ word) (filled : current ++ word ≠ [])
    (later : List BYTE) : strtokFrom current (word ++ 32 :: later) = (current ++ word) :: strtokFrom [] later := by
  induction word generalizing current with
  | nil =>
      rw [List.append_nil] at filled ⊢
      rw [List.nil_append, strtokFrom, if_pos rfl, if_neg filled]
  | cons c word ih =>
      obtain ⟨other, solid⟩ := not_or.mp (mt List.mem_cons.mpr solid)
      rw [List.cons_append, strtokFrom, if_neg (Ne.symm other), ih solid (by simp)]
      simp

theorem strtok_unwords {words : List (List BYTE)} (typed : ∀ word ∈ words, Word word) :
    strtokFrom [] (unwords words) = words := by
  induction words with
  | nil => rfl
  | cons word rest ih =>
      have this := typed word List.mem_cons_self
      have solid : 32 ∉ word := fun member => (this.text 32 member).2.2 rfl
      cases rest with
      | nil => exact strtok_from_last solid this.filled
      | cons next rest =>
          have filled : [] ++ word ≠ [] := this.filled
          rw [unwords, strtok_from_word solid filled, List.nil_append,
            ih fun word member => typed word (List.mem_cons_of_mem _ member)]

theorem unwords_text {words : List (List BYTE)} (typed : ∀ word ∈ words, Word word) {c : BYTE}
    (member : c ∈ unwords words) : c ≠ 0 ∧ c ≠ 10 := by
  induction words with
  | nil => cases member
  | cons word rest ih =>
      have this := typed word List.mem_cons_self
      cases rest with
      | nil => exact ⟨(this.text c member).1, (this.text c member).2.1⟩
      | cons next rest =>
          rcases List.mem_append.mp member with here | later
          · exact ⟨(this.text c here).1, (this.text c here).2.1⟩
          · rcases List.mem_cons.mp later with rfl | later
            · decide
            · exact ih (fun word member => typed word (List.mem_cons_of_mem _ member)) later

/-! Requests. -/

section Requests
variable {request : Request}

theorem params_filled (typable : Typable request) : 0 < (unwords (paramWords request)).length := by
  have first : ∀ {word rest}, Word word → 0 < (unwords (word :: rest)).length := by
    intro word rest this
    have some := List.length_pos_iff.mpr this.filled
    cases rest with
    | nil => exact some
    | cons next rest =>
        rw [unwords, List.length_append]
        omega
  cases request <;> exact first (digits_word _)

theorem request_parsed (typable : Typable request) {param : Param}
    (written : param.1 = unwords (paramWords request)) :
    CommandLine.commandHandler (nameOfRequest request) param = some request := by
  have tokens : strtok param = paramWords request := by
    rw [strtok, written, strtok_unwords typable.words]
  cases request with
  | delProcess id =>
      change doDelProcess param = _
      rw [doDelProcess, written]
      exact congrArg (Option.map Request.delProcess) (scan_digits id)
  | read vaddr id amount =>
      change doRead param = _
      simp only [doRead, tokens, paramWords, number_digits, Option.bind_eq_bind, Option.bind_some]
      rfl
  | loopRead vaddr id off amount =>
      change doLoopRead param = _
      simp only [doLoopRead, tokens, paramWords, number_digits, Option.bind_eq_bind, Option.bind_some]
      rfl
  | readToFile vaddr id amount fileName =>
      have named := typable.named fileName rfl
      change doReadToFile param = _
      simp only [doReadToFile, tokens, paramWords, number_digits, Option.bind_eq_bind, Option.bind_some]
      exact congrArg (fun name => some (Request.readToFile vaddr id amount name)) named
  | loopReadToFile vaddr id off amount fileName =>
      have named := typable.named fileName rfl
      change doLoopReadToFile param = _
      simp only [doLoopReadToFile, tokens, paramWords, number_digits, Option.bind_eq_bind, Option.bind_some]
      exact congrArg (fun name => some (Request.loopReadToFile vaddr id off amount name)) named
  | write vaddr id s =>
      change doWrite param = _
      simp only [doWrite, tokens, paramWords, number_digits, Option.bind_eq_bind, Option.bind_some]
      rfl
  | loopWrite vaddr id c off amount =>
      change doLoopWrite param = _
      simp only [doLoopWrite, tokens, paramWords, number_digits, Option.bind_eq_bind, Option.bind_some]
      rfl

theorem command_word (name : CommandName) : (∀ c ∈ wordOf name, isSpace c = false ∧ c ≠ 0) ∧
    wordOf name ≠ [] ∧ (wordOf name).length ≤ maxCmdLen := by
  cases name <;> decide +kernel

theorem request_scan (request : Request) :
    scanWord (requestLine request) = (wordOf (nameOfRequest request), 32 :: unwords (paramWords request)) := by
  obtain ⟨solid, filled, short⟩ := command_word (nameOfRequest request)
  exact scan_word_blank (fun c member => (solid c member).1) filled short _

theorem request_regular (typable : Typable request) : Regular (requestLine request) where
  text := by
    intro c member
    rcases List.mem_append.mp member with word | behind
    · obtain ⟨solid, zero⟩ := (command_word (nameOfRequest request)).1 c word
      refine ⟨zero, ?_⟩
      rintro rfl
      cases solid
    · rcases List.mem_cons.mp behind with rfl | param
      · decide
      · exact unwords_text typable.words param
  begins := by
    obtain ⟨solid, filled, -⟩ := command_word (nameOfRequest request)
    obtain ⟨c, rest, same⟩ := List.exists_cons_of_ne_nil filled
    exact ⟨c, rest ++ 32 :: unwords (paramWords request), by rw [requestLine, same]; rfl,
      (solid c (same ▸ List.mem_cons_self)).1⟩
  apart := by
    have filled := params_filled typable
    rw [request_scan, requestLine, List.length_append, List.length_cons]
    dsimp only
    omega
  fits := by
    have fits := typable.fits
    rw [request_scan, requestLine, List.length_append, List.length_cons]
    dsimp only
    omega

theorem request_cmd (typable : Typable request) :
    (request_regular typable).cmd.1 = ⟨wordOf (nameOfRequest request), unwords (paramWords request)⟩ := by
  have param : paramOf (requestLine request) = unwords (paramWords request) := by
    rw [paramOf, request_scan, requestLine, ← List.drop_drop, List.drop_left]
    rfl
  change (⟨(scanWord (requestLine request)).1, paramOf (requestLine request)⟩ : UiCmd) = _
  rw [request_scan, param]

theorem branch_request {name : CommandName} {cmd : Cmd} (word : cmd.1.command = wordOf name)
    (files : Files) (acts : List Act) :
    branch files acts cmd = .does (Console.request name ⟨cmd.1.param, cmd.2⟩) := by
  cases name with
  | read =>
      have command : commandOf (wordOf .read) = .read := by decide +kernel
      simp only [branch, word, command]
  | loopRead =>
      have command : commandOf (wordOf .loopRead) = .loopRead := by decide +kernel
      simp only [branch, word, command]
  | readToFile =>
      have command : commandOf (wordOf .readToFile) = .readToFile := by decide +kernel
      simp only [branch, word, command]
  | loopReadToFile =>
      have command : commandOf (wordOf .loopReadToFile) = .loopReadToFile := by decide +kernel
      simp only [branch, word, command]
  | write =>
      have command : commandOf (wordOf .write) = .write := by decide +kernel
      simp only [branch, word, command]
  | loopWrite =>
      have command : commandOf (wordOf .loopWrite) = .loopWrite := by decide +kernel
      simp only [branch, word, command]
  | delProcess =>
      have command : commandOf (wordOf .delProcess) = .delProcess := by decide +kernel
      simp only [branch, word, command]

theorem request_proceeds (typable : Typable request) (files : Files) (acts : List Act) :
    plain files acts (.ok (request_regular typable).cmd) = .proceeds (acts ++ [.requests request]) := by
  have cmd := request_cmd typable
  have written : (request_regular typable).cmd.1.param = unwords (paramWords request) := by rw [cmd]
  have word : (request_regular typable).cmd.1.command = wordOf (nameOfRequest request) := by rw [cmd]
  rw [plain, branch_request word, Console.request, request_parsed typable written]

end Requests

/-! Lists of requests. -/

section Scripts
variable {files : Files} {acts : List Act} {requests : List Request} {ending : Ending (List Act) Fault}

theorem requests_regular (typable : ∀ request ∈ requests, Typable request) :
    ∀ line ∈ requests.map requestLine, Regular line := by
  intro line member
  obtain ⟨request, listed, rfl⟩ := List.mem_map.mp member
  exact request_regular (typable request listed)

theorem requests_run (typable : ∀ request ∈ requests, Typable request) (later : List BYTE) :
    Returns (plain files) acts (fileScript (text (requests.map requestLine) ++ later)) ending ↔
      Returns (plain files) (acts ++ requests.map Act.requests) (fileScript later) ending := by
  induction requests generalizing acts with
  | nil =>
      rw [List.map_nil, List.map_nil, List.append_nil]
      rfl
  | cons request rest ih =>
      have this := typable request List.mem_cons_self
      have others : ∀ request ∈ rest, Typable request := fun _ member => typable _ (List.mem_cons_of_mem _ member)
      rw [List.map_cons, text_cons, batch_regular (request_regular this), List.map_cons,
        ← List.singleton_append, returns_append]
      simp only [returns_proceeds (request_proceeds this files acts), Ending.through.injEq]
      constructor
      · rintro (⟨middle, rfl, later⟩ | ⟨rfl, stops⟩)
        · have done := (ih others).mp later
          rwa [List.append_assoc] at done
        · exact absurd rfl (stops _)
      · intro later
        refine .inl ⟨_, rfl, (ih others).mpr ?_⟩
        rwa [List.append_assoc]

theorem exit_regular : Regular (ascii "exit") where
  text := by decide +kernel
  begins := ⟨101, ascii "xit", rfl, by decide⟩
  apart := by decide +kernel
  fits := by decide +kernel

theorem exit_leaves (files : Files) (acts : List Act) :
    plain files acts (.ok exit_regular.cmd) = .leaves acts := by
  have command : commandOf exit_regular.cmd.1.command = .exit := by decide +kernel
  simp only [plain, branch, command]

theorem exit_session (later : List BYTE) :
    Session (plain files) acts (ascii "exit" ++ 10 :: later) ending ↔ ending = .left acts := by
  rw [session_step, prompt_regular exit_regular]
  simp only [returns_leaves (exit_leaves files acts), reduceCtorEq, false_and, exists_false, false_or]
  exact ⟨And.left, fun same => ⟨same, by simp [same, Ending.Stops]⟩⟩

theorem requests_plain (typable : ∀ request ∈ requests, Typable request) (later : List BYTE)
    (ending : Ending (List Act) Fault) :
    (Session (plain files) acts (text (requests.map requestLine) ++ (ascii "exit" ++ 10 :: later)) ending ↔
      ending = .left (acts ++ requests.map .requests)) ∧
    (BatchEnds (plain files) acts (text (requests.map requestLine)) ending ↔
      ending = .through (acts ++ requests.map .requests)) := by
  have batch : ∀ ending, Returns (plain files) acts (fileScript (text (requests.map requestLine))) ending ↔
      ending = .through (acts ++ requests.map .requests) := by
    intro ending
    have run : Returns (plain files) acts (fileScript (text (requests.map requestLine) ++ [])) ending ↔
        Returns (plain files) (acts ++ requests.map .requests) (fileScript []) ending :=
      requests_run typable []
    rw [List.append_nil] at run
    exact run.trans returns_nil
  refine ⟨?_, batch ending⟩
  rw [session_lines (requests_regular typable)]
  simp only [batch, Ending.through.injEq, exists_eq_left, exit_session]
  constructor
  · rintro (left | ⟨rfl, stops⟩)
    · exact left
    · exact absurd rfl (stops _)
  · exact .inl

/-- Whatever requests are typed or written to a batch file are made, each once and in their order;
and the console comes to the end of them where every call comes back. -/
theorem requests_replayed (world : World) (calls : List Call) (typable : ∀ request ∈ requests, Typable request)
    (later : List BYTE) :
    (∀ ending, Session (meaning world) calls (text (requests.map requestLine) ++ (ascii "exit" ++ 10 :: later)) ending →
      ending.map actsOf = .left (actsOf calls ++ requests.map .requests)) ∧
    (∀ ending, BatchEnds (meaning world) calls (text (requests.map requestLine)) ending →
      ending.map actsOf = .through (actsOf calls ++ requests.map .requests)) ∧
    (Patient world →
      (∃ ending, Session (meaning world) calls
        (text (requests.map requestLine) ++ (ascii "exit" ++ 10 :: later)) ending) ∧
      ∃ ending, BatchEnds (meaning world) calls (text (requests.map requestLine)) ending) := by
  refine ⟨fun ending session => ?_, fun ending ends => ?_, fun patient => ⟨?_, ?_⟩⟩
  · exact (requests_plain typable later _).1.mp (session_viewed (meaning_viewed world) session)
  · exact (requests_plain typable later _).2.mp (returns_viewed (meaning_viewed world) ends)
  · obtain ⟨ending, session, -⟩ := (session_plain patient _).mpr ((requests_plain typable later _).1.mpr rfl)
    exact ⟨ending, session⟩
  · obtain ⟨ending, ends, -⟩ := (batch_plain patient _).mpr ((requests_plain typable later _).2.mpr rfl)
    exact ⟨ending, ends⟩

def writeAndRead : List Request := [.write 0 0 [104, 105], .read 0 0 2]

theorem write_and_read_typable : ∀ request ∈ writeAndRead, Typable request := by
  have texts : ∀ request ∈ writeAndRead, (∀ word ∈ paramWords request, word ≠ [] ∧
      ∀ c ∈ word, c ≠ 0 ∧ c ≠ 10 ∧ c ≠ 32) ∧ (unwords (paramWords request)).length + 1 < filenameMax ∧
      fileNameOf request = none := by decide +kernel
  intro request listed
  obtain ⟨words, fits, unnamed⟩ := texts request listed
  refine ⟨fun word member => ⟨(words word member).1, (words word member).2⟩, ?_, fits⟩
  intro fileName named
  rw [unnamed] at named
  cases named

theorem requests_replayed_read :
    ∃ ending, Session (meaning creating) [] (text (writeAndRead.map requestLine) ++ (ascii "exit" ++ 10 :: [])) ending ∧
      ending.map actsOf = .left (writeAndRead.map Act.requests) := by
  have replayed := requests_replayed creating [] write_and_read_typable []
  obtain ⟨ending, session⟩ := (replayed.2.2 creating_patient).1
  exact ⟨ending, session, replayed.1 ending session⟩

end Scripts

end VmSim.Console
