import VmSim.MailDispatch
import VmSim.ReadBuffer

/-!
The commands of vmsim/ui_app.c that name a process. A parameter line is cut
at its blanks and its numbers are read by `sscanf`, which takes a sign, any
number of digits and whatever follows them. What was typed is `unsigned` until
app_util.c takes it as an `int`, and a process id becomes `unsigned` again.
-/

namespace VmSim.CommandLine
open ProcessTable MailDispatch CallTree

def filenameMax : Nat := 4096

abbrev Param := { line : List BYTE // line.length < filenameMax }

/-- The calls of `strtok(param, " ")` until there is no token left; `token` is the
one being read. -/
def strtokFrom (token : List BYTE) : List BYTE → List (List BYTE)
  | [] => if token = [] then [] else [token]
  | c :: rest =>
      if c = 32 then if token = [] then strtokFrom [] rest else token :: strtokFrom [] rest
      else strtokFrom (token ++ [c]) rest

def strtok (param : Param) : List (List BYTE) := strtokFrom [] param.1

def isSpace (c : BYTE) : Bool := c = 32 || (9 ≤ c && c ≤ 13)

def isDigit (c : BYTE) : Bool := 48 ≤ c && c ≤ 57

def decimal (digits : List BYTE) : Nat := digits.foldl (fun n c => 10 * n + (c.toNat - 48)) 0

/-- `sscanf(s, " %u ", &x) > 0`. The number is one of 64 bits, as `strtoul` has it,
and its low half is stored. -/
def scanUnsigned (s : List BYTE) : Option (BitVec 32) :=
  let text := s.dropWhile isSpace
  let negative := text.head? = some 45
  let digits := (if negative ∨ text.head? = some 43 then text.tail else text).takeWhile isDigit
  if digits = [] then none
  else if 2 ^ 64 ≤ decimal digits then some (BitVec.allOnes 32)
  else if negative then some (-BitVec.ofNat 32 (decimal digits))
  else some (BitVec.ofNat 32 (decimal digits))

def number : List (List BYTE) → Option (BitVec 32 × List (List BYTE))
  | [] => none
  | token :: rest => (scanUnsigned token).map fun x => (x, rest)

def nameOf (token : List BYTE) : String := String.ofList (token.map fun c => Char.ofNat c.toNat)

inductive Request where
  | read (vaddr id amount : BitVec 32)
  | loopRead (vaddr id off amount : BitVec 32)
  | readToFile (vaddr id amount : BitVec 32) (fileName : String)
  | loopReadToFile (vaddr id off amount : BitVec 32) (fileName : String)
  | write (vaddr id : BitVec 32) (s : List BYTE)
  | loopWrite (vaddr id : BitVec 32) (c : BYTE) (off amount : BitVec 32)
  | delProcess (id : BitVec 32)
  deriving DecidableEq, Repr

/-! The parsers of the seven commands; `none` prints the usage. -/

def doRead (param : Param) : Option Request := do
  let (vaddr, rest) ← number (strtok param)
  let (id, rest) ← number rest
  let (amount, _) ← number rest
  pure (.read vaddr id amount)

def doLoopRead (param : Param) : Option Request := do
  let (vaddr, rest) ← number (strtok param)
  let (id, rest) ← number rest
  let (off, rest) ← number rest
  let (amount, _) ← number rest
  pure (.loopRead vaddr id off amount)

def doReadToFile (param : Param) : Option Request := do
  let (vaddr, rest) ← number (strtok param)
  let (id, rest) ← number rest
  let (amount, rest) ← number rest
  let token ← rest.head?
  pure (.readToFile vaddr id amount (nameOf token))

def doLoopReadToFile (param : Param) : Option Request := do
  let (vaddr, rest) ← number (strtok param)
  let (id, rest) ← number rest
  let (off, rest) ← number rest
  let (amount, rest) ← number rest
  let token ← rest.head?
  pure (.loopReadToFile vaddr id off amount (nameOf token))

def doWrite (param : Param) : Option Request := do
  let (vaddr, rest) ← number (strtok param)
  let (id, rest) ← number rest
  let token ← rest.head?
  pure (.write vaddr id token)

/-- The third token has to be one character long. -/
def doLoopWrite (param : Param) : Option Request := do
  let (vaddr, rest) ← number (strtok param)
  let (id, rest) ← number rest
  match rest with
  | [c] :: rest => do
      let (off, rest) ← number rest
      let (amount, _) ← number rest
      pure (.loopWrite vaddr id c off amount)
  | _ => none

def doDelProcess (param : Param) : Option Request := (scanUnsigned param.1).map .delProcess

inductive CommandName where
  | read
  | loopRead
  | readToFile
  | loopReadToFile
  | write
  | loopWrite
  | delProcess
  deriving DecidableEq, Repr

/-- The branches of `command_handler` that name a process. -/
def commandHandler : CommandName → Param → Option Request
  | .read => doRead
  | .loopRead => doLoopRead
  | .readToFile => doReadToFile
  | .loopReadToFile => doLoopReadToFile
  | .write => doWrite
  | .loopWrite => doLoopWrite
  | .delProcess => doDelProcess

def Request.id : Request → BitVec 32
  | .read _ id _ => id
  | .loopRead _ id _ _ => id
  | .readToFile _ id _ _ => id
  | .loopReadToFile _ id _ _ _ => id
  | .write _ id _ => id
  | .loopWrite _ id _ _ _ => id
  | .delProcess id => id

/-- The arguments of the functions of app_util.c, which are `int`. -/
def Request.command : Request → Command
  | .read vaddr _ amount => .read vaddr amount.toInt
  | .loopRead vaddr _ off amount => .loopRead vaddr off.toInt amount.toInt
  | .readToFile vaddr _ amount fileName => .readToFile vaddr amount.toInt fileName
  | .loopReadToFile vaddr _ off amount fileName =>
      .loopReadToFile vaddr off.toInt amount.toInt fileName
  | .write vaddr _ s => .write vaddr s
  | .loopWrite vaddr _ c off amount => .loopWrite vaddr c off.toInt amount.toInt
  | .delProcess _ => .del

def procidOf (id : Int) : Nat := (BitVec.ofInt 32 id).toNat

def Request.post (pageSize : Nat) (request : Request) : MailDispatch.Post :=
  request.command.post pageSize (procidOf request.id.toInt)

/-- What the command does with the container, and whether it returns TRUE. The mail
goes to `compose_mail` by the `int` id, the deletion to `process_destroy` by the
`unsigned` one. -/
def Request.run (cont : ProcCont) : Request → Outcome (Bool × ProcCont)
  | .delProcess id => do
      let (_, cont) ← processDestroy cont id.toNat
      pure (true, cont)
  | request => do
      let post := request.post cont.mmu.mem.pageSize
      let (errcode, cont) ← composeMail cont (procidOf request.id.toInt) ⟨post.func, post.nArgs⟩
      pure (errcode = .ecSuccess, cont)

/-! What the parsers let through. -/

theorem procid_of_typed (id : BitVec 32) : procidOf id.toInt = id.toNat := by
  rw [procidOf, BitVec.ofInt_toInt]

theorem strtok_from_token {line current token : List BYTE}
    (member : token ∈ strtokFrom current line) :
    token ≠ [] ∧ token.length ≤ current.length + line.length := by
  induction line generalizing current with
  | nil =>
      unfold strtokFrom at member
      split at member
      · cases member
      · rename_i some
        obtain rfl := List.mem_singleton.mp member
        exact ⟨some, Nat.le_refl _⟩
  | cons c rest ih =>
      rw [List.length_cons]
      unfold strtokFrom at member
      split at member
      · split at member
        · obtain ⟨some, short⟩ := ih member
          exact ⟨some, by rw [List.length_nil] at short; omega⟩
        -- A blank ends the current token: it is the answer or the answer comes later.
        · rename_i some
          rcases List.mem_cons.mp member with rfl | later
          · exact ⟨some, by omega⟩
          · obtain ⟨some, short⟩ := ih later
            exact ⟨some, by rw [List.length_nil] at short; omega⟩
      · obtain ⟨some, short⟩ := ih member
        exact ⟨some, by rw [List.length_append, List.length_singleton] at short; omega⟩

theorem strtok_token {param : Param} {token : List BYTE} (member : token ∈ strtok param) :
    token ≠ [] ∧ token.length < filenameMax := by
  obtain ⟨some, short⟩ := strtok_from_token member
  have bound := param.2
  exact ⟨some, by rw [List.length_nil] at short; omega⟩

theorem number_rest {tokens rest : List (List BYTE)} {x : BitVec 32}
    (read : number tokens = some (x, rest)) {token : List BYTE} (member : token ∈ rest) :
    token ∈ tokens := by
  cases tokens with
  | nil => cases read
  | cons first others =>
      obtain ⟨y, -, same⟩ := Option.map_eq_some_iff.mp read
      cases same
      exact List.mem_cons_of_mem _ member

theorem do_write_token {param : Param} {vaddr id : BitVec 32} {s : List BYTE}
    (parsed : doWrite param = some (.write vaddr id s)) : s ≠ [] ∧ s.length < filenameMax := by
  simp only [doWrite, Option.bind_eq_bind, Option.bind_eq_some_iff] at parsed
  obtain ⟨⟨vaddr', rest⟩, first, ⟨id', rest'⟩, second, token, head, same⟩ := parsed
  cases same
  have member : s ∈ rest' := List.mem_of_mem_head? head
  exact strtok_token (number_rest first (number_rest second member))

end VmSim.CommandLine
