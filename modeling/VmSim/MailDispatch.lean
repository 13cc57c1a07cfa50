import VmSim.Library.Interleaving
import VmSim.ProcessTable

/-!
The mail of a process: the functions of util/app_util.c that pack a job into a
post, the decoders of util/pcb_util.c that unpack it, and the mailbox between
the UI thread and the thread of the process. A post carries untyped pointers, so
its arguments are a list of tagged values and a cast is a fault unless the tags
agree. `compose_mail` reads `junk` without a lock and `del` under the mail lock,
while `process_destroy` writes `del` and `process_dealloc` writes `junk` under
the mutex of the container. The wait of `process_destroy` may end at any time.
-/

namespace VmSim.MailDispatch
open ProcessTable PageTable Interleaving

/-! The address of the user, split by the functions of util/app_util.c. -/

/-- The loop of `page_shift`; a size is halved fewer times than it is large. -/
def shiftLoop : Nat → Nat → Nat
  | 0, _ => 0
  | turns + 1, pageSize => if 1 < pageSize then shiftLoop turns (pageSize / 2) + 1 else 0

def pageShift (pageSize : Nat) : Nat := shiftLoop pageSize pageSize

def maskLoop : Nat → BitVec 32 → BitVec 32
  | 0, mask => mask
  | turns + 1, mask => maskLoop turns (mask <<< 1)

def pageMask (pageSize : Nat) : BitVec 32 := maskLoop (pageShift pageSize) 0xFFFFFFFF#32

def offsetMask (pageSize : Nat) : BitVec 32 := ~~~ pageMask pageSize

def pageFromAddress (pageSize : Nat) (address : BitVec 32) : BitVec 32 :=
  (address &&& pageMask pageSize) >>> pageShift pageSize

def offsetFromAddress (pageSize : Nat) (address : BitVec 32) : BitVec 32 :=
  address &&& offsetMask pageSize

def makeVirtAddr (userAddr : BitVec 32) (pageSize pid : Nat) : VirtAddr :=
  ⟨pid, (pageFromAddress pageSize userAddr).toNat, (offsetFromAddress pageSize userAddr).toNat⟩

inductive Arg where
  | virtAddr (vAddr : VirtAddr)
  | int (n : Int)
  | char (c : BYTE)
  | chars (s : List BYTE)
  | fileName (name : String)
  deriving DecidableEq, Repr

structure Post where
  func : FuncT
  args : List Arg
  nArgs : Nat
  deriving DecidableEq, Repr

def createPost (func : FuncT) (args : List Arg) (nargs : Nat) : Post := ⟨func, args, nargs⟩

/-- `(*amnt) = strlen(s)` turns a `size_t` into an `int`. -/
def intOfStrlen (s : List BYTE) : Int := (BitVec.ofNat 32 s.length).toInt

/-! The posts of the six functions, up to their call of `compose_mail`. -/

def readProcess (pageSize : Nat) (vaddr : BitVec 32) (id : Nat) (amount : Int) : Post :=
  createPost .fcRead [.virtAddr (makeVirtAddr vaddr pageSize id), .int amount] 2

def loopReadProcess (pageSize : Nat) (vaddr : BitVec 32) (id : Nat) (off amount : Int) : Post :=
  createPost .fcLoopRead [.virtAddr (makeVirtAddr vaddr pageSize id), .int off, .int amount] 3

def readToFileProcess (pageSize : Nat) (vaddr : BitVec 32) (id : Nat) (amount : Int)
    (fileName : String) : Post :=
  createPost .fcReadToFile
    [.virtAddr (makeVirtAddr vaddr pageSize id), .int amount, .fileName fileName] 3

def loopReadToFileProcess (pageSize : Nat) (vaddr : BitVec 32) (id : Nat) (off amount : Int)
    (fileName : String) : Post :=
  createPost .fcLoopReadToFile
    [.virtAddr (makeVirtAddr vaddr pageSize id), .int off, .int amount, .fileName fileName] 4

def writeProcess (pageSize : Nat) (vaddr : BitVec 32) (id : Nat) (s : List BYTE) : Post :=
  createPost .fcWrite
    [.virtAddr (makeVirtAddr vaddr pageSize id), .chars s, .int (intOfStrlen s)] 3

def loopWriteProcess (pageSize : Nat) (vaddr : BitVec 32) (id : Nat) (c : BYTE)
    (off amount : Int) : Post :=
  createPost .fcLoopWrite
    [.virtAddr (makeVirtAddr vaddr pageSize id), .char c, .int off, .int amount] 4

/-- A call that `process_func` makes for a post, with all its arguments. -/
inductive Call where
  | simRead (vAddr : VirtAddr) (off amount : Int) (fileName : Option String)
  | simWrite (vAddr : VirtAddr) (s : List BYTE) (amount : Int)
  | simLoopWrite (vAddr : VirtAddr) (c : BYTE) (offset amount : Int)
  | processDealloc
  deriving DecidableEq, Repr

/-! Casts of `args[i]`. -/

def argVirtAddr (post : Post) (i : Nat) : Outcome VirtAddr := do
  match ← load post.args i with
  | .virtAddr vAddr => .ok vAddr
  | _ => .error .outOfBounds

def argInt (post : Post) (i : Nat) : Outcome Int := do
  match ← load post.args i with
  | .int n => .ok n
  | _ => .error .outOfBounds

def argChar (post : Post) (i : Nat) : Outcome BYTE := do
  match ← load post.args i with
  | .char c => .ok c
  | _ => .error .outOfBounds

def argChars (post : Post) (i : Nat) : Outcome (List BYTE) := do
  match ← load post.args i with
  | .chars s => .ok s
  | _ => .error .outOfBounds

def argFileName (post : Post) (i : Nat) : Outcome String := do
  match ← load post.args i with
  | .fileName name => .ok name
  | _ => .error .outOfBounds

def readDecoder (post : Post) : Outcome Call := do
  assert .readDecoder (post.nArgs = 2)
  assert .readDecoder (post.func = .fcRead)
  let vAddr ← argVirtAddr post 0
  let amount ← argInt post 1
  pure (.simRead vAddr 1 amount none)

def loopReadDecoder (post : Post) : Outcome Call := do
  assert .loopReadDecoder (post.nArgs = 3)
  assert .loopReadDecoder (post.func = .fcLoopRead)
  let vAddr ← argVirtAddr post 0
  let offset ← argInt post 1
  let amount ← argInt post 2
  pure (.simRead vAddr offset amount none)

def readFileDecoder (post : Post) : Outcome Call := do
  assert .readFileDecoder (post.nArgs = 3)
  assert .readFileDecoder (post.func = .fcReadToFile)
  let vAddr ← argVirtAddr post 0
  let amount ← argInt post 1
  let fileName ← argFileName post 2
  pure (.simRead vAddr 1 amount (some fileName))

def loopReadFileDecoder (post : Post) : Outcome Call := do
  assert .loopReadFileDecoder (post.nArgs = 4)
  assert .loopReadFileDecoder (post.func = .fcLoopReadToFile)
  let vAddr ← argVirtAddr post 0
  let offset ← argInt post 1
  let amount ← argInt post 2
  let fileName ← argFileName post 3
  pure (.simRead vAddr offset amount (some fileName))

def writeDecoder (post : Post) : Outcome Call := do
  assert .writeDecoder (post.nArgs = 3)
  assert .writeDecoder (post.func = .fcWrite)
  let vAddr ← argVirtAddr post 0
  let s ← argChars post 1
  let amount ← argInt post 2
  pure (.simWrite vAddr s amount)

def loopWriteDecoder (post : Post) : Outcome Call := do
  assert .loopWriteDecoder (post.nArgs = 4)
  assert .loopWriteDecoder (post.func = .fcLoopWrite)
  let vAddr ← argVirtAddr post 0
  let c ← argChar post 1
  let off ← argInt post 2
  let amount ← argInt post 3
  pure (.simLoopWrite vAddr c off amount)

def dispatch (post : Post) : Outcome Call :=
  match post.func with
  | .fcRead => readDecoder post
  | .fcLoopRead => loopReadDecoder post
  | .fcReadToFile => readFileDecoder post
  | .fcLoopReadToFile => loopReadFileDecoder post
  | .fcWrite => writeDecoder post
  | .fcLoopWrite => loopWriteDecoder post
  | .fcDel => .ok .processDealloc

/-- What the UI thread asks of the process. -/
inductive Command where
  | read (vaddr : BitVec 32) (amount : Int)
  | loopRead (vaddr : BitVec 32) (off amount : Int)
  | readToFile (vaddr : BitVec 32) (amount : Int) (fileName : String)
  | loopReadToFile (vaddr : BitVec 32) (off amount : Int) (fileName : String)
  | write (vaddr : BitVec 32) (s : List BYTE)
  | loopWrite (vaddr : BitVec 32) (c : BYTE) (off amount : Int)
  | del
  deriving DecidableEq, Repr

def Command.post (pageSize id : Nat) : Command → Post
  | .read vaddr amount => readProcess pageSize vaddr id amount
  | .loopRead vaddr off amount => loopReadProcess pageSize vaddr id off amount
  | .readToFile vaddr amount fileName => readToFileProcess pageSize vaddr id amount fileName
  | .loopReadToFile vaddr off amount fileName =>
      loopReadToFileProcess pageSize vaddr id off amount fileName
  | .write vaddr s => writeProcess pageSize vaddr id s
  | .loopWrite vaddr c off amount => loopWriteProcess pageSize vaddr id c off amount
  | .del => createPost .fcDel [] 0

/-- The page and the offset of an address where a page has the greatest power of
two up to `pageSize`. -/
def splitAddress (pageSize id : Nat) (vaddr : BitVec 32) : VirtAddr :=
  ⟨id, vaddr.toNat / 2 ^ pageSize.log2, vaddr.toNat % 2 ^ pageSize.log2⟩

def Command.call (pageSize id : Nat) : Command → Call
  | .read vaddr amount => .simRead (splitAddress pageSize id vaddr) 1 amount none
  | .loopRead vaddr off amount => .simRead (splitAddress pageSize id vaddr) off amount none
  | .readToFile vaddr amount fileName =>
      .simRead (splitAddress pageSize id vaddr) 1 amount (some fileName)
  | .loopReadToFile vaddr off amount fileName =>
      .simRead (splitAddress pageSize id vaddr) off amount (some fileName)
  | .write vaddr s => .simWrite (splitAddress pageSize id vaddr) s (intOfStrlen s)
  | .loopWrite vaddr c off amount =>
      .simLoopWrite (splitAddress pageSize id vaddr) c off amount
  | .del => .processDealloc

section Codec
variable {pageSize id : Nat}

theorem shift_loop_log (turns : Nat) (enough : pageSize ≤ turns) :
    shiftLoop turns pageSize = pageSize.log2 := by
  induction turns generalizing pageSize with
  | zero =>
      have none : pageSize = 0 := by omega
      simp [none, shiftLoop]
  | succ turns ih =>
      rw [shiftLoop, Nat.log2_def]
      by_cases large : 1 < pageSize
      · have two : 2 ≤ pageSize := large
        rw [if_pos large, if_pos two, ih (by omega)]
      · have one : ¬ 2 ≤ pageSize := large
        rw [if_neg large, if_neg one]

theorem page_shift_log (pageSize : Nat) : pageShift pageSize = pageSize.log2 :=
  shift_loop_log pageSize (Nat.le_refl pageSize)

theorem mask_loop_shifts (turns : Nat) (mask : BitVec 32) : maskLoop turns mask = mask <<< turns := by
  induction turns generalizing mask with
  | zero => simp [maskLoop]
  | succ turns ih => rw [maskLoop, ih, Nat.add_comm, BitVec.shiftLeft_add]

theorem mask_bit (pageSize i : Nat) :
    (pageMask pageSize).getLsbD i = (decide (i < 32) && decide (pageSize.log2 ≤ i)) := by
  have ones : 0xFFFFFFFF#32 = BitVec.allOnes 32 := rfl
  rw [pageMask, mask_loop_shifts, page_shift_log, ones, BitVec.getLsbD_shiftLeft,
    BitVec.getLsbD_allOnes]
  by_cases within : i < 32
  · have small : i - pageSize.log2 < 32 := by omega
    by_cases low : i < pageSize.log2
    · simp [low, Nat.not_le.mpr low]
    · simp [within, small, low, Nat.not_lt.mp low]
  · simp [within]

theorem page_divides (vaddr : BitVec 32) :
    (pageFromAddress pageSize vaddr).toNat = vaddr.toNat / 2 ^ pageSize.log2 := by
  have cleared : pageFromAddress pageSize vaddr = vaddr >>> pageSize.log2 := by
    apply BitVec.eq_of_getLsbD_eq
    intro i bound
    simpa [pageFromAddress, page_shift_log, mask_bit] using BitVec.lt_of_getLsbD
  rw [cleared, BitVec.toNat_ushiftRight, Nat.shiftRight_eq_div_pow]

theorem offset_remains (vaddr : BitVec 32) :
    (offsetFromAddress pageSize vaddr).toNat = vaddr.toNat % 2 ^ pageSize.log2 := by
  apply Nat.eq_of_testBit_eq
  intro i
  rw [Nat.testBit_mod_two_pow, BitVec.testBit_toNat, BitVec.testBit_toNat, offsetFromAddress,
    offsetMask, BitVec.getLsbD_and, BitVec.getLsbD_not, mask_bit]
  cases bit : vaddr.getLsbD i with
  | false => simp
  | true =>
      have within : i < 32 := BitVec.lt_of_getLsbD bit
      by_cases low : i < pageSize.log2
      · simp [within, low, Nat.not_le.mpr low]
      · simp [low, Nat.not_lt.mp low]

theorem make_virt_addr_split (vaddr : BitVec 32) :
    makeVirtAddr vaddr pageSize id = splitAddress pageSize id vaddr := by
  rw [makeVirtAddr, splitAddress, page_divides, offset_remains]

theorem dispatch_post (c : Command) : dispatch (c.post pageSize id) = .ok (c.call pageSize id) := by
  cases c with
  | del => rfl
  | _ =>
      simp only [Command.call, ← make_virt_addr_split]
      rfl

end Codec

/-! The two threads. -/

structure Target where
  pageSize : Nat
  pid : Nat
  maxNumOfProc : Nat
  inRange : pid < maxNumOfProc

/-- The statement the UI thread reaches next: `compose_mail` before its test of
`junk` and before its critical section, and `process_destroy` after it. -/
inductive SenderPc where
  | idle
  | composing (c : Command)
  | pushing (c : Command)
  | marking
  | waiting
  | crashed
  deriving DecidableEq, Repr

/-- The statement the thread of the process reaches next; from `deleting` on it is
in `process_dealloc`, with the mailbox freed at `closing`. -/
inductive WorkerPc where
  | fetching
  | holding (post : Post)
  | working
  | deleting
  | draining
  | closing
  | gone
  | aborted (fault : Fault)
  deriving DecidableEq, Repr

/-- The fields of the process that the mail goes through, with the commands whose
mail was accepted and the calls made for them, the latest last. -/
structure State where
  junk : Bool
  del : Bool
  mailBox : Option (List Post)
  sender : SenderPc
  worker : WorkerPc
  accepted : List Command
  dispatched : List Call
  deriving DecidableEq

inductive Event where
  | calls (c : Command)
  | looks (c : Command)
  | pushes (c : Command)
  | marks
  | returns
  | fetches (post : Post)
  | dispatches (post : Post)
  | finishes
  | deallocLocks
  | deallocDrains
  | deallocJunks
  deriving DecidableEq

/-- The UI thread has the mutex of the container from the first line of
`process_destroy` to its wait. -/
def SenderPc.HoldsCont : SenderPc → Prop
  | .composing c => c = .del
  | .pushing c => c = .del
  | .marking => True
  | _ => False

def WorkerPc.HoldsCont : WorkerPc → Prop
  | .draining => True
  | .closing => True
  | _ => False

def afterMail (c : Command) : SenderPc := if c = .del then .marking else .idle

def Enabled (s : State) : Event → Prop
  | .calls c => s.sender = .idle ∧ (c = .del → ¬ s.worker.HoldsCont)
  | .looks c => s.sender = .composing c
  | .pushes c => s.sender = .pushing c
  | .marks => s.sender = .marking
  | .returns => s.sender = .waiting ∧ ¬ s.worker.HoldsCont
  | .fetches post => s.worker = .fetching ∧ s.mailBox.bind List.head? = some post
  | .dispatches post => s.worker = .holding post
  | .finishes => s.worker = .working
  | .deallocLocks => s.worker = .deleting ∧ ¬ s.sender.HoldsCont
  | .deallocDrains => s.worker = .draining
  | .deallocJunks => s.worker = .closing

def pushMail (target : Target) (s : State) (c : Command) : State :=
  if s.del then { s with sender := afterMail c }
  else
    match s.mailBox with
    | none => { s with sender := .crashed }
    | some mail =>
        { s with
          mailBox := some (mail ++ [c.post target.pageSize target.pid])
          accepted := s.accepted ++ [c]
          sender := afterMail c }

def dispatchPost (s : State) (post : Post) : State :=
  match dispatch post with
  | .error fault => { s with worker := .aborted fault }
  | .ok call =>
      { s with
        worker := if call = .processDealloc then .deleting else .working
        dispatched := s.dispatched ++ [call] }

/-- `process_dealloc` up to its second assertion. -/
def deallocEnter (s : State) : WorkerPc :=
  match (do assert .processDealloc (!s.junk); assert .processDealloc s.del : Outcome Unit) with
  | .error fault => .aborted fault
  | .ok _ => .draining

def next (target : Target) (s : State) : Event → State
  | .calls c =>
      if c = .del ∧ (target.maxNumOfProc ≤ target.pid ∨ s.junk) then s
      else { s with sender := .composing c }
  | .looks c =>
      if target.maxNumOfProc < target.pid ∨ s.junk then { s with sender := afterMail c }
      else { s with sender := .pushing c }
  | .pushes c => pushMail target s c
  | .marks => { s with del := true, sender := .waiting }
  | .returns => { s with sender := .idle }
  | .fetches post => { s with mailBox := s.mailBox.map List.tail, worker := .holding post }
  | .dispatches post => dispatchPost s post
  | .finishes => { s with worker := .fetching }
  | .deallocLocks => { s with worker := deallocEnter s }
  | .deallocDrains =>
      { s with
        worker := if s.mailBox.isSome then .closing else .aborted .nullPointer
        mailBox := none }
  | .deallocJunks => { s with junk := true, worker := .gone }

def program (target : Target) : Program State Event := ⟨Enabled, next target⟩

def start : State := ⟨false, false, some [], .idle, .fetching, [], []⟩

instance : DecidablePred SenderPc.HoldsCont
  | .idle => inferInstanceAs (Decidable False)
  | .composing c => inferInstanceAs (Decidable (c = .del))
  | .pushing c => inferInstanceAs (Decidable (c = .del))
  | .marking => inferInstanceAs (Decidable True)
  | .waiting => inferInstanceAs (Decidable False)
  | .crashed => inferInstanceAs (Decidable False)

instance : DecidablePred WorkerPc.HoldsCont
  | .fetching => inferInstanceAs (Decidable False)
  | .holding _ => inferInstanceAs (Decidable False)
  | .working => inferInstanceAs (Decidable False)
  | .deleting => inferInstanceAs (Decidable False)
  | .draining => inferInstanceAs (Decidable True)
  | .closing => inferInstanceAs (Decidable True)
  | .gone => inferInstanceAs (Decidable False)
  | .aborted _ => inferInstanceAs (Decidable False)

instance (s : State) : DecidablePred (Enabled s)
  | .calls _ => inferInstanceAs (Decidable (_ ∧ _))
  | .looks _ => inferInstanceAs (Decidable (_ = _))
  | .pushes _ => inferInstanceAs (Decidable (_ = _))
  | .marks => inferInstanceAs (Decidable (_ = _))
  | .returns => inferInstanceAs (Decidable (_ ∧ _))
  | .fetches _ => inferInstanceAs (Decidable (_ ∧ _))
  | .dispatches _ => inferInstanceAs (Decidable (_ = _))
  | .finishes => inferInstanceAs (Decidable (_ = _))
  | .deallocLocks => inferInstanceAs (Decidable (_ ∧ _))
  | .deallocDrains => inferInstanceAs (Decidable (_ = _))
  | .deallocJunks => inferInstanceAs (Decidable (_ = _))

instance (target : Target) (s : State) (event : Event) :
    Decidable ((program target).enabled s event) := inferInstanceAs (Decidable (Enabled _ _))

def inHand : WorkerPc → List Post
  | .holding post => [post]
  | _ => []

def Target.posts (target : Target) (commands : List Command) : List Post :=
  commands.map (Command.post target.pageSize target.pid)

def Target.calls (target : Target) (commands : List Command) : List Call :=
  commands.map (Command.call target.pageSize target.pid)

structure Delivered (target : Target) (s : State) : Prop where
  inOrder : s.dispatched <+: target.calls s.accepted
  pending : target.posts (s.accepted.drop s.dispatched.length) =
    inHand s.worker ++ s.mailBox.getD []
  asserts : ∀ fault, s.worker ≠ .aborted fault
  pointers : s.sender ≠ .crashed
  closed : ∀ before after, s.accepted = before ++ .del :: after → after = []
  last : .processDealloc ∈ s.dispatched → s.dispatched = target.calls s.accepted ∧
    s.dispatched.getLast? = some .processDealloc ∧ inHand s.worker ++ s.mailBox.getD [] = []

def WorkerPc.Deletes : WorkerPc → Prop
  | .deleting => True
  | .draining => True
  | .closing => True
  | .gone => True
  | _ => False

def WorkerPc.Closed : WorkerPc → Prop
  | .closing => True
  | .gone => True
  | _ => False

structure Kept (target : Target) (s : State) : Prop where
  mail : ∃ made waiting, s.accepted = made ++ waiting ∧ s.dispatched = target.calls made ∧
    inHand s.worker ++ s.mailBox.getD [] = target.posts waiting
  closed : ∀ before after, s.accepted = before ++ .del :: after → after = []
  marked : .del ∈ s.accepted → s.del = true ∨ s.sender = .marking
  deletes : .processDealloc ∈ s.dispatched ↔ s.worker.Deletes
  boxed : s.mailBox = none ↔ s.worker.Closed
  junked : s.junk = true ↔ s.worker = .gone
  asserts : ∀ fault, s.worker ≠ .aborted fault
  pointers : s.sender ≠ .crashed

section Steps
variable {target : Target} {s : State}

theorem call_dealloc {c : Command} {pageSize id : Nat} :
    c.call pageSize id = .processDealloc ↔ c = .del := by
  cases c <;> simp [Command.call]

theorem calls_dealloc {commands : List Command} :
    .processDealloc ∈ target.calls commands ↔ .del ∈ commands := by
  simp [Target.calls, call_dealloc]

theorem kept_last (kept : Kept target s) (deleted : .processDealloc ∈ s.dispatched) :
    .del ∈ s.accepted ∧ s.dispatched = target.calls s.accepted ∧
      inHand s.worker ++ s.mailBox.getD [] = [] := by
  obtain ⟨made, waiting, accepted, dispatched, mail⟩ := kept.mail
  have among : .del ∈ made := calls_dealloc.mp (dispatched ▸ deleted)
  obtain ⟨before, after, rfl⟩ := List.append_of_mem among
  have rest : after ++ waiting = [] := kept.closed before _ (by simpa using accepted)
  obtain ⟨rfl, rfl⟩ := List.append_eq_nil_iff.mp rest
  rw [List.append_nil] at accepted
  exact ⟨accepted ▸ among, accepted ▸ dispatched, mail⟩

theorem kept_delivered (kept : Kept target s) : Delivered target s := by
  obtain ⟨made, waiting, accepted, dispatched, mail⟩ := kept.mail
  refine ⟨?_, ?_, kept.asserts, kept.pointers, kept.closed, fun deleted => ?_⟩
  · rw [accepted, dispatched, Target.calls, Target.calls, List.map_append]
    exact List.prefix_append _ _
  · rw [accepted, dispatched, Target.calls, List.length_map, List.drop_left, mail]
  · obtain ⟨among, all, empty⟩ := kept_last kept deleted
    refine ⟨all, ?_, empty⟩
    obtain ⟨before, after, split⟩ := List.append_of_mem among
    have rest := kept.closed before after split
    rw [all, split, rest, Target.calls, List.map_append]
    simp [Command.call]

theorem sender_kept (kept : Kept target s) {sender : SenderPc}
    (unmarked : .del ∈ s.accepted → s.del = true) (whole : sender ≠ .crashed) :
    Kept target { s with sender := sender } :=
  ⟨kept.mail, kept.closed, fun among => .inl (unmarked among), kept.deletes, kept.boxed,
    kept.junked, kept.asserts, whole⟩

theorem after_mail_whole (c : Command) : afterMail c ≠ .crashed := by
  unfold afterMail
  split <;> simp

theorem closed_deletes {worker : WorkerPc} (closed : worker.Closed) : worker.Deletes := by
  cases worker <;> trivial

theorem appended_closed {commands before after : List Command} {c : Command}
    (fresh : .del ∉ commands) (split : commands ++ [c] = before ++ .del :: after) : after = [] := by
  induction after using List.reverseRecOn with
  | nil => rfl
  | append_singleton after last _ =>
      have same : commands = before ++ .del :: after := by
        have longer : commands ++ [c] = (before ++ .del :: after) ++ [last] := by simpa using split
        exact (List.append_inj' longer rfl).1
      exact absurd (same ▸ by simp) fresh

theorem push_kept (kept : Kept target s) {c : Command} (unmarked : .del ∈ s.accepted → s.del = true) :
    Kept target (pushMail target s c) := by
  unfold pushMail
  split
  · exact sender_kept kept unmarked (after_mail_whole c)
  · rename_i open_
    have fresh : .del ∉ s.accepted := fun among => open_ (unmarked among)
    obtain ⟨made, waiting, accepted, dispatched, mail⟩ := kept.mail
    -- An open box means no deletion has been taken out, or the box would be gone.
    have early : .processDealloc ∉ s.dispatched := by
      rw [dispatched, calls_dealloc]
      exact fun among => fresh (accepted ▸ List.mem_append_left _ among)
    cases box : s.mailBox with
    | none =>
        have deletes := closed_deletes (kept.boxed.mp box)
        exact absurd (kept.deletes.mpr deletes) early
    | some queue =>
        refine ⟨⟨made, waiting ++ [c], ?_, dispatched, ?_⟩, ?_, ?_, kept.deletes, ?_, kept.junked,
          kept.asserts, after_mail_whole c⟩
        · simp [accepted]
        · simpa [box, Target.posts, ← List.append_assoc] using mail
        · exact fun before after split => appended_closed fresh split
        · intro among
          have last : c = .del := by simpa [fresh, eq_comm] using among
          exact .inr (by simp [last, afterMail])
        · simpa [box] using kept.boxed

theorem fetch_kept (kept : Kept target s) {post : Post} (fetching : s.worker = .fetching)
    (first : s.mailBox.bind List.head? = some post) :
    Kept target { s with mailBox := s.mailBox.map List.tail, worker := .holding post } := by
  obtain ⟨made, waiting, accepted, dispatched, mail⟩ := kept.mail
  obtain ⟨queue, box, head⟩ := Option.bind_eq_some_iff.mp first
  obtain ⟨rest, rfl⟩ := List.head?_eq_some_iff.mp head
  refine ⟨⟨made, waiting, accepted, dispatched, ?_⟩, kept.closed, kept.marked, ?_, ?_, ?_, by simp,
    kept.pointers⟩
  · simpa [fetching, box, inHand] using mail
  · simpa [fetching, WorkerPc.Deletes] using kept.deletes
  · simp [box, WorkerPc.Closed]
  · simpa [fetching] using kept.junked

theorem dispatch_kept (kept : Kept target s) {post : Post} (holding : s.worker = .holding post) :
    Kept target (dispatchPost s post) := by
  obtain ⟨made, waiting, accepted, dispatched, mail⟩ := kept.mail
  have early : .processDealloc ∉ s.dispatched := by
    simpa [holding, WorkerPc.Deletes] using kept.deletes
  have boxed : s.mailBox ≠ none := by
    simpa [holding, WorkerPc.Closed] using kept.boxed
  cases waiting with
  | nil => simp [holding, inHand, Target.posts] at mail
  | cons c waiting =>
      simp only [holding, inHand, Target.posts, List.map_cons, List.singleton_append,
        List.cons.injEq] at mail
      obtain ⟨rfl, mail⟩ := mail
      unfold dispatchPost
      rw [dispatch_post]
      have live : s.junk ≠ true := by simp [kept.junked, holding]
      refine ⟨⟨made ++ [c], waiting, by simp [accepted], by simp [dispatched, Target.calls], ?_⟩,
        kept.closed, kept.marked, ?_, ?_, ?_, ?_, kept.pointers⟩
      -- The deletion closes the box; any other post leaves the worker reading.
      all_goals
        by_cases last : c.call target.pageSize target.pid = .processDealloc
      · simpa [last, inHand, Target.posts] using mail
      · simpa [last, inHand, Target.posts] using mail
      · simp [last, WorkerPc.Deletes]
      · simp [last, WorkerPc.Deletes, early, Ne.symm last]
      · simpa [last, WorkerPc.Closed] using boxed
      · simpa [last, WorkerPc.Closed] using boxed
      · simpa [last] using live
      · simpa [last] using live
      · simp [last]
      · simp [last]

theorem worker_kept (kept : Kept target s) {worker : WorkerPc} (hand : inHand worker = inHand s.worker)
    (deletes : s.worker.Deletes ↔ worker.Deletes) (closed : s.worker.Closed ↔ worker.Closed)
    (gone : s.worker = .gone ↔ worker = .gone) (whole : ∀ fault, worker ≠ .aborted fault) :
    Kept target { s with worker := worker } :=
  ⟨hand ▸ kept.mail, kept.closed, kept.marked, kept.deletes.trans deletes, kept.boxed.trans closed,
    kept.junked.trans gone, whole, kept.pointers⟩

theorem enter_kept (kept : Kept target s) (deleting : s.worker = .deleting)
    (free : ¬ s.sender.HoldsCont) : Kept target { s with worker := deallocEnter s } := by
  have deleted : .processDealloc ∈ s.dispatched := kept.deletes.mpr (by simp [deleting, WorkerPc.Deletes])
  have live : s.junk = false := by
    have distinct := kept.junked
    simpa [deleting] using distinct
  have marked : s.del = true := by
    cases kept.marked (kept_last kept deleted).1 with
    | inl set => exact set
    | inr marking => simp [marking, SenderPc.HoldsCont] at free
  have entered : deallocEnter s = .draining := by simp [deallocEnter, assert, live, marked]
  rw [entered]
  exact worker_kept kept (by simp [deleting, inHand]) (by simp [deleting, WorkerPc.Deletes])
    (by simp [deleting, WorkerPc.Closed]) (by simp [deleting]) (by simp)

theorem drain_kept (kept : Kept target s) (draining : s.worker = .draining) :
    Kept target (next target s .deallocDrains) := by
  have deleted : .processDealloc ∈ s.dispatched := kept.deletes.mpr (by simp [draining, WorkerPc.Deletes])
  obtain ⟨-, all, empty⟩ := kept_last kept deleted
  have boxed : s.mailBox.isSome := by
    rw [Option.isSome_iff_ne_none]
    simpa [draining, WorkerPc.Closed] using kept.boxed
  have live : s.junk ≠ true := by simp [kept.junked, draining]
  simp only [next, boxed, if_true]
  refine ⟨⟨s.accepted, [], by simp, all, by simp [inHand, Target.posts]⟩, kept.closed, kept.marked,
    ?_, ?_, ?_, by simp, kept.pointers⟩
  · simpa [WorkerPc.Deletes] using deleted
  · simp [WorkerPc.Closed]
  · simpa using live

theorem junk_kept (kept : Kept target s) (closing : s.worker = .closing) :
    Kept target (next target s .deallocJunks) := by
  refine ⟨?_, kept.closed, kept.marked, ?_, ?_, ?_, ?_, kept.pointers⟩
  · simpa [next, closing, inHand] using kept.mail
  · simpa [closing, next, WorkerPc.Deletes] using kept.deletes
  · simpa [closing, next, WorkerPc.Closed] using kept.boxed
  · simp [next]
  · simp [next]

theorem step_kept {event : Event} (kept : Kept target s) (enabled : Enabled s event) :
    Kept target (next target s event) := by
  -- Outside `marking` a deletion that was accepted has set its flag.
  have unmarked : s.sender ≠ .marking → .del ∈ s.accepted → s.del = true :=
    fun elsewhere among => (kept.marked among).resolve_right elsewhere
  cases event with
  | calls c =>
      simp only [next]
      split
      · exact kept
      · exact sender_kept kept (unmarked (by simp [enabled.1])) (by simp)
  | looks c =>
      have composing : s.sender = .composing c := enabled
      simp only [next]
      split
      · exact sender_kept kept (unmarked (by simp [composing])) (after_mail_whole c)
      · exact sender_kept kept (unmarked (by simp [composing])) (by simp)
  | pushes c =>
      have pushing : s.sender = .pushing c := enabled
      exact push_kept kept (unmarked (by simp [pushing]))
  | marks =>
      exact ⟨kept.mail, kept.closed, fun _ => .inl rfl, kept.deletes, kept.boxed, kept.junked,
        kept.asserts, by simp [next]⟩
  | returns => exact sender_kept kept (unmarked (by simp [enabled.1])) (by simp)
  | fetches post => exact fetch_kept kept enabled.1 enabled.2
  | dispatches post => exact dispatch_kept kept enabled
  | finishes =>
      have working : s.worker = .working := enabled
      exact worker_kept kept (by simp [working, inHand]) (by simp [working, WorkerPc.Deletes])
        (by simp [working, WorkerPc.Closed]) (by simp [working]) (by simp)
  | deallocLocks => exact enter_kept kept enabled.1 enabled.2
  | deallocDrains => exact drain_kept kept enabled
  | deallocJunks => exact junk_kept kept enabled

theorem start_kept (target : Target) : Kept target start := by
  refine ⟨⟨[], [], rfl, rfl, rfl⟩, ?_, ?_, ?_, ?_, ?_, ?_, ?_⟩ <;>
    simp [start, WorkerPc.Deletes, WorkerPc.Closed]

end Steps

/-- In every run the accepted mail is dispatched in order, once and as it was asked
for, the deletion last of all. -/
theorem mail_delivered {target : Target} {past : List Event} {s : State}
    (run : Run (program target) start past s) : Delivered target s :=
  kept_delivered (run_invariant run (start_kept target) fun _ _ kept enabled => step_kept kept enabled)

def onePagePerByte : Target := ⟨1, 0, 1, by decide⟩

/-- A write and a read of the byte it wrote, sent while the first is carried out,
then the deletion and a read that finds the process gone. -/
theorem mail_delivered_twice :
    ∃ past s, Run (program onePagePerByte) start past s ∧ Delivered onePagePerByte s ∧
      s.dispatched = [.simWrite ⟨0, 3, 0⟩ [7] 1, .simRead ⟨0, 3, 0⟩ 1 1 none, .processDealloc] := by
  have replayed : (replay (program onePagePerByte) start
      [.calls (.write 3 [7]), .looks (.write 3 [7]), .pushes (.write 3 [7]),
        .fetches (writeProcess 1 3 0 [7]), .dispatches (writeProcess 1 3 0 [7]),
        .calls (.read 3 1), .looks (.read 3 1), .pushes (.read 3 1), .finishes,
        .fetches (readProcess 1 3 0 1), .dispatches (readProcess 1 3 0 1), .finishes,
        .calls .del, .looks .del, .pushes .del, .fetches (createPost .fcDel [] 0), .marks,
        .dispatches (createPost .fcDel [] 0), .deallocLocks, .deallocDrains, .deallocJunks, .returns,
        .calls (.read 3 1), .looks (.read 3 1)]).any (fun s => decide (s.dispatched =
          [.simWrite ⟨0, 3, 0⟩ [7] 1, .simRead ⟨0, 3, 0⟩ 1 1 none, .processDealloc])) = true := by
    decide
  obtain ⟨past, s, run, log⟩ := replay_finds replayed
  exact ⟨past, s, run, mail_delivered run, log⟩

end VmSim.MailDispatch
