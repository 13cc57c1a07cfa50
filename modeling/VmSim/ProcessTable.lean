import VmSim.MemoryUnit

/-!
vmsim/pcb.c and the process functions of util/pcb_util.c. The container owns
the process slots and points to the one MMU of the program. The container and
mail mutexes are left out: the functions below hold them from their first to
their last line, except `process_destroy`, which is modelled up to its wait
for the deletion, and `process_start`, up to its wait for the new thread.
-/

namespace VmSim.ProcessTable
open DiskBlocks MemoryUnit

inductive FuncT where
  | fcRead
  | fcLoopRead
  | fcReadToFile
  | fcLoopReadToFile
  | fcWrite
  | fcLoopWrite
  | fcDel
  deriving DecidableEq, Repr

structure Post where
  func : FuncT
  nArgs : Nat
  deriving DecidableEq, Repr

/-- `currPid` of the argument a process thread runs with. -/
structure FuncArg where
  currPid : Nat
  deriving DecidableEq, Repr

structure WorkerThread where
  arg : Option FuncArg
  stop : Bool
  running : Bool
  deriving DecidableEq, Repr

structure Process where
  pid : Nat
  diskBlockStart : Nat
  junk : Bool
  del : Bool
  procThrd : WorkerThread
  procThrdArg : Option FuncArg
  mailBox : Option (List Post)
  deriving DecidableEq, Repr

structure ProcCont where
  processes : List Process
  maxNumOfProc : Nat
  prcBlkSize : Nat
  mmu : Mmu
  deriving DecidableEq

/-- A pointer into the array of processes, by the slot it points to. -/
structure SlotPointer where
  slot : Nat
  deriving DecidableEq, Repr

/-- The array is one allocation, so only the pointer to its first slot is a whole block. -/
def SlotPointer.whole (p : SlotPointer) : Bool := p.slot == 0

def zeroProcess : Process := ⟨0, 0, false, false, ⟨none, false, false⟩, none, none⟩

def initProcCont (nprocs blockSize : Nat) (mmu : Mmu) : ProcCont :=
  { processes := List.replicate nprocs { zeroProcess with junk := true }
    maxNumOfProc := nprocs
    prcBlkSize := blockSize
    mmu := mmu }

def findJunk (cont : ProcCont) (i : Nat) : Nat → Outcome (Option Nat)
  | 0 => .ok none
  | count + 1 => do
      let process ← load cont.processes i
      if process.junk then pure (some i) else findJunk cont (i + 1) count

def workerThreadCreate (thread : WorkerThread) : Errcode × WorkerThread :=
  (.ecSuccess, { thread with running := false, stop := false, arg := none })

/-- The rest of `init_process` once the slot `i` has a block of disk pages. -/
def fillSlot (cont : ProcCont) (i page : Nat) : Outcome (Int × List SlotPointer × ProcCont) := do
  let (errs, mmu) ← mmuAllocMultiple cont.mmu i 0 page cont.prcBlkSize
  let cont := { cont with mmu := mmu }
  if errs ≠ .ecSuccess then pure (-2, [⟨i⟩], cont)
  else do
    let prc ← load cont.processes i
    let (errs, thread) := workerThreadCreate prc.procThrd
    let processes ← store cont.processes i
      { prc with diskBlockStart := page, junk := false, mailBox := some [], pid := i,
                 procThrd := thread }
    let cont := { cont with processes := processes }
    if errs = .ecFail then pure (-3, [⟨i⟩], cont) else pure (i, [], cont)

/-- The return value and the pointers passed to `free`. -/
def initProcess (past : Nat → PackedBitmap.Block) (cont : ProcCont) :
    Outcome (Int × List SlotPointer × ProcCont) := do
  let found ← findJunk cont 0 cont.maxNumOfProc
  match found with
  | none => pure (-1, [], cont)
  | some i => do
      let processes ← store cont.processes i zeroProcess
      let (page, disk) ← diskAllocProcessBlock past cont.mmu.disk
      let cont := { cont with processes := processes, mmu := { cont.mmu with disk := disk } }
      match page with
      | none => pure (-2, [⟨i⟩], cont)
      | some page => fillSlot cont i page

def processStart (cont : ProcCont) (pid : Nat) : Outcome ProcCont := do
  let process ← load cont.processes pid
  let processes ← store cont.processes pid
    { process with procThrdArg := some ⟨pid⟩,
                   procThrd := ⟨some ⟨pid⟩, process.procThrd.stop, true⟩ }
  pure { cont with processes := processes }

def createPost (func : FuncT) (nargs : Nat) : Post := ⟨func, nargs⟩

/-- The comparison lets `pid` equal to the number of slots through. -/
def composeMail (cont : ProcCont) (pid : Nat) (post : Post) : Outcome (Errcode × ProcCont) :=
  if cont.maxNumOfProc < pid then .ok (.ecNotFound, cont)
  else do
    let prc ← load cont.processes pid
    if prc.junk then pure (.ecNotFound, cont)
    else if prc.del then pure (.ecNotFound, cont)
    else
      match prc.mailBox with
      | none => .error .nullPointer
      | some box => do
          let processes ← store cont.processes pid { prc with mailBox := some (box ++ [post]) }
          pure (.ecSuccess, { cont with processes := processes })

def processDestroy (cont : ProcCont) (id : Nat) : Outcome (Errcode × ProcCont) :=
  if cont.maxNumOfProc ≤ id then .ok (.ecFail, cont)
  else do
    let process ← load cont.processes id
    if process.junk then pure (.ecNotFound, cont)
    else do
      let (_, cont) ← composeMail cont id (createPost .fcDel 0)
      let process ← load cont.processes id
      let processes ← store cont.processes id { process with del := true }
      pure (.ecSuccess, { cont with processes := processes })

def funcArgDestroy (arg : Option FuncArg) : Outcome Unit := assert .funcArgDestroy arg.isSome

def processDealloc (cont : ProcCont) (pid : Nat) : Outcome (Errcode × ProcCont) := do
  let process ← load cont.processes pid
  assert .processDealloc (!process.junk)
  assert .processDealloc process.del
  -- The mail still queued is popped and the queue freed.
  match process.mailBox with
  | none => .error .nullPointer
  | some _ => do
      let (_, mmu) ← mmuFreeMultiple cont.mmu pid 0 cont.prcBlkSize
      let disk ← diskFreeProcessBlock mmu.disk process.diskBlockStart
      let processes ← store cont.processes pid { process with mailBox := none, junk := true }
      funcArgDestroy process.procThrdArg
      pure (.ecSuccess,
        { cont with processes := processes, mmu := { mmu with disk := disk } })

/-- ecFail while some slot is in use; otherwise the container is freed. -/
def procContDestroy (cont : ProcCont) : Errcode :=
  if (cont.processes.take cont.maxNumOfProc).all (·.junk) then .ecSuccess else .ecFail

end VmSim.ProcessTable
