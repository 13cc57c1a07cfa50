import VmSim.Library.LockedThreads
import VmSim.PagingRuns

/-!
The threads of the program with all their locks: `mmu_read` and `mmu_write` of
vmsim/mmu.c, vmsim/prm.c, vmsim/aging_daemon.c, `process_func` and
`process_dealloc` for any number of processes, and the creation, mailing and
deletion of processes by the UI thread. A place is the statement a thread
reaches next, and a step takes or releases one lock or runs the statements
between two of them. The PRM and the daemon are never stopped; the lock inside
`worker_thread_t` and the hand-off of `job_done` are left out. The conditions of
the waits with a deadline are broadcast, and the two others, `del` and the one of
a mailbox, have a single thread that waits, which is the one `signal` wakes.
-/

namespace VmSim.ThreadCode
open LockedThreads PageTable DiskBlocks MemoryUnit PageReplacement PagingRuns

/-- `mmu`, `stats`, `refcnt` and `disk` are readers-writer locks, the others mutexes. -/
inductive Lock where
  | mmu
  | stats
  | refcnt
  | disk
  | prmQueue
  | prm
  | daemon
  | cont
  | mail (pid : Nat)
  deriving DecidableEq, Repr

inductive Cond where
  | prmQueue
  | prm
  | shouldUpdate
  | doneUpdating
  | del
  | mail (pid : Nat)
  deriving DecidableEq, Repr

inductive Access where
  | read (addr : VirtAddr) (nbytes : Nat)
  | write (addr : VirtAddr) (buf : List BYTE)

def Access.addr : Access → VirtAddr
  | .read addr _ => addr
  | .write addr _ => addr

def Access.refType : Access → RefType
  | .read _ _ => .refRead
  | .write _ _ => .refWrite

inductive Mail where
  | job (accesses : List Access)
  | del

structure Slot where
  junk : Bool
  del : Bool
  running : Bool
  diskBlockStart : Nat
  mailBox : Option (List Mail)

def zeroSlot : Slot := ⟨false, false, false, 0, none⟩

structure PrmCommand where
  addr : VirtAddr
  done : Bool

/-- Commands are numbered in the order of their `malloc`, process threads in the order
of their `pthread_create`. -/
structure Control where
  maxNumOfProc : Nat
  prcBlkSize : Nat
  slot : Nat → Slot
  spawned : Nat
  queue : List Nat
  command : Nat → PrmCommand
  fresh : Nat
  shouldUpdate : Bool
  doneUpdating : Bool

structure Shared where
  machine : Machine
  control : Control

/-- A thread is before, inside or at the end of a critical section. -/
inductive Phase where
  | want
  | inside
  | leave
  deriving DecidableEq, Repr

/-- `mmu_read` and `mmu_write` from their first line: `counting` is the section of the
statistics and `reading` that of `ipt_ref_count`, each with what has been found. -/
inductive AccessPc where
  | checking
  | acquiring
  | testing
  | counting (hit : Bool) (phase : Phase)
  | faulting
  | requesting
  | pushing (cmd : Nat) (phase : Phase)
  | signallingPush (cmd : Nat)
  | completing (cmd : Nat) (phase : Phase)
  | reacquiring
  | retesting
  | referencing (phase : Phase)
  | copying
  | releasing
  | reading (due : Bool) (phase : Phase)
  | zeroing (phase : Phase)
  | asking (phase : Phase)
  | signallingUpdate
  | awaitingUpdate

inductive DeallocPc where
  | locking
  | checking
  | emptying (phase : Phase)
  | freeing (page : Nat)
  | freeingPage (page : Nat) (phase : Phase)
  | freeingBlock (phase : Phase)
  | marking
  | signalling
  | unlocking

inductive WorkerPc where
  | raising
  | locking
  | waiting
  | popping
  | unlocking (mail : Mail)
  | working (rest : List Access)
  | access (a : Access) (rest : List Access) (pc : AccessPc)
  | dealloc (pc : DeallocPc)
  | lowering
  | gone

/-- The thread of a process, with the `curr_pid` of its argument. -/
structure ProcessPc where
  pid : Nat
  pc : WorkerPc

inductive ServicePc where
  | acquiring
  | mapping
  | choosing
  | testing (victim : VirtAddr)
  | syncing (victim : VirtAddr) (phase : Phase)
  | unmapping (victim : VirtAddr)
  | remapping
  | loading (phase : Phase)
  | releasing

inductive PrmPc where
  | locking
  | waiting
  | popping
  | unlocking (cmd : Nat)
  | fetching (cmd : Nat)
  | serving (cmd : Nat) (addr : VirtAddr) (pc : ServicePc)
  | reporting (cmd : Nat) (phase : Phase)
  | signalling (cmd : Nat)

inductive DaemonPc where
  | locking
  | waiting
  | acquiring
  | aging
  | releasing
  | reporting
  | signalling
  | unlocking

inductive CreatePc where
  | locking
  | selecting
  | allocating (i : Nat) (page : Option Nat) (phase : Phase)
  | mapping (i page k : Nat)
  | mappingPage (i page k : Nat) (phase : Phase)
  | filling (i page : Nat)
  | unlocking (i : Nat)
  | spawning (i : Nat)
  | spinning (i : Nat)
  | refusing (i : Nat)
  | freeing (i : Nat)

inductive ComposePc where
  | testing
  | locking
  | pushing
  | signalling
  | unlocking

/-- `past` is what lies behind the bitmap of the disk in memory. -/
inductive UiPc where
  | idle
  | creating (past : Nat → PackedBitmap.Block) (pc : CreatePc)
  | destroying (pid : Nat)
  | testing (pid : Nat)
  | composing (pid : Nat) (mail : Mail) (pc : ComposePc)
  | marking (pid : Nat)
  | waiting (pid : Nat)
  | returning

inductive Thread where
  | ui
  | prm
  | daemon
  | process (n : Nat)
  deriving DecidableEq, Repr

@[reducible] def Place : Thread → Type
  | .ui => UiPc
  | .prm => PrmPc
  | .daemon => DaemonPc
  | .process _ => ProcessPc

abbrev Step (t : Thread) := Instr Thread Lock Cond Shared Fault Place t

def Shared.onMmu (sh : Shared) (mmu : Mmu) : Shared := { sh with machine := ⟨mmu, sh.machine.prm⟩ }

def Shared.onControl (sh : Shared) (control : Control) : Shared := { sh with control := control }

def Shared.setSlot (sh : Shared) (i : Nat) (slot : Slot) : Shared :=
  sh.onControl { sh.control with slot := Function.update sh.control.slot i slot }

def Shared.setCommand (sh : Shared) (cmd : Nat) (command : PrmCommand) : Shared :=
  sh.onControl { sh.control with command := Function.update sh.control.command cmd command }

section Instructions
variable {t : Thread}

def goOn (next : Place t) : Step t := .act fun sh => .ok (sh, next)

def onMmu (does : Mmu → Outcome Mmu) (next : Place t) : Step t := .act fun sh => do
  let mmu ← does sh.machine.mmu
  pure (sh.onMmu mmu, next)

def testMmu (test : Mmu → Outcome Bool) (yes no : Place t) : Step t := .act fun sh => do
  let found ← test sh.machine.mmu
  pure (sh, if found then yes else no)

def onControl (does : Control → Control) (next : Place t) : Step t :=
  .act fun sh => .ok (sh.onControl (does sh.control), next)

/-- A critical section that changes the MMU alone; `pc` is the place of each phase. -/
def mmuSection (lock : Lock) (mode : Mode) (does : Mmu → Outcome Mmu) (pc : Phase → Place t)
    (next : Place t) : Phase → Step t
  | .want => .acquire lock mode (pc .inside)
  | .inside => onMmu does (pc .leave)
  | .leave => .release lock next

end Instructions

/-! A thread of a process. -/

/-- `ipt_reference` with the increment under its own lock. -/
def reference (a : Access) (mmu : Mmu) : Outcome Mmu := do
  let ipt ← iptReference mmu.memIpt a.addr a.refType
  pure { mmu with memIpt := ipt }

def copyBytes (a : Access) (mmu : Mmu) : Outcome Mmu := do
  let memPage ← iptTranslate mmu.memIpt a.addr
  match a with
  | .read addr nbytes => do
      let _ ← copyOut mmu.mem.data (memAddr mmu memPage addr.offset) nbytes
      pure mmu
  | .write addr buf => do
      let data ← copyIn mmu.mem.data (memAddr mmu memPage addr.offset) buf
      pure { mmu with mem := { mmu.mem with data := data } }

def inPage (a : Access) (mmu : Mmu) : Outcome Mmu := do
  match a with
  | .read addr nbytes => mmuReadInPage mmu addr nbytes
  | .write addr buf => mmuWriteInPage mmu addr buf.length
  pure mmu

def countReference (hit : Bool) (mmu : Mmu) : Outcome Mmu :=
  .ok { mmu with stats := ⟨mmu.stats.nrefs + 1, if hit then mmu.stats.hits + 1 else mmu.stats.hits⟩ }

def pushCommand {t : Thread} (cmd : Nat) (alone more : Place t) : Step t := .act fun sh =>
  .ok (sh.onControl { sh.control with queue := sh.control.queue ++ [cmd] },
    if sh.control.queue = [] then alone else more)

def newPrmCommand {t : Thread} (addr : VirtAddr) (next : Nat → Place t) : Step t := .act fun sh =>
  let cmd := sh.control.fresh
  .ok ((sh.setCommand cmd ⟨addr, false⟩).onControl
    { (sh.setCommand cmd ⟨addr, false⟩).control with fresh := cmd + 1 }, next cmd)

def refCountDue (mmu : Mmu) : Outcome Bool := .ok (mmu.agingFreq ≤ iptRefCount mmu.memIpt)

/-- `mmu_read` and `mmu_write`; `here` is the place of each statement and `next` what
follows the call. -/
def accessCode {t : Thread} (a : Access) (here : AccessPc → Place t) (next : Place t) :
    AccessPc → Step t
  | .checking => onMmu (inPage a) (here .acquiring)
  | .acquiring => .acquire .mmu .read (here .testing)
  | .testing =>
      testMmu (fun mmu => iptHasTranslation mmu.memIpt a.addr) (here (.counting true .want))
        (here (.counting false .want))
  | .counting hit phase =>
      mmuSection .stats .write (countReference hit) (fun phase => here (.counting hit phase))
        (here (if hit then .referencing .want else .faulting)) phase
  | .faulting => .release .mmu (here .requesting)
  | .requesting => newPrmCommand a.addr fun cmd => here (.pushing cmd .want)
  | .pushing cmd .want => .acquire .prmQueue .write (here (.pushing cmd .inside))
  | .pushing cmd .inside => pushCommand cmd (here (.signallingPush cmd)) (here (.pushing cmd .leave))
  | .signallingPush cmd => .signal .prmQueue (here (.pushing cmd .leave))
  | .pushing cmd .leave => .release .prmQueue (here (.completing cmd .want))
  | .completing cmd .want => .acquire .prm .write (here (.completing cmd .inside))
  | .completing cmd .inside =>
      .wait .prm .prm true true (fun sh => (sh.control.command cmd).done) (here (.completing cmd .leave))
  | .completing _ .leave => .release .prm (here .reacquiring)
  | .reacquiring => .acquire .mmu .read (here .retesting)
  | .retesting =>
      testMmu (fun mmu => iptHasTranslation mmu.memIpt a.addr) (here (.referencing .want))
        (here .faulting)
  | .referencing phase =>
      mmuSection .refcnt .write (reference a) (fun phase => here (.referencing phase)) (here .copying)
        phase
  | .copying => onMmu (copyBytes a) (here .releasing)
  | .releasing => .release .mmu (here (.reading false .want))
  | .reading _ .want => .acquire .refcnt .read (here (.reading false .inside))
  | .reading _ .inside => testMmu refCountDue (here (.reading true .leave)) (here (.reading false .leave))
  | .reading due .leave => .release .refcnt (if due then here (.zeroing .want) else next)
  | .zeroing phase =>
      mmuSection .refcnt .write (fun mmu => .ok { mmu with memIpt := iptZeroRefCount mmu.memIpt })
        (fun phase => here (.zeroing phase)) (here (.asking .want)) phase
  | .asking .want => .acquire .daemon .write (here (.asking .inside))
  | .asking .inside =>
      onControl (fun control => { control with doneUpdating := false, shouldUpdate := true })
        (here .signallingUpdate)
  | .signallingUpdate => .signal .shouldUpdate (here .awaitingUpdate)
  | .awaitingUpdate =>
      .wait .doneUpdating .daemon true true (fun sh => sh.control.doneUpdating) (here (.asking .leave))
  | .asking .leave => .release .daemon next

def deallocAsserts {t : Thread} (pid : Nat) (next : Place t) : Step t := .act fun sh => do
  assert .processDealloc !(sh.control.slot pid).junk
  assert .processDealloc (sh.control.slot pid).del
  pure (sh, next)

def destroyMailBox {t : Thread} (pid : Nat) (next : Place t) : Step t := .act fun sh =>
  match (sh.control.slot pid).mailBox with
  | none => .error .nullPointer
  | some _ => .ok (sh.setSlot pid { sh.control.slot pid with mailBox := none }, next)

def freeDiskBlock {t : Thread} (pid : Nat) (next : Place t) : Step t := .act fun sh => do
  let mmu := sh.machine.mmu
  let disk ← diskFreeProcessBlock mmu.disk (sh.control.slot pid).diskBlockStart
  pure (sh.onMmu { mmu with disk := disk }, next)

def deallocCode {t : Thread} (pid : Nat) (here : DeallocPc → Place t) (next : Place t) :
    DeallocPc → Step t
  | .locking => .acquire .cont .write (here .checking)
  | .checking => deallocAsserts pid (here (.emptying .want))
  | .emptying .want => .acquire (.mail pid) .write (here (.emptying .inside))
  | .emptying .inside => destroyMailBox pid (here (.emptying .leave))
  | .emptying .leave => .release (.mail pid) (here (.freeing 0))
  | .freeing page => .act fun sh =>
      .ok (sh, here (if page < sh.control.prcBlkSize then .freeingPage page .want else .freeingBlock .want))
  | .freeingPage page phase =>
      mmuSection .mmu .write (fun mmu => (·.2) <$> mmuFreePage mmu ⟨pid, page, 0⟩)
        (fun phase => here (.freeingPage page phase)) (here (.freeing (page + 1))) phase
  | .freeingBlock .want => .acquire .disk .write (here (.freeingBlock .inside))
  | .freeingBlock .inside => freeDiskBlock pid (here (.freeingBlock .leave))
  | .freeingBlock .leave => .release .disk (here .marking)
  | .marking => .act fun sh =>
      .ok (sh.setSlot pid { sh.control.slot pid with junk := true }, here .signalling)
  | .signalling => .signal .del (here .unlocking)
  | .unlocking => .release .cont next

def setRunning {t : Thread} (pid : Nat) (running : Bool) (next : Place t) : Step t := .act fun sh =>
  .ok (sh.setSlot pid { sh.control.slot pid with running := running }, next)

def hasMail (pid : Nat) (sh : Shared) : Bool :=
  (sh.control.slot pid).mailBox.any fun mails => !mails.isEmpty

def popMail {t : Thread} (pid : Nat) (next : Mail → Place t) : Step t := .act fun sh =>
  match (sh.control.slot pid).mailBox with
  | some (mail :: rest) =>
      .ok (sh.setSlot pid { sh.control.slot pid with mailBox := some rest }, next mail)
  | _ => .error .nullPointer

def processCode (n : Nat) (place : ProcessPc) : Step (.process n) :=
  let here (pc : WorkerPc) : Place (.process n) := ⟨place.pid, pc⟩
  match place.pc with
  | .raising => setRunning place.pid true (here .locking)
  | .locking => .acquire (.mail place.pid) .write (here .waiting)
  | .waiting =>
      .wait (.mail place.pid) (.mail place.pid) false true (hasMail place.pid) (here .popping)
  | .popping => popMail place.pid fun mail => here (.unlocking mail)
  | .unlocking (.job accesses) => .release (.mail place.pid) (here (.working accesses))
  | .unlocking .del => .release (.mail place.pid) (here (.dealloc .locking))
  | .working [] => goOn (here .locking)
  | .working (a :: rest) => goOn (here (.access a rest .checking))
  | .access a rest pc => accessCode a (fun pc => here (.access a rest pc)) (here (.working rest)) pc
  | .dealloc pc => deallocCode place.pid (fun pc => here (.dealloc pc)) (here .lowering) pc
  | .lowering => setRunning place.pid false (here .gone)
  | .gone => .halt

/-! The PRM. -/

/-- `mmu_map_page`, first and after a page was swapped out; then the code translates the page. -/
def mapPage {t : Thread} (addr : VirtAddr) (again : Bool) (mapped full : Place t) : Step t :=
  .act fun sh => do
    let (errcode, mmu) ← mmuMapPage sh.machine.mmu addr
    if again then do
      let _ ← iptTranslate mmu.memIpt addr
      pure (sh.onMmu mmu, if errcode = .ecSuccess then mapped else full)
    else pure (sh.onMmu mmu, if errcode = .ecSuccess then mapped else full)

def pageToSwap {t : Thread} (addr : VirtAddr) (next : VirtAddr → Place t) : Step t := .act fun sh => do
  let (victim, prm, mmu) ← getPageToSwap sh.machine.prm sh.machine.mmu addr
  pure ({ sh with machine := ⟨mmu, prm⟩ }, next victim)

/-- The first half of `prm_swap_out` for a dirty page. -/
def syncOut (victim : VirtAddr) (mmu : Mmu) : Outcome Mmu := do
  let (errcode, mmu) ← mmuSyncToBackingPage mmu victim
  assert .prmSwapOut (errcode = .ecSuccess)
  pure mmu

def unmapOut (victim : VirtAddr) (mmu : Mmu) : Outcome Mmu := do
  let (errcode, mmu) ← mmuUnmapPage mmu victim
  assert .prmSwapOut (errcode = .ecSuccess)
  pure mmu

/-- The part of `prm_thread_func` under the MMU's lock, for a fault on `addr`. -/
def serviceCode {t : Thread} (addr : VirtAddr) (here : ServicePc → Place t) (next : Place t) :
    ServicePc → Step t
  | .acquiring => .acquire .mmu .write (here .mapping)
  | .mapping => mapPage addr false (here (.loading .want)) (here .choosing)
  | .choosing => pageToSwap addr fun victim => here (.testing victim)
  | .testing victim =>
      testMmu (fun mmu => iptIsDirty mmu.memIpt victim) (here (.syncing victim .want))
        (here (.unmapping victim))
  | .syncing victim phase =>
      mmuSection .disk .write (syncOut victim) (fun phase => here (.syncing victim phase))
        (here (.unmapping victim)) phase
  | .unmapping victim => onMmu (unmapOut victim) (here .remapping)
  | .remapping => mapPage addr true (here (.loading .want)) (here .choosing)
  | .loading phase =>
      mmuSection .disk .read (fun mmu => (·.2) <$> mmuSyncFromBackingPage mmu addr)
        (fun phase => here (.loading phase)) (here .releasing) phase
  | .releasing => .release .mmu next

def popCommand {t : Thread} (next : Nat → Place t) : Step t := .act fun sh =>
  match sh.control.queue with
  | cmd :: rest => .ok (sh.onControl { sh.control with queue := rest }, next cmd)
  | [] => .error .nullPointer

def prmCode : PrmPc → Step .prm
  | .locking => .acquire .prmQueue .write .waiting
  | .waiting => .wait .prmQueue .prmQueue true true (fun sh => !sh.control.queue.isEmpty) .popping
  | .popping => popCommand (t := .prm) .unlocking
  | .unlocking cmd => .release .prmQueue (.fetching cmd)
  | .fetching cmd => .act fun sh => .ok (sh, .serving cmd (sh.control.command cmd).addr .acquiring)
  | .serving cmd addr pc =>
      serviceCode (t := .prm) addr (fun pc => .serving cmd addr pc) (.reporting cmd .want) pc
  | .reporting cmd .want => .acquire .prm .write (.reporting cmd .inside)
  | .reporting cmd .inside => .act fun sh =>
      .ok (sh.setCommand cmd { sh.control.command cmd with done := true }, .signalling cmd)
  | .signalling cmd => .signal .prm (.reporting cmd .leave)
  | .reporting _ .leave => .release .prm .locking

/-- A wait that finds nothing to update ends the call of `daemon_func`, and the next
call begins with the same wait. -/
def daemonCode : DaemonPc → Step .daemon
  | .locking => .acquire .daemon .write .waiting
  | .waiting => .wait .shouldUpdate .daemon true false (fun sh => sh.control.shouldUpdate) .acquiring
  | .acquiring => .acquire .mmu .read .aging
  | .aging => onMmu (t := .daemon) (fun mmu => .ok (agePages mmu)) .releasing
  | .releasing => .release .mmu .reporting
  | .reporting =>
      onControl (t := .daemon)
        (fun control => { control with shouldUpdate := false, doneUpdating := true }) .signalling
  | .signalling => .signal .doneUpdating .unlocking
  | .unlocking => .release .daemon .locking

/-! The UI. -/

def selectSlot (next : Nat → UiPc) : Step .ui := .act fun sh =>
  match (List.range sh.control.maxNumOfProc).find? fun i => (sh.control.slot i).junk with
  | none => .ok (sh, .returning)
  | some i => .ok (sh.setSlot i zeroSlot, next i)

def allocBlock (past : Nat → PackedBitmap.Block) (next : Option Nat → UiPc) : Step .ui :=
  .act fun sh => do
    let mmu := sh.machine.mmu
    let (page, disk) ← diskAllocProcessBlock past mmu.disk
    pure (sh.onMmu { mmu with disk := disk }, next page)

/-- `init_process` from the first page that is mapped to its end. -/
def fillSlot (i page : Nat) (next : UiPc) : Step .ui := .act fun sh =>
  .ok (sh.setSlot i { sh.control.slot i with
    diskBlockStart := page, junk := false, mailBox := some [], running := false }, next)

/-- `free(prc)` where the disk has no block left. The slots are one allocation, so what is freed
was never allocated by itself, or is the array of all the slots. -/
def freeSlot (_ : Nat) : Step .ui := .act fun _ => .error .badFree

/-- `mmu_alloc_page` has asserted its success when it returns. -/
def createCode (past : Nat → PackedBitmap.Block) : CreatePc → Step .ui
  | .locking => .acquire .cont .write (.creating past .selecting)
  | .selecting => selectSlot fun i => .creating past (.allocating i none .want)
  | .allocating i page .want => .acquire .disk .write (.creating past (.allocating i page .inside))
  | .allocating i _ .inside => allocBlock past fun page => .creating past (.allocating i page .leave)
  | .allocating i none .leave => .release .disk (.creating past (.refusing i))
  | .allocating i (some page) .leave => .release .disk (.creating past (.mapping i page 0))
  | .mapping i page k => .act fun sh =>
      .ok (sh, .creating past
        (if k < sh.control.prcBlkSize then .mappingPage i page k .want else .filling i page))
  | .mappingPage i page k phase =>
      mmuSection (t := .ui) .mmu .write (fun mmu => (·.2) <$> mmuAllocPage mmu ⟨i, k, 0⟩ (page + k))
        (fun phase => .creating past (.mappingPage i page k phase))
        (.creating past (.mapping i page (k + 1))) phase
  | .filling i page => fillSlot i page (.creating past (.unlocking i))
  | .unlocking i => .release .cont (.creating past (.spawning i))
  | .spawning i =>
      .spawn
        (fun sh => (sh.onControl { sh.control with spawned := sh.control.spawned + 1 },
          ⟨.process sh.control.spawned, ⟨i, .raising⟩⟩))
        (.creating past (.spinning i))
  | .spinning i => .spin (fun sh => (sh.control.slot i).running) .idle
  | .refusing i => .release .cont (.creating past (.freeing i))
  | .freeing i => freeSlot i

/-- Where a mail leads: `process_destroy` goes on after its own. -/
def Mail.after (pid : Nat) : Mail → UiPc
  | .job _ => .idle
  | .del => .marking pid

/-- The first two tests of `compose_mail`; the array of the processes ends at
`maxNumOfProc`. -/
def testRecipient (pid : Nat) (mail : Mail) : Step .ui := .act fun sh =>
  if sh.control.maxNumOfProc < pid then .ok (sh, mail.after pid)
  else if pid = sh.control.maxNumOfProc then .error .outOfBounds
  else if (sh.control.slot pid).junk then .ok (sh, mail.after pid)
  else .ok (sh, .composing pid mail .locking)

def pushMail (pid : Nat) (mail : Mail) : Step .ui := .act fun sh =>
  if (sh.control.slot pid).del then .ok (sh, .composing pid mail .unlocking)
  else
    match (sh.control.slot pid).mailBox with
    | none => .error .nullPointer
    | some mails =>
        .ok (sh.setSlot pid { sh.control.slot pid with mailBox := some (mails ++ [mail]) },
          .composing pid mail .signalling)

def composeCode (pid : Nat) (mail : Mail) : ComposePc → Step .ui
  | .testing => testRecipient pid mail
  | .locking => .acquire (.mail pid) .write (.composing pid mail .pushing)
  | .pushing => pushMail pid mail
  | .signalling => .signal (.mail pid) (.composing pid mail .unlocking)
  | .unlocking => .release (.mail pid) (mail.after pid)

/-- What the UI may begin with: `create_process`, a job or `process_destroy`. -/
def UiPc.Command : UiPc → Prop
  | .creating _ .locking => True
  | .composing _ (.job _) .testing => True
  | .destroying _ => True
  | _ => False

/-- The wait of `process_destroy` stands in no loop. -/
def uiCode : UiPc → Step .ui
  | .idle => .choose UiPc.Command
  | .creating past pc => createCode past pc
  | .destroying pid => .acquire .cont .write (.testing pid)
  | .testing pid => .act fun sh =>
      .ok (sh, if sh.control.maxNumOfProc ≤ pid ∨ (sh.control.slot pid).junk then .returning
        else .composing pid .del .testing)
  | .composing pid mail pc => composeCode pid mail pc
  | .marking pid => .act fun sh =>
      .ok (sh.setSlot pid { sh.control.slot pid with del := true }, .waiting pid)
  | .waiting _ => .wait .del .cont false false (fun _ => true) .returning
  | .returning => .release .cont .idle

def code : Code Thread Lock Cond Shared Fault Place
  | .ui, place => uiCode place
  | .prm, place => prmCode place
  | .daemon, place => daemonCode place
  | .process n, place => processCode n place

abbrev Threads := State Thread Lock Shared Fault Place

/-- After `load_app_data`: the PRM and the daemon run, and there is no process. -/
def start (maxNumOfProc prcBlkSize : Nat) (machine : Machine) : Threads where
  shared :=
    { machine := machine
      control :=
        { maxNumOfProc := maxNumOfProc
          prcBlkSize := prcBlkSize
          slot := fun _ => { zeroSlot with junk := true }
          spawned := 0
          queue := []
          command := fun _ => ⟨⟨0, 0, 0⟩, false⟩
          fresh := 0
          shouldUpdate := false
          doneUpdating := false } }
  stopped := none
  place
    | .ui => .idle
    | .prm => .locking
    | .daemon => .locking
    | .process _ => ⟨0, .gone⟩
  held _ := []
  nap _ := .awake

end VmSim.ThreadCode
