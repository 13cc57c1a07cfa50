import Mathlib.Algebra.GroupWithZero.Nat
import Mathlib.Data.Finset.Image
import Mathlib.Data.Finset.Range
import VmSim.Library.ThreadWork
import VmSim.ThreadOutcomes

/-!
How much there is left to do in a state of the threads: the statements each thread has
before it comes to rest, the posts in the mailboxes, the commands in the queue and an
update that is asked for. Every step that brings a thread on takes one from it, but for
a process that finds its page swapped out again before it has come to use it.
-/

namespace VmSim.ThreadCode
open LockedThreads Interleaving PageTable DiskBlocks KeyedMap MemoryUnit PageReplacement PagingRuns
open FramePool DemandPaging BlockAllocator Leases

/-! What the statements before the next rest come to. -/

def PrmPc.price : PrmPc → Nat
  | .popping => 1
  | .waiting => 3
  | .locking => 4
  | .reporting _ .leave => 5
  | .signalling _ => 6
  | .reporting _ .inside => 7
  | .reporting _ .want => 8
  | .serving _ _ .releasing => 9
  | .serving _ _ (.loading .leave) => 10
  | .serving _ _ (.loading .inside) => 11
  | .serving _ _ (.loading .want) => 12
  | .serving _ _ .remapping => 13
  | .serving _ _ (.unmapping _) => 14
  | .serving _ _ (.syncing _ .leave) => 15
  | .serving _ _ (.syncing _ .inside) => 16
  | .serving _ _ (.syncing _ .want) => 17
  | .serving _ _ (.testing _) => 18
  | .serving _ _ .choosing => 19
  | .serving _ _ .mapping => 20
  | .serving _ _ .acquiring => 21
  | .fetching _ => 22
  | .unlocking _ => 23

def commandPrice : Nat := 23

/-- The update itself has its price where it is asked for. -/
def DaemonPc.price : DaemonPc → Nat
  | .reporting => 1
  | .releasing => 2
  | .aging => 3
  | .acquiring => 4
  | .waiting => 6
  | .locking => 7
  | .unlocking => 8
  | .signalling => 9

def updatePrice : Nat := 9

/-- On top of the rest of the job. -/
def AccessPc.price : AccessPc → Nat
  | .asking .leave => 1
  | .awaitingUpdate => 3
  | .signallingUpdate => 4
  | .asking .inside => 14
  | .asking .want => 15
  | .zeroing .leave => 16
  | .zeroing .inside => 17
  | .zeroing .want => 18
  | .reading _ .leave => 19
  | .reading _ .inside => 20
  | .reading _ .want => 21
  | .releasing => 22
  | .copying => 23
  | .referencing .leave => 24
  | .referencing .inside => 25
  | .referencing .want => 26
  | .retesting => 27
  | .reacquiring => 28
  | .completing _ .leave => 29
  | .completing _ .inside => 31
  | .completing _ .want => 32
  | .pushing _ .leave => 33
  | .signallingPush _ => 34
  | .pushing _ .inside => 58
  | .pushing _ .want => 59
  | .requesting => 60
  | .faulting => 61
  | .counting _ .leave => 62
  | .counting _ .inside => 63
  | .counting _ .want => 64
  | .testing => 65
  | .acquiring => 66
  | .checking => 67

/-- What a process owes that finds its page gone. -/
def retryPrice : Nat := 35

def jobPrice (accesses : List Access) : Nat := 5 + 68 * accesses.length

def DeallocPc.price (blk : Nat) : DeallocPc → Nat
  | .unlocking => 2
  | .signalling => 3
  | .marking => 4
  | .freeingBlock .leave => 5
  | .freeingBlock .inside => 6
  | .freeingBlock .want => 7
  | .freeing page => 8 + 4 * (blk - page)
  | .freeingPage page .leave => 9 + 4 * (blk - (page + 1))
  | .freeingPage page .inside => 10 + 4 * (blk - (page + 1))
  | .freeingPage page .want => 11 + 4 * (blk - (page + 1))
  | .emptying .leave => 9 + 4 * blk
  | .emptying .inside => 10 + 4 * blk
  | .emptying .want => 11 + 4 * blk
  | .checking => 12 + 4 * blk
  | .locking => 13 + 4 * blk

/-- A post from the moment it is taken out of the mailbox. -/
def Mail.price (blk : Nat) : Mail → Nat
  | .job accesses => 1 + jobPrice accesses
  | .del => 14 + 4 * blk

def WorkerPc.price (blk : Nat) : WorkerPc → Nat
  | .gone => 0
  | .lowering => 1
  | .popping => 1
  | .waiting => 3
  | .locking => 4
  | .raising => 5
  | .unlocking mail => mail.price blk
  | .working rest => jobPrice rest
  | .access _ rest pc => pc.price + jobPrice rest
  | .dealloc pc => pc.price blk

/-- What the UI has to do about a mail once it has been composed. -/
def Mail.restPrice : Mail → Nat
  | .job _ => 0
  | .del => 4

def ComposePc.price (blk : Nat) (mail : Mail) : ComposePc → Nat
  | .unlocking => 1 + mail.restPrice
  | .signalling => 2 + mail.restPrice
  | .pushing => 3 + mail.restPrice + mail.price blk
  | .locking => 4 + mail.restPrice + mail.price blk
  | .testing => 5 + mail.restPrice + mail.price blk

def CreatePc.price (blk : Nat) : CreatePc → Nat
  | .freeing _ => 1
  | .refusing _ => 2
  | .spinning _ => 1
  | .spawning _ => 7
  | .unlocking _ => 8
  | .filling _ _ => 9
  | .mapping _ _ k => 10 + 4 * (blk - k)
  | .mappingPage _ _ k .leave => 11 + 4 * (blk - (k + 1))
  | .mappingPage _ _ k .inside => 12 + 4 * (blk - (k + 1))
  | .mappingPage _ _ k .want => 13 + 4 * (blk - (k + 1))
  | .allocating _ _ .leave => 11 + 4 * blk
  | .allocating _ _ .inside => 12 + 4 * blk
  | .allocating _ _ .want => 13 + 4 * blk
  | .selecting => 14 + 4 * blk
  | .locking => 15 + 4 * blk

def UiPc.price (blk : Nat) : UiPc → Nat
  | .idle => 0
  | .returning => 1
  | .waiting _ => 3
  | .marking _ => 4
  | .composing _ mail pc => pc.price blk mail
  | .testing _ => 24 + 4 * blk
  | .destroying _ => 25 + 4 * blk
  | .creating _ pc => pc.price blk

def placePrice (blk : Nat) : ∀ t, Place t → Nat
  | .ui, place => UiPc.price blk place
  | .prm, place => PrmPc.price place
  | .daemon, place => DaemonPc.price place
  | .process _, place => (ProcessPc.pc place).price blk

/-! What lies in the mailboxes and in the queue. -/

def boxPrice (blk : Nat) (slot : Slot) : Nat :=
  match slot.mailBox with
  | none => 0
  | some mails => (mails.map (Mail.price blk)).sum

def mailPrice (blk : Nat) (c : Control) : Nat := ∑ i ∈ Finset.range c.maxNumOfProc, boxPrice blk (c.slot i)

def controlPrice (blk : Nat) (c : Control) : Nat :=
  commandPrice * c.queue.length + (if c.shouldUpdate then updatePrice else 0) + mailPrice blk c

def crewOf (c : Control) : Finset Thread :=
  {.ui, .prm, .daemon} ∪ (Finset.range c.spawned).image Thread.process

def budget (blk : Nat) : Account Thread Shared Place where
  price := placePrice blk
  value sh := controlPrice blk sh.control
  crew sh := crewOf sh.control

/-- The statements that all threads together have before they rest. -/
def work (blk : Nat) (s : Threads) : Nat := (budget blk).left s

/-! Every statement pays for itself. -/

section Statements
variable {t : Thread} {blk loan here base : Nat} {sh : Shared}

theorem crew_same {c c' : Control} (spawned : c'.spawned = c.spawned) : crewOf c' = crewOf c := by
  rw [crewOf, crewOf, spawned]

theorem act_pays {does : Shared → Except Fault (Shared × Place t)}
    (pays : ∀ after next, does sh = .ok (after, next) → after.control.spawned = sh.control.spawned ∧
      placePrice blk t next + controlPrice blk after.control + 1 ≤
        here + controlPrice blk sh.control + loan) :
    (.act does : Step t).Pays (budget blk) loan sh here := fun after next done =>
  ⟨crew_same (pays after next done).1, (pays after next done).2⟩

theorem quiet_pays {does : Shared → Except Fault (Shared × Place t)}
    (quiet : ∀ after next, does sh = .ok (after, next) → after.control = sh.control ∧
      placePrice blk t next + 1 ≤ here + loan) : (.act does : Step t).Pays (budget blk) loan sh here := by
  refine act_pays fun after next done => ?_
  obtain ⟨same, less⟩ := quiet after next done
  rw [same]
  exact ⟨rfl, by omega⟩

theorem on_mmu_pays {does : Mmu → Outcome Mmu} {next : Place t} (less : placePrice blk t next + 1 ≤ here) :
    (onMmu does next).Pays (budget blk) loan sh here := by
  refine quiet_pays fun after place done => ?_
  obtain ⟨mmu, -, made⟩ := bind_eq_ok.mp done
  cases made
  exact ⟨rfl, by omega⟩

theorem test_mmu_pays {test : Mmu → Outcome Bool} {yes no : Place t}
    (first : placePrice blk t yes + 1 ≤ here) (second : placePrice blk t no + 1 ≤ here) :
    (testMmu test yes no).Pays (budget blk) loan sh here := by
  refine quiet_pays fun after place done => ?_
  obtain ⟨found, -, made⟩ := bind_eq_ok.mp done
  cases made
  refine ⟨rfl, ?_⟩
  split <;> omega

theorem section_pays {lock : Lock} {mode : Mode} {does : Mmu → Outcome Mmu} {pc : Phase → Place t}
    {next : Place t} (phase : Phase) (mine : placePrice blk t (pc phase) = here)
    (enter : placePrice blk t (pc .inside) + 1 ≤ placePrice blk t (pc .want))
    (leave : placePrice blk t (pc .leave) + 1 ≤ placePrice blk t (pc .inside))
    (ends : placePrice blk t next + 1 ≤ placePrice blk t (pc .leave)) :
    (mmuSection lock mode does pc next phase).Pays (budget blk) loan sh here := by
  subst mine
  cases phase with
  | want => exact enter
  | inside => exact on_mmu_pays leave
  | leave => exact ends

theorem go_on_pays {next : Place t} (less : placePrice blk t next + 1 ≤ here) :
    (goOn next).Pays (budget blk) loan sh here := by
  refine quiet_pays fun after place done => ?_
  cases done
  exact ⟨rfl, by omega⟩

theorem control_pays {does : Control → Control} {next : Place t}
    (spawned : (does sh.control).spawned = sh.control.spawned)
    (less : placePrice blk t next + controlPrice blk (does sh.control) + 1 ≤
      here + controlPrice blk sh.control) : (onControl does next).Pays (budget blk) loan sh here := by
  refine act_pays fun after place done => ?_
  cases done
  refine ⟨spawned, ?_⟩
  change placePrice blk t next + controlPrice blk (does sh.control) + 1 ≤ _
  omega

theorem access_less {here : AccessPc → Place t} (prices : ∀ pc, placePrice blk t (here pc) = pc.price + base)
    (pc pc' : AccessPc) (lower : pc'.price < pc.price) :
    placePrice blk t (here pc') + 1 ≤ placePrice blk t (here pc) := by
  rw [prices, prices]
  omega

theorem access_last {here : AccessPc → Place t} {next : Place t}
    (prices : ∀ pc, placePrice blk t (here pc) = pc.price + base) (ends : placePrice blk t next = base)
    (pc : AccessPc) (some : 0 < pc.price) : placePrice blk t next + 1 ≤ placePrice blk t (here pc) := by
  rw [prices, ends]
  omega

/-- The command is paid for with what the thread puts aside when it pushes it. -/
theorem pushing_pays {a : Access} {cmd : Nat} {phase : Phase} (here : AccessPc → Place t) (next : Place t)
    (prices : ∀ pc, placePrice blk t (here pc) = pc.price + base) :
    (accessCode a here next (.pushing cmd phase)).Pays (budget blk) loan sh
      (placePrice blk t (here (.pushing cmd phase))) := by
  have less := access_less prices
  cases phase with
  | want => exact less _ _ (by simp [AccessPc.price])
  | inside =>
      refine act_pays fun after place done => ?_
      cases done
      refine ⟨rfl, ?_⟩
      have either : placePrice blk t (if sh.control.queue = [] then here (.signallingPush cmd)
          else here (.pushing cmd .leave)) ≤ 34 + base := by
        split <;> rw [prices] <;> simp only [AccessPc.price] <;> omega
      have longer : controlPrice blk { sh.control with queue := sh.control.queue ++ [cmd] } =
          controlPrice blk sh.control + commandPrice := by
        simp only [controlPrice, mailPrice, List.length_append, List.length_singleton, commandPrice]
        omega
      change _ + controlPrice blk { sh.control with queue := sh.control.queue ++ [cmd] } + 1 ≤ _
      rw [longer, prices]
      simp only [AccessPc.price, commandPrice]
      omega
  | leave => exact less _ _ (by simp [AccessPc.price])

/-- A page that was stolen again is paid for with the loan. -/
theorem retesting_pays {a : Access} (here : AccessPc → Place t) (next : Place t)
    (prices : ∀ pc, placePrice blk t (here pc) = pc.price + base)
    (kept : retryPrice ≤ loan ∨ iptHasTranslation sh.machine.mmu.memIpt a.addr = .ok true) :
    (accessCode a here next .retesting).Pays (budget blk) loan sh (placePrice blk t (here .retesting)) := by
  refine quiet_pays fun after place done => ?_
  obtain ⟨found, tested, made⟩ := bind_eq_ok.mp done
  have tested : iptHasTranslation sh.machine.mmu.memIpt a.addr = .ok found := tested
  cases made
  refine ⟨rfl, ?_⟩
  rcases kept with borrows | present
  · rw [prices]
    split <;> rw [prices] <;> simp only [AccessPc.price, retryPrice] at borrows ⊢ <;> omega
  · rw [present] at tested
    cases tested
    have paid := access_less prices .retesting (.referencing .want) (by decide)
    simp only [if_true]
    omega

theorem reading_pays {a : Access} {due : Bool} {phase : Phase} (here : AccessPc → Place t) (next : Place t)
    (prices : ∀ pc, placePrice blk t (here pc) = pc.price + base) (ends : placePrice blk t next = base) :
    (accessCode a here next (.reading due phase)).Pays (budget blk) loan sh
      (placePrice blk t (here (.reading due phase))) := by
  have less := access_less prices
  cases phase with
  | want => exact less _ _ (by simp [AccessPc.price])
  | inside =>
      rw [accessCode]
      refine test_mmu_pays ?_ ?_ <;> exact less _ _ (by simp [AccessPc.price])
  | leave =>
      change placePrice blk t (if due then here (.zeroing .want) else next) + 1 ≤ _
      split
      · exact less _ _ (by simp [AccessPc.price])
      · exact access_last prices ends _ (by simp [AccessPc.price])

theorem asking_pays {a : Access} {phase : Phase} (here : AccessPc → Place t) (next : Place t)
    (prices : ∀ pc, placePrice blk t (here pc) = pc.price + base) (ends : placePrice blk t next = base) :
    (accessCode a here next (.asking phase)).Pays (budget blk) loan sh (placePrice blk t (here (.asking phase))) := by
  cases phase with
  | want => exact access_less prices _ _ (by simp [AccessPc.price])
  | inside =>
      rw [accessCode]
      refine control_pays rfl ?_
      have raised : controlPrice blk { sh.control with doneUpdating := false, shouldUpdate := true } ≤
          controlPrice blk sh.control + updatePrice := by
        simp only [controlPrice, mailPrice, if_true]
        omega
      rw [prices, prices]
      simp only [AccessPc.price, updatePrice] at raised ⊢
      omega
  | leave => exact access_last prices ends _ (by simp [AccessPc.price])

theorem access_pays {a : Access} {pc : AccessPc} (here : AccessPc → Place t) (next : Place t)
    (prices : ∀ pc, placePrice blk t (here pc) = pc.price + base) (ends : placePrice blk t next = base)
    (kept : pc = .retesting → retryPrice ≤ loan ∨ iptHasTranslation sh.machine.mmu.memIpt a.addr = .ok true) :
    (accessCode a here next pc).Pays (budget blk) loan sh (placePrice blk t (here pc)) := by
  have less := access_less prices
  cases pc with
  | checking => exact on_mmu_pays (less _ _ (by simp [AccessPc.price]))
  | acquiring => exact less _ _ (by simp [AccessPc.price])
  | testing =>
      rw [accessCode]
      refine test_mmu_pays ?_ ?_ <;> exact less _ _ (by simp [AccessPc.price])
  | counting hit phase =>
      rw [accessCode]
      refine section_pays phase rfl ?_ ?_ ?_
      · exact less _ _ (by simp [AccessPc.price])
      · exact less _ _ (by simp [AccessPc.price])
      · split <;> exact less _ _ (by simp [AccessPc.price])
  | faulting => exact less _ _ (by simp [AccessPc.price])
  | requesting =>
      refine act_pays fun after place done => ?_
      cases done
      refine ⟨rfl, ?_⟩
      rw [prices, prices]
      change AccessPc.price (.pushing _ .want) + base + controlPrice blk sh.control + 1 ≤ _
      simp only [AccessPc.price]
      omega
  | pushing cmd phase => exact pushing_pays here next prices
  | signallingPush cmd => exact less _ _ (by simp [AccessPc.price])
  | completing cmd phase =>
      cases phase with
      | want => exact less _ _ (by simp [AccessPc.price])
      | inside =>
          change placePrice blk t (here (.completing cmd .leave)) + 2 ≤ placePrice blk t (here (.completing cmd .inside))
          rw [prices, prices]
          simp only [AccessPc.price]
          omega
      | leave => exact less _ _ (by simp [AccessPc.price])
  | reacquiring => exact less _ _ (by simp [AccessPc.price])
  | retesting => exact retesting_pays here next prices (kept rfl)
  | referencing phase =>
      rw [accessCode]
      refine section_pays phase rfl ?_ ?_ ?_ <;> exact less _ _ (by simp [AccessPc.price])
  | copying => exact on_mmu_pays (less _ _ (by simp [AccessPc.price]))
  | releasing => exact less _ _ (by simp [AccessPc.price])
  | reading due phase => exact reading_pays here next prices ends
  | zeroing phase =>
      rw [accessCode]
      refine section_pays phase rfl ?_ ?_ ?_ <;> exact less _ _ (by simp [AccessPc.price])
  | asking phase => exact asking_pays here next prices ends
  | signallingUpdate => exact less _ _ (by simp [AccessPc.price])
  | awaitingUpdate =>
      change placePrice blk t (here (.asking .leave)) + 2 ≤ placePrice blk t (here .awaitingUpdate)
      rw [prices, prices]
      simp only [AccessPc.price]
      omega

/-! Mail is paid for when it is sent. -/

theorem mail_set (blk : Nat) {i : Nat} (slot : Slot) (inside : i < sh.control.maxNumOfProc) :
    mailPrice blk (sh.setSlot i slot).control + boxPrice blk (sh.control.slot i) =
      mailPrice blk sh.control + boxPrice blk slot := by
  have member : i ∈ Finset.range sh.control.maxNumOfProc := Finset.mem_range.mpr inside
  have rest : ∑ j ∈ (Finset.range sh.control.maxNumOfProc).erase i,
        boxPrice blk ((sh.setSlot i slot).control.slot j) =
      ∑ j ∈ (Finset.range sh.control.maxNumOfProc).erase i, boxPrice blk (sh.control.slot j) :=
    Finset.sum_congr rfl fun j listed => by rw [set_slot_other (Finset.ne_of_mem_erase listed)]
  change ∑ j ∈ Finset.range sh.control.maxNumOfProc, boxPrice blk ((sh.setSlot i slot).control.slot j) + _ = _
  rw [mailPrice, ← Finset.add_sum_erase _ _ member,
    ← Finset.add_sum_erase _ (fun j => boxPrice blk (sh.control.slot j)) member, rest, set_slot_self]
  omega

theorem mail_set_outside {i : Nat} {slot : Slot} (outside : ¬ i < sh.control.maxNumOfProc) :
    mailPrice blk (sh.setSlot i slot).control = mailPrice blk sh.control := by
  refine Finset.sum_congr rfl fun j listed => ?_
  have other : j ≠ i := by
    rintro rfl
    exact outside (Finset.mem_range.mp listed)
  rw [set_slot_other other]

theorem slot_price {i extra : Nat} {slot : Slot}
    (more : boxPrice blk slot ≤ boxPrice blk (sh.control.slot i) + extra) :
    controlPrice blk (sh.setSlot i slot).control ≤ controlPrice blk sh.control + extra := by
  have mails : mailPrice blk (sh.setSlot i slot).control ≤ mailPrice blk sh.control + extra := by
    by_cases inside : i < sh.control.maxNumOfProc
    · have both := mail_set blk slot inside
      omega
    · rw [mail_set_outside inside]
      omega
  change commandPrice * sh.control.queue.length + (if sh.control.shouldUpdate then updatePrice else 0) +
    mailPrice blk (sh.setSlot i slot).control ≤ _
  rw [controlPrice]
  omega

theorem slot_moves {i : Nat} {slot : Slot} {next : Place t} (less : placePrice blk t next + 1 ≤ here)
    (more : boxPrice blk slot ≤ boxPrice blk (sh.control.slot i)) :
    (sh.setSlot i slot).control.spawned = sh.control.spawned ∧
      placePrice blk t next + controlPrice blk (sh.setSlot i slot).control + 1 ≤
        here + controlPrice blk sh.control + loan := by
  have price : controlPrice blk (sh.setSlot i slot).control ≤ controlPrice blk sh.control + 0 :=
    slot_price more
  exact ⟨rfl, by omega⟩

theorem slot_pays {i : Nat} {slot : Shared → Slot} {next : Place t} (less : placePrice blk t next + 1 ≤ here)
    (more : boxPrice blk (slot sh) ≤ boxPrice blk (sh.control.slot i)) :
    (.act fun sh => .ok (sh.setSlot i (slot sh), next) : Step t).Pays (budget blk) loan sh here := by
  refine act_pays fun after place done => ?_
  cases done
  exact slot_moves less more

theorem dealloc_pays {pid : Nat} {pc : DeallocPc} (here : DeallocPc → Place t) (next : Place t)
    (prices : ∀ pc, placePrice blk t (here pc) = pc.price blk) (ends : placePrice blk t next = 1)
    (blocks : sh.control.prcBlkSize = blk) :
    (deallocCode pid here next pc).Pays (budget blk) loan sh (placePrice blk t (here pc)) := by
  have less : ∀ pc pc' : DeallocPc, pc'.price blk < pc.price blk →
      placePrice blk t (here pc') + 1 ≤ placePrice blk t (here pc) := by
    intro pc pc' lower
    rw [prices, prices]
    omega
  cases pc with
  | locking => exact less _ _ (by simp only [DeallocPc.price]; omega)
  | checking =>
      refine quiet_pays fun after place done => ?_
      simp only [bind_eq_ok] at done
      obtain ⟨-, -, -, -, made⟩ := done
      cases made
      have lower := less .checking (.emptying .want) (by simp only [DeallocPc.price]; omega)
      exact ⟨rfl, by omega⟩
  | emptying phase =>
      cases phase with
      | want => exact less _ _ (by simp only [DeallocPc.price]; omega)
      | inside =>
          refine act_pays fun after place done => ?_
          dsimp only at done
          split at done
          · cases done
          · cases done
            exact slot_moves (less _ _ (by simp only [DeallocPc.price]; omega)) (Nat.zero_le _)
      | leave => exact less _ _ (by simp only [DeallocPc.price]; omega)
  | freeing page =>
      refine quiet_pays fun after place done => ?_
      cases done
      refine ⟨rfl, ?_⟩
      rw [blocks]
      split
      · have lower := less (.freeing page) (.freeingPage page .want) (by simp only [DeallocPc.price]; omega)
        omega
      · have lower := less (.freeing page) (.freeingBlock .want) (by simp only [DeallocPc.price]; omega)
        omega
  | freeingPage page phase =>
      rw [deallocCode]
      refine section_pays phase rfl ?_ ?_ ?_ <;> exact less _ _ (by simp only [DeallocPc.price]; omega)
  | freeingBlock phase =>
      cases phase with
      | want => exact less _ _ (by simp only [DeallocPc.price]; omega)
      | inside =>
          refine quiet_pays fun after place done => ?_
          obtain ⟨disk, -, made⟩ := bind_eq_ok.mp done
          cases made
          have lower := less (.freeingBlock .inside) (.freeingBlock .leave)
            (by simp only [DeallocPc.price]; omega)
          exact ⟨rfl, by omega⟩
      | leave => exact less _ _ (by simp only [DeallocPc.price]; omega)
  | marking => exact slot_pays (less _ _ (by simp only [DeallocPc.price]; omega)) (Nat.le_refl _)
  | signalling => exact less _ _ (by simp only [DeallocPc.price]; omega)
  | unlocking =>
      change placePrice blk t next + 1 ≤ placePrice blk t (here .unlocking)
      rw [ends, prices, DeallocPc.price]

theorem taken_moves {i : Nat} {slot : Slot} {mail : Mail} {rest : List Mail}
    (inside : i < sh.control.maxNumOfProc) (box : (sh.control.slot i).mailBox = some (mail :: rest))
    (left : slot.mailBox = some rest) :
    (sh.setSlot i slot).control.spawned = sh.control.spawned ∧
      mail.price blk + controlPrice blk (sh.setSlot i slot).control + 1 ≤
        1 + controlPrice blk sh.control + loan := by
  have both := mail_set blk slot inside
  have before : boxPrice blk (sh.control.slot i) = mail.price blk + (rest.map (Mail.price blk)).sum := by
    simp [boxPrice, box]
  have after : boxPrice blk slot = (rest.map (Mail.price blk)).sum := by simp [boxPrice, left]
  refine ⟨rfl, ?_⟩
  change mail.price blk + (commandPrice * sh.control.queue.length +
    (if sh.control.shouldUpdate then updatePrice else 0) + mailPrice blk (sh.setSlot i slot).control) + 1 ≤ _
  rw [controlPrice]
  omega

theorem pushed_moves {i : Nat} {slot : Slot} {mail : Mail} {mails : List Mail}
    (box : (sh.control.slot i).mailBox = some mails) (more : slot.mailBox = some (mails ++ [mail])) :
    (sh.setSlot i slot).control.spawned = sh.control.spawned ∧
      2 + mail.restPrice + controlPrice blk (sh.setSlot i slot).control + 1 ≤
        3 + mail.restPrice + mail.price blk + controlPrice blk sh.control + loan := by
  have price : controlPrice blk (sh.setSlot i slot).control ≤ controlPrice blk sh.control + mail.price blk :=
    slot_price (by simp [boxPrice, box, more])
  exact ⟨rfl, by omega⟩

/-- Mail that is waited for is there, and its price is in the mailbox until it is taken out. -/
theorem process_pays {n : Nat} {place : ProcessPc} (blocks : sh.control.prcBlkSize = blk)
    (inside : place.pc = .popping → place.pid < sh.control.maxNumOfProc)
    (kept : ∀ a rest, place.pc = .access a rest .retesting →
      retryPrice ≤ loan ∨ iptHasTranslation sh.machine.mmu.memIpt a.addr = .ok true) :
    (processCode n place).Pays (budget blk) loan sh (placePrice blk (.process n) place) := by
  obtain ⟨pid, pc⟩ := place
  cases pc with
  | raising => exact slot_pays (Nat.le_refl 5) (Nat.le_refl _)
  | locking => exact Nat.le_refl 4
  | waiting => exact Nat.le_refl 3
  | popping =>
      refine act_pays fun after next done => ?_
      dsimp only at done
      split at done
      · rename_i mail rest box
        cases done
        exact taken_moves (inside rfl) box rfl
      · cases done
  | unlocking mail =>
      cases mail with
      | job accesses =>
          change jobPrice accesses + 1 ≤ 1 + jobPrice accesses
          omega
      | del =>
          change 13 + 4 * blk + 1 ≤ 14 + 4 * blk
          omega
  | working rest =>
      cases rest with
      | nil => exact go_on_pays (Nat.le_refl 5)
      | cons a rest =>
          refine go_on_pays ?_
          change 67 + jobPrice rest + 1 ≤ jobPrice (a :: rest)
          simp only [jobPrice, List.length_cons]
          omega
  | access a rest pc =>
      refine access_pays (t := .process n) (fun pc => ⟨pid, .access a rest pc⟩) ⟨pid, .working rest⟩
        (fun pc => rfl) rfl ?_
      rintro rfl
      exact kept a rest rfl
  | dealloc pc =>
      exact dealloc_pays (t := .process n) (fun pc => ⟨pid, .dealloc pc⟩) ⟨pid, .lowering⟩ (fun pc => rfl) rfl
        blocks
  | lowering => exact slot_pays (Nat.le_refl 1) (Nat.le_refl _)
  | gone => trivial

theorem map_page_pays {addr : VirtAddr} {again : Bool} {mapped full : Place t}
    (first : placePrice blk t mapped + 1 ≤ here)
    (second : placePrice blk t full + 1 ≤ here ∨
      ∃ mmu, mmuMapPage sh.machine.mmu addr = .ok (.ecSuccess, mmu)) :
    (mapPage addr again mapped full).Pays (budget blk) loan sh here := by
  have either : ∀ errcode mmu, mmuMapPage sh.machine.mmu addr = .ok (errcode, mmu) →
      placePrice blk t (if errcode = .ecSuccess then mapped else full) + 1 ≤ here := by
    intro errcode mmu ran
    split
    · exact first
    · rename_i failed
      refine second.resolve_right ?_
      rintro ⟨mmu', succeeds⟩
      rw [ran] at succeeds
      cases succeeds
      exact failed rfl
  refine quiet_pays fun after place done => ?_
  obtain ⟨⟨errcode, mmu⟩, ran, made⟩ := bind_eq_ok.mp done
  have less := either errcode mmu ran
  dsimp only at made
  split at made
  · obtain ⟨-, -, made⟩ := bind_eq_ok.mp made
    cases made
    exact ⟨rfl, by omega⟩
  · cases made
    exact ⟨rfl, by omega⟩

/-- Once a page has been swapped out the next one finds room. -/
theorem prm_pays {place : PrmPc} (room : ∀ cmd addr, place = .serving cmd addr .remapping →
      ∃ mmu, mmuMapPage sh.machine.mmu addr = .ok (.ecSuccess, mmu)) :
    (prmCode place).Pays (budget blk) loan sh (placePrice blk .prm place) := by
  cases place with
  | locking => exact Nat.le_refl 4
  | waiting => exact Nat.le_refl 3
  | popping =>
      refine act_pays fun after next done => ?_
      dsimp only at done
      split at done
      · rename_i cmd rest queue
        cases done
        refine ⟨rfl, ?_⟩
        have shorter : controlPrice blk { sh.control with queue := rest } + commandPrice =
            controlPrice blk sh.control := by
          simp only [controlPrice, mailPrice, queue, List.length_cons, commandPrice]
          omega
        change commandPrice + controlPrice blk { sh.control with queue := rest } + 1 ≤
          1 + controlPrice blk sh.control + loan
        omega
      · cases done
  | unlocking cmd => exact Nat.le_refl 23
  | fetching cmd =>
      refine quiet_pays fun after next done => ?_
      cases done
      exact ⟨rfl, Nat.le_add_right 22 loan⟩
  | serving cmd addr pc =>
      cases pc with
      | acquiring => exact Nat.le_refl 21
      | mapping => exact map_page_pays (by decide : 12 + 1 ≤ 20) (.inl (Nat.le_refl 20))
      | choosing =>
          refine quiet_pays fun after next done => ?_
          obtain ⟨⟨victim, prm, mmu⟩, -, made⟩ := bind_eq_ok.mp done
          cases made
          exact ⟨rfl, Nat.le_add_right 19 loan⟩
      | testing victim =>
          rw [prmCode, serviceCode]
          exact test_mmu_pays (Nat.le_refl 18) (by decide : 14 + 1 ≤ 18)
      | syncing victim phase =>
          rw [prmCode, serviceCode]
          exact section_pays phase rfl (Nat.le_refl 17) (Nat.le_refl 16) (Nat.le_refl 15)
      | unmapping victim =>
          rw [prmCode, serviceCode]
          exact on_mmu_pays (Nat.le_refl 14)
      | remapping => exact map_page_pays (Nat.le_refl 13) (.inr (room cmd addr rfl))
      | loading phase =>
          rw [prmCode, serviceCode]
          exact section_pays phase rfl (Nat.le_refl 12) (Nat.le_refl 11) (Nat.le_refl 10)
      | releasing => exact Nat.le_refl 9
  | reporting cmd phase =>
      cases phase with
      | want => exact Nat.le_refl 8
      | inside =>
          refine act_pays fun after next done => ?_
          cases done
          refine ⟨rfl, ?_⟩
          change 6 + controlPrice blk sh.control + 1 ≤ 7 + controlPrice blk sh.control + loan
          omega
      | leave => exact Nat.le_refl 5
  | signalling cmd => exact Nat.le_refl 6

theorem daemon_pays {place : DaemonPc} (asked : place = .reporting → sh.control.shouldUpdate = true) :
    (daemonCode place).Pays (budget blk) loan sh (placePrice blk .daemon place) := by
  cases place with
  | locking => exact Nat.le_refl 7
  | waiting => exact Nat.le_refl 6
  | acquiring => exact Nat.le_refl 4
  | aging =>
      rw [daemonCode]
      exact on_mmu_pays (Nat.le_refl 3)
  | releasing => exact Nat.le_refl 2
  | reporting =>
      rw [daemonCode]
      refine control_pays rfl ?_
      have cleared : controlPrice blk { sh.control with shouldUpdate := false, doneUpdating := true } +
          updatePrice = controlPrice blk sh.control := by
        simp only [controlPrice, mailPrice, asked rfl, if_true, Bool.false_eq_true, if_false, updatePrice]
        omega
      change updatePrice + controlPrice blk { sh.control with shouldUpdate := false, doneUpdating := true } + 1 ≤
        1 + controlPrice blk sh.control
      omega
  | signalling => exact Nat.le_refl 9
  | unlocking => exact Nat.le_refl 8

theorem compose_pays {pid : Nat} {mail : Mail} {pc : ComposePc} :
    (composeCode pid mail pc).Pays (budget blk) loan sh (placePrice blk .ui (.composing pid mail pc)) := by
  have rest : placePrice blk .ui (mail.after pid) = mail.restPrice := by cases mail <;> rfl
  cases pc with
  | testing =>
      refine quiet_pays fun after next done => ?_
      have after_less : placePrice blk .ui (mail.after pid) + 1 ≤ 5 + mail.restPrice + mail.price blk := by
        rw [rest]
        omega
      split at done
      · cases done
        exact ⟨rfl, Nat.le_trans after_less (Nat.le_add_right ..)⟩
      · split at done
        · cases done
        · split at done
          · cases done
            exact ⟨rfl, Nat.le_trans after_less (Nat.le_add_right ..)⟩
          · cases done
            refine ⟨rfl, ?_⟩
            change 4 + mail.restPrice + mail.price blk + 1 ≤ 5 + mail.restPrice + mail.price blk + loan
            omega
  | locking =>
      change 3 + mail.restPrice + mail.price blk + 1 ≤ 4 + mail.restPrice + mail.price blk
      omega
  | pushing =>
      refine act_pays fun after next done => ?_
      dsimp only at done
      split at done
      · cases done
        refine ⟨rfl, ?_⟩
        change 1 + mail.restPrice + controlPrice blk sh.control + 1 ≤
          3 + mail.restPrice + mail.price blk + controlPrice blk sh.control + loan
        omega
      · split at done
        · cases done
        · rename_i mails box
          cases done
          exact pushed_moves box rfl
  | signalling =>
      change 1 + mail.restPrice + 1 ≤ 2 + mail.restPrice
      omega
  | unlocking =>
      change placePrice blk .ui (mail.after pid) + 1 ≤ 1 + mail.restPrice
      omega

theorem create_pays {past : Nat → PackedBitmap.Block} {pc : CreatePc} (blocks : sh.control.prcBlkSize = blk) :
    (createCode past pc).Pays (budget blk) loan sh (placePrice blk .ui (.creating past pc)) := by
  cases pc with
  | locking =>
      change 14 + 4 * blk + 1 ≤ 15 + 4 * blk
      omega
  | selecting =>
      refine act_pays fun after next done => ?_
      dsimp only at done
      split at done
      · cases done
        refine ⟨rfl, ?_⟩
        change 1 + controlPrice blk sh.control + 1 ≤ 14 + 4 * blk + controlPrice blk sh.control + loan
        omega
      · cases done
        refine slot_moves ?_ (Nat.zero_le _)
        change 13 + 4 * blk + 1 ≤ 14 + 4 * blk
        omega
  | allocating i page phase =>
      cases phase with
      | want =>
          change 12 + 4 * blk + 1 ≤ 13 + 4 * blk
          omega
      | inside =>
          refine quiet_pays fun after next done => ?_
          obtain ⟨⟨page, disk⟩, -, made⟩ := bind_eq_ok.mp done
          cases made
          refine ⟨rfl, ?_⟩
          change 11 + 4 * blk + 1 ≤ 12 + 4 * blk + loan
          omega
      | leave =>
          cases page with
          | none =>
              change 2 + 1 ≤ 11 + 4 * blk
              omega
          | some page =>
              change 10 + 4 * (blk - 0) + 1 ≤ 11 + 4 * blk
              omega
  | mapping i page k =>
      refine quiet_pays fun after next done => ?_
      cases done
      refine ⟨rfl, ?_⟩
      rw [blocks]
      split
      · change 13 + 4 * (blk - (k + 1)) + 1 ≤ 10 + 4 * (blk - k) + loan
        omega
      · change 9 + 1 ≤ 10 + 4 * (blk - k) + loan
        omega
  | mappingPage i page k phase =>
      rw [createCode]
      refine section_pays phase rfl ?_ ?_ ?_
      · change 12 + 4 * (blk - (k + 1)) + 1 ≤ 13 + 4 * (blk - (k + 1))
        omega
      · change 11 + 4 * (blk - (k + 1)) + 1 ≤ 12 + 4 * (blk - (k + 1))
        omega
      · change 10 + 4 * (blk - (k + 1)) + 1 ≤ 11 + 4 * (blk - (k + 1))
        omega
  | filling i page => exact slot_pays (Nat.le_refl 9) (Nat.zero_le _)
  | unlocking i => exact Nat.le_refl 8
  | spawning i =>
      refine ⟨?_, ?_, ?_⟩
      · change Thread.process sh.control.spawned ∉ crewOf sh.control
        simp [crewOf]
      · change crewOf { sh.control with spawned := sh.control.spawned + 1 } =
          insert (Thread.process sh.control.spawned) (crewOf sh.control)
        simp only [crewOf, Finset.range_add_one, Finset.image_insert, Finset.union_insert]
      · change 1 + 5 + controlPrice blk sh.control + 1 ≤ 7 + controlPrice blk sh.control
        omega
  | spinning i => exact Nat.le_refl 1
  | refusing i => exact Nat.le_refl 2
  | freeing i =>
      refine act_pays fun after next done => ?_
      cases done

theorem ui_pays {place : UiPc} (blocks : sh.control.prcBlkSize = blk) :
    (uiCode place).Pays (budget blk) loan sh (placePrice blk .ui place) := by
  cases place with
  | idle => trivial
  | creating past pc => exact create_pays blocks
  | destroying pid =>
      change 24 + 4 * blk + 1 ≤ 25 + 4 * blk
      omega
  | testing pid =>
      refine quiet_pays fun after next done => ?_
      cases done
      refine ⟨rfl, ?_⟩
      split
      · change 1 + 1 ≤ 24 + 4 * blk + loan
        omega
      · change 5 + 4 + (14 + 4 * blk) + 1 ≤ 24 + 4 * blk + loan
        omega
  | composing pid mail pc => exact compose_pays
  | marking pid => exact slot_pays (Nat.le_refl 4) (Nat.le_refl _)
  | waiting pid => exact Nat.le_refl 3
  | returning => exact Nat.le_refl 1

end Statements

/-! An update that the daemon answers has been asked for. -/

def DaemonPc.Answers : DaemonPc → Prop
  | .acquiring => True
  | .aging => True
  | .releasing => True
  | .reporting => True
  | _ => False

def Asked (s : Threads) : Prop := DaemonPc.Answers (s.place .daemon) → s.shared.control.shouldUpdate = true

section Steps
variable {blk size : Nat} {written : Key → Nat → Option BYTE} {s : Threads}
variable {event : Event Thread Place}

theorem daemon_asks {sh : Shared} {place : DaemonPc}
    (asked : place.Answers → sh.control.shouldUpdate = true) :
    (daemonCode place).Yields sh fun (next : DaemonPc) sh' =>
      next.Answers → sh'.control.shouldUpdate = true := by
  cases place with
  | waiting => exact fun ready _ => ready
  | acquiring => exact fun _ => asked trivial
  | aging =>
      intro after next done
      obtain ⟨mmu, -, made⟩ := bind_eq_ok.mp done
      cases made
      exact fun _ => asked trivial
  | releasing => exact fun _ => asked trivial
  | reporting =>
      intro after next done
      cases done
      exact False.elim
  | locking => exact False.elim
  | signalling => exact False.elim
  | unlocking => exact False.elim

theorem asked_step (orderly : Orderly lockOrder s) (enabled : Enabled code s event) (asked : Asked s) :
    Asked (next code s event) := by
  by_cases whose : event.thread = .daemon
  · exact (step_yields whose enabled asked (daemon_asks asked)).post
  · have place : (next code s event).place .daemon = s.place .daemon := by
      refine place_step whose ?_
      intro u does place runs spawns child
      rw [(spawn_next spawns s.shared).2] at child
      cases child
    rw [Asked, place]
    intro answers
    -- The daemon has its lock, and nobody else changes the flag meanwhile.
    have claimed : (Lock.daemon, Mode.write) ∈ claims .daemon (s.place .daemon) := by
      change (Lock.daemon, Mode.write) ∈ DaemonPc.claims (s.place .daemon)
      cases there : s.place .daemon <;> rw [there] at answers <;>
        first | exact answers.elim | simp [DaemonPc.claims]
    have firm : ¬ (code .daemon (s.place .daemon)).WaitsUnder .daemon := by
      change ¬ (daemonCode (s.place .daemon)).WaitsUnder .daemon
      cases there : s.place .daemon <;> rw [there] at answers <;> first | exact answers.elim | exact id
    have held : (Lock.daemon, Mode.write) ∈ s.held .daemon := firm_held orderly firm claimed
    have same : Datum.update.Same s.shared (next code s event).shared :=
      guarded_step (datum_refl .update) (datum_guarded .update) orderly held enabled whose
    exact same.1.trans (asked answers)

/-! The steps of all threads together. -/

def retestFails (s : Threads) : Event Thread Place → Option VirtAddr
  | .runs (.process n) =>
      match (procs s n).pc with
      | .access a _ .retesting =>
          if frameOf s.shared.machine.mmu.memIpt a.addr.key = none then some a.addr else none
      | _ => none
  | _ => none

/-- The steps that bring a thread on: no new command of a user, no waking up for nothing and
no test that fails in a loop of tests. -/
abbrev busy (Fit : Nat → Access → Prop) : Program Threads (Event Thread Place) :=
  (tended Fit).only fun s event => Advances code s event ∧ ¬ Spins code s event

theorem mover_listed (unborn : Unborn s) (enabled : Enabled code s event) :
    event.thread ∈ crewOf s.shared.control := by
  cases whose : event.thread with
  | process n =>
      have born : n < s.shared.control.spawned := by
        by_contra outside
        exact gone_rests enabled (unborn n (Nat.not_lt.mp outside)) whose
      simpa [crewOf] using born
  | _ => simp [crewOf]

theorem statement_pays (inOrder : Tended blk size written s) (asked : Asked s)
    (enabled : Enabled code s event) :
    (code event.thread (s.place event.thread)).Pays (budget blk)
      (retryPrice * (retestFails s event).toList.length) s.shared
      (placePrice blk event.thread (s.place event.thread)) := by
  have blocks := inOrder.paged.sized.processes
  cases whose : event.thread with
  | ui => exact ui_pays blocks
  | daemon =>
      refine daemon_pays fun reports => asked ?_
      rw [reports]
      trivial
  | prm =>
      refine prm_pays fun cmd addr there => ?_
      have knows := inOrder.paged.service
      rw [there] at knows
      have knows : Absent s.shared.store addr ∧ s.shared.store.pool.free ≠ [] := knows
      cases lent : lend (poolOf s.shared.machine.mmu.memIpt) addr.key with
      | none => exact absurd (lend_none.mp lent) knows.2
      | some pool =>
          obtain ⟨ipt, mapped, -⟩ := map_page_lends inOrder.paged.sound knows.1 lent
          exact ⟨_, mapped⟩
  | process n =>
      refine process_pays blocks (fun pops => ?_) fun a rest there => ?_
      · have live : (procs s n).stage.Live := by
          simp only [ProcessPc.stage, show (procs s n).pc = .popping from pops]
          trivial
        exact inOrder.hands.residents.inside n live
      · have there : (procs s n).pc = .access a rest .retesting := there
        have acts : ∃ does, code (.process n) (s.place (.process n)) = .act does := by
          change ∃ does, processCode n (procs s n) = .act does
          simp only [processCode, there, accessCode]
          exact ⟨_, rfl⟩
        obtain ⟨does, acts⟩ := acts
        rw [acts_runs whose enabled acts]
        have tests := has_translation_exact inOrder.paged.sound.table a.addr
        cases held : frameOf s.shared.machine.mmu.memIpt a.addr.key with
        | none => exact .inl (by simp [retestFails, there, held])
        | some frame => exact .inr (by rw [tests, held]; rfl)

theorem failing_owes (inOrder : Tended blk size written s) (enabled : Enabled code s event)
    (obedient : Obedient (Proper blk size) s event) (failed : (next code s event).stopped ≠ none) :
    0 < (budget blk).total s := by
  obtain ⟨fault, stopped⟩ := Option.ne_none_iff_exists'.mp failed
  obtain ⟨-, past, i, frees⟩ := (tended_step inOrder enabled obedient).stops fault stopped
  rw [failed_stands enabled.1 failed] at frees
  have awake : s.nap .ui = .awake := by
    by_contra sleeps
    obtain ⟨pid, waits⟩ := ui_sleeps inOrder.hands.orderly sleeps
    rw [waits] at frees
    cases frees
  have member : Thread.ui ∈ (budget blk).crew s.shared := by
    change Thread.ui ∈ crewOf s.shared.control
    simp [crewOf]
  have worth := worth_le_total (s := s) member
  rw [worth_awake awake, frees] at worth
  exact worth

theorem work_step (inOrder : Tended blk size written s) (asked : Asked s)
    (enabled : (busy (Proper blk size)).enabled s event) :
    work blk (next code s event) + 1 ≤
      work blk s + retryPrice * (retestFails s event).toList.length := by
  obtain ⟨⟨steps, obedient⟩, advances, steady⟩ := enabled
  exact step_leaves (mover_listed inOrder.unborn steps) steps advances steady
    (failing_owes inOrder steps obedient) (statement_pays inOrder asked steps)

end Steps

section Runs
variable {mem : Mm} {disk : Disk} {maxNumOfProc freq : Nat} {prm : PrmStatics} {s after : Threads}
variable {past later : List (Event Thread Place)}

theorem running_asked {Fit : Nat → Access → Prop}
    (run : Run (tended Fit) (boot maxNumOfProc mem disk freq prm) past s) : Asked s := by
  have both : Orderly lockOrder s ∧ Asked s := by
    induction run with
    | nil => exact ⟨start_orderly .., False.elim⟩
    | step event _ enabled ih => exact ⟨step_orderly ih.1 enabled.1, asked_step ih.1 enabled.1 ih.2⟩
  exact both.2

theorem busy_runs {Fit : Nat → Access → Prop} {begin : Threads} (run : Run (busy Fit) begin past s) :
    Run (tended Fit) begin past s := by
  induction run with
  | nil => exact .nil
  | step event _ enabled ih => exact @Interleaving.Run.step Threads _ (tended Fit) _ _ _ event ih enabled.1

end Runs

end VmSim.ThreadCode
