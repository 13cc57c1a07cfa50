import VmSim.Bookkeeping
import VmSim.PagingRuns
import VmSim.ProcessLife

/-!
Runs of the whole program: the UI creates, starts and deletes processes, the
threads of live processes access their own pages, the PRM serves their faults
and the aging daemon makes its passes. A run keeps a sound container, whatever
the size of a page, because the invariant is one of the bookkeeping alone.
-/

namespace VmSim.ProcessTable
open PageTable DiskBlocks KeyedMap FramePool DemandPaging MemoryUnit BlockAllocator AlignedBlocks
open PageReplacement PagingRuns

structure System where
  cont : ProcCont
  prm : PrmStatics
  deriving DecidableEq

def System.machine (s : System) : Machine := ⟨s.cont.mmu, s.prm⟩

def System.withMachine (s : System) (m : Machine) : System :=
  ⟨{ s.cont with mmu := m.mmu }, m.prm⟩

structure Reply where
  code : Int
  bytes : List BYTE
  deriving DecidableEq

/-- `destroy` is the request of the UI and `dealloc` what the process does about it. -/
inductive Step where
  | create (past : Nat → PackedBitmap.Block)
  | start (pid : Nat)
  | destroy (id : Nat)
  | dealloc (pid : Nat)
  | memory (next : Section)

def Step.run (s : System) : Step → Outcome (Reply × System)
  | .create past => do
      let (code, _, cont) ← initProcess past s.cont
      pure (⟨code, []⟩, { s with cont := cont })
  | .start pid => do
      let cont ← processStart s.cont pid
      pure (⟨0, []⟩, { s with cont := cont })
  | .destroy id => do
      let (_, cont) ← processDestroy s.cont id
      pure (⟨0, []⟩, { s with cont := cont })
  | .dealloc pid => do
      let (_, cont) ← processDealloc s.cont pid
      pure (⟨0, []⟩, { s with cont := cont })
  | .memory next => do
      let (bytes, machine) ← next.run s.machine
      pure (⟨0, bytes⟩, s.withMachine machine)

def Owns (cont : ProcCont) (addr : VirtAddr) : Prop :=
  (∃ p, Live cont addr.pid p) ∧ addr.page < cont.prcBlkSize

/-- Which steps the threads of the program take. -/
def Step.Allowed (s : System) : Step → Prop
  | .create _ => True
  | .start pid => ∃ p, Live s.cont pid p
  | .destroy _ => True
  | .dealloc pid => ∃ p, Live s.cont pid p ∧ p.del = true
  | .memory (.pin addr) => Owns s.cont addr
  | .memory (.service addr) => Owns s.cont addr ∧ frameOf s.cont.mmu.memIpt addr.key = none
  | .memory (.read addr _) => Owns s.cont addr ∧ frameOf s.cont.mmu.memIpt addr.key ≠ none
  | .memory (.write addr _) => Owns s.cont addr ∧ frameOf s.cont.mmu.memIpt addr.key ≠ none
  | .memory .age => True
  | .memory _ => False

theorem some_live_iff (cont : ProcCont) (pid : Nat) (test : Process → Bool) :
    ((cont.processes[pid]?).any fun p => !p.junk && test p) = true ↔
      ∃ p, Live cont pid p ∧ test p = true := by
  cases here : cont.processes[pid]? <;> simp [Live, here]

instance (cont : ProcCont) (pid : Nat) : Decidable (∃ p, Live cont pid p) :=
  decidable_of_iff _ ((some_live_iff cont pid fun _ => true).trans (by simp))

instance (cont : ProcCont) (pid : Nat) : Decidable (∃ p, Live cont pid p ∧ p.del = true) :=
  decidable_of_iff _ (some_live_iff cont pid (·.del))

instance (cont : ProcCont) (addr : VirtAddr) : Decidable (Owns cont addr) :=
  inferInstanceAs (Decidable (_ ∧ _))

instance (s : System) (next : Step) : Decidable (next.Allowed s) :=
  match next with
  | .create _ => inferInstanceAs (Decidable True)
  | .start pid => inferInstanceAs (Decidable (∃ p, Live s.cont pid p))
  | .destroy _ => inferInstanceAs (Decidable True)
  | .dealloc pid => inferInstanceAs (Decidable (∃ p, Live s.cont pid p ∧ p.del = true))
  | .memory (.pin addr) => inferInstanceAs (Decidable (Owns s.cont addr))
  | .memory (.service addr) => inferInstanceAs (Decidable (Owns s.cont addr ∧ _ = none))
  | .memory (.read addr _) => inferInstanceAs (Decidable (Owns s.cont addr ∧ _ ≠ none))
  | .memory (.write addr _) => inferInstanceAs (Decidable (Owns s.cont addr ∧ _ ≠ none))
  | .memory .age => inferInstanceAs (Decidable True)
  | .memory (.allocPage _ _) => inferInstanceAs (Decidable False)
  | .memory (.freePage _) => inferInstanceAs (Decidable False)
  | .memory (.allocBlock _) => inferInstanceAs (Decidable False)
  | .memory (.freeBlock _) => inferInstanceAs (Decidable False)

/-- Runs of steps that satisfy `guard`, the latest step first; a creation that
fails ends the run. -/
inductive Run (guard : System → Step → Prop) (begin : System) : List Step → System → Prop where
  | nil : Run guard begin [] begin
  | step {past s reply after} (next : Step) : Run guard begin past s → guard s next →
      next.run s = .ok (reply, after) → 0 ≤ reply.code → Run guard begin (next :: past) after

theorem run_mono {guard weaker : System → Step → Prop} {begin s : System} {past : List Step}
    (run : Run guard begin past s) (weaken : ∀ s next, guard s next → weaker s next) :
    Run weaker begin past s := by
  induction run with
  | nil => exact .nil
  | step next _ guarded ran code ih => exact ih.step next (weaken _ next guarded) ran code

/-- The steps in the order they are taken, checked one by one. -/
def replaySteps (guard : System → Step → Prop) [∀ s next, Decidable (guard s next)] (s : System) :
    List Step → Option System
  | [] => some s
  | next :: rest =>
      if guard s next then
        match next.run s with
        | .ok (reply, after) => if 0 ≤ reply.code then replaySteps guard after rest else none
        | .error _ => none
      else none

theorem replay_steps_run {guard : System → Step → Prop} [∀ s next, Decidable (guard s next)]
    {begin s last : System} {past steps : List Step} (run : Run guard begin past s)
    (replayed : replaySteps guard s steps = some last) :
    Run guard begin (steps.reverse ++ past) last := by
  induction steps generalizing past s with
  | nil =>
      injection replayed with same
      simpa [← same] using run
  | cons next rest ih =>
      unfold replaySteps at replayed
      split at replayed
      · rename_i guarded
        cases ran : next.run s with
        | error fault => simp [ran] at replayed
        | ok result =>
            simp only [ran] at replayed
            split at replayed
            · rename_i code
              simpa using ih (run.step next guarded ran code) replayed
            · cases replayed
      · cases replayed

def initialSystem (frames pages size block nprocs freq : Nat) : System :=
  ⟨initProcCont nprocs block (mmuInit (mmInit frames size) (diskInit pages size block) freq),
    prmStatics⟩

/-! The container without the bytes of its MMU. -/

def contBooks (cont : ProcCont) : ProcCont := { cont with mmu := books cont.mmu }

theorem for_pages_books {body : Disk → Nat → Outcome Disk}
    (forgets : ∀ disk page, body (diskBooks disk) page = (body disk page).map diskBooks)
    (disk : Disk) (page count : Nat) :
    forPages body (diskBooks disk) page count =
      (forPages body disk page count).map diskBooks := by
  induction count generalizing disk page with
  | zero => rfl
  | succ count ih =>
      unfold forPages
      rw [forgets]
      cases body disk page with
      | error fault => rfl
      | ok next => exact ih next (page + 1)

theorem alloc_page_bytes (disk : Disk) (page : Nat) :
    allocPage (diskBooks disk) page = (allocPage disk page).map diskBooks := by
  refine bind_map fun taken => bind_map fun _ => bind_map fun bitmap => ?_
  rfl

theorem free_page_bytes (disk : Disk) (page : Nat) :
    freePage (diskBooks disk) page = (freePage disk page).map diskBooks := by
  refine bind_map fun taken => bind_map fun _ => bind_map fun bitmap => ?_
  rfl

theorem pages_clear_bytes (disk : Disk) (page count : Nat) :
    pagesClear (diskBooks disk) page count = pagesClear disk page count := by
  induction count generalizing page with
  | zero => rfl
  | succ count ih =>
      change (PackedBitmap.bitmapGet disk.allocBitmap page >>= _) =
        (PackedBitmap.bitmapGet disk.allocBitmap page >>= _)
      simp only [ih]

theorem disk_alloc_books (past : Nat → PackedBitmap.Block) (disk : Disk) :
    diskAllocProcessBlock past (diskBooks disk) =
      (diskAllocProcessBlock past disk).map fun r => (r.1, diskBooks r.2) := by
  simp only [diskAllocProcessBlock, disk_books_bitmap, disk_books_block]
  cases PackedBitmap.bitmapFirstClear past disk.allocBitmap with
  | none => rfl
  | some page =>
      have enough : hasEnoughConsecutivePages (diskBooks disk) page disk.processBlockSize =
          hasEnoughConsecutivePages disk page disk.processBlockSize := by
        simp only [hasEnoughConsecutivePages, disk_books_npages, pages_clear_bytes]
      simp only [enough, for_pages_books alloc_page_bytes]
      refine bind_map fun room => ?_
      cases room with
      | false => rfl
      | true => cases forPages allocPage disk page disk.processBlockSize <;> rfl

theorem fill_slot_books (cont : ProcCont) (i page : Nat) :
    fillSlot (contBooks cont) i page =
      (fillSlot cont i page).map fun r => (r.1, r.2.1, contBooks r.2.2) := by
  unfold fillSlot
  change (mmuAllocMultiple (books cont.mmu) i 0 page cont.prcBlkSize >>= _) = _
  rw [alloc_multiple_books]
  cases mmuAllocMultiple cont.mmu i 0 page cont.prcBlkSize with
  | error fault => rfl
  | ok result =>
      obtain ⟨errs, mmu⟩ := result
      cases errs with
      | ecFail => rfl
      | ecNotFound => rfl
      | ecSuccess =>
          refine bind_map fun prc => bind_map fun processes => ?_
          rfl

theorem find_junk_books (cont : ProcCont) (i count : Nat) :
    findJunk (contBooks cont) i count = findJunk cont i count := by
  induction count generalizing i with
  | zero => rfl
  | succ count ih =>
      change (load cont.processes i >>= _) = (load cont.processes i >>= _)
      simp only [ih]

theorem init_process_books (cont : ProcCont) (past : Nat → PackedBitmap.Block) :
    initProcess past (contBooks cont) =
      (initProcess past cont).map fun r => (r.1, r.2.1, contBooks r.2.2) := by
  unfold initProcess
  rw [find_junk_books]
  refine bind_map fun found => ?_
  cases found with
  | none => rfl
  | some slot =>
      refine bind_map fun processes => ?_
      have taken : diskAllocProcessBlock past (contBooks cont).mmu.disk =
          (diskAllocProcessBlock past cont.mmu.disk).map fun r => (r.1, diskBooks r.2) :=
        disk_alloc_books past cont.mmu.disk
      rw [taken]
      cases diskAllocProcessBlock past cont.mmu.disk with
      | error fault => rfl
      | ok result =>
          obtain ⟨page, disk⟩ := result
          cases page with
          | none => rfl
          | some page =>
              exact fill_slot_books { cont with processes := processes
                                                mmu := { cont.mmu with disk := disk } } slot page

theorem process_start_books (cont : ProcCont) (pid : Nat) :
    processStart (contBooks cont) pid = (processStart cont pid).map contBooks := by
  refine bind_map fun process => bind_map fun processes => ?_
  rfl

theorem compose_mail_books (cont : ProcCont) (pid : Nat) (post : Post) :
    composeMail (contBooks cont) pid post =
      (composeMail cont pid post).map fun r => (r.1, contBooks r.2) := by
  unfold composeMail
  change (if cont.maxNumOfProc < pid then _ else _) = _
  split
  · rfl
  · refine bind_map fun prc => ?_
    split
    · rfl
    · split
      · rfl
      · split
        · rfl
        · refine bind_map fun processes => ?_
          rfl

theorem process_destroy_books (cont : ProcCont) (id : Nat) :
    processDestroy (contBooks cont) id =
      (processDestroy cont id).map fun r => (r.1, contBooks r.2) := by
  unfold processDestroy
  change (if cont.maxNumOfProc ≤ id then _ else _) = _
  split
  · rfl
  · refine bind_map fun process => ?_
    split
    · rfl
    · rw [compose_mail_books]
      refine map_bind_map fun result => bind_map fun process => bind_map fun processes => ?_
      rfl

theorem process_dealloc_books (cont : ProcCont) (pid : Nat) :
    processDealloc (contBooks cont) pid =
      (processDealloc cont pid).map fun r => (r.1, contBooks r.2) := by
  refine bind_map fun process => bind_map fun _ => bind_map fun _ => ?_
  cases process.mailBox with
  | none => rfl
  | some box =>
      change (mmuFreeMultiple (books cont.mmu) pid 0 cont.prcBlkSize >>= _) = _
      rw [free_multiple_books]
      refine map_bind_map fun result => ?_
      have freed : diskFreeProcessBlock (books result.2).disk process.diskBlockStart =
          (diskFreeProcessBlock result.2.disk process.diskBlockStart).map diskBooks :=
        for_pages_books free_page_bytes result.2.disk _ _
      change (diskFreeProcessBlock (books result.2).disk process.diskBlockStart >>= _) = _
      rw [freed]
      refine map_bind_map fun disk => bind_map fun processes => bind_map fun _ => ?_
      rfl

def sysBooks (s : System) : System := { s with cont := contBooks s.cont }

def touchPage (s : System) (addr : VirtAddr) (ref : RefType) : Outcome System := do
  let ipt ← iptReference s.cont.mmu.memIpt addr ref
  let _ ← iptTranslate ipt addr
  pure { s with cont := { s.cont with mmu := { s.cont.mmu with memIpt := ipt } } }

/-- A step as the bookkeeping sees it: an access moves no bytes. -/
def Step.control (s : System) : Step → Outcome (Int × System)
  | .memory (.read addr _) => (touchPage s addr .refRead).map fun t => (0, t)
  | .memory (.write addr _) => (touchPage s addr .refWrite).map fun t => (0, t)
  | next => (next.run s).map fun r => (r.1.code, r.2)

theorem follows_control {s : System} {next : Step}
    (same : next.control (sysBooks s) = (next.run (sysBooks s)).map fun r => (r.1.code, r.2))
    (forgets : Follows (fun a b => b.1.code = a.1.code ∧ b.2 = sysBooks a.2) (next.run s)
      (next.run (sysBooks s))) :
    Follows (fun a b => b = (a.1.code, sysBooks a.2)) (next.run s) (next.control (sysBooks s)) := by
  rw [same]
  refine ⟨fun a ran => ?_, fun site failed => ?_⟩
  · obtain ⟨b, ran', code, after⟩ := forgets.succeeds a ran
    exact ⟨_, by rw [ran']; rfl, by rw [← code, ← after]⟩
  · rw [forgets.asserts site failed]
    rfl

theorem read_body_follows (s : System) (addr : VirtAddr) (nbytes : Nat) :
    Follows (fun a b => b = sysBooks (s.withMachine ⟨a.2, s.prm⟩))
      (mmuReadBody s.cont.mmu addr nbytes) (touchPage (sysBooks s) addr .refRead) := by
  refine follows_bind (follows_same (iptReference s.cont.mmu.memIpt addr .refRead)) ?_
  rintro ipt _ _ rfl
  refine follows_bind (follows_same (iptTranslate ipt addr)) ?_
  rintro memPage _ _ rfl
  exact follows_skip (copy_out_silent _ _ _) fun bytes _ => follows_ok rfl

theorem write_body_follows (s : System) (addr : VirtAddr) (buf : List BYTE) :
    Follows (fun a b => b = sysBooks (s.withMachine ⟨a, s.prm⟩))
      (mmuWriteBody s.cont.mmu addr buf) (touchPage (sysBooks s) addr .refWrite) := by
  refine follows_bind (follows_same (iptReference s.cont.mmu.memIpt addr .refWrite)) ?_
  rintro ipt _ _ rfl
  refine follows_bind (follows_same (iptTranslate ipt addr)) ?_
  rintro memPage _ _ rfl
  exact follows_skip (copy_in_silent _ _ _) fun data _ => follows_ok rfl

/-- Where a step succeeds, so does its bookkeeping, and with the same outcome; and it stops
at every assertion but those `mmu_read` and `mmu_write` open with. -/
abbrev Mirrored (ran : Outcome (Reply × System)) (control : Outcome (Int × System)) : Prop :=
  (∀ reply after, ran = .ok (reply, after) → control = .ok (reply.code, sysBooks after)) ∧
    ∀ site, ran = .error (.assertion site) → site ≠ .mmuRead → site ≠ .mmuWrite →
      control = .error (.assertion site)

theorem follows_mirrored {ran : Outcome (Reply × System)} {control : Outcome (Int × System)}
    (follows : Follows (fun a b => b = (a.1.code, sysBooks a.2)) ran control) :
    Mirrored ran control := by
  refine ⟨fun reply after ok => ?_, fun site failed _ _ => follows.asserts site failed⟩
  obtain ⟨b, ok', rfl⟩ := follows.succeeds _ ok
  exact ok'

/-- The assertions `mmu_read` and `mmu_write` open with are the only ones the
bookkeeping does not see. -/
theorem opened_control {x : Outcome Unit} {f : Unit → Outcome (Reply × System)}
    {y : Outcome (Int × System)} (opens : ∀ site, x = .error (.assertion site) →
      site = .mmuRead ∨ site = .mmuWrite)
    (rest : Follows (fun a b => b = (a.1.code, sysBooks a.2)) (f ()) y) : Mirrored (x >>= f) y := by
  cases x with
  | ok u => exact follows_mirrored rest
  | error fault =>
      refine ⟨fun _ _ ran => (by cases ran), fun site failed notRead notWrite => ?_⟩
      have same : (Except.error fault : Outcome Unit) = .error (.assertion site) := by
        cases failed
        rfl
      rcases opens site same with read | write
      · exact absurd read notRead
      · exact absurd write notWrite

theorem read_in_page_opens {mmu : Mmu} {addr : VirtAddr} {nbytes : Nat} (site : Site)
    (failed : mmuReadInPage mmu addr nbytes = .error (.assertion site)) :
    site = .mmuRead ∨ site = .mmuWrite := by
  simp only [mmuReadInPage, assert] at failed
  split at failed
  · cases failed
  · split at failed
    · cases failed
    · cases failed
      exact .inl rfl

theorem write_in_page_opens {mmu : Mmu} {addr : VirtAddr} {nbytes : Nat} (site : Site)
    (failed : mmuWriteInPage mmu addr nbytes = .error (.assertion site)) :
    site = .mmuRead ∨ site = .mmuWrite := by
  unfold mmuWriteInPage assert at failed
  split at failed
  · cases failed
  · cases failed
    exact .inr rfl

def ForgetsBytes (a b : List BYTE × Machine) : Prop := b.2 = ⟨books a.2.mmu, a.2.prm⟩

/-- The critical sections a thread may take: a read or a write opens with an assertion on
its range, which the bookkeeping has no part in, and goes on without its bytes. -/
theorem section_control {s : System} {next : Section} (allowed : (Step.memory next).Allowed s) :
    Mirrored ((Step.memory next).run s) ((Step.memory next).control (sysBooks s)) := by
  cases next with
  | allocPage addr backing => exact absurd allowed id
  | freePage addr => exact absurd allowed id
  | allocBlock past => exact absurd allowed id
  | freeBlock page => exact absurd allowed id
  | age => exact follows_mirrored (follows_control rfl (follows_ok ⟨rfl, rfl⟩))
  | pin addr =>
      refine follows_mirrored (follows_control rfl ?_)
      refine follows_bind (?_ : Follows ForgetsBytes _ _) ?_
      · change Follows _ (mmuPinCheck s.cont.mmu addr >>= _) (mmuPinCheck (books s.cont.mmu) addr >>= _)
        exact forgets_bind (pin_check_books s.cont.mmu addr) fun result => follows_ok rfl
      · rintro ⟨bytes, machine⟩ ⟨bytes', machine'⟩ _ same
        cases same
        exact follows_ok ⟨rfl, rfl⟩
  | service addr =>
      refine follows_mirrored (follows_control rfl ?_)
      refine follows_bind (?_ : Follows ForgetsBytes _ _) ?_
      · refine follows_bind (prm_service_follows s.cont.mmu s.prm addr) ?_
        rintro result _ _ rfl
        exact follows_ok rfl
      · rintro ⟨bytes, machine⟩ ⟨bytes', machine'⟩ _ same
        cases same
        exact follows_ok ⟨rfl, rfl⟩
  -- The books forget the bytes, so the copy itself follows nothing but the page checks.
  | read addr nbytes =>
      have same : Step.run s (.memory (.read addr nbytes)) =
          (mmuReadInPage s.cont.mmu addr nbytes >>= fun _ =>
            mmuReadBody s.cont.mmu addr nbytes >>= fun r =>
              .ok (⟨0, r.1⟩, s.withMachine ⟨r.2, s.prm⟩)) := by
        simp [Step.run, Section.run, System.machine, bind_assoc]
      rw [same]
      refine opened_control read_in_page_opens ?_
      refine follows_bind (g := fun t => .ok (0, t)) (read_body_follows s addr nbytes) ?_
      rintro result _ _ rfl
      exact follows_ok rfl
  | write addr buf =>
      have same : Step.run s (.memory (.write addr buf)) =
          (mmuWriteInPage s.cont.mmu addr buf.length >>= fun _ =>
            mmuWriteBody s.cont.mmu addr buf >>= fun r =>
              .ok (⟨0, []⟩, s.withMachine ⟨r, s.prm⟩)) := by
        simp [Step.run, Section.run, System.machine, bind_assoc]
      rw [same]
      refine opened_control write_in_page_opens ?_
      refine follows_bind (g := fun t => .ok (0, t)) (write_body_follows s addr buf) ?_
      rintro result _ _ rfl
      exact follows_ok rfl

theorem step_control {s : System} {next : Step} (allowed : next.Allowed s) :
    Mirrored (next.run s) (next.control (sysBooks s)) := by
  cases next with
  | create past =>
      refine follows_mirrored (follows_control rfl ?_)
      change Follows _ (initProcess past s.cont >>= _) (initProcess past (contBooks s.cont) >>= _)
      exact forgets_bind (init_process_books s.cont past) fun result => follows_ok ⟨rfl, rfl⟩
  | start pid =>
      refine follows_mirrored (follows_control rfl ?_)
      change Follows _ (processStart s.cont pid >>= _) (processStart (contBooks s.cont) pid >>= _)
      exact forgets_bind (process_start_books s.cont pid) fun result => follows_ok ⟨rfl, rfl⟩
  | destroy id =>
      refine follows_mirrored (follows_control rfl ?_)
      change Follows _ (processDestroy s.cont id >>= _) (processDestroy (contBooks s.cont) id >>= _)
      exact forgets_bind (process_destroy_books s.cont id) fun result => follows_ok ⟨rfl, rfl⟩
  | dealloc pid =>
      refine follows_mirrored (follows_control rfl ?_)
      change Follows _ (processDealloc s.cont pid >>= _) (processDealloc (contBooks s.cont) pid >>= _)
      exact forgets_bind (process_dealloc_books s.cont pid) fun result => follows_ok ⟨rfl, rfl⟩
  | memory next => exact section_control allowed

end VmSim.ProcessTable
