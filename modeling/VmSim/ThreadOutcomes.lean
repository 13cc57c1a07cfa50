import VmSim.BlockRoom

/-!
What the users see of all threads together: the program never fails and comes to no
standstill, every byte that is read is the one last written there, the disk is shared
out among the processes and comes back when they are gone.
-/

namespace VmSim.ThreadCode
open LockedThreads Interleaving PageTable DiskBlocks KeyedMap MemoryUnit PageReplacement PagingRuns
open FramePool DemandPaging BlockAllocator Leases

/-! Runs by computation: two processes of one page with one frame between them. -/

section Schedules

instance {blk size pid : Nat} {a : Access} : Decidable (Proper blk size pid a) :=
  decidable_of_iff (a.addr.pid = pid ∧ a.addr.page < blk ∧ a.addr.offset + a.nbytes ≤ size)
    ⟨fun ⟨own, page, inside⟩ => ⟨own, page, inside⟩, fun proper => ⟨proper.pid, proper.page, proper.inside⟩⟩

def UiPc.isIdle : UiPc → Bool
  | .idle => true
  | _ => false

def UiPc.isCreating : UiPc → Bool
  | .creating _ _ => true
  | _ => false

def serves (born : List Nat) (s : Threads) (pid : Nat) : Bool :=
  born.any fun n => decide ((procs s n).pid = pid) && decide ((procs s n).stage = .serving)

def chooses (blk size : Nat) (born : List Nat) (s : Threads) : ∀ t, Place t → Bool
  | .ui, .creating _ .locking => (s.place .ui).isIdle
  | .ui, .destroying pid => (s.place .ui).isIdle && serves born s pid
  | .ui, .composing pid (.job accesses) .testing =>
      (s.place .ui).isIdle && (serves born s pid && accesses.all fun a => decide (Proper blk size pid a))
  | _, _ => false

theorem idle_ui {place : UiPc} (idle : place.isIdle = true) : place = .idle := by
  cases place <;> first | rfl | cases idle

theorem serves_started {born : List Nat} {s : Threads} {pid : Nat} (serving : serves born s pid = true) :
    Started s pid := by
  obtain ⟨n, -, both⟩ := List.any_eq_true.mp serving
  obtain ⟨own, stage⟩ := Bool.and_eq_true_iff.mp both
  refine ⟨n, of_decide_eq_true own, ?_⟩
  rw [of_decide_eq_true stage]
  trivial

theorem chooses_picks {blk size : Nat} {born : List Nat} (s : Threads) (t : Thread) (place : Place t)
    (chosen : chooses blk size born s t place = true) :
    Picks place (code t (s.place t)) ∧ Obedient (Proper blk size) s (.picks t place) := by
  have picks : ∀ place : UiPc, place.Command → (s.place .ui).isIdle = true →
      Picks (t := Thread.ui) place (code .ui (s.place .ui)) := by
    intro place command idle
    rw [show s.place .ui = UiPc.idle from idle_ui idle]
    exact command
  cases t with
  | ui =>
      cases place with
      | creating past pc =>
          cases pc with
          | locking => exact ⟨picks _ trivial chosen, trivial⟩
          | _ => cases chosen
      | destroying pid =>
          obtain ⟨idle, serving⟩ := Bool.and_eq_true_iff.mp chosen
          exact ⟨picks _ trivial idle, serves_started serving⟩
      | composing pid mail pc =>
          cases mail with
          | del => cases pc <;> cases chosen
          | job accesses =>
              cases pc with
              | testing =>
                  obtain ⟨idle, rest⟩ := Bool.and_eq_true_iff.mp chosen
                  obtain ⟨serving, fits⟩ := Bool.and_eq_true_iff.mp rest
                  refine ⟨picks _ trivial idle, serves_started serving, fun a member => ?_⟩
                  exact of_decide_eq_true (List.all_eq_true.mp fits a member)
              | _ => cases chosen
      | _ => cases chosen
  | _ => cases chosen

theorem replay_obeys {blk size : Nat} (born : List Nat) (threads : List Thread) {begin : Threads}
    {events : List (Event Thread Place)} {test : Threads → Bool} (among : begin.HeldAmong threads)
    (found : (replay (scheduled code threads (chooses blk size born)) begin events).any test = true) :
    ∃ s, Run (tended (Proper blk size)) begin events.reverse s ∧ test s = true := by
  obtain ⟨s, replayed, passes⟩ := (Option.any_eq_true _ _).mp found
  have run := replay_run .nil replayed
  rw [List.append_nil] at run
  refine ⟨s, scheduled_run (fun s t place chosen => (chooses_picks s t place chosen).1) ?_ among run, passes⟩
  intro s event enabled
  cases event with
  | picks t place =>
      have ready := (Bool.and_eq_true_iff.mp enabled).2
      simp only [readyAmong, Bool.and_eq_true] at ready
      exact (chooses_picks s t place ready.2).2
  | _ => trivial

def pairBoot : Threads := boot 2 (mmInit 1 1) (diskInit 2 1 1) 10 prmStatics

theorem pair_configured : Configured (mmInit 1 1) (diskInit 2 1 1) :=
  ⟨init_setup (by decide) (by decide) (by decide) (by decide),
    init_owned ⟨2, by decide⟩ ⟨1, by decide⟩ 1, by decide⟩

def pairThreads : List Thread := [.ui, .prm, .daemon, .process 0, .process 1]

def turns (t : Thread) (k : Nat) : List (Event Thread Place) := List.replicate k (.runs t)

/-- The UI creates a process, whose thread comes to wait for mail. -/
def createsProcess (n : Nat) : List (Event Thread Place) :=
  [.picks .ui (.creating (fun _ => 0) .locking)] ++ turns .ui 13 ++ turns (.process n) 3 ++ turns .ui 1

def givesJob (pid : Nat) (accesses : List Access) : List (Event Thread Place) :=
  [.picks .ui (.composing pid (.job accesses) .testing)] ++ turns .ui 5 ++ [.wakes (.process pid)]

/-- Process 0 writes, process 1 takes the frame for a write of its own, and process 0 has
its page brought back and is about to read it. -/
def swappingSchedule : List (Event Thread Place) :=
  turns .prm 2 ++ createsProcess 0 ++ createsProcess 1 ++
    givesJob 0 [.write ⟨0, 0, 0⟩ [7], .read ⟨0, 0, 0⟩ 1] ++ turns (.process 0) 17 ++
    givesJob 1 [.write ⟨1, 0, 0⟩ [5]] ++ turns (.process 1) 17 ++
    [.wakes .prm] ++ turns .prm 22 ++ [.wakes (.process 1)] ++ turns (.process 1) 14 ++
    turns (.process 0) 15 ++ [.wakes .prm] ++ turns .prm 22 ++ [.wakes (.process 0)] ++
    turns (.process 0) 6

/-- Process 0 writes and deletes itself when the UI says so. -/
def deletingSchedule : List (Event Thread Place) :=
  createsProcess 0 ++ givesJob 0 [.write ⟨0, 0, 0⟩ [7]] ++ turns (.process 0) 20 ++
    [.picks .ui (.destroying 0)] ++ turns .ui 9 ++ [.wakes (.process 0)] ++ turns (.process 0) 17

def copiesByte (s : Threads) : Bool :=
  match (procs s 0).pc with
  | .access (.read ⟨0, 0, 0⟩ 1) [] .copying => true
  | _ => false

def askingSchedule : List (Event Thread Place) :=
  turns .prm 2 ++ createsProcess 0 ++ createsProcess 1 ++ givesJob 0 [.write ⟨0, 0, 0⟩ [7]] ++
    turns (.process 0) 17 ++ givesJob 1 [.write ⟨1, 0, 0⟩ [5]] ++ turns (.process 1) 17

theorem copies_byte {s : Threads} (copies : copiesByte s = true) :
    ∃ rest, (procs s 0).pc = .access (.read ⟨0, 0, 0⟩ 1) rest .copying := by
  unfold copiesByte at copies
  split at copies
  · exact ⟨_, ‹_›⟩
  · cases copies

theorem swapping_run :
    ∃ s, Run (tended (Proper 1 1)) pairBoot swappingSchedule.reverse s ∧ copiesByte s = true :=
  replay_obeys [0, 1] pairThreads (fun _ _ => rfl) (by decide +kernel)

end Schedules

section Outcomes
variable {mem : Mm} {disk : Disk} {maxNumOfProc freq : Nat} {prm : PrmStatics} {s : Threads}
variable {past : List (Event Thread Place)}

/-! What the users see of it. -/

/-- In every run of all threads no command is queued twice, or queued while it is served,
and each of them is undone and waits for exactly one process, which is at a fault on the
page of the command. -/
theorem requests_awaited {prcBlkSize : Nat} {machine : Machine}
    (reached : Run (program code) (start maxNumOfProc prcBlkSize machine) past s) :
    (outstanding (s.place .prm) s.shared.control).Nodup ∧
      ∀ cmd ∈ outstanding (s.place .prm) s.shared.control,
        (s.shared.control.command cmd).done = false ∧
        ∃! n, (procs s n).asked = some (cmd, (s.shared.control.command cmd).addr) := by
  have requested := (run_requested reached).2
  refine ⟨requested.once, fun cmd member => ?_⟩
  obtain ⟨undone, n, addr, asked⟩ := requested.awaited cmd member
  have same := (requested.numbered n cmd addr (.inr asked)).2
  refine ⟨undone, n, by dsimp only; rw [same]; exact asked, fun m other => ?_⟩
  exact requested.own m n cmd _ addr (.inr other) (.inr asked)

theorem requests_awaited_asking : ∃ s, Run (program code) pairBoot askingSchedule.reverse s ∧
    0 ∈ outstanding (s.place .prm) s.shared.control ∧
    ∃! n, (procs s n).asked = some (0, (s.shared.control.command 0).addr) := by
  obtain ⟨s, run, member⟩ : ∃ s, Run (tended (Proper 1 1)) pairBoot askingSchedule.reverse s ∧
      decide (0 ∈ outstanding (s.place .prm) s.shared.control) = true :=
    replay_obeys [0, 1] pairThreads (fun _ _ => rfl) (by decide +kernel)
  have all := tended_runs run
  exact ⟨s, all, of_decide_eq_true member, ((requests_awaited all).2 0 (of_decide_eq_true member)).2⟩

theorem advancing_obeys {Fit : Nat → Access → Prop} (advances : Advancing code s) :
    ∃ event, (tended Fit).enabled s event ∧ Advances code s event ∧ ¬ Spins code s event := by
  obtain ⟨event, enabled, goes, steady⟩ := advances
  refine ⟨event, ⟨enabled, ?_⟩, goes, steady⟩
  cases event with
  | picks t place => exact goes.elim
  | _ => trivial

/-- The one statement that fails in a run is the free of a slot, on a disk that has fewer blocks
than there are slots. -/
theorem failure_refused (configured : Configured mem disk)
    (run : Run (tended (Proper disk.processBlockSize mem.pageSize))
      (boot maxNumOfProc mem disk freq prm) past s) {fault : Fault} (stopped : s.stopped = some fault) :
    fault = .badFree ∧ disk.npages / disk.processBlockSize < maxNumOfProc := by
  obtain ⟨free, table, i, frees⟩ := (running_tended configured run).stops fault stopped
  refine ⟨free, running_refused configured run ?_⟩
  rw [frees]
  trivial

theorem running_going (configured : Configured mem disk) (room : maxNumOfProc ≤ disk.npages / disk.processBlockSize)
    (run : Run (tended (Proper disk.processBlockSize mem.pageSize))
      (boot maxNumOfProc mem disk freq prm) past s) : s.stopped = none := by
  rw [Option.eq_none_iff_forall_ne_some]
  intro fault stopped
  have full := (failure_refused configured run stopped).2
  omega

/-- While a thread is at work some thread can go on; only the UI may be left to look again
whether its new thread runs. -/
theorem work_goes_on (configured : Configured mem disk)
    (run : Run (tended (Proper disk.processBlockSize mem.pageSize))
      (boot maxNumOfProc mem disk freq prm) past s) (going : s.stopped = none) {t : Thread}
    (works : AtWork t (s.place t)) :
    ∃ event, (tended (Proper disk.processBlockSize mem.pageSize)).enabled s event ∧
      Advances code s event ∧ (Spins code s event → t = .ui) := by
  have inOrder := running_tended configured run
  have others : Advancing code s →
      ∃ event, (tended (Proper disk.processBlockSize mem.pageSize)).enabled s event ∧
        Advances code s event ∧ (Spins code s event → t = .ui) := by
    intro advances
    obtain ⟨event, enabled, goes, steady⟩ := advancing_obeys advances
    exact ⟨event, enabled, goes, fun spins => absurd spins steady⟩
  cases t with
  | prm => exact others (prm_at_work inOrder.hands ⟨going, works⟩)
  | daemon => exact others (daemon_at_work inOrder.hands ⟨going, works⟩)
  | process n => exact others (process_at_work inOrder.hands ⟨going, works⟩)
  | ui =>
      rcases ui_at_work inOrder.hands ⟨going, works⟩ with advances | ⟨past, i, spins, awake⟩
      · exact others advances
      · refine ⟨.runs .ui, ⟨⟨going, awake, ?_⟩, trivial⟩, trivial, fun _ => rfl⟩
        rw [spins]
        trivial

/-- Whatever lies behind the bitmap, the search for a block reads the bitmap alone. -/
def SearchesInside (s : Threads) : Prop := ∀ past i before,
  s.place .ui = .creating past (.allocating i before .inside) →
    ∀ k ∈ PackedBitmap.allocBlockReads past s.shared.machine.mmu.disk,
      k < s.shared.machine.mmu.disk.allocBitmap.data.length

theorem never_stuck (configured : Configured mem disk)
    (run : Run (tended (Proper disk.processBlockSize mem.pageSize))
      (boot maxNumOfProc mem disk freq prm) past s) :
    (maxNumOfProc ≤ disk.npages / disk.processBlockSize → s.stopped = none ∧ SearchesInside s) ∧
      (∀ fault, s.stopped = some fault → fault = .badFree) ∧
      (s.stopped = none → ∀ t, AtWork t (s.place t) →
        ∃ event, (tended (Proper disk.processBlockSize mem.pageSize)).enabled s event ∧
          Advances code s event ∧ (Spins code s event → t = .ui)) := by
  refine ⟨fun room => ⟨running_going configured room run, fun table i before books => ?_⟩,
    fun fault stopped => (failure_refused configured run stopped).1,
    fun going t works => work_goes_on configured run going works⟩
  have sizes := running_sizes (tended_runs run)
  have pages : s.shared.machine.mmu.disk.npages = disk.npages := sizes.pages
  have slots : s.shared.control.maxNumOfProc = maxNumOfProc := sizes.slots
  exact (block_found (running_tended configured run) books (by rw [pages, slots]; exact room)).2

/-- When `mmu_read` copies in a run, its page has a frame, the bytes are all inside it,
and each that has been written since the page was allocated is the one last written. -/
theorem reads_last_written (configured : Configured mem disk)
    (run : Run (tended (Proper disk.processBlockSize mem.pageSize))
      (boot maxNumOfProc mem disk freq prm) past s) {n nbytes : Nat} {addr : VirtAddr}
    {rest : List Access} (copies : (procs s n).pc = .access (.read addr nbytes) rest .copying) :
    ∃ frame bytes, iptTranslate s.shared.machine.mmu.memIpt addr = .ok frame ∧
      copyOut s.shared.machine.mmu.mem.data (memAddr s.shared.machine.mmu frame addr.offset) nbytes =
        .ok bytes ∧ bytes.length = nbytes ∧
      ∀ i value, i < nbytes →
        lastWrites (boot maxNumOfProc mem disk freq prm) past addr.key (addr.offset + i) = some value →
          bytes[i]? = some value := by
  have tended := running_tended configured run
  have paged := tended.paged
  have proper := (tended.mailed.jobs n)
  rw [copies] at proper
  have inside : addr.offset + nbytes ≤ s.shared.machine.mmu.mem.pageSize := by
    rw [paged.sized.pages]
    exact proper.1.inside
  have resident : Resident s.shared.store addr := by
    have knows := paged.process n
    simp only [ProcessPc.Knows, copies] at knows
    exact knows.1
  obtain ⟨frame, held⟩ := Option.ne_none_iff_exists'.mp resident
  obtain ⟨bytes, found, copied, length, cells⟩ := read_goes paged.sound held inside
  -- The reader has the MMU, so the PRM is in the middle of nothing.
  have apart : (Lock.mmu, Mode.write) ∉ (s.place .prm).claims := by
    intro serves
    have mine : (Lock.mmu, Mode.read) ∈ claims (.process n) (s.place (.process n)) := by
      change (Lock.mmu, Mode.read) ∈ ProcessPc.claims (procs s n)
      simp [ProcessPc.claims, copies, AccessPc.claims]
    have same : Thread.prm = .process n := mmu_exclusive tended.hands.orderly serves mine
    cases same
  have preserves := (plain_holds apart _ _).mp tended.holds
  refine ⟨frame, bytes, found, copied, length, fun i value bound written => ?_⟩
  rw [cells i bound]
  exact preserves.resident addr.key frame held _ value written

theorem reads_last_written_swapped : ∃ s frame,
    Run (tended (Proper 1 1)) pairBoot swappingSchedule.reverse s ∧
      iptTranslate s.shared.machine.mmu.memIpt ⟨0, 0, 0⟩ = .ok frame ∧
      copyOut s.shared.machine.mmu.mem.data (memAddr s.shared.machine.mmu frame 0) 1 = .ok [7] := by
  obtain ⟨s, run, copies⟩ := swapping_run
  obtain ⟨rest, there⟩ := copies_byte copies
  obtain ⟨frame, bytes, found, copied, length, cells⟩ := reads_last_written pair_configured run there
  have first : bytes[0]? = some 7 := cells 0 7 (by decide) (by decide +kernel)
  have one : bytes = [7] := by
    apply List.ext_getElem?
    intro i
    cases i with
    | zero => exact first
    | succ i => simp [length]
  exact ⟨s, frame, run, found, one ▸ copied⟩

def blockStart (s : Threads) (n : Nat) : Nat := (s.shared.control.slot (procs s n).pid).diskBlockStart

theorem serving_lease (blk : Nat) {n : Nat} (serves : (procs s n).stage = .serving) :
    leaseOf blk (procs s) (s.place .ui) s.shared.control (some n) =
      some ⟨(procs s n).pid, blockStart s n, 0, blk⟩ := by
  rw [blockStart, leaseOf, ProcessPc.lease]
  cases place : (procs s n).pc with
  | dealloc pc =>
      simp only [ProcessPc.stage, place] at serves
      cases pc <;> cases serves
  | lowering => simp [ProcessPc.stage, place] at serves
  | gone => simp [ProcessPc.stage, place] at serves
  | unlocking mail =>
      cases mail with
      | del => simp [ProcessPc.stage, place] at serves
      | job accesses => rfl
  | _ => rfl

/-- In every run a process has a block of the disk from its start until it comes to delete
itself: aligned, allocated, backing its pages and no others, and apart from the blocks of
the other processes. -/
theorem blocks_apart (configured : Configured mem disk)
    (run : Run (tended (Proper disk.processBlockSize mem.pageSize))
      (boot maxNumOfProc mem disk freq prm) past s) {n : Nat} (serves : (procs s n).stage = .serving) :
    disk.processBlockSize ∣ blockStart s n ∧
      blockStart s n + disk.processBlockSize ≤ s.shared.machine.mmu.disk.npages ∧
      (∀ page < disk.processBlockSize,
        allocated s.shared.machine.mmu.disk (blockStart s n + page) = true ∧
        ∀ key, backingOf s.shared.machine.mmu key = some (blockStart s n + page) ↔
          key = ((procs s n).pid, page)) ∧
      ∀ m, (procs s m).stage = .serving → m ≠ n → (procs s m).pid ≠ (procs s n).pid ∧
        (blockStart s m + disk.processBlockSize ≤ blockStart s n ∨
          blockStart s n + disk.processBlockSize ≤ blockStart s m) := by
  have paged := (running_tended configured run).paged
  obtain ⟨live, owned, leased⟩ := paged.housed
  have mine := serving_lease disk.processBlockSize serves
  have member : blockStart s n ∈ live := (leased.listed _).mpr ⟨_, _, mine, rfl⟩
  have inside := leased.packed.inside _ member
  refine ⟨leased.packed.aligned _ member, inside, fun page bound => ⟨?_, fun key => ?_⟩, fun m serves' other => ?_⟩
  · refine (owned.exact _ (by omega)).mpr ⟨_, member, by omega, ?_⟩
    rw [paged.sized.blocks]
    omega
  · have backed := backed_page leased mine (Nat.zero_le page) bound
    constructor
    · exact fun there => backing_injective leased there backed
    · rintro rfl
      exact backed
  · have yours := serving_lease disk.processBlockSize serves'
    have distinct := leased.separate _ _ _ _ yours mine (by simpa using other)
    exact ⟨distinct.1, AlignedBlocks.blocks_disjoint leased.packed
      ((leased.listed _).mpr ⟨_, _, yours, rfl⟩) member distinct.2⟩

theorem blocks_apart_two : ∃ s, Run (tended (Proper 1 1)) pairBoot
    (turns .prm 2 ++ createsProcess 0 ++ createsProcess 1).reverse s ∧
      (blockStart s 0 + 1 ≤ blockStart s 1 ∨ blockStart s 1 + 1 ≤ blockStart s 0) := by
  obtain ⟨s, run, both⟩ : ∃ s, Run (tended (Proper 1 1)) pairBoot
      (turns .prm 2 ++ createsProcess 0 ++ createsProcess 1).reverse s ∧
        (decide ((procs s 0).stage = .serving) && decide ((procs s 1).stage = .serving)) = true :=
    replay_obeys [0, 1] pairThreads (fun _ _ => rfl) (by decide +kernel)
  obtain ⟨first, second⟩ := Bool.and_eq_true_iff.mp both
  obtain ⟨-, -, -, apart⟩ := blocks_apart pair_configured run (of_decide_eq_true second)
  exact ⟨s, run, (apart 0 (of_decide_eq_true first) (by decide)).2⟩

/-- In every run, once all processes have deleted themselves and the UI creates none, every
page of the disk is free again, no page is backed or mapped, and all frames are free. -/
theorem nothing_leaks (configured : Configured mem disk)
    (run : Run (tended (Proper disk.processBlockSize mem.pageSize))
      (boot maxNumOfProc mem disk freq prm) past s) (ended : ∀ n, ¬ (procs s n).stage.Live)
    (rests : ∀ past pc, s.place .ui ≠ .creating past pc) :
    (∀ page < s.shared.machine.mmu.disk.npages, allocated s.shared.machine.mmu.disk page = false) ∧
      (∀ key, backingOf s.shared.machine.mmu key = none ∧ frameOf s.shared.machine.mmu.memIpt key = none) ∧
      List.Perm s.shared.machine.mmu.memIpt.freePages (List.range s.shared.machine.mmu.mem.npages) := by
  have paged := (running_tended configured run).paged
  obtain ⟨live, owned, leased⟩ := paged.housed
  have unleased : ∀ owner, leaseOf disk.processBlockSize (procs s) (s.place .ui) s.shared.control owner = none := by
    intro owner
    cases owner with
    | none =>
        cases place : s.place .ui with
        | creating past pc => exact absurd place (rests past pc)
        | _ => rfl
    | some n => exact dead_lease (ended n)
  have empty : live = [] := by
    rw [List.eq_nil_iff_forall_not_mem]
    intro start member
    obtain ⟨owner, l, leases, -⟩ := (leased.listed start).mp member
    rw [unleased owner] at leases
    cases leases
  have unbacked : ∀ key, backingOf s.shared.machine.mmu key = none := by
    intro key
    rw [Option.eq_none_iff_forall_ne_some]
    intro cell backed
    obtain ⟨owner, l, leases, -⟩ := (leased.backs key cell).mp backed
    rw [unleased owner] at leases
    cases leases
  have unmapped : ∀ key, frameOf s.shared.machine.mmu.memIpt key = none := by
    intro key
    rw [Option.eq_none_iff_forall_ne_some]
    intro frame held
    obtain ⟨cell, backed⟩ := paged.sound.layout.backed key frame held
    rw [show (storeOf s.shared.machine.mmu).backing key = none from unbacked key] at backed
    cases backed
  refine ⟨fun page bound => ?_, fun key => ⟨unbacked key, unmapped key⟩, ?_⟩
  · rw [← Bool.not_eq_true, owned.exact page bound, empty]
    rintro ⟨start, member, -⟩
    cases member
  · have pool := paged.sound.layout.pool
    refine (List.perm_ext_iff_of_nodup pool.freeUnique List.nodup_range).mpr fun frame => ?_
    refine ⟨fun free => (pool.split frame).mpr (.inl free), fun inside => ?_⟩
    refine ((pool.split frame).mp inside).resolve_right ?_
    rintro ⟨key, held⟩
    have held : frameOf s.shared.machine.mmu.memIpt key = some frame := held
    rw [unmapped key] at held
    cases held

theorem deleting_run : ∃ s, Run (tended (Proper 1 1)) pairBoot deletingSchedule.reverse s ∧
    (∀ n, ¬ (procs s n).stage.Live) ∧ ∀ past pc, s.place .ui ≠ .creating past pc := by
  obtain ⟨s, run, gone⟩ : ∃ s, Run (tended (Proper 1 1)) pairBoot deletingSchedule.reverse s ∧
      (decide ((procs s 0).stage = .ended) &&
        (decide (s.shared.control.spawned = 1) && !(s.place .ui).isCreating)) = true :=
    replay_obeys [0, 1] pairThreads (fun _ _ => rfl) (by decide +kernel)
  obtain ⟨first, rest⟩ := Bool.and_eq_true_iff.mp gone
  obtain ⟨one, rests⟩ := Bool.and_eq_true_iff.mp rest
  have unborn := (running_tended pair_configured run).unborn
  refine ⟨s, run, fun n => ?_, fun past pc there => ?_⟩
  · cases n with
    | zero =>
        rw [of_decide_eq_true first]
        exact id
    | succ n =>
        have gone : procs s (n + 1) = ⟨0, .gone⟩ := unborn (n + 1) (by rw [of_decide_eq_true one]; omega)
        rw [gone]
        exact id
  · simp [there, UiPc.isCreating] at rests

theorem nothing_leaks_deleted : ∃ s, Run (tended (Proper 1 1)) pairBoot deletingSchedule.reverse s ∧
    List.Perm s.shared.machine.mmu.memIpt.freePages (List.range s.shared.machine.mmu.mem.npages) := by
  obtain ⟨s, run, ended, rests⟩ := deleting_run
  exact ⟨s, run, (nothing_leaks pair_configured run ended rests).2.2⟩

/-- Where all processes have deleted themselves the PRM has nothing queued and nothing in hand,
as `prm_destroy` asserts. -/
theorem prm_drained {prcBlkSize : Nat} {machine : Machine}
    (reached : Run (program code) (start maxNumOfProc prcBlkSize machine) past s)
    (ended : ∀ n, ¬ (procs s n).stage.Live) :
    s.shared.control.queue = [] ∧ (s.place .prm).command = none := by
  have nothing : outstanding (s.place .prm) s.shared.control = [] := by
    rw [List.eq_nil_iff_forall_not_mem]
    intro cmd member
    obtain ⟨-, n, addr, asked⟩ := (run_requested reached).2.awaited cmd member
    refine ended n ?_
    -- A process that waits for a command is at an access, so it is not deleted.
    generalize procs s n = place at asked
    obtain ⟨pid, pc⟩ := place
    cases pc with
    | access a rest pc => trivial
    | _ => cases asked
  obtain ⟨inHand, queued⟩ := List.append_eq_nil_iff.mp nothing
  exact ⟨queued, Option.toList_eq_nil_iff.mp inHand⟩

theorem prm_drained_deleted : ∃ s, Run (program code) pairBoot deletingSchedule.reverse s ∧
    s.shared.control.queue = [] ∧ (s.place .prm).command = none := by
  obtain ⟨s, run, ended, -⟩ := deleting_run
  exact ⟨s, tended_runs run, prm_drained (tended_runs run) ended⟩

end Outcomes

end VmSim.ThreadCode
