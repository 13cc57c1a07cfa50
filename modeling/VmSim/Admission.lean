import VmSim.FailedCreation

/-!
When `init_process` finds room for a process, and where it puts it. Two things may run
out, the slots of the container and the blocks of the disk. A process that is let in gets
the first slot that is junk and the first disk pages that are free.
-/

namespace VmSim.ProcessTable
open PageTable DiskBlocks KeyedMap FramePool DemandPaging MemoryUnit BlockAllocator AlignedBlocks
open PageReplacement PagingRuns

/-- What a process that is let in gets. -/
structure Admitted (cont : ProcCont) (block pages slot page : Nat) (after : ProcCont) : Prop where
  vacant : ∃ old, cont.processes[slot]? = some old ∧ old.junk = true
  firstSlot : ∀ i < slot, ∃ p, Live cont i p
  processes : after.processes = cont.processes.set slot (newProcess slot page)
  aligned : block ∣ page
  inside : page + block ≤ pages
  firstPage : ∀ i < page, allocated cont.mmu.disk i = true
  taken : ∀ i < pages, allocated after.mmu.disk i = true ↔
    allocated cont.mmu.disk i = true ∨ (page ≤ i ∧ i < page + block)
  free : ∀ i < block, allocated cont.mmu.disk (page + i) = false

section Slots
variable {cont : ProcCont}

theorem find_junk_first {i count slot : Nat} (found : findJunk cont i count = .ok (some slot)) :
    ∀ j, i ≤ j → j < slot → ∃ p, Live cont j p := by
  induction count generalizing i with
  | zero => cases found
  | succ count ih =>
      obtain ⟨process, here, rest⟩ := bind_eq_ok.mp found
      split at rest
      · cases rest
        intro j low high
        omega
      · rename_i used
        intro j low high
        by_cases first : j = i
        · subst first
          exact ⟨process, load_ok.mp here, by simpa using used⟩
        · exact ih rest j (by omega) high

theorem live_count_full : liveCount cont = cont.processes.length ↔ ∀ p ∈ cont.processes, p.junk = false := by
  simp [liveCount, List.countP_eq_length]

theorem slot_left (slots : liveCount cont < cont.processes.length) :
    ¬ ∀ (pid : Nat) (p : Process), cont.processes[pid]? = some p → p.junk = false := by
  intro used
  refine slots.ne (live_count_full.mpr fun p member => ?_)
  obtain ⟨pid, here⟩ := List.mem_iff_getElem?.mp member
  exact used pid p here

theorem init_process_found {past : Nat → PackedBitmap.Block} {code : Int} {freed : List SlotPointer}
    {after : ProcCont} (ran : initProcess past cont = .ok (code, freed, after)) (valid : 0 ≤ code) :
    ∃ slot : Nat, findJunk cont 0 cont.maxNumOfProc = .ok (some slot) ∧ code = slot := by
  obtain ⟨found, search, rest⟩ := bind_eq_ok.mp ran
  cases found with
  | none =>
      cases rest
      exact absurd valid (by decide)
  | some slot =>
      refine ⟨slot, search, ?_⟩
      obtain ⟨processes, -, rest⟩ := bind_eq_ok.mp rest
      obtain ⟨⟨page, disk⟩, -, rest⟩ := bind_eq_ok.mp rest
      cases page with
      | none =>
          cases rest
          exact absurd valid (by decide)
      | some page =>
          obtain ⟨⟨errs, mmu⟩, -, rest⟩ := bind_eq_ok.mp rest
          cases errs with
          | ecSuccess =>
              obtain ⟨prc, -, rest⟩ := bind_eq_ok.mp rest
              obtain ⟨stored, -, rest⟩ := bind_eq_ok.mp rest
              cases rest
              rfl
          | ecFail =>
              cases rest
              exact absurd valid (by decide)
          | ecNotFound =>
              cases rest
              exact absurd valid (by decide)

theorem admitted_exact {block pages : Nat} (sound : ContSound (contBooks cont))
    (blockSize : cont.prcBlkSize = block) (npages : cont.mmu.disk.npages = pages)
    {past : Nat → PackedBitmap.Block} {slot page : Nat} {old : Process} {after : ProcCont}
    (ran : initProcess past cont = .ok ((slot : Int), [], after))
    (here : cont.processes[slot]? = some old) (junk : old.junk = true)
    (created : Created (contBooks cont) slot page (contBooks after)) (fits : page + block ≤ pages)
    (aligned : block ∣ page) (vacant : ¬ Covered block (starts cont.processes) page)
    (first : PackedBitmap.bitmapFirstClear past cont.mmu.disk.allocBitmap = some page) :
    Admitted cont block pages slot page after where
  vacant := ⟨old, here, junk⟩
  firstSlot := by
    obtain ⟨found, search, same⟩ := init_process_found ran (Int.natCast_nonneg slot)
    obtain rfl : slot = found := by exact_mod_cast same
    exact fun i below => find_junk_first search i (Nat.zero_le i) below
  processes := created.processes
  aligned := aligned
  inside := fits
  firstPage := ((PackedBitmap.bitmap_first_clear_some sound.owned.wellformed.bitmap past page).mp first).2.2
  taken := by
    obtain ⟨disk, marked, chain⟩ := created.pages
    have bitmap : after.mmu.disk.allocBitmap = disk.allocBitmap := (chain_shape chain).bitmap
    have width : (contBooks cont).prcBlkSize = block := blockSize
    intro i bound
    have bits := marked.bits i
    rw [width] at bits
    have same : allocated after.mmu.disk i = allocated disk i := by rw [allocated, bitmap, allocated]
    rw [same, bits]
    split
    · rename_i within
      exact iff_of_true rfl (.inr within)
    · rename_i outside
      exact ⟨.inl, fun taken => taken.resolve_right outside⟩
  free := by
    have width : (contBooks cont).mmu.disk.processBlockSize = block := sound.blockSize.trans blockSize
    have clear := @gap_clear _ _ sound.owned page
    rw [width] at clear
    exact clear aligned (npages ▸ fits) vacant

theorem live_within (sound : ContSound (contBooks cont)) :
    liveCount cont ≤ cont.mmu.disk.npages / cont.prcBlkSize := by
  obtain ⟨unique, below⟩ := live_places sound.owned.packed sound.owned.positive
  have subset : ((starts cont.processes).map (· / (contBooks cont).mmu.disk.processBlockSize)) ⊆
      List.range ((contBooks cont).mmu.disk.npages / (contBooks cont).mmu.disk.processBlockSize) :=
    fun place member => List.mem_range.mpr (below place member)
  have count := unique.length_le_of_subset subset
  rw [List.length_map, List.length_range, starts_length, sound.blockSize] at count
  exact count

theorem creation_succeeds {block pages : Nat} (sound : ContSound (contBooks cont))
    (blockSize : cont.prcBlkSize = block) (npages : cont.mmu.disk.npages = pages) (int : pages < 2 ^ 31)
    (slots : liveCount cont < cont.processes.length) (room : liveCount cont < pages / block)
    (table : Nat → PackedBitmap.Block) : ∃ (slot page : Nat) (after : ProcCont),
      initProcess table cont = .ok ((slot : Int), [], after) ∧ Admitted cont block pages slot page after := by
  have allocs := alloc_succeeds_iff sound.owned (npages ▸ int : (contBooks cont).mmu.disk.npages < 2 ^ 31) table
  have live : (starts (contBooks cont).processes).length = liveCount cont := starts_length _
  have disk : (contBooks cont).mmu.disk.npages = pages := npages
  rw [live, sound.blockSize, disk, show (contBooks cont).prcBlkSize = block from blockSize] at allocs
  obtain ⟨start, disk, taken⟩ := allocs.mpr room
  rcases init_process_cases sound table with ⟨-, used⟩ | ⟨slot, old, here, junk, cases⟩
  · exact absurd used (slot_left slots)
  · rcases cases with ⟨-, refused, -⟩ | ⟨-, wrapped⟩ | ⟨page, after, ran, created, fits, aligned, vacant, first⟩
    · rw [taken] at refused
      cases refused
    · rw [taken] at wrapped
      cases wrapped
    · obtain ⟨own, made, rfl⟩ := init_process_of_books ran
      refine ⟨slot, page, own, made, ?_⟩
      have width : (contBooks cont).prcBlkSize = block := blockSize
      rw [width] at fits aligned vacant
      exact admitted_exact sound blockSize npages made here junk created (npages ▸ fits) aligned vacant first

theorem creation_refused {block pages : Nat} (sound : ContSound (contBooks cont))
    (blockSize : cont.prcBlkSize = block) (npages : cont.mmu.disk.npages = pages)
    (slots : liveCount cont < cont.processes.length) (full : liveCount cont = pages / block)
    {table : Nat → PackedBitmap.Block} {code : Int} {freed : List SlotPointer} {after : ProcCont}
    (ran : initProcess table cont = .ok (code, freed, after)) : code = -2 := by
  have room := room_iff sound.owned.packed sound.owned.positive
  have live : (starts (contBooks cont).processes).length = liveCount cont := starts_length _
  have disk : (contBooks cont).mmu.disk.npages = pages := npages
  rw [live, sound.blockSize, disk, show (contBooks cont).prcBlkSize = block from blockSize] at room
  have booked := init_process_books cont table
  rw [ran] at booked
  rcases init_process_cases sound table with ⟨-, used⟩ | ⟨slot, old, here, junk, cases⟩
  · exact absurd used (slot_left slots)
  · rcases cases with ⟨failed, -⟩ | ⟨failed, -⟩ | ⟨page, after, -, -, fits, aligned, vacant, -⟩
    · rw [failed] at booked
      exact (congrArg Prod.fst (Except.ok.inj booked)).symm
    · rw [failed] at booked
      cases booked
    · have width : (contBooks cont).prcBlkSize = block := blockSize
      rw [width] at fits aligned vacant
      exact absurd (room.mpr ⟨page, aligned, npages ▸ fits, vacant⟩) full.not_lt

end Slots

/-- A process is let in exactly while a slot and a block are left; it gets the first of each. -/
theorem creation_admitted {frames pages block : Nat} (oneFrame : 0 < frames) (onePage : 0 < pages)
    (positive : 0 < block) (int : pages < 2 ^ 31) (size nprocs freq : Nat) {past : List Step} {s : System}
    (run : Run Step.Allowed (initialSystem frames pages size block nprocs freq) past s)
    (table : Nat → PackedBitmap.Block) :
    liveCount s.cont ≤ nprocs ∧ liveCount s.cont ≤ pages / block ∧
    (liveCount s.cont < nprocs → liveCount s.cont < pages / block → ∃ (slot page : Nat) (after : ProcCont),
      initProcess table s.cont = .ok ((slot : Int), [], after) ∧ Admitted s.cont block pages slot page after) ∧
    (liveCount s.cont = nprocs → initProcess table s.cont = .ok (-1, [], s.cont)) ∧
    (liveCount s.cont < nprocs → liveCount s.cont = pages / block → ∀ code freed after,
      initProcess table s.cont = .ok (code, freed, after) → code = -2) := by
  obtain ⟨sound, same⟩ := run_books (initial_books oneFrame onePage positive nprocs freq) run
  have npages : s.cont.mmu.disk.npages = pages := same.diskPages
  have blockSize : s.cont.prcBlkSize = block := same.prcBlkSize
  have maxNumOfProc : s.cont.maxNumOfProc = nprocs := same.maxNumOfProc
  have sized : s.cont.processes.length = s.cont.maxNumOfProc := sound.slots
  have slots : s.cont.processes.length = nprocs := sized.trans maxNumOfProc
  have within := live_within sound
  rw [npages, blockSize] at within
  have few : liveCount s.cont ≤ s.cont.processes.length := List.countP_le_length
  refine ⟨slots ▸ few, within, fun left room => ?_, fun full => ?_, fun left full code freed after ran => ?_⟩
  · exact creation_succeeds sound blockSize npages int (slots ▸ left) room table
  · exact no_slot_exact sized (live_count_full.mp (full.trans slots.symm)) table
  · exact creation_refused sound blockSize npages (slots ▸ left) full ran

/-- A disk of two blocks and three slots, after a creation. -/
theorem creation_admitted_once : ∃ s,
    Run Step.Allowed (initialSystem 1 2 1 1 3 1) [.create fun _ => 0] s ∧
      ∃ (slot page : Nat) (after : ProcCont), initProcess (fun _ => 0) s.cont = .ok ((slot : Int), [], after) ∧
        Admitted s.cont 1 2 slot page after := by
  have replayed : ((replaySteps Step.Allowed (initialSystem 1 2 1 1 3 1) [.create fun _ => 0]).any
      fun s => decide (liveCount s.cont < 2)) = true := by decide
  obtain ⟨s, reached, count⟩ := (Option.any_eq_true _ _).mp replayed
  have live : liveCount s.cont < 2 := of_decide_eq_true count
  have run : Run Step.Allowed (initialSystem 1 2 1 1 3 1) [.create fun _ => 0] s := replay_steps_run .nil reached
  obtain ⟨-, -, lets, -⟩ :=
    creation_admitted (by decide) (by decide) (by decide) (by decide) 1 3 1 run fun _ => 0
  exact ⟨s, run, lets (by omega) live⟩

/-! How many processes there are. -/

def Step.creates : Step → Bool
  | .create _ => true
  | _ => false

def Step.deletes : Step → Bool
  | .dealloc _ => true
  | _ => false

theorem live_count_starts (cont : ProcCont) : liveCount cont = (starts cont.processes).length :=
  (starts_length cont.processes).symm

section Counting
variable {s after : System} {reply : Reply}

theorem create_counts (sound : ContSound (contBooks s.cont)) {table : Nat → PackedBitmap.Block}
    (ran : (Step.create table).run s = .ok (reply, after)) (code : 0 ≤ reply.code) :
    liveCount after.cont = liveCount s.cont + 1 := by
  obtain ⟨⟨result, freed, cont⟩, made, rest⟩ := bind_eq_ok.mp ran
  cases rest
  have booked := init_process_books s.cont table
  rw [made] at booked
  rcases init_process_cases sound table with ⟨refused, -⟩ | ⟨slot, old, here, junk, cases⟩
  · rw [refused] at booked
    have same : -1 = result := congrArg Prod.fst (Except.ok.inj booked)
    exact absurd (same ▸ code) (by decide)
  · rcases cases with ⟨refused, -⟩ | ⟨wrapped, -⟩ | ⟨page, filled, done, created, -⟩
    · rw [refused] at booked
      have same : -2 = result := congrArg Prod.fst (Except.ok.inj booked)
      exact absurd (same ▸ code) (by decide)
    · rw [wrapped] at booked
      cases booked
    · rw [done] at booked
      have same : filled = contBooks cont := congrArg (fun r => r.2.2) (Except.ok.inj booked)
      have processes : cont.processes = s.cont.processes.set slot (newProcess slot page) :=
        (congrArg ProcCont.processes same).symm.trans created.processes
      rw [live_count_starts, live_count_starts, processes]
      exact (starts_filled here junk rfl).length_eq

theorem dealloc_counts (sound : ContSound (contBooks s.cont)) {pid : Nat} (allowed : (Step.dealloc pid).Allowed s)
    (ran : (Step.dealloc pid).run s = .ok (reply, after)) : liveCount after.cont + 1 = liveCount s.cont := by
  obtain ⟨p, live, del⟩ := allowed
  obtain ⟨⟨errcode, cont⟩, done, rest⟩ := bind_eq_ok.mp ran
  cases rest
  have booked := process_dealloc_books s.cont pid
  have live : Live (contBooks s.cont) pid p := live
  obtain ⟨freed, destroyed, deallocated⟩ := process_dealloc_exact sound live del
  rw [done, deallocated] at booked
  split at booked
  · have same : freed = contBooks cont := congrArg Prod.snd (Except.ok.inj booked)
    have processes : cont.processes = s.cont.processes.set pid { p with mailBox := none, junk := true } :=
      (congrArg ProcCont.processes same).symm.trans destroyed.processes
    rw [live_count_starts, live_count_starts, processes]
    exact (starts_emptied live.1 live.2 rfl).length_eq.symm
  · cases booked

theorem start_counts (sound : ContSound (contBooks s.cont)) {pid : Nat} (allowed : (Step.start pid).Allowed s)
    (ran : (Step.start pid).run s = .ok (reply, after)) : liveCount after.cont = liveCount s.cont := by
  obtain ⟨p, here, used⟩ := allowed
  obtain ⟨cont, done, rest⟩ := bind_eq_ok.mp ran
  cases rest
  have booked := process_start_books s.cont pid
  have here : (contBooks s.cont).processes[pid]? = some p := here
  obtain ⟨new, started, rfl, -⟩ := process_start_exact sound here
  rw [done, started] at booked
  have processes := congrArg ProcCont.processes (Except.ok.inj booked)
  rw [live_count_starts, live_count_starts, show cont.processes = _ from processes.symm]
  exact congrArg List.length (starts_edited here rfl rfl)

theorem destroy_counts (sound : ContSound (contBooks s.cont)) {id : Nat}
    (ran : (Step.destroy id).run s = .ok (reply, after)) : liveCount after.cont = liveCount s.cont := by
  obtain ⟨⟨errcode, cont⟩, done, rest⟩ := bind_eq_ok.mp ran
  cases rest
  have booked := process_destroy_books s.cont id
  rw [done] at booked
  rcases process_destroy_cases sound id with ⟨failed, kept, -⟩ | ⟨p, box, live, marked, -⟩
  · rw [kept] at booked
    have processes := congrArg (fun r => r.2.processes) (Except.ok.inj booked)
    rw [live_count_starts, live_count_starts, show cont.processes = _ from processes.symm]
    rfl
  · rw [marked] at booked
    have processes := congrArg (fun r => r.2.processes) (Except.ok.inj booked)
    rw [live_count_starts, live_count_starts, show cont.processes = _ from processes.symm]
    exact congrArg List.length (starts_edited live.1 rfl rfl)

theorem step_counts (sound : ContSound (contBooks s.cont)) {next : Step} (allowed : next.Allowed s)
    (ran : next.run s = .ok (reply, after)) (code : 0 ≤ reply.code) :
    liveCount after.cont + (if next.deletes then 1 else 0) = liveCount s.cont + if next.creates then 1 else 0 := by
  cases next with
  | create table => exact create_counts sound ran code
  | start pid => exact start_counts sound allowed ran
  | destroy id => exact destroy_counts sound ran
  | dealloc pid => exact dealloc_counts sound allowed ran
  | memory next =>
      obtain ⟨result, -, rest⟩ := bind_eq_ok.mp ran
      cases rest
      rfl

end Counting

theorem run_counts {frames pages block : Nat} (oneFrame : 0 < frames) (onePage : 0 < pages)
    (positive : 0 < block) {size nprocs freq : Nat} {past : List Step} {s : System}
    (run : Run Step.Allowed (initialSystem frames pages size block nprocs freq) past s) :
    liveCount s.cont + past.countP (·.deletes) = past.countP (·.creates) := by
  induction run with
  | nil => simp [liveCount, initialSystem, initProcCont]
  | @step past s reply after next before allowed ran code ih =>
      have sound := (run_books (initial_books oneFrame onePage positive nprocs freq) before).1
      have counts := step_counts sound allowed ran code
      rw [List.countP_cons, List.countP_cons]
      omega

/-- In every run a further process is let in exactly if the processes created and not yet
deleted are fewer than the slots and fewer than the blocks of the disk. -/
theorem capacity_exact {frames pages block : Nat} (oneFrame : 0 < frames) (onePage : 0 < pages)
    (positive : 0 < block) (int : pages < 2 ^ 31) (size nprocs freq : Nat) {past : List Step} {s : System}
    (run : Run Step.Allowed (initialSystem frames pages size block nprocs freq) past s)
    (table : Nat → PackedBitmap.Block) :
    (∃ (slot : Nat) (freed : List SlotPointer) (after : ProcCont),
      initProcess table s.cont = .ok ((slot : Int), freed, after)) ↔
      past.countP (·.creates) < past.countP (·.deletes) + min nprocs (pages / block) := by
  obtain ⟨sound, same⟩ := run_books (initial_books oneFrame onePage positive nprocs freq) run
  have npages : s.cont.mmu.disk.npages = pages := same.diskPages
  have blockSize : s.cont.prcBlkSize = block := same.prcBlkSize
  have sized : s.cont.processes.length = s.cont.maxNumOfProc := sound.slots
  have slots : s.cont.processes.length = nprocs := sized.trans same.maxNumOfProc
  have within := live_within sound
  rw [npages, blockSize] at within
  have few : liveCount s.cont ≤ nprocs := slots ▸ List.countP_le_length
  have counts := run_counts oneFrame onePage positive run
  have left : past.countP (·.creates) < past.countP (·.deletes) + min nprocs (pages / block) ↔
      liveCount s.cont < nprocs ∧ liveCount s.cont < pages / block := by omega
  rw [left]
  constructor
  · rintro ⟨slot, freed, after, ran⟩
    have notFull : liveCount s.cont ≠ nprocs := by
      intro full
      rw [no_slot_exact sized (live_count_full.mp (full.trans slots.symm)) table] at ran
      have code : (-1 : Int) = slot := congrArg Prod.fst (Except.ok.inj ran)
      omega
    refine ⟨lt_of_le_of_ne few notFull, lt_of_le_of_ne within fun full => ?_⟩
    have code : (slot : Int) = -2 :=
      creation_refused sound blockSize npages (slots ▸ lt_of_le_of_ne few notFull) full ran
    omega
  · rintro ⟨room, blocks⟩
    obtain ⟨slot, page, after, ran, -⟩ := creation_succeeds sound blockSize npages int (slots ▸ room) blocks table
    exact ⟨slot, [], after, ran⟩

/-- Two blocks for three slots: with one process deleted again a third is let in. -/
theorem capacity_exact_deleted : ∃ s,
    Run Step.Allowed (initialSystem 1 2 1 1 3 1)
      [.dealloc 0, .destroy 0, .create fun _ => 0, .start 0, .create fun _ => 0] s ∧
      ∃ (slot : Nat) (freed : List SlotPointer) (after : ProcCont),
        initProcess (fun _ => 0) s.cont = .ok ((slot : Int), freed, after) := by
  have replayed : (replaySteps Step.Allowed (initialSystem 1 2 1 1 3 1)
      [.create fun _ => 0, .start 0, .create fun _ => 0, .destroy 0, .dealloc 0]).isSome = true := by decide
  obtain ⟨s, reached⟩ := Option.isSome_iff_exists.mp replayed
  have run : Run Step.Allowed (initialSystem 1 2 1 1 3 1)
      [.dealloc 0, .destroy 0, .create fun _ => 0, .start 0, .create fun _ => 0] s := replay_steps_run .nil reached
  have admits := capacity_exact (by decide) (by decide) (by decide) (by decide) 1 3 1 run fun _ => 0
  exact ⟨s, run, admits.mpr (by decide)⟩

end VmSim.ProcessTable
