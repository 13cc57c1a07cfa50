import VmSim.ProcessRuns

/-!
What one step of the program does to a sound container, as actions of the
demand paging store, and the ownership of every run: live processes own
disjoint blocks of disk pages, the disk map has exactly their pages and only
their pages are resident.
-/

namespace VmSim.ProcessTable
open PageTable DiskBlocks KeyedMap FramePool DemandPaging MemoryUnit BlockAllocator AlignedBlocks
open PageReplacement PagingRuns

def Step.InPage (s : System) : Step → Prop
  | .memory (.read addr nbytes) => addr.offset + nbytes ≤ s.cont.mmu.mem.pageSize
  | .memory (.write addr buf) => addr.offset + buf.length ≤ s.cont.mmu.mem.pageSize
  | _ => True

def Step.Quiet : Step → Prop
  | .start _ => True
  | .destroy _ => True
  | .memory (.pin _) => True
  | .memory .age => True
  | _ => False

/-- The actions of a step that returns `code`, the latest first. -/
inductive Performs (s : System) : Step → Int → List ByteAction → Prop where
  | create {past page} {code : Int} {slot : Nat} : code = slot →
      PackedBitmap.bitmapFirstClear past s.cont.mmu.disk.allocBitmap = some page →
      Performs s (.create past) code (allocActions slot 0 page s.cont.prcBlkSize)
  | dealloc {pid} : Performs s (.dealloc pid) 0 (freeActions pid 0 s.cont.prcBlkSize)
  | load {addr} : Performs s (.memory (.service addr)) 0 [.load addr.key]
  | swap {addr victim} : victim ≠ addr.key → s.cont.mmu.memIpt.freePages = [] →
      Performs s (.memory (.service addr)) 0 [.load addr.key, .evict victim]
  | read {addr nbytes} : Performs s (.memory (.read addr nbytes)) 0 [.read addr.key]
  | write {addr buf} : Performs s (.memory (.write addr buf)) 0 [.write addr.key (changeOf addr buf)]
  | quiet {next} : next.Quiet → Performs s next 0 []

structure Advanced (s : System) (next : Step) (code : Int) (after : System) : Prop where
  sound : ContSound after.cont
  prcBlkSize : after.cont.prcBlkSize = s.cont.prcBlkSize
  maxNumOfProc : after.cont.maxNumOfProc = s.cont.maxNumOfProc
  npages : after.cont.mmu.mem.npages = s.cont.mmu.mem.npages
  pageSize : after.cont.mmu.mem.pageSize = s.cont.mmu.mem.pageSize
  diskPages : after.cont.mmu.disk.npages = s.cont.mmu.disk.npages
  performs : ∃ actions, Performs s next code actions ∧
    Path (storeOf s.cont.mmu) actions (storeOf after.cont.mmu)

section Steps
variable {s : System}

theorem owns_backed (sound : ContSound s.cont) {addr : VirtAddr} (owns : Owns s.cont addr) :
    backingOf s.cont.mmu addr.key ≠ none := by
  obtain ⟨⟨p, live⟩, inside⟩ := owns
  have stored := (sound.backing addr.key _).mpr ⟨p, live, inside, rfl⟩
  simp [stored]

theorem chain_advances (sound : ContSound s.cont) {next : Step} {prm : PrmStatics} {mmu : Mmu}
    {actions : List ByteAction} (mmuSound : MmuSound mmu) (shape : SameShape s.cont.mmu mmu)
    (backing : backingOf mmu = backingOf s.cont.mmu) (performs : Performs s next 0 actions)
    (path : Path (storeOf s.cont.mmu) actions (storeOf mmu)) :
    Advanced s next 0 ⟨{ s.cont with mmu := mmu }, prm⟩ where
  sound := acts_cont_sound sound mmuSound shape backing
  prcBlkSize := rfl
  maxNumOfProc := rfl
  npages := shape.npages
  pageSize := shape.pageSize
  diskPages := shape.diskPages
  performs := ⟨actions, performs, path⟩

theorem create_exact (sound : ContSound s.cont) (past : Nat → PackedBitmap.Block) :
    (∃ reply after, (Step.create past).run s = .ok (reply, after) ∧
      (0 ≤ reply.code → Advanced s (.create past) reply.code after)) ∨
    (Step.create past).run s = .error .overflow := by
  rcases init_process_cases sound past with ⟨full, -⟩ | ⟨slot, old, here, junk, cases⟩
  · left
    refine ⟨_, _, by simp [Step.run, full]; exact ⟨rfl, rfl⟩, fun code => ?_⟩
    simp at code
  · rcases cases with ⟨refused, -⟩ | ⟨wrapped, -⟩ | ⟨page, cont, ran, created, -, -, -, first⟩
    · left
      refine ⟨_, _, by simp [Step.run, refused]; exact ⟨rfl, rfl⟩, fun code => ?_⟩
      simp at code
    · right
      simp [Step.run, wrapped]
    · left
      refine ⟨⟨slot, []⟩, { s with cont := cont }, by simp [Step.run, ran], fun _ => ?_⟩
      obtain ⟨disk, marked, chain⟩ := created.pages
      have shape := chain_shape chain
      have view := (marked_sound sound.mmu marked (by simp)).2
      refine ⟨created.sound, created.prcBlkSize, created.maxNumOfProc, shape.npages,
        shape.pageSize, shape.diskPages.trans marked.npages,
        _, .create rfl first, ?_⟩
      rw [← view]
      exact chain_path chain

theorem dealloc_exact (sound : ContSound s.cont) {pid : Nat} {p : Process}
    (live : Live s.cont pid p) (del : p.del = true) :
    ∃ after, Advanced s (.dealloc pid) 0 after ∧
      (Step.dealloc pid).run s = if p.procThrdArg.isSome then .ok (⟨0, []⟩, after)
        else .error (.assertion .funcArgDestroy) := by
  obtain ⟨cont, destroyed, ran⟩ := process_dealloc_exact sound live del
  obtain ⟨middle, disk, chain, marked, mmuEq⟩ := destroyed.pages
  have shape := chain_shape chain
  refine ⟨{ s with cont := cont }, ⟨destroyed.sound, destroyed.prcBlkSize, destroyed.maxNumOfProc,
    ?_, ?_, ?_, _, .dealloc, ?_⟩, ?_⟩
  · rw [mmuEq]
    exact shape.npages
  · rw [mmuEq]
    exact shape.pageSize
  · rw [mmuEq]
    exact marked.npages.trans shape.diskPages
  · have view : storeOf cont.mmu = storeOf middle := by
      rw [mmuEq]
      simp only [storeOf, marked.data, marked.pageSize]
      rfl
    change Path _ _ (storeOf cont.mmu)
    rw [view]
    exact chain_path chain
  · simp only [Step.run, ran]
    split <;> rfl

theorem service_exact (sound : ContSound s.cont) {addr : VirtAddr}
    (allowed : (Step.memory (.service addr)).Allowed s) :
    ∃ after, (Step.memory (.service addr)).run s = .ok (⟨0, []⟩, after) ∧
      Advanced s (.memory (.service addr)) 0 after := by
  obtain ⟨owns, absent⟩ := allowed
  have backed := owns_backed sound owns
  by_cases full : s.cont.mmu.memIpt.freePages = []
  · obtain ⟨victim, prm, middle, mmu, ran, distinct, evicted, loaded⟩ :=
      prm_service_full sound.mmu s.prm absent backed full
    refine ⟨⟨{ s.cont with mmu := mmu }, prm⟩, by
      simp [Step.run, Section.run, System.machine, ran]; rfl, ?_⟩
    refine chain_advances sound loaded.sound
      (same_shape_trans (acts_shape evicted) (acts_shape loaded)) ?_ (.swap distinct full)
      (path_append (acts_path evicted) (acts_path loaded))
    exact (acts_backing loaded).trans (acts_backing evicted)
  · obtain ⟨mmu, ran, loaded⟩ := prm_service_free sound.mmu s.prm ⟨absent, backed, full⟩
    refine ⟨⟨{ s.cont with mmu := mmu }, s.prm⟩, by
      simp [Step.run, Section.run, System.machine, ran]; rfl, ?_⟩
    exact chain_advances sound loaded.sound (acts_shape loaded) (acts_backing loaded) .load
      (acts_path loaded)

theorem edit_advances {next : Step} {processes : List Process} (quiet : next.Quiet)
    (sound : ContSound { s.cont with processes := processes }) :
    Advanced s next 0 { s with cont := { s.cont with processes := processes } } :=
  ⟨sound, rfl, rfl, rfl, rfl, rfl, [], .quiet quiet, .nil⟩

theorem quiet_exact (sound : ContSound s.cont) {next : Step} (allowed : next.Allowed s)
    (quiet : next.Quiet) :
    ∃ after, next.run s = .ok (⟨0, []⟩, after) ∧ Advanced s next 0 after := by
  cases next with
  | create past => exact absurd quiet id
  | dealloc pid => exact absurd quiet id
  | start pid =>
      obtain ⟨p, here, -⟩ := allowed
      obtain ⟨new, ran, -, edited⟩ := process_start_exact sound here
      exact ⟨_, by simp [Step.run, ran], edit_advances quiet edited⟩
  | destroy id =>
      rcases process_destroy_cases sound id with ⟨errcode, ran, -⟩ | ⟨p, box, -, ran, edited⟩
      · exact ⟨s, by simp [Step.run, ran], edit_advances quiet sound⟩
      · exact ⟨_, by simp [Step.run, ran], edit_advances quiet edited⟩
  | memory next =>
      cases next with
      | pin addr =>
          obtain ⟨stats, checked⟩ := pin_check_exact sound.mmu.table addr
          refine ⟨⟨{ s.cont with mmu := { s.cont.mmu with stats := stats } }, s.prm⟩, ?_, ?_⟩
          · simp [Step.run, Section.run, System.machine, checked]
            rfl
          · exact chain_advances sound (stats_sound sound.mmu stats) ⟨rfl, rfl, rfl, rfl, rfl⟩ rfl
              (.quiet quiet) .nil
      | age =>
          obtain ⟨aged, view⟩ := age_pages_exact sound.mmu
          refine ⟨_, rfl, chain_advances sound aged ⟨rfl, rfl, rfl, rfl, rfl⟩ rfl (.quiet quiet) ?_⟩
          change Path _ [] (storeOf (agePages s.cont.mmu))
          rw [view]
          exact .nil
      | service addr => exact absurd quiet id
      | read addr nbytes => exact absurd quiet id
      | write addr buf => exact absurd quiet id
      | allocPage addr backing => exact absurd quiet id
      | freePage addr => exact absurd quiet id
      | allocBlock past => exact absurd quiet id
      | freeBlock page => exact absurd quiet id

theorem read_exact (sound : ContSound s.cont) {addr : VirtAddr} {nbytes : Nat}
    (resident : frameOf s.cont.mmu.memIpt addr.key ≠ none)
    (inside : addr.offset + nbytes ≤ s.cont.mmu.mem.pageSize) :
    ∃ bytes after, (Step.memory (.read addr nbytes)).run s = .ok (⟨0, bytes⟩, after) ∧
      Advanced s (.memory (.read addr nbytes)) 0 after := by
  obtain ⟨frame, held⟩ := Option.ne_none_iff_exists'.mp resident
  obtain ⟨machine, ran, acts⟩ := read_runs (m := s.machine) sound.mmu held inside
  refine ⟨_, s.withMachine machine, by simp [Step.run, ran]; rfl, ?_⟩
  exact chain_advances sound acts.sound (acts_shape acts) (acts_backing acts) .read (acts_path acts)

theorem write_exact (sound : ContSound s.cont) {addr : VirtAddr} {buf : List BYTE}
    (resident : frameOf s.cont.mmu.memIpt addr.key ≠ none)
    (inside : addr.offset + buf.length ≤ s.cont.mmu.mem.pageSize) :
    ∃ after, (Step.memory (.write addr buf)).run s = .ok (⟨0, []⟩, after) ∧
      Advanced s (.memory (.write addr buf)) 0 after := by
  obtain ⟨machine, ran, acts⟩ := write_runs (m := s.machine) sound.mmu resident inside
  refine ⟨s.withMachine machine, by simp [Step.run, ran], ?_⟩
  exact chain_advances sound acts.sound (acts_shape acts) (acts_backing acts) .write
    (acts_path acts)

/-- A step of a sound system succeeds, unless a creation runs out of slots, blocks
or integers or a process that was never started is asked to free its argument. -/
theorem step_exact (sound : ContSound s.cont) {next : Step} (allowed : next.Allowed s)
    (inPage : next.InPage s) :
    (∃ reply after, next.run s = .ok (reply, after) ∧
      (0 ≤ reply.code → Advanced s next reply.code after)) ∨
    (next.run s = .error .overflow ∧ ∃ past, next = .create past) ∨
    (next.run s = .error (.assertion .funcArgDestroy) ∧
      ∃ pid p, next = .dealloc pid ∧ Live s.cont pid p ∧ p.procThrdArg = none) := by
  by_cases quiet : next.Quiet
  · obtain ⟨after, ran, advanced⟩ := quiet_exact sound allowed quiet
    exact .inl ⟨_, after, ran, fun _ => advanced⟩
  · cases next with
    | create past =>
        rcases create_exact sound past with done | wrapped
        · exact .inl done
        · exact .inr (.inl ⟨wrapped, past, rfl⟩)
    | start pid => exact absurd trivial quiet
    | destroy id => exact absurd trivial quiet
    | dealloc pid =>
        obtain ⟨p, live, del⟩ := allowed
        obtain ⟨after, advanced, ran⟩ := dealloc_exact sound live del
        cases started : p.procThrdArg with
        | some arg => exact .inl ⟨⟨0, []⟩, after, by simp [ran, started], fun _ => advanced⟩
        | none => exact .inr (.inr ⟨by simp [ran, started], pid, p, rfl, live, started⟩)
    | memory next =>
        cases next with
        | pin addr => exact absurd trivial quiet
        | age => exact absurd trivial quiet
        | service addr =>
            obtain ⟨after, ran, advanced⟩ := service_exact sound allowed
            exact .inl ⟨_, after, ran, fun _ => advanced⟩
        | read addr nbytes =>
            obtain ⟨bytes, after, ran, advanced⟩ := read_exact sound allowed.2 inPage
            exact .inl ⟨_, after, ran, fun _ => advanced⟩
        | write addr buf =>
            obtain ⟨after, ran, advanced⟩ := write_exact sound allowed.2 inPage
            exact .inl ⟨_, after, ran, fun _ => advanced⟩
        | allocPage addr backing => exact absurd allowed id
        | freePage addr => exact absurd allowed id
        | allocBlock past => exact absurd allowed id
        | freeBlock page => exact absurd allowed id

theorem step_advances (sound : ContSound s.cont) {next : Step} (allowed : next.Allowed s)
    (inPage : next.InPage s) {reply : Reply} {after : System}
    (ran : next.run s = .ok (reply, after)) (code : 0 ≤ reply.code) :
    Advanced s next reply.code after := by
  rcases step_exact sound allowed inPage with ⟨reply', after', ran', advanced⟩ | ⟨wrapped, -⟩ |
    ⟨failed, -⟩
  · rw [ran] at ran'
    cases ran'
    exact advanced code
  · rw [ran] at wrapped
    cases wrapped
  · rw [ran] at failed
    cases failed

/-! The bookkeeping of the same steps, whatever the size of a page. -/

def Step.Access : Step → Prop
  | .memory (.read _ _) => True
  | .memory (.write _ _) => True
  | _ => False

theorem booked_advances (sound : ContSound (contBooks s.cont)) {next : Step} (plain : ¬ next.Access)
    (allowed : next.Allowed s) {reply : Reply} {after : System}
    (ran : next.run s = .ok (reply, after)) (code : 0 ≤ reply.code) :
    Advanced (sysBooks s) next reply.code (sysBooks after) := by
  have controlled := (step_control allowed).1 reply after ran
  have allowed' : next.Allowed (sysBooks s) := allowed
  -- Apart from the accesses a step never looks at the bytes that the books leave out.
  have booked : next.InPage (sysBooks s) ∧
      next.control (sysBooks s) = (next.run (sysBooks s)).map fun r => (r.1.code, r.2) := by
    cases next with
    | memory next =>
        cases next with
        | read addr nbytes => exact absurd trivial plain
        | write addr buf => exact absurd trivial plain
        | _ => exact ⟨trivial, rfl⟩
    | _ => exact ⟨trivial, rfl⟩
  cases ran' : next.run (sysBooks s) with
  | error fault =>
      rw [booked.2, ran'] at controlled
      cases controlled
  | ok result =>
      obtain ⟨reply', after'⟩ := result
      rw [booked.2, ran'] at controlled
      simp only [Except.map, Except.ok.injEq, Prod.mk.injEq] at controlled
      obtain ⟨codes, rfl⟩ := controlled
      rw [← codes]
      exact step_advances sound allowed' booked.1 ran' (codes ▸ code)

theorem touch_exact (sound : ContSound s.cont) {addr : VirtAddr}
    (resident : frameOf s.cont.mmu.memIpt addr.key ≠ none) (ref : RefType) :
    ∃ ipt, touchPage s addr ref = .ok { s with cont := { s.cont with
        mmu := { s.cont.mmu with memIpt := ipt } } } ∧
      ContSound { s.cont with mmu := { s.cont.mmu with memIpt := ipt } } := by
  obtain ⟨frame, held⟩ := Option.ne_none_iff_exists'.mp resident
  obtain ⟨ipt, referenced, moved, -⟩ := reference_touches sound.mmu.table held ref
  have frames : frameOf ipt = frameOf s.cont.mmu.memIpt := congrArg Pool.frame moved.pool
  have held' : frameOf ipt addr.key = some frame := by rw [frames, held]
  exact ⟨ipt, by simp [touchPage, referenced, translate_exact moved.sound held'],
    acts_cont_sound sound (touched_sound sound.mmu moved) ⟨rfl, rfl, rfl, rfl, rfl⟩ rfl⟩

structure SameSystem (s after : System) : Prop where
  prcBlkSize : after.cont.prcBlkSize = s.cont.prcBlkSize
  maxNumOfProc : after.cont.maxNumOfProc = s.cont.maxNumOfProc
  npages : after.cont.mmu.mem.npages = s.cont.mmu.mem.npages
  diskPages : after.cont.mmu.disk.npages = s.cont.mmu.disk.npages

/-- A step goes on to sound data, overflows while creating or fails deallocating an unstarted process. -/
def Controlled (s : System) (next : Step) : Prop :=
  (∃ code after, next.control s = .ok (code, after) ∧
    (0 ≤ code → ContSound after.cont ∧ SameSystem s after)) ∨
  (next.control s = .error .overflow ∧ ∃ past, next = .create past) ∨
  (next.control s = .error (.assertion .funcArgDestroy) ∧
    ∃ pid p, next = .dealloc pid ∧ Live s.cont pid p ∧ p.procThrdArg = none)

theorem control_exact (sound : ContSound s.cont) {next : Step} (allowed : next.Allowed s) :
    Controlled s next := by
  have whole : next.InPage s → next.control s = (next.run s).map (fun r => (r.1.code, r.2)) →
      Controlled s next := by
    intro inPage same
    rcases step_exact sound allowed inPage with ⟨reply, after, ran, advanced⟩ | ⟨wrapped, made⟩ |
      ⟨failed, made⟩
    · refine .inl ⟨reply.code, after, by rw [same, ran]; rfl, fun code => ?_⟩
      have facts := advanced code
      exact ⟨facts.sound, facts.prcBlkSize, facts.maxNumOfProc, facts.npages, facts.diskPages⟩
    · exact .inr (.inl ⟨by rw [same, wrapped]; rfl, made⟩)
    · exact .inr (.inr ⟨by rw [same, failed]; rfl, made⟩)
  -- An access runs its copy apart: the control part is the reference of the page.
  have touched : ∀ addr ref, frameOf s.cont.mmu.memIpt addr.key ≠ none →
      ∃ after, ((touchPage s addr ref).map fun t => ((0 : Int), t)) = .ok (0, after) ∧
        ContSound after.cont ∧ SameSystem s after := by
    intro addr ref resident
    obtain ⟨ipt, ran, kept⟩ := touch_exact sound resident ref
    exact ⟨_, congrArg (Except.map _) ran, kept, ⟨rfl, rfl, rfl, rfl⟩⟩
  cases next with
  | create past => exact whole trivial rfl
  | start pid => exact whole trivial rfl
  | destroy id => exact whole trivial rfl
  | dealloc pid => exact whole trivial rfl
  | memory next =>
      cases next with
      | pin addr => exact whole trivial rfl
      | service addr => exact whole trivial rfl
      | age => exact whole trivial rfl
      | read addr nbytes =>
          obtain ⟨after, ran, facts⟩ := touched addr .refRead allowed.2
          exact .inl ⟨0, after, ran, fun _ => facts⟩
      | write addr buf =>
          obtain ⟨after, ran, facts⟩ := touched addr .refWrite allowed.2
          exact .inl ⟨0, after, ran, fun _ => facts⟩
      | allocPage addr backing => exact absurd allowed id
      | freePage addr => exact absurd allowed id
      | allocBlock past => exact absurd allowed id
      | freeBlock page => exact absurd allowed id

end Steps

/-! Whole runs. -/

theorem initial_sound {mem : Mm} {disk : Disk} (setup : Setup mem disk)
    (block : 0 < disk.processBlockSize) (empty : ∀ i, allocated disk i = false)
    (nprocs freq : Nat) :
    ContSound (initProcCont nprocs disk.processBlockSize (mmuInit mem disk freq)) := by
  have dead : ∀ pid p, ¬ Live (initProcCont nprocs disk.processBlockSize (mmuInit mem disk freq))
      pid p := by
    rintro pid p ⟨here, used⟩
    have member := List.mem_of_getElem? here
    rw [List.eq_of_mem_replicate member] at used
    cases used
  have none : starts (List.replicate nprocs { zeroProcess with junk := true }) = [] := by
    simp [starts]
  refine ⟨init_sound setup freq, List.length_replicate, rfl, ?_, ?_, ?_⟩
  · change Owned (starts (List.replicate nprocs _)) disk
    rw [none]
    refine ⟨setup.bitmap, block, packed_nil, fun i _ => ?_⟩
    rw [empty i]
    simp [Covered]
  · intro key page
    constructor
    · intro stored
      cases stored
    · rintro ⟨p, live, -⟩
      exact absurd live (dead key.1 p)
  · intro pid p live
    exact absurd live (dead pid p)

theorem initial_books {frames pages size block : Nat} (oneFrame : 0 < frames)
    (onePage : 0 < pages) (positive : 0 < block) (nprocs freq : Nat) :
    ContSound (contBooks (initialSystem frames pages size block nprocs freq).cont) := by
  have bitmap := disk_init_wellformed pages size block onePage
  have setup : Setup { mmInit frames size with data := [], pageSize := 0 }
      (diskBooks (diskInit pages size block)) :=
    ⟨oneFrame, rfl, rfl, rfl, by simp, by simp [diskBooks], ⟨bitmap.bitmap, bitmap.sized⟩⟩
  exact initial_sound setup positive (fun i => PackedBitmap.bitmap_init_bit pages i) nprocs freq

theorem same_system_trans {s middle after : System} (first : SameSystem s middle)
    (second : SameSystem middle after) : SameSystem s after :=
  ⟨second.prcBlkSize.trans first.prcBlkSize, second.maxNumOfProc.trans first.maxNumOfProc,
    second.npages.trans first.npages, second.diskPages.trans first.diskPages⟩

theorem run_books {begin s : System} {past : List Step}
    (sound : ContSound (contBooks begin.cont))
    (run : Run Step.Allowed begin past s) :
    ContSound (contBooks s.cont) ∧ SameSystem begin s := by
  induction run with
  | nil => exact ⟨sound, rfl, rfl, rfl, rfl⟩
  | @step past middle reply after next _ allowed ran code ih =>
      obtain ⟨before, same⟩ := ih
      have controlled := (step_control allowed).1 reply after ran
      have allowed' : next.Allowed (sysBooks middle) := allowed
      rcases control_exact (s := sysBooks middle) before allowed' with
        ⟨code', after', ran', facts⟩ | ⟨wrapped, -⟩ | ⟨failed, -⟩
      · rw [controlled] at ran'
        cases ran'
        obtain ⟨kept, shape⟩ := facts code
        exact ⟨kept, same_system_trans same ⟨shape.prcBlkSize, shape.maxNumOfProc, shape.npages,
          shape.diskPages⟩⟩
      · rw [controlled] at wrapped
        cases wrapped
      · rw [controlled] at failed
        cases failed

end VmSim.ProcessTable
