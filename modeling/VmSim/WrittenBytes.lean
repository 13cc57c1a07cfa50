import VmSim.Isolation
import VmSim.ReachableFaults

/-!
Written bytes in runs of any size. A position in memory wraps at 2^32 and one on
the disk overflows at 2^31. As long as no step of a run computes such a position,
every byte keeps the value its process wrote last, wherever the PRM takes it.
-/

namespace VmSim.ProcessTable
open PageTable DiskBlocks KeyedMap FramePool DemandPaging MemoryUnit PageReplacement PagingRuns
open PagedBytes

/-- The first byte of an access, in the frame of its page, has a position of 32 bits. -/
def AccessFits (mmu : Mmu) (addr : VirtAddr) : Prop :=
  ∀ frame, frameOf mmu.memIpt addr.key = some frame →
    frame * mmu.mem.pageSize + addr.offset < 2 ^ 32

/-- No position that the step computes leaves its integer. -/
def Step.Fits (s : System) : Step → Prop
  | .memory (.service addr) => PageReplacement.Fits s.cont.mmu addr
  | .memory (.read addr _) => AccessFits s.cont.mmu addr
  | .memory (.write addr _) => AccessFits s.cont.mmu addr
  | _ => True

def FittedStep (s : System) (next : Step) : Prop := CheckedStep s next ∧ next.Fits s

/-- The value a process wrote last at a byte of its own, the latest step first. -/
def lastByte : List Step → Key → Nat → Option BYTE
  | [], _, _ => none
  | .memory (.write addr buf) :: past, key, offset =>
      if key = addr.key then (changeOf addr buf offset).or (lastByte past key offset)
      else lastByte past key offset
  | .dealloc pid :: past, key, offset => if key.1 = pid then none else lastByte past key offset
  | _ :: past, key, offset => lastByte past key offset

/-- Everything written is where it will be looked for. -/
structure Remembers (past : List Step) (s : System) : Prop where
  preserves : Preserves (lastByte past) (storeOf s.cont.mmu)
  backed : ∀ key offset value, lastByte past key offset = some value →
    backingOf s.cont.mmu key ≠ none

theorem remembered {past : List Step} {s : System} (remembers : Remembers past s) {key : Key}
    {offset : Nat} {value : BYTE} (written : lastByte past key offset = some value) :
    contents (storeOf s.cont.mmu) key offset = some value := by
  cases held : (storeOf s.cont.mmu).pool.frame key with
  | some frame =>
      rw [contents_resident held]
      exact remembers.preserves.resident key frame held offset value written
  | none =>
      obtain ⟨slot, backed⟩ :=
        Option.ne_none_iff_exists'.mp (remembers.backed key offset value written)
      have stored : (storeOf s.cont.mmu).backing key = some slot := backed
      rw [contents, held, stored]
      exact remembers.preserves.stored key slot backed (.inl held) offset value written

/-! The service of a fault moves pages and loses no byte. -/

section Service
variable {mmu after : Mmu} {addr : VirtAddr} {written : Key → Nat → Option BYTE}

theorem frame_byte (mmu : Mmu) (frame offset : Nat) :
    (storeOf mmu).memory frame offset = (frameBytes mmu frame)[offset]? :=
  (page_slice_get _ _ _ _).symm

theorem slot_byte (mmu : Mmu) (slot offset : Nat) :
    (storeOf mmu).disk slot offset = (diskBytes mmu slot)[offset]? :=
  (page_slice_get _ _ _ _).symm

theorem serves_preserves (consistent : Consistent mmu) (table : Sound after.memIpt)
    (absent : frameOf mmu.memIpt addr.key = none) (serves : Serves mmu after addr)
    (preserves : Preserves written (storeOf mmu)) : Preserves written (storeOf after) := by
  obtain ⟨evicted, evicts, kept, stays, others⟩ := serves.evicts
  have backing : ∀ key, backingOf after key = backingOf mmu key := fun key => by
    rw [backingOf, serves.diskMap, backingOf]
  constructor
  · intro key frame held offset value here
    by_cases own : key = addr.key
    · -- the loaded page is what its slot was, which the eviction left alone
      subst own
      obtain ⟨frame', slot, translated, backed, bytes⟩ := serves.loaded.translated
      rw [translate_exact table held] at translated
      cases translated
      rw [backingPage, backing_exact, backing] at backed
      have slotKept : diskBytes after slot = diskBytes mmu slot := by
        apply others
        intro victim gone stored
        exact (evicts.gone victim gone).1 (consistent.distinct victim addr.key slot stored backed)
      rw [frame_byte, bytes, slotKept, ← slot_byte]
      exact preserves.stored addr.key slot backed (.inl absent) offset value here
    · cases before : frameOf mmu.memIpt key with
      | none =>
          have held' : frameOf after.memIpt key = some frame := held
          rw [stays key own before] at held'
          cases held'
      | some frame' =>
          have survives : evicted ≠ some key := by
            intro gone
            have held' : frameOf after.memIpt key = some frame := held
            rw [(evicts.gone key gone).2.2] at held'
            cases held'
          obtain ⟨held', -, bytes⟩ := kept key frame' own survives before
          obtain rfl : frame = frame' := Option.some.inj (held.symm.trans held')
          rw [frame_byte, bytes, ← frame_byte]
          exact preserves.resident key frame before offset value here
  · intro key slot backed free offset value here
    have backed' : backingOf mmu key = some slot := (backing key).symm.trans backed
    -- The victim's slot gets its frame's bytes if it was dirty and has them already if not.
    by_cases gone : evicted = some key
    · obtain ⟨frame, held⟩ := Option.ne_none_iff_exists'.mp (evicts.gone key gone).2.1
      rw [slot_byte, evicts.written key frame slot gone held backed']
      split
      · rw [← frame_byte]
        exact preserves.resident key frame held offset value here
      · rename_i clean
        rw [← slot_byte]
        have clean' : dirtyOf mmu.memIpt key = false := by simpa using clean
        exact preserves.stored key slot backed' (.inr clean') offset value here
    · have slotKept : diskBytes after slot = diskBytes mmu slot := by
        apply others
        intro victim gone' stored
        exact gone (consistent.distinct victim key slot stored backed' ▸ gone')
      rw [slot_byte, slotKept, ← slot_byte]
      apply preserves.stored key slot backed' _ offset value here
      by_cases own : key = addr.key
      · exact .inl (own ▸ absent)
      · cases before : frameOf mmu.memIpt key with
        | none => exact .inl before
        | some frame =>
            obtain ⟨held', data, -⟩ := kept key frame own gone before
            have clean : dirtyOf after.memIpt key = false := by
              rcases free with out | clean
              · rw [show frameOf after.memIpt key = none from out] at held'
                cases held'
              · exact clean
            right
            change dirtyOf mmu.memIpt key = false
            simp only [dirtyOf, held', data] at clean
            simp only [dirtyOf, before, clean]

end Service

/-! Every other step is a path of actions on the store, whatever the sizes. -/

section Steps
variable {s after : System} {next : Step} {reply : Reply} {past : List Step}

def Step.Settled : Step → Prop
  | .memory (.service _) => False
  | .memory (.read _ _) => False
  | .memory (.write _ _) => False
  | _ => True

theorem rearranges_values {mmu after : Mmu} (rearranges : Rearranges mmu after) :
    (storeOf after).memory = (storeOf mmu).memory ∧ (storeOf after).disk = (storeOf mmu).disk := by
  constructor
  · simp only [storeOf, rearranges.mem]
  · simp only [storeOf]
    rw [rearranges.disk]

theorem settled_step_values (settled : next.Settled) (allowed : next.Allowed s)
    (ran : next.run s = .ok (reply, after)) :
    (storeOf after.cont.mmu).memory = (storeOf s.cont.mmu).memory ∧
      (storeOf after.cont.mmu).disk = (storeOf s.cont.mmu).disk := by
  cases next with
  | memory next =>
      obtain ⟨⟨bytes, machine⟩, taken, same⟩ := bind_eq_ok.mp ran
      cases same
      cases next with
      | pin addr =>
          obtain ⟨⟨present, mmu⟩, checked, same⟩ := bind_eq_ok.mp taken
          cases same
          obtain ⟨found, -, rest⟩ := bind_eq_ok.mp checked
          cases found with
          | true =>
              cases rest
              exact ⟨rfl, rfl⟩
          | false =>
              cases rest
              exact ⟨rfl, rfl⟩
      | age =>
          cases taken
          exact ⟨rfl, rfl⟩
      | service addr => exact absurd settled id
      | read addr nbytes => exact absurd settled id
      | write addr buf => exact absurd settled id
      | allocPage addr backing => exact absurd allowed id
      | freePage addr => exact absurd allowed id
      | allocBlock past => exact absurd allowed id
      | freeBlock page => exact absurd allowed id
  | _ => exact rearranges_values (step_rearranges (by simp) ran)

theorem settled_step_path (booked : ContSound (contBooks s.cont)) (settled : next.Settled)
    (allowed : next.Allowed s) (ran : next.run s = .ok (reply, after)) (code : 0 ≤ reply.code) :
    ∃ actions, Performs s next reply.code actions ∧
      Path (storeOf s.cont.mmu) actions (storeOf after.cont.mmu) := by
  have plain : ¬ next.Access := by
    cases next with
    | memory next => cases next <;> first | exact id | exact absurd settled id
    | _ => exact id
  obtain ⟨actions, performs, path⟩ := (booked_advances booked plain allowed ran code).performs
  obtain ⟨memory, disk⟩ := settled_step_values settled allowed ran
  -- Allocations and releases move frames and slots but copy no byte.
  have kept : Performs s next reply.code actions ∧ ∀ action ∈ actions, action.Settled := by
    generalize reply.code = returns at performs ⊢
    cases performs with
    | create returned first =>
        refine ⟨.create returned first, fun action member => ?_⟩
        obtain ⟨number, slot, rfl⟩ := mem_alloc_actions member
        trivial
    | dealloc =>
        refine ⟨.dealloc, fun action member => ?_⟩
        obtain ⟨number, rfl⟩ := mem_free_actions member
        trivial
    | quiet still => exact ⟨.quiet still, by simp⟩
    | load => exact absurd settled id
    | swap distinct full => exact absurd settled id
    | read => exact absurd settled id
    | write => exact absurd settled id
  exact ⟨actions, kept.1, settled_path path kept.2 rfl rfl rfl rfl memory disk⟩

theorem performs_records {frames : List Nat} (layout : Layout frames (storeOf s.cont.mmu))
    (backed : ∀ key offset value, lastByte past key offset = some value →
      backingOf s.cont.mmu key ≠ none)
    {code : Int} {actions : List ByteAction} {last : ByteStore}
    (performs : Performs s next code actions) (path : Path (storeOf s.cont.mmu) actions last)
    {key : Key} {offset : Nat} {value : BYTE}
    (here : lastByte (next :: past) key offset = some value) :
    recordAll (lastByte past) actions key offset = some value ∧ last.backing key ≠ none := by
  -- What is recorded of a page outlives every action that neither frees nor writes it.
  have unwritten : (∀ action ∈ actions, action.Spares (· = key)) →
      (∀ change, Action.write key change ∉ actions) → lastByte past key offset = some value →
      recordAll (lastByte past) actions key offset = some value ∧ last.backing key ≠ none := by
    intro spares silent before
    have used := backed key offset value before
    refine ⟨?_, path_spares (fun other own => own ▸ used) path spares key rfl⟩
    rw [path_record used path spares silent]
    exact before
  cases performs with
  | create returned first =>
      exact unwritten (alloc_spares _ _ _ _ _) (alloc_silent _ _ _ _ key) here
  | @dealloc pid =>
      have kept : lastByte (.dealloc pid :: past) key offset =
        if key.1 = pid then none else lastByte past key offset := rfl
      rw [kept] at here
      split at here
      · cases here
      · rename_i other
        refine unwritten (free_spares (fun page same => other ?_) _ _) (free_silent _ _ _ key) here
        exact congrArg Prod.fst same.symm
  | load => exact unwritten (by simp [Action.Spares]) (by simp) here
  | swap distinct full => exact unwritten (by simp [Action.Spares]) (by simp) here
  | read => exact unwritten (by simp [Action.Spares]) (by simp) here
  | @write addr buf =>
      obtain ⟨enabled, rfl⟩ := path_one path
      have kept : lastByte (.memory (.write addr buf) :: past) key offset =
        if key = addr.key then (changeOf addr buf offset).or (lastByte past key offset)
        else lastByte past key offset := rfl
      rw [kept] at here
      by_cases own : key = addr.key
      · subst own
        rw [if_pos rfl] at here
        obtain ⟨frame, held⟩ := Option.ne_none_iff_exists'.mp enabled
        obtain ⟨slot, stored⟩ := layout.backed addr.key frame held
        exact ⟨by simpa [recordAll, Action.record] using here, by simp [Action.apply, stored]⟩
      · rw [if_neg own] at here
        exact ⟨by simpa [recordAll, Action.record, own] using here, backed key offset value here⟩
  | quiet still =>
      have kept : lastByte (next :: past) key offset = lastByte past key offset := by
        cases next with
        | start pid => rfl
        | destroy id => rfl
        | create past => exact absurd still id
        | dealloc pid => exact absurd still id
        | memory next =>
            cases next with
            | pin addr => rfl
            | age => rfl
            | _ => exact absurd still id
      exact unwritten (by simp) (by simp) (kept ▸ here)

theorem access_place {mmu : Mmu} (consistent : Consistent mmu) {addr : VirtAddr} {frame count : Nat}
    (held : frameOf mmu.memIpt addr.key = some frame)
    (inPage : addr.offset + count ≤ mmu.mem.pageSize) (fits : AccessFits mmu addr) :
    memAddr mmu frame addr.offset = frame * mmu.mem.pageSize + addr.offset ∧
      frame * mmu.mem.pageSize + addr.offset + count ≤ mmu.mem.data.length := by
  have last := page_end_le mmu.mem.pageSize (consistent_frame consistent held)
  have sized := consistent.memSized
  exact ⟨Nat.mod_eq_of_lt (fits frame held), by omega⟩

theorem access_path (consistent : Consistent s.cont.mmu) (fitted : FittedStep s next)
    (access : next.Access) (ran : next.run s = .ok (reply, after)) :
    ∃ actions, Performs s next 0 actions ∧
      Path (storeOf s.cont.mmu) actions (storeOf after.cont.mmu) := by
  obtain ⟨⟨allowed, inPage⟩, fits⟩ := fitted
  cases next with
  | memory next =>
      obtain ⟨⟨bytes, machine⟩, taken, same⟩ := bind_eq_ok.mp ran
      cases same
      cases next with
      | read addr nbytes =>
          obtain ⟨frame, held⟩ := Option.ne_none_iff_exists'.mp allowed.2
          obtain ⟨place, room⟩ := access_place consistent held inPage fits
          obtain ⟨ipt, body, moved⟩ := read_body_view consistent.table held place room
          simp only [Section.run, System.machine, body, bind_eq_ok] at taken
          obtain ⟨_, -, _, same, same'⟩ := taken
          cases same
          cases same'
          refine ⟨_, .read, ?_⟩
          have view : storeOf { s.cont.mmu with memIpt := ipt } =
              (Action.read addr.key).apply (storeOf s.cont.mmu) := by
            simp only [storeOf, moved.pool]
            rfl
          change Path _ _ (storeOf { s.cont.mmu with memIpt := ipt })
          rw [view]
          exact path_single allowed.2
      | write addr buf =>
          obtain ⟨frame, held⟩ := Option.ne_none_iff_exists'.mp allowed.2
          obtain ⟨place, room⟩ := access_place consistent held inPage fits
          obtain ⟨ipt, data, body, -, moved, view⟩ :=
            write_body_view consistent.table held inPage place room
          simp only [Section.run, System.machine, body, bind_eq_ok] at taken
          obtain ⟨_, -, _, same, same'⟩ := taken
          cases same
          cases same'
          refine ⟨_, .write, ?_⟩
          change Path _ _ (storeOf { s.cont.mmu with
            memIpt := ipt
            mem := { s.cont.mmu.mem with data := data } })
          have written : storeOf { s.cont.mmu with
              memIpt := ipt
              mem := { s.cont.mmu.mem with data := data } } =
              (Action.write addr.key (changeOf addr buf)).apply (storeOf s.cont.mmu) := view.symm
          rw [written]
          exact path_single allowed.2
      | _ => exact absurd access id
  | _ => exact absurd access id

theorem read_returns (consistent : Consistent s.cont.mmu) (remembers : Remembers past s)
    {addr : VirtAddr} {nbytes : Nat} (fitted : FittedStep s (.memory (.read addr nbytes)))
    (ran : (Step.memory (.read addr nbytes)).run s = .ok (reply, after)) {i : Nat} (bound : i < nbytes)
    {value : BYTE} (written : lastByte past addr.key (addr.offset + i) = some value) :
    reply.bytes[i]? = some value := by
  obtain ⟨⟨allowed, inPage⟩, fits⟩ := fitted
  obtain ⟨frame, held⟩ := Option.ne_none_iff_exists'.mp allowed.2
  obtain ⟨place, room⟩ := access_place consistent held inPage fits
  obtain ⟨ipt, body, -⟩ := read_body_view consistent.table held place room
  obtain ⟨⟨bytes, machine⟩, taken, same⟩ := bind_eq_ok.mp ran
  simp only [Section.run, System.machine, body, bind_eq_ok] at taken
  obtain ⟨_, -, _, same', same''⟩ := taken
  cases same
  cases same'
  cases same''
  have cell := remembers.preserves.resident addr.key frame held (addr.offset + i) value written
  exact (read_in_page s.cont.mmu.mem.data inPage bound).trans cell

theorem service_remembers (consistent : Consistent s.cont.mmu)
    (booked : ContSound (contBooks s.cont)) (booked' : ContSound (contBooks after.cont))
    {addr : VirtAddr} (fitted : FittedStep s (.memory (.service addr)))
    (ran : (Step.memory (.service addr)).run s = .ok (reply, after))
    (remembers : Remembers past s) : Remembers (.memory (.service addr) :: past) after := by
  obtain ⟨⟨⟨owns, absent⟩, -⟩, fits⟩ := fitted
  have mapped : backingPage s.cont.mmu addr ≠ none := by
    rw [backingPage, backing_exact]
    exact owns_backed (s := sysBooks s) booked owns
  have missing : iptHasTranslation s.cont.mmu.memIpt addr = .ok false := by
    rw [has_translation_exact consistent.table, absent]
    rfl
  obtain ⟨prm, mmu, served, serves⟩ := service_serves consistent mapped missing fits s.prm
  simp only [Step.run, Section.run, System.machine, served, bind_ok, pure_eq_ok] at ran
  cases ran
  constructor
  · exact serves_preserves consistent booked'.mmu.table absent serves remembers.preserves
  · intro key offset value here
    have backing : backingOf mmu key = backingOf s.cont.mmu key := by
      rw [backingOf, serves.diskMap, backingOf]
    change backingOf mmu key ≠ none
    rw [backing]
    exact remembers.backed key offset value here

/-- A step that computes no wrong position forgets no byte. -/
theorem step_remembers (consistent : Consistent s.cont.mmu)
    (booked : ContSound (contBooks s.cont)) (booked' : ContSound (contBooks after.cont))
    (fitted : FittedStep s next) (ran : next.run s = .ok (reply, after)) (code : 0 ≤ reply.code)
    (remembers : Remembers past s) : Remembers (next :: past) after := by
  have layout : Layout (List.range s.cont.mmu.mem.npages) (storeOf s.cont.mmu) :=
    ⟨booked.mmu.layout.pool, booked.mmu.layout.backed, booked.mmu.layout.separate⟩
  have walked : (∃ returns actions, Performs s next returns actions ∧
      Path (storeOf s.cont.mmu) actions (storeOf after.cont.mmu)) → Remembers (next :: past) after := by
    rintro ⟨returns, actions, performs, path⟩
    have records := fun {key : Key} {offset : Nat} {value : BYTE} =>
      @performs_records s next past _ layout remembers.backed returns actions _ performs path key
        offset value
    exact ⟨preserves_mono (path_preserves layout remembers.preserves path)
      fun key offset value here => (records here).1, fun key offset value here => (records here).2⟩
  by_cases access : next.Access
  · exact walked ⟨0, access_path consistent fitted access ran⟩
  · by_cases settled : next.Settled
    · exact walked ⟨_, settled_step_path booked settled fitted.1.1 ran code⟩
    · -- what is left is the service of a fault
      cases next with
      | memory next =>
          cases next with
          | service addr => exact service_remembers consistent booked booked' fitted ran remembers
          | read addr nbytes => exact absurd trivial access
          | write addr buf => exact absurd trivial access
          | _ => exact absurd trivial settled
      | _ => exact absurd trivial settled

end Steps

theorem fitted_checked {begin s : System} {past : List Step} (run : Run FittedStep begin past s) :
    Run CheckedStep begin past s := run_mono run fun _ _ fitted => fitted.1

theorem checked_allowed {begin s : System} {past : List Step} (run : Run CheckedStep begin past s) :
    Run Step.Allowed begin past s := run_mono run fun _ _ checked => checked.1

structure Reached (size block : Nat) (past : List Step) (s : System) : Prop where
  consistent : Consistent s.cont.mmu
  booked : ContSound (contBooks s.cont)
  remembers : Remembers past s
  pageSize : s.cont.mmu.mem.pageSize = size
  prcBlkSize : s.cont.prcBlkSize = block

theorem run_reached {frames pages block : Nat} (oneFrame : 0 < frames) (onePage : 0 < pages)
    (positive : 0 < block) (size nprocs freq : Nat) {past : List Step} {s : System}
    (run : Run FittedStep (initialSystem frames pages size block nprocs freq) past s) :
    Reached size block past s := by
  have opening := @initial_books _ _ size _ oneFrame onePage positive nprocs freq
  have allowed := checked_allowed (fitted_checked run)
  obtain ⟨booked, same⟩ := run_books opening allowed
  refine ⟨run_consistent oneFrame onePage positive size nprocs freq allowed, booked, ?_,
    (run_arrays allowed).pageSize, same.prcBlkSize⟩
  clear allowed booked same
  induction run with
  | nil => exact ⟨⟨by simp [lastByte], by simp [lastByte]⟩, by simp [lastByte]⟩
  | step next before fitted ran code ih =>
      have allowed := checked_allowed (fitted_checked before)
      have booked := (run_books opening allowed).1
      have booked' := (run_books opening (allowed.step next fitted.1.1 ran code)).1
      exact step_remembers (run_consistent oneFrame onePage positive size nprocs freq allowed) booked
        booked' fitted ran code ih

end VmSim.ProcessTable
