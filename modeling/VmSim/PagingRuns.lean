import VmSim.FaultService

/-!
Interleavings of the critical sections of the MMU lock. A run lists its
sections, the latest first; `lastWritten` is what the most recent write left
at an address by that list alone. Whatever was evicted and loaded in between,
a run is a run of the demand paging store, and so every read returns the last
written bytes.
-/

namespace VmSim.PagingRuns
open PageTable DiskBlocks KeyedMap FramePool DemandPaging PagedBytes MemoryUnit PageReplacement

structure Machine where
  mmu : Mmu
  prm : PrmStatics
  deriving DecidableEq

/-- The critical sections: `pin` is the first residency check of an access and
`read` and `write` what the access does once its page is resident. -/
inductive Section where
  | allocPage (addr : VirtAddr) (backing : Nat)
  | freePage (addr : VirtAddr)
  | service (addr : VirtAddr)
  | pin (addr : VirtAddr)
  | read (addr : VirtAddr) (nbytes : Nat)
  | write (addr : VirtAddr) (buf : List BYTE)
  | age
  | allocBlock (past : Nat → PackedBitmap.Block)
  | freeBlock (page : Nat)

def Section.run (m : Machine) : Section → Outcome (List BYTE × Machine)
  | .allocPage addr backing => do
      let (_, mmu) ← mmuAllocPage m.mmu addr backing
      pure ([], { m with mmu := mmu })
  | .freePage addr => do
      let (_, mmu) ← mmuFreePage m.mmu addr
      pure ([], { m with mmu := mmu })
  | .service addr => do
      let (prm, mmu) ← prmService m.prm m.mmu addr
      pure ([], ⟨mmu, prm⟩)
  | .pin addr => do
      let (_, mmu) ← mmuPinCheck m.mmu addr
      pure ([], { m with mmu := mmu })
  | .read addr nbytes => do
      mmuReadInPage m.mmu addr nbytes
      let (bytes, mmu) ← mmuReadBody m.mmu addr nbytes
      pure (bytes, { m with mmu := mmu })
  | .write addr buf => do
      mmuWriteInPage m.mmu addr buf.length
      let mmu ← mmuWriteBody m.mmu addr buf
      pure ([], { m with mmu := mmu })
  | .age => pure ([], { m with mmu := agePages m.mmu })
  | .allocBlock past => do
      let (_, disk) ← diskAllocProcessBlock past m.mmu.disk
      pure ([], { m with mmu := { m.mmu with disk := disk } })
  | .freeBlock page => do
      let disk ← diskFreeProcessBlock m.mmu.disk page
      pure ([], { m with mmu := { m.mmu with disk := disk } })

/-- What the processes and their containers promise: distinct allocated backing
pages for as long as a page is allocated, one thread to a page, accesses inside
a page. -/
def Section.Allowed (m : Machine) : Section → Prop
  | .allocPage addr backing => backingOf m.mmu addr.key = none ∧
      (∀ key, backingOf m.mmu key ≠ some backing) ∧
      backing < m.mmu.disk.npages ∧ allocated m.mmu.disk backing = true
  | .freePage addr => backingOf m.mmu addr.key ≠ none
  | .service addr => backingOf m.mmu addr.key ≠ none ∧ frameOf m.mmu.memIpt addr.key = none
  | .pin _ => True
  | .read addr nbytes => frameOf m.mmu.memIpt addr.key ≠ none ∧
      addr.offset + nbytes ≤ m.mmu.mem.pageSize
  | .write addr buf => frameOf m.mmu.memIpt addr.key ≠ none ∧
      addr.offset + buf.length ≤ m.mmu.mem.pageSize
  | .age => True
  | .allocBlock _ => True
  | .freeBlock page => page + m.mmu.disk.processBlockSize ≤ m.mmu.disk.npages ∧
      ∀ i, page ≤ i → i < page + m.mmu.disk.processBlockSize →
        allocated m.mmu.disk i = true ∧ ∀ key, backingOf m.mmu key ≠ some i

instance (m : Machine) (next : Section) : Decidable (next.Allowed m) := by
  cases next <;> unfold Section.Allowed <;> infer_instance

inductive Run (start : Machine) : List Section → Machine → Prop where
  | nil : Run start [] start
  | step {past m bytes after} (next : Section) : Run start past m → next.Allowed m →
      next.run m = .ok (bytes, after) → Run start (next :: past) after

/-- The sections in the order they are taken, checked one by one. -/
def replay (m : Machine) : List Section → Option Machine
  | [] => some m
  | next :: rest =>
      if next.Allowed m then
        match next.run m with
        | .ok (_, after) => replay after rest
        | .error _ => none
      else none

theorem replay_run {start m last : Machine} {past sections : List Section} (run : Run start past m)
    (replayed : replay m sections = some last) : Run start (sections.reverse ++ past) last := by
  induction sections generalizing past m with
  | nil =>
      injection replayed with same
      simpa [← same] using run
  | cons next rest ih =>
      unfold replay at replayed
      split at replayed
      · rename_i allowed
        cases ran : next.run m with
        | error fault => simp [ran] at replayed
        | ok result =>
            simp only [ran] at replayed
            simpa using ih (run.step next allowed ran) replayed
      · cases replayed

def readAfter (m : Machine) (sections : List Section) (addr : VirtAddr) (nbytes : Nat) :
    Option (List BYTE) :=
  match replay m sections with
  | none => none
  | some last =>
      if (Section.read addr nbytes).Allowed last then
        match (Section.read addr nbytes).run last with
        | .ok (bytes, _) => some bytes
        | .error _ => none
      else none

theorem read_after_run {start : Machine} {sections : List Section} {addr : VirtAddr} {nbytes : Nat}
    {bytes : List BYTE} (returned : readAfter start sections addr nbytes = some bytes) :
    ∃ m after, Run start sections.reverse m ∧ (Section.read addr nbytes).Allowed m ∧
      (Section.read addr nbytes).run m = .ok (bytes, after) := by
  unfold readAfter at returned
  cases replayed : replay start sections with
  | none => simp [replayed] at returned
  | some m =>
      simp only [replayed] at returned
      split at returned
      · rename_i allowed
        cases ran : (Section.read addr nbytes).run m with
        | error fault => simp [ran] at returned
        | ok result =>
            simp only [ran, Option.some.injEq] at returned
            subst returned
            exact ⟨m, result.2, by simpa using replay_run .nil replayed, allowed, ran⟩
      · cases returned

/-- The byte the most recent write stored at an offset of a page since the page
was last allocated. -/
def lastWritten : List Section → Key → Nat → Option BYTE
  | [], _, _ => none
  | .allocPage addr _ :: past, key, offset =>
      if key = addr.key then none else lastWritten past key offset
  | .write addr buf :: past, key, offset =>
      if key = addr.key then (changeOf addr buf offset).or (lastWritten past key offset)
      else lastWritten past key offset
  | _ :: past, key, offset => lastWritten past key offset

structure Setup (mem : Mm) (disk : Disk) : Prop where
  frames : 0 < mem.npages
  samePage : disk.pageSize = mem.pageSize
  memSized : mem.data.length = mem.npages * mem.pageSize
  diskSized : disk.data.length = disk.npages * disk.pageSize
  memSmall : mem.npages * mem.pageSize < 2 ^ 31
  diskSmall : disk.npages * disk.pageSize < 2 ^ 31
  bitmap : DiskBlocks.WellFormed disk

theorem init_backing (mem : Mm) (disk : Disk) (freq : Nat) (key : Key) :
    backingOf (mmuInit mem disk freq) key = none := rfl

theorem init_sound {mem : Mm} {disk : Disk} (setup : Setup mem disk) (freq : Nat) :
    MmuSound (mmuInit mem disk freq) where
  geometry := ⟨rfl, setup.samePage, setup.memSized, setup.diskSized, setup.memSmall,
    setup.diskSmall⟩
  table := ipt_init_sound setup.frames
  map := map_init_distinct
  bitmap := setup.bitmap
  backed := by
    intro key page stored
    rw [init_backing] at stored
    cases stored
  layout := by
    refine ⟨sound_pool (ipt_init_sound setup.frames), ?_, ?_⟩
    · intro key frame held
      have absent := ipt_init_frame setup.frames key
      have held' : frameOf (iptInit mem.npages) key = some frame := held
      rw [absent] at held'
      cases held'
    · intro left right slot stored
      cases stored

/-! The disk allocator changes the bitmap alone. -/

section Blocks
variable {mmu : Mmu}

theorem alloc_block_marks {disk after : Disk} (valid : DiskBlocks.WellFormed disk)
    {past : Nat → PackedBitmap.Block} {page : Option Nat}
    (ran : diskAllocProcessBlock past disk = .ok (page, after)) :
    after = disk ∨ ∃ low high, Marked disk after low high true := by
  cases found : PackedBitmap.bitmapFirstClear past disk.allocBitmap with
  | none =>
      simp only [diskAllocProcessBlock, found] at ran
      cases ran
      exact .inl rfl
  | some first =>
      simp only [diskAllocProcessBlock, found, bind_eq_ok] at ran
      obtain ⟨enough, checked, rest⟩ := ran
      cases enough with
      | false =>
          simp at rest
          exact .inl rest.2.symm
      | true =>
          simp only [↓reduceIte, bind_eq_ok, pure_eq_ok] at rest
          obtain ⟨marked, looped, same⟩ := rest
          cases same
          unfold hasEnoughConsecutivePages at checked
          split at checked
          · cases checked
          · split at checked
            · cases checked
            · rename_i fits
              have inside := Nat.not_lt.mp fits
              obtain ⟨all, scanned, iff⟩ := pages_clear_exact valid inside
              rw [checked] at scanned
              injection scanned with one
              subst one
              have clear := iff.mp rfl
              obtain ⟨after', looped', marks⟩ := for_pages_exact allocPage true
                (fun _ _ good bound free => alloc_page_exact good bound free) valid inside (by
                  intro i low high
                  have free := clear (i - first) (by omega)
                  rwa [show first + (i - first) = i by omega] at free)
              rw [looped] at looped'
              injection looped' with same
              exact .inr ⟨_, _, same ▸ marks⟩

theorem free_block_marks {disk : Disk} (valid : DiskBlocks.WellFormed disk) {page : Nat}
    (inside : page + disk.processBlockSize ≤ disk.npages)
    (set : ∀ i, page ≤ i → i < page + disk.processBlockSize → allocated disk i = true) :
    ∃ after, diskFreeProcessBlock disk page = .ok after ∧
      Marked disk after page (page + disk.processBlockSize) false :=
  for_pages_exact freePage false
    (fun _ _ good bound taken => free_page_exact good bound (by simpa using taken)) valid inside
    (by simpa using set)

end Blocks

/-! Every section is a run of actions of the store. -/

section Simulation
variable {m : Machine}

/-- Histories of the store before a section extend over it, and what they say
was written follows the sections. -/
def Carries (m after : Machine) (next : Section) : Prop :=
  ∀ history past, Reached (List.range m.mmu.mem.npages) history (storeOf m.mmu) →
    writtenBy history = lastWritten past →
    ∃ history', Reached (List.range m.mmu.mem.npages) history' (storeOf after.mmu) ∧
      writtenBy history' = lastWritten (next :: past)

structure Advances (m after : Machine) (next : Section) : Prop where
  sound : MmuSound after.mmu
  npages : after.mmu.mem.npages = m.mmu.mem.npages
  pageSize : after.mmu.mem.pageSize = m.mmu.mem.pageSize
  carries : Carries m after next

theorem acts_advances {after : Machine} {next : Section} {action : ByteAction}
    (acts : Acts m.mmu after.mmu action)
    (record : ∀ past, action.record (lastWritten past) = lastWritten (next :: past)) :
    Advances m after next where
  sound := acts.sound
  npages := acts.npages
  pageSize := acts.pageSize
  carries := by
    intro history past reached written
    refine ⟨action :: history, ?_, ?_⟩
    · rw [acts.view]
      exact reached.step acts.enabled
    · rw [written_by_cons, written, record]

theorem still_advances {after : Machine} {next : Section} (sound : MmuSound after.mmu)
    (mem : after.mmu.mem = m.mmu.mem) (view : storeOf after.mmu = storeOf m.mmu)
    (record : ∀ past, lastWritten past = lastWritten (next :: past)) : Advances m after next where
  sound := sound
  npages := by rw [mem]
  pageSize := by rw [mem]
  carries := by
    intro history past reached written
    exact ⟨history, view ▸ reached, written.trans (record past)⟩

theorem page_size_small (sound : MmuSound m.mmu) {key : Key}
    (resident : frameOf m.mmu.memIpt key ≠ none) : m.mmu.mem.pageSize < 2 ^ 31 := by
  obtain ⟨frame, held⟩ := Option.ne_none_iff_exists'.mp resident
  have last := page_end_le m.mmu.mem.pageSize (frame_bound sound held)
  have small := sound.geometry.memSmall
  omega

theorem read_in_page_passes (small : m.mmu.mem.pageSize < 2 ^ 31) {addr : VirtAddr} {nbytes : Nat}
    (inside : addr.offset + nbytes ≤ m.mmu.mem.pageSize) :
    mmuReadInPage m.mmu addr nbytes = .ok () := by
  unfold mmuReadInPage
  rw [as_int_small (by omega), as_int_small (by omega)]
  simp only
  rw [if_neg (by omega), decide_eq_true (by omega)]
  rfl

theorem write_in_page_passes (small : m.mmu.mem.pageSize < 2 ^ 31) {addr : VirtAddr} {nbytes : Nat}
    (inside : addr.offset + nbytes ≤ m.mmu.mem.pageSize) :
    mmuWriteInPage m.mmu addr nbytes = .ok () := by
  rw [mmuWriteInPage, Nat.mod_eq_of_lt (by omega), decide_eq_true inside]
  rfl

theorem read_runs (sound : MmuSound m.mmu) {addr : VirtAddr} {frame nbytes : Nat}
    (held : frameOf m.mmu.memIpt addr.key = some frame)
    (inside : addr.offset + nbytes ≤ m.mmu.mem.pageSize) :
    ∃ after, (Section.read addr nbytes).run m = .ok
        (slice m.mmu.mem.data (frame * m.mmu.mem.pageSize + addr.offset) nbytes, after) ∧
      Acts m.mmu after.mmu (.read addr.key) := by
  have resident := Option.ne_none_iff_exists'.mpr ⟨frame, held⟩
  obtain ⟨mmu, ran, acts⟩ := read_body_exact sound held inside
  exact ⟨{ m with mmu := mmu },
    by simp [Section.run, read_in_page_passes (page_size_small sound resident) inside, ran], acts⟩

theorem write_runs (sound : MmuSound m.mmu) {addr : VirtAddr} {buf : List BYTE}
    (resident : frameOf m.mmu.memIpt addr.key ≠ none)
    (inside : addr.offset + buf.length ≤ m.mmu.mem.pageSize) :
    ∃ after, (Section.write addr buf).run m = .ok ([], after) ∧
      Acts m.mmu after.mmu (.write addr.key (changeOf addr buf)) := by
  obtain ⟨frame, held⟩ := Option.ne_none_iff_exists'.mp resident
  obtain ⟨mmu, ran, acts⟩ := write_body_exact sound held inside
  exact ⟨{ m with mmu := mmu },
    by simp [Section.run, write_in_page_passes (page_size_small sound resident) inside, ran], acts⟩

theorem service_advances (sound : MmuSound m.mmu) {addr : VirtAddr}
    (backed : backingOf m.mmu addr.key ≠ none) (absent : frameOf m.mmu.memIpt addr.key = none) :
    ∃ after, (Section.service addr).run m = .ok ([], after) ∧
      Advances m after (.service addr) ∧ frameOf after.mmu.memIpt addr.key ≠ none := by
  have arrives : ∀ {middle after : Mmu}, Acts middle after (.load addr.key) →
      frameOf after.memIpt addr.key ≠ none := by
    intro middle after loaded
    obtain ⟨pool, lent⟩ : ∃ pool, lend (storeOf middle).pool addr.key = some pool :=
      Option.ne_none_iff_exists'.mp (mt lend_none.mp loaded.enabled.2.2)
    obtain ⟨frame, rest, -, poolEq⟩ := lend_some lent
    have frames : frameOf after.memIpt addr.key = pool.frame addr.key := by
      have view : frameOf after.memIpt addr.key =
          ((Action.load addr.key).apply (storeOf middle)).pool.frame addr.key :=
        congrArg (fun s => s.pool.frame addr.key) loaded.view
      simpa only [Action.apply, lent, Option.getD_some] using view
    rw [frames, poolEq]
    simp
  by_cases full : m.mmu.memIpt.freePages = []
  · obtain ⟨victim, prm, middle, mmu, ran, -, evicted, loaded⟩ :=
      prm_service_full sound m.prm absent backed full
    refine ⟨⟨mmu, prm⟩, by simp [Section.run, ran], ⟨loaded.sound,
      loaded.npages.trans evicted.npages, loaded.pageSize.trans evicted.pageSize, ?_⟩,
      arrives loaded⟩
    intro history past reached written
    refine ⟨.load addr.key :: .evict victim :: history, ?_, written⟩
    -- The service of a full table is two actions, and each has its place in the history.
    have first := reached.step evicted.enabled
    rw [← evicted.view] at first
    have second := first.step loaded.enabled
    rw [← loaded.view] at second
    exact second
  · obtain ⟨mmu, ran, loaded⟩ := prm_service_free sound m.prm ⟨absent, backed, full⟩
    exact ⟨⟨mmu, m.prm⟩, by simp [Section.run, ran], acts_advances loaded fun _ => rfl,
      arrives loaded⟩

theorem section_runs (sound : MmuSound m.mmu) {next : Section} (allowed : next.Allowed m)
    (mmuSection : ∀ past, next ≠ .allocBlock past) :
    ∃ bytes after, next.run m = .ok (bytes, after) ∧ Advances m after next := by
  cases next with
  | allocPage addr backing =>
      obtain ⟨unbacked, fresh, bound, set⟩ := allowed
      obtain ⟨mmu, ran, acts⟩ := alloc_page_exact sound ⟨unbacked, fresh⟩ bound set
      refine ⟨[], { m with mmu := mmu }, by simp [Section.run, ran], acts_advances acts ?_⟩
      intro past
      funext key offset
      simp only [Action.record, lastWritten, Function.update_apply]
      split <;> rfl
  | freePage addr =>
      obtain ⟨mmu, ran, acts⟩ := free_page_exact sound allowed
      exact ⟨[], { m with mmu := mmu }, by simp [Section.run, ran], acts_advances acts fun _ => rfl⟩
  | service addr =>
      obtain ⟨after, ran, advances, -⟩ := service_advances sound allowed.1 allowed.2
      exact ⟨[], after, ran, advances⟩
  | pin addr =>
      obtain ⟨stats, checked⟩ := pin_check_exact sound.table addr
      exact ⟨[], { m with mmu := { m.mmu with stats := stats } }, by simp [Section.run, checked],
        still_advances (stats_sound sound stats) rfl rfl fun _ => rfl⟩
  | read addr nbytes =>
      obtain ⟨frame, held⟩ := Option.ne_none_iff_exists'.mp allowed.1
      obtain ⟨after, ran, acts⟩ := read_runs sound held allowed.2
      exact ⟨_, after, ran, acts_advances acts fun _ => rfl⟩
  | write addr buf =>
      obtain ⟨after, ran, acts⟩ := write_runs sound allowed.1 allowed.2
      refine ⟨[], after, ran, acts_advances acts ?_⟩
      intro past
      funext key offset
      simp only [Action.record, lastWritten, Function.update_apply]
      split
      · rename_i same
        rw [same]
      · rfl
  | age =>
      obtain ⟨aged, view⟩ := age_pages_exact sound
      exact ⟨[], { m with mmu := agePages m.mmu }, rfl, still_advances aged rfl view fun _ => rfl⟩
  | allocBlock past => exact absurd rfl (mmuSection past)
  | freeBlock page =>
      obtain ⟨inside, taken⟩ := allowed
      obtain ⟨disk, ran, marked⟩ := free_block_marks sound.bitmap inside
        fun i low high => (taken i low high).1
      obtain ⟨kept, view⟩ := marked_sound sound marked fun _ i low high => (taken i low high).2
      exact ⟨[], { m with mmu := { m.mmu with disk := disk } }, by simp [Section.run, ran],
        still_advances kept rfl view fun _ => rfl⟩

theorem alloc_block_advances (sound : MmuSound m.mmu) {past : Nat → PackedBitmap.Block}
    {bytes : List BYTE} {after : Machine}
    (ran : (Section.allocBlock past).run m = .ok (bytes, after)) :
    Advances m after (.allocBlock past) := by
  simp only [Section.run, bind_eq_ok, pure_eq_ok, Except.ok.injEq, Prod.mk.injEq] at ran
  obtain ⟨⟨page, disk⟩, allocated, -, rfl⟩ := ran
  rcases alloc_block_marks sound.bitmap allocated with rfl | ⟨low, high, marked⟩
  · exact still_advances sound rfl rfl fun _ => rfl
  · obtain ⟨kept, view⟩ := marked_sound sound marked (by simp)
    exact still_advances kept rfl view fun _ => rfl

theorem step_advances (sound : MmuSound m.mmu) {next : Section} {bytes : List BYTE}
    {after : Machine} (allowed : next.Allowed m) (ran : next.run m = .ok (bytes, after)) :
    Advances m after next := by
  by_cases block : ∃ past, next = .allocBlock past
  · obtain ⟨past, rfl⟩ := block
    exact alloc_block_advances sound ran
  · obtain ⟨bytes', after', ran', advances⟩ :=
      section_runs sound allowed fun past same => block ⟨past, same⟩
    rw [ran] at ran'
    cases ran'
    exact advances

theorem run_preserves {start : Machine} {history : List ByteAction} {past : List Section}
    (sound : MmuSound start.mmu)
    (reached : Reached (List.range start.mmu.mem.npages) history (storeOf start.mmu))
    (unwritten : writtenBy history = lastWritten []) (run : Run start past m) :
    MmuSound m.mmu ∧ Preserves (lastWritten past) (storeOf m.mmu) := by
  have carried : MmuSound m.mmu ∧ m.mmu.mem.npages = start.mmu.mem.npages ∧
      ∃ history', Reached (List.range start.mmu.mem.npages) history' (storeOf m.mmu) ∧
        writtenBy history' = lastWritten past := by
    induction run with
    | nil => exact ⟨sound, rfl, history, reached, unwritten⟩
    | step next _ allowed ran ih =>
        obtain ⟨before, pages, history', reached', written⟩ := ih
        have advances := step_advances before allowed ran
        have carries := advances.carries
        rw [Carries, pages] at carries
        exact ⟨advances.sound, advances.npages.trans pages, carries history' _ reached' written⟩
  obtain ⟨kept, -, history', reached', written⟩ := carried
  exact ⟨kept, written ▸ reached_preserves reached'⟩

theorem read_bytes (sound : MmuSound m.mmu) {addr : VirtAddr} {frame nbytes : Nat}
    (held : frameOf m.mmu.memIpt addr.key = some frame)
    (inside : addr.offset + nbytes ≤ m.mmu.mem.pageSize) :
    ∃ bytes after, (Section.read addr nbytes).run m = .ok (bytes, after) ∧
      bytes.length = nbytes ∧
      ∀ i, i < nbytes → bytes[i]? = (storeOf m.mmu).memory frame (addr.offset + i) := by
  obtain ⟨after, ran, -⟩ := read_runs sound held inside
  have fits := (frame_fits sound.geometry (frame_bound sound held) inside).2
  exact ⟨_, after, ran, slice_length fits, fun i bound => read_in_page _ inside bound⟩

theorem read_after_write (sound : MmuSound m.mmu) {addr other : VirtAddr} {buf : List BYTE}
    {nbytes : Nat} (written : (Section.write addr buf).Allowed m)
    (reads : (Section.read other nbytes).Allowed m)
    (apart : other.key ≠ addr.key ∨ other.offset + nbytes ≤ addr.offset ∨
      addr.offset + buf.length ≤ other.offset) :
    ∃ after bytes left right, (Section.write addr buf).run m = .ok ([], after) ∧
      (Section.read other nbytes).run m = .ok (bytes, left) ∧
      (Section.read other nbytes).run after = .ok (bytes, right) := by
  obtain ⟨frame, held⟩ := Option.ne_none_iff_exists'.mp reads.1
  obtain ⟨after, wrote, acts⟩ := write_runs sound written.1 written.2
  have held' : frameOf after.mmu.memIpt other.key = some frame := by
    have frames : frameOf after.mmu.memIpt other.key = frameOf m.mmu.memIpt other.key :=
      congrArg (fun s => s.pool.frame other.key) acts.view
    rw [frames, held]
  have inside : other.offset + nbytes ≤ after.mmu.mem.pageSize := by
    rw [acts.pageSize]
    exact reads.2
  obtain ⟨bytes, left, before, length, cells⟩ := read_bytes sound held reads.2
  obtain ⟨bytes', right, later, length', cells'⟩ := read_bytes acts.sound held' inside
  have same : bytes' = bytes := by
    apply List.ext_getElem?
    intro i
    by_cases bound : i < nbytes
    -- The ranges are on different pages or apart on the same one.
    · rw [cells i bound, cells' i bound, acts.view]
      apply write_elsewhere sound.layout held
      refine apart.imp_right fun separate => ?_
      rw [changeOf, if_neg (by omega)]
    · rw [List.getElem?_eq_none (by omega), List.getElem?_eq_none (by omega)]
  exact ⟨after, bytes, left, right, wrote, before, same ▸ later⟩

end Simulation

/-- In every state of every run the sections of the MMU succeed, a fault brings
its page in, a read returns the last written bytes and a write leaves every
other address alone. -/
theorem paging_preserves_written {mem : Mm} {disk : Disk} (setup : Setup mem disk) (freq : Nat)
    (prm : PrmStatics) {past : List Section} {m : Machine}
    (run : Run ⟨mmuInit mem disk freq, prm⟩ past m) :
    (∀ next : Section, next.Allowed m → (∀ table, next ≠ .allocBlock table) →
      ∃ bytes after, next.run m = .ok (bytes, after)) ∧
    (∀ addr : VirtAddr, (Section.service addr).Allowed m →
      ∃ after, (Section.service addr).run m = .ok ([], after) ∧
        frameOf after.mmu.memIpt addr.key ≠ none) ∧
    (∀ (addr : VirtAddr) (nbytes : Nat), (Section.read addr nbytes).Allowed m →
      ∃ bytes after, (Section.read addr nbytes).run m = .ok (bytes, after) ∧
        bytes.length = nbytes ∧
        ∀ i value, i < nbytes → lastWritten past addr.key (addr.offset + i) = some value →
          bytes[i]? = some value) ∧
    ∀ (addr other : VirtAddr) (buf : List BYTE) (nbytes : Nat),
      (Section.write addr buf).Allowed m → (Section.read other nbytes).Allowed m →
      (other.key ≠ addr.key ∨ other.offset + nbytes ≤ addr.offset ∨
        addr.offset + buf.length ≤ other.offset) →
      ∃ after bytes left right, (Section.write addr buf).run m = .ok ([], after) ∧
        (Section.read other nbytes).run m = .ok (bytes, left) ∧
        (Section.read other nbytes).run after = .ok (bytes, right) := by
  have opening : Reached (List.range mem.npages) []
      (storeOf (mmuInit mem disk freq)) :=
    .start (sound_pool (ipt_init_sound setup.frames)) (ipt_init_frame setup.frames)
      (init_backing mem disk freq)
  obtain ⟨sound, preserves⟩ := run_preserves (init_sound setup freq) opening rfl run
  refine ⟨?_, ?_, ?_, ?_⟩
  · intro next allowed mmuSection
    obtain ⟨bytes, after, ran, -⟩ := section_runs sound allowed mmuSection
    exact ⟨bytes, after, ran⟩
  · intro addr allowed
    obtain ⟨after, ran, -, resident⟩ := service_advances sound allowed.1 allowed.2
    exact ⟨after, ran, resident⟩
  · intro addr nbytes allowed
    obtain ⟨frame, held⟩ := Option.ne_none_iff_exists'.mp allowed.1
    obtain ⟨bytes, after, ran, length, cells⟩ := read_bytes sound held allowed.2
    refine ⟨bytes, after, ran, length, fun i value bound written => ?_⟩
    rw [cells i bound]
    exact preserves.resident addr.key frame held _ value written
  · intro addr other buf nbytes written reads apart
    exact read_after_write sound written reads apart

theorem init_setup {frames pages size block : Nat} (oneFrame : 0 < frames) (onePage : 0 < pages)
    (memSmall : frames * size < 2 ^ 31) (diskSmall : pages * size < 2 ^ 31) :
    Setup (mmInit frames size) (diskInit pages size block) where
  frames := oneFrame
  samePage := rfl
  memSized := List.length_replicate
  diskSized := List.length_replicate
  memSmall := memSmall
  diskSmall := diskSmall
  bitmap := disk_init_wellformed pages size block onePage

def smallMachine : Machine := ⟨mmuInit (mmInit 1 1) (diskInit 2 1 1) 1, prmStatics⟩

/-- Page 2 takes the only frame from page 1, which is then deleted and leaves
its disk page to page 3. -/
def reuseRun (writes : List Section) : List Section :=
  [.allocBlock fun _ => 0, .allocBlock fun _ => 0, .allocPage ⟨1, 0, 0⟩ 0] ++ writes ++
    [.allocPage ⟨2, 0, 0⟩ 1, .service ⟨2, 0, 0⟩, .freePage ⟨1, 0, 0⟩, .allocPage ⟨3, 0, 0⟩ 0,
      .service ⟨3, 0, 0⟩]

/-- A page written, swapped out and brought back still reads as written. -/
theorem paging_preserves_written_swapped :
    ∃ m after, Run smallMachine ([.service ⟨1, 0, 0⟩, .service ⟨2, 0, 0⟩, .allocPage ⟨2, 0, 0⟩ 1,
        .write ⟨1, 0, 0⟩ [7], .allocPage ⟨1, 0, 0⟩ 0, .allocBlock fun _ => 0,
        .allocBlock fun _ => 0] : List Section) m ∧
      (Section.read ⟨1, 0, 0⟩ 1).run m = .ok ([7], after) := by
  obtain ⟨m, -, run, allowed, -⟩ := read_after_run
    (by decide : readAfter smallMachine [.allocBlock fun _ => 0, .allocBlock fun _ => 0,
      .allocPage ⟨1, 0, 0⟩ 0, .write ⟨1, 0, 0⟩ [7], .allocPage ⟨2, 0, 0⟩ 1, .service ⟨2, 0, 0⟩,
      .service ⟨1, 0, 0⟩] ⟨1, 0, 0⟩ 1 = some [7])
  obtain ⟨-, -, reads, -⟩ := paging_preserves_written
    (init_setup (by decide) (by decide) (by decide) (by decide)) 1 prmStatics run
  obtain ⟨bytes, after, ran, length, cells⟩ := reads _ _ allowed
  have first : bytes[0]? = some 7 := cells 0 7 (by decide) (by decide)
  have one : bytes = [7] := by
    apply List.ext_getElem?
    intro i
    cases i with
    | zero => exact first
    | succ i => simp [length]
  exact ⟨m, after, run, one ▸ ran⟩

/-- A page that was never written reads what a deleted page wrote to its disk page. -/
theorem write_read_through_reuse :
    ¬ ∀ (later past : List Section) (addr other : VirtAddr) (buf : List BYTE) (nbytes : Nat)
      (left right : Machine) (leftBytes rightBytes : List BYTE) (leftAfter rightAfter : Machine),
      Run smallMachine (later ++ past) left →
      Run smallMachine (later ++ .write addr buf :: past) right → other.key ≠ addr.key →
      (Section.read other nbytes).Allowed left → (Section.read other nbytes).Allowed right →
      (Section.read other nbytes).run left = .ok (leftBytes, leftAfter) →
      (Section.read other nbytes).run right = .ok (rightBytes, rightAfter) →
      leftBytes = rightBytes := by
  intro unchanged
  obtain ⟨left, leftAfter, silent, reads, zero⟩ := read_after_run
    (by decide : readAfter smallMachine (reuseRun []) ⟨3, 0, 0⟩ 1 = some [0])
  obtain ⟨right, rightAfter, writing, reads', seven⟩ := read_after_run
    (by decide : readAfter smallMachine (reuseRun [.write ⟨1, 0, 0⟩ [7]]) ⟨3, 0, 0⟩ 1 = some [7])
  have same := unchanged
    [.service ⟨3, 0, 0⟩, .allocPage ⟨3, 0, 0⟩ 0, .freePage ⟨1, 0, 0⟩, .service ⟨2, 0, 0⟩,
      .allocPage ⟨2, 0, 0⟩ 1]
    [.allocPage ⟨1, 0, 0⟩ 0, .allocBlock fun _ => 0, .allocBlock fun _ => 0]
    ⟨1, 0, 0⟩ ⟨3, 0, 0⟩ [7] 1 left right [0] [7] leftAfter rightAfter silent writing (by decide)
    reads reads' zero seven
  exact absurd same (by decide)

end VmSim.PagingRuns
