import VmSim.Library.Leases
import VmSim.ThreadMail
import VmSim.ThreadMemory

/-!
The memory under the threads. Every process, and the UI while it creates one, has a
lease on a block of the disk that its place tells; what a thread has found out about
pages under the lock of the MMU stays true until it gives the lock back, and a page
that a command asks for stays unmapped until the PRM maps it.
-/

namespace VmSim.ThreadCode
open LockedThreads Interleaving PageTable DiskBlocks KeyedMap MemoryUnit PageReplacement PagingRuns
open FramePool DemandPaging BlockAllocator Leases

abbrev Shared.store (sh : Shared) : ByteStore := storeOf sh.machine.mmu

/-- The access stays inside one page of the process with this number. -/
structure Proper (blk size pid : Nat) (a : Access) : Prop where
  pid : a.addr.pid = pid
  page : a.addr.page < blk
  inside : a.addr.offset + a.nbytes ≤ size

/-! What a thread knows of pages where it stands. -/

def Absent (st : ByteStore) (addr : VirtAddr) : Prop := st.pool.frame addr.key = none

def Resident (st : ByteStore) (addr : VirtAddr) : Prop := st.pool.frame addr.key ≠ none

def Dirtied (st : ByteStore) (a : Access) : Prop := a.writes = true → st.pool.dirty a.addr.key = true

def AccessPc.Knows (st : ByteStore) (a : Access) : AccessPc → Prop
  | .counting true _ => Resident st a.addr
  | .counting false _ => Absent st a.addr
  | .faulting => Absent st a.addr
  | .requesting => Absent st a.addr
  | .pushing _ .want => Absent st a.addr
  | .pushing _ .inside => Absent st a.addr
  | .referencing .leave => Resident st a.addr ∧ Dirtied st a
  | .referencing _ => Resident st a.addr
  | .copying => Resident st a.addr ∧ Dirtied st a
  | _ => True

def ProcessPc.Knows (st : ByteStore) (place : ProcessPc) : Prop :=
  match place.pc with
  | .access a _ pc => pc.Knows st a
  | _ => True

structure Victim (st : ByteStore) (addr victim : VirtAddr) : Prop where
  other : victim.key ≠ addr.key
  resident : Resident st victim

def ServicePc.Knows (st : ByteStore) (addr : VirtAddr) : ServicePc → Prop
  | .acquiring => Absent st addr
  | .mapping => Absent st addr
  | .choosing => Absent st addr ∧ st.pool.free = []
  | .testing victim => Absent st addr ∧ Victim st addr victim
  | .syncing victim _ => Absent st addr ∧ Victim st addr victim
  | .unmapping victim => Absent st addr ∧ Victim st addr victim
  | .remapping => Absent st addr ∧ st.pool.free ≠ []
  | .loading .leave => True
  | .loading _ => Resident st addr
  | .releasing => True

def PrmPc.Knows (st : ByteStore) (c : Control) : PrmPc → Prop
  | .unlocking cmd => Absent st (c.command cmd).addr
  | .fetching cmd => Absent st (c.command cmd).addr
  | .serving _ addr pc => pc.Knows st addr
  | _ => True

/-! Whose the blocks of the disk are. -/

def DeallocPc.lease (pid start blk : Nat) : DeallocPc → Option Lease
  | .freeing page => some ⟨pid, start, page, blk⟩
  | .freeingPage page .leave => some ⟨pid, start, page + 1, blk⟩
  | .freeingPage page _ => some ⟨pid, start, page, blk⟩
  | .freeingBlock .leave => none
  | .freeingBlock _ => some ⟨pid, start, blk, blk⟩
  | .marking => none
  | .signalling => none
  | .unlocking => none
  | _ => some ⟨pid, start, 0, blk⟩

def WorkerPc.lease (pid start blk : Nat) : WorkerPc → Option Lease
  | .dealloc pc => pc.lease pid start blk
  | .lowering => none
  | .gone => none
  | _ => some ⟨pid, start, 0, blk⟩

def ProcessPc.lease (blk : Nat) (c : Control) (place : ProcessPc) : Option Lease :=
  place.pc.lease place.pid (c.slot place.pid).diskBlockStart blk

def CreatePc.lease (blk : Nat) (c : Control) : CreatePc → Option Lease
  | .allocating i (some page) .leave => some ⟨i, page, 0, 0⟩
  | .mapping i page k => some ⟨i, page, 0, k⟩
  | .mappingPage i page k .leave => some ⟨i, page, 0, k + 1⟩
  | .mappingPage i page k _ => some ⟨i, page, 0, k⟩
  | .filling i page => some ⟨i, page, 0, blk⟩
  | .unlocking i => some ⟨i, (c.slot i).diskBlockStart, 0, blk⟩
  | .spawning i => some ⟨i, (c.slot i).diskBlockStart, 0, blk⟩
  | _ => none

def UiPc.lease (blk : Nat) (c : Control) : UiPc → Option Lease
  | .creating _ pc => pc.lease blk c
  | _ => none

/-- The leases of the UI, which is `none`, and of the threads of the processes. -/
def leaseOf (blk : Nat) (procs : Nat → ProcessPc) (ui : UiPc) (c : Control) :
    Option Nat → Option Lease
  | none => ui.lease blk c
  | some n => (procs n).lease blk c

/-- The live blocks are the leased ones, and they back what their owners have. -/
def Housed (blk : Nat) (procs : Nat → ProcessPc) (ui : UiPc) (sh : Shared) : Prop :=
  ∃ live, Owned live sh.machine.mmu.disk ∧
    Leased blk sh.machine.mmu.disk.npages live (leaseOf blk procs ui sh.control)
      (backingOf sh.machine.mmu)

structure Sized (blk size : Nat) (sh : Shared) : Prop where
  blocks : sh.machine.mmu.disk.processBlockSize = blk
  processes : sh.control.prcBlkSize = blk
  pages : sh.machine.mmu.mem.pageSize = size
  small : sh.machine.mmu.disk.npages + blk ≤ 2 ^ 31

/-- Pages are freed, and mapped for a new process, below the size of a block. -/
def ProcessPc.Counts (blk : Nat) (place : ProcessPc) : Prop :=
  match place.pc with
  | .dealloc (.freeingPage page _) => page < blk
  | _ => True

def UiPc.Counts (blk : Nat) : UiPc → Prop
  | .creating _ (.mappingPage _ _ k _) => k < blk
  | _ => True

structure Paged (blk size : Nat) (procs : Nat → ProcessPc) (ui : UiPc) (prm : PrmPc) (sh : Shared) :
    Prop where
  sound : MmuSound sh.machine.mmu
  sized : Sized blk size sh
  housed : Housed blk procs ui sh
  counts : ∀ n, (procs n).Counts blk
  counting : ui.Counts blk
  queued : ∀ cmd ∈ sh.control.queue, Absent sh.store (sh.control.command cmd).addr
  process : ∀ n, (procs n).Knows sh.store
  service : prm.Knows sh.store sh.control

/-! What the written bytes are where. -/

def ServicePc.Holds (written : Key → Nat → Option BYTE) (st : ByteStore) (addr : VirtAddr) :
    ServicePc → Prop
  | .syncing victim .leave => Preserves written st ∧ Flushed written st victim.key
  | .unmapping victim => Preserves written st ∧ Flushed written st victim.key
  | .loading .want => PreservesBut written st addr.key
  | .loading .inside => PreservesBut written st addr.key
  | _ => Preserves written st

/-- The written bytes are in frames and on the disk, up to what the PRM is about. -/
def PrmPc.Holds (written : Key → Nat → Option BYTE) (st : ByteStore) : PrmPc → Prop
  | .serving _ addr pc => pc.Holds written st addr
  | _ => Preserves written st

def ProcessPc.action (place : ProcessPc) : Option ByteAction :=
  match place.pc with
  | .access (.write addr buf) _ .copying => some (.write addr.key (changeOf addr buf))
  | _ => none

def UiPc.action : UiPc → Option ByteAction
  | .creating _ (.mappingPage i page k .inside) => some (.alloc (i, k) (page + k))
  | _ => none

def recorded (written : Key → Nat → Option BYTE) : Option ByteAction → Key → Nat → Option BYTE
  | none => written
  | some action => action.record written

/-! What the steps of one thread leave the others. -/

/-- What a step may do to frames: nothing without the lock of the MMU, marks under it,
and with the lock for writing pages come only under the keys it `gains`. -/
structure StoreStep (claims : List (Lock × Mode)) (gains : Key → Prop) (st st' : ByteStore) : Prop where
  apart : (∀ mode, (Lock.mmu, mode) ∉ claims) → st' = st
  frames : (Lock.mmu, Mode.write) ∉ claims → st'.pool.frame = st.pool.frame
  marks : (Lock.mmu, Mode.write) ∉ claims → ∀ key, st.pool.dirty key = true → st'.pool.dirty key = true
  gains : ∀ key, ¬ gains key → st.pool.frame key = none → st'.pool.frame key = none

section Others
variable {claims : List (Lock × Mode)} {gains : Key → Prop} {st st' : ByteStore} {c c' : Control}

theorem store_still : StoreStep claims gains st st := ⟨fun _ => rfl, fun _ => rfl, fun _ _ => id, fun _ _ => id⟩

/-- What a process has found under the MMU's lock holds on, and so does a page's absence. -/
theorem process_knows (step : StoreStep claims gains st st') {place : ProcessPc}
    (firm : (Lock.mmu, Mode.read) ∈ place.claims → (Lock.mmu, Mode.write) ∉ claims)
    (spares : ∀ a rest pc, place.pc = .access a rest pc → pc.asked = none → ¬ gains a.addr.key)
    (knows : place.Knows st) : place.Knows st' := by
  obtain ⟨pid, pc⟩ := place
  cases pc with
  | access a rest pc =>
      have absent : pc.asked = none → Absent st a.addr → Absent st' a.addr := fun unasked =>
        step.gains a.addr.key (spares a rest pc rfl unasked)
      have resident : (Lock.mmu, Mode.read) ∈ pc.claims → Resident st a.addr → Resident st' a.addr :=
        fun claimed held => by rwa [Resident, step.frames (firm claimed)]
      have marked : (Lock.mmu, Mode.read) ∈ pc.claims → Dirtied st a → Dirtied st' a :=
        fun claimed marked writes => step.marks (firm claimed) _ (marked writes)
      cases pc with
      | counting hit phase =>
          cases hit with
          | true => exact resident (by cases phase <;> simp [AccessPc.claims, Phase.claims]) knows
          | false => exact absent rfl knows
      | faulting => exact absent rfl knows
      | requesting => exact absent rfl knows
      | pushing cmd phase =>
          cases phase with
          | leave => trivial
          | want => exact absent rfl knows
          | inside => exact absent rfl knows
      | referencing phase =>
          have claimed : (Lock.mmu, Mode.read) ∈ AccessPc.claims (.referencing phase) := by
            cases phase <;> simp [AccessPc.claims, Phase.claims]
          cases phase with
          | leave => exact ⟨resident claimed knows.1, marked claimed knows.2⟩
          | want => exact resident claimed knows
          | inside => exact resident claimed knows
      | copying =>
          have claimed : (Lock.mmu, Mode.read) ∈ AccessPc.claims .copying := by simp [AccessPc.claims]
          exact ⟨resident claimed knows.1, marked claimed knows.2⟩
      | _ => trivial
  | _ => trivial

theorem service_claims {pc : ServicePc} (begun : pc ≠ .acquiring) :
    (Lock.mmu, Mode.write) ∈ pc.claims := by
  cases pc with
  | acquiring => exact absurd rfl begun
  | syncing victim phase => cases phase <;> simp [ServicePc.claims, Phase.claims]
  | loading phase => cases phase <;> simp [ServicePc.claims, Phase.claims]
  | _ => simp [ServicePc.claims]

theorem prm_knows (step : StoreStep claims gains st st') {prm : PrmPc}
    (firm : (Lock.mmu, Mode.write) ∈ prm.claims → ∀ mode, (Lock.mmu, mode) ∉ claims)
    (commands : ∀ cmd, prm.command = some cmd → (c'.command cmd).addr = (c.command cmd).addr)
    (spares : ∀ cmd addr, prm.command = some cmd → (c.command cmd).addr = addr → ¬ gains addr.key)
    (serves : ∀ cmd addr pc, prm = .serving cmd addr pc → (c.command cmd).addr = addr)
    (knows : prm.Knows st c) : prm.Knows st' c' := by
  have absent : ∀ cmd addr, prm.command = some cmd → (c.command cmd).addr = addr →
      Absent st addr → Absent st' addr := fun cmd addr command there =>
    step.gains addr.key (spares cmd addr command there)
  cases prm with
  | unlocking cmd =>
      rw [PrmPc.Knows, commands cmd rfl]
      exact absent cmd _ rfl rfl knows
  | fetching cmd =>
      rw [PrmPc.Knows, commands cmd rfl]
      exact absent cmd _ rfl rfl knows
  | serving cmd addr pc =>
      by_cases acquires : pc = .acquiring
      · rw [acquires] at knows ⊢
        exact absent cmd addr rfl (serves cmd addr pc rfl) knows
      · have claimed : (Lock.mmu, Mode.write) ∈ PrmPc.claims (.serving cmd addr pc) :=
          service_claims acquires
        have same : st' = st := step.apart (firm claimed)
        rw [same]
        exact knows
  | _ => trivial

/-- Without the MMU the PRM has the written bytes where they belong. -/
theorem plain_holds {prm : PrmPc} (free : (Lock.mmu, Mode.write) ∉ prm.claims)
    (written : Key → Nat → Option BYTE) (st : ByteStore) :
    prm.Holds written st ↔ Preserves written st := by
  cases prm with
  | serving cmd addr pc =>
      by_cases acquires : pc = .acquiring
      · rw [acquires]
        exact Iff.rfl
      · exact absurd (service_claims acquires) free
  | _ => exact Iff.rfl

theorem lease_same {blk : Nat} {procs procs' : Nat → ProcessPc} {ui ui' : UiPc}
    (mine : ui'.lease blk c' = ui.lease blk c)
    (process : ∀ n, (procs' n).lease blk c' = (procs n).lease blk c) :
    leaseOf blk procs' ui' c' = leaseOf blk procs ui c := by
  funext owner
  cases owner with
  | none => exact mine
  | some n => exact process n

def SameStarts (c c' : Control) : Prop :=
  ∀ i, (c'.slot i).diskBlockStart = (c.slot i).diskBlockStart

theorem process_lease_starts {blk : Nat} (same : SameStarts c c') (place : ProcessPc) :
    place.lease blk c' = place.lease blk c := by
  rw [ProcessPc.lease, ProcessPc.lease, same]

theorem ui_lease_starts {blk : Nat} (same : SameStarts c c') (ui : UiPc) :
    ui.lease blk c' = ui.lease blk c := by
  cases ui with
  | creating past pc =>
      cases pc with
      | unlocking i => simp only [UiPc.lease, CreatePc.lease, same i]
      | spawning i => simp only [UiPc.lease, CreatePc.lease, same i]
      | allocating i page phase => cases page <;> cases phase <;> rfl
      | mappingPage i page k phase => cases phase <;> rfl
      | _ => rfl
  | _ => rfl

theorem set_slot_starts {sh : Shared} {i : Nat} {slot : Slot}
    (same : slot.diskBlockStart = (sh.control.slot i).diskBlockStart) :
    SameStarts sh.control (sh.setSlot i slot).control := by
  intro j
  by_cases own : j = i
  · subst own
    rw [set_slot_self]
    exact same
  · rw [set_slot_other own]

theorem housed_leaves {blk : Nat} {procs procs' : Nat → ProcessPc} {ui ui' : UiPc} {sh sh' : Shared}
    (housed : Housed blk procs ui sh) (leaves : Leaves sh.machine.mmu sh'.machine.mmu st)
    (backing : st.backing = sh.store.backing)
    (leases : leaseOf blk procs' ui' sh'.control = leaseOf blk procs ui sh.control) :
    Housed blk procs' ui' sh' := by
  obtain ⟨live, owned, leased⟩ := housed
  have same : backingOf sh'.machine.mmu = backingOf sh.machine.mmu :=
    (congrArg Store.backing leaves.view).trans backing
  refine ⟨live, leaves_owned leaves owned, ?_⟩
  rw [leases, same, leaves.shape.diskPages]
  exact leased

theorem sized_leaves {blk size : Nat} {sh sh' : Shared} (sized : Sized blk size sh)
    (shape : SameShape sh.machine.mmu sh'.machine.mmu)
    (processes : sh'.control.prcBlkSize = sh.control.prcBlkSize) : Sized blk size sh' where
  blocks := shape.blockSize.trans sized.blocks
  processes := processes.trans sized.processes
  pages := shape.pageSize.trans sized.pages
  small := by
    rw [shape.diskPages]
    exact sized.small

end Others

end VmSim.ThreadCode
