import VmSim.PageTable
import VmSim.DiskBlocks
import VmSim.KeyedMap

/-!
vmsim/mmu.c and the data of vmsim/mm.c. Each function below is one critical
section of the MMU lock, so the locks themselves are left out; `mmuReadBody`
and `mmuWriteBody` are what `mmu_read` and `mmu_write` do between the pin of
the page and the release of the lock. Positions in the memory are `unsigned`
and wrap at 32 bits, positions on the disk are `int` (see `getPageStart`).
-/

namespace VmSim.MemoryUnit
open PageTable DiskBlocks KeyedMap

structure Mm where
  data : List BYTE
  npages : Nat
  pageSize : Nat
  deriving DecidableEq, Repr

def mmInit (npages pagesize : Nat) : Mm :=
  { data := List.replicate (npages * pagesize) 0
    npages := npages
    pageSize := pagesize }

structure MmuStats where
  nrefs : Nat
  hits : Nat
  deriving DecidableEq, Repr

structure Mmu where
  mem : Mm
  disk : Disk
  memIpt : Ipt
  diskMap : AssocMap VirtAddr Nat
  agingFreq : Nat
  stats : MmuStats
  deriving DecidableEq

/-- Nonzero on different pages: the offset is not compared. -/
def diskMapComparator (k1 k2 : VirtAddr) : Bool := !virtAddrPageEq k1 k2

def mmuInit (mem : Mm) (disk : Disk) (agingFreq : Nat) : Mmu :=
  { mem := mem
    disk := disk
    memIpt := iptInit mem.npages
    diskMap := mapInit
    agingFreq := agingFreq
    stats := ⟨0, 0⟩ }

def backingPage (mmu : Mmu) (addr : VirtAddr) : Option Nat :=
  mapGet diskMapComparator mmu.diskMap addr

def mmuMapPage (mmu : Mmu) (addr : VirtAddr) : Outcome (Errcode × Mmu) := do
  let present ← iptHasTranslation mmu.memIpt addr
  assert .mmuMapPage (!present)
  let (errcode, ipt) ← iptAdd mmu.memIpt addr
  pure (errcode, { mmu with memIpt := ipt })

/-- The code of `mmu_map_page` is dropped: without a free frame the page lives
on the disk alone. -/
def mmuAllocPage (mmu : Mmu) (addr : VirtAddr) (backing : Nat) : Outcome (Errcode × Mmu) := do
  let (_, mmu) ← mmuMapPage mmu addr
  assert .mmuAllocPage (mapGet diskMapComparator mmu.diskMap addr).isNone
  let (errcode, diskMap) := mapSet diskMapComparator mmu.diskMap addr backing
  assert .mmuAllocPage (errcode = .ecSuccess)
  pure (errcode, { mmu with diskMap := diskMap })

def mmuUnmapPage (mmu : Mmu) (page : VirtAddr) : Outcome (Errcode × Mmu) := do
  let (errcode, ipt) ← iptRemove mmu.memIpt page
  assert .mmuUnmapPage (errcode ≠ .ecFail)
  pure (errcode, { mmu with memIpt := ipt })

def mmuFreePage (mmu : Mmu) (page : VirtAddr) : Outcome (Errcode × Mmu) := do
  assert .mmuFreePage (mapGet diskMapComparator mmu.diskMap page).isSome
  let (_, mmu) ← mmuUnmapPage mmu page
  let (_, diskMap) := mapRemove diskMapComparator mmu.diskMap page
  pure (.ecSuccess, { mmu with diskMap := diskMap })

/-- The loop of `mmu_alloc_multiple`; the offset of `cur_vaddr` is never set and never read. -/
def mmuAllocMultiple (mmu : Mmu) (pid page backing : Nat) : Nat → Outcome (Errcode × Mmu)
  | 0 => .ok (.ecSuccess, mmu)
  | npages + 1 => do
      let (errcode, mmu) ← mmuAllocPage mmu ⟨pid, page, 0⟩ backing
      if errcode ≠ .ecSuccess then pure (errcode, mmu)
      else mmuAllocMultiple mmu pid (page + 1) (backing + 1) npages

def mmuFreeMultiple (mmu : Mmu) (pid page : Nat) : Nat → Outcome (Errcode × Mmu)
  | 0 => .ok (.ecSuccess, mmu)
  | npages + 1 => do
      let (errcode, mmu) ← mmuFreePage mmu ⟨pid, page, 0⟩
      if errcode ≠ .ecSuccess then pure (errcode, mmu)
      else mmuFreeMultiple mmu pid (page + 1) npages

/-- The first residency check of `mmu_pin_page` and its statistics. -/
def mmuPinCheck (mmu : Mmu) (page : VirtAddr) : Outcome (Bool × Mmu) := do
  let present ← iptHasTranslation mmu.memIpt page
  if present then
    pure (true, { mmu with stats := ⟨mmu.stats.nrefs + 1, mmu.stats.hits + 1⟩ })
  else pure (false, { mmu with stats := ⟨mmu.stats.nrefs + 1, mmu.stats.hits⟩ })

/-- The assertion `mmu_read` opens with, an `int` comparison. -/
def mmuReadInPage (mmu : Mmu) (addr : VirtAddr) (nbytes : Nat) : Outcome Unit :=
  let reach := asInt addr.offset + asInt nbytes
  if reach < -2 ^ 31 ∨ 2 ^ 31 ≤ reach then .error .overflow
  else assert .mmuRead (reach ≤ mmu.mem.pageSize)

/-- The assertion `mmu_write` opens with, an `unsigned` comparison. -/
def mmuWriteInPage (mmu : Mmu) (addr : VirtAddr) (nbytes : Nat) : Outcome Unit :=
  assert .mmuWrite ((addr.offset + nbytes) % 2 ^ 32 ≤ mmu.mem.pageSize)

def memAddr (mmu : Mmu) (memPage offset : Nat) : Nat :=
  (memPage * mmu.mem.pageSize + offset) % 2 ^ 32

def mmuReadBody (mmu : Mmu) (addr : VirtAddr) (nbytes : Nat) : Outcome (List BYTE × Mmu) := do
  let ipt ← iptReference mmu.memIpt addr .refRead
  let memPage ← iptTranslate ipt addr
  let bytes ← copyOut mmu.mem.data (memAddr mmu memPage addr.offset) nbytes
  pure (bytes, { mmu with memIpt := ipt })

def mmuWriteBody (mmu : Mmu) (addr : VirtAddr) (buf : List BYTE) : Outcome Mmu := do
  let ipt ← iptReference mmu.memIpt addr .refWrite
  let memPage ← iptTranslate ipt addr
  let data ← copyIn mmu.mem.data (memAddr mmu memPage addr.offset) buf
  pure { mmu with mem := { mmu.mem with data := data }, memIpt := ipt }

def mmuSyncToBackingPage (mmu : Mmu) (page : VirtAddr) : Outcome (Errcode × Mmu) := do
  let dirty ← iptIsDirty mmu.memIpt page
  if dirty then do
    let memPage ← iptTranslate mmu.memIpt page
    match mapGet diskMapComparator mmu.diskMap page with
    | none => .error (.assertion .mmuSyncToBackingPage)
    | some diskPage => do
        let pageData ← copyOut mmu.mem.data (memAddr mmu memPage 0) mmu.disk.pageSize
        let (errcode, disk) ← diskSetPage mmu.disk diskPage pageData
        pure (errcode, { mmu with disk := disk })
  else pure (.ecSuccess, mmu)

def mmuSyncFromBackingPage (mmu : Mmu) (page : VirtAddr) : Outcome (Errcode × Mmu) := do
  let memPage ← iptTranslate mmu.memIpt page
  match mapGet diskMapComparator mmu.diskMap page with
  | none => .error (.assertion .mmuSyncFromBackingPage)
  | some diskPage => do
      let pageData ← diskGetPage mmu.disk diskPage
      match pageData with
      | none => pure (.ecFail, mmu)
      | some pageData => do
          let data ← copyIn mmu.mem.data (memAddr mmu memPage 0) pageData
          pure (.ecSuccess, { mmu with mem := { mmu.mem with data := data } })

def mmuForEachMemPage (mmu : Mmu) (func : Nat → PageData → σ → PageData × σ) (s : σ) : Mmu × σ :=
  let (ipt, s) := iptForEachEntry mmu.memIpt func s
  ({ mmu with memIpt := ipt }, s)

end VmSim.MemoryUnit
