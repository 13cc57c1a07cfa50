import VmSim.MemoryUnit

/-!
vmsim/prm.c and vmsim/aging_daemon.c without their threads: the choice of the
page to swap out with the static variables it goes through, the service of one
fault under the MMU write lock, and the aging of a page. The queue, the
completion flags and the locks belong to the concurrent models.
-/

namespace VmSim.PageReplacement
open PageTable MemoryUnit

/-- The static variables of prm.c, `cur_idx` of `get_oldest_page` included. -/
structure PrmStatics where
  oldestPageIdx : Option Nat
  oldestPageVaddr : VirtAddr
  oldestPageAge : BitVec 32
  swapTarget : VirtAddr
  curIdx : Nat
  deriving DecidableEq, Repr

def prmStatics : PrmStatics := ⟨none, ⟨0, 0, 0⟩, 0, ⟨0, 0, 0⟩, 0⟩

def getOldestPage (_memPage : Nat) (page : PageData) (prm : PrmStatics) :
    PageData × PrmStatics :=
  let curIdx := if prm.oldestPageIdx.isNone then 0 else prm.curIdx
  if (page.pageAge < prm.oldestPageAge || prm.oldestPageIdx.isNone) &&
      !virtAddrPageEq prm.swapTarget page.addr then
    (page,
      { prm with
        oldestPageIdx := some curIdx
        oldestPageAge := page.pageAge
        oldestPageVaddr := page.addr
        curIdx := curIdx })
  else (page, { prm with curIdx := curIdx })

def getPageToSwap (prm : PrmStatics) (mmu : Mmu) (pageToLoad : VirtAddr) :
    Outcome (VirtAddr × PrmStatics × Mmu) := do
  let prm := { prm with oldestPageIdx := none, swapTarget := pageToLoad }
  let (mmu, prm) := mmuForEachMemPage mmu getOldestPage prm
  assert .getPageToSwap (!virtAddrPageEq pageToLoad prm.oldestPageVaddr)
  pure (prm.oldestPageVaddr, prm, mmu)

def prmSwapOut (mmu : Mmu) (page : VirtAddr) : Outcome Mmu := do
  let (errcode, mmu) ← mmuSyncToBackingPage mmu page
  assert .prmSwapOut (errcode = .ecSuccess)
  let (errcode, mmu) ← mmuUnmapPage mmu page
  assert .prmSwapOut (errcode = .ecSuccess)
  pure mmu

/-- The `while (errcode != ecSuccess)` loop of `prm_thread_func`. -/
def swapUntilMapped (addr : VirtAddr) :
    Nat → Errcode → PrmStatics → Mmu → Outcome (PrmStatics × Mmu)
  | _, .ecSuccess, prm, mmu => .ok (prm, mmu)
  | 0, _, _, _ => .error .diverges
  | fuel + 1, _, prm, mmu => do
      let (vaddrToSwap, prm, mmu) ← getPageToSwap prm mmu addr
      let mmu ← prmSwapOut mmu vaddrToSwap
      let (errcode, mmu) ← mmuMapPage mmu addr
      let _ ← iptTranslate mmu.memIpt addr
      swapUntilMapped addr fuel errcode prm mmu

/-- What `prm_thread_func` does for a popped command while it holds the write
lock; every turn of its loop frees a frame, so more turns than frames diverge. -/
def prmService (prm : PrmStatics) (mmu : Mmu) (addr : VirtAddr) : Outcome (PrmStatics × Mmu) := do
  let (errcode, mmu) ← mmuMapPage mmu addr
  let (prm, mmu) ← swapUntilMapped addr mmu.mem.npages errcode prm mmu
  let (_, mmu) ← mmuSyncFromBackingPage mmu addr
  pure (prm, mmu)

def agePage (_memPage : Nat) (page : PageData) (s : Unit) : PageData × Unit :=
  ({ page with
      pageAge := setMsb (page.pageAge >>> 1) page.referenced
      referenced := false }, s)

def agePages (mmu : Mmu) : Mmu := (mmuForEachMemPage mmu agePage ()).1

end VmSim.PageReplacement
