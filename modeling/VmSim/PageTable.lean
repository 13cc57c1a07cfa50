import Mathlib.Data.List.Range
import VmSim.Types

/-!
vmsim/ipt.c. The pointers of the table are indices: `IPT_INVALID` (-1) is
`none`. Every array access goes through `load` and `store`, so an index
outside an array is a fault of the model, and so is a failed assertion. The
`while` loops over a hash chain run on a budget of `size` steps and fault
when it is spent; a chain without a repeated index never spends it. The
linked queue `free_pages` is its list of items, first to be popped first.
-/

namespace VmSim.PageTable

inductive RefType where
  | refNone
  | refRead
  | refWrite
  deriving DecidableEq, Repr

structure PageData where
  addr : VirtAddr
  dirty : Bool
  referenced : Bool
  valid : Bool
  pageAge : BitVec 32
  deriving DecidableEq, Repr

structure IptEntry where
  pageData : PageData
  next : Option Nat
  prev : Option Nat
  deriving DecidableEq, Repr

structure Ipt where
  entries : List IptEntry
  hat : List (Option Nat)
  size : Nat
  freePages : List Nat
  refCount : Nat
  deriving DecidableEq, Repr

/-- The bucket of an address: the product is an `unsigned` and wraps. -/
def bucket (size : Nat) (addr : VirtAddr) : Nat := addr.pid * addr.page % 2 ^ 32 % size

def iptHash (ipt : Ipt) (addr : VirtAddr) : Outcome Nat :=
  if ipt.size = 0 then .error .divideByZero else .ok (bucket ipt.size addr)

def iptHatIdxOf (ipt : Ipt) (addr : VirtAddr) : Outcome (Option Nat) := do
  let hash ← iptHash ipt addr
  load ipt.hat hash

def iptSetHat (ipt : Ipt) (addr : VirtAddr) (idx : Option Nat) : Outcome Ipt := do
  let hash ← iptHash ipt addr
  let hat ← store ipt.hat hash idx
  pure { ipt with hat := hat }

def iptGetNextFreeEntry (ipt : Ipt) : Option Nat × Ipt :=
  match ipt.freePages with
  | [] => (none, ipt)
  | idx :: rest => (some idx, { ipt with freePages := rest })

def searchChain (ipt : Ipt) (addr : VirtAddr) : Nat → Option Nat → Outcome (Option Nat)
  | _, none => .ok none
  | 0, some _ => .error .diverges
  | fuel + 1, some idx => do
      let entry ← load ipt.entries idx
      if virtAddrPageEq entry.pageData.addr addr then pure (some idx)
      else do
        assert .getVaddrIdx entry.pageData.valid
        searchChain ipt addr fuel entry.next

def getVaddrIdx (ipt : Ipt) (addr : VirtAddr) : Outcome (Option Nat) := do
  let idx ← iptHatIdxOf ipt addr
  searchChain ipt addr ipt.size idx

/-- A `calloc`ed entry with its links set to -1. -/
def blankEntry : IptEntry := ⟨⟨⟨0, 0, 0⟩, false, false, false, 0⟩, none, none⟩

def iptInit (size : Nat) : Ipt :=
  { entries := List.replicate size blankEntry
    hat := List.replicate size none
    size := size
    freePages := List.range size
    refCount := 0 }

/-- The entry `init_ipt_slot` writes. -/
def freshEntry (addr : VirtAddr) (next prev : Option Nat) : IptEntry :=
  { pageData :=
      { addr := addr
        dirty := false
        referenced := false
        valid := true
        pageAge := setMsb 0 true }
    next := next
    prev := prev }

def initIptSlot (ipt : Ipt) (idx : Nat) (addr : VirtAddr) (next prev : Option Nat) :
    Outcome Ipt := do
  let entries ← store ipt.entries idx (freshEntry addr next prev)
  pure { ipt with entries := entries }

def iptHasTranslation (ipt : Ipt) (addr : VirtAddr) : Outcome Bool := do
  let idx ← getVaddrIdx ipt addr
  pure idx.isSome

/-- `ipt->entries[get_vaddr_idx(ipt, addr)]`; the index -1 is out of bounds. -/
def entryOf (ipt : Ipt) (addr : VirtAddr) : Outcome (Nat × IptEntry) := do
  let found ← getVaddrIdx ipt addr
  match found with
  | none => .error .outOfBounds
  | some idx => do
      let entry ← load ipt.entries idx
      pure (idx, entry)

def iptIsDirty (ipt : Ipt) (addr : VirtAddr) : Outcome Bool := do
  let present ← iptHasTranslation ipt addr
  assert .iptIsDirty present
  let (_, entry) ← entryOf ipt addr
  pure entry.pageData.dirty

def iptReference (ipt : Ipt) (addr : VirtAddr) (reftype : RefType) : Outcome Ipt := do
  let present ← iptHasTranslation ipt addr
  assert .iptReference present
  let (idx, entry) ← entryOf ipt addr
  let referenced := { entry.pageData with referenced := true }
  let pageData := if reftype = .refWrite then { referenced with dirty := true } else referenced
  let entries ← store ipt.entries idx { entry with pageData := pageData }
  pure { ipt with entries := entries, refCount := (ipt.refCount + 1) % 2 ^ 32 }

def iptTranslate (ipt : Ipt) (addr : VirtAddr) : Outcome Nat := do
  let found ← getVaddrIdx ipt addr
  match found with
  | none => .error (.assertion .iptTranslate)
  | some idx => pure idx

def lastOfChain (ipt : Ipt) : Nat → Option Nat → Option Nat → Outcome (Option Nat)
  | _, none, prevIdx => .ok prevIdx
  | 0, some _, _ => .error .diverges
  | fuel + 1, some idx, _ => do
      let entry ← load ipt.entries idx
      lastOfChain ipt fuel entry.next (some idx)

def iptHashListLastElement (ipt : Ipt) (addr : VirtAddr) : Outcome (Option Nat) := do
  let idx ← iptHatIdxOf ipt addr
  lastOfChain ipt ipt.size idx none

def setNext (ipt : Ipt) (idx : Nat) (next : Option Nat) : Outcome Ipt := do
  let entry ← load ipt.entries idx
  let entries ← store ipt.entries idx { entry with next := next }
  pure { ipt with entries := entries }

def setPrev (ipt : Ipt) (idx : Nat) (prev : Option Nat) : Outcome Ipt := do
  let entry ← load ipt.entries idx
  let entries ← store ipt.entries idx { entry with prev := prev }
  pure { ipt with entries := entries }

def invalidate (ipt : Ipt) (idx : Nat) : Outcome Ipt := do
  let entry ← load ipt.entries idx
  let pageData := { entry.pageData with valid := false }
  let entries ← store ipt.entries idx { entry with pageData := pageData }
  pure { ipt with entries := entries }

def iptAdd (ipt : Ipt) (addr : VirtAddr) : Outcome (Errcode × Ipt) :=
  match iptGetNextFreeEntry ipt with
  | (none, ipt) => .ok (.ecFail, ipt)
  | (some newIdx, ipt) => do
      let tailIdx ← iptHashListLastElement ipt addr
      let ipt ← match tailIdx with
        | none => iptSetHat ipt addr (some newIdx)
        | some tailIdx => setNext ipt tailIdx (some newIdx)
      let ipt ← initIptSlot ipt newIdx addr none tailIdx
      pure (.ecSuccess, ipt)

/-- The HAT is updated when the removed entry was at the head of its list. -/
def unlinkHead (ipt : Ipt) (addr : VirtAddr) (prevIdx nextIdx : Option Nat) : Outcome Ipt :=
  match prevIdx with
  | none => iptSetHat ipt addr nextIdx
  | some _ => .ok ipt

def unlinkPrev (ipt : Ipt) (nextIdx prevIdx : Option Nat) : Outcome Ipt :=
  match nextIdx with
  | none => .ok ipt
  | some idx => setPrev ipt idx prevIdx

/-- `setNext` under `prev_idx != IPT_INVALID`. -/
def unlinkNext (ipt : Ipt) (prevIdx nextIdx : Option Nat) : Outcome Ipt :=
  match prevIdx with
  | none => .ok ipt
  | some idx => setNext ipt idx nextIdx

def iptRemove (ipt : Ipt) (addr : VirtAddr) : Outcome (Errcode × Ipt) := do
  let found ← getVaddrIdx ipt addr
  match found with
  | none => pure (.ecNotFound, ipt)
  | some idx => do
      let entry ← load ipt.entries idx
      let prevIdx := entry.prev
      let nextIdx := entry.next
      let ipt ← unlinkHead ipt addr prevIdx nextIdx
      let ipt ← unlinkPrev ipt nextIdx prevIdx
      let ipt ← unlinkNext ipt prevIdx nextIdx
      let ipt ← invalidate ipt idx
      pure (.ecSuccess, { ipt with freePages := ipt.freePages ++ [idx] })

/-- `ipt_for_each_entry`: `func` sees the frame and the page data, may rewrite
the page data, and carries the state `s` its static variables hold. -/
def forEachEntry (func : Nat → PageData → σ → PageData × σ) :
    Nat → List IptEntry → σ → List IptEntry × σ
  | _, [], s => ([], s)
  | i, entry :: rest, s =>
      if entry.pageData.valid then
        let (pageData, s) := func i entry.pageData s
        let (rest, s) := forEachEntry func (i + 1) rest s
        ({ entry with pageData := pageData } :: rest, s)
      else
        let (rest, s) := forEachEntry func (i + 1) rest s
        (entry :: rest, s)

def iptForEachEntry (ipt : Ipt) (func : Nat → PageData → σ → PageData × σ) (s : σ) : Ipt × σ :=
  let (entries, s) := forEachEntry func 0 ipt.entries s
  ({ ipt with entries := entries }, s)

def iptRefCount (ipt : Ipt) : Nat := ipt.refCount

def iptZeroRefCount (ipt : Ipt) : Ipt := { ipt with refCount := 0 }

end VmSim.PageTable
