import Mathlib.Data.List.Count
import Mathlib.Data.List.Range
import Mathlib.Data.List.Perm.Subperm
import VmSim.PageTable
import VmSim.Library.LinkedChain

/-!
The representation invariant of the inverted page table. A ghost function
`chain` names the collision list of every bucket; the links of the entries
thread each of them both ways, the chains partition the valid entries and
`freePages` holds the others. What a walk returns is read off the chain.
-/

namespace VmSim.PageTable
open LinkedChain

def nextOf (entries : List IptEntry) (i : Nat) : Option Nat := entries[i]?.bind (·.next)

def prevOf (entries : List IptEntry) (i : Nat) : Option Nat := entries[i]?.bind (·.prev)

def dataOf (entries : List IptEntry) (i : Nat) : Option PageData := entries[i]?.map (·.pageData)

structure Chained (ipt : Ipt) (chain : Nat → List Nat) : Prop where
  positive : 0 < ipt.size
  entriesSized : ipt.entries.length = ipt.size
  hatSized : ipt.hat.length = ipt.size
  linked : ∀ h < ipt.size, ∃ head, ipt.hat[h]? = some head ∧
    Linked (nextOf ipt.entries) (prevOf ipt.entries) head (chain h)
  unique : ∀ h < ipt.size, (chain h).Nodup
  member : ∀ h < ipt.size, ∀ i, i ∈ chain h ↔
    ∃ data, dataOf ipt.entries i = some data ∧ data.valid = true ∧ bucket ipt.size data.addr = h
  freeUnique : ipt.freePages.Nodup
  free : ∀ i, i ∈ ipt.freePages ↔ ∃ data, dataOf ipt.entries i = some data ∧ data.valid = false

theorem data_lt {entries : List IptEntry} {i : Nat} {data : PageData}
    (found : dataOf entries i = some data) : i < entries.length := by
  by_contra outside
  simp [dataOf, List.getElem?_eq_none (Nat.not_lt.mp outside)] at found

theorem entry_of_data {entries : List IptEntry} {i : Nat} {data : PageData}
    (found : dataOf entries i = some data) :
    entries[i]? = some ⟨data, nextOf entries i, prevOf entries i⟩ := by
  simp only [dataOf, Option.map_eq_some_iff] at found
  obtain ⟨entry, here, rfl⟩ := found
  simp [nextOf, prevOf, here]

theorem bucket_lt {size : Nat} (positive : 0 < size) (addr : VirtAddr) : bucket size addr < size :=
  Nat.mod_lt _ positive

theorem bucket_congr {size : Nat} {left right : VirtAddr} (same : left.key = right.key) :
    bucket size left = bucket size right := by
  simp only [VirtAddr.key, Prod.mk.injEq] at same
  simp [bucket, same.1, same.2]

theorem ipt_init_chained {size : Nat} (positive : 0 < size) :
    Chained (iptInit size) (fun _ => []) where
  positive := positive
  entriesSized := by simp [iptInit]
  hatSized := by simp [iptInit]
  linked := by
    intro h bound
    have inside : h < size := bound
    exact ⟨none, by simp [iptInit, inside], rfl⟩
  unique := by simp
  member := by
    intro h _ i
    simp only [List.not_mem_nil, false_iff, not_exists, not_and]
    intro data found valid
    simp only [dataOf, iptInit, List.getElem?_replicate, Option.map_eq_some_iff] at found
    obtain ⟨entry, here, rfl⟩ := found
    split at here
    · injection here with blank
      subst blank
      cases valid
    · cases here
  freeUnique := List.nodup_range
  free := by
    intro i
    simp only [iptInit, List.mem_range, dataOf, List.getElem?_replicate]
    constructor
    · intro bound
      exact ⟨blankEntry.pageData, by simp [bound], rfl⟩
    · rintro ⟨data, found, -⟩
      by_contra outside
      simp [outside] at found

section Walks
variable {ipt : Ipt} {chain : Nat → List Nat}

/-- Chains visit distinct frames, so the budget of a walk covers them. -/
theorem chain_length (chained : Chained ipt chain) {h : Nat} (bound : h < ipt.size) :
    (chain h).length ≤ ipt.size := by
  have inside : chain h ⊆ List.range ipt.size := by
    intro i member
    obtain ⟨data, found, -⟩ := (chained.member h bound i).mp member
    rw [List.mem_range, ← chained.entriesSized]
    exact data_lt found
  simpa using (List.subperm_of_subset (chained.unique h bound) inside).length_le

theorem hat_idx_exact (chained : Chained ipt chain) (addr : VirtAddr) :
    ∃ head, iptHatIdxOf ipt addr = .ok head ∧ ipt.hat[bucket ipt.size addr]? = some head ∧
      Linked (nextOf ipt.entries) (prevOf ipt.entries) head (chain (bucket ipt.size addr)) := by
  have bound := bucket_lt chained.positive addr
  obtain ⟨head, here, linked⟩ := chained.linked _ bound
  refine ⟨head, ?_, here, linked⟩
  simp [iptHatIdxOf, iptHash, Nat.ne_of_gt chained.positive, load_of_get here]

theorem set_hat_exact (chained : Chained ipt chain) {other : Ipt} (size : other.size = ipt.size)
    (hat : other.hat = ipt.hat) (addr : VirtAddr) (idx : Option Nat) :
    iptSetHat other addr idx =
      .ok { other with hat := ipt.hat.set (bucket ipt.size addr) idx } := by
  have bound : bucket ipt.size addr < ipt.hat.length := by
    rw [chained.hatSized]
    exact bucket_lt chained.positive addr
  simp [iptSetHat, iptHash, size, hat, Nat.ne_of_gt chained.positive, store_of_lt bound]

/-- Whether frame `i` is the one a search for `addr` stops at. -/
def answers (entries : List IptEntry) (addr : VirtAddr) (i : Nat) : Bool :=
  match dataOf entries i with
  | some data => virtAddrPageEq data.addr addr
  | none => false

theorem search_segment (addr : VirtAddr) {path : List Nat} {before first : Option Nat}
    {fuel : Nat} (enough : path.length ≤ fuel)
    (segment : Segment (nextOf ipt.entries) (prevOf ipt.entries) before first path none)
    (valid : ∀ i ∈ path, ∃ data, dataOf ipt.entries i = some data ∧ data.valid = true) :
    searchChain ipt addr fuel first = .ok (path.find? (answers ipt.entries addr)) := by
  induction path generalizing before first fuel with
  | nil =>
      cases segment
      cases fuel <;> rfl
  | cons i rest ih =>
      obtain ⟨rfl, -, tail⟩ := segment
      obtain ⟨data, found, live⟩ := valid i (by simp)
      cases fuel with
      | zero => simp at enough
      | succ fuel =>
          have later := ih (by simpa using enough) tail (fun j member => valid j (by simp [member]))
          by_cases hit : virtAddrPageEq data.addr addr
          · simp [searchChain, load_of_get (entry_of_data found), answers, found, hit]
          · simp [searchChain, load_of_get (entry_of_data found), answers, found, hit, live, later]

theorem get_vaddr_idx_exact (chained : Chained ipt chain) (addr : VirtAddr) :
    getVaddrIdx ipt addr =
      .ok ((chain (bucket ipt.size addr)).find? (answers ipt.entries addr)) := by
  have bound := bucket_lt chained.positive addr
  obtain ⟨head, read, -, linked⟩ := hat_idx_exact chained addr
  have walked := search_segment addr (chain_length chained bound) linked (by
    intro i member
    obtain ⟨data, found, live, -⟩ := (chained.member _ bound i).mp member
    exact ⟨data, found, live⟩)
  simp [getVaddrIdx, read, walked]

theorem last_segment {path : List Nat} {before first : Option Nat} {fuel : Nat}
    (prevIdx : Option Nat) (enough : path.length ≤ fuel)
    (segment : Segment (nextOf ipt.entries) (prevOf ipt.entries) before first path none)
    (stored : ∀ i ∈ path, ∃ data, dataOf ipt.entries i = some data) :
    lastOfChain ipt fuel first prevIdx = .ok (lastOr prevIdx path) := by
  induction path generalizing before first prevIdx fuel with
  | nil =>
      cases segment
      cases fuel <;> rfl
  | cons i rest ih =>
      obtain ⟨rfl, -, tail⟩ := segment
      obtain ⟨data, found⟩ := stored i (by simp)
      cases fuel with
      | zero => simp at enough
      | succ fuel =>
          have later := ih (some i) (by simpa using enough) tail
            (fun j member => stored j (by simp [member]))
          simp [lastOfChain, load_of_get (entry_of_data found), later, last_or_cons]

theorem last_element_exact (chained : Chained ipt chain) (addr : VirtAddr) :
    iptHashListLastElement ipt addr = .ok (chain (bucket ipt.size addr)).getLast? := by
  have bound := bucket_lt chained.positive addr
  obtain ⟨head, read, -, linked⟩ := hat_idx_exact chained addr
  have walked := last_segment none (chain_length chained bound) linked (by
    intro i member
    obtain ⟨data, found, -⟩ := (chained.member _ bound i).mp member
    exact ⟨data, found⟩)
  simpa [iptHashListLastElement, read, lastOr] using walked

/-- Popping the free list first does not disturb the walk. -/
theorem last_of_chain_free (rest : List Nat) (fuel : Nat) (idx prevIdx : Option Nat) :
    lastOfChain { ipt with freePages := rest } fuel idx prevIdx =
      lastOfChain ipt fuel idx prevIdx := by
  induction fuel generalizing idx prevIdx with
  | zero => cases idx <;> rfl
  | succ fuel ih =>
      cases idx with
      | none => rfl
      | some idx => simp only [lastOfChain, ih]

end Walks

section Edits

/-- `links` with the link of the cell at `idx`, if there is one, turned to `target`. -/
def redirect (links : Nat → Option Nat) (idx target : Option Nat) (i : Nat) : Option Nat :=
  if some i = idx then target else links i

@[simp] theorem redirect_none (links : Nat → Option Nat) (target : Option Nat) :
    redirect links none target = links := by
  funext i
  simp [redirect]

/-- A table after a call, by what it stores in every cell. -/
structure Rewritten (ipt after : Ipt) (next prev : Nat → Option Nat)
    (data : Nat → Option PageData) : Prop where
  size : after.size = ipt.size
  sized : after.entries.length = ipt.entries.length
  next : nextOf after.entries = next
  prev : prevOf after.entries = prev
  data : dataOf after.entries = data

variable {entries : List IptEntry} {i : Nat}

theorem next_set (bound : i < entries.length) (entry : IptEntry) :
    nextOf (entries.set i entry) = redirect (nextOf entries) (some i) entry.next := by
  funext j
  by_cases same : i = j
  · subst same
    simp [nextOf, redirect, bound]
  · simp [nextOf, redirect, same, Ne.symm same]

theorem prev_set (bound : i < entries.length) (entry : IptEntry) :
    prevOf (entries.set i entry) = redirect (prevOf entries) (some i) entry.prev := by
  funext j
  by_cases same : i = j
  · subst same
    simp [prevOf, redirect, bound]
  · simp [prevOf, redirect, same, Ne.symm same]

theorem data_set (bound : i < entries.length) (entry : IptEntry) :
    dataOf (entries.set i entry) = Function.update (dataOf entries) i (some entry.pageData) := by
  funext j
  by_cases same : i = j
  · subst same
    simp [dataOf, bound]
  · simp [dataOf, Function.update_of_ne (Ne.symm same), same]

theorem redirect_self (links : Nat → Option Nat) (i : Nat) :
    redirect links (some i) (links i) = links := by
  funext j
  simp only [redirect, Option.some.injEq]
  split
  · rename_i same
    rw [same]
  · rfl

theorem stored_exact (ipt : Ipt) (bound : i < ipt.entries.length) (entry : IptEntry) :
    Rewritten ipt { ipt with entries := ipt.entries.set i entry }
      (redirect (nextOf ipt.entries) (some i) entry.next)
      (redirect (prevOf ipt.entries) (some i) entry.prev)
      (Function.update (dataOf ipt.entries) i (some entry.pageData)) :=
  ⟨rfl, by simp, next_set bound entry, prev_set bound entry, data_set bound entry⟩

theorem set_next_exact (ipt : Ipt) {data : PageData} (found : dataOf ipt.entries i = some data)
    (target : Option Nat) :
    ∃ entries, setNext ipt i target = .ok { ipt with entries := entries } ∧
      Rewritten ipt { ipt with entries := entries }
        (redirect (nextOf ipt.entries) (some i) target) (prevOf ipt.entries)
        (dataOf ipt.entries) := by
  have bound := data_lt found
  have stored := stored_exact ipt bound ⟨data, target, prevOf ipt.entries i⟩
  rw [redirect_self, Function.update_eq_self_iff.mpr found.symm] at stored
  exact ⟨_, by simp [setNext, load_of_get (entry_of_data found), store_of_lt bound], stored⟩

theorem set_prev_exact (ipt : Ipt) {data : PageData} (found : dataOf ipt.entries i = some data)
    (target : Option Nat) :
    ∃ entries, setPrev ipt i target = .ok { ipt with entries := entries } ∧
      Rewritten ipt { ipt with entries := entries }
        (nextOf ipt.entries) (redirect (prevOf ipt.entries) (some i) target)
        (dataOf ipt.entries) := by
  have bound := data_lt found
  have stored := stored_exact ipt bound ⟨data, nextOf ipt.entries i, target⟩
  rw [redirect_self, Function.update_eq_self_iff.mpr found.symm] at stored
  exact ⟨_, by simp [setPrev, load_of_get (entry_of_data found), store_of_lt bound], stored⟩

theorem unlink_prev_exact (ipt : Ipt) (idx target : Option Nat)
    (stored : ∀ i ∈ idx, ∃ data, dataOf ipt.entries i = some data) :
    ∃ entries, unlinkPrev ipt idx target = .ok { ipt with entries := entries } ∧
      Rewritten ipt { ipt with entries := entries }
        (nextOf ipt.entries) (redirect (prevOf ipt.entries) idx target) (dataOf ipt.entries) := by
  cases idx with
  | none => exact ⟨ipt.entries, rfl, rfl, rfl, rfl, by simp, rfl⟩
  | some i =>
      obtain ⟨data, found⟩ := stored i rfl
      exact set_prev_exact ipt found target

theorem unlink_next_exact (ipt : Ipt) (idx target : Option Nat)
    (stored : ∀ i ∈ idx, ∃ data, dataOf ipt.entries i = some data) :
    ∃ entries, unlinkNext ipt idx target = .ok { ipt with entries := entries } ∧
      Rewritten ipt { ipt with entries := entries }
        (redirect (nextOf ipt.entries) idx target) (prevOf ipt.entries) (dataOf ipt.entries) := by
  cases idx with
  | none => exact ⟨ipt.entries, rfl, rfl, rfl, by simp, rfl, rfl⟩
  | some i =>
      obtain ⟨data, found⟩ := stored i rfl
      exact set_next_exact ipt found target

theorem invalidate_exact (ipt : Ipt) {data : PageData} (found : dataOf ipt.entries i = some data) :
    ∃ entries, invalidate ipt i = .ok { ipt with entries := entries } ∧
      Rewritten ipt { ipt with entries := entries } (nextOf ipt.entries) (prevOf ipt.entries)
        (Function.update (dataOf ipt.entries) i (some { data with valid := false })) := by
  have bound := data_lt found
  have stored := stored_exact ipt bound
    ⟨{ data with valid := false }, nextOf ipt.entries i, prevOf ipt.entries i⟩
  rw [redirect_self, redirect_self] at stored
  exact ⟨_, by simp [invalidate, load_of_get (entry_of_data found), store_of_lt bound], stored⟩

theorem init_slot_exact (ipt : Ipt) (bound : i < ipt.entries.length) (addr : VirtAddr)
    (next prev : Option Nat) :
    ∃ entries, initIptSlot ipt i addr next prev = .ok { ipt with entries := entries } ∧
      Rewritten ipt { ipt with entries := entries }
        (redirect (nextOf ipt.entries) (some i) next) (redirect (prevOf ipt.entries) (some i) prev)
        (Function.update (dataOf ipt.entries) i (some (freshEntry addr next prev).pageData)) :=
  ⟨ipt.entries.set i (freshEntry addr next prev), by simp [initIptSlot, store_of_lt bound],
    stored_exact ipt bound _⟩

theorem rewritten_trans {ipt middle after : Ipt} {next prev next' prev' : Nat → Option Nat}
    {data data' : Nat → Option PageData} (first : Rewritten ipt middle next prev data)
    (second : Rewritten middle after next' prev' data') : Rewritten ipt after next' prev' data' :=
  ⟨second.size.trans first.size, second.sized.trans first.sized,
    second.next, second.prev, second.data⟩

end Edits

section Calls
variable {ipt : Ipt} {chain : Nat → List Nat}

def freshPage (addr : VirtAddr) : PageData := (freshEntry addr none none).pageData

theorem chains_disjoint (chained : Chained ipt chain) {h h' i : Nat} (bound : h < ipt.size)
    (bound' : h' < ipt.size) (here : i ∈ chain h) (there : i ∈ chain h') : h = h' := by
  obtain ⟨data, found, -, rfl⟩ := (chained.member h bound i).mp here
  obtain ⟨data', found', -, rfl⟩ := (chained.member h' bound' i).mp there
  rw [found] at found'
  injection found' with same
  rw [same]

theorem free_off_chain (chained : Chained ipt chain) {h i : Nat} (bound : h < ipt.size)
    (free : i ∈ ipt.freePages) : i ∉ chain h := by
  intro member
  obtain ⟨data, found, invalid⟩ := (chained.free i).mp free
  obtain ⟨data', found', valid, -⟩ := (chained.member h bound i).mp member
  rw [found] at found'
  injection found' with same
  rw [same, valid] at invalid
  cases invalid

theorem ipt_add_full (full : ipt.freePages = []) (addr : VirtAddr) :
    iptAdd ipt addr = .ok (.ecFail, ipt) := by
  simp [iptAdd, iptGetNextFreeEntry, full]

theorem ipt_add_exact (chained : Chained ipt chain) {new : Nat} {rest : List Nat}
    (free : ipt.freePages = new :: rest) (addr : VirtAddr) :
    ∃ after, iptAdd ipt addr = .ok (.ecSuccess, after) ∧
      Rewritten ipt after
        (redirect (redirect (nextOf ipt.entries) (chain (bucket ipt.size addr)).getLast? (some new))
          (some new) none)
        (redirect (prevOf ipt.entries) (some new) (chain (bucket ipt.size addr)).getLast?)
        (Function.update (dataOf ipt.entries) new (some (freshPage addr))) ∧
      after.freePages = rest ∧ after.refCount = ipt.refCount ∧
      after.hat = if chain (bucket ipt.size addr) = [] then
        ipt.hat.set (bucket ipt.size addr) (some new) else ipt.hat := by
  have bound := bucket_lt chained.positive addr
  have last : iptHashListLastElement { ipt with freePages := rest } addr =
      .ok (chain (bucket ipt.size addr)).getLast? := by
    rw [← last_element_exact chained addr]
    simp only [iptHashListLastElement, last_of_chain_free]
    rfl
  have room : new < ipt.entries.length := by
    obtain ⟨data, found, -⟩ := (chained.free new).mp (by simp [free])
    exact data_lt found
  simp only [iptAdd, iptGetNextFreeEntry, free, last, bind_ok]
  cases tail : (chain (bucket ipt.size addr)).getLast? with
  | none =>
      have empty := List.getLast?_eq_none_iff.mp tail
      obtain ⟨entries, initialised, slot⟩ := init_slot_exact
        { ipt with
          freePages := rest
          hat := ipt.hat.set (bucket ipt.size addr) (some new) } room addr none none
      refine ⟨{ ipt with
        entries := entries
        freePages := rest
        hat := ipt.hat.set (bucket ipt.size addr) (some new) }, ?_, ?_, rfl, rfl, by simp [empty]⟩
      · simp [set_hat_exact chained, initialised]
      · simp only [redirect_none]
        exact ⟨slot.size, slot.sized, slot.next, slot.prev, slot.data⟩
  -- The chain has a last element: it is linked to the new entry and the head table stays.
  | some old =>
      have member : old ∈ chain (bucket ipt.size addr) := List.mem_of_getLast? tail
      obtain ⟨data, found, -⟩ := (chained.member _ bound old).mp member
      obtain ⟨linkedEntries, linked, first⟩ := set_next_exact
        { ipt with freePages := rest } found (some new)
      obtain ⟨entries, initialised, second⟩ := init_slot_exact
        { ipt with freePages := rest, entries := linkedEntries }
        (by rw [first.sized]; exact room) addr none (some old)
      refine ⟨{ ipt with freePages := rest, entries := entries }, ?_, ?_, rfl, rfl, ?_⟩
      · simp [linked, initialised]
      · have both := rewritten_trans first second
        rw [first.next, first.prev, first.data] at both
        exact ⟨both.size, both.sized, both.next, both.prev, both.data⟩
      · rw [if_neg (List.ne_nil_of_mem member)]

theorem ipt_remove_absent (chained : Chained ipt chain) {addr : VirtAddr}
    (absent : (chain (bucket ipt.size addr)).find? (answers ipt.entries addr) = none) :
    iptRemove ipt addr = .ok (.ecNotFound, ipt) := by
  simp [iptRemove, get_vaddr_idx_exact chained, absent]

theorem ipt_remove_exact (chained : Chained ipt chain) {addr : VirtAddr} {idx : Nat}
    {left right : List Nat} {data : PageData}
    (hit : (chain (bucket ipt.size addr)).find? (answers ipt.entries addr) = some idx)
    (split : chain (bucket ipt.size addr) = left ++ idx :: right)
    (found : dataOf ipt.entries idx = some data) :
    ∃ after, iptRemove ipt addr = .ok (.ecSuccess, after) ∧
      Rewritten ipt after
        (redirect (nextOf ipt.entries) left.getLast? right.head?)
        (redirect (prevOf ipt.entries) right.head? left.getLast?)
        (Function.update (dataOf ipt.entries) idx (some { data with valid := false })) ∧
      after.freePages = ipt.freePages ++ [idx] ∧ after.refCount = ipt.refCount ∧
      after.hat = if left = [] then
        ipt.hat.set (bucket ipt.size addr) right.head? else ipt.hat := by
  have bound := bucket_lt chained.positive addr
  obtain ⟨head, -, -, linked⟩ := hat_idx_exact chained addr
  rw [split] at linked
  obtain ⟨back, forward, -⟩ := linked_middle linked
  have neighbour : ∀ i, i ∈ left ++ right → ∃ data, dataOf ipt.entries i = some data := by
    intro i member
    obtain ⟨data, stored, -⟩ := (chained.member _ bound i).mp (by
      rw [split]
      simp only [List.mem_append, List.mem_cons] at member ⊢
      tauto)
    exact ⟨data, stored⟩
  obtain ⟨hat, relinked, changed⟩ : ∃ hat,
      unlinkHead ipt addr left.getLast? right.head? = .ok { ipt with hat := hat } ∧
      hat = if left = [] then ipt.hat.set (bucket ipt.size addr) right.head? else ipt.hat := by
    cases tail : left.getLast? with
    | none =>
        rw [List.getLast?_eq_none_iff] at tail
        exact ⟨_, set_hat_exact chained rfl rfl addr right.head?, by simp [tail]⟩
    | some i =>
        exact ⟨ipt.hat, rfl, by rw [if_neg (List.ne_nil_of_mem (List.mem_of_getLast? tail))]⟩
  -- The three writes follow each other: the next entry's prev, the previous entry's next,
  -- and the valid bit of the entry itself.
  obtain ⟨behind, setBehind, first⟩ := unlink_prev_exact { ipt with hat := hat }
    right.head? left.getLast?
    (fun i next => neighbour i (by simp [List.mem_of_mem_head? next]))
  obtain ⟨before, setBefore, second⟩ := unlink_next_exact
    { ipt with hat := hat, entries := behind } left.getLast? right.head? (by
      intro i last
      rw [first.data]
      exact neighbour i (by simp [List.mem_of_getLast? last]))
  have both := rewritten_trans first second
  rw [first.next, first.prev, first.data] at both
  obtain ⟨entries, invalidated, third⟩ := invalidate_exact
    { ipt with hat := hat, entries := before } (by rw [both.data]; exact found)
  have all := rewritten_trans both third
  rw [both.next, both.prev, both.data] at all
  refine ⟨{ ipt with
    hat := hat
    entries := entries
    freePages := ipt.freePages ++ [idx] }, ?_, ?_, rfl, rfl, changed⟩
  · simp only [iptRemove, get_vaddr_idx_exact chained, hit, bind_ok,
      load_of_get (entry_of_data found), back, forward, relinked, setBehind, setBefore,
      invalidated, pure_eq_ok]
  · exact ⟨all.size, all.sized, all.next, all.prev, all.data⟩

end Calls

end VmSim.PageTable
