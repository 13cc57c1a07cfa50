import VmSim.PageTableChains

/-!
`ipt_add` and `ipt_remove` keep the representation invariant. An addition
appends a free frame to the chain of its bucket, a removal cuts a frame out of
it; the links a freed frame still carries are read by no walk.
-/

namespace VmSim.PageTable
open LinkedChain

section Steps
variable {ipt after : Ipt} {chain : Nat → List Nat}

theorem fresh_page_valid (addr : VirtAddr) : (freshPage addr).valid = true := rfl

theorem fresh_page_addr (addr : VirtAddr) : (freshPage addr).addr = addr := rfl

theorem hat_updated {hat hat' : List (Option Nat)} {h : Nat} {replaced : Prop} [Decidable replaced]
    {head new : Option Nat} (changed : hat' = if replaced then hat.set h new else hat)
    (read : hat[h]? = some head) : hat'[h]? = some (if replaced then new else head) := by
  have bound : h < hat.length := (List.getElem?_eq_some_iff.mp read).1
  rw [changed]
  split
  · simp [bound]
  · exact read

theorem hat_kept {hat hat' : List (Option Nat)} {h other : Nat} {replaced : Prop}
    [Decidable replaced] {new : Option Nat}
    (changed : hat' = if replaced then hat.set h new else hat) (distinct : other ≠ h) :
    hat'[other]? = hat[other]? := by
  rw [changed]
  split
  · exact List.getElem?_set_ne (Ne.symm distinct)
  · rfl

/-- The invariant survives a call that changes the chain of one bucket and the page of one
frame, if that chain is linked again and lists the frame as its page says. -/
theorem chained_rechain (chained : Chained ipt chain) {b frame : Nat} {cells : List Nat}
    {next prev : Nat → Option Nat} {page : PageData} {replaced : Prop} [Decidable replaced]
    {new : Option Nat}
    (written : Rewritten ipt after next prev
      (Function.update (dataOf ipt.entries) frame (some page)))
    (hat : after.hat = if replaced then ipt.hat.set b new else ipt.hat)
    (relinked : ∀ head, Linked (nextOf ipt.entries) (prevOf ipt.entries) head (chain b) →
      Linked next prev (if replaced then new else head) cells)
    (others : ∀ h < ipt.size, h ≠ b → ∀ cell ∈ chain h,
      next cell = nextOf ipt.entries cell ∧ prev cell = prevOf ipt.entries cell)
    (unique : cells.Nodup) (stays : ∀ i, i ≠ frame → (i ∈ cells ↔ i ∈ chain b))
    (listed : ∀ h < ipt.size, (frame ∈ Function.update chain b cells h ↔
      page.valid = true ∧ bucket ipt.size page.addr = h))
    (freeUnique : after.freePages.Nodup)
    (free : ∀ i, i ∈ after.freePages ↔ if i = frame then page.valid = false else i ∈ ipt.freePages) :
    Chained after (Function.update chain b cells) := by
  constructor
  · rw [written.size]
    exact chained.positive
  · rw [written.sized, written.size]
    exact chained.entriesSized
  · rw [hat, written.size]
    split <;> simp [chained.hatSized]
  · intro h inside
    rw [written.size] at inside
    rw [written.next, written.prev]
    obtain ⟨head, read, linked⟩ := chained.linked h inside
    -- The chain that changed was relinked; the others keep their cells and links.
    by_cases same : h = b
    · subst same
      rw [Function.update_self]
      exact ⟨_, hat_updated hat read, relinked head linked⟩
    · refine ⟨head, (hat_kept hat same).trans read, ?_⟩
      rw [Function.update_of_ne same]
      apply segment_congr linked
      · exact fun cell member => (others h inside same cell member).1
      · exact fun cell member => (others h inside same cell member).2
  · intro h inside
    rw [written.size] at inside
    by_cases same : h = b
    · subst same
      rwa [Function.update_self]
    · rw [Function.update_of_ne same]
      exact chained.unique h inside
  · intro h inside i
    rw [written.size] at inside ⊢
    rw [written.data]
    by_cases here : i = frame
    · subst here
      rw [listed h inside]
      simp
    · rw [Function.update_of_ne here, ← chained.member h inside i]
      by_cases same : h = b
      · subst same
        rw [Function.update_self]
        exact stays i here
      · rw [Function.update_of_ne same]
  · exact freeUnique
  · intro i
    rw [written.data, free i]
    by_cases here : i = frame
    · subst here
      simp
    · rw [Function.update_of_ne here, if_neg here]
      exact chained.free i

/-- The new frame is on no chain yet, so no other link than that of the last cell changes. -/
theorem chained_add (chained : Chained ipt chain) {new : Nat} {rest : List Nat} {addr : VirtAddr}
    (free : ipt.freePages = new :: rest)
    (written : Rewritten ipt after
      (redirect (redirect (nextOf ipt.entries) (chain (bucket ipt.size addr)).getLast? (some new))
        (some new) none)
      (redirect (prevOf ipt.entries) (some new) (chain (bucket ipt.size addr)).getLast?)
      (Function.update (dataOf ipt.entries) new (some (freshPage addr))))
    (pages : after.freePages = rest)
    (hat : after.hat = if chain (bucket ipt.size addr) = [] then
      ipt.hat.set (bucket ipt.size addr) (some new) else ipt.hat) :
    Chained after (Function.update chain (bucket ipt.size addr)
      (chain (bucket ipt.size addr) ++ [new])) := by
  have bound := bucket_lt chained.positive addr
  -- The new entry comes from the free list, so no chain has it yet.
  have unused : ∀ h < ipt.size, ∀ cell ∈ chain h, cell ≠ new := by
    rintro h inside cell member rfl
    exact free_off_chain chained inside (by simp [free]) member
  have freshUnique := chained.freeUnique
  rw [free] at freshUnique
  have apart : new ∉ rest := (List.nodup_cons.mp freshUnique).1
  refine chained_rechain chained written hat ?_ ?_ ?_ ?_ ?_ ?_ ?_
  · intro head linked
    apply linked_append linked (chained.unique _ bound)
    · intro cell member distinct
      simp [redirect, unused _ bound cell member, distinct]
    · intro cell last
      simp [redirect, unused _ bound cell (List.mem_of_getLast? last), last]
    · intro cell member
      simp [redirect, unused _ bound cell member]
    · simp [redirect]
    · simp [redirect]
  · intro h inside same cell member
    have old := unused h inside cell member
    have other : some cell ≠ (chain (bucket ipt.size addr)).getLast? := by
      intro last
      exact same (chains_disjoint chained inside bound member (List.mem_of_getLast? last.symm))
    constructor
    · simp [redirect, old, other]
    · simp [redirect, old]
  · simpa [List.nodup_append, chained.unique _ bound] using unused _ bound
  · intro i other
    simp [other]
  · intro h inside
    by_cases same : h = bucket ipt.size addr
    · subst same
      simp [fresh_page_valid, fresh_page_addr]
    · have absent : new ∉ chain h := fun member => unused h inside new member rfl
      simp [Function.update_of_ne same, absent, fresh_page_addr, Ne.symm same]
  · rw [pages]
    exact (List.nodup_cons.mp freshUnique).2
  · intro i
    rw [pages, free]
    by_cases here : i = new
    · subst here
      simp [apart, fresh_page_valid]
    · simp [here]

/-- The frame leaves its chain between its two neighbours, which no other chain has. -/
theorem chained_remove (chained : Chained ipt chain) {addr : VirtAddr} {idx : Nat}
    {left right : List Nat} {data : PageData}
    (split : chain (bucket ipt.size addr) = left ++ idx :: right)
    (found : dataOf ipt.entries idx = some data)
    (written : Rewritten ipt after
      (redirect (nextOf ipt.entries) left.getLast? right.head?)
      (redirect (prevOf ipt.entries) right.head? left.getLast?)
      (Function.update (dataOf ipt.entries) idx (some { data with valid := false })))
    (pages : after.freePages = ipt.freePages ++ [idx])
    (hat : after.hat = if left = [] then
      ipt.hat.set (bucket ipt.size addr) right.head? else ipt.hat) :
    Chained after (Function.update chain (bucket ipt.size addr) (left ++ right)) := by
  have bound := bucket_lt chained.positive addr
  have unique := chained.unique _ bound
  have home : idx ∈ chain (bucket ipt.size addr) := by simp [split]
  have inUse : idx ∉ ipt.freePages :=
    fun free => free_off_chain chained bound free home
  rw [split] at unique
  have apart := unique
  rw [List.nodup_middle] at apart
  obtain ⟨cut, kept⟩ := List.nodup_cons.mp apart
  refine chained_rechain chained written hat ?_ ?_ kept ?_ ?_ ?_ ?_
  · intro head linked
    rw [split] at linked
    apply linked_unlink linked unique
    · intro cell _ distinct
      simp [redirect, distinct]
    · intro cell last
      simp [redirect, last]
    · intro cell _ distinct
      simp [redirect, distinct]
    · intro cell first
      simp [redirect, first]
  · intro h inside other cell member
    -- The neighbours are on the same chain, and a cell is on one chain only.
    have notLast : some cell ≠ left.getLast? := by
      intro last
      have onLeft := List.mem_of_getLast? last.symm
      exact other (chains_disjoint chained inside bound member (by simp [split, onLeft]))
    have notFirst : some cell ≠ right.head? := by
      intro first
      have onRight := List.mem_of_mem_head? first.symm
      exact other (chains_disjoint chained inside bound member (by simp [split, onRight]))
    constructor
    · simp [redirect, notLast]
    · simp [redirect, notFirst]
  · intro i other
    rw [split]
    simp [other]
  · intro h inside
    by_cases same : h = bucket ipt.size addr
    · subst same
      simpa using cut
    · have elsewhere : idx ∉ chain h :=
        fun member => same (chains_disjoint chained inside bound member home)
      simp [Function.update_of_ne same, elsewhere]
  · rw [pages]
    simpa [List.nodup_append, chained.freeUnique] using
      fun cell member (equal : cell = idx) => inUse (equal ▸ member)
  · intro i
    rw [pages]
    by_cases here : i = idx
    · subst here
      simp
    · simp [here]

theorem chained_relabel {data' : Nat → Option PageData} (chained : Chained ipt chain)
    (written : Rewritten ipt after (nextOf ipt.entries) (prevOf ipt.entries) data')
    (same : ∀ i, (data' i).map (fun page => (page.addr, page.valid)) =
      (dataOf ipt.entries i).map (fun page => (page.addr, page.valid)))
    (hat : after.hat = ipt.hat) (free : after.freePages = ipt.freePages) :
    Chained after chain := by
  have labels : ∀ (label : VirtAddr → Bool → Prop) i,
      (∃ page, data' i = some page ∧ label page.addr page.valid) ↔
        ∃ page, dataOf ipt.entries i = some page ∧ label page.addr page.valid := by
    intro label i
    have equal := same i
    cases new : data' i <;> cases old : dataOf ipt.entries i <;> simp_all
  constructor
  · rw [written.size]
    exact chained.positive
  · rw [written.sized, written.size]
    exact chained.entriesSized
  · rw [hat, written.size]
    exact chained.hatSized
  · rw [written.size, written.next, written.prev, hat]
    exact chained.linked
  · rw [written.size]
    exact chained.unique
  · rw [written.size, written.data]
    intro h bound i
    rw [chained.member h bound i]
    exact (labels (fun addr valid => valid = true ∧ bucket ipt.size addr = h) i).symm
  · rw [free]
    exact chained.freeUnique
  · rw [free, written.data]
    intro i
    rw [chained.free i]
    exact (labels (fun _ valid => valid = false) i).symm

theorem search_hit (chained : Chained ipt chain) {addr : VirtAddr} {idx : Nat}
    (hit : (chain (bucket ipt.size addr)).find? (answers ipt.entries addr) = some idx) :
    ∃ left right data, chain (bucket ipt.size addr) = left ++ idx :: right ∧
      dataOf ipt.entries idx = some data ∧ data.valid = true ∧ data.addr.key = addr.key := by
  have member := List.mem_of_find?_eq_some hit
  have answer := List.find?_some hit
  obtain ⟨left, right, split⟩ := List.append_of_mem member
  obtain ⟨data, found, valid, -⟩ :=
    (chained.member _ (bucket_lt chained.positive addr) idx).mp member
  refine ⟨left, right, data, split, found, valid, ?_⟩
  rw [answers, found] at answer
  exact (virt_addr_page_eq_iff _ _).mp answer

end Steps

inductive Call where
  | add (addr : VirtAddr)
  | remove (addr : VirtAddr)

def Call.run (ipt : Ipt) : Call → Outcome (Errcode × Ipt)
  | .add addr => iptAdd ipt addr
  | .remove addr => iptRemove ipt addr

inductive Reached (size : Nat) : Ipt → Prop where
  | init : Reached size (iptInit size)
  | step {ipt after code} (call : Call) :
      Reached size ipt → call.run ipt = .ok (code, after) → Reached size after

theorem call_chained {ipt : Ipt} {chain : Nat → List Nat} (chained : Chained ipt chain)
    (call : Call) :
    ∃ code after chain', call.run ipt = .ok (code, after) ∧ Chained after chain' ∧
      after.size = ipt.size := by
  cases call with
  | add addr =>
      cases free : ipt.freePages with
      | nil => exact ⟨_, ipt, chain, ipt_add_full free addr, chained, rfl⟩
      | cons new rest =>
          obtain ⟨after, added, written, pages, -, hat⟩ := ipt_add_exact chained free addr
          exact ⟨_, after, _, added, chained_add chained free written pages hat, written.size⟩
  | remove addr =>
      cases hit : (chain (bucket ipt.size addr)).find? (answers ipt.entries addr) with
      | none => exact ⟨_, ipt, chain, ipt_remove_absent chained hit, chained, rfl⟩
      | some idx =>
          obtain ⟨left, right, data, split, found, -⟩ := search_hit chained hit
          obtain ⟨after, removed, written, pages, -, hat⟩ := ipt_remove_exact chained hit split found
          exact ⟨_, after, _, removed, chained_remove chained split found written pages hat,
            written.size⟩

theorem reached_chained {size : Nat} (positive : 0 < size) {ipt : Ipt}
    (reached : Reached size ipt) : ipt.size = size ∧ ∃ chain, Chained ipt chain := by
  induction reached with
  | init => exact ⟨rfl, _, ipt_init_chained positive⟩
  | step call _ ran ih =>
      obtain ⟨sized, chain, chained⟩ := ih
      obtain ⟨code, after, chain', ran', kept, same⟩ := call_chained chained call
      rw [ran] at ran'
      cases ran'
      exact ⟨same.trans sized, chain', kept⟩

theorem free_plus_valid {ipt : Ipt} {chain : Nat → List Nat} (chained : Chained ipt chain) :
    ipt.freePages.length + ipt.entries.countP (·.pageData.valid) = ipt.size := by
  let invalid := fun i => (dataOf ipt.entries i).any (!·.valid)
  have same : ipt.freePages.Perm ((List.range ipt.entries.length).filter invalid) := by
    rw [List.perm_ext_iff_of_nodup chained.freeUnique (List.nodup_range.filter _)]
    intro i
    rw [chained.free i, List.mem_filter, List.mem_range]
    constructor
    · rintro ⟨data, found, off⟩
      exact ⟨data_lt found, by simp [invalid, found, off]⟩
    · rintro ⟨-, off⟩
      simpa [invalid, Option.any_eq_true] using off
  -- The free list is a permutation of the invalid entries' indices.
  have counted : ((List.range ipt.entries.length).filter invalid).length =
      ipt.entries.countP (fun entry => !entry.pageData.valid) := by
    have listed : (List.range ipt.entries.length).map invalid =
        ipt.entries.map (fun entry => !entry.pageData.valid) := by
      apply List.ext_getElem
      · simp
      · intro i bound _
        have inside : i < ipt.entries.length := by simpa using bound
        simp [invalid, dataOf, List.getElem?_eq_getElem inside]
    have total := congrArg (List.countP id) listed
    rw [← List.countP_eq_length_filter]
    simpa only [List.countP_map, Function.id_comp] using total
  have split := List.length_eq_countP_add_countP (l := ipt.entries) (·.pageData.valid)
  rw [same.length_eq, counted]
  rw [chained.entriesSized] at split
  simp only [Bool.not_eq_true, Bool.decide_eq_false] at split
  omega

structure Represented (size : Nat) (ipt : Ipt) (chain : Nat → List Nat) : Prop where
  linked : ∀ h < size, ∃ head, ipt.hat[h]? = some head ∧
    Linked (nextOf ipt.entries) (prevOf ipt.entries) head (chain h)
  acyclic : ∀ h < size, (chain h).Nodup
  hashed : ∀ h < size, ∀ i ∈ chain h, ∃ data, dataOf ipt.entries i = some data ∧
    data.valid = true ∧ bucket size data.addr = h
  listed : ∀ i data, dataOf ipt.entries i = some data → data.valid = true →
    ∃! h, h < size ∧ i ∈ chain h
  freeUnique : ipt.freePages.Nodup
  free : ∀ i, i ∈ ipt.freePages ↔ ∃ data, dataOf ipt.entries i = some data ∧ data.valid = false
  total : ipt.freePages.length + ipt.entries.countP (·.pageData.valid) = size

theorem chained_represented {ipt : Ipt} {chain : Nat → List Nat} (chained : Chained ipt chain) :
    Represented ipt.size ipt chain where
  linked := chained.linked
  acyclic := chained.unique
  hashed := fun h bound i member => (chained.member h bound i).mp member
  listed := by
    intro i data found valid
    have bound := bucket_lt chained.positive data.addr
    have member := (chained.member _ bound i).mpr ⟨data, found, valid, rfl⟩
    exact ⟨bucket ipt.size data.addr, ⟨bound, member⟩,
      fun h inside => chains_disjoint chained inside.1 bound inside.2 member⟩
  freeUnique := chained.freeUnique
  free := chained.free
  total := free_plus_valid chained

/-- In every reachable table the invariant holds, both walks return, and so
does every further call: no assertion fails and no index leaves its array. -/
theorem reached_represented {size : Nat} (positive : 0 < size) {ipt : Ipt}
    (reached : Reached size ipt) :
    (∃ chain, Represented size ipt chain) ∧
      (∀ addr, ∃ found, getVaddrIdx ipt addr = .ok found) ∧
      (∀ addr, ∃ last, iptHashListLastElement ipt addr = .ok last) ∧
      ∀ call : Call, ∃ code after, call.run ipt = .ok (code, after) := by
  obtain ⟨rfl, chain, chained⟩ := reached_chained positive reached
  refine ⟨⟨chain, chained_represented chained⟩, ?_, ?_, ?_⟩
  · exact fun addr => ⟨_, get_vaddr_idx_exact chained addr⟩
  · exact fun addr => ⟨_, last_element_exact chained addr⟩
  · intro call
    obtain ⟨code, after, -, ran, -⟩ := call_chained chained call
    exact ⟨code, after, ran⟩

/-- Two pages collide in bucket 0 and the head of the chain is removed. -/
def collided : Ipt :=
  { entries :=
      [⟨⟨⟨0, 5, 0⟩, false, false, false, setMsb 0 true⟩, some 1, none⟩,
        ⟨⟨⟨1, 0, 0⟩, false, false, true, setMsb 0 true⟩, none, none⟩]
    hat := [some 1, none]
    size := 2
    freePages := [0]
    refCount := 0 }

theorem collided_reached : Reached 2 collided :=
  .step (.remove ⟨0, 5, 3⟩) (.step (.add ⟨1, 0, 0⟩) (.step (.add ⟨0, 5, 0⟩) .init rfl) rfl) rfl

theorem reached_represented_collided :
    (∃ chain, Represented 2 collided chain) ∧
      (∀ addr, ∃ found, getVaddrIdx collided addr = .ok found) ∧
      (∀ addr, ∃ last, iptHashListLastElement collided addr = .ok last) ∧
      ∀ call : Call, ∃ code after, call.run collided = .ok (code, after) :=
  reached_represented (by decide) collided_reached

end VmSim.PageTable
