import VmSim.BlockAllocator
import VmSim.ProcessPages

/-!
Creation and deletion of processes against the four stores they write to: the
slots, the allocation bitmap, the disk map and the page table. In a sound
container a live slot owns one block of disk pages and its pages are mapped to
that block; each function below is described by what it makes of such a
container.
-/

namespace VmSim.ProcessTable
open PageTable DiskBlocks KeyedMap FramePool DemandPaging MemoryUnit BlockAllocator AlignedBlocks

def Live (cont : ProcCont) (pid : Nat) (p : Process) : Prop :=
  cont.processes[pid]? = some p ∧ p.junk = false

def starts (processes : List Process) : List Nat :=
  (processes.filter fun p => !p.junk).map (·.diskBlockStart)

structure ContSound (cont : ProcCont) : Prop where
  mmu : MmuSound cont.mmu
  slots : cont.processes.length = cont.maxNumOfProc
  blockSize : cont.mmu.disk.processBlockSize = cont.prcBlkSize
  owned : Owned (starts cont.processes) cont.mmu.disk
  backing : ∀ key page, backingOf cont.mmu key = some page ↔
    ∃ p, Live cont key.1 p ∧ key.2 < cont.prcBlkSize ∧ page = p.diskBlockStart + key.2
  slot : ∀ pid p, Live cont pid p → p.pid = pid ∧ p.mailBox ≠ none

section Starts
variable {processes : List Process} {slot : Nat} {old new : Process}

theorem mem_starts {start : Nat} :
    start ∈ starts processes ↔
      ∃ (pid : Nat) (p : Process), processes[pid]? = some p ∧ p.junk = false ∧
        p.diskBlockStart = start := by
  simp only [starts, List.mem_map, List.mem_filter, Bool.not_eq_true']
  constructor
  · rintro ⟨p, ⟨member, used⟩, same⟩
    obtain ⟨pid, here⟩ := List.mem_iff_getElem?.mp member
    exact ⟨pid, p, here, used, same⟩
  · rintro ⟨pid, p, here, used, same⟩
    exact ⟨p, ⟨List.mem_iff_getElem?.mpr ⟨pid, here⟩, used⟩, same⟩

theorem starts_filled (here : processes[slot]? = some old) (junk : old.junk = true)
    (used : new.junk = false) :
    (starts (processes.set slot new)).Perm (new.diskBlockStart :: starts processes) := by
  obtain ⟨bound, value⟩ := List.getElem?_eq_some_iff.mp here
  have split : processes = processes.take slot ++ old :: processes.drop (slot + 1) := by
    rw [← value]
    simp
  rw [List.set_eq_take_append_cons_drop, if_pos bound]
  have before : starts processes = starts (processes.take slot) ++
      starts (processes.drop (slot + 1)) := by
    conv_lhs => rw [split]
    simp [starts, junk]
  rw [before]
  simp [starts, used]

theorem starts_emptied (here : processes[slot]? = some old) (used : old.junk = false)
    (junk : new.junk = true) :
    (starts processes).Perm (old.diskBlockStart :: starts (processes.set slot new)) := by
  obtain ⟨bound, value⟩ := List.getElem?_eq_some_iff.mp here
  have now : (processes.set slot new)[slot]? = some new := by simp [bound]
  have filled := starts_filled now junk used
  rw [List.set_set] at filled
  subst value
  rwa [List.set_getElem_self] at filled

theorem starts_edited (here : processes[slot]? = some old) (junk : new.junk = old.junk)
    (start : new.diskBlockStart = old.diskBlockStart) :
    starts (processes.set slot new) = starts processes := by
  obtain ⟨bound, value⟩ := List.getElem?_eq_some_iff.mp here
  have split : processes = processes.take slot ++ old :: processes.drop (slot + 1) := by
    rw [← value]
    simp
  rw [List.set_eq_take_append_cons_drop, if_pos bound]
  conv_rhs => rw [split]
  cases used : old.junk <;> simp [starts, junk, used, start]

theorem starts_distinct (unique : (starts processes).Nodup) {left right : Nat} {p q : Process}
    (a : processes[left]? = some p) (b : processes[right]? = some q) (usedA : p.junk = false)
    (usedB : q.junk = false) (same : p.diskBlockStart = q.diskBlockStart) : left = right := by
  have pairs : processes.Pairwise fun p q =>
      p.junk = false → q.junk = false → p.diskBlockStart ≠ q.diskBlockStart := by
    rw [starts, List.Nodup, List.pairwise_map, List.pairwise_filter] at unique
    simpa using unique
  rw [List.pairwise_iff_getElem] at pairs
  obtain ⟨i, rfl⟩ := List.getElem?_eq_some_iff.mp a
  obtain ⟨j, rfl⟩ := List.getElem?_eq_some_iff.mp b
  rcases Nat.lt_trichotomy left right with less | equal | more
  · exact absurd same (pairs left right i j less usedA usedB)
  · exact equal
  · exact absurd same.symm (pairs right left j i more usedB usedA)

end Starts

section Slots
variable {cont : ProcCont}

theorem live_set {after : ProcCont} {slot : Nat} {new : Process}
    (set : after.processes = cont.processes.set slot new) (bound : slot < cont.processes.length)
    (pid : Nat) (p : Process) :
    Live after pid p ↔ if pid = slot then p = new ∧ new.junk = false else Live cont pid p := by
  unfold Live
  rw [set]
  by_cases same : pid = slot
  · subst same
    simp only [List.getElem?_set_self bound, Option.some.injEq, if_true]
    constructor
    · rintro ⟨rfl, used⟩
      exact ⟨rfl, used⟩
    · rintro ⟨rfl, used⟩
      exact ⟨rfl, used⟩
  · rw [if_neg same, List.getElem?_set_ne (Ne.symm same)]

theorem live_start {pid : Nat} {p : Process} (live : Live cont pid p) :
    p.diskBlockStart ∈ starts cont.processes := mem_starts.mpr ⟨pid, p, live.1, live.2, rfl⟩

theorem backing_covered (sound : ContSound cont) {key : Key} {page : Nat}
    (backed : backingOf cont.mmu key = some page) :
    Covered cont.prcBlkSize (starts cont.processes) page := by
  obtain ⟨p, live, inside, rfl⟩ := (sound.backing key page).mp backed
  exact ⟨p.diskBlockStart, live_start live, by omega, by omega⟩

/-- The container stays sound when one slot is replaced, if exactly the pages below the
block size are then backed by the new block, and no other process is touched. -/
theorem replaced_sound (sound : ContSound cont) {slot : Nat} {new : Process} {mmu : Mmu}
    (bound : slot < cont.processes.length) (mmuSound : MmuSound mmu)
    (blockSize : mmu.disk.processBlockSize = cont.prcBlkSize)
    (owned : Owned (starts (cont.processes.set slot new)) mmu.disk)
    (own : ∀ key, InRange slot 0 cont.prcBlkSize key → ∀ page,
      (backingOf mmu key = some page ↔ new.junk = false ∧ page = new.diskBlockStart + key.2))
    (rest : ∀ key, ¬ InRange slot 0 cont.prcBlkSize key → backingOf mmu key = backingOf cont.mmu key)
    (valid : new.junk = false → new.pid = slot ∧ new.mailBox ≠ none) :
    ContSound { cont with processes := cont.processes.set slot new, mmu := mmu } := by
  let after : ProcCont := { cont with processes := cont.processes.set slot new, mmu := mmu }
  have set : after.processes = cont.processes.set slot new := rfl
  have lives := live_set set bound
  refine ⟨mmuSound, by simpa using sound.slots, blockSize, owned, fun key page => ?_, fun pid p live => ?_⟩
  · change backingOf mmu key = some page ↔
      ∃ p, Live after key.1 p ∧ key.2 < cont.prcBlkSize ∧ page = p.diskBlockStart + key.2
    by_cases mine : key.1 = slot
    · by_cases inside : key.2 < cont.prcBlkSize
      · rw [own key ⟨mine, by omega, by omega⟩]
        simp [lives, mine, inside, and_assoc]
      · -- A page beyond the block has no backing page, before as after.
        have beyond : ¬ InRange slot 0 cont.prcBlkSize key := by
          rintro ⟨-, -, high⟩
          omega
        rw [rest key beyond, sound.backing]
        simp [inside]
    -- Another process has the backing it had.
    · rw [rest key fun range => mine range.1]
      simp only [lives, if_neg mine]
      exact sound.backing key page
  · change Live after pid p at live
    rw [lives] at live
    by_cases same : pid = slot
    · rw [if_pos same] at live
      obtain ⟨rfl, used⟩ := live
      exact same ▸ valid used
    · rw [if_neg same] at live
      exact sound.slot pid p live

theorem find_junk_cases {i count : Nat} (fits : i + count ≤ cont.processes.length) :
    (findJunk cont i count = .ok none ∧
      ∀ j p, i ≤ j → j < i + count → cont.processes[j]? = some p → p.junk = false) ∨
    ∃ slot p, findJunk cont i count = .ok (some slot) ∧ cont.processes[slot]? = some p ∧
      p.junk = true := by
  induction count generalizing i with
  | zero =>
      left
      exact ⟨rfl, fun j p low high _ => absurd high (by omega)⟩
  | succ count ih =>
      have here : cont.processes[i]? = some cont.processes[i] :=
        List.getElem?_eq_getElem (by omega)
      cases junk : cont.processes[i].junk with
      | true => exact .inr ⟨i, _, by simp [findJunk, load_of_get here, junk], here, junk⟩
      | false =>
          have skips : findJunk cont i (count + 1) = findJunk cont (i + 1) count := by
            simp [findJunk, load_of_get here, junk]
          rw [skips]
          have within : i + 1 + count ≤ cont.processes.length := by omega
          rcases ih within with ⟨none, rest⟩ | found
          -- The slot at hand is in use, and the rest of the scan found no other.
          · refine .inl ⟨none, fun j p low high at_j => ?_⟩
            by_cases first : j = i
            · subst first
              rw [here] at at_j
              injection at_j with same
              exact same ▸ junk
            · exact rest j p (by omega) (by omega) at_j
          · exact .inr found

end Slots

/-! Creation. -/

section Creation
variable {cont : ProcCont}

def newProcess (slot page : Nat) : Process :=
  { zeroProcess with diskBlockStart := page, mailBox := some [], pid := slot }

@[simp] theorem new_process_start (slot page : Nat) :
    (newProcess slot page).diskBlockStart = page := rfl

@[simp] theorem new_process_junk (slot page : Nat) : (newProcess slot page).junk = false := rfl

structure Created (cont : ProcCont) (slot page : Nat) (after : ProcCont) : Prop where
  sound : ContSound after
  processes : after.processes = cont.processes.set slot (newProcess slot page)
  maxNumOfProc : after.maxNumOfProc = cont.maxNumOfProc
  prcBlkSize : after.prcBlkSize = cont.prcBlkSize
  pages : ∃ disk, Marked cont.mmu.disk disk page (page + cont.prcBlkSize) true ∧
    Chain { cont.mmu with disk := disk } (allocActions slot 0 page cont.prcBlkSize) after.mmu

theorem fill_slot_exact (sound : ContSound cont) {slot page : Nat} {old : Process} {disk : Disk}
    (here : cont.processes[slot]? = some old) (junk : old.junk = true)
    (marked : Marked cont.mmu.disk disk page (page + cont.prcBlkSize) true)
    (aligned : cont.prcBlkSize ∣ page) (fits : page + cont.prcBlkSize ≤ cont.mmu.disk.npages)
    (vacant : ¬ Covered cont.prcBlkSize (starts cont.processes) page) :
    ∃ after, fillSlot { cont with processes := cont.processes.set slot zeroProcess
                                  mmu := { cont.mmu with disk := disk } } slot page =
        .ok ((slot : Int), [], after) ∧ Created cont slot page after := by
  obtain ⟨bound, value⟩ := List.getElem?_eq_some_iff.mp here
  have blockSize := sound.blockSize
  obtain ⟨marks, -⟩ := marked_sound sound.mmu marked (by simp)
  have vacancy : ∀ i, i < cont.prcBlkSize →
      ¬ Covered cont.prcBlkSize (starts cont.processes) (page + i) := by
    intro i inside
    have packed := sound.owned.packed
    rw [blockSize] at packed
    exact aligned_gap_open packed aligned vacant inside
  have unbacked : ∀ key, InRange slot 0 cont.prcBlkSize key → backingOf cont.mmu key = none := by
    rintro key ⟨rfl, -, -⟩
    cases backed : backingOf cont.mmu key with
    | none => rfl
    | some other =>
        obtain ⟨p, live, -, -⟩ := (sound.backing key other).mp backed
        have same : some old = some p := here.symm.trans live.1
        injection same with same
        rw [same, live.2] at junk
        cases junk
  have unused : ∀ i, i < cont.prcBlkSize → ∀ key, backingOf cont.mmu key ≠ some (page + i) :=
    fun i inside key backed => vacancy i inside (backing_covered sound backed)
  have taken : ∀ i, i < cont.prcBlkSize →
      page + i < disk.npages ∧ allocated disk (page + i) = true := by
    intro i inside
    rw [marked.npages, marked.bits, if_pos ⟨by omega, by omega⟩]
    exact ⟨by omega, rfl⟩
  -- The block is unbacked, unused and marked, so all of its pages can be allocated.
  obtain ⟨mmu, allocated, chain, lookups⟩ := alloc_multiple_exact marks unbacked unused taken
  have shape := chain_shape chain
  have owned := alloc_owned sound.owned (by rw [blockSize]; exact marked)
    (by rw [blockSize]; exact aligned) (by rw [blockSize]; exact fits)
    (by rw [blockSize]; exact vacant)
  have filled := starts_filled here junk (new_process_junk slot page)
  have ownedAfter := owned_bitmap (owned_perm owned filled.symm) shape.bitmap shape.diskPages
    shape.blockSize
  refine ⟨{ cont with processes := cont.processes.set slot (newProcess slot page), mmu := mmu },
    ?_, ?_, rfl, rfl, rfl, disk, marked, chain⟩
  · simp [fillSlot, allocated, load_set bound, workerThreadCreate, store, bound]
    rfl
  · refine replaced_sound sound bound (chain_sound marks chain)
      (shape.blockSize.trans (marked.blockSize.trans blockSize)) ownedAfter ?_ ?_ ?_
    · intro key range other
      rw [lookups key, if_pos range]
      simp [eq_comm]
    · intro key outside
      rw [lookups key, if_neg outside]
      rfl
    · exact fun _ => ⟨rfl, by simp [newProcess]⟩

theorem init_process_cases (sound : ContSound cont) (past : Nat → PackedBitmap.Block) :
    (initProcess past cont = .ok (-1, [], cont) ∧
      ∀ (pid : Nat) p, cont.processes[pid]? = some p → p.junk = false) ∨
    ∃ (slot : Nat) (old : Process), cont.processes[slot]? = some old ∧ old.junk = true ∧
      ((initProcess past cont =
          .ok (-2, [⟨slot⟩], { cont with processes := cont.processes.set slot zeroProcess }) ∧
        diskAllocProcessBlock past cont.mmu.disk = .ok (none, cont.mmu.disk) ∧
        ∀ gap, cont.prcBlkSize ∣ gap → gap + cont.prcBlkSize ≤ cont.mmu.disk.npages →
          Covered cont.prcBlkSize (starts cont.processes) gap) ∨
      (initProcess past cont = .error .overflow ∧
        diskAllocProcessBlock past cont.mmu.disk = .error .overflow) ∨
      ∃ page after, initProcess past cont = .ok ((slot : Int), [], after) ∧
        Created cont slot page after ∧
        page + cont.prcBlkSize ≤ cont.mmu.disk.npages ∧ cont.prcBlkSize ∣ page ∧
        ¬ Covered cont.prcBlkSize (starts cont.processes) page ∧
        PackedBitmap.bitmapFirstClear past cont.mmu.disk.allocBitmap = some page) := by
  have within : 0 + cont.maxNumOfProc ≤ cont.processes.length := by rw [sound.slots]; omega
  rcases find_junk_cases within with ⟨full, used⟩ | ⟨slot, old, found, here, junk⟩
  · left
    refine ⟨by simp [initProcess, full], fun pid p at_pid => ?_⟩
    have bound := (List.getElem?_eq_some_iff.mp at_pid).1
    rw [sound.slots] at bound
    exact used pid p (by omega) (by omega) at_pid
  · right
    have bound := (List.getElem?_eq_some_iff.mp here).1
    refine ⟨slot, old, here, junk, ?_⟩
    have cases := alloc_cases sound.owned past
    rw [sound.blockSize] at cases
    rcases cases with ⟨page, disk, taken, marked, aligned, fits, -, vacant⟩ | ⟨none, full⟩ |
      ⟨wrapped, -⟩
    · right; right
      obtain ⟨after, filled, created⟩ := fill_slot_exact sound here junk marked aligned fits vacant
      refine ⟨page, after, ?_, created, fits, aligned, vacant, alloc_first taken⟩
      simp [initProcess, found, store, bound, taken, filled]
    · left
      exact ⟨by simp [initProcess, found, store, bound, none], none, full⟩
    · right; left
      exact ⟨by simp [initProcess, found, store, bound, wrapped], wrapped⟩

end Creation

/-! Deletion. -/

section Deletion
variable {cont : ProcCont}

structure Destroyed (cont : ProcCont) (pid : Nat) (p : Process) (after : ProcCont) : Prop where
  sound : ContSound after
  processes : after.processes = cont.processes.set pid { p with mailBox := none, junk := true }
  maxNumOfProc : after.maxNumOfProc = cont.maxNumOfProc
  prcBlkSize : after.prcBlkSize = cont.prcBlkSize
  pages : ∃ middle disk, Chain cont.mmu (freeActions pid 0 cont.prcBlkSize) middle ∧
    Marked middle.disk disk p.diskBlockStart (p.diskBlockStart + cont.prcBlkSize) false ∧
    after.mmu = { middle with disk := disk }

/-- The deletion of a live process with its flag set gets as far as the free of
the thread argument, which a process that was never started does not have. -/
theorem process_dealloc_exact (sound : ContSound cont) {pid : Nat} {p : Process}
    (live : Live cont pid p) (del : p.del = true) :
    ∃ after, Destroyed cont pid p after ∧
      processDealloc cont pid =
        if p.procThrdArg.isSome then .ok (.ecSuccess, after)
        else .error (.assertion .funcArgDestroy) := by
  obtain ⟨here, used⟩ := live
  obtain ⟨bound, value⟩ := List.getElem?_eq_some_iff.mp here
  have blockSize := sound.blockSize
  obtain ⟨box, mail⟩ := Option.ne_none_iff_exists'.mp (sound.slot pid p ⟨here, used⟩).2
  have backed : ∀ key, InRange pid 0 cont.prcBlkSize key → backingOf cont.mmu key ≠ none := by
    rintro key ⟨rfl, -, high⟩
    have stored := (sound.backing key _).mpr ⟨p, ⟨here, used⟩, by omega, rfl⟩
    simp [stored]
  obtain ⟨middle, freed, chain, lookups⟩ := free_multiple_exact sound.mmu backed
  have shape := chain_shape chain
  have owned : Owned (starts cont.processes) middle.disk :=
    owned_bitmap sound.owned shape.bitmap shape.diskPages shape.blockSize
  have member := live_start ⟨here, used⟩
  have middleBlock : middle.disk.processBlockSize = cont.prcBlkSize :=
    shape.blockSize.trans blockSize
  obtain ⟨disk, released, marked⟩ := free_exact owned member
  -- The block freed is the one of the slot emptied.
  have emptied : (starts cont.processes).Perm (p.diskBlockStart ::
      starts (cont.processes.set pid { p with mailBox := none, junk := true })) :=
    starts_emptied here used rfl
  have remaining := emptied.erase p.diskBlockStart
  rw [List.erase_cons_head] at remaining
  have ownedAfter := owned_perm (free_owned owned member marked) remaining
  rw [middleBlock] at marked
  have unbacked : ∀ i, p.diskBlockStart ≤ i → i < p.diskBlockStart + cont.prcBlkSize →
      ∀ key, backingOf middle key ≠ some i := by
    intro i low high key stored
    rw [lookups key] at stored
    split at stored
    · cases stored
    -- Two live processes have distinct blocks, so nobody else is backed by this one's pages.
    · rename_i outside
      obtain ⟨q, other, inside, rfl⟩ := (sound.backing key i).mp stored
      have packed := sound.owned.packed
      rw [blockSize] at packed
      have same : q.diskBlockStart = p.diskBlockStart :=
        aligned_same (packed.aligned _ (live_start other)) (packed.aligned _ member)
          (by omega) (by omega)
      have one := starts_distinct packed.unique other.1 here other.2 used same
      exact outside ⟨one, by omega, by omega⟩
  obtain ⟨marks, -⟩ := marked_sound (chain_sound sound.mmu chain) marked fun _ => unbacked
  have kept : ContSound { cont with
      processes := cont.processes.set pid { p with mailBox := none, junk := true }
      mmu := { middle with disk := disk } } := by
    refine replaced_sound sound bound marks (marked.blockSize.trans middleBlock) ownedAfter ?_ ?_ ?_
    · intro key range page
      change backingOf middle key = some page ↔ _
      rw [lookups key, if_pos range]
      simp
    · intro key outside
      change backingOf middle key = _
      rw [lookups key, if_neg outside]
    · exact fun used => absurd used (by simp)
  refine ⟨_, ⟨kept, rfl, rfl, rfl, middle, disk, chain, marked, rfl⟩, ?_⟩
  cases started : p.procThrdArg with
  | none =>
      simp [processDealloc, load_of_get here, used, del, mail, freed, released, store, bound,
        funcArgDestroy, started]
  | some arg =>
      simp [processDealloc, load_of_get here, used, del, mail, freed, released, store, bound,
        funcArgDestroy, started]

end Deletion

/-! The other steps of the program keep the four stores in step. -/

section Upkeep
variable {cont : ProcCont}

theorem edited_sound (sound : ContSound cont) {pid : Nat} {old new : Process}
    (here : cont.processes[pid]? = some old) (junk : new.junk = old.junk)
    (start : new.diskBlockStart = old.diskBlockStart)
    (slot : Live cont pid old → new.pid = pid ∧ new.mailBox ≠ none) :
    ContSound { cont with processes := cont.processes.set pid new } := by
  obtain ⟨bound, value⟩ := List.getElem?_eq_some_iff.mp here
  let after : ProcCont := { cont with processes := cont.processes.set pid new }
  have set : after.processes = cont.processes.set pid new := rfl
  have lives := live_set set bound
  refine ⟨sound.mmu, by simpa using sound.slots, sound.blockSize, ?_, ?_, ?_⟩
  · change Owned (starts (cont.processes.set pid new)) cont.mmu.disk
    rw [starts_edited here junk start]
    exact sound.owned
  · intro key page
    refine (sound.backing key page).trans ?_
    change _ ↔ ∃ q, Live after key.1 q ∧ _
    simp only [lives]
    by_cases mine : key.1 = pid
    · simp [mine, Live, here, junk, start]
    · simp only [if_neg mine]
  · intro other q live
    rw [lives] at live
    split at live
    · rename_i mine
      obtain ⟨rfl, used⟩ := live
      exact mine ▸ slot ⟨here, junk ▸ used⟩
    · exact sound.slot other q live

theorem acts_cont_sound (sound : ContSound cont) {mmu : Mmu} (mmuSound : MmuSound mmu)
    (shape : SameShape cont.mmu mmu) (backing : backingOf mmu = backingOf cont.mmu) :
    ContSound { cont with mmu := mmu } where
  mmu := mmuSound
  slots := sound.slots
  blockSize := shape.blockSize.trans sound.blockSize
  owned := owned_bitmap sound.owned shape.bitmap shape.diskPages shape.blockSize
  backing := by
    intro key page
    change backingOf mmu key = some page ↔ _
    rw [backing]
    exact sound.backing key page
  slot := sound.slot

theorem process_start_exact (sound : ContSound cont) {pid : Nat} {p : Process}
    (here : cont.processes[pid]? = some p) :
    ∃ new, processStart cont pid = .ok { cont with processes := cont.processes.set pid new } ∧
      new = { p with procThrdArg := some ⟨pid⟩
                     procThrd := ⟨some ⟨pid⟩, p.procThrd.stop, true⟩ } ∧
      ContSound { cont with processes := cont.processes.set pid new } := by
  have bound := (List.getElem?_eq_some_iff.mp here).1
  refine ⟨_, ?_, rfl, edited_sound sound here rfl rfl fun live => sound.slot pid p live⟩
  simp [processStart, load_of_get here, store, bound]

theorem process_destroy_cases (sound : ContSound cont) (id : Nat) :
    (∃ errcode, processDestroy cont id = .ok (errcode, cont) ∧ errcode ≠ .ecSuccess ∧
      ∀ p, ¬ Live cont id p) ∨
    ∃ p box, Live cont id p ∧
      processDestroy cont id = .ok (.ecSuccess, { cont with
        processes := cont.processes.set id { p with del := true, mailBox := some box } }) ∧
      ContSound { cont with
        processes := cont.processes.set id { p with del := true, mailBox := some box } } := by
  by_cases outside : cont.maxNumOfProc ≤ id
  · refine .inl ⟨.ecFail, by simp [processDestroy, outside], by simp, ?_⟩
    rintro p ⟨here, -⟩
    have bound := (List.getElem?_eq_some_iff.mp here).1
    rw [sound.slots] at bound
    omega
  · have bound : id < cont.processes.length := by rw [sound.slots]; omega
    have here : cont.processes[id]? = some cont.processes[id] := List.getElem?_eq_getElem bound
    generalize cont.processes[id] = p at here
    cases used : p.junk with
    | true =>
        refine .inl ⟨.ecNotFound, by simp [processDestroy, outside, load_of_get here, used],
          by simp, ?_⟩
        rintro q ⟨at_id, free⟩
        rw [here] at at_id
        injection at_id with same
        rw [same, free] at used
        cases used
    | false =>
        right
        have live : Live cont id p := ⟨here, used⟩
        obtain ⟨box, mail⟩ := Option.ne_none_iff_exists'.mp (sound.slot id p live).2
        have within : ¬ cont.maxNumOfProc < id := by omega
        -- The deletion is posted once: a slot already marked is left as it is.
        have edited : ∀ box', ContSound { cont with
            processes := cont.processes.set id { p with del := true, mailBox := some box' } } :=
          fun box' => edited_sound sound here rfl rfl fun live =>
            ⟨(sound.slot id p live).1, by simp⟩
        cases del : p.del with
        | true =>
            refine ⟨p, box, live, ?_, edited box⟩
            simp [processDestroy, composeMail, outside, within, load_of_get here, used, del, store,
              bound]
            rw [← del, ← mail]
        | false =>
            refine ⟨p, box ++ [createPost .fcDel 0], live, ?_, edited _⟩
            simp [processDestroy, composeMail, outside, within, load_of_get here, used, del, store,
              bound, mail, load_set]

end Upkeep

end VmSim.ProcessTable
