import VmSim.Library.ThreadRules
import VmSim.WaitInvariant

/-!
Which lock guards what: the lock of the MMU the links and labels of the page table
and the disk map, the locks of the disk, of the statistics, of the reference count,
of the queue and of the daemon what their names say, and the mutex of the container
the slots. The bytes of the memory are not among the data: `mmu_write` copies under
the MMU's lock for reading. Neither are the marks and ages of the pages, which
`ipt_reference` and `age_page` write under different locks, nor the flag `running`.
-/

namespace VmSim.ThreadCode
open LockedThreads Interleaving PageTable DiskBlocks KeyedMap MemoryUnit PageReplacement PagingRuns

inductive Datum where
  | pageTable
  | diskMap
  | replacement
  | stats
  | refCount
  | diskData
  | bitmap
  | queue
  | done
  | update
  | slots
  deriving DecidableEq, Repr

def Datum.lock : Datum → Lock
  | .pageTable => .mmu
  | .diskMap => .mmu
  | .replacement => .mmu
  | .stats => .stats
  | .refCount => .refcnt
  | .diskData => .disk
  | .bitmap => .disk
  | .queue => .prmQueue
  | .done => .prm
  | .update => .daemon
  | .slots => .cont

def label (entry : IptEntry) : VirtAddr × Bool × Option Nat × Option Nat :=
  (entry.pageData.addr, entry.pageData.valid, entry.next, entry.prev)

/-- The page table without marks, ages and reference count. -/
structure SameTable (ipt after : Ipt) : Prop where
  labels : after.entries.map label = ipt.entries.map label
  hat : after.hat = ipt.hat
  size : after.size = ipt.size
  freePages : after.freePages = ipt.freePages

/-- A command counts as done once it has been handed out. -/
def Control.isDone (c : Control) (cmd : Nat) : Bool := decide (cmd < c.fresh) && (c.command cmd).done

def Slot.booked (slot : Slot) : Bool × Bool × Nat := (slot.junk, slot.del, slot.diskBlockStart)

def Datum.Same (before after : Shared) : Datum → Prop
  | .pageTable => SameTable before.machine.mmu.memIpt after.machine.mmu.memIpt
  | .diskMap => after.machine.mmu.diskMap = before.machine.mmu.diskMap
  | .replacement => after.machine.prm = before.machine.prm
  | .stats => after.machine.mmu.stats = before.machine.mmu.stats
  | .refCount => after.machine.mmu.memIpt.refCount = before.machine.mmu.memIpt.refCount
  | .diskData => after.machine.mmu.disk.data = before.machine.mmu.disk.data
  | .bitmap => after.machine.mmu.disk.allocBitmap = before.machine.mmu.disk.allocBitmap
  | .queue => after.control.queue = before.control.queue
  | .done => after.control.isDone = before.control.isDone
  | .update => after.control.shouldUpdate = before.control.shouldUpdate ∧
      after.control.doneUpdating = before.control.doneUpdating
  | .slots => ∀ i, (after.control.slot i).booked = (before.control.slot i).booked

theorem same_table_refl (ipt : Ipt) : SameTable ipt ipt := ⟨rfl, rfl, rfl, rfl⟩

theorem datum_refl (datum : Datum) (sh : Shared) : datum.Same sh sh := by
  cases datum with
  | pageTable => exact same_table_refl _
  | update => exact ⟨rfl, rfl⟩
  | slots => exact fun _ => rfl
  | _ => rfl

theorem datum_trans (datum : Datum) (first second third : Shared) (left : datum.Same first second)
    (right : datum.Same second third) : datum.Same first third := by
  cases datum with
  | pageTable =>
      exact ⟨right.labels.trans left.labels, right.hat.trans left.hat, right.size.trans left.size,
        right.freePages.trans left.freePages⟩
  | update => exact ⟨right.1.trans left.1, right.2.trans left.2⟩
  | slots => exact fun i => (right i).trans (left i)
  | _ => exact Eq.trans right left

/-! What the statements on the page table leave of it, sound or not. -/

section Tables
variable {ipt after : Ipt} {addr : VirtAddr} {errcode : Errcode}

theorem store_label {entries changed : List IptEntry} {idx : Nat} {entry entry' : IptEntry}
    (loaded : load entries idx = .ok entry) (stored : store entries idx entry' = .ok changed)
    (same : label entry' = label entry) : changed.map label = entries.map label := by
  have here := load_ok.mp loaded
  obtain ⟨bound, found⟩ := List.getElem?_eq_some_iff.mp here
  rw [store_of_lt bound] at stored
  cases stored
  apply List.ext_getElem?
  intro i
  by_cases mine : i = idx
  · subst mine
    simp [bound, found, same]
  · simp [Ne.symm mine]

theorem reference_table {reftype : RefType} (done : iptReference ipt addr reftype = .ok after) :
    SameTable ipt after := by
  simp only [iptReference, bind_eq_ok, pure_eq_ok, Except.ok.injEq] at done
  obtain ⟨-, -, -, -, ⟨idx, entry⟩, found, entries, stored, rfl⟩ := done
  have loaded : load ipt.entries idx = .ok entry := by
    simp only [entryOf, bind_eq_ok] at found
    obtain ⟨index, -, at_index⟩ := found
    cases index with
    | none => cases at_index
    | some i =>
        simp only [bind_eq_ok, pure_eq_ok, Except.ok.injEq, Prod.mk.injEq] at at_index
        obtain ⟨other, loaded, rfl, rfl⟩ := at_index
        exact loaded
  refine ⟨store_label loaded stored ?_, rfl, rfl, rfl⟩
  cases reftype <;> rfl

theorem aged_labels (entries : List IptEntry) (i : Nat) :
    (forEachEntry agePage i entries ()).1.map label = entries.map label := by
  rw [for_each_age, List.map_map]
  refine List.map_congr_left fun entry _ => ?_
  simp only [Function.comp, agedEntry]
  split <;> rfl

theorem set_hat_count {idx : Option Nat} (done : iptSetHat ipt addr idx = .ok after) :
    after.refCount = ipt.refCount := by
  simp only [iptSetHat, bind_eq_ok, pure_eq_ok, Except.ok.injEq] at done
  obtain ⟨-, -, -, -, rfl⟩ := done
  rfl

theorem set_next_count {idx : Nat} {target : Option Nat} (done : setNext ipt idx target = .ok after) :
    after.refCount = ipt.refCount := by
  simp only [setNext, bind_eq_ok, pure_eq_ok, Except.ok.injEq] at done
  obtain ⟨-, -, -, -, rfl⟩ := done
  rfl

theorem set_prev_count {idx : Nat} {target : Option Nat} (done : setPrev ipt idx target = .ok after) :
    after.refCount = ipt.refCount := by
  simp only [setPrev, bind_eq_ok, pure_eq_ok, Except.ok.injEq] at done
  obtain ⟨-, -, -, -, rfl⟩ := done
  rfl

theorem add_count (done : iptAdd ipt addr = .ok (errcode, after)) :
    after.refCount = ipt.refCount := by
  unfold iptAdd iptGetNextFreeEntry at done
  cases free : ipt.freePages with
  | nil =>
      simp only [free] at done
      cases done
      rfl
  | cons new rest =>
      simp only [free, bind_eq_ok] at done
      obtain ⟨tail, -, linking⟩ := done
      have filled : ∀ linked : Ipt, linked.refCount = ipt.refCount →
          (initIptSlot linked new addr none tail >>= fun ipt => pure (Errcode.ecSuccess, ipt)) =
            .ok (errcode, after) → after.refCount = ipt.refCount := by
        intro linked count done
        simp only [initIptSlot, bind_eq_ok, pure_eq_ok, Except.ok.injEq, Prod.mk.injEq] at done
        obtain ⟨-, ⟨-, -, rfl⟩, -, rfl⟩ := done
        exact count
      cases tail with
      | none =>
          obtain ⟨linked, link, slot⟩ := bind_eq_ok.mp linking
          have count : linked.refCount = ({ ipt with freePages := rest } : Ipt).refCount :=
            set_hat_count link
          exact filled linked count slot
      | some last =>
          obtain ⟨linked, link, slot⟩ := bind_eq_ok.mp linking
          have count : linked.refCount = ({ ipt with freePages := rest } : Ipt).refCount :=
            set_next_count link
          exact filled linked count slot

theorem remove_count (done : iptRemove ipt addr = .ok (errcode, after)) :
    after.refCount = ipt.refCount := by
  simp only [iptRemove, bind_eq_ok] at done
  obtain ⟨found, -, rest⟩ := done
  cases found with
  | none =>
      cases rest
      rfl
  | some idx =>
      simp only [bind_eq_ok, pure_eq_ok, Except.ok.injEq, Prod.mk.injEq] at rest
      obtain ⟨entry, -, headed, head, preceded, previous, followed, following, dropped, gone, -, rfl⟩ :=
        rest
      have first : headed.refCount = ipt.refCount := by
        cases before : entry.prev with
        | none => exact set_hat_count (by simpa only [unlinkHead, before] using head)
        | some i =>
            simp only [unlinkHead, before] at head
            cases head
            rfl
      have second : preceded.refCount = headed.refCount := by
        cases behind : entry.next with
        | none =>
            simp only [unlinkPrev, behind] at previous
            cases previous
            rfl
        | some i => exact set_prev_count (by simpa only [unlinkPrev, behind] using previous)
      have third : followed.refCount = preceded.refCount := by
        cases before : entry.prev with
        | none =>
            simp only [unlinkNext, before] at following
            cases following
            rfl
        | some i => exact set_next_count (by simpa only [unlinkNext, before] using following)
      have last : dropped.refCount = followed.refCount := by
        simp only [invalidate, bind_eq_ok, pure_eq_ok, Except.ok.injEq] at gone
        obtain ⟨-, -, -, -, rfl⟩ := gone
        rfl
      exact last.trans (third.trans (second.trans first))

end Tables

/-! What the statements of the MMU change. -/

/-- A change of the MMU inside the data that a thread with these locks may change. -/
structure Confines (claims : List (Lock × Mode)) (mmu after : Mmu) : Prop where
  table : (Lock.mmu, Mode.write) ∉ claims → SameTable mmu.memIpt after.memIpt
  map : (Lock.mmu, Mode.write) ∉ claims → after.diskMap = mmu.diskMap
  stats : (Lock.stats, Mode.write) ∉ claims → after.stats = mmu.stats
  count : (Lock.refcnt, Mode.write) ∉ claims → after.memIpt.refCount = mmu.memIpt.refCount
  disk : (Lock.disk, Mode.write) ∉ claims → after.disk = mmu.disk
  pages : after.disk.npages = mmu.disk.npages

/-- The disk has as many pages as before, and there are as many slots. -/
structure SameSizes (sh after : Shared) : Prop where
  pages : after.machine.mmu.disk.npages = sh.machine.mmu.disk.npages
  slots : after.control.maxNumOfProc = sh.control.maxNumOfProc

/-- The change of a step without any of the control data. -/
structure Confined (claims : List (Lock × Mode)) (sh after : Shared) : Prop where
  data : ∀ datum : Datum, (datum.lock, Mode.write) ∉ claims → datum.Same sh after
  spawned : after.control.spawned = sh.control.spawned
  sizes : SameSizes sh after

section Statements
variable {claims : List (Lock × Mode)} {mmu after : Mmu} {sh : Shared}

theorem confines_refl (claims : List (Lock × Mode)) (mmu : Mmu) : Confines claims mmu mmu :=
  ⟨fun _ => same_table_refl _, fun _ => rfl, fun _ => rfl, fun _ => rfl, fun _ => rfl, rfl⟩

theorem confined_refl (claims : List (Lock × Mode)) (sh : Shared) : Confined claims sh sh :=
  ⟨fun datum _ => datum_refl datum sh, rfl, ⟨rfl, rfl⟩⟩

theorem on_mmu_confined (confines : Confines claims sh.machine.mmu after) :
    Confined claims sh (sh.onMmu after) := by
  refine ⟨fun datum unclaimed => ?_, rfl, ⟨confines.pages, rfl⟩⟩
  cases datum with
  | pageTable => exact confines.table unclaimed
  | diskMap => exact confines.map unclaimed
  | stats => exact confines.stats unclaimed
  | refCount => exact confines.count unclaimed
  | diskData => exact congrArg Disk.data (confines.disk unclaimed)
  | bitmap => exact congrArg Disk.allocBitmap (confines.disk unclaimed)
  | update => exact ⟨rfl, rfl⟩
  | slots => exact fun _ => rfl
  | _ => rfl

theorem table_confined (has : (Lock.mmu, Mode.write) ∈ claims) {ipt : Ipt}
    (count : ipt.refCount = mmu.memIpt.refCount) (map : AssocMap VirtAddr Nat) (mem : Mm) :
    Confines claims mmu { mmu with memIpt := ipt, diskMap := map, mem := mem } :=
  ⟨fun none => absurd has none, fun none => absurd has none, fun _ => rfl, fun _ => count, fun _ => rfl, rfl⟩

theorem in_page_confined {a : Access} (done : inPage a mmu = .ok after) :
    Confines claims mmu after := by
  have same : after = mmu := by
    cases a with
    | read addr nbytes =>
        obtain ⟨_, -, made⟩ := bind_eq_ok.mp done
        exact (Except.ok.inj made).symm
    | write addr buf =>
        obtain ⟨_, -, made⟩ := bind_eq_ok.mp done
        exact (Except.ok.inj made).symm
  rw [same]
  exact confines_refl claims mmu

theorem count_confined {hit : Bool} (done : countReference hit mmu = .ok after)
    (has : (Lock.stats, Mode.write) ∈ claims) : Confines claims mmu after := by
  cases done
  exact ⟨fun _ => same_table_refl _, fun _ => rfl, fun none => absurd has none, fun _ => rfl,
    fun _ => rfl, rfl⟩

theorem reference_confined {a : Access} (done : reference a mmu = .ok after)
    (has : (Lock.refcnt, Mode.write) ∈ claims) : Confines claims mmu after := by
  obtain ⟨ipt, referenced, made⟩ := bind_eq_ok.mp done
  cases made
  exact ⟨fun _ => reference_table referenced, fun _ => rfl, fun _ => rfl, fun none => absurd has none,
    fun _ => rfl, rfl⟩

/-- The bytes of the memory are nobody's datum. -/
theorem memory_confined (mem : Mm) : Confines claims mmu { mmu with mem := mem } :=
  ⟨fun _ => same_table_refl _, fun _ => rfl, fun _ => rfl, fun _ => rfl, fun _ => rfl, rfl⟩

theorem copy_confined {a : Access} (done : copyBytes a mmu = .ok after) :
    Confines claims mmu after := by
  obtain ⟨memPage, -, copied⟩ := bind_eq_ok.mp done
  cases a with
  | read addr nbytes =>
      obtain ⟨-, -, made⟩ := bind_eq_ok.mp copied
      cases made
      exact confines_refl claims mmu
  | write addr buf =>
      obtain ⟨data, -, made⟩ := bind_eq_ok.mp copied
      cases made
      exact memory_confined _

theorem zero_confined (has : (Lock.refcnt, Mode.write) ∈ claims) :
    Confines claims mmu { mmu with memIpt := iptZeroRefCount mmu.memIpt } :=
  ⟨fun _ => ⟨rfl, rfl, rfl, rfl⟩, fun _ => rfl, fun _ => rfl, fun none => absurd has none, fun _ => rfl, rfl⟩

theorem age_confined : Confines claims mmu (agePages mmu) :=
  ⟨fun _ => ⟨aged_labels mmu.memIpt.entries 0, rfl, rfl, rfl⟩, fun _ => rfl, fun _ => rfl, fun _ => rfl,
    fun _ => rfl, rfl⟩

theorem map_page_confined {addr : VirtAddr} {errcode : Errcode}
    (done : mmuMapPage mmu addr = .ok (errcode, after)) (has : (Lock.mmu, Mode.write) ∈ claims) :
    Confines claims mmu after := by
  simp only [mmuMapPage, bind_eq_ok] at done
  obtain ⟨-, -, -, -, ⟨code, ipt⟩, added, made⟩ := done
  cases made
  exact table_confined has (add_count added) mmu.diskMap mmu.mem

theorem unmap_page_confined {addr : VirtAddr} {errcode : Errcode}
    (done : mmuUnmapPage mmu addr = .ok (errcode, after)) (has : (Lock.mmu, Mode.write) ∈ claims) :
    Confines claims mmu after := by
  simp only [mmuUnmapPage, bind_eq_ok] at done
  obtain ⟨⟨code, ipt⟩, removed, -, -, made⟩ := done
  cases made
  exact table_confined has (remove_count removed) mmu.diskMap mmu.mem

theorem confines_trans {middle : Mmu} (first : Confines claims mmu middle)
    (second : Confines claims middle after) : Confines claims mmu after where
  table none := by
    have left := first.table none
    have right := second.table none
    exact ⟨right.labels.trans left.labels, right.hat.trans left.hat, right.size.trans left.size,
      right.freePages.trans left.freePages⟩
  map none := (second.map none).trans (first.map none)
  stats none := (second.stats none).trans (first.stats none)
  count none := (second.count none).trans (first.count none)
  disk none := (second.disk none).trans (first.disk none)
  pages := second.pages.trans first.pages

theorem unmap_out_confined {victim : VirtAddr} (done : unmapOut victim mmu = .ok after)
    (has : (Lock.mmu, Mode.write) ∈ claims) : Confines claims mmu after := by
  simp only [unmapOut, bind_eq_ok] at done
  obtain ⟨⟨code, unmapped⟩, removed, -, -, made⟩ := done
  cases made
  exact unmap_page_confined removed has

theorem alloc_page_confined {addr : VirtAddr} {backing : Nat} {errcode : Errcode}
    (done : mmuAllocPage mmu addr backing = .ok (errcode, after))
    (has : (Lock.mmu, Mode.write) ∈ claims) : Confines claims mmu after := by
  simp only [mmuAllocPage, bind_eq_ok] at done
  obtain ⟨⟨code, mapped⟩, map, -, -, -, -, made⟩ := done
  cases made
  exact confines_trans (map_page_confined map has) (table_confined has rfl _ mapped.mem)

theorem free_page_confined {addr : VirtAddr} {errcode : Errcode}
    (done : mmuFreePage mmu addr = .ok (errcode, after)) (has : (Lock.mmu, Mode.write) ∈ claims) :
    Confines claims mmu after := by
  simp only [mmuFreePage, bind_eq_ok] at done
  obtain ⟨-, -, ⟨code, unmapped⟩, unmap, made⟩ := done
  cases made
  exact confines_trans (unmap_page_confined unmap has) (table_confined has rfl _ unmapped.mem)

theorem sync_out_confined {victim : VirtAddr} (done : syncOut victim mmu = .ok after)
    (has : (Lock.disk, Mode.write) ∈ claims) : Confines claims mmu after := by
  simp only [syncOut, mmuSyncToBackingPage, bind_eq_ok] at done
  obtain ⟨⟨code, synced⟩, ⟨dirty, -, copied⟩, -, -, made⟩ := done
  cases made
  cases dirty with
  | false =>
      cases copied
      exact confines_refl claims mmu
  | true =>
      obtain ⟨memPage, -, stored⟩ := bind_eq_ok.mp copied
      split at stored
      · cases stored
      · simp only [bind_eq_ok] at stored
        obtain ⟨bytes, -, ⟨errcode, disk⟩, written, made⟩ := stored
        cases made
        exact ⟨fun _ => same_table_refl _, fun _ => rfl, fun _ => rfl, fun _ => rfl,
          fun none => absurd has none, set_page_pages written⟩

theorem sync_from_confined {addr : VirtAddr} {errcode : Errcode}
    (done : mmuSyncFromBackingPage mmu addr = .ok (errcode, after)) : Confines claims mmu after := by
  simp only [mmuSyncFromBackingPage, bind_eq_ok] at done
  obtain ⟨memPage, -, loaded⟩ := done
  split at loaded
  · cases loaded
  · obtain ⟨pageData, -, copied⟩ := bind_eq_ok.mp loaded
    cases pageData with
    | none =>
        cases copied
        exact confines_refl claims mmu
    | some bytes =>
        obtain ⟨data, -, made⟩ := bind_eq_ok.mp copied
        cases made
        exact memory_confined _

end Statements

/-! Each statement keeps to what its locks guard. -/

theorem snd_ok {α β : Type} {x : Outcome (α × β)} {b : β} (done : (·.2) <$> x = .ok b) :
    ∃ a, x = .ok (a, b) := by
  cases x with
  | error fault => cases done
  | ok pair =>
      cases done
      exact ⟨pair.1, rfl⟩

section Instructions
variable {own : List (Lock × Mode)} {t : Thread} {next : Place t}

theorem quiet_within {f : Shared → Place t} :
    (Instr.act fun sh => .ok (sh, f sh) : Step t).Within (Confined own) := by
  intro before after reached done
  cases done
  exact confined_refl own before

theorem on_mmu_within {does : Mmu → Outcome Mmu}
    (confines : ∀ mmu after, does mmu = .ok after → Confines own mmu after) :
    (onMmu does next).Within (Confined own) := by
  intro before after reached done
  obtain ⟨mmu, ran, made⟩ := bind_eq_ok.mp done
  cases made
  exact on_mmu_confined (confines _ mmu ran)

theorem test_mmu_within {test : Mmu → Outcome Bool} {yes no : Place t} :
    (testMmu test yes no).Within (Confined own) := by
  intro before after reached done
  obtain ⟨found, -, made⟩ := bind_eq_ok.mp done
  cases made
  exact confined_refl own before

theorem section_within {lock : Lock} {mode : Mode} {outer : List (Lock × Mode)}
    {does : Mmu → Outcome Mmu} {pc : Phase → Place t} (phase : Phase)
    (confines : ∀ mmu after, does mmu = .ok after → Confines ((lock, mode) :: outer) mmu after) :
    (mmuSection lock mode does pc next phase).Within (Confined (phase.claims lock mode outer)) := by
  cases phase with
  | inside => exact on_mmu_within confines
  | _ => trivial

theorem control_confined {sh : Shared} {control : Control}
    (spawned : control.spawned = sh.control.spawned) (size : control.maxNumOfProc = sh.control.maxNumOfProc)
    (queue : (Lock.prmQueue, Mode.write) ∉ own → control.queue = sh.control.queue)
    (done : (Lock.prm, Mode.write) ∉ own → control.isDone = sh.control.isDone)
    (update : (Lock.daemon, Mode.write) ∉ own → control.shouldUpdate = sh.control.shouldUpdate ∧
      control.doneUpdating = sh.control.doneUpdating)
    (slots : (Lock.cont, Mode.write) ∉ own → ∀ i, (control.slot i).booked = (sh.control.slot i).booked) :
    Confined own sh (sh.onControl control) := by
  refine ⟨fun datum unclaimed => ?_, spawned, ⟨rfl, size⟩⟩
  cases datum with
  | pageTable => exact same_table_refl _
  | queue => exact queue unclaimed
  | done => exact done unclaimed
  | update => exact update unclaimed
  | slots => exact slots unclaimed
  | _ => rfl

theorem set_slot_confined {sh : Shared} {i : Nat} {slot : Slot}
    (kept : (Lock.cont, Mode.write) ∉ own → slot.booked = (sh.control.slot i).booked) :
    Confined own sh (sh.setSlot i slot) := by
  refine control_confined rfl rfl (fun _ => rfl) (fun _ => rfl) (fun _ => ⟨rfl, rfl⟩) fun unclaimed j => ?_
  simp only [Function.update_apply]
  split
  · rename_i same
    rw [same]
    exact kept unclaimed
  · rfl

theorem access_within {a : Access} {here : AccessPc → Place t} (pc : AccessPc) :
    (accessCode a here next pc).Within (Confined pc.claims) := by
  cases pc with
  | checking => exact on_mmu_within fun _ _ => in_page_confined
  | testing =>
      rw [accessCode]
      exact test_mmu_within
  | retesting =>
      rw [accessCode]
      exact test_mmu_within
  | counting hit phase =>
      rw [accessCode, AccessPc.claims]
      exact section_within phase fun _ _ done => count_confined done (by simp)
  | requesting =>
      intro before after reached done
      cases done
      -- The command is new, so whether it is done is asked of nobody yet.
      refine control_confined rfl rfl (fun _ => rfl) (fun _ => ?_) (fun _ => ⟨rfl, rfl⟩) fun _ _ => rfl
      funext cmd
      simp only [Control.isDone, Shared.setCommand, Shared.onControl, Function.update_apply]
      split
      · rename_i same
        simp [same]
      · rename_i other
        congr 1
        exact decide_eq_decide.mpr (by omega)
  | pushing cmd phase =>
      cases phase with
      | inside =>
          intro before after reached done
          cases done
          exact control_confined rfl rfl (fun none => absurd (.head _) none) (fun _ => rfl)
            (fun _ => ⟨rfl, rfl⟩) fun _ _ => rfl
      | _ => trivial
  | completing cmd phase => cases phase <;> trivial
  | referencing phase =>
      rw [accessCode, AccessPc.claims]
      exact section_within phase fun _ _ done => reference_confined done (by simp)
  | copying => exact on_mmu_within fun _ _ => copy_confined
  | reading due phase =>
      cases phase with
      | inside =>
          rw [accessCode]
          exact test_mmu_within
      | _ => trivial
  | zeroing phase =>
      rw [accessCode, AccessPc.claims]
      refine section_within phase fun mmu after done => ?_
      cases done
      exact zero_confined (by simp)
  | asking phase =>
      cases phase with
      | inside =>
          intro before after reached done
          cases done
          exact control_confined rfl rfl (fun _ => rfl) (fun _ => rfl) (fun none => absurd (.head _) none)
            fun _ _ => rfl
      | _ => trivial
  | _ => trivial

theorem dealloc_within {pid : Nat} {here : DeallocPc → Place t} (pc : DeallocPc) :
    (deallocCode pid here next pc).Within (Confined (pc.claims pid)) := by
  cases pc with
  | checking =>
      intro before after reached done
      simp only [bind_eq_ok] at done
      obtain ⟨-, -, -, -, made⟩ := done
      cases made
      exact confined_refl _ before
  | emptying phase =>
      cases phase with
      | inside =>
          intro before after reached done
          dsimp only at done
          split at done
          · cases done
          · cases done
            exact set_slot_confined fun _ => rfl
      | _ => trivial
  | freeing page => exact quiet_within
  | freeingPage page phase =>
      rw [deallocCode, DeallocPc.claims]
      refine section_within phase fun mmu after done => ?_
      obtain ⟨errcode, ran⟩ := snd_ok done
      exact free_page_confined ran (by simp)
  | freeingBlock phase =>
      cases phase with
      | inside =>
          intro before after reached done
          obtain ⟨disk, freed, made⟩ := bind_eq_ok.mp done
          cases made
          exact on_mmu_confined ⟨fun _ => same_table_refl _, fun _ => rfl, fun _ => rfl, fun _ => rfl,
            fun none => absurd (.head _) none, free_block_pages freed⟩
      | _ => trivial
  | marking =>
      intro before after reached done
      cases done
      exact set_slot_confined fun none => absurd (.head _) none
  | _ => trivial

theorem map_page_within {addr : VirtAddr} {again : Bool} {mapped full : Place t}
    (has : (Lock.mmu, Mode.write) ∈ own) : (mapPage addr again mapped full).Within (Confined own) := by
  intro before after reached done
  obtain ⟨⟨errcode, mmu⟩, ran, made⟩ := bind_eq_ok.mp done
  have confines : Confines own before.machine.mmu mmu := map_page_confined ran has
  dsimp only at made
  split at made
  · obtain ⟨-, -, made⟩ := bind_eq_ok.mp made
    cases made
    exact on_mmu_confined confines
  · cases made
    exact on_mmu_confined confines

theorem page_to_swap_within {addr : VirtAddr} {goes : VirtAddr → Place t}
    (has : (Lock.mmu, Mode.write) ∈ own) : (pageToSwap addr goes).Within (Confined own) := by
  intro before after reached done
  obtain ⟨⟨victim, prm, mmu⟩, ran, made⟩ := bind_eq_ok.mp done
  cases made
  simp only [getPageToSwap, bind_eq_ok] at ran
  obtain ⟨-, -, made⟩ := ran
  cases made
  have entries : (forEachEntry getOldestPage 0 before.machine.mmu.memIpt.entries
      { before.machine.prm with oldestPageIdx := none, swapTarget := addr }).1 =
      before.machine.mmu.memIpt.entries := for_each_reads get_oldest_reads _ _ _
  refine ⟨fun datum unclaimed => ?_, rfl, ⟨rfl, rfl⟩⟩
  cases datum with
  | pageTable => exact absurd has unclaimed
  | diskMap => exact absurd has unclaimed
  | replacement => exact absurd has unclaimed
  | update => exact ⟨rfl, rfl⟩
  | slots => exact fun _ => rfl
  | _ => rfl

theorem service_within {addr : VirtAddr} {here : ServicePc → Place t} (pc : ServicePc) :
    (serviceCode addr here next pc).Within (Confined pc.claims) := by
  have has : ∀ outer : List (Lock × Mode), (Lock.mmu, Mode.write) ∈ (Lock.mmu, Mode.write) :: outer :=
    fun outer => .head _
  cases pc with
  | mapping => exact map_page_within (has _)
  | choosing =>
      rw [serviceCode]
      exact page_to_swap_within (has [])
  | testing victim =>
      rw [serviceCode]
      exact test_mmu_within
  | syncing victim phase =>
      rw [serviceCode, ServicePc.claims]
      exact section_within phase fun _ _ done => sync_out_confined done (.head _)
  | unmapping victim => exact on_mmu_within fun _ _ done => unmap_out_confined done (has _)
  | remapping => exact map_page_within (has _)
  | loading phase =>
      rw [serviceCode, ServicePc.claims]
      refine section_within phase fun mmu after done => ?_
      obtain ⟨errcode, ran⟩ := snd_ok done
      exact sync_from_confined ran
  | _ => trivial

end Instructions

theorem process_within (n : Nat) (place : ProcessPc) :
    (processCode n place).Within (Confined place.claims) := by
  obtain ⟨pid, pc⟩ := place
  have running : ∀ running (next : Place (.process n)), (setRunning pid running next).Within
      (Confined []) := by
    intro running next before after reached done
    cases done
    exact set_slot_confined fun _ => rfl
  cases pc with
  | raising => exact running true _
  | popping =>
      intro before after reached done
      dsimp only at done
      split at done
      · cases done
        exact set_slot_confined fun _ => rfl
      · cases done
  | unlocking mail => cases mail <;> trivial
  | working rest => cases rest <;> exact quiet_within
  | access a rest pc =>
      rw [processCode]
      exact access_within pc
  | dealloc pc =>
      rw [processCode]
      exact dealloc_within pc
  | lowering => exact running false _
  | _ => trivial

theorem prm_within (place : PrmPc) : (prmCode place).Within (Confined place.claims) := by
  cases place with
  | popping =>
      intro before after reached done
      dsimp only at done
      split at done
      · cases done
        exact control_confined rfl rfl (fun none => absurd (.head _) none) (fun _ => rfl)
          (fun _ => ⟨rfl, rfl⟩) fun _ _ => rfl
      · cases done
  | fetching cmd => exact quiet_within
  | serving cmd addr pc => exact service_within pc
  | reporting cmd phase =>
      cases phase with
      | inside =>
          intro before after reached done
          cases done
          exact control_confined rfl rfl (fun _ => rfl) (fun none => absurd (.head _) none)
            (fun _ => ⟨rfl, rfl⟩) fun _ _ => rfl
      | _ => trivial
  | _ => trivial

theorem daemon_within (place : DaemonPc) : (daemonCode place).Within (Confined place.claims) := by
  cases place with
  | aging =>
      rw [daemonCode]
      refine on_mmu_within fun mmu after done => ?_
      cases done
      exact age_confined
  | reporting =>
      intro before after reached done
      cases done
      exact control_confined rfl rfl (fun _ => rfl) (fun _ => rfl) (fun none => absurd (.head _) none)
        fun _ _ => rfl
  | _ => trivial

theorem create_within (past : Nat → PackedBitmap.Block) (pc : CreatePc)
    (stays : ∀ i, pc ≠ .spawning i) : (createCode past pc).Within (Confined pc.claims) := by
  cases pc with
  | selecting =>
      intro before after reached done
      dsimp only at done
      split at done
      · cases done
        exact confined_refl _ before
      · cases done
        exact set_slot_confined fun none => absurd (.head _) none
  | allocating i page phase =>
      cases phase with
      | inside =>
          intro before after reached done
          obtain ⟨⟨page, disk⟩, booked, made⟩ := bind_eq_ok.mp done
          cases made
          exact on_mmu_confined ⟨fun _ => same_table_refl _, fun _ => rfl, fun _ => rfl, fun _ => rfl,
            fun none => absurd (.head _) none, alloc_block_pages booked⟩
      | leave => cases page <;> trivial
      | want => trivial
  | mapping i page k => exact quiet_within
  | mappingPage i page k phase =>
      rw [createCode, CreatePc.claims]
      refine section_within phase fun mmu after done => ?_
      obtain ⟨errcode, ran⟩ := snd_ok done
      exact alloc_page_confined ran (.head _)
  | filling i page =>
      intro before after reached done
      cases done
      exact set_slot_confined fun none => absurd (.head _) none
  | spawning i => exact absurd rfl (stays i)
  | freeing i =>
      intro before after reached done
      cases done
  | _ => trivial

theorem compose_within (pid : Nat) (mail : Mail) (pc : ComposePc) :
    (composeCode pid mail pc).Within (Confined (pc.claims pid mail.claims)) := by
  cases pc with
  | testing =>
      intro before after reached done
      dsimp only at done
      split at done
      · cases done
        exact confined_refl _ before
      · split at done
        · cases done
        · split at done <;> cases done <;> exact confined_refl _ before
  | pushing =>
      intro before after reached done
      dsimp only at done
      split at done
      · cases done
        exact confined_refl _ before
      · split at done
        · cases done
        · cases done
          exact set_slot_confined fun _ => rfl
  | _ => trivial

/-- The start of a thread is not among the rest: it counts the threads. -/
theorem ui_within (place : UiPc) (stays : ∀ past i, place ≠ .creating past (.spawning i)) :
    (uiCode place).Within (Confined place.claims) := by
  cases place with
  | creating past pc => exact create_within past pc fun i same => stays past i (by rw [same])
  | testing pid => exact quiet_within
  | composing pid mail pc => exact compose_within pid mail pc
  | marking pid =>
      intro before after reached done
      cases done
      exact set_slot_confined fun none => absurd (.head _) none
  | _ => trivial

def Spawning : ∀ t, Place t → Prop
  | .ui, place => ∃ past i, place = UiPc.creating past (.spawning i)
  | _, _ => False

theorem spawning_spawns {t : Thread} {place : Place t} (spawning : Spawning t place) :
    ∃ i next, code t place = .spawn
      (fun sh => (sh.onControl { sh.control with spawned := sh.control.spawned + 1 },
        ⟨.process sh.control.spawned, ⟨i, .raising⟩⟩)) next := by
  cases t with
  | ui =>
      obtain ⟨past, i, rfl⟩ := spawning
      exact ⟨i, _, rfl⟩
  | _ => exact spawning.elim

theorem code_within {t : Thread} {place : Place t} (stays : ¬ Spawning t place) :
    (code t place).Within (Confined (claims t place)) := by
  cases t with
  | ui => exact ui_within place fun past i same => stays ⟨past, i, same⟩
  | prm => exact prm_within place
  | daemon => exact daemon_within place
  | process n => exact process_within n place

theorem datum_guarded (datum : Datum) : Guards lockOrder datum.lock (datum.Same · ·) := by
  intro t place unclaimed
  by_cases spawning : Spawning t place
  · obtain ⟨i, next, spawns⟩ := spawning_spawns spawning
    rw [spawns]
    intro before
    cases datum with
    | pageTable => exact same_table_refl _
    | update => exact ⟨rfl, rfl⟩
    | slots => exact fun _ => rfl
    | _ => rfl
  · exact within_spares (fun before after confined => confined.data datum unclaimed)
      (code_within spawning)

/-! Runs. -/

section Runs
variable {s : Threads} {event : Event Thread Place}

def Unborn (s : Threads) : Prop :=
  ∀ n, s.shared.control.spawned ≤ n → s.place (.process n) = (⟨0, .gone⟩ : ProcessPc)

theorem gone_halts {n : Nat} (gone : s.place (.process n) = (⟨0, .gone⟩ : ProcessPc)) :
    code (.process n) (s.place (.process n)) = .halt := by
  rw [gone]
  rfl

theorem gone_rests (enabled : Enabled code s event) {n : Nat}
    (gone : s.place (.process n) = (⟨0, .gone⟩ : ProcessPc)) : event.thread ≠ .process n := by
  intro mine
  have ready := enabled.2
  cases event with
  | runs t =>
      cases mine
      simp only [Ready, gone_halts gone, Runs, and_false] at ready
  | picks t place =>
      cases mine
      simp only [Ready, gone_halts gone, Picks, and_false] at ready
  | wakes t =>
      cases mine
      simp only [Ready, gone_halts gone, Wakes, and_false] at ready

theorem spawn_next {t : Thread} {does : Shared → Shared × (u : Thread) × Place u} {after : Place t}
    {place : Place t} (spawns : code t place = .spawn does after) (sh : Shared) :
    (does sh).1.control.spawned = sh.control.spawned + 1 ∧
      (does sh).2.1 = .process sh.control.spawned := by
  by_cases spawning : Spawning t place
  · obtain ⟨i, next, there⟩ := spawning_spawns spawning
    rw [spawns] at there
    cases there
    exact ⟨rfl, rfl⟩
  · have within := code_within spawning
    rw [spawns] at within
    exact within.elim

theorem sizes_step (event : Event Thread Place) : SameSizes s.shared (next code s event).shared := by
  cases event with
  | runs t =>
      by_cases spawning : Spawning t (s.place t)
      · obtain ⟨i, after, spawns⟩ := spawning_spawns spawning
        simp only [next, spawns]
        exact ⟨rfl, rfl⟩
      · have spares := within_spares (fun before after confined => confined) (code_within spawning)
        exact (run_spares (confined_refl _) spares).sizes
  | picks t place => exact ⟨rfl, rfl⟩
  | wakes t =>
      have same : (next code s (.wakes t)).shared = s.shared := wake_shared _
      rw [same]
      exact ⟨rfl, rfl⟩

theorem spawned_step (event : Event Thread Place) :
    s.shared.control.spawned ≤ (next code s event).shared.control.spawned := by
  cases event with
  | runs t =>
      by_cases spawning : Spawning t (s.place t)
      · obtain ⟨i, after, spawns⟩ := spawning_spawns spawning
        simp only [next, spawns]
        exact Nat.le_succ _
      · have spares := within_spares (fun before after confined => confined) (code_within spawning)
        exact Nat.le_of_eq (run_spares (confined_refl _) spares).spawned.symm
  | picks t place => exact Nat.le_refl _
  | wakes t =>
      have same : (next code s (.wakes t)).shared = s.shared := wake_shared _
      rw [same]

theorem unborn_step (unborn : Unborn s) (enabled : Enabled code s event) :
    Unborn (next code s event) := by
  intro n born
  have before : s.shared.control.spawned ≤ n := Nat.le_trans (spawned_step event) born
  have gone := unborn n before
  rw [place_step (gone_rests enabled gone), gone]
  intro u does place runs spawns mine
  obtain ⟨counted, child⟩ := spawn_next spawns s.shared
  rw [child] at mine
  cases mine
  have now : (next code s event).shared.control.spawned = s.shared.control.spawned + 1 := by
    rw [runs]
    simp only [next, spawns]
    exact counted
  omega

theorem unborn_idle (orderly : Orderly lockOrder s) (unborn : Unborn s) : SpawnsIdle code s := by
  intro u does place spawns
  rw [(spawn_next spawns s.shared).2]
  have gone := unborn _ (Nat.le_refl s.shared.control.spawned)
  have keeps := orderly.keeps (.process s.shared.control.spawned)
  by_cases awake : s.nap (.process s.shared.control.spawned) = .awake
  · rw [keeps.awake awake, gone]
    rfl
  · exact (keeps.asleep awake).1

theorem reached_orderly {maxNumOfProc prcBlkSize : Nat} {machine : Machine}
    {past : List (Event Thread Place)}
    (run : Run (program code) (start maxNumOfProc prcBlkSize machine) past s) :
    Orderly lockOrder s ∧ Unborn s := by
  induction run with
  | nil => exact ⟨start_orderly .., fun n _ => rfl⟩
  | step event _ enabled ih => exact ⟨step_orderly ih.1 enabled, unborn_step ih.2 enabled⟩

/-- In every run of all threads, as long as a thread holds a lock, for reading or for
writing, nothing that the lock guards changes but by its own steps, and it holds the lock
until it gives it back. -/
theorem locks_guard {maxNumOfProc prcBlkSize : Nat} {machine : Machine} {after : Threads}
    {earlier later : List (Event Thread Place)}
    (reached : Run (program code) (start maxNumOfProc prcBlkSize machine) earlier s)
    (datum : Datum) {t : Thread} {mode : Mode} (holds : (datum.lock, mode) ∈ s.held t)
    (run : Run (program code) s later after) (others : ∀ event ∈ later, event.thread ≠ t) :
    datum.Same s.shared after.shared ∧ after.held t = s.held t :=
  guarded_run (datum_refl datum) (datum_trans datum) (datum_guarded datum)
    (fun _ _ run => (reached_orderly run).1)
    (fun _ _ run => unborn_idle (reached_orderly run).1 (reached_orderly run).2) reached holds run
    others

/-- The UI has the container while the PRM goes to its queue. -/
theorem locks_guard_creating : ∃ s after : Threads, (Datum.slots.lock, Mode.write) ∈ s.held .ui ∧
    Datum.slots.Same s.shared after.shared ∧ after.held .ui = s.held .ui := by
  let begun : Threads := next code (start 1 1 smallMachine) (.picks .ui (.creating (fun _ => 0) .locking))
  let locked : Threads := next code begun (.runs .ui)
  have free : begun.Free .cont .write := fun _ _ => List.not_mem_nil
  have apart : locked.Free .prmQueue .write := by
    intro t mode
    cases t with
    | ui =>
        change (Lock.prmQueue, mode) ∉ [(Lock.cont, Mode.write)]
        simp
    | _ => exact List.not_mem_nil
  have picks : Enabled code (start 1 1 smallMachine) (.picks .ui (.creating (fun _ => 0) .locking)) :=
    ⟨rfl, rfl, trivial⟩
  have takes : Enabled code begun (.runs .ui) := ⟨rfl, rfl, free⟩
  have waits : Enabled code locked (.runs .prm) := ⟨rfl, rfl, apart⟩
  have first := @Interleaving.Run.step Threads _ (program code) _ _ _ _ .nil picks
  have second := @Interleaving.Run.step Threads _ (program code) _ _ _ _ first takes
  have third := @Interleaving.Run.step Threads _ (program code) locked _ _ _ .nil waits
  exact ⟨locked, _, .head _, locks_guard second .slots (.head _) third (by simp [Event.thread])⟩

end Runs

end VmSim.ThreadCode
