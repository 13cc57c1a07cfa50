import VmSim.FaultService
import VmSim.Library.BinaryOrder

/-!
What the age of a page says. A run lists the loads, evictions, references and
aging passes of a page table, the latest first, and the history of a page is
read off that list alone: whether it was referenced between one aging pass and
the next, back to the load, which counts as a reference. The register keeps the
first 32 elements, so that the scan of `get_page_to_swap` finds the page whose
history is lexicographically smallest.
-/

namespace VmSim.AgeHistory
open PageTable MemoryUnit PageReplacement BinaryOrder

/-- `zeroRefCount` is what `mmu_age_pages_if_needed` does before it asks for a pass. -/
inductive Event where
  | load (addr : VirtAddr)
  | evict (addr : VirtAddr)
  | reference (addr : VirtAddr) (reftype : RefType)
  | age
  | zeroRefCount
  deriving DecidableEq

/-- `mmu_map_page` asserts that the page it adds is absent. -/
inductive Step (ipt : Ipt) : Event → Ipt → Prop where
  | load {addr : VirtAddr} {after : Ipt} : iptHasTranslation ipt addr = .ok false →
      iptAdd ipt addr = .ok (.ecSuccess, after) → Step ipt (.load addr) after
  | evict {addr : VirtAddr} {after : Ipt} : iptRemove ipt addr = .ok (.ecSuccess, after) →
      Step ipt (.evict addr) after
  | reference {addr : VirtAddr} {reftype : RefType} {after : Ipt} :
      iptReference ipt addr reftype = .ok after → Step ipt (.reference addr reftype) after
  | age : Step ipt .age (iptForEachEntry ipt agePage ()).1
  | zeroRefCount : Step ipt .zeroRefCount (iptZeroRefCount ipt)

inductive Run (size : Nat) : List Event → Ipt → Prop where
  | nil : Run size [] (iptInit size)
  | step {past : List Event} {ipt after : Ipt} {event : Event} : Run size past ipt →
      Step ipt event after → Run size (event :: past) after

def referencedSince : List Event → Key → Bool
  | [], _ => false
  | .load addr :: past, key => if addr.key = key then false else referencedSince past key
  | .evict addr :: past, key => if addr.key = key then false else referencedSince past key
  | .reference addr _ :: past, key => if addr.key = key then true else referencedSince past key
  | .age :: _, _ => false
  | .zeroRefCount :: past, key => referencedSince past key

/-- The history of a page since its load, newest first; the 1 of the load is the last element. -/
def history : List Event → Key → List Bool
  | [], _ => []
  | .load addr :: past, key => if addr.key = key then [true] else history past key
  | .evict addr :: past, key => if addr.key = key then [] else history past key
  | .reference _ _ :: past, key => history past key
  | .age :: past, key => referencedSince past key :: history past key
  | .zeroRefCount :: past, key => history past key

/-- The first 32 elements of the history, zeros after its end. -/
def window (past : List Event) (key : Key) : List Bool :=
  List.ofFn fun i : Fin 32 => (history past key).getD i false

structure Records (past : List Event) (page : PageData) : Prop where
  referenced : page.referenced = referencedSince past page.addr.key
  age : ∀ i, i < 32 → page.pageAge.getMsbD i = (history past page.addr.key).getD i false

def Recorded (past : List Event) (ipt : Ipt) : Prop :=
  ∀ i page, dataOf ipt.entries i = some page → page.valid = true → Records past page

theorem set_msb_head (age : BitVec 32) (bit : Bool) :
    (setMsb (age >>> 1) bit).getMsbD 0 = bit := by
  cases bit <;> simp [setMsb, BitVec.getMsbD]

theorem top_bit_only (i : Nat) : ((1 : BitVec 32) <<< 31).getMsbD (i + 1) = false := by
  rw [BitVec.getMsbD_shiftLeft]
  exact BitVec.getMsbD_of_ge _ _ (by omega)

theorem set_msb_tail (age : BitVec 32) (bit : Bool) (i : Nat) :
    (setMsb age bit).getMsbD (i + 1) = age.getMsbD (i + 1) := by
  cases bit with
  | false => simp [setMsb]
  | true => rw [setMsb, if_pos rfl, BitVec.getMsbD_or, top_bit_only, Bool.or_false]

theorem shifted_tail (age : BitVec 32) {i : Nat} (bound : i + 1 < 32) :
    (age >>> 1).getMsbD (i + 1) = age.getMsbD i := by
  simp [BitVec.getMsbD_ushiftRight, bound]

theorem fresh_records (past : List Event) (addr : VirtAddr) :
    Records (.load addr :: past) (freshPage addr) := by
  refine ⟨by simp [freshPage, freshEntry, referencedSince], fun i bound => ?_⟩
  cases i with
  | zero => simp [freshPage, freshEntry, setMsb, history, BitVec.getMsbD]
  | succ i =>
      change (setMsb 0 true).getMsbD (i + 1) = _
      rw [set_msb_tail 0 true]
      simp [history, freshPage, freshEntry]

theorem aged_records {past : List Event} {page : PageData} (valid : page.valid = true)
    (records : Records past page) : Records (.age :: past) (agedPage page) := by
  have aged : agedPage page = { page with
      pageAge := setMsb (page.pageAge >>> 1) page.referenced, referenced := false } := by
    simp [agedPage, valid, agePage]
  rw [aged]
  refine ⟨rfl, fun i bound => ?_⟩
  cases i with
  | zero => simpa [history, set_msb_head] using records.referenced
  | succ i =>
      simpa [history, set_msb_tail _ _, shifted_tail _ bound] using records.age i (by omega)

theorem other_records {past : List Event} {page : PageData} (records : Records past page)
    {event : Event} (since : referencedSince (event :: past) page.addr.key =
      referencedSince past page.addr.key)
    (same : history (event :: past) page.addr.key = history past page.addr.key) :
    Records (event :: past) page :=
  ⟨records.referenced.trans since.symm, fun i bound => by rw [same]; exact records.age i bound⟩

theorem touched_records {past : List Event} {page : PageData} (records : Records past page)
    {addr : VirtAddr} (named : page.addr.key = addr.key) (reftype : RefType) :
    Records (.reference addr reftype :: past) (touchedPage page reftype) where
  referenced := by simp [touchedPage, referencedSince, named]
  age := records.age

section Steps
variable {past : List Event} {ipt after : Ipt} {addr : VirtAddr}

theorem load_recorded (sound : Sound ipt) (recorded : Recorded past ipt)
    (absent : iptHasTranslation ipt addr = .ok false)
    (added : iptAdd ipt addr = .ok (.ecSuccess, after)) :
    Sound after ∧ Recorded (.load addr :: past) after := by
  have gone : frameOf ipt addr.key = none := by
    simpa [has_translation_exact sound] using absent
  have nowhere := (frame_none sound).mp gone
  cases free : ipt.freePages with
  | nil =>
      rw [add_full (FramePool.lend_none.mpr free)] at added
      cases added
  | cons new rest =>
      have written := add_data sound free added
      obtain ⟨pool, lent⟩ : ∃ pool, FramePool.lend (poolOf ipt) addr.key = some pool :=
        Option.ne_none_iff_exists'.mp (mt FramePool.lend_none.mp (by simp [poolOf, free]))
      obtain ⟨after', added', moved, -⟩ := add_lends sound gone lent
      rw [added] at added'
      cases added'
      refine ⟨moved.sound, fun i page data valid => ?_⟩
      rw [written, Function.update_apply] at data
      split at data
      · cases data
        -- The frame lent starts a history; every other page keeps the one it had.
        exact fresh_records past addr
      · have other : addr.key ≠ page.addr.key := fun same => nowhere i ⟨page, data, valid, same.symm⟩
        exact other_records (recorded i page data valid) (if_neg other) (if_neg other)

theorem evict_recorded (sound : Sound ipt) (recorded : Recorded past ipt)
    (removed : iptRemove ipt addr = .ok (.ecSuccess, after)) :
    Sound after ∧ Recorded (.evict addr :: past) after := by
  cases held : frameOf ipt addr.key with
  | none =>
      rw [remove_absent sound held] at removed
      cases removed
  | some idx =>
      obtain ⟨left, written⟩ := remove_data sound held removed
      obtain ⟨pool, returned⟩ : ∃ pool, FramePool.giveBack (poolOf ipt) addr.key = some pool :=
        ⟨_, Option.map_eq_some_iff.mpr ⟨idx, held, rfl⟩⟩
      obtain ⟨after', removed', moved, -⟩ := remove_gives sound returned
      rw [removed] at removed'
      cases removed'
      refine ⟨moved.sound, fun i page data valid => ?_⟩
      rw [written, Function.update_apply] at data
      split at data
      · cases data
        cases valid
      · rename_i distinct
        have other : addr.key ≠ page.addr.key := fun same =>
          distinct (sound.distinct addr.key i idx ⟨page, data, valid, same.symm⟩ (frame_holds held))
        exact other_records (recorded i page data valid) (if_neg other) (if_neg other)

theorem reference_recorded (sound : Sound ipt) (recorded : Recorded past ipt) {reftype : RefType}
    (ran : iptReference ipt addr reftype = .ok after) :
    Sound after ∧ Recorded (.reference addr reftype :: past) after := by
  cases held : frameOf ipt addr.key with
  | none => simp [iptReference, has_translation_exact sound, held] at ran
  | some frame =>
      obtain ⟨own, data, live, named⟩ := frame_holds held
      obtain ⟨after', ran', written, hat, free, -⟩ := reference_exact sound held data reftype
      rw [ran] at ran'
      cases ran'
      refine ⟨(relabel_sound sound written (reference_labels data reftype) hat free).1,
        fun i page stored valid => ?_⟩
      rw [written.data, Function.update_apply] at stored
      split at stored
      · cases stored
        exact touched_records (recorded frame own data live) named reftype
      · rename_i distinct
        have other : addr.key ≠ page.addr.key := fun same =>
          distinct (sound.distinct addr.key i frame ⟨page, stored, valid, same.symm⟩
            ⟨own, data, live, named⟩)
        exact other_records (recorded i page stored valid) (if_neg other) rfl

theorem age_recorded (sound : Sound ipt) (recorded : Recorded past ipt) :
    Sound (iptForEachEntry ipt agePage ()).1 ∧
      Recorded (.age :: past) (iptForEachEntry ipt agePage ()).1 := by
  obtain ⟨aged, -, data⟩ := age_table_exact sound
  refine ⟨aged, fun i page stored valid => ?_⟩
  rw [data, Option.map_eq_some_iff] at stored
  obtain ⟨before, stored, rfl⟩ := stored
  cases live : before.valid with
  | true => exact aged_records live (recorded i before stored live)
  | false => simp [agedPage, live] at valid

theorem step_recorded (sound : Sound ipt) (recorded : Recorded past ipt) {event : Event}
    (step : Step ipt event after) : Sound after ∧ Recorded (event :: past) after := by
  cases step with
  | load absent added => exact load_recorded sound recorded absent added
  | evict removed => exact evict_recorded sound recorded removed
  | reference ran => exact reference_recorded sound recorded ran
  | age => exact age_recorded sound recorded
  | zeroRefCount =>
      have written : Rewritten ipt (iptZeroRefCount ipt) (nextOf ipt.entries) (prevOf ipt.entries)
          (dataOf ipt.entries) := ⟨rfl, rfl, rfl, rfl, rfl⟩
      obtain ⟨kept, -⟩ := relabel_sound sound written (fun _ => rfl) rfl rfl
      refine ⟨kept, fun i page data valid => ?_⟩
      exact other_records (recorded i page data valid) rfl rfl

end Steps

theorem run_empty {past : List Event} {ipt : Ipt} (run : Run 0 past ipt) :
    ipt.entries = [] ∧ ipt.size = 0 ∧ ipt.freePages = [] := by
  induction run with
  | nil => exact ⟨rfl, rfl, rfl⟩
  | step _ step ih =>
      obtain ⟨entries, size, free⟩ := ih
      cases step with
      | load absent _ => simp [iptHasTranslation, getVaddrIdx, iptHatIdxOf, iptHash, size] at absent
      | evict removed => simp [iptRemove, getVaddrIdx, iptHatIdxOf, iptHash, size] at removed
      | reference ran =>
          simp [iptReference, iptHasTranslation, getVaddrIdx, iptHatIdxOf, iptHash, size] at ran
      | age => exact ⟨by simp [iptForEachEntry, entries, forEachEntry], size, free⟩
      | zeroRefCount => exact ⟨entries, size, free⟩

theorem run_recorded {size : Nat} {past : List Event} {ipt : Ipt} (positive : 0 < size)
    (run : Run size past ipt) : Sound ipt ∧ Recorded past ipt := by
  induction run with
  | nil =>
      refine ⟨ipt_init_sound positive, fun i page data valid => ?_⟩
      simp only [iptInit, dataOf, List.getElem?_replicate] at data
      split at data
      · cases data
        cases valid
      · cases data
  | step _ step ih => exact step_recorded ih.1 ih.2 step

/-! The scan of `get_page_to_swap`. -/

structure FirstOldest (entries : List IptEntry) (i : Nat) (entry : IptEntry) : Prop where
  here : entries[i]? = some entry
  least : ∀ j other, entries[j]? = some other →
    entry.pageData.pageAge < other.pageData.pageAge ∨
      entry.pageData.pageAge = other.pageData.pageAge ∧ i ≤ j

theorem first_oldest_kept {entries : List IptEntry} {i : Nat} {entry last : IptEntry}
    (oldest : FirstOldest entries i entry)
    (younger : entry.pageData.pageAge ≤ last.pageData.pageAge) :
    FirstOldest (entries ++ [last]) i entry := by
  have bound : i < entries.length := (List.getElem?_eq_some_iff.mp oldest.here).1
  refine ⟨by rw [List.getElem?_append_left bound]; exact oldest.here, fun j other there => ?_⟩
  by_cases before : j < entries.length
  · rw [List.getElem?_append_left before] at there
    exact oldest.least j other there
  · have same : other = last := by
      rw [List.getElem?_append_right (by omega)] at there
      exact (List.mem_singleton.mp (List.mem_of_getElem? there))
    subst same
    rcases Nat.lt_or_eq_of_le (BitVec.le_def.mp younger) with less | equal
    · exact .inl (BitVec.lt_def.mpr less)
    · exact .inr ⟨BitVec.eq_of_toNat_eq equal, by omega⟩

theorem first_oldest_taken {entries : List IptEntry} {last : IptEntry}
    (older : ∀ entry ∈ entries, last.pageData.pageAge < entry.pageData.pageAge) :
    FirstOldest (entries ++ [last]) entries.length last := by
  refine ⟨by simp, fun j other there => ?_⟩
  by_cases before : j < entries.length
  · rw [List.getElem?_append_left before] at there
    exact .inl (older other (List.mem_of_getElem? there))
  · have same : other = last := by
      rw [List.getElem?_append_right (by omega)] at there
      exact (List.mem_singleton.mp (List.mem_of_getElem? there))
    subst same
    exact .inr ⟨rfl, by omega⟩

theorem first_oldest_unique {entries : List IptEntry} {i j : Nat} {entry other : IptEntry}
    (oldest : FirstOldest entries i entry) (also : FirstOldest entries j other) :
    i = j ∧ entry = other := by
  have same : i = j := by
    have forth := oldest.least j other also.here
    have back := also.least i entry oldest.here
    simp only [BitVec.lt_def] at forth back
    rcases forth with less | ⟨equal, before⟩ <;> rcases back with more | ⟨equal', after⟩
    · omega
    · rw [equal'] at less
      omega
    · rw [equal] at more
      omega
    · omega
  subst same
  have here := oldest.here
  rw [also.here] at here
  cases here
  exact ⟨rfl, rfl⟩

structure Scanned (entries : List IptEntry) (target : VirtAddr) (prm : PrmStatics) : Prop where
  aimed : prm.swapTarget = target
  unset : prm.oldestPageIdx = none → entries = []
  best : prm.oldestPageIdx ≠ none → ∃ i entry, FirstOldest entries i entry ∧
    prm.oldestPageVaddr = entry.pageData.addr ∧ prm.oldestPageAge = entry.pageData.pageAge

theorem visit_scanned {entries : List IptEntry} {target : VirtAddr} {prm : PrmStatics}
    (scanned : Scanned entries target prm) {entry : IptEntry}
    (other : entry.pageData.addr.key ≠ target.key) (i : Nat) :
    Scanned (entries ++ [entry]) target (getOldestPage i entry.pageData prm).2 := by
  have differs : virtAddrPageEq prm.swapTarget entry.pageData.addr = false := by
    rw [Bool.eq_false_iff, scanned.aimed]
    exact fun same => other ((virt_addr_page_eq_iff _ _).mp same).symm
  cases idx : prm.oldestPageIdx with
  | none =>
      -- the first visit takes the page whatever age the static variable holds
      have taken : (getOldestPage i entry.pageData prm).2 =
          { prm with
            oldestPageIdx := some 0
            oldestPageAge := entry.pageData.pageAge
            oldestPageVaddr := entry.pageData.addr
            curIdx := 0 } := by
        simp [getOldestPage, idx, differs]
      have none := scanned.unset idx
      subst none
      rw [taken]
      exact ⟨scanned.aimed, fun unset => (by cases unset), fun _ =>
        ⟨0, entry, first_oldest_taken (fun _ member => by cases member), rfl, rfl⟩⟩
  | some best =>
      obtain ⟨k, old, oldest, named, age⟩ := scanned.best (by simp [idx])
      by_cases less : entry.pageData.pageAge < prm.oldestPageAge
      · have taken : (getOldestPage i entry.pageData prm).2 =
            { prm with
              oldestPageIdx := some prm.curIdx
              oldestPageAge := entry.pageData.pageAge
              oldestPageVaddr := entry.pageData.addr } := by
          simp [getOldestPage, idx, differs, less]
        have older : ∀ seen ∈ entries, entry.pageData.pageAge < seen.pageData.pageAge := by
          intro seen member
          obtain ⟨j, there⟩ := List.mem_iff_getElem?.mp member
          have younger := oldest.least j seen there
          simp only [BitVec.lt_def] at less younger ⊢
          rw [age] at less
          rcases younger with more | ⟨same, -⟩
          · omega
          · rw [← same]
            exact less
        rw [taken]
        exact ⟨scanned.aimed, fun unset => (by cases unset), fun _ =>
          ⟨entries.length, entry, first_oldest_taken older, rfl, rfl⟩⟩
      · have set : prm.oldestPageIdx.isNone = false := by simp [idx]
        have passed : (getOldestPage i entry.pageData prm).2 = prm := by
          simp [getOldestPage, set, less]
        rw [passed]
        refine ⟨scanned.aimed, fun unset => (by simp [idx] at unset), fun _ => ?_⟩
        rw [age, BitVec.not_lt] at less
        exact ⟨k, old, first_oldest_kept oldest less, named, age⟩

theorem scan_scanned {target : VirtAddr} (rest entries : List IptEntry) (i : Nat)
    (prm : PrmStatics) (scanned : Scanned entries target prm)
    (others : ∀ entry ∈ rest, entry.pageData.valid = true ∧
      entry.pageData.addr.key ≠ target.key) :
    Scanned (entries ++ rest) target (forEachEntry getOldestPage i rest prm).2 := by
  induction rest generalizing entries i prm with
  | nil => simpa [forEachEntry] using scanned
  | cons entry rest ih =>
      obtain ⟨valid, other⟩ := others entry (by simp)
      have later := ih (entries ++ [entry]) (i + 1) (getOldestPage i entry.pageData prm).2
        (visit_scanned scanned other i) fun next member => others next (by simp [member])
      simpa [forEachEntry, valid] using later

/-- The static variables as `get_page_to_swap` starts its scan. -/
def aimedAt (prm : PrmStatics) (addr : VirtAddr) : PrmStatics :=
  { prm with oldestPageIdx := none, swapTarget := addr }

section Victim

/-- On a full table the scan returns the first one of the oldest pages, from
whatever the static variables held. -/
theorem page_to_swap_oldest {mmu : Mmu} (sound : Sound mmu.memIpt) {addr : VirtAddr}
    (absent : frameOf mmu.memIpt addr.key = none) (full : mmu.memIpt.freePages = []) :
    ∃ i entry, FirstOldest mmu.memIpt.entries i entry ∧
      entry.pageData.addr.key ≠ addr.key ∧
      ∀ prm, ∃ prm', getPageToSwap prm mmu addr = .ok (entry.pageData.addr, prm', mmu) := by
  have others := full_others sound full absent
  obtain ⟨first, rest, entries⟩ := table_first sound
  have scan : ∀ prm, Scanned mmu.memIpt.entries addr
      (forEachEntry getOldestPage 0 mmu.memIpt.entries (aimedAt prm addr)).2 := by
    intro prm
    have before : Scanned [] addr (aimedAt prm addr) :=
      ⟨rfl, fun _ => rfl, fun set => absurd rfl set⟩
    exact scan_scanned mmu.memIpt.entries [] 0 _ before fun entry member =>
      ⟨full_occupied sound full entry member, others entry member⟩
  -- The scan runs from whatever the last search left, so the choice is stated for every prm.
  have chosen : ∀ prm, ∃ i entry, FirstOldest mmu.memIpt.entries i entry ∧
      (forEachEntry getOldestPage 0 mmu.memIpt.entries (aimedAt prm addr)).2.oldestPageVaddr =
        entry.pageData.addr := by
    intro prm
    obtain ⟨i, entry, oldest, named, -⟩ := (scan prm).best fun unset => by
      have empty := (scan prm).unset unset
      rw [entries] at empty
      cases empty
    exact ⟨i, entry, oldest, named⟩
  obtain ⟨i, entry, oldest, -⟩ := chosen prmStatics
  refine ⟨i, entry, oldest, others entry (List.mem_of_getElem? oldest.here), fun prm => ?_⟩
  obtain ⟨j, other, also, named⟩ := chosen prm
  obtain ⟨-, same⟩ := first_oldest_unique oldest also
  have passes : virtAddrPageEq addr entry.pageData.addr = false := by
    rw [Bool.eq_false_iff]
    exact fun equal => others entry (List.mem_of_getElem? oldest.here)
      ((virt_addr_page_eq_iff _ _).mp equal).symm
  have unchanged := for_each_reads get_oldest_reads mmu.memIpt.entries 0 (aimedAt prm addr)
  rw [← same] at named
  refine ⟨(forEachEntry getOldestPage 0 mmu.memIpt.entries (aimedAt prm addr)).2, ?_⟩
  unfold aimedAt at unchanged named
  simp only [getPageToSwap, mmuForEachMemPage, iptForEachEntry, unchanged, named, passes]
  rfl

/-- A resident page with the least history, in the lowest frame of those. -/
def LeastHistory (past : List Event) (ipt : Ipt) (victim : VirtAddr) : Prop :=
  ∃ frame, iptTranslate ipt victim = .ok frame ∧
    ∀ page other, iptTranslate ipt page = .ok other →
      window past victim.key < window past page.key ∨
        window past victim.key = window past page.key ∧ frame ≤ other

theorem first_oldest_history {past : List Event} {ipt : Ipt} (sound : Sound ipt)
    (recorded : Recorded past ipt) {i : Nat} {entry : IptEntry}
    (oldest : FirstOldest ipt.entries i entry) (valid : entry.pageData.valid = true) :
    LeastHistory past ipt entry.pageData.addr := by
  have ages : ∀ page, Records past page → bits page.pageAge = window past page.addr.key :=
    fun page records => bits_eq records.age
  have data : dataOf ipt.entries i = some entry.pageData := by simp [dataOf, oldest.here]
  have held : frameOf ipt entry.pageData.addr.key = some i :=
    (frame_iff sound).mpr ⟨_, data, valid, rfl⟩
  refine ⟨i, translate_exact sound held, fun page j there => ?_⟩
  obtain ⟨other, found, live, named⟩ := frame_holds ((translate_iff sound).mp there)
  simp only [dataOf, Option.map_eq_some_iff] at found
  obtain ⟨next, here, rfl⟩ := found
  have own := ages entry.pageData (recorded i _ data valid)
  have theirs := ages next.pageData (recorded j _ (by simp [dataOf, here]) live)
  rw [← named, ← own, ← theirs]
  rcases oldest.least j next here with less | ⟨same, before⟩
  · exact .inl (lt_iff_bits.mp less)
  · exact .inr ⟨by rw [same], before⟩

end Victim

/-- Ages are histories, and the page swapped out is the one with the least history. -/
theorem victim_least_history {size : Nat} {past : List Event} {ipt : Ipt}
    (run : Run size past ipt) :
    (∀ entry ∈ ipt.entries, entry.pageData.valid = true →
      bits entry.pageData.pageAge = window past entry.pageData.addr.key) ∧
    ∀ mmu addr, mmu.memIpt = ipt → ipt.freePages = [] → iptHasTranslation ipt addr = .ok false →
      ∃ victim, LeastHistory past ipt victim ∧ victim.key ≠ addr.key ∧
        ∀ prm, ∃ prm', getPageToSwap prm mmu addr = .ok (victim, prm', mmu) := by
  rcases Nat.eq_zero_or_pos size with rfl | positive
  · -- without a frame no page is ever looked up
    obtain ⟨entries, size, -⟩ := run_empty run
    refine ⟨by simp [entries], fun mmu addr _ _ absent => ?_⟩
    simp [iptHasTranslation, getVaddrIdx, iptHatIdxOf, iptHash, size] at absent
  · obtain ⟨sound, recorded⟩ := run_recorded positive run
    constructor
    · intro entry member valid
      obtain ⟨i, here⟩ := List.mem_iff_getElem?.mp member
      exact bits_eq (recorded i entry.pageData (by simp [dataOf, here]) valid).age
    · rintro mmu addr rfl full absent
      have gone : frameOf mmu.memIpt addr.key = none := by
        simpa [has_translation_exact sound] using absent
      obtain ⟨i, entry, oldest, distinct, chosen⟩ := page_to_swap_oldest sound gone full
      have valid := full_occupied sound full entry (List.mem_of_getElem? oldest.here)
      exact ⟨entry.pageData.addr, first_oldest_history sound recorded oldest valid, distinct,
        chosen⟩

/-- Two pages in two frames; the second is referenced before the first pass. -/
def secondReferenced : List Event :=
  [.age, .reference ⟨0, 1, 0⟩ .refRead, .load ⟨0, 1, 0⟩, .load ⟨0, 0, 0⟩]

theorem second_referenced_run : ∃ ipt, Run 2 secondReferenced ipt ∧ ipt.freePages = [] ∧
    iptHasTranslation ipt ⟨0, 2, 0⟩ = .ok false :=
  ⟨_, .step (.step (.step (.step .nil (.load rfl rfl)) (.load rfl rfl)) (.reference rfl)) .age,
    rfl, rfl⟩

theorem victim_least_history_second :
    ∃ (ipt : Ipt) (victim : VirtAddr), ipt.freePages = [] ∧
      LeastHistory secondReferenced ipt victim := by
  obtain ⟨ipt, run, full, absent⟩ := second_referenced_run
  let mmu : Mmu := { mmuInit (mmInit 2 4) (DiskBlocks.diskInit 4 4 2) 1 with memIpt := ipt }
  obtain ⟨victim, least, -⟩ := (victim_least_history run).2 mmu ⟨0, 2, 0⟩ rfl full absent
  exact ⟨ipt, victim, full, least⟩

end VmSim.AgeHistory
