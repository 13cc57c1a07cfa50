import VmSim.FaultService

/-!
The MMU without its bytes. No decision of the program looks at the contents of
a page, so every function below behaves on `books mmu` as it does on `mmu`,
apart from the faults that a position outside an array ends in. What holds of
the page table, the disk map and the allocation bitmap for pages of size zero
therefore holds for pages of any size.
-/

namespace VmSim.MemoryUnit
open PageTable DiskBlocks KeyedMap FramePool DemandPaging PagedBytes PageReplacement

def diskBooks (disk : Disk) : Disk := { disk with data := [], pageSize := 0 }

@[simp] theorem disk_books_bitmap (disk : Disk) :
    (diskBooks disk).allocBitmap = disk.allocBitmap := rfl

@[simp] theorem disk_books_npages (disk : Disk) : (diskBooks disk).npages = disk.npages := rfl

@[simp] theorem disk_books_block (disk : Disk) :
    (diskBooks disk).processBlockSize = disk.processBlockSize := rfl

def books (mmu : Mmu) : Mmu :=
  { mmu with
    mem := { mmu.mem with data := [], pageSize := 0 }
    disk := diskBooks mmu.disk }

/-- `y` succeeds where `x` does, with a related result, and fails its assertions. -/
structure Follows (rel : α → β → Prop) (x : Outcome α) (y : Outcome β) : Prop where
  succeeds : ∀ a, x = .ok a → ∃ b, y = .ok b ∧ rel a b
  asserts : ∀ site, x = .error (.assertion site) → y = .error (.assertion site)

theorem follows_ok {rel : α → β → Prop} {a : α} {b : β} (related : rel a b) :
    Follows rel (.ok a) (.ok b) :=
  ⟨fun _ same => by cases same; exact ⟨b, rfl, related⟩, fun _ same => by cases same⟩

theorem follows_same (x : Outcome α) : Follows Eq x x :=
  ⟨fun a same => ⟨a, same, rfl⟩, fun _ same => same⟩

theorem follows_bind {rel : α → β → Prop} {rel' : α' → β' → Prop} {x : Outcome α} {y : Outcome β}
    {f : α → Outcome α'} {g : β → Outcome β'} (first : Follows rel x y)
    (rest : ∀ a b, x = .ok a → rel a b → Follows rel' (f a) (g b)) :
    Follows rel' (x >>= f) (y >>= g) := by
  cases x with
  | ok a =>
      obtain ⟨b, same, related⟩ := first.succeeds a rfl
      rw [same]
      exact rest a b rfl related
  | error fault =>
      refine ⟨fun _ same => (by cases same), fun site same => ?_⟩
      have failed : (Except.error fault : Outcome α) = .error (.assertion site) := by
        cases same
        rfl
      rw [first.asserts site failed]
      rfl

theorem follows_skip {rel : α → β → Prop} {x : Outcome γ} {f : γ → Outcome α} {y : Outcome β}
    (silent : ∀ site, x ≠ .error (.assertion site)) (rest : ∀ c, x = .ok c → Follows rel (f c) y) :
    Follows rel (x >>= f) y := by
  cases x with
  | ok c => exact rest c rfl
  | error fault =>
      refine ⟨fun _ same => (by cases same), fun site same => absurd ?_ (silent site)⟩
      cases same
      rfl

theorem follows_map (f : α → β) (x : Outcome α) : Follows (fun a b => b = f a) x (x.map f) := by
  cases x with
  | ok a => exact follows_ok rfl
  | error fault =>
      refine ⟨fun _ same => (by cases same), fun site same => ?_⟩
      cases same
      rfl

theorem forgets_bind {rel : β → γ → Prop} {f : α → α} {x y : Outcome α} (forgets : y = x.map f)
    {g : α → Outcome β} {h : α → Outcome γ} (rest : ∀ a, Follows rel (g a) (h (f a))) :
    Follows rel (x >>= g) (y >>= h) := by
  rw [forgets]
  refine follows_bind (follows_map f x) ?_
  rintro a _ _ rfl
  exact rest a

theorem bind_map {x : Outcome α} {f : β → β'} {g : α → Outcome β} {g' : α → Outcome β'}
    (rest : ∀ a, g' a = (g a).map f) : (x >>= g') = (x >>= g).map f := by
  cases x with
  | ok a => exact rest a
  | error fault => rfl

theorem map_bind_map {x : Outcome α} {h : α → α'} {f : β → β'} {g : α → Outcome β}
    {g' : α' → Outcome β'} (rest : ∀ a, g' (h a) = (g a).map f) :
    (x.map h >>= g') = (x >>= g).map f := by
  cases x with
  | ok a => exact rest a
  | error fault => rfl

section Functions
variable (mmu : Mmu)

theorem map_page_books (addr : VirtAddr) :
    mmuMapPage (books mmu) addr = (mmuMapPage mmu addr).map fun r => (r.1, books r.2) := by
  change (iptHasTranslation mmu.memIpt addr >>= _) = _
  unfold mmuMapPage
  cases iptHasTranslation mmu.memIpt addr with
  | error fault => rfl
  | ok present =>
      cases present with
      | true => rfl
      | false =>
          change (iptAdd mmu.memIpt addr >>= _) = _
          simp only [bind_ok, Bool.not_false, assert_true]
          cases iptAdd mmu.memIpt addr <;> rfl

theorem unmap_page_books (addr : VirtAddr) :
    mmuUnmapPage (books mmu) addr = (mmuUnmapPage mmu addr).map fun r => (r.1, books r.2) := by
  change (iptRemove mmu.memIpt addr >>= _) = _
  unfold mmuUnmapPage
  cases iptRemove mmu.memIpt addr with
  | error fault => rfl
  | ok result =>
      obtain ⟨errcode, ipt⟩ := result
      cases errcode <;> rfl

theorem alloc_page_books (addr : VirtAddr) (backing : Nat) :
    mmuAllocPage (books mmu) addr backing =
      (mmuAllocPage mmu addr backing).map fun r => (r.1, books r.2) := by
  unfold mmuAllocPage
  rw [map_page_books]
  cases mmuMapPage mmu addr with
  | error fault => rfl
  | ok result =>
      obtain ⟨errcode, middle⟩ := result
      change (assert .mmuAllocPage (mapGet diskMapComparator middle.diskMap addr).isNone >>= _) =
        Except.map _ (assert .mmuAllocPage (mapGet diskMapComparator middle.diskMap addr).isNone >>= _)
      cases (mapGet diskMapComparator middle.diskMap addr).isNone with
      | false => rfl
      | true =>
          simp only [assert_true, bind_ok]
          change (assert .mmuAllocPage
            ((mapSet diskMapComparator middle.diskMap addr backing).1 = .ecSuccess) >>= _) = _
          cases decide ((mapSet diskMapComparator middle.diskMap addr backing).1 = .ecSuccess) <;> rfl

theorem free_page_books (page : VirtAddr) :
    mmuFreePage (books mmu) page = (mmuFreePage mmu page).map fun r => (r.1, books r.2) := by
  unfold mmuFreePage
  rw [unmap_page_books]
  change (assert .mmuFreePage (mapGet diskMapComparator mmu.diskMap page).isSome >>= _) = _
  cases (mapGet diskMapComparator mmu.diskMap page).isSome with
  | false => rfl
  | true =>
      simp only [assert_true, bind_ok]
      cases mmuUnmapPage mmu page <;> rfl

theorem alloc_multiple_books (pid page backing npages : Nat) :
    mmuAllocMultiple (books mmu) pid page backing npages =
      (mmuAllocMultiple mmu pid page backing npages).map fun r => (r.1, books r.2) := by
  induction npages generalizing mmu page backing with
  | zero => rfl
  | succ npages ih =>
      unfold mmuAllocMultiple
      rw [alloc_page_books]
      cases mmuAllocPage mmu ⟨pid, page, 0⟩ backing with
      | error fault => rfl
      | ok result =>
          obtain ⟨errcode, middle⟩ := result
          cases errcode with
          | ecSuccess => exact ih middle (page + 1) (backing + 1)
          | ecFail => rfl
          | ecNotFound => rfl

theorem free_multiple_books (pid page npages : Nat) :
    mmuFreeMultiple (books mmu) pid page npages =
      (mmuFreeMultiple mmu pid page npages).map fun r => (r.1, books r.2) := by
  induction npages generalizing mmu page with
  | zero => rfl
  | succ npages ih =>
      unfold mmuFreeMultiple
      rw [free_page_books]
      cases mmuFreePage mmu ⟨pid, page, 0⟩ with
      | error fault => rfl
      | ok result =>
          obtain ⟨errcode, middle⟩ := result
          cases errcode with
          | ecSuccess => exact ih middle (page + 1)
          | ecFail => rfl
          | ecNotFound => rfl

theorem pin_check_books (page : VirtAddr) :
    mmuPinCheck (books mmu) page = (mmuPinCheck mmu page).map fun r => (r.1, books r.2) := by
  unfold mmuPinCheck
  change (iptHasTranslation mmu.memIpt page >>= _) = _
  cases iptHasTranslation mmu.memIpt page with
  | error fault => rfl
  | ok present => cases present <;> rfl

/-! The functions that copy bytes may fail where the copy would leave an array. -/

theorem copy_out_silent (cells : List α) (start count : Nat) (site : Site) :
    copyOut cells start count ≠ .error (.assertion site) := by
  unfold copyOut
  split <;> simp

theorem copy_in_silent (cells source : List α) (start : Nat) (site : Site) :
    copyIn cells start source ≠ .error (.assertion site) := by
  unfold copyIn
  split <;> simp

theorem copy_out_follows (cells : List α) (start count : Nat) :
    Follows (fun _ bytes => bytes = []) (copyOut cells start count) (copyOut ([] : List α) 0 0) := by
  exact ⟨fun _ _ => ⟨[], rfl, rfl⟩,
    fun site same => absurd same (copy_out_silent cells start count site)⟩

theorem copy_in_follows (cells source : List α) (start : Nat) :
    Follows (fun _ bytes => bytes = []) (copyIn cells start source) (copyIn ([] : List α) 0 []) := by
  exact ⟨fun _ _ => ⟨[], rfl, rfl⟩,
    fun site same => absurd same (copy_in_silent cells source start site)⟩

theorem page_start_follows (disk : Disk) (page : Nat) :
    Follows (fun _ start => start = 0) (getPageStart disk page)
      (getPageStart (diskBooks disk) page) := by
  have zero : getPageStart (diskBooks disk) page = .ok 0 := by
    simp [getPageStart, diskBooks]
  rw [zero]
  refine ⟨fun _ _ => ⟨0, rfl, rfl⟩, fun site same => ?_⟩
  unfold getPageStart at same
  split at same <;> cases same

theorem disk_set_page_follows (disk : Disk) (page : Nat) (source : List BYTE) :
    Follows (fun a b => b = (a.1, diskBooks a.2))
      (diskSetPage disk page source)
      (diskSetPage (diskBooks disk) page []) := by
  unfold diskSetPage
  refine follows_bind (follows_same _) ?_
  rintro _ _ _ rfl
  refine follows_bind (follows_same (isPageAllocated disk page)) ?_
  rintro taken _ _ rfl
  cases taken with
  | false => exact follows_ok rfl
  | true =>
      refine follows_bind (page_start_follows disk page) ?_
      rintro start _ _ rfl
      refine follows_bind (copy_in_follows disk.data source start) ?_
      rintro data _ _ rfl
      exact follows_ok rfl

theorem disk_get_page_follows (disk : Disk) (page : Nat) :
    Follows (fun a b => b = a.map fun _ => []) (diskGetPage disk page)
      (diskGetPage (diskBooks disk) page) := by
  unfold diskGetPage
  refine follows_bind (follows_same _) ?_
  rintro _ _ _ rfl
  refine follows_bind (follows_same (isPageAllocated disk page)) ?_
  rintro taken _ _ rfl
  cases taken with
  | false => exact follows_ok rfl
  | true =>
      refine follows_bind (page_start_follows disk page) ?_
      rintro start _ _ rfl
      refine follows_bind (copy_out_follows disk.data start disk.pageSize) ?_
      rintro bytes _ _ rfl
      exact follows_ok rfl

theorem mem_addr_books (memPage : Nat) : memAddr (books mmu) memPage 0 = 0 := by
  simp [memAddr, books]

theorem sync_to_follows (page : VirtAddr) :
    Follows (fun a b => b = (a.1, books a.2)) (mmuSyncToBackingPage mmu page)
      (mmuSyncToBackingPage (books mmu) page) := by
  unfold mmuSyncToBackingPage
  refine follows_bind (follows_same (iptIsDirty mmu.memIpt page)) ?_
  rintro dirty _ _ rfl
  cases dirty with
  | false => exact follows_ok rfl
  | true =>
      refine follows_bind (follows_same (iptTranslate mmu.memIpt page)) ?_
      rintro memPage _ _ rfl
      rw [show (books mmu).diskMap = mmu.diskMap from rfl]
      cases mapGet diskMapComparator mmu.diskMap page with
      | none => exact ⟨fun _ same => (by cases same), fun _ same => same⟩
      | some diskPage =>
          rw [mem_addr_books]
          refine follows_bind (copy_out_follows mmu.mem.data _ mmu.disk.pageSize) ?_
          rintro bytes _ _ rfl
          refine follows_bind (disk_set_page_follows mmu.disk diskPage bytes) ?_
          rintro result _ _ rfl
          exact follows_ok rfl

theorem sync_from_follows (page : VirtAddr) :
    Follows (fun a b => b = (a.1, books a.2)) (mmuSyncFromBackingPage mmu page)
      (mmuSyncFromBackingPage (books mmu) page) := by
  unfold mmuSyncFromBackingPage
  refine follows_bind (follows_same (iptTranslate mmu.memIpt page)) ?_
  rintro memPage _ _ rfl
  rw [show (books mmu).diskMap = mmu.diskMap from rfl]
  cases mapGet diskMapComparator mmu.diskMap page with
  | none => exact ⟨fun _ same => (by cases same), fun _ same => same⟩
  | some diskPage =>
      refine follows_bind (disk_get_page_follows mmu.disk diskPage) ?_
      rintro bytes _ _ rfl
      cases bytes with
      | none => exact follows_ok rfl
      | some bytes =>
          rw [mem_addr_books]
          refine follows_bind (copy_in_follows mmu.mem.data bytes _) ?_
          rintro data _ _ rfl
          exact follows_ok rfl

theorem swap_out_follows (page : VirtAddr) :
    Follows (fun a b => b = books a) (prmSwapOut mmu page) (prmSwapOut (books mmu) page) := by
  unfold prmSwapOut
  refine follows_bind (sync_to_follows mmu page) ?_
  rintro ⟨errcode, middle⟩ _ _ rfl
  refine follows_bind (follows_same (assert .prmSwapOut (errcode = .ecSuccess))) ?_
  rintro _ _ _ rfl
  rw [unmap_page_books]
  refine follows_bind (follows_map _ (mmuUnmapPage middle page)) ?_
  rintro ⟨errcode, after⟩ _ _ rfl
  refine follows_bind (follows_same (assert .prmSwapOut (errcode = .ecSuccess))) ?_
  rintro _ _ _ rfl
  exact follows_ok rfl

theorem page_to_swap_books (prm : PrmStatics) (addr : VirtAddr) :
    getPageToSwap prm (books mmu) addr =
      (getPageToSwap prm mmu addr).map fun r => (r.1, r.2.1, books r.2.2) := by
  unfold getPageToSwap
  let aimed := { prm with oldestPageIdx := none, swapTarget := addr }
  cases seen : mmuForEachMemPage mmu getOldestPage aimed with
  | mk after chosen =>
      have same : mmuForEachMemPage (books mmu) getOldestPage aimed = (books after, chosen) := by
        unfold mmuForEachMemPage at seen ⊢
        cases seen
        rfl
      simp only [aimed] at seen same
      simp only [seen, same]
      cases !virtAddrPageEq addr chosen.oldestPageVaddr <;> rfl

theorem swap_until_mapped_follows (addr : VirtAddr) (fuel : Nat) (errcode : Errcode)
    (prm : PrmStatics) :
    Follows (fun a b => b = (a.1, books a.2)) (swapUntilMapped addr fuel errcode prm mmu)
      (swapUntilMapped addr fuel errcode prm (books mmu)) := by
  induction fuel generalizing mmu errcode prm with
  | zero =>
      cases errcode with
      | ecSuccess => exact follows_ok rfl
      | ecFail => exact ⟨fun _ same => (by cases same), fun _ same => (by cases same)⟩
      | ecNotFound => exact ⟨fun _ same => (by cases same), fun _ same => (by cases same)⟩
  | succ fuel ih =>
      cases errcode with
      | ecSuccess => exact follows_ok rfl
      | _ =>
          unfold swapUntilMapped
          rw [page_to_swap_books]
          refine follows_bind (follows_map _ (getPageToSwap prm mmu addr)) ?_
          rintro ⟨victim, chosen, middle⟩ _ _ rfl
          refine follows_bind (swap_out_follows middle victim) ?_
          rintro swapped _ _ rfl
          rw [map_page_books]
          refine follows_bind (follows_map _ (mmuMapPage swapped addr)) ?_
          rintro ⟨code, mapped⟩ _ _ rfl
          refine follows_bind (follows_same (iptTranslate mapped.memIpt addr)) ?_
          rintro frame _ _ rfl
          exact ih mapped code chosen

theorem prm_service_follows (prm : PrmStatics) (addr : VirtAddr) :
    Follows (fun a b => b = (a.1, books a.2)) (prmService prm mmu addr)
      (prmService prm (books mmu) addr) := by
  unfold prmService
  rw [map_page_books]
  refine follows_bind (follows_map _ (mmuMapPage mmu addr)) ?_
  rintro ⟨errcode, mapped⟩ _ _ rfl
  refine follows_bind (swap_until_mapped_follows mapped addr _ errcode prm) ?_
  rintro ⟨chosen, swapped⟩ _ _ rfl
  refine follows_bind (sync_from_follows swapped addr) ?_
  rintro ⟨code, after⟩ _ _ rfl
  exact follows_ok rfl

end Functions

end VmSim.MemoryUnit
