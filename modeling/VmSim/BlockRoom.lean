import VmSim.BitmapSearch
import VmSim.ThreadSafety

/-!
The disk refuses a block only where it has fewer blocks than there are slots: each
block that is taken is the block of a live process, and no process lives in the slot
that is to be filled. With a block for every slot `init_process` never frees a slot,
and its search for a block stays inside the bitmap.
-/

namespace VmSim.ThreadCode
open LockedThreads Interleaving PageTable DiskBlocks KeyedMap MemoryUnit PageReplacement PagingRuns
open FramePool DemandPaging BlockAllocator Leases

/-- The disk has had no block for the slot. -/
def UiPc.Refused : UiPc → Prop
  | .creating _ (.allocating _ none .leave) => True
  | .creating _ (.refusing _) => True
  | .creating _ (.freeing _) => True
  | _ => False

section Booking
variable {ui : UiPc} {sh : Shared}

def Refuses (ui : UiPc) (sh : Shared) : Prop :=
  ∃ past i before disk, ui = .creating past (.allocating i before .inside) ∧
    diskAllocProcessBlock past sh.machine.mmu.disk = .ok (none, disk)

theorem create_refused {past : Nat → PackedBitmap.Block} {pc : CreatePc} (waits : ∀ i, pc ≠ .spawning i) :
    (createCode past pc).Yields sh fun ui' _ => ui'.Refused →
      UiPc.Refused (.creating past pc) ∨ Refuses (.creating past pc) sh := by
  cases pc with
  | locking => exact False.elim
  | selecting =>
      intro after reached done
      dsimp only at done
      split at done <;> cases done <;> exact False.elim
  | allocating i page phase =>
      cases phase with
      | want => cases page <;> exact False.elim
      | inside =>
          intro after reached done refused
          obtain ⟨⟨found, disk⟩, ran, made⟩ := bind_eq_ok.mp done
          cases made
          cases found with
          | none => exact .inr ⟨past, i, page, disk, rfl, ran⟩
          | some start => exact refused.elim
      | leave =>
          cases page with
          | none => exact fun _ => .inl trivial
          | some page => exact False.elim
  | mapping i page k =>
      intro after reached done
      cases done
      split <;> exact False.elim
  | mappingPage i page k phase =>
      rw [createCode]
      exact leads_yields (section_leads (t := .ui) (fun phase sh' _ => False.elim) (fun sh' _ => False.elim) phase)
  | filling i page =>
      intro after reached done
      cases done
      exact False.elim
  | unlocking i => exact False.elim
  | spawning i => exact absurd rfl (waits i)
  | spinning i => exact fun _ => False.elim
  | refusing i => exact fun _ => .inl trivial
  | freeing i =>
      intro after reached done
      cases done

theorem ui_refused (waits : ∀ past i, ui ≠ .creating past (.spawning i)) :
    (uiCode ui).Yields sh fun ui' _ => ui'.Refused → ui.Refused ∨ Refuses ui sh := by
  cases ui with
  | idle =>
      intro place command
      cases place with
      | creating past pc => cases pc <;> first | exact False.elim | cases command
      | _ => exact False.elim
  | creating past pc => exact create_refused fun i same => waits past i (by rw [same])
  | destroying pid => exact False.elim
  | testing pid =>
      intro after reached done
      cases done
      split <;> exact False.elim
  | composing pid mail pc =>
      cases pc with
      | testing =>
          intro after reached done
          dsimp only at done
          split at done
          · cases done
            cases mail <;> exact False.elim
          · split at done
            · cases done
            · split at done <;> cases done
              · cases mail <;> exact False.elim
              · exact False.elim
      | pushing =>
          intro after reached done
          dsimp only at done
          split at done
          · cases done
            exact False.elim
          · split at done <;> cases done
            exact False.elim
      | unlocking => cases mail <;> exact False.elim
      | _ => exact False.elim
  | marking pid =>
      intro after reached done
      cases done
      exact False.elim
  | waiting pid => exact fun _ => False.elim
  | returning => exact False.elim

end Booking

section Room
variable {blk size : Nat} {written : Key → Nat → Option BYTE} {s : Threads}
variable {past : Nat → PackedBitmap.Block} {i : Nat} {before : Option Nat}

/-- While a slot is to be filled every live block has a slot of its own elsewhere. -/
theorem blocks_below_slots (tended : Tended blk size written s)
    (books : s.place .ui = .creating past (.allocating i before .inside)) {live : List Nat}
    (leased : Leased blk s.shared.machine.mmu.disk.npages live
      (leaseOf blk (procs s) (s.place .ui) s.shared.control) (backingOf s.shared.machine.mmu)) :
    live.length < s.shared.control.maxNumOfProc := by
  have vacant := ui_vacant tended.hands books rfl
  have housed : ∀ start ∈ live, ∃ n l, (procs s n).lease blk s.shared.control = some l ∧ l.start = start := by
    intro start member
    obtain ⟨owner, l, lease, starts⟩ := (leased.listed start).mp member
    cases owner with
    | none =>
        have lease : UiPc.lease blk s.shared.control (s.place .ui) = some l := lease
        rw [books] at lease
        cases before <;> cases lease
    | some n => exact ⟨n, l, lease, starts⟩
  choose! owner held using housed
  have lease_of : ∀ {n : Nat} {l : Lease}, (procs s n).lease blk s.shared.control = some l →
      leaseOf blk (procs s) (s.place .ui) s.shared.control (some n) = some l := fun found => found
  have alive : ∀ start ∈ live, (procs s (owner start)).stage.Live := by
    intro start mine
    obtain ⟨l, lease, -⟩ := held start mine
    exact (lease_tenant lease).2
  have separate : ∀ start ∈ live, ∀ other ∈ live,
      (procs s (owner start)).pid = (procs s (owner other)).pid → start = other := by
    intro start mine other yours same
    obtain ⟨l, first, rfl⟩ := held start mine
    obtain ⟨m, second, rfl⟩ := held other yours
    have tenants : l.tenant = m.tenant := by rw [(lease_tenant first).1, (lease_tenant second).1, same]
    exact congrArg Lease.start (tenant_owner leased (lease_of first) (lease_of second) tenants).2
  have unique : (live.map fun start => (procs s (owner start)).pid).Nodup :=
    leased.packed.unique.map_on separate
  have elsewhere : i ∉ live.map fun start => (procs s (owner start)).pid := by
    intro member
    obtain ⟨start, mine, same⟩ := List.mem_map.mp member
    exact vacant.empty ⟨owner start, same, alive start mine⟩
  have subset : (i :: live.map fun start => (procs s (owner start)).pid) ⊆
      List.range s.shared.control.maxNumOfProc := by
    intro pid member
    rw [List.mem_range]
    rcases List.mem_cons.mp member with rfl | member
    · exact vacant.inside
    · obtain ⟨start, mine, rfl⟩ := List.mem_map.mp member
      exact tended.hands.residents.inside _ (alive start mine)
  have count := (List.nodup_cons.mpr ⟨elsewhere, unique⟩).length_le_of_subset subset
  rw [List.length_cons, List.length_map, List.length_range] at count
  omega

theorem block_found (tended : Tended blk size written s)
    (books : s.place .ui = .creating past (.allocating i before .inside))
    (room : s.shared.control.maxNumOfProc ≤ s.shared.machine.mmu.disk.npages / blk) :
    (∃ page disk, diskAllocProcessBlock past s.shared.machine.mmu.disk = .ok (some page, disk)) ∧
      ∀ k ∈ PackedBitmap.allocBlockReads past s.shared.machine.mmu.disk,
        k < s.shared.machine.mmu.disk.allocBitmap.data.length := by
  obtain ⟨live, owned, leased⟩ := tended.paged.housed
  have sized := tended.paged.sized
  have below := blocks_below_slots tended books leased
  have positive := owned.positive
  have small := sized.small
  have blocks := sized.blocks
  have left : live.length < s.shared.machine.mmu.disk.npages / s.shared.machine.mmu.disk.processBlockSize := by
    rw [blocks]
    omega
  refine ⟨(alloc_succeeds_iff owned (by omega) past).mpr left, ?_⟩
  obtain ⟨start, fits, clear⟩ := (room_iff_clear_run owned).mp left
  have first : allocated s.shared.machine.mmu.disk start = false := clear 0 positive
  exact PackedBitmap.clear_bit_inside past owned.wellformed.bitmap
    (owned.wellformed.sized ▸ (by omega : start < s.shared.machine.mmu.disk.npages)) first

end Room

section Runs
variable {mem : Mm} {disk : Disk} {maxNumOfProc freq : Nat} {prm : PrmStatics} {s : Threads}
variable {past : List (Event Thread Place)}

theorem refused_step {event : Event Thread Place} (enabled : Enabled code s event)
    (refused : UiPc.Refused ((next code s event).place .ui)) :
    UiPc.Refused (s.place .ui) ∨ Refuses (s.place .ui) s.shared := by
  by_cases mine : event.thread = .ui
  · by_cases spawns : ∃ past i, s.place .ui = .creating past (.spawning i)
    · obtain ⟨past, i, spawns⟩ := spawns
      have ready := enabled.2
      cases event with
      | runs t =>
          cases mine
          rw [(spawn_step spawns).ui] at refused
          exact refused.elim
      | picks t place =>
          cases mine
          rw [Ready, spawns] at ready
          exact ready.2.elim
      | wakes t =>
          cases mine
          rw [Ready, spawns] at ready
          exact ready.2.elim
    · have moved := step_yields mine enabled (fun there => Or.inl there)
        (ui_refused fun past i there => spawns ⟨past, i, there⟩)
      exact moved.post refused
  · have still : (next code s event).place .ui = s.place .ui :=
      place_step mine fun u does place _ spawns same => by
        rw [(spawn_next spawns s.shared).2] at same
        cases same
    rw [still] at refused
    exact .inl refused

theorem running_sizes {begin : Threads} (run : Run (program code) begin past s) :
    SameSizes begin.shared s.shared := by
  induction run with
  | nil => exact ⟨rfl, rfl⟩
  | @step past s event _ _ ih =>
      have step := sizes_step (s := s) event
      exact ⟨step.pages.trans ih.pages, step.slots.trans ih.slots⟩

theorem running_refused (configured : Configured mem disk)
    (run : Run (tended (Proper disk.processBlockSize mem.pageSize))
      (boot maxNumOfProc mem disk freq prm) past s) (refused : UiPc.Refused (s.place .ui)) :
    disk.npages / disk.processBlockSize < maxNumOfProc := by
  induction run with
  | nil => exact refused.elim
  | @step past s event before enabled ih =>
      rcases refused_step enabled.1 refused with there | ⟨table, i, page, after, books, full⟩
      · exact ih there
      · by_contra room
        have sizes := running_sizes (tended_runs before)
        have pages : s.shared.machine.mmu.disk.npages = disk.npages := sizes.pages
        have slots : s.shared.control.maxNumOfProc = maxNumOfProc := sizes.slots
        obtain ⟨⟨start, marked, found⟩, -⟩ := block_found (running_tended configured before) books
          (by rw [pages, slots]; omega)
        rw [full] at found
        cases found

end Runs

end VmSim.ThreadCode
