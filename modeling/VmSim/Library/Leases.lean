import Mathlib.Logic.Equiv.Basic
import VmSim.Library.AlignedBlocks

/-!
Blocks of a store that owners lease, each for one tenant. Page `k` of the tenant is
backed by cell `start + k` as long as `lo ≤ k < hi`: a lease is extended page by
page, handed over, retracted page by page and given up. In every state each backing
cell is inside one lease and no cell backs two pages.
-/

namespace VmSim.Leases
open AlignedBlocks

structure Lease where
  tenant : Nat
  start : Nat
  lo : Nat
  hi : Nat
  deriving DecidableEq, Repr

structure Lease.Backs (l : Lease) (key : Nat × Nat) (cell : Nat) : Prop where
  tenant : key.1 = l.tenant
  low : l.lo ≤ key.2
  high : key.2 < l.hi
  cell : cell = l.start + key.2

variable {Owner : Type}

structure Leased (width total : Nat) (live : List Nat) (lease : Owner → Option Lease)
    (backing : Nat × Nat → Option Nat) : Prop where
  packed : Packed width total live
  listed : ∀ start, start ∈ live ↔ ∃ o l, lease o = some l ∧ l.start = start
  bounded : ∀ o l, lease o = some l → l.lo ≤ l.hi ∧ l.hi ≤ width
  separate : ∀ o p l m, lease o = some l → lease p = some m → o ≠ p →
    l.tenant ≠ m.tenant ∧ l.start ≠ m.start
  backs : ∀ key cell, backing key = some cell ↔ ∃ o l, lease o = some l ∧ l.Backs key cell

variable {width total : Nat} {live : List Nat} {lease : Owner → Option Lease}
variable {backing : Nat × Nat → Option Nat} {owner : Owner} {l : Lease}

theorem nothing_leased : Leased width total [] (fun _ : Owner => none) fun _ => none :=
  ⟨packed_nil, by simp, by simp, by simp, by simp⟩

section Facts
variable (leased : Leased width total live lease backing)
include leased

theorem tenant_owner {other : Owner} {m : Lease} (mine : lease owner = some l)
    (yours : lease other = some m) (same : l.tenant = m.tenant) : owner = other ∧ l = m := by
  have one : owner = other := by
    by_contra apart
    exact (leased.separate owner other l m mine yours apart).1 same
  subst one
  rw [mine] at yours
  exact ⟨rfl, Option.some.inj yours⟩

theorem cell_owner {other : Owner} {m : Lease} (mine : lease owner = some l)
    (yours : lease other = some m) {cell : Nat} (low : l.start ≤ cell) (high : cell < l.start + width)
    (low' : m.start ≤ cell) (high' : cell < m.start + width) : owner = other ∧ l = m := by
  have one : owner = other := by
    by_contra apart
    have left := (leased.listed l.start).mpr ⟨owner, l, mine, rfl⟩
    have right := (leased.listed m.start).mpr ⟨other, m, yours, rfl⟩
    have distinct := (leased.separate owner other l m mine yours apart).2
    rcases blocks_disjoint leased.packed left right distinct with before | behind <;> omega
  subst one
  rw [mine] at yours
  exact ⟨rfl, Option.some.inj yours⟩

theorem backing_inside {key : Nat × Nat} {cell : Nat} (backed : backing key = some cell) :
    ∃ o m, lease o = some m ∧ m.Backs key cell ∧ m.start ≤ cell ∧ cell < m.start + width := by
  obtain ⟨o, m, leases, backs⟩ := (leased.backs key cell).mp backed
  have bound := (leased.bounded o m leases).2
  have high := backs.high
  refine ⟨o, m, leases, backs, ?_, ?_⟩ <;> rw [backs.cell] <;> omega

theorem backing_injective {left right : Nat × Nat} {cell : Nat} (first : backing left = some cell)
    (second : backing right = some cell) : left = right := by
  obtain ⟨o, m, leases, backs, low, high⟩ := backing_inside leased first
  obtain ⟨p, n, leases', backs', low', high'⟩ := backing_inside leased second
  obtain ⟨-, rfl⟩ := cell_owner leased leases leases' low high low' high'
  have page : left.2 = right.2 := by
    have here := backs.cell
    have there := backs'.cell
    omega
  exact Prod.ext (backs.tenant.trans backs'.tenant.symm) page

theorem backed_page (mine : lease owner = some l) {page : Nat} (low : l.lo ≤ page)
    (high : page < l.hi) : backing (l.tenant, page) = some (l.start + page) :=
  (leased.backs _ _).mpr ⟨owner, l, mine, rfl, low, high, rfl⟩

theorem unbacked_page (mine : lease owner = some l) {page : Nat} (outside : page < l.lo ∨ l.hi ≤ page) :
    backing (l.tenant, page) = none := by
  rw [Option.eq_none_iff_forall_ne_some]
  intro cell backed
  obtain ⟨o, m, leases, backs⟩ := (leased.backs _ _).mp backed
  obtain ⟨-, rfl⟩ := tenant_owner leased mine leases backs.tenant
  have low := backs.low
  have high := backs.high
  dsimp only at low high
  omega

theorem unused_cell (mine : lease owner = some l) {page : Nat} (bound : page < width)
    (outside : page < l.lo ∨ l.hi ≤ page) (key : Nat × Nat) : backing key ≠ some (l.start + page) := by
  intro backed
  obtain ⟨o, m, leases, backs, low, high⟩ := backing_inside leased backed
  obtain ⟨-, rfl⟩ := cell_owner leased mine leases (Nat.le_add_right ..) (by omega) low high
  have cell := backs.cell
  have low' := backs.low
  have high' := backs.high
  omega

end Facts

section Changes
variable [DecidableEq Owner]

theorem lease_changed (leased : Leased width total live lease backing) (mine : lease owner = some l)
    {m : Lease} {backing' : Nat × Nat → Option Nat} (tenant : m.tenant = l.tenant)
    (start : m.start = l.start) (bounded : m.lo ≤ m.hi ∧ m.hi ≤ width)
    (mined : ∀ key cell, key.1 = l.tenant → (backing' key = some cell ↔ m.Backs key cell))
    (others : ∀ key, key.1 ≠ l.tenant → backing' key = backing key) :
    Leased width total live (Function.update lease owner (some m)) backing' := by
  have cases : ∀ o n, Function.update lease owner (some m) o = some n →
      o = owner ∧ n = m ∨ o ≠ owner ∧ lease o = some n := by
    intro o n leases
    by_cases same : o = owner
    · subst same
      rw [Function.update_self] at leases
      exact .inl ⟨rfl, (Option.some.inj leases).symm⟩
    · rw [Function.update_of_ne same] at leases
      exact .inr ⟨same, leases⟩
  have now : Function.update lease owner (some m) owner = some m := Function.update_self ..
  have still : ∀ o n, o ≠ owner → lease o = some n → Function.update lease owner (some m) o = some n :=
    fun o n other leases => (Function.update_of_ne other ..).trans leases
  refine ⟨leased.packed, fun cell => ?_, fun o n leases => ?_, fun o p n k first second apart => ?_,
    fun key cell => ?_⟩
  · rw [leased.listed]
    constructor
    · rintro ⟨o, n, leases, rfl⟩
      by_cases same : o = owner
      · subst same
        rw [mine] at leases
        cases leases
        exact ⟨o, m, now, start⟩
      · exact ⟨o, n, still o n same leases, rfl⟩
    · rintro ⟨o, n, leases, rfl⟩
      rcases cases o n leases with ⟨rfl, rfl⟩ | ⟨-, before⟩
      · exact ⟨o, l, mine, start.symm⟩
      · exact ⟨o, n, before, rfl⟩
  · rcases cases o n leases with ⟨-, rfl⟩ | ⟨-, before⟩
    · exact bounded
    · exact leased.bounded o n before
  · rcases cases o n first with ⟨rfl, rfl⟩ | ⟨-, left⟩
    · rcases cases p k second with ⟨rfl, -⟩ | ⟨-, right⟩
      · exact absurd rfl apart
      · rw [tenant, start]
        exact leased.separate o p l k mine right apart
    · rcases cases p k second with ⟨rfl, rfl⟩ | ⟨-, right⟩
      · rw [tenant, start]
        exact leased.separate o p n l left mine apart
      · exact leased.separate o p n k left right apart
  · by_cases ours : key.1 = l.tenant
    · rw [mined key cell ours]
      constructor
      · exact fun backs => ⟨owner, m, now, backs⟩
      · rintro ⟨o, n, leases, backs⟩
        rcases cases o n leases with ⟨-, rfl⟩ | ⟨other, before⟩
        · exact backs
        · exact absurd (ours.symm.trans backs.tenant)
            (leased.separate owner o l n mine before (Ne.symm other)).1
    · rw [others key ours, leased.backs]
      constructor
      · rintro ⟨o, n, leases, backs⟩
        have other : o ≠ owner := by
          rintro rfl
          rw [mine] at leases
          cases leases
          exact ours backs.tenant
        exact ⟨o, n, still o n other leases, backs⟩
      · rintro ⟨o, n, leases, backs⟩
        rcases cases o n leases with ⟨-, rfl⟩ | ⟨-, before⟩
        · exact absurd (backs.tenant.trans tenant) ours
        · exact ⟨o, n, before, backs⟩

theorem lease_extended (leased : Leased width total live lease backing) (mine : lease owner = some l)
    (room : l.hi < width) :
    Leased width total live (Function.update lease owner (some { l with hi := l.hi + 1 }))
      (Function.update backing (l.tenant, l.hi) (some (l.start + l.hi))) := by
  have bounded := leased.bounded owner l mine
  refine lease_changed leased mine rfl rfl ⟨by dsimp only; omega, room⟩ ?_ ?_
  · rintro ⟨tenant, page⟩ cell rfl
    by_cases new : page = l.hi
    · subst new
      rw [Function.update_self, Option.some.injEq]
      exact ⟨fun same => ⟨rfl, bounded.1, Nat.lt_succ_self _, same.symm⟩, fun backs => backs.cell.symm⟩
    · rw [Function.update_of_ne (by simpa using new)]
      by_cases inside : l.lo ≤ page ∧ page < l.hi
      · rw [backed_page leased mine inside.1 inside.2, Option.some.injEq]
        exact ⟨fun same => ⟨rfl, inside.1, Nat.lt_succ_of_lt inside.2, same.symm⟩,
          fun backs => backs.cell.symm⟩
      · rw [unbacked_page leased mine (by omega)]
        refine ⟨(fun none => by cases none), fun backs => ?_⟩
        have low := backs.low
        have high := backs.high
        dsimp only at low high
        omega
  · intro key other
    refine Function.update_of_ne ?_ _ _
    rintro rfl
    exact other rfl

theorem lease_retracted (leased : Leased width total live lease backing) (mine : lease owner = some l)
    (rest : l.lo < l.hi) :
    Leased width total live (Function.update lease owner (some { l with lo := l.lo + 1 }))
      (Function.update backing (l.tenant, l.lo) none) := by
  have bounded := leased.bounded owner l mine
  refine lease_changed leased mine rfl rfl ⟨rest, bounded.2⟩ ?_ ?_
  · rintro ⟨tenant, page⟩ cell rfl
    by_cases first : page = l.lo
    · subst first
      rw [Function.update_self]
      refine ⟨(fun none => by cases none), fun backs => ?_⟩
      have low := backs.low
      dsimp only at low
      omega
    · rw [Function.update_of_ne (by simpa using first)]
      by_cases inside : l.lo ≤ page ∧ page < l.hi
      · rw [backed_page leased mine inside.1 inside.2, Option.some.injEq]
        exact ⟨fun same => ⟨rfl, by dsimp only; omega, inside.2, same.symm⟩,
          fun backs => backs.cell.symm⟩
      · rw [unbacked_page leased mine (by omega)]
        refine ⟨(fun none => by cases none), fun backs => ?_⟩
        have low := backs.low
        have high := backs.high
        dsimp only at low high
        omega
  · intro key other
    refine Function.update_of_ne ?_ _ _
    rintro rfl
    exact other rfl

theorem lease_acquired (leased : Leased width total live lease backing) (free : lease owner = none)
    {tenant start : Nat} (packed : Packed width total (start :: live))
    (fresh : ∀ o m, lease o = some m → m.tenant ≠ tenant) :
    Leased width total (start :: live)
      (Function.update lease owner (some ⟨tenant, start, 0, 0⟩)) backing := by
  have unused : start ∉ live := (List.nodup_cons.mp packed.unique).1
  have cases : ∀ o n, Function.update lease owner (some ⟨tenant, start, 0, 0⟩) o = some n →
      o = owner ∧ n = ⟨tenant, start, 0, 0⟩ ∨ o ≠ owner ∧ lease o = some n := by
    intro o n leases
    by_cases same : o = owner
    · subst same
      rw [Function.update_self] at leases
      exact .inl ⟨rfl, (Option.some.inj leases).symm⟩
    · rw [Function.update_of_ne same] at leases
      exact .inr ⟨same, leases⟩
  have still : ∀ o n, lease o = some n →
      Function.update lease owner (some ⟨tenant, start, 0, 0⟩) o = some n := by
    intro o n leases
    have other : o ≠ owner := by
      rintro rfl
      rw [free] at leases
      cases leases
    exact (Function.update_of_ne other ..).trans leases
  have apart : ∀ o n, lease o = some n → n.start ≠ start := by
    rintro o n leases rfl
    exact unused ((leased.listed n.start).mpr ⟨o, n, leases, rfl⟩)
  refine ⟨packed, fun cell => ?_, fun o n leases => ?_, fun o p n k first second distinct => ?_,
    fun key cell => ?_⟩
  · rw [List.mem_cons, leased.listed]
    constructor
    · rintro (rfl | ⟨o, n, leases, same⟩)
      · exact ⟨owner, _, Function.update_self .., rfl⟩
      · exact ⟨o, n, still o n leases, same⟩
    · rintro ⟨o, n, leases, rfl⟩
      rcases cases o n leases with ⟨-, rfl⟩ | ⟨-, before⟩
      · exact .inl rfl
      · exact .inr ⟨o, n, before, rfl⟩
  · rcases cases o n leases with ⟨-, rfl⟩ | ⟨-, before⟩
    · exact ⟨Nat.le_refl _, Nat.zero_le _⟩
    · exact leased.bounded o n before
  · rcases cases o n first with ⟨rfl, rfl⟩ | ⟨-, left⟩
    · rcases cases p k second with ⟨rfl, -⟩ | ⟨-, right⟩
      · exact absurd rfl distinct
      · exact ⟨Ne.symm (fresh p k right), Ne.symm (apart p k right)⟩
    · rcases cases p k second with ⟨-, rfl⟩ | ⟨-, right⟩
      · exact ⟨fresh o n left, apart o n left⟩
      · exact leased.separate o p n k left right distinct
  · rw [leased.backs]
    constructor
    · exact fun ⟨o, n, leases, backs⟩ => ⟨o, n, still o n leases, backs⟩
    · rintro ⟨o, n, leases, backs⟩
      rcases cases o n leases with ⟨-, rfl⟩ | ⟨-, before⟩
      · exact absurd backs.high (Nat.not_lt_zero _)
      · exact ⟨o, n, before, backs⟩

theorem lease_dropped (leased : Leased width total live lease backing) (mine : lease owner = some l)
    (empty : l.hi ≤ l.lo) :
    Leased width total (live.erase l.start) (Function.update lease owner none) backing := by
  have cases : ∀ o n, Function.update lease owner none o = some n → o ≠ owner ∧ lease o = some n := by
    intro o n leases
    by_cases same : o = owner
    · subst same
      rw [Function.update_self] at leases
      cases leases
    · rw [Function.update_of_ne same] at leases
      exact ⟨same, leases⟩
  have still : ∀ o n, o ≠ owner → lease o = some n → Function.update lease owner none o = some n :=
    fun o n other leases => (Function.update_of_ne other ..).trans leases
  refine ⟨packed_erase leased.packed l.start, fun cell => ?_,
    fun o n leases => leased.bounded o n (cases o n leases).2,
    fun o p n k first second distinct =>
      leased.separate o p n k (cases o n first).2 (cases p k second).2 distinct, fun key cell => ?_⟩
  · rw [leased.packed.unique.mem_erase_iff, leased.listed]
    constructor
    · rintro ⟨apart, o, n, leases, rfl⟩
      refine ⟨o, n, still o n ?_ leases, rfl⟩
      rintro rfl
      rw [mine] at leases
      cases leases
      exact apart rfl
    · rintro ⟨o, n, leases, rfl⟩
      obtain ⟨other, before⟩ := cases o n leases
      exact ⟨(leased.separate o owner n l before mine other).2, o, n, before, rfl⟩
  · rw [leased.backs]
    constructor
    · rintro ⟨o, n, leases, backs⟩
      refine ⟨o, n, still o n ?_ leases, backs⟩
      rintro rfl
      rw [mine] at leases
      cases leases
      have low := backs.low
      have high := backs.high
      omega
    · rintro ⟨o, n, leases, backs⟩
      exact ⟨o, n, (cases o n leases).2, backs⟩

omit [DecidableEq Owner] in
theorem leases_renamed (leased : Leased width total live lease backing) (rename : Equiv.Perm Owner) :
    Leased width total live (fun o => lease (rename o)) backing where
  packed := leased.packed
  listed start := by
    rw [leased.listed]
    constructor
    · rintro ⟨o, n, leases, same⟩
      exact ⟨rename.symm o, n, by simpa using leases, same⟩
    · rintro ⟨o, n, leases, same⟩
      exact ⟨rename o, n, leases, same⟩
  bounded o := leased.bounded (rename o)
  separate o p l m first second apart :=
    leased.separate _ _ l m first second fun same => apart (rename.injective same)
  backs key cell := by
    rw [leased.backs]
    constructor
    · rintro ⟨o, n, leases, backs⟩
      exact ⟨rename.symm o, n, by simpa using leases, backs⟩
    · rintro ⟨o, n, leases, backs⟩
      exact ⟨rename o, n, leases, backs⟩

theorem lease_handed (leased : Leased width total live lease backing) {other : Owner}
    (free : lease other = none) :
    Leased width total live
      (Function.update (Function.update lease owner none) other (lease owner)) backing := by
  have same : (fun o => lease (Equiv.swap owner other o)) =
      Function.update (Function.update lease owner none) other (lease owner) := by
    funext o
    by_cases left : o = other
    · subst left
      rw [Function.update_self, Equiv.swap_apply_right]
    · rw [Function.update_of_ne left]
      by_cases right : o = owner
      · subst right
        rw [Function.update_self, Equiv.swap_apply_left, free]
      · rw [Function.update_of_ne right, Equiv.swap_apply_of_ne_of_ne right left]
  rw [← same]
  exact leases_renamed leased (Equiv.swap owner other)

end Changes

end VmSim.Leases
