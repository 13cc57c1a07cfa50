import VmSim.MemoryUnit

/-!
Histories of util/map.c from `map_init`, the latest call first. What the map
holds under a key is read off the history: the last `map_set` of an equivalent
key, unless an equivalent key was removed since. The first key of a class stays
stored while its value changes.
-/

namespace VmSim.KeyedMap

variable {K V C : Type}

inductive Op (K V : Type) where
  | set (key : K) (val : V)
  | remove (key : K)
  deriving DecidableEq, Repr

def Op.run (comp : K → K → Bool) (map : AssocMap K V) : Op K V → Errcode × AssocMap K V
  | .set key val => mapSet comp map key val
  | .remove key => mapRemove comp map key

def afterAll (comp : K → K → Bool) : List (Op K V) → AssocMap K V
  | [] => mapInit
  | op :: past => (op.run comp (afterAll comp past)).2

/-- The value of the last `map_set` of an equivalent key, if none was removed since. -/
def lastSet (rel : K → K → Prop) [DecidableRel rel] (key : K) : List (Op K V) → Option V
  | [] => none
  | .set other val :: past => if rel key other then some val else lastSet rel key past
  | .remove other :: past => if rel key other then none else lastSet rel key past

section Present
variable {comp : K → K → Bool} {cls : K → C} {map : AssocMap K V} {key : K}

theorem map_set_present (compares : Compares comp cls) (distinct : Distinct cls map)
    (present : mapGet comp map key ≠ none) (val : V) :
    ∃ after left right stored old, mapSet comp map key val = (.ecSuccess, after) ∧
      Distinct cls after ∧ pairs map = left ++ (stored, old) :: right ∧
      pairs after = left ++ (stored, val) :: right ∧ cls stored = cls key := by
  obtain ⟨idx, found⟩ := Option.ne_none_iff_exists'.mp (mt (map_get_none compares).mpr present)
  obtain ⟨left, right, stored, old, split, place, same, -⟩ := find_key_some compares found
  unfold mapSet
  rw [found]
  refine ⟨_, left, right, stored, old, rfl, distinct, split, ?_, same⟩
  simp only [pairs]
  rw [← keys_of_pairs, ← values_of_pairs, split, ← place]
  exact (List.zip_of_prod (by simp) (by simp)).symm

theorem map_set_exact [DecidableEq C] (compares : Compares comp cls) (distinct : Distinct cls map)
    (key : K) (val : V) : ∃ after, mapSet comp map key val = (.ecSuccess, after) ∧ Distinct cls after ∧
      ∀ other, mapGet comp after other =
        if cls other = cls key then some val else mapGet comp map other := by
  by_cases absent : mapGet comp map key = none
  · exact map_set_get compares distinct absent val
  · obtain ⟨after, left, right, stored, old, ran, kept, split, changed, named⟩ :=
      map_set_present compares distinct absent val
    refine ⟨after, ran, kept, fun other => ?_⟩
    by_cases same : cls other = cls key
    · rw [if_pos same]
      exact (map_get_iff compares kept).mpr ⟨stored, by simp [changed], named.trans same.symm⟩
    · rw [if_neg same]
      ext found
      rw [map_get_iff compares kept, map_get_iff compares distinct, split, changed]
      -- The pair that changes is of another class.
      have apart : ∀ key' v v', (key', found) ∈ left ++ (stored, v) :: right → cls key' = cls other →
          (key', found) ∈ left ++ (stored, v') :: right := by
        intro key' v v' member lies
        rw [List.mem_append, List.mem_cons] at member ⊢
        rcases member with before | now | behind
        · exact .inl before
        · cases now
          exact absurd (lies.symm.trans named) same
        · exact .inr (.inr behind)
      constructor
      · rintro ⟨key', member, lies⟩
        exact ⟨key', apart key' val old member lies, lies⟩
      · rintro ⟨key', member, lies⟩
        exact ⟨key', apart key' old val member lies, lies⟩

end Present

/-! Runs. -/

structure Refines (comp : K → K → Bool) (rel : K → K → Prop) [DecidableRel rel] (ops : List (Op K V))
    (map : AssocMap K V) : Prop where
  sized : map.keys.length = map.size ∧ map.values.length = map.size
  distinct : map.keys.Pairwise fun first second => ¬ rel first second
  paired : ∀ (i : Nat) (key : K), map.keys[i]? = some key → map.values[i]? = lastSet rel key ops
  gets : ∀ key, mapGet comp map key = lastSet rel key ops
  absent : ∀ key, (mapRemove comp map key).1 = .ecNotFound ↔ lastSet rel key ops = none
  unchanged : ∀ key, lastSet rel key ops = none → mapRemove comp map key = (.ecNotFound, map)
  others : ∀ key other, ¬ rel other key →
    mapGet comp (mapRemove comp map key).2 other = mapGet comp map other

def classOf {rel : K → K → Prop} (equivalence : Equivalence rel) (key : K) :
    Quotient (⟨rel, equivalence⟩ : Setoid K) := Quotient.mk _ key

theorem class_iff {rel : K → K → Prop} (equivalence : Equivalence rel) {first second : K} :
    classOf equivalence first = classOf equivalence second ↔ rel first second := Quotient.eq

section Runs
variable {comp : K → K → Bool} {rel : K → K → Prop} [DecidableRel rel]
variable (equivalence : Equivalence rel) (compares : ∀ a b, comp a b = false ↔ rel a b)
include equivalence compares

omit [DecidableRel rel] in
theorem class_compares : Compares comp (classOf equivalence) := fun a b =>
  (compares a b).trans (class_iff equivalence).symm

theorem op_gets {map : AssocMap K V} (distinct : Distinct (classOf equivalence) map)
    {past : List (Op K V)} (gets : ∀ key, mapGet comp map key = lastSet rel key past) (op : Op K V) :
    Distinct (classOf equivalence) (op.run comp map).2 ∧
      ∀ key, mapGet comp (op.run comp map).2 key = lastSet rel key (op :: past) := by
  classical
  have classes := class_compares equivalence compares
  cases op with
  | set other val =>
      obtain ⟨after, ran, kept, read⟩ := map_set_exact classes distinct other val
      simp only [Op.run, ran, lastSet]
      refine ⟨kept, fun key => ?_⟩
      simp only [read, gets, class_iff]
  | remove other =>
      -- Removing an absent key changes nothing, and the history calls it absent all the same.
      by_cases absent : mapGet comp map other = none
      · rw [Op.run, map_remove_absent classes absent]
        refine ⟨distinct, fun key => ?_⟩
        rw [lastSet]
        split
        · rename_i same
          rw [map_get_congr classes ((class_iff equivalence).mpr same), absent]
        · exact gets key
      · obtain ⟨after, ran, kept, read⟩ := map_remove_get classes distinct absent
        simp only [Op.run, ran, lastSet]
        refine ⟨kept, fun key => ?_⟩
        simp only [read, gets, class_iff]

theorem history_gets (ops : List (Op K V)) :
    Distinct (classOf equivalence) (afterAll comp ops) ∧
      ∀ key, mapGet comp (afterAll comp ops) key = lastSet rel key ops := by
  induction ops with
  | nil => exact ⟨map_init_distinct, fun key => map_init_get⟩
  | cons op past ih => exact op_gets equivalence compares ih.1 ih.2 op

omit [DecidableRel rel] in
theorem stored_paired {map : AssocMap K V} (distinct : Distinct (classOf equivalence) map) {i : Nat}
    {key : K} (stored : map.keys[i]? = some key) : map.values[i]? = mapGet comp map key := by
  obtain ⟨inside, here⟩ := List.getElem?_eq_some_iff.mp stored
  have inValues : i < map.values.length := by rwa [map.valuesSized, ← map.keysSized]
  have inPairs : i < (pairs map).length := by
    simp only [pairs, List.length_zip]
    omega
  have pair : (pairs map)[i] = (key, map.values[i]) := by simp [pairs, here]
  have member : (key, map.values[i]) ∈ pairs map := pair ▸ List.getElem_mem inPairs
  have found := (map_get_iff (class_compares equivalence compares) distinct).mpr ⟨key, member, rfl⟩
  rw [found, List.getElem?_eq_getElem inValues]

/-- The two arrays hold the finite function the calls describe. -/
theorem map_refines_function (ops : List (Op K V)) : Refines comp rel ops (afterAll comp ops) := by
  have classes := class_compares equivalence compares
  obtain ⟨distinct, gets⟩ := history_gets (V := V) equivalence compares ops
  have missing : ∀ key, lastSet rel key ops = none →
      mapRemove comp (afterAll comp ops) key = (.ecNotFound, afterAll comp ops) := fun key none =>
    map_remove_absent classes ((gets key).trans none)
  constructor
  · exact ⟨(afterAll comp ops).keysSized, (afterAll comp ops).valuesSized⟩
  · have apart := List.pairwise_map.mp distinct
    exact apart.imp fun differ same => differ ((class_iff equivalence).mpr same)
  · exact fun i key stored => (stored_paired equivalence compares distinct stored).trans (gets key)
  · exact gets
  · intro key
    refine ⟨fun code => ?_, fun none => by rw [missing key none]⟩
    by_contra present
    rw [← gets] at present
    obtain ⟨after, -, -, -, -, ran, -⟩ := map_remove_present classes distinct present
    rw [ran] at code
    cases code
  · exact missing
  · intro key other apart
    have removed := (op_gets equivalence compares distinct gets (.remove key)).2 other
    rw [lastSet, if_neg apart] at removed
    exact removed.trans (gets other).symm

end Runs

/-- The map of the memory unit, where the offset of an address does not count. -/
theorem map_refines_function_pages :
    Refines MemoryUnit.diskMapComparator (fun a b => a.key = b.key)
      [.set ⟨0, 1, 4⟩ 6, .remove ⟨3, 2, 9⟩, .set ⟨3, 2, 4⟩ 8, .set ⟨0, 1, 0⟩ 7, .set ⟨3, 2, 0⟩ 5]
      (afterAll MemoryUnit.diskMapComparator
        [.set ⟨0, 1, 4⟩ 6, .remove ⟨3, 2, 9⟩, .set ⟨3, 2, 4⟩ 8, .set ⟨0, 1, 0⟩ 7, .set ⟨3, 2, 0⟩ 5]) := by
  have equivalence : Equivalence fun a b : VirtAddr => a.key = b.key :=
    ⟨fun _ => rfl, Eq.symm, Eq.trans⟩
  refine map_refines_function equivalence (fun a b => ?_) _
  simp [MemoryUnit.diskMapComparator, virt_addr_page_eq_iff]

end VmSim.KeyedMap
