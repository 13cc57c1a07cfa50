import Mathlib.Data.List.Nodup
import VmSim.Types

/-!
util/map.c: two parallel arrays searched with a comparator that returns 0 on
equal keys. A value of `AssocMap` carries the proof that both arrays have
`size` cells. The comparator is read as the classes `cls` it identifies, so
that a comparator that ignores part of a key is covered.
-/

namespace VmSim.KeyedMap

structure AssocMap (K V : Type) where
  keys : List K
  values : List V
  size : Nat
  keysSized : keys.length = size
  valuesSized : values.length = size
  deriving DecidableEq

variable {K V C : Type}

def mapInit : AssocMap K V := ⟨[], [], 0, rfl, rfl⟩

def findKey (comp : K → K → Bool) (map : AssocMap K V) (key : K) : Option Nat :=
  map.keys.findIdx? fun stored => !comp stored key

/-- The loop of `remove_idx`: `count` cells move one place down. -/
def shiftDown (arr : List α) (i : Nat) : Nat → List α
  | 0 => arr
  | count + 1 =>
      match arr[i + 1]? with
      | none => arr
      | some x => shiftDown (arr.set i x) (i + 1) count

/-- `remove_idx` and the `realloc` to one cell less that follows it. -/
def removeIdx (arr : List α) (idx : Nat) : List α :=
  (shiftDown arr idx (arr.length - 1 - idx)).take (arr.length - 1)

theorem shift_down_exact (front : List α) (old : α) (rest : List α) :
    ∃ last, shiftDown (front ++ old :: rest) front.length rest.length = front ++ rest ++ [last] := by
  induction rest generalizing front old with
  | nil => exact ⟨old, by simp [shiftDown]⟩
  | cons next rest ih =>
      obtain ⟨last, moved⟩ := ih (front ++ [next]) next
      have here : (front ++ old :: next :: rest)[front.length + 1]? = some next := by
        simp
      refine ⟨last, ?_⟩
      simp only [List.length_cons, shiftDown, here]
      simpa using moved

theorem remove_idx_exact (arr : List α) {idx : Nat} (bound : idx < arr.length) :
    removeIdx arr idx = arr.eraseIdx idx := by
  have split : arr = arr.take idx ++ arr[idx] :: arr.drop (idx + 1) := by simp
  have front : (arr.take idx).length = idx := by simp; omega
  have rest : (arr.drop (idx + 1)).length = arr.length - 1 - idx := by simp; omega
  obtain ⟨last, moved⟩ := shift_down_exact (arr.take idx) arr[idx] (arr.drop (idx + 1))
  rw [← split, front, rest] at moved
  rw [removeIdx, moved, List.eraseIdx_eq_take_drop_succ]
  apply List.take_left'
  rw [List.length_append, front, rest]
  omega

theorem find_key_lt {comp : K → K → Bool} {map : AssocMap K V} {key : K} {idx : Nat}
    (found : findKey comp map key = some idx) : idx < map.size := by
  rw [← map.keysSized]
  exact (List.findIdx?_eq_some_iff_getElem.mp found).1

def mapSet (comp : K → K → Bool) (map : AssocMap K V) (key : K) (val : V) :
    Errcode × AssocMap K V :=
  match findKey comp map key with
  | none => (.ecSuccess,
      ⟨map.keys ++ [key], map.values ++ [val], map.size + 1,
        by simp [map.keysSized], by simp [map.valuesSized]⟩)
  | some idx => (.ecSuccess,
      ⟨map.keys, map.values.set idx val, map.size, map.keysSized, by simp [map.valuesSized]⟩)

def mapGet (comp : K → K → Bool) (map : AssocMap K V) (key : K) : Option V :=
  (findKey comp map key).bind (map.values[·]?)

theorem removed_sized {arr : List α} {idx size : Nat} (sized : arr.length = size)
    (bound : idx < size) : (removeIdx arr idx).length = size - 1 := by
  subst sized
  rw [remove_idx_exact arr bound, List.length_eraseIdx_of_lt bound]

def mapRemove (comp : K → K → Bool) (map : AssocMap K V) (key : K) : Errcode × AssocMap K V :=
  match found : findKey comp map key with
  | none => (.ecNotFound, map)
  | some idx => (.ecSuccess,
      ⟨removeIdx map.keys idx, removeIdx map.values idx, map.size - 1,
        removed_sized map.keysSized (find_key_lt found),
        removed_sized map.valuesSized (find_key_lt found)⟩)

/-! The map as the list of its pairs. -/

def pairs (map : AssocMap K V) : List (K × V) := map.keys.zip map.values

def Compares (comp : K → K → Bool) (cls : K → C) : Prop :=
  ∀ a b, comp a b = false ↔ cls a = cls b

def Distinct (cls : K → C) (map : AssocMap K V) : Prop := (map.keys.map cls).Nodup

variable {comp : K → K → Bool} {cls : K → C} {map : AssocMap K V} {key : K}

theorem find_key_some (compares : Compares comp cls) {idx : Nat}
    (found : findKey comp map key = some idx) :
    ∃ left right stored val, pairs map = left ++ (stored, val) :: right ∧ left.length = idx ∧
      cls stored = cls key ∧ map.values[idx]? = some val := by
  have bound := find_key_lt found
  obtain ⟨inKeys, hit, -⟩ := List.findIdx?_eq_some_iff_getElem.mp found
  have inValues : idx < map.values.length := by rwa [map.valuesSized]
  have inPairs : idx < (pairs map).length := by
    simp only [pairs, List.length_zip]
    omega
  refine ⟨(pairs map).take idx, (pairs map).drop (idx + 1), map.keys[idx], map.values[idx], ?_, ?_,
    ?_, List.getElem?_eq_getElem inValues⟩
  · have here : (pairs map)[idx] = (map.keys[idx], map.values[idx]) := by simp [pairs]
    rw [← here]
    simp
  · rw [List.length_take]
    omega
  · exact (compares _ _).mp (by simpa using hit)

theorem find_key_none (compares : Compares comp cls) :
    findKey comp map key = none ↔ ∀ stored ∈ map.keys, cls stored ≠ cls key := by
  rw [findKey, List.findIdx?_eq_none_iff]
  simp only [Bool.not_eq_false', ne_eq, ← compares _ key, Bool.not_eq_false]

theorem keys_of_pairs (map : AssocMap K V) : (pairs map).map Prod.fst = map.keys := by
  rw [pairs, List.map_fst_zip (by simp [map.keysSized, map.valuesSized])]

theorem values_of_pairs (map : AssocMap K V) : (pairs map).map Prod.snd = map.values := by
  rw [pairs, List.map_snd_zip (by simp [map.keysSized, map.valuesSized])]

theorem map_get_iff (compares : Compares comp cls) (distinct : Distinct cls map) {val : V} :
    mapGet comp map key = some val ↔ ∃ stored, (stored, val) ∈ pairs map ∧ cls stored = cls key := by
  rw [Distinct, ← keys_of_pairs, List.map_map] at distinct
  cases found : findKey comp map key with
  | none =>
      simp only [mapGet, found, Option.bind_none, reduceCtorEq, false_iff, not_exists, not_and]
      intro stored member same
      exact (find_key_none compares).mp found stored
        (keys_of_pairs map ▸ List.mem_map_of_mem member) same
  | some idx =>
      obtain ⟨left, right, stored, here, split, -, same, read⟩ := find_key_some compares found
      simp only [mapGet, found, Option.bind_some, read, Option.some.injEq]
      constructor
      · rintro rfl
        exact ⟨stored, by simp [split], same⟩
      · rintro ⟨other, member, same'⟩
        have one := List.inj_on_of_nodup_map distinct member
          (by simp [split] : (stored, here) ∈ pairs map) (same'.trans same.symm)
        exact (congrArg Prod.snd one).symm

theorem map_get_none (compares : Compares comp cls) :
    mapGet comp map key = none ↔ findKey comp map key = none := by
  cases found : findKey comp map key with
  | none => simp [mapGet, found]
  | some idx =>
      obtain ⟨-, -, -, val, -, -, -, read⟩ := find_key_some compares found
      simp [mapGet, found, read]

theorem map_get_congr (compares : Compares comp cls) {other : K} (same : cls key = cls other) :
    mapGet comp map key = mapGet comp map other := by
  have stops : (fun stored => !comp stored key) = fun stored => !comp stored other := by
    funext stored
    have iff : comp stored key = false ↔ comp stored other = false := by
      rw [compares, compares, same]
    cases left : comp stored key <;> cases right : comp stored other <;> simp_all
  simp only [mapGet, findKey, stops]

theorem map_init_distinct : Distinct cls (mapInit : AssocMap K V) := List.nodup_nil

theorem map_init_get : mapGet comp (mapInit : AssocMap K V) key = none := rfl

theorem map_set_absent (compares : Compares comp cls) (distinct : Distinct cls map)
    (absent : mapGet comp map key = none) (val : V) :
    ∃ after, mapSet comp map key val = (.ecSuccess, after) ∧ Distinct cls after ∧
      pairs after = pairs map ++ [(key, val)] := by
  have missing := (map_get_none compares).mp absent
  have fresh := (find_key_none compares).mp missing
  unfold mapSet
  rw [missing]
  refine ⟨_, rfl, ?_, ?_⟩
  · simp only [Distinct, List.map_append, List.nodup_append, List.map_cons, List.map_nil]
    refine ⟨distinct, by simp, ?_⟩
    intro left member right last
    obtain ⟨stored, inKeys, rfl⟩ := List.mem_map.mp member
    rw [List.mem_singleton] at last
    subst last
    exact fresh stored inKeys
  · exact List.zip_append (map.keysSized.trans map.valuesSized.symm)

theorem map_remove_absent (compares : Compares comp cls) (absent : mapGet comp map key = none) :
    mapRemove comp map key = (.ecNotFound, map) := by
  have missing := (map_get_none compares).mp absent
  unfold mapRemove
  split
  · rfl
  · rename_i found
    rw [missing] at found
    cases found

theorem map_remove_present (compares : Compares comp cls) (distinct : Distinct cls map)
    (present : mapGet comp map key ≠ none) :
    ∃ after left right stored val, mapRemove comp map key = (.ecSuccess, after) ∧
      Distinct cls after ∧ pairs map = left ++ (stored, val) :: right ∧
      pairs after = left ++ right ∧ cls stored = cls key := by
  obtain ⟨idx, found⟩ := Option.ne_none_iff_exists'.mp (mt (map_get_none compares).mpr present)
  have bound := find_key_lt found
  obtain ⟨left, right, stored, val, split, place, same, -⟩ := find_key_some compares found
  have inKeys : idx < map.keys.length := map.keysSized.symm ▸ bound
  have inValues : idx < map.values.length := map.valuesSized.symm ▸ bound
  unfold mapRemove
  split
  · rename_i missing
    rw [found] at missing
    cases missing
  · rename_i idx' found'
    rw [found] at found'
    cases found'
    refine ⟨_, left, right, stored, val, rfl, ?_, split, ?_, same⟩
    · simp only [Distinct, remove_idx_exact _ inKeys]
      exact distinct.sublist ((List.eraseIdx_sublist _ _).map cls)
    -- Both arrays drop the same place, so the pairs drop one pair.
    · simp only [pairs, remove_idx_exact _ inKeys, remove_idx_exact _ inValues]
      rw [← keys_of_pairs, ← values_of_pairs, split, ← place]
      exact (List.zip_of_prod (by simp [List.eraseIdx_append_of_length_le])
        (by simp [List.eraseIdx_append_of_length_le])).symm

section Lookups
variable [DecidableEq C]

theorem map_set_get (compares : Compares comp cls) (distinct : Distinct cls map)
    (absent : mapGet comp map key = none) (val : V) :
    ∃ after, mapSet comp map key val = (.ecSuccess, after) ∧ Distinct cls after ∧
      ∀ other, mapGet comp after other =
        if cls other = cls key then some val else mapGet comp map other := by
  obtain ⟨after, ran, kept, added⟩ := map_set_absent compares distinct absent val
  refine ⟨after, ran, kept, fun other => ?_⟩
  -- The new pair is the last one; every older pair has another class.
  ext found
  rw [map_get_iff compares kept, added]
  by_cases same : cls other = cls key
  · rw [if_pos same, Option.some.injEq]
    constructor
    · rintro ⟨stored, member, here⟩
      rcases List.mem_append.mp member with old | new
      · have listed := (map_get_iff compares distinct).mpr ⟨stored, old, here.trans same⟩
        rw [absent] at listed
        cases listed
      · cases List.mem_singleton.mp new
        rfl
    · rintro rfl
      exact ⟨key, by simp, same.symm⟩
  · rw [if_neg same, map_get_iff compares distinct]
    constructor
    · rintro ⟨stored, member, here⟩
      rcases List.mem_append.mp member with old | new
      · exact ⟨stored, old, here⟩
      · cases List.mem_singleton.mp new
        exact absurd here.symm same
    · rintro ⟨stored, old, here⟩
      exact ⟨stored, by simp [old], here⟩

theorem map_remove_get (compares : Compares comp cls) (distinct : Distinct cls map)
    (present : mapGet comp map key ≠ none) :
    ∃ after, mapRemove comp map key = (.ecSuccess, after) ∧ Distinct cls after ∧
      ∀ other, mapGet comp after other =
        if cls other = cls key then none else mapGet comp map other := by
  obtain ⟨after, left, right, stored, val, ran, kept, split, rest, named⟩ :=
    map_remove_present compares distinct present
  refine ⟨after, ran, kept, fun other => ?_⟩
  -- The pair removed was the only one of its class.
  have unique : ∀ pair ∈ left ++ right, cls pair.1 ≠ cls key := by
    intro pair member same
    have nodup := distinct
    rw [Distinct, ← keys_of_pairs, List.map_map, split, List.map_append, List.map_cons,
      List.nodup_middle, List.nodup_cons, ← List.map_append] at nodup
    apply nodup.1
    rw [List.mem_map]
    exact ⟨pair, member, same.trans named.symm⟩
  ext found
  rw [map_get_iff compares kept, rest]
  by_cases same : cls other = cls key
  · rw [if_pos same]
    simp only [reduceCtorEq, iff_false, not_exists, not_and]
    exact fun key' member here => unique _ member (here.trans same)
  · rw [if_neg same, map_get_iff compares distinct, split]
    constructor
    · rintro ⟨key', member, here⟩
      refine ⟨key', ?_, here⟩
      rcases List.mem_append.mp member with old | old <;> simp [old]
    · rintro ⟨key', member, here⟩
      refine ⟨key', ?_, here⟩
      rcases List.mem_append.mp member with old | old
      · simp [old]
      · rcases List.mem_cons.mp old with this | old
        · cases this
          exact absurd (here.symm.trans named) same
        · simp [old]

end Lookups

end VmSim.KeyedMap
