import VmSim.MailDispatch
import VmSim.ProcessJobs

/-!
The addresses of the user. `make_virt_addr` of util/app_util.c splits one with
shifted masks and `advance_virt_addr` of util/pcb_util.c steps it by carries;
on pages of a power of two both count bytes.
-/

namespace VmSim.MailDispatch
open ProcessTable

/-- `advance_virt_addr` called again and again. -/
def advanceTimes (pageSize : Nat) (off : Int) : Nat → VirtAddr → Outcome VirtAddr
  | 0, vAddr => .ok vAddr
  | n + 1, vAddr => do
      let vAddr ← advanceVirtAddr vAddr off pageSize
      advanceTimes pageSize off n vAddr

section Steps
variable {k pid step : Nat}

theorem make_virt_addr_place_at (a : BitVec 32) :
    makeVirtAddr a (2 ^ k) pid = placeAt pid (2 ^ k) a.toNat := by
  rw [make_virt_addr_split, splitAddress, Nat.log2_two_pow, placeAt]

theorem advance_times_place (small : k ≤ 30) (stepInt : step < 2 ^ 31) (n : Nat) {position : Nat}
    (reach : position + n * step < 2 ^ 32) :
    advanceTimes (2 ^ k) step n (placeAt pid (2 ^ k) position) =
      .ok (placeAt pid (2 ^ k) (position + n * step)) := by
  have positive : 0 < 2 ^ k := Nat.two_pow_pos k
  have sizeInt : 2 ^ k ≤ 2 ^ 31 := Nat.pow_le_pow_right (by decide) (by omega)
  induction n generalizing position with
  | zero => simp [advanceTimes]
  | succ n ih =>
      rw [Nat.succ_mul] at reach ⊢
      have here : (position + step) / 2 ^ k < 2 ^ 32 :=
        Nat.lt_of_le_of_lt (Nat.div_le_self _ _) (by omega)
      have reach' : position + step + n * step < 2 ^ 32 := by omega
      have rest := ih reach'
      rw [advanceTimes, advance_reaches positive sizeInt stepInt here, bind_ok, rest]
      congr 2
      omega

end Steps

/-- The split of an address is its division by the page size, and stepping the
split address is adding to the address, without a wrap of the offset. -/
theorem steps_agree {k pid : Nat} (small : k ≤ 30) (a : BitVec 32) {off : Int} (forward : 0 ≤ off)
    (offInt : off < 2 ^ 31) {n : Nat} (reach : a.toNat + n * off < 2 ^ 32) :
    makeVirtAddr a (2 ^ k) pid = ⟨pid, a.toNat / 2 ^ k, a.toNat % 2 ^ k⟩ ∧
    ∀ m ≤ n, ∃ vAddr, advanceTimes (2 ^ k) off m (makeVirtAddr a (2 ^ k) pid) = .ok vAddr ∧
      vAddr = makeVirtAddr (BitVec.ofInt 32 (a.toNat + m * off)) (2 ^ k) pid ∧
      vAddr.offset < 2 ^ k ∧ vAddr.offset + off < 2 ^ 32 := by
  obtain ⟨step, rfl⟩ : ∃ step : Nat, off = step := ⟨off.toNat, by omega⟩
  have sizeInt : 2 ^ k ≤ 2 ^ 30 := Nat.pow_le_pow_right (by decide) small
  refine ⟨make_virt_addr_place_at a, fun m few => ?_⟩
  -- No earlier step wraps either: the address only grows with m.
  have total : a.toNat + m * step < 2 ^ 32 := by
    have part : m * step ≤ n * step := Nat.mul_le_mul_right step few
    have whole : a.toNat + n * step < 2 ^ 32 := by exact_mod_cast reach
    omega
  refine ⟨placeAt pid (2 ^ k) (a.toNat + m * step), ?_, ?_, ?_, ?_⟩
  · rw [make_virt_addr_place_at]
    exact advance_times_place small (by omega) m total
  -- The claim adds in a 32-bit word and the walk in the naturals; below 2 ^ 32 they agree.
  · have word : (BitVec.ofInt 32 ((a.toNat : Int) + m * step)).toNat = a.toNat + m * step := by
      have cast : (a.toNat : Int) + m * step = ((a.toNat + m * step : Nat) : Int) := by push_cast; rfl
      rw [cast, BitVec.ofInt_natCast, BitVec.toNat_ofNat]
      exact Nat.mod_eq_of_lt total
    rw [make_virt_addr_place_at, word]
  · exact Nat.mod_lt _ (Nat.two_pow_pos k)
  · have offset : (a.toNat + m * step) % 2 ^ k < 2 ^ k := Nat.mod_lt _ (Nat.two_pow_pos k)
    have there : (placeAt pid (2 ^ k) (a.toNat + m * step)).offset < 2 ^ 30 :=
      Nat.lt_of_lt_of_le offset sizeInt
    omega

/-- An address above 2 ^ 31 and steps of more than three pages. -/
theorem steps_agree_far :
    advanceTimes 4 13 3 (makeVirtAddr 0xFFFFFF00 4 7) = .ok ⟨7, 0x3FFFFFC9, 3⟩ := by
  have forward : (0 : Int) ≤ 13 := by decide
  have reach : ((0xFFFFFF00 : BitVec 32).toNat : Int) + (3 : Nat) * 13 < 2 ^ 32 := by decide
  obtain ⟨-, steps⟩ := @steps_agree 2 7 (by decide) 0xFFFFFF00 13 forward (by decide) 3 reach
  obtain ⟨vAddr, advanced, same, -⟩ := steps 3 (by decide)
  exact advanced.trans (congrArg _ (same.trans (by decide)))

end VmSim.MailDispatch
