import VmSim.ProcessJobs

/-!
The buffer of `sim_read`. Its size is an `int` product that wraps in practice,
and the sum becomes a `size_t` with its sign, while the loop stores one byte for
every `mmu_read`. Here the product wraps, `malloc` refuses what no object may
have, and a byte behind the buffer or through the null pointer stops the job.
-/

namespace VmSim.ProcessTable
open CallTree

/-- `(amount * off + 1) * sizeof(BYTE)`, as `malloc` receives it. -/
def mallocArgument (off amount : Int) : Nat :=
  ((BitVec.ofInt 32 (amount * off + 1)).signExtend 64).toNat

def ptrdiffMax : Nat := 2 ^ 63 - 1

/-- No object is larger than `PTRDIFF_MAX`, and any other request is granted. -/
def malloc (request : Nat) : Option Nat := if request ≤ ptrdiffMax then some request else none

def storeByte (room : Option Nat) (multiplier : Nat) (vAddr : VirtAddr) (buf : List BYTE) :
    Job (Errcode × List BYTE) := do
  let (err, byte) ← mmuRead vAddr
  match room with
  | none => .stop .nullPointer
  | some capacity => if multiplier < capacity then pure (err, buf ++ [byte]) else .stop .outOfBounds

/-- What `malloc` returns is not compared with `NULL`. -/
def simReadInto (room : Option Nat) (pageSize : Nat) (vAddr : VirtAddr) (off amount : Int)
    (fileName : Option String) : Job (Errcode × Option Printed) := do
  compute (assert .simRead (0 < off))
  compute (assert .simRead (0 < amount))
  let (err, buf) ← walk pageSize off (storeByte room) amount.toNat 0 vAddr .ecSuccess []
  if err = .ecSuccess then pure (err, some ⟨fileName, buf⟩) else pure (err, none)

def simReadWrapped (pageSize : Nat) (vAddr : VirtAddr) (off amount : Int)
    (fileName : Option String) : Job (Errcode × Option Printed) :=
  simReadInto (malloc (mallocArgument off amount)) pageSize vAddr off amount fileName

def BadStore (fault : Fault) : Prop := fault = .outOfBounds ∨ fault = .nullPointer

/-- Whatever bytes `mmu_read` delivers, none is stored outside the buffer. -/
def StoresInside (job : Job α) : Prop := Avoids BadStore MmuCall.Gives (fun _ => True) job

/-! Addresses go round, so that on pages with bytes every step ends. -/

theorem carry_pages_ends {pageSize : Nat} (positive : 0 < pageSize) (addr : VirtAddr) {turns : Nat}
    (enough : addr.offset < turns) : ∃ after, carryPages pageSize addr turns = .ok after := by
  induction turns generalizing addr with
  | zero => omega
  | succ turns ih =>
      unfold carryPages
      by_cases carries : pageSize ≤ addr.offset
      · rw [if_pos carries]
        exact ih _ (by simp only; omega)
      · rw [if_neg carries]
        exact ⟨addr, rfl⟩

theorem advance_ends {pageSize : Nat} (positive : 0 < pageSize) (addr : VirtAddr) (offset : Int) :
    ∃ after, advanceVirtAddr addr offset pageSize = .ok after :=
  carry_pages_ends positive _ (Nat.lt_succ_self _)

section Buffer
variable {pageSize : Nat} {off amount : Int}

theorem stores_walk (positive : 0 < pageSize) {capacity multiplier : Nat} (left : Nat)
    (vAddr : VirtAddr) (buf : List BYTE) :
    StoresInside (walk pageSize off (storeByte (some capacity)) left multiplier vAddr .ecSuccess buf) ↔
      left = 0 ∨ multiplier + left ≤ capacity := by
  induction left generalizing multiplier vAddr buf with
  | zero => simp [walk, StoresInside, Avoids]
  | succ left ih =>
      obtain ⟨after, advanced⟩ := advance_ends positive vAddr off
      unfold walk
      rw [if_pos rfl, StoresInside, avoids_bind]
      -- The byte in hand fits or is the one that overflows.
      by_cases room : multiplier < capacity
      · have rest := fun buf => @ih (multiplier + 1) after buf
        simp only [StoresInside] at rest
        simp only [storeByte, mmuRead, done_bind, if_pos room, pure_done, advanced, compute_ok]
        constructor
        · intro inside
          have next := (rest _).mp (inside (.ecSuccess, 0) rfl)
          omega
        · intro bound reply given
          obtain ⟨err, byte⟩ := reply
          obtain rfl : err = .ecSuccess := given
          exact (rest _).mpr (by omega)
      · simp only [storeByte, mmuRead, if_neg room]
        refine iff_of_false (fun inside => ?_) (by omega)
        exact inside (.ecSuccess, 0) rfl (.inl rfl)

theorem stores_nowhere {left : Nat} (turns : 0 < left) (vAddr : VirtAddr) :
    ¬ StoresInside (walk pageSize off (storeByte none) left 0 vAddr .ecSuccess []) := by
  obtain ⟨more, rfl⟩ : ∃ more, left = more + 1 := ⟨left - 1, by omega⟩
  intro inside
  rw [walk, if_pos rfl, StoresInside, avoids_bind] at inside
  exact inside (.ecSuccess, 0) rfl (.inr rfl)

theorem sim_read_into_stores {room : Option Nat} (forward : 0 < off) (positive : 0 < amount)
    (vAddr : VirtAddr) (fileName : Option String) :
    StoresInside (simReadInto room pageSize vAddr off amount fileName) ↔
      StoresInside (walk pageSize off (storeByte room) amount.toNat 0 vAddr .ecSuccess []) := by
  simp only [simReadInto, decide_eq_true forward, decide_eq_true positive, assert_true, compute_ok,
    done_bind, StoresInside, avoids_bind]
  constructor
  · exact avoids_mono fun _ _ => trivial
  · refine avoids_mono fun result _ => ?_
    obtain ⟨err, buf⟩ := result
    by_cases success : err = .ecSuccess
    · simp [success, Avoids]
    · simp [success, Avoids]

/-- A sum that wraps to a negative one asks for almost 2 ^ 64 bytes. -/
theorem malloc_argument_exact (off amount : Int) :
    mallocArgument off amount =
      if (amount * off + 1) % 2 ^ 32 < 2 ^ 31 then ((amount * off + 1) % 2 ^ 32).toNat
      else ((amount * off + 1) % 2 ^ 32 + (2 ^ 64 - 2 ^ 32)).toNat := by
  have word : ((2 ^ 32 : Nat) : Int) = 2 ^ 32 := rfl
  rw [mallocArgument, BitVec.signExtend, BitVec.toInt_ofInt, BitVec.toNat_ofInt, Int.bmod_def, word]
  have low : 0 ≤ (amount * off + 1) % 2 ^ 32 := Int.emod_nonneg _ (by decide)
  have high : (amount * off + 1) % 2 ^ 32 < 2 ^ 32 := Int.emod_lt_of_pos _ (by decide)
  generalize (amount * off + 1) % 2 ^ 32 = sum at *
  by_cases small : sum < 2 ^ 31
  · rw [if_pos small, if_pos (by omega)]
    omega
  · rw [if_neg small, if_neg (by omega)]
    omega

/-- `malloc` grants what is the size of no negative `int`. -/
theorem sim_read_wrapped_stores (positive : 0 < pageSize) (forward : 0 < off) (some : 0 < amount)
    (vAddr : VirtAddr) (fileName : Option String) :
    StoresInside (simReadWrapped pageSize vAddr off amount fileName) ↔
      amount.toNat ≤ mallocArgument off amount ∧ mallocArgument off amount ≤ ptrdiffMax := by
  have turns : 0 < amount.toNat := by omega
  rw [simReadWrapped, sim_read_into_stores forward some, malloc]
  by_cases granted : mallocArgument off amount ≤ ptrdiffMax
  · rw [if_pos granted, stores_walk positive amount.toNat]
    omega
  · rw [if_neg granted]
    exact iff_of_false (stores_nowhere turns vAddr) fun both => granted both.2

end Buffer

/-- The buffer of `sim_read` has room for every byte of the loop exactly when the
sum wraps to an `int` that is not below the amount. -/
theorem buffer_large_enough {pageSize : Nat} (positive : 0 < pageSize) {off amount : Int}
    (forward : 0 < off) (some : 0 < amount) (vAddr : VirtAddr) (fileName : Option String) :
    (amount.toNat ≤ mallocArgument off amount ∧
        StoresInside (simReadWrapped pageSize vAddr off amount fileName)) ↔
      amount ≤ (amount * off + 1) % 2 ^ 32 ∧ (amount * off + 1) % 2 ^ 32 < 2 ^ 31 := by
  rw [sim_read_wrapped_stores positive forward some, malloc_argument_exact, ptrdiffMax]
  have low : 0 ≤ (amount * off + 1) % 2 ^ 32 := Int.emod_nonneg _ (by decide)
  generalize (amount * off + 1) % 2 ^ 32 = sum at *
  split <;> omega

theorem buffer_large_enough_strided :
    2 ≤ mallocArgument 4 2 ∧ StoresInside (simReadWrapped 8 ⟨0, 0, 0⟩ 4 2 none) := by
  have room := @buffer_large_enough 8 (by decide) 4 2 (by decide) (by decide) ⟨0, 0, 0⟩ none
  exact room.mpr (by decide)

/-- `4 * 2 ^ 30 + 1` wraps to one byte, and the second byte is stored behind it. -/
theorem second_byte_behind :
    ¬ ∀ (pageSize : Nat) (vAddr : VirtAddr) (off amount : Int) (fileName : Option String),
      0 < pageSize → 0 < off → off < 2 ^ 31 → 0 < amount → amount < 2 ^ 31 →
      amount.toNat ≤ mallocArgument off amount ∧
        StoresInside (simReadWrapped pageSize vAddr off amount fileName) := by
  intro inside
  have room := (inside 8 ⟨0, 0, 0⟩ 4 (2 ^ 30) none (by decide) (by decide) (by decide) (by decide)
    (by decide)).1
  exact absurd room (by decide)

end VmSim.ProcessTable
