import Mathlib.Algebra.Group.Int.Defs
import Mathlib.Algebra.Group.Nat.Defs
import Mathlib.Logic.Basic
import VmSim.Library.PagedBytes

/-!
Types shared by the model of vmsim (util/vmsim_types.h). A C function that
can stop the program returns an `Outcome`: a failed `assert` carries the
function it stands in, and the undefined behaviours the model tracks (an
index outside an array, a null pointer, a signed overflow, a division by zero,
a loop that never ends) are faults of their own. `unsigned` fields are natural numbers;
the places where 32 bits matter say so with an explicit `% 2 ^ 32`.
-/

namespace VmSim

/-- The functions of src/ whose assertions the model keeps. -/
inductive Site where
  | bitmapSet
  | bitmapClear
  | bitmapGet
  | allocPage
  | freePage
  | diskGetPage
  | diskSetPage
  | getVaddrIdx
  | iptIsDirty
  | iptReference
  | iptTranslate
  | mmuMapPage
  | mmuAllocPage
  | mmuFreePage
  | mmuUnmapPage
  | mmuRead
  | mmuWrite
  | mmuSyncToBackingPage
  | mmuSyncFromBackingPage
  | getPageToSwap
  | prmSwapOut
  | processDealloc
  | funcArgDestroy
  | simRead
  | simWrite
  | simLoopWrite
  | readDecoder
  | loopReadDecoder
  | readFileDecoder
  | loopReadFileDecoder
  | writeDecoder
  | loopWriteDecoder
  | printHitRate
  deriving DecidableEq, Repr

inductive Fault where
  | assertion (site : Site)
  | outOfBounds
  | overflow
  | divideByZero
  | nullPointer
  | badFree
  | diverges
  deriving DecidableEq, Repr

abbrev Outcome := Except Fault

instance [DecidableEq α] : DecidableEq (Outcome α)
  | .ok a, .ok b => decidable_of_iff (a = b) (by simp)
  | .error a, .error b => decidable_of_iff (a = b) (by simp)
  | .ok _, .error _ => isFalse (by simp)
  | .error _, .ok _ => isFalse (by simp)

def assert (site : Site) (condition : Bool) : Outcome Unit :=
  if condition then .ok () else .error (.assertion site)

def load (xs : List α) (i : Nat) : Outcome α :=
  match xs[i]? with
  | some x => .ok x
  | none => .error .outOfBounds

def store (xs : List α) (i : Nat) (x : α) : Outcome (List α) :=
  if i < xs.length then .ok (xs.set i x) else .error .outOfBounds

def copyOut (cells : List α) (start count : Nat) : Outcome (List α) :=
  if start + count ≤ cells.length then .ok (PagedBytes.slice cells start count)
  else .error .outOfBounds

def copyIn (cells : List α) (start : Nat) (source : List α) : Outcome (List α) :=
  if start + source.length ≤ cells.length then .ok (PagedBytes.overwrite cells start source)
  else .error .outOfBounds

inductive Errcode where
  | ecSuccess
  | ecFail
  | ecNotFound
  deriving DecidableEq, Repr

abbrev BYTE := BitVec 8

structure VirtAddr where
  pid : Nat
  page : Nat
  offset : Nat
  deriving DecidableEq, Repr

/-- What `VIRT_ADDR_PAGE_EQ` compares. -/
abbrev Key := Nat × Nat

def VirtAddr.key (addr : VirtAddr) : Key := (addr.pid, addr.page)

def virtAddrPageEq (v1 v2 : VirtAddr) : Bool := v1.pid == v2.pid && v1.page == v2.page

theorem virt_addr_page_eq_iff (v1 v2 : VirtAddr) :
    virtAddrPageEq v1 v2 = true ↔ v1.key = v2.key := by
  simp [virtAddrPageEq, VirtAddr.key]

/-- An `unsigned` stored into an `int`. -/
def asInt (n : Nat) : Int :=
  if n % 2 ^ 32 < 2 ^ 31 then (n % 2 ^ 32 : Nat) else (n % 2 ^ 32 : Nat) - (2 ^ 32 : Int)

theorem as_int_small {n : Nat} (small : n < 2 ^ 31) : asInt n = n := by
  have wrapped : n % 2 ^ 32 = n := Nat.mod_eq_of_lt (by omega)
  rw [asInt, wrapped, if_pos small]

/-- `SET_MSB` on an `unsigned`: an OR, so a zero bit leaves the value alone. -/
def setMsb (var : BitVec 32) (bit : Bool) : BitVec 32 :=
  var ||| (if bit then (1 : BitVec 32) <<< 31 else 0)

@[simp] theorem assert_true (site : Site) : assert site true = .ok () := rfl

@[simp] theorem assert_false (site : Site) : assert site false = .error (.assertion site) := rfl

theorem assert_ok {site : Site} {condition : Bool} {u : Unit}
    (passed : assert site condition = .ok u) : condition = true := by
  cases condition with
  | true => rfl
  | false => simp at passed

theorem load_ok {xs : List α} {i : Nat} {x : α} : load xs i = .ok x ↔ xs[i]? = some x := by
  unfold load
  cases found : xs[i]? <;> simp

theorem load_of_get {xs : List α} {i : Nat} {x : α} (found : xs[i]? = some x) :
    load xs i = .ok x := load_ok.mpr found

theorem store_of_lt {xs : List α} {i : Nat} (bound : i < xs.length) (x : α) :
    store xs i x = .ok (xs.set i x) := if_pos bound

theorem load_set {xs : List α} {i : Nat} (bound : i < xs.length) (x : α) :
    load (xs.set i x) i = .ok x := load_of_get (List.getElem?_set_self bound)

theorem bind_eq_ok {x : Outcome α} {f : α → Outcome β} {b : β} :
    (x >>= f) = .ok b ↔ ∃ a, x = .ok a ∧ f a = .ok b := by
  cases x <;> simp [bind, Except.bind]

@[simp] theorem bind_ok (a : α) (f : α → Outcome β) : ((.ok a : Outcome α) >>= f) = f a := rfl

@[simp] theorem bind_error (e : Fault) (f : α → Outcome β) :
    ((.error e : Outcome α) >>= f) = .error e := rfl

@[simp] theorem pure_eq_ok (a : α) : (pure a : Outcome α) = .ok a := rfl

end VmSim
