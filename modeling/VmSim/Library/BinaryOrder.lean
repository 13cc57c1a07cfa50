import Mathlib.Data.List.OfFn
import Mathlib.Data.List.Lex
import Mathlib.Data.Bool.Basic

/-!
The bits of a machine word as a list, the most significant one first. The
unsigned order of words of one width is the lexicographic order of their lists.
-/

namespace VmSim.BinaryOrder

def bits {w : Nat} (x : BitVec w) : List Bool := List.ofFn fun i : Fin w => x.getMsbD i

theorem bits_cons {w : Nat} (b : Bool) (x : BitVec w) : bits (x.cons b) = b :: bits x := by
  unfold bits
  rw [List.ofFn_succ]
  congr 1
  · simp [BitVec.getMsbD, BitVec.getElem_cons]
  · congr 1
    funext i
    have bound := i.isLt
    have below : w - (i + 1) ≠ w := by omega
    have index : w - (i + 1) = w - 1 - i := by omega
    simp [BitVec.getMsbD, BitVec.getLsbD_cons, index, index ▸ below]

theorem bits_eq {w : Nat} {x : BitVec w} {bit : Nat → Bool}
    (each : ∀ i, i < w → x.getMsbD i = bit i) : bits x = List.ofFn fun i : Fin w => bit i := by
  unfold bits
  congr 1
  funext i
  exact each i i.isLt

theorem lt_iff_bits {w : Nat} {x y : BitVec w} : x < y ↔ bits x < bits y := by
  induction w with
  | zero => simp [BitVec.eq_nil x, BitVec.eq_nil y, bits]
  | succ w ih =>
      rw [← BitVec.cons_msb_setWidth x, ← BitVec.cons_msb_setWidth y, bits_cons, bits_cons,
        List.cons_lt_cons_iff, ← ih, BitVec.lt_def, BitVec.lt_def, BitVec.toNat_cons',
        BitVec.toNat_cons']
      generalize x.setWidth w = low
      generalize y.setWidth w = low'
      have small := low.isLt
      have small' := low'.isLt
      have least : ¬ true < false := by decide
      cases x.msb <;> cases y.msb <;> simp [Nat.shiftLeft_eq, least] <;> omega

end VmSim.BinaryOrder
