import Mathlib.Data.Nat.Init
import Mathlib.Tactic.Cases

/-! A word `xor` itself shifted tells the word. -/

namespace XorShift

variable {w k : ℕ}

theorem injective_left (hk : 0 < k) : Function.Injective fun x : BitVec w => x ^^^ x <<< k := by
  intro x y h
  apply BitVec.eq_of_getLsbD_eq
  intro i hi
  -- from the lowest bit on
  induction i using Nat.strong_induction_on with
  | h i ih =>
    have hbit := congrArg (BitVec.getLsbD · i) h
    simp only [BitVec.getLsbD_xor, BitVec.getLsbD_shiftLeft, hi, decide_true, Bool.true_and] at hbit
    by_cases hlt : i < k
    · simpa [hlt] using hbit
    · rw [ih (i - k) (by omega) (by omega)] at hbit
      exact Bool.xor_left_inj.mp hbit

theorem injective_right (hk : 0 < k) : Function.Injective fun x : BitVec w => x ^^^ x >>> k := by
  intro x y h
  apply BitVec.eq_of_getLsbD_eq
  intro i hi
  -- from the highest bit down
  induction hd : w - i using Nat.strong_induction_on generalizing i with
  | h d ih =>
    have hbit := congrArg (BitVec.getLsbD · i) h
    simp only [BitVec.getLsbD_xor, BitVec.getLsbD_ushiftRight] at hbit
    by_cases hlt : k + i < w
    · rw [ih (w - (k + i)) (by omega) (k + i) hlt rfl] at hbit
      exact Bool.xor_left_inj.mp hbit
    · rw [BitVec.getLsbD_of_ge x (k + i) (by omega), BitVec.getLsbD_of_ge y (k + i) (by omega)]
        at hbit
      simpa using hbit

end XorShift
