import Mathlib.Algebra.Order.Floor.Ring
import Mathlib.Data.Rat.Floor
import Mathlib.Tactic.Linarith

/-!
# Rounding half to even

`roundHalfEven q` is the integer nearest to `q`, the even one of the two on a
tie.  The lemmas give the two half-unit bounds and monotonicity, and what a
bound on the rounded value says about the number.
-/

/-- Round to the nearest integer, ties to even. -/
def roundHalfEven (q : ℚ) : ℤ :=
  if q - ⌊q⌋ < 1 / 2 then ⌊q⌋
  else if 1 / 2 < q - ⌊q⌋ then ⌊q⌋ + 1
  else if ⌊q⌋ % 2 = 0 then ⌊q⌋
  else ⌊q⌋ + 1

theorem roundHalfEven_le_add (q : ℚ) : (roundHalfEven q : ℚ) ≤ q + 1 / 2 := by
  have h := Int.floor_le q
  rw [roundHalfEven]
  split_ifs <;> push_cast <;> linarith

theorem sub_le_roundHalfEven (q : ℚ) : q - 1 / 2 ≤ (roundHalfEven q : ℚ) := by
  have h := Int.lt_floor_add_one q
  rw [roundHalfEven]
  split_ifs <;> push_cast <;> linarith

theorem roundHalfEven_mem (q : ℚ) : roundHalfEven q = ⌊q⌋ ∨ roundHalfEven q = ⌊q⌋ + 1 := by
  rw [roundHalfEven]
  split_ifs <;> simp

theorem roundHalfEven_mono {q r : ℚ} (h : q ≤ r) : roundHalfEven q ≤ roundHalfEven r := by
  have hf : ⌊q⌋ ≤ ⌊r⌋ := Int.floor_mono h
  rcases hf.lt_or_eq with hlt | heq
  · rcases roundHalfEven_mem q with hq | hq <;> rcases roundHalfEven_mem r with hr | hr <;> omega
  · -- on one floor the branches are ordered by the fractional part
    rw [roundHalfEven, roundHalfEven, heq]
    split_ifs <;> first | omega | linarith

theorem roundHalfEven_le_of_lt {q : ℚ} {n : ℤ} (h : q < n + 1 / 2) : roundHalfEven q ≤ n := by
  have hle := roundHalfEven_le_add q
  have hlt : (roundHalfEven q : ℚ) < n + 1 := by linarith
  exact Int.lt_add_one_iff.mp (by exact_mod_cast hlt)

theorem le_roundHalfEven_of_lt {q : ℚ} {n : ℤ} (h : n - 1 / 2 < q) : n ≤ roundHalfEven q := by
  have hle := sub_le_roundHalfEven q
  have hlt : (n : ℚ) - 1 < roundHalfEven q := by linarith
  have hlt' : n - 1 < roundHalfEven q := by exact_mod_cast hlt
  omega

example : roundHalfEven (5 / 2) = 2 ∧ roundHalfEven (7 / 2) = 4 := by decide +kernel
