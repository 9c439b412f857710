import Mathlib.Data.List.Basic

/-!
# The Luhn checksum

A string of decimal digits is read from the right.  The digits at odd places are
doubled, and a doubled digit counts its own digit sum; `Valid` asks for a total
divisible by ten.  The places are numbers, not a flag, so `weighted_append` cuts a
string anywhere and the place of every digit stays known.

* `not_valid_of_changed`: no two valid strings differ in one digit.
* `not_valid_of_swapped`: nor by a swap of neighbours, `0` and `9` apart.
* `valid_append_iff`: the check digit is determined.
-/

namespace Luhn

/-- What a digit counts at a place from the right; twice a digit is below `20`. -/
def weight (place digit : Nat) : Nat :=
  if place % 2 = 1 then 2 * digit / 10 + 2 * digit % 10 else digit

/-- The total of digits listed from the right, the first of them at `place`. -/
def weighted : Nat → List Nat → Nat
  | _, [] => 0
  | place, digit :: rest => weight place digit + weighted (place + 1) rest

/-- The Luhn test: every second digit from the right is doubled. -/
def Valid (digits : List Nat) : Prop := weighted 0 digits.reverse % 10 = 0

instance (digits : List Nat) : Decidable (Valid digits) :=
  inferInstanceAs (Decidable (_ = _))

@[simp] theorem weighted_nil (place : Nat) : weighted place [] = 0 := rfl

@[simp] theorem weighted_cons (place digit : Nat) (rest : List Nat) :
    weighted place (digit :: rest) = weight place digit + weighted (place + 1) rest := rfl

theorem weighted_append (digits rest : List Nat) (place : Nat) :
    weighted place (digits ++ rest)
      = weighted place digits + weighted (place + digits.length) rest := by
  induction digits generalizing place with
  | nil => simp
  | cons digit digits ih =>
    have hplace : place + (digits.length + 1) = place + 1 + digits.length := by omega
    simp only [List.cons_append, weighted_cons, List.length_cons, ih, hplace]
    omega

theorem weighted_reverse_cons (digit : Nat) (digits : List Nat) :
    weighted 0 (digit :: digits).reverse
      = weighted 0 digits.reverse + weight digits.length digit := by
  rw [List.reverse_cons, weighted_append]
  simp

/-- The digit between `left` and `right` stands at the place `right.length`. -/
theorem weighted_reverse_append (left right : List Nat) :
    weighted 0 (left ++ right).reverse
      = weighted 0 right.reverse + weighted right.length left.reverse := by
  rw [List.reverse_append, weighted_append, List.length_reverse, Nat.zero_add]

theorem weight_of_odd {place : Nat} (h : place % 2 = 1) (digit : Nat) :
    weight place digit = 2 * digit / 10 + 2 * digit % 10 := if_pos h

theorem weight_of_even {place : Nat} (h : place % 2 = 0) (digit : Nat) :
    weight place digit = digit := if_neg (by omega)

/-- At one place, different digits count differently. -/
theorem weight_mod_inj {place d e : Nat} (hd : d < 10) (he : e < 10)
    (h : weight place d % 10 = weight place e % 10) : d = e := by
  obtain hplace | hplace := Nat.mod_two_eq_zero_or_one place
  · rw [weight_of_even hplace, weight_of_even hplace] at h
    omega
  · rw [weight_of_odd hplace, weight_of_odd hplace] at h
    omega

theorem digit_swap : ∀ d < 10, ∀ e < 10,
    (d + (2 * e / 10 + 2 * e % 10)) % 10 = (e + (2 * d / 10 + 2 * d % 10)) % 10 →
      d = e ∨ d = 0 ∧ e = 9 ∨ d = 9 ∧ e = 0 := by
  decide

/-- At neighbouring places, a swap goes unnoticed between `0` and `9` only. -/
theorem weight_swap {place d e : Nat} (hd : d < 10) (he : e < 10)
    (h : (weight place d + weight (place + 1) e) % 10
      = (weight place e + weight (place + 1) d) % 10) :
    d = e ∨ d = 0 ∧ e = 9 ∨ d = 9 ∧ e = 0 := by
  obtain hplace | hplace := Nat.mod_two_eq_zero_or_one place
  · have hnext : (place + 1) % 2 = 1 := by omega
    simp only [weight_of_even hplace, weight_of_odd hnext] at h
    exact digit_swap d hd e he h
  · have hnext : (place + 1) % 2 = 0 := by omega
    simp only [weight_of_odd hplace, weight_of_even hnext] at h
    have hswap := digit_swap d hd e he (by omega)
    exact hswap

theorem valid_iff_of_middle {left right middle : List Nat} :
    Valid (left ++ middle ++ right)
      ↔ (weighted 0 right.reverse + weighted right.length middle.reverse
          + weighted (right.length + middle.length) left.reverse) % 10 = 0 := by
  unfold Valid
  rw [weighted_reverse_append, List.reverse_append, weighted_append, List.length_reverse,
    Nat.add_assoc]

/-- **One wrong digit is noticed.** -/
theorem not_valid_of_changed {left right : List Nat} {d e : Nat} (hd : d < 10) (he : e < 10)
    (hne : d ≠ e) (h : Valid (left ++ [d] ++ right)) : ¬ Valid (left ++ [e] ++ right) := by
  intro h'
  rw [valid_iff_of_middle] at h h'
  have hmod : weight right.length d % 10 = weight right.length e % 10 := by
    simp only [List.reverse_singleton, List.length_singleton, weighted_cons, weighted_nil] at h h'
    omega
  exact hne (weight_mod_inj hd he hmod)

/-- **A swap of neighbours is noticed**, unless it swaps `0` and `9`. -/
theorem not_valid_of_swapped {left right : List Nat} {d e : Nat} (hd : d < 10) (he : e < 10)
    (hne : d ≠ e) (hpair : ¬ (d = 0 ∧ e = 9 ∨ d = 9 ∧ e = 0))
    (h : Valid (left ++ [d, e] ++ right)) : ¬ Valid (left ++ [e, d] ++ right) := by
  intro h'
  rw [valid_iff_of_middle] at h h'
  have hmod : (weight right.length e + weight (right.length + 1) d) % 10
      = (weight right.length d + weight (right.length + 1) e) % 10 := by
    simp only [List.reverse_cons, List.reverse_nil, List.nil_append, List.cons_append,
      List.length_cons, List.length_nil, weighted_cons, weighted_nil] at h h'
    omega
  obtain heq | heq := weight_swap he hd hmod
  · exact hne heq.symm
  · exact hpair (by omega)

/-- **The check digit** completes what the other digits count to a multiple of ten. -/
theorem valid_append_iff {digits : List Nat} {d : Nat} (hd : d < 10) :
    Valid (digits ++ [d]) ↔ d = (10 - weighted 1 digits.reverse % 10) % 10 := by
  unfold Valid
  rw [weighted_reverse_append, List.reverse_singleton, weighted_cons, weight_of_even (by omega)]
  simp only [weighted_nil, List.length_singleton]
  omega

end Luhn
