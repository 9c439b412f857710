import Mathlib.Data.List.Basic
import Mathlib.Data.Nat.Digits.Defs

/-!
# Encodings that can be read back

Two tools for showing that a text determines what was written into it.

* `digits b w n` is the number `n` in base `b`, padded to `w` characters.  On
  the numbers that fit it is injective, and it always has length `w`, so a
  fixed-width field can be cut off a text.
* A function into words is a `PrefixCode` when no code word is the beginning
  of another continuation.  A list coded word by word and closed by a
  terminator that starts no code word can be cut off as well
  (`PrefixCode.flatMap_cut`).
-/

namespace Encoding

/-- The base-`b` digits of `n`, padded with zeros on the left to width `w`. -/
def digits (b : Nat) : Nat → Nat → List Char
  | 0, _ => []
  | w + 1, n => digits b w (n / b) ++ [Nat.digitChar (n % b)]

@[simp] theorem length_digits (b w n : Nat) : (digits b w n).length = w := by
  induction w generalizing n with
  | zero => rfl
  | succ w ih => simp [digits, ih]

/-- The characters a digit can be. -/
def digitChars : List Char := "0123456789abcdef".toList

theorem digitChar_mem {d : Nat} (h : d < 16) : Nat.digitChar d ∈ digitChars := by
  revert d
  decide

theorem digitChar_inj {d e : Nat} (hd : d < 16) (he : e < 16)
    (h : Nat.digitChar d = Nat.digitChar e) : d = e := by
  have key : ∀ d, d < 16 → ∀ e, e < 16 → Nat.digitChar d = Nat.digitChar e → d = e := by decide
  exact key d hd e he h

theorem mem_digits {b w n : Nat} (hb : 0 < b) (hb' : b ≤ 16) {c : Char}
    (h : c ∈ digits b w n) : c ∈ digitChars := by
  induction w generalizing n with
  | zero => cases h
  | succ w ih =>
    rcases List.mem_append.mp h with h | h
    · exact ih h
    · rw [List.mem_singleton] at h
      rw [h]
      exact digitChar_mem (lt_of_lt_of_le (Nat.mod_lt _ hb) hb')

theorem digits_inj {b w n m : Nat} (hb : 0 < b) (hb' : b ≤ 16) (hn : n < b ^ w) (hm : m < b ^ w)
    (h : digits b w n = digits b w m) : n = m := by
  induction w generalizing n m with
  | zero =>
    rw [Nat.pow_zero] at hn hm
    omega
  | succ w ih =>
    obtain ⟨hq, hr⟩ := List.append_inj h (by simp)
    have hquot : n / b = m / b := by
      refine ih ?_ ?_ hq
      · exact Nat.div_lt_of_lt_mul (by rwa [Nat.pow_succ, Nat.mul_comm] at hn)
      · exact Nat.div_lt_of_lt_mul (by rwa [Nat.pow_succ, Nat.mul_comm] at hm)
    have hrem : n % b = m % b :=
      digitChar_inj (lt_of_lt_of_le (Nat.mod_lt _ hb) hb') (lt_of_lt_of_le (Nat.mod_lt _ hb) hb')
        (List.head_eq_of_cons_eq hr)
    rw [← Nat.div_add_mod n b, ← Nat.div_add_mod m b, hquot, hrem]

/-! ### Prefix codes -/

variable {α β : Type}

/-- Different inputs are told apart by their code words, whatever follows. -/
def PrefixCode (f : α → List β) : Prop :=
  ∀ a b x y, f a ++ x = f b ++ y → a = b

theorem PrefixCode.cut {f : α → List β} (hf : PrefixCode f) {a b : α} {x y : List β}
    (h : f a ++ x = f b ++ y) : a = b ∧ x = y := by
  have hab := hf a b x y h
  subst hab
  exact ⟨rfl, List.append_cancel_left h⟩

/-- **A terminated list of code words can be cut off.** -/
theorem PrefixCode.flatMap_cut {f : α → List β} (hf : PrefixCode f) {t : β}
    (ht : ∀ a x y, f a ++ x ≠ t :: y) :
    ∀ {as bs : List α} {x y : List β},
      as.flatMap f ++ t :: x = bs.flatMap f ++ t :: y → as = bs ∧ x = y := by
  intro as
  induction as with
  | nil =>
    intro bs x y h
    cases bs with
    | nil => exact ⟨rfl, (List.cons.inj h).2⟩
    | cons b bs =>
      rw [List.flatMap_cons, List.append_assoc] at h
      exact absurd h.symm (ht b _ x)
  | cons a as ih =>
    intro bs x y h
    rw [List.flatMap_cons, List.append_assoc] at h
    cases bs with
    | nil => exact absurd h (ht a _ y)
    | cons b bs =>
      rw [List.flatMap_cons, List.append_assoc] at h
      obtain ⟨hab, hrest⟩ := hf.cut h
      obtain ⟨hs, hxy⟩ := ih hrest
      exact ⟨by rw [hab, hs], hxy⟩

end Encoding
