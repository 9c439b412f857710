import Mathlib.Data.Char
import Mathlib.Data.List.Lex
import Mathlib.Data.List.Sort
import RedactApi.Encoding

/-!
# Canonical JSON

`dumps` writes a value the way a canonical writer does: keys sorted, no blanks,
every character outside printable ASCII escaped.  Characters above the basic
plane become two escapes, one for each surrogate.

The escapes form a prefix code that never starts with the closing quote, so a
quoted string can be cut off a text (`quote_cut`).  That is what makes a fixed
sequence of keys and quoted values readable.
-/

namespace Json

open Encoding

/-- A JSON value; objects keep their keys as given. -/
inductive Value
  | null
  | bool (b : Bool)
  | num (n : Nat)
  | str (s : String)
  | arr (items : List Value)
  | obj (fields : List (String × Value))

/-! ### Strings -/

/-- The two-character escapes. -/
def shortEscape (c : Char) : Option Char :=
  if c = '"' then some '"'
  else if c = '\\' then some '\\'
  else if c = '\n' then some 'n'
  else if c = '\r' then some 'r'
  else if c = '\t' then some 't'
  else if c = '\x0c' then some 'f'
  else if c = '\x08' then some 'b'
  else none

/-- Characters that stand for themselves: printable ASCII but the quote and the
backslash. -/
def isPlain (c : Char) : Bool :=
  32 ≤ c.toNat ∧ c.toNat ≤ 126 ∧ c.toNat ≠ 34 ∧ c.toNat ≠ 92

/-- The first UTF-16 code unit of a character. -/
def unit₁ (c : Char) : Nat :=
  if c.toNat < 0x10000 then c.toNat else 0xd800 + (c.toNat - 0x10000) / 0x400

/-- The escapes of the UTF-16 code units of a character. -/
def unicodeEscape (c : Char) : List Char :=
  'u' :: digits 16 4 (unit₁ c) ++
    if c.toNat < 0x10000 then []
    else '\\' :: 'u' :: digits 16 4 (0xdc00 + (c.toNat - 0x10000) % 0x400)

def escape (c : Char) : List Char :=
  if isPlain c then [c]
  else
    '\\' :: match shortEscape c with
      | some d => [d]
      | none => unicodeEscape c

def quote (s : String) : List Char := '"' :: s.toList.flatMap escape ++ ['"']

theorem shortEscape_inj {a b d : Char} (ha : shortEscape a = some d)
    (hb : shortEscape b = some d) : a = b := by
  have key : ∀ c, shortEscape c = some d →
      c = (if d = 'n' then '\n' else if d = 'r' then '\r' else if d = 't' then '\t'
        else if d = 'f' then '\x0c' else if d = 'b' then '\x08' else d) := by
    intro c h
    simp only [shortEscape] at h
    split_ifs at h <;> cases h <;> simp_all
  rw [key a ha, key b hb]

theorem shortEscape_ne_u {c d : Char} (h : shortEscape c = some d) : d ≠ 'u' := by
  simp only [shortEscape] at h
  split_ifs at h <;> cases h <;> decide

theorem toNat_lt_or (c : Char) : c.toNat < 0xd800 ∨ 0xdfff < c.toNat ∧ c.toNat < 0x110000 := by
  have h := c.valid
  simp only [UInt32.isValidChar, Nat.isValidChar] at h
  exact h

theorem unit₁_lt (c : Char) : unit₁ c < 16 ^ 4 := by
  have := toNat_lt_or c
  rw [unit₁]
  split <;> omega

/-- Reading the code units back: a surrogate is no character of its own. -/
theorem unicodeEscape_code : PrefixCode unicodeEscape := by
  intro a b x y h
  simp only [unicodeEscape, List.cons_append, List.append_assoc, List.cons.injEq,
    true_and] at h
  obtain ⟨h₁, h₂⟩ := List.append_inj h (by simp)
  have hu := digits_inj (by decide) (by decide) (unit₁_lt a) (unit₁_lt b) h₁
  have ha := toNat_lt_or a
  have hb := toNat_lt_or b
  apply Char.toNat_inj.mp
  by_cases ca : a.toNat < 0x10000 <;> by_cases cb : b.toNat < 0x10000
  · simpa [unit₁, ca, cb] using hu
  · simp only [unit₁, ca, cb, if_true, if_false] at hu
    omega
  · simp only [unit₁, ca, cb, if_true, if_false] at hu
    omega
  · simp only [ca, cb, if_false, List.cons_append, List.cons.injEq, true_and] at h₂
    simp only [unit₁, ca, cb, if_false] at hu
    have hl := digits_inj (b := 16) (w := 4) (by decide) (by decide) (by omega) (by omega)
      (List.append_inj_left h₂ (by simp))
    omega

theorem escape_plain {c : Char} (h : isPlain c = true) : escape c = [c] := if_pos h

theorem escape_short {c d : Char} (h : isPlain c = false) (hd : shortEscape c = some d) :
    escape c = ['\\', d] := by
  rw [escape, h, hd]
  rfl

theorem escape_unicode {c : Char} (h : isPlain c = false) (hd : shortEscape c = none) :
    escape c = '\\' :: unicodeEscape c := by
  rw [escape, h, hd]
  rfl

theorem isPlain_ne {c : Char} (h : isPlain c = true) : c ≠ '\\' ∧ c ≠ '"' := by
  constructor <;> rintro rfl <;> revert h <;> decide

theorem escape_code : PrefixCode escape := by
  intro a b x y h
  cases ha : isPlain a <;> cases hb : isPlain b
  · -- both escaped
    cases hsa : shortEscape a <;> cases hsb : shortEscape b
    · rw [escape_unicode ha hsa, escape_unicode hb hsb] at h
      exact unicodeEscape_code a b x y (List.cons.inj h).2
    · rw [escape_unicode ha hsa, escape_short hb hsb] at h
      have hu := (List.cons.inj (List.cons.inj h).2).1
      exact absurd hu.symm (shortEscape_ne_u hsb)
    · rw [escape_short ha hsa, escape_unicode hb hsb] at h
      have hu := (List.cons.inj (List.cons.inj h).2).1
      exact absurd hu (shortEscape_ne_u hsa)
    · rw [escape_short ha hsa, escape_short hb hsb] at h
      have hd := (List.cons.inj (List.cons.inj h).2).1
      rw [hd] at hsa
      exact shortEscape_inj hsa hsb
  · rw [escape_plain hb, escape, ha] at h
    exact absurd (List.cons.inj h).1.symm (isPlain_ne hb).1
  · rw [escape_plain ha, escape, hb] at h
    exact absurd (List.cons.inj h).1 (isPlain_ne ha).1
  · rw [escape_plain ha, escape_plain hb] at h
    exact (List.cons.inj h).1

theorem escape_ne_quote (c : Char) (x y : List Char) : escape c ++ x ≠ '"' :: y := by
  intro h
  cases hc : isPlain c
  · rw [escape, hc] at h
    exact absurd (List.cons.inj h).1 (by decide)
  · rw [escape_plain hc] at h
    exact (isPlain_ne hc).2 (List.cons.inj h).1

/-- **A quoted string can be cut off.** -/
theorem quote_cut {a b : String} {x y : List Char} (h : quote a ++ x = quote b ++ y) :
    a = b ∧ x = y := by
  simp only [quote, List.cons_append, List.append_assoc, List.nil_append, List.cons.injEq,
    true_and] at h
  obtain ⟨hab, hxy⟩ := escape_code.flatMap_cut escape_ne_quote h
  exact ⟨String.toList_inj.mp hab, hxy⟩

/-! ### Values -/

def commas : List (List Char) → List Char
  | [] => []
  | [a] => a
  | a :: as => a ++ ',' :: commas as

mutual

/-- `json.dumps(value, sort_keys=True, separators=(",", ":"))`. -/
def dumps : Value → List Char
  | .null => "null".toList
  | .bool b => if b then "true".toList else "false".toList
  | .num n => n.repr.toList
  | .str s => quote s
  | .arr items => '[' :: commas (dumpsItems items) ++ [']']
  | .obj fields =>
    '{' :: commas (((dumpsFields fields).insertionSort fun a b => a.1.toList ≤ b.1.toList).map
      fun f => quote f.1 ++ ':' :: f.2) ++ ['}']

def dumpsItems : List Value → List (List Char)
  | [] => []
  | v :: vs => dumps v :: dumpsItems vs

def dumpsFields : List (String × Value) → List (String × List Char)
  | [] => []
  | (k, v) :: fs => (k, dumps v) :: dumpsFields fs

end

example : dumps (.obj [("b", .null), ("a", .str "é\"")]) =
    "\x7b\"a\":\"\\u00e9\\\"\",\"b\":null\x7d".toList := by
  decide

end Json
