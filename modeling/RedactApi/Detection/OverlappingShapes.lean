import RedactApi.Detection.FixedShapes
import RedactApi.Detection.LineBreaks

/-!
# Detectors of shapes that overlap

A date of birth can start inside another date, and a phone number inside another number.  The
scan from the left lists the first of them and goes on behind it, so what is hidden starts
inside a span that is listed.

`DateAt.chained` says where: a date is hidden only behind a number and a separator.
`PhoneAt.overlap` says where for phone numbers: a number that ends behind the listed one starts
in its last four digits, the country code being the first of them.
-/

namespace RedactApi

open Regex

/-! ### Dates -/

def isDateSeparator (char : Char) : Bool := char = '/' ∨ char = '-'

/-- The parts of a date: the numbers are from `i` to `m`, from `m + 1` to `n` and from `n + 1`
to `j`. -/
structure DateParts (w : List Char) (i m n j : Nat) : Prop where
  isolated : Isolated w isDecimal i j
  first : (i + 1 ≤ m ∧ m ≤ i + 2) ∧ ∀ k, i ≤ k → k < m → holds w isDecimal k = true
  separator : holds w isDateSeparator m = true
  second : (m + 2 ≤ n ∧ n ≤ m + 3) ∧ ∀ k, m + 1 ≤ k → k < n → holds w isDecimal k = true
  separator' : holds w isDateSeparator n = true
  third : (n + 3 ≤ j ∧ j ≤ n + 5) ∧ ∀ k, n + 1 ≤ k → k < j → holds w isDecimal k = true

/-- One or two digits, one or two more, and two to four more, with slashes or hyphens between
them and no digit at either side. -/
def DateAt (w : List Char) (i j : Nat) : Prop := ∃ m n, DateParts w i m n j

def Chained (w : List Char) (i : Nat) : Prop :=
  ∃ k, i = k + 2 ∧ holds w isDecimal k = true ∧ holds w isDateSeparator (k + 1) = true

section Dates

variable {w : List Char} {i m n j : Nat}

theorem matched_digitRun_between_iff {least most : Nat} : Matched w (digitRun least most) i j ↔
    (i + least ≤ j ∧ j ≤ i + most) ∧ ∀ k, i ≤ k → k < j → holds w isDecimal k = true := by
  rw [digitRun, matched_run_iff]
  constructor
  · rintro ⟨hleast, hmost, hall⟩
    exact ⟨⟨hleast, hmost most rfl⟩, hall⟩
  · rintro ⟨⟨hleast, hmost⟩, hall⟩
    exact ⟨hleast, fun n hn => by rw [Option.mem_some.mp hn] at hmost; exact hmost, hall⟩

theorem matched_dateRe_iff : Matched w dateRe i j ↔ DateAt w i j := by
  rw [dateRe, matched_isolated_iff]
  simp only [Matched, matched_digitRun_between_iff, dateSeparator]
  constructor
  · rintro ⟨hisolated, m, hfirst, _, ⟨hm, rfl⟩, n, hsecond, _, ⟨hn, rfl⟩, hthird⟩
    exact ⟨m, n, hisolated, hfirst, hm, ⟨by omega, hsecond.2⟩, hn, ⟨by omega, hthird.2⟩⟩
  · rintro ⟨m, n, h⟩
    have hsecond := h.second.1
    have hthird := h.third.1
    exact ⟨h.isolated, m, h.first, m + 1, ⟨h.separator, rfl⟩, n, ⟨by omega, h.second.2⟩, n + 1,
      ⟨h.separator', rfl⟩, by omega, h.third.2⟩

theorem not_isDecimal_of_dateSeparator {k : Nat} (h : holds w isDateSeparator k = true) :
    ¬ holds w isDecimal k = true :=
  false_of_holds (fun a ha => by
    obtain rfl | rfl := of_decide_eq_true ha
    · decide
    · decide) h

theorem digits_end {k k' : Nat} (hk : ∀ x, i ≤ x → x < k → holds w isDecimal x = true)
    (hik : i ≤ k) (hend : ¬ holds w isDecimal k = true)
    (hk' : ∀ x, i ≤ x → x < k' → holds w isDecimal x = true) (hik' : i ≤ k')
    (hend' : ¬ holds w isDecimal k' = true) : k = k' := by
  by_contra hne
  obtain hlt | hlt := Nat.lt_or_gt_of_ne hne
  · exact hend (hk' k hik hlt)
  · exact hend' (hk k' hik' hlt)

theorem DateAt.stop_unique {j' : Nat} (h : DateAt w i j) (h' : DateAt w i j') : j = j' := by
  obtain ⟨m, n, h⟩ := h
  obtain ⟨m', n', h'⟩ := h'
  obtain rfl : m = m' := digits_end h.first.2 (by have := h.first.1; omega)
    (not_isDecimal_of_dateSeparator h.separator) h'.first.2 (by have := h'.first.1; omega)
    (not_isDecimal_of_dateSeparator h'.separator)
  obtain rfl : n = n' := digits_end h.second.2 (by have := h.second.1; omega)
    (not_isDecimal_of_dateSeparator h.separator') h'.second.2 (by have := h'.second.1; omega)
    (not_isDecimal_of_dateSeparator h'.separator')
  exact digits_end h.third.2 (by have := h.third.1; omega) h.isolated.not_held_after h'.third.2
    (by have := h'.third.1; omega) h'.isolated.not_held_after

theorem DateAt.lt (h : DateAt w i j) : i < j := by
  obtain ⟨m, n, h⟩ := h
  have hfirst := h.first.1
  have hsecond := h.second.1
  have hthird := h.third.1
  omega

theorem DateAt.digit_or_separator (h : DateAt w i j) {k : Nat} (hik : i ≤ k) (hkj : k < j) :
    holds w isDecimal k = true ∨ holds w isDateSeparator k = true := by
  obtain ⟨m, n, h⟩ := h
  by_cases hfirst : k < m
  · exact Or.inl (h.first.2 k hik hfirst)
  by_cases hm : k = m
  · exact Or.inr (hm ▸ h.separator)
  by_cases hsecond : k < n
  · exact Or.inl (h.second.2 k (by omega) hsecond)
  by_cases hn : k = n
  · exact Or.inr (hn ▸ h.separator')
  · exact Or.inl (h.third.2 k (by omega) hkj)

/-- **A date that starts inside another is chained to a number of it.** -/
theorem DateAt.chained {a b : Nat} (h : DateAt w a b) (h' : DateAt w i j) (hai : a < i)
    (hib : i < b) : Chained w i := by
  obtain ⟨m, n, h⟩ := h
  obtain ⟨m', n', h'⟩ := h'
  have hfirst := h.first.1
  have hsecond := h.second.1
  -- the character before it is no digit, so it is one of the two separators
  have hbefore := h'.isolated.not_held_before (k := i - 1) (by omega)
  by_cases hm : i - 1 = m
  · refine ⟨i - 2, by omega, h.first.2 _ (by omega) (by omega), ?_⟩
    rw [show i - 2 + 1 = m by omega]
    exact h.separator
  by_cases hn : i - 1 = n
  · refine ⟨i - 2, by omega, h.second.2 _ (by omega) (by omega), ?_⟩
    rw [show i - 2 + 1 = n by omega]
    exact h.separator'
  refine absurd ?_ hbefore
  by_cases hlow : i - 1 < m
  · exact h.first.2 _ (by omega) hlow
  by_cases hmid : i - 1 < n
  · exact h.second.2 _ (by omega) hmid
  · exact h.third.2 _ (by omega) (by omega)

end Dates

/-! ### The keyword before a date -/

/-- A needle that has nothing of the end is found before it. -/
theorem infix_of_infix_append {α : Type} {needle l m : List α} (h : needle <:+: l ++ m)
    (hne : ∀ x ∈ needle, x ∉ m) : needle <:+: l := by
  induction m using List.reverseRecOn with
  | nil => rwa [List.append_nil] at h
  | append_singleton m x ih =>
    rw [← List.append_assoc] at h
    rcases List.infix_concat_iff.mp h with hsuffix | hinfix
    · cases needle using List.reverseRecOn with
      | nil => exact List.nil_infix
      | append_singleton needle y =>
        obtain rfl : y = x := by
          obtain ⟨s, hs⟩ := hsuffix
          simpa using congrArg List.getLast? hs
        exact absurd (List.mem_append_right m List.mem_cons_self)
          (hne y (List.mem_append_right needle List.mem_cons_self))
    · exact ih hinfix fun y hy hm => hne y hy (List.mem_append_left _ hm)

section Anchors

variable {casefold : String → String} {fold : Char → List Char} {text : String} {a i : Nat}

theorem toList_dobWindow : (dobWindow text i).toList = slice text.toList (i - 32) i :=
  String.toList_ofList

def isDateChar (char : Char) : Bool := isDecimal char || isDateSeparator char

theorem not_isDateChar_of_anchor {anchor : String} (h : anchor ∈ dobKeywordAnchors) :
    anchor.toList.any isDateChar = false := by
  simp only [dobKeywordAnchors, List.mem_cons, List.not_mem_nil, or_false] at h
  rcases h with rfl | rfl | rfl <;> rfl

/-- **A keyword before the later of two places** that only a date lies between stands before
the earlier as well. -/
theorem hasDobAnchor_earlier (hfold : FoldsEach casefold fold)
    (hkeep : ∀ char, isDateChar char = true → fold char = [char]) (hai : a ≤ i)
    (hi : i ≤ text.toList.length)
    (hbetween : ∀ k, a ≤ k → k < i → holds text.toList isDateChar k = true)
    (h : hasDobAnchor casefold text i = true) : hasDobAnchor casefold text a = true := by
  obtain ⟨anchor, hanchor, hinfix⟩ := List.any_eq_true.mp h
  refine List.any_eq_true.mpr ⟨anchor, hanchor, ?_⟩
  rw [isSubstring_iff, hfold.each, toList_dobWindow] at hinfix ⊢
  -- the window, as far as it lies before the earlier place
  have hcut : i - 32 ≤ max a (i - 32) ∧ max a (i - 32) ≤ i := by omega
  rw [← slice_append_slice hcut.1 hcut.2 hi, List.flatMap_append] at hinfix
  have hdate : ∀ char ∈ slice text.toList (max a (i - 32)) i, isDateChar char = true :=
    (forall_mem_slice_iff hi).mpr fun k hk hki => hbetween k (by omega) hki
  have hfixed : (slice text.toList (max a (i - 32)) i).flatMap fold =
      slice text.toList (max a (i - 32)) i := by
    rw [List.flatMap_congr fun char hchar => hkeep char (hdate char hchar)]
    exact List.flatMap_singleton' _
  rw [hfixed] at hinfix
  have hbefore := infix_of_infix_append hinfix fun char hchar hmem => by
    have hnot := List.any_eq_false.mp (not_isDateChar_of_anchor hanchor) char hchar
    exact hnot (hdate char hmem)
  refine hbefore.trans (List.IsInfix.flatMap ?_ fold)
  by_cases hfar : a ≤ i - 32
  · rw [Nat.max_eq_right hfar, show slice text.toList (i - 32) (i - 32) = [] from
      List.drop_of_length_le (List.length_take_le _ _)]
    exact List.nil_infix
  · rw [Nat.max_eq_left (by omega)]
    exact (List.drop_suffix_drop_left _ (by omega)).isInfix

end Anchors

/-! ### Phone numbers -/

def isPhoneSeparator (char : Char) : Bool := isSpace char ∨ char = '.' ∨ char = '-'

def isBlockHead (char : Char) : Bool := '2' ≤ char ∧ char ≤ '9'

def SeparatorAt (w : List Char) (i j : Nat) : Prop :=
  j = i ∨ j = i + 1 ∧ holds w isPhoneSeparator i = true

structure BlockAt (w : List Char) (i : Nat) : Prop where
  head : holds w isBlockHead i = true
  tail : holds w isDecimal (i + 1) = true ∧ holds w isDecimal (i + 2) = true

def CountryAt (w : List Char) (i j : Nat) : Prop :=
  j = i ∨ ∃ k, (k = i ∨ k = i + 1 ∧ holds w (fun char => char = '+') i = true) ∧
    holds w (fun char => char = '1') k = true ∧ SeparatorAt w (k + 1) j

def AreaAt (w : List Char) (i j : Nat) : Prop :=
  j = i + 3 ∧ BlockAt w i ∨ ∃ k l, holds w (fun char => char = '(') i = true ∧
    (i + 1 ≤ k ∧ ∀ x, i + 1 ≤ x → x < k → holds w isSpace x = true) ∧ BlockAt w k ∧
    (k + 3 ≤ l ∧ ∀ x, k + 3 ≤ x → x < l → holds w isSpace x = true) ∧
    holds w (fun char => char = ')') l = true ∧ j = l + 1

/-- The parts of a phone number: the area code is from `a` to `b`, the exchange at `c` and the
line at `d`. -/
structure PhoneParts (w : List Char) (i a b c d : Nat) : Prop where
  isolated : Isolated w isDecimal i (d + 4)
  country : CountryAt w i a
  area : AreaAt w a b
  separator : SeparatorAt w b c
  exchange : BlockAt w c
  separator' : SeparatorAt w (c + 3) d
  line : ∀ k, d ≤ k → k < d + 4 → holds w isDecimal k = true

def PhoneAt (w : List Char) (i j : Nat) : Prop := ∃ a b c d, PhoneParts w i a b c d ∧ j = d + 4

section Phones

variable {w : List Char} {i j : Nat}

theorem matched_optionally_iff {p : Pattern Char} :
    Matched w (optionally p) i j ↔ j = i ∨ Matched w p i j := by
  rw [optionally, Matched]
  constructor
  · rintro ⟨n, -, hmost, hn⟩
    have hone : n ≤ 1 := hmost 1 rfl
    obtain rfl | rfl : n = 0 ∨ n = 1 := by omega
    · exact Or.inl hn.symm
    · obtain ⟨k, ⟨hk, -⟩, rfl⟩ := hn
      exact Or.inr hk
  · rintro (rfl | hp)
    · exact ⟨0, Nat.le_refl 0, fun m hm => Nat.zero_le m, rfl⟩
    · by_cases hij : i < j
      · exact ⟨1, Nat.zero_le 1, fun m hm => by rw [Option.mem_some.mp hm], j, ⟨hp, hij⟩, rfl⟩
      · have hle := hp.bounds.1
        exact ⟨0, Nat.le_refl 0, fun m hm => Nat.zero_le m, show i = j by omega⟩

theorem matched_phoneSeparator_iff : Matched w phoneSeparator i j ↔ SeparatorAt w i j := by
  rw [phoneSeparator, matched_optionally_iff, SeparatorAt]
  exact or_congr_right and_comm

theorem matched_nanpBlock_iff : Matched w nanpBlock i j ↔ j = i + 3 ∧ BlockAt w i := by
  simp only [nanpBlock, Matched, matched_digitRun_iff]
  constructor
  · rintro ⟨_, ⟨hhead, rfl⟩, rfl, htail⟩
    exact ⟨rfl, hhead, htail (i + 1) (by omega) (by omega), htail (i + 2) (by omega) (by omega)⟩
  · rintro ⟨rfl, h⟩
    refine ⟨i + 1, ⟨h.head, rfl⟩, rfl, fun k hk hki => ?_⟩
    obtain rfl | rfl : k = i + 1 ∨ k = i + 2 := by omega
    · exact h.tail.1
    · exact h.tail.2

theorem matched_country_iff :
    Matched w (optionally (.seq (optionally (literal '+')) (.seq (literal '1') phoneSeparator)))
      i j ↔ CountryAt w i j := by
  rw [matched_optionally_iff, CountryAt]
  simp only [Matched, matched_optionally_iff, matched_phoneSeparator_iff, literal]
  refine or_congr_right ⟨?_, ?_⟩
  · rintro ⟨k, hplus, _, ⟨hone, rfl⟩, hseparator⟩
    exact ⟨k, hplus.imp_right fun h => ⟨h.2, h.1⟩, hone, hseparator⟩
  · rintro ⟨k, hplus, hone, hseparator⟩
    exact ⟨k, hplus.imp_right fun h => ⟨h.2, h.1⟩, k + 1, ⟨hone, rfl⟩, hseparator⟩

theorem matched_spaces_iff : Matched w spaces i j ↔
    i ≤ j ∧ ∀ x, i ≤ x → x < j → holds w isSpace x = true := by
  rw [spaces, matched_run_iff]
  exact ⟨fun h => ⟨h.1, h.2.2⟩,
    fun h => ⟨h.1, fun m (hm : m ∈ none) => absurd hm (Option.not_mem_none m), h.2⟩⟩

theorem matched_area_iff :
    Matched w (.alt (.seq (literal '(') (.seq spaces (.seq nanpBlock (.seq spaces (literal ')')))))
      nanpBlock) i j ↔ AreaAt w i j := by
  rw [Matched, AreaAt, matched_nanpBlock_iff, or_comm]
  refine or_congr_right ?_
  simp only [Matched, matched_spaces_iff, matched_nanpBlock_iff, literal]
  constructor
  · rintro ⟨_, ⟨hopen, rfl⟩, k, hbefore, _, ⟨rfl, hblock⟩, l, hafter, hclose, rfl⟩
    exact ⟨k, l, hopen, hbefore, hblock, hafter, hclose, rfl⟩
  · rintro ⟨k, l, hopen, hbefore, hblock, hafter, hclose, rfl⟩
    exact ⟨i + 1, ⟨hopen, rfl⟩, k, hbefore, k + 3, ⟨rfl, hblock⟩, l, hafter, hclose, rfl⟩

theorem matched_phoneRe_iff : Matched w phoneRe i j ↔ PhoneAt w i j := by
  rw [phoneRe, matched_isolated_iff]
  constructor
  · rintro ⟨hisolated, a, hcountry, b, harea, c, hseparator, _, hexchange, d, hseparator', hline⟩
    obtain ⟨rfl, hblock⟩ := matched_nanpBlock_iff.mp hexchange
    obtain ⟨rfl, hdigits⟩ := matched_digitRun_iff.mp hline
    exact ⟨a, b, c, d, ⟨hisolated, matched_country_iff.mp hcountry, matched_area_iff.mp harea,
      matched_phoneSeparator_iff.mp hseparator, hblock, matched_phoneSeparator_iff.mp hseparator',
      hdigits⟩, rfl⟩
  · rintro ⟨a, b, c, d, h, rfl⟩
    exact ⟨h.isolated, a, matched_country_iff.mpr h.country, b, matched_area_iff.mpr h.area, c,
      matched_phoneSeparator_iff.mpr h.separator, c + 3,
      matched_nanpBlock_iff.mpr ⟨rfl, h.exchange⟩, d, matched_phoneSeparator_iff.mpr h.separator',
      matched_digitRun_iff.mpr ⟨rfl, h.line⟩⟩

/-! ### The characters of a phone number -/

theorem not_isSpace_of_isDecimal {char : Char} (h : isDecimal char = true) :
    isSpace char = false := by
  have hall : ∀ first ∈ decimalZeros, ∀ d < 10, isSpace (Char.ofNat (first + d)) = false := by
    decide +kernel
  obtain ⟨value, hvalue⟩ := Option.isSome_iff_exists.mp h
  obtain ⟨first, hfirst, -⟩ := Option.map_eq_some_iff.mp hvalue
  have hrange := List.find?_some hfirst
  simp only [decide_eq_true_eq] at hrange
  have hspace := hall first (List.mem_of_find?_eq_some hfirst) (char.toNat - first) (by omega)
  rwa [Nat.add_sub_cancel' hrange.1, Char.ofNat_toNat] at hspace

theorem isDecimal_of_isBlockHead {char : Char} (h : isBlockHead char = true) :
    isDecimal char = true := by
  obtain ⟨hlow, hhigh⟩ := of_decide_eq_true h
  have hlow' : 50 ≤ char.toNat := hlow
  have hhigh' : char.toNat ≤ 57 := hhigh
  rw [isDecimal, digitValue, Option.isSome_map, List.find?_isSome]
  exact ⟨0x30, List.mem_cons_self, decide_eq_true ⟨by omega, by omega⟩⟩

theorem not_isDecimal_of_isPhoneSeparator {char : Char} (h : isPhoneSeparator char = true) :
    isDecimal char = false := by
  rcases of_decide_eq_true h with hspace | rfl | rfl
  · by_contra hdecimal
    rw [not_isSpace_of_isDecimal (by simpa using hdecimal)] at hspace
    cases hspace
  · decide
  · decide

def AreaStart (w : List Char) (x : Nat) : Prop :=
  holds w (fun char => char = '(') x = true ∨ holds w isBlockHead x = true

def PhoneStart (w : List Char) (x : Nat) : Prop :=
  holds w (fun char => char = '+') x = true ∨ holds w (fun char => char = '(') x = true ∨
    holds w isDecimal x = true ∧ heldBefore w isDecimal x = false

variable {x a b c d k : Nat}

theorem BlockAt.digit (h : BlockAt w i) (hik : i ≤ k) (hki : k < i + 3) :
    holds w isDecimal k = true := by
  obtain rfl | rfl | rfl : k = i ∨ k = i + 1 ∨ k = i + 2 := by omega
  · exact holds_mono (fun _ => isDecimal_of_isBlockHead) h.head
  · exact h.tail.1
  · exact h.tail.2

theorem AreaAt.start (h : AreaAt w i j) : AreaStart w i := by
  rcases h with ⟨-, hblock⟩ | ⟨_, _, hopen, -⟩
  · exact Or.inr hblock.head
  · exact Or.inl hopen

theorem false_of_literal {char : Char} {p : Char → Bool} (hp : p char = false)
    (hchar : holds w (fun char' => char' = char) x = true) (h : holds w p x = true) : False :=
  false_of_holds (fun _ hc => by rw [of_decide_eq_true hc]; exact hp) hchar h

theorem AreaStart.not_holds {p : Char → Bool} (hopen : p '(' = false)
    (hhead : ∀ char, isBlockHead char = true → p char = false) (h : AreaStart w x) :
    ¬ holds w p x = true := by
  intro hp
  rcases h with hx | hx
  · exact false_of_literal hopen hx hp
  · exact false_of_holds hhead hx hp

theorem not_areaStart_of_separator (h : holds w isPhoneSeparator x = true) : ¬ AreaStart w x := by
  refine fun hx => hx.not_holds (by decide) (fun char hhead => ?_) h
  by_contra hseparator
  have hdigit := not_isDecimal_of_isPhoneSeparator (Bool.of_not_eq_false hseparator)
  exact Bool.false_ne_true (hdigit.symm.trans (isDecimal_of_isBlockHead hhead))

theorem AreaStart.not_literal {char : Char} (hopen : char ≠ '(') (hhead : isBlockHead char = false)
    (h : AreaStart w x) : ¬ holds w (fun char' => char' = char) x = true :=
  h.not_holds (decide_eq_false hopen.symm) fun _ hchar =>
    decide_eq_false fun heq => Bool.false_ne_true (hhead.symm.trans (heq ▸ hchar))

theorem SeparatorAt.unique {P : Nat → Prop}
    (hP : ∀ x, holds w isPhoneSeparator x = true → ¬ P x) {y y' : Nat} (h : SeparatorAt w x y)
    (h' : SeparatorAt w x y') (hy : P y) (hy' : P y') : y = y' := by
  rcases h with rfl | ⟨rfl, hx⟩ <;> rcases h' with rfl | ⟨rfl, hx'⟩
  · rfl
  · exact absurd hy (hP _ hx')
  · exact absurd hy' (hP _ hx)
  · rfl

theorem AreaAt.unique {b' : Nat} (h : AreaAt w a b) (h' : AreaAt w a b') : b = b' := by
  have hmixed : BlockAt w a → holds w (fun char => char = '(') a = true → False :=
    fun hblock hopen => false_of_literal (by decide) hopen hblock.head
  -- blanks end where they are followed by something else
  have hrun : ∀ {i k k' : Nat}, i ≤ k → (∀ x, i ≤ x → x < k → holds w isSpace x = true) →
      ¬ holds w isSpace k = true → i ≤ k' → (∀ x, i ≤ x → x < k' → holds w isSpace x = true) →
      ¬ holds w isSpace k' = true → k = k' := by
    intro i k k' hik hk hend hik' hk' hend'
    by_contra hne
    obtain hlt | hlt := Nat.lt_or_gt_of_ne hne
    · exact hend (hk' k hik hlt)
    · exact hend' (hk k' hik' hlt)
  have hhead : ∀ {k}, BlockAt w k → ¬ holds w isSpace k = true := fun hblock =>
    false_of_holds (fun _ => not_isSpace_of_isDecimal) (hblock.digit (Nat.le_refl _) (by omega))
  rcases h with ⟨rfl, hblock⟩ | ⟨k, l, hopen, hbefore, hblock, hafter, hclose, rfl⟩ <;>
    rcases h' with ⟨rfl, hblock'⟩ | ⟨k', l', hopen', hbefore', hblock', hafter', hclose', rfl⟩
  · rfl
  · exact (hmixed hblock hopen').elim
  · exact (hmixed hblock' hopen).elim
  · obtain rfl := hrun hbefore.1 hbefore.2 (hhead hblock) hbefore'.1 hbefore'.2 (hhead hblock')
    obtain rfl := hrun hafter.1 hafter.2 (false_of_literal (by decide) hclose) hafter'.1 hafter'.2
      (false_of_literal (by decide) hclose')
    rfl

theorem PhoneParts.line_unique {i' b' c' d' : Nat} (h : PhoneParts w i a b c d)
    (h' : PhoneParts w i' a b' c' d') : d = d' := by
  have hdigit : ∀ x, holds w isPhoneSeparator x = true → ¬ holds w isDecimal x = true :=
    fun x hx => false_of_holds (fun _ => not_isDecimal_of_isPhoneSeparator) hx
  obtain rfl := h.area.unique h'.area
  obtain rfl := h.separator.unique hdigit h'.separator (h.exchange.digit (Nat.le_refl _) (by omega))
    (h'.exchange.digit (Nat.le_refl _) (by omega))
  exact h.separator'.unique hdigit h'.separator' (h.line _ (Nat.le_refl _) (by omega))
    (h'.line _ (Nat.le_refl _) (by omega))

/-! ### A phone number inside another -/

theorem CountryAt.cases (h : CountryAt w i a) :
    (holds w (fun char => char = '+') i = true) ∨
      (holds w (fun char => char = '1') i = true ∧ SeparatorAt w (i + 1) a) ∨ a = i := by
  rcases h with rfl | ⟨k, rfl | ⟨rfl, hplus⟩, hone, hseparator⟩
  · exact Or.inr (Or.inr rfl)
  · exact Or.inr (Or.inl ⟨hone, hseparator⟩)
  · exact Or.inl hplus

theorem PhoneParts.start (h : PhoneParts w i a b c d) : PhoneStart w i := by
  have hone : holds w (fun char => char = '1') i = true → holds w isDecimal i = true :=
    holds_mono fun char hchar => by rw [of_decide_eq_true hchar]; decide
  rcases h.country.cases with hplus | ⟨hcode, -⟩ | rfl
  · exact Or.inl hplus
  · exact Or.inr (Or.inr ⟨hone hcode, h.isolated.before⟩)
  · rcases h.area.start with hopen | hhead
    · exact Or.inr (Or.inl hopen)
    · have hdigit := holds_mono (fun _ => isDecimal_of_isBlockHead) hhead
      exact Or.inr (Or.inr ⟨hdigit, h.isolated.before⟩)

theorem not_phoneStart {p : Char → Bool} (hplus : p '+' = false) (hopen : p '(' = false)
    (hdigit : ∀ char, p char = true → isDecimal char = false) (h : holds w p x = true) :
    ¬ PhoneStart w x := by
  rintro (hstart | hstart | ⟨hstart, -⟩)
  · exact false_of_literal hplus hstart h
  · exact false_of_literal hopen hstart h
  · exact false_of_holds hdigit h hstart

/-- No number starts at a digit behind a digit. -/
theorem not_phoneStart_of_digits (h : holds w isDecimal x = true)
    (h' : holds w isDecimal (x + 1) = true) : ¬ PhoneStart w (x + 1) := by
  rintro (hstart | hstart | ⟨-, hbefore⟩)
  · exact false_of_literal (by decide) hstart h'
  · exact false_of_literal (by decide) hstart h'
  · exact Bool.false_ne_true (hbefore.symm.trans h)

theorem not_phoneStart_of_separator (h : holds w isPhoneSeparator x = true) : ¬ PhoneStart w x :=
  not_phoneStart (by decide) (by decide) (fun _ => not_isDecimal_of_isPhoneSeparator) h

theorem not_isDecimal_of_isSpace {char : Char} (h : isSpace char = true) : isDecimal char = false :=
  not_isDecimal_of_isPhoneSeparator (decide_eq_true (Or.inl h))

theorem not_phoneStart_of_space (h : holds w isSpace x = true) : ¬ PhoneStart w x :=
  not_phoneStart (by decide) (by decide) (fun _ => not_isDecimal_of_isSpace) h

/-- In a block a number starts at its first digit or not at all. -/
theorem BlockAt.start_eq (h : BlockAt w i) (hix : i ≤ x) (hxi : x < i + 3) (hs : PhoneStart w x) :
    x = i := by
  by_contra hne
  obtain ⟨y, rfl⟩ : ∃ y, x = y + 1 := ⟨x - 1, by omega⟩
  exact not_phoneStart_of_digits (h.digit (by omega) (by omega)) (h.digit hix hxi) hs

theorem SeparatorAt.not_start (h : SeparatorAt w i j) (hix : i ≤ x) (hxj : x < j) :
    ¬ PhoneStart w x := by
  rcases h with rfl | ⟨rfl, hseparator⟩
  · omega
  · obtain rfl : x = i := by omega
    exact not_phoneStart_of_separator hseparator

/-- Inside an area code in parentheses a number starts at the block, and finds no exchange. -/
theorem AreaAt.inner_start (h : AreaAt w a b) (hax : a < x) (hxb : x < b) (hs : PhoneStart w x) :
    BlockAt w x ∧ ∀ y, SeparatorAt w (x + 3) y → ¬ holds w isDecimal y = true := by
  rcases h with ⟨rfl, hblock⟩ | ⟨k, l, hopen, hbefore, hblock, hafter, hclose, rfl⟩
  · exact absurd (hblock.start_eq (by omega) hxb hs) (by omega)
  by_cases hlow : x < k
  · exact absurd hs (not_phoneStart_of_space (hbefore.2 x (by omega) hlow))
  by_cases hmid : x < k + 3
  · obtain rfl := hblock.start_eq (by omega) hmid hs
    refine ⟨hblock, fun y hy hdigit => ?_⟩
    -- behind the block there are blanks up to the parenthesis
    have hrest : ∀ z, x + 3 ≤ z → z ≤ l → ¬ holds w isDecimal z = true := by
      intro z hxz hzl hz
      obtain rfl | hlt := Nat.eq_or_lt_of_le hzl
      · exact false_of_literal (by decide) hclose hz
      · exact false_of_holds (fun _ => not_isDecimal_of_isSpace) (hafter.2 z hxz hlt) hz
    rcases hy with rfl | ⟨rfl, hseparator⟩
    · exact hrest _ (Nat.le_refl _) hafter.1 hdigit
    · obtain hl | hlt := Nat.eq_or_lt_of_le hafter.1
      · exact false_of_literal (by decide) (hl ▸ hclose) hseparator
      · exact hrest _ (by omega) hlt hdigit
  by_cases hhigh : x < l
  · exact absurd hs (not_phoneStart_of_space (hafter.2 x (by omega) hhigh))
  · obtain rfl : x = l := by omega
    exact absurd hs (not_phoneStart (p := fun char => char = ')') (by decide) (by decide)
      (fun char hchar => by rw [of_decide_eq_true hchar]; decide) hclose)

theorem CountryAt.unique {a' : Nat} (h : CountryAt w i a) (h' : CountryAt w i a')
    (ha : AreaStart w a) (ha' : AreaStart w a') : a = a' := by
  have hone : ∀ {y}, AreaStart w y → ¬ holds w (fun char => char = '1') y = true :=
    fun hy => hy.not_literal (by decide) (by decide)
  have hplus : ∀ {y}, AreaStart w y → ¬ holds w (fun char => char = '+') y = true :=
    fun hy => hy.not_literal (by decide) (by decide)
  rcases h with rfl | ⟨k, rfl | ⟨rfl, hk⟩, hcode, hsep⟩ <;>
    rcases h' with rfl | ⟨k', rfl | ⟨rfl, hk'⟩, hcode', hsep'⟩
  · rfl
  · exact absurd hcode' (hone ha)
  · exact absurd hk' (hplus ha)
  · exact absurd hcode (hone ha')
  · exact hsep.unique (fun _ => not_areaStart_of_separator) hsep' ha ha'
  · exact (false_of_literal (by decide) hk' hcode).elim
  · exact absurd hk (hplus ha')
  · exact (false_of_literal (by decide) hk hcode').elim
  · exact hsep.unique (fun _ => not_areaStart_of_separator) hsep' ha ha'

theorem AreaAt.block (h : AreaAt w a b) (ha : holds w isDecimal a = true) :
    b = a + 3 ∧ BlockAt w a := by
  rcases h with hblock | ⟨_, _, hopen, -⟩
  · exact hblock
  · exact (false_of_literal (by decide) hopen ha).elim

/-- Inside a phone number another starts behind its plus or at its area code, at a block that no
exchange follows, or at its exchange or line. -/
theorem PhoneParts.inner_start (h : PhoneParts w i a b c d) (hix : i < x) (hxd : x < d + 4)
    (hs : PhoneStart w x) :
    CountryAt w x a ∨ (BlockAt w x ∧ ∀ y, SeparatorAt w (x + 3) y → ¬ holds w isDecimal y = true) ∨
      x = c ∨ x = d := by
  by_cases hcountry : x < a
  · rcases h.country with rfl | ⟨k, rfl | ⟨rfl, -⟩, hone, hseparator⟩
    · omega
    · exact absurd hs (hseparator.not_start (by omega) hcountry)
    · by_cases hk : x = i + 1
      · exact Or.inl (Or.inr ⟨x, Or.inl rfl, hk ▸ hone, hk ▸ hseparator⟩)
      · exact absurd hs (hseparator.not_start (by omega) hcountry)
  by_cases ha : x = a
  · exact Or.inl (Or.inl ha.symm)
  by_cases harea : x < b
  · exact Or.inr (Or.inl (h.area.inner_start (by omega) harea hs))
  by_cases hseparator : x < c
  · exact absurd hs (h.separator.not_start (by omega) hseparator)
  by_cases hexchange : x < c + 3
  · exact Or.inr (Or.inr (Or.inl (h.exchange.start_eq (by omega) hexchange hs)))
  by_cases hseparator' : x < d
  · exact absurd hs (h.separator'.not_start (by omega) hseparator')
  · refine Or.inr (Or.inr (Or.inr ?_))
    by_contra hd
    obtain ⟨y, rfl⟩ : ∃ y, x = y + 1 := ⟨x - 1, by omega⟩
    exact not_phoneStart_of_digits (h.line _ (by omega) (by omega)) (h.line _ (by omega) hxd) hs

theorem SeparatorAt.eq_of_digit {y : Nat} (h : SeparatorAt w x y)
    (hx : holds w isDecimal x = true) : y = x := by
  rcases h with rfl | ⟨-, hseparator⟩
  · rfl
  · exact (false_of_holds (fun _ => not_isDecimal_of_isPhoneSeparator) hseparator hx).elim

/-- **Of two phone numbers that overlap** both end at one place, or the second starts in the last
four digits of the first, and the first of these is its country code. -/
theorem PhoneParts.overlap {i' a' b' c' d' : Nat} (h : PhoneParts w i a b c d)
    (h' : PhoneParts w i' a' b' c' d') (hlt : i < i') (hin : i' < d + 4) :
    d' = d ∨ i' = d ∧ holds w (fun char => char = '1') i' = true := by
  have hafter : ∀ {x}, holds w isDecimal x = true → x ≠ d + 4 := by
    rintro x hx rfl
    exact h.isolated.not_held_after hx
  -- a second number that starts with a block has it as its area code
  have hblock : BlockAt w i' → a' = i' ∧ b' = i' + 3 := fun hblock => by
    obtain rfl := h'.country.unique (Or.inl rfl) h'.area.start (Or.inr hblock.head)
    exact ⟨rfl, (h'.area.block (hblock.digit (Nat.le_refl _) (by omega))).1⟩
  rcases h.inner_start hlt hin h'.start with hcountry | ⟨hb, hnone⟩ | rfl | rfl
  · obtain rfl := hcountry.unique h'.country h.area.start h'.area.start
    exact Or.inl (h.line_unique h').symm
  · obtain ⟨rfl, rfl⟩ := hblock hb
    exact absurd (h'.exchange.digit (Nat.le_refl _) (by omega)) (hnone _ h'.separator)
  · -- its exchange would be three of the last four digits
    obtain ⟨rfl, rfl⟩ := hblock h.exchange
    obtain rfl := h.separator'.unique
      (P := fun x => holds w isDecimal x = true)
      (fun _ hx => false_of_holds (fun _ => not_isDecimal_of_isPhoneSeparator) hx) h'.separator
      (h.line _ (Nat.le_refl _) (by omega)) (h'.exchange.digit (Nat.le_refl _) (by omega))
    obtain rfl := h'.separator'.eq_of_digit (h.line _ (by omega) (by omega))
    exact absurd rfl (hafter (h'.line (d + 4) (by omega) (by omega)))
  · rcases h'.country.cases with hplus | ⟨hone, -⟩ | rfl
    · exact (false_of_literal (by decide) hplus (h.line _ (Nat.le_refl _) (by omega))).elim
    · exact Or.inr ⟨rfl, hone⟩
    · -- its exchange would reach behind the last four digits
      obtain ⟨rfl, -⟩ := h'.area.block (h.line _ (Nat.le_refl _) (by omega))
      obtain rfl := h'.separator.eq_of_digit (h.line _ (by omega) (by omega))
      exact absurd rfl (hafter (h'.exchange.digit (k := a' + 4) (by omega) (by omega)))

theorem SeparatorAt.le (h : SeparatorAt w i j) : i ≤ j := by
  rcases h with rfl | ⟨rfl, -⟩
  · exact Nat.le_refl _
  · exact Nat.le_succ _

theorem CountryAt.le (h : CountryAt w i j) : i ≤ j := by
  rcases h with rfl | ⟨k, hk, -, hseparator⟩
  · exact Nat.le_refl _
  · have hle := hseparator.le
    omega

theorem AreaAt.lt (h : AreaAt w i j) : i < j := by
  rcases h with ⟨rfl, -⟩ | ⟨k, l, -, hbefore, -, hafter, -, rfl⟩
  · omega
  · omega

theorem PhoneAt.lt (h : PhoneAt w i j) : i < j := by
  obtain ⟨a, b, c, d, h, rfl⟩ := h
  have hcountry := h.country.le
  have harea := h.area.lt
  have hseparator := h.separator.le
  have hseparator' := h.separator'.le
  omega

theorem PhoneAt.stop_unique {j' : Nat} (h : PhoneAt w i j) (h' : PhoneAt w i j') : j = j' := by
  obtain ⟨a, b, c, d, h, rfl⟩ := h
  obtain ⟨a', b', c', d', h', rfl⟩ := h'
  obtain rfl := h.country.unique h'.country h.area.start h'.area.start
  rw [h.line_unique h']

/-- **Where a phone number starts inside another**, it ends where that one ends, or starts with a
country code in its last four digits. -/
theorem PhoneAt.overlap {i' j' : Nat} (h : PhoneAt w i j) (h' : PhoneAt w i' j') (hlt : i < i')
    (hin : i' < j) : j' = j ∨ i' + 4 = j ∧ holds w (fun char => char = '1') i' = true := by
  obtain ⟨a, b, c, d, h, rfl⟩ := h
  obtain ⟨a', b', c', d', h', rfl⟩ := h'
  rcases h.overlap h' hlt hin with rfl | ⟨rfl, hone⟩
  · exact Or.inl rfl
  · exact Or.inr ⟨rfl, hone⟩

end Phones

/-! ### What the scan lists -/

/-- The spans stand in increasing order, disjoint, at positions of the shape; a position that is
not among them starts inside one of them, and `Hidden` says how. -/
structure Covers (spans : List CandidateSpan) (P : Nat → Nat → Prop)
    (Hidden : CandidateSpan → Nat → Nat → Prop) : Prop where
  ordered : spans.Pairwise fun s s' => s.stop ≤ s'.start
  sound : ∀ s ∈ spans, P s.start s.stop
  complete : ∀ i j, P i j → (∃ s ∈ spans, s.start = i ∧ s.stop = j) ∨
    ∃ s ∈ spans, (s.start < i ∧ i < s.stop) ∧ Hidden s i j

/-- A match with one end is listed or starts inside one that is. -/
theorem listed_or_swallowed {w : List Char} {p : Pattern Char}
    (hadvance : ∀ i j, Matched w p i j → i < j)
    (hstop : ∀ i j j', Matched w p i j → Matched w p i j' → j = j') {i j : Nat}
    (h : Matched w p i j) : (i, j) ∈ Regex.finditer w p ∨
      ∃ a b, (a, b) ∈ Regex.finditer w p ∧ Matched w p a b ∧ a < i ∧ i < b := by
  have hij := hadvance i j h
  have hlength := h.bounds.2 hij
  rcases mem_finditer_or_swallowed ((hit_iff_of_unique (hstop i)).mpr h) (by omega) with
    hmem | ⟨⟨a, b⟩, hmem, hai, hib⟩
  · exact Or.inl hmem
  · exact Or.inr ⟨a, b, hmem, (hit_of_mem_finditer hmem).matches, hai, hib⟩

/-- **A scan of matches with one end covers what its validator accepts**, if it accepts every
match that one it accepts starts in. -/
theorem covers_detectMatches {page : PageModel} {p : Pattern Char} {category : String}
    {confidence : ℚ} {validate : PageModel → Match → Bool} {P : Nat → Nat → Prop}
    (Hidden : Nat → Nat → Nat → Nat → Prop)
    (hadvance : ∀ i j, Matched page.text.toList p i j → i < j)
    (hstop : ∀ i j j', Matched page.text.toList p i j → Matched page.text.toList p i j' → j = j')
    (hP : ∀ i j, P i j ↔ Matched page.text.toList p i j ∧ validate page ⟨i, j⟩ = true)
    (hhidden : ∀ a b i j, Matched page.text.toList p a b → P i j → a < i → i < b →
      validate page ⟨a, b⟩ = true ∧ Hidden a b i j) :
    Covers (detectMatches page ⟨finditer p, category, confidence, some validate⟩) P
      fun s i j => Hidden s.start s.stop i j where
  ordered := by
    have hhits : (finditer p page.text).Pairwise fun hit hit' => hit.stop ≤ hit'.start :=
      List.pairwise_map.mpr finditer_pairwise
    exact List.pairwise_map.mpr (hhits.filter _)
  sound := by
    intro s hs
    obtain ⟨hmem, hvalid⟩ := mem_detectMatches_iff.mp ⟨s, hs, rfl, rfl⟩
    exact (hP _ _).mpr ⟨(hit_of_mem_finditer hmem).matches, hvalid⟩
  complete := by
    intro i j hij
    obtain ⟨hmatched, hvalid⟩ := (hP i j).mp hij
    rcases listed_or_swallowed hadvance hstop hmatched with hmem | ⟨a, b, hmem, hab, hai, hib⟩
    · exact Or.inl (mem_detectMatches_iff.mpr ⟨hmem, hvalid⟩)
    · obtain ⟨hvalid', hhides⟩ := hhidden a b i j hab hij hai hib
      obtain ⟨s, hs, rfl, rfl⟩ := mem_detectMatches_iff.mpr ⟨hmem, hvalid'⟩
      exact Or.inr ⟨s, hs, ⟨hai, hib⟩, hhides⟩

theorem detectMatches_none (page : PageModel) (finditer : String → List Match) (category : String)
    (confidence : ℚ) : detectMatches page ⟨finditer, category, confidence, none⟩ =
      detectMatches page ⟨finditer, category, confidence, some fun _ _ => true⟩ := rfl

theorem isDateChar_of_dateAt {w : List Char} {a b k : Nat} (h : DateAt w a b) (hak : a ≤ k)
    (hkb : k < b) : holds w isDateChar k = true := by
  rcases h.digit_or_separator hak hkb with hdigit | hseparator
  · exact holds_mono (fun _ hchar => by rw [isDateChar, hchar, Bool.true_or]) hdigit
  · exact holds_mono (fun _ hchar => by rw [isDateChar, hchar, Bool.or_true]) hseparator

/-- **The detectors of shapes that overlap miss nothing that stands alone.**  On every page the
dates behind a keyword and the phone numbers are listed, in increasing order and disjoint.  What is
not listed starts inside a listed span: a date behind a number and a separator of it, and a phone
number ends with the listed one, or has its country code in the last four digits of it. -/
theorem overlapping_shape_detectors_cover (casefold : String → String) (fold : Char → List Char)
    (hfold : FoldsEach casefold fold) (hkeep : ∀ char, isDateChar char = true → fold char = [char])
    (page : PageModel) :
    Covers (detectDob casefold page)
        (fun i j => DateAt page.text.toList i j ∧ hasDobAnchor casefold page.text i = true)
        (fun _ i _ => Chained page.text.toList i) ∧
      Covers (detectPhone page) (PhoneAt page.text.toList) fun s i j =>
        j = s.stop ∨ i + 4 = s.stop ∧ holds page.text.toList (fun char => char = '1') i = true := by
  constructor
  · refine covers_detectMatches (fun _ _ i _ => Chained page.text.toList i) ?_ ?_ ?_ ?_
    · exact fun i j h => (matched_dateRe_iff.mp h).lt
    · exact fun i j j' h h' => (matched_dateRe_iff.mp h).stop_unique (matched_dateRe_iff.mp h')
    · exact fun i j => and_congr_left fun _ => matched_dateRe_iff.symm
    · rintro a b i j hab ⟨hij, hanchor⟩ hai hib
      have hdate := matched_dateRe_iff.mp hab
      have hlength := hab.bounds.2 hdate.lt
      refine ⟨hasDobAnchor_earlier hfold hkeep (Nat.le_of_lt hai) (by omega) ?_ hanchor,
        hdate.chained hij hai hib⟩
      exact fun k hak hki => isDateChar_of_dateAt hdate hak (by omega)
  · rw [detectPhone, detectMatches_none]
    refine covers_detectMatches (fun _ b i j =>
      j = b ∨ i + 4 = b ∧ holds page.text.toList (fun char => char = '1') i = true) ?_ ?_ ?_ ?_
    · exact fun i j h => (matched_phoneRe_iff.mp h).lt
    · exact fun i j j' h h' => (matched_phoneRe_iff.mp h).stop_unique (matched_phoneRe_iff.mp h')
    · intro i j
      rw [matched_phoneRe_iff]
      exact (and_iff_left rfl).symm
    · intro a b i j hab hij hai hib
      exact ⟨rfl, (matched_phoneRe_iff.mp hab).overlap hij hai hib⟩

/-- A date has no letter that folding could change. -/
theorem toLower_of_isDateChar {char : Char} (h : isDateChar char = true) : char.toLower = char := by
  have hupper : ∀ n < 26, isDateChar (Char.ofNat (65 + n)) = false := by decide +kernel
  unfold Char.toLower
  split
  · rename_i hrange
    obtain ⟨hlow, hhigh⟩ := hrange
    have hlow' : 65 ≤ char.toNat := hlow
    have hhigh' : char.toNat ≤ 90 := hhigh
    have hnot := hupper (char.toNat - 65) (by omega)
    rw [Nat.add_sub_cancel' hlow', Char.ofNat_toNat, h] at hnot
    cases hnot
  · rfl

/-- The second date is chained to the first, and the second number starts with its country code. -/
def overlappingPage : PageModel :=
  { blankPage with text := "DOB 1/2/34-5-6789, 212-555-1212.222.2222" }

example : (detectDob foldAscii overlappingPage).map (fun s => (s.start, s.stop)) = [(4, 10)] ∧
    (detectPhone overlappingPage).map (fun s => (s.start, s.stop)) = [(19, 31)] := by decide

theorem overlapping_shape_detectors_cover_hidden :
    Covers (detectDob foldAscii overlappingPage)
        (fun i j => DateAt overlappingPage.text.toList i j ∧
          hasDobAnchor foldAscii overlappingPage.text i = true)
        (fun _ i _ => Chained overlappingPage.text.toList i) ∧
      Covers (detectPhone overlappingPage) (PhoneAt overlappingPage.text.toList) fun s i j =>
        j = s.stop ∨ i + 4 = s.stop ∧
          holds overlappingPage.text.toList (fun char => char = '1') i = true :=
  overlapping_shape_detectors_cover foldAscii (fun c => [c.toLower]) foldAscii_foldsEach
    (fun _ hchar => congrArg (fun char => [char]) (toLower_of_isDateChar hchar)) overlappingPage

end RedactApi
