import RedactApi.Detection.Tier1
import RedactApi.Luhn

/-!
# The check of account numbers

`_luhn_check` walks from the left and lets the parity of the length say which digits
to double.  Over any string of decimal digits it is the Luhn test from the right
(`luhnCheck_eq`), so it notices what that test notices.
-/

namespace RedactApi

/-- The values of a digit string, from the left; `none` when a character is no digit. -/
def digitValues (digits : List Char) : Option (List Nat) := digits.mapM digitValue

theorem digitValues_cons {char : Char} {digits : List Char} {values : List Nat} :
    digitValues (char :: digits) = some values
      ↔ ∃ value, digitValue char = some value ∧
          ∃ rest, digitValues digits = some rest ∧ value :: rest = values := by
  simp [digitValues, List.mapM_cons, Option.bind_eq_some_iff]

theorem digitValues_append {left right : List Char} {values : List Nat} :
    digitValues (left ++ right) = some values
      ↔ ∃ l, digitValues left = some l ∧ ∃ r, digitValues right = some r ∧ l ++ r = values := by
  simp [digitValues, List.mapM_append, Option.bind_eq_some_iff]

theorem length_digitValues {digits : List Char} {values : List Nat}
    (h : digitValues digits = some values) : values.length = digits.length := by
  induction digits generalizing values with
  | nil =>
    obtain rfl : [] = values := by simpa [digitValues] using h
    rfl
  | cons char digits ih =>
    obtain ⟨value, -, rest, hrest, rfl⟩ := digitValues_cons.mp h
    rw [List.length_cons, List.length_cons, ih hrest]

/-- What the loop adds for one digit: doubled and with two digits, a number is `9` above
its digit sum. -/
theorem luhnTerm_eq {parity index place value : Nat} (hvalue : value < 10)
    (hplace : index % 2 = parity ↔ place % 2 = 1) :
    luhnTerm parity index value = Luhn.weight place value := by
  unfold luhnTerm Luhn.weight
  by_cases hparity : index % 2 = parity
  · rw [if_pos hparity, if_pos (hplace.mp hparity)]
    dsimp only
    split <;> omega
  · rw [if_neg hparity, if_neg fun h => hparity (hplace.mpr h)]

/-- The loop from `index` on adds what the rest of the string counts from the right. -/
theorem luhnLoop_eq {digits : List Char} {values : List Nat} {parity index total : Nat}
    (hvalues : digitValues digits = some values) (hparity : (index + digits.length) % 2 = parity) :
    (digits.zipIdx index).foldlM (fun total item => luhnStep parity total item.1 item.2) total
      = some (total + Luhn.weighted 0 values.reverse) := by
  induction digits generalizing values index total with
  | nil =>
    obtain rfl : [] = values := by simpa [digitValues] using hvalues
    simp
  | cons char digits ih =>
    obtain ⟨value, hvalue, rest, hrest, rfl⟩ := digitValues_cons.mp hvalues
    have hlength : rest.length = digits.length := length_digitValues hrest
    rw [List.length_cons] at hparity
    have hterm : luhnTerm parity index value = Luhn.weight rest.length value :=
      luhnTerm_eq (digitValue_lt hvalue) (by omega)
    have hstep : luhnStep parity total char index
        = some (total + Luhn.weight rest.length value) := by
      rw [← hterm]
      simp [luhnStep, hvalue]
    rw [List.zipIdx_cons, List.foldlM_cons, hstep, Luhn.weighted_reverse_cons]
    rw [Option.bind_eq_bind, Option.bind_some, ih hrest (by omega)]
    congr 1
    omega

/-- **The parity switch is the Luhn test.** -/
theorem luhnCheck_eq {digits : List Char} {values : List Nat}
    (h : digitValues digits = some values) :
    luhnCheck (String.ofList digits) = some (decide (Luhn.Valid values)) := by
  have hloop := @luhnLoop_eq digits values (digits.length % 2) 0 0 h (by rw [Nat.zero_add])
  unfold luhnCheck
  dsimp only
  rw [String.toList_ofList, String.length_ofList, hloop, Nat.zero_add]
  exact congrArg some (decide_eq_decide.mpr Iff.rfl)

theorem luhnCheck_eq_true_iff {digits : List Char} {values : List Nat}
    (h : digitValues digits = some values) :
    luhnCheck (String.ofList digits) = some true ↔ Luhn.Valid values := by
  rw [luhnCheck_eq h]
  simp

theorem luhnCheck_eq_false {digits : List Char} {values : List Nat}
    (h : digitValues digits = some values) (hinvalid : ¬ Luhn.Valid values) :
    luhnCheck (String.ofList digits) = some false := by
  rw [luhnCheck_eq h, decide_eq_false hinvalid]

section Surroundings

variable {left right : List Char} {l r : List Nat}

theorem digitValues_middle (hleft : digitValues left = some l) (hright : digitValues right = some r)
    {middle : List Char} {m : List Nat} (hmiddle : digitValues middle = some m) :
    digitValues (left ++ middle ++ right) = some (l ++ m ++ r) :=
  digitValues_append.mpr
    ⟨l ++ m, digitValues_append.mpr ⟨l, hleft, m, hmiddle, rfl⟩, r, hright, rfl⟩

theorem digitValues_singleton {char : Char} {value : Nat} (h : digitValue char = some value) :
    digitValues [char] = some [value] :=
  digitValues_cons.mpr ⟨value, h, [], rfl, rfl⟩

theorem digitValues_pair {char next : Char} {v w : Nat} (h : digitValue char = some v)
    (hnext : digitValue next = some w) : digitValues [char, next] = some [v, w] :=
  digitValues_cons.mpr ⟨v, h, [w], digitValues_singleton hnext, rfl⟩

theorem exists_digitValues {middle : List Char} {values : List Nat}
    (h : digitValues (left ++ middle ++ right) = some values) :
    ∃ l r, digitValues left = some l ∧ digitValues right = some r := by
  obtain ⟨_, hstart, r, hright, -⟩ := digitValues_append.mp h
  obtain ⟨l, hleft, -⟩ := digitValues_append.mp hstart
  exact ⟨l, r, hleft, hright⟩

end Surroundings

/-- **What the check of a digit string says and notices.**  It is the Luhn test; a string
it accepts is rejected with one digit changed, and with two different neighbours swapped
unless they are `0` and `9`; and one check digit completes any digit string. -/
theorem luhnCheck_detects (digits : List Char) (values : List Nat)
    (h : digitValues digits = some values) :
    luhnCheck (String.ofList digits) = some (decide (Luhn.Valid values)) ∧
      (luhnCheck (String.ofList digits) = some true →
        (∀ left char right other v w, digits = left ++ [char] ++ right →
          digitValue char = some v → digitValue other = some w → v ≠ w →
            luhnCheck (String.ofList (left ++ [other] ++ right)) = some false) ∧
        (∀ left char next right v w, digits = left ++ [char, next] ++ right →
          digitValue char = some v → digitValue next = some w → v ≠ w →
          ¬ (v = 0 ∧ w = 9 ∨ v = 9 ∧ w = 0) →
            luhnCheck (String.ofList (left ++ [next, char] ++ right)) = some false)) ∧
      ∃! check, check < 10 ∧ ∀ char value, digitValue char = some value →
        (luhnCheck (String.ofList (digits ++ [char])) = some true ↔ value = check) := by
  refine ⟨luhnCheck_eq h, fun haccepted => ⟨?_, ?_⟩, ?_⟩
  · intro left char right other v w hdigits hchar hother hne
    subst hdigits
    obtain ⟨l, r, hleft, hright⟩ := exists_digitValues h
    have hbefore := digitValues_middle hleft hright (digitValues_singleton hchar)
    have hafter := digitValues_middle hleft hright (digitValues_singleton hother)
    have hvalid := (luhnCheck_eq_true_iff hbefore).mp haccepted
    exact luhnCheck_eq_false hafter
      (Luhn.not_valid_of_changed (digitValue_lt hchar) (digitValue_lt hother) hne hvalid)
  · intro left char next right v w hdigits hchar hnext hne hpair
    subst hdigits
    obtain ⟨l, r, hleft, hright⟩ := exists_digitValues h
    have hbefore := digitValues_middle hleft hright (digitValues_pair hchar hnext)
    have hafter := digitValues_middle hleft hright (digitValues_pair hnext hchar)
    have hvalid := (luhnCheck_eq_true_iff hbefore).mp haccepted
    exact luhnCheck_eq_false hafter
      (Luhn.not_valid_of_swapped (digitValue_lt hchar) (digitValue_lt hnext) hne hpair hvalid)
  · have hcheck : ∀ char value, digitValue char = some value →
        (luhnCheck (String.ofList (digits ++ [char])) = some true
          ↔ value = (10 - Luhn.weighted 1 values.reverse % 10) % 10) := by
      intro char value hchar
      have hall : digitValues (digits ++ [char]) = some (values ++ [value]) :=
        digitValues_append.mpr ⟨values, h, [value], digitValues_singleton hchar, rfl⟩
      rw [luhnCheck_eq_true_iff hall, Luhn.valid_append_iff (digitValue_lt hchar)]
    refine ⟨_, ⟨Nat.mod_lt _ (by omega), hcheck⟩, ?_⟩
    rintro check ⟨hlt, hunique⟩
    obtain ⟨char, hchar⟩ := exists_digitValue_eq hlt
    exact (hcheck char check hchar).mp ((hunique char check hchar).mpr rfl)

/-- A sixteen-digit number with Arabic-Indic digits in the middle. -/
theorem luhnCheck_detects_card :
    luhnCheck "4539٥٧٨٧63621486" = some true ∧
      luhnCheck "4539٥٧٧٨63621486" = some false ∧
      ∃! check, check < 10 ∧ ∀ char value, digitValue char = some value →
        (luhnCheck (String.ofList ("4539٥٧٨٧6362148".toList ++ [char])) = some true ↔ value = check) := by
  have hcard := luhnCheck_detects "4539٥٧٨٧63621486".toList
    [4, 5, 3, 9, 5, 7, 8, 7, 6, 3, 6, 2, 1, 4, 8, 6] (by decide)
  have haccepted : luhnCheck "4539٥٧٨٧63621486" = some true := hcard.1.trans (by decide)
  have hswapped := (hcard.2.1 haccepted).2 "4539٥٧".toList '٨' '٧' "63621486".toList 8 7
    (by decide) (by decide) (by decide) (by decide) (by decide)
  have hcheck := (luhnCheck_detects "4539٥٧٨٧6362148".toList
    [4, 5, 3, 9, 5, 7, 8, 7, 6, 3, 6, 2, 1, 4, 8] (by decide)).2.2
  exact ⟨haccepted, hswapped, hcheck⟩

end RedactApi
