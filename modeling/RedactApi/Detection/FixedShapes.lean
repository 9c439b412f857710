import RedactApi.Detection.Luhn

/-!
# Detectors of fixed shapes

Social security numbers, account numbers and licence plates leave the engine no choice of
where to stop, and a look-around keeps the next candidate out of the last (`Rigid`).  So
the scan from the left finds every candidate, whatever the validator says of its
neighbours, and the spans are the positions that the shapes describe (`Lists`).
-/

namespace RedactApi

open Regex

/-! ### Rigid patterns -/

/-- Matches advance, stop at one place, and never overlap. -/
structure Rigid (w : List Char) (p : Pattern Char) : Prop where
  advance : ∀ i j, Matched w p i j → i < j
  stop : ∀ i j j', Matched w p i j → Matched w p i j' → j = j'
  disjoint : ∀ i j, Matched w p i j → ∀ i' j', Matched w p i' j' → i < i' → j ≤ i'

/-- The spans stand in increasing order, disjoint, at exactly these positions. -/
structure Lists (spans : List CandidateSpan) (P : Nat → Nat → Prop) : Prop where
  ordered : spans.Pairwise fun s s' => s.stop ≤ s'.start
  nonempty : ∀ s ∈ spans, s.start < s.stop
  exact : ∀ i j, (∃ s ∈ spans, s.start = i ∧ s.stop = j) ↔ P i j

theorem Rigid.mem_finditer_iff {w : List Char} {p : Pattern Char} (h : Rigid w p) {i j : Nat} :
    (i, j) ∈ Regex.finditer w p ↔ Matched w p i j := by
  have hhit : ∀ a b, Hit w p a b ↔ Matched w p a b := fun a b => hit_iff_of_unique (h.stop a)
  rw [Regex.mem_finditer_iff _ fun a b hab => h.advance a b hab.matches, hhit]
  intro a b hab a' b' hab'
  exact h.disjoint a b hab.matches a' b' hab'.matches

/-- **A rigid pattern hides no candidate.** -/
theorem Rigid.lists {page : PageModel} {p : Pattern Char} (h : Rigid page.text.toList p)
    (category : String) (confidence : ℚ) (validate : PageModel → Match → Bool) :
    Lists (detectMatches page ⟨finditer p, category, confidence, some validate⟩) fun i j =>
      Matched page.text.toList p i j ∧ validate page ⟨i, j⟩ = true where
  ordered := by
    have hhits : (finditer p page.text).Pairwise fun hit hit' => hit.stop ≤ hit'.start :=
      List.pairwise_map.mpr finditer_pairwise
    exact List.pairwise_map.mpr (hhits.filter _)
  nonempty := by
    intro s hs
    exact h.advance _ _ (h.mem_finditer_iff.mp (mem_detectMatches_iff.mp ⟨s, hs, rfl, rfl⟩).1)
  exact := by
    intro i j
    rw [mem_detectMatches_iff, h.mem_finditer_iff]

/-- Neither the character before the range nor the one after it is in the class. -/
structure Isolated (text : List Char) (c : Char → Bool) (i j : Nat) : Prop where
  before : heldBefore text c i = false
  after : holds text c j = false

section Patterns

variable {w : List Char} {c d : Char → Bool} {p : Pattern Char} {i j : Nat}

theorem matched_isolated_iff : Matched w (isolated c p) i j ↔ Isolated w c i j ∧ Matched w p i j := by
  constructor
  · rintro ⟨_, ⟨hbefore, rfl⟩, _, hp, hafter, rfl⟩
    exact ⟨⟨hbefore, hafter⟩, hp⟩
  · rintro ⟨h, hp⟩
    exact ⟨i, ⟨h.before, rfl⟩, j, hp, h.after, rfl⟩

theorem Isolated.not_held_before (h : Isolated w c i j) {k : Nat} (hk : k + 1 = i) :
    ¬ holds w c k = true := by
  subst hk
  exact fun hheld => Bool.false_ne_true (h.before.symm.trans hheld)

theorem Isolated.not_held_after (h : Isolated w c i j) : ¬ holds w c j = true :=
  fun hheld => Bool.false_ne_true (h.after.symm.trans hheld)

/-- The run of a class that is shut in by a wider class is rigid. -/
theorem rigid_isolated_run (hcd : ∀ a, c a = true → d a = true) {least : Nat} {most : Option Nat}
    (hleast : 0 < least) : Rigid w (isolated d (.rep (.one c) least most)) := by
  have hinside : ∀ {i j k}, Matched w (isolated d (.rep (.one c) least most)) i j →
      i ≤ k → k < j → holds w d k = true := fun h hik hkj =>
    holds_mono hcd ((matched_run_iff.mp (matched_isolated_iff.mp h).2).2.2 _ hik hkj)
  have hadvance : ∀ i j, Matched w (isolated d (.rep (.one c) least most)) i j → i < j := by
    intro i j h
    have hlong := (matched_run_iff.mp (matched_isolated_iff.mp h).2).1
    omega
  refine ⟨hadvance, fun i j j' h h' => ?_, fun i j h i' j' h' hlt => ?_⟩
  · by_contra hne
    obtain hjj | hjj := Nat.lt_or_gt_of_ne hne
    · exact (matched_isolated_iff.mp h).1.not_held_after
        (hinside h' (Nat.le_of_lt (hadvance i j h)) hjj)
    · exact (matched_isolated_iff.mp h').1.not_held_after
        (hinside h (Nat.le_of_lt (hadvance i j' h')) hjj)
  · by_contra hle
    have hin := hinside h (k := i' - 1) (by omega) (by omega)
    exact (matched_isolated_iff.mp h').1.not_held_before (by omega) hin

end Patterns

/-! ### Numbers -/

theorem parseInt_isSome_iff {part : List Char} :
    (∃ n, parseInt part = some n) ↔ part ≠ [] ∧ ∀ char ∈ part, isDecimal char = true := by
  have hfold : ∀ (part : List Char) (value : Nat),
      (∃ n, part.foldlM (fun value char => (digitValue char).map (10 * value + ·)) value = some n) ↔
        ∀ char ∈ part, isDecimal char = true := by
    intro part
    induction part with
    | nil => simp
    | cons char part ih =>
      intro value
      rw [List.foldlM_cons, List.forall_mem_cons, isDecimal]
      cases hdigit : digitValue char with
      | none => simp
      | some digit => simpa using ih (10 * value + digit)
  unfold parseInt
  split
  · simp [*]
  · simp [*]

/-- `int` of the three parts of a dashed number. -/
theorem validateSsn_eq {area group serial : List Char} {a g s : Nat} (harea : parseInt area = some a)
    (hgroup : parseInt group = some g) (hserial : parseInt serial = some s) :
    validateSsn (String.ofList (area ++ '-' :: (group ++ '-' :: serial))) =
      some (isValidSsn a g s) := by
  have hdash : ∀ {part n}, parseInt part = some n → '-' ∉ part := by
    intro part n hpart hmem
    exact absurd ((parseInt_isSome_iff.mp ⟨n, hpart⟩).2 '-' hmem) (by decide)
  have hsplit : (area ++ '-' :: (group ++ '-' :: serial)).splitOn '-' = [area, group, serial] := by
    rw [List.splitOn_append_cons_self, List.splitOn_append_cons_self,
      List.splitOn_eq_singleton (hdash harea), List.splitOn_eq_singleton (hdash hgroup),
      List.splitOn_eq_singleton (hdash hserial)]
    rfl
  rw [validateSsn, String.toList_ofList, hsplit]
  simp [harea, hgroup, hserial]

theorem isValidSsn_iff {area group serial : Nat} :
    isValidSsn area group serial = true ↔
      (area ≠ 0 ∧ area ≠ 666 ∧ area ≤ 899) ∧ group ≠ 0 ∧ serial ≠ 0 := by
  unfold isValidSsn
  by_cases hinvalid : area ∈ ssnInvalidAreas ∨ area > ssnMaxArea
  · rw [if_pos hinvalid]
    simp only [ssnInvalidAreas, ssnMaxArea, List.mem_cons, List.not_mem_nil, or_false] at hinvalid
    exact ⟨fun h => absurd h Bool.false_ne_true, fun h => by omega⟩
  · rw [if_neg hinvalid, decide_eq_true_iff]
    simp only [ssnInvalidAreas, ssnMaxArea, List.mem_cons, List.not_mem_nil, or_false] at hinvalid
    exact ⟨fun h => ⟨by omega, h⟩, fun h => h.2⟩

/-! ### Social security numbers -/

/-- `ddd-dd-dddd` with no digit at either side and a number that may be assigned. -/
def SsnAt (text : List Char) (i j : Nat) : Prop :=
  Isolated text isDecimal i j ∧ j ≤ text.length ∧ ∃ area group serial a g s,
    slice text i j = area ++ '-' :: (group ++ '-' :: serial) ∧
      (area.length = 3 ∧ group.length = 2 ∧ serial.length = 4) ∧
      (parseInt area = some a ∧ parseInt group = some g ∧ parseInt serial = some s) ∧
      (a ≠ 0 ∧ a ≠ 666 ∧ a ≤ 899) ∧ g ≠ 0 ∧ s ≠ 0

section Ssn

variable {w : List Char} {i j : Nat}

structure SsnParts (w : List Char) (i : Nat) : Prop where
  area : ∀ k, i ≤ k → k < i + 3 → holds w isDecimal k = true
  dash : holds w (fun b => b = '-') (i + 3) = true
  group : ∀ k, i + 4 ≤ k → k < i + 6 → holds w isDecimal k = true
  dash' : holds w (fun b => b = '-') (i + 6) = true
  serial : ∀ k, i + 7 ≤ k → k < i + 11 → holds w isDecimal k = true

theorem matched_digitRun_iff {n : Nat} : Matched w (digitRun n n) i j ↔
    j = i + n ∧ ∀ k, i ≤ k → k < i + n → holds w isDecimal k = true := by
  rw [digitRun, matched_run_iff]
  constructor
  · rintro ⟨hleast, hmost, hall⟩
    obtain rfl : j = i + n := Nat.le_antisymm (hmost n rfl) hleast
    exact ⟨rfl, hall⟩
  · rintro ⟨rfl, hall⟩
    exact ⟨Nat.le_refl _, fun m hm => by rw [Option.mem_some.mp hm], hall⟩

theorem matched_ssnRe_iff :
    Matched w ssnRe i j ↔ Isolated w isDecimal i j ∧ j = i + 11 ∧ SsnParts w i := by
  rw [ssnRe, matched_isolated_iff]
  refine and_congr_right fun _ => ?_
  simp only [Matched, matched_digitRun_iff, literal]
  constructor
  · rintro ⟨_, ⟨rfl, harea⟩, _, ⟨hdash, rfl⟩, _, ⟨rfl, hgroup⟩, _, ⟨hdash', rfl⟩, rfl, hserial⟩
    exact ⟨rfl, harea, hdash, hgroup, hdash', hserial⟩
  · rintro ⟨rfl, h⟩
    exact ⟨_, ⟨rfl, h.area⟩, _, ⟨h.dash, rfl⟩, _, ⟨rfl, h.group⟩, _, ⟨h.dash', rfl⟩, rfl, h.serial⟩

theorem not_isDecimal_of_dash {k : Nat} (h : holds w (fun b => b = '-') k = true) :
    ¬ holds w isDecimal k = true :=
  false_of_holds (fun a ha => by rw [of_decide_eq_true ha]; decide) h

/-- A second number cannot start inside the first: it would start after a dash, and then
its own first dash is a digit of the first. -/
theorem rigid_ssnRe : Rigid w ssnRe where
  advance i j h := by
    have hj := (matched_ssnRe_iff.mp h).2.1
    omega
  stop i j j' h h' := (matched_ssnRe_iff.mp h).2.1.trans (matched_ssnRe_iff.mp h').2.1.symm
  disjoint i j h i' j' h' hlt := by
    obtain ⟨-, hj, hfirst⟩ := matched_ssnRe_iff.mp h
    obtain ⟨hisolated, -, hsecond⟩ := matched_ssnRe_iff.mp h'
    by_contra hle
    have hbefore := hisolated.not_held_before (k := i' - 1) (by omega)
    have hdash := not_isDecimal_of_dash hsecond.dash
    by_cases harea : i' ≤ i + 3
    · exact hbefore (hfirst.area _ (by omega) (by omega))
    · by_cases hgroup : i' = i + 4
      · exact hdash (hfirst.serial _ (by omega) (by omega))
      · by_cases hsecondDash : i' ≤ i + 6
        · exact hbefore (hfirst.group _ (by omega) (by omega))
        · by_cases hserial : i' = i + 7
          · exact hdash (hfirst.serial _ (by omega) (by omega))
          · exact hbefore (hfirst.serial _ (by omega) (by omega))

theorem slice_eq_ssn_iff {area group serial : List Char} (harea : area.length = 3)
    (hgroup : group.length = 2) (hlength : i + 11 ≤ w.length) :
    slice w i (i + 11) = area ++ '-' :: (group ++ '-' :: serial) ↔
      slice w i (i + 3) = area ∧ slice w (i + 3) (i + 4) = ['-'] ∧ slice w (i + 4) (i + 6) = group ∧
        slice w (i + 6) (i + 7) = ['-'] ∧ slice w (i + 7) (i + 11) = serial := by
  show slice w i (i + 11) = area ++ (['-'] ++ (group ++ (['-'] ++ serial))) ↔ _
  rw [slice_eq_append_iff (by omega) hlength, harea,
    slice_eq_append_iff (by rw [List.length_singleton]; omega) hlength, List.length_singleton,
    slice_eq_append_iff (by omega) hlength, hgroup,
    slice_eq_append_iff (by rw [List.length_singleton]; omega) hlength, List.length_singleton]

theorem parseInt_slice_iff {k : Nat} (hik : i < k) (hk : k ≤ w.length) :
    (∃ n, parseInt (slice w i k) = some n) ↔
      ∀ m, i ≤ m → m < k → holds w isDecimal m = true := by
  have hne : slice w i k ≠ [] := by
    intro hnil
    have hlength := length_slice (i := i) hk
    rw [hnil, List.length_nil] at hlength
    omega
  rw [parseInt_isSome_iff, forall_mem_slice_iff hk]
  exact ⟨fun h => h.2, fun h => ⟨hne, h⟩⟩

/-- **A match whose number may be assigned.** -/
theorem matched_ssnRe_and_valid_iff :
    Matched w ssnRe i j ∧ validateSsn (String.ofList (slice w i j)) = some true ↔ SsnAt w i j := by
  rw [matched_ssnRe_iff]
  constructor
  · rintro ⟨⟨hisolated, rfl, h⟩, hvalid⟩
    have hlength : i + 11 ≤ w.length := lt_length_of_holds (h.serial (i + 10) (by omega) (by omega))
    obtain ⟨a, ha⟩ := (parseInt_slice_iff (by omega) (by omega)).mpr h.area
    obtain ⟨g, hg⟩ := (parseInt_slice_iff (by omega) (by omega)).mpr h.group
    obtain ⟨s, hs⟩ := (parseInt_slice_iff (by omega) (by omega)).mpr h.serial
    have harea : (slice w i (i + 3)).length = 3 := by rw [length_slice (by omega)]; omega
    have hgroup : (slice w (i + 4) (i + 6)).length = 2 := by rw [length_slice (by omega)]; omega
    have hserial : (slice w (i + 7) (i + 11)).length = 4 := by rw [length_slice hlength]; omega
    have hparts := (slice_eq_ssn_iff harea hgroup hlength).mpr
      ⟨rfl, slice_eq_singleton_iff.mpr h.dash, rfl, slice_eq_singleton_iff.mpr h.dash', rfl⟩
    rw [hparts, validateSsn_eq ha hg hs, Option.some.injEq, isValidSsn_iff] at hvalid
    exact ⟨hisolated, hlength, _, _, _, a, g, s, hparts, ⟨harea, hgroup, hserial⟩, ⟨ha, hg, hs⟩,
      hvalid⟩
  · rintro ⟨hisolated, hlength, area, group, serial, a, g, s, hparts, ⟨harea, hgroup, hserial⟩,
      ⟨ha, hg, hs⟩, hvalid⟩
    have hj : j = i + 11 := by
      have hcount := length_slice (i := i) hlength
      rw [hparts] at hcount
      simp only [List.length_append, List.length_cons, harea, hgroup, hserial] at hcount
      omega
    subst hj
    obtain ⟨rfl, hdash, rfl, hdash', rfl⟩ := (slice_eq_ssn_iff harea hgroup hlength).mp hparts
    refine ⟨⟨hisolated, rfl, ?_, slice_eq_singleton_iff.mp hdash, ?_,
      slice_eq_singleton_iff.mp hdash', ?_⟩, ?_⟩
    · exact (parseInt_slice_iff (by omega) (by omega)).mp ⟨a, ha⟩
    · exact (parseInt_slice_iff (by omega) (by omega)).mp ⟨g, hg⟩
    · exact (parseInt_slice_iff (by omega) (by omega)).mp ⟨s, hs⟩
    · rw [hparts, validateSsn_eq ha hg hs, Option.some.injEq, isValidSsn_iff]
      exact hvalid

end Ssn

/-! ### Account numbers and licence plates -/

structure MaximalRun (text : List Char) (c : Char → Bool) (i j : Nat) : Prop where
  nonempty : i < j
  inside : j ≤ text.length
  all : ∀ char ∈ slice text i j, c char = true
  isolated : Isolated text c i j

/-- 12 to 19 digits that pass the Luhn test. -/
def AccountAt (text : List Char) (i j : Nat) : Prop :=
  MaximalRun text isDecimal i j ∧ (12 ≤ j - i ∧ j - i ≤ 19) ∧
    ∃ values, digitValues (slice text i j) = some values ∧ Luhn.Valid values

/-- 5 to 8 letters and digits of ASCII, both kinds and no lowercase letter. -/
def PlateAt (text : List Char) (i j : Nat) : Prop :=
  MaximalRun text Char.isAlphanum i j ∧ (5 ≤ j - i ∧ j - i ≤ 8) ∧
    (∀ char ∈ slice text i j, char.isLower = false) ∧
    (∃ char ∈ slice text i j, char.isAlpha = true) ∧ ∃ char ∈ slice text i j, char.isDigit = true

section Runs

variable {w : List Char} {i j : Nat}

theorem matched_isolated_run_iff {c d : Char → Bool} {least most : Nat} (hleast : 0 < least) :
    Matched w (isolated d (.rep (.one c) least (some most))) i j ↔
      Isolated w d i j ∧ (i < j ∧ j ≤ w.length) ∧ (least ≤ j - i ∧ j - i ≤ most) ∧
        ∀ char ∈ slice w i j, c char = true := by
  rw [matched_isolated_iff, matched_run_iff]
  refine and_congr_right fun _ => ?_
  constructor
  · rintro ⟨hlong, hshort, hall⟩
    have hmost : j ≤ i + most := hshort most rfl
    have hj : j - 1 < w.length := lt_length_of_holds (hall (j - 1) (by omega) (by omega))
    exact ⟨by omega, by omega, (forall_mem_slice_iff (by omega)).mpr hall⟩
  · rintro ⟨⟨hij, hj⟩, hlong, hall⟩
    refine ⟨by omega, fun m hm => ?_, (forall_mem_slice_iff hj).mp hall⟩
    obtain rfl := Option.mem_some.mp hm
    omega

theorem digitValues_isSome_iff {digits : List Char} :
    (∃ values, digitValues digits = some values) ↔ ∀ char ∈ digits, isDecimal char = true := by
  induction digits with
  | nil => simp [digitValues]
  | cons char digits ih =>
    rw [List.forall_mem_cons, ← ih, isDecimal, Option.isSome_iff_exists]
    simp only [digitValues_cons]
    constructor
    · rintro ⟨_, value, hvalue, rest, hrest, -⟩
      exact ⟨⟨value, hvalue⟩, rest, hrest⟩
    · rintro ⟨⟨value, hvalue⟩, rest, hrest⟩
      exact ⟨_, value, hvalue, rest, hrest, rfl⟩

/-- `int` never raises in the check of a candidate, and the check is the Luhn test. -/
theorem matched_accountRe_and_valid_iff :
    Matched w accountRe i j ∧ luhnCheck (String.ofList (slice w i j)) = some true ↔
      AccountAt w i j := by
  rw [accountRe, digitRun, matched_isolated_run_iff (by decide)]
  constructor
  · rintro ⟨⟨hisolated, hinside, hlength, hall⟩, hvalid⟩
    obtain ⟨values, hvalues⟩ := digitValues_isSome_iff.mpr hall
    exact ⟨⟨hinside.1, hinside.2, hall, hisolated⟩, hlength, values, hvalues,
      (luhnCheck_eq_true_iff hvalues).mp hvalid⟩
  · rintro ⟨hrun, hlength, values, hvalues, hvalid⟩
    exact ⟨⟨hrun.isolated, ⟨hrun.nonempty, hrun.inside⟩, hlength, hrun.all⟩,
      (luhnCheck_eq_true_iff hvalues).mpr hvalid⟩

theorem isPlateChar_iff {char : Char} :
    isPlateChar char = true ↔ char.isAlphanum = true ∧ char.isLower = false := by
  unfold isPlateChar Char.isAlphanum Char.isAlpha Char.isUpper Char.isLower Char.isDigit
  grind

theorem matched_licensePlateRe_and_valid_iff :
    Matched w licensePlateRe i j ∧ isPlateShaped (String.ofList (slice w i j)) = true ↔
      PlateAt w i j := by
  rw [licensePlateRe, matched_isolated_run_iff (by decide), isPlateShaped, String.toList_ofList,
    Bool.and_eq_true, List.any_eq_true, List.any_eq_true]
  simp only [isPlateChar_iff]
  constructor
  · rintro ⟨⟨hisolated, hinside, hlength, hall⟩, hshape⟩
    exact ⟨⟨hinside.1, hinside.2, fun char hc => (hall char hc).1, hisolated⟩, hlength,
      fun char hc => (hall char hc).2, hshape⟩
  · rintro ⟨hrun, hlength, hlower, hshape⟩
    exact ⟨⟨hrun.isolated, ⟨hrun.nonempty, hrun.inside⟩, hlength,
      fun char hc => ⟨hrun.all char hc, hlower char hc⟩⟩, hshape⟩

end Runs

/-- **The detectors of fixed shapes are exact.**  On every page each of them lists, in
increasing order and disjoint, the positions its shape describes and no others. -/
theorem fixed_shape_detectors_exact (page : PageModel) :
    Lists (detectSsn page) (SsnAt page.text.toList) ∧
      Lists (detectAccountNumber page) (AccountAt page.text.toList) ∧
      Lists (detectLicensePlate page) (PlateAt page.text.toList) := by
  refine ⟨?_, ?_, ?_⟩
  · have h : Lists (detectSsn page) _ := rigid_ssnRe.lists _ _ _
    refine ⟨h.ordered, h.nonempty, fun i j => (h.exact i j).trans ?_⟩
    rw [← matched_ssnRe_and_valid_iff]
    exact and_congr_right fun _ => beq_iff_eq
  · have hrigid : Rigid page.text.toList accountRe :=
      rigid_isolated_run (fun _ hc => hc) (Nat.zero_lt_succ 11)
    have h : Lists (detectAccountNumber page) _ := hrigid.lists _ _ _
    refine ⟨h.ordered, h.nonempty, fun i j => (h.exact i j).trans ?_⟩
    rw [← matched_accountRe_and_valid_iff]
    exact and_congr_right fun _ => beq_iff_eq
  · have hrigid : Rigid page.text.toList licensePlateRe :=
      rigid_isolated_run (fun _ hc => (isPlateChar_iff.mp hc).1) (Nat.zero_lt_succ 4)
    have h : Lists (detectLicensePlate page) _ := hrigid.lists _ _ _
    refine ⟨h.ordered, h.nonempty, fun i j => (h.exact i j).trans ?_⟩
    exact matched_licensePlateRe_and_valid_iff

end RedactApi
