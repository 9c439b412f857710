import RedactApi.Detection.Tier1

/-!
# Candidates for e-mail addresses

Every match has one at-sign, takes all local-part characters that are left before it and
the longest domain after it.  So what the scan takes at an at-sign is determined by where
the matches before it end (`reachBefore`), and an address is covered exactly when that
match is accepted as a whole and no earlier one reaches into the address
(`detectEmail_covers_iff`).
-/

namespace RedactApi

open Regex

section Candidates

variable (text : List Char)

/-- Where the run of local-part characters before `a` begins. -/
def localStart : Nat → Nat
  | 0 => 0
  | a + 1 => if holds text isLocalChar a then localStart a else a + 1

/-- Where the domain after an at-sign at `a` ends. -/
def domainStop (a : Nat) : Option Nat :=
  if holds text (fun c => c = '@') a then (ends text domainRe (a + 1)).head? else none

/-- How far the candidates with an at-sign before `a` reach.  From the left, each
at-sign with a domain takes what is left of the run before it. -/
def reachBefore : Nat → Nat
  | 0 => 0
  | a + 1 =>
    match domainStop text a with
    | none => reachBefore a
    | some stop => if max (localStart text a) (reachBefore a) < a then stop else reachBefore a

def candidateStart (a : Nat) : Nat := max (localStart text a) (reachBefore text a)

end Candidates

variable {text : List Char} {i j k a b s s' e e' : Nat}

theorem localStart_le (a : Nat) : localStart text a ≤ a := by
  induction a with
  | zero => exact Nat.le_refl 0
  | succ a ih =>
    rw [localStart]
    split <;> omega

theorem localStart_le_iff (h : s ≤ a) :
    localStart text a ≤ s ↔ ∀ k, s ≤ k → k < a → holds text isLocalChar k = true := by
  induction a with
  | zero => exact ⟨fun _ k _ hk => absurd hk (Nat.not_lt_zero k), fun _ => Nat.zero_le s⟩
  | succ a ih =>
    by_cases hs : s = a + 1
    · subst hs
      exact ⟨fun _ k hk hlt => by omega, fun _ => localStart_le (a + 1)⟩
    · have hsa : s ≤ a := by omega
      rw [localStart]
      by_cases ha : holds text isLocalChar a = true
      · rw [if_pos ha, ih hsa]
        refine ⟨fun hall k hk hlt => ?_, fun hall k hk hlt => hall k hk (by omega)⟩
        obtain rfl | hka := Nat.eq_or_lt_of_le (Nat.le_of_lt_succ hlt)
        · exact ha
        · exact hall k hk hka
      · rw [if_neg ha]
        exact ⟨fun hle => by omega, fun hall => absurd (hall a hsa (Nat.lt_succ_self a)) ha⟩

theorem run_stop_unique {c d : Char → Bool} (hcd : ∀ char, d char = true → c char = false)
    (hrun : ∀ k, s ≤ k → k < a → holds text c k = true) (ha : holds text d a = true)
    (hrun' : ∀ k, s' ≤ k → k < b → holds text c k = true) (hb : holds text d b = true)
    (hsb : s ≤ b) (hsa : s' ≤ a) : a = b := by
  obtain hlt | heq | hlt := Nat.lt_trichotomy a b
  · exact (false_of_holds hcd ha (hrun' a hsa hlt)).elim
  · exact heq
  · exact (false_of_holds hcd hb (hrun b hsb hlt)).elim

/-! ### Domains -/

/-- `[A-Za-z0-9\-]+\.`. -/
def labelRe : Pattern Char := .seq (.rep (.one isLabelChar) 1 none) (literal '.')

theorem isLabelChar_of_dot {char : Char} (h : decide (char = '.') = true) :
    isLabelChar char = false := by
  rw [of_decide_eq_true h]
  decide

theorem labelRe_unique (h : Matched text labelRe i k) {k' : Nat} (h' : Matched text labelRe i k') :
    k = k' := by
  obtain ⟨m, hm, hdot, rfl⟩ := h
  obtain ⟨m', hm', hdot', rfl⟩ := h'
  obtain ⟨hlong, -, hrun⟩ := matched_run_iff.mp hm
  obtain ⟨hlong', -, hrun'⟩ := matched_run_iff.mp hm'
  rw [run_stop_unique (fun _ => isLabelChar_of_dot) hrun hdot hrun' hdot' (by omega) (by omega)]

theorem longestFirst_labelRe (i : Nat) : LongestFirst text labelRe i := by
  refine LongestFirst.seq (longestFirst_run 1 none i) (fun k _ => longestFirst_one k) ?_
  rintro k k' j j' hk hk' hlt ⟨-, rfl⟩ ⟨-, rfl⟩
  omega

/-- After the labels stands a dot, which letters do not cross. -/
theorem longestFirst_domainRe (i : Nat) : LongestFirst text domainRe i := by
  have hlabels := LongestFirst.rep (@longestFirst_labelRe text)
    (fun _ _ _ h h' => labelRe_unique h h') 1 none i
  refine hlabels.seq (fun k _ => longestFirst_run 2 none k) ?_
  rintro k k' j j' ⟨n, -, -, hk⟩ ⟨n', -, -, hk'⟩ hlt hj hj'
  obtain ⟨hlong, -, -⟩ := matched_run_iff.mp hj
  obtain ⟨-, -, hletters⟩ := matched_run_iff.mp hj'
  have hik' := Nat.le_of_add_right_le hk'.add_le
  obtain ⟨_, -, m, -, hdot, rfl⟩ := hk.exists_last (by omega)
  by_contra hle
  have hletter := hletters m (Nat.le_of_lt_succ hlt) (by omega)
  exact false_of_holds (fun char hchar => by rw [of_decide_eq_true hchar]; decide) hdot hletter

theorem lt_of_matched_domainRe (h : Matched text domainRe i j) : i < j := by
  obtain ⟨m, ⟨n, -, -, hn⟩, htop⟩ := h
  have hrun := (matched_run_iff.mp htop).1
  have hlabels := hn.add_le
  omega

theorem not_atSign_of_matched_domainRe (h : Matched text domainRe i j) (hik : i ≤ k) (hkj : k < j) :
    holds text (fun c => c = '@') k = false := by
  have htaken : ∀ c ∈ domainRe.taken, c '@' = false := by decide
  have hother := h.holds_taken (d := fun c => c ≠ '@') (fun c hc char hchar => ?_) hik hkj
  · exact not_holds_of_disjoint (fun char hchar => by simpa using hchar) hother
  · rw [decide_eq_true_iff]
    rintro rfl
    exact Bool.false_ne_true ((htaken c hc).symm.trans hchar)

/-! ### Matches -/

/-- A match that starts at `s`, with its at-sign at `a`. -/
structure Candidate (text : List Char) (s a e : Nat) : Prop where
  nonempty : s < a
  localPart : ∀ k, s ≤ k → k < a → holds text isLocalChar k = true
  domain : domainStop text a = some e

theorem isLocalChar_of_atSign {char : Char} (h : decide (char = '@') = true) :
    isLocalChar char = false := by
  rw [of_decide_eq_true h]
  decide

theorem atSign_unique (hrun : ∀ k, s ≤ k → k < a → holds text isLocalChar k = true)
    (hdomain : Matched text domainRe (a + 1) e) (hb : holds text (fun c => c = '@') b = true)
    (hsb : s ≤ b) (hbe : b < e) : b = a := by
  obtain hlt | heq | hlt := Nat.lt_trichotomy b a
  · exact (false_of_holds (fun _ => isLocalChar_of_atSign) hb (hrun b hsb hlt)).elim
  · exact heq
  · have hnone := not_atSign_of_matched_domainRe hdomain hlt hbe
    exact absurd (hnone.symm.trans hb) Bool.false_ne_true

theorem domainStop_eq_some_iff :
    domainStop text a = some e ↔ holds text (fun c => c = '@') a = true ∧ Hit text domainRe (a + 1) e := by
  unfold domainStop
  split <;> simp_all [Hit]

theorem matched_emailRe_iff : Matched text emailRe s e ↔ ∃ a, s < a ∧
    (∀ k, s ≤ k → k < a → holds text isLocalChar k = true) ∧
      holds text (fun c => c = '@') a = true ∧ Matched text domainRe (a + 1) e := by
  constructor
  · rintro ⟨a, hlocal, _, ⟨hat, rfl⟩, hdomain⟩
    obtain ⟨hlong, -, hrun⟩ := matched_run_iff.mp hlocal
    exact ⟨a, hlong, hrun, hat, hdomain⟩
  · rintro ⟨a, hlong, hrun, hat, hdomain⟩
    exact ⟨a, matched_run_iff.mpr ⟨hlong, by simp, hrun⟩, _, ⟨hat, rfl⟩, hdomain⟩

theorem hit_emailRe_iff : Hit text emailRe s e ↔ ∃ a, Candidate text s a e := by
  have hstep : ∀ {a}, s < a → (∀ k, s ≤ k → k < a → holds text isLocalChar k = true) →
      holds text (fun c => c = '@') a = true → (Hit text emailRe s e ↔ Hit text domainRe (a + 1) e) := by
    intro a hsa hrun hat
    have hlocal : Matched text (.rep (.one isLocalChar) 1 none) s a :=
      matched_run_iff.mpr ⟨hsa, by simp, hrun⟩
    have hsign : Matched text (literal '@') a (a + 1) := ⟨hat, rfl⟩
    unfold emailRe
    rw [hit_seq_iff hlocal, hit_seq_iff hsign]
    · exact fun k' hk' _ => hk'.2
    · rintro k' hk' ⟨_, _, ⟨hat', -⟩, -⟩
      obtain ⟨hlong', -, hrun'⟩ := matched_run_iff.mp hk'
      exact run_stop_unique (fun _ => isLocalChar_of_atSign) hrun' hat' hrun hat (by omega) (by omega)
  constructor
  · intro h
    obtain ⟨a, hsa, hrun, hat, -⟩ := matched_emailRe_iff.mp h.matches
    exact ⟨a, hsa, hrun, domainStop_eq_some_iff.mpr ⟨hat, (hstep hsa hrun hat).mp h⟩⟩
  · rintro ⟨a, h⟩
    obtain ⟨hat, hdomain⟩ := domainStop_eq_some_iff.mp h.domain
    exact (hstep h.nonempty h.localPart hat).mpr hdomain

namespace Candidate

theorem lt_stop (h : Candidate text s a e) : a < e := by
  obtain ⟨-, hdomain⟩ := domainStop_eq_some_iff.mp h.domain
  have hlt := lt_of_matched_domainRe hdomain.matches
  omega

theorem eq_atSign (h : Candidate text s a e) (hb : holds text (fun c => c = '@') b = true)
    (hsb : s ≤ b) (hbe : b < e) : b = a :=
  atSign_unique h.localPart (domainStop_eq_some_iff.mp h.domain).2.matches hb hsb hbe

end Candidate

/-! ### What the scan takes -/

theorem candidate_of_mem_finditer (h : (s, e) ∈ Regex.finditer text emailRe) :
    ∃ a, Candidate text s a e := hit_emailRe_iff.mp (hit_of_mem_finditer h)

/-- Matches of the scan are apart, in the order of their at-signs. -/
theorem Candidate.apart (hc : Candidate text s a e) (h : (s, e) ∈ Regex.finditer text emailRe)
    (hc' : Candidate text s' b e') (h' : (s', e') ∈ Regex.finditer text emailRe) (hba : b < a) :
    e' ≤ s := by
  have hb := hc'.nonempty
  have ha := hc.lt_stop
  by_cases heq : (s, e) = (s', e')
  · obtain ⟨rfl, rfl⟩ := Prod.mk.inj heq
    have hsame := hc.eq_atSign (domainStop_eq_some_iff.mp hc'.domain).1 (by omega) (by omega)
    omega
  · obtain hle | hle := finditer_disjoint h h' heq
    · have hle : e ≤ s' := hle
      omega
    · exact hle

/-- What is known of the scan when the at-signs before `a` are done. -/
structure Scanned (text : List Char) (a : Nat) : Prop where
  covers : ∀ s b e, (s, e) ∈ Regex.finditer text emailRe → Candidate text s b e → b < a →
    e ≤ reachBefore text a
  attained : reachBefore text a = 0 ∨ ∃ s b, (s, reachBefore text a) ∈ Regex.finditer text emailRe ∧
    Candidate text s b (reachBefore text a) ∧ b < a

namespace Scanned

theorem candidateStart_le (h : Scanned text a) (hmem : (s, e) ∈ Regex.finditer text emailRe)
    (hc : Candidate text s a e) : candidateStart text a ≤ s := by
  have hstart := (localStart_le_iff (Nat.le_of_lt hc.nonempty)).mpr hc.localPart
  obtain hzero | ⟨s', b, hmem', hc', hba⟩ := h.attained
  · exact Nat.max_le.mpr ⟨hstart, by omega⟩
  · exact Nat.max_le.mpr ⟨hstart, hc.apart hmem hc' hmem' hba⟩

/-- Where something is left of the run, the scan takes it. -/
theorem mem_finditer (h : Scanned text a) (hdomain : domainStop text a = some e)
    (hlt : candidateStart text a < a) :
    (candidateStart text a, e) ∈ Regex.finditer text emailRe ∧
      Candidate text (candidateStart text a) a e := by
  have hc : Candidate text (candidateStart text a) a e :=
    ⟨hlt, (localStart_le_iff (Nat.le_of_lt hlt)).mp (Nat.le_max_left _ _), hdomain⟩
  have hhit := hit_emailRe_iff.mpr ⟨a, hc⟩
  have hlength := hhit.matches.bounds.2 (Nat.lt_trans hlt hc.lt_stop)
  have hae := hc.lt_stop
  refine ⟨?_, hc⟩
  obtain hmem | ⟨⟨s', e'⟩, hmem', hbefore, hinside⟩ := mem_finditer_or_swallowed hhit (by omega)
  · exact hmem
  · obtain ⟨b, hc'⟩ := candidate_of_mem_finditer hmem'
    have hbefore : s' < candidateStart text a := hbefore
    have hinside : candidateStart text a < e' := hinside
    obtain hba | rfl | hab := Nat.lt_trichotomy b a
    · have hreach := h.covers s' b e' hmem' hc' hba
      have hmax := Nat.le_max_right (localStart text a) (reachBefore text a)
      unfold candidateStart at hinside
      omega
    · have hle := h.candidateStart_le hmem' hc'
      omega
    · have hbe := hc'.lt_stop
      have hsame := hc'.eq_atSign (domainStop_eq_some_iff.mp hdomain).1 (by omega) (by omega)
      omega

theorem mem_finditer_iff (h : Scanned text a) (hdomain : domainStop text a = some e) :
    (s, e) ∈ Regex.finditer text emailRe ∧ Candidate text s a e ↔
      s = candidateStart text a ∧ s < a := by
  constructor
  · rintro ⟨hmem, hc⟩
    have hle := h.candidateStart_le hmem hc
    have hsa := hc.nonempty
    obtain ⟨hmem', hc'⟩ := h.mem_finditer hdomain (by omega)
    refine ⟨?_, hsa⟩
    by_contra hne
    have hae := hc.lt_stop
    obtain hapart | hapart := finditer_disjoint hmem hmem' fun heq => hne (Prod.mk.inj heq).1
    · have hapart : e ≤ candidateStart text a := hapart
      omega
    · have hapart : e ≤ s := hapart
      omega
  · rintro ⟨rfl, hlt⟩
    exact h.mem_finditer hdomain hlt

end Scanned

theorem Scanned.skip (h : Scanned text a) (hreach : reachBefore text (a + 1) = reachBefore text a)
    (hnone : ∀ s e, (s, e) ∈ Regex.finditer text emailRe → ¬ Candidate text s a e) :
    Scanned text (a + 1) where
  covers s b e hmem hc hb := by
    have hne : b ≠ a := fun heq => hnone s e hmem (heq ▸ hc)
    rw [hreach]
    exact h.covers s b e hmem hc (by omega)
  attained := by
    rw [hreach]
    exact h.attained.imp_right fun ⟨s, b, hmem, hc, hb⟩ => ⟨s, b, hmem, hc, by omega⟩

theorem Scanned.take (h : Scanned text a) (hdomain : domainStop text a = some e)
    (hlt : candidateStart text a < a) (hreach : reachBefore text (a + 1) = e) :
    Scanned text (a + 1) := by
  obtain ⟨hmem, hc⟩ := h.mem_finditer hdomain hlt
  rw [← hreach] at hmem hc
  refine ⟨fun s b e hmem' hc' hb => ?_, Or.inr ⟨_, a, hmem, hc, Nat.lt_succ_self a⟩⟩
  obtain rfl | hba := Nat.eq_or_lt_of_le (Nat.le_of_lt_succ hb)
  · exact Nat.le_of_eq (Option.some.inj (hc'.domain.symm.trans hc.domain))
  · have happart := hc.apart hmem hc' hmem' hba
    have hstop := hc.lt_stop
    omega

theorem scanned (text : List Char) (a : Nat) : Scanned text a := by
  induction a with
  | zero => exact ⟨fun s b e _ _ hb => absurd hb (Nat.not_lt_zero b), Or.inl rfl⟩
  | succ a ih =>
    cases hdomain : domainStop text a with
    | none =>
      refine ih.skip (by rw [reachBefore, hdomain]) fun s e _ hc => ?_
      exact Option.some_ne_none e (hc.domain.symm.trans hdomain)
    | some stop =>
      by_cases hfree : candidateStart text a < a
      · refine ih.take hdomain hfree ?_
        rw [reachBefore, hdomain]
        exact if_pos hfree
      · refine ih.skip ?_ fun s e hmem hc => ?_
        · rw [reachBefore, hdomain]
          exact if_neg hfree
        · exact hfree (Nat.lt_of_le_of_lt (ih.candidateStart_le hmem hc) hc.nonempty)

/-! ### Which addresses are covered -/

/-- An address of the page: matched in full, accepted, after no local-part character but a
dot and before no domain label character. -/
structure AddressAt (isValidEmail : String → Bool) (page : PageModel) (i j : Nat) : Prop where
  matched : Matched page.text.toList emailRe i j
  valid : isValidEmail (page.slice i j) = true
  before : heldBefore page.text.toList (fun c => isLocalChar c && c ≠ '.') i = false
  after : holds page.text.toList isLabelChar j = false

/-- **When an address is covered.**  Exactly when no match at an earlier at-sign reaches
into it, and the match at its own, from the start of what is left of the run to the end of
the domain, is accepted. -/
theorem detectEmail_covers_iff (isValidEmail : String → Bool) (page : PageModel) (i j : Nat)
    (h : AddressAt isValidEmail page i j) :
    (∃ s ∈ detectEmail isValidEmail page, s.start ≤ i ∧ j ≤ s.stop) ↔
      ∃ a stop, (i < a ∧ a < j) ∧ domainStop page.text.toList a = some stop ∧
        reachBefore page.text.toList a ≤ i ∧
        isValidEmail (page.slice (candidateStart page.text.toList a) stop) = true := by
  obtain ⟨a, hia, hrun, hat, hdomain⟩ := matched_emailRe_iff.mp h.matched
  have haj := lt_of_matched_domainRe hdomain
  constructor
  · rintro ⟨s, hs, hstart, hstop⟩
    obtain ⟨hmem, hvalid⟩ := mem_detectMatches_iff.mp ⟨s, hs, rfl, rfl⟩
    obtain ⟨b, hc⟩ := candidate_of_mem_finditer hmem
    obtain rfl := hc.eq_atSign hat (by omega) (by omega)
    obtain ⟨heq, -⟩ := ((scanned _ a).mem_finditer_iff hc.domain).mp ⟨hmem, hc⟩
    have hreach := Nat.le_max_right (localStart page.text.toList a) (reachBefore page.text.toList a)
    rw [← candidateStart, ← heq] at hreach
    exact ⟨a, s.stop, ⟨hia, by omega⟩, hc.domain, by omega, heq ▸ hvalid⟩
  · rintro ⟨b, stop, hb, hstop, hreach, hvalid⟩
    obtain ⟨hat', hhit⟩ := domainStop_eq_some_iff.mp hstop
    have heq := atSign_unique hrun hdomain hat' (by omega) hb.2
    subst heq
    have hlocal := (localStart_le_iff (Nat.le_of_lt hia)).mpr hrun
    have hstart : candidateStart page.text.toList b ≤ i := Nat.max_le.mpr ⟨hlocal, hreach⟩
    obtain ⟨hmem, -⟩ := (scanned _ b).mem_finditer hstop (by omega)
    have hlisted : ∃ s ∈ detectEmail isValidEmail page,
        s.start = candidateStart page.text.toList b ∧ s.stop = stop :=
      mem_detectMatches_iff.mpr ⟨hmem, hvalid⟩
    obtain ⟨s, hs, hsstart, hsstop⟩ := hlisted
    have hlongest := hhit.le_of_longestFirst (longestFirst_domainRe _) hdomain
    exact ⟨s, hs, by omega, by omega⟩

/-- No address whose local part starts with a dot or has two in a row is accepted. -/
def RejectsDots (isValidEmail : String → Bool) : Prop :=
  ∀ address : String, (address.toList.head? = some '.' ∨
      ['.', '.'] <:+: address.toList.takeWhile fun c => c ≠ '@') → isValidEmail address = false

/-- The least strict validator of this kind. -/
def dotAtom (address : String) : Bool :=
  ¬ (address.toList.head? = some '.' ∨ ['.', '.'] <:+: address.toList.takeWhile fun c => c ≠ '@')

theorem dotAtom_rejectsDots : RejectsDots dotAtom := fun _ h => decide_eq_false (not_not.mpr h)

def pageWith (text : String) : PageModel := ⟨1, 612, 792, text, [], 0, ""⟩

/-- A match at an earlier at-sign that is over is no obstacle. -/
theorem detectEmail_covers_iff_second :
    ∃ s ∈ detectEmail dotAtom (pageWith "a@b.cc, john@x.com"), s.start ≤ 8 ∧ 18 ≤ s.stop :=
  (detectEmail_covers_iff dotAtom (pageWith "a@b.cc, john@x.com") 8 18
    ⟨mem_ends_iff.mp (by decide), by decide, by decide, by decide⟩).mpr
    ⟨12, 18, by decide, by decide, by decide, by decide⟩

/-- **Leading dots hide an address**, and so does an address right before it. -/
theorem dots_hide_address :
    RejectsDots dotAtom ∧
      (AddressAt dotAtom (pageWith "...john@x.com") 3 13 ∧
        detectEmail dotAtom (pageWith "...john@x.com") = []) ∧
      AddressAt dotAtom (pageWith "a@b.cc.john@x.com") 7 17 ∧
        (detectEmail dotAtom (pageWith "a@b.cc.john@x.com")).map (fun s => (s.start, s.stop)) =
          [(0, 11)] :=
  ⟨dotAtom_rejectsDots,
    ⟨⟨mem_ends_iff.mp (by decide), by decide, by decide, by decide⟩, by decide⟩,
    ⟨mem_ends_iff.mp (by decide), by decide, by decide, by decide⟩, by decide⟩

end RedactApi
