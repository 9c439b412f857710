import Mathlib.Data.List.Sublists
import RedactApi.Redaction.VerifyGate

/-!
# What the verify gate finds

The gate reads a document at sites: the text layer and the OCR text of every page,
and the metadata.  Its findings are the sites at which a redacted string matches, one
for each position of the list, and it passes when there are none.
-/

namespace RedactApi

/-! ### Sites -/

/-- Where a document of `n` pages is searched. -/
inductive Site (n : Nat)
  | textLayer (page : Fin n)
  | ocr (page : Fin n)
  | metadata
  deriving DecidableEq

def Site.checkType {n : Nat} : Site n → CheckType
  | .textLayer _ => .textLayer
  | .ocr _ => .ocr
  | .metadata => .metadata

def sites (n : Nat) : List (Site n) :=
  (List.finRange n).map .textLayer ++ ((List.finRange n).map .ocr ++ [.metadata])

theorem mem_sites {n : Nat} (site : Site n) : site ∈ sites n := by
  rw [sites, List.mem_append, List.mem_append]
  cases site with
  | textLayer p => exact Or.inl (List.mem_map_of_mem (List.mem_finRange p))
  | ocr p => exact Or.inr (Or.inl (List.mem_map_of_mem (List.mem_finRange p)))
  | metadata => exact Or.inr (Or.inr List.mem_cons_self)

theorem nodup_sites (n : Nat) : (sites n).Nodup := by
  have htext : ((List.finRange n).map Site.textLayer).Nodup :=
    (List.nodup_finRange n).map fun p q h => by cases h; rfl
  have hocr : ((List.finRange n).map Site.ocr).Nodup :=
    (List.nodup_finRange n).map fun p q h => by cases h; rfl
  refine List.nodup_append'.mpr ⟨htext, List.nodup_append'.mpr
    ⟨hocr, List.nodup_singleton _, ?_⟩, ?_⟩
  · intro site hsite hmeta
    obtain ⟨p, -, rfl⟩ := List.mem_map.mp hsite
    cases List.mem_singleton.mp hmeta
  · intro site hsite hrest
    obtain ⟨p, -, rfl⟩ := List.mem_map.mp hsite
    rcases List.mem_append.mp hrest with hrest | hrest
    · obtain ⟨q, -, hq⟩ := List.mem_map.mp hrest
      cases hq
    · cases List.mem_singleton.mp hrest

section

variable (env : Env) (doc : FitzDocument) (ocr : FitzPage → String)

/-- The normalised text of document information and XMP. -/
def metadataText : String :=
  normalizeText env (" ".intercalate ((doc.metadata.filterMap id).filter (· ≠ "")) ++ " " ++
    doc.xmlMetadata.getD "")

def Matches (target : String) : Site doc.pages.length → Prop
  | .textLayer p => isSubstring target (normalizeText env (doc.pages.get p).text) = true
  | .ocr p => ocrMatchThreshold ≤ env.partialRatio target (normalizeText env (ocr (doc.pages.get p)))
  | .metadata => isSubstring target (metadataText env doc) = true

instance (target : String) : DecidablePred (Matches env doc ocr target)
  | .textLayer _ => inferInstanceAs (Decidable (_ = true))
  | .ocr _ => inferInstanceAs (Decidable (ocrMatchThreshold ≤ _))
  | .metadata => inferInstanceAs (Decidable (_ = true))

def findingAt (raw : String) (site : Site doc.pages.length) : VerifyFinding where
  redactedStringDigest := env.hashHex (normalizeText env raw)
  checkType := site.checkType
  pageNumber :=
    match site with
    | .textLayer p | .ocr p => p + 1
    | .metadata => documentLevelPage
  matchScore :=
    match site with
    | .ocr p => some (env.partialRatio (normalizeText env raw)
        (normalizeText env (ocr (doc.pages.get p))))
    | .textLayer _ | .metadata => none
  bbox :=
    match site with
    | .textLayer p => firstBbox (doc.pages.get p) raw
    | .ocr _ | .metadata => none

variable (redactedStrings : List String)

/-- The string at this position of the list is not empty and matches at the site. -/
def Offends (o : Fin redactedStrings.length × Site doc.pages.length) : Prop :=
  normalizeText env (redactedStrings.get o.1) ≠ "" ∧
    Matches env doc ocr (normalizeText env (redactedStrings.get o.1)) o.2

instance : DecidablePred (Offends env doc ocr redactedStrings) :=
  fun _ => inferInstanceAs (Decidable (_ ∧ _))

def offencesAt (site : Site doc.pages.length) :
    List (Fin redactedStrings.length × Site doc.pages.length) :=
  ((List.finRange redactedStrings.length).map fun i => (i, site)).filter
    (Offends env doc ocr redactedStrings)

/-- All offences, site by site. -/
def offences : List (Fin redactedStrings.length × Site doc.pages.length) :=
  (sites doc.pages.length).flatMap (offencesAt env doc ocr redactedStrings)

end

section

variable {env : Env} {doc : FitzDocument} {ocr : FitzPage → String} {redactedStrings : List String}

theorem mem_offences {o : Fin redactedStrings.length × Site doc.pages.length} :
    o ∈ offences env doc ocr redactedStrings ↔ Offends env doc ocr redactedStrings o := by
  rw [offences, List.mem_flatMap]
  constructor
  · rintro ⟨site, -, ho⟩
    exact of_decide_eq_true (List.mem_filter.mp ho).2
  · intro ho
    exact ⟨o.2, mem_sites o.2, List.mem_filter.mpr
      ⟨List.mem_map.mpr ⟨o.1, List.mem_finRange o.1, rfl⟩, decide_eq_true ho⟩⟩

theorem nodup_offences : (offences env doc ocr redactedStrings).Nodup := by
  refine List.nodup_flatMap.mpr ⟨fun site _ => ?_, ?_⟩
  · refine List.Nodup.filter _ ((List.nodup_finRange _).map fun i j h => ?_)
    exact (Prod.mk.inj h).1
  · refine (nodup_sites _).imp fun {site site'} hne o ho ho' => hne ?_
    obtain ⟨i, -, rfl⟩ := List.mem_map.mp (List.mem_filter.mp ho).1
    obtain ⟨j, -, hj⟩ := List.mem_map.mp (List.mem_filter.mp ho').1
    exact (Prod.mk.inj hj).2.symm

/-! ### The findings are the offences -/

/-- The targets are the positions with a string that is not empty. -/
theorem normalizedTargets_eq : normalizedTargets env redactedStrings =
    ((List.finRange redactedStrings.length).filter
      fun i => normalizeText env (redactedStrings.get i) ≠ "").map
        fun i => (normalizeText env (redactedStrings.get i), redactedStrings.get i) := by
  have hself : redactedStrings = (List.finRange redactedStrings.length).map redactedStrings.get :=
    (List.ofFn_get redactedStrings).symm.trans List.ofFn_eq_map
  rw [normalizedTargets]
  conv_lhs => rw [hself]
  rw [List.map_map, List.filter_map]
  rfl

theorem findings_at (site : Site doc.pages.length) (p : String → Bool)
    (hp : ∀ target, p target = true ↔ Matches env doc ocr target site)
    (finding : String × String → VerifyFinding)
    (hfinding : ∀ raw, finding (normalizeText env raw, raw) = findingAt env doc ocr raw site) :
    ((normalizedTargets env redactedStrings).filter fun t => p t.1).map finding =
      (offencesAt env doc ocr redactedStrings site).map
        fun o => findingAt env doc ocr (redactedStrings.get o.1) o.2 := by
  rw [normalizedTargets_eq, offencesAt, List.filter_map, List.filter_filter, List.map_map,
    List.filter_map, List.map_map]
  have hsame : ∀ i : Fin redactedStrings.length,
      (((fun t : String × String => p t.1) ∘ fun i =>
        (normalizeText env (redactedStrings.get i), redactedStrings.get i)) i &&
          decide (normalizeText env (redactedStrings.get i) ≠ "")) =
        ((fun o => decide (Offends env doc ocr redactedStrings o)) ∘ fun i => (i, site)) i := by
    intro i
    rw [Bool.eq_iff_iff, Bool.and_eq_true, decide_eq_true_iff, Function.comp_apply,
      Function.comp_apply, decide_eq_true_iff, hp]
    exact and_comm
  rw [List.filter_congr fun i _ => hsame i]
  exact List.map_congr_left fun i _ => hfinding _

variable (env doc ocr redactedStrings) in
def foundAt (sites : List (Site doc.pages.length)) : List VerifyFinding :=
  (sites.flatMap (offencesAt env doc ocr redactedStrings)).map
    fun o => findingAt env doc ocr (redactedStrings.get o.1) o.2

variable (ocr) in
theorem checkTextLayer_eq : checkTextLayer env doc redactedStrings =
    let findings := foundAt env doc ocr redactedStrings
      ((List.finRange doc.pages.length).map .textLayer)
    (⟨.textLayer, findings.isEmpty, doc.pages.length⟩, findings) := by
  have hfindings : (checkTextLayer env doc redactedStrings).2 = foundAt env doc ocr redactedStrings
      ((List.finRange doc.pages.length).map .textLayer) := by
    rw [checkTextLayer, foundAt, zipIdx_eq_finRange, List.flatMap_map, List.flatMap_map,
      List.map_flatMap]
    refine List.flatMap_congr fun p _ => findings_at (.textLayer p) _ (fun target => Iff.rfl) _ ?_
    exact fun raw => rfl
  rw [← hfindings]
  rfl

theorem checkOcr_eq
    (hocr : ∀ page ∈ doc.pages, env.imageToString (page.pixmap ocrRasterDpi) = .ok (ocr page)) :
    checkOcr env doc redactedStrings =
      let findings := foundAt env doc ocr redactedStrings
        ((List.finRange doc.pages.length).map .ocr)
      .ok (⟨.ocr, findings.isEmpty, doc.pages.length⟩, findings) := by
  have hpage : ∀ p ∈ List.finRange doc.pages.length,
      ((fun numbered : FitzPage × Nat =>
          ocrPage env (normalizedTargets env redactedStrings) numbered.1 numbered.2) ∘
        fun i => (doc.pages.get i, i.val)) p =
        .ok ((offencesAt env doc ocr redactedStrings (.ocr p)).map
          fun o => findingAt env doc ocr (redactedStrings.get o.1) o.2) := by
    intro p _
    have hfound := @findings_at env doc ocr redactedStrings (.ocr p)
      (fun target => ocrMatchThreshold ≤ env.partialRatio target
        (normalizeText env (ocr (doc.pages.get p))))
      (fun target => decide_eq_true_iff)
      (fun t => findingAt env doc ocr t.2 (.ocr p)) fun raw => rfl
    rw [← hfound, Function.comp_apply, ocrPage]
    split
    · rename_i hempty
      rw [List.isEmpty_iff.mp hempty]
      rfl
    · rw [hocr _ (List.get_mem _ p)]
      refine congrArg Except.ok (List.map_congr_left fun t ht => ?_)
      obtain ⟨raw, -, rfl⟩ := List.mem_map.mp (List.mem_filter.mp (List.mem_filter.mp ht).1).1
      rfl
  rw [checkOcr, zipIdx_eq_finRange, List.mapM_map, mapM_ok hpage, foundAt, List.map_flatMap,
    List.flatMap_map, List.flatMap_def]
  rfl

variable (ocr) in
theorem checkMetadata_eq : checkMetadata env doc redactedStrings =
    let findings := foundAt env doc ocr redactedStrings [.metadata]
    (⟨.metadata, findings.isEmpty, doc.pages.length⟩, findings) := by
  have hfindings : (checkMetadata env doc redactedStrings).2 =
      foundAt env doc ocr redactedStrings [.metadata] := by
    rw [checkMetadata, foundAt, List.flatMap_singleton]
    exact findings_at .metadata _ (fun target => Iff.rfl) _ fun raw => rfl
  rw [← hfindings]
  rfl

/-- **The gate finds the offences.** -/
theorem verify_eq {pdfBytes : Bytes} (hopen : env.fitzOpen pdfBytes = .ok doc)
    (hocr : ∀ page ∈ doc.pages, env.imageToString (page.pixmap ocrRasterDpi) = .ok (ocr page)) :
    verify env pdfBytes redactedStrings = .ok
      { verdict := if (offences env doc ocr redactedStrings).isEmpty then .pass else .fail
        checks :=
          [⟨.textLayer, (foundAt env doc ocr redactedStrings
              ((List.finRange doc.pages.length).map .textLayer)).isEmpty, doc.pages.length⟩,
            ⟨.ocr, (foundAt env doc ocr redactedStrings
              ((List.finRange doc.pages.length).map .ocr)).isEmpty, doc.pages.length⟩,
            ⟨.metadata, (foundAt env doc ocr redactedStrings [.metadata]).isEmpty,
              doc.pages.length⟩]
        findings := (offences env doc ocr redactedStrings).map
          fun o => findingAt env doc ocr (redactedStrings.get o.1) o.2 } := by
  have hsplit : (offences env doc ocr redactedStrings).map
        (fun o => findingAt env doc ocr (redactedStrings.get o.1) o.2) =
      foundAt env doc ocr redactedStrings ((List.finRange doc.pages.length).map .textLayer) ++
        foundAt env doc ocr redactedStrings ((List.finRange doc.pages.length).map .ocr) ++
          foundAt env doc ocr redactedStrings [.metadata] := by
    rw [offences, sites, List.flatMap_append, List.flatMap_append, List.map_append,
      List.map_append, List.append_assoc]
    rfl
  have hempty : (offences env doc ocr redactedStrings).isEmpty =
      ((offences env doc ocr redactedStrings).map
        fun o => findingAt env doc ocr (redactedStrings.get o.1) o.2).isEmpty :=
    List.isEmpty_map.symm
  rw [hempty, hsplit, verify, hopen]
  dsimp only [bind, Except.bind]
  rw [checkOcr_eq hocr, checkTextLayer_eq ocr, checkMetadata_eq ocr]

/-! ### Accounting -/

variable (env doc ocr) in
/-- The normalised string is nowhere in the document, as far as the checks can tell. -/
structure Unrecoverable (target : String) : Prop where
  textLayer : ∀ page ∈ doc.pages, isSubstring target (normalizeText env page.text) = false
  ocr : ∀ page ∈ doc.pages,
    env.partialRatio target (normalizeText env (ocr page)) < ocrMatchThreshold
  metadata : isSubstring target (metadataText env doc) = false

theorem unrecoverable_iff {target : String} :
    Unrecoverable env doc ocr target ↔ ∀ site, ¬ Matches env doc ocr target site := by
  constructor
  · intro h site
    cases site with
    | textLayer p => exact Bool.eq_false_iff.mp (h.textLayer _ (List.get_mem _ p))
    | ocr p => exact not_le.mpr (h.ocr _ (List.get_mem _ p))
    | metadata => exact Bool.eq_false_iff.mp h.metadata
  · intro h
    refine ⟨fun page hpage => ?_, fun page hpage => ?_, Bool.eq_false_iff.mpr (h .metadata)⟩
    · obtain ⟨p, rfl⟩ := List.mem_iff_get.mp hpage
      exact Bool.eq_false_iff.mpr (h (.textLayer p))
    · obtain ⟨p, rfl⟩ := List.mem_iff_get.mp hpage
      exact not_le.mp (h (.ocr p))

theorem offences_eq_nil_iff : offences env doc ocr redactedStrings = [] ↔
    ∀ raw ∈ redactedStrings, normalizeText env raw ≠ "" →
      Unrecoverable env doc ocr (normalizeText env raw) := by
  simp only [unrecoverable_iff]
  rw [List.eq_nil_iff_forall_not_mem]
  constructor
  · intro h raw hraw hne site hsite
    obtain ⟨i, rfl⟩ := List.mem_iff_get.mp hraw
    exact h (i, site) (mem_offences.mpr ⟨hne, hsite⟩)
  · intro h o ho
    obtain ⟨hne, hsite⟩ := mem_offences.mp ho
    exact h _ (List.get_mem _ o.1) hne o.2 hsite

theorem verdict_pass_iff {result : VerifyResult} {pdfBytes : Bytes}
    (hopen : env.fitzOpen pdfBytes = .ok doc)
    (hocr : ∀ page ∈ doc.pages, env.imageToString (page.pixmap ocrRasterDpi) = .ok (ocr page))
    (h : verify env pdfBytes redactedStrings = .ok result) :
    result.verdict = .pass ↔ ∀ raw ∈ redactedStrings, normalizeText env raw ≠ "" →
      Unrecoverable env doc ocr (normalizeText env raw) := by
  rw [verify_eq hopen hocr] at h
  cases h
  rw [← offences_eq_nil_iff, ← List.isEmpty_iff]
  dsimp only
  split
  · rename_i hempty
    exact ⟨fun _ => hempty, fun _ => rfl⟩
  · rename_i hempty
    exact ⟨fun h => absurd h (by decide), fun h => absurd h hempty⟩

theorem foundAt_isEmpty {checkType : CheckType} {ss : List (Site doc.pages.length)}
    (hss : ∀ site, site ∈ ss ↔ site.checkType = checkType) :
    (foundAt env doc ocr redactedStrings ss).isEmpty = true ↔
      ∀ f ∈ (offences env doc ocr redactedStrings).map
          fun o => findingAt env doc ocr (redactedStrings.get o.1) o.2, f.checkType ≠ checkType := by
  rw [List.isEmpty_iff, foundAt, List.map_eq_nil_iff, List.eq_nil_iff_forall_not_mem]
  constructor
  · intro h f hf htype
    obtain ⟨o, ho, rfl⟩ := List.mem_map.mp hf
    refine h o (List.mem_flatMap.mpr ⟨o.2, (hss o.2).mpr htype, ?_⟩)
    exact List.mem_filter.mpr ⟨List.mem_map.mpr ⟨o.1, List.mem_finRange o.1, rfl⟩,
      decide_eq_true (mem_offences.mp ho)⟩
  · intro h o ho
    obtain ⟨site, hsite, ho⟩ := List.mem_flatMap.mp ho
    obtain ⟨ho, hoff⟩ := List.mem_filter.mp ho
    obtain ⟨i, -, rfl⟩ := List.mem_map.mp ho
    exact h _ (List.mem_map.mpr ⟨_, mem_offences.mpr (of_decide_eq_true hoff), rfl⟩)
      ((hss site).mp hsite)

theorem verify_checks {result : VerifyResult} {pdfBytes : Bytes}
    (hopen : env.fitzOpen pdfBytes = .ok doc)
    (hocr : ∀ page ∈ doc.pages, env.imageToString (page.pixmap ocrRasterDpi) = .ok (ocr page))
    (h : verify env pdfBytes redactedStrings = .ok result) :
    result.checks.map (·.checkType) = [.textLayer, .ocr, .metadata] ∧
      ∀ check ∈ result.checks, check.pagesChecked = doc.pages.length ∧
        (check.passed = true ↔ ∀ f ∈ result.findings, f.checkType ≠ check.checkType) := by
  rw [verify_eq hopen hocr] at h
  cases h
  refine ⟨rfl, fun check hcheck => ?_⟩
  simp only [List.mem_cons, List.not_mem_nil, or_false] at hcheck
  rcases hcheck with rfl | rfl | rfl
  · refine ⟨rfl, foundAt_isEmpty fun site => ?_⟩
    cases site <;> simp [Site.checkType]
  · refine ⟨rfl, foundAt_isEmpty fun site => ?_⟩
    cases site <;> simp [Site.checkType]
  · refine ⟨rfl, foundAt_isEmpty fun site => ?_⟩
    cases site <;> simp [Site.checkType]

end

/-- **`pass` means unrecoverable, with full accounting.**  The gate returns; it passes
exactly when no string that is not empty can be recovered; every check ranges over all
pages and answers for its own findings; the findings are the offences, each once; only
the set of strings matters, those that normalise to nothing do not; and a further
string never turns `fail` into `pass`. -/
theorem verify_accounts (env : Env) (pdfBytes : Bytes) (doc : FitzDocument) (ocr : FitzPage → String)
    (redactedStrings : List String) (hopen : env.fitzOpen pdfBytes = .ok doc)
    (hocr : ∀ page ∈ doc.pages, env.imageToString (page.pixmap ocrRasterDpi) = .ok (ocr page)) :
    ∃ result, verify env pdfBytes redactedStrings = .ok result ∧
      (result.verdict = .pass ↔ ∀ raw ∈ redactedStrings, normalizeText env raw ≠ "" →
        Unrecoverable env doc ocr (normalizeText env raw)) ∧
      (result.checks.map (·.checkType) = [.textLayer, .ocr, .metadata] ∧
        ∀ check ∈ result.checks, check.pagesChecked = doc.pages.length ∧
          (check.passed = true ↔ ∀ f ∈ result.findings, f.checkType ≠ check.checkType)) ∧
      (∃ found : List (Fin redactedStrings.length × Site doc.pages.length), found.Nodup ∧
        (∀ o, o ∈ found ↔ Offends env doc ocr redactedStrings o) ∧
        result.findings = found.map fun o => findingAt env doc ocr (redactedStrings.get o.1) o.2) ∧
      (∀ other, (∀ raw, normalizeText env raw ≠ "" → (raw ∈ redactedStrings ↔ raw ∈ other)) →
        ∃ result', verify env pdfBytes other = .ok result' ∧ result'.verdict = result.verdict) ∧
      ∀ other, redactedStrings ⊆ other → result.verdict = .fail →
        ∃ result', verify env pdfBytes other = .ok result' ∧ result'.verdict = .fail := by
  have hreturns : ∀ strings, ∃ result, verify env pdfBytes strings = .ok result :=
    fun strings => ⟨_, verify_eq hopen hocr⟩
  have hfail : ∀ {verdict : VerifyVerdict}, verdict = .fail ↔ ¬ verdict = .pass := by
    intro verdict
    cases verdict <;> simp
  obtain ⟨result, hresult⟩ := hreturns redactedStrings
  have hpass := verdict_pass_iff hopen hocr hresult
  refine ⟨result, hresult, hpass, verify_checks hopen hocr hresult,
    ⟨offences env doc ocr redactedStrings, nodup_offences, fun o => mem_offences, ?_⟩,
    fun other hsame => ?_, fun other hsub hverdict => ?_⟩
  · rw [verify_eq hopen hocr] at hresult
    cases hresult
    rfl
  · obtain ⟨result', hresult'⟩ := hreturns other
    have hpass' := verdict_pass_iff hopen hocr hresult'
    have hiff : result'.verdict = .pass ↔ result.verdict = .pass := by
      rw [hpass, hpass']
      exact ⟨fun h raw hraw hne => h raw ((hsame raw hne).mp hraw) hne,
        fun h raw hraw hne => h raw ((hsame raw hne).mpr hraw) hne⟩
    refine ⟨result', hresult', ?_⟩
    by_cases hp : result.verdict = .pass
    · rw [hp, hiff.mpr hp]
    · rw [hfail.mpr hp, hfail.mpr fun h => hp (hiff.mp h)]
  · obtain ⟨result', hresult'⟩ := hreturns other
    refine ⟨result', hresult', hfail.mpr fun hp => hfail.mp hverdict (hpass.mpr ?_)⟩
    exact fun raw hraw => (verdict_pass_iff hopen hocr hresult').mp hp raw (hsub hraw)

/-! ### Similarity -/

/-- The length of a longest common subsequence. -/
def lcsLength (a b : List Char) : Nat :=
  ((a.sublists.filter fun s => s.Sublist b).map List.length).foldl max 0

/-- The normalised Indel similarity in percent. -/
def indelSimilarity (a b : List Char) : ℚ := 200 * lcsLength a b / (a.length + b.length)

/-- The windows of `n` characters, and the shorter ones at both ends. -/
def windows (n : Nat) (text : List Char) : List (List Char) :=
  (List.range n).map (fun i => text.take i) ++
    (List.range (text.length + 1)).map fun i => (text.drop i).take n

theorem isInfix_of_mem_windows {n : Nat} {text w : List Char} (h : w ∈ windows n text) :
    w <:+: text := by
  rcases List.mem_append.mp h with h | h
  · obtain ⟨i, -, rfl⟩ := List.mem_map.mp h
    exact (List.take_prefix i text).isInfix
  · obtain ⟨i, -, rfl⟩ := List.mem_map.mp h
    exact (List.take_prefix n _).isInfix.trans (List.drop_suffix i text).isInfix

/-- The similarities of the shorter text with the windows of the longer one. -/
def alignments (shorter longer : List Char) : List ℚ :=
  if shorter.length ≤ longer.length then
    (windows shorter.length longer).map (indelSimilarity shorter)
  else []

def bothAlignments (a b : String) : List ℚ :=
  alignments a.toList b.toList ++ alignments b.toList a.toList

/-- **What `partial_ratio` promises**: the best alignment of the shorter text in the
longer one; texts of one length may be aligned either way. -/
structure IsPartialRatio (a b : String) (score : ℚ) : Prop where
  mem : score ∈ bothAlignments a b
  le : ∀ s ∈ bothAlignments a b, s ≤ score

theorem bothAlignments_ne_nil (a b : String) : bothAlignments a b ≠ [] := by
  have hne : ∀ a b : List Char, a.length ≤ b.length → alignments a b ≠ [] := by
    intro a b hab
    rw [alignments, if_pos hab, windows]
    simp
  rcases le_total a.toList.length b.toList.length with hab | hab
  · exact List.append_ne_nil_of_left_ne_nil (hne _ _ hab) _
  · exact List.append_ne_nil_of_right_ne_nil _ (hne _ _ hab)

def partialRatio (a b : String) : ℚ := (bothAlignments a b).max (bothAlignments_ne_nil a b)

theorem isPartialRatio_partialRatio (a b : String) : IsPartialRatio a b (partialRatio a b) :=
  ⟨List.max_mem _, fun _ hs => List.le_max_of_mem hs⟩

section

variable (env : Env) (doc : FitzDocument) (ocr : FitzPage → String)

/-- The whole normalised string is recovered at the site. -/
def RecoveredAt (target : String) : Site doc.pages.length → Prop
  | .textLayer p => target.toList <:+: (normalizeText env (doc.pages.get p).text).toList
  | .ocr p => ∃ w, w <:+: (normalizeText env (ocr (doc.pages.get p))).toList ∧
      ocrMatchThreshold ≤ indelSimilarity target.toList w
  | .metadata => (∃ value, some value ∈ doc.metadata ∧
        target.toList <:+: (normalizeText env value).toList) ∨
      target.toList <:+: (normalizeText env (doc.xmlMetadata.getD "")).toList

/-- What a match at the site shows: of an OCR text that is shorter than the string, that
it is like a part of the string; and the metadata are searched as one text. -/
def ExplainedAt (target : String) : Site doc.pages.length → Prop
  | .textLayer p => target.toList <:+: (normalizeText env (doc.pages.get p).text).toList
  | .ocr p =>
    let text := (normalizeText env (ocr (doc.pages.get p))).toList
    (target.toList.length ≤ text.length ∧
        ∃ w, w <:+: text ∧ ocrMatchThreshold ≤ indelSimilarity target.toList w) ∨
      (text.length ≤ target.toList.length ∧
        ∃ w, w <:+: target.toList ∧ ocrMatchThreshold ≤ indelSimilarity text w)
  | .metadata => target.toList <:+: (metadataText env doc).toList

end

theorem exists_window {shorter longer : List Char} {score : ℚ}
    (h : score ∈ alignments shorter longer) : shorter.length ≤ longer.length ∧
      ∃ w, w <:+: longer ∧ score = indelSimilarity shorter w := by
  rw [alignments] at h
  split at h
  · rename_i hle
    obtain ⟨w, hw, rfl⟩ := List.mem_map.mp h
    exact ⟨hle, w, isInfix_of_mem_windows hw, rfl⟩
  · cases h

theorem Matches.explained {env : Env} {doc : FitzDocument} {ocr : FitzPage → String} {target : String}
    (hratio : ∀ a b, a ≠ "" → IsPartialRatio a b (env.partialRatio a b)) (hne : target ≠ "")
    {site : Site doc.pages.length} (h : Matches env doc ocr target site) :
    ExplainedAt env doc ocr target site := by
  cases site with
  | textLayer p => exact isSubstring_iff.mp h
  | metadata => exact isSubstring_iff.mp h
  | ocr p =>
    have hscore := (hratio target (normalizeText env (ocr (doc.pages.get p))) hne).mem
    rcases List.mem_append.mp hscore with hscore | hscore
    · obtain ⟨hle, w, hw, heq⟩ := exists_window hscore
      exact Or.inl ⟨hle, w, hw, heq ▸ h⟩
    · obtain ⟨hle, w, hw, heq⟩ := exists_window hscore
      exact Or.inr ⟨hle, w, hw, heq ▸ h⟩

/-- **What a finding shows.**  Every finding belongs to a string of the list and a site
where a match explains it. -/
theorem findings_explained (env : Env) (pdfBytes : Bytes) (doc : FitzDocument)
    (ocr : FitzPage → String) (redactedStrings : List String) (hopen : env.fitzOpen pdfBytes = .ok doc)
    (hocr : ∀ page ∈ doc.pages, env.imageToString (page.pixmap ocrRasterDpi) = .ok (ocr page))
    (hratio : ∀ a b, a ≠ "" → IsPartialRatio a b (env.partialRatio a b)) :
    ∃ result, verify env pdfBytes redactedStrings = .ok result ∧
      ∀ f ∈ result.findings, ∃ raw ∈ redactedStrings, normalizeText env raw ≠ "" ∧
        ∃ site, f = findingAt env doc ocr raw site ∧
          ExplainedAt env doc ocr (normalizeText env raw) site := by
  refine ⟨_, verify_eq hopen hocr, fun f hf => ?_⟩
  obtain ⟨o, ho, rfl⟩ := List.mem_map.mp hf
  obtain ⟨hne, hmatch⟩ := mem_offences.mp ho
  exact ⟨_, List.get_mem _ o.1, hne, o.2, rfl, hmatch.explained hratio hne⟩

def fragments : FitzDocument where
  needsPass := false
  pages :=
    [{ rectWidth := 612
       rectHeight := 792
       rotation := 0
       words := []
       text := ""
       searchFor := fun _ => []
       pixmap := fun _ => ⟨2550, 3300, fun _ _ => ⟨255, 255, 255⟩⟩ }]
  metadata := [some "ab", some "cd"]
  xmlMetadata := none

/-- Libraries that read the fragments, with the OCR text `a`. -/
def fragmentsEnv : Env :=
  { Env.letter id with
    fitzOpen := fun _ => .ok fragments
    imageToString := fun _ => .ok "a"
    partialRatio := partialRatio }

theorem verify_accounts_fragments :
    ∃ result, verify fragmentsEnv [0] ["abc", " "] = .ok result ∧ result.verdict = .fail := by
  obtain ⟨result, hresult, hpass, -⟩ := verify_accounts fragmentsEnv [0] fragments (fun _ => "a")
    ["abc", " "] rfl fun _ _ => rfl
  refine ⟨result, hresult, ?_⟩
  have hnot : ¬ result.verdict = .pass := fun hp => by
    have h := (hpass.mp hp "abc" List.mem_cons_self (by decide +kernel)).ocr _ List.mem_cons_self
    revert h
    decide +kernel
  cases hverdict : result.verdict with
  | pass => exact absurd hverdict hnot
  | fail => rfl

theorem findings_explained_fragments :
    ∃ result, verify fragmentsEnv [0] ["abc"] = .ok result ∧
      ∀ f ∈ result.findings, ∃ raw ∈ ["abc"], normalizeText fragmentsEnv raw ≠ "" ∧
        ∃ site, f = findingAt fragmentsEnv fragments (fun _ => "a") raw site ∧
          ExplainedAt fragmentsEnv fragments (fun _ => "a") (normalizeText fragmentsEnv raw) site :=
  findings_explained fragmentsEnv [0] fragments (fun _ => "a") ["abc"] rfl (fun _ _ => rfl)
    fun a b _ => isPartialRatio_partialRatio a b

/-- A finding of an offence whose check recovers nothing. -/
theorem not_recovered {env : Env} {pdfBytes : Bytes} {doc : FitzDocument} {ocr : FitzPage → String}
    {raw : String} (site : Site doc.pages.length) (hopen : env.fitzOpen pdfBytes = .ok doc)
    (hocr : ∀ page ∈ doc.pages, env.imageToString (page.pixmap ocrRasterDpi) = .ok (ocr page))
    (hoffends : normalizeText env raw ≠ "" ∧ Matches env doc ocr (normalizeText env raw) site)
    (hno : ∀ site', site'.checkType = site.checkType →
      ¬ RecoveredAt env doc ocr (normalizeText env raw) site') :
    ¬ ∃ result, verify env pdfBytes [raw] = .ok result ∧
      ∀ f ∈ result.findings, ∃ t ∈ [raw], normalizeText env t ≠ "" ∧
        ∃ site, f = findingAt env doc ocr t site ∧
          RecoveredAt env doc ocr (normalizeText env t) site := by
  rintro ⟨result, hresult, hall⟩
  rw [verify_eq hopen hocr] at hresult
  cases hresult
  have hmem : ((0 : Fin [raw].length), site) ∈ offences env doc ocr [raw] := mem_offences.mpr hoffends
  obtain ⟨t, ht, -, site', hf, hrecovered⟩ := hall _ (List.mem_map.mpr ⟨_, hmem, rfl⟩)
  rw [List.mem_singleton.mp ht] at hrecovered
  exact hno site' (congrArg VerifyFinding.checkType hf).symm hrecovered

/-- The OCR text `a` is found as `abc`, and `b c` across two values. -/
theorem finding_of_fragments :
    (∀ a b, IsPartialRatio a b (fragmentsEnv.partialRatio a b)) ∧
      (¬ ∃ result, verify fragmentsEnv [0] ["abc"] = .ok result ∧
        ∀ f ∈ result.findings, ∃ raw ∈ ["abc"], normalizeText fragmentsEnv raw ≠ "" ∧
          ∃ site, f = findingAt fragmentsEnv fragments (fun _ => "a") raw site ∧
            RecoveredAt fragmentsEnv fragments (fun _ => "a") (normalizeText fragmentsEnv raw) site) ∧
      ¬ ∃ result, verify fragmentsEnv [0] ["b c"] = .ok result ∧
        ∀ f ∈ result.findings, ∃ raw ∈ ["b c"], normalizeText fragmentsEnv raw ≠ "" ∧
          ∃ site, f = findingAt fragmentsEnv fragments (fun _ => "a") raw site ∧
            RecoveredAt fragmentsEnv fragments (fun _ => "a") (normalizeText fragmentsEnv raw) site := by
  refine ⟨isPartialRatio_partialRatio,
    not_recovered (.ocr ⟨0, Nat.one_pos⟩) rfl (fun _ _ => rfl) (by decide +kernel) ?_,
    not_recovered .metadata rfl (fun _ _ => rfl) (by decide +kernel) ?_⟩
  · rintro (p | p | _) htype
    · cases htype
    · rintro ⟨w, hw, hscore⟩
      have hall : ∀ w ∈ (normalizeText fragmentsEnv "a").toList.sublists,
          ¬ ocrMatchThreshold ≤ indelSimilarity (normalizeText fragmentsEnv "abc").toList w := by
        decide +kernel
      exact hall w (List.mem_sublists.mpr hw.sublist) hscore
    · cases htype
  · rintro (p | p | _) htype
    · cases htype
    · cases htype
    · rintro (⟨value, hvalue, hinfix⟩ | hinfix)
      · have hall : ∀ value ∈ ["ab", "cd"],
            ¬ (normalizeText fragmentsEnv "b c").toList <:+:
              (normalizeText fragmentsEnv value).toList := by decide +kernel
        refine hall value ?_ hinfix
        simpa [fragments] using hvalue
      · revert hinfix
        decide +kernel

end RedactApi
