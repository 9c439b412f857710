import Mathlib.Data.Char
import Mathlib.Data.List.FinRange
import Mathlib.Data.List.Infix
import Mathlib.Data.List.Lex
import Mathlib.Data.List.Sort
import Mathlib.Algebra.Order.Ring.Rat
import RedactApi.External

/-!
# The verify gate

`redaction/verify_gate.py`: three recoverability checks over a redacted PDF.  A
check that cannot run raises; a check that finds something makes the verdict
`fail`.
-/

namespace RedactApi

/-! ### Normalisation -/

/-- `str.isspace`, which is also what `\s` matches. -/
def isSpace (c : Char) : Bool :=
  let n := c.toNat
  (9 ≤ n ∧ n ≤ 13) ∨ (28 ≤ n ∧ n ≤ 32) ∨ n = 0x85 ∨ n = 0xa0 ∨ n = 0x1680 ∨
    (0x2000 ≤ n ∧ n ≤ 0x200a) ∨ n = 0x2028 ∨ n = 0x2029 ∨ n = 0x202f ∨ n = 0x205f ∨ n = 0x3000

/-- `re.sub(r"\s+", " ", text)`; the flag says that a run has begun. -/
def collapseSpaces : Bool → List Char → List Char
  | _, [] => []
  | inRun, c :: cs =>
    if isSpace c then
      if inRun then collapseSpaces true cs else ' ' :: collapseSpaces true cs
    else c :: collapseSpaces false cs

/-- `str.strip()`. -/
def strip (cs : List Char) : List Char :=
  ((cs.dropWhile isSpace).reverse.dropWhile isSpace).reverse

/-- NFC, case folding, collapsed whitespace, stripped. -/
def normalizeText (env : Env) (text : String) : String :=
  String.ofList (strip (collapseSpaces false (env.casefold (env.nfc text)).toList))

example : strip (collapseSpaces false " a\t\n b  ".toList) = "a b".toList := by decide

/-! ### The checks -/

/-- `needle in haystack`. -/
def isSubstring (needle haystack : String) : Bool := needle.toList <:+: haystack.toList

theorem isSubstring_iff {needle haystack : String} :
    isSubstring needle haystack = true ↔ needle.toList <:+: haystack.toList := decide_eq_true_iff

def documentLevelPage : Nat := 0

def ocrMatchThreshold : ℚ := 85
def ocrRasterDpi : Nat := 300

/-- The normalised targets with their raw form, the empty ones dropped. -/
def normalizedTargets (env : Env) (redactedStrings : List String) : List (String × String) :=
  (redactedStrings.map fun raw => (normalizeText env raw, raw)).filter fun t => t.1 ≠ ""

def firstBbox (page : FitzPage) (raw : String) : Option BBox := (page.searchFor raw).head?

def checkTextLayer (env : Env) (doc : FitzDocument) (redactedStrings : List String) :
    CheckSummary × List VerifyFinding :=
  let targets := normalizedTargets env redactedStrings
  let findings := doc.pages.zipIdx.flatMap fun (page, number) =>
    (targets.filter fun t => isSubstring t.1 (normalizeText env page.text)).map fun t =>
      { redactedStringDigest := env.hashHex t.1
        checkType := .textLayer
        pageNumber := number + 1
        matchScore := none
        bbox := firstBbox page t.2 }
  (⟨.textLayer, findings.isEmpty, doc.pages.length⟩, findings)

def ocrPage (env : Env) (targets : List (String × String)) (page : FitzPage) (number : Nat) :
    Except Exn (List VerifyFinding) :=
  if targets.isEmpty then .ok []
  else do
    let raw ← env.imageToString (page.pixmap ocrRasterDpi)
    let ocrText := normalizeText env raw
    .ok ((targets.filter fun t => ocrMatchThreshold ≤ env.partialRatio t.1 ocrText).map fun t =>
      { redactedStringDigest := env.hashHex t.1
        checkType := .ocr
        pageNumber := number + 1
        matchScore := some (env.partialRatio t.1 ocrText)
        bbox := none })

def checkOcr (env : Env) (doc : FitzDocument) (redactedStrings : List String) :
    Except Exn (CheckSummary × List VerifyFinding) := do
  let targets := normalizedTargets env redactedStrings
  let perPage ← doc.pages.zipIdx.mapM fun (page, number) => ocrPage env targets page number
  let findings := perPage.flatten
  .ok (⟨.ocr, findings.isEmpty, doc.pages.length⟩, findings)

def checkMetadata (env : Env) (doc : FitzDocument) (redactedStrings : List String) :
    CheckSummary × List VerifyFinding :=
  let docinfo := " ".intercalate ((doc.metadata.filterMap id).filter (· ≠ ""))
  let haystack := normalizeText env (docinfo ++ " " ++ doc.xmlMetadata.getD "")
  let findings := ((normalizedTargets env redactedStrings).filter
    fun t => isSubstring t.1 haystack).map fun t =>
      { redactedStringDigest := env.hashHex t.1
        checkType := .metadata
        pageNumber := documentLevelPage
        matchScore := none
        bbox := none }
  (⟨.metadata, findings.isEmpty, doc.pages.length⟩, findings)

/-- No redacted string is recoverable from the PDF, as far as the checks can tell. -/
def verify (env : Env) (pdfBytes : Bytes) (redactedStrings : List String) :
    Except Exn VerifyResult := do
  let doc ← env.fitzOpen pdfBytes
  let textLayer := checkTextLayer env doc redactedStrings
  let ocr ← checkOcr env doc redactedStrings
  let metadata := checkMetadata env doc redactedStrings
  let findings := textLayer.2 ++ ocr.2 ++ metadata.2
  .ok
    { verdict := if findings.isEmpty then .pass else .fail
      checks := [textLayer.1, ocr.1, metadata.1]
      findings := findings }

/-! ### Pages in order -/

theorem zipIdx_eq_finRange {α : Type} (l : List α) :
    l.zipIdx = (List.finRange l.length).map fun i => (l.get i, i.val) := by
  refine List.ext_getElem (by simp) fun i h₁ h₂ => ?_
  simp

theorem mapM_ok {α β : Type} {f : α → Except Exn β} {g : α → β} {l : List α}
    (h : ∀ a ∈ l, f a = .ok (g a)) : l.mapM f = .ok (l.map g) := by
  induction l with
  | nil => rfl
  | cons a l ih =>
    rw [List.mapM_cons, h a List.mem_cons_self, ih fun b hb => h b (List.mem_cons_of_mem _ hb)]
    rfl

theorem exists_mapM {α β : Type} {f : α → Except Exn β} {l : List α} :
    (∃ bs, l.mapM f = .ok bs) ↔ ∀ a ∈ l, ∃ b, f a = .ok b := by
  induction l with
  | nil => exact ⟨fun _ _ h => absurd h List.not_mem_nil, fun _ => ⟨[], rfl⟩⟩
  | cons a l ih =>
    rw [List.mapM_cons, List.forall_mem_cons, ← ih]
    constructor
    · rintro ⟨bs, h⟩
      obtain ⟨b, hb, h⟩ := bind_ok h
      obtain ⟨bs', hbs, -⟩ := bind_ok h
      exact ⟨⟨b, hb⟩, bs', hbs⟩
    · rintro ⟨⟨b, hb⟩, bs, hbs⟩
      exact ⟨b :: bs, by rw [hb, hbs]; rfl⟩

theorem mem_of_mapM {α β : Type} {f : α → Except Exn β} {l : List α} {bs : List β}
    (h : l.mapM f = .ok bs) (b : β) : b ∈ bs ↔ ∃ a ∈ l, f a = .ok b := by
  induction l generalizing bs with
  | nil =>
    cases h
    simp
  | cons a l ih =>
    rw [List.mapM_cons] at h
    obtain ⟨c, hc, h⟩ := bind_ok h
    obtain ⟨cs, hcs, h⟩ := bind_ok h
    cases h
    simp only [List.mem_cons, ih hcs, exists_eq_or_imp, hc, Except.ok.injEq]
    exact or_congr_left eq_comm

end RedactApi
