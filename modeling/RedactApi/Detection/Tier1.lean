import Mathlib.Data.Rat.Defs
import RedactApi.Detection.Tier2
import RedactApi.Redaction.VerifyGate
import RedactApi.Regex

/-!
# Tier-1 detectors

`detection/tier1.py` and `detection/consts.py`: the compiled patterns, the validators of
the candidates and the scan that all detectors share.  `validate_email` and the case
folding of the interpreter are arguments.
-/

namespace RedactApi

open Regex (Pattern)

/-! ### Decimal digits -/

/-- The zeros of Unicode's runs of decimal digits (category `Nd`, Python 3.13). -/
def decimalZeros : List Nat :=
  [0x0030, 0x0660, 0x06F0, 0x07C0, 0x0966, 0x09E6, 0x0A66, 0x0AE6, 0x0B66, 0x0BE6, 0x0C66, 0x0CE6,
    0x0D66, 0x0DE6, 0x0E50, 0x0ED0, 0x0F20, 0x1040, 0x1090, 0x17E0, 0x1810, 0x1946, 0x19D0, 0x1A80,
    0x1A90, 0x1B50, 0x1BB0, 0x1C40, 0x1C50, 0xA620, 0xA8D0, 0xA900, 0xA9D0, 0xA9F0, 0xAA50, 0xABF0,
    0xFF10, 0x104A0, 0x10D30, 0x11066, 0x110F0, 0x11136, 0x111D0, 0x112F0, 0x11450, 0x114D0,
    0x11650, 0x116C0, 0x11730, 0x118E0, 0x11950, 0x11C50, 0x11D50, 0x11DA0, 0x11F50, 0x16A60,
    0x16AC0, 0x16B50, 0x1D7CE, 0x1D7D8, 0x1D7E2, 0x1D7EC, 0x1D7F6, 0x1E140, 0x1E2F0, 0x1E4F0,
    0x1E950, 0x1FBF0]

/-- `int(char)` of one character; other characters than decimal digits raise. -/
def digitValue (char : Char) : Option Nat :=
  (decimalZeros.find? fun first => first ≤ char.toNat ∧ char.toNat ≤ first + 9).map (char.toNat - ·)

/-- What `\d` matches. -/
def isDecimal (char : Char) : Bool := (digitValue char).isSome

theorem digitValue_lt {char : Char} {value : Nat} (h : digitValue char = some value) :
    value < 10 := by
  obtain ⟨first, hfirst, rfl⟩ := Option.map_eq_some_iff.mp h
  have hrange := List.find?_some hfirst
  simp only [decide_eq_true_eq] at hrange
  omega

theorem exists_digitValue_eq {value : Nat} (h : value < 10) :
    ∃ char, digitValue char = some value := by
  have hdigits : ∀ v < 10, digitValue (Char.ofNat (0x30 + v)) = some v := by decide
  exact ⟨_, hdigits value h⟩

/-! ### Compiled patterns -/

def literal (char : Char) : Pattern Char := .one fun c => c = char

/-- `\d{least,most}`. -/
def digitRun (least most : Nat) : Pattern Char := .rep (.one isDecimal) least (some most)

def optionally (p : Pattern Char) : Pattern Char := .rep p 0 (some 1)

/-- The pattern with no character of the class right before or after it. -/
def isolated (c : Char → Bool) (p : Pattern Char) : Pattern Char :=
  .seq (.notBehind c) (.seq p (.notAhead c))

def ssnRe : Pattern Char :=
  isolated isDecimal <| .seq (digitRun 3 3) <| .seq (literal '-') <| .seq (digitRun 2 2) <|
    .seq (literal '-') (digitRun 4 4)

/-- `[2-9]\d{2}`. -/
def nanpBlock : Pattern Char := .seq (.one fun c => '2' ≤ c ∧ c ≤ '9') (digitRun 2 2)

/-- `[\s.\-]?`. -/
def phoneSeparator : Pattern Char := optionally (.one fun c => isSpace c ∨ c = '.' ∨ c = '-')

/-- `\s*`. -/
def spaces : Pattern Char := .rep (.one isSpace) 0 none

def phoneRe : Pattern Char :=
  isolated isDecimal <|
    .seq (optionally (.seq (optionally (literal '+')) (.seq (literal '1') phoneSeparator))) <|
    .seq (.alt (.seq (literal '(') (.seq spaces (.seq nanpBlock (.seq spaces (literal ')')))))
      nanpBlock) <|
    .seq phoneSeparator <| .seq nanpBlock <| .seq phoneSeparator (digitRun 4 4)

/-- `[A-Za-z0-9._%+\-]`. -/
def isLocalChar (char : Char) : Bool := char.isAlphanum ∨ char ∈ ['.', '_', '%', '+', '-']

/-- `[A-Za-z0-9\-]`. -/
def isLabelChar (char : Char) : Bool := char.isAlphanum ∨ char = '-'

/-- `(?:[A-Za-z0-9\-]+\.)+[A-Za-z]{2,}`. -/
def domainRe : Pattern Char :=
  .seq (.rep (.seq (.rep (.one isLabelChar) 1 none) (literal '.')) 1 none)
    (.rep (.one Char.isAlpha) 2 none)

def emailRe : Pattern Char :=
  .seq (.rep (.one isLocalChar) 1 none) (.seq (literal '@') domainRe)

def accountRe : Pattern Char := isolated isDecimal (digitRun 12 19)

/-- `[A-Z0-9]`. -/
def isPlateChar (char : Char) : Bool := char.isUpper ∨ char.isDigit

def licensePlateRe : Pattern Char :=
  isolated Char.isAlphanum (.rep (.one isPlateChar) 5 (some 8))

def dateSeparator : Pattern Char := .one fun c => c = '/' ∨ c = '-'

def dateRe : Pattern Char :=
  isolated isDecimal <| .seq (digitRun 1 2) <| .seq dateSeparator <| .seq (digitRun 1 2) <|
    .seq dateSeparator (digitRun 2 4)

/-! ### Validators -/

def ssnInvalidAreas : List Nat := [0, 666]

def ssnMaxArea : Nat := 899

def ssnInvalidGroup : Nat := 0

def ssnInvalidSerial : Nat := 0

def isValidSsn (area group serial : Nat) : Bool :=
  if area ∈ ssnInvalidAreas ∨ area > ssnMaxArea then false
  else group ≠ ssnInvalidGroup ∧ serial ≠ ssnInvalidSerial

/-- `int` of a string of decimal digits; what is none of them raises. -/
def parseInt (part : List Char) : Option Nat :=
  if part = [] then none
  else part.foldlM (fun value char => (digitValue char).map (10 * value + ·)) 0

/-- `_validate` of `detect_ssn`. -/
def validateSsn (group : String) : Option Bool := do
  match ← (group.toList.splitOn '-').mapM parseInt with
  | [area, group, serial] => return isValidSsn area group serial
  | _ => none

/-- What the loop of `_luhn_check` adds for the digit at `index`. -/
def luhnTerm (parity index value : Nat) : Nat :=
  if index % 2 = parity then
    let value := value * 2
    if value > 9 then value - 9 else value
  else value

def luhnStep (parity total : Nat) (char : Char) (index : Nat) : Option Nat := do
  let value ← digitValue char
  return total + luhnTerm parity index value

def luhnCheck (digits : String) : Option Bool := do
  let parity := digits.length % 2
  let total ← digits.toList.zipIdx.foldlM (fun total item => luhnStep parity total item.1 item.2) 0
  return total % 10 = 0

/-- `_is_plate_shaped`; the pattern passes ASCII only. -/
def isPlateShaped (candidate : String) : Bool :=
  candidate.toList.any Char.isAlpha && candidate.toList.any Char.isDigit

def dobKeywordAnchors : List String := ["dob", "date of birth", "born"]

def dobAnchorWindowChars : Nat := 32

/-- The characters before a match that `_has_dob_anchor` looks at. -/
def dobWindow (text : String) (matchStart : Nat) : String :=
  String.ofList ((text.toList.take matchStart).drop (matchStart - dobAnchorWindowChars))

def hasDobAnchor (casefold : String → String) (text : String) (matchStart : Nat) : Bool :=
  dobKeywordAnchors.any fun anchor => isSubstring anchor (casefold (dobWindow text matchStart))

/-! ### The scan -/

structure Match where
  start : Nat
  stop : Nat

/-- A `CandidateSpan` from a whole-match hit; `match.group()` is the matched text. -/
def candidate (page : PageModel) (hit : Match) (category : String) (confidence : ℚ) :
    CandidateSpan where
  pageNumber := page.pageNumber
  start := hit.start
  stop := hit.stop
  bboxes := resolveSpanBboxes page hit.start hit.stop
  text := page.slice hit.start hit.stop
  category := category
  sourceTier := .tier1
  confidence := confidence

/-- What a Tier-1 detector passes to `_detect_matches`. -/
structure MatchDetector where
  finditer : String → List Match
  category : String
  confidence : ℚ
  validate : Option (PageModel → Match → Bool)

/-- Scan the text, keeping the matches that `validate` accepts. -/
def detectMatches (page : PageModel) (detector : MatchDetector) : List CandidateSpan :=
  ((detector.finditer page.text).filter fun hit =>
    detector.validate.all fun validate => validate page hit).map fun hit =>
      candidate page hit detector.category detector.confidence

def finditer (pattern : Pattern Char) (text : String) : List Match :=
  (Regex.finditer text.toList pattern).map fun range => ⟨range.1, range.2⟩

theorem mem_detectMatches_iff {page : PageModel} {p : Pattern Char} {category : String}
    {confidence : ℚ} {validate : PageModel → Match → Bool} {i j : Nat} :
    (∃ s ∈ detectMatches page ⟨finditer p, category, confidence, some validate⟩,
        s.start = i ∧ s.stop = j) ↔
      (i, j) ∈ Regex.finditer page.text.toList p ∧ validate page ⟨i, j⟩ = true := by
  constructor
  · rintro ⟨s, hs, rfl, rfl⟩
    obtain ⟨hit, hmem, rfl⟩ := List.mem_map.mp hs
    obtain ⟨hhit, hvalid⟩ := List.mem_filter.mp hmem
    obtain ⟨range, hrange, rfl⟩ := List.mem_map.mp hhit
    exact ⟨hrange, hvalid⟩
  · rintro ⟨hmem, hvalid⟩
    refine ⟨_, List.mem_map.mpr ⟨⟨i, j⟩, List.mem_filter.mpr ⟨?_, hvalid⟩, rfl⟩, rfl, rfl⟩
    exact List.mem_map.mpr ⟨(i, j), hmem, rfl⟩

/-! ### The detectors -/

def Match.group (page : PageModel) (hit : Match) : String := page.slice hit.start hit.stop

def confidenceValidated : ℚ := 1

def confidenceRegexOnly : ℚ := 9 / 10

def detectSsn (page : PageModel) : List CandidateSpan :=
  detectMatches page ⟨finditer ssnRe, "ssn", confidenceValidated,
    some fun page hit => validateSsn (hit.group page) == some true⟩

def detectPhone (page : PageModel) : List CandidateSpan :=
  detectMatches page ⟨finditer phoneRe, "phone", confidenceRegexOnly, none⟩

/-- `detect_email`; `isValidEmail` is the answer of `email_validator`. -/
def detectEmail (isValidEmail : String → Bool) (page : PageModel) : List CandidateSpan :=
  detectMatches page ⟨finditer emailRe, "email", confidenceRegexOnly,
    some fun page hit => isValidEmail (hit.group page)⟩

def detectAccountNumber (page : PageModel) : List CandidateSpan :=
  detectMatches page ⟨finditer accountRe, "account_number", confidenceValidated,
    some fun page hit => luhnCheck (hit.group page) == some true⟩

def detectLicensePlate (page : PageModel) : List CandidateSpan :=
  detectMatches page ⟨finditer licensePlateRe, "license_plate", confidenceRegexOnly,
    some fun page hit => isPlateShaped (hit.group page)⟩

def detectDob (casefold : String → String) (page : PageModel) : List CandidateSpan :=
  detectMatches page ⟨finditer dateRe, "dob", confidenceRegexOnly,
    some fun page hit => hasDobAnchor casefold page.text hit.start⟩

/-- `_TIER1_DETECTORS` of the detection service. -/
def tier1Detectors (casefold : String → String) (isValidEmail : String → Bool) :
    List (PageModel → List CandidateSpan) :=
  [detectSsn, detectPhone, detectEmail isValidEmail, detectAccountNumber, detectLicensePlate,
    detectDob casefold]

end RedactApi
