import Mathlib.Data.List.Sort
import RedactApi.External

/-!
# Page extraction

`ingest/pdf.py`: opening a PDF, the structural checks, and the page models with
one box for each word.
-/

namespace RedactApi

def rasterDpi : Nat := 150
def maxPageCount : Nat := 500

/-- `(block_no, line_no, word_no)`, compared as tuples are. -/
def RawWord.before (a b : RawWord) : Prop :=
  a.blockNo < b.blockNo ∨ a.blockNo = b.blockNo ∧
    (a.lineNo < b.lineNo ∨ a.lineNo = b.lineNo ∧ a.wordNo ≤ b.wordNo)

instance : DecidableRel RawWord.before := fun a b =>
  inferInstanceAs (Decidable (a.blockNo < b.blockNo ∨ a.blockNo = b.blockNo ∧
    (a.lineNo < b.lineNo ∨ a.lineNo = b.lineNo ∧ a.wordNo ≤ b.wordNo)))

/-- `page.get_text("words")` in block, line, word order. -/
def sortedWords (page : FitzPage) : List RawWord := page.words.insertionSort RawWord.before

/-- Words of one line are joined by a blank, lines by a newline. -/
def buildTextAndWords (offset : Nat) : List RawWord → List Char × List WordBBox
  | [] => ([], [])
  | word :: rest =>
    let stop := offset + word.text.length
    let here : WordBBox := ⟨offset, stop, word.bbox⟩
    match rest with
    | [] => (word.text.toList, [here])
    | next :: _ =>
      let separator :=
        if (word.blockNo, word.lineNo) = (next.blockNo, next.lineNo) then ' ' else '\n'
      let (text, words) := buildTextAndWords (stop + 1) rest
      (word.text.toList ++ separator :: text, here :: words)

structure PageExtraction where
  page : PageModel
  pngBytes : Bytes
  deriving DecidableEq, Repr

def malformedMessage : String := "PDF is malformed or corrupt and cannot be opened"
def encryptedMessage : String := "PDF is password-protected and cannot be ingested"

/-- A parse failure is a malformed PDF; any other exception passes. -/
def openPdf (env : Env) (pdfBytes : Bytes) : Except Exn FitzDocument :=
  match env.fitzOpen pdfBytes with
  | .ok doc => .ok doc
  | .error (.external name) =>
    if name = "FileDataError" ∨ name = "RuntimeError" then .error (.malformedPdf malformedMessage)
    else .error (.external name)
  | .error e => .error e

def tooLargeMessage (limitKind : LimitKind) (actual limit : Nat) : String :=
  if limitKind = .fileSize then
    s!"Document size {actual} bytes exceeds maximum allowed size of {limit} bytes"
  else s!"Document page count {actual} exceeds maximum allowed page count of {limit}"

def checkEncryptionAndPageCount (doc : FitzDocument) : Except Exn Unit :=
  if doc.needsPass then .error (.encryptedPdf encryptedMessage)
  else if doc.pages.length > maxPageCount then
    .error (.documentTooLarge .pageCount doc.pages.length maxPageCount)
  else .ok ()

def unsupportedMessage (pageNumbers : List Nat) : String :=
  let pages := ", ".intercalate (pageNumbers.map Nat.repr)
  s!"Document contains scanned/image-only page(s) with no extractable text: {pages}; " ++
    "V1 supports native PDFs only -- OCR ingest is V2"

/-- Pages without words are refused together. -/
def checkSupported (pageNumbers : List Nat) : Except Exn Unit :=
  if pageNumbers.isEmpty then .ok () else .error (.unsupportedPage pageNumbers)

/-- The synchronous pre-check of an upload: no rasterisation. -/
def validatePdfStructure (env : Env) (pdfBytes : Bytes) : Except Exn Unit := do
  let doc ← openPdf env pdfBytes
  checkEncryptionAndPageCount doc
  checkSupported ((doc.pages.zipIdx.filter fun p => p.1.words.isEmpty).map fun p => p.2 + 1)

def extractPage (env : Env) (page : FitzPage) (pageNumber : Nat) : PageExtraction :=
  let built := buildTextAndWords 0 (sortedWords page)
  { page :=
      { pageNumber := pageNumber
        width := page.rectWidth
        height := page.rectHeight
        text := String.ofList built.1
        words := built.2
        rotation := page.rotation
        rasterKey := "" }
    pngBytes := env.pngBytes (page.pixmap rasterDpi) }

def extractPages (env : Env) (pdfBytes : Bytes) : Except Exn (List PageExtraction) := do
  let doc ← openPdf env pdfBytes
  checkEncryptionAndPageCount doc
  let extractions := doc.pages.zipIdx.map fun p => extractPage env p.1 (p.2 + 1)
  checkSupported ((extractions.filter fun e => e.page.words.isEmpty).map fun e => e.page.pageNumber)
  .ok extractions

/-! ### Words keep their boxes -/

theorem buildTextAndWords_bboxes (offset : Nat) (words : List RawWord) :
    (buildTextAndWords offset words).2.map (·.bbox) = words.map (·.bbox) := by
  induction words generalizing offset with
  | nil => rfl
  | cons w ws ih =>
    cases ws with
    | nil => rfl
    | cons w' ws' =>
      rw [buildTextAndWords, List.map_cons, List.map_cons, ih]

theorem extractPage_bbox {env : Env} {page : FitzPage} {n : Nat} {w : WordBBox}
    (h : w ∈ (extractPage env page n).page.words) : ∃ r ∈ page.words, r.bbox = w.bbox := by
  have hm : w.bbox ∈ (sortedWords page).map (·.bbox) := by
    rw [← buildTextAndWords_bboxes 0]
    exact List.mem_map_of_mem h
  obtain ⟨r, hr, hb⟩ := List.mem_map.mp hm
  exact ⟨r, (List.mem_insertionSort _).mp hr, hb⟩

theorem extractPage_word (env : Env) {page : FitzPage} (n : Nat) {r : RawWord}
    (h : r ∈ page.words) : ∃ w ∈ (extractPage env page n).page.words, w.bbox = r.bbox := by
  have hm : r.bbox ∈ ((buildTextAndWords 0 (sortedWords page)).2.map (·.bbox)) := by
    rw [buildTextAndWords_bboxes]
    exact List.mem_map_of_mem ((List.mem_insertionSort _).mpr h)
  exact List.mem_map.mp hm

theorem extractPages_pageNumber {env : Env} {pdfBytes : Bytes} {extractions : List PageExtraction}
    (h : extractPages env pdfBytes = .ok extractions) :
    ∀ e ∈ extractions, 1 ≤ e.page.pageNumber := by
  obtain ⟨doc, -, h⟩ := bind_ok h
  obtain ⟨_, -, h⟩ := bind_ok h
  obtain ⟨_, -, h⟩ := bind_ok h
  cases h
  intro e he
  obtain ⟨p, -, rfl⟩ := List.mem_map.mp he
  exact Nat.succ_le_succ (Nat.zero_le _)

theorem openPdf_ok {env : Env} {pdfBytes : Bytes} {doc : FitzDocument}
    (h : openPdf env pdfBytes = .ok doc) : env.fitzOpen pdfBytes = .ok doc := by
  rw [openPdf] at h
  split at h
  · rename_i hopen
    cases h
    exact hopen
  · split at h <;> cases h
  · cases h

theorem extractPages_le {env : Env} {pdfBytes : Bytes} {extractions : List PageExtraction}
    {doc : FitzDocument} (h : extractPages env pdfBytes = .ok extractions)
    (hopen : env.fitzOpen pdfBytes = .ok doc) :
    ∀ e ∈ extractions, e.page.pageNumber ≤ doc.pages.length := by
  obtain ⟨doc', hdoc, h⟩ := bind_ok h
  obtain ⟨_, -, h⟩ := bind_ok h
  obtain ⟨_, -, h⟩ := bind_ok h
  cases h
  have hsame := openPdf_ok hdoc
  rw [hopen] at hsame
  cases hsame
  intro e he
  obtain ⟨p, hp, rfl⟩ := List.mem_map.mp he
  exact (List.mem_zipIdx' hp).1

/-! ### The pre-check and the extraction -/

/-- Sorting and laying out the words of a page loses none. -/
theorem isEmpty_extractPage (env : Env) (page : FitzPage) (n : Nat) :
    (extractPage env page n).page.words.isEmpty = page.words.isEmpty := by
  have hbboxes := congrArg List.length (buildTextAndWords_bboxes 0 (sortedWords page))
  rw [List.length_map, List.length_map, sortedWords, List.length_insertionSort] at hbboxes
  rw [Bool.eq_iff_iff, List.isEmpty_iff_length_eq_zero, List.isEmpty_iff_length_eq_zero]
  exact Eq.congr_left hbboxes

/-- **The pre-check is the extraction** without its result. -/
theorem validatePdfStructure_eq (env : Env) (pdfBytes : Bytes) :
    validatePdfStructure env pdfBytes = (extractPages env pdfBytes).map fun _ => () := by
  have hnumbers : ∀ doc : FitzDocument,
      ((doc.pages.zipIdx.map fun p => extractPage env p.1 (p.2 + 1)).filter
        fun e => e.page.words.isEmpty).map (fun e => e.page.pageNumber) =
      (doc.pages.zipIdx.filter fun p => p.1.words.isEmpty).map fun p => p.2 + 1 := by
    intro doc
    rw [List.filter_map, List.map_map]
    congr 1
    exact List.filter_congr fun p _ => isEmpty_extractPage env p.1 (p.2 + 1)
  rw [validatePdfStructure, extractPages]
  cases openPdf env pdfBytes with
  | error e => rfl
  | ok doc =>
    dsimp only [bind, Except.bind]
    cases checkEncryptionAndPageCount doc with
    | error e => rfl
    | ok _ =>
      dsimp only
      rw [hnumbers]
      cases checkSupported _ <;> rfl

end RedactApi
