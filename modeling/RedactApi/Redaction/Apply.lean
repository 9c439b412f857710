import RedactApi.Redaction.VerifyGate
import RedactApi.Rounding

/-!
# The burn-in

`redaction/apply.py`: every page is rasterised, black boxes are painted over the
approved spans, the PDF is rebuilt from the images, and the verify gate reads
the result.

Coordinates are exact rationals: the doubles of the code are read as the numbers they
stand for, and sums and products of them are not rounded.  Where a product comes to lie next
to a half, `round` may take the other pixel: `(485, 100, 490, 110)` is painted from column
2013 by the code and from 2012 here.  What is kept of binary floating point is its range: a
product beyond `floatOverflow` is infinite and cannot be rounded.
-/

namespace RedactApi

def applyOutputDpi : Nat := 300

/-- Points added on every side of a box. -/
def boxPaddingPts : ℚ := 2

/-- Pixels for each point, `APPLY_OUTPUT_DPI / 72`. -/
def pixelScale : ℚ := applyOutputDpi / 72

def black : Rgb := ⟨0, 0, 0⟩

/-- From here on a `float` result is infinite. -/
def floatOverflow : ℚ := 2 ^ 1024 - 2 ^ 970

/-- Python's `round` on a `float`. -/
def pyRound (v : ℚ) : Except Exn ℤ :=
  if floatOverflow ≤ |v| then .error .overflow else .ok (roundHalfEven v)

def validatePageNumbers (spans : List ApprovedSpan) (pageCount : Nat) : Except Exn Unit :=
  spans.forM fun span =>
    if 1 ≤ span.pageNumber ∧ span.pageNumber ≤ pageCount then .ok ()
    else .error (.value s!"span page number {span.pageNumber} is out of range for a {pageCount}-page document")

/-- The spans of a page, by its 0-based index. -/
def spansByPage (spans : List ApprovedSpan) (index : Nat) : List ApprovedSpan :=
  spans.filter fun span => (span.pageNumber : ℤ) - 1 = index

/-- `ImageDraw.rectangle`, which paints its edges and refuses an inverted box. -/
def Image.rectangle (image : Image) (left top right bottom : ℤ) : Except Exn Image :=
  if right < left then .error (.value "x1 must be greater than or equal to x0")
  else if bottom < top then .error (.value "y1 must be greater than or equal to y0")
  else .ok { image with
    pixel := fun x y =>
      if left ≤ x ∧ x ≤ right ∧ top ≤ y ∧ y ≤ bottom then black else image.pixel x y }

/-- A rectangle of pixels, edges included. -/
structure PixelBox where
  left : ℤ
  top : ℤ
  right : ℤ
  bottom : ℤ
  deriving DecidableEq, Repr

/-- A box in pixels: padded, scaled, rounded, clamped to an image of that size. -/
def paddedBox (width height : Nat) (b : BBox) (scale : ℚ) : Except Exn PixelBox := do
  let left ← pyRound ((b.x0 - boxPaddingPts) * scale)
  let top ← pyRound ((b.y0 - boxPaddingPts) * scale)
  let right ← pyRound ((b.x1 + boxPaddingPts) * scale)
  let bottom ← pyRound ((b.y1 + boxPaddingPts) * scale)
  .ok ⟨max 0 left, max 0 top, min width right, min height bottom⟩

def drawBox (scale : ℚ) (image : Image) (b : BBox) : Except Exn Image := do
  let box ← paddedBox image.width image.height b scale
  image.rectangle box.left box.top box.right box.bottom

def drawBoxes (image : Image) (spans : List ApprovedSpan) (scale : ℚ) : Except Exn Image :=
  (spans.flatMap (·.bboxes)).foldlM (drawBox scale) image

def redactPageImage (page : FitzPage) (spans : List ApprovedSpan) : Except Exn Image :=
  drawBoxes (page.pixmap applyOutputDpi) spans pixelScale

def appendImagePage (out : OutDocument) (image : Image) : OutDocument :=
  { out with pages := out.pages ++ [⟨image.width / pixelScale, image.height / pixelScale, image⟩] }

def javascriptCatalogKeys : List String := ["Names/JavaScript", "OpenAction", "AA"]

def stripDocumentJavascript (doc : OutDocument) : OutDocument :=
  { doc with catalog := doc.catalog.filter fun e => e.1 ∉ javascriptCatalogKeys }

/-- Document information, XMP, embedded files and JavaScript are removed. -/
def stripMetadata (doc : OutDocument) : OutDocument :=
  stripDocumentJavascript { doc with metadata := [], xmlMetadata := none, embeddedFiles := [] }

def OutDocument.new : OutDocument := ⟨[], [], none, [], []⟩

def rebuildRedactedPdf (env : Env) (source : FitzDocument) (spans : List ApprovedSpan) :
    Except Exn Bytes := do
  let images ← source.pages.zipIdx.mapM fun (page, number) =>
    redactPageImage page (spansByPage spans number)
  env.tobytes (stripMetadata (images.foldl appendImagePage OutDocument.new))

/-- `sorted({span.text for span in spans})`. -/
def redactedStrings (spans : List ApprovedSpan) : List String :=
  (spans.map (·.text)).dedup.insertionSort fun a b => a.toList ≤ b.toList

/-- The burn-in, gated by `verify`; a `fail` verdict is a normal result. -/
def apply (env : Env) (pdfBytes : Bytes) (spans : List ApprovedSpan) : Except Exn ApplyResult := do
  let source ← env.fitzOpen pdfBytes
  validatePageNumbers spans source.pages.length
  let redactedPdf ← rebuildRedactedPdf env source spans
  let verifyResult ← verify env redactedPdf (redactedStrings spans)
  .ok ⟨redactedPdf, verifyResult⟩

end RedactApi
