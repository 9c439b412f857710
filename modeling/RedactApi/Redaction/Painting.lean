import RedactApi.Redaction.RotatedPages

/-!
# What the burn-in paints

On an unrotated page the boxes of the approved spans are painted in the frame they
were measured in.  A box can be drawn when its rectangle of pixels is not inverted;
drawing all boxes of a page paints the union of their rectangles, whatever the order,
and the rebuilt document has the painted image of every page in its place.
-/

namespace RedactApi

/-! ### One box -/

instance (box : PixelBox) (i j : Nat) : Decidable (box.Holds i j) :=
  inferInstanceAs (Decidable (_ ∧ _ ∧ _ ∧ _))

/-- The padded, rounded and clamped rectangle of the box holds the pixel. -/
def BBox.Paints (width height : Nat) (b : BBox) (i j : Nat) : Prop :=
  ∃ box, paddedBox width height b pixelScale = .ok box ∧ box.Holds i j

theorem paints_iff {width height : Nat} {b : BBox} {box : PixelBox}
    (h : paddedBox width height b pixelScale = .ok box) (i j : Nat) :
    b.Paints width height i j ↔ box.Holds i j := by
  constructor
  · rintro ⟨box', hbox', hholds⟩
    rw [h] at hbox'
    cases hbox'
    exact hholds
  · exact fun hholds => ⟨box, h, hholds⟩

instance (width height : Nat) (b : BBox) (i j : Nat) : Decidable (b.Paints width height i j) :=
  match h : paddedBox width height b pixelScale with
  | .ok _ => decidable_of_iff _ (paints_iff h i j).symm
  | .error _ => isFalse fun ⟨_, hbox, _⟩ => by rw [h] at hbox; cases hbox

/-- The rectangle of the box can be drawn on an image of that size. -/
def BBox.Drawable (width height : Nat) (b : BBox) : Prop :=
  ∃ box, paddedBox width height b pixelScale = .ok box ∧ box.left ≤ box.right ∧ box.top ≤ box.bottom

/-- The image with the rectangles of all boxes in black. -/
def Image.paint (image : Image) (boxes : List BBox) : Image :=
  { image with
    pixel := fun i j =>
      if ∃ b ∈ boxes, b.Paints image.width image.height i j then black else image.pixel i j }

theorem Image.paint_congr {image : Image} {boxes boxes' : List BBox}
    (h : ∀ b, b ∈ boxes ↔ b ∈ boxes') : image.paint boxes = image.paint boxes' := by
  simp only [Image.paint, h]

@[simp] theorem Image.paint_nil (image : Image) : image.paint [] = image := by
  simp [Image.paint]

theorem Image.paint_cons (image : Image) (b : BBox) (boxes : List BBox) :
    (image.paint [b]).paint boxes = image.paint (b :: boxes) := by
  have hpixel : (fun i j => if ∃ b' ∈ boxes, b'.Paints image.width image.height i j then black
        else if ∃ b' ∈ [b], b'.Paints image.width image.height i j then black
          else image.pixel i j) =
      fun i j => if ∃ b' ∈ b :: boxes, b'.Paints image.width image.height i j then black
        else image.pixel i j := by
    funext i j
    simp only [List.exists_mem_cons_iff, List.mem_singleton, exists_eq_left]
    by_cases hb : b.Paints image.width image.height i j <;> simp [hb]
  exact congrArg (Image.mk image.width image.height) hpixel

theorem drawBox_eq {image : Image} {b : BBox} (h : b.Drawable image.width image.height) :
    drawBox pixelScale image b = .ok (image.paint [b]) := by
  obtain ⟨box, hbox, hx, hy⟩ := h
  rw [drawBox, hbox]
  dsimp only [bind, Except.bind]
  rw [Image.rectangle, if_neg (not_lt.mpr hx), if_neg (not_lt.mpr hy)]
  simp only [Image.paint, List.mem_singleton, exists_eq_left, paints_iff hbox, PixelBox.Holds]

/-- **Drawing paints the union of the rectangles.** -/
theorem drawBoxes_eq {image : Image} {spans : List ApprovedSpan}
    (h : ∀ span ∈ spans, ∀ b ∈ span.bboxes, b.Drawable image.width image.height) :
    drawBoxes image spans pixelScale = .ok (image.paint (spans.flatMap (·.bboxes))) := by
  have hfold : ∀ (boxes : List BBox) (image : Image),
      (∀ b ∈ boxes, b.Drawable image.width image.height) →
        boxes.foldlM (drawBox pixelScale) image = .ok (image.paint boxes) := by
    intro boxes
    induction boxes with
    | nil => exact fun image _ => by rw [Image.paint_nil]; rfl
    | cons b boxes ih =>
      intro image hboxes
      rw [List.foldlM_cons, drawBox_eq (hboxes b List.mem_cons_self)]
      have hrest := ih (image.paint [b]) fun b' hb' => hboxes b' (List.mem_cons_of_mem _ hb')
      rw [Image.paint_cons] at hrest
      exact hrest
  refine hfold _ image fun b hb => ?_
  obtain ⟨span, hspan, hb⟩ := List.mem_flatMap.mp hb
  exact h span hspan b hb

/-! ### The rebuilt document -/

def pageBoxes (spans : List ApprovedSpan) (index : Nat) : List BBox :=
  (spansByPage spans index).flatMap (·.bboxes)

theorem mem_spansByPage {spans : List ApprovedSpan} {index : Nat} {span : ApprovedSpan} :
    span ∈ spansByPage spans index ↔ span ∈ spans ∧ span.pageNumber = index + 1 := by
  rw [spansByPage, List.mem_filter, decide_eq_true_iff]
  exact and_congr_right fun _ => by omega

theorem mem_pageBoxes {spans : List ApprovedSpan} {index : Nat} {b : BBox} :
    b ∈ pageBoxes spans index ↔ ∃ span ∈ spans, span.pageNumber = index + 1 ∧ b ∈ span.bboxes := by
  rw [pageBoxes, List.mem_flatMap]
  simp only [mem_spansByPage, and_assoc]

theorem validatePageNumbers_ok {spans : List ApprovedSpan} {pageCount : Nat}
    (h : ∀ span ∈ spans, 1 ≤ span.pageNumber ∧ span.pageNumber ≤ pageCount) :
    validatePageNumbers spans pageCount = .ok () := by
  rw [validatePageNumbers, List.forM_eq_forM]
  induction spans with
  | nil => rfl
  | cons span spans ih =>
    rw [List.forM_cons, if_pos (h span List.mem_cons_self)]
    exact ih fun span' hspan' => h span' (List.mem_cons_of_mem _ hspan')

def imagePage (image : Image) : OutPage :=
  ⟨image.width / pixelScale, image.height / pixelScale, image⟩

theorem pages_foldl_append (images : List Image) (out : OutDocument) :
    (images.foldl appendImagePage out).pages = out.pages ++ images.map imagePage := by
  induction images generalizing out with
  | nil => rw [List.map_nil, List.append_nil]; rfl
  | cons image images ih =>
    rw [List.foldl_cons, ih, List.map_cons, List.append_cons]
    rfl

def paintedPages (source : FitzDocument) (spans : List ApprovedSpan) : List Image :=
  (List.finRange source.pages.length).map fun k =>
    ((source.pages.get k).pixmap applyOutputDpi).paint (pageBoxes spans k)

/-- The document that is rebuilt from some images. -/
def rebuiltFrom (images : List Image) : OutDocument :=
  stripMetadata (images.foldl appendImagePage OutDocument.new)

theorem pages_rebuiltFrom (images : List Image) :
    (rebuiltFrom images).pages = images.map imagePage := by
  have h := pages_foldl_append images OutDocument.new
  rwa [OutDocument.new, List.nil_append] at h

def AllDrawable (source : FitzDocument) (spans : List ApprovedSpan) : Prop :=
  ∀ k : Fin source.pages.length, ∀ b ∈ pageBoxes spans k,
    b.Drawable ((source.pages.get k).pixmap applyOutputDpi).width
      ((source.pages.get k).pixmap applyOutputDpi).height

theorem redactPageImage_eq {source : FitzDocument} {spans : List ApprovedSpan}
    (h : AllDrawable source spans) (k : Fin source.pages.length) :
    redactPageImage (source.pages.get k) (spansByPage spans k) =
      .ok (((source.pages.get k).pixmap applyOutputDpi).paint (pageBoxes spans k)) :=
  drawBoxes_eq fun span hspan b hb => h k b (List.mem_flatMap.mpr ⟨span, hspan, hb⟩)

/-- **The rebuild replaces every page by its painted image.** -/
theorem rebuildRedactedPdf_eq {env : Env} {source : FitzDocument} {spans : List ApprovedSpan}
    (h : AllDrawable source spans) : rebuildRedactedPdf env source spans =
      env.tobytes (rebuiltFrom (paintedPages source spans)) := by
  have hpages : ∀ k ∈ List.finRange source.pages.length,
      ((fun numbered : FitzPage × Nat =>
          redactPageImage numbered.1 (spansByPage spans numbered.2)) ∘
        fun k => (source.pages.get k, k.val)) k =
        .ok (((source.pages.get k).pixmap applyOutputDpi).paint (pageBoxes spans k)) :=
    fun k _ => redactPageImage_eq h k
  rw [rebuildRedactedPdf, zipIdx_eq_finRange, List.mapM_map, mapM_ok hpages]
  rfl

/-! ### Boxes on unrotated pages -/

/-- A page that is not rotated, and its raster. -/
structure FitzPage.Unrotated (page : FitzPage) : Prop where
  rotation : page.rotation = 0
  pixmapWidth : PixelCount (page.pixmap applyOutputDpi).width (page.rectWidth * applyOutputDpi / 72)
  pixmapHeight :
    PixelCount (page.pixmap applyOutputDpi).height (page.rectHeight * applyOutputDpi / 72)

/-- A box that is not inverted and intersects its page. -/
structure BBox.OnPage (b : BBox) (page : FitzPage) : Prop where
  x0_le_x1 : b.x0 ≤ b.x1
  y0_le_y1 : b.y0 ≤ b.y1
  x0_le : b.x0 ≤ page.rectWidth
  y0_le : b.y0 ≤ page.rectHeight
  x1_nonneg : 0 ≤ b.x1
  y1_nonneg : 0 ≤ b.y1

/-- The arithmetic on the coordinates is exact: no product is infinite as a `float`. -/
structure BBox.Exact (b : BBox) : Prop where
  left : |(b.x0 - boxPaddingPts) * pixelScale| < floatOverflow
  top : |(b.y0 - boxPaddingPts) * pixelScale| < floatOverflow
  right : |(b.x1 + boxPaddingPts) * pixelScale| < floatOverflow
  bottom : |(b.y1 + boxPaddingPts) * pixelScale| < floatOverflow

/-- The unit square of the pixel touches the scaled box. -/
structure BBox.Touches (b : BBox) (i j : Nat) : Prop where
  left : b.x0 * pixelScale ≤ i + 1
  right : i ≤ b.x1 * pixelScale
  top : b.y0 * pixelScale ≤ j + 1
  bottom : j ≤ b.y1 * pixelScale

theorem BBox.Exact.paddedBox {b : BBox} (h : b.Exact) (width height : Nat) :
    paddedBox width height b pixelScale =
      .ok ⟨firstPixel b.x0, firstPixel b.y0, lastPixel width b.x1, lastPixel height b.y1⟩ := by
  rw [RedactApi.paddedBox, pyRound_ok h.left, pyRound_ok h.top, pyRound_ok h.right,
    pyRound_ok h.bottom]
  rfl

/-- On one axis, what intersects the page is not inverted. -/
theorem firstPixel_le_of_intersects {a b length : ℚ} {n : Nat} (hab : a ≤ b) (ha : a ≤ length)
    (hb : 0 ≤ b) (hn : PixelCount n (length * applyOutputDpi / 72)) :
    firstPixel a ≤ lastPixel n b := by
  have hbound := hn.bound ha
  have hlast : 0 ≤ roundHalfEven ((b + boxPaddingPts) * pixelScale) := by
    refine le_roundHalfEven_of_lt ?_
    rw [pixelScale_eq, boxPaddingPts]
    push_cast
    linarith
  refine max_le (le_min (by omega) hlast) (le_min ?_ ?_)
  · refine roundHalfEven_le_of_lt ?_
    rw [pixelScale_eq] at hbound ⊢
    rw [boxPaddingPts]
    push_cast
    linarith
  · refine roundHalfEven_mono ?_
    rw [pixelScale_eq, boxPaddingPts]
    linarith

theorem BBox.Exact.drawable_iff {b : BBox} (h : b.Exact) {width height : Nat} :
    b.Drawable width height ↔
      firstPixel b.x0 ≤ lastPixel width b.x1 ∧ firstPixel b.y0 ≤ lastPixel height b.y1 := by
  rw [BBox.Drawable, h.paddedBox]
  constructor
  · rintro ⟨box, hbox, hdraw⟩
    cases hbox
    exact hdraw
  · exact fun hdraw => ⟨_, rfl, hdraw⟩

theorem BBox.OnPage.drawable {b : BBox} {page : FitzPage} (h : b.OnPage page) (hexact : b.Exact)
    (hpage : page.Unrotated) :
    b.Drawable (page.pixmap applyOutputDpi).width (page.pixmap applyOutputDpi).height :=
  hexact.drawable_iff.mpr
    ⟨firstPixel_le_of_intersects h.x0_le_x1 h.x0_le h.x1_nonneg hpage.pixmapWidth,
      firstPixel_le_of_intersects h.y0_le_y1 h.y0_le h.y1_nonneg hpage.pixmapHeight⟩

theorem BBox.Touches.paints {b : BBox} {width height i j : Nat} (h : b.Touches i j)
    (hexact : b.Exact) (hi : i < width) (hj : j < height) : b.Paints width height i j := by
  obtain ⟨h₁, h₂⟩ := touches_painted hi h.left h.right
  obtain ⟨h₃, h₄⟩ := touches_painted hj h.top h.bottom
  exact ⟨_, hexact.paddedBox width height, h₁, h₂, h₃, h₄⟩

/-! ### The painting -/

def SameBoxes (spans spans' : List ApprovedSpan) : Prop :=
  ∀ number b, (∃ span ∈ spans, span.pageNumber = number ∧ b ∈ span.bboxes) ↔
    ∃ span ∈ spans', span.pageNumber = number ∧ b ∈ span.bboxes

theorem SameBoxes.pageBoxes {spans spans' : List ApprovedSpan} (h : SameBoxes spans spans')
    (index : Nat) (b : BBox) : b ∈ pageBoxes spans index ↔ b ∈ pageBoxes spans' index := by
  rw [mem_pageBoxes, mem_pageBoxes]
  exact h (index + 1) b

theorem SameBoxes.rebuild {env : Env} {source : FitzDocument} {spans spans' : List ApprovedSpan}
    (h : SameBoxes spans spans') (hdraw : AllDrawable source spans) :
    rebuildRedactedPdf env source spans' = rebuildRedactedPdf env source spans := by
  have hdraw' : AllDrawable source spans' := fun k b hb => hdraw k b ((h.pageBoxes k b).mpr hb)
  have hpainted : paintedPages source spans' = paintedPages source spans :=
    List.map_congr_left fun k _ => Image.paint_congr fun b => (h.pageBoxes k b).symm
  rw [rebuildRedactedPdf_eq hdraw, rebuildRedactedPdf_eq hdraw', hpainted]

/-- The pixel of a page is painted by a span with its number. -/
def PaintedBy (spans : List ApprovedSpan) (number width height i j : Nat) : Prop :=
  ∃ span ∈ spans, span.pageNumber = number ∧ ∃ b ∈ span.bboxes, b.Paints width height i j

theorem exists_pageBoxes_iff {spans : List ApprovedSpan} {index width height i j : Nat} :
    (∃ b ∈ pageBoxes spans index, b.Paints width height i j) ↔
      PaintedBy spans (index + 1) width height i j := by
  constructor
  · rintro ⟨b, hb, hpaints⟩
    obtain ⟨span, hspan, hnumber, hb⟩ := mem_pageBoxes.mp hb
    exact ⟨span, hspan, hnumber, b, hb, hpaints⟩
  · rintro ⟨span, hspan, hnumber, b, hb, hpaints⟩
    exact ⟨b, mem_pageBoxes.mpr ⟨span, hspan, hnumber, hb⟩, hpaints⟩

/-- What has become of a page: black where a span with its number paints, and there
only, which is everywhere a box of such a span touches. -/
structure Painted (spans : List ApprovedSpan) (number : Nat) (before after : Image) : Prop where
  width : after.width = before.width
  height : after.height = before.height
  black : ∀ i j, PaintedBy spans number before.width before.height i j → after.pixel i j = black
  kept : ∀ i j, ¬ PaintedBy spans number before.width before.height i j →
    after.pixel i j = before.pixel i j
  untouched : (∀ span ∈ spans, span.pageNumber ≠ number) → after = before
  covered : ∀ span ∈ spans, span.pageNumber = number → ∀ b ∈ span.bboxes,
    ∀ i < before.width, ∀ j < before.height, b.Touches i j → after.pixel i j = RedactApi.black

theorem painted_paint {spans : List ApprovedSpan} {index : Nat} (image : Image)
    (hexact : ∀ b ∈ pageBoxes spans index, b.Exact) :
    Painted spans (index + 1) image (image.paint (pageBoxes spans index)) := by
  have hblack : ∀ i j, PaintedBy spans (index + 1) image.width image.height i j →
      (image.paint (pageBoxes spans index)).pixel i j = black :=
    fun i j h => if_pos (exists_pageBoxes_iff.mpr h)
  refine ⟨rfl, rfl, hblack, fun i j h => if_neg (mt exists_pageBoxes_iff.mp h), fun hnone => ?_,
    fun span hspan hnumber b hb i hi j hj htouches => ?_⟩
  · have hnil : pageBoxes spans index = [] := by
      refine List.eq_nil_iff_forall_not_mem.mpr fun b hb => ?_
      obtain ⟨span, hspan, hnumber, -⟩ := mem_pageBoxes.mp hb
      exact hnone span hspan hnumber
    rw [hnil, Image.paint_nil]
  · have hb' := hexact b (mem_pageBoxes.mpr ⟨span, hspan, hnumber, hb⟩)
    exact hblack i j ⟨span, hspan, hnumber, b, hb, htouches.paints hb' hi hj⟩

/-- **The painting of the burn-in.**  With page numbers in range and boxes that intersect
their unrotated pages nothing raises before the rebuilt document is saved; it has one page for
each page of the source, in order, with the image of that page, painted; and the result
depends on the boxes of each page only, not on their order. -/
theorem burn_in_paints (env : Env) (source : FitzDocument) (spans : List ApprovedSpan)
    (hsource : ∀ page ∈ source.pages, page.Unrotated)
    (hnumbers : ∀ span ∈ spans, 1 ≤ span.pageNumber ∧ span.pageNumber ≤ source.pages.length)
    (hboxes : ∀ (k : Fin source.pages.length), ∀ span ∈ spans, span.pageNumber = k + 1 →
      ∀ b ∈ span.bboxes, b.Exact ∧ b.OnPage (source.pages.get k)) :
    validatePageNumbers spans source.pages.length = .ok () ∧
      (∃ out : OutDocument, rebuildRedactedPdf env source spans = env.tobytes out ∧
        ∃ hlength : source.pages.length = out.pages.length, ∀ k : Fin source.pages.length,
          redactPageImage (source.pages.get k) (spansByPage spans k) =
              .ok (out.pages.get (k.cast hlength)).image ∧
            Painted spans (k + 1) ((source.pages.get k).pixmap applyOutputDpi)
              (out.pages.get (k.cast hlength)).image) ∧
      ∀ spans', SameBoxes spans spans' →
        rebuildRedactedPdf env source spans' = rebuildRedactedPdf env source spans := by
  have hpage : ∀ (k : Fin source.pages.length) (b : BBox), b ∈ pageBoxes spans k →
      b.Exact ∧ b.OnPage (source.pages.get k) := by
    intro k b hb
    obtain ⟨span, hspan, hnumber, hb⟩ := mem_pageBoxes.mp hb
    exact hboxes k span hspan hnumber b hb
  have hdraw : AllDrawable source spans := fun k b hb =>
    (hpage k b hb).2.drawable (hpage k b hb).1 (hsource _ (List.get_mem _ k))
  have hpages := pages_rebuiltFrom (paintedPages source spans)
  have hlength : source.pages.length = (rebuiltFrom (paintedPages source spans)).pages.length := by
    rw [hpages, List.length_map, paintedPages, List.length_map, List.length_finRange]
  refine ⟨validatePageNumbers_ok hnumbers,
    ⟨_, rebuildRedactedPdf_eq hdraw, hlength, fun k => ?_⟩, fun spans' h => h.rebuild hdraw⟩
  have himage : ((rebuiltFrom (paintedPages source spans)).pages.get (k.cast hlength)).image =
      ((source.pages.get k).pixmap applyOutputDpi).paint (pageBoxes spans k) := by
    rw [List.get_of_eq hpages]
    simp [paintedPages, imagePage]
    rfl
  rw [himage]
  exact ⟨redactPageImage_eq hdraw k, painted_paint _ fun b hb => (hpage k b hb).1⟩

def letterPage : FitzPage where
  rectWidth := 612
  rectHeight := 792
  rotation := 0
  words := []
  text := ""
  searchFor _ := []
  pixmap _ := ⟨2550, 3300, fun _ _ => ⟨255, 255, 255⟩⟩

def blankLetter : FitzDocument where
  needsPass := false
  pages := [letterPage]
  metadata := []
  xmlMetadata := none

/-- A word, and a box over the lower left corner of the page. -/
def wordAndCorner : List ApprovedSpan :=
  [⟨1, [⟨72, 72, 144, 90⟩, ⟨-10, 700, 50, 900⟩], "x"⟩]

theorem exact_of_abs_le {b : BBox} (hx0 : |b.x0| ≤ 1000) (hy0 : |b.y0| ≤ 1000) (hx1 : |b.x1| ≤ 1000)
    (hy1 : |b.y1| ≤ 1000) : b.Exact := by
  have hsmall : ∀ v : ℚ, |v| ≤ 1002 → |v * pixelScale| < floatOverflow := by
    intro v hv
    refine lt_of_lt_of_le ?_ floatOverflow_large
    rw [abs_mul, pixelScale_eq]
    norm_num
    linarith
  rw [abs_le] at hx0 hy0 hx1 hy1
  constructor <;> refine hsmall _ (abs_le.mpr ?_) <;> rw [boxPaddingPts] <;> constructor <;> linarith

/-- A pixel of the word is black. -/
theorem burn_in_paints_word :
    ∃ out : OutDocument,
      rebuildRedactedPdf (Env.letter id) blankLetter wordAndCorner = (Env.letter id).tobytes out ∧
        ∃ page ∈ out.pages, page.image.pixel 400 350 = black := by
  have hboxes : ∀ (k : Fin blankLetter.pages.length), ∀ span ∈ wordAndCorner,
      span.pageNumber = k + 1 → ∀ b ∈ span.bboxes, b.Exact ∧ b.OnPage (blankLetter.pages.get k) := by
    intro k span hspan _ b hb
    rw [List.mem_singleton.mp (List.get_mem blankLetter.pages k)]
    cases List.mem_singleton.mp hspan
    have hb : b = ⟨72, 72, 144, 90⟩ ∨ b = ⟨-10, 700, 50, 900⟩ := by simpa using hb
    rcases hb with rfl | rfl <;> refine ⟨exact_of_abs_le ?_ ?_ ?_ ?_, ?_⟩ <;>
      (constructor <;> norm_num [letterPage])
  have hpage : letterPage.Unrotated := by
    constructor <;> norm_num [letterPage, PixelCount, applyOutputDpi]
  obtain ⟨-, ⟨out, hout, hlength, hpages⟩, -⟩ := burn_in_paints (Env.letter id) blankLetter
    wordAndCorner (fun page hmem => List.mem_singleton.mp hmem ▸ hpage) (by decide) hboxes
  have hcovered := (hpages ⟨0, Nat.one_pos⟩).2.covered _ List.mem_cons_self rfl _ List.mem_cons_self
    400 (by decide) 350 (by decide) (by constructor <;> rw [pixelScale_eq] <;> norm_num)
  exact ⟨out, hout, _, List.get_mem _ _, hcovered⟩

end RedactApi
