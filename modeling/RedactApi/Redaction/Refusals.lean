import RedactApi.Redaction.Painting

/-!
# When the burn-in raises

`apply` checks the page numbers and draws every box before the gate looks at the
result.  With libraries that do not fail it returns exactly when every page number is
in range and every box can be drawn on its page.
-/

namespace RedactApi

/-- PyMuPDF saves every document that has pages and opens it again, and Tesseract reads
every image. -/
structure LibrariesSucceed (env : Env) : Prop where
  reopens : ∀ out : OutDocument, out.pages ≠ [] →
    ∃ pdf doc, env.tobytes out = .ok pdf ∧ env.fitzOpen pdf = .ok doc
  reads : ∀ image, ∃ text, env.imageToString image = .ok text

/-! ### Boxes -/

/-- A box that is not inverted after it is clamped, and no other, is drawn. -/
theorem drawBox_ok_iff {image : Image} {b : BBox} :
    (∃ image', drawBox pixelScale image b = .ok image') ↔ b.Drawable image.width image.height := by
  constructor
  · rintro ⟨image', h⟩
    obtain ⟨box, hbox, h⟩ := bind_ok h
    rw [Image.rectangle] at h
    split at h
    · cases h
    · rename_i hx
      split at h
      · cases h
      · rename_i hy
        exact ⟨box, hbox, not_lt.mp hx, not_lt.mp hy⟩
  · exact fun h => ⟨_, drawBox_eq h⟩

/-- Drawing does not change the size of the image, so one box does not decide on
another. -/
theorem drawBoxes_ok_iff {image : Image} {spans : List ApprovedSpan} :
    (∃ image', drawBoxes image spans pixelScale = .ok image') ↔
      ∀ span ∈ spans, ∀ b ∈ span.bboxes, b.Drawable image.width image.height := by
  have hfold : ∀ (boxes : List BBox) (image : Image),
      (∃ image', boxes.foldlM (drawBox pixelScale) image = .ok image') →
        ∀ b ∈ boxes, b.Drawable image.width image.height := by
    intro boxes
    induction boxes with
    | nil => exact fun _ _ _ h => absurd h List.not_mem_nil
    | cons b boxes ih =>
      rintro image ⟨image', h⟩
      rw [List.foldlM_cons] at h
      obtain ⟨image₁, hb, h⟩ := bind_ok h
      have hdraw := drawBox_ok_iff.mp ⟨image₁, hb⟩
      rw [drawBox_eq hdraw] at hb
      cases hb
      exact List.forall_mem_cons.mpr ⟨hdraw, ih (image.paint [b]) ⟨image', h⟩⟩
  refine ⟨fun h span hspan b hb => ?_, fun h => ⟨_, drawBoxes_eq h⟩⟩
  exact hfold _ image h b (List.mem_flatMap.mpr ⟨span, hspan, hb⟩)

theorem drawable_of_rebuild {env : Env} {source : FitzDocument} {spans : List ApprovedSpan}
    {pdf : Bytes} (h : rebuildRedactedPdf env source spans = .ok pdf) : AllDrawable source spans := by
  intro k b hb
  obtain ⟨images, himages, -⟩ := bind_ok h
  rw [zipIdx_eq_finRange, List.mapM_map] at himages
  have hpage := drawBoxes_ok_iff.mp (exists_mapM.mp ⟨images, himages⟩ k (List.mem_finRange k))
  obtain ⟨span, hspan, hb⟩ := List.mem_flatMap.mp hb
  exact hpage span hspan b hb

/-! ### Page numbers -/

def InRange (pageCount : Nat) (span : ApprovedSpan) : Prop :=
  1 ≤ span.pageNumber ∧ span.pageNumber ≤ pageCount

/-- The check passes, or it names the first number out of range. -/
theorem validatePageNumbers_cases (spans : List ApprovedSpan) (pageCount : Nat) :
    validatePageNumbers spans pageCount = .ok () ∧ (∀ span ∈ spans, InRange pageCount span) ∨
      ∃ span ∈ spans, ¬ InRange pageCount span ∧ validatePageNumbers spans pageCount =
        .error (.value s!"span page number {span.pageNumber} is out of range for a {pageCount}-page document") := by
  rw [validatePageNumbers, List.forM_eq_forM]
  induction spans with
  | nil => exact Or.inl ⟨rfl, fun _ h => absurd h List.not_mem_nil⟩
  | cons span spans ih =>
    rw [List.forM_cons]
    by_cases hrange : 1 ≤ span.pageNumber ∧ span.pageNumber ≤ pageCount
    · rw [if_pos hrange]
      rcases ih with ⟨hok, hall⟩ | ⟨span', hspan', hout, herror⟩
      · exact Or.inl ⟨hok, List.forall_mem_cons.mpr ⟨hrange, hall⟩⟩
      · exact Or.inr ⟨span', List.mem_cons_of_mem _ hspan', hout, herror⟩
    · rw [if_neg hrange]
      exact Or.inr ⟨span, List.mem_cons_self, hrange, rfl⟩

theorem validatePageNumbers_ok_iff {spans : List ApprovedSpan} {pageCount : Nat} :
    validatePageNumbers spans pageCount = .ok () ↔ ∀ span ∈ spans, InRange pageCount span := by
  refine ⟨fun h => ?_, validatePageNumbers_ok⟩
  rcases validatePageNumbers_cases spans pageCount with ⟨-, hall⟩ | ⟨_, _, _, herror⟩
  · exact hall
  · rw [h] at herror
    cases herror

/-! ### The gate -/

theorem ocrPage_returns {env : Env} (h : LibrariesSucceed env) (targets : List (String × String))
    (page : FitzPage) (number : Nat) : ∃ findings, ocrPage env targets page number = .ok findings := by
  obtain ⟨text, htext⟩ := h.reads (page.pixmap ocrRasterDpi)
  rw [ocrPage]
  split
  · exact ⟨_, rfl⟩
  · rw [htext]
    exact ⟨_, rfl⟩

theorem verify_returns {env : Env} (h : LibrariesSucceed env) {pdf : Bytes} {doc : FitzDocument}
    (hopen : env.fitzOpen pdf = .ok doc) (strings : List String) :
    ∃ result, verify env pdf strings = .ok result := by
  obtain ⟨perPage, hperPage⟩ := exists_mapM.mpr fun (numbered : FitzPage × Nat)
    (_ : numbered ∈ doc.pages.zipIdx) =>
      ocrPage_returns h (normalizedTargets env strings) numbered.1 numbered.2
  have hocr : ∃ ocr, checkOcr env doc strings = .ok ocr := by
    rw [checkOcr]
    dsimp only
    rw [hperPage]
    exact ⟨_, rfl⟩
  obtain ⟨ocr, hocr⟩ := hocr
  rw [verify, hopen]
  dsimp only [bind, Except.bind]
  rw [hocr]
  exact ⟨_, rfl⟩

/-! ### The burn-in -/

/-- **The burn-in returns** exactly when every page number is in range and every box can
be drawn.  A document without pages cannot be saved. -/
theorem apply_ok_iff {env : Env} (h : LibrariesSucceed env) {original : Bytes}
    {source : FitzDocument} (hopen : env.fitzOpen original = .ok source) (hpages : source.pages ≠ [])
    (spans : List ApprovedSpan) : (∃ result, apply env original spans = .ok result) ↔
      (∀ span ∈ spans, InRange source.pages.length span) ∧ AllDrawable source spans := by
  rw [apply, hopen]
  dsimp only [bind, Except.bind]
  constructor
  · rintro ⟨result, happly⟩
    obtain ⟨_, hnumbers, happly⟩ := bind_ok happly
    obtain ⟨pdf, hpdf, -⟩ := bind_ok happly
    exact ⟨validatePageNumbers_ok_iff.mp hnumbers, drawable_of_rebuild hpdf⟩
  · rintro ⟨hnumbers, hboxes⟩
    have hrebuilt : (rebuiltFrom (paintedPages source spans)).pages ≠ [] := by
      rw [pages_rebuiltFrom, paintedPages]
      simpa using hpages
    obtain ⟨pdf, doc, hpdf, hdoc⟩ := h.reopens _ hrebuilt
    obtain ⟨verifyResult, hverify⟩ := verify_returns h hdoc (redactedStrings spans)
    rw [validatePageNumbers_ok hnumbers]
    dsimp only
    rw [rebuildRedactedPdf_eq hboxes, hpdf]
    dsimp only
    rw [hverify]
    exact ⟨_, rfl⟩

/-- A page number out of range is refused before anything is drawn. -/
theorem apply_out_of_range {env : Env} {original : Bytes} {source : FitzDocument}
    (hopen : env.fitzOpen original = .ok source) {spans : List ApprovedSpan} {span : ApprovedSpan}
    (hspan : span ∈ spans) (hout : source.pages.length < span.pageNumber) :
    ∃ message, apply env original spans = .error (.value message) := by
  rcases validatePageNumbers_cases spans source.pages.length with ⟨-, hall⟩ | ⟨_, _, _, herror⟩
  · exact absurd (hall span hspan).2 (Nat.not_le.mpr hout)
  · rw [apply, hopen]
    dsimp only [bind, Except.bind]
    rw [herror]
    exact ⟨_, rfl⟩

end RedactApi
