import Mathlib.Tactic.NormNum
import RedactApi.Ingest.Pdf
import RedactApi.Redaction.Apply

/-!
# The burn-in on rotated pages

Word boxes come from `get_text("words")`, in the unrotated frame of the page; the
raster the boxes are painted on is rendered with the rotation.  `Sheet.render` is
the map between the two frames, which `drawBoxes` does not apply.

What is painted covers the words of every page exactly when the page is not
rotated, or so small that the padding of any box reaches every pixel.
-/

namespace RedactApi

/-! ### A page in its two frames -/

/-- `/Rotate`: how far the page is turned clockwise when it is shown. -/
inductive Rotation
  | none | quarter | half | threeQuarter
  deriving DecidableEq, Repr

def Rotation.degrees : Rotation → Nat
  | .none => 0
  | .quarter => 90
  | .half => 180
  | .threeQuarter => 270

/-- The unrotated size of a page and its rotation.  Coordinates are
single-precision numbers in MuPDF, hence the bounds. -/
structure Sheet where
  width : ℚ
  height : ℚ
  rotation : Rotation
  width_pos : 0 < width
  height_pos : 0 < height
  width_le : width ≤ 2 ^ 128
  height_le : height ≤ 2 ^ 128

/-- Where a box of the unrotated frame appears on the rendered page. -/
def Sheet.render (sheet : Sheet) (b : BBox) : BBox :=
  match sheet.rotation with
  | .none => b
  | .quarter => ⟨sheet.height - b.y1, b.x0, sheet.height - b.y0, b.x1⟩
  | .half => ⟨sheet.width - b.x1, sheet.height - b.y1, sheet.width - b.x0, sheet.height - b.y0⟩
  | .threeQuarter => ⟨b.y0, sheet.width - b.x1, b.y1, sheet.width - b.x0⟩

def Sheet.renderedWidth (sheet : Sheet) : ℚ :=
  match sheet.rotation with
  | .none | .half => sheet.width
  | .quarter | .threeQuarter => sheet.height

def Sheet.renderedHeight (sheet : Sheet) : ℚ :=
  match sheet.rotation with
  | .none | .half => sheet.height
  | .quarter | .threeQuarter => sheet.width

/-- A box with an inside, within the unrotated page. -/
structure Sheet.Inside (sheet : Sheet) (b : BBox) : Prop where
  x0_nonneg : 0 ≤ b.x0
  x0_lt : b.x0 < b.x1
  x1_le : b.x1 ≤ sheet.width
  y0_nonneg : 0 ≤ b.y0
  y0_lt : b.y0 < b.y1
  y1_le : b.y1 ≤ sheet.height

/-- A number of pixels for a length: at least one, and off by less than one. -/
def PixelCount (n : Nat) (length : ℚ) : Prop :=
  1 ≤ n ∧ length - 1 < n ∧ (n : ℚ) < length + 1

/-- What PyMuPDF shows of a page: sizes and pixmaps are rotated, words are not. -/
structure Sheet.Renders (sheet : Sheet) (page : FitzPage) : Prop where
  rotation : page.rotation = sheet.rotation.degrees
  rectWidth : page.rectWidth = sheet.renderedWidth
  rectHeight : page.rectHeight = sheet.renderedHeight
  pixmapWidth : ∀ dpi, 0 < dpi →
    PixelCount (page.pixmap dpi).width (sheet.renderedWidth * dpi / 72)
  pixmapHeight : ∀ dpi, 0 < dpi →
    PixelCount (page.pixmap dpi).height (sheet.renderedHeight * dpi / 72)
  words : ∀ w ∈ page.words, sheet.Inside w.bbox

def Meets (a b : ℚ) (i : Nat) : Prop := a * pixelScale < i + 1 ∧ i < b * pixelScale

def BBox.Shows (b : BBox) (i j : Nat) : Prop := Meets b.x0 b.x1 i ∧ Meets b.y0 b.y1 j

def PixelBox.Holds (box : PixelBox) (i j : Nat) : Prop :=
  box.left ≤ i ∧ i ≤ box.right ∧ box.top ≤ j ∧ j ≤ box.bottom

/-- **Covered.**  The box is painted, and what is painted holds every pixel of the
image of the word. -/
def Sheet.Covered (sheet : Sheet) (image : Image) (b : BBox) : Prop :=
  ∃ box painted, paddedBox image.width image.height b pixelScale = .ok box ∧
    drawBox pixelScale image b = .ok painted ∧
    ∀ i j, i < image.width → j < image.height → (sheet.render b).Shows i j → box.Holds i j

/-! ### One axis -/

theorem pixelScale_eq : pixelScale = 25 / 6 := by
  rw [pixelScale, applyOutputDpi]
  norm_num

/-- First and last pixel painted on an axis of `n` pixels. -/
def firstPixel (a : ℚ) : ℤ := max 0 (roundHalfEven ((a - boxPaddingPts) * pixelScale))

def lastPixel (n : Nat) (b : ℚ) : ℤ := min n (roundHalfEven ((b + boxPaddingPts) * pixelScale))

/-- In one frame the padding is more than the rounding takes away. -/
theorem touches_painted {a b : ℚ} {n i : Nat} (hi : i < n) (ha : a * pixelScale ≤ i + 1)
    (hb : i ≤ b * pixelScale) : firstPixel a ≤ i ∧ i ≤ lastPixel n b := by
  rw [pixelScale_eq] at ha hb
  constructor
  · refine max_le (by omega) (roundHalfEven_le_of_lt ?_)
    rw [pixelScale_eq, boxPaddingPts]
    push_cast
    linarith
  · refine le_min (by omega) (le_roundHalfEven_of_lt ?_)
    rw [pixelScale_eq, boxPaddingPts]
    push_cast
    linarith

theorem meets_painted {a b : ℚ} {n i : Nat} (hi : i < n) (h : Meets a b i) :
    firstPixel a ≤ i ∧ i ≤ lastPixel n b := touches_painted hi h.1.le h.2.le

/-- A box that starts within `53 / 25` points is painted from the first pixel. -/
theorem firstPixel_eq_zero {a : ℚ} (h : a < 53 / 25) : firstPixel a = 0 := by
  refine max_eq_left (roundHalfEven_le_of_lt ?_)
  rw [pixelScale_eq, boxPaddingPts]
  push_cast
  linarith

theorem firstPixel_pos {a : ℚ} (h : 53 / 25 < a) : 0 < firstPixel a := by
  have h1 : 1 ≤ roundHalfEven ((a - boxPaddingPts) * pixelScale) := by
    refine le_roundHalfEven_of_lt ?_
    rw [pixelScale_eq, boxPaddingPts]
    push_cast
    linarith
  exact lt_of_lt_of_le (by omega) (le_max_right _ _)

/-- On an axis of at most `53 / 25` points everything is painted. -/
theorem small_painted {a b c d : ℚ} {n i : Nat} (ha : a < 53 / 25) (hb : 0 < b) (hi : i < n)
    (hd : d ≤ 53 / 25) (h : Meets c d i) : firstPixel a ≤ i ∧ i ≤ lastPixel n b := by
  constructor
  · rw [firstPixel_eq_zero ha]
    omega
  · have hi' : (i : ℚ) < 9 := by
      have := h.2
      rw [pixelScale_eq] at this
      linarith
    have h8 : 8 ≤ roundHalfEven ((b + boxPaddingPts) * pixelScale) := by
      refine le_roundHalfEven_of_lt ?_
      rw [pixelScale_eq, boxPaddingPts]
      push_cast
      linarith
    have hi9 : i < 9 := by exact_mod_cast hi'
    exact le_min (by omega) (by omega)

theorem firstPixel_le_lastPixel {a b : ℚ} {n : Nat} (ha : 0 ≤ a) (hab : a < b) (hn : 1 ≤ n)
    (hc : a < 53 / 25 ∨ b * pixelScale - 1 < n) : firstPixel a ≤ lastPixel n b := by
  have hb : 0 ≤ roundHalfEven ((b + boxPaddingPts) * pixelScale) := by
    refine le_roundHalfEven_of_lt ?_
    rw [pixelScale_eq, boxPaddingPts]
    push_cast
    linarith
  refine max_le (le_min (by omega) hb) (le_min ?_ ?_)
  · refine roundHalfEven_le_of_lt ?_
    rw [pixelScale_eq] at hc ⊢
    rw [boxPaddingPts]
    have hn' : (1 : ℚ) ≤ n := by exact_mod_cast hn
    push_cast
    rcases hc with hc | hc <;> linarith
  · refine roundHalfEven_mono ?_
    rw [pixelScale_eq, boxPaddingPts]
    linarith

/-! ### One box -/

theorem pyRound_ok {v : ℚ} (h : |v| < floatOverflow) : pyRound v = .ok (roundHalfEven v) := by
  rw [pyRound, if_neg (not_le.mpr h)]

theorem floatOverflow_large : (2 : ℚ) ^ 200 ≤ floatOverflow := by
  have h970 : (2 : ℚ) ^ 200 ≤ 2 ^ 970 := pow_le_pow_right₀ (by norm_num) (by norm_num)
  have h1024 : (2 : ℚ) ^ 1024 = 2 ^ 970 * 2 ^ 54 := by rw [← pow_add]
  rw [floatOverflow, h1024]
  generalize (2 : ℚ) ^ 970 = y at h970 ⊢
  norm_num at h970 ⊢
  linarith

/-- A padded coordinate of a page is far from overflowing. -/
theorem pyRound_scaled {v : ℚ} (h0 : -3 ≤ v) (h1 : v ≤ 2 ^ 128 + 2) :
    pyRound (v * pixelScale) = .ok (roundHalfEven (v * pixelScale)) := by
  refine pyRound_ok (lt_of_lt_of_le ?_ floatOverflow_large)
  rw [pixelScale_eq, abs_lt]
  constructor <;> norm_num at * <;> linarith

theorem paddedBox_inside {sheet : Sheet} {b : BBox} (h : sheet.Inside b) (width height : Nat) :
    paddedBox width height b pixelScale =
      .ok ⟨firstPixel b.x0, firstPixel b.y0, lastPixel width b.x1, lastPixel height b.y1⟩ := by
  have hx := h.x0_lt.trans_le (h.x1_le.trans sheet.width_le)
  have hy := h.y0_lt.trans_le (h.y1_le.trans sheet.height_le)
  have hx1 := h.x1_le.trans sheet.width_le
  have hy1 := h.y1_le.trans sheet.height_le
  have hx0 := h.x0_nonneg.trans_lt h.x0_lt
  have hy0 := h.y0_nonneg.trans_lt h.y0_lt
  rw [paddedBox, pyRound_scaled, pyRound_scaled, pyRound_scaled, pyRound_scaled]
  · rfl
  all_goals
    rw [boxPaddingPts]
    linarith [h.x0_nonneg, h.y0_nonneg]

/-- A box inside the page is covered when on both axes its pixels are painted. -/
theorem covered_of_axes {sheet : Sheet} {image : Image} {b : BBox} (h : sheet.Inside b)
    (hx : firstPixel b.x0 ≤ lastPixel image.width b.x1)
    (hy : firstPixel b.y0 ≤ lastPixel image.height b.y1)
    (hshow : ∀ i j, i < image.width → j < image.height → (sheet.render b).Shows i j →
      (firstPixel b.x0 ≤ i ∧ i ≤ lastPixel image.width b.x1) ∧
        firstPixel b.y0 ≤ j ∧ j ≤ lastPixel image.height b.y1) : sheet.Covered image b := by
  have hdraw : ∃ painted, drawBox pixelScale image b = .ok painted := by
    rw [drawBox, paddedBox_inside h]
    show ∃ painted, image.rectangle _ _ _ _ = .ok painted
    rw [Image.rectangle, if_neg (not_lt.mpr hx), if_neg (not_lt.mpr hy)]
    exact ⟨_, rfl⟩
  obtain ⟨painted, hpainted⟩ := hdraw
  refine ⟨_, painted, paddedBox_inside h _ _, hpainted, fun i j hi hj hs => ?_⟩
  · obtain ⟨⟨h₁, h₂⟩, h₃, h₄⟩ := hshow i j hi hj hs
    exact ⟨h₁, h₂, h₃, h₄⟩

theorem holds_of_covered {sheet : Sheet} {image : Image} {b : BBox} (h : sheet.Inside b)
    (hc : sheet.Covered image b) {i j : Nat} (hi : i < image.width) (hj : j < image.height)
    (hs : (sheet.render b).Shows i j) : firstPixel b.x0 ≤ i ∧ firstPixel b.y0 ≤ j := by
  obtain ⟨box, painted, hbox, -, hall⟩ := hc
  rw [paddedBox_inside h] at hbox
  cases hbox
  obtain ⟨h₁, -, h₃, -⟩ := hall i j hi hj hs
  exact ⟨h₁, h₃⟩

/-! ### Pages -/

theorem PixelCount.bound {n : Nat} {length b : ℚ} (hb : b ≤ length)
    (h : PixelCount n (length * applyOutputDpi / 72)) : b * pixelScale - 1 < n := by
  have hn := h.2.1
  rw [mul_div_assoc] at hn
  change length * pixelScale - 1 < n at hn
  rw [pixelScale_eq] at hn ⊢
  linarith

theorem Sheet.Renders.inside {sheet : Sheet} {page : FitzPage} (h : sheet.Renders page) {env : Env}
    {n : Nat} {w : WordBBox} (hw : w ∈ (extractPage env page n).page.words) :
    sheet.Inside w.bbox := by
  obtain ⟨r, hr, hb⟩ := extractPage_bbox hw
  rw [← hb]
  exact h.words r hr

theorem covered_unrotated {sheet : Sheet} {page : FitzPage} (hp : sheet.Renders page)
    (hr : sheet.rotation = .none) {b : BBox} (h : sheet.Inside b) :
    sheet.Covered (page.pixmap applyOutputDpi) b := by
  have hw := hp.pixmapWidth applyOutputDpi (by decide)
  have hh := hp.pixmapHeight applyOutputDpi (by decide)
  rw [Sheet.renderedWidth, hr] at hw
  rw [Sheet.renderedHeight, hr] at hh
  refine covered_of_axes h
    (firstPixel_le_lastPixel h.x0_nonneg h.x0_lt hw.1 (Or.inr (hw.bound h.x1_le)))
    (firstPixel_le_lastPixel h.y0_nonneg h.y0_lt hh.1 (Or.inr (hh.bound h.y1_le))) ?_
  intro i j hi hj hs
  rw [Sheet.render, hr] at hs
  exact ⟨meets_painted hi hs.1, meets_painted hj hs.2⟩

/-- The image of a box of a small page lies within its first pixels. -/
theorem Sheet.Inside.render_le {sheet : Sheet} {b : BBox} (h : sheet.Inside b)
    (hw : sheet.width ≤ 53 / 25) (hh : sheet.height ≤ 53 / 25) :
    (sheet.render b).x1 ≤ 53 / 25 ∧ (sheet.render b).y1 ≤ 53 / 25 := by
  obtain ⟨hx0, hx, hx1, hy0, hy, hy1⟩ := h
  rw [Sheet.render]
  cases sheet.rotation <;> constructor <;> dsimp only <;> linarith

theorem covered_small {sheet : Sheet} {page : FitzPage} (hp : sheet.Renders page)
    (hw : sheet.width ≤ 53 / 25) (hh : sheet.height ≤ 53 / 25) {b : BBox} (h : sheet.Inside b) :
    sheet.Covered (page.pixmap applyOutputDpi) b := by
  have hx := (h.x0_lt.trans_le h.x1_le).trans_le hw
  have hy := (h.y0_lt.trans_le h.y1_le).trans_le hh
  have hx1 := h.x0_nonneg.trans_lt h.x0_lt
  have hy1 := h.y0_nonneg.trans_lt h.y0_lt
  obtain ⟨hrx, hry⟩ := h.render_le hw hh
  refine covered_of_axes h
    (firstPixel_le_lastPixel h.x0_nonneg h.x0_lt (hp.pixmapWidth _ (by decide)).1 (Or.inl hx))
    (firstPixel_le_lastPixel h.y0_nonneg h.y0_lt (hp.pixmapHeight _ (by decide)).1 (Or.inl hy)) ?_
  intro i j hi hj hs
  exact ⟨small_painted hx hx1 hi hrx hs.1, small_painted hy hy1 hj hry hs.2⟩

/-! ### A page with one word -/

/-- Every word ingest extracts from any rendering of the sheet is covered. -/
def Sheet.BurnInCovers (sheet : Sheet) : Prop :=
  ∀ (env : Env) (page : FitzPage) (n : Nat), sheet.Renders page →
    ∀ w ∈ (extractPage env page n).page.words, sheet.Covered (page.pixmap applyOutputDpi) w.bbox

def Sheet.pageOf (sheet : Sheet) (b : BBox) : FitzPage where
  rectWidth := sheet.renderedWidth
  rectHeight := sheet.renderedHeight
  rotation := sheet.rotation.degrees
  words := [⟨b, "x", 0, 0, 0⟩]
  text := ""
  searchFor _ := []
  pixmap dpi := ⟨⌈sheet.renderedWidth * dpi / 72⌉₊, ⌈sheet.renderedHeight * dpi / 72⌉₊,
    fun _ _ => ⟨255, 255, 255⟩⟩

theorem pixelCount_ceil {length : ℚ} {dpi : Nat} (h : 0 < length) (hd : 0 < dpi) :
    PixelCount ⌈length * dpi / 72⌉₊ (length * dpi / 72) := by
  have hd' : (0 : ℚ) < dpi := by exact_mod_cast hd
  have hpos : 0 < length * dpi / 72 := div_pos (mul_pos h hd') (by norm_num)
  have hle := Nat.le_ceil (length * dpi / 72)
  exact ⟨Nat.one_le_ceil_iff.mpr hpos, by linarith, Nat.ceil_lt_add_one hpos.le⟩

theorem Sheet.renders_pageOf {sheet : Sheet} {b : BBox} (h : sheet.Inside b) :
    sheet.Renders (sheet.pageOf b) where
  rotation := rfl
  rectWidth := rfl
  rectHeight := rfl
  pixmapWidth dpi hd := by
    refine pixelCount_ceil ?_ hd
    rw [Sheet.renderedWidth]
    cases sheet.rotation <;> first | exact sheet.width_pos | exact sheet.height_pos
  pixmapHeight dpi hd := by
    refine pixelCount_ceil ?_ hd
    rw [Sheet.renderedHeight]
    cases sheet.rotation <;> first | exact sheet.width_pos | exact sheet.height_pos
  words w hw := by
    rw [List.mem_singleton.mp hw]
    exact h

theorem Sheet.BurnInCovers.box {sheet : Sheet} (h : sheet.BurnInCovers) {b : BBox}
    (hb : sheet.Inside b) : sheet.Covered ((sheet.pageOf b).pixmap applyOutputDpi) b := by
  have hmem : ⟨b, "x", 0, 0, 0⟩ ∈ (sheet.pageOf b).words := List.mem_cons_self
  obtain ⟨w, hw, hwb⟩ := extractPage_word (Env.letter id) 1 hmem
  have hc := h (Env.letter id) _ 1 (Sheet.renders_pageOf hb) w hw
  rwa [hwb] at hc

theorem exists_meets {a b length : ℚ} (ha : 0 ≤ a) (hab : a < b) (hb : b ≤ length) :
    ∃ i, i < ⌈length * applyOutputDpi / 72⌉₊ ∧ Meets a b i := by
  have hs : length * applyOutputDpi / 72 = length * pixelScale := mul_div_assoc _ _ _
  have hpos : 0 < b * pixelScale := by
    rw [pixelScale_eq]
    linarith
  have hlast : ⌈b * pixelScale⌉₊ - 1 + 1 = ⌈b * pixelScale⌉₊ :=
    Nat.sub_add_cancel (Nat.one_le_ceil_iff.mpr hpos)
  refine ⟨⌈b * pixelScale⌉₊ - 1, ?_, ?_, ?_⟩
  · have hle : b * pixelScale ≤ length * pixelScale := by
      rw [pixelScale_eq]
      linarith
    rw [hs]
    have := Nat.ceil_mono hle
    omega
  · have hle := Nat.le_ceil (b * pixelScale)
    rw [← hlast] at hle
    push_cast at hle
    rw [pixelScale_eq] at hle ⊢
    linarith
  · have hlt := Nat.ceil_lt_add_one hpos.le
    rw [← hlast] at hlt
    push_cast at hlt
    linarith

/-- The image of a box lies within the rendered page and has an inside. -/
theorem Sheet.Inside.render {sheet : Sheet} {b : BBox} (h : sheet.Inside b) :
    (0 ≤ (sheet.render b).x0 ∧ (sheet.render b).x0 < (sheet.render b).x1 ∧
      (sheet.render b).x1 ≤ sheet.renderedWidth) ∧
    0 ≤ (sheet.render b).y0 ∧ (sheet.render b).y0 < (sheet.render b).y1 ∧
      (sheet.render b).y1 ≤ sheet.renderedHeight := by
  obtain ⟨hx0, hx, hx1, hy0, hy, hy1⟩ := h
  rw [Sheet.render, Sheet.renderedWidth, Sheet.renderedHeight]
  cases sheet.rotation <;> dsimp only <;> refine ⟨⟨?_, ?_, ?_⟩, ?_, ?_, ?_⟩ <;> linarith

theorem meets_zero {b : ℚ} (h : 0 < b) : Meets 0 b 0 := by
  rw [Meets, pixelScale_eq]
  constructor <;> push_cast <;> linarith

/-- A word has a pixel, the first one of an axis if it is shown at that edge. -/
theorem exists_meets_edge {a b length : ℚ} (ha : 0 ≤ a) (hab : a < b) (hb : b ≤ length) :
    ∃ i, i < ⌈length * applyOutputDpi / 72⌉₊ ∧ Meets a b i ∧ (a = 0 → i = 0) := by
  obtain ⟨i, hi, hmeets⟩ := exists_meets ha hab hb
  by_cases hedge : a = 0
  · subst hedge
    exact ⟨0, Nat.zero_lt_of_lt hi, meets_zero hab, fun _ => rfl⟩
  · exact ⟨i, hi, hmeets, fun h => absurd h hedge⟩

/-- On either axis a covered word that is shown at the edge is stored close to it. -/
theorem edge_of_covered {sheet : Sheet} {b : BBox} (h : sheet.Inside b)
    (hc : sheet.Covered ((sheet.pageOf b).pixmap applyOutputDpi) b) :
    ((sheet.render b).x0 = 0 → b.x0 ≤ 53 / 25) ∧ ((sheet.render b).y0 = 0 → b.y0 ≤ 53 / 25) := by
  obtain ⟨⟨hx0, hx1, hw⟩, hy0, hy1, hh⟩ := h.render
  obtain ⟨i, hi, hmi, hleft⟩ := exists_meets_edge hx0 hx1 hw
  obtain ⟨j, hj, hmj, htop⟩ := exists_meets_edge hy0 hy1 hh
  obtain ⟨hfirst, hfirst'⟩ := holds_of_covered h hc hi hj ⟨hmi, hmj⟩
  have hclose : ∀ {a : ℚ} {k : Nat}, firstPixel a ≤ k → k = 0 → a ≤ 53 / 25 := by
    intro a k hk hzero
    by_contra hlt
    have hpos := firstPixel_pos (not_le.mp hlt)
    omega
  exact ⟨fun hedge => hclose hfirst (hleft hedge), fun hedge => hclose hfirst' (htop hedge)⟩

/-! ### When the burn-in covers -/

/-- The part of a page right of and below a point. -/
def Sheet.corner (sheet : Sheet) (x y : ℚ) : BBox := ⟨x, y, sheet.width, sheet.height⟩

/-- Turned, a part with a whole side of the page is shown at the first edge of an axis. -/
theorem render_corner {sheet : Sheet} (hr : sheet.rotation ≠ .none) (x y : ℚ) :
    (y = 0 → (sheet.render (sheet.corner x y)).x0 = 0) ∧
      (x = 0 → (sheet.render (sheet.corner x y)).y0 = 0) := by
  rw [Sheet.render, Sheet.corner]
  cases hs : sheet.rotation with
  | none => exact absurd hs hr
  | quarter => exact ⟨fun _ => sub_self _, id⟩
  | half => exact ⟨fun _ => sub_self _, fun _ => sub_self _⟩
  | threeQuarter => exact ⟨id, fun _ => sub_self _⟩

theorem corner_of_covers {sheet : Sheet} (hr : sheet.rotation ≠ .none) (h : sheet.BurnInCovers)
    {x y : ℚ} (hx : 0 ≤ x) (hxw : x < sheet.width) (hy : 0 ≤ y) (hyh : y < sheet.height) :
    (y = 0 → x ≤ 53 / 25) ∧ (x = 0 → y ≤ 53 / 25) := by
  have hin : sheet.Inside (sheet.corner x y) := ⟨hx, hxw, le_rfl, hy, hyh, le_rfl⟩
  obtain ⟨hleft, htop⟩ := edge_of_covered hin (h.box hin)
  exact ⟨fun hedge => hleft ((render_corner hr x y).1 hedge),
    fun hedge => htop ((render_corner hr x y).2 hedge)⟩

/-- A side longer than the padding reaches has a strip at its end that is missed. -/
theorem size_of_covers {sheet : Sheet} (hr : sheet.rotation ≠ .none) (h : sheet.BurnInCovers) :
    sheet.width ≤ 53 / 25 ∧ sheet.height ≤ 53 / 25 := by
  have hw := sheet.width_pos
  have hh := sheet.height_pos
  constructor
  · by_contra hlong
    have hx := (corner_of_covers hr h (x := (53 / 25 + sheet.width) / 2) (by linarith) (by linarith)
      le_rfl hh).1 rfl
    linarith
  · by_contra hlong
    have hy := (corner_of_covers hr h (y := (53 / 25 + sheet.height) / 2) le_rfl hw (by linarith)
      (by linarith)).2 rfl
    linarith

/-- **Where the burn-in covers the text.**  Exactly on pages that are not rotated,
and on those with no side longer than `53 / 25` points. -/
theorem burn_in_covers_iff (sheet : Sheet) :
    sheet.BurnInCovers ↔
      sheet.rotation = .none ∨ sheet.width ≤ 53 / 25 ∧ sheet.height ≤ 53 / 25 := by
  constructor
  · intro h
    by_cases hr : sheet.rotation = .none
    · exact Or.inl hr
    · exact Or.inr (size_of_covers hr h)
  · rintro (hr | ⟨hw, hh⟩) env page n hp w hword
    · exact covered_unrotated hp hr (hp.inside hword)
    · exact covered_small hp hw hh (hp.inside hword)

def letterSideways : Sheet where
  width := 612
  height := 792
  rotation := .quarter
  width_pos := by norm_num
  height_pos := by norm_num
  width_le := by norm_num
  height_le := by norm_num

def topLeftWord : BBox := ⟨72, 72, 180, 90⟩

/-- Its image is at the right edge of the raster; the box is painted at the left. -/
theorem burn_in_misses_rotated :
    letterSideways.Renders (letterSideways.pageOf topLeftWord) ∧
    (∃ w ∈ (extractPage (Env.letter id) (letterSideways.pageOf topLeftWord) 1).page.words,
      w.bbox = topLeftWord) ∧
    ¬ letterSideways.Covered ((letterSideways.pageOf topLeftWord).pixmap applyOutputDpi)
      topLeftWord := by
  have hin : letterSideways.Inside topLeftWord := by
    constructor <;> rw [topLeftWord] <;> norm_num [letterSideways]
  refine ⟨Sheet.renders_pageOf hin,
    extractPage_word _ 1 (r := ⟨topLeftWord, "x", 0, 0, 0⟩) List.mem_cons_self, ?_⟩
  rintro ⟨box, painted, hbox, -, hall⟩
  rw [paddedBox_inside hin] at hbox
  cases hbox
  have hwidth : 2950 < ((letterSideways.pageOf topLeftWord).pixmap applyOutputDpi).width :=
    Nat.lt_ceil.mpr (by norm_num [letterSideways, Sheet.renderedWidth, applyOutputDpi])
  have hheight : 310 < ((letterSideways.pageOf topLeftWord).pixmap applyOutputDpi).height :=
    Nat.lt_ceil.mpr (by norm_num [letterSideways, Sheet.renderedHeight, applyOutputDpi])
  have hshow : (letterSideways.render topLeftWord).Shows 2950 310 := by
    constructor <;>
      norm_num [Meets, Sheet.render, letterSideways, topLeftWord, pixelScale_eq]
  have hright := (hall 2950 310 hwidth hheight hshow).2.1
  have hlast : lastPixel ((letterSideways.pageOf topLeftWord).pixmap applyOutputDpi).width
      topLeftWord.x1 ≤ 759 := by
    refine (min_le_right _ _).trans (roundHalfEven_le_of_lt ?_)
    norm_num [topLeftWord, boxPaddingPts, pixelScale_eq]
  have h := le_trans hright hlast
  norm_num at h

end RedactApi
