import Mathlib.Data.List.Pairwise
import RedactApi.Detection.Tier2
import RedactApi.Ingest.Pdf

/-!
# From text offsets to word boxes

`_build_text_and_words` lays the words of a page out one after the other with a single
separator between two of them, and `resolve_span_bboxes` finds the words of a range
again by comparing offsets.  The words found are those that share a character with the
range; they are consecutive, and no character of the range is left out but separators.
-/

namespace RedactApi

/-! ### Words in a row -/

/-- The words lie between two offsets, with one character between neighbours. -/
inductive Layout : Nat → List WordBBox → Nat → Prop
  | last {lo hi : Nat} {w : WordBBox} : w.start = lo → lo < hi → w.stop = hi → Layout lo [w] hi
  | cons {lo hi : Nat} {w : WordBBox} {ws : List WordBBox} : w.start = lo → lo < w.stop →
      Layout (w.stop + 1) ws hi → Layout lo (w :: ws) hi

def WordBBox.covers (w : WordBBox) (c : Nat) : Prop := w.start ≤ c ∧ c < w.stop

def Gap (ws : List WordBBox) (hi c : Nat) : Prop := c < hi ∧ ∃ w ∈ ws, w.stop = c

section

variable {lo hi : Nat} {ws : List WordBBox}

theorem Layout.exists_first (h : Layout lo ws hi) : ∃ w ∈ ws, w.start = lo ∧ lo < w.stop := by
  cases h with
  | last hlo hlt hhi => exact ⟨_, List.mem_cons_self, hlo, hhi ▸ hlt⟩
  | cons hlo hlt _ => exact ⟨_, List.mem_cons_self, hlo, hlt⟩

theorem Layout.bounds (h : Layout lo ws hi) :
    ∀ w ∈ ws, lo ≤ w.start ∧ w.start < w.stop ∧ w.stop ≤ hi := by
  induction h with
  | last hlo hlt hhi => exact List.forall_mem_singleton.mpr ⟨by omega, by omega, by omega⟩
  | cons hlo hlt h ih =>
    obtain ⟨u, hu, -⟩ := h.exists_first
    have hu := ih u hu
    refine List.forall_mem_cons.mpr ⟨⟨by omega, by omega, by omega⟩, fun v hv => ?_⟩
    have hv := ih v hv
    exact ⟨by omega, by omega, by omega⟩

theorem Layout.lt (h : Layout lo ws hi) : lo < hi := by
  obtain ⟨w, hw, hstart, hstop⟩ := h.exists_first
  have hhi := (h.bounds w hw).2.2
  omega

theorem Layout.pairwise (h : Layout lo ws hi) : ws.Pairwise fun w w' => w.stop < w'.start := by
  induction h with
  | last => exact List.pairwise_singleton _ _
  | cons _ _ h ih =>
    refine List.pairwise_cons.mpr ⟨fun w hw => ?_, ih⟩
    have hlo := (h.bounds w hw).1
    omega

theorem Layout.covered (h : Layout lo ws hi) {c : Nat} (hlo : lo ≤ c) (hhi : c < hi) :
    (∃ w ∈ ws, w.covers c) ∨ Gap ws hi c := by
  induction h with
  | last hstart _ hstop => exact Or.inl ⟨_, List.mem_cons_self, by omega, by omega⟩
  | @cons _ _ w ws hstart _ h ih =>
    rcases Nat.lt_trichotomy c w.stop with hc | rfl | hc
    · exact Or.inl ⟨w, List.mem_cons_self, by omega, hc⟩
    · exact Or.inr ⟨hhi, w, List.mem_cons_self, rfl⟩
    · rcases ih hc hhi with ⟨u, hu, hcovers⟩ | ⟨hlt, u, hu, hstop⟩
      · exact Or.inl ⟨u, List.mem_cons_of_mem w hu, hcovers⟩
      · exact Or.inr ⟨hlt, u, List.mem_cons_of_mem w hu, hstop⟩

theorem Layout.covered_succ (h : Layout lo ws hi) {c : Nat} (hgap : Gap ws hi c) :
    ∃ w ∈ ws, w.covers (c + 1) := by
  obtain ⟨hlt, w, hw, rfl⟩ := hgap
  induction h with
  | last _ _ hstop =>
    rw [List.mem_singleton.mp hw, hstop] at hlt
    exact absurd hlt (Nat.lt_irrefl _)
  | cons _ _ h ih =>
    rcases List.mem_cons.mp hw with rfl | hw
    · obtain ⟨u, hu, hstart, hstop⟩ := h.exists_first
      exact ⟨u, List.mem_cons_of_mem _ hu, by omega, hstop⟩
    · obtain ⟨u, hu, hcovers⟩ := ih hw hlt
      exact ⟨u, List.mem_cons_of_mem _ hu, hcovers⟩

theorem Layout.covers_unique (h : Layout lo ws hi) {w w' : WordBBox} (hw : w ∈ ws) (hw' : w' ∈ ws)
    {c : Nat} (hc : w.covers c) (hc' : w'.covers c) : w = w' := by
  by_contra hne
  have : Std.Symm fun a b : WordBBox => a.stop < b.start ∨ b.stop < a.start := ⟨fun _ _ => Or.symm⟩
  have hpairwise : ws.Pairwise fun a b => a.stop < b.start ∨ b.stop < a.start :=
    h.pairwise.imp fun hab => Or.inl hab
  have hapart := hpairwise.forall hw hw' hne
  obtain ⟨hstart, hstop⟩ := hc
  obtain ⟨hstart', hstop'⟩ := hc'
  omega

/-! ### The words of a range -/

theorem filter_eq_dropWhile {α : Type} {p : α → Bool} {l : List α}
    (h : l.Pairwise fun a b => p a = true → p b = true) : l.filter p = l.dropWhile fun a => !p a := by
  induction l with
  | nil => rfl
  | cons a l ih =>
    obtain ⟨ha, hl⟩ := List.pairwise_cons.mp h
    rw [List.filter_cons, List.dropWhile_cons]
    cases hp : p a with
    | true => simpa using fun b hb => ha b hb hp
    | false => simpa using ih hl

theorem filter_eq_takeWhile {α : Type} {p : α → Bool} {l : List α}
    (h : l.Pairwise fun a b => p b = true → p a = true) : l.filter p = l.takeWhile p := by
  induction l with
  | nil => rfl
  | cons a l ih =>
    obtain ⟨ha, hl⟩ := List.pairwise_cons.mp h
    rw [List.filter_cons, List.takeWhile_cons]
    cases hp : p a with
    | true => simpa using ih hl
    | false => simpa using fun b hb => by simpa [hp] using ha b hb

/-- The words that overlap a range are consecutive. -/
theorem Layout.filter_infix (h : Layout lo ws hi) (start stop : Nat) :
    ∃ before after, ws = before ++ ws.filter (fun w => w.start < stop ∧ start < w.stop) ++ after := by
  have hfrom : ws.filter (fun w => start < w.stop) = ws.dropWhile fun w => !decide (start < w.stop) := by
    refine filter_eq_dropWhile (h.pairwise.imp_of_mem fun {a b} _ hb hab hstart => ?_)
    have hlt := (h.bounds b hb).2.1
    simp only [decide_eq_true_eq] at hstart ⊢
    omega
  have hupto : (ws.filter fun w => start < w.stop).filter (fun w => w.start < stop) =
      (ws.filter fun w => start < w.stop).takeWhile fun w => w.start < stop := by
    refine filter_eq_takeWhile ((h.pairwise.filter _).imp_of_mem fun {a b} ha _ hab hstop => ?_)
    have hlt := (h.bounds a (List.mem_of_mem_filter ha)).2.1
    simp only [decide_eq_true_eq] at hstop ⊢
    omega
  have hboth : ws.filter (fun w => w.start < stop ∧ start < w.stop) =
      (ws.filter fun w => start < w.stop).takeWhile fun w => w.start < stop := by
    rw [← hupto, List.filter_filter]
    exact List.filter_congr fun w _ => by simp
  refine ⟨ws.takeWhile fun w => !decide (start < w.stop),
    (ws.filter fun w => start < w.stop).dropWhile fun w => w.start < stop, ?_⟩
  rw [hboth, List.append_assoc, List.takeWhile_append_dropWhile, hfrom,
    List.takeWhile_append_dropWhile]

end

/-! ### The words of a page -/

/-- The offsets of the separators that are inserted between the words. -/
def separatorOffsets (offset : Nat) : List RawWord → List Nat
  | [] => []
  | word :: rest =>
    let stop := offset + word.text.length
    match rest with
    | [] => []
    | _ :: _ => stop :: separatorOffsets (stop + 1) rest

/-- **The words of a page** lie in a row, with a separator after each but the last. -/
theorem layout_buildTextAndWords {offset : Nat} {raw : List RawWord} (hne : raw ≠ [])
    (hwords : ∀ word ∈ raw, word.text ≠ "") :
    Layout offset (buildTextAndWords offset raw).2
      (offset + (buildTextAndWords offset raw).1.length) := by
  induction raw generalizing offset with
  | nil => exact absurd rfl hne
  | cons word rest ih =>
    have hlength : 0 < word.text.length :=
      Nat.pos_of_ne_zero fun h => hwords word List.mem_cons_self (String.length_eq_zero_iff.mp h)
    cases rest with
    | nil => exact .last rfl (by rw [buildTextAndWords, String.length_toList]; omega) rfl
    | cons next rest =>
      have hrest := @ih (offset + word.text.length + 1) (List.cons_ne_nil _ _)
        fun w hw => hwords w (List.mem_cons_of_mem _ hw)
      rw [buildTextAndWords]
      refine .cons rfl (Nat.lt_add_of_pos_right hlength) ?_
      convert hrest using 1
      simp only [List.length_append, List.length_cons, String.length_toList]
      omega

/-- The gaps between the words are the separators. -/
theorem gap_iff_separator {offset : Nat} {raw : List RawWord}
    (hwords : ∀ word ∈ raw, word.text ≠ "") (c : Nat) :
    Gap (buildTextAndWords offset raw).2 (offset + (buildTextAndWords offset raw).1.length) c ↔
      c ∈ separatorOffsets offset raw := by
  induction raw generalizing offset with
  | nil => exact ⟨fun ⟨_, _, hw, _⟩ => absurd hw List.not_mem_nil, fun h => absurd h List.not_mem_nil⟩
  | cons word rest ih =>
    cases rest with
    | nil =>
      refine ⟨fun ⟨hlt, w, hw, hc⟩ => ?_, fun h => absurd h List.not_mem_nil⟩
      rw [buildTextAndWords, String.length_toList] at hlt
      obtain rfl := List.mem_singleton.mp hw
      exact absurd (hc ▸ hlt) (Nat.lt_irrefl _)
    | cons next rest =>
      have hrest := @ih (offset + word.text.length + 1)
        fun w hw => hwords w (List.mem_cons_of_mem _ hw)
      have hhi : offset + (buildTextAndWords offset (word :: next :: rest)).1.length =
          offset + word.text.length + 1 +
            (buildTextAndWords (offset + word.text.length + 1) (next :: rest)).1.length := by
        rw [buildTextAndWords]
        simp only [List.length_append, List.length_cons, String.length_toList]
        omega
      have hlater := (layout_buildTextAndWords (List.cons_ne_nil _ _)
        fun w hw => hwords w (List.mem_cons_of_mem _ hw) : Layout (offset + word.text.length + 1)
          (buildTextAndWords _ (next :: rest)).2 _).lt
      rw [separatorOffsets, List.mem_cons, ← hrest, hhi]
      constructor
      · rintro ⟨hlt, w, hw, rfl⟩
        rw [buildTextAndWords] at hw
        rcases List.mem_cons.mp hw with rfl | hw
        · exact Or.inl rfl
        · exact Or.inr ⟨hlt, w, hw, rfl⟩
      · rintro (rfl | ⟨hlt, w, hw, rfl⟩)
        · refine ⟨by omega, ⟨offset, offset + word.text.length, word.bbox⟩, ?_, rfl⟩
          rw [buildTextAndWords]
          exact List.mem_cons_self
        · refine ⟨hlt, w, ?_, rfl⟩
          rw [buildTextAndWords]
          exact List.mem_cons_of_mem _ hw

theorem slices_buildTextAndWords (before : List Char) (raw : List RawWord) :
    ((buildTextAndWords before.length raw).2.map fun w =>
      ((before ++ (buildTextAndWords before.length raw).1).take w.stop).drop w.start) =
        raw.map fun word => word.text.toList := by
  have hhead : ∀ pre text after : List Char,
      ((pre ++ (text ++ after)).take (pre.length + text.length)).drop pre.length = text := by
    intro pre text after
    rw [← List.append_assoc, List.take_left' List.length_append, List.drop_left' rfl]
  induction raw generalizing before with
  | nil => rfl
  | cons word rest ih =>
    cases rest with
    | nil =>
      have hword := hhead before word.text.toList []
      rw [List.append_nil, String.length_toList] at hword
      rw [buildTextAndWords, List.map_singleton, List.map_singleton, hword]
    | cons next rest =>
      rw [buildTextAndWords]
      dsimp only
      generalize (if (word.blockNo, word.lineNo) = (next.blockNo, next.lineNo) then ' ' else '\n') =
        separator
      have hlength : (before ++ word.text.toList ++ [separator]).length =
          before.length + word.text.length + 1 := by
        simp only [List.length_append, String.length_toList, List.length_singleton]
      have hrest := ih (before ++ word.text.toList ++ [separator])
      rw [hlength] at hrest
      have hword := hhead before word.text.toList
        (separator :: (buildTextAndWords (before.length + word.text.length + 1) (next :: rest)).1)
      rw [String.length_toList] at hword
      rw [List.map_cons, List.map_cons, hword, ← hrest]
      simp only [List.append_assoc, List.singleton_append]

structure BuiltFrom (raw : List RawWord) (page : PageModel) : Prop where
  text : page.text = String.ofList (buildTextAndWords 0 raw).1
  words : page.words = (buildTextAndWords 0 raw).2

theorem BuiltFrom.length {raw : List RawWord} {page : PageModel} (h : BuiltFrom raw page) :
    page.text.length = (buildTextAndWords 0 raw).1.length := by
  rw [h.text, String.length_ofList]

theorem BuiltFrom.layout {raw : List RawWord} {page : PageModel} (h : BuiltFrom raw page)
    (hwords : ∀ word ∈ raw, word.text ≠ "") (hlt : 0 < page.text.length) :
    Layout 0 page.words page.text.length := by
  have hne : raw ≠ [] := by
    rintro rfl
    rw [h.length] at hlt
    exact absurd hlt (Nat.lt_irrefl 0)
  have hlayout := @layout_buildTextAndWords 0 raw hne hwords
  rwa [← h.words, ← h.length, Nat.zero_add] at hlayout

theorem BuiltFrom.gap_iff {raw : List RawWord} {page : PageModel} (h : BuiltFrom raw page)
    (hwords : ∀ word ∈ raw, word.text ≠ "") (c : Nat) :
    Gap page.words page.text.length c ↔ c ∈ separatorOffsets 0 raw := by
  have hgap := @gap_iff_separator 0 raw hwords c
  rwa [← h.words, ← h.length, Nat.zero_add] at hgap

/-- The words of the page are the raw words, each with its text and its box. -/
theorem BuiltFrom.slices {raw : List RawWord} {page : PageModel} (h : BuiltFrom raw page) :
    (page.words.map fun w => (page.slice w.start w.stop, w.bbox)) =
      raw.map fun word => (word.text, word.bbox) := by
  have htexts : (page.words.map fun w => page.slice w.start w.stop) = raw.map (·.text) := by
    have hslices := congrArg (List.map String.ofList) (slices_buildTextAndWords [] raw)
    simpa [PageModel.slice, h.text, h.words, Function.comp_def] using hslices
  have hbboxes : page.words.map (·.bbox) = raw.map (·.bbox) := by
    rw [h.words, buildTextAndWords_bboxes]
  rw [← List.zip_map', htexts, hbboxes, List.zip_map']

/-- **From offsets to boxes nothing is missed.**  The words of a page are the raw words.
For a range of its text, the boxes are those of some consecutive words: the words that
share a character with the range.  Every character of the range that is no separator
belongs to exactly one of them, and there is none only if the range is a single
separator. -/
theorem resolved_words {raw : List RawWord} {page : PageModel} (hpage : BuiltFrom raw page)
    (hwords : ∀ word ∈ raw, word.text ≠ "") {start stop : Nat} (hlt : start < stop)
    (hstop : stop ≤ page.text.length) :
    ((page.words.map fun w => (page.slice w.start w.stop, w.bbox)) =
      raw.map fun word => (word.text, word.bbox)) ∧
    ∃ before touched after, page.words = before ++ touched ++ after ∧
      resolveSpanBboxes page start stop = touched.map (·.bbox) ∧
      (∀ w ∈ page.words, w ∈ touched ↔ ∃ c, w.covers c ∧ start ≤ c ∧ c < stop) ∧
      (∀ c, start ≤ c → c < stop → c ∉ separatorOffsets 0 raw →
        ∃! w, w ∈ touched ∧ w.covers c) ∧
      (touched = [] → stop = start + 1 ∧ start ∈ separatorOffsets 0 raw) := by
  have hlayout := hpage.layout hwords (by omega)
  obtain ⟨before, after, hsplit⟩ := hlayout.filter_infix start stop
  have htouched : ∀ w ∈ page.words, w ∈ page.words.filter (fun w => w.start < stop ∧ start < w.stop) ↔
      ∃ c, w.covers c ∧ start ≤ c ∧ c < stop := by
    intro w hw
    rw [List.mem_filter, decide_eq_true_eq]
    constructor
    · rintro ⟨-, hstart, hend⟩
      have hbounds := hlayout.bounds w hw
      exact ⟨max w.start start, ⟨by omega, by omega⟩, by omega, by omega⟩
    · rintro ⟨c, ⟨hstart, hend⟩, hfrom, hto⟩
      exact ⟨hw, by omega, by omega⟩
  have hcovered : ∀ c, start ≤ c → c < stop → c ∉ separatorOffsets 0 raw →
      ∃ w ∈ page.words.filter (fun w => w.start < stop ∧ start < w.stop), w.covers c := by
    intro c hfrom hto hsep
    rcases hlayout.covered (Nat.zero_le c) (by omega) with ⟨w, hw, hc⟩ | hgap
    · exact ⟨w, (htouched w hw).mpr ⟨c, hc, hfrom, hto⟩, hc⟩
    · exact absurd ((hpage.gap_iff hwords c).mp hgap) hsep
  refine ⟨hpage.slices, before, _, after, hsplit, rfl, htouched, fun c hfrom hto hsep => ?_,
    fun hnone => ?_⟩
  · obtain ⟨w, hw, hc⟩ := hcovered c hfrom hto hsep
    refine ⟨w, ⟨hw, hc⟩, fun w' ⟨hw', hc'⟩ => ?_⟩
    exact hlayout.covers_unique (List.mem_of_mem_filter hw') (List.mem_of_mem_filter hw) hc' hc
  · have hsep : start ∈ separatorOffsets 0 raw := by
      by_contra hsep
      obtain ⟨w, hw, -⟩ := hcovered start (Nat.le_refl _) hlt hsep
      rw [hnone] at hw
      exact absurd hw List.not_mem_nil
    refine ⟨?_, hsep⟩
    by_contra hlonger
    obtain ⟨w, hw, hc⟩ := hlayout.covered_succ ((hpage.gap_iff hwords start).mpr hsep)
    have hmem := (htouched w hw).mpr ⟨start + 1, hc, by omega, by omega⟩
    rw [hnone] at hmem
    exact absurd hmem List.not_mem_nil

def twoLines : List RawWord :=
  [⟨⟨0, 0, 10, 10⟩, "ab", 0, 0, 0⟩, ⟨⟨12, 0, 22, 10⟩, "cd", 0, 0, 1⟩, ⟨⟨0, 12, 10, 22⟩, "ef", 0, 1, 0⟩]

def twoLinesPage : PageModel where
  pageNumber := 1
  width := 612
  height := 792
  text := String.ofList (buildTextAndWords 0 twoLines).1
  words := (buildTextAndWords 0 twoLines).2
  rotation := 0
  rasterKey := ""

example : twoLinesPage.text = "ab cd\nef" ∧ separatorOffsets 0 twoLines = [2, 5] := by decide

/-- The range from the second word into the second line. -/
theorem resolved_words_two_lines :
    ((twoLinesPage.words.map fun w => (twoLinesPage.slice w.start w.stop, w.bbox)) =
      twoLines.map fun word => (word.text, word.bbox)) ∧
    ∃ before touched after, twoLinesPage.words = before ++ touched ++ after ∧
      resolveSpanBboxes twoLinesPage 4 7 = touched.map (·.bbox) ∧
      (∀ w ∈ twoLinesPage.words, w ∈ touched ↔ ∃ c, w.covers c ∧ 4 ≤ c ∧ c < 7) ∧
      (∀ c, 4 ≤ c → c < 7 → c ∉ separatorOffsets 0 twoLines → ∃! w, w ∈ touched ∧ w.covers c) ∧
      (touched = [] → 7 = 4 + 1 ∧ 4 ∈ separatorOffsets 0 twoLines) :=
  resolved_words ⟨rfl, rfl⟩ (by decide) (by decide) (by decide)

end RedactApi
