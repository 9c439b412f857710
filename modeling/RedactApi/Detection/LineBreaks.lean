import RedactApi.Detection.Tier1
import RedactApi.Ingest.Offsets

/-!
# Detection and line breaks

Two pages with the same words on other lines differ in their separators only: a blank of
one may be a newline of the other (`SameWords`).  No class of a pattern tells the two
apart, and no matched text that a validator reads holds one.  The keyword window of dates
of birth is read as it stands, and of the three keywords one has blanks in it.  So the
pages agree on five detectors, and on the sixth exactly when that keyword is cut by a
line in both pages or in none (`detection_reflow_iff`).
-/

namespace RedactApi

open Regex

def isBreak (char : Char) : Bool := char = ' ' ∨ char = '\n'

/-- Characters of two pages with the same words. -/
def SameWords (char char' : Char) : Prop :=
  char = char' ∨ isBreak char = true ∧ isBreak char' = true

theorem SameWords.symm {char char' : Char} (h : SameWords char char') : SameWords char' char :=
  h.imp Eq.symm And.symm

theorem SameWords.eq_of_not_break {char char' : Char} (h : SameWords char char')
    (hchar : (!isBreak char) = true) : char = char' := by
  obtain heq | ⟨hbreak, -⟩ := h
  · exact heq
  · simp [hbreak] at hchar

theorem SameWords.class_eq {c : Char → Bool} (hc : c ' ' = c '\n') {char char' : Char}
    (h : SameWords char char') : c char = c char' := by
  have hbreak : ∀ {b}, isBreak b = true → c b = c ' ' := by
    intro b hb
    obtain rfl | rfl := of_decide_eq_true hb
    · rfl
    · exact hc.symm
  obtain rfl | ⟨hchar, hchar'⟩ := h
  · rfl
  · rw [hbreak hchar, hbreak hchar']

/-! ### The pages -/

/-- The page with the text and the words that `_build_text_and_words` writes. -/
def PageModel.ofWords (page : PageModel) (raw : List RawWord) : PageModel :=
  { page with
    text := String.ofList (buildTextAndWords 0 raw).1
    words := (buildTextAndWords 0 raw).2 }

@[simp] theorem PageModel.ofWords_text (page : PageModel) (raw : List RawWord) :
    (page.ofWords raw).text.toList = (buildTextAndWords 0 raw).1 := String.toList_ofList

theorem isBreak_separatorAfter (word next : RawWord) : isBreak (separatorAfter word next) = true := by
  unfold separatorAfter
  split <;> decide

theorem buildTextAndWords_sameWords {raw raw' : List RawWord}
    (h : raw.map (·.text) = raw'.map (·.text)) (offset offset' : Nat) :
    List.Forall₂ SameWords (buildTextAndWords offset raw).1 (buildTextAndWords offset' raw').1 := by
  have hrefl : ∀ l : List Char, List.Forall₂ SameWords l l := fun l =>
    List.forall₂_same.mpr fun char _ => Or.inl rfl
  induction raw generalizing raw' offset offset' with
  | nil =>
    obtain rfl := List.map_eq_nil_iff.mp h.symm
    exact List.Forall₂.nil
  | cons word rest ih =>
    obtain ⟨word', rest', rfl, htext, hrest⟩ := List.map_eq_cons_iff.mp h.symm
    cases rest with
    | nil =>
      obtain rfl := List.map_eq_nil_iff.mp hrest
      rw [buildTextAndWords_singleton, buildTextAndWords_singleton, htext]
      exact hrefl _
    | cons next rest =>
      obtain ⟨next', rest', rfl, hnext, hrest'⟩ := List.map_eq_cons_iff.mp hrest
      rw [buildTextAndWords_cons_cons, buildTextAndWords_cons_cons, htext]
      have hbreaks := And.intro (isBreak_separatorAfter word next)
        (isBreak_separatorAfter word' next')
      exact List.rel_append (hrefl _) (List.Forall₂.cons (Or.inr hbreaks) (ih hrest.symm _ _))

/-! ### The matches -/

def spanKeys (spans : List CandidateSpan) : List (Nat × Nat × String) :=
  spans.map fun s => (s.start, s.stop, s.category)

theorem spanKeys_detectMatches (page : PageModel) (p : Pattern Char) (category : String)
    (confidence : ℚ) (validate : Option (PageModel → Match → Bool)) :
    spanKeys (detectMatches page ⟨finditer p, category, confidence, validate⟩) =
      ((Regex.finditer page.text.toList p).filter fun range =>
        validate.all fun validate => validate page ⟨range.1, range.2⟩).map fun range =>
          (range.1, range.2, category) := by
  unfold spanKeys detectMatches finditer
  rw [List.map_map, List.filter_map, List.map_map]
  rfl

section Reflow

variable {page page' : PageModel} {raw raw' : List RawWord}
  (h : raw.map (·.text) = raw'.map (·.text))
include h

theorem ofWords_sameWords : List.Forall₂ SameWords (page.ofWords raw).text.toList
    (page'.ofWords raw').text.toList := by
  rw [PageModel.ofWords_text, PageModel.ofWords_text]
  exact buildTextAndWords_sameWords h 0 0

theorem finditer_reflow {p : Pattern Char} (hp : ∀ c ∈ p.classes, c ' ' = c '\n') :
    Regex.finditer (page.ofWords raw).text.toList p =
      Regex.finditer (page'.ofWords raw').text.toList p :=
  finditer_congr (ofWords_sameWords h) fun c hc _ _ => SameWords.class_eq (hp c hc)

/-- A match whose classes take no separator spells the same in both pages. -/
theorem group_reflow {p : Pattern Char} (hp : ∀ c ∈ p.taken, c ' ' = false ∧ c '\n' = false)
    {range : Nat × Nat} (hrange : range ∈ Regex.finditer (page.ofWords raw).text.toList p) :
    Match.group (page.ofWords raw) ⟨range.1, range.2⟩ =
      Match.group (page'.ofWords raw') ⟨range.1, range.2⟩ := by
  have hmatch := (hit_of_mem_finditer hrange).matches
  have htaken : ∀ c ∈ p.taken, ∀ char, c char = true → (!isBreak char) = true := by
    intro c hc char hchar
    by_contra hbreak
    have hor : isBreak char = true := by simpa using hbreak
    obtain rfl | rfl := of_decide_eq_true hor
    · exact Bool.false_ne_true ((hp c hc).1.symm.trans hchar)
    · exact Bool.false_ne_true ((hp c hc).2.symm.trans hchar)
  exact congrArg String.ofList (slice_congr (ofWords_sameWords h)
    (fun _ _ hsame hchar => hsame.eq_of_not_break hchar)
    fun k hik hkj => hmatch.holds_taken htaken hik hkj)

/-- A detector whose validator reads the matched text only. -/
theorem spanKeys_reflow {p : Pattern Char} (hp : ∀ c ∈ p.classes, c ' ' = c '\n')
    (htaken : ∀ c ∈ p.taken, c ' ' = false ∧ c '\n' = false) (category : String) (confidence : ℚ)
    (validate : String → Bool) :
    spanKeys (detectMatches (page.ofWords raw) ⟨finditer p, category, confidence,
        some fun page hit => validate (hit.group page)⟩) =
      spanKeys (detectMatches (page'.ofWords raw') ⟨finditer p, category, confidence,
        some fun page hit => validate (hit.group page)⟩) := by
  rw [spanKeys_detectMatches, spanKeys_detectMatches, ← finditer_reflow h hp]
  refine congrArg _ (List.filter_congr fun range hrange => ?_)
  exact congrArg validate (group_reflow h htaken hrange)

end Reflow

/-! ### The keyword window -/

/-- `str.casefold` folds one character at a time and keeps the separators. -/
structure FoldsEach (casefold : String → String) (fold : Char → List Char) : Prop where
  each : ∀ text, (casefold text).toList = text.toList.flatMap fold
  blank : fold ' ' = [' ']
  newline : fold '\n' = ['\n']

def oneLine (text : String) : String :=
  String.ofList (text.toList.map fun char => if char = '\n' then ' ' else char)

/-- The phrase stands in the window, and on one line. -/
def hasPhrase (casefold : String → String) (text : String) (matchStart : Nat) : Bool :=
  isSubstring "date of birth" (casefold (dobWindow text matchStart))

/-- In the window the phrase is the only keyword, whether a line cuts it or not. -/
def OnlyPhrase (casefold : String → String) (text : String) (matchStart : Nat) : Prop :=
  isSubstring "date of birth" (oneLine (casefold (dobWindow text matchStart))) = true ∧
    isSubstring "dob" (casefold (dobWindow text matchStart)) = false ∧
      isSubstring "born" (casefold (dobWindow text matchStart)) = false

instance (casefold : String → String) (text : String) (matchStart : Nat) :
    Decidable (OnlyPhrase casefold text matchStart) := inferInstanceAs (Decidable (_ ∧ _))

section Windows

variable {casefold : String → String} {fold : Char → List Char} {text text' : String}
  (hfold : FoldsEach casefold fold) (h : List.Forall₂ SameWords text.toList text'.toList)
include hfold h

theorem casefold_sameWords (start : Nat) :
    List.Forall₂ SameWords (casefold (dobWindow text start)).toList
      (casefold (dobWindow text' start)).toList := by
  have hbreak : ∀ {char}, isBreak char = true → fold char = [char] := by
    intro char hchar
    obtain rfl | rfl := of_decide_eq_true hchar
    · exact hfold.blank
    · exact hfold.newline
  rw [hfold.each, hfold.each, dobWindow, dobWindow, String.toList_ofList, String.toList_ofList]
  refine List.rel_flatMap (List.forall₂_drop _ (List.forall₂_take _ h)) ?_
  rintro char char' (rfl | ⟨hchar, hchar'⟩)
  · exact List.forall₂_same.mpr fun _ _ => Or.inl rfl
  · rw [hbreak hchar, hbreak hchar']
    exact List.Forall₂.cons (Or.inr ⟨hchar, hchar'⟩) List.Forall₂.nil

/-- A keyword without blanks is in both windows or in none. -/
theorem isSubstring_reflow {anchor : String} (hanchor : anchor.toList.any isBreak = false)
    (start : Nat) : isSubstring anchor (casefold (dobWindow text start)) =
      isSubstring anchor (casefold (dobWindow text' start)) := by
  have hkeep : ∀ a ∈ anchor.toList, ∀ b, SameWords a b → a = b := fun a ha b hab =>
    hab.eq_of_not_break (by simpa using List.any_eq_false.mp hanchor a ha)
  have hsame := casefold_sameWords hfold h start
  rw [Bool.eq_iff_iff, isSubstring_iff, isSubstring_iff]
  exact ⟨infix_of_related hsame hkeep, infix_of_related (hsame.flip.imp fun _ _ => SameWords.symm) hkeep⟩

theorem oneLine_reflow (start : Nat) :
    oneLine (casefold (dobWindow text start)) = oneLine (casefold (dobWindow text' start)) := by
  refine congrArg String.ofList ?_
  have hsame := casefold_sameWords hfold h start
  rw [← List.forall₂_eq_eq_eq, List.forall₂_map_left_iff, List.forall₂_map_right_iff]
  refine hsame.imp ?_
  rintro char char' (rfl | ⟨hchar, hchar'⟩)
  · rfl
  · obtain rfl | rfl := of_decide_eq_true hchar <;> obtain rfl | rfl := of_decide_eq_true hchar' <;>
      rfl

end Windows

theorem hasPhrase_oneLine {casefold : String → String} {text : String} {start : Nat}
    (h : hasPhrase casefold text start = true) :
    isSubstring "date of birth" (oneLine (casefold (dobWindow text start))) = true := by
  have hin := (isSubstring_iff.mp h).map fun char => if char = '\n' then ' ' else char
  have hlist : (oneLine (casefold (dobWindow text start))).toList = _ := String.toList_ofList
  rw [isSubstring_iff, hlist]
  exact hin

theorem filter_eq_filter_iff {α : Type} {f g : α → Bool} {l : List α} :
    l.filter f = l.filter g ↔ ∀ a ∈ l, f a = g a := by
  refine ⟨fun heq a ha => Bool.eq_iff_iff.mpr ⟨fun hf => ?_, fun hg => ?_⟩, List.filter_congr⟩
  · have hmem : a ∈ l.filter g := heq ▸ List.mem_filter.mpr ⟨ha, hf⟩
    exact (List.mem_filter.mp hmem).2
  · have hmem : a ∈ l.filter f := heq ▸ List.mem_filter.mpr ⟨ha, hg⟩
    exact (List.mem_filter.mp hmem).2

section Reflow

variable {casefold : String → String} {fold : Char → List Char} (hfold : FoldsEach casefold fold)
  {page page' : PageModel} {raw raw' : List RawWord} (h : raw.map (·.text) = raw'.map (·.text))
include hfold h

theorem hasDobAnchor_reflow_iff (start : Nat) :
    hasDobAnchor casefold (page.ofWords raw).text start =
        hasDobAnchor casefold (page'.ofWords raw').text start ↔
      (OnlyPhrase casefold (page.ofWords raw).text start →
        hasPhrase casefold (page.ofWords raw).text start =
          hasPhrase casefold (page'.ofWords raw').text start) := by
  have hsame := @ofWords_sameWords page page' raw raw' h
  have hdob := @isSubstring_reflow casefold fold _ _ hfold hsame "dob" rfl start
  have hborn := @isSubstring_reflow casefold fold _ _ hfold hsame "born" rfl start
  have hline := oneLine_reflow hfold hsame start
  have hphrase := @hasPhrase_oneLine casefold (page.ofWords raw).text start
  have hphrase' := @hasPhrase_oneLine casefold (page'.ofWords raw').text start
  rw [← hline] at hphrase'
  unfold hasDobAnchor dobKeywordAnchors OnlyPhrase
  simp only [List.any_cons, List.any_nil, Bool.or_false, ← hdob, ← hborn]
  have hbool : ∀ d p p' b o : Bool, (p = true → o = true) → (p' = true → o = true) →
      ((d || (p || b)) = (d || (p' || b)) ↔ (o = true ∧ d = false ∧ b = false → p = p')) := by
    decide
  exact hbool _ _ _ _ _ hphrase hphrase'

/-- Dates of birth agree when the phrase does where nothing else speaks for a date. -/
theorem detectDob_reflow_iff :
    spanKeys (detectDob casefold (page.ofWords raw)) =
        spanKeys (detectDob casefold (page'.ofWords raw')) ↔
      ∀ range ∈ Regex.finditer (page.ofWords raw).text.toList dateRe,
        OnlyPhrase casefold (page.ofWords raw).text range.1 →
          hasPhrase casefold (page.ofWords raw).text range.1 =
            hasPhrase casefold (page'.ofWords raw').text range.1 := by
  have hdates := @finditer_reflow page page' raw raw' h dateRe (by decide)
  unfold detectDob
  rw [spanKeys_detectMatches, spanKeys_detectMatches, ← hdates]
  simp only [Option.all_some, ← hasDobAnchor_reflow_iff hfold h]
  have hinjective : Function.Injective fun range : Nat × Nat => (range.1, range.2, "dob") := by
    intro a b hab
    obtain ⟨hstart, hstop⟩ := Prod.mk.inj hab
    exact Prod.ext hstart (Prod.mk.inj hstop).1
  rw [hinjective.list_map.eq_iff]
  exact filter_eq_filter_iff

/-- **Line breaks matter for the phrase alone.**  Two pages with the same words give all
six detectors the same spans exactly when, before every date whose only keyword is the
phrase, the phrase stands on one line in both pages or in neither. -/
theorem detection_reflow_iff (isValidEmail : String → Bool) :
    (∀ detect ∈ tier1Detectors casefold isValidEmail,
        spanKeys (detect (page.ofWords raw)) = spanKeys (detect (page'.ofWords raw'))) ↔
      ∀ range ∈ Regex.finditer (page.ofWords raw).text.toList dateRe,
        OnlyPhrase casefold (page.ofWords raw).text range.1 →
          hasPhrase casefold (page.ofWords raw).text range.1 =
            hasPhrase casefold (page'.ofWords raw').text range.1 := by
  rw [← detectDob_reflow_iff hfold h]
  unfold tier1Detectors
  simp only [List.forall_mem_cons, List.not_mem_nil, false_implies, implies_true, and_true]
  refine ⟨fun hall => hall.2.2.2.2.2, fun hdob => ⟨?_, ?_, ?_, ?_, ?_, hdob⟩⟩
  · exact spanKeys_reflow h (by decide) (by decide) _ _ fun group => validateSsn group == some true
  · unfold detectPhone
    rw [spanKeys_detectMatches, spanKeys_detectMatches,
      @finditer_reflow page page' raw raw' h phoneRe (by decide)]
    rfl
  · exact spanKeys_reflow h (by decide) (by decide) _ _ isValidEmail
  · exact spanKeys_reflow h (by decide) (by decide) _ _ fun group => luhnCheck group == some true
  · exact spanKeys_reflow h (by decide) (by decide) _ _ isPlateShaped

end Reflow

/-- Case folding, as far as ASCII goes. -/
def foldAscii (text : String) : String := String.ofList (text.toList.flatMap fun c => [c.toLower])

theorem foldAscii_foldsEach : FoldsEach foldAscii fun c => [c.toLower] where
  each _ := String.toList_ofList
  blank := by decide
  newline := by decide

def onLines (words : List (String × Nat)) : List RawWord :=
  words.map fun word => ⟨⟨0, 0, 0, 0⟩, word.1, 0, word.2, 0⟩

def blankPage : PageModel := ⟨1, 612, 792, "", [], 0, ""⟩

/-- A line between the keyword and the date changes nothing. -/
theorem detection_reflow_iff_born :
    ((tier1Detectors foldAscii fun _ => true).map fun detect =>
        spanKeys (detect (blankPage.ofWords (onLines [("Born", 0), ("1/2/1980", 0)])))) =
      (tier1Detectors foldAscii fun _ => true).map fun detect =>
        spanKeys (detect (blankPage.ofWords (onLines [("Born", 0), ("1/2/1980", 1)]))) := by
  refine List.map_congr_left ((@detection_reflow_iff foldAscii _ foldAscii_foldsEach blankPage
    blankPage (onLines [("Born", 0), ("1/2/1980", 0)]) (onLines [("Born", 0), ("1/2/1980", 1)])
    rfl fun _ => true).mpr ?_)
  decide

/-- **A line break hides a date of birth.** -/
theorem reflow_hides_birth_date :
    let raw := onLines [("Date", 0), ("of", 0), ("birth", 0), ("1/2/1980", 0)]
    let raw' := onLines [("Date", 0), ("of", 0), ("birth", 1), ("1/2/1980", 1)]
    FoldsEach foldAscii (fun c => [c.toLower]) ∧ raw.map (·.text) = raw'.map (·.text) ∧
      spanKeys (detectDob foldAscii (blankPage.ofWords raw)) = [(14, 22, "dob")] ∧
      spanKeys (detectDob foldAscii (blankPage.ofWords raw')) = [] :=
  ⟨foldAscii_foldsEach, by decide, by decide, by decide⟩

end RedactApi
