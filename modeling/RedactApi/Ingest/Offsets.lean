import RedactApi.Detection.WordBoxes

/-!
# The offsets of a page

`_build_text_and_words` writes the words of a page and their ranges in one pass.  For any
raw words, empty strings included, the ranges cut the text into the strings and leave one
separator between neighbours (`PageOffsets`).  So text and ranges say as much as strings
and separators do (`buildTextAndWords_eq_iff`).  The text alone says less: a blank inside a
word looks like one between two words.
-/

namespace RedactApi

/-- What joins a word to the next: a blank on one line, else a newline. -/
def separatorAfter (word next : RawWord) : Char :=
  if (word.blockNo, word.lineNo) = (next.blockNo, next.lineNo) then ' ' else '\n'

def separators : List RawWord → List Char
  | [] => []
  | [_] => []
  | word :: next :: rest => separatorAfter word next :: separators (next :: rest)

theorem buildTextAndWords_cons_cons (offset : Nat) (word next : RawWord) (rest : List RawWord) :
    buildTextAndWords offset (word :: next :: rest) =
      (word.text.toList ++
          separatorAfter word next ::
            (buildTextAndWords (offset + word.text.length + 1) (next :: rest)).1,
        ⟨offset, offset + word.text.length, word.bbox⟩ ::
          (buildTextAndWords (offset + word.text.length + 1) (next :: rest)).2) := rfl

theorem buildTextAndWords_singleton (offset : Nat) (word : RawWord) :
    buildTextAndWords offset [word] =
      (word.text.toList, [⟨offset, offset + word.text.length, word.bbox⟩]) := rfl

/-! ### Where the ranges lie -/

theorem start_of_head {offset : Nat} {raw : List RawWord} {w : WordBBox}
    (h : (buildTextAndWords offset raw).2.head? = some w) : w.start = offset := by
  cases raw with
  | nil => simp [buildTextAndWords] at h
  | cons word rest =>
    cases rest with
    | nil => simp [buildTextAndWords_singleton] at h; simp [← h]
    | cons next rest => simp [buildTextAndWords_cons_cons] at h; simp [← h]

theorem words_ne_nil (offset : Nat) (word : RawWord) (rest : List RawWord) :
    (buildTextAndWords offset (word :: rest)).2 ≠ [] := by
  cases rest <;> simp [buildTextAndWords_singleton, buildTextAndWords_cons_cons]

theorem stop_of_getLast {offset : Nat} {raw : List RawWord} {w : WordBBox}
    (h : (buildTextAndWords offset raw).2.getLast? = some w) :
    w.stop = offset + (buildTextAndWords offset raw).1.length := by
  induction raw generalizing offset with
  | nil => simp [buildTextAndWords] at h
  | cons word rest ih =>
    cases rest with
    | nil =>
      simp only [buildTextAndWords_singleton, List.getLast?_singleton, Option.some.injEq] at h
      rw [← h, buildTextAndWords_singleton, String.length_toList]
    | cons next rest =>
      rw [buildTextAndWords_cons_cons,
        List.getLast?_cons_of_ne_nil (words_ne_nil (offset + word.text.length + 1) next rest)] at h
      rw [ih h, buildTextAndWords_cons_cons]
      simp only [List.length_append, List.length_cons, String.length_toList]
      omega

theorem range_bounds {offset : Nat} {raw : List RawWord} {w : WordBBox}
    (h : w ∈ (buildTextAndWords offset raw).2) : offset ≤ w.start ∧ w.start ≤ w.stop := by
  induction raw generalizing offset with
  | nil => simp [buildTextAndWords] at h
  | cons word rest ih =>
    cases rest with
    | nil =>
      obtain rfl := List.mem_singleton.mp h
      exact ⟨Nat.le_refl _, Nat.le_add_right _ _⟩
    | cons next rest =>
      rw [buildTextAndWords_cons_cons] at h
      obtain rfl | h := List.mem_cons.mp h
      · exact ⟨Nat.le_refl _, Nat.le_add_right _ _⟩
      · have hrest := ih h
        omega

theorem ranges_pairwise (offset : Nat) (raw : List RawWord) :
    (buildTextAndWords offset raw).2.Pairwise fun w w' => w.start ≤ w.stop ∧ w.stop < w'.start := by
  induction raw generalizing offset with
  | nil => exact List.Pairwise.nil
  | cons word rest ih =>
    cases rest with
    | nil => exact List.pairwise_singleton _ _
    | cons next rest =>
      rw [buildTextAndWords_cons_cons]
      refine List.pairwise_cons.mpr ⟨fun w hw => ?_, ih _⟩
      have hbounds := (range_bounds hw).1
      exact ⟨Nat.le_add_right _ _, hbounds⟩

/-- Neighbours are one character apart, and it is the separator. -/
theorem neighbour_words (before : List Char) {raw : List RawWord} {i : Nat} {w w' : WordBBox}
    {word word' : RawWord} (hw : (buildTextAndWords before.length raw).2[i]? = some w)
    (hw' : (buildTextAndWords before.length raw).2[i + 1]? = some w')
    (hword : raw[i]? = some word) (hword' : raw[i + 1]? = some word') :
    w'.start = w.stop + 1 ∧
      (before ++ (buildTextAndWords before.length raw).1)[w.stop]? =
        some (separatorAfter word word') := by
  induction raw generalizing before i with
  | nil => simp at hword
  | cons first rest ih =>
    cases rest with
    | nil => simp at hword'
    | cons next rest =>
      have hlength : (before ++ first.text.toList ++ [separatorAfter first next]).length =
          before.length + first.text.length + 1 := by
        simp only [List.length_append, String.length_toList, List.length_singleton]
      rw [buildTextAndWords_cons_cons] at hw hw' ⊢
      rw [← hlength] at hw hw' ⊢
      cases i with
      | zero =>
        simp only [List.getElem?_cons_zero, Option.some.injEq, Nat.zero_add,
          List.getElem?_cons_succ] at hw hw' hword hword'
        subst hw hword hword'
        have hhead := start_of_head ((List.head?_eq_getElem? (l := _)).trans hw')
        refine ⟨hhead.trans hlength, ?_⟩
        have hword : (before ++ first.text.toList).length = before.length + first.text.length := by
          rw [List.length_append, String.length_toList]
        rw [← List.append_assoc, List.getElem?_append_right (le_of_eq hword), hword, Nat.sub_self]
        rfl
      | succ i =>
        simp only [List.getElem?_cons_succ] at hw hw' hword hword'
        have hrest := ih (before ++ first.text.toList ++ [separatorAfter first next])
          hw hw' hword hword'
        simpa using hrest

/-! ### Text and ranges against strings and separators -/

def joinWords : List (List Char) → List Char → List Char
  | text :: rest, separator :: separators => text ++ separator :: joinWords rest separators
  | text :: _, [] => text
  | [], _ => []

def rangesFrom : Nat → List (List Char) → List (Nat × Nat)
  | _, [] => []
  | offset, text :: rest =>
    (offset, offset + text.length) :: rangesFrom (offset + text.length + 1) rest

def WordBBox.range (w : WordBBox) : Nat × Nat := (w.start, w.stop)

theorem text_eq_joinWords (offset : Nat) (raw : List RawWord) :
    (buildTextAndWords offset raw).1 = joinWords (raw.map (·.text.toList)) (separators raw) := by
  induction raw generalizing offset with
  | nil => rfl
  | cons word rest ih =>
    cases rest with
    | nil => rfl
    | cons next rest => rw [buildTextAndWords_cons_cons, ih]; rfl

theorem ranges_eq_rangesFrom (offset : Nat) (raw : List RawWord) :
    (buildTextAndWords offset raw).2.map WordBBox.range =
      rangesFrom offset (raw.map (·.text.toList)) := by
  induction raw generalizing offset with
  | nil => rfl
  | cons word rest ih =>
    cases rest with
    | nil => simp [buildTextAndWords_singleton, rangesFrom, WordBBox.range, String.length_toList]
    | cons next rest =>
      rw [buildTextAndWords_cons_cons, List.map_cons, ih]
      simp [rangesFrom, WordBBox.range, String.length_toList]

theorem length_separators (raw : List RawWord) : (separators raw).length = raw.length - 1 := by
  induction raw with
  | nil => rfl
  | cons word rest ih =>
    cases rest with
    | nil => rfl
    | cons next rest =>
      rw [separators, List.length_cons, ih]
      simp

/-- Between known strings the separators can be read off. -/
theorem separators_eq_of_joinWords {texts : List (List Char)} {seps seps' : List Char}
    (hseps : seps.length = texts.length - 1) (hseps' : seps'.length = texts.length - 1)
    (h : joinWords texts seps = joinWords texts seps') : seps = seps' := by
  induction texts generalizing seps seps' with
  | nil => rw [List.length_eq_zero_iff.mp hseps, List.length_eq_zero_iff.mp hseps']
  | cons text rest ih =>
    cases seps with
    | nil =>
      rw [List.length_nil] at hseps
      rw [← hseps] at hseps'
      rw [List.length_eq_zero_iff.mp hseps']
    | cons c seps =>
      cases seps' with
      | nil =>
        rw [List.length_nil] at hseps'
        rw [← hseps'] at hseps
        exact absurd hseps (by simp)
      | cons c' seps' =>
        simp only [List.length_cons] at hseps hseps'
        rw [joinWords, joinWords] at h
        obtain ⟨rfl, hrest⟩ := List.cons.inj (List.append_cancel_left h)
        rw [ih (by omega) (by omega) hrest]

/-- **Text and ranges say as much as strings and separators.** -/
theorem buildTextAndWords_eq_iff (raw raw' : List RawWord) :
    (buildTextAndWords 0 raw).1 = (buildTextAndWords 0 raw').1 ∧
        (buildTextAndWords 0 raw).2.map WordBBox.range =
          (buildTextAndWords 0 raw').2.map WordBBox.range ↔
      raw.map (·.text) = raw'.map (·.text) ∧ separators raw = separators raw' := by
  have htexts : ∀ l : List RawWord, l.map (·.text.toList) = (l.map (·.text)).map String.toList :=
    fun l => by rw [List.map_map]; rfl
  have hslices : ∀ l : List RawWord, l.map (·.text.toList) =
      ((buildTextAndWords 0 l).2.map WordBBox.range).map fun range =>
        ((buildTextAndWords 0 l).1.take range.2).drop range.1 := by
    intro l
    rw [List.map_map]
    exact (slices_buildTextAndWords [] l).symm
  constructor
  · rintro ⟨htext, hranges⟩
    have hstrings : raw.map (·.text.toList) = raw'.map (·.text.toList) := by
      rw [hslices raw, hslices raw', htext, hranges]
    have hlength : raw.length = raw'.length := by simpa using congrArg List.length hstrings
    refine ⟨?_, ?_⟩
    · rw [htexts, htexts] at hstrings
      exact List.map_injective_iff.mpr (fun _ _ => String.toList_injective) hstrings
    · rw [text_eq_joinWords, text_eq_joinWords, ← hstrings] at htext
      refine separators_eq_of_joinWords ?_ ?_ htext
      · rw [length_separators, List.length_map]
      · rw [length_separators, List.length_map, hlength]
  · rintro ⟨hstrings, hseparators⟩
    rw [text_eq_joinWords, text_eq_joinWords, ranges_eq_rangesFrom, ranges_eq_rangesFrom,
      htexts raw, htexts raw', hstrings, hseparators]
    exact ⟨rfl, rfl⟩

/-! ### The page model -/

/-- Text and words as the offsets of a page: each word cuts out its string, the first
starts at `0`, the last ends with the text, and neighbours are one separator apart. -/
structure PageOffsets (raw : List RawWord) (text : List Char) (words : List WordBBox) : Prop where
  length : words.length = raw.length
  bboxes : words.map (·.bbox) = raw.map (·.bbox)
  strings : (words.map fun w => (text.take w.stop).drop w.start) = raw.map (·.text.toList)
  first : ∀ w, words.head? = some w → w.start = 0
  last : ∀ w, words.getLast? = some w → w.stop = text.length
  between : ∀ i w w' word word', words[i]? = some w → words[i + 1]? = some w' →
    raw[i]? = some word → raw[i + 1]? = some word' →
      w'.start = w.stop + 1 ∧ text[w.stop]? =
        some (if (word.blockNo, word.lineNo) = (word'.blockNo, word'.lineNo) then ' ' else '\n')
  increasing : words.Pairwise fun w w' => w.start < w'.start
  disjoint : words.Pairwise fun w w' => w.stop ≤ w'.start
  empty : raw = [] → text = []

/-- **The offset representation of a page**, for any raw words.  With the ranges, the text
is determined by the strings and separators of the words and determines them. -/
theorem buildTextAndWords_offsets (raw : List RawWord) :
    PageOffsets raw (buildTextAndWords 0 raw).1 (buildTextAndWords 0 raw).2 ∧
      ∀ raw' : List RawWord,
        (buildTextAndWords 0 raw).1 = (buildTextAndWords 0 raw').1 ∧
            (buildTextAndWords 0 raw).2.map WordBBox.range =
              (buildTextAndWords 0 raw').2.map WordBBox.range ↔
          raw.map (·.text) = raw'.map (·.text) ∧ separators raw = separators raw' where
  left :=
    { length := by rw [← List.length_map, buildTextAndWords_bboxes, List.length_map]
      bboxes := buildTextAndWords_bboxes 0 raw
      strings := slices_buildTextAndWords [] raw
      first := fun w h => start_of_head h
      last := fun w h => (stop_of_getLast h).trans (Nat.zero_add _)
      between := fun i w w' word word' hw hw' hword hword' =>
        neighbour_words [] hw hw' hword hword'
      increasing := (ranges_pairwise 0 raw).imp fun h => h.1.trans_lt h.2
      disjoint := (ranges_pairwise 0 raw).imp fun h => h.2.le
      empty := fun h => by rw [h]; rfl }
  right := buildTextAndWords_eq_iff raw

def oneWord : List RawWord := [⟨⟨72, 72, 90, 84⟩, "a b", 0, 0, 0⟩]
def twoWords : List RawWord :=
  [⟨⟨72, 72, 78, 84⟩, "a", 0, 0, 0⟩, ⟨⟨84, 72, 90, 84⟩, "b", 0, 0, 1⟩]

/-- One text, other strings and separators. -/
theorem same_text_of_other_words :
    (buildTextAndWords 0 oneWord).1 = (buildTextAndWords 0 twoWords).1 ∧
      oneWord.map (·.text) ≠ twoWords.map (·.text) ∧ separators oneWord ≠ separators twoWords := by
  decide

end RedactApi
