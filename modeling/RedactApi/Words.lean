import Mathlib.Data.List.Basic

/-!
# Words between separators

The words of a list are its longest non-empty parts without separators.  `collapse` keeps
one blank of each run of separators and `strip` drops the separators at both ends; together
they leave the words, joined by single blanks (`strip_collapse_eq`), and joined words can
be read back (`words_unwords`).
-/

namespace Words

variable {α : Type*} (sep : α → Bool) (blank : α)

/-- Not empty, and no separator in it. -/
structure IsWord (w : List α) : Prop where
  ne_nil : w ≠ []
  no_sep : ∀ a ∈ w, sep a = false

def words (s : List α) : List (List α) := (s.splitOnP sep).filter fun w => !w.isEmpty

/-- The words with single blanks between them. -/
def unwords (ws : List (List α)) : List α := [blank].intercalate ws

/-- One blank for each run of separators; the flag says that a run has begun. -/
def collapse : Bool → List α → List α
  | _, [] => []
  | inRun, a :: s =>
    if sep a then
      if inRun then collapse true s else blank :: collapse true s
    else a :: collapse false s

def strip (s : List α) : List α := ((s.dropWhile sep).reverse.dropWhile sep).reverse

variable {sep blank} {s t w : List α} {ws : List (List α)} {a : α}

instance : Decidable (IsWord sep w) :=
  decidable_of_iff (w.isEmpty = false ∧ w.any sep = false)
    ⟨fun h => ⟨by simpa using h.1, fun a ha => by simpa using List.any_eq_false.mp h.2 a ha⟩,
      fun h => ⟨by simpa using h.ne_nil, List.any_eq_false.mpr fun a ha => by simp [h.no_sep a ha]⟩⟩

/-! ### Cutting into words -/

@[simp] theorem words_nil : words sep [] = [] := rfl

theorem words_append_cons (ha : sep a = true) (s t : List α) :
    words sep (s ++ a :: t) = words sep s ++ words sep t := by
  rw [words, List.splitOnP_append_cons s t ha, List.filter_append]
  rfl

theorem words_cons_of_sep (ha : sep a = true) (t : List α) : words sep (a :: t) = words sep t :=
  words_append_cons ha [] t

theorem IsWord.words_eq (h : IsWord sep w) : words sep w = [w] := by
  rw [words, List.splitOnP_eq_singleton h.no_sep]
  simp [h.ne_nil]

/-- A word, then nothing or a separator. -/
theorem exists_word_append (hs : s ≠ []) (hhead : ∀ a ∈ s.head?, sep a = false) :
    ∃ w, IsWord sep w ∧ (s = w ∨ ∃ a t, sep a = true ∧ s = w ++ a :: t) := by
  induction s with
  | nil => exact absurd rfl hs
  | cons c s ih =>
    have hc : sep c = false := hhead c rfl
    by_cases hrest : s = []
    · subst hrest
      exact ⟨[c], ⟨by simp, by simpa using hc⟩, Or.inl rfl⟩
    · by_cases hnext : ∀ a ∈ s.head?, sep a = false
      · obtain ⟨w, hw, hs⟩ := ih hrest hnext
        refine ⟨c :: w, ⟨by simp, List.forall_mem_cons.mpr ⟨hc, hw.no_sep⟩⟩, ?_⟩
        obtain rfl | ⟨a, t, ha, rfl⟩ := hs
        · exact Or.inl rfl
        · exact Or.inr ⟨a, t, ha, rfl⟩
      · obtain ⟨a, t, rfl⟩ := List.exists_cons_of_ne_nil hrest
        have ha : sep a = true := by simpa using hnext
        exact ⟨[c], ⟨by simp, by simpa using hc⟩, Or.inr ⟨a, t, ha, rfl⟩⟩

/-- From the left: no words at all, or a word and the rest behind a separator. -/
theorem words_induction {P : List α → Prop} (hnil : P []) (hsep : ∀ a t, sep a = true → P t → P (a :: t))
    (hword : ∀ w, IsWord sep w → P w)
    (hcons : ∀ w a t, IsWord sep w → sep a = true → P t → P (w ++ a :: t)) (s : List α) : P s := by
  induction hn : s.length using Nat.strongRecOn generalizing s with
  | ind n ih =>
    subst hn
    cases s with
    | nil => exact hnil
    | cons c s =>
      by_cases hc : sep c = true
      · exact hsep c s hc (ih s.length (by simp) s rfl)
      · obtain ⟨w, hw, hs⟩ := @exists_word_append α sep (c :: s) (by simp) (by simpa using hc)
        obtain hs | ⟨a, t, ha, hs⟩ := hs
        · rw [hs]
          exact hword w hw
        · have hlength := congrArg List.length hs
          rw [List.length_append, List.length_cons, List.length_cons] at hlength
          rw [hs]
          exact hcons w a t hw ha (ih t.length (by rw [List.length_cons]; omega) t rfl)

theorem isWord_of_mem_words (h : w ∈ words sep s) : IsWord sep w := by
  induction s using @words_induction α sep with
  | hnil => simp at h
  | hsep a t ha ih => exact ih (words_cons_of_sep ha t ▸ h)
  | hword w' hw' =>
    rw [hw'.words_eq] at h
    exact List.mem_singleton.mp h ▸ hw'
  | hcons w' a t hw' ha ih =>
    rw [words_append_cons ha, hw'.words_eq] at h
    obtain h | h := List.mem_append.mp h
    · exact List.mem_singleton.mp h ▸ hw'
    · exact ih h

theorem IsWord.flatMap {f : α → List α} (hf : ∀ {a}, sep a = false → IsWord sep (f a))
    (hw : IsWord sep w) : IsWord sep (w.flatMap f) := by
  obtain ⟨a, w, rfl⟩ := List.exists_cons_of_ne_nil hw.ne_nil
  refine ⟨?_, fun b hb => ?_⟩
  · rw [List.flatMap_cons]
    exact fun hnil => (hf (hw.no_sep a List.mem_cons_self)).ne_nil (List.append_eq_nil_iff.mp hnil).1
  · obtain ⟨c, hc, hb⟩ := List.mem_flatMap.mp hb
    exact (hf (hw.no_sep c hc)).no_sep b hb

/-- What keeps separators apart from words acts on the words one by one. -/
theorem words_apply {g : List α → List α} (hnil : g [] = [])
    (hword : ∀ w, IsWord sep w → IsWord sep (g w))
    (hsep : ∀ s a t, sep a = true → ∃ b, sep b = true ∧ g (s ++ a :: t) = g s ++ b :: g t)
    (s : List α) : words sep (g s) = (words sep s).map g := by
  induction s using @words_induction α sep with
  | hnil => rw [hnil]; rfl
  | hsep a t ha ih =>
    obtain ⟨b, hb, hg⟩ := hsep [] a t ha
    rw [List.nil_append, hnil, List.nil_append] at hg
    rw [hg, words_cons_of_sep hb, ih, words_cons_of_sep ha]
  | hword w hw => rw [(hword w hw).words_eq, hw.words_eq, List.map_singleton]
  | hcons w a t hw ha ih =>
    obtain ⟨b, hb, hg⟩ := hsep w a t ha
    rw [hg, words_append_cons hb, words_append_cons ha, (hword w hw).words_eq, hw.words_eq, ih,
      List.map_append, List.map_singleton]

/-! ### Joining words -/

theorem unwords_cons_cons (w w' : List α) (ws : List (List α)) :
    unwords blank (w :: w' :: ws) = w ++ blank :: unwords blank (w' :: ws) := by
  unfold unwords
  rw [List.intercalate_cons_cons, List.append_assoc]
  rfl

@[simp] theorem unwords_singleton (w : List α) : unwords blank [w] = w :=
  List.intercalate_singleton

/-- Joined words can be read back. -/
theorem words_unwords (hblank : sep blank = true) (hws : ∀ w ∈ ws, IsWord sep w) :
    words sep (unwords blank ws) = ws := by
  induction ws with
  | nil => rfl
  | cons w ws ih =>
    obtain ⟨hw, hws⟩ := List.forall_mem_cons.mp hws
    cases ws with
    | nil => rw [unwords_singleton, hw.words_eq]
    | cons w' ws => rw [unwords_cons_cons, words_append_cons hblank, hw.words_eq, ih hws]; rfl

structure Trimmed (sep : α → Bool) (s : List α) : Prop where
  first : ∀ a ∈ s.head?, sep a = false
  last : ∀ a ∈ s.getLast?, sep a = false

theorem IsWord.trimmed (h : IsWord sep w) : Trimmed sep w where
  first a ha := h.no_sep a (List.mem_of_mem_head? ha)
  last a ha := h.no_sep a (List.mem_of_getLast? ha)

theorem trimmed_unwords (hws : ∀ w ∈ ws, IsWord sep w) : Trimmed sep (unwords blank ws) := by
  induction ws with
  | nil => exact ⟨by simp [unwords], by simp [unwords]⟩
  | cons w ws ih =>
    obtain ⟨hw, hrestWords⟩ := List.forall_mem_cons.mp hws
    cases ws with
    | nil =>
      rw [unwords_singleton]
      exact hw.trimmed
    | cons w' ws =>
      have hrest : unwords blank (w' :: ws) ≠ [] := by
        have hw' := (hrestWords w' List.mem_cons_self).ne_nil
        cases ws with
        | nil => rwa [unwords_singleton]
        | cons w'' ws => rw [unwords_cons_cons]; simp [hw']
      obtain ⟨c, w, rfl⟩ := List.exists_cons_of_ne_nil hw.ne_nil
      rw [unwords_cons_cons]
      refine ⟨fun a ha => hw.trimmed.first a ha, fun a ha => (ih hrestWords).last a ?_⟩
      rwa [List.getLast?_append_of_ne_nil _ (by simp), List.getLast?_cons_of_ne_nil hrest] at ha

/-! ### Collapsing and stripping -/

theorem collapse_word_append (hw : IsWord sep w) (inRun : Bool) (t : List α) :
    collapse sep blank inRun (w ++ t) = w ++ collapse sep blank false t := by
  have hrest : ∀ w : List α, (∀ a ∈ w, sep a = false) →
      collapse sep blank false (w ++ t) = w ++ collapse sep blank false t := by
    intro w
    induction w with
    | nil => simp
    | cons a w ih =>
      intro hw
      obtain ⟨ha, hw⟩ := List.forall_mem_cons.mp hw
      rw [List.cons_append, collapse, if_neg (by simp [ha]), ih hw, List.cons_append]
  obtain ⟨a, w, rfl⟩ := List.exists_cons_of_ne_nil hw.ne_nil
  obtain ⟨ha, hw⟩ := List.forall_mem_cons.mp hw.no_sep
  rw [List.cons_append, collapse, if_neg (by simp [ha]), hrest w hw, List.cons_append]

/-- Inside a run the words come first, and at most a blank after them. -/
theorem collapse_true_eq (hblank : sep blank = true) (s : List α) :
    ∃ post, (∀ a ∈ post, sep a = true) ∧
      collapse sep blank true s = unwords blank (words sep s) ++ post := by
  induction s using @words_induction α sep with
  | hnil => exact ⟨[], by simp, rfl⟩
  | hsep a t ha ih =>
    obtain ⟨post, hpost, heq⟩ := ih
    exact ⟨post, hpost, by rw [collapse, if_pos ha, if_pos rfl, heq, words_cons_of_sep ha]⟩
  | hword w hw =>
    refine ⟨[], by simp, ?_⟩
    have hcollapse := @collapse_word_append α sep blank w hw true []
    rw [List.append_nil] at hcollapse
    rw [hcollapse, hw.words_eq, unwords_singleton]
    rfl
  | hcons w a t hw ha ih =>
    obtain ⟨post, hpost, heq⟩ := ih
    have hcollapse : collapse sep blank true (w ++ a :: t) =
        w ++ blank :: (unwords blank (words sep t) ++ post) := by
      rw [collapse_word_append hw, collapse, if_pos ha, if_neg Bool.false_ne_true, heq]
    rw [hcollapse, words_append_cons ha, hw.words_eq, List.singleton_append]
    cases hwords : words sep t with
    | nil => exact ⟨blank :: post, List.forall_mem_cons.mpr ⟨hblank, hpost⟩, by simp [unwords]⟩
    | cons w' ws =>
      refine ⟨post, hpost, ?_⟩
      rw [unwords_cons_cons, List.append_assoc, List.cons_append]

theorem collapse_false_eq (hblank : sep blank = true) (s : List α) :
    ∃ pre, (∀ a ∈ pre, sep a = true) ∧
      collapse sep blank false s = pre ++ collapse sep blank true s := by
  cases s with
  | nil => exact ⟨[], by simp, rfl⟩
  | cons a s =>
    by_cases ha : sep a = true
    · exact ⟨[blank], by simpa using hblank, by simp [collapse, ha]⟩
    · exact ⟨[], by simp, by simp [collapse, ha]⟩

theorem dropWhile_of_first (h : ∀ a ∈ s.head?, sep a = false) : s.dropWhile sep = s := by
  cases s with
  | nil => rfl
  | cons a s => rw [List.dropWhile_cons_of_neg (by simp [h a rfl])]

theorem dropWhile_append {pre : List α} (hpre : ∀ a ∈ pre, sep a = true) (s : List α) :
    (pre ++ s).dropWhile sep = s.dropWhile sep := by
  induction pre with
  | nil => rfl
  | cons a pre ih =>
    obtain ⟨ha, hpre⟩ := List.forall_mem_cons.mp hpre
    rw [List.cons_append, List.dropWhile_cons_of_pos ha, ih hpre]

theorem strip_append {pre post : List α} (hpre : ∀ a ∈ pre, sep a = true)
    (hpost : ∀ a ∈ post, sep a = true) (hs : Trimmed sep s) : strip sep (pre ++ (s ++ post)) = s := by
  have hleft : (s ++ post).dropWhile sep = s ++ post ∨ s = [] := by
    cases s with
    | nil => exact Or.inr rfl
    | cons a s => exact Or.inl (dropWhile_of_first fun b hb => hs.first b hb)
  rw [strip, dropWhile_append hpre]
  obtain hleft | rfl := hleft
  · have hlast : ∀ a ∈ s.reverse.head?, sep a = false := by
      rw [List.head?_reverse]
      exact hs.last
    rw [hleft, List.reverse_append, dropWhile_append (by simpa using hpost),
      dropWhile_of_first hlast, List.reverse_reverse]
  · have hnil := dropWhile_append hpost []
    rw [List.append_nil] at hnil
    rw [List.nil_append, hnil]
    rfl

/-- **Collapsing and stripping leave the words.** -/
theorem strip_collapse_eq (hblank : sep blank = true) (s : List α) :
    strip sep (collapse sep blank false s) = unwords blank (words sep s) := by
  obtain ⟨post, hpost, htrue⟩ := collapse_true_eq hblank s
  obtain ⟨pre, hpre, hfalse⟩ := collapse_false_eq hblank s
  rw [hfalse, htrue]
  exact strip_append hpre hpost (trimmed_unwords fun w hw => isWord_of_mem_words hw)

end Words
