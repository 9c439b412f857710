import Mathlib.Data.List.Pairwise
import RedactApi.Detection.Tier2

/-!
# What the merge of the two tiers keeps

The merged output covers what the two lists cover, category by category, and its
spans stay true to the page.  It is not always free of duplicates: Tier-2 spans are
never joined with each other, so one that overlaps a consumed Tier-2 span but no
Tier-1 span passes through beside the survivor that covers it in part.
-/

namespace RedactApi

open Grouping

variable {tier1Spans tier2Spans : List CandidateSpan} {page : PageModel}

theorem spanAt_mem (x : Node tier1Spans tier2Spans) :
    spanAt tier1Spans tier2Spans x ∈ tier1Spans ++ tier2Spans := by
  induction x using Fin.addCases with
  | left i =>
    rw [spanAt_castAdd]
    exact List.mem_append_left _ (List.get_mem _ i)
  | right j =>
    rw [spanAt_natAdd]
    exact List.mem_append_right _ (List.get_mem _ j)

theorem exists_spanAt {s : CandidateSpan} (h : s ∈ tier1Spans ++ tier2Spans) :
    ∃ x, spanAt tier1Spans tier2Spans x = s := by
  rcases List.mem_append.mp h with h | h
  · obtain ⟨i, rfl⟩ := List.mem_iff_get.mp h
    exact ⟨_, spanAt_castAdd i⟩
  · obtain ⟨j, rfl⟩ := List.mem_iff_get.mp h
    exact ⟨_, spanAt_natAdd j⟩

/-- A span of either list is in the component of a survivor or passes through. -/
theorem grouped_or_unconsumed (x : Node tier1Spans tier2Spans) :
    (∃ e ∈ (groupOverlappingSpans tier1Spans tier2Spans).1,
      Joined tier1Spans tier2Spans (Fin.castAdd _ e.2.1) x) ∨
        spanAt tier1Spans tier2Spans x ∈ unconsumed tier1Spans tier2Spans := by
  induction x using Fin.addCases with
  | left i => exact Or.inl (exists_group _ i)
  | right j =>
    by_cases hj : ∃ i, Joined tier1Spans tier2Spans (Fin.castAdd _ i) (Fin.natAdd _ j)
    · obtain ⟨i, hi⟩ := hj
      obtain ⟨e, he, hei⟩ := exists_group tier2Spans i
      exact Or.inl ⟨e, he, hei.trans _ _ _ hi⟩
    · rw [spanAt_natAdd]
      exact Or.inr (mem_unconsumed.mpr ⟨j, rfl, not_exists.mp hj⟩)

/-! ### Coverage -/

def Covered (spans : List CandidateSpan) (category : String) (offset : Nat) : Prop :=
  ∃ s ∈ spans, s.category = category ∧ s.start ≤ offset ∧ offset < s.stop

theorem covered_dedupe (category : String) (offset : Nat) :
    Covered (dedupeTier2AgainstTier1 page tier1Spans tier2Spans) category offset ↔
      Covered (tier1Spans ++ tier2Spans) category offset := by
  constructor
  · rintro ⟨s, hs, hcategory, hoffset⟩
    rcases List.mem_append.mp hs with hs | hs
    · obtain ⟨e, he, rfl⟩ := mem_survivors.mp hs
      obtain ⟨y, hy, hoffset⟩ := (mergedSpan_range page he offset).mp hoffset
      exact ⟨_, spanAt_mem y, (mergedSpan_same page hy).2.symm.trans hcategory, hoffset⟩
    · obtain ⟨j, rfl, -⟩ := mem_unconsumed.mp hs
      exact ⟨_, List.mem_append_right _ (List.get_mem _ j), hcategory, hoffset⟩
  · rintro ⟨s, hs, hcategory, hoffset⟩
    obtain ⟨x, rfl⟩ := exists_spanAt hs
    rcases grouped_or_unconsumed x with ⟨e, he, hx⟩ | hx
    · exact ⟨_, List.mem_append_left _ (mem_survivors.mpr ⟨e, he, rfl⟩),
        (mergedSpan_same page hx).2.trans hcategory, (mergedSpan_range page he offset).mpr ⟨x, hx, hoffset⟩⟩
    · exact ⟨_, List.mem_append_right _ hx, hcategory, hoffset⟩

theorem fromPage_dedupe (h : ∀ s ∈ tier1Spans ++ tier2Spans, FromPage page s) :
    ∀ s ∈ dedupeTier2AgainstTier1 page tier1Spans tier2Spans, FromPage page s := by
  intro s hs
  rcases List.mem_append.mp hs with hs | hs
  · obtain ⟨e, -, rfl⟩ := mem_survivors.mp hs
    exact (mergeGroup_primary page _ _ _).2.2 (h _ (List.mem_append_left _ (List.get_mem _ _)))
  · obtain ⟨j, rfl, -⟩ := mem_unconsumed.mp hs
    exact h _ (List.mem_append_right _ (List.get_mem _ j))

/-- An output span is a Tier-2 span, or merged from spans of its page and category. -/
theorem sources_dedupe {s : CandidateSpan}
    (hs : s ∈ dedupeTier2AgainstTier1 page tier1Spans tier2Spans) :
    s ∈ tier2Spans ∨ ∃ primary others tier2Group,
      primary :: others ⊆ tier1Spans ∧ tier2Group ⊆ tier2Spans ∧
        s = mergeGroup page primary others tier2Group ∧
          ∀ x ∈ primary :: (others ++ tier2Group),
            s.pageNumber = x.pageNumber ∧ s.category = x.category := by
  rcases List.mem_append.mp hs with hs | hs
  · obtain ⟨e, he, rfl⟩ := mem_survivors.mp hs
    refine Or.inr ⟨_, _, _, ?_, ?_, rfl, fun x hx => ?_⟩
    · rw [← List.map_cons]
      exact fun x hx => (List.mem_map.mp hx).elim fun i hi => hi.2 ▸ List.get_mem _ i
    · exact fun x hx => (List.mem_map.mp hx).elim fun j hj => hj.2 ▸ List.get_mem _ j
    · obtain ⟨y, hy, rfl⟩ := (mem_merged he x).mp hx
      exact mergedSpan_same page hy
  · obtain ⟨j, rfl, -⟩ := mem_unconsumed.mp hs
    exact Or.inl (List.get_mem _ j)

/-- **The merge loses and invents nothing.**  Of every category the output covers the
offsets that the two lists cover; texts and boxes stay those of the page; and a span
has the page and the category of every span it was merged from. -/
theorem dedupe_faithful (page : PageModel) (tier1Spans tier2Spans : List CandidateSpan) :
    (∀ category offset,
      Covered (dedupeTier2AgainstTier1 page tier1Spans tier2Spans) category offset ↔
        Covered (tier1Spans ++ tier2Spans) category offset) ∧
      ((∀ s ∈ tier1Spans ++ tier2Spans, FromPage page s) →
        ∀ s ∈ dedupeTier2AgainstTier1 page tier1Spans tier2Spans, FromPage page s) ∧
      ∀ s ∈ dedupeTier2AgainstTier1 page tier1Spans tier2Spans,
        s ∈ tier2Spans ∨ ∃ primary others tier2Group,
          primary :: others ⊆ tier1Spans ∧ tier2Group ⊆ tier2Spans ∧
            s = mergeGroup page primary others tier2Group ∧
              ∀ x ∈ primary :: (others ++ tier2Group),
                s.pageNumber = x.pageNumber ∧ s.category = x.category :=
  ⟨covered_dedupe, fromPage_dedupe, fun _ => sources_dedupe⟩

def tenLetters : PageModel where
  pageNumber := 1
  width := 612
  height := 792
  text := "abcdefghij"
  words := []
  rotation := 0
  rasterKey := "rasters/1"

def nameOn (page : PageModel) (sourceTier : SourceTier) (start stop : Nat) : CandidateSpan where
  pageNumber := page.pageNumber
  start := start
  stop := stop
  bboxes := resolveSpanBboxes page start stop
  text := page.slice start stop
  category := "NAME"
  sourceTier := sourceTier
  confidence := 1

/-- Two regex hits under one wider name. -/
theorem dedupe_faithful_two_hits :
    ∀ s ∈ dedupeTier2AgainstTier1 tenLetters
        [nameOn tenLetters .tier1 0 3, nameOn tenLetters .tier1 6 8] [nameOn tenLetters .tier2 2 7],
      FromPage tenLetters s := by
  refine (dedupe_faithful _ _ _).2.1 fun s hs => ?_
  have hs : s = nameOn tenLetters .tier1 0 3 ∨ s = nameOn tenLetters .tier1 6 8 ∨
      s = nameOn tenLetters .tier2 2 7 := by simpa using hs
  rcases hs with rfl | rfl | rfl <;> exact ⟨rfl, rfl⟩

/-! ### Duplicates -/

/-- No Tier-1-anchored survivor overlaps another span of the output. -/
def SurvivorsApart (page : PageModel) (tier1Spans tier2Spans : List CandidateSpan) : Prop :=
  (survivors tier1Spans tier2Spans page).Pairwise (fun s s' => ¬ spansOverlap s s' = true) ∧
    ∀ s ∈ survivors tier1Spans tier2Spans page, ∀ s' ∈ unconsumed tier1Spans tier2Spans,
      ¬ spansOverlap s s' = true

instance (page : PageModel) (tier1Spans tier2Spans : List CandidateSpan) :
    Decidable (SurvivorsApart page tier1Spans tier2Spans) :=
  inferInstanceAs (Decidable (_ ∧ _))

/-- Each Tier-2 span that overlaps an absorbed one is absorbed with it. -/
def AbsorbsOverlapping (tier1Spans tier2Spans : List CandidateSpan) : Prop :=
  ∀ (i : Fin tier1Spans.length) (j j' : Fin tier2Spans.length),
    Joined tier1Spans tier2Spans (Fin.castAdd _ i) (Fin.natAdd _ j) →
      spansOverlap (tier2Spans.get j) (tier2Spans.get j') = true →
        Joined tier1Spans tier2Spans (Fin.castAdd _ i) (Fin.natAdd _ j')

theorem group_eq_of_joined {e e' : Tier1Group tier1Spans tier2Spans}
    (he : e ∈ (groupOverlappingSpans tier1Spans tier2Spans).1)
    (he' : e' ∈ (groupOverlappingSpans tier1Spans tier2Spans).1)
    (h : Joined tier1Spans tier2Spans (Fin.castAdd _ e.2.1) (Fin.castAdd _ e'.2.1)) : e = e' := by
  refine List.inj_on_of_nodup_map nodup_tier1Roots he he' ?_
  exact (group_root he).symm.trans ((root_eq_iff.mpr h).trans (group_root he'))

theorem survivors_pairwise_iff : (survivors tier1Spans tier2Spans page).Pairwise
      (fun s s' => ¬ spansOverlap s s' = true) ↔
    ∀ e ∈ (groupOverlappingSpans tier1Spans tier2Spans).1,
      ∀ e' ∈ (groupOverlappingSpans tier1Spans tier2Spans).1, e ≠ e' →
        ¬ spansOverlap (mergedSpan tier1Spans tier2Spans page e)
          (mergedSpan tier1Spans tier2Spans page e') = true := by
  have : Std.Symm fun e e' : Tier1Group tier1Spans tier2Spans =>
        ¬ spansOverlap (mergedSpan tier1Spans tier2Spans page e)
          (mergedSpan tier1Spans tier2Spans page e') = true :=
    ⟨fun e e' h h' => h (spansOverlap_symm h')⟩
  rw [survivors, List.pairwise_map]
  refine ((List.perm_insertionSort _ _).pairwise_iff
    fun h h' => h (spansOverlap_symm h')).trans ?_
  exact ⟨fun h e he e' he' hne => List.Pairwise.forall h he he' hne,
    fun h => (nodup_tier1Groups tier1Spans tier2Spans).pairwise_of_forall_ne h⟩

/-- Chains that reach over each other have spans that overlap. -/
theorem exists_overlapping_members (hrange : ∀ s ∈ tier1Spans ++ tier2Spans, s.start ≤ s.stop)
    {x y x' y' : Node tier1Spans tier2Spans} (h : Joined tier1Spans tier2Spans x y)
    (h' : Joined tier1Spans tier2Spans x' y')
    (hpage : (spanAt tier1Spans tier2Spans x).pageNumber = (spanAt tier1Spans tier2Spans x').pageNumber)
    (hcategory : (spanAt tier1Spans tier2Spans x).category = (spanAt tier1Spans tier2Spans x').category)
    (hxy' : (spanAt tier1Spans tier2Spans x).start < (spanAt tier1Spans tier2Spans y').stop)
    (hx'y : (spanAt tier1Spans tier2Spans x').start < (spanAt tier1Spans tier2Spans y).stop) :
    ∃ u v, Joined tier1Spans tier2Spans x u ∧ Joined tier1Spans tier2Spans x' v ∧
      spansOverlap (spanAt tier1Spans tier2Spans u) (spanAt tier1Spans tier2Spans v) = true := by
  obtain ⟨u, v, hu, hv, huv⟩ := Ranges.exists_overlapping
    (fun z => (spanAt tier1Spans tier2Spans z).start)
    (fun z => (spanAt tier1Spans tier2Spans z).stop) Overlaps.ranges
    (fun z => hrange _ (spanAt_mem z)) h h' hxy' hx'y
  have hsame := Joined.same hu
  have hsame' := Joined.same hv
  refine ⟨u, v, hu, hv, spansOverlap_iff.mpr ⟨?_, ?_, huv⟩⟩
  · rw [← hsame.1, ← hsame'.1, hpage]
  · rw [← hsame.2, ← hsame'.2, hcategory]

/-- What overlaps a span of a component is in the component. -/
theorem AbsorbsOverlapping.joined (h : AbsorbsOverlapping tier1Spans tier2Spans)
    (hdisjoint : tier1Spans.Pairwise fun s s' => ¬ spansOverlap s s' = true)
    {i : Fin tier1Spans.length} {u v : Node tier1Spans tier2Spans}
    (hu : Joined tier1Spans tier2Spans (Fin.castAdd _ i) u)
    (huv : spansOverlap (spanAt tier1Spans tier2Spans u) (spanAt tier1Spans tier2Spans v) = true) :
    Joined tier1Spans tier2Spans (Fin.castAdd _ i) v := by
  induction u using Fin.addCases with
  | left k =>
    rw [spanAt_castAdd] at huv
    induction v using Fin.addCases with
    | left k' =>
      rw [spanAt_castAdd] at huv
      rcases lt_trichotomy k k' with hlt | rfl | hlt
      · exact absurd huv (List.pairwise_iff_get.mp hdisjoint k k' hlt)
      · exact hu
      · exact absurd (spansOverlap_symm huv) (List.pairwise_iff_get.mp hdisjoint k' k hlt)
    | right j =>
      rw [spanAt_natAdd] at huv
      exact hu.trans _ _ _ (.rel _ _ ⟨k, j, huv⟩)
  | right j =>
    rw [spanAt_natAdd] at huv
    induction v using Fin.addCases with
    | left k =>
      rw [spanAt_castAdd] at huv
      exact hu.trans _ _ _ (.symm _ _ (.rel _ _ ⟨k, j, spansOverlap_symm huv⟩))
    | right j' =>
      rw [spanAt_natAdd] at huv
      exact h i j j' hu huv

theorem AbsorbsOverlapping.apart (h : AbsorbsOverlapping tier1Spans tier2Spans)
    (hrange : ∀ s ∈ tier1Spans ++ tier2Spans, s.start ≤ s.stop)
    (hdisjoint : tier1Spans.Pairwise fun s s' => ¬ spansOverlap s s' = true) :
    SurvivorsApart page tier1Spans tier2Spans := by
  refine ⟨survivors_pairwise_iff.mpr fun e he e' he' hne hover => ?_, fun s hs s' hs' hover => ?_⟩
  · obtain ⟨-, ⟨x, hx, rfl⟩, hxs⟩ := (mergedSpan_hull page he).start_mem
    obtain ⟨-, ⟨y, hy, rfl⟩, hys⟩ := (mergedSpan_hull page he).stop_mem
    obtain ⟨-, ⟨x', hx', rfl⟩, hxs'⟩ := (mergedSpan_hull page he').start_mem
    obtain ⟨-, ⟨y', hy', rfl⟩, hys'⟩ := (mergedSpan_hull page he').stop_mem
    obtain ⟨hpage, hcategory, hstart, hstop⟩ := spansOverlap_iff.mp hover
    have hsame := mergedSpan_same page hx
    have hsame' := mergedSpan_same page hx'
    obtain ⟨u, v, hu, hv, huv⟩ := exists_overlapping_members hrange ((hx.symm).trans _ _ _ hy)
      ((hx'.symm).trans _ _ _ hy') (hsame.1.symm.trans (hpage.trans hsame'.1))
      (hsame.2.symm.trans (hcategory.trans hsame'.2)) (by rwa [hxs, hys']) (by rwa [hxs', hys])
    have hjoined := h.joined hdisjoint (hx.trans _ _ _ hu) huv
    exact hne (group_eq_of_joined he he' (hjoined.trans _ _ _ ((hx'.trans _ _ _ hv).symm)))
  · obtain ⟨e, he, rfl⟩ := mem_survivors.mp hs
    obtain ⟨j, rfl, hj⟩ := mem_unconsumed.mp hs'
    obtain ⟨-, ⟨x, hx, rfl⟩, hxs⟩ := (mergedSpan_hull page he).start_mem
    obtain ⟨-, ⟨y, hy, rfl⟩, hys⟩ := (mergedSpan_hull page he).stop_mem
    obtain ⟨hpage, hcategory, hstart, hstop⟩ := spansOverlap_iff.mp hover
    have hsame := mergedSpan_same page hx
    obtain ⟨u, v, hu, hv, huv⟩ := exists_overlapping_members hrange ((hx.symm).trans _ _ _ hy)
      (.refl (Fin.natAdd _ j)) (hsame.1.symm.trans (hpage.trans (by rw [spanAt_natAdd])))
      (hsame.2.symm.trans (hcategory.trans (by rw [spanAt_natAdd])))
      (by rwa [hxs, spanAt_natAdd]) (by rwa [hys, spanAt_natAdd])
    have hjoined := h.joined hdisjoint (hx.trans _ _ _ hu) huv
    exact hj e.2.1 (hjoined.trans _ _ _ hv.symm)

theorem SurvivorsApart.absorbs (h : SurvivorsApart page tier1Spans tier2Spans) :
    AbsorbsOverlapping tier1Spans tier2Spans := by
  intro i j j' hij hover
  by_contra hij'
  obtain ⟨e, he, hei⟩ := exists_group tier2Spans i
  have hj := hei.trans _ _ _ hij
  obtain ⟨hpage, hcategory, hstart, hstop⟩ := spansOverlap_iff.mp hover
  have hull := mergedSpan_hull page he
  have hsame := mergedSpan_same page hj
  have hlo := hull.start_le _ ⟨_, hj, rfl⟩
  have hhi := hull.le_stop _ ⟨_, hj, rfl⟩
  rw [spanAt_natAdd] at hsame hlo hhi
  rcases grouped_or_unconsumed (Fin.natAdd tier1Spans.length j') with ⟨e', he', hj'⟩ | hj'
  · have hull' := mergedSpan_hull page he'
    have hsame' := mergedSpan_same page hj'
    have hlo' := hull'.start_le _ ⟨_, hj', rfl⟩
    have hhi' := hull'.le_stop _ ⟨_, hj', rfl⟩
    rw [spanAt_natAdd] at hsame' hlo' hhi'
    refine survivors_pairwise_iff.mp h.1 e he e' he' ?_ (spansOverlap_iff.mpr
      ⟨hsame.1.trans (hpage.trans hsame'.1.symm), hsame.2.trans (hcategory.trans hsame'.2.symm),
        by omega, by omega⟩)
    rintro rfl
    exact hij' ((hei.symm).trans _ _ _ hj')
  · rw [spanAt_natAdd] at hj'
    exact h.2 _ (mem_survivors.mpr ⟨e, he, rfl⟩) _ hj' (spansOverlap_iff.mpr
      ⟨hsame.1.trans hpage, hsame.2.trans hcategory, by omega, by omega⟩)

/-- **When the survivors are free of duplicates.**  With Tier-1 spans that are pairwise
disjoint, no survivor overlaps another span of the output exactly when each Tier-2
span that overlaps an absorbed one is absorbed with it. -/
theorem survivorsApart_iff (page : PageModel) (tier1Spans tier2Spans : List CandidateSpan)
    (hrange : ∀ s ∈ tier1Spans ++ tier2Spans, s.start ≤ s.stop)
    (hdisjoint : tier1Spans.Pairwise fun s s' => ¬ spansOverlap s s' = true) :
    SurvivorsApart page tier1Spans tier2Spans ↔ AbsorbsOverlapping tier1Spans tier2Spans :=
  ⟨SurvivorsApart.absorbs, fun h => h.apart hrange hdisjoint⟩

/-- A name absorbed by two regex hits, and one apart from them. -/
theorem survivorsApart_two_hits :
    AbsorbsOverlapping [nameOn tenLetters .tier1 0 3, nameOn tenLetters .tier1 6 7]
      [nameOn tenLetters .tier2 2 7, nameOn tenLetters .tier2 8 10] :=
  (survivorsApart_iff tenLetters _ _ (by decide) (by decide)).mp (by decide +kernel)

/-- The hit `[0, 3)` absorbs the name `[2, 6)` but not the name `[5, 9)`, which overlaps
the survivor `[0, 6)`. -/
theorem survivor_overlaps_name :
    [nameOn tenLetters .tier1 0 3].Pairwise (fun s s' => ¬ spansOverlap s s' = true) ∧
      ¬ SurvivorsApart tenLetters [nameOn tenLetters .tier1 0 3]
        [nameOn tenLetters .tier2 2 6, nameOn tenLetters .tier2 5 9] := by
  refine ⟨by decide, ?_⟩
  decide +kernel

end RedactApi
