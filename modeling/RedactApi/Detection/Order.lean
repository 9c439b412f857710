import Mathlib.Logic.Equiv.Fin.Basic
import RedactApi.Detection.Dedupe
import RedactApi.Detection.Tier1
import RedactApi.KeyedList

/-!
# The merge does not depend on the order of the candidates

Permuting the two lists renumbers the nodes of the overlap forest.  The roots may
change, and with them the keys of both dictionaries and the primary span of a group,
but not the components.  A survivor is determined by its component: the range is that
of the component, text and boxes are those of the range, and the primary span adds
only what all Tier-1 spans of its category share.

* `Renumbering.joined_iff`: a renumbering keeps the components.
* `Renumbering.mergedSpan_eq`: the survivor of a component is the same span.
* `firsts_eq`: the survivors stand in the order of the first Tier-1 indices.
-/

namespace RedactApi

open Grouping

/-! ### What the Tier-1 detectors guarantee -/

/-- Stamped by Tier 1, with one confidence for each category. -/
structure Tier1Stamped (spans : List CandidateSpan) : Prop where
  sourceTier : ∀ s ∈ spans, s.sourceTier = .tier1
  confidence : ∀ s ∈ spans, ∀ s' ∈ spans, s.category = s'.category → s.confidence = s'.confidence

theorem Tier1Stamped.of_perm {spans spans' : List CandidateSpan} (h : Tier1Stamped spans)
    (hperm : spans.Perm spans') : Tier1Stamped spans' where
  sourceTier s hs := h.sourceTier s (hperm.mem_iff.mpr hs)
  confidence s hs s' hs' := h.confidence s (hperm.mem_iff.mpr hs) s' (hperm.mem_iff.mpr hs')

/-! ### Renumberings -/

def permutedIndices {α : Type} [DecidableEq α] {l l' : List α} (h : l.Perm l') :
    Fin l.length ≃ Fin l'.length where
  toFun := h.idxBij
  invFun := h.symm.idxBij
  left_inv _ := h.idxBij_symm_idxBij
  right_inv _ := h.idxBij_idxBij_symm

theorem get_permutedIndices {α : Type} [DecidableEq α] {l l' : List α} (h : l.Perm l')
    (i : Fin l.length) : l'.get (permutedIndices h i) = l.get i :=
  h.getElem_idxBij_eq_getElem i

theorem perm_map_of_bijOn {α β γ : Type} {l : List α} {l' : List β} {f : α → γ} {g : β → γ}
    (φ : α → β) (hl : l.Nodup) (hl' : l'.Nodup) (hmaps : ∀ a ∈ l, φ a ∈ l')
    (hinj : ∀ a ∈ l, ∀ a' ∈ l, φ a = φ a' → a = a') (hsurj : ∀ b ∈ l', ∃ a ∈ l, φ a = b)
    (hfg : ∀ a ∈ l, f a = g (φ a)) : (l.map f).Perm (l'.map g) := by
  have himage : (l.map φ).Perm l' := by
    refine (List.perm_ext_iff_of_nodup (hl.map_on hinj) hl').mpr fun b => ?_
    rw [List.mem_map]
    exact ⟨fun ⟨a, ha, hb⟩ => hb ▸ hmaps a ha, hsurj b⟩
  have hcomp : l.map f = (l.map φ).map g := by
    rw [List.map_map]
    exact List.map_congr_left hfg
  rw [hcomp]
  exact himage.map g

/-- The two lists with their spans at other indices. -/
structure Renumbering (tier1Spans tier2Spans tier1Spans' tier2Spans' : List CandidateSpan) where
  tier1 : Fin tier1Spans.length ≃ Fin tier1Spans'.length
  tier2 : Fin tier2Spans.length ≃ Fin tier2Spans'.length
  get_tier1 : ∀ i, tier1Spans'.get (tier1 i) = tier1Spans.get i
  get_tier2 : ∀ j, tier2Spans'.get (tier2 j) = tier2Spans.get j

namespace Renumbering

variable {tier1Spans tier2Spans tier1Spans' tier2Spans' : List CandidateSpan} {page : PageModel}

def ofPerm (h₁ : tier1Spans.Perm tier1Spans') (h₂ : tier2Spans.Perm tier2Spans') :
    Renumbering tier1Spans tier2Spans tier1Spans' tier2Spans' where
  tier1 := permutedIndices h₁
  tier2 := permutedIndices h₂
  get_tier1 := get_permutedIndices h₁
  get_tier2 := get_permutedIndices h₂

def ofTier2Perm (tier1Spans : List CandidateSpan) (h : tier2Spans.Perm tier2Spans') :
    Renumbering tier1Spans tier2Spans tier1Spans tier2Spans' where
  tier1 := Equiv.refl _
  tier2 := permutedIndices h
  get_tier1 _ := rfl
  get_tier2 := get_permutedIndices h

variable (ρ : Renumbering tier1Spans tier2Spans tier1Spans' tier2Spans')

def symm : Renumbering tier1Spans' tier2Spans' tier1Spans tier2Spans where
  tier1 := ρ.tier1.symm
  tier2 := ρ.tier2.symm
  get_tier1 i := by rw [← ρ.get_tier1, Equiv.apply_symm_apply]
  get_tier2 j := by rw [← ρ.get_tier2, Equiv.apply_symm_apply]

def node : Node tier1Spans tier2Spans ≃ Node tier1Spans' tier2Spans' :=
  finSumFinEquiv.symm.trans ((Equiv.sumCongr ρ.tier1 ρ.tier2).trans finSumFinEquiv)

@[simp] theorem node_castAdd (i : Fin tier1Spans.length) :
    ρ.node (Fin.castAdd _ i) = Fin.castAdd _ (ρ.tier1 i) := by
  simp [node]

@[simp] theorem node_natAdd (j : Fin tier2Spans.length) :
    ρ.node (Fin.natAdd _ j) = Fin.natAdd _ (ρ.tier2 j) := by
  simp [node]

theorem symm_node (x : Node tier1Spans tier2Spans) : ρ.symm.node (ρ.node x) = x := by
  induction x using Fin.addCases with
  | left i => simp [symm]
  | right j => simp [symm]

theorem spanAt_node (x : Node tier1Spans tier2Spans) :
    spanAt tier1Spans' tier2Spans' (ρ.node x) = spanAt tier1Spans tier2Spans x := by
  induction x using Fin.addCases with
  | left i => rw [node_castAdd, spanAt_castAdd, spanAt_castAdd, ρ.get_tier1]
  | right j => rw [node_natAdd, spanAt_natAdd, spanAt_natAdd, ρ.get_tier2]

/-! ### Components -/

theorem joined {x y : Node tier1Spans tier2Spans} (h : Joined tier1Spans tier2Spans x y) :
    Joined tier1Spans' tier2Spans' (ρ.node x) (ρ.node y) := by
  induction h with
  | rel x y h =>
    obtain ⟨i, j, hij⟩ := h
    rw [node_castAdd, node_natAdd]
    exact .rel _ _ ⟨_, _, by rwa [ρ.get_tier1, ρ.get_tier2]⟩
  | refl x => exact .refl _
  | symm x y _ ih => exact .symm _ _ ih
  | trans x y z _ _ ih ih' => exact .trans _ _ _ ih ih'

/-- **A renumbering keeps the components.** -/
theorem joined_iff {x y : Node tier1Spans tier2Spans} :
    Joined tier1Spans' tier2Spans' (ρ.node x) (ρ.node y) ↔ Joined tier1Spans tier2Spans x y := by
  refine ⟨fun h => ?_, ρ.joined⟩
  have hback := ρ.symm.joined h
  rwa [symm_node, symm_node] at hback

theorem joined_tier1 {i i' : Fin tier1Spans.length} :
    Joined tier1Spans' tier2Spans' (Fin.castAdd _ (ρ.tier1 i)) (Fin.castAdd _ (ρ.tier1 i')) ↔
      Joined tier1Spans tier2Spans (Fin.castAdd _ i) (Fin.castAdd _ i') := by
  rw [← node_castAdd, ← node_castAdd, joined_iff]

theorem component_node {x : Node tier1Spans tier2Spans} {s : CandidateSpan}
    (h : Component tier1Spans tier2Spans x s) : Component tier1Spans' tier2Spans' (ρ.node x) s := by
  obtain ⟨y, hy, rfl⟩ := h
  exact ⟨ρ.node y, ρ.joined hy, ρ.spanAt_node y⟩

end Renumbering

theorem Component.of_joined {tier1Spans tier2Spans : List CandidateSpan}
    {x x' : Node tier1Spans tier2Spans} {s : CandidateSpan}
    (hx : Joined tier1Spans tier2Spans x' x) (h : Component tier1Spans tier2Spans x s) :
    Component tier1Spans tier2Spans x' s := by
  obtain ⟨y, hy, rfl⟩ := h
  exact ⟨y, hx.trans _ _ _ hy, rfl⟩

/-! ### Survivors -/

theorem Hull.unique {spans : CandidateSpan → Prop} {s s' : CandidateSpan} (h : Hull spans s)
    (h' : Hull spans s') : s.start = s'.start ∧ s.stop = s'.stop := by
  obtain ⟨x, hx, hxs⟩ := h.start_mem
  obtain ⟨x', hx', hxs'⟩ := h'.start_mem
  obtain ⟨y, hy, hys⟩ := h.stop_mem
  obtain ⟨y', hy', hys'⟩ := h'.stop_mem
  constructor
  · exact le_antisymm (hxs' ▸ h.start_le x' hx') (hxs ▸ h'.start_le x hx)
  · exact le_antisymm (hys ▸ h'.le_stop y hy) (hys' ▸ h.le_stop y' hy')

/-- A span that is true to the page is its range, its place and its stamp. -/
theorem CandidateSpan.eq_of_fromPage {page : PageModel} {s s' : CandidateSpan}
    (h : FromPage page s) (h' : FromPage page s') (hrange : s.start = s'.start ∧ s.stop = s'.stop)
    (hplace : s.pageNumber = s'.pageNumber ∧ s.category = s'.category)
    (hstamp : s.sourceTier = s'.sourceTier ∧ s.confidence = s'.confidence) : s = s' := by
  obtain ⟨htext, hbboxes⟩ := h
  obtain ⟨htext', hbboxes'⟩ := h'
  cases s
  cases s'
  simp_all

section

variable {tier1Spans tier2Spans tier1Spans' tier2Spans' : List CandidateSpan} {page : PageModel}

theorem fromPage_mergedSpan (hpage : ∀ s ∈ tier1Spans, FromPage page s)
    (e : Tier1Group tier1Spans tier2Spans) :
    FromPage page (mergedSpan tier1Spans tier2Spans page e) :=
  (mergeGroup_primary page _ _ _).2.2 (hpage _ (List.get_mem _ _))

theorem Renumbering.component_eq (ρ : Renumbering tier1Spans tier2Spans tier1Spans' tier2Spans')
    {i : Fin tier1Spans.length} {i' : Fin tier1Spans'.length}
    (h : Joined tier1Spans' tier2Spans' (Fin.castAdd _ i') (Fin.castAdd _ (ρ.tier1 i))) :
    Component tier1Spans tier2Spans (Fin.castAdd _ i) =
      Component tier1Spans' tier2Spans' (Fin.castAdd _ i') := by
  rw [← ρ.node_castAdd] at h
  funext s
  refine propext ⟨fun hs => (ρ.component_node hs).of_joined h, fun hs => ?_⟩
  have hback := ρ.symm.component_node (hs.of_joined h.symm)
  rwa [ρ.symm_node] at hback

/-- Tier and confidence of a survivor are those of the Tier-1 spans of its category. -/
theorem mergedSpan_stamp (hstamped : Tier1Stamped tier1Spans) (page : PageModel)
    (e : Tier1Group tier1Spans tier2Spans) {s : CandidateSpan} (hs : s ∈ tier1Spans)
    (hcategory : (mergedSpan tier1Spans tier2Spans page e).category = s.category) :
    (mergedSpan tier1Spans tier2Spans page e).sourceTier = .tier1 ∧
      (mergedSpan tier1Spans tier2Spans page e).confidence = s.confidence := by
  have hprimary : tier1Spans.get e.2.1 ∈ tier1Spans := List.get_mem _ _
  obtain ⟨htier, hconfidence⟩ := mergeGroup_stamp page (tier1Spans.get e.2.1)
    (e.2.2.map tier1Spans.get)
    ((groupOf (groupOverlappingSpans tier1Spans tier2Spans).2 e.1).map tier2Spans.get)
  have hsame := (mergeGroup_primary page (tier1Spans.get e.2.1) (e.2.2.map tier1Spans.get)
    ((groupOf (groupOverlappingSpans tier1Spans tier2Spans).2 e.1).map tier2Spans.get)).2.1
  exact ⟨htier.trans (hstamped.sourceTier _ hprimary),
    hconfidence.trans (hstamped.confidence _ hprimary _ hs (hsame.symm.trans hcategory))⟩

/-- **The survivor of a component is the same span** under both numberings. -/
theorem Renumbering.mergedSpan_eq (ρ : Renumbering tier1Spans tier2Spans tier1Spans' tier2Spans')
    (hperm : tier1Spans.Perm tier1Spans') (hpage : ∀ s ∈ tier1Spans, FromPage page s)
    (hstamped : Tier1Stamped tier1Spans)
    {e : Tier1Group tier1Spans tier2Spans} {e' : Tier1Group tier1Spans' tier2Spans'}
    (he : e ∈ (groupOverlappingSpans tier1Spans tier2Spans).1)
    (he' : e' ∈ (groupOverlappingSpans tier1Spans' tier2Spans').1)
    (h : Joined tier1Spans' tier2Spans' (Fin.castAdd _ e'.2.1) (Fin.castAdd _ (ρ.tier1 e.2.1))) :
    mergedSpan tier1Spans tier2Spans page e = mergedSpan tier1Spans' tier2Spans' page e' := by
  have hull := mergedSpan_hull page he
  have hull' := mergedSpan_hull page he'
  rw [ρ.component_eq h] at hull
  have hplace := mergedSpan_same page (.refl (Fin.castAdd _ e.2.1))
  have hplace' := mergedSpan_same page h
  rw [spanAt_castAdd] at hplace hplace'
  rw [ρ.get_tier1] at hplace'
  have hmem : tier1Spans.get e.2.1 ∈ tier1Spans := List.get_mem _ _
  have hstamp := mergedSpan_stamp hstamped page e hmem hplace.2
  have hstamp' := mergedSpan_stamp (hstamped.of_perm hperm) page e' (hperm.mem_iff.mp hmem) hplace'.2
  exact CandidateSpan.eq_of_fromPage (fromPage_mergedSpan hpage e)
    (fromPage_mergedSpan (fun s hs => hpage s (hperm.mem_iff.mpr hs)) e') (hull.unique hull')
    ⟨hplace.1.trans hplace'.1.symm, hplace.2.trans hplace'.2.symm⟩
    ⟨hstamp.1.trans hstamp'.1.symm, hstamp.2.trans hstamp'.2.symm⟩

/-- **The survivors are the same**, whatever the order of the candidates. -/
theorem Renumbering.survivors_perm (ρ : Renumbering tier1Spans tier2Spans tier1Spans' tier2Spans')
    (hperm : tier1Spans.Perm tier1Spans') (hpage : ∀ s ∈ tier1Spans, FromPage page s)
    (hstamped : Tier1Stamped tier1Spans) :
    (survivors tier1Spans tier2Spans page).Perm (survivors tier1Spans' tier2Spans' page) := by
  -- each group has the group that holds the new index of its first span
  choose group hgroup hjoined using fun e : Tier1Group tier1Spans tier2Spans =>
    exists_group tier2Spans' (ρ.tier1 e.2.1)
  have hmaps : ((groupOverlappingSpans tier1Spans tier2Spans).1.map
      (mergedSpan tier1Spans tier2Spans page)).Perm
        ((groupOverlappingSpans tier1Spans' tier2Spans').1.map
          (mergedSpan tier1Spans' tier2Spans' page)) := by
    refine perm_map_of_bijOn group (nodup_tier1Groups tier1Spans tier2Spans)
      (nodup_tier1Groups tier1Spans' tier2Spans') (fun e _ => hgroup e)
      (fun e₁ he₁ e₂ he₂ heq => ?_) (fun e' he' => ?_)
      fun e he => ρ.mergedSpan_eq hperm hpage hstamped he (hgroup e) (hjoined e)
    · have hjoined₁ := hjoined e₁
      rw [heq] at hjoined₁
      exact group_eq_of_joined he₁ he₂
        (ρ.joined_tier1.mp (hjoined₁.symm.trans _ _ _ (hjoined e₂)))
    · obtain ⟨e, he, h⟩ := exists_group tier2Spans (ρ.tier1.symm e'.2.1)
      have hnew := ρ.joined_tier1.mpr h
      rw [Equiv.apply_symm_apply] at hnew
      exact ⟨e, he, group_eq_of_joined (hgroup e) he' ((hjoined e).trans _ _ _ hnew)⟩
  exact ((List.perm_insertionSort _ _).map _).trans
    (hmaps.trans ((List.perm_insertionSort _ _).map _).symm)

/-! ### The spans that pass through -/

theorem Renumbering.mem_passing (ρ : Renumbering tier1Spans tier2Spans tier1Spans' tier2Spans')
    {j : Fin tier2Spans.length} (h : j ∈ passing tier1Spans tier2Spans) :
    ρ.tier2 j ∈ passing tier1Spans' tier2Spans' := by
  rw [RedactApi.mem_passing] at h ⊢
  intro i hi
  refine h (ρ.tier1.symm i) (ρ.joined_iff.mp ?_)
  rwa [ρ.node_castAdd, ρ.node_natAdd, Equiv.apply_symm_apply]

theorem Renumbering.unconsumed_perm
    (ρ : Renumbering tier1Spans tier2Spans tier1Spans' tier2Spans') :
    (unconsumed tier1Spans tier2Spans).Perm (unconsumed tier1Spans' tier2Spans') := by
  rw [unconsumed_eq, unconsumed_eq]
  refine perm_map_of_bijOn ρ.tier2 ((List.nodup_finRange _).filter _)
    ((List.nodup_finRange _).filter _) (fun j => ρ.mem_passing)
    (fun j _ j' _ h => ρ.tier2.injective h) (fun j hj => ?_) fun j _ => (ρ.get_tier2 j).symm
  exact ⟨ρ.tier2.symm j, ρ.symm.mem_passing hj, ρ.tier2.apply_symm_apply j⟩

/-! ### The order of the survivors -/

theorem first_le {e : Tier1Group tier1Spans tier2Spans}
    (he : e ∈ (groupOverlappingSpans tier1Spans tier2Spans).1) {i : Fin tier1Spans.length}
    (h : Joined tier1Spans tier2Spans (Fin.castAdd _ e.2.1) (Fin.castAdd _ i)) : e.2.1 ≤ i := by
  have hsorted : (members e).Pairwise (· < ·) := by
    rw [members_grouped (tier1Groups_eq ▸ he)]
    exact (List.pairwise_lt_finRange _).filter _
  rcases List.mem_cons.mp ((mem_members he).mpr h) with rfl | hi
  · exact le_rfl
  · exact (List.rel_of_pairwise_cons hsorted hi).le

theorem min_members {e : Tier1Group tier1Spans tier2Spans}
    (he : e ∈ (groupOverlappingSpans tier1Spans tier2Spans).1) :
    (members e).min (members_ne_nil e) = e.2.1 :=
  le_antisymm (List.min_le_of_mem List.mem_cons_self)
    (first_le he ((mem_members he).mp (List.min_mem (members_ne_nil e))))

variable (tier1Spans tier2Spans) in
/-- The first spans of the groups stand in increasing order. -/
theorem pairwise_firsts :
    ((orderedGroups tier1Spans tier2Spans).map fun e => e.2.1).Pairwise (· < ·) := by
  have hsorted := KeyedList.pairwise_insertionSort (fun group : Tier1Group tier1Spans tier2Spans =>
    (members group).min (members_ne_nil group)) (groupOverlappingSpans tier1Spans tier2Spans).1
  have hnodup : (orderedGroups tier1Spans tier2Spans).Nodup :=
    (List.perm_insertionSort _ _).nodup_iff.mpr (nodup_tier1Groups tier1Spans tier2Spans)
  rw [List.pairwise_map]
  refine (List.Pairwise.and hsorted hnodup).imp_of_mem fun {e e'} he he' h => ?_
  obtain ⟨hle, hne⟩ := h
  rw [mem_orderedGroups] at he he'
  rw [min_members he, min_members he'] at hle
  refine lt_of_le_of_ne hle fun heq => hne (group_eq_of_joined he he' ?_)
  rw [heq]
  exact .refl _

theorem mem_firsts {i : Fin tier1Spans.length} :
    i ∈ (orderedGroups tier1Spans tier2Spans).map (fun e => e.2.1) ↔
      ∀ i', Joined tier1Spans tier2Spans (Fin.castAdd _ i) (Fin.castAdd _ i') → i ≤ i' := by
  rw [List.mem_map]
  constructor
  · rintro ⟨e, he, rfl⟩ i' h
    exact first_le (mem_orderedGroups.mp he) h
  · intro hfirst
    obtain ⟨e, he, h⟩ := exists_group tier2Spans i
    exact ⟨e, mem_orderedGroups.mpr he, le_antisymm (first_le he h) (hfirst _ h.symm)⟩

variable (tier1Spans) in
/-- Permuting the second list keeps the order of the survivors. -/
theorem firsts_eq (h : tier2Spans.Perm tier2Spans') :
    (orderedGroups tier1Spans tier2Spans).map (fun e => e.2.1) =
      (orderedGroups tier1Spans tier2Spans').map fun e => e.2.1 := by
  refine (pairwise_firsts tier1Spans tier2Spans).eq_of_mem_iff
    (pairwise_firsts tier1Spans tier2Spans') fun i => ?_
  rw [mem_firsts, mem_firsts]
  exact forall_congr' fun i' =>
    imp_congr_left (Renumbering.ofTier2Perm tier1Spans h).joined_tier1.symm

theorem survivors_eq_of_perm (h : tier2Spans.Perm tier2Spans')
    (hpage : ∀ s ∈ tier1Spans, FromPage page s) (hstamped : Tier1Stamped tier1Spans) :
    survivors tier1Spans tier2Spans page = survivors tier1Spans tier2Spans' page := by
  have hfirsts := firsts_eq tier1Spans h
  have hlength := congrArg List.length hfirsts
  rw [List.length_map, List.length_map] at hlength
  rw [survivors_eq_map, survivors_eq_map]
  refine List.ext_getElem (by rw [List.length_map, List.length_map, hlength]) fun n hn hn' => ?_
  rw [List.length_map] at hn hn'
  rw [List.getElem_map, List.getElem_map]
  have hfirst : ((orderedGroups tier1Spans tier2Spans)[n]).2.1 =
      ((orderedGroups tier1Spans tier2Spans')[n]).2.1 := by
    have hget := List.getElem_of_eq hfirsts (by rwa [List.length_map] : n < _)
    rwa [List.getElem_map, List.getElem_map] at hget
  refine (Renumbering.ofTier2Perm tier1Spans h).mergedSpan_eq (.refl _) hpage hstamped
    (mem_orderedGroups.mp (List.getElem_mem hn)) (mem_orderedGroups.mp (List.getElem_mem hn')) ?_
  rw [← hfirst]
  exact .refl _

/-- **The merge does not depend on the order of the candidates.**  Of Tier-1 spans that
are true to the page and stamped by their detectors, and of any Tier-2 spans, every
permutation of both lists has the same output up to order; permuting the Tier-2 list
alone leaves the list of survivors as it is. -/
theorem dedupe_order_independent (page : PageModel) (tier1Spans tier2Spans : List CandidateSpan)
    (hpage : ∀ s ∈ tier1Spans, FromPage page s) (hstamped : Tier1Stamped tier1Spans)
    (tier1Spans' tier2Spans' : List CandidateSpan)
    (h₁ : tier1Spans.Perm tier1Spans') (h₂ : tier2Spans.Perm tier2Spans') :
    (dedupeTier2AgainstTier1 page tier1Spans' tier2Spans').Perm
        (dedupeTier2AgainstTier1 page tier1Spans tier2Spans) ∧
      survivors tier1Spans tier2Spans' page = survivors tier1Spans tier2Spans page := by
  have ρ := Renumbering.ofPerm h₁ h₂
  exact ⟨((ρ.survivors_perm h₁ hpage hstamped).append ρ.unconsumed_perm).symm,
    (survivors_eq_of_perm h₂ hpage hstamped).symm⟩

/-- Two regex hits and two names, each list the other way round. -/
theorem dedupe_order_independent_two_hits :
    (dedupeTier2AgainstTier1 tenLetters
        [nameOn tenLetters .tier1 6 8, nameOn tenLetters .tier1 0 3]
        [nameOn tenLetters .tier2 8 10, nameOn tenLetters .tier2 2 7]).Perm
      (dedupeTier2AgainstTier1 tenLetters
        [nameOn tenLetters .tier1 0 3, nameOn tenLetters .tier1 6 8]
        [nameOn tenLetters .tier2 2 7, nameOn tenLetters .tier2 8 10]) ∧
      survivors [nameOn tenLetters .tier1 0 3, nameOn tenLetters .tier1 6 8]
          [nameOn tenLetters .tier2 8 10, nameOn tenLetters .tier2 2 7] tenLetters =
        survivors [nameOn tenLetters .tier1 0 3, nameOn tenLetters .tier1 6 8]
          [nameOn tenLetters .tier2 2 7, nameOn tenLetters .tier2 8 10] tenLetters := by
  have hits : ∀ s ∈ [nameOn tenLetters .tier1 0 3, nameOn tenLetters .tier1 6 8],
      FromPage tenLetters s ∧ s.sourceTier = .tier1 ∧ s.confidence = 1 := by
    intro s hs
    have hs : s = nameOn tenLetters .tier1 0 3 ∨ s = nameOn tenLetters .tier1 6 8 := by
      simpa using hs
    rcases hs with rfl | rfl <;> exact ⟨⟨rfl, rfl⟩, rfl, rfl⟩
  exact dedupe_order_independent tenLetters _ _ (fun s hs => (hits s hs).1)
    ⟨fun s hs => (hits s hs).2.1,
      fun s hs s' hs' _ => (hits s hs).2.2.trans (hits s' hs').2.2.symm⟩ _ _
    (.swap _ _ _) (.swap _ _ _)

end

end RedactApi
