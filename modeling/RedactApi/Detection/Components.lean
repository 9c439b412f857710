import RedactApi.Detection.Dedupe

/-!
# Groups are components

`_UnionFind` and `_group_overlapping_spans` of `detection/tier2.py`.  The overlaps run
between the two lists only, so the groups of one root are a component of a bipartite
graph.  A union hangs the Tier-2 side below the Tier-1 side, hence a Tier-2 index that is
a root is alone, and the root of a component with a Tier-1 span is one of its Tier-1
indices (`exists_root_eq_castAdd`).
-/

namespace RedactApi

open DisjointSets
open Grouping

variable {tier1Spans tier2Spans : List CandidateSpan}

theorem root_eq_self_of_natAdd {x : Node tier1Spans tier2Spans}
    (h : ¬ ∃ i, rootOf tier1Spans tier2Spans x = Fin.castAdd _ i) :
    rootOf tier1Spans tier2Spans x = x := by
  rw [rootOf, overlapForest_eq] at h ⊢
  refine root_unite_eq_self (p := fun y => ∃ i, y = Fin.castAdd tier2Spans.length i) ?_ ?_ h
  · rintro ⟨y, y'⟩ hpair
    cases mem_overlapPairs.mp hpair with
    | mk i j _ => exact ⟨i, rfl⟩
  · intro z _
    rw [root_singletons]

/-- **The root of a component with a Tier-1 span** is one of its Tier-1 indices. -/
theorem exists_root_eq_castAdd (i : Fin tier1Spans.length) :
    ∃ i', rootOf tier1Spans tier2Spans (Fin.castAdd _ i) = Fin.castAdd _ i' ∧
      Joined tier1Spans tier2Spans (Fin.castAdd _ i) (Fin.castAdd _ i') := by
  have hroot : ∃ i', rootOf tier1Spans tier2Spans (Fin.castAdd _ i) = Fin.castAdd _ i' := by
    by_contra hno
    exact hno ⟨i, root_eq_self_of_natAdd hno⟩
  obtain ⟨i', hi'⟩ := hroot
  refine ⟨i', hi', root_eq_iff.mp ?_⟩
  obtain ⟨height, hlabelled⟩ := (overlapForest tier1Spans tier2Spans).labelled_root
  rw [← hi']
  exact (hlabelled.label_root _ (hlabelled.root_label _)).symm

/-! ### The Tier-2 groups -/

variable (tier1Spans tier2Spans) in
abbrev Tier2Group :=
  Node tier1Spans tier2Spans × Fin tier2Spans.length × List (Fin tier2Spans.length)

theorem nodup_tier2Roots :
    ((groupOverlappingSpans tier1Spans tier2Spans).2.map (·.1)).Nodup := by
  rw [tier2Groups_eq]
  exact nodup_grouped _ _

/-- Under a root are the Tier-2 indices with that root, and a Tier-1 index has it too. -/
theorem mem_tier2Members {e : Tier2Group tier1Spans tier2Spans}
    (he : e ∈ (groupOverlappingSpans tier1Spans tier2Spans).2) {j : Fin tier2Spans.length} :
    j ∈ members e ↔ rootOf tier1Spans tier2Spans (Fin.natAdd _ j) = e.1 ∧
      ∃ i, rootOf tier1Spans tier2Spans (Fin.castAdd _ i) = e.1 := by
  rw [members_grouped (tier2Groups_eq ▸ he), List.mem_filter, List.mem_filter, decide_eq_true_iff,
    decide_eq_true_iff]
  constructor
  · rintro ⟨⟨-, hkept⟩, hroot⟩
    exact ⟨hroot, hroot ▸ mem_tier1Roots.mp hkept⟩
  · rintro ⟨hroot, hkept⟩
    exact ⟨⟨List.mem_finRange j, hroot ▸ mem_tier1Roots.mpr hkept⟩, hroot⟩

theorem exists_tier1Group {e : Tier2Group tier1Spans tier2Spans}
    (he : e ∈ (groupOverlappingSpans tier1Spans tier2Spans).2) :
    ∃ e' ∈ (groupOverlappingSpans tier1Spans tier2Spans).1, e'.1 = e.1 := by
  have hfirst : e.2.1 ∈ members e := List.mem_cons_self
  obtain ⟨-, hkept⟩ := (mem_tier2Members he).mp hfirst
  exact List.mem_map.mp (mem_tier1Roots.mpr hkept)

/-! ### The groups as components -/

/-- The groups of both lists by root, as the components of the overlap graph that contain
a Tier-1 span. -/
structure ComponentGroups (tier1Groups : List (Tier1Group tier1Spans tier2Spans))
    (tier2Groups : List (Tier2Group tier1Spans tier2Spans)) : Prop where
  roots : (tier1Groups.map (·.1)).Nodup ∧ (tier2Groups.map (·.1)).Nodup
  tier1_once : ∀ i, ∃! e, e ∈ tier1Groups ∧ i ∈ members e
  tier1_connected : ∀ e ∈ tier1Groups, ∀ i ∈ members e, ∀ i', i' ∈ members e ↔
    Joined tier1Spans tier2Spans (Fin.castAdd _ i) (Fin.castAdd _ i')
  tier2_once : ∀ j, (∃ i, Joined tier1Spans tier2Spans (Fin.castAdd _ i) (Fin.natAdd _ j)) →
    ∃! e, e ∈ tier2Groups ∧ j ∈ members e
  tier2_component : ∀ e ∈ tier2Groups, ∃ e' ∈ tier1Groups, e'.1 = e.1 ∧ ∀ j, j ∈ members e ↔
    ∃ i ∈ members e', Joined tier1Spans tier2Spans (Fin.castAdd _ i) (Fin.natAdd _ j)
  ordered : (∀ e ∈ tier1Groups, members e ≠ [] ∧ (members e).Pairwise (· < ·)) ∧
    ∀ e ∈ tier2Groups, members e ≠ [] ∧ (members e).Pairwise (· < ·)
  root_tier1 : ∀ e ∈ tier1Groups, ∃ i ∈ members e, e.1 = Fin.castAdd _ i

theorem mem_members_iff_root {e : Tier1Group tier1Spans tier2Spans}
    (he : e ∈ (groupOverlappingSpans tier1Spans tier2Spans).1) {i : Fin tier1Spans.length} :
    i ∈ members e ↔ rootOf tier1Spans tier2Spans (Fin.castAdd _ i) = e.1 := by
  rw [mem_members he, ← root_eq_iff, ← group_root he, eq_comm]

theorem groupOverlappingSpans_components : ComponentGroups
    (groupOverlappingSpans tier1Spans tier2Spans).1
    (groupOverlappingSpans tier1Spans tier2Spans).2 where
  roots := ⟨nodup_tier1Roots, nodup_tier2Roots⟩
  tier1_once := by
    intro i
    obtain ⟨e, he, hei⟩ := exists_group tier2Spans i
    refine ⟨e, ⟨he, (mem_members he).mpr hei⟩, ?_⟩
    rintro e' ⟨he', hi⟩
    exact group_eq_of_joined he' he (((mem_members he').mp hi).trans _ _ _ hei.symm)
  tier1_connected := by
    intro e he i hi i'
    rw [mem_members_iff_root he] at hi ⊢
    rw [← root_eq_iff, ← hi, eq_comm]
  tier2_once := by
    intro j hj
    obtain ⟨e, he, hje⟩ := List.mem_flatMap.mp ((mem_consumed j).mpr hj)
    refine ⟨e, ⟨he, hje⟩, ?_⟩
    rintro e' ⟨he', hje'⟩
    refine List.inj_on_of_nodup_map nodup_tier2Roots he' he ?_
    rw [← ((mem_tier2Members he').mp hje').1, ((mem_tier2Members he).mp hje).1]
  tier2_component := by
    intro e he
    obtain ⟨e', he', hroot⟩ := exists_tier1Group he
    refine ⟨e', he', hroot, fun j => ?_⟩
    rw [mem_tier2Members he]
    constructor
    · rintro ⟨hj, i, hi⟩
      exact ⟨i, (mem_members_iff_root he').mpr (hi.trans hroot.symm), root_eq_iff.mp (hi.trans hj.symm)⟩
    · rintro ⟨i, hi, hij⟩
      have hi' := ((mem_members_iff_root he').mp hi).trans hroot
      exact ⟨(root_eq_iff.mpr hij).symm.trans hi', i, hi'⟩
  ordered := by
    refine ⟨fun e he => ⟨members_ne_nil e, ?_⟩, fun e he => ⟨members_ne_nil e, ?_⟩⟩
    · rw [members_grouped (tier1Groups_eq ▸ he)]
      exact (List.pairwise_lt_finRange _).filter _
    · rw [members_grouped (tier2Groups_eq ▸ he)]
      exact ((List.pairwise_lt_finRange _).filter _).filter _
  root_tier1 := by
    intro e he
    obtain ⟨i, hi, hjoined⟩ := @exists_root_eq_castAdd tier1Spans tier2Spans e.2.1
    exact ⟨i, (mem_members he).mpr hjoined, (group_root he).symm.trans hi⟩

/-- **Union-find and grouping compute connected components.**  In every state that finds
and unions can reach, `find` ends and changes no root, and one root means connected by the
united pairs; the groups of any two lists are the components with a Tier-1 span. -/
theorem unionFind_and_groups :
    (∀ (size : Nat) (ops : List (Op (Fin size))) (x : Fin size),
      let unionFind := (singletons (Fin size)).performAll ops
      Climbs unionFind.parent x (unionFind.root x) (unionFind.find x).2.parent ∧
        unionFind.parent (unionFind.root x) = unionFind.root x ∧
        ∀ y, (unionFind.find x).2.root y = unionFind.root y ∧
          (unionFind.root x = unionFind.root y ↔
            Relation.EqvGen (fun a b => Op.union a b ∈ ops) x y)) ∧
      ∀ tier1Spans tier2Spans : List CandidateSpan, ComponentGroups
        (groupOverlappingSpans tier1Spans tier2Spans).1
        (groupOverlappingSpans tier1Spans tier2Spans).2 := by
  refine ⟨fun size ops x => ⟨Forest.climbs_find _ x, ?_, fun y => ⟨root_find _ x y, root_performAll⟩⟩,
    fun _ _ => groupOverlappingSpans_components⟩
  obtain ⟨height, h⟩ := ((singletons (Fin size)).performAll ops).labelled_root
  exact h.root_label x

end RedactApi
