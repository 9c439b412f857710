import Mathlib.Data.Fin.Tuple.Basic
import Mathlib.Data.List.FinRange
import Mathlib.Data.List.Sort
import RedactApi.DisjointSets
import RedactApi.External
import RedactApi.Grouping
import RedactApi.Ranges

/-!
# Merging the two tiers of detection

`detection/base.py` and the merge of `detection/tier2.py`: the spans of both tiers
are joined where a Tier-1 span and a Tier-2 span overlap, each component with a
Tier-1 span becomes one survivor, and the other Tier-2 spans pass through.
-/

namespace RedactApi

open DisjointSets (Forest)
open Grouping

/-! ### The text and the boxes of a range -/

def PageModel.slice (page : PageModel) (start stop : Nat) : String :=
  String.ofList ((page.text.toList.take stop).drop start)

/-- The boxes of the words that overlap the range, in document order. -/
def resolveSpanBboxes (page : PageModel) (start stop : Nat) : List BBox :=
  (page.words.filter fun word => word.start < stop ∧ start < word.stop).map (·.bbox)

/-! ### The merge -/

/-- Same page, same category, and the ranges overlap. -/
def spansOverlap (tier1Span tier2Span : CandidateSpan) : Bool :=
  tier1Span.pageNumber = tier2Span.pageNumber ∧ tier1Span.category = tier2Span.category ∧
    tier1Span.start < tier2Span.stop ∧ tier2Span.start < tier1Span.stop

/-- The survivor of a component: the range from the first start to the last stop.  The
Tier-1 spans of a component are never empty; `primary` is the first of them. -/
def mergeGroup (page : PageModel) (primary : CandidateSpan) (others tier2Group : List CandidateSpan) :
    CandidateSpan :=
  let allSpans := primary :: (others ++ tier2Group)
  let mergedStart := (allSpans.map (·.start)).min (List.cons_ne_nil _ _)
  let mergedStop := (allSpans.map (·.stop)).max (List.cons_ne_nil _ _)
  if mergedStart = primary.start ∧ mergedStop = primary.stop then primary
  else { primary with
    start := mergedStart
    stop := mergedStop
    bboxes := resolveSpanBboxes page mergedStart mergedStop
    text := page.slice mergedStart mergedStop }

section

variable (tier1Spans tier2Spans : List CandidateSpan)

abbrev Node := Fin (tier1Spans.length + tier2Spans.length)

/-- Unite each Tier-1 span with the Tier-2 spans it overlaps. -/
def overlapForest : Forest (Node tier1Spans tier2Spans) :=
  (List.finRange tier1Spans.length).foldl (fun unionFind tier1Index =>
    (List.finRange tier2Spans.length).foldl (fun unionFind tier2Index =>
      if spansOverlap (tier1Spans.get tier1Index) (tier2Spans.get tier2Index) then
        unionFind.union (Fin.castAdd _ tier1Index) (Fin.natAdd _ tier2Index)
      else unionFind) unionFind) (DisjointSets.singletons _)

/-- Group indices by the roots of their nodes, those roots that are kept. -/
def groupByRoot {α ι : Type} [DecidableEq α] [Fintype α] (unionFind : Forest α) (node : ι → α)
    (keep : α → Bool) (indices : List ι) : Forest α × List (α × ι × List ι) :=
  indices.foldl (fun state index =>
    let found := state.1.find (node index)
    (found.2, if keep found.1 then setdefaultAppend found.1 index state.2 else state.2))
    (unionFind, [])

/-- The members of the components, by their roots; Tier-2 groups only for components
with a Tier-1 span. -/
def groupOverlappingSpans :
    List (Node tier1Spans tier2Spans × Fin tier1Spans.length × List (Fin tier1Spans.length)) ×
      List (Node tier1Spans tier2Spans × Fin tier2Spans.length × List (Fin tier2Spans.length)) :=
  let unionFind := overlapForest tier1Spans tier2Spans
  let tier1 := groupByRoot unionFind (Fin.castAdd tier2Spans.length) (fun _ => true)
    (List.finRange tier1Spans.length)
  let tier2 := groupByRoot tier1.1 (Fin.natAdd tier1Spans.length)
    (fun root => root ∈ tier1.2.map (·.1)) (List.finRange tier2Spans.length)
  (tier1.2, tier2.2)

def groupOf {κ ι : Type} [DecidableEq κ] (groups : List (κ × ι × List ι)) (root : κ) : List ι :=
  match groups.find? (·.1 = root) with
  | some group => members group
  | none => []

def mergedSpan (page : PageModel)
    (group : Node tier1Spans tier2Spans × Fin tier1Spans.length × List (Fin tier1Spans.length)) :
    CandidateSpan :=
  mergeGroup page (tier1Spans.get group.2.1) (group.2.2.map tier1Spans.get)
    ((groupOf (groupOverlappingSpans tier1Spans tier2Spans).2 group.1).map tier2Spans.get)

/-- The Tier-1-anchored survivors, ordered by the first Tier-1 span of their component. -/
def survivors (page : PageModel) : List CandidateSpan :=
  ((groupOverlappingSpans tier1Spans tier2Spans).1.insertionSort fun group group' =>
    (members group).min (members_ne_nil group) ≤ (members group').min (members_ne_nil group')).map
      (mergedSpan tier1Spans tier2Spans page)

def unconsumed : List CandidateSpan :=
  let consumedTier2 := (groupOverlappingSpans tier1Spans tier2Spans).2.flatMap members
  ((List.finRange tier2Spans.length).filter fun index => index ∉ consumedTier2).map tier2Spans.get

end

/-- Merge overlapping Tier-2 spans into their Tier-1 counterparts. -/
def dedupeTier2AgainstTier1 (page : PageModel) (tier1Spans tier2Spans : List CandidateSpan) :
    List CandidateSpan :=
  survivors tier1Spans tier2Spans page ++ unconsumed tier1Spans tier2Spans

/-! ### Components -/

section

variable {tier1Spans tier2Spans : List CandidateSpan}

variable (tier1Spans tier2Spans) in
abbrev Tier1Group := Node tier1Spans tier2Spans × Fin tier1Spans.length × List (Fin tier1Spans.length)

variable (tier1Spans tier2Spans) in
def spanAt : Node tier1Spans tier2Spans → CandidateSpan :=
  Fin.addCases tier1Spans.get tier2Spans.get

@[simp] theorem spanAt_castAdd (i : Fin tier1Spans.length) :
    spanAt tier1Spans tier2Spans (Fin.castAdd _ i) = tier1Spans.get i := Fin.addCases_left i

@[simp] theorem spanAt_natAdd (j : Fin tier2Spans.length) :
    spanAt tier1Spans tier2Spans (Fin.natAdd _ j) = tier2Spans.get j := Fin.addCases_right j

variable (tier1Spans tier2Spans) in
inductive Overlaps : Node tier1Spans tier2Spans → Node tier1Spans tier2Spans → Prop
  | mk (i : Fin tier1Spans.length) (j : Fin tier2Spans.length) :
      spansOverlap (tier1Spans.get i) (tier2Spans.get j) = true →
      Overlaps (Fin.castAdd _ i) (Fin.natAdd _ j)

variable (tier1Spans tier2Spans) in
/-- Connected by overlaps of Tier-1 spans with Tier-2 spans. -/
def Joined : Node tier1Spans tier2Spans → Node tier1Spans tier2Spans → Prop :=
  Relation.EqvGen (Overlaps tier1Spans tier2Spans)

variable (tier1Spans tier2Spans) in
def overlapPairs : List (Node tier1Spans tier2Spans × Node tier1Spans tier2Spans) :=
  (List.finRange tier1Spans.length).flatMap fun i =>
    ((List.finRange tier2Spans.length).filter fun j =>
      spansOverlap (tier1Spans.get i) (tier2Spans.get j)).map fun j =>
        (Fin.castAdd _ i, Fin.natAdd _ j)

theorem mem_overlapPairs {x y : Node tier1Spans tier2Spans} :
    (x, y) ∈ overlapPairs tier1Spans tier2Spans ↔ Overlaps tier1Spans tier2Spans x y := by
  rw [overlapPairs, List.mem_flatMap]
  constructor
  · rintro ⟨i, -, h⟩
    obtain ⟨j, hj, he⟩ := List.mem_map.mp h
    obtain ⟨rfl, rfl⟩ := Prod.mk.inj he
    exact ⟨i, j, (List.mem_filter.mp hj).2⟩
  · rintro ⟨i, j, h⟩
    exact ⟨i, List.mem_finRange i,
      List.mem_map_of_mem (List.mem_filter.mpr ⟨List.mem_finRange j, h⟩)⟩

theorem overlapForest_eq : overlapForest tier1Spans tier2Spans =
    (DisjointSets.singletons _).unite (overlapPairs tier1Spans tier2Spans) := by
  rw [overlapForest, Forest.unite, overlapPairs, List.foldl_flatMap]
  simp only [List.foldl_map, List.foldl_filter]

/-- **The components of the union-find** are the joined spans. -/
theorem root_eq_iff {x y : Node tier1Spans tier2Spans} :
    (overlapForest tier1Spans tier2Spans).root x = (overlapForest tier1Spans tier2Spans).root y ↔
      Joined tier1Spans tier2Spans x y := by
  rw [overlapForest_eq, DisjointSets.root_unite]
  simp only [mem_overlapPairs]
  rfl

/-- Finding changes no root, so the groups are those of the roots. -/
theorem groupByRoot_eq {α ι : Type} [DecidableEq α] [Fintype α] (unionFind : Forest α) (node : ι → α)
    (keep : α → Bool) (indices : List ι) :
    (groupByRoot unionFind node keep indices).1.root = unionFind.root ∧
      (groupByRoot unionFind node keep indices).2 =
        grouped (fun i => unionFind.root (node i))
          (indices.filter fun i => keep (unionFind.root (node i))) := by
  induction indices using List.reverseRecOn with
  | nil => exact ⟨rfl, rfl⟩
  | append_singleton indices i ih =>
    obtain ⟨hroot, hgroups⟩ := ih
    have hfound : ((groupByRoot unionFind node keep indices).1.find (node i)).1 =
        unionFind.root (node i) := congrFun hroot (node i)
    rw [groupByRoot, List.foldl_append, List.foldl_cons, List.foldl_nil]
    change ((groupByRoot unionFind node keep indices).1.find (node i)).2.root = _ ∧
      (if keep ((groupByRoot unionFind node keep indices).1.find (node i)).1 then
        setdefaultAppend ((groupByRoot unionFind node keep indices).1.find (node i)).1 i
          (groupByRoot unionFind node keep indices).2
      else (groupByRoot unionFind node keep indices).2) = _
    refine ⟨funext fun y => (DisjointSets.root_find _ _ y).trans (congrFun hroot y), ?_⟩
    rw [hfound, hgroups, List.filter_append, List.filter_singleton]
    by_cases hkeep : keep (unionFind.root (node i)) = true
    · rw [if_pos hkeep, hkeep, cond_true, grouped_concat]
    · have hdrop : keep (unionFind.root (node i)) = false := by simpa using hkeep
      rw [if_neg hkeep, hdrop, cond_false, List.append_nil]

variable (tier1Spans tier2Spans) in
abbrev rootOf (x : Node tier1Spans tier2Spans) : Node tier1Spans tier2Spans :=
  (overlapForest tier1Spans tier2Spans).root x

theorem tier1Groups_eq : (groupOverlappingSpans tier1Spans tier2Spans).1 =
    grouped (fun i => rootOf tier1Spans tier2Spans (Fin.castAdd _ i))
      (List.finRange tier1Spans.length) := by
  rw [groupOverlappingSpans, (groupByRoot_eq _ _ _ _).2, List.filter_true]

theorem mem_tier1Roots {x : Node tier1Spans tier2Spans} :
    x ∈ (groupOverlappingSpans tier1Spans tier2Spans).1.map (·.1) ↔
      ∃ i, rootOf tier1Spans tier2Spans (Fin.castAdd _ i) = x := by
  rw [tier1Groups_eq, mem_keys_grouped]
  simp

theorem tier2Groups_eq : (groupOverlappingSpans tier1Spans tier2Spans).2 =
    grouped (fun j => rootOf tier1Spans tier2Spans (Fin.natAdd _ j))
      ((List.finRange tier2Spans.length).filter fun j =>
        rootOf tier1Spans tier2Spans (Fin.natAdd _ j) ∈
          (groupOverlappingSpans tier1Spans tier2Spans).1.map (·.1)) := by
  rw [groupOverlappingSpans, (groupByRoot_eq _ _ _ _).2, (groupByRoot_eq _ _ _ _).1]

theorem groupOf_grouped {κ ι : Type} [DecidableEq κ] (f : ι → κ) (items : List ι) (k : κ) :
    groupOf (grouped f items) k = items.filter (f · = k) := by
  rw [groupOf]
  cases hfind : (grouped f items).find? (·.1 = k) with
  | some e =>
    have hk : e.1 = k := by simpa using List.find?_some hfind
    rw [← hk]
    exact members_grouped (List.mem_of_find?_eq_some hfind)
  | none =>
    refine (List.filter_eq_nil_iff.mpr fun v hv hfv => ?_).symm
    obtain ⟨e, he, hk⟩ := List.mem_map.mp ((mem_keys_grouped f items k).mpr
      ⟨v, hv, of_decide_eq_true hfv⟩)
    exact absurd hk (by simpa using List.find?_eq_none.mp hfind e he)

/-- The Tier-2 group of a component with a Tier-1 span is its Tier-2 spans. -/
theorem groupOf_tier2 {x : Node tier1Spans tier2Spans}
    (hx : ∃ i, rootOf tier1Spans tier2Spans (Fin.castAdd _ i) = x) :
    groupOf (groupOverlappingSpans tier1Spans tier2Spans).2 x =
      (List.finRange tier2Spans.length).filter
        fun j => rootOf tier1Spans tier2Spans (Fin.natAdd _ j) = x := by
  rw [tier2Groups_eq, groupOf_grouped, List.filter_filter]
  refine List.filter_congr fun j _ => ?_
  by_cases hj : rootOf tier1Spans tier2Spans (Fin.natAdd _ j) = x
  · rw [hj, decide_eq_true (mem_tier1Roots.mpr hx), Bool.and_true]
  · rw [decide_eq_false hj, Bool.false_and]

theorem mem_consumed (j : Fin tier2Spans.length) :
    j ∈ (groupOverlappingSpans tier1Spans tier2Spans).2.flatMap members ↔
      ∃ i, Joined tier1Spans tier2Spans (Fin.castAdd _ i) (Fin.natAdd _ j) := by
  simp only [← root_eq_iff]
  rw [List.mem_flatMap]
  constructor
  · rintro ⟨e, he, hj⟩
    rw [tier2Groups_eq] at he
    rw [members_grouped he, List.mem_filter] at hj
    exact mem_tier1Roots.mp (of_decide_eq_true (List.mem_filter.mp hj.1).2)
  · intro hi
    have hkept : j ∈ (List.finRange tier2Spans.length).filter fun j =>
        rootOf tier1Spans tier2Spans (Fin.natAdd _ j) ∈
          (groupOverlappingSpans tier1Spans tier2Spans).1.map (·.1) :=
      List.mem_filter.mpr ⟨List.mem_finRange j, decide_eq_true (mem_tier1Roots.mpr hi)⟩
    obtain ⟨e, he, hk⟩ := List.mem_map.mp ((mem_keys_grouped
      (fun j => rootOf tier1Spans tier2Spans (Fin.natAdd _ j)) _ _).mpr ⟨j, hkept, rfl⟩)
    rw [tier2Groups_eq]
    refine ⟨e, he, ?_⟩
    rw [members_grouped he]
    exact List.mem_filter.mpr ⟨hkept, decide_eq_true hk.symm⟩

variable (tier1Spans tier2Spans) in
def passing : List (Fin tier2Spans.length) :=
  (List.finRange tier2Spans.length).filter fun index =>
    index ∉ (groupOverlappingSpans tier1Spans tier2Spans).2.flatMap members

/-- A Tier-2 span is consumed when a Tier-1 span is joined to it. -/
theorem mem_passing {j : Fin tier2Spans.length} : j ∈ passing tier1Spans tier2Spans ↔
    ∀ i, ¬ Joined tier1Spans tier2Spans (Fin.castAdd _ i) (Fin.natAdd _ j) := by
  rw [passing, List.mem_filter, decide_eq_true_iff, mem_consumed, not_exists]
  exact and_iff_right (List.mem_finRange j)

theorem unconsumed_eq :
    unconsumed tier1Spans tier2Spans = (passing tier1Spans tier2Spans).map tier2Spans.get := rfl

theorem mem_unconsumed {b : CandidateSpan} : b ∈ unconsumed tier1Spans tier2Spans ↔
    ∃ j, tier2Spans.get j = b ∧
      ∀ i, ¬ Joined tier1Spans tier2Spans (Fin.castAdd _ i) (Fin.natAdd _ j) := by
  rw [unconsumed_eq, List.mem_map]
  simp only [mem_passing, and_comm]

/-! ### Survivors -/

/-- The range of `s` goes from the first start to the last stop of some spans. -/
structure Hull (spans : CandidateSpan → Prop) (s : CandidateSpan) : Prop where
  start_le : ∀ x, spans x → s.start ≤ x.start
  start_mem : ∃ x, spans x ∧ x.start = s.start
  le_stop : ∀ x, spans x → x.stop ≤ s.stop
  stop_mem : ∃ x, spans x ∧ x.stop = s.stop

/-- Text and boxes are those of the range. -/
structure FromPage (page : PageModel) (s : CandidateSpan) : Prop where
  text : s.text = page.slice s.start s.stop
  bboxes : s.bboxes = resolveSpanBboxes page s.start s.stop

theorem mergeGroup_hull (page : PageModel) (primary : CandidateSpan)
    (others tier2Group : List CandidateSpan) :
    Hull (· ∈ primary :: (others ++ tier2Group)) (mergeGroup page primary others tier2Group) := by
  have hstart : (mergeGroup page primary others tier2Group).start =
      ((primary :: (others ++ tier2Group)).map (·.start)).min (List.cons_ne_nil _ _) := by
    rw [mergeGroup]
    split
    · rename_i h
      exact h.1.symm
    · rfl
  have hstop : (mergeGroup page primary others tier2Group).stop =
      ((primary :: (others ++ tier2Group)).map (·.stop)).max (List.cons_ne_nil _ _) := by
    rw [mergeGroup]
    split
    · rename_i h
      exact h.2.symm
    · rfl
  refine ⟨fun x hx => ?_, ?_, fun x hx => ?_, ?_⟩
  · rw [hstart]
    exact List.min_le_of_mem (List.mem_map_of_mem hx)
  · rw [hstart]
    exact List.mem_map.mp (List.min_mem _)
  · rw [hstop]
    exact List.le_max_of_mem (List.mem_map_of_mem hx)
  · rw [hstop]
    exact List.mem_map.mp (List.max_mem _)

theorem mergeGroup_primary (page : PageModel) (primary : CandidateSpan)
    (others tier2Group : List CandidateSpan) :
    (mergeGroup page primary others tier2Group).pageNumber = primary.pageNumber ∧
      (mergeGroup page primary others tier2Group).category = primary.category ∧
      (FromPage page primary → FromPage page (mergeGroup page primary others tier2Group)) := by
  rw [mergeGroup]
  split
  · exact ⟨rfl, rfl, id⟩
  · exact ⟨rfl, rfl, fun _ => ⟨rfl, rfl⟩⟩

/-- Tier 1 wins: tier and confidence are those of the primary span. -/
theorem mergeGroup_stamp (page : PageModel) (primary : CandidateSpan)
    (others tier2Group : List CandidateSpan) :
    (mergeGroup page primary others tier2Group).sourceTier = primary.sourceTier ∧
      (mergeGroup page primary others tier2Group).confidence = primary.confidence := by
  rw [mergeGroup]
  split <;> exact ⟨rfl, rfl⟩

variable (tier1Spans tier2Spans) in
def Component (x : Node tier1Spans tier2Spans) (s : CandidateSpan) : Prop :=
  ∃ y, Joined tier1Spans tier2Spans x y ∧ spanAt tier1Spans tier2Spans y = s

theorem group_root {e : Tier1Group tier1Spans tier2Spans}
    (he : e ∈ (groupOverlappingSpans tier1Spans tier2Spans).1) :
    rootOf tier1Spans tier2Spans (Fin.castAdd _ e.2.1) = e.1 := by
  have hfirst : e.2.1 ∈ members e := List.mem_cons_self
  rw [members_grouped (tier1Groups_eq ▸ he)] at hfirst
  exact of_decide_eq_true (List.mem_filter.mp hfirst).2

theorem nodup_tier1Roots : ((groupOverlappingSpans tier1Spans tier2Spans).1.map (·.1)).Nodup := by
  rw [tier1Groups_eq]
  exact nodup_grouped _ _

variable (tier1Spans tier2Spans) in
theorem nodup_tier1Groups : (groupOverlappingSpans tier1Spans tier2Spans).1.Nodup :=
  nodup_tier1Roots.of_map _

theorem mem_members {e : Tier1Group tier1Spans tier2Spans}
    (he : e ∈ (groupOverlappingSpans tier1Spans tier2Spans).1) {i : Fin tier1Spans.length} :
    i ∈ members e ↔ Joined tier1Spans tier2Spans (Fin.castAdd _ e.2.1) (Fin.castAdd _ i) := by
  have hroot : (overlapForest tier1Spans tier2Spans).root (Fin.castAdd _ e.2.1) = e.1 := group_root he
  rw [members_grouped (tier1Groups_eq ▸ he), List.mem_filter, decide_eq_true_iff, ← root_eq_iff,
    hroot, eq_comm]
  exact and_iff_right (List.mem_finRange i)

theorem mem_tier2Group {e : Tier1Group tier1Spans tier2Spans}
    (he : e ∈ (groupOverlappingSpans tier1Spans tier2Spans).1) {j : Fin tier2Spans.length} :
    j ∈ groupOf (groupOverlappingSpans tier1Spans tier2Spans).2 e.1 ↔
      Joined tier1Spans tier2Spans (Fin.castAdd _ e.2.1) (Fin.natAdd _ j) := by
  have hroot : (overlapForest tier1Spans tier2Spans).root (Fin.castAdd _ e.2.1) = e.1 := group_root he
  rw [groupOf_tier2 ⟨_, hroot⟩, List.mem_filter, decide_eq_true_iff, ← root_eq_iff, hroot, eq_comm]
  exact and_iff_right (List.mem_finRange j)

theorem mem_merged {e : Tier1Group tier1Spans tier2Spans}
    (he : e ∈ (groupOverlappingSpans tier1Spans tier2Spans).1) (s : CandidateSpan) :
    s ∈ tier1Spans.get e.2.1 :: (e.2.2.map tier1Spans.get ++
        (groupOf (groupOverlappingSpans tier1Spans tier2Spans).2 e.1).map tier2Spans.get) ↔
      Component tier1Spans tier2Spans (Fin.castAdd _ e.2.1) s := by
  rw [← List.cons_append, ← List.map_cons, List.mem_append, List.mem_map, List.mem_map]
  change ((∃ i ∈ members e, _) ∨ _) ↔ _
  simp only [mem_members he, mem_tier2Group he]
  constructor
  · rintro (⟨i, hi, rfl⟩ | ⟨j, hj, rfl⟩)
    · exact ⟨_, hi, spanAt_castAdd i⟩
    · exact ⟨_, hj, spanAt_natAdd j⟩
  · rintro ⟨y, hy, rfl⟩
    induction y using Fin.addCases with
    | left i => exact Or.inl ⟨i, hy, (spanAt_castAdd i).symm⟩
    | right j => exact Or.inr ⟨j, hy, (spanAt_natAdd j).symm⟩

theorem mergedSpan_hull (page : PageModel) {e : Tier1Group tier1Spans tier2Spans}
    (he : e ∈ (groupOverlappingSpans tier1Spans tier2Spans).1) :
    Hull (Component tier1Spans tier2Spans (Fin.castAdd _ e.2.1))
      (mergedSpan tier1Spans tier2Spans page e) := by
  have h := mergeGroup_hull page (tier1Spans.get e.2.1) (e.2.2.map tier1Spans.get)
    ((groupOf (groupOverlappingSpans tier1Spans tier2Spans).2 e.1).map tier2Spans.get)
  rwa [funext fun s => propext (mem_merged he s)] at h

variable (tier1Spans tier2Spans) in
def orderedGroups : List (Tier1Group tier1Spans tier2Spans) :=
  (groupOverlappingSpans tier1Spans tier2Spans).1.insertionSort fun group group' =>
    (members group).min (members_ne_nil group) ≤ (members group').min (members_ne_nil group')

theorem mem_orderedGroups {e : Tier1Group tier1Spans tier2Spans} :
    e ∈ orderedGroups tier1Spans tier2Spans ↔ e ∈ (groupOverlappingSpans tier1Spans tier2Spans).1 :=
  List.mem_insertionSort _

theorem survivors_eq_map (page : PageModel) : survivors tier1Spans tier2Spans page =
    (orderedGroups tier1Spans tier2Spans).map (mergedSpan tier1Spans tier2Spans page) := rfl

theorem mem_survivors {page : PageModel} {s : CandidateSpan} :
    s ∈ survivors tier1Spans tier2Spans page ↔
      ∃ e ∈ (groupOverlappingSpans tier1Spans tier2Spans).1,
        mergedSpan tier1Spans tier2Spans page e = s := by
  rw [survivors_eq_map, List.mem_map]
  simp only [mem_orderedGroups]

variable (tier2Spans) in
theorem exists_group (i : Fin tier1Spans.length) :
    ∃ e ∈ (groupOverlappingSpans tier1Spans tier2Spans).1,
      Joined tier1Spans tier2Spans (Fin.castAdd _ e.2.1) (Fin.castAdd _ i) := by
  obtain ⟨e, he, hk⟩ := List.mem_map.mp (mem_tier1Roots.mpr ⟨i, rfl⟩)
  exact ⟨e, he, root_eq_iff.mp ((group_root he).trans hk)⟩

/-! ### Joined spans -/

theorem spansOverlap_iff {s t : CandidateSpan} : spansOverlap s t = true ↔
    s.pageNumber = t.pageNumber ∧ s.category = t.category ∧ s.start < t.stop ∧ t.start < s.stop := by
  rw [spansOverlap, decide_eq_true_iff]

theorem spansOverlap_symm {s t : CandidateSpan} (h : spansOverlap s t = true) :
    spansOverlap t s = true := by
  obtain ⟨hp, hc, hst, hts⟩ := spansOverlap_iff.mp h
  exact spansOverlap_iff.mpr ⟨hp.symm, hc.symm, hts, hst⟩

theorem Overlaps.spansOverlap {x y : Node tier1Spans tier2Spans}
    (h : Overlaps tier1Spans tier2Spans x y) :
    spansOverlap (spanAt tier1Spans tier2Spans x) (spanAt tier1Spans tier2Spans y) = true := by
  cases h with
  | mk i j h => rwa [spanAt_castAdd, spanAt_natAdd]

theorem Overlaps.ranges (x y : Node tier1Spans tier2Spans) (h : Overlaps tier1Spans tier2Spans x y) :
    (spanAt tier1Spans tier2Spans x).start < (spanAt tier1Spans tier2Spans y).stop ∧
      (spanAt tier1Spans tier2Spans y).start < (spanAt tier1Spans tier2Spans x).stop :=
  (spansOverlap_iff.mp h.spansOverlap).2.2

theorem Joined.same {x y : Node tier1Spans tier2Spans} (h : Joined tier1Spans tier2Spans x y) :
    (spanAt tier1Spans tier2Spans x).pageNumber = (spanAt tier1Spans tier2Spans y).pageNumber ∧
      (spanAt tier1Spans tier2Spans x).category = (spanAt tier1Spans tier2Spans y).category := by
  induction h with
  | rel x y h =>
    obtain ⟨hp, hc, -⟩ := spansOverlap_iff.mp h.spansOverlap
    exact ⟨hp, hc⟩
  | refl x => exact ⟨rfl, rfl⟩
  | symm x y _ ih => exact ⟨ih.1.symm, ih.2.symm⟩
  | trans x y z _ _ ih ih' => exact ⟨ih.1.trans ih'.1, ih.2.trans ih'.2⟩

theorem mergedSpan_same (page : PageModel) {e : Tier1Group tier1Spans tier2Spans}
    {y : Node tier1Spans tier2Spans} (hy : Joined tier1Spans tier2Spans (Fin.castAdd _ e.2.1) y) :
    (mergedSpan tier1Spans tier2Spans page e).pageNumber = (spanAt tier1Spans tier2Spans y).pageNumber ∧
      (mergedSpan tier1Spans tier2Spans page e).category =
        (spanAt tier1Spans tier2Spans y).category := by
  obtain ⟨hp, hc, -⟩ := mergeGroup_primary page (tier1Spans.get e.2.1) (e.2.2.map tier1Spans.get)
    ((groupOf (groupOverlappingSpans tier1Spans tier2Spans).2 e.1).map tier2Spans.get)
  have hsame := hy.same
  rw [spanAt_castAdd] at hsame
  exact ⟨hp.trans hsame.1, hc.trans hsame.2⟩

/-- **The range of a survivor is the union of the ranges it merges.** -/
theorem mergedSpan_range (page : PageModel) {e : Tier1Group tier1Spans tier2Spans}
    (he : e ∈ (groupOverlappingSpans tier1Spans tier2Spans).1) (c : Nat) :
    (mergedSpan tier1Spans tier2Spans page e).start ≤ c ∧
        c < (mergedSpan tier1Spans tier2Spans page e).stop ↔
      ∃ y, Joined tier1Spans tier2Spans (Fin.castAdd _ e.2.1) y ∧
        (spanAt tier1Spans tier2Spans y).start ≤ c ∧ c < (spanAt tier1Spans tier2Spans y).stop := by
  have hull := mergedSpan_hull page he
  constructor
  · rintro ⟨hstart, hstop⟩
    obtain ⟨-, ⟨x, hx, rfl⟩, hxs⟩ := hull.start_mem
    obtain ⟨-, ⟨y, hy, rfl⟩, hys⟩ := hull.stop_mem
    rw [← hxs] at hstart
    rw [← hys] at hstop
    obtain ⟨z, hz, hzc⟩ := Ranges.exists_covering
      (fun z => (spanAt tier1Spans tier2Spans z).start)
      (fun z => (spanAt tier1Spans tier2Spans z).stop) Overlaps.ranges
      ((hx.symm).trans _ _ _ hy) hstart hstop
    exact ⟨z, hx.trans _ _ _ hz, hzc⟩
  · rintro ⟨y, hy, hstart, hstop⟩
    exact ⟨(hull.start_le _ ⟨y, hy, rfl⟩).trans hstart, hstop.trans_le (hull.le_stop _ ⟨y, hy, rfl⟩)⟩

end

end RedactApi
