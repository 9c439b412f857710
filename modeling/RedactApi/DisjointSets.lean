import Mathlib.Data.Fintype.Card
import Mathlib.Logic.Relation

/-!
# Disjoint sets

A forest of parent pointers on a finite type: `find` climbs to the root and halves
the path it climbs, `union` hangs one root below another.

A labelling says which root every element belongs to.  It is constant along parent
pointers and names each root itself, so `find` returns the label; halving a path
keeps the labelling, and a union changes it in one class.  After all pairs of a list
have been united, two elements have the same root exactly when the pairs connect
them (`root_unite`), whatever is looked up in between (`root_performAll`).
-/

namespace DisjointSets

/-- Parent pointers with a labelling by roots; heights grow towards the roots. -/
structure Labelled {α : Type} (parent label : α → α) (height : α → Nat) : Prop where
  label_parent : ∀ x, label (parent x) = label x
  label_root : ∀ x, parent x = x → label x = x
  root_label : ∀ x, parent (label x) = label x
  climbs : ∀ x, parent x ≠ x → height x < height (parent x)

structure Forest (α : Type) where
  parent : α → α
  labelled : ∃ label height, Labelled parent label height

variable {α : Type} [DecidableEq α]

def singletons (α : Type) : Forest α where
  parent := id
  labelled := ⟨id, fun _ => 0, fun _ => rfl, fun _ h => h, fun _ => rfl, fun _ h => absurd rfl h⟩

/-! ### Climbing -/

def halve (parent : α → α) (x : α) : α → α := Function.update parent x (parent (parent x))

/-- Climb to the root, halving the path. -/
def climb : Nat → (α → α) → α → α × (α → α)
  | 0, parent, x => (x, parent)
  | fuel + 1, parent, x =>
    if parent x = x then (x, parent)
    else climb fuel (halve parent x) (parent (parent x))

variable {parent label : α → α} {height : α → Nat}

omit [DecidableEq α] in
theorem Labelled.height_grandparent (h : Labelled parent label height) {x : α}
    (hx : parent x ≠ x) : height x < height (parent (parent x)) := by
  have hup := h.climbs x hx
  by_cases hp : parent (parent x) = parent x
  · rwa [hp]
  · exact hup.trans (h.climbs (parent x) hp)

/-- **Halving keeps the labelling.** -/
theorem Labelled.halve (h : Labelled parent label height) {x : α} (hx : parent x ≠ x) :
    Labelled (halve parent x) label height := by
  have hgrand := h.height_grandparent hx
  have hself : DisjointSets.halve parent x x = parent (parent x) := Function.update_self _ _ _
  have hother : ∀ y, y ≠ x → DisjointSets.halve parent x y = parent y :=
    fun y hy => Function.update_of_ne hy _ _
  refine ⟨fun y => ?_, fun y hy => ?_, fun y => ?_, fun y hy => ?_⟩
  · by_cases hyx : y = x
    · rw [hyx, hself, h.label_parent, h.label_parent]
    · rw [hother y hyx, h.label_parent]
  · by_cases hyx : y = x
    · rw [hyx, hself] at hy
      rw [hy] at hgrand
      exact absurd hgrand (lt_irrefl _)
    · exact h.label_root y (hother y hyx ▸ hy)
  · by_cases hyx : label y = x
    · exact absurd (hyx ▸ h.root_label y) hx
    · rw [hother _ hyx, h.root_label]
  · by_cases hyx : y = x
    · rw [hyx, hself]
      exact hgrand
    · rw [hother y hyx] at hy ⊢
      exact h.climbs y hy

theorem Labelled.climb (h : Labelled parent label height) (fuel : Nat) (x : α) :
    Labelled (climb fuel parent x).2 label height := by
  induction fuel generalizing parent x with
  | zero => exact h
  | succ fuel ih =>
    rw [DisjointSets.climb]
    split
    · exact h
    · rename_i hx
      exact ih (h.halve hx) _

theorem Labelled.link (h : Labelled parent label height) {x y : α} (hxy : label x ≠ label y) :
    Labelled (Function.update parent (label y) (label x))
      (fun z => if label z = label y then label x else label z)
      (fun z => if label z = label y then height z else height z + height (label y) + 1) := by
  have hidem : ∀ z, label (label z) = label z := fun z => h.label_root _ (h.root_label z)
  have hself : Function.update parent (label y) (label x) (label y) = label x :=
    Function.update_self _ _ _
  have hother : ∀ z, z ≠ label y → Function.update parent (label y) (label x) z = parent z :=
    fun z hz => Function.update_of_ne hz _ _
  refine ⟨fun z => ?_, fun z hz => ?_, fun z => ?_, fun z hz => ?_⟩
  · by_cases hzy : z = label y
    · rw [hzy, hself, hidem, hidem, if_neg hxy, if_pos rfl]
    · rw [hother z hzy, h.label_parent]
  · by_cases hzy : z = label y
    · rw [hzy, hself] at hz
      exact absurd hz hxy
    · rw [hother z hzy] at hz
      rw [h.label_root z hz, if_neg hzy]
  · split
    · rw [hother _ hxy, h.root_label]
    · rename_i hzy
      rw [hother _ hzy, h.root_label]
  · by_cases hzy : z = label y
    · rw [hzy, hself, hidem, hidem, if_pos rfl, if_neg hxy]
      omega
    · rw [hother z hzy] at hz ⊢
      have hup := h.climbs z hz
      rw [h.label_parent]
      split
      · exact hup
      · omega

variable [Fintype α]

/-- How many elements are higher. -/
def above (height : α → Nat) (x : α) : Nat :=
  (Finset.univ.filter fun y => height x < height y).card

omit [DecidableEq α] in
theorem above_lt {x y : α} (h : height x < height y) : above height y < above height x := by
  refine Finset.card_lt_card ((Finset.ssubset_iff_of_subset fun z hz => ?_).mpr ⟨y, ?_, ?_⟩)
  · rw [Finset.mem_filter] at hz ⊢
    exact ⟨hz.1, h.trans hz.2⟩
  · exact Finset.mem_filter.mpr ⟨Finset.mem_univ y, h⟩
  · exact fun hy => lt_irrefl _ (Finset.mem_filter.mp hy).2

omit [DecidableEq α] in
theorem above_lt_card (height : α → Nat) (x : α) : above height x < Fintype.card α := by
  refine Finset.card_lt_univ_of_notMem (x := x) fun hx => ?_
  exact lt_irrefl _ (Finset.mem_filter.mp hx).2

omit [Fintype α] in
/-- The loop without fuel: it ends at `root` and leaves the pointers `parent'`. -/
inductive Climbs : (α → α) → α → α → (α → α) → Prop
  | stop {parent : α → α} {x : α} : parent x = x → Climbs parent x x parent
  | step {parent parent' : α → α} {x root : α} : parent x ≠ x →
      Climbs (halve parent x) (parent (parent x)) root parent' → Climbs parent x root parent'

/-- **The loop ends**: each turn leaves fewer elements above. -/
theorem Labelled.climbs_climb (h : Labelled parent label height) {fuel : Nat} {x : α}
    (hfuel : above height x < fuel) :
    Climbs parent x (DisjointSets.climb fuel parent x).1 (DisjointSets.climb fuel parent x).2 := by
  induction fuel generalizing parent x with
  | zero => exact absurd hfuel (Nat.not_lt_zero _)
  | succ fuel ih =>
    rw [DisjointSets.climb]
    split
    · rename_i hx
      exact .stop hx
    · rename_i hx
      have hlt := above_lt (h.height_grandparent hx)
      exact .step hx (ih (h.halve hx) (by omega))

/-- **With enough fuel the climb ends at the label.** -/
theorem Labelled.climb_eq (h : Labelled parent label height) {fuel : Nat} {x : α}
    (hfuel : above height x < fuel) : (DisjointSets.climb fuel parent x).1 = label x := by
  induction fuel generalizing parent x with
  | zero => exact absurd hfuel (Nat.not_lt_zero _)
  | succ fuel ih =>
    rw [DisjointSets.climb]
    split
    · rename_i hx
      exact (h.label_root x hx).symm
    · rename_i hx
      have hlt := above_lt (h.height_grandparent hx)
      rw [ih (h.halve hx) (by omega), h.label_parent, h.label_parent]

/-! ### The operations -/

def Forest.find (s : Forest α) (x : α) : α × Forest α :=
  ((climb (Fintype.card α) s.parent x).1,
    { parent := (climb (Fintype.card α) s.parent x).2
      labelled := by
        obtain ⟨label, height, h⟩ := s.labelled
        exact ⟨label, height, h.climb _ x⟩ })

def Forest.root (s : Forest α) (x : α) : α := (s.find x).1

theorem root_eq_label {s : Forest α} (h : Labelled s.parent label height) (x : α) :
    s.root x = label x := h.climb_eq (above_lt_card height x)

/-- `find` is what the loop without fuel computes. -/
theorem Forest.climbs_find (s : Forest α) (x : α) :
    Climbs s.parent x (s.root x) (s.find x).2.parent := by
  obtain ⟨label, height, h⟩ := s.labelled
  exact h.climbs_climb (above_lt_card height x)

theorem Forest.labelled_root (s : Forest α) : ∃ height, Labelled s.parent s.root height := by
  obtain ⟨label, height, h⟩ := s.labelled
  have hroot : s.root = label := funext (root_eq_label h)
  exact ⟨height, hroot ▸ h⟩

@[simp] theorem root_find (s : Forest α) (x y : α) : (s.find x).2.root y = s.root y := by
  obtain ⟨height, h⟩ := s.labelled_root
  exact root_eq_label (s := (s.find x).2) (h.climb _ x) y

@[simp] theorem root_singletons (x : α) : (singletons α).root x = x :=
  @root_eq_label α _ id (fun _ => 0) _ (singletons α)
    ⟨fun _ => rfl, fun _ h => h, fun _ => rfl, fun _ h => absurd rfl h⟩ x

/-- Hang the root of `y` below the root of `x`. -/
def Forest.union (s : Forest α) (x y : α) : Forest α :=
  let rx := (s.find x).1
  let s₁ := (s.find x).2
  let ry := (s₁.find y).1
  let s₂ := (s₁.find y).2
  if h : rx ≠ ry then
    { parent := Function.update s₂.parent ry rx
      labelled := by
        obtain ⟨height, hs⟩ := s₂.labelled_root
        have hrx : rx = s₂.root x := ((root_find s₁ y x).trans (root_find s x x)).symm
        have hry : ry = s₂.root y := (root_find s₁ y y).symm
        rw [hrx, hry] at h ⊢
        exact ⟨_, _, hs.link h⟩ }
  else s₂

/-- **A union merges two classes.** -/
theorem root_union (s : Forest α) (x y z : α) :
    (s.union x y).root z = if s.root z = s.root y then s.root x else s.root z := by
  have h₂ : ∀ z, (((s.find x).2.find y).2).root z = s.root z := by simp
  have hry : ((s.find x).2.find y).1 = s.root y := root_find s x y
  rw [Forest.union]
  split
  · rename_i hne
    obtain ⟨height, hs⟩ := ((s.find x).2.find y).2.labelled_root
    have hne' : (((s.find x).2.find y).2).root x ≠ (((s.find x).2.find y).2).root y := by
      rw [h₂, h₂, ← hry]
      exact hne
    have hlink := hs.link hne'
    rw [h₂, h₂] at hlink
    refine (root_eq_label (s := ⟨Function.update ((s.find x).2.find y).2.parent
      ((s.find x).2.find y).1 (s.find x).1, _⟩) (hry ▸ hlink) z).trans ?_
    simp only [h₂, hry]
  · rename_i heq
    have heq : s.root x = s.root y := hry ▸ not_not.mp heq
    rw [h₂]
    split
    · rename_i hz
      rw [hz, heq]
    · rfl

/-- A union connects its two elements, and what they are connected to. -/
theorem root_union_iff {s : Forest α} {r : α → α → Prop} (h : ∀ x y, s.root x = s.root y ↔
    Relation.EqvGen r x y) (a b x y : α) : (s.union a b).root x = (s.union a b).root y ↔
      Relation.EqvGen (fun u v => r u v ∨ (u, v) = (a, b)) x y := by
  have hmono : ∀ {u v}, s.root u = s.root v → Relation.EqvGen (fun u v => r u v ∨ (u, v) = (a, b)) u v :=
    fun huv => ((h _ _).mp huv).mono fun _ _ => Or.inl
  have hab : Relation.EqvGen (fun u v => r u v ∨ (u, v) = (a, b)) a b := .rel _ _ (Or.inr rfl)
  constructor
  · intro heq
    rw [root_union, root_union] at heq
    split at heq <;> split at heq
    · rename_i hx hy
      exact hmono (hx.trans hy.symm)
    · rename_i hx hy
      exact ((hmono hx).trans _ _ _ hab.symm).trans _ _ _ (hmono heq)
    · rename_i hx hy
      exact ((hmono heq).trans _ _ _ hab).trans _ _ _ (hmono hy.symm)
    · exact hmono heq
  · intro heq
    induction heq with
    | rel u v huv =>
      rcases huv with huv | huv
      · rw [root_union, root_union, (h u v).mpr (.rel _ _ huv)]
      · obtain ⟨rfl, rfl⟩ := Prod.mk.inj huv
        rw [root_union, root_union, if_pos rfl, ite_self]
    | refl u => rfl
    | symm u v _ ih => exact ih.symm
    | trans u v w _ _ ih ih' => exact ih.trans ih'

/-! ### Uniting all pairs of a list -/

def Forest.unite (s : Forest α) (pairs : List (α × α)) : Forest α :=
  pairs.foldl (fun s p => s.union p.1 p.2) s

theorem root_unite_from {pairs : List (α × α)} {s : Forest α} {r : α → α → Prop}
    (h : ∀ x y, s.root x = s.root y ↔ Relation.EqvGen r x y) (x y : α) :
    (s.unite pairs).root x = (s.unite pairs).root y ↔
      Relation.EqvGen (fun a b => r a b ∨ (a, b) ∈ pairs) x y := by
  induction pairs generalizing s r with
  | nil => simpa [Forest.unite] using h x y
  | cons p pairs ih =>
    obtain ⟨a, b⟩ := p
    rw [show s.unite ((a, b) :: pairs) = (s.union a b).unite pairs from rfl,
      ih (root_union_iff h a b)]
    simp only [List.mem_cons, or_assoc]

omit [DecidableEq α] [Fintype α] in
theorem eqvGen_false_iff {x y : α} : Relation.EqvGen (fun _ _ => False) x y ↔ x = y := by
  constructor
  · intro h
    induction h with
    | rel _ _ h => exact h.elim
    | refl _ => rfl
    | symm _ _ _ ih => exact ih.symm
    | trans _ _ _ _ _ ih ih' => exact ih.trans ih'
  · rintro rfl
    exact .refl _

theorem root_singletons_iff (x y : α) : (singletons α).root x = (singletons α).root y ↔
    Relation.EqvGen (fun _ _ => False) x y := by
  rw [root_singletons, root_singletons, eqvGen_false_iff]

/-- **Two elements have one root exactly when the pairs connect them.** -/
theorem root_unite {pairs : List (α × α)} {x y : α} :
    ((singletons α).unite pairs).root x = ((singletons α).unite pairs).root y ↔
      Relation.EqvGen (fun a b => (a, b) ∈ pairs) x y := by
  rw [root_unite_from root_singletons_iff]
  simp only [false_or]

/-- Where every union hangs its second class below an element with `p`, a root without
`p` is alone in its class. -/
theorem root_unite_eq_self {p : α → Prop} {pairs : List (α × α)} {s : Forest α}
    (hpairs : ∀ q ∈ pairs, p q.1) (hs : ∀ z, ¬ p (s.root z) → s.root z = z) {z : α}
    (hz : ¬ p ((s.unite pairs).root z)) : (s.unite pairs).root z = z := by
  induction pairs generalizing s with
  | nil => exact hs z hz
  | cons q pairs ih =>
    refine ih (fun q' hq' => hpairs q' (List.mem_cons_of_mem _ hq')) ?_ hz
    intro w hw
    rw [root_union] at hw ⊢
    by_cases hwq : s.root w = s.root q.2
    · rw [if_pos hwq] at hw
      have hq := hpairs q List.mem_cons_self
      rw [hs q.1 hw] at hw
      exact absurd hq hw
    · rw [if_neg hwq] at hw ⊢
      exact hs w hw

/-! ### Any run of the operations -/

inductive Op (α : Type) : Type
  | find (x : α)
  | union (x y : α)

def Forest.perform (s : Forest α) : Op α → Forest α
  | .find x => (s.find x).2
  | .union x y => s.union x y

def Forest.performAll (s : Forest α) (ops : List (Op α)) : Forest α := ops.foldl Forest.perform s

theorem root_performAll_from {ops : List (Op α)} {s : Forest α} {r : α → α → Prop}
    (h : ∀ x y, s.root x = s.root y ↔ Relation.EqvGen r x y) (x y : α) :
    (s.performAll ops).root x = (s.performAll ops).root y ↔
      Relation.EqvGen (fun a b => r a b ∨ Op.union a b ∈ ops) x y := by
  induction ops generalizing s r with
  | nil => simpa [Forest.performAll] using h x y
  | cons op ops ih =>
    cases op with
    | find z =>
      have hfind : ∀ x y, (s.find z).2.root x = (s.find z).2.root y ↔ Relation.EqvGen r x y := by
        intro x y
        rw [root_find, root_find, h]
      have hrest := ih hfind
      simpa [Forest.performAll, Forest.perform] using hrest
    | union a b =>
      have hrest := ih (root_union_iff h a b)
      simpa [Forest.performAll, Forest.perform, or_assoc] using hrest

/-- **After any run** two elements have one root exactly when the united pairs connect
them. -/
theorem root_performAll {ops : List (Op α)} {x y : α} :
    ((singletons α).performAll ops).root x = ((singletons α).performAll ops).root y ↔
      Relation.EqvGen (fun a b => Op.union a b ∈ ops) x y := by
  rw [root_performAll_from root_singletons_iff]
  simp only [false_or]

end DisjointSets
