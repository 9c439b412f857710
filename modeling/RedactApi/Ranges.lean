import Mathlib.Logic.Relation
import Mathlib.Order.Lattice
import Mathlib.Tactic.ByContra

/-!
# Chains of overlapping ranges

Half-open ranges `[lo x, hi x)` in a linear order and a relation that only joins
ranges that overlap.  The ranges of a chain leave no gap (`exists_covering`), so a
range that is apart from all of them lies on one side (`left_of_linked`), and two
chains whose hulls overlap have ranges that overlap (`exists_overlapping`).
-/

namespace Ranges

open Relation (EqvGen)

variable {α β : Type} {r : α → α → Prop} {x y x' y' v : α}

/-- A chain from inside to outside has a step from inside to outside. -/
theorem exists_crossing {p : α → Prop} (h : EqvGen r x y) (hx : p x) (hy : ¬ p y) :
    ∃ u w, (r u w ∨ r w u) ∧ EqvGen r x w ∧ p u ∧ ¬ p w := by
  by_contra hno
  have hkeep : ∀ u w, r u w ∨ r w u → EqvGen r x u ∧ p u → EqvGen r x w ∧ p w := by
    rintro u w hr ⟨hu, hpu⟩
    have huw : EqvGen r u w := hr.elim (.rel u w) fun h => .symm w u (.rel w u h)
    have hw := hu.trans _ _ _ huw
    exact ⟨hw, not_not.mp fun hpw => hno ⟨u, w, hr, hw, hpu, hpw⟩⟩
  have hinside : ∀ {a b}, EqvGen r a b → (EqvGen r x a ∧ p a ↔ EqvGen r x b ∧ p b) := by
    intro a b hab
    induction hab with
    | rel a b hr => exact ⟨hkeep a b (Or.inl hr), hkeep b a (Or.inr hr)⟩
    | refl a => exact Iff.rfl
    | symm a b _ ih => exact ih.symm
    | trans a b c _ _ ih ih' => exact ih.trans ih'
  exact hy ((hinside h).mp ⟨.refl x, hx⟩).2

variable [LinearOrder β] (lo hi : α → β)

/-- **A chain leaves no gap.** -/
theorem exists_covering (hr : ∀ u w, r u w → lo u < hi w ∧ lo w < hi u) {c : β} (h : EqvGen r x y)
    (hx : lo x ≤ c) (hy : c < hi y) : ∃ z, EqvGen r x z ∧ lo z ≤ c ∧ c < hi z := by
  by_cases hc : c < hi x
  · exact ⟨x, .refl x, hx, hc⟩
  · obtain ⟨u, w, huw, hw, hu, hcw⟩ :=
      exists_crossing (p := fun z => hi z ≤ c) h (not_lt.mp hc) (not_le.mpr hy)
    have hlo : lo w < hi u := huw.elim (fun h => (hr u w h).2) fun h => (hr w u h).1
    exact ⟨w, hw, (hlo.trans_le hu).le, not_le.mp hcw⟩

/-- A range that no range of a chain overlaps lies on one side of the chain. -/
theorem left_of_linked (hr : ∀ u w, r u w → lo u < hi w ∧ lo w < hi u) (hv : lo v ≤ hi v)
    (hapart : ∀ u, EqvGen r x u → ¬ (lo u < hi v ∧ lo v < hi u)) (h : EqvGen r x y)
    (hx : hi x ≤ lo v) : hi y ≤ lo v := by
  by_contra hy
  obtain ⟨u, w, huw, hw, hu, hvw⟩ := exists_crossing (p := fun z => hi z ≤ lo v) h hx hy
  have hlo : lo w < hi u := huw.elim (fun h => (hr u w h).2) fun h => (hr w u h).1
  exact hapart w hw ⟨(hlo.trans_le hu).trans_le hv, not_le.mp hvw⟩

/-- **Chains whose hulls overlap have ranges that overlap.** -/
theorem exists_overlapping (hr : ∀ u w, r u w → lo u < hi w ∧ lo w < hi u)
    (hrange : ∀ z, lo z ≤ hi z) (h : EqvGen r x y) (h' : EqvGen r x' y')
    (hxy' : lo x < hi y') (hx'y : lo x' < hi y) :
    ∃ u v, EqvGen r x u ∧ EqvGen r x' v ∧ lo u < hi v ∧ lo v < hi u := by
  by_contra hno
  have hapart : ∀ u v, EqvGen r x u → EqvGen r x' v → ¬ (lo u < hi v ∧ lo v < hi u) :=
    fun u v hu hv huv => hno ⟨u, v, hu, hv, huv⟩
  by_cases hx : lo x < hi x'
  · have hleft : hi x ≤ lo x' :=
      not_lt.mp fun hlt => hapart x x' (.refl x) (.refl x') ⟨hx, hlt⟩
    have hy := left_of_linked lo hi hr (hrange x') (fun u hu => hapart u x' hu (.refl x')) h hleft
    exact absurd hx'y (not_lt.mpr hy)
  · have hy' := left_of_linked lo hi hr (hrange x)
      (fun v hv huv => hapart x v (.refl x) hv ⟨huv.2, huv.1⟩) h' (not_lt.mp hx)
    exact absurd hxy' (not_lt.mpr hy')

end Ranges
