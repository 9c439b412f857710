import Mathlib.Data.List.Nodup
import Mathlib.Data.List.Sort

/-!
# Tables as lists

A table is a list whose rows have different keys.  The lemmas say what a look-up
by key finds, and what it finds after a row is added or rows are changed without
changing their keys.
-/

namespace KeyedList

variable {α β κ : Type} [DecidableEq κ] {f : α → κ} {l : List α} {a : α}

theorem nodup_concat {f : α → β} (h : (l.map f).Nodup) (ha : ∀ b ∈ l, f b ≠ f a) :
    ((l ++ [a]).map f).Nodup := by
  rw [List.map_append, List.map_singleton, ← List.concat_eq_append]
  refine List.Nodup.concat (fun hm => ?_) h
  obtain ⟨b, hb, he⟩ := List.mem_map.mp hm
  exact ha b hb he

theorem nodup_map {f : α → β} {g : α → α} (hg : ∀ b, f (g b) = f b) (h : (l.map f).Nodup) :
    ((l.map g).map f).Nodup := by
  rw [List.map_map]
  have hsame : f ∘ g = f := funext hg
  rwa [hsame]

theorem filter_key (h : (l.map f).Nodup) (ha : a ∈ l) : l.filter (f · = f a) = [a] := by
  induction l with
  | nil => cases ha
  | cons b l ih =>
    rw [List.map_cons, List.nodup_cons] at h
    rcases List.mem_cons.mp ha with rfl | hmem
    · rw [List.filter_cons_of_pos (by simp)]
      congr 1
      refine List.filter_eq_nil_iff.mpr fun c hc hk => h.1 ?_
      rw [← of_decide_eq_true hk]
      exact List.mem_map_of_mem hc
    · have hne : f b ≠ f a := fun he => h.1 (he ▸ List.mem_map_of_mem hmem)
      rw [List.filter_cons_of_neg (by simpa using hne)]
      exact ih h.2 hmem

theorem find?_key (h : (l.map f).Nodup) (ha : a ∈ l) : l.find? (f · = f a) = some a := by
  rw [← List.head?_filter, filter_key h ha]
  rfl

theorem find?_concat {k : κ} (ha : ∀ b ∈ l, f b ≠ f a) :
    (l ++ [a]).find? (f · = k) = if f a = k then some a else l.find? (f · = k) := by
  rw [List.find?_append]
  split
  · rename_i hk
    have hnone : l.find? (f · = k) = none :=
      List.find?_eq_none.mpr fun b hb => by simpa [← hk] using ha b hb
    rw [hnone, Option.none_or, List.find?_singleton, if_pos (by simpa using hk)]
  · rename_i hk
    rw [List.find?_singleton, if_neg (by simpa using hk), Option.or_none]

theorem find?_map {g : α → α} (hg : ∀ b, f (g b) = f b) (k : κ) :
    (l.map g).find? (f · = k) = (l.find? (f · = k)).map g := by
  rw [List.find?_map]
  simp only [Function.comp_def, hg]

/-! ### Ordering by a key -/

theorem pairwise_insertionSort {ν : Type} [LinearOrder ν] (f : α → ν)
    [DecidableRel fun a b => f a ≤ f b] (l : List α) :
    (l.insertionSort fun a b => f a ≤ f b).Pairwise fun a b => f a ≤ f b := by
  have htotal : Std.Total fun a b => f a ≤ f b := ⟨fun a b => le_total (f a) (f b)⟩
  have htrans : IsTrans α fun a b => f a ≤ f b := ⟨fun _ _ _ => le_trans⟩
  exact List.pairwise_insertionSort _ l

end KeyedList
