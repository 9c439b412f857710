import Mathlib.Data.List.Induction
import Mathlib.Data.List.Nodup

/-!
# Dictionaries of lists

A dictionary that keeps its keys in the order in which they were inserted, with a
list for each key that is never empty: its first element and the rest.  Appending
each item of a list under its key groups the items by key, in order.
-/

namespace Grouping

variable {κ ι : Type} [DecidableEq κ]

def members (e : κ × ι × List ι) : List ι := e.2.1 :: e.2.2

omit [DecidableEq κ] in
theorem members_ne_nil (e : κ × ι × List ι) : members e ≠ [] := List.cons_ne_nil _ _

/-- `d.setdefault(k, []).append(v)`. -/
def setdefaultAppend (k : κ) (v : ι) : List (κ × ι × List ι) → List (κ × ι × List ι)
  | [] => [(k, v, [])]
  | (k', first, rest) :: d =>
    if k' = k then (k', first, rest ++ [v]) :: d
    else (k', first, rest) :: setdefaultAppend k v d

def grouped (f : ι → κ) (items : List ι) : List (κ × ι × List ι) :=
  items.foldl (fun d v => setdefaultAppend (f v) v d) []

theorem grouped_concat (f : ι → κ) (items : List ι) (v : ι) :
    grouped f (items ++ [v]) = setdefaultAppend (f v) v (grouped f items) := by
  rw [grouped, List.foldl_append]
  rfl

theorem keys_setdefaultAppend (k : κ) (v : ι) (d : List (κ × ι × List ι)) :
    (setdefaultAppend k v d).map (·.1) = if k ∈ d.map (·.1) then d.map (·.1) else d.map (·.1) ++ [k] := by
  induction d with
  | nil => rfl
  | cons e d ih =>
    obtain ⟨k', first, rest⟩ := e
    rw [setdefaultAppend]
    by_cases hk : k' = k
    · simp [hk]
    · rw [if_neg hk, List.map_cons, ih, List.map_cons]
      by_cases hm : k ∈ d.map (·.1)
      · rw [if_pos hm, if_pos (List.mem_cons_of_mem _ hm)]
      · rw [if_neg hm, if_neg (by rw [List.mem_cons, not_or]; exact ⟨Ne.symm hk, hm⟩)]
        rfl

theorem nodup_grouped (f : ι → κ) (items : List ι) : ((grouped f items).map (·.1)).Nodup := by
  induction items using List.reverseRecOn with
  | nil => exact List.nodup_nil
  | append_singleton items v ih =>
    rw [grouped_concat, keys_setdefaultAppend]
    split
    · exact ih
    · rename_i hk
      rw [← List.concat_eq_append]
      exact List.Nodup.concat hk ih

theorem mem_setdefaultAppend {k : κ} {v : ι} {d : List (κ × ι × List ι)} {e : κ × ι × List ι}
    (hd : (d.map (·.1)).Nodup) (h : e ∈ setdefaultAppend k v d) :
    e.1 ≠ k ∧ e ∈ d ∨
      e.1 = k ∧ ((k ∉ d.map (·.1) ∧ members e = [v]) ∨
        ∃ e' ∈ d, e'.1 = k ∧ members e = members e' ++ [v]) := by
  induction d with
  | nil =>
    rw [setdefaultAppend, List.mem_singleton] at h
    subst h
    exact Or.inr ⟨rfl, Or.inl ⟨List.not_mem_nil, rfl⟩⟩
  | cons e' d ih =>
    obtain ⟨k', first, rest⟩ := e'
    rw [List.map_cons, List.nodup_cons] at hd
    rw [setdefaultAppend] at h
    by_cases hk : k' = k
    · rw [if_pos hk] at h
      rcases List.mem_cons.mp h with rfl | h
      · exact Or.inr ⟨hk, Or.inr ⟨_, List.mem_cons_self, hk, rfl⟩⟩
      · exact Or.inl ⟨fun he => hd.1 (List.mem_map.mpr ⟨e, h, he.trans hk.symm⟩),
          List.mem_cons_of_mem _ h⟩
    · rw [if_neg hk] at h
      rcases List.mem_cons.mp h with rfl | h
      · exact Or.inl ⟨hk, List.mem_cons_self⟩
      · rcases ih hd.2 h with ⟨hne, hm⟩ | ⟨he, ⟨hnew, hm⟩ | ⟨e', hm, hk', he'⟩⟩
        · exact Or.inl ⟨hne, List.mem_cons_of_mem _ hm⟩
        · refine Or.inr ⟨he, Or.inl ⟨?_, hm⟩⟩
          rw [List.map_cons, List.mem_cons, not_or]
          exact ⟨Ne.symm hk, hnew⟩
        · exact Or.inr ⟨he, Or.inr ⟨e', List.mem_cons_of_mem _ hm, hk', he'⟩⟩

theorem mem_keys_grouped (f : ι → κ) (items : List ι) (k : κ) :
    k ∈ (grouped f items).map (·.1) ↔ ∃ v ∈ items, f v = k := by
  induction items using List.reverseRecOn with
  | nil => simp [grouped]
  | append_singleton items v ih =>
    have hsplit : (∃ u ∈ items ++ [v], f u = k) ↔ (∃ u ∈ items, f u = k) ∨ f v = k := by
      simp [or_and_right, exists_or]
    rw [hsplit, grouped_concat, keys_setdefaultAppend, ← ih]
    split
    · rename_i hv
      constructor
      · exact Or.inl
      · rintro (h | rfl)
        · exact h
        · exact hv
    · rw [List.mem_append, List.mem_singleton, eq_comm (a := k)]

/-- **Under a key are the items with that key**, in order. -/
theorem members_grouped {f : ι → κ} {items : List ι} {e : κ × ι × List ι}
    (h : e ∈ grouped f items) : members e = items.filter (f · = e.1) := by
  induction items using List.reverseRecOn generalizing e with
  | nil => cases h
  | append_singleton items v ih =>
    rw [grouped_concat] at h
    rw [List.filter_append]
    rcases mem_setdefaultAppend (nodup_grouped f items) h with
      ⟨hne, hm⟩ | ⟨he, ⟨hnew, hm⟩ | ⟨e', hm, hk, he'⟩⟩
    · rw [ih hm, List.filter_singleton, decide_eq_false (Ne.symm hne)]
      simp
    · have hnone : items.filter (f · = e.1) = [] := by
        refine List.filter_eq_nil_iff.mpr fun u hu hfu => hnew ?_
        rw [mem_keys_grouped, ← he]
        exact ⟨u, hu, of_decide_eq_true hfu⟩
      rw [hm, hnone, List.filter_singleton, decide_eq_true he.symm]
      rfl
    · rw [he', ih hm, hk, ← he, List.filter_singleton, decide_eq_true he.symm]
      rfl

end Grouping
