import Mathlib.Data.List.Induction
import Mathlib.Data.List.Forall2

/-!
# Hash chains

A list of entries, each storing the hash `prev` of the one before it, its own
hash `own` and a number `seq`.  `digest p e` is the hash an entry should have
after `p`.  `firstBroken` walks the chain and recomputes it.

* `firstBroken_eq_none`: the walk finds nothing exactly when the chain is
  `Linked`.
* `Chain.concat`: an entry made from the head and the next number keeps a chain
  linked and numbered from one.
* `Linked.commits`: if the digest tells entries apart, the head determines the
  whole history, its length included.
-/

namespace HashChain

variable {H E : Type} (prev own : E → H) (digest : H → E → H) (seq : E → Nat)

/-- Each entry carries the hash before it and the right hash of its own. -/
def Linked (p : H) : List E → Prop
  | [] => True
  | e :: es => prev e = p ∧ own e = digest p e ∧ Linked (own e) es

def head (p : H) : List E → H
  | [] => p
  | e :: es => head (own e) es

/-- The first entry that disagrees with the recomputed chain. -/
def firstBroken [DecidableEq H] (p : H) : List E → Option E
  | [] => none
  | e :: es => if prev e ≠ p ∨ own e ≠ digest p e then some e else firstBroken (own e) es

/-- A linked chain whose entries are numbered from one. -/
structure Chain (p : H) (l : List E) : Prop where
  linked : Linked prev own digest p l
  numbered : l.map seq = List.range' 1 l.length

variable {prev own digest seq}

theorem firstBroken_eq_none [DecidableEq H] {p : H} {l : List E} :
    firstBroken prev own digest p l = none ↔ Linked prev own digest p l := by
  induction l generalizing p with
  | nil => exact ⟨fun _ => trivial, fun _ => rfl⟩
  | cons e es ih =>
    rw [firstBroken, Linked]
    split
    · rename_i h
      constructor
      · intro hn
        cases hn
      · rintro ⟨hp, hd, _⟩
        rcases h with h | h
        · exact absurd hp h
        · exact absurd hd h
    · rename_i h
      rw [not_or, not_not, not_not] at h
      rw [ih]
      exact ⟨fun hl => ⟨h.1, h.2, hl⟩, fun hl => hl.2.2⟩

@[simp] theorem head_concat (p : H) (l : List E) (e : E) : head own p (l ++ [e]) = own e := by
  induction l generalizing p with
  | nil => rfl
  | cons a l ih => exact ih (own a)

theorem head_getLast? (p : H) (l : List E) : head own p l = (l.getLast?.map own).getD p := by
  rcases List.eq_nil_or_concat l with rfl | ⟨l', e, rfl⟩
  · rfl
  · rw [List.concat_eq_append, head_concat, List.getLast?_concat]
    rfl

theorem linked_append {p : H} {l m : List E} :
    Linked prev own digest p (l ++ m) ↔
      Linked prev own digest p l ∧ Linked prev own digest (head own p l) m := by
  induction l generalizing p with
  | nil => simp [Linked, head]
  | cons a l ih =>
    rw [List.cons_append, Linked, ih, Linked, head, and_assoc, and_assoc]

theorem linked_concat {p : H} {l : List E} {e : E} :
    Linked prev own digest p (l ++ [e]) ↔
      Linked prev own digest p l ∧ prev e = head own p l ∧ own e = digest (head own p l) e := by
  rw [linked_append, Linked, Linked, and_true]

theorem chain_nil (p : H) : Chain prev own digest seq p [] := ⟨trivial, rfl⟩

/-- **Appending the next link.** -/
theorem Chain.concat {p : H} {l : List E} {e : E} (h : Chain prev own digest seq p l)
    (hp : prev e = head own p l) (hd : own e = digest (head own p l) e)
    (hs : seq e = l.length + 1) : Chain prev own digest seq p (l ++ [e]) where
  linked := linked_concat.mpr ⟨h.linked, hp, hd⟩
  numbered := by
    rw [List.map_append, h.numbered, List.length_append, List.length_singleton,
      List.range'_concat, List.map_singleton, hs]
    simp [Nat.add_comm]

theorem Chain.mem_seq {p : H} {l : List E} (h : Chain prev own digest seq p l) {n : Nat} :
    (∃ e ∈ l, seq e = n) ↔ 1 ≤ n ∧ n ≤ l.length := by
  have hm : (∃ e ∈ l, seq e = n) ↔ n ∈ l.map seq := by simp
  rw [hm, h.numbered, List.mem_range'_1]
  omega

theorem Chain.prefix_left {p : H} {l m : List E} (h : Chain prev own digest seq p (l ++ m)) :
    Chain prev own digest seq p l where
  linked := (linked_append.mp h.linked).1
  numbered := by
    have hl := h.numbered
    rw [List.map_append, List.length_append, ← List.range'_append_1] at hl
    exact List.append_inj_left hl (by simp)

theorem Chain.getLast?_seq {p : H} {l : List E} (h : Chain prev own digest seq p l) {e : E}
    (he : l.getLast? = some e) : seq e = l.length := by
  rcases List.eq_nil_or_concat l with rfl | ⟨l', a, rfl⟩
  · cases he
  · rw [List.concat_eq_append, List.getLast?_concat] at he
    cases he
    have hn := h.numbered
    rw [List.concat_eq_append, List.map_append, List.length_append, List.length_singleton,
      List.range'_concat, List.map_singleton] at hn
    rw [List.concat_eq_append, List.length_append, List.length_singleton]
    have := List.append_inj_right' hn rfl
    simp only [List.cons.injEq, and_true] at this
    omega

/-! ### Tamper evidence -/

/-- The digests of `l` and `m` tell apart what `R` tells apart, and the hash before. -/
def Separates (prev : E → H) (digest : H → E → H) (R : E → E → Prop) (l m : List E) : Prop :=
  ∀ e ∈ l, ∀ e' ∈ m, digest (prev e) e = digest (prev e') e' → R e e' ∧ prev e = prev e'

/-- No entry hashes to the start of the chain. -/
def Fresh (prev : E → H) (digest : H → E → H) (p : H) (l : List E) : Prop :=
  ∀ e ∈ l, digest (prev e) e ≠ p

/-- **The head commits to the history.** -/
theorem Linked.commits {R : E → E → Prop} {p : H} : ∀ {l m : List E},
    Separates prev digest R l m → Fresh prev digest p l → Fresh prev digest p m →
    Linked prev own digest p l → Linked prev own digest p m → head own p l = head own p m →
    List.Forall₂ (fun e e' => R e e' ∧ prev e = prev e' ∧ own e = own e') l m := by
  intro l
  induction l using List.reverseRecOn with
  | nil =>
    intro m _ _ hm _ hlm hh
    rcases List.eq_nil_or_concat m with rfl | ⟨m', b, rfl⟩
    · exact List.Forall₂.nil
    · -- the head of a non-empty chain is a digest, hence not the start
      rw [List.concat_eq_append] at hm hlm hh
      obtain ⟨_, hp, hd⟩ := linked_concat.mp hlm
      rw [head_concat, hd, ← hp] at hh
      exact absurd hh.symm (hm b (by simp))
  | append_singleton l a ih =>
    intro m hsep hl hm hll hlm hh
    obtain ⟨hll', hpa, hda⟩ := linked_concat.mp hll
    rcases List.eq_nil_or_concat m with rfl | ⟨m', b, rfl⟩
    · rw [head_concat, hda, ← hpa] at hh
      exact absurd hh (hl a (by simp))
    · rw [List.concat_eq_append] at hm hlm hh hsep ⊢
      obtain ⟨hlm', hpb, hdb⟩ := linked_concat.mp hlm
      rw [head_concat, head_concat] at hh
      have hdig : digest (prev a) a = digest (prev b) b := by
        rw [hpa, hpb, ← hda, ← hdb, hh]
      obtain ⟨hR, hprev⟩ := hsep a (by simp) b (by simp) hdig
      have hheads : head own p l = head own p m' := by rw [← hpa, ← hpb, hprev]
      have hrest := ih (fun e he e' he' => hsep e (by simp [he]) e' (by simp [he']))
        (fun e he => hl e (by simp [he])) (fun e he => hm e (by simp [he])) hll' hlm' hheads
      exact List.rel_append hrest (List.Forall₂.cons ⟨hR, hprev, hh⟩ List.Forall₂.nil)

end HashChain
