import Mathlib.Data.List.Forall2
import Mathlib.Data.List.Pairwise

/-!
# Backtracking patterns

A pattern is tried at a position of a text and gives the positions where it may end, the
preferred ones first (`ends`); which ends there are is a relation without any order
(`mem_ends_iff`).  `finditer` scans from the left and resumes where the last match ended.

* `mem_finditer_or_swallowed`: where the pattern matches, the scan stops or is inside an
  earlier match.
* `mem_finditer_iff`: where no two matches overlap, the scan finds them all.
* `finditer_congr`: texts that no class of the pattern tells apart give the same matches.
-/

namespace Regex

/-! ### Patterns and their ends -/

/-- A class takes one symbol, a look-around none; repetitions are greedy. -/
inductive Pattern (α : Type*)
  | one (c : α → Bool)
  | seq (p q : Pattern α)
  | alt (p q : Pattern α)
  | rep (p : Pattern α) (least : Nat) (most : Option Nat)
  | notBehind (c : α → Bool)
  | notAhead (c : α → Bool)

variable {α : Type*} {w w' : List α} {c : α → Bool} {p q : Pattern α} {i j k : Nat}

def holds (w : List α) (c : α → Bool) (i : Nat) : Bool := w[i]?.any c

def heldBefore (w : List α) (c : α → Bool) : Nat → Bool
  | 0 => false
  | i + 1 => holds w c i

/-- The ends of between `least` and `most` iterations, each of which advances. -/
def repeated (body : Nat → List Nat) : Nat → Nat → Nat → List Nat
  | 0, least, i => if least = 0 then [i] else []
  | most + 1, least, i =>
    ((body i).filter (i < ·)).flatMap (repeated body most (least - 1)) ++
      if least = 0 then [i] else []

/-- Where a match from `i` may end, in the order a backtracking engine tries the ends. -/
def ends (w : List α) : Pattern α → Nat → List Nat
  | .one c, i => if holds w c i then [i + 1] else []
  | .seq p q, i => (ends w p i).flatMap (ends w q)
  | .alt p q, i => ends w p i ++ ends w q i
  | .rep p least most, i => repeated (ends w p) (most.getD w.length) least i
  | .notBehind c, i => if heldBefore w c i then [] else [i]
  | .notAhead c, i => if holds w c i then [] else [i]

theorem holds_iff : holds w c i = true ↔ ∃ a, w[i]? = some a ∧ c a = true := by
  rw [holds, Option.any_eq_true]

theorem lt_length_of_holds (h : holds w c i = true) : i < w.length := by
  obtain ⟨a, ha, -⟩ := holds_iff.mp h
  exact (List.getElem?_eq_some_iff.mp ha).1

theorem holds_mono {d : α → Bool} (hcd : ∀ a, c a = true → d a = true) (h : holds w c i = true) :
    holds w d i = true := by
  obtain ⟨a, ha, hca⟩ := holds_iff.mp h
  exact holds_iff.mpr ⟨a, ha, hcd a hca⟩

theorem not_holds_of_disjoint {d : α → Bool} (hcd : ∀ a, c a = true → d a = false)
    (h : holds w c i = true) : holds w d i = false := by
  obtain ⟨a, ha, hca⟩ := holds_iff.mp h
  rw [holds, ha, Option.any_some, hcd a hca]

theorem false_of_holds {d : α → Bool} (hcd : ∀ a, c a = true → d a = false)
    (hc : holds w c i = true) (hd : holds w d i = true) : False :=
  Bool.false_ne_true ((not_holds_of_disjoint hcd hc).symm.trans hd)

/-! ### What a pattern matches -/

/-- `n` steps of a relation, each of which advances. -/
def Iterates (r : Nat → Nat → Prop) : Nat → Nat → Nat → Prop
  | 0, i, k => i = k
  | n + 1, i, k => ∃ j, (r i j ∧ i < j) ∧ Iterates r n j k

/-- The pattern matches the text from `i` to `j`, in some way. -/
def Matched (w : List α) : Pattern α → Nat → Nat → Prop
  | .one c, i, j => holds w c i = true ∧ j = i + 1
  | .seq p q, i, k => ∃ j, Matched w p i j ∧ Matched w q j k
  | .alt p q, i, j => Matched w p i j ∨ Matched w q i j
  | .rep p least most, i, j =>
    ∃ n, least ≤ n ∧ (∀ m ∈ most, n ≤ m) ∧ Iterates (Matched w p) n i j
  | .notBehind c, i, j => heldBefore w c i = false ∧ j = i
  | .notAhead c, i, j => holds w c i = false ∧ j = i

theorem Iterates.add_le {r : Nat → Nat → Prop} {n : Nat} (h : Iterates r n i k) : i + n ≤ k := by
  induction n generalizing i with
  | zero => exact Nat.le_of_eq h
  | succ n ih =>
    obtain ⟨j, ⟨-, hij⟩, hrest⟩ := h
    have hjk := ih hrest
    omega

theorem Iterates.le_bound {r : Nat → Nat → Prop} {n bound : Nat} (h : Iterates r n i k)
    (hr : ∀ i j, r i j → i < j → j ≤ bound) (hik : i < k) : k ≤ bound := by
  induction n generalizing i with
  | zero => exact absurd h (Nat.ne_of_lt hik)
  | succ n ih =>
    obtain ⟨j, ⟨hij, hlt⟩, hrest⟩ := h
    obtain rfl | hjk := Nat.eq_or_lt_of_le (Nat.le_of_add_right_le hrest.add_le)
    · exact hr i j hij hlt
    · exact ih hrest hjk

theorem Iterates.exists_last {r : Nat → Nat → Prop} {n : Nat} (h : Iterates r n i k) (hik : i < k) :
    ∃ j, i ≤ j ∧ r j k := by
  induction n generalizing i with
  | zero => exact absurd h (Nat.ne_of_lt hik)
  | succ n ih =>
    obtain ⟨j, ⟨hij, hlt⟩, hrest⟩ := h
    obtain rfl | hjk := Nat.eq_or_lt_of_le (Nat.le_of_add_right_le hrest.add_le)
    · exact ⟨i, Nat.le_refl i, hij⟩
    · obtain ⟨m, hm, hlast⟩ := ih hrest hjk
      exact ⟨m, by omega, hlast⟩

theorem Matched.bounds (h : Matched w p i j) : i ≤ j ∧ (i < j → j ≤ w.length) := by
  induction p generalizing i j with
  | one c =>
    obtain ⟨hc, rfl⟩ := h
    exact ⟨Nat.le_succ i, fun _ => lt_length_of_holds hc⟩
  | seq p q ihp ihq =>
    obtain ⟨k, hp, hq⟩ := h
    have hik := ihp hp
    have hkj := ihq hq
    omega
  | alt p q ihp ihq => exact h.elim ihp ihq
  | rep p least most ih =>
    obtain ⟨n, -, -, hn⟩ := h
    exact ⟨Nat.le_of_add_right_le hn.add_le, hn.le_bound fun _ _ hr => (ih hr).2⟩
  | notBehind c => exact ⟨Nat.le_of_eq h.2.symm, fun hlt => absurd h.2 (Nat.ne_of_gt hlt)⟩
  | notAhead c => exact ⟨Nat.le_of_eq h.2.symm, fun hlt => absurd h.2 (Nat.ne_of_gt hlt)⟩

theorem mem_repeated_iff {body : Nat → List Nat} {most least : Nat} :
    k ∈ repeated body most least i ↔
      ∃ n, least ≤ n ∧ n ≤ most ∧ Iterates (fun a b => b ∈ body a) n i k := by
  induction most generalizing least i with
  | zero =>
    rw [repeated]
    constructor
    · intro h
      split at h
      · exact ⟨0, by omega, Nat.le_refl 0, (List.mem_singleton.mp h).symm⟩
      · simp at h
    · rintro ⟨n, hleast, hn, hk⟩
      obtain rfl : n = 0 := by omega
      rw [if_pos (by omega)]
      exact List.mem_singleton.mpr hk.symm
  | succ most ih =>
    rw [repeated, List.mem_append, List.mem_flatMap]
    constructor
    · rintro (⟨j, hj, hk⟩ | h)
      · obtain ⟨n, hleast, hn, hiter⟩ := ih.mp hk
        have hstep := List.mem_filter.mp hj
        exact ⟨n + 1, by omega, by omega, j, ⟨hstep.1, by simpa using hstep.2⟩, hiter⟩
      · split at h
        · exact ⟨0, by omega, Nat.zero_le _, (List.mem_singleton.mp h).symm⟩
        · simp at h
    · rintro ⟨n, hleast, hn, hk⟩
      cases n with
      | zero =>
        right
        rw [if_pos (by omega)]
        exact List.mem_singleton.mpr hk.symm
      | succ n =>
        obtain ⟨j, ⟨hj, hlt⟩, hiter⟩ := hk
        exact .inl ⟨j, List.mem_filter.mpr ⟨hj, by simpa using hlt⟩,
          ih.mpr ⟨n, by omega, by omega, hiter⟩⟩

/-- **The engine tries exactly the ends of matches.** -/
theorem mem_ends_iff : j ∈ ends w p i ↔ Matched w p i j := by
  induction p generalizing i j with
  | one c => simp only [ends, Matched]; split <;> simp_all
  | seq p q ihp ihq => simp only [ends, Matched, List.mem_flatMap, ihp, ihq]
  | alt p q ihp ihq => simp only [ends, Matched, List.mem_append, ihp, ihq]
  | rep p least most ih =>
    have hbody : (fun a b => b ∈ ends w p a) = Matched w p := by
      funext a b
      exact propext ih
    rw [ends, mem_repeated_iff, hbody]
    refine exists_congr fun n => and_congr_right fun _ => and_congr_left fun hn => ?_
    cases most with
    | some m => simp
    | none =>
      -- an unbounded repetition advances at most through the whole text
      have hroom : n ≤ w.length := by
        have hadd := hn.add_le
        obtain hik | hik := Nat.eq_or_lt_of_le (Nat.le_of_add_right_le hadd)
        · omega
        · have hk := hn.le_bound (fun _ _ hr => hr.bounds.2) hik
          omega
      simpa using hroom
  | notBehind c => simp only [ends, Matched]; split <;> simp_all
  | notAhead c => simp only [ends, Matched]; split <;> simp_all

theorem iterates_one_iff {n : Nat} :
    Iterates (Matched w (.one c)) n i j ↔ j = i + n ∧ ∀ k, i ≤ k → k < j → holds w c k = true := by
  induction n generalizing i with
  | zero =>
    refine ⟨fun h => ⟨h.symm, fun k hik hkj => ?_⟩, fun h => h.1.symm⟩
    exact absurd (Nat.lt_of_le_of_lt hik hkj) (by rw [h]; exact Nat.lt_irrefl j)
  | succ n ih =>
    rw [Iterates]
    constructor
    · rintro ⟨_, ⟨⟨hc, rfl⟩, -⟩, hrest⟩
      obtain ⟨hj, hall⟩ := ih.mp hrest
      refine ⟨by omega, fun k hik hkj => ?_⟩
      obtain rfl | hlt := Nat.eq_or_lt_of_le hik
      · exact hc
      · exact hall k hlt hkj
    · rintro ⟨hj, hall⟩
      exact ⟨i + 1, ⟨⟨hall i (Nat.le_refl i) (by omega), rfl⟩, Nat.lt_succ_self i⟩,
        ih.mpr ⟨by omega, fun k hik => hall k (by omega)⟩⟩

theorem matched_run_iff {least : Nat} {most : Option Nat} :
    Matched w (.rep (.one c) least most) i j ↔
      i + least ≤ j ∧ (∀ m ∈ most, j ≤ i + m) ∧ ∀ k, i ≤ k → k < j → holds w c k = true := by
  rw [Matched]
  constructor
  · rintro ⟨n, hleast, hmost, hn⟩
    obtain ⟨rfl, hall⟩ := iterates_one_iff.mp hn
    exact ⟨by omega, fun m hm => Nat.add_le_add_left (hmost m hm) i, hall⟩
  · rintro ⟨hleast, hmost, hall⟩
    refine ⟨j - i, by omega, fun m hm => ?_, iterates_one_iff.mpr ⟨by omega, hall⟩⟩
    have hm := hmost m hm
    omega

/-! ### The scan -/

/-- The match that the engine takes at `i`. -/
def Hit (w : List α) (p : Pattern α) (i j : Nat) : Prop := (ends w p i).head? = some j

/-- `room` more positions from `pos` on; the patterns that are scanned for take symbols. -/
def scan (w : List α) (p : Pattern α) : Nat → Nat → List (Nat × Nat)
  | 0, _ => []
  | room + 1, pos =>
    match (ends w p pos).head? with
    | some stop => (pos, stop) :: scan w p room (max stop (pos + 1))
    | none => scan w p room (pos + 1)

/-- The matches from left to right, none inside another. -/
def finditer (w : List α) (p : Pattern α) : List (Nat × Nat) := scan w p (w.length + 1) 0

theorem Hit.matches (h : Hit w p i j) : Matched w p i j :=
  mem_ends_iff.mp (List.mem_of_mem_head? h)

theorem exists_hit_of_matches (h : Matched w p i j) : ∃ k, Hit w p i k := by
  cases hends : ends w p i with
  | nil => exact absurd (mem_ends_iff.mpr h) (by simp [hends])
  | cons k rest => exact ⟨k, by rw [Hit, hends, List.head?_cons]⟩

theorem Hit.unique {j' : Nat} (h : Hit w p i j) (h' : Hit w p i j') : j = j' :=
  Option.some.inj (h.symm.trans h')

theorem hit_iff_of_unique (hone : ∀ k k', Matched w p i k → Matched w p i k' → k = k') :
    Hit w p i j ↔ Matched w p i j := by
  refine ⟨Hit.matches, fun h => ?_⟩
  obtain ⟨k, hk⟩ := exists_hit_of_matches h
  rwa [hone j k h hk.matches]

theorem scan_of_hit {room pos : Nat} (h : Hit w p pos j) :
    scan w p (room + 1) pos = (pos, j) :: scan w p room (max j (pos + 1)) := by
  simp only [scan, show (ends w p pos).head? = some j from h]

theorem scan_of_not_hit {room pos : Nat} (h : ∀ j, ¬ Hit w p pos j) :
    scan w p (room + 1) pos = scan w p room (pos + 1) := by
  have hnone : (ends w p pos).head? = none := Option.eq_none_iff_forall_ne_some.mpr h
  simp only [scan, hnone]

theorem hit_of_mem_scan {room pos : Nat} (h : (i, j) ∈ scan w p room pos) :
    pos ≤ i ∧ Hit w p i j := by
  induction room generalizing pos with
  | zero => simp [scan] at h
  | succ room ih =>
    by_cases hhit : ∃ stop, Hit w p pos stop
    · obtain ⟨stop, hstop⟩ := hhit
      rw [scan_of_hit hstop] at h
      obtain heq | hrest := List.mem_cons.mp h
      · obtain ⟨rfl, rfl⟩ := Prod.mk.inj heq
        exact ⟨Nat.le_refl i, hstop⟩
      · have hlater := ih hrest
        exact ⟨by omega, hlater.2⟩
    · rw [scan_of_not_hit fun stop hstop => hhit ⟨stop, hstop⟩] at h
      have hlater := ih h
      exact ⟨by omega, hlater.2⟩

theorem scan_pairwise (room pos : Nat) :
    (scan w p room pos).Pairwise fun a b => a.2 ≤ b.1 := by
  induction room generalizing pos with
  | zero => exact List.Pairwise.nil
  | succ room ih =>
    by_cases hhit : ∃ stop, Hit w p pos stop
    · obtain ⟨stop, hstop⟩ := hhit
      rw [scan_of_hit hstop]
      refine List.pairwise_cons.mpr ⟨fun b hb => ?_, ih _⟩
      have hlater := (hit_of_mem_scan hb).1
      omega
    · rw [scan_of_not_hit fun stop hstop => hhit ⟨stop, hstop⟩]
      exact ih _

theorem mem_scan_or_swallowed {room pos : Nat} (h : Hit w p i j) (hpos : pos ≤ i)
    (hroom : i < pos + room) :
    (i, j) ∈ scan w p room pos ∨ ∃ b ∈ scan w p room pos, b.1 < i ∧ i < b.2 := by
  induction room generalizing pos with
  | zero => omega
  | succ room ih =>
    by_cases hhit : ∃ stop, Hit w p pos stop
    · obtain ⟨stop, hstop⟩ := hhit
      rw [scan_of_hit hstop]
      by_cases heq : pos = i
      · subst heq
        exact .inl (List.mem_cons.mpr (.inl (by rw [hstop.unique h])))
      · by_cases hin : i < stop
        · exact .inr ⟨(pos, stop), List.mem_cons_self, by omega, hin⟩
        · obtain hmem | ⟨b, hb, hbi⟩ := @ih (max stop (pos + 1)) (by omega) (by omega)
          · exact .inl (List.mem_cons_of_mem _ hmem)
          · exact .inr ⟨b, List.mem_cons_of_mem _ hb, hbi⟩
    · have hne : pos ≠ i := fun heq => hhit ⟨j, heq ▸ h⟩
      rw [scan_of_not_hit fun stop hstop => hhit ⟨stop, hstop⟩]
      exact ih (by omega) (by omega)

theorem hit_of_mem_finditer (h : (i, j) ∈ finditer w p) : Hit w p i j := (hit_of_mem_scan h).2

theorem finditer_pairwise : (finditer w p).Pairwise fun a b => a.2 ≤ b.1 := scan_pairwise _ _

theorem finditer_disjoint {a b : Nat × Nat} (ha : a ∈ finditer w p) (hb : b ∈ finditer w p)
    (hne : a ≠ b) : a.2 ≤ b.1 ∨ b.2 ≤ a.1 := by
  have hsymm : Std.Symm fun a b : Nat × Nat => a.2 ≤ b.1 ∨ b.2 ≤ a.1 := ⟨fun _ _ => Or.symm⟩
  have hpair : (finditer w p).Pairwise fun a b => a.2 ≤ b.1 ∨ b.2 ≤ a.1 :=
    finditer_pairwise.imp Or.inl
  exact hpair.forall ha hb hne

/-- **A match is found or begins inside one that is.** -/
theorem mem_finditer_or_swallowed (h : Hit w p i j) (hi : i ≤ w.length) :
    (i, j) ∈ finditer w p ∨ ∃ b ∈ finditer w p, b.1 < i ∧ i < b.2 :=
  mem_scan_or_swallowed h (Nat.zero_le i) (by omega)

/-- **Matches that do not overlap are all found.** -/
theorem mem_finditer_iff (hdisjoint : ∀ a b, Hit w p a b → ∀ a' b', Hit w p a' b' → a < a' → b ≤ a')
    (hadvance : ∀ a b, Hit w p a b → a < b) : (i, j) ∈ finditer w p ↔ Hit w p i j := by
  refine ⟨hit_of_mem_finditer, fun h => ?_⟩
  have hij := hadvance i j h
  have hlength := h.matches.bounds.2 hij
  obtain hmem | ⟨b, hb, hbi, hib⟩ := mem_finditer_or_swallowed h (by omega)
  · exact hmem
  · have hle := hdisjoint b.1 b.2 (hit_of_mem_finditer hb) i j h hbi
    omega

/-! ### Patterns that prefer the longest match -/

/-- The ends from `i` are tried from the last to the first. -/
def LongestFirst (w : List α) (p : Pattern α) (i : Nat) : Prop := (ends w p i).Pairwise (· > ·)

theorem Hit.le_of_longestFirst (h : Hit w p i j) (hlongest : LongestFirst w p i)
    (hk : Matched w p i k) : k ≤ j := by
  obtain ⟨rest, hrest⟩ := List.head?_eq_some_iff.mp h
  rw [LongestFirst, hrest, List.pairwise_cons] at hlongest
  have hmem := mem_ends_iff.mpr hk
  rw [hrest] at hmem
  obtain rfl | hin := List.mem_cons.mp hmem
  · exact Nat.le_refl k
  · exact Nat.le_of_lt (hlongest.1 k hin)

theorem longestFirst_one (i : Nat) : LongestFirst w (.one c) i := by
  unfold LongestFirst ends
  split <;> simp

/-- An earlier end of the first part must not lead further than a later one. -/
theorem LongestFirst.seq (hp : LongestFirst w p i)
    (hq : ∀ k, Matched w p i k → LongestFirst w q k)
    (hcross : ∀ k k' j j', Matched w p i k → Matched w p i k' → k' < k → Matched w q k j →
      Matched w q k' j' → j' < j) : LongestFirst w (.seq p q) i := by
  refine List.pairwise_flatMap.mpr ⟨fun k hk => hq k (mem_ends_iff.mp hk), ?_⟩
  refine hp.imp_of_mem fun {k k'} hk hk' hlt j hj j' hj' => ?_
  exact hcross k k' j j' (mem_ends_iff.mp hk) (mem_ends_iff.mp hk') hlt (mem_ends_iff.mp hj)
    (mem_ends_iff.mp hj')

/-- Repetitions of a body with one end. -/
theorem LongestFirst.rep (hp : ∀ i, LongestFirst w p i)
    (hone : ∀ i k k', Matched w p i k → Matched w p i k' → k = k') (least : Nat)
    (most : Option Nat) (i : Nat) : LongestFirst w (.rep p least most) i := by
  unfold LongestFirst ends
  generalize most.getD w.length = most
  induction most generalizing least i with
  | zero => rw [repeated]; split <;> simp
  | succ most ih =>
    rw [repeated, List.pairwise_append]
    refine ⟨List.pairwise_flatMap.mpr ⟨fun k _ => ih _ k, ?_⟩, by split <;> simp, ?_⟩
    · refine ((hp i).filter _).imp_of_mem fun {k k'} hk hk' hlt => ?_
      have heq := hone i k k' (mem_ends_iff.mp (List.mem_filter.mp hk).1)
        (mem_ends_iff.mp (List.mem_filter.mp hk').1)
      omega
    · intro j hj i' hi'
      obtain ⟨k, hk, hjk⟩ := List.mem_flatMap.mp hj
      obtain ⟨n, -, -, hn⟩ := mem_repeated_iff.mp hjk
      have hik : i < k := of_decide_eq_true (List.mem_filter.mp hk).2
      have hkj := hn.add_le
      split at hi'
      · obtain rfl := List.mem_singleton.mp hi'
        omega
      · simp at hi'

theorem longestFirst_run (least : Nat) (most : Option Nat) (i : Nat) :
    LongestFirst w (.rep (.one c) least most) i :=
  LongestFirst.rep longestFirst_one (fun _ _ _ h h' => h.2.trans h'.2.symm) least most i

/-- The first part can be left at one place only. -/
theorem hit_seq_iff (hk : Matched w p i k)
    (hone : ∀ k', Matched w p i k' → (∃ j, Matched w q k' j) → k' = k) :
    Hit w (.seq p q) i j ↔ Hit w q k j := by
  have hhead : ∀ l : List Nat, k ∈ l → (∀ k' ∈ l, (∃ j, Matched w q k' j) → k' = k) →
      (l.flatMap (ends w q)).head? = (ends w q k).head? := by
    intro l
    induction l with
    | nil => simp
    | cons first rest ih =>
      intro hmem hall
      rw [List.flatMap_cons, List.head?_append]
      by_cases hfirst : first = k
      · subst hfirst
        cases hends : ends w q first with
        | cons j rest => rfl
        | nil =>
          by_cases hin : first ∈ rest
          · rw [ih hin fun k' hk' => hall k' (List.mem_cons_of_mem _ hk'), hends]
            rfl
          · have hnone : rest.flatMap (ends w q) = [] := by
              refine List.flatMap_eq_nil_iff.mpr fun k' hk' => List.eq_nil_iff_forall_not_mem.mpr ?_
              intro j hj
              have heq := hall k' (List.mem_cons_of_mem _ hk') ⟨j, mem_ends_iff.mp hj⟩
              exact hin (heq ▸ hk')
            rw [hnone]
            rfl
      · have hnone : ends w q first = [] := by
          refine List.eq_nil_iff_forall_not_mem.mpr fun j hj => ?_
          exact hfirst (hall first List.mem_cons_self ⟨j, mem_ends_iff.mp hj⟩)
        have hin : k ∈ rest := (List.mem_cons.mp hmem).resolve_left fun heq => hfirst heq.symm
        rw [hnone, ih hin fun k' hk' => hall k' (List.mem_cons_of_mem _ hk')]
        rfl
  rw [Hit, Hit, ends, hhead _ (mem_ends_iff.mpr hk) fun k' hk' => hone k' (mem_ends_iff.mp hk')]

/-! ### Parts of a text -/

def slice (w : List α) (i j : Nat) : List α := (w.take j).drop i

theorem length_slice (hj : j ≤ w.length) : (slice w i j).length = j - i := by
  rw [slice, List.length_drop, List.length_take, Nat.min_eq_left hj]

theorem getElem?_slice (h : i + k < j) : (slice w i j)[k]? = w[i + k]? := by
  rw [slice, List.getElem?_drop, List.getElem?_take_of_lt h]

theorem slice_append_slice (hik : i ≤ k) (hkj : k ≤ j) (hj : j ≤ w.length) :
    slice w i k ++ slice w k j = slice w i j := by
  have htake : w.take k = (w.take j).take k := by rw [List.take_take, Nat.min_eq_left hkj]
  have hlength : (w.take k).length = k := by rw [List.length_take]; omega
  rw [slice, slice, slice, htake]
  conv_rhs => rw [← List.take_append_drop k (w.take j)]
  rw [List.drop_append_of_le_length]
  rw [← htake, hlength]
  exact hik

theorem slice_eq_append_iff {l m : List α} (hij : i + l.length ≤ j) (hj : j ≤ w.length) :
    slice w i j = l ++ m ↔ slice w i (i + l.length) = l ∧ slice w (i + l.length) j = m := by
  have hlength : (slice w i (i + l.length)).length = l.length := by
    rw [length_slice (by omega)]
    omega
  rw [← slice_append_slice (Nat.le_add_right i l.length) hij hj]
  exact ⟨fun h => List.append_inj h hlength, fun h => by rw [h.1, h.2]⟩

theorem forall_mem_slice_iff (hj : j ≤ w.length) :
    (∀ a ∈ slice w i j, c a = true) ↔ ∀ k, i ≤ k → k < j → holds w c k = true := by
  constructor
  · intro h k hik hkj
    have hk : (slice w i j)[k - i]? = w[k]? := by
      rw [getElem?_slice (by omega), Nat.add_sub_cancel' hik]
    have hget : w[k]? = some w[k] := List.getElem?_eq_getElem (by omega)
    exact holds_iff.mpr ⟨_, hget, h _ (List.mem_of_getElem? (hk.trans hget))⟩
  · intro h a ha
    obtain ⟨k, hk⟩ := List.mem_iff_getElem?.mp ha
    have hlt : k < j - i := length_slice hj ▸ (List.getElem?_eq_some_iff.mp hk).1
    rw [getElem?_slice (by omega)] at hk
    obtain ⟨b, hb, hcb⟩ := holds_iff.mp (h (i + k) (by omega) (by omega))
    rwa [Option.some.inj (hk.symm.trans hb)]

theorem slice_eq_singleton_iff [DecidableEq α] {a : α} :
    slice w i (i + 1) = [a] ↔ holds w (fun b => b = a) i = true := by
  rw [slice, List.take_add_one, holds]
  cases hget : w[i]? with
  | none =>
    simp
  | some b =>
    have hlength := (List.getElem?_eq_some_iff.mp hget).1
    simp [List.length_take, Nat.min_eq_left (Nat.le_of_lt hlength)]

/-! ### Texts that a pattern cannot tell apart -/

def Pattern.classes : Pattern α → List (α → Bool)
  | .one c => [c]
  | .seq p q => p.classes ++ q.classes
  | .alt p q => p.classes ++ q.classes
  | .rep p _ _ => p.classes
  | .notBehind c => [c]
  | .notAhead c => [c]

def Pattern.taken : Pattern α → List (α → Bool)
  | .one c => [c]
  | .seq p q => p.taken ++ q.taken
  | .alt p q => p.taken ++ q.taken
  | .rep p _ _ => p.taken
  | .notBehind _ => []
  | .notAhead _ => []

theorem heldBefore_congr (h : ∀ i, holds w c i = holds w' c i) :
    heldBefore w c i = heldBefore w' c i := by
  cases i with
  | zero => rfl
  | succ i => exact h i

theorem ends_congr (hlength : w.length = w'.length)
    (h : ∀ c ∈ p.classes, ∀ i, holds w c i = holds w' c i) : ends w p = ends w' p := by
  induction p with
  | one c => funext i; simp only [ends, h c (List.mem_singleton_self c) i]
  | seq p q ihp ihq =>
    obtain ⟨hp, hq⟩ := List.forall_mem_append.mp h
    funext i
    simp only [ends, ihp hp, ihq hq]
  | alt p q ihp ihq =>
    obtain ⟨hp, hq⟩ := List.forall_mem_append.mp h
    funext i
    simp only [ends, ihp hp, ihq hq]
  | rep p least most ih => funext i; simp only [ends, ih h, hlength]
  | notBehind c =>
    funext i
    simp only [ends, heldBefore_congr (h c (List.mem_singleton_self c))]
  | notAhead c => funext i; simp only [ends, h c (List.mem_singleton_self c) i]

theorem scan_congr (h : ends w p = ends w' p) (room pos : Nat) :
    scan w p room pos = scan w' p room pos := by
  induction room generalizing pos with
  | zero => rfl
  | succ room ih => simp only [scan, h, ih]

theorem Matched.holds_taken {d : α → Bool} (h : Matched w p i j)
    (hd : ∀ c ∈ p.taken, ∀ a, c a = true → d a = true) (hik : i ≤ k) (hkj : k < j) :
    holds w d k = true := by
  induction p generalizing i j with
  | one c =>
    obtain ⟨hc, rfl⟩ := h
    obtain rfl : k = i := by omega
    exact holds_mono (hd c (List.mem_singleton_self c)) hc
  | seq p q ihp ihq =>
    obtain ⟨hdp, hdq⟩ := List.forall_mem_append.mp hd
    obtain ⟨m, hp, hq⟩ := h
    by_cases hkm : k < m
    · exact ihp hp hdp hik hkm
    · exact ihq hq hdq (by omega) hkj
  | alt p q ihp ihq =>
    obtain ⟨hdp, hdq⟩ := List.forall_mem_append.mp hd
    exact h.elim (fun hp => ihp hp hdp hik hkj) fun hq => ihq hq hdq hik hkj
  | rep p least most ih =>
    obtain ⟨n, -, -, hn⟩ := h
    have hbody : ∀ c ∈ p.taken, ∀ a, c a = true → d a = true := hd
    clear hd
    induction n generalizing i with
    | zero =>
      obtain rfl : i = j := hn
      omega
    | succ n ihn =>
      obtain ⟨m, ⟨hp, -⟩, hrest⟩ := hn
      by_cases hkm : k < m
      · exact ih hp hbody hik hkm
      · exact ihn (by omega) hrest
  | notBehind c =>
    obtain rfl : j = i := h.2
    omega
  | notAhead c =>
    obtain rfl : j = i := h.2
    omega

section Related

variable {r : α → α → Prop} (h : List.Forall₂ r w w')
include h

theorem holds_congr (hc : ∀ a b, r a b → c a = c b) (i : Nat) : holds w c i = holds w' c i := by
  induction h generalizing i with
  | nil => rfl
  | cons hab _ ih =>
    cases i with
    | zero => exact hc _ _ hab
    | succ i => exact ih i

/-- **Texts that no class of the pattern tells apart have the same matches.** -/
theorem finditer_congr (hp : ∀ c ∈ p.classes, ∀ a b, r a b → c a = c b) :
    finditer w p = finditer w' p := by
  have hends : ends w p = ends w' p :=
    ends_congr h.length_eq fun c hc => holds_congr h (hp c hc)
  rw [finditer, finditer, h.length_eq, scan_congr hends]

theorem slice_congr {d : α → Bool} (hd : ∀ a b, r a b → d a = true → a = b)
    (hin : ∀ k, i ≤ k → k < j → holds w d k = true) : slice w i j = slice w' i j := by
  have hslices := List.forall₂_drop i (List.forall₂_take j h)
  have hall : ∀ a ∈ slice w i j, d a = true := by
    intro a ha
    obtain ⟨k, hk⟩ := List.mem_iff_getElem?.mp ha
    have hlt : i + k < j := by
      have hlength := (List.getElem?_eq_some_iff.mp hk).1
      rw [slice, List.length_drop, List.length_take] at hlength
      omega
    rw [getElem?_slice hlt] at hk
    obtain ⟨b, hb, hdb⟩ := holds_iff.mp (hin (i + k) (by omega) hlt)
    rwa [Option.some.inj (hk.symm.trans hb)]
  have heq := (List.forall₂_and_left _ _).mpr ⟨hall, hslices⟩
  rw [← List.forall₂_eq_eq_eq]
  exact heq.imp fun a b hab => hd a b hab.2 hab.1

/-- A needle without the symbols that may differ is found in both or in none. -/
theorem infix_of_related {needle : List α} (hneedle : ∀ a ∈ needle, ∀ b, r a b → a = b)
    (hin : needle <:+: w) : needle <:+: w' := by
  obtain ⟨before, after, rfl⟩ := hin
  have hmiddle := List.forall₂_drop before.length
    (List.forall₂_take (before.length + needle.length) h)
  have hsame : List.Forall₂ r needle (slice w' before.length (before.length + needle.length)) := by
    have hleft : ((before ++ needle ++ after).take (before.length + needle.length)).drop
        before.length = needle := by
      rw [← List.length_append, List.take_left, List.drop_left]
    rwa [hleft] at hmiddle
  have heq : needle = slice w' before.length (before.length + needle.length) := by
    rw [← List.forall₂_eq_eq_eq]
    exact ((List.forall₂_and_left _ _).mpr ⟨hneedle, hsame⟩).imp fun a b hab => hab.1 b hab.2
  rw [heq]
  exact (List.drop_suffix _ _).isInfix.trans (List.take_prefix _ _).isInfix

end Related

end Regex
