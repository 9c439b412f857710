import RedactApi.Words

/-!
# Composed text and case folding

Tables give each character a combining class (`0` for a letter, more for a mark), its full
canonical decomposition, its case folding, and what two characters compose to.  `nfd`
decomposes and sorts the marks behind a letter by class.  `nfc` composes the result again:
each mark with the letter before it, unless a mark of its class or a higher one stands
between them.  Both forms keep the decomposition (`nfd_nfc`), so either determines the other.

Folding does not respect the forms.  It works character by character, and can leave a
letter beside a mark that composes with it.  Two conditions on the characters of the
composed text say when nothing of the kind happens: their composed foldings stay composed
side by side (`StaysComposed`), and no mark that folds has to be sorted (`MarksStay`).
Under the first, folding the composed text leads to a fixed point
(`fold_nfc_fold_nfc`); under both, to one that depends only on the decomposed text folded
(`fold_nfc_eq_of_match`).
-/

namespace Normalization

/-- What is listed for each character. -/
structure Tables (α : Type*) where
  combiningClass : α → Nat
  decomposition : α → List α
  composite : α → α → Option α
  folding : α → List α

namespace Tables

variable {α : Type*} (T : Tables α)

/-- A mark goes behind the marks of smaller class. -/
def insertMark (a : α) : List α → List α
  | [] => [a]
  | b :: l =>
    if 0 < T.combiningClass b ∧ T.combiningClass b < T.combiningClass a then
      b :: insertMark a l
    else a :: b :: l

/-- Canonical order: each run of marks sorted by class, marks of one class as they stood. -/
def reorder (l : List α) : List α := l.foldr T.insertMark []

def nfd (l : List α) : List α := T.reorder (l.flatMap T.decomposition)

/-- Composition from a starter on, with the marks that did not compose with it so far. -/
def composeFrom (starter : α) (passed : List α) : List α → List α
  | [] => starter :: passed
  | a :: l =>
    match if passed.all (T.combiningClass · < T.combiningClass a) then T.composite starter a
      else none with
    | some c => composeFrom c passed l
    | none =>
      if T.combiningClass a = 0 then starter :: passed ++ composeFrom a [] l
      else composeFrom starter (passed ++ [a]) l

def compose : List α → List α
  | [] => []
  | a :: l => if T.combiningClass a = 0 then T.composeFrom a [] l else a :: compose l

def nfc (l : List α) : List α := T.compose (T.nfd l)

def fold (l : List α) : List α := l.flatMap T.folding

/-- Each character as its composed folding. -/
def recased (l : List α) : List α := l.flatMap fun a => T.nfc (T.folding a)

/-- The composed foldings of the composed characters need no composing side by side. -/
def StaysComposed (l : List α) : Prop := T.nfc (T.recased (T.nfc l)) = T.recased (T.nfc l)

/-- Marks to be swapped fold to themselves. -/
def Sortable : List α → Prop
  | [] => True
  | a :: l =>
    (∀ b ∈ l.takeWhile (0 < T.combiningClass ·), T.combiningClass b < T.combiningClass a →
      T.folding a = [a] ∧ T.folding b = [b]) ∧ Sortable l

/-- Written out, the composed characters have no marks to be sorted that fold. -/
def MarksStay (l : List α) : Prop := T.Sortable ((T.nfc l).flatMap T.decomposition)

/-- No character that folds to others is among the composed foldings or made of them. -/
def NoneSplits (l : List α) : Prop :=
  ∀ a ∈ T.recased (T.nfc l) ++ T.nfc (T.recased (T.nfc l)), T.folding a = [a]

def IsComposed (a : α) : Prop := T.decomposition a = [a] ∨ ∃ b c, T.composite b c = some a

instance [DecidableEq α] (l : List α) : Decidable (T.StaysComposed l) :=
  inferInstanceAs (Decidable (_ = _))

instance decidableSortable [DecidableEq α] : ∀ l, Decidable (T.Sortable l)
  | [] => isTrue trivial
  | _ :: l => @instDecidableAnd _ _ inferInstance (decidableSortable l)

instance [DecidableEq α] (l : List α) : Decidable (T.MarksStay l) :=
  inferInstanceAs (Decidable (T.Sortable _))

instance [DecidableEq α] (l : List α) : Decidable (T.NoneSplits l) :=
  inferInstanceAs (Decidable (∀ a ∈ T.recased (T.nfc l) ++ T.nfc (T.recased (T.nfc l)),
    T.folding a = [a]))

end Tables

/-- The laws of the tables. -/
structure CharacterData (α : Type*) extends Tables α where
  decomposition_decomposition : ∀ a, ∀ b ∈ decomposition a, decomposition b = [b]
  decomposition_composite : ∀ {a b c}, composite a b = some c →
    decomposition c = decomposition a ++ decomposition b
  folding_decomposition : ∀ a, toTables.nfd (folding a) = toTables.nfd (toTables.fold (decomposition a))
  folding_recomposed : ∀ a, toTables.IsComposed a →
    toTables.fold (toTables.nfc (folding a)) = folding a

/-! ### Sorting marks -/

namespace Tables

variable {α : Type*} {T : Tables α} {a b s : α} {l m : List α}

theorem insertMark_of_starter (hs : T.combiningClass s = 0) (l : List α) :
    T.insertMark s l = s :: l := by
  cases l with
  | nil => rfl
  | cons b l => rw [insertMark, if_neg (by omega)]

/-- Marks of different classes may be inserted in either order. -/
theorem insertMark_comm (ha : 0 < T.combiningClass a)
    (hab : T.combiningClass a < T.combiningClass b) (l : List α) :
    T.insertMark a (T.insertMark b l) = T.insertMark b (T.insertMark a l) := by
  have hba : ¬(0 < T.combiningClass b ∧ T.combiningClass b < T.combiningClass a) := by omega
  induction l with
  | nil => simp only [insertMark, if_neg hba, if_pos (And.intro ha hab)]
  | cons d l ih =>
    by_cases hd : 0 < T.combiningClass d ∧ T.combiningClass d < T.combiningClass a
    · -- `d` comes before both
      have hdb : 0 < T.combiningClass d ∧ T.combiningClass d < T.combiningClass b := by omega
      simp only [insertMark, if_pos hd, if_pos hdb, ih]
    · by_cases hdb : 0 < T.combiningClass d ∧ T.combiningClass d < T.combiningClass b
      · simp only [insertMark, if_neg hd, if_pos hdb, if_pos (And.intro ha hab)]
      · simp only [insertMark, if_neg hd, if_neg hdb, if_neg hba, if_pos (And.intro ha hab)]

@[simp] theorem reorder_nil : T.reorder [] = [] := rfl

@[simp] theorem reorder_cons (a : α) (l : List α) :
    T.reorder (a :: l) = T.insertMark a (T.reorder l) := rfl

theorem reorder_append (l m : List α) :
    T.reorder (l ++ m) = l.foldr T.insertMark (T.reorder m) := List.foldr_append

theorem reorder_congr_right (l : List α) {m m' : List α} (h : T.reorder m = T.reorder m') :
    T.reorder (l ++ m) = T.reorder (l ++ m') := by rw [reorder_append, reorder_append, h]

theorem foldr_insertMark (a : α) (l z : List α) :
    (T.insertMark a l).foldr T.insertMark z = T.insertMark a (l.foldr T.insertMark z) := by
  induction l with
  | nil => rfl
  | cons b l ih =>
    rw [insertMark]
    split
    · rename_i h
      rw [List.foldr_cons, List.foldr_cons, ih, insertMark_comm h.1 h.2]
    · rfl

theorem reorder_reorder_append (l m : List α) :
    T.reorder (T.reorder l ++ m) = T.reorder (l ++ m) := by
  rw [reorder_append, reorder_append]
  induction l with
  | nil => rfl
  | cons a l ih => rw [reorder_cons, foldr_insertMark, ih, List.foldr_cons]

@[simp] theorem reorder_reorder (l : List α) : T.reorder (T.reorder l) = T.reorder l := by
  simpa using reorder_reorder_append l []

theorem reorder_append_reorder (l m : List α) :
    T.reorder (l ++ T.reorder m) = T.reorder (l ++ m) :=
  reorder_congr_right l (reorder_reorder m)

/-- A mark may stand on either side of marks of smaller class. -/
theorem reorder_cons_append (hm : ∀ b ∈ m, 0 < T.combiningClass b ∧
    T.combiningClass b < T.combiningClass a) (l : List α) :
    T.reorder (a :: (m ++ l)) = T.reorder (m ++ a :: l) := by
  induction m with
  | nil => rfl
  | cons b m ih =>
    obtain ⟨hb, hm⟩ := List.forall_mem_cons.mp hm
    rw [List.cons_append, List.cons_append, reorder_cons, reorder_cons, reorder_cons, ← ih hm,
      reorder_cons, insertMark_comm hb.1 hb.2]

theorem perm_insertMark (a : α) (l : List α) : (T.insertMark a l).Perm (a :: l) := by
  induction l with
  | nil => exact .refl _
  | cons b l ih =>
    rw [insertMark]
    split
    · exact (ih.cons b).trans (.swap a b l)
    · exact .refl _

theorem perm_reorder (l : List α) : (T.reorder l).Perm l := by
  induction l with
  | nil => exact .refl _
  | cons a l ih => exact (perm_insertMark a _).trans (ih.cons a)

/-- Nothing moves past a letter. -/
theorem insertMark_append (hs : T.combiningClass s = 0) (a : α) (l m : List α) :
    T.insertMark a (l ++ s :: m) = T.insertMark a l ++ s :: m := by
  induction l with
  | nil =>
    have hbefore : ¬(0 < T.combiningClass s ∧ T.combiningClass s < T.combiningClass a) := by omega
    simp only [List.nil_append, insertMark, if_neg hbefore, List.cons_append]
  | cons b l ih =>
    rw [List.cons_append, insertMark, insertMark]
    split
    · rw [ih, List.cons_append]
    · rfl

theorem reorder_append_cons (hs : T.combiningClass s = 0) (l m : List α) :
    T.reorder (l ++ s :: m) = T.reorder l ++ s :: T.reorder m := by
  induction l with
  | nil => rw [List.nil_append, reorder_cons, insertMark_of_starter hs]; rfl
  | cons a l ih => rw [List.cons_append, reorder_cons, reorder_cons, ih, insertMark_append hs]

end Tables

/-! ### Composing keeps the decomposition -/

namespace CharacterData

variable {α : Type*} (T : CharacterData α) {l m : List α}

/-- Nothing is left to decompose. -/
def Decomposed (l : List α) : Prop := ∀ a ∈ l, T.decomposition a = [a]

variable {T}

theorem decomposed_cons {a : α} :
    T.Decomposed (a :: l) ↔ T.decomposition a = [a] ∧ T.Decomposed l := List.forall_mem_cons

theorem Decomposed.flatMap (h : T.Decomposed l) : l.flatMap T.decomposition = l := by
  induction l with
  | nil => rfl
  | cons a l ih =>
    obtain ⟨ha, hl⟩ := decomposed_cons.mp h
    rw [List.flatMap_cons, ha, ih hl, List.singleton_append]

theorem decomposed_flatMap (l : List α) : T.Decomposed (l.flatMap T.decomposition) := by
  intro b hb
  obtain ⟨a, -, hb⟩ := List.mem_flatMap.mp hb
  exact T.decomposition_decomposition a b hb

theorem decomposed_nfd (l : List α) : T.Decomposed (T.nfd l) := fun a ha =>
  decomposed_flatMap l a ((Tables.perm_reorder _).mem_iff.mp ha)

theorem Decomposed.nfd (h : T.Decomposed l) : T.nfd l = T.reorder l := by
  rw [Tables.nfd, h.flatMap]

theorem nfd_append (l m : List α) : T.nfd (l ++ m) = T.reorder (T.nfd l ++ T.nfd m) := by
  rw [Tables.nfd, List.flatMap_append, Tables.nfd, Tables.nfd, Tables.reorder_reorder_append,
    Tables.reorder_append_reorder]

theorem nfd_append_congr {l' m' : List α} (hl : T.nfd l = T.nfd l') (hm : T.nfd m = T.nfd m') :
    T.nfd (l ++ m) = T.nfd (l' ++ m') := by rw [nfd_append, nfd_append, hl, hm]

@[simp] theorem nfd_nfd (l : List α) : T.nfd (T.nfd l) = T.nfd l := by
  rw [(decomposed_nfd l).nfd, Tables.nfd, Tables.reorder_reorder]

theorem nfd_flatMap_congr {f g : α → List α} (h : ∀ a ∈ l, T.nfd (f a) = T.nfd (g a)) :
    T.nfd (l.flatMap f) = T.nfd (l.flatMap g) := by
  induction l with
  | nil => rfl
  | cons a l ih =>
    obtain ⟨ha, hl⟩ := List.forall_mem_cons.mp h
    exact nfd_append_congr ha (ih hl)

/-- What composes with the starter could as well stand right behind it. -/
theorem nfd_composeFrom (l : List α) : ∀ (starter : α) (passed : List α),
    T.Decomposed l → T.Decomposed passed → (∀ b ∈ passed, 0 < T.combiningClass b) →
    T.nfd (T.composeFrom starter passed l) = T.reorder (T.decomposition starter ++ (passed ++ l)) := by
  induction l with
  | nil =>
    intro starter passed _ hpassed _
    rw [Tables.composeFrom, Tables.nfd, List.flatMap_cons, hpassed.flatMap, List.append_nil]
  | cons a l ih =>
    intro starter passed hl hpassed hmarks
    obtain ⟨ha, hl⟩ := decomposed_cons.mp hl
    rw [Tables.composeFrom]
    split
    · rename_i c hc
      obtain ⟨hunblocked, hc⟩ := Option.ite_none_right_eq_some.mp hc
      have hsmaller : ∀ b ∈ passed, 0 < T.combiningClass b ∧
          T.combiningClass b < T.combiningClass a := fun b hb =>
        ⟨hmarks b hb, of_decide_eq_true (List.all_eq_true.mp hunblocked b hb)⟩
      rw [ih c passed hl hpassed hmarks, T.decomposition_composite hc, ha, List.append_assoc]
      exact Tables.reorder_congr_right _ (Tables.reorder_cons_append hsmaller l)
    · split
      · have hrest : T.nfd (T.composeFrom a [] l) = T.nfd (a :: l) := by
          rw [ih a [] hl (by simp [Decomposed]) (by simp), List.nil_append,
            Tables.nfd, List.flatMap_cons, hl.flatMap]
        rw [nfd_append, hrest, ← nfd_append, Tables.nfd, List.flatMap_append, List.flatMap_cons,
          hpassed.flatMap, (decomposed_cons.mpr ⟨ha, hl⟩).flatMap, List.append_assoc]
      · rename_i hmark
        rw [ih starter (passed ++ [a]) hl, List.append_assoc, List.singleton_append]
        · exact List.forall_mem_append.mpr ⟨hpassed, by simpa [Decomposed] using ha⟩
        · exact List.forall_mem_append.mpr ⟨hmarks, by simpa using Nat.pos_of_ne_zero hmark⟩

theorem nfd_compose (h : T.Decomposed l) : T.nfd (T.compose l) = T.reorder l := by
  induction l with
  | nil => rfl
  | cons a l ih =>
    obtain ⟨ha, hl⟩ := decomposed_cons.mp h
    rw [Tables.compose]
    split
    · rw [nfd_composeFrom l a [] hl (by simp [Decomposed]) (by simp), ha]
      rfl
    · rw [← List.singleton_append, nfd_append, ih hl, Tables.reorder_append_reorder,
        Tables.nfd, List.flatMap_singleton, ha, Tables.reorder_reorder_append, List.singleton_append]

/-- **Composed text decomposes as before.** -/
@[simp] theorem nfd_nfc (l : List α) : T.nfd (T.nfc l) = T.nfd l := by
  rw [Tables.nfc, nfd_compose (decomposed_nfd l), Tables.nfd, Tables.reorder_reorder]

theorem nfc_congr (h : T.nfd l = T.nfd m) : T.nfc l = T.nfc m := congrArg T.compose h

theorem forall_mem_composeFrom {P : α → Prop} (hP : ∀ a b c, T.composite a b = some c → P c)
    (l : List α) : ∀ (starter : α) (passed : List α), P starter → (∀ a ∈ passed, P a) →
    (∀ a ∈ l, P a) → ∀ a ∈ T.composeFrom starter passed l, P a := by
  induction l with
  | nil => intro starter passed hstarter hpassed _; exact List.forall_mem_cons.mpr ⟨hstarter, hpassed⟩
  | cons b l ih =>
    intro starter passed hstarter hpassed hl
    obtain ⟨hb, hl⟩ := List.forall_mem_cons.mp hl
    rw [Tables.composeFrom]
    split
    · rename_i c hc
      exact ih c passed (hP _ _ _ (Option.ite_none_right_eq_some.mp hc).2) hpassed hl
    · split
      · exact List.forall_mem_append.mpr
          ⟨List.forall_mem_cons.mpr ⟨hstarter, hpassed⟩, ih b [] hb (by simp) hl⟩
      · exact ih starter (passed ++ [b]) hstarter
          (List.forall_mem_append.mpr ⟨hpassed, by simpa using hb⟩) hl

theorem forall_mem_compose {P : α → Prop} (hP : ∀ a b c, T.composite a b = some c → P c)
    (h : ∀ a ∈ l, P a) : ∀ a ∈ T.compose l, P a := by
  induction l with
  | nil => simp [Tables.compose]
  | cons b l ih =>
    obtain ⟨hb, hl⟩ := List.forall_mem_cons.mp h
    rw [Tables.compose]
    split
    · exact forall_mem_composeFrom hP l b [] hb (by simp) hl
    · exact List.forall_mem_cons.mpr ⟨hb, ih hl⟩

theorem isComposed_nfc (l : List α) : ∀ a ∈ T.nfc l, T.IsComposed a :=
  forall_mem_compose (fun a b _ h => Or.inr ⟨a, b, h⟩) fun a ha => Or.inl (decomposed_nfd l a ha)

/-! ### Folding composed text -/

theorem fold_recased (h : ∀ a ∈ l, T.IsComposed a) : T.fold (T.recased l) = T.fold l := by
  rw [Tables.fold, Tables.recased, List.flatMap_assoc, Tables.fold]
  exact List.flatMap_congr fun a ha => T.folding_recomposed a (h a ha)

theorem nfc_fold (l : List α) : T.nfc (T.fold l) = T.nfc (T.recased l) :=
  nfc_congr (nfd_flatMap_congr fun _ _ => (nfd_nfc _).symm)

/-- **Folding leads to a fixed point where the composed foldings stay composed.** -/
theorem fold_nfc_fold_nfc (h : T.StaysComposed l) :
    T.fold (T.nfc (T.fold (T.nfc l))) = T.fold (T.nfc l) := by
  rw [nfc_fold, h, fold_recased (isComposed_nfc l)]

theorem fold_eq_self (h : ∀ a ∈ l, T.folding a = [a]) : T.fold l = l := by
  induction l with
  | nil => rfl
  | cons a l ih =>
    obtain ⟨ha, hl⟩ := List.forall_mem_cons.mp h
    rw [Tables.fold, List.flatMap_cons, ha, ← Tables.fold, ih hl, List.singleton_append]

/-- The condition is exact unless composing meets characters that fold to others. -/
theorem staysComposed_iff (hsplits : T.NoneSplits l) :
    T.StaysComposed l ↔ T.fold (T.nfc (T.fold (T.nfc l))) = T.fold (T.nfc l) := by
  obtain ⟨hrecased, hnfc⟩ := List.forall_mem_append.mp hsplits
  rw [nfc_fold, ← fold_recased (isComposed_nfc l), fold_eq_self hrecased, fold_eq_self hnfc]
  rfl

/-! ### Folding decomposed text -/

theorem nfd_swap {a b : α} (ha : T.decomposition a = [a]) (hb : T.decomposition b = [b])
    (hpos : 0 < T.combiningClass b) (hlt : T.combiningClass b < T.combiningClass a) (l : List α) :
    T.nfd (b :: a :: l) = T.nfd (a :: b :: l) := by
  simp only [Tables.nfd, List.flatMap_cons, ha, hb, List.singleton_append, Tables.reorder_cons]
  exact Tables.insertMark_comm hpos hlt _

/-- A mark may be sorted in before folding if it and the marks it passes fold to themselves. -/
theorem nfd_fold_insertMark {a : α} (ha : T.decomposition a = [a]) (hl : T.Decomposed l)
    (hfold : ∀ b ∈ l.takeWhile (0 < T.combiningClass ·), T.combiningClass b < T.combiningClass a →
      T.folding a = [a] ∧ T.folding b = [b]) :
    T.nfd (T.fold (T.insertMark a l)) = T.nfd (T.fold (a :: l)) := by
  induction l with
  | nil => rfl
  | cons b l ih =>
    obtain ⟨hb, hl⟩ := decomposed_cons.mp hl
    rw [Tables.insertMark]
    split
    · rename_i hlt
      rw [List.takeWhile_cons_of_pos (by simpa using hlt.1)] at hfold
      obtain ⟨hbfold, hfold⟩ := List.forall_mem_cons.mp hfold
      obtain ⟨hafold, hbfold⟩ := hbfold hlt.2
      have hafirst : T.fold (a :: l) = a :: T.fold l := by
        rw [Tables.fold, List.flatMap_cons, hafold]; rfl
      calc T.nfd (T.fold (b :: T.insertMark a l))
          = T.nfd ([b] ++ T.fold (T.insertMark a l)) := by
            rw [Tables.fold, List.flatMap_cons, hbfold]; rfl
        _ = T.nfd ([b] ++ T.fold (a :: l)) := nfd_append_congr rfl (ih hl hfold)
        _ = T.nfd (b :: a :: T.fold l) := by rw [hafirst]; rfl
        _ = T.nfd (a :: b :: T.fold l) := nfd_swap ha hb hlt.1 hlt.2 _
        _ = T.nfd (T.fold (a :: b :: l)) := by
            simp only [Tables.fold, List.flatMap_cons, hafold, hbfold, List.singleton_append]
    · rfl

/-- Sorting keeps each run of marks together. -/
theorem mem_takeWhile_insertMark {a b : α}
    (h : b ∈ (T.insertMark a l).takeWhile (0 < T.combiningClass ·)) :
    b ∈ (a :: l).takeWhile (0 < T.combiningClass ·) := by
  induction l with
  | nil => exact h
  | cons c l ih =>
    rw [Tables.insertMark] at h
    split at h
    · rename_i hlt
      have ha : 0 < T.combiningClass a := by omega
      rw [List.takeWhile_cons_of_pos (by simpa using hlt.1)] at h
      rw [List.takeWhile_cons_of_pos (by simpa using ha)] at ih ⊢
      rw [List.takeWhile_cons_of_pos (by simpa using hlt.1)]
      grind
    · exact h

theorem mem_takeWhile_reorder {b : α}
    (h : b ∈ (T.reorder l).takeWhile (0 < T.combiningClass ·)) :
    b ∈ l.takeWhile (0 < T.combiningClass ·) := by
  induction l with
  | nil => exact h
  | cons a l ih =>
    have hmem := mem_takeWhile_insertMark h
    rw [List.takeWhile_cons] at hmem ⊢
    split at hmem
    · rename_i ha
      rw [if_pos ha]
      exact (List.mem_cons.mp hmem).elim (fun h => h ▸ List.mem_cons_self)
        fun h => List.mem_cons_of_mem a (ih h)
    · exact absurd hmem List.not_mem_nil

theorem nfd_fold_reorder (hl : T.Decomposed l) (hsort : T.Sortable l) :
    T.nfd (T.fold (T.reorder l)) = T.nfd (T.fold l) := by
  induction l with
  | nil => rfl
  | cons a l ih =>
    obtain ⟨ha, hl⟩ := decomposed_cons.mp hl
    obtain ⟨hfold, hsort⟩ := hsort
    have hreorder : T.Decomposed (T.reorder l) := fun b hb =>
      hl b ((Tables.perm_reorder l).mem_iff.mp hb)
    rw [Tables.reorder_cons,
      nfd_fold_insertMark ha hreorder fun b hb => hfold b (mem_takeWhile_reorder hb)]
    exact nfd_append_congr rfl (ih hl hsort)

/-- Composing before folding changes nothing up to decomposition, unless marks that fold
have to be sorted. -/
theorem nfd_fold_nfc (h : T.MarksStay l) : T.nfd (T.fold (T.nfc l)) = T.nfd (T.fold (T.nfd l)) := by
  have hpieces : T.nfd (T.fold (T.nfc l)) = T.nfd (T.fold ((T.nfc l).flatMap T.decomposition)) := by
    rw [Tables.fold, nfd_flatMap_congr fun a _ => T.folding_decomposition a, Tables.fold,
      List.flatMap_assoc]
    rfl
  have hsorted : T.reorder ((T.nfc l).flatMap T.decomposition) = T.nfd l := nfd_nfc l
  rw [hpieces, ← nfd_fold_reorder (decomposed_flatMap _) h, hsorted]

/-- **Under both conditions the folded text depends on the canonical folding alone.** -/
theorem fold_nfc_eq_of_match (hlstays : T.StaysComposed l) (hlmarks : T.MarksStay l)
    (hmstays : T.StaysComposed m) (hmmarks : T.MarksStay m)
    (h : T.nfd (T.fold (T.nfd l)) = T.nfd (T.fold (T.nfd m))) :
    T.fold (T.nfc l) = T.fold (T.nfc m) := by
  have hnfc : T.nfc (T.fold (T.nfc l)) = T.nfc (T.fold (T.nfc m)) :=
    nfc_congr (by rw [nfd_fold_nfc hlmarks, nfd_fold_nfc hmmarks, h])
  rw [← fold_nfc_fold_nfc hlstays, hnfc, fold_nfc_fold_nfc hmstays]

/-! ### Separators -/

/-- Characters of this kind stay apart from all others. -/
structure Separates (T : CharacterData α) (sep : α → Bool) : Prop where
  starter : ∀ {a}, sep a = true → T.combiningClass a = 0
  decomposition : ∀ {a}, sep a = true → ∃ b, sep b = true ∧ T.decomposition a = [b]
  decomposition_word : ∀ {a}, sep a = false → Words.IsWord sep (T.decomposition a)
  folding : ∀ {a}, sep a = true → ∃ b, sep b = true ∧ T.folding a = [b]
  folding_word : ∀ {a}, sep a = false → Words.IsWord sep (T.folding a)
  composite_left : ∀ {a b}, sep a = true → T.composite a b = none
  composite_right : ∀ {a b}, sep b = true → T.composite a b = none
  composite_word : ∀ a b c, T.composite a b = some c → sep c = false

namespace Separates

variable {sep : α → Bool} (h : T.Separates sep)
include h

theorem isWord_nfd {w : List α} (hw : Words.IsWord sep w) : Words.IsWord sep (T.nfd w) := by
  have hword := hw.flatMap h.decomposition_word
  have hperm := Tables.perm_reorder (T := T.toTables) (w.flatMap T.decomposition)
  refine ⟨fun hnil => hword.ne_nil ?_, fun a ha => hword.no_sep a (hperm.mem_iff.mp ha)⟩
  exact List.perm_nil.mp (hnil ▸ hperm.symm)

theorem nfd_append_cons {s : α} (hs : sep s = true) (l m : List α) :
    ∃ b, sep b = true ∧ T.nfd (l ++ s :: m) = T.nfd l ++ b :: T.nfd m := by
  obtain ⟨b, hb, hdecomposition⟩ := h.decomposition hs
  refine ⟨b, hb, ?_⟩
  rw [Tables.nfd, List.flatMap_append, List.flatMap_cons, hdecomposition, List.singleton_append,
    Tables.reorder_append_cons (h.starter hb)]
  rfl

theorem composeFrom_separator {s : α} (hs : sep s = true) (l : List α) : ∀ passed : List α,
    T.composeFrom s passed l = s :: passed ++ T.compose l := by
  induction l with
  | nil => intro passed; rw [Tables.composeFrom, Tables.compose, List.append_nil]
  | cons a l ih =>
    intro passed
    rw [Tables.composeFrom, h.composite_left hs, ite_self, Tables.compose]
    dsimp only
    split
    · rfl
    · rw [ih, List.cons_append, List.append_assoc, List.singleton_append, List.cons_append]

theorem composeFrom_append_cons {s : α} (hs : sep s = true) (m l : List α) :
    ∀ (starter : α) (passed : List α),
      T.composeFrom starter passed (l ++ s :: m) =
        T.composeFrom starter passed l ++ s :: T.compose m := by
  have hstarter := h.starter hs
  induction l with
  | nil =>
    intro starter passed
    rw [List.nil_append, Tables.composeFrom, Tables.composeFrom, h.composite_right hs, ite_self]
    dsimp only
    rw [if_pos hstarter, h.composeFrom_separator hs]
    rfl
  | cons a l ih =>
    intro starter passed
    rw [List.cons_append, Tables.composeFrom, Tables.composeFrom]
    split
    · exact ih _ _
    · split
      · rw [ih, List.append_assoc]
      · exact ih _ _

theorem compose_append_cons {s : α} (hs : sep s = true) (l m : List α) :
    T.compose (l ++ s :: m) = T.compose l ++ s :: T.compose m := by
  induction l with
  | nil =>
    rw [List.nil_append, Tables.compose, Tables.compose, if_pos (h.starter hs),
      h.composeFrom_separator hs]
    rfl
  | cons a l ih =>
    rw [List.cons_append, Tables.compose, Tables.compose]
    split
    · exact h.composeFrom_append_cons hs m l a []
    · rw [ih, List.cons_append]

theorem isWord_nfc {w : List α} (hw : Words.IsWord sep w) : Words.IsWord sep (T.nfc w) := by
  have hword := h.isWord_nfd hw
  refine ⟨fun hnil => hword.ne_nil ?_, forall_mem_compose h.composite_word hword.no_sep⟩
  rw [← nfd_nfc, hnil]
  rfl

theorem words_nfd (l : List α) : Words.words sep (T.nfd l) = (Words.words sep l).map T.nfd :=
  Words.words_apply rfl (fun _ hw => h.isWord_nfd hw) (fun s _ t hs => h.nfd_append_cons hs s t) l

theorem words_nfc (l : List α) : Words.words sep (T.nfc l) = (Words.words sep l).map T.nfc := by
  refine Words.words_apply rfl (fun w hw => h.isWord_nfc hw) (fun s a t ha => ?_) l
  obtain ⟨b, hb, hnfd⟩ := h.nfd_append_cons ha s t
  refine ⟨b, hb, ?_⟩
  change T.compose (T.nfd (s ++ a :: t)) = _
  rw [hnfd, h.compose_append_cons hb]
  rfl

theorem words_fold (l : List α) : Words.words sep (T.fold l) = (Words.words sep l).map T.fold := by
  refine Words.words_apply rfl (fun w hw => hw.flatMap h.folding_word) (fun s a t ha => ?_) l
  obtain ⟨b, hb, hfolding⟩ := h.folding ha
  refine ⟨b, hb, ?_⟩
  rw [List.flatMap_append, List.flatMap_cons, hfolding, List.singleton_append]

end Separates
end CharacterData
end Normalization
