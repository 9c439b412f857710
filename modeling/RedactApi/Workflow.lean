import Mathlib.Logic.Function.Basic
import Mathlib.Logic.Relation

/-!
# A workflow that decides on items

A case starts with an original.  Once its items have been found they are reviewed: each is
approved or not, and a reviewer may change them or add more.  When all are decided the case
is closed, and an output is made of the original and of the approved items.  It is released
later.

`Case.Step` is what may happen to a case, `Board.Step` what may happen to a board of them.  A
system that keeps cases is compared with this by a map to boards.  What holds of the runs of
a board (`Case.Run.frozen`, `Case.Run.kept`, `Board.sound_of_run`) then holds of it.
-/

namespace Workflow

inductive Stage
  | received | prepared | review | closed | passed | released | rejected
  deriving DecidableEq, Repr

def Stage.fallible : List Stage := [.received, .prepared, .closed]

def Stage.settled : List Stage := [.closed, .passed, .released]

def Stage.done : List Stage := [.passed, .released]

def Stage.found : List Stage := [.review, .closed, .passed, .released, .rejected]

def Stage.final : List Stage := [.closed, .passed, .released, .rejected]

theorem Stage.settled_of_done : Stage.done ⊆ Stage.settled := by decide

/-- Something to decide on: `some true` approves it. -/
structure Item (ι α : Type) where
  id : ι
  content : α
  decision : Option Bool

/-- An original, what has been found on it, and what has been made of it. -/
structure Case (ι α γ β : Type) where
  stage : Stage
  original : γ
  items : List (Item ι α)
  output : Option β

section

variable {ι α γ β κ : Type}

/-! ### Reviews -/

/-- Only a decision on an item changes it. -/
structure Item.Amended (x y : Item ι α) : Prop where
  id : y.id = x.id
  decided : y = x ∨ y.decision.isSome

theorem Item.Amended.refl (x : Item ι α) : Item.Amended x x := ⟨rfl, Or.inl rfl⟩

theorem Item.Amended.trans {x y z : Item ι α} (h : Item.Amended x y) (h' : Item.Amended y z) :
    Item.Amended x z where
  id := h'.id.trans h.id
  decided := by
    rcases h'.decided with rfl | hz
    · exact h.decided
    · exact Or.inr hz

theorem Item.Amended.isSome {x y : Item ι α} (h : Item.Amended x y) (hx : x.decision.isSome) :
    y.decision.isSome := by
  rcases h.decided with rfl | hy
  · exact hx
  · exact hy

/-- A review keeps every item, and what it changes or adds it decides. -/
inductive Reviews : List (Item ι α) → List (Item ι α) → Prop
  | added {l} : (∀ x ∈ l, x.decision.isSome) → Reviews [] l
  | kept {x y l l'} : Item.Amended x y → Reviews l l' → Reviews (x :: l) (y :: l')

/-- Items changed one by one, and items that are new. -/
theorem reviews_map {δ : Type} {f g : δ → Item ι α} {l : List δ} {added : List (Item ι α)}
    (h : ∀ r ∈ l, Item.Amended (f r) (g r)) (hadded : ∀ x ∈ added, x.decision.isSome) :
    Reviews (l.map f) (l.map g ++ added) := by
  induction l with
  | nil => exact .added hadded
  | cons r l ih =>
    exact .kept (h r List.mem_cons_self) (ih fun r' hr' => h r' (List.mem_cons_of_mem r hr'))

theorem Reviews.refl (l : List (Item ι α)) : Reviews l l := by
  induction l with
  | nil => exact .added fun _ h => absurd h List.not_mem_nil
  | cons x l ih => exact .kept (.refl x) ih

theorem Reviews.mem {l l' : List (Item ι α)} (h : Reviews l l') {x : Item ι α} (hx : x ∈ l) :
    ∃ y ∈ l', Item.Amended x y := by
  induction h with
  | added _ => exact absurd hx List.not_mem_nil
  | @kept a b l l' hab _ ih =>
    rcases List.mem_cons.mp hx with rfl | hx
    · exact ⟨b, List.mem_cons_self, hab⟩
    · obtain ⟨y, hy, hxy⟩ := ih hx
      exact ⟨y, List.mem_cons_of_mem b hy, hxy⟩

/-- What is still open was there, and was like that. -/
theorem Reviews.open {l l' : List (Item ι α)} (h : Reviews l l') {y : Item ι α} (hy : y ∈ l')
    (hnone : y.decision = none) : y ∈ l := by
  induction h with
  | added hall =>
    have hsome := hall y hy
    rw [hnone] at hsome
    cases hsome
  | @kept a b l l' hab _ ih =>
    rcases List.mem_cons.mp hy with rfl | hy
    · rcases hab.decided with rfl | hsome
      · exact List.mem_cons_self
      · rw [hnone] at hsome
        cases hsome
    · exact List.mem_cons_of_mem a (ih hy)

theorem Reviews.decided {l l' : List (Item ι α)} (h : Reviews l l')
    (hl : ∀ x ∈ l, x.decision.isSome) : ∀ y ∈ l', y.decision.isSome := by
  intro y hy
  by_contra hnone
  have hopen := h.open hy (by simpa using hnone)
  exact hnone (hl y hopen)

theorem Reviews.trans {a b c : List (Item ι α)} (h : Reviews a b) (h' : Reviews b c) :
    Reviews a c := by
  induction h generalizing c with
  | added hall => exact .added (h'.decided hall)
  | kept hxy _ ih =>
    cases h' with
    | kept hyz hrest => exact .kept (hxy.trans hyz) (ih hrest)

/-! ### A case -/

namespace Case

def approved (c : Case ι α γ β) : List α :=
  (c.items.filter (·.decision = some true)).map (·.content)

def received (original : γ) : Case ι α γ β := ⟨.received, original, [], none⟩

/-- What may happen to a case, where `make` makes outputs. -/
inductive Step (make : γ → List α → Option β) (c : Case ι α γ β) : Case ι α γ β → Prop
  | prepare : c.stage = .received → Step make c { c with stage := .prepared }
  | find {items : List (Item ι α)} : c.stage = .prepared → (∀ x ∈ items, x.decision = none) →
      Step make c { c with stage := .review, items := items }
  | review {items : List (Item ι α)} : c.stage = .review → Reviews c.items items →
      Step make c { c with items := items }
  | close : c.stage = .review → (∀ x ∈ c.items, x.decision.isSome) →
      Step make c { c with stage := .closed }
  | pass {output : β} : c.stage = .closed → make c.original c.approved = some output →
      Step make c { c with stage := .passed, output := some output }
  | release : c.stage = .passed → Step make c { c with stage := .released }
  | reject : c.stage ∈ Stage.fallible → Step make c { c with stage := .rejected }

abbrev Run (make : γ → List α → Option β) : Case ι α γ β → Case ι α γ β → Prop :=
  Relation.ReflTransGen (Step make)

variable {make : γ → List α → Option β} {c c' : Case ι α γ β}

/-- What is so in every case. -/
structure Sound (make : γ → List α → Option β) (c : Case ι α γ β) : Prop where
  decided : c.stage ∈ Stage.settled → ∀ x ∈ c.items, x.decision.isSome
  output : c.stage ∈ Stage.done → c.output.isSome ∧ c.output = make c.original c.approved

theorem sound_received (original : γ) : Sound make (received original : Case ι α γ β) where
  decided h := absurd h (show Stage.received ∉ Stage.settled by decide)
  output h := absurd h (show Stage.received ∉ Stage.done by decide)

theorem Step.sound (hs : Step make c c') (h : Sound make c) : Sound make c' := by
  cases hs with
  | prepare => exact ⟨fun hm => absurd hm (show Stage.prepared ∉ _ by decide),
      fun hm => absurd hm (show Stage.prepared ∉ _ by decide)⟩
  | find => exact ⟨fun hm => absurd hm (show Stage.review ∉ _ by decide),
      fun hm => absurd hm (show Stage.review ∉ _ by decide)⟩
  | review hst =>
    have hopen : Stage.review ∉ Stage.settled := by decide
    exact ⟨fun hm => absurd (hst ▸ hm) hopen,
      fun hm => absurd (hst ▸ Stage.settled_of_done hm) hopen⟩
  | close _ hall => exact ⟨fun _ => hall, fun hm => absurd hm (show Stage.closed ∉ _ by decide)⟩
  | pass hst hmake =>
    have hsettled : c.stage ∈ Stage.settled := by
      rw [hst]
      decide
    exact ⟨fun _ => h.decided hsettled, fun _ => ⟨rfl, hmake.symm⟩⟩
  | release hst =>
    have hdone : c.stage ∈ Stage.done := by
      rw [hst]
      decide
    exact ⟨fun _ => h.decided (Stage.settled_of_done hdone), fun _ => h.output hdone⟩
  | reject => exact ⟨fun hm => absurd hm (show Stage.rejected ∉ _ by decide),
      fun hm => absurd hm (show Stage.rejected ∉ _ by decide)⟩

theorem Run.sound (hr : Run make c c') (h : Sound make c) : Sound make c' := by
  induction hr with
  | refl => exact h
  | tail _ hs ih => exact hs.sound ih

/-! ### Runs of a case -/

theorem Step.original (hs : Step make c c') : c'.original = c.original := by
  cases hs <;> rfl

theorem Run.original (hr : Run make c c') : c'.original = c.original := by
  induction hr with
  | refl => rfl
  | tail _ hs ih => exact hs.original.trans ih

/-- What one step from some stages does, where it leads to such a stage again, a run does. -/
theorem Run.keeps {stages : List Stage} {R : Case ι α γ β → Case ι α γ β → Prop}
    (refl : ∀ c, R c c) (trans : ∀ a b c, R a b → R b c → R a c)
    (step : ∀ c c', Step make c c' → c.stage ∈ stages → c'.stage ∈ stages ∧ R c c')
    (hr : Run make c c') (h : c.stage ∈ stages) : c'.stage ∈ stages ∧ R c c' := by
  induction hr with
  | refl => exact ⟨h, refl c⟩
  | @tail b d _ hs ih =>
    obtain ⟨hb, hcb⟩ := ih
    obtain ⟨hd, hbd⟩ := step b d hs hb
    exact ⟨hd, trans c b d hcb hbd⟩

/-- **A review only adds to what has been decided**, as long as the case lasts. -/
theorem Run.kept (hr : Run make c c') (h : c.stage ∈ Stage.found) : Reviews c.items c'.items := by
  refine (hr.keeps (R := fun a b => Reviews a.items b.items) (fun a => .refl _)
    (fun _ _ _ h h' => h.trans h') (fun a b hs hst => ?_) h).2
  cases hs with
  | prepare he => exact absurd (he ▸ hst) (by decide)
  | find he => exact absurd (he ▸ hst) (by decide)
  | review he hitems => exact ⟨hst, hitems⟩
  | close => exact ⟨show Stage.closed ∈ Stage.found by decide, .refl _⟩
  | pass => exact ⟨show Stage.passed ∈ Stage.found by decide, .refl _⟩
  | release => exact ⟨show Stage.released ∈ Stage.found by decide, .refl _⟩
  | reject => exact ⟨show Stage.rejected ∈ Stage.found by decide, .refl _⟩

/-- **A closed case is frozen.** -/
theorem Run.frozen (hr : Run make c c') (h : c.stage ∈ Stage.final) :
    c'.stage ∈ Stage.final ∧ c'.items = c.items := by
  refine hr.keeps (R := fun a b => b.items = a.items) (fun _ => rfl)
    (fun _ _ _ h h' => h'.trans h) (fun a b hs hst => ?_) h
  cases hs with
  | prepare he => exact absurd (he ▸ hst) (by decide)
  | find he => exact absurd (he ▸ hst) (by decide)
  | review he => exact absurd (he ▸ hst) (by decide)
  | close => exact ⟨show Stage.closed ∈ Stage.final by decide, rfl⟩
  | pass => exact ⟨show Stage.passed ∈ Stage.final by decide, rfl⟩
  | release => exact ⟨show Stage.released ∈ Stage.final by decide, rfl⟩
  | reject => exact ⟨show Stage.rejected ∈ Stage.final by decide, rfl⟩

/-- **An output is for good.** -/
theorem Run.done (hr : Run make c c') (h : c.stage ∈ Stage.done) :
    c'.stage ∈ Stage.done ∧ c'.output = c.output := by
  refine hr.keeps (R := fun a b => b.output = a.output) (fun _ => rfl)
    (fun _ _ _ h h' => h'.trans h) (fun a b hs hst => ?_) h
  cases hs with
  | prepare he => exact absurd (he ▸ hst) (by decide)
  | find he => exact absurd (he ▸ hst) (by decide)
  | review he => exact absurd (he ▸ hst) (by decide)
  | close he => exact absurd (he ▸ hst) (by decide)
  | pass he => exact absurd (he ▸ hst) (by decide)
  | release => exact ⟨show Stage.released ∈ Stage.done by decide, rfl⟩
  | reject he =>
    have hnever : ∀ stage ∈ Stage.done, stage ∉ Stage.fallible := by decide
    exact absurd he (hnever _ hst)

end Case

/-! ### A board of cases -/

/-- Cases under keys. -/
abbrev Board (κ ι α γ β : Type) := κ → Option (Case ι α γ β)

namespace Board

variable [DecidableEq κ] {make : γ → List α → Option β} {w w' : Board κ ι α γ β} {k : κ}
  {c c' : Case ι α γ β}

/-- A case is received, or something happens to one. -/
inductive Step (make : γ → List α → Option β) (w : Board κ ι α γ β) : Board κ ι α γ β → Prop
  | receive {k : κ} {original : γ} : w k = none →
      Step make w (Function.update w k (some (.received original)))
  | act {k : κ} {c c' : Case ι α γ β} : w k = some c → c.Step make c' →
      Step make w (Function.update w k (some c'))

abbrev Run (make : γ → List α → Option β) : Board κ ι α γ β → Board κ ι α γ β → Prop :=
  Relation.ReflTransGen (Step make)

theorem Step.case (hs : Step make w w') (hk : w k = some c) :
    ∃ c', w' k = some c' ∧ Case.Run make c c' := by
  cases hs with
  | @receive j _ hnone =>
    have hne : k ≠ j := fun he => by
      rw [he, hnone] at hk
      cases hk
    exact ⟨c, by rw [Function.update_of_ne hne, hk], .refl⟩
  | @act j a b ha hab =>
    by_cases he : k = j
    · subst he
      obtain rfl := Option.some.inj (ha.symm.trans hk)
      exact ⟨b, Function.update_self _ _ _, .single hab⟩
    · exact ⟨c, by rw [Function.update_of_ne he, hk], .refl⟩

/-- A case of a board goes its own way. -/
theorem Run.case (hr : Run make w w') (hk : w k = some c) :
    ∃ c', w' k = some c' ∧ Case.Run make c c' := by
  induction hr with
  | refl => exact ⟨c, hk, .refl⟩
  | tail _ hs ih =>
    obtain ⟨b, hb, hcb⟩ := ih
    obtain ⟨d, hd, hbd⟩ := hs.case hb
    exact ⟨d, hd, hcb.trans hbd⟩

theorem Step.sound (hs : Step make w w') (h : ∀ k c, w k = some c → c.Sound make) :
    ∀ k c, w' k = some c → c.Sound make := by
  intro k c hk
  cases hs with
  | @receive j original _ =>
    by_cases he : k = j
    · subst he
      rw [Function.update_self] at hk
      cases hk
      exact Case.sound_received original
    · rw [Function.update_of_ne he] at hk
      exact h k c hk
  | @act j a b ha hab =>
    by_cases he : k = j
    · subst he
      rw [Function.update_self] at hk
      cases hk
      exact hab.sound (h k a ha)
    · rw [Function.update_of_ne he] at hk
      exact h k c hk

/-- **Every case of every board that is reached is sound.** -/
theorem sound_of_run (hr : Run make (fun _ : κ => none) w) (hk : w k = some c) : c.Sound make := by
  induction hr generalizing k c with
  | refl => cases hk
  | tail _ hs ih => exact hs.sound (fun _ _ h => ih h) k c hk

end Board

end

end Workflow
