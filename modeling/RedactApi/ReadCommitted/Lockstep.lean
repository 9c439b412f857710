import RedactApi.ReadCommitted.Alone

/-!
# Two runs of one program

`Prog.exec` runs a program alone to its end and keeps all it leaves: the result, the
answers that are left, the shared state and the pending writes.

`Together` is about two runs of one program on one stream of answers, from two shared
states.  They end with one result, one rest of the stream and the same pending writes,
and what is asserted of the two states holds.  The rules take a program apart: a read
has to show both runs the same, a write has to clash in both runs or in neither.
-/

namespace ReadCommitted

section

variable {σ ω κ W ι ε α β : Type} [Store σ ω κ ε]

structure Outcome (σ ω W ι ε α : Type) where
  result : Except ε α
  answers : Nat → ι
  shared : Shared σ W
  pending : List ω

def later (a : Nat → ι) : Nat → ι := fun n => a (n + 1)

def Prog.exec : Prog σ ω W ι ε α → (Nat → ι) → Shared σ W → List ω → Outcome σ ω W ι ε α
  | .ret b, a, s, p => ⟨.ok b, a, s, p⟩
  | .raise e, a, s, p => ⟨.error e, a, s, p⟩
  | .select k _, a, s, p => (k (view s.db p)).exec (later a) s p
  | .flush w k err, a, s, p =>
    if clash (view s.db p) w then (err (Store.integrityError σ)).exec (later a) s p
    else k.exec (later a) s (p ++ [w])
  | .commit k _, a, s, p => k.exec (later a) { s with db := view s.db p } []
  | .rollback k, a, s, _ => k.exec (later a) s []
  | .call f k _, a, s, p =>
    (k s.world (a 0)).exec (later a) { s with world := f s.world (a 0) } p

/-- What takes over runs from where the program has ended. -/
theorem Prog.exec_graft (prog : Prog σ ω W ι ε α) (r : α → Prog σ ω W ι ε β)
    (h : ε → Prog σ ω W ι ε β) (a : Nat → ι) (s : Shared σ W) (p : List ω) :
    (prog.graft r h).exec a s p =
      match (prog.exec a s p).result with
      | .ok b => (r b).exec (prog.exec a s p).answers (prog.exec a s p).shared (prog.exec a s p).pending
      | .error e =>
        (h e).exec (prog.exec a s p).answers (prog.exec a s p).shared (prog.exec a s p).pending := by
  induction prog generalizing a s p with
  | ret b => rfl
  | raise e => rfl
  | select k err ihk _ => exact ihk _ _ _ _
  | flush w k err ihk ihe =>
    rw [Prog.graft, Prog.exec, Prog.exec]
    split
    · exact ihe _ _ _ _
    · exact ihk _ _ _
  | commit k err ihk _ => exact ihk _ _ _
  | rollback k ihk => exact ihk _ _ _
  | call f k err ihk _ => exact ihk _ _ _ _ _

/-! ### Together -/

/-- Where two runs are: what is left of their answers, their states, what is pending. -/
structure Joint (σ ω W ι : Type) where
  answers : Nat → ι
  left : Shared σ W
  right : Shared σ W
  pending : List ω

/-- From `x` both runs of the program return one value, and then `Q` holds, or both raise
one exception, and then `E` does. -/
def Together (prog : Prog σ ω W ι ε α) (Q : α → Joint σ ω W ι → Prop)
    (E : ε → Joint σ ω W ι → Prop) (x : Joint σ ω W ι) : Prop :=
  ∃ (result : Except ε α) (y : Joint σ ω W ι),
    prog.exec x.answers x.left x.pending = ⟨result, y.answers, y.left, y.pending⟩ ∧
    prog.exec x.answers x.right x.pending = ⟨result, y.answers, y.right, y.pending⟩ ∧
    match result with
    | .ok b => Q b y
    | .error e => E e y

variable {Q : α → Joint σ ω W ι → Prop} {E : ε → Joint σ ω W ι → Prop} {x : Joint σ ω W ι}

theorem Together.ret {b : α} (h : Q b x) : Together (.ret b) Q E x := ⟨.ok b, x, rfl, rfl, h⟩

theorem Together.raise {e : ε} (h : E e x) : Together (.raise e) Q E x :=
  ⟨.error e, x, rfl, rfl, h⟩

theorem Together.graft {prog : Prog σ ω W ι ε α} {r : α → Prog σ ω W ι ε β}
    {h : ε → Prog σ ω W ι ε β} {Q : β → Joint σ ω W ι → Prop}
    (hprog : Together prog (fun b y => Together (r b) Q E y) (fun e y => Together (h e) Q E y) x) :
    Together (prog.graft r h) Q E x := by
  obtain ⟨result, y, hleft, hright, hnext⟩ := hprog
  cases result with
  | ok b =>
    obtain ⟨result', z, hleft', hright', hend⟩ := hnext
    refine ⟨result', z, ?_, ?_, hend⟩
    · rw [Prog.exec_graft, hleft]
      exact hleft'
    · rw [Prog.exec_graft, hright]
      exact hright'
  | error e =>
    obtain ⟨result', z, hleft', hright', hend⟩ := hnext
    refine ⟨result', z, ?_, ?_, hend⟩
    · rw [Prog.exec_graft, hleft]
      exact hleft'
    · rw [Prog.exec_graft, hright]
      exact hright'

theorem Together.bind {prog : Prog σ ω W ι ε α} {f : α → Prog σ ω W ι ε β}
    {Q : β → Joint σ ω W ι → Prop} (h : Together prog (fun b y => Together (f b) Q E y) E x) :
    Together (prog.bind f) Q E x := by
  refine .graft ?_
  obtain ⟨result, y, hleft, hright, hnext⟩ := h
  refine ⟨result, y, hleft, hright, ?_⟩
  cases result with
  | ok b => exact hnext
  | error e => exact .raise hnext

theorem Together.tryCatch {prog : Prog σ ω W ι ε α} {h : ε → Prog σ ω W ι ε α}
    (hprog : Together prog Q (fun e y => Together (h e) Q E y) x) :
    Together (prog.tryCatch h) Q E x := by
  refine .graft ?_
  obtain ⟨result, y, hleft, hright, hnext⟩ := hprog
  refine ⟨result, y, hleft, hright, ?_⟩
  cases result with
  | ok b => exact .ret hnext
  | error e => exact hnext

theorem Together.mono {prog : Prog σ ω W ι ε α} {Q' : α → Joint σ ω W ι → Prop}
    {E' : ε → Joint σ ω W ι → Prop} (h : Together prog Q E x) (hQ : ∀ b y, Q b y → Q' b y)
    (hE : ∀ e y, E e y → E' e y) : Together prog Q' E' x := by
  obtain ⟨result, y, hleft, hright, hend⟩ := h
  refine ⟨result, y, hleft, hright, ?_⟩
  cases result with
  | ok b => exact hQ b y hend
  | error e => exact hE e y hend

/-! ### The operations -/

def Joint.next (x : Joint σ ω W ι) : Joint σ ω W ι := { x with answers := later x.answers }

theorem Together.query {f : σ → α}
    (hsame : f (view x.left.db x.pending) = f (view x.right.db x.pending))
    (h : Q (f (view x.left.db x.pending)) x.next) : Together (Prog.query f) Q E x := by
  refine ⟨.ok (f (view x.left.db x.pending)), x.next, rfl, ?_, h⟩
  rw [hsame]
  rfl

theorem Together.send {w : ω} {Q : Unit → Joint σ ω W ι → Prop}
    (hsame : clash (view x.left.db x.pending) w = clash (view x.right.db x.pending) w)
    (hgo : clash (view x.left.db x.pending) w = false →
      Q () { x.next with pending := x.pending ++ [w] })
    (hclash : E (Store.integrityError σ) x.next) : Together (Prog.send w) Q E x := by
  cases hc : clash (view x.left.db x.pending) w with
  | false =>
    refine ⟨.ok (), _, ?_, ?_, hgo hc⟩
    · rw [Prog.send, Prog.exec, hc]
      rfl
    · rw [Prog.send, Prog.exec, ← hsame, hc]
      rfl
  | true =>
    refine ⟨.error (Store.integrityError σ), x.next, ?_, ?_, hclash⟩
    · rw [Prog.send, Prog.exec, hc]
      rfl
    · rw [Prog.send, Prog.exec, ← hsame, hc]
      rfl

theorem Together.commit {Q : Unit → Joint σ ω W ι → Prop}
    (h : Q () { x.next with
      left := { x.left with db := view x.left.db x.pending }
      right := { x.right with db := view x.right.db x.pending }
      pending := [] }) : Together Prog.commitNow Q E x := ⟨.ok (), _, rfl, rfl, h⟩

theorem Together.invoke {f : W → ι → W} {r : W → ι → Except ε α}
    (hsame : r x.left.world (x.answers 0) = r x.right.world (x.answers 0))
    (hQ : ∀ b, r x.left.world (x.answers 0) = .ok b → Q b { x.next with
      left := { x.left with world := f x.left.world (x.answers 0) }
      right := { x.right with world := f x.right.world (x.answers 0) } })
    (hE : ∀ e, r x.left.world (x.answers 0) = .error e → E e { x.next with
      left := { x.left with world := f x.left.world (x.answers 0) }
      right := { x.right with world := f x.right.world (x.answers 0) } }) :
    Together (Prog.invoke f r) Q E x := by
  cases hr : r x.left.world (x.answers 0) with
  | ok b =>
    refine ⟨.ok b, _, ?_, ?_, hQ b hr⟩
    · rw [Prog.invoke, Prog.exec, hr]
      rfl
    · rw [Prog.invoke, Prog.exec, ← hsame, hr]
      rfl
  | error e =>
    refine ⟨.error e, _, ?_, ?_, hE e hr⟩
    · rw [Prog.invoke, Prog.exec, hr]
      rfl
    · rw [Prog.invoke, Prog.exec, ← hsame, hr]
      rfl

theorem Together.closing {prog : Prog σ ω W ι ε α}
    (h : Together prog (fun b y => Q b { y.next with pending := [] })
      (fun e y => E e { y.next with pending := [] }) x) : Together prog.closing Q E x := by
  refine .graft (h.mono (fun b y hQ => ?_) fun e y hE => ?_)
  · exact ⟨.ok b, _, rfl, rfl, hQ⟩
  · exact ⟨.error e, _, rfl, rfl, hE⟩

theorem Together.foldlM {γ : Type} {f : α → γ → Prog σ ω W ι ε α} {I : α → Joint σ ω W ι → Prop}
    {items : List γ} {b : α} (hstep : ∀ item ∈ items, ∀ b x, I b x → Together (f b item) I E x)
    (h : I b x) : Together (items.foldlM f b) I E x := by
  induction items generalizing b x with
  | nil => exact .ret h
  | cons item items ih =>
    rw [List.foldlM_cons]
    refine .bind ((hstep item List.mem_cons_self b x h).mono (fun b y hI => ?_) fun _ _ he => he)
    exact ih (fun item' hitem => hstep item' (List.mem_cons_of_mem _ hitem)) hI

end

end ReadCommitted
