import RedactApi.ReadCommitted.Contract

/-!
# Programs that run by themselves

`Ends prog ls s p o s' p'`: with the environment's answers `ls`, faults among them, the
program goes from the state `s` and the pending writes `p` to the outcome `o`.  Nobody else
moves and nothing crashes.  The answers of a composed program are those of its parts, one
after the other (`Ends.graft_inv`, `Ends.bind_inv`, `Ends.closing_inv`), and what a contract
says of the ends of a program holds of its outcome (`Contract.wp_ends`).

A program that neither commits nor rolls back (`Uncommitted`) cannot tell its pending writes
from committed ones (`Ends.settled`).
-/

namespace ReadCommitted

variable {σ ω κ W ι ε α β : Type} [Store σ ω κ ε]

/-- The program comes to an outcome, alone. -/
inductive Ends : Prog σ ω W ι ε α → List (Label ι ε) → Shared σ W → List ω → Except ε α →
    Shared σ W → List ω → Prop
  | ret (a : α) (s : Shared σ W) (p : List ω) : Ends (.ret a) [] s p (.ok a) s p
  | raise (e : ε) (s : Shared σ W) (p : List ω) : Ends (.raise e) [] s p (.error e) s p
  | step {prog prog₁ : Prog σ ω W ι ε α} {l : Label ι ε} {ls : List (Label ι ε)}
      {s s₁ s' : Shared σ W} {p p₁ p' : List ω} {o : Except ε α} : l.isCrash = false →
      Moves (fun _ => false) s prog p l s₁ prog₁ p₁ → Ends prog₁ ls s₁ p₁ o s' p' →
      Ends prog (l :: ls) s p o s' p'

section

variable {prog : Prog σ ω W ι ε α} {ls : List (Label ι ε)} {s s' : Shared σ W} {p p' : List ω}
  {l : Label ι ε}

/-! ### Composition -/

def resume (r : α → Prog σ ω W ι ε β) (h : ε → Prog σ ω W ι ε β) : Except ε α → Prog σ ω W ι ε β
  | .ok a => r a
  | .error e => h e

theorem Moves.graft {locked : κ → Bool} {prog₁ : Prog σ ω W ι ε α} {s₁ : Shared σ W} {p₁ : List ω}
    (r : α → Prog σ ω W ι ε β) (h : ε → Prog σ ω W ι ε β) (hl : l.isCrash = false)
    (hm : Moves locked s prog p l s₁ prog₁ p₁) :
    Moves locked s (prog.graft r h) p l s₁ (prog₁.graft r h) p₁ := by
  cases hm with
  | crash _ => cases hl
  | selectFault => exact .selectFault
  | flushFault => exact .flushFault
  | commitFault => exact .commitFault
  | callFault => exact .callFault
  | select => exact .select
  | clash hc => exact .clash hc
  | flush hlocked hc => exact .flush hlocked hc
  | commit => exact .commit
  | rollback => exact .rollback
  | call => exact .call

theorem Moves.graft_inv {locked : κ → Bool} {q : Prog σ ω W ι ε β} {s₁ : Shared σ W} {p₁ : List ω}
    {r : α → Prog σ ω W ι ε β} {h : ε → Prog σ ω W ι ε β} (hl : l.isCrash = false)
    (hd : prog.isDone = false) (hm : Moves locked s (prog.graft r h) p l s₁ q p₁) :
    ∃ prog₁, q = prog₁.graft r h ∧ Moves locked s prog p l s₁ prog₁ p₁ := by
  cases prog with
  | ret a => cases hd
  | raise e => cases hd
  | select k err =>
    cases hm with
    | crash _ => cases hl
    | selectFault => exact ⟨_, rfl, .selectFault⟩
    | select => exact ⟨_, rfl, .select⟩
  | flush w k err =>
    cases hm with
    | crash _ => cases hl
    | flushFault => exact ⟨_, rfl, .flushFault⟩
    | clash hc => exact ⟨_, rfl, .clash hc⟩
    | flush hlocked hc => exact ⟨_, rfl, .flush hlocked hc⟩
  | commit k err =>
    cases hm with
    | crash _ => cases hl
    | commitFault => exact ⟨_, rfl, .commitFault⟩
    | commit => exact ⟨_, rfl, .commit⟩
  | rollback k =>
    cases hm with
    | crash _ => cases hl
    | rollback => exact ⟨_, rfl, .rollback⟩
  | call f k err =>
    cases hm with
    | crash _ => cases hl
    | callFault => exact ⟨_, rfl, .callFault⟩
    | call => exact ⟨_, rfl, .call⟩

theorem Ends.graft {r : α → Prog σ ω W ι ε β} {h : ε → Prog σ ω W ι ε β} {ls₂ : List (Label ι ε)}
    {o₁ : Except ε α} {o : Except ε β} {s₁ : Shared σ W} {p₁ : List ω}
    (he : Ends prog ls s p o₁ s₁ p₁) (hr : Ends (resume r h o₁) ls₂ s₁ p₁ o s' p') :
    Ends (prog.graft r h) (ls ++ ls₂) s p o s' p' := by
  induction he with
  | ret a s p => exact hr
  | raise e s p => exact hr
  | step hl hm _ ih => exact .step hl (hm.graft r h hl) (ih hr)

/-- A program that has ended hands over at once. -/
theorem graft_done (r : α → Prog σ ω W ι ε β) (h : ε → Prog σ ω W ι ε β)
    (hd : prog.isDone = true) : ∃ o, prog.graft r h = resume r h o ∧ ∀ s p, Ends prog [] s p o s p := by
  cases prog with
  | ret a => exact ⟨.ok a, rfl, .ret a⟩
  | raise e => exact ⟨.error e, rfl, .raise e⟩
  | _ => cases hd

/-- **The answers of a grafted program** are those of the program and then those of what
takes over. -/
theorem Ends.graft_inv {r : α → Prog σ ω W ι ε β} {h : ε → Prog σ ω W ι ε β} {o : Except ε β}
    (he : Ends (prog.graft r h) ls s p o s' p') :
    ∃ ls₁ ls₂ o₁ s₁ p₁, ls = ls₁ ++ ls₂ ∧ Ends prog ls₁ s p o₁ s₁ p₁ ∧
      Ends (resume r h o₁) ls₂ s₁ p₁ o s' p' := by
  by_cases hd : prog.isDone = true
  · obtain ⟨o₁, ho, hends⟩ := graft_done r h hd
    exact ⟨[], ls, o₁, s, p, rfl, hends s p, ho ▸ he⟩
  generalize hq : prog.graft r h = q at he
  induction he generalizing prog with
  | ret a s p => cases prog <;> first | cases hq | exact absurd rfl hd
  | raise e s p => cases prog <;> first | cases hq | exact absurd rfl hd
  | @step _ _ l ls _ s₁ _ _ p₁ _ _ hl hm hrest ih =>
    subst hq
    obtain ⟨prog₁, rfl, hm₁⟩ := hm.graft_inv hl (by simpa using hd)
    by_cases hd₁ : prog₁.isDone = true
    · obtain ⟨o₁, ho, hends⟩ := graft_done r h hd₁
      exact ⟨[l], ls, o₁, s₁, p₁, rfl, .step hl hm₁ (hends s₁ p₁), ho ▸ hrest⟩
    · obtain ⟨ls₁, ls₂, o₁, s₂, p₂, rfl, h₁, h₂⟩ := ih hd₁ rfl
      exact ⟨l :: ls₁, ls₂, o₁, s₂, p₂, rfl, .step hl hm₁ h₁, h₂⟩

theorem Ends.bind {f : α → Prog σ ω W ι ε β} {ls₂ : List (Label ι ε)} {a : α} {o : Except ε β}
    {s₁ : Shared σ W} {p₁ : List ω} (h : Ends prog ls s p (.ok a) s₁ p₁)
    (hf : Ends (f a) ls₂ s₁ p₁ o s' p') : Ends (prog.bind f) (ls ++ ls₂) s p o s' p' :=
  h.graft hf

theorem Ends.ret_inv {a : α} {o : Except ε α} (h : Ends (.ret a) ls s p o s' p') :
    ls = [] ∧ o = .ok a ∧ s' = s ∧ p' = p := by
  cases h with
  | ret => exact ⟨rfl, rfl, rfl, rfl⟩
  | step _ hm _ => cases hm with
    | crash hd => cases hd

theorem Ends.raise_inv {e : ε} {o : Except ε α} (h : Ends (.raise e) ls s p o s' p') :
    ls = [] ∧ o = .error e ∧ s' = s ∧ p' = p := by
  cases h with
  | raise => exact ⟨rfl, rfl, rfl, rfl⟩
  | step _ hm _ => cases hm with
    | crash hd => cases hd

theorem Ends.bind_inv {f : α → Prog σ ω W ι ε β} {o : Except ε β}
    (h : Ends (prog.bind f) ls s p o s' p') :
    (∃ ls₁ ls₂ a s₁ p₁, ls = ls₁ ++ ls₂ ∧ Ends prog ls₁ s p (.ok a) s₁ p₁ ∧
      Ends (f a) ls₂ s₁ p₁ o s' p') ∨
    ∃ e, o = .error e ∧ Ends prog ls s p (.error e) s' p' := by
  obtain ⟨ls₁, ls₂, o₁, s₁, p₁, rfl, h₁, h₂⟩ := h.graft_inv
  cases o₁ with
  | ok a => exact Or.inl ⟨ls₁, ls₂, a, s₁, p₁, rfl, h₁, h₂⟩
  | error e =>
    obtain ⟨rfl, rfl, rfl, rfl⟩ := h₂.raise_inv
    exact Or.inr ⟨e, rfl, by rwa [List.append_nil]⟩

theorem Ends.closing_inv {o : Except ε α} (h : Ends prog.closing ls s p o s' p') :
    ∃ ls₁ i p₁, ls = ls₁ ++ [.ok i] ∧ Ends prog ls₁ s p o s' p₁ ∧ p' = [] := by
  obtain ⟨ls₁, ls₂, o₁, s₁, p₁, rfl, h₁, h₂⟩ := h.graft_inv
  cases o₁ with
  | ok a =>
    cases h₂ with
    | step hl hm hrest =>
      cases hm with
      | crash _ => cases hl
      | rollback =>
        obtain ⟨rfl, rfl, rfl, rfl⟩ := hrest.ret_inv
        exact ⟨ls₁, _, p₁, rfl, h₁, rfl⟩
  | error e =>
    cases h₂ with
    | step hl hm hrest =>
      cases hm with
      | crash _ => cases hl
      | rollback =>
        obtain ⟨rfl, rfl, rfl, rfl⟩ := hrest.raise_inv
        exact ⟨ls₁, _, p₁, rfl, h₁, rfl⟩

theorem ends_query (f : σ → α) (i : ι) (s : Shared σ W) (p : List ω) :
    Ends (Prog.query f : Prog σ ω W ι ε α) [.ok i] s p (.ok (f (view s.db p))) s p :=
  .step rfl .select (.ret _ _ _)

theorem Ends.query_bind {f : σ → β} {g : β → Prog σ ω W ι ε α} {b : β} {o : Except ε α} (i : ι)
    (hb : f (view s.db p) = b) (h : Ends (g b) ls s p o s' p') :
    Ends ((Prog.query f).bind g) (.ok i :: ls) s p o s' p' :=
  (ends_query f i s p).bind (hb ▸ h)

theorem Ends.query_inv {f : σ → α} {a : α}
    (h : Ends (Prog.query f : Prog σ ω W ι ε α) ls s p (.ok a) s' p') :
    f (view s.db p) = a ∧ s' = s ∧ p' = p := by
  cases h with
  | step hl hm hrest =>
    cases hm with
    | crash _ => cases hl
    | selectFault =>
      obtain ⟨-, ho, -⟩ := hrest.raise_inv
      cases ho
    | select =>
      obtain ⟨-, ho, rfl, rfl⟩ := hrest.ret_inv
      exact ⟨Except.ok.inj ho.symm, rfl, rfl⟩

theorem Ends.select_inv {k : σ → Prog σ ω W ι ε α} {err : ε → Prog σ ω W ι ε α} {i : ι}
    {o : Except ε α} (h : Ends (.select k err) (.ok i :: ls) s p o s' p') :
    Ends (k (view s.db p)) ls s p o s' p' := by
  cases h with
  | step _ hm hrest => cases hm with
    | select => exact hrest

theorem not_ends_select {k : σ → Prog σ ω W ι ε α} {err : ε → Prog σ ω W ι ε α} {o : Except ε α} :
    ¬ Ends (.select k err) [] s p o s' p' := fun h => by cases h

theorem Ends.closing {o : Except ε α} (i : ι) (h : Ends prog ls s p o s' p') :
    Ends prog.closing (ls ++ [.ok i]) s p o s' [] := by
  cases o with
  | ok a => exact h.graft (.step rfl .rollback (.ret a s' []))
  | error e => exact h.graft (.step rfl .rollback (.raise e s' []))

theorem Ends.free {o : Except ε α} (h : Ends prog ls s p o s' p') (hf : Free s.db p) :
    Free s'.db p' := by
  induction h with
  | ret a s p => exact hf
  | raise e s p => exact hf
  | step _ hm _ ih => exact ih (hm.keys.2.2 hf)

/-! ### Contracts -/

/-- **A contract speaks of the outcome** of a program that runs by itself. -/
theorem Contract.wp_ends {C : Contract σ ω W ι ε} {Q : α → Shared σ W → List ω → Prop}
    {E : ε → Shared σ W → List ω → Prop} {o : Except ε α} (hinput : ∀ s p i, C.input s p i)
    (hallowed : ∀ s p, C.allowed s p) (he : Ends prog ls s p o s' p')
    (hfault : ∀ e, .fault e ∈ ls → C.fault e) (hi : C.inv s) (hf : Free s.db p)
    (h : C.wp prog Q E s p) :
    C.inv s' ∧ (∀ a, o = .ok a → Q a s' p') ∧ ∀ e, o = .error e → E e s' p' := by
  induction he with
  | ret a s p => exact ⟨hi, fun b hb => (by cases hb; exact h), fun e he => (by cases he)⟩
  | raise e s p => exact ⟨hi, fun a ha => (by cases ha), fun e' he => (by cases he; exact h)⟩
  | step hl hm _ ih =>
    obtain ⟨hi₁, -, h₁⟩ := Contract.wp_moves hm hi hf
      (fun e he => hfault e (he ▸ List.mem_cons_self)) (fun i _ => hinput _ _ i)
      (fun _ _ _ => hallowed _ _) (fun e he => by rw [he] at hl; cases hl) h
    exact ih (fun e he => hfault e (List.mem_cons_of_mem _ he)) hi₁ (hm.keys.2.2 hf) h₁

variable (σ ω ι) in
/-- Nobody else moves, the faults are those of `F`, and what `frame` shows of the world
stays. -/
def soloContract (F : ε → Prop) (frame : W → β) : Contract σ ω W ι ε where
  inv _ := True
  rely s s' := s' = s
  guar _ _ := True
  allowed _ _ := True
  input _ _ _ := True
  fault := F
  past s s' := s'.db = s.db ∧ frame s'.world = frame s.world
  rely_refl _ := rfl
  rely_trans h h' := h'.trans h
  guar_refl _ := trivial
  past_refl _ := ⟨rfl, rfl⟩
  past_trans h h' := ⟨h'.1.trans h.1, h'.2.trans h.2⟩
  rely_past h := ⟨congrArg Shared.db h, congrArg (frame ·.world) h⟩

theorem Contract.solo_ends {F : ε → Prop} {frame : W → β} {Q : α → Shared σ W → List ω → Prop}
    {E : ε → Shared σ W → List ω → Prop} {o : Except ε α} (he : Ends prog ls s p o s' p')
    (hfault : ∀ e, .fault e ∈ ls → F e) (hf : Free s.db p)
    (h : (soloContract σ ω ι F frame).wp prog Q E s p) :
    (∀ a, o = .ok a → Q a s' p') ∧ ∀ e, o = .error e → E e s' p' :=
  (Contract.wp_ends (fun _ _ _ => trivial) (fun _ _ => trivial) he hfault trivial hf h).2

/-! ### Systems of one thread -/

def Prog.outcome : List (Label ι ε) → Prog σ ω W ι ε α → Shared σ W → List ω →
    Option (Except ε α × Shared σ W × List ω)
  | [], .ret a, s, p => some (.ok a, s, p)
  | [], .raise e, s, p => some (.error e, s, p)
  | [], _, _, _ => none
  | l :: ls, prog, s, p =>
    if l.isCrash then none
    else (Thread.step (fun _ => false) s ⟨prog, p, true⟩ l).bind fun r =>
      Prog.outcome ls r.2.prog r.1 r.2.pending

theorem ends_of_outcome {o : Except ε α} :
    ∀ {ls : List (Label ι ε)} {prog : Prog σ ω W ι ε α} {s : Shared σ W} {p : List ω},
      prog.outcome ls s p = some (o, s', p') → Ends prog ls s p o s' p' := by
  intro ls
  induction ls with
  | nil =>
    intro prog s p h
    cases prog <;> cases h
    · exact .ret _ _ _
    · exact .raise _ _ _
  | cons l ls ih =>
    intro prog s p h
    rw [Prog.outcome] at h
    split at h
    · cases h
    · rename_i hl
      obtain ⟨r, hstep, hrest⟩ := Option.bind_eq_some_iff.mp h
      exact .step (by simpa using hl) (Thread.step_moves hstep).1 (ih hrest)

/-! ### Pending and committed writes -/

def Prog.Uncommitted : Prog σ ω W ι ε α → Prop
  | .ret _ => True
  | .raise _ => True
  | .select k err => (∀ v, (k v).Uncommitted) ∧ ∀ e, (err e).Uncommitted
  | .flush _ k err => k.Uncommitted ∧ ∀ e, (err e).Uncommitted
  | .commit _ _ => False
  | .rollback _ => False
  | .call _ k err => (∀ w i, (k w i).Uncommitted) ∧ ∀ e, (err e).Uncommitted

omit [Store σ ω κ ε] in
theorem Prog.Uncommitted.graft {r : α → Prog σ ω W ι ε β} {h : ε → Prog σ ω W ι ε β}
    (hp : prog.Uncommitted) (hr : ∀ a, (r a).Uncommitted) (hh : ∀ e, (h e).Uncommitted) :
    (prog.graft r h).Uncommitted := by
  induction prog with
  | ret a => exact hr a
  | raise e => exact hh e
  | select k err ihk ihe => exact ⟨fun v => ihk v (hp.1 v), fun e => ihe e (hp.2 e)⟩
  | flush w k err ihk ihe => exact ⟨ihk hp.1, fun e => ihe e (hp.2 e)⟩
  | commit k err => exact hp
  | rollback k => exact hp
  | call f k err ihk ihe => exact ⟨fun w i => ihk w i (hp.1 w i), fun e => ihe e (hp.2 e)⟩

omit [Store σ ω κ ε] in
theorem Prog.Uncommitted.bind {f : α → Prog σ ω W ι ε β} (hp : prog.Uncommitted)
    (hf : ∀ a, (f a).Uncommitted) : (prog.bind f).Uncommitted := hp.graft hf fun _ => trivial

theorem uncommitted_query (f : σ → α) : (Prog.query f : Prog σ ω W ι ε α).Uncommitted :=
  ⟨fun _ => trivial, fun _ => trivial⟩

theorem uncommitted_send (w : ω) : (Prog.send w : Prog σ ω W ι ε Unit).Uncommitted :=
  ⟨trivial, fun _ => trivial⟩

theorem uncommitted_invoke (f : W → ι → W) (r : W → ι → Except ε α) :
    (Prog.invoke f r : Prog σ ω W ι ε α).Uncommitted := by
  refine ⟨fun w i => ?_, fun _ => trivial⟩
  dsimp only
  cases r w i <;> trivial

/-- **Pending writes are read as committed ones.**  A program that neither commits nor rolls
back does with `q` committed what it does with `q` pending. -/
theorem Ends.settled {o : Except ε α} {q : List ω} (hprog : prog.Uncommitted)
    (h : Ends prog ls s (q ++ p) o s' p') : s'.db = s.db ∧ ∃ p₁, p' = q ++ p₁ ∧
      Ends prog ls { s with db := view s.db q } p o { s' with db := view s.db q } p₁ := by
  generalize hpq : q ++ p = r at h
  induction h generalizing p with
  | ret a s r => exact ⟨rfl, p, hpq.symm, .ret a _ p⟩
  | raise e s r => exact ⟨rfl, p, hpq.symm, .raise e _ p⟩
  | step hl hm hrest ih =>
    subst hpq
    cases hm with
    | crash _ => cases hl
    | selectFault =>
      obtain ⟨hdb, p₁, hp₁, hends⟩ := ih (hprog.2 _) rfl
      exact ⟨hdb, p₁, hp₁, .step hl .selectFault hends⟩
    | flushFault =>
      obtain ⟨hdb, p₁, hp₁, hends⟩ := ih (hprog.2 _) rfl
      exact ⟨hdb, p₁, hp₁, .step hl .flushFault hends⟩
    | commitFault => exact hprog.elim
    | callFault =>
      obtain ⟨hdb, p₁, hp₁, hends⟩ := ih (hprog.2 _) rfl
      exact ⟨hdb, p₁, hp₁, .step hl .callFault hends⟩
    | select =>
      rw [view_append] at ih
      obtain ⟨hdb, p₁, hp₁, hends⟩ := ih (hprog.1 _) rfl
      exact ⟨hdb, p₁, hp₁, .step hl .select hends⟩
    | clash hc =>
      obtain ⟨hdb, p₁, hp₁, hends⟩ := ih (hprog.2 _) rfl
      exact ⟨hdb, p₁, hp₁, .step hl (.clash (by rwa [view_append] at hc)) hends⟩
    | flush hlocked hc =>
      obtain ⟨hdb, p₁, hp₁, hends⟩ := ih hprog.1 (List.append_assoc q p _).symm
      exact ⟨hdb, p₁, hp₁, .step hl (.flush hlocked (by rwa [view_append] at hc)) hends⟩
    | commit => exact hprog.elim
    | rollback => exact hprog.elim
    | call =>
      obtain ⟨hdb, p₁, hp₁, hends⟩ := ih (hprog.1 _ _) rfl
      exact ⟨hdb, p₁, hp₁, .step hl .call hends⟩

/-! ### Programs that may die -/

/-- The program runs alone until it ends or crashes; what it has not committed is lost. -/
inductive Stops : Prog σ ω W ι ε α → List (Label ι ε) → Shared σ W → List ω → Shared σ W → Prop
  | done {prog : Prog σ ω W ι ε α} {s : Shared σ W} {p : List ω} : prog.isDone = true →
      Stops prog [] s p s
  | crash {prog : Prog σ ω W ι ε α} {s : Shared σ W} {p : List ω} (e : ε) :
      prog.isDone = false → Stops prog [.crash e] s p s
  | step {prog prog₁ : Prog σ ω W ι ε α} {l : Label ι ε} {ls : List (Label ι ε)}
      {s s₁ s' : Shared σ W} {p p₁ : List ω} : l.isCrash = false →
      Moves (fun _ => false) s prog p l s₁ prog₁ p₁ → Stops prog₁ ls s₁ p₁ s' →
      Stops prog (l :: ls) s p s'

theorem Ends.stops {o : Except ε α} (h : Ends prog ls s p o s' p') : Stops prog ls s p s' := by
  induction h with
  | ret => exact .done rfl
  | raise => exact .done rfl
  | step hl hm _ ih => exact .step hl hm ih

/-- A program that keeps to its contract leaves the invariant, wherever it stops. -/
theorem Contract.wp_stops {C : Contract σ ω W ι ε} (hinput : ∀ s p i, C.input s p i)
    (hallowed : ∀ s p, C.allowed s p) (hfault : ∀ e, C.fault e) (h : Stops prog ls s p s')
    (hi : C.inv s) (hf : Free s.db p) (hsafe : C.Safe prog s p) : C.inv s' := by
  induction h with
  | done => exact hi
  | crash => exact hi
  | step _ hm _ ih =>
    obtain ⟨hi₁, -, h₁⟩ := Contract.wp_moves hm hi hf (fun e _ => hfault e)
      (fun i _ => hinput _ _ i) (fun _ _ _ => hallowed _ _) (fun _ _ => trivial) hsafe
    exact ih hi₁ (hm.keys.2.2 hf) h₁

theorem Stops.raise_inv {e : ε} (h : Stops (.raise e : Prog σ ω W ι ε α) ls s p s') :
    ls = [] ∧ s' = s := by
  cases h with
  | done _ => exact ⟨rfl, rfl⟩
  | crash _ hd => cases hd
  | step hl hm _ => cases hm with
    | crash hd => cases hd

theorem Stops.ret_inv {a : α} (h : Stops (.ret a) ls s p s') : ls = [] ∧ s' = s := by
  cases h with
  | done _ => exact ⟨rfl, rfl⟩
  | crash _ hd => cases hd
  | step hl hm _ => cases hm with
    | crash hd => cases hd

/-- A read that goes wrong leaves the state as it is, if nothing is done about it. -/
theorem Stops.select_inv {k : σ → Prog σ ω W ι ε α} (h : Stops (.select k .raise) ls s p s') :
    (∃ i rest, ls = .ok i :: rest ∧ Stops (k (view s.db p)) rest s p s') ∨
      s' = s ∧ ∃ l, l.isOk = false ∧ ls = [l] := by
  cases h with
  | done hd => cases hd
  | crash e _ => exact Or.inr ⟨rfl, .crash e, rfl, rfl⟩
  | step hl hm hrest =>
    cases hm with
    | crash _ => cases hl
    | selectFault =>
      obtain ⟨rfl, rfl⟩ := hrest.raise_inv
      exact Or.inr ⟨rfl, _, rfl, rfl⟩
    | select => exact Or.inl ⟨_, _, rfl, hrest⟩

theorem Stops.call_inv {f : W → ι → W} {k : W → ι → Prog σ ω W ι ε α} {err : ε → Prog σ ω W ι ε α}
    (herr : ∀ e, ∃ e', err e = .raise e') (h : Stops (.call f k err) ls s p s') :
    (∃ i rest, ls = .ok i :: rest ∧
      Stops (k s.world i) rest { s with world := f s.world i } p s') ∨
      s' = s ∧ ∃ l, l.isOk = false ∧ ls = [l] := by
  cases h with
  | done hd => cases hd
  | crash e _ => exact Or.inr ⟨rfl, .crash e, rfl, rfl⟩
  | step hl hm hrest =>
    cases hm with
    | crash _ => cases hl
    | callFault =>
      obtain ⟨e', he'⟩ := herr _
      rw [he'] at hrest
      obtain ⟨rfl, rfl⟩ := hrest.raise_inv
      exact Or.inr ⟨rfl, _, rfl, rfl⟩
    | call => exact Or.inl ⟨_, _, rfl, hrest⟩

theorem Stops.flush_inv {w : ω} {k : Prog σ ω W ι ε α}
    (hw : Store.claims (σ := σ) (ε := ε) w = []) (h : Stops (.flush w k .raise) ls s p s') :
    (∃ i rest, ls = .ok i :: rest ∧ Stops k rest s (p ++ [w]) s') ∨
      s' = s ∧ ∃ l, l.isOk = false ∧ ls = [l] := by
  cases h with
  | done hd => cases hd
  | crash e _ => exact Or.inr ⟨rfl, .crash e, rfl, rfl⟩
  | step hl hm hrest =>
    cases hm with
    | crash _ => cases hl
    | flushFault =>
      obtain ⟨rfl, rfl⟩ := hrest.raise_inv
      exact Or.inr ⟨rfl, _, rfl, rfl⟩
    | clash hc =>
      rw [clash_eq_false.mpr (by simp [hw])] at hc
      cases hc
    | flush _ _ => exact Or.inl ⟨_, _, rfl, hrest⟩

theorem Stops.commit_inv {k : Prog σ ω W ι ε α} (h : Stops (.commit k .raise) ls s p s') :
    (∃ i rest, ls = .ok i :: rest ∧ Stops k rest { s with db := view s.db p } [] s') ∨
      s' = s ∧ ∃ l, l.isOk = false ∧ ls = [l] := by
  cases h with
  | done hd => cases hd
  | crash e _ => exact Or.inr ⟨rfl, .crash e, rfl, rfl⟩
  | step hl hm hrest =>
    cases hm with
    | crash _ => cases hl
    | commitFault =>
      obtain ⟨rfl, rfl⟩ := hrest.raise_inv
      exact Or.inr ⟨rfl, _, rfl, rfl⟩
    | commit => exact Or.inl ⟨_, _, rfl, hrest⟩

end

end ReadCommitted
