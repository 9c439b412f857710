import RedactApi.ReadCommitted.Ends

/-!
# What one thread sees of a run

`Sys.views` are the states in which the steps of one thread are taken, in the order of a
schedule.  A thread that returns has seen them (`Sees`, `Sys.sees_of_replay`), and what
composed programs see is what their parts see, one part after the other.  Between two of the
states anything may be committed: whatever a single commit keeps is kept from one to the next
(`Sys.pairwise_views`).
-/

namespace ReadCommitted

variable {σ ω κ W ι ε α β : Type} [Store σ ω κ ε]

/-- The program comes to an outcome, with one step in each of the states. -/
inductive Sees : Prog σ ω W ι ε α → List ω → List (Shared σ W) → Except ε α → List ω → Prop
  | ret (a : α) (p : List ω) : Sees (.ret a) p [] (.ok a) p
  | raise (e : ε) (p : List ω) : Sees (.raise e) p [] (.error e) p
  | step {locked : κ → Bool} {prog prog₁ : Prog σ ω W ι ε α} {l : Label ι ε} {s s₁ : Shared σ W}
      {vs : List (Shared σ W)} {p p₁ p' : List ω} {o : Except ε α} : l.isCrash = false →
      Moves locked s prog p l s₁ prog₁ p₁ → Sees prog₁ p₁ vs o p' → Sees prog p (s :: vs) o p'

section

variable {prog : Prog σ ω W ι ε α} {vs : List (Shared σ W)} {p p' : List ω}

/-! ### Programs that are composed -/

theorem Sees.ret_inv {a : α} {o : Except ε α} (h : Sees (.ret a : Prog σ ω W ι ε α) p vs o p') :
    vs = [] ∧ o = .ok a ∧ p' = p := by
  cases h with
  | ret => exact ⟨rfl, rfl, rfl⟩
  | step _ hm _ => cases hm with
    | crash hd => cases hd

theorem Sees.raise_inv {e : ε} {o : Except ε α} (h : Sees (.raise e : Prog σ ω W ι ε α) p vs o p') :
    vs = [] ∧ o = .error e ∧ p' = p := by
  cases h with
  | raise => exact ⟨rfl, rfl, rfl⟩
  | step _ hm _ => cases hm with
    | crash hd => cases hd

/-- A program that has ended sees no more. -/
theorem sees_done (r : α → Prog σ ω W ι ε β) (h : ε → Prog σ ω W ι ε β)
    (hd : prog.isDone = true) : ∃ o, prog.graft r h = resume r h o ∧ ∀ p, Sees prog p [] o p := by
  cases prog with
  | ret a => exact ⟨.ok a, rfl, .ret a⟩
  | raise e => exact ⟨.error e, rfl, .raise e⟩
  | _ => cases hd

/-- What a grafted program sees is what the program sees, and then what takes over. -/
theorem Sees.graft_inv {r : α → Prog σ ω W ι ε β} {h : ε → Prog σ ω W ι ε β} {o : Except ε β}
    (hs : Sees (prog.graft r h) p vs o p') :
    ∃ vs₁ vs₂ o₁ p₁, vs = vs₁ ++ vs₂ ∧ Sees prog p vs₁ o₁ p₁ ∧
      Sees (resume r h o₁) p₁ vs₂ o p' := by
  by_cases hd : prog.isDone = true
  · obtain ⟨o₁, ho, hsees⟩ := sees_done r h hd
    exact ⟨[], vs, o₁, p, rfl, hsees p, ho ▸ hs⟩
  generalize hq : prog.graft r h = q at hs
  induction hs generalizing prog with
  | ret a p => cases prog <;> first | cases hq | exact absurd rfl hd
  | raise e p => cases prog <;> first | cases hq | exact absurd rfl hd
  | @step _ _ _ _ s _ vs _ p₁ _ _ hl hm hrest ih =>
    subst hq
    obtain ⟨prog₁, rfl, hm₁⟩ := hm.graft_inv hl (by simpa using hd)
    by_cases hd₁ : prog₁.isDone = true
    · obtain ⟨o₁, ho, hsees⟩ := sees_done r h hd₁
      exact ⟨[s], vs, o₁, p₁, rfl, .step hl hm₁ (hsees p₁), ho ▸ hrest⟩
    · obtain ⟨vs₁, vs₂, o₁, p₂, rfl, h₁, h₂⟩ := ih hd₁ rfl
      exact ⟨s :: vs₁, vs₂, o₁, p₂, rfl, .step hl hm₁ h₁, h₂⟩

theorem Sees.bind_inv {f : α → Prog σ ω W ι ε β} {b : β}
    (h : Sees (prog.bind f) p vs (.ok b) p') :
    ∃ vs₁ vs₂ a p₁, vs = vs₁ ++ vs₂ ∧ Sees prog p vs₁ (.ok a) p₁ ∧ Sees (f a) p₁ vs₂ (.ok b) p' := by
  obtain ⟨vs₁, vs₂, o₁, p₁, rfl, h₁, h₂⟩ := h.graft_inv
  cases o₁ with
  | ok a => exact ⟨vs₁, vs₂, a, p₁, rfl, h₁, h₂⟩
  | error e =>
    obtain ⟨-, ho, -⟩ := h₂.raise_inv
    cases ho

/-- A handler that raises itself is not run. -/
theorem Sees.tryCatch_inv {f : ε → Prog σ ω W ι ε α} {a : α} (hf : ∀ e, ∃ e', f e = .raise e')
    (h : Sees (prog.tryCatch f) p vs (.ok a) p') : Sees prog p vs (.ok a) p' := by
  obtain ⟨vs₁, vs₂, o₁, p₁, rfl, h₁, h₂⟩ := h.graft_inv
  cases o₁ with
  | ok b =>
    obtain ⟨rfl, ho, rfl⟩ := h₂.ret_inv
    cases ho
    rwa [List.append_nil]
  | error e =>
    obtain ⟨e', he'⟩ := hf e
    rw [resume, he'] at h₂
    obtain ⟨-, ho, -⟩ := h₂.raise_inv
    cases ho

theorem Sees.closing_inv {a : α} (h : Sees prog.closing p vs (.ok a) p') :
    ∃ vs₁ s p₁, vs = vs₁ ++ [s] ∧ Sees prog p vs₁ (.ok a) p₁ := by
  obtain ⟨vs₁, vs₂, o₁, p₁, rfl, h₁, h₂⟩ := h.graft_inv
  cases o₁ with
  | ok b =>
    cases h₂ with
    | step hl hm hrest =>
      cases hm with
      | crash _ => cases hl
      | rollback =>
        obtain ⟨rfl, ho, -⟩ := hrest.ret_inv
        cases ho
        exact ⟨vs₁, _, p₁, rfl, h₁⟩
  | error e =>
    cases h₂ with
    | step hl hm hrest =>
      cases hm with
      | crash _ => cases hl
      | rollback =>
        obtain ⟨-, ho, -⟩ := hrest.raise_inv
        cases ho

theorem Sees.query_inv {f : σ → α} {a : α}
    (h : Sees (Prog.query f : Prog σ ω W ι ε α) p vs (.ok a) p') :
    ∃ s, vs = [s] ∧ f (view s.db p) = a ∧ p' = p := by
  cases h with
  | step hl hm hrest =>
    cases hm with
    | crash _ => cases hl
    | selectFault =>
      obtain ⟨-, ho, -⟩ := hrest.raise_inv
      cases ho
    | select =>
      obtain ⟨rfl, ho, rfl⟩ := hrest.ret_inv
      exact ⟨_, rfl, Except.ok.inj ho.symm, rfl⟩

theorem Sees.invoke_inv {f : W → ι → W} {r : W → ι → Except ε α} {a : α}
    (h : Sees (Prog.invoke f r : Prog σ ω W ι ε α) p vs (.ok a) p') :
    ∃ s i, vs = [s] ∧ r s.world i = .ok a ∧ p' = p := by
  cases h with
  | @step _ _ _ _ s _ _ _ _ _ _ hl hm hrest =>
    cases hm with
    | crash _ => cases hl
    | callFault =>
      obtain ⟨-, ho, -⟩ := hrest.raise_inv
      cases ho
    | @call _ _ _ _ i =>
      cases hr : r s.world i with
      | ok b =>
        simp only [hr] at hrest
        obtain ⟨rfl, ho, rfl⟩ := hrest.ret_inv
        cases ho
        exact ⟨s, i, rfl, hr, rfl⟩
      | error e =>
        simp only [hr] at hrest
        obtain ⟨-, ho, -⟩ := hrest.raise_inv
        cases ho

end

/-! ### Threads of a system -/

/-- What a step makes of the committed state: nothing, or it adds what was pending. -/
theorem Moves.db {locked : κ → Bool} {prog prog' : Prog σ ω W ι ε α} {s s' : Shared σ W}
    {p p' : List ω} {l : Label ι ε} (h : Moves locked s prog p l s' prog' p') :
    s'.db = s.db ∨ s'.db = view s.db p := by
  cases h with
  | commit => exact Or.inr rfl
  | _ => exact Or.inl rfl

theorem Moves.crash_inv {locked : κ → Bool} {prog prog' : Prog σ ω W ι ε α} {s s' : Shared σ W}
    {p p' : List ω} {e : ε} (h : Moves locked s prog p (.crash e) s' prog' p') :
    prog' = .raise e := by
  cases h
  rfl

variable [DecidableEq κ]

/-- The states in which the steps of thread `i` are taken. -/
def Sys.views (i : Nat) : Sys σ ω W ι ε α → List (Nat × Label ι ε) → List (Shared σ W)
  | _, [] => []
  | S, (j, l) :: rest =>
    match S.step j l with
    | some S' => if j = i then S.shared :: S'.views i rest else S'.views i rest
    | none => []

theorem Sys.replay_cons {S S' : Sys σ ω W ι ε α} {j : Nat} {l : Label ι ε}
    {rest : List (Nat × Label ι ε)} (h : S.replay ((j, l) :: rest) = some S') :
    ∃ S₁, S.step j l = some S₁ ∧ S₁.replay rest = some S' := by
  rw [Sys.replay, Sys.replayWhere, if_pos rfl] at h
  exact Option.bind_eq_some_iff.mp h

/-- **A thread that returns has seen its states.** -/
theorem Sys.sees_of_replay {i : Nat} {a : α} {p' : List ω} {b' : Bool} {S' : Sys σ ω W ι ε α} :
    ∀ {schedule : List (Nat × Label ι ε)} {S : Sys σ ω W ι ε α} {t : Thread σ ω W ι ε α},
      S.replay schedule = some S' → S.threads[i]? = some t →
      S'.threads[i]? = some ⟨.ret a, p', b'⟩ →
      Sees t.prog t.pending (S.views i schedule) (.ok a) p' := by
  intro schedule
  induction schedule with
  | nil =>
    intro S t h ht ht'
    cases h
    rw [ht] at ht'
    cases ht'
    exact .ret a p'
  | cons step rest ih =>
    obtain ⟨j, l⟩ := step
    intro S t h ht ht'
    obtain ⟨S₁, hstep, hrest⟩ := Sys.replay_cons h
    rw [Sys.views, hstep]
    obtain ⟨u, s₁, u', hu, rfl, -, hm⟩ := Sys.step_inv hstep
    by_cases hij : j = i
    · subst hij
      rw [ht] at hu
      cases hu
      have hu' : (S.threads.set j u')[j]? = some u' :=
        List.getElem?_set_self (List.getElem?_eq_some_iff.mp ht).1
      have hsees := ih hrest hu' ht'
      dsimp only
      rw [if_pos rfl]
      refine .step ?_ hm hsees
      cases l with
      | crash e =>
        rw [hm.crash_inv] at hsees
        obtain ⟨-, ho, -⟩ := hsees.raise_inv
        cases ho
      | _ => rfl
    · dsimp only
      rw [if_neg hij]
      exact ih hrest ((List.getElem?_set_ne hij).trans ht) ht'

/-- **What every commit keeps** is kept from one state of a thread to the next. -/
theorem Sys.pairwise_views {R : σ → σ → Prop} (hrefl : ∀ s, R s s)
    (htrans : ∀ {a b c}, R a b → R b c → R a c) (hview : ∀ s (p : List ω), R s (view s p)) (i : Nat) :
    ∀ (schedule : List (Nat × Label ι ε)) (S : Sys σ ω W ι ε α),
      (∀ v ∈ S.views i schedule, R S.shared.db v.db) ∧
        (S.views i schedule).Pairwise fun v v' => R v.db v'.db := by
  intro schedule
  induction schedule with
  | nil => exact fun S => ⟨fun v hv => absurd hv List.not_mem_nil, .nil⟩
  | cons step rest ih =>
    obtain ⟨j, l⟩ := step
    intro S
    rw [Sys.views]
    cases hstep : S.step j l with
    | none => exact ⟨fun v hv => absurd hv List.not_mem_nil, .nil⟩
    | some S₁ =>
      obtain ⟨hfrom, hpairs⟩ := ih S₁
      obtain ⟨u, s₁, u', -, rfl, -, hm⟩ := Sys.step_inv hstep
      have hone : R S.shared.db s₁.db := by
        rcases hm.db with he | he
        · exact he ▸ hrefl _
        · exact he ▸ hview _ _
      have hlater : ∀ v ∈ Sys.views i ⟨s₁, S.threads.set j u'⟩ rest, R S.shared.db v.db :=
        fun v hv => htrans hone (hfrom v hv)
      dsimp only
      split
      · refine ⟨fun v hv => ?_, List.pairwise_cons.mpr ⟨hlater, hpairs⟩⟩
        rcases List.mem_cons.mp hv with rfl | hv
        · exact hrefl _
        · exact hlater v hv
      · exact ⟨hlater, hpairs⟩

end ReadCommitted
