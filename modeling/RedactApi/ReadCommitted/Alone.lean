import RedactApi.ReadCommitted.Contract

/-!
# Programs that run alone

`Prog.alone` is the outcome of a program that nobody interferes with and that
nothing fails: a recursion on the program tree, with the environment's answers
taken from a stream.  Steps of a system in which only one thread is running agree
with it (`Moves.alone`), and a contract says of it what it says of the ends of the
program (`alone_of_wp`).

`redelivery` is about a program that is executed again and again.  If every
execution ends in a state that is `Done`, and nothing is committed to a state that
is, then any positive number of executions leaves what one leaves, as long as one
execution at a time moves while the state is not done.
-/

namespace ReadCommitted

section

variable {σ ω κ W ι ε α : Type} [Store σ ω κ ε]

def answer (i : ι) (a : Nat → ι) : Nat → ι
  | 0 => i
  | n + 1 => a n

/-- What is committed, and the world, when the program has ended. -/
def Prog.alone : Prog σ ω W ι ε α → (Nat → ι) → Shared σ W → List ω → Shared σ W
  | .ret _, _, s, _ => s
  | .raise _, _, s, _ => s
  | .select k _, a, s, p => (k (view s.db p)).alone (fun n => a (n + 1)) s p
  | .flush w k err, a, s, p =>
    if clash (view s.db p) w then (err (Store.integrityError σ)).alone (fun n => a (n + 1)) s p
    else k.alone (fun n => a (n + 1)) s (p ++ [w])
  | .commit k _, a, s, p => k.alone (fun n => a (n + 1)) { s with db := view s.db p } []
  | .rollback k, a, s, _ => k.alone (fun n => a (n + 1)) s []
  | .call f k _, a, s, p =>
    (k s.world (a 0)).alone (fun n => a (n + 1)) { s with world := f s.world (a 0) } p

theorem Prog.alone_done {prog : Prog σ ω W ι ε α} (h : prog.isDone = true) (a : Nat → ι)
    (s : Shared σ W) (p : List ω) : prog.alone a s p = s := by
  cases prog with
  | ret b => rfl
  | raise e => rfl
  | _ => cases h

theorem Moves.alone {locked : κ → Bool} {s s' : Shared σ W} {prog prog' : Prog σ ω W ι ε α}
    {p p' : List ω} {i : ι} (h : Moves locked s prog p (.ok i) s' prog' p') (a : Nat → ι) :
    prog.alone (answer i a) s p = prog'.alone a s' p' := by
  cases h with
  | select => rfl
  | clash hc => exact if_pos hc
  | flush _ hc => exact if_neg (by rw [hc]; exact Bool.false_ne_true)
  | commit => rfl
  | rollback => rfl
  | call => rfl

/-- **A contract speaks of the outcome.** -/
theorem Contract.alone_of_wp {C : Contract σ ω W ι ε} {R : Shared σ W → Prop}
    (hinput : ∀ s p i, C.input s p i) (hallowed : ∀ s p, C.allowed s p)
    (htrans : ∀ a b c, C.guar a b → C.guar b c → C.guar a c) :
    ∀ {prog : Prog σ ω W ι ε α} {s : Shared σ W} {p : List ω} (a : Nat → ι), C.inv s →
      Free s.db p → C.wp prog (fun _ s _ => R s) (fun _ s _ => R s) s p →
      C.inv (prog.alone a s p) ∧ C.guar s (prog.alone a s p) ∧ R (prog.alone a s p) := by
  intro prog
  induction prog with
  | ret b => intro s p a hi _ h; exact ⟨hi, C.guar_refl s, h⟩
  | raise e => intro s p a hi _ h; exact ⟨hi, C.guar_refl s, h⟩
  | select k err ihk ihe =>
    intro s p a hi hf h
    exact ihk _ _ hi hf (h s ⟨hi, C.rely_refl s, hf⟩).1
  | flush w k err ihk ihe =>
    intro s p a hi hf h
    obtain ⟨hgo, hclash, -⟩ := h s ⟨hi, C.rely_refl s, hf⟩
    rw [Prog.alone]
    split
    · rename_i hc
      exact ihe _ _ hi hf (hclash hc)
    · rename_i hc
      rw [Bool.not_eq_true] at hc
      exact ihk _ hi (hf.concat hc) (hgo hc)
  | commit k err ihk ihe =>
    intro s p a hi hf h
    obtain ⟨hi', hg, hk⟩ := (h s ⟨hi, C.rely_refl s, hf⟩).1 (hallowed s p)
    obtain ⟨hend, hg', hr⟩ := ihk (fun n => a (n + 1)) hi' (free_nil _) hk
    exact ⟨hend, htrans _ _ _ hg hg', hr⟩
  | rollback k ihk =>
    intro s p a hi hf h
    exact ihk _ hi (free_nil _) (h s ⟨hi, C.rely_refl s, hf⟩)
  | call f k err ihk ihe =>
    intro s p a hi hf h
    obtain ⟨ha, hk⟩ := (h s ⟨hi, C.rely_refl s, hf⟩).1 (a 0) (hinput s p (a 0))
    obtain ⟨hend, hg', hr⟩ := ihk _ _ (fun n => a (n + 1)) ha.inv hf hk
    exact ⟨hend, htrans _ _ _ ha.guar hg', hr⟩

def aloneContract (ι ε : Type) (I : Shared σ W → Prop) (G : Shared σ W → Shared σ W → Prop)
    (hrefl : ∀ s, G s s) : Contract σ ω W ι ε where
  inv := I
  rely s s' := s'.db = s.db
  guar := G
  allowed _ _ := True
  input _ _ _ := True
  fault _ := False
  past s s' := s'.db = s.db
  rely_refl _ := rfl
  rely_trans h h' := h'.trans h
  guar_refl := hrefl
  past_refl _ := rfl
  past_trans h h' := h'.trans h
  rely_past h := h

/-! ### Executions of one program -/

variable (Done : σ → Prop)

def StaysDone (s s' : Shared σ W) : Prop := Done s.db → s'.db = s.db

variable {Done}

theorem StaysDone.refl (s : Shared σ W) : StaysDone Done s s := fun _ => rfl

theorem StaysDone.trans {a b c : Shared σ W} (h : StaysDone Done a b) (h' : StaysDone Done b c) :
    StaysDone Done a c := by
  intro ha
  have hb := h ha
  rw [← hb] at ha
  exact (h' ha).trans hb

variable (ι ε Done) in
def onceContract : Contract σ ω W ι ε :=
  aloneContract ι ε (fun _ => True) (StaysDone Done) .refl

variable (ι Done) in
def EndsDone (prog : Prog σ ω W ι ε α) (s : Shared σ W) (p : List ω) : Prop :=
  (onceContract ι ε Done).wp prog (fun _ s _ => Done s.db) (fun _ s _ => Done s.db) s p

theorem EndsDone.alone {prog : Prog σ ω W ι ε α} {s : Shared σ W} {p : List ω}
    (h : EndsDone ι Done prog s p) (hf : Free s.db p) (a : Nat → ι) :
    StaysDone Done s (prog.alone a s p) :=
  (Contract.alone_of_wp (fun _ _ _ => trivial) (fun _ _ => trivial) (fun _ _ _ => StaysDone.trans) a trivial
    hf h).2.1

theorem EndsDone.done {prog : Prog σ ω W ι ε α} {s : Shared σ W} {p : List ω}
    (h : EndsDone ι Done prog s p) (hd : prog.isDone = true) : Done s.db := by
  cases prog with
  | ret b => exact h
  | raise e => exact h
  | _ => cases hd

variable [DecidableEq κ]

variable (Done) in
/-- No step fails, and while the state is not done only one execution at a time
moves. -/
def Guard.oneUntilDone : Guard σ ω W ι ε α := fun S i l =>
  (Done S.shared.db ∨ Guard.serial S i l) ∧ ∃ a, l = .ok a

def Thread.Waits (prog : Prog σ ω W ι ε α) (t : Thread σ ω W ι ε α) : Prop :=
  t.prog = prog ∧ t.pending = [] ∧ t.started = false

/-- How far the executions have come: none has begun, the first is running, or the
state is done and stays what one execution made it. -/
inductive Progress (Done : σ → Prop) (prog : Prog σ ω W ι ε α) (s₀ : Shared σ W)
    (S : Sys σ ω W ι ε α) : Prop
  | waiting : S.shared = s₀ → (∀ t ∈ S.threads, t.Waits prog) → Progress Done prog s₀ S
  | first (i : Nat) (t : Thread σ ω W ι ε α) : S.threads[i]? = some t → t.running = true →
      (∀ j u, S.threads[j]? = some u → j ≠ i → u.Waits prog) →
      (∀ a, ∃ a₀, t.prog.alone a S.shared t.pending = prog.alone a₀ s₀ []) →
      Progress Done prog s₀ S
  | done (a₀ : Nat → ι) : Done S.shared.db → S.shared.db = (prog.alone a₀ s₀ []).db →
      Progress Done prog s₀ S

/-- Executions of a program that is done once. -/
structure Redelivered (Done : σ → Prop) (prog : Prog σ ω W ι ε α) (s₀ : Shared σ W)
    (S : Sys σ ω W ι ε α) : Prop where
  exclusive : Exclusive S
  safe : ∀ t ∈ S.threads, t.Waits prog ∨ EndsDone ι Done t.prog S.shared t.pending
  progress : Progress Done prog s₀ S

omit [DecidableEq κ] in
/-- The first execution has made a step; it goes on, or the state is done. -/
theorem progress_first {prog : Prog σ ω W ι ε α} {s₀ s' : Shared σ W} [Nonempty ι]
    {ts : List (Thread σ ω W ι ε α)} {i : Nat} {t t' : Thread σ ω W ι ε α}
    (ht : ts[i]? = some t) (hbegun : t'.started = true) (hfree : Free s'.db t'.pending)
    (hsafe : EndsDone ι Done t'.prog s' t'.pending)
    (hothers : ∀ j u, ts[j]? = some u → j ≠ i → u.Waits prog)
    (ha : ∀ a, ∃ a₀, t'.prog.alone a s' t'.pending = prog.alone a₀ s₀ []) :
    Progress Done prog s₀ ⟨s', ts.set i t'⟩ := by
  by_cases hdone : Done s'.db
  · obtain ⟨a₀, ha₀⟩ := ha fun _ => Classical.arbitrary ι
    have hsame := hsafe.alone hfree (fun _ => Classical.arbitrary ι) hdone
    exact .done a₀ hdone (hsame.symm.trans (congrArg Shared.db ha₀))
  · refine .first i t' (List.getElem?_set_self (List.getElem?_eq_some_iff.mp ht).1) ?_ ?_ ha
    · have hgoes : t'.prog.isDone = false := by
        by_contra hd
        exact hdone (hsafe.done (by simpa using hd))
      simp [Thread.running, hbegun, hgoes]
    · intro j u hu hne
      rw [List.getElem?_set_ne (Ne.symm hne)] at hu
      exact hothers j u hu hne

theorem Redelivered.step {prog : Prog σ ω W ι ε α} {s₀ : Shared σ W} [Nonempty ι]
    (hprog : ∀ s, EndsDone ι Done prog s []) {S S' : Sys σ ω W ι ε α}
    (h : Redelivered Done prog s₀ S) (hs : Sys.Step (Guard.oneUntilDone Done) S S') :
    Redelivered Done prog s₀ S' := by
  obtain ⟨i, l, ⟨hser, b, rfl⟩, hst⟩ := hs
  have hx' := h.exclusive.step hst
  obtain ⟨t, s', t', ht, rfl, hbegun, hm⟩ := Sys.step_inv hst
  have htm := List.mem_of_getElem? ht
  have hi := (List.getElem?_eq_some_iff.mp ht).1
  have hfree : Free s'.db t'.pending := hx'.free t' (List.mem_of_getElem? (List.getElem?_set_self hi))
  have hends : EndsDone ι Done t.prog S.shared t.pending := by
    rcases h.safe t htm with ⟨hq, hp, -⟩ | hends
    · rw [hq, hp]
      exact hprog S.shared
    · exact hends
  obtain ⟨-, hguar, hends'⟩ := Contract.wp_moves hm trivial (h.exclusive.free t htm)
    (fun _ he => by cases he) (fun _ _ => trivial) (fun _ _ _ => trivial) (fun _ he => by cases he)
    hends
  have hguar : StaysDone Done S.shared s' := hguar
  -- nobody else is between its beginning and its end, or nothing changes
  have hsafe : ∀ u ∈ S.threads.set i t', u.Waits prog ∨ EndsDone ι Done u.prog s' u.pending := by
    intro u hu
    obtain ⟨j, hj⟩ := List.mem_iff_getElem?.mp hu
    by_cases hij : i = j
    · subst hij
      rw [List.getElem?_set_self hi] at hj
      cases hj
      exact Or.inr hends'
    · rw [List.getElem?_set_ne hij] at hj
      have hum := List.mem_of_getElem? hj
      by_cases hdone : Done S.shared.db
      · exact (h.safe u hum).imp_right fun hu =>
          Contract.wp_stable (fun a b ha hab => by rwa [show b.db = a.db from hab]) hu (hguar hdone)
      · cases h.progress with
        | waiting _ hwaits => exact Or.inl (hwaits u hum)
        | first k v hv hrun hothers _ =>
          obtain rfl : k = i := (hser.resolve_left hdone) k v hv hrun
          exact Or.inl (hothers j u hj (Ne.symm hij))
        | done a₀ hd _ => exact absurd hd hdone
  refine ⟨hx', hsafe, ?_⟩
  by_cases hdone : Done S.shared.db
  · have hsame : s'.db = S.shared.db := hguar hdone
    obtain ⟨a₀, ha₀⟩ : ∃ a₀, S.shared.db = (prog.alone a₀ s₀ []).db := by
      cases h.progress with
      | waiting hshared _ =>
        rw [hshared] at hdone ⊢
        exact ⟨fun _ => b, ((hprog s₀).alone (free_nil _) (fun _ => b) hdone).symm⟩
      | first k v hv _ _ ha =>
        obtain ⟨a₀, ha₀⟩ := ha fun _ => b
        have hv' : EndsDone ι Done v.prog S.shared v.pending := by
          rcases h.safe v (List.mem_of_getElem? hv) with ⟨hq, hp, -⟩ | hends
          · rw [hq, hp]
            exact hprog S.shared
          · exact hends
        have hkept := hv'.alone (h.exclusive.free v (List.mem_of_getElem? hv)) (fun _ => b) hdone
        exact ⟨a₀, hkept.symm.trans (congrArg Shared.db ha₀)⟩
      | done a₀ _ ha₀ => exact ⟨a₀, ha₀⟩
    exact .done a₀ (hsame ▸ hdone) (hsame.trans ha₀)
  · cases h.progress with
    | waiting hshared hwaits =>
      obtain ⟨hq, hp, -⟩ := hwaits t htm
      refine progress_first ht hbegun hfree hends'
        (fun j u hu _ => hwaits u (List.mem_of_getElem? hu)) fun a => ⟨answer b a, ?_⟩
      rw [← hm.alone a, hq, hp, hshared]
    | first k u hu hrun hothers ha =>
      obtain rfl : k = i := (hser.resolve_left hdone) k u hu hrun
      obtain rfl : u = t := Option.some.inj (hu.symm.trans ht)
      refine progress_first ht hbegun hfree hends' hothers fun a => ?_
      obtain ⟨a₀, ha₀⟩ := ha (answer b a)
      exact ⟨a₀, (hm.alone a).symm.trans ha₀⟩
    | done a₀ hd _ => exact absurd hd hdone

/-- **Redelivery.**  Any positive number of executions of a program that is done once
leaves what one execution leaves. -/
theorem redelivery {prog : Prog σ ω W ι ε α} {s₀ : Shared σ W} [Nonempty ι]
    (hprog : ∀ s, EndsDone ι Done prog s []) {k : Nat} (hk : k ≠ 0) {S : Sys σ ω W ι ε α}
    (hr : Sys.Run (Guard.oneUntilDone Done) (Sys.start s₀ (List.replicate k prog)) S)
    (hdone : ∀ t ∈ S.threads, t.prog.isDone = true) :
    ∃ a₀, S.shared.db = (prog.alone a₀ s₀ []).db := by
  have hwaits : ∀ t ∈ (Sys.start s₀ (List.replicate k prog)).threads, t.Waits prog := by
    intro t ht
    obtain ⟨q, hq, rfl⟩ := List.mem_map.mp ht
    exact ⟨List.eq_of_mem_replicate hq, rfl, rfl⟩
  have hlen : S.threads.length = k := by
    rw [Sys.length_of_run hr]
    simp [Sys.start]
  have hred : Redelivered Done prog s₀ S := by
    clear hdone hlen
    induction hr with
    | refl => exact ⟨exclusive_start _ _, fun t ht => Or.inl (hwaits t ht), .waiting rfl hwaits⟩
    | tail _ hs ih => exact ih.step hprog hs
  cases hred.progress with
  | waiting hshared hall =>
    obtain ⟨t, ht⟩ := List.exists_mem_of_length_pos (by omega : 0 < S.threads.length)
    refine ⟨fun _ => Classical.arbitrary ι, ?_⟩
    rw [← (hall t ht).1, Prog.alone_done (hdone t ht), hshared]
  | first i t ht hrun _ _ =>
    rw [Thread.running, hdone t (List.mem_of_getElem? ht)] at hrun
    simp at hrun
  | done a₀ _ hdb => exact ⟨a₀, hdb⟩

end

end ReadCommitted
