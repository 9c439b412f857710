import RedactApi.ReadCommitted.System

/-!
# Contracts between transactions

A `Contract` fixes what every thread may assume and what it owes: an invariant
of the shared state, the changes `rely` it must live with, the changes `guar`
it may make, the commits that are considered (`allowed`), the answers the
environment may give (`input`) and the exceptions it may inject (`fault`).
`past` is what is remembered about a state once others have moved on.

`wp` is the weakest precondition of a program under a contract.  It is a
recursion on the program tree: before each operation anything in `rely` may
happen, then the operation must be good whatever it answers.  The rules of the
second half take one operation each and go forward from a state `s` with the
pending writes `p`, so the facts about earlier states stay hypotheses.

Two theorems make `wp` say something about a system.  `sound`: if what each
thread may do is within what the others rely on, the invariant holds in every
state of every schedule, and each step is within `guar`.  `sound_serial`: in a
schedule where one execution ends before the next begins nobody interferes, so
`rely` may be as small as equality.
-/

namespace ReadCommitted

/-- What threads assume and owe. -/
structure Contract (σ ω W ι ε : Type) where
  inv : Shared σ W → Prop
  rely : Shared σ W → Shared σ W → Prop
  guar : Shared σ W → Shared σ W → Prop
  allowed : Shared σ W → List ω → Prop
  input : Shared σ W → List ω → ι → Prop
  fault : ε → Prop
  past : Shared σ W → Shared σ W → Prop
  rely_refl : ∀ s, rely s s
  rely_trans : ∀ {a b c}, rely a b → rely b c → rely a c
  guar_refl : ∀ s, guar s s
  past_refl : ∀ s, past s s
  past_trans : ∀ {a b c}, past a b → past b c → past a c
  rely_past : ∀ {s s'}, rely s s' → past s s'

namespace Contract

variable {σ ω κ W ι ε α β : Type} [Store σ ω κ ε] (C : Contract σ ω W ι ε)

/-- What can be the case by the time a thread with pending writes `p` moves again. -/
structure Now (s : Shared σ W) (p : List ω) (s' : Shared σ W) : Prop where
  inv : C.inv s'
  rely : C.rely s s'
  free : Free s'.db p

/-- What is known of a later state when the thread itself has committed nothing. -/
structure After (s s' : Shared σ W) : Prop where
  inv : C.inv s'
  past : C.past s s'

/-- A change of the world that the thread makes itself. -/
structure Acts (s : Shared σ W) (w : W) : Prop where
  inv : C.inv { s with world := w }
  guar : C.guar s { s with world := w }
  past : C.past s { s with world := w }

/-- Weakest precondition: `Q` where the program returns, `E` where it raises. -/
def wp : Prog σ ω W ι ε α → (α → Shared σ W → List ω → Prop) →
    (ε → Shared σ W → List ω → Prop) → Shared σ W → List ω → Prop
  | .ret a, Q, _, s, p => Q a s p
  | .raise e, _, E, s, p => E e s p
  | .select k err, Q, E, s, p => ∀ s', C.Now s p s' →
      wp (k (view s'.db p)) Q E s' p ∧ ∀ e, C.fault e → wp (err e) Q E s' p
  | .flush w k err, Q, E, s, p => ∀ s', C.Now s p s' →
      (clash (view s'.db p) w = false → wp k Q E s' (p ++ [w])) ∧
      (clash (view s'.db p) w = true → wp (err (Store.integrityError σ)) Q E s' p) ∧
      ∀ e, C.fault e → wp (err e) Q E s' p
  | .commit k err, Q, E, s, p => ∀ s', C.Now s p s' →
      (C.allowed s' p → C.inv { s' with db := view s'.db p } ∧
        C.guar s' { s' with db := view s'.db p } ∧
        wp k Q E { s' with db := view s'.db p } []) ∧
      ∀ e, C.fault e → wp (err e) Q E s' p
  | .rollback k, Q, E, s, p => ∀ s', C.Now s p s' → wp k Q E s' []
  | .call f k err, Q, E, s, p => ∀ s', C.Now s p s' →
      (∀ i, C.input s' p i → C.Acts s' (f s'.world i) ∧
        wp (k s'.world i) Q E { s' with world := f s'.world i } p) ∧
      ∀ e, C.fault e → wp (err e) Q E s' p

/-- Where a thread keeps to its contract whatever it ends with. -/
def Safe (prog : Prog σ ω W ι ε α) (s : Shared σ W) (p : List ω) : Prop :=
  C.wp prog (fun _ _ _ => True) (fun _ _ _ => True) s p

/-- `E` accepts whatever is raised before the next commit. -/
def Escapes (E : ε → Shared σ W → List ω → Prop) (s : Shared σ W) : Prop :=
  ∀ e s' p, C.After s s' → E e s' p

/-- Committing `p` now keeps the contract and establishes `Q`. -/
def Lands (Q : Unit → Shared σ W → List ω → Prop) (s : Shared σ W) (p : List ω) : Prop :=
  C.inv { s with db := view s.db p } ∧ C.guar s { s with db := view s.db p } ∧
    Q () { s with db := view s.db p } []

/-- The states that lie between two. -/
def Between (s s' t : Shared σ W) : Prop := C.past s t ∧ C.past t s'

variable {C} {s s' : Shared σ W} {p : List ω} {Q : α → Shared σ W → List ω → Prop}
  {E : ε → Shared σ W → List ω → Prop}

theorem Between.later {s'' t : Shared σ W} (h : C.Between s s' t) (hl : C.past s' s'') :
    C.Between s s'' t := ⟨h.1, C.past_trans h.2 hl⟩

theorem Now.after (h : C.Now s p s') : C.After s s' := ⟨h.inv, C.rely_past h.rely⟩

theorem Now.trans {s'' : Shared σ W} (h : C.Now s p s') (h' : C.Now s' p s'') : C.Now s p s'' :=
  ⟨h'.inv, C.rely_trans h.rely h'.rely, h'.free⟩

theorem After.trans {s'' : Shared σ W} (h : C.After s s') (h' : C.After s' s'') : C.After s s'' :=
  ⟨h'.inv, C.past_trans h.past h'.past⟩

theorem After.self (h : C.inv s) : C.After s s := ⟨h, C.past_refl s⟩

theorem After.act {w : W} (h : C.After s s') (ha : C.Acts s' w) : C.After s { s' with world := w } :=
  ⟨ha.inv, C.past_trans h.past ha.past⟩

theorem Escapes.after (h : C.Escapes E s) (ha : C.After s s') : C.Escapes E s' :=
  fun e s'' p h' => h e s'' p (ha.trans h')

theorem Escapes.fault (h : C.Escapes E s) (e : ε) (s' : Shared σ W) (_ : C.fault e)
    (hn : C.Now s p s') : E e s' p := h e s' p hn.after

theorem escapes_after (s : Shared σ W) : C.Escapes (fun _ s' _ => C.After s s') s :=
  fun _ _ _ h => h

/-! ### The structure of `wp` -/

theorem wp_mono {Q' : α → Shared σ W → List ω → Prop} {E' : ε → Shared σ W → List ω → Prop}
    (hQ : ∀ a s p, Q a s p → Q' a s p) (hE : ∀ e s p, E e s p → E' e s p) :
    ∀ (prog : Prog σ ω W ι ε α) {s : Shared σ W} {p : List ω},
      C.wp prog Q E s p → C.wp prog Q' E' s p := by
  intro prog
  induction prog with
  | ret a => intro s p h; exact hQ a s p h
  | raise e => intro s p h; exact hE e s p h
  | select k err ihk ihe =>
    intro s p h s' hn
    exact ⟨ihk _ (h s' hn).1, fun e he => ihe e ((h s' hn).2 e he)⟩
  | flush w k err ihk ihe =>
    intro s p h s' hn
    exact ⟨fun hc => ihk ((h s' hn).1 hc), fun hc => ihe _ ((h s' hn).2.1 hc),
      fun e he => ihe e ((h s' hn).2.2 e he)⟩
  | commit k err ihk ihe =>
    intro s p h s' hn
    refine ⟨fun ha => ?_, fun e he => ihe e ((h s' hn).2 e he)⟩
    obtain ⟨hi, hg, hk⟩ := (h s' hn).1 ha
    exact ⟨hi, hg, ihk hk⟩
  | rollback k ihk => intro s p h s' hn; exact ihk (h s' hn)
  | call f k err ihk ihe =>
    intro s p h s' hn
    refine ⟨fun i hin => ?_, fun e he => ihe e ((h s' hn).2 e he)⟩
    obtain ⟨ha, hk⟩ := (h s' hn).1 i hin
    exact ⟨ha, ihk _ _ hk⟩

/-- What two contracts' postconditions say of a program holds together. -/
theorem wp_and {Q' : α → Shared σ W → List ω → Prop} {E' : ε → Shared σ W → List ω → Prop} :
    ∀ (prog : Prog σ ω W ι ε α) {s : Shared σ W} {p : List ω}, C.wp prog Q E s p →
      C.wp prog Q' E' s p →
      C.wp prog (fun a s p => Q a s p ∧ Q' a s p) (fun e s p => E e s p ∧ E' e s p) s p := by
  intro prog
  induction prog with
  | ret a => intro s p h h'; exact ⟨h, h'⟩
  | raise e => intro s p h h'; exact ⟨h, h'⟩
  | select k err ihk ihe =>
    intro s p h h' s' hn
    exact ⟨ihk _ (h s' hn).1 (h' s' hn).1, fun e he => ihe e ((h s' hn).2 e he) ((h' s' hn).2 e he)⟩
  | flush w k err ihk ihe =>
    intro s p h h' s' hn
    exact ⟨fun hc => ihk ((h s' hn).1 hc) ((h' s' hn).1 hc),
      fun hc => ihe _ ((h s' hn).2.1 hc) ((h' s' hn).2.1 hc),
      fun e he => ihe e ((h s' hn).2.2 e he) ((h' s' hn).2.2 e he)⟩
  | commit k err ihk ihe =>
    intro s p h h' s' hn
    refine ⟨fun ha => ?_, fun e he => ihe e ((h s' hn).2 e he) ((h' s' hn).2 e he)⟩
    obtain ⟨hi, hg, hk⟩ := (h s' hn).1 ha
    exact ⟨hi, hg, ihk hk ((h' s' hn).1 ha).2.2⟩
  | rollback k ihk => intro s p h h' s' hn; exact ihk (h s' hn) (h' s' hn)
  | call f k err ihk ihe =>
    intro s p h h' s' hn
    refine ⟨fun i hin => ?_, fun e he => ihe e ((h s' hn).2 e he) ((h' s' hn).2 e he)⟩
    obtain ⟨ha, hk⟩ := (h s' hn).1 i hin
    exact ⟨ha, ihk _ _ hk ((h' s' hn).1 i hin).2⟩

/-- **Grafting.**  What a grafted program needs is what it needs to establish
what the grafts need. -/
theorem wp_graft {Q : β → Shared σ W → List ω → Prop} (r : α → Prog σ ω W ι ε β)
    (h : ε → Prog σ ω W ι ε β) :
    ∀ (prog : Prog σ ω W ι ε α) {s : Shared σ W} {p : List ω},
      C.wp prog (fun a => C.wp (r a) Q E) (fun e => C.wp (h e) Q E) s p →
      C.wp (prog.graft r h) Q E s p := by
  intro prog
  induction prog with
  | ret a => intro s p hp; exact hp
  | raise e => intro s p hp; exact hp
  | select k err ihk ihe =>
    intro s p hp s' hn
    exact ⟨ihk _ (hp s' hn).1, fun e he => ihe e ((hp s' hn).2 e he)⟩
  | flush w k err ihk ihe =>
    intro s p hp s' hn
    exact ⟨fun hc => ihk ((hp s' hn).1 hc), fun hc => ihe _ ((hp s' hn).2.1 hc),
      fun e he => ihe e ((hp s' hn).2.2 e he)⟩
  | commit k err ihk ihe =>
    intro s p hp s' hn
    refine ⟨fun ha => ?_, fun e he => ihe e ((hp s' hn).2 e he)⟩
    obtain ⟨hi, hg, hk⟩ := (hp s' hn).1 ha
    exact ⟨hi, hg, ihk hk⟩
  | rollback k ihk => intro s p hp s' hn; exact ihk (hp s' hn)
  | call g k err ihk ihe =>
    intro s p hp s' hn
    refine ⟨fun i hin => ?_, fun e he => ihe e ((hp s' hn).2 e he)⟩
    obtain ⟨ha, hk⟩ := (hp s' hn).1 i hin
    exact ⟨ha, ihk _ _ hk⟩

/-- What others do takes nothing away from a thread whose ends are stable. -/
theorem wp_stable {R : Shared σ W → Prop} (hR : ∀ s s', R s → C.rely s s' → R s')
    {prog : Prog σ ω W ι ε α} (h : C.wp prog (fun _ s _ => R s) (fun _ s _ => R s) s p)
    (hr : C.rely s s') : C.wp prog (fun _ s _ => R s) (fun _ s _ => R s) s' p := by
  have hnow : ∀ {s''}, C.Now s' p s'' → C.Now s p s'' :=
    fun hn => ⟨hn.inv, C.rely_trans hr hn.rely, hn.free⟩
  cases prog with
  | ret a => exact hR s s' h hr
  | raise e => exact hR s s' h hr
  | select k err => exact fun s'' hn => h s'' (hnow hn)
  | flush w k err => exact fun s'' hn => h s'' (hnow hn)
  | commit k err => exact fun s'' hn => h s'' (hnow hn)
  | rollback k => exact fun s'' hn => h s'' (hnow hn)
  | call f k err => exact fun s'' hn => h s'' (hnow hn)

/-! ### One rule for each way to build a program -/

theorem wp_bind {prog : Prog σ ω W ι ε β} {f : β → Prog σ ω W ι ε α}
    (h : C.wp prog (fun b => C.wp (f b) Q E) E s p) : C.wp (prog.bind f) Q E s p :=
  wp_graft f .raise prog h

theorem wp_tryCatch {prog : Prog σ ω W ι ε α} {f : ε → Prog σ ω W ι ε α}
    (h : C.wp prog Q (fun e => C.wp (f e) Q E) s p) : C.wp (prog.tryCatch f) Q E s p :=
  wp_graft .ret f prog h

theorem wp_closing {prog : Prog σ ω W ι ε α}
    (h : C.wp prog (fun a s p => ∀ s', C.Now s p s' → Q a s' [])
      (fun e s p => ∀ s', C.Now s p s' → E e s' []) s p) : C.wp prog.closing Q E s p :=
  wp_graft _ _ prog h

/-! ### One rule for each operation -/

theorem wp_query {f : σ → α} (hF : ∀ e s', C.fault e → C.Now s p s' → E e s' p)
    (hQ : ∀ s', C.Now s p s' → Q (f (view s'.db p)) s' p) :
    C.wp (Prog.query f : Prog σ ω W ι ε α) Q E s p :=
  fun s' hn => ⟨hQ s' hn, fun e he => hF e s' he hn⟩

theorem wp_send {w : ω} {Q : Unit → Shared σ W → List ω → Prop} (hE : C.Escapes E s)
    (hQ : ∀ s', C.Now s p s' → clash (view s'.db p) w = false → Q () s' (p ++ [w])) :
    C.wp (Prog.send w : Prog σ ω W ι ε Unit) Q E s p :=
  fun s' hn => ⟨hQ s' hn, fun _ => hE _ s' p hn.after, fun e _ => hE e s' p hn.after⟩

theorem wp_commit {Q : Unit → Shared σ W → List ω → Prop}
    (hF : ∀ e s', C.fault e → C.Now s p s' → E e s' p)
    (hQ : ∀ s', C.Now s p s' → C.allowed s' p → C.Lands Q s' p) :
    C.wp (Prog.commitNow : Prog σ ω W ι ε Unit) Q E s p :=
  fun s' hn => ⟨hQ s' hn, fun e he => hF e s' he hn⟩

theorem wp_invoke_cases {f : W → ι → W} {r : W → ι → Except ε α}
    (hF : ∀ e s', C.fault e → C.Now s p s' → E e s' p)
    (hQ : ∀ s' i, C.Now s p s' → C.input s' p i → C.Acts s' (f s'.world i) ∧
      (∀ a, r s'.world i = .ok a → Q a { s' with world := f s'.world i } p) ∧
      ∀ e, r s'.world i = .error e → E e { s' with world := f s'.world i } p) :
    C.wp (Prog.invoke f r : Prog σ ω W ι ε α) Q E s p := by
  intro s' hn
  refine ⟨fun i hin => ?_, fun e he => hF e s' he hn⟩
  obtain ⟨hact, ha, he⟩ := hQ s' i hn hin
  refine ⟨hact, ?_⟩
  beta_reduce
  cases hr : r s'.world i with
  | ok a => exact ha a hr
  | error e => exact he e hr

/-- A fold of which each round knows what is left. -/
theorem wp_foldlM_rest {I : List α → β → Shared σ W → List ω → Prop}
    {f : β → α → Prog σ ω W ι ε β}
    (h : ∀ a as b s p, I (a :: as) b s p → C.wp (f b a) (I as) E s p) :
    ∀ {as : List α} {b : β} {s : Shared σ W} {p : List ω},
      I as b s p → C.wp (as.foldlM f b) (I []) E s p := by
  intro as
  induction as with
  | nil => intro b s p hb; exact hb
  | cons a as ih =>
    intro b s p hb
    rw [List.foldlM_cons]
    exact wp_bind (wp_mono (fun _ _ _ h' => ih h') (fun _ _ _ he => he) _ (h a as b s p hb))

theorem wp_foldlM {I : β → Shared σ W → List ω → Prop} {f : β → α → Prog σ ω W ι ε β}
    {as : List α} {b : β} (h : ∀ a ∈ as, ∀ b s p, I b s p → C.wp (f b a) I E s p) (hb : I b s p) :
    C.wp (as.foldlM f b) I E s p := by
  refine wp_mono (fun _ _ _ h' => h'.2) (fun _ _ _ he => he) _ (wp_foldlM_rest
    (I := fun left b s p => (∀ a ∈ left, ∀ b s p, I b s p → C.wp (f b a) I E s p) ∧ I b s p)
    (fun a left b s p hround => ?_) ⟨h, hb⟩)
  exact wp_mono (fun _ _ _ h' => ⟨fun a' ha' => hround.1 a' (List.mem_cons_of_mem a ha'), h'⟩)
    (fun _ _ _ he => he) _ (hround.1 a List.mem_cons_self b s p hround.2)

theorem wp_forM {I : Shared σ W → List ω → Prop} {f : α → Prog σ ω W ι ε PUnit} :
    ∀ {as : List α} {s : Shared σ W} {p : List ω},
      (∀ a ∈ as, ∀ s p, I s p → C.wp (f a) (fun _ => I) E s p) → I s p →
      C.wp (as.forM f) (fun _ => I) E s p := by
  intro as
  induction as with
  | nil => intro s p _ h; exact h
  | cons a as ih =>
    intro s p h hs
    show C.wp ((f a).bind fun _ => as.forM f) _ _ s p
    refine wp_bind (wp_mono (fun _ s' p' h' => ?_) (fun _ _ _ he => he) _
      (h a List.mem_cons_self s p hs))
    exact ih (fun a' ha' => h a' (List.mem_cons_of_mem a ha')) h'

/-! ### Soundness -/

theorem wp_moves {locked : κ → Bool} {prog prog' : Prog σ ω W ι ε α} {p' : List ω}
    {l : Label ι ε} (hm : Moves locked s prog p l s' prog' p') (hi : C.inv s)
    (hf : Free s.db p) (hfault : ∀ e, l = .fault e → C.fault e)
    (hinput : ∀ i, l = .ok i → C.input s p i)
    (hcommit : ∀ i, l = .ok i → prog.atCommit = true → C.allowed s p)
    (hcrash : ∀ e, l = .crash e → E e s [])
    (h : C.wp prog Q E s p) : C.inv s' ∧ C.guar s s' ∧ C.wp prog' Q E s' p' := by
  have hn : C.Now s p s := ⟨hi, C.rely_refl s, hf⟩
  cases hm with
  | crash _ => exact ⟨hi, C.guar_refl s, hcrash _ rfl⟩
  | selectFault => exact ⟨hi, C.guar_refl s, (h s hn).2 _ (hfault _ rfl)⟩
  | flushFault => exact ⟨hi, C.guar_refl s, (h s hn).2.2 _ (hfault _ rfl)⟩
  | commitFault => exact ⟨hi, C.guar_refl s, (h s hn).2 _ (hfault _ rfl)⟩
  | callFault => exact ⟨hi, C.guar_refl s, (h s hn).2 _ (hfault _ rfl)⟩
  | select => exact ⟨hi, C.guar_refl s, (h s hn).1⟩
  | clash hc => exact ⟨hi, C.guar_refl s, (h s hn).2.1 hc⟩
  | flush _ hc => exact ⟨hi, C.guar_refl s, (h s hn).1 hc⟩
  | commit => exact (h s hn).1 (hcommit _ rfl rfl)
  | rollback => exact ⟨hi, C.guar_refl s, h s hn⟩
  | call =>
    obtain ⟨ha, hk⟩ := (h s hn).1 _ (hinput _ rfl)
    exact ⟨ha.inv, ha.guar, hk⟩

variable [DecidableEq κ]

variable (C) in
/-- The guard of a schedule lets through what the contract considers and no more. -/
structure Fits (G : Guard σ ω W ι ε α) : Prop where
  fault : ∀ {S i e}, G S i (.fault e) → C.fault e
  input : ∀ {S i a t}, G S i (.ok a) → S.threads[i]? = some t → C.input S.shared t.pending a
  commit : ∀ {S i a t}, G S i (.ok a) → S.threads[i]? = some t → t.prog.atCommit = true →
    C.allowed S.shared t.pending

variable (C) in
/-- Every thread keeps to its contract, whatever the others do, and ends in `R`. -/
structure EndsIn (R : Shared σ W → Prop) (S : Sys σ ω W ι ε α) : Prop where
  inv : C.inv S.shared
  exclusive : Exclusive S
  safe : ∀ t ∈ S.threads, C.wp t.prog (fun _ s _ => R s) (fun _ s _ => R s) S.shared t.pending

variable (C) in
abbrev Good (S : Sys σ ω W ι ε α) : Prop := C.EndsIn (fun _ => True) S

omit [DecidableEq κ] in
theorem endsIn_start {R : Shared σ W → Prop} {s : Shared σ W} {ps : List (Prog σ ω W ι ε α)}
    (hi : C.inv s) (h : ∀ q ∈ ps, C.wp q (fun _ s _ => R s) (fun _ s _ => R s) s []) :
    C.EndsIn R (Sys.start s ps) where
  inv := hi
  exclusive := exclusive_start s ps
  safe := by
    intro t ht
    obtain ⟨q, hq, rfl⟩ := List.mem_map.mp ht
    exact h q hq

omit [DecidableEq κ] in
theorem good_start {s : Shared σ W} {ps : List (Prog σ ω W ι ε α)} (hi : C.inv s)
    (h : ∀ q ∈ ps, C.Safe q s []) : C.Good (Sys.start s ps) := endsIn_start hi h

/-- One step of an interleaved system.  A thread that dies ends where it is. -/
theorem EndsIn.step {R : Shared σ W → Prop} {G : Guard σ ω W ι ε α} (hG : C.Fits G)
    (hcrash : ∀ S i e, G S i (.crash e) → ∀ s, R s) (hR : ∀ s s', R s → C.rely s s' → R s')
    (hrely : ∀ s s', C.guar s s' → C.rely s s') {S S' : Sys σ ω W ι ε α} (h : C.EndsIn R S)
    (hs : Sys.Step G S S') : C.EndsIn R S' ∧ C.guar S.shared S'.shared := by
  obtain ⟨i, l, hg, hst⟩ := hs
  have hx := h.exclusive.step hst
  obtain ⟨t, s', t', ht, rfl, _, hm⟩ := Sys.step_inv hst
  have htm := List.mem_of_getElem? ht
  obtain ⟨hi, hgu, hw⟩ := wp_moves hm h.inv (h.exclusive.free t htm)
    (fun e he => hG.fault (he ▸ hg)) (fun a ha => hG.input (ha ▸ hg) ht)
    (fun a ha => hG.commit (ha ▸ hg) ht) (fun e he => hcrash _ _ e (he ▸ hg) _) (h.safe t htm)
  refine ⟨⟨hi, hx, fun u hu => ?_⟩, hgu⟩
  rcases List.mem_or_eq_of_mem_set hu with hu | rfl
  · exact wp_stable hR (h.safe u hu) (hrely _ _ hgu)
  · exact hw

theorem Good.step {G : Guard σ ω W ι ε α} (hG : C.Fits G)
    (hrely : ∀ s s', C.guar s s' → C.rely s s') {S S' : Sys σ ω W ι ε α} (h : C.Good S)
    (hs : Sys.Step G S S') : C.Good S' ∧ C.guar S.shared S'.shared :=
  EndsIn.step hG (fun _ _ _ _ _ => trivial) (fun _ _ _ _ => trivial) hrely h hs

/-- **Interleaved soundness.**  In every run of threads that keep to the
contract the invariant holds, and a thread that has ended has ended in `R`. -/
theorem sound_ends {R : Shared σ W → Prop} {G : Guard σ ω W ι ε α} (hG : C.Fits G)
    (hcrash : ∀ S i e, G S i (.crash e) → ∀ s, R s) (hR : ∀ s s', R s → C.rely s s' → R s')
    (hrely : ∀ s s', C.guar s s' → C.rely s s') {S S' : Sys σ ω W ι ε α} (h : C.EndsIn R S)
    (hr : Sys.Run G S S') : C.EndsIn R S' := by
  induction hr with
  | refl => exact h
  | tail _ hs ih => exact (ih.step hG hcrash hR hrely hs).1

theorem sound {G : Guard σ ω W ι ε α} (hG : C.Fits G)
    (hrely : ∀ s s', C.guar s s' → C.rely s s') {S S' : Sys σ ω W ι ε α} (h : C.Good S)
    (hr : Sys.Run G S S') : C.Good S' :=
  sound_ends hG (fun _ _ _ _ _ => trivial) (fun _ _ _ _ => trivial) hrely h hr

/-- What a run does is a sequence of guarantees. -/
theorem Good.run {G : Guard σ ω W ι ε α} (hG : C.Fits G)
    (hrely : ∀ s s', C.guar s s' → C.rely s s') {S S' : Sys σ ω W ι ε α} (h : C.Good S)
    (hr : Sys.Run G S S') : C.Good S' ∧ Relation.ReflTransGen C.guar S.shared S'.shared := by
  induction hr with
  | refl => exact ⟨h, .refl⟩
  | tail _ hs ih =>
    obtain ⟨hgood, hguar⟩ := ih.1.step hG hrely hs
    exact ⟨hgood, ih.2.tail hguar⟩

omit [Store σ ω κ ε] [DecidableEq κ] in
theorem of_guarantees {R : Shared σ W → Shared σ W → Prop} (hrefl : ∀ s, R s s)
    (hstep : ∀ {a b c}, R a b → C.guar b c → R a c) (h : Relation.ReflTransGen C.guar s s') :
    R s s' := by
  induction h with
  | refl => exact hrefl s
  | tail _ hguar ih => exact hstep ih hguar

end Contract

/-! ### Serial schedules -/

section

variable {σ ω κ W ι ε α : Type} [Store σ ω κ ε] [DecidableEq κ]

def Thread.running (t : Thread σ ω W ι ε α) : Bool := t.started && !t.prog.isDone

/-- A thread moves only while no other thread is running. -/
def Guard.serial : Guard σ ω W ι ε α := fun S i _ =>
  ∀ j t, S.threads[j]? = some t → t.running = true → j = i

def Sys.serialStep (S : Sys σ ω W ι ε α) (i : Nat) (_ : Label ι ε) : Bool :=
  S.threads.zipIdx.all fun t => !t.1.running || t.2 = i

omit [DecidableEq κ] [Store σ ω κ ε] in
theorem Guard.serial_of_serialStep (S : Sys σ ω W ι ε α) (i : Nat) (l : Label ι ε)
    (h : S.serialStep i l = true) : Guard.serial S i l := by
  intro j t ht hrun
  have hj := List.all_eq_true.mp h (t, j) (List.mk_mem_zipIdx_iff_getElem?.mpr ht)
  simpa [hrun] using hj

variable (C : Contract σ ω W ι ε)

/-- A thread that waits, has ended, or keeps to its contract while it is alone. -/
def Contract.Orderly (s : Shared σ W) (t : Thread σ ω W ι ε α) : Prop :=
  t.pending = [] ∧ (∀ s, C.inv s → C.Safe t.prog s []) ∧ t.started = false ∨
    t.prog.isDone = true ∨ t.running = true ∧ C.Safe t.prog s t.pending

/-- Every thread is orderly. -/
structure Contract.GoodSerial (S : Sys σ ω W ι ε α) : Prop where
  inv : C.inv S.shared
  exclusive : Exclusive S
  orderly : ∀ t ∈ S.threads, C.Orderly S.shared t

variable {C}

omit [DecidableEq κ] in
theorem Contract.goodSerial_start {s : Shared σ W} {ps : List (Prog σ ω W ι ε α)} (hi : C.inv s)
    (h : ∀ q ∈ ps, ∀ s, C.inv s → C.Safe q s []) : C.GoodSerial (Sys.start s ps) where
  inv := hi
  exclusive := exclusive_start s ps
  orderly := by
    intro t ht
    obtain ⟨q, hq, rfl⟩ := List.mem_map.mp ht
    exact Or.inl ⟨rfl, h q hq, rfl⟩

omit [DecidableEq κ] in
theorem Contract.Orderly.safe {s : Shared σ W} {t : Thread σ ω W ι ε α} (h : C.Orderly s t)
    (hi : C.inv s) : C.Safe t.prog s t.pending := by
  rcases h with ⟨hp, hs, _⟩ | hd | ⟨_, hs⟩
  · rw [hp]
    exact hs s hi
  · obtain ⟨prog, p, b⟩ := t
    cases prog <;> trivial
  · exact hs

theorem Contract.GoodSerial.step {G : Guard σ ω W ι ε α} (hG : C.Fits G)
    (hser : ∀ S i l, G S i l → Guard.serial S i l) {S S' : Sys σ ω W ι ε α}
    (h : C.GoodSerial S) (hs : Sys.Step G S S') :
    C.GoodSerial S' ∧ C.guar S.shared S'.shared := by
  obtain ⟨i, l, hg, hst⟩ := hs
  have hx := h.exclusive.step hst
  obtain ⟨t, s', t', ht, rfl, hbegun, hm⟩ := Sys.step_inv hst
  have htm := List.mem_of_getElem? ht
  obtain ⟨hi, hgu, hw⟩ := wp_moves hm h.inv (h.exclusive.free t htm)
    (fun e he => hG.fault (he ▸ hg)) (fun a ha => hG.input (ha ▸ hg) ht)
    (fun a ha => hG.commit (ha ▸ hg) ht) (fun _ _ => trivial)
    ((h.orderly t htm).safe h.inv)
  refine ⟨⟨hi, hx, fun u hu => ?_⟩, hgu⟩
  obtain ⟨j, hj⟩ := List.mem_iff_getElem?.mp hu
  by_cases hij : i = j
  · subst hij
    rw [List.getElem?_set_self (List.getElem?_eq_some_iff.mp ht).1] at hj
    cases hj
    by_cases hd : t'.prog.isDone = true
    · exact Or.inr (Or.inl hd)
    · exact Or.inr (Or.inr ⟨by simp [Thread.running, hbegun, hd], hw⟩)
  · rw [List.getElem?_set_ne hij] at hj
    rcases h.orderly u (List.mem_of_getElem? hj) with hu | hu | ⟨hu, _⟩
    · exact Or.inl hu
    · exact Or.inr (Or.inl hu)
    · exact absurd (hser _ _ _ hg j u hj hu).symm hij

/-- **Serial soundness.**  In every run in which one execution ends before the
next begins the invariant holds. -/
theorem Contract.sound_serial {G : Guard σ ω W ι ε α} (hG : C.Fits G)
    (hser : ∀ S i l, G S i l → Guard.serial S i l) {S S' : Sys σ ω W ι ε α}
    (h : C.GoodSerial S) (hr : Sys.Run G S S') : C.GoodSerial S' := by
  induction hr with
  | refl => exact h
  | tail _ hs ih => exact (ih.step hG hser hs).1

theorem Contract.GoodSerial.run {G : Guard σ ω W ι ε α} (hG : C.Fits G)
    (hser : ∀ S i l, G S i l → Guard.serial S i l) {S S' : Sys σ ω W ι ε α}
    (h : C.GoodSerial S) (hr : Sys.Run G S S') :
    C.GoodSerial S' ∧ Relation.ReflTransGen C.guar S.shared S'.shared := by
  induction hr with
  | refl => exact ⟨h, .refl⟩
  | tail _ hs ih =>
    obtain ⟨hgood, hguar⟩ := ih.1.step hG hser hs
    exact ⟨hgood, ih.2.tail hguar⟩

end

end ReadCommitted
