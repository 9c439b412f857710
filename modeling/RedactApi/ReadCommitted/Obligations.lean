import Mathlib.Data.List.Infix
import RedactApi.ReadCommitted.Contract

/-!
# What an execution owes

Work is handed on through a queue in the world: an execution commits a state in
which something is `awaiting`, and later puts a message on the queue that is `due`
to it.  Between the two it owes the message.  A `Handoff` says what a committed
state awaits and what a message is due to; `settle` keeps the books of one
execution, over any change of the shared state that it makes.

`Honours` is a recursion on the program tree: the program takes nothing off the
queue, and ends owing what its postcondition says.  A step that does not fail
while something is owed keeps it (`Honours.moves`).  A program that keeps to
`quietContract` commits nothing that is awaited and sends nothing, so a contract
gives this half for free (`honours_of_wp`).
-/

namespace ReadCommitted

/-- What a committed state awaits, the queue in the world, and what a message is
due to. -/
structure Handoff (σ W μ δ : Type) where
  awaiting : σ → List δ
  queue : W → List μ
  due : μ → δ

section

variable {σ ω κ W ι ε α β μ δ : Type} [Store σ ω κ ε] [DecidableEq δ]

namespace Handoff

variable (H : Handoff σ W μ δ)

/-- What is awaited after a change and was not before. -/
def entered (s s' : Shared σ W) : List δ :=
  (H.awaiting s'.db).filter (· ∉ H.awaiting s.db)

/-- What the messages are due to that were put on the queue. -/
def sent (s s' : Shared σ W) : List δ :=
  ((H.queue s'.world).drop (H.queue s.world).length).map H.due

/-- What an execution owes after a change that it has made. -/
def settle (owed : List δ) (s s' : Shared σ W) : List δ :=
  (owed ++ H.entered s s').filter (· ∉ H.sent s s')

variable {H} {s s' : Shared σ W} {owed : List δ} {d : δ}

theorem mem_entered : d ∈ H.entered s s' ↔ d ∈ H.awaiting s'.db ∧ d ∉ H.awaiting s.db := by
  simp [entered]

theorem mem_settle : d ∈ H.settle owed s s' ↔
    (d ∈ owed ∨ d ∈ H.entered s s') ∧ d ∉ H.sent s s' := by
  rw [settle, List.mem_filter, List.mem_append, decide_eq_true_eq]

theorem entered_of_db (h : s'.db = s.db) : H.entered s s' = [] := by
  rw [entered, h, List.filter_eq_nil_iff]
  simp

omit [DecidableEq δ] in
theorem sent_of_queue (h : H.queue s'.world = H.queue s.world) : H.sent s s' = [] := by
  rw [sent, h, List.drop_length, List.map_nil]

theorem settle_of_queue (h : H.queue s'.world = H.queue s.world) :
    H.settle owed s s' = owed ++ H.entered s s' := by
  rw [settle, sent_of_queue h, List.filter_eq_self]
  simp

/-- A change that enters nothing and sends nothing leaves the books as they are. -/
theorem settle_quiet (hdb : H.entered s s' = []) (h : H.queue s'.world = H.queue s.world) :
    H.settle owed s s' = owed := by
  rw [settle_of_queue h, hdb, List.append_nil]

theorem settle_self (owed : List δ) (s : Shared σ W) : H.settle owed s s = owed :=
  settle_quiet (entered_of_db rfl) rfl

/-- A message pays for all that it is due to. -/
theorem settle_of_enqueue {m : μ} (hdb : s'.db = s.db)
    (h : H.queue s'.world = H.queue s.world ++ [m]) (howed : ∀ d ∈ owed, d = H.due m) :
    H.settle owed s s' = [] := by
  refine List.eq_nil_iff_forall_not_mem.mpr fun d hd => ?_
  obtain ⟨hd | hd, hsent⟩ := mem_settle.mp hd
  · refine hsent ?_
    rw [howed d hd, sent, h, List.drop_left]
    exact List.mem_cons_self
  · rw [entered_of_db hdb] at hd
    cases hd

omit [DecidableEq δ] in
theorem exists_message (hd : d ∈ H.sent s s') :
    ∃ k m, (H.queue s.world).length ≤ k ∧ (H.queue s'.world)[k]? = some m ∧ H.due m = d := by
  obtain ⟨m, hm, rfl⟩ := List.mem_map.mp hd
  obtain ⟨k, hk⟩ := List.mem_iff_getElem?.mp hm
  rw [List.getElem?_drop] at hk
  exact ⟨(H.queue s.world).length + k, m, Nat.le_add_right _ _, hk, rfl⟩

end Handoff

variable (H : Handoff σ W μ δ)

/-- The program keeps the queue, and what it owes where it ends is as `Q` and `E`
say.  A call may fail when nothing is owed. -/
def Prog.Honours (Q : α → List ω → List δ → Prop) (E : ε → List ω → List δ → Prop) :
    Prog σ ω W ι ε α → List ω → List δ → Prop
  | .ret a, p, owed => Q a p owed
  | .raise e, p, owed => E e p owed
  | .select k _, p, owed => ∀ s : Shared σ W, Free s.db p → (k (view s.db p)).Honours Q E p owed
  | .flush w k err, p, owed => ∀ s : Shared σ W, Free s.db p →
      (clash (view s.db p) w = false → k.Honours Q E (p ++ [w]) owed) ∧
      (clash (view s.db p) w = true → (err (Store.integrityError σ)).Honours Q E p owed)
  | .commit k _, p, owed => ∀ s : Shared σ W, Free s.db p →
      k.Honours Q E [] (H.settle owed s { s with db := view s.db p })
  | .rollback k, _, owed => k.Honours Q E [] owed
  | .call f k err, p, owed => (owed = [] → ∀ e, (err e).Honours Q E p []) ∧
      ∀ s : Shared σ W, Free s.db p → ∀ i, H.queue s.world <+: H.queue (f s.world i) ∧
        (k s.world i).Honours Q E p (H.settle owed s { s with world := f s.world i })

/-- The program never ends while it owes something. -/
def Prog.Pays (prog : Prog σ ω W ι ε α) (p : List ω) (owed : List δ) : Prop :=
  prog.Honours H (fun _ _ owed => owed = []) (fun _ _ owed => owed = []) p owed

variable {H} {p : List ω} {owed : List δ} {Q : α → List ω → List δ → Prop}
  {E : ε → List ω → List δ → Prop}

/-! ### The structure of `Honours` -/

theorem honours_mono {Q' : α → List ω → List δ → Prop} {E' : ε → List ω → List δ → Prop}
    (hQ : ∀ a p owed, Q a p owed → Q' a p owed) (hE : ∀ e p owed, E e p owed → E' e p owed) :
    ∀ (prog : Prog σ ω W ι ε α) {p : List ω} {owed : List δ},
      prog.Honours H Q E p owed → prog.Honours H Q' E' p owed := by
  intro prog
  induction prog with
  | ret a => intro p owed h; exact hQ a p owed h
  | raise e => intro p owed h; exact hE e p owed h
  | select k err ihk ihe => intro p owed h s hf; exact ihk _ (h s hf)
  | flush w k err ihk ihe =>
    intro p owed h s hf
    exact ⟨fun hc => ihk ((h s hf).1 hc), fun hc => ihe _ ((h s hf).2 hc)⟩
  | commit k err ihk ihe => intro p owed h s hf; exact ihk (h s hf)
  | rollback k ihk => intro p owed h; exact ihk h
  | call f k err ihk ihe =>
    intro p owed h
    refine ⟨fun ho e => ihe e (h.1 ho e), fun s hf i => ?_⟩
    obtain ⟨hq, hk⟩ := h.2 s hf i
    exact ⟨hq, ihk _ _ hk⟩

theorem honours_graft {Q : β → List ω → List δ → Prop} (r : α → Prog σ ω W ι ε β)
    (h : ε → Prog σ ω W ι ε β) :
    ∀ (prog : Prog σ ω W ι ε α) {p : List ω} {owed : List δ},
      prog.Honours H (fun a => (r a).Honours H Q E) (fun e => (h e).Honours H Q E) p owed →
      (prog.graft r h).Honours H Q E p owed := by
  intro prog
  induction prog with
  | ret a => intro p owed hp; exact hp
  | raise e => intro p owed hp; exact hp
  | select k err ihk ihe => intro p owed hp s hf; exact ihk _ (hp s hf)
  | flush w k err ihk ihe =>
    intro p owed hp s hf
    exact ⟨fun hc => ihk ((hp s hf).1 hc), fun hc => ihe _ ((hp s hf).2 hc)⟩
  | commit k err ihk ihe => intro p owed hp s hf; exact ihk (hp s hf)
  | rollback k ihk => intro p owed hp; exact ihk hp
  | call f k err ihk ihe =>
    intro p owed hp
    refine ⟨fun ho e => ihe e (hp.1 ho e), fun s hf i => ?_⟩
    obtain ⟨hq, hk⟩ := hp.2 s hf i
    exact ⟨hq, ihk _ _ hk⟩

/-! ### One rule for each way to build a program -/

theorem honours_bind {prog : Prog σ ω W ι ε β} {f : β → Prog σ ω W ι ε α}
    (h : prog.Honours H (fun b => (f b).Honours H Q E) E p owed) :
    (prog.bind f).Honours H Q E p owed :=
  honours_graft f .raise prog h

theorem honours_tryCatch {prog : Prog σ ω W ι ε α} {f : ε → Prog σ ω W ι ε α}
    (h : prog.Honours H Q (fun e => (f e).Honours H Q E) p owed) :
    (prog.tryCatch f).Honours H Q E p owed :=
  honours_graft .ret f prog h

theorem honours_closing {prog : Prog σ ω W ι ε α}
    (h : prog.Honours H (fun a _ => Q a []) (fun e _ => E e []) p owed) :
    prog.closing.Honours H Q E p owed :=
  honours_graft _ _ prog h

theorem honours_query {f : σ → α} (h : ∀ s, Q (f s) p owed) :
    (Prog.query f : Prog σ ω W ι ε α).Honours H Q E p owed :=
  fun _ _ => h _

theorem honours_send {w : ω} {Q : Unit → List ω → List δ → Prop}
    (hE : E (Store.integrityError σ) p owed)
    (hQ : ∀ s : Shared σ W, Free s.db (p ++ [w]) → Q () (p ++ [w]) owed) :
    (Prog.send w : Prog σ ω W ι ε Unit).Honours H Q E p owed :=
  fun s hf => ⟨fun hc => hQ s (hf.concat hc), fun _ => hE⟩

theorem honours_commit {Q : Unit → List ω → List δ → Prop}
    (h : ∀ s : Shared σ W, Free s.db p → Q () [] (H.settle owed s { s with db := view s.db p })) :
    (Prog.commitNow : Prog σ ω W ι ε Unit).Honours H Q E p owed := h

theorem honours_rollback {Q : Unit → List ω → List δ → Prop} (h : Q () [] owed) :
    (Prog.rollbackNow : Prog σ ω W ι ε Unit).Honours H Q E p owed := h

theorem honours_invoke {f : W → ι → W} {r : W → ι → Except ε α}
    (hf : ∀ w i, H.queue (f w i) = H.queue w) (hE : ∀ e, E e p owed) (hQ : ∀ a, Q a p owed) :
    (Prog.invoke f r : Prog σ ω W ι ε α).Honours H Q E p owed := by
  refine ⟨fun h => h ▸ hE, fun s _ i => ⟨hf s.world i ▸ List.prefix_rfl, ?_⟩⟩
  have hsame : H.settle owed s { s with world := f s.world i } = owed :=
    Handoff.settle_quiet (Handoff.entered_of_db rfl) (hf s.world i)
  rw [hsame]
  beta_reduce
  cases r s.world i with
  | ok a => exact hQ a
  | error e => exact hE e

/-- A call that puts one message on the queue pays what the message is due to. -/
theorem honours_enqueue {f : W → ι → W} {m : μ} {a : α} (hE : ∀ e, E e p []) (hQ : Q a p [])
    (hf : ∀ w i, H.queue (f w i) = H.queue w ++ [m]) (howed : ∀ d ∈ owed, d = H.due m) :
    (Prog.invoke f (fun _ _ => .ok a) : Prog σ ω W ι ε α).Honours H Q E p owed := by
  refine ⟨fun _ => hE, fun s _ i => ⟨?_, ?_⟩⟩
  · rw [hf]
    exact List.prefix_append _ _
  · have hpaid : H.settle owed s { s with world := f s.world i } = [] :=
      Handoff.settle_of_enqueue rfl (hf s.world i) howed
    rw [hpaid]
    exact hQ

/-! ### Steps -/

/-- A step of a program that honours what it owes.  It fails only at a call and only
when nothing is owed. -/
theorem Prog.Honours.moves {locked : κ → Bool} {s s' : Shared σ W}
    {prog prog' : Prog σ ω W ι ε α} {p' : List ω} {l : Label ι ε}
    (hm : Moves locked s prog p l s' prog' p') (hf : Free s.db p)
    (hok : l.isOk = true ∨ owed = [])
    (hfault : ∀ e, l = .fault e → ∃ f k err, prog = .call f k err)
    (hcrash : ∀ e, E e [] []) (h : prog.Honours H Q E p owed) :
    H.queue s.world <+: H.queue s'.world ∧ prog'.Honours H Q E p' (H.settle owed s s') := by
  have hstay : ∀ {q : Prog σ ω W ι ε α} {p'' : List ω}, q.Honours H Q E p'' owed →
      H.queue s.world <+: H.queue s.world ∧ q.Honours H Q E p'' (H.settle owed s s) := by
    intro q p'' hq
    rw [Handoff.settle_self]
    exact ⟨List.prefix_rfl, hq⟩
  cases hm with
  | crash _ =>
    obtain rfl := hok.resolve_left Bool.false_ne_true
    exact hstay (hcrash _)
  | selectFault => obtain ⟨_, _, _, hcall⟩ := hfault _ rfl; cases hcall
  | flushFault => obtain ⟨_, _, _, hcall⟩ := hfault _ rfl; cases hcall
  | commitFault => obtain ⟨_, _, _, hcall⟩ := hfault _ rfl; cases hcall
  | callFault =>
    obtain rfl := hok.resolve_left Bool.false_ne_true
    exact hstay (h.1 rfl _)
  | select => exact hstay (h s hf)
  | clash hc => exact hstay ((h s hf).2 hc)
  | flush _ hc => exact hstay ((h s hf).1 hc)
  | commit => exact ⟨List.prefix_rfl, h s hf⟩
  | rollback => exact hstay h
  | call => exact h.2 s hf _

/-! ### Programs with nothing to pay -/

variable (ι ε H) in
def quietContract : Contract σ ω W ι ε where
  inv _ := True
  rely _ _ := True
  guar s s' := H.entered s s' = [] ∧ H.queue s'.world = H.queue s.world
  allowed _ _ := True
  input _ _ _ := True
  fault _ := True
  past _ _ := True
  rely_refl _ := trivial
  rely_trans _ _ := trivial
  guar_refl _ := ⟨Handoff.entered_of_db rfl, rfl⟩
  past_refl _ := trivial
  past_trans _ _ := trivial
  rely_past _ := trivial

/-- **A quiet program** owes nothing on its way. -/
theorem honours_of_wp : ∀ {prog : Prog σ ω W ι ε α} {s : Shared σ W} {p : List ω},
    Free s.db p →
    (quietContract ι ε H).wp prog (fun a _ p => Q a p []) (fun e _ p => E e p []) s p →
    prog.Honours H Q E p [] := by
  have hnow : ∀ (s : Shared σ W) {s' : Shared σ W} {p : List ω}, Free s'.db p →
      (quietContract ι ε H).Now s p s' := fun _ _ _ hf => ⟨trivial, trivial, hf⟩
  intro prog
  induction prog with
  | ret a => intro s p _ h; exact h
  | raise e => intro s p _ h; exact h
  | select k err ihk ihe => intro s p _ h s' hf; exact ihk _ hf (h s' (hnow s hf)).1
  | flush w k err ihk ihe =>
    intro s p _ h s' hf
    obtain ⟨hgo, hclash, -⟩ := h s' (hnow s hf)
    exact ⟨fun hc => ihk (hf.concat hc) (hgo hc), fun hc => ihe _ hf (hclash hc)⟩
  | commit k err ihk ihe =>
    intro s p _ h s' hf
    obtain ⟨-, ⟨hentered, hqueue⟩, hk⟩ := (h s' (hnow s hf)).1 trivial
    rw [Handoff.settle_quiet hentered hqueue]
    exact ihk (free_nil _) hk
  | rollback k ihk => intro s p hf h; exact ihk (free_nil _) (h s (hnow s hf))
  | call f k err ihk ihe =>
    intro s p hf h
    refine ⟨fun _ e => ihe e hf ((h s (hnow s hf)).2 e trivial), fun s' hf' i => ?_⟩
    obtain ⟨hact, hk⟩ := (h s' (hnow s hf')).1 i trivial
    obtain ⟨hentered, hqueue⟩ := hact.guar
    rw [Handoff.settle_quiet hentered hqueue]
    exact ⟨hqueue ▸ List.prefix_rfl, ihk _ _ (s := ⟨s'.db, f s'.world i⟩) hf' hk⟩

end

end ReadCommitted
