import RedactApi.ReadCommitted.Obligations

/-!
# A queue that delivers at least once

A `Service` is a hand-off with programs: one that handles each message and one that
serves each request.  A `Deployment` of it is a committed state, a world with the
queue, and executions that begin at any time.  The queue only grows, so a message is
known by its position.  It may be delivered any number of times until it is
acknowledged, and a delivery that has ended, and has not died, acknowledges it.

`Kept` is the invariant of a deployment in which no execution dies, and no call of
one fails, while it owes something.  Whatever is awaited is owed by an execution, or
a message that is due to it waits on the queue and no live delivery of that message
can end before it is not awaited any more.
-/

namespace ReadCommitted

/-- The programs behind a queue: `handle` for its messages, `serve` for requests. -/
structure Service (σ ω W ι ε α μ ρ δ : Type) extends Handoff σ W μ δ where
  handle : μ → Prog σ ω W ι ε α
  serve : ρ → Prog σ ω W ι ε α

/-- A thread, the position of the message it was delivered with, whether it has died,
and what it has committed to be awaited and not yet sent a message for. -/
structure Execution (σ ω W ι ε α δ : Type) where
  thread : Thread σ ω W ι ε α
  message : Option Nat
  died : Bool
  owes : List δ

def Execution.begin {σ ω W ι ε α δ : Type} (prog : Prog σ ω W ι ε α) (message : Option Nat) :
    Execution σ ω W ι ε α δ :=
  ⟨⟨prog, [], false⟩, message, false, []⟩

def Execution.live {σ ω W ι ε α δ : Type} (x : Execution σ ω W ι ε α δ) : Bool :=
  !x.thread.prog.isDone

structure Deployment (σ ω W ι ε α δ : Type) where
  shared : Shared σ W
  executions : List (Execution σ ω W ι ε α δ)
  acknowledged : List Nat

/-- Nothing runs and nothing has been acknowledged. -/
def Deployment.start {σ ω W ι ε α δ : Type} (s : Shared σ W) : Deployment σ ω W ι ε α δ :=
  ⟨s, [], []⟩

inductive Event (ι ε ρ : Type) : Type
  | request (r : ρ)
  | deliver (position : Nat)
  | run (i : Nat) (l : Label ι ε)
  | acknowledge (i : Nat)

section

variable {σ ω κ W ι ε α μ ρ δ : Type} [Store σ ω κ ε] [DecidableEq δ]

namespace Deployment

def system (D : Deployment σ ω W ι ε α δ) : Sys σ ω W ι ε α :=
  ⟨D.shared, D.executions.map (·.thread)⟩

def spawn (D : Deployment σ ω W ι ε α δ) (prog : Prog σ ω W ι ε α) (message : Option Nat) :
    Deployment σ ω W ι ε α δ :=
  { D with executions := D.executions ++ [.begin prog message] }

end Deployment

namespace Service

variable (V : Service σ ω W ι ε α μ ρ δ)

/-- The messages that may still be delivered. -/
def unacknowledged (D : Deployment σ ω W ι ε α δ) : List μ :=
  ((V.queue D.shared.world).zipIdx.filter (·.2 ∉ D.acknowledged)).map (·.1)

/-- What the message is due to that the execution handles. -/
def handling (D : Deployment σ ω W ι ε α δ) (x : Execution σ ω W ι ε α δ) : Option δ :=
  (x.message.bind fun k => (V.queue D.shared.world)[k]?).map V.due

def advance (x : Execution σ ω W ι ε α δ) (l : Label ι ε) (s s' : Shared σ W)
    (t : Thread σ ω W ι ε α) : Execution σ ω W ι ε α δ :=
  ⟨t, x.message, x.died || l.isCrash, V.settle x.owes s s'⟩

/-- A condition on what may happen, stated on the state before. -/
abbrev Schedule (σ ω W ι ε α ρ δ : Type) := Deployment σ ω W ι ε α δ → Event ι ε ρ → Prop

/-- A call that would put something on the queue. -/
def Sends (w : W) : Prog σ ω W ι ε α → Prop
  | .call f _ _ => ∃ i, V.queue (f w i) ≠ V.queue w
  | _ => False

/-- An execution dies anywhere; nothing else fails but the sending of a message. -/
def failures : Schedule σ ω W ι ε α ρ δ
  | D, .run i (.fault _) => ∃ x, D.executions[i]? = some x ∧ V.Sends D.shared.world x.thread.prog
  | _, _ => True

/-- An execution that owes something neither dies nor fails. -/
def debtorsGoOn : Schedule σ ω W ι ε α ρ δ
  | D, .run i l => ∀ x, D.executions[i]? = some x → x.owes = [] ∨ l.isOk = true
  | _, _ => True

/-- A message that is due to it waits, or an execution is at work on it: a delivery of
such a message, or one that is to send it. -/
def Attended (D : Deployment σ ω W ι ε α δ) (d : δ) : Prop :=
  (∃ m ∈ V.unacknowledged D, V.due m = d) ∨
    ∃ x ∈ D.executions, x.live = true ∧ (d ∈ x.owes ∨ V.handling D x = some d)

instance (D : Deployment σ ω W ι ε α δ) (d : δ) : Decidable (V.Attended D d) :=
  inferInstanceAs (Decidable (_ ∨ _))

variable {V}

omit [DecidableEq δ] [Store σ ω κ ε] in
theorem Sends.inv {w : W} {prog : Prog σ ω W ι ε α} (h : V.Sends w prog) :
    ∃ f k err i, prog = .call f k err ∧ V.queue (f w i) ≠ V.queue w := by
  cases prog with
  | call f k err =>
    obtain ⟨i, hne⟩ := h
    exact ⟨f, k, err, i, rfl, hne⟩
  | _ => exact h.elim

omit [DecidableEq δ] [Store σ ω κ ε] in
theorem mem_unacknowledged {D : Deployment σ ω W ι ε α δ} {m : μ} :
    m ∈ V.unacknowledged D ↔ ∃ k, (V.queue D.shared.world)[k]? = some m ∧ k ∉ D.acknowledged := by
  simp only [unacknowledged, List.mem_map, List.mem_filter, Prod.exists, List.mem_zipIdx_iff_getElem?,
    decide_eq_true_eq]
  constructor
  · rintro ⟨m', k, hk, rfl⟩
    exact ⟨k, hk⟩
  · rintro ⟨k, hk⟩
    exact ⟨m, k, hk, rfl⟩

/-! ### What happens -/

section

variable [DecidableEq κ]

variable (V) in
def step (D : Deployment σ ω W ι ε α δ) : Event ι ε ρ → Option (Deployment σ ω W ι ε α δ)
  | .request r => some (D.spawn (V.serve r) none)
  | .deliver k =>
    if k ∈ D.acknowledged then none
    else (V.queue D.shared.world)[k]?.map fun m => D.spawn (V.handle m) (some k)
  | .run i l => D.executions[i]?.bind fun x =>
    (x.thread.step (heldBy (D.system.threads.eraseIdx i)) D.shared l).map fun r =>
      { D with shared := r.1, executions := D.executions.set i (V.advance x l D.shared r.1 r.2) }
  | .acknowledge i => D.executions[i]?.bind fun x => x.message.bind fun k =>
    if x.live || x.died then none else some { D with acknowledged := k :: D.acknowledged }

variable (V) in
def Step (G : Schedule σ ω W ι ε α ρ δ) (D D' : Deployment σ ω W ι ε α δ) : Prop :=
  ∃ e, G D e ∧ V.step D e = some D'

variable (V) in
def Run (G : Schedule σ ω W ι ε α ρ δ) :
    Deployment σ ω W ι ε α δ → Deployment σ ω W ι ε α δ → Prop :=
  Relation.ReflTransGen (V.Step G)

variable (V) in
def replayWhere (ok : Deployment σ ω W ι ε α δ → Event ι ε ρ → Bool) :
    Deployment σ ω W ι ε α δ → List (Event ι ε ρ) → Option (Deployment σ ω W ι ε α δ)
  | D, [] => some D
  | D, e :: rest => if ok D e then (V.step D e).bind fun D' => replayWhere ok D' rest else none

def mayFail [DecidableEq μ] (V : Service σ ω W ι ε α μ ρ δ) (a : ι)
    (D : Deployment σ ω W ι ε α δ) : Event ι ε ρ → Bool
  | .run i (.fault _) => D.executions[i]?.any fun x =>
    match x.thread.prog with
    | .call f _ _ => V.queue (f D.shared.world a) ≠ V.queue D.shared.world
    | _ => false
  | _ => true

def goesOn (D : Deployment σ ω W ι ε α δ) : Event ι ε ρ → Bool
  | .run i l => D.executions[i]?.all fun x => x.owes.isEmpty || l.isOk
  | _ => true

omit [DecidableEq δ] in
theorem failures_of_mayFail [DecidableEq μ] {a : ι} {D : Deployment σ ω W ι ε α δ} {e : Event ι ε ρ}
    (h : V.mayFail a D e = true) : V.failures D e := by
  cases e with
  | run i l =>
    cases l with
    | fault e =>
      obtain ⟨x, hx, hsends⟩ := (Option.any_eq_true _ _).mp h
      refine ⟨x, hx, ?_⟩
      cases hprog : x.thread.prog with
      | call f k err =>
        rw [hprog, decide_eq_true_eq] at hsends
        exact ⟨a, hsends⟩
      | _ =>
        rw [hprog] at hsends
        cases hsends
    | _ => trivial
  | _ => trivial

omit [DecidableEq δ] in
theorem debtorsGoOn_of_goesOn {D : Deployment σ ω W ι ε α δ} {e : Event ι ε ρ}
    (h : goesOn D e = true) : debtorsGoOn D e := by
  cases e with
  | run i l =>
    intro x hx
    rw [goesOn, hx, Option.all_some, Bool.or_eq_true] at h
    exact h.imp_left List.isEmpty_iff.mp
  | _ => trivial

theorem run_of_replayWhere {G : Schedule σ ω W ι ε α ρ δ}
    {ok : Deployment σ ω W ι ε α δ → Event ι ε ρ → Bool} (hG : ∀ D e, ok D e = true → G D e) :
    ∀ {events : List (Event ι ε ρ)} {D D' : Deployment σ ω W ι ε α δ},
      V.replayWhere ok D events = some D' → V.Run G D D' := by
  intro events
  induction events with
  | nil => intro D D' h; cases h; exact .refl
  | cons e rest ih =>
    intro D D' h
    rw [replayWhere] at h
    split at h
    · rename_i hok
      obtain ⟨D₁, h₁, hrest⟩ := Option.bind_eq_some_iff.mp h
      exact Relation.ReflTransGen.head ⟨e, hG _ _ hok, h₁⟩ (ih hrest)
    · cases h

end

end Service

/-! ### Handlers that cannot end too early -/

variable (ι ε) in
/-- What is awaited is awaited all the while, and nothing is sent. -/
def whileAwaited (H : Handoff σ W μ δ) (d : δ) : Contract σ ω W ι ε where
  inv s := d ∈ H.awaiting s.db
  rely _ _ := True
  guar s s' := H.queue s'.world = H.queue s.world
  allowed s p := d ∈ H.awaiting (view s.db p)
  input _ _ _ := True
  fault _ := False
  past _ _ := True
  rely_refl _ := trivial
  rely_trans _ _ := trivial
  guar_refl _ := rfl
  past_refl _ := trivial
  past_trans _ _ := trivial
  rely_past _ := trivial

/-- The program does not end while `d` is awaited. -/
def Prog.Resolves (H : Handoff σ W μ δ) (d : δ) (prog : Prog σ ω W ι ε α) (s : Shared σ W)
    (p : List ω) : Prop :=
  (whileAwaited ι ε H d).wp prog (fun _ _ _ => False) (fun _ _ _ => False) s p

section

variable {H : Handoff σ W μ δ} {d : δ} {prog prog' : Prog σ ω W ι ε α} {s s' : Shared σ W}
  {p p' : List ω}

omit [DecidableEq δ] in
theorem Prog.Resolves.live (h : prog.Resolves H d s p) : prog.isDone = false := by
  cases prog with
  | ret a => exact h.elim
  | raise e => exact h.elim
  | _ => rfl

omit [DecidableEq δ] in
theorem Prog.Resolves.stable (h : prog.Resolves H d s p) (s' : Shared σ W) :
    prog.Resolves H d s' p :=
  Contract.wp_stable (fun _ _ hf _ => hf) h trivial

omit [DecidableEq δ] in
theorem Prog.Resolves.moves {locked : κ → Bool} {l : Label ι ε}
    (hm : Moves locked s prog p l s' prog' p') (hf : Free s.db p)
    (hfault : ∀ e, l = .fault e → ∃ f k err i, prog = .call f k err ∧
      H.queue (f s.world i) ≠ H.queue s.world)
    (hd : d ∈ H.awaiting s.db) (hd' : d ∈ H.awaiting s'.db) (h : prog.Resolves H d s p) :
    l.isCrash = true ∨ prog'.Resolves H d s' p' := by
  cases l with
  | crash e => exact Or.inl rfl
  | fault e =>
    obtain ⟨f, k, err, i, rfl, hne⟩ := hfault e rfl
    obtain ⟨hact, -⟩ := (h s ⟨hd, trivial, hf⟩).1 i trivial
    exact absurd hact.guar hne
  | ok i =>
    refine Or.inr (Contract.wp_moves hm hd hf (fun _ he => by cases he) (fun _ _ => trivial)
      (fun _ _ hc => ?_) (fun _ he => by cases he) h).2.2
    cases hm with
    | commit => exact hd'
    | _ => cases hc

end

namespace Service

variable {V : Service σ ω W ι ε α μ ρ δ} {D D' : Deployment σ ω W ι ε α δ} {d : δ}

/-! ### The invariant -/

variable (V) in
/-- Why something that is awaited will be attended to. -/
inductive Watched (D : Deployment σ ω W ι ε α δ) (d : δ) : Prop
  | owed (x : Execution σ ω W ι ε α δ) : x ∈ D.executions → d ∈ x.owes → Watched D d
  | queued (k : Nat) (m : μ) : (V.queue D.shared.world)[k]? = some m → V.due m = d →
      k ∉ D.acknowledged → (∀ x ∈ D.executions, x.message = some k → x.died = true ∨
        x.thread.prog.Resolves V.toHandoff d D.shared x.thread.pending) → Watched D d

variable (V) in
/-- Every execution pays what it owes, and whatever is awaited is watched. -/
structure Kept (D : Deployment σ ω W ι ε α δ) : Prop where
  exclusive : Exclusive D.system
  pays : ∀ x ∈ D.executions, x.thread.prog.Pays V.toHandoff x.thread.pending x.owes
  positions : ∀ x ∈ D.executions, ∀ k, x.message = some k → k < (V.queue D.shared.world).length
  acknowledged : ∀ k ∈ D.acknowledged, k < (V.queue D.shared.world).length
  watched : ∀ d ∈ V.awaiting D.shared.db, V.Watched D d

variable (V) in
/-- What the programs of the service have to keep to. -/
structure Sound : Prop where
  serve : ∀ r, (V.serve r).Pays V.toHandoff [] []
  handle : ∀ m, (V.handle m).Pays V.toHandoff [] []
  resolve : ∀ m s, (V.handle m).Resolves V.toHandoff (V.due m) s []

theorem Kept.live (h : V.Kept D) {x : Execution σ ω W ι ε α δ} (hx : x ∈ D.executions)
    (hd : d ∈ x.owes) : x.live = true := by
  have hpays := h.pays x hx
  obtain ⟨⟨prog, p, b⟩, message, died, owes⟩ := x
  cases prog with
  | ret a => rw [show owes = [] from hpays] at hd; cases hd
  | raise e => rw [show owes = [] from hpays] at hd; cases hd
  | _ => rfl

/-- **What is awaited is attended to.** -/
theorem Kept.attended (h : V.Kept D) (hd : d ∈ V.awaiting D.shared.db) : V.Attended D d := by
  cases h.watched d hd with
  | owed x hx howes => exact Or.inr ⟨x, hx, h.live hx howes, Or.inl howes⟩
  | queued k m hk hdue hack _ => exact Or.inl ⟨m, mem_unacknowledged.mpr ⟨k, hk, hack⟩, hdue⟩

theorem kept_start {s : Shared σ W}
    (h : ∀ d ∈ V.awaiting s.db, ∃ m ∈ V.queue s.world, V.due m = d) :
    V.Kept (Deployment.start s) where
  exclusive := exclusive_start s []
  pays _ hx := by cases hx
  positions _ hx := by cases hx
  acknowledged _ hk := by cases hk
  watched d hd := by
    obtain ⟨m, hm, hdue⟩ := h d hd
    obtain ⟨k, hk⟩ := List.mem_iff_getElem?.mp hm
    exact .queued k m hk hdue (by simp [Deployment.start]) fun _ hx => by cases hx

/-! ### Steps -/

omit [DecidableEq δ] in
theorem exclusive_spawn {S : Sys σ ω W ι ε α} (h : Exclusive S) (prog : Prog σ ω W ι ε α) :
    Exclusive (⟨S.shared, S.threads ++ [⟨prog, [], false⟩]⟩ : Sys σ ω W ι ε α) := by
  have hnew : ∀ (i : Nat) (t : Thread σ ω W ι ε α),
      (S.threads ++ [⟨prog, [], false⟩])[i]? = some t → S.threads[i]? = some t ∨ t.pending = [] := by
    intro i t ht
    rw [List.getElem?_append] at ht
    split at ht
    · exact Or.inl ht
    · rw [List.mem_singleton.mp (List.mem_of_getElem? ht)]
      exact Or.inr rfl
  refine ⟨fun t ht => ?_, fun i j t u ht hu hij k hk hk' => ?_⟩
  · obtain ⟨i, hi⟩ := List.mem_iff_getElem?.mp ht
    rcases hnew i t hi with hold | hp
    · exact h.free t (List.mem_of_getElem? hold)
    · rw [hp]
      exact free_nil _
  · rcases hnew i t ht with hold | hp
    · rcases hnew j u hu with hold' | hp
      · exact h.apart i j t u hold hold' hij k hk hk'
      · rw [hp] at hk'
        exact not_holds_nil k hk'
    · rw [hp] at hk
      exact not_holds_nil k hk

omit [DecidableEq δ] in
theorem system_spawn (prog : Prog σ ω W ι ε α) (message : Option Nat) :
    (D.spawn prog message).system = ⟨D.shared, D.system.threads ++ [⟨prog, [], false⟩]⟩ := by
  rw [Deployment.system, Deployment.spawn, List.map_append]
  rfl

theorem Kept.spawn {prog : Prog σ ω W ι ε α} {message : Option Nat} (h : V.Kept D)
    (hpays : prog.Pays V.toHandoff [] [])
    (hmessage : ∀ k, message = some k → ∃ m, (V.queue D.shared.world)[k]? = some m ∧
      prog.Resolves V.toHandoff (V.due m) D.shared []) : V.Kept (D.spawn prog message) where
  exclusive := by
    rw [system_spawn]
    exact exclusive_spawn h.exclusive prog
  pays x hx := by
    rcases List.mem_append.mp hx with hx | hx
    · exact h.pays x hx
    · rw [List.mem_singleton.mp hx]
      exact hpays
  positions x hx k hk := by
    rcases List.mem_append.mp hx with hx | hx
    · exact h.positions x hx k hk
    · rw [List.mem_singleton.mp hx] at hk
      obtain ⟨m, hm, -⟩ := hmessage k hk
      exact (List.getElem?_eq_some_iff.mp hm).1
  acknowledged := h.acknowledged
  watched d hd := by
    cases h.watched d hd with
    | owed x hx howes => exact .owed x (List.mem_append_left _ hx) howes
    | queued k m hm hdue hack hall =>
      refine .queued k m hm hdue hack fun x hx hk => ?_
      rcases List.mem_append.mp hx with hx | hx
      · exact hall x hx hk
      · rw [List.mem_singleton.mp hx] at hk ⊢
        obtain ⟨m', hm', hresolves⟩ := hmessage k hk
        obtain rfl := Option.some.inj (hm'.symm.trans hm)
        exact Or.inr (hdue ▸ hresolves)

/-- A delivery that has ended and has not died does not leave its message awaited. -/
theorem Kept.acknowledge {x : Execution σ ω W ι ε α δ} {k : Nat} (h : V.Kept D)
    (hx : x ∈ D.executions) (hk : x.message = some k) (hended : x.live = false)
    (hdied : x.died = false) : V.Kept { D with acknowledged := k :: D.acknowledged } where
  exclusive := h.exclusive
  pays := h.pays
  positions := h.positions
  acknowledged j hj := by
    rcases List.mem_cons.mp hj with rfl | hj
    · exact h.positions x hx j hk
    · exact h.acknowledged j hj
  watched d hd := by
    cases h.watched d hd with
    | owed y hy howes => exact .owed y hy howes
    | queued j m hm hdue hack hall =>
      refine .queued j m hm hdue (fun hj => ?_) hall
      rcases List.mem_cons.mp hj with rfl | hj
      · rcases hall x hx hk with hd | hresolves
        · rw [hdied] at hd
          cases hd
        · rw [Execution.live, hresolves.live] at hended
          cases hended
      · exact hack hj

variable [DecidableEq κ]

/-- What a step of an execution is for the system of the threads. -/
theorem step_run {i : Nat} {l : Label ι ε} (h : V.step D (.run i l) = some D') :
    ∃ x s' t', D.executions[i]? = some x ∧
      D' = { D with shared := s', executions := D.executions.set i (V.advance x l D.shared s' t') } ∧
      D.system.step i l = some D'.system ∧
      Moves (heldBy (D.system.threads.eraseIdx i)) D.shared x.thread.prog x.thread.pending l s'
        t'.prog t'.pending := by
  obtain ⟨x, hx, h⟩ := Option.bind_eq_some_iff.mp h
  obtain ⟨⟨s', t'⟩, hr, rfl⟩ := Option.map_eq_some_iff.mp h
  refine ⟨x, s', t', hx, rfl, ?_, (Thread.step_moves hr).1⟩
  have hthread : D.system.threads[i]? = some x.thread := by
    rw [Deployment.system, List.getElem?_map, hx]
    rfl
  rw [Sys.step, hthread]
  show Option.map _ (x.thread.step _ D.shared l) = _
  rw [hr, Deployment.system, Deployment.system, List.map_set]
  rfl

omit [DecidableEq κ] [DecidableEq δ] in
/-- Nothing changes both the committed state and the world. -/
theorem world_of_moves {locked : κ → Bool} {prog prog' : Prog σ ω W ι ε α} {p p' : List ω}
    {l : Label ι ε} {s s' : Shared σ W} (hm : Moves locked s prog p l s' prog' p') :
    s'.db = s.db ∨ s'.world = s.world := by
  cases hm with
  | commit => exact Or.inr rfl
  | _ => exact Or.inl rfl

omit [DecidableEq δ] in
/-- A call that fails is one that sends. -/
theorem fault_sends {i : Nat} {l : Label ι ε} {x : Execution σ ω W ι ε α δ}
    (hf : V.failures D (.run i l)) (hx : D.executions[i]? = some x) :
    ∀ e, l = .fault e → ∃ f k err i, x.thread.prog = .call f k err ∧
      V.queue (f D.shared.world i) ≠ V.queue D.shared.world := by
  rintro e rfl
  obtain ⟨y, hy, hsends⟩ := hf
  obtain rfl := Option.some.inj (hx.symm.trans hy)
  exact hsends.inv

omit [DecidableEq κ] [DecidableEq δ] in
theorem message_stays {q q' : List μ} (h : q <+: q') {k : Nat} {m : μ} (hm : q[k]? = some m) :
    q'[k]? = some m := by
  obtain ⟨rest, rfl⟩ := h
  rw [List.getElem?_append_left (List.getElem?_eq_some_iff.mp hm).1]
  exact hm

section

variable {locked : κ → Bool} {i : Nat} {l : Label ι ε} {x : Execution σ ω W ι ε α δ}
  {s' : Shared σ W} {t' : Thread σ ω W ι ε α}

variable (V D i l x s' t') in
abbrev after : Deployment σ ω W ι ε α δ :=
  { D with shared := s', executions := D.executions.set i (V.advance x l D.shared s' t') }

omit [DecidableEq κ] in
theorem mem_after (hx : D.executions[i]? = some x) :
    V.advance x l D.shared s' t' ∈ (V.after D i l x s' t').executions :=
  List.mem_of_getElem? (List.getElem?_set_self (List.getElem?_eq_some_iff.mp hx).1)

omit [DecidableEq κ] in
theorem Kept.positions_after (h : V.Kept D) (hx : D.executions[i]? = some x) :
    ∀ y ∈ (V.after D i l x s' t').executions, ∀ k, y.message = some k →
      k < (V.queue D.shared.world).length := by
  intro y hy k hk
  rcases List.mem_or_eq_of_mem_set hy with hy | rfl
  · exact h.positions y hy k hk
  · exact h.positions x (List.mem_of_getElem? hx) k hk

omit [DecidableEq κ] in
/-- **A debt** stays with its execution until its message is sent.  That message is new:
nobody handles it yet, and nobody has acknowledged it. -/
theorem Kept.watched_owed (h : V.Kept D) (hx : D.executions[i]? = some x) {d : δ}
    {y : Execution σ ω W ι ε α δ} (hy : y ∈ D.executions) (howes : d ∈ y.owes) :
    V.Watched (V.after D i l x s' t') d := by
  obtain ⟨j, hj⟩ := List.mem_iff_getElem?.mp hy
  by_cases hij : i = j
  · obtain rfl : x = y := Option.some.inj (hx.symm.trans (hij ▸ hj))
    by_cases hsent : d ∈ V.sent D.shared s'
    · obtain ⟨k, m, hk, hkm, hdue⟩ := Handoff.exists_message hsent
      refine .queued k m hkm hdue (fun hack => ?_) fun z hz hzk => ?_
      · exact absurd (h.acknowledged k hack) (by omega)
      · exact absurd (h.positions_after hx z hz k hzk) (by omega)
    · exact .owed _ (mem_after hx) (Handoff.mem_settle.mpr ⟨Or.inl howes, hsent⟩)
  · refine .owed y (List.mem_of_getElem? (i := j) ?_) howes
    rw [List.getElem?_set_ne hij]
    exact hj

omit [DecidableEq κ] in
/-- **A message** is handled further by its deliveries, which do not end before what it is
due to, and may die. -/
theorem watched_queued (hx : D.executions[i]? = some x)
    (hm : Moves locked D.shared x.thread.prog x.thread.pending l s' t'.prog t'.pending)
    (hfree : Free D.shared.db x.thread.pending) (hf : V.failures D (.run i l))
    (hqueue : V.queue D.shared.world <+: V.queue s'.world) {d : δ}
    (hold : d ∈ V.awaiting D.shared.db) (hd : d ∈ V.awaiting s'.db) {k : Nat} {m : μ}
    (hkm : (V.queue D.shared.world)[k]? = some m) (hdue : V.due m = d) (hack : k ∉ D.acknowledged)
    (hall : ∀ y ∈ D.executions, y.message = some k → y.died = true ∨
      y.thread.prog.Resolves V.toHandoff d D.shared y.thread.pending) :
    V.Watched (V.after D i l x s' t') d := by
  refine .queued k m (message_stays hqueue hkm) hdue hack fun z hz hzk => ?_
  rcases List.mem_or_eq_of_mem_set hz with hz | rfl
  · exact (hall z hz hzk).imp_right (·.stable s')
  · rcases hall x (List.mem_of_getElem? hx) hzk with hdied | hresolves
    · exact Or.inl (Bool.or_eq_true_iff.mpr (Or.inl hdied))
    · exact (hresolves.moves hm hfree (fault_sends hf hx) hold hd).imp_left fun hcrash =>
        Bool.or_eq_true_iff.mpr (Or.inr hcrash)

omit [DecidableEq κ] in
/-- **What a step makes awaited** its execution owes. -/
theorem watched_entered (hx : D.executions[i]? = some x)
    (hm : Moves locked D.shared x.thread.prog x.thread.pending l s' t'.prog t'.pending) {d : δ}
    (hnew : d ∉ V.awaiting D.shared.db) (hd : d ∈ V.awaiting s'.db) :
    V.Watched (V.after D i l x s' t') d := by
  refine .owed _ (mem_after hx)
    (Handoff.mem_settle.mpr ⟨Or.inr (Handoff.mem_entered.mpr ⟨hd, hnew⟩), ?_⟩)
  rcases world_of_moves hm with hdb | hworld
  · rw [hdb] at hd
    exact absurd hd hnew
  · rw [Handoff.sent_of_queue (by rw [hworld])]
    exact List.not_mem_nil

end

/-- **A step of one execution** keeps the invariant.  What it commits to be awaited it
owes; what it sends a message for it owes no more; and a delivery goes on without
ending before what its message is due to. -/
theorem Kept.run {i : Nat} {l : Label ι ε} (h : V.Kept D) (hf : V.failures D (.run i l))
    (hg : debtorsGoOn D (.run i l : Event ι ε ρ)) (hs : V.step D (.run i l) = some D') :
    V.Kept D' := by
  obtain ⟨x, s', t', hx, rfl, hsys, hm⟩ := step_run hs
  have hxm := List.mem_of_getElem? hx
  have hfree : Free D.shared.db x.thread.pending :=
    h.exclusive.free x.thread (List.mem_map.mpr ⟨x, hxm, rfl⟩)
  have hcall : ∀ e, l = .fault e → ∃ f k err, x.thread.prog = .call f k err := by
    intro e he
    obtain ⟨f, k, err, _, hcall, _⟩ := fault_sends hf hx e he
    exact ⟨f, k, err, hcall⟩
  obtain ⟨hqueue, hpays⟩ := (h.pays x hxm).moves hm hfree (hg x hx).symm hcall fun _ => rfl
  refine ⟨h.exclusive.step hsys, fun y hy => ?_,
    fun y hy k hk => (h.positions_after hx y hy k hk).trans_le hqueue.length_le,
    fun k hk => (h.acknowledged k hk).trans_le hqueue.length_le, fun d hd => ?_⟩
  · rcases List.mem_or_eq_of_mem_set hy with hy | rfl
    · exact h.pays y hy
    · exact hpays
  · by_cases hold : d ∈ V.awaiting D.shared.db
    · cases h.watched d hold with
      | owed y hy howes => exact h.watched_owed hx hy howes
      | queued k m hkm hdue hack hall =>
        exact watched_queued hx hm hfree hf hqueue hold hd hkm hdue hack hall
    · exact watched_entered hx hm hold hd

/-- What the invariant needs of the runs: the failures considered, and debtors that go
on. -/
abbrev paidRuns (V : Service σ ω W ι ε α μ ρ δ) : Schedule σ ω W ι ε α ρ δ :=
  fun D e => V.failures D e ∧ debtorsGoOn D e

theorem Kept.step (hV : V.Sound) (h : V.Kept D) (hs : V.Step V.paidRuns D D') : V.Kept D' := by
  obtain ⟨e, ⟨hf, hg⟩, hs⟩ := hs
  cases e with
  | request r =>
    cases hs
    exact h.spawn (hV.serve r) fun _ hk => by cases hk
  | deliver k =>
    rw [Service.step] at hs
    split at hs
    · cases hs
    · obtain ⟨m, hm, rfl⟩ := Option.map_eq_some_iff.mp hs
      refine h.spawn (hV.handle m) fun k' hk => ?_
      obtain rfl := Option.some.inj hk
      exact ⟨m, hm, hV.resolve m D.shared⟩
  | run i l => exact h.run hf hg hs
  | acknowledge i =>
    obtain ⟨x, hx, hs⟩ := Option.bind_eq_some_iff.mp hs
    obtain ⟨k, hk, hs⟩ := Option.bind_eq_some_iff.mp hs
    split at hs
    · cases hs
    · rename_i hended
      cases hs
      rw [Bool.or_eq_true, not_or, Bool.not_eq_true, Bool.not_eq_true] at hended
      exact h.acknowledge (List.mem_of_getElem? hx) hk hended.1 hended.2

/-- **Nothing is left behind** in a run in which no execution dies or fails while it owes
something. -/
theorem attended_of_run (hV : V.Sound) (h : V.Kept D) (hr : V.Run V.paidRuns D D') :
    ∀ d ∈ V.awaiting D'.shared.db, V.Attended D' d := by
  have hkept : V.Kept D' := by
    induction hr with
    | refl => exact h
    | tail _ hs ih => exact ih.step hV hs
  exact fun d hd => hkept.attended hd

end Service

end

end ReadCommitted
