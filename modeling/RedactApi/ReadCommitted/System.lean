import RedactApi.ReadCommitted.Program

/-!
# Interleaved transactions under READ COMMITTED

A `Store` says how a write changes the state and which unique keys it takes.
A system is one committed state, one world and a list of threads, each with a
program and the writes its open transaction has sent.  A thread moves one
operation at a time, in any order the scheduler likes:

* a read shows the *last committed* state under the thread's own writes;
* a write that takes a key another open transaction holds has to wait, one that
  takes a key already in use raises the integrity error, any other stays
  pending;
* a commit applies the pending writes to whatever is committed by then.

Nothing else is locked.  An operation can also fail (`Label.fault`), and a
thread can die at any point (`Label.crash`), which drops its pending writes.

`Exclusive` is what unique keys give every reachable system: no two open
transactions hold one key, and none holds a key that is already committed, so
a commit never breaks uniqueness.
-/

namespace ReadCommitted

/-- What a transactional store offers: the effect of a write, the unique keys a
write takes, and which keys are in use. -/
class Store (σ : Type) (ω κ ε : outParam Type) where
  apply : σ → ω → σ
  claims : ω → List κ
  taken : σ → κ → Bool
  /-- A write uses up exactly the keys it claims. -/
  taken_apply : ∀ (s : σ) (w : ω) (k : κ), taken (apply s w) k = true ↔ taken s k = true ∨ k ∈ claims w
  /-- The exception of a write whose key is in use. -/
  integrityError : ε

/-- The committed state and the world next to it. -/
structure Shared (σ W : Type) where
  db : σ
  world : W

/-- How the environment answers one operation. -/
inductive Label (ι ε : Type) : Type
  | ok (i : ι)
  | fault (e : ε)
  | crash (e : ε)

def Label.isOk {ι ε : Type} : Label ι ε → Bool
  | .ok _ => true
  | _ => false

def Label.isCrash {ι ε : Type} : Label ι ε → Bool
  | .crash _ => true
  | _ => false

theorem Label.isOk_iff {ι ε : Type} {l : Label ι ε} : l.isOk = true ↔ ∃ i, l = .ok i := by
  cases l <;> simp [Label.isOk]

/-- One execution: its program, the writes of its open transaction, and whether
it has begun. -/
structure Thread (σ ω W ι ε α : Type) where
  prog : Prog σ ω W ι ε α
  pending : List ω
  started : Bool

/-- Committed state, world, and the executions. -/
structure Sys (σ ω W ι ε α : Type) where
  shared : Shared σ W
  threads : List (Thread σ ω W ι ε α)

section

variable {σ ω κ W ι ε α : Type} [Store σ ω κ ε]

/-- The state a transaction sees: the committed one under its own writes. -/
def view (s : σ) (pending : List ω) : σ := pending.foldl Store.apply s

@[simp] theorem view_nil (s : σ) : view s ([] : List ω) = s := rfl

theorem view_append (s : σ) (p q : List ω) : view s (p ++ q) = view (view s p) q :=
  List.foldl_append

@[simp] theorem view_concat (s : σ) (p : List ω) (w : ω) :
    view s (p ++ [w]) = Store.apply (view s p) w := by
  rw [view_append]
  rfl

def holds (pending : List ω) (k : κ) : Prop :=
  ∃ w ∈ pending, k ∈ Store.claims (σ := σ) (ε := ε) w

theorem taken_view (s : σ) (p : List ω) (k : κ) :
    Store.taken (view s p) k = true ↔ Store.taken s k = true ∨ holds (σ := σ) (ε := ε) p k := by
  induction p generalizing s with
  | nil => simp [holds]
  | cons w p ih =>
    show Store.taken (view (Store.apply s w) p) k = true ↔ _
    rw [ih, Store.taken_apply]
    simp only [holds, List.mem_cons, exists_eq_or_imp, or_assoc]

def hits (w : ω) (p : κ → Bool) : Bool := (Store.claims (σ := σ) (ε := ε) w).any p

/-- The write breaks a unique key in `s`. -/
def clash (s : σ) (w : ω) : Bool := hits (σ := σ) (ε := ε) w (Store.taken s)

/-! ### Unique keys -/

def Apart (p : List ω) : Prop :=
  p.Pairwise fun w w' => ∀ k, k ∈ Store.claims (σ := σ) (ε := ε) w →
    k ∉ Store.claims (σ := σ) (ε := ε) w'

/-- None of the keys held is in use, and none is held twice. -/
structure Free (s : σ) (p : List ω) : Prop where
  unused : ∀ k, holds (σ := σ) (ε := ε) p k → Store.taken s k = false
  apart : Apart (σ := σ) (ε := ε) p

theorem not_holds_nil (k : κ) : ¬ holds (σ := σ) (ε := ε) ([] : List ω) k := by
  rintro ⟨w, hw, _⟩
  cases hw

theorem free_nil (s : σ) : Free s ([] : List ω) :=
  ⟨fun k h => absurd h (not_holds_nil k), List.Pairwise.nil⟩

theorem holds_append {p q : List ω} {k : κ} :
    holds (σ := σ) (ε := ε) (p ++ q) k ↔
      holds (σ := σ) (ε := ε) p k ∨ holds (σ := σ) (ε := ε) q k := by
  simp only [holds, List.mem_append]
  constructor
  · rintro ⟨w, hw | hw, hk⟩
    · exact Or.inl ⟨w, hw, hk⟩
    · exact Or.inr ⟨w, hw, hk⟩
  · rintro (⟨w, hw, hk⟩ | ⟨w, hw, hk⟩)
    · exact ⟨w, Or.inl hw, hk⟩
    · exact ⟨w, Or.inr hw, hk⟩

theorem holds_singleton {w : ω} {k : κ} :
    holds (σ := σ) (ε := ε) [w] k ↔ k ∈ Store.claims (σ := σ) (ε := ε) w := by
  simp [holds]

theorem clash_eq_false {s : σ} {w : ω} :
    clash s w = false ↔ ∀ k ∈ Store.claims (σ := σ) (ε := ε) w, Store.taken s k = false := by
  rw [clash, hits, List.any_eq_false]
  simp

theorem Free.concat {s : σ} {p : List ω} {w : ω} (h : Free s p)
    (hc : clash (view s p) w = false) : Free s (p ++ [w]) := by
  have hw : ∀ k ∈ Store.claims (σ := σ) (ε := ε) w,
      Store.taken s k = false ∧ ¬ holds (σ := σ) (ε := ε) p k := by
    intro k hk
    have ht := clash_eq_false.mp hc k hk
    refine ⟨?_, fun hp => ?_⟩
    · by_contra hn
      rw [(taken_view s p k).mpr (Or.inl (by simpa using hn))] at ht
      cases ht
    · rw [(taken_view s p k).mpr (Or.inr hp)] at ht
      cases ht
  constructor
  · intro k hk
    rcases holds_append.mp hk with hk | hk
    · exact h.unused k hk
    · exact (hw k (holds_singleton.mp hk)).1
  · refine List.pairwise_append.mpr ⟨h.apart, List.pairwise_singleton _ _, ?_⟩
    intro v hv w' hw' k hk hk'
    rw [List.mem_singleton] at hw'
    subst hw'
    exact (hw k hk').2 ⟨v, hv, hk⟩

theorem Free.head {s : σ} {w : ω} {p : List ω} (h : Free s (w :: p)) : clash s w = false :=
  clash_eq_false.mpr fun k hk => h.unused k ⟨w, List.mem_cons_self, hk⟩

theorem Free.tail {s : σ} {w : ω} {p : List ω} (h : Free s (w :: p)) :
    Free (Store.apply s w) p := by
  obtain ⟨hw, hp⟩ := List.pairwise_cons.mp h.apart
  refine ⟨fun k ⟨v, hv, hk⟩ => ?_, hp⟩
  by_contra hn
  rw [Bool.not_eq_false, Store.taken_apply] at hn
  rcases hn with hn | hn
  · rw [h.unused k ⟨v, List.mem_cons_of_mem w hv, hk⟩] at hn
    cases hn
  · exact hw v hv k hn hk

theorem Free.left {s : σ} {p q : List ω} (h : Free s (p ++ q)) : Free s p :=
  ⟨fun k hk => h.unused k (holds_append.mpr (Or.inl hk)), (List.pairwise_append.mp h.apart).1⟩

theorem Free.right {s : σ} {p q : List ω} (h : Free s (p ++ q)) : Free (view s p) q := by
  induction p generalizing s with
  | nil => exact h
  | cons w p ih => exact ih h.tail

/-! ### Steps -/

/-- One operation of one thread; `locked` are the keys other transactions hold. -/
def Thread.step (locked : κ → Bool) (s : Shared σ W) (t : Thread σ ω W ι ε α) :
    Label ι ε → Option (Shared σ W × Thread σ ω W ι ε α)
  | .crash e => if t.prog.isDone then none else some (s, ⟨.raise e, [], true⟩)
  | .fault e =>
    match t.prog with
    | .select _ err => some (s, ⟨err e, t.pending, true⟩)
    | .flush _ _ err => some (s, ⟨err e, t.pending, true⟩)
    | .commit _ err => some (s, ⟨err e, t.pending, true⟩)
    | .call _ _ err => some (s, ⟨err e, t.pending, true⟩)
    | _ => none
  | .ok i =>
    match t.prog with
    | .select k _ => some (s, ⟨k (view s.db t.pending), t.pending, true⟩)
    | .flush w k err =>
      if hits (σ := σ) (ε := ε) w locked then none
      else if clash (view s.db t.pending) w then
        some (s, ⟨err (Store.integrityError σ), t.pending, true⟩)
      else some (s, ⟨k, t.pending ++ [w], true⟩)
    | .commit k _ => some ({ s with db := view s.db t.pending }, ⟨k, [], true⟩)
    | .rollback k => some (s, ⟨k, [], true⟩)
    | .call f k _ => some ({ s with world := f s.world i }, ⟨k s.world i, t.pending, true⟩)
    | _ => none

/-! ### What a step does -/

/-- The moves of one thread, with the program and the pending writes before and
after. -/
inductive Moves (locked : κ → Bool) (s : Shared σ W) :
    Prog σ ω W ι ε α → List ω → Label ι ε → Shared σ W → Prog σ ω W ι ε α → List ω → Prop
  | crash {prog p e} : prog.isDone = false → Moves locked s prog p (.crash e) s (.raise e) []
  | selectFault {k err p e} : Moves locked s (.select k err) p (.fault e) s (err e) p
  | flushFault {w k err p e} : Moves locked s (.flush w k err) p (.fault e) s (err e) p
  | commitFault {k err p e} : Moves locked s (.commit k err) p (.fault e) s (err e) p
  | callFault {f k err p e} : Moves locked s (.call f k err) p (.fault e) s (err e) p
  | select {k err p i} : Moves locked s (.select k err) p (.ok i) s (k (view s.db p)) p
  | clash {w k err p i} : clash (view s.db p) w = true →
      Moves locked s (.flush w k err) p (.ok i) s (err (Store.integrityError σ)) p
  | flush {w k err p i} : hits (σ := σ) (ε := ε) w locked = false → clash (view s.db p) w = false →
      Moves locked s (.flush w k err) p (.ok i) s k (p ++ [w])
  | commit {k err p i} : Moves locked s (.commit k err) p (.ok i) { s with db := view s.db p } k []
  | rollback {k p i} : Moves locked s (.rollback k) p (.ok i) s k []
  | call {f k err p i} :
      Moves locked s (.call f k err) p (.ok i) { s with world := f s.world i } (k s.world i) p

theorem Thread.step_moves {locked : κ → Bool} {s s' : Shared σ W} {t t' : Thread σ ω W ι ε α}
    {l : Label ι ε} (h : t.step locked s l = some (s', t')) :
    Moves locked s t.prog t.pending l s' t'.prog t'.pending ∧ t'.started = true := by
  obtain ⟨prog, p, b⟩ := t
  cases l with
  | crash e =>
    simp only [Thread.step] at h
    split at h
    · cases h
    · rename_i hd
      cases h
      exact ⟨.crash (by simpa using hd), rfl⟩
  | fault e =>
    cases prog <;> simp only [Thread.step] at h <;> cases h
    · exact ⟨.selectFault, rfl⟩
    · exact ⟨.flushFault, rfl⟩
    · exact ⟨.commitFault, rfl⟩
    · exact ⟨.callFault, rfl⟩
  | ok i =>
    cases prog with
    | ret a => cases h
    | raise e => cases h
    | select k err => cases h; exact ⟨.select, rfl⟩
    | flush w k err =>
      simp only [Thread.step] at h
      split at h
      · cases h
      · rename_i hl
        split at h
        · rename_i hc
          cases h
          exact ⟨.clash hc, rfl⟩
        · rename_i hc
          cases h
          exact ⟨.flush (by simpa using hl) (by simpa using hc), rfl⟩
    | commit k err => cases h; exact ⟨.commit, rfl⟩
    | rollback k => cases h; exact ⟨.rollback, rfl⟩
    | call f k err => cases h; exact ⟨.call, rfl⟩

/-! ### Unique keys across threads -/

/-- The system in which nothing has begun: one fresh execution per program. -/
def Sys.start (s : Shared σ W) (ps : List (Prog σ ω W ι ε α)) : Sys σ ω W ι ε α :=
  ⟨s, ps.map fun p => ⟨p, [], false⟩⟩

/-- Each key is held by at most one transaction, and only while nobody uses it. -/
structure Exclusive (S : Sys σ ω W ι ε α) : Prop where
  free : ∀ t ∈ S.threads, Free S.shared.db t.pending
  apart : ∀ (i j : Nat) (t u : Thread σ ω W ι ε α),
    S.threads[i]? = some t → S.threads[j]? = some u → i ≠ j →
    ∀ k, holds (σ := σ) (ε := ε) t.pending k → ¬ holds (σ := σ) (ε := ε) u.pending k

theorem exclusive_start (s : Shared σ W) (ps : List (Prog σ ω W ι ε α)) :
    Exclusive (Sys.start s ps) where
  free := by
    intro t ht
    obtain ⟨p, _, rfl⟩ := List.mem_map.mp ht
    exact free_nil _
  apart := by
    intro i j t u ht _ _ k hk
    obtain ⟨p, _, rfl⟩ := List.mem_map.mp (List.mem_of_getElem? ht)
    exact absurd hk (not_holds_nil k)

/-- The keys a thread holds after a step: those it held, or one that nobody
held and that is not in use; and what the step commits is what it held. -/
theorem Moves.keys {locked : κ → Bool} {s s' : Shared σ W} {prog prog' : Prog σ ω W ι ε α}
    {p p' : List ω} {l : Label ι ε} (h : Moves locked s prog p l s' prog' p') :
    (∀ k, holds (σ := σ) (ε := ε) p' k → holds (σ := σ) (ε := ε) p k ∨ locked k = false) ∧
    (∀ k, Store.taken s'.db k = true → Store.taken s.db k = true ∨ holds (σ := σ) (ε := ε) p k) ∧
    (Free s.db p → Free s'.db p') := by
  cases h with
  | crash _ =>
    exact ⟨fun k hk => absurd hk (not_holds_nil k), fun k hk => Or.inl hk, fun _ => free_nil _⟩
  | selectFault => exact ⟨fun k hk => Or.inl hk, fun k hk => Or.inl hk, id⟩
  | flushFault => exact ⟨fun k hk => Or.inl hk, fun k hk => Or.inl hk, id⟩
  | commitFault => exact ⟨fun k hk => Or.inl hk, fun k hk => Or.inl hk, id⟩
  | callFault => exact ⟨fun k hk => Or.inl hk, fun k hk => Or.inl hk, id⟩
  | select => exact ⟨fun k hk => Or.inl hk, fun k hk => Or.inl hk, id⟩
  | clash _ => exact ⟨fun k hk => Or.inl hk, fun k hk => Or.inl hk, id⟩
  | flush hl hc =>
    refine ⟨fun k hk => ?_, fun k hk => Or.inl hk, fun hf => hf.concat hc⟩
    rcases holds_append.mp hk with hk | hk
    · exact Or.inl hk
    · right
      rw [hits, List.any_eq_false] at hl
      simpa using hl k (holds_singleton.mp hk)
  | commit =>
    exact ⟨fun k hk => absurd hk (not_holds_nil k), fun k hk => (taken_view _ _ k).mp hk,
      fun _ => free_nil _⟩
  | rollback =>
    exact ⟨fun k hk => absurd hk (not_holds_nil k), fun k hk => Or.inl hk, fun _ => free_nil _⟩
  | call => exact ⟨fun k hk => Or.inl hk, fun k hk => Or.inl hk, id⟩

/-! ### Systems -/

variable [DecidableEq κ]

def heldBy (ts : List (Thread σ ω W ι ε α)) (k : κ) : Bool :=
  ts.any fun t => t.pending.any fun w => decide (k ∈ Store.claims (σ := σ) (ε := ε) w)

def Sys.step (S : Sys σ ω W ι ε α) (i : Nat) (l : Label ι ε) : Option (Sys σ ω W ι ε α) :=
  match S.threads[i]? with
  | none => none
  | some t =>
    (t.step (heldBy (S.threads.eraseIdx i)) S.shared l).map fun r =>
      ⟨r.1, S.threads.set i r.2⟩

/-- A condition on the steps a schedule may take, stated on the state before. -/
abbrev Guard (σ ω W ι ε α : Type) := Sys σ ω W ι ε α → Nat → Label ι ε → Prop

def Sys.Step (G : Guard σ ω W ι ε α) (S S' : Sys σ ω W ι ε α) : Prop :=
  ∃ i l, G S i l ∧ S.step i l = some S'

def Sys.Run (G : Guard σ ω W ι ε α) : Sys σ ω W ι ε α → Sys σ ω W ι ε α → Prop :=
  Relation.ReflTransGen (Sys.Step G)

theorem Sys.Run.mono {G G' : Guard σ ω W ι ε α} (h : ∀ S i l, G S i l → G' S i l)
    {S S' : Sys σ ω W ι ε α} (hr : Sys.Run G S S') : Sys.Run G' S S' := by
  induction hr with
  | refl => exact .refl
  | tail _ hs ih =>
    obtain ⟨i, l, hg, hst⟩ := hs
    exact ih.tail ⟨i, l, h _ _ _ hg, hst⟩

/-- What is known of every state that is reached may be used at every step. -/
theorem Sys.Run.knowing {G : Guard σ ω W ι ε α} {K : Sys σ ω W ι ε α → Prop}
    {S S' : Sys σ ω W ι ε α} (hK : ∀ T, Sys.Run G S T → K T) (hr : Sys.Run G S S') :
    Sys.Run (fun T i l => G T i l ∧ K T) S S' := by
  induction hr with
  | refl => exact .refl
  | tail hrest hs ih =>
    obtain ⟨i, l, hg, hst⟩ := hs
    exact ih.tail ⟨i, l, ⟨hg, hK _ hrest⟩, hst⟩

/-- A schedule, replayed as long as its steps pass a test. -/
def Sys.replayWhere (ok : Sys σ ω W ι ε α → Nat → Label ι ε → Bool) :
    Sys σ ω W ι ε α → List (Nat × Label ι ε) → Option (Sys σ ω W ι ε α)
  | S, [] => some S
  | S, (i, l) :: rest =>
    if ok S i l then (S.step i l).bind fun S' => S'.replayWhere ok rest else none

def Sys.replay (S : Sys σ ω W ι ε α) (schedule : List (Nat × Label ι ε)) :
    Option (Sys σ ω W ι ε α) :=
  S.replayWhere (fun _ _ _ => true) schedule

theorem Sys.run_of_replayWhere {G : Guard σ ω W ι ε α}
    {ok : Sys σ ω W ι ε α → Nat → Label ι ε → Bool} (hG : ∀ S i l, ok S i l = true → G S i l) :
    ∀ {schedule : List (Nat × Label ι ε)} {S S' : Sys σ ω W ι ε α},
      S.replayWhere ok schedule = some S' → Sys.Run G S S' := by
  intro schedule
  induction schedule with
  | nil => intro S S' h; cases h; exact .refl
  | cons l rest ih =>
    intro S S' h
    rw [Sys.replayWhere] at h
    split at h
    · rename_i hok
      obtain ⟨S₁, h₁, hrest⟩ := Option.bind_eq_some_iff.mp h
      exact Relation.ReflTransGen.head ⟨l.1, l.2, hG _ _ _ hok, h₁⟩ (ih hrest)
    · cases h

theorem Sys.run_of_replay {G : Guard σ ω W ι ε α} (hG : ∀ S i l, G S i l)
    {schedule : List (Nat × Label ι ε)} {S S' : Sys σ ω W ι ε α}
    (h : S.replay schedule = some S') : Sys.Run G S S' :=
  Sys.run_of_replayWhere (fun S i l _ => hG S i l) h

theorem Sys.step_inv {S S' : Sys σ ω W ι ε α} {i : Nat} {l : Label ι ε}
    (h : S.step i l = some S') :
    ∃ t s' t', S.threads[i]? = some t ∧ S' = ⟨s', S.threads.set i t'⟩ ∧ t'.started = true ∧
      Moves (heldBy (S.threads.eraseIdx i)) S.shared t.prog t.pending l s' t'.prog t'.pending := by
  rw [Sys.step] at h
  split at h
  · cases h
  · rename_i t ht
    obtain ⟨⟨s', t'⟩, hr, rfl⟩ := Option.map_eq_some_iff.mp h
    obtain ⟨hm, hst⟩ := Thread.step_moves hr
    exact ⟨t, s', t', ht, rfl, hst, hm⟩

theorem Sys.length_of_run {G : Guard σ ω W ι ε α} {S S' : Sys σ ω W ι ε α} (h : Sys.Run G S S') :
    S'.threads.length = S.threads.length := by
  induction h with
  | refl => rfl
  | tail _ hs ih =>
    obtain ⟨i, l, -, hst⟩ := hs
    obtain ⟨t, s', t', -, rfl, -, -⟩ := Sys.step_inv hst
    rw [List.length_set, ih]

theorem heldBy_false {ts : List (Thread σ ω W ι ε α)} {k : κ} (h : heldBy ts k = false) :
    ∀ t ∈ ts, ¬ holds (σ := σ) (ε := ε) t.pending k := by
  rintro t ht ⟨w, hw, hk⟩
  rw [heldBy, List.any_eq_false] at h
  exact h t ht (List.any_eq_true.mpr ⟨w, hw, by simpa using hk⟩)

theorem Exclusive.step {S S' : Sys σ ω W ι ε α} (h : Exclusive S) {i : Nat} {l : Label ι ε}
    (hs : S.step i l = some S') : Exclusive S' := by
  obtain ⟨t, s', t', ht, rfl, _, hm⟩ := Sys.step_inv hs
  obtain ⟨hkeys, htaken, hfree⟩ := hm.keys
  have hi : i < S.threads.length := (List.getElem?_eq_some_iff.mp ht).1
  -- a key the thread holds now was held by no other thread
  have hown : ∀ j u, S.threads[j]? = some u → i ≠ j → ∀ k, holds (σ := σ) (ε := ε) t'.pending k →
      ¬ holds (σ := σ) (ε := ε) u.pending k := by
    intro j u hu hij k hk
    rcases hkeys k hk with hk | hk
    · exact h.apart i j t u ht hu hij k hk
    · exact heldBy_false hk u (List.mem_eraseIdx_iff_getElem?.mpr ⟨j, Ne.symm hij, hu⟩)
  refine ⟨fun u hu => ?_, fun a b u v hu hv hab k hk => ?_⟩
  · obtain ⟨j, hj⟩ := List.mem_iff_getElem?.mp hu
    by_cases hij : i = j
    · subst hij
      rw [List.getElem?_set_self hi] at hj
      cases hj
      exact hfree (h.free t (List.mem_of_getElem? ht))
    · rw [List.getElem?_set_ne hij] at hj
      have hfu := h.free u (List.mem_of_getElem? hj)
      refine ⟨fun k hk => ?_, hfu.apart⟩
      by_contra hn
      rcases htaken k (by simpa using hn) with hn | hn
      · rw [hfu.unused k hk] at hn
        cases hn
      · exact h.apart i j t u ht hj hij k hn hk
  · by_cases ha : i = a
    · subst ha
      rw [List.getElem?_set_self hi] at hu
      rw [List.getElem?_set_ne hab] at hv
      cases hu
      exact hown b v hv hab k hk
    · rw [List.getElem?_set_ne ha] at hu
      by_cases hb : i = b
      · subst hb
        rw [List.getElem?_set_self hi] at hv
        cases hv
        exact fun hk' => hown a u hu ha k hk' hk
      · rw [List.getElem?_set_ne hb] at hv
        exact h.apart a b u v hu hv hab k hk

end

end ReadCommitted
