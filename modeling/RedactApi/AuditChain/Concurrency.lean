import RedactApi.AuditChain.TamperEvidence
import RedactApi.KeyedList

/-!
# The audit chain under concurrency

The next link of a chain is read without a lock and written later.  What keeps
the chain whole is the unique key on job and sequence number: a transaction
that holds an entry of a job keeps everybody else from adding one, and an entry
computed from a chain that has grown since claims a number that is in use.

`Intact` says that every job's entries are a hash chain numbered from one.
`Intact.now` carries it, for what a transaction sees, over the steps of the
others.  `Keeps` says of a program that it keeps what its transaction sees intact;
it is closed under everything programs are built from, and holds of an append.
-/

namespace RedactApi

open ReadCommitted HashChain

/-- The entries are a hash chain from the genesis hash, numbered from one. -/
abbrev AuditChain (env : Env) : List AuditEntry → Prop :=
  Chain AuditEntry.prevHash AuditEntry.entryHash (entryDigest env) AuditEntry.sequence genesisPrevHash

def Intact (env : Env) (db : Database) : Prop := ∀ jobId, AuditChain env (db.entries jobId)

def Grows (db db' : Database) : Prop := ∀ jobId, db.entries jobId <+: db'.entries jobId

theorem Grows.refl (db : Database) : Grows db db := fun _ => List.prefix_rfl

theorem Grows.trans {a b c : Database} (h : Grows a b) (h' : Grows b c) : Grows a c :=
  fun jobId => (h jobId).trans (h' jobId)

/-! ### Entries and writes -/

def Write.entries (jobId : UUID) : Write → List AuditEntry
  | .insertAudit row => if row.jobId = jobId then [row] else []
  | _ => []

theorem entries_apply (db : Database) (w : Write) (jobId : UUID) :
    (db.apply w).entries jobId = db.entries jobId ++ w.entries jobId := by
  cases w <;> simp [Database.apply, Database.entries, Write.entries, List.filter_singleton,
    Bool.cond_eq_ite]

theorem entries_view (db : Database) (p : List Write) (jobId : UUID) :
    (view db p).entries jobId = db.entries jobId ++ p.flatMap (·.entries jobId) := by
  induction p generalizing db with
  | nil => simp
  | cons w p ih =>
    show (view (db.apply w) p).entries jobId = _
    rw [ih, entries_apply, List.flatMap_cons, List.append_assoc]

theorem grows_view (db : Database) (p : List Write) : Grows db (view db p) := by
  intro jobId
  rw [entries_view]
  exact List.prefix_append _ _

theorem taken_auditSequence {db : Database} {jobId : UUID} {n : Nat} :
    db.taken (.auditSequence jobId n) = true ↔ ∃ e ∈ db.entries jobId, e.sequence = n := by
  simp [Database.taken, Database.entries, and_assoc]

/-! ### Reading a chain -/

theorem entriesBySequence_eq {env : Env} {db : Database} {jobId : UUID}
    (h : AuditChain env (db.entries jobId)) : db.entriesBySequence jobId = db.entries jobId := by
  have hs : ((db.entries jobId).map AuditEntry.sequence).Pairwise (· < ·) := by
    rw [h.numbered]
    exact List.pairwise_lt_range'
  exact List.Pairwise.insertionSort_eq ((List.pairwise_map.mp hs).imp Nat.le_of_lt)

theorem nextChainLink_eq {env : Env} {db : Database} {jobId : UUID}
    (h : AuditChain env (db.entries jobId)) : nextChainLink db jobId =
      (head AuditEntry.entryHash genesisPrevHash (db.entries jobId),
        (db.entries jobId).length + 1) := by
  rw [nextChainLink, entriesBySequence_eq h, head_getLast?]
  cases hl : (db.entries jobId).getLast? with
  | none =>
    rw [List.getLast?_eq_none_iff.mp hl]
    rfl
  | some last =>
    show (last.entryHash, last.sequence + 1) = _
    rw [h.getLast?_seq hl]
    rfl

theorem sorted_entriesBySequence (db : Database) (jobId : UUID) :
    (db.entriesBySequence jobId).Pairwise fun e f => e.sequence ≤ f.sequence :=
  KeyedList.pairwise_insertionSort AuditEntry.sequence _

theorem nextChainLink_free (db : Database) (jobId : UUID) :
    db.taken (.auditSequence jobId (nextChainLink db jobId).2) = false := by
  rw [Bool.eq_false_iff, Ne, taken_auditSequence]
  rintro ⟨e, he, hseq⟩
  have hmem : e ∈ db.entriesBySequence jobId := List.mem_insertionSort _ |>.mpr he
  have hsorted := sorted_entriesBySequence db jobId
  rw [nextChainLink] at hseq
  cases hlast : (db.entriesBySequence jobId).getLast? with
  | none =>
    rw [List.getLast?_eq_none_iff.mp hlast] at hmem
    cases hmem
  | some last =>
    rw [hlast] at hseq
    obtain ⟨l, hl⟩ := List.getLast?_eq_some_iff.mp hlast
    rw [hl] at hmem hsorted
    have hle : e.sequence ≤ last.sequence := by
      rcases List.mem_append.mp hmem with hmem | hmem
      · exact (List.pairwise_append.mp hsorted).2.2 e hmem last List.mem_cons_self
      · rw [List.mem_singleton.mp hmem]
    rw [hseq] at hle
    exact absurd hle (Nat.not_succ_le_self _)

theorem entryDigest_makeEntry (env : Env) (id jobId organizationId : UUID)
    (event : AuditEntryInput) (link : String × Nat) (createdAt : DateTime) :
    (makeEntry env id jobId organizationId event link createdAt).entryHash =
      entryDigest env link.1 (makeEntry env id jobId organizationId event link createdAt) := rfl

/-! ### Interference -/

/-- Others have not touched the chain of a job the transaction has written to. -/
theorem held_entries {env : Env} {db db' : Database} {p : List Write} {jobId : UUID}
    (hv : AuditChain env ((view db p).entries jobId)) (hi : AuditChain env (db'.entries jobId))
    (hg : db.entries jobId <+: db'.entries jobId) (hf : Free db' p)
    (hp : p.flatMap (·.entries jobId) ≠ []) : db'.entries jobId = db.entries jobId := by
  obtain ⟨ext, hext⟩ := hg
  obtain ⟨e, es, hes⟩ := List.exists_cons_of_ne_nil hp
  rw [entries_view, hes] at hv
  -- the first pending entry carries the number after the committed ones
  have hseq : e.sequence = (db.entries jobId).length + 1 := by
    have hn := Chain.prefix_left (l := db.entries jobId ++ [e]) (m := es) (by simpa using hv)
    simpa using hn.getLast?_seq List.getLast?_concat
  have hheld : holds (σ := Database) (ε := Exn) p
      (UniqueKey.auditSequence jobId ((db.entries jobId).length + 1)) := by
    have hm : e ∈ p.flatMap (·.entries jobId) := by rw [hes]; exact List.mem_cons_self
    obtain ⟨w, hw, he⟩ := List.mem_flatMap.mp hm
    refine ⟨w, hw, ?_⟩
    cases w with
    | insertAudit row =>
      simp only [Write.entries] at he
      split at he
      · rename_i hj
        rw [List.mem_singleton] at he
        subst he
        rw [← hseq, ← hj]
        exact List.mem_cons_of_mem _ List.mem_cons_self
      · cases he
    | _ => cases he
  have hfree := hf.unused _ hheld
  rcases List.eq_nil_or_concat ext with rfl | ⟨init, last, rfl⟩
  · rw [← hext, List.append_nil]
  · exfalso
    have hused : db'.taken (.auditSequence jobId ((db.entries jobId).length + 1)) = true := by
      rw [taken_auditSequence, hi.mem_seq, ← hext]
      simp
    rw [show Store.taken db' (UniqueKey.auditSequence jobId _) = true from hused] at hfree
    cases hfree

/-- What a transaction sees stays intact, and only grows, while others commit. -/
theorem Intact.now {env : Env} {db db' : Database} {p : List Write} (hv : Intact env (view db p))
    (hi : Intact env db') (hg : Grows db db') (hf : Free db' p) :
    Intact env (view db' p) ∧ Grows (view db p) (view db' p) := by
  have key : ∀ jobId, AuditChain env ((view db' p).entries jobId) ∧
      (view db p).entries jobId <+: (view db' p).entries jobId := by
    intro jobId
    by_cases hp : p.flatMap (·.entries jobId) = []
    · rw [entries_view, entries_view, hp, List.append_nil, List.append_nil]
      exact ⟨hi jobId, hg jobId⟩
    · have heq := held_entries (hv jobId) (hi jobId) (hg jobId) hf hp
      have hsame : (view db' p).entries jobId = (view db p).entries jobId := by
        rw [entries_view, entries_view, heq]
      rw [hsame]
      exact ⟨hv jobId, List.prefix_rfl⟩
  exact ⟨fun jobId => (key jobId).1, fun jobId => (key jobId).2⟩

/-- An entry made from a chain that has not grown since continues it. -/
theorem Intact.append {env : Env} {v v' : Database} {id jobId organizationId : UUID}
    {event : AuditEntryInput} {createdAt : DateTime} {entry : AuditEntry} (h : Intact env v)
    (h' : Intact env v') (hg : Grows v v')
    (he : entry = makeEntry env id jobId organizationId event (nextChainLink v jobId) createdAt)
    (hc : clash v' (.insertAudit entry) = false) : Intact env (v'.apply (.insertAudit entry)) := by
  have hlink := nextChainLink_eq (h jobId)
  have hseq : entry.sequence = (v.entries jobId).length + 1 := by rw [he, makeEntry, hlink]
  have hjob : entry.jobId = jobId := by rw [he, makeEntry]
  have hunused : ¬ v'.taken (.auditSequence jobId ((v.entries jobId).length + 1)) = true := by
    have hk := clash_eq_false.mp hc (.auditSequence jobId ((v.entries jobId).length + 1)) (by
      rw [← hseq, ← hjob]
      exact List.mem_cons_of_mem _ List.mem_cons_self)
    rw [show v'.taken _ = false from hk]
    exact Bool.false_ne_true
  -- the number after the chain that was read is still free, so the chain is the same
  have hsame : v'.entries jobId = v.entries jobId := by
    obtain ⟨ext, hext⟩ := hg jobId
    rcases List.eq_nil_or_concat ext with rfl | ⟨init, last, rfl⟩
    · rw [← hext, List.append_nil]
    · exfalso
      refine hunused ?_
      rw [taken_auditSequence, (h' jobId).mem_seq, ← hext]
      simp
  intro i
  rw [entries_apply, Write.entries]
  split
  · rename_i hi
    have hij : i = jobId := by rw [← hi, hjob]
    subst hij
    refine (h' i).concat ?_ ?_ ?_
    · rw [hsame, he, makeEntry, hlink]
    · rw [hsame, he, entryDigest_makeEntry, hlink]
    · rw [hsame, hseq]
  · rw [List.append_nil]
    exact h' i

/-! ### The contract of an appender -/

def chainContract (env : Env) : Contract Database Write World Input Exn where
  inv s := Intact env s.db
  rely s s' := Grows s.db s'.db
  guar s s' := Grows s.db s'.db
  allowed _ _ := True
  input _ _ _ := True
  fault _ := True
  past s s' := Grows s.db s'.db
  rely_refl s := Grows.refl s.db
  rely_trans := Grows.trans
  guar_refl s := Grows.refl s.db
  past_refl s := Grows.refl s.db
  past_trans := Grows.trans
  rely_past h := h

theorem intact_now {env : Env} {s s' : Shared Database World} {p : List Write}
    (h : Intact env (view s.db p)) (hn : (chainContract env).Now s p s') :
    Intact env (view s'.db p) ∧ Grows (view s.db p) (view s'.db p) :=
  h.now hn.inv hn.rely hn.free

/-- The program keeps what its transaction sees intact, whatever the others commit. -/
def Keeps (env : Env) {α : Type} (prog : Tx α) : Prop :=
  ∀ s p, Intact env (view s.db p) → (chainContract env).wp prog
    (fun _ s' p' => Intact env (view s'.db p')) (fun _ s' p' => Intact env (view s'.db p')) s p

section

variable {env : Env} {α β : Type} {s : Shared Database World} {p : List Write}

/-! ### How programs that keep the chains are built -/

theorem Keeps.ret (a : α) : Keeps env (.ret a) := fun _ _ h => h

theorem Keeps.raise (e : Exn) : Keeps env (.raise e : Tx α) := fun _ _ h => h

theorem Keeps.bind {prog : Tx α} {f : α → Tx β} (h : Keeps env prog) (hf : ∀ a, Keeps env (f a)) :
    Keeps env (prog.bind f) := fun s p hi =>
  Contract.wp_bind (Contract.wp_mono (fun a s' p' => hf a s' p') (fun _ _ _ h => h) _ (h s p hi))

theorem Keeps.tryCatch {prog : Tx α} {f : Exn → Tx α} (h : Keeps env prog)
    (hf : ∀ e, Keeps env (f e)) : Keeps env (prog.tryCatch f) := fun s p hi =>
  Contract.wp_tryCatch (Contract.wp_mono (fun _ _ _ h => h) (fun e s' p' => hf e s' p') _ (h s p hi))

theorem Keeps.closing {prog : Tx α} (h : Keeps env prog) : Keeps env prog.closing := fun s p hi =>
  Contract.wp_closing (Contract.wp_mono (fun _ _ _ _ _ hn => hn.inv) (fun _ _ _ _ _ hn => hn.inv) _
    (h s p hi))

theorem Keeps.ite {c : Prop} [Decidable c] {q q' : Tx α} (h : Keeps env q) (h' : Keeps env q') :
    Keeps env (if c then q else q') := by
  split
  · exact h
  · exact h'

theorem Keeps.foldlM {f : β → α → Tx β} (hf : ∀ b a, Keeps env (f b a)) (as : List α) (b : β) :
    Keeps env (as.foldlM f b) := fun _ _ hi =>
  Contract.wp_foldlM (I := fun _ s' p' => Intact env (view s'.db p'))
    (fun a _ b s' p' h => hf b a s' p' h) hi

theorem Keeps.forM {f : α → Tx PUnit} (hf : ∀ a, Keeps env (f a)) (as : List α) :
    Keeps env (as.forM f) := fun _ _ hi =>
  Contract.wp_forM (I := fun s' p' => Intact env (view s'.db p'))
    (fun a _ s' p' h => hf a s' p' h) hi

theorem wp_query_intact {f : Database → α} {Q : α → Shared Database World → List Write → Prop}
    (h : Intact env (view s.db p))
    (hQ : ∀ s', (chainContract env).Now s p s' → Intact env (view s'.db p) →
      Q (f (view s'.db p)) s' p) :
    (chainContract env).wp (Prog.query f : Tx α) Q (fun _ s' p' => Intact env (view s'.db p')) s p :=
  Contract.wp_query (fun _ _ _ hn => (intact_now h hn).1) fun s' hn => hQ s' hn (intact_now h hn).1

theorem wp_observe_intact {r : World → Input → Except Exn α}
    {Q : α → Shared Database World → List Write → Prop} (h : Intact env (view s.db p))
    (hQ : ∀ s' a, (chainContract env).Now s p s' → Intact env (view s'.db p) → Q a s' p) :
    (chainContract env).wp (observe r) Q (fun _ s' p' => Intact env (view s'.db p')) s p := by
  intro s' hn
  have h' := (intact_now h hn).1
  refine ⟨fun i _ => ⟨⟨hn.inv, Grows.refl _, Grows.refl _⟩, ?_⟩, fun _ _ => h'⟩
  dsimp only
  split
  · exact hQ s' _ hn h'
  · exact h'

theorem wp_send_intact {w : Write} (h : Intact env (view s.db p))
    (hw : ∀ s', (chainContract env).Now s p s' → clash (view s'.db p) w = false →
      Intact env ((view s'.db p).apply w)) :
    (chainContract env).wp (Prog.send w : Tx Unit) (fun _ s' p' => Intact env (view s'.db p'))
      (fun _ s' p' => Intact env (view s'.db p')) s p := by
  intro s' hn
  have h' := (intact_now h hn).1
  refine ⟨fun hc => ?_, fun _ => h', fun _ _ => h'⟩
  show Intact env (view s'.db (p ++ [w]))
  rw [view_concat]
  exact hw s' hn hc

theorem Keeps.query (f : Database → α) : Keeps env (Prog.query f) := fun _ _ h =>
  wp_query_intact h fun _ _ h' => h'

theorem Keeps.observe (r : World → Input → Except Exn α) : Keeps env (observe r) := fun _ _ h =>
  wp_observe_intact h fun _ _ _ h' => h'

theorem Keeps.act (f : World → World) : Keeps env (act f) := fun _ _ h _ hn =>
  ⟨fun _ _ => ⟨⟨hn.inv, Grows.refl _, Grows.refl _⟩, (intact_now h hn).1⟩,
    fun _ _ => (intact_now h hn).1⟩

theorem Keeps.send {w : Write} (hw : ∀ jobId, w.entries jobId = []) :
    Keeps env (Prog.send w) := fun _ _ h => wp_send_intact h fun _ hn _ jobId => by
  rw [entries_apply, hw jobId, List.append_nil]
  exact (intact_now h hn).1 jobId

theorem Keeps.commitNow : Keeps env (Prog.commitNow : Tx Unit) := fun _ p h s' hn =>
  ⟨fun _ => ⟨(intact_now h hn).1, grows_view s'.db p, (intact_now h hn).1⟩,
    fun _ _ => (intact_now h hn).1⟩

theorem Keeps.rollbackNow : Keeps env (Prog.rollbackNow : Tx Unit) := fun _ _ _ _ hn => hn.inv

theorem Keeps.liftExcept (r : Except Exn α) : Keeps env (liftExcept r) := by
  cases r with
  | ok a => exact Keeps.ret a
  | error e => exact Keeps.raise e

/-- **One append keeps what the transaction sees intact.** -/
theorem keeps_appendAuditEntry (jobId : UUID) (event : AuditEntryInput) :
    Keeps env (appendAuditEntry env jobId event) := by
  intro s p h
  refine Contract.wp_bind (wp_query_intact h fun s₀ _ h₀ => ?_)
  cases (view s₀.db p).job? jobId with
  | none => exact h₀
  | some job =>
    show (chainContract env).wp (if event.spanId.isSome ∧ event.text.isNone then _ else _) _ _ s₀ p
    split
    · exact h₀
    refine Contract.wp_bind (wp_query_intact h₀ fun s₁ _ h₁ => ?_)
    refine Contract.wp_bind (wp_observe_intact h₁ fun s₂ createdAt hn₂ h₂ => ?_)
    refine Contract.wp_bind (wp_observe_intact h₂ fun s₃ id hn₃ h₃ => ?_)
    refine Contract.wp_bind (wp_send_intact h₃ fun s₄ hn₄ hc => ?_)
    -- the chain that was read at `s₁` is continued at `s₄`
    obtain ⟨h₄, hg⟩ := intact_now h₁ ((hn₂.trans hn₃).trans hn₄)
    exact h₁.append h₄ hg rfl hc

theorem Keeps.safe {prog : Tx α} (h : Keeps env prog) (hi : Intact env s.db) :
    (chainContract env).Safe prog s [] :=
  Contract.wp_mono (fun _ _ _ _ => trivial) (fun _ _ _ _ => trivial) _ (h s [] hi)

end

/-! ### Transactions that append -/

/-- A transaction: what it appends and reads, with any other writes between,
and how it ends.  What comes next may depend on what was read. -/
inductive AuditScript
  | append (jobId : UUID) (event : AuditEntryInput) (next : AuditEntry → AuditScript)
  | read (next : Database → AuditScript)
  | other (w : Write) (h : ∀ jobId, w.entries jobId = []) (next : AuditScript)
  | commit
  | abort

def AuditScript.body (env : Env) : AuditScript → Tx Unit
  | .append jobId event next => do
    let entry ← appendAuditEntry env jobId event
    (next entry).body env
  | .read next => do
    let db ← Prog.query id
    (next db).body env
  | .other w _ next => do
    Prog.send w
    next.body env
  | .commit => Prog.commitNow
  | .abort => Prog.rollbackNow

/-- The transaction in a session of its own. -/
def AuditScript.run (env : Env) (script : AuditScript) : Tx Unit := (script.body env).closing

theorem AuditScript.keeps_body {env : Env} (script : AuditScript) : Keeps env (script.body env) := by
  induction script with
  | append jobId event next ih => exact (keeps_appendAuditEntry jobId event).bind ih
  | read next ih => exact (Keeps.query id).bind ih
  | other w hw next ih => exact (Keeps.send hw).bind fun _ => ih
  | commit => exact Keeps.commitNow
  | abort => exact Keeps.rollbackNow

def anySchedule : Guard Database Write World Input Exn Unit := fun _ _ _ => True

/-- **Programs that keep the chains keep them under every schedule.** -/
theorem intact_of_run {env : Env} {s : Shared Database World} {progs : List (Tx Unit)}
    {G : Guard Database Write World Input Exn Unit} {S : Sys Database Write World Input Exn Unit}
    (h : Intact env s.db) (hk : ∀ q ∈ progs, Keeps env q) (hr : Sys.Run G (Sys.start s progs) S) :
    Intact env S.shared.db := by
  have hfits : (chainContract env).Fits G :=
    ⟨fun _ => trivial, fun _ _ => trivial, fun _ _ _ => trivial⟩
  exact (Contract.sound hfits (fun _ _ hg => hg)
    (Contract.good_start h fun q hq => (hk q hq).safe h) hr).inv

theorem verifyEntries_chain {env : Env} {entries : List AuditEntry} (h : AuditChain env entries) :
    verifyEntries env entries = ⟨true, entries.length,
      (entries.getLast?.map (·.entryHash)).getD genesisPrevHash, none⟩ := by
  rw [verifyEntries, firstBroken_eq_none.mpr h.linked]
  rfl

theorem Linked.consecutive {env : Env} {p : String} {entries : List AuditEntry}
    (h : Linked AuditEntry.prevHash AuditEntry.entryHash (entryDigest env) p entries) :
    (∀ e, entries[0]? = some e → e.prevHash = p) ∧
      ∀ i e f, entries[i]? = some e → entries[i + 1]? = some f → f.prevHash = e.entryHash := by
  induction entries generalizing p with
  | nil => exact ⟨fun e he => absurd he (by simp), fun i e f he _ => absurd he (by simp)⟩
  | cons a l ih =>
    obtain ⟨hp, _, hl⟩ := h
    obtain ⟨hfirst, hnext⟩ := ih hl
    refine ⟨fun e he => ?_, fun i e f he hf => ?_⟩
    · cases he
      exact hp
    · cases i with
      | zero =>
        cases he
        exact hfirst f hf
      | succ i => exact hnext i e f he hf

/-- **The audit chain survives any concurrency.**  Any number of transactions
append to any jobs, in any interleaving, with commits, aborts, exceptions and
crashes at any point.  In every reachable committed state the entries of every
job are numbered `1..n`, linked from the genesis hash, and verify. -/
theorem audit_chain_survives (env : Env) (db : Database) (world : World)
    (scripts : List AuditScript) (S : Sys Database Write World Input Exn Unit)
    (hr : Sys.Run anySchedule
      (Sys.start ⟨{ db with auditEntries := [] }, world⟩ (scripts.map (·.run env))) S)
    (jobId : UUID) :
    let entries := S.shared.db.entriesBySequence jobId
    entries.map (·.sequence) = List.range' 1 entries.length ∧
      (∀ e, entries[0]? = some e → e.prevHash = genesisPrevHash) ∧
      (∀ i e f, entries[i]? = some e → entries[i + 1]? = some f → f.prevHash = e.entryHash) ∧
      verifyEntries env entries = ⟨true, entries.length,
        (entries.getLast?.map (·.entryHash)).getD genesisPrevHash, none⟩ := by
  have h : Intact env S.shared.db := by
    refine intact_of_run (fun _ => chain_nil _) (fun q hq => ?_) hr
    obtain ⟨script, _, rfl⟩ := List.mem_map.mp hq
    exact script.keeps_body.closing
  have hc := h jobId
  show _ ∧ _ ∧ _ ∧ _
  rw [entriesBySequence_eq hc]
  obtain ⟨hfirst, hnext⟩ := Linked.consecutive hc.linked
  exact ⟨hc.numbered, hfirst, hnext, verifyEntries_chain hc⟩

/-! ### Two transactions on one job

The second one reads the chain before the first commits, so its insert claims
the number the first one holds; it is refused once the first has committed. -/

section

def oneEntry : AuditScript :=
  .append 0x11111111111111111111111111111111#128
    ⟨.applyStarted, jobLifecycleCategory, none, 0x22222222222222222222222222222222#128, none⟩
    fun _ => .commit

def oneJob : Database :=
  { Database.empty with jobs := [⟨0x11111111111111111111111111111111#128, 5, 6, .applying, none⟩] }

def noon (uuid : UUID) : Label Input Exn := .ok ⟨uuid, sampleTime⟩

/-- The steps of one append are two reads, the time, the identifier, the insert. -/
def overlap : List (Nat × Label Input Exn) :=
  (List.replicate 4 (0, noon 7)) ++ (List.replicate 4 (1, noon 8)) ++
    (List.replicate 3 (0, noon 7)) ++ (List.replicate 2 (1, noon 8))

end

theorem audit_chain_survives_overlap :
    ∃ S : Sys Database Write World Input Exn Unit,
      (Sys.start ⟨oneJob, World.empty⟩
        ([oneEntry, oneEntry].map (·.run (Env.letter pinnedHash)))).replay overlap = some S ∧
      S.shared.db.auditEntries.length = 1 ∧
      (verifyEntries (Env.letter pinnedHash)
        (S.shared.db.entriesBySequence 0x11111111111111111111111111111111#128)).verified = true := by
  have hsome : ((Sys.start ⟨oneJob, World.empty⟩ ([oneEntry, oneEntry].map
      (·.run (Env.letter pinnedHash)))).replay overlap).map
        (fun S => S.shared.db.auditEntries.length) = some 1 := by
    decide +kernel
  obtain ⟨S, hS, hlen⟩ := Option.map_eq_some_iff.mp hsome
  exact ⟨S, hS, hlen, congrArg ChainVerifyResult.verified (audit_chain_survives _ oneJob
    World.empty [oneEntry, oneEntry] S (Sys.run_of_replay (fun _ _ _ => trivial) hS) _).2.2.2⟩

end RedactApi
