import Mathlib.Data.Bool.Count
import RedactApi.Pipeline.BatchItems

/-!
# A batch request

A request with a batch of items commits all of them or none.  What it commits is what the
items, submitted one by one in as many requests, would leave (`OneByOne`): the body of the
loop commits nothing, so it does not tell what is pending from what is committed.

`Kept` is what a batch leaves alone, `Counted` what its counts say about the tables.
-/

namespace RedactApi

open ReadCommitted KeyedList

/-! ### The loop commits nothing -/

section

variable {env : Env} {job : RedactionJob} {reviewerId : UUID}

theorem uncommitted_loadJobSpan (spanId : UUID) : (loadJobSpan job spanId).Uncommitted := by
  refine (uncommitted_query _).bind fun row => ?_
  cases row <;> trivial

theorem uncommitted_writeSpan (span : Span) (item : ExistingItem) :
    (writeSpan span item).Uncommitted := by
  rw [writeSpan]
  split
  · exact (uncommitted_send _).bind fun _ => trivial
  · trivial

theorem uncommitted_writeDisposition (spanId : UUID) (existing : Option Disposition)
    (action : DispositionAction) (reviewerId : UUID) (reason : Option String) :
    (writeDisposition spanId existing action reviewerId reason).Uncommitted := by
  cases existing with
  | some disposition => exact uncommitted_send _
  | none => exact uncommitted_genRandomUuid.bind fun _ => uncommitted_send _

theorem uncommitted_appendAuditEntry (jobId : UUID) (event : AuditEntryInput) :
    (appendAuditEntry env jobId event).Uncommitted := by
  refine (uncommitted_query _).bind fun row => ?_
  cases row with
  | none => trivial
  | some job =>
    show Prog.Uncommitted (if event.spanId.isSome ∧ event.text.isNone then _ else _)
    split
    · trivial
    · refine (uncommitted_query _).bind fun _ => uncommitted_datetimeNow.bind fun _ => ?_
      exact uncommitted_genRandomUuid.bind fun _ => (uncommitted_send _).bind fun _ => trivial

theorem uncommitted_getOrCreatePage (documentId : UUID) (pageNumber : Nat) :
    (getOrCreatePage documentId pageNumber).Uncommitted := by
  refine (uncommitted_query _).bind fun row => ?_
  cases row with
  | some page => trivial
  | none => exact uncommitted_genRandomUuid.bind fun _ => (uncommitted_send _).bind fun _ => trivial

theorem uncommitted_applyItem (result : DispositionBatchResult) (item : DispositionItem) :
    (applyItem env job reviewerId result item).Uncommitted := by
  cases item with
  | existing item =>
    refine Prog.Uncommitted.bind ?_ fun changed => by cases changed <;> trivial
    refine (uncommitted_loadJobSpan _).bind fun span => (uncommitted_query _).bind fun existing => ?_
    show Prog.Uncommitted (if itemNeedsChange span existing item then _ else _)
    split
    · exact (uncommitted_writeSpan _ _).bind fun _ => (uncommitted_writeDisposition _ _ _ _ _).bind
        fun _ => (uncommitted_appendAuditEntry _ _).bind fun _ => trivial
    · trivial
  | addManualSpan item =>
    refine Prog.Uncommitted.bind ?_ fun _ => trivial
    exact (uncommitted_getOrCreatePage _ _).bind fun _ => uncommitted_genRandomUuid.bind fun _ =>
      (uncommitted_send _).bind fun _ => (uncommitted_writeDisposition _ _ _ _ _).bind fun _ =>
        (uncommitted_appendAuditEntry _ _).bind fun _ => trivial

theorem uncommitted_applyDispositionBatch (items : List DispositionItem) :
    (applyDispositionBatch env job items reviewerId).Uncommitted := by
  rw [applyDispositionBatch]
  generalize (⟨0, 0, 0⟩ : DispositionBatchResult) = result
  induction items generalizing result with
  | nil => trivial
  | cons item items ih =>
    rw [List.foldlM_cons]
    exact (uncommitted_applyItem result item).bind fun result' => ih result'

/-! ### What a request comes to -/

variable {tenant : TenantContext} {jobId : UUID} {s s' : Shared Database World} {p p' : List Write}
  {ls : List (Label Input Exn)}

theorem uncommitted_getJobOr404 : (getJobOr404 tenant jobId).Uncommitted := by
  refine (uncommitted_query _).bind fun row => ?_
  cases row <;> trivial

theorem spanNotFoundTo404_inv {α : Type} {prog : Tx α} {a : α}
    (h : Ends (spanNotFoundTo404 prog) ls s p (.ok a) s' p') : Ends prog ls s p (.ok a) s' p' := by
  obtain ⟨ls₁, ls₂, o₁, s₁, p₁, rfl, h₁, h₂⟩ := h.graft_inv
  cases o₁ with
  | ok b =>
    obtain ⟨rfl, hb, rfl, rfl⟩ := h₂.ret_inv
    cases hb
    rwa [List.append_nil]
  | error e =>
    exfalso
    cases e <;> obtain ⟨-, ho, -⟩ := Ends.raise_inv h₂ <;> cases ho

def Database.requested (db : Database) (tenant : TenantContext) (jobId : UUID) :
    Option RedactionJob :=
  db.jobs.find? fun job => job.id = jobId ∧ job.organizationId = tenant.organizationId

theorem getJobOr404_inv (h : Ends (getJobOr404 tenant jobId) ls s p (.ok job) s' p') :
    s' = s ∧ p' = p ∧ (view s.db p).requested tenant jobId = some job := by
  rcases h.bind_inv with ⟨ls₁, ls₂, row, s₁, p₁, rfl, hquery, hrest⟩ | ⟨e, he, -⟩
  · obtain ⟨hrow, rfl, rfl⟩ := hquery.query_inv
    cases row with
    | none =>
      obtain ⟨-, ho, -⟩ := Ends.raise_inv hrest
      cases ho
    | some found =>
      obtain ⟨-, ho, rfl, rfl⟩ := Ends.ret_inv hrest
      cases ho
      exact ⟨rfl, rfl, hrow⟩
  · cases he

/-- **A request raises and changes nothing, or commits its whole batch.** -/
theorem createDispositions_inv {payload : DispositionBatchRequest}
    {o : Except Exn DispositionBatchResult}
    (h : Ends (createDispositions env tenant jobId payload) ls s [] o s' p') :
    (∃ e, o = .error e ∧ s'.db = s.db) ∨
    ∃ result job ls₁ s₁ p₁, o = .ok result ∧ s.db.requested tenant jobId = some job ∧
      job.status = .inReview ∧
      Ends (applyDispositionBatch env job payload.items tenant.userId) ls₁ s [] (.ok result) s₁ p₁ ∧
      s' = { s₁ with db := view s₁.db p₁ } := by
  obtain ⟨ls', i, p₂, -, h, -⟩ := h.closing_inv
  rcases h.bind_inv with ⟨la, lb, job, s₁, p₁, -, hget, hrest⟩ | ⟨e, rfl, hget⟩
  · obtain ⟨rfl, rfl, hjob⟩ := getJobOr404_inv hget
    change Ends (if job.status ≠ .inReview then _ else _) _ _ _ _ _ _ at hrest
    split at hrest
    · obtain ⟨-, rfl, rfl, -⟩ := hrest.raise_inv
      exact Or.inl ⟨_, rfl, rfl⟩
    · rename_i hst
      rcases hrest.bind_inv with ⟨lc, ld, result, s₂, p₃, -, hbatch, hcommit⟩ | ⟨e, rfl, hbatch⟩
      · have hbatch := spanNotFoundTo404_inv hbatch
        have hdb := (hbatch.settled (q := []) (uncommitted_applyDispositionBatch _)).1
        cases hcommit with
        | step hl hm hret =>
          cases hm with
          | crash _ => cases hl
          | commitFault =>
            obtain ⟨-, rfl, rfl, -⟩ := Ends.raise_inv hret
            exact Or.inl ⟨_, rfl, hdb⟩
          | commit =>
            obtain ⟨-, rfl, rfl, -⟩ := Ends.ret_inv hret
            exact Or.inr ⟨result, job, _, _, _, rfl, hjob, not_not.mp hst, hbatch, rfl⟩
      · refine Or.inl ⟨e, rfl, (hbatch.settled (q := []) ?_).1⟩
        refine (uncommitted_applyDispositionBatch _).graft (fun _ => trivial) fun e => ?_
        cases e <;> trivial
  · exact Or.inl ⟨e, rfl, (hget.settled (q := []) uncommitted_getJobOr404).1⟩

theorem ends_createDispositions {payload : DispositionBatchRequest} {result : DispositionBatchResult}
    {s₁ : Shared Database World} {p₁ : List Write} (i : Input)
    (hjob : s.db.requested tenant jobId = some job) (hst : job.status = .inReview)
    (h : Ends (applyDispositionBatch env job payload.items tenant.userId) ls s [] (.ok result)
      s₁ p₁) :
    ∃ ls', Ends (createDispositions env tenant jobId payload) ls' s [] (.ok result)
      { s₁ with db := view s₁.db p₁ } [] := by
  have hget : Ends (getJobOr404 tenant jobId) [.ok i] s [] (.ok job) s [] :=
    Ends.query_bind i hjob (.ret _ _ _)
  have hbatch : Ends (spanNotFoundTo404
      (applyDispositionBatch env job payload.items tenant.userId)) (ls ++ []) s [] (.ok result)
      s₁ p₁ := h.graft (.ret _ _ _)
  have hbody : Ends (if job.status ≠ .inReview then
        .raise (.http 409 (.text (wrongStateMessage job)))
      else do
        let result ← spanNotFoundTo404 (applyDispositionBatch env job payload.items tenant.userId)
        Prog.commitNow
        return result) (ls ++ [] ++ [.ok i]) s [] (.ok result) { s₁ with db := view s₁.db p₁ } [] := by
    rw [if_neg (not_not.mpr hst)]
    exact hbatch.bind (.step rfl .commit (.ret _ _ _))
  exact ⟨_, Ends.closing i (hget.bind hbody)⟩

/-! ### One item after the other -/

/-- Each item in a request of its own, with the counts of each. -/
inductive OneByOne (env : Env) (tenant : TenantContext) (jobId : UUID) : Shared Database World →
    List DispositionItem → List DispositionBatchResult → Shared Database World → Prop
  | nil (s : Shared Database World) : OneByOne env tenant jobId s [] [] s
  | cons {s s₁ s' : Shared Database World} {item : DispositionItem} {items : List DispositionItem}
      {ls : List (Label Input Exn)} {r : DispositionBatchResult} {rs : List DispositionBatchResult} :
      Ends (createDispositions env tenant jobId ⟨[item], List.cons_ne_nil _ _⟩) ls s [] (.ok r) s₁ [] →
      OneByOne env tenant jobId s₁ items rs s' →
      OneByOne env tenant jobId s (item :: items) (r :: rs) s'

def DispositionBatchResult.total (rs : List DispositionBatchResult) : DispositionBatchResult :=
  ⟨(rs.map (·.applied)).sum, (rs.map (·.skipped)).sum, (rs.map (·.spansCreated)).sum⟩

def DispositionBatchResult.add (a b : DispositionBatchResult) : DispositionBatchResult :=
  ⟨a.applied + b.applied, a.skipped + b.skipped, a.spansCreated + b.spansCreated⟩

theorem count_eq_add (result : DispositionBatchResult) (item : DispositionItem) (changed : Bool) :
    result.count item changed = result.add (DispositionBatchResult.count ⟨0, 0, 0⟩ item changed) := by
  cases item with
  | addManualSpan item => rfl
  | existing item => cases changed <;> rfl

theorem add_total (result r : DispositionBatchResult) (rs : List DispositionBatchResult) :
    (result.add r).add (.total rs) = result.add (.total (r :: rs)) := by
  simp only [DispositionBatchResult.add, DispositionBatchResult.total, List.map_cons, List.sum_cons,
    Nat.add_assoc]

/-- The loop body adds to the counts it is given. -/
theorem ends_applyItem_count {result result' : DispositionBatchResult} {item : DispositionItem}
    (h : Ends (applyItem env job reviewerId result item) ls s p (.ok result') s' p') :
    ∃ changed, result' = result.count item changed ∧ ∀ r,
      Ends (applyItem env job reviewerId r item) ls s p (.ok (r.count item changed)) s' p' := by
  cases item with
  | existing item =>
    rcases h.bind_inv with ⟨la, lb, changed, s₁, p₁, rfl, hbody, hret⟩ | ⟨e, he, -⟩
    · cases changed <;> obtain ⟨rfl, ho, rfl, rfl⟩ := Ends.ret_inv hret <;> cases ho
      · exact ⟨false, rfl, fun r => hbody.bind (.ret _ _ _)⟩
      · exact ⟨true, rfl, fun r => hbody.bind (.ret _ _ _)⟩
    · cases he
  | addManualSpan item =>
    rcases h.bind_inv with ⟨la, lb, _, s₁, p₁, rfl, hbody, hret⟩ | ⟨e, he, -⟩
    · obtain ⟨rfl, ho, rfl, rfl⟩ := Ends.ret_inv hret
      cases ho
      exact ⟨true, rfl, fun r => hbody.bind (.ret _ _ _)⟩
    · cases he

theorem ItemWrites.jobs {db : Database} {item : DispositionItem} {changed : Bool} {q : List Write}
    (hw : ItemWrites env job reviewerId db item changed q) : (view db q).jobs = db.jobs := by
  cases hw with
  | skipped => rfl
  | existing =>
    rw [existingWrites, view_concat, view_concat, view_spanWrites]
    show Database.jobs (Database.apply _ (dispositionWrite _ _ _ _ _ _)) = _
    rw [dispositionWrite_frame]
    rfl
  | manual => rfl
  | manualPage => rfl

/-- **A batch is its items, one by one.** -/
theorem oneByOne_of_batch (hst : job.status = .inReview) :
    ∀ {items : List DispositionItem} {result result' : DispositionBatchResult}
      {ls : List (Label Input Exn)} {s : Shared Database World} {p : List Write}, Free s.db p →
      (view s.db p).requested tenant jobId = some job →
      Ends (items.foldlM (applyItem env job tenant.userId) result) ls s p (.ok result') s' p' →
      ∃ rs, OneByOne env tenant jobId { s with db := view s.db p } items rs
          { s' with db := view s'.db p' } ∧ result' = result.add (.total rs) := by
  intro items
  induction items with
  | nil =>
    intro result result' ls s p _ _ h
    obtain ⟨-, ho, rfl, rfl⟩ := Ends.ret_inv h
    cases ho
    exact ⟨[], .nil _, rfl⟩
  | cons item items ih =>
    intro result result' ls s p hf hjob h
    rw [List.foldlM_cons] at h
    rcases h.bind_inv with ⟨la, lb, result₁, s₁, p₁, -, hitem, hrest⟩ | ⟨e, he, -⟩
    · obtain ⟨changed, rfl, hcount⟩ := ends_applyItem_count hitem
      -- the item on its own, with what is pending committed
      have halone := hcount ⟨0, 0, 0⟩
      rw [← List.append_nil p] at halone
      obtain ⟨hdb, q, hq, hends⟩ := halone.settled (uncommitted_applyItem _ _)
      obtain ⟨-, c, q', hq', hwrites, -⟩ := (Contract.solo_ends hitem (fun _ _ => trivial) hf
        (wp_applyItem_solo result item)).1 _ rfl
      have hview : view s₁.db p₁ = view (view s.db p) q := by rw [hq, hdb, view_append]
      have hjobs : (view s₁.db p₁).jobs = (view s.db p).jobs := by
        rw [hdb, hq', view_append]
        exact hwrites.jobs
      have hone : Ends (applyDispositionBatch env job
          (⟨[item], List.cons_ne_nil _ _⟩ : DispositionBatchRequest).items tenant.userId) _ _ _
          _ _ _ := hends.bind (.ret _ _ _)
      obtain ⟨lc, hrequest⟩ := ends_createDispositions ⟨0, sampleTime⟩ hjob hst hone
      rw [show view (view s.db p) q = view s₁.db p₁ from hview.symm] at hrequest
      obtain ⟨rs, hrs, rfl⟩ := ih (hitem.free hf)
        (by rw [Database.requested, hjobs]; exact hjob) hrest
      refine ⟨_, .cons hrequest hrs, ?_⟩
      rw [count_eq_add, add_total]
    · cases he

end

/-! ### What a batch leaves alone -/

def Names (items : List DispositionItem) (spanId : UUID) : Prop :=
  ∃ item, .existing item ∈ items ∧ item.spanId = spanId

/-- What no item is about stays, and nothing else is new but for new spans. -/
structure Kept (job : RedactionJob) (items : List DispositionItem) (db db' : Database) : Prop where
  documents : db'.documents = db.documents
  jobs : db'.jobs = db.jobs
  pages : ∀ page ∈ db.pages, page ∈ db'.pages
  newPages : ∀ page ∈ db'.pages, page ∈ db.pages ∨ page.documentId = job.documentId ∧
    ∃ item, .addManualSpan item ∈ items ∧ item.pageNumber = page.pageNumber
  spanIds : ∀ span ∈ db.spans, ∃ span' ∈ db'.spans, span'.id = span.id
  spans : ∀ span ∈ db.spans, ¬ Names items span.id → span ∈ db'.spans
  newSpans : ∀ span ∈ db'.spans, span ∈ db.spans ∨ Names items span.id ∨
    ∀ old ∈ db.spans, old.id ≠ span.id
  dispositions : ∀ d ∈ db.dispositions, ¬ Names items d.spanId → d ∈ db'.dispositions
  newDispositions : ∀ d ∈ db'.dispositions, d ∈ db.dispositions ∨ Names items d.spanId ∨
    ∀ old ∈ db.spans, old.id ≠ d.spanId

theorem Kept.refl (job : RedactionJob) (items : List DispositionItem) (db : Database) :
    Kept job items db db where
  documents := rfl
  jobs := rfl
  pages _ h := h
  newPages _ h := Or.inl h
  spanIds span h := ⟨span, h, rfl⟩
  spans _ h _ := h
  newSpans _ h := Or.inl h
  dispositions _ h _ := h
  newDispositions _ h := Or.inl h

theorem Names.head {item : DispositionItem} {items : List DispositionItem} {x : UUID}
    (h : Names [item] x) : Names (item :: items) x := by
  obtain ⟨i, hi, hx⟩ := h
  exact ⟨i, List.mem_singleton.mp hi ▸ List.mem_cons_self, hx⟩

theorem Names.tail {item : DispositionItem} {items : List DispositionItem} {x : UUID}
    (h : Names items x) : Names (item :: items) x := by
  obtain ⟨i, hi, hx⟩ := h
  exact ⟨i, List.mem_cons_of_mem _ hi, hx⟩

theorem Kept.cons {job : RedactionJob} {item : DispositionItem} {items : List DispositionItem}
    {a b c : Database} (h : Kept job [item] a b) (h' : Kept job items b c) :
    Kept job (item :: items) a c where
  documents := h'.documents.trans h.documents
  jobs := h'.jobs.trans h.jobs
  pages page hp := h'.pages page (h.pages page hp)
  newPages page hp := by
    rcases h'.newPages page hp with hp | ⟨hdoc, i, hi, hn⟩
    · rcases h.newPages page hp with hp | ⟨hdoc, i, hi, hn⟩
      · exact Or.inl hp
      · exact Or.inr ⟨hdoc, i, List.mem_singleton.mp hi ▸ List.mem_cons_self, hn⟩
    · exact Or.inr ⟨hdoc, i, List.mem_cons_of_mem _ hi, hn⟩
  spanIds span hs := by
    obtain ⟨span₁, hs₁, hid₁⟩ := h.spanIds span hs
    obtain ⟨span₂, hs₂, hid₂⟩ := h'.spanIds span₁ hs₁
    exact ⟨span₂, hs₂, hid₂.trans hid₁⟩
  spans span hs hn := h'.spans span (h.spans span hs fun hx => hn hx.head) fun hx => hn hx.tail
  newSpans span hs := by
    rcases h'.newSpans span hs with hs | hx | hnew
    · exact (h.newSpans span hs).imp_right (Or.imp_left Names.head)
    · exact Or.inr (Or.inl hx.tail)
    · refine Or.inr (Or.inr fun old ho he => ?_)
      obtain ⟨old', ho', hid⟩ := h.spanIds old ho
      exact hnew old' ho' (hid.trans he)
  dispositions d hd hn := h'.dispositions d (h.dispositions d hd fun hx => hn hx.head)
    fun hx => hn hx.tail
  newDispositions d hd := by
    rcases h'.newDispositions d hd with hd | hx | hnew
    · exact (h.newDispositions d hd).imp_right (Or.imp_left Names.head)
    · exact Or.inr (Or.inl hx.tail)
    · refine Or.inr (Or.inr fun old ho he => ?_)
      obtain ⟨old', ho', hid⟩ := h.spanIds old ho
      exact hnew old' ho' (hid.trans he)

section

variable {env : Env} {job : RedactionJob} {reviewerId : UUID} {db db' : Database}

/-- One disposition is written: those of other spans stay. -/
theorem Disposes.mem_dispositions {d d' : Disposition} {e : AuditEntry} (h : Disposes db db' d e)
    (hwf : WellFormed db) (hwf' : WellFormed db') (hne : d.spanId ≠ d'.spanId) :
    d' ∈ db'.dispositions ↔ d' ∈ db.dispositions := by
  have hsame : db'.disposition? d'.spanId = db.disposition? d'.spanId := by
    rw [h.disposition, if_neg hne]
  constructor
  · intro hd
    exact List.mem_of_find?_eq_some (hsame.symm.trans (hwf'.disposition?_eq hd))
  · intro hd
    exact List.mem_of_find?_eq_some (hsame.trans (hwf.disposition?_eq hd))

theorem Applied.kept {item : ExistingItem} {span : Span} {page : Page} {d : Disposition}
    {e : AuditEntry} (hwf : WellFormed db) (h : Applied job item db db' span page d e) :
    Kept job [.existing item] db db' := by
  have hnamed : Names [.existing item] span.id := ⟨item, List.mem_singleton_self _, h.id.symm⟩
  have hpatch : ∀ s : Span, span.id ≠ s.id → Span.patch span (editedSpan span item) s = s :=
    fun s hne => by rw [Span.patch, if_neg (Ne.symm hne)]
  refine ⟨h.disposes.documents, h.disposes.jobs, fun page hp => by rwa [h.pages],
    fun page hp => Or.inl (by rwa [h.pages] at hp), fun s hs => ?_, fun s hs hn => ?_,
    fun s hs => ?_, fun d' hd' hn => ?_, fun d' hd' => ?_⟩
  · rw [h.spans]
    exact ⟨_, List.mem_map_of_mem hs, Span.patch_id _ _ _⟩
  · rw [h.spans]
    exact List.mem_map.mpr ⟨s, hs, hpatch s fun he => hn (he ▸ hnamed)⟩
  · rw [h.spans] at hs
    obtain ⟨s₀, hs₀, rfl⟩ := List.mem_map.mp hs
    by_cases he : span.id = s₀.id
    · rw [Span.patch_id, ← he]
      exact Or.inr (Or.inl hnamed)
    · rw [hpatch s₀ he]
      exact Or.inl hs₀
  · refine (h.disposes.mem_dispositions hwf h.wf fun he => hn ?_).mpr hd'
    rw [← he, h.spanId]
    exact hnamed
  · by_cases he : d.spanId = d'.spanId
    · rw [← he, h.spanId]
      exact Or.inr (Or.inl hnamed)
    · exact Or.inl ((h.disposes.mem_dispositions hwf h.wf he).mp hd')

structure Added (job : RedactionJob) (db db' : Database) (span : Span) (d : Disposition)
    (e : AuditEntry) : Prop where
  fresh : ∀ old ∈ db.spans, old.id ≠ span.id
  spanId : d.spanId = span.id
  disposes : Disposes db db' d e
  entry : e.jobId = job.id
  wf : WellFormed db'
  spans : db'.spans = db.spans ++ [span]
  pages : db'.pages = db.pages

theorem Added.kept {items : List DispositionItem} {span : Span} {d : Disposition} {e : AuditEntry}
    (hwf : WellFormed db) (h : Added job db db' span d e) : Kept job items db db' := by
  -- a disposition of the new span would be one of an old span
  have hnew : ∀ d' ∈ db.dispositions, d.spanId ≠ d'.spanId := by
    intro d' hd' he
    obtain ⟨old, ho, hid⟩ := hwf.disposition_fk d' hd'
    exact h.fresh old ho (hid.trans (he.symm.trans h.spanId))
  refine ⟨h.disposes.documents, h.disposes.jobs, fun page hp => by rwa [h.pages],
    fun page hp => Or.inl (by rwa [h.pages] at hp), fun s hs => ?_, fun s hs _ => ?_,
    fun s hs => ?_, fun d' hd' _ => ?_, fun d' hd' => ?_⟩
  · rw [h.spans]
    exact ⟨s, List.mem_append_left _ hs, rfl⟩
  · rw [h.spans]
    exact List.mem_append_left _ hs
  · rw [h.spans] at hs
    rcases List.mem_append.mp hs with hs | hs
    · exact Or.inl hs
    · rw [List.mem_singleton.mp hs]
      exact Or.inr (Or.inr h.fresh)
  · exact (h.disposes.mem_dispositions hwf h.wf (hnew d' hd')).mpr hd'
  · by_cases he : d.spanId = d'.spanId
    · rw [← he, h.spanId]
      exact Or.inr (Or.inr h.fresh)
    · exact Or.inl ((h.disposes.mem_dispositions hwf h.wf he).mp hd')

theorem added_manualWrites (hwf : WellFormed db) (hj : Present db job) {item : AddManualSpanItem}
    {page : Page} {spanId dispositionId id organizationId : UUID} {link : String × Nat}
    {createdAt : DateTime} {entry : AuditEntry} (hpage : page ∈ db.pages)
    (he : entry = makeEntry env id job.id organizationId (manualEvent spanId item reviewerId) link
      createdAt)
    (hf : Free db (manualWrites (manualSpan spanId page.id item) item dispositionId reviewerId
      entry)) :
    Added job db (view db (manualWrites (manualSpan spanId page.id item) item dispositionId
      reviewerId entry)) (manualSpan spanId page.id item)
      ⟨dispositionId, spanId, .approved, item.reason, reviewerId⟩ entry := by
  obtain ⟨hc, hd, hwf', hspans, hpages⟩ := manual_effect hwf hj hpage he hf
  exact ⟨span_fresh hc, rfl, hd, by rw [he]; rfl, hwf', hspans, hpages⟩

/-! ### What the counts say -/

def DispositionItem.isManual : DispositionItem → Bool
  | .addManualSpan _ => true
  | .existing _ => false

/-- As many new entries of the job as items are applied, as many new spans as are added by
hand. -/
structure Counted (job : RedactionJob) (items : List DispositionItem) (cs : List Bool)
    (db db' : Database) : Prop where
  entries : ∃ new, db'.auditEntries = db.auditEntries ++ new ∧ new.length = cs.count true ∧
    ∀ e ∈ new, e.jobId = job.id
  spans : db'.spans.length = db.spans.length + items.countP DispositionItem.isManual

theorem Counted.cons {item : DispositionItem} {items : List DispositionItem} {changed : Bool}
    {cs : List Bool} {a b c : Database} (h : Counted job [item] [changed] a b)
    (h' : Counted job items cs b c) : Counted job (item :: items) (changed :: cs) a c where
  entries := by
    obtain ⟨new, hnew, hlength, hjob⟩ := h.entries
    obtain ⟨new', hnew', hlength', hjob'⟩ := h'.entries
    refine ⟨new ++ new', by rw [hnew', hnew, List.append_assoc], ?_, fun e he => ?_⟩
    · rw [List.length_append, hlength, hlength', ← List.count_append, List.singleton_append]
    · rcases List.mem_append.mp he with he | he
      · exact hjob e he
      · exact hjob' e he
  spans := by
    rw [h'.spans, h.spans, Nat.add_assoc, ← List.countP_append, List.singleton_append]

def PagesOnce (db : Database) : Prop :=
  (db.pages.map fun page => (page.documentId, page.pageNumber)).Nodup

theorem PagesOnce.insertPage {row : Page} (h : PagesOnce db)
    (hc : clash db (.insertPage row) = false) : PagesOnce (db.apply (.insertPage row)) := by
  refine nodup_concat h fun page hp he => ?_
  have hunused := ne_of_any (unused_of_clash hc
    (k := .pageNumber row.documentId row.pageNumber) (by simp [Write.claims])) page hp
  obtain ⟨hdoc, hnumber⟩ := Prod.mk.injEq .. ▸ he
  exact of_decide_eq_false hunused ⟨hdoc, hnumber⟩

/-- What the items of a batch come to. -/
structure Batch (job : RedactionJob) (items : List DispositionItem) (cs : List Bool)
    (db db' : Database) : Prop where
  wf : WellFormed db'
  kept : Kept job items db db'
  counted : Counted job items cs db db'
  pagesOnce : PagesOnce db → PagesOnce db'

theorem Added.batch {item : AddManualSpanItem} {span : Span} {d : Disposition} {e : AuditEntry}
    (hwf : WellFormed db) (h : Added job db db' span d e) :
    Batch job [.addManualSpan item] [true] db db' where
  wf := h.wf
  kept := h.kept hwf
  counted := by
    refine ⟨⟨[e], h.disposes.entries, rfl, fun a ha => ?_⟩, ?_⟩
    · rw [List.mem_singleton.mp ha]
      exact h.entry
    · rw [h.spans, List.length_append]
      rfl
  pagesOnce hp := by rwa [PagesOnce, h.pages]

theorem kept_insertPage {item : AddManualSpanItem} (pageId : UUID) :
    Kept job [.addManualSpan item] db
      (db.apply (.insertPage ⟨pageId, job.documentId, item.pageNumber⟩)) where
  documents := rfl
  jobs := rfl
  pages page hp := List.mem_append_left _ hp
  newPages page hp := by
    rcases List.mem_append.mp hp with hp | hp
    · exact Or.inl hp
    · rw [List.mem_singleton.mp hp]
      exact Or.inr ⟨rfl, item, List.mem_singleton_self _, rfl⟩
  spanIds span hs := ⟨span, hs, rfl⟩
  spans _ h _ := h
  newSpans _ h := Or.inl h
  dispositions _ h _ := h
  newDispositions _ h := Or.inl h

/-- **One item** leaves all others alone and is counted once. -/
theorem ItemWrites.batch {item : DispositionItem} {changed : Bool} {q : List Write}
    (hwf : WellFormed db) (hj : Present db job)
    (hw : ItemWrites env job reviewerId db item changed q) (hf : Free db q) :
    Batch job [item] [changed] db (view db q) := by
  cases item with
  | existing item =>
    cases changed with
    | true =>
      obtain ⟨span, page, d, e, h⟩ := hw.applied hwf hj hf
      refine ⟨h.wf, h.kept hwf, ⟨⟨[e], h.disposes.entries, rfl, fun a ha => ?_⟩, ?_⟩,
        fun hp => by rwa [PagesOnce, h.pages]⟩
      · rw [List.mem_singleton.mp ha]
        exact h.entry
      · rw [h.spans, List.length_map]
        rfl
    | false =>
      cases hw
      exact ⟨hwf, .refl _ _ _, ⟨⟨[], (List.append_nil _).symm, rfl, fun _ he => absurd he
        List.not_mem_nil⟩, rfl⟩, id⟩
  | addManualSpan item =>
    cases hw with
    | manual hpage he =>
      exact (added_manualWrites hwf hj (List.mem_of_find?_eq_some hpage) he hf).batch hwf
    | manualPage hpage he =>
      rename_i pageId spanId dispositionId id organizationId link createdAt entry
      obtain ⟨j, hjm, hid, hdoc⟩ := hj
      obtain ⟨document, hd, hdid⟩ := hwf.job_fk j hjm
      have hwf₁ := hwf.apply hf.head ⟨document, hd, hdid.trans hdoc⟩
      have hpage : (⟨pageId, job.documentId, item.pageNumber⟩ : Page) ∈
          (db.apply (.insertPage ⟨pageId, job.documentId, item.pageNumber⟩)).pages :=
        List.mem_append_right _ (List.mem_singleton_self _)
      have hadded := added_manualWrites hwf₁ ⟨j, hjm, hid, hdoc⟩ hpage he hf.tail
      have hspan : Batch job [.addManualSpan item] _ _ _ := hadded.batch hwf₁
      refine ⟨hspan.wf, (kept_insertPage pageId).cons (hadded.kept hwf₁),
        ⟨hspan.counted.entries, hspan.counted.spans⟩, fun hp => ?_⟩
      exact hspan.pagesOnce (hp.insertPage hf.head)

/-- **A batch** leaves what no item is about alone, and each item is counted once. -/
theorem BatchRun.batch {items : List DispositionItem} {cs : List Bool} {q : List Write}
    (hrun : BatchRun env job reviewerId db items cs q) (hwf : WellFormed db) (hj : Present db job)
    (hf : Free db q) : Batch job items cs db (view db q) := by
  induction hrun with
  | nil db =>
    exact ⟨hwf, .refl _ _ _, ⟨⟨[], (List.append_nil _).symm, rfl, fun _ he => absurd he
      List.not_mem_nil⟩, rfl⟩, id⟩
  | cons hw _ ih =>
    have hitem := hw.batch hwf hj hf.left
    have hrest := ih hitem.wf ((extends_view _ _).present hj) hf.right
    rw [view_append]
    exact ⟨hrest.wf, hitem.kept.cons hrest.kept, hitem.counted.cons hrest.counted,
      fun hp => hrest.pagesOnce (hitem.pagesOnce hp)⟩

theorem BatchRun.counts_eq {items : List DispositionItem} {cs : List Bool} {q : List Write}
    (hrun : BatchRun env job reviewerId db items cs q) (result : DispositionBatchResult) :
    result.counts items cs = ⟨result.applied + cs.count true, result.skipped + cs.count false,
      result.spansCreated + items.countP DispositionItem.isManual⟩ ∧ cs.length = items.length := by
  induction hrun generalizing result with
  | nil => exact ⟨rfl, rfl⟩
  | @cons _ item items changed cs _ _ hw _ ih =>
    obtain ⟨hcounts, hlength⟩ := ih (result.count item changed)
    refine ⟨?_, by rw [List.length_cons, List.length_cons, hlength]⟩
    rw [DispositionBatchResult.counts, hcounts]
    rw [List.count_cons, List.count_cons, List.countP_cons]
    cases hw <;> simp [DispositionBatchResult.count, DispositionItem.isManual] <;> omega

end

/-- **A batch request is atomic and correctly counted.**  If it raises, nothing is changed.
Else what is committed is what its items leave in requests of their own, one after the
other; every item is counted as applied or as skipped, and the counts are those of the new
entries and spans; and what no item is about is left alone. -/
theorem batch_request_atomic {env : Env} {tenant : TenantContext} {jobId : UUID}
    {payload : DispositionBatchRequest} {ls : List (Label Input Exn)}
    {s s' : Shared Database World} {o : Except Exn DispositionBatchResult} {p' : List Write}
    (hwf : WellFormed s.db) (hpages : PagesOnce s.db)
    (h : Ends (createDispositions env tenant jobId payload) ls s [] o s' p') :
    (∀ e, o = .error e → s'.db = s.db) ∧
    ∀ result, o = .ok result → ∃ job rs, Requested tenant jobId s.db job ∧
      job.status = .inReview ∧ OneByOne env tenant jobId s payload.items rs s' ∧
      result = .total rs ∧ result.applied + result.skipped = payload.items.length ∧
      result.spansCreated = payload.items.countP DispositionItem.isManual ∧
      s'.db.spans.length = s.db.spans.length + result.spansCreated ∧
      (∃ new, s'.db.auditEntries = s.db.auditEntries ++ new ∧ new.length = result.applied ∧
        ∀ e ∈ new, e.jobId = job.id) ∧
      PagesOnce s'.db ∧ Kept job payload.items s.db s'.db := by
  rcases createDispositions_inv h with ⟨e, rfl, hdb⟩ | ⟨result, job, ls₁, s₁, p₁, rfl, hjob, hst,
    hbatch, rfl⟩
  · exact ⟨fun _ _ => hdb, fun _ ho => by cases ho⟩
  refine ⟨fun _ ho => (by cases ho), fun result' ho => ?_⟩
  cases ho
  have hfound := List.find?_some hjob
  rw [decide_eq_true_eq] at hfound
  have hmem : job ∈ s.db.jobs := List.mem_of_find?_eq_some hjob
  have hfree := hbatch.free (free_nil _)
  obtain ⟨rs, hone, htotal⟩ := oneByOne_of_batch hst (free_nil _) hjob hbatch
  obtain ⟨hdb, cs, q, hq, hrun, hcounts⟩ := (Contract.solo_ends hbatch (fun _ _ => trivial)
    (free_nil _) (wp_batch_solo payload.items ⟨0, 0, 0⟩ s [])).1 result rfl
  rw [List.nil_append] at hq
  subst hq
  rw [hdb] at hfree
  obtain ⟨heq, hlength⟩ := hrun.counts_eq ⟨0, 0, 0⟩
  rw [hcounts, heq]
  have hdone : Batch job payload.items cs s.db (view s₁.db p₁) := by
    rw [hdb]
    exact hrun.batch hwf ⟨job, hmem, rfl, rfl⟩ hfree
  refine ⟨job, rs, ⟨hmem, hfound.1, hfound.2⟩, hst, hone, ?_, ?_, Nat.zero_add _, ?_, ?_,
    ?_, ?_⟩
  · rw [← heq, ← hcounts, htotal]
    simp [DispositionBatchResult.add]
  · rw [← hlength, ← List.count_true_add_count_false]
    simp
  · exact hdone.counted.spans.trans (congrArg _ (Nat.zero_add _).symm)
  · obtain ⟨new, hnew, hcount, hall⟩ := hdone.counted.entries
    exact ⟨new, hnew, by rw [hcount, Nat.zero_add], hall⟩
  · exact hdone.pagesOnce hpages
  · exact hdone.kept

def mixedBatch : DispositionBatchRequest :=
  ⟨[.existing (.reject 5 none), .addManualSpan ⟨2, [], "y", "name", none, Nat.le_succ 1⟩,
    .addManualSpan ⟨2, [], "z", "name", none, Nat.le_succ 1⟩], List.cons_ne_nil _ _⟩

def numberedAnswers (n : Nat) : List (Label Input Exn) :=
  (List.range n).map fun i => .ok ⟨BitVec.ofNat 128 (i + 100), sampleTime⟩

theorem batch_request_atomic_mixed :
    ∃ s', Ends (createDispositions (Env.letter fun _ => "00") ⟨6, 3, .admin⟩ 4 mixedBatch)
        (numberedAnswers 33) ⟨approvedReview, World.empty⟩ [] (.ok ⟨3, 0, 2⟩) s' [] ∧
      s'.db.pages.length = 2 ∧ s'.db.spans.length = 1 + 2 ∧ PagesOnce s'.db := by
  have hsome : ((createDispositions (Env.letter fun _ => "00") ⟨6, 3, .admin⟩ 4 mixedBatch).outcome
      (numberedAnswers 33) ⟨approvedReview, World.empty⟩ []).map
        (fun r => (r.1, r.2.1.db.pages.length, r.2.2)) = some (.ok ⟨3, 0, 2⟩, 2, []) := by
    decide +kernel
  obtain ⟨⟨o, s', p'⟩, houtcome, hresult⟩ := Option.map_eq_some_iff.mp hsome
  obtain ⟨rfl, hpages, rfl⟩ : o = .ok ⟨3, 0, 2⟩ ∧ s'.db.pages.length = 2 ∧ p' = [] := by
    simpa using hresult
  have hends := ends_of_outcome houtcome
  obtain ⟨_, _, -, -, -, -, -, -, hspans, -, honce, -⟩ := (batch_request_atomic
    (s := ⟨approvedReview, World.empty⟩) wellFormed_approvedReview
    (by unfold PagesOnce; decide) hends).2 _ rfl
  exact ⟨s', hends, hpages, hspans, honce⟩

end RedactApi
