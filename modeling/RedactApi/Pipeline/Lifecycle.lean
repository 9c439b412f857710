import RedactApi.AuditChain.Operations
import RedactApi.Pipeline.Review
import RedactApi.Pipeline.StatusOrder

/-!
# The lifecycle of a job

`JobInv` ties a job to its spans, their dispositions, its audit entries and its
artifact, one field for each thing the status promises.  Operations that run one
at a time keep it for every job: what an operation has read is still so when it
commits, so each commit is a small change of one job, and the frame lemmas cover
the others.

`Advances` is what one step may do: a job keeps its document and does not go
back, and detection persists spans only on the way from `ingested` to `inReview`.
-/

namespace RedactApi

open ReadCommitted KeyedList

/-! ### What the status promises -/

/-- What a chain may end with: the job-level events of each status. -/
def closings : JobStatus → List (List AuditAction)
  | .verified => [[.applyStarted, .verifyPassed]]
  | .exported => [[.applyStarted, .verifyPassed, .exported]]
  | .failed => [[], [.applyStarted, .verifyFailed]]
  | _ => [[]]

def IsReview (e : AuditEntry) : Prop := e.spanId.isSome ∧ e.action.outcome.isSome

/-- The entries of a review, then the events that close it. -/
def ChainShape (status : JobStatus) (entries : List AuditEntry) : Prop :=
  ∃ review closing, entries = review ++ closing ∧ (∀ e ∈ review, IsReview e) ∧
    (∀ e ∈ closing, e.spanId = none) ∧ closing.map (·.action) ∈ closings status

/-- The stored artifact is what the burn-in makes of the original and of the spans
that are approved now. -/
def Artifact (env : Env) (s : Shared Database World) (job : RedactionJob) : Prop :=
  ∃ original spans result,
    s.world.objects (Keys.originalPdfKey job.documentId) = some original ∧
    s.db.approvedSpans job.documentId = .ok spans ∧ apply env original spans = .ok result ∧
    result.passed = true ∧ s.world.objects (Keys.redactedPdfKey job.id) = some result.pdfBytes

def passedStates : List JobStatus := [.verified, .exported]

structure JobInv (env : Env) (s : Shared Database World) (job : RedactionJob) : Prop where
  untouched : job.status ∈ [.uploaded, .ingested] →
    s.db.spanRows job.documentId = [] ∧ s.db.entries job.id = []
  disposed : job.status ∈ [.applying, .verified, .exported] →
    ∀ r ∈ s.db.spanRows job.documentId, (s.db.disposition? r.1.id).isSome
  key : job.redactedPdfKey =
    if job.status ∈ passedStates then some (Keys.redactedPdfKey job.id) else none
  artifact : job.status ∈ passedStates → Artifact env s job
  chain : ChainShape job.status (s.db.entries job.id)

/-- Every job keeps what its status promises. -/
structure LifeInv (env : Env) (s : Shared Database World) : Prop where
  reviewed : Reviewed env True s.db
  jobs : ∀ job ∈ s.db.jobs, JobInv env s job

/-! ### Frames -/

section

variable {env : Env} {s s' : Shared Database World} {job : RedactionJob}

theorem SameSpans.approvedSpans {db db' : Database} {documentId : UUID}
    (h : SameSpans documentId db db') (hwf : WellFormed db) (hwf' : WellFormed db') :
    db'.approvedSpans documentId = db.approvedSpans documentId := by
  have hrows : db'.approvedRows documentId = db.approvedRows documentId := by
    rw [Database.approvedRows, Database.approvedRows, h.rows]
    congr 2
    refine List.filter_congr fun r hr => ?_
    rw [hwf'.any_approved, hwf.any_approved, h.dispositions r hr]
  rw [Database.approvedSpans, hrows, Database.approvedSpans]

/-- The objects a job that has passed the gate rests on. -/
structure SameObjects (job : RedactionJob) (w w' : World) : Prop where
  original : w'.objects (Keys.originalPdfKey job.documentId) =
    w.objects (Keys.originalPdfKey job.documentId)
  redacted : w'.objects (Keys.redactedPdfKey job.id) = w.objects (Keys.redactedPdfKey job.id)

theorem SameObjects.refl (job : RedactionJob) (w : World) : SameObjects job w w := ⟨rfl, rfl⟩

theorem Artifact.frame (h : Artifact env s job) (hwf : WellFormed s.db) (hwf' : WellFormed s'.db)
    (hspans : SameSpans job.documentId s.db s'.db) (ho : SameObjects job s.world s'.world) :
    Artifact env s' job := by
  obtain ⟨original, spans, result, horig, happroved, happly, hpass, hred⟩ := h
  exact ⟨original, spans, result, ho.original.trans horig,
    (hspans.approvedSpans hwf hwf').trans happroved, happly, hpass, ho.redacted.trans hred⟩

theorem JobInv.frame (h : JobInv env s job) (hwf : WellFormed s.db) (hwf' : WellFormed s'.db)
    (hspans : SameSpans job.documentId s.db s'.db)
    (hentries : s'.db.entries job.id = s.db.entries job.id)
    (ho : job.status ∈ passedStates → SameObjects job s.world s'.world) : JobInv env s' job where
  untouched hst := by
    rw [hspans.rows, hentries]
    exact h.untouched hst
  disposed hst r hr := by
    rw [hspans.rows] at hr
    rw [hspans.dispositions r hr]
    exact h.disposed hst r hr
  key := h.key
  artifact hst := (h.artifact hst).frame hwf hwf' hspans (ho hst)
  chain := hentries ▸ h.chain

/-- A job that a commit leaves alone: its row, its spans and its entries. -/
structure SameReview (job : RedactionJob) (db db' : Database) : Prop where
  row : job ∈ db'.jobs
  spans : SameSpans job.documentId db db'
  entries : db'.entries job.id = db.entries job.id

theorem JobInv.same {db' : Database} (h : JobInv env s job) (hwf : WellFormed s.db)
    (hwf' : WellFormed db') (hsame : SameReview job s.db db') :
    JobInv env { s with db := db' } job :=
  h.frame hwf hwf' hsame.spans hsame.entries fun _ => SameObjects.refl _ _

theorem LifeInv.world (h : LifeInv env s) {w : World}
    (hw : ∀ job ∈ s.db.jobs, job.status ∈ passedStates → SameObjects job s.world w) :
    LifeInv env { s with world := w } where
  reviewed := h.reviewed
  jobs job hj := (h.jobs job hj).frame h.reviewed.wf h.reviewed.wf (SameSpans.refl _ _) rfl
    (hw job hj)

end

/-! ### Steps -/

/-- Detection has added a span to the document: a new one that nobody added by
hand. -/
def DetectionPersists (documentId : UUID) (db db' : Database) : Prop :=
  ∃ r ∈ db'.spanRows documentId, (∀ span ∈ db.spans, span.id ≠ r.1.id) ∧ ¬ AddedByHand db' r.1.id

/-- What one step may do to the jobs. -/
structure Advances (db db' : Database) : Prop where
  jobs : ∀ job ∈ db.jobs, ∃ job' ∈ db'.jobs,
    job'.documentId = job.documentId ∧ job.status.rank ≤ job'.status.rank
  detection : ∀ documentId, DetectionPersists documentId db db' →
    (∃ job ∈ db.jobs, job.documentId = documentId ∧ job.status = .ingested) ∧
      ∃ job ∈ db'.jobs, job.documentId = documentId ∧ job.status = .inReview

theorem not_detectionPersists {db db' : Database} {documentId : UUID}
    (h : ∀ r ∈ db'.spanRows documentId, ∃ span ∈ db.spans, span.id = r.1.id) :
    ¬ DetectionPersists documentId db db' := by
  rintro ⟨r, hr, hnew, -⟩
  obtain ⟨span, hs, hid⟩ := h r hr
  exact hnew span hs hid

theorem Advances.refl (db : Database) : Advances db db where
  jobs job hj := ⟨job, hj, rfl, Nat.le_refl _⟩
  detection _ h := absurd h
    (not_detectionPersists fun r hr => ⟨r.1, (mem_spanRows.mp hr).1, rfl⟩)

def SameOriginals (s s' : Shared Database World) : Prop :=
  ∀ d ∈ s.db.documents, s'.world.objects (Keys.originalPdfKey d.id) =
    s.world.objects (Keys.originalPdfKey d.id)

/-- One operation at a time: nothing changes that an operation does not change
itself, and it changes no original that exists. -/
def lifeContract (env : Env) : Contract Database Write World Input Exn where
  inv s := LifeInv env s
  rely s s' := s' = s
  guar s s' := Advances s.db s'.db
  allowed _ _ := True
  input _ _ _ := True
  fault _ := True
  past s s' := s'.db = s.db ∧ SameOriginals s s'
  rely_refl _ := rfl
  rely_trans h h' := h'.trans h
  guar_refl s := Advances.refl s.db
  past_refl s := ⟨rfl, fun _ _ => rfl⟩
  past_trans h h' := ⟨h'.1.trans h.1, fun d hd => (h'.2 d (h.1 ▸ hd)).trans (h.2 d hd)⟩
  rely_past h := by
    rw [h]
    exact ⟨rfl, fun _ _ => rfl⟩

/-! ### Closing a review: events and a move of the job -/

section

variable {env : Env} {s : Shared Database World} {job new : RedactionJob} {es : List AuditEntry}

theorem entries_of_append {db db' : Database} {es : List AuditEntry}
    (h : db'.auditEntries = db.auditEntries ++ es) (jobId : UUID) :
    db'.entries jobId = db.entries jobId ++ es.filter (·.jobId = jobId) := by
  rw [Database.entries, h, List.filter_append]
  rfl

def closingWrites (job new : RedactionJob) (es : List AuditEntry) : List Write :=
  es.map .insertAudit ++ [.updateJob job new]

theorem view_closingWrites (db : Database) (job new : RedactionJob) (es : List AuditEntry) :
    view db (closingWrites job new es) =
      { db with
        auditEntries := db.auditEntries ++ es
        jobs := db.jobs.map (RedactionJob.patch job new) } := by
  have hentries : view db (es.map Write.insertAudit) =
      { db with auditEntries := db.auditEntries ++ es } := by
    induction es generalizing db with
    | nil => simp
    | cons e es ih =>
      show view (db.apply (.insertAudit e)) (es.map Write.insertAudit) = _
      rw [ih]
      simp [Database.apply]
  rw [closingWrites, view_concat, hentries]
  rfl

/-- The same row, but for what its status and its key are. -/
structure SameJob (job new : RedactionJob) : Prop where
  id : new.id = job.id
  document : new.documentId = job.documentId
  organization : new.organizationId = job.organizationId

theorem Reviewed.closing {exact : Prop} (h : Reviewed env exact s.db) (hj : Present s.db job)
    (hf : Free s.db (closingWrites job new es)) (hes : ∀ e ∈ es, e.jobId = job.id ∧ e.spanId = none) :
    Reviewed env exact (view s.db (closingWrites job new es)) := by
  have hwf : WellFormed (view s.db (closingWrites job new es)) := by
    refine h.wf.view hf (allRefer_append.mpr ⟨?_, trivial, trivial⟩)
    obtain ⟨j, hjm, hid, -⟩ := hj
    have hrefer : ∀ (l : List AuditEntry) (db : Database), (∀ e ∈ l, e.jobId = job.id) →
        j ∈ db.jobs → AllRefer db (l.map .insertAudit) := by
      intro l
      induction l with
      | nil => intro _ _ _; trivial
      | cons e l ih =>
        intro db hl hm
        refine ⟨⟨j, hm, hid.trans (hl e List.mem_cons_self).symm⟩, ih _ (fun a ha => ?_) hm⟩
        exact hl a (List.mem_cons_of_mem e ha)
    exact hrefer es s.db (fun e he => (hes e he).1) hjm
  have hext := extends_view s.db (closingWrites job new es)
  rw [view_closingWrites] at hwf hext ⊢
  have hlast : ∀ x, Database.lastEntry { s.db with
      auditEntries := s.db.auditEntries ++ es
      jobs := s.db.jobs.map (RedactionJob.patch job new) } x = s.db.lastEntry x := by
    intro x
    have hnone : es.filter (·.spanId = some x) = [] :=
      List.filter_eq_nil_iff.mpr fun e he => by simp [(hes e he).2]
    simp only [Database.lastEntry, List.filter_append, hnone, List.append_nil]
  refine ⟨hwf, fun x => ?_, h.owned.extend hext fun e he => ?_, fun hE span hs e he => ?_⟩
  · rw [hlast]
    exact h.agree x
  · refine (List.mem_append.mp he).imp_right fun hm x hx => ?_
    rw [(hes e hm).2] at hx
    cases hx
  · rw [hlast] at he
    exact h.hashed hE span hs e he

theorem others_closing (h : WellFormed s.db) (hj : job ∈ s.db.jobs) (hsame : SameJob job new)
    (hes : ∀ e ∈ es, e.jobId = job.id ∧ e.spanId = none) {j : RedactionJob} (hjm : j ∈ s.db.jobs)
    (hne : j.id ≠ job.id) : SameReview j s.db (view s.db (closingWrites job new es)) := by
  rw [view_closingWrites]
  refine ⟨?_, ⟨rfl, fun _ _ => rfl⟩, ?_⟩
  · exact (h.mem_updateJob hj hsame.id hsame.document hsame.organization).mpr (Or.inr ⟨hjm, hne⟩)
  · rw [entries_of_append rfl, List.filter_eq_nil_iff.mpr fun e he => by simp [(hes e he).1, Ne.symm hne],
      List.append_nil]

/-- **Closing a review keeps every job's promises**, if it keeps those of the job
it moves. -/
theorem LifeInv.closing (h : LifeInv env s) (hj : job ∈ s.db.jobs) (hsame : SameJob job new)
    (hf : Free s.db (closingWrites job new es)) (hes : ∀ e ∈ es, e.jobId = job.id ∧ e.spanId = none)
    (hrank : job.status.rank ≤ new.status.rank)
    (hnew : ∀ db, WellFormed db → SameSpans job.documentId s.db db →
      db.entries job.id = s.db.entries job.id ++ es → JobInv env ⟨db, s.world⟩ new) :
    LifeInv env { s with db := view s.db (closingWrites job new es) } ∧
      Advances s.db (view s.db (closingWrites job new es)) := by
  have hreviewed := h.reviewed.closing ⟨job, hj, rfl, rfl⟩ hf hes
  have hview := view_closingWrites s.db job new es
  have hspans : ∀ documentId, SameSpans documentId s.db (view s.db (closingWrites job new es)) := by
    intro documentId
    rw [hview]
    exact ⟨rfl, fun _ _ => rfl⟩
  have hjobs : ∀ j, j ∈ (view s.db (closingWrites job new es)).jobs ↔
      j = new ∨ j ∈ s.db.jobs ∧ j.id ≠ job.id := by
    intro j
    rw [hview]
    exact h.reviewed.wf.mem_updateJob hj hsame.id hsame.document hsame.organization
  have hothers := fun j => others_closing h.reviewed.wf hj hsame hes (j := j)
  refine ⟨⟨hreviewed, fun j hjm => ?_⟩, fun j hjm => ?_, fun documentId hd => ?_⟩
  · rcases (hjobs j).mp hjm with rfl | ⟨hjm, hne⟩
    · refine hnew _ hreviewed.wf (hspans _) ?_
      rw [hview, entries_of_append rfl, List.filter_eq_self.mpr fun e he => by simp [(hes e he).1]]
    · exact (h.jobs j hjm).same h.reviewed.wf hreviewed.wf (hothers j hjm hne)
  · by_cases he : j.id = job.id
    · have hsamej := List.inj_on_of_nodup_map h.reviewed.wf.job_pk hjm hj he
      subst hsamej
      exact ⟨new, (hjobs new).mpr (Or.inl rfl), hsame.document, hrank⟩
    · exact ⟨j, (hothers j hjm he).row, rfl, Nat.le_refl _⟩
  · refine absurd hd (not_detectionPersists fun r hr => ?_)
    rw [(hspans documentId).rows] at hr
    exact ⟨r.1, (mem_spanRows.mp hr).1, rfl⟩

end

/-! ### A batch -/

section

variable {env : Env} {s : Shared Database World} {job : RedactionJob} {reviewerId : UUID}

theorem others_batch {db db' : Database} (hb : Batched job db db') (h : WellFormed db)
    (hj : job ∈ db.jobs) {j : RedactionJob} (hjm : j ∈ db.jobs) (hne : j.id ≠ job.id) :
    SameReview j db db' := by
  obtain ⟨es, hes, hreview⟩ := hb.entries
  refine ⟨hb.jobs ▸ hjm, hb.others _ fun hd => ?_, ?_⟩
  · exact hne (congrArg _ (List.inj_on_of_nodup_map h.job_document hjm hj hd))
  · rw [entries_of_append hes,
      List.filter_eq_nil_iff.mpr fun e hm => by simp [(hreview e hm).1, Ne.symm hne], List.append_nil]

/-- **A batch keeps every job's promises**: it only adds to a review that is open. -/
theorem LifeInv.batch (h : LifeInv env s) (hj : job ∈ s.db.jobs) (hst : job.status = .inReview)
    {db' : Database}
    (hs : Relation.ReflTransGen (BatchStep env True job reviewerId) s.db db') :
    LifeInv env { s with db := db' } ∧ Advances s.db db' := by
  obtain ⟨hreviewed, hb⟩ := batch_keeps h.reviewed ⟨job, hj, rfl, rfl⟩ hs
  obtain ⟨es, hes, hreview⟩ := hb.entries
  refine ⟨⟨hreviewed, fun j hjm => ?_⟩, fun j hjm => ⟨j, hb.jobs ▸ hjm, rfl, Nat.le_refl _⟩,
    fun documentId hd => ?_⟩
  · rw [hb.jobs] at hjm
    have hold := h.jobs j hjm
    by_cases he : j.id = job.id
    · have hsame := List.inj_on_of_nodup_map h.reviewed.wf.job_pk hjm hj he
      subst hsame
      refine ⟨fun hm => ?_, fun hm => ?_, hold.key, fun hm => ?_, ?_⟩
      · rw [hst] at hm
        exact absurd hm (by decide)
      · rw [hst] at hm
        exact absurd hm (by decide)
      · rw [hst] at hm
        exact absurd hm (by decide)
      · obtain ⟨review, closing, hsplit, hrev, hclose, hactions⟩ := hold.chain
        have hnil : closing = [] := by
          rw [hst] at hactions
          simpa [closings] using hactions
        refine ⟨review ++ es.filter (·.jobId = j.id), [], ?_, fun e hm => ?_, ?_, ?_⟩
        · show db'.entries j.id = _
          rw [entries_of_append hes, hsplit, hnil, List.append_nil, List.append_nil]
        · rcases List.mem_append.mp hm with hm | hm
          · exact hrev e hm
          · exact (hreview e (List.mem_of_mem_filter hm)).2
        · exact fun e hm => absurd hm List.not_mem_nil
        · rw [hst]
          exact List.mem_cons_self
    · exact hold.same h.reviewed.wf hreviewed.wf (others_batch hb h.reviewed.wf hj hjm he)
  · obtain ⟨r, hr, hnew, hadded⟩ := hd
    rcases hb.accounted documentId r hr with ⟨r₀, hr₀, hid⟩ | hhand
    · exact absurd hid (hnew r₀.1 (mem_spanRows.mp hr₀).1)
    · exact absurd hhand hadded

end

/-! ### Detection -/

structure Detected (documentId : UUID) (db db' : Database) : Prop where
  documents : db'.documents = db.documents
  jobs : db'.jobs = db.jobs
  dispositions : db'.dispositions = db.dispositions
  entries : db'.auditEntries = db.auditEntries
  others : ∀ documentId', documentId' ≠ documentId → db'.spanRows documentId' = db.spanRows documentId'

/-- A new span has no entry, so nothing about it can be wrong. -/
theorem Reviewed.insertSpan {env : Env} {exact : Prop} {db : Database} {row : Span} {page : Page}
    (h : Reviewed env exact db) (hp : page ∈ db.pages) (hid : page.id = row.pageId)
    (hc : clash db (.insertSpan row) = false) : Reviewed env exact (db.apply (.insertSpan row)) := by
  refine ⟨h.wf.apply hc ⟨page, hp, hid⟩, h.agree,
    h.owned.extend (extends_apply db _) fun e he => Or.inl he, fun hE span hs e hlast => ?_⟩
  rcases List.mem_append.mp hs with hs | hs
  · exact h.hashed hE span hs e hlast
  · obtain ⟨he, habout⟩ := lastEntry_mem hlast
    obtain ⟨j, -, -, r, hr, hrid⟩ := h.owned e he _ habout
    rw [List.mem_singleton.mp hs] at hrid
    exact absurd hrid (span_fresh hc r.1 (mem_spanRows.mp hr).1)

theorem detected_of_writes {env : Env} {exact : Prop} {seen : Shared Database World → Prop}
    {documentId : UUID} {db : Database} {p : List Write}
    (hp : DetectedWrites seen documentId p) (h : Reviewed env exact db) (hf : Free db p)
    (hseen : ∀ s, seen s → s.db = db) (hd : ∃ d ∈ db.documents, d.id = documentId) :
    Reviewed env exact (view db p) ∧ Detected documentId db (view db p) := by
  induction hp with
  | nil => exact ⟨h, rfl, rfl, rfl, rfl, fun _ _ => rfl⟩
  | page _ hdoc _ ih =>
    rename_i q row hq
    obtain ⟨hr, hdet⟩ := ih hf.left
    have hc := hf.right.head
    obtain ⟨d, hdm, hdid⟩ := hd
    rw [view_concat]
    refine ⟨⟨hr.wf.apply hc ⟨d, hdet.documents ▸ hdm, hdid.trans hdoc.symm⟩, hr.agree,
      hr.owned.extend (extends_apply _ _) fun e he => Or.inl he, hr.hashed⟩, hdet.documents,
      hdet.jobs, hdet.dispositions, hdet.entries, fun documentId' hne => ?_⟩
    exact (hr.wf.spanRows_insertPage hc).trans (hdet.others documentId' hne)
  | span _ hs hmem hdoc ih =>
    rename_i q id page candidate s₁ hq
    obtain ⟨hr, hdet⟩ := ih hf.left
    have hc := hf.right.head
    rw [hseen s₁ hs] at hmem
    rw [view_concat]
    refine ⟨hr.insertSpan hmem rfl hc, hdet.documents, hdet.jobs, hdet.dispositions, hdet.entries,
      fun documentId' hne => ?_⟩
    refine (hr.wf.spanRows_insertSpan _ hmem rfl).trans ?_
    rw [if_neg (fun he => hne (he.symm.trans hdoc)), List.append_nil]
    exact hdet.others documentId' hne

/-- The job as a detection leaves it. -/
theorem mem_jobs_detectWrites {db : Database} {job : RedactionJob} {p : List Write}
    (hwf : WellFormed (view db p)) (hj : job ∈ (view db p).jobs) (j : RedactionJob) :
    j ∈ (view db (detectWrites job p)).jobs ↔
      j = { job with status := .inReview } ∨ j ∈ (view db p).jobs ∧ j.id ≠ job.id := by
  let detected : RedactionJob := { job with status := .detected }
  have hfirst : ∀ k, k ∈ ((view db p).apply (statusWrite job .detected)).jobs ↔
      k = detected ∨ k ∈ (view db p).jobs ∧ k.id ≠ job.id :=
    fun _ => hwf.mem_updateJob hj rfl rfl rfl
  have hwf' : WellFormed ((view db p).apply (statusWrite job .detected)) := hwf.apply rfl trivial
  have hsecond : j ∈ (view db (detectWrites job p)).jobs ↔ j = { job with status := .inReview } ∨
      j ∈ ((view db p).apply (statusWrite job .detected)).jobs ∧ j.id ≠ job.id := by
    rw [detectWrites, view_concat, view_concat]
    exact hwf'.mem_updateJob ((hfirst detected).mpr (Or.inl rfl)) rfl rfl rfl
  rw [hsecond, hfirst]
  constructor
  · rintro (rfl | ⟨rfl | hk, hne⟩)
    · exact Or.inl rfl
    · exact absurd rfl hne
    · exact Or.inr hk
  · rintro (rfl | ⟨hk, hne⟩)
    · exact Or.inl rfl
    · exact Or.inr ⟨Or.inr ⟨hk, hne⟩, hne⟩

theorem view_detectWrites (db : Database) (job : RedactionJob) (p : List Write) :
    view db (detectWrites job p) =
      { view db p with jobs := (view db (detectWrites job p)).jobs } := by
  rw [detectWrites, view_concat, view_concat]
  rfl

theorem Reviewed.detect {env : Env} {exact : Prop} {db : Database} {p : List Write}
    (h : Reviewed env exact (view db p)) (job : RedactionJob) :
    Reviewed env exact (view db (detectWrites job p)) := by
  have hview := view_detectWrites db job p
  have hext : Extends (view db p) (view db (detectWrites job p)) := by
    rw [detectWrites, view_concat, view_concat]
    exact (extends_apply _ _).trans (extends_apply _ _)
  refine ⟨?_, ?_, h.owned.extend hext fun e he => Or.inl ?_, ?_⟩
  · rw [detectWrites, view_concat, view_concat]
    exact (h.wf.apply (w := .updateJob _ _) rfl trivial).apply rfl trivial
  · rw [hview]
    exact h.agree
  · rwa [hview] at he
  · rw [hview]
    exact h.hashed

section

variable {env : Env} {s : Shared Database World} {job : RedactionJob} {db : Database}
  {p : List Write}

theorem Detected.entries_detect (h : Detected job.documentId db (view db p)) (jobId : UUID) :
    (view db (detectWrites job p)).entries jobId = db.entries jobId := by
  rw [view_detectWrites]
  show (view db p).auditEntries.filter (·.jobId = jobId) = _
  rw [h.entries]
  rfl

theorem Detected.spans_detect (h : Detected job.documentId db (view db p)) {documentId : UUID}
    (hne : documentId ≠ job.documentId) : SameSpans documentId db (view db (detectWrites job p)) := by
  rw [view_detectWrites]
  refine ⟨h.others documentId hne, fun r _ => ?_⟩
  show (view db p).dispositions.find? (·.spanId = r.1.id) = _
  rw [h.dispositions]
  rfl

theorem others_detect (h : Detected job.documentId db (view db p)) (hwf : WellFormed (view db p))
    (hj : job ∈ db.jobs) {j : RedactionJob} (hjm : j ∈ db.jobs) (hne : j.id ≠ job.id) :
    SameReview j db (view db (detectWrites job p)) := by
  refine ⟨?_, h.spans_detect fun hd => ?_, h.entries_detect j.id⟩
  · exact (mem_jobs_detectWrites hwf (h.jobs ▸ hj) j).mpr (Or.inr ⟨h.jobs ▸ hjm, hne⟩)
  · exact hne (congrArg _ (List.inj_on_of_nodup_map hwf.job_document (h.jobs ▸ hjm) (h.jobs ▸ hj) hd))

/-- **Detection keeps every job's promises**: the job it moves has promised nothing
about its spans yet. -/
theorem LifeInv.detect (h : LifeInv env s) (hj : job ∈ s.db.jobs) (hst : job.status = .ingested)
    {seen : Shared Database World → Prop} (hp : DetectedWrites seen job.documentId p)
    (hseen : ∀ s₁, seen s₁ → s₁.db = s.db) (hf : Free s.db (detectWrites job p)) :
    LifeInv env { s with db := view s.db (detectWrites job p) } ∧
      Advances s.db (view s.db (detectWrites job p)) := by
  obtain ⟨hreviewed, hdet⟩ := detected_of_writes hp h.reviewed hf.left.left hseen
    (h.reviewed.wf.job_fk job hj)
  have hjobs := mem_jobs_detectWrites hreviewed.wf (hdet.jobs ▸ hj)
  have hreviewed' := hreviewed.detect job
  have hothers := fun j => others_detect hdet hreviewed.wf hj (j := j)
  refine ⟨⟨hreviewed', fun j hjm => ?_⟩, fun j hjm => ?_, fun documentId hd => ?_⟩
  · rcases (hjobs j).mp hjm with rfl | ⟨hjm, hne⟩
    · have hold := h.jobs job hj
      have hempty := (hold.untouched (by rw [hst]; decide)).2
      have hopen : JobStatus.inReview ∉ passedStates := by decide
      refine ⟨fun hm => ?_, fun hm => ?_, ?_, fun hm => absurd hm hopen, [], [], ?_, ?_, ?_,
        List.mem_cons_self⟩
      · exact absurd hm (show JobStatus.inReview ∉ _ by decide)
      · exact absurd hm (show JobStatus.inReview ∉ _ by decide)
      · have hkey := hold.key
        rw [hst, if_neg (by decide)] at hkey
        rw [if_neg hopen]
        exact hkey
      · exact (hdet.entries_detect job.id).trans hempty
      · exact fun e hm => absurd hm List.not_mem_nil
      · exact fun e hm => absurd hm List.not_mem_nil
    · rw [hdet.jobs] at hjm
      exact (h.jobs j hjm).same h.reviewed.wf hreviewed'.wf (hothers j hjm hne)
  · by_cases he : j.id = job.id
    · have hsame := List.inj_on_of_nodup_map h.reviewed.wf.job_pk hjm hj he
      subst hsame
      refine ⟨_, (hjobs _).mpr (Or.inl rfl), rfl, ?_⟩
      rw [hst]
      exact (show JobStatus.ingested.rank ≤ JobStatus.inReview.rank by decide)
    · exact ⟨j, (hothers j hjm he).row, rfl, Nat.le_refl _⟩
  · by_cases hdoc : documentId = job.documentId
    · exact ⟨⟨job, hj, hdoc.symm, hst⟩, _, (hjobs _).mpr (Or.inl rfl), hdoc.symm, rfl⟩
    · refine absurd hd (not_detectionPersists fun r hr => ?_)
      rw [(hdet.spans_detect hdoc).rows] at hr
      exact ⟨r.1, (mem_spanRows.mp hr).1, rfl⟩

/-! ### An upload -/

theorem same_create {document : Document} {new : RedactionJob} {j : RedactionJob}
    (hj : j ∈ db.jobs) : SameReview j db (view db (createWrites document new)) :=
  ⟨List.mem_append_left _ hj, ⟨rfl, fun _ _ => rfl⟩, rfl⟩

/-- **An upload keeps every job's promises**: the new document has no page yet. -/
theorem LifeInv.create (h : LifeInv env s) {document : Document} (hfresh : Fresh document job)
    (hf : Free s.db (createWrites document job)) :
    LifeInv env { s with db := view s.db (createWrites document job) } ∧
      Advances s.db (view s.db (createWrites document job)) := by
  have hcd := hf.head
  have hcj := hf.tail.tail.head
  have hwf : WellFormed (view s.db (createWrites document job)) := by
    refine h.reviewed.wf.view hf ⟨trivial, trivial, ?_, trivial⟩
    exact ⟨_, List.mem_map_of_mem (List.mem_append_right _ List.mem_cons_self),
      (Document.patch_id _ _ _).trans hfresh.document.symm⟩
  have hext := extends_view s.db (createWrites document job)
  have hreviewed : Reviewed env True (view s.db (createWrites document job)) :=
    ⟨hwf, h.reviewed.agree, h.reviewed.owned.extend hext fun e he => Or.inl he, h.reviewed.hashed⟩
  refine ⟨⟨hreviewed, fun j hjm => ?_⟩, fun j hjm => ?_, fun documentId hd => ?_⟩
  · rcases List.mem_append.mp hjm with hjm | hjm
    · exact (h.jobs j hjm).same h.reviewed.wf hwf (same_create hjm)
    · rw [List.mem_singleton.mp hjm]
      have hrows : s.db.spanRows job.documentId = [] := by
        refine List.eq_nil_iff_forall_not_mem.mpr fun r hr => ?_
        obtain ⟨-, hp, -, hdoc⟩ := mem_spanRows.mp hr
        obtain ⟨d, hd, hdid⟩ := h.reviewed.wf.page_fk r.2 hp
        exact document_fresh hcd d hd (hdid.trans (hdoc.trans hfresh.document))
      have hentries : s.db.entries job.id = [] := by
        refine List.filter_eq_nil_iff.mpr fun e he hid => ?_
        obtain ⟨j, hj, hje⟩ := h.reviewed.wf.entry_fk e he
        exact (job_fresh hcj j hj).1 (hje.trans (of_decide_eq_true hid))
      refine ⟨fun _ => ⟨hrows, hentries⟩, fun hm => ?_, ?_, fun hm => ?_, [], [], hentries, ?_, ?_, ?_⟩
      · rw [hfresh.status] at hm
        exact absurd hm (by decide)
      · rw [hfresh.status, if_neg (by decide)]
        exact hfresh.key
      · rw [hfresh.status] at hm
        exact absurd hm (by decide)
      · exact fun e hm => absurd hm List.not_mem_nil
      · exact fun e hm => absurd hm List.not_mem_nil
      · rw [hfresh.status]
        exact List.mem_cons_self
  · exact ⟨j, (same_create hjm).row, rfl, Nat.le_refl _⟩
  · exact absurd hd (not_detectionPersists fun r hr => ⟨r.1, (mem_spanRows.mp hr).1, rfl⟩)

end

/-! ### Moves of one job -/

theorem ChainShape.close {st st' : JobStatus} {entries es : List AuditEntry}
    (h : ChainShape st entries) (hes : ∀ e ∈ es, e.spanId = none)
    (hmem : ∀ actions ∈ closings st, actions ++ es.map (·.action) ∈ closings st') :
    ChainShape st' (entries ++ es) := by
  obtain ⟨review, closing, hsplit, hreview, hclosing, hactions⟩ := h
  refine ⟨review, closing ++ es, by rw [hsplit, List.append_assoc], hreview, fun e he => ?_, ?_⟩
  · rcases List.mem_append.mp he with he | he
    · exact hclosing e he
    · exact hes e he
  · rw [List.map_append]
    exact hmem _ hactions

section

variable {env : Env} {s : Shared Database World} {job new : RedactionJob} {es : List AuditEntry}

/-- What a job needs to keep its promises in a new state. -/
structure Promises (env : Env) (s : Shared Database World) (job new : RedactionJob)
    (es : List AuditEntry) : Prop where
  same : SameJob job new
  lifecycle : ∀ e ∈ es, e.jobId = job.id ∧ e.spanId = none
  rank : job.status.rank ≤ new.status.rank
  untouched : new.status ∈ [.uploaded, .ingested] → job.status ∈ [.uploaded, .ingested] ∧ es = []
  disposed : new.status ∈ [.applying, .verified, .exported] →
    ∀ r ∈ s.db.spanRows job.documentId, (s.db.disposition? r.1.id).isSome
  key : new.redactedPdfKey =
    if new.status ∈ passedStates then some (Keys.redactedPdfKey job.id) else none
  artifact : new.status ∈ passedStates → Artifact env s job
  closings : ∀ actions ∈ closings job.status, actions ++ es.map (·.action) ∈ closings new.status

/-- **A move that brings what the new state promises** keeps the contract. -/
theorem Promises.lands (hp : Promises env s job new es) (h : LifeInv env s) (hj : job ∈ s.db.jobs)
    (hf : Free s.db (closingWrites job new es)) :
    (lifeContract env).Lands (fun _ _ _ => True) s (closingWrites job new es) := by
  have hclose := h.closing hj hp.same hf hp.lifecycle hp.rank fun db hwf hspans hentries => ?_
  · exact ⟨hclose.1, hclose.2, trivial⟩
  have hold := h.jobs job hj
  have hdoc := hp.same.document
  have hid := hp.same.id
  refine ⟨fun hm => ?_, fun hm r hr => ?_, ?_, fun hm => ?_, ?_⟩
  · obtain ⟨hearly, rfl⟩ := hp.untouched hm
    obtain ⟨hrows, hnone⟩ := hold.untouched hearly
    rw [hdoc, hid, hspans.rows, hentries, hnone, List.append_nil]
    exact ⟨hrows, rfl⟩
  · rw [hdoc, hspans.rows] at hr
    rw [hspans.dispositions r hr]
    exact hp.disposed hm r hr
  · rw [hid]
    exact hp.key
  · obtain ⟨original, spans, result, horig, happroved, happly, hpass, hred⟩ := hp.artifact hm
    refine ⟨original, spans, result, ?_, ?_, happly, hpass, ?_⟩
    · rw [hdoc]
      exact horig
    · rw [hdoc]
      exact (hspans.approvedSpans h.reviewed.wf hwf).trans happroved
    · rw [hid]
      exact hred
  · rw [hid, hentries]
    exact hold.chain.close (fun e he => (hp.lifecycle e he).2) hp.closings

theorem free_updateJob (db : Database) (loaded new : RedactionJob) :
    Free db [Write.updateJob loaded new] := (free_nil db).concat rfl

/-- What the states the tasks consume have not promised. -/
theorem consumed_open : ∀ st ∈ consumedStates,
    st ∉ passedStates ∧ closings st = [[]] ∧ st.rank ≤ JobStatus.failed.rank := by
  decide

/-- A job that has not passed has no key, and needs none where it has not passed. -/
theorem open_key (h : JobInv env s job) (hst : job.status ∉ passedStates) {st : JobStatus}
    (hne : st ∉ passedStates) : job.redactedPdfKey =
      if st ∈ passedStates then some (Keys.redactedPdfKey job.id) else none := by
  rw [h.key, if_neg hst, if_neg hne]

theorem disposed_of_count {db : Database} {documentId : UUID}
    (h : db.countUndispositionedSpans documentId = 0) :
    ∀ r ∈ db.spanRows documentId, (db.disposition? r.1.id).isSome := by
  intro r hr
  have hnone := List.filter_eq_nil_iff.mp (List.eq_nil_of_length_eq_zero h) r hr
  exact Option.isSome_iff_ne_none.mpr (by simpa using hnone)

/-! ### The world -/

theorem acts_of_same (h : LifeInv env s) {w : World}
    (hw : ∀ job ∈ s.db.jobs, job.status ∈ passedStates → SameObjects job s.world w)
    (ho : SameOriginals s { s with world := w }) : (lifeContract env).Acts s w :=
  ⟨h.world hw, Advances.refl s.db, rfl, ho⟩

theorem tolerates_put {key : String} (ho : ∀ d, Keys.originalPdfKey d ≠ key)
    (hr : ∀ j, Keys.redactedPdfKey j ≠ key) (data : Bytes) :
    Tolerates (lifeContract env) (·.put key data) := fun _ h =>
  acts_of_same h (fun _ _ _ => ⟨put_objects_ne data (ho _), put_objects_ne data (hr _)⟩)
    fun _ _ => put_objects_ne data (ho _)

/-! ### Each commit -/

theorem life_fails {consumes : JobStatus} (hconsumes : consumes ∈ consumedStates) (jobId : UUID) :
    LandsFailure (lifeContract env) jobId consumes fun _ => True := by
  intro s₀ s₁ s₂ job₀ job h₀ hjob₀ hst h₁ hjob hedge h₂ _
  have hsame : job₀ = job := by
    rw [h₁.past.1, hjob₀] at hjob
    exact Option.some.inj hjob
  subst hsame
  have hj : job₀ ∈ s₂.db.jobs := by
    rw [h₂.past.1]
    exact job?_mem hjob
  obtain ⟨hopen, hclosings, hrank⟩ := consumed_open job₀.status (by rw [hst]; exact hconsumes)
  have hp : Promises env s₂ job₀ { job₀ with status := .failed } [] := by
    refine ⟨⟨rfl, rfl, rfl⟩, fun _ h => absurd h List.not_mem_nil, hrank, fun hm => ?_, fun hm => ?_,
      open_key (h₂.inv.jobs job₀ hj) hopen (show JobStatus.failed ∉ _ by decide), fun hm => ?_,
      fun actions hm => ?_⟩
    · exact absurd hm (show JobStatus.failed ∉ _ by decide)
    · exact absurd hm (show JobStatus.failed ∉ _ by decide)
    · exact absurd hm (show JobStatus.failed ∉ _ by decide)
    · rw [hclosings, List.mem_singleton] at hm
      rw [hm]
      exact List.mem_cons_self
  exact hp.lands h₂.inv hj (free_updateJob _ _ _)

theorem life_ingests (h : LifeInv env s) (hj : job ∈ s.db.jobs) (hst : job.status = .uploaded) :
    (lifeContract env).Lands (fun _ _ _ => True) s [statusWrite job .ingested] := by
  have hp : Promises env s job { job with status := .ingested } [] := by
    refine ⟨⟨rfl, rfl, rfl⟩, fun _ h => absurd h List.not_mem_nil, ?_,
      fun _ => ⟨by rw [hst]; decide, rfl⟩, fun hm => ?_,
      open_key (h.jobs job hj) (by rw [hst]; decide)
        (show JobStatus.ingested ∉ _ by decide), fun hm => ?_, fun actions hm => ?_⟩
    · rw [hst]
      exact (show JobStatus.uploaded.rank ≤ JobStatus.ingested.rank by decide)
    · exact absurd hm (show JobStatus.ingested ∉ _ by decide)
    · exact absurd hm (show JobStatus.ingested ∉ _ by decide)
    · rw [hst] at hm
      rw [List.map_nil, List.append_nil]
      exact hm
  exact hp.lands h hj (free_updateJob _ _ _)

theorem life_starts (h : LifeInv env s) (hj : job ∈ s.db.jobs) (hst : job.status = .inReview)
    (hcount : s.db.countUndispositionedSpans job.documentId = 0) :
    (lifeContract env).Lands (fun _ _ _ => True) s [statusWrite job .applying] := by
  have hp : Promises env s job { job with status := .applying } [] := by
    refine ⟨⟨rfl, rfl, rfl⟩, fun _ h => absurd h List.not_mem_nil, ?_, fun hm => ?_,
      fun _ => disposed_of_count hcount,
      open_key (h.jobs job hj) (by rw [hst]; decide)
        (show JobStatus.applying ∉ _ by decide), fun hm => ?_, fun actions hm => ?_⟩
    · rw [hst]
      exact (show JobStatus.inReview.rank ≤ JobStatus.applying.rank by decide)
    · exact absurd hm (show JobStatus.applying ∉ _ by decide)
    · exact absurd hm (show JobStatus.applying ∉ _ by decide)
    · rw [hst] at hm
      rw [List.map_nil, List.append_nil]
      exact hm
  exact hp.lands h hj (free_updateJob _ _ _)

theorem life_exports {exported : AuditEntry} (h : LifeInv env s) (hj : job ∈ s.db.jobs)
    (hst : job.status = .verified) (hexported : Lifecycle job.id .exported exported)
    (hf : Free s.db (exportWrites job exported)) :
    (lifeContract env).Lands (fun _ _ _ => True) s (exportWrites job exported) := by
  have hold := h.jobs job hj
  have hkey := hold.key
  rw [hst, if_pos (by decide)] at hkey
  have hp : Promises env s job { job with status := .exported } [exported] := by
    refine ⟨⟨rfl, rfl, rfl⟩, fun e he => ?_, ?_, fun hm => ?_,
      fun _ => hold.disposed (by rw [hst]; decide), hkey,
      fun _ => hold.artifact (by rw [hst]; decide), fun actions hm => ?_⟩
    · rw [List.mem_singleton.mp he]
      exact ⟨hexported.job, hexported.span⟩
    · rw [hst]
      exact (show JobStatus.verified.rank ≤ JobStatus.exported.rank by decide)
    · exact absurd hm (show JobStatus.exported ∉ _ by decide)
    · rw [hst] at hm
      rw [List.mem_singleton.mp hm]
      simp [hexported.action, closings]
  exact hp.lands h hj hf

theorem lifecycle_pair {started other : AuditEntry} {action action' : AuditAction}
    (h : Lifecycle job.id action started) (h' : Lifecycle job.id action' other) :
    ∀ e ∈ [started, other], e.jobId = job.id ∧ e.spanId = none := by
  intro e he
  rcases List.mem_cons.mp he with rfl | he
  · exact ⟨h.job, h.span⟩
  · rw [List.mem_singleton.mp he]
    exact ⟨h'.job, h'.span⟩

theorem life_failsGate {started failed : AuditEntry} (h : LifeInv env s) (hj : job ∈ s.db.jobs)
    (hst : job.status = .applying) (hstarted : Lifecycle job.id .applyStarted started)
    (hfailed : Lifecycle job.id .verifyFailed failed)
    (hf : Free s.db (applyFailedWrites job started failed)) :
    (lifeContract env).Lands (fun _ _ _ => True) s (applyFailedWrites job started failed) := by
  have hp : Promises env s job { job with status := .failed } [started, failed] := by
    refine ⟨⟨rfl, rfl, rfl⟩, lifecycle_pair hstarted hfailed, ?_, fun hm => ?_, fun hm => ?_,
      open_key (h.jobs job hj) (by rw [hst]; decide)
        (show JobStatus.failed ∉ _ by decide), fun hm => ?_, fun actions hm => ?_⟩
    · rw [hst]
      exact (show JobStatus.applying.rank ≤ JobStatus.failed.rank by decide)
    · exact absurd hm (show JobStatus.failed ∉ _ by decide)
    · exact absurd hm (show JobStatus.failed ∉ _ by decide)
    · exact absurd hm (show JobStatus.failed ∉ _ by decide)
    · rw [hst] at hm
      rw [List.mem_singleton.mp hm]
      simp [hstarted.action, hfailed.action, closings]
  exact hp.lands h hj hf

theorem life_passesGate {started passed : AuditEntry} (h : LifeInv env s) (hj : job ∈ s.db.jobs)
    (hst : job.status = .applying) (ha : Artifact env s job)
    (hstarted : Lifecycle job.id .applyStarted started)
    (hpassed : Lifecycle job.id .verifyPassed passed)
    (hf : Free s.db (applyPassedWrites job started passed)) :
    (lifeContract env).Lands (fun _ _ _ => True) s (applyPassedWrites job started passed) := by
  have hold := h.jobs job hj
  have hp : Promises env s job (verifiedJob job) [started, passed] := by
    refine ⟨⟨rfl, rfl, rfl⟩, lifecycle_pair hstarted hpassed, ?_, fun hm => ?_,
      fun _ => hold.disposed (by rw [hst]; decide), ?_, fun _ => ha, fun actions hm => ?_⟩
    · rw [hst]
      exact (show JobStatus.applying.rank ≤ JobStatus.verified.rank by decide)
    · exact absurd hm (show JobStatus.verified ∉ _ by decide)
    · exact (if_pos (show JobStatus.verified ∈ passedStates by decide)).symm
    · rw [hst] at hm
      rw [List.mem_singleton.mp hm]
      simp [hstarted.action, hpassed.action, closings, verifiedJob]
  exact hp.lands h hj hf

/-- What a delivery has read and stored by its commit is the artifact. -/
theorem life_artifact {s₁ s₂ : Shared Database World} (h₁ : LifeInv env s₁) (hj : job ∈ s₁.db.jobs)
    (b : BurnIn (lifeContract env) env s₁ job) (h : (lifeContract env).past b.atSpans s)
    (hres : b.result.passed = true)
    (hstore : s.world = s₂.world.put (Keys.redactedPdfKey job.id) b.result.pdfBytes) :
    Artifact env s job := by
  refine ⟨b.bytes, b.spans, b.result, ?_, ?_, b.applied, hres, ?_⟩
  · obtain ⟨d, hd, hdid⟩ := h₁.reviewed.wf.job_fk job hj
    have horiginal := ((lifeContract env).past_trans b.past_spans h).2 d
      (by rw [b.past_original.1]; exact hd)
    rw [hdid] at horiginal
    exact horiginal.trans b.original
  · rw [h.1]
    exact b.approved
  · rw [hstore]
    exact put_objects_self _ _ _

theorem life_stores {data : Bytes} (h : LifeInv env s) (hj : job ∈ s.db.jobs)
    (hst : job.status = .applying) :
    (lifeContract env).Acts s (s.world.put (Keys.redactedPdfKey job.id) data) := by
  refine acts_of_same h (fun j hjm hpassed => ⟨?_, ?_⟩) fun d _ => ?_
  · exact put_objects_ne data (Keys.originalPdfKey_ne_redacted _ _)
  · refine put_objects_ne data fun hkey => ?_
    have hsame := List.inj_on_of_nodup_map h.reviewed.wf.job_pk hjm hj (Keys.redactedPdfKey_inj hkey)
    rw [hsame, hst] at hpassed
    exact absurd hpassed (by decide)
  · exact put_objects_ne data (Keys.originalPdfKey_ne_redacted _ _)

theorem life_uploads {document : Document} {data : Bytes} (h : LifeInv env s)
    (hf : Free s.db (createWrites document job)) :
    (lifeContract env).Acts s (s.world.put (Keys.originalPdfKey document.id) data) := by
  have hne : ∀ d ∈ s.db.documents, Keys.originalPdfKey d.id ≠ Keys.originalPdfKey document.id :=
    fun d hd hkey => document_fresh hf.head d hd (Keys.originalPdfKey_inj hkey)
  refine acts_of_same h (fun j hj _ => ⟨?_, ?_⟩) fun d hd => put_objects_ne data (hne d hd)
  · obtain ⟨d, hd, hdid⟩ := h.reviewed.wf.job_fk j hj
    rw [← hdid]
    exact put_objects_ne data (hne d hd)
  · exact put_objects_ne data (Keys.originalPdfKey_ne_redacted _ _).symm

/-- **Every operation keeps every job's promises when it runs alone.** -/
theorem operates_life (env : Env) : Operates (lifeContract env) env where
  pages documentId n data :=
    ⟨tolerates_put (fun _ => (Keys.pageKey_ne_original _ _ _ _).symm)
        (fun _ => (Keys.pageKey_ne_redacted _ _ _ _).symm) data,
      tolerates_put (fun _ => (Keys.pageKey_ne_original _ _ _ _).symm)
        (fun _ => (Keys.pageKey_ne_redacted _ _ _ _).symm) data⟩
  enqueue _ _ h := acts_of_same h (fun _ _ _ => ⟨rfl, rfl⟩) fun _ _ => rfl
  manifest jobId data := tolerates_put (fun _ => (Keys.exportManifestKey_ne_original _ _).symm)
    (fun _ => (Keys.exportManifestKey_ne_redacted _ _).symm) data
  fails _ hconsumes jobId := life_fails hconsumes jobId
  ingests _ _ _ _ hjob hst h₂ _ :=
    life_ingests h₂.inv (h₂.past.1 ▸ job?_mem hjob) hst
  detects s₁ s₂ job p _ hjob hst h₂ hp hf _ := by
    obtain ⟨hi, hg⟩ := h₂.inv.detect (h₂.past.1 ▸ job?_mem hjob) hst hp
      (fun s hs => hs.1.trans h₂.past.1.symm) hf
    exact ⟨hi, hg, trivial⟩
  burns _ _ _ _ _ _ _ _ _ _ h := acts_of_same h.inv (fun _ _ _ => ⟨rfl, rfl⟩) fun _ _ => rfl
  stores _ _ _ _ _ hjob hst h := life_stores h.inv (h.past.1 ▸ job?_mem hjob) hst
  failsGate s₁ s job b _ _ _ hjob hst h _ hstarted hfailed hf _ := by
    have hdb : s.db = s₁.db := (b.since h).past.1
    exact life_failsGate h.inv (hdb ▸ job?_mem hjob) hst hstarted hfailed hf
  passesGate s₁ s₂ s job b _ _ h₁ hjob hst h hres hstore hstarted hpassed hf _ := by
    have hdb : s.db = s₁.db := (b.since h).past.1
    exact life_passesGate h.inv (hdb ▸ job?_mem hjob) hst
      (life_artifact h₁ (job?_mem hjob) b h.past hres (congrArg Shared.world hstore))
      hstarted hpassed hf
  uploads _ _ _ _ h _ _ hf := life_uploads h hf
  creates s document job h hfresh hf _ := by
    obtain ⟨hi, hg⟩ := h.create hfresh hf
    exact ⟨hi, hg, trivial⟩
  disposes s₁ s₂ _ _ job p _ hjob hst h₂ hp hf _ := by
    have hj : job ∈ s₂.db.jobs := h₂.past.1 ▸ hjob.mem
    have hsame : ∀ s, (lifeContract env).Between s₁ s₂ s → s.db = s₂.db := fun s hs => hs.2.1.symm
    obtain ⟨hi, hg⟩ := h₂.inv.batch hj hst (batchSteps_of_writes hp h₂.inv.reviewed
      ⟨job, hj, rfl, rfl⟩ hf (fun s hs => hsame s hs ▸ Extends.refl _) (Or.inl hsame))
    exact ⟨hi, hg, trivial⟩
  starts s₁ s₂ s₃ _ _ job _ hjob hst h₂ hcount h₃ _ := by
    rw [← h₃.past.1] at hcount
    exact life_starts h₃.inv (h₃.past.1 ▸ h₂.past.1 ▸ hjob.mem) hst hcount
  exports _ s₂ _ _ job _ _ hjob hst h₂ hexported hf _ :=
    life_exports h₂.inv (h₂.past.1 ▸ hjob.mem) hst hexported hf

end

/-! ### Runs -/

section

variable {env : Env} {world : World} {operations : List Operation} {S S' : Pipeline}

theorem fits_life (env : Env) : (lifeContract env).Fits (α := Unit) Guard.serial :=
  ⟨fun _ => trivial, fun _ _ => trivial, fun _ _ _ => trivial⟩

theorem lifeInv_empty (env : Env) (world : World) : LifeInv env ⟨Database.empty, world⟩ where
  reviewed := ⟨wellFormed_empty, fun _ => .none, fun _ h => absurd h List.not_mem_nil,
    fun _ _ h => absurd h List.not_mem_nil⟩
  jobs _ h := absurd h List.not_mem_nil

/-- Operations that run one at a time, starting with empty tables. -/
theorem life_of_run (hops : ∀ jobId, .failJob jobId ∉ operations)
    (hr : Sys.Run Guard.serial (Pipeline.start env ⟨Database.empty, world⟩ operations) S) :
    (lifeContract env).GoodSerial S := by
  refine Contract.sound_serial (fits_life env) (fun _ _ _ h => h)
    (Contract.goodSerial_start (lifeInv_empty env world) fun q hq s hi => ?_) hr
  obtain ⟨operation, hop, rfl⟩ := List.mem_map.mp hq
  exact (operates_life env).safe operation (fun jobId he => absurd (he ▸ hop) (hops jobId)) hi

/-- The job of a document has not gone back. -/
def NoWayBack (db db' : Database) : Prop :=
  ∀ job ∈ db.jobs, ∃ job' ∈ db'.jobs,
    job'.documentId = job.documentId ∧ job.status.rank ≤ job'.status.rank

theorem noWayBack_of_run (h : (lifeContract env).GoodSerial S) (hr : Sys.Run Guard.serial S S') :
    (lifeContract env).GoodSerial S' ∧ NoWayBack S.shared.db S'.shared.db := by
  obtain ⟨hgood, hguar⟩ := h.run (fits_life env) (fun _ _ _ h => h) hr
  refine ⟨hgood, Contract.of_guarantees (R := fun s s' => NoWayBack s.db s'.db)
    (fun s job hj => ⟨job, hj, rfl, Nat.le_refl _⟩) (fun hback hadv job hj => ?_) hguar⟩
  obtain ⟨j₁, hj₁, hd₁, hr₁⟩ := hback job hj
  obtain ⟨j₂, hj₂, hd₂, hr₂⟩ := hadv.jobs j₁ hj₁
  exact ⟨j₂, hj₂, hd₂.trans hd₁, hr₁.trans hr₂⟩

/-- **Detection persists spans at most once**: after a step in which it does there
is none. -/
theorem detection_once {S₁ S₂ S₃ S₄ : Pipeline} {documentId : UUID}
    (h : (lifeContract env).GoodSerial S₁) (h₁₂ : Sys.Step Guard.serial S₁ S₂)
    (h₂₃ : Sys.Run Guard.serial S₂ S₃) (h₃₄ : Sys.Step Guard.serial S₃ S₄)
    (hp : DetectionPersists documentId S₁.shared.db S₂.shared.db) :
    ¬ DetectionPersists documentId S₃.shared.db S₄.shared.db := by
  intro hp'
  obtain ⟨hgood₂, hadv₂⟩ := h.step (fits_life env) (fun _ _ _ h => h) h₁₂
  obtain ⟨hgood₃, hback⟩ := noWayBack_of_run hgood₂ h₂₃
  obtain ⟨hgood₄, hadv₄⟩ := hgood₃.step (fits_life env) (fun _ _ _ h => h) h₃₄
  obtain ⟨-, j₂, hj₂, hd₂, hst₂⟩ := hadv₂.detection documentId hp
  obtain ⟨⟨j₃, hj₃, hd₃, hst₃⟩, -⟩ := hadv₄.detection documentId hp'
  obtain ⟨j, hj, hd, hrank⟩ := hback j₂ hj₂
  have hsame := List.inj_on_of_nodup_map hgood₃.inv.reviewed.wf.job_document hj hj₃
    (hd.trans (hd₂.trans hd₃.symm))
  rw [hsame, hst₂, hst₃] at hrank
  exact absurd hrank (by decide)

/-- Whether the gate has passed can be read off the chain. -/
theorem ChainShape.verifyPassed {status : JobStatus} {entries : List AuditEntry}
    (h : ChainShape status entries) :
    (∃ e ∈ entries, e.action = .verifyPassed) ↔ status ∈ passedStates := by
  obtain ⟨review, closing, rfl, hreview, -, hactions⟩ := h
  have hsplit : (∃ e ∈ review ++ closing, e.action = .verifyPassed) ↔
      .verifyPassed ∈ closing.map (·.action) := by
    simp only [List.mem_append, List.mem_map]
    constructor
    · rintro ⟨e, he | he, ha⟩
      · have hr := (hreview e he).2
        rw [ha] at hr
        exact absurd hr (by decide)
      · exact ⟨e, he, ha⟩
    · rintro ⟨e, he, ha⟩
      exact ⟨e, Or.inr he, ha⟩
  have hall : ∀ st : JobStatus, ∀ actions ∈ closings st,
      (AuditAction.verifyPassed ∈ actions ↔ st ∈ passedStates) := by
    intro st
    cases st <;> decide
  rw [hsplit]
  exact hall status _ hactions

/-- **The lifecycle of a job.**  Operations of any kind and for any jobs run one
at a time, each failing or dying at any point.  In every state of the run, for
every job: before detection there is no span and no entry; detection persists
spans at most once; from `applying` on every span has a disposition; the key is
set exactly when the chain says that the gate has passed, which is in `verified`
and `exported`, and the object under it is what the burn-in makes of the original
and the spans approved now; and the chain is the review followed by what closes
it in that state. -/
theorem job_lifecycle (env : Env) (world : World) (operations : List Operation)
    (hops : ∀ jobId, .failJob jobId ∉ operations) (S : Pipeline)
    (hr : Sys.Run Guard.serial (Pipeline.start env ⟨Database.empty, world⟩ operations) S)
    (job : RedactionJob) (hj : job ∈ S.shared.db.jobs) :
    let db := S.shared.db
    let objects := S.shared.world.objects
    let entries := db.entriesBySequence job.id
    (job.status ∈ [.uploaded, .ingested] → db.spanRows job.documentId = [] ∧ entries = []) ∧
    (∀ S₁ S₂ S₃ S₄ : Pipeline,
      Sys.Run Guard.serial (Pipeline.start env ⟨Database.empty, world⟩ operations) S₁ →
      Sys.Step Guard.serial S₁ S₂ → Sys.Run Guard.serial S₂ S₃ → Sys.Step Guard.serial S₃ S₄ →
      DetectionPersists job.documentId S₁.shared.db S₂.shared.db →
      ¬ DetectionPersists job.documentId S₃.shared.db S₄.shared.db) ∧
    (job.status ∈ [.applying, .verified, .exported] →
      ∀ r ∈ db.spanRows job.documentId, (db.disposition? r.1.id).isSome) ∧
    (job.redactedPdfKey.isSome ↔ ∃ e ∈ entries, e.action = .verifyPassed) ∧
    ((∃ e ∈ entries, e.action = .verifyPassed) ↔ job.status ∈ [.verified, .exported]) ∧
    (∀ key, job.redactedPdfKey = some key → key = Keys.redactedPdfKey job.id ∧
      ∃ original spans result, objects (Keys.originalPdfKey job.documentId) = some original ∧
        db.approvedSpans job.documentId = .ok spans ∧ apply env original spans = .ok result ∧
        objects key = some result.pdfBytes) ∧
    (∃ review closing, entries = review ++ closing ∧ (∀ e ∈ review, e.spanId.isSome) ∧
      (∀ e ∈ closing, e.spanId = none) ∧ closing.map (·.action) ∈ closings job.status) := by
  have hgood := life_of_run hops hr
  have hinv := hgood.inv.jobs job hj
  have hintact : Intact env S.shared.db := chains_of_run (fun _ => HashChain.chain_nil _) hr
  show _ ∧ _ ∧ _ ∧ _ ∧ _ ∧ _ ∧ _
  rw [entriesBySequence_eq (hintact job.id), hinv.chain.verifyPassed]
  refine ⟨hinv.untouched, fun S₁ S₂ S₃ S₄ h₁ h₁₂ h₂₃ h₃₄ => ?_, hinv.disposed, ?_, Iff.rfl,
    fun key hkey => ?_, ?_⟩
  · exact detection_once (life_of_run hops h₁) h₁₂ h₂₃ h₃₄
  · rw [hinv.key]
    split <;> simp_all
  · rw [hinv.key] at hkey
    split at hkey
    · rename_i hst
      cases hkey
      obtain ⟨original, spans, result, horig, happroved, happly, -, hred⟩ := hinv.artifact hst
      exact ⟨rfl, original, spans, result, horig, happroved, happly, hred⟩
    · cases hkey
  · obtain ⟨review, closing, hsplit, hreview, hclosing, hactions⟩ := hinv.chain
    exact ⟨review, closing, hsplit, fun e he => (hreview e he).1, hclosing, hactions⟩

/-! ### From the upload to the export -/

def sampleAdmin : TenantContext := ⟨6, 3, .admin⟩

def sampleEnv : Env := Env.letter fun _ => "00"

def sampleManualSpan : AddManualSpanItem :=
  ⟨1, [⟨72, 72, 144, 90⟩], "x", "name", none, Nat.le_refl 1⟩

def sampleBatch : DispositionBatchRequest :=
  ⟨[.addManualSpan sampleManualSpan], List.cons_ne_nil _ _⟩

/-- An upload whose job gets the identifier 4, and all that is done with it. -/
def sampleOperations : List Operation :=
  [.createJob sampleAdmin ⟨some "a.pdf", some pdfContentType, [0]⟩,
   .deliver (.ingestJob 4), .deliver (.detectJob 4),
   .createDispositions sampleAdmin 4 sampleBatch,
   .postApply sampleAdmin 4, .deliver (.applyJob 4 (some 3)), .exportJob sampleAdmin 4]

/-- The n-th step is answered with the identifier n. -/
def numbered (threads : List Nat) : List (Nat × Label Input Exn) :=
  threads.zipIdx.map fun step => (step.1, .ok ⟨BitVec.ofNat 128 step.2, sampleTime⟩)

def sampleSchedule : List (Nat × Label Input Exn) :=
  numbered (List.replicate 11 0 ++ List.replicate 9 1 ++ List.replicate 8 2 ++
    List.replicate 15 3 ++ List.replicate 7 4 ++ List.replicate 19 5 ++ List.replicate 15 6)

theorem job_lifecycle_exported :
    ∃ S job, (Pipeline.start sampleEnv ⟨Database.empty, World.empty⟩ sampleOperations).replayWhere
        Sys.serialStep sampleSchedule = some S ∧ job ∈ S.shared.db.jobs ∧ job.status = .exported ∧
      ∃ e ∈ S.shared.db.entriesBySequence job.id, e.action = .verifyPassed := by
  have hsome : ((Pipeline.start sampleEnv ⟨Database.empty, World.empty⟩
      sampleOperations).replayWhere Sys.serialStep sampleSchedule).map
        (fun S => S.shared.db.jobs.map (·.status)) = some [.exported] := by decide +kernel
  obtain ⟨S, hS, hjobs⟩ := Option.map_eq_some_iff.mp hsome
  obtain ⟨job, hj, hst⟩ := List.exists_of_mem_map (hjobs ▸ List.mem_cons_self :
    JobStatus.exported ∈ S.shared.db.jobs.map (·.status))
  refine ⟨S, job, hS, hj, hst, ?_⟩
  refine (job_lifecycle sampleEnv World.empty sampleOperations (fun jobId h => ?_) S
    (Sys.run_of_replayWhere Guard.serial_of_serialStep hS) job hj).2.2.2.2.1.mpr ?_
  · simp [sampleOperations] at h
  · rw [hst]
    decide

end

end RedactApi
