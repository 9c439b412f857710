import RedactApi.Pipeline.DispositionLog

/-!
# What is burned is what was reviewed

The requests on a review and the deliveries of its burn-in overlap in any way.
The guards of the code look at the job as it was loaded, so a batch can commit
when the review is closed, and it can overwrite a disposition that has changed
since it was read.  `InReviewCommits` excludes just these commits.  Under it the
review and its log agree in every state, they do not change once the review is
closed, and every burn-in is given what the log says.
-/

namespace RedactApi

open ReadCommitted KeyedList

def Write.reviews : Write → Bool
  | .insertPage _ | .insertSpan _ | .updateSpan _ _ | .insertDisposition _
  | .updateDisposition _ _ => true
  | .insertAudit row => row.spanId.isSome
  | _ => false

theorem reviews_of_batch {env : Env} {seen : Shared Database World → Prop} {job : RedactionJob}
    {reviewerId : UUID} {p : List Write} (h : BatchWrites env seen job reviewerId p) :
    ∀ w ∈ p, w.reviews = true := by
  have hspan : ∀ (span : Span) (item : ExistingItem), ∀ w ∈ spanWrites span item,
      w.reviews = true := by
    intro span item w hw
    rw [spanWrites] at hw
    split at hw
    · rw [List.mem_singleton.mp hw]
      rfl
    · cases hw
  have hdisposition : ∀ (newId spanId : UUID) (existing : Option Disposition)
      (action : DispositionAction) (reason : Option String),
      (dispositionWrite newId spanId existing action reviewerId reason).reviews = true := by
    intro newId spanId existing action reason
    cases existing <;> rfl
  induction h with
  | nil => exact fun w hw => absurd hw List.not_mem_nil
  | page _ _ _ ih =>
    simp only [List.mem_append, List.mem_singleton]
    rintro w (hw | rfl)
    · exact ih w hw
    · rfl
  | existing _ _ _ _ _ _ _ _ ih =>
    simp only [List.mem_append, List.mem_singleton]
    rintro w (((hw | hw) | rfl) | rfl)
    · exact ih w hw
    · exact hspan _ _ w hw
    · exact hdisposition _ _ _ _ _
    · rfl
  | manual _ _ _ _ _ _ ih =>
    simp only [List.mem_append, List.mem_singleton]
    rintro w (((hw | rfl) | rfl) | rfl)
    · exact ih w hw
    · rfl
    · rfl
    · rfl

section

variable (env : Env) (jobId documentId : UUID)

def Closed (db : Database) : Prop := ∃ job, db.job? jobId = some job ∧ job.status ≠ .inReview

/-- Rows survive, and a closed review stays closed and approves the same. -/
structure Settles (db db' : Database) : Prop where
  survive : Extends db db'
  closed : Closed jobId db →
    Closed jobId db' ∧ db'.approvedSpans documentId = db.approvedSpans documentId

theorem Settles.refl (db : Database) : Settles jobId documentId db db :=
  ⟨Extends.refl db, fun h => ⟨h, rfl⟩⟩

theorem Settles.trans {jobId documentId : UUID} {a b c : Database}
    (h : Settles jobId documentId a b) (h' : Settles jobId documentId b c) :
    Settles jobId documentId a c :=
  ⟨h.survive.trans h'.survive, fun hc =>
    ⟨(h'.closed (h.closed hc).1).1, (h'.closed (h.closed hc).1).2.trans (h.closed hc).2⟩⟩

/-- The review and its log agree, the log is closed by job-level entries, and what
was burned is what is approved. -/
structure ReviewInv (s : Shared Database World) : Prop where
  reviewed : Reviewed env False s.db
  job : ∃ job, s.db.job? jobId = some job ∧ job.documentId = documentId
  chain : ∃ review closing, s.db.entries jobId = review ++ closing ∧ (∀ e ∈ review, IsReview e) ∧
    ∀ e ∈ closing, e.spanId = none
  opened : ¬ Closed jobId s.db → (∀ e ∈ s.db.entries jobId, IsReview e) ∧
    ∀ b ∈ s.world.burned, b.1 ≠ jobId
  burned : ∀ b ∈ s.world.burned, b.1 = jobId → s.db.approvedSpans documentId = .ok b.2

/-- A commit of review writes needs an open review, and overwrites dispositions as
they are. -/
def reviewContract : Contract Database Write World Input Exn where
  inv s := ReviewInv env jobId documentId s
  rely s s' := Settles jobId documentId s.db s'.db
  guar s s' := Settles jobId documentId s.db s'.db
  allowed s p := ((∃ w ∈ p, w.reviews = true) → ¬ Closed jobId s.db) ∧ Current s.db p
  input _ _ _ := True
  fault _ := True
  past s s' := Settles jobId documentId s.db s'.db
  rely_refl s := Settles.refl jobId documentId s.db
  rely_trans := Settles.trans
  guar_refl s := Settles.refl jobId documentId s.db
  past_refl s := Settles.refl jobId documentId s.db
  past_trans := Settles.trans
  rely_past h := h

end

/-! ### Commits -/

section

variable {env : Env} {jobId documentId : UUID} {s : Shared Database World} {job new : RedactionJob}
  {es : List AuditEntry}

/-- **A commit that moves the job closes the review**: it adds job-level entries and
leaves every span and disposition. -/
theorem review_closing (es : List AuditEntry) (h : ReviewInv env jobId documentId s)
    (hid : job.id = jobId) (hp : Present s.db job) (hmove : new.status ≠ job.status)
    (hne : new.status ≠ .inReview)
    (hes : ∀ e ∈ es, e.jobId = job.id ∧ e.spanId = none)
    (hf : Free s.db (closingWrites job new es)) :
    (reviewContract env jobId documentId).Lands (fun _ _ _ => True) s (closingWrites job new es) := by
  have hreviewed := h.reviewed.closing hp hf hes
  have hext := extends_view s.db (closingWrites job new es)
  obtain ⟨j, hj, hdoc⟩ := h.job
  have hview := view_closingWrites s.db job new es
  have happroved : (view s.db (closingWrites job new es)).approvedSpans documentId =
      s.db.approvedSpans documentId := by
    rw [hview]
    rfl
  have hjob : (view s.db (closingWrites job new es)).job? jobId =
      some (RedactionJob.patch job new j) := by
    rw [hview]
    show (s.db.jobs.map (RedactionJob.patch job new)).find? (·.id = jobId) = _
    rw [find?_map (f := RedactionJob.id) (RedactionJob.patch_id job new)]
    rw [show s.db.jobs.find? (·.id = jobId) = some j from hj]
    rfl
  have hclosed : Closed jobId (view s.db (closingWrites job new es)) := by
    refine ⟨_, hjob, ?_⟩
    rw [RedactionJob.patch, if_pos ((job?_id hj).trans hid.symm)]
    show patched job.status new.status j.status ≠ .inReview
    rw [patched_changed _ hmove]
    exact hne
  obtain ⟨review, closing, hsplit, hreview, hclosing⟩ := h.chain
  refine ⟨⟨hreviewed, ⟨_, hjob, (RedactionJob.patch_documentId _ _ _).trans hdoc⟩,
    ⟨review, closing ++ es.filter (·.jobId = jobId), ?_, hreview, fun e he => ?_⟩,
    fun ho => absurd hclosed ho, fun b hb hbj => ?_⟩, ⟨hext, fun _ => ⟨hclosed, happroved⟩⟩, trivial⟩
  · rw [hview, entries_of_append rfl, ← List.append_assoc, ← hsplit]
  · rcases List.mem_append.mp he with he | he
    · exact hclosing e he
    · exact (hes e (List.mem_of_mem_filter he)).2
  · exact happroved.trans (h.burned b hb hbj)

/-- **A batch that commits into an open review** keeps the review and its log in
agreement. -/
theorem review_disposes {s₁ : Shared Database World} {tenant : TenantContext} {p : List Write}
    (hjob : Requested tenant jobId s₁.db job)
    (h : (reviewContract env jobId documentId).After s₁ s)
    (hp : BatchWrites env ((reviewContract env jobId documentId).Between s₁ s) job tenant.userId p)
    (hf : Free s.db p) (hal : (reviewContract env jobId documentId).allowed s p) :
    (reviewContract env jobId documentId).Lands (fun _ _ _ => True) s p := by
  rcases List.eq_nil_or_concat p with rfl | ⟨q, w, rfl⟩
  · exact ⟨h.inv, Settles.refl jobId documentId s.db, trivial⟩
  rw [List.concat_eq_append] at *
  have hopen : ¬ Closed jobId s.db := hal.1 ⟨w, List.mem_append_right _ List.mem_cons_self,
    reviews_of_batch hp w (List.mem_append_right _ List.mem_cons_self)⟩
  have hpresent : Present s.db job := h.past.survive.present ⟨job, hjob.mem, rfl, rfl⟩
  obtain ⟨hreviewed, hb⟩ := batch_keeps h.inv.reviewed hpresent (batchSteps_of_writes hp
    h.inv.reviewed hpresent hf (fun t ht => ht.2.survive) (Or.inr ⟨id, hal.2⟩))
  obtain ⟨hreviews, hnone⟩ := h.inv.opened hopen
  obtain ⟨es, hes, hesr⟩ := hb.entries
  have hsame : (view s.db (q ++ [w])).job? jobId = s.db.job? jobId := by
    rw [Database.job?, hb.jobs]
    rfl
  have hall : ∀ e ∈ (view s.db (q ++ [w])).entries jobId, IsReview e := by
    intro e he
    rw [entries_of_append hes] at he
    rcases List.mem_append.mp he with he | he
    · exact hreviews e he
    · exact (hesr e (List.mem_of_mem_filter he)).2
  refine ⟨⟨hreviewed, ?_, ⟨_, [], (List.append_nil _).symm, hall, fun e he => absurd he
    List.not_mem_nil⟩, fun _ => ⟨hall, hnone⟩, fun b hb hbj => absurd hbj (hnone b hb)⟩,
    ⟨extends_view s.db _, fun hc => absurd hc hopen⟩, trivial⟩
  show ∃ job, (view s.db (q ++ [w])).job? jobId = some job ∧ _
  rw [hsame]
  exact h.inv.job

/-! ### Operations on the review -/

theorem review_world (h : ReviewInv env jobId documentId s) {w : World}
    (hw : w.burned = s.world.burned) : (reviewContract env jobId documentId).Acts s w := by
  refine ⟨⟨h.reviewed, h.job, h.chain, fun ho => ?_, fun b hb => h.burned b (hw ▸ hb)⟩,
    Settles.refl jobId documentId s.db, Settles.refl jobId documentId s.db⟩
  obtain ⟨hreviews, hnone⟩ := h.opened ho
  exact ⟨hreviews, fun b hb => hnone b (hw ▸ hb)⟩

/-- **A burn-in is given what is approved**: the review was closed when it was read. -/
theorem review_burns (h : ReviewInv env jobId documentId s) (hclosed : Closed jobId s.db)
    {spans : List ApprovedSpan} (hspans : s.db.approvedSpans documentId = .ok spans) :
    (reviewContract env jobId documentId).Acts s
      { s.world with burned := s.world.burned ++ [(jobId, spans)] } := by
  refine ⟨⟨h.reviewed, h.job, h.chain, fun ho => absurd hclosed ho, fun b hb hbj => ?_⟩,
    Settles.refl jobId documentId s.db, Settles.refl jobId documentId s.db⟩
  rcases List.mem_append.mp hb with hb | hb
  · exact h.burned b hb hbj
  · rw [List.mem_singleton.mp hb]
    exact hspans

/-- The operations that overlap: requests on the review of a job and deliveries of
its burn-in. -/
inductive OnReview (jobId : UUID) : Operation → Prop
  | createDispositions (tenant : TenantContext) (payload : DispositionBatchRequest) :
      OnReview jobId (.createDispositions tenant jobId payload)
  | postApply (tenant : TenantContext) : OnReview jobId (.postApply tenant jobId)
  | applyJob (reviewerId : Option UUID) : OnReview jobId (.deliver (.applyJob jobId reviewerId))

theorem closed_of_job {db : Database} (hjob : db.job? jobId = some job)
    (hst : job.status = .applying) : Closed jobId db :=
  ⟨job, hjob, by rw [hst]; decide⟩

theorem ReviewInv.document (h : ReviewInv env jobId documentId s) (hjob : s.db.job? jobId = some job) :
    job.documentId = documentId := by
  obtain ⟨j, hj, hdoc⟩ := h.job
  rw [hjob] at hj
  cases hj
  exact hdoc

theorem safe_onReview {operation : Operation} (hop : OnReview jobId operation)
    (hi : ReviewInv env jobId documentId s) :
    (reviewContract env jobId documentId).Safe (operation.run env) s [] := by
  have hmem : ∀ {s₁ : Shared Database World} {job : RedactionJob},
      s₁.db.job? jobId = some job → Present s₁.db job :=
    fun hj => ⟨_, job?_mem hj, rfl, rfl⟩
  cases hop with
  | createDispositions tenant payload =>
    refine Contract.wp_bind (safe_createDispositions ?_)
    exact fun s₁ s₂ job p _ hjob _ h₂ hp hf hal => review_disposes hjob h₂ hp hf hal
  | postApply tenant =>
    refine Contract.wp_bind (safe_postApply (fun _ _ h => review_world h rfl) ?_ hi)
    intro s₁ s₂ s₃ job h₁ hjob hst h₂ _ h₃ _
    exact review_closing [] h₃.inv hjob.id ((h₂.trans h₃).past.survive.present
      ⟨job, hjob.mem, rfl, rfl⟩) (by rw [hst]; exact (show JobStatus.applying ≠ .inReview by decide))
      (show JobStatus.applying ≠ .inReview by decide) (fun _ h => absurd h List.not_mem_nil)
      (free_updateJob _ _ _)
  | applyJob reviewerId =>
    refine safe_applyJob ?_ ?_ ?_ ?_ ?_
    · intro s₀ s₁ s₂ job₀ job h₀ _ _ h₁ hjob hedge h₂ _
      refine review_closing [] h₂.inv (job?_id hjob) (h₂.past.survive.present (hmem hjob))
        (fun he => ?_) (show JobStatus.failed ≠ .inReview by decide)
        (fun _ h => absurd h List.not_mem_nil) (free_updateJob _ _ _)
      rw [← he] at hedge
      exact absurd hedge (show JobStatus.failed ∉ validTransitions .failed by decide)
    · intro s₁ s₃ s job spans h₁ hjob hst h₃ hspans h
      obtain ⟨hclosed₃, -⟩ := h₃.closed (closed_of_job hjob hst)
      obtain ⟨hclosed, hsame⟩ := h.past.closed hclosed₃
      rw [h₁.document hjob] at hspans
      rw [job?_id hjob]
      exact review_burns h.inv hclosed (hsame.trans hspans)
    · exact fun _ _ _ _ _ _ _ h => review_world h.inv rfl
    · intro s₁ s job b started failed h₁ hjob hst h _ hstarted hfailed hf _
      exact review_closing _ h.inv (job?_id hjob) ((b.since h).past.survive.present (hmem hjob))
        (by rw [hst]; exact (show JobStatus.failed ≠ .applying by decide))
        (show JobStatus.failed ≠ .inReview by decide) (lifecycle_pair hstarted hfailed) hf
    · intro s₁ s₂ s job b started passed h₁ hjob hst h _ _ hstarted hpassed hf _
      exact review_closing _ h.inv (job?_id hjob) ((b.since h).past.survive.present (hmem hjob))
        (by rw [hst]; exact (show JobStatus.verified ≠ .applying by decide))
        (show JobStatus.verified ≠ .inReview by decide) (lifecycle_pair hstarted hpassed) hf

/-! ### Reading the log -/

/-- A span is approved when the last entry about it is no rejection. -/
theorem Reviewed.approved_iff {exact : Prop} {db : Database} (h : Reviewed env exact db) (x : UUID) :
    (db.dispositions.any fun d => d.spanId = x ∧ d.action = .approved) ↔
      ∃ e, db.lastEntry x = some e ∧ e.action ≠ .rejected := by
  rw [h.wf.any_approved]
  have hx := h.agree x
  generalize db.disposition? x = d at hx
  generalize db.lastEntry x = e at hx
  cases hx with
  | none => simp
  | some hr =>
    rename_i d e
    have ha := hr.action
    simp only [Option.any_some, decide_eq_true_eq, Option.some.injEq, exists_eq_left']
    cases hd : d.action <;> cases he : e.action <;> rw [hd, he] at ha <;> simp_all [AuditAction.outcome]

/-- **What is approved is what the log says.** -/
theorem Reviewed.mem_approvedSpans {exact : Prop} {db : Database} (h : Reviewed env exact db)
    (hj : job ∈ db.jobs) {spans : List ApprovedSpan}
    (hs : db.approvedSpans job.documentId = .ok spans) (a : ApprovedSpan) :
    a ∈ spans ↔ ∃ span page, (span, page) ∈ db.spanRows job.documentId ∧
      (∃ e, ((db.entries job.id).filter (·.spanId = some span.id)).getLast? = some e ∧
        e.action ≠ .rejected) ∧
      buildApprovedSpan page.pageNumber span.bboxes span.text = .ok a := by
  rw [mem_of_mapM hs]
  constructor
  · rintro ⟨⟨span, n⟩, hrow, ha⟩
    obtain ⟨page, hr, rfl, happ⟩ := mem_approvedRows.mp hrow
    refine ⟨span, page, hr, ?_, ha⟩
    rw [h.lastEntry_eq hj hr]
    exact (h.approved_iff span.id).mp happ
  · rintro ⟨span, page, hr, hlast, ha⟩
    rw [h.lastEntry_eq hj hr] at hlast
    exact ⟨(span, page.pageNumber), mem_approvedRows.mpr ⟨page, hr, rfl, (h.approved_iff span.id).mpr
      hlast⟩, ha⟩

/-! ### Runs -/

def currentWrites : Database → List Write → Bool
  | _, [] => true
  | db, w :: p =>
    (match w with
      | .updateDisposition loaded _ => loaded ∈ db.dispositions
      | _ => true) && currentWrites (db.apply w) p

theorem current_of_currentWrites {db : Database} {p : List Write} (h : currentWrites db p = true) :
    Current db p := by
  intro q loaded new r hp
  induction q generalizing db p with
  | nil =>
    subst hp
    exact of_decide_eq_true (Bool.and_eq_true_iff.mp h).1
  | cons w q ih =>
    subst hp
    exact ih (Bool.and_eq_true_iff.mp h).2 rfl

/-- The writes of a review commit while the committed status is `inReview`, and
overwrite dispositions as they are. -/
def inReviewCommit (jobId : UUID) (db : Database) (p : List Write) : Bool :=
  (!p.any Write.reviews || db.status? jobId = some .inReview) && currentWrites db p

def inReviewStep (jobId : UUID) (S : Pipeline) (i : Nat) (l : Label Input Exn) : Bool :=
  match S.threads[i]?, l with
  | some t, .ok _ => !t.prog.atCommit || inReviewCommit jobId S.shared.db t.pending
  | _, _ => true

def inReviewCommits (jobId : UUID) : Guard Database Write World Input Exn Unit := fun S i l =>
  inReviewStep jobId S i l = true

theorem fits_review (env : Env) (jobId documentId : UUID) :
    (reviewContract env jobId documentId).Fits (inReviewCommits jobId) where
  fault _ := trivial
  input _ _ := trivial
  commit := by
    intro S i a t hg ht hc
    simp only [inReviewCommits, inReviewStep, ht, hc, inReviewCommit] at hg
    obtain ⟨hopen, hcurrent⟩ := Bool.and_eq_true_iff.mp hg
    refine ⟨?_, current_of_currentWrites hcurrent⟩
    rintro ⟨w, hw, hr⟩ ⟨job, hjob, hne⟩
    rw [List.any_eq_true.mpr ⟨w, hw, hr⟩, Database.status?, hjob] at hopen
    exact hne (by simpa using hopen)

/-- A job in review whose review and log agree, and nothing of it is burned yet. -/
structure InReview (env : Env) (s : Shared Database World) (job : RedactionJob) : Prop where
  reviewed : Reviewed env False s.db
  intact : Intact env s.db
  stored : s.db.job? job.id = some job
  status : job.status = .inReview
  entries : ∀ e ∈ s.db.entries job.id, IsReview e
  burned : ∀ b ∈ s.world.burned, b.1 ≠ job.id

theorem InReview.inv (h : InReview env s job) : ReviewInv env job.id job.documentId s where
  reviewed := h.reviewed
  job := ⟨job, h.stored, rfl⟩
  chain := ⟨_, [], (List.append_nil _).symm, h.entries, fun _ he => absurd he List.not_mem_nil⟩
  opened _ := ⟨h.entries, h.burned⟩
  burned b hb hbj := absurd hbj (h.burned b hb)

/-- **What is burned is what was reviewed.**  Any number of disposition requests,
apply requests and deliveries of the burn-in on a job in review overlap in any way,
with faults and crashes, and each commit of review writes finds the job in review
and the dispositions it overwrites as they were read.  Then in every state no entry
about a span follows an `applyStarted`, and what any burn-in of the job was given
is, with the texts and boxes stored now, the spans of the document whose last entry
is no rejection. -/
theorem burned_is_reviewed (env : Env) (s : Shared Database World) (job : RedactionJob)
    (hstart : InReview env s job) (operations : List Operation)
    (hops : ∀ operation ∈ operations, OnReview job.id operation) (S : Pipeline)
    (hr : Sys.Run (inReviewCommits job.id) (Pipeline.start env s operations) S) :
    let db := S.shared.db
    let entries := db.entriesBySequence job.id
    (∀ started ∈ entries, started.action = .applyStarted →
      ∀ e ∈ entries, e.spanId.isSome → e.sequence < started.sequence) ∧
    ∀ spans, (job.id, spans) ∈ S.shared.world.burned → ∀ a, a ∈ spans ↔
      ∃ span page, (span, page) ∈ db.spanRows job.documentId ∧
        (∃ e, (entries.filter (·.spanId = some span.id)).getLast? = some e ∧ e.action ≠ .rejected) ∧
        buildApprovedSpan page.pageNumber span.bboxes span.text = .ok a := by
  have hgood : (reviewContract env job.id job.documentId).Good (Pipeline.start env s operations) := by
    refine Contract.good_start hstart.inv fun q hq => ?_
    obtain ⟨operation, hop, rfl⟩ := List.mem_map.mp hq
    exact safe_onReview (hops operation hop) hstart.inv
  have hinv := (Contract.sound (fits_review env job.id job.documentId) (fun _ _ h => h) hgood hr).inv
  have hintact : Intact env S.shared.db := chains_of_run hstart.intact hr
  show _ ∧ _
  rw [entriesBySequence_eq (hintact job.id)]
  refine ⟨fun started hs hact e he hspan => ?_, fun spans hspans a => ?_⟩
  · obtain ⟨review, closing, hsplit, hreview, hclosing⟩ := hinv.chain
    have hnumbered : ((S.shared.db.entries job.id).map AuditEntry.sequence).Pairwise (· < ·) := by
      rw [(hintact job.id).numbered]
      exact List.pairwise_lt_range'
    rw [hsplit] at hs he hnumbered
    have hs' : started ∈ closing := by
      rcases List.mem_append.mp hs with hs | hs
      · have hout := (hreview started hs).2
        rw [hact] at hout
        exact absurd hout (by decide)
      · exact hs
    have he' : e ∈ review := by
      rcases List.mem_append.mp he with he | he
      · exact he
      · rw [hclosing e he] at hspan
        cases hspan
    exact (List.pairwise_append.mp (List.pairwise_map.mp hnumbered)).2.2 e he' started hs'
  · obtain ⟨j, hj, hdoc⟩ := hinv.job
    have happroved := hinv.burned _ hspans rfl
    rw [← hdoc] at happroved ⊢
    rw [← job?_id hj]
    exact hinv.reviewed.mem_approvedSpans (job?_mem hj) happroved a

/-! ### A batch that is late -/

def reviewingJob : RedactionJob := ⟨sampleJobId, sampleDocumentId, 6, .inReview, none⟩

def reviewingDatabase : Database :=
  { Database.empty with
    documents := [⟨sampleDocumentId, "a.pdf", pdfContentType, 1, 6, "", ""⟩]
    jobs := [reviewingJob] }

theorem inReview_sample (env : Env) : InReview env ⟨reviewingDatabase, fullStore⟩ reviewingJob where
  reviewed :=
    { wf := by constructor <;> simp [reviewingDatabase, Database.empty, reviewingJob]
      agree := fun _ => .none
      owned := fun _ he => absurd he List.not_mem_nil
      hashed := fun h => h.elim }
  intact _ := HashChain.chain_nil _
  stored := rfl
  status := rfl
  entries _ he := absurd he List.not_mem_nil
  burned _ hb := absurd hb List.not_mem_nil

def reviewOperations : List Operation :=
  [.createDispositions sampleAdmin sampleJobId sampleBatch,
   .postApply sampleAdmin sampleJobId, .deliver (.applyJob sampleJobId (some 3))]

theorem onReview_sample : ∀ operation ∈ reviewOperations, OnReview reviewingJob.id operation := by
  intro operation hop
  simp only [reviewOperations, List.mem_cons, List.not_mem_nil, or_false] at hop
  rcases hop with rfl | rfl | rfl
  · exact .createDispositions _ _
  · exact .postApply _
  · exact .applyJob _

def reviewPipeline : Pipeline :=
  Pipeline.start sampleEnv ⟨reviewingDatabase, fullStore⟩ reviewOperations

end

/-- The batch loads the job in review; then the apply request and the burn-in run to
their end, and the batch commits.  Its entry follows `applyStarted`, and the span it
has approved was not burned. -/
theorem burned_not_reviewed :
    ∃ S : Pipeline, reviewPipeline.replay (numbered (List.replicate 1 0 ++ List.replicate 7 1 ++
        List.replicate 19 2 ++ List.replicate 14 0)) = some S ∧
      S.shared.db.status? sampleJobId = some .verified ∧
      (∃ started ∈ S.shared.db.entriesBySequence sampleJobId, started.action = .applyStarted ∧
        ∃ e ∈ S.shared.db.entriesBySequence sampleJobId,
          e.spanId.isSome ∧ started.sequence < e.sequence) ∧
      S.shared.world.burned = [(sampleJobId, [])] ∧
      ∃ r ∈ S.shared.db.spanRows sampleDocumentId, ∃ e,
        ((S.shared.db.entriesBySequence sampleJobId).filter (·.spanId = some r.1.id)).getLast? =
          some e ∧ e.action ≠ .rejected := by
  have hsome : ((reviewPipeline.replay (numbered (List.replicate 1 0 ++ List.replicate 7 1 ++
      List.replicate 19 2 ++ List.replicate 14 0))).map fun S =>
        decide (S.shared.db.status? sampleJobId = some .verified ∧
          (∃ started ∈ S.shared.db.entriesBySequence sampleJobId, started.action = .applyStarted ∧
            ∃ e ∈ S.shared.db.entriesBySequence sampleJobId,
              e.spanId.isSome ∧ started.sequence < e.sequence) ∧
          S.shared.world.burned = [(sampleJobId, [])] ∧
          ∃ r ∈ S.shared.db.spanRows sampleDocumentId,
            ((S.shared.db.entriesBySequence sampleJobId).filter
              (·.spanId = some r.1.id)).getLast?.any (·.action ≠ .rejected))) = some true := by
    decide +kernel
  obtain ⟨S, hS, hout⟩ := Option.map_eq_some_iff.mp hsome
  obtain ⟨hst, hchain, hburned, r, hr, hlast⟩ := of_decide_eq_true hout
  obtain ⟨e, he, hne⟩ := (Option.any_eq_true _ _).mp hlast
  exact ⟨S, hS, hst, hchain, hburned, r, hr, e, he, by simpa using hne⟩

/-- The same operations in order: the batch commits before the apply request. -/
theorem burned_is_reviewed_in_order :
    ∃ S : Pipeline, reviewPipeline.replayWhere (inReviewStep sampleJobId) (numbered
        (List.replicate 15 0 ++ List.replicate 7 1 ++ List.replicate 19 2)) = some S ∧
      ∃ spans, spans ≠ [] ∧ (sampleJobId, spans) ∈ S.shared.world.burned ∧
        ∀ a ∈ spans, ∃ span page, (span, page) ∈ S.shared.db.spanRows sampleDocumentId ∧
          buildApprovedSpan page.pageNumber span.bboxes span.text = .ok a := by
  have hsome : ((reviewPipeline.replayWhere (inReviewStep sampleJobId) (numbered
      (List.replicate 15 0 ++ List.replicate 7 1 ++ List.replicate 19 2))).map fun S =>
        S.shared.world.burned) = some [(sampleJobId, [⟨1, [⟨72, 72, 144, 90⟩], "x"⟩])] := by
    decide +kernel
  obtain ⟨S, hS, hburned⟩ := Option.map_eq_some_iff.mp hsome
  have hm : (sampleJobId, [⟨1, [⟨72, 72, 144, 90⟩], "x"⟩]) ∈ S.shared.world.burned :=
    hburned ▸ List.mem_cons_self
  refine ⟨S, hS, _, List.cons_ne_nil _ _, hm, fun a ha => ?_⟩
  obtain ⟨span, page, hrow, -, hbuild⟩ := ((burned_is_reviewed sampleEnv _ reviewingJob
    (inReview_sample sampleEnv) reviewOperations onReview_sample S
    (Sys.run_of_replayWhere (fun _ _ _ h => h) hS)).2 _ hm a).mp ha
  exact ⟨span, page, hrow, hbuild⟩

end RedactApi
