import RedactApi.Core.Tenants
import RedactApi.Services.ExportManifest
import RedactApi.Tasks.Jobs

/-!
# The job endpoints

`api/jobs.py`: upload, reads, dispositions, apply and export.  A request runs in one
session, which is closed when the response is made; an exception that leaves the
endpoint rolls it back.
-/

namespace RedactApi

open ReadCommitted

def getJobOr404 (tenant : TenantContext) (jobId : UUID) : Tx RedactionJob := do
  match ← Prog.query fun db => db.jobs.find? fun job =>
      job.id = jobId ∧ job.organizationId = tenant.organizationId with
  | some job => return job
  | none => .raise (.http 404 (.text "Redaction job not found"))

/-- `session.refresh(job)` and the response made from it. -/
def refreshJob (jobId : UUID) : Tx (Option RedactionJob) := Prog.query (·.job? jobId)

/-! ### POST jobs -/

structure Upload where
  filename : Option String
  contentType : Option String
  content : Bytes
  deriving DecidableEq, Repr

def pdfContentType : String := "application/pdf"

/-- The text of a size in megabytes, one digit after the point. -/
def megabytes (bytes : Nat) : String :=
  let tenths := roundHalfEven (bytes * 10 / 1048576 : ℚ)
  s!"{(tenths / 10).toNat}.{(tenths % 10).toNat}MB"

def checkUpload (env : Env) (file : Upload) : Except Exn (String × Bytes) :=
  let filename := file.filename.getD ""
  let contentType := match file.contentType with
    | some c => if c = "" then "application/octet-stream" else c
    | none => "application/octet-stream"
  let pdfBytes := file.content.take (env.maxFileSizeBytes + 1)
  if filename = "" then .error (.http 400 (.text "File must have a filename"))
  else if contentType ≠ pdfContentType then
    .error (.http 415 (.text "Only application/pdf uploads are supported"))
  else if pdfBytes.length > env.maxFileSizeBytes then
    .error (.http 413 (.text s!"File exceeds maximum size of {megabytes env.maxFileSizeBytes}"))
  else .ok (filename, pdfBytes)

/-- The ingest rejections become 422. -/
def precheckPdf (env : Env) (pdfBytes : Bytes) : Except Exn Unit :=
  match validatePdfStructure env pdfBytes with
  | .ok () => .ok ()
  | .error (.documentTooLarge limitKind actual limit) =>
    .error (.http 422 (.text (tooLargeMessage limitKind actual limit)))
  | .error (.encryptedPdf message) | .error (.malformedPdf message) =>
    .error (.http 422 (.text message))
  | .error (.unsupportedPage pageNumbers) =>
    .error (.http 422 (.text (unsupportedMessage pageNumbers)))
  | .error e => .error e

def createJob (env : Env) (tenant : TenantContext) (file : Upload) : Tx (Option RedactionJob) :=
  Prog.closing do
    let (filename, pdfBytes) ← liftExcept (checkUpload env file)
    compute (precheckPdf env pdfBytes)
    let documentId ← genRandomUuid
    let document : Document :=
      ⟨documentId, filename, pdfContentType, pdfBytes.length, tenant.organizationId, "", ""⟩
    Prog.send (.insertDocument document)
    let originalKey := Keys.originalPdfKey documentId
    Prog.send (.updateDocument document
      { document with storagePath := originalKey, storageUrl := originalKey })
    let jobId ← genRandomUuid
    Prog.send (.insertJob ⟨jobId, documentId, tenant.organizationId, .uploaded, none⟩)
    uploadBytes originalKey pdfBytes
    Prog.commitNow
    let job ← refreshJob jobId
    kiq (.ingestJob jobId)
    return job

/-! ### GET job, GET spans -/

def getJob (tenant : TenantContext) (jobId : UUID) : Tx RedactionJob :=
  Prog.closing (getJobOr404 tenant jobId)

/-- The spans of a document, by page and span id. -/
def Database.jobSpans (db : Database) (documentId : UUID) : List Span :=
  ((db.spanRows documentId).insertionSort fun r s =>
    r.2.pageNumber < s.2.pageNumber ∨ r.2.pageNumber = s.2.pageNumber ∧ r.1.id ≤ s.1.id).map (·.1)

def listJobSpans (tenant : TenantContext) (jobId : UUID) : Tx (List Span) :=
  Prog.closing do
    let job ← getJobOr404 tenant jobId
    Prog.query (·.jobSpans job.documentId)

/-! ### POST dispositions -/

def wrongStateMessage (job : RedactionJob) : String :=
  s!"Job is {job.status.value}; dispositions require in_review"

def spanNotFoundTo404 {α : Type} (prog : Tx α) : Tx α :=
  prog.tryCatch fun
    | .spanNotFound message => .raise (.http 404 (.text message))
    | e => .raise e

def createDispositions (env : Env) (tenant : TenantContext) (jobId : UUID)
    (payload : DispositionBatchRequest) : Tx DispositionBatchResult :=
  Prog.closing do
    let job ← getJobOr404 tenant jobId
    if job.status ≠ .inReview then .raise (.http 409 (.text (wrongStateMessage job)))
    else do
      let result ← spanNotFoundTo404 (applyDispositionBatch env job payload.items tenant.userId)
      Prog.commitNow
      return result

/-! ### POST apply -/

def refusedTransitionTo409 {α : Type} (prog : Tx α) : Tx α :=
  prog.tryCatch fun
    | .invalidStateTransition message => .raise (.http 409 (.text message))
    | .undispositionedSpans message => .raise (.http 409 (.text message))
    | e => .raise e

def postApply (tenant : TenantContext) (jobId : UUID) : Tx (Option RedactionJob) :=
  Prog.closing do
    liftExcept (requireRole tenant .admin)
    let job ← getJobOr404 tenant jobId
    let job ← refusedTransitionTo409 (transitionJobStatus (track job) .applying)
    Prog.commitNow
    let refreshed ← refreshJob job.row.id
    kiq (.applyJob job.row.id (some tenant.userId))
    return refreshed

/-! ### GET export -/

def notExportableMessage (job : RedactionJob) : String :=
  s!"Job is {job.status.value}; export requires a verified job"

/-- The state, the artifact key and the chain, before any bytes are touched. -/
def checkExportable (job : RedactionJob) : Except Exn String :=
  if job.status ≠ .verified ∧ job.status ≠ .exported then
    .error (.http 409 (.text (notExportableMessage job)))
  else match job.redactedPdfKey with
    | none => .error (.http 409 (.text "Job has no redacted artifact to export"))
    | some key => .ok key

def checkChain (chain : ChainVerifyResult) : Except Exn Unit :=
  if chain.verified then .ok ()
  else .error (.http 409 (.auditChainBroken "Audit chain failed verification; export blocked"
    chain.entryCount chain.firstBrokenEntryId))

def assemblyFailureTo409 {α : Type} (prog : Tx α) : Tx α :=
  prog.tryCatch fun
    | .exportAssembly message => .raise (.http 409 (.exportAssemblyFailed message))
    | e => .raise e

/-- The first export of a verified job records itself. -/
def recordExport (env : Env) (job : RedactionJob) (reviewerId : UUID) : Tx Unit :=
  if job.status = .verified then do
    let _ ← appendAuditEntry env job.id (lifecycleEvent .exported jobLifecycleCategory reviewerId)
    let _ ← transitionJobStatus (track job) .exported
    Prog.commitNow
  else return ()

def exportJob (env : Env) (tenant : TenantContext) (jobId : UUID) : Tx Bytes :=
  Prog.closing do
    liftExcept (requireRole tenant .admin)
    let job ← getJobOr404 tenant jobId
    let key ← liftExcept (checkExportable job)
    let chain ← verifyAuditChain env job.id
    liftExcept (checkChain chain)
    let pdfBytes ← downloadBytes key
    let manifest ← assemblyFailureTo409 (assembleExportManifest env job chain pdfBytes)
    let manifestBytes := env.manifestBytes manifest
    uploadBytes (Keys.exportManifestKey job.id) manifestBytes
    recordExport env job tenant.userId
    return env.zipBytes pdfBytes manifestBytes

/-! ### What the requests commit -/

section

variable {C : Contract Database Write World Input Exn} {s : Shared Database World} {p : List Write}
  {E : Exn → Shared Database World → List Write → Prop} {env : Env} {tenant : TenantContext}
  {jobId : UUID}

variable (tenant jobId) in
/-- The job a request works on: a row of the tenant with the requested id. -/
structure Requested (db : Database) (job : RedactionJob) : Prop where
  mem : job ∈ db.jobs
  id : job.id = jobId
  tenant : job.organizationId = tenant.organizationId

theorem wp_getJobOr404 {Q : RedactionJob → Shared Database World → List Write → Prop}
    (hE : C.Escapes E s)
    (hQ : ∀ s' job, C.Now s [] s' → Requested tenant jobId s'.db job → Q job s' []) :
    C.wp (getJobOr404 tenant jobId) Q E s [] := by
  refine Contract.wp_bind (Contract.wp_query hE.fault fun s' hn => ?_)
  cases hjob : (view s'.db []).jobs.find? fun job =>
      job.id = jobId ∧ job.organizationId = tenant.organizationId with
  | none => exact hE _ s' [] hn.after
  | some job =>
    have hfound := List.find?_some hjob
    rw [decide_eq_true_eq] at hfound
    exact hQ s' job hn ⟨List.mem_of_find?_eq_some hjob, hfound.1, hfound.2⟩

def createWrites (document : Document) (job : RedactionJob) : List Write :=
  [.insertDocument document,
   .updateDocument document
    { document with
      storagePath := Keys.originalPdfKey document.id
      storageUrl := Keys.originalPdfKey document.id },
   .insertJob job]

structure Fresh (document : Document) (job : RedactionJob) : Prop where
  document : job.documentId = document.id
  status : job.status = .uploaded
  key : job.redactedPdfKey = none

theorem checkUpload_ok {file : Upload} {filename : String} {pdfBytes : Bytes}
    (h : checkUpload env file = .ok (filename, pdfBytes)) :
    pdfBytes.length ≤ env.maxFileSizeBytes := by
  simp only [checkUpload] at h
  split_ifs at h with hname htype hlength
  cases h
  exact not_lt.mp hlength

variable (env) in
structure Accepted (pdfBytes : Bytes) : Prop where
  length : pdfBytes.length ≤ env.maxFileSizeBytes
  precheck : precheckPdf env pdfBytes = .ok ()

/-- **An upload** commits a document and its job, after the original is stored. -/
theorem safe_createJob {file : Upload} (hkiq : ∀ id, Tolerates C (·.enqueue (.ingestJob id)))
    (hupload : ∀ (s : Shared Database World) document job data, C.inv s → Fresh document job →
      Accepted env data → Free s.db (createWrites document job) →
      C.Acts s (s.world.put (Keys.originalPdfKey document.id) data))
    (hcommit : ∀ s document job, C.inv s → Fresh document job →
      Free s.db (createWrites document job) → C.allowed s (createWrites document job) →
      C.Lands (fun _ _ _ => True) s (createWrites document job)) (hi : C.inv s) :
    C.Safe (createJob env tenant file) s [] := by
  refine safe_closing ?_
  refine Contract.wp_bind (wp_liftExcept hi (anything_escapes s) fun ⟨filename, pdfBytes⟩ hupl => ?_)
  refine Contract.wp_bind (wp_compute (anything_escapes s) fun s₁ _ hn₁ hprecheck => ?_)
  refine Contract.wp_bind (wp_genRandomUuid (anything_escapes s₁) fun s₂ i hn₂ _ => ?_)
  refine Contract.wp_bind (Contract.wp_send (anything_escapes s₂) fun s₃ hn₃ _ => ?_)
  refine Contract.wp_bind (Contract.wp_send (anything_escapes s₃) fun s₄ hn₄ _ => ?_)
  refine Contract.wp_bind (wp_genRandomUuid (anything_escapes s₄) fun s₅ j hn₅ _ => ?_)
  refine Contract.wp_bind (Contract.wp_send (anything_escapes s₅) fun s₆ hn₆ _ => ?_)
  let document : Document :=
    ⟨i.uuid, filename, pdfContentType, pdfBytes.length, tenant.organizationId, "", ""⟩
  let job : RedactionJob := ⟨j.uuid, i.uuid, tenant.organizationId, .uploaded, none⟩
  have hfresh : Fresh document job := ⟨rfl, rfl, rfl⟩
  refine Contract.wp_bind (wp_act (anything_escapes s₆).fault fun s₇ hn₇ =>
    ⟨hupload s₇ document job pdfBytes hn₇.inv hfresh ⟨checkUpload_ok hupl, hprecheck⟩ hn₇.free, ?_⟩)
  refine Contract.wp_bind (Contract.wp_commit (fun _ _ _ _ => trivial) fun s₈ hn₈ hal => ?_)
  obtain ⟨hi₈, hg₈, -⟩ := hcommit s₈ document job hn₈.inv hfresh hn₈.free hal
  refine ⟨hi₈, hg₈, ?_⟩
  refine Contract.wp_bind (Contract.wp_query (fun _ _ _ _ => trivial) fun s₉ _ => ?_)
  exact Contract.wp_bind (wp_act_tolerated (hkiq _) (anything_escapes s₉).fault fun _ _ => trivial)

/-- **A batch request** commits what its items write. -/
theorem safe_createDispositions {payload : DispositionBatchRequest}
    (hcommit : ∀ s₁ s₂ job p, C.inv s₁ → Requested tenant jobId s₁.db job →
      job.status = .inReview → C.After s₁ s₂ →
      BatchWrites env (C.Between s₁ s₂) job tenant.userId p →
      Free s₂.db p → C.allowed s₂ p → C.Lands (fun _ _ _ => True) s₂ p) :
    C.Safe (createDispositions env tenant jobId payload) s [] := by
  refine safe_closing ?_
  refine Contract.wp_bind (wp_getJobOr404 (anything_escapes s) fun s₁ job hn₁ hjob => ?_)
  show C.wp (if job.status ≠ .inReview then _ else _) _ _ s₁ []
  split
  · trivial
  · rename_i hst
    refine Contract.wp_bind (Contract.wp_tryCatch (wp_applyDispositionBatch hn₁.inv ?_ ?_))
    · intro e s' p' _
      cases e <;> trivial
    · intro result s₂ p hp
      refine Contract.wp_bind (Contract.wp_commit (fun _ _ _ _ => trivial) fun s₃ hn₃ hal => ?_)
      obtain ⟨h₃, hp₃⟩ := hp.later hn₃.after
      obtain ⟨hi₃, hg₃, -⟩ := hcommit s₁ s₃ job p hn₁.inv hjob (not_not.mp hst) h₃ hp₃ hn₃.free hal
      exact ⟨hi₃, hg₃, trivial⟩

/-- **POST apply** commits the move to `applying` after counting no span without
disposition. -/
theorem safe_postApply (hkiq : ∀ reviewer, Tolerates C (·.enqueue (.applyJob jobId reviewer)))
    (hcommit : ∀ s₁ s₂ s₃ job, C.inv s₁ → Requested tenant jobId s₁.db job →
      job.status = .inReview → C.After s₁ s₂ →
      s₂.db.countUndispositionedSpans job.documentId = 0 → C.After s₂ s₃ →
      C.allowed s₃ [statusWrite job .applying] →
      C.Lands (fun _ _ _ => True) s₃ [statusWrite job .applying]) (hi : C.inv s) :
    C.Safe (postApply tenant jobId) s [] := by
  refine safe_closing ?_
  refine Contract.wp_bind (wp_liftExcept hi (anything_escapes s) fun _ _ => ?_)
  refine Contract.wp_bind (wp_getJobOr404 (anything_escapes s) fun s₁ job hn₁ hjob => ?_)
  refine Contract.wp_bind (Contract.wp_tryCatch (wp_transitionJobStatus hn₁.inv ?_ ?_))
  · intro e s' p' _
    cases e <;> trivial
  intro s₂ s₃ new hedge hnew hcount hn₃ hnow
  obtain ⟨hn₂, hzero⟩ := hcount rfl
  have hst : job.status = .inReview := by
    change JobStatus.applying ∈ validTransitions job.status at hedge
    cases hs : job.status <;> rw [hs] at hedge <;> first | rfl | exact absurd hedge (by decide)
  refine Contract.wp_bind (Contract.wp_commit (fun _ _ _ _ => trivial) fun s₄ hn₄ hal => ?_)
  rw [hnew] at hal ⊢
  obtain ⟨hi₄, hg₄, -⟩ := hcommit s₁ s₂ s₄ job hn₁.inv hjob hst hn₂.after hzero
    ((hnow rfl).after.trans hn₄.after) hal
  refine ⟨hi₄, hg₄, ?_⟩
  refine Contract.wp_bind (Contract.wp_query (fun _ _ _ _ => trivial) fun s₅ _ => ?_)
  refine Contract.wp_bind (wp_act_tolerated ?_ (anything_escapes s₅).fault fun _ _ => trivial)
  have hid := hjob.id
  subst hid
  exact hkiq _

def exportWrites (job : RedactionJob) (exported : AuditEntry) : List Write :=
  [.insertAudit exported, statusWrite job .exported]

/-- **The first export** commits an entry with the move to `exported`; any other
commits nothing. -/
theorem safe_exportJob
    (hput : ∀ data, Tolerates C (·.put (Keys.exportManifestKey jobId) data))
    (hcommit : ∀ s₁ s₂ job exported, C.inv s₁ → Requested tenant jobId s₁.db job →
      job.status = .verified → C.After s₁ s₂ → Lifecycle job.id .exported exported →
      Free s₂.db (exportWrites job exported) → C.allowed s₂ (exportWrites job exported) →
      C.Lands (fun _ _ _ => True) s₂ (exportWrites job exported)) (hi : C.inv s) :
    C.Safe (exportJob env tenant jobId) s [] := by
  refine safe_closing ?_
  refine Contract.wp_bind (wp_liftExcept hi (anything_escapes s) fun _ _ => ?_)
  refine Contract.wp_bind (wp_getJobOr404 (anything_escapes s) fun s₁ job hn₁ hjob => ?_)
  refine Contract.wp_bind (wp_liftExcept hn₁.inv (anything_escapes s₁) fun key _ => ?_)
  refine Contract.wp_bind (Contract.wp_query (fun _ _ _ _ => trivial) fun s₂ hn₂ => ?_)
  refine Contract.wp_bind (wp_liftExcept hn₂.inv (anything_escapes s₂) fun _ _ => ?_)
  refine Contract.wp_bind (wp_observe (anything_escapes s₂) fun s₃ _ pdfBytes hn₃ _ _ => ?_)
  have h₃ := hn₂.after.trans hn₃.after
  refine Contract.wp_bind (Contract.wp_tryCatch (wp_assembleExportManifest hn₃.inv ?_ ?_))
  · intro e s' p' _
    cases e <;> trivial
  intro manifest s₄ h₄
  have hid := hjob.id
  subst hid
  refine Contract.wp_bind (wp_act_tolerated (hput _) (anything_escapes s₄).fault fun s₅ h₅ => ?_)
  have h₁₅ := (h₃.trans h₄).trans h₅
  refine Contract.wp_bind ?_
  rw [recordExport]
  split
  · rename_i hst
    refine Contract.wp_bind (wp_appendAuditEntry (anything_escapes s₅) ?_)
    intro s₆ s₇ s₈ row id createdAt exported hn₆ hn₇ hn₈ _ _ he _
    have hlife : Lifecycle job.id .exported exported := by
      rw [he]
      exact ⟨rfl, rfl, rfl⟩
    have h₈ := (hn₆.after.trans hn₇.after).trans hn₈.after
    refine Contract.wp_bind (wp_transition_edge (by simp [track, hst, validTransitions]) (by decide)
      (fun _ _ _ _ => trivial) fun s₉ hn₉ => ?_)
    refine Contract.wp_commit (fun _ _ _ _ => trivial) fun s₁₀ hn₁₀ hal => ?_
    obtain ⟨hi₁₀, hg₁₀, -⟩ := hcommit s₁ s₁₀ job exported hn₁.inv hjob hst
      (((h₁₅.trans h₈).trans hn₉.after).trans hn₁₀.after) hlife hn₁₀.free hal
    exact ⟨hi₁₀, hg₁₀, trivial⟩
  · trivial

end

end RedactApi
