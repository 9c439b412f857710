import RedactApi.AuditChain.Concurrency
import RedactApi.Pipeline

/-!
# Every operation keeps the audit chains

Only `appendAuditEntry` inserts audit entries, so each service, task and request
keeps the chains because what it calls does.  `chains_of_run` is the result for
the pipeline: under every schedule every chain is intact.
-/

namespace RedactApi

open ReadCommitted

section

variable {env : Env}

/-! ### Services -/

theorem keeps_genRandomUuid : Keeps env genRandomUuid := .observe _

theorem keeps_flushJob (job : Tracked RedactionJob) : Keeps env (flushJob job) :=
  (Keeps.send fun _ => rfl).bind fun _ => .ret _

theorem keeps_transitionJobStatus (job : Tracked RedactionJob) (newStatus : JobStatus) :
    Keeps env (transitionJobStatus job newStatus) := by
  refine .ite (.raise _) (Keeps.bind ?_ fun _ => keeps_flushJob _)
  exact .ite ((Keeps.query _).bind fun _ => .ite (.raise _) (.ret _)) (.ret _)

theorem keeps_uploadPage (documentId : UUID) (extraction : PageExtraction) :
    Keeps env (uploadPage env documentId extraction) :=
  (Keeps.act _).bind fun _ => (Keeps.act _).bind fun _ => .ret _

theorem keeps_ingestPdf (documentId : UUID) (pdfBytes : Bytes) :
    Keeps env (ingestPdf env documentId pdfBytes) := by
  refine (Keeps.observe _).bind fun extractions => Keeps.bind ?_ fun _ => .ret _
  exact .foldlM (fun _ extraction => (keeps_uploadPage documentId extraction).bind fun _ => .ret _) _ _

theorem keeps_getOrCreatePage (documentId : UUID) (pageNumber : Nat) :
    Keeps env (getOrCreatePage documentId pageNumber) := by
  refine (Keeps.query _).bind fun page => ?_
  cases page with
  | some page => exact .ret _
  | none =>
    exact (Keeps.observe _).bind fun _ => (Keeps.send fun _ => rfl).bind fun _ => .ret _

theorem keeps_addCandidate (pageId : UUID) (candidate : CandidateSpan) :
    Keeps env (addCandidate pageId candidate) := by
  refine keeps_genRandomUuid.bind fun id => ?_
  exact .send fun _ => rfl

theorem keeps_runDetection (documentId : UUID) (pages : List PageModel) :
    Keeps env (runDetection env documentId pages) := by
  refine (Keeps.observe _).bind fun _ => (Keeps.liftExcept _).bind fun _ => .foldlM (fun n item => ?_) _ _
  refine .ite (.ret _) ((keeps_getOrCreatePage _ _).bind fun page => ?_)
  exact (Keeps.forM (keeps_addCandidate page.id) _).bind fun _ => .ret _

theorem keeps_writeSpan (span : Span) (item : ExistingItem) : Keeps env (writeSpan span item) :=
  .ite ((Keeps.send fun _ => rfl).bind fun _ => .ret _) (.ret _)

theorem keeps_writeDisposition (spanId : UUID) (existing : Option Disposition)
    (action : DispositionAction) (reviewerId : UUID) (reason : Option String) :
    Keeps env (writeDisposition spanId existing action reviewerId reason) := by
  cases existing with
  | some disposition => exact .send fun _ => rfl
  | none =>
    refine keeps_genRandomUuid.bind fun id => ?_
    exact .send fun _ => rfl

theorem keeps_loadJobSpan (job : RedactionJob) (spanId : UUID) :
    Keeps env (loadJobSpan job spanId) := by
  refine (Keeps.query _).bind fun row => ?_
  cases row with
  | some row => exact .ret _
  | none => exact .raise _

theorem keeps_applyItem (job : RedactionJob) (reviewerId : UUID) (result : DispositionBatchResult)
    (item : DispositionItem) : Keeps env (applyItem env job reviewerId result item) := by
  cases item with
  | existing item =>
    refine Keeps.bind ?_ fun changed => .ite (.ret _) (.ret _)
    refine (keeps_loadJobSpan job _).bind fun span => (Keeps.query _).bind fun existing => ?_
    refine .ite ?_ (.ret _)
    exact (keeps_writeSpan span item).bind fun span =>
      (keeps_writeDisposition _ _ _ _ _).bind fun _ =>
        (keeps_appendAuditEntry _ _).bind fun _ => .ret _
  | addManualSpan item =>
    refine Keeps.bind ?_ fun _ => .ret _
    exact (keeps_getOrCreatePage _ _).bind fun _ => (Keeps.observe _).bind fun _ =>
      (Keeps.send fun _ => rfl).bind fun _ => (keeps_writeDisposition _ _ _ _ _).bind fun _ =>
        (keeps_appendAuditEntry _ _).bind fun _ => .ret _

theorem keeps_applyDispositionBatch (job : RedactionJob) (items : List DispositionItem)
    (reviewerId : UUID) : Keeps env (applyDispositionBatch env job items reviewerId) :=
  .foldlM (fun result item => keeps_applyItem job reviewerId result item) _ _

/-! ### Tasks -/

theorem keeps_failJob (jobId : UUID) : Keeps env (failJob jobId) := by
  refine Keeps.closing ((Keeps.query _).bind fun job => ?_)
  cases job with
  | none => exact .ret _
  | some job =>
    exact .ite ((keeps_transitionJobStatus _ _).bind fun _ => Keeps.commitNow.bind fun _ => .ret _)
      (.ret _)

theorem keeps_failTask (jobId : UUID) : Keeps env (failTask jobId) :=
  Keeps.rollbackNow.bind fun _ => (keeps_failJob jobId).bind fun _ => .ret _

theorem keeps_guardedTask {α : Type} {consumes : JobStatus} {jobId : UUID} {skipped : α}
    {work : RedactionJob → Tx α} {onError : Exn → Tx α} (hwork : ∀ job, Keeps env (work job))
    (herror : ∀ e, Keeps env (onError e)) :
    Keeps env (guardedTask consumes jobId skipped work onError) := by
  refine (Keeps.query _).bind fun job => ?_
  cases job with
  | none => exact .ret _
  | some job =>
    exact .ite (.ret _) ((hwork job).tryCatch fun e =>
      (keeps_failTask jobId).bind fun _ => herror e)

theorem keeps_ingestJob (jobId : UUID) : Keeps env (ingestJob env jobId) := by
  refine Keeps.bind (Keeps.closing (keeps_guardedTask (fun job => Keeps.bind ?_ fun _ => .ret _)
    fun e => .ite (.ret _) (.raise _))) fun _ => .ite (.act _) (.ret _)
  exact (Keeps.observe _).bind fun _ => (keeps_ingestPdf _ _).bind fun _ =>
    (keeps_transitionJobStatus _ _).bind fun _ => .commitNow

theorem keeps_detectJob (jobId : UUID) : Keeps env (detectJob env jobId) := by
  refine Keeps.closing (keeps_guardedTask (fun job => ?_) fun e => .raise _)
  exact (Keeps.observe _).bind fun _ => (Keeps.observe _).bind fun _ =>
    (keeps_runDetection _ _).bind fun _ => (keeps_transitionJobStatus _ _).bind fun _ =>
      (keeps_transitionJobStatus _ _).bind fun _ => .commitNow

theorem keeps_landFailed (job : RedactionJob) (reviewer : UUID) (result : ApplyResult) :
    Keeps env (landFailed env job reviewer result) :=
  (keeps_appendAuditEntry _ _).bind fun _ => (keeps_transitionJobStatus _ _).bind fun _ => .commitNow

theorem keeps_landVerified (job : RedactionJob) (reviewer : UUID) (result : ApplyResult) :
    Keeps env (landVerified env job reviewer result) :=
  (keeps_appendAuditEntry _ _).bind fun _ => (Keeps.act _).bind fun _ =>
    (keeps_transitionJobStatus _ _).bind fun _ => .commitNow

theorem keeps_applyJob (jobId : UUID) (reviewerId : Option UUID) :
    Keeps env (applyJob env jobId reviewerId) := by
  refine Keeps.closing (keeps_guardedTask (fun job => ?_) fun e => .raise _)
  refine (Keeps.liftExcept _).bind fun reviewer => (Keeps.observe _).bind fun _ =>
    Keeps.bind ((Keeps.query _).bind fun _ => .liftExcept _) fun _ =>
      (keeps_appendAuditEntry _ _).bind fun _ => Keeps.bind ?_ fun result =>
        .ite (keeps_landVerified job reviewer result) (keeps_landFailed job reviewer result)
  exact (Keeps.act _).bind fun _ => .observe _

/-! ### Requests -/

theorem keeps_getJobOr404 (tenant : TenantContext) (jobId : UUID) :
    Keeps env (getJobOr404 tenant jobId) := by
  refine (Keeps.query _).bind fun job => ?_
  cases job with
  | some job => exact .ret _
  | none => exact .raise _

theorem keeps_createJob (tenant : TenantContext) (file : Upload) :
    Keeps env (createJob env tenant file) := by
  refine Keeps.closing ((Keeps.liftExcept _).bind fun ⟨filename, pdfBytes⟩ => ?_)
  exact (Keeps.observe _).bind fun _ => (Keeps.observe _).bind fun _ =>
    (Keeps.send fun _ => rfl).bind fun _ => (Keeps.send fun _ => rfl).bind fun _ =>
      (Keeps.observe _).bind fun _ => (Keeps.send fun _ => rfl).bind fun _ =>
        (Keeps.act _).bind fun _ => Keeps.commitNow.bind fun _ => (Keeps.query _).bind fun _ =>
          (Keeps.act _).bind fun _ => .ret _

theorem keeps_createDispositions (tenant : TenantContext) (jobId : UUID)
    (payload : DispositionBatchRequest) :
    Keeps env (createDispositions env tenant jobId payload) := by
  refine Keeps.closing ((keeps_getJobOr404 tenant jobId).bind fun job => .ite (.raise _) ?_)
  refine Keeps.bind ?_ fun _ => Keeps.commitNow.bind fun _ => .ret _
  refine (keeps_applyDispositionBatch job payload.items tenant.userId).tryCatch fun e => ?_
  cases e <;> exact .raise _

theorem keeps_postApply (tenant : TenantContext) (jobId : UUID) :
    Keeps env (postApply tenant jobId) := by
  refine Keeps.closing ((Keeps.liftExcept _).bind fun _ =>
    (keeps_getJobOr404 tenant jobId).bind fun job => Keeps.bind ?_ fun _ =>
      Keeps.commitNow.bind fun _ => (Keeps.query _).bind fun _ => (Keeps.act _).bind fun _ => .ret _)
  refine (keeps_transitionJobStatus _ _).tryCatch fun e => ?_
  cases e <;> exact .raise _

theorem keeps_assembleExportManifest (job : RedactionJob) (chain : ChainVerifyResult)
    (redactedBytes : Bytes) : Keeps env (assembleExportManifest env job chain redactedBytes) :=
  .ite (.raise _) (.ite (.raise _) ((Keeps.observe _).bind fun _ => (Keeps.query _).bind fun _ =>
    (Keeps.observe _).bind fun _ => .ret _))

theorem keeps_exportJob (tenant : TenantContext) (jobId : UUID) :
    Keeps env (exportJob env tenant jobId) := by
  refine Keeps.closing ((Keeps.liftExcept _).bind fun _ =>
    (keeps_getJobOr404 tenant jobId).bind fun job => (Keeps.liftExcept _).bind fun _ =>
      (Keeps.query _).bind fun chain => (Keeps.liftExcept _).bind fun _ =>
        (Keeps.observe _).bind fun pdfBytes => Keeps.bind ?_ fun _ =>
          (Keeps.act _).bind fun _ => Keeps.bind ?_ fun _ => .ret _)
  · refine (keeps_assembleExportManifest job chain pdfBytes).tryCatch fun e => ?_
    cases e <;> exact .raise _
  · exact .ite ((keeps_appendAuditEntry _ _).bind fun _ =>
      (keeps_transitionJobStatus _ _).bind fun _ => .commitNow) (.ret _)

/-! ### The pipeline -/

theorem keeps_operation (operation : Operation) : Keeps env (operation.run env) := by
  cases operation with
  | deliver message =>
    cases message with
    | ingestJob jobId => exact keeps_ingestJob jobId
    | detectJob jobId => exact keeps_detectJob jobId
    | applyJob jobId reviewerId => exact keeps_applyJob jobId reviewerId
  | failJob jobId => exact (keeps_failJob jobId).bind fun _ => .ret _
  | createJob tenant file => exact (keeps_createJob tenant file).bind fun _ => .ret _
  | createDispositions tenant jobId payload =>
    exact (keeps_createDispositions tenant jobId payload).bind fun _ => .ret _
  | postApply tenant jobId => exact (keeps_postApply tenant jobId).bind fun _ => .ret _
  | exportJob tenant jobId => exact (keeps_exportJob tenant jobId).bind fun _ => .ret _

/-- **Under every schedule of the pipeline every audit chain is intact.** -/
theorem chains_of_run {s : Shared Database World} {operations : List Operation}
    {G : Guard Database Write World Input Exn Unit} {S : Pipeline} (h : Intact env s.db)
    (hr : Sys.Run G (Pipeline.start env s operations) S) : Intact env S.shared.db := by
  refine intact_of_run h (fun q hq => ?_) hr
  obtain ⟨operation, -, rfl⟩ := List.mem_map.mp hq
  exact keeps_operation operation

end

end RedactApi
