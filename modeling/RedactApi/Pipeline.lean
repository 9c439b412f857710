import RedactApi.Api.Jobs

/-!
# The pipeline as a system

Everything that is executed on jobs: deliveries of the three tasks, `fail_job`,
and the four requests, in any number and for any jobs.

`Operates` collects what a contract has to let land, one field for each commit
and each change of the world; an operation is then safe under the contract.
-/

namespace RedactApi

open ReadCommitted

inductive Operation
  | deliver (message : Message)
  | failJob (jobId : UUID)
  | createJob (tenant : TenantContext) (file : Upload)
  | createDispositions (tenant : TenantContext) (jobId : UUID) (payload : DispositionBatchRequest)
  | postApply (tenant : TenantContext) (jobId : UUID)
  | exportJob (tenant : TenantContext) (jobId : UUID)

def Operation.run (env : Env) : Operation → Tx Unit
  | deliver message => runMessage env message
  | failJob jobId => do let _ ← RedactApi.failJob jobId
  | createJob tenant file => do let _ ← RedactApi.createJob env tenant file
  | createDispositions tenant jobId payload => do
    let _ ← RedactApi.createDispositions env tenant jobId payload
  | postApply tenant jobId => do let _ ← RedactApi.postApply tenant jobId
  | exportJob tenant jobId => do let _ ← RedactApi.exportJob env tenant jobId

/-- The system of some executions. -/
abbrev Pipeline := Sys Database Write World Input Exn Unit

def Pipeline.start (env : Env) (s : Shared Database World) (operations : List Operation) :
    Pipeline :=
  Sys.start s (operations.map (·.run env))

section

variable (C : Contract Database Write World Input Exn) (env : Env)

/-- The commit is let through and keeps the contract. -/
abbrev Allows (s : Shared Database World) (p : List Write) : Prop :=
  C.allowed s p → C.Lands (fun _ _ _ => True) s p

def consumedStates : List JobStatus := [.uploaded, .ingested, .applying]

/-- The contract lets every operation do what it does. -/
structure Operates : Prop where
  pages : ∀ documentId, ToleratesPages C documentId
  enqueue : ∀ message, Tolerates C (·.enqueue message)
  manifest : ∀ jobId data, Tolerates C (·.put (Keys.exportManifestKey jobId) data)
  fails : ∀ consumes ∈ consumedStates, ∀ jobId, LandsFailure C jobId consumes fun _ => True
  ingests : ∀ s₁ s₂ job, C.inv s₁ → s₁.db.job? job.id = some job → job.status = .uploaded →
    C.After s₁ s₂ → Allows C s₂ [statusWrite job .ingested]
  detects : ∀ s₁ s₂ job p, C.inv s₁ → s₁.db.job? job.id = some job → job.status = .ingested →
    C.After s₁ s₂ → DetectedWrites (C.past s₁) job.documentId p → Free s₂.db (detectWrites job p) →
    Allows C s₂ (detectWrites job p)
  burns : ∀ (s₁ s₃ s : Shared Database World) job spans, C.inv s₁ →
    s₁.db.job? job.id = some job → job.status = .applying → C.past s₁ s₃ →
    s₃.db.approvedSpans job.documentId = .ok spans → C.After s₃ s →
    C.Acts s { s.world with burned := s.world.burned ++ [(job.id, spans)] }
  stores : ∀ (s₁ s : Shared Database World) job data, C.inv s₁ → s₁.db.job? job.id = some job →
    job.status = .applying → C.After s₁ s →
    C.Acts s (s.world.put (Keys.redactedPdfKey job.id) data)
  failsGate : ∀ s₁ s job (b : BurnIn C env s₁ job) started failed, C.inv s₁ →
    s₁.db.job? job.id = some job → job.status = .applying → C.After b.atSpans s →
    b.result.passed = false → Lifecycle job.id .applyStarted started →
    Lifecycle job.id .verifyFailed failed → Free s.db (applyFailedWrites job started failed) →
    Allows C s (applyFailedWrites job started failed)
  passesGate : ∀ (s₁ s₂ s : Shared Database World) job (b : BurnIn C env s₁ job) started passed,
    C.inv s₁ → s₁.db.job? job.id = some job → job.status = .applying → C.After b.atSpans s →
    b.result.passed = true →
    C.rely { s₂ with world := s₂.world.put (Keys.redactedPdfKey job.id) b.result.pdfBytes } s →
    Lifecycle job.id .applyStarted started → Lifecycle job.id .verifyPassed passed →
    Free s.db (applyPassedWrites job started passed) →
    Allows C s (applyPassedWrites job started passed)
  uploads : ∀ (s : Shared Database World) document job data, C.inv s → Fresh document job →
    Accepted env data → Free s.db (createWrites document job) →
    C.Acts s (s.world.put (Keys.originalPdfKey document.id) data)
  creates : ∀ s document job, C.inv s → Fresh document job →
    Free s.db (createWrites document job) → Allows C s (createWrites document job)
  disposes : ∀ s₁ s₂ tenant jobId job p, C.inv s₁ → Requested tenant jobId s₁.db job →
    job.status = .inReview → C.After s₁ s₂ →
    BatchWrites env (C.Between s₁ s₂) job tenant.userId p → Free s₂.db p → Allows C s₂ p
  starts : ∀ s₁ s₂ s₃ tenant jobId job, C.inv s₁ → Requested tenant jobId s₁.db job →
    job.status = .inReview → C.After s₁ s₂ →
    s₂.db.countUndispositionedSpans job.documentId = 0 → C.After s₂ s₃ →
    Allows C s₃ [statusWrite job .applying]
  exports : ∀ s₁ s₂ tenant jobId job exported, C.inv s₁ → Requested tenant jobId s₁.db job →
    job.status = .verified → C.After s₁ s₂ → Lifecycle job.id .exported exported →
    Free s₂.db (exportWrites job exported) → Allows C s₂ (exportWrites job exported)

variable {C env}

theorem job?_id {db : Database} {jobId : UUID} {job : RedactionJob}
    (h : db.job? jobId = some job) : job.id = jobId := by
  simpa using List.find?_some h

/-- **An operation keeps the contract** of a system it may run in.  `fail_job` on
its own, outside a task, takes any job that can fail. -/
theorem Operates.safe (h : Operates C env) (operation : Operation) {s : Shared Database World}
    (hfail : ∀ jobId, operation = .failJob jobId → ∀ s₁ s₂ job, C.After s s₁ →
      s₁.db.job? jobId = some job → .failed ∈ validTransitions job.status → C.After s₁ s₂ →
      Allows C s₂ [failWrite job])
    (hi : C.inv s) : C.Safe (operation.run env) s [] := by
  cases operation with
  | deliver message =>
    cases message with
    | ingestJob jobId =>
      refine safe_ingestJob h.pages (h.enqueue _) (h.fails _ (by decide) jobId) fun s₁ s₂ job hi₁ hjob => ?_
      exact h.ingests s₁ s₂ job hi₁ (job?_id hjob ▸ hjob)
    | detectJob jobId =>
      refine safe_detectJob (h.fails _ (by decide) jobId) fun s₁ s₂ job p hi₁ hjob hst h₂ hp _ => ?_
      exact h.detects s₁ s₂ job p hi₁ (job?_id hjob ▸ hjob) hst h₂ hp
    | applyJob jobId reviewerId =>
      refine safe_applyJob (h.fails _ (by decide) jobId) ?_ ?_ ?_ ?_
      · exact fun s₁ s₃ s job spans hi₁ hjob => h.burns s₁ s₃ s job spans hi₁ (job?_id hjob ▸ hjob)
      · exact fun s₁ s job data hi₁ hjob => h.stores s₁ s job data hi₁ (job?_id hjob ▸ hjob)
      · exact fun s₁ s job b started failed hi₁ hjob =>
          h.failsGate s₁ s job b started failed hi₁ (job?_id hjob ▸ hjob)
      · exact fun s₁ s₂ s job b started passed hi₁ hjob =>
          h.passesGate s₁ s₂ s job b started passed hi₁ (job?_id hjob ▸ hjob)
  | failJob jobId => exact Contract.wp_bind (safe_failJob (hfail jobId rfl))
  | createJob tenant file =>
    exact Contract.wp_bind (safe_createJob (fun _ => h.enqueue _) h.uploads h.creates hi)
  | createDispositions tenant jobId payload =>
    exact Contract.wp_bind (safe_createDispositions fun s₁ s₂ job p hi₁ hjob =>
      h.disposes s₁ s₂ tenant jobId job p hi₁ hjob)
  | postApply tenant jobId =>
    exact Contract.wp_bind (safe_postApply (fun _ => h.enqueue _)
      (fun s₁ s₂ s₃ job hi₁ hjob => h.starts s₁ s₂ s₃ tenant jobId job hi₁ hjob) hi)
  | exportJob tenant jobId =>
    exact Contract.wp_bind (safe_exportJob (h.manifest jobId)
      (fun s₁ s₂ job exported hi₁ hjob => h.exports s₁ s₂ tenant jobId job exported hi₁ hjob) hi)

end

end RedactApi
