import RedactApi.Ingest.Service
import RedactApi.Redaction.Apply
import RedactApi.Services.Detection
import RedactApi.Tasks.Support

/-!
# The three tasks

`tasks/ingest_job.py`, `tasks/detect_job.py`, `tasks/apply_job.py`.  Each loads
the job, does nothing unless the job is in the state the task consumes, does its
work in one transaction, and on any exception rolls back and fails the job.

`session` of a task is what runs inside `async with`; the message it chains, if
any, is sent after the session is closed.
-/

namespace RedactApi

open ReadCommitted

/-! ### Ingest -/

def ingestWork (env : Env) (job : RedactionJob) : Tx Unit := do
  let pdfBytes ← downloadBytes (Keys.originalPdfKey job.documentId)
  let _ ← ingestPdf env job.documentId pdfBytes
  let _ ← transitionJobStatus (track job) .ingested
  Prog.commitNow

/-- The ingest rejections, which complete the task normally. -/
def Exn.isIngestRejection : Exn → Bool
  | .documentTooLarge _ _ _ | .encryptedPdf _ | .malformedPdf _ | .unsupportedPage _ => true
  | _ => false

/-- Tells whether detection is to be enqueued. -/
def ingestSession (env : Env) (jobId : UUID) : Tx Bool :=
  guardedTask .uploaded jobId false (fun job => do ingestWork env job; return true) fun e =>
    if e.isIngestRejection then return false else .raise e

def ingestJob (env : Env) (jobId : UUID) : Tx Unit := do
  let ingested ← (ingestSession env jobId).closing
  if ingested then kiq (.detectJob jobId) else return ()

/-! ### Detect -/

def detectWork (env : Env) (job : RedactionJob) : Tx Unit := do
  let pdfBytes ← downloadBytes (Keys.originalPdfKey job.documentId)
  let extractions ← compute (extractPages env pdfBytes)
  let _ ← runDetection env job.documentId (extractions.map (·.page))
  let job ← transitionJobStatus (track job) .detected
  let _ ← transitionJobStatus job .inReview
  Prog.commitNow

def detectSession (env : Env) (jobId : UUID) : Tx Unit :=
  guardedTask .ingested jobId () (detectWork env) .raise

def detectJob (env : Env) (jobId : UUID) : Tx Unit := (detectSession env jobId).closing

/-! ### Apply -/

/-- The verdict and the check summaries, as canonical JSON. -/
def verifyVerdictCategory (result : ApplyResult) : String :=
  String.ofList (Json.dumps (.obj
    [("verdict", .str result.verifyResult.verdict.value),
     ("checks", .arr (result.verifyResult.checks.map fun check => .obj
        [("check_type", .str check.checkType.value),
         ("passed", .bool check.passed),
         ("pages_checked", .num check.pagesChecked)]))]))

/-- A job-level event: no span, no text. -/
def lifecycleEvent (action : AuditAction) (category : String) (reviewerId : UUID) :
    AuditEntryInput :=
  ⟨action, category, none, reviewerId, none⟩

/-- `UUID(reviewer_id)`. -/
def parseReviewer : Option UUID → Except Exn UUID
  | some reviewer => .ok reviewer
  | none => .error (.value "badly formed hexadecimal UUID string")

/-- The call of `apply`, recorded in the history of burn-ins. -/
def burn (env : Env) (jobId : UUID) (originalBytes : Bytes) (spans : List ApprovedSpan) :
    Tx ApplyResult := do
  act fun w => { w with burned := w.burned ++ [(jobId, spans)] }
  compute (apply env originalBytes spans)

/-- The gate failed: record it and fail the job. -/
def landFailed (env : Env) (job : RedactionJob) (reviewer : UUID) (result : ApplyResult) :
    Tx Unit := do
  let _ ← appendAuditEntry env job.id
    (lifecycleEvent .verifyFailed (verifyVerdictCategory result) reviewer)
  let _ ← transitionJobStatus (track job) .failed
  Prog.commitNow

/-- The gate passed: record it, store the redacted PDF, and advance to `verified`. -/
def landVerified (env : Env) (job : RedactionJob) (reviewer : UUID) (result : ApplyResult) :
    Tx Unit := do
  let _ ← appendAuditEntry env job.id
    (lifecycleEvent .verifyPassed (verifyVerdictCategory result) reviewer)
  let redactedKey := Keys.redactedPdfKey job.id
  uploadBytes redactedKey result.pdfBytes
  let _ ← transitionJobStatus ⟨job, { job with redactedPdfKey := some redactedKey }⟩ .verified
  Prog.commitNow

def applyWork (env : Env) (job : RedactionJob) (reviewerId : Option UUID) : Tx Unit := do
  let reviewer ← liftExcept (parseReviewer reviewerId)
  let originalBytes ← downloadBytes (Keys.originalPdfKey job.documentId)
  let approvedSpans ← projectApprovedSpans job
  let _ ← appendAuditEntry env job.id (lifecycleEvent .applyStarted jobLifecycleCategory reviewer)
  let result ← burn env job.id originalBytes approvedSpans
  if result.passed then landVerified env job reviewer result
  else landFailed env job reviewer result

def applySession (env : Env) (jobId : UUID) (reviewerId : Option UUID) : Tx Unit :=
  guardedTask .applying jobId () (applyWork env · reviewerId) .raise

def applyJob (env : Env) (jobId : UUID) (reviewerId : Option UUID) : Tx Unit :=
  (applySession env jobId reviewerId).closing

def runMessage (env : Env) : Message → Tx Unit
  | .ingestJob jobId => ingestJob env jobId
  | .detectJob jobId => detectJob env jobId
  | .applyJob jobId reviewerId => applyJob env jobId reviewerId

/-! ### What the tasks commit

Each task keeps a contract that lets its commits land.  What is known at a commit
is what was read since the job was loaded, at `s₁`. -/

section

variable {C : Contract Database Write World Input Exn} {s : Shared Database World} {env : Env}
  {jobId : UUID} {R : Shared Database World → Prop}

def statusWrite (job : RedactionJob) (newStatus : JobStatus) : Write :=
  .updateJob job { job with status := newStatus }

/-- What the extraction makes of the stored original. -/
def extractStored (env : Env) : Option Bytes → Except Exn (List PageExtraction)
  | none => .error (.external "NoSuchKey")
  | some pdfBytes => validateFileSize env pdfBytes >>= fun _ => extractPages env pdfBytes

/-- The work of an ingest raises if the stored original cannot be extracted; else it
commits the move to `ingested`. -/
theorem wp_ingestWork {job : RedactionJob} {Q : Unit → Shared Database World → List Write → Prop}
    {E : Exn → Shared Database World → List Write → Prop}
    (hput : ToleratesPages C job.documentId) (hst : job.status = .uploaded)
    (hF : ∀ e s' p, C.fault e → C.After s s' → E e s' p)
    (hE : ∀ e s₁ s₂, C.After s s₁ →
      extractStored env (s₁.world.objects (Keys.originalPdfKey job.documentId)) = .error e →
      C.After s₁ s₂ → E e s₂ [])
    (hQ : ∀ extractions s₁ s₂, C.After s s₁ →
      extractStored env (s₁.world.objects (Keys.originalPdfKey job.documentId)) = .ok extractions →
      C.After s₁ s₂ → C.allowed s₂ [statusWrite job .ingested] →
      C.Lands Q s₂ [statusWrite job .ingested]) :
    C.wp (ingestWork env job) Q E s [] := by
  refine Contract.wp_bind (wp_observe_cases (fun e s' he hn => hF e s' [] he hn.after)
    (fun s₁ _ pdfBytes hn₁ _ hdata => ?_) fun s₁ _ e hn₁ he => ?_)
  · have hobject := downloaded hdata
    have h₁ := hn₁.after
    refine Contract.wp_bind (wp_ingestPdf hput (fun e s' he h => hF e s' [] he (h₁.trans h))
      (fun e s₂ he h₂ => hE e s₁ s₂ h₁ (by rw [hobject]; exact he) h₂) fun _ s₂ hok h₂ => ?_)
    obtain ⟨extractions, hok⟩ := hok
    have h₁₂ := h₁.trans h₂
    refine Contract.wp_bind (wp_transition_edge (by simp [track, hst, validTransitions]) (by decide)
      (fun e s' he hn => hF e s' _ he (h₁₂.trans hn.after)) fun s₃ hn₃ => ?_)
    refine Contract.wp_commit (fun e s' he hn => hF e s' _ he (h₁₂.trans (hn₃.after.trans hn.after)))
      fun s₄ hn₄ hal => ?_
    exact hQ extractions s₁ s₄ h₁ (by rw [hobject]; exact hok)
      ((h₂.trans hn₃.after).trans hn₄.after) hal
  · refine hE e s₁ s₁ hn₁.after ?_ (.self hn₁.inv)
    revert he
    cases s₁.world.objects (Keys.originalPdfKey job.documentId) with
    | none => exact fun h => by cases h; rfl
    | some data => exact fun h => by cases h

/-- **Ingest** commits the move to `ingested` and nothing else. -/
theorem safe_ingestJob (hput : ∀ documentId, ToleratesPages C documentId)
    (hkiq : Tolerates C (·.enqueue (.detectJob jobId)))
    (hfail : LandsFailure C jobId .uploaded fun _ => True)
    (hcommit : ∀ s₁ s₂ job, C.inv s₁ → s₁.db.job? jobId = some job → job.status = .uploaded →
      C.After s₁ s₂ → C.allowed s₂ [statusWrite job .ingested] →
      C.Lands (fun _ _ _ => True) s₂ [statusWrite job .ingested]) :
    C.Safe (ingestJob env jobId) s [] := by
  refine Contract.wp_bind (Contract.wp_mono (fun ingested s' p' _ => ?_) (fun _ _ _ h => h) _
    (safe_closing (safe_guardedTask hfail ?_ ?_)))
  · cases ingested
    · trivial
    · exact wp_act_tolerated hkiq (anything_escapes s').fault fun _ _ => trivial
  · intro e s' p'
    show C.wp (if e.isIngestRejection then _ else _) _ _ s' p'
    split <;> trivial
  · intro s₁ job hi hjob hst
    refine Contract.wp_bind (wp_ingestWork (hput _) hst (fun _ _ _ _ h => h)
      (fun _ _ _ h _ h' => h.trans h') fun _ s₂ s₃ h₂ _ h₃ hal => ?_)
    obtain ⟨hi', hg, -⟩ := hcommit s₁ s₃ job hi hjob hst (h₂.trans h₃) hal
    exact ⟨hi', hg, trivial⟩

/-- The writes of a detection: pages and spans, then two moves of the job. -/
def detectWrites (job : RedactionJob) (p : List Write) : List Write :=
  p ++ [statusWrite job .detected] ++ [statusWrite { job with status := .detected } .inReview]

variable (C env) in
/-- The spans of a detection lie on pages that were extracted from the stored original. -/
def OnOriginal (s₁ : Shared Database World) (job : RedactionJob) (p : List Write) : Prop :=
  ∃ s pdfBytes extractions, C.past s₁ s ∧
    s.world.objects (Keys.originalPdfKey job.documentId) = some pdfBytes ∧
    extractPages env pdfBytes = .ok extractions ∧
    OnPages (C.past s₁) (fun page => page.documentId = job.documentId ∧
      ∃ e ∈ extractions, e.page.pageNumber = page.pageNumber) p

/-- The work of a detection raises, or commits pages and spans with two moves of the job. -/
theorem tries_detectWork {job : RedactionJob} (hst : job.status = .ingested)
    (hcommit : ∀ s₂ p, C.After s s₂ → DetectedWrites (C.past s) job.documentId p →
      OnOriginal C env s job p → Free s₂.db (detectWrites job p) →
      C.allowed s₂ (detectWrites job p) → C.Lands (fun _ s _ => R s) s₂ (detectWrites job p)) :
    Tries C R (detectWork env job) s := by
  have hE := C.escapes_after s
  refine Contract.wp_bind (wp_observe hE fun s₂ _ pdfBytes hn₂ _ hdata => ?_)
  have horiginal := downloaded hdata
  refine Contract.wp_bind (wp_compute (hE.after hn₂.after) fun s₃ extractions hn₃ hextract => ?_)
  have h₃ := hn₂.after.trans hn₃.after
  refine Contract.wp_bind (wp_runDetection (hE.after h₃) ?_ fun n s₄ p h₄ hp hon => ?_)
  · intro page hpage
    obtain ⟨e, he, rfl⟩ := List.mem_map.mp hpage
    exact extractPages_pageNumber hextract e he
  have hwrites := hp.mono fun _ h => C.past_trans h₃.past h
  have honOriginal : OnOriginal C env s job p := by
    refine ⟨s₂, pdfBytes, extractions, hn₂.after.past, horiginal, hextract,
      hon.mono (fun _ h => C.past_trans h₃.past h) fun row hrow => ⟨hrow.1, ?_⟩⟩
    obtain ⟨page, hpage, hnumber⟩ := hrow.2
    obtain ⟨e, he, rfl⟩ := List.mem_map.mp hpage
    exact ⟨e, he, hnumber⟩
  have hE₄ := hE.after (h₃.trans h₄)
  refine Contract.wp_bind (wp_transition_edge (by simp [track, hst, validTransitions]) (by decide)
    hE₄.fault fun s₅ hn₅ => ?_)
  have hE₅ := hE₄.after hn₅.after
  refine Contract.wp_bind (wp_transition_edge (by simp [track, validTransitions]) (by decide)
    hE₅.fault fun s₆ hn₆ => ?_)
  refine Contract.wp_commit (hE₅.after hn₆.after).fault fun s₇ hn₇ hal => ?_
  exact hcommit s₇ p ((((h₃.trans h₄).trans hn₅.after).trans hn₆.after).trans hn₇.after) hwrites
    honOriginal hn₇.free hal

/-- **Detect** commits pages and spans with the moves to `detected` and `inReview`. -/
theorem ends_detectJob (hR : Ending C R)
    (hskip : ∀ s', C.inv s' → (∀ job, s'.db.job? jobId = some job → job.status ≠ .ingested) → R s')
    (hfail : LandsFailure C jobId .ingested R) (hidle : LeavesFailure C jobId .ingested R)
    (hcommit : ∀ s₁ s₂ job p, C.inv s₁ → s₁.db.job? jobId = some job → job.status = .ingested →
      C.After s₁ s₂ → DetectedWrites (C.past s₁) job.documentId p → OnOriginal C env s₁ job p →
      Free s₂.db (detectWrites job p) → C.allowed s₂ (detectWrites job p) →
      C.Lands (fun _ s _ => R s) s₂ (detectWrites job p)) :
    C.wp (detectJob env jobId) (fun _ s _ => R s) (fun _ s _ => R s) s [] := by
  exact ends_closing hR (ends_guardedTask hR hskip hfail hidle (fun _ _ _ h => h)
    fun s₁ job hi hjob hst => tries_detectWork hst fun s₂ p => hcommit s₁ s₂ job p hi hjob hst)

theorem safe_detectJob (hfail : LandsFailure C jobId .ingested fun _ => True)
    (hcommit : ∀ s₁ s₂ job p, C.inv s₁ → s₁.db.job? jobId = some job → job.status = .ingested →
      C.After s₁ s₂ → DetectedWrites (C.past s₁) job.documentId p → OnOriginal C env s₁ job p →
      Free s₂.db (detectWrites job p) → C.allowed s₂ (detectWrites job p) →
      C.Lands (fun _ _ _ => True) s₂ (detectWrites job p)) : C.Safe (detectJob env jobId) s [] :=
  ends_detectJob (ending_anywhere C) (fun _ _ _ => trivial) hfail
    (fun _ _ _ _ _ _ _ _ => trivial) hcommit

structure Lifecycle (jobId : UUID) (action : AuditAction) (e : AuditEntry) : Prop where
  job : e.jobId = jobId
  span : e.spanId = none
  action : e.action = action

/-- The job-level entry that records what the gate said. -/
structure Verdict (jobId : UUID) (action : AuditAction) (result : ApplyResult) (e : AuditEntry) :
    Prop extends Lifecycle jobId action e where
  category : e.category = verifyVerdictCategory result

variable (C env) in
/-- What a delivery has read, from the load of the job at `s₁` to the result of
the burn-in. -/
structure BurnIn (s₁ : Shared Database World) (job : RedactionJob) where
  bytes : Bytes
  spans : List ApprovedSpan
  result : ApplyResult
  atOriginal : Shared Database World
  atSpans : Shared Database World
  past_original : C.past s₁ atOriginal
  original : atOriginal.world.objects (Keys.originalPdfKey job.documentId) = some bytes
  past_spans : C.past atOriginal atSpans
  approved : atSpans.db.approvedSpans job.documentId = .ok spans
  applied : apply env bytes spans = .ok result

theorem BurnIn.since {s₁ s : Shared Database World} {job : RedactionJob} (b : BurnIn C env s₁ job)
    (h : C.After b.atSpans s) : C.After s₁ s :=
  ⟨h.inv, C.past_trans (C.past_trans b.past_original b.past_spans) h.past⟩

def applyFailedWrites (job : RedactionJob) (started failed : AuditEntry) : List Write :=
  [.insertAudit started, .insertAudit failed, statusWrite job .failed]

/-- The job a delivery lands when the gate passed. -/
def verifiedJob (job : RedactionJob) : RedactionJob :=
  { job with redactedPdfKey := some (Keys.redactedPdfKey job.id), status := .verified }

def applyPassedWrites (job : RedactionJob) (started passed : AuditEntry) : List Write :=
  [.insertAudit started, .insertAudit passed, .updateJob job (verifiedJob job)]

/-- The work of a delivery raises, or commits two entries with one move of the job; the second
records the verdict. -/
theorem tries_applyWork_verdict {job : RedactionJob} {reviewerId : Option UUID} (hi : C.inv s)
    (hst : job.status = .applying)
    (hburn : ∀ (s₃ s' : Shared Database World) spans, C.past s s₃ →
      s₃.db.approvedSpans job.documentId = .ok spans → C.After s₃ s' →
      C.Acts s' { s'.world with burned := s'.world.burned ++ [(job.id, spans)] })
    (hupload : ∀ (s' : Shared Database World) data, C.After s s' →
      C.Acts s' (s'.world.put (Keys.redactedPdfKey job.id) data))
    (hfailed : ∀ s' (b : BurnIn C env s job) started failed, C.After b.atSpans s' →
      b.result.passed = false → Lifecycle job.id .applyStarted started →
      Verdict job.id .verifyFailed b.result failed → Free s'.db (applyFailedWrites job started failed) →
      C.allowed s' (applyFailedWrites job started failed) →
      C.Lands (fun _ s _ => R s) s' (applyFailedWrites job started failed))
    (hpassed : ∀ (s₂ s' : Shared Database World) (b : BurnIn C env s job) started passed,
      C.After b.atSpans s' → b.result.passed = true →
      C.rely { s₂ with world := s₂.world.put (Keys.redactedPdfKey job.id) b.result.pdfBytes } s' →
      Lifecycle job.id .applyStarted started → Verdict job.id .verifyPassed b.result passed →
      Free s'.db (applyPassedWrites job started passed) →
      C.allowed s' (applyPassedWrites job started passed) →
      C.Lands (fun _ s _ => R s) s' (applyPassedWrites job started passed)) :
    Tries C R (applyWork env job reviewerId) s := by
  have hE := C.escapes_after s
  refine Contract.wp_bind (wp_liftExcept hi hE fun reviewer _ => ?_)
  refine Contract.wp_bind (wp_observe hE fun s₂ _ bytes hn₂ _ horiginal => ?_)
  have horig := downloaded horiginal
  have hE₂ := hE.after hn₂.after
  refine Contract.wp_bind (Contract.wp_bind (Contract.wp_query hE₂.fault fun s₃ hn₃ => ?_))
  have h₃ := hn₂.after.trans hn₃.after
  have hE₃ := hE.after h₃
  refine wp_liftExcept hn₃.inv hE₃ fun spans hspans => ?_
  refine Contract.wp_bind (wp_appendAuditEntry hE₃ ?_)
  intro s₄ s₅ s₆ row id createdAt started hn₄ hn₅ hn₆ _ _ hstarted _
  have h₆ := (hn₄.after.trans hn₅.after).trans hn₆.after
  have hlife : Lifecycle job.id .applyStarted started := by
    rw [hstarted]
    exact ⟨rfl, rfl, rfl⟩
  refine Contract.wp_bind (Contract.wp_bind (wp_act (hE₃.after h₆).fault fun s₇ hn₇ => ?_))
  have h₇ := h₆.trans hn₇.after
  have hacts := hburn s₃ s₇ spans h₃.past hspans h₇
  have hE₇ := hE₃.after (h₇.act hacts)
  refine ⟨hacts, wp_compute hE₇ fun s₈ result hn₈ hresult => ?_⟩
  have h₈ := (h₇.act hacts).trans hn₈.after
  have hE₈ := hE₃.after h₈
  let b : BurnIn C env s job :=
    ⟨bytes, spans, result, s₂, s₃, hn₂.after.past, horig, hn₃.after.past, hspans, hresult⟩
  show C.wp (if result.passed then _ else _) _ _ s₈ _
  split
  · rename_i hpass
    refine Contract.wp_bind (wp_appendAuditEntry hE₈ ?_)
    intro s₉ s₁₀ s₁₁ row' id' createdAt' passed hn₉ hn₁₀ hn₁₁ _ _ hverdict _
    have hlife' : Verdict job.id .verifyPassed result passed := by
      rw [hverdict]
      exact ⟨⟨rfl, rfl, rfl⟩, rfl⟩
    have h₁₁ := h₈.trans ((hn₉.after.trans hn₁₀.after).trans hn₁₁.after)
    refine Contract.wp_bind (wp_act (hE₃.after h₁₁).fault fun s₁₂ hn₁₂ => ?_)
    have h₁₂ := h₁₁.trans hn₁₂.after
    have hput := hupload s₁₂ result.pdfBytes (h₃.trans h₁₂)
    have hE₁₂ := hE₃.after (h₁₂.act hput)
    refine ⟨hput, Contract.wp_bind (wp_transition_edge (by simp [hst, validTransitions]) (by decide)
      hE₁₂.fault fun s₁₃ hn₁₃ => ?_)⟩
    refine Contract.wp_commit (hE₁₂.after hn₁₃.after).fault fun s₁₄ hn₁₄ hal => ?_
    have h₁₄ := ((h₁₂.act hput).trans hn₁₃.after).trans hn₁₄.after
    exact hpassed s₁₂ s₁₄ b started passed h₁₄ hpass
      (C.rely_trans hn₁₃.rely hn₁₄.rely) hlife hlife' hn₁₄.free hal
  · rename_i hpass
    refine Contract.wp_bind (wp_appendAuditEntry hE₈ ?_)
    intro s₉ s₁₀ s₁₁ row' id' createdAt' failed hn₉ hn₁₀ hn₁₁ _ _ hverdict _
    have hlife' : Verdict job.id .verifyFailed result failed := by
      rw [hverdict]
      exact ⟨⟨rfl, rfl, rfl⟩, rfl⟩
    have h₁₁ := h₈.trans ((hn₉.after.trans hn₁₀.after).trans hn₁₁.after)
    have hE₁₁ := hE₃.after h₁₁
    refine Contract.wp_bind (wp_transition_edge (by simp [track, hst, validTransitions]) (by decide)
      hE₁₁.fault fun s₁₂ hn₁₂ => ?_)
    refine Contract.wp_commit (hE₁₁.after hn₁₂.after).fault fun s₁₃ hn₁₃ hal => ?_
    exact hfailed s₁₃ b started failed
      ((h₁₁.trans hn₁₂.after).trans hn₁₃.after) (by simpa using hpass) hlife hlife' hn₁₃.free hal

theorem tries_applyWork {job : RedactionJob} {reviewerId : Option UUID} (hi : C.inv s)
    (hst : job.status = .applying)
    (hburn : ∀ (s₃ s' : Shared Database World) spans, C.past s s₃ →
      s₃.db.approvedSpans job.documentId = .ok spans → C.After s₃ s' →
      C.Acts s' { s'.world with burned := s'.world.burned ++ [(job.id, spans)] })
    (hupload : ∀ (s' : Shared Database World) data, C.After s s' →
      C.Acts s' (s'.world.put (Keys.redactedPdfKey job.id) data))
    (hfailed : ∀ s' (b : BurnIn C env s job) started failed, C.After b.atSpans s' →
      b.result.passed = false → Lifecycle job.id .applyStarted started →
      Lifecycle job.id .verifyFailed failed → Free s'.db (applyFailedWrites job started failed) →
      C.allowed s' (applyFailedWrites job started failed) →
      C.Lands (fun _ s _ => R s) s' (applyFailedWrites job started failed))
    (hpassed : ∀ (s₂ s' : Shared Database World) (b : BurnIn C env s job) started passed,
      C.After b.atSpans s' → b.result.passed = true →
      C.rely { s₂ with world := s₂.world.put (Keys.redactedPdfKey job.id) b.result.pdfBytes } s' →
      Lifecycle job.id .applyStarted started → Lifecycle job.id .verifyPassed passed →
      Free s'.db (applyPassedWrites job started passed) →
      C.allowed s' (applyPassedWrites job started passed) →
      C.Lands (fun _ s _ => R s) s' (applyPassedWrites job started passed)) :
    Tries C R (applyWork env job reviewerId) s :=
  tries_applyWork_verdict hi hst hburn hupload
    (fun s' b started failed h hres hstarted hverdict =>
      hfailed s' b started failed h hres hstarted hverdict.toLifecycle)
    fun s₂ s' b started passed h hres hrely hstarted hverdict =>
      hpassed s₂ s' b started passed h hres hrely hstarted hverdict.toLifecycle

/-- **Apply** commits two entries with the move to `failed` or to `verified`. -/
theorem ends_applyJob {reviewerId : Option UUID} (hR : Ending C R)
    (hskip : ∀ s', C.inv s' → (∀ job, s'.db.job? jobId = some job → job.status ≠ .applying) → R s')
    (hfail : LandsFailure C jobId .applying R) (hidle : LeavesFailure C jobId .applying R)
    (hburn : ∀ (s₁ s₃ s : Shared Database World) job spans, C.inv s₁ → s₁.db.job? jobId = some job →
      job.status = .applying → C.past s₁ s₃ → s₃.db.approvedSpans job.documentId = .ok spans →
      C.After s₃ s → C.Acts s { s.world with burned := s.world.burned ++ [(job.id, spans)] })
    (hupload : ∀ (s₁ s : Shared Database World) job data, C.inv s₁ →
      s₁.db.job? jobId = some job → job.status = .applying → C.After s₁ s →
      C.Acts s (s.world.put (Keys.redactedPdfKey job.id) data))
    (hfailed : ∀ s₁ s job (b : BurnIn C env s₁ job) started failed, C.inv s₁ →
      s₁.db.job? jobId = some job → job.status = .applying → C.After b.atSpans s →
      b.result.passed = false → Lifecycle job.id .applyStarted started →
      Lifecycle job.id .verifyFailed failed → Free s.db (applyFailedWrites job started failed) →
      C.allowed s (applyFailedWrites job started failed) →
      C.Lands (fun _ s _ => R s) s (applyFailedWrites job started failed))
    (hpassed : ∀ (s₁ s₂ s : Shared Database World) job (b : BurnIn C env s₁ job) started passed,
      C.inv s₁ →
      s₁.db.job? jobId = some job → job.status = .applying → C.After b.atSpans s →
      b.result.passed = true →
      C.rely { s₂ with world := s₂.world.put (Keys.redactedPdfKey job.id) b.result.pdfBytes } s →
      Lifecycle job.id .applyStarted started → Lifecycle job.id .verifyPassed passed →
      Free s.db (applyPassedWrites job started passed) →
      C.allowed s (applyPassedWrites job started passed) →
      C.Lands (fun _ s _ => R s) s (applyPassedWrites job started passed)) :
    C.wp (applyJob env jobId reviewerId) (fun _ s _ => R s) (fun _ s _ => R s) s [] := by
  exact ends_closing hR (ends_guardedTask hR hskip hfail hidle (fun _ _ _ h => h)
    fun s₁ job hi hjob hst => tries_applyWork hi hst
      (fun s₃ s spans => hburn s₁ s₃ s job spans hi hjob hst)
      (fun s data => hupload s₁ s job data hi hjob hst)
      (fun s b started failed => hfailed s₁ s job b started failed hi hjob hst)
      fun s₂ s b started passed => hpassed s₁ s₂ s job b started passed hi hjob hst)

theorem safe_applyJob {reviewerId : Option UUID}
    (hfail : LandsFailure C jobId .applying fun _ => True)
    (hburn : ∀ (s₁ s₃ s : Shared Database World) job spans, C.inv s₁ → s₁.db.job? jobId = some job →
      job.status = .applying → C.past s₁ s₃ → s₃.db.approvedSpans job.documentId = .ok spans →
      C.After s₃ s → C.Acts s { s.world with burned := s.world.burned ++ [(job.id, spans)] })
    (hupload : ∀ (s₁ s : Shared Database World) job data, C.inv s₁ →
      s₁.db.job? jobId = some job → job.status = .applying → C.After s₁ s →
      C.Acts s (s.world.put (Keys.redactedPdfKey job.id) data))
    (hfailed : ∀ s₁ s job (b : BurnIn C env s₁ job) started failed, C.inv s₁ →
      s₁.db.job? jobId = some job → job.status = .applying → C.After b.atSpans s →
      b.result.passed = false → Lifecycle job.id .applyStarted started →
      Lifecycle job.id .verifyFailed failed → Free s.db (applyFailedWrites job started failed) →
      C.allowed s (applyFailedWrites job started failed) →
      C.Lands (fun _ _ _ => True) s (applyFailedWrites job started failed))
    (hpassed : ∀ (s₁ s₂ s : Shared Database World) job (b : BurnIn C env s₁ job) started passed,
      C.inv s₁ →
      s₁.db.job? jobId = some job → job.status = .applying → C.After b.atSpans s →
      b.result.passed = true →
      C.rely { s₂ with world := s₂.world.put (Keys.redactedPdfKey job.id) b.result.pdfBytes } s →
      Lifecycle job.id .applyStarted started → Lifecycle job.id .verifyPassed passed →
      Free s.db (applyPassedWrites job started passed) →
      C.allowed s (applyPassedWrites job started passed) →
      C.Lands (fun _ _ _ => True) s (applyPassedWrites job started passed)) :
    C.Safe (applyJob env jobId reviewerId) s [] :=
  ends_applyJob (ending_anywhere C) (fun _ _ _ => trivial) hfail (fun _ _ _ _ _ _ _ _ => trivial)
    hburn hupload hfailed hpassed

end

end RedactApi
