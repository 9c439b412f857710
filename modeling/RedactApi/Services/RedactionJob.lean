import Mathlib.Data.List.Sort
import RedactApi.HashChain
import RedactApi.Json
import RedactApi.Redaction.VerifyGate

/-!
# The job state machine and the audit chain

`services/redaction_job_service.py`: the allowed status edges, the guarded
transition, and the append-only audit entries chained by hashes.

A row the session has loaded is a `Tracked` object: its attributes as they were
last read or flushed, and as they are now.  The object does not follow what
other transactions commit in the meantime.  Where a row is queried again, the model
returns it as it stands.
-/

namespace RedactApi

open ReadCommitted

/-- An object of the session: as last synchronised, and as it is now. -/
structure Tracked (α : Type) where
  loaded : α
  row : α
  deriving DecidableEq, Repr

def track {α : Type} (row : α) : Tracked α := ⟨row, row⟩

/-! ### Queries -/

def Database.job? (db : Database) (jobId : UUID) : Option RedactionJob :=
  db.jobs.find? (·.id = jobId)

def Database.spanRows (db : Database) (documentId : UUID) : List (Span × Page) :=
  db.spans.flatMap fun span =>
    (db.pages.filter fun page => page.id = span.pageId ∧ page.documentId = documentId).map
      fun page => (span, page)

def Database.disposition? (db : Database) (spanId : UUID) : Option Disposition :=
  db.dispositions.find? (·.spanId = spanId)

def Database.entries (db : Database) (jobId : UUID) : List AuditEntry :=
  db.auditEntries.filter (·.jobId = jobId)

def Database.entriesBySequence (db : Database) (jobId : UUID) : List AuditEntry :=
  (db.entries jobId).insertionSort fun a b => a.sequence ≤ b.sequence

def Database.countUndispositionedSpans (db : Database) (documentId : UUID) : Nat :=
  ((db.spanRows documentId).filter fun r => (db.disposition? r.1.id).isNone).length

/-! ### Transitions -/

def genesisPrevHash : String := String.ofList (List.replicate 64 '0')

def jobLifecycleCategory : String := "job_lifecycle"

def validTransitions : JobStatus → List JobStatus
  | .uploaded => [.ingested, .failed]
  | .ingested => [.detected, .failed]
  | .detected => [.inReview, .failed]
  | .inReview => [.applying, .failed]
  | .applying => [.verified, .failed]
  | .verified => [.exported, .failed]
  | .exported => []
  | .failed => []

def flushJob (job : Tracked RedactionJob) : Tx (Tracked RedactionJob) := do
  Prog.send (.updateJob job.loaded job.row)
  return track job.row

def transitionMessage (job : RedactionJob) (newStatus : JobStatus) : String :=
  s!"Cannot transition job {job.id.str} from {job.status.value} to {newStatus.value}"

def undispositionedMessage (job : RedactionJob) (n : Nat) : String :=
  s!"Job {job.id.str} has {n} undispositioned span(s); cannot move to APPLYING"

/-- The move to `applying` counts the spans without a disposition first. -/
def checkDispositioned (job : RedactionJob) (newStatus : JobStatus) : Tx Unit :=
  if newStatus = .applying then do
    let undispositioned ← Prog.query (·.countUndispositionedSpans job.documentId)
    if undispositioned ≠ 0 then
      .raise (.undispositionedSpans (undispositionedMessage job undispositioned))
    else .ret ()
  else .ret ()

/-- Both checks read the loaded object; the status is set and flushed after them. -/
def transitionJobStatus (job : Tracked RedactionJob) (newStatus : JobStatus) :
    Tx (Tracked RedactionJob) :=
  if newStatus ∉ validTransitions job.row.status then
    .raise (.invalidStateTransition (transitionMessage job.row newStatus))
  else do
    checkDispositioned job.row newStatus
    flushJob { job with row := { job.row with status := newStatus } }

/-! ### Audit entries -/

structure AuditEntryInput where
  action : AuditAction
  category : String
  text : Option String
  reviewerId : UUID
  spanId : Option UUID
  deriving DecidableEq, Repr

/-- `SHA-256(prev_hash + canonical JSON)`. -/
def computeEntryHash (env : Env) (prevHash : String) (payload : Json.Value) : String :=
  env.hashHex (prevHash ++ String.ofList (Json.dumps payload))

def chainPayload (jobId : UUID) (spanId : Option UUID) (action : AuditAction) (category : String)
    (reviewerId : UUID) (createdAt : DateTime) : Json.Value :=
  .obj
    [("job_id", .str jobId.str),
     ("span_id", match spanId with
       | some id => .str id.str
       | none => .null),
     ("action", .str action.value),
     ("category", .str category),
     ("reviewer", .str reviewerId.str),
     ("created_at", .str (String.ofList createdAt.isoformat))]

def inputPayload (event : AuditEntryInput) (jobId : UUID) (createdAt : DateTime) : Json.Value :=
  chainPayload jobId event.spanId event.action event.category event.reviewerId createdAt

def entryPayload (entry : AuditEntry) : Json.Value :=
  chainPayload entry.jobId entry.spanId entry.action entry.category entry.reviewerId entry.createdAt

/-- The hash a stored entry should have after `prev`. -/
def entryDigest (env : Env) (prev : String) (entry : AuditEntry) : String :=
  computeEntryHash env prev (entryPayload entry)

/-- `(prev_hash, sequence)` of the next entry. -/
def nextChainLink (db : Database) (jobId : UUID) : String × Nat :=
  match (db.entriesBySequence jobId).getLast? with
  | none => (genesisPrevHash, 1)
  | some last => (last.entryHash, last.sequence + 1)

def textHash (env : Env) (text : String) : String := env.hashHex (normalizeText env text)

def makeEntry (env : Env) (id jobId organizationId : UUID) (event : AuditEntryInput)
    (link : String × Nat) (createdAt : DateTime) : AuditEntry :=
  { id := id
    jobId := jobId
    spanId := event.spanId
    reviewerId := event.reviewerId
    organizationId := organizationId
    action := event.action
    category := event.category
    textHash := event.text.map (textHash env)
    entryHash := computeEntryHash env link.1 (inputPayload event jobId createdAt)
    prevHash := link.1
    sequence := link.2
    createdAt := createdAt }

def noTextMessage : String :=
  "A span-level audit entry (span_id set) must carry text to hash; got text=None"

def jobNotFoundMessage (jobId : UUID) : String := s!"RedactionJob {jobId.str} not found"

def appendAuditEntry (env : Env) (jobId : UUID) (event : AuditEntryInput) : Tx AuditEntry := do
  match ← Prog.query (·.job? jobId) with
  | none => .raise (.lookup (jobNotFoundMessage jobId))
  | some job =>
    if event.spanId.isSome ∧ event.text.isNone then .raise (.value noTextMessage)
    else do
      let link ← Prog.query (nextChainLink · jobId)
      let createdAt ← datetimeNow
      let id ← genRandomUuid
      let entry := makeEntry env id jobId job.organizationId event link createdAt
      Prog.send (.insertAudit entry)
      return entry

/-! ### What the services do -/

section

variable {C : Contract Database Write World Input Exn} {s : Shared Database World} {p : List Write}
  {E : Exn → Shared Database World → List Write → Prop}

/-- **A transition flushes one edge.**  The status it starts from is that of the
loaded object; the move to `applying` has counted no span without disposition. -/
theorem wp_transitionJobStatus {job : Tracked RedactionJob} {newStatus : JobStatus}
    {Q : Tracked RedactionJob → Shared Database World → List Write → Prop} (hi : C.inv s)
    (hE : C.Escapes E s)
    (hQ : ∀ s₁ s₂ new, newStatus ∈ validTransitions job.row.status →
      new = { job.row with status := newStatus } →
      (newStatus = .applying →
        C.Now s p s₁ ∧ (view s₁.db p).countUndispositionedSpans job.row.documentId = 0) →
      C.Now s p s₂ → (newStatus = .applying → C.Now s₁ p s₂) →
      Q (track new) s₂ (p ++ [.updateJob job.loaded new])) :
    C.wp (transitionJobStatus job newStatus) Q E s p := by
  rw [transitionJobStatus]
  split
  · exact hE _ s p (.self hi)
  · rename_i hedge
    rw [not_not] at hedge
    refine Contract.wp_bind ?_
    rw [checkDispositioned]
    split
    · rename_i happ
      refine Contract.wp_bind (Contract.wp_query hE.fault fun s₁ hn₁ => ?_)
      split
      · exact hE _ s₁ p hn₁.after
      · rename_i hcount
        refine Contract.wp_bind (Contract.wp_send (hE.after hn₁.after) fun s₂ hn₂ _ => ?_)
        exact hQ s₁ s₂ _ hedge rfl (fun _ => ⟨hn₁, not_not.mp hcount⟩) (hn₁.trans hn₂)
          (fun _ => hn₂)
    · rename_i happ
      refine Contract.wp_bind (Contract.wp_send hE fun s₂ hn₂ _ => ?_)
      exact hQ s s₂ _ hedge rfl (fun h => absurd h happ) hn₂ (fun h => absurd h happ)

theorem updateJob_free (db : Database) (loaded new : RedactionJob) (p : List Write) :
    clash (view db p) (.updateJob loaded new) = false := rfl

/-- A transition along an edge, other than to `applying`, raises nothing itself. -/
theorem wp_transition_edge {job : Tracked RedactionJob} {newStatus : JobStatus}
    {Q : Tracked RedactionJob → Shared Database World → List Write → Prop}
    (hedge : newStatus ∈ validTransitions job.row.status) (hne : newStatus ≠ .applying)
    (hF : ∀ e s', C.fault e → C.Now s p s' → E e s' p)
    (hQ : ∀ s', C.Now s p s' → Q (track { job.row with status := newStatus }) s'
      (p ++ [.updateJob job.loaded { job.row with status := newStatus }])) :
    C.wp (transitionJobStatus job newStatus) Q E s p := by
  rw [transitionJobStatus, if_neg (not_not.mpr hedge), checkDispositioned, if_neg hne]
  intro s' hn
  refine ⟨fun _ => hQ s' hn, fun hc => ?_, fun e he => hF e s' he hn⟩
  rw [updateJob_free] at hc
  cases hc

/-- **An appended entry continues the chain that was read.**  Between the read
and the insert other transactions may have committed. -/
theorem wp_appendAuditEntry {env : Env} {jobId : UUID} {event : AuditEntryInput}
    {Q : AuditEntry → Shared Database World → List Write → Prop} (hE : C.Escapes E s)
    (hQ : ∀ s₀ s₁ s₂ job id createdAt entry, C.Now s p s₀ → C.Now s₀ p s₁ → C.Now s₁ p s₂ →
      (view s₀.db p).job? jobId = some job → (event.spanId.isSome → event.text.isSome) →
      entry = makeEntry env id jobId job.organizationId event
        (nextChainLink (view s₁.db p) jobId) createdAt →
      clash (view s₂.db p) (.insertAudit entry) = false →
      Q entry s₂ (p ++ [.insertAudit entry])) :
    C.wp (appendAuditEntry env jobId event) Q E s p := by
  refine Contract.wp_bind (Contract.wp_query hE.fault fun s₀ hn₀ => ?_)
  have hE₀ := hE.after hn₀.after
  cases hjob : (view s₀.db p).job? jobId with
  | none => exact hE₀ _ s₀ p (.self hn₀.inv)
  | some job =>
    show C.wp (if event.spanId.isSome ∧ event.text.isNone then _ else _) Q E s₀ p
    split
    · exact hE₀ _ s₀ p (.self hn₀.inv)
    · rename_i htext
      refine Contract.wp_bind (Contract.wp_query hE₀.fault fun s₁ hn₁ => ?_)
      have hE₁ := hE₀.after hn₁.after
      refine Contract.wp_bind (wp_observe hE₁ fun s₁' _ createdAt hn₁' _ _ => ?_)
      have hE₁' := hE₁.after hn₁'.after
      refine Contract.wp_bind (wp_genRandomUuid hE₁' fun s₁'' i hn₁'' _ => ?_)
      refine Contract.wp_bind (Contract.wp_send (hE₁'.after hn₁''.after) fun s₂ hn₂ hc => ?_)
      refine hQ s₀ s₁ s₂ job i.uuid createdAt _ hn₀ hn₁ ((hn₁'.trans hn₁'').trans hn₂) hjob ?_ rfl hc
      intro hspan
      exact Option.isSome_iff_ne_none.mpr fun hn => htext ⟨hspan, Option.isNone_iff_eq_none.mpr hn⟩

end

/-! ### Verification of the chain -/

structure ChainVerifyResult where
  verified : Bool
  entryCount : Nat
  head : String
  firstBrokenEntryId : Option UUID
  deriving DecidableEq, Repr

/-- The walk over the entries in order of their sequence numbers. -/
def verifyEntries (env : Env) (entries : List AuditEntry) : ChainVerifyResult :=
  let broken := HashChain.firstBroken AuditEntry.prevHash AuditEntry.entryHash (entryDigest env)
    genesisPrevHash entries
  { verified := broken.isNone
    entryCount := entries.length
    head := (entries.getLast?.map (·.entryHash)).getD genesisPrevHash
    firstBrokenEntryId := broken.map (·.id) }

def verifyAuditChain (env : Env) (jobId : UUID) : Tx ChainVerifyResult :=
  Prog.query fun db => verifyEntries env (db.entriesBySequence jobId)

end RedactApi
