import RedactApi.Services.RedactionJob
import RedactApi.Storage.Keys

/-!
# The export manifest

`services/export_manifest_service.py`, as the export endpoint calls it: the chain
is already verified and the redacted PDF already downloaded.
-/

namespace RedactApi

open ReadCommitted

def brokenChainMessage (jobId : UUID) (firstBroken : Option UUID) : String :=
  let broken := match firstBroken with
    | some id => id.str
    | none => "None"
  s!"Audit chain for job {jobId.str} failed verification (first broken: {broken})"

def missingArtifactMessage (jobId : UUID) : String :=
  s!"Job {jobId.str} has no redacted artifact; cannot assemble an export manifest"

def manifestDispositions (entries : List AuditEntry) : List ManifestDisposition :=
  entries.filterMap fun entry => entry.spanId.map fun spanId =>
    ⟨spanId, entry.action, entry.category, entry.textHash, entry.reviewerId, entry.createdAt⟩

def manifestLifecycleEvents (entries : List AuditEntry) : List ManifestLifecycleEvent :=
  (entries.filter fun entry => entry.spanId.isNone).map fun entry =>
    ⟨entry.action, entry.reviewerId, entry.createdAt⟩

/-- The category of the last verify entry. -/
def manifestVerifySummary (entries : List AuditEntry) : Option String :=
  ((entries.filter fun entry =>
    entry.action = .verifyPassed ∨ entry.action = .verifyFailed).getLast?).map (·.category)

/-- The entries are queried once more; those that the check of the chain has loaded are the
objects the session holds, and rows of the log do not change. -/
def assembleExportManifest (env : Env) (job : RedactionJob) (chain : ChainVerifyResult)
    (redactedBytes : Bytes) : Tx ExportManifest :=
  if ¬ chain.verified then
    .raise (.exportAssembly (brokenChainMessage job.id chain.firstBrokenEntryId))
  else if job.redactedPdfKey.isNone then .raise (.exportAssembly (missingArtifactMessage job.id))
  else do
    let originalBytes ← downloadBytes (Keys.originalPdfKey job.documentId)
    let entries ← Prog.query (·.entriesBySequence job.id)
    let now ← datetimeNow
    return {
      jobId := job.id
      documentId := job.documentId
      originalSha256 := env.sha256Hex originalBytes
      redactedSha256 := env.sha256Hex redactedBytes
      dispositions := manifestDispositions entries
      lifecycleEvents := manifestLifecycleEvents entries
      verifySummary := manifestVerifySummary entries
      entryCount := chain.entryCount
      auditChainHead := chain.head
      auditChainVerified := chain.verified
      generatedAt := now }

theorem wp_assembleExportManifest {C : Contract Database Write World Input Exn}
    {s : Shared Database World} {p : List Write} {env : Env} {job : RedactionJob}
    {chain : ChainVerifyResult} {redactedBytes : Bytes}
    {Q : ExportManifest → Shared Database World → List Write → Prop}
    {E : Exn → Shared Database World → List Write → Prop} (hi : C.inv s) (hE : C.Escapes E s)
    (hQ : ∀ manifest s', C.After s s' → Q manifest s' p) :
    C.wp (assembleExportManifest env job chain redactedBytes) Q E s p := by
  rw [assembleExportManifest]
  split
  · exact hE _ s p (.self hi)
  split
  · exact hE _ s p (.self hi)
  refine Contract.wp_bind (wp_observe hE fun s₁ _ originalBytes hn₁ _ _ => ?_)
  have hE₁ := hE.after hn₁.after
  refine Contract.wp_bind (Contract.wp_query hE₁.fault fun s₂ hn₂ => ?_)
  refine Contract.wp_bind (wp_observe (hE₁.after hn₂.after) fun s₃ _ now hn₃ _ _ => ?_)
  exact hQ _ s₃ ((hn₁.after.trans hn₂.after).trans hn₃.after)

end RedactApi
