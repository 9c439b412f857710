import RedactApi.AuditChain.TamperEvidence
import RedactApi.ReadCommitted.Lockstep
import RedactApi.Services.ExportManifest

/-!
# What the chain head of a manifest commits to

Two manifests of one job with one chain head list the same history: the hash covers
the span, the action, the category, the reviewer and the time of every entry.  It does
not cover the digest of the span text, which the manifest publishes all the same.
-/

namespace RedactApi

open ReadCommitted

/-- `assemble_export_manifest` without a chain that was verified before. -/
def verifyAndAssemble (env : Env) (job : RedactionJob) (redactedBytes : Bytes) : Tx ExportManifest := do
  let chain ← verifyAuditChain env job.id
  assembleExportManifest env job chain redactedBytes

def manifestOf (env : Env) (job : RedactionJob) (entries : List AuditEntry)
    (originalBytes redactedBytes : Bytes) (now : DateTime) : ExportManifest where
  jobId := job.id
  documentId := job.documentId
  originalSha256 := env.sha256Hex originalBytes
  redactedSha256 := env.sha256Hex redactedBytes
  dispositions := manifestDispositions entries
  lifecycleEvents := manifestLifecycleEvents entries
  verifySummary := manifestVerifySummary entries
  entryCount := (verifyEntries env entries).entryCount
  auditChainHead := (verifyEntries env entries).head
  auditChainVerified := (verifyEntries env entries).verified
  generatedAt := now

/-- Alone, a verified chain with an artifact and a stored original gives its manifest. -/
theorem exec_verifyAndAssemble {env : Env} {job : RedactionJob} {redactedBytes originalBytes : Bytes}
    {a : Nat → Input} {s : Shared Database World}
    (hverified : (verifyEntries env (s.db.entriesBySequence job.id)).verified = true)
    (hkey : job.redactedPdfKey.isNone = false)
    (hobject : s.world.objects (Keys.originalPdfKey job.documentId) = some originalBytes) :
    ((verifyAndAssemble env job redactedBytes).exec a s []).result =
      .ok (manifestOf env job (s.db.entriesBySequence job.id) originalBytes redactedBytes (a 3).now) := by
  change ((assembleExportManifest env job (verifyEntries env (s.db.entriesBySequence job.id))
    redactedBytes).exec (later a) s []).result = _
  rw [assembleExportManifest, if_neg (not_not.mpr hverified),
    if_neg (by rw [hkey]; exact Bool.false_ne_true)]
  simp only [downloadBytes, observe, Prog.invoke, Prog.bind_eq, Prog.bind, Prog.graft, Prog.exec, hobject]
  rfl

theorem manifestOf_of_exec {env : Env} {job : RedactionJob} {redactedBytes : Bytes}
    {a : Nat → Input} {s : Shared Database World} {manifest : ExportManifest}
    (h : ((verifyAndAssemble env job redactedBytes).exec a s []).result = .ok manifest) :
    (verifyEntries env (s.db.entriesBySequence job.id)).verified = true ∧
      ∃ originalBytes, manifest =
        manifestOf env job (s.db.entriesBySequence job.id) originalBytes redactedBytes (a 3).now := by
  have h' := h
  change ((assembleExportManifest env job (verifyEntries env (s.db.entriesBySequence job.id))
    redactedBytes).exec (later a) s []).result = .ok manifest at h'
  rw [assembleExportManifest] at h'
  split at h'
  · cases h'
  · rename_i hverified
    split at h'
    · cases h'
    · rename_i hkey
      cases hobject : s.world.objects (Keys.originalPdfKey job.documentId) with
      | none =>
        simp only [downloadBytes, observe, Prog.invoke, Prog.bind_eq, Prog.bind, Prog.graft,
          Prog.exec, hobject] at h'
        cases h'
      | some originalBytes =>
        rw [not_not] at hverified
        rw [exec_verifyAndAssemble hverified (Bool.eq_false_iff.mpr hkey) hobject] at h
        exact ⟨hverified, originalBytes, (Except.ok.inj h).symm⟩

/-- What a disposition in the manifest says besides the text digest. -/
structure CommittedDisposition where
  spanId : UUID
  action : AuditAction
  category : String
  reviewerId : UUID
  disposedAt : DateTime
  deriving DecidableEq, Repr

def ManifestDisposition.committed (d : ManifestDisposition) : CommittedDisposition :=
  ⟨d.spanId, d.action, d.category, d.reviewerId, d.disposedAt⟩

theorem SameHistory.dispositions {l m : List AuditEntry} (h : SameHistory l m) :
    (manifestDispositions l).map (·.committed) = (manifestDispositions m).map (·.committed) := by
  induction h with
  | nil => rfl
  | @cons e f l m hef _ ih =>
    obtain ⟨hspan, haction, hcategory, hreviewer, htime⟩ := hef.1
    rw [manifestDispositions, manifestDispositions] at ih ⊢
    rw [List.filterMap_cons, List.filterMap_cons, hspan]
    cases f.spanId with
    | none => exact ih
    | some id =>
      have hhead : ManifestDisposition.committed
            ⟨id, e.action, e.category, e.textHash, e.reviewerId, e.createdAt⟩ =
          ManifestDisposition.committed
            ⟨id, f.action, f.category, f.textHash, f.reviewerId, f.createdAt⟩ := by
        rw [ManifestDisposition.committed, ManifestDisposition.committed, haction, hcategory,
          hreviewer, htime]
      exact congrArg₂ List.cons hhead ih

theorem SameHistory.lifecycleEvents {l m : List AuditEntry} (h : SameHistory l m) :
    manifestLifecycleEvents l = manifestLifecycleEvents m := by
  induction h with
  | nil => rfl
  | @cons e f l m hef _ ih =>
    obtain ⟨hspan, haction, hcategory, hreviewer, htime⟩ := hef.1
    rw [manifestLifecycleEvents, manifestLifecycleEvents] at ih ⊢
    rw [List.filter_cons, List.filter_cons, hspan]
    split
    · rw [List.map_cons, List.map_cons, ih, haction, hreviewer, htime]
    · exact ih

theorem SameHistory.verifySummary {l m : List AuditEntry} (h : SameHistory l m) :
    manifestVerifySummary l = manifestVerifySummary m := by
  have hverify : (l.filter fun e => e.action = .verifyPassed ∨ e.action = .verifyFailed).map (·.category) =
      (m.filter fun e => e.action = .verifyPassed ∨ e.action = .verifyFailed).map (·.category) := by
    induction h with
    | nil => rfl
    | @cons e f l m hef _ ih =>
      obtain ⟨-, haction, hcategory, -, -⟩ := hef.1
      rw [List.filter_cons, List.filter_cons, haction]
      split
      · rw [List.map_cons, List.map_cons, ih, hcategory]
      · exact ih
  rw [manifestVerifySummary, manifestVerifySummary, ← List.getLast?_map, ← List.getLast?_map, hverify]

/-- **The head commits to the manifest.**  Two manifests of a job with one chain head
have verified chains and the same dispositions apart from the text digests, the same
lifecycle events, the same number of entries and the same verify summary. -/
theorem manifest_head_commits (env : Env) (job : RedactionJob) (bytes₁ bytes₂ : Bytes)
    (a₁ a₂ : Nat → Input) (s₁ s₂ : Shared Database World) (m₁ m₂ : ExportManifest)
    (hash : SoundHash env (hashedTexts (s₁.db.entriesBySequence job.id) ++
      hashedTexts (s₂.db.entriesBySequence job.id)))
    (h₁ : ((verifyAndAssemble env job bytes₁).exec a₁ s₁ []).result = .ok m₁)
    (h₂ : ((verifyAndAssemble env job bytes₂).exec a₂ s₂ []).result = .ok m₂)
    (hhead : m₁.auditChainHead = m₂.auditChainHead) :
    m₁.auditChainVerified = true ∧ m₂.auditChainVerified = true ∧
      m₁.dispositions.map (·.committed) = m₂.dispositions.map (·.committed) ∧
      m₁.lifecycleEvents = m₂.lifecycleEvents ∧ m₁.entryCount = m₂.entryCount ∧
      m₁.verifySummary = m₂.verifySummary := by
  obtain ⟨hverified₁, original₁, rfl⟩ := manifestOf_of_exec h₁
  obtain ⟨hverified₂, original₂, rfl⟩ := manifestOf_of_exec h₂
  have hsame : SameHistory (s₁.db.entriesBySequence job.id) (s₂.db.entriesBySequence job.id) :=
    sameHistory_of_head hash hverified₁ hverified₂ hhead
  exact ⟨hverified₁, hverified₂, hsame.dispositions, hsame.lifecycleEvents, hsame.length_eq,
    hsame.verifySummary⟩

/-! ### A digest that is altered -/

section

def disposedJob : RedactionJob where
  id := 0x11111111111111111111111111111111#128
  documentId := 5
  organizationId := 0
  status := .verified
  redactedPdfKey := some "redacted.pdf"

/-- The stored state, with the original; the first row may hold any digest. -/
def disposedState (textHash : Option String) : Shared Database World where
  db := pinnedDatabase 1 2 textHash
  world := World.empty.put (Keys.originalPdfKey 5) [0]

theorem entries_disposed (textHash : Option String) :
    (disposedState textHash).db.entriesBySequence disposedJob.id = pinnedEntries 1 2 textHash := rfl

theorem soundHash_disposed (textHash textHash' : Option String) :
    SoundHash (Env.letter pinnedHash)
      (hashedTexts ((disposedState textHash).db.entriesBySequence disposedJob.id) ++
        hashedTexts ((disposedState textHash').db.entriesBySequence disposedJob.id)) := by
  rw [entries_disposed, entries_disposed]
  exact soundHash_pinned 1 2 1 2 textHash textHash'

theorem exec_disposed (a : Nat → Input) (textHash : Option String) :
    ((verifyAndAssemble (Env.letter pinnedHash) disposedJob []).exec a (disposedState textHash)
      []).result = .ok (manifestOf (Env.letter pinnedHash) disposedJob (pinnedEntries 1 2 textHash)
        [0] [] (a 3).now) := by
  have hverified : (verifyEntries (Env.letter pinnedHash)
      ((disposedState textHash).db.entriesBySequence disposedJob.id)).verified = true := by
    rw [entries_disposed]
    exact verified_pinned 1 2 textHash
  rw [exec_verifyAndAssemble hverified rfl (put_objects_self _ _ _), entries_disposed]

end

/-- Two chains of two entries that differ in a digest only. -/
theorem manifest_head_commits_disposed :
    (manifestDispositions (pinnedEntries 1 2 (some "00"))).map (·.committed) =
        (manifestDispositions (pinnedEntries 1 2 none)).map (·.committed) ∧
      manifestLifecycleEvents (pinnedEntries 1 2 (some "00")) =
        manifestLifecycleEvents (pinnedEntries 1 2 none) := by
  have h := manifest_head_commits (Env.letter pinnedHash) disposedJob [] [] (fun _ => ⟨0, sampleTime⟩)
    (fun _ => ⟨0, sampleTime⟩) (disposedState (some "00")) (disposedState none) _ _
    (soundHash_disposed _ _) (exec_disposed _ _) (exec_disposed _ _) rfl
  exact ⟨h.2.2.1, h.2.2.2.1⟩

/-- Both manifests are verified and have one head, and their text digests differ. -/
theorem manifest_head_misses_digest :
    SoundHash (Env.letter pinnedHash)
        (hashedTexts ((disposedState (some "00")).db.entriesBySequence disposedJob.id) ++
          hashedTexts ((disposedState none).db.entriesBySequence disposedJob.id)) ∧
      ∃ m₁ m₂,
        ((verifyAndAssemble (Env.letter pinnedHash) disposedJob []).exec
          (fun _ => ⟨0, sampleTime⟩) (disposedState (some "00")) []).result = .ok m₁ ∧
        ((verifyAndAssemble (Env.letter pinnedHash) disposedJob []).exec
          (fun _ => ⟨0, sampleTime⟩) (disposedState none) []).result = .ok m₂ ∧
        m₁.auditChainHead = m₂.auditChainHead ∧ m₁.dispositions ≠ m₂.dispositions := by
  refine ⟨soundHash_disposed _ _, _, _, exec_disposed _ _, exec_disposed _ _, rfl, ?_⟩
  exact fun h => absurd (congrArg (List.map (·.textDigest)) h) (by decide +kernel)

end RedactApi
