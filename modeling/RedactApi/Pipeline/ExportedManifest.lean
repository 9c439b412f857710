import RedactApi.Pipeline.ExportedOnce
import RedactApi.ReadCommitted.Sees

/-!
# The manifest of an export among other transactions

An export reads the audit chain twice: its second step verifies it, and two downloads later
its fifth step lists it.  The count, the head and the verdict come from the first reading,
the dispositions, the events and the summary from the second.  Each reading shows what is
committed by then, so the manifest is consistent exactly if nothing was committed to the chain
in between (`manifest_consistent_iff`).
-/

namespace RedactApi

open ReadCommitted

/-! ### What is in a manifest -/

def manifestFrom (env : Env) (job : RedactionJob) (verified listed : List AuditEntry)
    (originalBytes redactedBytes : Bytes) (now : DateTime) : ExportManifest where
  jobId := job.id
  documentId := job.documentId
  originalSha256 := env.sha256Hex originalBytes
  redactedSha256 := env.sha256Hex redactedBytes
  dispositions := manifestDispositions listed
  lifecycleEvents := manifestLifecycleEvents listed
  verifySummary := manifestVerifySummary listed
  entryCount := (verifyEntries env verified).entryCount
  auditChainHead := (verifyEntries env verified).head
  auditChainVerified := (verifyEntries env verified).verified
  generatedAt := now

def AuditEntry.isVerdict (e : AuditEntry) : Prop :=
  e.action = .verifyPassed ∨ e.action = .verifyFailed

/-- The manifest agrees with the entries it lists, and these with the ones that were
verified. -/
structure Consistent (env : Env) (manifest : ExportManifest) (verified listed : List AuditEntry) :
    Prop where
  count : manifest.entryCount = manifest.dispositions.length + manifest.lifecycleEvents.length
  head : ∀ last, listed.getLast? = some last → manifest.auditChainHead = last.entryHash
  covered : manifest.auditChainVerified = (verifyEntries env verified).verified ∧
    ∀ e ∈ listed, e ∈ verified
  ordered : listed.Pairwise (fun e f => e.sequence ≤ f.sequence) ∧
    manifest.dispositions = manifestDispositions listed ∧
    manifest.lifecycleEvents = manifestLifecycleEvents listed
  summary : ∀ before e after, listed = before ++ e :: after → e.isVerdict →
    (∀ x ∈ after, ¬ x.isVerdict) → manifest.verifySummary = some e.category

section

variable {env : Env} {tenant : TenantContext} {jobId : UUID} {vs : List (Shared Database World)}
  {p p' : List Write} {α : Type}

theorem length_listed (l : List AuditEntry) :
    (manifestDispositions l).length + (manifestLifecycleEvents l).length = l.length := by
  induction l with
  | nil => rfl
  | cons e l ih =>
    rw [manifestDispositions, manifestLifecycleEvents, List.length_map] at ih ⊢
    cases hspan : e.spanId with
    | some id =>
      rw [List.filterMap_cons_some (by rw [hspan]; rfl), List.filter_cons_of_neg (by simp [hspan]),
        List.length_cons, List.length_cons, Nat.add_right_comm, ih]
    | none =>
      rw [List.filterMap_cons_none (by rw [hspan]; rfl), List.filter_cons_of_pos (by simp [hspan]),
        List.length_cons, List.length_cons, ← Nat.add_assoc, ih]

/-- The summary is the last verdict. -/
theorem manifestVerifySummary_eq {before after : List AuditEntry} {e : AuditEntry}
    (he : e.isVerdict) (hafter : ∀ x ∈ after, ¬ x.isVerdict) :
    manifestVerifySummary (before ++ e :: after) = some e.category := by
  have hnone : after.filter (fun entry => entry.action = .verifyPassed ∨
      entry.action = .verifyFailed) = [] :=
    List.filter_eq_nil_iff.mpr fun x hx => by simpa [AuditEntry.isVerdict] using hafter x hx
  rw [manifestVerifySummary, List.filter_append,
    List.filter_cons_of_pos (by simpa [AuditEntry.isVerdict] using he), hnone,
    List.getLast?_concat]
  rfl

theorem length_entriesBySequence (db : Database) (jobId : UUID) :
    (db.entriesBySequence jobId).length = (db.entries jobId).length :=
  List.length_insertionSort _ _

/-- **Two readings make a consistent manifest** exactly if they read the same. -/
theorem consistent_manifestFrom {db db' : Database} (hgrows : db.entries jobId <+: db'.entries jobId)
    (job : RedactionJob) (originalBytes redactedBytes : Bytes) (now : DateTime) :
    Consistent env (manifestFrom env job (db.entriesBySequence jobId) (db'.entriesBySequence jobId)
      originalBytes redactedBytes now) (db.entriesBySequence jobId) (db'.entriesBySequence jobId) ↔
      db'.entries jobId = db.entries jobId := by
  constructor
  · intro h
    have hcount : (db.entriesBySequence jobId).length =
        (manifestDispositions (db'.entriesBySequence jobId)).length +
          (manifestLifecycleEvents (db'.entriesBySequence jobId)).length := h.count
    rw [length_listed, length_entriesBySequence, length_entriesBySequence] at hcount
    exact (hgrows.eq_of_length hcount).symm
  · intro hsame
    have hread : db'.entriesBySequence jobId = db.entriesBySequence jobId := by
      rw [Database.entriesBySequence, hsame, Database.entriesBySequence]
    rw [hread]
    refine ⟨(length_listed _).symm, fun last hlast => ?_, ⟨rfl, fun e he => he⟩,
      ⟨sorted_entriesBySequence db jobId, rfl, rfl⟩, fun before e after hsplit he hafter => ?_⟩
    · show ((db.entriesBySequence jobId).getLast?.map (·.entryHash)).getD genesisPrevHash = _
      rw [hlast]
      rfl
    · show manifestVerifySummary (db.entriesBySequence jobId) = _
      rw [hsplit]
      exact manifestVerifySummary_eq he hafter

/-! ### What an export sees -/

theorem sees_liftExcept {x : Except Exn α} {a : α}
    (h : Sees (liftExcept x) p vs (.ok a) p') : vs = [] ∧ x = .ok a ∧ p' = p := by
  cases x with
  | ok b =>
    obtain ⟨rfl, ho, rfl⟩ := h.ret_inv
    exact ⟨rfl, ho.symm, rfl⟩
  | error e =>
    obtain ⟨-, ho, -⟩ := h.raise_inv
    cases ho

theorem sees_getJobOr404 {job : RedactionJob}
    (h : Sees (getJobOr404 tenant jobId) p vs (.ok job) p') :
    ∃ s, vs = [s] ∧ job.id = jobId ∧ p' = p := by
  obtain ⟨vs₁, vs₂, found, p₁, rfl, hquery, hrest⟩ := h.bind_inv
  obtain ⟨s, rfl, hfound, rfl⟩ := hquery.query_inv
  cases found with
  | none =>
    obtain ⟨-, ho, -⟩ := hrest.raise_inv
    cases ho
  | some found =>
    obtain ⟨rfl, ho, rfl⟩ := hrest.ret_inv
    cases ho
    have hid := List.find?_some hfound
    rw [decide_eq_true_eq] at hid
    exact ⟨s, rfl, hid.1, rfl⟩

theorem sees_assembleExportManifest {job : RedactionJob} {verified : List AuditEntry}
    {redactedBytes : Bytes} {manifest : ExportManifest}
    (h : Sees (assembleExportManifest env job (verifyEntries env verified) redactedBytes) p vs
      (.ok manifest) p') :
    ∃ original listing clock originalBytes now, vs = [original, listing, clock] ∧ p' = p ∧
      manifest = manifestFrom env job verified ((view listing.db p).entriesBySequence job.id)
        originalBytes redactedBytes now := by
  rw [assembleExportManifest] at h
  split at h
  · obtain ⟨-, ho, -⟩ := h.raise_inv
    cases ho
  split at h
  · obtain ⟨-, ho, -⟩ := h.raise_inv
    cases ho
  obtain ⟨_, _, originalBytes, _, rfl, hdownload, h₁⟩ := h.bind_inv
  obtain ⟨original, _, rfl, -, rfl⟩ := hdownload.invoke_inv
  obtain ⟨_, _, entries, _, rfl, hlist, h₂⟩ := h₁.bind_inv
  obtain ⟨listing, rfl, rfl, rfl⟩ := hlist.query_inv
  obtain ⟨_, _, now, _, rfl, hclock, h₃⟩ := h₂.bind_inv
  rw [datetimeNow, observe] at hclock
  obtain ⟨clock, _, rfl, -, rfl⟩ := hclock.invoke_inv
  obtain ⟨rfl, ho, rfl⟩ := h₃.ret_inv
  exact ⟨original, listing, clock, originalBytes, now, rfl, rfl, Except.ok.inj ho⟩

/-- **The two readings of an export**: the second step and the fifth. -/
theorem sees_exportJob {bytes : Bytes} (h : Sees (exportJob env tenant jobId) [] vs (.ok bytes) p') :
    ∃ load verification download original listing rest job originalBytes redactedBytes now,
      vs = load :: verification :: download :: original :: listing :: rest ∧
      bytes = env.zipBytes redactedBytes (env.manifestBytes (manifestFrom env job
        (verification.db.entriesBySequence jobId) (listing.db.entriesBySequence jobId)
        originalBytes redactedBytes now)) := by
  obtain ⟨_, last, _, rfl, hbody⟩ := h.closing_inv
  obtain ⟨_, _, _, _, rfl, hrole, h₁⟩ := hbody.bind_inv
  obtain ⟨rfl, -, rfl⟩ := sees_liftExcept hrole
  obtain ⟨_, _, job, _, rfl, hjob, h₂⟩ := h₁.bind_inv
  obtain ⟨load, rfl, rfl, rfl⟩ := sees_getJobOr404 hjob
  obtain ⟨_, _, key, _, rfl, hkey, h₃⟩ := h₂.bind_inv
  obtain ⟨rfl, -, rfl⟩ := sees_liftExcept hkey
  obtain ⟨_, _, chain, _, rfl, hchain, h₄⟩ := h₃.bind_inv
  obtain ⟨verification, rfl, rfl, rfl⟩ := hchain.query_inv
  obtain ⟨_, _, _, _, rfl, hcheck, h₅⟩ := h₄.bind_inv
  obtain ⟨rfl, -, rfl⟩ := sees_liftExcept hcheck
  obtain ⟨_, _, redactedBytes, _, rfl, hdownload, h₆⟩ := h₅.bind_inv
  obtain ⟨download, _, rfl, -, rfl⟩ := hdownload.invoke_inv
  obtain ⟨_, _, manifest, _, rfl, hassemble, h₇⟩ := h₆.bind_inv
  obtain ⟨original, listing, clock, originalBytes, now, rfl, rfl, rfl⟩ :=
    sees_assembleExportManifest (hassemble.tryCatch_inv fun e => by cases e <;> exact ⟨_, rfl⟩)
  obtain ⟨_, _, _, _, rfl, -, h₈⟩ := h₇.bind_inv
  obtain ⟨_, _, _, _, rfl, -, h₉⟩ := h₈.bind_inv
  obtain ⟨rfl, ho, -⟩ := h₉.ret_inv
  exact ⟨load, verification, download, original, listing, _, job, originalBytes, redactedBytes, now,
    rfl, Except.ok.inj ho⟩

end

/-! ### Runs -/

/-- **A manifest is consistent exactly if the chain rests between its two readings.**  Among
any other transactions, under any interleaving, an export returns the manifest made of what its
second and its fifth step see; it is consistent exactly if no entry of the job is committed
between these two. -/
theorem manifest_consistent_iff (env : Env) (tenant : TenantContext) (jobId : UUID)
    (s : Shared Database World) (progs : List (Tx Bytes)) (schedule : List (Nat × Label Input Exn))
    (S : Sys Database Write World Input Exn Bytes) (i : Nat) (bytes : Bytes) (p : List Write) (b : Bool)
    (hi : progs[i]? = some (exportJob env tenant jobId))
    (hr : (Sys.start s progs).replay schedule = some S)
    (hret : S.threads[i]? = some ⟨.ret bytes, p, b⟩) :
    ∃ load verification download original listing rest job originalBytes redactedBytes now,
      (Sys.start s progs).views i schedule =
        load :: verification :: download :: original :: listing :: rest ∧
      let verified := verification.db.entriesBySequence jobId
      let listed := listing.db.entriesBySequence jobId
      let manifest := manifestFrom env job verified listed originalBytes redactedBytes now
      bytes = env.zipBytes redactedBytes (env.manifestBytes manifest) ∧
      (Consistent env manifest verified listed ↔
        listing.db.entries jobId = verification.db.entries jobId) := by
  have hthread : (Sys.start s progs).threads[i]? = some ⟨exportJob env tenant jobId, [], false⟩ := by
    rw [Sys.start, List.getElem?_map, hi]
    rfl
  obtain ⟨load, verification, download, original, listing, rest, job, originalBytes, redactedBytes,
    now, hviews, hbytes⟩ := sees_exportJob (Sys.sees_of_replay hr hthread hret)
  have hpairs := (Sys.pairwise_views Grows.refl Grows.trans grows_view i schedule
    (Sys.start s progs)).2
  rw [hviews] at hpairs
  have hgrows : Grows verification.db listing.db :=
    (List.pairwise_cons.mp (List.pairwise_cons.mp hpairs).2).1 listing (by simp)
  exact ⟨load, verification, download, original, listing, rest, job, originalBytes, redactedBytes,
    now, hviews, hbytes, consistent_manifestFrom (hgrows jobId) job originalBytes redactedBytes now⟩

/-! ### An export that overlaps another one -/

section

def countingEnv : Env :=
  { sampleEnv with
    manifestBytes := fun manifest => [.ofNat manifest.entryCount,
      .ofNat manifest.dispositions.length, .ofNat manifest.lifecycleEvents.length]
    zipBytes := fun _ manifestBytes => manifestBytes }

def countedExports (S : Pipeline) : Sys Database Write World Input Exn Bytes :=
  Sys.start S.shared [exportJob countingEnv sampleAdmin 4, exportJob countingEnv sampleAdmin 4]

def returned {α : Type} : Tx α → Option α
  | .ret a => some a
  | _ => none

theorem eq_ret_of_returned {α : Type} {prog : Tx α} {a : α} (h : returned prog = some a) :
    prog = .ret a := by
  cases prog with
  | ret b => rw [Option.some.inj h]
  | _ => cases h

def firstReturned (S : Sys Database Write World Input Exn Bytes) : Option Bytes :=
  S.threads[0]?.bind fun t => returned t.prog

theorem thread_of_firstReturned {S : Sys Database Write World Input Exn Bytes} {bytes : Bytes}
    (h : firstReturned S = some bytes) : ∃ p b, S.threads[0]? = some ⟨.ret bytes, p, b⟩ := by
  obtain ⟨⟨prog, p, b⟩, ht, hret⟩ := Option.bind_eq_some_iff.mp h
  exact ⟨p, b, eq_ret_of_returned hret ▸ ht⟩

/-- The chain as the first thread sees it in its n-th step, counted from zero, when the second
export starts after it. -/
def chainSeen (n : Nat) (S : Sys Database Write World Input Exn Bytes) :
    Option (List AuditEntry) :=
  (S.views 0 (numbered (List.replicate 15 0 ++ List.replicate 2 1)))[n]?.map (·.db.entries 4)

end

/-- The second export records its event between the two readings of the first one, whose
manifest counts three entries and lists four. -/
theorem manifest_inconsistent :
    ∃ (s : Shared Database World) (schedule : List (Nat × Label Input Exn))
      (S : Sys Database Write World Input Exn Bytes) (bytes : Bytes) (p : List Write) (b : Bool),
      (Sys.start s [exportJob countingEnv sampleAdmin 4, exportJob countingEnv sampleAdmin 4]).replay
        schedule = some S ∧ S.threads[0]? = some ⟨.ret bytes, p, b⟩ ∧
      ∀ redactedBytes manifest,
        bytes = countingEnv.zipBytes redactedBytes (countingEnv.manifestBytes manifest) →
        manifest.entryCount ≠ manifest.dispositions.length + manifest.lifecycleEvents.length := by
  have hsome : (verifiedPipeline.bind fun S => ((countedExports S).replay (numbered
      (List.replicate 2 0 ++ List.replicate 15 1 ++ List.replicate 13 0))).map firstReturned) =
        some (some [3, 1, 3]) := by decide +kernel
  obtain ⟨S₀, -, hsome⟩ := Option.bind_eq_some_iff.mp hsome
  obtain ⟨S, hS, hbytes⟩ := Option.map_eq_some_iff.mp hsome
  obtain ⟨p, b, ht⟩ := thread_of_firstReturned hbytes
  refine ⟨_, _, S, _, p, b, hS, ht, fun redactedBytes manifest hmanifest hcount => ?_⟩
  change [3, 1, 3] = [UInt8.ofNat manifest.entryCount, .ofNat manifest.dispositions.length,
    .ofNat manifest.lifecycleEvents.length] at hmanifest
  rw [hcount, UInt8.ofNat_add] at hmanifest
  simp only [List.cons.injEq, and_true] at hmanifest
  obtain ⟨hsum, hdispositions, hevents⟩ := hmanifest
  rw [← hdispositions, ← hevents] at hsum
  exact absurd hsum (by decide)

/-- One after the other, the first export counts what it lists. -/
theorem manifest_consistent_alone :
    ∃ (s : Shared Database World) (schedule : List (Nat × Label Input Exn))
      (S : Sys Database Write World Input Exn Bytes) (verified listed : List AuditEntry)
      (manifest : ExportManifest),
      (Sys.start s [exportJob countingEnv sampleAdmin 4, exportJob countingEnv sampleAdmin 4]).replay
        schedule = some S ∧
      firstReturned S = some (countingEnv.manifestBytes manifest) ∧
      Consistent countingEnv manifest verified listed := by
  have hsome : (verifiedPipeline.bind fun S => ((countedExports S).replay (numbered
      (List.replicate 15 0 ++ List.replicate 2 1))).bind fun S' =>
        (firstReturned S').map fun _ => decide (chainSeen 4 (countedExports S) =
          chainSeen 1 (countedExports S))) = some true := by decide +kernel
  obtain ⟨S₀, -, hsome⟩ := Option.bind_eq_some_iff.mp hsome
  obtain ⟨S, hS, hsome⟩ := Option.bind_eq_some_iff.mp hsome
  obtain ⟨bytes, hbytes, hsame⟩ := Option.map_eq_some_iff.mp hsome
  obtain ⟨p, b, ht⟩ := thread_of_firstReturned hbytes
  obtain ⟨load, verification, download, original, listing, rest, job, originalBytes, redactedBytes,
    now, hsees, rfl, hiff⟩ := manifest_consistent_iff countingEnv sampleAdmin 4 _ _ _ S 0 bytes p b
      rfl hS ht
  rw [decide_eq_true_eq, chainSeen, chainSeen, countedExports, hsees] at hsame
  exact ⟨_, _, S, _, _, _, hS, hbytes, hiff.mpr (Option.some.inj hsame)⟩

end RedactApi
