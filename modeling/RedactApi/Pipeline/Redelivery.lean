import RedactApi.Pipeline.Lifecycle
import RedactApi.ReadCommitted.Alone

/-!
# Messages that are delivered again

The queue may deliver a message more than once.  The guard of a task looks at the
status the job was loaded with, so a delivery does nothing once the job has left
the state that the task consumes, and as long as the job is in it, one delivery at
a time does what a single delivery does.

Ingest bears more.  All it writes is the status, and what it writes is determined
by the stored original, so its deliveries may overlap.
-/

namespace RedactApi

open ReadCommitted

def Message.jobId : Message → UUID
  | .ingestJob jobId | .detectJob jobId | .applyJob jobId _ => jobId

/-- The state in which the task does something. -/
def Message.consumes : Message → JobStatus
  | .ingestJob _ => .uploaded
  | .detectJob _ => .ingested
  | .applyJob _ _ => .applying

def Left (jobId : UUID) (consumes : JobStatus) (db : Database) : Prop :=
  db.status? jobId ≠ some consumes

instance (jobId : UUID) (consumes : JobStatus) (db : Database) :
    Decidable (Left jobId consumes db) :=
  inferInstanceAs (Decidable (db.status? jobId ≠ some consumes))

/-! ### Tasks that are done once -/

section

variable {env : Env} {jobId : UUID} {consumes : JobStatus} {s s' : Shared Database World}

theorem left_of_job {db : Database}
    (h : ∀ job, db.job? jobId = some job → job.status ≠ consumes) : Left jobId consumes db := by
  intro hst
  obtain ⟨job, hjob, hst⟩ := Option.map_eq_some_iff.mp hst
  exact h job hjob hst

theorem status_of_job {db : Database} {job : RedactionJob} (h : db.job? jobId = some job) :
    db.status? jobId = some job.status := by
  rw [Database.status?, h]
  rfl

variable (jobId consumes) in
abbrev taskContract : Contract Database Write World Input Exn :=
  onceContract Input Exn (Left jobId consumes)

/-- **A commit that moves the job** out of the state the task consumes. -/
theorem once_lands {p : List Write} (h : s.db.status? jobId = some consumes)
    (hmove : lastStatus consumes (moves jobId p) ≠ consumes) :
    (taskContract jobId consumes).Lands (fun _ s _ => Left jobId consumes s.db) s p := by
  refine ⟨trivial, fun hleft => absurd h hleft, ?_⟩
  show (view s.db p).status? jobId ≠ some consumes
  rw [status_view p h]
  exact fun he => hmove (Option.some.inj he)

theorem once_lands_status {job : RedactionJob} {newStatus : JobStatus}
    (hjob : s.db.job? jobId = some job) (hst : job.status = consumes) (hne : newStatus ≠ consumes) :
    (taskContract jobId consumes).Lands (fun _ s _ => Left jobId consumes s.db) s
      [statusWrite job newStatus] := by
  refine once_lands (hst ▸ status_of_job hjob) ?_
  rw [moves_statusWrite jobId (hst ▸ hne), if_pos (job?_id hjob)]
  exact hne

/-- What others do between two commits leaves the database alone. -/
theorem same_db (h : (taskContract jobId consumes).After s s') : s'.db = s.db := h.past

theorem ending_left :
    Ending (taskContract jobId consumes) fun s => Left jobId consumes s.db where
  stable s s' hs h := by rwa [same_db h]
  fault _ _ he := he.elim

theorem once_fails (hne : .failed ≠ consumes) :
    LandsFailure (taskContract jobId consumes) jobId consumes fun s => Left jobId consumes s.db := by
  intro s₀ s₁ s₂ job₀ job _ hjob₀ hst h₁ hjob _ h₂ _
  rw [← same_db h₁, hjob] at hjob₀
  obtain rfl := Option.some.inj hjob₀
  rw [← same_db h₂] at hjob
  exact once_lands_status hjob hst hne

theorem once_cannot_stay (hopen : .failed ∈ validTransitions consumes) :
    LeavesFailure (taskContract jobId consumes) jobId consumes
      fun s => Left jobId consumes s.db := by
  intro s₀ s₁ job₀ _ hjob₀ hst h₁ hnone
  rw [← same_db h₁] at hjob₀
  exact absurd (hst ▸ hopen) (hnone job₀ hjob₀)

/-! What a delivery commits moves the job that was loaded. -/

theorem detect_moves {seen : Shared Database World → Prop} {job : RedactionJob} {p : List Write}
    (hp : DetectedWrites seen job.documentId p) (hst : job.status = .ingested)
    (hid : job.id = jobId) :
    lastStatus .ingested (moves jobId (detectWrites job p)) ≠ .ingested := by
  rw [moves_detectWrites hp hst, if_pos hid]
  decide

theorem applyFailed_moves {job : RedactionJob} (hst : job.status = .applying)
    (hid : job.id = jobId) (started failed : AuditEntry) :
    lastStatus .applying (moves jobId (applyFailedWrites job started failed)) ≠ .applying := by
  rw [applyFailedWrites, moves_insertAudit, moves_insertAudit,
    moves_statusWrite jobId (by rw [hst]; decide), if_pos hid]
  show JobStatus.failed ≠ .applying
  decide

theorem applyPassed_moves {job : RedactionJob} (hst : job.status = .applying)
    (hid : job.id = jobId) (started passed : AuditEntry) :
    lastStatus .applying (moves jobId (applyPassedWrites job started passed)) ≠ .applying := by
  rw [applyPassedWrites, moves_insertAudit, moves_insertAudit, moves_verifiedJob,
    moves_statusWrite jobId (by rw [hst]; decide), if_pos hid]
  show JobStatus.verified ≠ .applying
  decide

theorem detectJob_endsDone (env : Env) (jobId : UUID) (s : Shared Database World) :
    EndsDone Input (Left jobId .ingested) (detectJob env jobId) s [] := by
  refine ends_detectJob (C := taskContract jobId .ingested) ending_left
    (fun _ _ => left_of_job) (once_fails (by decide)) (once_cannot_stay (by decide)) ?_
  intro s₁ s₂ job p _ hjob hst h hp _ _ _
  rw [← same_db h] at hjob
  exact once_lands (hst ▸ status_of_job hjob) (detect_moves hp hst (job?_id hjob))

theorem applyJob_endsDone (env : Env) (jobId : UUID) (reviewerId : Option UUID)
    (s : Shared Database World) :
    EndsDone Input (Left jobId .applying) (applyJob env jobId reviewerId) s [] := by
  have hacts : ∀ (s : Shared Database World) (w : World), (taskContract jobId .applying).Acts s w :=
    fun s w => ⟨trivial, fun _ => rfl, rfl⟩
  refine ends_applyJob (C := taskContract jobId .applying) ending_left
    (fun _ _ => left_of_job) (once_fails (by decide)) (once_cannot_stay (by decide))
    (fun _ _ s _ _ _ _ _ _ _ _ => hacts s _) (fun _ s _ _ _ _ _ _ => hacts s _) ?_ ?_
  · intro s₁ s job b started failed _ hjob hst h _ _ _ _ _
    have hdb : s.db = s₁.db := same_db (b.since h)
    rw [← hdb] at hjob
    exact once_lands (hst ▸ status_of_job hjob) (applyFailed_moves hst (job?_id hjob) started failed)
  · intro s₁ s₂ s job b started passed _ hjob hst h _ _ _ _ _ _
    have hdb : s.db = s₁.db := same_db (b.since h)
    rw [← hdb] at hjob
    exact once_lands (hst ▸ status_of_job hjob) (applyPassed_moves hst (job?_id hjob) started passed)

end

/-! ### Ingest -/

theorem RedactionJob.patch_again (loaded new row : RedactionJob) :
    RedactionJob.patch loaded new (RedactionJob.patch loaded new row) =
      RedactionJob.patch loaded new row := by
  have hpatched : ∀ {α : Type} [DecidableEq α] (l n r : α),
      patched l n (patched l n r) = patched l n r := by
    intro α _ l n r
    simp only [patched]
    split <;> rfl
  by_cases hid : row.id = loaded.id
  · rw [RedactionJob.patch, if_pos (by rw [RedactionJob.patch_id]; exact hid), RedactionJob.patch,
      if_pos hid]
    simp only [hpatched]
  · rw [RedactionJob.patch, if_neg (by rw [RedactionJob.patch_id]; exact hid)]

/-- A move that is committed a second time changes nothing. -/
theorem statusWrite_again (db : Database) (job : RedactionJob) (newStatus : JobStatus) :
    view (view db [statusWrite job newStatus]) [statusWrite job newStatus] =
      view db [statusWrite job newStatus] := by
  show { db with jobs := (db.jobs.map _).map _ } = { db with jobs := db.jobs.map _ }
  rw [List.map_map]
  congr 2
  funext row
  exact RedactionJob.patch_again _ _ row

section

variable {env : Env} {jobId : UUID} {s₀ s s' : Shared Database World} {job : RedactionJob}

variable (env s₀) in
/-- Where the ingest of a job ends. -/
def ingestEnd (job : RedactionJob) : JobStatus :=
  match extractStored env (s₀.world.objects (Keys.originalPdfKey job.documentId)) with
  | .ok _ => .ingested
  | .error _ => .failed

variable (env jobId s₀) in
/-- What is committed when the job has been ingested or failed. -/
def afterIngest : Database :=
  match s₀.db.job? jobId with
  | some job =>
    if job.status = .uploaded then view s₀.db [statusWrite job (ingestEnd env s₀ job)] else s₀.db
  | none => s₀.db

theorem afterIngest_of_uploaded (hjob : s₀.db.job? jobId = some job) (hst : job.status = .uploaded) :
    afterIngest env jobId s₀ = view s₀.db [statusWrite job (ingestEnd env s₀ job)] := by
  rw [afterIngest, hjob]
  exact if_pos hst

theorem afterIngest_of_left (h : ∀ job, s₀.db.job? jobId = some job → job.status ≠ .uploaded) :
    afterIngest env jobId s₀ = s₀.db := by
  rw [afterIngest]
  split
  · rename_i job hjob
    exact if_neg (h job hjob)
  · rfl

theorem ingestEnd_cases (env : Env) (s₀ : Shared Database World) (job : RedactionJob) :
    ingestEnd env s₀ job = .ingested ∨ ingestEnd env s₀ job = .failed := by
  rw [ingestEnd]
  split
  · exact Or.inl rfl
  · exact Or.inr rfl

theorem afterIngest_status (hjob : s₀.db.job? jobId = some job) (hst : job.status = .uploaded) :
    (afterIngest env jobId s₀).status? jobId = some (ingestEnd env s₀ job) := by
  have hne : ingestEnd env s₀ job ≠ job.status := by
    rw [hst]
    rcases ingestEnd_cases env s₀ job with h | h <;> rw [h] <;> decide
  rw [afterIngest_of_uploaded hjob hst, status_view _ (status_of_job hjob), moves_statusWrite jobId hne,
    if_pos (job?_id hjob)]
  rfl

theorem left_afterIngest (env : Env) (jobId : UUID) (s₀ : Shared Database World) :
    Left jobId .uploaded (afterIngest env jobId s₀) := by
  by_cases h : ∀ job, s₀.db.job? jobId = some job → job.status ≠ .uploaded
  · rw [afterIngest_of_left h]
    exact left_of_job h
  · push Not at h
    obtain ⟨job, hjob, hst⟩ := h
    rw [Left, afterIngest_status hjob hst]
    rcases ingestEnd_cases env s₀ job with h | h <;> rw [h] <;> decide

/-- The database is as it was or as the ingest leaves it; the originals stay. -/
structure Ingesting (env : Env) (jobId : UUID) (s₀ s : Shared Database World) : Prop where
  db : s.db = s₀.db ∨ s.db = afterIngest env jobId s₀
  originals : ∀ documentId, s.world.objects (Keys.originalPdfKey documentId) =
    s₀.world.objects (Keys.originalPdfKey documentId)

def ingestContract (env : Env) (jobId : UUID) (s₀ : Shared Database World) :
    Contract Database Write World Input Exn where
  inv := Ingesting env jobId s₀
  rely s s' := s.db = afterIngest env jobId s₀ → s'.db = afterIngest env jobId s₀
  guar s s' := s.db = afterIngest env jobId s₀ → s'.db = afterIngest env jobId s₀
  allowed _ _ := True
  input _ _ _ := True
  fault _ := False
  past s s' := s.db = afterIngest env jobId s₀ → s'.db = afterIngest env jobId s₀
  rely_refl _ := id
  rely_trans h h' := h' ∘ h
  guar_refl _ := id
  past_refl _ := id
  past_trans h h' := h' ∘ h
  rely_past h := h

theorem ingest_tolerates {f : World → World}
    (hf : ∀ w documentId, (f w).objects (Keys.originalPdfKey documentId) =
      w.objects (Keys.originalPdfKey documentId)) :
    Tolerates (ingestContract env jobId s₀) f :=
  fun s h => ⟨⟨h.db, fun d => (hf s.world d).trans (h.originals d)⟩, id, id⟩

theorem ingest_toleratesPages (documentId : UUID) :
    ToleratesPages (ingestContract env jobId s₀) documentId := by
  intro n data
  constructor
  · exact ingest_tolerates fun _ d =>
      put_objects_ne data (Keys.pageKey_ne_original documentId d n _).symm
  · exact ingest_tolerates fun _ d =>
      put_objects_ne data (Keys.pageKey_ne_original documentId d n _).symm

/-- **The one commit of ingest**, made from the loaded job. -/
theorem ingest_lands (h : Ingesting env jobId s₀ s) (hjob : s₀.db.job? jobId = some job)
    (hst : job.status = .uploaded) {newStatus : JobStatus} (hend : ingestEnd env s₀ job = newStatus) :
    (ingestContract env jobId s₀).Lands (fun _ s _ => s.db = afterIngest env jobId s₀) s
      [statusWrite job newStatus] := by
  have hafter : view s.db [statusWrite job newStatus] = afterIngest env jobId s₀ := by
    rcases h.db with hdb | hdb
    · rw [hdb, afterIngest_of_uploaded hjob hst, hend]
    · rw [hdb, afterIngest_of_uploaded hjob hst, hend, statusWrite_again]
  exact ⟨⟨Or.inr hafter, h.originals⟩, fun _ => hafter, hafter⟩

theorem ingestJob_ends (env : Env) (jobId : UUID) (s₀ s : Shared Database World) :
    (ingestContract env jobId s₀).wp (ingestJob env jobId)
      (fun _ s _ => s.db = afterIngest env jobId s₀)
      (fun _ s _ => s.db = afterIngest env jobId s₀) s [] := by
  have hR : Ending (ingestContract env jobId s₀) fun s => s.db = afterIngest env jobId s₀ :=
    ⟨fun _ _ hs h => h.past hs, fun _ _ he => he.elim⟩
  refine Contract.wp_bind (Contract.wp_mono (fun ingested s' p' hs' => ?_) (fun _ _ _ h => h) _
    (ends_closing hR (wp_guardedTask (fun _ _ he => he.elim) ?_ ?_)))
  · cases ingested
    · exact hs'
    · exact wp_act_tolerated (ingest_tolerates fun _ _ => rfl) (fun _ _ he => he.elim)
        fun s'' h => hR.stable s' s'' hs' h
  · intro s' hn hne
    rcases hn.inv.db with hdb | hdb
    · rw [hdb] at hne
      exact hdb.trans (afterIngest_of_left hne).symm
    · exact hdb
  · intro s₁ job hn hjob hst
    -- the job was loaded before any delivery committed
    have hdb : s₁.db = s₀.db := by
      refine hn.inv.db.resolve_right fun hdb => left_afterIngest env jobId s₀ ?_
      rw [← hdb, status_of_job hjob, hst]
    rw [hdb] at hjob
    refine Contract.wp_bind (wp_ingestWork (ingest_toleratesPages _) hst (fun _ _ _ he => he.elim) ?_ ?_)
    · intro e s₂ s₃ h₂ herr _
      rw [h₂.inv.originals] at herr
      have hend : ingestEnd env s₀ job = .failed := by rw [ingestEnd, herr]
      refine Contract.wp_bind (Contract.wp_bind fun s₄ _ => Contract.wp_bind (Contract.wp_mono
        (fun _ s p h => ?_) (fun _ _ _ h => h) _ (ends_failJob hR ?_ ?_)))
      · show (ingestContract env jobId s₀).wp (if e.isIngestRejection then _ else _) _ _ s p
        split
        · exact h
        · exact h
      · intro s₅ h₅ hnone
        refine h₅.inv.db.resolve_left fun hdb => ?_
        exact absurd (by rw [hst]; decide) (hnone job (hdb ▸ hjob))
      · intro s₅ s₆ job' h₅ hjob' hedge h₆ _
        have hdb : s₅.db = s₀.db := by
          refine h₅.inv.db.resolve_right fun hdb => ?_
          have hst' := status_of_job hjob'
          rw [hdb, afterIngest_status hjob hst, hend] at hst'
          rw [← Option.some.inj hst'] at hedge
          exact absurd hedge (by decide)
        rw [hdb, hjob] at hjob'
        obtain rfl := Option.some.inj hjob'
        exact ingest_lands h₆.inv hjob hst hend
    · intro extractions s₂ s₃ h₂ hok h₃ _
      rw [h₂.inv.originals] at hok
      exact ingest_lands h₃.inv hjob hst (by rw [ingestEnd, hok])

end

/-! ### Any number of deliveries -/

def Message.isIngest : Message → Bool
  | .ingestJob _ => true
  | _ => false

/-- No call fails; and unless the message is for ingest, only one delivery at a time
moves while the job is in the state that the task consumes. -/
def deliveredInTurn (message : Message) : Guard Database Write World Input Exn Unit := fun S i l =>
  (message.isIngest = true ∨ Left message.jobId message.consumes S.shared.db ∨ Guard.serial S i l) ∧
    ∃ a, l = .ok a

def inTurnStep (message : Message) (S : Pipeline) (i : Nat) (l : Label Input Exn) : Bool :=
  (message.isIngest || decide (Left message.jobId message.consumes S.shared.db) ||
    S.serialStep i l) && l.isOk

theorem deliveredInTurn_of_inTurnStep {message : Message} (S : Pipeline) (i : Nat)
    (l : Label Input Exn) (h : inTurnStep message S i l = true) : deliveredInTurn message S i l := by
  obtain ⟨hturn, hok⟩ := Bool.and_eq_true_iff.mp h
  refine ⟨?_, Label.isOk_iff.mp hok⟩
  rcases Bool.or_eq_true_iff.mp hturn with h | h
  · exact (Bool.or_eq_true_iff.mp h).imp_right fun h => Or.inl (of_decide_eq_true h)
  · exact Or.inr (Or.inr (Guard.serial_of_serialStep S i l h))

instance : Nonempty Input := ⟨⟨0, ⟨0, 0, 0, 0, 0, 0, 0⟩⟩⟩

theorem fits_ingest (env : Env) (jobId : UUID) (s₀ : Shared Database World) :
    (ingestContract env jobId s₀).Fits (deliveredInTurn (.ingestJob jobId)) where
  fault h := by
    obtain ⟨-, a, ha⟩ := h
    cases ha
  input _ _ := trivial
  commit _ _ _ := trivial

/-- Deliveries of one ingest, however they overlap. -/
theorem ingest_redelivered (env : Env) (jobId : UUID) (s₀ : Shared Database World) {k : Nat}
    (hk : k ≠ 0) {S : Pipeline}
    (hr : Sys.Run (deliveredInTurn (.ingestJob jobId))
      (Sys.start s₀ (List.replicate k (ingestJob env jobId))) S)
    (hdone : ∀ t ∈ S.threads, t.prog.isDone = true) (answers : Nat → Input) :
    S.shared.db = ((ingestJob env jobId).alone answers s₀ []).db := by
  have hi : Ingesting env jobId s₀ s₀ := ⟨Or.inl rfl, fun _ => rfl⟩
  have hends := Contract.sound_ends (fits_ingest env jobId s₀)
    (fun _ _ _ h => by obtain ⟨-, a, ha⟩ := h; cases ha) (fun _ _ hs h => h hs) (fun _ _ h => h)
    (Contract.endsIn_start hi fun q hq => by
      rw [List.eq_of_mem_replicate hq]
      exact ingestJob_ends env jobId s₀ s₀) hr
  have halone := (Contract.alone_of_wp (fun _ _ _ => trivial) (fun _ _ => trivial)
    (fun _ _ _ h h' => h' ∘ h) answers hi (free_nil _) (ingestJob_ends env jobId s₀ s₀)).2.2
  rw [halone]
  obtain ⟨t, ht⟩ := List.exists_mem_of_length_pos
    (by rw [Sys.length_of_run hr]; simp [Sys.start]; omega : 0 < S.threads.length)
  have hwp := hends.safe t ht
  obtain ⟨prog, p, b⟩ := t
  cases prog with
  | ret a => exact hwp
  | raise e => exact hwp
  | _ => cases hdone _ ht

/-- **Redelivery is idempotent** as long as deliveries of detect and of apply are in
turn: whatever is committed, any positive number of deliveries of a message leaves
what one delivery leaves, with the identifiers and the times that were drawn. -/
theorem redelivery_idempotent (env : Env) (s₀ : Shared Database World) (message : Message) (k : Nat)
    (hk : k ≠ 0) (S : Pipeline)
    (hr : Sys.Run (deliveredInTurn message)
      (Pipeline.start env s₀ (List.replicate k (.deliver message))) S)
    (hdone : ∀ t ∈ S.threads, t.prog.isDone = true) :
    ∃ answers, S.shared.db = ((runMessage env message).alone answers s₀ []).db := by
  have hstart : Pipeline.start env s₀ (List.replicate k (.deliver message)) =
      Sys.start s₀ (List.replicate k (runMessage env message)) := by
    rw [Pipeline.start, List.map_replicate]
    rfl
  rw [hstart] at hr
  have hinturn : message.isIngest = false → Sys.Run
      (Guard.oneUntilDone (Left message.jobId message.consumes))
      (Sys.start s₀ (List.replicate k (runMessage env message))) S := by
    intro hmessage
    refine hr.lift id fun _ _ h => ?_
    obtain ⟨i, l, ⟨hturn, hok⟩, hst⟩ := h
    refine ⟨i, l, ⟨hturn.resolve_left ?_, hok⟩, hst⟩
    rw [hmessage]
    exact Bool.false_ne_true
  cases message with
  | ingestJob jobId =>
    exact ⟨fun _ => Classical.arbitrary Input,
      ingest_redelivered env jobId s₀ hk hr hdone fun _ => Classical.arbitrary Input⟩
  | detectJob jobId => exact redelivery (detectJob_endsDone env jobId) hk (hinturn rfl) hdone
  | applyJob jobId reviewerId =>
    exact redelivery (applyJob_endsDone env jobId reviewerId) hk (hinturn rfl) hdone

/-! ### Deliveries that overlap -/

section

variable {jobId : UUID} {s s₁ : Shared Database World} {job : RedactionJob}

def RedactedVerified (jobId : UUID) (db : Database) : Prop :=
  ∀ job, db.job? jobId = some job → job.redactedPdfKey.isSome → job.status = .verified

variable (jobId) in
/-- The contract of a delivery that runs alone and keeps to that. -/
def redactedContract : Contract Database Write World Input Exn :=
  aloneContract Input Exn (fun s => RedactedVerified jobId s.db) (fun _ _ => True) fun _ => trivial

theorem redacted_lands (es : List AuditEntry) {new : RedactionJob}
    (hi : RedactedVerified jobId s.db) (hjob : s.db.job? jobId = some job)
    (hst : job.status = .applying)
    (hnew : new.redactedPdfKey = job.redactedPdfKey ∨ new.status = .verified) :
    (redactedContract jobId).Lands (fun _ _ _ => True) s
      (es.map .insertAudit ++ [.updateJob job new]) := by
  have hentries : (view s.db (es.map .insertAudit)).job? jobId = some job := by
    clear hi
    rw [← hjob]
    generalize s.db = db
    induction es generalizing db with
    | nil => rfl
    | cons e es ih => exact ih (db.apply (.insertAudit e))
  refine ⟨fun job' hjob' hkey => ?_, trivial, trivial⟩
  rw [show view s.db (es.map Write.insertAudit ++ [.updateJob job new]) =
      (view s.db (es.map .insertAudit)).apply (.updateJob job new) from view_concat _ _ _,
    job?_updateJob job new hentries] at hjob'
  obtain rfl := Option.some.inj hjob'
  rw [RedactionJob.patch, if_pos rfl, patched_loaded, patched_loaded] at hkey ⊢
  rcases hnew with hnew | hnew
  · have hkey : new.redactedPdfKey.isSome := hkey
    rw [hnew] at hkey
    have hv := hi job hjob hkey
    rw [hst] at hv
    cases hv
  · exact hnew

theorem applyJob_redacted (env : Env) (jobId : UUID) (reviewerId : Option UUID)
    (s : Shared Database World) : (redactedContract jobId).Safe (applyJob env jobId reviewerId) s [] := by
  refine safe_applyJob (C := redactedContract jobId) ?_ ?_ ?_ ?_ ?_
  · intro s₀ s₁ s₂ job₀ job _ hjob₀ hst h₁ hjob _ h₂ _
    have hdb₁ : s₁.db = s₀.db := h₁.past
    have hdb₂ : s₂.db = s₁.db := h₂.past
    rw [← hdb₁, hjob] at hjob₀
    obtain rfl := Option.some.inj hjob₀
    exact redacted_lands [] h₂.inv (hdb₂ ▸ hjob) hst (Or.inl rfl)
  · exact fun _ _ s _ _ _ _ _ _ _ h => ⟨h.inv, trivial, rfl⟩
  · exact fun _ s _ _ _ _ _ h => ⟨h.inv, trivial, rfl⟩
  · intro s₁ s job b started failed _ hjob hst h _ _ _ _ _
    have hdb : s.db = s₁.db := (b.since h).past
    exact redacted_lands [started, failed] h.inv (hdb ▸ hjob) hst (Or.inl rfl)
  · intro s₁ s₂ s job b started passed _ hjob hst h _ _ _ _ _ _
    have hdb : s.db = s₁.db := (b.since h).past
    exact redacted_lands [started, passed] h.inv (hdb ▸ hjob) hst (Or.inr rfl)

def applyMessage : Message := .applyJob sampleJobId (some 3)

/-- A job that is to be applied, on whose document nothing was detected. -/
def applyingDatabase : Database :=
  { uploadedDatabase with jobs := [⟨sampleJobId, sampleDocumentId, 6, .applying, none⟩] }

end

/-- Two deliveries of one message.  Both are about to insert `applyStarted` when the
first goes on and verifies the job; the second then finds its sequence number taken
and fails the verified job.  No single delivery leaves that. -/
theorem redelivery_not_idempotent :
    ∃ S : Pipeline, (Pipeline.start (Env.letter id) ⟨applyingDatabase, fullStore⟩
        (List.replicate 2 (.deliver applyMessage))).replayWhere (fun _ _ l => l.isOk)
          (numbered (List.replicate 7 0 ++ List.replicate 7 1 ++ List.replicate 12 0 ++
            List.replicate 7 1)) = some S ∧
      (∀ t ∈ S.threads, t.prog.isDone = true) ∧
      S.shared.db.status? sampleJobId = some .failed ∧
      (S.shared.db.entriesBySequence sampleJobId).map (·.action) = [.applyStarted, .verifyPassed] ∧
      ∀ answers, S.shared.db ≠ ((runMessage (Env.letter id) applyMessage).alone answers
        ⟨applyingDatabase, fullStore⟩ []).db := by
  have hsome : ((Pipeline.start (Env.letter id) ⟨applyingDatabase, fullStore⟩
      (List.replicate 2 (.deliver applyMessage))).replayWhere (fun _ _ l => l.isOk)
        (numbered (List.replicate 7 0 ++ List.replicate 7 1 ++ List.replicate 12 0 ++
          List.replicate 7 1))).map (fun S => (S.threads.all (·.prog.isDone),
            S.shared.db.job? sampleJobId,
            (S.shared.db.entriesBySequence sampleJobId).map (·.action))) =
        some (true, some ⟨sampleJobId, sampleDocumentId, 6, .failed,
          some (Keys.redactedPdfKey sampleJobId)⟩, [.applyStarted, .verifyPassed]) := by
    decide +kernel
  obtain ⟨S, hS, hout⟩ := Option.map_eq_some_iff.mp hsome
  obtain ⟨hdone, hout⟩ := Prod.mk.inj hout
  obtain ⟨hjob, hentries⟩ := Prod.mk.inj hout
  refine ⟨S, hS, List.all_eq_true.mp hdone, status_of_job hjob, hentries, fun answers heq => ?_⟩
  have hstart : RedactedVerified sampleJobId applyingDatabase := by
    intro job hjob hkey
    rw [show applyingDatabase.job? sampleJobId =
      some ⟨sampleJobId, sampleDocumentId, 6, .applying, none⟩ by decide] at hjob
    obtain rfl := Option.some.inj hjob
    cases hkey
  have halone : RedactedVerified sampleJobId ((runMessage (Env.letter id) applyMessage).alone answers
      ⟨applyingDatabase, fullStore⟩ []).db :=
    (Contract.alone_of_wp (C := redactedContract sampleJobId) (R := fun _ => True)
      (s := ⟨applyingDatabase, fullStore⟩) (fun _ _ _ => trivial) (fun _ _ => trivial)
      (fun _ _ _ _ _ => trivial) answers hstart
      (free_nil _) (applyJob_redacted _ _ _ _)).1
  rw [← heq] at halone
  have hverified := halone _ hjob rfl
  cases hverified

/-- The same two deliveries in turn: the second loads a verified job. -/
theorem redelivery_idempotent_in_turn :
    ∃ S : Pipeline, (Pipeline.start (Env.letter id) ⟨applyingDatabase, fullStore⟩
        (List.replicate 2 (.deliver applyMessage))).replayWhere (inTurnStep applyMessage)
          (numbered (List.replicate 18 0 ++ [1, 0, 1])) = some S ∧
      ∃ answers, S.shared.db = ((runMessage (Env.letter id) applyMessage).alone answers
        ⟨applyingDatabase, fullStore⟩ []).db := by
  have hsome : ((Pipeline.start (Env.letter id) ⟨applyingDatabase, fullStore⟩
      (List.replicate 2 (.deliver applyMessage))).replayWhere (inTurnStep applyMessage)
        (numbered (List.replicate 18 0 ++ [1, 0, 1]))).map
          (fun S => S.threads.all (·.prog.isDone)) = some true := by decide +kernel
  obtain ⟨S, hS, hdone⟩ := Option.map_eq_some_iff.mp hsome
  exact ⟨S, hS, redelivery_idempotent (Env.letter id) ⟨applyingDatabase, fullStore⟩ applyMessage 2
    (by decide) S (Sys.run_of_replayWhere deliveredInTurn_of_inTurnStep hS)
    (List.all_eq_true.mp hdone)⟩

end RedactApi
