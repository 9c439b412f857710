import RedactApi.Tasks.Jobs

/-!
# What a failing task leaves

A task that has passed its guard and raises before its commit leaves the database as it
was, but for the status of its job (`FailsClean`).  The work of each task commits last, so
what it raises, it raises before anything is committed; what it has sent is rolled back,
and the job is failed in a session of its own.

A gate that fails is no exception: the work returns, and has committed two entries.
-/

namespace RedactApi

open ReadCommitted

def Database.failed (db : Database) (jobId : UUID) : Database :=
  { db with jobs := db.jobs.map fun job =>
      if job.id = jobId then { job with status := .failed } else job }

/-- A run of a task that has passed its guard is a run of its work and what follows.  If
the work raises and nothing fails after that, the job is failed and nothing else has
changed; if the work returns, what it has committed stays. -/
def FailsClean (task work : Tx Unit) (jobId : UUID) (s : Shared Database World) : Prop :=
  ∀ i ls o s' p', Ends task (.ok i :: ls) s [] o s' p' →
    ∃ ls₁ ls₂ o₁ s₁ p₁, ls = ls₁ ++ ls₂ ∧ Ends work ls₁ s [] o₁ s₁ p₁ ∧
      (∀ e, o₁ = .error e → (∀ l ∈ ls₂, l.isOk = true) → s'.db = s.db.failed jobId) ∧
      (o₁ = .ok () → s'.db = s₁.db)

section

variable {env : Env} {s s' : Shared Database World} {p p' : List Write} {jobId : UUID}
  {job : RedactionJob} {α β : Type} {frame : World → β}

theorem view_failWrite (hjob : s.db.job? jobId = some job) (hst : job.status ≠ .failed) :
    view s.db [failWrite job] = s.db.failed jobId := by
  have hid : job.id = jobId := by simpa using List.find?_some hjob
  show s.db.apply (failWrite job) = _
  rw [failWrite, Database.apply, Database.failed]
  congr 1
  refine List.map_congr_left fun row _ => ?_
  rw [RedactionJob.patch, hid]
  dsimp only
  rw [patched_changed _ (Ne.symm hst), patched_same]

/-- Alone and without a fault, the exception of a task fails its job. -/
theorem wp_failTask_solo (hjob : s.db.job? jobId = some job)
    (hedge : .failed ∈ validTransitions job.status) :
    (soloContract Database Write Input (fun _ : Exn => False) frame).wp (failTask jobId)
      (fun _ s' _ => s'.db = s.db.failed jobId) (fun _ _ _ => False) s p := by
  have hst : job.status ≠ .failed := by
    intro h
    rw [h] at hedge
    cases hedge
  refine Contract.wp_bind fun s₁ hn₁ => Contract.wp_bind (wp_failJob (fun _ _ _ h => h.elim) ?_ ?_)
  · intro r s₂ s₃ h₂ hnone _
    refine absurd hedge (hnone job ?_)
    rw [h₂.past.1, hn₁.after.past.1]
    exact hjob
  · intro s₂ s₃ job' h₂ hjob' _ h₃ _
    have hdb : s₂.db = s.db := h₂.past.1.trans hn₁.after.past.1
    rw [hdb, hjob] at hjob'
    cases hjob'
    refine ⟨trivial, trivial, fun _ s₄ h₄ => ?_⟩
    have hview : s₄.db = view s₃.db [failWrite job] := h₄.past.1
    rw [h₃.past.1, hdb, view_failWrite hjob hst] at hview
    exact hview

/-- A guarded task that has loaded its job goes on with its work. -/
theorem guardedTask_inv {consumes : JobStatus} {skipped : α} {work : RedactionJob → Tx α}
    {onError : Exn → Tx α} {i : Input} {ls : List (Label Input Exn)} {o : Except Exn α}
    (hjob : s.db.job? jobId = some job) (hst : job.status = consumes)
    (h : Ends (guardedTask consumes jobId skipped work onError) (.ok i :: ls) s [] o s' p') :
    Ends ((work job).tryCatch fun e => do failTask jobId; onError e) ls s [] o s' p' := by
  have hmatch := h.select_inv
  dsimp only [Prog.graft] at hmatch
  rw [view_nil, hjob] at hmatch
  dsimp only at hmatch
  rwa [if_neg (not_not.mpr hst)] at hmatch

/-- **A guarded task** whose work raises before it has committed anything. -/
theorem guardedTask_ends {consumes : JobStatus} {skipped : α} {work : RedactionJob → Tx α}
    {onError : Exn → Tx α} {i : Input} {ls : List (Label Input Exn)} {o : Except Exn α}
    (hjob : s.db.job? jobId = some job) (hst : job.status = consumes)
    (hedge : .failed ∈ validTransitions consumes)
    (hraise : ∀ ls e s₁ p₁, Ends (work job) ls s [] (.error e) s₁ p₁ → s₁.db = s.db)
    (hend : ∀ (R : Database → Prop) e s p, R s.db →
      (soloContract Database Write Input (fun _ : Exn => False) fun _ => ()).wp (onError e)
        (fun _ s _ => R s.db) (fun _ s _ => R s.db) s p)
    (h : Ends (guardedTask consumes jobId skipped work onError) (.ok i :: ls) s [] o s' p') :
    ∃ ls₁ ls₂ o₁ s₁ p₁, ls = ls₁ ++ ls₂ ∧ Ends (work job) ls₁ s [] o₁ s₁ p₁ ∧
      (∀ e, o₁ = .error e → (∀ l ∈ ls₂, l.isOk = true) → s'.db = s.db.failed jobId) ∧
      (∀ a, o₁ = .ok a → o = .ok a ∧ s'.db = s₁.db) := by
  obtain ⟨ls₁, ls₂, o₁, s₁, p₁, rfl, hwork, hrest⟩ := (guardedTask_inv hjob hst h).graft_inv
  refine ⟨ls₁, ls₂, o₁, s₁, p₁, rfl, hwork, ?_, ?_⟩
  · rintro e rfl hok
    have hdb := hraise ls₁ e s₁ p₁ hwork
    have hnone : ∀ e', .fault e' ∈ ls₂ → False := fun e' he => by cases hok _ he
    have hcatch := Contract.wp_bind (Contract.wp_mono
      (fun _ s p hr => hend (· = s₁.db.failed jobId) e s p hr) (fun _ _ _ hf => hf.elim) _
      (wp_failTask_solo (p := p₁) (hdb ▸ hjob) (hst ▸ hedge)))
    obtain ⟨hret, hraised⟩ := Contract.solo_ends hrest hnone (hwork.free (free_nil _)) hcatch
    rw [← hdb]
    cases o with
    | ok a => exact hret a rfl
    | error e' => exact hraised e' rfl
  · rintro a rfl
    obtain ⟨-, rfl, rfl, -⟩ := hrest.ret_inv
    exact ⟨rfl, rfl⟩

theorem guardedSession_ends {consumes : JobStatus} {skipped : α} {work : RedactionJob → Tx α}
    {onError : Exn → Tx α} {i : Input} {ls : List (Label Input Exn)} {o : Except Exn α}
    (hjob : s.db.job? jobId = some job) (hst : job.status = consumes)
    (hedge : .failed ∈ validTransitions consumes)
    (hraise : ∀ ls e s₁ p₁, Ends (work job) ls s [] (.error e) s₁ p₁ → s₁.db = s.db)
    (hend : ∀ (R : Database → Prop) e s p, R s.db →
      (soloContract Database Write Input (fun _ : Exn => False) fun _ => ()).wp (onError e)
        (fun _ s _ => R s.db) (fun _ s _ => R s.db) s p)
    (h : Ends (guardedTask consumes jobId skipped work onError).closing (.ok i :: ls) s [] o s' p') :
    ∃ ls₁ ls₂ o₁ s₁ p₁, ls = ls₁ ++ ls₂ ∧ Ends (work job) ls₁ s [] o₁ s₁ p₁ ∧
      (∀ e, o₁ = .error e → (∀ l ∈ ls₂, l.isOk = true) → s'.db = s.db.failed jobId) ∧
      (∀ a, o₁ = .ok a → o = .ok a ∧ s'.db = s₁.db) := by
  obtain ⟨ls', j, p₂, hls, hsession, rfl⟩ := h.closing_inv
  cases ls' with
  | nil => exact absurd hsession not_ends_select
  | cons l ls' =>
    obtain ⟨rfl, rfl⟩ := List.cons.inj hls
    obtain ⟨ls₁, ls₂, o₁, s₁, p₁, rfl, hwork, herror, hok⟩ :=
      guardedTask_ends hjob hst hedge hraise hend hsession
    refine ⟨ls₁, ls₂ ++ [.ok j], o₁, s₁, p₁, List.append_assoc _ _ _, hwork, ?_, hok⟩
    exact fun e he hl => herror e he fun l hm => hl l (List.mem_append_left _ hm)

/-! ### The work of the three tasks -/

theorem ingestWork_raises {ls : List (Label Input Exn)} {e : Exn} {s₁ : Shared Database World}
    {p₁ : List Write} (hst : job.status = .uploaded)
    (h : Ends (ingestWork env job) ls s [] (.error e) s₁ p₁) : s₁.db = s.db := by
  have hput : ToleratesPages (soloContract Database Write Input (fun _ : Exn => True) fun _ => ())
      job.documentId := fun _ _ =>
    ⟨fun _ _ => ⟨trivial, trivial, rfl, rfl⟩, fun _ _ => ⟨trivial, trivial, rfl, rfl⟩⟩
  have hwork : Contract.wp _ (ingestWork env job) (fun _ _ _ => True) (fun _ s' _ => s'.db = s.db)
      s [] := wp_ingestWork hput hst (fun _ _ _ _ h' => h'.past.1)
    (fun _ _ _ h₁ _ h₂ => (h₁.trans h₂).past.1) fun _ _ _ _ _ _ _ => ⟨trivial, trivial, trivial⟩
  exact (Contract.solo_ends h (fun _ _ => trivial) (free_nil _) hwork).2 e rfl

theorem detectWork_raises {ls : List (Label Input Exn)} {e : Exn} {s₁ : Shared Database World}
    {p₁ : List Write} (hst : job.status = .ingested)
    (h : Ends (detectWork env job) ls s [] (.error e) s₁ p₁) : s₁.db = s.db := by
  have hwork : Tries (soloContract Database Write Input (fun _ : Exn => True) fun _ => ())
      (fun _ => True) (detectWork env job) s :=
    tries_detectWork hst fun _ _ _ _ _ _ _ => ⟨trivial, trivial, trivial⟩
  exact ((Contract.solo_ends h (fun _ _ => trivial) (free_nil _) hwork).2 e rfl).past.1

/-- What a delivery leaves whose gate fails. -/
def GateFailed (env : Env) (s : Shared Database World) (job : RedactionJob) (db' : Database) :
    Prop :=
  ∀ bytes spans result, s.world.objects (Keys.originalPdfKey job.documentId) = some bytes →
    s.db.approvedSpans job.documentId = .ok spans → apply env bytes spans = .ok result →
    result.passed = false → ∃ started failed, Lifecycle job.id .applyStarted started ∧
      Lifecycle job.id .verifyFailed failed ∧
      db' = { s.db.failed job.id with auditEntries := s.db.auditEntries ++ [started, failed] }

theorem view_applyFailedWrites {started failed : AuditEntry} (hjob : s.db.job? jobId = some job)
    (hst : job.status ≠ .failed) : view s.db (applyFailedWrites job started failed) =
      { s.db.failed jobId with auditEntries := s.db.auditEntries ++ [started, failed] } := by
  rw [← view_failWrite hjob hst]
  simp [view, Store.apply, applyFailedWrites, failWrite, statusWrite, Database.apply]

theorem tries_applyWork_solo {reviewerId : Option UUID} (hjob : s.db.job? jobId = some job)
    (hst : job.status = .applying) :
    Tries (soloContract Database Write Input (fun _ : Exn => True)
        fun w : World => w.objects (Keys.originalPdfKey job.documentId))
      (fun s' => GateFailed env s job s'.db) (applyWork env job reviewerId) s := by
  have hid : job.id = jobId := by simpa using List.find?_some hjob
  refine tries_applyWork trivial hst (fun _ _ _ _ _ _ => ⟨trivial, trivial, rfl, rfl⟩)
    (fun s' data _ => ⟨trivial, trivial, rfl, put_objects_ne data
      (Keys.originalPdfKey_ne_redacted _ _)⟩) ?_ ?_
  · intro s' b started failed h' _ hstarted hfailed _ _
    refine ⟨trivial, trivial, fun _ _ _ _ _ _ _ => ⟨started, failed, hstarted, hfailed, ?_⟩⟩
    have hdb : s'.db = s.db := (b.since h').past.1
    show view s'.db _ = _
    rw [hdb, hid]
    exact view_applyFailedWrites hjob (by rw [hst]; decide)
  · intro s₂ s' b _ _ _ hpass _ _ _ _ _
    refine ⟨trivial, trivial, fun bytes spans result hbytes hspans hresult hfail => ?_⟩
    -- the run has read the bytes and the spans of the state it started from
    have hb : some b.bytes = some bytes :=
      b.original.symm.trans (b.past_original.2.trans hbytes)
    have hs : (.ok b.spans : Except Exn _) = .ok spans := by
      rw [← hspans, ← b.approved, b.past_spans.1, b.past_original.1]
    have happlied := b.applied
    rw [Option.some.inj hb, Except.ok.inj hs, hresult] at happlied
    rw [Except.ok.inj happlied, hpass] at hfail
    cases hfail

/-! ### The three tasks -/

theorem failsClean_ingestJob (hjob : s.db.job? jobId = some job) (hst : job.status = .uploaded) :
    FailsClean (ingestJob env jobId) (ingestWork env job) jobId s := by
  intro i ls o s' p' h
  -- the message to the next task changes no row
  obtain ⟨ls₁, ls₂, o₁, s₁, p₁, rfl, hsession, hdb⟩ : ∃ ls₁ ls₂ o₁ s₁ p₁, ls = ls₁ ++ ls₂ ∧
      Ends (ingestSession env jobId).closing (.ok i :: ls₁) s [] o₁ s₁ p₁ ∧ s'.db = s₁.db := by
    rcases h.bind_inv with ⟨ls₁, ls₂, ingested, s₁, p₁, hls, hsession, hkiq⟩ | ⟨e, -, hsession⟩
    · cases ls₁ with
      | nil => exact absurd hsession not_ends_select
      | cons l ls₁ =>
        obtain ⟨rfl, rfl⟩ := List.cons.inj hls
        refine ⟨ls₁, ls₂, _, s₁, p₁, rfl, hsession, ?_⟩
        cases ingested with
        | true =>
          have hsend : Ends (kiq (.detectJob jobId)) ls₂ s₁ ([] ++ p₁) o s' p' := hkiq
          exact (hsend.settled (uncommitted_kiq _)).1
        | false =>
          obtain ⟨-, -, rfl, -⟩ := hkiq.ret_inv
          rfl
    · exact ⟨ls, [], _, s', p', (List.append_nil ls).symm, hsession, rfl⟩
  have hraise : ∀ ls e s₁ p₁, Ends (do ingestWork env job; return true : Tx Bool) ls s []
      (.error e) s₁ p₁ → s₁.db = s.db := by
    intro ls e s₁ p₁ hwork
    rcases hwork.bind_inv with ⟨_, _, _, _, _, _, _, hret⟩ | ⟨e', he, hwork⟩
    · obtain ⟨-, ho, -⟩ := hret.ret_inv
      cases ho
    · exact ingestWork_raises hst hwork
  obtain ⟨la, lb, o₂, s₂, p₂, rfl, hwork, herror, hok⟩ := guardedSession_ends hjob hst (by decide)
    hraise (fun R e s p hr => by
      show Contract.wp _ (if e.isIngestRejection then _ else _) _ _ s p
      split <;> exact hr) hsession
  rw [hdb, List.append_assoc]
  rcases hwork.bind_inv with ⟨la₁, la₂, _, s₃, p₃, rfl, hingest, hret⟩ | ⟨e, rfl, hingest⟩
  · obtain ⟨rfl, rfl, rfl, rfl⟩ := hret.ret_inv
    rw [List.append_nil]
    exact ⟨la₁, lb ++ ls₂, _, _, _, rfl, hingest, fun e he => (by cases he),
      fun _ => (hok true rfl).2⟩
  · refine ⟨la, lb ++ ls₂, _, _, _, rfl, hingest, fun e' _ hl => ?_, fun he => (by cases he)⟩
    exact herror e rfl fun l hm => hl l (List.mem_append_left _ hm)

theorem failsClean_detectJob (hjob : s.db.job? jobId = some job) (hst : job.status = .ingested) :
    FailsClean (detectJob env jobId) (detectWork env job) jobId s := by
  intro i ls o s' p' h
  obtain ⟨ls₁, ls₂, o₁, s₁, p₁, hls, hwork, herror, hok⟩ := guardedSession_ends hjob hst (by decide)
    (fun _ _ _ _ => detectWork_raises hst) (fun _ _ _ _ hr => by exact hr) h
  exact ⟨ls₁, ls₂, o₁, s₁, p₁, hls, hwork, herror, fun ho => (hok () ho).2⟩

theorem failsClean_applyJob {reviewerId : Option UUID} (hjob : s.db.job? jobId = some job)
    (hst : job.status = .applying) :
    FailsClean (applyJob env jobId reviewerId) (applyWork env job reviewerId) jobId s := by
  intro i ls o s' p' h
  have hraise : ∀ ls e s₁ p₁, Ends (applyWork env job reviewerId) ls s [] (.error e) s₁ p₁ →
      s₁.db = s.db := fun ls e s₁ p₁ hwork =>
    ((Contract.solo_ends hwork (fun _ _ => trivial) (free_nil _)
      (tries_applyWork_solo hjob hst)).2 e rfl).past.1
  obtain ⟨ls₁, ls₂, o₁, s₁, p₁, hls, hwork, herror, hok⟩ := guardedSession_ends hjob hst (by decide)
    hraise (fun _ _ _ _ hr => by exact hr) h
  exact ⟨ls₁, ls₂, o₁, s₁, p₁, hls, hwork, herror, fun ho => (hok () ho).2⟩

/-- **A failing task leaves no partial work.**  Wherever the work of a task raises, after the
guard and before the commit, the database afterwards is the one before with the job failed.
A delivery whose gate fails returns, and has committed that and two entries. -/
theorem failing_task (hjob : s.db.job? jobId = some job) :
    (job.status = .uploaded → FailsClean (ingestJob env jobId) (ingestWork env job) jobId s) ∧
    (job.status = .ingested → FailsClean (detectJob env jobId) (detectWork env job) jobId s) ∧
    (job.status = .applying → ∀ reviewerId,
      FailsClean (applyJob env jobId reviewerId) (applyWork env job reviewerId) jobId s ∧
      ∀ ls s₁ p₁, Ends (applyWork env job reviewerId) ls s [] (.ok ()) s₁ p₁ →
        GateFailed env s job s₁.db) :=
  ⟨failsClean_ingestJob hjob, failsClean_detectJob hjob, fun hst _ =>
    ⟨failsClean_applyJob hjob hst, fun _ _ _ h => (Contract.solo_ends h (fun _ _ => trivial)
      (free_nil _) (tries_applyWork_solo hjob hst)).1 () rfl⟩⟩

end

def missingOriginal : Shared Database World :=
  ⟨{ Database.empty with jobs := [⟨4, 1, 6, .ingested, none⟩] }, World.empty⟩

theorem failing_task_missing :
    FailsClean (detectJob (Env.letter fun _ => "00") 4)
      (detectWork (Env.letter fun _ => "00") ⟨4, 1, 6, .ingested, none⟩) 4 missingOriginal ∧
    ((Sys.start missingOriginal [detectJob (Env.letter fun _ => "00") 4]).replay
      (List.replicate 8 (0, .ok ⟨0, sampleTime⟩))).map (·.shared.db) =
        some (missingOriginal.db.failed 4) :=
  ⟨(failing_task rfl).2.1 rfl, by decide +kernel⟩

end RedactApi
