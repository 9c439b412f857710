import RedactApi.Pipeline.Lifecycle

/-!
# The `EXPORTED` event

An export loads the job, and much later appends `EXPORTED` if the loaded job is verified.
The number of the entry is read at the append: an export that reads it after another one has
committed numbers its entry after the other's, and nothing stops it.  The event is recorded
once as long as every commit that records it finds the job still verified
(`recordsVerified`), whatever else overlaps.
-/

namespace RedactApi

open ReadCommitted

/-! ### One entry for an exported job -/

def Database.exports (db : Database) (jobId : UUID) : List AuditEntry :=
  (db.entries jobId).filter (·.action = .exported)

/-- The event of an exported job is recorded once, that of any other job is not. -/
def ExportRecorded (db : Database) (jobId : UUID) : Prop :=
  (db.exports jobId).length = if db.status? jobId = some .exported then 1 else 0

section

variable {env : Env} {s : Shared Database World} {jobId : UUID}

theorem exports_view (db : Database) (p : List Write) (jobId : UUID) :
    (view db p).exports jobId =
      db.exports jobId ++ (p.flatMap (·.entries jobId)).filter (·.action = .exported) := by
  rw [Database.exports, entries_view, List.filter_append]
  rfl

/-- How often a chain of each shape records the event. -/
theorem ChainShape.exported {status : JobStatus} {entries : List AuditEntry}
    (h : ChainShape status entries) : (entries.filter (·.action = .exported)).length =
      if status = .exported then 1 else 0 := by
  obtain ⟨review, closing, rfl, hreview, -, hactions⟩ := h
  have hnone : review.filter (·.action = .exported) = [] := by
    refine List.filter_eq_nil_iff.mpr fun e he ha => ?_
    have hoc := (hreview e he).2
    rw [of_decide_eq_true ha] at hoc
    exact absurd hoc (by decide)
  have hcount : (closing.filter (·.action = .exported)).length =
      (closing.map (·.action)).count .exported := by
    rw [List.count, List.countP_map, List.countP_eq_length_filter]
    congr 2
  have hall : ∀ st : JobStatus, ∀ actions ∈ closings st,
      actions.count .exported = if st = .exported then 1 else 0 := by
    intro st
    cases st <;> decide
  rw [List.filter_append, hnone, List.nil_append, hcount]
  exact hall status _ hactions

/-- Operations that run one at a time leave every job recorded. -/
theorem LifeInv.exportRecorded (h : LifeInv env s) (jobId : UUID) :
    ExportRecorded s.db jobId := by
  rw [ExportRecorded, Database.status?]
  cases hjob : s.db.job? jobId with
  | some job =>
    have hshape := (h.jobs job (job?_mem hjob)).chain
    rw [job?_id hjob] at hshape
    rw [Option.map_some, Database.exports, hshape.exported]
    simp only [Option.some.injEq]
  | none =>
    have hnone : s.db.entries jobId = [] := by
      refine List.filter_eq_nil_iff.mpr fun e he hid => ?_
      obtain ⟨job, hj, hje⟩ := h.reviewed.wf.entry_fk e he
      have habsent := List.find?_eq_none.mp hjob job hj
      simp only [decide_eq_true_eq] at hid habsent
      exact habsent (hje.trans hid)
    rw [Database.exports, hnone]
    rfl

/-! ### Commits that record the event -/

def recordsExport (jobId : UUID) (p : List Write) : Bool :=
  (p.flatMap (·.entries jobId)).any (·.action = .exported)

/-- A commit that records the event finds the job verified. -/
def recordsVerified (jobId : UUID) (db : Database) (p : List Write) : Bool :=
  !recordsExport jobId p || db.status? jobId = some .verified

/-- The commits considered record the event of a verified job. -/
def exportContract (jobId : UUID) : Contract Database Write World Input Exn where
  inv s := ExportRecorded s.db jobId
  rely _ _ := True
  guar _ _ := True
  allowed s p := recordsVerified jobId s.db p = true
  input _ _ _ := True
  fault _ := True
  past _ _ := True
  rely_refl _ := trivial
  rely_trans _ _ := trivial
  guar_refl _ := trivial
  past_refl _ := trivial
  past_trans _ _ := trivial
  rely_past _ := trivial

/-- **The first export records the event** where none is recorded. -/
theorem ExportRecorded.first {db : Database} {job : RedactionJob} {exported : AuditEntry}
    (h : ExportRecorded db job.id) (hst : job.status = .verified)
    (hstatus : db.status? job.id = some .verified) (he : Lifecycle job.id .exported exported) :
    ExportRecorded (view db (exportWrites job exported)) job.id := by
  have hnone : db.exports job.id = [] := by
    rw [ExportRecorded, hstatus] at h
    exact List.eq_nil_of_length_eq_zero h
  have hmoved : (view db (exportWrites job exported)).status? job.id = some .exported := by
    rw [status_view _ hstatus, exportWrites, moves_insertAudit,
      moves_statusWrite _ (by rw [hst]; decide), if_pos rfl]
    rfl
  have hentry : (exportWrites job exported).flatMap (·.entries job.id) = [exported] := by
    simp [exportWrites, statusWrite, Write.entries, he.job]
  rw [ExportRecorded, hmoved, if_pos rfl, exports_view, hnone, hentry]
  simp [he.action]

theorem recordsExport_exportWrites {job : RedactionJob} {exported : AuditEntry}
    (he : Lifecycle job.id .exported exported) :
    recordsExport job.id (exportWrites job exported) = true := by
  simp [recordsExport, exportWrites, statusWrite, Write.entries, he.job, he.action]

theorem safe_exportJob_once (env : Env) (tenant : TenantContext)
    (hi : ExportRecorded s.db jobId) :
    (exportContract jobId).Safe (exportJob env tenant jobId) s [] := by
  refine safe_exportJob (fun data s hi => ⟨hi, trivial, trivial⟩) ?_ hi
  intro s₁ s₂ job exported _ hjob hst h₂ he _ hallowed
  have hid := hjob.id
  subst hid
  have hstatus : s₂.db.status? job.id = some .verified := by
    change recordsVerified job.id s₂.db (exportWrites job exported) = true at hallowed
    rw [recordsVerified, recordsExport_exportWrites he] at hallowed
    simpa using hallowed
  exact ⟨ExportRecorded.first h₂.inv hst hstatus he, trivial, trivial⟩

/-! ### Runs -/

def recordsVerifiedStep (jobId : UUID) (S : Pipeline) (i : Nat) (l : Label Input Exn) : Bool :=
  match S.threads[i]?, l with
  | some t, .ok _ => !t.prog.atCommit || recordsVerified jobId S.shared.db t.pending
  | _, _ => true

/-- Schedules in which the event is only recorded for a verified job. -/
def recordedVerified (jobId : UUID) : Guard Database Write World Input Exn Unit := fun S i l =>
  recordsVerifiedStep jobId S i l = true

theorem fits_export (jobId : UUID) : (exportContract jobId).Fits (recordedVerified jobId) where
  fault _ := trivial
  input _ _ := trivial
  commit hg ht hc := by
    simp only [recordedVerified, recordsVerifiedStep, ht, hc] at hg
    exact hg

def Pipeline.exports (env : Env) (s : Shared Database World) (jobId : UUID)
    (tenants : List TenantContext) : Pipeline :=
  Pipeline.start env s (tenants.map (.exportJob · jobId))

/-- **The event is recorded exactly once** in every run of any number of exports of one job,
under every interleaving in which a commit that records it finds the job verified: at most
one entry, and exactly one once the job is exported. -/
theorem exported_once (tenants : List TenantContext) (S : Pipeline)
    (h : ExportRecorded s.db jobId)
    (hr : Sys.Run (recordedVerified jobId) (Pipeline.exports env s jobId tenants) S) :
    (S.shared.db.exports jobId).length ≤ 1 ∧
      (S.shared.db.status? jobId = some .exported → (S.shared.db.exports jobId).length = 1) := by
  have hstart : (exportContract jobId).Good (Pipeline.exports env s jobId tenants) := by
    refine Contract.good_start h fun q hq => ?_
    obtain ⟨operation, hop, rfl⟩ := List.mem_map.mp hq
    obtain ⟨tenant, -, rfl⟩ := List.mem_map.mp hop
    exact Contract.wp_bind (Contract.wp_mono (fun _ _ _ _ => trivial) (fun _ _ _ _ => trivial) _
      (safe_exportJob_once env tenant h))
  have hrecorded : ExportRecorded S.shared.db jobId :=
    (Contract.sound (fits_export jobId) (fun _ _ _ => trivial) hstart hr).inv
  rw [ExportRecorded] at hrecorded
  constructor
  · rw [hrecorded]
    split <;> decide
  · intro hst
    rw [hrecorded, if_pos hst]

end

/-! ### Two exports that overlap -/

section

def verifiedPipeline : Option Pipeline :=
  (Pipeline.start sampleEnv ⟨Database.empty, World.empty⟩ sampleOperations).replayWhere
    Sys.serialStep (sampleSchedule.take 69)

/-- Both load the job before the first one commits, and the second one reads the chain after. -/
def overlappingExports : List (Nat × Label Input Exn) :=
  numbered (List.replicate 7 0 ++ List.replicate 7 1 ++ List.replicate 8 0 ++ List.replicate 8 1)

theorem exportRecorded_verified {S : Pipeline} (hS : verifiedPipeline = some S) (jobId : UUID) :
    ExportRecorded S.shared.db jobId := by
  have hr := Sys.run_of_replayWhere Guard.serial_of_serialStep hS
  refine (life_of_run (fun jobId h => ?_) hr).inv.exportRecorded jobId
  simp [sampleOperations] at h

end

/-- Both exports record the event. -/
theorem exported_twice :
    ∃ (env : Env) (s : Shared Database World) (jobId : UUID) (tenants : List TenantContext)
      (schedule : List (Nat × Label Input Exn)) (S : Pipeline),
      ExportRecorded s.db jobId ∧
      (Pipeline.exports env s jobId tenants).replay schedule = some S ∧
      S.shared.db.status? jobId = some .exported ∧ (S.shared.db.exports jobId).length = 2 := by
  have hsome : (verifiedPipeline.bind fun S =>
      ((Pipeline.exports sampleEnv S.shared 4 [sampleAdmin, sampleAdmin]).replay
        overlappingExports).map fun S =>
          (S.shared.db.status? 4, (S.shared.db.exports 4).length)) =
        some (some .exported, 2) := by decide +kernel
  obtain ⟨S₀, h₀, hsome⟩ := Option.bind_eq_some_iff.mp hsome
  obtain ⟨S, hS, hstate⟩ := Option.map_eq_some_iff.mp hsome
  obtain ⟨hst, hlen⟩ := Prod.mk.inj hstate
  exact ⟨_, _, 4, _, _, S, exportRecorded_verified h₀ 4, hS, hst, hlen⟩

/-- The same overlap, where the second export dies before it commits. -/
theorem exported_once_overlap :
    ∃ (s : Shared Database World) (S : Pipeline),
      (Pipeline.exports sampleEnv s 4 [sampleAdmin, sampleAdmin]).replayWhere
        (recordsVerifiedStep 4)
        (overlappingExports.take 28 ++ [(1, .crash (.external "killed"))]) = some S ∧
      S.shared.db.status? 4 = some .exported ∧ (S.shared.db.exports 4).length = 1 := by
  have hsome : (verifiedPipeline.bind fun S =>
      ((Pipeline.exports sampleEnv S.shared 4 [sampleAdmin, sampleAdmin]).replayWhere
        (recordsVerifiedStep 4) (overlappingExports.take 28 ++ [(1, .crash (.external "killed"))])).map
          (·.shared.db.status? 4)) = some (some .exported) := by decide +kernel
  obtain ⟨S₀, h₀, hsome⟩ := Option.bind_eq_some_iff.mp hsome
  obtain ⟨S, hS, hst⟩ := Option.map_eq_some_iff.mp hsome
  exact ⟨_, S, hS, hst, (exported_once [sampleAdmin, sampleAdmin] S (exportRecorded_verified h₀ 4)
    (Sys.run_of_replayWhere (fun _ _ _ h => h) hS)).2 hst⟩

end RedactApi
