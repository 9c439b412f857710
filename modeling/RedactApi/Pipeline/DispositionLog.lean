import RedactApi.Pipeline.Lifecycle

/-!
# Dispositions and the audit chain

What the review keeps in place and what it logs, read for one job: the entries of
its chain about a span of its document are all the entries about that span, so the
last of them is what `Agree` and `Hashed` speak of.
-/

namespace RedactApi

open ReadCommitted KeyedList

section

variable {db : Database} {job : RedactionJob} {r : Span × Page}

theorem Reviewed.entry_job {env : Env} {exact : Prop} (h : Reviewed env exact db)
    (hj : job ∈ db.jobs) (hr : r ∈ db.spanRows job.documentId) {e : AuditEntry}
    (he : e ∈ db.auditEntries) (habout : e.spanId = some r.1.id) : e.jobId = job.id := by
  obtain ⟨j, hjm, hid, r', hr', hrid⟩ := h.owned e he _ habout
  have hdoc := (h.wf.row_eq hr' hr hrid).2
  rw [← hid, List.inj_on_of_nodup_map h.wf.job_document hjm hj hdoc]

theorem Reviewed.filter_entries {env : Env} {exact : Prop} (h : Reviewed env exact db)
    (hj : job ∈ db.jobs) (hr : r ∈ db.spanRows job.documentId) :
    (db.entries job.id).filter (·.spanId = some r.1.id) =
      db.auditEntries.filter (·.spanId = some r.1.id) := by
  rw [Database.entries, List.filter_filter]
  refine List.filter_congr fun e he => ?_
  by_cases habout : e.spanId = some r.1.id
  · simp [habout, h.entry_job hj hr he habout]
  · simp [habout]

/-- The last entry about a span, found in the chain of the job. -/
theorem Reviewed.lastEntry_eq {env : Env} {exact : Prop} (h : Reviewed env exact db)
    (hj : job ∈ db.jobs) (hr : r ∈ db.spanRows job.documentId) :
    ((db.entries job.id).filter (·.spanId = some r.1.id)).getLast? = db.lastEntry r.1.id := by
  rw [h.filter_entries hj hr]
  rfl

theorem WellFormed.length_dispositions (h : WellFormed db) (x : UUID) :
    (db.dispositions.filter (·.spanId = x)).length ≤ 1 := by
  cases hd : db.disposition? x with
  | none =>
    have hnone := List.find?_eq_none.mp hd
    rw [List.filter_eq_nil_iff.mpr hnone]
    exact Nat.zero_le 1
  | some d =>
    have hm := List.mem_of_find?_eq_some hd
    rw [← disposition?_spanId hd, filter_key (f := Disposition.spanId) h.disposition_span hm]
    exact Nat.le_refl 1

theorem Agree.isSome_iff (h : Agree db) (x : UUID) :
    (db.disposition? x).isSome ↔ (db.lastEntry x).isSome := by
  have hx := h x
  generalize db.disposition? x = d at hx
  generalize db.lastEntry x = e at hx
  cases hx <;> simp

theorem Agree.records (h : Agree db) {x : UUID} {e : AuditEntry} (he : db.lastEntry x = some e) :
    ∃ d, db.disposition? x = some d ∧ Records d e := by
  have hx := h x
  rw [he] at hx
  generalize db.disposition? x = d at hx
  cases hx with
  | some hr => exact ⟨_, rfl, hr⟩

/-- **Dispositions and audit chain agree.**  Operations of any kind run one at a
time, batches among them, each failing or dying at any point.  In every state of
the run, for every span of a document: it has at most one disposition; it has one
exactly when the chain of the job has an entry about it; and the last such entry
gives the action and the reviewer of the disposition, hashes the text of the span
as it is now, and names its category. -/
theorem dispositions_match_chain (env : Env) (world : World) (operations : List Operation)
    (hops : ∀ jobId, .failJob jobId ∉ operations) (S : Pipeline)
    (hr : Sys.Run Guard.serial (Pipeline.start env ⟨Database.empty, world⟩ operations) S)
    (job : RedactionJob) (hj : job ∈ S.shared.db.jobs) (span : Span) (page : Page)
    (hrow : (span, page) ∈ S.shared.db.spanRows job.documentId) :
    let db := S.shared.db
    let about := (db.entriesBySequence job.id).filter (·.spanId = some span.id)
    (db.dispositions.filter (·.spanId = span.id)).length ≤ 1 ∧
    ((db.disposition? span.id).isSome ↔ about ≠ []) ∧
    ∀ e, about.getLast? = some e → ∃ d, db.disposition? span.id = some d ∧
      e.action.outcome = some d.action ∧ d.reviewerId = e.reviewerId ∧
      e.textHash = some (env.hashHex (normalizeText env span.text)) ∧ e.category = span.category := by
  have hinv := (life_of_run hops hr).inv.reviewed
  have hintact : Intact env S.shared.db := chains_of_run (fun _ => HashChain.chain_nil _) hr
  have hlast := hinv.lastEntry_eq hj hrow
  show _ ∧ _ ∧ _
  rw [entriesBySequence_eq (hintact job.id), hlast]
  refine ⟨hinv.wf.length_dispositions span.id, ?_, fun e he => ?_⟩
  · rw [hinv.agree.isSome_iff, ← hlast, List.getLast?_isSome]
  · obtain ⟨d, hd, hrec⟩ := hinv.agree.records he
    obtain ⟨htext, hcategory⟩ := hinv.hashed trivial span (mem_spanRows.mp hrow).1 e he
    exact ⟨d, hd, hrec.action, hrec.reviewer, htext, hcategory⟩

/-- The manual span of the sample review. -/
theorem dispositions_match_chain_manual :
    ∃ S job span page, (Pipeline.start sampleEnv ⟨Database.empty, World.empty⟩
        sampleOperations).replayWhere Sys.serialStep sampleSchedule = some S ∧
      job ∈ S.shared.db.jobs ∧ (span, page) ∈ S.shared.db.spanRows job.documentId ∧
      (S.shared.db.dispositions.filter (·.spanId = span.id)).length ≤ 1 ∧
      (S.shared.db.entriesBySequence job.id).filter (·.spanId = some span.id) ≠ [] := by
  have hsome : ((Pipeline.start sampleEnv ⟨Database.empty, World.empty⟩
      sampleOperations).replayWhere Sys.serialStep sampleSchedule).map (fun S =>
        S.shared.db.jobs.flatMap fun job => (S.shared.db.spanRows job.documentId).map fun r =>
          (S.shared.db.disposition? r.1.id).isSome) = some [true] := by decide +kernel
  obtain ⟨S, hS, hrows⟩ := Option.map_eq_some_iff.mp hsome
  have hm : true ∈ S.shared.db.jobs.flatMap fun job => (S.shared.db.spanRows job.documentId).map
      fun r => (S.shared.db.disposition? r.1.id).isSome := hrows ▸ List.mem_cons_self
  obtain ⟨job, hj, hjr⟩ := List.mem_flatMap.mp hm
  obtain ⟨⟨span, page⟩, hrow, hd⟩ := List.mem_map.mp hjr
  obtain ⟨hone, hiff, -⟩ := dispositions_match_chain sampleEnv World.empty sampleOperations
    (fun jobId h => by simp [sampleOperations] at h) S
    (Sys.run_of_replayWhere Guard.serial_of_serialStep hS) job hj span page hrow
  exact ⟨S, job, span, page, hS, hj, hrow, hone, hiff.mp hd⟩

end

end RedactApi
