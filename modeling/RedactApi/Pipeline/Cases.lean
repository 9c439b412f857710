import RedactApi.Pipeline.AcceptedReview
import RedactApi.Workflow

/-!
# The pipeline as a workflow

What the pipeline is for can be said without tables, transactions or an object store: a
document is a case of a workflow, its spans are the items to decide on, and its redacted PDF
is the output.  `boardOf` reads the cases off the tables and the store.

Operations that run one at a time never do anything but a step of the workflow
(`pipeline_refines_workflow`).  So what holds of a board of cases holds of the jobs: their
cases are sound, a review only grows, a closed review is frozen, and a redacted PDF is for
good (`review_is_frozen`).
-/

namespace RedactApi

open ReadCommitted KeyedList Workflow

/-! ### Jobs as cases -/

/-- A job is never committed as detected. -/
def JobStatus.stage : JobStatus → Stage
  | .uploaded => .received
  | .ingested => .prepared
  | .detected | .inReview => .review
  | .applying => .closed
  | .verified => .passed
  | .exported => .released
  | .failed => .rejected

def Database.item (db : Database) (r : Span × Page) : Item UUID (Span × Page) :=
  ⟨r.1.id, r, (db.disposition? r.1.id).map fun d => decide (d.action = .approved)⟩

def Database.items (db : Database) (documentId : UUID) : List (Item UUID (Span × Page)) :=
  (db.spanRows documentId).map db.item

/-- Cases of spans on pages; a document with its stored PDF is made into a PDF. -/
abbrev RedactionCase := Case UUID (Span × Page) (UUID × Option Bytes) Bytes

def caseOf (s : Shared Database World) (job : RedactionJob) : RedactionCase where
  stage := job.status.stage
  original := (job.documentId, s.world.objects (Keys.originalPdfKey job.documentId))
  items := s.db.items job.documentId
  output :=
    if job.status ∈ passedStates then s.world.objects (Keys.redactedPdfKey job.id) else none

def boardOf (s : Shared Database World) : Board UUID UUID (Span × Page) (UUID × Option Bytes) Bytes :=
  fun jobId => (s.db.job? jobId).map (caseOf s)

def approvedSpansOf (rows : List (Span × Page)) : Except Exn (List ApprovedSpan) :=
  ((rows.map fun r => (r.1, r.2.pageNumber)).insertionSort fun a b =>
    a.2 < b.2 ∨ a.2 = b.2 ∧ a.1.id ≤ b.1.id).mapM fun r => buildApprovedSpan r.2 r.1.bboxes r.1.text

/-- What the burn-in makes of an original, if it passes the gate. -/
def redact (env : Env) (original : UUID × Option Bytes) (rows : List (Span × Page)) :
    Option Bytes := do
  let bytes ← original.2
  let spans ← (approvedSpansOf rows).toOption
  let result ← (apply env bytes spans).toOption
  if result.passed then some result.pdfBytes else none

section

variable {env : Env} {s s' : Shared Database World} {job new : RedactionJob} {db db' : Database}
  {documentId : UUID}

/-- What is approved in a case is what the burn-in projects. -/
theorem approvedSpans_eq (hwf : WellFormed s.db) :
    s.db.approvedSpans job.documentId = approvedSpansOf (caseOf s job).approved := by
  have happroved : (caseOf s job).approved = (s.db.spanRows job.documentId).filter fun r =>
      s.db.dispositions.any fun d => d.spanId = r.1.id ∧ d.action = .approved := by
    show (((s.db.spanRows job.documentId).map s.db.item).filter
      (·.decision = some true)).map (·.content) = _
    rw [List.filter_map, List.map_map, show (·.content) ∘ s.db.item = id from rfl, List.map_id]
    refine List.filter_congr fun r _ => ?_
    rw [hwf.any_approved]
    show decide ((s.db.disposition? r.1.id).map _ = some true) = _
    cases s.db.disposition? r.1.id with
    | none => rfl
    | some d => simp
  rw [Database.approvedSpans, Database.approvedRows, happroved]
  rfl

/-- The stored artifact is what the workflow asks for. -/
theorem Artifact.redact (h : Artifact env s job) (hwf : WellFormed s.db) :
    ∃ output, redact env (caseOf s job).original (caseOf s job).approved = some output ∧
      s.world.objects (Keys.redactedPdfKey job.id) = some output := by
  obtain ⟨original, spans, result, horiginal, hspans, happly, hpass, hredacted⟩ := h
  refine ⟨result.pdfBytes, ?_, hredacted⟩
  rw [approvedSpans_eq hwf] at hspans
  rw [RedactApi.redact, show (caseOf s job).original.2 = some original from horiginal, hspans]
  simp [Except.toOption, happly, hpass]

/-! ### Frames -/

theorem SameSpans.items (h : SameSpans documentId db db') :
    db'.items documentId = db.items documentId := by
  rw [Database.items, Database.items, h.rows]
  refine List.map_congr_left fun r hr => ?_
  rw [Database.item, Database.item, h.dispositions r hr]

/-- A job that keeps its promises, its original and its spans is the same case: its PDF is
what they make. -/
theorem caseOf_frame (hi : JobInv env s job) (hi' : JobInv env s' job) (hwf : WellFormed s.db)
    (hwf' : WellFormed s'.db) (hspans : SameSpans job.documentId s.db s'.db)
    (ho : s'.world.objects (Keys.originalPdfKey job.documentId) =
      s.world.objects (Keys.originalPdfKey job.documentId)) : caseOf s' job = caseOf s job := by
  have hitems : (caseOf s' job).items = (caseOf s job).items := hspans.items
  have houtput : (caseOf s' job).output = (caseOf s job).output := by
    by_cases hst : job.status ∈ passedStates
    · obtain ⟨output, hmake, hstored⟩ := (hi.artifact hst).redact hwf
      obtain ⟨output', hmake', hstored'⟩ := (hi'.artifact hst).redact hwf'
      rw [Case.approved, hitems, show (caseOf s' job).original = (caseOf s job).original from
        congrArg (Prod.mk job.documentId) ho,
        ← Case.approved, hmake] at hmake'
      simp only [caseOf, if_pos hst]
      rw [hstored, hstored', hmake']
    · simp only [caseOf, if_neg hst]
  simp only [caseOf] at hitems houtput ⊢
  rw [hitems, houtput, ho]

theorem boardOf_eq (hwf : WellFormed s.db) (hj : job ∈ s.db.jobs) :
    boardOf s job.id = some (caseOf s job) := by
  rw [boardOf, hwf.job?_eq hj]
  rfl

theorem boardOf_congr (hjobs : s'.db.jobs = s.db.jobs)
    (hsame : ∀ j ∈ s.db.jobs, caseOf s' j = caseOf s j) : boardOf s' = boardOf s := by
  funext jobId
  rw [boardOf, boardOf, show s'.db.job? jobId = s.db.job? jobId by rw [Database.job?, hjobs]; rfl]
  cases h : s.db.job? jobId with
  | none => rfl
  | some j => exact congrArg some (hsame j (job?_mem h))

theorem boardOf_update (hwf : WellFormed s.db) (hwf' : WellFormed s'.db)
    (hjobs : ∀ j, j ∈ s'.db.jobs ↔ j = new ∨ j ∈ s.db.jobs ∧ j.id ≠ new.id)
    (hsame : ∀ j ∈ s.db.jobs, j.id ≠ new.id → caseOf s' j = caseOf s j) :
    boardOf s' = Function.update (boardOf s) new.id (some (caseOf s' new)) := by
  funext jobId
  by_cases hid : jobId = new.id
  · subst hid
    rw [Function.update_self, boardOf, hwf'.job?_eq ((hjobs new).mpr (Or.inl rfl))]
    rfl
  · rw [Function.update_of_ne hid, boardOf, boardOf]
    cases h : s.db.job? jobId with
    | none =>
      have hnone : s'.db.job? jobId = none := by
        refine Option.eq_none_iff_forall_ne_some.mpr fun j hj => ?_
        rcases (hjobs j).mp (job?_mem hj) with rfl | ⟨hold, -⟩
        · exact hid (job?_id hj).symm
        · have hsome := hwf.job?_eq hold
          rw [job?_id hj, h] at hsome
          cases hsome
      rw [hnone]
      rfl
    | some j =>
      have hne : j.id ≠ new.id := fun he => hid ((job?_id h).symm.trans he)
      have hnew := hwf'.job?_eq ((hjobs j).mpr (Or.inr ⟨job?_mem h, hne⟩))
      rw [job?_id h] at hnew
      rw [hnew]
      exact congrArg some (hsame j (job?_mem h) hne)

/-! ### One operation at a time is at most one step of the workflow -/

theorem works_refl (env : Env) (s : Shared Database World) :
    Relation.ReflGen (Board.Step (redact env)) (boardOf s) (boardOf s) := .refl

/-- One operation at a time; what it does to the board is at most one step. -/
def caseContract (env : Env) : Contract Database Write World Input Exn :=
  { lifeContract env with
    guar := fun s s' => Relation.ReflGen (Board.Step (redact env)) (boardOf s) (boardOf s')
    guar_refl := works_refl env }

theorem CaseAfter.life (h : (caseContract env).After s s') : (lifeContract env).After s s' :=
  ⟨h.inv, h.past⟩

def BurnIn.life {s₁ : Shared Database World} (b : BurnIn (caseContract env) env s₁ job) :
    BurnIn (lifeContract env) env s₁ job :=
  ⟨b.bytes, b.spans, b.result, b.atOriginal, b.atSpans, b.past_original, b.original, b.past_spans,
    b.approved, b.applied⟩

theorem case_acts {w : World} (hi : LifeInv env s) (h : (lifeContract env).Acts s w) :
    (caseContract env).Acts s w where
  inv := h.inv
  guar := by
    have hboard : boardOf { s with world := w } = boardOf s := boardOf_congr rfl fun j hj =>
      caseOf_frame (hi.jobs j hj) (h.inv.jobs j hj) hi.reviewed.wf hi.reviewed.wf
        (SameSpans.refl _ _) (SameOriginals.original h.past.2 hi.reviewed.wf hj)
    show Relation.ReflGen _ (boardOf s) (boardOf { s with world := w })
    rw [hboard]
  past := h.past

theorem case_tolerates {f : World → World} (h : Tolerates (lifeContract env) f) :
    Tolerates (caseContract env) f := fun s hi => case_acts hi (h s hi)

/-- A commit that keeps every job's promises and makes a step of one job's case. -/
theorem case_lands {p : List Write} (hi : LifeInv env s) (hj : job ∈ s.db.jobs)
    (h : (lifeContract env).Lands (fun _ _ _ => True) s p)
    (hjobs : ∀ j, j ∈ (view s.db p).jobs ↔ j = new ∨ j ∈ s.db.jobs ∧ j.id ≠ new.id)
    (hid : new.id = job.id)
    (hothers : ∀ j ∈ s.db.jobs, j.id ≠ job.id → SameReview j s.db (view s.db p))
    (hstep : Case.Step (redact env) (caseOf s job) (caseOf { s with db := view s.db p } new)) :
    (caseContract env).Lands (fun _ _ _ => True) s p := by
  refine ⟨h.1, ?_, trivial⟩
  have hboard : boardOf { s with db := view s.db p } =
      Function.update (boardOf s) new.id (some (caseOf { s with db := view s.db p } new)) := by
    refine boardOf_update hi.reviewed.wf h.1.reviewed.wf hjobs fun j hjm hne => ?_
    have hsame := hothers j hjm (hid ▸ hne)
    exact caseOf_frame (hi.jobs j hjm) (h.1.jobs j hsame.row) hi.reviewed.wf h.1.reviewed.wf
      hsame.spans rfl
  refine .single ?_
  show Board.Step _ _ (boardOf { s with db := view s.db p })
  rw [hboard]
  exact .act (hid ▸ boardOf_eq hi.reviewed.wf hj) hstep

theorem case_lands_closing {es : List AuditEntry} {output : Option Bytes} (hi : LifeInv env s)
    (hj : job ∈ s.db.jobs) (hsame : SameJob job new) (hes : ∀ e ∈ es, e.jobId = job.id ∧ e.spanId = none)
    (h : (lifeContract env).Lands (fun _ _ _ => True) s (closingWrites job new es))
    (houtput : (if new.status ∈ passedStates then s.world.objects (Keys.redactedPdfKey job.id)
      else none) = output)
    (hstep : Case.Step (redact env) (caseOf s job)
      { caseOf s job with stage := new.status.stage, output := output }) :
    (caseContract env).Lands (fun _ _ _ => True) s (closingWrites job new es) := by
  have hview := view_closingWrites s.db job new es
  refine case_lands hi hj h (fun j => ?_) hsame.id
    (fun j hjm hne => others_closing hi.reviewed.wf hj hsame hes hjm hne) ?_
  · rw [hview, hsame.id]
    exact hi.reviewed.wf.mem_updateJob hj hsame.id hsame.document hsame.organization
  · have hspans : SameSpans job.documentId s.db (view s.db (closingWrites job new es)) := by
      rw [hview]
      exact ⟨rfl, fun _ _ => rfl⟩
    have hitems := hspans.items
    simp only [caseOf] at hstep ⊢
    rw [hsame.document, hsame.id, hitems, houtput]
    exact hstep

theorem case_lands_open {es : List AuditEntry} (hi : LifeInv env s) (hj : job ∈ s.db.jobs)
    (hsame : SameJob job new) (hes : ∀ e ∈ es, e.jobId = job.id ∧ e.spanId = none)
    (h : (lifeContract env).Lands (fun _ _ _ => True) s (closingWrites job new es))
    (hopen : job.status ∉ passedStates) (hnew : new.status ∉ passedStates)
    (hstep : Case.Step (redact env) (caseOf s job) { caseOf s job with stage := new.status.stage }) :
    (caseContract env).Lands (fun _ _ _ => True) s (closingWrites job new es) := by
  refine case_lands_closing hi hj hsame hes h ?_ hstep
  rw [if_neg hnew]
  exact (if_neg hopen).symm

end

/-! ### The operations -/

section

variable {env : Env} {s : Shared Database World} {job : RedactionJob}

theorem case_fails {consumes : JobStatus} (hconsumes : consumes ∈ consumedStates) (jobId : UUID) :
    LandsFailure (caseContract env) jobId consumes fun _ => True := by
  intro s₀ s₁ s₂ job₀ job h₀ hjob₀ hst h₁ hjob hedge h₂ hal
  have hsame : job₀ = job := by
    rw [h₁.past.1, hjob₀] at hjob
    exact Option.some.inj hjob
  subst hsame
  have hj : job₀ ∈ s₂.db.jobs := h₂.past.1 ▸ job?_mem hjob
  have hlands := life_fails hconsumes jobId s₀ s₁ s₂ job₀ job₀ h₀ hjob₀ hst (CaseAfter.life h₁)
    hjob hedge (CaseAfter.life h₂) hal
  have hfallible : ∀ st ∈ consumedStates, st.stage ∈ Stage.fallible := by decide
  exact @case_lands_open env s₂ job₀ { job₀ with status := .failed } [] h₂.inv hj ⟨rfl, rfl, rfl⟩
    (fun _ h => absurd h List.not_mem_nil) hlands (consumed_open _ (hst ▸ hconsumes)).1
    (show JobStatus.failed ∉ passedStates by decide) (.reject (hfallible _ (hst ▸ hconsumes)))

theorem case_ingests (hi : LifeInv env s) (hj : job ∈ s.db.jobs) (hst : job.status = .uploaded) :
    (caseContract env).Lands (fun _ _ _ => True) s [statusWrite job .ingested] := by
  refine @case_lands_open env s job { job with status := .ingested } [] hi hj ⟨rfl, rfl, rfl⟩
    (fun _ h => absurd h List.not_mem_nil) (life_ingests hi hj hst) (by rw [hst]; decide)
    (show JobStatus.ingested ∉ passedStates by decide) (.prepare ?_)
  show job.status.stage = _
  rw [hst]
  rfl

theorem case_starts (hi : LifeInv env s) (hj : job ∈ s.db.jobs) (hst : job.status = .inReview)
    (hcount : s.db.countUndispositionedSpans job.documentId = 0) :
    (caseContract env).Lands (fun _ _ _ => True) s [statusWrite job .applying] := by
  refine @case_lands_open env s job { job with status := .applying } [] hi hj ⟨rfl, rfl, rfl⟩
    (fun _ h => absurd h List.not_mem_nil) (life_starts hi hj hst hcount) (by rw [hst]; decide)
    (show JobStatus.applying ∉ passedStates by decide) (.close ?_ fun x hx => ?_)
  · show job.status.stage = _
    rw [hst]
    rfl
  · obtain ⟨r, hr, rfl⟩ := List.mem_map.mp hx
    rw [Database.item, Option.isSome_map]
    exact disposed_of_count hcount r hr

theorem case_failsGate {started failed : AuditEntry} (hi : LifeInv env s) (hj : job ∈ s.db.jobs)
    (hst : job.status = .applying) (hstarted : Lifecycle job.id .applyStarted started)
    (hfailed : Lifecycle job.id .verifyFailed failed)
    (hf : Free s.db (applyFailedWrites job started failed)) :
    (caseContract env).Lands (fun _ _ _ => True) s (applyFailedWrites job started failed) := by
  refine @case_lands_open env s job { job with status := .failed } [started, failed] hi hj
    ⟨rfl, rfl, rfl⟩ (lifecycle_pair hstarted hfailed) (life_failsGate hi hj hst hstarted hfailed hf)
    (by rw [hst]; decide) (show JobStatus.failed ∉ passedStates by decide) (.reject ?_)
  show job.status.stage ∈ _
  rw [hst]
  decide

theorem case_passesGate {started passed : AuditEntry} (hi : LifeInv env s) (hj : job ∈ s.db.jobs)
    (hst : job.status = .applying) (ha : Artifact env s job)
    (hstarted : Lifecycle job.id .applyStarted started)
    (hpassed : Lifecycle job.id .verifyPassed passed)
    (hf : Free s.db (applyPassedWrites job started passed)) :
    (caseContract env).Lands (fun _ _ _ => True) s (applyPassedWrites job started passed) := by
  obtain ⟨output, hmake, hstored⟩ := ha.redact hi.reviewed.wf
  refine @case_lands_closing env s job (verifiedJob job) [started, passed] _ hi hj ⟨rfl, rfl, rfl⟩
    (lifecycle_pair hstarted hpassed) (life_passesGate hi hj hst ha hstarted hpassed hf) ?_
    (.pass ?_ hmake)
  · exact (if_pos (show JobStatus.verified ∈ passedStates by decide)).trans hstored
  · show job.status.stage = _
    rw [hst]
    rfl

theorem case_exports {exported : AuditEntry} (hi : LifeInv env s) (hj : job ∈ s.db.jobs)
    (hst : job.status = .verified) (hexported : Lifecycle job.id .exported exported)
    (hf : Free s.db (exportWrites job exported)) :
    (caseContract env).Lands (fun _ _ _ => True) s (exportWrites job exported) := by
  refine @case_lands_closing env s job { job with status := .exported } [exported] _ hi hj
    ⟨rfl, rfl, rfl⟩ (fun e he => ?_) (life_exports hi hj hst hexported hf) ?_
    (.release ?_)
  · rw [List.mem_singleton.mp he]
    exact ⟨hexported.job, hexported.span⟩
  · exact (if_pos (show JobStatus.exported ∈ passedStates by decide)).trans
      (if_pos (show job.status ∈ passedStates by rw [hst]; decide)).symm
  · show job.status.stage = _
    rw [hst]
    rfl

/-! ### A batch reviews -/

theorem item_eq {db db' : Database} {r r' : Span × Page} (hr : r' = r)
    (hd : db'.disposition? r.1.id = db.disposition? r.1.id) : db'.item r' = db.item r := by
  rw [hr, Database.item, Database.item, hd]

/-- One item of a batch amends one row, or adds one that is decided. -/
theorem reviews_batchStep {reviewerId : UUID} {db db' : Database} (h : Reviewed env True db)
    (hj : Present db job) (hs : BatchStep env True job reviewerId db db') :
    Reviews (db.items job.documentId) (db'.items job.documentId) := by
  cases hs with
  | page hdoc hf =>
    rename_i row
    have hrows : (view db [.insertPage row]).spanRows job.documentId = db.spanRows job.documentId :=
      h.wf.spanRows_insertPage hf.head
    have hspans : SameSpans job.documentId db (view db [.insertPage row]) := ⟨hrows, fun _ _ => rfl⟩
    rw [hspans.items]
    exact .refl _
  | existing hrow hid hexact hex he hf =>
    rename_i item span stored page existing newId id organizationId link createdAt entry
    obtain ⟨d, ⟨hspan, -, -⟩, hd, -, hspans, hpages⟩ := existing_effect h.wf hj hrow hid hex he hf
    generalize view db (existingWrites span item existing newId reviewerId entry) = db' at *
    have hrows : db'.spanRows job.documentId = (db.spanRows job.documentId).map
        fun r => (Span.patch span (editedSpan span item) r.1, r.2) := by
      rw [← spanRows_updateSpan]
      exact spanRows_congr (db.apply (.updateSpan _ _)) _ hspans hpages _
    rw [Database.items, Database.items, hrows, List.map_map,
      ← List.append_nil (List.map (db'.item ∘ _) _)]
    refine reviews_map (fun r _ => ⟨?_, ?_⟩) fun _ h => absurd h List.not_mem_nil
    · exact Span.patch_id span _ r.1
    by_cases hsame : r.1.id = span.id
    · refine Or.inr ?_
      show ((db'.disposition? (Span.patch span _ r.1).id).map _).isSome
      rw [Span.patch_id, hd.disposition, hspan, if_pos hsame.symm]
      rfl
    · refine Or.inl (item_eq (Prod.ext (if_neg hsame) rfl) ?_)
      rw [hd.disposition, hspan, if_neg (Ne.symm hsame)]
  | manual hpage hdoc he hf =>
    rename_i item page spanId dispositionId id organizationId link createdAt entry
    obtain ⟨hc, hd, -, hspans, hpages⟩ := manual_effect h.wf hj hpage he hf
    generalize view db (manualWrites (manualSpan spanId page.id item) item dispositionId reviewerId
      entry) = db' at *
    have hrows : db'.spanRows job.documentId =
        db.spanRows job.documentId ++ [(manualSpan spanId page.id item, page)] := by
      have hinsert : (db.apply (.insertSpan (manualSpan spanId page.id item))).spanRows
          job.documentId = _ := h.wf.spanRows_insertSpan _ hpage rfl
      rw [if_pos hdoc] at hinsert
      rw [← hinsert]
      exact spanRows_congr (db.apply (.insertSpan _)) _ hspans hpages _
    rw [Database.items, Database.items, hrows, List.map_append]
    refine reviews_map (fun r hr => ⟨rfl, Or.inl (item_eq rfl ?_)⟩) fun x hx => ?_
    · rw [hd.disposition, if_neg]
      exact fun he => span_fresh hc r.1 (mem_spanRows.mp hr).1 he.symm
    · rw [List.mem_singleton.mp hx]
      show ((db'.disposition? spanId).map _).isSome
      rw [hd.disposition, if_pos rfl]
      rfl

theorem reviews_batch {reviewerId : UUID} {db db' : Database} (h : Reviewed env True db)
    (hj : Present db job) (hs : Relation.ReflTransGen (BatchStep env True job reviewerId) db db') :
    Reviews (db.items job.documentId) (db'.items job.documentId) := by
  induction hs with
  | refl => exact .refl _
  | tail hprefix hstep ih =>
    obtain ⟨hreviewed, hbatched⟩ := batch_keeps h hj hprefix
    obtain ⟨j, hjm, hid, hdoc⟩ := hj
    exact ih.trans (reviews_batchStep hreviewed ⟨j, by rw [hbatched.jobs]; exact hjm, hid, hdoc⟩ hstep)

theorem case_batch {reviewerId : UUID} {p : List Write} (hi : LifeInv env s) (hj : job ∈ s.db.jobs)
    (hst : job.status = .inReview)
    (hs : Relation.ReflTransGen (BatchStep env True job reviewerId) s.db (view s.db p)) :
    (caseContract env).Lands (fun _ _ _ => True) s p := by
  obtain ⟨hlife, hadvances⟩ := hi.batch hj hst hs
  have hbatched := (batch_keeps hi.reviewed ⟨job, hj, rfl, rfl⟩ hs).2
  refine @case_lands env s job job p hi hj ⟨hlife, hadvances, trivial⟩ (fun j => ?_) rfl
    (fun j hjm hne => others_batch hbatched hi.reviewed.wf hj hjm hne) ?_
  · rw [hbatched.jobs]
    constructor
    · intro hjm
      by_cases he : j.id = job.id
      · exact Or.inl (List.inj_on_of_nodup_map hi.reviewed.wf.job_pk hjm hj he)
      · exact Or.inr ⟨hjm, he⟩
    · rintro (rfl | ⟨hjm, -⟩)
      · exact hj
      · exact hjm
  · have hitems := reviews_batch hi.reviewed ⟨job, hj, rfl, rfl⟩ hs
    have hstep : Case.Step (redact env) (caseOf s job)
        { caseOf s job with items := (view s.db p).items job.documentId } :=
      .review (show job.status.stage = _ by rw [hst]; rfl) hitems
    exact hstep

/-! ### Detection finds, an upload is received -/

/-- Nothing has been decided about a span that has just been found. -/
theorem Detected.undecided {db db' : Database} {documentId : UUID} (h : Detected documentId db db')
    (hwf : WellFormed db) (hwf' : WellFormed db') (hempty : db.spanRows documentId = []) :
    ∀ r ∈ db'.spanRows documentId, db'.disposition? r.1.id = none := by
  intro r hr
  refine Option.eq_none_iff_forall_ne_some.mpr fun d hd => ?_
  have hdm := List.mem_of_find?_eq_some hd
  rw [h.dispositions] at hdm
  obtain ⟨span, hs, hid⟩ := hwf.disposition_fk d hdm
  obtain ⟨page, hp, hpid⟩ := hwf.span_fk span hs
  -- the disposition is about a span that was there, and so lies on another document
  have hold : (span, page) ∈ db.spanRows page.documentId := mem_spanRows.mpr ⟨hs, hp, hpid, rfl⟩
  by_cases hdoc : page.documentId = documentId
  · rw [hdoc, hempty] at hold
    exact absurd hold List.not_mem_nil
  · rw [← h.others _ hdoc] at hold
    have hsame := hwf'.row_eq hold hr (hid.trans (disposition?_spanId hd))
    exact hdoc hsame.2

theorem case_detects {seen : Shared Database World → Prop} {p : List Write} (hi : LifeInv env s)
    (hj : job ∈ s.db.jobs) (hst : job.status = .ingested)
    (hp : DetectedWrites seen job.documentId p) (hseen : ∀ s₁, seen s₁ → s₁.db = s.db)
    (hf : Free s.db (detectWrites job p)) :
    (caseContract env).Lands (fun _ _ _ => True) s (detectWrites job p) := by
  obtain ⟨hlife, hadvances⟩ := hi.detect hj hst hp hseen hf
  obtain ⟨hreviewed, hdetected⟩ := detected_of_writes hp hi.reviewed hf.left.left hseen
    (hi.reviewed.wf.job_fk job hj)
  refine @case_lands env s job { job with status := .inReview } (detectWrites job p) hi hj
    ⟨hlife, hadvances, trivial⟩ (fun j => ?_) rfl
    (fun j hjm hne => others_detect hdetected hreviewed.wf hj hjm hne) ?_
  · rw [mem_jobs_detectWrites hreviewed.wf (hdetected.jobs ▸ hj), hdetected.jobs]
  · have hempty := ((hi.jobs job hj).untouched (by rw [hst]; decide)).1
    have hcase : caseOf { s with db := view s.db (detectWrites job p) } { job with status := .inReview } =
        { caseOf s job with
          stage := .review
          items := (view s.db (detectWrites job p)).items job.documentId } := by
      simp only [caseOf]
      rw [if_neg (show JobStatus.inReview ∉ passedStates by decide),
        if_neg (show job.status ∉ passedStates by rw [hst]; decide)]
      rfl
    rw [hcase]
    refine .find (show job.status.stage = _ by rw [hst]; rfl) fun x hx => ?_
    obtain ⟨r, hr, rfl⟩ := List.mem_map.mp hx
    rw [view_detectWrites] at hr ⊢
    have hnone := hdetected.undecided hi.reviewed.wf hreviewed.wf hempty r hr
    show Option.map _ ((view s.db p).disposition? r.1.id) = none
    rw [hnone]
    rfl

theorem case_creates {document : Document} (hi : LifeInv env s) (hfresh : Fresh document job)
    (hf : Free s.db (createWrites document job)) :
    (caseContract env).Lands (fun _ _ _ => True) s (createWrites document job) := by
  obtain ⟨hlife, hadvances⟩ := hi.create hfresh hf
  have hnew := fun j hj => (job_fresh hf.tail.tail.head j hj).1
  refine ⟨hlife, .single ?_, trivial⟩
  have hboard : boardOf { s with db := view s.db (createWrites document job) } =
      Function.update (boardOf s) job.id
        (some (caseOf { s with db := view s.db (createWrites document job) } job)) := by
    refine boardOf_update hi.reviewed.wf hlife.reviewed.wf (fun j => ?_) fun j hj _ =>
      caseOf_frame (hi.jobs j hj) (hlife.jobs j (List.mem_append_left _ hj)) hi.reviewed.wf
        hlife.reviewed.wf (same_create hj).spans rfl
    show j ∈ s.db.jobs ++ [job] ↔ _
    rw [List.mem_append, List.mem_singleton, or_comm]
    exact or_congr_right ⟨fun hj => ⟨hj, hnew j hj⟩, fun hj => hj.1⟩
  show Board.Step _ _ (boardOf { s with db := view s.db (createWrites document job) })
  rw [hboard]
  have hempty := ((hlife.jobs job (List.mem_append_right _ List.mem_cons_self)).untouched
    (by rw [hfresh.status]; decide)).1
  have hcase : caseOf { s with db := view s.db (createWrites document job) } job =
      .received (job.documentId, s.world.objects (Keys.originalPdfKey job.documentId)) := by
    rw [caseOf, hfresh.status, Database.items, hempty]
    rfl
  rw [hcase]
  refine .receive ?_
  rw [boardOf, Option.map_eq_none_iff]
  exact Option.eq_none_iff_forall_ne_some.mpr fun j hj => hnew j (job?_mem hj) (job?_id hj)

end

/-- **Every operation does at most one step of the workflow when it runs alone.** -/
theorem operates_case (env : Env) : Operates (caseContract env) env where
  pages documentId n data := ⟨case_tolerates ((operates_life env).pages documentId n data).1,
    case_tolerates ((operates_life env).pages documentId n data).2⟩
  enqueue message := case_tolerates ((operates_life env).enqueue message)
  manifest jobId data := case_tolerates ((operates_life env).manifest jobId data)
  fails _ hconsumes jobId := case_fails hconsumes jobId
  ingests _ _ _ _ hjob hst h₂ _ := case_ingests h₂.inv (h₂.past.1 ▸ job?_mem hjob) hst
  detects _ _ _ _ _ hjob hst h₂ hp hf _ := case_detects h₂.inv (h₂.past.1 ▸ job?_mem hjob) hst hp
    (fun _ hs => hs.1.trans h₂.past.1.symm) hf
  burns s₁ s₃ s job spans hi hjob hst hpast hspans h := case_acts h.inv
    ((operates_life env).burns s₁ s₃ s job spans hi hjob hst hpast hspans (CaseAfter.life h))
  stores _ _ _ _ _ hjob hst h := case_acts h.inv (life_stores h.inv (h.past.1 ▸ job?_mem hjob) hst)
  failsGate s₁ s job b _ _ _ hjob hst h _ hstarted hfailed hf _ := by
    have hdb : s.db = s₁.db := (b.since h).past.1
    exact case_failsGate h.inv (hdb ▸ job?_mem hjob) hst hstarted hfailed hf
  passesGate s₁ s₂ s job b _ _ h₁ hjob hst h hres hstore hstarted hpassed hf _ := by
    have hdb : s.db = s₁.db := (b.since h).past.1
    exact case_passesGate h.inv (hdb ▸ job?_mem hjob) hst
      (life_artifact h₁ (job?_mem hjob) b.life h.past hres (congrArg Shared.world hstore))
      hstarted hpassed hf
  uploads _ _ _ _ h _ _ hf := case_acts h (life_uploads h hf)
  creates _ _ _ h hfresh hf _ := case_creates h hfresh hf
  disposes s₁ s₂ _ _ job _ _ hjob hst h₂ hp hf _ := by
    have hj : job ∈ s₂.db.jobs := h₂.past.1 ▸ hjob.mem
    have hseen : ∀ t, (caseContract env).Between s₁ s₂ t → t.db = s₂.db := fun t ht => ht.2.1.symm
    exact case_batch h₂.inv hj hst (batchSteps_of_writes hp h₂.inv.reviewed ⟨job, hj, rfl, rfl⟩ hf
      (fun t ht => hseen t ht ▸ Extends.refl _) (Or.inl hseen))
  starts _ _ _ _ _ _ _ hjob hst h₂ hcount h₃ _ := by
    rw [← h₃.past.1] at hcount
    exact case_starts h₃.inv (h₃.past.1 ▸ h₂.past.1 ▸ hjob.mem) hst hcount
  exports _ _ _ _ _ _ _ hjob hst h₂ hexported hf _ :=
    case_exports h₂.inv (h₂.past.1 ▸ hjob.mem) hst hexported hf

/-! ### Runs -/

theorem fits_case (env : Env) : (caseContract env).Fits (α := Unit) Guard.serial :=
  ⟨fun _ => trivial, fun _ _ => trivial, fun _ _ _ => trivial⟩

section

variable {env : Env} {world : World} {operations : List Operation} {S S' : Pipeline}

theorem goodSerial_case (hops : ∀ jobId, .failJob jobId ∉ operations) :
    (caseContract env).GoodSerial (Pipeline.start env ⟨Database.empty, world⟩ operations) := by
  refine Contract.goodSerial_start (lifeInv_empty env world) fun q hq s hi => ?_
  obtain ⟨operation, hop, rfl⟩ := List.mem_map.mp hq
  exact (operates_case env).safe operation (fun jobId he => absurd (he ▸ hop) (hops jobId)) hi

theorem board_of_run (h : (caseContract env).GoodSerial S) (hr : Sys.Run Guard.serial S S') :
    (caseContract env).GoodSerial S' ∧ Board.Run (redact env) (boardOf S.shared) (boardOf S'.shared) := by
  obtain ⟨hgood, hguar⟩ := h.run (fits_case env) (fun _ _ _ h => h) hr
  exact ⟨hgood, hguar.lift' boardOf fun _ _ h => h.to_reflTransGen⟩

theorem boardOf_some {s : Shared Database World} {jobId : UUID} {c : RedactionCase}
    (h : boardOf s jobId = some c) : ∃ job ∈ s.db.jobs, job.id = jobId ∧ caseOf s job = c := by
  obtain ⟨job, hjob, hcase⟩ := Option.map_eq_some_iff.mp h
  exact ⟨job, job?_mem hjob, job?_id hjob, hcase⟩

theorem case_of_run (h : (caseContract env).GoodSerial S) (hr : Sys.Run Guard.serial S S')
    {job : RedactionJob} (hj : job ∈ S.shared.db.jobs) :
    ∃ job' ∈ S'.shared.db.jobs, job'.id = job.id ∧
      Case.Run (redact env) (caseOf S.shared job) (caseOf S'.shared job') := by
  obtain ⟨c', hc', hrun⟩ := (board_of_run h hr).2.case (boardOf_eq h.inv.reviewed.wf hj)
  obtain ⟨job', hj', hid, rfl⟩ := boardOf_some hc'
  exact ⟨job', hj', hid, hrun⟩

/-- **The pipeline refines the workflow.**  Operations of any kind run one at a time, each
failing or dying at any point.  What they have done to the cases of the jobs is a run of the
workflow, and each of their steps is one of its steps or changes no case.  So every case is
sound: once closed its items are decided, and its output is made of the original and of the
approved items. -/
theorem pipeline_refines_workflow (env : Env) (world : World) (operations : List Operation)
    (hops : ∀ jobId, .failJob jobId ∉ operations) (S : Pipeline)
    (hr : Sys.Run Guard.serial (Pipeline.start env ⟨Database.empty, world⟩ operations) S) :
    Board.Run (redact env) (fun _ => none) (boardOf S.shared) ∧
      (∀ S', Sys.Step Guard.serial S S' →
        Relation.ReflGen (Board.Step (redact env)) (boardOf S.shared) (boardOf S'.shared)) ∧
      ∀ job ∈ S.shared.db.jobs, (caseOf S.shared job).Sound (redact env) := by
  obtain ⟨hgood, hrun⟩ := board_of_run (goodSerial_case hops) hr
  refine ⟨hrun, fun S' hs => (hgood.step (fits_case env) (fun _ _ _ h => h) hs).2, fun job hj => ?_⟩
  exact Board.sound_of_run hrun (boardOf_eq hgood.inv.reviewed.wf hj)

/-- The case of the sample job has been released. -/
theorem pipeline_refines_workflow_released :
    ∃ S c, (Pipeline.start sampleEnv ⟨Database.empty, World.empty⟩ sampleOperations).replayWhere
        Sys.serialStep sampleSchedule = some S ∧
      Board.Run (redact sampleEnv) (fun _ => none) (boardOf S.shared) ∧
      boardOf S.shared 4 = some c ∧ c.stage = .released := by
  have hsome : ((Pipeline.start sampleEnv ⟨Database.empty, World.empty⟩
      sampleOperations).replayWhere Sys.serialStep sampleSchedule).bind
        (fun S => (boardOf S.shared 4).map (·.stage)) = some .released := by decide +kernel
  obtain ⟨S, hS, hboard⟩ := Option.bind_eq_some_iff.mp hsome
  obtain ⟨c, hc, hstage⟩ := Option.map_eq_some_iff.mp hboard
  exact ⟨S, c, hS, (pipeline_refines_workflow sampleEnv World.empty sampleOperations
    (fun jobId h => by simp [sampleOperations] at h) S
    (Sys.run_of_replayWhere Guard.serial_of_serialStep hS)).1, hc, hstage⟩

theorem disposition_of_item {db db' : Database} {r r' : Span × Page} (h : db'.item r' = db.item r) :
    r' = r ∧ (db'.disposition? r.1.id).map (·.action) = (db.disposition? r.1.id).map (·.action) := by
  obtain ⟨-, rfl, hdecision⟩ := Item.mk.inj h
  refine ⟨rfl, ?_⟩
  cases hd : db.disposition? r'.1.id with
  | none =>
    rw [hd, Option.map_none, Option.map_eq_none_iff] at hdecision
    rw [hdecision]
  | some d =>
    rw [hd, Option.map_some] at hdecision
    obtain ⟨d', hd', he⟩ := Option.map_eq_some_iff.mp hdecision
    rw [hd', Option.map_some, Option.map_some]
    have haction : (d'.action = .approved) ↔ (d.action = .approved) := by simpa using he
    cases ha : d.action <;> cases ha' : d'.action <;> simp_all

/-- **A review only grows, and is frozen when it is closed.**  Operations of any kind run one at
a time, and then more of them.  A job keeps its document and its original.  Once detected, none
of its spans gets lost or loses its disposition, and one that has none is still as it was found.
From the apply request on nothing about its spans changes any more.  The PDF of a job that has
passed the gate is for good. -/
theorem review_is_frozen (env : Env) (world : World) (operations : List Operation)
    (hops : ∀ jobId, .failJob jobId ∉ operations) (S S' : Pipeline)
    (hr : Sys.Run Guard.serial (Pipeline.start env ⟨Database.empty, world⟩ operations) S)
    (hr' : Sys.Run Guard.serial S S') (job : RedactionJob) (hj : job ∈ S.shared.db.jobs) :
    let db := S.shared.db
    let db' := S'.shared.db
    let objects := S.shared.world.objects
    let objects' := S'.shared.world.objects
    let rows := db.spanRows job.documentId
    let rows' := db'.spanRows job.documentId
    ∃ job' ∈ db'.jobs, job'.id = job.id ∧ job'.documentId = job.documentId ∧
      objects' (Keys.originalPdfKey job.documentId) = objects (Keys.originalPdfKey job.documentId) ∧
      (job.status ∉ [.uploaded, .ingested] →
        (∀ r ∈ rows, ∃ r' ∈ rows', r'.1.id = r.1.id ∧
          ((db.disposition? r.1.id).isSome → (db'.disposition? r.1.id).isSome)) ∧
        ∀ r ∈ rows', db'.disposition? r.1.id = none → r ∈ rows ∧ db.disposition? r.1.id = none) ∧
      (job.status ∈ [.applying, .verified, .exported, .failed] → rows' = rows ∧ ∀ r ∈ rows,
        (db'.disposition? r.1.id).map (·.action) = (db.disposition? r.1.id).map (·.action)) ∧
      (job.status ∈ [.verified, .exported] → job'.status ∈ [.verified, .exported] ∧
        objects' (Keys.redactedPdfKey job.id) = objects (Keys.redactedPdfKey job.id)) := by
  obtain ⟨hgood, -⟩ := board_of_run (goodSerial_case hops) hr
  obtain ⟨job', hj', hid, hrun⟩ := case_of_run hgood hr' hj
  obtain ⟨hdoc, horiginal⟩ := Prod.mk.inj hrun.original
  rw [hdoc] at horiginal
  have hitems : (caseOf S'.shared job').items = S'.shared.db.items job.documentId := by
    rw [← hdoc]
    rfl
  refine ⟨job', hj', hid, hdoc, horiginal, fun hst => ?_, fun hst => ?_, fun hst => ?_⟩
  · have hfound : ∀ st : JobStatus, st ∉ [.uploaded, .ingested] → st.stage ∈ Stage.found := by
      intro st
      cases st <;> decide
    have hkept := hrun.kept (hfound _ hst)
    rw [hitems] at hkept
    refine ⟨fun r hr => ?_, fun r hr hnone => ?_⟩
    · obtain ⟨y, hy, hamended⟩ := hkept.mem (List.mem_map_of_mem hr)
      obtain ⟨r', hr', rfl⟩ := List.mem_map.mp hy
      have hsame : r'.1.id = r.1.id := hamended.id
      refine ⟨r', hr', hsame, fun hsome => ?_⟩
      have hdecided := hamended.isSome (by rwa [Database.item, Option.isSome_map])
      rwa [Database.item, Option.isSome_map, hsame] at hdecided
    · obtain ⟨r₀, hr₀, he⟩ := List.mem_map.mp (hkept.open (List.mem_map_of_mem hr)
        (by rw [Database.item, hnone]; rfl))
      obtain ⟨rfl, hsame⟩ := disposition_of_item he
      rw [hnone, Option.map_none, Option.map_eq_none_iff] at hsame
      exact ⟨hr₀, hsame⟩
  · have hfinal : ∀ st ∈ [JobStatus.applying, .verified, .exported, .failed],
        st.stage ∈ Stage.final := by decide
    have hfrozen := (hrun.frozen (hfinal _ hst)).2
    rw [hitems] at hfrozen
    have hrows : S'.shared.db.spanRows job.documentId = S.shared.db.spanRows job.documentId := by
      have hcontents := congrArg (List.map (·.content)) hfrozen
      rwa [Database.items, caseOf, Database.items, List.map_map, List.map_map,
        show ∀ db : Database, (·.content) ∘ db.item = id from fun _ => rfl,
        show ∀ db : Database, (·.content) ∘ db.item = id from fun _ => rfl, List.map_id,
        List.map_id] at hcontents
    refine ⟨hrows, fun r hr => ?_⟩
    rw [Database.items, hrows] at hfrozen
    exact (disposition_of_item (List.map_inj_left.mp hfrozen r hr)).2
  · have hdone : ∀ st ∈ [JobStatus.verified, .exported], st.stage ∈ Stage.done := by decide
    obtain ⟨hstage, houtput⟩ := hrun.done (hdone _ hst)
    have hpassed : ∀ st : JobStatus, st.stage ∈ Stage.done → st ∈ passedStates := by
      intro st
      cases st <;> decide
    refine ⟨hpassed _ hstage, ?_⟩
    rw [caseOf, caseOf, if_pos (hpassed _ hstage), if_pos (show job.status ∈ passedStates from hst), hid]
      at houtput
    exact houtput

/-- The sample job, before and after its export. -/
theorem review_is_frozen_exported :
    ∃ S S' job, (Pipeline.start sampleEnv ⟨Database.empty, World.empty⟩ sampleOperations).replayWhere
        Sys.serialStep (sampleSchedule.take 69) = some S ∧
      S.replayWhere Sys.serialStep (sampleSchedule.drop 69) = some S' ∧
      job ∈ S.shared.db.jobs ∧ job.status = .verified ∧
      S'.shared.db.spanRows job.documentId = S.shared.db.spanRows job.documentId ∧
      S'.shared.world.objects (Keys.redactedPdfKey job.id) =
        S.shared.world.objects (Keys.redactedPdfKey job.id) := by
  have hsome : ((Pipeline.start sampleEnv ⟨Database.empty, World.empty⟩
      sampleOperations).replayWhere Sys.serialStep (sampleSchedule.take 69)).bind (fun S =>
        (S.replayWhere Sys.serialStep (sampleSchedule.drop 69)).map fun _ =>
          S.shared.db.jobs.map (·.status)) = some [.verified] := by decide +kernel
  obtain ⟨S, hS, hrest⟩ := Option.bind_eq_some_iff.mp hsome
  obtain ⟨S', hS', hjobs⟩ := Option.map_eq_some_iff.mp hrest
  obtain ⟨job, hj, hst⟩ := List.exists_of_mem_map (hjobs ▸ List.mem_cons_self :
    JobStatus.verified ∈ S.shared.db.jobs.map (·.status))
  obtain ⟨job', -, -, -, -, -, hfrozen, hdone⟩ := review_is_frozen sampleEnv World.empty
    sampleOperations (fun jobId h => by simp [sampleOperations] at h) S S'
    (Sys.run_of_replayWhere Guard.serial_of_serialStep hS)
    (Sys.run_of_replayWhere Guard.serial_of_serialStep hS') job hj
  exact ⟨S, S', job, hS, hS', hj, hst, (hfrozen (by rw [hst]; decide)).1,
    (hdone (by rw [hst]; decide)).2⟩

end

end RedactApi
