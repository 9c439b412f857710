import RedactApi.Pipeline.PageNumbers
import RedactApi.Pipeline.StoredBoxes
import RedactApi.Redaction.Refusals

/-!
# An accepted review is applied

A job in `applying` is burnable while the burn-in of its original returns for the spans
approved now.  Nothing that runs between the deliveries changes that, and a delivery
of a burnable job raises nothing, so such a job fails by the gate or not at all.

Whether the burn-in returns is not settled when the review is accepted: the pages of
detected spans exist, but the schemas bound the page number of a manual span only from
below and do not look at boxes.
-/

namespace RedactApi

open ReadCommitted KeyedList

/-! ### Jobs that can be applied -/

/-- The burn-in of the stored original with the spans approved now returns. -/
def Burnable (env : Env) (s : Shared Database World) (job : RedactionJob) : Prop :=
  ∃ original spans result, s.world.objects (Keys.originalPdfKey job.documentId) = some original ∧
    s.db.approvedSpans job.documentId = .ok spans ∧ apply env original spans = .ok result

/-- The job can be applied, has passed the gate, or was failed by it. -/
def OnTrack (env : Env) (s : Shared Database World) (job : RedactionJob) : Prop :=
  job.status = .applying ∧ Burnable env s job ∨ job.status ∈ passedStates ∨
    job.status = .failed ∧ ∃ e ∈ s.db.entries job.id, e.action = .verifyFailed

def Followed (env : Env) (s : Shared Database World) (jobId : UUID) : Prop :=
  ∃ job ∈ s.db.jobs, job.id = jobId ∧ OnTrack env s job

def KeepsTrack (env : Env) (s s' : Shared Database World) : Prop :=
  ∀ jobId, Followed env s jobId → Followed env s' jobId

section

variable {env : Env} {s s' : Shared Database World} {job new : RedactionJob}

theorem not_onTrack {status : JobStatus} (hst : job.status = status)
    (hopen : status ∈ [.uploaded, .ingested, .inReview]) : ¬ OnTrack env s job := by
  subst hst
  rintro (⟨h, -⟩ | h | ⟨h, -⟩)
  · rw [h] at hopen
    exact absurd hopen (by decide)
  · revert h hopen
    cases job.status <;> decide
  · rw [h] at hopen
    exact absurd hopen (by decide)

theorem Burnable.frame (h : Burnable env s job) (hwf : WellFormed s.db) (hwf' : WellFormed s'.db)
    (hspans : SameSpans job.documentId s.db s'.db)
    (ho : s'.world.objects (Keys.originalPdfKey job.documentId) =
      s.world.objects (Keys.originalPdfKey job.documentId)) : Burnable env s' job := by
  obtain ⟨original, spans, result, horig, happroved, happly⟩ := h
  exact ⟨original, spans, result, ho.trans horig, (hspans.approvedSpans hwf hwf').trans happroved,
    happly⟩

theorem SameOriginals.original (h : SameOriginals s s') (hwf : WellFormed s.db)
    (hj : job ∈ s.db.jobs) : s'.world.objects (Keys.originalPdfKey job.documentId) =
      s.world.objects (Keys.originalPdfKey job.documentId) := by
  obtain ⟨d, hd, hid⟩ := hwf.job_fk job hj
  rw [← hid]
  exact h d hd

theorem OnTrack.frame (h : OnTrack env s job) (hj : job ∈ s.db.jobs) (hwf : WellFormed s.db)
    (hwf' : WellFormed s'.db) (hsame : SameReview job s.db s'.db) (ho : SameOriginals s s') :
    OnTrack env s' job := by
  rcases h with ⟨hst, hburn⟩ | hpassed | ⟨hst, e, he, haction⟩
  · exact Or.inl ⟨hst, hburn.frame hwf hwf' hsame.spans (ho.original hwf hj)⟩
  · exact Or.inr (Or.inl hpassed)
  · exact Or.inr (Or.inr ⟨hst, e, hsame.entries ▸ he, haction⟩)

/-- **A change that leaves all jobs alone, or all but one,** throws none off if it does
not throw off that one. -/
theorem keepsTrack_of (hwf : WellFormed s.db) (hwf' : WellFormed s'.db) (ho : SameOriginals s s')
    (hjobs : ∀ j ∈ s.db.jobs, SameReview j s.db s'.db ∨ (OnTrack env s j → Followed env s' j.id)) :
    KeepsTrack env s s' := by
  rintro jobId ⟨j, hj, rfl, htrack⟩
  rcases hjobs j hj with hsame | hmoved
  · exact ⟨j, hsame.row, rfl, htrack.frame hj hwf hwf' hsame ho⟩
  · exact hmoved htrack

/-! ### The contract -/

/-- Every job keeps what its status promises, and detected spans lie on pages that
exist. -/
structure TrackInv (env : Env) (s : Shared Database World) : Prop extends LifeInv env s where
  numbered : Numbered env s

/-- One operation at a time, with calls that do not fail and new identifiers. -/
def applyContract (env : Env) : Contract Database Write World Input Exn where
  inv s := TrackInv env s
  rely s s' := s' = s
  guar s s' := KeepsTrack env s s'
  allowed _ _ := True
  input s p i := (view s.db p).taken (.auditPk i.uuid) = false
  fault _ := False
  past s s' := s'.db = s.db ∧ SameOriginals s s'
  rely_refl := (lifeContract env).rely_refl
  rely_trans := (lifeContract env).rely_trans
  guar_refl _ _ h := h
  past_refl := (lifeContract env).past_refl
  past_trans := (lifeContract env).past_trans
  rely_past := (lifeContract env).rely_past

theorem After.life (h : (applyContract env).After s s') : (lifeContract env).After s s' :=
  ⟨h.inv.toLifeInv, h.past⟩

theorem apply_acts {w : World} (hi : TrackInv env s) (h : (lifeContract env).Acts s w) :
    (applyContract env).Acts s w where
  inv := ⟨h.inv, hi.numbered.world hi.reviewed.wf h.past.2⟩
  guar := keepsTrack_of hi.reviewed.wf hi.reviewed.wf h.past.2 fun _ hj =>
    Or.inl ⟨hj, SameSpans.refl _ _, rfl⟩
  past := h.past

theorem apply_tolerates {f : World → World} (h : Tolerates (lifeContract env) f) :
    Tolerates (applyContract env) f := fun s hi => apply_acts hi (h s hi.toLifeInv)

theorem apply_toleratesPages (documentId : UUID) : ToleratesPages (applyContract env) documentId :=
  fun n data => ⟨apply_tolerates ((operates_life env).pages documentId n data).1,
    apply_tolerates ((operates_life env).pages documentId n data).2⟩

/-- A commit that keeps every job's promises and throws no job off. -/
theorem apply_lands {p : List Write} (hi : TrackInv env s)
    (h : (lifeContract env).Lands (fun _ _ _ => True) s p)
    (hnew : ∀ row, .insertSpan row ∈ p → row.sourceTier ≠ .manual →
      OnDocument env { s with db := view s.db p } row)
    (hjobs : ∀ j ∈ s.db.jobs, SameReview j s.db (view s.db p) ∨
      (OnTrack env s j → Followed env { s with db := view s.db p } j.id)) :
    (applyContract env).Lands (fun _ _ _ => True) s p :=
  ⟨⟨h.1, hi.numbered.view hi.reviewed.wf h.1.reviewed.wf hnew⟩,
    keepsTrack_of hi.reviewed.wf h.1.reviewed.wf (fun _ _ => rfl) hjobs, trivial⟩

theorem apply_lands_closing {es : List AuditEntry} (hi : TrackInv env s) (hj : job ∈ s.db.jobs)
    (hsame : SameJob job new) (hes : ∀ e ∈ es, e.jobId = job.id ∧ e.spanId = none)
    (h : (lifeContract env).Lands (fun _ _ _ => True) s (closingWrites job new es))
    (hnew : OnTrack env s job → OnTrack env { s with db := view s.db (closingWrites job new es) } new) :
    (applyContract env).Lands (fun _ _ _ => True) s (closingWrites job new es) := by
  refine apply_lands hi h (fun row hrow => ?_) fun j hjm => ?_
  · rw [closingWrites, List.mem_append, List.mem_map] at hrow
    rcases hrow with ⟨e, -, hrow⟩ | hrow
    · cases hrow
    · cases List.mem_singleton.mp hrow
  by_cases he : j.id = job.id
  · have hsamej := List.inj_on_of_nodup_map hi.reviewed.wf.job_pk hjm hj he
    subst hsamej
    refine Or.inr fun htrack => ⟨new, ?_, hsame.id, hnew htrack⟩
    rw [view_closingWrites]
    exact (hi.reviewed.wf.mem_updateJob hj hsame.id hsame.document hsame.organization).mpr (Or.inl rfl)
  · exact Or.inl (others_closing hi.reviewed.wf hj hsame hes hjm he)

theorem apply_lands_status {newStatus : JobStatus} (hi : TrackInv env s) (hj : job ∈ s.db.jobs)
    (h : (lifeContract env).Lands (fun _ _ _ => True) s [statusWrite job newStatus])
    (hnot : ¬ OnTrack env s job) :
    (applyContract env).Lands (fun _ _ _ => True) s [statusWrite job newStatus] :=
  @apply_lands_closing env s job { job with status := newStatus } [] hi hj ⟨rfl, rfl, rfl⟩
    (fun _ h => absurd h List.not_mem_nil) h fun htrack => absurd htrack hnot

/-- **Failing a job** that is on no track. -/
theorem apply_lands_failure {consumes : JobStatus} (hconsumes : consumes ∈ consumedStates)
    {s₀ s₁ s₂ : Shared Database World} {jobId : UUID} {job₀ : RedactionJob} (h₀ : TrackInv env s₀)
    (hjob₀ : s₀.db.job? jobId = some job₀) (hst : job₀.status = consumes)
    (h₁ : (applyContract env).After s₀ s₁) (hjob : s₁.db.job? jobId = some job)
    (hedge : .failed ∈ validTransitions job.status) (h₂ : (applyContract env).After s₁ s₂)
    (hnot : ¬ OnTrack env s₂ job₀) :
    (applyContract env).Lands (fun _ _ _ => True) s₂ [failWrite job] := by
  have hsame : job₀ = job := by
    rw [h₁.past.1, hjob₀] at hjob
    exact Option.some.inj hjob
  subst hsame
  refine apply_lands_status h₂.inv (h₂.past.1 ▸ job?_mem hjob) ?_ hnot
  exact life_fails hconsumes jobId s₀ s₁ s₂ job₀ job₀ h₀.toLifeInv hjob₀ hst (After.life h₁) hjob hedge
    (After.life h₂) trivial

theorem apply_fails_open {consumes : JobStatus} (hopen : consumes ∈ [.uploaded, .ingested])
    (jobId : UUID) : LandsFailure (applyContract env) jobId consumes fun _ => True := by
  intro s₀ s₁ s₂ job₀ job h₀ hjob₀ hst h₁ hjob hedge h₂ _
  have hclasses : consumes ∈ consumedStates ∧ consumes ∈ [.uploaded, .ingested, .inReview] := by
    revert hopen
    cases consumes <;> decide
  exact apply_lands_failure hclasses.1 h₀ hjob₀ hst h₁ hjob hedge h₂ (not_onTrack hst hclasses.2)

/-! ### Everything but the burn-in -/

theorem apply_lands_detect {s₁ : Shared Database World} {p : List Write}
    (hi : TrackInv env s) (hj : job ∈ s.db.jobs) (hst : job.status = .ingested)
    (hp : DetectedWrites ((applyContract env).past s₁) job.documentId p)
    (hon : OnOriginal (applyContract env) env s₁ job p) (hpast : (applyContract env).past s₁ s)
    (hf : Free s.db (detectWrites job p)) :
    (applyContract env).Lands (fun _ _ _ => True) s (detectWrites job p) := by
  have hdb : s.db = s₁.db := hpast.1
  have hseen : ∀ t, (applyContract env).past s₁ t → t.db = s.db := fun t ht => ht.1.trans hdb.symm
  have hwf₁ : WellFormed s₁.db := hdb ▸ hi.reviewed.wf
  have horiginal : ∀ t, (applyContract env).past s₁ t →
      s.world.objects (Keys.originalPdfKey job.documentId) =
        t.world.objects (Keys.originalPdfKey job.documentId) := fun t ht =>
    (SameOriginals.original hpast.2 hwf₁ (hdb ▸ hj)).trans
      (SameOriginals.original ht.2 hwf₁ (hdb ▸ hj)).symm
  obtain ⟨hlife, hadvances⟩ := hi.toLifeInv.detect hj hst hp hseen hf
  obtain ⟨hreviewed, hdetected⟩ := detected_of_writes hp hi.reviewed hf.left.left hseen
    (hi.reviewed.wf.job_fk job hj)
  refine apply_lands hi ⟨hlife, hadvances, trivial⟩ (fun row hrow _ => ?_) fun j hjm => ?_
  · have hinserted : .insertSpan row ∈ p := by
      simpa [detectWrites, statusWrite] using hrow
    have hpages := onDocument_of_detection hon hreviewed.wf hseen horiginal row hinserted
    rw [view_detectWrites]
    exact hpages
  by_cases he : j.id = job.id
  · have hsame := List.inj_on_of_nodup_map hi.reviewed.wf.job_pk hjm hj he
    subst hsame
    exact Or.inr fun htrack => absurd htrack (not_onTrack hst (by decide))
  · exact Or.inl (others_detect hdetected hreviewed.wf hj hjm he)

theorem apply_lands_batch {reviewerId : UUID} {p : List Write} (hi : TrackInv env s)
    (hj : job ∈ s.db.jobs) (hst : job.status = .inReview)
    (hmanual : ∀ row, .insertSpan row ∈ p → row.sourceTier = .manual)
    (hs : Relation.ReflTransGen (BatchStep env True job reviewerId) s.db (view s.db p)) :
    (applyContract env).Lands (fun _ _ _ => True) s p := by
  obtain ⟨hlife, hadvances⟩ := hi.toLifeInv.batch hj hst hs
  have hbatched := (batch_keeps hi.reviewed ⟨job, hj, rfl, rfl⟩ hs).2
  refine apply_lands hi ⟨hlife, hadvances, trivial⟩
    (fun row hrow hdetected => absurd (hmanual row hrow) hdetected) fun j hjm => ?_
  by_cases he : j.id = job.id
  · have hsame := List.inj_on_of_nodup_map hi.reviewed.wf.job_pk hjm hj he
    subst hsame
    exact Or.inr fun htrack => absurd htrack (not_onTrack hst (by decide))
  · exact Or.inl (others_batch hbatched hi.reviewed.wf hj hjm he)

theorem apply_safe_other {operation : Operation} (hfail : ∀ jobId, operation ≠ .failJob jobId)
    (happly : ∀ jobId reviewerId, operation ≠ .deliver (.applyJob jobId reviewerId))
    (hi : TrackInv env s) : (applyContract env).Safe (operation.run env) s [] := by
  have henqueue : ∀ message, Tolerates (applyContract env) (·.enqueue message) :=
    fun message => apply_tolerates ((operates_life env).enqueue message)
  cases operation with
  | deliver message =>
    cases message with
    | ingestJob jobId =>
      refine safe_ingestJob apply_toleratesPages (henqueue _) (apply_fails_open (by decide) jobId)
        fun s₁ s₂ job h₁ hjob hst h₂ _ => ?_
      have hj : job ∈ s₂.db.jobs := h₂.past.1 ▸ job?_mem hjob
      exact apply_lands_status h₂.inv hj (life_ingests h₂.inv.toLifeInv hj hst)
        (not_onTrack hst (by decide))
    | detectJob jobId =>
      refine safe_detectJob (apply_fails_open (by decide) jobId)
        fun s₁ s₂ job p h₁ hjob hst h₂ hp honOriginal hf _ => ?_
      exact apply_lands_detect h₂.inv (h₂.past.1 ▸ job?_mem hjob) hst hp honOriginal h₂.past hf
    | applyJob jobId reviewerId => exact absurd rfl (happly jobId reviewerId)
  | failJob jobId => exact absurd rfl (hfail jobId)
  | createJob tenant file =>
    refine Contract.wp_bind (safe_createJob (fun _ => henqueue _)
      (fun s document job data h _ _ hf => apply_acts h (life_uploads h.toLifeInv hf)) ?_ hi)
    intro s document job h hfresh hf _
    obtain ⟨hlife, hadvances⟩ := h.toLifeInv.create hfresh hf
    refine apply_lands h ⟨hlife, hadvances, trivial⟩ (fun row hrow => ?_)
      fun j hj => Or.inl (same_create hj)
    simp [createWrites] at hrow
  | createDispositions tenant jobId payload =>
    refine Contract.wp_bind (safe_createDispositions fun s₁ s₂ job p h₁ hjob hst h₂ hp hf _ => ?_)
    have hj : job ∈ s₂.db.jobs := h₂.past.1 ▸ hjob.mem
    have hseen : ∀ t, (applyContract env).Between s₁ s₂ t → t.db = s₂.db := fun t ht => ht.2.1.symm
    exact apply_lands_batch h₂.inv hj hst (manual_of_batch hp) (batchSteps_of_writes hp h₂.inv.reviewed
      ⟨job, hj, rfl, rfl⟩ hf (fun t ht => hseen t ht ▸ Extends.refl _) (Or.inl hseen))
  | postApply tenant jobId =>
    refine Contract.wp_bind (safe_postApply (fun _ => henqueue _) ?_ hi)
    intro s₁ s₂ s₃ job h₁ hjob hst h₂ hcount h₃ _
    have hj : job ∈ s₃.db.jobs := h₃.past.1 ▸ h₂.past.1 ▸ hjob.mem
    rw [← h₃.past.1] at hcount
    exact apply_lands_status h₃.inv hj (life_starts h₃.inv.toLifeInv hj hst hcount)
      (not_onTrack hst (by decide))
  | exportJob tenant jobId =>
    refine Contract.wp_bind (safe_exportJob
      (fun data => apply_tolerates ((operates_life env).manifest jobId data)) ?_ hi)
    intro s₁ s₂ job exported h₁ hjob hst h₂ hexported hf _
    have hj : job ∈ s₂.db.jobs := h₂.past.1 ▸ hjob.mem
    refine @apply_lands_closing env s₂ job { job with status := .exported } [exported] h₂.inv hj
      ⟨rfl, rfl, rfl⟩ (fun e he => ?_) (life_exports h₂.inv.toLifeInv hj hst hexported hf) fun _ => ?_
    · rw [List.mem_singleton.mp he]
      exact ⟨hexported.job, hexported.span⟩
    · exact Or.inr (Or.inl (show JobStatus.exported ∈ passedStates by decide))

/-! ### The burn-in -/

/-- An entry that is appended alone, under a new identifier, is appended. -/
theorem wp_append_alone {p : List Write} {jobId : UUID} {event : AuditEntryInput}
    {Q : AuditEntry → Shared Database World → List Write → Prop}
    {E : Exn → Shared Database World → List Write → Prop}
    (hjob : (view s.db p).job? jobId = some job) (hspan : event.spanId = none)
    (hQ : ∀ id createdAt entry, entry = makeEntry env id jobId job.organizationId event
      (nextChainLink (view s.db p) jobId) createdAt → Q entry s (p ++ [.insertAudit entry])) :
    (applyContract env).wp (appendAuditEntry env jobId event) Q E s p := by
  refine Contract.wp_bind (Contract.wp_query (fun _ _ he => he.elim) fun s₀ hn₀ => ?_)
  obtain rfl : s₀ = s := hn₀.rely
  rw [hjob]
  show (applyContract env).wp (if event.spanId.isSome ∧ event.text.isNone then _ else _) Q E s₀ p
  rw [if_neg fun h => by rw [hspan] at h; exact absurd h.1 (by decide)]
  refine Contract.wp_bind (Contract.wp_query (fun _ _ he => he.elim) fun s₁ hn₁ => ?_)
  obtain rfl : s₁ = s₀ := hn₁.rely
  refine Contract.wp_bind (wp_observe_cases (fun _ _ he => he.elim) (fun s₂ _ createdAt hn₂ _ _ => ?_)
    fun _ _ _ _ he => by cases he)
  obtain rfl : s₂ = s₁ := hn₂.rely
  refine Contract.wp_bind (wp_observe_cases (fun _ _ he => he.elim) (fun s₃ i id hn₃ hin hid => ?_)
    fun _ _ _ _ he => by cases he)
  obtain rfl : s₃ = s₂ := hn₃.rely
  cases hid
  refine Contract.wp_bind fun s₄ hn₄ => ?_
  obtain rfl : s₄ = s₃ := hn₄.rely
  refine ⟨fun _ => hQ i.uuid createdAt _ rfl, fun hc => ?_, fun _ he => he.elim⟩
  rw [clash_eq_false.mpr fun k hk => ?_] at hc
  · cases hc
  · rcases List.mem_cons.mp hk with rfl | hk
    · exact hin
    · rw [List.mem_singleton.mp hk]
      exact nextChainLink_free _ jobId

theorem lifecycle_makeEntry {jobId id organizationId reviewer : UUID} {action : AuditAction}
    {category : String} {link : String × Nat} {createdAt : DateTime} {entry : AuditEntry}
    (h : entry = makeEntry env id jobId organizationId (lifecycleEvent action category reviewer) link
      createdAt) : Lifecycle jobId action entry := by
  rw [h]
  exact ⟨rfl, rfl, rfl⟩

variable {reviewer : UUID} {started : AuditEntry}
  {E : Exn → Shared Database World → List Write → Prop}

/-- The gate has failed: its entry comes with the move. -/
theorem wp_landFailed {result : ApplyResult} (hi : TrackInv env s)
    (hjob : s.db.job? job.id = some job) (hst : job.status = .applying)
    (hstarted : Lifecycle job.id .applyStarted started) :
    (applyContract env).wp (landFailed env job reviewer result) (fun _ _ _ => True) E s
      [.insertAudit started] := by
  refine Contract.wp_bind (wp_append_alone hjob rfl fun id createdAt failed hentry => ?_)
  have hfailed := lifecycle_makeEntry hentry
  refine Contract.wp_bind (wp_transition_edge (by simp [track, hst, validTransitions]) (by decide)
    (fun _ _ he => he.elim) fun s₁ hn₁ => ?_)
  obtain rfl : s₁ = s := hn₁.rely
  refine Contract.wp_commit (fun _ _ he => he.elim) fun s₂ hn₂ _ => ?_
  obtain rfl : s₂ = s₁ := hn₂.rely
  have hj := job?_mem hjob
  refine @apply_lands_closing env s₂ job { job with status := .failed } [started, failed] hi hj
    ⟨rfl, rfl, rfl⟩ (lifecycle_pair hstarted hfailed)
    (life_failsGate hi.toLifeInv hj hst hstarted hfailed hn₂.free) fun _ => ?_
  refine Or.inr (Or.inr ⟨rfl, failed, ?_, hfailed.action⟩)
  rw [view_closingWrites]
  exact List.mem_filter.mpr ⟨by simp, decide_eq_true hfailed.job⟩

/-- The gate has passed: the artifact is stored before the move is committed. -/
theorem wp_landVerified {original : Bytes} {spans : List ApprovedSpan} {result : ApplyResult}
    (hi : TrackInv env s) (hjob : s.db.job? job.id = some job) (hst : job.status = .applying)
    (horig : s.world.objects (Keys.originalPdfKey job.documentId) = some original)
    (happroved : s.db.approvedSpans job.documentId = .ok spans)
    (happly : apply env original spans = .ok result) (hpass : result.passed = true)
    (hstarted : Lifecycle job.id .applyStarted started) :
    (applyContract env).wp (landVerified env job reviewer result) (fun _ _ _ => True) E s
      [.insertAudit started] := by
  have hj := job?_mem hjob
  refine Contract.wp_bind (wp_append_alone hjob rfl fun id createdAt passed hentry => ?_)
  have hpassed := lifecycle_makeEntry hentry
  refine Contract.wp_bind (wp_act (fun _ _ he => he.elim) fun s₁ hn₁ => ?_)
  obtain rfl : s₁ = s := hn₁.rely
  have hstores : (lifeContract env).Acts s₁
      (s₁.world.put (Keys.redactedPdfKey job.id) result.pdfBytes) := life_stores hi.toLifeInv hj hst
  have hacts := apply_acts hi hstores
  refine ⟨hacts, Contract.wp_bind (wp_transition_edge (by simp [hst, validTransitions]) (by decide)
    (fun _ _ he => he.elim) fun s₂ hn₂ => ?_)⟩
  obtain rfl := hn₂.rely
  refine Contract.wp_commit (fun _ _ he => he.elim) fun s₃ hn₃ _ => ?_
  obtain rfl := hn₃.rely
  have hartifact : Artifact env
      { s₁ with world := s₁.world.put (Keys.redactedPdfKey job.id) result.pdfBytes } job := by
    refine ⟨original, spans, result, ?_, happroved, happly, hpass, put_objects_self _ _ _⟩
    rw [← horig]
    exact put_objects_ne _ (Keys.originalPdfKey_ne_redacted _ _)
  exact @apply_lands_closing env _ job (verifiedJob job) [started, passed] hn₃.inv hj
    ⟨rfl, rfl, rfl⟩ (lifecycle_pair hstarted hpassed)
    (life_passesGate hn₃.inv.toLifeInv hj hst hartifact hstarted hpassed hn₃.free)
    fun _ => Or.inr (Or.inl (show JobStatus.verified ∈ passedStates by decide))

theorem applyWork_some (env : Env) (job : RedactionJob) (reviewer : UUID) :
    applyWork env job (some reviewer) = (do
      let originalBytes ← downloadBytes (Keys.originalPdfKey job.documentId)
      let approvedSpans ← projectApprovedSpans job
      let _ ← appendAuditEntry env job.id
        (lifecycleEvent .applyStarted jobLifecycleCategory reviewer)
      let result ← burn env job.id originalBytes approvedSpans
      if result.passed then landVerified env job reviewer result
      else landFailed env job reviewer result) := rfl

/-- **The burn-in** raises nothing if the job is burnable. -/
theorem wp_applyWork (hi : TrackInv env s) (hjob : s.db.job? job.id = some job)
    (hst : job.status = .applying) :
    (applyContract env).wp (applyWork env job (some reviewer)) (fun _ _ _ => True)
      (fun _ s' _ => (applyContract env).After s s' ∧ ¬ Burnable env s job) s [] := by
  have hj := job?_mem hjob
  rw [applyWork_some]
  refine Contract.wp_bind (wp_observe_cases (fun _ _ he => he.elim) (fun s₁ _ original hn₁ _ hdata => ?_)
    fun s₁ _ e hn₁ hdata => ⟨hn₁.after, fun ⟨original, _, _, horig, _⟩ => ?_⟩)
  rotate_left
  · obtain rfl : s₁ = s := hn₁.rely
    rw [horig] at hdata
    cases hdata
  obtain rfl : s₁ = s := hn₁.rely
  have horig := downloaded hdata
  refine Contract.wp_bind (Contract.wp_bind (Contract.wp_query (fun _ _ he => he.elim) fun s₂ hn₂ => ?_))
  obtain rfl : s₂ = s₁ := hn₂.rely
  cases happroved : (view s₂.db []).approvedSpans job.documentId with
  | error e =>
    refine ⟨.self hi, fun ⟨_, spans, _, _, hspans, _⟩ => ?_⟩
    rw [view_nil, hspans] at happroved
    cases happroved
  | ok spans =>
    rw [view_nil] at happroved
    refine Contract.wp_bind (wp_append_alone hjob rfl fun id createdAt started hentry => ?_)
    have hstarted := lifecycle_makeEntry hentry
    refine Contract.wp_bind (Contract.wp_bind (wp_act (fun _ _ he => he.elim) fun s₃ hn₃ => ?_))
    obtain rfl : s₃ = s₂ := hn₃.rely
    have hacts : (applyContract env).Acts s₃
        { s₃.world with burned := s₃.world.burned ++ [(job.id, spans)] } :=
      apply_acts hi (acts_of_same hi.toLifeInv (fun _ _ _ => ⟨rfl, rfl⟩) fun _ _ => rfl)
    refine ⟨hacts, wp_observe_cases (fun _ _ he => he.elim) (fun s₄ _ result hn₄ _ happly => ?_)
      fun s₄ _ e hn₄ happly => ⟨((Contract.After.self hi).act hacts).trans hn₄.after, ?_⟩⟩
    · obtain rfl := hn₄.rely
      show (applyContract env).wp (if result.passed then _ else _) _ _ _ _
      split
      · rename_i hpass
        exact wp_landVerified hacts.inv hjob hst horig happroved happly hpass hstarted
      · exact wp_landFailed hacts.inv hjob hst hstarted
    · rintro ⟨original', spans', result, horig', happroved', happly'⟩
      rw [horig] at horig'
      rw [happroved] at happroved'
      cases horig'
      cases happroved'
      rw [happly'] at happly
      cases happly

/-- **A delivery throws no job off**: a job it has to fail was not burnable. -/
theorem apply_safe_applyJob (jobId : UUID) :
    (applyContract env).Safe (applyJob env jobId (some reviewer)) s [] := by
  refine safe_closing (wp_guardedTask (fun _ _ he => he.elim) (fun _ _ _ => trivial)
    fun s₁ job hn hjob hst => ?_)
  refine Contract.wp_mono (fun _ _ _ _ => trivial) (fun e s' p' h => ?_) _
    (wp_applyWork hn.inv (job?_id hjob ▸ hjob) hst)
  obtain ⟨h, hnot⟩ := h
  refine Contract.wp_bind (Contract.wp_bind fun s₂ hn₂ => Contract.wp_bind (Contract.wp_mono
    (fun _ _ _ _ => trivial) (fun _ _ _ _ => trivial) _ (safe_failJob ?_)))
  intro s₃ s₄ job' h₃ hjob' hedge h₄ _
  have h₁₃ := (h.trans hn₂.after).trans h₃
  refine apply_lands_failure (by decide) hn.inv hjob hst h₁₃ hjob' hedge h₄ ?_
  rintro (⟨-, hburn⟩ | hpassed | ⟨hfailed, -⟩)
  · obtain ⟨original, spans, result, horig, happroved, happly⟩ := hburn
    obtain ⟨hdb, ho⟩ := (h₁₃.trans h₄).past
    rw [hdb] at happroved
    rw [SameOriginals.original ho hn.inv.reviewed.wf (job?_mem hjob)] at horig
    exact hnot ⟨original, spans, result, horig, happroved, happly⟩
  · rw [hst] at hpassed
    exact absurd hpassed (by decide)
  · rw [hst] at hfailed
    cases hfailed

/-! ### Runs -/

/-- One execution at a time; no call fails, and an identifier that is drawn is no audit
entry's yet. -/
def undisturbed : Guard Database Write World Input Exn Unit := fun S i l =>
  Guard.serial S i l ∧ (∀ e, l ≠ .fault e) ∧ ∀ a t, l = .ok a → S.threads[i]? = some t →
    (view S.shared.db t.pending).taken (.auditPk a.uuid) = false

def undisturbedStep (S : Pipeline) (i : Nat) (l : Label Input Exn) : Bool :=
  S.serialStep i l && match l, S.threads[i]? with
    | .fault _, _ => false
    | .ok a, some t => !(view S.shared.db t.pending).taken (.auditPk a.uuid)
    | _, _ => true

theorem undisturbed_of_step (S : Pipeline) (i : Nat) (l : Label Input Exn)
    (h : undisturbedStep S i l = true) : undisturbed S i l := by
  obtain ⟨hserial, hrest⟩ := Bool.and_eq_true_iff.mp h
  refine ⟨Guard.serial_of_serialStep S i l hserial, fun e he => ?_, fun a t ha ht => ?_⟩
  · subst he
    cases hrest
  · subst ha
    rw [ht] at hrest
    simpa using hrest

section

variable {env : Env} {world : World} {operations : List Operation} {S S' : Pipeline}

theorem fits_apply (env : Env) : (applyContract env).Fits (α := Unit) undisturbed where
  fault h := h.2.1 _ rfl
  input h ht := h.2.2 _ _ rfl ht
  commit _ _ _ := trivial

theorem apply_safe {operation : Operation} (hfail : ∀ jobId, operation ≠ .failJob jobId)
    (hreviewer : ∀ jobId, operation ≠ .deliver (.applyJob jobId none)) (hi : TrackInv env s) :
    (applyContract env).Safe (operation.run env) s [] := by
  by_cases happly : ∀ jobId reviewerId, operation ≠ .deliver (.applyJob jobId reviewerId)
  · exact apply_safe_other hfail happly hi
  · push Not at happly
    obtain ⟨jobId, reviewerId, rfl⟩ := happly
    cases reviewerId with
    | none => exact absurd rfl (hreviewer jobId)
    | some reviewer => exact apply_safe_applyJob jobId

theorem apply_of_run (hfail : ∀ jobId, .failJob jobId ∉ operations)
    (hreviewer : ∀ jobId, .deliver (.applyJob jobId none) ∉ operations)
    (hr : Sys.Run undisturbed (Pipeline.start env ⟨Database.empty, world⟩ operations) S) :
    (applyContract env).GoodSerial S := by
  refine Contract.sound_serial (fits_apply env) (fun _ _ _ h => h.1)
    (Contract.goodSerial_start ⟨lifeInv_empty env world, numbered_empty world⟩ fun q hq s hi => ?_) hr
  obtain ⟨operation, hop, rfl⟩ := List.mem_map.mp hq
  exact apply_safe (fun jobId he => hfail jobId (he ▸ hop))
    (fun jobId he => hreviewer jobId (he ▸ hop)) hi

theorem keepsTrack_of_run (h : (applyContract env).GoodSerial S) (hr : Sys.Run undisturbed S S') :
    (applyContract env).GoodSerial S' ∧ KeepsTrack env S.shared S'.shared := by
  obtain ⟨hgood, hguar⟩ := h.run (fits_apply env) (fun _ _ _ h => h.1) hr
  refine ⟨hgood, Contract.of_guarantees (R := KeepsTrack env) (fun _ _ h => h) ?_ hguar⟩
  exact fun hkeeps hstep jobId hfollowed => hstep jobId (hkeeps jobId hfollowed)

end

/-- The approved manual spans of a document lie on pages that it has. -/
def ManualInRange (db : Database) (documentId : UUID) (pageCount : Nat) : Prop :=
  ∀ r ∈ db.approvedRows documentId, r.1.sourceTier = .manual → r.2 ≤ pageCount

theorem buildApprovedSpan_pageNumber {n : Nat} {bboxes : List (List ℚ)} {text : String}
    {span : ApprovedSpan} (h : buildApprovedSpan n bboxes text = .ok span) : span.pageNumber = n := by
  obtain ⟨boxes, -, h⟩ := bind_ok h
  cases h
  rfl

/-- If the approved manual spans lie on pages that exist, all approved spans do. -/
theorem inRange_of_manual {env : Env} {s : Shared Database World} {documentId : UUID}
    {spans : List ApprovedSpan} {original : Bytes} {source : FitzDocument}
    (hnumbered : Numbered env s)
    (horig : s.world.objects (Keys.originalPdfKey documentId) = some original)
    (hopen : env.fitzOpen original = .ok source)
    (hspans : s.db.approvedSpans documentId = .ok spans)
    (hmanual : ManualInRange s.db documentId source.pages.length) :
    ∀ span ∈ spans, span.pageNumber ≤ source.pages.length := by
  intro span hspan
  obtain ⟨⟨row, n⟩, hr, hbuild⟩ := (mem_of_mapM hspans span).mp hspan
  rw [buildApprovedSpan_pageNumber hbuild]
  by_cases htier : row.sourceTier = .manual
  · exact hmanual (row, n) hr htier
  · obtain ⟨page, hrow, rfl, -⟩ := mem_approvedRows.mp hr
    obtain ⟨hs, hp, hid, hdoc⟩ := mem_spanRows.mp hrow
    exact hnumbered row hs htier page hp hid original source (hdoc ▸ horig) hopen

theorem manualInRange_of_spans {db : Database} {documentId : UUID} {spans : List ApprovedSpan}
    {pageCount : Nat} (hspans : db.approvedSpans documentId = .ok spans)
    (h : ∀ span ∈ spans, span.pageNumber ≤ pageCount) : ManualInRange db documentId pageCount := by
  intro r hr _
  obtain ⟨span, hbuild⟩ := exists_mapM.mp ⟨spans, hspans⟩ r hr
  rw [← buildApprovedSpan_pageNumber hbuild]
  exact h span ((mem_of_mapM hspans span).mpr ⟨r, hr, hbuild⟩)

/-- **What an accepted review guarantees.**  Whatever operations run and however they
overlap and fail, the approved spans of every document can be projected, with page
numbers of at least one.  Take a job in `applying` whose original opens and has a page.  If
its manual spans lie on pages that the original has and every approved box can be drawn, the
burn-in returns and the job fails by the gate or not at all, as long as operations run one at
a time, no call fails and identifiers are new; processes may die at any point.  A page
number beyond the page count is refused with a `ValueError`. -/
theorem accepted_review_applies (env : Env) (hlib : LibrariesSucceed env) (world : World)
    (operations : List Operation) (hfail : ∀ jobId, .failJob jobId ∉ operations)
    (hreviewer : ∀ jobId, .deliver (.applyJob jobId none) ∉ operations) :
    (∀ (G : Guard Database Write World Input Exn Unit) (S : Pipeline),
      Sys.Run G (Pipeline.start env ⟨Database.empty, world⟩ operations) S →
      ∀ documentId, ∃ spans, S.shared.db.approvedSpans documentId = .ok spans ∧
        ∀ span ∈ spans, 1 ≤ span.pageNumber) ∧
    ∀ S : Pipeline, Sys.Run undisturbed (Pipeline.start env ⟨Database.empty, world⟩ operations) S →
      ∀ job ∈ S.shared.db.jobs, job.status = .applying →
      ∀ original source spans,
        S.shared.world.objects (Keys.originalPdfKey job.documentId) = some original →
        env.fitzOpen original = .ok source → S.shared.db.approvedSpans job.documentId = .ok spans →
      (∀ span ∈ spans, source.pages.length < span.pageNumber →
        ∃ message, apply env original spans = .error (.value message)) ∧
      (source.pages ≠ [] → ManualInRange S.shared.db job.documentId source.pages.length →
        AllDrawable source spans →
        (∃ result, apply env original spans = .ok result) ∧
        ∀ S', Sys.Run undisturbed S S' → ∀ job' ∈ S'.shared.db.jobs, job'.id = job.id →
          job'.status = .failed → ∃ e ∈ S'.shared.db.entries job.id, e.action = .verifyFailed) := by
  refine ⟨fun G S hr documentId => (boxed_of_run hr).approvedSpans documentId, ?_⟩
  intro S hr job hj hst original source spans horig hopen happroved
  refine ⟨fun span hspan hout => apply_out_of_range hopen hspan hout, fun hpages hmanual hdraw => ?_⟩
  have hgood := apply_of_run hfail hreviewer hr
  have hlow : ∀ span ∈ spans, 1 ≤ span.pageNumber := by
    obtain ⟨spans', hspans', hnumbers⟩ := (boxed_of_run hr).approvedSpans job.documentId
    rw [happroved] at hspans'
    cases hspans'
    exact hnumbers
  have hhigh := inRange_of_manual hgood.inv.numbered horig hopen happroved hmanual
  obtain ⟨result, happly⟩ := (apply_ok_iff hlib hopen hpages spans).mpr
    ⟨fun span hspan => ⟨hlow span hspan, hhigh span hspan⟩, hdraw⟩
  refine ⟨⟨result, happly⟩, fun S' hr' job' hj' hid hfailed => ?_⟩
  have htrack : OnTrack env S.shared job :=
    Or.inl ⟨hst, original, spans, result, horig, happroved, happly⟩
  obtain ⟨hgood', hkeeps⟩ := keepsTrack_of_run hgood hr'
  obtain ⟨job'', hj'', hid'', htrack'⟩ := hkeeps job.id ⟨job, hj, rfl, htrack⟩
  obtain rfl : job'' = job' :=
    List.inj_on_of_nodup_map hgood'.inv.reviewed.wf.job_pk hj'' hj' (hid''.trans hid.symm)
  rcases htrack' with ⟨happlying, -⟩ | hpassed | ⟨-, e, he, haction⟩
  · rw [hfailed] at happlying
    cases happlying
  · rw [hfailed] at hpassed
    exact absurd hpassed (by decide)
  · exact ⟨e, hid ▸ he, haction⟩

end

/-! ### Reviews that cannot be applied -/

section

def overrunSpan : AddManualSpanItem :=
  { sampleManualSpan with pageNumber := 2, pageNumber_ge := by decide }

def invertedSpan : AddManualSpanItem := { sampleManualSpan with bboxes := [⟨144, 72, 72, 90⟩] }

def manualReview (item : AddManualSpanItem) : List Operation :=
  [.createJob sampleAdmin ⟨some "a.pdf", some pdfContentType, [0]⟩,
   .deliver (.ingestJob 4), .deliver (.detectJob 4),
   .createDispositions sampleAdmin 4 ⟨[.addManualSpan item], List.cons_ne_nil _ _⟩,
   .postApply sampleAdmin 4, .deliver (.applyJob 4 (some 3))]

def review (item : AddManualSpanItem) : Option Pipeline :=
  (Pipeline.start sampleEnv ⟨Database.empty, World.empty⟩ (manualReview item)).replayWhere
    undisturbedStep (sampleSchedule.take 50)

def refusal (S : Pipeline) : Option Pipeline :=
  S.replayWhere undisturbedStep ((sampleSchedule.drop 50).take 16)

/-- The accepted review of the item cannot be applied: the burn-in raises, and its job
fails without an entry of the gate. -/
def Refused (item : AddManualSpanItem) : Prop :=
  ∃ (S S' : Pipeline) (job job' : RedactionJob) (original : Bytes) (spans : List ApprovedSpan),
    review item = some S ∧ job ∈ S.shared.db.jobs ∧ job.status = .applying ∧
    S.shared.world.objects (Keys.originalPdfKey job.documentId) = some original ∧
    S.shared.db.approvedSpans job.documentId = .ok spans ∧
    (¬ ∃ result, apply sampleEnv original spans = .ok result) ∧
    refusal S = some S' ∧ job' ∈ S'.shared.db.jobs ∧ job'.id = job.id ∧ job'.status = .failed ∧
    ∀ e ∈ S'.shared.db.entries job.id, e.action ≠ .verifyFailed

structure Summary where
  jobs : List RedactionJob
  original : Option Bytes
  approved : Option (List ApprovedSpan)
  actions : List AuditAction
  deriving DecidableEq

def summary (S : Pipeline) : Summary where
  jobs := S.shared.db.jobs
  original := S.shared.world.objects (Keys.originalPdfKey 1)
  approved := (S.shared.db.approvedSpans 1).toOption
  actions := (S.shared.db.entries 4).map (·.action)

/-- The state of a job that is in the given status, with these spans approved. -/
def reviewed (status : JobStatus) (spans : List ApprovedSpan) : Summary :=
  ⟨[⟨4, 1, 6, status, none⟩], some [0], some spans, [.manualSpanAdded]⟩

theorem reviewed_facts {S : Pipeline} {status : JobStatus} {spans : List ApprovedSpan}
    (h : summary S = reviewed status spans) :
    (⟨4, 1, 6, status, none⟩ : RedactionJob) ∈ S.shared.db.jobs ∧
      S.shared.world.objects (Keys.originalPdfKey 1) = some [0] ∧
      S.shared.db.approvedSpans 1 = .ok spans ∧
      ∀ e ∈ S.shared.db.entries 4, e.action ≠ .verifyFailed := by
  have hjobs : S.shared.db.jobs = [⟨4, 1, 6, status, none⟩] := congrArg Summary.jobs h
  have hspans : (S.shared.db.approvedSpans 1).toOption = some spans := congrArg Summary.approved h
  have hactions : (S.shared.db.entries 4).map (·.action) = [.manualSpanAdded] :=
    congrArg Summary.actions h
  refine ⟨hjobs ▸ List.mem_cons_self, congrArg Summary.original h, ?_, fun e he ha => ?_⟩
  · revert hspans
    cases S.shared.db.approvedSpans 1 with
    | error e => exact fun h => by cases h
    | ok spans' => exact fun h => by cases h; rfl
  · have hmem : e.action ∈ (S.shared.db.entries 4).map (·.action) := List.mem_map_of_mem he
    rw [hactions, ha] at hmem
    exact absurd hmem (by decide)

theorem refused_of_run {item : AddManualSpanItem} {spans : List ApprovedSpan}
    (h : ((review item).bind fun S => (refusal S).map fun S' => (summary S, summary S')) =
      some (reviewed .applying spans, reviewed .failed spans))
    (happly : ¬ ∃ result, apply sampleEnv [0] spans = .ok result) : Refused item := by
  obtain ⟨S, hS, h⟩ := Option.bind_eq_some_iff.mp h
  obtain ⟨S', hS', h⟩ := Option.map_eq_some_iff.mp h
  obtain ⟨hsummary, hsummary'⟩ := Prod.mk.inj h
  obtain ⟨hjob, horig, happroved, -⟩ := reviewed_facts hsummary
  obtain ⟨hjob', -, -, hactions⟩ := reviewed_facts hsummary'
  exact ⟨S, S', _, _, [0], spans, hS, hjob, rfl, horig, happroved, happly, hS', hjob', rfl, rfl,
    hactions⟩

theorem librariesSucceed_sample : LibrariesSucceed sampleEnv where
  reopens out hpages := ⟨[0], _, if_neg (by simpa using hpages), rfl⟩
  reads _ := ⟨_, rfl⟩

/-- The sample has one page, of 2550 by 3300 pixels. -/
theorem apply_sample_iff (spans : List ApprovedSpan) :
    (∃ result, apply sampleEnv [0] spans = .ok result) ↔
      ∀ span ∈ spans, span.pageNumber = 1 ∧ ∀ b ∈ span.bboxes, b.Drawable 2550 3300 := by
  refine (apply_ok_iff librariesSucceed_sample (show sampleEnv.fitzOpen [0] = .ok _ from rfl)
    (List.cons_ne_nil _ _) spans).trans ⟨fun ⟨hnumbers, hdraw⟩ span hspan => ?_,
      fun h => ⟨fun span hspan => ?_, fun k b hb => ?_⟩⟩
  · have hnumber : span.pageNumber = 1 := le_antisymm (hnumbers span hspan).2 (hnumbers span hspan).1
    exact ⟨hnumber, fun b hb =>
      hdraw ⟨0, Nat.one_pos⟩ b (mem_pageBoxes.mpr ⟨span, hspan, hnumber, hb⟩)⟩
  · rw [InRange, (h span hspan).1]
    exact ⟨Nat.le_refl 1, Nat.le_refl 1⟩
  · obtain ⟨span, hspan, -, hmem⟩ := mem_pageBoxes.mp hb
    obtain ⟨k, hk⟩ := k
    obtain rfl : k = 0 := Nat.lt_one_iff.mp hk
    exact (h span hspan).2 b hmem

/-- Neither a page that does not exist nor an inverted box is refused before the
burn-in. -/
theorem accepted_review_refused : Refused overrunSpan ∧ Refused invertedSpan := by
  constructor
  · have hrun :
        ((review overrunSpan).bind fun S => (refusal S).map fun S' => (summary S, summary S')) =
        some (reviewed .applying [⟨2, [⟨72, 72, 144, 90⟩], "x"⟩],
          reviewed .failed [⟨2, [⟨72, 72, 144, 90⟩], "x"⟩]) := by decide +kernel
    refine refused_of_run hrun fun h => ?_
    exact absurd ((apply_sample_iff _).mp h _ List.mem_cons_self).1 (by decide)
  · have hrun :
        ((review invertedSpan).bind fun S => (refusal S).map fun S' => (summary S, summary S')) =
        some (reviewed .applying [⟨1, [⟨144, 72, 72, 90⟩], "x"⟩],
          reviewed .failed [⟨1, [⟨144, 72, 72, 90⟩], "x"⟩]) := by decide +kernel
    refine refused_of_run hrun fun h => ?_
    have hdraw := ((apply_sample_iff _).mp h _ List.mem_cons_self).2 _ List.mem_cons_self
    have hexact : BBox.Exact ⟨144, 72, 72, 90⟩ := by
      refine exact_of_abs_le ?_ ?_ ?_ ?_ <;> norm_num
    exact absurd (hexact.drawable_iff.mp hdraw).1 (by decide +kernel)

/-- A review that can be applied. -/
theorem accepted_review_applies_sample :
    ∃ (S : Pipeline) (job : RedactionJob) (original : Bytes) (spans : List ApprovedSpan),
      review sampleManualSpan = some S ∧ job ∈ S.shared.db.jobs ∧ job.status = .applying ∧
      S.shared.world.objects (Keys.originalPdfKey job.documentId) = some original ∧
      S.shared.db.approvedSpans job.documentId = .ok spans ∧
      (∃ result, apply sampleEnv original spans = .ok result) ∧
      ∀ S', Sys.Run undisturbed S S' → ∀ job' ∈ S'.shared.db.jobs, job'.id = job.id →
        job'.status = .failed → ∃ e ∈ S'.shared.db.entries job.id, e.action = .verifyFailed := by
  have hsummary : (review sampleManualSpan).map summary =
      some (reviewed .applying [⟨1, [⟨72, 72, 144, 90⟩], "x"⟩]) := by decide +kernel
  obtain ⟨S, hS, hsummary⟩ := Option.map_eq_some_iff.mp hsummary
  obtain ⟨hjob, horig, happroved, -⟩ := reviewed_facts hsummary
  have hexact : BBox.Exact ⟨72, 72, 144, 90⟩ := by
    refine exact_of_abs_le ?_ ?_ ?_ ?_ <;> norm_num
  have hbox : BBox.Drawable 2550 3300 ⟨72, 72, 144, 90⟩ :=
    hexact.drawable_iff.mpr (by decide +kernel)
  obtain ⟨hrange, hdraw⟩ := (apply_ok_iff librariesSucceed_sample
    (show sampleEnv.fitzOpen [0] = .ok _ from rfl) (List.cons_ne_nil _ _)
    [⟨1, [⟨72, 72, 144, 90⟩], "x"⟩]).mp
    ((apply_sample_iff _).mpr
      (List.forall_mem_singleton.mpr ⟨rfl, List.forall_mem_singleton.mpr hbox⟩))
  obtain ⟨happly, hgate⟩ := ((accepted_review_applies sampleEnv librariesSucceed_sample World.empty
    (manualReview sampleManualSpan) (fun _ h => by simp [manualReview] at h)
    (fun _ h => by simp [manualReview] at h)).2 S
    (Sys.run_of_replayWhere undisturbed_of_step hS) _ hjob rfl [0] _ _ horig rfl happroved).2
      (List.cons_ne_nil _ _)
      (manualInRange_of_spans happroved fun span hspan => (hrange span hspan).2) hdraw
  exact ⟨S, _, [0], _, hS, hjob, rfl, horig, happroved, happly, hgate⟩

end

end RedactApi
