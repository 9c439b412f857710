import RedactApi.Json.Loads
import RedactApi.Pipeline.AcceptedReview
import RedactApi.Pipeline.ExportCertificate
import RedactApi.Pipeline.ExportedManifest

/-!
# The verdict in the manifest

A burn-in writes what the gate said into the category of an audit entry, as canonical JSON.
An export takes the category of the last such entry and reads it back.  In between the blob is
a string in a table, and the PDF that was judged is an object in the store.

`Vouched` ties the two together: a job that has passed has an entry with the verdict on what
its burn-in makes now.  So the manifest of an export shows the verdict of the gate on the very
PDF that the archive holds (`manifest_reports_verdict`).
-/

namespace RedactApi

open ReadCommitted KeyedList

/-! ### The blob -/

def CheckSummary.toJson (check : CheckSummary) : Json.Value :=
  .obj [("check_type", .str check.checkType.value), ("pages_checked", .num check.pagesChecked),
    ("passed", .bool check.passed)]

/-- What a manifest shows of a run of the gate. -/
def VerifyResult.summary (result : VerifyResult) : Json.Value :=
  .obj [("checks", .arr (result.checks.map CheckSummary.toJson)),
    ("verdict", .str result.verdict.value)]

/-- The `verify_summary` of a manifest: empty, or the last verdict, decoded. -/
def ExportManifest.decodedSummary (manifest : ExportManifest) : Option Json.Value :=
  match manifest.verifySummary with
  | none => some (.obj [])
  | some category => Json.loads category.toList

def CheckSummary.written (check : CheckSummary) : Json.Value :=
  .obj [("check_type", .str check.checkType.value), ("passed", .bool check.passed),
    ("pages_checked", .num check.pagesChecked)]

theorem keyed_check (check : CheckSummary) : Json.Keyed check.written := by
  refine .obj (by simp) fun f hf => ?_
  simp only [List.mem_cons, List.not_mem_nil, or_false] at hf
  rcases hf with rfl | rfl | rfl
  · exact .str _
  · exact .bool _
  · exact .num _

theorem sorted_check (check : CheckSummary) : check.written.sorted = check.toJson := by
  have horder : Json.inOrder [("check_type", .str check.checkType.value),
      ("passed", .bool check.passed), ("pages_checked", .num check.pagesChecked)] =
        [("check_type", .str check.checkType.value), ("pages_checked", .num check.pagesChecked),
          ("passed", .bool check.passed)] := by
    simp +decide only [Json.inOrder, List.insertionSort_cons, List.insertionSort_nil,
      List.orderedInsert, if_true, if_false]
  rw [CheckSummary.written, Json.sorted_obj, horder]
  rfl

/-- **The verdict can be read back.** -/
theorem loads_verifyVerdictCategory (result : ApplyResult) :
    Json.loads (verifyVerdictCategory result).toList = some result.verifyResult.summary := by
  have hchecks : (Json.Value.arr (result.verifyResult.checks.map CheckSummary.written)).sorted =
      .arr (result.verifyResult.checks.map CheckSummary.toJson) := by
    rw [Json.Value.sorted, Json.sortedItems_eq, List.map_map]
    exact congrArg _ (List.map_congr_left fun check _ => sorted_check check)
  have horder : ∀ verdict checks : Json.Value, Json.inOrder [("verdict", verdict), ("checks", checks)] =
      [("checks", checks), ("verdict", verdict)] := fun _ _ => by
    simp +decide only [Json.inOrder, List.insertionSort_cons, List.insertionSort_nil,
      List.orderedInsert, if_false]
  show Json.loads (String.ofList (Json.dumps (.obj
    [("verdict", .str result.verifyResult.verdict.value),
      ("checks", .arr (result.verifyResult.checks.map CheckSummary.written))]))).toList = _
  rw [String.toList_ofList, Json.loads_dumps]
  · rw [Json.sorted_obj, horder, List.map_cons, hchecks]
    rfl
  · refine .obj (by simp) fun f hf => ?_
    simp only [List.mem_cons, List.not_mem_nil, or_false] at hf
    rcases hf with rfl | rfl
    · exact .str _
    · refine .arr fun v hv => ?_
      obtain ⟨check, -, rfl⟩ := List.mem_map.mp hv
      exact keyed_check check

/-! ### The entry of a job that has passed -/

section

variable {env : Env} {s s' s₁ : Shared Database World} {job new : RedactionJob} {p : List Write}

/-- The job has an entry with the verdict on what its burn-in makes now. -/
def Vouched (env : Env) (s : Shared Database World) (job : RedactionJob) : Prop :=
  ∀ original spans result, s.world.objects (Keys.originalPdfKey job.documentId) = some original →
    s.db.approvedSpans job.documentId = .ok spans → apply env original spans = .ok result →
    ∃ e ∈ s.db.entries job.id, e.action = .verifyPassed ∧ e.category = verifyVerdictCategory result

structure VouchInv (env : Env) (s : Shared Database World) : Prop extends LifeInv env s where
  vouched : ∀ job ∈ s.db.jobs, job.status ∈ passedStates → Vouched env s job

def vouchContract (env : Env) : Contract Database Write World Input Exn :=
  { lifeContract env with inv := VouchInv env }

theorem VouchedAfter.life (h : (vouchContract env).After s s') : (lifeContract env).After s s' :=
  ⟨h.inv.toLifeInv, h.past⟩

/-- A job that keeps its original, its spans and its entries stays vouched for. -/
theorem Vouched.frame (h : Vouched env s job) (hwf : WellFormed s.db) (hwf' : WellFormed s'.db)
    (horiginal : s'.world.objects (Keys.originalPdfKey job.documentId) =
      s.world.objects (Keys.originalPdfKey job.documentId))
    (hspans : SameSpans job.documentId s.db s'.db)
    (hentries : s.db.entries job.id ⊆ s'.db.entries job.id) : Vouched env s' job := by
  intro original spans result ho hs happly
  rw [horiginal] at ho
  rw [hspans.approvedSpans hwf hwf'] at hs
  obtain ⟨e, he, hrest⟩ := h original spans result ho hs happly
  exact ⟨e, hentries he, hrest⟩

theorem vouch_acts {w : World} (hi : VouchInv env s) (h : (lifeContract env).Acts s w) :
    (vouchContract env).Acts s w where
  inv := ⟨h.inv, fun job hj hst => (hi.vouched job hj hst).frame hi.reviewed.wf hi.reviewed.wf
    (SameOriginals.original h.past.2 hi.reviewed.wf hj) (SameSpans.refl _ _) (List.Subset.refl _)⟩
  guar := h.guar
  past := h.past

theorem vouch_tolerates {f : World → World} (h : Tolerates (lifeContract env) f) :
    Tolerates (vouchContract env) f := fun s hi => vouch_acts hi (h s hi.toLifeInv)

/-- A commit that keeps every job's promises, and vouches for the jobs that it makes pass. -/
theorem vouch_lands (hi : VouchInv env s) (h : (lifeContract env).Lands (fun _ _ _ => True) s p)
    (hjobs : ∀ j ∈ (view s.db p).jobs, j.status ∈ passedStates →
      (j ∈ s.db.jobs ∧ SameReview j s.db (view s.db p)) ∨
        Vouched env { s with db := view s.db p } j) :
    (vouchContract env).Lands (fun _ _ _ => True) s p := by
  refine ⟨⟨h.1, fun j hj hst => ?_⟩, h.2.1, trivial⟩
  rcases hjobs j hj hst with ⟨hold, hsame⟩ | hvouched
  · exact (hi.vouched j hold hst).frame hi.reviewed.wf h.1.reviewed.wf rfl hsame.spans
      (fun e he => hsame.entries ▸ he)
  · exact hvouched

theorem vouch_lands_closing {es : List AuditEntry} (hi : VouchInv env s) (hj : job ∈ s.db.jobs)
    (hsame : SameJob job new) (hes : ∀ e ∈ es, e.jobId = job.id ∧ e.spanId = none)
    (h : (lifeContract env).Lands (fun _ _ _ => True) s (closingWrites job new es))
    (hnew : new.status ∈ passedStates → job.status ∈ passedStates ∨
      Vouched env { s with db := view s.db (closingWrites job new es) } new) :
    (vouchContract env).Lands (fun _ _ _ => True) s (closingWrites job new es) := by
  have hview := view_closingWrites s.db job new es
  refine vouch_lands hi h fun j hjm hst => ?_
  have hmem : j = new ∨ j ∈ s.db.jobs ∧ j.id ≠ job.id := by
    rw [hview] at hjm
    exact (hi.reviewed.wf.mem_updateJob hj hsame.id hsame.document hsame.organization).mp hjm
  rcases hmem with rfl | ⟨hold, hne⟩
  · refine Or.inr ((hnew hst).elim (fun hpassed => ?_) id)
    have hvouched := hi.vouched job hj hpassed
    rw [Vouched, ← hsame.id, ← hsame.document] at hvouched
    refine Vouched.frame hvouched hi.reviewed.wf h.1.reviewed.wf rfl ?_ fun e he => ?_
    · rw [hview]
      exact ⟨rfl, fun _ _ => rfl⟩
    · have happended : (view s.db (closingWrites job j es)).auditEntries =
          s.db.auditEntries ++ es := by
        rw [hview]
      rw [entries_of_append happended]
      exact List.mem_append_left _ he
  · exact Or.inl ⟨hold, others_closing hi.reviewed.wf hj hsame hes hold hne⟩

theorem vouch_lands_status {newStatus : JobStatus} (hi : VouchInv env s) (hj : job ∈ s.db.jobs)
    (h : (lifeContract env).Lands (fun _ _ _ => True) s [statusWrite job newStatus])
    (hopen : newStatus ∉ passedStates) :
    (vouchContract env).Lands (fun _ _ _ => True) s [statusWrite job newStatus] :=
  @vouch_lands_closing env s job { job with status := newStatus } [] hi hj ⟨rfl, rfl, rfl⟩
    (fun _ h => absurd h List.not_mem_nil) h fun h => absurd h hopen

/-! ### The operations -/

theorem vouch_fails {consumes : JobStatus} (hconsumes : consumes ∈ consumedStates) (jobId : UUID) :
    LandsFailure (vouchContract env) jobId consumes fun _ => True := by
  intro s₀ s₁ s₂ job₀ job h₀ hjob₀ hst h₁ hjob hedge h₂ hal
  have hj : job ∈ s₂.db.jobs := h₂.past.1 ▸ job?_mem hjob
  refine vouch_lands_status h₂.inv hj ?_ (by decide)
  exact life_fails hconsumes jobId s₀ s₁ s₂ job₀ job h₀.toLifeInv hjob₀ hst (VouchedAfter.life h₁)
    hjob hedge (VouchedAfter.life h₂) hal

theorem vouch_safe_other {operation : Operation} (hfail : ∀ jobId, operation ≠ .failJob jobId)
    (happly : ∀ jobId reviewerId, operation ≠ .deliver (.applyJob jobId reviewerId))
    (hi : VouchInv env s) : (vouchContract env).Safe (operation.run env) s [] := by
  have henqueue : ∀ message, Tolerates (vouchContract env) (·.enqueue message) :=
    fun message => vouch_tolerates ((operates_life env).enqueue message)
  cases operation with
  | deliver message =>
    cases message with
    | ingestJob jobId =>
      refine safe_ingestJob (fun documentId n data =>
        ⟨vouch_tolerates ((operates_life env).pages documentId n data).1,
          vouch_tolerates ((operates_life env).pages documentId n data).2⟩) (henqueue _)
        (vouch_fails (by decide) jobId) fun s₁ s₂ job _ hjob hst h₂ _ => ?_
      have hj : job ∈ s₂.db.jobs := h₂.past.1 ▸ job?_mem hjob
      exact vouch_lands_status h₂.inv hj (life_ingests h₂.inv.toLifeInv hj hst) (by decide)
    | detectJob jobId =>
      refine safe_detectJob (vouch_fails (by decide) jobId)
        fun s₁ s₂ job p _ hjob hst h₂ hp _ hf _ => ?_
      have hj : job ∈ s₂.db.jobs := h₂.past.1 ▸ job?_mem hjob
      have hseen : ∀ t, (vouchContract env).past s₁ t → t.db = s₂.db :=
        fun t ht => ht.1.trans h₂.past.1.symm
      obtain ⟨hlife, hadvances⟩ := h₂.inv.toLifeInv.detect hj hst hp hseen hf
      obtain ⟨hreviewed, hdetected⟩ := detected_of_writes hp h₂.inv.reviewed hf.left.left hseen
        (h₂.inv.reviewed.wf.job_fk job hj)
      refine vouch_lands h₂.inv ⟨hlife, hadvances, trivial⟩ fun j hjm hpassed => ?_
      rcases (mem_jobs_detectWrites hreviewed.wf (hdetected.jobs ▸ hj) j).mp hjm with rfl | ⟨hold, hne⟩
      · exact absurd hpassed (show JobStatus.inReview ∉ passedStates by decide)
      · rw [hdetected.jobs] at hold
        exact Or.inl ⟨hold, others_detect hdetected hreviewed.wf hj hold hne⟩
    | applyJob jobId reviewerId => exact absurd rfl (happly jobId reviewerId)
  | failJob jobId => exact absurd rfl (hfail jobId)
  | createJob tenant file =>
    refine Contract.wp_bind (safe_createJob (fun _ => henqueue _)
      (fun s document job data h _ _ hf => vouch_acts h (life_uploads h.toLifeInv hf)) ?_ hi)
    intro s document job h hfresh hf _
    obtain ⟨hlife, hadvances⟩ := h.toLifeInv.create hfresh hf
    refine vouch_lands h ⟨hlife, hadvances, trivial⟩ fun j hj hpassed => ?_
    rcases List.mem_append.mp hj with hold | hnew
    · exact Or.inl ⟨hold, same_create hold⟩
    · rw [List.mem_singleton.mp hnew, hfresh.status] at hpassed
      exact absurd hpassed (by decide)
  | createDispositions tenant jobId payload =>
    refine Contract.wp_bind (safe_createDispositions fun s₁ s₂ job p _ hjob hst h₂ hp hf _ => ?_)
    have hj : job ∈ s₂.db.jobs := h₂.past.1 ▸ hjob.mem
    have hseen : ∀ t, (vouchContract env).Between s₁ s₂ t → t.db = s₂.db := fun t ht => ht.2.1.symm
    have hs := batchSteps_of_writes hp h₂.inv.reviewed ⟨job, hj, rfl, rfl⟩ hf
      (fun t ht => hseen t ht ▸ Extends.refl _) (Or.inl hseen)
    obtain ⟨hlife, hadvances⟩ := h₂.inv.toLifeInv.batch hj hst hs
    have hbatched := (batch_keeps h₂.inv.reviewed ⟨job, hj, rfl, rfl⟩ hs).2
    refine vouch_lands h₂.inv ⟨hlife, hadvances, trivial⟩ fun j hjm hpassed => ?_
    rw [hbatched.jobs] at hjm
    refine Or.inl ⟨hjm, others_batch hbatched h₂.inv.reviewed.wf hj hjm fun he => ?_⟩
    rw [List.inj_on_of_nodup_map h₂.inv.reviewed.wf.job_pk hjm hj he, hst] at hpassed
    exact absurd hpassed (by decide)
  | postApply tenant jobId =>
    refine Contract.wp_bind (safe_postApply (fun _ => henqueue _) ?_ hi)
    intro s₁ s₂ s₃ job _ hjob hst h₂ hcount h₃ _
    have hj : job ∈ s₃.db.jobs := h₃.past.1 ▸ h₂.past.1 ▸ hjob.mem
    rw [← h₃.past.1] at hcount
    exact vouch_lands_status h₃.inv hj (life_starts h₃.inv.toLifeInv hj hst hcount) (by decide)
  | exportJob tenant jobId =>
    refine Contract.wp_bind (safe_exportJob
      (fun data => vouch_tolerates ((operates_life env).manifest jobId data)) ?_ hi)
    intro s₁ s₂ job exported _ hjob hst h₂ hexported hf _
    have hj : job ∈ s₂.db.jobs := h₂.past.1 ▸ hjob.mem
    refine @vouch_lands_closing env s₂ job { job with status := .exported } [exported] h₂.inv hj
      ⟨rfl, rfl, rfl⟩ (fun e he => ?_) (life_exports h₂.inv.toLifeInv hj hst hexported hf)
      fun _ => Or.inl (by rw [hst]; decide)
    rw [List.mem_singleton.mp he]
    exact ⟨hexported.job, hexported.span⟩

/-- What a delivery has read is still so at its commit. -/
theorem readings_of_burnIn (h₁ : LifeInv env s₁) (hj : job ∈ s₁.db.jobs)
    (b : BurnIn (vouchContract env) env s₁ job) (h : (vouchContract env).past b.atSpans s) :
    s.world.objects (Keys.originalPdfKey job.documentId) = some b.bytes ∧
      s.db.approvedSpans job.documentId = .ok b.spans := by
  have hwf : WellFormed b.atOriginal.db := by
    rw [b.past_original.1]
    exact h₁.reviewed.wf
  have hsince := (lifeContract env).past_trans b.past_spans h
  refine ⟨?_, by rw [h.1]; exact b.approved⟩
  rw [SameOriginals.original hsince.2 hwf (by rw [b.past_original.1]; exact hj)]
  exact b.original

/-- **A delivery** that makes its job pass records the verdict on what it stores. -/
theorem vouch_safe_applyJob (jobId : UUID) (reviewerId : Option UUID) :
    (vouchContract env).Safe (applyJob env jobId reviewerId) s [] := by
  refine safe_closing (safe_guardedTask (vouch_fails (by decide) jobId) (fun _ _ _ => trivial)
    fun s₁ job h₁ hjob hst => tries_applyWork_verdict h₁ hst ?_ ?_ ?_ ?_)
  · intro s₃ s' spans _ _ h
    exact vouch_acts h.inv (acts_of_same h.inv.toLifeInv (fun _ _ _ => ⟨rfl, rfl⟩) fun _ _ => rfl)
  · intro s' data h
    exact vouch_acts h.inv (life_stores h.inv.toLifeInv (h.past.1 ▸ job?_mem hjob) hst)
  · intro s' b started failed h _ hstarted hfailed hf _
    have hdb : s'.db = s₁.db := (b.since h).past.1
    have hj : job ∈ s'.db.jobs := hdb ▸ job?_mem hjob
    exact @vouch_lands_closing env s' job { job with status := .failed } [started, failed] h.inv hj
      ⟨rfl, rfl, rfl⟩ (lifecycle_pair hstarted hfailed.toLifecycle)
      (life_failsGate h.inv.toLifeInv hj hst hstarted hfailed.toLifecycle hf)
      fun hm => absurd hm (show JobStatus.failed ∉ passedStates by decide)
  · intro s₂ s' b started passed h hres hstore hstarted hpassed hf _
    have hdb : s'.db = s₁.db := (b.since h).past.1
    have hj : job ∈ s'.db.jobs := hdb ▸ job?_mem hjob
    have hwf := h.inv.reviewed.wf
    obtain ⟨horiginal, happroved⟩ := readings_of_burnIn h₁.toLifeInv (job?_mem hjob) b h.past
    have hartifact : Artifact env s' job := by
      refine ⟨b.bytes, b.spans, b.result, horiginal, happroved, b.applied, hres, ?_⟩
      rw [show s'.world = s₂.world.put _ _ from congrArg Shared.world hstore]
      exact put_objects_self _ _ _
    have hlands := life_passesGate h.inv.toLifeInv hj hst hartifact hstarted hpassed.toLifecycle hf
    have hview := view_closingWrites s'.db job (verifiedJob job) [started, passed]
    refine @vouch_lands_closing env s' job (verifiedJob job) [started, passed] h.inv hj
      ⟨rfl, rfl, rfl⟩ (lifecycle_pair hstarted hpassed.toLifecycle) hlands fun _ => Or.inr ?_
    -- the burn-in that is judged is the one the delivery has made
    intro original spans result ho hs happly
    have hspans : SameSpans job.documentId s'.db
        (view s'.db (closingWrites job (verifiedJob job) [started, passed])) := by
      rw [hview]
      exact ⟨rfl, fun _ _ => rfl⟩
    rw [show (verifiedJob job).documentId = job.documentId from rfl,
      hspans.approvedSpans hwf hlands.1.reviewed.wf, happroved] at hs
    cases Option.some.inj (horiginal.symm.trans ho)
    cases hs
    rw [b.applied] at happly
    cases happly
    refine ⟨passed, ?_, hpassed.action, hpassed.category⟩
    have happended : (view s'.db (closingWrites job (verifiedJob job) [started, passed])).auditEntries =
        s'.db.auditEntries ++ [started, passed] := by
      rw [hview]
    rw [entries_of_append happended]
    exact List.mem_append_right _ (List.mem_filter.mpr ⟨by simp, decide_eq_true hpassed.job⟩)

end

/-! ### Runs -/

theorem fits_vouch (env : Env) : (vouchContract env).Fits (α := Unit) Guard.serial :=
  ⟨fun _ => trivial, fun _ _ => trivial, fun _ _ _ => trivial⟩

theorem vouch_of_run {env : Env} {world : World} {operations : List Operation} {S : Pipeline}
    (hops : ∀ jobId, .failJob jobId ∉ operations)
    (hr : Sys.Run Guard.serial (Pipeline.start env ⟨Database.empty, world⟩ operations) S) :
    (vouchContract env).GoodSerial S := by
  refine Contract.sound_serial (fits_vouch env) (fun _ _ _ h => h) (Contract.goodSerial_start
    ⟨lifeInv_empty env world, fun _ h => absurd h List.not_mem_nil⟩ fun q hq s hi => ?_) hr
  obtain ⟨operation, hop, rfl⟩ := List.mem_map.mp hq
  have hfail : ∀ jobId, operation ≠ .failJob jobId := fun jobId he => hops jobId (he ▸ hop)
  by_cases happly : ∃ jobId reviewerId, operation = .deliver (.applyJob jobId reviewerId)
  · obtain ⟨jobId, reviewerId, rfl⟩ := happly
    exact vouch_safe_applyJob jobId reviewerId
  · exact vouch_safe_other hfail (fun jobId reviewerId he => happly ⟨jobId, reviewerId, he⟩) hi

/-! ### What the manifest shows -/

section

variable {env : Env} {pdfBytes : Bytes} {doc : FitzDocument} {strings : List String}
  {result : VerifyResult} {status : JobStatus} {entries : List AuditEntry}

theorem checks_of_pass (hopen : env.fitzOpen pdfBytes = .ok doc)
    (h : verify env pdfBytes strings = .ok result) (hpass : result.verdict = .pass) :
    ∀ check ∈ result.checks, check.passed = true ∧ check.pagesChecked = doc.pages.length := by
  rw [verify, hopen] at h
  obtain ⟨_, hdoc, h⟩ := bind_ok h
  cases hdoc
  obtain ⟨ocr, hocr, h⟩ := bind_ok h
  obtain ⟨perPage, -, hsummary⟩ := bind_ok hocr
  cases h
  have hempty : ((checkTextLayer env doc strings).2 ++ ocr.2 ++
      (checkMetadata env doc strings).2).isEmpty = true := by
    by_contra hne
    rw [if_neg hne] at hpass
    cases hpass
  simp only [List.isEmpty_iff, List.append_eq_nil_iff] at hempty
  obtain ⟨⟨htext, hocrNil⟩, hmetadata⟩ := hempty
  cases hsummary
  intro check hcheck
  simp only [List.mem_cons, List.not_mem_nil, or_false] at hcheck
  rcases hcheck with rfl | rfl | rfl
  · exact ⟨List.isEmpty_iff.mpr htext, rfl⟩
  · exact ⟨List.isEmpty_iff.mpr hocrNil, rfl⟩
  · exact ⟨List.isEmpty_iff.mpr hmetadata, rfl⟩

/-- In the chain of a job that has passed, that it has is the only verdict. -/
theorem ChainShape.summary (h : ChainShape status entries) (hst : status ∈ passedStates)
    {e : AuditEntry} (he : e ∈ entries) (haction : e.action = .verifyPassed) :
    manifestVerifySummary entries = some e.category := by
  obtain ⟨review, closing, rfl, hreview, -, hactions⟩ := h
  have hclosing : e ∈ closing := by
    refine (List.mem_append.mp he).resolve_left fun hmem => ?_
    have hreviewed := (hreview e hmem).2
    rw [haction] at hreviewed
    exact absurd hreviewed (by decide)
  -- the events are the start, the verdict, and perhaps an export
  have hlist : ∃ tail, closing.map (·.action) = .applyStarted :: .verifyPassed :: tail ∧
      ∀ a ∈ tail, a = .exported := by
    simp only [passedStates, List.mem_cons, List.not_mem_nil, or_false] at hst
    rcases hst with rfl | rfl
    · exact ⟨[], List.mem_singleton.mp hactions, fun _ h => absurd h List.not_mem_nil⟩
    · exact ⟨[.exported], List.mem_singleton.mp hactions, fun _ h => List.mem_singleton.mp h⟩
  obtain ⟨tail, hlist, htail⟩ := hlist
  obtain ⟨started, l, rfl, hstarted, hl⟩ := List.map_eq_cons_iff.mp hlist
  obtain ⟨verdict, rest, rfl, -, rfl⟩ := List.map_eq_cons_iff.mp hl
  have hrest : ∀ x ∈ rest, x.action = .exported := fun x hx => htail _ (List.mem_map_of_mem hx)
  obtain rfl : e = verdict := by
    rcases List.mem_cons.mp hclosing with rfl | hmem
    · rw [haction] at hstarted
      cases hstarted
    rcases List.mem_cons.mp hmem with rfl | hmem
    · rfl
    · have hexported := hrest e hmem
      rw [haction] at hexported
      cases hexported
  rw [show review ++ started :: e :: rest = (review ++ [started]) ++ e :: rest by simp]
  refine manifestVerifySummary_eq (Or.inl haction) fun x hx hverdict => ?_
  rcases hverdict with hverdict | hverdict <;> rw [hrest x hx] at hverdict <;> cases hverdict

/-- The manifest shows the verdict of the gate on the PDF with the texts that are approved: it
has passed every check on every page. -/
structure ReportsVerdict (env : Env) (db : Database) (job : RedactionJob) (redacted : Bytes)
    (doc : FitzDocument) (manifest : ExportManifest) (spans : List ApprovedSpan)
    (result : VerifyResult) : Prop where
  approved : db.approvedSpans job.documentId = .ok spans
  judged : verify env redacted (redactedStrings spans) = .ok result
  shown : manifest.decodedSummary = some result.summary
  passed : result.verdict = .pass
  checks : ∀ check ∈ result.checks, check.passed = true ∧ check.pagesChecked = doc.pages.length

/-- **The manifest reports the verdict on the PDF in the archive.**  Operations of any kind run
one at a time, each failing or dying at any point, and then an export runs and returns.  The
verdict in the audit chain can be read back, and it is what the gate says of the PDF that the
archive holds and of the texts that are approved. -/
theorem manifest_reports_verdict (env : Env) (world : World) (operations : List Operation)
    (hops : ∀ jobId, .failJob jobId ∉ operations) (S : Pipeline)
    (hr : Sys.Run Guard.serial (Pipeline.start env ⟨Database.empty, world⟩ operations) S)
    (tenant : TenantContext) (jobId : UUID) (ls : List (Label Input Exn)) (bytes : Bytes)
    (s' : Shared Database World) (p' : List Write)
    (h : Ends (exportJob env tenant jobId) ls S.shared [] (.ok bytes) s' p') :
    ∃ job original redacted manifest doc spans result,
      Exported env S.shared jobId bytes job original redacted manifest ∧
      env.fitzOpen redacted = .ok doc ∧
      ReportsVerdict env S.shared.db job redacted doc manifest spans result := by
  obtain ⟨job, original, redacted, manifest, hexported⟩ :=
    (Contract.solo_ends h (fun _ _ => trivial) (free_nil _) (wp_exportJob_solo tenant jobId)).1 bytes rfl
  have hinv := (vouch_of_run hops hr).inv
  have hintact : Intact env S.shared.db := chains_of_run (fun _ => HashChain.chain_nil _) hr
  have hjob := hinv.jobs job hexported.mem
  obtain ⟨stored, spans, result, horiginal, hspans, happly, hpass, hartifact⟩ :=
    hjob.artifact hexported.passed
  -- the archive holds the artifact
  obtain ⟨key, hkey, hredacted⟩ := hexported.storedRedacted
  have hkey' := hjob.key
  rw [if_pos hexported.passed, hkey] at hkey'
  rw [Option.some.inj hkey', hartifact] at hredacted
  obtain rfl := Option.some.inj hredacted
  obtain ⟨_, -, -, -, -, hverify⟩ := apply_inv happly
  obtain ⟨doc, hopen, -⟩ := bind_ok hverify
  have hverdict : result.verifyResult.verdict = .pass := of_decide_eq_true hpass
  refine ⟨job, original, result.pdfBytes, manifest, doc, spans, result.verifyResult, hexported,
    hopen, hspans, hverify, ?_, hverdict, checks_of_pass hopen hverify hverdict⟩
  -- and the chain holds its verdict
  obtain ⟨e, he, haction, hcategory⟩ :=
    hinv.vouched job hexported.mem hexported.passed stored spans result horiginal hspans happly
  obtain ⟨now, rfl⟩ := hexported.assembled
  have hsummary : manifestVerifySummary (S.shared.db.entriesBySequence job.id) = some e.category := by
    rw [entriesBySequence_eq (hintact job.id)]
    exact hjob.chain.summary hexported.passed he haction
  show (match manifestVerifySummary (S.shared.db.entriesBySequence job.id) with
    | none => _
    | some category => Json.loads category.toList) = _
  rw [hsummary, hcategory]
  exact loads_verifyVerdictCategory result

/-- The second export of the sample job. -/
theorem manifest_reports_verdict_again :
    ∃ S ls bytes s' p' job redacted doc manifest spans result,
      (Pipeline.start sampleEnv ⟨Database.empty, World.empty⟩ sampleOperations).replayWhere
        Sys.serialStep sampleSchedule = some S ∧
      Ends (exportJob sampleEnv sampleAdmin 4) ls S.shared [] (.ok bytes) s' p' ∧
      ReportsVerdict sampleEnv S.shared.db job redacted doc manifest spans result := by
  have hsome : ((Pipeline.start sampleEnv ⟨Database.empty, World.empty⟩
      sampleOperations).replayWhere Sys.serialStep sampleSchedule).bind (fun S =>
        ((exportJob sampleEnv sampleAdmin 4).outcome (List.replicate 8 (.ok ⟨0, sampleTime⟩))
          S.shared []).map fun r => r.1.toOption) = some (some []) := by decide +kernel
  obtain ⟨S, hS, hexport⟩ := Option.bind_eq_some_iff.mp hsome
  obtain ⟨⟨o, s', p'⟩, houtcome, hbytes⟩ := Option.map_eq_some_iff.mp hexport
  cases o with
  | error e => cases hbytes
  | ok bytes =>
    have hends := ends_of_outcome houtcome
    obtain ⟨job, -, redacted, manifest, doc, spans, result, -, -, hreports⟩ :=
      manifest_reports_verdict sampleEnv World.empty sampleOperations
        (fun jobId h => by simp [sampleOperations] at h) S
        (Sys.run_of_replayWhere Guard.serial_of_serialStep hS) sampleAdmin 4 _ bytes s' p' hends
    exact ⟨S, _, bytes, s', p', job, redacted, doc, manifest, spans, result, hS, hends, hreports⟩

end

end RedactApi
