import RedactApi.Pipeline.AcceptedReview
import RedactApi.Pipeline.AcceptedUploads
import RedactApi.Pipeline.EditEvidence

/-!
# Only the gate fails a job

An upload is accepted after its pre-check, so its extraction returns in ingest and in
detection.  If the detectors answer as well, and operations run one at a time with calls that
do not fail and identifiers that are new, no job fails before it is applied: a job that has
failed was failed by the gate, or its approved spans cannot be burned into its original.

`FailsLate` is what a single commit shows of this: a job that is failed after it was already,
or was `applying`, and its review and its original have not changed.
-/

namespace RedactApi

open ReadCommitted KeyedList

/-! ### Jobs that fail late -/

def SameOriginal (job : RedactionJob) (s s' : Shared Database World) : Prop :=
  s'.world.objects (Keys.originalPdfKey job.documentId) =
    s.world.objects (Keys.originalPdfKey job.documentId)

/-- The job is failed now, and its document is as it was. -/
structure FailedSince (job job' : RedactionJob) (s s' : Shared Database World) : Prop where
  id : job'.id = job.id
  document : job'.documentId = job.documentId
  spans : SameSpans job.documentId s.db s'.db
  original : SameOriginal job s s'
  status : job.status = .applying ∨
    job.status = .failed ∧ s.db.entries job.id ⊆ s'.db.entries job.id

def FailsLate (s s' : Shared Database World) : Prop :=
  ∀ job' ∈ s'.db.jobs, job'.status = .failed → ∃ job ∈ s.db.jobs, FailedSince job job' s s'

theorem FailsLate.refl (s : Shared Database World) : FailsLate s s := fun job hj hfailed =>
  ⟨job, hj, rfl, rfl, SameSpans.refl _ _, rfl, Or.inr ⟨hfailed, List.Subset.refl _⟩⟩

/-- The originals of all jobs are stored, and what is stored has been accepted. -/
structure StoredOriginals (env : Env) (s : Shared Database World) : Prop where
  accepted : AcceptedOriginals env s.world
  present : ∀ job ∈ s.db.jobs, (s.world.objects (Keys.originalPdfKey job.documentId)).isSome

/-- The detectors return, with one list of hits for each page. -/
def DetectorsAnswer (env : Env) : Prop :=
  ∀ pages, ∃ lists, env.detectEntitiesBatch pages = .ok lists ∧ lists.length = pages.length

/-- A new identifier is no page's and no span's yet. -/
def NewRow (db : Database) (id : UUID) : Prop :=
  db.taken (.pagePk id) = false ∧ db.taken (.spanPk id) = false

/-- Nothing is committed, and the originals of all jobs stay. -/
def KeepsOriginals (s s' : Shared Database World) : Prop :=
  s'.db = s.db ∧ ∀ job ∈ s.db.jobs, SameOriginal job s s'

theorem KeepsOriginals.refl (s : Shared Database World) : KeepsOriginals s s := ⟨rfl, fun _ _ => rfl⟩

theorem KeepsOriginals.of_eq {s s' : Shared Database World} (h : s' = s) : KeepsOriginals s s' := by
  rw [h]
  exact .refl s

theorem KeepsOriginals.trans {a b c : Shared Database World} (h : KeepsOriginals a b)
    (h' : KeepsOriginals b c) : KeepsOriginals a c := by
  refine ⟨h'.1.trans h.1, fun job hj => ?_⟩
  have hb : job ∈ b.db.jobs := by
    rw [h.1]
    exact hj
  exact Eq.trans (h'.2 job hb) (h.2 job hj)

def calmContract (env : Env) : Contract Database Write World Input Exn :=
  { lifeContract env with
    inv := StoredOriginals env
    guar := FailsLate
    allowed := fun s _ => LifeInv env s
    input := fun s p i => LifeInv env s ∧ NewRow (view s.db p) i.uuid
    fault := fun _ => False
    past := KeepsOriginals
    guar_refl := FailsLate.refl
    past_refl := KeepsOriginals.refl
    past_trans := KeepsOriginals.trans
    rely_past := KeepsOriginals.of_eq }

section

variable {env : Env} {s s₁ : Shared Database World} {job new : RedactionJob} {p : List Write}

/-! ### The world -/

theorem calm_acts {w : World} (hi : StoredOriginals env s) (haccepted : AcceptedOriginals env w)
    (hsame : ∀ job ∈ s.db.jobs, SameOriginal job s { s with world := w }) :
    (calmContract env).Acts s w where
  inv := ⟨haccepted, fun job hj => hsame job hj ▸ hi.present job hj⟩
  guar job hj hfailed :=
    ⟨job, hj, rfl, rfl, SameSpans.refl _ _, hsame job hj, Or.inr ⟨hfailed, fun _ h => h⟩⟩
  past := ⟨rfl, hsame⟩

theorem calm_put {key : String} (data : Bytes) (hkey : ∀ d, Keys.originalPdfKey d ≠ key) :
    Tolerates (calmContract env) (·.put key data) := fun _ hi =>
  calm_acts hi (hi.accepted.put fun d he => absurd he (hkey d)) fun _ _ => put_objects_ne data (hkey _)

theorem calm_pages (documentId : UUID) : ToleratesPages (calmContract env) documentId :=
  fun _ data => ⟨calm_put data fun _ => (Keys.pageKey_ne_original _ _ _ _).symm,
    calm_put data fun _ => (Keys.pageKey_ne_original _ _ _ _).symm⟩

theorem calm_enqueue (message : Message) : Tolerates (calmContract env) (·.enqueue message) :=
  fun _ hi => calm_acts hi hi.accepted fun _ _ => rfl

theorem calm_act {f : World → World} {Q : Unit → Shared Database World → List Write → Prop}
    {E : Exn → Shared Database World → List Write → Prop}
    (hQ : StoredOriginals env s → LifeInv env s → Free s.db p →
      (calmContract env).Acts s (f s.world) ∧ Q () { s with world := f s.world } p) :
    (calmContract env).wp (act f) Q E s p := by
  refine Contract.wp_invoke_cases (fun _ _ he => he.elim) fun s' i hn hin => ?_
  obtain rfl : s' = s := hn.rely
  obtain ⟨hacts, hq⟩ := hQ hn.inv hin.1 hn.free
  exact ⟨hacts, fun _ _ => hq, fun _ he => by cases he⟩

/-! ### Commits -/

/-- **A commit that leaves all jobs alone, or all but one** that has not failed before it was
applied. -/
theorem calm_lands (hi : StoredOriginals env s)
    (hpresent : ∀ j ∈ (view s.db p).jobs, (s.world.objects (Keys.originalPdfKey j.documentId)).isSome)
    (hjobs : ∀ j ∈ (view s.db p).jobs, j.status = .failed →
      (j ∈ s.db.jobs ∧ SameReview j s.db (view s.db p)) ∨
        ∃ job ∈ s.db.jobs, FailedSince job j s { s with db := view s.db p }) :
    (calmContract env).Lands (fun _ _ _ => True) s p := by
  refine ⟨⟨hi.accepted, hpresent⟩, fun j hj hfailed => ?_, trivial⟩
  rcases hjobs j hj hfailed with ⟨hold, hsame⟩ | hmoved
  · exact ⟨j, hold, rfl, rfl, hsame.spans, rfl, Or.inr ⟨hfailed, fun e he => hsame.entries ▸ he⟩⟩
  · exact hmoved

/-- **A move of one job** that fails it only from `applying`. -/
theorem calm_lands_closing {es : List AuditEntry} (hi : StoredOriginals env s) (hlife : LifeInv env s)
    (hj : job ∈ s.db.jobs) (hsame : SameJob job new)
    (hes : ∀ e ∈ es, e.jobId = job.id ∧ e.spanId = none)
    (hfails : new.status = .failed → job.status = .applying) :
    (calmContract env).Lands (fun _ _ _ => True) s (closingWrites job new es) := by
  have hwf := hlife.reviewed.wf
  have hview := view_closingWrites s.db job new es
  have hmem : ∀ j, j ∈ (view s.db (closingWrites job new es)).jobs ↔
      j = new ∨ j ∈ s.db.jobs ∧ j.id ≠ job.id := by
    intro j
    rw [hview]
    exact hwf.mem_updateJob hj hsame.id hsame.document hsame.organization
  refine calm_lands hi (fun j hjm => ?_) fun j hjm hfailed => ?_
  · rcases (hmem j).mp hjm with rfl | ⟨hold, -⟩
    · rw [hsame.document]
      exact hi.present job hj
    · exact hi.present j hold
  · rcases (hmem j).mp hjm with rfl | ⟨hold, hne⟩
    · refine Or.inr ⟨job, hj, hsame.id, hsame.document, ?_, rfl, Or.inl (hfails hfailed)⟩
      rw [hview]
      exact ⟨rfl, fun _ _ => rfl⟩
    · exact Or.inl ⟨hold, others_closing hwf hj hsame hes hold hne⟩

theorem calm_lands_status {newStatus : JobStatus} (hi : StoredOriginals env s) (hlife : LifeInv env s)
    (hj : job ∈ s.db.jobs) (hfails : newStatus = .failed → job.status = .applying) :
    (calmContract env).Lands (fun _ _ _ => True) s [statusWrite job newStatus] :=
  @calm_lands_closing env s job { job with status := newStatus } [] hi hlife hj ⟨rfl, rfl, rfl⟩
    (fun _ h => absurd h List.not_mem_nil) hfails

theorem calm_lands_detect (hi : StoredOriginals env s) (hlife : LifeInv env s) (hj : job ∈ s.db.jobs)
    (hp : DetectedWrites ((calmContract env).past s₁) job.documentId p)
    (hpast : (calmContract env).past s₁ s) (hf : Free s.db (detectWrites job p)) :
    (calmContract env).Lands (fun _ _ _ => True) s (detectWrites job p) := by
  obtain ⟨hreviewed, hdetected⟩ := detected_of_writes hp hlife.reviewed hf.left.left
    (fun t ht => ht.1.trans hpast.1.symm) (hlife.reviewed.wf.job_fk job hj)
  have hmem := mem_jobs_detectWrites hreviewed.wf (hdetected.jobs ▸ hj)
  refine calm_lands hi (fun j hjm => ?_) fun j hjm hfailed => ?_
  · rcases (hmem j).mp hjm with rfl | ⟨hold, -⟩
    · exact hi.present job hj
    · exact hi.present j (hdetected.jobs ▸ hold)
  · rcases (hmem j).mp hjm with rfl | ⟨hold, hne⟩
    · cases hfailed
    · rw [hdetected.jobs] at hold
      exact Or.inl ⟨hold, others_detect hdetected hreviewed.wf hj hold hne⟩

theorem calm_lands_batch {reviewerId : UUID} (hi : StoredOriginals env s) (hlife : LifeInv env s)
    (hj : job ∈ s.db.jobs) (hst : job.status = .inReview)
    (hs : Relation.ReflTransGen (BatchStep env True job reviewerId) s.db (view s.db p)) :
    (calmContract env).Lands (fun _ _ _ => True) s p := by
  have hbatched := (batch_keeps hlife.reviewed ⟨job, hj, rfl, rfl⟩ hs).2
  refine calm_lands hi (fun j hjm => hi.present j (hbatched.jobs ▸ hjm)) fun j hjm hfailed => ?_
  rw [hbatched.jobs] at hjm
  have hne : j.id ≠ job.id := by
    intro he
    rw [List.inj_on_of_nodup_map hlife.reviewed.wf.job_pk hjm hj he, hst] at hfailed
    cases hfailed
  exact Or.inl ⟨hjm, others_batch hbatched hlife.reviewed.wf hj hjm hne⟩

/-! ### Detection returns -/

/-- A write that claims new keys only goes through. -/
theorem calm_send {w : Write} (hw : clash (view s.db p) w = false) :
    (calmContract env).wp (Prog.send w) (fun _ _ _ => True) (fun _ _ _ => False) s p := by
  intro s' hn
  obtain rfl : s' = s := hn.rely
  refine ⟨fun _ => trivial, fun hc => ?_, fun _ he => he⟩
  rw [hw] at hc
  cases hc

theorem calm_genRandomUuid {Q : UUID → Shared Database World → List Write → Prop}
    {E : Exn → Shared Database World → List Write → Prop}
    (hQ : ∀ id, NewRow (view s.db p) id → Q id s p) :
    (calmContract env).wp genRandomUuid Q E s p := by
  refine wp_observe_cases (fun _ _ he => he.elim) (fun s' i id hn hin hid => ?_)
    fun _ _ _ _ he => by cases he
  obtain rfl : s' = s := hn.rely
  cases hid
  exact hQ i.uuid hin.2

theorem calm_getOrCreatePage (documentId : UUID) (n : Nat) :
    (calmContract env).wp (getOrCreatePage documentId n) (fun _ _ _ => True) (fun _ _ _ => False)
      s p := by
  refine Contract.wp_bind (Contract.wp_query (fun _ _ he => he.elim) fun s' hn => ?_)
  obtain rfl : s' = s := hn.rely
  cases hpage : (view s'.db p).page? documentId n with
  | some page => trivial
  | none =>
    refine Contract.wp_bind (calm_genRandomUuid fun id hnew => Contract.wp_bind (calm_send ?_))
    have hnumber : (view s'.db p).taken (.pageNumber documentId n) = false :=
      List.any_eq_false.mpr fun page hp => List.find?_eq_none.mp hpage page hp
    refine clash_eq_false.mpr (List.forall_mem_cons.mpr ⟨hnew.1, ?_⟩)
    exact List.forall_mem_singleton.mpr hnumber

theorem calm_addCandidate (pageId : UUID) (candidate : CandidateSpan) :
    (calmContract env).wp (addCandidate pageId candidate) (fun _ _ _ => True) (fun _ _ _ => False)
      s p :=
  Contract.wp_bind (calm_genRandomUuid fun _ hnew =>
    calm_send (clash_eq_false.mpr (List.forall_mem_singleton.mpr hnew.2)))

theorem calm_detectOnPage (documentId : UUID) (totalSpans : Nat)
    (item : PageModel × List CandidateSpan) :
    (calmContract env).wp (detectOnPage env documentId totalSpans item) (fun _ _ _ => True)
      (fun _ _ _ => False) s p := by
  show (calmContract env).wp (if (detectPage env item.1 item.2).isEmpty then _ else _) _ _ s p
  split
  · trivial
  refine Contract.wp_bind (Contract.wp_mono (fun page s' p' _ => ?_) (fun _ _ _ h => h) _
    (calm_getOrCreatePage documentId item.1.pageNumber))
  refine Contract.wp_bind (Contract.wp_forM (I := fun _ _ => True) ?_ trivial)
  exact fun candidate _ _ _ _ => calm_addCandidate page.id candidate

/-- **Detection returns** if the detectors answer. -/
theorem calm_runDetection (hdetectors : DetectorsAnswer env) (documentId : UUID)
    (pages : List PageModel) :
    (calmContract env).wp (runDetection env documentId pages) (fun _ _ _ => True)
      (fun _ _ _ => False) s p := by
  obtain ⟨lists, hlists, hlength⟩ := hdetectors pages
  refine Contract.wp_bind (wp_observe_cases (fun _ _ he => he.elim) (fun s' _ lists' _ _ hok => ?_)
    fun _ _ e _ he => ?_)
  · rw [hlists] at hok
    obtain rfl := Except.ok.inj hok
    refine Contract.wp_bind ?_
    rw [zipStrict, if_pos hlength.symm]
    exact Contract.wp_foldlM (I := fun _ _ _ => True)
      (fun item _ n _ _ _ => calm_detectOnPage documentId n item) trivial
  · rw [hlists] at he
    cases he

/-! ### The operations -/

/-- The stored original of a job is there, and can be extracted. -/
theorem StoredOriginals.extracts (hi : StoredOriginals env s) (hj : job ∈ s.db.jobs) :
    ∃ pdfBytes extractions, s.world.objects (Keys.originalPdfKey job.documentId) = some pdfBytes ∧
      extractStored env (some pdfBytes) = .ok extractions ∧
      extractPages env pdfBytes = .ok extractions := by
  obtain ⟨pdfBytes, hobject⟩ := Option.isSome_iff_exists.mp (hi.present job hj)
  obtain ⟨extractions, hextract⟩ := (hi.accepted job.documentId pdfBytes hobject).extracts
  exact ⟨pdfBytes, extractions, hobject, hextract⟩

theorem calm_ingestJob (jobId : UUID) : (calmContract env).Safe (ingestJob env jobId) s [] := by
  refine Contract.wp_bind (Contract.wp_mono (fun ingested s' p' _ => ?_) (fun _ _ _ h => h) _
    (safe_closing (wp_guardedTask (fun _ _ he => he.elim) (fun _ _ _ => trivial)
      fun s₁ job hn hjob hst => ?_)))
  · cases ingested
    · trivial
    · exact wp_act_tolerated (calm_enqueue _) (anything_escapes s').fault fun _ _ => trivial
  refine Contract.wp_bind (wp_ingestWork (calm_pages _) hst (fun _ _ _ he => he.elim)
    (fun e s₂ s₃ h₂ he _ => ?_) fun _ s₂ s₃ h₂ _ h₃ hal => ?_)
  · -- the original was accepted, so the extraction returns
    have hj : job ∈ s₂.db.jobs := h₂.past.1 ▸ job?_mem hjob
    obtain ⟨pdfBytes, extractions, hobject, hextract, -⟩ := h₂.inv.extracts hj
    rw [hobject, hextract] at he
    cases he
  · have hj : job ∈ s₃.db.jobs := h₃.past.1 ▸ h₂.past.1 ▸ job?_mem hjob
    have hlands : (calmContract env).Lands (fun _ _ _ => True) s₃ [statusWrite job .ingested] :=
      calm_lands_status h₃.inv hal hj fun h => by cases h
    exact ⟨hlands.1, hlands.2.1, trivial⟩

theorem calm_detectWork (hdetectors : DetectorsAnswer env) (hi : StoredOriginals env s)
    (hj : job ∈ s.db.jobs) (hst : job.status = .ingested)
    {E : Exn → Shared Database World → List Write → Prop} :
    (calmContract env).wp (detectWork env job) (fun _ _ _ => True) E s [] := by
  obtain ⟨pdfBytes, extractions, hobject, -, hextract⟩ := hi.extracts hj
  refine Contract.wp_bind (wp_observe_cases (fun _ _ he => he.elim) (fun s₁ _ data hn₁ _ hdata => ?_)
    fun s₁ _ e hn₁ he => ?_)
  rotate_left
  · obtain rfl : s₁ = s := hn₁.rely
    rw [hobject] at he
    cases he
  obtain rfl : s₁ = s := hn₁.rely
  have hdata := downloaded hdata
  rw [hobject] at hdata
  obtain rfl := Option.some.inj hdata
  refine Contract.wp_bind (wp_observe_cases (fun _ _ he => he.elim) (fun s₂ _ pages hn₂ _ hok => ?_)
    fun s₂ _ e hn₂ he => ?_)
  rotate_left
  · rw [hextract] at he
    cases he
  obtain rfl : s₂ = s₁ := hn₂.rely
  rw [hextract] at hok
  obtain rfl := Except.ok.inj hok
  have hnumbers : ∀ page ∈ extractions.map (·.page), 1 ≤ page.pageNumber := by
    intro page hpage
    obtain ⟨extraction, he, rfl⟩ := List.mem_map.mp hpage
    exact extractPages_pageNumber hextract extraction he
  have hwrites : (calmContract env).wp (runDetection env job.documentId (extractions.map (·.page)))
      (fun _ s' p => (calmContract env).After s₂ s' ∧
        DetectedWrites ((calmContract env).past s₂) job.documentId p)
      (fun _ s' _ => (calmContract env).After s₂ s') s₂ [] :=
    wp_runDetection (Contract.escapes_after s₂) hnumbers fun _ _ _ h hp _ => ⟨h, hp⟩
  refine Contract.wp_bind (Contract.wp_mono (fun n s₃ p h => ?_) (fun _ _ _ h => h.2.elim) _
    (Contract.wp_and _ hwrites (calm_runDetection hdetectors job.documentId _)))
  obtain ⟨⟨h₃, hp⟩, -⟩ := h
  refine Contract.wp_bind (wp_transition_edge (by simp [track, hst, validTransitions]) (by decide)
    (fun _ _ he => he.elim) fun s₄ hn₄ => ?_)
  refine Contract.wp_bind (wp_transition_edge (by simp [track, validTransitions]) (by decide)
    (fun _ _ he => he.elim) fun s₅ hn₅ => ?_)
  refine Contract.wp_commit (fun _ _ he => he.elim) fun s₆ hn₆ hal => ?_
  have h₆ := ((h₃.trans hn₄.after).trans hn₅.after).trans hn₆.after
  exact calm_lands_detect h₆.inv hal (h₆.past.1 ▸ hj) hp h₆.past hn₆.free

theorem calm_detectJob (hdetectors : DetectorsAnswer env) (jobId : UUID) :
    (calmContract env).Safe (detectJob env jobId) s [] := by
  refine safe_closing (wp_guardedTask (fun _ _ he => he.elim) (fun _ _ _ => trivial)
    fun s₁ job hn hjob hst => ?_)
  exact calm_detectWork hdetectors hn.inv (job?_mem hjob) hst

theorem calm_applyJob (jobId : UUID) (reviewerId : Option UUID) :
    (calmContract env).Safe (applyJob env jobId reviewerId) s [] := by
  have hsame : ∀ {s₀ s₁ : Shared Database World} {job : RedactionJob},
      (calmContract env).past s₀ s₁ → s₀.db.job? jobId = some job → job ∈ s₁.db.jobs :=
    fun hpast hjob => hpast.1 ▸ job?_mem hjob
  refine safe_applyJob ?_ ?_ ?_ ?_ ?_
  · intro s₀ s₁ s₂ job₀ job _ hjob₀ hst h₁ hjob _ h₂ hal
    rw [h₁.past.1, hjob₀] at hjob
    obtain rfl := Option.some.inj hjob
    have hj : job₀ ∈ s₂.db.jobs := h₂.past.1 ▸ h₁.past.1 ▸ job?_mem hjob₀
    exact calm_lands_status h₂.inv hal hj fun _ => hst
  · exact fun _ _ _ _ _ _ _ _ _ _ h => calm_acts h.inv h.inv.accepted fun _ _ => rfl
  · exact fun _ _ _ data _ _ _ h =>
      calm_put data (fun _ => Keys.originalPdfKey_ne_redacted _ _) _ h.inv
  · intro s₁ s₂ job b started failed _ hjob hst h _ hstarted hfailed _ hal
    exact @calm_lands_closing env s₂ job { job with status := .failed } [started, failed] h.inv hal
      (hsame (b.since h).past hjob) ⟨rfl, rfl, rfl⟩ (lifecycle_pair hstarted hfailed) fun _ => hst
  · intro s₁ _ s₂ job b started passed _ hjob hst h _ _ hstarted hpassed _ hal
    exact @calm_lands_closing env s₂ job (verifiedJob job) [started, passed] h.inv hal
      (hsame (b.since h).past hjob) ⟨rfl, rfl, rfl⟩ (lifecycle_pair hstarted hpassed) fun h => by cases h

/-- **An upload** stores the original before it commits the job. -/
theorem calm_createJob (tenant : TenantContext) (file : Upload) (hi : StoredOriginals env s) :
    (calmContract env).Safe (createJob env tenant file) s [] := by
  refine safe_closing ?_
  refine Contract.wp_bind (wp_liftExcept hi (anything_escapes s) fun ⟨filename, pdfBytes⟩ hupl => ?_)
  refine Contract.wp_bind (wp_compute (anything_escapes s) fun s₁ _ hn₁ hprecheck => ?_)
  refine Contract.wp_bind (wp_genRandomUuid (anything_escapes s₁) fun s₂ i hn₂ _ => ?_)
  refine Contract.wp_bind (Contract.wp_send (anything_escapes s₂) fun s₃ hn₃ _ => ?_)
  refine Contract.wp_bind (Contract.wp_send (anything_escapes s₃) fun s₄ hn₄ _ => ?_)
  refine Contract.wp_bind (wp_genRandomUuid (anything_escapes s₄) fun s₅ j hn₅ _ => ?_)
  refine Contract.wp_bind (Contract.wp_send (anything_escapes s₅) fun s₆ hn₆ _ => ?_)
  let document : Document :=
    ⟨i.uuid, filename, pdfContentType, pdfBytes.length, tenant.organizationId, "", ""⟩
  let job : RedactionJob := ⟨j.uuid, i.uuid, tenant.organizationId, .uploaded, none⟩
  have haccepted : Accepted env pdfBytes := ⟨checkUpload_ok hupl, hprecheck⟩
  refine Contract.wp_bind (calm_act fun hi₆ hlife hfree => ?_)
  have hacts : (calmContract env).Acts s₆ (s₆.world.put (Keys.originalPdfKey document.id) pdfBytes) := by
    refine calm_acts hi₆ (hi₆.accepted.put fun _ _ => haccepted) fun j hj => ?_
    obtain ⟨d, hd, hid⟩ := hlife.reviewed.wf.job_fk j hj
    refine put_objects_ne pdfBytes fun hkey => ?_
    exact document_fresh hfree.head d hd (hid.trans (Keys.originalPdfKey_inj hkey))
  refine ⟨hacts, ?_⟩
  refine Contract.wp_bind (Contract.wp_commit (fun _ _ he => he.elim) fun s₈ hn₈ hal => ?_)
  obtain rfl := hn₈.rely
  have hjobs : ∀ j, j ∈ (view s₆.db (createWrites document job)).jobs → j ∈ s₆.db.jobs ∨ j = job :=
    fun j hj => (List.mem_append.mp hj).imp_right List.mem_singleton.mp
  obtain ⟨hi₈, hg₈, -⟩ : (calmContract env).Lands (fun _ _ _ => True)
      { s₆ with world := s₆.world.put (Keys.originalPdfKey document.id) pdfBytes }
      (createWrites document job) := by
    refine calm_lands hn₈.inv (fun j hj => ?_) fun j hj hfailed => ?_
    · rcases hjobs j hj with hold | rfl
      · exact hn₈.inv.present j hold
      · show ((s₆.world.put (Keys.originalPdfKey document.id) pdfBytes).objects
          (Keys.originalPdfKey document.id)).isSome
        rw [put_objects_self]
        rfl
    · rcases hjobs j hj with hold | rfl
      · exact Or.inl ⟨hold, same_create hold⟩
      · cases hfailed
  refine ⟨hi₈, hg₈, ?_⟩
  refine Contract.wp_bind (Contract.wp_query (fun _ _ _ _ => trivial) fun s₉ _ => ?_)
  exact Contract.wp_bind (wp_act_tolerated (calm_enqueue _) (anything_escapes s₉).fault
    fun _ _ => trivial)

theorem calm_safe (hdetectors : DetectorsAnswer env) {operation : Operation}
    (hfail : ∀ jobId, operation ≠ .failJob jobId) (hi : StoredOriginals env s) :
    (calmContract env).Safe (operation.run env) s [] := by
  cases operation with
  | deliver message =>
    cases message with
    | ingestJob jobId => exact calm_ingestJob jobId
    | detectJob jobId => exact calm_detectJob hdetectors jobId
    | applyJob jobId reviewerId => exact calm_applyJob jobId reviewerId
  | failJob jobId => exact absurd rfl (hfail jobId)
  | createJob tenant file => exact Contract.wp_bind (calm_createJob tenant file hi)
  | createDispositions tenant jobId payload =>
    refine Contract.wp_bind (safe_createDispositions fun s₁ s₂ job p _ hjob hst h₂ hp hf hal => ?_)
    have hj : job ∈ s₂.db.jobs := h₂.past.1 ▸ hjob.mem
    have hseen : ∀ t, (calmContract env).Between s₁ s₂ t → t.db = s₂.db := fun t ht => ht.2.1.symm
    exact calm_lands_batch h₂.inv hal hj hst (batchSteps_of_writes hp hal.reviewed
      ⟨job, hj, rfl, rfl⟩ hf (fun t ht => hseen t ht ▸ Extends.refl _) (Or.inl hseen))
  | postApply tenant jobId =>
    refine Contract.wp_bind (safe_postApply (fun _ => calm_enqueue _) ?_ hi)
    intro s₁ s₂ s₃ job _ hjob _ h₂ _ h₃ hal
    have hj : job ∈ s₃.db.jobs := h₃.past.1 ▸ h₂.past.1 ▸ hjob.mem
    exact calm_lands_status h₃.inv hal hj fun h => by cases h
  | exportJob tenant jobId =>
    refine Contract.wp_bind (safe_exportJob
      (fun data => calm_put data fun _ => (Keys.exportManifestKey_ne_original _ _).symm) ?_ hi)
    intro s₁ s₂ job exported _ hjob _ h₂ hexported _ hal
    have hj : job ∈ s₂.db.jobs := h₂.past.1 ▸ hjob.mem
    refine @calm_lands_closing env s₂ job { job with status := .exported } [exported] h₂.inv hal hj
      ⟨rfl, rfl, rfl⟩ (fun e he => ?_) fun h => by cases h
    rw [List.mem_singleton.mp he]
    exact ⟨hexported.job, hexported.span⟩

end

/-! ### Runs -/

/-- One execution at a time; no call fails, and an identifier that is drawn is no audit
entry's, no page's and no span's yet. -/
def calm : Guard Database Write World Input Exn Unit := fun S i l =>
  undisturbed S i l ∧ ∀ a t, l = .ok a → S.threads[i]? = some t →
    NewRow (view S.shared.db t.pending) a.uuid

def calmStep (S : Pipeline) (i : Nat) (l : Label Input Exn) : Bool :=
  undisturbedStep S i l && match l, S.threads[i]? with
    | .ok a, some t => !(view S.shared.db t.pending).taken (.pagePk a.uuid) &&
      !(view S.shared.db t.pending).taken (.spanPk a.uuid)
    | _, _ => true

theorem calm_of_step (S : Pipeline) (i : Nat) (l : Label Input Exn) (h : calmStep S i l = true) :
    calm S i l := by
  obtain ⟨hundisturbed, hrest⟩ := Bool.and_eq_true_iff.mp h
  refine ⟨undisturbed_of_step S i l hundisturbed, fun a t ha ht => ?_⟩
  subst ha
  rw [ht] at hrest
  simpa [NewRow] using hrest

/-- A job that has failed was failed by the gate, or cannot be burned. -/
def Accounted (env : Env) (s : Shared Database World) : Prop :=
  ∀ job ∈ s.db.jobs, job.status = .failed →
    (∃ e ∈ s.db.entries job.id, e.action = .verifyFailed) ∨ ¬ Burnable env s job

/-- **One step**: a job that was burnable is kept on its track, and the others stay as they
are. -/
theorem Accounted.step {env : Env} {s s' : Shared Database World} (h : Accounted env s)
    (hwf : WellFormed s.db) (hwf' : WellFormed s'.db) (hlate : FailsLate s s')
    (hkeeps : KeepsTrack env s s') : Accounted env s' := by
  intro job' hj' hfailed
  obtain ⟨job, hj, hsince⟩ := hlate job' hj' hfailed
  by_cases hburn : Burnable env s job
  · refine Or.inl ?_
    rcases hsince.status with hst | ⟨hst, hentries⟩
    · obtain ⟨job'', hj'', hid, htrack⟩ := hkeeps job.id ⟨job, hj, rfl, Or.inl ⟨hst, hburn⟩⟩
      obtain rfl := List.inj_on_of_nodup_map hwf'.job_pk hj'' hj' (hid.trans hsince.id.symm)
      rcases htrack with ⟨happlying, -⟩ | hpassed | ⟨-, hentry⟩
      · rw [hfailed] at happlying
        cases happlying
      · rw [hfailed] at hpassed
        exact absurd hpassed (by decide)
      · exact hentry
    · rcases h job hj hst with ⟨e, he, haction⟩ | hnot
      · rw [hsince.id]
        exact ⟨e, hentries he, haction⟩
      · exact absurd hburn hnot
  · refine Or.inr ?_
    rintro ⟨original, spans, result, horig, happroved, happly⟩
    rw [hsince.document] at horig happroved
    rw [hsince.spans.approvedSpans hwf hwf'] at happroved
    exact hburn ⟨original, spans, result, hsince.original ▸ horig, happroved, happly⟩

/-- **Only the gate fails a job.**  Operations run one at a time, from empty tables; no call
fails, the detectors answer, and identifiers are new; processes may die at any point.  Then no
job fails in ingest or in detection: a job that has failed was failed by the gate, with an
entry that says so, or the burn-in of its approved spans into its original raises. -/
theorem only_the_gate_fails (env : Env) (hdetectors : DetectorsAnswer env)
    (operations : List Operation) (hfail : ∀ jobId, .failJob jobId ∉ operations)
    (hreviewer : ∀ jobId, .deliver (.applyJob jobId none) ∉ operations) (S : Pipeline)
    (hr : Sys.Run calm (Pipeline.start env ⟨Database.empty, World.empty⟩ operations) S)
    (job : RedactionJob) (hj : job ∈ S.shared.db.jobs) (hfailed : job.status = .failed) :
    (∃ e ∈ S.shared.db.entries job.id, e.action = .verifyFailed) ∨ ¬ Burnable env S.shared job := by
  have hundisturbed : ∀ T i l, calm T i l → undisturbed T i l := fun _ _ _ h => h.1
  have htrack : ∀ T, Sys.Run calm (Pipeline.start env ⟨Database.empty, World.empty⟩ operations) T →
      (applyContract env).GoodSerial T := fun T hT => apply_of_run hfail hreviewer (hT.mono hundisturbed)
  have hknown := hr.knowing (K := fun T => LifeInv env T.shared) fun T hT => (htrack T hT).inv.toLifeInv
  have hfits : (calmContract env).Fits (α := Unit) fun T i l => calm T i l ∧ LifeInv env T.shared :=
    ⟨fun h => h.1.1.2.1 _ rfl, fun h ht => ⟨h.2, h.1.2 _ _ rfl ht⟩, fun h _ _ => h.2⟩
  have hserial : ∀ (T : Pipeline) i l, calm T i l ∧ LifeInv env T.shared → Guard.serial T i l :=
    fun _ _ _ h => h.1.1.1
  have hstart : (calmContract env).GoodSerial
      (Pipeline.start env ⟨Database.empty, World.empty⟩ operations) := by
    refine Contract.goodSerial_start ⟨acceptedOriginals_empty env, fun _ h => by cases h⟩
      fun q hq s hi => ?_
    obtain ⟨operation, hop, rfl⟩ := List.mem_map.mp hq
    exact calm_safe hdetectors (fun jobId he => hfail jobId (he ▸ hop)) hi
  refine (show Accounted env S.shared from ?_) job hj hfailed
  clear hj hfailed
  induction hknown with
  | refl => exact fun _ h => by cases h
  | tail hrest hs ih =>
    have hrun : Sys.Run calm _ _ := Sys.Run.mono (fun _ _ _ h => h.1) hrest
    have hbefore := htrack _ hrun
    obtain ⟨i, l, hg, hst⟩ := hs
    obtain ⟨hafter, hkeeps⟩ := hbefore.step (fits_apply env) (fun _ _ _ h => h.1) ⟨i, l, hg.1.1, hst⟩
    have hcalm := Contract.sound_serial hfits hserial hstart hrest
    obtain ⟨-, hlate⟩ := hcalm.step hfits hserial ⟨i, l, hg, hst⟩
    exact (ih hrun).step hbefore.inv.reviewed.wf hafter.inv.reviewed.wf
      hlate hkeeps

/-! ### A gate that refuses -/

section

/-- Libraries that still read the name from the pages that were rebuilt. -/
def rereadingEnv : Env :=
  { detectingEnv with imageToString := fun _ => .ok "x", partialRatio := fun _ _ => 100 }

def rereadOperations : List Operation :=
  detectedOperations ++ [.postApply sampleAdmin 4, .deliver (.applyJob 4 (some 3))]

def rereadPipeline : Option Pipeline :=
  (Pipeline.start rereadingEnv ⟨Database.empty, World.empty⟩ rereadOperations).replayWhere calmStep
    (numbered (untilApproved ++ List.replicate 7 4 ++ List.replicate 18 5))

theorem detectorsAnswer_rereading : DetectorsAnswer rereadingEnv :=
  fun _ => ⟨_, rfl, List.length_map _⟩

end

theorem only_the_gate_fails_reread :
    ∃ (S : Pipeline) (job : RedactionJob), rereadPipeline = some S ∧ job ∈ S.shared.db.jobs ∧
      job.status = .failed ∧ ((∃ e ∈ S.shared.db.entries job.id, e.action = .verifyFailed) ∨
        ¬ Burnable rereadingEnv S.shared job) := by
  have hsome : rereadPipeline.map (fun S => S.shared.db.jobs.map (·.status)) = some [.failed] := by
    decide +kernel
  obtain ⟨S, hS, hstatus⟩ := Option.map_eq_some_iff.mp hsome
  obtain ⟨job, hj, hfailed⟩ := List.mem_map.mp (hstatus ▸ List.mem_singleton_self JobStatus.failed)
  refine ⟨S, job, hS, hj, hfailed, ?_⟩
  exact only_the_gate_fails rereadingEnv detectorsAnswer_rereading rereadOperations
    (fun _ h => by simp [rereadOperations, detectedOperations] at h)
    (fun _ h => by simp [rereadOperations, detectedOperations] at h) S
    (Sys.run_of_replayWhere calm_of_step hS) job hj hfailed

end RedactApi
