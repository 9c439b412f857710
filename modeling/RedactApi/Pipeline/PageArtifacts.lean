import RedactApi.Ingest.Artifacts
import RedactApi.Pipeline.Lifecycle
import RedactApi.Pipeline.Queue

/-!
# The artifacts of the pages

A page of a stored original has one raster and one text layer, and whoever uploads either
uploads the same bytes.  So a second delivery of an ingest does no harm to the artifacts of the
first, however the two overlap, and a job that has once been ingested has all artifacts of all
its pages for good.

`KeepsPages` is what every thread may do and may rely on: originals of documents that exist are
not replaced, and a page object that is as it has to be stays so.
-/

namespace RedactApi

open ReadCommitted

/-! ### What has to be stored -/

/-- What the stored original of a document is extracted to. -/
def Extracts (env : Env) (w : World) (documentId : UUID) (extractions : List PageExtraction) :
    Prop :=
  ∃ original, w.objects (Keys.originalPdfKey documentId) = some original ∧
    extractPages env original = .ok extractions

structure HasPage (env : Env) (w : World) (documentId : UUID) (e : PageExtraction) : Prop where
  raster : w.objects (Keys.pageRasterKey documentId e.page.pageNumber) = some e.pngBytes
  textLayer : w.objects (Keys.pageTextLayerKey documentId e.page.pageNumber) =
    some (env.textLayerPayload e.page)

/-- The original can be extracted, and all artifacts of all its pages are there. -/
def Prepared (env : Env) (w : World) (documentId : UUID) : Prop :=
  ∃ extractions, Extracts env w documentId extractions ∧
    ∀ e ∈ extractions, HasPage env w documentId e

/-- What the object under a key has to be: an artifact of a page of the stored original. -/
def PageObject (env : Env) (w : World) (documentId : UUID) (key : String) (data : Bytes) : Prop :=
  ∃ extractions e, Extracts env w documentId extractions ∧ e ∈ extractions ∧
    (key = Keys.pageRasterKey documentId e.page.pageNumber ∧ data = e.pngBytes ∨
      key = Keys.pageTextLayerKey documentId e.page.pageNumber ∧
        data = env.textLayerPayload e.page)

section

variable {env : Env} {w w' : World} {documentId documentId' : UUID} {key : String}
  {data data' : Bytes} {extractions extractions' : List PageExtraction}

theorem Extracts.unique (h : Extracts env w documentId extractions)
    (h' : Extracts env w documentId extractions') : extractions = extractions' := by
  obtain ⟨original, horiginal, hextract⟩ := h
  obtain ⟨original', horiginal', hextract'⟩ := h'
  obtain rfl : original = original' := Option.some.inj (horiginal.symm.trans horiginal')
  exact Except.ok.inj (hextract.symm.trans hextract')

theorem Extracts.of_original (h : Extracts env w documentId extractions)
    (ho : w'.objects (Keys.originalPdfKey documentId) = w.objects (Keys.originalPdfKey documentId)) :
    Extracts env w' documentId extractions := by
  obtain ⟨original, horiginal, hextract⟩ := h
  exact ⟨original, ho.trans horiginal, hextract⟩

/-- The number of a page tells it from the others. -/
theorem Extracts.page_eq (h : Extracts env w documentId extractions) {e e' : PageExtraction}
    (he : e ∈ extractions) (he' : e' ∈ extractions)
    (hnumber : e.page.pageNumber = e'.page.pageNumber) : e = e' := by
  obtain ⟨original, -, hextract⟩ := h
  obtain ⟨doc, -, -, hnumbers⟩ := extractPages_numbers hextract
  have hnodup : (extractions.map fun e => e.page.pageNumber).Nodup := by
    rw [hnumbers]
    exact List.nodup_range'
  exact List.inj_on_of_nodup_map hnodup he he' hnumber

theorem Extracts.raster (h : Extracts env w documentId extractions) {e : PageExtraction}
    (he : e ∈ extractions) :
    PageObject env w documentId (Keys.pageRasterKey documentId e.page.pageNumber) e.pngBytes :=
  ⟨extractions, e, h, he, Or.inl ⟨rfl, rfl⟩⟩

theorem Extracts.textLayer (h : Extracts env w documentId extractions) {e : PageExtraction}
    (he : e ∈ extractions) :
    PageObject env w documentId (Keys.pageTextLayerKey documentId e.page.pageNumber)
      (env.textLayerPayload e.page) :=
  ⟨extractions, e, h, he, Or.inr ⟨rfl, rfl⟩⟩

/-- **One key, one object**, whichever document it is of. -/
theorem PageObject.unique (h : PageObject env w documentId key data)
    (h' : PageObject env w documentId' key data') : data = data' := by
  obtain ⟨extractions, e, hextract, he, hkey⟩ := h
  obtain ⟨extractions', e', hextract', he', hkey'⟩ := h'
  -- one document and one page number mean one page
  have hsame : documentId = documentId' → e.page.pageNumber = e'.page.pageNumber → e = e' := by
    rintro rfl hnumber
    exact hextract.page_eq he (hextract'.unique hextract ▸ he') hnumber
  rcases hkey with ⟨rfl, rfl⟩ | ⟨rfl, rfl⟩ <;> rcases hkey' with ⟨hk, rfl⟩ | ⟨hk, rfl⟩
  · obtain ⟨hd, hn⟩ := Keys.pageRasterKey_inj hk
    rw [hsame hd hn]
  · exact absurd hk (Keys.pageRasterKey_ne_textLayer _ _ _ _)
  · exact absurd hk.symm (Keys.pageRasterKey_ne_textLayer _ _ _ _)
  · obtain ⟨hd, hn⟩ := Keys.pageTextLayerKey_inj hk
    rw [hsame hd hn]

theorem PageObject.of_original (h : PageObject env w documentId key data)
    (ho : w'.objects (Keys.originalPdfKey documentId) = w.objects (Keys.originalPdfKey documentId)) :
    PageObject env w' documentId key data := by
  obtain ⟨extractions, e, hextract, hrest⟩ := h
  exact ⟨extractions, e, hextract.of_original ho, hrest⟩

theorem PageObject.artifact (h : PageObject env w documentId key data) :
    ∃ n, key = Keys.Artifact.key (.pageRaster documentId n) ∨
      key = Keys.Artifact.key (.pageTextLayer documentId n) := by
  obtain ⟨_, e, -, -, ⟨hkey, -⟩ | ⟨hkey, -⟩⟩ := h
  · exact ⟨e.page.pageNumber, Or.inl hkey⟩
  · exact ⟨e.page.pageNumber, Or.inr hkey⟩

end

/-! ### What every thread keeps -/

def Database.hasDocument (db : Database) (documentId : UUID) : Prop :=
  ∃ document ∈ db.documents, document.id = documentId

/-- Rows stay, documents keep their originals, and pages their artifacts. -/
structure KeepsPages (env : Env) (s s' : Shared Database World) : Prop where
  tables : Extends s.db s'.db
  originals : ∀ documentId, s.db.hasDocument documentId →
    s'.world.objects (Keys.originalPdfKey documentId) =
      s.world.objects (Keys.originalPdfKey documentId)
  pages : ∀ documentId key data, s.db.hasDocument documentId →
    PageObject env s.world documentId key data → s.world.objects key = some data →
    s'.world.objects key = some data

/-- The states in which a job has not been ingested, or need not have been. -/
def unpreparedStates : List JobStatus := [.uploaded, .failed]

structure PagesInv (env : Env) (s : Shared Database World) : Prop where
  job_pk : (s.db.jobs.map (·.id)).Nodup
  documents : ∀ job ∈ s.db.jobs, s.db.hasDocument job.documentId
  prepared : ∀ job ∈ s.db.jobs, job.status ∉ unpreparedStates →
    Prepared env s.world job.documentId

section

variable {env : Env} {s s' s'' s₁ : Shared Database World} {documentId : UUID} {key : String}
  {data : Bytes}

theorem KeepsPages.hasDocument (h : KeepsPages env s s') (hd : s.db.hasDocument documentId) :
    s'.db.hasDocument documentId := by
  obtain ⟨document, hdocument, rfl⟩ := hd
  exact h.tables.documents document hdocument

theorem KeepsPages.refl (env : Env) (s : Shared Database World) : KeepsPages env s s where
  tables := .refl s.db
  originals _ _ := rfl
  pages _ _ _ _ _ h := h

theorem KeepsPages.trans (h : KeepsPages env s s') (h' : KeepsPages env s' s'') :
    KeepsPages env s s'' where
  tables := h.tables.trans h'.tables
  originals d hd := (h'.originals d (h.hasDocument hd)).trans (h.originals d hd)
  pages d key data hd hobject hstored :=
    h'.pages d key data (h.hasDocument hd) (hobject.of_original (h.originals d hd))
      (h.pages d key data hd hobject hstored)

theorem HasPage.keep {extractions : List PageExtraction} {e : PageExtraction}
    (h : HasPage env s.world documentId e) (hextract : Extracts env s.world documentId extractions)
    (he : e ∈ extractions) (hd : s.db.hasDocument documentId) (hk : KeepsPages env s s') :
    HasPage env s'.world documentId e where
  raster := hk.pages _ _ _ hd (hextract.raster he) h.raster
  textLayer := hk.pages _ _ _ hd (hextract.textLayer he) h.textLayer

theorem Prepared.keep (hp : Prepared env s.world documentId) (h : KeepsPages env s s')
    (hd : s.db.hasDocument documentId) : Prepared env s'.world documentId := by
  obtain ⟨extractions, hextract, hstored⟩ := hp
  exact ⟨extractions, hextract.of_original (h.originals _ hd),
    fun e he => (hstored e he).keep hextract he hd h⟩

def pagesContract (env : Env) : Contract Database Write World Input Exn where
  inv := PagesInv env
  rely := KeepsPages env
  guar := KeepsPages env
  allowed _ _ := True
  input _ _ _ := True
  fault _ := True
  past := KeepsPages env
  rely_refl := KeepsPages.refl env
  rely_trans := KeepsPages.trans
  guar_refl := KeepsPages.refl env
  past_refl := KeepsPages.refl env
  past_trans := KeepsPages.trans
  rely_past h := h

/-! ### The object store -/

theorem pages_acts {w : World} (hi : PagesInv env s) (h : KeepsPages env s { s with world := w }) :
    (pagesContract env).Acts s w where
  inv := { hi with
    prepared := fun job hj hst => (hi.prepared job hj hst).keep h (hi.documents job hj) }
  guar := h
  past := h

/-- **An upload keeps the pages** if it replaces no original, and no page object by another. -/
theorem keepsPages_put (ho : ∀ d, s.db.hasDocument d → Keys.originalPdfKey d ≠ key)
    (hp : ∀ d data', PageObject env s.world d key data' → data' = data) :
    KeepsPages env s { s with world := s.world.put key data } where
  tables := .refl s.db
  originals d hd := put_objects_ne data (ho d hd)
  pages d key' data' _ hobject hstored := by
    show (s.world.put key data).objects key' = some data'
    by_cases hkey : key' = key
    · subst hkey
      rw [put_objects_self, hp d data' hobject]
    · rw [put_objects_ne data hkey]
      exact hstored

/-- The upload of an artifact of a page, by whoever. -/
theorem pages_acts_page (hi : PagesInv env s) (h : PageObject env s.world documentId key data) :
    (pagesContract env).Acts s (s.world.put key data) := by
  refine pages_acts hi (keepsPages_put (fun d _ hkey => ?_) fun d data' h' => h'.unique h)
  obtain ⟨n, he | he⟩ := h.artifact
  · exact Keys.pageKey_ne_original _ d n _ (he.symm.trans hkey.symm)
  · exact Keys.pageKey_ne_original _ d n _ (he.symm.trans hkey.symm)

theorem pages_acts_other (artifact : Keys.Artifact) (hi : PagesInv env s)
    (ho : ∀ d, s.db.hasDocument d → artifact ≠ .original d)
    (hp : ∀ d n, artifact ≠ .pageRaster d n ∧ artifact ≠ .pageTextLayer d n) :
    (pagesContract env).Acts s (s.world.put artifact.key data) := by
  refine pages_acts hi (keepsPages_put (fun d hd hkey => ?_) fun d data' h' => ?_)
  · exact ho d hd (Keys.Artifact.key_injective (hkey.symm.trans rfl))
  · obtain ⟨n, he | he⟩ := h'.artifact
    · exact absurd (Keys.Artifact.key_injective he) (hp d n).1
    · exact absurd (Keys.Artifact.key_injective he) (hp d n).2

theorem pages_acts_same {w : World} (hi : PagesInv env s) (h : w.objects = s.world.objects) :
    (pagesContract env).Acts s w := by
  refine pages_acts hi ⟨.refl s.db, fun _ _ => ?_, ?_⟩
  · show w.objects _ = _
    rw [h]
  · intro _ key' data' _ _ hstored
    show w.objects key' = some data'
    rw [h]
    exact hstored

/-! ### The tables -/

theorem keepsPages_view (env : Env) (s : Shared Database World) (p : List Write) :
    KeepsPages env s { s with db := view s.db p } where
  tables := extends_view s.db p
  originals _ _ := rfl
  pages _ _ _ _ _ h := h

theorem jobIds_view (db : Database) (p : List Write) :
    (view db p).jobs.map (·.id) = db.jobs.map (·.id) ++ (created p).map (·.id) := by
  induction p generalizing db with
  | nil => exact (List.append_nil _).symm
  | cons w p ih =>
    refine (ih (db.apply w)).trans ?_
    cases w with
    | insertJob row =>
      show (db.jobs ++ [row]).map (·.id) ++ _ = _ ++ (row :: created p).map (·.id)
      simp
    | updateJob loaded new =>
      show (db.jobs.map (RedactionJob.patch loaded new)).map (·.id) ++ _ = _
      rw [List.map_map]
      congr 1
      exact List.map_congr_left fun row _ => RedactionJob.patch_id loaded new row
    | _ => rfl

variable {p : List Write}

/-- Where nobody inserts a job, every job of the view has been there, with its document. -/
theorem job_of_view {db : Database} {job' : RedactionJob} (hpk : (db.jobs.map (·.id)).Nodup)
    (hcreated : created p = []) (h : job' ∈ (view db p).jobs) : ∃ job ∈ db.jobs,
      job'.documentId = job.documentId ∧ job'.status = lastStatus job.status (moves job.id p) := by
  have hids : (view db p).jobs.map (·.id) = db.jobs.map (·.id) := by
    rw [jobIds_view, hcreated, List.map_nil, List.append_nil]
  obtain ⟨job, hj, hid⟩ := List.mem_map.mp (hids ▸ List.mem_map_of_mem h)
  obtain ⟨job'', hj'', hid'', hdoc⟩ := (extends_view db p).jobs job hj
  obtain rfl : job'' = job' :=
    List.inj_on_of_nodup_map (hids ▸ hpk) hj'' h (hid''.trans hid)
  have hknown : db.status? job.id = some job.status := by
    rw [Database.status?, Database.job?, KeyedList.find?_key hpk hj, Option.map_some]
  have hstatus := status_view p hknown
  rw [← hid'', Database.status?, Database.job?, KeyedList.find?_key (hids ▸ hpk) hj'',
    Option.map_some, Option.some.injEq] at hstatus
  exact ⟨job, hj, hdoc, hid'' ▸ hstatus⟩

/-- **A commit keeps the pages** if it moves jobs only where it finds them prepared. -/
theorem pages_lands (hi : PagesInv env s) (hcreated : created p = [])
    (hmoves : ∀ job ∈ s.db.jobs, ∀ m ∈ moves job.id p, m.2 ∉ unpreparedStates →
      Prepared env s.world job.documentId) :
    (pagesContract env).Lands (fun _ _ _ => True) s p := by
  have hkeeps := keepsPages_view env s p
  refine ⟨⟨?_, fun job' hj' => ?_, fun job' hj' hst => ?_⟩, hkeeps, trivial⟩
  · show ((view s.db p).jobs.map (·.id)).Nodup
    rw [jobIds_view, hcreated, List.map_nil, List.append_nil]
    exact hi.job_pk
  · obtain ⟨job, hj, hdoc, -⟩ := job_of_view hi.job_pk hcreated hj'
    rw [hdoc]
    exact hkeeps.hasDocument (hi.documents job hj)
  · obtain ⟨job, hj, hdoc, hstatus⟩ := job_of_view hi.job_pk hcreated hj'
    rw [hdoc]
    rw [hstatus, lastStatus] at hst
    cases hlast : (moves job.id p).getLast? with
    | none =>
      rw [hlast] at hst
      exact hi.prepared job hj hst
    | some m =>
      rw [hlast] at hst
      exact hmoves job hj m (List.mem_of_getLast? hlast) hst

theorem document_of_later {loaded job : RedactionJob} (hi : PagesInv env s)
    (hloaded : loaded ∈ s₁.db.jobs) (h : KeepsPages env s₁ s) (hj : job ∈ s.db.jobs)
    (hid : loaded.id = job.id) : job.documentId = loaded.documentId := by
  obtain ⟨job', hj', hid', hdoc⟩ := h.tables.jobs loaded hloaded
  rw [← hdoc, List.inj_on_of_nodup_map hi.job_pk hj hj' (hid.symm.trans hid'.symm)]

/-- A move of a job that has been loaded prepared. -/
theorem pages_lands_loaded {loaded : RedactionJob} (h₁ : PagesInv env s₁)
    (hloaded : loaded ∈ s₁.db.jobs) (hst : loaded.status ∉ unpreparedStates)
    (h : (pagesContract env).After s₁ s) (hcreated : created p = [])
    (hmoves : ∀ jobId, ∀ m ∈ moves jobId p, loaded.id = jobId) :
    (pagesContract env).Lands (fun _ _ _ => True) s p := by
  refine pages_lands h.inv hcreated fun job hj m hm _ => ?_
  rw [document_of_later h.inv hloaded h.past hj (hmoves job.id m hm)]
  exact (h₁.prepared loaded hloaded hst).keep h.past (h₁.documents loaded hloaded)

theorem pages_lands_failed {job : RedactionJob} (hi : PagesInv env s) :
    (pagesContract env).Lands (fun _ _ _ => True) s [statusWrite job .failed] := by
  refine pages_lands hi rfl fun _ _ m hm hne => absurd ?_ hne
  rw [(moves_updateJob hm).2]
  exact (show JobStatus.failed ∈ unpreparedStates by decide)

theorem pages_fails (jobId : UUID) (consumes : JobStatus) :
    LandsFailure (pagesContract env) jobId consumes fun _ => True :=
  fun _ _ _ _ _ _ _ _ _ _ _ h₂ _ => pages_lands_failed h₂.inv

/-- A new job has not been ingested. -/
theorem pages_creates {document : Document} {job : RedactionJob} (hi : PagesInv env s)
    (hfresh : Fresh document job) (hf : Free s.db (createWrites document job)) :
    (pagesContract env).Lands (fun _ _ _ => True) s (createWrites document job) := by
  have hkeeps := keepsPages_view env s (createWrites document job)
  have hjobs : (view s.db (createWrites document job)).jobs = s.db.jobs ++ [job] := rfl
  have hnew : ∀ old ∈ s.db.jobs, old.id ≠ job.id := fun old hold =>
    (job_fresh hf.tail.tail.head old hold).1
  refine ⟨⟨?_, fun job' hj' => ?_, fun job' hj' hst => ?_⟩, hkeeps, trivial⟩
  · exact KeyedList.nodup_concat hi.job_pk hnew
  · rcases List.mem_append.mp hj' with hj' | hj'
    · exact hkeeps.hasDocument (hi.documents job' hj')
    · rw [List.mem_singleton.mp hj']
      refine ⟨_, List.mem_map_of_mem (List.mem_append_right _ List.mem_cons_self), ?_⟩
      exact (Document.patch_id _ _ _).trans hfresh.document.symm
  · rcases List.mem_append.mp hj' with hj' | hj'
    · exact hi.prepared job' hj' hst
    · rw [List.mem_singleton.mp hj', hfresh.status] at hst
      exact absurd (by decide) hst

/-! ### Ingest -/

theorem pages_upload (hd : s.db.hasDocument documentId)
    (hobject : PageObject env s.world documentId key data) :
    (pagesContract env).wp (uploadBytes key data)
      (fun _ s' p' => (pagesContract env).After s s' ∧ p' = p ∧ s'.world.objects key = some data)
      (fun _ s' _ => (pagesContract env).After s s') s p := by
  refine wp_act (fun _ _ _ hn => hn.after) fun s' hn => ?_
  have hacts := pages_acts_page hn.inv (hobject.of_original (hn.rely.originals _ hd))
  exact ⟨hacts, hn.after.act hacts, rfl, put_objects_self _ _ _⟩

/-- Where the uploads stand when the pages `left` are still to come. -/
structure Uploading (env : Env) (documentId : UUID) (extractions : List PageExtraction)
    (s₀ : Shared Database World) (left : List PageExtraction) (s : Shared Database World)
    (p : List Write) : Prop where
  after : (pagesContract env).After s₀ s
  document : s.db.hasDocument documentId
  extracts : Extracts env s.world documentId extractions
  among : left ⊆ extractions
  stored : ∀ e ∈ extractions, e ∉ left → HasPage env s.world documentId e
  pending : p = []

variable {s₀ : Shared Database World} {extractions left : List PageExtraction}

/-- What others do, and what the thread uploads itself, takes nothing back. -/
theorem Uploading.later (h : Uploading env documentId extractions s₀ left s p)
    (ha : (pagesContract env).After s s') : Uploading env documentId extractions s₀ left s' p where
  after := h.after.trans ha
  document := ha.past.hasDocument h.document
  extracts := h.extracts.of_original (ha.past.originals _ h.document)
  among := h.among
  stored e he hleft := (h.stored e he hleft).keep h.extracts he h.document ha.past
  pending := h.pending

/-- **One page is uploaded** and those before it stay, whoever else uploads them. -/
theorem pages_uploadPage {e : PageExtraction}
    (h : Uploading env documentId extractions s₀ (e :: left) s p) :
    (pagesContract env).wp (uploadPage env documentId e)
      (fun _ => Uploading env documentId extractions s₀ left)
      (fun _ s' _ => (pagesContract env).After s₀ s') s p := by
  have he : e ∈ extractions := h.among List.mem_cons_self
  refine Contract.wp_bind (Contract.wp_mono (fun _ s₁ p₁ hraster => ?_)
    (fun _ _ _ h' => h.after.trans h') _
    (pages_upload h.document (h.extracts.raster he)))
  obtain ⟨hafter₁, rfl, hraster⟩ := hraster
  have h₁ := h.later hafter₁
  refine Contract.wp_bind (Contract.wp_mono (fun _ s₂ p₂ htextLayer => ?_)
    (fun _ _ _ h' => h₁.after.trans h') _
    (pages_upload h₁.document (h₁.extracts.textLayer he)))
  obtain ⟨hafter₂, rfl, htextLayer⟩ := htextLayer
  have h₂ := h₁.later hafter₂
  refine { h₂ with
    among := fun x hx => h.among (List.mem_cons_of_mem e hx)
    stored := fun x hx hleft => ?_ }
  by_cases hxe : x = e
  · rw [hxe]
    exact ⟨hafter₂.past.pages _ _ _ h₁.document (h₁.extracts.raster he) hraster, htextLayer⟩
  · exact h₂.stored x hx fun hmem => (List.mem_cons.mp hmem).elim hxe hleft

/-- **An ingest uploads all artifacts of all pages** before it moves the job. -/
theorem pages_ingestWork {job : RedactionJob} (hd : s.db.hasDocument job.documentId)
    (hjob : job ∈ s.db.jobs) (hst : job.status = .uploaded) :
    (pagesContract env).wp (ingestWork env job) (fun _ _ _ => True)
      (fun _ s' _ => (pagesContract env).After s s') s [] := by
  have hE := (pagesContract env).escapes_after s
  refine Contract.wp_bind (wp_observe hE fun s₁ _ pdfBytes hn₁ _ hdata => ?_)
  have h₁ := hn₁.after
  refine Contract.wp_bind (Contract.wp_bind (wp_compute (hE.after h₁) fun s₂ extractions hn₂ hok => ?_))
  obtain ⟨_, -, hextract⟩ := bind_ok hok
  have h₂ := h₁.trans hn₂.after
  have hextracts : Extracts env s₂.world job.documentId extractions :=
    .of_original ⟨pdfBytes, downloaded hdata, hextract⟩
      (hn₂.rely.originals _ (h₁.past.hasDocument hd))
  have hstart : Uploading env job.documentId extractions s extractions s₂ [] :=
    ⟨h₂, h₂.past.hasDocument hd, hextracts, List.Subset.refl _, fun e he hne => absurd he hne, rfl⟩
  refine Contract.wp_bind (Contract.wp_mono (fun pages s₃ p₃ h₃ => ?_) (fun _ _ _ h => h) _
    (Contract.wp_foldlM_rest (I := fun left _ => Uploading env job.documentId extractions s left)
      (fun e left pages s' p' h' => ?_) hstart))
  · obtain rfl := h₃.pending
    refine Contract.wp_bind (wp_transition_edge (by simp [track, hst, validTransitions]) (by decide)
      (fun _ _ _ hn => h₃.after.trans hn.after) fun s₄ hn₄ => ?_)
    refine Contract.wp_commit (fun _ _ _ hn => h₃.after.trans (hn₄.after.trans hn.after))
      fun s₅ hn₅ _ => ?_
    have h₅ := h₃.later (hn₄.after.trans hn₅.after)
    refine pages_lands h₅.after.inv rfl fun current hcurrent m hm _ => ?_
    rw [document_of_later h₅.after.inv hjob h₅.after.past hcurrent (moves_updateJob hm).1]
    exact ⟨extractions, h₅.extracts, fun e he => h₅.stored e he List.not_mem_nil⟩
  · exact Contract.wp_bind (Contract.wp_mono (fun _ _ _ h => h) (fun _ _ _ h => h) _
      (pages_uploadPage h'))

/-! ### The operations -/

theorem pages_tolerates {f : World → World} (h : ∀ w, (f w).objects = w.objects) :
    Tolerates (pagesContract env) f := fun s hi => pages_acts_same hi (h s.world)

/-- A document whose insert is pending is not there yet. -/
theorem not_hasDocument {document : Document} {job : RedactionJob}
    (hf : Free s.db (createWrites document job)) : ¬ s.db.hasDocument document.id := by
  rintro ⟨row, hrow, hid⟩
  have hunused := hf.unused (.documentPk document.id)
    ⟨.insertDocument document, by simp [createWrites], List.mem_cons_self⟩
  exact absurd (List.any_eq_false.mp hunused row hrow) (by simp [hid])

theorem pages_safe (operation : Operation) (hi : PagesInv env s) :
    (pagesContract env).Safe (operation.run env) s [] := by
  have henqueue : ∀ message, Tolerates (pagesContract env) (·.enqueue message) :=
    fun _ => pages_tolerates fun _ => rfl
  cases operation with
  | deliver message =>
    cases message with
    | ingestJob jobId =>
      refine Contract.wp_bind (Contract.wp_mono (fun ingested s' p' _ => ?_) (fun _ _ _ h => h) _
        (safe_closing (safe_guardedTask (pages_fails jobId .uploaded) ?_ ?_)))
      · cases ingested
        · trivial
        · exact wp_act_tolerated (henqueue _) (anything_escapes s').fault fun _ _ => trivial
      · intro e s' p'
        show (pagesContract env).wp (if e.isIngestRejection then _ else _) _ _ s' p'
        split <;> trivial
      · intro s₁ job h₁ hjob hst
        have hj := job?_mem hjob
        exact Contract.wp_bind (pages_ingestWork (h₁.documents job hj) hj hst)
    | detectJob jobId =>
      refine safe_detectJob (pages_fails jobId .ingested)
        fun s₁ s₂ job p h₁ hjob hst h₂ hp _ _ _ => ?_
      refine pages_lands_loaded h₁ (job?_mem hjob) (by rw [hst]; decide) h₂ ?_ fun id m hm => ?_
      · rw [detectWrites, created_append, created_append, created_detected hp]
        rfl
      · rw [detectWrites, moves_append, moves_append, moves_detected hp, List.nil_append,
          List.mem_append] at hm
        exact hm.elim (fun h => (moves_updateJob h).1) fun h => (moves_updateJob h).1
    | applyJob jobId reviewerId =>
      refine safe_applyJob (pages_fails jobId .applying) ?_ ?_ ?_ ?_
      · exact fun _ _ s' job spans _ _ _ _ _ h => pages_acts_same h.inv rfl
      · intro s₁ s' job data _ _ _ h
        exact pages_acts_other (.redacted job.id) h.inv (fun _ _ => by simp) (by simp)
      · intro s₁ s' job b started failed h₁ hjob hst h _ _ _ _ _
        refine pages_lands_loaded h₁ (job?_mem hjob) (by rw [hst]; decide) (b.since h) rfl
          fun id m hm => ?_
        rw [applyFailedWrites, moves_insertAudit, moves_insertAudit] at hm
        exact (moves_updateJob hm).1
      · intro s₁ _ s' job b started passed h₁ hjob hst h _ _ _ _ _ _
        refine pages_lands_loaded h₁ (job?_mem hjob) (by rw [hst]; decide) (b.since h) rfl
          fun id m hm => ?_
        rw [applyPassedWrites, moves_insertAudit, moves_insertAudit] at hm
        exact (moves_updateJob hm).1
  | failJob jobId =>
    exact Contract.wp_bind (safe_failJob fun _ _ _ _ _ _ h₂ _ => pages_lands_failed h₂.inv)
  | createJob tenant file =>
    refine Contract.wp_bind (safe_createJob (fun _ => henqueue _) ?_ ?_ hi)
    · intro s' document job data h _ _ hf
      exact pages_acts_other (.original document.id) h
        (fun d hd he => not_hasDocument hf (by cases he; exact hd)) (by simp)
    · exact fun s' document job h hfresh hf _ => pages_creates h hfresh hf
  | createDispositions tenant jobId payload =>
    refine Contract.wp_bind (safe_createDispositions fun s₁ s₂ job p _ _ _ h₂ hp _ _ => ?_)
    refine pages_lands h₂.inv (created_batch hp) fun _ _ m hm => ?_
    rw [moves_batch hp] at hm
    cases hm
  | postApply tenant jobId =>
    refine Contract.wp_bind (safe_postApply (fun _ => henqueue _) ?_ hi)
    intro s₁ s₂ s₃ job h₁ hjob hst h₂ _ h₃ _
    exact pages_lands_loaded h₁ hjob.mem (by rw [hst]; decide) (h₂.trans h₃) rfl
      fun id m hm => (moves_updateJob hm).1
  | exportJob tenant jobId =>
    refine Contract.wp_bind (safe_exportJob (fun data s' h => ?_) ?_ hi)
    · exact pages_acts_other (.manifest jobId) h (fun _ _ => by simp) (by simp)
    · intro s₁ s₂ job exported h₁ hjob hst h₂ _ _ _
      refine pages_lands_loaded h₁ hjob.mem (by rw [hst]; decide) h₂ rfl fun id m hm => ?_
      rw [exportWrites, moves_insertAudit] at hm
      exact (moves_updateJob hm).1

end

/-! ### Runs -/

section

variable {env : Env} {G : Guard Database Write World Input Exn Unit} {world : World}
  {operations : List Operation} {S S' : Pipeline}

theorem fits_pages (env : Env) (G : Guard Database Write World Input Exn Unit) :
    (pagesContract env).Fits G := ⟨fun _ => trivial, fun _ _ => trivial, fun _ _ _ => trivial⟩

theorem pages_of_run
    (hr : Sys.Run G (Pipeline.start env ⟨Database.empty, world⟩ operations) S) :
    (pagesContract env).Good S := by
  have hi : PagesInv env ⟨Database.empty, world⟩ :=
    ⟨List.nodup_nil, fun _ h => absurd h List.not_mem_nil, fun _ h => absurd h List.not_mem_nil⟩
  refine Contract.sound (fits_pages env G) (fun _ _ h => h) (Contract.good_start hi fun q hq => ?_) hr
  obtain ⟨operation, -, rfl⟩ := List.mem_map.mp hq
  exact pages_safe operation hi

/-- **The artifacts of a document stay.**  Whatever runs and however it overlaps, faults, or
dies: once a job has been seen in a state that an ingest has led to, its original can be
extracted, and the rasters and text layers of all its pages are stored, from then on. -/
theorem artifacts_stay
    (hr : Sys.Run G (Pipeline.start env ⟨Database.empty, world⟩ operations) S)
    (hr' : Sys.Run G S S') {job : RedactionJob} (hj : job ∈ S.shared.db.jobs)
    (hst : job.status ∉ unpreparedStates) : Prepared env S'.shared.world job.documentId := by
  have hgood := pages_of_run hr
  have hkeeps : KeepsPages env S.shared S'.shared := Contract.of_guarantees (KeepsPages.refl env)
    KeepsPages.trans (hgood.run (fits_pages env G) (fun _ _ h => h) hr').2
  exact (hgood.inv.prepared job hj hst).keep hkeeps (hgood.inv.documents job hj)

end

def overlappingIngests : List Operation :=
  [.createJob sampleAdmin ⟨some "a.pdf", some pdfContentType, [0]⟩,
   .deliver (.ingestJob 4), .deliver (.ingestJob 4)]

/-- The first delivery has uploaded the raster when the second ingests the job; then it goes on
with the text layer. -/
theorem artifacts_stay_overlapping :
    ∃ S S', (Pipeline.start sampleEnv ⟨Database.empty, World.empty⟩ overlappingIngests).replay
        (numbered (List.replicate 11 0 ++ List.replicate 4 1 ++ List.replicate 9 2)) = some S ∧
      S.replay (numbered [1]) = some S' ∧
      S.shared.db.jobs = [⟨4, 1, 6, .ingested, none⟩] ∧ Prepared sampleEnv S'.shared.world 1 := by
  have hsome : ((Pipeline.start sampleEnv ⟨Database.empty, World.empty⟩ overlappingIngests).replay
      (numbered (List.replicate 11 0 ++ List.replicate 4 1 ++ List.replicate 9 2))).map
        (fun S => (S.shared.db.jobs, (S.replay (numbered [1])).isSome)) =
      some ([⟨4, 1, 6, .ingested, none⟩], true) := by decide +kernel
  obtain ⟨S, hS, hshared⟩ := Option.map_eq_some_iff.mp hsome
  obtain ⟨hjobs, hlater⟩ := Prod.mk.inj hshared
  obtain ⟨S', hS'⟩ := Option.isSome_iff_exists.mp hlater
  have hj : (⟨4, 1, 6, .ingested, none⟩ : RedactionJob) ∈ S.shared.db.jobs := by
    rw [hjobs]
    exact List.mem_cons_self
  have hprepared := artifacts_stay (Sys.run_of_replay (fun _ _ _ => trivial) hS)
    (Sys.run_of_replay (fun _ _ _ => trivial) hS') hj (by decide)
  exact ⟨S, S', hS, hS', hjobs, hprepared⟩

end RedactApi
