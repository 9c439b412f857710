import RedactApi.Detection.Dedupe
import RedactApi.Detection.Entities
import RedactApi.Detection.WordBoxes
import RedactApi.Pipeline.AcceptedReview
import RedactApi.Pipeline.EditEvidence
import RedactApi.Pipeline.ExportCertificate

/-!
# No hit gets lost

Between the detectors and the stored PDF lie three transactions: detection persists its
hits as spans, reviewers dispose of the spans, and the burn-in reads the spans back.  This
module says that nothing is lost on the way.

`detectHits` is detection without a database: what the detectors make of a stored
original, page by page.  The spans of a document that has been detected are its hits, one
row for each and in order, followed by the spans that reviewers added (`hits_persisted`).
So in the stored PDF a hit is black unless the log says that a reviewer took it out
(`findings_settled`).
-/

namespace RedactApi

open ReadCommitted KeyedList

/-! ### Detection without a database -/

/-- The candidates of the pages in order, each with the number of its page. -/
def pageHits (env : Env) (items : List (PageModel × List CandidateSpan)) :
    List (Nat × CandidateSpan) :=
  items.flatMap fun item =>
    (detectPage env item.1 item.2).map fun candidate => (item.1.pageNumber, candidate)

def detectedPages (env : Env) (original : Bytes) :
    Except Exn (List (PageModel × List CandidateSpan)) := do
  let extractions ← extractPages env original
  let tier2ByPage ← env.detectEntitiesBatch (extractions.map (·.page))
  zipStrict (extractions.map (·.page)) tier2ByPage

def detectHits (env : Env) (original : Bytes) : Except Exn (List (Nat × CandidateSpan)) := do
  let items ← detectedPages env original
  .ok (pageHits env items)

/-! ### Rows and hits -/

def EditedByHand (db : Database) (spanId : UUID) : Prop :=
  ∃ e ∈ db.auditEntries, e.spanId = some spanId ∧ e.action = .edited

/-- The row stands for the hit: it has its text and its boxes, or has been edited. -/
structure StandsFor (db : Database) (hit : Nat × CandidateSpan) (r : Span × Page) : Prop where
  pageNumber : r.2.pageNumber = hit.1
  category : r.1.category = hit.2.category
  sourceTier : r.1.sourceTier = hit.2.sourceTier
  confidence : r.1.confidence = some hit.2.confidence
  found : r.1.text = hit.2.text ∧ r.1.bboxes = hit.2.bboxes.map BBox.toList ∨
    EditedByHand db r.1.id

/-- The spans of the document are the hits, in order, and spans added by hand. -/
def RowsOf (db : Database) (documentId : UUID) (hits : List (Nat × CandidateSpan)) : Prop :=
  ∃ detected added, db.spanRows documentId = detected ++ added ∧
    List.Forall₂ (StandsFor db) hits detected ∧ ∀ r ∈ added, AddedByHand db r.1.id

section

variable {db db' : Database} {documentId spanId : UUID} {hit : Nat × CandidateSpan}
  {hits : List (Nat × CandidateSpan)} {r : Span × Page}

theorem EditedByHand.mono (h : EditedByHand db spanId) (he : db.auditEntries ⊆ db'.auditEntries) :
    EditedByHand db' spanId := by
  obtain ⟨e, hm, hrest⟩ := h
  exact ⟨e, he hm, hrest⟩

theorem AddedByHand.mono (h : AddedByHand db spanId) (he : db.auditEntries ⊆ db'.auditEntries) :
    AddedByHand db' spanId := by
  obtain ⟨e, hm, hrest⟩ := h
  exact ⟨e, he hm, hrest⟩

theorem StandsFor.mono (h : StandsFor db hit r) (he : db.auditEntries ⊆ db'.auditEntries) :
    StandsFor db' hit r :=
  ⟨h.pageNumber, h.category, h.sourceTier, h.confidence, h.found.imp_right fun h => h.mono he⟩

theorem RowsOf.frame (h : RowsOf db documentId hits)
    (hrows : db'.spanRows documentId = db.spanRows documentId)
    (he : db.auditEntries ⊆ db'.auditEntries) : RowsOf db' documentId hits := by
  obtain ⟨detected, added, hsplit, hstands, hadded⟩ := h
  exact ⟨detected, added, hrows.trans hsplit, hstands.imp fun _ _ h => h.mono he,
    fun r hr => (hadded r hr).mono he⟩

/-! ### What one item of a batch does to a row -/

variable {env : Env} {job : RedactionJob} {reviewerId : UUID}

/-- The row of the span that an item is about, after it. -/
theorem StandsFor.existing {span : Span} {item : ExistingItem} (h : StandsFor db hit r)
    (hspan : r.1.id = span.id → r.1 = span) (he : db.auditEntries ⊆ db'.auditEntries)
    (hlog : item.isEdit = true → EditedByHand db' span.id) :
    StandsFor db' hit (Span.patch span (editedSpan span item) r.1, r.2) := by
  by_cases hid : r.1.id = span.id
  · have hr := hspan hid
    subst hr
    by_cases hedit : item.isEdit = true
    · refine ⟨h.pageNumber, ?_, ?_, ?_, Or.inr ?_⟩
      · rw [Span.patch, if_pos rfl]
        exact h.category
      · rw [Span.patch, if_pos rfl]
        exact h.sourceTier
      · rw [Span.patch, if_pos rfl]
        exact h.confidence
      · rw [Span.patch_id]
        exact hlog hedit
    · rw [editedSpan_of_not_edit (by simpa using hedit), Span.patch_self]
      exact h.mono he
  · rw [Span.patch, if_neg hid]
    exact h.mono he

/-- **One item of a batch** rewrites a row only with an entry that says so, and adds one
only with an entry that says so. -/
theorem RowsOf.batchStep (h : RowsOf db job.documentId hits) (hi : Reviewed env True db)
    (hj : Present db job) (hs : BatchStep env True job reviewerId db db') :
    RowsOf db' job.documentId hits := by
  obtain ⟨detected, added, hsplit, hstands, hadded⟩ := h
  cases hs with
  | page hdoc hf =>
    rename_i row
    exact RowsOf.frame ⟨detected, added, hsplit, hstands, hadded⟩
      (hi.wf.spanRows_insertPage hf.head) fun _ h => h
  | existing hrow hid hexact hex he hf =>
    rename_i item span stored page existing newId id organizationId link createdAt entry
    obtain ⟨d, ⟨hspan, -, -⟩, hd, -, hspans, hpages⟩ := existing_effect hi.wf hj hrow hid hex he hf
    generalize view db (existingWrites span item existing newId reviewerId entry) = db' at *
    have hstored := hexact trivial
    subst hstored
    have hgrow : db.auditEntries ⊆ db'.auditEntries := by
      rw [hd.entries]
      exact List.subset_append_left _ _
    have hrows : db'.spanRows job.documentId = (db.spanRows job.documentId).map
        fun r => (Span.patch stored (editedSpan stored item) r.1, r.2) := by
      rw [← spanRows_updateSpan]
      exact spanRows_congr (db.apply (.updateSpan _ _)) _ hspans hpages _
    have hlog : item.isEdit = true → EditedByHand db' stored.id := by
      intro hedit
      refine ⟨entry, ?_, hspan ▸ hd.about, ?_⟩
      · rw [hd.entries]
        exact List.mem_append_right _ List.mem_cons_self
      · rw [he]
        cases item with
        | edit _ _ _ _ => rfl
        | _ => cases hedit
    have hmem : ∀ r ∈ detected, r.1.id = stored.id → r.1 = stored := fun r hr hsame =>
      congrArg Prod.fst (hi.wf.row_eq (hsplit ▸ List.mem_append_left _ hr) hrow hsame).1
    refine ⟨detected.map fun r => (Span.patch stored (editedSpan stored item) r.1, r.2),
      added.map fun r => (Span.patch stored (editedSpan stored item) r.1, r.2), ?_, ?_, ?_⟩
    · rw [hrows, hsplit, List.map_append]
    · rw [List.forall₂_map_right_iff]
      refine List.forall₂_iff_zip.mpr ⟨hstands.length_eq, fun {hit r} hz => ?_⟩
      exact (List.forall₂_zip hstands hz).existing (hmem r (List.of_mem_zip hz).2) hgrow hlog
    · intro r hr
      obtain ⟨r₀, hr₀, rfl⟩ := List.mem_map.mp hr
      rw [Span.patch_id]
      exact (hadded r₀ hr₀).mono hgrow
  | manual hpage hdoc he hf =>
    rename_i item page spanId dispositionId id organizationId link createdAt entry
    obtain ⟨-, hd, -, hspans, hpages⟩ := manual_effect hi.wf hj hpage he hf
    generalize view db (manualWrites (manualSpan spanId page.id item) item dispositionId reviewerId
      entry) = db' at *
    have hgrow : db.auditEntries ⊆ db'.auditEntries := by
      rw [hd.entries]
      exact List.subset_append_left _ _
    have hrows : db'.spanRows job.documentId =
        db.spanRows job.documentId ++ [(manualSpan spanId page.id item, page)] := by
      have hinsert : (db.apply (.insertSpan (manualSpan spanId page.id item))).spanRows
          job.documentId = _ := hi.wf.spanRows_insertSpan _ hpage rfl
      rw [if_pos hdoc] at hinsert
      rw [← hinsert]
      exact spanRows_congr (db.apply (.insertSpan _)) _ hspans hpages _
    refine ⟨detected, added ++ [(manualSpan spanId page.id item, page)], ?_,
      hstands.imp fun _ _ h => h.mono hgrow, fun r hr => ?_⟩
    · rw [hrows, hsplit, List.append_assoc]
    · rcases List.mem_append.mp hr with hr | hr
      · exact (hadded r hr).mono hgrow
      · rw [List.mem_singleton.mp hr]
        refine ⟨entry, ?_, hd.about, ?_⟩
        · rw [hd.entries]
          exact List.mem_append_right _ List.mem_cons_self
        · rw [he]
          rfl

theorem RowsOf.batch (h : RowsOf db job.documentId hits) (hi : Reviewed env True db)
    (hj : Present db job) (hs : Relation.ReflTransGen (BatchStep env True job reviewerId) db db') :
    RowsOf db' job.documentId hits := by
  induction hs with
  | refl => exact h
  | tail hprefix hstep ih =>
    obtain ⟨hreviewed, hbatched⟩ := batch_keeps hi hj hprefix
    obtain ⟨j, hjm, hid, hdoc⟩ := hj
    exact ih.batchStep hreviewed ⟨j, by rw [hbatched.jobs]; exact hjm, hid, hdoc⟩ hstep

end

/-! ### What detection writes -/

/-- The pending writes of a detection, with the hits they persist. -/
inductive HitWrites (db : Database) (documentId : UUID) :
    List (Nat × CandidateSpan) → List Write → Prop
  | nil : HitWrites db documentId [] []
  | page {hits : List (Nat × CandidateSpan)} {p : List Write} {row : Page} :
      HitWrites db documentId hits p → row.documentId = documentId → 1 ≤ row.pageNumber →
      HitWrites db documentId hits (p ++ [.insertPage row])
  | span {hits : List (Nat × CandidateSpan)} {p : List Write} {id : UUID} {page : Page}
      {candidate : CandidateSpan} : HitWrites db documentId hits p → page ∈ (view db p).pages →
      page.documentId = documentId →
      HitWrites db documentId (hits ++ [(page.pageNumber, candidate)])
        (p ++ [.insertSpan (candidateToSpan id page.id candidate)])

section

variable {db : Database} {documentId : UUID} {hits : List (Nat × CandidateSpan)} {p : List Write}

theorem HitWrites.detected (h : HitWrites db documentId hits p) {seen : Shared Database World → Prop}
    {s : Shared Database World} (hs : seen s) (hdb : s.db = db) : DetectedWrites seen documentId p := by
  induction h with
  | nil => exact .nil
  | page _ hdoc hnumber ih => exact .page ih hdoc hnumber
  | span _ hmem hdoc ih => exact .span ih hs (hdb ▸ hmem) hdoc

/-- **Each hit gets its row**, on a document that has none yet. -/
theorem HitWrites.rows {env : Env} (h : HitWrites db documentId hits p) (hi : Reviewed env True db)
    (hf : Free db p) (hd : ∃ d ∈ db.documents, d.id = documentId)
    (hempty : db.spanRows documentId = []) (db' : Database) :
    List.Forall₂ (StandsFor db') hits ((view db p).spanRows documentId) := by
  have hreviewed : ∀ {hits q}, HitWrites db documentId hits q → Free db q →
      Reviewed env True (view db q) := by
    intro hits q hq hfq
    have hwrites : DetectedWrites (fun s => s.db = db) documentId q :=
      hq.detected (show Shared.db ⟨db, World.empty⟩ = db from rfl) rfl
    exact (detected_of_writes hwrites hi hfq (fun _ hs => hs) hd).1
  induction h with
  | nil =>
    rw [view_nil, hempty]
    exact .nil
  | page hq _ _ ih =>
    rename_i hits q row _ _
    have hrows : ((view db q).apply (.insertPage row)).spanRows documentId = _ :=
      (hreviewed hq hf.left).wf.spanRows_insertPage hf.right.head
    rw [view_concat]
    exact hrows ▸ ih hf.left
  | span hq hmem hdoc ih =>
    rename_i hits q id page candidate
    have hrows : ((view db q).apply (.insertSpan (candidateToSpan id page.id candidate))).spanRows
        documentId = _ := (hreviewed hq hf.left).wf.spanRows_insertSpan _ hmem rfl
    rw [if_pos hdoc] at hrows
    rw [view_concat]
    exact hrows ▸ List.rel_append (ih hf.left) (.cons ⟨rfl, rfl, rfl, rfl, Or.inl ⟨rfl, rfl⟩⟩ .nil)

variable {C : Contract Database Write World Input Exn} {s s₀ : Shared Database World}
  {E : Exn → Shared Database World → List Write → Prop}

theorem wp_addCandidates {page : Page} (candidates : List CandidateSpan) (hE : C.Escapes E s)
    (hdoc : page.documentId = documentId) (hmem : page ∈ (view s₀.db p).pages)
    (h : HitWrites s₀.db documentId hits p) (hi : C.inv s) :
    C.wp (candidates.forM (addCandidate page.id)) (fun _ s' p' => C.After s s' ∧
      HitWrites s₀.db documentId (hits ++ candidates.map fun c => (page.pageNumber, c)) p') E s p := by
  induction candidates generalizing s p hits with
  | nil =>
    rw [List.map_nil, List.append_nil]
    exact ⟨.self hi, h⟩
  | cons candidate candidates ih =>
    show C.wp (addCandidate page.id candidate >>= fun _ => candidates.forM (addCandidate page.id)) _ E s p
    refine Contract.wp_bind (Contract.wp_bind (wp_genRandomUuid hE fun s₁ i hn₁ _ => ?_))
    refine Contract.wp_send (hE.after hn₁.after) fun s₂ hn₂ _ => ?_
    have h₂ := hn₁.after.trans hn₂.after
    have hmem' : page ∈
        (view s₀.db (p ++ [.insertSpan (candidateToSpan i.uuid page.id candidate)])).pages := by
      rw [view_append]
      exact Database.mem_pages_view hmem
    refine Contract.wp_mono (fun _ s' p' h' => ⟨h₂.trans h'.1, ?_⟩) (fun _ _ _ he => he) _
      (ih (hE.after h₂) hmem' (.span h hmem hdoc) hn₂.inv)
    rw [List.map_cons, List.append_cons]
    exact h'.2

/-- The hits of one page, under the row of the page. -/
theorem wp_detectOnPage_hits {env : Env} {totalSpans : Nat} {item : PageModel × List CandidateSpan}
    (hE : C.Escapes E s) (hdb : ∀ t, C.After s t → t.db = s₀.db) (hpage : 1 ≤ item.1.pageNumber)
    (h : HitWrites s₀.db documentId hits p) (hi : C.inv s) :
    C.wp (detectOnPage env documentId totalSpans item) (fun _ s' p' => C.After s s' ∧
      HitWrites s₀.db documentId (hits ++ pageHits env [item]) p') E s p := by
  have hits_eq : pageHits env [item] =
      (detectPage env item.1 item.2).map fun c => (item.1.pageNumber, c) := List.flatMap_singleton _ _
  show C.wp (if (detectPage env item.1 item.2).isEmpty then _ else _) _ E s p
  split
  · rename_i hempty
    rw [hits_eq, List.isEmpty_iff.mp hempty, List.map_nil, List.append_nil]
    exact ⟨.self hi, h⟩
  refine Contract.wp_bind (wp_getOrCreatePage hE fun page s₁ p₁ h₁ hp₁ hmem hdoc hnum => ?_)
  have hwrites : HitWrites s₀.db documentId hits p₁ := by
    rcases hp₁ with rfl | rfl
    · exact h
    · exact .page h hdoc (hnum ▸ hpage)
  rw [hdb s₁ h₁] at hmem
  refine Contract.wp_bind (Contract.wp_mono (fun _ s' p' h' => ?_) (fun _ _ _ he => he) _
    (wp_addCandidates (detectPage env item.1 item.2) (hE.after h₁) hdoc hmem hwrites h₁.inv))
  rw [hits_eq, ← hnum]
  exact ⟨h₁.trans h'.1, h'.2⟩

theorem wp_detectOnPages {env : Env} (items : List (PageModel × List CandidateSpan))
    (totalSpans : Nat) (hE : C.Escapes E s) (hdb : ∀ t, C.After s t → t.db = s₀.db)
    (hpages : ∀ item ∈ items, 1 ≤ item.1.pageNumber) (h : HitWrites s₀.db documentId hits p)
    (hi : C.inv s) :
    C.wp (items.foldlM (detectOnPage env documentId) totalSpans) (fun _ s' p' => C.After s s' ∧
      HitWrites s₀.db documentId (hits ++ pageHits env items) p') E s p := by
  induction items generalizing s p hits totalSpans with
  | nil =>
    rw [show pageHits env [] = [] from rfl, List.append_nil]
    exact ⟨.self hi, h⟩
  | cons item items ih =>
    rw [List.foldlM_cons]
    refine Contract.wp_bind (Contract.wp_mono (fun n s₁ p₁ h₁ => ?_) (fun _ _ _ he => he) _
      (wp_detectOnPage_hits hE hdb (hpages item List.mem_cons_self) h hi))
    refine Contract.wp_mono (fun _ s' p' h' => ⟨h₁.1.trans h'.1, ?_⟩) (fun _ _ _ he => he) _
      (ih n (hE.after h₁.1) (fun t ht => hdb t (h₁.1.trans ht))
        (fun item hitem => hpages item (List.mem_cons_of_mem _ hitem)) h₁.2 h₁.1.inv)
    have hcons : pageHits env (item :: items) = pageHits env [item] ++ pageHits env items := by
      simp [pageHits]
    rw [hcons, ← List.append_assoc]
    exact h'.2

/-- **Detection** writes the hits of its pages, if no one else commits. -/
theorem wp_runDetection_hits {env : Env} {pages : List PageModel}
    {Q : Nat → Shared Database World → List Write → Prop} (hE : C.Escapes E s)
    (hdb : ∀ t, C.After s t → t.db = s.db) (hpages : ∀ page ∈ pages, 1 ≤ page.pageNumber)
    (hQ : ∀ n s' p' tier2ByPage items, C.After s s' → env.detectEntitiesBatch pages = .ok tier2ByPage →
      zipStrict pages tier2ByPage = .ok items → HitWrites s.db documentId (pageHits env items) p' →
      Q n s' p') :
    C.wp (runDetection env documentId pages) Q E s [] := by
  refine Contract.wp_bind (wp_compute hE fun s₁ tier2ByPage hn₁ htier2 => ?_)
  refine Contract.wp_bind (wp_liftExcept hn₁.inv (hE.after hn₁.after) fun items hitems => ?_)
  have hmem : ∀ item ∈ items, item.1 ∈ pages := by
    intro item hitem
    rw [zipStrict] at hitems
    split at hitems
    · cases hitems
      exact (List.of_mem_zip hitem).1
    · cases hitems
  have hnone : HitWrites s.db documentId [] [] := .nil
  refine Contract.wp_mono (fun n s' p' h' => ?_) (fun _ _ _ he => he) _
    (wp_detectOnPages items 0 (hE.after hn₁.after) (fun t ht => hdb t (hn₁.after.trans ht))
      (fun item hitem => hpages _ (hmem item hitem)) hnone hn₁.inv)
  exact hQ n s' p' tier2ByPage items (hn₁.after.trans h'.1) htier2 hitems h'.2

/-- The work of a detection raises, or commits the hits of the stored original. -/
theorem tries_detectWork_hits {env : Env} {R : Shared Database World → Prop} {job : RedactionJob}
    (hst : job.status = .ingested) (hdb : ∀ t, C.After s t → t.db = s.db)
    (hcommit : ∀ s₁ s₂ p original hits, C.After s s₁ → C.After s₁ s₂ →
      s₁.world.objects (Keys.originalPdfKey job.documentId) = some original →
      detectHits env original = .ok hits → HitWrites s.db job.documentId hits p →
      Free s₂.db (detectWrites job p) → C.Lands (fun _ s _ => R s) s₂ (detectWrites job p)) :
    Tries C R (detectWork env job) s := by
  have hE := C.escapes_after s
  refine Contract.wp_bind (wp_observe hE fun s₁ _ original hn₁ _ hdata => ?_)
  have horiginal := downloaded hdata
  refine Contract.wp_bind (wp_compute (hE.after hn₁.after) fun s₂ extractions hn₂ hextract => ?_)
  have h₂ := hn₁.after.trans hn₂.after
  have hdb₂ : ∀ t, C.After s₂ t → t.db = s₂.db := fun t ht =>
    (hdb t (h₂.trans ht)).trans (hdb s₂ h₂).symm
  refine Contract.wp_bind (wp_runDetection_hits (hE.after h₂) hdb₂ ?_
    fun n s₃ p tier2ByPage items h₃ htier2 hitems hp => ?_)
  · intro page hpage
    obtain ⟨e, he, rfl⟩ := List.mem_map.mp hpage
    exact extractPages_pageNumber hextract e he
  have hhits : detectHits env original = .ok (pageHits env items) := by
    have hpages : detectedPages env original = .ok items := by
      simp only [detectedPages, hextract]
      show (env.detectEntitiesBatch _ >>= _) = _
      rw [htier2]
      exact hitems
    rw [detectHits, hpages]
    rfl
  rw [hdb s₂ h₂] at hp
  have hE₃ := hE.after (h₂.trans h₃)
  refine Contract.wp_bind (wp_transition_edge (by simp [track, hst, validTransitions]) (by decide)
    hE₃.fault fun s₄ hn₄ => ?_)
  have hE₄ := hE₃.after hn₄.after
  refine Contract.wp_bind (wp_transition_edge (by simp [track, validTransitions]) (by decide)
    hE₄.fault fun s₅ hn₅ => ?_)
  refine Contract.wp_commit (hE₄.after hn₅.after).fault fun s₆ hn₆ _ => ?_
  exact hcommit s₁ s₆ p original _ hn₁.after
    ((((hn₂.after.trans h₃).trans hn₄.after).trans hn₅.after).trans hn₆.after) horiginal hhits hp hn₆.free

end

/-! ### The contract -/

/-- The states of a job whose document has been detected and that has not failed. -/
def detectedStates : List JobStatus := [.inReview, .applying, .verified, .exported]

/-- The spans of the document are the hits of its original, and spans added by hand. -/
def HitsPersisted (env : Env) (s : Shared Database World) (documentId : UUID) : Prop :=
  ∃ original hits, s.world.objects (Keys.originalPdfKey documentId) = some original ∧
    detectHits env original = .ok hits ∧ RowsOf s.db documentId hits

structure HitsInv (env : Env) (s : Shared Database World) : Prop extends LifeInv env s where
  persisted : ∀ job ∈ s.db.jobs, job.status ∈ detectedStates → HitsPersisted env s job.documentId

def hitsContract (env : Env) : Contract Database Write World Input Exn :=
  { lifeContract env with
    inv := HitsInv env
    guar := fun _ _ => True
    guar_refl := fun _ => trivial }

section

variable {env : Env} {s s' : Shared Database World} {job new : RedactionJob} {documentId : UUID}

theorem HitsPersisted.frame (h : HitsPersisted env s documentId)
    (ho : s'.world.objects (Keys.originalPdfKey documentId) =
      s.world.objects (Keys.originalPdfKey documentId))
    (hrows : s'.db.spanRows documentId = s.db.spanRows documentId)
    (he : s.db.auditEntries ⊆ s'.db.auditEntries) : HitsPersisted env s' documentId := by
  obtain ⟨original, hits, horiginal, hhits, hrowsOf⟩ := h
  exact ⟨original, hits, ho.trans horiginal, hhits, hrowsOf.frame hrows he⟩

theorem after_life (h : (hitsContract env).After s s') : (lifeContract env).After s s' :=
  ⟨h.inv.toLifeInv, h.past⟩

theorem hits_acts {w : World} (hi : HitsInv env s) (h : (lifeContract env).Acts s w) :
    (hitsContract env).Acts s w where
  inv := ⟨h.inv, fun _ hj hst => (hi.persisted _ hj hst).frame (h.past.2.original hi.reviewed.wf hj) rfl
    fun _ h => h⟩
  guar := trivial
  past := h.past

theorem hits_tolerates {f : World → World} (h : Tolerates (lifeContract env) f) :
    Tolerates (hitsContract env) f := fun s hi => hits_acts hi (h s hi.toLifeInv)

/-- A commit that loses no hit of any job. -/
theorem hits_lands {p : List Write} (h : (lifeContract env).Lands (fun _ _ _ => True) s p)
    (hjobs : ∀ job ∈ (view s.db p).jobs, job.status ∈ detectedStates →
      HitsPersisted env { s with db := view s.db p } job.documentId) :
    (hitsContract env).Lands (fun _ _ _ => True) s p := ⟨⟨h.1, hjobs⟩, trivial, trivial⟩

theorem hits_lands_closing {es : List AuditEntry} (hi : HitsInv env s) (hj : job ∈ s.db.jobs)
    (hsame : SameJob job new) (hold : new.status ∈ detectedStates → job.status ∈ detectedStates)
    (h : (lifeContract env).Lands (fun _ _ _ => True) s (closingWrites job new es)) :
    (hitsContract env).Lands (fun _ _ _ => True) s (closingWrites job new es) := by
  refine hits_lands h fun j hjm hst => ?_
  rw [view_closingWrites] at hjm ⊢
  have hkept : HitsPersisted env s j.documentId := by
    rcases (hi.reviewed.wf.mem_updateJob hj hsame.id hsame.document hsame.organization).mp hjm with
      rfl | ⟨hjm, -⟩
    · rw [hsame.document]
      exact hi.persisted job hj (hold hst)
    · exact hi.persisted j hjm hst
  exact hkept.frame rfl rfl (List.subset_append_left _ _)

theorem hits_lands_status {newStatus : JobStatus} (hi : HitsInv env s) (hj : job ∈ s.db.jobs)
    (hold : newStatus ∈ detectedStates → job.status ∈ detectedStates)
    (h : (lifeContract env).Lands (fun _ _ _ => True) s [statusWrite job newStatus]) :
    (hitsContract env).Lands (fun _ _ _ => True) s [statusWrite job newStatus] :=
  @hits_lands_closing env s job { job with status := newStatus } [] hi hj ⟨rfl, rfl, rfl⟩ hold h

theorem hits_fails {consumes : JobStatus} (hconsumes : consumes ∈ consumedStates) (jobId : UUID) :
    LandsFailure (hitsContract env) jobId consumes fun _ => True := by
  intro s₀ s₁ s₂ job₀ job h₀ hjob₀ hst h₁ hjob hedge h₂ _
  have hj : job ∈ s₂.db.jobs := h₂.past.1 ▸ job?_mem hjob
  refine hits_lands_status h₂.inv hj (fun h => absurd h (by decide)) ?_
  exact life_fails hconsumes jobId s₀ s₁ s₂ job₀ job h₀.toLifeInv hjob₀ hst (after_life h₁) hjob hedge
    (after_life h₂) trivial

/-- **Detection** persists the hits of the stored original. -/
theorem hits_lands_detect {original : Bytes} {hits : List (Nat × CandidateSpan)} {p : List Write}
    (hi : HitsInv env s) (hj : job ∈ s.db.jobs) (hst : job.status = .ingested)
    (horiginal : s.world.objects (Keys.originalPdfKey job.documentId) = some original)
    (hhits : detectHits env original = .ok hits) (hp : HitWrites s.db job.documentId hits p)
    (hf : Free s.db (detectWrites job p)) :
    (hitsContract env).Lands (fun _ _ _ => True) s (detectWrites job p) := by
  have hwrites : DetectedWrites (fun t => t.db = s.db) job.documentId p := hp.detected (s := s) rfl rfl
  have hdocument := hi.reviewed.wf.job_fk job hj
  obtain ⟨hlife, hadvances⟩ := hi.toLifeInv.detect hj hst hwrites (fun _ ht => ht) hf
  obtain ⟨hreviewed, hdetected⟩ := detected_of_writes hwrites hi.reviewed hf.left.left (fun _ ht => ht)
    hdocument
  refine hits_lands ⟨hlife, hadvances, trivial⟩ fun j hjm hstj => ?_
  rcases (mem_jobs_detectWrites hreviewed.wf (hdetected.jobs ▸ hj) j).mp hjm with rfl | ⟨hjm, hne⟩
  · have hempty := ((hi.jobs job hj).untouched (by rw [hst]; decide)).1
    have hrows : (view s.db (detectWrites job p)).spanRows job.documentId =
        (view s.db p).spanRows job.documentId := by
      rw [view_detectWrites]
      rfl
    refine ⟨original, hits, horiginal, hhits, _, [], (List.append_nil _).symm, ?_,
      fun _ h => absurd h List.not_mem_nil⟩
    show List.Forall₂ _ hits ((view s.db (detectWrites job p)).spanRows job.documentId)
    rw [hrows]
    exact hp.rows hi.reviewed hf.left.left hdocument hempty _
  · rw [hdetected.jobs] at hjm
    have hsame := others_detect hdetected hreviewed.wf hj hjm hne
    refine (hi.persisted j hjm hstj).frame rfl hsame.spans.rows ?_
    rw [view_detectWrites]
    show s.db.auditEntries ⊆ (view s.db p).auditEntries
    rw [hdetected.entries]
    exact fun _ h => h

/-- **A batch** rewrites no row of a hit without an entry. -/
theorem hits_lands_batch {reviewerId : UUID} {p : List Write} (hi : HitsInv env s)
    (hj : job ∈ s.db.jobs) (hst : job.status = .inReview)
    (hs : Relation.ReflTransGen (BatchStep env True job reviewerId) s.db (view s.db p)) :
    (hitsContract env).Lands (fun _ _ _ => True) s p := by
  obtain ⟨hlife, hadvances⟩ := hi.toLifeInv.batch hj hst hs
  have hpresent : Present s.db job := ⟨job, hj, rfl, rfl⟩
  have hbatched := (batch_keeps hi.reviewed hpresent hs).2
  refine hits_lands ⟨hlife, hadvances, trivial⟩ fun j hjm hstj => ?_
  rw [hbatched.jobs] at hjm
  by_cases he : j.id = job.id
  · have hsame := List.inj_on_of_nodup_map hi.reviewed.wf.job_pk hjm hj he
    subst hsame
    obtain ⟨original, hits, horiginal, hhits, hrows⟩ := hi.persisted j hjm hstj
    exact ⟨original, hits, horiginal, hhits, hrows.batch hi.reviewed hpresent hs⟩
  · obtain ⟨es, hes, -⟩ := hbatched.entries
    refine (hi.persisted j hjm hstj).frame rfl
      (others_batch hbatched hi.reviewed.wf hj hjm he).spans.rows ?_
    show s.db.auditEntries ⊆ (view s.db p).auditEntries
    rw [hes]
    exact List.subset_append_left _ _

/-! ### Operations -/

theorem hits_safe_detectJob (jobId : UUID) : (hitsContract env).Safe (detectJob env jobId) s [] := by
  have hwork : ∀ s₁ job, s₁.db.job? jobId = some job → job.status = .ingested →
      Tries (hitsContract env) (fun _ => True) (detectWork env job) s₁ := by
    intro s₁ job hjob hst
    refine tries_detectWork_hits hst (fun t ht => ht.past.1)
      fun s₂ s₃ p original hits h₂ h₃ horiginal hhits hp hf => ?_
    have hdb : s₃.db = s₁.db := h₃.past.1.trans h₂.past.1
    have hj : job ∈ s₂.db.jobs := h₂.past.1 ▸ job?_mem hjob
    rw [← h₃.past.2.original h₂.inv.reviewed.wf hj] at horiginal
    rw [← hdb] at hp
    exact hits_lands_detect h₃.inv (hdb ▸ job?_mem hjob) hst horiginal hhits hp hf
  exact ends_closing (ending_anywhere _) (ends_guardedTask (ending_anywhere _) (fun _ _ _ => trivial)
    (hits_fails (by decide) jobId) (fun _ _ _ _ _ _ _ _ => trivial) (fun _ _ _ h => h)
    fun s₁ job _ hjob hst => hwork s₁ job hjob hst)

theorem hits_safe_applyJob (jobId : UUID) (reviewerId : Option UUID) :
    (hitsContract env).Safe (applyJob env jobId reviewerId) s [] := by
  have hlife := operates_life env
  refine safe_applyJob (hits_fails (by decide) jobId) ?_ ?_ ?_ ?_
  · intro s₁ s₃ s job spans h₁ hjob hst h₃ happroved h
    exact hits_acts h.inv (acts_of_same h.inv.toLifeInv (fun _ _ _ => ⟨rfl, rfl⟩) fun _ _ => rfl)
  · intro s₁ s job data h₁ hjob hst h
    exact hits_acts h.inv (life_stores h.inv.toLifeInv (h.past.1 ▸ job?_mem hjob) hst)
  · intro s₁ s job b started failed h₁ hjob hst h _ hstarted hfailed hf _
    have hdb : s.db = s₁.db := (b.since h).past.1
    have hj : job ∈ s.db.jobs := hdb ▸ job?_mem hjob
    exact @hits_lands_closing env s job { job with status := .failed } [started, failed] h.inv hj
      ⟨rfl, rfl, rfl⟩ (fun h => absurd h (show JobStatus.failed ∉ _ by decide))
      (life_failsGate h.inv.toLifeInv hj hst hstarted hfailed hf)
  · intro s₁ s₂ s job b started passed h₁ hjob hst h hres hstore hstarted hpassed hf _
    have hdb : s.db = s₁.db := (b.since h).past.1
    have hj : job ∈ s.db.jobs := hdb ▸ job?_mem hjob
    let b' : BurnIn (lifeContract env) env s₁ job := ⟨b.bytes, b.spans, b.result, b.atOriginal, b.atSpans,
      b.past_original, b.original, b.past_spans, b.approved, b.applied⟩
    have hartifact : Artifact env s job := life_artifact h₁.toLifeInv (job?_mem hjob) b' h.past hres
      (congrArg Shared.world hstore)
    exact @hits_lands_closing env s job (verifiedJob job) [started, passed] h.inv hj ⟨rfl, rfl, rfl⟩
      (fun _ => by rw [hst]; decide) (life_passesGate h.inv.toLifeInv hj hst hartifact hstarted hpassed hf)

theorem hits_safe {operation : Operation} (hfail : ∀ jobId, operation ≠ .failJob jobId)
    (hi : HitsInv env s) : (hitsContract env).Safe (operation.run env) s [] := by
  have hlife := operates_life env
  have henqueue : ∀ message, Tolerates (hitsContract env) (·.enqueue message) :=
    fun message => hits_tolerates (hlife.enqueue message)
  cases operation with
  | deliver message =>
    cases message with
    | ingestJob jobId =>
      refine safe_ingestJob (fun documentId n data => ⟨hits_tolerates (hlife.pages documentId n data).1,
        hits_tolerates (hlife.pages documentId n data).2⟩) (henqueue _) (hits_fails (by decide) jobId)
        fun s₁ s₂ job h₁ hjob hst h₂ _ => ?_
      have hj : job ∈ s₂.db.jobs := h₂.past.1 ▸ job?_mem hjob
      exact hits_lands_status h₂.inv hj (fun h => absurd h (by decide))
        (life_ingests h₂.inv.toLifeInv hj hst)
    | detectJob jobId => exact hits_safe_detectJob jobId
    | applyJob jobId reviewerId => exact hits_safe_applyJob jobId reviewerId
  | failJob jobId => exact absurd rfl (hfail jobId)
  | createJob tenant file =>
    refine Contract.wp_bind (safe_createJob (fun _ => henqueue _)
      (fun s document job data h _ _ hf => hits_acts h (life_uploads h.toLifeInv hf)) ?_ hi)
    intro s document job h hfresh hf _
    obtain ⟨hi', hadvances⟩ := h.toLifeInv.create hfresh hf
    refine hits_lands ⟨hi', hadvances, trivial⟩ fun j hjm hst => ?_
    rcases List.mem_append.mp hjm with hjm | hjm
    · exact (h.persisted j hjm hst).frame rfl rfl fun _ h => h
    · rw [List.mem_singleton.mp hjm, hfresh.status] at hst
      exact absurd hst (by decide)
  | createDispositions tenant jobId payload =>
    refine Contract.wp_bind (safe_createDispositions fun s₁ s₂ job p h₁ hjob hst h₂ hp hf _ => ?_)
    have hj : job ∈ s₂.db.jobs := h₂.past.1 ▸ hjob.mem
    have hseen : ∀ t, (hitsContract env).Between s₁ s₂ t → t.db = s₂.db := fun t ht => ht.2.1.symm
    exact hits_lands_batch h₂.inv hj hst (batchSteps_of_writes hp h₂.inv.reviewed ⟨job, hj, rfl, rfl⟩ hf
      (fun t ht => hseen t ht ▸ Extends.refl _) (Or.inl hseen))
  | postApply tenant jobId =>
    refine Contract.wp_bind (safe_postApply (fun _ => henqueue _) ?_ hi)
    intro s₁ s₂ s₃ job h₁ hjob hst h₂ hcount h₃ _
    have hj : job ∈ s₃.db.jobs := h₃.past.1 ▸ h₂.past.1 ▸ hjob.mem
    rw [← h₃.past.1] at hcount
    exact hits_lands_status h₃.inv hj (fun _ => by rw [hst]; decide)
      (life_starts h₃.inv.toLifeInv hj hst hcount)
  | exportJob tenant jobId =>
    refine Contract.wp_bind (safe_exportJob (fun data => hits_tolerates (hlife.manifest jobId data)) ?_ hi)
    intro s₁ s₂ job exported h₁ hjob hst h₂ hexported hf _
    have hj : job ∈ s₂.db.jobs := h₂.past.1 ▸ hjob.mem
    exact @hits_lands_closing env s₂ job { job with status := .exported } [exported] h₂.inv hj
      ⟨rfl, rfl, rfl⟩ (fun _ => by rw [hst]; decide)
      (life_exports h₂.inv.toLifeInv hj hst hexported hf)

end

/-! ### Runs -/

section

variable {env : Env} {world : World} {operations : List Operation} {S : Pipeline}

theorem fits_hits (env : Env) : (hitsContract env).Fits (α := Unit) Guard.serial :=
  ⟨fun _ => trivial, fun _ _ => trivial, fun _ _ _ => trivial⟩

theorem hits_of_run (hops : ∀ jobId, .failJob jobId ∉ operations)
    (hr : Sys.Run Guard.serial (Pipeline.start env ⟨Database.empty, world⟩ operations) S) :
    HitsInv env S.shared := by
  have hgood := Contract.sound_serial (fits_hits env) (fun _ _ _ h => h)
    (Contract.goodSerial_start ⟨lifeInv_empty env world, fun _ h => absurd h List.not_mem_nil⟩
      fun q hq s hi => ?_) hr
  · exact hgood.inv
  · obtain ⟨operation, hop, rfl⟩ := List.mem_map.mp hq
    exact hits_safe (fun jobId he => hops jobId (he ▸ hop)) hi

end

/-- **The spans of a document are its hits and what reviewers added.**  Operations of any
kind run one at a time, each failing or dying at any point.  In every state of the run,
for every job from `in_review` on that has not failed: the detectors run through on the
stored original, and the spans of the document are one for each hit, in order and on its
page, with its category, its tier and its confidence, followed by spans that the log says
were added by hand.  A span whose text or boxes are not those of its hit has been edited,
and the log says so. -/
theorem hits_persisted (env : Env) (world : World) (operations : List Operation)
    (hops : ∀ jobId, .failJob jobId ∉ operations) (S : Pipeline)
    (hr : Sys.Run Guard.serial (Pipeline.start env ⟨Database.empty, world⟩ operations) S)
    (job : RedactionJob) (hj : job ∈ S.shared.db.jobs) (hst : job.status ∈ detectedStates) :
    ∃ original hits detected added,
      S.shared.world.objects (Keys.originalPdfKey job.documentId) = some original ∧
      detectHits env original = .ok hits ∧
      S.shared.db.spanRows job.documentId = detected ++ added ∧
      List.Forall₂ (StandsFor S.shared.db) hits detected ∧
      ∀ r ∈ added, AddedByHand S.shared.db r.1.id := by
  obtain ⟨original, hits, horiginal, hhits, detected, added, hrows⟩ :=
    (hits_of_run hops hr).persisted job hj hst
  exact ⟨original, hits, detected, added, horiginal, hhits, hrows⟩

/-- One name was detected, and it has been approved. -/
theorem hits_persisted_approved :
    ∃ S job hits detected, detectedPipeline untilApproved = some S ∧ job ∈ S.shared.db.jobs ∧
      detectHits detectingEnv [0] = .ok hits ∧ hits.length = 1 ∧
      detected ⊆ S.shared.db.spanRows job.documentId ∧
      List.Forall₂ (StandsFor S.shared.db) hits detected := by
  have hsome : (detectedPipeline untilApproved).map (fun S =>
      (S.shared.db.jobs.map (·.status), S.shared.world.objects (Keys.originalPdfKey 1),
        S.shared.db.jobs.map (·.documentId))) = some ([.inReview], some [0], [1]) := by decide +kernel
  obtain ⟨S, hS, hstate⟩ := Option.map_eq_some_iff.mp hsome
  obtain ⟨hjobs, hobject, hdocuments⟩ : S.shared.db.jobs.map (·.status) = [.inReview] ∧
      S.shared.world.objects (Keys.originalPdfKey 1) = some [0] ∧
      S.shared.db.jobs.map (·.documentId) = [1] := by simpa using hstate
  obtain ⟨job, hj, hst⟩ := List.exists_of_mem_map (hjobs ▸ List.mem_cons_self :
    JobStatus.inReview ∈ S.shared.db.jobs.map (·.status))
  have hdocument : job.documentId = 1 := by
    have hmem : job.documentId ∈ S.shared.db.jobs.map (·.documentId) := List.mem_map_of_mem hj
    rw [hdocuments] at hmem
    exact List.mem_singleton.mp hmem
  obtain ⟨original, hits, detected, added, horiginal, hhits, hrows, hstands, -⟩ :=
    hits_persisted detectingEnv World.empty detectedOperations
      (fun jobId h => by simp [detectedOperations] at h) S
      (Sys.run_of_replayWhere Guard.serial_of_serialStep hS) job hj (by rw [hst]; decide)
  rw [hdocument, hobject] at horiginal
  cases horiginal
  have hone : (detectHits detectingEnv [0]).map List.length = .ok 1 := by decide +kernel
  rw [hhits] at hone
  exact ⟨S, job, hits, detected, hS, hj, hhits, Except.ok.inj hone,
    hrows ▸ List.subset_append_left _ _, hstands⟩

/-! ### From the detectors to the stored PDF -/

/-- What both tiers find on a page, before they are merged. -/
def findings (env : Env) (item : PageModel × List CandidateSpan) : List CandidateSpan :=
  (env.tier1Detectors.flatMap fun detector => detector item.1) ++ item.2

/-- The log excuses the span: a reviewer has rejected it last, or has edited it. -/
def Database.LogExcuses (db : Database) (jobId spanId : UUID) : Prop :=
  (∃ e, ((db.entriesBySequence jobId).filter (·.spanId = some spanId)).getLast? = some e ∧
    e.action = .rejected) ∨
  ∃ e ∈ db.entriesBySequence jobId, e.spanId = some spanId ∧ e.action = .edited

def Blackened (source : FitzDocument) (pages : List OutPage) (number : Nat) (b : BBox) : Prop :=
  ∃ k before after, k + 1 = number ∧ source.pages[k]? = some before ∧ pages[k]? = some after ∧
    ∀ i j, b.Paints (before.pixmap applyOutputDpi).width (before.pixmap applyOutputDpi).height i j →
      after.image.pixel i j = black

/-- Each word that is touched by a finding is black, or the log excuses a span of the
category of the finding on its page. -/
def FindingsSettled (env : Env) (db : Database) (job : RedactionJob) (source : FitzDocument)
    (pages : List OutPage) (items : List (PageModel × List CandidateSpan)) : Prop :=
  ∀ item ∈ items, ∀ finding ∈ findings env item, ∀ word ∈ item.1.words, ∀ offset,
    word.covers offset → finding.start ≤ offset → offset < finding.stop →
      ∃ r ∈ db.spanRows job.documentId, r.2.pageNumber = item.1.pageNumber ∧
        r.1.category = finding.category ∧
        (db.LogExcuses job.id r.1.id ∨ Blackened source pages item.1.pageNumber word.bbox)

section

variable {env : Env} {s : Shared Database World} {job : RedactionJob} {original : Bytes}
  {source : FitzDocument} {pages : List OutPage}

theorem exists_of_forall₂ {α β : Type} {R : α → β → Prop} {as : List α} {bs : List β}
    (h : List.Forall₂ R as bs) {a : α} (ha : a ∈ as) : ∃ b ∈ bs, R a b := by
  induction h with
  | nil => cases ha
  | cons hab _ ih =>
    rcases List.mem_cons.mp ha with rfl | ha
    · exact ⟨_, List.mem_cons_self, hab⟩
    · obtain ⟨b, hb, hr⟩ := ih ha
      exact ⟨b, List.mem_cons_of_mem _ hb, hr⟩

/-- A span that the log lets stand is black. -/
theorem PaintedByLog.blackened (h : PaintedByLog env s job original source pages) {r : Span × Page}
    (hr : r ∈ s.db.spanRows job.documentId) (happroves : s.db.LogApproves job.id r.1.id) {b : BBox}
    (hb : b.toList ∈ r.1.bboxes) : Blackened source pages r.2.pageNumber b := by
  obtain ⟨hlow, hhigh⟩ := h.inRange r hr happroves
  have hk : r.2.pageNumber - 1 < source.pages.length := by omega
  have hnumber : r.2.pageNumber - 1 + 1 = r.2.pageNumber := by omega
  have hbefore := List.getElem?_eq_getElem hk
  have hafter := List.getElem?_eq_getElem (h.length ▸ hk)
  refine ⟨_, _, _, hnumber, hbefore, hafter, fun i j hpaints => ?_⟩
  exact ((h.painted _ _ _ hbefore hafter).2.2 i j).1 ⟨r, hr, hnumber.symm, happroves, b, hb, hpaints⟩

/-- A span that the log does not let stand has been rejected last. -/
theorem LifeInv.rejected (hinv : LifeInv env s) (hintact : Intact env s.db) (hj : job ∈ s.db.jobs)
    (hst : job.status ∈ passedStates) {r : Span × Page} (hr : r ∈ s.db.spanRows job.documentId)
    (hnot : ¬ s.db.LogApproves job.id r.1.id) : s.db.LogExcuses job.id r.1.id := by
  have hdisposed := (hinv.jobs job hj).disposed (List.mem_cons_of_mem _ hst) r hr
  obtain ⟨e, he⟩ := Option.isSome_iff_exists.mp ((hinv.reviewed.agree.isSome_iff r.1.id).mp hdisposed)
  rw [← hinv.reviewed.lastEntry_eq hj hr, ← entriesBySequence_eq (hintact job.id)] at he
  refine Or.inl ⟨e, he, ?_⟩
  by_contra hne
  exact hnot ⟨e, he, hne⟩

/-- What a span stands for is black, or the log excuses the span. -/
theorem StandsFor.settled {hit : Nat × CandidateSpan} {r : Span × Page} (h : StandsFor s.db hit r)
    (hpainted : PaintedByLog env s job original source pages) (hinv : LifeInv env s)
    (hintact : Intact env s.db) (hj : job ∈ s.db.jobs) (hst : job.status ∈ passedStates)
    (hr : r ∈ s.db.spanRows job.documentId) {b : BBox} (hb : b ∈ hit.2.bboxes) :
    s.db.LogExcuses job.id r.1.id ∨ Blackened source pages hit.1 b := by
  rcases h.found with ⟨-, hboxes⟩ | ⟨e, he, habout, haction⟩
  · by_cases happroves : s.db.LogApproves job.id r.1.id
    · rw [← h.pageNumber]
      exact Or.inr (hpainted.blackened hr happroves (hboxes ▸ List.mem_map_of_mem hb))
    · exact Or.inl (hinv.rejected hintact hj hst hr happroves)
  · refine Or.inl (Or.inr ⟨e, ?_, habout, haction⟩)
    rw [entriesBySequence_eq (hintact job.id)]
    exact List.mem_filter.mpr ⟨he, decide_eq_true (hinv.reviewed.entry_job hj hr he habout)⟩

end

/-- **Whatever is found is black in the stored PDF, or the log says who let it through.**
The detectors are those that the service registers.  Operations of any kind run one at a
time, each failing or dying at any point.  In every state of the run, for every job that
has passed the gate: take any finding of either tier on any page of the original, before
the tiers are merged, and any word of that page that shares a character with it.  Under
the page lies a span of the category of the finding, and either its last entry is a
rejection, or some entry says that it was edited, or the box of the word is black in the
stored PDF. -/
theorem findings_settled (env : Env) (isValidEmail : String → Bool)
    (analyzeIterator : List String → Except Exn (List (List RecognizerResult)))
    (hdetectors : DetectorsRegistered env isValidEmail analyzeIterator) (world : World)
    (operations : List Operation) (hops : ∀ jobId, .failJob jobId ∉ operations) (S : Pipeline)
    (hr : Sys.Run Guard.serial (Pipeline.start env ⟨Database.empty, world⟩ operations) S)
    (job : RedactionJob) (hj : job ∈ S.shared.db.jobs) (hst : job.status ∈ passedStates) :
    ∃ original source pages items, PaintedByLog env S.shared job original source pages ∧
      detectedPages env original = .ok items ∧
      FindingsSettled env S.shared.db job source pages items := by
  have hinv := hits_of_run hops hr
  have hintact : Intact env S.shared.db := chains_of_run (fun _ => HashChain.chain_nil _) hr
  obtain ⟨original, source, pages, hpainted⟩ :=
    hinv.toLifeInv.paintedByLog hintact (boxed_of_run hr) hj hst
  have hdetected : job.status ∈ detectedStates := by
    revert hst
    cases job.status <;> decide
  obtain ⟨original', hits, horiginal, hhits, detected, added, hrows, hstands, -⟩ :=
    hinv.persisted job hj hdetected
  rw [hpainted.storedOriginal] at horiginal
  cases horiginal
  obtain ⟨items, hitems, hhits⟩ := bind_ok hhits
  cases hhits
  refine ⟨original, source, pages, items, hpainted, hitems, ?_⟩
  intro item hitem finding hfinding word hword offset hcovers hstart hstop
  have hfromPage : ∀ f ∈ findings env item, FromPage item.1 f := by
    obtain ⟨extractions, -, hrest⟩ := bind_ok hitems
    obtain ⟨tier2ByPage, htier2, hzip⟩ := bind_ok hrest
    exact hdetectors.fromPage htier2 hzip item hitem
  -- the merge keeps the offset covered, by a hit with the boxes of its range
  obtain ⟨hit, hhit, hcategory, hlow, hhigh⟩ :=
    (covered_dedupe finding.category offset).mpr ⟨finding, hfinding, rfl, hstart, hstop⟩
  have hmem : (item.1.pageNumber, hit) ∈ pageHits env items :=
    List.mem_flatMap.mpr ⟨item, hitem, List.mem_map.mpr ⟨hit, hhit, rfl⟩⟩
  have hbox : word.bbox ∈ hit.bboxes := by
    rw [(fromPage_dedupe hfromPage hit hhit).bboxes]
    exact List.mem_map_of_mem (List.mem_filter.mpr ⟨hword,
      decide_eq_true ⟨lt_of_le_of_lt hcovers.1 hhigh, lt_of_le_of_lt hlow hcovers.2⟩⟩)
  obtain ⟨r, hrow, hstandsFor⟩ := exists_of_forall₂ hstands hmem
  have hr' : r ∈ S.shared.db.spanRows job.documentId := hrows ▸ List.mem_append_left _ hrow
  exact ⟨r, hr', hstandsFor.pageNumber, hstandsFor.category.trans hcategory,
    hstandsFor.settled hpainted hinv.toLifeInv hintact hj hst hr' hbox⟩

/-! ### A name that is found, approved and painted -/

def firstCharacter (texts : List String) : Except Exn (List (List RecognizerResult)) :=
  .ok (texts.map fun _ => [⟨"PERSON", 0, 1, 1 / 2⟩])

def registeredEnv : Env :=
  { Env.letter id with
    tier1Detectors := tier1Detectors id fun _ => true
    detectEntitiesBatch := detectEntitiesBatch firstCharacter }

def approvedOperations : List Operation :=
  [.createJob sampleAdmin ⟨some "a.pdf", some pdfContentType, [0]⟩,
   .deliver (.ingestJob 4), .deliver (.detectJob 4),
   .createDispositions sampleAdmin 4 approveDetected,
   .postApply sampleAdmin 4, .deliver (.applyJob 4 (some 3))]

def untilVerified : List Nat := untilApproved ++ List.replicate 7 4 ++ List.replicate 19 5

theorem findings_settled_name :
    ∃ S job source pages items, (Pipeline.start registeredEnv ⟨Database.empty, World.empty⟩
        approvedOperations).replayWhere Sys.serialStep (numbered untilVerified) = some S ∧
      job ∈ S.shared.db.jobs ∧ job.status = .verified ∧
      detectedPages registeredEnv [0] = .ok items ∧ items.map (·.2.length) = [1] ∧
      FindingsSettled registeredEnv S.shared.db job source pages items := by
  have hsome : ((Pipeline.start registeredEnv ⟨Database.empty, World.empty⟩
      approvedOperations).replayWhere Sys.serialStep (numbered untilVerified)).map (fun S =>
        (S.shared.db.jobs.map (fun job => (job.status, job.documentId)),
          S.shared.world.objects (Keys.originalPdfKey 1))) =
      some ([(.verified, 1)], some [0]) := by decide +kernel
  obtain ⟨S, hS, hstate⟩ := Option.map_eq_some_iff.mp hsome
  obtain ⟨hjobs, hobject⟩ := Prod.mk.inj hstate
  obtain ⟨job, hj, hjob⟩ := List.exists_of_mem_map (hjobs ▸ List.mem_cons_self :
    (JobStatus.verified, (1 : UUID)) ∈ S.shared.db.jobs.map fun job => (job.status, job.documentId))
  obtain ⟨hst, hdocument⟩ := Prod.mk.inj hjob
  obtain ⟨original, source, pages, items, hpainted, hitems, hsettled⟩ :=
    findings_settled registeredEnv (fun _ => true) firstCharacter ⟨rfl, rfl⟩ World.empty
      approvedOperations (fun jobId h => by simp [approvedOperations] at h) S
      (Sys.run_of_replayWhere Guard.serial_of_serialStep hS) job hj (by rw [hst]; decide)
  have horiginal := hpainted.storedOriginal
  rw [hdocument, hobject] at horiginal
  cases horiginal
  have hone : (detectedPages registeredEnv [0]).map (List.map (·.2.length)) = .ok [1] := by
    decide +kernel
  rw [hitems] at hone
  exact ⟨S, job, source, pages, items, hS, hj, hst, hitems, Except.ok.inj hone, hsettled⟩

end RedactApi
