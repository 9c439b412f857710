import RedactApi.Detection.Tier2
import RedactApi.Services.Jobs

/-!
# Detection

`services/detection_service.py`: the detectors run over the page models and each
surviving candidate becomes a span under its page.  The service has its own
`_get_or_create_page`, word for word the one of the job service.
-/

namespace RedactApi

open ReadCommitted

/-- Tier 1 on one page, with Tier 2 deduplicated against it. -/
def detectPage (env : Env) (page : PageModel) (tier2Spans : List CandidateSpan) :
    List CandidateSpan :=
  dedupeTier2AgainstTier1 page (env.tier1Detectors.flatMap fun detector => detector page)
    tier2Spans

def candidateToSpan (id pageId : UUID) (candidate : CandidateSpan) : Span :=
  ⟨id, pageId, candidate.bboxes.map BBox.toList, candidate.text, candidate.category,
    candidate.sourceTier, some candidate.confidence⟩

def addCandidate (pageId : UUID) (candidate : CandidateSpan) : Tx Unit := do
  let id ← genRandomUuid
  Prog.send (.insertSpan (candidateToSpan id pageId candidate))

/-- The candidates of one page; a page without candidates leaves no row. -/
def detectOnPage (env : Env) (documentId : UUID) (totalSpans : Nat)
    (item : PageModel × List CandidateSpan) : Tx Nat :=
  let candidates := detectPage env item.1 item.2
  if candidates.isEmpty then return totalSpans
  else do
    let dbPage ← getOrCreatePage documentId item.1.pageNumber
    candidates.forM (addCandidate dbPage.id)
    return totalSpans + candidates.length

/-- `zip(pages, tier2_by_page, strict=True)`. -/
def zipStrict {α β : Type} (as : List α) (bs : List β) : Except Exn (List (α × β)) :=
  if as.length = bs.length then .ok (as.zip bs)
  else .error (.value "zip() arguments have different lengths")

def runDetection (env : Env) (documentId : UUID) (pages : List PageModel) : Tx Nat := do
  let tier2ByPage ← compute (env.detectEntitiesBatch pages)
  let items ← liftExcept (zipStrict pages tier2ByPage)
  items.foldlM (detectOnPage env documentId) 0

/-! ### What detection writes -/

/-- The pending writes of a detection on a document. -/
inductive DetectedWrites (seen : Shared Database World → Prop) (documentId : UUID) :
    List Write → Prop
  | nil : DetectedWrites seen documentId []
  | page {p : List Write} {row : Page} : DetectedWrites seen documentId p →
      row.documentId = documentId → 1 ≤ row.pageNumber →
      DetectedWrites seen documentId (p ++ [.insertPage row])
  | span {p : List Write} {id : UUID} {page : Page} {candidate : CandidateSpan}
      {s : Shared Database World} : DetectedWrites seen documentId p → seen s →
      page ∈ (view s.db p).pages → page.documentId = documentId →
      DetectedWrites seen documentId (p ++ [.insertSpan (candidateToSpan id page.id candidate)])

theorem DetectedWrites.mono {seen seen' : Shared Database World → Prop} {documentId : UUID}
    {p : List Write} (hseen : ∀ s, seen s → seen' s) (h : DetectedWrites seen documentId p) :
    DetectedWrites seen' documentId p := by
  induction h with
  | nil => exact .nil
  | page _ hd hn ih => exact .page ih hd hn
  | span _ hs hm hd ih => exact .span ih (hseen _ hs) hm hd

/-- The spans are put on pages of one kind. -/
def OnPages (seen : Shared Database World → Prop) (kind : Page → Prop) (p : List Write) : Prop :=
  ∀ row, .insertSpan row ∈ p → ∃ s page, seen s ∧ page ∈ (view s.db p).pages ∧
    page.id = row.pageId ∧ kind page

theorem onPages_nil (seen : Shared Database World → Prop) (kind : Page → Prop) :
    OnPages seen kind [] := fun _ h => absurd h List.not_mem_nil

theorem OnPages.mono {seen seen' : Shared Database World → Prop} {kind kind' : Page → Prop}
    {p : List Write} (hseen : ∀ s, seen s → seen' s) (hkind : ∀ page, kind page → kind' page)
    (h : OnPages seen kind p) : OnPages seen' kind' p := by
  intro row hrow
  obtain ⟨s, page, hs, hmem, hid, hk⟩ := h row hrow
  exact ⟨s, page, hseen s hs, hmem, hid, hkind _ hk⟩

theorem OnPages.concat {seen : Shared Database World → Prop} {kind : Page → Prop} {p : List Write}
    {w : Write} (h : OnPages seen kind p) (hw : ∀ row, w = .insertSpan row → ∃ s page, seen s ∧
      page ∈ (view s.db p).pages ∧ page.id = row.pageId ∧ kind page) :
    OnPages seen kind (p ++ [w]) := by
  intro row hrow
  obtain ⟨s, page, hs, hmem, hrest⟩ : ∃ s page, seen s ∧ page ∈ (view s.db p).pages ∧
      page.id = row.pageId ∧ kind page := by
    rcases List.mem_append.mp hrow with hrow | hrow
    · exact h row hrow
    · exact hw row (List.mem_singleton.mp hrow).symm
  refine ⟨s, page, hs, ?_, hrest⟩
  rw [view_append]
  exact Database.mem_pages_view hmem

section

variable {C : Contract Database Write World Input Exn} {s : Shared Database World} {p : List Write}
  {E : Exn → Shared Database World → List Write → Prop}

def Detecting (C : Contract Database Write World Input Exn) (s₀ : Shared Database World)
    (documentId : UUID) (page : Page) (s : Shared Database World) (p : List Write) : Prop :=
  C.After s₀ s ∧ DetectedWrites (C.past s₀) documentId p ∧
    ∃ s₁, C.past s₀ s₁ ∧ page ∈ (view s₁.db p).pages

theorem wp_addCandidate {s₀ : Shared Database World} {documentId : UUID} {page : Page}
    {candidate : CandidateSpan} {kind : Page → Prop} (hE : C.Escapes E s₀)
    (hdoc : page.documentId = documentId) (hkind : kind page)
    (h : Detecting C s₀ documentId page s p) (hon : OnPages (C.past s₀) kind p) :
    C.wp (addCandidate page.id candidate) (fun _ s' p' =>
      Detecting C s₀ documentId page s' p' ∧ OnPages (C.past s₀) kind p') E s p := by
  obtain ⟨h₀, hp, s₁, h₁, hmem⟩ := h
  have hE₀ := hE.after h₀
  refine Contract.wp_bind (wp_genRandomUuid hE₀ fun s₂ i hn₂ _ => ?_)
  refine Contract.wp_send (hE₀.after hn₂.after) fun s₃ hn₃ _ => ?_
  refine ⟨⟨(h₀.trans hn₂.after).trans hn₃.after, .span hp h₁ hmem hdoc, s₁, h₁, ?_⟩,
    hon.concat fun row hrow => ?_⟩
  · rw [view_append]
    exact Database.mem_pages_view hmem
  · cases hrow
    exact ⟨s₁, page, h₁, hmem, rfl, hkind⟩

theorem wp_detectOnPage {env : Env} {s₀ : Shared Database World} {documentId : UUID}
    {totalSpans : Nat} {item : PageModel × List CandidateSpan} {kind : Page → Prop}
    (hE : C.Escapes E s₀) (hpage : 1 ≤ item.1.pageNumber) (hkind : ∀ page : Page,
      page.documentId = documentId → page.pageNumber = item.1.pageNumber → kind page)
    (h₀ : C.After s₀ s) (hp : DetectedWrites (C.past s₀) documentId p)
    (hon : OnPages (C.past s₀) kind p) :
    C.wp (detectOnPage env documentId totalSpans item) (fun _ s' p' => C.After s₀ s' ∧
      DetectedWrites (C.past s₀) documentId p' ∧ OnPages (C.past s₀) kind p') E s p := by
  show C.wp (if (detectPage env item.1 item.2).isEmpty then _ else _) _ E s p
  split
  · exact ⟨h₀, hp, hon⟩
  refine Contract.wp_bind (wp_getOrCreatePage (hE.after h₀) fun page s₁ p₁ h₁ hp₁ hmem hdoc hnum => ?_)
  have hwrites : DetectedWrites (C.past s₀) documentId p₁ ∧ OnPages (C.past s₀) kind p₁ := by
    rcases hp₁ with rfl | rfl
    · exact ⟨hp, hon⟩
    · exact ⟨.page hp hdoc (hnum ▸ hpage), hon.concat fun _ h => by cases h⟩
  refine Contract.wp_bind (Contract.wp_mono (fun _ s' p' h' => ⟨h'.1.1, h'.1.2.1, h'.2⟩)
    (fun _ _ _ he => he) _ (Contract.wp_forM (I := fun s' p' =>
      Detecting C s₀ documentId page s' p' ∧ OnPages (C.past s₀) kind p') ?_ ?_))
  · exact fun candidate _ s' p' h' => wp_addCandidate hE hdoc (hkind page hdoc hnum) h'.1 h'.2
  · exact ⟨⟨h₀.trans h₁, hwrites.1, s₁, (h₀.trans h₁).past, hmem⟩, hwrites.2⟩

/-- **Detection** writes pages and spans of the document, the spans on pages that were
extracted. -/
theorem wp_runDetection {env : Env} {documentId : UUID} {pages : List PageModel}
    {Q : Nat → Shared Database World → List Write → Prop} (hE : C.Escapes E s)
    (hpages : ∀ page ∈ pages, 1 ≤ page.pageNumber)
    (hQ : ∀ n s' p', C.After s s' → DetectedWrites (C.past s) documentId p' →
      OnPages (C.past s) (fun row => row.documentId = documentId ∧
        ∃ page ∈ pages, page.pageNumber = row.pageNumber) p' → Q n s' p') :
    C.wp (runDetection env documentId pages) Q E s [] := by
  refine Contract.wp_bind (wp_compute hE fun s₁ tier2ByPage hn₁ _ => ?_)
  refine Contract.wp_bind (wp_liftExcept hn₁.inv (hE.after hn₁.after) fun items hitems => ?_)
  refine Contract.wp_mono (fun n s' p' h => hQ n s' p' h.1 h.2.1 h.2.2) (fun _ _ _ he => he) _
    (Contract.wp_foldlM (I := fun _ s' p' => C.After s s' ∧ DetectedWrites (C.past s) documentId p' ∧
      OnPages (C.past s) (fun row => row.documentId = documentId ∧
        ∃ page ∈ pages, page.pageNumber = row.pageNumber) p') ?_ ⟨hn₁.after, .nil, onPages_nil _ _⟩)
  rintro item hitem n s' p' ⟨h, hp, hon⟩
  have hmem : item.1 ∈ pages := by
    rw [zipStrict] at hitems
    split at hitems
    · cases hitems
      exact (List.of_mem_zip hitem).1
    · cases hitems
  exact wp_detectOnPage hE (hpages item.1 hmem)
    (fun page hdoc hnum => ⟨hdoc, item.1, hmem, hnum.symm⟩) h hp hon

end

end RedactApi
