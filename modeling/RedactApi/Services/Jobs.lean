import RedactApi.Services.RedactionJob

/-!
# Dispositions and the projection of approved spans

`services/jobs_service.py`: the four reviewer verbs, applied item by item in the
caller's transaction, and the projection of the approved spans into what the
burn-in consumes.
-/

namespace RedactApi

open ReadCommitted

/-! ### Request items -/

inductive ExistingItem
  | approve (spanId : UUID) (reason : Option String)
  | reject (spanId : UUID) (reason : Option String)
  | edit (spanId : UUID) (text : String) (bboxes : Option (List BBox)) (reason : Option String)
  deriving DecidableEq, Repr

def ExistingItem.spanId : ExistingItem → UUID
  | .approve id _ | .reject id _ | .edit id _ _ _ => id

def ExistingItem.reason : ExistingItem → Option String
  | .approve _ r | .reject _ r | .edit _ _ _ r => r

def ExistingItem.isEdit : ExistingItem → Bool
  | .edit _ _ _ _ => true
  | _ => false

def ExistingItem.newText : ExistingItem → Option String
  | .edit _ text _ _ => some text
  | _ => none

def ExistingItem.newBboxes : ExistingItem → Option (List BBox)
  | .edit _ _ bboxes _ => bboxes
  | _ => none

/-- A manual span; the schema requires a page number of at least one. -/
structure AddManualSpanItem where
  pageNumber : Nat
  bboxes : List BBox
  text : String
  category : String
  reason : Option String
  pageNumber_ge : 1 ≤ pageNumber
  deriving DecidableEq, Repr

inductive DispositionItem
  | existing (item : ExistingItem)
  | addManualSpan (item : AddManualSpanItem)
  deriving DecidableEq, Repr

/-- A batch; the schema requires at least one item. -/
structure DispositionBatchRequest where
  items : List DispositionItem
  items_ne : items ≠ []
  deriving DecidableEq, Repr

structure DispositionBatchResult where
  applied : Nat
  skipped : Nat
  spansCreated : Nat
  deriving DecidableEq, Repr

/-! ### Verbs and pure helpers -/

def dispositionActionByVerb : ExistingItem → DispositionAction
  | .approve _ _ => .approved
  | .reject _ _ => .rejected
  | .edit _ _ _ _ => .approved

def auditActionByVerb : ExistingItem → AuditAction
  | .approve _ _ => .approved
  | .reject _ _ => .rejected
  | .edit _ _ _ _ => .edited

/-- `tuple(bbox)` of a box at rest, in the shape `ApprovedSpan` accepts. -/
def BBox.ofList : List ℚ → Except Exn BBox
  | [x0, y0, x1, y1] => .ok ⟨x0, y0, x1, y1⟩
  | _ => .error .validation

theorem BBox.ofList_toList (b : BBox) : BBox.ofList b.toList = .ok b := rfl

/-- A stored span as the burn-in sees it; a malformed box is a validation error. -/
def buildApprovedSpan (pageNumber : Nat) (bboxes : List (List ℚ)) (text : String) :
    Except Exn ApprovedSpan := do
  let boxes ← bboxes.mapM BBox.ofList
  .ok ⟨pageNumber, boxes, text⟩

def dispositionNeedsChange (existingAction : Option DispositionAction)
    (desiredAction : DispositionAction) (isEdit : Bool) (currentText newText : Option String) :
    Bool :=
  if existingAction ≠ some desiredAction then true else isEdit ∧ currentText ≠ newText

/-- Stored boxes are compared as the numbers that were stored. -/
def bboxesDiffer (currentBboxes : List (List ℚ)) (newBboxes : List BBox) : Bool :=
  currentBboxes ≠ newBboxes.map BBox.toList

/-! ### Projection -/

/-- Approved spans of a document with their page numbers, by page and span id. -/
def Database.approvedRows (db : Database) (documentId : UUID) : List (Span × Nat) :=
  (((db.spanRows documentId).filter fun r =>
      db.dispositions.any fun d => d.spanId = r.1.id ∧ d.action = .approved).map
    fun r => (r.1, r.2.pageNumber)).insertionSort fun a b =>
      a.2 < b.2 ∨ a.2 = b.2 ∧ a.1.id ≤ b.1.id

def Database.approvedSpans (db : Database) (documentId : UUID) : Except Exn (List ApprovedSpan) :=
  (db.approvedRows documentId).mapM fun r => buildApprovedSpan r.2 r.1.bboxes r.1.text

def projectApprovedSpans (job : RedactionJob) : Tx (List ApprovedSpan) := do
  let rows ← Prog.query (·.approvedSpans job.documentId)
  liftExcept rows

/-! ### Disposition batch -/

def spanNotFoundMessage (spanId jobId : UUID) : String :=
  s!"Span {spanId.str} not found for job {jobId.str}"

/-- The row as it stands.  Loaded again in one session, as for a second item on a span, the
code gets the object the session already holds; it differs from the row only if another
session has committed a change of it in between. -/
def loadJobSpan (job : RedactionJob) (spanId : UUID) : Tx Span := do
  match ← Prog.query fun db => (db.spanRows job.documentId).find? (·.1.id = spanId) with
  | some row => return row.1
  | none => .raise (.spanNotFound (spanNotFoundMessage spanId job.id))

/-- Whether an item writes anything: its disposition, its text or its boxes. -/
def itemNeedsChange (span : Span) (existing : Option Disposition) (item : ExistingItem) : Bool :=
  dispositionNeedsChange (existing.map (·.action)) (dispositionActionByVerb item) item.isEdit
      (some span.text) item.newText ||
    match item.newBboxes with
    | some bboxes => bboxesDiffer span.bboxes bboxes
    | none => false

def editedSpan (span : Span) (item : ExistingItem) : Span :=
  { span with
    text := item.newText.getD span.text
    bboxes := match item.newBboxes with
      | some bboxes => bboxes.map BBox.toList
      | none => span.bboxes }

def writeSpan (span : Span) (item : ExistingItem) : Tx Span :=
  if item.isEdit then do
    Prog.send (.updateSpan span (editedSpan span item))
    return editedSpan span item
  else return span

/-- Update the disposition of the span, or insert its first. -/
def writeDisposition (spanId : UUID) (existing : Option Disposition) (action : DispositionAction)
    (reviewerId : UUID) (reason : Option String) : Tx Unit :=
  match existing with
  | some disposition =>
    Prog.send (.updateDisposition disposition
      { disposition with action := action, reviewerId := reviewerId, reason := reason })
  | none => do
    let id ← genRandomUuid
    Prog.send (.insertDisposition ⟨id, spanId, action, reason, reviewerId⟩)

/-- Approve, reject or edit a span; tells whether anything was written. -/
def applyExistingSpanDisposition (env : Env) (job : RedactionJob) (item : ExistingItem)
    (reviewerId : UUID) : Tx Bool := do
  let span ← loadJobSpan job item.spanId
  let existing ← Prog.query (·.disposition? span.id)
  if itemNeedsChange span existing item then do
    let span ← writeSpan span item
    writeDisposition span.id existing (dispositionActionByVerb item) reviewerId item.reason
    let _ ← appendAuditEntry env job.id
      { action := auditActionByVerb item
        category := span.category
        text := some span.text
        reviewerId := reviewerId
        spanId := some span.id }
    return true
  else return false

def Database.page? (db : Database) (documentId : UUID) (pageNumber : Nat) : Option Page :=
  db.pages.find? fun page => page.documentId = documentId ∧ page.pageNumber = pageNumber

def getOrCreatePage (documentId : UUID) (pageNumber : Nat) : Tx Page := do
  match ← Prog.query (·.page? documentId pageNumber) with
  | some page => return page
  | none => do
    let id ← genRandomUuid
    let page : Page := ⟨id, documentId, pageNumber⟩
    Prog.send (.insertPage page)
    return page

/-- A manual span with its approved disposition and its audit entry. -/
def addManualSpan (env : Env) (job : RedactionJob) (item : AddManualSpanItem) (reviewerId : UUID) :
    Tx Unit := do
  let page ← getOrCreatePage job.documentId item.pageNumber
  let id ← genRandomUuid
  let span : Span := ⟨id, page.id, item.bboxes.map BBox.toList, item.text, item.category, .manual, none⟩
  Prog.send (.insertSpan span)
  writeDisposition span.id none .approved reviewerId item.reason
  let _ ← appendAuditEntry env job.id
    { action := .manualSpanAdded
      category := item.category
      text := some item.text
      reviewerId := reviewerId
      spanId := some span.id }
  return ()

def applyItem (env : Env) (job : RedactionJob) (reviewerId : UUID)
    (result : DispositionBatchResult) : DispositionItem → Tx DispositionBatchResult
  | .addManualSpan item => do
    addManualSpan env job item reviewerId
    return { result with spansCreated := result.spansCreated + 1, applied := result.applied + 1 }
  | .existing item => do
    if ← applyExistingSpanDisposition env job item reviewerId then
      return { result with applied := result.applied + 1 }
    else return { result with skipped := result.skipped + 1 }

def applyDispositionBatch (env : Env) (job : RedactionJob) (items : List DispositionItem)
    (reviewerId : UUID) : Tx DispositionBatchResult :=
  items.foldlM (applyItem env job reviewerId) ⟨0, 0, 0⟩

/-! ### What a batch writes

A transaction's pending writes are described by the items they come from and by
what was read for them.  Each read saw some database that `seen` holds of, under
the writes pending by then. -/

def dispositionWrite (newId spanId : UUID) (existing : Option Disposition)
    (action : DispositionAction) (reviewerId : UUID) (reason : Option String) : Write :=
  match existing with
  | some disposition => .updateDisposition disposition
      { disposition with action := action, reviewerId := reviewerId, reason := reason }
  | none => .insertDisposition ⟨newId, spanId, action, reason, reviewerId⟩

def spanWrites (span : Span) (item : ExistingItem) : List Write :=
  if item.isEdit then [.updateSpan span (editedSpan span item)] else []

def existingEvent (span : Span) (item : ExistingItem) (reviewerId : UUID) : AuditEntryInput :=
  { action := auditActionByVerb item
    category := span.category
    text := some (editedSpan span item).text
    reviewerId := reviewerId
    spanId := some span.id }

def manualEvent (spanId : UUID) (item : AddManualSpanItem) (reviewerId : UUID) : AuditEntryInput :=
  { action := .manualSpanAdded
    category := item.category
    text := some item.text
    reviewerId := reviewerId
    spanId := some spanId }

def manualSpan (id pageId : UUID) (item : AddManualSpanItem) : Span :=
  ⟨id, pageId, item.bboxes.map BBox.toList, item.text, item.category, .manual, none⟩

/-- The pending writes of a batch of items on a job. -/
inductive BatchWrites (env : Env) (seen : Shared Database World → Prop) (job : RedactionJob)
    (reviewerId : UUID) : List Write → Prop
  | nil : BatchWrites env seen job reviewerId []
  | existing {p : List Write} {item : ExistingItem} {span : Span} {page : Page}
      {existing : Option Disposition} {newId id organizationId : UUID} {createdAt : DateTime}
      {s₁ s₂ s₃ : Shared Database World} : BatchWrites env seen job reviewerId p →
      seen s₁ → seen s₂ → seen s₃ →
      (span, page) ∈ (view s₁.db p).spanRows job.documentId → span.id = item.spanId →
      existing = (view s₂.db p).disposition? span.id →
      itemNeedsChange span existing item = true →
      BatchWrites env seen job reviewerId
        (p ++ spanWrites span item ++
          [dispositionWrite newId span.id existing (dispositionActionByVerb item) reviewerId
            item.reason] ++
          [.insertAudit (makeEntry env id job.id organizationId (existingEvent span item reviewerId)
            (nextChainLink (view s₃.db (p ++ spanWrites span item ++
              [dispositionWrite newId span.id existing (dispositionActionByVerb item) reviewerId
                item.reason])) job.id) createdAt)])
  | page {p : List Write} {row : Page} : BatchWrites env seen job reviewerId p →
      row.documentId = job.documentId → 1 ≤ row.pageNumber →
      BatchWrites env seen job reviewerId (p ++ [.insertPage row])
  | manual {p : List Write} {item : AddManualSpanItem} {page : Page}
      {spanId dispositionId id organizationId : UUID} {createdAt : DateTime}
      {s₁ s₂ : Shared Database World} : BatchWrites env seen job reviewerId p → seen s₁ → seen s₂ →
      page ∈ (view s₁.db p).pages → page.documentId = job.documentId →
      page.pageNumber = item.pageNumber →
      BatchWrites env seen job reviewerId
        (p ++ [.insertSpan (manualSpan spanId page.id item)] ++
          [.insertDisposition ⟨dispositionId, spanId, .approved, item.reason, reviewerId⟩] ++
          [.insertAudit (makeEntry env id job.id organizationId (manualEvent spanId item reviewerId)
            (nextChainLink (view s₂.db (p ++ [.insertSpan (manualSpan spanId page.id item)] ++
              [.insertDisposition ⟨dispositionId, spanId, .approved, item.reason, reviewerId⟩]))
              job.id) createdAt)])

theorem BatchWrites.mono {env : Env} {seen seen' : Shared Database World → Prop}
    {job : RedactionJob} {reviewerId : UUID} {p : List Write} (hseen : ∀ s, seen s → seen' s)
    (h : BatchWrites env seen job reviewerId p) : BatchWrites env seen' job reviewerId p := by
  induction h with
  | nil => exact .nil
  | existing _ h₁ h₂ h₃ hrow hid hex hneeds ih =>
    exact .existing ih (hseen _ h₁) (hseen _ h₂) (hseen _ h₃) hrow hid hex hneeds
  | page _ hd hn ih => exact .page ih hd hn
  | manual _ h₁ h₂ hm hd hn ih => exact .manual ih (hseen _ h₁) (hseen _ h₂) hm hd hn

section

variable {C : Contract Database Write World Input Exn} {s : Shared Database World} {p : List Write}
  {E : Exn → Shared Database World → List Write → Prop}

theorem wp_loadJobSpan {job : RedactionJob} {spanId : UUID}
    {Q : Span → Shared Database World → List Write → Prop} (hE : C.Escapes E s)
    (hQ : ∀ s' span page, C.After s s' → (span, page) ∈ (view s'.db p).spanRows job.documentId →
      span.id = spanId → Q span s' p) : C.wp (loadJobSpan job spanId) Q E s p := by
  refine Contract.wp_bind (Contract.wp_query hE.fault fun s' hn => ?_)
  cases hrow : ((view s'.db p).spanRows job.documentId).find? (·.1.id = spanId) with
  | none => exact hE _ s' p hn.after
  | some row =>
    exact hQ s' row.1 row.2 hn.after (List.mem_of_find?_eq_some hrow)
      (by simpa using List.find?_some hrow)

theorem wp_writeSpan {span : Span} {item : ExistingItem}
    {Q : Span → Shared Database World → List Write → Prop} (hi : C.inv s) (hE : C.Escapes E s)
    (hQ : ∀ s', C.After s s' → Q (editedSpan span item) s' (p ++ spanWrites span item)) :
    C.wp (writeSpan span item) Q E s p := by
  rw [writeSpan]
  rw [spanWrites] at hQ
  split
  · rename_i h
    rw [if_pos h] at hQ
    exact Contract.wp_bind (Contract.wp_send hE fun s' hn _ => hQ s' hn.after)
  · rename_i h
    rw [if_neg h, List.append_nil] at hQ
    have hsame : editedSpan span item = span := by
      cases item with
      | edit id text bboxes reason => exact absurd rfl h
      | _ => rfl
    rw [hsame] at hQ
    exact hQ s (.self hi)

theorem wp_writeDisposition {spanId : UUID} {existing : Option Disposition}
    {action : DispositionAction} {reviewerId : UUID} {reason : Option String}
    {Q : Unit → Shared Database World → List Write → Prop} (hE : C.Escapes E s)
    (hQ : ∀ s' newId, C.After s s' →
      Q () s' (p ++ [dispositionWrite newId spanId existing action reviewerId reason])) :
    C.wp (writeDisposition spanId existing action reviewerId reason) Q E s p := by
  cases existing with
  | some disposition => exact Contract.wp_send hE fun s' hn _ => hQ s' 0 hn.after
  | none =>
    refine Contract.wp_bind (wp_genRandomUuid hE fun s₁ i hn₁ _ => ?_)
    exact Contract.wp_send (hE.after hn₁.after) fun s₂ hn₂ _ =>
      hQ s₂ i.uuid (hn₁.after.trans hn₂.after)

theorem wp_getOrCreatePage {documentId : UUID} {pageNumber : Nat}
    {Q : Page → Shared Database World → List Write → Prop} (hE : C.Escapes E s)
    (hQ : ∀ page s' p', C.After s s' → p' = p ∨ p' = p ++ [.insertPage page] →
      page ∈ (view s'.db p').pages → page.documentId = documentId →
      page.pageNumber = pageNumber → Q page s' p') :
    C.wp (getOrCreatePage documentId pageNumber) Q E s p := by
  refine Contract.wp_bind (Contract.wp_query hE.fault fun s₁ hn₁ => ?_)
  cases hpage : (view s₁.db p).page? documentId pageNumber with
  | some page =>
    have hp := List.find?_some hpage
    rw [decide_eq_true_eq] at hp
    exact hQ page s₁ p hn₁.after (Or.inl rfl) (List.mem_of_find?_eq_some hpage) hp.1 hp.2
  | none =>
    have hE₁ := hE.after hn₁.after
    refine Contract.wp_bind (wp_genRandomUuid hE₁ fun s₂ i hn₂ _ => ?_)
    refine Contract.wp_bind (Contract.wp_send (hE₁.after hn₂.after) fun s₃ hn₃ _ => ?_)
    refine hQ _ s₃ _ ((hn₁.after.trans hn₂.after).trans hn₃.after) (Or.inr rfl) ?_ rfl rfl
    rw [view_concat]
    exact List.mem_append_right _ List.mem_cons_self

/-- A batch in progress: every read so far lies between its start and now. -/
def Batching (C : Contract Database Write World Input Exn) (env : Env) (job : RedactionJob)
    (reviewerId : UUID) (s₀ s : Shared Database World) (p : List Write) : Prop :=
  C.After s₀ s ∧ BatchWrites env (C.Between s₀ s) job reviewerId p

theorem Batching.later {env : Env} {job : RedactionJob} {reviewerId : UUID}
    {s₀ s' : Shared Database World} (h : Batching C env job reviewerId s₀ s p) (hl : C.After s s') :
    Batching C env job reviewerId s₀ s' p :=
  ⟨h.1.trans hl, h.2.mono fun _ ht => ht.later hl.past⟩

/-- **One item on an existing span** writes nothing, or its group. -/
theorem wp_applyExistingSpanDisposition {env : Env} {job : RedactionJob} {item : ExistingItem}
    {reviewerId : UUID} {s₀ : Shared Database World} (hE : C.Escapes E s₀)
    (h : Batching C env job reviewerId s₀ s p) :
    C.wp (applyExistingSpanDisposition env job item reviewerId)
      (fun _ s' p' => Batching C env job reviewerId s₀ s' p') E s p := by
  have hE₀ := hE.after h.1
  refine Contract.wp_bind (wp_loadJobSpan hE₀ fun s₁ span page h₁ hrow hid => ?_)
  have hE₁ := hE₀.after h₁
  refine Contract.wp_bind (Contract.wp_query hE₁.fault fun s₂ hn₂ => ?_)
  have h₂ := hn₂.after
  have hE₂ := hE₁.after h₂
  show C.wp (if itemNeedsChange span ((view s₂.db p).disposition? span.id) item then _ else _) _ _ _ _
  split
  · rename_i hneeds
    refine Contract.wp_bind (wp_writeSpan hn₂.inv hE₂ fun s₃ h₃ => ?_)
    have hE₃ := hE₂.after h₃
    refine Contract.wp_bind (wp_writeDisposition hE₃ fun s₄ newId h₄ => ?_)
    refine Contract.wp_bind (wp_appendAuditEntry (hE₃.after h₄) ?_)
    intro s₅ s₆ s₇ row id createdAt entry hn₅ hn₆ hn₇ _ _ he _
    -- the three reads: the span at `s₁`, its disposition at `s₂`, the chain at `s₆`
    have h₂₆ := (h₃.trans h₄).trans (hn₅.trans hn₆).after
    have h₆ := hn₇.after
    have h₀₁ := h.1.trans h₁
    have h₀₂ := h₀₁.trans h₂
    refine ⟨(h₀₂.trans h₂₆).trans h₆, ?_⟩
    rw [he]
    refine .existing (h.later (((h₁.trans h₂).trans h₂₆).trans h₆)).2
      ⟨h₀₁.past, ((h₂.trans h₂₆).trans h₆).past⟩ ⟨h₀₂.past, (h₂₆.trans h₆).past⟩
      ⟨(h₀₂.trans h₂₆).past, h₆.past⟩ hrow hid rfl hneeds
  · exact h.later (h₁.trans h₂)

/-- **A manual span** writes its page if it is new, and its group. -/
theorem wp_addManualSpan {env : Env} {job : RedactionJob} {item : AddManualSpanItem}
    {reviewerId : UUID} {s₀ : Shared Database World} (hE : C.Escapes E s₀)
    (h : Batching C env job reviewerId s₀ s p) :
    C.wp (addManualSpan env job item reviewerId)
      (fun _ s' p' => Batching C env job reviewerId s₀ s' p') E s p := by
  have hE₀ := hE.after h.1
  refine Contract.wp_bind (wp_getOrCreatePage hE₀ fun page s₁ p₁ h₁ hp₁ hmem hdoc hnum => ?_)
  have hbatch : Batching C env job reviewerId s₀ s₁ p₁ := by
    rcases hp₁ with rfl | rfl
    · exact h.later h₁
    · exact ⟨h.1.trans h₁, .page (h.later h₁).2 hdoc (hnum ▸ item.pageNumber_ge)⟩
  have hE₁ := hE₀.after h₁
  refine Contract.wp_bind (wp_genRandomUuid hE₁ fun s₂ i hn₂ _ => ?_)
  have hE₂ := hE₁.after hn₂.after
  refine Contract.wp_bind (Contract.wp_send hE₂ fun s₃ hn₃ _ => ?_)
  have hE₃ := hE₂.after hn₃.after
  refine Contract.wp_bind (wp_writeDisposition hE₃ fun s₄ dispositionId h₄ => ?_)
  refine Contract.wp_bind (wp_appendAuditEntry (hE₃.after h₄) ?_)
  intro s₅ s₆ s₇ row id createdAt entry hn₅ hn₆ hn₇ _ _ he _
  have h₁₆ := ((hn₂.after.trans hn₃.after).trans h₄).trans (hn₅.trans hn₆).after
  have h₆ := hn₇.after
  have h₀₁ := h.1.trans h₁
  refine ⟨(h₀₁.trans h₁₆).trans h₆, ?_⟩
  rw [he]
  exact .manual (hbatch.later (h₁₆.trans h₆)).2 ⟨h₀₁.past, (h₁₆.trans h₆).past⟩
    ⟨(h₀₁.trans h₁₆).past, h₆.past⟩ hmem hdoc hnum

/-- **A batch** writes the groups of its items, in order. -/
theorem wp_applyDispositionBatch {env : Env} {job : RedactionJob} {items : List DispositionItem}
    {reviewerId : UUID} {Q : DispositionBatchResult → Shared Database World → List Write → Prop}
    (hi : C.inv s) (hE : C.Escapes E s)
    (hQ : ∀ result s' p', Batching C env job reviewerId s s' p' → Q result s' p') :
    C.wp (applyDispositionBatch env job items reviewerId) Q E s [] := by
  refine Contract.wp_mono (fun result s' p' h => hQ result s' p' h) (fun _ _ _ h => h) _
    (Contract.wp_foldlM (I := fun _ s' p' => Batching C env job reviewerId s s' p') ?_
      ⟨.self hi, .nil⟩)
  intro item _ result s' p' h
  cases item with
  | existing item =>
    refine Contract.wp_bind (Contract.wp_mono (fun changed s'' p'' h' => ?_) (fun _ _ _ he => he) _
      (wp_applyExistingSpanDisposition hE h))
    cases changed <;> exact h'
  | addManualSpan item =>
    exact Contract.wp_bind (Contract.wp_mono (fun _ s'' p'' h' => h') (fun _ _ _ he => he) _
      (wp_addManualSpan hE h))

end

end RedactApi
