import RedactApi.Pipeline.Review

/-!
# The items of a batch, one at a time

`ItemWrites` is what one item reads in the tables as they are and sends.  It is all that
the body of the loop over a batch does (`wp_applyItem_solo`), and a batch is a sequence of
it (`BatchRun`).

An item on an existing span is skipped if nothing would be written: `Asked` is the state
that the item asks for, `Skippable` the state in which it is skipped.
-/

namespace RedactApi

open ReadCommitted KeyedList

/-- What one item sends; the flag tells whether it is counted as applied. -/
inductive ItemWrites (env : Env) (job : RedactionJob) (reviewerId : UUID) (db : Database) :
    DispositionItem → Bool → List Write → Prop
  | skipped {item : ExistingItem} {span : Span} {page : Page} :
      (span, page) ∈ db.spanRows job.documentId → span.id = item.spanId →
      itemNeedsChange span (db.disposition? span.id) item = false →
      ItemWrites env job reviewerId db (.existing item) false []
  | existing {item : ExistingItem} {span : Span} {page : Page} {newId id organizationId : UUID}
      {link : String × Nat} {createdAt : DateTime} {entry : AuditEntry} :
      (span, page) ∈ db.spanRows job.documentId → span.id = item.spanId →
      itemNeedsChange span (db.disposition? span.id) item = true →
      entry = makeEntry env id job.id organizationId (existingEvent span item reviewerId) link
        createdAt →
      ItemWrites env job reviewerId db (.existing item) true
        (existingWrites span item (db.disposition? span.id) newId reviewerId entry)
  | manual {item : AddManualSpanItem} {page : Page} {spanId dispositionId id organizationId : UUID}
      {link : String × Nat} {createdAt : DateTime} {entry : AuditEntry} :
      db.page? job.documentId item.pageNumber = some page →
      entry = makeEntry env id job.id organizationId (manualEvent spanId item reviewerId) link
        createdAt →
      ItemWrites env job reviewerId db (.addManualSpan item) true
        (manualWrites (manualSpan spanId page.id item) item dispositionId reviewerId entry)
  | manualPage {item : AddManualSpanItem} {pageId spanId dispositionId id organizationId : UUID}
      {link : String × Nat} {createdAt : DateTime} {entry : AuditEntry} :
      db.page? job.documentId item.pageNumber = none →
      entry = makeEntry env id job.id organizationId (manualEvent spanId item reviewerId) link
        createdAt →
      ItemWrites env job reviewerId db (.addManualSpan item) true
        (.insertPage ⟨pageId, job.documentId, item.pageNumber⟩ ::
          manualWrites (manualSpan spanId pageId item) item dispositionId reviewerId entry)

def DispositionBatchResult.count (result : DispositionBatchResult) :
    DispositionItem → Bool → DispositionBatchResult
  | .addManualSpan _, _ =>
    { result with spansCreated := result.spansCreated + 1, applied := result.applied + 1 }
  | .existing _, true => { result with applied := result.applied + 1 }
  | .existing _, false => { result with skipped := result.skipped + 1 }

/-- The contract of a program that runs alone, whatever fails. -/
abbrev solo : Contract Database Write World Input Exn :=
  soloContract Database Write Input (fun _ => True) fun _ => ()

section

variable {env : Env} {job : RedactionJob} {reviewerId : UUID} {s : Shared Database World}
  {p : List Write}

/-! ### What the loop body does -/

theorem wp_applyExistingSpanDisposition_solo (item : ExistingItem) :
    solo.wp (applyExistingSpanDisposition env job item reviewerId)
      (fun changed s' p' => s'.db = s.db ∧ ∃ q, p' = p ++ q ∧
        ItemWrites env job reviewerId (view s.db p) (.existing item) changed q)
      (fun _ _ _ => True) s p := by
  have hE := anything_escapes (C := solo) s
  refine Contract.wp_bind (wp_loadJobSpan hE fun s₁ span page h₁ hrow hid => ?_)
  rw [h₁.past.1] at hrow
  refine Contract.wp_bind (Contract.wp_query (hE.after h₁).fault fun s₂ hn₂ => ?_)
  have h₂ := h₁.trans hn₂.after
  rw [h₂.past.1]
  show solo.wp (if itemNeedsChange span ((view s.db p).disposition? span.id) item then _ else _) _ _
    _ _
  split
  · rename_i hneeds
    refine Contract.wp_bind (wp_writeSpan trivial (hE.after h₂) fun s₃ h₃ => ?_)
    have h₃ := h₂.trans h₃
    refine Contract.wp_bind (wp_writeDisposition (hE.after h₃) fun s₄ newId h₄ => ?_)
    have h₄ := h₃.trans h₄
    refine Contract.wp_bind (wp_appendAuditEntry (hE.after h₄) ?_)
    intro s₅ s₆ s₇ row id createdAt entry hn₅ hn₆ hn₇ _ _ he _
    have hwrites : ItemWrites env job reviewerId _ (.existing item) true
        (existingWrites span item _ newId reviewerId entry) := .existing hrow hid hneeds he
    refine ⟨(h₄.trans ((hn₅.trans hn₆).after.trans hn₇.after)).past.1, _, ?_, hwrites⟩
    simp only [existingWrites, List.append_assoc]
    rfl
  · rename_i hneeds
    exact ⟨h₂.past.1, [], (List.append_nil p).symm, .skipped hrow hid (by simpa using hneeds)⟩

theorem wp_addManualSpan_solo (item : AddManualSpanItem) :
    solo.wp (addManualSpan env job item reviewerId)
      (fun _ s' p' => s'.db = s.db ∧ ∃ q, p' = p ++ q ∧
        ItemWrites env job reviewerId (view s.db p) (.addManualSpan item) true q)
      (fun _ _ _ => True) s p := by
  have hE := anything_escapes (C := solo) s
  -- what follows the page: the span, its disposition and its entry
  have hspan : ∀ (page : Page) s₁ p₁, solo.After s s₁ →
      (∀ spanId dispositionId id organizationId link createdAt, ∃ q,
        p₁ ++ manualWrites (manualSpan spanId page.id item) item dispositionId reviewerId
          (makeEntry env id job.id organizationId (manualEvent spanId item reviewerId) link
            createdAt) = p ++ q ∧
        ItemWrites env job reviewerId (view s.db p) (.addManualSpan item) true q) →
      solo.wp (do
        let id ← genRandomUuid
        let span : Span :=
          ⟨id, page.id, item.bboxes.map BBox.toList, item.text, item.category, .manual, none⟩
        Prog.send (.insertSpan span)
        writeDisposition span.id none .approved reviewerId item.reason
        let _ ← appendAuditEntry env job.id
          { action := .manualSpanAdded
            category := item.category
            text := some item.text
            reviewerId := reviewerId
            spanId := some span.id }
        return ()) (fun _ s' p' => s'.db = s.db ∧ ∃ q, p' = p ++ q ∧
          ItemWrites env job reviewerId (view s.db p) (.addManualSpan item) true q)
        (fun _ _ _ => True) s₁ p₁ := by
    intro page s₁ p₁ h₁ hwrites
    refine Contract.wp_bind (wp_genRandomUuid (hE.after h₁) fun s₂ i hn₂ _ => ?_)
    have h₂ := h₁.trans hn₂.after
    refine Contract.wp_bind (Contract.wp_send (hE.after h₂) fun s₃ hn₃ _ => ?_)
    have h₃ := h₂.trans hn₃.after
    refine Contract.wp_bind (wp_writeDisposition (hE.after h₃) fun s₄ dispositionId h₄ => ?_)
    have h₄ := h₃.trans h₄
    refine Contract.wp_bind (wp_appendAuditEntry (hE.after h₄) ?_)
    intro s₅ s₆ s₇ row id createdAt entry hn₅ hn₆ hn₇ _ _ he _
    refine ⟨(h₄.trans ((hn₅.trans hn₆).after.trans hn₇.after)).past.1, ?_⟩
    obtain ⟨q, hq, hitem⟩ := hwrites i.uuid dispositionId id row.organizationId _ createdAt
    refine ⟨q, ?_, hitem⟩
    rw [← hq, he]
    simp only [manualWrites, List.append_assoc]
    rfl
  refine Contract.wp_bind (Contract.wp_bind (Contract.wp_query hE.fault fun s₁ hn₁ => ?_))
  have h₁ := hn₁.after
  rw [h₁.past.1]
  cases hpage : (view s.db p).page? job.documentId item.pageNumber with
  | some page =>
    exact hspan page s₁ p h₁ fun spanId dispositionId id organizationId link createdAt =>
      ⟨_, rfl, .manual hpage rfl⟩
  | none =>
    refine Contract.wp_bind (wp_genRandomUuid (hE.after h₁) fun s₂ i hn₂ _ => ?_)
    have h₂ := h₁.trans hn₂.after
    refine Contract.wp_bind (Contract.wp_send (hE.after h₂) fun s₃ hn₃ _ => ?_)
    exact hspan _ s₃ _ (h₂.trans hn₃.after)
      fun spanId dispositionId id organizationId link createdAt =>
        ⟨_, List.append_assoc _ _ _, .manualPage hpage rfl⟩

/-- **The body of the loop** counts an item by what it sends. -/
theorem wp_applyItem_solo (result : DispositionBatchResult) (item : DispositionItem) :
    solo.wp (applyItem env job reviewerId result item)
      (fun result' s' p' => s'.db = s.db ∧ ∃ changed q, p' = p ++ q ∧
        ItemWrites env job reviewerId (view s.db p) item changed q ∧
        result' = result.count item changed) (fun _ _ _ => True) s p := by
  cases item with
  | existing item =>
    refine Contract.wp_bind (Contract.wp_mono (fun changed s' p' h => ?_) (fun _ _ _ _ => trivial) _
      (wp_applyExistingSpanDisposition_solo item))
    obtain ⟨hdb, q, hq, hwrites⟩ := h
    cases changed with
    | true => exact ⟨hdb, true, q, hq, hwrites, rfl⟩
    | false => exact ⟨hdb, false, q, hq, hwrites, rfl⟩
  | addManualSpan item =>
    refine Contract.wp_bind (Contract.wp_mono (fun _ s' p' h => ?_) (fun _ _ _ _ => trivial) _
      (wp_addManualSpan_solo item))
    obtain ⟨hdb, q, hq, hwrites⟩ := h
    exact ⟨hdb, true, q, hq, hwrites, rfl⟩

/-! ### What an item asks for -/

structure Asked (span : Span) (existing : Option Disposition) (item : ExistingItem) : Prop where
  disposition : ∃ d, existing = some d ∧ d.action = dispositionActionByVerb item ∧
    ∀ reason, item.reason = some reason → d.reason = some reason
  text : ∀ text, item.newText = some text → span.text = text
  bboxes : ∀ bboxes, item.newBboxes = some bboxes → span.bboxes = bboxes.map BBox.toList

/-- What is compared before an item is skipped: all that it asks for but the reason. -/
theorem itemNeedsChange_eq_false {span : Span} {existing : Option Disposition}
    {item : ExistingItem} : itemNeedsChange span existing item = false ↔
      (∃ d, existing = some d ∧ d.action = dispositionActionByVerb item) ∧
      (∀ text, item.newText = some text → span.text = text) ∧
      ∀ bboxes, item.newBboxes = some bboxes → span.bboxes = bboxes.map BBox.toList := by
  have haction : existing.map (·.action) = some (dispositionActionByVerb item) ↔
      ∃ d, existing = some d ∧ d.action = dispositionActionByVerb item := Option.map_eq_some_iff
  rw [itemNeedsChange, Bool.or_eq_false_iff, dispositionNeedsChange, ← haction]
  by_cases ha : existing.map (·.action) = some (dispositionActionByVerb item)
  · rw [if_neg (not_not.mpr ha)]
    cases item with
    | edit spanId text bboxes reason =>
      cases bboxes with
      | none => simp [ha, ExistingItem.isEdit, ExistingItem.newText, ExistingItem.newBboxes]
      | some boxes =>
        simp [ha, ExistingItem.isEdit, ExistingItem.newText, ExistingItem.newBboxes, bboxesDiffer]
    | _ => simp [ha, ExistingItem.isEdit, ExistingItem.newText, ExistingItem.newBboxes]
  · rw [if_pos ha]
    simp [ha]

theorem Asked.unchanged {span : Span} {existing : Option Disposition} {item : ExistingItem}
    (h : Asked span existing item) : itemNeedsChange span existing item = false := by
  obtain ⟨d, hd, ha, -⟩ := h.disposition
  exact itemNeedsChange_eq_false.mpr ⟨⟨d, hd, ha⟩, h.text, h.bboxes⟩

theorem asked_editedSpan (span : Span) {item : ExistingItem} {d : Disposition}
    (ha : d.action = dispositionActionByVerb item) (hr : d.reason = item.reason) :
    Asked (editedSpan span item) (some d) item where
  disposition := ⟨d, rfl, ha, fun _ h => hr.trans h⟩
  text text h := by rw [editedSpan, h]; rfl
  bboxes bboxes h := by rw [editedSpan, h]

theorem Span.patch_loaded (span : Span) (item : ExistingItem) :
    Span.patch span (editedSpan span item) span = editedSpan span item := by
  rw [Span.patch, if_pos rfl]
  simp only [patched_loaded]
  rfl

/-! ### The effect of an item on an existing span -/

variable {db db' : Database}

structure Applied (job : RedactionJob) (item : ExistingItem) (db db' : Database) (span : Span)
    (page : Page) (d : Disposition) (e : AuditEntry) : Prop where
  row : (span, page) ∈ db.spanRows job.documentId
  id : span.id = item.spanId
  spanId : d.spanId = span.id
  action : d.action = dispositionActionByVerb item
  reason : d.reason = item.reason
  disposes : Disposes db db' d e
  entry : e.jobId = job.id
  wf : WellFormed db'
  spans : db'.spans = db.spans.map (Span.patch span (editedSpan span item))
  pages : db'.pages = db.pages

theorem ItemWrites.applied {item : ExistingItem} {q : List Write} (h : WellFormed db)
    (hj : Present db job) (hw : ItemWrites env job reviewerId db (.existing item) true q)
    (hf : Free db q) : ∃ span page d e, Applied job item db (view db q) span page d e := by
  cases hw with
  | existing hrow hid hneeds he =>
    obtain ⟨d, ⟨hspan, haction, hreason⟩, hd, hwf, hspans, hpages⟩ :=
      existing_effect h hj hrow rfl rfl he hf
    exact ⟨_, _, d, _, hrow, hid, hspan, haction, hreason, hd, by rw [he]; rfl, hwf, hspans, hpages⟩

variable {item : ExistingItem} {span : Span} {page : Page} {d : Disposition} {e : AuditEntry}

theorem Applied.rows (h : Applied job item db db' span page d e) (documentId : UUID) :
    db'.spanRows documentId = (db.spanRows documentId).map
      fun r => (Span.patch span (editedSpan span item) r.1, r.2) := by
  rw [← spanRows_updateSpan]
  exact spanRows_congr (db.apply (.updateSpan _ _)) _ h.spans h.pages documentId

theorem Applied.asked (h : Applied job item db db' span page d e) :
    (editedSpan span item, page) ∈ db'.spanRows job.documentId ∧
      Asked (editedSpan span item) (db'.disposition? (editedSpan span item).id) item := by
  constructor
  · rw [h.rows]
    exact List.mem_map.mpr ⟨(span, page), h.row, by rw [Span.patch_loaded]⟩
  · have hdisposition : db'.disposition? (editedSpan span item).id = some d := by
      rw [h.disposes.disposition]
      exact if_pos h.spanId
    rw [hdisposition]
    exact asked_editedSpan span h.action h.reason

theorem Applied.other (h : Applied job item db db' span page d e) {r : Span × Page}
    {documentId : UUID} (hr : r ∈ db.spanRows documentId) (hne : r.1.id ≠ item.spanId) :
    r ∈ db'.spanRows documentId ∧ db'.disposition? r.1.id = db.disposition? r.1.id := by
  have hid : r.1.id ≠ span.id := h.id.symm ▸ hne
  constructor
  · rw [h.rows]
    exact List.mem_map.mpr ⟨r, hr, by rw [Span.patch, if_neg hid]⟩
  · rw [h.disposes.disposition, if_neg (h.spanId.symm ▸ Ne.symm hid)]

/-! ### Only what is asked for already is skipped -/

/-- An item that is skipped finds the state it asks for, and one that is not leaves it. -/
def SkipsOnlyAsked (env : Env) (job : RedactionJob) (reviewerId : UUID) (item : ExistingItem)
    (s : Shared Database World) (p : List Write) : Prop :=
  ∀ ls result result' s' p',
    Ends (applyItem env job reviewerId result (.existing item)) ls s p (.ok result') s' p' →
    (result'.skipped ≠ result.skipped → p' = p ∧ ∃ r ∈ (view s.db p).spanRows job.documentId,
      r.1.id = item.spanId ∧ Asked r.1 ((view s.db p).disposition? r.1.id) item) ∧
    (result'.skipped = result.skipped → ∃ r ∈ (view s'.db p').spanRows job.documentId,
      r.1.id = item.spanId ∧ Asked r.1 ((view s'.db p').disposition? r.1.id) item)

/-- Where the action, the text and the boxes are as the item asks for, so is the reason. -/
def ReasonStored (job : RedactionJob) (item : ExistingItem) (db : Database) : Prop :=
  ∀ r ∈ db.spanRows job.documentId, r.1.id = item.spanId →
    ∀ d, db.disposition? r.1.id = some d → d.action = dispositionActionByVerb item →
      (∀ text, item.newText = some text → r.1.text = text) →
      (∀ bboxes, item.newBboxes = some bboxes → r.1.bboxes = bboxes.map BBox.toList) →
      ∀ reason, item.reason = some reason → d.reason = some reason

theorem ends_loadJobSpan {spanId : UUID} {r : Span × Page} (i : Input)
    (hfind : ((view s.db p).spanRows job.documentId).find? (·.1.id = spanId) = some r) :
    Ends (loadJobSpan job spanId) [.ok i] s p (.ok r.1) s p :=
  Ends.query_bind i hfind (.ret _ _ _)

theorem ends_skipped {r : Span × Page} (i : Input) (result : DispositionBatchResult)
    (hfind : ((view s.db p).spanRows job.documentId).find? (·.1.id = item.spanId) = some r)
    (hneeds : itemNeedsChange r.1 ((view s.db p).disposition? r.1.id) item = false) :
    Ends (applyItem env job reviewerId result (.existing item)) [.ok i, .ok i] s p
      (.ok { result with skipped := result.skipped + 1 }) s p := by
  have hbody : Ends (applyExistingSpanDisposition env job item reviewerId) [.ok i, .ok i] s p
      (.ok false) s p := by
    refine (ends_loadJobSpan i hfind).bind (Ends.query_bind i rfl ?_)
    rw [hneeds]
    exact .ret _ _ _
  exact hbody.bind (.ret _ _ _)

/-- **Only what is asked for already is skipped**, and every other item leaves what it asks
for, exactly when no reason is lost: the reason is not compared. -/
theorem skips_only_asked (hwf : WellFormed (view s.db p)) (hj : Present (view s.db p) job)
    (hf : Free s.db p) : SkipsOnlyAsked env job reviewerId item s p ↔
      ReasonStored job item (view s.db p) := by
  constructor
  · intro hskips r hr hid d hd ha htext hbboxes
    have hfind : ∃ r', ((view s.db p).spanRows job.documentId).find? (·.1.id = item.spanId) =
        some r' := Option.isSome_iff_exists.mp
      (List.find?_isSome.mpr ⟨r, hr, by simpa using hid⟩)
    obtain ⟨r', hfind⟩ := hfind
    have hr' := List.mem_of_find?_eq_some hfind
    have hid' : r'.1.id = item.spanId := by simpa using List.find?_some hfind
    obtain rfl := (hwf.row_eq hr hr' (hid.trans hid'.symm)).1
    have hneeds := itemNeedsChange_eq_false.mpr ⟨⟨d, hd, ha⟩, htext, hbboxes⟩
    obtain ⟨-, r₁, hr₁, hid₁, hasked⟩ :=
      (hskips _ _ _ _ _ (ends_skipped ⟨0, sampleTime⟩ ⟨0, 0, 0⟩ hfind hneeds)).1 (by decide)
    obtain rfl := (hwf.row_eq hr hr₁ (hid.trans hid₁.symm)).1
    obtain ⟨d', hd', -, hreason⟩ := hasked.disposition
    rw [hd] at hd'
    cases hd'
    exact hreason
  · intro hstored ls result result' s' p' h
    have hfree := h.free hf
    obtain ⟨hdb, changed, q, rfl, hwrites, hcount⟩ := (Contract.solo_ends h (fun _ _ => trivial) hf
      (wp_applyItem_solo result (.existing item))).1 result' rfl
    rw [hdb] at hfree
    rw [hdb, view_append, hcount]
    cases changed with
    | true =>
      refine ⟨fun hne => absurd rfl hne, fun _ => ?_⟩
      obtain ⟨span, page, d, e, happlied⟩ := hwrites.applied hwf hj hfree.right
      obtain ⟨hrow, hasked⟩ := happlied.asked
      exact ⟨_, hrow, happlied.id, hasked⟩
    | false =>
      refine ⟨fun _ => ?_, fun he => absurd he (Nat.succ_ne_self _)⟩
      cases hwrites with
      | skipped hrow hid hneeds =>
        obtain ⟨⟨d, hd, ha⟩, htext, hbboxes⟩ := itemNeedsChange_eq_false.mp hneeds
        exact ⟨List.append_nil p, _, hrow, hid, ⟨d, hd, ha,
          hstored _ hrow hid d hd ha htext hbboxes⟩, htext, hbboxes⟩

end

/-- A review of one span, which is approved without a reason. -/
def approvedReview : Database :=
  { documents := [⟨1, "a.pdf", "application/pdf", 1, 6, "", ""⟩]
    jobs := [⟨4, 1, 6, .inReview, none⟩]
    pages := [⟨7, 1, 1⟩]
    spans := [⟨5, 7, [], "x", "name", .tier1, none⟩]
    dispositions := [⟨8, 5, .approved, none, 3⟩]
    auditEntries := [] }

theorem wellFormed_approvedReview : WellFormed approvedReview := by
  constructor <;> decide

theorem present_approvedReview : Present approvedReview ⟨4, 1, 6, .inReview, none⟩ := by
  refine ⟨_, List.mem_singleton_self _, rfl, rfl⟩

theorem skips_only_asked_approved :
    SkipsOnlyAsked (Env.letter fun _ => "00") ⟨4, 1, 6, .inReview, none⟩ 3 (.approve 5 none)
      ⟨approvedReview, World.empty⟩ [] :=
  (skips_only_asked (s := ⟨approvedReview, World.empty⟩) (p := []) wellFormed_approvedReview
    present_approvedReview (free_nil _)).mpr fun _ _ _ _ _ _ _ _ _ h => by cases h

/-- A reason given later is dropped. -/
theorem reason_dropped :
    ¬ SkipsOnlyAsked (Env.letter fun _ => "00") ⟨4, 1, 6, .inReview, none⟩ 3
      (.approve 5 (some "confirmed by phone")) ⟨approvedReview, World.empty⟩ [] := by
  intro h
  have hfind : ((view approvedReview []).spanRows 1).find? (·.1.id = 5) =
      some (⟨5, 7, [], "x", "name", .tier1, none⟩, ⟨7, 1, 1⟩) := by decide
  obtain ⟨-, r, hr, hid, hasked⟩ := (h _ ⟨0, 0, 0⟩ _ _ _
    (ends_skipped ⟨0, sampleTime⟩ ⟨0, 0, 0⟩ hfind (by decide))).1 (by decide)
  obtain ⟨d, hd, -, hreason⟩ := hasked.disposition
  rw [hid] at hd
  have hstored : (view approvedReview []).disposition? 5 = some ⟨8, 5, .approved, none, 3⟩ := by
    decide
  have hsame := Option.some.inj (hd.symm.trans hstored)
  have hnone := hreason _ rfl
  rw [hsame] at hnone
  cases hnone

/-! ### Resubmission -/

def Skippable (job : RedactionJob) (db : Database) (item : ExistingItem) : Prop :=
  ∃ r ∈ db.spanRows job.documentId, r.1.id = item.spanId ∧
    itemNeedsChange r.1 (db.disposition? r.1.id) item = false

/-- What a batch sends, item by item; the flags tell which are counted as applied. -/
inductive BatchRun (env : Env) (job : RedactionJob) (reviewerId : UUID) :
    Database → List DispositionItem → List Bool → List Write → Prop
  | nil (db : Database) : BatchRun env job reviewerId db [] [] []
  | cons {db : Database} {item : DispositionItem} {items : List DispositionItem} {changed : Bool}
      {cs : List Bool} {q q' : List Write} : ItemWrites env job reviewerId db item changed q →
      BatchRun env job reviewerId (view db q) items cs q' →
      BatchRun env job reviewerId db (item :: items) (changed :: cs) (q ++ q')

def DispositionBatchResult.counts (result : DispositionBatchResult) :
    List DispositionItem → List Bool → DispositionBatchResult
  | item :: items, changed :: cs => (result.count item changed).counts items cs
  | _, _ => result

section

variable {env : Env} {job : RedactionJob} {reviewerId : UUID} {s s' : Shared Database World}
  {p p' : List Write} {db : Database} {item : ExistingItem}

/-- **A batch** is a sequence of its items. -/
theorem wp_batch_solo : ∀ (items : List DispositionItem) (result : DispositionBatchResult)
    (s : Shared Database World) (p : List Write),
    solo.wp (items.foldlM (applyItem env job reviewerId) result)
      (fun result' s' p' => s'.db = s.db ∧ ∃ cs q, p' = p ++ q ∧
        BatchRun env job reviewerId (view s.db p) items cs q ∧ result' = result.counts items cs)
      (fun _ _ _ => True) s p := by
  intro items
  induction items with
  | nil => exact fun result s p => ⟨rfl, [], [], (List.append_nil p).symm, .nil _, rfl⟩
  | cons item items ih =>
    intro result s p
    rw [List.foldlM_cons]
    refine Contract.wp_bind (Contract.wp_mono (fun result₁ s₁ p₁ h => ?_) (fun _ _ _ _ => trivial) _
      (wp_applyItem_solo result item))
    obtain ⟨hdb, changed, q, rfl, hwrites, rfl⟩ := h
    refine Contract.wp_mono (fun result' s' p' h' => ?_) (fun _ _ _ _ => trivial) _ (ih _ s₁ _)
    obtain ⟨hdb', cs, q', rfl, hrun, rfl⟩ := h'
    rw [hdb, view_append] at hrun
    exact ⟨hdb'.trans hdb, changed :: cs, q ++ q', List.append_assoc _ _ _, .cons hwrites hrun, rfl⟩

/-- An item that was just applied or skipped would be skipped. -/
theorem ItemWrites.skippable {changed : Bool} {q : List Write} (h : WellFormed db)
    (hj : Present db job) (hw : ItemWrites env job reviewerId db (.existing item) changed q)
    (hf : Free db q) : Skippable job (view db q) item := by
  cases changed with
  | true =>
    obtain ⟨span, page, d, e, happlied⟩ := hw.applied h hj hf
    exact ⟨_, happlied.asked.1, happlied.id, happlied.asked.2.unchanged⟩
  | false =>
    cases hw with
    | skipped hrow hid hneeds => exact ⟨_, hrow, hid, hneeds⟩

theorem ItemWrites.keeps_skippable {other : ExistingItem} {changed : Bool} {q : List Write}
    (h : WellFormed db) (hj : Present db job)
    (hw : ItemWrites env job reviewerId db (.existing other) changed q) (hf : Free db q)
    (hne : item.spanId ≠ other.spanId) (hs : Skippable job db item) : Skippable job (view db q) item := by
  cases changed with
  | true =>
    obtain ⟨span, page, d, e, happlied⟩ := hw.applied h hj hf
    obtain ⟨r, hr, hid, hneeds⟩ := hs
    obtain ⟨hr', hdisposition⟩ := happlied.other hr (hid.symm ▸ hne)
    exact ⟨r, hr', hid, by rw [hdisposition]; exact hneeds⟩
  | false =>
    cases hw
    exact hs

theorem ItemWrites.wellFormed {changed : Bool} {q : List Write} (h : WellFormed db)
    (hj : Present db job) (hw : ItemWrites env job reviewerId db (.existing item) changed q)
    (hf : Free db q) : WellFormed (view db q) := by
  cases changed with
  | true =>
    obtain ⟨span, page, d, e, happlied⟩ := hw.applied h hj hf
    exact happlied.wf
  | false =>
    cases hw
    exact h

theorem BatchRun.wellFormed {items : List ExistingItem} :
    ∀ {db : Database} {cs : List Bool} {q : List Write}, WellFormed db → Present db job →
      BatchRun env job reviewerId db (items.map .existing) cs q → Free db q →
      WellFormed (view db q) := by
  induction items with
  | nil =>
    intro db cs q h _ hrun _
    cases hrun
    exact h
  | cons first items ih =>
    intro db cs q h hj hrun hf
    cases hrun with
    | cons hw hrest =>
      rw [view_append]
      exact ih (hw.wellFormed h hj hf.left) ((extends_view db _).present hj) hrest hf.right

theorem BatchRun.keeps_skippable {items : List ExistingItem} :
    ∀ {db : Database} {cs : List Bool} {q : List Write}, WellFormed db → Present db job →
      BatchRun env job reviewerId db (items.map .existing) cs q → Free db q →
      (∀ other ∈ items, item.spanId ≠ other.spanId) → Skippable job db item →
      Skippable job (view db q) item := by
  induction items with
  | nil =>
    intro db cs q _ _ hrun _ _ hs
    cases hrun
    exact hs
  | cons other items ih =>
    intro db cs q h hj hrun hf hne hs
    cases hrun with
    | cons hw hrest =>
      rw [view_append]
      exact ih (hw.wellFormed h hj hf.left) ((extends_view db _).present hj) hrest hf.right
        (fun o ho => hne o (List.mem_cons_of_mem _ ho))
        (hw.keeps_skippable h hj hf.left (hne other List.mem_cons_self) hs)

/-- **After a batch** each of its items would be skipped. -/
theorem BatchRun.skippable {items : List ExistingItem} :
    ∀ {db : Database} {cs : List Bool} {q : List Write}, WellFormed db → Present db job →
      (items.map (·.spanId)).Nodup → BatchRun env job reviewerId db (items.map .existing) cs q →
      Free db q → ∀ item ∈ items, Skippable job (view db q) item := by
  induction items with
  | nil =>
    intro db cs q _ _ _ _ _ item hm
    cases hm
  | cons first items ih =>
    intro db cs q h hj hdistinct hrun hf item hm
    obtain ⟨hfirst, hdistinct⟩ := List.nodup_cons.mp hdistinct
    cases hrun with
    | cons hw hrest =>
      rw [view_append]
      have h₁ := hw.wellFormed h hj hf.left
      have hj₁ := fun q => (extends_view db q).present hj
      rcases List.mem_cons.mp hm with rfl | hm
      · refine hrest.keeps_skippable h₁ (hj₁ _) hf.right (fun other ho he => hfirst ?_)
          (hw.skippable h hj hf.left)
        exact List.mem_map.mpr ⟨other, ho, he.symm⟩
      · exact ih h₁ (hj₁ _) hdistinct hrest hf.right item hm

/-- Such an item is skipped, if nothing fails. -/
theorem wp_skippable (hwf : WellFormed (view s.db p)) (result : DispositionBatchResult)
    (hs : Skippable job (view s.db p) item) :
    (soloContract Database Write Input (fun _ : Exn => False) fun _ : World => ()).wp
      (applyItem env job reviewerId result (.existing item))
      (fun result' s' p' => result' = { result with skipped := result.skipped + 1 } ∧
        s'.db = s.db ∧ p' = p) (fun _ _ _ => False) s p := by
  obtain ⟨r, hr, hid, hneeds⟩ := hs
  refine Contract.wp_bind (Contract.wp_bind (Contract.wp_bind (Contract.wp_query
    (fun _ _ hf _ => hf) fun s₁ hn₁ => ?_)))
  have h₁ := hn₁.after.past.1
  cases hfind : ((view s₁.db p).spanRows job.documentId).find? (·.1.id = item.spanId) with
  | none => exact absurd (by simpa using hid) (List.find?_eq_none.mp (h₁ ▸ hfind) r hr)
  | some r' =>
    have hid' : r'.1.id = item.spanId := by simpa using List.find?_some hfind
    rw [h₁] at hfind
    obtain rfl := (hwf.row_eq hr (List.mem_of_find?_eq_some hfind) (hid.trans hid'.symm)).1
    refine Contract.wp_bind (Contract.wp_query (fun _ _ hf _ => hf) fun s₂ hn₂ => ?_)
    have h₂ : s₂.db = s.db := hn₂.after.past.1.trans h₁
    rw [h₂, hneeds]
    exact ⟨rfl, h₂, rfl⟩

/-- A batch of such items is skipped as a whole, if nothing fails. -/
theorem wp_batch_skippable (hwf : WellFormed (view s.db p)) :
    ∀ {items : List ExistingItem} (result : DispositionBatchResult) (s' : Shared Database World),
      s'.db = s.db → (∀ item ∈ items, Skippable job (view s.db p) item) →
      (soloContract Database Write Input (fun _ : Exn => False) fun _ : World => ()).wp
        ((items.map .existing).foldlM (applyItem env job reviewerId) result)
        (fun result' s' p' => result' = { result with skipped := result.skipped + items.length } ∧
          s'.db = s.db ∧ p' = p) (fun _ _ _ => False) s' p := by
  intro items
  induction items with
  | nil => exact fun result s' hdb _ => ⟨rfl, hdb, rfl⟩
  | cons item items ih =>
    intro result s' hdb hs
    rw [List.map_cons, List.foldlM_cons]
    refine Contract.wp_bind (Contract.wp_mono (fun result₁ s₁ p₁ h => ?_) (fun _ _ _ h => h) _
      (wp_skippable (hdb ▸ hwf) result (hdb ▸ hs item List.mem_cons_self)))
    obtain ⟨rfl, hdb₁, rfl⟩ := h
    refine Contract.wp_mono (fun result' s₂ p₂ h => ?_) (fun _ _ _ h => h) _
      (ih _ s₁ (hdb₁.trans hdb) fun other ho => hs other (List.mem_cons_of_mem _ ho))
    obtain ⟨rfl, hdb₂, rfl⟩ := h
    exact ⟨by rw [List.length_cons, Nat.add_assoc, Nat.add_comm 1], hdb₂, rfl⟩

theorem ends_batch_skippable (hwf : WellFormed (view s.db p)) :
    ∀ {items : List ExistingItem} (result : DispositionBatchResult),
      (∀ item ∈ items, Skippable job (view s.db p) item) →
      ∃ ls, Ends ((items.map .existing).foldlM (applyItem env job reviewerId) result) ls s p
        (.ok { result with skipped := result.skipped + items.length }) s p := by
  intro items
  induction items with
  | nil => exact fun result _ => ⟨[], .ret _ _ _⟩
  | cons item items ih =>
    intro result hs
    obtain ⟨r, hr, hid, hneeds⟩ := hs item List.mem_cons_self
    obtain ⟨r', hfind⟩ := Option.isSome_iff_exists.mp
      (List.find?_isSome.mpr ⟨r, hr, by simpa using hid⟩ :
        (((view s.db p).spanRows job.documentId).find? (·.1.id = item.spanId)).isSome)
    have hid' : r'.1.id = item.spanId := by simpa using List.find?_some hfind
    obtain rfl := (hwf.row_eq hr (List.mem_of_find?_eq_some hfind) (hid.trans hid'.symm)).1
    obtain ⟨ls, hrest⟩ := ih { result with skipped := result.skipped + 1 }
      fun other ho => hs other (List.mem_cons_of_mem _ ho)
    rw [Nat.add_assoc, Nat.add_comm 1] at hrest
    exact ⟨_, (ends_skipped ⟨0, sampleTime⟩ result hfind hneeds).bind hrest⟩

/-- **Resubmitting a batch is a no-op.**  A batch of items on different spans that has
succeeded, submitted again, skips every item and leaves every row as it is: in the same
session as after its commit, for any reviewer. -/
theorem resubmission_noop {items : List ExistingItem} {ls : List (Label Input Exn)}
    {result : DispositionBatchResult} (hwf : WellFormed (view s.db p))
    (hj : Present (view s.db p) job) (hf : Free s.db p)
    (hdistinct : (items.map (·.spanId)).Nodup)
    (h : Ends (applyDispositionBatch env job (items.map .existing) reviewerId) ls s p
      (.ok result) s' p') (reviewer₂ : UUID) (s₂ : Shared Database World) (p₂ : List Write)
    (h₂ : s₂.db = s'.db ∧ p₂ = p' ∨ s₂.db = view s'.db p' ∧ p₂ = []) :
    (∃ ls₂, Ends (applyDispositionBatch env job (items.map .existing) reviewer₂) ls₂ s₂ p₂
      (.ok ⟨0, items.length, 0⟩) s₂ p₂) ∧
    ∀ ls₂ o s₂' p₂', (∀ e, .fault e ∉ ls₂) →
      Ends (applyDispositionBatch env job (items.map .existing) reviewer₂) ls₂ s₂ p₂ o s₂' p₂' →
      o = .ok ⟨0, items.length, 0⟩ ∧ s₂'.db = s₂.db ∧ p₂' = p₂ := by
  have hfree := h.free hf
  obtain ⟨hdb, cs, q, rfl, hrun, -⟩ := (Contract.solo_ends h (fun _ _ => trivial) hf
    (wp_batch_solo (items.map .existing) ⟨0, 0, 0⟩ s p)).1 result rfl
  have hview : view s₂.db p₂ = view (view s.db p) q := by
    rw [← view_append, ← hdb]
    rcases h₂ with ⟨hs₂, rfl⟩ | ⟨hs₂, rfl⟩ <;> rw [hs₂]
    rfl
  have hfree₂ : Free s₂.db p₂ := by
    rcases h₂ with ⟨hs₂, rfl⟩ | ⟨-, rfl⟩
    · rw [hs₂]
      exact hfree
    · exact free_nil _
  rw [hdb] at hfree
  have hwf₂ : WellFormed (view s₂.db p₂) := by
    rw [hview]
    exact hrun.wellFormed hwf hj hfree.right
  have hs₂ : ∀ item ∈ items, Skippable job (view s₂.db p₂) item := by
    rw [hview]
    exact hrun.skippable hwf hj hdistinct hfree.right
  have hzero : (⟨0, 0 + items.length, 0⟩ : DispositionBatchResult) = ⟨0, items.length, 0⟩ := by
    rw [Nat.zero_add]
  constructor
  · rw [← hzero]
    exact ends_batch_skippable hwf₂ ⟨0, 0, 0⟩ hs₂
  · intro ls₂ o s₂' p₂' hfault hends
    obtain ⟨hok, herror⟩ := Contract.solo_ends hends (fun e he => hfault e he) hfree₂
      (wp_batch_skippable hwf₂ ⟨0, 0, 0⟩ s₂ rfl hs₂)
    cases o with
    | error e => exact (herror e rfl).elim
    | ok r =>
      obtain ⟨rfl, hdb₂, hp₂⟩ := hok r rfl
      exact ⟨congrArg Except.ok hzero, hdb₂, hp₂⟩

end

/-- Rejecting the approved span twice. -/
theorem resubmission_noop_reject :
    ∃ ls result s' p', Ends (applyDispositionBatch (Env.letter fun _ => "00")
        ⟨4, 1, 6, .inReview, none⟩ [.existing (.reject 5 none)] 3) ls
        ⟨approvedReview, World.empty⟩ [] (.ok result) s' p' ∧ result.applied = 1 ∧
      ∃ ls₂, Ends (applyDispositionBatch (Env.letter fun _ => "00") ⟨4, 1, 6, .inReview, none⟩
        [.existing (.reject 5 none)] 2) ls₂ s' p' (.ok ⟨0, 1, 0⟩) s' p' := by
  have hsome : ((applyDispositionBatch (Env.letter fun _ => "00") ⟨4, 1, 6, .inReview, none⟩
      [.existing (.reject 5 none)] 3).outcome (List.replicate 8 (.ok ⟨9, sampleTime⟩))
      ⟨approvedReview, World.empty⟩ []).map (·.1) = some (.ok ⟨1, 0, 0⟩) := by decide +kernel
  obtain ⟨⟨o, s', p'⟩, houtcome, rfl⟩ := Option.map_eq_some_iff.mp hsome
  have hends : Ends (applyDispositionBatch _ _ ([ExistingItem.reject 5 none].map .existing) 3) _
      ⟨approvedReview, World.empty⟩ [] _ s' p' := ends_of_outcome houtcome
  have hwf : WellFormed (view (⟨approvedReview, World.empty⟩ : Shared Database World).db []) :=
    wellFormed_approvedReview
  exact ⟨_, _, s', p', hends, rfl, (resubmission_noop hwf present_approvedReview (free_nil _)
    (by decide) hends 2 s' p' (Or.inl ⟨rfl, rfl⟩)).1⟩

end RedactApi
