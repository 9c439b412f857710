import RedactApi.Pipeline.Integrity

/-!
# What a committed batch does to the review

A review is kept twice: the disposition of a span is overwritten in place, the
audit entries about it are only added.  `Agree` says that the two tell the same:
a span has a disposition exactly when some entry is about it, and the last of
them gives its action and its reviewer.

`BatchStep` is the effect of one item on the committed tables.  A batch is a
sequence of them (`batchSteps_of_writes`) when every disposition it overwrites is
still the one it has read.  A batch that runs alone has read the spans as they are
stored as well; this is what `exact` stands for.
-/

namespace RedactApi

open ReadCommitted KeyedList

/-! ### The last entry about a span -/

def Database.lastEntry (db : Database) (spanId : UUID) : Option AuditEntry :=
  (db.auditEntries.filter (·.spanId = some spanId)).getLast?

theorem lastEntry_concat {db db' : Database} {e : AuditEntry} {y : UUID}
    (he : db'.auditEntries = db.auditEntries ++ [e]) (hy : e.spanId = some y) (x : UUID) :
    db'.lastEntry x = if y = x then some e else db.lastEntry x := by
  rw [Database.lastEntry, he, List.filter_append, List.filter_singleton, hy]
  by_cases hx : y = x
  · simp [hx]
  · simp [hx, Database.lastEntry]

theorem lastEntry_mem {db : Database} {x : UUID} {e : AuditEntry} (h : db.lastEntry x = some e) :
    e ∈ db.auditEntries ∧ e.spanId = some x := by
  have hm := List.mem_of_getLast? h
  rw [List.mem_filter, decide_eq_true_eq] at hm
  exact hm

/-- The disposition a review entry stands for. -/
def AuditAction.outcome : AuditAction → Option DispositionAction
  | .approved | .edited | .manualSpanAdded => some .approved
  | .rejected => some .rejected
  | .applyStarted | .verifyPassed | .verifyFailed | .exported => none

theorem outcome_auditActionByVerb (item : ExistingItem) :
    (auditActionByVerb item).outcome = some (dispositionActionByVerb item) := by
  cases item <;> rfl

structure Records (d : Disposition) (e : AuditEntry) : Prop where
  action : e.action.outcome = some d.action
  reviewer : d.reviewerId = e.reviewerId

/-- Dispositions and entries tell the same. -/
def Agree (db : Database) : Prop :=
  ∀ x, Option.Rel Records (db.disposition? x) (db.lastEntry x)

def Owned (db : Database) : Prop :=
  ∀ e ∈ db.auditEntries, ∀ x, e.spanId = some x →
    ∃ job ∈ db.jobs, job.id = e.jobId ∧ ∃ r ∈ db.spanRows job.documentId, r.1.id = x

/-- The last entry about a span hashes its text and names its category. -/
def Hashed (env : Env) (db : Database) : Prop :=
  ∀ span ∈ db.spans, ∀ e, db.lastEntry span.id = some e →
    e.textHash = some (textHash env span.text) ∧ e.category = span.category

/-! ### One item -/

def existingWrites (span : Span) (item : ExistingItem) (existing : Option Disposition)
    (newId reviewerId : UUID) (entry : AuditEntry) : List Write :=
  spanWrites span item ++
    [dispositionWrite newId span.id existing (dispositionActionByVerb item) reviewerId item.reason] ++
    [.insertAudit entry]

def manualWrites (span : Span) (item : AddManualSpanItem) (dispositionId reviewerId : UUID)
    (entry : AuditEntry) : List Write :=
  [.insertSpan span] ++ [.insertDisposition ⟨dispositionId, span.id, .approved, item.reason, reviewerId⟩] ++
    [.insertAudit entry]

inductive BatchStep (env : Env) (exact : Prop) (job : RedactionJob) (reviewerId : UUID)
    (db : Database) : Database → Prop
  | existing {item : ExistingItem} {span stored : Span} {page : Page}
      {existing : Option Disposition} {newId id organizationId : UUID} {link : String × Nat}
      {createdAt : DateTime} {entry : AuditEntry} :
      (stored, page) ∈ db.spanRows job.documentId → stored.id = span.id → (exact → stored = span) →
      existing = db.disposition? span.id →
      entry = makeEntry env id job.id organizationId (existingEvent span item reviewerId) link
        createdAt →
      Free db (existingWrites span item existing newId reviewerId entry) →
      BatchStep env exact job reviewerId db
        (view db (existingWrites span item existing newId reviewerId entry))
  | page {row : Page} : row.documentId = job.documentId → Free db [.insertPage row] →
      BatchStep env exact job reviewerId db (view db [.insertPage row])
  | manual {item : AddManualSpanItem} {page : Page} {spanId dispositionId id organizationId : UUID}
      {link : String × Nat} {createdAt : DateTime} {entry : AuditEntry} :
      page ∈ db.pages → page.documentId = job.documentId →
      entry = makeEntry env id job.id organizationId (manualEvent spanId item reviewerId) link
        createdAt →
      Free db (manualWrites (manualSpan spanId page.id item) item dispositionId reviewerId entry) →
      BatchStep env exact job reviewerId db
        (view db (manualWrites (manualSpan spanId page.id item) item dispositionId reviewerId entry))

/-! ### The writes of an item on an existing span -/

section

variable {db : Database}

theorem Span.patch_self (span row : Span) : Span.patch span span row = row := by
  rw [Span.patch]
  simp only [patched_same, ite_self]

theorem editedSpan_of_not_edit {span : Span} {item : ExistingItem} (h : item.isEdit = false) :
    editedSpan span item = span := by
  cases item with
  | edit id text bboxes reason => cases h
  | _ => rfl

/-- An item on an existing span is an update of the span, an empty one if it is not
an edit. -/
theorem view_spanWrites (span : Span) (item : ExistingItem) :
    view db (spanWrites span item) = db.apply (.updateSpan span (editedSpan span item)) := by
  rw [spanWrites]
  split
  · rfl
  · rename_i h
    rw [editedSpan_of_not_edit (by simpa using h)]
    show db = { db with spans := db.spans.map (Span.patch span span) }
    rw [List.map_congr_left (g := id) fun row _ => Span.patch_self span row, List.map_id]

theorem WellFormed.dispositionWrite (h : WellFormed db) {newId spanId : UUID}
    {existing : Option Disposition} (action : DispositionAction) (reviewerId : UUID)
    (reason : Option String) (hex : existing = db.disposition? spanId)
    (hc : clash db (dispositionWrite newId spanId existing action reviewerId reason) = false) :
    ∃ d : Disposition, d.spanId = spanId ∧ d.action = action ∧ d.reason = reason ∧
      d.reviewerId = reviewerId ∧ ∀ x,
        (db.apply (RedactApi.dispositionWrite newId spanId existing action reviewerId
          reason)).disposition? x = if spanId = x then some d else db.disposition? x := by
  cases existing with
  | none => exact ⟨_, rfl, rfl, rfl, rfl, disposition?_insert hc⟩
  | some d =>
    have hspan := disposition?_spanId hex.symm
    subst hspan
    exact ⟨{ d with action := action, reviewerId := reviewerId, reason := reason }, rfl, rfl, rfl, rfl,
      h.disposition?_update (List.mem_of_find?_eq_some hex.symm) rfl rfl⟩

variable (db) in
/-- What a write of a disposition leaves alone. -/
theorem dispositionWrite_frame (newId spanId : UUID) (existing : Option Disposition)
    (action : DispositionAction) (reviewerId : UUID) (reason : Option String) :
    db.apply (dispositionWrite newId spanId existing action reviewerId reason) =
      { db with dispositions := (db.apply (dispositionWrite newId spanId existing action reviewerId
        reason)).dispositions } := by
  cases existing <;> rfl

/-! ### The effect of one item -/

/-- One disposition is written and its entry is added. -/
structure Disposes (db db' : Database) (d : Disposition) (e : AuditEntry) : Prop where
  documents : db'.documents = db.documents
  jobs : db'.jobs = db.jobs
  disposition : ∀ x, db'.disposition? x = if d.spanId = x then some d else db.disposition? x
  entries : db'.auditEntries = db.auditEntries ++ [e]
  about : e.spanId = some d.spanId
  records : Records d e

theorem Disposes.lastEntry {db' : Database} {d : Disposition} {e : AuditEntry}
    (h : Disposes db db' d e) (x : UUID) :
    db'.lastEntry x = if d.spanId = x then some e else db.lastEntry x :=
  lastEntry_concat h.entries h.about x

theorem Disposes.agree {db' : Database} {d : Disposition} {e : AuditEntry}
    (h : Disposes db db' d e) (ha : Agree db) : Agree db' := by
  intro x
  rw [h.disposition, h.lastEntry]
  split
  · exact .some h.records
  · exact ha x

def Present (db : Database) (job : RedactionJob) : Prop :=
  ∃ j ∈ db.jobs, j.id = job.id ∧ j.documentId = job.documentId

variable {env : Env} {job : RedactionJob} {reviewerId : UUID}

/-- **An item on an existing span** rewrites the span, records its disposition, and
adds one entry. -/
theorem existing_effect (h : WellFormed db) (hjob : Present db job) {item : ExistingItem}
    {span stored : Span} {page : Page} {existing : Option Disposition}
    {newId id organizationId : UUID} {link : String × Nat} {createdAt : DateTime}
    {entry : AuditEntry} (hrow : (stored, page) ∈ db.spanRows job.documentId)
    (hid : stored.id = span.id) (hex : existing = db.disposition? span.id)
    (he : entry = makeEntry env id job.id organizationId (existingEvent span item reviewerId) link
      createdAt)
    (hf : Free db (existingWrites span item existing newId reviewerId entry)) :
    ∃ d : Disposition, (d.spanId = span.id ∧ d.action = dispositionActionByVerb item ∧
      d.reason = item.reason) ∧
      Disposes db (view db (existingWrites span item existing newId reviewerId entry)) d entry ∧
      WellFormed (view db (existingWrites span item existing newId reviewerId entry)) ∧
      (view db (existingWrites span item existing newId reviewerId entry)).spans =
        db.spans.map (Span.patch span (editedSpan span item)) ∧
      (view db (existingWrites span item existing newId reviewerId entry)).pages = db.pages := by
  let db₁ := db.apply (.updateSpan span (editedSpan span item))
  have hview : view db (existingWrites span item existing newId reviewerId entry) =
      (db₁.apply (dispositionWrite newId span.id existing (dispositionActionByVerb item) reviewerId
        item.reason)).apply (.insertAudit entry) := by
    rw [existingWrites, view_concat, view_concat, view_spanWrites]
    rfl
  have hc : clash db₁ (dispositionWrite newId span.id existing (dispositionActionByVerb item)
      reviewerId item.reason) = false := by
    have hd := hf.left.right
    rw [view_spanWrites] at hd
    exact hd.head
  have hca : clash (db₁.apply (dispositionWrite newId span.id existing (dispositionActionByVerb item)
      reviewerId item.reason)) (.insertAudit entry) = false := by
    have ha := hf.right
    rw [view_concat, view_spanWrites] at ha
    exact ha.head
  have h₁ : WellFormed db₁ := h.apply rfl trivial
  obtain ⟨d, hspan, haction, hreason, hreviewer, hdisposition⟩ :=
    h₁.dispositionWrite (dispositionActionByVerb item) reviewerId item.reason
      (show existing = db₁.disposition? span.id from hex) hc
  have h₂ : WellFormed (db₁.apply (dispositionWrite newId span.id existing
      (dispositionActionByVerb item) reviewerId item.reason)) := by
    refine h₁.apply hc ?_
    cases existing with
    | some _ => trivial
    | none =>
      exact ⟨_, List.mem_map_of_mem (mem_spanRows.mp hrow).1, (Span.patch_id _ _ _).trans hid⟩
  have hframe := dispositionWrite_frame db₁ newId span.id existing
    (dispositionActionByVerb item) reviewerId item.reason
  refine ⟨d, ⟨hspan, haction, hreason⟩, ?_, ?_, ?_, ?_⟩
  · rw [hview]
    constructor
    · rw [hframe]; rfl
    · rw [hframe]; rfl
    · intro x
      rw [hspan]
      exact hdisposition x
    · rw [hframe]; rfl
    · rw [he, hspan]
      rfl
    · rw [he]
      exact ⟨by rw [haction]; exact outcome_auditActionByVerb item, hreviewer⟩
  · rw [hview]
    refine h₂.apply hca ?_
    obtain ⟨j, hj, hji, -⟩ := hjob
    rw [hframe, he]
    exact ⟨j, hj, hji⟩
  · rw [hview, hframe]
    rfl
  · rw [hview, hframe]
    rfl

/-- **A manual span** comes with its disposition and one entry. -/
theorem manual_effect (h : WellFormed db) (hjob : Present db job) {item : AddManualSpanItem}
    {page : Page} {spanId dispositionId id organizationId : UUID} {link : String × Nat}
    {createdAt : DateTime} {entry : AuditEntry} (hpage : page ∈ db.pages)
    (he : entry = makeEntry env id job.id organizationId (manualEvent spanId item reviewerId) link
      createdAt)
    (hf : Free db (manualWrites (manualSpan spanId page.id item) item dispositionId reviewerId
      entry)) :
    clash db (.insertSpan (manualSpan spanId page.id item)) = false ∧
    Disposes db (view db (manualWrites (manualSpan spanId page.id item) item dispositionId reviewerId
      entry)) ⟨dispositionId, spanId, .approved, item.reason, reviewerId⟩ entry ∧
    WellFormed (view db (manualWrites (manualSpan spanId page.id item) item dispositionId reviewerId
      entry)) ∧
    (view db (manualWrites (manualSpan spanId page.id item) item dispositionId reviewerId
      entry)).spans = db.spans ++ [manualSpan spanId page.id item] ∧
    (view db (manualWrites (manualSpan spanId page.id item) item dispositionId reviewerId
      entry)).pages = db.pages := by
  have hc := hf.head
  have hcd := hf.tail.head
  have hca := hf.tail.tail.head
  have h₁ := h.apply hc ⟨page, hpage, rfl⟩
  have h₂ := h₁.apply hcd ⟨_, List.mem_append_right _ List.mem_cons_self, rfl⟩
  refine ⟨hc, ⟨rfl, rfl, fun x => ?_, rfl, ?_, ?_⟩, h₂.apply hca ?_, rfl, rfl⟩
  · exact disposition?_insert hcd x
  · rw [he]
    rfl
  · rw [he]
    exact ⟨rfl, rfl⟩
  · obtain ⟨j, hj, hji, -⟩ := hjob
    rw [he]
    exact ⟨j, hj, hji⟩

/-! ### What a batch keeps -/

/-- The tables of a review that is told the same twice. -/
structure Reviewed (env : Env) (exact : Prop) (db : Database) : Prop where
  wf : WellFormed db
  agree : Agree db
  owned : Owned db
  hashed : exact → Hashed env db

/-- The spans of a document and their dispositions are the same. -/
structure SameSpans (documentId : UUID) (db db' : Database) : Prop where
  rows : db'.spanRows documentId = db.spanRows documentId
  dispositions : ∀ r ∈ db.spanRows documentId, db'.disposition? r.1.id = db.disposition? r.1.id

theorem SameSpans.refl (documentId : UUID) (db : Database) : SameSpans documentId db db :=
  ⟨rfl, fun _ _ => rfl⟩

theorem SameSpans.trans {documentId : UUID} {a b c : Database} (h : SameSpans documentId a b)
    (h' : SameSpans documentId b c) : SameSpans documentId a c :=
  ⟨h'.rows.trans h.rows, fun r hr =>
    (h'.dispositions r (h.rows ▸ hr)).trans (h.dispositions r hr)⟩

def AddedByHand (db : Database) (spanId : UUID) : Prop :=
  ∃ e ∈ db.auditEntries, e.spanId = some spanId ∧ e.action = .manualSpanAdded

/-- What a batch on a job may change. -/
structure Batched (job : RedactionJob) (db db' : Database) : Prop where
  documents : db'.documents = db.documents
  jobs : db'.jobs = db.jobs
  entries : ∃ es, db'.auditEntries = db.auditEntries ++ es ∧
    ∀ e ∈ es, e.jobId = job.id ∧ e.spanId.isSome ∧ e.action.outcome.isSome
  others : ∀ documentId, documentId ≠ job.documentId → SameSpans documentId db db'
  accounted : ∀ documentId, ∀ r ∈ db'.spanRows documentId,
    (∃ r₀ ∈ db.spanRows documentId, r₀.1.id = r.1.id) ∨ AddedByHand db' r.1.id

theorem Batched.refl (job : RedactionJob) (db : Database) : Batched job db db where
  documents := rfl
  jobs := rfl
  entries := ⟨[], (List.append_nil _).symm, fun _ he => absurd he List.not_mem_nil⟩
  others documentId _ := SameSpans.refl documentId db
  accounted _ r hr := Or.inl ⟨r, hr, rfl⟩

theorem Batched.trans {a b c : Database} (h : Batched job a b) (h' : Batched job b c) :
    Batched job a c where
  documents := h'.documents.trans h.documents
  jobs := h'.jobs.trans h.jobs
  entries := by
    obtain ⟨es, he, hes⟩ := h.entries
    obtain ⟨es', he', hes'⟩ := h'.entries
    refine ⟨es ++ es', by rw [he', he, List.append_assoc], fun e hm => ?_⟩
    rcases List.mem_append.mp hm with hm | hm
    · exact hes e hm
    · exact hes' e hm
  others documentId hd := (h.others documentId hd).trans (h'.others documentId hd)
  accounted documentId r hr := by
    rcases h'.accounted documentId r hr with ⟨r₁, hr₁, hid₁⟩ | hadded
    · rcases h.accounted documentId r₁ hr₁ with ⟨r₀, hr₀, hid₀⟩ | ⟨e, he, hspan, haction⟩
      · exact Or.inl ⟨r₀, hr₀, hid₀.trans hid₁⟩
      · obtain ⟨es, hes, -⟩ := h'.entries
        exact Or.inr ⟨e, hes ▸ List.mem_append_left _ he, hid₁ ▸ hspan, haction⟩
    · exact Or.inr hadded

theorem spanRows_congr (a b : Database) (hs : b.spans = a.spans) (hp : b.pages = a.pages)
    (documentId : UUID) : b.spanRows documentId = a.spanRows documentId := by
  rw [Database.spanRows, hs, hp, Database.spanRows]

theorem Extends.row {db' : Database} (h : Extends db db') {documentId : UUID} {r : Span × Page}
    (hr : r ∈ db.spanRows documentId) : ∃ r' ∈ db'.spanRows documentId, r'.1.id = r.1.id := by
  obtain ⟨hs, hp, hpid, hd⟩ := mem_spanRows.mp hr
  obtain ⟨s', hs', hid, hpage⟩ := h.spans r.1 hs
  exact ⟨(s', r.2), mem_spanRows.mpr ⟨hs', h.pages r.2 hp, hpid.trans hpage.symm, hd⟩, hid⟩

theorem Extends.present {db' : Database} (h : Extends db db') (hj : Present db job) :
    Present db' job := by
  obtain ⟨j, hj, hid, hdoc⟩ := hj
  obtain ⟨j', hj', hid', hdoc'⟩ := h.jobs j hj
  exact ⟨j', hj', hid'.trans hid, hdoc'.trans hdoc⟩

/-- An owned entry stays owned, and new entries may be added with their owner. -/
theorem Owned.extend {db' : Database} (h : Owned db) (hx : Extends db db')
    (hnew : ∀ e ∈ db'.auditEntries, e ∈ db.auditEntries ∨ ∀ x, e.spanId = some x →
      ∃ job ∈ db'.jobs, job.id = e.jobId ∧ ∃ r ∈ db'.spanRows job.documentId, r.1.id = x) :
    Owned db' := by
  intro e he x hspan
  rcases hnew e he with hold | hown
  · obtain ⟨j, hj, hid, r, hr, hrx⟩ := h e hold x hspan
    obtain ⟨j', hj', hid', hdoc'⟩ := hx.jobs j hj
    obtain ⟨r', hr', hrid⟩ := hx.row hr
    exact ⟨j', hj', hid'.trans hid, r', hdoc' ▸ hr', hrid.trans hrx⟩
  · exact hown x hspan

theorem Present.owns {db' : Database} {d : Disposition} {e : AuditEntry} (hj : Present db job)
    (hd : Disposes db db' d e) (hjob : e.jobId = job.id)
    (hrow : ∃ r ∈ db'.spanRows job.documentId, r.1.id = d.spanId) :
    ∀ a ∈ db'.auditEntries, a ∈ db.auditEntries ∨ ∀ x, a.spanId = some x →
      ∃ job ∈ db'.jobs, job.id = a.jobId ∧ ∃ r ∈ db'.spanRows job.documentId, r.1.id = x := by
  intro a ha
  rw [hd.entries] at ha
  rcases List.mem_append.mp ha with ha | ha
  · exact Or.inl ha
  · rw [List.mem_singleton.mp ha, hd.about]
    refine Or.inr fun x hx => ?_
    cases hx
    obtain ⟨j, hjm, hid, hdoc⟩ := hj
    rw [hd.jobs, hjob]
    obtain ⟨r, hr, hrx⟩ := hrow
    exact ⟨j, hjm, hid, r, hdoc ▸ hr, hrx⟩

theorem Disposes.sameSpans {db' : Database} {d : Disposition} {e : AuditEntry} {documentId : UUID}
    (h : Disposes db db' d e) (hrows : db'.spanRows documentId = db.spanRows documentId)
    (hne : ∀ r ∈ db.spanRows documentId, d.spanId ≠ r.1.id) : SameSpans documentId db db' :=
  ⟨hrows, fun r hr => by rw [h.disposition, if_neg (hne r hr)]⟩

theorem Disposes.batched_entries {db' : Database} {d : Disposition} {e : AuditEntry}
    (h : Disposes db db' d e) (hjob : e.jobId = job.id) :
    ∃ es, db'.auditEntries = db.auditEntries ++ es ∧
      ∀ e ∈ es, e.jobId = job.id ∧ e.spanId.isSome ∧ e.action.outcome.isSome := by
  refine ⟨[e], h.entries, fun a ha => ?_⟩
  rw [List.mem_singleton.mp ha]
  exact ⟨hjob, by rw [h.about]; rfl, by rw [h.records.action]; rfl⟩

theorem Disposes.hashed {db' : Database} {d : Disposition} {e : AuditEntry}
    (hd : Disposes db db' d e) (h : Hashed env db)
    (hspans : ∀ s ∈ db'.spans, d.spanId ≠ s.id ∧ s ∈ db.spans ∨
      d.spanId = s.id ∧ e.textHash = some (textHash env s.text) ∧ e.category = s.category) :
    Hashed env db' := by
  intro s hs e' hlast
  rw [hd.lastEntry] at hlast
  rcases hspans s hs with ⟨hne, hs⟩ | ⟨hsame, hhash⟩
  · rw [if_neg hne] at hlast
    exact h s hs e' hlast
  · rw [if_pos hsame] at hlast
    cases hlast
    exact hhash

/-- **One item keeps the review told the same twice** and changes what a batch may. -/
theorem BatchStep.keeps {exact : Prop} {db' : Database} (hs : BatchStep env exact job reviewerId db db')
    (h : Reviewed env exact db) (hj : Present db job) :
    Reviewed env exact db' ∧ Batched job db db' := by
  cases hs with
  | page hdoc hf =>
    rename_i row
    have hrows : ∀ documentId, (db.apply (.insertPage row)).spanRows documentId =
        db.spanRows documentId := fun _ => h.wf.spanRows_insertPage hf.head
    have hx := extends_apply db (.insertPage row)
    obtain ⟨j, hjm, -, hjd⟩ := hj
    obtain ⟨d, hd, hdid⟩ := h.wf.job_fk j hjm
    refine ⟨⟨h.wf.apply hf.head ⟨d, hd, (hdid.trans hjd).trans hdoc.symm⟩, h.agree,
      h.owned.extend hx fun e he => Or.inl he, h.hashed⟩, rfl, rfl,
      ⟨[], (List.append_nil _).symm, fun _ he => absurd he List.not_mem_nil⟩,
      fun documentId _ => ⟨hrows documentId, fun _ _ => rfl⟩, fun documentId r hr => ?_⟩
    exact Or.inl ⟨r, by rwa [← hrows documentId], rfl⟩
  | existing hrow hid hexact hex he hf =>
    rename_i item span stored page existing newId id organizationId link createdAt entry
    obtain ⟨d, ⟨hspan, -, -⟩, hd, hwf, hspans, hpages⟩ := existing_effect h.wf hj hrow hid hex he hf
    have hx := extends_view db (existingWrites span item existing newId reviewerId entry)
    generalize view db (existingWrites span item existing newId reviewerId entry) = db' at *
    have hjob : entry.jobId = job.id := by rw [he]; rfl
    have hrows : ∀ documentId, db'.spanRows documentId =
        (db.spanRows documentId).map fun r => (Span.patch span (editedSpan span item) r.1, r.2) := by
      intro documentId
      rw [← spanRows_updateSpan]
      exact spanRows_congr (db.apply (.updateSpan _ _)) _ hspans hpages documentId
    refine ⟨⟨hwf, hd.agree h.agree, h.owned.extend hx (hj.owns hd hjob ?_), fun hE => ?_⟩,
      hd.documents, hd.jobs, hd.batched_entries hjob, fun documentId hne => ?_,
      fun documentId r hr => ?_⟩
    · obtain ⟨r, hr, hrid⟩ := hx.row hrow
      exact ⟨r, hr, by rw [hspan, ← hid]; exact hrid⟩
    · -- the span was read as it is stored, so the entry hashes what the item leaves
      have hstored := hexact hE
      subst hstored
      refine hd.hashed (h.hashed hE) fun s hs => ?_
      rw [hspans] at hs
      obtain ⟨s₀, hs₀, rfl⟩ := List.mem_map.mp hs
      rw [Span.patch_id, hspan]
      by_cases hsame : stored.id = s₀.id
      · have heq := List.inj_on_of_nodup_map h.wf.span_pk (mem_spanRows.mp hrow).1 hs₀ hsame
        subst heq
        refine Or.inr ⟨rfl, ?_⟩
        rw [Span.patch, if_pos rfl]
        simp only [patched_loaded]
        rw [he]
        exact ⟨rfl, rfl⟩
      · rw [Span.patch, if_neg (Ne.symm hsame)]
        exact Or.inl ⟨hsame, hs₀⟩
    · have hother : ∀ r ∈ db.spanRows documentId, span.id ≠ r.1.id := fun r hr hsame =>
        hne (h.wf.row_eq hr hrow (hsame.symm.trans hid.symm)).2
      refine hd.sameSpans ?_ (hspan ▸ hother)
      rw [hrows]
      refine (List.map_congr_left fun r hr => ?_).trans (List.map_id _)
      rw [Span.patch, if_neg (Ne.symm (hother r hr))]
      rfl
    · rw [hrows] at hr
      obtain ⟨r₀, hr₀, rfl⟩ := List.mem_map.mp hr
      exact Or.inl ⟨r₀, hr₀, (Span.patch_id _ _ _).symm⟩
  | manual hpage hdoc he hf =>
    rename_i item page spanId dispositionId id organizationId link createdAt entry
    obtain ⟨hc, hd, hwf, hspans, hpages⟩ := manual_effect h.wf hj hpage he hf
    have hx := extends_view db
      (manualWrites (manualSpan spanId page.id item) item dispositionId reviewerId entry)
    generalize view db (manualWrites (manualSpan spanId page.id item) item dispositionId reviewerId
      entry) = db' at *
    have hfresh : ∀ s ∈ db.spans, s.id ≠ spanId := span_fresh hc
    have hjob : entry.jobId = job.id := by rw [he]; rfl
    have hrows : ∀ documentId, db'.spanRows documentId = db.spanRows documentId ++
        if page.documentId = documentId then [(manualSpan spanId page.id item, page)] else [] := by
      intro documentId
      rw [← h.wf.spanRows_insertSpan (manualSpan spanId page.id item) hpage rfl]
      exact spanRows_congr (db.apply (.insertSpan _)) _ hspans hpages documentId
    refine ⟨⟨hwf, hd.agree h.agree, h.owned.extend hx (hj.owns hd hjob ?_), fun hE => ?_⟩,
      hd.documents, hd.jobs, hd.batched_entries hjob, fun documentId hne => ?_,
      fun documentId r hr => ?_⟩
    · refine ⟨(manualSpan spanId page.id item, page), ?_, rfl⟩
      rw [hrows, if_pos hdoc]
      exact List.mem_append_right _ List.mem_cons_self
    · refine hd.hashed (h.hashed hE) fun s hs => ?_
      rw [hspans] at hs
      rcases List.mem_append.mp hs with hs | hs
      · exact Or.inl ⟨Ne.symm (hfresh s hs), hs⟩
      · rw [List.mem_singleton.mp hs, he]
        exact Or.inr ⟨rfl, rfl, rfl⟩
    · refine hd.sameSpans ?_ fun r hr => Ne.symm (hfresh r.1 (mem_spanRows.mp hr).1)
      rw [hrows, if_neg (fun hsame => hne (hsame.symm.trans hdoc)), List.append_nil]
    · rw [hrows] at hr
      rcases List.mem_append.mp hr with hr | hr
      · exact Or.inl ⟨r, hr, rfl⟩
      · right
        refine ⟨entry, by rw [hd.entries]; exact List.mem_append_right _ List.mem_cons_self, ?_, ?_⟩
        · split at hr
          · rw [hd.about, List.mem_singleton.mp hr]
            rfl
          · cases hr
        · rw [he]
          rfl

/-- **A batch keeps the review told the same twice.** -/
theorem batch_keeps {exact : Prop} {db' : Database} (h : Reviewed env exact db)
    (hj : Present db job)
    (hs : Relation.ReflTransGen (BatchStep env exact job reviewerId) db db') :
    Reviewed env exact db' ∧ Batched job db db' := by
  induction hs with
  | refl => exact ⟨h, Batched.refl job db⟩
  | tail _ hstep ih =>
    obtain ⟨hr, hb⟩ := ih
    obtain ⟨j, hjm, hid, hdoc⟩ := hj
    obtain ⟨hr', hb'⟩ := hstep.keeps hr ⟨j, by rw [hb.jobs]; exact hjm, hid, hdoc⟩
    exact ⟨hr', hb.trans hb'⟩

/-! ### From the writes of a batch to its steps -/

/-- Every disposition that is overwritten is stored as it was loaded. -/
def Current (db : Database) (p : List Write) : Prop :=
  ∀ q loaded new r, p = q ++ .updateDisposition loaded new :: r →
    loaded ∈ (view db q).dispositions

theorem Current.left {p q : List Write} (h : Current db (p ++ q)) : Current db p := by
  intro a loaded new r hp
  exact h a loaded new (r ++ q) (by rw [hp, List.append_assoc, List.cons_append])

theorem Extends.view {db' : Database} (h : Extends db db') (p : List Write) :
    Extends (view db p) (view db' p) := by
  induction p generalizing db db' with
  | nil => exact h
  | cons w p ih =>
    refine ih ?_
    constructor
    · intro d hd
      cases w with
      | insertDocument row =>
        rcases List.mem_append.mp hd with hd | hd
        · obtain ⟨d', hd', he⟩ := h.documents d hd
          exact ⟨d', List.mem_append_left _ hd', he⟩
        · exact ⟨d, List.mem_append_right _ hd, rfl⟩
      | updateDocument loaded new =>
        obtain ⟨d₀, hd₀, rfl⟩ := List.mem_map.mp hd
        obtain ⟨d', hd', he⟩ := h.documents d₀ hd₀
        exact ⟨_, List.mem_map_of_mem hd', by simpa using he⟩
      | _ => exact h.documents d hd
    · intro j hj
      cases w with
      | insertJob row =>
        rcases List.mem_append.mp hj with hj | hj
        · obtain ⟨j', hj', he⟩ := h.jobs j hj
          exact ⟨j', List.mem_append_left _ hj', he⟩
        · exact ⟨j, List.mem_append_right _ hj, rfl, rfl⟩
      | updateJob loaded new =>
        obtain ⟨j₀, hj₀, rfl⟩ := List.mem_map.mp hj
        obtain ⟨j', hj', he⟩ := h.jobs j₀ hj₀
        exact ⟨_, List.mem_map_of_mem hj', by simpa using he⟩
      | _ => exact h.jobs j hj
    · intro page hp
      cases w with
      | insertPage row =>
        rcases List.mem_append.mp hp with hp | hp
        · exact List.mem_append_left _ (h.pages page hp)
        · exact List.mem_append_right _ hp
      | _ => exact h.pages page hp
    · intro s hs
      cases w with
      | insertSpan row =>
        rcases List.mem_append.mp hs with hs | hs
        · obtain ⟨s', hs', he⟩ := h.spans s hs
          exact ⟨s', List.mem_append_left _ hs', he⟩
        · exact ⟨s, List.mem_append_right _ hs, rfl, rfl⟩
      | updateSpan loaded new =>
        obtain ⟨s₀, hs₀, rfl⟩ := List.mem_map.mp hs
        obtain ⟨s', hs', he⟩ := h.spans s₀ hs₀
        exact ⟨_, List.mem_map_of_mem hs', by simpa using he⟩
      | _ => exact h.spans s hs

/-- **The writes of a batch are its steps**, if the dispositions they overwrite are
current; they are if the batch has read the tables as they are. -/
theorem batchSteps_of_writes {exact : Prop} {seen : Shared Database World → Prop} {p : List Write}
    (hp : BatchWrites env seen job reviewerId p) (h : Reviewed env exact db) (hj : Present db job)
    (hf : Free db p) (hseen : ∀ s, seen s → Extends s.db db)
    (hcurrent : (∀ s, seen s → s.db = db) ∨ ¬ exact ∧ Current db p) :
    Relation.ReflTransGen (BatchStep env exact job reviewerId) db (view db p) := by
  induction hp with
  | nil => exact .refl
  | page _ hdoc _ ih =>
    have hcur := hcurrent.imp_right fun hc => And.intro hc.1 hc.2.left
    refine .tail (ih hf.left hcur) ?_
    rw [view_append]
    exact .page hdoc hf.right
  | manual _ hs₁ hs₂ hmem hdoc hnum ih =>
    rename_i q item page spanId dispositionId id organizationId createdAt s₁ s₂ hq
    have hcur := hcurrent.imp_right fun hc => And.intro hc.1 hc.2.left.left.left
    refine .tail (ih hf.left.left.left hcur) ?_
    rw [List.append_assoc, List.append_assoc, view_append]
    rw [List.append_assoc, List.append_assoc] at hf
    exact .manual (((hseen s₁ hs₁).view q).pages page hmem) hdoc rfl hf.right
  | existing _ hs₁ hs₂ hs₃ hrow hid hex hneeds ih =>
    rename_i q item span page existing newId id organizationId createdAt s₁ s₂ s₃ hq
    have hcur := hcurrent.imp_right fun hc => And.intro hc.1 hc.2.left.left.left
    have hsteps := ih hf.left.left.left hcur
    have hwf := (batch_keeps h hj hsteps).1.wf
    obtain ⟨r, hr, hrid⟩ := ((hseen s₁ hs₁).view q).row hrow
    -- the disposition that was read is the one that is stored
    have hstored : existing = (view db q).disposition? span.id := by
      rcases hcurrent with hsame | ⟨-, hc⟩
      · rw [hex, hsame s₂ hs₂]
      · have hsame : (view db (q ++ spanWrites span item)).dispositions =
            (view db q).dispositions := by
          rw [view_append, view_spanWrites]
          rfl
        cases existing with
        | some d =>
          rw [← disposition?_spanId hex.symm]
          refine (WellFormed.disposition?_eq hwf ?_).symm
          rw [← hsame]
          exact hc _ d _ _ (List.append_assoc _ _ _)
        | none =>
          refine (List.find?_eq_none.mpr fun d hd => ?_).symm
          rw [← hsame] at hd
          simpa using (disposition_fresh hf.left.right.head d hd).2
    have hexact : exact → r.1 = span := by
      intro hE
      rcases hcurrent with hsame | ⟨hn, -⟩
      · rw [hsame s₁ hs₁] at hrow
        exact congrArg Prod.fst (hwf.row_eq hr hrow hrid).1
      · exact absurd hE hn
    refine .tail hsteps ?_
    rw [List.append_assoc, List.append_assoc, ← List.append_assoc (spanWrites span item), view_append]
    rw [List.append_assoc, List.append_assoc, ← List.append_assoc (spanWrites span item)] at hf
    exact .existing hr hrid hexact hstored rfl hf.right

end

end RedactApi
