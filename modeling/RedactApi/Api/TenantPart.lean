import RedactApi.Pipeline.Integrity

/-!
# The part of an organisation

Documents and jobs carry an organisation; a page has that of its document, a span
that of its page, a disposition that of its span and an audit entry that of its job.
`Database.part` is what belongs to one organisation.

A write that belongs to an organisation is the same write on its part, and leaves
the parts of the others as they are (`part_apply`, `part_apply_ne`).  A query about
rows of an organisation finds in its part what it finds in the database.
-/

namespace RedactApi

open ReadCommitted KeyedList

/-! ### Owners -/

def Database.documentOwner (db : Database) (id : UUID) : Option UUID :=
  (db.documents.find? (·.id = id)).map (·.organizationId)

def Database.jobOwner (db : Database) (id : UUID) : Option UUID :=
  (db.job? id).map (·.organizationId)

def Database.pageOwner (db : Database) (id : UUID) : Option UUID :=
  (db.pages.find? (·.id = id)).bind fun page => db.documentOwner page.documentId

def Database.spanOwner (db : Database) (id : UUID) : Option UUID :=
  (db.spans.find? (·.id = id)).bind fun span => db.pageOwner span.pageId

/-- The rows of `db` whose organisation, in the tables of `owners`, is `A`. -/
def Database.ownedBy (owners : Database) (A : UUID) (db : Database) : Database where
  documents := db.documents.filter (·.organizationId = A)
  jobs := db.jobs.filter (·.organizationId = A)
  pages := db.pages.filter fun page => owners.documentOwner page.documentId = some A
  spans := db.spans.filter fun span => owners.pageOwner span.pageId = some A
  dispositions := db.dispositions.filter fun d => owners.spanOwner d.spanId = some A
  auditEntries := db.auditEntries.filter fun e => owners.jobOwner e.jobId = some A

/-- What belongs to an organisation. -/
def Database.part (A : UUID) (db : Database) : Database := db.ownedBy A db

/-- A job has the organisation of its document. -/
structure TenantDatabase (db : Database) : Prop extends WellFormed db where
  document_pk : (db.documents.map (·.id)).Nodup
  job_organization : ∀ job ∈ db.jobs, ∀ d ∈ db.documents, d.id = job.documentId →
    d.organizationId = job.organizationId

@[simp] theorem Document.patch_organizationId (l n r : Document) :
    (Document.patch l n r).organizationId = r.organizationId := by
  rw [Document.patch]; split <;> rfl

@[simp] theorem RedactionJob.patch_organizationId (l n r : RedactionJob) :
    (RedactionJob.patch l n r).organizationId = r.organizationId := by
  rw [RedactionJob.patch]; split <;> rfl

section

variable {db : Database} {A B id : UUID}

/-! ### The owners of stored rows -/

theorem TenantDatabase.documentOwner_eq (h : TenantDatabase db) {d : Document}
    (hd : d ∈ db.documents) : db.documentOwner d.id = some d.organizationId := by
  rw [Database.documentOwner, find?_key (f := Document.id) h.document_pk hd]
  rfl

theorem WellFormed.jobOwner_eq (h : WellFormed db) {job : RedactionJob} (hj : job ∈ db.jobs) :
    db.jobOwner job.id = some job.organizationId := by
  rw [Database.jobOwner, h.job?_eq hj]
  rfl

theorem WellFormed.pageOwner_eq (h : WellFormed db) {page : Page} (hp : page ∈ db.pages) :
    db.pageOwner page.id = db.documentOwner page.documentId := by
  rw [Database.pageOwner, find?_key (f := Page.id) h.page_pk hp]
  rfl

theorem WellFormed.spanOwner_eq (h : WellFormed db) {span : Span} (hs : span ∈ db.spans) :
    db.spanOwner span.id = db.pageOwner span.pageId := by
  rw [Database.spanOwner, find?_key (f := Span.id) h.span_pk hs]
  rfl

theorem TenantDatabase.documentOwner_job (h : TenantDatabase db) {job : RedactionJob}
    (hj : job ∈ db.jobs) : db.documentOwner job.documentId = some job.organizationId := by
  obtain ⟨d, hd, hid⟩ := h.job_fk job hj
  rw [← hid, h.documentOwner_eq hd, h.job_organization job hj d hd hid]

theorem TenantDatabase.page_owner (h : TenantDatabase db) {page : Page} (hp : page ∈ db.pages) :
    ∃ B, db.documentOwner page.documentId = some B := by
  obtain ⟨d, hd, hid⟩ := h.page_fk page hp
  exact ⟨_, hid ▸ h.documentOwner_eq hd⟩

theorem TenantDatabase.span_owner (h : TenantDatabase db) {span : Span} (hs : span ∈ db.spans) :
    ∃ B, db.pageOwner span.pageId = some B := by
  obtain ⟨page, hp, hid⟩ := h.span_fk span hs
  rw [← hid, h.pageOwner_eq hp]
  exact h.page_owner hp

theorem TenantDatabase.disposition_owner (h : TenantDatabase db) {d : Disposition}
    (hd : d ∈ db.dispositions) : ∃ B, db.spanOwner d.spanId = some B := by
  obtain ⟨span, hs, hid⟩ := h.disposition_fk d hd
  rw [← hid, h.spanOwner_eq hs]
  exact h.span_owner hs

theorem TenantDatabase.entry_owner (h : TenantDatabase db) {e : AuditEntry}
    (he : e ∈ db.auditEntries) : ∃ B, db.jobOwner e.jobId = some B := by
  obtain ⟨job, hj, hid⟩ := h.entry_fk e he
  exact ⟨_, hid ▸ h.jobOwner_eq hj⟩

/-! ### Owners stay -/

structure OwnersStay (db db' : Database) : Prop where
  document : ∀ {id B}, db.documentOwner id = some B → db'.documentOwner id = some B
  job : ∀ {id B}, db.jobOwner id = some B → db'.jobOwner id = some B
  page : ∀ {id B}, db.pageOwner id = some B → db'.pageOwner id = some B
  span : ∀ {id B}, db.spanOwner id = some B → db'.spanOwner id = some B

theorem OwnersStay.refl (db : Database) : OwnersStay db db := ⟨id, id, id, id⟩

theorem OwnersStay.trans {a b c : Database} (h : OwnersStay a b) (h' : OwnersStay b c) :
    OwnersStay a c :=
  ⟨h'.document ∘ h.document, h'.job ∘ h.job, h'.page ∘ h.page, h'.span ∘ h.span⟩

theorem find?_added {α : Type} {l : List α} {p : α → Bool} {a : α} (b : α)
    (h : l.find? p = some a) : (l ++ [b]).find? p = some a := by
  rw [List.find?_append, h, Option.some_or]

theorem owners_apply (db : Database) (w : Write) : OwnersStay db (db.apply w) := by
  have hdocument : ∀ {id B}, db.documentOwner id = some B →
      (db.apply w).documentOwner id = some B := by
    intro id B h
    cases w with
    | insertDocument row =>
      obtain ⟨d, hd, ho⟩ := Option.map_eq_some_iff.mp h
      exact Option.map_eq_some_iff.mpr ⟨d, find?_added row hd, ho⟩
    | updateDocument loaded new =>
      obtain ⟨d, hd, ho⟩ := Option.map_eq_some_iff.mp h
      refine Option.map_eq_some_iff.mpr ⟨Document.patch loaded new d, ?_, ?_⟩
      · refine (find?_map (f := Document.id) (Document.patch_id loaded new) id).trans ?_
        rw [hd]
        rfl
      · rw [Document.patch_organizationId, ho]
    | _ => exact h
  have hpage : ∀ {id B}, db.pageOwner id = some B → (db.apply w).pageOwner id = some B := by
    intro id B h
    obtain ⟨page, hp, ho⟩ := Option.bind_eq_some_iff.mp h
    refine Option.bind_eq_some_iff.mpr ⟨page, ?_, hdocument ho⟩
    cases w with
    | insertPage row => exact find?_added row hp
    | _ => exact hp
  refine ⟨hdocument, fun {id B} h => ?_, hpage, fun {id B} h => ?_⟩
  · cases w with
    | insertJob row =>
      obtain ⟨job, hj, ho⟩ := Option.map_eq_some_iff.mp h
      exact Option.map_eq_some_iff.mpr ⟨job, find?_added row hj, ho⟩
    | updateJob loaded new =>
      obtain ⟨job, hj, ho⟩ := Option.map_eq_some_iff.mp h
      refine Option.map_eq_some_iff.mpr ⟨RedactionJob.patch loaded new job, ?_, ?_⟩
      · refine (find?_map (f := RedactionJob.id) (RedactionJob.patch_id loaded new) id).trans ?_
        rw [show db.jobs.find? (·.id = id) = some job from hj]
        rfl
      · rw [RedactionJob.patch_organizationId, ho]
    | _ => exact h
  · obtain ⟨span, hs, ho⟩ := Option.bind_eq_some_iff.mp h
    cases w with
    | insertSpan row =>
      exact Option.bind_eq_some_iff.mpr ⟨span, find?_added row hs, hpage ho⟩
    | updateSpan loaded new =>
      refine Option.bind_eq_some_iff.mpr ⟨Span.patch loaded new span, ?_, ?_⟩
      · refine (find?_map (f := Span.id) (Span.patch_id loaded new) id).trans ?_
        rw [hs]
        rfl
      · rw [Span.patch_pageId]
        exact hpage ho
    | _ => exact Option.bind_eq_some_iff.mpr ⟨span, hs, hpage ho⟩

/-! ### Writes of an organisation -/

/-- The write is about a row of `A`, or adds one. -/
def Write.Within (A : UUID) (db : Database) : Write → Prop
  | .insertDocument row => row.organizationId = A
  | .updateDocument loaded _ => db.documentOwner loaded.id = some A
  | .insertJob row => row.organizationId = A ∧ db.documentOwner row.documentId = some A
  | .updateJob loaded _ => db.jobOwner loaded.id = some A
  | .insertPage row => db.documentOwner row.documentId = some A
  | .insertSpan row => db.pageOwner row.pageId = some A
  | .updateSpan loaded _ => db.spanOwner loaded.id = some A
  | .insertDisposition row => db.spanOwner row.spanId = some A
  | .updateDisposition loaded _ =>
    ∃ d ∈ db.dispositions, d.id = loaded.id ∧ db.spanOwner d.spanId = some A
  | .insertAudit row => db.jobOwner row.jobId = some A

/-- What the rows of `rows` refer to has an owner in `db`. -/
structure HaveOwners (db rows : Database) : Prop where
  pages : ∀ page ∈ rows.pages, ∃ B, db.documentOwner page.documentId = some B
  spans : ∀ span ∈ rows.spans, ∃ B, db.pageOwner span.pageId = some B
  dispositions : ∀ d ∈ rows.dispositions, ∃ B, db.spanOwner d.spanId = some B
  auditEntries : ∀ e ∈ rows.auditEntries, ∃ B, db.jobOwner e.jobId = some B

theorem TenantDatabase.haveOwners (h : TenantDatabase db) : HaveOwners db db :=
  ⟨fun _ => h.page_owner, fun _ => h.span_owner, fun _ => h.disposition_owner,
    fun _ => h.entry_owner⟩

theorem forall_mem_concat {α : Type} {l : List α} {a : α} {p : α → Prop} (hl : ∀ b ∈ l, p b)
    (ha : p a) : ∀ b ∈ l ++ [a], p b := by
  intro b hb
  rcases List.mem_append.mp hb with hb | hb
  · exact hl b hb
  · exact List.mem_singleton.mp hb ▸ ha

theorem TenantDatabase.haveOwners_apply (h : TenantDatabase db) {w : Write} (hw : w.Within A db) :
    HaveOwners db (db.apply w) := by
  have ho := h.haveOwners
  cases w with
  | insertPage row => exact { ho with pages := forall_mem_concat ho.pages ⟨A, hw⟩ }
  | insertSpan row => exact { ho with spans := forall_mem_concat ho.spans ⟨A, hw⟩ }
  | updateSpan loaded new =>
    refine { ho with spans := fun span hs => ?_ }
    obtain ⟨span₀, hs₀, rfl⟩ := List.mem_map.mp hs
    rw [Span.patch_pageId]
    exact ho.spans span₀ hs₀
  | insertDisposition row =>
    exact { ho with dispositions := forall_mem_concat ho.dispositions ⟨A, hw⟩ }
  | updateDisposition loaded new =>
    refine { ho with dispositions := fun d hd => ?_ }
    obtain ⟨d₀, hd₀, rfl⟩ := List.mem_map.mp hd
    rw [Disposition.patch_spanId]
    exact ho.dispositions d₀ hd₀
  | insertAudit row => exact { ho with auditEntries := forall_mem_concat ho.auditEntries ⟨A, hw⟩ }
  | _ => exact ⟨ho.pages, ho.spans, ho.dispositions, ho.auditEntries⟩

/-- Rows are divided the same as long as their owners stay. -/
theorem ownedBy_stay {db' rows : Database} (h : OwnersStay db db') (ho : HaveOwners db rows)
    (B : UUID) : db'.ownedBy B rows = db.ownedBy B rows := by
  have hsame : ∀ {o o' : Option UUID}, (∀ {C}, o = some C → o' = some C) → (∃ C, o = some C) →
      decide (o' = some B) = decide (o = some B) := by
    rintro o o' hstay ⟨C, hC⟩
    rw [hstay hC, hC]
  have hpages : rows.pages.filter (fun page => db'.documentOwner page.documentId = some B) =
      rows.pages.filter fun page => db.documentOwner page.documentId = some B :=
    List.filter_congr fun page hp => hsame h.document (ho.pages page hp)
  have hspans : rows.spans.filter (fun span => db'.pageOwner span.pageId = some B) =
      rows.spans.filter fun span => db.pageOwner span.pageId = some B :=
    List.filter_congr fun span hs => hsame h.page (ho.spans span hs)
  have hdispositions : rows.dispositions.filter (fun d => db'.spanOwner d.spanId = some B) =
      rows.dispositions.filter fun d => db.spanOwner d.spanId = some B :=
    List.filter_congr fun d hd => hsame h.span (ho.dispositions d hd)
  have hentries : rows.auditEntries.filter (fun e => db'.jobOwner e.jobId = some B) =
      rows.auditEntries.filter fun e => db.jobOwner e.jobId = some B :=
    List.filter_congr fun e he => hsame h.job (ho.auditEntries e he)
  rw [Database.ownedBy, Database.ownedBy, hpages, hspans, hdispositions, hentries]

theorem TenantDatabase.part_apply_eq (h : TenantDatabase db) {w : Write} (hw : w.Within A db)
    (B : UUID) : (db.apply w).part B = db.ownedBy B (db.apply w) :=
  ownedBy_stay (owners_apply db w) (h.haveOwners_apply hw) B

theorem filter_concat_pos {α : Type} {l : List α} {a : α} {p : α → Bool} (h : p a = true) :
    (l ++ [a]).filter p = l.filter p ++ [a] := by
  rw [List.filter_append, List.filter_cons_of_pos h, List.filter_nil]

theorem filter_concat_neg {α : Type} {l : List α} {a : α} {p : α → Bool} (h : p a = false) :
    (l ++ [a]).filter p = l.filter p := by
  rw [List.filter_append, List.filter_cons_of_neg (Bool.not_eq_true _ ▸ h), List.filter_nil,
    List.append_nil]

theorem filter_map_same {α : Type} {l : List α} {f : α → α} {p : α → Bool}
    (h : ∀ a, p (f a) = p a) : (l.map f).filter p = (l.filter p).map f := by
  rw [List.filter_map]
  exact congrArg _ (List.filter_congr fun a _ => h a)

/-- **A write of an organisation** is the same write on its part. -/
theorem TenantDatabase.part_apply (h : TenantDatabase db) {w : Write} (hw : w.Within A db) :
    (db.apply w).part A = (db.part A).apply w := by
  rw [h.part_apply_eq hw]
  simp only [Database.part]
  cases w with
  | insertDocument row =>
    change row.organizationId = A at hw
    simp only [Database.ownedBy, Database.apply]
    rw [filter_concat_pos]
    exact decide_eq_true hw
  | updateDocument loaded new =>
    simp only [Database.ownedBy, Database.apply]
    rw [filter_map_same fun d => by rw [Document.patch_organizationId]]
  | insertJob row =>
    simp only [Database.ownedBy, Database.apply]
    rw [filter_concat_pos]
    exact decide_eq_true hw.1
  | updateJob loaded new =>
    simp only [Database.ownedBy, Database.apply]
    rw [filter_map_same fun j => by rw [RedactionJob.patch_organizationId]]
  | insertPage row =>
    change db.documentOwner row.documentId = some A at hw
    simp only [Database.ownedBy, Database.apply]
    rw [filter_concat_pos]
    exact decide_eq_true hw
  | insertSpan row =>
    change db.pageOwner row.pageId = some A at hw
    simp only [Database.ownedBy, Database.apply]
    rw [filter_concat_pos]
    exact decide_eq_true hw
  | updateSpan loaded new =>
    simp only [Database.ownedBy, Database.apply]
    rw [filter_map_same fun span => by rw [Span.patch_pageId]]
  | insertDisposition row =>
    change db.spanOwner row.spanId = some A at hw
    simp only [Database.ownedBy, Database.apply]
    rw [filter_concat_pos]
    exact decide_eq_true hw
  | updateDisposition loaded new =>
    simp only [Database.ownedBy, Database.apply]
    rw [filter_map_same fun d => by rw [Disposition.patch_spanId]]
  | insertAudit row =>
    change db.jobOwner row.jobId = some A at hw
    simp only [Database.ownedBy, Database.apply]
    rw [filter_concat_pos]
    exact decide_eq_true hw

/-- A row that is not patched because it belongs to another organisation. -/
theorem map_filter_other {α : Type} {l : List α} {f : α → α} {p : α → Bool}
    (h : ∀ a ∈ l, p a = true → f a = a) : (l.filter p).map f = l.filter p := by
  refine (List.map_congr_left fun a ha => ?_).trans (List.map_id _)
  exact h a (List.mem_of_mem_filter ha) (List.of_mem_filter ha)

/-- **The other organisations** keep their parts. -/
theorem TenantDatabase.part_apply_ne (h : TenantDatabase db) {w : Write} (hw : w.Within A db)
    (hne : B ≠ A) : (db.apply w).part B = db.part B := by
  rw [h.part_apply_eq hw]
  have hother : ∀ {o : Option UUID}, o = some A → decide (o = some B) = false :=
    fun ho => decide_eq_false fun ho' => hne (Option.some.inj (ho'.symm.trans ho))
  simp only [Database.part]
  cases w with
  | insertDocument row =>
    simp only [Database.ownedBy, Database.apply]
    rw [filter_concat_neg]
    exact decide_eq_false fun ho => hne (ho.symm.trans hw)
  | updateDocument loaded new =>
    simp only [Database.ownedBy, Database.apply]
    rw [filter_map_same fun d => by rw [Document.patch_organizationId], map_filter_other]
    intro d hd ho
    refine if_neg fun hid => ?_
    have hdA := hid ▸ h.documentOwner_eq hd
    exact hne ((of_decide_eq_true ho).symm.trans (Option.some.inj (hdA.symm.trans hw)))
  | insertJob row =>
    simp only [Database.ownedBy, Database.apply]
    rw [filter_concat_neg]
    exact decide_eq_false fun ho => hne (ho.symm.trans hw.1)
  | updateJob loaded new =>
    simp only [Database.ownedBy, Database.apply]
    rw [filter_map_same fun j => by rw [RedactionJob.patch_organizationId], map_filter_other]
    intro job hj ho
    refine if_neg fun hid => ?_
    have hjA := hid ▸ h.jobOwner_eq hj
    exact hne ((of_decide_eq_true ho).symm.trans (Option.some.inj (hjA.symm.trans hw)))
  | insertPage row =>
    simp only [Database.ownedBy, Database.apply]
    rw [filter_concat_neg]
    exact hother hw
  | insertSpan row =>
    simp only [Database.ownedBy, Database.apply]
    rw [filter_concat_neg]
    exact hother hw
  | updateSpan loaded new =>
    simp only [Database.ownedBy, Database.apply]
    rw [filter_map_same fun span => by rw [Span.patch_pageId], map_filter_other]
    intro span hs ho
    refine if_neg fun hid => ?_
    have hsA : db.spanOwner span.id = some A := hid ▸ hw
    rw [h.spanOwner_eq hs] at hsA
    rw [hother hsA] at ho
    cases ho
  | insertDisposition row =>
    simp only [Database.ownedBy, Database.apply]
    rw [filter_concat_neg]
    exact hother hw
  | updateDisposition loaded new =>
    simp only [Database.ownedBy, Database.apply]
    rw [filter_map_same fun d => by rw [Disposition.patch_spanId], map_filter_other]
    intro d hd ho
    refine if_neg fun hid => ?_
    obtain ⟨d', hd', hid', hdA⟩ := hw
    rw [← List.inj_on_of_nodup_map h.disposition_pk hd hd' (hid.trans hid'.symm)] at hdA
    rw [hother hdA] at ho
    cases ho
  | insertAudit row =>
    simp only [Database.ownedBy, Database.apply]
    rw [filter_concat_neg]
    exact hother hw

theorem exists_document (h : db.documentOwner id = some A) :
    ∃ d ∈ db.documents, d.id = id ∧ d.organizationId = A := by
  obtain ⟨d, hd, ho⟩ := Option.map_eq_some_iff.mp h
  exact ⟨d, List.mem_of_find?_eq_some hd, by simpa using List.find?_some hd, ho⟩

theorem exists_job (h : db.jobOwner id = some A) :
    ∃ job ∈ db.jobs, job.id = id ∧ job.organizationId = A := by
  obtain ⟨job, hj, ho⟩ := Option.map_eq_some_iff.mp h
  exact ⟨job, job?_mem hj, by simpa using List.find?_some hj, ho⟩

theorem exists_page (h : db.pageOwner id = some A) : ∃ page ∈ db.pages, page.id = id := by
  obtain ⟨page, hp, -⟩ := Option.bind_eq_some_iff.mp h
  exact ⟨page, List.mem_of_find?_eq_some hp, by simpa using List.find?_some hp⟩

theorem exists_span (h : db.spanOwner id = some A) : ∃ span ∈ db.spans, span.id = id := by
  obtain ⟨span, hs, -⟩ := Option.bind_eq_some_iff.mp h
  exact ⟨span, List.mem_of_find?_eq_some hs, by simpa using List.find?_some hs⟩

theorem Write.Within.refers {w : Write} (hw : w.Within A db) : w.Refers db := by
  cases w with
  | insertJob row =>
    obtain ⟨d, hd, hid, -⟩ := exists_document hw.2
    exact ⟨d, hd, hid⟩
  | insertPage row =>
    obtain ⟨d, hd, hid, -⟩ := exists_document hw
    exact ⟨d, hd, hid⟩
  | insertSpan row => exact exists_page hw
  | insertDisposition row => exact exists_span hw
  | insertAudit row =>
    obtain ⟨job, hj, hid, -⟩ := exists_job hw
    exact ⟨job, hj, hid⟩
  | _ => trivial

theorem TenantDatabase.apply (h : TenantDatabase db) {w : Write} (hc : clash db w = false)
    (hw : w.Within A db) : TenantDatabase (db.apply w) := by
  have hpk : ((db.apply w).documents.map (·.id)).Nodup := by
    cases w with
    | insertDocument row => exact nodup_concat h.document_pk (document_fresh hc)
    | updateDocument loaded new => exact nodup_map (Document.patch_id loaded new) h.document_pk
    | _ => exact h.document_pk
  have hstay := owners_apply db w
  have hold : ∀ job ∈ db.jobs, (db.apply w).documentOwner job.documentId = some job.organizationId :=
    fun _ hj => hstay.document (h.documentOwner_job hj)
  have howner : ∀ job ∈ (db.apply w).jobs,
      (db.apply w).documentOwner job.documentId = some job.organizationId := by
    cases w with
    | insertJob row => exact forall_mem_concat hold (hw.1 ▸ hw.2)
    | updateJob loaded new =>
      intro job hj
      obtain ⟨job₀, hj₀, rfl⟩ := List.mem_map.mp hj
      rw [RedactionJob.patch_documentId, RedactionJob.patch_organizationId]
      exact hold job₀ hj₀
    | _ => exact hold
  refine ⟨h.toWellFormed.apply hc hw.refers, hpk, fun job hj d hd hid => ?_⟩
  have hd' : (db.apply w).documentOwner d.id = some d.organizationId := by
    rw [Database.documentOwner, find?_key (f := Document.id) hpk hd]
    rfl
  rw [hid, howner job hj] at hd'
  exact (Option.some.inj hd').symm

/-! ### Queries about an organisation -/

theorem find?_filter_of {α : Type} {l : List α} {p q : α → Bool}
    (h : ∀ a ∈ l, q a = true → p a = true) : (l.filter p).find? q = l.find? q := by
  induction l with
  | nil => rfl
  | cons a l ih =>
    have ih := ih fun b hb => h b (List.mem_cons_of_mem _ hb)
    rw [List.filter_cons, List.find?_cons]
    cases hq : q a with
    | true => rw [if_pos (h a List.mem_cons_self hq), List.find?_cons, hq]
    | false =>
      split
      · rw [List.find?_cons, hq, ih]
      · exact ih

theorem TenantDatabase.job?_part (h : TenantDatabase db) (ho : db.jobOwner id = some A) :
    (db.part A).job? id = db.job? id := by
  refine find?_filter_of fun job hj hid => decide_eq_true ?_
  rw [← of_decide_eq_true hid, h.jobOwner_eq hj] at ho
  exact Option.some.inj ho

theorem disposition?_part (ho : db.spanOwner id = some A) :
    (db.part A).disposition? id = db.disposition? id :=
  find?_filter_of fun _ _ hid => decide_eq_true ((of_decide_eq_true hid) ▸ ho)

theorem page?_part (ho : db.documentOwner id = some A) (n : Nat) :
    (db.part A).page? id n = db.page? id n :=
  find?_filter_of fun _ _ hid => decide_eq_true ((of_decide_eq_true hid).1 ▸ ho)

theorem entries_part (ho : db.jobOwner id = some A) : (db.part A).entries id = db.entries id := by
  show (db.auditEntries.filter _).filter _ = _
  rw [List.filter_filter]
  refine List.filter_congr fun e _ => ?_
  by_cases he : e.jobId = id
  · rw [he, ho]
    simp
  · simp [he]

theorem TenantDatabase.spanRows_part (h : TenantDatabase db) (ho : db.documentOwner id = some A) :
    (db.part A).spanRows id = db.spanRows id := by
  have hpages : ∀ span : Span,
      ((db.part A).pages.filter fun page => page.id = span.pageId ∧ page.documentId = id) =
        db.pages.filter fun page => page.id = span.pageId ∧ page.documentId = id := by
    intro span
    show (db.pages.filter _).filter _ = _
    rw [List.filter_filter]
    refine List.filter_congr fun page _ => ?_
    by_cases hd : page.documentId = id
    · rw [hd, ho]
      simp
    · simp [hd]
  simp only [Database.spanRows, hpages]
  -- a span outside the part has no page on the document
  have hnone : ∀ span ∈ db.spans, db.pageOwner span.pageId ≠ some A →
      (db.pages.filter fun page => page.id = span.pageId ∧ page.documentId = id) = [] := by
    intro span _ hne
    refine List.filter_eq_nil_iff.mpr fun page hp hpage => hne ?_
    obtain ⟨hid, hd⟩ := of_decide_eq_true hpage
    rw [← hid, h.pageOwner_eq hp, hd, ho]
  show (db.spans.filter _).flatMap _ = _
  generalize db.spans = spans at hnone
  induction spans with
  | nil => rfl
  | cons span spans ih =>
    have ih := ih fun s hs => hnone s (List.mem_cons_of_mem _ hs)
    by_cases hs : db.pageOwner span.pageId = some A
    · rw [List.filter_cons, if_pos (decide_eq_true hs), List.flatMap_cons, List.flatMap_cons, ih]
    · rw [List.filter_cons, if_neg (by simpa using hs), List.flatMap_cons,
        hnone span List.mem_cons_self hs, List.map_nil, List.nil_append, ih]

theorem TenantDatabase.spanOwner_row (h : TenantDatabase db) (ho : db.documentOwner id = some A)
    {r : Span × Page} (hr : r ∈ db.spanRows id) : db.spanOwner r.1.id = some A := by
  obtain ⟨hs, hp, hid, hd⟩ := mem_spanRows.mp hr
  rw [h.spanOwner_eq hs, ← hid, h.pageOwner_eq hp, hd, ho]

theorem TenantDatabase.countUndispositionedSpans_part (h : TenantDatabase db)
    (ho : db.documentOwner id = some A) :
    (db.part A).countUndispositionedSpans id = db.countUndispositionedSpans id := by
  rw [Database.countUndispositionedSpans, h.spanRows_part ho]
  refine congrArg List.length (List.filter_congr fun r hr => ?_)
  rw [disposition?_part (h.spanOwner_row ho hr)]

/-! ### Unique keys -/

def primaryKeys (id : UUID) : List UniqueKey :=
  [.documentPk id, .jobPk id, .pagePk id, .spanPk id, .dispositionPk id, .auditPk id]

def FreshId (A : UUID) (db : Database) (id : UUID) : Prop :=
  ∀ B, B ≠ A → ∀ k ∈ primaryKeys id, (db.part B).taken k = false

theorem freshId_of_unused (h : ∀ k ∈ primaryKeys id, db.taken k = false) : FreshId A db id := by
  simp only [FreshId, primaryKeys, List.mem_cons, List.not_mem_nil, or_false, forall_eq_or_imp,
    forall_eq] at h ⊢
  have hfilter : ∀ {α : Type} {l : List α} {p q : α → Bool}, l.any q = false →
      (l.filter p).any q = false := by
    intro α l p q hany
    exact List.any_eq_false.mpr fun a ha => List.any_eq_false.mp hany a (List.mem_of_mem_filter ha)
  exact fun B _ => ⟨hfilter h.1, hfilter h.2.1, hfilter h.2.2.1, hfilter h.2.2.2.1,
    hfilter h.2.2.2.2.1, hfilter h.2.2.2.2.2⟩

def Write.newId? : Write → Option UUID
  | .insertDocument row => some row.id
  | .insertJob row => some row.id
  | .insertPage row => some row.id
  | .insertSpan row => some row.id
  | .insertDisposition row => some row.id
  | .insertAudit row => some row.id
  | .updateDocument _ _ | .updateJob _ _ | .updateSpan _ _ | .updateDisposition _ _ => none

theorem any_filter_of {α : Type} {l : List α} {p q : α → Bool}
    (h : ∀ a ∈ l, q a = true → p a = true) : (l.filter p).any q = l.any q := by
  rw [Bool.eq_iff_iff, List.any_eq_true, List.any_eq_true]
  constructor
  · rintro ⟨a, ha, hq⟩
    exact ⟨a, List.mem_of_mem_filter ha, hq⟩
  · rintro ⟨a, ha, hq⟩
    exact ⟨a, List.mem_filter.mpr ⟨ha, h a ha hq⟩, hq⟩

/-- With no match in the other parts, the matches are in one part. -/
theorem any_part {α : Type} {l : List α} {r : UUID → α → Bool} {q : α → Bool}
    (ho : ∀ a ∈ l, ∃ B, r B a = true) (hfresh : ∀ B, B ≠ A → (l.filter (r B)).any q = false) :
    (l.filter (r A)).any q = l.any q := by
  refine any_filter_of fun a ha hq => ?_
  obtain ⟨B, hB⟩ := ho a ha
  by_cases hne : B = A
  · exact hne ▸ hB
  · have hany := List.any_eq_true.mpr ⟨a, List.mem_filter.mpr ⟨ha, hB⟩, hq⟩
    rw [hfresh B hne] at hany
    cases hany

theorem TenantDatabase.taken_primary (h : TenantDatabase db) (hf : FreshId A db id) :
    ∀ k ∈ primaryKeys id, (db.part A).taken k = db.taken k := by
  simp only [FreshId, primaryKeys, List.mem_cons, List.not_mem_nil, or_false, forall_eq_or_imp,
    forall_eq] at hf ⊢
  have hpages := fun p hp => (@TenantDatabase.page_owner db h p hp).imp fun B hB => decide_eq_true hB
  have hspans := fun s hs => (@TenantDatabase.span_owner db h s hs).imp fun B hB => decide_eq_true hB
  have hdispositions := fun d hd =>
    (h.disposition_owner (d := d) hd).imp fun B hB => decide_eq_true hB
  have hentries := fun e he => (h.entry_owner (e := e) he).imp fun B hB => decide_eq_true hB
  exact ⟨any_part (fun d _ => ⟨_, decide_eq_true rfl⟩) fun B hB => (hf B hB).1,
    any_part (fun j _ => ⟨_, decide_eq_true rfl⟩) fun B hB => (hf B hB).2.1,
    any_part hpages fun B hB => (hf B hB).2.2.1,
    any_part hspans fun B hB => (hf B hB).2.2.2.1,
    any_part hdispositions fun B hB => (hf B hB).2.2.2.2.1,
    any_part hentries fun B hB => (hf B hB).2.2.2.2.2⟩

/-- **A write clashes** in the database exactly when it does in the part. -/
theorem TenantDatabase.clash_part (h : TenantDatabase db) {w : Write} (hw : w.Within A db)
    (hf : ∀ id ∈ w.newId?, FreshId A db id) : clash (db.part A) w = clash db w := by
  have hpk : ∀ {id k}, id ∈ w.newId? → k ∈ primaryKeys id → (db.part A).taken k = db.taken k :=
    fun hid hk => h.taken_primary (hf _ hid) _ hk
  have hclaims : ∀ k ∈ w.claims, (db.part A).taken k = db.taken k := by
    cases w with
    | insertDocument row => exact List.forall_mem_singleton.mpr (hpk rfl (by simp [primaryKeys]))
    | insertJob row =>
      refine List.forall_mem_cons.mpr ⟨hpk rfl (by simp [primaryKeys]),
        List.forall_mem_singleton.mpr (any_filter_of fun job hj hd => decide_eq_true ?_)⟩
      have ho := hw.2
      rw [← of_decide_eq_true hd, h.documentOwner_job hj] at ho
      exact Option.some.inj ho
    | insertPage row =>
      exact List.forall_mem_cons.mpr ⟨hpk rfl (by simp [primaryKeys]),
        List.forall_mem_singleton.mpr
          (any_filter_of fun _ _ hd => decide_eq_true ((of_decide_eq_true hd).1 ▸ hw))⟩
    | insertSpan row => exact List.forall_mem_singleton.mpr (hpk rfl (by simp [primaryKeys]))
    | insertDisposition row =>
      exact List.forall_mem_cons.mpr ⟨hpk rfl (by simp [primaryKeys]),
        List.forall_mem_singleton.mpr
          (any_filter_of fun _ _ hs => decide_eq_true ((of_decide_eq_true hs) ▸ hw))⟩
    | insertAudit row =>
      exact List.forall_mem_cons.mpr ⟨hpk rfl (by simp [primaryKeys]),
        List.forall_mem_singleton.mpr
          (any_filter_of fun _ _ hj => decide_eq_true ((of_decide_eq_true hj).1 ▸ hw))⟩
    | _ => exact fun k hk => absurd hk List.not_mem_nil
  show w.claims.any (db.part A).taken = w.claims.any db.taken
  rw [Bool.eq_iff_iff, List.any_eq_true, List.any_eq_true]
  exact ⟨fun ⟨k, hk, ht⟩ => ⟨k, hk, hclaims k hk ▸ ht⟩, fun ⟨k, hk, ht⟩ => ⟨k, hk, hclaims k hk ▸ ht⟩⟩

end

end RedactApi
