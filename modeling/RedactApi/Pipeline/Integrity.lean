import RedactApi.KeyedList
import RedactApi.Pipeline

/-!
# Integrity of the tables

`WellFormed` collects the primary keys, the unique constraints and the foreign
keys the proofs rest on.  A write that clashes with nothing and refers to rows
that exist keeps it.  `Extends` is what survives every commit: rows are added and
changed, never removed or moved.

The last part computes what each write does to the spans of a document and to the
disposition of a span.
-/

namespace RedactApi

open ReadCommitted KeyedList

structure WellFormed (db : Database) : Prop where
  job_pk : (db.jobs.map (·.id)).Nodup
  job_document : (db.jobs.map (·.documentId)).Nodup
  page_pk : (db.pages.map (·.id)).Nodup
  span_pk : (db.spans.map (·.id)).Nodup
  disposition_pk : (db.dispositions.map (·.id)).Nodup
  disposition_span : (db.dispositions.map (·.spanId)).Nodup
  job_fk : ∀ job ∈ db.jobs, ∃ d ∈ db.documents, d.id = job.documentId
  page_fk : ∀ page ∈ db.pages, ∃ d ∈ db.documents, d.id = page.documentId
  span_fk : ∀ span ∈ db.spans, ∃ page ∈ db.pages, page.id = span.pageId
  disposition_fk : ∀ d ∈ db.dispositions, ∃ span ∈ db.spans, span.id = d.spanId
  entry_fk : ∀ e ∈ db.auditEntries, ∃ job ∈ db.jobs, job.id = e.jobId

theorem wellFormed_empty : WellFormed Database.empty := by
  constructor <;> simp [Database.empty]

/-- The rows an inserted row refers to exist. -/
def Write.Refers (db : Database) : Write → Prop
  | .insertJob row => ∃ d ∈ db.documents, d.id = row.documentId
  | .insertPage row => ∃ d ∈ db.documents, d.id = row.documentId
  | .insertSpan row => ∃ page ∈ db.pages, page.id = row.pageId
  | .insertDisposition row => ∃ span ∈ db.spans, span.id = row.spanId
  | .insertAudit row => ∃ job ∈ db.jobs, job.id = row.jobId
  | _ => True

/-- Each write refers to rows that exist when its turn comes. -/
def AllRefer (db : Database) : List Write → Prop
  | [] => True
  | w :: p => w.Refers db ∧ AllRefer (db.apply w) p

theorem allRefer_append {db : Database} {p q : List Write} :
    AllRefer db (p ++ q) ↔ AllRefer db p ∧ AllRefer (view db p) q := by
  induction p generalizing db with
  | nil => simp [AllRefer]
  | cons w p ih =>
    show w.Refers db ∧ AllRefer (db.apply w) (p ++ q) ↔ (w.Refers db ∧ AllRefer (db.apply w) p) ∧ _
    rw [ih, and_assoc]
    rfl

/-! ### Unused keys -/

section

variable {db : Database}

theorem unused_of_clash {w : Write} (hc : clash db w = false) {k : UniqueKey}
    (hk : k ∈ w.claims) : db.taken k = false := clash_eq_false.mp hc k hk

theorem ne_of_any {α : Type} {l : List α} {f : α → Bool} (h : l.any f = false) :
    ∀ a ∈ l, f a = false := by
  intro a ha
  by_contra hn
  rw [List.any_eq_true.mpr ⟨a, ha, by simpa using hn⟩] at h
  cases h

theorem page_fresh {row : Page} (hc : clash db (.insertPage row) = false) :
    ∀ page ∈ db.pages, page.id ≠ row.id := fun page hp =>
  of_decide_eq_false (ne_of_any (unused_of_clash hc (k := .pagePk row.id) (by simp [Write.claims]))
    page hp)

theorem span_fresh {row : Span} (hc : clash db (.insertSpan row) = false) :
    ∀ span ∈ db.spans, span.id ≠ row.id := fun span hs =>
  of_decide_eq_false (ne_of_any (unused_of_clash hc (k := .spanPk row.id) (by simp [Write.claims]))
    span hs)

theorem disposition_fresh {row : Disposition} (hc : clash db (.insertDisposition row) = false) :
    ∀ d ∈ db.dispositions, d.id ≠ row.id ∧ d.spanId ≠ row.spanId := fun d hd =>
  ⟨of_decide_eq_false (ne_of_any (unused_of_clash hc (k := .dispositionPk row.id)
      (by simp [Write.claims])) d hd),
    of_decide_eq_false (ne_of_any (unused_of_clash hc (k := .dispositionSpan row.spanId)
      (by simp [Write.claims])) d hd)⟩

theorem job_fresh {row : RedactionJob} (hc : clash db (.insertJob row) = false) :
    ∀ job ∈ db.jobs, job.id ≠ row.id ∧ job.documentId ≠ row.documentId := fun job hj =>
  ⟨of_decide_eq_false (ne_of_any (unused_of_clash hc (k := .jobPk row.id)
      (by simp [Write.claims])) job hj),
    of_decide_eq_false (ne_of_any (unused_of_clash hc (k := .jobDocument row.documentId)
      (by simp [Write.claims])) job hj)⟩

theorem document_fresh {row : Document} (hc : clash db (.insertDocument row) = false) :
    ∀ d ∈ db.documents, d.id ≠ row.id := fun d hd =>
  of_decide_eq_false (ne_of_any (unused_of_clash hc (k := .documentPk row.id)
    (by simp [Write.claims])) d hd)

end

/-! ### Rows survive -/

/-- Rows are added and changed, not removed or moved. -/
structure Extends (db db' : Database) : Prop where
  documents : ∀ d ∈ db.documents, ∃ d' ∈ db'.documents, d'.id = d.id
  jobs : ∀ j ∈ db.jobs, ∃ j' ∈ db'.jobs, j'.id = j.id ∧ j'.documentId = j.documentId
  pages : ∀ p ∈ db.pages, p ∈ db'.pages
  spans : ∀ s ∈ db.spans, ∃ s' ∈ db'.spans, s'.id = s.id ∧ s'.pageId = s.pageId

theorem Extends.refl (db : Database) : Extends db db where
  documents d hd := ⟨d, hd, rfl⟩
  jobs j hj := ⟨j, hj, rfl, rfl⟩
  pages _ hp := hp
  spans s hs := ⟨s, hs, rfl, rfl⟩

theorem Extends.trans {a b c : Database} (h : Extends a b) (h' : Extends b c) : Extends a c where
  documents d hd := by
    obtain ⟨d₁, hd₁, he₁⟩ := h.documents d hd
    obtain ⟨d₂, hd₂, he₂⟩ := h'.documents d₁ hd₁
    exact ⟨d₂, hd₂, he₂.trans he₁⟩
  jobs j hj := by
    obtain ⟨j₁, hj₁, he₁, hf₁⟩ := h.jobs j hj
    obtain ⟨j₂, hj₂, he₂, hf₂⟩ := h'.jobs j₁ hj₁
    exact ⟨j₂, hj₂, he₂.trans he₁, hf₂.trans hf₁⟩
  pages p hp := h'.pages p (h.pages p hp)
  spans s hs := by
    obtain ⟨s₁, hs₁, he₁, hf₁⟩ := h.spans s hs
    obtain ⟨s₂, hs₂, he₂, hf₂⟩ := h'.spans s₁ hs₁
    exact ⟨s₂, hs₂, he₂.trans he₁, hf₂.trans hf₁⟩

theorem extends_apply (db : Database) (w : Write) : Extends db (db.apply w) := by
  have h := Extends.refl db
  cases w with
  | insertDocument row => exact { h with documents := fun d hd => ⟨d, List.mem_append_left _ hd, rfl⟩ }
  | updateDocument loaded new =>
    exact { h with documents := fun d hd =>
      ⟨_, List.mem_map_of_mem hd, Document.patch_id loaded new d⟩ }
  | insertJob row => exact { h with jobs := fun j hj => ⟨j, List.mem_append_left _ hj, rfl, rfl⟩ }
  | updateJob loaded new =>
    exact { h with jobs := fun j hj => ⟨_, List.mem_map_of_mem hj,
      RedactionJob.patch_id loaded new j, RedactionJob.patch_documentId loaded new j⟩ }
  | insertPage row => exact { h with pages := fun p hp => List.mem_append_left _ hp }
  | insertSpan row => exact { h with spans := fun s hs => ⟨s, List.mem_append_left _ hs, rfl, rfl⟩ }
  | updateSpan loaded new =>
    exact { h with spans := fun s hs => ⟨_, List.mem_map_of_mem hs,
      Span.patch_id loaded new s, Span.patch_pageId loaded new s⟩ }
  | _ => exact ⟨h.documents, h.jobs, h.pages, h.spans⟩

theorem extends_view (db : Database) (p : List Write) : Extends db (view db p) := by
  induction p generalizing db with
  | nil => exact .refl db
  | cons w p ih => exact (extends_apply db w).trans (ih (db.apply w))

/-! ### What keeps the tables well formed -/

theorem WellFormed.apply {db : Database} {w : Write} (h : WellFormed db)
    (hc : clash db w = false) (hr : w.Refers db) : WellFormed (db.apply w) := by
  have hext := extends_apply db w
  -- what a row refers to before the write is there after it
  have hdocument : ∀ id, (∃ d ∈ db.documents, d.id = id) →
      ∃ d ∈ (db.apply w).documents, d.id = id := by
    rintro id ⟨d, hd, rfl⟩
    exact hext.documents d hd
  have hpage : ∀ id, (∃ p ∈ db.pages, p.id = id) → ∃ p ∈ (db.apply w).pages, p.id = id := by
    rintro id ⟨p, hp, rfl⟩
    exact ⟨p, hext.pages p hp, rfl⟩
  have hspan : ∀ id, (∃ s ∈ db.spans, s.id = id) → ∃ s ∈ (db.apply w).spans, s.id = id := by
    rintro id ⟨s, hs, rfl⟩
    obtain ⟨s', hs', he, -⟩ := hext.spans s hs
    exact ⟨s', hs', he⟩
  have hjob : ∀ id, (∃ j ∈ db.jobs, j.id = id) → ∃ j ∈ (db.apply w).jobs, j.id = id := by
    rintro id ⟨j, hj, rfl⟩
    obtain ⟨j', hj', he, -⟩ := hext.jobs j hj
    exact ⟨j', hj', he⟩
  have hjobs := fun j hj => hdocument _ (h.job_fk j hj)
  have hpages := fun p hp => hdocument _ (h.page_fk p hp)
  have hspans := fun s hs => hpage _ (h.span_fk s hs)
  have hdispositions := fun d hd => hspan _ (h.disposition_fk d hd)
  have hentries := fun e he => hjob _ (h.entry_fk e he)
  cases w with
  | insertDocument row => exact { h with job_fk := hjobs, page_fk := hpages }
  | updateDocument loaded new => exact { h with job_fk := hjobs, page_fk := hpages }
  | insertJob row =>
    have hnew := job_fresh hc
    exact { h with
      job_pk := nodup_concat h.job_pk fun j hj => (hnew j hj).1
      job_document := nodup_concat h.job_document fun j hj => (hnew j hj).2
      job_fk := fun j hj => by
        rcases List.mem_append.mp hj with hj | hj
        · exact h.job_fk j hj
        · rw [List.mem_singleton.mp hj]
          exact hr
      entry_fk := hentries }
  | updateJob loaded new =>
    exact { h with
      job_pk := nodup_map (RedactionJob.patch_id loaded new) h.job_pk
      job_document := nodup_map (RedactionJob.patch_documentId loaded new) h.job_document
      job_fk := fun j hj => by
        obtain ⟨j₀, hj₀, rfl⟩ := List.mem_map.mp hj
        rw [RedactionJob.patch_documentId]
        exact h.job_fk j₀ hj₀
      entry_fk := hentries }
  | insertPage row =>
    exact { h with
      page_pk := nodup_concat h.page_pk (page_fresh hc)
      page_fk := fun p hp => by
        rcases List.mem_append.mp hp with hp | hp
        · exact h.page_fk p hp
        · rw [List.mem_singleton.mp hp]
          exact hr
      span_fk := hspans }
  | insertSpan row =>
    exact { h with
      span_pk := nodup_concat h.span_pk (span_fresh hc)
      span_fk := fun s hs => by
        rcases List.mem_append.mp hs with hs | hs
        · exact h.span_fk s hs
        · rw [List.mem_singleton.mp hs]
          exact hr
      disposition_fk := hdispositions }
  | updateSpan loaded new =>
    exact { h with
      span_pk := nodup_map (Span.patch_id loaded new) h.span_pk
      span_fk := fun s hs => by
        obtain ⟨s₀, hs₀, rfl⟩ := List.mem_map.mp hs
        rw [Span.patch_pageId]
        exact h.span_fk s₀ hs₀
      disposition_fk := hdispositions }
  | insertDisposition row =>
    have hnew := disposition_fresh hc
    exact { h with
      disposition_pk := nodup_concat h.disposition_pk fun d hd => (hnew d hd).1
      disposition_span := nodup_concat h.disposition_span fun d hd => (hnew d hd).2
      disposition_fk := fun d hd => by
        rcases List.mem_append.mp hd with hd | hd
        · exact h.disposition_fk d hd
        · rw [List.mem_singleton.mp hd]
          exact hr }
  | updateDisposition loaded new =>
    exact { h with
      disposition_pk := nodup_map (Disposition.patch_id loaded new) h.disposition_pk
      disposition_span := nodup_map (Disposition.patch_spanId loaded new) h.disposition_span
      disposition_fk := fun d hd => by
        obtain ⟨d₀, hd₀, rfl⟩ := List.mem_map.mp hd
        rw [Disposition.patch_spanId]
        exact h.disposition_fk d₀ hd₀ }
  | insertAudit row =>
    exact { h with
      entry_fk := fun e he => by
        rcases List.mem_append.mp he with he | he
        · exact h.entry_fk e he
        · rw [List.mem_singleton.mp he]
          exact hr }

theorem WellFormed.view {db : Database} {p : List Write} (h : WellFormed db) (hf : Free db p)
    (hr : AllRefer db p) : WellFormed (view db p) := by
  induction p generalizing db with
  | nil => exact h
  | cons w p ih => exact ih (h.apply hf.head hr.1) hf.tail hr.2

/-! ### The spans of a document -/

section

variable {db : Database} {documentId : UUID}

theorem mem_spanRows {r : Span × Page} : r ∈ db.spanRows documentId ↔
    r.1 ∈ db.spans ∧ r.2 ∈ db.pages ∧ r.2.id = r.1.pageId ∧ r.2.documentId = documentId := by
  obtain ⟨span, page⟩ := r
  simp only [Database.spanRows, List.mem_flatMap, List.mem_map, List.mem_filter, decide_eq_true_eq,
    Prod.mk.injEq]
  constructor
  · rintro ⟨s, hs, q, ⟨hq, hid, hd⟩, rfl, rfl⟩
    exact ⟨hs, hq, hid, hd⟩
  · rintro ⟨hs, hq, hid, hd⟩
    exact ⟨span, hs, page, ⟨hq, hid, hd⟩, rfl, rfl⟩

theorem mem_approvedRows {span : Span} {n : Nat} :
    (span, n) ∈ db.approvedRows documentId ↔ ∃ page, (span, page) ∈ db.spanRows documentId ∧
      page.pageNumber = n ∧ db.dispositions.any (fun d => d.spanId = span.id ∧ d.action = .approved) := by
  simp only [Database.approvedRows, List.mem_insertionSort, List.mem_map, List.mem_filter]
  constructor
  · rintro ⟨⟨s, page⟩, ⟨hr, ha⟩, he⟩
    cases he
    exact ⟨page, hr, rfl, ha⟩
  · rintro ⟨page, hr, rfl, ha⟩
    exact ⟨(span, page), ⟨hr, ha⟩, rfl⟩

/-- A span lies on one document. -/
theorem WellFormed.row_eq (h : WellFormed db) {documentId' : UUID} {r r' : Span × Page}
    (hr : r ∈ db.spanRows documentId) (hr' : r' ∈ db.spanRows documentId')
    (hid : r.1.id = r'.1.id) : r = r' ∧ documentId = documentId' := by
  obtain ⟨hs, hp, hpid, hd⟩ := mem_spanRows.mp hr
  obtain ⟨hs', hp', hpid', hd'⟩ := mem_spanRows.mp hr'
  have hspan := List.inj_on_of_nodup_map h.span_pk hs hs' hid
  have hpage := List.inj_on_of_nodup_map h.page_pk hp hp' (by rw [hpid, hpid', hspan])
  exact ⟨Prod.ext hspan hpage, by rw [← hd, ← hd', hpage]⟩

theorem spanRows_updateSpan (loaded new : Span) :
    (db.apply (.updateSpan loaded new)).spanRows documentId =
      (db.spanRows documentId).map fun r => (Span.patch loaded new r.1, r.2) := by
  simp only [Database.spanRows, Database.apply, List.flatMap_map, List.map_flatMap, List.map_map,
    Span.patch_pageId, Function.comp_def]

theorem WellFormed.spanRows_insertPage (h : WellFormed db) {row : Page}
    (hc : clash db (.insertPage row) = false) :
    (db.apply (.insertPage row)).spanRows documentId = db.spanRows documentId := by
  simp only [Database.spanRows, Database.apply]
  refine List.flatMap_congr fun span hs => ?_
  obtain ⟨page, hp, hid⟩ := h.span_fk span hs
  have hne : row.id ≠ span.pageId := fun he => page_fresh hc page hp (hid.trans he.symm)
  rw [List.filter_append, List.filter_cons_of_neg (by simp [hne]), List.filter_nil, List.append_nil]

theorem WellFormed.spanRows_insertSpan (h : WellFormed db) (row : Span) {page : Page}
    (hp : page ∈ db.pages) (hid : page.id = row.pageId) :
    (db.apply (.insertSpan row)).spanRows documentId =
      db.spanRows documentId ++ if page.documentId = documentId then [(row, page)] else [] := by
  have hpages : (db.pages.filter fun q => q.id = row.pageId ∧ q.documentId = documentId) =
      if page.documentId = documentId then [page] else [] := by
    have hsplit : (db.pages.filter fun q => q.id = row.pageId ∧ q.documentId = documentId) =
        (db.pages.filter (·.id = page.id)).filter (·.documentId = documentId) := by
      rw [List.filter_filter, hid]
      exact List.filter_congr fun q _ => by simp [Bool.and_comm]
    rw [hsplit, filter_key h.page_pk hp, List.filter_singleton]
    by_cases hd : page.documentId = documentId <;> simp [hd]
  simp only [Database.spanRows, Database.apply, List.flatMap_append, List.flatMap_cons,
    List.flatMap_nil, List.append_nil, hpages]
  split <;> rfl

/-! ### The disposition of a span -/

theorem disposition?_spanId {x : UUID} {d : Disposition} (h : db.disposition? x = some d) :
    d.spanId = x := by
  simpa using List.find?_some h

theorem WellFormed.disposition?_eq (h : WellFormed db) {d : Disposition}
    (hd : d ∈ db.dispositions) : db.disposition? d.spanId = some d :=
  find?_key (f := Disposition.spanId) h.disposition_span hd

theorem disposition?_insert {row : Disposition} (hc : clash db (.insertDisposition row) = false)
    (x : UUID) : (db.apply (.insertDisposition row)).disposition? x =
      if row.spanId = x then some row else db.disposition? x :=
  find?_concat (f := Disposition.spanId) fun d hd => (disposition_fresh hc d hd).2

theorem WellFormed.disposition?_update (h : WellFormed db) {loaded new : Disposition}
    (hl : loaded ∈ db.dispositions) (hid : new.id = loaded.id) (hspan : new.spanId = loaded.spanId)
    (x : UUID) : (db.apply (.updateDisposition loaded new)).disposition? x =
      if loaded.spanId = x then some new else db.disposition? x := by
  show (db.dispositions.map (Disposition.patch loaded new)).find? (·.spanId = x) = _
  rw [find?_map (f := Disposition.spanId) (Disposition.patch_spanId loaded new)]
  split
  · rename_i hx
    subst hx
    rw [show db.dispositions.find? (·.spanId = loaded.spanId) = some loaded from
      h.disposition?_eq hl, Option.map_some, Disposition.patch, if_pos rfl]
    simp only [patched_loaded, ← hid, ← hspan]
  · rename_i hx
    cases hd : db.dispositions.find? (·.spanId = x) with
    | none => exact hd.symm
    | some d =>
      have hne : d.id ≠ loaded.id := fun he => hx (by
        rw [← List.inj_on_of_nodup_map h.disposition_pk (List.mem_of_find?_eq_some hd) hl he]
        simpa using List.find?_some hd)
      rw [Option.map_some, Disposition.patch, if_neg hne]
      exact hd.symm

theorem WellFormed.any_approved (h : WellFormed db) (x : UUID) :
    (db.dispositions.any fun d => d.spanId = x ∧ d.action = .approved) =
      (db.disposition? x).any (·.action = .approved) := by
  rw [Bool.eq_iff_iff, List.any_eq_true, Option.any_eq_true]
  constructor
  · rintro ⟨d, hd, hda⟩
    obtain ⟨hx, ha⟩ := of_decide_eq_true hda
    exact ⟨d, hx ▸ h.disposition?_eq hd, by simpa using ha⟩
  · rintro ⟨d, hd, ha⟩
    exact ⟨d, List.mem_of_find?_eq_some hd, decide_eq_true ⟨disposition?_spanId hd, by simpa using ha⟩⟩

/-! ### The rows of jobs -/

theorem WellFormed.job?_eq (h : WellFormed db) {job : RedactionJob} (hj : job ∈ db.jobs) :
    db.job? job.id = some job :=
  find?_key (f := RedactionJob.id) h.job_pk hj

theorem job?_mem {jobId : UUID} {job : RedactionJob} (h : db.job? jobId = some job) :
    job ∈ db.jobs := List.mem_of_find?_eq_some h

theorem WellFormed.mem_updateJob (h : WellFormed db) {loaded new j : RedactionJob}
    (hl : loaded ∈ db.jobs) (hid : new.id = loaded.id) (hdoc : new.documentId = loaded.documentId)
    (horg : new.organizationId = loaded.organizationId) :
    j ∈ (db.apply (.updateJob loaded new)).jobs ↔
      j = new ∨ j ∈ db.jobs ∧ j.id ≠ loaded.id := by
  have hnew : RedactionJob.patch loaded new loaded = new := by
    rw [RedactionJob.patch, if_pos rfl]
    simp only [patched_loaded, ← hid, ← hdoc, ← horg]
  have hother : ∀ k : RedactionJob, k.id ≠ loaded.id → RedactionJob.patch loaded new k = k :=
    fun k hk => if_neg hk
  show j ∈ db.jobs.map (RedactionJob.patch loaded new) ↔ _
  rw [List.mem_map]
  constructor
  · rintro ⟨k, hk, rfl⟩
    by_cases he : k.id = loaded.id
    · left
      rw [List.inj_on_of_nodup_map h.job_pk hk hl he, hnew]
    · right
      rw [hother k he]
      exact ⟨hk, he⟩
  · rintro (rfl | ⟨hj, hne⟩)
    · exact ⟨loaded, hl, hnew⟩
    · exact ⟨j, hj, hother j hne⟩

end

end RedactApi
