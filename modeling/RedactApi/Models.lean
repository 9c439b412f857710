import Mathlib.Data.Rat.Defs
import Mathlib.Data.Rat.Cast.Defs
import RedactApi.Encoding
import RedactApi.ReadCommitted.Contract

/-!
# The tables of the redaction pipeline

The rows of `redact_api.models`, the database they live in, the writes the
services flush and the unique constraints of the schema.  A row keeps the
columns that some function of the pipeline reads or writes; the server-side
timestamps are left out, except the `created_at` of an audit entry, which is
part of the hashed payload.

Numbers from PDF coordinate space are rationals.  JSONB boxes are lists of
lists of numbers, as they are at rest; the four-number shape is what the code
coerces them into.  JSONB is taken to return the number that was stored, which very
large floats are not.
-/

namespace RedactApi

/-! ### Identifiers and timestamps -/

/-- A UUID, by its 128-bit value. -/
abbrev UUID := BitVec 128

instance UUID.lawfulBEq : @LawfulBEq UUID instBEqOfDecidableEq := inferInstance

def UUID.hex (u : UUID) : List Char := Encoding.digits 16 32 u.toNat

/-- `str(uuid)`: the hexadecimal digits grouped 8-4-4-4-12. -/
def UUID.chars (u : UUID) : List Char :=
  u.hex.take 8 ++ '-' :: (u.hex.drop 8).take 4 ++ '-' :: (u.hex.drop 12).take 4 ++
    '-' :: (u.hex.drop 16).take 4 ++ '-' :: u.hex.drop 20

def UUID.str (u : UUID) : String := String.ofList u.chars

structure DateTime where
  year : Fin 10000
  month : Fin 13
  day : Fin 32
  hour : Fin 24
  minute : Fin 60
  second : Fin 60
  microsecond : Fin 1000000
  deriving DecidableEq, Repr

open Encoding in
/-- `datetime.isoformat()`: the microseconds appear only when they are not zero. -/
def DateTime.isoformat (t : DateTime) : List Char :=
  digits 10 4 t.year ++ '-' :: digits 10 2 t.month ++ '-' :: digits 10 2 t.day ++
    'T' :: digits 10 2 t.hour ++ ':' :: digits 10 2 t.minute ++ ':' :: digits 10 2 t.second ++
    (if t.microsecond = 0 then [] else '.' :: digits 10 6 t.microsecond) ++ "+00:00".toList

def sampleTime : DateTime := ⟨2026, 7, 15, 12, 0, 0, 0⟩

open Encoding in
/-- The digits are what is left of the text without the hyphens. -/
theorem UUID.filter_chars (u : UUID) : u.chars.filter (· ≠ '-') = u.hex := by
  have hd : ∀ l : List Char, (∀ c ∈ l, c ∈ u.hex) → l.filter (· ≠ '-') = l := by
    intro l hl
    refine List.filter_eq_self.mpr fun c hc => ?_
    have hm : digitChars.all (· ≠ '-') = true := by decide
    exact List.all_eq_true.mp hm c (mem_digits (by decide) (by decide) (hl c hc))
  have ht : ∀ n, (u.hex.take n).filter (· ≠ '-') = u.hex.take n :=
    fun n => hd _ fun c hc => List.mem_of_mem_take hc
  have hdr : ∀ n m, ((u.hex.drop n).take m).filter (· ≠ '-') = (u.hex.drop n).take m :=
    fun n m => hd _ fun c hc => List.mem_of_mem_drop (List.mem_of_mem_take hc)
  have hdrop : ∀ n, (u.hex.drop n).filter (· ≠ '-') = u.hex.drop n :=
    fun n => hd _ fun c hc => List.mem_of_mem_drop hc
  have hjoin : ∀ n, u.hex.drop n = (u.hex.drop n).take 4 ++ u.hex.drop (n + 4) := by
    intro n
    rw [← List.drop_drop, List.take_append_drop]
  simp only [UUID.chars, List.filter_append, List.filter_cons, ht, hdr, hdrop]
  simp only [ne_eq, not_true_eq_false, decide_false, Bool.false_eq_true, if_false]
  rw [List.append_assoc, List.append_assoc, List.append_assoc, ← hjoin 16, ← hjoin 12, ← hjoin 8,
    List.take_append_drop]

theorem UUID.chars_inj {u v : UUID} (h : u.chars = v.chars) : u = v := by
  have hh : u.hex = v.hex := by rw [← UUID.filter_chars, h, UUID.filter_chars]
  exact BitVec.eq_of_toNat_eq (Encoding.digits_inj (by decide) (by decide)
    (by simpa using u.isLt) (by simpa using v.isLt) hh)

theorem UUID.str_inj {u v : UUID} (h : u.str = v.str) : u = v :=
  UUID.chars_inj (String.ofList_injective h)

@[simp] theorem UUID.length_chars (u : UUID) : u.chars.length = 36 := by
  simp [UUID.chars, UUID.hex]

@[simp] theorem UUID.toList_str (u : UUID) : u.str.toList = u.chars := String.toList_ofList

open Encoding in
theorem DateTime.isoformat_inj {t u : DateTime} (h : t.isoformat = u.isoformat) : t = u := by
  have cut : ∀ {w n m : Nat} {x y : List Char}, digits 10 w n ++ x = digits 10 w m ++ y →
      n < 10 ^ w → m < 10 ^ w → n = m ∧ x = y := by
    intro w n m x y h hn hm
    obtain ⟨hd, hx⟩ := List.append_inj h (by simp)
    exact ⟨digits_inj (by decide) (by decide) hn hm hd, hx⟩
  obtain ⟨ty, tmo, td, th, tmi, ts, tus⟩ := t
  obtain ⟨uy, umo, ud, uh, umi, us, uus⟩ := u
  simp only [DateTime.isoformat, List.append_assoc, List.cons_append] at h
  obtain ⟨hy, h⟩ := cut h ty.isLt uy.isLt
  obtain ⟨hmo, h⟩ := cut (List.cons.inj h).2 (by omega) (by omega)
  obtain ⟨hd, h⟩ := cut (List.cons.inj h).2 (by omega) (by omega)
  obtain ⟨hh, h⟩ := cut (List.cons.inj h).2 (by omega) (by omega)
  obtain ⟨hmi, h⟩ := cut (List.cons.inj h).2 (by omega) (by omega)
  obtain ⟨hs, h⟩ := cut (List.cons.inj h).2 (by omega) (by omega)
  have hus : (tus : Nat) = uus := by
    have hfrac := List.append_cancel_right h
    by_cases ht : tus = 0 <;> by_cases hu : uus = 0
    · rw [ht, hu]
    · rw [if_pos ht, if_neg hu] at hfrac
      cases hfrac
    · rw [if_neg ht, if_pos hu] at hfrac
      cases hfrac
    · rw [if_neg ht, if_neg hu] at hfrac
      exact digits_inj (by decide) (by decide) tus.isLt uus.isLt (List.cons.inj hfrac).2
  rw [Fin.ext hy, Fin.ext hmo, Fin.ext hd, Fin.ext hh, Fin.ext hmi, Fin.ext hs, Fin.ext hus]

/-! ### Enumerations -/

inductive JobStatus
  | uploaded | ingested | detected | inReview | applying | verified | exported | failed
  deriving DecidableEq, Repr

def JobStatus.value : JobStatus → String
  | .uploaded => "uploaded"
  | .ingested => "ingested"
  | .detected => "detected"
  | .inReview => "in_review"
  | .applying => "applying"
  | .verified => "verified"
  | .exported => "exported"
  | .failed => "failed"

inductive SourceTier
  | tier1 | tier2 | tier3 | manual
  deriving DecidableEq, Repr

theorem JobStatus.value_inj {s t : JobStatus} (h : s.value = t.value) : s = t := by
  cases s <;> cases t <;> first | rfl | exact absurd h (by decide)

inductive DispositionAction
  | approved | rejected
  deriving DecidableEq, Repr

inductive AuditAction
  | approved | rejected | edited | manualSpanAdded
  | applyStarted | verifyPassed | verifyFailed | exported
  deriving DecidableEq, Repr

def AuditAction.value : AuditAction → String
  | .approved => "approved"
  | .rejected => "rejected"
  | .edited => "edited"
  | .manualSpanAdded => "manual_span_added"
  | .applyStarted => "apply_started"
  | .verifyPassed => "verify_passed"
  | .verifyFailed => "verify_failed"
  | .exported => "exported"

theorem AuditAction.value_inj {a b : AuditAction} (h : a.value = b.value) : a = b := by
  cases a <;> cases b <;> first | rfl | exact absurd h (by decide)

/-! ### Rows -/

structure Document where
  id : UUID
  filename : String
  contentType : String
  fileSize : Nat
  organizationId : UUID
  storagePath : String
  storageUrl : String
  deriving DecidableEq, Repr

structure RedactionJob where
  id : UUID
  documentId : UUID
  organizationId : UUID
  status : JobStatus
  redactedPdfKey : Option String
  deriving DecidableEq, Repr

structure Page where
  id : UUID
  documentId : UUID
  pageNumber : Nat
  deriving DecidableEq, Repr

structure Span where
  id : UUID
  pageId : UUID
  bboxes : List (List ℚ)
  text : String
  category : String
  sourceTier : SourceTier
  confidence : Option ℚ
  deriving DecidableEq, Repr

structure Disposition where
  id : UUID
  spanId : UUID
  action : DispositionAction
  reason : Option String
  reviewerId : UUID
  deriving DecidableEq, Repr

structure AuditEntry where
  id : UUID
  jobId : UUID
  spanId : Option UUID
  reviewerId : UUID
  organizationId : UUID
  action : AuditAction
  category : String
  textHash : Option String
  entryHash : String
  prevHash : String
  sequence : Nat
  createdAt : DateTime
  deriving DecidableEq, Repr

/-- The tables, each in the order of insertion. -/
structure Database where
  documents : List Document
  jobs : List RedactionJob
  pages : List Page
  spans : List Span
  dispositions : List Disposition
  auditEntries : List AuditEntry
  deriving DecidableEq, Repr

def Database.empty : Database := ⟨[], [], [], [], [], []⟩

/-! ### Writes

An `INSERT` carries the new row.  An `UPDATE` carries the object as it was
loaded and as it is now, because the session writes the attributes that changed
and no others. -/

inductive Write
  | insertDocument (row : Document)
  | updateDocument (loaded new : Document)
  | insertJob (row : RedactionJob)
  | updateJob (loaded new : RedactionJob)
  | insertPage (row : Page)
  | insertSpan (row : Span)
  | updateSpan (loaded new : Span)
  | insertDisposition (row : Disposition)
  | updateDisposition (loaded new : Disposition)
  | insertAudit (row : AuditEntry)
  deriving DecidableEq, Repr

/-- An attribute after an `UPDATE`: written only if it changed since the load. -/
def patched {α : Type} [DecidableEq α] (loaded new stored : α) : α :=
  if new = loaded then stored else new

theorem patched_loaded {α : Type} [DecidableEq α] (loaded new : α) :
    patched loaded new loaded = new := by
  rw [patched]
  split
  · rename_i h; exact h.symm
  · rfl

@[simp] theorem patched_same {α : Type} [DecidableEq α] (loaded stored : α) :
    patched loaded loaded stored = stored := if_pos rfl

theorem patched_changed {α : Type} [DecidableEq α] {loaded new : α} (stored : α)
    (h : new ≠ loaded) : patched loaded new stored = new := if_neg h

def Document.patch (loaded new row : Document) : Document :=
  if row.id = loaded.id then
    { row with
      storagePath := patched loaded.storagePath new.storagePath row.storagePath
      storageUrl := patched loaded.storageUrl new.storageUrl row.storageUrl }
  else row

def RedactionJob.patch (loaded new row : RedactionJob) : RedactionJob :=
  if row.id = loaded.id then
    { row with
      status := patched loaded.status new.status row.status
      redactedPdfKey := patched loaded.redactedPdfKey new.redactedPdfKey row.redactedPdfKey }
  else row

def Span.patch (loaded new row : Span) : Span :=
  if row.id = loaded.id then
    { row with
      bboxes := patched loaded.bboxes new.bboxes row.bboxes
      text := patched loaded.text new.text row.text }
  else row

def Disposition.patch (loaded new row : Disposition) : Disposition :=
  if row.id = loaded.id then
    { row with
      action := patched loaded.action new.action row.action
      reason := patched loaded.reason new.reason row.reason
      reviewerId := patched loaded.reviewerId new.reviewerId row.reviewerId }
  else row

def Database.apply (db : Database) : Write → Database
  | .insertDocument row => { db with documents := db.documents ++ [row] }
  | .updateDocument loaded new => { db with documents := db.documents.map (Document.patch loaded new) }
  | .insertJob row => { db with jobs := db.jobs ++ [row] }
  | .updateJob loaded new => { db with jobs := db.jobs.map (RedactionJob.patch loaded new) }
  | .insertPage row => { db with pages := db.pages ++ [row] }
  | .insertSpan row => { db with spans := db.spans ++ [row] }
  | .updateSpan loaded new => { db with spans := db.spans.map (Span.patch loaded new) }
  | .insertDisposition row => { db with dispositions := db.dispositions ++ [row] }
  | .updateDisposition loaded new =>
    { db with dispositions := db.dispositions.map (Disposition.patch loaded new) }
  | .insertAudit row => { db with auditEntries := db.auditEntries ++ [row] }

@[simp] theorem Document.patch_id (l n r : Document) : (Document.patch l n r).id = r.id := by
  rw [Document.patch]; split <;> rfl

@[simp] theorem RedactionJob.patch_id (l n r : RedactionJob) :
    (RedactionJob.patch l n r).id = r.id := by
  rw [RedactionJob.patch]; split <;> rfl

@[simp] theorem RedactionJob.patch_documentId (l n r : RedactionJob) :
    (RedactionJob.patch l n r).documentId = r.documentId := by
  rw [RedactionJob.patch]; split <;> rfl

@[simp] theorem Span.patch_id (l n r : Span) : (Span.patch l n r).id = r.id := by
  rw [Span.patch]; split <;> rfl

@[simp] theorem Span.patch_pageId (l n r : Span) : (Span.patch l n r).pageId = r.pageId := by
  rw [Span.patch]; split <;> rfl

@[simp] theorem Span.patch_sourceTier (l n r : Span) :
    (Span.patch l n r).sourceTier = r.sourceTier := by
  rw [Span.patch]; split <;> rfl

@[simp] theorem Disposition.patch_id (l n r : Disposition) :
    (Disposition.patch l n r).id = r.id := by
  rw [Disposition.patch]; split <;> rfl

@[simp] theorem Disposition.patch_spanId (l n r : Disposition) :
    (Disposition.patch l n r).spanId = r.spanId := by
  rw [Disposition.patch]; split <;> rfl

theorem Database.mem_pages_apply {db : Database} {page : Page} (w : Write) (h : page ∈ db.pages) :
    page ∈ (db.apply w).pages := by
  cases w <;> first | exact h | exact List.mem_append_left _ h

/-! ### Unique constraints -/

/-- The unique keys of the schema: the primary keys, one job per document, one
page per document and number, one disposition per span, one audit entry per job
and sequence number. -/
inductive UniqueKey
  | documentPk (id : UUID)
  | jobPk (id : UUID)
  | jobDocument (documentId : UUID)
  | pagePk (id : UUID)
  | pageNumber (documentId : UUID) (n : Nat)
  | spanPk (id : UUID)
  | dispositionPk (id : UUID)
  | dispositionSpan (spanId : UUID)
  | auditPk (id : UUID)
  | auditSequence (jobId : UUID) (n : Nat)
  deriving DecidableEq, Repr

def Write.claims : Write → List UniqueKey
  | .insertDocument row => [.documentPk row.id]
  | .insertJob row => [.jobPk row.id, .jobDocument row.documentId]
  | .insertPage row => [.pagePk row.id, .pageNumber row.documentId row.pageNumber]
  | .insertSpan row => [.spanPk row.id]
  | .insertDisposition row => [.dispositionPk row.id, .dispositionSpan row.spanId]
  | .insertAudit row => [.auditPk row.id, .auditSequence row.jobId row.sequence]
  | .updateDocument _ _ | .updateJob _ _ | .updateSpan _ _ | .updateDisposition _ _ => []

def Database.taken (db : Database) : UniqueKey → Bool
  | .documentPk id => db.documents.any (·.id = id)
  | .jobPk id => db.jobs.any (·.id = id)
  | .jobDocument doc => db.jobs.any (·.documentId = doc)
  | .pagePk id => db.pages.any (·.id = id)
  | .pageNumber doc n => db.pages.any fun p => p.documentId = doc ∧ p.pageNumber = n
  | .spanPk id => db.spans.any (·.id = id)
  | .dispositionPk id => db.dispositions.any (·.id = id)
  | .dispositionSpan span => db.dispositions.any (·.spanId = span)
  | .auditPk id => db.auditEntries.any (·.id = id)
  | .auditSequence job n => db.auditEntries.any fun e => e.jobId = job ∧ e.sequence = n

theorem Database.taken_apply (db : Database) (w : Write) (k : UniqueKey) :
    (db.apply w).taken k = true ↔ db.taken k = true ∨ k ∈ w.claims := by
  cases w <;> cases k <;>
    simp only [Database.apply, Database.taken, Write.claims, List.any_append, List.any_map,
      List.any_cons, List.any_nil, Bool.or_false, Bool.or_eq_true, decide_eq_true_eq,
      List.mem_cons, List.not_mem_nil, or_false, reduceCtorEq, UniqueKey.documentPk.injEq,
      UniqueKey.jobPk.injEq, UniqueKey.jobDocument.injEq, UniqueKey.pagePk.injEq,
      UniqueKey.pageNumber.injEq, UniqueKey.spanPk.injEq, UniqueKey.dispositionPk.injEq,
      UniqueKey.dispositionSpan.injEq, UniqueKey.auditPk.injEq, UniqueKey.auditSequence.injEq,
      Function.comp_def, Document.patch_id, RedactionJob.patch_id, RedactionJob.patch_documentId,
      Span.patch_id, Disposition.patch_id, Disposition.patch_spanId, false_or] <;>
    simp only [eq_comm]

/-! ### Exceptions, messages, the world -/

inductive Detail
  | text (s : String)
  | auditChainBroken (message : String) (entryCount : Nat) (firstBrokenEntryId : Option UUID)
  | exportAssemblyFailed (message : String)
  deriving DecidableEq, Repr

inductive LimitKind
  | fileSize | pageCount
  deriving DecidableEq, Repr

/-- The exceptions of the pipeline.  `external` is what a library outside the
repository raises. -/
inductive Exn
  | invalidStateTransition (message : String)
  | undispositionedSpans (message : String)
  | lookup (message : String)
  | value (message : String)
  | overflow
  | spanNotFound (message : String)
  | validation
  | exportAssembly (message : String)
  | documentTooLarge (limitKind : LimitKind) (actual limit : Nat)
  | encryptedPdf (message : String)
  | malformedPdf (message : String)
  | unsupportedPage (pageNumbers : List Nat)
  | integrity
  | external (name : String)
  | http (status : Nat) (detail : Detail)
  deriving DecidableEq, Repr

/-- What a computation that did not raise went through. -/
theorem bind_ok {ε α β : Type} {x : Except ε α} {f : α → Except ε β} {b : β}
    (h : x >>= f = .ok b) : ∃ a, x = .ok a ∧ f a = .ok b := by
  cases x with
  | error e => cases h
  | ok a => exact ⟨a, rfl, h⟩

abbrev Bytes := List UInt8

/-- Messages on the task queue.  A `reviewer_id` that is no UUID is `none`. -/
inductive Message
  | ingestJob (jobId : UUID)
  | detectJob (jobId : UUID)
  | applyJob (jobId : UUID) (reviewerId : Option UUID)
  deriving DecidableEq, Repr

/-- What the environment supplies to one call: a fresh identifier and the time. -/
structure Input where
  uuid : UUID
  now : DateTime

instance : ReadCommitted.Store Database Write UniqueKey Exn where
  apply := Database.apply
  claims := Write.claims
  taken := Database.taken
  taken_apply := Database.taken_apply
  integrityError := .integrity

theorem Database.mem_pages_view {db : Database} {p : List Write} {page : Page}
    (h : page ∈ db.pages) : page ∈ (ReadCommitted.view db p).pages := by
  induction p generalizing db with
  | nil => exact h
  | cons w p ih => exact ih (mem_pages_apply w h)

end RedactApi
