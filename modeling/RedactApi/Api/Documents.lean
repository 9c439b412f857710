import RedactApi.Api.Jobs

/-!
# The document endpoints

`api/documents.py`: upload and delete.  The row of a document is in the database, its file
in the storage backend, and no transaction spans both.  An upload writes the file before it
commits the row, so a failure leaves a file without row at worst.  A delete removes the file
before it commits the removal of the row: when the flush or the commit fails, or the process
dies in between, the row stays and its file is gone (`kept_iff_completes`).
-/

namespace RedactApi

open ReadCommitted

/-! ### Table, storage and exceptions -/

/-- The committed rows, and the identifiers `gen_random_uuid` has given out. -/
structure DocumentTable where
  rows : List Document
  used : List UUID

inductive DocumentWrite
  | insert (row : Document)
  | update (id : UUID) (storagePath storageUrl : String)
  | delete (id : UUID)
  deriving DecidableEq, Repr

def DocumentTable.apply (table : DocumentTable) : DocumentWrite → DocumentTable
  | .insert row => ⟨table.rows ++ [row], row.id :: table.used⟩
  | .update id storagePath storageUrl => { table with rows := table.rows.map fun row =>
      if row.id = id then { row with storagePath := storagePath, storageUrl := storageUrl } else row }
  | .delete id => { table with rows := table.rows.filter (·.id ≠ id) }

inductive DocumentExn
  | http (status : Nat) (detail : String)
  | storage (message : String)
  | integrity
  | other (name : String)
  deriving DecidableEq, Repr

instance : Store DocumentTable DocumentWrite UUID DocumentExn where
  apply := DocumentTable.apply
  claims
    | .insert row => [row.id]
    | _ => []
  taken table id := id ∈ table.used
  taken_apply table w id := by
    rw [decide_eq_true_iff, decide_eq_true_iff]
    cases w <;> simp [DocumentTable.apply, or_comm]
  integrityError := .integrity

/-- The files, by organisation and document. -/
structure ObjectStorage where
  objects : UUID × UUID → Option Bytes

def ObjectStorage.put (w : ObjectStorage) (key : UUID × UUID) (data : Bytes) : ObjectStorage :=
  ⟨Function.update w.objects key (some data)⟩

def ObjectStorage.remove (w : ObjectStorage) (key : UUID × UUID) : ObjectStorage :=
  ⟨Function.update w.objects key none⟩

/-- A fresh identifier, and where the provider says that a file can be reached. -/
structure StorageInput where
  uuid : UUID
  url : String

abbrev DocumentTx := Prog DocumentTable DocumentWrite ObjectStorage StorageInput DocumentExn

/-- `storage_service.upload`. -/
def storageUpload (documentId : UUID) (fileData : Bytes) (organizationId : UUID) : DocumentTx String :=
  Prog.invoke (fun w _ => w.put (organizationId, documentId) fileData) fun _ i => .ok i.url

/-- `storage_service.delete`: tells whether there was a file.  A call that raises has had no
effect; one that raises after the file is gone is a call that returns, and a fault at the
flush behind it. -/
def storageDelete (documentId organizationId : UUID) : DocumentTx Bool :=
  Prog.invoke (fun w _ => w.remove (organizationId, documentId))
    fun w _ => .ok (w.objects (organizationId, documentId)).isSome

/-! ### POST -/

def allowedMimeTypes : List String :=
  ["application/pdf", "application/json", "image/jpeg", "image/png", "image/gif", "text/plain",
    "application/zip"]

def dangerousMimeTypes : List String :=
  ["text/html", "image/svg+xml", "application/javascript", "text/javascript"]

/-- The checks before anything is stored: name, content type and content. -/
def checkDocument (maxFileSizeBytes : Nat) (file : Upload) :
    Except DocumentExn (String × String × Bytes) :=
  let filename := file.filename.getD ""
  let contentType := match file.contentType with
    | some c => if c = "" then "application/octet-stream" else c
    | none => "application/octet-stream"
  let fileData := file.content.take (maxFileSizeBytes + 1)
  if filename = "" then .error (.http 400 "File must have a filename")
  else if contentType ∈ dangerousMimeTypes then
    .error (.http 400 ("File type '" ++ contentType ++ "' not allowed for security reasons"))
  else if fileData.length > maxFileSizeBytes then
    .error (.http 413 ("File exceeds maximum size of " ++ megabytes maxFileSizeBytes))
  else .ok (filename, if contentType ∈ allowedMimeTypes then contentType else "application/octet-stream",
    fileData)

/-- A storage error is answered after a rollback. -/
def storageUploadFailed : DocumentExn → DocumentTx String
  | .storage message => do
    Prog.rollbackNow
    .raise (.http 503 ("Failed to upload file to storage: " ++ message))
  | e => .raise e

def DocumentTable.document? (table : DocumentTable) (documentId : UUID) : Option Document :=
  table.rows.find? (·.id = documentId)

/-- Row, file, path and URL of the file, commit. -/
def uploadDocument (maxFileSizeBytes : Nat) (tenant : TenantContext) (file : Upload) :
    DocumentTx Document :=
  match checkDocument maxFileSizeBytes file with
  | .error e => .raise e
  | .ok (filename, contentType, fileData) => do
    let documentId ← Prog.invoke (fun w _ => w) fun _ i => .ok i.uuid
    let document : Document :=
      ⟨documentId, filename, contentType, fileData.length, tenant.organizationId, "", ""⟩
    Prog.send (.insert document)
    let storageUrl ← Prog.tryCatch
      (storageUpload document.id fileData tenant.organizationId) storageUploadFailed
    Prog.send (.update document.id storageUrl storageUrl)
    Prog.commitNow
    match ← Prog.query (·.document? documentId) with
    | some document => return document
    | none => .raise (.other "InvalidRequestError")

/-! ### DELETE -/

def DocumentTable.tenantDocument? (table : DocumentTable) (tenant : TenantContext)
    (documentId : UUID) : Option Document :=
  table.rows.find? fun row => row.id = documentId ∧ row.organizationId = tenant.organizationId

def storageDeleteFailed : DocumentExn → DocumentTx Bool
  | .storage message => .raise (.http 503 ("Failed to delete file from storage: " ++ message))
  | e => .raise e

/-- File first, then the row. -/
def deleteDocument (tenant : TenantContext) (documentId : UUID) : DocumentTx Unit := do
  match ← Prog.query (·.tenantDocument? tenant documentId) with
  | none => .raise (.http 404 "Document not found")
  | some document => do
    let _ ← Prog.tryCatch (storageDelete document.id document.organizationId) storageDeleteFailed
    Prog.send (.delete document.id)
    Prog.commitNow

/-! ### Sequences of requests -/

inductive DocumentRequest
  | upload (tenant : TenantContext) (file : Upload)
  | delete (tenant : TenantContext) (documentId : UUID)

def DocumentRequest.program (maxFileSizeBytes : Nat) : DocumentRequest → DocumentTx (Option Document)
  | .upload tenant file => do
    let document ← uploadDocument maxFileSizeBytes tenant file
    return some document
  | .delete tenant documentId => do
    deleteDocument tenant documentId
    return none

/-- A request that was served: the states around it and how its operations were answered. -/
structure ServedRequest where
  before : Shared DocumentTable ObjectStorage
  request : DocumentRequest
  labels : List (Label StorageInput DocumentExn)
  after : Shared DocumentTable ObjectStorage

/-- Requests served one after the other, each up to its end, a failure or a crash. -/
inductive ServedRun (maxFileSizeBytes : Nat) : Shared DocumentTable ObjectStorage →
    List ServedRequest → Shared DocumentTable ObjectStorage → Prop
  | nil (s : Shared DocumentTable ObjectStorage) : ServedRun maxFileSizeBytes s [] s
  | cons {s s₁ s' : Shared DocumentTable ObjectStorage} {request : DocumentRequest}
      {labels : List (Label StorageInput DocumentExn)} {steps : List ServedRequest} :
      Stops (request.program maxFileSizeBytes) labels s [] s₁ →
      ServedRun maxFileSizeBytes s₁ steps s' →
      ServedRun maxFileSizeBytes s (⟨s, request, labels, s₁⟩ :: steps) s'

/-- Every committed row has its file. -/
def Stored (s : Shared DocumentTable ObjectStorage) : Prop :=
  ∀ row ∈ s.db.rows, (s.world.objects (row.organizationId, row.id)).isSome

/-- Once a delete has found its row and removed the file, nothing fails any more. -/
def CompletesDelete (s : Shared DocumentTable ObjectStorage) (request : DocumentRequest)
    (labels : List (Label StorageInput DocumentExn)) : Prop :=
  match request with
  | .upload _ _ => True
  | .delete tenant documentId => (s.db.tenantDocument? tenant documentId).isSome →
    ∀ i j rest, labels = .ok i :: .ok j :: rest → ∀ l ∈ rest, l.isOk = true

/-! ### Uploads keep the files -/

def DocumentTable.keys (table : DocumentTable) : List (UUID × UUID) :=
  table.rows.map fun row => (row.organizationId, row.id)

theorem kept_iff {s : Shared DocumentTable ObjectStorage} :
    Stored s ↔ ∀ key ∈ s.db.keys, (s.world.objects key).isSome := by
  simp [Stored, DocumentTable.keys]

theorem keys_insert (table : DocumentTable) (row : Document) :
    (table.apply (.insert row)).keys = table.keys ++ [(row.organizationId, row.id)] := by
  simp [DocumentTable.apply, DocumentTable.keys]

theorem keys_update (table : DocumentTable) (id : UUID) (storagePath storageUrl : String) :
    (table.apply (.update id storagePath storageUrl)).keys = table.keys := by
  simp only [DocumentTable.apply, DocumentTable.keys, List.map_map]
  refine List.map_congr_left fun row _ => ?_
  dsimp only [Function.comp_apply]
  split <;> rfl

theorem Stored.put {s : Shared DocumentTable ObjectStorage} (h : Stored s) (key : UUID × UUID)
    (data : Bytes) : Stored { s with world := s.world.put key data } := by
  intro row hrow
  by_cases hkey : (row.organizationId, row.id) = key
  · simp [ObjectStorage.put, hkey]
  · simpa [ObjectStorage.put, Function.update_of_ne hkey] using h row hrow

theorem Stored.committed {s : Shared DocumentTable ObjectStorage} (h : Stored s) (row : Document)
    (data : Bytes) (storagePath storageUrl : String) :
    Stored ⟨view s.db [.insert row, .update row.id storagePath storageUrl],
      s.world.put (row.organizationId, row.id) data⟩ := by
  refine kept_iff.mpr fun key hkey => ?_
  have hkeys : (view s.db [.insert row, .update row.id storagePath storageUrl]).keys =
      s.db.keys ++ [(row.organizationId, row.id)] :=
    (keys_update _ _ _ _).trans (keys_insert _ _)
  dsimp only at hkey ⊢
  rw [hkeys, List.mem_append, List.mem_singleton] at hkey
  obtain hkey | rfl := hkey
  · exact kept_iff.mp (h.put (row.organizationId, row.id) data) key hkey
  · simp [ObjectStorage.put]

/-- Nobody else moves, anything may fail, every committed row has its file. -/
def keptContract : Contract DocumentTable DocumentWrite ObjectStorage StorageInput DocumentExn where
  inv := Stored
  rely s s' := s' = s
  guar _ _ := True
  allowed _ _ := True
  input _ _ _ := True
  fault _ := True
  past _ _ := True
  rely_refl _ := rfl
  rely_trans h h' := h'.trans h
  guar_refl _ := trivial
  past_refl _ := trivial
  past_trans _ _ := trivial
  rely_past _ := trivial

/-- **An upload writes the file before it commits the row.** -/
theorem uploadDocument_safe (maxFileSizeBytes : Nat) (tenant : TenantContext) (file : Upload)
    (s : Shared DocumentTable ObjectStorage) :
    keptContract.wp (uploadDocument maxFileSizeBytes tenant file) (fun _ _ _ => True)
      (fun _ _ _ => True) s [] := by
  unfold uploadDocument
  split
  · trivial
  · rename_i filename contentType fileData _
    -- the identifier
    rintro s₁ ⟨hkept, rfl, -⟩
    refine ⟨fun i _ => ⟨⟨hkept, trivial, trivial⟩, ?_⟩, fun _ _ => trivial⟩
    -- the insert
    rintro s₂ ⟨-, rfl, -⟩
    refine ⟨fun _ => ?_, fun _ => trivial, fun _ _ => trivial⟩
    -- the file
    rintro s₃ ⟨-, rfl, -⟩
    refine ⟨fun j _ => ⟨⟨hkept.put _ _, trivial, trivial⟩, ?_⟩, fun e _ => ?_⟩
    · -- path and URL
      rintro s₄ ⟨-, rfl, -⟩
      refine ⟨fun _ => ?_, fun _ => trivial, fun _ _ => trivial⟩
      -- the commit
      rintro s₅ ⟨-, rfl, -⟩
      refine ⟨fun _ => ⟨?_, trivial, ?_⟩, fun _ _ => trivial⟩
      · exact hkept.committed _ _ _ _
      · rintro s₆ ⟨-, rfl, -⟩
        refine ⟨?_, fun _ _ => trivial⟩
        change keptContract.wp (match DocumentTable.document? _ _ with
          | some document => Prog.ret document
          | none => .raise (.other "InvalidRequestError")) _ _ _ _
        split <;> trivial
    · cases e with
      | storage message => exact fun _ _ => trivial
      | http _ _ => trivial
      | integrity => trivial
      | other _ => trivial

/-! ### Deletes -/

/-- The rows with the identifier are gone, and so is the file of the row. -/
theorem Stored.deleted {s : Shared DocumentTable ObjectStorage} (h : Stored s) {organizationId : UUID}
    (id : UUID) : Stored ⟨s.db.apply (.delete id), s.world.remove (organizationId, id)⟩ := by
  intro row hrow
  obtain ⟨hrow, hid⟩ := List.mem_filter.mp hrow
  have hne : (row.organizationId, row.id) ≠ (organizationId, id) := by
    intro heq
    exact absurd (congrArg Prod.snd heq) (by simpa using hid)
  simpa [ObjectStorage.remove, Function.update_of_ne hne] using h row hrow

theorem not_kept_removed {s : Shared DocumentTable ObjectStorage} {row : Document}
    (h : row ∈ s.db.rows) :
    ¬ Stored { s with world := s.world.remove (row.organizationId, row.id) } := by
  intro hkept
  have hfile := hkept row h
  simp [ObjectStorage.remove] at hfile

/-- From the file's removal on: the row goes too, unless something fails. -/
theorem kept_removal_iff {s s' : Shared DocumentTable ObjectStorage} (hs : Stored s) {row : Document}
    (hrow : row ∈ s.db.rows) {err : DocumentExn → DocumentTx (Option Document)}
    (herr : ∀ e, ∃ e', err e = .raise e') {labels : List (Label StorageInput DocumentExn)}
    (h : Stops (.call (fun w _ => w.remove (row.organizationId, row.id))
      (fun _ _ => .flush (.delete row.id) (.commit (.ret none) .raise) .raise) err)
      labels s [] s') :
    Stored s' ↔ ∀ j rest, labels = .ok j :: rest → ∀ l ∈ rest, l.isOk = true := by
  have hbroken := not_kept_removed hrow
  have hfail : ∀ {ls : List (Label StorageInput DocumentExn)} {l : Label StorageInput DocumentExn},
      l.isOk = false → l ∈ ls → ¬ ∀ l ∈ ls, l.isOk = true := by
    intro ls l hl hmem hall
    rw [hall l hmem] at hl
    cases hl
  obtain ⟨j, rest, rfl, hflush⟩ | ⟨rfl, l, hl, rfl⟩ := h.call_inv herr
  · have hlabels : (∀ j' rest', (.ok j :: rest : List (Label StorageInput DocumentExn)) =
        .ok j' :: rest' → ∀ l ∈ rest', l.isOk = true) ↔ ∀ l ∈ rest, l.isOk = true :=
      ⟨fun hc => hc j rest rfl, fun hc j' rest' heq => (List.cons.inj heq).2 ▸ hc⟩
    rw [hlabels]
    obtain ⟨_, _, rfl, hcommit⟩ | ⟨rfl, l, hl, rfl⟩ := hflush.flush_inv rfl
    · obtain ⟨_, _, rfl, hret⟩ | ⟨rfl, l, hl, rfl⟩ := hcommit.commit_inv
      · obtain ⟨rfl, rfl⟩ := hret.ret_inv
        exact iff_of_true (hs.deleted row.id) (by simp [Label.isOk])
      · exact iff_of_false hbroken (hfail hl (by simp))
    · exact iff_of_false hbroken (hfail hl (by simp))
  · refine iff_of_true hs fun j rest hlabels => ?_
    obtain ⟨rfl, -⟩ := List.cons.inj hlabels
    cases hl

/-- **A delete keeps the files** exactly when nothing fails after the file is gone. -/
theorem kept_delete_iff {s s' : Shared DocumentTable ObjectStorage} (hs : Stored s)
    {maxFileSizeBytes : Nat} {tenant : TenantContext} {documentId : UUID}
    {labels : List (Label StorageInput DocumentExn)}
    (h : Stops ((DocumentRequest.delete tenant documentId).program maxFileSizeBytes) labels s [] s') :
    Stored s' ↔ CompletesDelete s (.delete tenant documentId) labels := by
  obtain ⟨i, rest, rfl, hfound⟩ | ⟨rfl, l, hl, rfl⟩ := Stops.select_inv h
  · cases hrow : s.db.tenantDocument? tenant documentId with
    | none =>
      simp only [Prog.graft, view_nil, hrow] at hfound
      obtain ⟨-, rfl⟩ := Stops.raise_inv hfound
      refine iff_of_true hs fun hsome => ?_
      rw [hrow] at hsome
      cases hsome
    | some row =>
      simp only [Prog.graft, view_nil, hrow] at hfound
      have herr : ∀ e, ∃ e', (((storageDeleteFailed e).graft (fun _ =>
          (Prog.send (.delete row.id) : DocumentTx Unit).bind fun _ => Prog.commitNow) .raise).graft
            (fun _ => .ret none) .raise : DocumentTx (Option Document)) = .raise e' := by
        intro e
        cases e <;> exact ⟨_, rfl⟩
      rw [kept_removal_iff hs (List.mem_of_find?_eq_some hrow) herr hfound]
      constructor
      · intro hc _ i' j rest' hlabels
        exact hc j rest' (List.cons.inj hlabels).2
      · intro hc j rest' hrest
        exact hc (by rw [hrow]; rfl) i j rest' (by rw [hrest])
  · refine iff_of_true hs fun _ i j rest hlabels => ?_
    cases hlabels

theorem kept_upload {s s' : Shared DocumentTable ObjectStorage} (hs : Stored s) {maxFileSizeBytes : Nat}
    {tenant : TenantContext} {file : Upload} {labels : List (Label StorageInput DocumentExn)}
    (h : Stops ((DocumentRequest.upload tenant file).program maxFileSizeBytes) labels s [] s') :
    Stored s' := by
  refine Contract.wp_stops (C := keptContract) (fun _ _ _ => trivial) (fun _ _ => trivial)
    (fun _ => trivial) h hs (free_nil _) ?_
  exact Contract.wp_bind (uploadDocument_safe maxFileSizeBytes tenant file s)

/-! ### Runs -/

/-- **When a row never outlives its file.**  From rows that have their files, every request
leaves all committed rows with their files exactly when no delete that has found its row
fails or dies between the removal of the file and its commit. -/
theorem kept_throughout_iff {maxFileSizeBytes : Nat} {s s' : Shared DocumentTable ObjectStorage}
    {steps : List ServedRequest} (h : ServedRun maxFileSizeBytes s steps s') (hs : Stored s) :
    (∀ step ∈ steps, Stored step.after) ↔
      ∀ step ∈ steps, CompletesDelete step.before step.request step.labels := by
  induction h with
  | nil => simp
  | @cons s s₁ s' request labels steps hstops _ ih =>
    rw [List.forall_mem_cons, List.forall_mem_cons]
    dsimp only
    have hfirst : Stored s₁ ↔ CompletesDelete s request labels := by
      cases request with
      | upload tenant file => exact iff_of_true (kept_upload hs hstops) trivial
      | delete tenant documentId => exact kept_delete_iff hs hstops
    rw [← hfirst]
    constructor
    · rintro ⟨hkept, hrest⟩
      exact ⟨hkept, (ih hkept).mp hrest⟩
    · rintro ⟨hkept, hrest⟩
      exact ⟨hkept, (ih hkept).mpr hrest⟩

def noDocuments : Shared DocumentTable ObjectStorage := ⟨⟨[], []⟩, ⟨fun _ => none⟩⟩

def noteUpload : DocumentRequest :=
  .upload ⟨1, 2, .member⟩ ⟨some "note.txt", some "text/plain", [104, 105]⟩

def noteAnswer : Label StorageInput DocumentExn := .ok ⟨7, "uploads/1/7"⟩

/-- The text is uploaded and deleted. -/
theorem kept_throughout_iff_note : ∃ steps s', ServedRun 100 noDocuments steps s' ∧
    steps.length = 2 ∧ ∀ step ∈ steps, Stored step.after := by
  have hrun : ServedRun 100 noDocuments
      [⟨noDocuments, noteUpload, List.replicate 6 noteAnswer, _⟩,
        ⟨_, .delete ⟨1, 2, .member⟩ 7, List.replicate 4 noteAnswer, _⟩] _ :=
    .cons (ends_of_outcome rfl).stops (.cons (ends_of_outcome rfl).stops (.nil _))
  refine ⟨_, _, hrun, rfl, (kept_throughout_iff hrun ?_).mpr ?_⟩
  · exact fun row hrow => absurd hrow List.not_mem_nil
  · refine List.forall_mem_cons.mpr ⟨trivial, List.forall_mem_singleton.mpr ?_⟩
    intro _ i j rest hlabels
    cases hlabels
    decide

/-- The text is uploaded; the delete removes the file, and then the flush fails: the row is
committed and its file is gone. -/
theorem row_outlives_file : ∃ steps s', ServedRun 100 noDocuments steps s' ∧
    steps.length = 2 ∧ s'.db.rows.length = 1 ∧
      ∃ row ∈ s'.db.rows, s'.world.objects (row.organizationId, row.id) = none := by
  have hrun : ServedRun 100 noDocuments
      [⟨noDocuments, noteUpload, List.replicate 6 noteAnswer, _⟩,
        ⟨_, .delete ⟨1, 2, .member⟩ 7,
          [noteAnswer, noteAnswer, .fault (.other "ForeignKeyViolation")], _⟩] _ :=
    .cons (ends_of_outcome rfl).stops (.cons (ends_of_outcome rfl).stops (.nil _))
  exact ⟨_, _, hrun, rfl, rfl, _, List.mem_cons_self, rfl⟩

end RedactApi
