import RedactApi.Pipeline.EditEvidence

/-!
# No change without an entry

The audit chain is written by the code that changes the review, not by the database.
This module says that the code never forgets: whatever operations run and however they
overlap, a commit that edits a span, adds one by hand, writes a disposition, or moves a
job to `verified` or `exported`, adds an entry that tells of it.

`Write.ToldBy` is what one pending write asks of the entries of its transaction;
`Recorded` is what a commit owes them.
-/

namespace RedactApi

open ReadCommitted KeyedList

/-! ### What a commit owes the log -/

def announcedBy : JobStatus → Option AuditAction
  | .verified => some .verifyPassed
  | .exported => some .exported
  | _ => none

/-- What has changed is told by the entries. -/
structure Told (db db' : Database) (es : List AuditEntry) : Prop where
  edits : ∀ span ∈ db.spans, span ∈ db'.spans ∨
    ∃ e ∈ es, e.spanId = some span.id ∧ e.action = .edited
  additions : ∀ span ∈ db'.spans,
    (∃ old ∈ db.spans, old.id = span.id ∧ old.confidence = span.confidence) ∨
    span.confidence.isSome ∨ ∃ e ∈ es, e.spanId = some span.id ∧ e.action = .manualSpanAdded
  dispositions : ∀ d ∈ db'.dispositions, d ∈ db.dispositions ∨ ∃ e ∈ es, e.spanId = some d.spanId
  statuses : ∀ job ∈ db'.jobs, ∀ action, announcedBy job.status = some action →
    (∃ old ∈ db.jobs, old.id = job.id ∧ old.status = job.status) ∨
      ∃ e ∈ es, e.jobId = job.id ∧ e.action = action

/-- The entries that were added tell what has changed. -/
structure Recorded (db db' : Database) (es : List AuditEntry) : Prop extends Told db db' es where
  entries : db'.auditEntries = db.auditEntries ++ es

theorem Told.refl (db : Database) : Told db db [] where
  edits _ h := Or.inl h
  additions span h := Or.inl ⟨span, h, rfl, rfl⟩
  dispositions _ h := Or.inl h
  statuses job h _ _ := Or.inl ⟨job, h, rfl, rfl⟩

/-- What is told of two changes in a row tells of both. -/
theorem Told.trans {a b c : Database} {es es' : List AuditEntry} (h : Told a b es)
    (h' : Told b c es') : Told a c (es ++ es') where
  edits span hs := by
    rcases h.edits span hs with hs | ⟨e, he, hrest⟩
    · refine (h'.edits span hs).imp_right ?_
      rintro ⟨e, he, hrest⟩
      exact ⟨e, List.mem_append_right _ he, hrest⟩
    · exact Or.inr ⟨e, List.mem_append_left _ he, hrest⟩
  additions span hs := by
    rcases h'.additions span hs with ⟨old, hold, hid, hconfidence⟩ | hdetected | ⟨e, he, hrest⟩
    · rw [← hid, ← hconfidence]
      refine (h.additions old hold).imp_right (Or.imp_right ?_)
      rintro ⟨e, he, hrest⟩
      exact ⟨e, List.mem_append_left _ he, hrest⟩
    · exact Or.inr (Or.inl hdetected)
    · exact Or.inr (Or.inr ⟨e, List.mem_append_right _ he, hrest⟩)
  dispositions d hd := by
    rcases h'.dispositions d hd with hd | ⟨e, he, hrest⟩
    · refine (h.dispositions d hd).imp_right ?_
      rintro ⟨e, he, hrest⟩
      exact ⟨e, List.mem_append_left _ he, hrest⟩
    · exact Or.inr ⟨e, List.mem_append_right _ he, hrest⟩
  statuses job hj action ha := by
    rcases h'.statuses job hj action ha with ⟨old, hold, hid, hstatus⟩ | ⟨e, he, hrest⟩
    · rw [← hid, ← hstatus]
      refine (h.statuses old hold action (hstatus ▸ ha)).imp_right ?_
      rintro ⟨e, he, hrest⟩
      exact ⟨e, List.mem_append_left _ he, hrest⟩
    · exact Or.inr ⟨e, List.mem_append_right _ he, hrest⟩

theorem Recorded.trans {a b c : Database} {es es' : List AuditEntry} (h : Recorded a b es)
    (h' : Recorded b c es') : Recorded a c (es ++ es') :=
  ⟨h.toTold.trans h'.toTold, by rw [h'.entries, h.entries, List.append_assoc]⟩

theorem Recorded.refl (db : Database) : Recorded db db [] :=
  ⟨Told.refl db, (List.append_nil _).symm⟩

/-! ### Dispositions keep their spans -/

def KeepsDispositions (db db' : Database) : Prop :=
  ∀ d ∈ db.dispositions, ∃ d' ∈ db'.dispositions, d'.id = d.id ∧ d'.spanId = d.spanId

theorem KeepsDispositions.refl (db : Database) : KeepsDispositions db db := fun d h => ⟨d, h, rfl, rfl⟩

theorem KeepsDispositions.trans {a b c : Database} (h : KeepsDispositions a b)
    (h' : KeepsDispositions b c) : KeepsDispositions a c := by
  intro d hd
  obtain ⟨d₁, hd₁, hid₁, hspan₁⟩ := h d hd
  obtain ⟨d₂, hd₂, hid₂, hspan₂⟩ := h' d₁ hd₁
  exact ⟨d₂, hd₂, hid₂.trans hid₁, hspan₂.trans hspan₁⟩

theorem KeepsDispositions.apply {db db' : Database} (h : KeepsDispositions db db') (w : Write) :
    KeepsDispositions (db.apply w) (db'.apply w) := by
  cases w with
  | insertDisposition row =>
    intro d hd
    rcases List.mem_append.mp hd with hd | hd
    · obtain ⟨d', hd', hrest⟩ := h d hd
      exact ⟨d', List.mem_append_left _ hd', hrest⟩
    · exact ⟨d, List.mem_append_right _ hd, rfl, rfl⟩
  | updateDisposition loaded new =>
    intro d hd
    obtain ⟨d₀, hd₀, rfl⟩ := List.mem_map.mp hd
    obtain ⟨d', hd', hid, hspan⟩ := h d₀ hd₀
    exact ⟨_, List.mem_map_of_mem hd', by simpa using hid, by simpa using hspan⟩
  | _ => exact h

theorem KeepsDispositions.view {db db' : Database} (h : KeepsDispositions db db') (p : List Write) :
    KeepsDispositions (view db p) (view db' p) := by
  induction p generalizing db db' with
  | nil => exact h
  | cons w p ih => exact ih (h.apply w)

theorem keepsDispositions_apply (db : Database) (w : Write) : KeepsDispositions db (db.apply w) := by
  cases w with
  | insertDisposition row => exact fun d hd => ⟨d, List.mem_append_left _ hd, rfl, rfl⟩
  | updateDisposition loaded new =>
    exact fun d hd =>
      ⟨_, List.mem_map_of_mem hd, Disposition.patch_id _ _ _, Disposition.patch_spanId _ _ _⟩
  | _ => exact KeepsDispositions.refl db

theorem keepsDispositions_view (db : Database) (p : List Write) : KeepsDispositions db (view db p) := by
  induction p generalizing db with
  | nil => exact KeepsDispositions.refl db
  | cons w p ih => exact (keepsDispositions_apply db w).trans (ih _)

def DispositionKey (db : Database) : Prop := (db.dispositions.map (·.id)).Nodup

theorem DispositionKey.view {db : Database} {p : List Write} (h : DispositionKey db)
    (hf : Free db p) : DispositionKey (view db p) := by
  induction p generalizing db with
  | nil => exact h
  | cons w p ih =>
    refine ih ?_ hf.tail
    have hc := hf.head
    cases w with
    | insertDisposition row =>
      show ((db.dispositions ++ [row]).map (·.id)).Nodup
      rw [List.map_append]
      refine List.nodup_append.mpr ⟨h, List.nodup_singleton _, fun x hx y hy hxy => ?_⟩
      obtain ⟨d, hd, rfl⟩ := List.mem_map.mp hx
      rw [List.map_singleton, List.mem_singleton] at hy
      exact (disposition_fresh hc d hd).1 (hxy.trans hy)
    | updateDisposition loaded new =>
      show ((db.dispositions.map (Disposition.patch loaded new)).map (·.id)).Nodup
      rw [List.map_map, show (fun d : Disposition => d.id) ∘ Disposition.patch loaded new = (·.id) from
        funext fun d => Disposition.patch_id _ _ _]
      exact h
    | _ => exact h

/-! ### What a write asks of the entries -/

def loggedBy (p : List Write) : List AuditEntry :=
  p.filterMap fun w => match w with
    | .insertAudit row => some row
    | _ => none

/-- The entries tell of the write; a disposition that it rewrites is on the span it was
loaded with, in the tables that the transaction ends with. -/
def Write.ToldBy (final : Database) (es : List AuditEntry) : Write → Prop
  | .insertJob row => announcedBy row.status = none
  | .updateJob loaded new => ∀ action, announcedBy new.status = some action →
      new.status ≠ loaded.status → ∃ e ∈ es, e.jobId = loaded.id ∧ e.action = action
  | .insertSpan row => row.confidence.isSome ∨
      ∃ e ∈ es, e.spanId = some row.id ∧ e.action = .manualSpanAdded
  | .updateSpan loaded _ => ∃ e ∈ es, e.spanId = some loaded.id ∧ e.action = .edited
  | .insertDisposition row => ∃ e ∈ es, e.spanId = some row.spanId
  | .updateDisposition loaded _ => (∃ e ∈ es, e.spanId = some loaded.spanId) ∧
      ∃ d ∈ final.dispositions, d.id = loaded.id ∧ d.spanId = loaded.spanId
  | _ => True

section

variable {db mid final final' : Database} {es es' : List AuditEntry} {w : Write} {p q : List Write}

theorem Write.ToldBy.mono (h : w.ToldBy final es) (hf : KeepsDispositions final final')
    (he : es ⊆ es') : w.ToldBy final' es' := by
  cases w with
  | updateJob loaded new =>
    intro action ha hne
    obtain ⟨e, hm, hrest⟩ := h action ha hne
    exact ⟨e, he hm, hrest⟩
  | insertSpan row =>
    refine Or.imp_right ?_ h
    rintro ⟨e, hm, hrest⟩
    exact ⟨e, he hm, hrest⟩
  | updateSpan loaded new =>
    obtain ⟨e, hm, hrest⟩ := h
    exact ⟨e, he hm, hrest⟩
  | insertDisposition row =>
    obtain ⟨e, hm, hrest⟩ := h
    exact ⟨e, he hm, hrest⟩
  | updateDisposition loaded new =>
    obtain ⟨⟨e, hm, hrest⟩, d, hd, hid, hspan⟩ := h
    obtain ⟨d', hd', hid', hspan'⟩ := hf d hd
    exact ⟨⟨e, he hm, hrest⟩, d', hd', hid'.trans hid, hspan'.trans hspan⟩
  | _ => exact h

theorem loggedBy_append : loggedBy (p ++ q) = loggedBy p ++ loggedBy q := List.filterMap_append

theorem auditEntries_view (db : Database) (p : List Write) :
    (view db p).auditEntries = db.auditEntries ++ loggedBy p := by
  induction p generalizing db with
  | nil => exact (List.append_nil _).symm
  | cons w p ih =>
    show (view (db.apply w) p).auditEntries = _
    rw [ih]
    cases w with
    | insertAudit row => simp [Database.apply, loggedBy]
    | _ => rfl

theorem Span.patch_confidence (loaded new row : Span) :
    (Span.patch loaded new row).confidence = row.confidence := by
  rw [Span.patch]
  split <;> rfl

/-- **One write** whose entries tell of it. -/
theorem Told.apply (h : Told db mid es) (hw : w.ToldBy final es) (hkeep : KeepsDispositions mid final)
    (hkey : DispositionKey final) : Told db (mid.apply w) es := by
  cases w with
  | insertJob row =>
    refine ⟨h.edits, h.additions, h.dispositions, fun job hj action ha => ?_⟩
    rcases List.mem_append.mp hj with hj | hj
    · exact h.statuses job hj action ha
    · rw [List.mem_singleton.mp hj, show announcedBy row.status = none from hw] at ha
      cases ha
  | updateJob loaded new =>
    refine ⟨h.edits, h.additions, h.dispositions, fun job hj action ha => ?_⟩
    obtain ⟨j, hold, rfl⟩ := List.mem_map.mp hj
    rw [RedactionJob.patch_id]
    by_cases hid : j.id = loaded.id
    · by_cases hne : new.status = loaded.status
      · have hstatus : (RedactionJob.patch loaded new j).status = j.status := by
          rw [RedactionJob.patch, if_pos hid]
          exact if_pos hne
        rw [hstatus] at ha ⊢
        exact h.statuses j hold action ha
      · have hstatus : (RedactionJob.patch loaded new j).status = new.status := by
          rw [RedactionJob.patch, if_pos hid]
          exact patched_changed _ hne
        rw [hstatus] at ha
        rw [hid]
        exact Or.inr (hw action ha hne)
    · rw [RedactionJob.patch, if_neg hid] at ha ⊢
      exact h.statuses j hold action ha
  | insertSpan row =>
    refine ⟨fun span hs => (h.edits span hs).imp_left (List.mem_append_left _), fun span hs => ?_,
      h.dispositions, h.statuses⟩
    rcases List.mem_append.mp hs with hs | hs
    · exact h.additions span hs
    · rw [List.mem_singleton.mp hs]
      exact Or.inr hw
  | updateSpan loaded new =>
    refine ⟨fun span hs => ?_, fun span hs => ?_, h.dispositions, h.statuses⟩
    · by_cases hid : span.id = loaded.id
      · rw [hid]
        exact Or.inr hw
      · refine (h.edits span hs).imp_left fun hm => List.mem_map.mpr ⟨span, hm, ?_⟩
        rw [Span.patch, if_neg hid]
    · obtain ⟨row, hrow, rfl⟩ := List.mem_map.mp hs
      rw [Span.patch_id, Span.patch_confidence]
      exact h.additions row hrow
  | insertDisposition row =>
    refine ⟨h.edits, h.additions, fun d hd => ?_, h.statuses⟩
    rcases List.mem_append.mp hd with hd | hd
    · exact h.dispositions d hd
    · rw [List.mem_singleton.mp hd]
      exact Or.inr hw
  | updateDisposition loaded new =>
    refine ⟨h.edits, h.additions, fun d hd => ?_, h.statuses⟩
    obtain ⟨row, hrow, rfl⟩ := List.mem_map.mp hd
    by_cases hid : row.id = loaded.id
    · obtain ⟨hentry, d₀, hd₀, hid₀, hspan₀⟩ := hw
      obtain ⟨d₁, hd₁, hid₁, hspan₁⟩ := hkeep row hrow
      have hsame := List.inj_on_of_nodup_map hkey hd₀ hd₁ (hid₀.trans (hid.symm.trans hid₁.symm))
      rw [Disposition.patch_spanId, ← hspan₁, ← hsame, hspan₀]
      exact Or.inr hentry
    · rw [Disposition.patch, if_neg hid]
      exact h.dispositions row hrow
  | _ => exact ⟨h.edits, h.additions, h.dispositions, h.statuses⟩

theorem Told.view (h : Told db mid es) (hp : ∀ w ∈ p, w.ToldBy (view mid p) es)
    (hkey : DispositionKey (view mid p)) : Told db (view mid p) es := by
  induction p generalizing mid with
  | nil => exact h
  | cons w p ih =>
    have hstep := h.apply (hp w List.mem_cons_self) (keepsDispositions_view mid (w :: p)) hkey
    exact ih hstep (fun v hv => hp v (List.mem_cons_of_mem w hv)) hkey

/-- **A transaction** whose entries tell of each of its writes. -/
theorem recorded_view (hkey : DispositionKey (view db p))
    (hp : ∀ w ∈ p, w.ToldBy (view db p) (loggedBy p)) : Recorded db (view db p) (loggedBy p) where
  toTold := by
    have hstart : Told db db (loggedBy p) :=
      ⟨fun _ h => Or.inl h, fun span h => Or.inl ⟨span, h, rfl, rfl⟩, fun _ h => Or.inl h,
        fun job h _ _ => Or.inl ⟨job, h, rfl, rfl⟩⟩
    exact hstart.view hp hkey
  entries := auditEntries_view db p

theorem toldBy_statusWrite {job : RedactionJob} {newStatus : JobStatus}
    (h : announcedBy newStatus = none) : (statusWrite job newStatus).ToldBy final es := by
  intro action ha _
  rw [show announcedBy newStatus = some action from ha] at h
  cases h

end

/-! ### The writes of the operations -/

section

variable {env : Env} {C : Contract Database Write World Input Exn}

theorem mem_spanWrites {span : Span} {item : ExistingItem} {w : Write} (h : w ∈ spanWrites span item) :
    item.isEdit = true ∧ w = .updateSpan span (editedSpan span item) := by
  rw [spanWrites] at h
  split_ifs at h with hedit
  · exact ⟨hedit, List.mem_singleton.mp h⟩
  · cases h

theorem auditActionByVerb_edit {item : ExistingItem} (h : item.isEdit = true) :
    auditActionByVerb item = .edited := by
  cases item with
  | edit => rfl
  | _ => cases h

/-- **The entries of a batch** tell of what it writes. -/
theorem told_batch {s₁ s₂ : Shared Database World} {job : RedactionJob} {reviewerId : UUID}
    {p : List Write} (h : BatchWrites env (C.Between s₁ s₂) job reviewerId p)
    (hpast : ∀ s s', C.past s s' → KeepsDispositions s.db s'.db) :
    ∀ w ∈ p, w.ToldBy (view s₂.db p) (loggedBy p) := by
  induction h with
  | nil => exact fun _ h => absurd h List.not_mem_nil
  | @existing q item span page existing newId id organizationId createdAt t₁ t₂ t₃ _ _ ht₂ _ _ _ hex _ ih =>
    intro w hw
    generalize hentry : makeEntry env id job.id organizationId (existingEvent span item reviewerId)
      _ createdAt = e at hw ⊢
    have hspan : e.spanId = some span.id := by rw [← hentry]; rfl
    have haction : e.action = auditActionByVerb item := by rw [← hentry]; rfl
    have hlogged : e ∈ loggedBy (q ++ spanWrites span item ++
        [dispositionWrite newId span.id existing (dispositionActionByVerb item) reviewerId item.reason] ++
        [.insertAudit e]) := by
      rw [loggedBy_append]
      exact List.mem_append_right _ (List.mem_singleton_self e)
    rcases List.mem_append.mp hw with hw | hw
    · rcases List.mem_append.mp hw with hw | hw
      · rcases List.mem_append.mp hw with hw | hw
        · refine (ih w hw).mono ?_ ?_
          · rw [List.append_assoc, List.append_assoc, view_append]
            exact keepsDispositions_view _ _
          · rw [List.append_assoc, List.append_assoc, loggedBy_append]
            exact List.subset_append_left _ _
        · obtain ⟨hedit, rfl⟩ := mem_spanWrites hw
          exact ⟨e, hlogged, hspan, haction.trans (auditActionByVerb_edit hedit)⟩
      · rw [List.mem_singleton.mp hw]
        cases existing with
        | none => exact ⟨e, hlogged, hspan⟩
        | some d =>
          have hd : d.spanId = span.id := disposition?_spanId hex.symm
          refine ⟨⟨e, hlogged, hspan.trans (congrArg some hd.symm)⟩, ?_⟩
          -- the disposition was read, so it is still there when the batch commits
          have hkeeps := ((hpast _ _ ht₂.2).view q).trans (keepsDispositions_view _ (spanWrites span item ++
            [dispositionWrite newId span.id (some d) (dispositionActionByVerb item) reviewerId
              item.reason] ++ [.insertAudit e]))
          rw [← view_append, ← List.append_assoc, ← List.append_assoc] at hkeeps
          exact hkeeps d (List.mem_of_find?_eq_some hex.symm)
    · rw [List.mem_singleton.mp hw]
      trivial
  | @page q row _ _ _ ih =>
    intro w hw
    rw [loggedBy_append]
    rcases List.mem_append.mp hw with hw | hw
    · refine (ih w hw).mono ?_ (List.subset_append_left _ _)
      rw [view_append]
      exact keepsDispositions_view _ _
    · rw [List.mem_singleton.mp hw]
      trivial
  | @manual q item page spanId dispositionId id organizationId createdAt t₁ t₂ _ _ _ _ _ _ ih =>
    intro w hw
    generalize hentry : makeEntry env id job.id organizationId (manualEvent spanId item reviewerId)
      _ createdAt = e at hw ⊢
    have hspan : e.spanId = some spanId := by rw [← hentry]; rfl
    have haction : e.action = .manualSpanAdded := by rw [← hentry]; rfl
    rw [List.append_assoc, List.append_assoc, loggedBy_append, view_append]
    have hlogged : e ∈ loggedBy q ++ loggedBy ([.insertSpan (manualSpan spanId page.id item)] ++
        ([.insertDisposition ⟨dispositionId, spanId, .approved, item.reason, reviewerId⟩] ++
          [.insertAudit e])) := List.mem_append_right _ (List.mem_singleton_self e)
    rcases List.mem_append.mp hw with hw | hw
    · rcases List.mem_append.mp hw with hw | hw
      · rcases List.mem_append.mp hw with hw | hw
        · exact (ih w hw).mono (keepsDispositions_view _ _) (List.subset_append_left _ _)
        · rw [List.mem_singleton.mp hw]
          exact Or.inr ⟨e, hlogged, hspan, haction⟩
      · rw [List.mem_singleton.mp hw]
        exact ⟨e, hlogged, hspan⟩
    · rw [List.mem_singleton.mp hw]
      trivial

theorem told_detected {seen : Shared Database World → Prop} {documentId : UUID} {p : List Write}
    {final : Database} {es : List AuditEntry} (h : DetectedWrites seen documentId p) :
    ∀ w ∈ p, w.ToldBy final es := by
  induction h with
  | nil => exact fun _ h => absurd h List.not_mem_nil
  | page _ _ _ ih => exact List.forall_mem_append.mpr ⟨ih, List.forall_mem_singleton.mpr trivial⟩
  | span _ _ _ _ ih =>
    exact List.forall_mem_append.mpr ⟨ih, List.forall_mem_singleton.mpr (Or.inl rfl)⟩

end

/-! ### Runs -/

/-- Threads whose commits are recorded, and that keep every disposition on its span. -/
def recordContract : Contract Database Write World Input Exn where
  inv s := DispositionKey s.db
  rely s s' := KeepsDispositions s.db s'.db
  guar s s' := KeepsDispositions s.db s'.db ∧ ∃ es, Recorded s.db s'.db es
  allowed _ _ := True
  input _ _ _ := True
  fault _ := True
  past s s' := KeepsDispositions s.db s'.db
  rely_refl s := KeepsDispositions.refl s.db
  rely_trans h h' := h.trans h'
  guar_refl s := ⟨KeepsDispositions.refl s.db, [], Recorded.refl s.db⟩
  past_refl s := KeepsDispositions.refl s.db
  past_trans h h' := h.trans h'
  rely_past h := h

section

variable {env : Env} {s : Shared Database World} {p : List Write}

theorem record_allows (hkey : DispositionKey (view s.db p))
    (hp : ∀ w ∈ p, w.ToldBy (view s.db p) (loggedBy p)) : Allows recordContract s p :=
  fun _ => ⟨hkey, ⟨keepsDispositions_view s.db p, _, recorded_view hkey hp⟩, trivial⟩

theorem record_allows_status (hkey : DispositionKey s.db) (job : RedactionJob) {newStatus : JobStatus}
    (h : announcedBy newStatus = none) : Allows recordContract s [statusWrite job newStatus] :=
  record_allows hkey (List.forall_mem_singleton.mpr (toldBy_statusWrite h))

theorem record_acts {w : World} (h : DispositionKey s.db) : recordContract.Acts s w :=
  ⟨h, ⟨KeepsDispositions.refl _, [], Recorded.refl _⟩, KeepsDispositions.refl _⟩

theorem operates_record (env : Env) : Operates recordContract env where
  pages _ _ _ := ⟨fun _ h => record_acts h, fun _ h => record_acts h⟩
  enqueue _ _ h := record_acts h
  manifest _ _ _ h := record_acts h
  fails _ _ _ _ _ _ _ job _ _ _ _ _ _ h := record_allows_status h.inv job rfl
  ingests _ _ job _ _ _ h := record_allows_status h.inv job rfl
  detects s₁ s₂ job p _ _ _ h hp hf := by
    refine record_allows (h.inv.view hf) ?_
    refine List.forall_mem_append.mpr ⟨List.forall_mem_append.mpr ⟨told_detected hp, ?_⟩, ?_⟩
    · exact List.forall_mem_singleton.mpr (toldBy_statusWrite rfl)
    · exact List.forall_mem_singleton.mpr (toldBy_statusWrite rfl)
  burns _ _ _ _ _ _ _ _ _ _ h := record_acts h.inv
  stores _ _ _ _ _ _ _ h := record_acts h.inv
  failsGate _ _ _ _ _ _ _ _ _ h _ _ _ hf := by
    refine record_allows (h.inv.view hf) (List.forall_mem_cons.mpr ⟨trivial, ?_⟩)
    exact List.forall_mem_cons.mpr ⟨trivial, List.forall_mem_singleton.mpr (toldBy_statusWrite rfl)⟩
  passesGate _ _ _ job _ started passed _ _ _ h _ _ _ hpassed hf := by
    refine record_allows (h.inv.view hf) (List.forall_mem_cons.mpr ⟨trivial, ?_⟩)
    refine List.forall_mem_cons.mpr ⟨trivial, List.forall_mem_singleton.mpr ?_⟩
    rintro action ha -
    obtain rfl : .verifyPassed = action := Option.some.inj ha
    exact ⟨passed, List.mem_cons_of_mem _ List.mem_cons_self, hpassed.job, hpassed.action⟩
  uploads _ _ _ _ h _ _ _ := record_acts h
  creates _ _ job h hfresh hf := by
    refine record_allows (h.view hf) (List.forall_mem_cons.mpr ⟨trivial, ?_⟩)
    refine List.forall_mem_cons.mpr ⟨trivial, List.forall_mem_singleton.mpr ?_⟩
    show announcedBy job.status = none
    rw [hfresh.status]
    rfl
  disposes _ _ _ _ _ _ _ _ _ h hp hf :=
    record_allows (h.inv.view hf) (told_batch hp fun _ _ h => h)
  starts _ _ _ _ _ job _ _ _ _ _ h := record_allows_status h.inv job rfl
  exports _ _ _ _ job exported _ _ _ h hexported hf := by
    refine record_allows (h.inv.view hf) (List.forall_mem_cons.mpr ⟨trivial, ?_⟩)
    refine List.forall_mem_singleton.mpr ?_
    rintro action ha -
    obtain rfl : .exported = action := Option.some.inj ha
    exact ⟨exported, List.mem_cons_self, hexported.job, hexported.action⟩

theorem fits_record (G : Guard Database Write World Input Exn Unit) : recordContract.Fits G :=
  ⟨fun _ => trivial, fun _ _ => trivial, fun _ _ _ => trivial⟩

theorem record_good {G : Guard Database Write World Input Exn Unit} {operations : List Operation}
    (hkey : DispositionKey s.db) {S : Pipeline}
    (hr : Sys.Run G (Pipeline.start env s operations) S) : recordContract.Good S := by
  refine Contract.sound (fits_record G) (fun _ _ h => h.1) (Contract.good_start hkey fun q hq => ?_) hr
  obtain ⟨operation, -, rfl⟩ := List.mem_map.mp hq
  refine (operates_record env).safe operation (fun _ _ _ _ job _ _ _ h => ?_) hkey
  exact record_allows_status h.inv job rfl

end

/-- **The review never changes in silence**, whatever operations run, fail or die and however
they overlap: between any two committed states the log has only grown, and the entries it has
grown by tell of every span that is no longer as it was, of every span that was added by hand,
of every disposition that is new or different, and of every job that has become `verified` or
`exported`. -/
theorem no_silent_change (env : Env) (s : Shared Database World) (hkey : DispositionKey s.db)
    (operations : List Operation) (G : Guard Database Write World Input Exn Unit) (S S' : Pipeline)
    (hr : Sys.Run G (Pipeline.start env s operations) S) (hr' : Sys.Run G S S') :
    ∃ es, Recorded S.shared.db S'.shared.db es := by
  refine Contract.of_guarantees (R := fun s s' => ∃ es, Recorded s.db s'.db es)
    (fun s => ⟨[], Recorded.refl s.db⟩) ?_
    ((record_good hkey hr).run (fits_record G) (fun _ _ h => h.1) hr').2
  rintro a b c ⟨es, hes⟩ ⟨-, es', hes'⟩
  exact ⟨es ++ es', hes.trans hes'⟩

/-- A span that was detected is approved: the log grows by one entry, which is about it. -/
theorem no_silent_change_approved :
    ∃ (S S' : Pipeline) (es : List AuditEntry), detectedPipeline untilDetected = some S ∧
      S.replayWhere Sys.serialStep ((numberedAnswers 12).map (3, ·)) = some S' ∧
      Recorded S.shared.db S'.shared.db es ∧ es.map (·.spanId) = [some 27] := by
  have hsome : ((detectedPipeline untilDetected).bind fun S =>
      (S.replayWhere Sys.serialStep ((numberedAnswers 12).map (3, ·))).map fun S' =>
        (S.shared.db.auditEntries.length, S'.shared.db.auditEntries.map (·.spanId))) =
          some (0, [some 27]) := by decide +kernel
  obtain ⟨S, hS, hsome⟩ := Option.bind_eq_some_iff.mp hsome
  obtain ⟨S', hS', hknown⟩ := Option.map_eq_some_iff.mp hsome
  obtain ⟨hbefore, hafter⟩ := Prod.mk.inj hknown
  have hr := Sys.run_of_replayWhere Guard.serial_of_serialStep hS
  have hr' := Sys.run_of_replayWhere Guard.serial_of_serialStep hS'
  obtain ⟨es, hes⟩ := no_silent_change detectingEnv ⟨Database.empty, World.empty⟩ List.nodup_nil
    detectedOperations Guard.serial S S' hr hr'
  have hentries := hes.entries
  rw [List.eq_nil_of_length_eq_zero hbefore, List.nil_append] at hentries
  exact ⟨S, S', es, hS, hS', hes, hentries ▸ hafter⟩

end RedactApi
