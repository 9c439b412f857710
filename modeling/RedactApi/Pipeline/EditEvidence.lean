import RedactApi.Pipeline.BatchRequests
import RedactApi.Pipeline.Lifecycle

/-!
# What the chain says about a text that was edited

An edit overwrites the text of a span and appends an entry with the digest of the text it
has just written.  The digest of the text before the edit is in the chain if an earlier entry
is about the span: the last one hashes the text as it is stored.  A detected span that nobody
has disposed of has no entry, and the first thing done to it may be an edit.
-/

namespace RedactApi

open ReadCommitted KeyedList

/-- Some entry about the span has the digest of the text. -/
def Evidence (env : Env) (entries : List AuditEntry) (spanId : UUID) (text : String) : Prop :=
  ∃ e ∈ entries, e.spanId = some spanId ∧ e.textHash = some (textHash env text)

instance (env : Env) (entries : List AuditEntry) (spanId : UUID) (text : String) :
    Decidable (Evidence env entries spanId text) :=
  inferInstanceAs (Decidable (∃ e ∈ entries, _))

/-- Some item writes a text with the digest of the text into the span. -/
def Rewritten (env : Env) (items : List DispositionItem) (spanId : UUID) (text : String) : Prop :=
  ∃ item newText, .existing item ∈ items ∧ item.spanId = spanId ∧
    item.newText = some newText ∧ textHash env newText = textHash env text

theorem Evidence.grows {env : Env} {db : Database} {p : List Write} {jobId spanId : UUID}
    {text : String} (h : Evidence env (db.entries jobId) spanId text) :
    Evidence env ((view db p).entries jobId) spanId text := by
  obtain ⟨e, he, hspan, htext⟩ := h
  exact ⟨e, (grows_view db p jobId).subset he, hspan, htext⟩

section

variable {env : Env} {job : RedactionJob} {reviewerId : UUID} {db : Database}

/-! ### The review stays told the same twice -/

theorem ItemWrites.steps {item : DispositionItem} {changed : Bool} {q : List Write}
    (hw : ItemWrites env job reviewerId db item changed q) (hf : Free db q) :
    Relation.ReflTransGen (BatchStep env True job reviewerId) db (view db q) := by
  cases hw with
  | skipped => exact .refl
  | existing hrow hid hneeds he => exact .single (.existing hrow rfl (fun _ => rfl) rfl he hf)
  | manual hpage he =>
    have hfound := List.find?_some hpage
    rw [decide_eq_true_eq] at hfound
    exact .single (.manual (List.mem_of_find?_eq_some hpage) hfound.1 he hf)
  | manualPage hpage he =>
    rename_i item pageId spanId dispositionId id organizationId link createdAt entry
    let row : Page := ⟨pageId, job.documentId, item.pageNumber⟩
    have hf' : Free db ([.insertPage row] ++
      manualWrites (manualSpan spanId row.id item) item dispositionId reviewerId entry) := hf
    have hmem : row ∈ (view db [.insertPage row]).pages :=
      List.mem_append_right _ (List.mem_singleton_self _)
    exact .head (.page rfl hf'.left) (.single (.manual hmem rfl he hf'.right))

theorem ItemWrites.reviewed {item : DispositionItem} {changed : Bool} {q : List Write}
    (h : Reviewed env True db) (hj : Present db job)
    (hw : ItemWrites env job reviewerId db item changed q) (hf : Free db q) :
    Reviewed env True (view db q) :=
  (batch_keeps h hj (hw.steps hf)).1

theorem BatchRun.reviewed {items : List DispositionItem} {cs : List Bool} {q : List Write}
    (hrun : BatchRun env job reviewerId db items cs q) (h : Reviewed env True db)
    (hj : Present db job) (hf : Free db q) : Reviewed env True (view db q) := by
  induction hrun with
  | nil => exact h
  | cons hw _ ih =>
    rw [view_append]
    exact ih (hw.reviewed h hj hf.left) ((extends_view _ _).present hj) hf.right

theorem BatchRun.split {items items' : List DispositionItem} :
    ∀ {db : Database} {cs : List Bool} {q : List Write},
      BatchRun env job reviewerId db (items ++ items') cs q →
      ∃ cs₁ q₁ cs₂ q₂, q = q₁ ++ q₂ ∧ BatchRun env job reviewerId db items cs₁ q₁ ∧
        BatchRun env job reviewerId (view db q₁) items' cs₂ q₂ := by
  induction items with
  | nil => exact fun h => ⟨[], [], _, _, rfl, .nil _, h⟩
  | cons item items ih =>
    intro db cs q h
    cases h with
    | cons hw hrest =>
      obtain ⟨cs₁, q₁, cs₂, q₂, rfl, h₁, h₂⟩ := ih hrest
      rw [← view_append] at h₂
      exact ⟨_, _, cs₂, q₂, (List.append_assoc _ _ _).symm, .cons hw h₁, h₂⟩

/-! ### Texts that are in the chain -/

/-- **The text of a span with a disposition is in the chain.** -/
theorem Reviewed.evidence (h : Reviewed env True db) (hj : Present db job) {r : Span × Page}
    (hr : r ∈ db.spanRows job.documentId) (hd : (db.disposition? r.1.id).isSome) :
    Evidence env (db.entries job.id) r.1.id r.1.text := by
  obtain ⟨d, hd⟩ := Option.isSome_iff_exists.mp hd
  have hagree := h.agree r.1.id
  rw [hd] at hagree
  cases hlast : db.lastEntry r.1.id with
  | none =>
    rw [hlast] at hagree
    cases hagree
  | some e =>
    obtain ⟨he, hspan⟩ := lastEntry_mem hlast
    obtain ⟨j, hjm, hid, r', hr', hrid⟩ := h.owned e he _ hspan
    obtain ⟨j', hjm', hid', hdoc'⟩ := hj
    have hdoc := (h.wf.row_eq hr' hr hrid).2
    have hsame := List.inj_on_of_nodup_map h.wf.job_document hjm hjm' (hdoc.trans hdoc'.symm)
    refine ⟨e, List.mem_filter.mpr ⟨he, ?_⟩, hspan,
      (h.hashed trivial r.1 (mem_spanRows.mp hr).1 e hlast).1⟩
    rw [decide_eq_true_eq, ← hid, hsame, hid']

/-- An edit, applied or skipped, leaves its text in the span and in the chain. -/
theorem ItemWrites.evidence {item : ExistingItem} {changed : Bool} {q : List Write} {text : String}
    (h : Reviewed env True db) (hj : Present db job)
    (hw : ItemWrites env job reviewerId db (.existing item) changed q) (hf : Free db q)
    (htext : item.newText = some text) :
    (∃ r ∈ (view db q).spanRows job.documentId, r.1.id = item.spanId ∧ r.1.text = text) ∧
      Evidence env ((view db q).entries job.id) item.spanId text := by
  obtain ⟨r, hr, hid, hneeds⟩ := hw.skippable h.wf hj hf
  obtain ⟨⟨d, hd, -⟩, hstored, -⟩ := itemNeedsChange_eq_false.mp hneeds
  have hevidence := (hw.reviewed h hj hf).evidence ((extends_view db q).present hj) hr
    (by rw [hd]; rfl)
  rw [hid, hstored text htext] at hevidence
  exact ⟨⟨r, hr, hid, hstored text htext⟩, hevidence⟩

theorem BatchRun.evidence {items : List DispositionItem} {cs : List Bool} {q : List Write}
    {item : ExistingItem} {text : String} (hrun : BatchRun env job reviewerId db items cs q)
    (h : Reviewed env True db) (hj : Present db job) (hf : Free db q)
    (hm : .existing item ∈ items) (htext : item.newText = some text) :
    Evidence env ((view db q).entries job.id) item.spanId text := by
  induction hrun with
  | nil => cases hm
  | cons hw _ ih =>
    rw [view_append]
    rcases List.mem_cons.mp hm with rfl | hm
    · exact (hw.evidence h hj hf.left htext).2.grows
    · exact ih (hw.reviewed h hj hf.left) ((extends_view _ _).present hj) hf.right hm

/-! ### Texts that are not -/

/-- What an item leaves in a span: its own text, or the one that was there. -/
theorem ItemWrites.text {item : DispositionItem} {changed : Bool} {q : List Write} {span : Span}
    (h : WellFormed db) (hj : Present db job)
    (hw : ItemWrites env job reviewerId db item changed q) (hf : Free db q)
    (hs : span ∈ db.spans) : ∃ span' ∈ (view db q).spans, span'.id = span.id ∧
      (span'.text = span.text ∨ ∃ later, item = .existing later ∧ later.spanId = span.id ∧
        later.newText = some span'.text) := by
  cases item with
  | addManualSpan item =>
    refine ⟨span, (hw.batch h hj hf).kept.spans span hs ?_, rfl, Or.inl rfl⟩
    rintro ⟨later, hm, -⟩
    simp at hm
  | existing item =>
    cases changed with
    | false =>
      cases hw
      exact ⟨span, hs, rfl, Or.inl rfl⟩
    | true =>
      obtain ⟨stored, page, d, e, happlied⟩ := hw.applied h hj hf
      refine ⟨_, happlied.spans ▸ List.mem_map_of_mem hs, Span.patch_id _ _ _, ?_⟩
      by_cases hid : stored.id = span.id
      · obtain rfl := List.inj_on_of_nodup_map h.span_pk (mem_spanRows.mp happlied.row).1 hs hid
        rw [Span.patch_loaded, editedSpan]
        cases htext : item.newText with
        | none => exact Or.inl rfl
        | some text => exact Or.inr ⟨item, rfl, happlied.id.symm, htext⟩
      · rw [Span.patch, if_neg (Ne.symm hid)]
        exact Or.inl rfl

theorem ItemWrites.digest {item : DispositionItem} {changed : Bool} {q : List Write}
    {span' : Span} {e : AuditEntry} (h : Reviewed env True db) (hj : Present db job)
    (hw : ItemWrites env job reviewerId db item changed q) (hf : Free db q)
    (hs' : span' ∈ (view db q).spans) (he : e ∈ (view db q).auditEntries)
    (hspan : e.spanId = some span'.id) :
    e ∈ db.auditEntries ∨ e.textHash = some (textHash env span'.text) := by
  obtain ⟨new, hnew, hlength, -⟩ := (hw.batch h.wf hj hf).counted.entries
  rw [hnew] at he
  refine (List.mem_append.mp he).imp_right fun he => ?_
  obtain ⟨e', rfl⟩ : ∃ e', new = [e'] := by
    cases changed with
    | true => exact List.length_eq_one_iff.mp hlength
    | false =>
      rw [List.eq_nil_of_length_eq_zero hlength] at he
      cases he
  obtain rfl := List.mem_singleton.mp he
  have hlast : (view db q).lastEntry span'.id = some e := by
    rw [lastEntry_concat hnew hspan, if_pos rfl]
  exact ((hw.reviewed h hj hf).hashed trivial span' hs' e hlast).1

/-- The entries that a batch adds about a span hash the text that was there or a text that
one of its items writes. -/
theorem BatchRun.digests {items : List DispositionItem} {cs : List Bool} {q : List Write}
    {spanId : UUID} {e : AuditEntry} (hrun : BatchRun env job reviewerId db items cs q)
    (h : Reviewed env True db) (hj : Present db job) (hf : Free db q)
    (he : e ∈ (view db q).auditEntries) (hspan : e.spanId = some spanId) :
    ∀ span ∈ db.spans, span.id = spanId → e ∈ db.auditEntries ∨
      ∃ text, e.textHash = some (textHash env text) ∧ (text = span.text ∨
        ∃ item, .existing item ∈ items ∧ item.spanId = spanId ∧ item.newText = some text) := by
  induction hrun with
  | nil => exact fun _ _ _ => Or.inl he
  | @cons _ first items _ _ _ _ hw _ ih =>
    intro span hs hid
    rw [view_append] at he
    obtain ⟨span', hs', hid', htext⟩ := hw.text h.wf hj hf.left hs
    -- what stands in the span between the first item and the others
    have hbetween : span'.text = span.text ∨ ∃ item, .existing item ∈ first :: items ∧
        item.spanId = spanId ∧ item.newText = some span'.text := by
      refine htext.imp_right ?_
      rintro ⟨later, rfl, hspan', hnew⟩
      exact ⟨later, List.mem_cons_self, hspan'.trans hid, hnew⟩
    rcases ih (hw.reviewed h hj hf.left) ((extends_view _ _).present hj) hf.right he span' hs'
      (hid'.trans hid) with hold | ⟨text, hdigest, rfl | ⟨item, hm, hx, hnew⟩⟩
    · refine (hw.digest h hj hf.left hs' hold (by rw [hspan, hid', hid])).imp_right fun hdigest => ?_
      exact ⟨_, hdigest, hbetween⟩
    · exact Or.inr ⟨_, hdigest, hbetween⟩
    · exact Or.inr ⟨text, hdigest, Or.inr ⟨item, List.mem_cons_of_mem _ hm, hx, hnew⟩⟩

theorem Reviewed.no_entry (h : Reviewed env True db) {spanId : UUID}
    (hd : db.disposition? spanId = none) : ∀ e ∈ db.auditEntries, e.spanId ≠ some spanId := by
  intro e he hspan
  have hagree := h.agree spanId
  rw [hd] at hagree
  cases hlast : db.lastEntry spanId with
  | some e' =>
    rw [hlast] at hagree
    cases hagree
  | none =>
    have hmem : e ∈ db.auditEntries.filter (·.spanId = some spanId) :=
      List.mem_filter.mpr ⟨he, decide_eq_true hspan⟩
    rw [List.getLast?_eq_none_iff.mp hlast] at hmem
    cases hmem

/-- **The text before an edit is in the chain** after the batch exactly if the span had a
disposition or the edit or one after it writes a text with the same digest. -/
theorem BatchRun.evidence_iff {item : ExistingItem} {after : List DispositionItem} {cs : List Bool}
    {q : List Write} {text : String}
    (hrun : BatchRun env job reviewerId db (.existing item :: after) cs q)
    (h : Reviewed env True db) (hj : Present db job) (hf : Free db q) {r : Span × Page}
    (hr : r ∈ db.spanRows job.documentId) (hid : r.1.id = item.spanId)
    (htext : item.newText = some text) :
    Evidence env ((view db q).entries job.id) r.1.id r.1.text ↔
      (db.disposition? r.1.id).isSome ∨
        Rewritten env (.existing item :: after) r.1.id r.1.text := by
  constructor
  · rintro ⟨e, he, hspan, hdigest⟩
    cases hd : db.disposition? r.1.id with
    | some d => exact Or.inl rfl
    | none =>
      refine Or.inr ?_
      cases hrun with
      | cons hw hrest =>
        have hreviewed := hw.reviewed h hj hf.left
        obtain ⟨⟨r', hr', hid', htext'⟩, -⟩ := hw.evidence h hj hf.left htext
        have hs' := (mem_spanRows.mp hr').1
        have he' := (List.mem_filter.mp he).1
        rw [view_append] at he'
        -- the edit itself writes what stands in the span after it
        have hitself : ∀ x, e.textHash = some (textHash env x) → x = text →
            Rewritten env (.existing item :: after) r.1.id r.1.text := by
          rintro x hx rfl
          rw [hdigest] at hx
          exact ⟨item, x, List.mem_cons_self, hid.symm, htext, (Option.some.inj hx).symm⟩
        rcases hrest.digests hreviewed ((extends_view _ _).present hj) hf.right he' hspan r'.1 hs'
          (hid'.trans hid.symm) with hold | ⟨x, hx, rfl | ⟨later, hm, hlater, hnew⟩⟩
        · rcases hw.digest h hj hf.left hs' hold (by rw [hspan, hid', hid]) with hold | hx
          · exact absurd hspan (h.no_entry hd e hold)
          · exact hitself _ hx htext'
        · exact hitself _ hx htext'
        · rw [hdigest] at hx
          exact ⟨later, x, List.mem_cons_of_mem _ hm, hlater, hnew, (Option.some.inj hx).symm⟩
  · rintro (hd | ⟨later, newText, hm, hlater, hnew, hsame⟩)
    · exact (h.evidence hj hr hd).grows
    · obtain ⟨e, he, hspan, hdigest⟩ := hrun.evidence h hj hf hm hnew
      exact ⟨e, he, hlater ▸ hspan, hsame ▸ hdigest⟩

end

/-! ### Batches one after the other -/

/-- **Edits keep the evidence of what was there** exactly where something is known about it.
After any operations, among them any number of batches, one at a time, a batch changes the text
of a span: the digest of the text before is in the committed chain exactly if the span had a
disposition, or the edit or one after it in the batch writes a text with the same digest. -/
theorem edit_keeps_evidence (env : Env) (world : World) (operations : List Operation)
    (hops : ∀ jobId, .failJob jobId ∉ operations) (S : Pipeline)
    (hr : Sys.Run Guard.serial (Pipeline.start env ⟨Database.empty, world⟩ operations) S)
    {tenant : TenantContext} {jobId : UUID} {payload : DispositionBatchRequest}
    {ls : List (Label Input Exn)} {result : DispositionBatchResult} {s' : Shared Database World}
    {p' : List Write}
    (h : Ends (createDispositions env tenant jobId payload) ls S.shared [] (.ok result) s' p')
    {before after : List DispositionItem} {item : ExistingItem}
    (hitems : payload.items = before ++ .existing item :: after) :
    ∃ job cs q, S.shared.db.requested tenant jobId = some job ∧
      BatchRun env job tenant.userId S.shared.db before cs q ∧
      ∀ r ∈ (view S.shared.db q).spanRows job.documentId, r.1.id = item.spanId →
        ∀ text, item.newText = some text → r.1.text ≠ text →
          (Evidence env (s'.db.entries job.id) r.1.id r.1.text ↔
            ((view S.shared.db q).disposition? r.1.id).isSome ∨
              Rewritten env (.existing item :: after) r.1.id r.1.text) := by
  have hreviewed := (life_of_run hops hr).inv.reviewed
  rcases createDispositions_inv h with ⟨e, he, -⟩ | ⟨_, job, ls₁, s₁, p₁, ho, hjob, hst, hbatch, rfl⟩
  · cases he
  cases ho
  have hj : Present S.shared.db job := ⟨job, List.mem_of_find?_eq_some hjob, rfl, rfl⟩
  have hfree := hbatch.free (free_nil _)
  obtain ⟨hdb, cs, q, hq, hrun, -⟩ := (Contract.solo_ends hbatch (fun _ _ => trivial)
    (free_nil _) (wp_batch_solo payload.items ⟨0, 0, 0⟩ S.shared [])).1 result rfl
  rw [List.nil_append] at hq
  subst hq
  rw [hdb] at hfree ⊢
  rw [hitems] at hrun
  obtain ⟨cs₁, q₁, cs₂, q₂, rfl, hbefore, hrest⟩ := hrun.split
  refine ⟨job, cs₁, q₁, hjob, hbefore, fun r hr hid text htext _ => ?_⟩
  rw [view_append]
  exact hrest.evidence_iff (hbefore.reviewed hreviewed hj hfree.left)
    ((extends_view _ _).present hj) hfree.right hr hid htext

/-! ### An edit of a detected span -/

section

/-- Libraries that detect one name on every page and hash a text to itself. -/
def detectingEnv : Env :=
  { Env.letter id with
    tier1Detectors := [fun page =>
      [⟨page.pageNumber, 0, 1, [⟨72, 72, 144, 90⟩], "x", "name", .tier1, 1⟩]] }

def approveDetected : DispositionBatchRequest :=
  ⟨[.existing (.approve 27 none)], List.cons_ne_nil _ _⟩

def editDetected : DispositionBatchRequest :=
  ⟨[.existing (.edit 27 "y" none none)], List.cons_ne_nil _ _⟩

def detectedOperations : List Operation :=
  [.createJob sampleAdmin ⟨some "a.pdf", some pdfContentType, [0]⟩,
   .deliver (.ingestJob 4), .deliver (.detectJob 4),
   .createDispositions sampleAdmin 4 approveDetected]

def detectedPipeline (threads : List Nat) : Option Pipeline :=
  (Pipeline.start detectingEnv ⟨Database.empty, World.empty⟩ detectedOperations).replayWhere
    Sys.serialStep (numbered threads)

def untilDetected : List Nat := List.replicate 11 0 ++ List.replicate 9 1 ++ List.replicate 13 2

def untilApproved : List Nat := untilDetected ++ List.replicate 12 3

def knownSpans (db : Database) : Option (List (UUID × String × Bool)) :=
  (db.requested sampleAdmin 4).map fun job => (db.spanRows job.documentId).map fun r =>
    (r.1.id, r.1.text, (db.disposition? r.1.id).isSome)

theorem known_row {db : Database} {text : String} {disposed : Bool} {job : RedactionJob}
    (h : knownSpans db = some [(27, text, disposed)])
    (hjob : db.requested sampleAdmin 4 = some job) :
    ∃ r ∈ db.spanRows job.documentId, r.1.id = 27 ∧ r.1.text = text ∧
      (db.disposition? r.1.id).isSome = disposed := by
  rw [knownSpans, hjob] at h
  obtain ⟨r, hr, hknown⟩ := List.exists_of_mem_map
    (Option.some.inj h ▸ List.mem_singleton_self (27, text, disposed))
  obtain ⟨hid, htext, hdisposed⟩ : r.1.id = 27 ∧ r.1.text = text ∧ _ := by
    simpa only [Prod.mk.injEq] using hknown
  exact ⟨r, hr, hid, htext, hdisposed⟩

end

/-- The edit is the first thing that is done to the span: no entry has the digest of the
text that was detected. -/
theorem edit_loses_evidence :
    ∃ (S : Pipeline) (ls : List (Label Input Exn)) (s' : Shared Database World) (p' : List Write)
      (job : RedactionJob) (r : Span × Page), detectedPipeline untilDetected = some S ∧
      Ends (createDispositions detectingEnv sampleAdmin 4 editDetected) ls S.shared []
        (.ok ⟨1, 0, 0⟩) s' p' ∧
      S.shared.db.requested sampleAdmin 4 = some job ∧
      r ∈ S.shared.db.spanRows job.documentId ∧ r.1.id = 27 ∧ r.1.text = "x" ∧
      ¬ Evidence detectingEnv (s'.db.entries job.id) r.1.id r.1.text := by
  have hsome : ((detectedPipeline untilDetected).bind fun S =>
      (((createDispositions detectingEnv sampleAdmin 4 editDetected).outcome
        (numberedAnswers 13) S.shared []).filter fun r =>
          !decide (Evidence detectingEnv (r.2.1.db.entries 4) 27 "x")).map fun r =>
            (r.1, knownSpans S.shared.db)) =
        some (.ok ⟨1, 0, 0⟩, some [(27, "x", false)]) := by decide +kernel
  obtain ⟨S, hS, hsome⟩ := Option.bind_eq_some_iff.mp hsome
  obtain ⟨⟨o, s', p'⟩, hfiltered, hresult⟩ := Option.map_eq_some_iff.mp hsome
  obtain ⟨houtcome, hlost⟩ := Option.filter_eq_some_iff.mp hfiltered
  obtain ⟨rfl, hknown⟩ : o = .ok ⟨1, 0, 0⟩ ∧
      knownSpans S.shared.db = some [(27, "x", false)] := by simpa using hresult
  obtain ⟨job, hjob, -⟩ := Option.map_eq_some_iff.mp hknown
  obtain ⟨r, hr, hid, htext, -⟩ := known_row hknown hjob
  have hfound := List.find?_some hjob
  rw [decide_eq_true_eq] at hfound
  refine ⟨S, _, s', p', job, r, hS, ends_of_outcome houtcome, hjob, hr, hid, htext, ?_⟩
  rw [hid, htext, hfound.1]
  simpa using hlost

/-- After the approval the text that was detected is in the chain, and stays there. -/
theorem edit_keeps_evidence_approved :
    ∃ (S : Pipeline) (ls : List (Label Input Exn)) (s' : Shared Database World) (p' : List Write)
      (job : RedactionJob), detectedPipeline untilApproved = some S ∧
      Ends (createDispositions detectingEnv sampleAdmin 4 editDetected) ls S.shared []
        (.ok ⟨1, 0, 0⟩) s' p' ∧
      Evidence detectingEnv (s'.db.entries job.id) 27 "x" := by
  have hsome : ((detectedPipeline untilApproved).bind fun S =>
      ((createDispositions detectingEnv sampleAdmin 4 editDetected).outcome
        (numberedAnswers 12) S.shared []).map fun r => (r.1, knownSpans S.shared.db)) =
        some (.ok ⟨1, 0, 0⟩, some [(27, "x", true)]) := by decide +kernel
  obtain ⟨S, hS, hsome⟩ := Option.bind_eq_some_iff.mp hsome
  obtain ⟨⟨o, s', p'⟩, houtcome, hresult⟩ := Option.map_eq_some_iff.mp hsome
  obtain ⟨rfl, hknown⟩ : o = .ok ⟨1, 0, 0⟩ ∧ knownSpans S.shared.db = some [(27, "x", true)] := by
    simpa using hresult
  have hends := ends_of_outcome houtcome
  have hr := Sys.run_of_replayWhere Guard.serial_of_serialStep hS
  obtain ⟨job, cs, q, hjob, hbefore, hiff⟩ := edit_keeps_evidence detectingEnv World.empty
    detectedOperations (fun jobId h => by simp [detectedOperations] at h) S hr hends
    (List.nil_append _).symm
  cases hbefore
  obtain ⟨r, hrow, hid, htext, hdisposed⟩ := known_row hknown hjob
  have hevidence := (hiff r hrow hid "y" rfl (by rw [htext]; decide)).mpr (Or.inl hdisposed)
  rw [hid, htext] at hevidence
  exact ⟨S, _, s', p', job, hS, hends, hevidence⟩

end RedactApi
