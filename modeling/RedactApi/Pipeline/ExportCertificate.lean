import RedactApi.AuditChain.Manifest
import RedactApi.Pipeline.ReviewedBurn
import RedactApi.Pipeline.StoredBoxes
import RedactApi.Redaction.Recovery
import RedactApi.Redaction.Refusals

/-!
# What an export certifies

The archive of an export holds two things that were made at different times by
different code: the redacted PDF, written by the burn-in, and the manifest, computed
from the audit chain when the export is requested.  This module says that they belong
together.  The stored PDF is the original painted black where the log approves and
nowhere else (`stored_pdf_painted`), and the digests under which the manifest lists
what was approved are digests of texts that the gate cannot find in that PDF
(`export_certifies`).
-/

namespace RedactApi

open ReadCommitted KeyedList

/-! ### A burn-in that has returned -/

section

variable {env : Env} {original : Bytes} {spans : List ApprovedSpan} {result : ApplyResult}

theorem mem_redactedStrings {text : String} :
    text ∈ redactedStrings spans ↔ ∃ span ∈ spans, span.text = text := by
  simp [redactedStrings]

theorem apply_inv (h : apply env original spans = .ok result) :
    ∃ source, env.fitzOpen original = .ok source ∧
      (∀ span ∈ spans, InRange source.pages.length span) ∧ AllDrawable source spans ∧
      env.tobytes (rebuiltFrom (paintedPages source spans)) = .ok result.pdfBytes ∧
      verify env result.pdfBytes (redactedStrings spans) = .ok result.verifyResult := by
  obtain ⟨source, hopen, h⟩ := bind_ok h
  obtain ⟨_, hnumbers, h⟩ := bind_ok h
  obtain ⟨pdf, hpdf, h⟩ := bind_ok h
  obtain ⟨verifyResult, hverify, h⟩ := bind_ok h
  cases h
  have hdraw : AllDrawable source spans := drawable_of_rebuild hpdf
  rw [rebuildRedactedPdf_eq hdraw] at hpdf
  exact ⟨source, hopen, validatePageNumbers_ok_iff.mp hnumbers, hdraw, hpdf, hverify⟩

/-- The normalised text is nowhere in the document: not in the text of a page, not in
what OCR reads on it, not in the metadata. -/
structure Gone (env : Env) (doc : FitzDocument) (target : String) : Prop where
  textLayer : ∀ page ∈ doc.pages, isSubstring target (normalizeText env page.text) = false
  ocr : ∀ page ∈ doc.pages, ∃ read, env.imageToString (page.pixmap ocrRasterDpi) = .ok read ∧
    env.partialRatio target (normalizeText env read) < ocrMatchThreshold
  metadata : isSubstring target (metadataText env doc) = false

/-- OCR has read every page if there was anything to look for. -/
theorem read_of_checkOcr {doc : FitzDocument} {strings : List String}
    {found : CheckSummary × List VerifyFinding} (h : checkOcr env doc strings = .ok found)
    {raw : String} (hraw : raw ∈ strings) (hne : normalizeText env raw ≠ "") :
    ∀ page ∈ doc.pages, ∃ read, env.imageToString (page.pixmap ocrRasterDpi) = .ok read := by
  intro page hpage
  obtain ⟨perPage, hperPage, -⟩ := bind_ok h
  obtain ⟨number, hnumber⟩ := List.mem_iff_getElem?.mp hpage
  obtain ⟨findings, hfindings⟩ := exists_mapM.mp ⟨perPage, hperPage⟩ (page, number)
    (List.mk_mem_zipIdx_iff_getElem?.mpr hnumber)
  have htargets : (normalizedTargets env strings).isEmpty = false := by
    rw [List.isEmpty_eq_false_iff_exists_mem]
    exact ⟨(normalizeText env raw, raw), List.mem_filter.mpr
      ⟨List.mem_map.mpr ⟨raw, hraw, rfl⟩, decide_eq_true hne⟩⟩
  simp only [ocrPage, htargets, Bool.false_eq_true, if_false] at hfindings
  obtain ⟨read, hread, -⟩ := bind_ok hfindings
  exact ⟨read, hread⟩

/-- **A burn-in that passes the gate** leaves none of its texts to be found. -/
theorem gone_of_passed (h : apply env original spans = .ok result) (hpass : result.passed = true) :
    ∃ doc, env.fitzOpen result.pdfBytes = .ok doc ∧ ∀ span ∈ spans,
      normalizeText env span.text ≠ "" → Gone env doc (normalizeText env span.text) := by
  obtain ⟨source, -, -, -, -, hverify⟩ := apply_inv h
  have hverify' := hverify
  obtain ⟨doc, hopen, hverify'⟩ := bind_ok hverify'
  obtain ⟨found, hfound, -⟩ := bind_ok hverify'
  refine ⟨doc, hopen, fun span hspan hne => ?_⟩
  have hraw : span.text ∈ redactedStrings spans := mem_redactedStrings.mpr ⟨span, hspan, rfl⟩
  have hread := read_of_checkOcr hfound hraw hne
  choose! read hread using hread
  have hverdict : result.verifyResult.verdict = .pass := of_decide_eq_true hpass
  have hgone := (verdict_pass_iff hopen hread hverify).mp hverdict span.text hraw hne
  exact ⟨hgone.textLayer, fun page hpage => ⟨read page, hread page hpage, hgone.ocr page hpage⟩,
    hgone.metadata⟩

end

/-! ### What is stored -/

section

variable {env : Env} {s : Shared Database World} {job : RedactionJob}

/-- The log lets the span stand: its last entry is no rejection. -/
def Database.LogApproves (db : Database) (jobId spanId : UUID) : Prop :=
  ∃ e, ((db.entriesBySequence jobId).filter (·.spanId = some spanId)).getLast? = some e ∧
    e.action ≠ .rejected

/-- A box of a span that the log lets stand paints the pixel of the page. -/
def Database.LogPaints (db : Database) (job : RedactionJob) (number width height i j : Nat) : Prop :=
  ∃ r ∈ db.spanRows job.documentId, r.2.pageNumber = number ∧ db.LogApproves job.id r.1.id ∧
    ∃ b : BBox, b.toList ∈ r.1.bboxes ∧ b.Paints width height i j

theorem mem_bboxes_of_build {n : Nat} {bboxes : List (List ℚ)} {text : String} {a : ApprovedSpan}
    (h : buildApprovedSpan n bboxes text = .ok a) (b : BBox) :
    b ∈ a.bboxes ↔ b.toList ∈ bboxes := by
  obtain ⟨boxes, hboxes, h⟩ := bind_ok h
  cases h
  rw [mem_of_mapM hboxes]
  constructor
  · rintro ⟨l, hl, hb⟩
    match l, hb with
    | [x0, y0, x1, y1], hb =>
      cases hb
      exact hl
  · exact fun hb => ⟨b.toList, hb, b.ofList_toList⟩

theorem build_inv {n : Nat} {bboxes : List (List ℚ)} {text : String} {a : ApprovedSpan}
    (h : buildApprovedSpan n bboxes text = .ok a) : a.pageNumber = n ∧ a.text = text := by
  obtain ⟨boxes, -, h⟩ := bind_ok h
  cases h
  exact ⟨rfl, rfl⟩

/-- What is painted is what the log lets stand. -/
theorem paintedBy_iff_logPaints (h : Reviewed env True s.db) (hintact : Intact env s.db)
    (hj : job ∈ s.db.jobs) (hboxed : Boxed s.db) {spans : List ApprovedSpan}
    (hs : s.db.approvedSpans job.documentId = .ok spans) (number width height i j : Nat) :
    PaintedBy spans number width height i j ↔ s.db.LogPaints job number width height i j := by
  have hentries := entriesBySequence_eq (hintact job.id)
  constructor
  · rintro ⟨a, ha, hnumber, b, hb, hpaints⟩
    obtain ⟨span, page, hr, hlast, hbuild⟩ := (h.mem_approvedSpans hj hs a).mp ha
    refine ⟨(span, page), hr, (build_inv hbuild).1.symm.trans hnumber, ?_, b,
      (mem_bboxes_of_build hbuild b).mp hb, hpaints⟩
    rw [Database.LogApproves, hentries]
    exact hlast
  · rintro ⟨⟨span, page⟩, hr, hnumber, hlast, b, hb, hpaints⟩
    rw [Database.LogApproves, hentries] at hlast
    obtain ⟨boxes, hbuild⟩ := buildApprovedSpan_boxed (hboxed.spans span (mem_spanRows.mp hr).1)
      page.pageNumber
    exact ⟨_, (h.mem_approvedSpans hj hs _).mpr ⟨span, page, hr, hlast, hbuild⟩, hnumber, b,
      (mem_bboxes_of_build hbuild b).mpr hb, hpaints⟩

/-- The rebuilt document carries its pages and nothing else. -/
theorem rebuiltFrom_eq (images : List Image) :
    rebuiltFrom images = ⟨images.map imagePage, [], none, [], []⟩ := by
  have hcatalog : ∀ (images : List Image) (out : OutDocument),
      (images.foldl appendImagePage out).catalog = out.catalog := by
    intro images
    induction images with
    | nil => exact fun _ => rfl
    | cons image images ih => exact fun out => ih (appendImagePage out image)
  have hpages := pages_rebuiltFrom images
  rw [rebuiltFrom, stripMetadata, stripDocumentJavascript] at hpages ⊢
  rw [hcatalog]
  rw [OutDocument.mk.injEq]
  exact ⟨hpages, rfl, rfl, rfl, rfl⟩

/-- The stored PDF is the original, painted by the log: one image for each page of the
original and nothing else, black wherever a span that the log lets stand has a box, and
the raster of the original page wherever none has. -/
structure PaintedByLog (env : Env) (s : Shared Database World) (job : RedactionJob)
    (original : Bytes) (source : FitzDocument) (pages : List OutPage) : Prop where
  storedOriginal : s.world.objects (Keys.originalPdfKey job.documentId) = some original
  opened : env.fitzOpen original = .ok source
  key : job.redactedPdfKey = some (Keys.redactedPdfKey job.id)
  stored : ∃ redacted, env.tobytes ⟨pages, [], none, [], []⟩ = .ok redacted ∧
    s.world.objects (Keys.redactedPdfKey job.id) = some redacted
  inRange : ∀ r ∈ s.db.spanRows job.documentId, s.db.LogApproves job.id r.1.id →
    1 ≤ r.2.pageNumber ∧ r.2.pageNumber ≤ source.pages.length
  length : pages.length = source.pages.length
  painted : ∀ (k : Nat) before after, source.pages[k]? = some before → pages[k]? = some after →
    let raster := before.pixmap applyOutputDpi
    after.image.width = raster.width ∧ after.image.height = raster.height ∧ ∀ i j,
      (s.db.LogPaints job (k + 1) raster.width raster.height i j → after.image.pixel i j = black) ∧
      (¬ s.db.LogPaints job (k + 1) raster.width raster.height i j →
        after.image.pixel i j = raster.pixel i j)

theorem LifeInv.paintedByLog (hinv : LifeInv env s) (hintact : Intact env s.db)
    (hboxed : Boxed s.db) (hj : job ∈ s.db.jobs) (hst : job.status ∈ passedStates) :
    ∃ original source pages, PaintedByLog env s job original source pages := by
  have hjob := hinv.jobs job hj
  obtain ⟨original, spans, result, horiginal, hspans, happly, -, hstored⟩ := hjob.artifact hst
  obtain ⟨source, hopen, hrange, -, hbytes, -⟩ := apply_inv happly
  rw [rebuiltFrom_eq] at hbytes
  have hkey := hjob.key
  rw [if_pos hst] at hkey
  have hlength : ((paintedPages source spans).map imagePage).length = source.pages.length := by
    rw [List.length_map, paintedPages, List.length_map, List.length_finRange]
  refine ⟨original, source, _, horiginal, hopen, hkey, ⟨_, hbytes, hstored⟩, ?_, hlength, ?_⟩
  · rintro ⟨span, page⟩ hrow hlast
    rw [Database.LogApproves, entriesBySequence_eq (hintact job.id)] at hlast
    obtain ⟨boxes, hbuild⟩ := buildApprovedSpan_boxed (hboxed.spans span (mem_spanRows.mp hrow).1)
      page.pageNumber
    exact hrange _ ((hinv.reviewed.mem_approvedSpans hj hspans _).mpr ⟨span, page, hrow, hlast, hbuild⟩)
  · intro k before after hbefore hafter
    obtain ⟨hk, rfl⟩ := List.getElem?_eq_some_iff.mp hbefore
    have hiff := paintedBy_iff_logPaints hinv.reviewed hintact hj hboxed hspans (k + 1)
      (source.pages[k].pixmap applyOutputDpi).width (source.pages[k].pixmap applyOutputDpi).height
    have himage : after.image =
        (source.pages[k].pixmap applyOutputDpi).paint (pageBoxes spans k) := by
      rw [List.getElem?_map, paintedPages, List.getElem?_map, List.getElem?_eq_getElem (by simpa using hk)]
        at hafter
      cases hafter
      simp [imagePage]
    rw [himage]
    refine ⟨rfl, rfl, fun i j => ⟨fun h => ?_, fun h => ?_⟩⟩
    · exact if_pos (exists_pageBoxes_iff.mpr ((hiff i j).mpr h))
    · exact if_neg (mt exists_pageBoxes_iff.mp (mt (hiff i j).mp h))

/-- **The stored PDF is the original, painted by the log.**  Operations of any kind run
one at a time, each failing or dying at any point.  In every state of the run, under the
key of a job that has passed the gate lies a document that carries one image for each
page of the original and nothing else: black wherever a span that the log lets stand
has a box, and the raster of the original page wherever none has.  No such span is on a
page that the document lacks. -/
theorem stored_pdf_painted (env : Env) (world : World) (operations : List Operation)
    (hops : ∀ jobId, .failJob jobId ∉ operations) (S : Pipeline)
    (hr : Sys.Run Guard.serial (Pipeline.start env ⟨Database.empty, world⟩ operations) S)
    (job : RedactionJob) (hj : job ∈ S.shared.db.jobs) (hst : job.status ∈ passedStates) :
    ∃ original source pages, PaintedByLog env S.shared job original source pages :=
  (life_of_run hops hr).inv.paintedByLog (chains_of_run (fun _ => HashChain.chain_nil _) hr)
    (boxed_of_run hr) hj hst

/-- The sample job, from the upload to its first export. -/
theorem stored_pdf_painted_exported :
    ∃ S job pages redacted, (Pipeline.start sampleEnv ⟨Database.empty, World.empty⟩
        sampleOperations).replayWhere Sys.serialStep sampleSchedule = some S ∧
      job ∈ S.shared.db.jobs ∧ sampleEnv.tobytes ⟨pages, [], none, [], []⟩ = .ok redacted ∧
      S.shared.world.objects (Keys.redactedPdfKey job.id) = some redacted := by
  have hsome : ((Pipeline.start sampleEnv ⟨Database.empty, World.empty⟩
      sampleOperations).replayWhere Sys.serialStep sampleSchedule).map
        (fun S => S.shared.db.jobs.map (·.status)) = some [.exported] := by decide +kernel
  obtain ⟨S, hS, hjobs⟩ := Option.map_eq_some_iff.mp hsome
  obtain ⟨job, hj, hst⟩ := List.exists_of_mem_map (hjobs ▸ List.mem_cons_self :
    JobStatus.exported ∈ S.shared.db.jobs.map (·.status))
  obtain ⟨_, _, pages, h⟩ := stored_pdf_painted sampleEnv World.empty
    sampleOperations (fun jobId h => by simp [sampleOperations] at h) S
    (Sys.run_of_replayWhere Guard.serial_of_serialStep hS) job hj (by rw [hst]; decide)
  obtain ⟨redacted, hsaved, hstored⟩ := h.stored
  exact ⟨S, job, pages, redacted, hS, hj, hsaved, hstored⟩

/-! ### What an export returns -/

/-- The archive of an export, by what it was made of: the stored objects of a job that
has passed the gate, and the chain as it is read. -/
structure Exported (env : Env) (s : Shared Database World) (jobId : UUID) (bytes : Bytes)
    (job : RedactionJob) (original redacted : Bytes) (manifest : ExportManifest) : Prop where
  mem : job ∈ s.db.jobs
  id : job.id = jobId
  passed : job.status ∈ passedStates
  storedOriginal : s.world.objects (Keys.originalPdfKey job.documentId) = some original
  storedRedacted : ∃ key, job.redactedPdfKey = some key ∧ s.world.objects key = some redacted
  assembled : ∃ now, manifest =
    manifestOf env job (s.db.entriesBySequence job.id) original redacted now
  verified : (verifyEntries env (s.db.entriesBySequence job.id)).verified = true
  archive : bytes = env.zipBytes redacted (env.manifestBytes manifest)

theorem exportable_of_check {key : String} (h : checkExportable job = .ok key) :
    job.status ∈ passedStates ∧ job.redactedPdfKey = some key := by
  simp only [checkExportable] at h
  split at h
  · cases h
  · rename_i hst
    split at h
    · cases h
    · rename_i hkey
      cases h
      refine ⟨?_, hkey⟩
      simp only [passedStates, List.mem_cons, List.not_mem_nil, or_false]
      by_contra hn
      exact hst (not_or.mp hn)

/-- What holds in every state holds wherever a program returns. -/
theorem wp_solo_known {α : Type} {Q : α → Shared Database World → List Write → Prop}
    (h : ∀ a s p, Q a s p) (prog : Tx α) (s : Shared Database World) (p : List Write) :
    (soloContract Database Write Input (fun _ : Exn => True) fun _ : World => ()).wp prog Q
      (fun _ _ _ => True) s p := by
  induction prog generalizing s p with
  | ret a => exact h a s p
  | raise e => trivial
  | select k err ihk ihe => exact fun s' _ => ⟨ihk _ s' p, fun e _ => ihe e s' p⟩
  | flush w k err ihk ihe =>
    exact fun s' _ => ⟨fun _ => ihk s' _, fun _ => ihe _ s' p, fun e _ => ihe e s' p⟩
  | commit k err ihk ihe =>
    exact fun s' _ => ⟨fun _ => ⟨trivial, trivial, ihk _ _⟩, fun e _ => ihe e s' p⟩
  | rollback k ihk => exact fun s' _ => ihk s' []
  | call f k err ihk ihe =>
    exact fun s' _ => ⟨fun i _ => ⟨⟨trivial, trivial, rfl, rfl⟩, ihk _ _ _ _⟩, fun e _ => ihe e s' p⟩

theorem wp_closing_known {α : Type} {Q : α → Prop} {prog : Tx α} {p : List Write}
    (h : (soloContract Database Write Input (fun _ : Exn => True) fun _ : World => ()).wp prog
      (fun a _ _ => Q a) (fun _ _ _ => True) s p) :
    (soloContract Database Write Input (fun _ : Exn => True) fun _ : World => ()).wp prog.closing
      (fun a _ _ => Q a) (fun _ _ _ => True) s p :=
  Contract.wp_closing (Contract.wp_mono (fun _ _ _ hQ _ _ => hQ) (fun _ _ _ _ _ _ => trivial) prog h)

/-- **An export that runs alone** reads the stored objects and the chain of its job. -/
theorem wp_exportJob_solo (tenant : TenantContext) (jobId : UUID) :
    (soloContract Database Write Input (fun _ : Exn => True) fun _ : World => ()).wp
      (exportJob env tenant jobId)
      (fun bytes _ _ => ∃ job original redacted manifest,
        Exported env s jobId bytes job original redacted manifest)
      (fun _ _ _ => True) s [] := by
  have hE : ∀ s, (soloContract Database Write Input (fun _ : Exn => True)
      fun _ : World => ()).Escapes (fun _ _ _ => True) s := fun _ _ _ _ _ => trivial
  refine wp_closing_known ?_
  refine Contract.wp_bind (wp_liftExcept trivial (hE s) fun _ _ => ?_)
  refine Contract.wp_bind (wp_getJobOr404 (hE s) fun s₁ job hn₁ hjob => ?_)
  cases hn₁.rely
  refine Contract.wp_bind (wp_liftExcept trivial (hE s) fun key hkey => ?_)
  obtain ⟨hpassed, hkey⟩ := exportable_of_check hkey
  refine Contract.wp_bind (Contract.wp_query (fun _ _ _ _ => trivial) fun s₂ hn₂ => ?_)
  cases hn₂.rely
  refine Contract.wp_bind (wp_liftExcept trivial (hE s) fun _ hchain => ?_)
  refine Contract.wp_bind (wp_observe (hE s) fun s₃ _ redacted hn₃ _ hredacted => ?_)
  cases hn₃.rely
  refine Contract.wp_bind (Contract.wp_tryCatch ?_)
  have hverified : (verifyEntries env (s.db.entriesBySequence job.id)).verified = true := by
    rw [checkChain] at hchain
    split at hchain
    · assumption
    · cases hchain
  rw [assembleExportManifest, view_nil, if_neg (not_not.mpr hverified), hkey,
    if_neg (by simp)]
  refine Contract.wp_bind (wp_observe (fun e _ _ _ => ?_) fun s₄ _ original hn₄ _ horiginal => ?_)
  · cases e <;> trivial
  cases hn₄.rely
  refine Contract.wp_bind (Contract.wp_query (fun e _ _ _ => ?_) fun s₅ hn₅ => ?_)
  · cases e <;> trivial
  cases hn₅.rely
  refine Contract.wp_bind (wp_observe (fun e _ _ _ => ?_) fun s₆ i now hn₆ _ _ => ?_)
  · cases e <;> trivial
  cases hn₆.rely
  refine Contract.wp_bind (wp_solo_known (fun _ s₇ p₇ => Contract.wp_bind
    (wp_solo_known (fun _ _ _ => ?_) _ s₇ p₇)) _ s [])
  exact ⟨job, original, redacted, _, hjob.mem, hjob.id, hpassed, downloaded horiginal,
    ⟨key, hkey, downloaded hredacted⟩, ⟨now, rfl⟩, hverified, rfl⟩

/-! ### What the manifest says about the document -/

def ExportManifest.lastFor (manifest : ExportManifest) (spanId : UUID) :
    Option ManifestDisposition :=
  (manifest.dispositions.filter (·.spanId = spanId)).getLast?

def AuditEntry.disposition (spanId : UUID) (e : AuditEntry) : ManifestDisposition :=
  ⟨spanId, e.action, e.category, e.textHash, e.reviewerId, e.createdAt⟩

theorem filter_manifestDispositions (entries : List AuditEntry) (spanId : UUID) :
    (manifestDispositions entries).filter (·.spanId = spanId) =
      (entries.filter (·.spanId = some spanId)).map (AuditEntry.disposition spanId) := by
  induction entries with
  | nil => rfl
  | cons e entries ih =>
    rw [manifestDispositions] at ih ⊢
    cases hspan : e.spanId with
    | none =>
      rw [List.filterMap_cons_none (by rw [hspan]; rfl), ih, List.filter_cons_of_neg (by simp [hspan])]
    | some x =>
      rw [List.filterMap_cons_some (by rw [hspan]; rfl)]
      by_cases hx : x = spanId
      · rw [List.filter_cons_of_pos (by simpa using hx), List.filter_cons_of_pos (by simp [hspan, hx]),
          List.map_cons, ih, hx]
        rfl
      · rw [List.filter_cons_of_neg (by simpa using hx), List.filter_cons_of_neg (by simp [hspan, hx]), ih]

/-- The manifest and the document it is packed with belong together: its events close
the review; it lists the spans of the document, each under its own text; and the present
text of a span that it lists last as anything but a rejection cannot be found in the
redacted document. -/
structure Certifies (env : Env) (db : Database) (job : RedactionJob) (doc : FitzDocument)
    (manifest : ExportManifest) : Prop where
  events : manifest.lifecycleEvents.map (·.action) ∈ closings job.status
  listed : ∀ d ∈ manifest.dispositions, ∃ r ∈ db.spanRows job.documentId, r.1.id = d.spanId
  current : ∀ r ∈ db.spanRows job.documentId, ∃ d, manifest.lastFor r.1.id = some d ∧
    d.category = r.1.category ∧ d.textDigest = some (textHash env r.1.text)
  gone : ∀ d, manifest.lastFor d.spanId = some d → d.action ≠ .rejected →
    ∃ r ∈ db.spanRows job.documentId, r.1.id = d.spanId ∧
      d.textDigest = some (textHash env r.1.text) ∧
      (normalizeText env r.1.text ≠ "" → Gone env doc (normalizeText env r.1.text))

theorem actions_manifestLifecycleEvents {review closing : List AuditEntry}
    (hreview : ∀ e ∈ review, e.spanId.isSome) (hclosing : ∀ e ∈ closing, e.spanId = none) :
    (manifestLifecycleEvents (review ++ closing)).map (·.action) = closing.map (·.action) := by
  have hnone : review.filter (fun e => e.spanId.isNone) = [] :=
    List.filter_eq_nil_iff.mpr fun e he => by simp [Option.isSome_iff_ne_none.mp (hreview e he)]
  have hall : closing.filter (fun e => e.spanId.isNone) = closing :=
    List.filter_eq_self.mpr fun e he => by simp [hclosing e he]
  rw [manifestLifecycleEvents, List.filter_append, hnone, hall, List.nil_append, List.map_map]
  rfl

/-- **An export certifies the document it hands out.**  Operations of any kind run one at
a time, each failing or dying at any point, and then an export runs and returns.  It has
packed the stored PDF with the manifest of the chain as it is; the chain verifies; every
span of the document is listed, under the digest of its text; and a span listed last with
anything but a rejection is listed under the digest of its present text, which the gate
cannot find on any page, by OCR or in the metadata of the PDF in the same archive. -/
theorem export_certifies (env : Env) (world : World) (operations : List Operation)
    (hops : ∀ jobId, .failJob jobId ∉ operations) (S : Pipeline)
    (hr : Sys.Run Guard.serial (Pipeline.start env ⟨Database.empty, world⟩ operations) S)
    (tenant : TenantContext) (jobId : UUID) (ls : List (Label Input Exn)) (bytes : Bytes)
    (s' : Shared Database World) (p' : List Write)
    (h : Ends (exportJob env tenant jobId) ls S.shared [] (.ok bytes) s' p') :
    ∃ job original redacted manifest doc,
      Exported env S.shared jobId bytes job original redacted manifest ∧
      env.fitzOpen redacted = .ok doc ∧ Certifies env S.shared.db job doc manifest := by
  obtain ⟨job, original, redacted, manifest, hexported⟩ :=
    (Contract.solo_ends h (fun _ _ => trivial) (free_nil _) (wp_exportJob_solo tenant jobId)).1 bytes rfl
  have hinv := (life_of_run hops hr).inv
  have hintact : Intact env S.shared.db := chains_of_run (fun _ => HashChain.chain_nil _) hr
  have hboxed : Boxed S.shared.db := boxed_of_run hr
  have hentries := entriesBySequence_eq (hintact job.id)
  have hjob := hinv.jobs job hexported.mem
  obtain ⟨_, spans, result, -, hspans, happly, hpass, hstored⟩ := hjob.artifact hexported.passed
  -- the archive holds the artifact
  obtain ⟨key, hkey, hredacted⟩ := hexported.storedRedacted
  have hkey' := hjob.key
  rw [if_pos hexported.passed, hkey] at hkey'
  rw [Option.some.inj hkey', hstored] at hredacted
  obtain ⟨doc, hopen, hgone⟩ := gone_of_passed happly hpass
  rw [Option.some.inj hredacted] at hopen
  obtain ⟨now, rfl⟩ := hexported.assembled
  refine ⟨job, original, redacted, _, doc, hexported, hopen, ?_⟩
  have hlast : ∀ x, (manifestOf env job (S.shared.db.entriesBySequence job.id) original redacted
      now).lastFor x = (((S.shared.db.entries job.id).filter (·.spanId = some x)).getLast?).map
        (AuditEntry.disposition x) := by
    intro x
    show ((manifestDispositions _).filter (·.spanId = x)).getLast? = _
    rw [filter_manifestDispositions, List.getLast?_map, hentries]
  have hrow : ∀ e ∈ S.shared.db.entries job.id, ∀ x, e.spanId = some x →
      ∃ r ∈ S.shared.db.spanRows job.documentId, r.1.id = x := by
    intro e he x hx
    obtain ⟨hmem, hid⟩ := List.mem_filter.mp he
    obtain ⟨j, hj, hje, r, hr', hrid⟩ := hinv.reviewed.owned e hmem x hx
    rw [List.inj_on_of_nodup_map hinv.reviewed.wf.job_pk hj hexported.mem
      (hje.trans (of_decide_eq_true hid))] at hr'
    exact ⟨r, hr', hrid⟩
  refine ⟨?_, fun d hd => ?_, fun r hr' => ?_, fun d hd hne => ?_⟩
  · obtain ⟨review, closing, hsplit, hreview, hclosing, hactions⟩ := hjob.chain
    show (manifestLifecycleEvents (S.shared.db.entriesBySequence job.id)).map (·.action) ∈ _
    rw [hentries, hsplit, actions_manifestLifecycleEvents (fun e he => (hreview e he).1) hclosing]
    exact hactions
  · obtain ⟨e, he, hd⟩ := List.mem_filterMap.mp hd
    rw [hentries] at he
    obtain ⟨x, hx, rfl⟩ := Option.map_eq_some_iff.mp hd
    exact hrow e he x hx
  · have hdisposed : job.status ∈ [.applying, .verified, .exported] :=
      List.mem_cons_of_mem _ hexported.passed
    obtain ⟨e, he⟩ := Option.isSome_iff_exists.mp
      ((hinv.reviewed.agree.isSome_iff r.1.id).mp (hjob.disposed hdisposed r hr'))
    obtain ⟨hdigest, hcategory⟩ := hinv.reviewed.hashed trivial r.1 (mem_spanRows.mp hr').1 e he
    refine ⟨e.disposition r.1.id, ?_, hcategory, hdigest⟩
    rw [hlast, hinv.reviewed.lastEntry_eq hexported.mem hr', he]
    rfl
  · rw [hlast] at hd
    obtain ⟨e, he, hde⟩ := Option.map_eq_some_iff.mp hd
    obtain ⟨hmem, hx⟩ := List.mem_filter.mp (List.mem_of_getLast? he)
    obtain ⟨⟨span, page⟩, hr', hrid⟩ := hrow e hmem d.spanId (of_decide_eq_true hx)
    change span.id = d.spanId at hrid
    rw [← hrid] at he
    have hspan : span ∈ S.shared.db.spans := (mem_spanRows.mp hr').1
    obtain ⟨boxes, hbuild⟩ := buildApprovedSpan_boxed (hboxed.spans span hspan) page.pageNumber
    have haction : d.action = e.action := (congrArg ManifestDisposition.action hde).symm
    rw [haction] at hne
    have hdigest : d.textDigest = e.textHash := (congrArg ManifestDisposition.textDigest hde).symm
    have happroved : ⟨page.pageNumber, boxes, span.text⟩ ∈ spans :=
      (hinv.reviewed.mem_approvedSpans hexported.mem hspans _).mpr
        ⟨span, page, hr', ⟨e, he, hne⟩, hbuild⟩
    rw [hinv.reviewed.lastEntry_eq hexported.mem hr'] at he
    have hhash := (hinv.reviewed.hashed trivial span hspan e he).1
    exact ⟨⟨span, page⟩, hr', hrid, hdigest.trans hhash,
      hgone ⟨page.pageNumber, boxes, span.text⟩ happroved⟩

/-- The second export of the sample job. -/
theorem export_certifies_again :
    ∃ S ls bytes s' p' job doc manifest, (Pipeline.start sampleEnv ⟨Database.empty, World.empty⟩
        sampleOperations).replayWhere Sys.serialStep sampleSchedule = some S ∧
      Ends (exportJob sampleEnv sampleAdmin 4) ls S.shared [] (.ok bytes) s' p' ∧
      Certifies sampleEnv S.shared.db job doc manifest := by
  have hsome : ((Pipeline.start sampleEnv ⟨Database.empty, World.empty⟩
      sampleOperations).replayWhere Sys.serialStep sampleSchedule).bind (fun S =>
        ((exportJob sampleEnv sampleAdmin 4).outcome (List.replicate 8 (.ok ⟨0, sampleTime⟩))
          S.shared []).map fun r => r.1.toOption) = some (some []) := by decide +kernel
  obtain ⟨S, hS, hexport⟩ := Option.bind_eq_some_iff.mp hsome
  obtain ⟨⟨o, s', p'⟩, houtcome, hbytes⟩ := Option.map_eq_some_iff.mp hexport
  cases o with
  | error e => cases hbytes
  | ok bytes =>
    have hends := ends_of_outcome houtcome
    obtain ⟨job, -, -, manifest, doc, -, -, hcertifies⟩ := export_certifies sampleEnv World.empty
      sampleOperations (fun jobId h => by simp [sampleOperations] at h) S
      (Sys.run_of_replayWhere Guard.serial_of_serialStep hS) sampleAdmin 4 _ bytes s' p' hends
    exact ⟨S, _, bytes, s', p', job, doc, manifest, hS, hends, hcertifies⟩

end

end RedactApi
