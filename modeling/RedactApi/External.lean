import RedactApi.Models
import RedactApi.ReadCommitted.Ends

/-!
# What lies outside the repository

The data that crosses the border of the pipeline, the libraries behind it, and
the object store and task queue next to the database.

PyMuPDF, Pillow, Tesseract, the detectors and the hash are fields of `Env`: the
pipeline calls them and every result below holds for any of them.  A library
call that can raise answers with an `Except`.
-/

namespace RedactApi

open ReadCommitted

/-! ### Page models and detector output -/

/-- A box `(x0, y0, x1, y1)` in PDF points, origin at the top left. -/
structure BBox where
  x0 : ℚ
  y0 : ℚ
  x1 : ℚ
  y1 : ℚ
  deriving DecidableEq, Repr

/-- `list(bbox)`, the shape a box has at rest. -/
def BBox.toList (b : BBox) : List ℚ := [b.x0, b.y0, b.x1, b.y1]

theorem BBox.toList_inj {a b : BBox} (h : a.toList = b.toList) : a = b := by
  cases a
  cases b
  simpa [BBox.toList] using h

structure WordBBox where
  start : Nat
  stop : Nat
  bbox : BBox
  deriving DecidableEq, Repr

structure PageModel where
  pageNumber : Nat
  width : ℚ
  height : ℚ
  text : String
  words : List WordBBox
  rotation : Nat
  rasterKey : String
  deriving DecidableEq, Repr

structure CandidateSpan where
  pageNumber : Nat
  start : Nat
  stop : Nat
  bboxes : List BBox
  text : String
  category : String
  sourceTier : SourceTier
  confidence : ℚ
  deriving DecidableEq, Repr

/-- An approved span, projected for the burn-in. -/
structure ApprovedSpan where
  pageNumber : Nat
  bboxes : List BBox
  text : String
  deriving DecidableEq, Repr

/-! ### Images and PDF documents -/

structure Rgb where
  r : UInt8
  g : UInt8
  b : UInt8
  deriving DecidableEq, Repr

structure Image where
  width : Nat
  height : Nat
  pixel : Nat → Nat → Rgb

/-- One entry of `page.get_text("words")`. -/
structure RawWord where
  bbox : BBox
  text : String
  blockNo : Nat
  lineNo : Nat
  wordNo : Nat
  deriving DecidableEq, Repr

/-- What the pipeline reads from a page of an open document. -/
structure FitzPage where
  rectWidth : ℚ
  rectHeight : ℚ
  rotation : Nat
  words : List RawWord
  text : String
  searchFor : String → List BBox
  pixmap : Nat → Image

structure FitzDocument where
  needsPass : Bool
  pages : List FitzPage
  metadata : List (Option String)
  xmlMetadata : Option String

/-- A page of the rebuilt document: its size and the image that fills it. -/
structure OutPage where
  width : ℚ
  height : ℚ
  image : Image

/-- The document a burn-in builds: image pages and what a PDF can carry besides. -/
structure OutDocument where
  pages : List OutPage
  metadata : List (String × String)
  xmlMetadata : Option String
  embeddedFiles : List String
  catalog : List (String × String)

/-! ### Verify results -/

inductive VerifyVerdict
  | pass | fail
  deriving DecidableEq, Repr

def VerifyVerdict.value : VerifyVerdict → String
  | .pass => "pass"
  | .fail => "fail"

inductive CheckType
  | textLayer | ocr | metadata
  deriving DecidableEq, Repr

def CheckType.value : CheckType → String
  | .textLayer => "text_layer"
  | .ocr => "ocr"
  | .metadata => "metadata"

structure VerifyFinding where
  redactedStringDigest : String
  checkType : CheckType
  pageNumber : Nat
  matchScore : Option ℚ
  bbox : Option BBox
  deriving DecidableEq, Repr

structure CheckSummary where
  checkType : CheckType
  passed : Bool
  pagesChecked : Nat
  deriving DecidableEq, Repr

structure VerifyResult where
  verdict : VerifyVerdict
  checks : List CheckSummary
  findings : List VerifyFinding
  deriving DecidableEq, Repr

structure ApplyResult where
  pdfBytes : Bytes
  verifyResult : VerifyResult
  deriving DecidableEq, Repr

def ApplyResult.passed (r : ApplyResult) : Bool := r.verifyResult.verdict = .pass

/-! ### The export manifest -/

structure ManifestDisposition where
  spanId : UUID
  action : AuditAction
  category : String
  textDigest : Option String
  reviewerId : UUID
  disposedAt : DateTime
  deriving DecidableEq, Repr

structure ManifestLifecycleEvent where
  action : AuditAction
  reviewerId : UUID
  createdAt : DateTime
  deriving DecidableEq, Repr

/-- The verify summary is kept as the JSON text it is decoded from. -/
structure ExportManifest where
  jobId : UUID
  documentId : UUID
  originalSha256 : String
  redactedSha256 : String
  dispositions : List ManifestDisposition
  lifecycleEvents : List ManifestLifecycleEvent
  verifySummary : Option String
  entryCount : Nat
  auditChainHead : String
  auditChainVerified : Bool
  generatedAt : DateTime
  deriving DecidableEq, Repr

/-! ### The libraries -/

/-- The libraries the pipeline calls and its settings. -/
structure Env where
  /-- SHA-256 of the UTF-8 bytes, in hexadecimal. -/
  hashHex : String → String
  sha256Hex : Bytes → String
  nfc : String → String
  casefold : String → String
  fitzOpen : Bytes → Except Exn FitzDocument
  tobytes : OutDocument → Except Exn Bytes
  pngBytes : Image → Bytes
  imageToString : Image → Except Exn String
  partialRatio : String → String → ℚ
  tier1Detectors : List (PageModel → List CandidateSpan)
  detectEntitiesBatch : List PageModel → Except Exn (List (List CandidateSpan))
  textLayerPayload : PageModel → Bytes
  manifestBytes : ExportManifest → Bytes
  zipBytes : Bytes → Bytes → Bytes
  maxFileSizeBytes : Nat

/-- Libraries that read every non-empty file as one letter page with a single
word, and detect nothing; the hash is given. -/
def Env.letter (hashHex : String → String) : Env where
  hashHex := hashHex
  sha256Hex _ := ""
  nfc := id
  casefold := id
  fitzOpen
    | [] => .error (.external "FileDataError")
    | _ :: _ => .ok
      { needsPass := false
        pages :=
          [{ rectWidth := 612
             rectHeight := 792
             rotation := 0
             words := [⟨⟨72, 72, 144, 90⟩, "x", 0, 0, 0⟩]
             text := ""
             searchFor := fun _ => []
             pixmap := fun _ => ⟨2550, 3300, fun _ _ => ⟨255, 255, 255⟩⟩ }]
        metadata := []
        xmlMetadata := none }
  tobytes out :=
    if out.pages.isEmpty then .error (.value "cannot save with zero pages") else .ok [0]
  pngBytes _ := [0]
  imageToString _ := .ok ""
  partialRatio _ _ := 0
  tier1Detectors := []
  detectEntitiesBatch pages := .ok (pages.map fun _ => [])
  textLayerPayload _ := []
  manifestBytes _ := []
  zipBytes _ _ := []
  maxFileSizeBytes := 10485760

@[simp] theorem Env.letter_hashHex (hashHex : String → String) :
    (Env.letter hashHex).hashHex = hashHex := rfl

/-! ### The world next to the database -/

/-- The object store, the task queue, and a history of the burn-ins: for each
call of `apply` the job it ran for and the spans it was given. -/
structure World where
  objects : String → Option Bytes
  queue : List Message
  burned : List (UUID × List ApprovedSpan)

def World.empty : World := ⟨fun _ => none, [], []⟩

def World.put (w : World) (key : String) (data : Bytes) : World :=
  { w with objects := Function.update w.objects key (some data) }

theorem put_objects_ne {w : World} {key key' : String} (data : Bytes) (h : key' ≠ key) :
    (w.put key data).objects key' = w.objects key' := Function.update_of_ne h _ _

theorem put_objects_self (w : World) (key : String) (data : Bytes) :
    (w.put key data).objects key = some data := Function.update_self _ _ _

abbrev Tx := Prog Database Write World Input Exn

/-- Answers that leave the world as it is. -/
def observe {α : Type} (r : World → Input → Except Exn α) : Tx α :=
  Prog.invoke (fun w _ => w) r

/-- A call that changes the world and returns nothing. -/
def act (f : World → World) : Tx Unit := Prog.invoke (fun w _ => f w) fun _ _ => .ok ()

def liftExcept {α : Type} : Except Exn α → Tx α
  | .ok a => .ret a
  | .error e => .raise e

/-- `gen_random_uuid()`. -/
def genRandomUuid : Tx UUID := observe fun _ i => .ok i.uuid

/-- `datetime.now(UTC)`. -/
def datetimeNow : Tx DateTime := observe fun _ i => .ok i.now

/-- A library call. -/
def compute {α : Type} (r : Except Exn α) : Tx α := observe fun _ _ => r

def uploadBytes (key : String) (data : Bytes) : Tx Unit := act (·.put key data)

def downloadBytes (key : String) : Tx Bytes := observe fun w _ =>
  match w.objects key with
  | some data => .ok data
  | none => .error (.external "NoSuchKey")

/-- What a download returns is stored. -/
theorem downloaded {w : World} {key : String} {data : Bytes}
    (h : (match w.objects key with
      | some data => .ok data
      | none => .error (.external "NoSuchKey") : Except Exn Bytes) = .ok data) :
    w.objects key = some data := by
  revert h
  cases w.objects key with
  | none => exact fun h => by cases h
  | some data => exact fun h => by cases h; rfl

def World.enqueue (w : World) (m : Message) : World := { w with queue := w.queue ++ [m] }

/-- `task.kiq(...)`. -/
def kiq (m : Message) : Tx Unit := act (·.enqueue m)

/-! ### Calls commit nothing -/

section

variable {α : Type}

theorem uncommitted_observe (r : World → Input → Except Exn α) :
    (observe r : Tx α).Uncommitted := uncommitted_invoke (fun w _ => w) r

theorem uncommitted_act (f : World → World) : (act f).Uncommitted :=
  uncommitted_invoke (fun w _ => f w) fun _ _ => .ok ()

theorem uncommitted_genRandomUuid : genRandomUuid.Uncommitted :=
  uncommitted_observe fun _ i => .ok i.uuid

theorem uncommitted_datetimeNow : datetimeNow.Uncommitted :=
  uncommitted_observe fun _ i => .ok i.now

theorem uncommitted_kiq (m : Message) : (kiq m).Uncommitted := uncommitted_act (·.enqueue m)

end

/-! ### Rules for the calls -/

section

variable {C : Contract Database Write World Input Exn} {α : Type} {s : Shared Database World}
  {p : List Write} {Q : α → Shared Database World → List Write → Prop}
  {E : Exn → Shared Database World → List Write → Prop}

theorem wp_observe_cases {r : World → Input → Except Exn α}
    (hF : ∀ e s', C.fault e → C.Now s p s' → E e s' p)
    (hQ : ∀ s' i a, C.Now s p s' → C.input s' p i → r s'.world i = .ok a → Q a s' p)
    (hE : ∀ s' i e, C.Now s p s' → r s'.world i = .error e → E e s' p) :
    C.wp (observe r) Q E s p :=
  Contract.wp_invoke_cases hF fun s' i hn hin =>
    ⟨⟨hn.inv, C.guar_refl s', C.past_refl s'⟩, fun a ha => hQ s' i a hn hin ha,
      fun e he => hE s' i e hn he⟩

theorem wp_observe {r : World → Input → Except Exn α} (hE : C.Escapes E s)
    (hQ : ∀ s' i a, C.Now s p s' → C.input s' p i → r s'.world i = .ok a → Q a s' p) :
    C.wp (observe r) Q E s p :=
  wp_observe_cases hE.fault hQ fun s' _ e hn _ => hE e s' p hn.after

theorem wp_genRandomUuid {Q : UUID → Shared Database World → List Write → Prop}
    (hE : C.Escapes E s) (hQ : ∀ s' i, C.Now s p s' → C.input s' p i → Q i.uuid s' p) :
    C.wp genRandomUuid Q E s p := by
  refine wp_observe hE fun s' i id hn hin hid => ?_
  cases hid
  exact hQ s' i hn hin

theorem wp_compute {r : Except Exn α} (hE : C.Escapes E s)
    (hQ : ∀ s' a, C.Now s p s' → r = .ok a → Q a s' p) : C.wp (compute r) Q E s p :=
  wp_observe hE fun s' _ a hn _ ha => hQ s' a hn ha

theorem wp_liftExcept {r : Except Exn α} (hi : C.inv s) (hE : C.Escapes E s)
    (hQ : ∀ a, r = .ok a → Q a s p) : C.wp (liftExcept r) Q E s p := by
  cases r with
  | ok a => exact hQ a rfl
  | error e => exact hE e s p (.self hi)

variable (C) in
def Tolerates (f : World → World) : Prop := ∀ s, C.inv s → C.Acts s (f s.world)

theorem wp_act {f : World → World} {Q : Unit → Shared Database World → List Write → Prop}
    (hF : ∀ e s', C.fault e → C.Now s p s' → E e s' p)
    (hQ : ∀ s', C.Now s p s' → C.Acts s' (f s'.world) ∧
      Q () { s' with world := f s'.world } p) : C.wp (act f) Q E s p :=
  Contract.wp_invoke_cases hF fun s' _ hn _ =>
    ⟨(hQ s' hn).1, fun _ _ => (hQ s' hn).2, fun _ he => by cases he⟩

theorem wp_act_tolerated {f : World → World}
    {Q : Unit → Shared Database World → List Write → Prop} (hf : Tolerates C f)
    (hF : ∀ e s', C.fault e → C.Now s p s' → E e s' p) (hQ : ∀ s', C.After s s' → Q () s' p) :
    C.wp (act f) Q E s p :=
  wp_act hF fun s' hn => ⟨hf s' hn.inv, hQ _ (hn.after.act (hf s' hn.inv))⟩

end

end RedactApi
