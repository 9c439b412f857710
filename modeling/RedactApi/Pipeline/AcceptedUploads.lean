import RedactApi.Pipeline.Lifecycle

/-!
# An accepted upload is not rejected later

The pre-check of an upload and the extraction of its pages raise the same exceptions.
Nothing is stored under the key of an original but what has passed the pre-check, so in
every state the extraction of a stored original returns.
-/

namespace RedactApi

open ReadCommitted

section

variable {env : Env} {pdfBytes : Bytes}

/-- The exceptions of `ingest/exceptions.py`, as the details of a 422. -/
def rejectionDetail : Exn → Option String
  | .documentTooLarge limitKind actual limit => some (tooLargeMessage limitKind actual limit)
  | .encryptedPdf message | .malformedPdf message => some message
  | .unsupportedPage pageNumbers => some (unsupportedMessage pageNumbers)
  | _ => none

/-- An upload is refused for what its extraction would raise. -/
theorem precheckPdf_eq : precheckPdf env pdfBytes =
    match extractPages env pdfBytes with
    | .ok _ => .ok ()
    | .error e => match rejectionDetail e with
      | some detail => .error (.http 422 (.text detail))
      | none => .error e := by
  rw [precheckPdf, validatePdfStructure_eq]
  cases extractPages env pdfBytes with
  | ok extractions => rfl
  | error e => cases e <;> rfl

theorem precheckPdf_ok_iff : precheckPdf env pdfBytes = .ok () ↔
    ∃ extractions, extractPages env pdfBytes = .ok extractions := by
  rw [precheckPdf_eq]
  cases extractPages env pdfBytes with
  | ok extractions => exact ⟨fun _ => ⟨extractions, rfl⟩, fun _ => rfl⟩
  | error e =>
    refine ⟨fun h => ?_, fun ⟨_, h⟩ => by cases h⟩
    dsimp only at h
    split at h <;> cases h

/-- What is accepted can be extracted, by ingest and by detection. -/
theorem Accepted.extracts (h : Accepted env pdfBytes) :
    ∃ extractions, extractStored env (some pdfBytes) = .ok extractions ∧
      extractPages env pdfBytes = .ok extractions := by
  obtain ⟨extractions, hextract⟩ := precheckPdf_ok_iff.mp h.precheck
  refine ⟨extractions, ?_, hextract⟩
  rw [extractStored, validateFileSize, if_neg (Nat.not_lt.mpr h.length)]
  exact hextract

end

/-! ### Stored originals -/

/-- Whatever is stored under the key of an original was accepted. -/
def AcceptedOriginals (env : Env) (w : World) : Prop :=
  ∀ documentId pdfBytes, w.objects (Keys.originalPdfKey documentId) = some pdfBytes →
    Accepted env pdfBytes

theorem acceptedOriginals_empty (env : Env) : AcceptedOriginals env World.empty :=
  fun _ _ h => by cases h

theorem AcceptedOriginals.put {env : Env} {w : World} (h : AcceptedOriginals env w) {key : String}
    {data : Bytes} (hdata : ∀ documentId, Keys.originalPdfKey documentId = key → Accepted env data) :
    AcceptedOriginals env (w.put key data) := by
  intro documentId pdfBytes hobject
  by_cases hkey : Keys.originalPdfKey documentId = key
  · rw [hkey, put_objects_self] at hobject
    cases hobject
    exact hdata documentId hkey
  · rw [put_objects_ne data hkey] at hobject
    exact h documentId pdfBytes hobject

def acceptedContract (env : Env) : Contract Database Write World Input Exn where
  inv s := AcceptedOriginals env s.world
  rely s s' := AcceptedOriginals env s.world → AcceptedOriginals env s'.world
  guar s s' := AcceptedOriginals env s.world → AcceptedOriginals env s'.world
  allowed _ _ := True
  input _ _ _ := True
  fault _ := True
  past _ _ := True
  rely_refl _ := id
  rely_trans h h' := h' ∘ h
  guar_refl _ := id
  past_refl _ := trivial
  past_trans _ _ := trivial
  rely_past _ := trivial

section

variable {env : Env} {s : Shared Database World}

theorem accepted_lands (h : AcceptedOriginals env s.world) (p : List Write) :
    Allows (acceptedContract env) s p := fun _ => ⟨h, id, trivial⟩

theorem accepted_acts {w : World} (h : AcceptedOriginals env w) : (acceptedContract env).Acts s w :=
  ⟨h, fun _ => h, trivial⟩

theorem accepted_put {key : String} (data : Bytes)
    (hkey : ∀ documentId, Keys.originalPdfKey documentId ≠ key) :
    Tolerates (acceptedContract env) (·.put key data) :=
  fun _ h => accepted_acts (AcceptedOriginals.put h fun documentId he => absurd he (hkey documentId))

theorem operates_accepted (env : Env) : Operates (acceptedContract env) env where
  pages _ _ data :=
    ⟨accepted_put data fun _ => (Keys.pageKey_ne_original _ _ _ _).symm,
      accepted_put data fun _ => (Keys.pageKey_ne_original _ _ _ _).symm⟩
  enqueue _ _ h := accepted_acts h
  manifest _ data := accepted_put data fun _ => (Keys.exportManifestKey_ne_original _ _).symm
  fails _ _ _ _ _ _ _ _ _ _ _ _ _ _ h := accepted_lands h.inv _
  ingests _ _ _ _ _ _ h := accepted_lands h.inv _
  detects _ _ _ _ _ _ _ h _ _ := accepted_lands h.inv _
  burns _ _ _ _ _ _ _ _ _ _ h := accepted_acts h.inv
  stores _ _ _ _ _ _ _ h := accepted_acts (AcceptedOriginals.put h.inv
    fun _ he => absurd he (Keys.originalPdfKey_ne_redacted _ _))
  failsGate _ _ _ _ _ _ _ _ _ h _ _ _ _ := accepted_lands h.inv _
  passesGate _ _ _ _ _ _ _ _ _ _ h _ _ _ _ _ := accepted_lands h.inv _
  uploads _ _ _ _ h _ hdata _ := accepted_acts (AcceptedOriginals.put h fun _ _ => hdata)
  creates _ _ _ h _ _ := accepted_lands h _
  disposes _ _ _ _ _ _ _ _ _ h _ _ := accepted_lands h.inv _
  starts _ _ _ _ _ _ _ _ _ _ _ h := accepted_lands h.inv _
  exports _ _ _ _ _ _ _ _ _ h _ _ := accepted_lands h.inv _

theorem accepted_of_run {G : Guard Database Write World Input Exn Unit} {world : World}
    {operations : List Operation} {S : Pipeline} (hworld : AcceptedOriginals env world)
    (hr : Sys.Run G (Pipeline.start env ⟨Database.empty, world⟩ operations) S) :
    AcceptedOriginals env S.shared.world := by
  have hfits : (acceptedContract env).Fits G :=
    ⟨fun _ => trivial, fun _ _ => trivial, fun _ _ _ => trivial⟩
  have hi : (acceptedContract env).inv ⟨Database.empty, world⟩ := hworld
  refine (Contract.sound hfits (fun _ _ h => h) (Contract.good_start hi fun q hq => ?_) hr).inv
  obtain ⟨operation, -, rfl⟩ := List.mem_map.mp hq
  exact (operates_accepted env).safe operation (fun _ _ _ _ _ _ _ _ h => accepted_lands h.inv _) hi

end

/-- **The pre-check agrees with the extraction.**  Of every file, the pre-check and the
extraction both return or raise one exception, with the same data.  So an upload within
the size limit is refused exactly when its extraction would raise, with the detail of
that exception if it is one of the rejections; and whatever operations run and however
they overlap and fail, the extraction of a stored original, in ingest and in detection,
returns. -/
theorem precheck_agrees (env : Env) :
    (∀ pdfBytes, validatePdfStructure env pdfBytes = (extractPages env pdfBytes).map fun _ => ()) ∧
    (∀ file filename pdfBytes, checkUpload env file = .ok (filename, pdfBytes) →
      (∀ extractions, extractStored env (some pdfBytes) = .ok extractions →
        precheckPdf env pdfBytes = .ok ()) ∧
      ∀ e detail, extractStored env (some pdfBytes) = .error e → rejectionDetail e = some detail →
        precheckPdf env pdfBytes = .error (.http 422 (.text detail))) ∧
    ∀ (G : Guard Database Write World Input Exn Unit) (operations : List Operation) (S : Pipeline),
      Sys.Run G (Pipeline.start env ⟨Database.empty, World.empty⟩ operations) S →
      ∀ documentId pdfBytes,
        S.shared.world.objects (Keys.originalPdfKey documentId) = some pdfBytes →
        ∃ extractions, extractStored env (some pdfBytes) = .ok extractions ∧
          extractPages env pdfBytes = .ok extractions := by
  refine ⟨validatePdfStructure_eq env, fun file filename pdfBytes hfile => ?_, ?_⟩
  · have hstored : extractStored env (some pdfBytes) = extractPages env pdfBytes := by
      rw [extractStored, validateFileSize, if_neg (Nat.not_lt.mpr (checkUpload_ok hfile))]
      rfl
    rw [hstored]
    refine ⟨fun extractions h => precheckPdf_ok_iff.mpr ⟨extractions, h⟩, fun e detail h hdetail => ?_⟩
    rw [precheckPdf_eq, h]
    dsimp only
    rw [hdetail]
  · intro G operations S hr documentId pdfBytes hobject
    exact (accepted_of_run (acceptedOriginals_empty env) hr documentId pdfBytes hobject).extracts

theorem precheck_agrees_sample :
    ∃ S documentId extractions, (Pipeline.start sampleEnv ⟨Database.empty, World.empty⟩
        sampleOperations).replayWhere Sys.serialStep (numbered (List.replicate 11 0)) = some S ∧
      S.shared.world.objects (Keys.originalPdfKey documentId) = some [0] ∧
      precheckPdf sampleEnv [0] = .ok () ∧ extractPages sampleEnv [0] = .ok extractions := by
  have hsome : ((Pipeline.start sampleEnv ⟨Database.empty, World.empty⟩
      sampleOperations).replayWhere Sys.serialStep (numbered (List.replicate 11 0))).map
        (fun S => S.shared.world.objects (Keys.originalPdfKey 1)) = some (some [0]) := by
    decide +kernel
  obtain ⟨S, hS, hobject⟩ := Option.map_eq_some_iff.mp hsome
  obtain ⟨-, hupload, hrun⟩ := precheck_agrees sampleEnv
  obtain ⟨extractions, hstored, hextract⟩ := hrun Guard.serial sampleOperations S
    (Sys.run_of_replayWhere Guard.serial_of_serialStep hS) 1 [0] hobject
  have hfile : checkUpload sampleEnv ⟨some "a.pdf", some pdfContentType, [0]⟩ =
      .ok ("a.pdf", [0]) := by decide
  exact ⟨S, 1, extractions, hS, hobject, (hupload _ _ _ hfile).1 extractions hstored, hextract⟩

end RedactApi
