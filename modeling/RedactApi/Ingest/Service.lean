import RedactApi.Ingest.Pdf
import RedactApi.Storage.Keys

/-!
# Ingest

`ingest/service.py`: a PDF is extracted as a whole before anything is uploaded,
then every page leaves a raster and a text layer in the object store.
-/

namespace RedactApi

def validateFileSize (env : Env) (pdfBytes : Bytes) : Except Exn Unit :=
  if pdfBytes.length > env.maxFileSizeBytes then
    .error (.documentTooLarge .fileSize pdfBytes.length env.maxFileSizeBytes)
  else .ok ()

def uploadPage (env : Env) (documentId : UUID) (extraction : PageExtraction) : Tx PageModel := do
  let rasterKey := Keys.pageRasterKey documentId extraction.page.pageNumber
  let textLayerKey := Keys.pageTextLayerKey documentId extraction.page.pageNumber
  uploadBytes rasterKey extraction.pngBytes
  uploadBytes textLayerKey (env.textLayerPayload extraction.page)
  return { extraction.page with rasterKey := rasterKey }

structure IngestResult where
  pageCount : Nat
  pages : List PageModel
  deriving DecidableEq, Repr

def ingestPdf (env : Env) (documentId : UUID) (pdfBytes : Bytes) : Tx IngestResult := do
  let extractions ← compute (validateFileSize env pdfBytes >>= fun _ => extractPages env pdfBytes)
  let pages ← extractions.foldlM (fun pages extraction => do
    let page ← uploadPage env documentId extraction
    return pages ++ [page]) []
  return ⟨pages.length, pages⟩

/-! ### What ingest touches -/

section

open ReadCommitted

variable {C : Contract Database Write World Input Exn} {s : Shared Database World} {p : List Write}
  {E : Exn → Shared Database World → List Write → Prop}

variable (C) in
/-- The contract does not care about the page artifacts of a document. -/
def ToleratesPages (documentId : UUID) : Prop :=
  ∀ n data, Tolerates C (·.put (Keys.pageRasterKey documentId n) data) ∧
    Tolerates C (·.put (Keys.pageTextLayerKey documentId n) data)

theorem wp_uploadPage {env : Env} {documentId : UUID} {extraction : PageExtraction}
    {Q : PageModel → Shared Database World → List Write → Prop} (hput : ToleratesPages C documentId)
    (hF : ∀ e s', C.fault e → C.After s s' → E e s' p) (hQ : ∀ page s', C.After s s' → Q page s' p) :
    C.wp (uploadPage env documentId extraction) Q E s p := by
  refine Contract.wp_bind (wp_act_tolerated (hput _ _).1 (fun e s' he hn => hF e s' he hn.after)
    fun s₁ h₁ => ?_)
  refine Contract.wp_bind (wp_act_tolerated (hput _ _).2
    (fun e s' he hn => hF e s' he (h₁.trans hn.after)) fun s₂ h₂ => ?_)
  exact hQ _ s₂ (h₁.trans h₂)

/-- **Ingest writes no row**, and raises nothing but what the extraction does. -/
theorem wp_ingestPdf {env : Env} {documentId : UUID} {pdfBytes : Bytes}
    {Q : IngestResult → Shared Database World → List Write → Prop}
    (hput : ToleratesPages C documentId) (hF : ∀ e s', C.fault e → C.After s s' → E e s' p)
    (hE : ∀ e s', (validateFileSize env pdfBytes >>= fun _ => extractPages env pdfBytes) =
      .error e → C.After s s' → E e s' p)
    (hQ : ∀ result s', (∃ extractions, (validateFileSize env pdfBytes >>= fun _ =>
      extractPages env pdfBytes) = .ok extractions) → C.After s s' → Q result s' p) :
    C.wp (ingestPdf env documentId pdfBytes) Q E s p := by
  refine Contract.wp_bind (wp_observe_cases (fun e s' he hn => hF e s' he hn.after)
    (fun s₁ _ extractions hn₁ _ hok => ?_) fun s' _ e hn he => hE e s' he hn.after)
  refine Contract.wp_bind (Contract.wp_mono (fun pages s' p' h => ?_) (fun e s' p' h => h) _
    (Contract.wp_foldlM (I := fun _ s' p' => C.After s s' ∧ p' = p) ?_ ⟨hn₁.after, rfl⟩))
  · obtain ⟨h, rfl⟩ := h
    exact hQ _ s' ⟨extractions, hok⟩ h
  · rintro extraction _ pages s' p' ⟨h, rfl⟩
    exact Contract.wp_bind (wp_uploadPage hput (fun e s'' he h' => hF e s'' he (h.trans h'))
      fun page s'' h' => ⟨h.trans h', rfl⟩)

end

end RedactApi
