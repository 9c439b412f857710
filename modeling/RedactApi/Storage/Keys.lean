import RedactApi.Models

/-!
# Object keys

`storage/keys.py`.  A key determines the identifier and the page number it is made
from, and no two artifacts share one (`Artifact.key_injective`).
-/

namespace RedactApi

namespace Keys

def documentsPrefix : String := "documents"
def jobsPrefix : String := "jobs"

def pageRasterKey (documentId : UUID) (pageNumber : Nat) : String :=
  documentsPrefix ++ "/" ++ documentId.str ++ "/pages/" ++ pageNumber.repr ++ "/raster.png"

def pageTextLayerKey (documentId : UUID) (pageNumber : Nat) : String :=
  documentsPrefix ++ "/" ++ documentId.str ++ "/pages/" ++ pageNumber.repr ++ "/text_layer.json"

def originalPdfKey (documentId : UUID) : String :=
  documentsPrefix ++ "/" ++ documentId.str ++ "/original.pdf"

def redactedPdfKey (jobId : UUID) : String := jobsPrefix ++ "/" ++ jobId.str ++ "/redacted.pdf"

def exportManifestKey (jobId : UUID) : String := jobsPrefix ++ "/" ++ jobId.str ++ "/manifest.json"

/-! ### What a key determines -/

theorem cut {p : String} {u v : UUID} {x y : List Char}
    (h : p.toList ++ "/".toList ++ u.chars ++ x = p.toList ++ "/".toList ++ v.chars ++ y) :
    u = v ∧ x = y := by
  rw [List.append_assoc, List.append_assoc (p.toList ++ _)] at h
  obtain ⟨hu, hx⟩ := List.append_inj (List.append_cancel_left h) (by simp)
  exact ⟨UUID.chars_inj hu, hx⟩

theorem originalPdfKey_inj {d e : UUID} (h : originalPdfKey d = originalPdfKey e) : d = e := by
  have h := congrArg String.toList h
  simp only [originalPdfKey, String.toList_append, UUID.toList_str] at h
  exact (cut h).1

theorem redactedPdfKey_inj {i j : UUID} (h : redactedPdfKey i = redactedPdfKey j) : i = j := by
  have h := congrArg String.toList h
  simp only [redactedPdfKey, String.toList_append, UUID.toList_str] at h
  exact (cut h).1

/-- Keys under different prefixes differ in their first character. -/
theorem documents_ne_jobs (x y : String) : documentsPrefix ++ x ≠ jobsPrefix ++ y := by
  intro h
  have h := congrArg String.toList h
  rw [String.toList_append, String.toList_append] at h
  exact absurd (List.cons.inj h).1 (by decide)

theorem originalPdfKey_ne_redacted (d j : UUID) : originalPdfKey d ≠ redactedPdfKey j := by
  simp only [originalPdfKey, redactedPdfKey, String.append_assoc]
  exact documents_ne_jobs _ _

theorem exportManifestKey_ne_redacted (i j : UUID) : exportManifestKey i ≠ redactedPdfKey j := by
  intro h
  have h := congrArg String.toList h
  simp only [exportManifestKey, redactedPdfKey, String.toList_append, UUID.toList_str] at h
  exact absurd (cut h).2 (by decide)

theorem exportManifestKey_ne_original (i d : UUID) : exportManifestKey i ≠ originalPdfKey d := by
  simp only [originalPdfKey, exportManifestKey, String.append_assoc]
  exact (documents_ne_jobs _ _).symm

theorem exportManifestKey_inj {i j : UUID} (h : exportManifestKey i = exportManifestKey j) :
    i = j := by
  have h := congrArg String.toList h
  simp only [exportManifestKey, String.toList_append, UUID.toList_str] at h
  exact (cut h).1

theorem repr_inj {n m : Nat} (h : n.repr.toList = m.repr.toList) : n = m := by
  rw [Nat.toList_repr, Nat.toList_repr] at h
  have hread := congrArg (fun digits => Nat.ofDigitChars 10 digits 0) h
  simpa using hread

/-- The key of an artifact of a page. -/
def pageKey (documentId : UUID) (pageNumber : Nat) (name : String) : String :=
  documentsPrefix ++ "/" ++ documentId.str ++ "/pages/" ++ pageNumber.repr ++ name

theorem toList_pageKey (d : UUID) (n : Nat) (name : String) :
    (pageKey d n name).toList =
      documentsPrefix.toList ++ "/".toList ++ d.chars ++
        ("/pages/".toList ++ n.repr.toList ++ name.toList) := by
  simp only [pageKey, String.toList_append, UUID.toList_str, List.append_assoc]

/-- What follows the identifier of a page key ends in the name. -/
theorem pageKey_cut {d e : UUID} {n m : Nat} {name name' : String}
    (h : pageKey d n name = pageKey e m name') :
    d = e ∧ n.repr.toList ++ name.toList = m.repr.toList ++ name'.toList := by
  have hlist := congrArg String.toList h
  rw [toList_pageKey, toList_pageKey] at hlist
  obtain ⟨hd, hrest⟩ := cut hlist
  rw [List.append_assoc, List.append_assoc] at hrest
  exact ⟨hd, List.append_cancel_left hrest⟩

theorem pageKey_inj {d e : UUID} {n m : Nat} {name : String}
    (h : pageKey d n name = pageKey e m name) : d = e ∧ n = m := by
  obtain ⟨hd, hrest⟩ := pageKey_cut h
  exact ⟨hd, repr_inj (List.append_cancel_right hrest)⟩

theorem pageRasterKey_inj {d e : UUID} {n m : Nat} (h : pageRasterKey d n = pageRasterKey e m) :
    d = e ∧ n = m := pageKey_inj h

theorem pageTextLayerKey_inj {d e : UUID} {n m : Nat}
    (h : pageTextLayerKey d n = pageTextLayerKey e m) : d = e ∧ n = m := pageKey_inj h

theorem pageRasterKey_ne_textLayer (d e : UUID) (n m : Nat) :
    pageRasterKey d n ≠ pageTextLayerKey e m := by
  intro h
  have hlast := congrArg List.getLast? (pageKey_cut h).2
  rw [List.getLast?_append_of_ne_nil _ (by decide), List.getLast?_append_of_ne_nil _ (by decide)]
    at hlast
  exact absurd hlast (by decide)

theorem pageKey_ne_original (d e : UUID) (n : Nat) (name : String) :
    pageKey d n name ≠ originalPdfKey e := by
  intro h
  have hlist := congrArg String.toList h
  rw [toList_pageKey] at hlist
  simp only [originalPdfKey, String.toList_append, UUID.toList_str] at hlist
  have hrest := (cut hlist).2
  rw [List.append_assoc] at hrest
  exact absurd (List.cons.inj (List.cons.inj hrest).2).1 (by decide)

theorem pageKey_ne_redacted (d j : UUID) (n : Nat) (name : String) :
    pageKey d n name ≠ redactedPdfKey j := by
  simp only [pageKey, redactedPdfKey, String.append_assoc]
  exact documents_ne_jobs _ _

theorem pageKey_ne_manifest (d j : UUID) (n : Nat) (name : String) :
    pageKey d n name ≠ exportManifestKey j := by
  simp only [pageKey, exportManifestKey, String.append_assoc]
  exact documents_ne_jobs _ _

/-! ### The families together -/

/-- What the stages leave in the object store. -/
inductive Artifact
  | original (documentId : UUID)
  | pageRaster (documentId : UUID) (pageNumber : Nat)
  | pageTextLayer (documentId : UUID) (pageNumber : Nat)
  | redacted (jobId : UUID)
  | manifest (jobId : UUID)
  deriving DecidableEq

def Artifact.key : Artifact → String
  | .original d => originalPdfKey d
  | .pageRaster d n => pageRasterKey d n
  | .pageTextLayer d n => pageTextLayerKey d n
  | .redacted j => redactedPdfKey j
  | .manifest j => exportManifestKey j

/-- **Each artifact has its own key**: the families are injective and apart. -/
theorem Artifact.key_injective : Function.Injective Artifact.key := by
  intro a b h
  cases a <;> cases b <;> simp only [Artifact.key] at h
  case original.original => rw [originalPdfKey_inj h]
  case pageRaster.pageRaster =>
    obtain ⟨rfl, rfl⟩ := pageRasterKey_inj h
    rfl
  case pageTextLayer.pageTextLayer =>
    obtain ⟨rfl, rfl⟩ := pageTextLayerKey_inj h
    rfl
  case redacted.redacted => rw [redactedPdfKey_inj h]
  case manifest.manifest => rw [exportManifestKey_inj h]
  case original.pageRaster => exact absurd h.symm (pageKey_ne_original _ _ _ _)
  case original.pageTextLayer => exact absurd h.symm (pageKey_ne_original _ _ _ _)
  case original.redacted => exact absurd h (originalPdfKey_ne_redacted _ _)
  case original.manifest => exact absurd h.symm (exportManifestKey_ne_original _ _)
  case pageRaster.original => exact absurd h (pageKey_ne_original _ _ _ _)
  case pageRaster.pageTextLayer => exact absurd h (pageRasterKey_ne_textLayer _ _ _ _)
  case pageRaster.redacted => exact absurd h (pageKey_ne_redacted _ _ _ _)
  case pageRaster.manifest => exact absurd h (pageKey_ne_manifest _ _ _ _)
  case pageTextLayer.original => exact absurd h (pageKey_ne_original _ _ _ _)
  case pageTextLayer.pageRaster => exact absurd h.symm (pageRasterKey_ne_textLayer _ _ _ _)
  case pageTextLayer.redacted => exact absurd h (pageKey_ne_redacted _ _ _ _)
  case pageTextLayer.manifest => exact absurd h (pageKey_ne_manifest _ _ _ _)
  case redacted.original => exact absurd h.symm (originalPdfKey_ne_redacted _ _)
  case redacted.pageRaster => exact absurd h.symm (pageKey_ne_redacted _ _ _ _)
  case redacted.pageTextLayer => exact absurd h.symm (pageKey_ne_redacted _ _ _ _)
  case redacted.manifest => exact absurd h.symm (exportManifestKey_ne_redacted _ _)
  case manifest.original => exact absurd h (exportManifestKey_ne_original _ _)
  case manifest.pageRaster => exact absurd h.symm (pageKey_ne_manifest _ _ _ _)
  case manifest.pageTextLayer => exact absurd h.symm (pageKey_ne_manifest _ _ _ _)
  case manifest.redacted => exact absurd h (exportManifestKey_ne_redacted _ _)

end Keys

end RedactApi
