import RedactApi.Tasks.Jobs

/-!
# What ingest leaves behind

`ingest_pdf` extracts and checks all pages before the first upload, so a rejection finds
the object store untouched.  A success has put two objects for each page, under keys that
differ, and nothing else (`Ingested`).
-/

namespace RedactApi

open ReadCommitted

variable {env : Env} {documentId : UUID} {ls : List (Label Input Exn)}
  {s s' : Shared Database World} {p p' : List Write}

/-! ### One call -/

/-- A library call changes nothing; it answers, or something else is raised in its place. -/
theorem ends_compute {α : Type} {r : Except Exn α} {o : Except Exn α}
    (h : Ends (compute r) ls s p o s' p') :
    s' = s ∧ p' = p ∧ (o = r ∨ ∃ e, .fault e ∈ ls ∧ o = .error e) := by
  cases h with
  | step hl hm hrest =>
    cases hm with
    | crash _ => cases hl
    | callFault =>
      obtain ⟨-, rfl, rfl, rfl⟩ := hrest.raise_inv
      exact ⟨rfl, rfl, Or.inr ⟨_, List.mem_cons_self, rfl⟩⟩
    | call =>
      cases r with
      | ok a =>
        obtain ⟨-, rfl, rfl, rfl⟩ := hrest.ret_inv
        exact ⟨rfl, rfl, Or.inl rfl⟩
      | error e =>
        obtain ⟨-, rfl, rfl, rfl⟩ := hrest.raise_inv
        exact ⟨rfl, rfl, Or.inl rfl⟩

theorem ends_uploadBytes {key : String} {data : Bytes} {o : Except Exn Unit}
    (h : Ends (uploadBytes key data) ls s p o s' p') :
    (o = .ok () ∧ s' = { s with world := s.world.put key data } ∧ p' = p) ∨
      ∃ e, .fault e ∈ ls ∧ o = .error e := by
  cases h with
  | step hl hm hrest =>
    cases hm with
    | crash _ => cases hl
    | callFault =>
      obtain ⟨-, rfl, -, -⟩ := hrest.raise_inv
      exact Or.inr ⟨_, List.mem_cons_self, rfl⟩
    | call =>
      obtain ⟨-, rfl, rfl, rfl⟩ := hrest.ret_inv
      exact Or.inl ⟨rfl, rfl, rfl⟩

/-! ### The uploads -/

def World.putPage (env : Env) (documentId : UUID) (w : World) (extraction : PageExtraction) : World :=
  (w.put (Keys.pageRasterKey documentId extraction.page.pageNumber) extraction.pngBytes).put
    (Keys.pageTextLayerKey documentId extraction.page.pageNumber)
    (env.textLayerPayload extraction.page)

def withRasterKey (documentId : UUID) (page : PageModel) : PageModel :=
  { page with rasterKey := Keys.pageRasterKey documentId page.pageNumber }

theorem ends_uploadPage {extraction : PageExtraction} {o : Except Exn PageModel}
    (h : Ends (uploadPage env documentId extraction) ls s p o s' p') :
    (o = .ok (withRasterKey documentId extraction.page) ∧
        s' = { s with world := s.world.putPage env documentId extraction } ∧ p' = p) ∨
      ∃ e, .fault e ∈ ls ∧ o = .error e := by
  obtain ⟨ls₁, ls₂, _, s₁, p₁, rfl, hraster, hrest⟩ | ⟨e, rfl, hraster⟩ := h.bind_inv
  · obtain ⟨-, rfl, rfl⟩ | ⟨e, -, he⟩ := ends_uploadBytes hraster
    · obtain ⟨ls₃, ls₄, _, s₂, p₂, rfl, htext, hret⟩ | ⟨e, rfl, htext⟩ := hrest.bind_inv
      · obtain ⟨-, rfl, rfl⟩ | ⟨e, -, he⟩ := ends_uploadBytes htext
        · obtain ⟨rfl, rfl, rfl, rfl⟩ := hret.ret_inv
          exact Or.inl ⟨rfl, rfl, rfl⟩
        · cases he
      · obtain ⟨he, -⟩ | ⟨e', hfault, he⟩ := ends_uploadBytes htext
        · cases he
        · cases he
          exact Or.inr ⟨_, List.mem_append_right _ hfault, rfl⟩
    · cases he
  · obtain ⟨he, -⟩ | ⟨e', hfault, he⟩ := ends_uploadBytes hraster
    · cases he
    · cases he
      exact Or.inr ⟨_, hfault, rfl⟩

/-- All pages are uploaded, in order, unless an upload fails. -/
theorem ends_uploadPages {extractions : List PageExtraction} {pages : List PageModel}
    {o : Except Exn (List PageModel)}
    (h : Ends (extractions.foldlM (fun pages extraction => do
      let page ← uploadPage env documentId extraction
      return pages ++ [page]) pages) ls s p o s' p') :
    (o = .ok (pages ++ extractions.map fun e => withRasterKey documentId e.page) ∧
        s' = { s with world := extractions.foldl (World.putPage env documentId) s.world } ∧
        p' = p) ∨
      ∃ e, .fault e ∈ ls ∧ o = .error e := by
  induction extractions generalizing pages ls s p with
  | nil =>
    obtain ⟨rfl, rfl, rfl, rfl⟩ := Ends.ret_inv h
    exact Or.inl ⟨by rw [List.map_nil, List.append_nil], rfl, rfl⟩
  | cons extraction extractions ih =>
    rw [List.foldlM_cons] at h
    obtain ⟨ls₁, ls₂, pages₁, s₁, p₁, rfl, hpage, hrest⟩ | ⟨e, rfl, hpage⟩ := Ends.bind_inv h
    · obtain ⟨ls₃, ls₄, page, s₂, p₂, rfl, hupload, hret⟩ | ⟨e, he, -⟩ := Ends.bind_inv hpage
      · obtain ⟨rfl, hpages, rfl, rfl⟩ := hret.ret_inv
        obtain ⟨hok, rfl, rfl⟩ | ⟨e, -, he⟩ := ends_uploadPage hupload
        · cases hok
          cases hpages
          obtain ⟨rfl, rfl, rfl⟩ | ⟨e, hfault, rfl⟩ := ih hrest
          · exact Or.inl ⟨by rw [List.append_assoc]; rfl, rfl, rfl⟩
          · exact Or.inr ⟨e, List.mem_append_right _ hfault, rfl⟩
        · cases he
      · cases he
    · obtain ⟨ls₃, ls₄, page, s₂, p₂, rfl, hupload, hret⟩ | ⟨e', he', hupload⟩ := Ends.bind_inv hpage
      · obtain ⟨-, he, -⟩ := hret.ret_inv
        cases he
      · cases he'
        obtain ⟨hok, -⟩ | ⟨e'', hfault, he''⟩ := ends_uploadPage hupload
        · cases hok
        · cases he''
          exact Or.inr ⟨_, hfault, rfl⟩

/-! ### What the uploads leave -/

def pageKeys (documentId : UUID) (n : Nat) : List String :=
  (List.range' 1 n).flatMap fun number =>
    [Keys.pageRasterKey documentId number, Keys.pageTextLayerKey documentId number]

theorem mem_pageKeys {n : Nat} {key : String} : key ∈ pageKeys documentId n ↔
    ∃ number ∈ List.range' 1 n, key = Keys.pageRasterKey documentId number ∨
      key = Keys.pageTextLayerKey documentId number := by
  simp only [pageKeys, List.mem_flatMap, List.mem_cons, List.not_mem_nil, or_false]

theorem nodup_pageKeys (documentId : UUID) (n : Nat) : (pageKeys documentId n).Nodup := by
  refine List.nodup_flatMap.mpr ⟨fun number _ => ?_, ?_⟩
  · simpa using Keys.pageRasterKey_ne_textLayer documentId documentId number number
  · refine (List.nodup_range' (h := by decide)).imp ?_
    intro number number' hne key hkey hkey'
    simp only [List.mem_cons, List.not_mem_nil, or_false] at hkey hkey'
    obtain rfl | rfl := hkey
    · obtain h | h := hkey'
      · exact hne (Keys.pageRasterKey_inj h).2
      · exact Keys.pageRasterKey_ne_textLayer _ _ _ _ h
    · obtain h | h := hkey'
      · exact Keys.pageRasterKey_ne_textLayer _ _ _ _ h.symm
      · exact hne (Keys.pageTextLayerKey_inj h).2

theorem length_pageKeys (documentId : UUID) (n : Nat) : (pageKeys documentId n).length = 2 * n := by
  rw [pageKeys, List.length_flatMap]
  simp [Nat.mul_comm]

theorem objects_putPage_ne {w : World} {extraction : PageExtraction} {key : String}
    (hraster : key ≠ Keys.pageRasterKey documentId extraction.page.pageNumber)
    (htext : key ≠ Keys.pageTextLayerKey documentId extraction.page.pageNumber) :
    (w.putPage env documentId extraction).objects key = w.objects key := by
  rw [World.putPage, put_objects_ne _ htext, put_objects_ne _ hraster]

theorem objects_putPages_ne {w : World} {extractions : List PageExtraction} {key : String}
    (h : ∀ e ∈ extractions, key ≠ Keys.pageRasterKey documentId e.page.pageNumber ∧
      key ≠ Keys.pageTextLayerKey documentId e.page.pageNumber) :
    (extractions.foldl (World.putPage env documentId) w).objects key = w.objects key := by
  induction extractions generalizing w with
  | nil => rfl
  | cons e extractions ih =>
    obtain ⟨hraster, htext⟩ := h e List.mem_cons_self
    rw [List.foldl_cons, ih fun e' he' => h e' (List.mem_cons_of_mem _ he'),
      objects_putPage_ne hraster htext]

/-- Each page has its objects, since no other page has its number. -/
theorem objects_putPages {w : World} {extractions : List PageExtraction}
    (hnumbers : (extractions.map fun e => e.page.pageNumber).Nodup) :
    ∀ e ∈ extractions,
      (extractions.foldl (World.putPage env documentId) w).objects
          (Keys.pageRasterKey documentId e.page.pageNumber) = some e.pngBytes ∧
        (extractions.foldl (World.putPage env documentId) w).objects
          (Keys.pageTextLayerKey documentId e.page.pageNumber) =
            some (env.textLayerPayload e.page) := by
  induction extractions generalizing w with
  | nil => exact fun e he => absurd he List.not_mem_nil
  | cons first extractions ih =>
    rw [List.map_cons, List.nodup_cons] at hnumbers
    obtain ⟨hfirst, hrest⟩ := hnumbers
    intro e he
    obtain rfl | he := List.mem_cons.mp he
    · have hother : ∀ e' ∈ extractions, e.page.pageNumber ≠ e'.page.pageNumber :=
        fun e' he' heq => hfirst (heq ▸ List.mem_map_of_mem he')
      rw [List.foldl_cons, objects_putPages_ne, objects_putPages_ne]
      · exact ⟨by rw [World.putPage, put_objects_ne _ (Keys.pageRasterKey_ne_textLayer _ _ _ _),
          put_objects_self], put_objects_self _ _ _⟩
      · exact fun e' he' => ⟨fun h => Keys.pageRasterKey_ne_textLayer _ _ _ _ h.symm,
          fun h => hother e' he' (Keys.pageTextLayerKey_inj h).2⟩
      · exact fun e' he' => ⟨fun h => hother e' he' (Keys.pageRasterKey_inj h).2,
          Keys.pageRasterKey_ne_textLayer _ _ _ _⟩
    · exact ih hrest e he

theorem putPages_rest (w : World) (extractions : List PageExtraction) :
    (extractions.foldl (World.putPage env documentId) w).queue = w.queue ∧
      (extractions.foldl (World.putPage env documentId) w).burned = w.burned := by
  induction extractions generalizing w with
  | nil => exact ⟨rfl, rfl⟩
  | cons e extractions ih => exact ih _

theorem extractPages_numbers {pdfBytes : Bytes} {extractions : List PageExtraction}
    (h : extractPages env pdfBytes = .ok extractions) :
    ∃ doc, env.fitzOpen pdfBytes = .ok doc ∧ extractions.length = doc.pages.length ∧
      extractions.map (fun e => e.page.pageNumber) = List.range' 1 doc.pages.length := by
  obtain ⟨doc, hdoc, h⟩ := bind_ok h
  obtain ⟨_, -, h⟩ := bind_ok h
  obtain ⟨_, -, h⟩ := bind_ok h
  cases h
  refine ⟨doc, openPdf_ok hdoc, by simp, ?_⟩
  rw [List.map_map]
  have hnumbers : (doc.pages.zipIdx.map Prod.snd).map (1 + ·) = List.range' 1 doc.pages.length := by
    rw [List.zipIdx_map_snd, List.map_add_range']
  rw [← hnumbers, List.map_map]
  exact List.map_congr_left fun p _ => Nat.add_comm p.2 1

/-! ### Ingest -/

/-- What a success has done for a document with these pages: the result lists the pages in
order, each with its raster key; the `2 * n` keys differ and hold the artifacts; nothing
else in the world has changed. -/
structure Ingested (env : Env) (documentId : UUID) (extractions : List PageExtraction)
    (w w' : World) (result : IngestResult) : Prop where
  numbers : extractions.map (fun e => e.page.pageNumber) = List.range' 1 extractions.length
  pageCount : result.pageCount = extractions.length
  pages : result.pages = extractions.map fun e => withRasterKey documentId e.page
  keys : (pageKeys documentId extractions.length).Nodup ∧
    (pageKeys documentId extractions.length).length = 2 * extractions.length
  stored : ∀ e ∈ extractions,
    w'.objects (Keys.pageRasterKey documentId e.page.pageNumber) = some e.pngBytes ∧
      w'.objects (Keys.pageTextLayerKey documentId e.page.pageNumber) =
        some (env.textLayerPayload e.page)
  unchanged : ∀ key, key ∉ pageKeys documentId extractions.length → w'.objects key = w.objects key
  rest : w'.queue = w.queue ∧ w'.burned = w.burned

theorem ingested_putPages {pdfBytes : Bytes} {extractions : List PageExtraction}
    (h : extractPages env pdfBytes = .ok extractions) (w : World) :
    Ingested env documentId extractions w
      (extractions.foldl (World.putPage env documentId) w)
      ⟨(extractions.map fun e => withRasterKey documentId e.page).length,
        extractions.map fun e => withRasterKey documentId e.page⟩ := by
  obtain ⟨doc, -, hlength, hnumbers⟩ := extractPages_numbers h
  rw [← hlength] at hnumbers
  refine ⟨hnumbers, List.length_map _, rfl, ⟨nodup_pageKeys _ _, length_pageKeys _ _⟩, ?_, ?_,
    putPages_rest _ _⟩
  · refine objects_putPages ?_
    rw [hnumbers]
    exact List.nodup_range'
  · intro key hkey
    refine objects_putPages_ne fun e he => ?_
    have hnumber : e.page.pageNumber ∈ List.range' 1 extractions.length :=
      hnumbers ▸ List.mem_map_of_mem he
    exact ⟨fun heq => hkey (mem_pageKeys.mpr ⟨_, hnumber, Or.inl heq⟩),
      fun heq => hkey (mem_pageKeys.mpr ⟨_, hnumber, Or.inr heq⟩)⟩

/-- **Ingest touches its own objects or none.**  For a storage client whose failures are no
ingest rejections: after a rejection the store is as before; after a success each page of the
document has its two objects and all others are as before.  And each artifact of any
document, page or job has a key of its own. -/
theorem ingest_touches_own_objects :
    (∀ (env : Env) (documentId : UUID) (pdfBytes : Bytes) (ls : List (Label Input Exn))
      (s s' : Shared Database World) (p p' : List Write) (o : Except Exn IngestResult),
      Ends (ingestPdf env documentId pdfBytes) ls s p o s' p' →
      (∀ e, .fault e ∈ ls → e.isIngestRejection = false) →
        (∀ e, o = .error e → e.isIngestRejection = true → s' = s ∧ p' = p) ∧
        ∀ result, o = .ok result → s'.db = s.db ∧ p' = p ∧
          ∃ doc extractions, env.fitzOpen pdfBytes = .ok doc ∧
            extractPages env pdfBytes = .ok extractions ∧
            extractions.length = doc.pages.length ∧
            Ingested env documentId extractions s.world s'.world result) ∧
      Function.Injective Keys.Artifact.key := by
  refine ⟨?_, Keys.Artifact.key_injective⟩
  intro env documentId pdfBytes ls s s' p p' o h hfault
  obtain ⟨ls₁, ls₂, extractions, s₁, p₁, rfl, hextract, hrest⟩ | ⟨e, rfl, hextract⟩ := h.bind_inv
  · obtain ⟨rfl, rfl, hr | ⟨e, -, he⟩⟩ := ends_compute hextract
    · obtain ⟨_, -, hpages⟩ := bind_ok hr.symm
      obtain ⟨ls₃, ls₄, pages, s₂, p₂, rfl, hupload, hret⟩ | ⟨e, rfl, hupload⟩ := hrest.bind_inv
      · obtain ⟨rfl, rfl, rfl, rfl⟩ := hret.ret_inv
        obtain ⟨hok, rfl, rfl⟩ | ⟨e, -, he⟩ := ends_uploadPages hupload
        · cases hok
          refine ⟨fun e he => (by cases he), fun result hresult => ?_⟩
          cases hresult
          obtain ⟨doc, hdoc, hlength, -⟩ := extractPages_numbers hpages
          exact ⟨rfl, rfl, doc, extractions, hdoc, hpages, hlength, ingested_putPages hpages _⟩
        · cases he
      · refine ⟨fun e' he' hrejection => ?_, fun result hresult => (by cases hresult)⟩
        cases he'
        obtain ⟨hok, -⟩ | ⟨e', hmem, he⟩ := ends_uploadPages hupload
        · cases hok
        · cases he
          rw [hfault e (List.mem_append_right _ hmem)] at hrejection
          cases hrejection
    · cases he
  · obtain ⟨rfl, rfl, -⟩ := ends_compute hextract
    exact ⟨fun e _ _ => ⟨rfl, rfl⟩, fun result hresult => (by cases hresult)⟩

/-- A letter page is ingested, an empty file is refused. -/
theorem ingest_touches_own_objects_letter :
    (∃ s' result, Ends (ingestPdf (Env.letter fun _ => "") 7 [0]) (List.replicate 3 (.ok ⟨9, sampleTime⟩))
        ⟨Database.empty, World.empty⟩ [] (.ok result) s' [] ∧
      s'.world.objects (Keys.pageRasterKey 7 1) = some [0] ∧
      s'.world.objects (Keys.originalPdfKey 7) = none) ∧
    ∃ s' e, Ends (ingestPdf (Env.letter fun _ => "") 7 []) [.ok ⟨9, sampleTime⟩]
      ⟨Database.empty, World.empty⟩ [] (.error e) s' [] ∧ e.isIngestRejection = true ∧
      s' = ⟨Database.empty, World.empty⟩ := by
  have hletter : ((ingestPdf (Env.letter fun _ => "") 7 [0]).outcome
      (List.replicate 3 (.ok ⟨9, sampleTime⟩)) ⟨Database.empty, World.empty⟩ []).map
        (fun r => (r.1.isOk, r.2.2)) = some (true, []) := by decide +kernel
  have hempty : ((ingestPdf (Env.letter fun _ => "") 7 []).outcome [.ok ⟨9, sampleTime⟩]
      ⟨Database.empty, World.empty⟩ []).map (fun r => (r.1, r.2.2)) =
        some (.error (.malformedPdf malformedMessage), []) := by decide +kernel
  refine ⟨?_, ?_⟩
  · obtain ⟨⟨o, s', p'⟩, houtcome, h⟩ := Option.map_eq_some_iff.mp hletter
    obtain ⟨hok, rfl⟩ := Prod.mk.inj h
    cases o with
    | error e => cases hok
    | ok result =>
      have hends := ends_of_outcome houtcome
      obtain ⟨-, -, doc, extractions, -, hpages, -, hingested⟩ :=
        (ingest_touches_own_objects.1 _ _ _ _ _ _ _ _ _ hends (by simp)).2 result rfl
      cases hpages
      refine ⟨s', result, hends, (hingested.stored _ List.mem_cons_self).1, ?_⟩
      exact hingested.unchanged _ (by decide +kernel)
  · obtain ⟨⟨o, s', p'⟩, houtcome, h⟩ := Option.map_eq_some_iff.mp hempty
    obtain ⟨rfl, rfl⟩ := Prod.mk.inj h
    have hends := ends_of_outcome houtcome
    have hsame := (ingest_touches_own_objects.1 _ _ _ _ _ _ _ _ _ hends (by simp)).1 _ rfl rfl
    exact ⟨s', _, hends, rfl, hsame.1⟩

end RedactApi
