import RedactApi.Pipeline.Lifecycle

/-!
# The pages of detected spans

A detection puts its spans on pages it has extracted from the stored original, and
neither the original nor the page of a span changes afterwards.  So the page of a span
that nobody added by hand is a page of the original.
-/

namespace RedactApi

open ReadCommitted KeyedList

/-- The span lies on a page that the stored original has. -/
def OnDocument (env : Env) (s : Shared Database World) (span : Span) : Prop :=
  ∀ page ∈ s.db.pages, page.id = span.pageId → ∀ original source,
    s.world.objects (Keys.originalPdfKey page.documentId) = some original →
    env.fitzOpen original = .ok source → page.pageNumber ≤ source.pages.length

/-- So do all spans that were not added by hand. -/
def Numbered (env : Env) (s : Shared Database World) : Prop :=
  ∀ span ∈ s.db.spans, span.sourceTier ≠ .manual → OnDocument env s span

section

variable {env : Env} {s s' : Shared Database World} {p : List Write}

theorem numbered_empty (world : World) : Numbered env ⟨Database.empty, world⟩ :=
  fun _ h => absurd h List.not_mem_nil

theorem spans_view {db : Database} {span : Span} (h : span ∈ (view db p).spans) :
    ∃ row, (row ∈ db.spans ∨ .insertSpan row ∈ p) ∧ row.pageId = span.pageId ∧
      row.sourceTier = span.sourceTier := by
  induction p generalizing db with
  | nil => exact ⟨span, Or.inl h, rfl, rfl⟩
  | cons w p ih =>
    obtain ⟨row, hrow | hrow, hpage, htier⟩ := ih h
    · cases w with
      | insertSpan new =>
        rcases List.mem_append.mp hrow with hrow | hrow
        · exact ⟨row, Or.inl hrow, hpage, htier⟩
        · rw [List.mem_singleton.mp hrow] at hpage htier
          exact ⟨new, Or.inr List.mem_cons_self, hpage, htier⟩
      | updateSpan loaded new =>
        obtain ⟨old, hold, rfl⟩ := List.mem_map.mp hrow
        exact ⟨old, Or.inl hold, (Span.patch_pageId loaded new old).symm.trans hpage,
          (Span.patch_sourceTier loaded new old).symm.trans htier⟩
      | _ => exact ⟨row, Or.inl hrow, hpage, htier⟩
    · exact ⟨row, Or.inr (List.mem_cons_of_mem w hrow), hpage, htier⟩

/-- **A commit keeps the page numbers** if it puts its own detected spans on pages of
the original. -/
theorem Numbered.view (h : Numbered env s) (hwf : WellFormed s.db) (hwf' : WellFormed (view s.db p))
    (hnew : ∀ row, .insertSpan row ∈ p → row.sourceTier ≠ .manual →
      OnDocument env { s with db := view s.db p } row) :
    Numbered env { s with db := ReadCommitted.view s.db p } := by
  intro span hspan hdetected page hpage hid
  obtain ⟨row, hrow | hrow, hsame, htier⟩ := spans_view hspan
  · obtain ⟨old, hold, hid'⟩ := hwf.span_fk row hrow
    obtain rfl : page = old :=
      List.inj_on_of_nodup_map hwf'.page_pk hpage ((extends_view s.db p).pages old hold)
      (hid.trans (hsame.symm.trans hid'.symm))
    exact h row hrow (htier ▸ hdetected) page hold hid'
  · exact hnew row hrow (htier ▸ hdetected) page hpage (hid.trans hsame.symm)

theorem Numbered.world {w : World} (h : Numbered env s) (hwf : WellFormed s.db)
    (ho : SameOriginals s { s with world := w }) : Numbered env { s with world := w } := by
  intro span hspan hdetected page hpage hid original source horiginal
  obtain ⟨d, hd, hdid⟩ := hwf.page_fk page hpage
  refine h span hspan hdetected page hpage hid original source ?_
  rw [← hdid] at horiginal ⊢
  exact (ho d hd).symm.trans horiginal

theorem manual_of_batch {seen : Shared Database World → Prop} {job : RedactionJob}
    {reviewerId : UUID} (h : BatchWrites env seen job reviewerId p) :
    ∀ row, .insertSpan row ∈ p → row.sourceTier = .manual := by
  induction h with
  | nil => exact fun _ h => absurd h List.not_mem_nil
  | @existing _ item span _ existing _ _ _ _ _ _ _ _ _ _ _ _ _ _ _ ih =>
    intro row hrow
    simp only [List.mem_append, List.mem_singleton, reduceCtorEq, or_false] at hrow
    rcases hrow with (hrow | hrow) | hrow
    · exact ih row hrow
    · rw [spanWrites] at hrow
      split at hrow
      · cases List.mem_singleton.mp hrow
      · exact absurd hrow List.not_mem_nil
    · cases existing <;> cases hrow
  | page _ _ _ ih =>
    intro row hrow
    rcases List.mem_append.mp hrow with hrow | hrow
    · exact ih row hrow
    · cases List.mem_singleton.mp hrow
  | manual _ _ _ _ _ _ ih =>
    intro row hrow
    simp only [List.mem_append, List.mem_singleton, reduceCtorEq, or_false] at hrow
    rcases hrow with hrow | hrow
    · exact ih row hrow
    · cases hrow
      rfl

/-- **A detection keeps the page numbers**: what it has extracted is still stored. -/
theorem onDocument_of_detection {C : Contract Database Write World Input Exn} {job : RedactionJob}
    {s₁ : Shared Database World} (h : OnOriginal C env s₁ job p)
    (hwf : WellFormed (view s.db p)) (hseen : ∀ t, C.past s₁ t → t.db = s.db)
    (horiginal : ∀ t, C.past s₁ t → s.world.objects (Keys.originalPdfKey job.documentId) =
      t.world.objects (Keys.originalPdfKey job.documentId)) :
    ∀ row, .insertSpan row ∈ p → OnDocument env { s with db := view s.db p } row := by
  obtain ⟨t, pdfBytes, extractions, ht, hstored, hextract, hon⟩ := h
  intro row hrow page hpage hid original source hobject hopen
  obtain ⟨t', page', ht', hmem, hid', hdoc, e, he, hnumber⟩ := hon row hrow
  rw [hseen t' ht'] at hmem
  obtain rfl : page = page' := List.inj_on_of_nodup_map hwf.page_pk hpage hmem (hid.trans hid'.symm)
  rw [hdoc] at hobject
  have hsame : pdfBytes = original := Option.some.inj
    (hstored.symm.trans ((horiginal t ht).symm.trans hobject))
  subst hsame
  rw [← hnumber]
  exact extractPages_le hextract hopen e he

end

end RedactApi
