import RedactApi.Pipeline.Integrity

/-!
# Boxes at rest

Whatever operations run and however they overlap, every box that is stored is a row of
four numbers and every page has a number of at least one.  So the projection of the
approved spans never finds a box it has to refuse.
-/

namespace RedactApi

open ReadCommitted

/-- The boxes of the span are rows of four numbers. -/
def Span.Boxed (span : Span) : Prop := ∃ boxes : List BBox, span.bboxes = boxes.map BBox.toList

structure Boxed (db : Database) : Prop where
  spans : ∀ span ∈ db.spans, span.Boxed
  pages : ∀ page ∈ db.pages, 1 ≤ page.pageNumber

theorem boxed_empty : Boxed Database.empty :=
  ⟨fun _ h => absurd h List.not_mem_nil, fun _ h => absurd h List.not_mem_nil⟩

/-! ### Writes -/

def Write.Boxed : Write → Prop
  | .insertPage row => 1 ≤ row.pageNumber
  | .insertSpan row => row.Boxed
  | .updateSpan _ new => new.Boxed
  | _ => True

theorem Span.Boxed.patch {loaded new row : Span} (hrow : row.Boxed) (hnew : new.Boxed) :
    (Span.patch loaded new row).Boxed := by
  rw [Span.patch]
  split
  · show ∃ boxes, patched loaded.bboxes new.bboxes row.bboxes = _
    rw [patched]
    split
    · exact hrow
    · exact hnew
  · exact hrow

theorem Boxed.apply {db : Database} {w : Write} (h : Boxed db) (hw : w.Boxed) :
    Boxed (db.apply w) := by
  cases w with
  | insertPage row =>
    exact ⟨h.spans, List.forall_mem_append.mpr ⟨h.pages, List.forall_mem_singleton.mpr hw⟩⟩
  | insertSpan row =>
    exact ⟨List.forall_mem_append.mpr ⟨h.spans, List.forall_mem_singleton.mpr hw⟩, h.pages⟩
  | updateSpan loaded new =>
    exact ⟨List.forall_mem_map.mpr fun row hrow => (h.spans row hrow).patch hw, h.pages⟩
  | _ => exact ⟨h.spans, h.pages⟩

def AllBoxed (p : List Write) : Prop := ∀ w ∈ p, w.Boxed

theorem allBoxed_nil : AllBoxed [] := fun _ h => absurd h List.not_mem_nil

theorem allBoxed_singleton {w : Write} (h : w.Boxed) : AllBoxed [w] := List.forall_mem_singleton.mpr h

theorem AllBoxed.cons {p : List Write} {w : Write} (hw : w.Boxed) (hp : AllBoxed p) :
    AllBoxed (w :: p) := List.forall_mem_cons.mpr ⟨hw, hp⟩

theorem AllBoxed.append {p q : List Write} (hp : AllBoxed p) (hq : AllBoxed q) : AllBoxed (p ++ q) :=
  List.forall_mem_append.mpr ⟨hp, hq⟩

theorem AllBoxed.concat {p : List Write} {w : Write} (hp : AllBoxed p) (hw : w.Boxed) :
    AllBoxed (p ++ [w]) := hp.append (allBoxed_singleton hw)

theorem Boxed.view {db : Database} {p : List Write} (h : Boxed db) (hp : AllBoxed p) :
    Boxed (view db p) := by
  induction p generalizing db with
  | nil => exact h
  | cons w p ih =>
    exact ih (h.apply (hp w List.mem_cons_self)) fun v hv => hp v (List.mem_cons_of_mem w hv)

theorem boxed_editedSpan {span : Span} (h : span.Boxed) (item : ExistingItem) :
    (editedSpan span item).Boxed := by
  cases item with
  | edit id text bboxes reason =>
    cases bboxes with
    | some bboxes => exact ⟨bboxes, rfl⟩
    | none => exact h
  | _ => exact h

theorem boxed_spanWrites {span : Span} (h : span.Boxed) (item : ExistingItem) :
    AllBoxed (spanWrites span item) := by
  rw [spanWrites]
  split
  · exact allBoxed_singleton (boxed_editedSpan h item)
  · exact allBoxed_nil

theorem boxed_dispositionWrite (newId spanId : UUID) (existing : Option Disposition)
    (action : DispositionAction) (reviewerId : UUID) (reason : Option String) :
    (dispositionWrite newId spanId existing action reviewerId reason).Boxed := by
  cases existing <;> trivial

/-- **A batch stores boxes**: those of its items, or those it has read. -/
theorem boxed_batch {env : Env} {seen : Shared Database World → Prop} {job : RedactionJob}
    {reviewerId : UUID} {p : List Write} (h : BatchWrites env seen job reviewerId p)
    (hseen : ∀ s, seen s → Boxed s.db) : AllBoxed p := by
  induction h with
  | nil => exact allBoxed_nil
  | existing _ hs _ _ hrow _ _ _ ih =>
    have hspan := ((hseen _ hs).view ih).spans _ (mem_spanRows.mp hrow).1
    exact ((ih.append (boxed_spanWrites hspan _)).concat
      (boxed_dispositionWrite _ _ _ _ _ _)).concat trivial
  | page _ _ hnumber ih => exact ih.concat hnumber
  | manual _ _ _ _ _ _ ih => exact .concat (.concat (.concat ih ⟨_, rfl⟩) trivial) trivial

theorem boxed_detected {seen : Shared Database World → Prop} {documentId : UUID} {p : List Write}
    (h : DetectedWrites seen documentId p) : AllBoxed p := by
  induction h with
  | nil => exact allBoxed_nil
  | page _ _ hnumber ih => exact ih.concat hnumber
  | span _ _ _ _ ih => exact ih.concat ⟨_, rfl⟩

/-! ### Runs -/

def boxedContract : Contract Database Write World Input Exn where
  inv s := Boxed s.db
  rely s s' := Boxed s.db → Boxed s'.db
  guar s s' := Boxed s.db → Boxed s'.db
  allowed _ _ := True
  input _ _ _ := True
  fault _ := True
  past s s' := Boxed s.db → Boxed s'.db
  rely_refl _ := id
  rely_trans h h' := h' ∘ h
  guar_refl _ := id
  past_refl _ := id
  past_trans h h' := h' ∘ h
  rely_past h := h

section

variable {env : Env} {s : Shared Database World} {p : List Write}

theorem boxed_allows (h : Boxed s.db) (hp : AllBoxed p) : Allows boxedContract s p :=
  fun _ => ⟨h.view hp, fun _ => h.view hp, trivial⟩

theorem boxed_allows_status (h : Boxed s.db) (job : RedactionJob) (newStatus : JobStatus) :
    Allows boxedContract s [statusWrite job newStatus] :=
  boxed_allows h (allBoxed_singleton trivial)

theorem boxed_acts {w : World} (h : Boxed s.db) : boxedContract.Acts s w := ⟨h, id, id⟩

theorem operates_boxed (env : Env) : Operates boxedContract env where
  pages _ _ _ := ⟨fun _ h => boxed_acts h, fun _ h => boxed_acts h⟩
  enqueue _ _ h := boxed_acts h
  manifest _ _ _ h := boxed_acts h
  fails _ _ _ _ _ _ _ job _ _ _ _ _ _ h := boxed_allows_status h.inv job .failed
  ingests _ _ job _ _ _ h := boxed_allows_status h.inv job .ingested
  detects _ _ _ _ _ _ _ h hp _ :=
    boxed_allows h.inv (.concat (.concat (boxed_detected hp) trivial) trivial)
  burns _ _ _ _ _ _ _ _ _ _ h := boxed_acts h.inv
  stores _ _ _ _ _ _ _ h := boxed_acts h.inv
  failsGate _ _ _ _ _ _ _ _ _ h _ _ _ _ :=
    boxed_allows h.inv (.cons trivial (.cons trivial (allBoxed_singleton trivial)))
  passesGate _ _ _ _ _ _ _ _ _ _ h _ _ _ _ _ :=
    boxed_allows h.inv (.cons trivial (.cons trivial (allBoxed_singleton trivial)))
  uploads _ _ _ _ h _ _ _ := boxed_acts h
  creates _ _ _ h _ _ :=
    boxed_allows h (.cons trivial (.cons trivial (allBoxed_singleton trivial)))
  disposes _ _ _ _ _ _ h₁ _ _ h hp _ :=
    boxed_allows h.inv (boxed_batch hp fun _ hs => hs.1 h₁)
  starts _ _ _ _ _ job _ _ _ _ _ h := boxed_allows_status h.inv job .applying
  exports _ _ _ _ _ _ _ _ _ h _ _ :=
    boxed_allows h.inv (.cons trivial (allBoxed_singleton trivial))

theorem boxed_of_run {G : Guard Database Write World Input Exn Unit} {world : World}
    {operations : List Operation} {S : Pipeline}
    (hr : Sys.Run G (Pipeline.start env ⟨Database.empty, world⟩ operations) S) :
    Boxed S.shared.db := by
  have hfits : boxedContract.Fits G := ⟨fun _ => trivial, fun _ _ => trivial, fun _ _ _ => trivial⟩
  have hi : boxedContract.inv ⟨Database.empty, world⟩ := boxed_empty
  refine (Contract.sound hfits (fun _ _ h => h) (Contract.good_start hi fun q hq => ?_) hr).inv
  obtain ⟨operation, -, rfl⟩ := List.mem_map.mp hq
  refine (operates_boxed env).safe operation (fun _ _ _ _ job _ _ _ h => ?_) hi
  exact boxed_allows_status h.inv job .failed

end

/-! ### The projection -/

theorem buildApprovedSpan_boxed {span : Span} (h : span.Boxed) (n : Nat) :
    ∃ boxes, buildApprovedSpan n span.bboxes span.text = .ok ⟨n, boxes, span.text⟩ := by
  obtain ⟨boxes, hboxes⟩ := h
  have hall : (boxes.map BBox.toList).mapM BBox.ofList = .ok (boxes.map id) := by
    rw [List.mapM_map]
    exact mapM_ok fun b _ => b.ofList_toList
  rw [buildApprovedSpan, hboxes, hall]
  exact ⟨_, rfl⟩

/-- **The projection of the approved spans returns**, with page numbers of at least one. -/
theorem Boxed.approvedSpans {db : Database} (h : Boxed db) (documentId : UUID) :
    ∃ spans, db.approvedSpans documentId = .ok spans ∧ ∀ span ∈ spans, 1 ≤ span.pageNumber := by
  have hrow : ∀ r ∈ db.approvedRows documentId, r.1 ∈ db.spans ∧ 1 ≤ r.2 := by
    rintro ⟨span, n⟩ hr
    obtain ⟨page, hrow, rfl, -⟩ := mem_approvedRows.mp hr
    obtain ⟨hs, hp, -⟩ := mem_spanRows.mp hrow
    exact ⟨hs, h.pages page hp⟩
  have hreturns : ∃ spans, db.approvedSpans documentId = .ok spans := exists_mapM.mpr fun r hr => by
    obtain ⟨boxes, hboxes⟩ := buildApprovedSpan_boxed (h.spans r.1 (hrow r hr).1) r.2
    exact ⟨_, hboxes⟩
  obtain ⟨spans, hspans⟩ := hreturns
  refine ⟨spans, hspans, fun span hspan => ?_⟩
  obtain ⟨r, hr, hbuild⟩ := (mem_of_mapM hspans span).mp hspan
  obtain ⟨boxes, hboxes⟩ := buildApprovedSpan_boxed (h.spans r.1 (hrow r hr).1) r.2
  rw [hboxes] at hbuild
  cases hbuild
  exact (hrow r hr).2

end RedactApi
