import RedactApi.Api.TenantPart
import RedactApi.ReadCommitted.Lockstep

/-!
# Tenants do not interfere

The requests of one organisation run on the database as they run on its part alone:
the answers are the same, what they leave in the part is the same, and the parts of the
other organisations stay as they are.  So two databases with one part for an
organisation cannot be told apart by its requests.

A request is followed in the database and in the part together.  `Settled` is about
what is committed, `Confined` also about what is pending.
-/

namespace RedactApi

open ReadCommitted

/-! ### Requests -/

inductive JobRequest
  | createJob (file : Upload)
  | getJob (jobId : UUID)
  | listJobSpans (jobId : UUID)
  | createDispositions (jobId : UUID) (payload : DispositionBatchRequest)
  | postApply (jobId : UUID)
  | exportJob (jobId : UUID)

inductive JobResponse
  | job (job : Option RedactionJob)
  | spans (spans : List Span)
  | dispositions (result : DispositionBatchResult)
  | zip (data : Bytes)
  deriving DecidableEq, Repr

def JobRequest.run (env : Env) (tenant : TenantContext) : JobRequest → Tx JobResponse
  | .createJob file => do return .job (← RedactApi.createJob env tenant file)
  | .getJob jobId => do return .job (some (← RedactApi.getJob tenant jobId))
  | .listJobSpans jobId => do return .spans (← RedactApi.listJobSpans tenant jobId)
  | .createDispositions jobId payload => do
    return .dispositions (← RedactApi.createDispositions env tenant jobId payload)
  | .postApply jobId => do return .job (← RedactApi.postApply tenant jobId)
  | .exportJob jobId => do return .zip (← RedactApi.exportJob env tenant jobId)

def serve (env : Env) : List (TenantContext × JobRequest) → (Nat → Input) →
    Shared Database World → List (Except Exn JobResponse) × Shared Database World
  | [], _, s => ([], s)
  | (tenant, request) :: requests, a, s =>
    let out := (request.run env tenant).exec a s []
    let rest := serve env requests out.answers out.shared
    (out.result :: rest.1, rest.2)

/-- The keys of the objects the jobs and documents of a database refer to. -/
def StoredKey (db : Database) (key : String) : Prop :=
  (∃ d ∈ db.documents, key = Keys.originalPdfKey d.id) ∨
    ∃ job ∈ db.jobs, job.redactedPdfKey = some key

/-! ### The database and the part together -/

/-- The second database is the part of the first, whose other parts are those of `d`. -/
structure Projects (A : UUID) (d db db' : Database) : Prop where
  tenant : TenantDatabase db
  part : db' = db.part A
  others : ∀ B, B ≠ A → db.part B = d.part B

/-- What is committed, on the left in the database and on the right in the part. -/
structure Settled (A : UUID) (d : Database) (x : Joint Database Write World Input) : Prop where
  committed : Projects A d x.left.db x.right.db
  objects : ∀ key, StoredKey (x.left.db.part A) key →
    x.left.world.objects key = x.right.world.objects key
  fresh : ∀ n, FreshId A d (x.answers n).uuid

/-- What is committed and what is pending.  The objects of the keys `new` are still to
be stored. -/
structure Confined (A : UUID) (d : Database) (new : String → Prop)
    (x : Joint Database Write World Input) : Prop extends Settled A d x where
  pending : Projects A d (view x.left.db x.pending) (view x.right.db x.pending)
  pending_objects : ∀ key, StoredKey ((view x.left.db x.pending).part A) key →
    x.left.world.objects key = x.right.world.objects key ∨ new key

def seen (x : Joint Database Write World Input) : Database := view x.left.db x.pending

section

variable {env : Env} {A : UUID} {d : Database} {new : String → Prop} {α : Type}
  {x : Joint Database Write World Input} {E : Exn → Joint Database Write World Input → Prop}

theorem Settled.next (h : Settled A d x) : Settled A d x.next :=
  ⟨h.committed, h.objects, fun n => h.fresh (n + 1)⟩

theorem Confined.next (h : Confined A d new x) : Confined A d new x.next :=
  { h with toSettled := h.toSettled.next }

theorem Confined.tenant (h : Confined A d new x) : TenantDatabase (seen x) := h.pending.tenant

theorem Settled.start (h : Settled A d x) (hp : x.pending = []) :
    Confined A d (fun _ => False) x := by
  obtain ⟨a, l, r, p⟩ := x
  cases hp
  exact ⟨h, h.committed, fun key hkey => Or.inl (h.objects key hkey)⟩

theorem Settled.closed (h : Settled A d x) : Settled A d { x.next with pending := [] } :=
  ⟨h.committed, h.objects, fun n => h.fresh (n + 1)⟩

/-! ### Rules for the operations -/

theorem follow_query {f : Database → α} {Q : α → Joint Database Write World Input → Prop}
    (h : Confined A d new x) (hsame : f ((seen x).part A) = f (seen x)) (hQ : Q (f (seen x)) x.next) :
    Together (Prog.query f) Q E x := by
  refine Together.query ?_ hQ
  rw [h.pending.part]
  exact hsame.symm

theorem follow_observe {r : World → Input → Except Exn α}
    {Q : α → Joint Database Write World Input → Prop}
    (hsame : r x.left.world (x.answers 0) = r x.right.world (x.answers 0))
    (hQ : ∀ b, r x.left.world (x.answers 0) = .ok b → Q b x.next)
    (hE : ∀ e, r x.left.world (x.answers 0) = .error e → E e x.next) :
    Together (observe r) Q E x := Together.invoke hsame hQ hE

theorem follow_genRandomUuid {Q : UUID → Joint Database Write World Input → Prop}
    (h : Confined A d new x) (hQ : ∀ id, FreshId A d id → Q id x.next) :
    Together genRandomUuid Q E x := by
  refine follow_observe rfl (fun id hid => ?_) fun e he => ?_
  · cases hid
    exact hQ _ (h.fresh 0)
  · cases he

theorem follow_datetimeNow {Q : DateTime → Joint Database Write World Input → Prop}
    (hQ : ∀ now, Q now x.next) : Together datetimeNow Q E x := by
  refine follow_observe rfl (fun now _ => hQ now) fun e he => ?_
  cases he

theorem follow_compute {r : Except Exn α} {Q : α → Joint Database Write World Input → Prop}
    (h : Confined A d new x) (hE : ∀ e y, Settled A d y → E e y) (hQ : ∀ a, Q a x.next) :
    Together (compute r) Q E x :=
  follow_observe rfl (fun a _ => hQ a) fun e _ => hE e _ h.toSettled.next

theorem follow_liftExcept {r : Except Exn α} {Q : α → Joint Database Write World Input → Prop}
    (h : Confined A d new x) (hE : ∀ e y, Settled A d y → E e y) (hQ : ∀ a, r = .ok a → Q a x) :
    Together (liftExcept r) Q E x := by
  cases r with
  | ok a => exact .ret (hQ a rfl)
  | error e => exact .raise (hE e x h.toSettled)

/-- A write of the organisation, that may name an object still to be stored. -/
theorem follow_send_new {w : Write} (new' : String → Prop)
    {Q : Unit → Joint Database Write World Input → Prop} (h : Confined A d new x)
    (hw : w.Within A (seen x)) (hid : ∀ id ∈ w.newId?, FreshId A d id)
    (hkeys : ∀ key, StoredKey (((seen x).part A).apply w) key →
      StoredKey ((seen x).part A) key ∨ new' key)
    (hnew : ∀ key, new key → new' key) (hE : ∀ e y, Settled A d y → E e y)
    (hQ : ∀ y, Confined A d new' y → seen y = (seen x).apply w → Q () y) :
    Together (Prog.send w) Q E x := by
  have ht := h.tenant
  have hfresh : ∀ id ∈ w.newId?, FreshId A (seen x) id := by
    intro id hmem B hB k hk
    rw [show (seen x).part B = d.part B from h.pending.others B hB]
    exact hid id hmem B hB k hk
  have hclash : clash (view x.left.db x.pending) w = clash (view x.right.db x.pending) w := by
    rw [h.pending.part]
    exact (ht.clash_part hw hfresh).symm
  have hseen : view x.left.db (x.pending ++ [w]) = (seen x).apply w := view_concat _ _ _
  refine Together.send hclash (fun hc => hQ _ ?_ hseen) (hE _ _ h.toSettled.next)
  have hpart := ht.part_apply hw
  have hpending : Projects A d (view x.left.db (x.pending ++ [w]))
      (view x.right.db (x.pending ++ [w])) := by
    refine ⟨hseen ▸ ht.apply hc hw, ?_, fun B hB => ?_⟩
    · rw [hseen, hpart, view_concat, h.pending.part]
      rfl
    · rw [hseen, ht.part_apply_ne hw hB]
      exact h.pending.others B hB
  refine ⟨⟨h.committed, h.objects, fun n => h.fresh (n + 1)⟩, hpending, fun key hkey => ?_⟩
  have hkey : StoredKey ((view x.left.db (x.pending ++ [w])).part A) key := hkey
  rw [hseen, hpart] at hkey
  exact (hkeys key hkey).elim (fun hk => (h.pending_objects key hk).imp_right (hnew key)) Or.inr

theorem follow_send {w : Write} {Q : Unit → Joint Database Write World Input → Prop}
    (h : Confined A d new x) (hw : w.Within A (seen x)) (hid : ∀ id ∈ w.newId?, FreshId A d id)
    (hkeys : ∀ key, StoredKey (((seen x).part A).apply w) key → StoredKey ((seen x).part A) key)
    (hE : ∀ e y, Settled A d y → E e y)
    (hQ : ∀ y, Confined A d new y → seen y = (seen x).apply w → Q () y) :
    Together (Prog.send w) Q E x :=
  follow_send_new new h hw hid (fun key hkey => Or.inl (hkeys key hkey)) (fun _ hk => hk) hE hQ

theorem FreshId.newId {id : UUID} (h : FreshId A d id) : ∀ id' ∈ some id, FreshId A d id' := by
  rintro id' hid
  cases hid
  exact h

/-- A commit, when no object is missing. -/
theorem follow_commit {Q : Unit → Joint Database Write World Input → Prop}
    (h : Confined A d (fun _ => False) x)
    (hQ : ∀ y, Confined A d (fun _ => False) y → seen y = seen x → Q () y) :
    Together Prog.commitNow Q E x := by
  refine Together.commit (hQ _ (Settled.start ⟨h.pending, fun key hkey => ?_,
    fun n => h.fresh (n + 1)⟩ rfl) rfl)
  exact (h.pending_objects key hkey).resolve_right id

theorem follow_act {f : World → World} {Q : Unit → Joint Database Write World Input → Prop}
    (hQ : Q () { x.next with
      left := { x.left with world := f x.left.world }
      right := { x.right with world := f x.right.world } }) : Together (act f) Q E x := by
  refine Together.invoke (r := fun _ _ => .ok ()) rfl (fun _ _ => hQ) fun e he => ?_
  cases he

theorem follow_uploadBytes {key : String} {data : Bytes} (new' : String → Prop)
    {Q : Unit → Joint Database Write World Input → Prop} (h : Confined A d new x)
    (hnew : ∀ k, new k → k = key ∨ new' k)
    (hQ : ∀ y, Confined A d new' y → seen y = seen x → Q () y) :
    Together (uploadBytes key data) Q E x := by
  have hput : ∀ k, x.left.world.objects k = x.right.world.objects k ∨ k = key →
      (x.left.world.put key data).objects k = (x.right.world.put key data).objects k := by
    intro k hk
    by_cases he : k = key
    · rw [he, put_objects_self, put_objects_self]
    · rw [put_objects_ne data he, put_objects_ne data he]
      exact hk.resolve_right he
  refine follow_act (hQ _ ⟨⟨h.committed, fun k hk => hput k (Or.inl (h.objects k hk)),
    fun n => h.fresh (n + 1)⟩, h.pending, fun k hk => ?_⟩ rfl)
  rcases h.pending_objects k hk with hk | hk
  · exact Or.inl (hput k (Or.inl hk))
  · exact (hnew k hk).imp_left fun he => hput k (Or.inr he)

theorem follow_kiq {m : Message} {Q : Unit → Joint Database Write World Input → Prop}
    (h : Confined A d new x) (hQ : ∀ y, Confined A d new y → Q () y) :
    Together (kiq m) Q E x :=
  follow_act (hQ _ ⟨⟨h.committed, h.objects, fun n => h.fresh (n + 1)⟩, h.pending,
    h.pending_objects⟩)

theorem follow_downloadBytes {key : String} {Q : Bytes → Joint Database Write World Input → Prop}
    (h : Confined A d (fun _ => False) x) (hkey : StoredKey ((seen x).part A) key)
    (hE : ∀ e y, Settled A d y → E e y) (hQ : ∀ data, Q data x.next) :
    Together (downloadBytes key) Q E x := by
  refine follow_observe ?_ (fun data _ => hQ data) fun e _ => hE e _ h.toSettled.next
  rw [(h.pending_objects key hkey).resolve_right id]

/-! ### The services -/

structure JobOf (A : UUID) (db : Database) (job : RedactionJob) : Prop where
  owner : db.jobOwner job.id = some A
  document : db.documentOwner job.documentId = some A

theorem JobOf.stay {db db' : Database} {job : RedactionJob} (h : JobOf A db job)
    (hs : OwnersStay db db') : JobOf A db' job := ⟨hs.job h.owner, hs.document h.document⟩

theorem Confined.jobOf (h : Confined A d new x) {job : RedactionJob} (hj : job ∈ (seen x).jobs)
    (ho : job.organizationId = A) : JobOf A (seen x) job :=
  ⟨ho ▸ h.tenant.jobOwner_eq hj, ho ▸ h.tenant.documentOwner_job hj⟩

theorem follow_getJobOr404 {tenant : TenantContext} {jobId : UUID}
    {Q : RedactionJob → Joint Database Write World Input → Prop} (h : Confined A d new x)
    (ht : tenant.organizationId = A) (hE : ∀ e y, Settled A d y → E e y)
    (hQ : ∀ job ∈ (seen x).jobs, job.id = jobId → job.organizationId = A → Q job x.next) :
    Together (getJobOr404 tenant jobId) Q E x := by
  refine .bind (follow_query h ?_ ?_)
  · exact find?_filter_of fun job _ hjob => decide_eq_true (ht ▸ (of_decide_eq_true hjob).2)
  · cases hjob : (seen x).jobs.find? fun job =>
        job.id = jobId ∧ job.organizationId = tenant.organizationId with
    | none => exact .raise (hE _ _ h.next.toSettled)
    | some job =>
      have hfound := List.find?_some hjob
      rw [decide_eq_true_eq] at hfound
      exact .ret (hQ job (List.mem_of_find?_eq_some hjob) hfound.1 (hfound.2.trans ht))

theorem follow_transitionJobStatus {job : RedactionJob} {newStatus : JobStatus}
    {Q : Tracked RedactionJob → Joint Database Write World Input → Prop} (h : Confined A d new x)
    (hj : JobOf A (seen x) job) (hE : ∀ e y, Settled A d y → E e y)
    (hQ : ∀ y, Confined A d new y → OwnersStay (seen x) (seen y) →
      Q (track { job with status := newStatus }) y) :
    Together (transitionJobStatus (track job) newStatus) Q E x := by
  have hflush : ∀ x', Confined A d new x' → seen x' = seen x →
      Together (flushJob { track job with row := { job with status := newStatus } }) Q E x' := by
    intro x' h' hseen
    refine .bind (follow_send h' ?_ (fun _ hid => by cases hid) (fun key hkey => ?_) hE
      fun y hy hsame => .ret (hQ y hy ?_))
    · rw [hseen]
      exact hj.owner
    · rcases hkey with hd | ⟨row, hrow, hk⟩
      · exact Or.inl hd
      · obtain ⟨row₀, hrow₀, rfl⟩ := List.mem_map.mp hrow
        refine Or.inr ⟨row₀, hrow₀, ?_⟩
        rw [← hk, RedactionJob.patch]
        split
        · exact (patched_same _ _).symm
        · rfl
    · rw [hsame, hseen]
      exact owners_apply _ _
  rw [transitionJobStatus]
  split
  · exact .raise (hE _ _ h.toSettled)
  · refine .bind ?_
    rw [checkDispositioned]
    split
    · refine .bind (follow_query h (h.tenant.countUndispositionedSpans_part hj.document) ?_)
      split
      · exact .raise (hE _ _ h.next.toSettled)
      · exact .ret (hflush _ h.next rfl)
    · exact .ret (hflush _ h rfl)

theorem follow_appendAuditEntry {jobId : UUID} {event : AuditEntryInput}
    {Q : AuditEntry → Joint Database Write World Input → Prop} (h : Confined A d new x)
    (hj : (seen x).jobOwner jobId = some A) (hE : ∀ e y, Settled A d y → E e y)
    (hQ : ∀ entry y, Confined A d new y → OwnersStay (seen x) (seen y) → Q entry y) :
    Together (appendAuditEntry env jobId event) Q E x := by
  refine .bind (follow_query h (h.tenant.job?_part hj) ?_)
  cases (seen x).job? jobId with
  | none => exact .raise (hE _ _ h.next.toSettled)
  | some job =>
    show Together (if event.spanId.isSome ∧ event.text.isNone then _ else _) Q E x.next
    split
    · exact .raise (hE _ _ h.next.toSettled)
    refine .bind (follow_query h.next ?_ ?_)
    · show nextChainLink ((seen x).part A) jobId = nextChainLink (seen x) jobId
      rw [nextChainLink, nextChainLink, Database.entriesBySequence, Database.entriesBySequence,
        entries_part hj]
    refine .bind (follow_datetimeNow fun now => .bind (follow_genRandomUuid h.next.next.next
      fun id hid => .bind (follow_send h.next.next.next.next hj hid.newId (fun _ hkey => hkey) hE
        fun y hy hsame => .ret (hQ _ y hy (hsame ▸ owners_apply _ _)))))

/-! ### Batches -/

theorem follow_loadJobSpan {job : RedactionJob} {spanId : UUID}
    {Q : Span → Joint Database Write World Input → Prop} (h : Confined A d new x)
    (hj : JobOf A (seen x) job) (hE : ∀ e y, Settled A d y → E e y)
    (hQ : ∀ span, (seen x).spanOwner span.id = some A → Q span x.next) :
    Together (loadJobSpan job spanId) Q E x := by
  have ht := h.tenant
  refine .bind (follow_query h ?_ ?_)
  · rw [ht.spanRows_part hj.document]
  · cases hrow : ((seen x).spanRows job.documentId).find? (·.1.id = spanId) with
    | none => exact .raise (hE _ _ h.next.toSettled)
    | some row =>
      exact .ret (hQ row.1 (ht.spanOwner_row hj.document (List.mem_of_find?_eq_some hrow)))

theorem follow_writeSpan {span : Span} {item : ExistingItem}
    {Q : Span → Joint Database Write World Input → Prop} (h : Confined A d new x)
    (hs : (seen x).spanOwner span.id = some A) (hE : ∀ e y, Settled A d y → E e y)
    (hQ : ∀ span' y, Confined A d new y → OwnersStay (seen x) (seen y) →
      (seen y).dispositions = (seen x).dispositions → span'.id = span.id → Q span' y) :
    Together (writeSpan span item) Q E x := by
  rw [writeSpan]
  split
  · refine .bind (follow_send h hs (fun _ hid => by cases hid)
      (fun key hkey => hkey) hE fun y hy hsame => .ret ?_)
    exact hQ _ y hy (hsame ▸ owners_apply _ _) (hsame ▸ rfl) rfl
  · exact .ret (hQ span x h (.refl _) rfl rfl)

theorem follow_writeDisposition {spanId reviewerId : UUID} {existing : Option Disposition}
    {action : DispositionAction} {reason : Option String}
    {Q : Unit → Joint Database Write World Input → Prop} (h : Confined A d new x)
    (hs : (seen x).spanOwner spanId = some A)
    (hex : ∀ e, existing = some e → e ∈ (seen x).dispositions ∧ e.spanId = spanId)
    (hE : ∀ e y, Settled A d y → E e y)
    (hQ : ∀ y, Confined A d new y → OwnersStay (seen x) (seen y) → Q () y) :
    Together (writeDisposition spanId existing action reviewerId reason) Q E x := by
  cases existing with
  | some e =>
    obtain ⟨hmem, hid⟩ := hex e rfl
    exact follow_send h ⟨e, hmem, rfl, hid ▸ hs⟩ (fun _ hid => by cases hid)
      (fun key hkey => hkey) hE
      fun y hy hsame => hQ y hy (hsame ▸ owners_apply _ _)
  | none =>
    refine .bind (follow_genRandomUuid h fun id hid => ?_)
    exact follow_send h.next hs hid.newId (fun key hkey => hkey) hE
      fun y hy hsame => hQ y hy (hsame ▸ owners_apply _ _)

theorem follow_applyExistingSpanDisposition {job : RedactionJob} {item : ExistingItem}
    {reviewerId : UUID} {Q : Bool → Joint Database Write World Input → Prop}
    (h : Confined A d new x) (hj : JobOf A (seen x) job) (hE : ∀ e y, Settled A d y → E e y)
    (hQ : ∀ changed y, Confined A d new y → OwnersStay (seen x) (seen y) → Q changed y) :
    Together (applyExistingSpanDisposition env job item reviewerId) Q E x := by
  refine .bind (follow_loadJobSpan h hj hE fun span hs => ?_)
  refine .bind (follow_query h.next (disposition?_part hs) ?_)
  show Together (if itemNeedsChange span ((seen x).disposition? span.id) item then _ else _) Q E _
  split
  · refine .bind (follow_writeSpan h.next.next hs hE fun span' y hy hstay hrows hid => ?_)
    have hs' : (seen y).spanOwner span'.id = some A := hid ▸ hstay.span hs
    refine .bind (follow_writeDisposition hy hs' ?_ hE fun z hz hstay' => ?_)
    · intro e he
      rw [hrows, hid]
      exact ⟨List.mem_of_find?_eq_some he, disposition?_spanId he⟩
    · have hstay := hstay.trans hstay'
      refine .bind (follow_appendAuditEntry hz (hstay.job hj.owner) hE fun _ z' hz' hstay' => ?_)
      exact .ret (hQ true z' hz' (hstay.trans hstay'))
  · exact .ret (hQ false _ h.next.next (.refl _))

theorem follow_getOrCreatePage {documentId : UUID} {pageNumber : Nat}
    {Q : Page → Joint Database Write World Input → Prop} (h : Confined A d new x)
    (hd : (seen x).documentOwner documentId = some A) (hE : ∀ e y, Settled A d y → E e y)
    (hQ : ∀ page y, Confined A d new y → OwnersStay (seen x) (seen y) →
      (seen y).pageOwner page.id = some A → Q page y) :
    Together (getOrCreatePage documentId pageNumber) Q E x := by
  refine .bind (follow_query h (page?_part hd pageNumber) ?_)
  cases hpage : (seen x).page? documentId pageNumber with
  | some page =>
    have hfound := List.find?_some hpage
    rw [decide_eq_true_eq] at hfound
    refine .ret (hQ page _ h.next (.refl _) ?_)
    rw [show (seen x.next).pageOwner page.id = (seen x).documentOwner page.documentId from
      h.tenant.pageOwner_eq (List.mem_of_find?_eq_some hpage), hfound.1, hd]
  | none =>
    refine .bind (follow_genRandomUuid h.next fun id hid => ?_)
    refine .bind (follow_send h.next.next hd hid.newId (fun key hkey => hkey) hE
      fun y hy hsame => .ret ?_)
    have hstay : OwnersStay (seen x) (seen y) := hsame ▸ owners_apply _ _
    have hmem : (⟨id, documentId, pageNumber⟩ : Page) ∈ (seen y).pages :=
      hsame ▸ List.mem_append_right _ List.mem_cons_self
    refine hQ _ y hy hstay ?_
    rw [show (seen y).pageOwner id = (seen y).documentOwner documentId from
      hy.tenant.pageOwner_eq hmem]
    exact hstay.document hd

theorem follow_addManualSpan {job : RedactionJob} {item : AddManualSpanItem} {reviewerId : UUID}
    {Q : Unit → Joint Database Write World Input → Prop} (h : Confined A d new x)
    (hj : JobOf A (seen x) job) (hE : ∀ e y, Settled A d y → E e y)
    (hQ : ∀ y, Confined A d new y → OwnersStay (seen x) (seen y) → Q () y) :
    Together (addManualSpan env job item reviewerId) Q E x := by
  refine .bind (follow_getOrCreatePage h hj.document hE fun page x₁ h₁ hstay₁ hp => ?_)
  refine .bind (follow_genRandomUuid h₁ fun id hid => ?_)
  refine .bind (follow_send h₁.next hp hid.newId (fun key hkey => hkey) hE fun x₂ h₂ hsame => ?_)
  have hstay₂ : OwnersStay (seen x₁) (seen x₂) := hsame ▸ owners_apply _ _
  have hs : (seen x₂).spanOwner id = some A := by
    have hmem : manualSpan id page.id item ∈ (seen x₂).spans :=
      hsame ▸ List.mem_append_right _ List.mem_cons_self
    rw [show (seen x₂).spanOwner id = (seen x₂).pageOwner page.id from
      h₂.tenant.spanOwner_eq hmem]
    exact hstay₂.page hp
  refine .bind (follow_writeDisposition h₂ hs (fun _ he => by cases he) hE fun x₃ h₃ hstay₃ => ?_)
  have hstay := (hstay₁.trans hstay₂).trans hstay₃
  refine .bind (follow_appendAuditEntry h₃ (hstay.job hj.owner) hE fun _ x₄ h₄ hstay₄ => ?_)
  exact .ret (hQ x₄ h₄ (hstay.trans hstay₄))

theorem follow_applyDispositionBatch {job : RedactionJob} {items : List DispositionItem}
    {reviewerId : UUID} {Q : DispositionBatchResult → Joint Database Write World Input → Prop}
    (h : Confined A d new x) (hj : JobOf A (seen x) job) (hE : ∀ e y, Settled A d y → E e y)
    (hQ : ∀ result y, Confined A d new y → Q result y) :
    Together (applyDispositionBatch env job items reviewerId) Q E x := by
  have hloop : Together (applyDispositionBatch env job items reviewerId)
      (fun _ y => Confined A d new y ∧ JobOf A (seen y) job) E x := by
    refine .foldlM (I := fun _ y => Confined A d new y ∧ JobOf A (seen y) job) ?_ ⟨h, hj⟩
    rintro item - result y ⟨hy, hjy⟩
    cases item with
    | existing item =>
      refine .bind (follow_applyExistingSpanDisposition hy hjy hE fun changed z hz hstay => ?_)
      cases changed <;> exact .ret ⟨hz, hjy.stay hstay⟩
    | addManualSpan item =>
      exact .bind (follow_addManualSpan hy hjy hE fun z hz hstay => .ret ⟨hz, hjy.stay hstay⟩)
  exact hloop.mono (fun result y hy => hQ result y hy.1) fun _ _ he => he

/-! ### The requests -/

/-- Both runs end with the same answer, and what they leave is settled. -/
def Follows (A : UUID) (d : Database) (prog : Tx α) (x : Joint Database Write World Input) : Prop :=
  Together prog (fun _ y => Settled A d y ∧ y.pending = [])
    (fun _ y => Settled A d y ∧ y.pending = []) x

theorem follows_closing {prog : Tx α}
    (h : Together prog (fun _ y => Settled A d y) (fun _ y => Settled A d y) x) :
    Follows A d prog.closing x :=
  .closing (h.mono (fun _ _ hy => ⟨hy.closed, rfl⟩) fun _ _ hy => ⟨hy.closed, rfl⟩)

variable {tenant : TenantContext} {jobId : UUID}

theorem follows_getJob (ht : tenant.organizationId = A) (h : Confined A d new x) :
    Follows A d (getJob tenant jobId) x :=
  follows_closing (follow_getJobOr404 h ht (fun _ _ hy => hy) fun _ _ _ _ => h.toSettled.next)

theorem follows_listJobSpans (ht : tenant.organizationId = A) (h : Confined A d new x) :
    Follows A d (listJobSpans tenant jobId) x := by
  refine follows_closing (.bind (follow_getJobOr404 h ht (fun _ _ hy => hy) fun job hj _ ho => ?_))
  refine follow_query h.next ?_ h.toSettled.next.next
  rw [Database.jobSpans, Database.jobSpans,
    h.next.tenant.spanRows_part (h.jobOf hj ho).document]

theorem follows_createDispositions {payload : DispositionBatchRequest}
    (ht : tenant.organizationId = A) (h : Confined A d (fun _ => False) x) :
    Follows A d (createDispositions env tenant jobId payload) x := by
  refine follows_closing (.bind (follow_getJobOr404 h ht (fun _ _ hy => hy) fun job hj _ ho => ?_))
  show Together (if job.status ≠ .inReview then _ else _) _ _ x.next
  split
  · exact .raise h.toSettled.next
  · refine .bind (.tryCatch (follow_applyDispositionBatch h.next (h.jobOf hj ho) ?_ ?_))
    · intro e y hy
      cases e <;> exact .raise hy
    · exact fun result y hy => .bind (follow_commit hy fun z hz _ => .ret hz.toSettled)

theorem follows_postApply (ht : tenant.organizationId = A) (h : Confined A d (fun _ => False) x) :
    Follows A d (postApply tenant jobId) x := by
  refine follows_closing (.bind (follow_liftExcept h (fun _ _ hy => hy) fun _ _ => ?_))
  refine .bind (follow_getJobOr404 h ht (fun _ _ hy => hy) fun job hj _ ho => ?_)
  have hof := h.jobOf hj ho
  refine .bind (.tryCatch (follow_transitionJobStatus h.next hof ?_ ?_))
  · intro e y hy
    cases e <;> exact .raise hy
  · intro y hy hstay
    refine .bind (follow_commit hy fun z hz hsame => ?_)
    have hz' : (seen z).jobOwner job.id = some A := hsame ▸ hstay.job hof.owner
    refine .bind (follow_query hz (hz.tenant.job?_part hz') ?_)
    exact .bind (follow_kiq hz.next fun w hw => .ret hw.toSettled)

theorem follow_recordExport {job : RedactionJob} {reviewerId : UUID}
    (h : Confined A d (fun _ => False) x) (hj : JobOf A (seen x) job) :
    Together (recordExport env job reviewerId) (fun _ y => Settled A d y) (fun _ y => Settled A d y)
      x := by
  rw [recordExport]
  split
  · refine .bind (follow_appendAuditEntry h hj.owner (fun _ _ hy => hy) fun _ y hy hstay => ?_)
    refine .bind (follow_transitionJobStatus hy (hj.stay hstay) (fun _ _ hz => hz) fun z hz _ => ?_)
    exact follow_commit hz fun w hw _ => hw.toSettled
  · exact .ret h.toSettled

theorem follow_assembleExportManifest {job : RedactionJob} {chain : ChainVerifyResult}
    {redactedBytes : Bytes} {Q : ExportManifest → Joint Database Write World Input → Prop}
    (h : Confined A d (fun _ => False) x) (hj : JobOf A (seen x) job)
    (hE : ∀ e y, Settled A d y → E e y)
    (hQ : ∀ manifest y, Confined A d (fun _ => False) y → seen y = seen x → Q manifest y) :
    Together (assembleExportManifest env job chain redactedBytes) Q E x := by
  rw [assembleExportManifest]
  split
  · exact .raise (hE _ _ h.toSettled)
  split
  · exact .raise (hE _ _ h.toSettled)
  have hkey : StoredKey ((seen x).part A) (Keys.originalPdfKey job.documentId) := by
    obtain ⟨document, hd, hid, ho⟩ := exists_document hj.document
    exact Or.inl ⟨document, List.mem_filter.mpr ⟨hd, decide_eq_true ho⟩, by rw [hid]⟩
  refine .bind (follow_downloadBytes h hkey hE fun data => ?_)
  refine .bind (follow_query h.next ?_ ?_)
  · show ((seen x).part A).entriesBySequence job.id = (seen x).entriesBySequence job.id
    rw [Database.entriesBySequence, Database.entriesBySequence, entries_part hj.owner]
  exact .bind (follow_datetimeNow fun now => .ret (hQ _ _ h.next.next.next rfl))

theorem checkExportable_ok {job : RedactionJob} {key : String}
    (h : checkExportable job = .ok key) : job.redactedPdfKey = some key := by
  rw [checkExportable] at h
  split at h
  · cases h
  cases hkey : job.redactedPdfKey with
  | none =>
    rw [hkey] at h
    cases h
  | some k =>
    rw [hkey] at h
    cases h
    rfl

theorem follows_exportJob (ht : tenant.organizationId = A) (h : Confined A d (fun _ => False) x) :
    Follows A d (exportJob env tenant jobId) x := by
  refine follows_closing (.bind (follow_liftExcept h (fun _ _ hy => hy) fun _ _ => ?_))
  refine .bind (follow_getJobOr404 h ht (fun _ _ hy => hy) fun job hj _ ho => ?_)
  have hof : JobOf A (seen x) job := h.jobOf hj ho
  refine .bind (follow_liftExcept h.next (fun _ _ hy => hy) fun key hkey => ?_)
  refine .bind (follow_query h.next ?_ ?_)
  · show verifyEntries env (((seen x).part A).entriesBySequence job.id) =
      verifyEntries env ((seen x).entriesBySequence job.id)
    rw [Database.entriesBySequence, Database.entriesBySequence, entries_part hof.owner]
  refine .bind (follow_liftExcept h.next.next (fun _ _ hy => hy) fun _ _ => ?_)
  have hstored : StoredKey ((seen x).part A) key :=
    Or.inr ⟨job, List.mem_filter.mpr ⟨hj, decide_eq_true ho⟩, checkExportable_ok hkey⟩
  refine .bind (follow_downloadBytes h.next.next hstored (fun _ _ hy => hy) fun pdfBytes => ?_)
  refine .bind (.tryCatch (follow_assembleExportManifest h.next.next.next hof ?_ ?_))
  · intro e y hy
    cases e <;> exact .raise hy
  · intro manifest y hy hsame
    refine .bind (follow_uploadBytes _ hy (fun _ hk => Or.inr hk) fun z hz hsame' => ?_)
    have hof : JobOf A (seen z) job := hsame' ▸ hsame ▸ hof
    exact .bind ((follow_recordExport hz hof).mono (fun _ _ hw => .ret hw) fun _ _ hw => hw)

/-- **An upload** names the key of its object before it stores it. -/
theorem follows_createJob {file : Upload} (ht : tenant.organizationId = A)
    (h : Confined A d (fun _ => False) x) : Follows A d (createJob env tenant file) x := by
  refine follows_closing (.bind (follow_liftExcept h (fun _ _ hy => hy) fun ⟨filename, pdfBytes⟩ _ => ?_))
  refine .bind (follow_compute h (fun _ _ hy => hy) fun _ => ?_)
  refine .bind (follow_genRandomUuid h.next fun documentId hdocument => ?_)
  refine .bind (follow_send_new (· = Keys.originalPdfKey documentId) h.next.next ht hdocument.newId
    (fun key hkey => ?_) (fun _ hk => hk.elim) (fun _ _ hy => hy) fun x₁ h₁ hsame₁ => ?_)
  · rcases hkey with ⟨row, hrow, hk⟩ | hjob
    · rcases List.mem_append.mp hrow with hrow | hrow
      · exact Or.inl (Or.inl ⟨row, hrow, hk⟩)
      · rw [List.mem_singleton.mp hrow] at hk
        exact Or.inr hk
    · exact Or.inl (Or.inr hjob)
  have howner₁ : (seen x₁).documentOwner documentId = some A := by
    have hmem : (⟨documentId, filename, pdfContentType, pdfBytes.length, tenant.organizationId, "",
        ""⟩ : Document) ∈ (seen x₁).documents :=
      hsame₁ ▸ List.mem_append_right _ List.mem_cons_self
    exact ht ▸ h₁.tenant.documentOwner_eq hmem
  refine .bind (follow_send h₁ howner₁ (fun _ hid => by cases hid) (fun key hkey => ?_)
    (fun _ _ hy => hy) fun x₂ h₂ hsame₂ => ?_)
  · rcases hkey with ⟨row, hrow, hk⟩ | hjob
    · obtain ⟨row₀, hrow₀, rfl⟩ := List.mem_map.mp hrow
      exact Or.inl ⟨row₀, hrow₀, by rw [hk, Document.patch_id]⟩
    · exact Or.inr hjob
  have howner₂ : (seen x₂).documentOwner documentId = some A :=
    (hsame₂ ▸ owners_apply _ _ : OwnersStay (seen x₁) (seen x₂)).document howner₁
  refine .bind (follow_genRandomUuid h₂ fun jobId hjob => ?_)
  refine .bind (follow_send h₂.next ⟨ht, howner₂⟩ hjob.newId (fun key hkey => ?_)
    (fun _ _ hy => hy) fun x₃ h₃ hsame₃ => ?_)
  · rcases hkey with hdocument | ⟨row, hrow, hk⟩
    · exact Or.inl hdocument
    · rcases List.mem_append.mp hrow with hrow | hrow
      · exact Or.inr ⟨row, hrow, hk⟩
      · rw [List.mem_singleton.mp hrow] at hk
        cases hk
  have howner₃ : (seen x₃).jobOwner jobId = some A := by
    have hmem : (⟨jobId, documentId, tenant.organizationId, .uploaded, none⟩ : RedactionJob) ∈
        (seen x₃).jobs := hsame₃ ▸ List.mem_append_right _ List.mem_cons_self
    exact ht ▸ h₃.tenant.jobOwner_eq hmem
  refine .bind (follow_uploadBytes (fun _ => False) h₃ (fun _ hk => Or.inl hk) fun x₄ h₄ hsame₄ => ?_)
  refine .bind (follow_commit h₄ fun x₅ h₅ hsame₅ => ?_)
  have howner₅ : (seen x₅).jobOwner jobId = some A := hsame₅ ▸ hsame₄ ▸ howner₃
  refine .bind (follow_query h₅ (h₅.tenant.job?_part howner₅) ?_)
  exact .bind (follow_kiq h₅.next fun y hy => .ret hy.toSettled)

/-- **A request** is answered by the part as it is by the database. -/
theorem follows_run {request : JobRequest} (ht : tenant.organizationId = A) (h : Settled A d x)
    (hp : x.pending = []) : Follows A d (request.run env tenant) x := by
  have hx := h.start hp
  have hreturn : ∀ {β : Type} {prog : Tx β} {f : β → JobResponse}, Follows A d prog x →
      Follows A d (prog.bind fun b => .ret (f b)) x := fun hprog =>
    .bind (hprog.mono (fun _ _ hy => .ret hy) fun _ _ hy => hy)
  cases request with
  | createJob file => exact hreturn (follows_createJob ht hx)
  | getJob jobId => exact hreturn (follows_getJob ht hx)
  | listJobSpans jobId => exact hreturn (follows_listJobSpans ht hx)
  | createDispositions jobId payload => exact hreturn (follows_createDispositions ht hx)
  | postApply jobId => exact hreturn (follows_postApply ht hx)
  | exportJob jobId => exact hreturn (follows_exportJob ht hx)

/-- **Any requests** of the organisation, one after the other. -/
theorem serve_follows {requests : List (TenantContext × JobRequest)}
    (hA : ∀ r ∈ requests, r.1.organizationId = A) (h : Settled A d x) (hp : x.pending = []) :
    (serve env requests x.answers x.left).1 = (serve env requests x.answers x.right).1 ∧
      Projects A d (serve env requests x.answers x.left).2.db
        (serve env requests x.answers x.right).2.db := by
  induction requests generalizing x with
  | nil => exact ⟨rfl, h.committed⟩
  | cons r requests ih =>
    obtain ⟨tenant, request⟩ := r
    obtain ⟨result, y, hleft, hright, hend⟩ :=
      @follows_run env A d x tenant request (hA _ List.mem_cons_self) h hp
    have hy : Settled A d y ∧ y.pending = [] := by
      cases result <;> exact hend
    obtain ⟨hresponses, hprojects⟩ :=
      ih (fun r hr => hA r (List.mem_cons_of_mem _ hr)) hy.1 hy.2
    rw [hp] at hleft hright
    rw [serve, serve, hleft, hright]
    exact ⟨congrArg (result :: ·) hresponses, hprojects⟩

end

/-- **Tenants do not interfere.**  Two databases with the same part for an organisation
answer its requests the same, keep the same part for it, and each keeps the parts of
all other organisations as they were. -/
theorem tenant_noninterference (env : Env) (A : UUID)
    (requests : List (TenantContext × JobRequest))
    (hA : ∀ r ∈ requests, r.1.organizationId = A) (a : Nat → Input) (db₁ db₂ : Database)
    (world₁ world₂ : World) (h₁ : TenantDatabase db₁) (h₂ : TenantDatabase db₂)
    (hsame : db₁.part A = db₂.part A)
    (hfresh₁ : ∀ n, FreshId A db₁ (a n).uuid) (hfresh₂ : ∀ n, FreshId A db₂ (a n).uuid)
    (hobjects : ∀ key, StoredKey (db₁.part A) key → world₁.objects key = world₂.objects key) :
    (serve env requests a ⟨db₁, world₁⟩).1 = (serve env requests a ⟨db₂, world₂⟩).1 ∧
      (serve env requests a ⟨db₁, world₁⟩).2.db.part A =
        (serve env requests a ⟨db₂, world₂⟩).2.db.part A ∧
      ∀ B, B ≠ A →
        (serve env requests a ⟨db₁, world₁⟩).2.db.part B = db₁.part B ∧
        (serve env requests a ⟨db₂, world₂⟩).2.db.part B = db₂.part B := by
  have hleft := @serve_follows env A db₁ ⟨a, ⟨db₁, world₁⟩, ⟨db₁.part A, world₁⟩, []⟩ requests hA
    ⟨⟨h₁, rfl, fun _ _ => rfl⟩, fun _ _ => rfl, hfresh₁⟩ rfl
  have hright := @serve_follows env A db₂ ⟨a, ⟨db₂, world₂⟩, ⟨db₁.part A, world₁⟩, []⟩ requests hA
    ⟨⟨h₂, hsame, fun _ _ => rfl⟩, fun key hkey => (hobjects key (hsame ▸ hkey)).symm, hfresh₂⟩ rfl
  exact ⟨hleft.1.trans hright.1.symm, hleft.2.part.symm.trans hright.2.part,
    fun B hB => ⟨hleft.2.others B hB, hright.2.others B hB⟩⟩

/-! ### Two organisations -/

def reviewRows (organizationId n : UUID) : Database where
  documents := [⟨n, "a.pdf", pdfContentType, 1, organizationId, "", ""⟩]
  jobs := [⟨n + 1, n, organizationId, .inReview, none⟩]
  pages := [⟨n + 2, n, 1⟩]
  spans := [⟨n + 3, n + 2, [], "x", "name", .tier1, none⟩]
  dispositions := []
  auditEntries := []

def twoTenants : Database where
  documents := (reviewRows 1 10).documents ++ (reviewRows 2 20).documents
  jobs := (reviewRows 1 10).jobs ++ (reviewRows 2 20).jobs
  pages := (reviewRows 1 10).pages ++ (reviewRows 2 20).pages
  spans := (reviewRows 1 10).spans ++ (reviewRows 2 20).spans
  dispositions := []
  auditEntries := []

def firstTenant : TenantContext := ⟨1, 3, .admin⟩

/-- The first tenant asks for a job and a span of the second, and then for its own. -/
def strayRequests : List (TenantContext × JobRequest) :=
  [(firstTenant, .getJob 21),
   (firstTenant, .createDispositions 11 ⟨[.existing (.approve 23 none)], List.cons_ne_nil _ _⟩),
   (firstTenant, .createDispositions 11 ⟨[.existing (.approve 13 none)], List.cons_ne_nil _ _⟩),
   (firstTenant, .postApply 11)]

def strayInputs (n : Nat) : Input := ⟨BitVec.ofNat 128 (100 + n % 64), sampleTime⟩

theorem tenantDatabase_reviewRows : TenantDatabase (reviewRows 1 10) := by
  refine ⟨⟨?_, ?_, ?_, ?_, ?_, ?_, ?_, ?_, ?_, ?_, ?_⟩, ?_, ?_⟩ <;> decide

theorem tenantDatabase_twoTenants : TenantDatabase twoTenants := by
  refine ⟨⟨?_, ?_, ?_, ?_, ?_, ?_, ?_, ?_, ?_, ?_, ?_⟩, ?_, ?_⟩ <;> decide

/-- The inputs name no row of either database. -/
theorem freshId_strayInputs {db : Database}
    (h : ∀ m : Fin 64, ∀ k ∈ primaryKeys (BitVec.ofNat 128 (100 + m)), db.taken k = false) (n : Nat) :
    FreshId 1 db (strayInputs n).uuid :=
  freshId_of_unused (h ⟨n % 64, Nat.mod_lt _ (by decide)⟩)

/-- The second organisation, and an object of it, make no difference to the first. -/
theorem tenant_noninterference_stray :
    let env := Env.letter id
    let world := World.empty.put (Keys.originalPdfKey 20) [1]
    (serve env strayRequests strayInputs ⟨reviewRows 1 10, World.empty⟩).1 =
        (serve env strayRequests strayInputs ⟨twoTenants, world⟩).1 ∧
      (serve env strayRequests strayInputs ⟨reviewRows 1 10, World.empty⟩).2.db.part 1 =
        (serve env strayRequests strayInputs ⟨twoTenants, world⟩).2.db.part 1 ∧
      ∀ B, B ≠ 1 →
        (serve env strayRequests strayInputs ⟨reviewRows 1 10, World.empty⟩).2.db.part B =
          (reviewRows 1 10).part B ∧
        (serve env strayRequests strayInputs ⟨twoTenants, world⟩).2.db.part B = twoTenants.part B := by
  refine tenant_noninterference (Env.letter id) 1 strayRequests (by simp [strayRequests, firstTenant])
    strayInputs
    _ _ _ _ tenantDatabase_reviewRows tenantDatabase_twoTenants (by decide +kernel)
    (freshId_strayInputs (by decide +kernel)) (freshId_strayInputs (by decide +kernel)) ?_
  rintro key (⟨row, hrow, rfl⟩ | ⟨job, hjob, hkey⟩)
  · have hne : Keys.originalPdfKey row.id ≠ Keys.originalPdfKey 20 := by
      intro he
      have hid := Keys.originalPdfKey_inj he
      rw [List.mem_singleton.mp (show row ∈ [_] from hrow)] at hid
      exact absurd hid (by decide)
    exact (put_objects_ne [1] hne).symm
  · rw [List.mem_singleton.mp (show job ∈ [_] from hjob)] at hkey
    cases hkey

end RedactApi
