import RedactApi.Api.Noninterference
import RedactApi.Pipeline.Redelivery
import RedactApi.ReadCommitted.Deliveries

/-!
# The queue between the stages

`uploaded`, `ingested` and `applying` are states that a task consumes.  A job gets
there by a commit, and the message for the task is sent after it: by `create_job`, by
the ingest of the job, by `POST apply`.  So between the commit and the enqueue an
execution owes a message, and nobody else sends it.  If that execution dies, or if
the enqueue raises, the job stays where it is (`job_stranded`).

Nothing else strands a job.  A delivery loads the job, and as long as the job is in
the state that its task consumes it cannot end without moving it out of there, so the
message is not acknowledged before (`no_job_stranded`).
-/

namespace RedactApi

open ReadCommitted

/-! ### The service -/

/-- The jobs that a task is to consume, with their states. -/
def Database.awaiting (db : Database) : List (UUID × JobStatus) :=
  db.jobs.filterMap fun job => (db.status? job.id).bind fun status =>
    if status ∈ consumedStates then some (job.id, status) else none

def Message.due (m : Message) : UUID × JobStatus := (m.jobId, m.consumes)

/-- Commits, the queue, and what its messages are for. -/
def handoff : Handoff Database World Message (UUID × JobStatus) :=
  ⟨Database.awaiting, World.queue, Message.due⟩

/-- The worker that runs the tasks and the application that serves the requests. -/
def pipelineService (env : Env) : Service Database Write World Input Exn Unit Message
    (TenantContext × JobRequest) (UUID × JobStatus) where
  toHandoff := handoff
  handle := runMessage env
  serve request := do let _ ← request.2.run env request.1

theorem mem_awaiting {db : Database} {d : UUID × JobStatus} :
    d ∈ db.awaiting ↔ db.status? d.1 = some d.2 ∧ d.2 ∈ consumedStates := by
  rw [Database.awaiting, List.mem_filterMap]
  constructor
  · rintro ⟨job, -, hd⟩
    obtain ⟨status, hstatus, hd⟩ := Option.bind_eq_some_iff.mp hd
    split at hd
    · rename_i hc
      cases hd
      exact ⟨hstatus, hc⟩
    · cases hd
  · rintro ⟨hstatus, hc⟩
    obtain ⟨job, hjob, -⟩ := Option.map_eq_some_iff.mp hstatus
    refine ⟨job, List.mem_of_find?_eq_some hjob, ?_⟩
    rw [job?_id hjob, hstatus, Option.bind_some, if_pos hc]

/-! ### What a commit enters -/

def created (p : List Write) : List RedactionJob := p.filterMap fun
  | .insertJob row => some row
  | _ => none

theorem created_append (p q : List Write) : created (p ++ q) = created p ++ created q :=
  List.filterMap_append

theorem created_detected {seen : Shared Database World → Prop} {documentId : UUID}
    {p : List Write} (h : DetectedWrites seen documentId p) : created p = [] := by
  induction h with
  | nil => rfl
  | page _ _ _ ih => rw [created_append, ih]; rfl
  | span _ _ _ _ ih => rw [created_append, ih]; rfl

theorem created_spanWrites (span : Span) (item : ExistingItem) :
    created (spanWrites span item) = [] := by
  rw [spanWrites]
  split <;> rfl

theorem created_dispositionWrite (newId spanId : UUID) (existing : Option Disposition)
    (action : DispositionAction) (reviewerId : UUID) (reason : Option String) :
    created [dispositionWrite newId spanId existing action reviewerId reason] = [] := by
  cases existing <;> rfl

theorem created_batch {env : Env} {seen : Shared Database World → Prop} {job : RedactionJob}
    {reviewerId : UUID} {p : List Write} (h : BatchWrites env seen job reviewerId p) :
    created p = [] := by
  induction h with
  | nil => rfl
  | existing _ _ _ _ _ _ _ _ ih =>
    rw [created_append, created_append, created_append, ih, created_spanWrites,
      created_dispositionWrite]
    rfl
  | page _ _ _ ih => rw [created_append, ih]; rfl
  | manual _ _ _ _ _ _ ih => rw [created_append, created_append, created_append, ih]; rfl

/-- A job that nobody inserts is not there afterwards. -/
theorem status_view_none {db : Database} {jobId : UUID} :
    ∀ {p : List Write}, db.status? jobId = none → (∀ row ∈ created p, row.id ≠ jobId) →
      (view db p).status? jobId = none := by
  intro p
  induction p generalizing db with
  | nil => intro h _; exact h
  | cons w p ih =>
    intro h hrows
    have hp : ∀ row ∈ created p, row.id ≠ jobId := fun row hrow => hrows row <| by
      rw [← List.singleton_append, created_append]
      exact List.mem_append_right _ hrow
    have hw : (db.apply w).status? jobId = none := by
      rw [Database.status?, Option.map_eq_none_iff, Database.job?, List.find?_eq_none] at h ⊢
      cases w with
      | insertJob row =>
        intro job hjob
        rcases List.mem_append.mp hjob with hjob | hjob
        · exact h job hjob
        · rw [List.mem_singleton.mp hjob]
          simpa using hrows row List.mem_cons_self
      | updateJob loaded new =>
        intro job hjob
        obtain ⟨row, hrow, rfl⟩ := List.mem_map.mp hjob
        rw [RedactionJob.patch_id]
        exact h row hrow
      | _ => exact h
    exact ih hw hp

/-- **What a commit enters**: a job that it inserts, or one that its last move brought
into the state. -/
theorem entered_view {s : Shared Database World} {p : List Write} {d : UUID × JobStatus}
    (h : d ∈ handoff.entered s { s with db := view s.db p }) :
    d.2 ∈ consumedStates ∧ ((∃ row ∈ created p, row.id = d.1) ∨ ∃ m ∈ moves d.1 p, m.2 = d.2) := by
  obtain ⟨hin, hout⟩ := Handoff.mem_entered.mp h
  obtain ⟨hstatus, hc⟩ := mem_awaiting.mp hin
  refine ⟨hc, ?_⟩
  cases hold : s.db.status? d.1 with
  | none =>
    left
    by_contra hnone
    push Not at hnone
    have hgone : (view s.db p).status? d.1 = none := status_view_none hold hnone
    rw [show (view s.db p).status? d.1 = some d.2 from hstatus] at hgone
    cases hgone
  | some c =>
    right
    have hview := status_view p hold
    rw [show (view s.db p).status? d.1 = some d.2 from hstatus, lastStatus] at hview
    cases hlast : (moves d.1 p).getLast? with
    | none =>
      rw [hlast] at hview
      obtain rfl : d.2 = c := Option.some.inj hview
      exact absurd (mem_awaiting.mpr ⟨hold, hc⟩) hout
    | some m =>
      rw [hlast] at hview
      exact ⟨m, List.mem_of_getLast? hlast, (Option.some.inj hview).symm⟩

/-! ### Executions that owe nothing -/

section

variable {env : Env} {s : Shared Database World} {p : List Write} {jobId : UUID}
  {tenant : TenantContext}

theorem moves_updateJob {loaded new : RedactionJob} {m : Move}
    (h : m ∈ moves jobId [.updateJob loaded new]) : loaded.id = jobId ∧ m.2 = new.status := by
  rw [moves, List.filterMap_cons, Write.move] at h
  by_cases hmove : loaded.id = jobId ∧ new.status ≠ loaded.status
  · rw [if_pos hmove, List.filterMap_nil, List.mem_singleton] at h
    exact ⟨hmove.1, h ▸ rfl⟩
  · rw [if_neg hmove] at h
    cases h

theorem not_consumed {loaded new : RedactionJob} {m : Move} (h : new.status ∉ consumedStates)
    (hm : m ∈ moves jobId [.updateJob loaded new]) : m.2 ∉ consumedStates :=
  (moves_updateJob hm).2 ▸ h

/-- Enters nothing and sends nothing. -/
abbrev quiet : Contract Database Write World Input Exn := quietContract Input Exn handoff

theorem quiet_acts {w : World} (h : w.queue = s.world.queue) : quiet.Acts s w :=
  ⟨trivial, ⟨Handoff.entered_of_db rfl, h⟩, trivial⟩

theorem quiet_lands (hcreated : created p = [])
    (hmoves : ∀ jobId, ∀ m ∈ moves jobId p, m.2 ∉ consumedStates) :
    quiet.Lands (fun _ _ _ => True) s p := by
  refine ⟨trivial, ⟨List.eq_nil_iff_forall_not_mem.mpr fun d hd => ?_, rfl⟩, trivial⟩
  obtain ⟨hc, ⟨row, hrow, -⟩ | ⟨m, hm, hstatus⟩⟩ := entered_view hd
  · rw [hcreated] at hrow
    cases hrow
  · exact hmoves d.1 m hm (hstatus ▸ hc)

theorem quiet_lands_updateJob {loaded new : RedactionJob} (h : new.status ∉ consumedStates) :
    quiet.Lands (fun _ _ _ => True) s [.updateJob loaded new] :=
  quiet_lands rfl fun _ _ => not_consumed h

theorem quiet_fails (consumes : JobStatus) :
    LandsFailure quiet jobId consumes fun _ => True :=
  fun _ _ _ _ _ _ _ _ _ _ _ _ _ => quiet_lands_updateJob (by simp [consumedStates])

theorem quiet_pages (documentId : UUID) : ToleratesPages quiet documentId :=
  fun _ _ => ⟨fun _ _ => quiet_acts rfl, fun _ _ => quiet_acts rfl⟩

theorem pays_of_safe {α : Type} {prog : Tx α}
    (h : quiet.Safe prog ⟨Database.empty, World.empty⟩ []) : prog.Pays handoff [] [] :=
  honours_of_wp (free_nil _) (Contract.wp_mono (fun _ _ _ _ => rfl) (fun _ _ _ _ => rfl) _ h)

theorem pays_detectJob (env : Env) (jobId : UUID) : (detectJob env jobId).Pays handoff [] [] := by
  refine pays_of_safe (safe_detectJob (quiet_fails _) fun s₁ s₂ job p _ _ _ _ hp _ _ _ => ?_)
  refine quiet_lands ?_ fun jobId m hm => ?_
  · rw [detectWrites, created_append, created_append, created_detected hp]
    rfl
  · rw [detectWrites, moves_append, moves_append, moves_detected hp, List.nil_append,
      List.mem_append] at hm
    rcases hm with hm | hm
    · exact not_consumed (show JobStatus.detected ∉ consumedStates by decide) hm
    · exact not_consumed (show JobStatus.inReview ∉ consumedStates by decide) hm

theorem pays_applyJob (env : Env) (jobId : UUID) (reviewerId : Option UUID) :
    (applyJob env jobId reviewerId).Pays handoff [] [] := by
  refine pays_of_safe (safe_applyJob (quiet_fails _) (fun _ _ _ _ _ _ _ _ _ _ _ => quiet_acts rfl)
    (fun _ _ _ _ _ _ _ _ => quiet_acts rfl) ?_ ?_)
  · intro _ _ job _ _ _ _ _ _ _ _ _ _ _ _
    refine quiet_lands rfl fun jobId m hm => ?_
    rw [applyFailedWrites, moves_insertAudit, moves_insertAudit] at hm
    exact not_consumed (show JobStatus.failed ∉ consumedStates by decide) hm
  · intro _ _ _ job _ _ _ _ _ _ _ _ _ _ _ _ _
    refine quiet_lands rfl fun jobId m hm => ?_
    rw [applyPassedWrites, moves_insertAudit, moves_insertAudit] at hm
    exact not_consumed (show JobStatus.verified ∉ consumedStates by decide) hm

theorem quiet_getJobOr404 : quiet.Safe (getJobOr404 tenant jobId) s [] :=
  wp_getJobOr404 (anything_escapes s) fun _ _ _ _ => trivial

theorem quiet_createDispositions (env : Env) (tenant : TenantContext) (jobId : UUID)
    (payload : DispositionBatchRequest) :
    quiet.Safe (createDispositions env tenant jobId payload) s [] :=
  safe_createDispositions fun _ _ _ _ _ _ _ _ hp _ _ =>
    quiet_lands (created_batch hp) fun jobId m hm => by rw [moves_batch hp] at hm; cases hm

theorem quiet_exportJob (env : Env) (tenant : TenantContext) (jobId : UUID) :
    quiet.Safe (exportJob env tenant jobId) s [] := by
  refine safe_exportJob (fun _ _ _ => quiet_acts rfl) (fun _ _ job exported _ _ _ _ _ _ _ => ?_) trivial
  refine quiet_lands rfl fun jobId m hm => ?_
  rw [exportWrites, moves_insertAudit] at hm
  exact not_consumed (show JobStatus.exported ∉ consumedStates by decide) hm

/-! ### Executions that owe a message -/

/-- What is owed is for one job in one state. -/
def OwesOnly (d : UUID × JobStatus) (owed : List (UUID × JobStatus)) : Prop :=
  ∀ d' ∈ owed, d' = d

theorem owesOnly_settle {d : UUID × JobStatus}
    (h : ∀ d' ∈ handoff.entered s { s with db := view s.db p }, d' = d) :
    OwesOnly d (handoff.settle [] s { s with db := view s.db p }) := by
  intro d' hd'
  obtain ⟨hentered, -⟩ := Handoff.mem_settle.mp hd'
  exact h d' (hentered.resolve_left List.not_mem_nil)

theorem owesOnly_updateJob {loaded new : RedactionJob} :
    OwesOnly (loaded.id, new.status)
      (handoff.settle [] s { s with db := view s.db [.updateJob loaded new] }) := by
  refine owesOnly_settle fun d hd => ?_
  obtain ⟨-, ⟨row, hrow, -⟩ | ⟨m, hm, hstatus⟩⟩ := entered_view hd
  · cases hrow
  · obtain ⟨hid, hnew⟩ := moves_updateJob hm
    exact Prod.ext hid.symm (hstatus.symm.trans hnew)

theorem owesOnly_createWrites {document : Document} {job : RedactionJob}
    (hf : Free s.db (createWrites document job)) :
    OwesOnly (job.id, job.status)
      (handoff.settle [] s { s with db := view s.db (createWrites document job) }) := by
  refine owesOnly_settle fun d hd => ?_
  obtain ⟨-, ⟨row, hrow, hid⟩ | ⟨m, hm, -⟩⟩ := entered_view hd
  · obtain rfl : row = job := List.mem_singleton.mp hrow
    have hnew : s.db.jobs.any (·.id = row.id) = false :=
      hf.unused (.jobPk row.id) ⟨.insertJob row, by simp [createWrites], List.mem_cons_self⟩
    have hstatus : (view s.db (createWrites document row)).status? d.1 = some d.2 :=
      (mem_awaiting.mp (Handoff.mem_entered.mp hd).1).1
    have hnone : s.db.jobs.find? (·.id = row.id) = none := by
      rw [List.find?_eq_none]
      exact List.any_eq_false.mp hnew
    rw [← hid, Database.status?, show (view s.db (createWrites document row)).job? row.id =
      (s.db.jobs ++ [row]).find? (·.id = row.id) from rfl, List.find?_append, hnone] at hstatus
    simp only [List.find?_cons, decide_true] at hstatus
    exact Prod.ext hid.symm (Option.some.inj hstatus).symm
  · cases hm

/-- **The message is sent** and pays for everything. -/
theorem honours_kiq {m : Message} {owed : List (UUID × JobStatus)} {p : List Write}
    {Q : Unit → List Write → List (UUID × JobStatus) → Prop}
    {E : Exn → List Write → List (UUID × JobStatus) → Prop} (howed : OwesOnly m.due owed)
    (hE : ∀ e, E e p []) (hQ : Q () p []) : (kiq m).Honours handoff Q E p owed :=
  honours_enqueue hE hQ (fun _ _ => rfl) howed

theorem honours_observe {α : Type} {r : World → Input → Except Exn α} {p : List Write}
    {owed : List (UUID × JobStatus)} {Q : α → List Write → List (UUID × JobStatus) → Prop}
    {E : Exn → List Write → List (UUID × JobStatus) → Prop} (hE : ∀ e, E e p owed)
    (hQ : ∀ a, Q a p owed) : (observe r).Honours handoff Q E p owed :=
  honours_invoke (fun _ _ => rfl) hE hQ

theorem honours_uploadBytes {key : String} {data : Bytes} {p : List Write}
    {owed : List (UUID × JobStatus)} {Q : Unit → List Write → List (UUID × JobStatus) → Prop}
    {E : Exn → List Write → List (UUID × JobStatus) → Prop} (hE : ∀ e, E e p owed)
    (hQ : Q () p owed) : (uploadBytes key data).Honours handoff Q E p owed := by
  have hput : ∀ (w : World) (_ : Input), handoff.queue (w.put key data) = handoff.queue w :=
    fun _ _ => rfl
  show (act fun w => w.put key data).Honours handoff Q E p owed
  exact honours_invoke hput hE fun _ => hQ

theorem pays_createJob (env : Env) (tenant : TenantContext) (file : Upload) :
    (createJob env tenant file).Pays handoff [] [] := by
  refine honours_closing ?_
  refine honours_bind ?_
  cases checkUpload env file with
  | error e => rfl
  | ok checked =>
    obtain ⟨filename, pdfBytes⟩ := checked
    refine honours_bind (honours_observe (fun _ => rfl) fun _ => ?_)
    refine honours_bind (honours_observe (fun _ => rfl) fun documentId => ?_)
    refine honours_bind (honours_send rfl fun _ _ => ?_)
    refine honours_bind (honours_send rfl fun _ _ => ?_)
    refine honours_bind (honours_observe (fun _ => rfl) fun jobId => ?_)
    refine honours_bind (honours_send rfl fun _ _ => ?_)
    refine honours_bind (honours_uploadBytes (fun _ => rfl) ?_)
    refine honours_bind (honours_commit fun s hf => ?_)
    refine honours_bind (honours_query fun _ => ?_)
    exact honours_bind (honours_kiq (owesOnly_createWrites hf) (fun _ => rfl) rfl)

theorem pays_postApply (tenant : TenantContext) (jobId : UUID) :
    (postApply tenant jobId).Pays handoff [] [] := by
  have hs : Free (⟨Database.empty, World.empty⟩ : Shared Database World).db ([] : List Write) :=
    free_nil _
  refine honours_closing ?_
  refine honours_bind (honours_of_wp hs (wp_liftExcept trivial (fun _ _ _ _ => rfl) fun _ _ => ?_))
  refine honours_bind (honours_of_wp hs (wp_getJobOr404 (fun _ _ _ _ => rfl) fun _ job _ _ => ?_))
  refine honours_bind (honours_tryCatch (honours_of_wp hs
    (wp_transitionJobStatus trivial (fun e _ _ _ => ?_) fun _ _ new _ hnew _ _ _ => ?_)))
  · cases e <;> rfl
  · subst hnew
    refine honours_bind (honours_commit fun s _ => ?_)
    refine honours_bind (honours_query fun _ => ?_)
    exact honours_bind (honours_kiq owesOnly_updateJob (fun _ => rfl) rfl)

/-- Where the session of an ingest ends: it tells to enqueue what it owes. -/
def IngestEnds (jobId : UUID) (ingested : Bool) (owed : List (UUID × JobStatus)) : Prop :=
  if ingested then OwesOnly (jobId, .ingested) owed else owed = []

theorem honours_failTask {β : Type} {next : Tx β}
    {Q : β → List Write → List (UUID × JobStatus) → Prop}
    {E : Exn → List Write → List (UUID × JobStatus) → Prop} {p : List Write}
    (hE : ∀ e p, E e p []) (hnext : ∀ p, next.Honours handoff Q E p []) :
    (do failTask jobId; next).Honours handoff Q E p [] := by
  refine honours_bind (honours_bind (honours_rollback (honours_bind
    (honours_of_wp (s := ⟨Database.empty, World.empty⟩) (free_nil _) (Contract.wp_mono
      (fun _ _ p _ => hnext p) (fun e _ p _ => hE e p) _ (safe_failJob ?_))))))
  exact fun _ _ _ _ _ _ _ _ => quiet_lands_updateJob (show JobStatus.failed ∉ consumedStates by decide)

theorem honours_ingestSession (env : Env) (jobId : UUID) :
    (ingestSession env jobId).Honours handoff (fun ingested _ owed => IngestEnds jobId ingested owed)
      (fun _ _ owed => owed = []) [] [] := by
  refine honours_bind (honours_query fun db => ?_)
  cases hjob : db.job? jobId with
  | none => rfl
  | some job =>
    show Prog.Honours handoff _ _ (if job.status ≠ .uploaded then _ else _) _ _
    split
    · rfl
    · have hfailed : ∀ (e : Exn) p, (do failTask jobId; (if e.isIngestRejection then return false
          else Prog.raise e : Tx Bool)).Honours handoff
            (fun ingested _ owed => IngestEnds jobId ingested owed)
            (fun _ _ owed => owed = []) p [] := by
        intro e p
        refine honours_failTask (fun _ _ => rfl) fun p => ?_
        cases e.isIngestRejection <;> rfl
      refine honours_tryCatch (honours_bind (honours_bind (honours_observe (hfailed · _)
        fun pdfBytes => ?_)))
      refine honours_bind (honours_of_wp (s := ⟨Database.empty, World.empty⟩) (free_nil _)
        (wp_ingestPdf (quiet_pages _) (fun e _ _ _ => hfailed e _) (fun e _ _ _ => hfailed e _)
          fun _ _ _ _ => ?_))
      refine honours_bind (honours_of_wp (s := ⟨Database.empty, World.empty⟩) (free_nil _)
        (wp_transitionJobStatus trivial (fun e _ _ _ => hfailed e _) fun _ _ new _ hnew _ _ _ => ?_))
      subst hnew
      refine honours_commit fun s _ => ?_
      obtain rfl := job?_id hjob
      exact owesOnly_updateJob

theorem pays_ingestJob (env : Env) (jobId : UUID) : (ingestJob env jobId).Pays handoff [] [] := by
  refine honours_bind (honours_closing (honours_mono (fun ingested _ owed hend => ?_)
    (fun _ _ _ h => h) _ (honours_ingestSession env jobId)))
  cases ingested
  · exact hend
  · exact honours_kiq hend (fun _ => rfl) rfl

end

/-! ### Deliveries that cannot end too early -/

section

variable {env : Env} {s : Shared Database World} {p : List Write} {jobId : UUID}
  {consumes : JobStatus}

variable (jobId consumes) in
abbrev staysAwaited : Contract Database Write World Input Exn :=
  whileAwaited Input Exn handoff (jobId, consumes)

/-- No state is left for a delivery to end in. -/
theorem ending_never : Ending (staysAwaited jobId consumes) fun _ => False :=
  ⟨fun _ _ h _ => h, fun _ _ he _ => he⟩

theorem status_of_awaited (h : (staysAwaited jobId consumes).inv s) :
    s.db.status? jobId = some consumes := (mem_awaiting.mp h).1

theorem awaited_skips (s : Shared Database World) (h : (staysAwaited jobId consumes).inv s)
    (hne : ∀ job, s.db.job? jobId = some job → job.status ≠ consumes) : False :=
  left_of_job hne (status_of_awaited h)

theorem awaited_acts {w : World} (hi : (staysAwaited jobId consumes).inv s)
    (h : w.queue = s.world.queue) : (staysAwaited jobId consumes).Acts s w := ⟨hi, h, trivial⟩

/-- **A commit that moves the job** does not leave it where it was. -/
theorem awaited_lands {R : Unit → Shared Database World → List Write → Prop}
    (hi : (staysAwaited jobId consumes).inv s)
    (hmove : lastStatus consumes (moves jobId p) ≠ consumes)
    (hal : (staysAwaited jobId consumes).allowed s p) :
    (staysAwaited jobId consumes).Lands R s p := by
  refine absurd ?_ hmove
  have hview := status_view p (status_of_awaited hi)
  rw [show (view s.db p).status? jobId = some consumes from (mem_awaiting.mp hal).1] at hview
  exact (Option.some.inj hview).symm

theorem awaited_lands_status {R : Unit → Shared Database World → List Write → Prop}
    {job : RedactionJob} {newStatus : JobStatus} (hi : (staysAwaited jobId consumes).inv s)
    (hid : job.id = jobId) (hst : newStatus ≠ job.status) (hne : newStatus ≠ consumes)
    (hal : (staysAwaited jobId consumes).allowed s [statusWrite job newStatus]) :
    (staysAwaited jobId consumes).Lands R s [statusWrite job newStatus] := by
  refine awaited_lands hi ?_ hal
  rw [moves_statusWrite jobId hst, if_pos hid]
  exact hne

theorem awaited_fails (hne : .failed ≠ consumes) :
    LandsFailure (staysAwaited jobId consumes) jobId consumes fun _ => False := by
  intro s₀ s₁ s₂ job₀ job _ _ _ _ hjob hedge h₂ hal
  refine awaited_lands_status h₂.inv (job?_id hjob) (fun hst => ?_) hne hal
  rw [← hst] at hedge
  exact absurd hedge (by decide)

theorem awaited_cannot_stay (hopen : .failed ∈ validTransitions consumes) :
    LeavesFailure (staysAwaited jobId consumes) jobId consumes fun _ => False := by
  intro s₀ s₁ job₀ _ _ _ h₁ hnone
  obtain ⟨job, hjob, hst⟩ := Option.map_eq_some_iff.mp (status_of_awaited h₁.inv)
  exact hnone job hjob (hst ▸ hopen)

theorem resolves_ingestJob (env : Env) (jobId : UUID) (s : Shared Database World) :
    (ingestJob env jobId).Resolves handoff (jobId, .uploaded) s [] := by
  refine Contract.wp_bind (Contract.wp_mono (fun _ _ _ h => h.elim) (fun _ _ _ h => h) _
    (ends_closing ending_never (ends_guardedTask ending_never awaited_skips
      (awaited_fails (by decide)) (awaited_cannot_stay (by decide)) (fun _ _ _ h => h.elim) ?_)))
  intro s₁ job _ hjob hst
  refine Contract.wp_bind (wp_ingestWork (fun _ _ => ⟨fun _ hi => awaited_acts hi rfl,
    fun _ hi => awaited_acts hi rfl⟩) hst (fun _ _ _ _ h => h) (fun _ _ _ h _ h' => h.trans h')
      fun _ _ s₃ _ _ h₃ hal => ?_)
  exact awaited_lands_status h₃.inv (job?_id hjob) (by rw [hst]; decide) (by decide) hal

theorem resolves_detectJob (env : Env) (jobId : UUID) (s : Shared Database World) :
    (detectJob env jobId).Resolves handoff (jobId, .ingested) s [] := by
  refine ends_detectJob ending_never awaited_skips (awaited_fails (by decide))
    (awaited_cannot_stay (by decide)) fun s₁ s₂ job p _ hjob hst h hp _ _ hal => ?_
  exact awaited_lands h.inv (detect_moves hp hst (job?_id hjob)) hal

theorem resolves_applyJob (env : Env) (jobId : UUID) (reviewerId : Option UUID)
    (s : Shared Database World) :
    (applyJob env jobId reviewerId).Resolves handoff (jobId, .applying) s [] := by
  refine ends_applyJob ending_never awaited_skips (awaited_fails (by decide))
    (awaited_cannot_stay (by decide)) (fun _ _ _ _ _ _ _ _ _ _ h => awaited_acts h.inv rfl)
    (fun _ _ _ _ _ _ _ h => awaited_acts h.inv rfl) ?_ ?_
  · intro s₁ s job b started failed _ hjob hst h _ _ _ _ hal
    exact awaited_lands h.inv (applyFailed_moves hst (job?_id hjob) started failed) hal
  · intro s₁ s₂ s job b started passed _ hjob hst h _ _ _ _ _ hal
    exact awaited_lands h.inv (applyPassed_moves hst (job?_id hjob) started passed) hal

end

/-! ### Runs -/

theorem pays_request (env : Env) (tenant : TenantContext) (request : JobRequest) :
    (request.run env tenant).Pays handoff [] [] := by
  cases request with
  | createJob file => exact honours_bind (pays_createJob env tenant file)
  | getJob jobId => exact honours_bind (pays_of_safe (safe_closing quiet_getJobOr404))
  | listJobSpans jobId =>
    refine honours_bind (pays_of_safe (safe_closing (Contract.wp_bind
      (wp_getJobOr404 (anything_escapes _) fun _ _ _ _ => ?_))))
    exact Contract.wp_query (fun _ _ _ _ => trivial) fun _ _ => trivial
  | createDispositions jobId payload =>
    exact honours_bind (pays_of_safe (quiet_createDispositions env tenant jobId payload))
  | postApply jobId => exact honours_bind (pays_postApply tenant jobId)
  | exportJob jobId => exact honours_bind (pays_of_safe (quiet_exportJob env tenant jobId))

theorem pipeline_sound (env : Env) : (pipelineService env).Sound where
  serve request := honours_bind (pays_request env request.1 request.2)
  handle m := by
    cases m with
    | ingestJob jobId => exact pays_ingestJob env jobId
    | detectJob jobId => exact pays_detectJob env jobId
    | applyJob jobId reviewerId => exact pays_applyJob env jobId reviewerId
  resolve m s := by
    cases m with
    | ingestJob jobId => exact resolves_ingestJob env jobId s
    | detectJob jobId => exact resolves_detectJob env jobId s
    | applyJob jobId reviewerId => exact resolves_applyJob env jobId reviewerId s

/-- **No job is stranded** as long as no process dies, and no enqueue raises, between
the commit that brings a job into a state and the enqueue of the message for the task
that consumes it.  Processes may die anywhere else, at any step of any request or
delivery; messages may be delivered again and executions overlap in any way.  A run
begins where nothing runs and each job that waits for a task has a message. -/
theorem no_job_stranded (env : Env) (s : Shared Database World)
    (hs : ∀ jobId, ∀ status ∈ consumedStates, s.db.status? jobId = some status →
      ∃ m ∈ s.world.queue, m.jobId = jobId ∧ m.consumes = status)
    (D : Deployment Database Write World Input Exn Unit (UUID × JobStatus))
    (hr : (pipelineService env).Run (pipelineService env).paidRuns (Deployment.start s) D)
    (jobId : UUID) (status : JobStatus) (hc : status ∈ consumedStates)
    (hstatus : D.shared.db.status? jobId = some status) :
    (pipelineService env).Attended D (jobId, status) := by
  refine Service.attended_of_run (pipeline_sound env) (Service.kept_start fun d hd => ?_) hr _
    (mem_awaiting.mpr ⟨hstatus, hc⟩)
  obtain ⟨hst, hc⟩ := mem_awaiting.mp hd
  obtain ⟨m, hm, hid, hconsumes⟩ := hs d.1 d.2 hc hst
  exact ⟨m, hm, Prod.ext hid hconsumes⟩

/-! ### A job that is stranded -/

section

def steps (n i : Nat) : List (Event Input Exn (TenantContext × JobRequest)) :=
  List.replicate n (.run i (.ok ⟨4, sampleTime⟩))

def sampleUpload : List (Event Input Exn (TenantContext × JobRequest)) :=
  .request (sampleAdmin, .createJob ⟨some "a.pdf", some pdfContentType, [0]⟩) :: steps 11 0

def ingestDies : List (Event Input Exn (TenantContext × JobRequest)) :=
  sampleUpload ++ .deliver 0 :: steps 6 1 ++ [.run 1 (.crash (.external "SIGKILL"))]

/-- The delivery commits, and the enqueue of the next message raises. -/
def enqueueRaises : List (Event Input Exn (TenantContext × JobRequest)) :=
  sampleUpload ++ .deliver 0 :: steps 8 1 ++
    [.run 1 (.fault (.external "ConnectionError")), .acknowledge 1]

end

/-- The delivery that dies owes nothing yet, and its message is still there. -/
theorem no_job_stranded_by_death :
    ∃ D, (pipelineService sampleEnv).replayWhere
        (fun D e => (pipelineService sampleEnv).mayFail ⟨4, sampleTime⟩ D e && Service.goesOn D e)
          (Deployment.start ⟨Database.empty, World.empty⟩) ingestDies = some D ∧
      D.shared.db.status? 4 = some .uploaded ∧
      (pipelineService sampleEnv).Attended D (4, .uploaded) := by
  have hsome : ((pipelineService sampleEnv).replayWhere
      (fun D e => (pipelineService sampleEnv).mayFail ⟨4, sampleTime⟩ D e && Service.goesOn D e)
        (Deployment.start ⟨Database.empty, World.empty⟩) ingestDies).map
          (·.shared.db.status? 4) = some (some .uploaded) := by decide +kernel
  obtain ⟨D, hD, hstatus⟩ := Option.map_eq_some_iff.mp hsome
  refine ⟨D, hD, hstatus, no_job_stranded sampleEnv ⟨Database.empty, World.empty⟩
    (fun _ _ _ h => by cases h) D (Service.run_of_replayWhere (fun D e h => ?_) hD) 4 .uploaded
      (by decide) hstatus⟩
  obtain ⟨hfail, hgo⟩ := Bool.and_eq_true_iff.mp h
  exact ⟨Service.failures_of_mayFail hfail, Service.debtorsGoOn_of_goesOn hgo⟩

/-- The upload is ingested, the enqueue raises, and the delivery ends.  The job stays
`ingested`: its only message is acknowledged, and nothing runs. -/
theorem job_stranded :
    ∃ D, (pipelineService sampleEnv).Run (pipelineService sampleEnv).failures
        (Deployment.start ⟨Database.empty, World.empty⟩) D ∧
      D.shared.db.status? 4 = some .ingested ∧
      ¬ (pipelineService sampleEnv).Attended D (4, .ingested) := by
  have hsome : ((pipelineService sampleEnv).replayWhere
      ((pipelineService sampleEnv).mayFail ⟨4, sampleTime⟩)
        (Deployment.start ⟨Database.empty, World.empty⟩) enqueueRaises).map
          (fun D => (D.shared.db.status? 4,
            decide ((pipelineService sampleEnv).Attended D (4, .ingested)))) =
        some (some .ingested, false) := by decide +kernel
  obtain ⟨D, hD, hout⟩ := Option.map_eq_some_iff.mp hsome
  obtain ⟨hstatus, hattended⟩ := Prod.mk.inj hout
  exact ⟨D, Service.run_of_replayWhere (fun _ _ h => Service.failures_of_mayFail h) hD, hstatus,
    of_decide_eq_false hattended⟩

end RedactApi
