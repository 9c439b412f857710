import RedactApi.Pipeline

/-!
# The order of the job status

`validTransitions` is checked on the loaded job, which may be out of date when
the write lands.  A job moves along declared edges as long as every commit is up
to date: the committed status is still the one the transaction loaded, or is
already the one it writes, or it may still fail and the transaction fails it.

`status_view` computes what a commit does to the status of a job from the moves
among its writes; the rest of the writes do not matter.
-/

namespace RedactApi

open ReadCommitted

def Edge (a b : JobStatus) : Prop := b ∈ validTransitions a

instance : DecidableRel Edge := fun a b => inferInstanceAs (Decidable (b ∈ validTransitions a))

/-- How far a job has come. -/
def JobStatus.rank : JobStatus → Nat
  | .uploaded => 0
  | .ingested => 1
  | .detected => 2
  | .inReview => 3
  | .applying => 4
  | .verified => 5
  | .exported => 6
  | .failed => 7

theorem Edge.rank_lt {a b : JobStatus} (h : Edge a b) : a.rank < b.rank := by
  cases a <;> cases b <;> first | decide | exact absurd h (by decide)

theorem rank_le_of_reaches {a b : JobStatus} (h : Relation.ReflTransGen Edge a b) :
    a.rank ≤ b.rank := by
  induction h with
  | refl => exact Nat.le_refl _
  | tail _ hedge ih => exact ih.trans hedge.rank_lt.le

def Database.status? (db : Database) (jobId : UUID) : Option JobStatus :=
  (db.job? jobId).map (·.status)

/-! ### The moves among the writes -/

abbrev Move := JobStatus × JobStatus

/-- The status of the job as it was loaded and as it is written. -/
def Write.move (jobId : UUID) : Write → Option Move
  | .updateJob loaded new =>
    if loaded.id = jobId ∧ new.status ≠ loaded.status then some (loaded.status, new.status) else none
  | _ => none

def moves (jobId : UUID) (p : List Write) : List Move := p.filterMap (·.move jobId)

theorem moves_append (jobId : UUID) (p q : List Write) :
    moves jobId (p ++ q) = moves jobId p ++ moves jobId q := List.filterMap_append

def lastStatus (c : JobStatus) (m : List Move) : JobStatus := (m.getLast?.map (·.2)).getD c

theorem lastStatus_append (c : JobStatus) (m m' : List Move) :
    lastStatus c (m ++ m') = lastStatus (lastStatus c m) m' := by
  rw [lastStatus, lastStatus, lastStatus, List.getLast?_append]
  cases m'.getLast? <;> rfl

theorem job?_updateJob {db : Database} {jobId : UUID} {job : RedactionJob}
    (loaded new : RedactionJob) (h : db.job? jobId = some job) :
    (db.apply (.updateJob loaded new)).job? jobId = some (RedactionJob.patch loaded new job) := by
  show (db.jobs.map (RedactionJob.patch loaded new)).find? (·.id = jobId) = _
  rw [List.find?_map]
  simp only [Function.comp_def, RedactionJob.patch_id]
  rw [show db.jobs.find? (·.id = jobId) = some job from h]
  rfl

theorem status_apply {db : Database} {jobId : UUID} {c : JobStatus} (w : Write)
    (h : db.status? jobId = some c) :
    (db.apply w).status? jobId = some (lastStatus c (moves jobId [w])) := by
  obtain ⟨job, hjob, rfl⟩ := Option.map_eq_some_iff.mp h
  cases w with
  | updateJob loaded new =>
    have hid : job.id = jobId := job?_id hjob
    rw [Database.status?, job?_updateJob loaded new hjob, Option.map_some, RedactionJob.patch, moves,
      List.filterMap_cons, Write.move, hid]
    by_cases hl : loaded.id = jobId
    · rw [if_pos hl.symm]
      by_cases hs : new.status = loaded.status
      · rw [if_neg (fun h => h.2 hs), hs, patched_same]
        rfl
      · rw [if_pos ⟨hl, hs⟩, patched_changed _ hs]
        rfl
    · rw [if_neg (Ne.symm hl), if_neg (fun h => hl h.1)]
      rfl
  | insertJob row =>
    have hsame : (db.apply (.insertJob row)).job? jobId = some job := by
      show (db.jobs ++ [row]).find? (·.id = jobId) = _
      rw [List.find?_append, show db.jobs.find? (·.id = jobId) = some job from hjob]
      rfl
    rw [Database.status?, hsame]
    rfl
  | _ => exact h

/-- **What a commit does to the status of a job.** -/
theorem status_view {db : Database} {jobId : UUID} {c : JobStatus} (p : List Write)
    (h : db.status? jobId = some c) :
    (view db p).status? jobId = some (lastStatus c (moves jobId p)) := by
  induction p using List.reverseRecOn with
  | nil => exact h
  | append_singleton p w ih =>
    rw [view_concat]
    show ((view db p).apply w).status? jobId = _
    rw [status_apply w ih, moves_append, lastStatus_append]

/-! ### Declared moves -/

/-- The moves are declared edges, one after the other. -/
structure Declared (m : List Move) : Prop where
  edges : ∀ x ∈ m, Edge x.1 x.2
  joined : m.IsChain fun x y => x.2 = y.1

theorem declared_nil : Declared [] := ⟨fun _ h => absurd h List.not_mem_nil, .nil⟩

theorem Declared.reaches {m : List Move} (h : Declared m) {x y : Move} (hx : m.head? = some x)
    (hy : m.getLast? = some y) : Relation.ReflTransGen Edge x.1 y.2 := by
  induction m generalizing x with
  | nil => cases hx
  | cons a m ih =>
    obtain rfl : a = x := Option.some.inj hx
    have hedge := h.edges a List.mem_cons_self
    cases m with
    | nil =>
      obtain rfl : a = y := Option.some.inj hy
      exact .single hedge
    | cons b m =>
      obtain ⟨hjoin, hchain⟩ := List.isChain_cons_cons.mp h.joined
      have hrest : Declared (b :: m) := ⟨fun z hz => h.edges z (List.mem_cons_of_mem a hz), hchain⟩
      refine Relation.ReflTransGen.head hedge ?_
      rw [hjoin]
      exact ih hrest rfl (by rwa [List.getLast?_cons_cons] at hy)

/-! ### Commits that are up to date -/

/-- The status `c` is where the moves start, or where they end, or they end in
`failed` and `c` can fail. -/
def upToDate (c : JobStatus) (m : List Move) : Bool :=
  match m.head?, m.getLast? with
  | some first, some last => c = first.1 ∨ c = last.2 ∨ last.2 = .failed ∧ c ≠ .exported
  | _, _ => true

def upToDateCommit (db : Database) (p : List Write) : Bool :=
  db.jobs.all fun job => upToDate job.status (moves job.id p)

theorem reaches_of_upToDate {c : JobStatus} {m : List Move} (hd : Declared m)
    (hu : upToDate c m = true) : Relation.ReflTransGen Edge c (lastStatus c m) := by
  rw [upToDate] at hu
  split at hu
  · rename_i first last hfirst hlast
    have hend : lastStatus c m = last.2 := by rw [lastStatus, hlast]; rfl
    rw [hend]
    rcases of_decide_eq_true hu with rfl | rfl | ⟨hf, hc⟩
    · exact hd.reaches hfirst hlast
    · exact .refl
    · rw [hf]
      cases c with
      | failed => exact .refl
      | exported => exact absurd rfl hc
      | _ => exact .single (by decide)
  · rename_i hnone
    have hm : m = [] := by
      cases m with
      | nil => rfl
      | cons a m =>
        obtain ⟨b, hb⟩ : ∃ b, (a :: m).getLast? = some b :=
          ⟨(a :: m).getLast (List.cons_ne_nil a m), List.getLast?_eq_getLast_of_ne_nil _⟩
        exact absurd hb (hnone a b rfl)
    rw [hm]
    exact .refl

/-- The status of every job stays where it is or moves along declared edges. -/
def Forward (db db' : Database) : Prop :=
  ∀ jobId c, db.status? jobId = some c →
    ∃ c', db'.status? jobId = some c' ∧ Relation.ReflTransGen Edge c c'

theorem Forward.refl (db : Database) : Forward db db := fun _ c h => ⟨c, h, .refl⟩

theorem Forward.trans {a b c : Database} (h : Forward a b) (h' : Forward b c) : Forward a c := by
  intro jobId x hx
  obtain ⟨y, hy, hxy⟩ := h jobId x hx
  obtain ⟨z, hz, hyz⟩ := h' jobId y hy
  exact ⟨z, hz, hxy.trans hyz⟩

/-- The commits considered are up to date; the status only moves forward. -/
def statusContract : Contract Database Write World Input Exn where
  inv _ := True
  rely _ _ := True
  guar s s' := Forward s.db s'.db
  allowed s p := upToDateCommit s.db p = true
  input _ _ _ := True
  fault _ := True
  past _ _ := True
  rely_refl _ := trivial
  rely_trans _ _ := trivial
  guar_refl s := Forward.refl s.db
  past_refl _ := trivial
  past_trans _ _ := trivial
  rely_past _ := trivial

/-- **An up-to-date commit of declared moves goes forward.** -/
theorem allows_declared {s : Shared Database World} {p : List Write}
    (hd : ∀ jobId, Declared (moves jobId p)) : Allows statusContract s p := by
  intro hal
  refine ⟨trivial, fun jobId c hc => ⟨_, status_view p hc, ?_⟩, trivial⟩
  refine reaches_of_upToDate (hd jobId) ?_
  obtain ⟨job, hjob, rfl⟩ := Option.map_eq_some_iff.mp hc
  have hall := List.all_eq_true.mp hal job (List.mem_of_find?_eq_some hjob)
  rwa [job?_id hjob] at hall

/-! ### The moves of each operation -/

theorem moves_statusWrite (jobId : UUID) {job : RedactionJob} {newStatus : JobStatus}
    (h : newStatus ≠ job.status) : moves jobId [statusWrite job newStatus] =
      if job.id = jobId then [(job.status, newStatus)] else [] := by
  rw [moves, List.filterMap_cons, statusWrite, Write.move]
  by_cases hid : job.id = jobId
  · rw [if_pos ⟨hid, h⟩, if_pos hid]
    rfl
  · rw [if_neg (fun hn => hid hn.1), if_neg hid]
    rfl

theorem declared_statusWrite {job : RedactionJob} {newStatus : JobStatus}
    (h : Edge job.status newStatus) (jobId : UUID) :
    Declared (moves jobId [statusWrite job newStatus]) := by
  have hne : newStatus ≠ job.status := by
    intro he
    rw [he] at h
    cases hs : job.status <;> rw [hs] at h <;> exact absurd h (by decide)
  rw [moves_statusWrite jobId hne]
  split
  · exact ⟨fun x hx => by rw [List.mem_singleton.mp hx]; exact h, List.IsChain.singleton _⟩
  · exact declared_nil

theorem moves_spanWrites (jobId : UUID) (span : Span) (item : ExistingItem) :
    moves jobId (spanWrites span item) = [] := by
  rw [spanWrites]
  split <;> rfl

theorem moves_dispositionWrite (jobId newId spanId : UUID) (existing : Option Disposition)
    (action : DispositionAction) (reviewerId : UUID) (reason : Option String) :
    moves jobId [dispositionWrite newId spanId existing action reviewerId reason] = [] := by
  cases existing <;> rfl

theorem moves_batch {env : Env} {seen : Shared Database World → Prop} {job : RedactionJob}
    {reviewerId : UUID} {p : List Write} (h : BatchWrites env seen job reviewerId p)
    (jobId : UUID) : moves jobId p = [] := by
  induction h with
  | nil => rfl
  | existing _ _ _ _ _ _ _ _ ih =>
    rw [moves_append, moves_append, moves_append, ih, moves_spanWrites, moves_dispositionWrite]
    rfl
  | page _ _ _ ih => rw [moves_append, ih]; rfl
  | manual _ _ _ _ _ _ ih => rw [moves_append, moves_append, moves_append, ih]; rfl

theorem moves_detected {seen : Shared Database World → Prop} {documentId : UUID}
    {p : List Write} (h : DetectedWrites seen documentId p) (jobId : UUID) :
    moves jobId p = [] := by
  induction h with
  | nil => rfl
  | page _ _ _ ih => rw [moves_append, ih]; rfl
  | span _ _ _ _ ih => rw [moves_append, ih]; rfl

theorem moves_detectWrites {seen : Shared Database World → Prop} {job : RedactionJob}
    {p : List Write} (h : DetectedWrites seen job.documentId p) (hst : job.status = .ingested)
    (jobId : UUID) : moves jobId (detectWrites job p) =
      if job.id = jobId then [(.ingested, .detected), (.detected, .inReview)] else [] := by
  rw [detectWrites, moves_append, moves_append, moves_detected h,
    moves_statusWrite jobId (by rw [hst]; decide), moves_statusWrite jobId (by simp), hst]
  split <;> rfl

theorem declared_detectWrites {seen : Shared Database World → Prop} {job : RedactionJob}
    {p : List Write} (h : DetectedWrites seen job.documentId p) (hst : job.status = .ingested)
    (jobId : UUID) : Declared (moves jobId (detectWrites job p)) := by
  rw [moves_detectWrites h hst]
  split
  · refine ⟨fun x hx => ?_, List.IsChain.cons_cons rfl (List.IsChain.singleton _)⟩
    rcases List.mem_cons.mp hx with rfl | hx
    · decide
    · rw [List.mem_singleton.mp hx]
      decide
  · exact declared_nil

theorem moves_insertAudit (jobId : UUID) (e : AuditEntry) (p : List Write) :
    moves jobId (.insertAudit e :: p) = moves jobId p := rfl

/-- The write that lands a verified job moves it as a transition does. -/
theorem moves_verifiedJob (jobId : UUID) (job : RedactionJob) :
    moves jobId [.updateJob job (verifiedJob job)] = moves jobId [statusWrite job .verified] := rfl

theorem declared_verified {job : RedactionJob} (hst : job.status = .applying) (jobId : UUID) :
    Declared (moves jobId [.updateJob job (verifiedJob job)]) := by
  rw [moves_verifiedJob]
  exact declared_statusWrite (by rw [hst]; decide) jobId

theorem operates_status (env : Env) : Operates statusContract env where
  pages _ _ _ := ⟨fun s _ => ⟨trivial, Forward.refl s.db, trivial⟩,
    fun s _ => ⟨trivial, Forward.refl s.db, trivial⟩⟩
  enqueue _ s _ := ⟨trivial, Forward.refl s.db, trivial⟩
  manifest _ _ s _ := ⟨trivial, Forward.refl s.db, trivial⟩
  fails _ _ _ _ _ _ _ _ _ _ _ _ _ hedge _ := allows_declared (declared_statusWrite hedge)
  ingests _ _ _ _ _ hst _ := allows_declared (declared_statusWrite (by rw [hst]; decide))
  detects _ _ _ _ _ _ hst _ hp _ := allows_declared (declared_detectWrites hp hst)
  burns _ _ s _ _ _ _ _ _ _ _ := ⟨trivial, Forward.refl s.db, trivial⟩
  stores _ s _ _ _ _ _ _ := ⟨trivial, Forward.refl s.db, trivial⟩
  failsGate _ _ _ _ _ _ _ _ hst _ _ _ _ _ :=
    allows_declared (declared_statusWrite (by rw [hst]; decide))
  passesGate _ _ _ _ _ _ _ _ _ hst _ _ _ _ _ _ := allows_declared (declared_verified hst)
  uploads s _ _ _ _ _ _ _ := ⟨trivial, Forward.refl s.db, trivial⟩
  creates _ _ _ _ _ _ := allows_declared fun _ => declared_nil
  disposes _ _ _ _ _ _ _ _ _ _ hp _ :=
    allows_declared fun jobId => by rw [moves_batch hp]; exact declared_nil
  starts _ _ _ _ _ _ _ _ hst _ _ _ :=
    allows_declared (declared_statusWrite (by rw [hst]; decide))
  exports _ _ _ _ _ _ _ _ hst _ _ _ :=
    allows_declared (declared_statusWrite (by rw [hst]; decide))

/-! ### Runs -/

def upToDateStep (S : Pipeline) (i : Nat) (l : Label Input Exn) : Bool :=
  match S.threads[i]?, l with
  | some t, .ok _ => !t.prog.atCommit || upToDateCommit S.shared.db t.pending
  | _, _ => true

def upToDateCommits : Guard Database Write World Input Exn Unit := fun S i l =>
  upToDateStep S i l = true

theorem fits_status : statusContract.Fits upToDateCommits where
  fault _ := trivial
  input _ _ := trivial
  commit hg ht hc := by
    simp only [upToDateCommits, upToDateStep, ht, hc] at hg
    exact hg

theorem forward_of_run {env : Env} {s : Shared Database World} {operations : List Operation}
    {S S' : Pipeline} (hr : Sys.Run upToDateCommits (Pipeline.start env s operations) S)
    (hr' : Sys.Run upToDateCommits S S') : Forward S.shared.db S'.shared.db := by
  have hstart : statusContract.Good (Pipeline.start env s operations) := by
    refine Contract.good_start trivial fun q hq => ?_
    obtain ⟨operation, -, rfl⟩ := List.mem_map.mp hq
    exact (operates_status env).safe operation
      (fun _ _ _ _ _ _ _ hedge _ => allows_declared (declared_statusWrite hedge)) trivial
  have hgood := Contract.sound fits_status (fun _ _ _ => trivial) hstart hr
  exact Contract.of_guarantees (R := fun s s' => Forward s.db s'.db) (fun s => .refl s.db)
    Forward.trans (hgood.run fits_status (fun _ _ _ => trivial) hr').2

/-- **The status of a job only moves forward** in every run whose commits are up
to date, over any interleaving of any executions: from one committed state to
any later one it stays or follows declared edges. -/
theorem status_moves_forward (env : Env) (s : Shared Database World) (operations : List Operation)
    (S S' : Pipeline) (hr : Sys.Run upToDateCommits (Pipeline.start env s operations) S)
    (hr' : Sys.Run upToDateCommits S S') (jobId : UUID) (c : JobStatus)
    (hc : S.shared.db.status? jobId = some c) :
    ∃ c', S'.shared.db.status? jobId = some c' ∧ Relation.ReflTransGen Edge c c' :=
  forward_of_run hr hr' jobId c hc

/-! ### Two overlapping deliveries of one upload -/

section

def sampleJobId : UUID := 0x11111111111111111111111111111111#128
def sampleDocumentId : UUID := 0x22222222222222222222222222222222#128

def uploadedDatabase : Database :=
  { Database.empty with
    documents := [⟨sampleDocumentId, "a.pdf", pdfContentType, 1, 6, "", ""⟩]
    jobs := [⟨sampleJobId, sampleDocumentId, 6, .uploaded, none⟩] }

def fullStore : World := ⟨fun _ => some [0], [], []⟩

def tick : Label Input Exn := .ok ⟨7, sampleTime⟩

def twoIngests : Pipeline :=
  Pipeline.start (Env.letter id) ⟨uploadedDatabase, fullStore⟩
    [.deliver (.ingestJob sampleJobId), .deliver (.ingestJob sampleJobId),
     .deliver (.detectJob sampleJobId)]

/-- The first delivery loads the job; the second ingests it, and it is detected. -/
def untilReview : List (Nat × Label Input Exn) :=
  (0, tick) :: List.replicate 9 (1, tick) ++ List.replicate 8 (2, tick)

end

/-- The job is in review; then the first delivery commits what it decided on the
status it loaded, and the job is back in `ingested`. -/
theorem status_goes_back :
    ∃ S S' : Pipeline, twoIngests.replay untilReview = some S ∧
      S.replay (List.replicate 6 (0, tick)) = some S' ∧
      S.shared.db.status? sampleJobId = some .inReview ∧
      S'.shared.db.status? sampleJobId = some .ingested ∧
      ¬ Relation.ReflTransGen Edge .inReview .ingested := by
  have hreview : (twoIngests.replay untilReview).map (·.shared.db.status? sampleJobId) =
      some (some .inReview) := by decide +kernel
  obtain ⟨S, hS, hstatus⟩ := Option.map_eq_some_iff.mp hreview
  have hback : ((twoIngests.replay untilReview).bind fun S =>
      (S.replay (List.replicate 6 (0, tick))).map (·.shared.db.status? sampleJobId)) =
        some (some .ingested) := by decide +kernel
  rw [hS, Option.bind_some] at hback
  obtain ⟨S', hS', hstatus'⟩ := Option.map_eq_some_iff.mp hback
  refine ⟨S, S', hS, hS', hstatus, hstatus', fun h => ?_⟩
  exact absurd (rank_le_of_reaches h) (by decide)

/-- One after the other the same deliveries are up to date. -/
theorem status_moves_forward_in_order :
    ∃ S, twoIngests.replayWhere upToDateStep
        (List.replicate 9 (1, tick) ++ List.replicate 8 (2, tick) ++ List.replicate 2 (0, tick)) =
        some S ∧
      ∃ c', S.shared.db.status? sampleJobId = some c' ∧
        Relation.ReflTransGen Edge .uploaded c' := by
  have hsome : (twoIngests.replayWhere upToDateStep
      (List.replicate 9 (1, tick) ++ List.replicate 8 (2, tick) ++
        List.replicate 2 (0, tick))).isSome = true := by decide +kernel
  obtain ⟨S, hS⟩ := Option.isSome_iff_exists.mp hsome
  exact ⟨S, hS, status_moves_forward (Env.letter id) _ _ twoIngests S .refl
    (Sys.run_of_replayWhere (fun _ _ _ h => h) hS) sampleJobId .uploaded (by decide +kernel)⟩

end RedactApi
