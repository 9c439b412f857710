import RedactApi.Services.RedactionJob

/-!
# Shared by the tasks

`tasks/support.py`: loading a job, and moving it to `failed` in a session of its
own after the task's session has been rolled back.
-/

namespace RedactApi

open ReadCommitted

def loadJob (jobId : UUID) : Tx (Option RedactionJob) := Prog.query (·.job? jobId)

/-- Only a state that permits it moves to `failed`. -/
def failJob (jobId : UUID) : Tx (Option RedactionJob) :=
  Prog.closing do
    match ← loadJob jobId with
    | none => return none
    | some job =>
      if .failed ∈ validTransitions job.status then do
        let job ← transitionJobStatus (track job) .failed
        Prog.commitNow
        return some job.row
      else return some job

/-- What every task does with an exception: roll back, fail the job. -/
def failTask (jobId : UUID) : Tx Unit := do
  Prog.rollbackNow
  let _ ← failJob jobId
  return ()

/-- The shape of a task: load the job, do nothing unless it is in the state the
task consumes, and fail it when the work raises. -/
def guardedTask {α : Type} (consumes : JobStatus) (jobId : UUID) (skipped : α)
    (work : RedactionJob → Tx α) (onError : Exn → Tx α) : Tx α := do
  match ← loadJob jobId with
  | none => return skipped
  | some job =>
    if job.status ≠ consumes then return skipped
    else (work job).tryCatch fun e => do
      failTask jobId
      onError e

/-! ### What they commit -/

section

variable {C : Contract Database Write World Input Exn} {s : Shared Database World} {p : List Write}
  {E : Exn → Shared Database World → List Write → Prop} {jobId : UUID}

def failWrite (job : RedactionJob) : Write := .updateJob job { job with status := .failed }

/-- **Failing a job** either finds a job that cannot fail, or commits the move of
the job as it is committed now. -/
theorem wp_failJob {Q : Option RedactionJob → Shared Database World → List Write → Prop}
    (hF : ∀ e s' p', C.fault e → C.After s s' → E e s' p')
    (hidle : ∀ r s₁ s₂, C.After s s₁ →
      (∀ job, s₁.db.job? jobId = some job → .failed ∉ validTransitions job.status) →
      C.After s₁ s₂ → Q r s₂ [])
    (hcommit : ∀ s₁ s₂ job, C.After s s₁ → s₁.db.job? jobId = some job →
      .failed ∈ validTransitions job.status → C.After s₁ s₂ → C.allowed s₂ [failWrite job] →
      C.Lands (fun _ s₃ _ => ∀ r s₄, C.After s₃ s₄ → Q r s₄ []) s₂ [failWrite job]) :
    C.wp (failJob jobId) Q E s [] := by
  refine Contract.wp_closing (Contract.wp_bind (Contract.wp_query ?_ ?_))
  · exact fun e s₁ he hn₁ s' hn => hF e s' [] he (hn₁.after.trans hn.after)
  intro s₁ hn₁
  have h₁ := hn₁.after
  cases hjob : (view s₁.db []).job? jobId with
  | none =>
    rw [view_nil] at hjob
    intro s' hn
    refine hidle _ s₁ s' h₁ (fun job hj => ?_) hn.after
    rw [hjob] at hj
    cases hj
  | some job =>
    rw [view_nil] at hjob
    show C.wp (if .failed ∈ validTransitions job.status then _ else _) _ _ s₁ []
    split
    · rename_i hedge
      refine Contract.wp_bind (wp_transition_edge hedge (by decide) ?_ ?_)
      · exact fun e s' he hn s'' hn' => hF e s'' [] he ((h₁.trans hn.after).trans hn'.after)
      · intro s₂ hn₂
        refine Contract.wp_bind (Contract.wp_commit ?_ fun s₃ hn₃ hal => ?_)
        · exact fun e s' he hn s'' hn' =>
            hF e s'' [] he ((h₁.trans (hn₂.after.trans hn.after)).trans hn'.after)
        · obtain ⟨hi, hg, hq⟩ := hcommit s₁ s₃ job h₁ hjob hedge (hn₂.after.trans hn₃.after) hal
          exact ⟨hi, hg, fun s' hn => hq _ s' hn.after⟩
    · rename_i hedge
      intro s' hn
      refine hidle _ s₁ s' h₁ (fun job' hj => ?_) hn.after
      rw [hjob] at hj
      cases hj
      exact hedge

/-- **A guarded task** skips, works on the job it loaded, or handles what the work
raised. -/
theorem wp_guardedTask {α : Type} {consumes : JobStatus} {skipped : α}
    {work : RedactionJob → Tx α} {onError : Exn → Tx α}
    {Q : α → Shared Database World → List Write → Prop}
    (hF : ∀ e s', C.fault e → C.Now s [] s' → E e s' [])
    (hskip : ∀ s', C.Now s [] s' →
      (∀ job, s'.db.job? jobId = some job → job.status ≠ consumes) → Q skipped s' [])
    (hwork : ∀ s' job, C.Now s [] s' → s'.db.job? jobId = some job → job.status = consumes →
      C.wp (work job) Q (fun e => C.wp (do failTask jobId; onError e) Q E) s' []) :
    C.wp (guardedTask consumes jobId skipped work onError) Q E s [] := by
  refine Contract.wp_bind (Contract.wp_query hF fun s₁ hn₁ => ?_)
  cases hjob : (view s₁.db []).job? jobId with
  | none =>
    rw [view_nil] at hjob
    refine hskip s₁ hn₁ fun job hj => ?_
    rw [hjob] at hj
    cases hj
  | some job =>
    rw [view_nil] at hjob
    show C.wp (if job.status ≠ consumes then _ else _) _ _ s₁ []
    split
    · rename_i hne
      refine hskip s₁ hn₁ fun job' hj => ?_
      rw [hjob] at hj
      cases hj
      exact hne
    · rename_i heq
      exact Contract.wp_tryCatch (hwork s₁ job hn₁ hjob (not_not.mp heq))

/-! ### Where a task ends -/

/-- States a task may end in: they stay so, and a fault may end it anywhere. -/
structure Ending (C : Contract Database Write World Input Exn) (R : Shared Database World → Prop) :
    Prop where
  stable : ∀ s s', R s → C.After s s' → R s'
  fault : ∀ e s, C.fault e → C.inv s → R s

theorem ending_anywhere (C : Contract Database Write World Input Exn) : Ending C fun _ => True :=
  ⟨fun _ _ _ _ => trivial, fun _ _ _ _ => trivial⟩

variable {R : Shared Database World → Prop}

variable (C jobId) in
/-- A job that was in the state `consumes` when it was loaded may be failed. -/
def LandsFailure (consumes : JobStatus) (R : Shared Database World → Prop) : Prop :=
  ∀ s₀ s₁ s₂ job₀ job, C.inv s₀ → s₀.db.job? jobId = some job₀ → job₀.status = consumes →
    C.After s₀ s₁ → s₁.db.job? jobId = some job → .failed ∈ validTransitions job.status →
    C.After s₁ s₂ → C.allowed s₂ [failWrite job] → C.Lands (fun _ s _ => R s) s₂ [failWrite job]

variable (C jobId) in
/-- A job that was in the state `consumes` and cannot be failed any more. -/
def LeavesFailure (consumes : JobStatus) (R : Shared Database World → Prop) : Prop :=
  ∀ s₀ s₁ job₀, C.inv s₀ → s₀.db.job? jobId = some job₀ → job₀.status = consumes →
    C.After s₀ s₁ → (∀ job, s₁.db.job? jobId = some job → .failed ∉ validTransitions job.status) →
    R s₁

theorem ends_failJob (hR : Ending C R)
    (hidle : ∀ s₁, C.After s s₁ →
      (∀ job, s₁.db.job? jobId = some job → .failed ∉ validTransitions job.status) → R s₁)
    (hfail : ∀ s₁ s₂ job, C.After s s₁ → s₁.db.job? jobId = some job →
      .failed ∈ validTransitions job.status → C.After s₁ s₂ → C.allowed s₂ [failWrite job] →
      C.Lands (fun _ s _ => R s) s₂ [failWrite job]) :
    C.wp (failJob jobId) (fun _ s _ => R s) (fun _ s _ => R s) s [] := by
  refine wp_failJob (fun e s' _ he h' => hR.fault e s' he h'.inv)
    (fun _ s₁ s₂ h₁ hnone h₂ => hR.stable s₁ s₂ (hidle s₁ h₁ hnone) h₂) ?_
  intro s₁ s₂ job h₁ hjob hedge h₂ hal
  obtain ⟨hi, hg, hr⟩ := hfail s₁ s₂ job h₁ hjob hedge h₂ hal
  exact ⟨hi, hg, fun _ s₄ h₄ => hR.stable _ s₄ hr h₄⟩

theorem safe_failJob (hfail : ∀ s₁ s₂ job, C.After s s₁ → s₁.db.job? jobId = some job →
      .failed ∈ validTransitions job.status → C.After s₁ s₂ → C.allowed s₂ [failWrite job] →
      C.Lands (fun _ _ _ => True) s₂ [failWrite job]) : C.Safe (failJob jobId) s [] :=
  ends_failJob (ending_anywhere C) (fun _ _ _ => trivial) hfail

/-- What a task does between the load and its commit: it raises only before it has
committed anything. -/
def Tries {α : Type} (C : Contract Database Write World Input Exn)
    (R : Shared Database World → Prop) (work : Tx α) (s : Shared Database World) : Prop :=
  C.wp work (fun _ s' _ => R s') (fun _ s' _ => C.After s s') s []

/-- **A guarded task** ends in `R` if skipping does, if its work does, and if failing
the job does. -/
theorem ends_guardedTask {α : Type} {consumes : JobStatus} {skipped : α}
    {work : RedactionJob → Tx α} {onError : Exn → Tx α} (hR : Ending C R)
    (hskip : ∀ s', C.inv s' → (∀ job, s'.db.job? jobId = some job → job.status ≠ consumes) → R s')
    (hfail : LandsFailure C jobId consumes R) (hidle : LeavesFailure C jobId consumes R)
    (hend : ∀ e s p, R s → C.wp (onError e) (fun _ s _ => R s) (fun _ s _ => R s) s p)
    (hwork : ∀ s' job, C.inv s' → s'.db.job? jobId = some job → job.status = consumes →
      Tries C R (work job) s') :
    C.wp (guardedTask consumes jobId skipped work onError) (fun _ s _ => R s) (fun _ s _ => R s)
      s [] := by
  refine wp_guardedTask (fun e s' he hn => hR.fault e s' he hn.inv)
    (fun s' hn hne => hskip s' hn.inv hne) fun s₀ job₀ hn hjob₀ hst => ?_
  refine Contract.wp_mono (fun _ _ _ h => h) (fun e s' p' h' => ?_) _
    (hwork s₀ job₀ hn.inv hjob₀ hst)
  refine Contract.wp_bind (Contract.wp_bind fun s₁ hn₁ => Contract.wp_bind (Contract.wp_mono
    (fun _ s p h => hend e s p h) (fun _ _ _ h => h) _ (ends_failJob hR ?_ ?_)))
  · intro s₂ h₂ hnone
    exact hidle s₀ s₂ job₀ hn.inv hjob₀ hst ((h'.trans hn₁.after).trans h₂) hnone
  · intro s₂ s₃ job h₂ hjob hedge h₃ hal
    exact hfail s₀ s₂ s₃ job₀ job hn.inv hjob₀ hst ((h'.trans hn₁.after).trans h₂) hjob hedge h₃ hal

theorem safe_guardedTask {α : Type} {consumes : JobStatus} {skipped : α}
    {work : RedactionJob → Tx α} {onError : Exn → Tx α}
    (hfail : LandsFailure C jobId consumes fun _ => True)
    (hend : ∀ e s p, C.Safe (onError e) s p)
    (hwork : ∀ s' job, C.inv s' → s'.db.job? jobId = some job → job.status = consumes →
      Tries C (fun _ => True) (work job) s') :
    C.Safe (guardedTask consumes jobId skipped work onError) s [] :=
  ends_guardedTask (ending_anywhere C) (fun _ _ _ => trivial) hfail (fun _ _ _ _ _ _ _ _ => trivial)
    (fun e s p _ => hend e s p) hwork

theorem ends_closing {α : Type} {prog : Tx α} (hR : Ending C R)
    (h : C.wp prog (fun _ s _ => R s) (fun _ s _ => R s) s p) :
    C.wp prog.closing (fun _ s _ => R s) (fun _ s _ => R s) s p :=
  Contract.wp_closing (Contract.wp_mono (fun _ s _ hr s' hn => hR.stable s s' hr hn.after)
    (fun _ s _ hr s' hn => hR.stable s s' hr hn.after) _ h)

theorem safe_closing {α : Type} {prog : Tx α} (h : C.Safe prog s p) : C.Safe prog.closing s p :=
  ends_closing (ending_anywhere C) h

theorem anything_escapes (s : Shared Database World) : C.Escapes (fun _ _ _ => True) s :=
  fun _ _ _ _ => trivial

end

end RedactApi
