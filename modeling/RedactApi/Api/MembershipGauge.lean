import RedactApi.Api.Organizations

/-!
# The gauge of active memberships

`active_memberships_gauge` is moved by the services that create and delete memberships
and by the deletion of an organisation.  `create_org` and `handle_registration` insert
their OWNER row without the service, and a user's rows go by the cascade of the database.
So the gauge is off by the rows that came and went on these ways (`commit_gauge`).
-/

namespace RedactApi

/-! ### The endpoints beside the membership service -/

structure User where
  id : UUID
  email : String
  name : String
  kratosIdentityId : Option UUID
  deriving DecidableEq, Repr

/-- The tables of the administration and the gauge.  `directory.users` are the keys of
`accounts`; `referenced` are the users that an audit entry or a disposition refers to. -/
structure Administration where
  directory : Directory
  accounts : List User
  referenced : List UUID
  gauge : Int

def Administration.rows (s : Administration) : Nat := s.directory.memberships.length

def insertOrganization (d : Directory) (organization : Organization) : Except Exn Directory :=
  if hid : organization.id ∈ d.organizations.map (·.id) then .error .integrity
  else .ok { d with
    organizations := d.organizations ++ [organization]
    organization_pk := by
      rw [List.map_append, List.map_singleton, ← List.concat_eq_append]
      exact List.Nodup.concat hid d.organization_pk }

/-- Insert a membership without the service. -/
def insertMembership (d : Directory) (row : Membership) : Except Exn Directory :=
  if hpair : ∃ m ∈ d.memberships, m.userId = row.userId ∧ m.organizationId = row.organizationId then
    .error .integrity
  else if hid : row.id ∈ d.memberships.map (·.id) then .error .integrity
  else if row.userId ∉ d.users ∨ row.organizationId ∉ d.organizations.map (·.id) then
    .error .integrity
  else .ok { d with
    memberships := d.memberships ++ [row]
    membership_pk := by
      rw [List.map_append, List.map_singleton, ← List.concat_eq_append]
      exact List.Nodup.concat hid d.membership_pk
    membership_user_org := by
      rw [List.map_append, List.map_singleton, ← List.concat_eq_append]
      exact List.Nodup.concat (by simpa using hpair) d.membership_user_org }

/-- `create_org`: the organisation and the OWNER membership of the caller. -/
def createOrg (d : Directory) (tenant : TenantContext) (name : String)
    (organizationId membershipId : UUID) : Except Exn Directory := do
  let name ← validateName name
  let d ← insertOrganization d ⟨organizationId, name⟩
  insertMembership d ⟨membershipId, tenant.userId, organizationId, .owner⟩

/-- The payload of the registration webhook; an `id` that is no UUID is `none`. -/
structure KratosRegistrationPayload where
  id : Option UUID
  email : String
  name : Option (List (String × String))
  deriving DecidableEq, Repr

/-- The name from the traits, or the local part of the address. -/
def KratosRegistrationPayload.fullName (payload : KratosRegistrationPayload) : String :=
  let nameParts := payload.name.getD []
  let firstName := (nameParts.lookup "first").getD ""
  let lastName := (nameParts.lookup "last").getD ""
  let joined := strip (firstName ++ " " ++ lastName).toList
  if joined = [] then String.ofList (payload.email.toList.takeWhile (· ≠ '@')) else String.ofList joined

structure Registered where
  status : String
  userId : UUID
  organizationId : Option UUID
  deriving DecidableEq, Repr

/-- Insert a user; e-mail address and Kratos identity are unique. -/
def insertUser (s : Administration) (user : User) : Except Exn Administration :=
  if user.id ∈ s.directory.users ∨ user.email ∈ s.accounts.map (·.email) ∨
      (user.kratosIdentityId.isSome ∧ user.kratosIdentityId ∈ s.accounts.map (·.kratosIdentityId)) then
    .error .integrity
  else .ok { s with
    directory := { s.directory with users := s.directory.users ++ [user.id] }
    accounts := s.accounts ++ [user] }

def Administration.userOf (s : Administration) (identityId : UUID) : Option User :=
  s.accounts.find? (·.kratosIdentityId = some identityId)

/-- `handle_registration`: user, default organisation and OWNER membership, once for each
identity. -/
def handleRegistration (s : Administration) (payload : KratosRegistrationPayload)
    (userId organizationId membershipId : UUID) : Except Exn (Administration × Registered) :=
  match payload.id with
  | none => .error (.value "badly formed hexadecimal UUID string")
  | some identityId =>
    match s.userOf identityId with
    | some existingUser =>
      let membership := s.directory.memberships.find? fun m =>
        m.userId = existingUser.id ∧ m.role = .owner
      .ok (s, ⟨"already_exists", existingUser.id, membership.map (·.organizationId)⟩)
    | none => do
      let s ← insertUser s ⟨userId, payload.email, payload.fullName, some identityId⟩
      let d ← insertOrganization s.directory ⟨organizationId, payload.fullName ++ "'s Organization"⟩
      let d ← insertMembership d ⟨membershipId, userId, organizationId, .owner⟩
      return ({ s with directory := d }, ⟨"created", userId, some organizationId⟩)

def Directory.membershipsOfUser (d : Directory) (userId : UUID) : List Membership :=
  d.memberships.filter (·.userId = userId)

/-- The delete of a user cascades to the memberships; audit entries and dispositions
restrict it. -/
def deleteUser (s : Administration) (user : User) : Except Exn Administration :=
  if user.id ∈ s.referenced then .error .integrity
  else .ok { s with
    accounts := s.accounts.filter (·.id ≠ user.id)
    directory := { s.directory with
      users := s.directory.users.filter (· ≠ user.id)
      memberships := s.directory.memberships.filter (·.userId ≠ user.id)
      membership_pk := s.directory.membership_pk.sublist (List.filter_sublist.map _)
      membership_user_org := s.directory.membership_user_org.sublist (List.filter_sublist.map _) } }

def deleteUserEndpoint (s : Administration) (currentUser userId : UUID) :
    Except Exn Administration :=
  if currentUser ≠ userId then .error (.http 403 (.text "Cannot delete other users"))
  else match s.accounts.find? (·.id = userId) with
    | none => .error (.http 404 (.text "User not found"))
    | some user => deleteUser s user

/-! ### What the services do to the gauge -/

def createMembershipCounted (s : Administration) (tenant : TenantContext)
    (payload : MembershipCreate) (id : UUID) : Except Exn Administration := do
  let d ← createMembershipEndpoint s.directory tenant payload id
  return { s with directory := d, gauge := s.gauge + 1 }

/-- The gauge goes down if the statement has deleted the row, which was read before and may
be gone. -/
def deleteMembershipCounted (s : Administration) (membership : Membership) : Administration :=
  let rowcount := (s.directory.memberships.filter (·.id = membership.id)).length
  { s with
    directory := deleteMembership s.directory membership
    gauge := if rowcount > 0 then s.gauge - 1 else s.gauge }

/-- The gauge goes down by the memberships counted before the delete. -/
def deleteOrganizationCounted (s : Administration) (organization : Organization) :
    Except Exn Administration := do
  let membershipCount :=
    (s.directory.memberships.filter (·.organizationId = organization.id)).length
  let d ← deleteOrganization s.directory organization
  return { s with
    directory := d
    gauge := if membershipCount > 0 then s.gauge - membershipCount else s.gauge }

def deleteOrgCounted (s : Administration) (tenant : TenantContext) (organizationId : UUID) :
    Except Exn Administration := do
  requireRole tenant .owner
  match getOrganization s.directory organizationId tenant.userId with
  | none => .error organizationNotFound
  | some organization => deleteOrganizationCounted s organization

/-! ### Committed operations -/

/-- What changes the membership table; fresh identifiers are given. -/
inductive MembershipOperation
  | createMembership (tenant : TenantContext) (payload : MembershipCreate) (id : UUID)
  | deleteMembership (membership : Membership)
  | createOrg (tenant : TenantContext) (name : String) (organizationId membershipId : UUID)
  | deleteOrg (tenant : TenantContext) (organizationId : UUID)
  | handleRegistration (payload : KratosRegistrationPayload)
      (userId organizationId membershipId : UUID)
  | deleteUser (currentUser userId : UUID)
  deriving DecidableEq, Repr

/-- The state an operation commits, or its exception.  `delete_membership_endpoint` commits
before it answers that the row was gone. -/
def commitOperation (s : Administration) : MembershipOperation → Except Exn Administration
  | .createMembership tenant payload id => createMembershipCounted s tenant payload id
  | .deleteMembership membership => .ok (deleteMembershipCounted s membership)
  | .createOrg tenant name organizationId membershipId => do
    let d ← createOrg s.directory tenant name organizationId membershipId
    return { s with directory := d }
  | .deleteOrg tenant organizationId => deleteOrgCounted s tenant organizationId
  | .handleRegistration payload userId organizationId membershipId => do
    let registered ← handleRegistration s payload userId organizationId membershipId
    return registered.1
  | .deleteUser currentUser userId => deleteUserEndpoint s currentUser userId

/-- A sequence of committed operations, each with the state it starts from. -/
inductive CommittedRun : Administration → List (Administration × MembershipOperation) →
    Administration → Prop
  | nil (s : Administration) : CommittedRun s [] s
  | cons {s s₁ s' : Administration} {operation : MembershipOperation}
      {steps : List (Administration × MembershipOperation)} :
      commitOperation s operation = .ok s₁ → CommittedRun s₁ steps s' →
      CommittedRun s ((s, operation) :: steps) s'

/-- The OWNER rows inserted without the service: one for a new organisation, one for a
registration of an identity that is not known. -/
def ownersAdded (s : Administration) : MembershipOperation → Nat
  | .createOrg _ _ _ _ => 1
  | .handleRegistration payload _ _ _ => if (payload.id.bind s.userOf).isSome then 0 else 1
  | _ => 0

/-- The rows that go with a user. -/
def rowsCascaded (s : Administration) : MembershipOperation → Nat
  | .deleteUser _ userId => (s.directory.membershipsOfUser userId).length
  | _ => 0

/-! ### One operation -/

theorem length_filter_add {α : Type} (p : α → Bool) (l : List α) :
    (l.filter p).length + (l.filter fun a => !p a).length = l.length := by
  rw [← List.countP_eq_length_filter, ← List.countP_eq_length_filter,
    List.length_eq_countP_add_countP p]
  simp

theorem createMembership_length {d d' : Directory} {payload : MembershipCreate} {id : UUID}
    (h : createMembership d payload id = .ok d') :
    d'.memberships.length = d.memberships.length + 1 := by
  rw [createMembership] at h
  split at h
  · cases h
  · split at h
    · cases h
    · cases h
      exact List.length_append

theorem createMembershipEndpoint_length {d d' : Directory} {tenant : TenantContext}
    {payload : MembershipCreate} {id : UUID}
    (h : createMembershipEndpoint d tenant payload id = .ok d') :
    d'.memberships.length = d.memberships.length + 1 := by
  obtain ⟨_, -, h⟩ := bind_ok h
  split at h
  · cases h
  · split at h
    · cases h
    · exact createMembership_length h

theorem insertMembership_length {d d' : Directory} {row : Membership}
    (h : insertMembership d row = .ok d') : d'.memberships.length = d.memberships.length + 1 := by
  rw [insertMembership] at h
  split at h
  · cases h
  · split at h
    · cases h
    · split at h
      · cases h
      · cases h
        exact List.length_append

theorem insertOrganization_memberships {d d' : Directory} {organization : Organization}
    (h : insertOrganization d organization = .ok d') : d'.memberships = d.memberships := by
  rw [insertOrganization] at h
  split at h
  · cases h
  · cases h
    rfl

theorem createOrg_length {d d' : Directory} {tenant : TenantContext} {name : String}
    {organizationId membershipId : UUID}
    (h : createOrg d tenant name organizationId membershipId = .ok d') :
    d'.memberships.length = d.memberships.length + 1 := by
  obtain ⟨_, -, h⟩ := bind_ok h
  obtain ⟨d₁, horganization, h⟩ := bind_ok h
  rw [insertMembership_length h, insertOrganization_memberships horganization]

theorem insertUser_memberships {s s' : Administration} {user : User}
    (h : insertUser s user = .ok s') :
    s'.directory.memberships = s.directory.memberships ∧ s'.gauge = s.gauge := by
  rw [insertUser] at h
  split at h
  · cases h
  · cases h
    exact ⟨rfl, rfl⟩

/-- A known identity changes nothing, a new one adds a row; the gauge stays. -/
theorem handleRegistration_rows {s : Administration} {payload : KratosRegistrationPayload}
    {userId organizationId membershipId : UUID} {registered : Administration × Registered}
    (h : handleRegistration s payload userId organizationId membershipId = .ok registered) :
    registered.1.rows = s.rows + (if (payload.id.bind s.userOf).isSome then 0 else 1) ∧
      registered.1.gauge = s.gauge := by
  rw [handleRegistration] at h
  cases hid : payload.id with
  | none =>
    rw [hid] at h
    cases h
  | some identityId =>
    rw [hid] at h
    dsimp only at h
    rw [Option.bind_some]
    cases hknown : s.userOf identityId with
    | some existingUser =>
      rw [hknown] at h
      cases h
      exact ⟨rfl, rfl⟩
    | none =>
      rw [hknown] at h
      obtain ⟨s₁, huser, h⟩ := bind_ok h
      obtain ⟨d₁, horganization, h⟩ := bind_ok h
      obtain ⟨d₂, hmembership, h⟩ := bind_ok h
      cases h
      obtain ⟨hmemberships, hgauge⟩ := insertUser_memberships huser
      refine ⟨?_, hgauge⟩
      simp only [Administration.rows]
      rw [insertMembership_length hmembership, insertOrganization_memberships horganization,
        hmemberships]
      rfl

/-- A membership that is gone is not counted again. -/
theorem deleteMembershipCounted_gauge (s : Administration) (membership : Membership) :
    (deleteMembershipCounted s membership).gauge - s.gauge =
      (deleteMembershipCounted s membership).rows - s.rows := by
  have hle : (s.directory.memberships.filter (·.id = membership.id)).length ≤ 1 := by
    have hnodup : ((s.directory.memberships.filter (·.id = membership.id)).map (·.id)).Nodup :=
      s.directory.membership_pk.sublist (List.filter_sublist.map _)
    cases hrows : s.directory.memberships.filter (·.id = membership.id) with
    | nil => simp
    | cons m rest =>
      cases rest with
      | nil => simp
      | cons m' rest =>
        have hm : m ∈ s.directory.memberships.filter (·.id = membership.id) := by simp [hrows]
        have hm' : m' ∈ s.directory.memberships.filter (·.id = membership.id) := by simp [hrows]
        rw [hrows] at hnodup
        simp only [List.mem_filter, decide_eq_true_eq] at hm hm'
        simp [hm.2, hm'.2] at hnodup
  have hsplit := length_filter_add (fun m : Membership => decide (m.id = membership.id))
    s.directory.memberships
  have hdeleted : (deleteMembershipCounted s membership).rows =
      (s.directory.memberships.filter fun m => !decide (m.id = membership.id)).length := by
    simp [deleteMembershipCounted, deleteMembership, Administration.rows]
  rw [hdeleted, deleteMembershipCounted, Administration.rows]
  dsimp only
  split <;> omega

theorem deleteOrganizationCounted_gauge {s s' : Administration} {organization : Organization}
    (h : deleteOrganizationCounted s organization = .ok s') :
    s'.gauge - s.gauge = s'.rows - s.rows := by
  obtain ⟨d, hdelete, h⟩ := bind_ok h
  cases h
  rw [deleteOrganization] at hdelete
  split at hdelete
  · cases hdelete
  · cases hdelete
    have hsplit := length_filter_add
      (fun m : Membership => decide (m.organizationId = organization.id)) s.directory.memberships
    have hrest : (s.directory.memberships.filter (·.organizationId ≠ organization.id)).length =
        (s.directory.memberships.filter
          fun m => !decide (m.organizationId = organization.id)).length := by
      simp
    simp only [Administration.rows]
    rw [hrest]
    split <;> omega

theorem deleteUser_rows {s s' : Administration} {user : User} (h : deleteUser s user = .ok s') :
    s'.rows + (s.directory.membershipsOfUser user.id).length = s.rows ∧ s'.gauge = s.gauge := by
  rw [deleteUser] at h
  split at h
  · cases h
  · cases h
    have hsplit := length_filter_add (fun m : Membership => decide (m.userId = user.id))
      s.directory.memberships
    have hrest : (s.directory.memberships.filter (·.userId ≠ user.id)).length =
        (s.directory.memberships.filter fun m => !decide (m.userId = user.id)).length := by
      simp
    refine ⟨?_, rfl⟩
    simp only [Administration.rows, Directory.membershipsOfUser]
    rw [hrest]
    omega

/-- **What the gauge misses**: the OWNER rows inserted without the service, and the rows
that go with a user. -/
theorem commit_gauge {s s' : Administration} {operation : MembershipOperation}
    (h : commitOperation s operation = .ok s') :
    s'.gauge - s.gauge + ownersAdded s operation =
      s'.rows - s.rows + rowsCascaded s operation := by
  cases operation with
  | createMembership tenant payload id =>
    obtain ⟨d, hd, h⟩ := bind_ok h
    cases h
    have hlength := createMembershipEndpoint_length hd
    simp only [ownersAdded, rowsCascaded, Administration.rows]
    omega
  | deleteMembership membership =>
    cases h
    have hgauge := deleteMembershipCounted_gauge s membership
    simp only [ownersAdded, rowsCascaded]
    omega
  | createOrg tenant name organizationId membershipId =>
    obtain ⟨d, hd, h⟩ := bind_ok h
    cases h
    have hlength := createOrg_length hd
    simp only [ownersAdded, rowsCascaded, Administration.rows]
    omega
  | deleteOrg tenant organizationId =>
    obtain ⟨_, -, h⟩ := bind_ok h
    split at h
    · cases h
    · have hgauge := deleteOrganizationCounted_gauge h
      simp only [ownersAdded, rowsCascaded]
      omega
  | handleRegistration payload userId organizationId membershipId =>
    obtain ⟨registered, hregistered, h⟩ := bind_ok h
    cases h
    obtain ⟨hrows, hgauge⟩ := handleRegistration_rows hregistered
    simp only [ownersAdded, rowsCascaded]
    omega
  | deleteUser currentUser userId =>
    simp only [commitOperation, deleteUserEndpoint] at h
    split at h
    · cases h
    · split at h
      · cases h
      · rename_i user hfound
        have hid : user.id = userId := by simpa using List.find?_some hfound
        obtain ⟨hrows, hgauge⟩ := deleteUser_rows h
        rw [hid] at hrows
        simp only [ownersAdded, rowsCascaded]
        omega

/-! ### Runs -/

/-- The net change of the gauge is that of the rows. -/
def GaugeAgrees (s s' : Administration) : Prop := s'.gauge - s.gauge = s'.rows - s.rows

instance (s s' : Administration) : Decidable (GaugeAgrees s s') :=
  inferInstanceAs (Decidable (_ = _))

/-- The operation moves no row behind the gauge. -/
def GaugeInStep (step : Administration × MembershipOperation) : Prop :=
  ownersAdded step.1 step.2 = 0 ∧ rowsCascaded step.1 step.2 = 0

/-- Over a run the gauge misses what its operations miss. -/
theorem CommittedRun.gauge {s s' : Administration}
    {steps : List (Administration × MembershipOperation)} (h : CommittedRun s steps s') :
    s'.gauge - s.gauge + (steps.map fun step => ownersAdded step.1 step.2).sum =
      s'.rows - s.rows + (steps.map fun step => rowsCascaded step.1 step.2).sum := by
  induction h with
  | nil s => simp
  | cons hcommit _ ih =>
    have hstep := commit_gauge hcommit
    simp only [List.map_cons, List.sum_cons]
    omega

theorem CommittedRun.agrees_iff {s s' : Administration}
    {steps : List (Administration × MembershipOperation)} (h : CommittedRun s steps s') :
    GaugeAgrees s s' ↔ (steps.map fun step => ownersAdded step.1 step.2).sum =
      (steps.map fun step => rowsCascaded step.1 step.2).sum := by
  have hgauge := h.gauge
  unfold GaugeAgrees
  omega

theorem GaugeAgrees.trans_iff {s s₁ s' : Administration} (h : GaugeAgrees s s₁) :
    GaugeAgrees s s' ↔ GaugeAgrees s₁ s' := by
  unfold GaugeAgrees at h ⊢
  omega

/-- One operation keeps step with the gauge unless it inserts or cascades; no operation
does both. -/
theorem agrees_commit_iff {s s' : Administration} {operation : MembershipOperation}
    (h : commitOperation s operation = .ok s') : GaugeAgrees s s' ↔ GaugeInStep (s, operation) := by
  have hgauge := commit_gauge h
  have heither : ownersAdded s operation = 0 ∨ rowsCascaded s operation = 0 := by
    cases operation <;> simp [ownersAdded, rowsCascaded]
  unfold GaugeAgrees GaugeInStep
  dsimp only
  omega

/-- The gauge is right in every state of a run when no operation moves rows behind it. -/
theorem CommittedRun.agrees_throughout_iff {s s' : Administration}
    {steps : List (Administration × MembershipOperation)} (h : CommittedRun s steps s') :
    ((∀ step ∈ steps, GaugeAgrees s step.1) ∧ GaugeAgrees s s') ↔ ∀ step ∈ steps, GaugeInStep step := by
  induction h with
  | nil s => simp [GaugeAgrees]
  | @cons s s₁ s' operation steps hcommit hrun ih =>
    have hself : GaugeAgrees s s := by simp [GaugeAgrees]
    rw [List.forall_mem_cons, List.forall_mem_cons, ← agrees_commit_iff hcommit]
    dsimp only
    constructor
    · rintro ⟨⟨-, hsteps⟩, hlast⟩
      have hfirst : GaugeAgrees s s₁ := by
        cases hrun with
        | nil => exact hlast
        | cons _ _ => exact hsteps _ List.mem_cons_self
      refine ⟨hfirst, ih.mp ⟨fun step hstep => ?_, hfirst.trans_iff.mp hlast⟩⟩
      exact hfirst.trans_iff.mp (hsteps step hstep)
    · rintro ⟨hfirst, hsteps⟩
      obtain ⟨hall, hlast⟩ := ih.mpr hsteps
      exact ⟨⟨hself, fun step hstep => hfirst.trans_iff.mpr (hall step hstep)⟩,
        hfirst.trans_iff.mpr hlast⟩

/-- **When the gauge tracks the table.**  Over a sequence of committed operations the net
changes agree exactly when as many OWNER rows came with new organisations and registrations
as rows went with their users; they agree at every point exactly when none did. -/
theorem gauge_tracks_rows_iff {s s' : Administration}
    {steps : List (Administration × MembershipOperation)} (h : CommittedRun s steps s') :
    (GaugeAgrees s s' ↔ (steps.map fun step => ownersAdded step.1 step.2).sum =
      (steps.map fun step => rowsCascaded step.1 step.2).sum) ∧
    (((∀ step ∈ steps, GaugeAgrees s step.1) ∧ GaugeAgrees s s') ↔ ∀ step ∈ steps, GaugeInStep step) :=
  ⟨h.agrees_iff, h.agrees_throughout_iff⟩

def oneOwner : Administration where
  directory := ⟨[2, 5], [⟨3, "Acme"⟩], [⟨4, 2, 3, .owner⟩], [], by decide, by decide, by decide⟩
  accounts := [⟨2, "jane@example.com", "Jane", none⟩, ⟨5, "joe@example.com", "Joe", none⟩]
  referenced := []
  gauge := 1

/-- The user is added, removed, and removed again. -/
theorem gauge_tracks_rows_iff_added : ∃ steps s', CommittedRun oneOwner steps s' ∧
    steps.length = 3 ∧ GaugeAgrees oneOwner s' := by
  have hrun : CommittedRun oneOwner [(oneOwner, .createMembership ⟨3, 2, .owner⟩ ⟨5, 3, .member⟩ 6),
      (_, .deleteMembership ⟨6, 5, 3, .member⟩), (_, .deleteMembership ⟨6, 5, 3, .member⟩)] _ :=
    .cons rfl (.cons rfl (.cons rfl (.nil _)))
  exact ⟨_, _, hrun, rfl, (gauge_tracks_rows_iff hrun).1.mpr rfl⟩

def emptyAdministration : Administration where
  directory := ⟨[], [], [], [], List.nodup_nil, List.nodup_nil, List.nodup_nil⟩
  accounts := []
  referenced := []
  gauge := 0

def janeRegisters : MembershipOperation :=
  .handleRegistration ⟨some 1, "jane@example.com", some [("first", "Jane"), ("last", "Doe")]⟩ 2 3 4

/-- After a registration and the deletion of its membership there are no rows and the gauge
is below zero. -/
theorem gauge_drifts : emptyAdministration.rows = 0 ∧ emptyAdministration.gauge = 0 ∧
    ∃ steps s', CommittedRun emptyAdministration steps s' ∧ s'.rows = 0 ∧ s'.gauge = -1 ∧
      ¬ GaugeAgrees emptyAdministration s' := by
  have hrun : CommittedRun emptyAdministration [(emptyAdministration, janeRegisters),
      (_, .deleteMembership ⟨4, 2, 3, .owner⟩)] _ := .cons rfl (.cons rfl (.nil _))
  exact ⟨rfl, rfl, _, _, hrun, rfl, rfl, by decide⟩

end RedactApi
