import RedactApi.Core.Tenants

/-!
# The membership endpoints

`api/memberships.py` and `services/membership_service.py`.  A request either
raises, and its session is rolled back, or answers with the tables it commits.
-/

namespace RedactApi

/-! ### The service -/

def Directory.membership? (d : Directory) (membershipId : UUID) : Option Membership :=
  d.memberships.find? (·.id = membershipId)

structure MembershipCreate where
  userId : UUID
  organizationId : UUID
  role : MembershipRole
  deriving DecidableEq, Repr

/-- `payload.model_dump(exclude_unset=True)`: unset, `null`, or a role. -/
structure MembershipUpdate where
  role : Option (Option MembershipRole)
  deriving DecidableEq, Repr

def MembershipCreate.row (payload : MembershipCreate) (id : UUID) : Membership :=
  ⟨id, payload.userId, payload.organizationId, payload.role⟩

def alreadyMemberMessage : String := "User is already a member of this organization"

/-- The insert; a second membership of a user in an organisation is a conflict. -/
def createMembership (d : Directory) (payload : MembershipCreate) (id : UUID) :
    Except Exn Directory :=
  if hpair : (payload.userId, payload.organizationId) ∈
      d.memberships.map fun m => (m.userId, m.organizationId) then
    .error (.http 409 (.text alreadyMemberMessage))
  else if hid : id ∈ d.memberships.map (·.id) then .error .integrity
  else .ok { d with
    memberships := d.memberships ++ [payload.row id]
    membership_pk := by
      rw [List.map_append, List.map_singleton, ← List.concat_eq_append]
      exact List.Nodup.concat hid d.membership_pk
    membership_user_org := by
      rw [List.map_append, List.map_singleton, ← List.concat_eq_append]
      exact List.Nodup.concat hpair d.membership_user_org }

def Membership.withRole (id : UUID) (role : MembershipRole) (m : Membership) : Membership :=
  if m.id = id then { m with role := role } else m

@[simp] theorem Membership.withRole_id (id : UUID) (role : MembershipRole) (m : Membership) :
    (m.withRole id role).id = m.id := by
  rw [Membership.withRole]; split <;> rfl

@[simp] theorem Membership.withRole_userId (id : UUID) (role : MembershipRole) (m : Membership) :
    (m.withRole id role).userId = m.userId := by
  rw [Membership.withRole]; split <;> rfl

@[simp] theorem Membership.withRole_organizationId (id : UUID) (role : MembershipRole)
    (m : Membership) : (m.withRole id role).organizationId = m.organizationId := by
  rw [Membership.withRole]; split <;> rfl

/-- Only the role can be set; the column is not nullable. -/
def updateMembership (d : Directory) (membership : Membership) (payload : MembershipUpdate) :
    Except Exn Directory :=
  match payload.role with
  | none => .ok d
  | some none => .error .integrity
  | some (some role) => .ok { d with
      memberships := d.memberships.map (Membership.withRole membership.id role)
      membership_pk := by
        simpa only [List.map_map, Function.comp_def, Membership.withRole_id] using d.membership_pk
      membership_user_org := by
        simpa only [List.map_map, Function.comp_def, Membership.withRole_userId,
          Membership.withRole_organizationId] using d.membership_user_org }

def deleteMembership (d : Directory) (membership : Membership) : Directory :=
  { d with
    memberships := d.memberships.filter (·.id ≠ membership.id)
    membership_pk := d.membership_pk.sublist (List.filter_sublist.map _)
    membership_user_org := d.membership_user_org.sublist (List.filter_sublist.map _) }

/-! ### The endpoints -/

def Directory.organization? (d : Directory) (organizationId : UUID) : Option Organization :=
  d.organizations.find? (·.id = organizationId)

/-- Requires `admin` in the tenant; the organisation is that of the payload. -/
def createMembershipEndpoint (d : Directory) (tenant : TenantContext) (payload : MembershipCreate)
    (id : UUID) : Except Exn Directory := do
  requireRole tenant .admin
  if payload.userId ∉ d.users then .error (.http 400 (.text "User does not exist"))
  else if (d.organization? payload.organizationId).isNone then
    .error (.http 400 (.text "Organization does not exist"))
  else createMembership d payload id

def membershipNotFound : Exn := .http 404 (.text "Membership not found")

/-- Requires `owner` in the tenant; the membership is any. -/
def updateMembershipEndpoint (d : Directory) (tenant : TenantContext) (membershipId : UUID)
    (payload : MembershipUpdate) : Except Exn Directory := do
  requireRole tenant .owner
  match d.membership? membershipId with
  | none => .error membershipNotFound
  | some membership =>
    if membership.userId = tenant.userId then
      .error (.http 403 (.text "Cannot change your own role"))
    else updateMembership d membership payload

/-- Requires `admin` in the tenant; the membership is any. -/
def deleteMembershipEndpoint (d : Directory) (tenant : TenantContext) (membershipId : UUID) :
    Except Exn Directory := do
  requireRole tenant .admin
  match d.membership? membershipId with
  | none => .error membershipNotFound
  | some membership => .ok (deleteMembership d membership)

end RedactApi
