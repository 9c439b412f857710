import Mathlib.Data.List.Nodup
import RedactApi.Models

/-!
# Tenants and roles

`core/tenants.py` and `core/permissions.py`: the organisation a request acts
for, the caller's role in it, and the role hierarchy.
-/

namespace RedactApi

inductive MembershipRole
  | owner | admin | member
  deriving DecidableEq, Repr

structure Membership where
  id : UUID
  userId : UUID
  organizationId : UUID
  role : MembershipRole
  deriving DecidableEq, Repr

structure Organization where
  id : UUID
  name : String
  deriving DecidableEq, Repr

/-- The tables the administration works on, with their unique constraints.
`audited` are the organisations an audit entry refers to; those rows cannot be
deleted. -/
structure Directory where
  users : List UUID
  organizations : List Organization
  memberships : List Membership
  audited : List UUID
  organization_pk : (organizations.map (·.id)).Nodup
  membership_pk : (memberships.map (·.id)).Nodup
  membership_user_org : (memberships.map fun m => (m.userId, m.organizationId)).Nodup

structure TenantContext where
  organizationId : UUID
  userId : UUID
  role : MembershipRole
  deriving DecidableEq, Repr

/-- Where a request names its organisation: in the token, in the path, in the
query.  A text that is no UUID is `some none`. -/
structure TenantSources where
  token : Option UUID
  path : Option (Option UUID)
  query : Option (Option UUID)
  deriving DecidableEq, Repr

def Directory.roleOf (d : Directory) (userId organizationId : UUID) : Option MembershipRole :=
  (d.memberships.find? fun m => m.userId = userId ∧ m.organizationId = organizationId).map (·.role)

/-- `_extract_org_id_from_path` and `_extract_org_id_from_query`. -/
def extractOrgId (source : Option (Option UUID)) (message : String) : Except Exn (Option UUID) :=
  match source with
  | none => .ok none
  | some none => .error (.http 400 (.text message))
  | some (some id) => .ok (some id)

/-- Token first, then path, then query. -/
def extractOrganization (sources : TenantSources) : Except Exn (Option UUID) :=
  match sources.token with
  | some id => .ok (some id)
  | none => do
    match ← extractOrgId sources.path "Invalid organization ID format in path" with
    | some id => .ok (some id)
    | none => extractOrgId sources.query "Invalid organization ID format in query"

/-- The tenant context of a request: the user must be a member. -/
def validateTenantContext (d : Directory) (userId : UUID) (sources : TenantSources) :
    Except Exn TenantContext := do
  match ← extractOrganization sources with
  | none => .error (.http 403 (.text "Organization context required but not provided"))
  | some organizationId =>
    match d.roleOf userId organizationId with
    | none => .error (.http 403 (.text "User does not have access to this organization"))
    | some role => .ok ⟨organizationId, userId, role⟩

/-! ### Roles -/

def MembershipRole.rank : MembershipRole → Nat
  | .owner => 3
  | .admin => 2
  | .member => 1

def roleHierarchyCheck (userRole requiredRole : MembershipRole) : Bool :=
  requiredRole.rank ≤ userRole.rank

/-- The check looks at the role in the tenant's organisation. -/
def requireRole (tenant : TenantContext) (requiredRole : MembershipRole) : Except Exn Unit :=
  if roleHierarchyCheck tenant.role requiredRole then .ok ()
  else .error (.http 403 (.text "Insufficient permissions"))

theorem validateTenantContext_role {d : Directory} {userId : UUID} {sources : TenantSources}
    {tenant : TenantContext} (h : validateTenantContext d userId sources = .ok tenant) :
    tenant.userId = userId ∧ d.roleOf userId tenant.organizationId = some tenant.role := by
  rw [validateTenantContext] at h
  cases hx : extractOrganization sources with
  | error e =>
    rw [hx] at h
    cases h
  | ok found =>
    rw [hx] at h
    cases found with
    | none => cases h
    | some organizationId =>
      change (match d.roleOf userId organizationId with
        | none => Except.error _
        | some role => Except.ok _) = _ at h
      cases hr : d.roleOf userId organizationId with
      | none =>
        rw [hr] at h
        cases h
      | some role =>
        rw [hr] at h
        cases h
        exact ⟨rfl, hr⟩

end RedactApi
