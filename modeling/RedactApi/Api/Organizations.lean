import RedactApi.Api.Memberships
import RedactApi.Redaction.VerifyGate

/-!
# The organisation endpoints

`api/organizations.py` and `services/organization_service.py`: update and delete.
-/

namespace RedactApi

/-! ### The service -/

def maxOrgNameLength : Nat := 255

def validateName (value : String) : Except Exn String :=
  let value := String.ofList (strip value.toList)
  if value.toList = [] then .error .validation
  else if value.toList.length > maxOrgNameLength then .error .validation
  else .ok value

/-- Unset, `null`, or a name. -/
structure OrganizationUpdate where
  name : Option (Option String)
  deriving DecidableEq, Repr

def OrganizationUpdate.validate (payload : OrganizationUpdate) :
    Except Exn OrganizationUpdate :=
  match payload.name with
  | some (some name) => do return ⟨some (some (← validateName name))⟩
  | _ => .ok payload

/-- With a user, the organisation is found only if the user is a member. -/
def getOrganization (d : Directory) (organizationId userId : UUID) : Option Organization :=
  (d.organization? organizationId).filter fun organization =>
    (d.roleOf userId organization.id).isSome

def Organization.withName (id : UUID) (name : String) (o : Organization) : Organization :=
  if o.id = id then { o with name := name } else o

@[simp] theorem Organization.withName_id (id : UUID) (name : String) (o : Organization) :
    (o.withName id name).id = o.id := by
  rw [Organization.withName]; split <;> rfl

/-- The name column is not nullable. -/
def updateOrganization (d : Directory) (organization : Organization)
    (payload : OrganizationUpdate) : Except Exn Directory :=
  match payload.name with
  | none => .ok d
  | some none => .error .integrity
  | some (some name) => .ok { d with
      organizations := d.organizations.map (Organization.withName organization.id name)
      organization_pk := by
        simpa only [List.map_map, Function.comp_def, Organization.withName_id] using
          d.organization_pk }

/-- The delete cascades to the memberships; audit entries restrict it. -/
def deleteOrganization (d : Directory) (organization : Organization) : Except Exn Directory :=
  if organization.id ∈ d.audited then .error .integrity
  else .ok { d with
    organizations := d.organizations.filter (·.id ≠ organization.id)
    memberships := d.memberships.filter (·.organizationId ≠ organization.id)
    organization_pk := d.organization_pk.sublist (List.filter_sublist.map _)
    membership_pk := d.membership_pk.sublist (List.filter_sublist.map _)
    membership_user_org := d.membership_user_org.sublist (List.filter_sublist.map _) }

/-! ### The endpoints -/

def organizationNotFound : Exn := .http 404 (.text "Organization not found")

/-- Requires `admin` in the tenant, and a membership in the organisation. -/
def updateOrg (d : Directory) (tenant : TenantContext) (organizationId : UUID)
    (payload : OrganizationUpdate) : Except Exn Directory := do
  requireRole tenant .admin
  let payload ← payload.validate
  match getOrganization d organizationId tenant.userId with
  | none => .error organizationNotFound
  | some organization => updateOrganization d organization payload

/-- Requires `owner` in the tenant, and a membership in the organisation. -/
def deleteOrg (d : Directory) (tenant : TenantContext) (organizationId : UUID) :
    Except Exn Directory := do
  requireRole tenant .owner
  match getOrganization d organizationId tenant.userId with
  | none => .error organizationNotFound
  | some organization => deleteOrganization d organization

end RedactApi
