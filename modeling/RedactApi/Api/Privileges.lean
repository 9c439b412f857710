import Mathlib.Logic.Relation
import RedactApi.Api.RoleChecks
import RedactApi.KeyedList

/-!
# What members of an organisation can make of their roles

A role change asks for an owner, so it raises nobody above the caller.  A new
membership asks for an administrator only, and its role is whatever the payload
says: an administrator can add an owner.  That is the one way up.

As long as no request asks for a role above the caller's, a group whose highest role
in the organisation is `r` keeps to `r`, together with the accounts it adds.
-/

namespace RedactApi

structure AdminCall where
  userId : UUID
  sources : TenantSources
  request : AdminRequest

namespace AdminRequest

def isMembership : AdminRequest → Bool
  | createMembership _ _ | updateMembership _ _ | deleteMembership _ => true
  | updateOrg _ _ | deleteOrg _ => false

/-- A new member of the tenant's organisation gets no role above the caller's. -/
def withinRole (tenant : TenantContext) : AdminRequest → Bool
  | createMembership payload _ =>
    payload.organizationId ≠ tenant.organizationId || roleHierarchyCheck tenant.role payload.role
  | _ => true

def added (x : UUID) : AdminRequest → Option UUID
  | createMembership payload _ => if payload.organizationId = x then some payload.userId else none
  | _ => none

end AdminRequest

/-- A membership request that is accepted for the organisation and committed. -/
structure Committed (x : UUID) (d : Directory) (call : AdminCall) (tenant : TenantContext)
    (d' : Directory) : Prop where
  accepted : validateTenantContext d call.userId call.sources = .ok tenant
  inside : tenant.organizationId = x
  membership : call.request.isMembership = true
  run : call.request.run d tenant = .ok d'

def NotAbove (x : UUID) (r : MembershipRole) (d d' : Directory) : Prop :=
  ∀ m' ∈ d'.memberships, m'.organizationId = x → roleHierarchyCheck r m'.role = true ∨
    ∃ m ∈ d.memberships, m.id = m'.id ∧ m.userId = m'.userId ∧ m.organizationId = x ∧
      roleHierarchyCheck m.role m'.role = true

theorem roleHierarchyCheck_iff {a b : MembershipRole} :
    roleHierarchyCheck a b = true ↔ b.rank ≤ a.rank := by
  rw [roleHierarchyCheck, decide_eq_true_iff]

theorem roleHierarchyCheck_refl (a : MembershipRole) : roleHierarchyCheck a a = true :=
  roleHierarchyCheck_iff.mpr (Nat.le_refl _)

theorem roleHierarchyCheck_trans {a b c : MembershipRole} (h : roleHierarchyCheck a b = true)
    (h' : roleHierarchyCheck b c = true) : roleHierarchyCheck a c = true :=
  roleHierarchyCheck_iff.mpr ((roleHierarchyCheck_iff.mp h').trans (roleHierarchyCheck_iff.mp h))

theorem roleHierarchyCheck_owner (a : MembershipRole) : roleHierarchyCheck .owner a = true := by
  cases a <;> rfl

section

variable {d d' : Directory} {tenant : TenantContext} {x : UUID} {r : MembershipRole}

theorem kept {m : Membership} (h : m ∈ d.memberships) (hx : m.organizationId = x) :
    ∃ m₀ ∈ d.memberships, m₀.id = m.id ∧ m₀.userId = m.userId ∧ m₀.organizationId = x ∧
      roleHierarchyCheck m₀.role m.role = true :=
  ⟨m, h, rfl, rfl, hx, roleHierarchyCheck_refl m.role⟩

theorem roleOf_mem {u : UUID} {role : MembershipRole} (h : d.roleOf u x = some role) :
    ∃ m ∈ d.memberships, m.userId = u ∧ m.organizationId = x ∧ m.role = role := by
  obtain ⟨m, hm, hrole⟩ := Option.map_eq_some_iff.mp h
  have hkey := List.find?_some hm
  simp only [decide_eq_true_eq] at hkey
  exact ⟨m, List.mem_of_find?_eq_some hm, hkey.1, hkey.2, hrole⟩

theorem roleOf_eq {m : Membership} (h : m ∈ d.memberships) :
    d.roleOf m.userId m.organizationId = some m.role := by
  have hfind := KeyedList.find?_key d.membership_user_org h
  simp only [Prod.mk.injEq] at hfind
  rw [Directory.roleOf, hfind]
  rfl

/-! ### One request -/

theorem createMembership_rows {payload : MembershipCreate} {id : UUID}
    (h : createMembership d payload id = .ok d') :
    d'.memberships = d.memberships ++ [payload.row id] ∧
      (∀ m ∈ d.memberships, ¬ (m.userId = payload.userId ∧ m.organizationId = payload.organizationId)) ∧
      ∀ m ∈ d.memberships, m.id ≠ id := by
  rw [createMembership] at h
  split_ifs at h with hpair hid
  cases h
  refine ⟨rfl, fun m hm hkey => hpair ?_, fun m hm he => hid ?_⟩
  · rw [← hkey.1, ← hkey.2]
    exact List.mem_map_of_mem hm
  · rw [← he]
    exact List.mem_map_of_mem hm

/-- **A committed creation** appends one row. -/
theorem createMembershipEndpoint_rows {payload : MembershipCreate} {id : UUID}
    (h : createMembershipEndpoint d tenant payload id = .ok d') :
    d'.memberships = d.memberships ++ [payload.row id] ∧
      (∀ m ∈ d.memberships, ¬ (m.userId = payload.userId ∧ m.organizationId = payload.organizationId)) ∧
      ∀ m ∈ d.memberships, m.id ≠ id := by
  rw [createMembershipEndpoint, requireRole_bind] at h
  obtain ⟨-, h⟩ := h
  split_ifs at h
  exact createMembership_rows h

/-- A committed creation stays below `r` exactly when its role does. -/
theorem create_notAbove {payload : MembershipCreate} {id : UUID}
    (h : createMembershipEndpoint d tenant payload id = .ok d') :
    NotAbove x r d d' ↔ payload.organizationId ≠ x ∨ roleHierarchyCheck r payload.role = true := by
  obtain ⟨hrows, -, hid⟩ := createMembershipEndpoint_rows h
  constructor
  · intro hn
    by_cases hx : payload.organizationId = x
    · refine Or.inr ((hn (payload.row id) (by rw [hrows]; simp) hx).resolve_right ?_)
      rintro ⟨m, hm, hmid, -⟩
      exact hid m hm hmid
    · exact Or.inl hx
  · intro hrole m' hm' hx
    rw [hrows, List.mem_append, List.mem_singleton] at hm'
    rcases hm' with hm' | rfl
    · exact Or.inr (kept hm' hx)
    · exact Or.inl (hrole.resolve_left (not_not.mpr hx))

/-- Only an owner changes a role. -/
theorem update_notAbove {membershipId : UUID} {payload : MembershipUpdate}
    (h : updateMembershipEndpoint d tenant membershipId payload = .ok d') :
    NotAbove x tenant.role d d' := by
  rw [updateMembershipEndpoint, requireRole_bind] at h
  have howner : tenant.role = .owner := by
    have hrank := roleHierarchyCheck_iff.mp h.1
    revert hrank
    cases tenant.role <;> decide
  intro m' _ _
  rw [howner]
  exact Or.inl (roleHierarchyCheck_owner m'.role)

theorem delete_notAbove {membershipId : UUID}
    (h : deleteMembershipEndpoint d tenant membershipId = .ok d') : NotAbove x r d d' := by
  rw [deleteMembershipEndpoint, requireRole_bind] at h
  obtain ⟨-, h⟩ := h
  split at h
  · cases h
  · cases h
    exact fun m' hm' hx => Or.inr (kept (List.mem_filter.mp hm').1 hx)

/-- **A committed request** stays below the caller's role exactly when it is within
that role. -/
theorem Committed.notAbove_iff {call : AdminCall} (h : Committed x d call tenant d') :
    NotAbove x tenant.role d d' ↔ call.request.withinRole tenant = true := by
  obtain ⟨-, hinside, hmembership, hrun⟩ := h
  obtain ⟨u, sources, request⟩ := call
  cases request with
  | createMembership payload id =>
    rw [create_notAbove hrun, AdminRequest.withinRole, hinside]
    simp
  | updateMembership membershipId payload => exact iff_of_true (update_notAbove hrun) rfl
  | deleteMembership membershipId => exact iff_of_true (delete_notAbove hrun) rfl
  | updateOrg organizationId payload => cases hmembership
  | deleteOrg organizationId => cases hmembership

theorem Committed.added_new {call : AdminCall} (h : Committed x d call tenant d') {u : UUID}
    (hu : call.request.added x = some u) : ∀ m ∈ d.memberships, m.organizationId = x → m.userId ≠ u := by
  obtain ⟨-, -, -, hrun⟩ := h
  obtain ⟨v, sources, request⟩ := call
  cases request with
  | createMembership payload id =>
    rw [AdminRequest.added] at hu
    split at hu
    · rename_i hx
      cases hu
      exact fun m hm hmx hmu =>
        (createMembershipEndpoint_rows hrun).2.1 m hm ⟨hmu, hmx.trans hx.symm⟩
    · cases hu
  | _ => cases hu

/-! ### Groups -/

/-- A group sends a request within the caller's role, and takes in whom it adds. -/
inductive Colludes (x : UUID) : (UUID → Prop) × Directory → (UUID → Prop) × Directory → Prop
  | request {group : UUID → Prop} {d d' : Directory} {call : AdminCall} {tenant : TenantContext} :
      group call.userId → Committed x d call tenant d' → call.request.withinRole tenant = true →
      Colludes x (group, d) (fun u => group u ∨ call.request.added x = some u, d')

def Bounded (x : UUID) (r : MembershipRole) (group : UUID → Prop) (d : Directory) : Prop :=
  ∀ m ∈ d.memberships, m.organizationId = x → group m.userId → roleHierarchyCheck r m.role = true

theorem Colludes.bounded {p p' : (UUID → Prop) × Directory} (h : Colludes x p p')
    (hb : Bounded x r p.1 p.2) : Bounded x r p'.1 p'.2 := by
  cases h with
  | request hcaller hcommitted hwithin =>
    rename_i group d d' call tenant
    obtain ⟨huser, hrole⟩ := validateTenantContext_role hcommitted.accepted
    obtain ⟨mc, hmc, hmcu, hmcx, hmcr⟩ := roleOf_mem hrole
    have hcaller' : roleHierarchyCheck r tenant.role = true := by
      rw [← hmcr]
      exact hb mc hmc (hmcx.trans hcommitted.inside) (hmcu ▸ hcaller)
    intro m' hm' hx hgroup
    rcases hcommitted.notAbove_iff.mpr hwithin m' hm' hx with hle | ⟨m, hm, -, hmu, hmx, hle⟩
    · exact roleHierarchyCheck_trans hcaller' hle
    · rcases hgroup with hgroup | hadded
      · exact roleHierarchyCheck_trans (hb m hm hmx (hmu ▸ hgroup)) hle
      · exact absurd hmu (hcommitted.added_new hadded m hm hmx)

end

/-- **No privilege amplification** by requests within the caller's role.  A group
whose highest role in the organisation is `r` reaches, over any sequence of such
requests, no state in which one of them or an account they add holds more; and a
committed request raises nothing above the caller's role exactly when it is within
that role. -/
theorem no_privilege_amplification (x : UUID) (group : UUID → Prop) (d : Directory)
    (r : MembershipRole)
    (hr : ∀ u role, group u → d.roleOf u x = some role → roleHierarchyCheck r role = true)
    (group' : UUID → Prop) (d' : Directory)
    (hrun : Relation.ReflTransGen (Colludes x) (group, d) (group', d')) :
    (∀ u role, group' u → d'.roleOf u x = some role → roleHierarchyCheck r role = true) ∧
      ∀ call tenant d'', Committed x d' call tenant d'' →
        (NotAbove x tenant.role d' d'' ↔ call.request.withinRole tenant = true) := by
  have hstart : Bounded x r group d := by
    intro m hm hx hgroup
    exact hr m.userId m.role hgroup (hx ▸ roleOf_eq hm)
  have hbound : ∀ p, Relation.ReflTransGen (Colludes x) (group, d) p → Bounded x r p.1 p.2 := by
    intro p hp
    induction hp with
    | refl => exact hstart
    | tail _ hstep ih => exact hstep.bounded ih
  refine ⟨fun u role hu hrole => ?_, fun call tenant d'' h => h.notAbove_iff⟩
  obtain ⟨m, hm, hmu, hmx, hmr⟩ := roleOf_mem hrole
  rw [← hmr]
  exact hbound _ hrun m hm hmx (hmu ▸ hu)

/-! ### An administrator adds an owner -/

section

def oneAdmin : Directory where
  users := [1, 2]
  organizations := [⟨10, "ours"⟩]
  memberships := [⟨100, 1, 10, .admin⟩]
  audited := []
  organization_pk := by decide
  membership_pk := by decide
  membership_user_org := by decide

def addOwner : AdminCall := ⟨1, ownToken, .createMembership ⟨2, 10, .owner⟩ 200⟩

def addMember : AdminCall := ⟨1, ownToken, .createMembership ⟨2, 10, .member⟩ 200⟩

def raiseAdmin : AdminCall := ⟨2, ownToken, .updateMembership 100 ⟨some (some .owner)⟩⟩

end

/-- Two users whose highest role is that of an administrator end as two owners. -/
theorem admin_becomes_owner :
    (∀ u role, u = 1 ∨ u = 2 → oneAdmin.roleOf u 10 = some role →
      roleHierarchyCheck .admin role = true) ∧
    ∃ d d', Committed 10 oneAdmin addOwner ⟨10, 1, .admin⟩ d ∧ ¬ NotAbove 10 .admin oneAdmin d ∧
      Committed 10 d raiseAdmin ⟨10, 2, .owner⟩ d' ∧
      d'.roleOf 1 10 = some .owner ∧ d'.roleOf 2 10 = some .owner := by
  refine ⟨?_, _, _, ⟨rfl, rfl, rfl, rfl⟩, ?_, ⟨rfl, rfl, rfl, rfl⟩, by decide, by decide⟩
  · rintro u role (rfl | rfl) hrole <;> revert hrole <;> cases role <;> decide
  · exact fun hn => absurd (hn ⟨200, 2, 10, .owner⟩ (by decide) rfl) (by decide)

/-- The administrator adds the other account as a member. -/
theorem no_privilege_amplification_member :
    ∃ d, Committed 10 oneAdmin addMember ⟨10, 1, .admin⟩ d ∧
      ∀ u role, u = 1 ∨ addMember.request.added 10 = some u → d.roleOf u 10 = some role →
        roleHierarchyCheck .admin role = true := by
  have hcommitted : ∃ d, Committed 10 oneAdmin addMember ⟨10, 1, .admin⟩ d :=
    ⟨_, rfl, rfl, rfl, rfl⟩
  obtain ⟨d, hd⟩ := hcommitted
  refine ⟨d, hd, (no_privilege_amplification 10 (· = 1) oneAdmin .admin ?_ _ d
    (.single (.request rfl hd (by decide)))).1⟩
  rintro u role rfl hrole
  revert hrole
  cases role <;> decide

end RedactApi
