import RedactApi.Api.Organizations

/-!
# Whom the role checks protect

`requireRole` looks at the caller's role in the organisation of the tenant
context; the rows a request changes belong to the organisation that its payload,
its membership id or its path names.  Nothing connects the two.

`run_changes` says for each request when it changes rows and whose rows these
are.  The main result reads off when the caller had the demanded role there.
-/

namespace RedactApi

/-! ### Requests -/

inductive AdminRequest
  | createMembership (payload : MembershipCreate) (id : UUID)
  | updateMembership (membershipId : UUID) (payload : MembershipUpdate)
  | deleteMembership (membershipId : UUID)
  | updateOrg (organizationId : UUID) (payload : OrganizationUpdate)
  | deleteOrg (organizationId : UUID)
  deriving DecidableEq, Repr

namespace AdminRequest

def run (d : Directory) (tenant : TenantContext) : AdminRequest → Except Exn Directory
  | createMembership payload id => createMembershipEndpoint d tenant payload id
  | updateMembership membershipId payload => updateMembershipEndpoint d tenant membershipId payload
  | deleteMembership membershipId => deleteMembershipEndpoint d tenant membershipId
  | updateOrg organizationId payload => RedactApi.updateOrg d tenant organizationId payload
  | deleteOrg organizationId => RedactApi.deleteOrg d tenant organizationId

def demands : AdminRequest → MembershipRole
  | createMembership _ _ => .admin
  | updateMembership _ _ => .owner
  | deleteMembership _ => .admin
  | updateOrg _ _ => .admin
  | deleteOrg _ => .owner

def target (d : Directory) : AdminRequest → Option UUID
  | createMembership payload _ => some payload.organizationId
  | updateMembership membershipId _ => (d.membership? membershipId).map (·.organizationId)
  | deleteMembership membershipId => (d.membership? membershipId).map (·.organizationId)
  | updateOrg organizationId _ => some organizationId
  | deleteOrg organizationId => some organizationId

/-- The tenant's role passes, the other checks of the endpoint pass, and there is
something to change. -/
def TakesEffect (d : Directory) (tenant : TenantContext) (request : AdminRequest) : Prop :=
  roleHierarchyCheck tenant.role request.demands = true ∧
  match request with
  | createMembership payload id =>
    payload.userId ∈ d.users ∧ (d.organization? payload.organizationId).isSome ∧
      (payload.userId, payload.organizationId) ∉
        (d.memberships.map fun m => (m.userId, m.organizationId)) ∧
      id ∉ d.memberships.map (·.id)
  | updateMembership membershipId payload => ∃ membership role,
    d.membership? membershipId = some membership ∧ membership.userId ≠ tenant.userId ∧
      payload.role = some (some role) ∧ role ≠ membership.role
  | deleteMembership membershipId => (d.membership? membershipId).isSome
  | updateOrg organizationId payload => ∃ organization text name,
    getOrganization d organizationId tenant.userId = some organization ∧
      payload.name = some (some text) ∧ validateName text = .ok name ∧ name ≠ organization.name
  | deleteOrg organizationId =>
    (getOrganization d organizationId tenant.userId).isSome ∧ organizationId ∉ d.audited

end AdminRequest

/-! ### Rows of an organisation -/

def Directory.membershipsOf (d : Directory) (x : UUID) : List Membership :=
  d.memberships.filter (·.organizationId = x)

def Directory.organizationRow (d : Directory) (x : UUID) : List Organization :=
  d.organizations.filter (·.id = x)

def Changes (d d' : Directory) (x : UUID) : Prop :=
  d'.membershipsOf x ≠ d.membershipsOf x ∨ d'.organizationRow x ≠ d.organizationRow x

def Holds (d : Directory) (userId x : UUID) (required : MembershipRole) : Prop :=
  ∃ role, d.roleOf userId x = some role ∧ roleHierarchyCheck role required = true

theorem membership_unique {d : Directory} {m m' : Membership} (h : m ∈ d.memberships)
    (h' : m' ∈ d.memberships) (hid : m.id = m'.id) : m = m' :=
  List.inj_on_of_nodup_map d.membership_pk h h' hid

theorem organization_unique {d : Directory} {o o' : Organization} (h : o ∈ d.organizations)
    (h' : o' ∈ d.organizations) (hid : o.id = o'.id) : o = o' :=
  List.inj_on_of_nodup_map d.organization_pk h h' hid

theorem membership?_eq {d : Directory} {id : UUID} {m : Membership}
    (h : d.membership? id = some m) : m ∈ d.memberships ∧ m.id = id :=
  ⟨List.mem_of_find?_eq_some h, by simpa using List.find?_some h⟩

theorem getOrganization_eq {d : Directory} {id userId : UUID} {o : Organization}
    (h : getOrganization d id userId = some o) : o ∈ d.organizations ∧ o.id = id := by
  obtain ⟨hf, -⟩ := Option.filter_eq_some_iff.mp h
  exact ⟨List.mem_of_find?_eq_some hf, by simpa using List.find?_some hf⟩

/-- A map that moves a row of the list changes the list, and one that moves no row
does not. -/
theorem map_ne_self {α : Type} {f : α → α} {l : List α} : l.map f ≠ l ↔ ∃ a ∈ l, f a ≠ a := by
  rw [ne_eq, ← not_iff_not, not_not]
  nth_rewrite 2 [← List.map_id l]
  rw [List.map_inj_left]
  simp

theorem filter_ne_self {α : Type} {p : α → Bool} {l : List α} :
    l.filter p ≠ l ↔ ∃ a ∈ l, p a = false := by
  rw [ne_eq, List.filter_eq_self]
  simp

/-! ### What the services change -/

theorem createMembership_changes {d d' : Directory} {payload : MembershipCreate} {id x : UUID}
    (h : createMembership d payload id = .ok d') : Changes d d' x ↔ payload.organizationId = x := by
  rw [createMembership] at h
  split_ifs at h
  cases h
  simp [Changes, Directory.membershipsOf, Directory.organizationRow, List.filter_append,
    List.filter_singleton, Bool.cond_eq_ite, MembershipCreate.row]

theorem updateMembership_changes {d d' : Directory} {m : Membership} {role : MembershipRole}
    {x : UUID} (hm : m ∈ d.memberships)
    (h : updateMembership d m ⟨some (some role)⟩ = .ok d') :
    Changes d d' x ↔ role ≠ m.role ∧ m.organizationId = x := by
  cases h
  have hrows : (d.memberships.map (Membership.withRole m.id role)).filter (·.organizationId = x) =
      (d.membershipsOf x).map (Membership.withRole m.id role) := by
    rw [List.filter_map]
    simp only [Function.comp_def, Membership.withRole_organizationId]
    rfl
  show _ ≠ _ ∨ _ ≠ _ ↔ _
  simp only [Directory.organizationRow, ne_eq, not_true_eq_false, or_false]
  rw [show Directory.membershipsOf _ x = (d.memberships.map (Membership.withRole m.id role)).filter
    (·.organizationId = x) from rfl, hrows, ← ne_eq, map_ne_self]
  constructor
  · rintro ⟨a, ha, hne⟩
    obtain ⟨ham, hax⟩ := List.mem_filter.mp ha
    rw [Membership.withRole] at hne
    split at hne
    · rename_i hid
      have := membership_unique ham hm hid
      subst this
      refine ⟨fun hr => hne ?_, by simpa using hax⟩
      rw [hr]
    · exact absurd rfl hne
  · rintro ⟨hr, rfl⟩
    refine ⟨m, List.mem_filter.mpr ⟨hm, by simp⟩, fun he => hr ?_⟩
    rw [Membership.withRole, if_pos rfl] at he
    exact congrArg Membership.role he

theorem deleteMembership_changes {d : Directory} {m : Membership} {x : UUID}
    (hm : m ∈ d.memberships) : Changes d (deleteMembership d m) x ↔ m.organizationId = x := by
  show _ ≠ _ ∨ _ ≠ _ ↔ _
  simp only [deleteMembership, Directory.organizationRow, Directory.membershipsOf, ne_eq,
    not_true_eq_false, or_false, List.filter_filter]
  rw [List.filter_congr (fun a _ => Bool.and_comm _ _), ← List.filter_filter, ← ne_eq,
    filter_ne_self]
  constructor
  · rintro ⟨a, ha, hid⟩
    obtain ⟨ham, hax⟩ := List.mem_filter.mp ha
    have := membership_unique ham hm (by simpa using hid)
    subst this
    simpa using hax
  · rintro rfl
    exact ⟨m, List.mem_filter.mpr ⟨hm, by simp⟩, by simp⟩

theorem updateOrganization_changes {d d' : Directory} {o : Organization} {name : String}
    {x : UUID} (ho : o ∈ d.organizations)
    (h : updateOrganization d o ⟨some (some name)⟩ = .ok d') :
    Changes d d' x ↔ name ≠ o.name ∧ o.id = x := by
  cases h
  have hrows : (d.organizations.map (Organization.withName o.id name)).filter (·.id = x) =
      (d.organizationRow x).map (Organization.withName o.id name) := by
    rw [List.filter_map]
    simp only [Function.comp_def, Organization.withName_id]
    rfl
  show _ ≠ _ ∨ _ ≠ _ ↔ _
  simp only [Directory.membershipsOf, ne_eq, not_true_eq_false, false_or]
  rw [show Directory.organizationRow _ x = (d.organizations.map (Organization.withName o.id
    name)).filter (·.id = x) from rfl, hrows, ← ne_eq, map_ne_self]
  constructor
  · rintro ⟨a, ha, hne⟩
    obtain ⟨ham, hax⟩ := List.mem_filter.mp ha
    rw [Organization.withName] at hne
    split at hne
    · rename_i hid
      have := organization_unique ham ho hid
      subst this
      refine ⟨fun hn => hne ?_, by simpa using hax⟩
      rw [hn]
    · exact absurd rfl hne
  · rintro ⟨hn, rfl⟩
    refine ⟨o, List.mem_filter.mpr ⟨ho, by simp⟩, fun he => hn ?_⟩
    rw [Organization.withName, if_pos rfl] at he
    exact congrArg Organization.name he

theorem deleteOrganization_changes {d d' : Directory} {o : Organization} {x : UUID}
    (ho : o ∈ d.organizations) (h : deleteOrganization d o = .ok d') :
    Changes d d' x ↔ o.id = x := by
  rw [deleteOrganization] at h
  split_ifs at h
  cases h
  constructor
  · intro hc
    by_contra hx
    rcases hc with hc | hc
    · refine hc ?_
      simp only [Directory.membershipsOf, List.filter_filter]
      refine List.filter_congr fun a _ => ?_
      by_cases ha : a.organizationId = x <;> simp [ha, Ne.symm hx]
    · refine hc ?_
      simp only [Directory.organizationRow, List.filter_filter]
      refine List.filter_congr fun a _ => ?_
      by_cases ha : a.id = x <;> simp [ha, Ne.symm hx]
  · rintro rfl
    refine Or.inr fun he => ?_
    have hm : o ∈ d.organizationRow o.id := List.mem_filter.mpr ⟨ho, by simp⟩
    rw [← he] at hm
    have := (List.mem_filter.mp (List.mem_filter.mp hm).1).2
    simp at this

/-! ### What a request changes -/

theorem requireRole_ok {tenant : TenantContext} {required : MembershipRole} {u : Unit} :
    requireRole tenant required = .ok u ↔ roleHierarchyCheck tenant.role required = true := by
  rw [requireRole]
  split
  · rename_i h
    simp [h]
  · rename_i h
    simp [h]

theorem requireRole_bind {tenant : TenantContext} {required : MembershipRole}
    {k : Except Exn Directory} {d' : Directory} :
    (requireRole tenant required >>= fun _ => k) = .ok d' ↔
      roleHierarchyCheck tenant.role required = true ∧ k = .ok d' := by
  cases h : requireRole tenant required with
  | ok u =>
    rw [requireRole_ok] at h
    simp [h, bind, Except.bind]
  | error e =>
    have hn : ¬ roleHierarchyCheck tenant.role required = true := by
      intro hr
      rw [(requireRole_ok (u := ())).mpr hr] at h
      cases h
    simp [hn, bind, Except.bind]

theorem createMembershipEndpoint_changes {d : Directory} {tenant : TenantContext}
    {payload : MembershipCreate} {id x : UUID} :
    (∃ d', createMembershipEndpoint d tenant payload id = .ok d' ∧ Changes d d' x) ↔
      (AdminRequest.createMembership payload id).TakesEffect d tenant ∧
        payload.organizationId = x := by
  simp only [createMembershipEndpoint, requireRole_bind, AdminRequest.TakesEffect,
    AdminRequest.demands]
  constructor
  · rintro ⟨d', ⟨hrole, h⟩, hc⟩
    split_ifs at h with huser horg
    have hx := (createMembership_changes h).mp hc
    rw [createMembership] at h
    split_ifs at h with hpair hid
    exact ⟨⟨hrole, huser, by simpa [Option.isSome_iff_ne_none] using horg, hpair, hid⟩, hx⟩
  · rintro ⟨⟨hrole, huser, horg, hpair, hid⟩, hx⟩
    have hok : ∃ d', createMembership d payload id = .ok d' := by
      rw [createMembership, dif_neg hpair, dif_neg hid]
      exact ⟨_, rfl⟩
    obtain ⟨d', hd'⟩ := hok
    refine ⟨d', ⟨hrole, ?_⟩, (createMembership_changes hd').mpr hx⟩
    rw [if_neg (not_not.mpr huser), if_neg (by simpa [Option.isSome_iff_ne_none] using horg), hd']

theorem updateMembershipEndpoint_changes {d : Directory} {tenant : TenantContext}
    {membershipId : UUID} {payload : MembershipUpdate} {x : UUID} :
    (∃ d', updateMembershipEndpoint d tenant membershipId payload = .ok d' ∧ Changes d d' x) ↔
      (AdminRequest.updateMembership membershipId payload).TakesEffect d tenant ∧
        (d.membership? membershipId).map (·.organizationId) = some x := by
  simp only [updateMembershipEndpoint, requireRole_bind, AdminRequest.TakesEffect,
    AdminRequest.demands]
  cases hm : d.membership? membershipId with
  | none => simp
  | some m =>
    obtain ⟨hmem, -⟩ := membership?_eq hm
    obtain ⟨change⟩ := payload
    constructor
    · rintro ⟨d', ⟨hrole, h⟩, hc⟩
      dsimp only at h
      split_ifs at h with hself
      match change with
      | none =>
        cases h
        exact absurd hc (by simp [Changes])
      | some none => cases h
      | some (some role) =>
        obtain ⟨hne, hx⟩ := (updateMembership_changes hmem h).mp hc
        exact ⟨⟨hrole, m, role, rfl, hself, rfl, hne⟩, by rw [Option.map_some, hx]⟩
    · rintro ⟨⟨hrole, m', role, hm', hself, hchange, hne⟩, hx⟩
      cases hm'
      cases hchange
      refine ⟨_, ⟨hrole, ?_⟩, (updateMembership_changes hmem rfl).mpr ⟨hne, by simpa using hx⟩⟩
      dsimp only
      rw [if_neg hself]
      rfl

theorem deleteMembershipEndpoint_changes {d : Directory} {tenant : TenantContext}
    {membershipId x : UUID} :
    (∃ d', deleteMembershipEndpoint d tenant membershipId = .ok d' ∧ Changes d d' x) ↔
      (AdminRequest.deleteMembership membershipId).TakesEffect d tenant ∧
        (d.membership? membershipId).map (·.organizationId) = some x := by
  simp only [deleteMembershipEndpoint, requireRole_bind, AdminRequest.TakesEffect,
    AdminRequest.demands]
  cases hm : d.membership? membershipId with
  | none => simp
  | some m =>
    obtain ⟨hmem, -⟩ := membership?_eq hm
    constructor
    · rintro ⟨d', ⟨hrole, h⟩, hc⟩
      cases h
      exact ⟨⟨hrole, rfl⟩, by rw [Option.map_some, (deleteMembership_changes hmem).mp hc]⟩
    · rintro ⟨⟨hrole, -⟩, hx⟩
      exact ⟨_, ⟨hrole, rfl⟩, (deleteMembership_changes hmem).mpr (by simpa using hx)⟩

theorem updateOrg_changes {d : Directory} {tenant : TenantContext} {organizationId : UUID}
    {payload : OrganizationUpdate} {x : UUID} :
    (∃ d', updateOrg d tenant organizationId payload = .ok d' ∧ Changes d d' x) ↔
      (AdminRequest.updateOrg organizationId payload).TakesEffect d tenant ∧
        organizationId = x := by
  simp only [updateOrg, requireRole_bind, AdminRequest.TakesEffect, AdminRequest.demands]
  obtain ⟨change⟩ := payload
  cases ho : getOrganization d organizationId tenant.userId with
  | none =>
    cases hv : OrganizationUpdate.validate ⟨change⟩ <;> simp [bind, Except.bind]
  | some o =>
    obtain ⟨hmem, hid⟩ := getOrganization_eq ho
    match change with
    | none =>
      simp [OrganizationUpdate.validate, bind, Except.bind, updateOrganization, Changes]
    | some none => simp [OrganizationUpdate.validate, bind, Except.bind, updateOrganization]
    | some (some text) =>
      cases hv : validateName text with
      | error e => simp [OrganizationUpdate.validate, bind, Except.bind, hv]
      | ok name =>
        simp only [OrganizationUpdate.validate, bind, Except.bind, hv, pure, Except.pure]
        constructor
        · rintro ⟨d', ⟨hrole, h⟩, hc⟩
          obtain ⟨hne, hx⟩ := (updateOrganization_changes hmem h).mp hc
          exact ⟨⟨hrole, o, text, name, rfl, rfl, hv, hne⟩, hid ▸ hx⟩
        · rintro ⟨⟨hrole, o', text', name', ho', ht, hn, hne⟩, hx⟩
          cases ho'
          cases ht
          rw [hv] at hn
          cases hn
          exact ⟨_, ⟨hrole, rfl⟩, (updateOrganization_changes hmem rfl).mpr ⟨hne, hid.trans hx⟩⟩

theorem deleteOrg_changes {d : Directory} {tenant : TenantContext} {organizationId x : UUID} :
    (∃ d', deleteOrg d tenant organizationId = .ok d' ∧ Changes d d' x) ↔
      (AdminRequest.deleteOrg organizationId).TakesEffect d tenant ∧ organizationId = x := by
  simp only [deleteOrg, requireRole_bind, AdminRequest.TakesEffect, AdminRequest.demands]
  cases ho : getOrganization d organizationId tenant.userId with
  | none => simp
  | some o =>
    obtain ⟨hmem, hid⟩ := getOrganization_eq ho
    constructor
    · rintro ⟨d', ⟨hrole, h⟩, hc⟩
      have hx := (deleteOrganization_changes hmem h).mp hc
      change deleteOrganization d o = .ok d' at h
      rw [deleteOrganization] at h
      split_ifs at h with haudit
      exact ⟨⟨hrole, rfl, hid ▸ haudit⟩, hid ▸ hx⟩
    · rintro ⟨⟨hrole, -, haudit⟩, hx⟩
      have hok : ∃ d', deleteOrganization d o = .ok d' := by
        rw [deleteOrganization, if_neg (hid.symm ▸ haudit)]
        exact ⟨_, rfl⟩
      obtain ⟨d', hd'⟩ := hok
      exact ⟨d', ⟨hrole, hd'⟩, (deleteOrganization_changes hmem hd').mpr (hid.trans hx)⟩

/-- **A request changes the rows of the organisation it names, and of no other**,
and does so exactly when it takes effect. -/
theorem run_changes {d : Directory} {tenant : TenantContext} (request : AdminRequest) {x : UUID} :
    (∃ d', request.run d tenant = .ok d' ∧ Changes d d' x) ↔
      request.TakesEffect d tenant ∧ request.target d = some x := by
  cases request with
  | createMembership payload id =>
    rw [AdminRequest.target, Option.some_inj]
    exact createMembershipEndpoint_changes
  | updateMembership membershipId payload => exact updateMembershipEndpoint_changes
  | deleteMembership membershipId => exact deleteMembershipEndpoint_changes
  | updateOrg organizationId payload =>
    rw [AdminRequest.target, Option.some_inj]
    exact updateOrg_changes
  | deleteOrg organizationId =>
    rw [AdminRequest.target, Option.some_inj]
    exact deleteOrg_changes

/-! ### Who is protected -/

/-- Whatever rows the request changes, the caller held the demanded role in their
organisation. -/
def Protected (d : Directory) (tenant : TenantContext) (request : AdminRequest) : Prop :=
  ∀ d' x, request.run d tenant = .ok d' → Changes d d' x →
    Holds d tenant.userId x request.demands

/-- **When the role check protects.**  Exactly when the organisation the request
names is that of the tenant context, or the caller holds the demanded role there
as well, or the request takes no effect. -/
theorem role_check_protects_iff {d : Directory} {userId : UUID} {sources : TenantSources}
    {tenant : TenantContext} (h : validateTenantContext d userId sources = .ok tenant)
    (request : AdminRequest) :
    Protected d tenant request ↔
      ∀ x, request.target d = some x → x = tenant.organizationId ∨
        Holds d userId x request.demands ∨ ¬ request.TakesEffect d tenant := by
  obtain ⟨huser, hrole⟩ := validateTenantContext_role h
  constructor
  · intro hp x hx
    by_cases he : request.TakesEffect d tenant
    · obtain ⟨d', hrun, hc⟩ := (run_changes request).mpr ⟨he, hx⟩
      exact Or.inr (Or.inl (huser ▸ hp d' x hrun hc))
    · exact Or.inr (Or.inr he)
  · intro hcond d' x hrun hc
    obtain ⟨he, hx⟩ := (run_changes request).mp ⟨d', hrun, hc⟩
    rw [huser]
    rcases hcond x hx with rfl | hh | hn
    · exact ⟨tenant.role, hrole, he.1⟩
    · exact hh
    · exact absurd he hn

/-! ### An administrator elsewhere -/

section

def twoOrganizations : Directory where
  users := [1, 2]
  organizations := [⟨10, "ours"⟩, ⟨20, "theirs"⟩]
  memberships := [⟨100, 1, 10, .admin⟩, ⟨200, 2, 20, .owner⟩]
  audited := []
  organization_pk := by decide
  membership_pk := by decide
  membership_user_org := by decide

def ownToken : TenantSources := ⟨some 10, none, none⟩

def joinTheirs : AdminRequest := .createMembership ⟨1, 20, .owner⟩ 300

end

/-- The request is committed, and the caller held no role in the organisation. -/
theorem role_check_misses :
    ∃ tenant, validateTenantContext twoOrganizations 1 ownToken = .ok tenant ∧
      ¬ Protected twoOrganizations tenant joinTheirs := by
  refine ⟨⟨10, 1, .admin⟩, rfl, fun hp => ?_⟩
  have heffect : joinTheirs.TakesEffect twoOrganizations ⟨10, 1, .admin⟩ := by
    refine ⟨by decide, ?_, ?_, ?_, ?_⟩ <;> decide
  obtain ⟨d', hrun, hc⟩ := (run_changes joinTheirs).mpr ⟨heffect, rfl⟩
  obtain ⟨role, hrole, -⟩ := hp d' 20 hrun hc
  rw [show twoOrganizations.roleOf 1 20 = none by decide] at hrole
  cases hrole

/-- Removing a member of the caller's own organisation is protected. -/
theorem role_check_protects_own :
    validateTenantContext twoOrganizations 1 ownToken = .ok ⟨10, 1, .admin⟩ ∧
      Protected twoOrganizations ⟨10, 1, .admin⟩ (.deleteMembership 100) := by
  have h : validateTenantContext twoOrganizations 1 ownToken = .ok ⟨10, 1, .admin⟩ := rfl
  refine ⟨h, (role_check_protects_iff h _).mpr fun x hx => Or.inl ?_⟩
  have htarget : (AdminRequest.deleteMembership 100).target twoOrganizations = some 10 := by decide
  rw [htarget] at hx
  exact (Option.some.inj hx).symm

end RedactApi
