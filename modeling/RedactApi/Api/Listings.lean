import Mathlib.Data.List.Lex
import Mathlib.Data.List.Sort
import RedactApi.Api.Organizations
import RedactApi.Api.RoleChecks

/-!
# What the reads of the administration show

`GET /memberships`, `GET /organizations` and `GET /organizations/{id}`.  The last
joins the caller's membership; the two listings page over whole tables.

A read leaks when its answer depends on rows of organisations the caller does not
belong to.
-/

namespace RedactApi

/-! ### Rows and answers -/

structure Times where
  createdAt : DateTime
  updatedAt : DateTime
  deriving DecidableEq, Repr

structure UserColumns where
  email : String
  name : String
  times : Times
  deriving DecidableEq, Repr

/-- The tables of the administration, with the columns that only reads show. -/
structure Accounts where
  tables : Directory
  userColumns : UUID → UserColumns
  organizationTimes : UUID → Times
  membershipTimes : UUID → Times

structure MembershipRead where
  id : UUID
  userId : UUID
  organizationId : UUID
  role : MembershipRole
  times : Times
  deriving DecidableEq, Repr

structure UserInfo where
  id : UUID
  columns : UserColumns
  deriving DecidableEq, Repr

structure OrganizationRead where
  id : UUID
  name : String
  times : Times
  users : List UserInfo
  deriving DecidableEq, Repr

def paginationPageSizeMax : Nat := 200

structure Params where
  page : Nat
  size : Nat
  page_pos : 1 ≤ page
  size_pos : 1 ≤ size
  size_le : size ≤ paginationPageSizeMax

structure Paginated (α : Type) where
  items : List α
  total : Nat
  page : Nat
  size : Nat
  pages : Nat
  deriving DecidableEq, Repr

/-- `apaginate`: one page of the rows, and how many rows there are. -/
def apaginate {α : Type} (rows : List α) (params : Params) : Paginated α :=
  { items := (rows.drop ((params.page - 1) * params.size)).take params.size
    total := rows.length
    page := params.page
    size := params.size
    pages := (rows.length + params.size - 1) / params.size }

/-- The order of timestamps. -/
def DateTime.ticks (t : DateTime) : List Nat :=
  [t.year, t.month, t.day, t.hour, t.minute, t.second, t.microsecond]

def orderByCreatedAt {α : Type} (createdAt : α → DateTime) (rows : List α) : List α :=
  rows.insertionSort fun a b => (createdAt a).ticks ≤ (createdAt b).ticks

/-! ### The endpoints -/

def Accounts.membershipRead (a : Accounts) (m : Membership) : MembershipRead :=
  ⟨m.id, m.userId, m.organizationId, m.role, a.membershipTimes m.id⟩

def Accounts.userInfo (a : Accounts) (userId : UUID) : UserInfo := ⟨userId, a.userColumns userId⟩

/-- Users joined with their memberships in the organisation. -/
def listUsersForOrganization (a : Accounts) (organizationId : UUID) : List UserInfo :=
  (a.tables.membershipsOf organizationId).map fun m => a.userInfo m.userId

def Accounts.organizationRead (a : Accounts) (o : Organization) : OrganizationRead :=
  ⟨o.id, o.name, a.organizationTimes o.id, listUsersForOrganization a o.id⟩

def listMembershipsEndpoint (a : Accounts) (params : Params) : Paginated MembershipRead :=
  apaginate ((orderByCreatedAt (fun m => (a.membershipTimes m.id).createdAt)
    a.tables.memberships).map a.membershipRead) params

/-- The users are looked up for the organisations of the page. -/
def listOrgs (a : Accounts) (params : Params) : Paginated OrganizationRead :=
  let page := apaginate (orderByCreatedAt (fun o => (a.organizationTimes o.id).createdAt)
    a.tables.organizations) params
  { page with items := page.items.map a.organizationRead }

def getOrg (a : Accounts) (tenant : TenantContext) (organizationId : UUID) :
    Except Exn OrganizationRead :=
  match getOrganization a.tables organizationId tenant.userId with
  | none => .error organizationNotFound
  | some organization => .ok (a.organizationRead organization)

inductive ReadRequest
  | listMemberships (params : Params)
  | listOrgs (params : Params)
  | getOrg (organizationId : UUID)

inductive ReadResponse
  | memberships (page : Paginated MembershipRead)
  | organizations (page : Paginated OrganizationRead)
  | organization (organization : OrganizationRead)
  deriving DecidableEq, Repr

def ReadRequest.respond (a : Accounts) (userId : UUID) (sources : TenantSources)
    (request : ReadRequest) : Except Exn ReadResponse := do
  let tenant ← validateTenantContext a.tables userId sources
  match request with
  | listMemberships params => return .memberships (listMembershipsEndpoint a params)
  | listOrgs params => return .organizations (RedactApi.listOrgs a params)
  | getOrg organizationId => return .organization (← RedactApi.getOrg a tenant organizationId)

/-! ### What the caller may see -/

def Directory.belongs (d : Directory) (userId organizationId : UUID) : Bool :=
  (d.roleOf userId organizationId).isSome

/-- The same rows of the caller's organisations: the organisations, their memberships
and their users. -/
structure SameView (userId : UUID) (a b : Accounts) : Prop where
  own : b.tables.memberships.filter (·.userId = userId) =
    a.tables.memberships.filter (·.userId = userId)
  organizations : b.tables.organizations.filter (a.tables.belongs userId ·.id) =
    a.tables.organizations.filter (a.tables.belongs userId ·.id)
  memberships : b.tables.memberships.filter (a.tables.belongs userId ·.organizationId) =
    a.tables.memberships.filter (a.tables.belongs userId ·.organizationId)
  organizationTimes : ∀ x, a.tables.belongs userId x = true →
    b.organizationTimes x = a.organizationTimes x
  membershipTimes : ∀ m ∈ a.tables.memberships, a.tables.belongs userId m.organizationId = true →
    b.membershipTimes m.id = a.membershipTimes m.id
  userColumns : ∀ m ∈ a.tables.memberships, a.tables.belongs userId m.organizationId = true →
    b.userColumns m.userId = a.userColumns m.userId

section

variable {userId : UUID} {a b : Accounts}

theorem SameView.roleOf (h : SameView userId a b) (x : UUID) :
    b.tables.roleOf userId x = a.tables.roleOf userId x := by
  have hfind : ∀ d : Directory, d.roleOf userId x =
      ((d.memberships.filter (·.userId = userId)).find? (·.organizationId = x)).map (·.role) := by
    intro d
    rw [Directory.roleOf, List.find?_filter]
    congr 2
    funext m
    simp
  rw [hfind, hfind, h.own]

theorem find?_of_filter {α : Type} {l l' : List α} {p q : α → Bool} (h : l'.filter q = l.filter q)
    (hpq : ∀ x, p x = true → q x = true) : l'.find? p = l.find? p := by
  have hfind : ∀ l : List α, l.find? p = (l.filter q).find? p := by
    intro l
    rw [List.find?_filter]
    congr 1
    funext x
    cases hp : p x with
    | false => simp
    | true => simp [hpq x hp]
  rw [hfind l', hfind l, h]

theorem filter_of_filter {α : Type} {l l' : List α} {p q : α → Bool}
    (h : l'.filter q = l.filter q) (hpq : ∀ x, p x = true → q x = true) :
    l'.filter p = l.filter p := by
  have hfilter : ∀ l : List α, l.filter p = (l.filter q).filter p := by
    intro l
    rw [List.filter_filter]
    refine List.filter_congr fun x _ => ?_
    cases hp : p x with
    | false => rw [Bool.false_and]
    | true => rw [hpq x hp, Bool.true_and]
  rw [hfilter l', hfilter l, h]

theorem SameView.users (h : SameView userId a b) {x : UUID} (hx : a.tables.belongs userId x = true) :
    listUsersForOrganization b x = listUsersForOrganization a x := by
  have hrows : b.tables.membershipsOf x = a.tables.membershipsOf x := by
    refine filter_of_filter h.memberships fun m hm => ?_
    rw [of_decide_eq_true hm]
    exact hx
  rw [listUsersForOrganization, hrows, listUsersForOrganization]
  refine List.map_congr_left fun m hm => ?_
  obtain ⟨hmem, hmx⟩ := List.mem_filter.mp hm
  rw [Accounts.userInfo, Accounts.userInfo,
    h.userColumns m hmem (by rw [of_decide_eq_true hmx]; exact hx)]

/-- An organisation is found only with a membership of the caller. -/
theorem SameView.getOrganization (h : SameView userId a b) (organizationId : UUID) :
    RedactApi.getOrganization b.tables organizationId userId =
      RedactApi.getOrganization a.tables organizationId userId := by
  by_cases hx : a.tables.belongs userId organizationId = true
  · have hfind : b.tables.organization? organizationId = a.tables.organization? organizationId := by
      refine find?_of_filter h.organizations fun o ho => ?_
      rw [of_decide_eq_true ho]
      exact hx
    rw [RedactApi.getOrganization, RedactApi.getOrganization, hfind]
    simp only [h.roleOf]
  · have hnone : ∀ d : Directory, (d.roleOf userId organizationId).isSome = false →
        RedactApi.getOrganization d organizationId userId = none := by
      intro d hd
      refine Option.filter_eq_none_iff.mpr fun o ho => ?_
      have hid : o.id = organizationId := by simpa using List.find?_some ho
      rw [hid, hd]
      exact Bool.false_ne_true
    have hx : (a.tables.roleOf userId organizationId).isSome = false := Bool.not_eq_true _ ▸ hx
    rw [hnone _ hx, hnone _ (by rw [h.roleOf]; exact hx)]

/-- **Reading one organisation** depends on nothing else. -/
theorem SameView.getOrg (h : SameView userId a b) (organizationId : UUID) (role : MembershipRole)
    (x : UUID) : RedactApi.getOrg b ⟨x, userId, role⟩ organizationId =
      RedactApi.getOrg a ⟨x, userId, role⟩ organizationId := by
  rw [RedactApi.getOrg, RedactApi.getOrg, h.getOrganization organizationId]
  cases ho : RedactApi.getOrganization a.tables organizationId userId with
  | none => rfl
  | some o =>
    obtain ⟨-, hrole⟩ := Option.filter_eq_some_iff.mp ho
    have hx : a.tables.belongs userId o.id = true := hrole
    show Except.ok _ = Except.ok _
    rw [Accounts.organizationRead, Accounts.organizationRead, h.users hx, h.organizationTimes _ hx]

theorem SameView.validate (h : SameView userId a b) (sources : TenantSources) :
    validateTenantContext b.tables userId sources = validateTenantContext a.tables userId sources := by
  rw [validateTenantContext, validateTenantContext]
  congr 1
  funext found
  cases found with
  | none => rfl
  | some organizationId => simp only [h.roleOf]

end

/-- The answer depends only on the organisations of the caller. -/
def Secret (userId : UUID) (request : ReadRequest) : Prop :=
  ∀ (sources : TenantSources) (tenant : TenantContext) (a b : Accounts),
    validateTenantContext a.tables userId sources = .ok tenant → SameView userId a b →
    request.respond b userId sources = request.respond a userId sources

/-! ### Rows of another organisation -/

section

variable (userId : UUID)

def otherUser : UUID := if userId = 0 then 1 else 0

theorem otherUser_ne : otherUser userId ≠ userId := by
  rw [otherUser]
  split
  · rename_i h
    rw [h]
    decide
  · rename_i h
    exact fun he => h he.symm

def oneOrganization : Directory where
  users := [userId]
  organizations := [⟨10, "own"⟩]
  memberships := [⟨100, userId, 10, .member⟩]
  audited := []
  organization_pk := List.nodup_singleton _
  membership_pk := List.nodup_singleton _
  membership_user_org := List.nodup_singleton _

def besideAnother : Directory where
  users := [userId, otherUser userId]
  organizations := [⟨10, "own"⟩, ⟨20, "other"⟩]
  memberships := [⟨100, userId, 10, .member⟩, ⟨200, otherUser userId, 20, .owner⟩]
  audited := []
  organization_pk := by decide
  membership_pk := by
    show ([100, 200] : List UUID).Nodup
    decide
  membership_user_org := by simp

def plain (tables : Directory) : Accounts :=
  let times : Times := ⟨sampleTime, sampleTime⟩
  ⟨tables, fun _ => ⟨"", "", times⟩, fun _ => times, fun _ => times⟩

theorem belongs_oneOrganization (x : UUID) :
    (oneOrganization userId).belongs userId x = decide (x = 10) := by
  rw [Directory.belongs, Directory.roleOf, oneOrganization, List.find?_singleton]
  simp only [true_and, decide_eq_true_eq, eq_comm (a := x)]
  split <;> simp_all

theorem sameView_besideAnother :
    SameView userId (plain (oneOrganization userId)) (plain (besideAnother userId)) where
  own := by simp [plain, oneOrganization, besideAnother, otherUser_ne userId]
  organizations := by
    simp only [plain, belongs_oneOrganization]
    show [Organization.mk 10 "own", ⟨20, "other"⟩].filter (·.id = 10) =
      [Organization.mk 10 "own"].filter (·.id = 10)
    decide
  memberships := by
    simp only [plain, belongs_oneOrganization]
    simp [besideAnother, oneOrganization]
  organizationTimes _ _ := rfl
  membershipTimes _ _ _ := rfl
  userColumns _ _ _ := rfl

/-- Both listings count the rows of the other organisation. -/
theorem listings_differ (params : Params) :
    listMembershipsEndpoint (plain (besideAnother userId)) params ≠
        listMembershipsEndpoint (plain (oneOrganization userId)) params ∧
      listOrgs (plain (besideAnother userId)) params ≠
        listOrgs (plain (oneOrganization userId)) params := by
  constructor
  · intro h
    have htotal := congrArg Paginated.total h
    simp [listMembershipsEndpoint, apaginate, orderByCreatedAt, plain, oneOrganization,
      besideAnother] at htotal
  · intro h
    have htotal := congrArg Paginated.total h
    simp [listOrgs, apaginate, orderByCreatedAt, plain, oneOrganization, besideAnother] at htotal

/-- The caller's token is accepted in both states. -/
theorem ownToken_accepted :
    validateTenantContext (oneOrganization userId) userId ownToken = .ok ⟨10, userId, .member⟩ := by
  simp [validateTenantContext, extractOrganization, ownToken, Directory.roleOf, oneOrganization, bind,
    Except.bind]

end

/-- **Which reads keep to the caller's organisations.**  Reading one organisation
does; the listings count and show the rows of all organisations. -/
theorem reads_secret_iff (userId : UUID) (request : ReadRequest) :
    Secret userId request ↔ ∃ organizationId, request = .getOrg organizationId := by
  constructor
  · intro h
    have hours := ownToken_accepted userId
    have hboth := ((sameView_besideAnother userId).validate ownToken).trans hours
    have hsame := h ownToken _ _ _ hours (sameView_besideAnother userId)
    rw [ReadRequest.respond, ReadRequest.respond, hboth] at hsame
    change _ = (validateTenantContext (oneOrganization userId) userId ownToken >>= _) at hsame
    rw [hours] at hsame
    cases request with
    | listMemberships params =>
      exact absurd (ReadResponse.memberships.inj (Except.ok.inj hsame)) (listings_differ userId params).1
    | listOrgs params =>
      exact absurd (ReadResponse.organizations.inj (Except.ok.inj hsame)) (listings_differ userId params).2
    | getOrg organizationId => exact ⟨organizationId, rfl⟩
  · rintro ⟨organizationId, rfl⟩ sources tenant a b hok hagree
    obtain ⟨huser, -⟩ := validateTenantContext_role hok
    obtain ⟨x, u, role⟩ := tenant
    obtain rfl : u = userId := huser
    rw [ReadRequest.respond, ReadRequest.respond, hagree.validate, hok]
    show (RedactApi.getOrg b _ _ >>= _) = (RedactApi.getOrg a _ _ >>= _)
    rw [hagree.getOrg]

/-- Page 1 of `GET /memberships` and of `GET /organizations`, for the caller 1: with and
without another organisation, the answers differ. -/
theorem listings_leak :
    ∃ a b tenant, validateTenantContext a.tables 1 ownToken = .ok tenant ∧ SameView 1 a b ∧
      ∀ params : Params,
        (ReadRequest.listMemberships params).respond b 1 ownToken ≠
            (ReadRequest.listMemberships params).respond a 1 ownToken ∧
          (ReadRequest.listOrgs params).respond b 1 ownToken ≠
            (ReadRequest.listOrgs params).respond a 1 ownToken := by
  have hagree := sameView_besideAnother 1
  have hours := ownToken_accepted 1
  have hboth := (hagree.validate ownToken).trans hours
  refine ⟨plain (oneOrganization 1), plain (besideAnother 1), _, hours, hagree, fun params => ?_⟩
  have hours' : validateTenantContext (plain (oneOrganization 1)).tables 1 ownToken =
    .ok ⟨10, 1, .member⟩ := hours
  simp only [ReadRequest.respond, hboth, hours']
  constructor
  · intro h
    exact (listings_differ 1 params).1 (ReadResponse.memberships.inj (Except.ok.inj h))
  · intro h
    exact (listings_differ 1 params).2 (ReadResponse.organizations.inj (Except.ok.inj h))

end RedactApi
