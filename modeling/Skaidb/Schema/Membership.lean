import Skaidb.Schema.Roles

namespace Skaidb.Schema

open Skaidb.Base Skaidb.Exec Skaidb.Storage List OrdMap RoleStore RoleStatement AuthRoleDef Catalog

section Store

namespace RoleStore

variable (store : RoleStore)

def parents (role : String) : List String :=
  match store.roles.get? role with
  | none => []
  | some r => r.inherits

def holds (privilege : Privilege) (object : AuthObject) (role : String) : Bool :=
  match store.roles.get? role with
  | none => false
  | some r => allows r privilege object

theorem check_eq_search (privilege : Privilege) (object : AuthObject) (fuel : Nat) (role : String)
    (visited : List String) : store.check privilege object fuel role visited =
      search store.parents (store.holds privilege object) fuel role visited := by
  induction fuel generalizing role visited with
  | zero => rfl
  | succ fuel ih =>
    have hvisit : store.check privilege object fuel =
        search store.parents (store.holds privilege object) fuel := by
      funext role visited
      exact ih role visited
    rw [check, search, hvisit, parents, holds]
    cases store.roles.get? role with
    | none => simp [searchAny]
    | some r => simp

theorem hasPrivilege_iff : store.hasPrivilege role privilege object = true ↔
      ∃ holder, Reaches store.parents role holder ∧ store.holds privilege object holder = true := by
  have hnodes : ∀ x, x ∉ store.roles.keys → store.parents x = [] := by
    intro x hx
    rw [OrdMap.mem_keys, not_exists] at hx
    rw [parents, Option.eq_none_iff_forall_ne_some.mpr hx]
  rw [hasPrivilege, check_eq_search]
  exact search_iff hnodes (Nat.lt_succ_self _)

-- Inheritance may be cyclic or name roles that do not exist: the shared set of visited roles
-- loses no grant.
theorem hasPrivilege_closure (store : RoleStore) (role : String) (privilege : Privilege) (object : AuthObject) :
    store.hasPrivilege role privilege object = true ↔
      ∃ holder r, Reaches store.parents role holder ∧ store.roles.get? holder = some r ∧
        ((.global, .admin) ∈ r.grants ∨ (.global, privilege) ∈ r.grants ∨
          (object, privilege) ∈ r.grants ∨ (object, .admin) ∈ r.grants) := by
  rw [hasPrivilege_iff]
  refine exists_congr fun holder => ?_
  cases hget : store.roles.get? holder with
  | none => simp [holds, hget]
  | some r =>
    simp only [holds, hget, allows, grantsContains, Bool.or_eq_true, decide_eq_true_iff, Option.some.injEq,
      exists_and_left, exists_eq_left']
    tauto

end RoleStore

def parsedGrants (grants : List (String × Option String)) : List (AuthObject × Privilege) :=
  grants.filterMap (fun g => (privilegeFromName g.1).map (fun p => (grantObject g.2, p)))

-- The role a definition becomes in the store: parents that do not exist are skipped.
def AuthRoleDef.built (c : Catalog) (role : AuthRoleDef) : Role :=
  ⟨(parsedGrants role.grants).reverse, (role.inherits.filter c.authRoles.contains).reverse⟩

theorem orKeep_grant (store : RoleStore) (name : String) (p : Privilege) (o : AuthObject) :
    store.orKeep (store.grant name p o) =
      ⟨store.roles.modify name (fun r => { r with grants := (o, p) :: r.grants })⟩ := by
  rw [RoleStore.grant]
  by_cases hc : store.roles.contains name = true
  · simp [hc, orKeep]
  · simp [hc, orKeep, modify_of_not_contains hc]

theorem orKeep_grantRole {store : RoleStore} :
    store.orKeep (store.grantRole name parent) =
      if store.roles.contains parent then
        ⟨store.roles.modify name (fun r => { r with inherits := parent :: r.inherits })⟩
      else store := by
  rw [RoleStore.grantRole]
  by_cases hp : store.roles.contains parent = true
  · by_cases hc : store.roles.contains name = true
    · simp [hp, hc, RoleStore.orKeep]
    · simp [hp, hc, RoleStore.orKeep, modify_of_not_contains hc]
  · simp [hp, RoleStore.orKeep]

theorem get?_storeGrants (name : String) (grants : List (String × Option String)) (store : RoleStore)
    (other : String) : (storeGrants name grants store).roles.get? other =
      if other = name then
        (store.roles.get? name).map
          (fun r => { r with grants := (parsedGrants grants).reverse ++ r.grants })
      else store.roles.get? other := by
  induction grants generalizing store with
  | nil =>
    by_cases ho : other = name
    · simp [storeGrants, parsedGrants, ho]
    · simp [storeGrants, ho]
  | cons g rest ih =>
    rw [storeGrants, foldl_cons, ← storeGrants, ih]
    cases hp : privilegeFromName g.1 with
    | none => simp [parsedGrants, hp]
    | some p =>
      simp only [orKeep_grant, get?_modify]
      by_cases ho : other = name
      · simp [ho, parsedGrants, hp, Function.comp_def]
      · simp [ho]

theorem get?_storeEdges (name : String) (inherited : List String) (store : RoleStore) (other : String) :
    (storeEdges name inherited store).roles.get? other =
      if other = name then
        (store.roles.get? name).map
          (fun r => { r with inherits := (inherited.filter store.roles.contains).reverse ++ r.inherits })
      else store.roles.get? other := by
  induction inherited generalizing store with
  | nil =>
    by_cases ho : other = name
    · simp [storeEdges, ho]
    · simp [storeEdges, ho]
  | cons parent rest ih =>
    rw [storeEdges, foldl_cons, ← storeEdges, ih, orKeep_grantRole]
    by_cases hp : store.roles.contains parent = true
    · simp only [hp, if_true, contains_modify, get?_modify]
      by_cases ho : other = name
      · simp [ho, hp, Function.comp_def]
      · simp [ho]
    · by_cases ho : other = name
      · simp [ho, hp]
      · simp [ho, hp]

theorem contains_storeGrants (name : String) (grants : List (String × Option String)) (store : RoleStore) :
    (storeGrants name grants store).roles.contains = store.roles.contains := by
  funext other
  rw [OrdMap.contains, OrdMap.contains, get?_storeGrants]
  by_cases ho : other = name
  · simp [ho]
  · simp [ho]

theorem contains_storeEdges (name : String) (inherited : List String) (store : RoleStore) :
    (storeEdges name inherited store).roles.contains = store.roles.contains := by
  funext other
  rw [OrdMap.contains, OrdMap.contains, get?_storeEdges]
  by_cases ho : other = name
  · simp [ho]
  · simp [ho]

private theorem get?_fold_entries (entries : List (String × AuthRoleDef)) (store : RoleStore)
    (hnodup : (entries.map Prod.fst).Nodup) (name : String) :
    (entries.foldl (fun store e => storeEdges e.1 e.2.inherits (storeGrants e.1 e.2.grants store))
      store).roles.get? name =
      match lookup entries name with
      | none => store.roles.get? name
      | some role => (store.roles.get? name).map (fun r =>
        ⟨(parsedGrants role.grants).reverse ++ r.grants,
          (role.inherits.filter store.roles.contains).reverse ++ r.inherits⟩) := by
  induction entries generalizing store with
  | nil => rfl
  | cons e rest ih =>
    obtain ⟨hfresh, hrest⟩ := nodup_cons.mp hnodup
    rw [foldl_cons, ih _ hrest, contains_storeEdges, contains_storeGrants]
    simp only [get?_storeEdges, get?_storeGrants, contains_storeGrants]
    by_cases hname : name = e.1
    · have hnone : lookup rest name = none := by
        rw [OrdMap.lookup_eq_none_iff]
        intro x hx heq
        exact hfresh (mem_map.mpr ⟨x, hx, heq.trans hname⟩)
      rw [OrdMap.lookup_cons, if_pos hname, hnone]
      simp [hname, Function.comp_def]
    · rw [lookup_cons_of_ne hname]
      simp [hname]

private theorem get?_fold_created {names : List String} {store : RoleStore} :
    (names.foldl (fun store name => store.orKeep (store.createRole name)) store).roles.get? name =
      if store.roles.contains name then store.roles.get? name
      else if name ∈ names then some ⟨[], []⟩ else none := by
  induction names generalizing store with
  | nil =>
    by_cases hc : store.roles.contains name = true
    · simp [hc]
    · have hnone : store.roles.get? name = none := by simpa [OrdMap.contains] using hc
      simp [hc, hnone]
  | cons first rest ih =>
    rw [foldl_cons, ih, RoleStore.createRole]
    by_cases hf : store.roles.contains first = true
    · by_cases hname : name = first
      · subst hname
        simp [hf, orKeep]
      · simp [hf, orKeep, hname]
    · by_cases hname : name = first
      · subst hname
        simp [hf, orKeep]
      · simp [hf, orKeep, hname]

theorem get?_buildRoleStore {c : Catalog} :
    (buildRoleStore c).roles.get? name = (c.authRoles.get? name).map (built c) := by
  have hcreated : ∀ other, (c.authRoles.keys.foldl
      (fun store name => store.orKeep (store.createRole name)) RoleStore.new).roles.get? other =
        if other ∈ c.authRoles.keys then some ⟨[], []⟩ else none := by
    intro other
    rw [get?_fold_created]
    simp [RoleStore.new, OrdMap.contains]
  have hcontains : (c.authRoles.keys.foldl
      (fun store name => store.orKeep (store.createRole name)) RoleStore.new).roles.contains =
        c.authRoles.contains := by
    funext other
    rw [OrdMap.contains, hcreated, Bool.eq_iff_iff, OrdMap.contains_iff]
    by_cases ho : other ∈ c.authRoles.keys
    · simp [ho]
    · simp [ho]
  rw [buildRoleStore, get?_fold_entries _ _ c.authRoles.nodup_keys, hcontains, hcreated]
  change (match c.authRoles.get? name with | none => _ | some role => _) = _
  cases hrole : c.authRoles.get? name with
  | none =>
    have hnot : name ∉ c.authRoles.keys := by simp [OrdMap.mem_keys, hrole]
    simp [hnot]
  | some role =>
    have hmem : name ∈ c.authRoles.keys := (OrdMap.mem_keys _ _).mpr ⟨role, hrole⟩
    simp [hmem, AuthRoleDef.built]

end Store

section Edges

def Catalog.inherits (c : Catalog) (member : String) : List String :=
  match c.authRoles.get? member with
  | none => []
  | some role => role.inherits

theorem mem_parents {c : Catalog} : parent ∈ (buildRoleStore c).parents member ↔
      parent ∈ c.inherits member ∧ c.authRoles.contains parent = true := by
  rw [RoleStore.parents, get?_buildRoleStore, Catalog.inherits]
  cases c.authRoles.get? member with
  | none => simp
  | some role => simp [AuthRoleDef.built]

def Through (c : Catalog) (member role : String) (privilege : Privilege) (object : AuthObject) : Prop :=
  Relation.TransGen (fun m p => p ∈ (buildRoleStore c).parents m) member role ∧
    (buildRoleStore c).hasPrivilege role privilege object = true

end Edges

section Effects

variable (c : Catalog) (hlc : Hlc) (scram : Scram)

def RoleStatement.creates : RoleStatement → Option String
  | createUser name _ _ _ _ | alterUser name _ | createRole name _ _ => some name
  | _ => none

def RoleStatement.memberships : RoleStatement → List (String × String)
  | grantRole role member =>
    if c.authRoles.contains role && c.authRoles.contains member then [(member, role)] else []
  | createRole name _ (some enc) =>
    if c.schemaAdvances (.role name) hlc then
      match decodeRoleState enc with
      | .ok role => role.inherits.map (fun parent => (name, parent))
      | .error _ => []
    else []
  | _ => []

-- What a statement can do to the roles; an edge it leaves was there or is one it grants.
inductive RolesAfter (s : RoleStatement) : OrdMap String AuthRoleDef → Prop where
  | same : RolesAfter s c.authRoles
  | placed (name : String) (role : AuthRoleDef) (hname : s.creates = some name)
      (hedges : ∀ p ∈ role.inherits, p ∈ c.inherits name ∨ (name, p) ∈ s.memberships c hlc) :
      RolesAfter s (c.authRoles.insert name role)
  | erased (name : String) : RolesAfter s (c.authRoles.erase name)
  | edited (name : String) (edit : AuthRoleDef → AuthRoleDef)
      (hedges : ∀ role, ∀ p ∈ (edit role).inherits,
        p ∈ role.inherits ∨ (c.authRoles.contains name = true → (name, p) ∈ s.memberships c hlc)) :
      RolesAfter s (c.authRoles.modify name edit)

private theorem createUser_after (s : RoleStatement) (name : String) (password verifier : Option String)
    (gssapi ifNotExists replace : Bool) (hname : s.creates = some name) : RolesAfter c hlc s
      (createUser c hlc scram name password verifier gssapi ifNotExists replace).1.authRoles := by
  unfold createUser
  cases userCredential scram name password verifier gssapi with
  | error e =>
    simp only
    split_ifs
    · exact .same
    · exact .same
    · exact .same
    · exact .same
  | ok user =>
    simp only
    split_ifs
    · exact .same
    · exact .same
    · exact .same
    · exact .same
    · exact .same
    · exact .placed name AuthRoleDef.default hname (by simp [AuthRoleDef.default])

private theorem editRole_after {s : RoleStatement}
    (hedges : ∀ role, ∀ p ∈ (edit role).inherits, p ∈ role.inherits ∨
      (c.authRoles.contains name = true → (name, p) ∈ s.memberships c hlc)) :
    RolesAfter c hlc s (editRole c hlc name edit).1.authRoles := by
  unfold editRole
  split_ifs
  · exact .same
  · exact .edited name edit hedges

theorem rolesAfter_apply (s : RoleStatement) : RolesAfter c hlc s (s.apply c hlc scram).1.authRoles := by
  cases s with
  | createUser user password verifier gssapi ifNotExists =>
    exact createUser_after c hlc scram _ user password verifier gssapi ifNotExists false rfl
  | alterUser user password =>
    exact createUser_after c hlc scram _ user (some password) none false false true rfl
  | dropUser user ifExists =>
    simp only [apply, dropUser]
    split_ifs
    · exact .same
    · exact .same
    · exact .erased user
  | createRole role ifNotExists state =>
    simp only [apply, createAuthRole]
    split_ifs with hstale
    · exact .same
    · exact .same
    · cases state with
      | none =>
        refine .placed role _ rfl ?_
        intro p hp
        left
        rw [Catalog.inherits]
        cases hrole : c.authRoles.get? role with
        | none => simp [hrole, AuthRoleDef.default] at hp
        | some def' => simpa [hrole] using hp
      | some enc =>
        simp only
        cases hdec : decodeRoleState enc with
        | error e => exact .same
        | ok def' =>
          refine .placed role def' rfl ?_
          intro p hp
          right
          simp only [Bool.not_eq_true', Bool.not_eq_false] at hstale
          simp [memberships, hstale, hdec, hp]
  | dropRole role ifExists =>
    simp only [apply, dropAuthRole]
    split_ifs
    · exact .same
    · exact .same
    · exact .same
    · exact .erased role
  | grant privilege object role =>
    simp only [apply, grant]
    split_ifs
    · exact .same
    · refine editRole_after c hlc ?_
      intro r p hp
      left
      split_ifs at hp
      · exact hp
      · exact hp
  | revoke privilege object role =>
    exact editRole_after c hlc (fun r p hp => .inl hp)
  | grantRole role member =>
    simp only [apply, grantRoleEdge]
    split_ifs with hparent
    · exact .same
    · refine editRole_after c hlc ?_
      intro r p hp
      simp only [Bool.true_and, Bool.not_eq_true', Bool.not_eq_false] at hparent
      split_ifs at hp
      · exact .inl hp
      · simp only [mem_append, mem_singleton] at hp
        obtain hp | rfl := hp
        · exact .inl hp
        · exact .inr (fun hmember => by simp [memberships, hparent, hmember])
  | revokeRole role member =>
    refine editRole_after c hlc ?_
    intro r p hp
    left
    simp only [Bool.false_eq_true, if_false, mem_filter] at hp
    exact hp.1

theorem creates_of_contains {s : RoleStatement} {after : OrdMap String AuthRoleDef}
    (h : RolesAfter c hlc s after) (hafter : after.contains name = true)
    (hbefore : c.authRoles.contains name = false) : s.creates = some name := by
  cases h with
  | same => simp [hbefore] at hafter
  | placed placed role hname hedges =>
    simp only [OrdMap.contains_insert, hbefore, Bool.or_false, decide_eq_true_eq] at hafter
    rw [hafter, hname]
  | erased gone | edited edited edit hedges => simp [hbefore] at hafter

theorem edge_of_mem {s : RoleStatement} {c' : Catalog} (h : RolesAfter c hlc s c'.authRoles)
    (hedge : parent ∈ c'.inherits member) :
    parent ∈ c.inherits member ∨ (member, parent) ∈ s.memberships c hlc := by
  rw [Catalog.inherits] at hedge ⊢
  generalize c'.authRoles = after at h hedge
  cases h with
  | same => exact .inl hedge
  | placed name role hname hedges =>
    rw [OrdMap.get?_insert] at hedge
    by_cases hm : member = name
    · subst hm
      rw [if_pos rfl] at hedge
      exact hedges parent hedge
    · rw [if_neg hm] at hedge
      exact .inl hedge
  | erased name =>
    rw [OrdMap.get?_erase] at hedge
    by_cases hm : member = name
    · simp [hm] at hedge
    · rw [if_neg hm] at hedge
      exact .inl hedge
  | edited name edit hedges =>
    rw [OrdMap.get?_modify] at hedge
    by_cases hm : member = name
    · subst hm
      cases hrole : c.authRoles.get? member with
      | none => simp [hrole] at hedge
      | some role =>
        simp only [hrole, if_true, Option.map_some] at hedge
        obtain hold | hnew := hedges role parent hedge
        · exact .inl hold
        · exact .inr (hnew (by simp [OrdMap.contains, hrole]))
    · rw [if_neg hm] at hedge
      exact .inl hedge

end Effects

section Runs

variable (scram : Scram)

-- A catalog with what its history adds: the roles dropped so far, and the memberships that
-- were granted since the parent was last created.
structure Traced where
  catalog : Catalog
  dropped : List String
  granted : List (String × String)

namespace Traced

def start : Traced := ⟨Catalog.default, [], []⟩

def step (t : Traced) (action : Hlc × RoleStatement) : Traced :=
  let after := (action.2.apply t.catalog action.1 scram).1
  { catalog := after
    dropped := t.dropped ++ t.catalog.authRoles.keys.filter (fun r => !after.authRoles.contains r)
    granted :=
      t.granted.filter (fun e => t.catalog.authRoles.contains e.2 || !after.authRoles.contains e.2) ++
        action.2.memberships t.catalog action.1 }

-- No role has what a re-created role has unless the memberships that lead to it are newer
-- than the roles they lead to.
def StaysDropped (t : Traced) : Prop :=
  ∀ role ∈ t.dropped, ∀ member, member ≠ role → ∀ privilege object,
    Through t.catalog member role privilege object →
      Relation.TransGen (fun m p => (m, p) ∈ t.granted) member role

-- The statement makes a new role under a name that no role lists any more.
def NoLeftovers (t : Traced) (action : Hlc × RoleStatement) : Prop :=
  match action.2.creates with
  | none => True
  | some name =>
    t.catalog.authRoles.contains name = true ∨
      ∀ member ∈ t.catalog.authRoles.keys, name ∉ t.catalog.inherits member

instance (t : Traced) (action : Hlc × RoleStatement) : Decidable (NoLeftovers t action) := by
  unfold NoLeftovers
  split <;> infer_instance

def Fresh (t : Traced) : Prop :=
  ∀ member parent, parent ∈ t.catalog.inherits member → t.catalog.authRoles.contains parent = true →
    (member, parent) ∈ t.granted

variable {scram}

theorem Fresh.step {t : Traced} (h : t.Fresh) (hclean : t.NoLeftovers action) : (t.step scram action).Fresh := by
  intro member parent hedge hexists
  have hafter := rolesAfter_apply t.catalog action.1 scram action.2
  obtain hold | hnew := edge_of_mem t.catalog action.1 hafter hedge
  · cases hbefore : t.catalog.authRoles.contains parent with
    | true =>
      refine mem_append_left _ (mem_filter.mpr ⟨h member parent hold hbefore, ?_⟩)
      simp [hbefore]
    | false =>
      have hcreates := creates_of_contains t.catalog action.1 hafter hexists hbefore
      simp only [NoLeftovers, hcreates, hbefore, Bool.false_eq_true, false_or] at hclean
      refine absurd hold (hclean member ?_)
      rw [OrdMap.mem_keys]
      rw [Catalog.inherits] at hold
      cases hrole : t.catalog.authRoles.get? member with
      | none => simp [hrole] at hold
      | some role => exact ⟨role, rfl⟩
  · exact mem_append_right _ hnew

theorem Fresh.staysDropped {t : Traced} (h : t.Fresh) : t.StaysDropped := by
  rintro role - member - privilege object ⟨hpath, -⟩
  refine Relation.TransGen.mono ?_ member role hpath
  intro m p hedge
  rw [mem_parents] at hedge
  exact h m p hedge.1 hedge.2

-- In every run of role and user statements in which a new role never takes a name that some
-- role still lists, dropped roles stay dropped.
theorem staysDropped_run (scram : Scram) (run : List (Hlc × RoleStatement))
    (h : Along (step scram) NoLeftovers start run) : (run.foldl (step scram) start).StaysDropped := by
  have hfresh : (run.foldl (step scram) start).Fresh := by
    refine Along.invariant (fun t action ht hclean => Fresh.step ht hclean) h ?_
    intro member parent hedge
    simp [start, Catalog.inherits, Catalog.default] at hedge
  exact hfresh.staysDropped

end Traced

end Runs

section Scenarios

def plainScram : Scram := ⟨fun _ password => password, fun _ => true⟩

def stamped (statements : List RoleStatement) : List (Hlc × RoleStatement) :=
  statements.zipIdx.map (fun s => (⟨s.2.toUInt64 + 1, 0⟩, s.1))

def droppedWithMember : List (Hlc × RoleStatement) :=
  stamped [.createRole "p" false none, .createRole "m" false none, .grantRole "p" "m",
    .dropRole "p" false, .createRole "p" false none, .grant "select" (some "t") "p"]

def droppedWithoutMember : List (Hlc × RoleStatement) :=
  stamped [.createRole "p" false none, .createRole "m" false none, .grantRole "p" "m",
    .revokeRole "p" "m", .dropRole "p" false, .createRole "p" false none, .grant "select" (some "t") "p",
    .grantRole "p" "m"]

theorem Traced.staysDropped_droppedWithoutMember :
    (droppedWithoutMember.foldl (Traced.step plainScram) Traced.start).StaysDropped ∧
      (buildRoleStore (droppedWithoutMember.foldl (Traced.step plainScram) Traced.start).catalog).hasPrivilege
        "m" .select (.table "t") = true :=
  ⟨Traced.staysDropped_run plainScram droppedWithoutMember (by decide +kernel), by decide +kernel⟩

theorem Traced.member_of_dropped_role :
    ¬(droppedWithMember.foldl (Traced.step plainScram) Traced.start).StaysDropped := by
  intro h
  have hthrough : Through (droppedWithMember.foldl (Traced.step plainScram) Traced.start).catalog
      "m" "p" .select (.table "t") :=
    ⟨.single (by decide +kernel), by decide +kernel⟩
  have hpath := h "p" (by decide +kernel) "m" (by decide) .select (.table "t") hthrough
  have hnone : (droppedWithMember.foldl (Traced.step plainScram) Traced.start).granted = [] := by
    decide
  rw [hnone] at hpath
  obtain ⟨_, hedge, _⟩ := Relation.TransGen.head'_iff.mp hpath
  simp at hedge

end Scenarios

end Skaidb.Schema
