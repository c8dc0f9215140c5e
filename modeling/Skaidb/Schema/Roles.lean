import Skaidb.Base.DepthFirst
import Skaidb.Schema.Catalog

namespace Skaidb.Schema

open Skaidb.Base Skaidb.Exec Skaidb.Storage

inductive Privilege where
  | select
  | insert
  | update
  | delete
  | create
  | drop
  | grant
  | monitor
  | admin
  deriving DecidableEq, Repr

def privilegeFromName (name : String) : Option Privilege :=
  match name.toLower with
  | "select" => some .select
  | "insert" => some .insert
  | "update" => some .update
  | "delete" => some .delete
  | "create" => some .create
  | "drop" => some .drop
  | "grant" => some .grant
  | "monitor" => some .monitor
  | "admin" => some .admin
  | _ => none

inductive AuthObject where
  | global
  | table (name : String)
  | database (name : String)
  deriving DecidableEq, Repr

section RoleState

def decodeRolePart (part : String) (role : AuthRoleDef) : Except EngineError AuthRoleDef :=
  match part.toList with
  | '+' :: parent => .ok { role with inherits := role.inherits ++ [String.ofList parent] }
  | _ =>
    match splitOnce '@' part with
    | none => .error (.constraint ("bad role state: " ++ part))
    | some (p, obj) =>
      match privilegeFromName p with
      | none => .error (.constraint ("bad role state: " ++ part))
      | some _ => .ok { role with grants := role.grants ++ [(p, if obj = "*" then none else some obj)] }

def decodeRoleState (enc : String) : Except EngineError AuthRoleDef :=
  ((splitAll ';' enc).filter (fun part => part ≠ "")).foldlM
    (fun role part => decodeRolePart part role) AuthRoleDef.default

end RoleState

section Handlers

-- Password hashing and the encoding of verifiers, from the authentication library.
structure Scram where
  derive : (name password : String) → String
  decodes : (verifier : String) → Bool

def userCredential (scram : Scram) (name : String) (password verifier : Option String) (gssapi : Bool) :
    Except EngineError UserDef :=
  if gssapi then .ok ⟨"", .gssapi⟩
  else
    match password, verifier with
    | some pw, _ => .ok ⟨scram.derive name pw, .scram⟩
    | none, some v =>
      if scram.decodes v then .ok ⟨v, .scram⟩
      else .error (.constraint "invalid VERIFIER encoding")
    | none, none => .error (.constraint "CREATE USER requires PASSWORD, VERIFIER, or GSSAPI")

variable (c : Catalog) (hlc : Hlc)

-- The verifier form is the replay path and always an upsert. A role that exists under the
-- user's name keeps its grants.
def createUser (scram : Scram) (name : String) (password verifier : Option String)
    (gssapi ifNotExists replace : Bool) : Applied :=
  let userExists := c.users.contains name
  if verifier = none ∧ replace ∧ ¬userExists then
    c.failed (.constraint ("user " ++ name.quote ++ " does not exist"))
  else if verifier = none ∧ ¬replace ∧ userExists then
    if ifNotExists then c.done
    else c.failed (.constraint ("user " ++ name.quote ++ " already exists"))
  else
    match userCredential scram name password verifier gssapi with
    | .error e => c.failed e
    | .ok user =>
      if !c.schemaAdvances (.user name) hlc then c.done
      else
        let roles := if c.authRoles.contains name then c.authRoles
          else c.authRoles.insert name AuthRoleDef.default
        let c := { c with users := c.users.insert name user, authRoles := roles }
        ((c.recordSchema (.user name) hlc false).recordSchema (.role name) hlc false).done

def dropUser (name : String) (ifExists : Bool) : Applied :=
  if !c.schemaAdvances (.user name) hlc then c.done
  else if !c.users.contains name && !ifExists then
    c.failed (.constraint ("user " ++ name.quote ++ " does not exist"))
  else
    let c := { c with users := c.users.erase name, authRoles := c.authRoles.erase name }
    ((c.recordSchema (.user name) hlc true).recordSchema (.role name) hlc true).done

def createAuthRole (name : String) (state : Option String) (ifNotExists : Bool) : Applied :=
  if !c.schemaAdvances (.role name) hlc then c.done
  else if c.authRoles.contains name && !ifNotExists && state.isNone then
    c.failed (.constraint ("role " ++ name.quote ++ " already exists"))
  else
    let decoded := match state with
      | some enc => decodeRoleState enc
      | none => .ok ((c.authRoles.get? name).getD AuthRoleDef.default)
    match decoded with
    | .error e => c.failed e
    | .ok role =>
      (({ c with authRoles := c.authRoles.insert name role }).recordSchema (.role name) hlc false).done

def dropAuthRole (name : String) (ifExists : Bool) : Applied :=
  if c.users.contains name then
    c.failed (.constraint "cannot drop a user's personal role; DROP USER instead")
  else if !c.schemaAdvances (.role name) hlc then c.done
  else if !c.authRoles.contains name && !ifExists then
    c.failed (.constraint ("role " ++ name.quote ++ " does not exist"))
  else
    (({ c with authRoles := c.authRoles.erase name }).recordSchema (.role name) hlc true).done

-- A role that exists is edited and stamped, whatever its version.
def editRole (role : String) (edit : AuthRoleDef → AuthRoleDef) : Applied :=
  if !c.authRoles.contains role then
    c.failed (.constraint ("role " ++ role.quote ++ " does not exist"))
  else
    (({ c with authRoles := c.authRoles.modify role edit }).recordSchema (.role role) hlc false).done

def grant (role privilege : String) (table : Option String) : Applied :=
  if privilegeFromName privilege = none then
    c.failed (.constraint ("unknown privilege " ++ privilege.quote))
  else
    editRole c hlc role (fun r =>
      let entry := (privilege.toLower, table)
      if entry ∈ r.grants then r else { r with grants := r.grants ++ [entry] })

def revoke (role privilege : String) (table : Option String) : Applied :=
  editRole c hlc role (fun r =>
    { r with grants := r.grants.filter (fun g => g ≠ (privilege.toLower, table)) })

def grantRoleEdge (member parent : String) (add : Bool) : Applied :=
  if add && !c.authRoles.contains parent then
    c.failed (.constraint ("role " ++ parent.quote ++ " does not exist"))
  else
    editRole c hlc member (fun r =>
      if add then if parent ∈ r.inherits then r else { r with inherits := r.inherits ++ [parent] }
      else { r with inherits := r.inherits.filter (fun p => p ≠ parent) })

inductive RoleStatement where
  | createUser (name : String) (password verifier : Option String) (gssapi ifNotExists : Bool)
  | alterUser (name password : String)
  | dropUser (name : String) (ifExists : Bool)
  | createRole (name : String) (ifNotExists : Bool) (state : Option String)
  | dropRole (name : String) (ifExists : Bool)
  | grant (privilege : String) (object : Option String) (role : String)
  | revoke (privilege : String) (object : Option String) (role : String)
  | grantRole (role member : String)
  | revokeRole (role member : String)
  deriving DecidableEq

def RoleStatement.apply (scram : Scram) : RoleStatement → Applied
  | createUser name password verifier gssapi ifNotExists =>
    Schema.createUser c hlc scram name password verifier gssapi ifNotExists false
  | alterUser name password => Schema.createUser c hlc scram name (some password) none false false true
  | dropUser name ifExists => Schema.dropUser c hlc name ifExists
  | createRole name ifNotExists state => createAuthRole c hlc name state ifNotExists
  | dropRole name ifExists => dropAuthRole c hlc name ifExists
  | grant privilege object role => Schema.grant c hlc role privilege object
  | revoke privilege object role => Schema.revoke c hlc role privilege object
  | grantRole role member => grantRoleEdge c hlc member role true
  | revokeRole role member => grantRoleEdge c hlc member role false

end Handlers

section RoleStore

structure Role where
  grants : List (AuthObject × Privilege)
  inherits : List String
  deriving DecidableEq

structure RoleStore where
  roles : OrdMap String Role

inductive RbacError where
  | noSuchRole (name : String)
  | roleExists (name : String)
  deriving DecidableEq

namespace RoleStore

variable (store : RoleStore)

def new : RoleStore := ⟨OrdMap.empty⟩

def createRole (name : String) : Except RbacError RoleStore :=
  if store.roles.contains name then .error (.roleExists name)
  else .ok ⟨store.roles.insert name ⟨[], []⟩⟩

def grant (role : String) (privilege : Privilege) (object : AuthObject) : Except RbacError RoleStore :=
  if !store.roles.contains role then .error (.noSuchRole role)
  else .ok ⟨store.roles.modify role (fun r => { r with grants := (object, privilege) :: r.grants })⟩

def grantRole (member parent : String) : Except RbacError RoleStore :=
  if !store.roles.contains parent then .error (.noSuchRole parent)
  else if !store.roles.contains member then .error (.noSuchRole member)
  else .ok ⟨store.roles.modify member (fun r => { r with inherits := parent :: r.inherits })⟩

def grantsContains (grants : List (AuthObject × Privilege)) (object : AuthObject)
    (privilege : Privilege) : Bool :=
  (object, privilege) ∈ grants

def allows (r : Role) (privilege : Privilege) (object : AuthObject) : Bool :=
  grantsContains r.grants .global .admin || grantsContains r.grants object privilege ||
    grantsContains r.grants .global privilege || grantsContains r.grants object .admin

def check (privilege : Privilege) (object : AuthObject) : Nat → String → List String → Bool × List String
  | 0, _, visited => (false, visited)
  | fuel + 1, role, visited =>
    if role ∈ visited then (false, visited)
    else
      match store.roles.get? role with
      | none => (false, role :: visited)
      | some r =>
        if allows r privilege object then (true, role :: visited)
        else searchAny (check privilege object fuel) r.inherits (role :: visited)

def hasPrivilege (role : String) (privilege : Privilege) (object : AuthObject) : Bool :=
  (store.check privilege object (store.roles.keys.length + 1) role []).1

end RoleStore

def DB_OBJECT_PREFIX : String := "db:"

def grantObject : Option String → AuthObject
  | none => .global
  | some t =>
    if DB_OBJECT_PREFIX.toList.isPrefixOf t.toList then
      .database (String.ofList (t.toList.drop DB_OBJECT_PREFIX.length))
    else .table t

-- An operation of the store that fails is skipped.
def RoleStore.orKeep (store : RoleStore) (result : Except RbacError RoleStore) : RoleStore :=
  match result with
  | .ok store' => store'
  | .error _ => store

def storeGrants (name : String) (grants : List (String × Option String)) (store : RoleStore) : RoleStore :=
  grants.foldl
    (fun store g =>
      match privilegeFromName g.1 with
      | none => store
      | some p => store.orKeep (store.grant name p (grantObject g.2)))
    store

def storeEdges (name : String) (parents : List String) (store : RoleStore) : RoleStore :=
  parents.foldl (fun store parent => store.orKeep (store.grantRole name parent)) store

def buildRoleStore (c : Catalog) : RoleStore :=
  let created := c.authRoles.keys.foldl
    (fun store name => store.orKeep (store.createRole name)) RoleStore.new
  c.authRoles.entries.foldl
    (fun store e => storeEdges e.1 e.2.inherits (storeGrants e.1 e.2.grants store)) created

end RoleStore

end Skaidb.Schema
