import Skaidb.Schema.Authorization

namespace Skaidb.Schema

open Skaidb.Base Skaidb.Storage

variable {Row : Type}

structure Contents (Row : Type) where
  rows : String → List Row
  catalog : Catalog

-- The versions of the objects are not part of their definitions.
def Contents.Same (h h' : Contents Row) : Prop :=
  h'.rows = h.rows ∧ ∀ key, h'.catalog.object key = h.catalog.object key

-- The statements, with what the control plane holds taken apart. A restore that fails puts the
-- previous data back.
inductive Request (Row : Type) where
  | statement (s : Auth.Statement) (plain : s ≠ .controlPlane)
  | clusterControl
  | backup
  | restore (image : Option (Contents Row))

def Request.auth : Request Row → Auth.Statement
  | .statement s _ => s
  | .clusterControl | .backup | .restore _ => .controlPlane

-- SHOW GRANTS FOR the session's own role needs no privilege.
def Request.inspects (role : String) : Request Row → Bool
  | .statement (.showGrants (some r)) _ => r = role
  | _ => false

def Privilege.mutating : Privilege → Bool
  | .insert | .update | .delete | .create | .drop | .grant => true
  | .select | .monitor | .admin => false

-- The statements on indexes that exist leave the rows of every table as they are.
def Statement.onIndex : Statement → Bool
  | .dropIndex _ _ | .dropVectorIndex _ _ | .dropSearchIndex _ _ | .dropGeoIndex _ _ | .alterSearchIndex _ _
  | .alterVectorIndex _ _ => true
  | _ => false

section Effects

-- What becomes of the rows is left open where a statement writes them.
variable (write : Auth.Statement → Contents Row → String → List Row) (x : Execution) (currentDb : String)

def Contents.run (h : Contents Row) : Request Row → Contents Row
  | .statement (.ddl s) _ =>
    { rows := if s.onIndex then h.rows else write (.ddl s) h
      catalog := ((s.resolve currentDb).apply x.world h.catalog x.hlc).1 }
  | .statement s _ =>
    match s with
    | .insert _ _ | .update _ | .delete _ | .transactionControl => { h with rows := write s h }
    | _ => h
  | .clusterControl => { h with rows := write .controlPlane h }
  | .backup => h
  | .restore image => image.getD h

end Effects

structure Session where
  store : RoleStore
  superuserRole : String
  role : String
  currentDb : String
  readOnly : Bool

namespace Session

variable (session : Session) (c : Catalog)

def refuses (s : Auth.Statement) : Bool :=
  (requiredPrivilege (c.indexOwnerTable session.currentDb) s).any (fun need => need.1.mutating) &&
    session.role ≠ session.superuserRole && session.readOnly

def passes (r : Request Row) : Bool :=
  r.inspects session.role ||
    session.store.authorized c session.currentDb session.role r.auth && !session.refuses c r.auth

def execute (write : Auth.Statement → Contents Row → String → List Row) (x : Execution) (h : Contents Row)
    (r : Request Row) : Contents Row :=
  if session.passes h.catalog r then h.run write x session.currentDb r else h

end Session

theorem Contents.Same.refl (h : Contents Row) : h.Same h := ⟨rfl, fun _ => rfl⟩

theorem erase_eq_self {m : OrdMap String ν} (h : m.get? name = none) : m.erase name = m := by
  refine OrdMap.ext_entries (OrdMap.eq_of_lookup_eq (m.erase name).sorted m.sorted fun other => ?_)
  refine (OrdMap.get?_erase m).trans ?_
  split_ifs with heq
  · rw [heq, ← h]
    rfl
  · rfl

theorem indexTable_eq_none {c : Catalog} (h : c.indexOwnerTable currentDb index = none) :
    c.indexTable (qualify currentDb index) kind = none := by
  simp only [Catalog.indexOwnerTable, Option.map_eq_none_iff, Option.or_eq_none_iff] at h
  cases kind
  · exact h.1.1.1
  · exact h.1.1.2
  · exact h.1.2
  · exact h.2

-- A statement on an index that has no owner finds none to change. The name in ALTER VECTOR
-- INDEX is another one than was looked up.
theorem object_of_no_owner {c : Catalog} {s : Statement} (hindex : s.onIndex = true)
    (hvector : ∀ name options, s ≠ .alterVectorIndex name options)
    (howner : s.requiredPrivilege (c.indexOwnerTable currentDb) = none) (w : World) (key : SchemaKey) :
    ((s.resolve currentDb).apply w c hlc).1.object key = c.object key := by
  cases s with
  | dropIndex name ifExists | dropVectorIndex name ifExists | dropSearchIndex name ifExists
  | dropGeoIndex name ifExists | alterSearchIndex name options =>
    have hnone : c.indexOwnerTable currentDb name = none := by simpa [Statement.requiredPrivilege] using howner
    have hall : ∀ kind, c.indexTable (qualify currentDb name) kind = none := fun _ => indexTable_eq_none hnone
    have hs := hall .secondary
    have hv := hall .vector
    have hf := hall .search
    have hg := hall .geo
    simp only [Catalog.indexTable, Option.map_eq_none_iff] at hs hv hf hg
    simp only [Statement.resolve, Statement.apply, dropIndex, dropVectorIndex, dropSearchIndex, dropGeoIndex,
      alterSearchIndex, OrdMap.contains, hs, hv, hf, hg, erase_eq_self]
    repeat' split
    all_goals rfl
  | alterVectorIndex name options => exact absurd rfl (hvector name options)
  | _ => cases hindex

theorem object_modify_iff {c : Catalog} {f : VectorIndexDef → VectorIndexDef} (h : c.vectorIndexes.get? name = some d) :
    (∀ key, (({ c with vectorIndexes := c.vectorIndexes.modify name f }).recordSchema (.vector name) hlc false).object
      key = c.object key) ↔ f d = d := by
  constructor
  · intro hkeys
    simpa [Catalog.object, Catalog.recordSchema, h] using hkeys (.vector name)
  · intro hf key
    cases key with
    | vector other =>
      by_cases heq : other = name
      · simp [Catalog.object, Catalog.recordSchema, heq, h, hf]
      · simp [Catalog.object, Catalog.recordSchema, heq]
    | _ => rfl

theorem object_alterVectorIndex_iff {c : Catalog} :
    (∀ key, (alterVectorIndex c hlc name options).1.object key = c.object key) ↔
      ∀ d ef, c.vectorIndexes.get? name = some d → vectorOptions options none = .ok (some ef) →
        c.schemaAdvances (.vector name) hlc = true → d.efSearch = some ef := by
  unfold alterVectorIndex
  cases hoptions : vectorOptions options none with
  | error e => simp [Catalog.failed]
  | ok ef =>
    cases hadv : c.schemaAdvances (.vector name) hlc with
    | false => simp [Catalog.done]
    | true =>
      cases hget : c.vectorIndexes.get? name with
      | none => simp [OrdMap.contains, hget, Catalog.failed]
      | some d =>
        simp only [OrdMap.contains, hget]
        refine (object_modify_iff hget).trans ?_
        obtain ⟨table, path, metric, dim, efSearch, embed, quantized⟩ := d
        cases ef with
        | none | some n => simp [eq_comm]

namespace Session

variable {session : Session} {write : Auth.Statement → Contents Row → String → List Row} {x : Execution}
  {h : Contents Row}

theorem passes_restore : session.passes h.catalog (.restore image) =
    session.store.authorized h.catalog session.currentDb session.role .controlPlane := by
  simp [passes, Request.inspects, Request.auth, refuses, requiredPrivilege, Privilege.mutating]

-- What is not refused reads, or names an index that has no owner.
theorem run_same {plain : s ≠ .controlPlane} (hpass : (requiredPrivilege
      (h.catalog.indexOwnerTable session.currentDb) s).any (fun need => need.1.mutating) = false)
    (hvector : ∀ name options, s ≠ .ddl (.alterVectorIndex name options)) :
    h.Same (h.run write x session.currentDb (.statement s plain)) := by
  cases s with
  | ddl s =>
    have howner : s.onIndex = true ∧ s.requiredPrivilege (h.catalog.indexOwnerTable session.currentDb) = none := by
      cases s with
      | dropIndex name _ | dropVectorIndex name _ | dropSearchIndex name _ | dropGeoIndex name _
      | alterSearchIndex name _ | alterVectorIndex name _ =>
        refine ⟨rfl, ?_⟩
        cases hname : h.catalog.indexOwnerTable session.currentDb name with
        | none => simp [Statement.requiredPrivilege, hname]
        | some table => simp [requiredPrivilege, Statement.requiredPrivilege, hname, Privilege.mutating] at hpass
      | _ => cases hpass
    refine ⟨by simp [Contents.run, howner.1], fun key => ?_⟩
    exact object_of_no_owner howner.1 (fun name options heq => hvector name options (heq ▸ rfl)) howner.2 _ key
  | insert _ _ | update _ | delete _ | transactionControl => cases hpass
  | _ => exact .refl h

section Scenarios

def opsSession : Session := ⟨⟨OrdMap.empty.insert "ops" ⟨[(.global, .admin)], []⟩⟩, "root", "ops", "shop", true⟩

def oneRow : Contents Nat :=
  ⟨fun _ => [1],
    { Catalog.default with vectorIndexes := OrdMap.empty.insert "v" ⟨"t", "e", "l2", 3, some 64, false, false⟩ }⟩

def tuned (ef : String) : Request Nat := .statement (.ddl (.alterVectorIndex "v" [("ef", ef)])) (by simp)

end Scenarios

end Session

end Skaidb.Schema
