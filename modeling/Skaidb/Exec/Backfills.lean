import Mathlib.Data.String.Basic
import Mathlib.Logic.Function.Basic
import Skaidb.Base.Runs

namespace Skaidb.Exec

open Skaidb.Base Function

-- The indexes that are filled in pages once their DDL has been acknowledged.
inductive IndexKind where
  | secondary
  | geo
  | vector
  deriving DecidableEq

structure IndexId where
  kind : IndexKind
  name : String
  deriving DecidableEq

-- `shape` is what a definition says besides its table. A vector index is marked in
-- `buildingVectors`, not here.
structure PagedDef where
  table : String
  shape : String
  building : Bool
  deriving DecidableEq

-- The definitions in memory and in the catalog file, and the names in the queues of
-- backfills and in the lists that workers took from them.
structure Builds where
  catalog : IndexId → Option PagedDef
  saved : IndexId → Option PagedDef
  buildingVectors : IndexId → Bool
  pending : IndexId → Bool
  working : IndexId → Bool

inductive BuildEvent where
  | create (id : IndexId) (table shape : String) (ifNotExists refused paged : Bool)
  | drop (id : IndexId) (ifExists : Bool)
  | dropTable (table : String)
  | rebuild (id : IndexId)
  | saveCatalog
  | takePending (kind : IndexKind)
  | page (id : IndexId) (done : Bool)
  | reopen

namespace Builds

-- Vector indexes are filled while the database opens; of the others only geo indexes are
-- queued again.
def openWithOptions (saved : IndexId → Option PagedDef) : Builds where
  catalog := saved
  saved := saved
  buildingVectors _ := false
  pending id := id.kind = .geo && (saved id).any PagedDef.building
  working _ := false

variable (s : Builds) (id : IndexId)

def saveCatalog : Builds := { s with saved := s.catalog }

def setDef (d : Option PagedDef) : Builds := { s with catalog := update s.catalog id d }

-- The queue of the secondary indexes keeps the name of a dropped one.
def retract : Builds :=
  let s := s.setDef id none
  if id.kind = .secondary then s
  else { s with pending := update s.pending id false, buildingVectors := update s.buildingVectors id false }

def enqueue : Builds :=
  { s with
    pending := update s.pending id true
    buildingVectors := if id.kind = .vector then update s.buildingVectors id true else s.buildingVectors }

-- A vector index of inferred dimension or over a model's embeddings is not paged.
def place (table shape : String) (paged : Bool) : Builds :=
  let s := (s.setDef id (some ⟨table, shape, id.kind ≠ .vector⟩)).saveCatalog
  if id.kind = .vector && !paged then s else s.enqueue id

-- On a table that exists. `refused` is the outcome of the checks that follow the removal of
-- an older definition.
def create (table shape : String) (ifNotExists refused paged : Bool) : Builds :=
  match s.catalog id with
  | none => if refused then s else s.place id table shape paged
  | some old =>
    if !ifNotExists then s
    else if id.kind = .secondary ∨ old.table = table ∧ old.shape = shape then s.saveCatalog
    else if refused then s.retract id
    else (s.retract id).place id table shape paged

def drop (ifExists : Bool) : Builds :=
  if (s.catalog id).isNone && !ifExists then s else (s.retract id).saveCatalog

-- A vector index that goes with its table leaves its mark and its place in the queue.
def dropTable (table : String) : Builds :=
  let gone (id : IndexId) := (s.catalog id).any (fun d => d.table = table)
  { s with
    catalog id := if gone id then none else s.catalog id
    pending id := s.pending id && !(id.kind = IndexKind.geo && gone id) }.saveCatalog

def rebuild : Builds :=
  match id.kind, s.catalog id with
  | .secondary, some d => (s.setDef id (some { d with building := true })).enqueue id
  | .vector, some _ => s.enqueue id
  | _, _ => s

def takePending (kind : IndexKind) : Builds :=
  { s with
    working id := s.working id || id.kind = kind && s.pending id
    pending id := s.pending id && id.kind ≠ kind }

-- Whatever ends the backfill of a vector index leaves it unmarked.
def finish : Builds :=
  { s with working := update s.working id false, buildingVectors := update s.buildingVectors id false }

def marked (d : PagedDef) : Bool := if id.kind = .vector then s.buildingVectors id else d.building

-- One page of a backfill in progress; `done` says that it was shorter than the limit. The
-- table is there: its indexes go with it.
def page (done : Bool) : Builds :=
  if !s.working id then s
  else
    match s.catalog id with
    | none => s.finish id
    | some d =>
      if !s.marked id d then s.finish id
      else if !done then s
      else if id.kind = .vector then s.finish id
      else (s.setDef id (some { d with building := false })).saveCatalog.finish id

-- A crash leaves the file as it was before the step it interrupts or after it, so a
-- reopen can be taken to come between two steps.
def step : BuildEvent → Builds
  | .create id table shape ifNotExists refused paged => s.create id table shape ifNotExists refused paged
  | .drop id ifExists => s.drop id ifExists
  | .dropTable table => s.dropTable table
  | .rebuild id => s.rebuild id
  | .saveCatalog => s.saveCatalog
  | .takePending kind => s.takePending kind
  | .page id done => s.page id done
  | .reopen => openWithOptions s.saved

def Owed : Prop := s.pending id = true ∨ s.working id = true

-- Every index that is being built has its backfill queued or in progress.
def Tended : Prop := ∀ id d, s.catalog id = some d → s.marked id d = true → s.Owed id

def Settled (saved : IndexId → Option PagedDef) : Prop :=
  ∀ id d, saved id = some d → id.kind = .secondary → d.building = false

-- The mark of a vector index can outlive the definition it was made for.
def Sound : Prop :=
  ∀ id, (s.buildingVectors id = true → id.kind = .vector ∧ s.Owed id) ∧
    ∀ d, s.catalog id = some d → id.kind ≠ .vector → d.building = true → s.Owed id

variable {s}

theorem tended_openWithOptions {saved : IndexId → Option PagedDef} :
    (openWithOptions saved).Tended ↔ Settled saved := by
  simp only [Tended, Settled, Owed, marked, openWithOptions]
  refine forall₃_congr fun id d hd => ?_
  obtain ⟨kind, name⟩ := id
  cases kind <;> simp [hd]

namespace Sound

theorem tended (h : s.Sound) : s.Tended := by
  intro id d hd hm
  by_cases hk : id.kind = .vector
  · exact ((h id).1 (by simpa [marked, hk] using hm)).2
  · exact (h id).2 d hd hk (by simpa [marked, hk] using hm)

variable (h : s.Sound)

include h

theorem retract : (s.retract id).Sound := by
  intro other
  have := h other
  unfold Builds.retract
  split <;> simp only [setDef, Owed, update_apply] at * <;> grind

theorem place (table shape : String) (paged : Bool) : (s.place id table shape paged).Sound := by
  intro other
  have := h other
  unfold Builds.place
  split <;> simp only [enqueue, saveCatalog, setDef, Owed, update_apply] at * <;> grind

theorem rebuild : (s.rebuild id).Sound := by
  intro other
  have := h other
  unfold Builds.rebuild
  split <;> simp only [enqueue, setDef, Owed, update_apply] at * <;> grind

theorem page (done : Bool) : (s.page id done).Sound := by
  intro other
  have := h other
  unfold Builds.page
  split
  · exact h other
  split
  · simp only [finish, Owed, update_apply] at *; grind
  split
  · simp only [finish, marked, Owed, update_apply] at *; grind
  split
  · exact h other
  split <;> simp only [finish, saveCatalog, setDef, Owed, update_apply] at * <;> grind

theorem step (e : BuildEvent) (hreopen : e = .reopen → Settled s.saved) : (s.step e).Sound := by
  cases e with
  | create id table shape ifNotExists refused paged =>
    simp only [Builds.step, create]
    split
    · split
      · exact h
      · exact h.place id table shape paged
    · split_ifs
      · exact h
      · exact h
      · exact h.retract id
      · exact (h.retract id).place id table shape paged
  | drop id ifExists =>
    simp only [Builds.step, drop]
    split
    · exact h
    · exact h.retract id
  | dropTable table =>
    intro id
    have := h id
    simp only [Builds.step, dropTable, saveCatalog, Owed] at *
    grind
  | rebuild id => exact h.rebuild id
  | saveCatalog => exact h
  | takePending kind =>
    intro id
    have := h id
    simp only [Builds.step, takePending, Owed] at *
    grind
  | page id done => exact h.page id done
  | reopen =>
    have htended := tended_openWithOptions.mpr (hreopen rfl)
    refine fun id => ⟨by simp [Builds.step, openWithOptions], fun d hd hk hb => ?_⟩
    exact htended id d hd (by simpa [marked, hk] using hb)

end Sound

def fresh : Builds := openWithOptions (fun _ => none)

-- Backfills are tended throughout a run unless the database is opened on a catalog file
-- that marks a secondary index: its backfill is in no queue then.
theorem tended_iff (events : List BuildEvent) : Along step (fun s e => (s.step e).Tended) fresh events ↔
      Along step (fun s e => e = .reopen → Settled s.saved) fresh events := by
  have hfresh : fresh.Sound := fun id => by simp [fresh, openWithOptions]
  constructor
  · refine fun hrun => hrun.imp (fun s e hs he => ?_) hfresh
    have hreopen : e = .reopen → Settled s.saved := by
      rintro rfl
      exact tended_openWithOptions.mp he
    exact ⟨hs.step e hreopen, hreopen⟩
  · refine fun hrun => hrun.imp (fun s e hs he => ?_) hfresh
    exact ⟨hs.step e he, (hs.step e he).tended⟩

theorem forgotten_backfill :
    ¬([BuildEvent.create ⟨.secondary, "i"⟩ "t" "a" false false true, .reopen].foldl step fresh).Tended := by
  intro h
  have := h ⟨.secondary, "i"⟩ ⟨"t", "a", true⟩ (by decide) (by decide)
  exact absurd this (by unfold Owed; decide)

end Builds

end Skaidb.Exec
