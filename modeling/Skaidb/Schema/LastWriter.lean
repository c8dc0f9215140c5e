import Skaidb.Schema.HandlerEffects

namespace Skaidb.Schema

open Skaidb.Base Skaidb.Exec Skaidb.Storage Statement

section Runs

structure Action where
  world : World
  hlc : Hlc
  statement : Statement

def Catalog.step (c : Catalog) (a : Action) : Catalog := (a.statement.apply a.world c a.hlc).1

def Action.Covers (c : Catalog) (a : Action) : Prop := a.statement.Covers c a.hlc
deriving Decidable

-- No recorded version goes back, and an object as new as the statement is left as it is.
structure Action.Respects (c : Catalog) (a : Action) : Prop where
  monotone : ∀ key v, c.version key = some v → ∃ v', (c.step a).version key = some v' ∧ v ≤ v'
  unchanged : ∀ key v, c.version key = some v → a.hlc ≤ v → (c.step a).object key = c.object key

theorem touches_apply {c : Catalog} {s : Statement} (h : s.Covers c hlc) :
    Touches hlc {key | c.schemaAdvances key hlc = true} c (s.apply w c hlc).1 := by
  have hown : ∀ key, c.schemaAdvances key hlc = true → key ∈ {key | c.schemaAdvances key hlc = true} :=
    fun _ hadv => hadv
  have hothers : ∀ own, s.own = some own → c.schemaAdvances own hlc = true →
      ∀ key ∈ s.others c hlc, key ∈ {key | c.schemaAdvances key hlc = true} := by
    intro own heq hadv key hkey
    exact h (by simpa [heq] using hadv) key hkey
  cases s with
  | createDatabase name ifNotExists => exact touches_createDatabase hown
  | dropDatabase name ifExists => exact touches_dropDatabase hown (hothers _ rfl)
  | createTable ct => exact touches_createTable hown
  | createTimeseriesTable name seriesKey retentionMs oooMs ifNotExists =>
    exact touches_createTimeseriesTable hown
  | createRollup name table bucketMs retentionMs ifNotExists =>
    exact touches_createRollup hown (fun hadv => hothers _ rfl hadv _ (by simp [others]))
  | dropTable name ifExists => exact (drops_dropTable hown .refl (hothers _ rfl)).touches
  | createIndex name table paths ifNotExists global ready =>
    refine touches_createIndex hown (fun hadv hglobal hnew => ?_)
    exact hothers _ rfl hadv _ (by simp [others, hglobal, hnew])
  | dropIndex name ifExists =>
    refine (drops_dropIndex hown .refl (fun hadv idx hidx hglobal => ?_)).touches
    exact hothers _ rfl hadv _ (by simp [others, hidx, hglobal])
  | createVectorIndex ci => exact touches_createVectorIndex hown
  | dropVectorIndex name ifExists => exact (drops_dropVectorIndex hown .refl).touches
  | alterVectorIndex name options => exact touches_alterVectorIndex hown
  | createSearchIndex name table paths options ifNotExists => exact touches_createSearchIndex hown
  | dropSearchIndex name ifExists => exact (drops_dropSearchIndex hown .refl).touches
  | alterSearchIndex name options => exact touches_alterSearchIndex hown
  | createGeoIndex name table path ifNotExists => exact touches_createGeoIndex hown
  | dropGeoIndex name ifExists => exact (drops_dropGeoIndex hown .refl).touches
  | alterTable name action =>
    exact touches_alterTable (fun key hkey => h (by simp [own]) key hkey)
  | auth s => exact touches_auth hown h

theorem respects_of_touches {c : Catalog} {a : Action}
    (h : Touches a.hlc {key | c.schemaAdvances key a.hlc = true} c (c.step a)) : a.Respects c := by
  constructor
  · intro key v hv
    by_cases hadv : c.schemaAdvances key a.hlc = true
    · obtain hsame | hstamp := h.stamps key
      · exact ⟨v, hsame.trans hv, le_rfl⟩
      · exact ⟨a.hlc, hstamp, (c.schemaAdvances_iff.mp hadv v hv).le⟩
    · exact ⟨v, (h.version key hadv).trans hv, le_rfl⟩
  · intro key v hv hle
    refine h.object key ?_
    intro hadv
    exact absurd (c.schemaAdvances_iff.mp hadv v hv) (not_lt.mpr hle)

-- In every run, from any catalog, whose statements are newer than the objects they change
-- without looking, every step is last-writer-wins.
theorem respects_run (c : Catalog) (run : List Action) (h : Along Catalog.step Action.Covers c run) :
    Along Catalog.step Action.Respects c run := by
  refine h.mono ?_
  intro c a hcovers
  exact respects_of_touches (touches_apply hcovers)

section Scenarios

def plainWorld : World := ⟨⟨none, fun _ _ => none⟩, ⟨fun _ password => password, fun _ => true⟩, none⟩

def issued (stamp : UInt64) (s : Statement) : Action := ⟨plainWorld, ⟨stamp, 0⟩, s⟩

def plainTable (name : String) : Statement :=
  .createTable ⟨name, false, ["id"], none, false, none, [], true⟩

def lateIndexRun : List Action :=
  [issued 1 (plainTable "t"), issued 2 (.createIndex "i" "t" ["a"] false false false), issued 4 (.dropTable "t" false),
    issued 5 (plainTable "t"), issued 3 (.createIndex "i" "t" ["a"] true false false),
    issued 6 (.auth (.createRole "r" false none)), issued 7 (.auth (.grant "select" (some "t") "r"))]

def staleGrantRun : List Action :=
  [issued 5 (.auth (.createRole "r" false none)), issued 3 (.auth (.grant "select" (some "t") "r"))]

theorem respects_lateIndexRun : Along Catalog.step Action.Respects Catalog.default lateIndexRun ∧
      (lateIndexRun.foldl Catalog.step Catalog.default).object (.index "i") = .index none :=
  ⟨respects_run Catalog.default lateIndexRun (by decide +kernel), by decide +kernel⟩

theorem stale_grant_takes_effect : ¬Along Catalog.step Action.Respects Catalog.default staleGrantRun := by
  rintro ⟨-, hgrant, -⟩
  have hchanged := hgrant.unchanged (.role "r") ⟨5, 0⟩ (by decide) (by decide)
  have hnot : ((Catalog.default.step (issued 5 (.auth (.createRole "r" false none)))).step
      (issued 3 (.auth (.grant "select" (some "t") "r")))).object (.role "r") ≠
        (Catalog.default.step (issued 5 (.auth (.createRole "r" false none)))).object (.role "r") := by
    decide +kernel
  exact hnot hchanged

end Scenarios

end Runs

end Skaidb.Schema
