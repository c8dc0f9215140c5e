import Skaidb.Storage.Engine.Reads

namespace Skaidb.Storage

open Skaidb.Base Session Engine

namespace Engine

def rejected (e : Engine) (keep : Bytes → Bool) : List (Bytes × Version) :=
  e.scanVersionedWithTombstones.filter (fun row => !keep row.1)

def survivors (e : Engine) (keep : Bytes → Bool) : OrdMap Bytes Version :=
  ⟨e.scanVersionedWithTombstones.filter (fun row => keep row.1), mergedIter_spec.1.filter _⟩

end Engine

variable (s : Session)

namespace Session

def truncate : Session :=
  let wal := s.engine.wal
  (if s.engine.opts.ephemeral then s else s.emit .createWal).modify
    (fun e => { e with wal := { generation := wal.generation + 1, writeOffset := 0, synced := 0 } })

def writeSurvivors (entries : OrdMap Bytes Version) : Session × List SsTable :=
  if entries.entries.isEmpty then (s, [])
  else
    let (path, e) := s.engine.nextTablePath
    (({ s with engine := e } : Session).writeTable ⟨path, entries⟩, [⟨path, entries⟩])

-- The survivors are on disk before the log goes, the manifest is written after it.
def retain (keep : Bytes → Bool) : Session :=
  if (s.engine.rejected keep).isEmpty then s
  else
    let oldPaths := s.engine.sstablesNewestFirst.map SsTable.path
    let (s₁, levels) := s.writeSurvivors (s.engine.survivors keep)
    let s₂ := (s₁.modify (fun e =>
      { e with l0 := [], levels, mem := Memtable.new, frozen := [] })).truncate
    let s₃ := s₂.dropSegmentsThrough s₂.engine.nextWalSeq
    let s₄ := s₃.modify (fun e =>
      { e with
        readCache := ReadCache.new e.opts.readCacheCapacity e.opts.readCacheBytes
        writeSeq := e.writeSeq + 1 })
    s₄.persistManifest.removeFiles oldPaths

end Session

-- What a retain that drops something comes to, as one change of the engine and
-- one list of effects.
section Spelled

variable (e : Engine) (keep : Bytes → Bool)

def Engine.survivorTable : Option SsTable :=
  if (e.survivors keep).entries.isEmpty then none else some ⟨e.nextSeq, e.survivors keep⟩

def Engine.afterRetain : Engine :=
  { e with
    wal := { generation := e.wal.generation + 1, writeOffset := 0, synced := 0 }
    mem := Memtable.new
    frozen := []
    writeSeq := e.writeSeq + 1
    l0 := []
    levels := (e.survivorTable keep).toList
    nextSeq := e.nextSeq + (e.survivorTable keep).toList.length
    readCache := ReadCache.new e.opts.readCacheCapacity e.opts.readCacheBytes }

def Engine.droppedSegments (disk : Disk) : List Nat :=
  disk.listSegments.filter (fun n => n ≤ e.nextWalSeq)

def Engine.retainEffects (disk : Disk) : List Effect :=
  (e.survivorTable keep).toList.map Effect.writeTable ++
    (if e.opts.ephemeral then [] else [.createWal]) ++
    (e.droppedSegments disk).map Effect.removeSegment ++
    [.writeManifest (e.afterRetain keep).manifestLines] ++
    (e.sstablesNewestFirst.map SsTable.path).map Effect.removeTable

theorem Session.retain_eq_self {s : Session} (h : (s.engine.rejected keep).isEmpty = true) :
    s.retain keep = s := by
  rw [retain, if_pos h]

private theorem Session.writeSurvivors_eq : s.writeSurvivors (s.engine.survivors keep) =
      ({ s with
          engine := { s.engine with
            nextSeq := s.engine.nextSeq + (s.engine.survivorTable keep).toList.length }
          effects := s.effects ++ (s.engine.survivorTable keep).toList.map Effect.writeTable },
        (s.engine.survivorTable keep).toList) := by
  unfold writeSurvivors survivorTable
  split
  · simp
  · rfl

private theorem listSegments_writeTables (disk : Disk) (tables : List SsTable) :
    (disk.applyAll (tables.map Effect.writeTable)).listSegments = disk.listSegments := by
  induction tables generalizing disk with
  | nil => rfl
  | cons t tables ih => exact ih (disk.apply (.writeTable t))

theorem Session.retain_eq {s : Session} (h : (s.engine.rejected keep).isEmpty = false) :
    s.retain keep = { s with
      engine := s.engine.afterRetain keep
      effects := s.effects ++ s.engine.retainEffects keep s.disk } := by
  have hsegments : ∀ es : List Effect, (∀ d : Disk, (d.applyAll es).listSegments = d.listSegments) →
      (s.start.applyAll (s.effects ++
        ((s.engine.survivorTable keep).toList.map Effect.writeTable ++ es))).listSegments =
        s.disk.listSegments := by
    intro es hes
    rw [Disk.applyAll_append, Disk.applyAll_append, hes, listSegments_writeTables]
    rfl
  rw [retain, if_neg (by simp [h]), writeSurvivors_eq]
  unfold truncate retainEffects droppedSegments
  have hplain := hsegments [] (fun _ => rfl)
  have hcreate := hsegments [.createWal] (fun _ => rfl)
  by_cases he : s.engine.opts.ephemeral = true
  · simp only [List.append_nil] at hplain
    simp [he, modify, emitAll, emit, removeFiles, persistManifest,
      dropSegmentsThrough, disk, hplain, afterRetain, manifestLines]
  · simp [he, modify, emitAll, emit, removeFiles, persistManifest,
      dropSegmentsThrough, disk, hcreate, afterRetain, manifestLines]

end Spelled

inductive Call where
  | op (op : Op)
  | retain (keep : Bytes → Bool)

namespace Process

variable (p : Process)

def execCall : Call → Process × List Effect
  | .op op => p.exec op
  | .retain keep => p.commit (p.session.retain keep)

def call (c : Call) : Process := (p.execCall c).1

def runCalls (calls : List Call) : Process := calls.foldl call p

theorem effects_retain (keep : Bytes → Bool) : (p.execCall (.retain keep)).2 =
      if (p.engine.rejected keep).isEmpty then [] else p.engine.retainEffects keep p.disk := by
  show (p.session.retain keep).effects = _
  cases hdrop : (p.engine.rejected keep).isEmpty with
  | true =>
    rw [retain_eq_self keep hdrop]
    rfl
  | false =>
    rw [retain_eq keep (s := p.session) hdrop]
    rfl

end Process

end Skaidb.Storage
