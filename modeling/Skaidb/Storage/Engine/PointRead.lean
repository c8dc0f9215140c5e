import Skaidb.Storage.Engine.Reads

namespace Skaidb.Storage

open Skaidb.Base Process

-- A step after which reads may still stop at the first source that knows the key: no write
-- older than what has left the memtable, no compaction over a cached tombstone.
def InOrderStep (p : Process) : Op → Prop
  | .write stamping _ wall _ key _ =>
    WriteAbove p.engine key (Session.stamp p.engine.clock wall stamping) ∧
    (4 ≤ p.engine.frozen.length → NoCachedTombstone p.engine)
  | op => op.lands = true → NoCachedTombstone p.engine

structure PointReads (p : Process) : Prop where
  sound : p.Sound
  inOrder : InOrder p.engine
  exact : CacheExact p.engine

theorem PointReads.fresh (opts : EngineOptions) (wall : UInt64) : PointReads (Process.fresh opts wall) :=
  ⟨fresh_sound opts wall, (fresh_inOrder opts).1, (fresh_inOrder opts).2⟩

theorem PointReads.step {p : Process} (h : PointReads p) (hop : InOrderStep p op) : PointReads (p.step op) := by
  by_cases hw : op.isWrite = true
  · cases op with
    | write stamping sync wall now key value =>
      obtain ⟨habove, hcached⟩ := hop
      obtain ⟨hsound, hch⟩ := step_write h.sound stamping sync wall now key value
      have hin := habove.applyWrite value h.inOrder
      refine ⟨hsound, Changes.inOrder hch hin, Changes.cacheExact hch hin
        (CacheExact.applyWrite h.exact key _ value) ?_⟩
      intro hfull other hlc hget
      exact hcached (by simpa using hfull) other hlc (ReadCache.get_invalidate hget).2
    | _ => cases hw
  · have hmaint : op.lands = true → NoCachedTombstone p.engine := by
      cases op with
      | write => exact absurd rfl hw
      | _ => exact hop
    obtain ⟨hsound, hch⟩ := step_maintenance h.sound (by simpa using hw)
    exact ⟨hsound, Changes.inOrder hch h.inOrder, Changes.cacheExact hch h.inOrder h.exact hmaint⟩

theorem PointReads.getVersioned {p : Process} (h : PointReads p) (key : Bytes) :
    (p.engine.getVersioned key).1 = newest p.engine.layers key := by
  rw [getVersioned_of_exact h.exact, newest_eq_firstHit h.inOrder.descending]

-- In every state of a run of such steps, the point read returns the version of
-- the merged scan, the retained one with the highest stamp.
theorem getVersioned_eq_scan (opts : EngineOptions) (wall : UInt64) (ops : List Op)
    (hrun : Along Process.step InOrderStep (Process.fresh opts wall) ops) (key : Bytes) :
    let e := ((fresh opts wall).runOps ops).engine
    (e.getVersioned key).1 = OrdMap.lookup e.scanVersionedWithTombstones key ∧
    e.HighestRetained key (e.getVersioned key).1 := by
  have hend : PointReads ((fresh opts wall).runOps ops) :=
    hrun.invariant (fun _ _ h hop => h.step hop) (PointReads.fresh opts wall)
  intro e
  rw [hend.getVersioned]
  exact ⟨(mergedIter_spec.2 key).symm, highestRetained_newest⟩

def smallCache : EngineOptions := ⟨100, 4, 8, 16, 1000, false⟩

def flushBetween (first second : Hlc) : List Op :=
  [.write (.given first) true 0 0 [1] (.put [7]), .flush 0,
    .write (.given second) true 0 0 [1] (.put [8])]

theorem getVersioned_eq_scan_of_newer_put :
    let e := ((fresh smallCache 0).runOps (flushBetween ⟨5, 0⟩ ⟨6, 0⟩)).engine
    (e.getVersioned [1]).1 = OrdMap.lookup e.scanVersionedWithTombstones [1] ∧
    e.HighestRetained [1] (e.getVersioned [1]).1 := by
  refine getVersioned_eq_scan smallCache 0 _ ?_ [1]
  refine ⟨⟨by decide, fun h => absurd h (by decide)⟩, ?_, ⟨by decide, fun h => absurd h (by decide)⟩,
    trivial⟩
  intro _ key hlc hget
  have hnone := (ReadCache.get_invalidate hget).2
  have hempty := (fresh_eq smallCache 0).2.2.2.2.2.2.2 key
  exact absurd (hempty.symm.trans hnone) (by simp)

-- A write that arrives with an older stamp after a flush shadows the newer
-- version in the point read but not in the scan.
theorem getVersioned_ne_scan_after_stale_put :
    let e := ((fresh smallCache 0).runOps (flushBetween ⟨5, 0⟩ ⟨3, 0⟩)).engine
    (e.getVersioned [1]).1 = some (⟨3, 0⟩, .put [8]) ∧
    OrdMap.lookup e.scanVersionedWithTombstones [1] = some (⟨5, 0⟩, .put [7]) := by
  decide

end Skaidb.Storage
