import Skaidb.Base.LastWriter
import Skaidb.Storage.Engine.Contents

namespace Skaidb.Storage

open Skaidb.Base List

abbrev Delivery := Bytes × Version

def InTime (e : Engine) (received : List Delivery) (key : Bytes) (hlc : Hlc) : Prop :=
  ∀ w ∈ received, w.1 = key → hlc < w.2.1 → w ∈ e.mem.iterVersions
deriving Decidable

-- The engine holds nothing but what it received, and reads find the last writer
-- of each key, or nothing where that was a delete.
structure Holds (p : Process) (received : List Delivery) : Prop where
  tidy : Tidy p
  mem : ∀ layer ∈ p.engine.layers, ∀ key v, layer key = some v → (key, v) ∈ received
  current : Thins Tombstone (lastWriter received) p.engine.current

theorem version_applyWrite {e : Engine} {value : VersionValue}
    {layer : Layer Bytes Hlc VersionValue} (hl : layer ∈ (e.applyWrite key hlc value).layers)
    {other : Bytes} {v : Version} (hv : layer other = some v) :
    (other, v) = (key, hlc, value) ∨ ∃ source ∈ e.layers, source other = some v := by
  rw [layers_applyWrite] at hl
  rw [layers_eq]
  rcases mem_cons.mp hl with rfl | hl
  · rw [layer_insert] at hv
    split_ifs at hv with heq
    · subst heq
      rcases pick_eq_or (some (hlc, value)) (e.mem.layer other) with hp | hp
      · rw [hp] at hv
        cases hv
        exact .inl rfl
      · exact .inr ⟨_, mem_cons_self, hp ▸ hv⟩
    · exact .inr ⟨_, mem_cons_self, hv⟩
  · exact .inr ⟨layer, mem_cons_of_mem _ hl, hv⟩

section Shadowed

variable {e : Engine} {u : Version}

variable (hu : e.mem.layer key = some u)

include hu

theorem layers_applyWrite_shadowed (hlt : hlc < u.1) : (e.applyWrite key hlc value).layers = e.layers := by
  rw [layers_applyWrite, layers_eq]
  congr 1
  funext other
  rw [layer_insert]
  split_ifs with heq
  · subst heq
    rw [hu]
    simp [pick, hlt]
  · rfl

theorem current_applyWrite_shadowed (hlt : hlc < u.1) (value : VersionValue) (other : Bytes) :
    (e.applyWrite key hlc value).current other =
      if other = key then pick (some (hlc, value)) (e.current key) else e.current other := by
  have hcur : e.current key = some u := by
    unfold Engine.current
    rw [layers_eq, firstHit_cons, hu, Option.some_or]
  rw [Engine.current, layers_applyWrite_shadowed hu hlt]
  split_ifs with heq
  · subst heq
    rw [hcur]
    simp only [pick, hlt, if_true]
    exact hcur
  · rfl

theorem inOrder_applyWrite_shadowed (hlt : hlc < u.1) (value : VersionValue) (hin : InOrder e) :
    InOrder (e.applyWrite key hlc value) := by
  refine ⟨?_, hin.cache.applyWrite key hlc value⟩
  rw [layers_applyWrite_shadowed hu hlt]
  exact hin.descending

end Shadowed

namespace Holds

variable {p : Process}

theorem fresh (opts : EngineOptions) (wall : UInt64) : Holds (Process.fresh opts wall) [] := by
  refine ⟨Tidy.fresh opts wall, ?_, ?_⟩
  · intro layer hl key v hv
    have hnone := firstHit_eq_none_iff.mp (Process.fresh_current opts wall key) layer hl
    rw [hnone] at hv
    cases hv
  · intro key
    exact .inl (Process.fresh_current opts wall key)

section

variable (h : Holds p received)

include h

theorem maintain {op : Op} (hop : op.isWrite = false) : Holds (p.step op) received := by
  obtain ⟨htidy, hthins⟩ := h.tidy.maintain hop
  obtain ⟨-, hch⟩ := Process.step_maintenance h.tidy.sound hop
  refine ⟨htidy, ?_, h.current.trans hthins⟩
  intro layer hl key v hv
  obtain ⟨source, hs, hsv⟩ := (Changes.reworks hch).version_mem hl hv
  exact h.mem source hs key v hsv

theorem live_eq (key : Bytes) :
    p.engine.live key = ((lastWriter received key).bind liveVersion).map Prod.snd := by
  unfold Engine.live
  rw [live_of_thins h.current]

theorem mem_applyWrite {layer : Layer Bytes Hlc VersionValue}
    (hl : layer ∈ (p.engine.applyWrite key hlc value).layers) {other : Bytes} {v : Version}
    (hv : layer other = some v) : (other, v) ∈ (key, hlc, value) :: received := by
  obtain heq | ⟨source, hs, hsv⟩ := version_applyWrite hl hv
  · rw [heq]
    exact mem_cons_self
  · exact mem_cons_of_mem _ (h.mem source hs other v hsv)

variable (htime : InTime p.engine received key hlc)

include htime

theorem shadowed_or_above :
    (∃ u, p.engine.mem.layer key = some u ∧ hlc < u.1) ∨ WriteAbove p.engine key hlc := by
  by_cases hshadow : ∃ u, p.engine.mem.layer key = some u ∧ hlc < u.1
  · exact .inl hshadow
  · refine .inr (writeAbove_of_layers ?_)
    intro layer hl v hv
    by_contra hlt
    have hmem := htime _ (h.mem layer hl key v hv) rfl (not_le.mp hlt)
    cases hget : p.engine.mem.getEntryVersioned key with
    | none => exact (p.engine.mem.getEntryVersioned_eq_none_iff key).mp hget v hmem
    | some u =>
      have hle := ((p.engine.mem.getEntryVersioned_eq_some_iff key).mp hget).2 v hmem
      exact hshadow ⟨u, hget, (not_le.mp hlt).trans_le hle⟩

theorem applyWrite_spec (value : VersionValue) :
    InOrder (p.engine.applyWrite key hlc value) ∧ ∀ other, (p.engine.applyWrite key hlc value).current other =
        if other = key then pick (some (hlc, value)) (p.engine.current key) else p.engine.current other := by
  rcases h.shadowed_or_above htime with ⟨u, hu, hlt⟩ | habove
  · exact ⟨inOrder_applyWrite_shadowed hu hlt value h.tidy.inOrder,
      current_applyWrite_shadowed hu hlt value⟩
  · exact ⟨habove.applyWrite value h.tidy.inOrder, current_applyWrite habove value⟩

theorem pick_thins :
    pick (some (hlc, value)) (p.engine.current key) = pick (some (hlc, value)) (lastWriter received key) := by
  rcases h.current key with heq | ⟨hnone, v, hv, -⟩
  · rw [heq]
  · rw [hnone, hv, pick_none_right]
    refine (pick_eq_left ?_).symm
    intro w hw
    cases hw
    by_contra hlt
    have hmem := htime _ (mem_of_lastWriter hv) rfl (not_le.mp hlt)
    have hmiss : p.engine.mem.layer key = none := by
      refine firstHit_eq_none_iff.mp hnone _ ?_
      exact mem_cons_self
    exact (p.engine.mem.getEntryVersioned_eq_none_iff key).mp hmiss v hmem

theorem write (sync : Bool) (wall now : UInt64) (value : VersionValue) :
    Holds (p.step (.write (.given hlc) sync wall now key value)) ((key, hlc, value) :: received) := by
  obtain ⟨hsound, hch⟩ := Process.step_write h.tidy.sound (.given hlc) sync wall now key value
  rw [Session.stamp] at hch
  obtain ⟨hin, hcur⟩ := h.applyWrite_spec htime value
  have hrew := Changes.reworks hch
  refine ⟨⟨hsound, Changes.inOrder hch hin⟩, ?_, ?_⟩
  · intro layer hl other v hv
    obtain ⟨source, hs, hsv⟩ := hrew.version_mem hl hv
    exact h.mem_applyWrite hs hsv
  · refine Thins.trans ?_ (hrew.firstHit_thins hin.descending)
    intro other
    have hother : firstHit (p.engine.applyWrite key hlc value).layers other = _ := hcur other
    rw [hother, lastWriter]
    split_ifs with heq
    · subst heq
      exact .inl (h.pick_thins htime)
    · exact h.current other

end

end Holds

end Skaidb.Storage
