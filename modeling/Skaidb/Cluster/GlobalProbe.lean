import Skaidb.Cluster.ScanQuorum
import Skaidb.Cluster.SeriesQuorum

namespace Skaidb.Cluster

open Skaidb.Base Skaidb.Schema Skaidb.Storage List

section Probe

def gidxProbeMax : Nat := 10000

def gidxEntryRowKey (key : Bytes) : Option Bytes :=
  match key with
  | hi :: lo :: _ =>
    let n := hi.toNat * 256 + lo.toNat
    if 2 + n ≤ key.length then some (key.drop (2 + n)) else none
  | _ => none

structure ProbeEnv where
  held : NodeId → OrdMap Bytes Version
  answers : NodeId → Bytes × Bytes → Bool

def localScanVersionedRange (m : OrdMap Bytes Version) (range : Bytes × Bytes) (limit : Nat) : List BatchRow :=
  ((m.entries.filter (fun e => range.1 ≤ e.1 ∧ e.1 < range.2)).take limit).map BatchRow.ofVersion

def ProbeEnv.heard (env : ProbeEnv) (v : View) (replicas : List NodeId) (range : Bytes × Bytes) (needed : Nat) :
    List NodeId :=
  (replicas.filter (fun n => (n = v.id || (v.peerAddr n).isSome) && env.answers n range)).take needed

def mergeEntry (merged : OrdMap Bytes (Hlc × Bool)) (row : BatchRow) : OrdMap Bytes (Hlc × Bool) :=
  match merged.get? row.key with
  | some held => if held.1 < row.hlc then merged.insert row.key (row.hlc, row.isPut) else merged
  | none => merged.insert row.key (row.hlc, row.isPut)

def ProbeEnv.merge (env : ProbeEnv) (range : Bytes × Bytes) (heard : List NodeId) : OrdMap Bytes (Hlc × Bool) :=
  heard.foldl (fun m n =>
    (localScanVersionedRange (env.held n) range (gidxProbeMax + 1)).foldl mergeEntry m) OrdMap.empty

def liveRowKeys (merged : OrdMap Bytes (Hlc × Bool)) : Finset Bytes :=
  (merged.entries.filterMap (fun e => if e.2.2 then gidxEntryRowKey e.1 else none)).toFinset

-- The row keys that `global_index_lookup` resolves; `none` leaves the work to a scatter.
def globalIndexLookup (v : View) (level : Consistency) (env : ProbeEnv) (table : String) :
    List (Bytes × Bytes) → Finset Bytes → Option (Finset Bytes)
  | [], keys => some keys
  | range :: ranges, keys =>
    let replicas := v.effectiveReplicas table range.1
    let needed := level.required (max replicas.length 1)
    let heard := env.heard v replicas range needed
    if heard.length < needed then none
    else
      let keys := keys ∪ liveRowKeys (env.merge range heard)
      if gidxProbeMax < keys.card then none else globalIndexLookup v level env table ranges keys

end Probe

section Merge

variable {env : ProbeEnv} {range : Bytes × Bytes}

theorem get?_mergeEntry {m : OrdMap Bytes (Hlc × Bool)} {row : BatchRow} : (mergeEntry m row).get? key =
      if key = row.key then pick (m.get? key) (some (row.hlc, row.isPut)) else m.get? key := by
  unfold mergeEntry
  by_cases hkey : key = row.key
  · subst hkey
    cases hm : m.get? row.key with
    | none => simp [pick]
    | some held =>
      dsimp only [pick]
      split <;> simp [hm]
  · rw [if_neg hkey]
    split
    · split <;> simp [hkey]
    · simp [hkey]

def stampOf (version : Version) : Hlc × Bool := (version.1, version.2 ≠ .delete)

theorem get?_foldl_mergeEntry {rows : List (Bytes × Version)} (hs : rows.Pairwise (fun a b => a.1 < b.1))
    {m : OrdMap Bytes (Hlc × Bool)} : ((rows.map BatchRow.ofVersion).foldl mergeEntry m).get? key =
      pick (m.get? key) ((OrdMap.lookup rows key).map stampOf) := by
  induction rows generalizing m with
  | nil => simp
  | cons row rows ih =>
    obtain ⟨hhead, htail⟩ := pairwise_cons.mp hs
    have hrow : (BatchRow.ofVersion row).key = row.1 ∧
        ((BatchRow.ofVersion row).hlc, (BatchRow.ofVersion row).isPut) = stampOf row.2 := by
      obtain ⟨k, hlc, _ | _⟩ := row <;> simp [BatchRow.ofVersion, stampOf]
    rw [map_cons, foldl_cons, ih htail, get?_mergeEntry, hrow.1, hrow.2, OrdMap.lookup_cons]
    by_cases hkey : key = row.1
    · have hnone : OrdMap.lookup rows key = none :=
        OrdMap.lookup_eq_none_iff.mpr (fun e he => by rw [hkey]; exact (hhead e he).ne')
      simp [hkey ▸ hnone, hkey]
    · simp [hkey]

theorem lookup_take {rows : List (Bytes × Version)} (hs : rows.Pairwise (fun a b => a.1 < b.1)) :
    OrdMap.lookup (rows.take limit) key =
      if (rows.filter (fun e => e.1 < key)).length < limit then OrdMap.lookup rows key else none := by
  induction rows generalizing limit with
  | nil => rw [take_nil, OrdMap.lookup_nil, ite_self]
  | cons row rows ih =>
    obtain ⟨hhead, htail⟩ := pairwise_cons.mp hs
    cases limit with
    | zero => simp
    | succ limit =>
      rw [take_succ_cons, OrdMap.lookup_cons, OrdMap.lookup_cons, ih htail]
      rcases lt_trichotomy row.1 key with hlt | heq | hgt
      · simp [hlt, hlt.ne']
      · have hnone : rows.filter (fun e => e.1 < key) = [] :=
          filter_eq_nil_iff.mpr (fun e he => by simpa using (heq ▸ hhead e he).le)
        simp [heq, hnone]
      · have hnone : OrdMap.lookup rows key = none :=
          OrdMap.lookup_eq_none_iff.mpr (fun e he => (hgt.trans (hhead e he)).ne')
        simp [hgt.ne, hnone]

def ahead (m : OrdMap Bytes Version) (range : Bytes × Bytes) (key : Bytes) : Nat :=
  ((m.entries.filter (fun e => range.1 ≤ e.1 ∧ e.1 < range.2)).filter (fun e => e.1 < key)).length

def ProbeEnv.stamps (env : ProbeEnv) (n : NodeId) : Layer Bytes Hlc Bool :=
  fun key => ((env.held n).get? key).map stampOf

def ProbeEnv.inReach (env : ProbeEnv) (range : Bytes × Bytes) (n : NodeId) : Layer Bytes Hlc Bool :=
  fun key => if (range.1 ≤ key ∧ key < range.2) ∧ ahead (env.held n) range key ≤ gidxProbeMax then env.stamps n key
    else none

theorem get?_merge {heard : List NodeId} :
    (env.merge range heard).get? key = newest (heard.map (env.inReach range)) key := by
  have hreply : ∀ n, (OrdMap.lookup (((env.held n).entries.filter
      (fun e => range.1 ≤ e.1 ∧ e.1 < range.2)).take (gidxProbeMax + 1)) key).map stampOf =
        env.inReach range n key := by
    intro n
    rw [lookup_take ((env.held n).sorted.filter _),
      OrdMap.lookup_filter_key (fun k => decide (range.1 ≤ k ∧ k < range.2)) (env.held n).entries key]
    simp only [ProbeEnv.inReach, ProbeEnv.stamps, ahead, Nat.lt_succ_iff, decide_eq_true_eq]
    by_cases hin : range.1 ≤ key ∧ key < range.2
    · simp only [hin, true_and, and_self, if_true]
      split <;> rfl
    · simp only [hin, false_and, if_false, ite_self, Option.map_none]
  suffices h : ∀ m : OrdMap Bytes (Hlc × Bool), (heard.foldl (fun m n =>
      (localScanVersionedRange (env.held n) range (gidxProbeMax + 1)).foldl mergeEntry m) m).get? key =
        (heard.map (env.inReach range)).foldl (fun best layer => pick best (layer key)) (m.get? key) by
    exact h OrdMap.empty
  intro m
  induction heard generalizing m with
  | nil => rfl
  | cons n heard ih =>
    rw [foldl_cons, ih, localScanVersionedRange,
      get?_foldl_mergeEntry (((env.held n).sorted.filter _).sublist (take_sublist _ _)), hreply]
    rfl

theorem mem_liveRowKeys_iff {heard : List NodeId} : rowKey ∈ liveRowKeys (env.merge range heard) ↔
      ∃ key hlc, newest (heard.map (env.inReach range)) key = some (hlc, true) ∧
        gidxEntryRowKey key = some rowKey := by
  simp only [← get?_merge, OrdMap.get?_eq_some_iff, liveRowKeys, mem_toFinset, mem_filterMap]
  constructor
  · rintro ⟨⟨key, hlc, isPut⟩, hmem, hrow⟩
    split at hrow
    case isTrue hput => exact ⟨key, hlc, by simpa [← show isPut = true from hput] using hmem, hrow⟩
    case isFalse => cases hrow
  · rintro ⟨key, hlc, hmem, hrow⟩
    exact ⟨(key, hlc, true), hmem, hrow⟩

end Merge

section Complete

variable (v : View) (env : ProbeEnv) (table : String)

def View.probes (level : Consistency) (range : Bytes × Bytes) : List NodeId :=
  env.heard v (v.effectiveReplicas table range.1) range
    (level.required (max (v.effectiveReplicas table range.1).length 1))

-- Whichever quorum of the replicas is read, the newest version of the entry is a put.
def LiveAtQuorum (range : Bytes × Bytes) (key : Bytes) : Prop :=
  ∀ heard : List NodeId, heard.Sublist (v.effectiveReplicas table range.1) →
    Consistency.quorum.required (max (v.effectiveReplicas table range.1).length 1) ≤ heard.length →
      ∃ hlc, newest (heard.map env.stamps) key = some (hlc, true)

-- The reply of a replica has the version: it is in the range, and no more versions of the
-- range than the cap stand ahead of it.
def ProbeEnv.Shows (env : ProbeEnv) (range : Bytes × Bytes) (n : NodeId) (key : Bytes) (version : Version) : Prop :=
  (env.held n).get? key = some version ∧ (range.1 ≤ key ∧ key < range.2) ∧ ahead (env.held n) range key ≤ gidxProbeMax

-- Copies of an entry with one stamp are of one write.
def ProbeEnv.OneWrite (env : ProbeEnv) : Prop :=
  ∀ n m key version version', (env.held n).get? key = some version → (env.held m).get? key = some version' →
    version.1 = version'.1 → version = version'

-- In one of the ranges an asked replica shows a put of an entry of the row, and none shows a
-- newer version of that entry.
def Shown (ranges : List (Bytes × Bytes)) (rowKey : Bytes) : Prop :=
  ∃ range ∈ ranges, ∃ key, gidxEntryRowKey key = some rowKey ∧
    ∃ n ∈ View.probes v env table .quorum range, ∃ version, env.Shows range n key version ∧ version.2 ≠ .delete ∧
      ∀ m ∈ View.probes v env table .quorum range, ∀ other, env.Shows range m key other → other.1 ≤ version.1

variable {v env table} {ranges : List (Bytes × Bytes)} {range : Bytes × Bytes}

theorem inReach_eq_some_iff :
    env.inReach range n key = some w ↔ ∃ version, env.Shows range n key version ∧ stampOf version = w := by
  simp only [ProbeEnv.inReach, ProbeEnv.stamps, ProbeEnv.Shows, Option.ite_none_right_eq_some, Option.map_eq_some_iff]
  tauto

theorem newest_inReach_iff (hone : env.OneWrite) {heard : List NodeId} :
    (∃ hlc, newest (heard.map (env.inReach range)) key = some (hlc, true)) ↔
      ∃ n ∈ heard, ∃ version, env.Shows range n key version ∧ version.2 ≠ .delete ∧
        ∀ m ∈ heard, ∀ other, env.Shows range m key other → other.1 ≤ version.1 := by
  constructor
  · rintro ⟨hlc, hnewest⟩
    obtain ⟨_, hlayer, hshown⟩ := exists_of_newest_eq_some hnewest
    obtain ⟨n, hn, rfl⟩ := mem_map.mp hlayer
    obtain ⟨version, hshows, hstamp⟩ := inReach_eq_some_iff.mp hshown
    simp only [stampOf, Prod.mk.injEq, decide_eq_true_eq] at hstamp
    refine ⟨n, hn, version, hshows, hstamp.2, fun m hm other hother => ?_⟩
    obtain ⟨w, hw, hle⟩ := newest_le_of_mem (mem_map_of_mem hm) (inReach_eq_some_iff.mpr ⟨other, hother, rfl⟩)
    cases hnewest.symm.trans hw
    exact hstamp.1 ▸ hle
  · rintro ⟨n, hn, version, hshows, hput, hmost⟩
    obtain ⟨w, hw, hle⟩ := newest_le_of_mem (mem_map_of_mem hn) (inReach_eq_some_iff.mpr ⟨version, hshows, rfl⟩)
    obtain ⟨_, hlayer, hshown⟩ := exists_of_newest_eq_some hw
    obtain ⟨m, hm, rfl⟩ := mem_map.mp hlayer
    obtain ⟨other, hother, rfl⟩ := inReach_eq_some_iff.mp hshown
    obtain rfl := hone _ _ _ _ _ hshows.1 hother.1 (le_antisymm hle (hmost m hm other hother))
    exact ⟨version.1, by rw [hw, stampOf, decide_eq_true hput]⟩

theorem mem_globalIndexLookup_iff (hone : env.OneWrite) {keys : Finset Bytes} {rowKey : Bytes}
    (h : globalIndexLookup v .quorum env table ranges keys = some found) :
    rowKey ∈ found ↔ rowKey ∈ keys ∨ Shown v env table ranges rowKey := by
  induction ranges generalizing keys with
  | nil => simp [Shown, ← Option.some.inj h]
  | cons range ranges ih =>
    simp only [globalIndexLookup] at h
    split at h
    · cases h
    · split at h
      · cases h
      · have hlive : rowKey ∈ liveRowKeys (env.merge range (View.probes v env table .quorum range)) ↔ _ :=
          mem_liveRowKeys_iff
        simp only [exists_and_right, newest_inReach_iff hone] at hlive
        rw [ih h, Finset.mem_union, or_assoc]
        refine or_congr_right (Iff.trans (or_congr (hlive.trans ?_) Iff.rfl) (exists_mem_cons_iff _ _ _).symm)
        simp only [and_comm]

def EachLive (v : View) (env : ProbeEnv) (table : String) (ranges : List (Bytes × Bytes)) (P : Bytes → Prop) : Prop :=
  ∀ range ∈ ranges, ∀ key rowKey, range.1 ≤ key → key < range.2 → gidxEntryRowKey key = some rowKey →
    LiveAtQuorum v env table range key → P rowKey

theorem probes_of_globalIndexLookup {keys : Finset Bytes}
    (h : globalIndexLookup v .quorum env table ranges keys = some found) {range : Bytes × Bytes}
    (hrange : range ∈ ranges) : Consistency.quorum.required (max (v.effectiveReplicas table range.1).length 1) ≤
      (View.probes v env table .quorum range).length := by
  induction ranges generalizing keys with
  | nil => cases hrange
  | cons head ranges ih =>
    simp only [globalIndexLookup] at h
    split at h
    · cases h
    case isFalse hheard =>
      split at h
      · cases h
      · obtain rfl | hrange := mem_cons.mp hrange
        · exact not_lt.mp hheard
        · exact ih h hrange

def Short (v : View) (env : ProbeEnv) (table : String) (ranges : List (Bytes × Bytes)) : Prop :=
  ∀ range ∈ ranges, ∀ n ∈ v.effectiveReplicas table range.1,
    ((env.held n).entries.filter (fun e => range.1 ≤ e.1 ∧ e.1 < range.2)).length ≤ gidxProbeMax

theorem shown_of_short (hone : env.OneWrite) (h : globalIndexLookup v .quorum env table ranges ∅ = some found)
    (hshort : Short v env table ranges) : EachLive v env table ranges (Shown v env table ranges) := by
  intro range hrange key rowKey hlow hhigh hrow hlive
  have hsub : (View.probes v env table .quorum range).Sublist (v.effectiveReplicas table range.1) :=
    (take_sublist _ _).trans filter_sublist
  obtain ⟨hlc, hnewest⟩ := hlive _ hsub (probes_of_globalIndexLookup h hrange)
  refine ⟨range, hrange, key, hrow, (newest_inReach_iff hone).mp ⟨hlc, ?_⟩⟩
  rw [← hnewest]
  refine newest_congr ?_
  rw [map_map, map_map]
  refine map_congr_left (fun n hn => if_pos ⟨⟨hlow, hhigh⟩, ?_⟩)
  exact (length_filter_le _ _).trans (hshort range hrange n (hsub.subset hn))

-- A served probe has every live row if and only if each is shown, as it is when no replica has
-- more versions in a range than the cap.
theorem globalIndexLookup_complete_iff (ranges : List (Bytes × Bytes)) (found : Finset Bytes) (hone : env.OneWrite)
    (h : globalIndexLookup v .quorum env table ranges ∅ = some found) :
    (EachLive v env table ranges (· ∈ found) ↔ EachLive v env table ranges (Shown v env table ranges)) ∧
      (Short v env table ranges → EachLive v env table ranges (· ∈ found)) := by
  have hiff : EachLive v env table ranges (· ∈ found) ↔ EachLive v env table ranges (Shown v env table ranges) := by
    simp only [EachLive, mem_globalIndexLookup_iff hone h, Finset.notMem_empty, false_or]
  exact ⟨hiff, fun hshort => hiff.mpr (shown_of_short hone h hshort)⟩

def divergedRows : List (Bytes × Version) :=
  [([0, 1, 5, 1], (⟨5, 0⟩, .put [])), ([0, 1, 5, 2], (⟨3, 0⟩, .put [])), ([0, 1, 5, 2], (⟨6, 0⟩, .delete)),
    ([0, 1, 5, 3], (⟨7, 0⟩, .put []))]

-- Three replicas: the second has missed that row 2 lost its value, and the first the entry of
-- row 3. The third does not answer.
def divergedEnv : ProbeEnv where
  held n :=
    if n.name = "n0" then ⟨[divergedRows[0], divergedRows[2]], by decide⟩
    else if n.name = "n1" then ⟨[divergedRows[0], divergedRows[1], divergedRows[3]], by decide⟩
    else ⟨[divergedRows[2], divergedRows[3]], by decide⟩
  answers n _ := n.name ≠ "n2"

theorem diverged_oneWrite : divergedEnv.OneWrite := by
  have hall : ∀ n, ∀ e ∈ (divergedEnv.held n).entries, e ∈ divergedRows := by
    intro n
    simp only [divergedEnv]
    split_ifs <;> decide
  have hpair : ∀ e ∈ divergedRows, ∀ e' ∈ divergedRows, e.1 = e'.1 → e.2.1 = e'.2.1 → e.2 = e'.2 := by decide
  intro n m key version version' h h' hstamp
  exact hpair _ (hall n _ ((OrdMap.get?_eq_some_iff _).mp h)) _
    (hall m _ ((OrdMap.get?_eq_some_iff _).mp h')) rfl hstamp

theorem globalIndexLookup_complete_diverged : let v := settledView "n0" ["n0", "n1", "n2"] 3
    globalIndexLookup v .quorum divergedEnv "__gidx__i" [([0, 1, 5], [0, 1, 6])] ∅ = some {[1], [3]} ∧
      EachLive v divergedEnv "__gidx__i" [([0, 1, 5], [0, 1, 6])] (· ∈ ({[1], [3]} : Finset Bytes)) :=
  ⟨by decide, (globalIndexLookup_complete_iff _ _ diverged_oneWrite (by decide)).2 (by unfold Short; decide)⟩

end Complete

section HotValue

def hotKey (i : Nat) : Bytes := [0, 1, 5] ++ List.replicate i 0

def hotRows : List (Bytes × Version) :=
  (List.range (gidxProbeMax + 1)).map (fun i => (hotKey i, (⟨1, 0⟩, .delete)))

theorem hotKey_lt (h : i < j) : hotKey i < hotKey j := by
  have hlt : ∀ i j, i < j → replicate i (0 : UInt8) < replicate j 0 := by
    intro i
    induction i with
    | zero =>
      intro j hj
      obtain ⟨j, rfl⟩ := Nat.exists_eq_succ_of_ne_zero hj.ne'
      exact nil_lt_cons _ _
    | succ i ih =>
      intro j hj
      obtain ⟨j, rfl⟩ := Nat.exists_eq_succ_of_ne_zero (Nat.ne_zero_of_lt hj)
      simpa [replicate_succ, cons_lt_cons_iff] using ih j (by omega)
  simpa [hotKey, cons_lt_cons_iff] using hlt i j h

theorem hotKey_lt_live : hotKey i < [0, 1, 5, 1] := by
  cases i with
  | zero => decide
  | succ i => simp [hotKey, replicate_succ, cons_lt_cons_iff]

def hotShard : OrdMap Bytes Version :=
  ⟨hotRows ++ [([0, 1, 5, 1], (⟨1, 0⟩, .put []))], by
    refine List.pairwise_append.mpr ⟨?_, List.pairwise_singleton _ _, ?_⟩
    · exact List.pairwise_map.mpr (List.pairwise_lt_range.imp (fun h => hotKey_lt h))
    · intro a ha b hb
      obtain ⟨i, -, rfl⟩ := List.mem_map.mp ha
      rw [List.mem_singleton.mp hb]
      exact hotKey_lt_live⟩

def hotEnv : ProbeEnv := ⟨fun _ => hotShard, fun _ _ => true⟩

def hotRange : Bytes × Bytes := ([0, 1, 5], [0, 1, 6])

theorem hotKey_mem_range : hotRange.1 ≤ hotKey i ∧ hotKey i < hotRange.2 := by
  refine ⟨?_, hotKey_lt_live.trans (by decide)⟩
  obtain rfl | hi := Nat.eq_zero_or_pos i
  · exact le_refl _
  · exact (hotKey_lt hi).le

theorem ahead_hotShard : ahead hotShard hotRange [0, 1, 5, 1] = gidxProbeMax + 1 := by
  have hrows : ∀ e ∈ hotRows, (hotRange.1 ≤ e.1 ∧ e.1 < hotRange.2) ∧ e.1 < [0, 1, 5, 1] := by
    intro e he
    obtain ⟨i, -, rfl⟩ := mem_map.mp he
    exact ⟨hotKey_mem_range, hotKey_lt_live⟩
  rw [ahead, hotShard, filter_append, filter_append,
    filter_eq_self.mpr (fun e he => decide_eq_true (hrows e he).1),
    filter_eq_self.mpr (fun e he => decide_eq_true (hrows e he).2), length_append, hotRows,
    length_map, length_range]
  rfl

-- The 10001 tombstones fill the reply, and the probe serves an empty answer.
theorem globalIndexLookup_misses_live : let v := settledView "n0" ["n0"] 1
    globalIndexLookup v .quorum hotEnv "__gidx__i" [hotRange] ∅ = some ∅ ∧
      LiveAtQuorum v hotEnv "__gidx__i" hotRange [0, 1, 5, 1] ∧
        gidxEntryRowKey [0, 1, 5, 1] = some [1] := by
  have hreplicas : (settledView "n0" ["n0"] 1).effectiveReplicas "__gidx__i" hotRange.1 = [⟨"n0"⟩] := by
    decide
  have hheld : ∀ key v, hotShard.get? key = some v → v.2 = .delete ∨ key = [0, 1, 5, 1] := by
    intro key v hget
    rcases mem_append.mp ((OrdMap.get?_eq_some_iff _).mp hget) with hmem | hmem
    · obtain ⟨i, -, heq⟩ := mem_map.mp hmem
      exact .inl (by rw [← (Prod.mk.inj heq).2])
    · exact .inr (Prod.mk.inj (mem_singleton.mp hmem)).1
  have hempty : liveRowKeys (hotEnv.merge hotRange [⟨"n0"⟩]) = ∅ := by
    refine Finset.eq_empty_of_forall_notMem (fun rowKey hmem => ?_)
    obtain ⟨key, hlc, hnewest, -⟩ := mem_liveRowKeys_iff.mp hmem
    simp only [map_cons, map_nil, newest, foldl_cons, foldl_nil, pick_none_left,
      ProbeEnv.inReach, ProbeEnv.stamps, Option.ite_none_right_eq_some, Option.map_eq_some_iff, stampOf,
      Prod.mk.injEq, decide_eq_true_eq] at hnewest
    obtain ⟨⟨-, hahead⟩, version, hget, -, hput⟩ := hnewest
    rw [(hheld key version hget).resolve_left hput] at hahead
    exact absurd (ahead_hotShard ▸ hahead) (by omega)
  refine ⟨?_, ?_, by decide⟩
  · have hheard : hotEnv.heard (settledView "n0" ["n0"] 1) [⟨"n0"⟩] hotRange
        (Consistency.quorum.required (max [(⟨"n0"⟩ : NodeId)].length 1)) = [⟨"n0"⟩] := by decide
    simp only [globalIndexLookup, hreplicas, hheard, hempty]
    rfl
  · intro heard hsub hlen
    rw [hreplicas] at hsub hlen
    obtain rfl | rfl : heard = [] ∨ heard = [⟨"n0"⟩] := by
      rwa [sublist_singleton] at hsub
    · exact absurd hlen (by decide)
    · refine ⟨⟨1, 0⟩, ?_⟩
      have hget : hotShard.get? [0, 1, 5, 1] = some (⟨1, 0⟩, .put []) :=
        (OrdMap.get?_eq_some_iff _).mpr (mem_append_right _ (mem_singleton_self _))
      simp [newest, ProbeEnv.stamps, hotEnv, hget, stampOf]

end HotValue

end Skaidb.Cluster
