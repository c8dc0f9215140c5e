import Skaidb.Base.TopK
import Skaidb.Cluster.Coordinator
import Mathlib.Data.List.Dedup

namespace Skaidb.Cluster

open Skaidb.Base Skaidb.Storage List

-- The rows as the members have them, the stamp of each copy and what was written under it
-- (`none` for a delete), and the filter of the query.
structure Shards (Key Doc : Type) [LinearOrder Key] where
  members : List NodeId
  written : Key → Hlc → Option Doc
  stamps : NodeId → OrdMap Key Hlc
  matchesFilter : Doc → Bool

section Topk

variable {Key Doc κ : Type} [LinearOrder Key] [LinearOrder κ] {sortKey : Doc → κ} {row : Key × Doc}

namespace Shards

variable (s : Shards Key Doc)

def copy (n : NodeId) : Layer Key Hlc (Option Doc) :=
  fun key => ((s.stamps n).get? key).map (fun stamp => (stamp, s.written key stamp))

-- A read of a row takes the newest of the copies it hears of.
def latest (heard : List NodeId) (key : Key) : Option (Hlc × Option Doc) := newest (heard.map s.copy) key

def readRow (heard : List NodeId) (key : Key) : Option (Key × Doc) :=
  (((s.latest heard key).bind Prod.snd).filter s.matchesFilter).map (fun doc => (key, doc))

def readRows (heard : Key → List NodeId) (keys : List Key) : List (Key × Doc) :=
  keys.filterMap (fun key => s.readRow (heard key) key)

def own (n : NodeId) : List (Key × Doc) := s.readRows (fun _ => [n]) (s.stamps n).keys

def keys : List Key := (s.members.flatMap (fun n => (s.stamps n).keys)).dedup

def fullGather (gathered : Key → List NodeId) : List (Key × Doc) := s.readRows gathered s.keys

-- Every read hears of the newest copy of its row.
def Hears (heard : Key → List NodeId) : Prop :=
  ∀ key ∈ s.keys, (∀ n ∈ heard key, n ∈ s.members) ∧ ∃ n ∈ heard key, s.copy n key = s.latest s.members key

instance [DecidableEq Doc] (heard : Key → List NodeId) : Decidable (s.Hears heard) :=
  inferInstanceAs (Decidable (∀ key ∈ s.keys, _))

def isStale (n : NodeId) (row : Key × Doc) : Bool :=
  (s.latest s.members row.1).map Prod.fst ≠ (s.stamps n).get? row.1

-- The matching rows of a member of which another has a newer version.
def stale (n : NodeId) : Nat := (s.own n).countP (s.isStale n)

variable {s}

theorem copy_eq_some (h : s.copy n key = some v) : (s.stamps n).get? key = some v.1 ∧ v = (v.1, s.written key v.1) := by
  obtain ⟨stamp, hstamp, rfl⟩ := Option.map_eq_some_iff.mp h
  exact ⟨hstamp, rfl⟩

theorem exists_of_latest (h : s.latest heard key = some v) : ∃ n ∈ heard, s.copy n key = some v := by
  obtain ⟨layer, hlayer, hv⟩ := exists_of_newest_eq_some h
  obtain ⟨n, hn, rfl⟩ := mem_map.mp hlayer
  exact ⟨n, hn, hv⟩

theorem le_latest (hn : n ∈ heard) (h : s.copy n key = some v) : ∃ w, s.latest heard key = some w ∧ v.1 ≤ w.1 :=
  newest_le_of_mem (mem_map_of_mem hn) h

theorem latest_single : s.latest [n] key = s.copy n key := by
  simp [latest, newest]

theorem exists_latest (hkey : key ∈ s.keys) : ∃ v, s.latest s.members key = some v := by
  obtain ⟨m, hm, hstamp⟩ := mem_flatMap.mp (mem_dedup.mp hkey)
  obtain ⟨stamp, hstamp⟩ := ((s.stamps m).mem_keys key).mp hstamp
  obtain ⟨v, hall, -⟩ := le_latest hm (show s.copy m key = _ from congrArg (Option.map _) hstamp)
  exact ⟨v, hall⟩

theorem hears_members : s.Hears (fun _ => s.members) := by
  intro key hkey
  obtain ⟨v, hall⟩ := exists_latest hkey
  obtain ⟨n, hn, hcopy⟩ := exists_of_latest hall
  exact ⟨fun _ => id, n, hn, hcopy.trans hall.symm⟩

-- One stamp is of one version, so any two reads that hear of the newest copy agree.
theorem latest_of_hears (h : s.Hears heard) (hkey : key ∈ s.keys) :
    s.latest (heard key) key = s.latest s.members key := by
  obtain ⟨hsub, n, hn, hcopy⟩ := h key hkey
  obtain ⟨v, hall⟩ := exists_latest hkey
  rw [hall] at hcopy
  obtain ⟨w, hw, hvw⟩ := le_latest hn hcopy
  obtain ⟨m, hm, hmw⟩ := exists_of_latest hw
  obtain ⟨u, hu, hwu⟩ := le_latest (hsub m hm) hmw
  obtain rfl : u = v := Option.some.inj (hu.symm.trans hall)
  rw [hw, hall, (copy_eq_some hmw).2, (copy_eq_some hcopy).2, le_antisymm hwu hvw]

theorem readRows_of_hears (h : s.Hears heard) {keys : List Key} (hkeys : keys ⊆ s.keys) :
    s.readRows heard keys = s.readRows (fun _ => s.members) keys :=
  filterMap_congr fun key hkey => by simp only [readRow, latest_of_hears h (hkeys hkey)]

theorem readRow_eq_some (h : s.readRow heard key = some row) :
    row.1 = key ∧ ∃ stamp, s.latest heard key = some (stamp, some row.2) := by
  obtain ⟨doc, hdoc, rfl⟩ := Option.map_eq_some_iff.mp h
  obtain ⟨v, hv, hdoc⟩ := Option.bind_eq_some_iff.mp (Option.filter_eq_some_iff.mp hdoc).1
  exact ⟨rfl, v.1, by rw [hv, ← hdoc]⟩

theorem nodup_own : ((s.own n).map Prod.fst).Nodup := by
  have hkeys : (s.own n).map Prod.fst = (s.stamps n).keys.filter (fun key => (s.readRow [n] key).isSome) := by
    rw [own, readRows, map_filterMap, ← filterMap_eq_filter]
    refine filterMap_congr fun key _ => ?_
    cases hrow : s.readRow [n] key with
    | none => simp [Option.guard, hrow]
    | some row => simp [Option.guard, hrow, (readRow_eq_some hrow).1]
  rw [hkeys]
  exact (s.stamps n).nodup_keys.filter _

theorem mem_own (h : row ∈ s.own n) : row.1 ∈ (s.stamps n).keys ∧ s.readRow [n] row.1 = some row := by
  obtain ⟨key, hkey, hrow⟩ := mem_filterMap.mp h
  obtain rfl := (readRow_eq_some hrow).1
  exact ⟨hkey, hrow⟩

-- A row that is not stale is what a read that hears of everyone returns.
theorem readRow_of_current (h : row ∈ s.own n) (hcurrent : s.isStale n row = false) :
    s.readRow s.members row.1 = some row := by
  obtain ⟨-, hrow⟩ := mem_own h
  obtain ⟨-, stamp, hlatest⟩ := readRow_eq_some hrow
  rw [latest_single] at hlatest
  have hstamp : (s.latest s.members row.1).map Prod.fst = some stamp := by
    simpa [isStale, (copy_eq_some hlatest).1] using hcurrent
  obtain ⟨v, hv, rfl⟩ := Option.map_eq_some_iff.mp hstamp
  obtain ⟨m, -, hm⟩ := exists_of_latest hv
  have hsame : s.latest s.members row.1 = s.latest [n] row.1 := by
    rw [latest_single, hlatest, hv, (copy_eq_some hm).2, (copy_eq_some hlatest).2]
  rwa [readRow, hsame]

end Shards

variable (sortKey) in
-- The rows in the order in which a plan that serves the ORDER BY walks them.
structure Walk (rows : List (Key × Doc)) where
  walked : List (Key × Doc)
  perm : walked.Perm rows
  sorted : walked.Pairwise (fun a b => sortKey a.2 ≤ sortKey b.2)

def sortedFetch (k : Nat) : Nat := max (4 * k) (k + 32)

def localSortedCandidates {rows : List (Key × Doc)} (walk : Option (Walk sortKey rows)) (fetch : Nat) :
    Option (List Key) :=
  walk.map (fun walk => (walk.walked.take fetch).map Prod.fst)

variable {s : Shards Key Doc} (walks : (n : NodeId) → Option (Walk sortKey (s.own n)))

def candidates (k : Nat) : List Key :=
  (s.members.flatMap (fun n => (localSortedCandidates (walks n) (sortedFetch k)).getD [])).dedup

-- A member that cannot contribute leaves the work to the full gather. Otherwise the
-- candidates of all are read again and filtered.
def sortedTopk (reread : Key → List NodeId) (k : Nat) : Option (List (Key × Doc)) :=
  if s.members.any (fun n => (localSortedCandidates (walks n) (sortedFetch k)).isNone) then none
  else
    let rows := s.readRows reread (candidates walks k)
    if rows.length < k then none else some rows

-- The first `k` sort keys of the rows, as the executor sorts and truncates them.
def topKeys (sortKey : Doc → κ) (k : Nat) (rows : List (Key × Doc)) : List κ :=
  ((rows.map (fun row => sortKey row.2)).insertionSort (· ≤ ·)).take k

variable (sortKey s) in
def within (bound : κ) (key : Key) : Bool := (s.readRow s.members key).any (fun row => sortKey row.2 ≤ bound)

theorem countP_readRows {bound : κ} {keys : List Key} :
    ((s.readRows (fun _ => s.members) keys).map (fun row => sortKey row.2)).countP (· ≤ bound) =
      keys.countP (within sortKey s bound) := by
  rw [countP_map, Shards.readRows, countP_filterMap]
  refine countP_congr fun key _ => ?_
  cases hrow : s.readRow s.members key <;> simp [within, hrow]

variable {walks}

theorem mem_candidates : key ∈ candidates walks k ↔
    ∃ n ∈ s.members, ∃ walk, walks n = some walk ∧ ∃ row ∈ walk.walked.take (sortedFetch k), row.1 = key := by
  simp only [candidates, mem_dedup, mem_flatMap, localSortedCandidates]
  refine exists_congr fun n => and_congr_right fun _ => ?_
  cases walks n <;> simp [-map_take]

theorem candidates_subset : candidates walks k ⊆ s.keys := by
  intro key hkey
  obtain ⟨n, hn, walk, -, row, hrow, rfl⟩ := mem_candidates.mp hkey
  have hown := (Shards.mem_own (walk.perm.mem_iff.mp (mem_of_mem_take hrow))).1
  exact mem_dedup.mpr (mem_flatMap.mpr ⟨n, hn, hown⟩)

-- A row that is on no member's list has a whole list ahead of it on a member that has its
-- newest version, and `k` of that list are not stale.
theorem k_le_of_not_candidate (hserved : ∀ n ∈ s.members, (walks n).isSome)
    (hstale : ∀ n ∈ s.members, s.stale n + k ≤ sortedFetch k)
    (hkey : within sortKey s bound key = true) (hnot : key ∉ candidates walks k) :
    k ≤ (candidates walks k).countP (within sortKey s bound) := by
  obtain ⟨row, hrow, hle⟩ : ∃ row, s.readRow s.members key = some row ∧ sortKey row.2 ≤ bound := by
    simpa [within, Option.any_eq_true] using hkey
  obtain ⟨rfl, stamp, hlatest⟩ := Shards.readRow_eq_some hrow
  obtain ⟨n, hn, hcopy⟩ := Shards.exists_of_latest hlatest
  obtain ⟨walk, hwalk⟩ := Option.isSome_iff_exists.mp (hserved n hn)
  have hown : row ∈ walk.walked := by
    refine walk.perm.mem_iff.mpr (mem_filterMap.mpr ⟨row.1, ?_, ?_⟩)
    · exact ((s.stamps n).mem_keys row.1).mpr ⟨stamp, (Shards.copy_eq_some hcopy).1⟩
    · rw [← hrow, Shards.readRow, Shards.readRow, Shards.latest_single, hcopy, hlatest]
  obtain ⟨ahead, hahead⟩ : ∃ ahead, ahead = walk.walked.take (sortedFetch k) := ⟨_, rfl⟩
  have hsplit := take_append_drop (sortedFetch k) walk.walked
  rw [← hahead] at hsplit
  have hlisted : ∀ r ∈ ahead, r.1 ∈ candidates walks k :=
    fun r hr => mem_candidates.mpr ⟨n, hn, walk, hwalk, r, hahead ▸ hr, rfl⟩
  have hbehind : row ∈ walk.walked.drop (sortedFetch k) := by
    rw [← hsplit] at hown
    exact (mem_append.mp hown).resolve_left fun hfront => hnot (hlisted row hfront)
  have hfull : ahead.length = sortedFetch k := by
    have hpos := length_pos_of_mem hbehind
    rw [length_drop] at hpos
    rw [hahead, length_take]
    omega
  have hfew : ahead.countP (s.isStale n) + k ≤ sortedFetch k := by
    refine le_trans (Nat.add_le_add_right ?_ k) (hstale n hn)
    exact (hahead ▸ (take_sublist _ _).countP_le).trans (walk.perm.countP_eq _).le
  have hcount := ahead.length_eq_countP_add_countP (s.isStale n)
  have hk : k ≤ ahead.countP (fun r => ¬s.isStale n r = true) := by omega
  refine hk.trans (countP_le_of_nodup_map (f := Prod.fst) ?_ fun r hr hcurrent => ⟨hlisted r hr, ?_⟩)
  · exact (((walk.perm.map Prod.fst).nodup_iff).mpr Shards.nodup_own).sublist (hahead ▸ (take_sublist _ _).map _)
  · have hsame := Shards.readRow_of_current (walk.perm.mem_iff.mp (mem_of_mem_take (hahead ▸ hr)))
      (by simpa using hcurrent)
    have hsorted := walk.sorted
    rw [← hsplit] at hsorted
    have hbefore := (pairwise_append.mp hsorted).2.2 r hr row hbehind
    simpa [within, hsame] using hbefore.trans hle

theorem sortedTopk_eq_some (h : sortedTopk walks reread k = some rows) :
    (∀ n ∈ s.members, (walks n).isSome) ∧ rows = s.readRows reread (candidates walks k) := by
  unfold sortedTopk at h
  split_ifs at h with hnone
  dsimp only at h
  split_ifs at h
  refine ⟨fun n hn => ?_, (Option.some.inj h).symm⟩
  rw [Option.isSome_iff_ne_none]
  exact fun hwalk => hnone (any_eq_true.mpr ⟨n, hn, by simp [hwalk, localSortedCandidates]⟩)

end Topk

-- The answer is exact in every cluster whose members have at most `d` stale rows each.
def ExactUpTo (d k : Nat) : Prop :=
  ∀ {Key Doc κ : Type} [LinearOrder Key] [LinearOrder κ] (sortKey : Doc → κ) (s : Shards Key Doc)
    (walks : (n : NodeId) → Option (Walk sortKey (s.own n))) (reread gathered : Key → List NodeId)
    (rows : List (Key × Doc)), s.Hears reread → s.Hears gathered → (∀ n ∈ s.members, s.stale n ≤ d) →
    sortedTopk walks reread k = some rows → topKeys sortKey k rows = topKeys sortKey k (s.fullGather gathered)

theorem exactUpTo_of_le (hfit : d + k ≤ sortedFetch k) : ExactUpTo d k := by
  intro Key Doc κ _ _ sortKey s walks reread gathered rows hreread hgathered hstale h
  have hstale := fun n hn => (Nat.add_le_add_right (hstale n hn) k).trans hfit
  obtain ⟨hserved, rfl⟩ := sortedTopk_eq_some h
  rw [Shards.fullGather, Shards.readRows_of_hears hreread candidates_subset,
    Shards.readRows_of_hears hgathered (Subset.refl _)]
  refine take_sort_eq_of_countP fun bound => ?_
  rw [countP_readRows, countP_readRows]
  have hcandidates : (candidates walks k).Nodup := nodup_dedup _
  have hkeys : s.keys.Nodup := nodup_dedup _
  have hpart : (candidates walks k).countP (within sortKey s bound) ≤ s.keys.countP (within sortKey s bound) :=
    countP_le_of_nodup_map (f := id) (by simpa using hcandidates) fun key hkey hw => ⟨candidates_subset hkey, hw⟩
  by_cases hall : ∀ key ∈ s.keys, within sortKey s bound key = true → key ∈ candidates walks k
  · have hwhole : s.keys.countP (within sortKey s bound) ≤ (candidates walks k).countP (within sortKey s bound) :=
      countP_le_of_nodup_map (f := id) (by simpa using hkeys) fun key hkey hw => ⟨hall key hkey hw, hw⟩
    rw [le_antisymm hpart hwhole]
  · push Not at hall
    obtain ⟨key, -, hw, hnot⟩ := hall
    have hk := k_le_of_not_candidate hserved hstale hw hnot
    omega

section Buried

-- In every row a has false and b has true, and b's is the newer one in the first `d` only.
def buriedShards (d j : Nat) : Shards Nat Bool where
  members := [⟨"a"⟩, ⟨"b"⟩]
  written key stamp := some (decide (stamp = ⟨1, 0⟩) == decide (key < d))
  stamps n := ⟨(range (d + (j + 1))).map
    (fun key => (key, if decide (n = ⟨"b"⟩) = decide (key < d) then ⟨1, 0⟩ else ⟨0, 0⟩)),
    pairwise_map.mpr pairwise_lt_range⟩
  matchesFilter _ := true

variable {d j key : Nat} {n : NodeId}

theorem members_buried : (buriedShards d j).members = [⟨"a"⟩, ⟨"b"⟩] := rfl

theorem stamped_buried : ((buriedShards d j).stamps n).keys = range (d + (j + 1)) := by
  simp [OrdMap.keys, buriedShards, Function.comp_def]

theorem copy_buried (hkey : key < d + (j + 1)) : (buriedShards d j).copy n key =
    some (if decide (n = ⟨"b"⟩) = decide (key < d) then ⟨1, 0⟩ else ⟨0, 0⟩, some (decide (n = ⟨"b"⟩))) := by
  rw [Shards.copy, (OrdMap.get?_eq_some_iff _).mpr (mem_map_of_mem (mem_range.mpr hkey))]
  by_cases hb : n = ⟨"b"⟩ <;> by_cases hnew : key < d <;> simp [buriedShards, hb, hnew]

theorem latest_buried (hkey : key < d + (j + 1)) :
    (buriedShards d j).latest (buriedShards d j).members key = some (⟨1, 0⟩, some (decide (key < d))) := by
  have hlt : (⟨0, 0⟩ : Hlc) < ⟨1, 0⟩ := by decide
  rw [members_buried]
  by_cases hnew : key < d <;> simp [Shards.latest, newest, copy_buried hkey, hnew, pick, hlt, hlt.le]

theorem own_buried : (buriedShards d j).own n = (range (d + (j + 1))).map (fun key => (key, decide (n = ⟨"b"⟩))) := by
  rw [Shards.own, Shards.readRows, stamped_buried, ← filterMap_eq_map]
  refine filterMap_congr fun key hkey => ?_
  rw [Shards.readRow, Shards.latest_single, copy_buried (mem_range.mp hkey)]
  rfl

theorem stale_buried (hjd : j < d) : (buriedShards d j).stale n ≤ d := by
  have hstale : (buriedShards d j).stale n =
      (range (d + (j + 1))).countP (fun key => decide (n = ⟨"b"⟩) != decide (key < d)) := by
    rw [Shards.stale, own_buried, countP_map]
    refine countP_congr fun key hkey => ?_
    rw [mem_range] at hkey
    by_cases hb : n = ⟨"b"⟩ <;> by_cases hnew : key < d <;>
      simp [Shards.isStale, latest_buried hkey, (Shards.copy_eq_some (copy_buried hkey)).1, hb, hnew]
  rw [hstale, range_add, countP_append]
  by_cases hb : n = ⟨"b"⟩
  · have hnone : (range d).countP (fun key => !decide (key < d)) = 0 := by simp [countP_eq_zero]
    simpa [hb, countP_map, Function.comp_def, hnone] using Nat.succ_le_of_lt hjd
  · simpa [hb, countP_map, Function.comp_def] using countP_le_length (l := range d)

def buriedWalk (d j : Nat) (n : NodeId) : Option (Walk id ((buriedShards d j).own n)) :=
  some ⟨_, .refl _, own_buried ▸ pairwise_map.mpr (pairwise_of_forall fun _ _ => le_rfl)⟩

theorem readRows_buried (d j k : Nat) {keys : List Nat} (hkeys : ∀ key, key ∈ keys ↔ key < d + m)
    (hnodup : keys.Nodup) (hm : m ≤ j + 1) :
    let rows := (buriedShards d j).readRows (fun _ => (buriedShards d j).members) keys
    rows.length = d + m ∧ (topKeys id k rows).countP (· ≤ false) = min k m := by
  intro rows
  have hrows : rows = keys.map (fun key => (key, decide (key < d))) := by
    rw [← filterMap_eq_map]
    refine filterMap_congr fun key hkey => ?_
    have hkey := (hkeys key).mp hkey
    rw [Shards.readRow, latest_buried (by omega)]
    rfl
  have hperm : keys.Perm (range (d + m)) :=
    (perm_ext_iff_of_nodup hnodup nodup_range).mpr fun key => by rw [hkeys, mem_range]
  have hnone : (range d).countP (fun key => decide (decide (key < d) ≤ false)) = 0 := by
    simp +contextual [countP_eq_zero]
  rw [hrows, length_map, hperm.length_eq, length_range, topKeys, countP_take_sort, ((hperm.map _).map _).countP_eq,
    range_add]
  simp [countP_map, Function.comp_def, hnone, countP_replicate]

-- The last row is behind as many others as the lists have room for.
theorem not_exactUpTo (hfetch : sortedFetch (j + 1) = d + j) (hjd : j < d) (hle : d ≤ e) : ¬ExactUpTo e (j + 1) := by
  intro hexact
  have hlisted : ∀ key, key ∈ candidates (buriedWalk d j) (j + 1) ↔ key < d + j := by
    simp [candidates, localSortedCandidates, members_buried, buriedWalk, own_buried, take_range, hfetch,
      Function.comp_def]
  have hkeys : ∀ key, key ∈ (buriedShards d j).keys ↔ key < d + (j + 1) := by
    simp [Shards.keys, members_buried, stamped_buried]
  obtain ⟨hlength, hfew⟩ := readRows_buried d j (j + 1) hlisted (nodup_dedup _) (by omega)
  have heq := hexact id _ (buriedWalk d j) _ _ _ Shards.hears_members Shards.hears_members
    (fun _ _ => (stale_buried hjd).trans hle) <| by
      rw [sortedTopk, if_neg (by simp [localSortedCandidates, buriedWalk])]
      exact if_neg (by rw [hlength]; omega)
  have hcount := congrArg (countP (· ≤ false)) heq
  rw [hfew, Shards.fullGather, (readRows_buried d j (j + 1) hkeys (nodup_dedup _) le_rfl).2] at hcount
  omega

end Buried

section Diverged

-- The first row has 10 and `2 * d` others have 100; the old versions had 1000 and 0. Of three
-- members a missed the first `d` of the others, b the rest of them and c the first row.
def divergedShards (d : Nat) : Shards Nat Nat where
  members := [⟨"a"⟩, ⟨"b"⟩, ⟨"c"⟩]
  written key stamp :=
    if stamp = ⟨1, 0⟩ then some (if key = 0 then 10 else 100) else some (if key = 0 then 1000 else 0)
  stamps n :=
    let shard (missed : Nat → Bool) : OrdMap Nat Hlc :=
      ⟨(List.range (2 * d + 1)).map (fun key => (key, if missed key then ⟨0, 0⟩ else ⟨1, 0⟩)),
        pairwise_map.mpr pairwise_lt_range⟩
    match n.name with
    | "a" => shard (fun key => 0 < key && key ≤ d)
    | "b" => shard (fun key => d < key)
    | _ => shard (fun key => key = 0)
  matchesFilter _ := true

def sortedWalk (rows : List (Nat × Nat)) : Walk id rows :=
  ⟨rows.insertionSort (fun a b => a.2 ≤ b.2), perm_insertionSort _ _,
    pairwise_insertionSort (fun a b => a.2 ≤ b.2) rows⟩

end Diverged

end Skaidb.Cluster
