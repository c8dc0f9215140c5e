import Mathlib.Data.List.TakeWhile
import Skaidb.Cluster.Intersection
import Skaidb.Cluster.Scan

namespace Skaidb.Cluster

open Skaidb.Base Skaidb.Exec Skaidb.Storage List OrdMap Option Gather Consistency

variable {Doc : Type} {q : ScanQuery Doc}

section Merging

variable {m m' : Merged}

def StampsLe {ν : Type*} (m m' : OrdMap Bytes (Hlc × ν)) : Prop :=
  ∀ key w, m.get? key = some w → ∃ w', m'.get? key = some w' ∧ w.1 ≤ w'.1

theorem StampsLe.refl {ν : Type*} (m : OrdMap Bytes (Hlc × ν)) : StampsLe m m :=
  fun _ w h => ⟨w, h, le_refl _⟩

theorem StampsLe.trans {ν : Type*} {a b c : OrdMap Bytes (Hlc × ν)} (hab : StampsLe a b)
    (hbc : StampsLe b c) : StampsLe a c := by
  intro key w hw
  obtain ⟨w', hw', hle⟩ := hab key w hw
  obtain ⟨w'', hw'', hle'⟩ := hbc key w' hw'
  exact ⟨w'', hw'', hle.trans hle'⟩

theorem get?_mergeRow {m : Merged} : (mergeRow m key value hlc).get? other =
      if other = key ∧ ∀ held ∈ m.get? key, held.1 < hlc then some (hlc, value) else m.get? other := by
  unfold mergeRow
  cases hheld : m.get? key with
  | none => simp
  | some held =>
    by_cases hlt : held.1 < hlc
    · simp [hlt]
    · simp [hlt]

theorem le_mergeRow : StampsLe m (mergeRow m key value hlc) := by
  intro other w hw
  rw [get?_mergeRow]
  split_ifs with hnew
  · exact ⟨_, rfl, (hnew.2 w (hnew.1 ▸ hw)).le⟩
  · exact ⟨w, hw, le_refl _⟩

theorem get?_mergeRow_self : ∃ w, (mergeRow m key value hlc).get? key = some w ∧ hlc ≤ w.1 := by
  rw [get?_mergeRow]
  by_cases hnew : ∀ held ∈ m.get? key, held.1 < hlc
  · exact ⟨_, if_pos ⟨rfl, hnew⟩, le_refl _⟩
  · rw [if_neg (fun h => hnew h.2)]
    simpa using hnew

theorem mergeRows_spec (h : mergeRows q m rows = .ok m') :
    StampsLe m m' ∧ (∀ row ∈ rows, ∃ w, m'.get? row.key = some w ∧ row.hlc ≤ w.1) ∧
      ∀ key w, m'.get? key = some w → (∃ w', m.get? key = some w') ∨ ∃ row ∈ rows, row.key = key := by
  induction rows generalizing m with
  | nil =>
    cases h
    exact ⟨StampsLe.refl _, by simp, fun key w hw => .inl ⟨w, hw⟩⟩
  | cons row rows ih =>
    simp only [mergeRows, bind_eq_ok_iff] at h
    obtain ⟨value, -, h⟩ := h
    obtain ⟨hle, hrows, hkeys⟩ := ih h
    refine ⟨le_mergeRow.trans hle, ?_, ?_⟩
    · intro r hr
      rcases mem_cons.mp hr with rfl | hr
      · obtain ⟨w, hw, hw'⟩ := get?_mergeRow_self
        obtain ⟨w'', hw'', hle'⟩ := hle _ w hw
        exact ⟨w'', hw'', hw'.trans hle'⟩
      · exact hrows r hr
    · intro key w hw
      rcases hkeys key w hw with ⟨w', hw'⟩ | ⟨r, hr, rfl⟩
      · rw [get?_mergeRow] at hw'
        split_ifs at hw' with hnew
        · exact .inr ⟨row, by simp, hnew.1.symm⟩
        · exact .inl ⟨w', hw'⟩
      · exact .inr ⟨r, by simp [hr], rfl⟩

end Merging

section Paging

variable {s : Source} {shard : OrdMap Bytes Version}

def Source.Passed (s : Source) (key : Bytes) : Prop :=
  s.ok = true ∧ (s.done = true ∨ ∃ cur ∈ s.cursor, key ≤ cur)

variable {row : BatchRow}

theorem mem_takeWhile_of_sorted {rows : List BatchRow} (hsorted : rows.Pairwise (fun a b => a.key < b.key))
    (hmem : row ∈ rows) (hlt : row.key < stop) : row ∈ rows.takeWhile (fun r => r.key < stop) := by
  induction rows with
  | nil => cases hmem
  | cons r rows ih =>
    obtain ⟨hhead, htail⟩ := pairwise_cons.mp hsorted
    rcases mem_cons.mp hmem with rfl | hmem
    · rw [takeWhile_cons_of_pos (by simpa using hlt)]
      exact mem_cons_self
    · rw [takeWhile_cons_of_pos (by simpa using (hhead row hmem).trans hlt)]
      exact mem_cons_of_mem r (ih htail hmem)

private theorem key_ofVersion : (BatchRow.ofVersion e).key = e.1 := by
  obtain ⟨key, hlc, value⟩ := e
  cases value <;> rfl

private theorem hlc_ofVersion : (BatchRow.ofVersion e).hlc = e.2.1 := by
  obtain ⟨key, hlc, value⟩ := e
  cases value <;> rfl

private def rawPage (s : Source) (limit : Nat) (shard : OrdMap Bytes Version) : List BatchRow :=
  (shard.page s.cursor limit).map BatchRow.ofVersion

private theorem rawPage_sorted : (rawPage s limit shard).Pairwise (fun a b => a.key < b.key) := by
  refine pairwise_map.mpr (shard.page_sorted.imp fun h => ?_)
  rw [key_ofVersion, key_ofVersion]
  exact h

theorem clamp_sublist : (clamp finish rows).1.Sublist rows := by
  cases finish with
  | none => exact Sublist.refl rows
  | some stop => exact takeWhile_sublist _

theorem mem_clamp {rows : List BatchRow}
    (hsorted : rows.Pairwise (fun a b => a.key < b.key)) (hmem : row ∈ rows)
    (hin : ∀ stop ∈ finish, row.key < stop) : row ∈ (clamp finish rows).1 := by
  cases finish with
  | none => exact hmem
  | some stop => exact mem_takeWhile_of_sorted hsorted hmem (hin stop rfl)

theorem lt_of_mem_sourcePage (h : row ∈ (s.page finish limit shard).1) : ∀ cur ∈ s.cursor, cur < row.key := by
  have hraw : row ∈ rawPage s limit shard := clamp_sublist.subset h
  obtain ⟨e, he, rfl⟩ := mem_map.mp hraw
  rw [key_ofVersion]
  exact lt_of_mem_page he

theorem mem_sourcePage (hget : shard.get? key = some v) (hafter : ∀ cur ∈ s.cursor, cur < key)
    (hin : ∀ stop ∈ finish, key < stop) (hpassed : (s.page finish limit shard).2.Passed key) :
    ∃ row ∈ (s.page finish limit shard).1, row.key = key ∧ row.hlc = v.1 := by
  have hreach : (shard.page s.cursor limit).length < limit ∨
      ∃ e ∈ shard.page s.cursor limit, key ≤ e.1 := by
    have hfromRow : ∀ row ∈ rawPage s limit shard, key ≤ row.key →
        ∃ e ∈ shard.page s.cursor limit, key ≤ e.1 := by
      intro row hrow hle
      obtain ⟨e, he, rfl⟩ := List.mem_map.mp hrow
      rw [key_ofVersion] at hle
      exact ⟨e, he, hle⟩
    rcases hpassed.2 with hdone | ⟨cur, hcur, hle⟩
    · simp only [Source.page, List.length_map, Bool.or_eq_true, decide_eq_true_eq] at hdone
      rcases hdone with hshort | hbound
      · exact .inl hshort
      · -- some row of the page is past the range, so it is past the key
        cases finish with
        | none => simp [clamp] at hbound
        | some stop =>
          simp only [clamp, List.any_eq_true, decide_eq_true_eq] at hbound
          obtain ⟨row, hrow, hstop⟩ := hbound
          exact .inr (hfromRow row hrow ((hin stop rfl).le.trans hstop))
    · refine .inr ?_
      simp only [Source.page, Option.mem_def, Option.or_eq_some_iff, Option.map_eq_some_iff,
        Option.map_eq_none_iff] at hcur
      rcases hcur with ⟨row, hlast, rfl⟩ | ⟨-, hold⟩
      · exact hfromRow row (clamp_sublist.subset (List.mem_of_getLast? hlast)) hle
      · exact absurd (hafter cur hold) (not_lt.mpr hle)
  have hmem : BatchRow.ofVersion (key, v) ∈ rawPage s limit shard :=
    List.mem_map_of_mem (OrdMap.mem_page hget hafter hreach)
  refine ⟨_, mem_clamp rawPage_sorted hmem ?_, key_ofVersion, hlc_ofVersion⟩
  rw [key_ofVersion]
  exact hin

theorem cursor_sourcePage (h : cur ∈ s.cursor) : ∃ cur' ∈ (s.page finish limit shard).2.cursor, cur ≤ cur' := by
  simp only [Source.page]
  cases hlast : (clamp finish ((shard.page s.cursor limit).map BatchRow.ofVersion)).1.getLast? with
  | none => exact ⟨cur, by simpa [hlast] using h, le_refl _⟩
  | some row =>
    have hmem : row ∈ (s.page finish limit shard).1 := mem_of_getLast? hlast
    exact ⟨row.key, by simp, (lt_of_mem_sourcePage hmem cur h).le⟩

theorem exists_cursor_sourcePage (hlimit : 0 < limit) (h : (s.page finish limit shard).2.done = false) :
    ∃ cur, cur ∈ (s.page finish limit shard).2.cursor := by
  simp only [Source.page, length_map, Bool.or_eq_false_iff, decide_eq_false_iff_not,
    not_lt] at h
  obtain ⟨hfull, hbound⟩ := h
  have hall : (clamp finish ((shard.page s.cursor limit).map BatchRow.ofVersion)).1 =
      (shard.page s.cursor limit).map BatchRow.ofVersion := by
    cases finish with
    | none => rfl
    | some stop =>
      simp only [clamp, List.any_eq_false, decide_eq_true_eq, not_le] at hbound ⊢
      exact List.takeWhile_eq_self_iff.mpr (fun row hrow => by simpa using hbound row hrow)
  have hne : shard.page s.cursor limit ≠ [] := by
    intro hnil
    rw [hnil] at hfull
    simp only [length_nil] at hfull
    omega
  have hne' : (shard.page s.cursor limit).map BatchRow.ofVersion ≠ [] := by simpa using hne
  refine ⟨(((shard.page s.cursor limit).map BatchRow.ofVersion).getLast hne').key, ?_⟩
  simp only [Source.page, hall]
  simp [getLast?_eq_getLast_of_ne_nil hne']

end Paging

section Sources

variable {env : ScanEnv} {s : Source} {m m' : Merged} {shard shard' : OrdMap Bytes Version}

def ScanQuery.InRange (q : ScanQuery Doc) (key : Bytes) : Prop :=
  (∀ start ∈ q.range.map Prod.fst, start < key) ∧ ∀ stop ∈ q.rangeEnd, key < stop

-- A version at least as new is in the buffer or has been decided.
def Reached (m : Merged) (d : List (Bytes × Hlc × Option Bytes)) (key : Bytes) (hlc : Hlc) : Prop :=
  (∃ w, m.get? key = some w ∧ hlc ≤ w.1) ∨ ∃ w, (key, w) ∈ d ∧ hlc ≤ w.1

theorem Reached.mono {key : Bytes} (h : Reached m d key hlc) (hle : StampsLe m m') : Reached m' d key hlc := by
  rcases h with ⟨w, hw, hhlc⟩ | h
  · obtain ⟨w', hw', hle'⟩ := hle key w hw
    exact .inl ⟨w', hw', hhlc.trans hle'⟩
  · exact .inr h

-- Everything the source held when the scan began and has gone past is reached, and a
-- source that goes on is past every decided key.
structure Source.Sound (q : ScanQuery Doc) (shard : OrdMap Bytes Version) (m : Merged)
    (d : List (Bytes × Hlc × Option Bytes)) (s : Source) : Prop where
  delivered : ∀ key, q.InRange key → s.Passed key → ∀ v, shard.get? key = some v → Reached m d key v.1
  ahead : s.active = true → ∀ e ∈ d, ∃ cur ∈ s.cursor, e.1 ≤ cur

theorem Source.Sound.mono (h : s.Sound q shard m d) (hle : StampsLe m m') : s.Sound q shard m' d :=
  ⟨fun key hin hpassed v hv => (h.delivered key hin hpassed v hv).mono hle, h.ahead⟩

def Above (m : Merged) (d : List (Bytes × Hlc × Option Bytes)) : Prop :=
  ∀ e ∈ d, ∀ key w, m.get? key = some w → e.1 < key

theorem Source.Sound.page (h : s.Sound q shard m d) (hactive : s.active = true) (hgrows : StampsLe shard shard')
    (hmerge : mergeRows q m (s.page q.rangeEnd limit shard').1 = .ok m') (habove : Above m d) :
    (s.page q.rangeEnd limit shard').2.Sound q shard m' d ∧ StampsLe m m' ∧ Above m' d := by
  obtain ⟨hle, hrows, hkeys⟩ := mergeRows_spec hmerge
  have hok : s.ok = true := by
    simp only [Source.active, Bool.and_eq_true] at hactive
    exact hactive.2
  refine ⟨⟨?_, ?_⟩, hle, ?_⟩
  · intro key hin hpassed v hv
    by_cases hbefore : ∃ cur ∈ s.cursor, key ≤ cur
    · exact (h.delivered key hin ⟨hok, .inr hbefore⟩ v hv).mono hle
    · obtain ⟨v', hv', hvv'⟩ := hgrows key v hv
      have hafter : ∀ cur ∈ s.cursor, cur < key :=
        fun cur hcur => not_le.mp (fun hle => hbefore ⟨cur, hcur, hle⟩)
      obtain ⟨row, hrow, rfl, hhlc⟩ := mem_sourcePage hv' hafter hin.2 hpassed
      obtain ⟨w, hw, hle'⟩ := hrows row hrow
      exact .inl ⟨w, hw, (hvv'.trans_eq hhlc.symm).trans hle'⟩
  · intro _ e he
    obtain ⟨cur, hcur, hcur'⟩ := h.ahead hactive e he
    obtain ⟨cur', hmem, hle'⟩ := cursor_sourcePage hcur
    exact ⟨cur', hmem, hcur'.trans hle'⟩
  · intro e he key w hw
    rcases hkeys key w hw with ⟨w', hw'⟩ | ⟨row, hrow, rfl⟩
    · exact habove e he key w' hw'
    · obtain ⟨cur, hcur, hcur'⟩ := h.ahead hactive e he
      exact hcur'.trans_lt (lt_of_mem_sourcePage hrow cur hcur)

def ScanEnv.Grows (env : ScanEnv) : Prop :=
  ∀ t node, StampsLe (env.shard t node) (env.shard (t + 1) node)

theorem ScanEnv.Grows.since_start (h : env.Grows) : StampsLe (env.shard 0 node) (env.shard t node) := by
  induction t with
  | zero => exact StampsLe.refl _
  | succ t ih => exact ih.trans (h t node)

def Source.Started (s : Source) : Prop := s.active = true → ∃ cur, cur ∈ s.cursor

private theorem started_page (hlimit : 0 < limit) {s : Source} : (s.page q.rangeEnd limit shard).2.Started := by
  intro hactive
  simp only [Source.active, Bool.and_eq_true, Bool.not_eq_true'] at hactive
  exact exists_cursor_sourcePage hlimit hactive.1

theorem pullPeer_sound (hgrows : env.Grows) {s' : Source}
    (h : pullPeer q env t m s = .ok (m', s')) (hs : s.Sound q (env.shard 0 s.id) m d) (habove : Above m d) :
    s'.id = s.id ∧ s'.Sound q (env.shard 0 s.id) m' d ∧ s'.Started ∧ StampsLe m m' ∧ Above m' d := by
  unfold pullPeer at h
  split at h
  case isTrue hidle =>
    cases h
    refine ⟨rfl, hs, fun hactive => ?_, StampsLe.refl _, habove⟩
    simp [hactive] at hidle
  case isFalse hactive =>
    simp only [Bool.not_eq_true', Bool.not_eq_false] at hactive
    split at h
    case isTrue =>
      simp only [bind_eq_ok_iff, pure_eq_ok_iff, Prod.mk.injEq] at h
      obtain ⟨m'', hmerge, rfl, rfl⟩ := h
      obtain ⟨hsound, hle, habove'⟩ := hs.page hactive hgrows.since_start hmerge habove
      exact ⟨rfl, hsound, started_page (by decide), hle, habove'⟩
    case isFalse =>
      cases h
      refine ⟨rfl, ⟨fun key _ hpassed => ?_, fun hactive => ?_⟩, fun hactive => ?_, StampsLe.refl _, habove⟩
      · exact absurd hpassed.1 (by simp)
      · simp [Source.active] at hactive
      · simp [Source.active] at hactive

theorem pullPeers_sound (hgrows : env.Grows) {peers peers' : List Source}
    (h : pullPeers q env t m peers = .ok (m', peers'))
    (hs : ∀ s ∈ peers, s.Sound q (env.shard 0 s.id) m d) (habove : Above m d) :
    peers'.map Source.id = peers.map Source.id ∧
      (∀ s ∈ peers', s.Sound q (env.shard 0 s.id) m' d ∧ s.Started) ∧ StampsLe m m' ∧ Above m' d := by
  induction peers generalizing m peers' with
  | nil =>
    cases h
    exact ⟨rfl, by simp, StampsLe.refl _, habove⟩
  | cons s peers ih =>
    simp only [pullPeers, bind_eq_ok_iff, Prod.exists, pure_eq_ok_iff, Prod.mk.injEq] at h
    obtain ⟨m₁, s', hpull, m₂, rest, hrest, rfl, rfl⟩ := h
    obtain ⟨hid, hsound, hstarted, hle, habove₁⟩ := pullPeer_sound hgrows hpull (hs s (by simp)) habove
    obtain ⟨hids, hsounds, hle', habove₂⟩ := ih hrest
      (fun r hr => (hs r (by simp [hr])).mono hle) habove₁
    refine ⟨by simp [hid, hids], ?_, hle.trans hle', habove₂⟩
    intro r hr
    rcases mem_cons.mp hr with rfl | hr
    · rw [hid]
      exact ⟨hsound.mono hle', hstarted⟩
    · exact hsounds r hr

end Sources

section Rounds

variable {env : ScanEnv} {g g' : Gather Doc}

structure Gather.Sound (q : ScanQuery Doc) (env : ScanEnv) (g : Gather Doc) : Prop where
  sources : ∀ s ∈ g.sources, s.Sound q (env.shard 0 s.id) g.merged g.decided
  own_ok : ∀ s ∈ g.own, s.ok = true
  above : Above g.merged g.decided
  sorted : g.decided.Pairwise (fun a b => a.1 < b.1)

theorem pullLocal_sound (hgrows : env.Grows) (h : pullLocal q env t g = .ok g') (hs : g.Sound q env) :
    g'.Sound q env ∧ g'.peers = g.peers ∧ g'.own.map Source.id = g.own.map Source.id ∧
      (∀ s ∈ g'.own, s.Started) := by
  unfold pullLocal at h
  split at h
  case h_1 hown =>
    cases h
    exact ⟨hs, rfl, rfl, by simp [hown]⟩
  case h_2 s hown =>
    split at h
    case isTrue hdone =>
      cases h
      refine ⟨hs, rfl, rfl, ?_⟩
      rintro r hr hactive
      rw [hown] at hr
      cases hr
      simp [Source.active, hdone] at hactive
    case isFalse hdone =>
      split at h
      case h_1 => cases h
      case h_2 =>
        simp only [bind_eq_ok_iff, pure_eq_ok_iff] at h
        obtain ⟨m, hmerge, rfl⟩ := h
        have hactive : s.active = true := by simp [Source.active, hdone, hs.own_ok s hown]
        have hmem : s ∈ g.sources := by simp [sources, hown]
        obtain ⟨hsound, hle, habove⟩ :=
          (hs.sources s hmem).page hactive hgrows.since_start hmerge hs.above
        refine ⟨⟨?_, ?_, habove, hs.sorted⟩, rfl, by simp [hown, Source.page], ?_⟩
        · intro r hr
          rcases mem_append.mp hr with hr | hr
          · obtain rfl : r = (s.page q.rangeEnd localScanBatchRows (env.shard t s.id)).2 := by
              simpa using hr
            exact hsound
          · exact (hs.sources r (mem_append_right _ hr)).mono hle
        · rintro r ⟨⟩
          exact hs.own_ok s hown
        · rintro r ⟨⟩
          exact started_page (by decide)

theorem finalize_spec {now tail : List (Bytes × Hlc × Option Bytes)}
    (h : finalize q env ttlMs now g = .ok g') (hentries : g.merged.entries = now ++ tail) :
    ∃ taken rest, now = taken ++ rest ∧ g'.merged.entries = rest ++ tail ∧
      g'.decided = g.decided ++ taken ∧ g'.own = g.own ∧ g'.peers = g.peers ∧
        (rest = [] ∨ g'.filled q = true) := by
  induction now generalizing g with
  | nil =>
    cases h
    exact ⟨[], [], rfl, hentries, by simp, rfl, rfl, .inl rfl⟩
  | cons e now ih =>
    obtain ⟨key, hlc, value⟩ := e
    simp only [finalize, bind_eq_ok_iff] at h
    obtain ⟨found, -, h⟩ := h
    have herase : (g.merged.erase key).entries = now ++ tail :=
      g.merged.entries_erase_head hentries
    split at h
    case isTrue hfull =>
      cases h
      simp only [Bool.and_eq_true] at hfull
      exact ⟨[(key, hlc, value)], now, rfl, herase, rfl, rfl, rfl, .inr hfull.2⟩
    case isFalse =>
      obtain ⟨taken, rest, rfl, hmerged, hdecided, hown, hpeers, hend⟩ := ih h herase
      refine ⟨(key, hlc, value) :: taken, rest, rfl, hmerged, ?_, hown, hpeers, hend⟩
      rw [hdecided, append_assoc, singleton_append]

theorem finalized_spec {g : Gather Doc} : ∃ tail, g.merged.entries = g.finalized ++ tail ∧
      (∀ e ∈ g.finalized, ∀ cur ∈ g.frontiers, e.1 ≤ cur) ∧ (g.frontiers = [] → tail = []) := by
  unfold finalized
  cases hmin : g.frontiers.min? with
  | none =>
    have hnil : g.frontiers = [] := min?_eq_none_iff.mp hmin
    exact ⟨[], by simp, by simp [hnil], fun _ => rfl⟩
  | some least =>
    refine ⟨_, g.merged.entries_split, fun e he cur hcur => ?_, fun hnil => ?_⟩
    · have hle : e.1 ≤ least := by simpa using (mem_filter.mp he).2
      exact hle.trans (min?_eq_some_iff.mp hmin |>.2 cur hcur)
    · rw [hnil] at hmin
      cases hmin

-- Everything a source in good standing held when the scan began has been decided, as
-- far as the limit let the scan go.
def Gather.Complete (q : ScanQuery Doc) (env : ScanEnv) (g : Gather Doc) : Prop :=
  ∀ s ∈ g.sources, s.ok = true → ∀ key, q.InRange key →
    (g.filled q = false ∨ ∃ e ∈ g.decided, key ≤ e.1) →
      ∀ v, (env.shard 0 s.id).get? key = some v → ∃ w, (key, w) ∈ g.decided ∧ v.1 ≤ w.1

private theorem mem_frontiers {s : Source} (hs : s ∈ g.sources) (hactive : s.active = true)
    (hcur : cur ∈ s.cursor) : cur ∈ g.frontiers :=
  mem_filterMap.mpr ⟨s, mem_filter.mpr ⟨hs, hactive⟩, hcur⟩

theorem finalize_sound (hs : g.Sound q env) (hstarted : ∀ s ∈ g.sources, s.Started)
    (h : finalize q env ttlMs g.finalized g = .ok g') : g'.Sound q env ∧ g'.sources = g.sources ∧
      (g'.filled q || g.frontiers.isEmpty → g'.Complete q env) := by
  obtain ⟨tail, hentries, hseal, hlast⟩ := finalized_spec
  obtain ⟨taken, rest, hsplit, hmerged, hdecided, hown, hpeers, hend⟩ := finalize_spec h hentries
  have hsources : g'.sources = g.sources := by rw [sources, hown, hpeers, sources]
  have hall : g.merged.entries = taken ++ (rest ++ tail) := by
    rw [hentries, hsplit, append_assoc]
  have hsorted := g.merged.sorted
  rw [hall, pairwise_append] at hsorted
  have habove : Above g'.merged g'.decided := by
    intro e he key w hw
    have hkey : (key, w) ∈ rest ++ tail := hmerged ▸ g'.merged.get?_eq_some_iff.mp hw
    rw [hdecided] at he
    rcases mem_append.mp he with he | he
    · refine hs.above e he key w (g.merged.get?_eq_some_iff.mpr ?_)
      rw [hall]
      exact mem_append_right _ hkey
    · exact hsorted.2.2 e he _ hkey
  have hreached : ∀ key hlc, Reached g.merged g.decided key hlc →
      Reached g'.merged g'.decided key hlc := by
    rintro key hlc (⟨w, hw, hle⟩ | ⟨w, hw, hle⟩)
    · have hmem := g.merged.get?_eq_some_iff.mp hw
      rw [hall, mem_append] at hmem
      rcases hmem with hmem | hmem
      · exact .inr ⟨w, by rw [hdecided]; exact mem_append_right _ hmem, hle⟩
      · exact .inl ⟨w, g'.merged.get?_eq_some_iff.mpr (hmerged ▸ hmem), hle⟩
    · exact .inr ⟨w, by rw [hdecided]; exact mem_append_left _ hw, hle⟩
  have hsound : g'.Sound q env := by
    refine ⟨?_, hown ▸ hs.own_ok, habove, ?_⟩
    · intro s hsmem
      rw [hsources] at hsmem
      have hsource := hs.sources s hsmem
      refine ⟨fun key hin hpassed v hv => hreached key v.1 (hsource.delivered key hin hpassed v hv),
        fun hactive e he => ?_⟩
      rw [hdecided] at he
      rcases mem_append.mp he with he | he
      · exact hsource.ahead hactive e he
      · obtain ⟨cur, hcur⟩ := hstarted s hsmem hactive
        refine ⟨cur, hcur, hseal e ?_ cur (mem_frontiers hsmem hactive hcur)⟩
        rw [hsplit]
        exact mem_append_left _ he
    · rw [hdecided]
      refine pairwise_append.mpr ⟨hs.sorted, hsorted.1, fun e he f hf => ?_⟩
      refine hs.above e he f.1 f.2 (g.merged.get?_eq_some_iff.mpr ?_)
      rw [hall]
      exact mem_append_left _ hf
  refine ⟨hsound, hsources, fun hstop s hsmem hok key hin hfar v hv => ?_⟩
  have hpassed : s.Passed key := by
    refine ⟨hok, ?_⟩
    by_cases hactive : s.active = true
    · rcases hfar with hopen | ⟨e, he, hle⟩
      · -- no source goes on after the last round
        rw [hopen, Bool.false_or, List.isEmpty_iff] at hstop
        rw [hsources] at hsmem
        obtain ⟨cur, hcur⟩ := hstarted s hsmem hactive
        have := mem_frontiers hsmem hactive hcur
        rw [hstop] at this
        cases this
      · obtain ⟨cur, hcur, hle'⟩ := (hsound.sources s hsmem).ahead hactive e he
        exact .inr ⟨cur, hcur, hle.trans hle'⟩
    · exact .inl (by simpa [Source.active, hok] using hactive)
  rcases (hsound.sources s hsmem).delivered key hin hpassed v hv with ⟨w, hw, hle⟩ | hdone
  · rcases hfar with hopen | ⟨e, he, hle'⟩
    · -- the buffer is empty after the last round
      rw [hopen, Bool.false_or, List.isEmpty_iff] at hstop
      have hrest : rest = [] := hend.resolve_right (by simp [hopen])
      have hmem := g'.merged.get?_eq_some_iff.mp hw
      rw [hmerged, hrest, hlast hstop] at hmem
      cases hmem
    · exact absurd hle' (not_le.mpr (habove e he key w hw))
  · exact hdone

theorem scanRound_sound (hgrows : env.Grows) (hs : g.Sound q env)
    (h : scanRound q env ttlMs t g = .ok (g', stop)) :
    g'.Sound q env ∧ g'.sources.map Source.id = g.sources.map Source.id ∧
      (stop = true → g'.Complete q env) := by
  simp only [scanRound, bind_eq_ok_iff, Prod.exists] at h
  obtain ⟨g₁, hlocal, m, peers, hpeers, h⟩ := h
  obtain ⟨hs₁, hsame, hid, hstarted⟩ := pullLocal_sound hgrows hlocal hs
  obtain ⟨hids, hsounds, hle, habove⟩ := pullPeers_sound hgrows hpeers
    (fun s hs => hs₁.sources s (mem_append_right _ hs)) hs₁.above
  have hs₂ : ({ g₁ with merged := m, peers := peers } : Gather Doc).Sound q env := by
    refine ⟨fun s hsmem => ?_, hs₁.own_ok, habove, hs₁.sorted⟩
    rcases mem_append.mp hsmem with hown | hpeer
    · exact (hs₁.sources s (mem_append_left _ hown)).mono hle
    · exact (hsounds s hpeer).1
  have hstarted₂ : ∀ s ∈ ({ g₁ with merged := m, peers := peers } : Gather Doc).sources, s.Started := by
    intro s hsmem
    rcases mem_append.mp hsmem with hown | hpeer
    · exact hstarted s (by simpa using hown)
    · exact (hsounds s hpeer).2
  split at h
  case h_1 => cases h
  case h_2 =>
    simp only [bind_eq_ok_iff, pure_eq_ok_iff, Prod.mk.injEq] at h
    obtain ⟨g₂, hfinal, rfl, rfl⟩ := h
    obtain ⟨hsound, hsources, hcomplete⟩ := finalize_sound hs₂ hstarted₂ hfinal
    refine ⟨hsound, ?_, hcomplete⟩
    rw [hsources, sources, sources, map_append, map_append, hids, hsame]
    simpa [toList_map] using congrArg toList hid

theorem scanLoop_complete (hgrows : env.Grows) (hs : g.Sound q env)
    (h : scanLoop q env ttlMs fuel t g = some (.ok g')) :
    g'.Complete q env ∧ g'.sources.map Source.id = g.sources.map Source.id ∧
      g'.decided.Pairwise (fun a b => a.1 < b.1) := by
  induction fuel generalizing t g with
  | zero => cases h
  | succ fuel ih =>
    rw [scanLoop] at h
    split at h
    case h_1 => cases h
    case h_2 g₁ hround =>
      cases h
      obtain ⟨hs₁, hids, hcomplete⟩ := scanRound_sound hgrows hs hround
      exact ⟨hcomplete rfl, hids, hs₁.sorted⟩
    case h_3 g₁ hround =>
      obtain ⟨hs₁, hids, -⟩ := scanRound_sound hgrows hs hround
      obtain ⟨hcomplete, hids', hsorted⟩ := ih hs₁ h
      exact ⟨hcomplete, hids'.trans hids, hsorted⟩

theorem start_sound {q : ScanQuery Doc} {env : ScanEnv} {own : Option NodeId} {peers : List NodeId} :
    (start q own peers).Sound q env := by
  refine ⟨?_, ?_, ?_, List.Pairwise.nil⟩
  · intro s hs
    have hfresh : s.cursor = q.range.map Prod.fst ∧ s.done = false := by
      simp only [start, sources, List.mem_append, Option.mem_toList,
        Option.map_eq_some_iff, List.mem_map] at hs
      rcases hs with ⟨id, -, rfl⟩ | ⟨id, -, rfl⟩ <;> exact ⟨rfl, rfl⟩
    refine ⟨fun key hin hpassed => ?_, fun _ e he => absurd he (by simp [start])⟩
    rcases hpassed.2 with hdone | ⟨cur, hcur, hle⟩
    · rw [hfresh.2] at hdone
      cases hdone
    · rw [hfresh.1] at hcur
      exact absurd (hin.1 cur hcur) (not_lt.mpr hle)
  · intro s hs
    simp only [start, Option.mem_def, Option.map_eq_some_iff] at hs
    obtain ⟨id, -, rfl⟩ := hs
    rfl
  · intro e he
    cases he

theorem sources_start (q : ScanQuery Doc) (own : Option NodeId) (peers : List NodeId) :
    (start q own peers).sources.map Source.id = own.toList ++ peers := by
  simp only [start, sources, List.map_append, List.map_map]
  congr 1
  · cases own <;> rfl
  · exact List.map_id _

end Rounds

section Answers

variable {env : ScanEnv} {g g' : Gather Doc} {ttlMs : Option Nat}

-- The row that a winning version shows: none if it is expired or a tombstone.
def shownRow (ttlMs : Option Nat) (wall : UInt64) (read : Bytes → Option Doc) (e : Bytes × Hlc × Option Bytes) :
    Option (Bytes × Doc) :=
  if rowExpired ttlMs wall e.2.1 then none else (e.2.2.bind read).map (fun doc => (e.1, doc))

def ScanQuery.read (q : ScanQuery Doc) (bytes : Bytes) : Option Doc :=
  match q.decode bytes with
  | .error _ => none
  | .ok doc =>
    match q.matchesFilter doc with
    | .ok true => some doc
    | _ => none

def ScanQuery.shown (q : ScanQuery Doc) (wall : UInt64) (ttlMs : Option Nat) (e : Bytes × Hlc × Option Bytes) :
    Option (Bytes × Doc) :=
  if q.keep.all (fun keys => e.1 ∈ keys) then shownRow ttlMs wall q.read e else none

-- What the sink gives back of the rows: the first up to the limit, their number, or the first
-- value of the column under each of its encoded keys.
def Found.Answers (f : Found Doc) (sink : CollectSink Doc) (rows : List (Bytes × Doc)) : Prop :=
  match sink with
  | .rows limit => f.rows = limit.elim rows rows.take
  | .count => f.count = rows.length
  | .distinct column => ∀ k, f.distinct.get? k =
      ((rows.filterMap (fun r => column r.2)).find? (fun e => e.1 = k)).map Prod.snd

theorem serveWinner_ok {f f' : Found Doc} (h : serveWinner q env ttlMs f key hlc value = .ok f') :
    f' = (q.shown env.wall ttlMs (key, hlc, value)).elim f (fun r => f.collect q.sink r.1 r.2) := by
  unfold serveWinner at h
  unfold ScanQuery.shown shownRow
  split_ifs at h with hexpired hkeep
  · cases h
    simp [hexpired]
  · cases h
    have hnone : q.keep.all (fun keys => key ∈ keys) = false := by
      cases hk : q.keep <;> simp_all
    simp [hnone]
  · have hall : q.keep.all (fun keys => key ∈ keys) = true := by
      cases hk : q.keep <;> simp_all
    cases value with
    | none =>
      cases h
      simp
    | some bytes =>
      simp only [bind_eq_ok_iff, pure_eq_ok_iff] at h
      obtain ⟨doc, hdoc, hit, hhit, rfl⟩ := h
      cases hit <;> simp [hall, hexpired, ScanQuery.read, hdoc, hhit]

def Gather.Collected (q : ScanQuery Doc) (wall : UInt64) (ttlMs : Option Nat) (g : Gather Doc) : Prop :=
  g.found = (g.decided.filterMap (q.shown wall ttlMs)).foldl (fun f r => f.collect q.sink r.1 r.2) ⟨[], 0, empty⟩

theorem finalize_collected {now : List (Bytes × Hlc × Option Bytes)}
    (h : finalize q env ttlMs now g = .ok g') (hg : g.Collected q env.wall ttlMs) : g'.Collected q env.wall ttlMs := by
  induction now generalizing g with
  | nil =>
    cases h
    exact hg
  | cons e now ih =>
    obtain ⟨key, hlc, value⟩ := e
    simp only [finalize, bind_eq_ok_iff] at h
    obtain ⟨found, hserve, h⟩ := h
    have hnext : found = ((g.decided ++ [(key, hlc, value)]).filterMap (q.shown env.wall ttlMs)).foldl
        (fun f r => f.collect q.sink r.1 r.2) ⟨[], 0, empty⟩ := by
      rw [serveWinner_ok hserve, filterMap_append, foldl_append, ← hg]
      cases hrow : q.shown env.wall ttlMs (key, hlc, value) <;> simp [hrow]
    split at h
    · cases h
      exact hnext
    · exact ih h hnext

theorem pullLocal_found (h : pullLocal q env t g = .ok g') : g'.found = g.found ∧ g'.decided = g.decided := by
  unfold pullLocal at h
  split at h
  · cases h
    exact ⟨rfl, rfl⟩
  · split_ifs at h
    · cases h
      exact ⟨rfl, rfl⟩
    · split at h
      · cases h
      · obtain ⟨merged, -, h⟩ := bind_eq_ok_iff.mp h
        cases h
        exact ⟨rfl, rfl⟩

theorem scanLoop_collected (h : scanLoop q env ttlMs fuel t g = some (.ok g'))
    (hg : g.Collected q env.wall ttlMs) : g'.Collected q env.wall ttlMs := by
  have hround : ∀ {t stop} {g g' : Gather Doc}, scanRound q env ttlMs t g = .ok (g', stop) →
      g.Collected q env.wall ttlMs → g'.Collected q env.wall ttlMs := by
    intro t stop g g' h hg
    simp only [scanRound, bind_eq_ok_iff, Prod.exists] at h
    obtain ⟨g₁, hlocal, m, peers, -, h⟩ := h
    obtain ⟨hfound, hdecided⟩ := pullLocal_found hlocal
    split at h
    · cases h
    · obtain ⟨g₂, hfinal, h⟩ := bind_eq_ok_iff.mp h
      cases h
      refine finalize_collected hfinal ?_
      rw [Gather.Collected, hfound, hdecided]
      exact hg
  induction fuel generalizing t g with
  | zero => cases h
  | succ fuel ih =>
    rw [scanLoop] at h
    split at h
    case h_1 => cases h
    case h_2 hr =>
      cases h
      exact hround hr hg
    case h_3 hr => exact ih h (hround hr hg)

theorem collected_answers (sink : CollectSink Doc) (rows : List (Bytes × Doc)) (f : Found Doc) :
    match sink with
    | .rows _ => (rows.foldl (fun f r => f.collect sink r.1 r.2) f).rows = f.rows ++ rows
    | .count => (rows.foldl (fun f r => f.collect sink r.1 r.2) f).count = f.count + rows.length
    | .distinct column => ∀ k, (rows.foldl (fun f r => f.collect sink r.1 r.2) f).distinct.get? k =
        (f.distinct.get? k).or (((rows.filterMap (fun r => column r.2)).find? (fun e => e.1 = k)).map Prod.snd) := by
  induction rows generalizing f with
  | nil => cases sink <;> simp
  | cons r rows ih =>
    have hrest := ih (f.collect sink r.1 r.2)
    cases sink with
    | rows limit => simpa [Found.collect] using hrest
    | count =>
      simp only [Found.collect, foldl_cons, length_cons] at hrest ⊢
      omega
    | distinct column =>
      intro k
      rw [foldl_cons, hrest k]
      cases hcol : column r.2 with
      | none => simp [Found.collect, hcol]
      | some e =>
        by_cases hk : k = e.1
        · subst hk
          cases hheld : f.distinct.get? e.1 <;> simp [Found.collect, hcol, hheld]
        · have hsame : (f.collect (.distinct column) r.1 r.2).distinct.get? k = f.distinct.get? k := by
            simp only [Found.collect, hcol]
            split_ifs <;> simp [hk]
          simp [hsame, hcol, Ne.symm hk]

end Answers

variable {replicas : List NodeId} {c : Copies}

section Quorums

variable {n : Node} {topo : List Peer} {placement : TablePlacement} {oc : Option Consistency} {env : ScanEnv}
  {out : ScanOutcome Doc}

def Node.scanned (n : Node) (topo : List Peer) (placement : TablePlacement) : List NodeId :=
  (if (n.scanSources topo placement).1 then [n.id] else []) ++ (n.scanSources topo placement).2.1

def ScanOutcome.Covers (q : ScanQuery Doc) (out : ScanOutcome Doc) (key : Bytes) : Prop :=
  (∀ l ∈ q.sink.limit, out.found.rows.length < l) ∨ ∃ e ∈ out.decided, key ≤ e.1

def ScanOutcome.Answers (out : ScanOutcome Doc) (q : ScanQuery Doc) (wall : UInt64) (ttlMs : Option Nat) : Prop :=
  out.found.Answers q.sink (out.decided.filterMap (q.shown wall ttlMs))

theorem Node.clusterScanCollect_answers
    (h : n.clusterScanCollect topo placement oc q env fuel = some (.ok out)) : out.Answers q env.wall n.ttlMs := by
  simp only [Node.clusterScanCollect, map_eq_some_iff] at h
  obtain ⟨result, hloop, h⟩ := h
  obtain ⟨g, rfl, hanswer⟩ := bind_eq_ok_iff.mp h
  split at hanswer
  case isTrue => cases hanswer
  case isFalse =>
    rw [pure_eq_ok_iff] at hanswer
    subst hanswer
    have hg : g.found = _ := scanLoop_collected hloop rfl
    have hall := collected_answers q.sink (g.decided.filterMap (q.shown env.wall n.ttlMs)) ⟨[], 0, empty⟩
    unfold ScanOutcome.Answers Found.Answers
    cases hsink : q.sink with
    | rows limit =>
      simp only [hsink] at hg hall
      rw [← hg, nil_append] at hall
      simp [hall, CollectSink.limit]
    | count | distinct column =>
      simp only [hsink] at hg hall
      rw [← hg] at hall
      simpa using hall

theorem Node.clusterScanCollect_ok (hgrows : env.Grows)
    (h : n.clusterScanCollect topo placement oc q env fuel = some (.ok out)) :
    out.decided.Pairwise (fun a b => a.1 < b.1) ∧
    ∃ heard : List NodeId, heard.Sublist (n.scanned topo placement) ∧
      (oc.getD n.readConsistency).required (n.scanSources topo placement).2.2 ≤ heard.length ∧
      ∀ node ∈ heard, ∀ key, q.InRange key → out.Covers q key →
        ∀ v, (env.shard 0 node).get? key = some v → ∃ w, (key, w) ∈ out.decided ∧ v.1 ≤ w.1 := by
  simp only [Node.clusterScanCollect, map_eq_some_iff] at h
  obtain ⟨result, hloop, h⟩ := h
  obtain ⟨g, hg, hanswer⟩ := bind_eq_ok_iff.mp h
  subst hg
  split at hanswer
  case isTrue => cases hanswer
  case isFalse hquorum =>
    rw [pure_eq_ok_iff] at hanswer
    subst hanswer
    obtain ⟨hcomplete, hids, hsorted⟩ := scanLoop_complete hgrows start_sound hloop
    refine ⟨hsorted, g.responders, ?_, not_lt.mp hquorum, ?_⟩
    · have hsub : g.responders.Sublist (g.sources.map Source.id) := filter_sublist.map _
      rw [hids, sources_start] at hsub
      unfold Node.scanned
      cases hactive : (n.scanSources topo placement).1 <;> simpa [hactive] using hsub
    · intro node hnode key hin hcovers v hv
      obtain ⟨s, hs, rfl⟩ := mem_map.mp hnode
      obtain ⟨hs, hok⟩ := mem_filter.mp hs
      refine hcomplete s hs hok key hin (hcovers.imp_left fun hopen => ?_) v hv
      cases hlimit : q.sink.limit with
      | none => simp [filled, hlimit]
      | some l =>
        have hlt := hopen l hlimit
        simp only [hlimit, elim_some, length_take] at hlt
        simp only [filled, hlimit, any_some, decide_eq_false_iff_not, not_le]
        omega

def ScanEnv.After (env : ScanEnv) (c : Copies) (key : Bytes) : Prop :=
  ∀ node, ∀ u ∈ c.applied node, ∃ e, (env.shard 0 node).get? key = some e ∧ u.1 ≤ e.1

-- The replica set of a key: the pins of a pinned table, or some of the members.
def Placed (placement : TablePlacement) (members replicas : List NodeId) : Prop :=
  match placement with
  | .pinned pins => replicas.Perm pins
  | _ => replicas.Subperm members ∧ replicas.Nodup ∧ replicas ≠ []

-- A scan that returns has, for every key it covers, a version at least as new as every write
-- acknowledged at QUORUM before it, and answers from the versions it has.
def ScansSeeWrites (placement : TablePlacement) (members replicas : List NodeId) : Prop :=
  ∀ (Doc : Type) (w r : Node) (topo : List Peer) (c : Copies) (v : Version) (we : WriteEnv)
    (q : ScanQuery Doc) (env : ScanEnv) (fuel : Nat) (out : ScanOutcome Doc) (key : Bytes),
    w.id ∈ members → (r.id :: topo.map Prod.fst).Perm members →
    (w.replicate c replicas (some .quorum) v we).result = .ok () →
    env.Grows → env.After (w.replicate c replicas (some .quorum) v we).copies key →
    r.clusterScanCollect topo placement (some .quorum) q env fuel = some (.ok out) →
    q.InRange key → out.Covers q key →
      (∃ b, (key, b) ∈ out.decided ∧ v.1 ≤ b.1) ∧ out.Answers q env.wall r.ttlMs

def Overlap (placement : TablePlacement) (members replicas : List NodeId) : Prop :=
  match placement with
  | .pinned _ => True
  | _ => members.length <
      Consistency.quorum.required members.length + Consistency.quorum.required replicas.length

theorem quorum_overlap (n : Nat) : n < quorum.required n + quorum.required n := by
  simp only [required]
  omega

theorem sees_of_overlap {nodes : List NodeId} {w : Node} (hreplicas : replicas.Subperm nodes)
    (hscanned : (n.scanned topo placement).Subperm nodes)
    (hover : nodes.length < quorum.required (n.scanSources topo placement).2.2 + quorum.required replicas.length)
    (hwrite : (w.replicate c replicas (some .quorum) v we).result = .ok ()) (hgrows : env.Grows)
    (hafter : env.After (w.replicate c replicas (some .quorum) v we).copies key)
    (hscan : n.clusterScanCollect topo placement (some .quorum) q env fuel = some (.ok out))
    (hin : q.InRange key) (hcovers : out.Covers q key) :
    (∃ b, (key, b) ∈ out.decided ∧ v.1 ≤ b.1) ∧ out.Answers q env.wall n.ttlMs := by
  obtain ⟨holders, hholders, hW, hholds⟩ := Node.replicate_ok hwrite
  obtain ⟨-, heard, hheard, hR, hsees⟩ := Node.clusterScanCollect_ok hgrows hscan
  rw [getD_some, required_max_one] at hW
  rw [getD_some] at hR
  obtain ⟨node, hheld, hin'⟩ := exists_mem_of_subperm_of_length_lt (hholders.trans hreplicas)
    (hheard.subperm.trans hscanned) (by omega)
  obtain ⟨e, he, hle⟩ := hafter node v (hholds node hheld)
  obtain ⟨b, hb, hle'⟩ := hsees node hin' key hin hcovers e he
  exact ⟨⟨b, hb, hle.trans hle'⟩, Node.clusterScanCollect_answers hscan⟩

theorem scans_see_of_overlap (hplaced : Placed placement members replicas)
    (hover : Overlap placement members replicas) : ScansSeeWrites placement members replicas := by
  intro Doc w r topo c v we q env fuel out key _ hperm hwrite hgrows hafter hscan hin hcovers
  have hlen : topo.length + 1 = members.length := by simpa using hperm.length_eq
  cases placement with
  | pinned pins =>
    have hreplicas : replicas.Perm pins := hplaced
    refine sees_of_overlap hreplicas.subperm ?_ ?_ hwrite hgrows hafter hscan hin hcovers
    · have hsub : ((if r.id ∈ pins then [r.id] else []) ++ (r.peersOf pins).map Prod.fst).Subperm pins :=
        append_subperm_of_sublist_filter (by split <;> simp) (by split <;> simp_all)
          r.peersOf_sublist
      simpa [Node.scanned, Node.scanSources] using hsub
    · rw [hreplicas.length_eq]
      exact quorum_overlap pins.length
  | _ =>
    have hscanned : (r.id :: topo.map Prod.fst).Subperm members := hperm.subperm
    refine sees_of_overlap hplaced.1 (by simpa [Node.scanned, Node.scanSources] using hscanned) ?_
      hwrite hgrows hafter hscan hin hcovers
    simp only [Node.scanSources, hlen]
    exact hover

end Quorums

-- A run that shows when the two majorities can miss each other: the first replicas take
-- the write, and none of them answers the scan.
section Missed

def allAck : WriteEnv :=
  { shedding := false
    landed := []
    applyError := none
    syncOk := true
    call := fun _ => ⟨[], .ack⟩
    queueFull := false }

theorem of_mem_sendWave (c : Copies) (wave : List (Peer × Nat))
    (h : u ∈ (sendWave v allAck.call c wave).1.applied node) :
    u ∈ c.applied node ∨ u = v ∧ node ∈ ids wave := by
  induction wave generalizing c with
  | nil => exact .inl h
  | cons p wave ih =>
    obtain ⟨⟨peer, addr⟩, i⟩ := p
    rcases ih _ h with hone | ⟨rfl, hnode⟩
    · simp only [sendWrite, allAck, Copies.land, foldl_nil, Copies.apply] at hone
      by_cases hpeer : node = peer
      · subst hpeer
        simp only [Function.update_self, mem_cons] at hone
        rcases hone with rfl | hold
        · exact .inr ⟨rfl, by simp [ids]⟩
        · exact .inl hold
      · exact .inl (by simpa [hpeer] using hone)
    · exact .inr ⟨rfl, by simp only [ids, map_cons]; exact mem_cons_of_mem _ hnode⟩

theorem acks_sendWave (f : Fanout) (c : Copies) (wave : List (Peer × Nat)) :
    (f.collect (sendWave v allAck.call c wave).2).acks = f.acks + wave.length := by
  induction wave generalizing f c with
  | nil => rfl
  | cons p wave ih =>
    simp only [sendWave, sendWrite, allAck, Fanout.collect]
    rw [length_cons, ← Nat.add_assoc, Nat.add_right_comm]
    exact ih _ _

theorem retryWaves_of_le {f : Fanout} (h : needed ≤ f.acks) :
    retryWaves needed v call fuel c f untried = (c, f, untried) := by
  cases fuel with
  | zero => rfl
  | succ fuel => rw [retryWaves, if_neg (fun hgo => absurd hgo.1 (not_lt.mpr h))]

theorem peersOf_quorumNode {a : NodeId} {rest : List NodeId} (hnodup : (a :: rest).Nodup) :
    (quorumNode a.name).peersOf (a :: rest) = rest.map (fun r => (r, r.name)) := by
  have ha : a ∉ rest := (nodup_cons.mp hnodup).1
  have hfilter : (a :: rest).filter (fun r => r ≠ (quorumNode a.name).id) = rest := by
    rw [filter_cons_of_neg (by simp [quorumNode])]
    exact filter_eq_self.mpr (fun r hr => decide_eq_true (fun heq : r = a => ha (heq ▸ hr)))
  rw [Node.peersOf, hfilter]
  exact filterMap_eq_map_iff_forall_eq_some.mpr (fun r _ => rfl)

theorem fanOut_allAck {peers : List (Peer × Nat)} (hpos : 0 < needed) (hle : needed ≤ peers.length + 1) :
    (fanOut needed true peers c v allAck).result = .ok () ∧ (fanOut needed true peers c v allAck).copies =
        (sendWave v allAck.call c (peers.take (needed - 1))).1 := by
  have hfirst : firstCount needed true peers = needed - 1 := by
    simp only [firstCount, if_true]
    omega
  have hacks := acks_sendWave (v := v) ⟨1, [], []⟩ c (peers.take (needed - 1))
  rw [length_take, min_eq_left (by omega)] at hacks
  have hmet : needed ≤ (Fanout.collect ⟨1, [], []⟩
      (sendWave v allAck.call c (peers.take (needed - 1))).2).acks := by
    rw [hacks]
    dsimp only
    omega
  have hfan : fanOut needed true peers c v allAck =
      ⟨(sendWave v allAck.call c (peers.take (needed - 1))).1,
        Fanout.collect ⟨1, [], []⟩ (sendWave v allAck.call c (peers.take (needed - 1))).2,
        (peers.drop (needed - 1)).map (fun p => p.1.1),
        writeResult needed (Fanout.collect ⟨1, [], []⟩
          (sendWave v allAck.call c (peers.take (needed - 1))).2).acks⟩ := by
    unfold fanOut
    rw [hfirst]
    dsimp only
    rw [show (if (true && allAck.syncOk) = true then 1 else 0) = 1 from rfl, retryWaves_of_le hmet]
    rfl
  rw [hfan]
  exact ⟨if_pos hmet, rfl⟩

theorem replicate_allAck {a : NodeId} (hnodup : (a :: rest).Nodup) :
    (((quorumNode a.name).replicate ⟨fun _ => []⟩ (a :: rest) (some .quorum) v allAck).result = .ok ()) ∧
      ∀ node, ∀ u ∈ ((quorumNode a.name).replicate ⟨fun _ => []⟩ (a :: rest) (some .quorum) v
        allAck).copies.applied node, u = v ∧ node ∈ (a :: rest).take (quorum.required (a :: rest).length) := by
  have hneeded : quorum.required (max (a :: rest).length 1) = rest.length.succ / 2 + 1 := by
    simp [required]
  have hrun : (quorumNode a.name).replicate ⟨fun _ => []⟩ (a :: rest) (some .quorum) v allAck =
      fanOut (rest.length.succ / 2 + 1) true (rest.map (fun r => (r, r.name))).zipIdx
        (Copies.apply ⟨fun _ => []⟩ a v) v allAck := by
    unfold Node.replicate
    rw [if_neg (by simp [allAck]), if_pos (by simp [quorumNode]), peersOf_quorumNode hnodup,
      getD_some, hneeded]
    rfl
  have hlen : (rest.map (fun r => (r, r.name))).zipIdx.length = rest.length := by simp
  obtain ⟨hok, hcopies⟩ := fanOut_allAck
    (Nat.succ_pos (rest.length.succ / 2))
    (by rw [hlen]; omega : _ ≤ (rest.map (fun r => (r, r.name))).zipIdx.length + 1)
  have htake : (a :: rest).take (quorum.required (a :: rest).length) =
      a :: rest.take (rest.length.succ / 2) := by
    simp [required]
  rw [hrun, htake]
  refine ⟨hok, fun node u hu => ?_⟩
  rw [hcopies] at hu
  rcases of_mem_sendWave _ _ hu with hown | ⟨rfl, hnode⟩
  · by_cases hnode : node = a
    · subst hnode
      have hu : u = v := by simpa [Copies.apply] using hown
      exact ⟨hu, mem_cons_self⟩
    · simp [Copies.apply, hnode] at hown
  · refine ⟨rfl, mem_cons_of_mem a ?_⟩
    rw [ids, List.map_take, ← ids, ids_zipIdx, List.map_map] at hnode
    simpa [Function.comp_def] using hnode

def missingScan (holders : List NodeId) (key : Bytes) (v : Version) : ScanEnv :=
  { shard := fun _ node => if node ∈ holders then OrdMap.empty.insert key v else OrdMap.empty
    reply := fun _ node => decide (node ∉ holders)
    localError := fun _ => none
    overBudget := fun _ => none
    wall := 0 }

def wholeTable : ScanQuery Unit :=
  { range := none
    keep := none
    sink := .rows none
    prune := fun bytes => .ok bytes
    decode := fun _ => .ok ()
    matchesFilter := fun _ => .ok true }

theorem page_empty (hlimit : 0 < limit) {s : Source} :
    s.page finish limit empty = ([], { s with done := true }) := by
  have hclamp : (clamp finish []).1 = [] := by cases finish <;> rfl
  simp [Source.page, page, OrdMap.empty, hclamp, hlimit]

theorem pullPeers_missing {peers : List NodeId} : pullPeers wholeTable (missingScan holders key v) t m
        (peers.map (fun id => ⟨id, none, false, true⟩)) =
      .ok (m, peers.map (fun id => ⟨id, none, true, decide (id ∉ holders)⟩)) := by
  induction peers with
  | nil => rfl
  | cons id peers ih =>
    have hone : pullPeer wholeTable (missingScan holders key v) t m ⟨id, none, false, true⟩ =
        .ok (m, ⟨id, none, true, decide (id ∉ holders)⟩) := by
      unfold pullPeer
      by_cases hid : id ∈ holders
      · simp [Source.active, missingScan, hid]
      · have hpage : Source.page wholeTable.rangeEnd scanPageRows OrdMap.empty ⟨id, none, false, true⟩ =
            ([], ⟨id, none, true, true⟩) := page_empty (by decide)
        simp only [Source.active, Bool.not_false, Bool.and_self, Bool.not_true, Bool.false_eq_true,
          if_false, missingScan, hid, not_false_eq_true, decide_true, if_true, hpage, mergeRows]
        rfl
    rw [map_cons, map_cons, pullPeers, hone]
    simp only [bind, Except.bind, ih]
    rfl

def missedEnd (holders : List NodeId) (r : NodeId) (peers : List NodeId) : Gather Unit :=
  { Gather.start wholeTable (some r) peers with
    own := some ⟨r, none, true, true⟩
    peers := peers.map (fun id => ⟨id, none, true, decide (id ∉ holders)⟩) }

theorem frontiers_missedEnd (r : NodeId) (peers : List NodeId) :
    (missedEnd holders r peers).frontiers = [] := by
  have hidle : ∀ s ∈ (missedEnd holders r peers).sources, ¬ s.active = true := by
    intro s hs
    simp only [missedEnd, sources, toList_some, singleton_append, mem_cons,
      List.mem_map] at hs
    rcases hs with rfl | ⟨id, -, rfl⟩ <;> simp [Source.active]
  rw [frontiers, List.filter_eq_nil_iff.mpr hidle, List.filterMap_nil]

variable {r : NodeId}

theorem responders_missedEnd (hr : r ∉ holders) (peers : List NodeId) :
    (missedEnd holders r peers).responders = (r :: peers).filter (fun id => id ∉ holders) := by
  rw [filter_cons_of_pos (by simpa using hr)]
  simp only [missedEnd, responders, sources, toList_some,
    List.singleton_append, List.filter_cons_of_pos, List.map_cons, List.filter_map, List.map_map]
  congr 1
  exact List.map_id _

theorem scanRound_of_steps {Doc : Type} {q : ScanQuery Doc} {env : ScanEnv} {ttlMs : Option Nat}
    {t : Nat} {g own g' : Gather Doc} {merged : Merged} {peers : List Source}
    (hlocal : pullLocal q env t g = .ok own)
    (hpull : pullPeers q env t own.merged own.peers = .ok (merged, peers)) (hbudget : env.overBudget t = none)
    (hserved : finalize q env ttlMs { own with merged, peers }.finalized { own with merged, peers } =
      .ok g') : scanRound q env ttlMs t g =
      .ok (g', g'.filled q || ({ own with merged, peers } : Gather Doc).frontiers.isEmpty) := by
  simp only [scanRound, hlocal, bind, Except.bind, hpull, hbudget, hserved]
  rfl

theorem scanRound_missing {peers : List NodeId} (hr : r ∉ holders) :
    scanRound wholeTable (missingScan holders key v) none 0
      (start wholeTable (some r) peers) = .ok (missedEnd holders r peers, true) := by
  have hlocal : pullLocal wholeTable (missingScan holders key v) 0
      (start wholeTable (some r) peers) =
      .ok { start wholeTable (some r) peers with own := some ⟨r, none, true, true⟩ } := by
    have hpage : Source.page wholeTable.rangeEnd localScanBatchRows OrdMap.empty ⟨r, none, false, true⟩ =
        ([], ⟨r, none, true, true⟩) := page_empty (by decide)
    simp only [pullLocal, start, map_some, wholeTable, map_none, missingScan, hr,
      if_false, Bool.false_eq_true] at hpage ⊢
    rfl
  have hpull : pullPeers wholeTable (missingScan holders key v) 0
      (start wholeTable (some r) peers).merged
      (start wholeTable (some r) peers).peers = _ := pullPeers_missing
  have hfinal : (missedEnd holders r peers).finalized = [] := by
    rw [finalized, frontiers_missedEnd]
    rfl
  have hserved : finalize wholeTable (missingScan holders key v) none
      (missedEnd holders r peers).finalized (missedEnd holders r peers) =
      .ok (missedEnd holders r peers) := by
    rw [hfinal, finalize]
  have hlast : (missedEnd holders r peers).frontiers.isEmpty = true := by
    rw [frontiers_missedEnd, isEmpty_nil]
  have hround := scanRound_of_steps hlocal hpull rfl hserved
  rw [hround]
  exact congrArg _ (congrArg _ ((congrArg _ hlast).trans (Bool.or_true _)))

theorem scan_missing {peers : List NodeId} (hr : r ∉ holders)
    (hquorum : quorum.required (peers.length + 1) ≤ ((r :: peers).filter (fun id => id ∉ holders)).length)
    (hring : ∀ pins, placement ≠ .pinned pins) :
    ∃ out, (quorumNode r.name).clusterScanCollect (peers.map (fun id => (id, id.name))) placement
      (some .quorum) wholeTable (missingScan holders key v) 1 = some (.ok out) ∧ out.decided = [] := by
  have hloop : scanLoop wholeTable (missingScan holders key v) (quorumNode r.name).ttlMs 1 0
      (start wholeTable (some r) peers) = some (.ok (missedEnd holders r peers)) := by
    have hround : scanRound wholeTable (missingScan holders key v) (quorumNode r.name).ttlMs 0
        (start wholeTable (some r) peers) = _ := scanRound_missing hr
    rw [scanLoop, hround]
  have hsources : (quorumNode r.name).scanSources (peers.map (fun id => (id, id.name))) placement =
      (true, peers, peers.length + 1) := by
    cases placement with
    | pinned pins => exact absurd rfl (hring pins)
    | _ => simp [Node.scanSources, Function.comp_def]
  have henough : ¬ (missedEnd holders r peers).responders.length <
      quorum.required (peers.length + 1) := by
    rw [responders_missedEnd hr]
    exact Nat.not_lt.mpr hquorum
  have hloop' : scanLoop wholeTable (missingScan holders key v) (quorumNode r.name).ttlMs 1 0
      (start wholeTable (if true = true then some (quorumNode r.name).id else none) peers) =
      some (.ok (missedEnd holders r peers)) := hloop
  refine ⟨{ decided := [], found := ⟨[], 0, OrdMap.empty⟩, clock := HlcClock.new }, ?_, rfl⟩
  unfold Node.clusterScanCollect
  rw [hsources]
  dsimp only
  rw [hloop', map_some, getD_some]
  simp only [bind, Except.bind, if_neg henough]
  rfl

-- A majority of the replicas that leaves a majority of the members can be missed.
theorem missed_of_no_overlap {members : List NodeId} (hmembers : members.Nodup)
    (hreplicas : replicas.Subperm members) (hnodup : replicas.Nodup) (hne : replicas ≠ [])
    (hring : ∀ pins, placement ≠ .pinned pins) (hroom : quorum.required members.length +
      quorum.required replicas.length ≤ members.length) : ¬ ScansSeeWrites placement members replicas := by
  intro hsees
  obtain ⟨a, rest, rfl⟩ := exists_cons_of_ne_nil hne
  have ha : a ∈ members := hreplicas.subset mem_cons_self
  obtain ⟨hok, hcopies⟩ := replicate_allAck hnodup
  generalize hholders : (a :: rest).take (quorum.required (a :: rest).length) = holders
    at hcopies
  -- The members outside the acking replicas are a majority of all.
  have hheld : (members.filter (fun id => id ∈ holders)).length ≤
      quorum.required (a :: rest).length := by
    have hsub : (members.filter (fun id => id ∈ holders)).Subperm holders :=
      (hmembers.filter _).subperm (fun id hid => by simpa using (mem_filter.mp hid).2)
    calc (members.filter (fun id => id ∈ holders)).length
        ≤ holders.length := hsub.length_le
      _ ≤ quorum.required (a :: rest).length := by
          rw [← hholders, length_take]
          exact Nat.min_le_left _ _
  have houtside : quorum.required members.length ≤
      (members.filter (fun id => id ∉ holders)).length := by
    have hsplit := members.length_eq_length_filter_add (fun id => decide (id ∈ holders))
    simp only [← decide_not] at hsplit
    omega
  obtain ⟨r, hr⟩ : ∃ r, r ∈ members.filter (fun id => id ∉ holders) :=
    exists_mem_of_length_pos (lt_of_lt_of_le (Nat.succ_pos _) houtside)
  obtain ⟨hrm, hrh⟩ := mem_filter.mp hr
  have hperm : (r :: members.erase r).Perm members := (perm_cons_erase hrm).symm
  have hquorum : quorum.required ((members.erase r).length + 1) ≤
      ((r :: members.erase r).filter (fun id => id ∉ holders)).length := by
    have hlen : (members.erase r).length + 1 = members.length := by simpa using hperm.length_eq
    rw [hlen, (hperm.filter _).length_eq]
    exact houtside
  have hscan : ∃ out, (quorumNode r.name).clusterScanCollect _ placement (some .quorum) wholeTable
      (missingScan holders [] (⟨0, 0⟩, .put [])) 1 = some (.ok out) ∧ out.decided = [] :=
    scan_missing (by simpa using hrh) hquorum hring
  obtain ⟨out, hscan, hout⟩ := hscan
  have hafter : (missingScan holders [] (⟨0, 0⟩, .put [])).After ((quorumNode a.name).replicate
      ⟨fun _ => []⟩ (a :: rest) (some .quorum) (⟨0, 0⟩, .put []) allAck).copies [] := by
    intro node u hu
    obtain ⟨rfl, hnode⟩ := hcopies node u hu
    exact ⟨(⟨0, 0⟩, .put []), by simp [missingScan, hnode], le_refl _⟩
  obtain ⟨⟨b, hb, -⟩, -⟩ := hsees Unit (quorumNode a.name) (quorumNode r.name) _ _ _ allAck wholeTable _ 1 out []
    ha (by simpa [Function.comp_def, quorumNode] using hperm) hok (fun t node => StampsLe.refl _) hafter
    hscan ⟨by simp [wholeTable], by simp [wholeTable, ScanQuery.rangeEnd]⟩
    (Or.inl (by simp [wholeTable, CollectSink.limit]))
  rw [hout] at hb
  exact not_mem_nil hb

theorem scans_see_writes_iff {members replicas : List NodeId} (hmembers : members.Nodup)
    (hplaced : Placed placement members replicas) :
    ScansSeeWrites placement members replicas ↔ Overlap placement members replicas := by
  refine ⟨fun hsees => ?_, scans_see_of_overlap hplaced⟩
  by_contra hover
  cases placement with
  | pinned pins => exact hover trivial
  | _ =>
    obtain ⟨hreplicas, hnodup, hne⟩ := hplaced
    exact missed_of_no_overlap hmembers hreplicas hnodup hne (by simp) (Nat.not_lt.mp hover) hsees

def fiveMembers : List NodeId := [⟨"n0"⟩, ⟨"n1"⟩, ⟨"n2"⟩, ⟨"n3"⟩, ⟨"n4"⟩]

theorem scans_see_writes_everywhere : fiveMembers.Nodup ∧ Placed .default fiveMembers fiveMembers ∧
      ScansSeeWrites .default fiveMembers fiveMembers :=
  have hplaced : Placed .default fiveMembers fiveMembers :=
    ⟨Subperm.refl _, by decide, by decide⟩
  have hover : Overlap .default fiveMembers fiveMembers := quorum_overlap 5
  ⟨by decide, hplaced, (scans_see_writes_iff (by decide) hplaced).mpr hover⟩

-- Three replicas among five members: n0 and n1 ack, and a scan hears n2, n3 and n4.
theorem scan_misses_acked_write : Placed (.rf 3) fiveMembers (fiveMembers.take 3) ∧
      ¬ ScansSeeWrites (.rf 3) fiveMembers (fiveMembers.take 3) :=
  ⟨⟨(take_sublist 3 _).subperm, by decide, by decide⟩,
    missed_of_no_overlap (by decide) (take_sublist 3 _).subperm (by decide) (by decide) (by simp)
      (by decide)⟩

end Missed

end Skaidb.Cluster
