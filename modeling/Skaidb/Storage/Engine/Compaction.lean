import Mathlib.Data.List.Nodup
import Skaidb.Base.Rework
import Skaidb.Storage.Engine

namespace Skaidb.Storage

open Skaidb.Base List SsTable

def Memtable.layer (m : Memtable) : Layer Bytes Hlc VersionValue := m.getEntryVersioned

def SsTable.layer (t : SsTable) : Layer Bytes Hlc VersionValue := t.get

def Tombstone (v : Version) : Prop := v.2 = .delete

def SsTable.IsBlank (t : SsTable) : Prop := Blank t.layer

def tableLayers (tables : List SsTable) : List (Layer Bytes Hlc VersionValue) :=
  tables.map SsTable.layer

@[simp] theorem tableLayers_append : tableLayers (xs ++ ys) = tableLayers xs ++ tableLayers ys := map_append

@[simp] theorem tableLayers_cons {t : SsTable} : tableLayers (t :: ts) = t.layer :: tableLayers ts := rfl

-- `out` is a merge of `sources`: it thins their newest versions, and is exactly
-- them unless the merge was told that nothing lies below.
structure MergeOf (sources : List SsTable) (deepest : Bool) (out : SsTable) : Prop where
  thins : Thins Tombstone (newest (tableLayers sources)) out.layer
  exact_of_not_deepest : deepest = false → out.layer = newest (tableLayers sources)

theorem get_mergeWrite (path : Nat) (sources : List SsTable) (drop : Bool)
    (expireBefore : Option Nat) (keepAfter : Nat) (key : Bytes) :
    (mergeWrite path sources drop expireBefore keepAfter).get key = (newest (tableLayers sources) key).filter
        (fun v => retained drop expireBefore keepAfter (key, v)) := by
  have hspec := KWayMerge.run_spec (sources.map (fun t => t.entries.entries)) (by
    intro items hi
    obtain ⟨t, -, rfl⟩ := mem_map.mp hi
    exact t.entries.sorted)
  have hlookup : OrdMap.lookup (mergeSources (sources.map (fun t => t.entries.entries))) key =
      newest (tableLayers sources) key := by
    unfold mergeSources
    rw [hspec.2 key, map_map]
    rfl
  rw [← hlookup]
  exact OrdMap.get?_filter ⟨_, mergeSources_sorted⟩

theorem mergeOf_mergeWrite (path : Nat) (sources : List SsTable) (deepest : Bool)
    (keepAfter : Nat) : MergeOf sources deepest (mergeWrite path sources deepest none keepAfter) := by
  constructor
  · intro key
    show (mergeWrite path sources deepest none keepAfter).get key = _ ∨
      (mergeWrite path sources deepest none keepAfter).get key = none ∧ _
    rw [get_mergeWrite]
    cases hn : newest (tableLayers sources) key with
    | none => exact .inl rfl
    | some v =>
      by_cases hr : retained deepest none keepAfter (key, v) = true
      · exact .inl (by simp [Option.filter, hr])
      · refine .inr ⟨by simp [Option.filter, hr], v, rfl, ?_⟩
        simp only [retained, Option.any_none, Bool.not_false] at hr
        split_ifs at hr with hcond
        · exact hcond.1
        · exact absurd rfl hr
  · rintro rfl
    funext key
    show (mergeWrite path sources false none keepAfter).get key = _
    rw [get_mergeWrite]
    cases hn : newest (tableLayers sources) key with
    | none => rfl
    | some v => simp [Option.filter, retained]

variable {out : SsTable}

theorem MergeOf.blank {sources : List SsTable}
    (h : MergeOf sources deepest out) (hb : ∀ t ∈ sources, t.IsBlank) : out.IsBlank := by
  intro key
  have hnone : newest (tableLayers sources) key = none := by
    apply newest_blank_block
    intro layer hl
    obtain ⟨t, ht, rfl⟩ := mem_map.mp hl
    exact hb t ht
  obtain heq | ⟨hout, -⟩ := h.thins key
  · rw [heq, hnone]
  · exact hout

theorem MergeOf.exact_of_blank (h : MergeOf sources deepest out) (hb : ∀ t ∈ sources, t.IsBlank) :
    out.layer = newest (tableLayers sources) := by
  funext key
  rw [h.blank hb key, newest_blank_block]
  intro layer hl
  obtain ⟨t, ht, rfl⟩ := mem_map.mp hl
  exact hb t ht

-- Where a compaction's inputs lie: `i0` are the oldest level-0 tables, `i1` adjacent levels.
-- Only blank runs stand between the two, and only such stand behind a deepest merge.
structure Span (l0 levels : List SsTable) (deepest : Bool) (i0 i1 newer before behind : List SsTable) :
    Prop where
  l0_eq : l0 = newer ++ i0
  levels_eq : levels = before ++ i1 ++ behind
  before_blank : i0 ≠ [] → ∀ t ∈ before, t.IsBlank
  behind_blank : deepest = true → (∀ t ∈ behind, t.IsBlank) ∨ ∀ t ∈ i0 ++ i1, t.IsBlank

-- Where the output goes: ahead of all levels when a level-0 table was merged or
-- nothing was, else in the place of the merged levels.
def place (i0 i1 before behind : List SsTable) (out : SsTable) : List SsTable :=
  if i0 ≠ [] ∨ i1 = [] then out :: before ++ behind else before ++ out :: behind

theorem place_perm : (newer ++ place i0 i1 before behind out).Perm (out :: (newer ++ (before ++ behind))) := by
  unfold place
  split_ifs
  · exact perm_middle
  · rw [← append_assoc, ← append_assoc]
    exact perm_middle

private theorem blank_tableLayers (h : ∀ t ∈ tables, t.IsBlank) :
    ∀ layer ∈ tableLayers tables, Blank layer := by
  intro layer hl
  obtain ⟨t, ht, rfl⟩ := mem_map.mp hl
  exact h t ht

private theorem reworks_merge (front : List SsTable) (behind : List SsTable) (hm : MergeOf inputs deepest out)
    (hb : deepest = true → (∀ t ∈ behind, t.IsBlank) ∨ ∀ t ∈ inputs, t.IsBlank) :
    Reworks Tombstone (tableLayers (front ++ inputs ++ behind)) (tableLayers (front ++ out :: behind)) := by
  simp only [tableLayers_append, tableLayers_cons]
  have hexact : out.layer = newest (tableLayers inputs) ∨ ∀ t ∈ behind, t.IsBlank := by
    cases hd : deepest with
    | false => exact .inl (hm.exact_of_not_deepest hd)
    | true =>
      obtain h | h := hb hd
      · exact .inr h
      · exact .inl (hm.exact_of_blank h)
  obtain hexact | hblank := hexact
  · exact .single (.merge _ _ _ _ hm.thins (.inr hexact))
  · -- Blank runs behind the block step aside for the merge.
    have hout := Reworks.blanksOut Tombstone (tableLayers front ++ tableLayers inputs)
      (tableLayers behind) [] (blank_tableLayers hblank)
    have hin := Reworks.blanksIn Tombstone (tableLayers front ++ [out.layer])
      (tableLayers behind) [] (blank_tableLayers hblank)
    have hmerge : Rework Tombstone (tableLayers front ++ tableLayers inputs ++ [])
        (tableLayers front ++ out.layer :: []) :=
      .merge _ _ _ _ hm.thins (.inl rfl)
    simp only [append_nil, append_assoc, cons_append, nil_append]
      at hout hin hmerge ⊢
    exact hout.trans (.head hmerge hin)

variable {l0 i0 i1 newer before behind : List SsTable}

theorem Span.reworks (h : Span l0 levels deepest i0 i1 newer before behind)
    (hm : MergeOf (i0 ++ i1) deepest out) : Reworks Tombstone (tableLayers (l0 ++ levels))
      (tableLayers (newer ++ place i0 i1 before behind out)) := by
  rw [h.l0_eq, h.levels_eq]
  unfold place
  by_cases hi0 : i0 = []
  · subst hi0
    by_cases hi1 : i1 = []
    · subst hi1
      have hblank : out.IsBlank := hm.blank (by simp)
      have hin := Reworks.blanksIn Tombstone (tableLayers newer) [out.layer]
        (tableLayers before ++ tableLayers behind) (by simpa [IsBlank] using hblank)
      simpa using hin
    · rw [if_neg (by simp [hi1])]
      have hmerge := reworks_merge (newer ++ before) behind hm h.behind_blank
      simpa using hmerge
  · -- The runs between the level-0 inputs and the merged level are blank.
    rw [if_pos (.inl hi0)]
    have hbefore := blank_tableLayers (h.before_blank hi0)
    have hout := Reworks.blanksOut Tombstone (tableLayers (newer ++ i0)) (tableLayers before)
      (tableLayers (i1 ++ behind)) hbefore
    have hmerge := reworks_merge newer behind hm h.behind_blank
    have hin := Reworks.blanksIn Tombstone (tableLayers newer ++ [out.layer]) (tableLayers before)
      (tableLayers behind) hbefore
    simp only [tableLayers_append, tableLayers_cons, append_assoc, cons_append,
      nil_append] at hout hmerge hin ⊢
    exact hout.trans (hmerge.trans hin)

private theorem segment_after {α : Type*} {a b g i c : List α} (h : a ++ b = g ++ (i ++ c)) (hi : i ≠ [])
    (hdisj : ∀ x ∈ a, x ∉ i) : ∃ q, g = a ++ q ∧ b = q ++ (i ++ c) := by
  obtain hafter | ⟨q, hq, hb⟩ := append_eq_append_iff.mp h
  · exact hafter
  · obtain rfl | hne := eq_or_ne q []
    · exact ⟨[], by simpa using hq.symm, hb.symm⟩
    · -- The rest of `a` starts inside `i`.
      exfalso
      obtain ⟨x, q', rfl⟩ := exists_cons_of_ne_nil hne
      obtain ⟨y, i', rfl⟩ := exists_cons_of_ne_nil hi
      have hxy : y = x := by simpa using congrArg List.head? hb
      exact hdisj x (by rw [hq]; simp) (by simp [hxy])

private theorem segments_apart {α : Type*} {f a b g i c : List α} (h : f ++ a ++ b = g ++ i ++ c)
    (ha : a ≠ []) (hi : i ≠ []) (hdisj : ∀ x ∈ a, x ∉ i) :
    (∃ q, g = f ++ a ++ q ∧ b = q ++ i ++ c) ∨ (∃ q, f = g ++ i ++ q ∧ c = q ++ a ++ b) := by
  simp only [append_assoc] at h ⊢
  obtain ⟨as, hg, has⟩ | ⟨cs, hf, hcs⟩ := append_eq_append_iff.mp h
  · obtain ⟨q, rfl, hb⟩ := segment_after has hi hdisj
    exact .inl ⟨q, hg, hb⟩
  · obtain ⟨q, rfl, hc⟩ := segment_after hcs ha (fun x hx hxa => hdisj x hxa hx)
    exact .inr ⟨q, hf, hc⟩

private theorem l0_apart {a0 fresh : List SsTable} (ha : l0 = newer ++ a0)
    (hi : l0 = fresh ++ i0) (hdisj : ∀ t ∈ a0, t ∉ i0) : a0 = [] ∨ i0 = [] := by
  by_contra hno
  obtain ⟨ha0, hi0⟩ := not_or.mp hno
  have hlast : a0.getLast ha0 = i0.getLast hi0 := by
    have h := congrArg getLast? (ha.symm.trans hi)
    simpa [getLast?_append_of_ne_nil, ha0, hi0, getLast?_eq_some_getLast] using h
  exact hdisj _ (getLast_mem ha0) (hlast ▸ getLast_mem hi0)

theorem Span.of_merge {a0 a1 newerA beforeA behindA : List SsTable} {deepestA : Bool}
    (hA : Span l0 levels deepestA a0 a1 newerA beforeA behindA)
    (h : Span l0 levels deepest i0 i1 newer before behind)
    (hm : MergeOf (i0 ++ i1) deepest out) (hdisj : ∀ t ∈ a0 ++ a1, t ∉ i0 ++ i1) : ∃ newer' before' behind',
      Span newer (place i0 i1 before behind out) deepestA a0 a1 newer' before' behind' := by
  have hd0 : ∀ t ∈ a0, t ∉ i0 := fun t ht hti => hdisj t (by simp [ht]) (by simp [hti])
  have hd1 : ∀ t ∈ a1, t ∉ i1 := fun t ht hti => hdisj t (by simp [ht]) (by simp [hti])
  have hl0 : ∃ newer', newer = newer' ++ a0 := by
    obtain rfl | rfl := l0_apart hA.l0_eq h.l0_eq hd0
    · exact ⟨newer, by simp⟩
    · exact ⟨newerA, by rw [← hA.l0_eq, h.l0_eq, append_nil]⟩
  obtain ⟨newer', hnewer'⟩ := hl0
  have hl0a : a0 ≠ [] → i0 = [] := fun hne =>
    (l0_apart hA.l0_eq h.l0_eq hd0).resolve_left hne
  -- With no level-0 input the output is blank as soon as the merged levels are.
  have hout : i0 = [] → (∀ t ∈ i1, t.IsBlank) → out.IsBlank := by
    rintro rfl hb
    exact hm.blank (by simpa using hb)
  have hswap : ∀ {x y}, i0 = [] → (∀ t ∈ x ++ i1 ++ y, t.IsBlank) → ∀ t ∈ x ++ out :: y, t.IsBlank := by
    intro x y hi0 hb t ht
    obtain ht | ht := mem_append.mp ht
    · exact hb t (by simp [ht])
    · obtain rfl | ht := mem_cons.mp ht
      · exact hout hi0 (fun t ht => hb t (by simp [ht]))
      · exact hb t (by simp [ht])
  have hlevels : beforeA ++ a1 ++ behindA = before ++ i1 ++ behind :=
    hA.levels_eq.symm.trans h.levels_eq
  by_cases ha1 : a1 = []
  · subst ha1
    refine ⟨newer', [], place i0 i1 before behind out, hnewer', by simp, by simp, ?_⟩
    intro hdeep
    obtain hb | hb := hA.behind_blank hdeep
    · obtain rfl | ha0 := eq_or_ne a0 []
      · exact .inr (by simp)
      · -- All levels are blank, so what the other merge left of them is.
        left
        have hall : ∀ t ∈ before ++ i1 ++ behind, t.IsBlank := by
          rw [← hlevels]
          intro t ht
          obtain ht | ht : t ∈ beforeA ∨ t ∈ behindA := by simpa using ht
          · exact hA.before_blank ha0 t ht
          · exact hb t ht
        have hob : out.IsBlank := hout (hl0a ha0) (fun t ht => hall t (by simp [ht]))
        intro t ht
        obtain rfl | ht : t = out ∨ t ∈ before ++ i1 ++ behind := by
          unfold place at ht
          split_ifs at ht
          · simp only [cons_append, mem_cons, mem_append] at ht ⊢
            tauto
          · simp only [mem_cons, mem_append] at ht ⊢
            tauto
        · exact hob
        · exact hall t ht
    · exact .inr hb
  by_cases hi1 : i1 = []
  · subst hi1
    have hplace : place i0 [] before behind out = (out :: beforeA) ++ a1 ++ behindA := by
      have hlv : before ++ behind = beforeA ++ a1 ++ behindA := by simpa using hlevels.symm
      simp [place, hlv]
    refine ⟨newer', out :: beforeA, behindA, hnewer', hplace, ?_, hA.behind_blank⟩
    intro ha0 t ht
    obtain rfl | ht := mem_cons.mp ht
    · exact hout (hl0a ha0) (by simp)
    · exact hA.before_blank ha0 t ht
  obtain ⟨q, hbefore, hbehindA⟩ | ⟨q, hbeforeA, hbehind⟩ := segments_apart hlevels ha1 hi1 hd1
  · obtain rfl | hi0 := eq_or_ne i0 []
    · have hplace : place [] i1 before behind out = beforeA ++ a1 ++ (q ++ out :: behind) := by
        simp [place, hi1, hbefore]
      refine ⟨newer', beforeA, q ++ out :: behind, hnewer', hplace, hA.before_blank, ?_⟩
      rw [hbehindA] at hA
      exact fun hdeep => (hA.behind_blank hdeep).imp_left (hswap rfl)
    · have hplace : place i0 i1 before behind out = (out :: beforeA) ++ a1 ++ (q ++ behind) := by
        simp [place, hi0, hbefore]
      refine ⟨newer', out :: beforeA, q ++ behind, hnewer', hplace, ?_, ?_⟩
      · intro ha0
        exact absurd (hl0a ha0) hi0
      · intro hdeep
        refine (hA.behind_blank hdeep).imp_left (fun hb t ht => hb t ?_)
        rw [hbehindA]
        obtain ht | ht := mem_append.mp ht
        · simp [ht]
        · simp [ht]
  · obtain rfl | hi0 := eq_or_ne i0 []
    · have hplace : place [] i1 before behind out = (before ++ out :: q) ++ a1 ++ behindA := by
        simp [place, hi1, hbehind]
      refine ⟨newer', before ++ out :: q, behindA, hnewer', hplace, ?_, hA.behind_blank⟩
      rw [hbeforeA] at hA
      exact fun ha0 => hswap rfl (hA.before_blank ha0)
    · have hplace : place i0 i1 before behind out = (out :: before ++ q) ++ a1 ++ behindA := by
        simp [place, hi0, hbehind]
      refine ⟨newer', out :: before ++ q, behindA, hnewer', hplace, ?_, hA.behind_blank⟩
      intro ha0
      exact absurd (hl0a ha0) hi0

theorem Span.push (h : Span l0 levels deepest i0 i1 newer before behind) (t : SsTable) :
    Span (t :: l0) levels deepest i0 i1 (t :: newer) before behind :=
  ⟨by rw [h.l0_eq]; rfl, h.levels_eq, h.before_blank, h.behind_blank⟩

variable {p : SsTable → Bool} {i : List SsTable}

section

variable (hin : ∀ t ∈ i, p t = true)

variable (hout : ∀ t ∈ before ++ behind, p t = false)

include hin hout

private theorem filter_inputs : (before ++ i ++ behind).filter (fun t => !p t) = before ++ behind := by
  rw [filter_append, filter_append, filter_eq_self.mpr,
    filter_eq_nil_iff.mpr, filter_eq_self.mpr, append_nil]
  · intro t ht
    rw [hout t (by simp [ht])]
    rfl
  · intro t ht
    rw [hin t ht]
    simp
  · intro t ht
    rw [hout t (by simp [ht])]
    rfl

private theorem any_inputs : (before ++ i ++ behind).any p = true ↔ i ≠ [] := by
  rw [any_eq_true]
  constructor
  · rintro ⟨t, ht, hp⟩ rfl
    rw [hout t (by simpa using ht)] at hp
    cases hp
  · intro hne
    obtain ⟨t, rest, rfl⟩ := exists_cons_of_ne_nil hne
    exact ⟨t, by simp, hin t (by simp)⟩

private theorem findIdx_inputs (hne : i ≠ []) : (before ++ i ++ behind).findIdx p = before.length := by
  obtain ⟨t, rest, rfl⟩ := exists_cons_of_ne_nil hne
  rw [append_assoc, findIdx_append, findIdx_eq_length_of_false, if_neg (lt_irrefl _)]
  · simp [findIdx_cons, hin t (by simp)]
  · intro x hx
    exact hout x (by simp [hx])

end

theorem placeRun_eq {e : Engine} (h : Span e.l0 e.levels deepest i0 i1 newer before behind)
    (hnodup : ((e.l0 ++ e.levels).map path).Nodup) :
    e.placeRun ((i0 ++ i1).map path) out =
      { e with l0 := newer, levels := place i0 i1 before behind out } := by
  have hall : (newer ++ i0 ++ (before ++ i1 ++ behind)).Nodup := by
    rw [← h.l0_eq, ← h.levels_eq]
    exact Nodup.of_map _ hnodup
  have hmem : ∀ t ∈ newer ++ i0 ++ (before ++ i1 ++ behind), t ∈ e.l0 ++ e.levels := by
    intro t ht
    rw [h.l0_eq, h.levels_eq]
    exact ht
  have hinj : ∀ t ∈ e.l0 ++ e.levels, ((i0 ++ i1).map path).contains t.path = true ↔
      t ∈ i0 ++ i1 := by
    intro t ht
    rw [contains_iff_mem, mem_map]
    constructor
    · rintro ⟨t', ht', hpath⟩
      have htmem := hmem t' (by simp only [mem_append] at ht' ⊢; tauto)
      rw [← inj_on_of_nodup_map hnodup htmem ht hpath]
      exact ht'
    · intro ht'
      exact ⟨t, ht', rfl⟩
  have hin : ∀ t ∈ i0 ++ i1, ((i0 ++ i1).map path).contains t.path = true := by
    intro t ht
    exact (hinj t (hmem t (by simp only [mem_append] at ht ⊢; tauto))).mpr ht
  have hout : ∀ t ∈ newer ++ (before ++ behind),
      ((i0 ++ i1).map path).contains t.path = false := by
    intro t ht
    rw [Bool.eq_false_iff]
    intro hc
    have hti := (hinj t (hmem t (by simp only [mem_append] at ht ⊢; tauto))).mp hc
    simp only [nodup_append, mem_append] at hall hti ht
    grind
  unfold Engine.placeRun
  generalize ((i0 ++ i1).map path) = inputs at hin hout
  have hin0 : ∀ t ∈ i0, inputs.contains t.path = true := fun t ht => hin t (by simp [ht])
  have hin1 : ∀ t ∈ i1, inputs.contains t.path = true := fun t ht => hin t (by simp [ht])
  have hout0 : ∀ t ∈ newer ++ [], inputs.contains t.path = false :=
    fun t ht => hout t (by simp at ht; simp [ht])
  have hout1 : ∀ t ∈ before ++ behind, inputs.contains t.path = false :=
    fun t ht => hout t (by simp at ht; simp [ht])
  have hl0 : newer ++ i0 ++ [] = e.l0 := by rw [h.l0_eq, append_nil]
  have hfilter0 := filter_inputs hin0 hout0
  have hany0 := any_inputs hin0 hout0
  rw [hl0, append_nil] at hfilter0
  rw [hl0] at hany0
  have hfilter1 := filter_inputs hin1 hout1
  have hany1 := any_inputs hin1 hout1
  rw [← h.levels_eq] at hfilter1 hany1
  simp only [hfilter0, hany0, hfilter1, hany1]
  unfold place
  by_cases hi0 : i0 = []
  · by_cases hi1 : i1 = []
    · simp [hi0, hi1]
    · have hidx := findIdx_inputs hin1 hout1 hi1
      rw [← h.levels_eq] at hidx
      rw [hidx]
      simp [hi0, hi1]
  · simp [hi0]

end Skaidb.Storage
