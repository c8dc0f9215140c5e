import Skaidb.Base.Pages
import Skaidb.Cluster.Repair

namespace Skaidb.Storage

open Skaidb.Base List OrdMap KWayMerge

theorem Memtable.rangeLatestPage_eq (m : Memtable) (after : Option Bytes) (limit : Nat) :
    m.rangeLatestPage after limit = (m.iterLatest.filter (fun e => beyond after e.1)).take limit := by
  unfold Memtable.rangeLatestPage
  congr 1
  refine eq_of_lookup_eq (Memtable.firstPerKey_sorted (m.ordered_iterVersions.filter _) (by simp)).1
    (m.iterLatest_sorted.filter _) ?_
  intro key
  rw [Memtable.lookup_firstPerKey (by simp), lookup_filter_key, lookup_filter_key,
    Memtable.lookup_iterLatest]

section Capped

variable {full part : List (List (Bytes × Version))}

def Capped (keep : Bytes → Bool) (limit : Nat) : List (Bytes × Version) → List (Bytes × Version) → Prop :=
  fun source capped => capped = source ∨ capped = (source.filter (fun row => keep row.1)).take limit

theorem Capped.subset {source capped : List (Bytes × Version)} (h : Capped keep limit source capped) :
    capped.Sublist source := by
  obtain rfl | rfl := h
  · exact Sublist.refl _
  · exact (take_sublist _ _).trans filter_sublist

private theorem exists_of_mem_right {α β : Type*} {R : α → β → Prop} {xs : List α} {ys : List β}
    (h : Forall₂ R xs ys) {y : β} (hy : y ∈ ys) : ∃ x ∈ xs, R x y := by
  induction h with
  | nil => cases hy
  | cons hxy _ ih =>
    obtain rfl | hy := mem_cons.mp hy
    · exact ⟨_, mem_cons_self, hxy⟩
    · obtain ⟨x, hx, hr⟩ := ih hy
      exact ⟨x, mem_cons_of_mem _ hx, hr⟩

private theorem map_eq_map_of_forall₂ {α β : Type*} {R : α → α → Prop} {xs ys : List α}
    (h : Forall₂ R xs ys) {f : α → β} (hf : ∀ x ∈ xs, ∀ y, R x y → f y = f x) : ys.map f = xs.map f := by
  induction h with
  | nil => rfl
  | cons hxy _ ih =>
    rw [map_cons, map_cons, hf _ mem_cons_self _ hxy,
      ih (fun x hx y hr => hf x (mem_cons_of_mem _ hx) y hr)]

private theorem lookup_take_of_sorted {rows : List (Bytes × Version)}
    (hs : rows.Pairwise (fun a b => a.1 < b.1)) {key : Bytes}
    (h : ∀ row ∈ rows, row.1 = key → row ∈ rows.take limit) :
    lookup (rows.take limit) key = lookup rows key := by
  apply Option.ext
  intro v
  rw [lookup_eq_some_iff (hs.sublist (take_sublist _ _)),
    lookup_eq_some_iff hs]
  exact ⟨mem_of_mem_take, fun hmem => h _ hmem rfl⟩

variable (hs : ∀ items ∈ full, items.Pairwise (fun a b => a.1 < b.1))

include hs

theorem exists_source_of_mem_run {row : Bytes × Version} (hrow : row ∈ run full) : ∃ items ∈ full, row ∈ items := by
  obtain ⟨hsorted, hlookup⟩ := run_spec full hs
  have hget : newest (full.map OrdMap.lookup) row.1 = some row.2 := by
    rw [← hlookup]
    exact (lookup_eq_some_iff hsorted).mpr hrow
  obtain ⟨layer, hl, hlv⟩ := exists_of_newest_eq_some hget
  obtain ⟨items, hi, rfl⟩ := mem_map.mp hl
  exact ⟨items, hi, (lookup_eq_some_iff (hs items hi)).mp hlv⟩

theorem exists_mem_run {items : List (Bytes × Version)} (hi : items ∈ full) {row : Bytes × Version}
    (hrow : row ∈ items) : ∃ merged ∈ run full, merged.1 = row.1 := by
  obtain ⟨hsorted, hlookup⟩ := run_spec full hs
  obtain ⟨v, hv, -⟩ := newest_le_of_mem (mem_map_of_mem hi)
    ((lookup_eq_some_iff (hs items hi)).mpr hrow)
  rw [← hlookup] at hv
  exact ⟨(row.1, v), (lookup_eq_some_iff hsorted).mp hv, rfl⟩

theorem run_capped (h : Forall₂ (Capped keep limit) full part) :
    ((run part).filter (fun row => keep row.1)).take limit =
      ((run full).filter (fun row => keep row.1)).take limit := by
  have hsub : ∀ capped ∈ part, ∃ source ∈ full, capped.Sublist source := by
    intro capped hc
    obtain ⟨source, hsource, hcap⟩ := exists_of_mem_right h hc
    exact ⟨source, hsource, hcap.subset⟩
  have hspart : ∀ capped ∈ part, capped.Pairwise (fun a b => a.1 < b.1) := by
    intro capped hc
    obtain ⟨source, hsource, hsublist⟩ := hsub capped hc
    exact (hs source hsource).sublist hsublist
  obtain ⟨hsorted, hlookup⟩ := run_spec full hs
  obtain ⟨hsortedp, hlookupp⟩ := run_spec part hspart
  refine take_eq_take_of_sorted (hsortedp.filter _) (hsorted.filter _) ?_ ?_
  · intro x hx
    obtain ⟨hx, hkeep⟩ := mem_filter.mp hx
    obtain ⟨capped, hc, hxc⟩ := exists_source_of_mem_run hspart hx
    obtain ⟨source, hsource, hsublist⟩ := hsub capped hc
    obtain ⟨y, hy, hyx⟩ := exists_mem_run hs hsource (hsublist.subset hxc)
    exact ⟨y, mem_filter.mpr ⟨hy, by rw [hyx]; exact hkeep⟩, hyx⟩
  · intro y hy
    obtain ⟨hyrun, hkeep⟩ := mem_filter.mp (mem_of_mem_take hy)
    refine mem_filter.mpr ⟨?_, hkeep⟩
    have hsame : part.map (fun items => OrdMap.lookup items y.1) =
        full.map (fun items => OrdMap.lookup items y.1) := by
      refine map_eq_map_of_forall₂ h ?_
      rintro source hsource capped (rfl | rfl)
      · rfl
      · have hfiltered := lookup_filter_key keep source y.1
        rw [if_pos hkeep] at hfiltered
        rw [← hfiltered]
        have hsourced := (hs source hsource).filter (fun row => keep row.1)
        refine lookup_take_of_sorted hsourced ?_
        intro x hx hxy
        refine mem_take_of_sorted hsourced (hsorted.filter _) ?_ hx hy hxy
        intro a ha
        obtain ⟨ha, hakeep⟩ := mem_filter.mp ha
        obtain ⟨b, hb, hba⟩ := exists_mem_run hs hsource ha
        exact ⟨b, mem_filter.mpr ⟨hb, by rw [hba]; exact hakeep⟩, hba⟩
    have hnewest : newest (part.map OrdMap.lookup) y.1 = newest (full.map OrdMap.lookup) y.1 := by
      refine newest_congr ?_
      rw [map_map, map_map]
      exact hsame
    refine (lookup_eq_some_iff hsortedp).mp ?_
    rw [hlookupp, hnewest, ← hlookup]
    exact (lookup_eq_some_iff hsorted).mpr hyrun

end Capped

namespace Engine

variable (e : Engine) (after : Option Bytes) (limit : Nat)

def pageSources : List (List (Bytes × Version)) :=
  e.memtables.map (fun m => m.rangeLatestPage after limit) ++
    e.sstablesNewestFirst.map (fun t => t.entries.entries)

theorem capped_pageSources : Forall₂ (Capped (beyond after) limit) e.sources (e.pageSources after limit) := by
  refine rel_append ?_ ?_
  · rw [forall₂_map_left_iff, forall₂_map_right_iff, forall₂_same]
    intro m _
    exact .inr (m.rangeLatestPage_eq after limit)
  · rw [forall₂_map_left_iff, forall₂_map_right_iff, forall₂_same]
    intro t _
    exact .inl rfl

theorem scanVersionedPage_eq : e.scanVersionedPage after limit =
    (e.mergedIter.filter (fun row => beyond after row.1)).take limit :=
  run_capped sources_sorted (e.capped_pageSources after limit)

-- A page holds the newest version of each key it shows, and leaves a key out only when it is
-- full of smaller ones.
theorem scanVersionedPage_exact :
    (e.scanVersionedPage after limit).Pairwise (fun a b => a.1 < b.1) ∧
    (∀ row ∈ e.scanVersionedPage after limit, beyond after row.1 ∧ newest e.layers row.1 = some row.2) ∧
    ∀ key v, beyond after key → newest e.layers key = some v → (key, v) ∈ e.scanVersionedPage after limit ∨
      (e.scanVersionedPage after limit).length = limit ∧ ∀ row ∈ e.scanVersionedPage after limit, row.1 < key := by
  obtain ⟨hs, hl⟩ := mergedIter_spec (e := e)
  rw [scanVersionedPage_eq]
  have hsorted := hs.filter (fun row => beyond after row.1)
  refine ⟨hsorted.sublist (take_sublist _ _), fun row hrow => ?_, fun key v hkey hv => ?_⟩
  · obtain ⟨hrow, hbeyond⟩ := mem_filter.mp (mem_of_mem_take hrow)
    exact ⟨hbeyond, hl row.1 ▸ (lookup_eq_some_iff hs).mpr hrow⟩
  · have hrow : (key, v) ∈ e.mergedIter.filter (fun row => beyond after row.1) :=
      mem_filter.mpr ⟨(lookup_eq_some_iff hs).mp ((hl key).trans hv), hkey⟩
    rw [← take_append_drop limit (filter _ _)] at hsorted hrow
    refine (mem_append.mp hrow).imp id (fun hdrop => ⟨?_, fun row hrow => ?_⟩)
    · have := length_pos_of_mem hdrop
      rw [length_drop] at this
      rw [length_take]
      omega
    · exact (pairwise_append.mp hsorted).2.2 row hrow _ hdrop

end Engine

end Skaidb.Storage
