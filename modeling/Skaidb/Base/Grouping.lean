import Skaidb.Base.OrdMap

namespace Skaidb.Base.OrdMap

open List

section

variable {κ α : Type*} [LinearOrder κ]

def extend (m : OrdMap κ (List α)) (key : κ) (piece : List α) : OrdMap κ (List α) :=
  m.insert key ((m.get? key).getD [] ++ piece)

def gather (pieces : List (κ × List α)) : OrdMap κ (List α) :=
  pieces.foldl (fun m p => m.extend p.1 p.2) empty

def under (pieces : List (κ × List α)) (key : κ) : List α :=
  (pieces.filter (fun p => p.1 = key)).flatMap Prod.snd

theorem under_append (xs ys : List (κ × List α)) (key : κ) :
    under (xs ++ ys) key = under xs key ++ under ys key := by
  simp [under]

variable {pieces : List (κ × List α)}

theorem mem_under : x ∈ under pieces key ↔ ∃ p ∈ pieces, p.1 = key ∧ x ∈ p.2 := by
  simp [under, and_assoc]

theorem under_eq_nil (h : key ∉ pieces.map Prod.fst) : under pieces key = [] := by
  rw [under, filter_eq_nil_iff.mpr, flatMap_nil]
  intro p hp heq
  exact h (mem_map.mpr ⟨p, hp, by simpa using heq⟩)

theorem under_of_mem (hkeys : (pieces.map Prod.fst).Nodup) (hp : p ∈ pieces) : under pieces p.1 = p.2 := by
  induction pieces with
  | nil => cases hp
  | cons q pieces ih =>
    obtain ⟨hq, hkeys⟩ := nodup_cons.mp hkeys
    rw [← singleton_append, under_append]
    obtain rfl | hp := mem_cons.mp hp
    · rw [under_eq_nil hq]
      simp [under]
    · have hne : p.1 ∉ [q].map Prod.fst := by
        intro hmem
        exact hq (mem_map.mpr ⟨p, hp, by simpa using hmem⟩)
      rw [under_eq_nil hne, nil_append, ih hkeys hp]

theorem under_map_singleton {β : Type*} (xs : List β) (f : β → κ) (g : β → α) (key : κ) :
    under (xs.map (fun x => (f x, [g x]))) key = (xs.filter (fun x => f x = key)).map g := by
  rw [under, filter_map, flatMap_map]
  exact map_eq_flatMap.symm

theorem filter_spread {pieces : List (κ × List α)} :
    ((pieces.flatMap (fun p => p.2.map (fun x => (p.1, x)))).filter (fun e => e.1 = key)).map Prod.snd =
      under pieces key := by
  induction pieces with
  | nil => rfl
  | cons p pieces ih =>
    rw [flatMap_cons, filter_append, map_append, ih, ← singleton_append, under_append]
    by_cases hp : p.1 = key <;> simp [under, hp, filter_map, Function.comp_def]

theorem get?_foldl_extend (pieces : List (κ × List α)) (m : OrdMap κ (List α)) (key : κ) :
    (pieces.foldl (fun m p => m.extend p.1 p.2) m).get? key =
      if key ∈ pieces.map Prod.fst then some ((m.get? key).getD [] ++ under pieces key) else m.get? key := by
  induction pieces generalizing m with
  | nil => simp
  | cons p pieces ih =>
    rw [foldl_cons, ih, extend, get?_insert, map_cons]
    by_cases hp : key = p.1
    · subst hp
      by_cases hmem : p.1 ∈ pieces.map Prod.fst
      · simp [hmem, under]
      · have hunder : under pieces p.1 = [] := under_eq_nil hmem
        rw [if_neg hmem, if_pos rfl, if_pos mem_cons_self]
        simp only [under, filter_cons, decide_true, if_true, flatMap_cons] at hunder ⊢
        rw [hunder, append_nil]
    · have hunder : under (p :: pieces) key = under pieces key := by
        simp [under, Ne.symm hp]
      have hmem : key ∈ p.1 :: pieces.map Prod.fst ↔ key ∈ pieces.map Prod.fst := by
        rw [mem_cons, or_iff_right hp]
      rw [if_neg hp, hunder]
      exact if_congr hmem.symm rfl rfl

theorem get?_gather {pieces : List (κ × List α)} : (gather pieces).get? key =
      if key ∈ pieces.map Prod.fst then some (under pieces key) else none := by
  rw [gather, get?_foldl_extend, get?_empty]
  rfl

theorem mem_getD_gather : x ∈ ((gather pieces).get? key).getD [] ↔ ∃ p ∈ pieces, p.1 = key ∧ x ∈ p.2 := by
  rw [get?_gather, ← mem_under]
  split_ifs with hmem
  · rfl
  · rw [under_eq_nil hmem]
    rfl

theorem mem_gather :
    (key, xs) ∈ (gather pieces).entries ↔ key ∈ pieces.map Prod.fst ∧ xs = under pieces key := by
  rw [← get?_eq_some_iff, get?_gather]
  split_ifs with hmem
  · simp [hmem, eq_comm]
  · simp [hmem]

theorem mem_map_gather {β : Type*} {f : List α → β} {e : κ × β} :
    e ∈ (gather pieces).entries.map (fun p => (p.1, f p.2)) ↔
      e.1 ∈ pieces.map Prod.fst ∧ e.2 = f (under pieces e.1) := by
  obtain ⟨key, y⟩ := e
  simp only [mem_map, Prod.exists, Prod.mk.injEq, mem_gather]
  constructor
  · rintro ⟨k, ys, ⟨hk, rfl⟩, rfl, rfl⟩
    exact ⟨hk, rfl⟩
  · rintro ⟨hk, rfl⟩
    exact ⟨key, _, ⟨hk, rfl⟩, rfl, rfl⟩

theorem under_map_gather {β : Type*} {f : List α → List β} (hf : f [] = []) :
    under ((gather pieces).entries.map (fun p => (p.1, f p.2))) key = f (under pieces key) := by
  have hkeys : (((gather pieces).entries.map (fun p => (p.1, f p.2))).map Prod.fst).Nodup := by
    rw [map_map]
    exact nodup_keys _
  by_cases hin : key ∈ pieces.map Prod.fst
  · exact under_of_mem hkeys (mem_map_gather (e := (key, _)).mpr ⟨hin, rfl⟩)
  · rw [under_eq_nil hin, hf]
    refine under_eq_nil fun hmem => hin ?_
    obtain ⟨p, hp, rfl⟩ := mem_map.mp hmem
    exact (mem_map_gather.mp hp).1

end

end Skaidb.Base.OrdMap
