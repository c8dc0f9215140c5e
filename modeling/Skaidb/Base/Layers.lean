import Mathlib.Order.Lattice
import Mathlib.Data.List.Pairwise
import Mathlib.Tactic.Common

namespace Skaidb.Base

open List Option

-- A stack of layers, newest first, each with at most one stamped version of a key.
-- `firstHit` stops at the first layer that holds the key; `newest` keeps the highest stamp
-- of all, the earlier layer's on a tie.

variable {κ σ ν : Type*}

abbrev Layer (κ σ ν : Type*) := κ → Option (σ × ν)

def firstHit (layers : List (Layer κ σ ν)) (key : κ) : Option (σ × ν) :=
  layers.findSome? (fun layer => layer key)

@[simp] theorem firstHit_nil : firstHit ([] : List (Layer κ σ ν)) key = none := rfl

theorem firstHit_cons (layer : Layer κ σ ν) (layers : List (Layer κ σ ν)) (key : κ) :
    firstHit (layer :: layers) key = (layer key).or (firstHit layers key) := by
  simp only [firstHit, findSome?_cons]
  cases layer key <;> rfl

theorem firstHit_append : firstHit (front ++ back) key = (firstHit front key).or (firstHit back key) := by
  induction front with
  | nil => simp
  | cons layer front ih => rw [cons_append, firstHit_cons, ih, firstHit_cons, Option.or_assoc]

theorem firstHit_eq_none_iff : firstHit layers key = none ↔ ∀ layer ∈ layers, layer key = none := by
  simp [firstHit]

variable {layers : List (Layer κ σ ν)} {key : κ}

theorem exists_of_firstHit_eq_some
    (h : firstHit layers key = some v) : ∃ layer ∈ layers, layer key = some v := by
  simpa [firstHit] using exists_of_findSome?_eq_some h

def Thins (dead : σ × ν → Prop) (full thin : Layer κ σ ν) : Prop :=
  ∀ key, thin key = full key ∨ (thin key = none ∧ ∃ v, full key = some v ∧ dead v)

theorem Thins.refl (dead : σ × ν → Prop) (layer : Layer κ σ ν) : Thins dead layer layer :=
  fun _ => .inl rfl

variable {dead : σ × ν → Prop}

theorem Thins.trans {a b c : Layer κ σ ν} (hab : Thins dead a b) (hbc : Thins dead b c) : Thins dead a c := by
  intro key
  obtain h | ⟨h, v, hv, hd⟩ := hbc key
  · rw [h]
    exact hab key
  · obtain h' | ⟨h', _⟩ := hab key
    · exact .inr ⟨h, v, h' ▸ hv, hd⟩
    · rw [h'] at hv
      cases hv

theorem Thins.eq_some (h : Thins dead full thin) (hv : thin key = some v) : full key = some v := by
  obtain hk | ⟨hk, _⟩ := h key
  · rw [← hk, hv]
  · rw [hk] at hv
    cases hv

theorem Thins.prepend (h : Thins dead full thin) (front : Layer κ σ ν) :
    Thins dead (fun key => (front key).or (full key)) (fun key => (front key).or (thin key)) := by
  intro key
  cases hf : front key with
  | none => simpa only [hf, none_or] using h key
  | some v => exact .inl (by simp only [hf, some_or])

section Stamped

variable [LinearOrder σ]

def pick (best next : Option (σ × ν)) : Option (σ × ν) :=
  match best, next with
  | best, none => best
  | none, some v => some v
  | some b, some v => if b.1 < v.1 then some v else some b

def newest (layers : List (Layer κ σ ν)) (key : κ) : Option (σ × ν) :=
  layers.foldl (fun best layer => pick best (layer key)) none

def Descending (layers : List (Layer κ σ ν)) : Prop :=
  layers.Pairwise (fun newer older => ∀ key v w,
    newer key = some v → older key = some w → w.1 ≤ v.1)

@[simp] theorem pick_none_right (best : Option (σ × ν)) : pick best none = best := by
  cases best <;> rfl

@[simp] theorem pick_none_left (next : Option (σ × ν)) : pick none next = next := by
  cases next <;> rfl

theorem pick_eq_left {best : σ × ν} {next : Option (σ × ν)}
    (h : ∀ v, next = some v → v.1 ≤ best.1) : pick (some best) next = some best := by
  cases next with
  | none => rfl
  | some v => simp [pick, not_lt.mpr (h v rfl)]

private theorem foldl_pick_of_le {layers : List (Layer κ σ ν)}
    (h : ∀ layer ∈ layers, ∀ v, layer key = some v → v.1 ≤ best.1) :
    layers.foldl (fun best layer => pick best (layer key)) (some best) = some best := by
  induction layers with
  | nil => rfl
  | cons layer layers ih =>
    rw [foldl_cons, pick_eq_left (h layer (by simp))]
    exact ih (fun l hl => h l (by simp [hl]))

theorem newest_eq_firstHit (h : Descending layers) (key : κ) : newest layers key = firstHit layers key := by
  induction layers with
  | nil => rfl
  | cons layer layers ih =>
    obtain ⟨hhead, htail⟩ := pairwise_cons.mp h
    rw [firstHit_cons, ← ih htail, newest, foldl_cons, pick_none_left]
    cases hk : layer key with
    | none => rfl
    | some v =>
      rw [foldl_pick_of_le (fun l hl w hw => hhead l hl key v w hk hw)]
      rfl

theorem le_pick {best next : Option (σ × ν)} (h : best = some v ∨ next = some v) :
    ∃ u, pick best next = some u ∧ v.1 ≤ u.1 := by
  cases best with
  | none =>
    obtain h | h := h
    · cases h
    · exact ⟨v, by rw [pick_none_left, h], le_rfl⟩
  | some b =>
    cases next with
    | none =>
      obtain h | h := h
      · exact ⟨v, by rw [pick_none_right, h], le_rfl⟩
      · cases h
    | some n =>
      by_cases hlt : b.1 < n.1
      · refine ⟨n, by simp [pick, hlt], ?_⟩
        obtain h | h := h
        · exact (some.inj h) ▸ hlt.le
        · exact (some.inj h) ▸ le_rfl
      · refine ⟨b, by simp [pick, hlt], ?_⟩
        obtain h | h := h
        · exact (some.inj h) ▸ le_rfl
        · exact (some.inj h) ▸ not_lt.mp hlt

theorem newest_le_of_mem (hl : layer ∈ layers) (hv : layer key = some v) :
    ∃ w, newest layers key = some w ∧ v.1 ≤ w.1 := by
  have step : ∀ (ls : List (Layer κ σ ν)) best,
      (∃ b, best = some b ∧ v.1 ≤ b.1) ∨ layer ∈ ls →
      ∃ w, ls.foldl (fun best l => pick best (l key)) best = some w ∧ v.1 ≤ w.1 := by
    intro ls
    induction ls with
    | nil =>
      rintro best (hb | hm)
      · exact hb
      · simp at hm
    | cons l ls ih =>
      intro best hcase
      apply ih
      obtain ⟨b, hb, hle⟩ | hm := hcase
      · obtain ⟨u, hu, hbu⟩ := le_pick (.inl hb)
        exact .inl ⟨u, hu, hle.trans hbu⟩
      · obtain rfl | hm := mem_cons.mp hm
        · exact .inl (le_pick (.inr hv))
        · exact .inr hm
  exact step layers none (.inr hl)

theorem pick_eq_or (best next : Option (σ × ν)) : pick best next = best ∨ pick best next = next := by
  obtain _ | b := best <;> obtain _ | v := next <;> simp only [pick, true_or, or_true]
  split_ifs <;> simp

theorem exists_of_newest_eq_some (h : newest layers key = some v) : ∃ layer ∈ layers, layer key = some v := by
  have step : ∀ (ls : List (Layer κ σ ν)) best,
      ls.foldl (fun best l => pick best (l key)) best = some v →
      best = some v ∨ ∃ layer ∈ ls, layer key = some v := by
    intro ls
    induction ls with
    | nil => intro best h; exact .inl h
    | cons l ls ih =>
      intro best h
      obtain hp | ⟨layer, hl, hv⟩ := ih _ h
      · obtain ho | ho := pick_eq_or best (l key)
        · exact .inl (ho ▸ hp)
        · exact .inr ⟨l, by simp, ho ▸ hp⟩
      · exact .inr ⟨layer, by simp [hl], hv⟩
  obtain h | h := step layers none h
  · cases h
  · exact h

theorem newest_congr {layers' : List (Layer κ σ ν)}
    (h : layers.map (fun layer => layer key) = layers'.map (fun layer => layer key)) :
    newest layers key = newest layers' key := by
  have hfold : ∀ ls : List (Layer κ σ ν),
      newest ls key = (ls.map (fun layer => layer key)).foldl pick none := by
    intro ls
    rw [foldl_map]
    rfl
  rw [hfold, hfold, h]

theorem newest_eq_none (h : ∀ layer ∈ layers, layer key = none) : newest layers key = none := by
  cases hn : newest layers key with
  | none => rfl
  | some v =>
    obtain ⟨layer, hl, hv⟩ := exists_of_newest_eq_some hn
    rw [h layer hl] at hv
    cases hv

end Stamped

end Skaidb.Base
