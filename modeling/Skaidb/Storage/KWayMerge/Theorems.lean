import Mathlib.Algebra.Order.BigOperators.Group.List
import Mathlib.Algebra.Order.Group.Nat
import Skaidb.Storage.KWayMerge

namespace Skaidb.Storage.KWayMerge

open Skaidb.Base List OrdMap

section Cursors

variable {κ σ ν : Type*} (c : Cursor κ σ ν)

def pending : List (κ × σ × ν) := c.head.toList ++ c.rest

def total (cursors : List (Cursor κ σ ν)) : Nat :=
  (cursors.map (fun c => (pending c).length)).sum

@[simp] theorem pending_refill : pending (refill c) = pending c := by
  obtain ⟨head, rest⟩ := c
  cases head <;> cases rest <;> rfl

theorem head_refill_eq_none (h : (refill c).head = none) : pending c = [] := by
  obtain ⟨head, rest⟩ := c
  cases head <;> cases rest <;> simp_all [refill, pending]

end Cursors

section Keyed

variable {κ σ ν : Type*} [LinearOrder κ]

def Sorted (items : List (κ × σ × ν)) : Prop := items.Pairwise (fun a b => a.1 < b.1)

variable (c : Cursor κ σ ν)

def layer : Layer κ σ ν := fun key => OrdMap.lookup (pending c) key

theorem layer_refill : layer (refill c) = layer c := by
  unfold layer
  rw [pending_refill]

def atKey (key : κ) (head : Option (κ × σ × ν)) : Option (σ × ν) :=
  (head.filter (fun item => item.1 = key)).map Prod.snd

theorem atKey_of_ne {item : κ × σ × ν} (h : item.1 ≠ key) : atKey key (some item) = none := by
  simp [atKey, Option.filter, h]

theorem atKey_self (item : κ × σ × ν) : atKey item.1 (some item) = some item.2 := by
  simp [atKey, Option.filter]

theorem layer_eq_atKey (hs : Sorted (pending c)) (key : κ) (hc : c.head = none → pending c = [])
    (hle : ∀ x, c.head = some x → key ≤ x.1) : layer c key = atKey key c.head := by
  cases hh : c.head with
  | none => simp [layer, hc hh, atKey]
  | some x =>
    have hp : pending c = x :: c.rest := by simp [pending, hh]
    have hsorted : Sorted (x :: c.rest) := hp ▸ hs
    obtain ⟨hx, -⟩ := pairwise_cons.mp hsorted
    by_cases hk : x.1 = key
    · subst hk
      rw [atKey_self]
      rw [layer, hp]
      exact lookup_cons_self
    · rw [atKey_of_ne hk]
      refine lookup_eq_none_iff.mpr ?_
      rw [hp]
      intro e he
      obtain rfl | he := mem_cons.mp he
      · exact hk
      · exact (lt_of_le_of_lt (hle x hh) (hx e he)).ne'

theorem pending_discard (key : κ) (c : Cursor κ σ ν) : pending (discard key c) = pending c ∨
      ∃ v, pending c = (key, v) :: pending (discard key c) := by
  obtain ⟨head, rest⟩ := c
  cases head with
  | none => exact .inl rfl
  | some x =>
    by_cases hk : x.1 = key
    · right
      obtain ⟨k, v⟩ := x
      subst hk
      exact ⟨v, by simp [discard, pending]⟩
    · left
      simp [discard, pending, hk]

theorem sorted_discard {c : Cursor κ σ ν} (hs : Sorted (pending c)) : Sorted (pending (discard key c)) := by
  obtain h | ⟨v, h⟩ := pending_discard key c
  · rw [h]
    exact hs
  · rw [h] at hs
    exact (pairwise_cons.mp hs).2

theorem layer_discard_of_ne {other : κ} (hne : other ≠ key) : layer (discard key c) other = layer c other := by
  unfold layer
  obtain h | ⟨v, h⟩ := pending_discard key c
  · rw [h]
  · rw [h, lookup_cons_of_ne hne]

theorem lt_of_mem_discard {c : Cursor κ σ ν} (hs : Sorted (pending c))
    (hc : c.head = none → pending c = []) (hle : ∀ x, c.head = some x → key ≤ x.1) :
    ∀ e ∈ pending (discard key c), key < e.1 := by
  intro e he
  cases hh : c.head with
  | none =>
    have hd : discard key c = c := by simp [discard, hh]
    rw [hd, hc hh] at he
    cases he
  | some x =>
    have hp : pending c = x :: c.rest := by simp [pending, hh]
    have hsorted : Sorted (x :: c.rest) := hp ▸ hs
    obtain ⟨hx, -⟩ := pairwise_cons.mp hsorted
    by_cases hk : x.1 = key
    · have hd : pending (discard key c) = c.rest := by simp [discard, pending, hh, hk]
      rw [hd] at he
      exact hk ▸ hx e he
    · have hd : discard key c = c := by simp [discard, hh, hk]
      rw [hd, hp] at he
      have hlt : key < x.1 := lt_of_le_of_ne (hle x hh) (Ne.symm hk)
      obtain rfl | he := mem_cons.mp he
      · exact hlt
      · exact hlt.trans (hx e he)

theorem length_discard_le (key : κ) (c : Cursor κ σ ν) :
    (pending (discard key c)).length ≤ (pending c).length := by
  obtain h | ⟨v, h⟩ := pending_discard key c
  · rw [h]
  · rw [h]
    simp

end Keyed

section Merging

variable {κ σ ν : Type*} [LinearOrder κ] [LinearOrder σ]

theorem pick_atKey_challenge (key : κ) (w item : κ × σ × ν) (hw : key ≤ w.1) (hi : key ≤ item.1) :
    pick (atKey key (some w)) (atKey key (some item)) = atKey key (challenge (some w) (some item)) := by
  simp only [challenge]
  split_ifs with h
  · obtain h | ⟨heq, hst⟩ := h
    · rw [atKey_of_ne (hi.trans_lt h).ne', pick_none_left]
    · by_cases hk : item.1 = key
      · subst hk
        obtain ⟨wk, wv⟩ := w
        subst heq
        rw [atKey_self, show atKey item.1 (some (item.1, wv)) = some wv from atKey_self (item.1, wv)]
        simp [pick, hst]
      · rw [atKey_of_ne hk, pick_none_right, atKey_of_ne (heq ▸ hk)]
  · by_cases hk : item.1 = key
    · subst hk
      simp only [not_or, not_lt, not_and] at h
      have heq : item.1 = w.1 := le_antisymm hw h.1
      obtain ⟨wk, wv⟩ := w
      subst heq
      rw [atKey_self, show atKey item.1 (some (item.1, wv)) = some wv from atKey_self (item.1, wv)]
      exact pick_eq_left (fun v hv => by cases hv; exact h.2 rfl)
    · rw [atKey_of_ne hk, pick_none_right]

theorem challenge_eq_some (win : Option (κ × σ × ν)) (item : κ × σ × ν) :
    ∃ w, challenge win (some item) = some w ∧ w.1 ≤ item.1 ∧ ∀ x, win = some x → w.1 ≤ x.1 := by
  cases win with
  | none => exact ⟨item, rfl, le_rfl, by simp⟩
  | some x =>
    simp only [challenge]
    split_ifs with h
    · refine ⟨item, rfl, le_rfl, ?_⟩
      rintro y ⟨⟩
      obtain h | ⟨h, -⟩ := h
      · exact h.le
      · exact h.le
    · refine ⟨x, rfl, ?_, by rintro y ⟨⟩; exact le_rfl⟩
      exact not_lt.mp (fun hlt => h (.inl hlt))

-- The fold keeps the smallest key so far. Read at the key it ends on, it is
-- the newest-stamp fold over the heads.
private theorem foldl_challenge_spec (heads : List (Option (κ × σ × ν)))
    (init : Option (κ × σ × ν)) (w : κ × σ × ν) (h : heads.foldl challenge init = some w) :
    (∀ x, init = some x → w.1 ≤ x.1) ∧ (∀ x, some x ∈ heads → w.1 ≤ x.1) ∧
    heads.foldl (fun best head => pick best (atKey w.1 head)) (atKey w.1 init) = some w.2 := by
  induction heads generalizing init with
  | nil =>
    subst h
    refine ⟨by rintro x ⟨⟩; exact le_rfl, by simp, atKey_self w⟩
  | cons head heads ih =>
    obtain ⟨hinit, hheads, hfold⟩ := ih _ h
    cases head with
    | none =>
      have hc : challenge init none = init := by cases init <;> rfl
      refine ⟨hinit, ?_, ?_⟩
      · intro x hx
        exact hheads x (by simpa using hx)
      · rw [foldl_cons, show atKey w.1 none = none from rfl,
          pick_none_right]
        exact hfold
    | some item =>
      obtain ⟨c, hc, hcitem, hcinit⟩ := challenge_eq_some init item
      have hwc : w.1 ≤ c.1 := hinit c hc
      have hitem : w.1 ≤ item.1 := hwc.trans hcitem
      refine ⟨fun x hx => hwc.trans (hcinit x hx), ?_, ?_⟩
      · intro x hx
        obtain hx | hx := mem_cons.mp hx
        · cases hx
          exact hitem
        · exact hheads x hx
      · rw [foldl_cons]
        have hp : pick (atKey w.1 init) (atKey w.1 (some item)) =
            atKey w.1 (challenge init (some item)) := by
          cases init with
          | none => rw [show atKey w.1 none = none from rfl,
              pick_none_left]; rfl
          | some x => exact pick_atKey_challenge w.1 x item (hwc.trans (hcinit x rfl)) hitem
        rw [hp]
        exact hfold

variable {heads : List (Option (κ × σ × ν))}

theorem winner_eq_none (h : winner heads = none) : ∀ head ∈ heads, head = none := by
  have step : ∀ (hs : List (Option (κ × σ × ν))) init,
      hs.foldl challenge init = none → init = none ∧ ∀ head ∈ hs, head = none := by
    intro hs
    induction hs with
    | nil => intro init h; exact ⟨h, by simp⟩
    | cons head hs ih =>
      intro init h
      obtain ⟨hc, hrest⟩ := ih _ h
      cases head with
      | none =>
        have hi : init = none := by cases init <;> simp_all [challenge]
        exact ⟨hi, by simpa using hrest⟩
      | some item =>
        obtain ⟨c, hc', -⟩ := challenge_eq_some init item
        rw [hc'] at hc
        cases hc
  exact (step heads none h).2

structure Step (cursors : List (Cursor κ σ ν)) (item : κ × σ × ν)
    (rest : List (Cursor κ σ ν)) : Prop where
  sorted : ∀ c ∈ rest, Sorted (pending c)
  above : ∀ c ∈ rest, ∀ e ∈ pending c, item.1 < e.1
  won : newest (cursors.map layer) item.1 = some item.2
  kept : ∀ key, key ≠ item.1 → newest (rest.map layer) key = newest (cursors.map layer) key
  consumed : total rest < total cursors

omit [LinearOrder κ] in
private theorem foldl_pick_congr (f g : Cursor κ σ ν → Option (σ × ν))
    (cursors : List (Cursor κ σ ν)) (init : Option (σ × ν)) (h : ∀ c ∈ cursors, f c = g c) :
    cursors.foldl (fun best c => pick best (f c)) init =
      cursors.foldl (fun best c => pick best (g c)) init := by
  induction cursors generalizing init with
  | nil => rfl
  | cons c cursors ih =>
    rw [foldl_cons, foldl_cons, h c (by simp)]
    exact ih _ (fun d hd => h d (by simp [hd]))

theorem newest_map (cursors : List (Cursor κ σ ν)) (key : κ) : newest (cursors.map layer) key =
      cursors.foldl (fun best c => pick best (layer c key)) none := by
  unfold newest
  rw [foldl_map]

theorem winner_mem {w : κ × σ × ν} (h : winner heads = some w) : some w ∈ heads := by
  have step : ∀ (hs : List (Option (κ × σ × ν))) init,
      hs.foldl challenge init = some w → init = some w ∨ some w ∈ hs := by
    intro hs
    induction hs with
    | nil => intro init h; exact .inl h
    | cons head hs ih =>
      intro init h
      obtain hc | hm := ih _ h
      · have hor : challenge init head = init ∨ challenge init head = head := by
          obtain _ | x := init <;> obtain _ | y := head <;> simp only [challenge, true_or, or_true]
          split_ifs <;> simp
        obtain ho | ho := hor
        · exact .inl (ho ▸ hc)
        · exact .inr (by rw [← hc, ho]; simp)
      · exact .inr (by simp [hm])
  obtain h | h := step heads none h
  · cases h
  · exact h

variable {cursors : List (Cursor κ σ ν)}

theorem next_eq_none (h : next cursors = none) : ∀ c ∈ cursors, pending c = [] := by
  have hw : winner ((cursors.map refill).map Cursor.head) = none := by
    simpa only [next, Option.map_eq_none_iff] using h
  intro c hc
  apply head_refill_eq_none
  exact winner_eq_none hw _ (by simpa using ⟨c, hc, rfl⟩)

theorem next_spec {rest : List (Cursor κ σ ν)} {item : κ × σ × ν}
    (hs : ∀ c ∈ cursors, Sorted (pending c)) (h : next cursors = some (item, rest)) :
    Step cursors item rest := by
  obtain ⟨w, hw, hpair⟩ := Option.map_eq_some_iff.mp h
  obtain ⟨rfl, rfl⟩ := Prod.mk.inj hpair
  obtain ⟨-, hle, hfold⟩ := foldl_challenge_spec _ none w hw
  have hhead : ∀ c ∈ cursors, ∀ x, (refill c).head = some x → w.1 ≤ x.1 := by
    intro c hc x hx
    exact hle x (by simpa using ⟨c, hc, hx⟩)
  have hempty : ∀ c : Cursor κ σ ν, (refill c).head = none → pending (refill c) = [] := by
    intro c hc
    rw [pending_refill]
    exact head_refill_eq_none c hc
  have hsort : ∀ c ∈ cursors, Sorted (pending (refill c)) := by
    intro c hc
    rw [pending_refill]
    exact hs c hc
  refine ⟨?_, ?_, ?_, ?_, ?_⟩
  · intro c hc
    obtain ⟨d, hd, rfl⟩ : ∃ d ∈ cursors, discard w.1 (refill d) = c := by simpa using hc
    exact sorted_discard (hsort d hd)
  · intro c hc
    obtain ⟨d, hd, rfl⟩ : ∃ d ∈ cursors, discard w.1 (refill d) = c := by simpa using hc
    exact lt_of_mem_discard (hsort d hd) (hempty d) (hhead d hd)
  · rw [newest_map, ← hfold, map_map, foldl_map]
    apply foldl_pick_congr
    intro c hc
    rw [← layer_refill]
    exact layer_eq_atKey (refill c) (hsort c hc) w.1 (hempty c) (hhead c hc)
  · intro key hne
    rw [newest_map, newest_map, map_map, foldl_map]
    apply foldl_pick_congr
    intro c _
    rw [Function.comp_apply, layer_discard_of_ne _ hne, layer_refill]
  · -- The cursor the winner came from loses it; no cursor gains an item.
    obtain ⟨c, hc, hcw⟩ : ∃ c ∈ cursors, (refill c).head = some w := by
      simpa using winner_mem hw
    have hlt : (pending (discard w.1 (refill c))).length < (pending c).length := by
      rw [← pending_refill c]
      simp [discard, pending, hcw]
    unfold total
    rw [map_map, map_map]
    refine sum_lt_sum _ _ ?_ ⟨c, hc, hlt⟩
    intro d _
    calc (pending (discard w.1 (refill d))).length ≤ (pending (refill d)).length :=
          length_discard_le w.1 (refill d)
      _ = (pending d).length := by rw [pending_refill]

theorem newest_of_pending_nil
    (h : ∀ c ∈ cursors, pending c = []) (key : κ) : newest (cursors.map layer) key = none := by
  rw [newest_map, foldl_pick_congr _ (fun _ => none) cursors none]
  · simp only [pick_none_right]
    exact foldl_fixed cursors
  · intro c hc
    simp [layer, h c hc]

-- The merge is sorted, and under each key it holds the newest version of the sources.
theorem collect_spec (fuel : Nat) (cursors : List (Cursor κ σ ν))
    (hs : ∀ c ∈ cursors, Sorted (pending c)) (hfuel : total cursors ≤ fuel) : Sorted (collect fuel cursors) ∧
    (∀ key, lookup (collect fuel cursors) key = newest (cursors.map layer) key) := by
  induction fuel generalizing cursors with
  | zero =>
    have hnil : ∀ c ∈ cursors, pending c = [] := by
      intro c hc
      have hle := single_le_sum (by simp) _
        (mem_map_of_mem (f := fun c => (pending c).length) hc)
      apply eq_nil_of_length_eq_zero
      unfold total at hfuel
      omega
    refine ⟨Pairwise.nil, fun key => ?_⟩
    rw [newest_of_pending_nil hnil]
    rfl
  | succ fuel ih =>
    rw [collect]
    cases hn : next cursors with
    | none =>
      refine ⟨Pairwise.nil, fun key => ?_⟩
      rw [newest_of_pending_nil (next_eq_none hn)]
      rfl
    | some pair =>
      obtain ⟨item, rest⟩ := pair
      have hstep := next_spec hs hn
      have hconsumed := hstep.consumed
      obtain ⟨hsorted, hlookup⟩ := ih rest hstep.sorted (by omega)
      -- Whatever the rest yields comes from a cursor above the winning key.
      have habove : ∀ e ∈ collect fuel rest, item.1 < e.1 := by
        intro e he
        have hl : OrdMap.lookup (collect fuel rest) e.1 = some e.2 :=
          (lookup_eq_some_iff hsorted).mpr he
        rw [hlookup] at hl
        obtain ⟨l, hmem, hv⟩ := exists_of_newest_eq_some hl
        obtain ⟨c, hc, rfl⟩ := mem_map.mp hmem
        have hin : (e.1, e.2) ∈ pending c :=
          (lookup_eq_some_iff (hstep.sorted c hc)).mp hv
        exact hstep.above c hc _ hin
      refine ⟨pairwise_cons.mpr ⟨habove, hsorted⟩, fun key => ?_⟩
      by_cases hk : key = item.1
      · subst hk
        rw [hstep.won]
        exact lookup_cons_self
      · rw [lookup_cons_of_ne hk, ← hstep.kept key hk]
        exact hlookup key

theorem run_spec (sources : List (List (κ × σ × ν))) (hs : ∀ items ∈ sources, Sorted items) :
    Sorted (run sources) ∧ ∀ key, OrdMap.lookup (run sources) key =
      newest (sources.map (OrdMap.lookup)) key := by
  have hmap : (new sources).map layer = sources.map (OrdMap.lookup) := by
    rw [new, map_map]
    rfl
  have htotal : total (new sources) = (sources.map List.length).sum := by
    simp [total, new, pending, Function.comp_def]
  have hsorted : ∀ c ∈ new sources, Sorted (pending c) := by
    intro c hc
    obtain ⟨items, hi, rfl⟩ := mem_map.mp hc
    exact hs items hi
  have hspec := collect_spec (sources.map List.length).sum (new sources) hsorted htotal.le
  rw [hmap] at hspec
  exact hspec

end Merging

end Skaidb.Storage.KWayMerge
