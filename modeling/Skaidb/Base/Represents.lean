import Skaidb.Base.Rework

namespace Skaidb.Base

open List

-- A history lists the writes of a store, oldest first. A stack of layers represents it when
-- a read of a key goes back behind no write of it: what it returns was written later or has
-- a stamp at least as high, and it returns nothing only where such a version is dead. If the
-- stamps of each key increase, so do those of the layers.

variable {κ σ ν : Type*} [LinearOrder σ]

abbrev Write (κ σ ν : Type*) := κ × σ × ν

-- Version `v` was written under the key of `w`, the write at position `i`, and
-- does not come before it.
def NotBefore (hist : List (Write κ σ ν)) (i : Nat) (w : Write κ σ ν) (v : σ × ν) : Prop :=
  ∃ j : Nat, hist[j]? = some (w.1, v) ∧ (i ≤ j ∨ w.2.1 ≤ v.1)

section

variable (dead : σ × ν → Prop) (hist : List (Write κ σ ν)) (i : Nat) (w : Write κ σ ν)

def Gone : Prop := ∃ v, NotBefore hist i w v ∧ dead v

def Keeps : Option (σ × ν) → Prop
  | some v => NotBefore hist i w v
  | none => Gone dead hist i w

-- The first layer that reaches the stamp of `w` answers for it. Layers in front
-- of that one hold later writes only.
def Covered : List (Layer κ σ ν) → Prop
  | [] => Gone dead hist i w
  | layer :: stack =>
    (∃ v, layer w.1 = some v ∧ w.2.1 ≤ v.1) ∨
    ((∀ v, layer w.1 = some v → ∃ j : Nat, i ≤ j ∧ hist[j]? = some (w.1, v)) ∧ Covered stack)

end

def Increasing (hist : List (Write κ σ ν)) : Prop := hist.Pairwise (fun a b => a.1 = b.1 → a.2.1 < b.2.1)

structure Represents (dead : σ × ν → Prop) (hist : List (Write κ σ ν)) (stack : List (Layer κ σ ν)) :
    Prop where
  known : ∀ layer ∈ stack, ∀ key v, layer key = some v → (key, v) ∈ hist
  covered : ∀ (i : Nat) (w : Write κ σ ν), hist[i]? = some w → Covered dead hist i w stack
  ordered : Increasing hist → Descending stack

variable {dead : σ × ν → Prop} {hist : List (Write κ σ ν)} {stack stack' : List (Layer κ σ ν)}

theorem represents_nil : Represents dead ([] : List (Write κ σ ν)) ([] : List (Layer κ σ ν)) := by
  refine ⟨by simp, by simp, ?_⟩
  intro _
  exact Pairwise.nil

variable {i : Nat} {w : Write κ σ ν}

private theorem covered_read (hknown : ∀ layer ∈ stack, ∀ key v, layer key = some v → (key, v) ∈ hist)
    (h : Covered dead hist i w stack) : Keeps dead hist i w (firstHit stack w.1) := by
  induction stack with
  | nil => exact h
  | cons layer stack ih =>
    rw [firstHit_cons]
    obtain ⟨v, hv, hle⟩ | ⟨hlater, hrest⟩ := h
    · obtain ⟨j, hj⟩ := mem_iff_getElem?.mp (hknown layer (by simp) _ v hv)
      rw [hv, Option.some_or]
      exact ⟨j, hj, .inr hle⟩
    · cases hl : layer w.1 with
      | none => exact ih (fun l hl => hknown l (by simp [hl])) hrest
      | some v =>
        obtain ⟨j, hij, hj⟩ := hlater v hl
        exact ⟨j, hj, .inl hij⟩

theorem Represents.read (h : Represents dead hist stack)
    (hi : hist[i]? = some w) : Keeps dead hist i w (firstHit stack w.1) :=
  covered_read h.known (h.covered i w hi)

-- The write at position `i` is the last of its key, and its stamp is above those of
-- the earlier ones.
structure Latest (hist : List (Write κ σ ν)) (i : Nat) (w : Write κ σ ν) : Prop where
  at_eq : hist[i]? = some w
  before : ∀ (j : Nat) (u : Write κ σ ν), j < i → hist[j]? = some u → u.1 = w.1 → u.2.1 < w.2.1
  after : ∀ (j : Nat) (u : Write κ σ ν), i < j → hist[j]? = some u → u.1 ≠ w.1

theorem Latest.eq_of_le (h : Latest hist i w) {j : Nat} (hj : hist[j]? = some (w.1, v))
    (hle : i ≤ j ∨ w.2.1 ≤ v.1) : v = w.2 := by
  obtain hji | rfl | hij := lt_trichotomy j i
  · have hlt : v.1 < w.2.1 := h.before j (w.1, v) hji hj rfl
    obtain hle | hle := hle
    · omega
    · exact absurd hlt (not_lt.mpr hle)
  · rw [h.at_eq] at hj
    exact congrArg Prod.snd (Option.some.inj hj).symm
  · exact absurd rfl (h.after j (w.1, v) hij hj)

theorem Latest.append (h : Latest hist i w) {more : List (Write κ σ ν)}
    (hmore : ∀ u ∈ more, u.1 ≠ w.1) : Latest (hist ++ more) i w := by
  have hlt := (List.getElem?_eq_some_iff.mp h.at_eq).1
  refine ⟨by rw [List.getElem?_append_left hlt, h.at_eq], ?_, ?_⟩
  · intro j u hj hu
    rw [List.getElem?_append_left (hj.trans hlt)] at hu
    exact h.before j u hj hu
  · intro j u hj hu
    by_cases hin : j < hist.length
    · rw [List.getElem?_append_left hin] at hu
      exact h.after j u hj hu
    · rw [List.getElem?_append_right (not_lt.mp hin)] at hu
      exact hmore u (List.mem_of_getElem? hu)

theorem Latest.of_prefix {hist' : List (Write κ σ ν)} (h : Latest hist i w)
    (hpre : hist' <+: hist) (hlt : i < hist'.length) : Latest hist' i w := by
  obtain ⟨rest, rfl⟩ := hpre
  have hget : ∀ {j : Nat} {u : Write κ σ ν}, hist'[j]? = some u → (hist' ++ rest)[j]? = some u := by
    intro j u hu
    rw [List.getElem?_append_left (List.getElem?_eq_some_iff.mp hu).1, hu]
  refine ⟨?_, fun j u hj hu => h.before j u hj (hget hu), fun j u hj hu => h.after j u hj (hget hu)⟩
  rw [← h.at_eq, getElem?_append_left hlt]

section

variable (h : Represents dead hist stack)

include h

theorem Represents.read_latest
    (hw : Latest hist i w) : firstHit stack w.1 = some w.2 ∨ (firstHit stack w.1 = none ∧ dead w.2) := by
  have hread := h.read hw.at_eq
  cases hfirst : firstHit stack w.1 with
  | some v =>
    rw [hfirst] at hread
    obtain ⟨j, hj, hle⟩ := hread
    exact .inl (congrArg some (hw.eq_of_le hj hle))
  | none =>
    rw [hfirst] at hread
    obtain ⟨v, ⟨j, hj, hle⟩, hdead⟩ := hread
    exact .inr ⟨rfl, hw.eq_of_le hj hle ▸ hdead⟩

theorem Represents.newest_latest (hw : Latest hist i w) (hlive : ¬ dead w.2) : newest stack w.1 = some w.2 := by
  have hfirst := (h.read_latest hw).resolve_right (fun hnone => hlive hnone.2)
  obtain ⟨layer, hl, hv⟩ := exists_of_firstHit_eq_some hfirst
  obtain ⟨u, hu, hle⟩ := newest_le_of_mem hl hv
  obtain ⟨source, hs, hsu⟩ := exists_of_newest_eq_some hu
  obtain ⟨j, hj⟩ := mem_iff_getElem?.mp (h.known source hs w.1 u hsu)
  rw [hu, hw.eq_of_le hj (.inr hle)]

-- With increasing stamps the last write of a key answers, unless it is dead.
theorem Represents.read_last (hincr : Increasing hist) (hi : hist[i]? = some w)
    (hlast : ∀ j u, i < j → hist[j]? = some u → u.1 ≠ w.1) :
    firstHit stack w.1 = some w.2 ∨ (firstHit stack w.1 = none ∧ dead w.2) := by
  refine h.read_latest ⟨hi, ?_, hlast⟩
  intro j u hji hj hkey
  obtain ⟨hjlt, hju⟩ := List.getElem?_eq_some_iff.mp hj
  obtain ⟨hilt, hiw⟩ := List.getElem?_eq_some_iff.mp hi
  have hlt := pairwise_iff_getElem.mp hincr j i hjlt hilt hji
  rw [hju, hiw] at hlt
  exact hlt hkey

theorem Represents.read_none (hnone : ∀ w ∈ hist, w.1 ≠ key) : firstHit stack key = none := by
  rw [firstHit_eq_none_iff]
  intro layer hl
  cases hv : layer key with
  | none => rfl
  | some v => exact absurd rfl (hnone _ (h.known layer hl key v hv))

end

private theorem covered_blank (hb : Blank layer) :
    Covered dead hist i w (layer :: stack) ↔ Covered dead hist i w stack := by
  simp [Covered, hb w.1]

private theorem covered_prepend (h : Covered dead hist i w back → Covered dead hist i w back')
    (hc : Covered dead hist i w (front ++ back)) : Covered dead hist i w (front ++ back') := by
  induction front with
  | nil => exact h hc
  | cons layer front ih => exact hc.imp_right (fun hr => ⟨hr.1, ih hr.2⟩)

private theorem covered_append (h : Covered dead hist i w (block ++ back)) :
    (∃ v, newest block w.1 = some v ∧ w.2.1 ≤ v.1) ∨
    ((∀ layer ∈ block, ∀ v, layer w.1 = some v → ∃ j : Nat, i ≤ j ∧ hist[j]? = some (w.1, v)) ∧
      Covered dead hist i w back) := by
  induction block with
  | nil => exact .inr ⟨by simp, h⟩
  | cons layer block ih =>
    obtain ⟨v, hv, hle⟩ | ⟨hlater, hrest⟩ := h
    · obtain ⟨u, hu, hvu⟩ := newest_le_of_mem (mem_cons_self) hv
      exact .inl ⟨u, hu, hle.trans hvu⟩
    · obtain ⟨v, hv, hle⟩ | ⟨hall, hback⟩ := ih hrest
      · obtain ⟨source, hs, hsv⟩ := exists_of_newest_eq_some hv
        obtain ⟨u, hu, hvu⟩ := newest_le_of_mem (mem_cons_of_mem layer hs) hsv
        exact .inl ⟨u, hu, hle.trans hvu⟩
      · refine .inr ⟨?_, hback⟩
        intro l hl
        obtain rfl | hl := mem_cons.mp hl
        · exact hlater
        · exact hall l hl

private theorem covered_merge {block back : List (Layer κ σ ν)} (thins : Thins dead (newest block) merged)
    (last : back = [] ∨ merged = newest block) (hknown : ∀ v, newest block w.1 = some v → (w.1, v) ∈ hist)
    (h : Covered dead hist i w (block ++ back)) : Covered dead hist i w (merged :: back) := by
  obtain ⟨v, hv, hle⟩ | ⟨hall, hback⟩ := covered_append h
  · obtain hm | ⟨hm, u, hu, hdead⟩ := thins w.1
    · exact .inl ⟨v, hm.trans hv, hle⟩
    · -- The answer was dead and nothing lies behind it.
      obtain rfl | hsame := last
      · obtain rfl := Option.some.inj (hu.symm.trans hv)
        obtain ⟨j, hj⟩ := mem_iff_getElem?.mp (hknown u hu)
        exact .inr ⟨by simp [hm], u, ⟨j, hj, .inr hle⟩, hdead⟩
      · exact .inl ⟨v, (congrFun hsame w.1).trans hv, hle⟩
  · refine .inr ⟨?_, hback⟩
    intro v hv
    obtain ⟨source, hs, hsv⟩ := exists_of_newest_eq_some (thins.eq_some hv)
    exact hall source hs v hsv

theorem Represents.rework (h : Represents dead hist stack) (hr : Rework dead stack stack') :
    Represents dead hist stack' := by
  refine ⟨?_, ?_, fun hincr => hr.descending (h.ordered hincr)⟩
  · intro layer hl key v hv
    obtain ⟨source, hs, hsv⟩ := hr.version_mem hl hv
    exact h.known source hs key v hsv
  · intro i w hi
    have hc := h.covered i w hi
    cases hr with
    | blankIn front back layer blank => exact covered_prepend (covered_blank blank).mpr hc
    | blankOut front back layer blank => exact covered_prepend (covered_blank blank).mp hc
    | merge front block back merged thins last =>
      rw [append_assoc] at hc
      refine covered_prepend (covered_merge thins last ?_) hc
      intro v hv
      obtain ⟨source, hs, hsv⟩ := exists_of_newest_eq_some hv
      exact h.known source (by simp [hs]) _ v hsv

theorem Represents.reworks (h : Represents dead hist stack) (hr : Reworks dead stack stack') :
    Represents dead hist stack' := by
  induction hr with
  | refl => exact h
  | tail _ hstep ih => exact ih.rework hstep

-- The layer shows, under each key of the writes, one of them at the highest stamp.
structure LayerOf (writes : List (Write κ σ ν)) (layer : Layer κ σ ν) : Prop where
  known : ∀ key v, layer key = some v → (key, v) ∈ writes
  reaches : ∀ w ∈ writes, ∃ v, layer w.1 = some v ∧ w.2.1 ≤ v.1

private theorem covered_mono (h : Covered dead (hist.take m) i w stack) : Covered dead hist i w stack := by
  have hget : ∀ {j : Nat} {x : Write κ σ ν}, (hist.take m)[j]? = some x → hist[j]? = some x := by
    intro j x hx
    rw [getElem?_take] at hx
    split_ifs at hx
    exact hx
  induction stack with
  | nil =>
    obtain ⟨v, ⟨j, hj, hle⟩, hdead⟩ := h
    exact ⟨v, ⟨j, hget hj, hle⟩, hdead⟩
  | cons layer stack ih =>
    refine h.imp_right ?_
    rintro ⟨hlater, hrest⟩
    refine ⟨?_, ih hrest⟩
    intro v hv
    obtain ⟨j, hij, hj⟩ := hlater v hv
    exact ⟨j, hij, hget hj⟩

-- A new layer on top may repeat writes the stack already represents, as long as
-- it holds everything from one position on.
theorem Represents.push (h : Represents dead (hist.take m) stack) (hstart : start ≤ m)
    (hl : LayerOf (hist.drop start) layer) : Represents dead hist (layer :: stack) := by
  refine ⟨?_, ?_, fun hincr => ?_⟩
  · intro l hmem key v hv
    obtain rfl | hmem := mem_cons.mp hmem
    · exact mem_of_mem_drop (hl.known key v hv)
    · exact mem_of_mem_take (h.known l hmem key v hv)
  · intro i w hi
    by_cases hin : start ≤ i
    · -- The new layer holds the write itself.
      refine .inl (hl.reaches w ?_)
      rw [mem_iff_getElem?]
      exact ⟨i - start, by rw [getElem?_drop, Nat.add_sub_cancel' hin, hi]⟩
    · refine .inr ⟨?_, covered_mono (h.covered i w ?_)⟩
      · intro v hv
        obtain ⟨j, hj⟩ := mem_iff_getElem?.mp (hl.known _ v hv)
        rw [getElem?_drop] at hj
        exact ⟨start + j, by omega, hj⟩
      · rw [getElem?_take, if_pos (by omega), hi]
  · refine pairwise_cons.mpr ⟨?_, h.ordered (hincr.sublist (take_sublist m hist))⟩
    intro older ho key v w hv hw
    obtain ⟨i, hi⟩ := mem_iff_getElem?.mp (h.known older ho key w hw)
    rw [getElem?_take] at hi
    split_ifs at hi
    by_cases hin : start ≤ i
    · obtain ⟨u, hu, hle⟩ := hl.reaches (key, w) (by
        rw [mem_iff_getElem?]
        exact ⟨i - start, by rw [getElem?_drop, Nat.add_sub_cancel' hin, hi]⟩)
      rw [hv] at hu
      cases hu
      exact hle
    · -- The new layer's version was written after the older one.
      obtain ⟨j, hj⟩ := mem_iff_getElem?.mp (hl.known key v hv)
      rw [getElem?_drop] at hj
      obtain ⟨hilt, hi⟩ := List.getElem?_eq_some_iff.mp hi
      obtain ⟨hjlt, hj⟩ := List.getElem?_eq_some_iff.mp hj
      have hlt := pairwise_iff_getElem.mp hincr i (start + j) hilt hjlt (by omega)
      rw [hi, hj] at hlt
      exact (hlt rfl).le

-- A write into the top layer, which keeps the higher stamp.
theorem Represents.write [DecidableEq κ] (h : Represents dead hist (layer :: stack))
    (hwrite : ∀ key, layer' key = if key = w.1 then pick (some w.2) (layer key) else layer key) :
    Represents dead (hist ++ [w]) (layer' :: stack) := by
  have hnew : layer' w.1 = pick (some w.2) (layer w.1) := by rw [hwrite, if_pos rfl]
  have hget : ∀ {j : Nat} {x : Write κ σ ν}, hist[j]? = some x → (hist ++ [w])[j]? = some x := by
    intro j x hx
    rw [List.getElem?_append_left (List.getElem?_eq_some_iff.mp hx).1, hx]
  -- What the top layer shows now is the write or was there before.
  have hshown : ∀ key v, layer' key = some v → (key = w.1 ∧ v = w.2) ∨ layer key = some v := by
    intro key v hv
    rw [hwrite] at hv
    split_ifs at hv with hkey
    · obtain hp | hp := pick_eq_or (some w.2) (layer key)
      · rw [hp] at hv
        exact .inl ⟨hkey, (Option.some.inj hv).symm⟩
      · exact .inr (hp ▸ hv)
    · exact .inr hv
  have hreach : ∀ key v, layer key = some v → ∃ u, layer' key = some u ∧ v.1 ≤ u.1 := by
    intro key v hv
    rw [hwrite]
    split_ifs
    · exact le_pick (.inr hv)
    · exact ⟨v, hv, le_rfl⟩
  refine ⟨?_, ?_, fun hincr => ?_⟩
  · intro l hl key v hv
    obtain rfl | hl := List.mem_cons.mp hl
    · obtain ⟨rfl, rfl⟩ | hold := hshown key v hv
      · simp
      · exact List.mem_append_left _ (h.known layer (by simp) key v hold)
    · exact List.mem_append_left _ (h.known l (by simp [hl]) key v hv)
  · intro i u hi
    by_cases hin : i < hist.length
    · rw [List.getElem?_append_left hin] at hi
      obtain ⟨v, hv, hle⟩ | ⟨hlater, hrest⟩ := h.covered i u hi
      · obtain ⟨x, hx, hvx⟩ := hreach u.1 v hv
        exact .inl ⟨x, hx, hle.trans hvx⟩
      · refine .inr ⟨?_, covered_mono (by rwa [List.take_left])⟩
        intro v hv
        obtain ⟨hkey, rfl⟩ | hold := hshown u.1 v hv
        · exact ⟨hist.length, hin.le, by rw [List.getElem?_concat_length, hkey]⟩
        · obtain ⟨j, hij, hj⟩ := hlater v hold
          exact ⟨j, hij, hget hj⟩
    · obtain rfl : u = w := by
        rw [List.getElem?_append_right (not_lt.mp hin), List.getElem?_eq_some_iff] at hi
        obtain ⟨hlt, hu⟩ := hi
        simpa using hu.symm
      exact .inl (hnew ▸ le_pick (.inl rfl))
  · obtain ⟨holdIncr, -, hlt⟩ := List.pairwise_append.mp hincr
    obtain ⟨htop, hbelow⟩ := List.pairwise_cons.mp (h.ordered holdIncr)
    refine List.pairwise_cons.mpr ⟨?_, hbelow⟩
    intro older ho key v x hv hx
    obtain ⟨rfl, rfl⟩ | hold := hshown key v hv
    · exact (hlt _ (h.known older (by simp [ho]) _ x hx) w (by simp) rfl).le
    · exact htop older ho key v x hold hx

end Skaidb.Base
