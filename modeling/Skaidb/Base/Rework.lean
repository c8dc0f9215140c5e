import Mathlib.Logic.Relation
import Skaidb.Base.Layers

namespace Skaidb.Base

open List

variable {κ σ ν : Type*} [LinearOrder σ]

-- Background work on a stack of layers: blank layers come and go anywhere, and a contiguous
-- block is replaced by its merge, without dead versions only if no layer lies behind it.

def Blank (layer : Layer κ σ ν) : Prop := ∀ key, layer key = none

inductive Rework (dead : σ × ν → Prop) : List (Layer κ σ ν) → List (Layer κ σ ν) → Prop
  | blankIn (front back : List (Layer κ σ ν)) (layer : Layer κ σ ν) (blank : Blank layer) :
      Rework dead (front ++ back) (front ++ layer :: back)
  | blankOut (front back : List (Layer κ σ ν)) (layer : Layer κ σ ν) (blank : Blank layer) :
      Rework dead (front ++ layer :: back) (front ++ back)
  | merge (front block back : List (Layer κ σ ν)) (merged : Layer κ σ ν)
      (thins : Thins dead (newest block) merged) (last : back = [] ∨ merged = newest block) :
      Rework dead (front ++ block ++ back) (front ++ merged :: back)

abbrev Reworks (dead : σ × ν → Prop) :
    List (Layer κ σ ν) → List (Layer κ σ ν) → Prop :=
  Relation.ReflTransGen (Rework dead)

variable {stack stack' : List (Layer κ σ ν)}

theorem Rework.prepend (h : Rework dead stack stack') (top : List (Layer κ σ ν)) :
    Rework dead (top ++ stack) (top ++ stack') := by
  cases h with
  | blankIn front back layer blank =>
    simpa only [append_assoc] using Rework.blankIn (top ++ front) back layer blank
  | blankOut front back layer blank =>
    simpa only [append_assoc] using Rework.blankOut (top ++ front) back layer blank
  | merge front block back merged thins last =>
    simpa only [append_assoc] using
      Rework.merge (top ++ front) block back merged thins last

theorem Reworks.blanksIn (dead : σ × ν → Prop) (front blanks back : List (Layer κ σ ν))
    (h : ∀ layer ∈ blanks, Blank layer) : Reworks dead (front ++ back) (front ++ blanks ++ back) := by
  induction blanks generalizing front with
  | nil => simpa using Relation.ReflTransGen.refl
  | cons layer blanks ih =>
    have hfirst : Rework dead (front ++ back) (front ++ layer :: back) :=
      .blankIn front back layer (h layer (by simp))
    have hrest := ih (front ++ [layer]) (fun l hl => h l (by simp [hl]))
    refine Relation.ReflTransGen.head hfirst ?_
    simpa only [append_assoc, cons_append, nil_append] using hrest

theorem Reworks.blanksOut (dead : σ × ν → Prop) (front blanks back : List (Layer κ σ ν))
    (h : ∀ layer ∈ blanks, Blank layer) : Reworks dead (front ++ blanks ++ back) (front ++ back) := by
  induction blanks with
  | nil => simpa using Relation.ReflTransGen.refl
  | cons layer blanks ih =>
    have hfirst : Rework dead (front ++ layer :: (blanks ++ back)) (front ++ (blanks ++ back)) :=
      .blankOut front (blanks ++ back) layer (h layer (by simp))
    have hrest := ih (fun l hl => h l (by simp [hl]))
    refine Relation.ReflTransGen.head (by simpa using hfirst) ?_
    simpa only [append_assoc] using hrest

theorem newest_blank_block {block : List (Layer κ σ ν)} (h : ∀ layer ∈ block, Blank layer) : newest block key = none :=
  newest_eq_none (fun layer hl => h layer hl key)

variable {layer : Layer κ σ ν}

theorem Rework.version_mem (h : Rework dead stack stack') (hl : layer ∈ stack') (hv : layer key = some v) :
    ∃ source ∈ stack, source key = some v := by
  cases h with
  | blankIn front back blank hblank =>
    obtain hl | hl := mem_append.mp hl
    · exact ⟨layer, by simp [hl], hv⟩
    · obtain rfl | hl := mem_cons.mp hl
      · rw [hblank key] at hv
        cases hv
      · exact ⟨layer, by simp [hl], hv⟩
  | blankOut front back blank hblank =>
    obtain hl | hl := mem_append.mp hl
    · exact ⟨layer, by simp [hl], hv⟩
    · exact ⟨layer, by simp [hl], hv⟩
  | merge front block back merged thins last =>
    obtain hl | hl := mem_append.mp hl
    · exact ⟨layer, by simp [hl], hv⟩
    · obtain rfl | hl := mem_cons.mp hl
      · obtain ⟨source, hs, hsv⟩ := exists_of_newest_eq_some (thins.eq_some hv)
        exact ⟨source, by simp [hs], hsv⟩
      · exact ⟨layer, by simp [hl], hv⟩

theorem Reworks.version_mem (h : Reworks dead stack stack') (hl : layer ∈ stack') (hv : layer key = some v) :
    ∃ source ∈ stack, source key = some v := by
  induction h generalizing layer with
  | refl => exact ⟨layer, hl, hv⟩
  | tail _ hstep ih =>
    obtain ⟨source, hs, hsv⟩ := hstep.version_mem hl hv
    exact ih hs hsv

omit [LinearOrder σ] in
private theorem firstHit_blank (h : Blank layer) : firstHit (front ++ layer :: back) = firstHit (front ++ back) := by
  funext key
  rw [firstHit_append, firstHit_cons, h key, firstHit_append, Option.none_or]

private theorem descending_blank {front back : List (Layer κ σ ν)}
    (h : Blank layer) : Descending (front ++ layer :: back) ↔ Descending (front ++ back) := by
  have hleft : ∀ other : Layer κ σ ν, ∀ key v w,
      layer key = some v → other key = some w → w.1 ≤ v.1 := by
    intro other key v w hv
    rw [h key] at hv
    cases hv
  have hright : ∀ other : Layer κ σ ν, ∀ key v w,
      other key = some v → layer key = some w → w.1 ≤ v.1 := by
    intro other key v w _ hw
    rw [h key] at hw
    cases hw
  unfold Descending
  simp only [pairwise_append, pairwise_cons, mem_cons, forall_eq_or_imp]
  constructor
  · rintro ⟨hf, ⟨-, hb⟩, hcross⟩
    exact ⟨hf, hb, fun a ha => (hcross a ha).2⟩
  · rintro ⟨hf, hb, hcross⟩
    exact ⟨hf, ⟨fun b _ => hleft b, hb⟩, fun a ha => ⟨hright a, hcross a ha⟩⟩

private theorem descending_merge {front block back : List (Layer κ σ ν)}
    (thins : Thins dead (newest block) merged) (hd : Descending (front ++ block ++ back)) :
    Descending (front ++ merged :: back) := by
  -- A version of the merged layer is a version of some layer of the block.
  have hsource : ∀ key v, merged key = some v → ∃ layer ∈ block, layer key = some v :=
    fun key v hv => exists_of_newest_eq_some (thins.eq_some hv)
  obtain ⟨hfb, hback, hcross⟩ := pairwise_append.mp hd
  obtain ⟨hfront, -, hfrontblock⟩ := pairwise_append.mp hfb
  refine pairwise_append.mpr ⟨hfront, pairwise_cons.mpr ⟨?_, hback⟩, ?_⟩
  · intro older ho key v w hv hw
    obtain ⟨layer, hl, hlv⟩ := hsource key v hv
    exact hcross layer (by simp [hl]) older ho key v w hlv hw
  · intro newer hn older ho key v w hv hw
    obtain rfl | ho := mem_cons.mp ho
    · obtain ⟨layer, hl, hlw⟩ := hsource key w hw
      exact hfrontblock newer hn layer hl key v w hv hlw
    · exact hcross newer (by simp [hn]) older ho key v w hv hw

theorem Rework.descending (h : Rework dead stack stack') (hd : Descending stack) : Descending stack' := by
  cases h with
  | blankIn front back layer blank => exact (descending_blank blank).mpr hd
  | blankOut front back layer blank => exact (descending_blank blank).mp hd
  | merge front block back merged thins last => exact descending_merge thins hd

theorem Reworks.descending (h : Reworks dead stack stack') (hd : Descending stack) : Descending stack' := by
  induction h with
  | refl => exact hd
  | tail _ hstep ih => exact hstep.descending ih

-- On a descending stack a read after the rework differs at most by a dead
-- version that is no longer there.
theorem Rework.firstHit_thins (h : Rework dead stack stack') (hd : Descending stack) :
    Thins dead (firstHit stack) (firstHit stack') := by
  cases h with
  | blankIn front back layer blank =>
    rw [firstHit_blank blank]
    exact Thins.refl dead _
  | blankOut front back layer blank =>
    rw [firstHit_blank blank]
    exact Thins.refl dead _
  | merge front block back merged thins last =>
    have hblock : newest block = firstHit block := by
      have hdb : Descending block :=
        ((pairwise_append.mp (pairwise_append.mp hd).1).2).1
      exact funext (newest_eq_firstHit hdb)
    rw [hblock] at thins last
    have hfull : firstHit (front ++ block ++ back) =
        fun key => (firstHit front key).or ((firstHit block key).or (firstHit back key)) := by
      funext key
      rw [firstHit_append, firstHit_append, Option.or_assoc]
    have hthin : firstHit (front ++ merged :: back) =
        fun key => (firstHit front key).or ((merged key).or (firstHit back key)) := by
      funext key
      rw [firstHit_append, firstHit_cons]
    rw [hfull, hthin]
    apply Thins.prepend
    obtain rfl | hm := last
    · simpa using thins
    · rw [hm]
      exact Thins.refl dead _

theorem Reworks.firstHit_thins (h : Reworks dead stack stack') (hd : Descending stack) :
    Thins dead (firstHit stack) (firstHit stack') := by
  induction h with
  | refl => exact Thins.refl dead _
  | tail hprev hstep ih => exact ih.trans (hstep.firstHit_thins (Reworks.descending hprev hd))

section At

variable [DecidableEq κ] {dead : σ × ν → Prop} {stack stack' : List (Layer κ σ ν)}

def Layer.only (key : κ) (layer : Layer κ σ ν) : Layer κ σ ν := fun k => if k = key then layer k else none

def DescendingAt (key : κ) (layers : List (Layer κ σ ν)) : Prop :=
  layers.Pairwise (fun newer older => ∀ v w, newer key = some v → older key = some w → w.1 ≤ v.1)

omit [LinearOrder σ] in
theorem Layer.only_self (layer : Layer κ σ ν) : layer.only key key = layer key := if_pos rfl

omit [LinearOrder σ] in
theorem firstHit_only {layers : List (Layer κ σ ν)} :
    firstHit (layers.map (Layer.only key)) key = firstHit layers key := by
  rw [firstHit, findSome?_map, firstHit]
  simp only [Function.comp_def, Layer.only_self]

theorem newest_only {layers : List (Layer κ σ ν)} :
    newest (layers.map (Layer.only key)) = Layer.only key (newest layers) := by
  funext k
  by_cases hk : k = key
  · subst hk
    rw [Layer.only_self]
    refine newest_congr ?_
    rw [map_map]
    exact map_congr_left (fun layer _ => layer.only_self)
  · refine Eq.trans ?_ (if_neg hk).symm
    refine newest_eq_none ?_
    intro layer hl
    obtain ⟨source, -, rfl⟩ := mem_map.mp hl
    exact if_neg hk

theorem descending_only : Descending (stack.map (Layer.only key)) ↔ DescendingAt key stack := by
  rw [Descending, DescendingAt, pairwise_map]
  refine Pairwise.iff ?_
  intro newer older
  constructor
  · intro h v w hv hw
    exact h key v w (by rw [Layer.only_self, hv]) (by rw [Layer.only_self, hw])
  · intro h k v w hv hw
    rw [Layer.only] at hv hw
    split_ifs at hv hw with hk
    exact h v w (hk ▸ hv) (hk ▸ hw)

theorem Rework.only (h : Rework dead stack stack') (key : κ) :
    Rework dead (stack.map (Layer.only key)) (stack'.map (Layer.only key)) := by
  have hblank : ∀ layer : Layer κ σ ν, Blank layer → Blank (layer.only key) := by
    intro layer hb k
    rw [Layer.only, hb k, ite_self]
  cases h with
  | blankIn front back layer blank =>
    simpa using Rework.blankIn (front.map (Layer.only key)) (back.map (Layer.only key)) _ (hblank layer blank)
  | blankOut front back layer blank =>
    simpa using Rework.blankOut (front.map (Layer.only key)) (back.map (Layer.only key)) _ (hblank layer blank)
  | merge front block back merged thins last =>
    have hthins : Thins dead (newest (block.map (Layer.only key))) (merged.only key) := by
      rw [newest_only]
      intro k
      by_cases hk : k = key
      · subst hk
        simpa only [Layer.only_self] using thins k
      · exact .inl ((if_neg hk).trans (if_neg hk).symm)
    have hlast : back.map (Layer.only key) = [] ∨ merged.only key = newest (block.map (Layer.only key)) := by
      obtain rfl | rfl := last
      · exact .inl rfl
      · exact .inr newest_only.symm
    simpa using Rework.merge (front.map (Layer.only key)) (block.map (Layer.only key))
      (back.map (Layer.only key)) _ hthins hlast

section

variable (h : Reworks dead stack stack')

include h

theorem Reworks.only (key : κ) : Reworks dead (stack.map (Layer.only key)) (stack'.map (Layer.only key)) :=
  h.lift (List.map (Layer.only key)) (fun _ _ hr => hr.only key)

theorem Reworks.descendingAt (hd : DescendingAt key stack) : DescendingAt key stack' :=
  descending_only.mp ((h.only key).descending (descending_only.mpr hd))

theorem Reworks.firstHit_at (hd : DescendingAt key stack) : firstHit stack' key = firstHit stack key ∨
      (firstHit stack' key = none ∧ ∃ v, firstHit stack key = some v ∧ dead v) := by
  have hthins := (h.only key).firstHit_thins (descending_only.mpr hd) key
  rwa [firstHit_only, firstHit_only] at hthins

end

end At

end Skaidb.Base
