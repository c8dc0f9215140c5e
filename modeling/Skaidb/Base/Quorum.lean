import Mathlib.Data.Finset.Card
import Mathlib.Data.Multiset.UnionInter
import Mathlib.Data.List.Perm.Subperm
import Mathlib.Tactic.Common

namespace Skaidb.Base

open List Finset

-- Counting over a list of members. A list of answers is taken as a multiset, so
-- that a member listed twice may answer twice.

variable {α : Type*}

theorem exists_mem_of_subperm_of_length_lt [DecidableEq α] {members xs ys : List α}
    (hx : xs.Subperm members) (hy : ys.Subperm members)
    (h : members.length < xs.length + ys.length) : ∃ a ∈ xs, a ∈ ys := by
  by_contra hno
  have hdisj : Disjoint (xs : Multiset α) (ys : Multiset α) := by
    rw [Multiset.disjoint_left]
    intro a ha ha'
    exact hno ⟨a, by simpa using ha, by simpa using ha'⟩
  have hle : (xs : Multiset α) + (ys : Multiset α) ≤ (members : Multiset α) := by
    rw [Multiset.add_eq_union_iff_disjoint.mpr hdisj]
    exact Multiset.union_le (Multiset.coe_le.mpr hx) (Multiset.coe_le.mpr hy)
  have hcard := Multiset.card_le_card hle
  simp only [Multiset.card_add, Multiset.coe_card] at hcard
  omega

section Groups

variable [DecidableEq α] {P R F A B : Finset α}

-- A group within `P` with `F` in it and a group within `R` with `w` in it have a member in
-- common when one of them must take in the other's member or there are too few for both.
theorem exists_common
    (h : w ∈ F ∨ (P.erase w).card < a ∨ (R \ F).card < b ∨ (P ∪ R).card < a + b) (hAP : A ⊆ P) (hFA : F ⊆ A)
    (hA : a ≤ A.card) (hBR : B ⊆ R) (hw : w ∈ B) (hB : b ≤ B.card) : ∃ n ∈ A, n ∈ B := by
  by_contra hno
  have hdisj : ∀ n ∈ A, n ∉ B := fun n hn hn' => hno ⟨n, hn, hn'⟩
  rcases h with hF | hP | hR | hboth
  · exact hdisj w (hFA hF) hw
  · have hsub : A ⊆ P.erase w := fun n hn =>
      mem_erase.mpr ⟨fun heq => hdisj n hn (heq ▸ hw), hAP hn⟩
    have := card_le_card hsub
    omega
  · have hsub : B ⊆ R \ F := fun n hn => mem_sdiff.mpr ⟨hBR hn, fun hF => hdisj n (hFA hF) hn⟩
    have := card_le_card hsub
    omega
  · have hcard := card_union_of_disjoint (disjoint_left.mpr hdisj)
    have := card_le_card (union_subset_union hAP hBR)
    omega

-- Two disjoint groups can be chosen, one of `a` nodes with `F` in it and one of `b` with `w`
-- in it, when neither runs short and there are enough nodes for both.
theorem exists_apart (hF : F ⊆ P.erase w) (hFa : F.card ≤ a)
    (hw : w ∈ R) (ha : a ≤ (P.erase w).card) (hb : b ≤ (R \ F).card) (hab : a + b ≤ (P ∪ R).card) :
    ∃ A, F ⊆ A ∧ A ⊆ P.erase w ∧ A.card = a ∧ b ≤ (R \ A).card := by
  have hS : F ∪ (P.erase w \ R) ⊆ P.erase w := union_subset hF sdiff_subset
  rcases Nat.le_total a (F ∪ (P.erase w \ R)).card with hle | hle
  · -- enough nodes outside `R`
    obtain ⟨A, hFA, hAS, hA⟩ := exists_subsuperset_card_eq subset_union_left hFa hle
    refine ⟨A, hFA, hAS.trans hS, hA, hb.trans (card_le_card ?_)⟩
    intro x hx
    obtain ⟨hxR, hxF⟩ := mem_sdiff.mp hx
    refine mem_sdiff.mpr ⟨hxR, fun hxA => ?_⟩
    rcases mem_union.mp (hAS hxA) with hx | hx
    · exact hxF hx
    · exact (mem_sdiff.mp hx).2 hxR
  · obtain ⟨A, hSA, hAP, hA⟩ := exists_subsuperset_card_eq hS hle ha
    refine ⟨A, subset_union_left.trans hSA, hAP, hA, ?_⟩
    have hcover : P ∪ R ⊆ A ∪ (R \ A) := by
      intro x hx
      by_cases hxR : x ∈ R
      · simp [hxR]
      · have hxP : x ∈ P := (mem_union.mp hx).resolve_right hxR
        have hne : x ≠ w := fun heq => hxR (heq ▸ hw)
        exact mem_union_left _ (hSA (by simp [hxP, hxR, hne]))
    have hcard := (card_le_card hcover).trans (card_union_le A (R \ A))
    omega

end Groups

theorem append_subperm_of_sublist_filter [DecidableEq α] {members mine others : List α}
    (hmine : mine.Sublist [me]) (hmem : mine ≠ [] → me ∈ members)
    (hothers : others.Sublist (members.filter (fun a => a ≠ me))) : (mine ++ others).Subperm members := by
  have hme : mine.Subperm (members.filter (fun a => decide (a = me))) := by
    by_cases hnil : mine = []
    · rw [hnil]
      exact nil_subperm
    · have hin : me ∈ members.filter (fun a => decide (a = me)) := by simp [hmem hnil]
      exact hmine.subperm.trans (singleton_subperm_iff.mpr hin)
  have hsplit : (members.filter (fun a => decide (a = me)) ++
      members.filter (fun a => !decide (a = me))).Perm members :=
    filter_append_perm _ members
  have hothers' : others.Sublist (members.filter (fun a => !decide (a = me))) := by
    simpa using hothers
  exact (hme.append hothers'.subperm).trans hsplit.subperm

def majority (n : Nat) : Nat := max n 1 / 2 + 1

theorem majority_le_length {members : List α} (h : members ≠ []) : majority members.length ≤ members.length := by
  have hpos := length_pos_of_ne_nil h
  unfold majority
  omega

def Covers (members : List α) (holds : α → Bool) : Prop :=
  members.countP (fun a => !holds a) < majority members.length
deriving Decidable

def Quorate (members : List α) (holds : α → Bool) : Prop := majority members.length ≤ members.countP holds

section Covers

variable {members others : List α}

private theorem countP_add_countP_not (members : List α) (holds : α → Bool) :
    members.length = members.countP holds + members.countP (fun a => !holds a) := by
  rw [length_eq_countP_add_countP holds]
  congr 1
  exact countP_congr (fun a _ => by cases holds a <;> simp)

theorem quorate_of_holders {holders : List α} (hsub : holders.Subperm members)
    (hlen : majority members.length ≤ holders.length) (hholds : ∀ a ∈ holders, holds a = true) :
    Quorate members holds := by
  have hall : holders.countP holds = holders.length := countP_eq_length.mpr hholds
  have hle := hsub.countP_le holds
  unfold Quorate
  omega

theorem Covers.exists_mem (h : Covers members holds) {heard : List α} (hheard : heard.Subperm members)
    (hlen : majority members.length ≤ heard.length) : ∃ a ∈ heard, holds a = true := by
  by_contra hno
  have hall : heard.countP (fun a => !holds a) = heard.length := by
    refine countP_eq_length.mpr ?_
    intro a ha
    by_contra hheld
    exact hno ⟨a, ha, by simpa using hheld⟩
  have hle := hheard.countP_le (fun a => !holds a)
  unfold Covers at h
  omega

theorem Quorate.covers (h : Quorate members holds) : Covers members holds := by
  have hsplit := countP_add_countP_not members holds
  unfold Quorate at h
  unfold Covers
  unfold majority at h ⊢
  omega

variable {extra : List α}

-- What a majority of one list holds is covered in another, if the two together have fewer
-- members than their majorities.
theorem Quorate.covers_other [DecidableEq α] (h : Quorate members holds)
    (hfew : ((members : Multiset α) ∪ (others : Multiset α)).card < majority members.length + majority others.length) :
    Covers others holds := by
  obtain ⟨both, heq⟩ : ∃ both : List α, (both : Multiset α) = (members : Multiset α) ∪ (others : Multiset α) :=
    Quot.exists_rep _
  have hmembers : members.Subperm both := by
    rw [← Multiset.coe_le, heq]
    exact Multiset.le_union_left
  have hothers : others.Subperm both := by
    rw [← Multiset.coe_le, heq]
    exact Multiset.le_union_right
  have hholding := hmembers.countP_le holds
  have hlacking := hothers.countP_le (fun a => !holds a)
  have hsplit := countP_add_countP_not both holds
  rw [← heq, Multiset.coe_card] at hfew
  unfold Quorate at h
  unfold Covers
  omega

theorem covers_of_all (h : ∀ a ∈ members, holds a = true) : Covers members holds := by
  have hnone : members.countP (fun a => !holds a) = 0 := countP_eq_zero.mpr (fun a ha => by simp [h a ha])
  unfold Covers majority
  omega

theorem Covers.mono (h : Covers members holds) (hle : ∀ a ∈ members, holds a = true → holds' a = true) :
    Covers members holds' := by
  refine lt_of_le_of_lt (countP_mono_left ?_) h
  intro a ha hnot
  cases hheld : holds a with
  | true => simp [hle a ha hheld] at hnot
  | false => rfl

theorem Covers.perm (h : Covers members holds) (hperm : others.Perm members) : Covers others holds := by
  unfold Covers at h ⊢
  rw [hperm.countP_eq, hperm.length_eq]
  exact h

section Replace

variable [DecidableEq α]

private theorem countP_filter_ne (hnodup : members.Nodup) (hx : x ∈ members) (p : α → Bool) :
    (members.filter (fun a => a ≠ x)).countP p + (if p x then 1 else 0) = members.countP p := by
  have hperm : members.Perm (x :: members.filter (fun a => a ≠ x)) := by
    have herase : members.erase x = members.filter (fun a => a ≠ x) := by
      rw [hnodup.erase_eq_filter]
      exact filter_congr (fun a _ => by by_cases ha : a = x <;> simp [ha])
    rw [← herase]
    exact perm_cons_erase hx
  rw [hperm.countP_eq, countP_cons]

private theorem length_filter_ne (hnodup : members.Nodup) (hx : x ∈ members) :
    (members.filter (fun a => a ≠ x)).length + 1 = members.length := by
  have h := countP_filter_ne hnodup hx (fun _ => true)
  simpa using h

theorem Covers.without (h : Covers members holds) (hnodup : members.Nodup) (hx : x ∈ members)
    (hlacks : holds x = false) (hextra : extra.length ≤ 1) :
    Covers (members.filter (fun a => a ≠ x) ++ extra) holds := by
  have hcount := countP_filter_ne hnodup hx (fun a => !holds a)
  have hlen := length_filter_ne hnodup hx
  have hle : extra.countP (fun a => !holds a) ≤ extra.length := countP_le_length
  rw [hlacks] at hcount
  unfold Covers majority at h ⊢
  rw [countP_append, length_append]
  simp only [Bool.not_false, if_true] at hcount
  omega

theorem Covers.replace (h : Covers members holds) (hnodup : members.Nodup) (hx : x ∈ members)
    (hy : holds y = true) : Covers (members.filter (fun a => a ≠ x) ++ [y]) holds := by
  have hcount := countP_filter_ne hnodup hx (fun a => !holds a)
  have hlen := length_filter_ne hnodup hx
  unfold Covers majority at h ⊢
  rw [countP_append, length_append]
  rw [countP_singleton, hy, length_singleton, if_neg (by decide)]
  split at hcount <;> omega

end Replace

end Covers

end Skaidb.Base
