import Mathlib.Data.List.Basic
import Mathlib.Data.List.Nodup

namespace Skaidb.Base

open List

variable {α : Type*} [DecidableEq α]

def distinct : List α → List α
  | [] => []
  | a :: rest => a :: (distinct rest).filter (fun b => b ≠ a)

def collectDistinct (want : Nat) : List α → List α → List α
  | out, [] => out
  | out, a :: rest =>
    if a ∈ out then collectDistinct want out rest
    else if out.length + 1 = want then out ++ [a]
    else collectDistinct want (out ++ [a]) rest

theorem mem_distinct {walk : List α} {a : α} : a ∈ distinct walk ↔ a ∈ walk := by
  induction walk with
  | nil => rfl
  | cons b rest ih =>
    by_cases hab : a = b
    · simp [distinct, hab]
    · simp [distinct, hab, ih]

theorem nodup_distinct {walk : List α} : (distinct walk).Nodup := by
  induction walk with
  | nil => exact nodup_nil
  | cons a rest ih =>
    refine nodup_cons.mpr ⟨?_, ih.filter _⟩
    simp

theorem distinct_filter {walk : List α} : distinct (walk.filter keep) = (distinct walk).filter keep := by
  induction walk with
  | nil => rfl
  | cons a rest ih =>
    cases hkeep : keep a with
    | true =>
      rw [filter_cons_of_pos hkeep, distinct, distinct, filter_cons_of_pos hkeep, ih,
        filter_filter, filter_filter]
      congr 1
      exact filter_congr (fun b _ => Bool.and_comm _ _)
    | false =>
      rw [filter_cons_of_neg (by simp [hkeep]), distinct,
        filter_cons_of_neg (by simp [hkeep]), ih, filter_filter]
      refine filter_congr ?_
      intro b _
      by_cases hba : b = a
      · simp [hba, hkeep]
      · simp [hba]

theorem collectDistinct_eq {out : List α} (h : out.length < want) :
    collectDistinct want out walk = (out ++ (distinct walk).filter (fun a => a ∉ out)).take want := by
  induction walk generalizing out with
  | nil =>
    rw [collectDistinct, distinct, filter_nil, append_nil, take_of_length_le (Nat.le_of_lt h)]
  | cons a rest ih =>
    rw [collectDistinct, distinct]
    by_cases ha : a ∈ out
    · rw [if_pos ha, ih h, filter_cons_of_neg (by simpa using ha), filter_filter]
      congr 2
      refine filter_congr ?_
      intro b _
      by_cases hba : b = a
      · simp [hba, ha]
      · simp [hba]
    · rw [if_neg ha, filter_cons_of_pos (by simpa using ha), append_cons out a
        (((distinct rest).filter (fun b => b ≠ a)).filter (fun a => a ∉ out))]
      split_ifs with hlast
      · rw [take_left' (by simpa using hlast)]
      · have hshort : (out ++ [a]).length < want := by
          rw [length_append, length_singleton]
          omega
        rw [ih hshort, filter_filter]
        congr 2
        refine filter_congr ?_
        intro b _
        simp [Bool.and_comm]

private theorem filter_ne_of_not_mem {l : List α} (h : a ∉ l) : l.filter (fun b => b ≠ a) = l :=
  filter_eq_self.mpr fun _ hb => decide_eq_true fun hba => h (hba ▸ hb)

-- The first elements of the order without `a`: at most one comes in, and only for `a`.
theorem take_filter_ne {order : List α} (h : order.Nodup) : (order.filter (fun b => b ≠ a)).take n =
      if a ∈ order.take n then (order.take n).filter (fun b => b ≠ a) ++ (order.drop n).take 1
      else order.take n := by
  have hsplit : order.filter (fun b => b ≠ a) =
      (order.take n).filter (fun b => b ≠ a) ++ (order.drop n).filter (fun b => b ≠ a) := by
    rw [← filter_append, take_append_drop]
  have hdisj : ∀ b ∈ order.take n, b ∉ order.drop n := by
    rw [← take_append_drop n order] at h
    exact fun b hb hd => (nodup_append.mp h).2.2 b hb b hd rfl
  have hnodup : (order.take n).Nodup := h.sublist (take_sublist _ _)
  split_ifs with ha
  · have hlen : ((order.take n).filter (fun b => b ≠ a)).length + 1 = (order.take n).length := by
      have herase : (order.take n).filter (fun b => b ≠ a) = (order.take n).erase a := by
        rw [hnodup.erase_eq_filter]
        exact filter_congr (fun b _ => by by_cases hb : b = a <;> simp [hb])
      rw [herase, length_erase_of_mem ha]
      have := length_pos_of_mem ha
      omega
    rw [hsplit, filter_ne_of_not_mem (hdisj a ha), take_append]
    rw [length_take] at hlen
    by_cases hn : n ≤ order.length
    · rw [Nat.min_eq_left hn] at hlen
      rw [take_of_length_le (by omega)]
      congr 2
      omega
    · rw [drop_eq_nil_of_le (by omega), take_nil, take_nil,
        take_of_length_le (by omega)]
  · rw [hsplit, filter_ne_of_not_mem ha, take_append, take_of_length_le (by rw [length_take]; omega)]
    by_cases hn : n ≤ order.length
    · simp [length_take, Nat.min_eq_left hn]
    · rw [drop_eq_nil_of_le (by omega)]
      simp

end Skaidb.Base
