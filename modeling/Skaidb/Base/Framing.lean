import Mathlib.Algebra.GroupWithZero.Nat
import Mathlib.Data.List.Basic

namespace Skaidb.Base

open List

-- A frame format over strings of symbols. A frame is recognised at the front
-- of a string from its own symbols alone, whatever follows them.
structure Framing (σ β : Type*) where
  head : List σ → Option β
  size : β → Nat
  size_pos : ∀ b, 0 < size b
  size_le : ∀ {xs b}, head xs = some b → size b ≤ xs.length
  head_congr : ∀ {xs b}, head xs = some b → ∀ ys, ys.take (size b) = xs.take (size b) →
    size b ≤ ys.length → head ys = some b

namespace Framing

variable {σ β : Type*} (F : Framing σ β)

def scan : Nat → Nat → List σ → List (Nat × β)
  | 0, _, _ => []
  | fuel + 1, pos, xs =>
    match F.head xs with
    | none => []
    | some b => (pos, b) :: scan fuel (pos + F.size b) (xs.drop (F.size b))

-- The frames of a string: each takes at least one symbol, so its length is
-- fuel enough.
def frames (pos : Nat) (xs : List σ) : List (Nat × β) := F.scan xs.length pos xs

def extent (xs : List σ) : Nat := ((F.frames 0 xs).map (fun f => F.size f.2)).sum

variable {F} {xs ys : List σ}

theorem head_nil : F.head ([] : List σ) = none := by
  cases hb : F.head ([]) with
  | none => rfl
  | some b => exact absurd (F.size_le hb) (by simpa using Nat.ne_of_gt (F.size_pos b))

theorem drop_length_lt (h : F.head xs = some b) : (xs.drop (F.size b)).length < xs.length := by
  have := F.size_pos b
  have := F.size_le h
  rw [length_drop]
  omega

theorem scan_of_length_le (h : xs.length ≤ fuel) (h' : xs.length ≤ fuel') (pos : Nat) :
    F.scan fuel pos xs = F.scan fuel' pos xs := by
  induction fuel generalizing fuel' pos xs with
  | zero =>
    have hxs : xs = [] := eq_nil_of_length_eq_zero (by omega)
    cases fuel' <;> simp [scan, hxs, head_nil]
  | succ fuel ih =>
    cases hb : F.head xs with
    | none => cases fuel' <;> simp [scan, hb]
    | some b =>
      have hlt := drop_length_lt hb
      cases fuel' with
      | zero => omega
      | succ fuel' =>
        simp only [scan, hb]
        exact congrArg _ (ih (by omega) (by omega) _)

theorem frames_of_head_none (h : F.head xs = none) : F.frames pos xs = [] := by
  unfold frames
  cases xs.length <;> simp [scan, h]

theorem frames_of_head_some (h : F.head xs = some b) (pos : Nat) :
    F.frames pos xs = (pos, b) :: F.frames (pos + F.size b) (xs.drop (F.size b)) := by
  have hlt := drop_length_lt h
  unfold frames
  obtain ⟨n, hn⟩ : ∃ n, xs.length = n + 1 := ⟨xs.length - 1, by omega⟩
  rw [hn]
  simp only [scan, h]
  exact congrArg _ (scan_of_length_le (by omega) (Nat.le_refl _) _)

theorem induction {motive : List σ → Prop} (none : ∀ xs, F.head xs = none → motive xs)
    (some : ∀ xs b, F.head xs = some b → motive (xs.drop (F.size b)) → motive xs)
    (xs : List σ) : motive xs := by
  induction hn : xs.length using Nat.strongRecOn generalizing xs with
  | _ n ih =>
    subst hn
    cases hb : F.head xs with
    | none => exact none xs hb
    | some b => exact some xs b hb (ih _ (drop_length_lt hb) _ rfl)

theorem map_snd_frames (xs : List σ) (pos pos' : Nat) :
    (F.frames pos xs).map Prod.snd = (F.frames pos' xs).map Prod.snd := by
  induction xs using F.induction generalizing pos pos' with
  | none xs h => simp [frames_of_head_none h]
  | some xs b h ih =>
    rw [frames_of_head_some h, frames_of_head_some h, map_cons, map_cons,
      ih _ (pos' + F.size b)]

theorem extent_of_head_none (h : F.head xs = none) : F.extent xs = 0 := by
  simp [extent, frames_of_head_none h]

theorem extent_of_head_some (h : F.head xs = some b) :
    F.extent xs = F.size b + F.extent (xs.drop (F.size b)) := by
  unfold extent
  rw [frames_of_head_some h, map_cons, sum_cons]
  congr 2
  have := congrArg (List.map F.size) (map_snd_frames (F := F) (xs.drop (F.size b)) (0 + F.size b) 0)
  simpa only [map_map, Function.comp_def] using this

theorem extent_eq_zero_iff : F.extent xs = 0 ↔ F.head xs = none := by
  cases hb : F.head xs with
  | none => simp [extent_of_head_none hb]
  | some b =>
    have := F.size_pos b
    rw [extent_of_head_some hb]
    simp only [reduceCtorEq, iff_false]
    omega

theorem extent_le_length (xs : List σ) : F.extent xs ≤ xs.length := by
  induction xs using F.induction with
  | none xs h => simp [extent_of_head_none h]
  | some xs b h ih =>
    have := F.size_le h
    rw [extent_of_head_some h]
    rw [length_drop] at ih
    omega

section Splice

theorem head_append (h : F.head xs = some b) : F.head (xs ++ ys) = some b := by
  have hle := F.size_le h
  refine F.head_congr h _ (take_append_of_le_length hle) ?_
  rw [length_append]
  omega

theorem frames_append (h : F.extent xs = xs.length) (pos : Nat) (ys : List σ) :
    F.frames pos (xs ++ ys) = F.frames pos xs ++ F.frames (pos + xs.length) ys := by
  induction xs using F.induction generalizing pos with
  | none xs hb =>
    have hxs : xs = [] := eq_nil_of_length_eq_zero (by rw [← h, extent_of_head_none hb])
    subst hxs
    simp [frames_of_head_none hb]
  | some xs b hb ih =>
    have hle := F.size_le hb
    have hfull : F.extent (xs.drop (F.size b)) = (xs.drop (F.size b)).length := by
      rw [extent_of_head_some hb] at h
      rw [length_drop]
      omega
    rw [frames_of_head_some (head_append hb), frames_of_head_some hb,
      drop_append_of_le_length hle, ih hfull, cons_append, length_drop]
    congr 3
    omega

theorem extent_append (h : F.extent xs = xs.length) {ys : List σ} :
    F.extent (xs ++ ys) = xs.length + F.extent ys := by
  unfold extent at h ⊢
  rw [frames_append h, map_append, sum_append, h]
  congr 1
  have := congrArg (List.map F.size) (map_snd_frames (F := F) ys (0 + xs.length) 0)
  simpa only [map_map, Function.comp_def] using congrArg List.sum this

theorem take_extent {xs : List σ} : F.extent (xs.take (F.extent xs)) = F.extent xs ∧
      ∀ pos, F.frames pos (xs.take (F.extent xs)) = F.frames pos xs := by
  induction xs using F.induction with
  | none xs h =>
    simp [extent_of_head_none h, extent_of_head_none head_nil, frames_of_head_none head_nil,
      frames_of_head_none h]
  | some xs b h ih =>
    have hext := extent_of_head_some h
    have hlen := extent_le_length (F := F) xs
    have hhead : F.head (xs.take (F.extent xs)) = some b := by
      refine F.head_congr h _ ?_ ?_
      · rw [take_take, Nat.min_eq_left (by omega)]
      · rw [length_take]
        omega
    have hdrop : (xs.take (F.extent xs)).drop (F.size b) =
        (xs.drop (F.size b)).take (F.extent (xs.drop (F.size b))) := by
      rw [drop_take, hext, Nat.add_sub_cancel_left]
    refine ⟨?_, fun pos => ?_⟩
    · rw [extent_of_head_some hhead, hdrop, ih.1, hext]
    · rw [frames_of_head_some hhead, frames_of_head_some h, hdrop, ih.2]

end Splice

end Framing

end Skaidb.Base
