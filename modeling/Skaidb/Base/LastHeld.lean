import Mathlib.Data.List.Sort
import Mathlib.Tactic.Common

namespace Skaidb.Base

open List

-- Lists of keyed elements in which a later one takes the place of an earlier one
-- with the same key.
section

variable {α κ : Type*} [LinearOrder κ] (key : α → κ)

-- The element that counts for a key: the last one that has it.
def lastHeld (xs : List α) (k : κ) : Option α := (xs.filter (fun x => key x = k)).getLast?

def sortByKey (xs : List α) : List α := xs.insertionSort (fun a b => key a ≤ key b)

def dedupByKey : List α → List α
  | [] => []
  | [x] => [x]
  | x :: y :: rest => if key x = key y then dedupByKey (y :: rest) else x :: dedupByKey (y :: rest)

def settle (xs : List α) : List α := dedupByKey key (sortByKey key xs)

-- Of neighbours with equal keys the first one stays; `last` is the key before the list.
def keepFirst (last : Option κ) : List α → List α
  | [] => []
  | x :: xs => if last = some (key x) then keepFirst last xs else x :: keepFirst (some (key x)) xs

variable {key}
variable {xs ys : List α}

@[simp] theorem lastHeld_nil : lastHeld key ([] : List α) k = none := rfl

theorem lastHeld_append : lastHeld key (xs ++ ys) k = (lastHeld key ys k).or (lastHeld key xs k) := by
  rw [lastHeld, filter_append, getLast?_append]
  rfl

theorem lastHeld_singleton : lastHeld key [x] k = if key x = k then some x else none := by
  rw [lastHeld, filter_cons]
  split_ifs with h h' h' <;> simp_all

theorem lastHeld_cons (x : α) (xs : List α) (k : κ) :
    lastHeld key (x :: xs) k = (lastHeld key xs k).or (if key x = k then some x else none) := by
  rw [← singleton_append, lastHeld_append, lastHeld_singleton]

theorem lastHeld_eq_none_iff : lastHeld key xs k = none ↔ ∀ x ∈ xs, key x ≠ k := by
  rw [lastHeld, getLast?_eq_none_iff, filter_eq_nil_iff]
  simp

theorem mem_of_lastHeld (h : lastHeld key xs k = some x) : x ∈ xs ∧ key x = k := by
  have hmem := mem_filter.mp (mem_of_getLast? h)
  exact ⟨hmem.1, by simpa using hmem.2⟩

theorem exists_lastHeld (key : α → κ) (h : x ∈ xs) : ∃ y, lastHeld key xs (key x) = some y := by
  cases hlast : lastHeld key xs (key x) with
  | none => exact absurd rfl (lastHeld_eq_none_iff.mp hlast x h)
  | some y => exact ⟨y, rfl⟩

theorem lastHeld_filter (p : κ → Bool) (xs : List α) (k : κ) :
    lastHeld key (xs.filter (fun x => p (key x))) k = if p k then lastHeld key xs k else none := by
  rw [lastHeld, filter_filter]
  split_ifs with hp
  · congr 1
    refine filter_congr fun x _ => ?_
    by_cases hx : key x = k <;> simp [hx, hp]
  · rw [getLast?_eq_none_iff, filter_eq_nil_iff]
    intro x _ hx
    simp only [Bool.and_eq_true, decide_eq_true_eq] at hx
    exact hp (hx.1 ▸ hx.2)

section Pieces

variable {β : Type*} {pieces : List β}

theorem lastHeld_flatMap_eq_none_iff :
    lastHeld key (pieces.flatMap f) k = none ↔ ∀ b ∈ pieces, lastHeld key (f b) k = none := by
  simp only [lastHeld_eq_none_iff, mem_flatMap]
  exact ⟨fun h b hb x hx => h x ⟨b, hb, hx⟩, fun h x ⟨b, hb, hx⟩ => h b hb x hx⟩

theorem lastHeld_flatMap_congr (h : ∀ b ∈ pieces, lastHeld key (f b) k = lastHeld key (g b) k) :
    lastHeld key (pieces.flatMap f) k = lastHeld key (pieces.flatMap g) k := by
  induction pieces with
  | nil => rfl
  | cons b pieces ih =>
    obtain ⟨hb, hpieces⟩ := forall_mem_cons.mp h
    rw [flatMap_cons, flatMap_cons, lastHeld_append, lastHeld_append, hb, ih hpieces]

theorem lastHeld_flatMap_filter (h : ∀ b ∈ pieces, p b = false → lastHeld key (f b) k = none) :
    lastHeld key ((pieces.filter p).flatMap f) k = lastHeld key (pieces.flatMap f) k := by
  induction pieces with
  | nil => rfl
  | cons b pieces ih =>
    obtain ⟨hb, hpieces⟩ := forall_mem_cons.mp h
    rw [flatMap_cons, lastHeld_append, ← ih hpieces]
    cases hp : p b with
    | false => rw [filter_cons_of_neg (by simp [hp]), hb hp, Option.or_none]
    | true => rw [filter_cons_of_pos hp, flatMap_cons, lastHeld_append]

end Pieces

section Sorting

theorem sortByKey_sorted : (sortByKey key xs).Pairwise (fun a b => key a ≤ key b) :=
  pairwise_insertionSort _ xs

theorem sortByKey_perm : (sortByKey key xs).Perm xs := perm_insertionSort _ xs

theorem mem_sortByKey : x ∈ sortByKey key xs ↔ x ∈ xs := sortByKey_perm.mem_iff

theorem filter_orderedInsert {xs : List α} :
    (xs.orderedInsert (fun a b => key a ≤ key b) x).filter (fun x => key x = k) =
      (x :: xs).filter (fun x => key x = k) := by
  induction xs with
  | nil => rfl
  | cons y xs ih =>
    by_cases hle : key x ≤ key y
    · rw [orderedInsert_cons_of_le (fun a b => key a ≤ key b) xs hle]
    · rw [orderedInsert_of_not_le (fun a b => key a ≤ key b) xs hle, filter_cons, ih, filter_cons, filter_cons,
        filter_cons]
      by_cases hx : key x = k
      · have hy : key y ≠ k := fun hy => hle (by rw [hx, hy])
        simp [hx, hy]
      · simp [hx]

theorem filter_sortByKey (xs : List α) (k : κ) :
    (sortByKey key xs).filter (fun x => key x = k) = xs.filter (fun x => key x = k) := by
  induction xs with
  | nil => rfl
  | cons x xs ih =>
    rw [sortByKey, insertionSort_cons, filter_orderedInsert, filter_cons, filter_cons]
    rw [sortByKey] at ih
    rw [ih]

theorem lastHeld_sortByKey : lastHeld key (sortByKey key xs) k = lastHeld key xs k := by
  rw [lastHeld, lastHeld, filter_sortByKey]

end Sorting

section Deduplication

theorem dedupByKey_subset : ∀ x ∈ dedupByKey key xs, x ∈ xs := by
  fun_induction dedupByKey key xs with
  | case1 | case2 x => simp
  | case3 x y rest heq ih => exact fun z hz => mem_cons_of_mem _ (ih z hz)
  | case4 x y rest hne ih =>
    intro z hz
    obtain rfl | hz := mem_cons.mp hz
    · exact mem_cons_self
    · exact mem_cons_of_mem _ (ih z hz)

theorem dedupByKey_sorted (h : xs.Pairwise (fun a b => key a ≤ key b)) :
    (dedupByKey key xs).Pairwise (fun a b => key a < key b) := by
  fun_induction dedupByKey key xs with
  | case1 => exact Pairwise.nil
  | case2 x => exact pairwise_singleton _ _
  | case3 x y rest heq ih => exact ih (pairwise_cons.mp h).2
  | case4 x y rest hne ih =>
    obtain ⟨hx, hrest⟩ := pairwise_cons.mp h
    refine pairwise_cons.mpr ⟨fun z hz => ?_, ih hrest⟩
    have hlt : key x < key y := lt_of_le_of_ne (hx y mem_cons_self) hne
    obtain rfl | hz := mem_cons.mp (dedupByKey_subset z hz)
    · exact hlt
    · exact hlt.trans_le ((pairwise_cons.mp hrest).1 z hz)

theorem lastHeld_dedupByKey : lastHeld key (dedupByKey key xs) k = lastHeld key xs k := by
  fun_induction dedupByKey key xs with
  | case1 | case2 x => rfl
  | case3 x y rest heq ih =>
    rw [ih, lastHeld_cons x]
    by_cases hx : key x = k
    · obtain ⟨z, hz⟩ := exists_lastHeld key (mem_cons_self : y ∈ y :: rest)
      rw [← heq, hx] at hz
      rw [hz]
      rfl
    · rw [if_neg hx, Option.or_none]
  | case4 x y rest hne ih => rw [lastHeld_cons, ih, ← lastHeld_cons]

end Deduplication

section Keeping

theorem keepFirst_subset (last : Option κ) (xs : List α) : keepFirst key last xs ⊆ xs := by
  induction xs generalizing last with
  | nil => exact Subset.refl _
  | cons x xs ih =>
    rw [keepFirst]
    split_ifs
    · exact Subset.trans (ih last) (subset_cons_self _ _)
    · exact cons_subset_cons _ (ih _)

theorem keepFirst_sorted (h : xs.Pairwise (fun a b => key a ≤ key b))
    (hlast : ∀ k ∈ last, ∀ x ∈ xs, k ≤ key x) : (keepFirst key last xs).Pairwise (fun a b => key a < key b) ∧
      ∀ k ∈ last, ∀ x ∈ keepFirst key last xs, k < key x := by
  induction xs generalizing last with
  | nil => exact ⟨Pairwise.nil, by simp [keepFirst]⟩
  | cons x xs ih =>
    obtain ⟨hx, hxs⟩ := pairwise_cons.mp h
    rw [keepFirst]
    split_ifs with heq
    · exact ih hxs fun k hk y hy => hlast k hk y (mem_cons_of_mem _ hy)
    · obtain ⟨hsorted, habove⟩ := @ih (some (key x)) hxs fun k hk y hy => by
        obtain rfl := Option.some.inj hk
        exact hx y hy
      refine ⟨pairwise_cons.mpr ⟨habove (key x) rfl, hsorted⟩, fun k hk => ?_⟩
      have hlt : k < key x :=
        lt_of_le_of_ne (hlast k hk x mem_cons_self) fun hkx => heq (hkx ▸ hk)
      exact forall_mem_cons.mpr ⟨hlt, fun y hy => hlt.trans (habove (key x) rfl y hy)⟩

theorem keepFirst_ne_nil (hne : xs ≠ []) : keepFirst key none xs ≠ [] := by
  cases xs with
  | nil => exact absurd rfl hne
  | cons x xs => simp [keepFirst]

end Keeping

section Settling

theorem settle_sorted : (settle key xs).Pairwise (fun a b => key a < key b) :=
  dedupByKey_sorted sortByKey_sorted

theorem lastHeld_settle : lastHeld key (settle key xs) k = lastHeld key xs k := by
  rw [settle, lastHeld_dedupByKey, lastHeld_sortByKey]

theorem eq_of_key_eq (h : xs.Pairwise (fun a b => key a < key b)) (hx : x ∈ xs) (hy : y ∈ xs)
    (heq : key x = key y) : x = y := by
  induction xs with
  | nil => cases hx
  | cons z xs ih =>
    obtain ⟨hz, hxs⟩ := pairwise_cons.mp h
    obtain rfl | hx := mem_cons.mp hx
    · obtain rfl | hy := mem_cons.mp hy
      · rfl
      · exact absurd heq (hz y hy).ne
    · obtain rfl | hy := mem_cons.mp hy
      · exact absurd heq.symm (hz x ‹x ∈ xs›).ne
      · exact ih hxs hx hy

theorem lastHeld_eq_some_iff (h : xs.Pairwise (fun a b => key a < key b)) :
    lastHeld key xs k = some x ↔ x ∈ xs ∧ key x = k := by
  refine ⟨mem_of_lastHeld, ?_⟩
  rintro ⟨hx, rfl⟩
  obtain ⟨y, hy⟩ := exists_lastHeld key hx
  obtain ⟨hmem, hkey⟩ := mem_of_lastHeld hy
  rw [hy, eq_of_key_eq h hmem hx hkey]

theorem eq_of_mem_iff_of_sorted (hx : xs.Pairwise (fun a b => key a < key b))
    (hy : ys.Pairwise (fun a b => key a < key b)) (h : ∀ a, a ∈ xs ↔ a ∈ ys) : xs = ys := by
  exact hx.eq_of_mem_iff hy h

theorem mem_settle : x ∈ settle key xs ↔ lastHeld key xs (key x) = some x := by
  rw [← lastHeld_settle, lastHeld_eq_some_iff settle_sorted]
  simp

end Settling

end

-- The one that is greatest in an order among those that have a value.
section

variable {β ν κ : Type*} [LinearOrder κ]

structure Tops (order : β → κ) (val : β → Option ν) (xs : List β) (b : β) : Prop where
  mem : b ∈ xs
  valued : val b ≠ none
  le : ∀ c ∈ xs, val c ≠ none → order c ≤ order b

variable {order : β → κ} {val : β → Option ν}

theorem Tops.of_mem_iff (h : Tops order val xs b) (hmem : ∀ c, c ∈ ys ↔ c ∈ xs) : Tops order val ys b :=
  ⟨(hmem b).mpr h.mem, h.valued, fun c hc => h.le c ((hmem c).mp hc)⟩

theorem Tops.append (h : Tops order val xs b) (hle : ∀ c ∈ ys, val c ≠ none → order c ≤ order b) :
    Tops order val (xs ++ ys) b := by
  refine ⟨mem_append_left _ h.mem, h.valued, fun c hc => ?_⟩
  obtain hc | hc := mem_append.mp hc
  · exact h.le c hc
  · exact hle c hc

theorem exists_tops (order : β → κ) (h : ∃ b ∈ xs, val b ≠ none) : ∃ b, Tops order val xs b := by
  induction xs with
  | nil => simp at h
  | cons x xs ih =>
    by_cases hxs : ∃ b ∈ xs, val b ≠ none
    · obtain ⟨b, hb⟩ := ih hxs
      by_cases hx : val x ≠ none ∧ order b ≤ order x
      · refine ⟨x, mem_cons_self, hx.1, fun c hc hval => ?_⟩
        obtain rfl | hc := mem_cons.mp hc
        · exact le_rfl
        · exact (hb.le c hc hval).trans hx.2
      · refine ⟨b, mem_cons_of_mem _ hb.mem, hb.valued, fun c hc hval => ?_⟩
        obtain rfl | hc := mem_cons.mp hc
        · exact le_of_lt (not_le.mp fun hle => hx ⟨hval, hle⟩)
        · exact hb.le c hc hval
    · obtain ⟨b, hb, hval⟩ := h
      obtain rfl | hb := mem_cons.mp hb
      · refine ⟨b, mem_cons_self, hval, fun c hc hc' => ?_⟩
        obtain rfl | hc := mem_cons.mp hc
        · exact le_rfl
        · exact absurd ⟨c, hc, hc'⟩ hxs
      · exact absurd ⟨b, hb, hval⟩ hxs

end

end Skaidb.Base
