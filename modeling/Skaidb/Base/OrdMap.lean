import Mathlib.Order.Lattice
import Mathlib.Data.List.Pairwise
import Mathlib.Tactic.Common

namespace Skaidb.Base

open List Option

-- A finite map as the list of its entries in key order, the view every
-- iterator of an ordered map gives.
structure OrdMap (κ ν : Type*) [LinearOrder κ] where
  entries : List (κ × ν)
  sorted : entries.Pairwise (fun a b => a.1 < b.1)

namespace OrdMap

variable {κ ν : Type*} [LinearOrder κ]

instance [DecidableEq ν] : DecidableEq (OrdMap κ ν) := fun a b =>
  decidable_of_iff (a.entries = b.entries) (by cases a; cases b; simp)

instance : Inhabited (OrdMap κ ν) := ⟨⟨[], List.Pairwise.nil⟩⟩

def empty : OrdMap κ ν := ⟨[], List.Pairwise.nil⟩

def lookup : List (κ × ν) → κ → Option ν
  | [], _ => none
  | (k, v) :: rest, key => if key = k then some v else lookup rest key

@[simp] theorem lookup_nil : lookup ([] : List (κ × ν)) key = none := rfl

theorem lookup_cons (e : κ × ν) (rest : List (κ × ν)) (key : κ) :
    lookup (e :: rest) key = if key = e.1 then some e.2 else lookup rest key := rfl

theorem lookup_cons_self {e : κ × ν} {rest : List (κ × ν)} : lookup (e :: rest) e.1 = some e.2 := by
  rw [lookup_cons, if_pos rfl]

theorem lookup_cons_of_ne (h : key ≠ e.1) {rest : List (κ × ν)} : lookup (e :: rest) key = lookup rest key := by
  rw [lookup_cons, if_neg h]

variable (m : OrdMap κ ν)

def get? (key : κ) : Option ν := lookup m.entries key

def insertEntry (key : κ) (value : ν) : List (κ × ν) → List (κ × ν)
  | [] => [(key, value)]
  | (k, v) :: rest =>
    if key < k then (key, value) :: (k, v) :: rest
    else if key = k then (key, value) :: rest
    else (k, v) :: insertEntry key value rest

theorem mem_insertEntry (key : κ) (value : ν) (entries : List (κ × ν)) (e : κ × ν)
    (he : e ∈ insertEntry key value entries) : e = (key, value) ∨ e ∈ entries := by
  induction entries with
  | nil => simpa [insertEntry] using he
  | cons head rest ih =>
    simp only [insertEntry] at he
    split_ifs at he with hlt heq
    · simpa using he
    · simp only [mem_cons] at he ⊢
      tauto
    · simp only [mem_cons] at he ⊢
      obtain he | he := he
      · exact .inr (.inl he)
      · obtain h | h := ih he
        · exact .inl h
        · exact .inr (.inr h)

theorem insertEntry_sorted {entries : List (κ × ν)} (hs : entries.Pairwise (fun a b => a.1 < b.1)) :
    (insertEntry key value entries).Pairwise (fun a b => a.1 < b.1) := by
  induction entries with
  | nil => simp [insertEntry]
  | cons head rest ih =>
    obtain ⟨hhead, hrest⟩ := pairwise_cons.mp hs
    simp only [insertEntry]
    split_ifs with hlt heq
    · refine pairwise_cons.mpr ⟨?_, hs⟩
      intro e he
      obtain rfl | he := mem_cons.mp he
      · exact hlt
      · exact hlt.trans (hhead e he)
    · subst heq
      exact pairwise_cons.mpr ⟨hhead, hrest⟩
    · refine pairwise_cons.mpr ⟨?_, ih hrest⟩
      intro e he
      obtain rfl | he := mem_insertEntry key value rest e he
      · exact lt_of_le_of_ne (not_lt.mp hlt) (Ne.symm heq)
      · exact hhead e he

def insert (key : κ) (value : ν) : OrdMap κ ν :=
  ⟨insertEntry key value m.entries, insertEntry_sorted m.sorted⟩

def filter (keep : κ × ν → Bool) : OrdMap κ ν :=
  ⟨m.entries.filter keep, m.sorted.filter keep⟩

def erase (key : κ) : OrdMap κ ν := m.filter (fun e => e.1 ≠ key)

theorem lookup_eq_some_iff {entries : List (κ × ν)} (hs : entries.Pairwise (fun a b => a.1 < b.1)) :
    lookup entries key = some value ↔ (key, value) ∈ entries := by
  induction entries with
  | nil => simp
  | cons head rest ih =>
    obtain ⟨k, v⟩ := head
    obtain ⟨hhead, hrest⟩ := pairwise_cons.mp hs
    by_cases hk : key = k
    · subst hk
      have hnot : (key, value) ∉ rest := fun hm => lt_irrefl _ (hhead (key, value) hm)
      simp [lookup_cons, hnot, eq_comm]
    · simp [lookup_cons, ih hrest, hk]

theorem lookup_eq_none_iff {entries : List (κ × ν)} {key : κ} :
    lookup entries key = none ↔ ∀ e ∈ entries, e.1 ≠ key := by
  induction entries with
  | nil => simp
  | cons head rest ih =>
    obtain ⟨k, v⟩ := head
    by_cases hk : key = k
    · simp [lookup_cons, hk]
    · simp [lookup_cons, hk, ih, Ne.symm hk]

theorem mem_of_lookup {entries : List (κ × ν)} (h : lookup entries key = some value) :
    (key, value) ∈ entries := by
  induction entries with
  | nil => simp at h
  | cons head rest ih =>
    rw [lookup_cons] at h
    split_ifs at h with hk
    · rw [hk, ← Option.some.inj h]
      exact mem_cons_self
    · exact mem_cons_of_mem _ (ih h)

variable (m : OrdMap κ ν)

theorem get?_eq_some_iff : m.get? key = some value ↔ (key, value) ∈ m.entries :=
  lookup_eq_some_iff m.sorted

@[simp] theorem get?_empty : (empty : OrdMap κ ν).get? key = none := rfl

theorem lookup_insertEntry (key : κ) (value : ν) (entries : List (κ × ν)) (other : κ) :
    lookup (insertEntry key value entries) other =
      if other = key then some value else lookup entries other := by
  induction entries with
  | nil => simp [insertEntry, lookup_cons]
  | cons head rest ih =>
    obtain ⟨k, v⟩ := head
    rw [insertEntry]
    by_cases hlt : key < k
    · rw [if_pos hlt, lookup_cons]
    by_cases heq : key = k
    · subst heq
      rw [if_neg hlt, if_pos rfl, lookup_cons, lookup_cons]
      by_cases ho : other = key
      · simp [ho]
      · simp [ho]
    rw [if_neg hlt, if_neg heq, lookup_cons, ih, lookup_cons]
    by_cases ho : other = k
    · simp [ho, Ne.symm heq]
    · simp [ho]

@[simp] theorem get?_insert (key : κ) (value : ν) (other : κ) :
    (m.insert key value).get? other = if other = key then some value else m.get? other :=
  lookup_insertEntry key value m.entries other

theorem eq_of_lookup_eq {xs ys : List (κ × ν)} (hx : xs.Pairwise (fun a b => a.1 < b.1))
    (hy : ys.Pairwise (fun a b => a.1 < b.1)) (h : ∀ key, lookup xs key = lookup ys key) : xs = ys := by
  have hmem : ∀ e, e ∈ xs ↔ e ∈ ys := by
    rintro ⟨k, v⟩
    rw [← lookup_eq_some_iff hx, ← lookup_eq_some_iff hy, h]
  have hnodup : ∀ l : List (κ × ν), l.Pairwise (fun a b => a.1 < b.1) → l.Nodup := by
    intro l hl
    refine hl.imp ?_
    rintro a b hab rfl
    exact lt_irrefl _ hab
  have hperm : xs.Perm ys := (perm_ext_iff_of_nodup (hnodup xs hx) (hnodup ys hy)).mpr hmem
  refine hperm.eq_of_pairwise ?_ hx hy
  intro a b _ _ hab hba
  exact absurd (hab.trans hba) (lt_irrefl _)

theorem get?_filter : (m.filter keep).get? key = (m.get? key).filter (fun v => keep (key, v)) := by
  apply ext
  intro v
  simp only [get?_eq_some_iff, filter, mem_filter, filter_eq_some_iff]

theorem lookup_filter_key (keep : κ → Bool) (entries : List (κ × ν)) (key : κ) :
    lookup (entries.filter (fun e => keep e.1)) key = if keep key then lookup entries key else none := by
  induction entries with
  | nil => simp
  | cons e rest ih =>
    by_cases hk : key = e.1
    · by_cases hr : keep e.1
      · simp [hk, hr, lookup_cons]
      · simpa [hk, hr, lookup_cons] using ih
    · by_cases hr : keep e.1
      · simpa [hk, hr, lookup_cons] using ih
      · simpa [hk, hr, lookup_cons] using ih

@[simp] theorem get?_erase : (m.erase key).get? other = if other = key then none else m.get? other := by
  rw [erase, get?_filter]
  by_cases ho : other = key
  · cases h : m.get? other <;> simp [ho, Option.filter]
  · cases h : m.get? other <;> simp [ho, Option.filter]

theorem insertEntry_of_lt {entries : List (κ × ν)} (h : ∀ e ∈ entries, e.1 < key) :
    insertEntry key value entries = entries ++ [(key, value)] := by
  induction entries with
  | nil => rfl
  | cons head rest ih =>
    have hlt : head.1 < key := h head (by simp)
    have hrest := ih (fun e he => h e (by simp [he]))
    rw [insertEntry, if_neg (not_lt.mpr hlt.le), if_neg hlt.ne', hrest, cons_append]

theorem entries_erase_head (h : m.entries = (key, value) :: rest) : (m.erase key).entries = rest := by
  have hs := m.sorted
  rw [h, pairwise_cons] at hs
  simp only [erase, filter, h]
  rw [filter_cons_of_neg (by simp), filter_eq_self]
  intro e he
  simpa using (hs.1 e he).ne'

theorem nodup_keys : (m.entries.map Prod.fst).Nodup :=
  pairwise_map.mpr (m.sorted.imp fun h => h.ne)

@[ext] theorem ext_entries {m n : OrdMap κ ν} (h : m.entries = n.entries) : m = n := by
  cases m; cases n; simpa using h

variable {m}

theorem perm_cons {rest : OrdMap κ ν} (hkey : m.get? key = some value) (hnone : rest.get? key = none)
    (h : ∀ other ≠ key, m.get? other = rest.get? other) : m.entries.Perm ((key, value) :: rest.entries) := by
  have hnodup : ∀ m : OrdMap κ ν, m.entries.Nodup :=
    fun m => m.sorted.imp (fun hlt heq => hlt.ne (congrArg Prod.fst heq))
  have hnot : (key, value) ∉ rest.entries := by simp [← get?_eq_some_iff, hnone]
  refine (perm_ext_iff_of_nodup (hnodup m) (nodup_cons.mpr ⟨hnot, hnodup rest⟩)).mpr ?_
  rintro ⟨k, v⟩
  rw [mem_cons, ← get?_eq_some_iff, ← get?_eq_some_iff]
  by_cases hk : k = key
  · simp [hk, hkey, hnone, eq_comm]
  · simp [hk, h k hk]

theorem perm_erase (h : m.get? key = some value) : m.entries.Perm ((key, value) :: (m.erase key).entries) :=
  perm_cons h (by simp) (fun other ho => by simp [ho])

variable (m)

section Edits

def keys : List κ := m.entries.map Prod.fst

def contains (key : κ) : Bool := (m.get? key).isSome

def modify (key : κ) (f : ν → ν) : OrdMap κ ν :=
  match m.get? key with
  | none => m
  | some value => m.insert key (f value)

def mapValues (f : ν → ν) : OrdMap κ ν :=
  ⟨m.entries.map (fun e => (e.1, f e.2)), List.pairwise_map.mpr m.sorted⟩

theorem mem_keys (key : κ) : key ∈ m.keys ↔ ∃ value, m.get? key = some value := by
  simp [keys, get?_eq_some_iff]

theorem contains_iff : m.contains key = true ↔ key ∈ m.keys := by
  rw [contains, isSome_iff_exists, mem_keys]

@[simp] theorem get?_modify :
    (m.modify key f).get? other = if other = key then (m.get? key).map f else m.get? other := by
  unfold modify
  split
  case h_1 hnone =>
    by_cases ho : other = key
    · simp [ho, hnone]
    · simp [ho]
  case h_2 value hsome => simp [hsome]

@[simp] theorem contains_insert :
    (m.insert key value).contains other = (decide (other = key) || m.contains other) := by
  rw [contains, contains, get?_insert]
  by_cases ho : other = key
  · simp [ho]
  · simp [ho]

@[simp] theorem contains_erase :
    (m.erase key).contains other = (!decide (other = key) && m.contains other) := by
  rw [contains, contains, get?_erase]
  by_cases ho : other = key
  · simp [ho]
  · simp [ho]

theorem modify_of_not_contains {m : OrdMap κ ν} (h : ¬m.contains key = true) : m.modify key f = m := by
  rw [contains, Bool.not_eq_true, isSome_eq_false_iff, isNone_iff_eq_none] at h
  rw [modify, h]

@[simp] theorem contains_modify : (m.modify key f).contains = m.contains := by
  funext other
  rw [contains, contains, get?_modify]
  by_cases ho : other = key
  · simp [ho]
  · simp [ho]

@[simp] theorem get?_mapValues : (m.mapValues f).get? key = (m.get? key).map f := by
  apply Option.ext
  intro v
  simp only [get?_eq_some_iff, mapValues, List.mem_map, Option.map_eq_some_iff, Prod.mk.injEq,
    Prod.exists]
  constructor
  · rintro ⟨k, w, hm, rfl, rfl⟩
    exact ⟨w, hm, rfl⟩
  · rintro ⟨w, hm, rfl⟩
    exact ⟨key, w, hm, rfl, rfl⟩

end Edits

end OrdMap

end Skaidb.Base
