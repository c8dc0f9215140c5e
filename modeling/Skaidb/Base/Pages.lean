import Skaidb.Base.OrdMap

namespace Skaidb.Base

open List

namespace OrdMap

variable {κ ν : Type*} [LinearOrder κ]

def page (m : OrdMap κ ν) (after : Option κ) (limit : Nat) : List (κ × ν) :=
  (m.entries.filter (fun e => after.all (fun a => a < e.1))).take limit

def past (m : OrdMap κ ν) (after : Option κ) : List (κ × ν) := m.entries.filter (fun e => after.all (fun a => a < e.1))

variable {m : OrdMap κ ν} {after : Option κ}

theorem page_eq : m.page after limit = (m.past after).take limit := rfl

theorem past_sorted : (m.past after).Pairwise (fun a b => a.1 < b.1) := m.sorted.filter _

theorem page_sorted (m : OrdMap κ ν) : (m.page after limit).Pairwise (fun a b => a.1 < b.1) :=
  past_sorted.sublist (take_sublist _ _)

theorem lt_of_mem_page (h : e ∈ m.page after limit) : ∀ a ∈ after, a < e.1 := by
  intro a ha
  have hmem := mem_of_mem_take h
  have hall := (mem_filter.mp hmem).2
  rw [Option.mem_def.mp ha] at hall
  simpa using hall

-- A page has every entry past `after` up to its own last key, and all of them when
-- it is short.
theorem mem_page (hget : m.get? key = some value) (hafter : ∀ a ∈ after, a < key)
    (hreach : (m.page after limit).length < limit ∨ ∃ e ∈ m.page after limit, key ≤ e.1) :
    (key, value) ∈ m.page after limit := by
  have hmem : (key, value) ∈ m.past after := by
    refine mem_filter.mpr ⟨m.get?_eq_some_iff.mp hget, ?_⟩
    cases after with
    | none => rfl
    | some a => simpa using hafter a rfl
  rw [page_eq] at hreach ⊢
  have hsorted : (m.past after).Pairwise _ := past_sorted
  generalize m.past after = es at *
  rw [← take_append_drop limit es, mem_append] at hmem
  rcases hmem with hmem | hmem
  · exact hmem
  · rw [← take_append_drop limit es, pairwise_append] at hsorted
    rcases hreach with hshort | ⟨e, he, hle⟩
    · -- nothing is left over from a short page
      rw [length_take] at hshort
      rw [drop_eq_nil_of_le (by omega)] at hmem
      cases hmem
    · exact absurd hle (not_le.mpr (hsorted.2.2 e he (key, value) hmem))

theorem entries_split (m : OrdMap κ ν) : m.entries = m.entries.filter (fun e => e.1 ≤ bound) ++
      m.entries.filter (fun e => bound < e.1) := by
  have hsorted := m.sorted
  generalize m.entries = es at hsorted
  induction es with
  | nil => rfl
  | cons e es ih =>
    obtain ⟨hhead, htail⟩ := pairwise_cons.mp hsorted
    by_cases hle : e.1 ≤ bound
    · rw [filter_cons_of_pos (by simpa using hle), filter_cons_of_neg (by simpa using hle),
        cons_append, ← ih htail]
    · have hlt := not_le.mp hle
      have hnone : es.filter (fun e => e.1 ≤ bound) = [] :=
        filter_eq_nil_iff.mpr (fun x hx => by simpa using hlt.trans (hhead x hx))
      have hall : es.filter (fun e => bound < e.1) = es :=
        filter_eq_self.mpr (fun x hx => by simpa using hlt.trans (hhead x hx))
      rw [filter_cons_of_neg (by simpa using hle), filter_cons_of_pos (by simpa using hlt),
        hnone, hall, nil_append]

section Capped

theorem take_eq_take_of_sorted {xs ys : List (κ × ν)} (hx : xs.Pairwise (fun a b => a.1 < b.1))
    (hy : ys.Pairwise (fun a b => a.1 < b.1)) (hkeys : ∀ x ∈ xs, ∃ y ∈ ys, y.1 = x.1)
    (hfirst : ∀ y ∈ ys.take n, y ∈ xs) : xs.take n = ys.take n := by
  induction n generalizing xs ys with
  | zero => rfl
  | succ n ih =>
    cases ys with
    | nil =>
      cases xs with
      | nil => rfl
      | cons x _ =>
        obtain ⟨y, hy, -⟩ := hkeys x (by simp)
        cases hy
    | cons y ys =>
      have hmem : y ∈ xs := hfirst y (by simp)
      cases xs with
      | nil => cases hmem
      | cons x xs =>
        obtain ⟨hxhead, hxs⟩ := pairwise_cons.mp hx
        obtain ⟨hyhead, hys⟩ := pairwise_cons.mp hy
        have hxy : y = x := by
          obtain rfl | htail := mem_cons.mp hmem
          · rfl
          · -- `x` would have a key below every key of `ys`
            obtain ⟨z, hz, hzx⟩ := hkeys x (by simp)
            have hlt := hxhead y htail
            rw [← hzx] at hlt
            obtain rfl | hz := mem_cons.mp hz
            · exact absurd hlt (lt_irrefl _)
            · exact absurd (hyhead z hz) hlt.asymm
        subst hxy
        rw [take_succ_cons, take_succ_cons]
        congr 1
        refine ih hxs hys ?_ ?_
        · intro a ha
          obtain ⟨b, hb, hba⟩ := hkeys a (by simp [ha])
          obtain rfl | hb := mem_cons.mp hb
          · exact absurd (hxhead a ha) (by rw [hba]; exact lt_irrefl _)
          · exact ⟨b, hb, hba⟩
        · intro b hb
          have hbxs := hfirst b (by simp [hb])
          obtain rfl | hbxs := mem_cons.mp hbxs
          · exact absurd (hyhead b (mem_of_mem_take hb)) (lt_irrefl _)
          · exact hbxs

theorem mem_take_of_sorted {xs ys : List (κ × ν)} (hx : xs.Pairwise (fun a b => a.1 < b.1))
    (hy : ys.Pairwise (fun a b => a.1 < b.1)) (hkeys : ∀ x ∈ xs, ∃ y ∈ ys, y.1 = x.1) (hxm : x ∈ xs)
    (hym : y ∈ ys.take n) (hxy : x.1 = y.1) : x ∈ xs.take n := by
  induction n generalizing xs ys with
  | zero => simp at hym
  | succ n ih =>
    cases ys with
    | nil => simp at hym
    | cons z ys =>
      cases xs with
      | nil => cases hxm
      | cons w xs =>
        obtain ⟨hwhead, hxs⟩ := pairwise_cons.mp hx
        obtain ⟨hzhead, hys⟩ := pairwise_cons.mp hy
        obtain rfl | hxm := mem_cons.mp hxm
        · exact mem_cons_self
        · refine mem_cons_of_mem _ ?_
          have hwx : w.1 < x.1 := hwhead x hxm
          have hzw : z.1 ≤ w.1 := by
            obtain ⟨u, hu, huw⟩ := hkeys w (by simp)
            obtain rfl | hu := mem_cons.mp hu
            · exact huw.le
            · exact (hzhead u hu).le.trans huw.le
          obtain rfl | hym := mem_cons.mp hym
          · exact absurd (hxy ▸ hwx) (not_lt.mpr hzw)
          · refine ih hxs hys ?_ hxm hym
            intro a ha
            obtain ⟨b, hb, hba⟩ := hkeys a (by simp [ha])
            obtain rfl | hb := mem_cons.mp hb
            · exact absurd (hwhead a ha) (not_lt.mpr (hba ▸ hzw))
            · exact ⟨b, hb, hba⟩

end Capped

section Walk

def pagesFrom (m : OrdMap κ ν) (limit : Nat) : Nat → Option κ → List (List (κ × ν))
  | 0, _ => []
  | fuel + 1, after =>
    let rows := m.page after limit
    if rows.length < limit then [rows]
    else rows :: pagesFrom m limit fuel (rows.getLast?.map Prod.fst)

-- A full page moves on by at least one row, so one step per row is enough.
def pages (m : OrdMap κ ν) (limit : Nat) : List (List (κ × ν)) :=
  m.pagesFrom limit (m.entries.length + 1) none

theorem past_page {after : Option κ} (hlast : (m.page after limit).getLast? = some last) :
    m.past (some last.1) = (m.past after).drop limit := by
  have hmem : last ∈ m.page after limit := mem_of_getLast? hlast
  have hpast := lt_of_mem_page hmem
  have hnarrow : m.past (some last.1) = (m.past after).filter (fun e => last.1 < e.1) := by
    rw [past, past, filter_filter]
    refine filter_congr ?_
    intro e _
    by_cases hlt : last.1 < e.1
    · cases after with
      | none => simp [hlt]
      | some a => simp [hlt, (hpast a rfl).trans hlt]
    · simp [hlt]
  have hsorted : (m.past after).Pairwise _ := past_sorted
  rw [page_eq] at hlast hmem
  generalize m.past after = rest at *
  rw [hnarrow]
  nth_rewrite 1 [← take_append_drop limit rest]
  rw [← take_append_drop limit rest, pairwise_append] at hsorted
  obtain ⟨hpage, -, hcross⟩ := hsorted
  have hbefore : (rest.take limit).filter (fun e => last.1 < e.1) = [] := by
    refine filter_eq_nil_iff.mpr ?_
    intro e he
    obtain ⟨front, hfront⟩ := getLast?_eq_some_iff.mp hlast
    rw [hfront] at he hpage
    rcases mem_append.mp he with he | he
    · simpa using ((pairwise_append.mp hpage).2.2 e he last (by simp)).le
    · rw [mem_singleton.mp he]
      simp
  have hbeyond : (rest.drop limit).filter (fun e => last.1 < e.1) = rest.drop limit :=
    filter_eq_self.mpr (fun e he => by simpa using hcross last hmem e he)
  rw [filter_append, hbefore, hbeyond, nil_append]

theorem flatten_pagesFrom (hlimit : 0 < limit) {after : Option κ} (hfuel : (m.past after).length < fuel) :
    (m.pagesFrom limit fuel after).flatten = m.past after := by
  induction fuel generalizing after with
  | zero => omega
  | succ fuel ih =>
    rw [pagesFrom]
    have hlen : (m.page after limit).length = min limit (m.past after).length := length_take
    split_ifs with hshort
    · rw [flatten_singleton]
      rw [page_eq, take_of_length_le (by omega)]
    · obtain ⟨last, hlast⟩ : ∃ last, (m.page after limit).getLast? = some last := by
        cases hcase : (m.page after limit).getLast? with
        | none =>
          rw [getLast?_eq_none_iff.mp hcase, length_nil] at hshort
          omega
        | some last => exact ⟨last, rfl⟩
      have hrest := past_page hlast
      rw [flatten_cons, hlast, Option.map_some, ih (by rw [hrest, length_drop]; omega), hrest]
      exact take_append_drop _ _

theorem flatten_pages (hlimit : 0 < limit) {m : OrdMap κ ν} : (m.pages limit).flatten = m.entries := by
  have hall : m.past none = m.entries := filter_eq_self.mpr (fun _ _ => rfl)
  rw [pages, flatten_pagesFrom hlimit (by rw [hall]; omega), hall]

theorem lookup_of_subset (hsub : xs ⊆ m.entries) (hmem : (key, value) ∈ xs) : lookup xs key = some value := by
  cases hcase : lookup xs key with
  | none => exact absurd rfl (lookup_eq_none_iff.mp hcase _ hmem)
  | some other =>
    have hother := m.get?_eq_some_iff.mpr (hsub (mem_of_lookup hcase))
    rw [← hother]
    exact m.get?_eq_some_iff.mpr (hsub hmem)

end Walk

end OrdMap

section Chunks

variable {α : Type*}

def chunksOf (size : Nat) : Nat → List α → List (List α)
  | 0, _ => []
  | fuel + 1, xs => if xs.isEmpty then [] else xs.take size :: chunksOf size fuel (xs.drop size)

def chunks (size : Nat) (xs : List α) : List (List α) := chunksOf size xs.length xs

theorem flatten_chunks (hsize : 0 < size) (xs : List α) : (chunks size xs).flatten = xs := by
  have hall : ∀ fuel (ys : List α), ys.length ≤ fuel → (chunksOf size fuel ys).flatten = ys := by
    intro fuel
    induction fuel with
    | zero =>
      intro ys hys
      rw [length_eq_zero_iff.mp (Nat.le_zero.mp hys)]
      rfl
    | succ fuel ih =>
      intro ys hys
      rw [chunksOf]
      cases ys with
      | nil => rfl
      | cons y ys =>
        rw [if_neg (by simp), flatten_cons, ih _ (by rw [length_drop]; omega),
          take_append_drop]
  exact hall xs.length xs (le_refl _)

end Chunks

end Skaidb.Base
