import Skaidb.Storage.Memtable

namespace Skaidb.Storage.Memtable

open Skaidb.Base List OrdMap

-- Versions in table order: keys ascending, stamps strictly descending under a key.
def Ordered (versions : List (Bytes × Version)) : Prop :=
  versions.Pairwise (fun a b => a.1 < b.1 ∨ (a.1 = b.1 ∧ b.2.1 < a.2.1))

theorem versionKey_lt (a b : Bytes) (s t : Hlc) : versionKey a s < versionKey b t ↔ a < b ∨ (a = b ∧ t < s) :=
  Prod.Lex.toLex_lt_toLex

theorem versionKey_le (a b : Bytes) (s t : Hlc) : versionKey a s ≤ versionKey b t ↔ a < b ∨ (a = b ∧ t ≤ s) :=
  Prod.Lex.toLex_le_toLex

theorem versionKey_eta (k : VersionKey) : versionKey (ofLex k).1 (OrderDual.ofDual (ofLex k).2) = k := rfl

variable (m : Memtable)

theorem ordered_iterVersions : Ordered m.iterVersions := by
  unfold Ordered iterVersions
  rw [pairwise_map]
  refine m.map.sorted.imp ?_
  intro a b hab
  rw [← versionKey_eta a.1, ← versionKey_eta b.1, versionKey_lt] at hab
  exact hab

variable (key : Bytes)

theorem mem_iterVersions : (key, v) ∈ m.iterVersions ↔ m.map.get? (versionKey key v.1) = some v.2 := by
  rw [OrdMap.get?_eq_some_iff]
  unfold iterVersions
  rw [mem_map]
  constructor
  · rintro ⟨e, he, heq⟩
    cases heq
    exact he
  · intro h
    exact ⟨_, h, rfl⟩

theorem mem_iterVersions_insert : (key, v) ∈ (m.insert k h value).iterVersions ↔
      (key = k ∧ v = (h, value)) ∨ ((key, v) ∈ m.iterVersions ∧ ¬(key = k ∧ v.1 = h)) := by
  rw [mem_iterVersions, mem_iterVersions]
  unfold insert
  have hkey : versionKey key v.1 = versionKey k h ↔ key = k ∧ v.1 = h := by
    simp [versionKey]
  by_cases hk : versionKey key v.1 = versionKey k h
  · obtain ⟨rfl, hh⟩ := hkey.mp hk
    obtain ⟨s, x⟩ := v
    subst hh
    simp [eq_comm]
  · have hne := mt hkey.mpr hk
    have hv : ¬(key = k ∧ v = (h, value)) := fun hc => hne ⟨hc.1, by rw [hc.2]⟩
    simp [hk, hne, hv]

def IsLatest (versions : List (Bytes × Version)) (key : Bytes) (v : Version) : Prop :=
  (key, v) ∈ versions ∧ ∀ w, (key, w) ∈ versions → w.1 ≤ v.1

theorem lookup_eq_some_iff_isLatest (h : Ordered versions) (key : Bytes) (v : Version) :
    lookup versions key = some v ↔ IsLatest versions key v := by
  induction versions with
  | nil => simp [IsLatest]
  | cons head rest ih =>
    obtain ⟨k, w⟩ := head
    obtain ⟨hhead, hrest⟩ := pairwise_cons.mp h
    by_cases hk : key = k
    · subst hk
      rw [OrdMap.lookup_cons_self]
      constructor
      · rintro ⟨⟩
        refine ⟨by simp, ?_⟩
        intro x hx
        obtain hx | hx := mem_cons.mp hx
        · cases hx
          exact le_rfl
        · have hlt := hhead _ hx
          simp only [lt_self_iff_false, true_and, false_or] at hlt
          exact hlt.le
      · rintro ⟨hmem, hmax⟩
        obtain hx | hx := mem_cons.mp hmem
        · cases hx
          rfl
        · have hlt := hhead _ hx
          simp only [lt_self_iff_false, true_and, false_or] at hlt
          exact absurd (hmax w (by simp)) (not_le.mpr hlt)
    · rw [lookup_cons_of_ne hk, ih hrest]
      simp [IsLatest, hk]

theorem lookup_firstPerKey {current : Option Bytes} {key : Bytes} (h : current ≠ some key) :
    lookup (firstPerKey current versions) key = lookup versions key := by
  induction versions generalizing current with
  | nil => rfl
  | cons head rest ih =>
    obtain ⟨k, v⟩ := head
    rw [firstPerKey]
    split_ifs with hc
    · have hne : key ≠ k := by
        intro heq
        exact h (by rw [hc, heq])
      rw [lookup_cons_of_ne hne]
      exact ih h
    · by_cases hk : key = k
      · subst hk
        rw [OrdMap.lookup_cons_self, OrdMap.lookup_cons_self]
      · rw [lookup_cons_of_ne hk, lookup_cons_of_ne hk]
        exact ih (by simpa using Ne.symm hk)

theorem firstPerKey_sorted {current : Option Bytes} (h : Ordered versions)
    (hcur : ∀ c, current = some c → ∀ e ∈ versions, c ≤ e.1) :
    (firstPerKey current versions).Pairwise (fun a b => a.1 < b.1) ∧
    ∀ c, current = some c → ∀ e ∈ firstPerKey current versions, c < e.1 := by
  induction versions generalizing current with
  | nil => simp [firstPerKey]
  | cons head rest ih =>
    obtain ⟨k, v⟩ := head
    obtain ⟨hhead, hrest⟩ := pairwise_cons.mp h
    have hk : ∀ e ∈ rest, k ≤ e.1 := by
      intro e he
      obtain hlt | ⟨heq, -⟩ := hhead e he
      · exact hlt.le
      · exact heq.le
    rw [firstPerKey]
    split_ifs with hc
    · exact ih hrest (fun c hcc e he => hcur c hcc e (by simp [he]))
    · obtain ⟨hsorted, habove⟩ := @ih (some k) hrest (by rintro c ⟨⟩; exact hk)
      refine ⟨pairwise_cons.mpr ⟨habove k rfl, hsorted⟩, ?_⟩
      intro c hcc e he
      have hck : c < k := by
        refine lt_of_le_of_ne (hcur c hcc (k, v) (by simp)) ?_
        intro heq
        exact hc (by rw [hcc, heq])
      obtain rfl | he := mem_cons.mp he
      · exact hck
      · exact hck.trans (habove k rfl e he)

theorem iterLatest_sorted : m.iterLatest.Pairwise (fun a b => a.1 < b.1) :=
  (firstPerKey_sorted m.ordered_iterVersions (by simp)).1

theorem lookup_iterLatest : lookup m.iterLatest key = lookup m.iterVersions key :=
  lookup_firstPerKey (by simp)

theorem getEntryVersioned_eq_lookup : m.getEntryVersioned key = lookup m.iterVersions key := by
  unfold getEntryVersioned iterVersions
  have hs := m.map.sorted
  revert hs
  induction m.map.entries with
  | nil => exact fun _ => rfl
  | cons e rest ih =>
    intro hs
    obtain ⟨hhead, hrest⟩ := pairwise_cons.mp hs
    have hle : versionKey key Hlc.MAX ≤ e.1 ↔ key ≤ (ofLex e.1).1 := by
      rw [← versionKey_eta e.1, versionKey_le]
      have hmax := Hlc.le_MAX (OrderDual.ofDual (ofLex e.1).2)
      constructor
      · rintro (hlt | ⟨heq, -⟩)
        · exact hlt.le
        · exact heq.le
      · intro hle
        obtain hlt | heq := lt_or_eq_of_le hle
        · exact .inl hlt
        · exact .inr ⟨heq, hmax⟩
    by_cases hk : key = (ofLex e.1).1
    · have hfind : (e :: rest).find? (fun e => versionKey key Hlc.MAX ≤ e.1) = some e := by
        rw [List.find?_cons_of_pos]
        simpa using hle.mpr hk.le
      rw [hfind, List.map_cons, OrdMap.lookup_cons, if_pos hk]
      simp [Option.filter, ← hk]
    · rw [List.map_cons, OrdMap.lookup_cons, if_neg hk]
      by_cases hlt : key < (ofLex e.1).1
      · -- No later version has the key either.
        have hfind : (e :: rest).find? (fun e => versionKey key Hlc.MAX ≤ e.1) = some e := by
          rw [List.find?_cons_of_pos]
          simpa using hle.mpr hlt.le
        have hnone : OrdMap.lookup
            (rest.map (fun e => ((ofLex e.1).1, OrderDual.ofDual (ofLex e.1).2, e.2))) key = none := by
          refine lookup_eq_none_iff.mpr ?_
          intro x hx
          obtain ⟨y, hy, rfl⟩ := mem_map.mp hx
          have hey := hhead y hy
          rw [← versionKey_eta e.1, ← versionKey_eta y.1, versionKey_lt] at hey
          obtain hey | ⟨hey, -⟩ := hey
          · exact (hlt.trans hey).ne'
          · exact (hey ▸ hlt).ne'
        rw [hfind]
        simp only [Option.filter, Ne.symm hk, decide_false, Bool.false_eq_true, if_false,
          Option.map_none]
        exact hnone.symm
      · have hfind : (e :: rest).find? (fun e => versionKey key Hlc.MAX ≤ e.1) =
            rest.find? (fun e => versionKey key Hlc.MAX ≤ e.1) := by
          rw [List.find?_cons_of_neg]
          have hnle : ¬ key ≤ (ofLex e.1).1 := by
            intro hcon
            exact hlt (lt_of_le_of_ne hcon hk)
          simpa using mt hle.mp hnle
        rw [hfind]
        exact ih hrest

theorem getEntryVersioned_eq_some_iff : m.getEntryVersioned key = some v ↔ IsLatest m.iterVersions key v := by
  rw [getEntryVersioned_eq_lookup]
  exact lookup_eq_some_iff_isLatest m.ordered_iterVersions key v

theorem lookup_iterLatest_eq_getEntryVersioned : lookup m.iterLatest key = m.getEntryVersioned key := by
  rw [lookup_iterLatest, getEntryVersioned_eq_lookup]

@[simp] theorem getEntryVersioned_new : new.getEntryVersioned key = none := rfl

theorem getEntryVersioned_eq_none_iff : m.getEntryVersioned key = none ↔ ∀ v, (key, v) ∉ m.iterVersions := by
  rw [getEntryVersioned_eq_lookup, OrdMap.lookup_eq_none_iff]
  constructor
  · intro h v hv
    exact h (key, v) hv rfl
  · rintro h ⟨k, v⟩ he rfl
    exact h v he

theorem getEntryVersioned_insert (k : Bytes) (hlc : Hlc) (value : VersionValue) (key : Bytes) :
    (m.insert k hlc value).getEntryVersioned key =
      if key = k then pick (some (hlc, value)) (m.getEntryVersioned k) else m.getEntryVersioned key := by
  by_cases hk : key = k
  · subst hk
    rw [if_pos rfl]
    cases hold : m.getEntryVersioned key with
    | none =>
      rw [pick_none_right, getEntryVersioned_eq_some_iff]
      have hno := (getEntryVersioned_eq_none_iff m key).mp hold
      refine ⟨(mem_iterVersions_insert ..).mpr (.inl ⟨rfl, rfl⟩), ?_⟩
      intro w hw
      obtain ⟨-, rfl⟩ | ⟨hw, -⟩ := (mem_iterVersions_insert ..).mp hw
      · exact le_rfl
      · exact absurd hw (hno w)
    | some old =>
      obtain ⟨hmem, hmax⟩ := (getEntryVersioned_eq_some_iff m key).mp hold
      have hcases : ∀ w, (key, w) ∈ (m.insert key hlc value).iterVersions →
          w = (hlc, value) ∨ w.1 ≤ old.1 := by
        intro w hw
        obtain ⟨-, rfl⟩ | ⟨hw, -⟩ := (mem_iterVersions_insert ..).mp hw
        · exact .inl rfl
        · exact .inr (hmax w hw)
      by_cases hlt : hlc < old.1
      · have hp : pick (some (hlc, value)) (some old) = some old := by simp [pick, hlt]
        rw [hp, getEntryVersioned_eq_some_iff]
        refine ⟨(mem_iterVersions_insert ..).mpr (.inr ⟨hmem, fun h => hlt.ne' h.2⟩), ?_⟩
        intro w hw
        obtain rfl | hw := hcases w hw
        · exact hlt.le
        · exact hw
      · have hp : pick (some (hlc, value)) (some old) = some (hlc, value) := by simp [pick, hlt]
        rw [hp, getEntryVersioned_eq_some_iff]
        refine ⟨(mem_iterVersions_insert ..).mpr (.inl ⟨rfl, rfl⟩), ?_⟩
        intro w hw
        obtain rfl | hw := hcases w hw
        · exact le_rfl
        · exact hw.trans (not_lt.mp hlt)
  · rw [if_neg hk]
    have hmem : ∀ v, (key, v) ∈ (m.insert k hlc value).iterVersions ↔ (key, v) ∈ m.iterVersions := by
      intro v
      rw [mem_iterVersions_insert]
      simp [hk]
    apply Option.ext
    intro v
    rw [getEntryVersioned_eq_some_iff, getEntryVersioned_eq_some_iff]
    simp only [IsLatest, hmem]

theorem rangeLatest_spec {m : Memtable} {start finish : Option Bytes}
    {items : List (Bytes × Version)} (h : m.rangeLatest start finish = some items) :
    items.Pairwise (fun a b => a.1 < b.1) ∧
    ∀ key, OrdMap.lookup items key = if inRange start finish key then m.getEntryVersioned key else none := by
  unfold rangeLatest at h
  split_ifs at h
  cases h
  refine ⟨(firstPerKey_sorted (m.ordered_iterVersions.filter _) (by simp)).1, fun key => ?_⟩
  rw [lookup_firstPerKey (by simp), lookup_filter_key (inRange start finish), getEntryVersioned_eq_lookup]

end Skaidb.Storage.Memtable
