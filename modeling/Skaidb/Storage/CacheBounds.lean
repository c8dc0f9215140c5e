import Mathlib.Data.List.Perm.Basic
import Mathlib.Data.List.TakeWhile
import Skaidb.Storage.ReadCache

namespace Skaidb.Storage.ReadCache

open Skaidb.Base List

def held (map : OrdMap Bytes CachedRead) : Nat :=
  map.entries.foldr (fun e total => weight e.1 e.2 + total) 0

theorem held_cons {map rest : OrdMap Bytes CachedRead} (h : map.entries.Perm ((key, value) :: rest.entries)) :
    held map = weight key value + held rest := by
  have : LeftCommutative (fun (e : Bytes × CachedRead) total => weight e.1 e.2 + total) :=
    ⟨fun _ _ _ => Nat.add_left_comm _ _ _⟩
  exact h.foldr_eq 0

namespace Inner

-- The byte count is the weight of the entries, and behind stale keys the queue has the key of
-- each entry once.
structure Sound (inner : Inner) (fifo : List Bytes) : Prop where
  bytes : inner.bytes = held inner.map
  split : ∃ stale live, fifo = stale ++ live ∧ (∀ key ∈ stale, key ∉ inner.map.keys) ∧
    live.Perm inner.map.keys

variable {inner : Inner} {fifo rest : List Bytes}

theorem Sound.remove (h : inner.Sound (old :: rest)) : (inner.remove old).Sound rest := by
  obtain ⟨stale, live, heq, hstale, hlive⟩ := h.split
  unfold Inner.remove
  cases hget : inner.map.get? old with
  | none =>
    have hdead : old ∉ inner.map.keys := by simp [OrdMap.mem_keys, hget]
    cases stale with
    | nil =>
      cases heq
      exact absurd (hlive.mem_iff.mp mem_cons_self) hdead
    | cons s stale =>
      obtain ⟨rfl, rfl⟩ := cons.inj heq
      exact ⟨h.bytes, stale, live, rfl, fun key hkey => hstale key (mem_cons_of_mem _ hkey), hlive⟩
  | some v =>
    have hperm := OrdMap.perm_erase hget
    refine ⟨?_, ?_⟩
    · show inner.bytes - weight old v = held (inner.map.erase old)
      rw [h.bytes, held_cons hperm, Nat.add_sub_cancel_left]
    · cases stale with
      | nil =>
        cases heq
        exact ⟨[], rest, rfl, by simp, (hlive.trans (hperm.map Prod.fst)).cons_inv⟩
      | cons s stale =>
        obtain ⟨rfl, rfl⟩ := cons.inj heq
        exact absurd ((OrdMap.mem_keys _ _).mpr ⟨v, hget⟩) (hstale old mem_cons_self)

theorem evict_spec (h : inner.Sound fifo) :
    (evict fifo inner).Sound (evict fifo inner).fifo ∧ (evict fifo inner).overBudget = false := by
  induction fifo generalizing inner with
  | nil =>
    obtain ⟨stale, live, heq, -, hlive⟩ := h.split
    have hnone : inner.map.entries = [] := by simpa [(append_eq_nil_iff.mp heq.symm).2, OrdMap.keys] using hlive
    exact ⟨{ h with }, by simp [evict, overBudget, h.bytes, held, hnone]⟩
  | cons old rest ih =>
    rw [evict]
    split_ifs with hover
    · exact ih h.remove
    · exact ⟨{ h with }, Bool.eq_false_of_not_eq_true hover⟩

theorem trim_spec {capacity : Nat} {map : OrdMap Bytes CachedRead} {stale live : List Bytes}
    (hstale : ∀ key ∈ stale, key ∉ map.keys) (hcap : live.length ≤ capacity) :
    live ⊆ trim capacity map (stale ++ live) ∧ (trim capacity map (stale ++ live)).length ≤ capacity := by
  induction stale with
  | nil =>
    cases live with
    | nil => exact ⟨Subset.refl _, hcap⟩
    | cons front rest =>
      rw [nil_append, trim, if_neg (by rw [decide_eq_false (by omega)]; simp)]
      exact ⟨Subset.refl _, hcap⟩
  | cons front stale ih =>
    have hdead : map.get? front = none := by
      simpa [OrdMap.mem_keys, Option.eq_none_iff_forall_ne_some] using hstale front mem_cons_self
    rw [cons_append, trim]
    split_ifs with hlong
    · exact ih (fun key hkey => hstale key (mem_cons_of_mem _ hkey))
    · exact ⟨fun key hkey => by simp [hkey], by simpa [hdead] using hlong⟩

def Orderly (inner : Inner) (key : Bytes) : Prop :=
  (key ∈ inner.fifo → key ∈ inner.map.keys) ∧
    (inner.fifo.dropWhile (fun k => k ∉ inner.map.keys)).Nodup ∧
    ∀ k ∈ inner.fifo.dropWhile (fun k => k ∉ inner.map.keys), k ∈ inner.map.keys
deriving Decidable

structure Within (inner : Inner) : Prop where
  entries : inner.map.entries.length ≤ inner.capacity
  bytes : inner.bytes = held inner.map
  budget : 0 < inner.byteCapacity → inner.bytes ≤ inner.byteCapacity
  queue : inner.fifo.length ≤ inner.capacity

structure Kept (inner : Inner) : Prop extends Within inner where
  queued : inner.map.keys ⊆ inner.fifo

theorem Kept.sound (h : inner.Kept) (horder : inner.Orderly key) : inner.Sound inner.fifo := by
  have hstale : ∀ k ∈ inner.fifo.takeWhile (fun k => k ∉ inner.map.keys), k ∉ inner.map.keys :=
    fun k hk => by simpa using mem_takeWhile_imp hk
  refine ⟨h.bytes, _, _, takeWhile_append_dropWhile.symm, hstale, ?_⟩
  refine (perm_ext_iff_of_nodup horder.2.1 inner.map.nodup_keys).mpr fun k => ⟨horder.2.2 k, fun hk => ?_⟩
  have hsplit := takeWhile_append_dropWhile (p := fun k => k ∉ inner.map.keys) (l := inner.fifo)
  have hmem := h.queued hk
  rw [← hsplit, mem_append] at hmem
  exact hmem.resolve_left fun hin => hstale k hin hk

theorem Sound.kept (h : inner.Sound inner.fifo) :
    Kept (let kept := evict inner.fifo inner; { kept with fifo := trim kept.capacity kept.map kept.fifo }) := by
  obtain ⟨hsound, hbudget⟩ := evict_spec h
  dsimp only
  generalize evict inner.fifo inner = kept at *
  simp only [overBudget, Bool.or_eq_false_iff, decide_eq_false_iff_not, Bool.and_eq_false_imp,
    decide_eq_true_eq, not_lt] at hbudget
  obtain ⟨stale, live, heq, hstale, hlive⟩ := hsound.split
  have hlen : live.length ≤ kept.capacity := by
    rw [hlive.length_eq, OrdMap.keys, length_map]
    exact hbudget.1
  obtain ⟨hsub, hshort⟩ := trim_spec hstale hlen
  rw [heq]
  exact ⟨⟨hbudget.1, hsound.bytes, hbudget.2, hshort⟩, fun k hk => hsub (hlive.mem_iff.mpr hk)⟩

theorem Kept.insert (h : inner.Kept) (horder : inner.Orderly key) (value : CachedRead) :
    (inner.insert key value).Kept := by
  obtain ⟨stale, live, heq, hstale, hlive⟩ := (h.sound horder).split
  have hinsert : (inner.map.insert key value).get? key = some value := by simp
  unfold Inner.insert
  cases hold : inner.map.get? key with
  | none =>
    have hperm := OrdMap.perm_cons hinsert hold (fun other ho => by simp [ho])
    have hkeys := hperm.map Prod.fst
    apply Sound.kept
    refine ⟨?_, stale, live ++ [key], ?_, fun k hk hin => ?_, ?_⟩
    · rw [held_cons hperm, h.bytes, Nat.add_comm]
    · rw [heq, append_assoc]
    · obtain rfl | hin := mem_cons.mp (hkeys.mem_iff.mp hin)
      · exact hstale k hk (horder.1 (heq ▸ mem_append_left _ hk))
      · exact hstale k hk hin
    · exact (perm_append_singleton _ _).trans ((hlive.cons key).trans hkeys.symm)
  | some old =>
    have hwas := OrdMap.perm_erase hold
    have hperm := OrdMap.perm_cons hinsert (by simp : (inner.map.erase key).get? key = none)
      (fun other ho => by simp [ho])
    have hkeys := (hperm.map Prod.fst).trans (hwas.map Prod.fst).symm
    apply Sound.kept
    refine ⟨?_, stale, live, heq, fun k hk hin => hstale k hk (hkeys.mem_iff.mp hin), hlive.trans hkeys.symm⟩
    show inner.bytes + weight key value - weight key old = held (inner.map.insert key value)
    rw [held_cons hperm, h.bytes, held_cons hwas]
    omega

theorem Kept.remove (h : inner.Kept) (key : Bytes) : (inner.remove key).Kept := by
  unfold Inner.remove
  cases hget : inner.map.get? key with
  | none => exact h
  | some v =>
    have hperm := OrdMap.perm_erase hget
    refine ⟨⟨(length_filter_le _ _).trans h.entries, ?_, fun hcap => ?_, h.queue⟩, fun k hk => ?_⟩
    · show inner.bytes - weight key v = held (inner.map.erase key)
      rw [h.bytes, held_cons hperm, Nat.add_sub_cancel_left]
    · exact (Nat.sub_le _ _).trans (h.budget hcap)
    · exact h.queued ((hperm.map Prod.fst).mem_iff.mpr (mem_cons_of_mem _ hk))

end Inner

inductive Call where
  | insert (key : Bytes) (value : CachedRead)
  | invalidate (key : Bytes)

variable (cache : ReadCache)

def call : Call → ReadCache
  | .insert key value => cache.insert key value
  | .invalidate key => cache.invalidate key

def Orderly : Call → Prop
  | .insert key _ => ∀ inner ∈ cache.shards[cache.shard key]?, inner.Orderly key
  | .invalidate _ => True

instance (cache : ReadCache) : (c : Call) → Decidable (cache.Orderly c)
  | .insert _ _ => inferInstanceAs (Decidable (∀ inner ∈ cache.shards[_]?, _))
  | .invalidate _ => isTrue trivial

def Kept : Prop := ∀ inner ∈ cache.shards, inner.Kept

theorem kept_modify {shards : List Inner} (h : ∀ inner ∈ shards, inner.Kept)
    (hf : ∀ inner ∈ shards[i]?, inner.Kept → (f inner).Kept) : ∀ inner ∈ shards.modify i f, inner.Kept := by
  intro inner hmem
  obtain ⟨j, hj⟩ := mem_iff_getElem?.mp hmem
  rw [getElem?_modify] at hj
  obtain ⟨old, hold, rfl⟩ := Option.map_eq_some_iff.mp hj
  have hkept := h old (mem_of_getElem? hold)
  by_cases heq : i = j
  · subst heq
    simpa using hf old hold hkept
  · simpa [heq] using hkept

theorem Kept.call {cache : ReadCache} (h : cache.Kept) (hc : cache.Orderly c) : (cache.call c).Kept := by
  cases c with
  | insert key value => exact kept_modify h (fun inner hin hkept => hkept.insert (hc inner hin) value)
  | invalidate key => exact kept_modify h (fun inner _ hkept => hkept.remove key)

theorem kept_new : (new capacity byteCap).Kept := by
  intro inner hmem
  obtain ⟨i, -, rfl⟩ := mem_map.mp hmem
  exact ⟨⟨Nat.zero_le _, rfl, fun _ => Nat.zero_le _, Nat.zero_le _⟩, nil_subset _⟩

theorem bounds_kept (capacity byteCap : Nat) (calls : List Call)
    (h : Along call Orderly (new capacity byteCap) calls) :
    Along call (fun cache c => ∀ inner ∈ (cache.call c).shards, inner.Within) (new capacity byteCap) calls :=
  h.imp (fun _ _ hkept hc => ⟨hkept.call hc, fun inner hmem => (hkept.call hc inner hmem).toWithin⟩)
    kept_new

theorem bounds_kept_oldest_invalidated :
    Along call (fun cache c => ∀ inner ∈ (cache.call c).shards, inner.Within) (new 2 1000)
      [.insert [1] none, .insert [3] none, .invalidate [1], .insert [5] none] :=
  bounds_kept 2 1000 _ (by decide)

-- A key is invalidated behind one that stays: its place in the queue is never given back.
theorem queue_outgrows_capacity :
    ∃ inner ∈ ([Call.insert [1] none, .insert [3] none, .invalidate [3], .insert [5] none].foldl call
      (new 2 1000)).shards, inner.capacity < inner.fifo.length := by
  decide

end Skaidb.Storage.ReadCache
