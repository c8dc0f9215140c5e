import Skaidb.Storage.Memtable

namespace Skaidb.Storage

open Skaidb.Base Option

-- The latest version of a key below the memtables, or a known absence.
abbrev CachedRead := Option Version

namespace ReadCache

-- One FIFO shard. `fifo` may hold keys already invalidated; `map` does not.
structure Inner where
  capacity : Nat
  byteCapacity : Nat
  bytes : Nat
  map : OrdMap Bytes CachedRead
  fifo : List Bytes

def weight (key : Bytes) (value : CachedRead) : Nat :=
  let payload := match value with
    | some (_, .put bytes) => bytes.length
    | _ => 0
  key.length * 2 + payload + 80

namespace Inner

def overBudget (inner : Inner) : Bool :=
  inner.capacity < inner.map.entries.length ||
    (0 < inner.byteCapacity && inner.byteCapacity < inner.bytes)

def remove (inner : Inner) (key : Bytes) : Inner :=
  match inner.map.get? key with
  | none => inner
  | some v => { inner with map := inner.map.erase key, bytes := inner.bytes - weight key v }

-- Evict oldest entries until within both budgets, skipping stale fifo keys.
def evict : List Bytes → Inner → Inner
  | [], inner => { inner with fifo := [] }
  | old :: rest, inner =>
    if inner.overBudget then evict rest (inner.remove old)
    else { inner with fifo := old :: rest }

def trim (capacity : Nat) (map : OrdMap Bytes CachedRead) : List Bytes → List Bytes
  | [] => []
  | front :: rest =>
    if capacity < (front :: rest).length && (map.get? front).isNone then trim capacity map rest
    else front :: rest

def insert (inner : Inner) (key : Bytes) (value : CachedRead) : Inner :=
  let added := inner.bytes + weight key value
  let stored : Inner := match inner.map.get? key with
    | none =>
      { inner with bytes := added, map := inner.map.insert key value, fifo := inner.fifo ++ [key] }
    | some old =>
      { inner with bytes := added - weight key old, map := inner.map.insert key value }
  let kept := evict stored.fifo stored
  { kept with fifo := trim kept.capacity kept.map kept.fifo }

end Inner

end ReadCache

structure ReadCache where
  shards : List ReadCache.Inner

namespace ReadCache

def MAX_SHARDS : Nat := 64

def MIN_SHARD_BYTES : Nat := 64 * 1024

-- The first shards absorb the remainders of the two budgets.
def new (capacity byteCap : Nat) : ReadCache :=
  let entryShards := min capacity MAX_SHARDS
  let nShards :=
    if 0 < byteCap then min entryShards (max (byteCap / MIN_SHARD_BYTES) 1) else entryShards
  ⟨(List.range nShards).map (fun i =>
    { capacity := capacity / nShards + (if i < capacity % nShards then 1 else 0)
      byteCapacity :=
        if byteCap = 0 then 0
        else max (byteCap / nShards + (if i < byteCap % nShards then 1 else 0)) 1
      bytes := 0
      map := OrdMap.empty
      fifo := [] })⟩

def fnv (key : Bytes) : UInt64 :=
  key.foldl (fun h b => (h ^^^ b.toUInt64) * 0x00000100000001b3) 0xcbf29ce484222325

variable (cache : ReadCache)

def shard (key : Bytes) : Nat :=
  (fnv key).toNat % cache.shards.length

def get (key : Bytes) : Option CachedRead :=
  (cache.shards[cache.shard key]?).bind (fun inner => inner.map.get? key)

def insert (key : Bytes) (value : CachedRead) : ReadCache :=
  ⟨cache.shards.modify (cache.shard key) (fun inner => inner.insert key value)⟩

def invalidate (key : Bytes) : ReadCache :=
  ⟨cache.shards.modify (cache.shard key) (fun inner => inner.remove key)⟩

variable {inner : Inner}

theorem get?_remove (h : (inner.remove old).map.get? key = some r) : key ≠ old ∧ inner.map.get? key = some r := by
  unfold Inner.remove at h
  cases hold : inner.map.get? old with
  | none =>
    rw [hold] at h
    refine ⟨?_, h⟩
    intro heq
    rw [heq, hold] at h
    cases h
  | some v =>
    rw [hold] at h
    by_cases hk : key = old
    · simp [hk] at h
    · exact ⟨hk, by simpa [hk] using h⟩

theorem get?_evict (h : (Inner.evict fifo inner).map.get? key = some r) : inner.map.get? key = some r := by
  induction fifo generalizing inner with
  | nil => exact h
  | cons old rest ih =>
    rw [Inner.evict] at h
    split_ifs at h with hover
    · exact (get?_remove (ih h)).2
    · exact h

theorem get?_insert (h : (inner.insert k value).map.get? key = some r) :
    (key = k ∧ r = value) ∨ inner.map.get? key = some r := by
  have hstored : (inner.map.insert k value).get? key = some r := by
    unfold Inner.insert at h
    cases hold : inner.map.get? k with
    | none =>
      rw [hold] at h
      exact get?_evict h
    | some v =>
      rw [hold] at h
      exact get?_evict h
  rw [OrdMap.get?_insert] at hstored
  split_ifs at hstored with hk
  · exact .inl ⟨hk, by simpa using hstored.symm⟩
  · exact .inr hstored

variable {cache : ReadCache}

private theorem get_modify (h : get ⟨cache.shards.modify (cache.shard k) f⟩ key = some r) :
    ∃ inner, cache.shards[cache.shard key]? = some inner ∧
      ((cache.shard k = cache.shard key ∧ (f inner).map.get? key = some r) ∨
        (cache.shard k ≠ cache.shard key ∧ inner.map.get? key = some r)) := by
  have hshard : shard ⟨cache.shards.modify (cache.shard k) f⟩ key = cache.shard key := by
    simp [shard]
  unfold get at h
  rw [hshard] at h
  obtain ⟨inner', hin, hget⟩ := bind_eq_some_iff.mp h
  simp only [List.getElem?_modify] at hin
  obtain ⟨inner, hi, hf⟩ := map_eq_some_iff.mp hin
  refine ⟨inner, hi, ?_⟩
  by_cases heq : cache.shard k = cache.shard key
  · rw [if_pos heq] at hf
    exact .inl ⟨heq, by rw [hf]; exact hget⟩
  · rw [if_neg heq] at hf
    exact .inr ⟨heq, by rw [show inner = inner' from hf]; exact hget⟩

theorem get_insert (h : (cache.insert k value).get key = some r) :
    (key = k ∧ r = value) ∨ cache.get key = some r := by
  obtain ⟨inner, hi, ⟨-, hr⟩ | ⟨-, hr⟩⟩ := get_modify h
  · obtain hnew | hold := get?_insert hr
    · exact .inl hnew
    · exact .inr (by rw [get, hi]; exact hold)
  · exact .inr (by rw [get, hi]; exact hr)

theorem get_invalidate (h : (cache.invalidate k).get key = some r) : key ≠ k ∧ cache.get key = some r := by
  obtain ⟨inner, hi, ⟨-, hr⟩ | ⟨hne, hr⟩⟩ := get_modify h
  · obtain ⟨hne, hold⟩ := get?_remove hr
    exact ⟨hne, by rw [get, hi]; exact hold⟩
  · exact ⟨fun heq => hne (by rw [heq]), by rw [get, hi]; exact hr⟩

theorem get_new (capacity byteCap : Nat) (key : Bytes) : (new capacity byteCap).get key = none := by
  cases h : (new capacity byteCap).get key with
  | none => rfl
  | some r =>
    obtain ⟨inner, hi, hr⟩ := bind_eq_some_iff.mp h
    simp only [new, List.getElem?_map] at hi
    obtain ⟨i, -, rfl⟩ := map_eq_some_iff.mp hi
    cases hr

end ReadCache

end Skaidb.Storage
