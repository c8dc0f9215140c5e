import Skaidb.Cluster.Placement
import Skaidb.Tsdb.Block

namespace Skaidb.Cluster

open Skaidb.Base Skaidb.Exec Skaidb.Schema Skaidb.Storage Skaidb.Tsdb Skaidb.Types List View

abbrev TsRow := Labels × Sample

abbrev Shard := List (Labels × List Sample)

def settledView (id : String) (members : List String) (rf : Nat) : View :=
  ⟨⟨id⟩, ⟨1, members.map (fun n => (⟨n⟩, n)), []⟩, 1, rf, Catalog.default⟩

section Append

-- All the fields of a series are placed together.
def tsPlacementKey (labels : Labels) : Bytes :=
  (labels.filter (fun l => l.key ≠ "__field__")).flatMap (fun l => utf8 l.key ++ [0] ++ (utf8 l.value ++ [0]))

def View.tsReplicas (v : View) (labels : Labels) : List NodeId := v.replicasFor (tsPlacementKey labels)

def tsGroups (v : View) (rows : List TsRow) : List (List NodeId × List TsRow) :=
  (distinct (rows.map (fun r => v.tsReplicas r.1))).map (fun replicas =>
    (replicas, rows.filter (fun r => v.tsReplicas r.1 = replicas)))

-- What becomes of a batch on the node itself, and which peers answer with an ack.
structure TsEnv where
  own : List TsRow → Except EngineError Nat
  ack : NodeId → List TsRow → Bool

def TsEnv.acks (env : TsEnv) (v : View) (batch : List TsRow) (n : NodeId) : Bool :=
  if n = v.id then (env.own batch).toBool else (v.peerAddr n).isSome && env.ack n batch

def tsAckers (v : View) (env : TsEnv) (group : List NodeId × List TsRow) : List NodeId :=
  group.1.filter (env.acks v group.2)

-- The groups come in the order of a hash map.
def tsAppend (v : View) (level : Consistency) (env : TsEnv) :
    List (List NodeId × List TsRow) → Except EngineError Nat
  | [] => .ok 0
  | group :: groups =>
    match if v.id ∈ group.1 then (env.own group.2).map some else .ok none with
    | .error e => .error e
    | .ok localAppended =>
      let acks := (tsAckers v env group).length
      let needed := level.required v.memberCount
      if acks < needed then .error (.cluster s!"write quorum not met: {acks}/{needed} replicas acked")
      else (tsAppend v level env groups).map (fun appended => localAppended.getD group.2.length + appended)

variable {v : View} {level : Consistency} {env : TsEnv} {rows : List TsRow}

def Passes (v : View) (level : Consistency) (env : TsEnv) (group : List NodeId × List TsRow) : Prop :=
  (v.id ∈ group.1 → (env.own group.2).toBool = true) ∧
    level.required v.memberCount ≤ (tsAckers v env group).length

theorem tsAppend_ok_iff :
    (∃ n, tsAppend v level env groups = .ok n) ↔ ∀ group ∈ groups, Passes v level env group := by
  induction groups with
  | nil => simp [tsAppend]
  | cons group groups ih =>
    rw [forall_mem_cons, ← ih, Passes, tsAppend]
    by_cases hown : v.id ∈ group.1 → (env.own group.2).toBool = true
    · obtain ⟨n, hn⟩ : ∃ n, (if v.id ∈ group.1 then (env.own group.2).map some else .ok none) = .ok n := by
        by_cases hid : v.id ∈ group.1
        · rw [if_pos hid]
          cases ho : env.own group.2 with
          | error e => simp [ho, Except.toBool, hid] at hown
          | ok n => exact ⟨some n, rfl⟩
        · exact ⟨none, if_neg hid⟩
      rw [hn]
      by_cases hacks : (tsAckers v env group).length < level.required v.memberCount
      · simp [hacks]
      · cases tsAppend v level env groups with
        | error e => simp [hacks, Except.map]
        | ok n => simpa [hacks, Except.map, Nat.not_lt.mp hacks] using hown
    · obtain ⟨hid, ho⟩ := Classical.not_imp.mp hown
      cases he : env.own group.2 with
      | error e => simp [Except.map, Except.toBool, hid]
      | ok n => simp [he, Except.toBool] at ho

theorem mem_tsGroups : group ∈ tsGroups v rows ↔ ∃ row ∈ rows, group =
      (v.tsReplicas row.1, rows.filter (fun r => v.tsReplicas r.1 = v.tsReplicas row.1)) := by
  simp only [tsGroups, mem_map, mem_distinct]
  constructor
  · rintro ⟨replicas, ⟨row, hrow, rfl⟩, rfl⟩
    exact ⟨row, hrow, rfl⟩
  · rintro ⟨row, hrow, rfl⟩
    exact ⟨_, ⟨row, hrow, rfl⟩, rfl⟩

theorem tsAppend_accepts_iff (v : View) (level : Consistency) (env : TsEnv) (rows : List TsRow)
    (groups : List (List NodeId × List TsRow)) (hgroups : groups.Perm (tsGroups v rows))
    (hacks : ∀ group ∈ groups, ∀ n ∈ group.1, env.acks v group.2 n = true) :
    (∃ n, tsAppend v level env groups = .ok n) ↔
      ∀ row ∈ rows, level.required v.memberCount ≤ (v.tsReplicas row.1).length := by
  have hall : ∀ group ∈ groups, tsAckers v env group = group.1 := fun group hgroup =>
    filter_eq_self.mpr (hacks group hgroup)
  have hown : ∀ group ∈ groups, v.id ∈ group.1 → (env.own group.2).toBool = true := by
    intro group hgroup hid
    have hack := hacks group hgroup v.id hid
    rwa [TsEnv.acks, if_pos rfl] at hack
  rw [tsAppend_ok_iff]
  constructor
  · intro h row hrow
    have hmem := hgroups.mem_iff.mpr (mem_tsGroups.mpr ⟨row, hrow, rfl⟩)
    have hpass := (h _ hmem).2
    rwa [hall _ hmem] at hpass
  · intro h group hgroup
    obtain ⟨row, hrow, rfl⟩ := mem_tsGroups.mp (hgroups.mem_iff.mp hgroup)
    refine ⟨hown _ hgroup, ?_⟩
    rw [hall _ hgroup]
    exact h row hrow

def oneRow : List TsRow := [([⟨"host", "a"⟩], ⟨0, ⟨0⟩⟩)]

def allAckTs : TsEnv := ⟨fun rows => .ok rows.length, fun _ _ => true⟩

theorem tsAppend_accepts_three : ∃ n, tsAppend (settledView "n0" ["n0", "n1", "n2"] 3) .quorum allAckTs
      (tsGroups (settledView "n0" ["n0", "n1", "n2"] 3) oneRow) = .ok n :=
  (tsAppend_accepts_iff _ _ _ oneRow _ (Perm.refl _) (by decide)).mpr (by decide)

-- One replica in a cluster of two: its ack is not a quorum of the members.
theorem tsAppend_rejects_one_of_two : let v := settledView "n0" ["n0", "n1"] 1
    (∀ group ∈ tsGroups v oneRow, ∀ n ∈ group.1, allAckTs.acks v group.2 n = true) ∧
      (tsAppend v .quorum allAckTs (tsGroups v oneRow)).toBool = false := by
  decide

end Append

section Scatter

-- The equality forms go to the peers; what else there is, is tested here.
def postMatchers (matchers : List Matcher) : List Matcher :=
  matchers.filter (fun
    | .eq _ _ | .ne _ _ => false
    | _ => true)

abbrev TsMerged := Labels → Int64 → Option F64

def mergeSample (merged : TsMerged) (row : TsRow) : TsMerged := fun labels ts =>
  if labels = row.1 ∧ ts = row.2.ts then some row.2.value else merged labels ts

def Shard.rows (shard : Shard) : List TsRow := shard.flatMap (fun e => e.2.map (fun s => (e.1, s)))

def tsScatter (v : View) (level : Consistency) (matchers : List Matcher) (own : Except EngineError Shard)
    (reply : NodeId → Option Shard) : Except EngineError TsMerged :=
  match own with
  | .error e => .error e
  | .ok shard =>
    let shards := v.peers.filterMap reply
    let kept := shards.flatMap (fun s =>
      (Shard.rows s).filter (fun r => matchesAll (postMatchers matchers) r.1))
    let responders := 1 + shards.length
    let needed := level.required v.memberCount
    if responders < needed then
      .error (.cluster s!"read quorum not met: {responders}/{needed} members responded")
    else .ok (kept.foldl mergeSample (shard.rows.foldl mergeSample (fun _ _ => none)))

theorem foldl_mergeSample {rows : List TsRow} {s : Sample}
    (hagree : ∀ r ∈ rows, r.1 = labels → r.2.ts = s.ts → r.2.value = s.value)
    (h : merged labels s.ts = some s.value ∨ (labels, s) ∈ rows) :
    rows.foldl mergeSample merged labels s.ts = some s.value := by
  induction rows generalizing merged with
  | nil => simpa using h
  | cons r rows ih =>
    obtain ⟨hr, hrows⟩ := forall_mem_cons.mp hagree
    refine ih hrows ?_
    by_cases hsame : labels = r.1 ∧ s.ts = r.2.ts
    · exact .inl (by rw [mergeSample, if_pos hsame, hr hsame.1.symm hsame.2.symm])
    · rw [mergeSample, if_neg hsame]
      refine h.imp id (fun hmem => ?_)
      rcases mem_cons.mp hmem with rfl | hmem
      · exact absurd ⟨rfl, rfl⟩ hsame
      · exact hmem

-- The answers to a query: each holder that answers has the sample, and nobody has
-- another one at its time.
structure Answers (v : View) (labels : Labels) (s : Sample) (holders : List NodeId)
    (own : Except EngineError Shard) (reply : NodeId → Option Shard) : Prop where
  own_holds : v.id ∈ holders → ∀ shard, own = .ok shard → (labels, s) ∈ shard.rows
  reply_holds : ∀ n ∈ holders, ∀ shard, reply n = some shard → (labels, s) ∈ shard.rows
  own_agrees : ∀ shard, own = .ok shard → ∀ r ∈ shard.rows, r.1 = labels → r.2.ts = s.ts → r.2.value = s.value
  reply_agrees : ∀ n shard, reply n = some shard →
    ∀ r ∈ shard.rows, r.1 = labels → r.2.ts = s.ts → r.2.value = s.value

theorem tsScatter_sees {v : View} {s : Sample} (hok : tsScatter v level matchers own reply = .ok merged)
    (hans : Answers v labels s holders own reply) (hmatch : matchesAll matchers labels = true)
    (hn : n ∈ holders) (hheard : n = v.id ∨ n ∈ v.peers ∧ (reply n).isSome = true) :
    merged labels s.ts = some s.value := by
  cases hown : own with
  | error e => simp [tsScatter, hown] at hok
  | ok shard =>
    have hpost : matchesAll (postMatchers matchers) labels = true := by
      rw [matchesAll, all_eq_true] at hmatch ⊢
      exact fun m hm => hmatch m (mem_of_mem_filter hm)
    simp only [tsScatter, hown] at hok
    split at hok
    case isTrue => cases hok
    case isFalse =>
      rw [← Except.ok.inj hok]
      refine foldl_mergeSample ?_ ?_
      · intro r hr
        obtain ⟨peer, hpeer, hr⟩ := mem_flatMap.mp hr
        obtain ⟨m, -, hm⟩ := mem_filterMap.mp hpeer
        exact hans.reply_agrees m peer hm r (mem_of_mem_filter hr)
      · rcases hheard with rfl | ⟨hpeer, hreply⟩
        · exact .inl (foldl_mergeSample (hans.own_agrees shard hown) (.inr (hans.own_holds hn shard hown)))
        · obtain ⟨peer, hpeer'⟩ := Option.isSome_iff_exists.mp hreply
          exact .inr (mem_flatMap.mpr ⟨peer, mem_filterMap.mpr ⟨n, hpeer, hpeer'⟩,
            mem_filter.mpr ⟨hans.reply_holds n hn peer hpeer', hpost⟩⟩)

end Scatter

section Intersection

variable (v w : View) (labels : Labels)

def reachable : Finset NodeId := ((v.tsReplicas labels).filter (fun n => n = v.id ∨ n ∈ v.peers)).toFinset

def certain : Finset NodeId := ((v.tsReplicas labels).filter (fun n => n = v.id)).toFinset

def heardFrom : Finset NodeId := insert w.id w.peers.toFinset

def Meets : Prop :=
  let acks := Consistency.quorum.required v.memberCount
  let answers := Consistency.quorum.required w.memberCount
  w.id ∈ certain v labels ∨ ((reachable v labels).erase w.id).card < acks ∨
    (heardFrom w \ certain v labels).card < answers ∨ (reachable v labels ∪ heardFrom w).card < acks + answers
deriving Decidable

-- Samples of the series that a quorum has acked and accepted are in what a quorum answers.
def SeesAcked : Prop :=
  ∀ env rows groups appended s matchers own reply merged, groups.Perm (tsGroups v rows) →
    tsAppend v .quorum env groups = .ok appended → (labels, s) ∈ rows →
    Answers w labels s (tsAckers v env
      (v.tsReplicas labels, rows.filter (fun r => v.tsReplicas r.1 = v.tsReplicas labels))) own reply →
    matchesAll matchers labels = true → tsScatter w .quorum matchers own reply = .ok merged →
    merged labels s.ts = some s.value

variable {v w labels}

theorem nodup_union {reps others : List NodeId} (h : reps.Nodup) : (union reps others).Nodup := by
  unfold union
  induction others generalizing reps with
  | nil => exact h
  | cons m rest ih =>
    rw [foldl_cons]
    split_ifs with hm
    · exact ih h
    · exact ih (by rw [← concat_eq_append]; exact h.concat hm)

theorem View.nodup_tsReplicas : (v.tsReplicas labels).Nodup := by
  unfold tsReplicas replicasFor replicasForRf
  split
  · exact Ring.nodup_replicasFor _ _
  · exact nodup_union (Ring.nodup_replicasFor _ _)

theorem nodup_tsAckers : (tsAckers v env (v.tsReplicas labels, batch)).Nodup :=
  nodup_tsReplicas.filter _

theorem View.nodup_peers : v.peers.Nodup := nodup_distinct.filter _

theorem View.id_notMem_peers : v.id ∉ v.peers := by simp [peers]

def responders (w : View) (reply : NodeId → Option Shard) : Finset NodeId :=
  insert w.id (w.peers.filter (fun n => (reply n).isSome)).toFinset

theorem card_responders : (responders w reply).card = 1 + (w.peers.filterMap reply).length := by
  have hid : w.id ∉ (w.peers.filter (fun n => (reply n).isSome)).toFinset := by
    simp [id_notMem_peers]
  rw [responders, Finset.card_insert_of_notMem hid, toFinset_card_of_nodup (nodup_peers.filter _),
    length_filterMap_eq_countP, countP_eq_length_filter, Nat.add_comm]

theorem le_card_responders {level : Consistency} (h : tsScatter w level matchers own reply = .ok merged) :
    level.required w.memberCount ≤ (responders w reply).card := by
  rw [card_responders]
  unfold tsScatter at h
  split at h
  · cases h
  · dsimp only at h
    split at h
    · cases h
    · omega

theorem seesAcked_of_meets (h : Meets v w labels) : SeesAcked v w labels := by
  intro env rows groups appended s matchers own reply merged hgroups happend hrow hans hmatch hscatter
  have hgroup := hgroups.mem_iff.mpr (mem_tsGroups.mpr ⟨_, hrow, rfl⟩)
  obtain ⟨hown, hacked⟩ := tsAppend_ok_iff.mp ⟨appended, happend⟩ _ hgroup
  set group := (v.tsReplicas labels, rows.filter (fun r => v.tsReplicas r.1 = v.tsReplicas labels))
  have hcard : (tsAckers v env group).toFinset.card = (tsAckers v env group).length :=
    toFinset_card_of_nodup nodup_tsAckers
  obtain ⟨n, hn, hheard⟩ := exists_common h
    (by
      intro n hn
      obtain ⟨hmem, hack⟩ := mem_filter.mp (mem_toFinset.mp hn)
      refine mem_toFinset.mpr (mem_filter.mpr ⟨hmem, ?_⟩)
      by_cases hid : n = v.id
      · simp [hid]
      · rw [TsEnv.acks, if_neg hid, Bool.and_eq_true, peerAddr_isSome_iff] at hack
        simp [hack.1])
    (by
      intro n hn
      obtain ⟨hmem, hid⟩ := mem_filter.mp (mem_toFinset.mp hn)
      obtain rfl := of_decide_eq_true hid
      exact mem_toFinset.mpr (mem_filter.mpr ⟨hmem, by rw [TsEnv.acks, if_pos rfl]; exact hown hmem⟩))
    (hcard ▸ hacked)
    (Finset.insert_subset_insert _ (fun n hn => by
      rw [mem_toFinset] at hn ⊢
      exact mem_of_mem_filter hn))
    (Finset.mem_insert_self _ _) (le_card_responders hscatter)
  refine tsScatter_sees hscatter hans hmatch (mem_toFinset.mp hn) ?_
  rcases Finset.mem_insert.mp hheard with hid | hpeer
  · exact .inl hid
  · exact .inr (mem_filter.mp (mem_toFinset.mp hpeer))

theorem meets_of_seesAcked (h : SeesAcked v w labels) : Meets v w labels := by
  by_contra hmeets
  simp only [Meets, not_or, not_lt] at hmeets
  obtain ⟨hw, hacks, hanswers, hboth⟩ := hmeets
  have hcertain : certain v labels ⊆ (reachable v labels).erase w.id := by
    intro n hn
    refine Finset.mem_erase.mpr ⟨fun heq => hw (heq ▸ hn), ?_⟩
    obtain ⟨hmem, hid⟩ := mem_filter.mp (mem_toFinset.mp hn)
    exact mem_toFinset.mpr (mem_filter.mpr ⟨hmem, by simp [of_decide_eq_true hid]⟩)
  have hone : (certain v labels).card ≤ Consistency.quorum.required v.memberCount := by
    have hsub : certain v labels ⊆ {v.id} := fun n hn =>
      Finset.mem_singleton.mpr (of_decide_eq_true (mem_filter.mp (mem_toFinset.mp hn)).2)
    have := Finset.card_le_card hsub
    exact this.trans (Nat.le_add_left 1 _)
  obtain ⟨A, hFA, hAP, hA, hB⟩ :=
    exists_apart hcertain hone (Finset.mem_insert_self w.id w.peers.toFinset) hacks hanswers hboth
  let env : TsEnv := ⟨fun _ => .ok 1, fun n _ => decide (n ∈ A)⟩
  let reply : NodeId → Option Shard := fun n => if n ∈ A then none else some []
  have hackers : ∀ batch, ∀ n, n ∈ tsAckers v env (v.tsReplicas labels, batch) ↔ n ∈ A := by
    intro batch n
    constructor
    · intro hn
      obtain ⟨hmem, hack⟩ := mem_filter.mp hn
      by_cases hid : n = v.id
      · exact hFA (mem_toFinset.mpr (mem_filter.mpr ⟨hmem, decide_eq_true hid⟩))
      · rw [TsEnv.acks, if_neg hid, Bool.and_eq_true] at hack
        exact of_decide_eq_true hack.2
    · intro hn
      obtain ⟨hmem, hreach⟩ := mem_filter.mp (mem_toFinset.mp (Finset.mem_of_mem_erase (hAP hn)))
      refine mem_filter.mpr ⟨hmem, ?_⟩
      rw [TsEnv.acks]
      split
      · rfl
      · rw [Bool.and_eq_true, peerAddr_isSome_iff]
        exact ⟨(of_decide_eq_true hreach).resolve_left ‹_›, decide_eq_true hn⟩
  have happend : ∃ n, tsAppend v .quorum env (tsGroups v [(labels, ⟨0, ⟨0⟩⟩)]) = .ok n := by
    refine tsAppend_ok_iff.mpr (fun group hgroup => ?_)
    obtain ⟨row, hrow, rfl⟩ := mem_tsGroups.mp hgroup
    obtain rfl := mem_singleton.mp hrow
    refine ⟨fun _ => rfl, ?_⟩
    rw [← hA, ← toFinset_card_of_nodup nodup_tsAckers]
    exact Finset.card_le_card (fun n hn => mem_toFinset.mpr ((hackers _ n).mpr hn))
  have hscatter : ¬ 1 + (w.peers.filterMap reply).length < Consistency.quorum.required w.memberCount := by
    rw [← card_responders, not_lt]
    refine hB.trans (Finset.card_le_card (fun n hn => ?_))
    obtain ⟨hn, hnA⟩ := Finset.mem_sdiff.mp hn
    refine (Finset.mem_insert.mp hn).elim (fun hid => Finset.mem_insert.mpr (.inl hid)) (fun hpeer => ?_)
    exact Finset.mem_insert_of_mem (mem_toFinset.mpr (mem_filter.mpr
      ⟨mem_toFinset.mp hpeer, by simp [reply, hnA]⟩))
  have hempty : ∀ n shard, reply n = some shard → shard = [] := by
    intro n shard hshard
    simp only [reply] at hshard
    split at hshard
    · cases hshard
    · exact (Option.some.inj hshard).symm
  obtain ⟨appended, happend⟩ := happend
  have hans : ∀ batch, Answers w labels ⟨0, ⟨0⟩⟩ (tsAckers v env (v.tsReplicas labels, batch)) (.ok []) reply := by
    refine fun batch => ⟨fun hw' => ?_, fun n hn shard hshard => ?_, fun shard hshard => ?_, fun n shard hshard => ?_⟩
    · exact absurd rfl (Finset.mem_erase.mp (hAP ((hackers _ _).mp hw'))).1
    · simp [reply, (hackers _ n).mp hn] at hshard
    · rw [← Except.ok.inj hshard]
      exact fun r hr => absurd hr not_mem_nil
    · rw [hempty n shard hshard]
      exact fun r hr => absurd hr not_mem_nil
  have hsees := h env _ _ appended ⟨0, ⟨0⟩⟩ [] (.ok []) reply _ (Perm.refl _) happend mem_cons_self
    (hans _) rfl (by simp only [tsScatter]; rw [if_neg hscatter])
  have hnil : (w.peers.filterMap reply).flatMap (fun s =>
      (Shard.rows s).filter (fun r => matchesAll (postMatchers []) r.1)) = [] := by
    refine flatMap_eq_nil_iff.mpr (fun shard hshard => ?_)
    obtain ⟨n, -, hn⟩ := mem_filterMap.mp hshard
    rw [hempty n shard hn]
    rfl
  rw [hnil] at hsees
  cases hsees

theorem seesAcked_iff (v w : View) (labels : Labels) : SeesAcked v w labels ↔ Meets v w labels :=
  ⟨meets_of_seesAcked, seesAcked_of_meets⟩

-- n0 and n1 of three replicas ack. After n2 and n4 have joined, the three replicas are the
-- same, and a read that hears n2, n3 and n4 is answered without the sample.
theorem tsScatter_misses_acked : let v := settledView "n0" ["n0", "n1", "n3"] 3
    let w := settledView "n3" ["n0", "n1", "n2", "n3", "n4"] 3
    let labels : Labels := [⟨"h", "2"⟩]
    let env : TsEnv := ⟨fun rows => .ok rows.length, fun n _ => n.name = "n1"⟩
    (tsAppend v .quorum env (tsGroups v [(labels, ⟨5, ⟨1⟩⟩)])).toBool = true ∧
      tsAckers v env (v.tsReplicas labels, [(labels, ⟨5, ⟨1⟩⟩)]) = [⟨"n0"⟩, ⟨"n1"⟩] ∧
      w.tsReplicas labels = [⟨"n0"⟩, ⟨"n1"⟩, ⟨"n3"⟩] ∧
      (tsScatter w .quorum [] (.ok []) (fun n => if n.name = "n2" ∨ n.name = "n4" then some [] else none)).toOption.map
        (fun merged => merged labels 5) = some none := by
  decide

end Intersection

end Skaidb.Cluster
