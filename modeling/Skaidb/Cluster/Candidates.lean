import Mathlib.Data.Finset.Sort
import Skaidb.Cluster.ScanQuorum

namespace Skaidb.Cluster

open Skaidb.Base Skaidb.Exec Skaidb.Storage List Option Node

variable {Doc : Type} (decode : Bytes → Except String (Option Doc))

section Lookup

def indexPointReadMax : Nat := 256

-- What a member has of a table: the latest versions, and the entries of one of its
-- indexes with the row keys they lead to.
structure TableShard where
  rows : OrdMap Bytes Version
  index : OrdMap Bytes Bytes

inductive Pushdown (Doc : Type) where
  | filter (matchesFilter : Doc → Except EngineError Bool)
  | index (start finish : Option Bytes)

def rowMatches (matchesFilter : Doc → Except EngineError Bool) : VersionValue → Except EngineError Bool
  | .delete => .ok false
  | .put bytes =>
    match decode bytes with
    | .error e => .error (.constraint s!"corrupt row: {e}")
    | .ok none => .ok false
    | .ok (some doc) => matchesFilter doc

def localScanFilteredKeys (matchesFilter : Doc → Except EngineError Bool) :
    List (Bytes × Version) → Except EngineError (List Bytes)
  | [] => .ok []
  | (key, _, value) :: rest => do
      let hit ← rowMatches decode matchesFilter value
      let keys ← localScanFilteredKeys matchesFilter rest
      return if hit then key :: keys else keys

def indexScanKeys (index : OrdMap Bytes Bytes) (start finish : Option Bytes) : List Bytes :=
  (index.entries.filter (fun e => inRange start finish e.1)).map Prod.snd

def Pushdown.candidates (p : Pushdown Doc) (shard : TableShard) : Except EngineError (List Bytes) :=
  match p with
  | .filter matchesFilter => localScanFilteredKeys decode matchesFilter shard.rows.entries
  | .index start finish => .ok (indexScanKeys shard.index start finish)

-- The members' shards when they are asked, which peers answer, and what the reads that
-- follow meet.
structure LookupEnv (Doc : Type) where
  shard : NodeId → TableShard
  answers : NodeId → Bool
  copies : Bytes → Copies
  replicas : Bytes → List NodeId
  reads : Bytes → ReadEnv
  placement : TablePlacement
  prune : Bytes → Except EngineError Bytes
  decodeScanned : Bytes → Except EngineError Doc
  scan : ScanEnv

variable (n : Node) (topo : List Peer) (oc : Option Consistency) (env : LookupEnv Doc)

def Node.candidateKeys (p : Pushdown Doc) : Except EngineError (Finset Bytes) := do
  let own ← p.candidates decode (env.shard n.id)
  let scattered := topo.flatMap (fun peer =>
    if env.answers peer.1 then (p.candidates decode (env.shard peer.1)).toOption.getD [] else [])
  return (own ++ scattered).toFinset

structure Resolved (Doc : Type) where
  winners : List (Bytes × Hlc × Option Bytes)
  rows : List (Bytes × Doc)

def Node.pointGets : List Bytes → Except EngineError (Resolved Doc)
  | [] => .ok ⟨[], []⟩
  | key :: keys => do
      let out ← n.pointGet decode (env.copies key) (env.replicas key) oc key (env.reads key)
      let rest ← Node.pointGets keys
      return ⟨(out.best.map (fun b => (key, b))).toList ++ rest.winners, out.rows ++ rest.rows⟩

def LookupEnv.query (keys : Finset Bytes) : ScanQuery Doc :=
  { range := none, keep := some (keys.sort (· ≤ ·)), sink := .rows none, prune := env.prune
    decode := env.decodeScanned, matchesFilter := fun _ => .ok true }

def Node.resolveCandidates (keys : Finset Bytes) (fuel : Nat) : Option (Except EngineError (Resolved Doc)) :=
  if keys.card ≤ indexPointReadMax then some (n.pointGets decode oc env (keys.sort (· ≤ ·)))
  else (n.clusterScanCollect topo env.placement oc (env.query keys) env.scan fuel).map (fun result =>
    result.map (fun out => ⟨out.decided.filter (fun e => e.1 ∈ keys), out.found.rows⟩))

def Node.lookup (p : Pushdown Doc) (fuel : Nat) : Option (Except EngineError (Resolved Doc)) :=
  match n.candidateKeys decode topo env p with
  | .error e => some (.error e)
  | .ok keys => n.resolveCandidates decode topo oc env keys fuel

end Lookup

section Offered

def Pushdown.Offers (p : Pushdown Doc) (shard : TableShard) (key : Bytes) : Prop :=
  match p with
  | .filter matchesFilter => ∃ v, shard.rows.get? key = some v ∧ rowMatches decode matchesFilter v.2 = .ok true
  | .index start finish => ∃ entry, shard.index.get? entry = some key ∧ inRange start finish entry = true

variable {decode} {n : Node} {topo : List Peer} {env : LookupEnv Doc} {p : Pushdown Doc} {keys : List Bytes}

theorem mem_localScanFilteredKeys (h : localScanFilteredKeys decode matchesFilter rows = .ok keys) :
    key ∈ keys ↔ ∃ v, (key, v) ∈ rows ∧ rowMatches decode matchesFilter v.2 = .ok true := by
  induction rows generalizing keys with
  | nil => cases h; simp
  | cons row rows ih =>
    obtain ⟨k, hlc, value⟩ := row
    obtain ⟨hit, hhit, h⟩ := bind_eq_ok_iff.mp h
    obtain ⟨rest, hrest, h⟩ := bind_eq_ok_iff.mp h
    rw [pure_eq_ok_iff] at h
    subst h
    cases hit <;> simp [ih hrest, hhit, or_and_right, exists_or]

theorem Pushdown.mem_candidates (h : p.candidates decode shard = .ok keys) :
    key ∈ keys ↔ p.Offers decode shard key := by
  cases p with
  | filter matchesFilter =>
    simp only [mem_localScanFilteredKeys h, Pushdown.Offers, OrdMap.get?_eq_some_iff]
  | index start finish =>
    cases h
    simp [indexScanKeys, Pushdown.Offers, OrdMap.get?_eq_some_iff]

def Node.Asked (n : Node) (topo : List Peer) (env : LookupEnv Doc) (decode : Bytes → Except String (Option Doc))
    (p : Pushdown Doc) (member : NodeId) : Prop :=
  member = n.id ∨ member ∈ topo.map Prod.fst ∧ env.answers member = true ∧
    (p.candidates decode (env.shard member)).isOk = true

theorem Node.mem_candidateKeys {keys : Finset Bytes} (h : n.candidateKeys decode topo env p = .ok keys) :
    key ∈ keys ↔ ∃ member, n.Asked topo env decode p member ∧ p.Offers decode (env.shard member) key := by
  obtain ⟨own, hown, h⟩ := bind_eq_ok_iff.mp h
  rw [pure_eq_ok_iff] at h
  subst h
  simp only [List.mem_toFinset, List.mem_append, Pushdown.mem_candidates hown, List.mem_flatMap]
  constructor
  · rintro (hoffers | ⟨peer, hpeer, hmem⟩)
    · exact ⟨n.id, .inl rfl, hoffers⟩
    · split at hmem
      case isTrue hanswers =>
        cases hc : p.candidates decode (env.shard peer.1) with
        | error e =>
          rw [hc] at hmem
          cases hmem
        | ok ks =>
          rw [hc] at hmem
          exact ⟨peer.1, .inr ⟨mem_map_of_mem hpeer, hanswers, by rw [hc]; rfl⟩,
            (Pushdown.mem_candidates hc).mp hmem⟩
      case isFalse => cases hmem
  · rintro ⟨member, rfl | ⟨hmem, hanswers, hok⟩, hoffers⟩
    · exact .inl hoffers
    · obtain ⟨peer, hpeer, rfl⟩ := mem_map.mp hmem
      refine .inr ⟨peer, hpeer, ?_⟩
      cases hc : p.candidates decode (env.shard peer.1) with
      | error e =>
        rw [hc] at hok
        cases hok
      | ok ks =>
        rw [if_pos hanswers]
        exact (Pushdown.mem_candidates hc).mpr hoffers

-- The row of a winning version: of a candidate read by itself, or by a scan of the table.
def LookupEnv.shown (env : LookupEnv Doc) (decode : Bytes → Except String (Option Doc)) (ttlMs : Option Nat)
    (narrow : Bool) (e : Bytes × Hlc × Option Bytes) : Option (Bytes × Doc) :=
  if narrow then shownRow ttlMs (env.reads e.1).wall (fun bytes => (decode bytes).toOption.join) e
  else shownRow ttlMs env.scan.wall (fun bytes => (env.decodeScanned bytes).toOption) e

theorem serve_ok {best : Option (Hlc × Option Bytes)} (h : n.serve decode wall key best = .ok rows) :
    rows = (best.map (Prod.mk key)).toList.filterMap
      (shownRow n.ttlMs wall (fun bytes => (decode bytes).toOption.join)) := by
  obtain _ | ⟨hlc, _ | bytes⟩ := best
  · cases h
    rfl
  · cases h
    simp [shownRow]
  · unfold Node.serve at h
    cases hexpired : rowExpired n.ttlMs wall hlc with
    | true =>
      simp only [hexpired, if_true] at h
      cases h
      simp [shownRow, hexpired]
    | false =>
      simp only [hexpired, Bool.false_eq_true, if_false] at h
      cases hdecode : decode bytes with
      | error e => simp [hdecode] at h
      | ok doc => cases doc <;> simp_all [shownRow, Except.toOption]

theorem Node.pointGets_ok {out : Resolved Doc} (h : n.pointGets decode oc env keys = .ok out) :
    (∀ e ∈ out.winners, e.1 ∈ keys) ∧ (∀ key ∈ keys, ∃ read : ReadOutcome Doc,
      n.pointGet decode (env.copies key) (env.replicas key) oc key (env.reads key) = .ok read ∧
        ∀ b, read.best = some b → (key, b) ∈ out.winners) ∧
      out.rows = out.winners.filterMap (env.shown decode n.ttlMs true) := by
  induction keys generalizing out with
  | nil => cases h; simp
  | cons head keys ih =>
    obtain ⟨read, hread, h⟩ := bind_eq_ok_iff.mp h
    obtain ⟨rest, hrest, h⟩ := bind_eq_ok_iff.mp h
    rw [pure_eq_ok_iff] at h
    subst h
    obtain ⟨hkeys, hreads, hrows⟩ := ih hrest
    refine ⟨?_, forall_mem_cons.mpr ⟨⟨read, hread, ?_⟩, fun key hkey => ?_⟩, ?_⟩
    · intro e he
      rcases mem_append.mp he with he | he
      · simp only [mem_toList, map_eq_some_iff] at he
        obtain ⟨b, -, rfl⟩ := he
        exact mem_cons_self
      · exact mem_cons_of_mem _ (hkeys e he)
    · intro b hb
      simp [hb]
    · obtain ⟨read', hread', hbest⟩ := hreads key hkey
      exact ⟨read', hread', fun b hb => mem_append_right _ (hbest b hb)⟩
    · obtain ⟨-, -, -, -, hserve⟩ := pointGet_ok hread
      rw [filterMap_append, ← hrows, serve_ok hserve]
      cases read.best <;> rfl

end Offered

section Complete

variable {decode} {w r : Node} {topo : List Peer} {env : LookupEnv Doc} {members replicas : List NodeId}
  {c : Copies} {v : Version} {we : WriteEnv} {key : Bytes} {keys : Finset Bytes} {out : Resolved Doc}

-- The write was acknowledged, and what is read later is no older than what it left.
structure AckedBefore (w r : Node) (topo : List Peer) (env : LookupEnv Doc) (members replicas : List NodeId)
    (c : Copies) (v : Version) (we : WriteEnv) (key : Bytes) : Prop where
  acked : (w.replicate c replicas (some .quorum) v we).result = .ok ()
  writer : w.id ∈ members
  reader : (r.id :: topo.map Prod.fst).Perm members
  placed : Placed env.placement members replicas
  holders : (env.replicas key).Perm replicas
  copies : (w.replicate c replicas (some .quorum) v we).copies.Grows (env.copies key)
  grows : env.scan.Grows
  after : env.scan.After (w.replicate c replicas (some .quorum) v we).copies key

-- Whether a candidate is read at its replicas, or at members that must include one of them.
def Meeting (env : LookupEnv Doc) (members replicas : List NodeId) (keys : Finset Bytes) : Prop :=
  keys.card ≤ indexPointReadMax ∨ Overlap env.placement members replicas

theorem resolveCandidates_reaches (hack : AckedBefore w r topo env members replicas c v we key)
    (hmeet : Meeting env members replicas keys)
    (h : r.resolveCandidates decode topo (some .quorum) env keys fuel = some (.ok out)) :
    ((∃ b, (key, b) ∈ out.winners ∧ v.1 ≤ b.1) ↔ key ∈ keys) ∧
      out.rows = out.winners.filterMap (env.shown decode r.ttlMs (keys.card ≤ indexPointReadMax)) := by
  unfold resolveCandidates at h
  split at h
  case isTrue hnarrow =>
    obtain ⟨hkeys, hreads, hrows⟩ := pointGets_ok (Option.some.inj h)
    simp only [Finset.mem_sort] at hkeys hreads
    refine ⟨⟨fun ⟨b, hb, _⟩ => hkeys _ hb, fun hkey => ?_⟩, by simpa [hnarrow] using hrows⟩
    obtain ⟨read, hread, hbest⟩ := hreads key hkey
    obtain ⟨holders, hholders, hW, hholds⟩ := replicate_ok hack.acked
    obtain ⟨heard, hheard, hR, hreaches, -⟩ := pointGet_ok hread
    rw [getD_some, required_max_one] at hW hR
    rw [hack.holders.length_eq] at hR
    obtain ⟨node, hheld, hin⟩ := exists_mem_of_subperm_of_length_lt hholders
      (hheard.trans hack.holders.subperm) ((quorum_overlap replicas.length).trans_le (Nat.add_le_add hW hR))
    obtain ⟨b, hb, hle⟩ := hreaches node hin v (hack.copies node v (hholds node hheld))
    exact ⟨b, hbest b hb, hle⟩
  case isFalse hbroad =>
    simp only [map_eq_some_iff] at h
    obtain ⟨result, hscan, h⟩ := h
    cases result with
    | error e => cases h
    | ok scanned =>
      cases h
      simp only [mem_filter, decide_eq_true_eq]
      refine ⟨⟨fun ⟨b, hb, _⟩ => hb.2, fun hkey => ?_⟩, ?_⟩
      · obtain ⟨⟨b, hb, hle⟩, -⟩ := scans_see_of_overlap hack.placed (hmeet.resolve_left hbroad) Doc w r topo c v we
          _ _ _ _ key hack.writer hack.reader hack.acked hack.grows hack.after hscan
          (by simp [ScanQuery.InRange, ScanQuery.rangeEnd, LookupEnv.query])
          (.inl (by simp [LookupEnv.query, CollectSink.limit]))
        exact ⟨b, ⟨hb, hkey⟩, hle⟩
      · have hrows : scanned.found.rows = _ := Node.clusterScanCollect_answers hscan
        rw [hrows, Option.elim_none, filterMap_filter]
        refine filterMap_congr (fun e _ => ?_)
        have hread : (env.query keys).read = fun bytes => (env.decodeScanned bytes).toOption := by
          funext bytes
          simp only [ScanQuery.read, LookupEnv.query]
          cases env.decodeScanned bytes <;> rfl
        have hkeep : (env.query keys).keep = some (keys.sort (· ≤ ·)) := rfl
        simp [ScanQuery.shown, LookupEnv.shown, hread, hkeep, hbroad]

def firstWrite (replicas : List NodeId) : WriteOutcome :=
  (quorumNode "a").replicate ⟨fun _ => []⟩ replicas (some .quorum) (⟨5, 0⟩, .put [7]) allAck

def lookupEnv (rows : NodeId → OrdMap Bytes Version) (answers : NodeId → Bool) (replicas : List NodeId) :
    LookupEnv Bytes :=
  { shard := fun node => ⟨rows node, OrdMap.empty⟩
    answers := answers
    copies := fun key => if key = [1] then (firstWrite replicas).copies else ⟨fun _ => [(⟨3, 0⟩, .put [8])]⟩
    replicas := fun _ => replicas
    reads := fun _ => onlySecondPeerAnswers
    placement := .default
    prune := .ok
    decodeScanned := .ok
    scan := ⟨fun _ => rows, fun _ _ => false, fun _ => none, fun _ => none, 9⟩ }

def anyRow : Pushdown Bytes := .filter (fun _ => .ok true)

def threeReplicas : List NodeId := [⟨"a"⟩, ⟨"b"⟩, ⟨"c"⟩]

-- `c` has an old version of the first row, and reads while `b` is down for the lookup and `a`
-- for the reads that follow.
def divergedLookup : LookupEnv Bytes :=
  lookupEnv (fun node => (OrdMap.empty.insert [1]
    (if node ∈ threeReplicas.take 2 then (⟨5, 0⟩, .put [7]) else (⟨2, 0⟩, .put [6]))).insert [2] (⟨3, 0⟩, .put [8]))
    (fun node => node = ⟨"a"⟩) threeReplicas

def divergedAnswer : Resolved Bytes :=
  ⟨[([1], ⟨5, 0⟩, some [7]), ([2], ⟨3, 0⟩, some [8])], [([1], [7]), ([2], [8])]⟩

def lookupAtC (env : LookupEnv Bytes) : Option (Except EngineError (Resolved Bytes)) :=
  (quorumNode "c").lookup (fun bytes => .ok (some bytes)) [(⟨"a"⟩, "a"), (⟨"b"⟩, "b")] (some .quorum) env anyRow 1

def missedLookup : LookupEnv Bytes :=
  lookupEnv
    (fun node => if node ∈ threeReplicas.take 2 then OrdMap.empty.insert [1] (⟨5, 0⟩, .put [7]) else OrdMap.empty)
    (fun _ => false) threeReplicas

end Complete

end Skaidb.Cluster
