import Skaidb.Base.Format
import Skaidb.Storage.WalFormat.Records
import Skaidb.Types.Wire

namespace Skaidb.Cluster.Internode

open Skaidb.Base Skaidb.Types Skaidb.Storage Reader List Wire

inductive WireError where
  | malformed (what : String)
  deriving DecidableEq, Repr

abbrev Cur (α : Type) := Reader UInt8 WireError α

abbrev Wired := Format UInt8 WireError

def short : WireError := .malformed "short"

section Fields

def u32 : Wired :=
  ⟨UInt32, fun v => leBytes 4 v.toNat, Wire.u32 short, fun _ => True, fun v _ => Wire.reads_u32 v, Wire.yields_u32⟩

def u64 : Wired :=
  ⟨UInt64, fun v => leBytes 8 v.toNat, Wire.u64 short, fun _ => True, fun _ _ => Wire.reads_u64, Wire.yields_u64⟩

def i64 : Wired := u64.via Int64.toUInt64 UInt64.toInt64 (fun _ => rfl) (fun _ h => h)

-- A float is its bit pattern.
def f32 : Wired := u32

def f64 : Wired := u64.via F64.bits F64.mk (fun _ => rfl) (fun _ h => h)

def bytes : Wired :=
  ⟨Bytes, writeBytes, Wire.bytes short, fun b => b.length < 2 ^ 32, fun _ => Wire.reads_bytes, Wire.yields_bytes⟩

def string : Wired where
  Val := String
  put := Wire.putStr
  read := Wire.string short (.malformed "bad utf-8")
  Ok := Wire.StrFits
  reads _ := Wire.reads_string
  yields := Wire.yields_string

def hlc : Wired where
  Val := Hlc
  put := Hlc.toBytes
  read := do return Hlc.fromBytes (← Wire.take short 12)
  Ok _ := True
  reads h _ := by
    have htake : Reads (Wire.take short _) _ _ := Wire.reads_take h.toBytes
    have hread := htake.map Hlc.fromBytes
    rwa [Hlc.length_toBytes, Hlc.fromBytes_toBytes] at hread
  yields := Wire.yields_word 12 _

def list (f : Wired) : Wired := f.counted (leBytes 4) (do return (← Wire.u32 short).toNat) (2 ^ 32)
  (fun n hn => by
    have hcount : Reads (Wire.u32 short) _ _ := Wire.reads_u32 (UInt32.ofNat n)
    have hread := hcount.map UInt32.toNat
    rwa [UInt32.toNat_ofNat_of_lt' hn] at hread)
  (Wire.yields_u32.map (fun n _ _ => n.toNat_lt))

-- Some flags are compared with 1 where they are read, others with 0.
structure Flag where
  isSet : UInt8 → Bool
  one : isSet 1 = true
  zero : isSet 0 = false

def isOne : Flag := ⟨fun b => b == 1, rfl, rfl⟩

def nonzero : Flag := ⟨fun b => b != 0, rfl, rfl⟩

def mark (b : Bool) : Bytes := [if b then 1 else 0]

variable (t : Flag)

def Flag.read : Cur Bool := do return t.isSet (← Wire.u8 short)

theorem Flag.reads (b : Bool) : Reads t.read (mark b) b := by
  have hread : Reads t.read (mark b) (t.isSet (if b then 1 else 0)) := (reads_u8 _).map t.isSet
  cases b with
  | true => rwa [if_pos rfl, t.one] at hread
  | false => rwa [if_neg Bool.false_ne_true, t.zero] at hread

theorem Flag.yields : Yields t.read (fun _ _ => True) := yields_u8.map (fun _ _ _ => trivial)

def flag : Wired := ⟨Bool, mark, t.read, fun _ => True, fun b _ => t.reads b, t.yields⟩

def opt (f : Wired) : Wired :=
  (Format.sum mark t.read t.reads t.yields (fun present => if present then f else .unit)).via
    (fun
      | none => ⟨false, ()⟩
      | some a => ⟨true, a⟩)
    (fun
      | ⟨false, _⟩ => none
      | ⟨true, a⟩ => some a)
    (fun a => by cases a <;> rfl)
    (fun b h => by obtain ⟨_ | _, _⟩ := b <;> exact h)

end Fields

section Codes

variable {α : Type}

def codeOf [DecidableEq α] (all : List α) (first : UInt8) (a : α) : UInt8 := first + UInt8.ofNat (all.idxOf a)

def ofCode (all : List α) (first : UInt8) (bad : WireError) : Cur α := do
  match all[((← Wire.u8 short) - first).toNat]? with
  | some a => return a
  | none => Reader.fail bad

theorem reads_ofCode [DecidableEq α] {all : List α} (first : UInt8) (bad : WireError) (hlen : all.length ≤ 256)
    {a : α} (ha : a ∈ all) : Reads (ofCode all first bad) [codeOf all first a] a := by
  have hidx := idxOf_lt_length_of_mem ha
  have hcode : all[(codeOf all first a - first).toNat]? = some a := by
    have hsub : codeOf all first a - first = UInt8.ofNat (all.idxOf a) := by
      rw [codeOf, UInt8.add_comm, UInt8.add_sub_cancel]
    rw [hsub, UInt8.toNat_ofNat_of_lt' (by simpa using hidx.trans_le hlen), getElem?_eq_getElem hidx,
      getElem_idxOf]
  refine (reads_u8 _).bind ?_
  rw [hcode]
  exact Reads.pure a

theorem yields_ofCode (all : List α) (first : UInt8) (bad : WireError) :
    Yields (ofCode all first bad) (fun _ _ => True) := by
  refine yields_u8.bind (fun b _ _ => ?_)
  split
  · exact Yields.pure trivial
  · exact Yields.fail _ _

end Codes

section Filters

inductive UnaryOp where
  | not | neg
  deriving DecidableEq, Repr

inductive BinaryOp where
  | eq | notEq | lt | ltEq | gt | gtEq | and | or | add | sub | mul | div
  deriving DecidableEq, Repr

def unaryOps : List UnaryOp := [.not, .neg]

def binaryOps : List BinaryOp := [.eq, .notEq, .lt, .ltEq, .gt, .gtEq, .and, .or, .add, .sub, .mul, .div]

inductive Expr where
  | literal (v : Value)
  | parameter (index : UInt16)
  | column (path : String)
  | unary (op : UnaryOp) (expr : Expr)
  | binary (op : BinaryOp) (left right : Expr)
  | isNull (expr : Expr) (negated : Bool)
  | inList (expr : Expr) (list : List Expr) (negated : Bool)
  | between (expr lo hi : Expr) (negated : Bool)
  | like (expr pattern : Expr) (caseInsensitive negated : Bool)
  | aggregate
  | func (name : String) (args : List Expr)

mutual

def putExpr : Expr → Bytes
  | .literal v => 0 :: Wire.putValue v
  | .column path => 1 :: Wire.putStr path
  | .unary op e => 2 :: ([codeOf unaryOps 0 op] ++ putExpr e)
  | .binary op l r => 3 :: ([codeOf binaryOps 0 op] ++ (putExpr l ++ putExpr r))
  | .isNull e negated => 4 :: (putExpr e ++ mark negated)
  | .inList e es negated => 5 :: (putExpr e ++ ((leBytes 4 es.length ++ putExprs es) ++ mark negated))
  | .between e lo hi negated => 6 :: (putExpr e ++ (putExpr lo ++ (putExpr hi ++ mark negated)))
  | .like e pattern ci negated => 7 :: (putExpr e ++ (putExpr pattern ++ (mark ci ++ mark negated)))
  | .aggregate | .parameter _ | .func _ _ => [255]

def putExprs : List Expr → Bytes
  | [] => []
  | e :: es => putExpr e ++ putExprs es

end

-- Every level of nesting takes a byte, so as many levels as there are bytes are enough.
def exprWithin : Nat → Cur Expr
  | 0 => Reader.fail short
  | fuel + 1 => do
      match (← Wire.u8 short).toNat with
      | 0 => return .literal (← Wire.value short (.malformed "bad value"))
      | 1 => return .column (← string.read)
      | 2 =>
        let op ← ofCode unaryOps 0 (.malformed "bad unary op")
        return .unary op (← exprWithin fuel)
      | 3 =>
        let op ← ofCode binaryOps 0 (.malformed "bad binary op")
        let l ← exprWithin fuel
        return .binary op l (← exprWithin fuel)
      | 4 =>
        let e ← exprWithin fuel
        return .isNull e (← nonzero.read)
      | 5 =>
        let e ← exprWithin fuel
        let es ← Wire.counted short (exprWithin fuel)
        return .inList e es (← nonzero.read)
      | 6 =>
        let e ← exprWithin fuel
        let lo ← exprWithin fuel
        let hi ← exprWithin fuel
        return .between e lo hi (← nonzero.read)
      | 7 =>
        let e ← exprWithin fuel
        let pattern ← exprWithin fuel
        let ci ← nonzero.read
        return .like e pattern ci (← nonzero.read)
      | _ => Reader.fail (.malformed "unsupported filter expr")

-- The filters with a written form, as far as their lengths fit.
inductive Expr.Pushable : Expr → Prop
  | literal {v} (h : Wire.ValueFits v) : Pushable (.literal v)
  | column {path} (h : Wire.StrFits path) : Pushable (.column path)
  | unary {op e} (h : e.Pushable) : Pushable (.unary op e)
  | binary {op l r} (hl : l.Pushable) (hr : r.Pushable) : Pushable (.binary op l r)
  | isNull {e negated} (h : e.Pushable) : Pushable (.isNull e negated)
  | inList {e es negated} (h : e.Pushable) (hlen : es.length < 2 ^ 32) (hes : ∀ x ∈ es, x.Pushable) :
      Pushable (.inList e es negated)
  | between {e lo hi negated} (h : e.Pushable) (hlo : lo.Pushable) (hhi : hi.Pushable) :
      Pushable (.between e lo hi negated)
  | like {e pattern ci negated} (h : e.Pushable) (hp : pattern.Pushable) : Pushable (.like e pattern ci negated)

theorem putExprs_eq {es : List Expr} : putExprs es = es.flatMap putExpr := by
  induction es with
  | nil => rfl
  | cons e es ih => rw [putExprs, ih, flatMap_cons]

theorem length_putExpr_le {e : Expr} {es : List Expr} (h : e ∈ es) :
    (putExpr e).length ≤ (putExprs es).length := by
  obtain ⟨front, rest, rfl⟩ := append_of_mem h
  simp only [putExprs_eq, flatMap_append, flatMap_cons, length_append]
  omega

private theorem reads_tag {β : Type} {tag : UInt8} {f : UInt8 → Cur β} {bs : Bytes} {b : β}
    (h : Reads (f tag) bs b) : Reads (Wire.u8 short >>= f) (tag :: bs) b :=
  (reads_u8 tag).bind h

theorem reads_exprWithin {e : Expr} (h : e.Pushable) (hlen : (putExpr e).length ≤ fuel) :
    Reads (exprWithin fuel) (putExpr e) e := by
  induction fuel generalizing e with
  | zero => cases h <;> simp [putExpr] at hlen
  | succ fuel ih =>
    cases h with
    | literal h => exact reads_tag ((reads_value h).map _)
    | column h => exact reads_tag ((reads_string h).map _)
    | @unary op e h =>
      simp only [putExpr, length_cons, length_append] at hlen
      exact reads_tag ((reads_ofCode 0 _ (by decide) (by cases op <;> decide)).bind
        ((ih h (by omega)).map _))
    | @binary op l r hl hr =>
      simp only [putExpr, length_cons, length_append] at hlen
      exact reads_tag ((reads_ofCode 0 _ (by decide) (by cases op <;> decide)).bind
        ((ih hl (by omega)).bind ((ih hr (by omega)).map _)))
    | isNull h =>
      simp only [putExpr, length_cons, length_append] at hlen
      exact reads_tag ((ih h (by omega)).bind ((nonzero.reads _).map _))
    | @inList e es negated h hcount hes =>
      simp only [putExpr, length_cons, length_append] at hlen
      have hall : ListFits (fun x => x.Pushable ∧ (putExpr x).length ≤ fuel) es :=
        ⟨hcount, fun x hx => ⟨hes x hx, (length_putExpr_le hx).trans (by omega)⟩⟩
      have hitems : Reads (counted short _) _ _ := reads_counted hall (fun x hx => ih hx.1 hx.2)
      rw [putCounted, ← putExprs_eq] at hitems
      exact reads_tag ((ih h (by omega)).bind (hitems.bind ((nonzero.reads _).map _)))
    | between h hlo hhi =>
      simp only [putExpr, length_cons, length_append] at hlen
      exact reads_tag ((ih h (by omega)).bind ((ih hlo (by omega)).bind
        ((ih hhi (by omega)).bind ((nonzero.reads _).map _))))
    | like h hp =>
      simp only [putExpr, length_cons, length_append] at hlen
      exact reads_tag ((ih h (by omega)).bind ((ih hp (by omega)).bind
        ((nonzero.reads _).bind ((nonzero.reads _).map _))))

theorem yields_exprWithin : Yields (exprWithin fuel) (fun e _ => e.Pushable) := by
  induction fuel with
  | zero => exact Yields.fail _ _
  | succ fuel ih =>
    refine yields_u8.bind (fun tag _ _ => ?_)
    split
    · exact yields_value.map (fun _ _ h => .literal h)
    · exact yields_string.map (fun _ _ h => .column h)
    · exact (yields_ofCode _ _ _).bind (fun _ _ _ => ih.map (fun _ _ h => .unary h))
    · exact (yields_ofCode _ _ _).bind (fun _ _ _ => ih.bind (fun _ _ hl => ih.map (fun _ _ hr => .binary hl hr)))
    · exact ih.bind (fun _ _ h => nonzero.yields.map (fun _ _ _ => .isNull h))
    · exact ih.bind (fun _ _ h => (yields_counted ih).bind (fun _ _ hes =>
        nonzero.yields.map (fun _ _ _ => .inList h hes.1 hes.2)))
    · exact ih.bind (fun _ _ h => ih.bind (fun _ _ hlo => ih.bind (fun _ _ hhi =>
        nonzero.yields.map (fun _ _ _ => .between h hlo hhi))))
    · exact ih.bind (fun _ _ h => ih.bind (fun _ _ hp => nonzero.yields.bind (fun _ _ _ =>
        nonzero.yields.map (fun _ _ _ => .like h hp))))
    · exact Yields.fail _ _

def expr : Wired where
  Val := Expr
  put := putExpr
  read ahead := exprWithin ahead.length ahead
  Ok := Expr.Pushable
  reads e h rest := reads_exprWithin h (by simp) rest
  yields ahead := yields_exprWithin ahead

end Filters

section Messages

open Format

def labels : Wired := list (string.pair string)

def members : Wired := list (string.pair string)

def keys : Wired := list bytes

def optBytes : Wired := opt isOne bytes

def rows : Wired := list (fields [bytes, bytes, hlc, flag nonzero])

def matchers : Wired := list (fields [flag nonzero, string, string])

def tsRows : Wired := list (fields [labels, i64, f64])

def tsSeries : Wired := list (labels.pair (list (i64.pair f64)))

-- In the order of the constants `REQ_*`, which count from 1.
inductive RequestOp where
  | applyPut | applyDelete | localScan | applyDdl | ping | localGet | indexScan | vectorSearch | setMembership
  | rebalance | drain | reclaim | repair | filteredScan | schemaDdl | announce | nodeStatus | applyBatch | scanPage
  | tsAppend | tsQuery | tsMerge | tsSummary | tsPartials | search | searchAgg | searchSorted | searchExplain
  | hostStats | sortedScan | repairDigest | entryRange | gidxReady | keysPresent | gidxProduced | tableSeq
  | scanSincePage | repairSeq | dataBytes | tsSeriesSets | tsQueryPaged
  deriving DecidableEq, Repr

def requestOps : List RequestOp := (List.range 41).map .ofNat

def RequestOp.body : RequestOp → Wired
  | .applyPut => fields [string, bytes, bytes, hlc]
  | .applyDelete => fields [string, bytes, hlc]
  | .applyBatch => fields [string, rows]
  | .localScan | .tableSeq | .tsSummary | .gidxReady | .rebalance => string
  | .scanPage => fields [string, optBytes, u32]
  | .scanSincePage => fields [string, u64, optBytes, u32]
  | .tsAppend | .tsMerge => fields [string, tsRows]
  | .tsQuery => fields [string, matchers, i64, i64]
  | .tsQueryPaged => fields [string, matchers, i64, i64, u32]
  | .tsSeriesSets => fields [string, matchers]
  | .tsPartials => fields [string, matchers, i64, i64, i64]
  | .filteredScan => fields [string, expr]
  | .localGet => fields [string, bytes]
  | .indexScan => fields [string, optBytes, optBytes]
  | .sortedScan => fields [string, opt nonzero expr, string, flag nonzero, u32]
  | .repairDigest => fields [string, string]
  | .entryRange => fields [string, bytes, bytes, u32]
  | .keysPresent | .gidxProduced => fields [string, keys]
  | .vectorSearch => fields [string, list f32, u32]
  | .search | .announce => fields [string, string, u32]
  | .searchAgg => fields [string, string, string, u64]
  | .searchSorted => fields [string, string, string, u32, list (string.pair u32), u64]
  | .searchExplain => fields [string, string, bytes]
  | .applyDdl => fields [string, string, hlc]
  | .setMembership => fields [u64, members, members]
  | .drain => members
  | .reclaim | .repair | .repairSeq | .schemaDdl | .ping | .nodeStatus | .hostStats | .dataBytes => unit

def request : Wired := Format.sum (fun op => [codeOf requestOps 1 op])
  (ofCode requestOps 1 (.malformed "unknown request op"))
  (fun op => reads_ofCode 1 _ (by decide) (by cases op <;> decide)) (yields_ofCode _ _ _) RequestOp.body

-- In the order of the constants `RES_*`, which count from 0.
inductive ResponseOp where
  | ack | scan | err | pong | get | keys | vectorHits | schema | nodeStatus | tsSeries | tsSummaries | tsPartials
  | searchHits | searchAggRows | sortedRows | explanation | hostStats | digest | tableSeq | deltaPage | repairSeq
  | dataBytes | tsLabelSets | tsSeriesPage
  deriving DecidableEq, Repr

def responseOps : List ResponseOp := (List.range 24).map .ofNat

-- The time to resume at is written as 0 when there is none.
def tsSeriesPage : Wired := (fields [flag nonzero, i64, tsSeries]).via
  (fun p : tsSeries.Val × Option Int64 => (p.2.isSome, p.2.getD 0, p.1))
  (fun p : Bool × Int64 × tsSeries.Val => (p.2.2, if p.1 then some p.2.1 else none))
  (fun ⟨_, resume⟩ => by cases resume <;> rfl) (fun _ h => ⟨trivial, trivial, h.2.2⟩)

def ResponseOp.body : ResponseOp → Wired
  | .ack | .pong => unit
  | .scan => rows
  | .get => opt isOne (fields [bytes, hlc, flag isOne])
  | .keys => Internode.keys
  | .digest => list u64
  | .tableSeq | .repairSeq | .dataBytes => u64
  | .deltaPage => fields [rows, optBytes, flag nonzero]
  | .vectorHits | .searchHits => list (bytes.pair f32)
  | .searchAggRows | .sortedRows => optBytes
  | .explanation => opt isOne string
  | .schema => list (fields [string, string, hlc])
  | .err | .hostStats => string
  | .nodeStatus => fields [u64, list string, u64, u64]
  | .tsSummaries => list (fields [labels, u64, u64])
  | .tsSeries => Internode.tsSeries
  | .tsSeriesPage => Internode.tsSeriesPage
  | .tsLabelSets => list labels
  | .tsPartials => list (labels.pair (list (fields [i64, u64, f64, f64, f64, i64, f64, i64, f64, f64])))

def response : Wired := Format.sum (fun op => [codeOf responseOps 0 op])
  (ofCode responseOps 0 (.malformed "unknown response op"))
  (fun op => reads_ofCode 0 _ (by decide) (by cases op <;> decide)) (yields_ofCode _ _ _) ResponseOp.body

def encode (f : Wired) (m : f.Val) : Bytes := f.put m

-- Bytes after the message are not looked at.
def decode (f : Wired) (buf : Bytes) : Except WireError f.Val := (f.read buf).map Prod.fst

end Messages

section Frames

-- LZ4 gives back no more than the length it is told.
structure Compression where
  compress : Bytes → Bytes
  decompress : Bytes → Nat → Option Bytes
  brotli : Bytes → Option Bytes
  roundTrip : ∀ p, decompress (compress p) p.length = some p
  bounded : ∀ data n p, decompress data n = some p → p.length ≤ n

def frameEncode (c : Compression) (payload : Bytes) : Bytes :=
  if 256 ≤ payload.length ∧ (c.compress payload).length + 5 < payload.length then
    1 :: (leBytes 4 payload.length ++ c.compress payload)
  else 0 :: payload

def frameDecode (c : Compression) : Bytes → Except WireError Bytes
  | [] => .error (.malformed "empty frame")
  | tag :: rest =>
    if tag = 0 then .ok rest
    else if tag = 1 ∨ tag = 2 then
      if rest.length < 4 then .error (.malformed "short compressed frame")
      else
        match if tag = 1 then c.decompress (rest.drop 4) (leNat (rest.take 4)) else c.brotli (rest.drop 4) with
        | some payload => .ok payload
        | none => .error (.malformed "decompress")
    else .error (.malformed "unknown wire codec")

theorem frameDecode_frameEncode_iff {c : Compression} {p : Bytes} :
    frameDecode c (frameEncode c p) = .ok p ↔ p.length < 2 ^ 32 ∨ p.length ≤ (c.compress p).length + 5 := by
  unfold frameEncode
  split_ifs with hcomp
  · have hframe : frameDecode c (1 :: (leBytes 4 p.length ++ c.compress p)) =
        match c.decompress (c.compress p) (p.length % 256 ^ 4) with
        | some payload => .ok payload
        | none => .error (.malformed "decompress") := by
      simp [frameDecode, leNat_leBytes]
    rw [hframe]
    constructor
    · intro h
      left
      split at h
      case h_1 payload hsome =>
        cases h
        have hle := c.bounded _ _ _ hsome
        omega
      · cases h
    · intro h
      rw [Nat.mod_eq_of_lt (by omega), c.roundTrip]
  · have hraw : frameDecode c (0 :: p) = .ok p := rfl
    simp only [hraw, true_iff]
    omega

end Frames

theorem internode_roundTrip_iff (req : request.Val) (res : response.Val) (c : Compression) (payload : Bytes) :
    (decode request (encode request req) = .ok req ↔ request.Ok req) ∧
    (decode response (encode response res) = .ok res ↔ response.Ok res) ∧
    (frameDecode c (frameEncode c payload) = .ok payload ↔
      payload.length < 2 ^ 32 ∨ payload.length ≤ (c.compress payload).length + 5) :=
  ⟨request.decode_encode_iff req, response.decode_encode_iff res, frameDecode_frameEncode_iff⟩

def bucketFilter : Expr :=
  .binary .gtEq (.func "time_bucket" [.literal (.int 60000), .column "ts"]) (.literal (.int 0))

theorem filter_not_decoded : decode request (encode request ⟨.filteredScan, ("t", bucketFilter)⟩) =
      .error (.malformed "unsupported filter expr") := by
  rfl

end Skaidb.Cluster.Internode
