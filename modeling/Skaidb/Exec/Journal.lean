import Mathlib.Data.String.Basic
import Skaidb.Base.OrdMap
import Skaidb.Exec.Basics
import Skaidb.Types.Encode

namespace Skaidb.Exec

open Skaidb.Types Skaidb.Base List Cursor

abbrev RowId := String ×ₗ Bytes

abbrev TxnWrites := OrdMap RowId (Option Document)

def fnv1a (data : Bytes) : UInt64 :=
  data.foldl (fun h b => (h ^^^ b.toUInt64) * 0x100000001b3) 0xcbf29ce484222325

namespace Journal

def magic : Bytes := utf8 "SKTXJ1"

def opBytes : Option Document → Bytes
  | some doc => 1 :: writeBytes (encodeDocument doc)
  | none => [0]

def entryBytes (entry : RowId × Option Document) : Bytes :=
  writeBytes (utf8 (ofLex entry.1).1) ++ (writeBytes (ofLex entry.1).2 ++ opBytes entry.2)

variable (writes : TxnWrites)

def body : Bytes :=
  magic ++ (leBytes 4 writes.entries.length ++ writes.entries.flatMap entryBytes)

def encode : Bytes := body writes ++ leBytes 8 (fnv1a (body writes)).toNat

def readOp : Cursor (Option Document) := do
  match (← Cursor.u8).toNat with
  | 0 => return none
  | _ =>
    match decodeDocument (← Cursor.bytes) with
    | some doc => return some doc
    | none => Cursor.fail "journalled row is not a document"

def readEntries : Nat → TxnWrites → Cursor TxnWrites
  | 0, writes => pure writes
  | n + 1, writes => do
      let table ← Cursor.string
      let key ← Cursor.bytes
      let op ← readOp
      readEntries n (writes.insert (toLex (table, key)) op)

def readBody : Cursor TxnWrites := do readEntries (← Cursor.u32) OrdMap.empty

-- `read_txn_journal`. Whatever cannot be read counts as never committed.
def decode (buf : Bytes) : Option TxnWrites :=
  if buf.length < 6 + 4 + 8 ∨ buf.take 6 ≠ magic then none
  else
    let body := buf.take (buf.length - 8)
    if (fnv1a body).toNat ≠ leNat (buf.drop (buf.length - 8)) then none
    else match readBody (body.drop 6) with
      | .ok (writes, _) => some writes
      | .error _ => none

section RoundTrip

def StorableEntry (entry : RowId × Option Document) : Prop :=
  (utf8 (ofLex entry.1).1).length < 2 ^ 32 ∧ (ofLex entry.1).2.length < 2 ^ 32 ∧
    ∀ doc ∈ entry.2, (Value.document doc).Storable ∧ (encodeDocument doc).length < 2 ^ 32
deriving Decidable

def Storable : Prop :=
  writes.entries.length < 2 ^ 32 ∧ ∀ entry ∈ writes.entries, StorableEntry entry
deriving Decidable

theorem decodeDocument_encodeDocument {doc : Document} (h : (Value.document doc).Storable) :
    decodeDocument (encodeDocument doc) = some doc := by
  rw [decodeDocument, encodeDocument, Value.decode_encode h]

theorem reads_op {op : Option Document}
    (h : ∀ doc ∈ op, (Value.document doc).Storable ∧ (encodeDocument doc).length < 2 ^ 32) :
    Cursor.Reads readOp (opBytes op) op := by
  cases op with
  | none => exact (reads_u8 0).bind (Reads.pure none)
  | some doc =>
    obtain ⟨hdoc, hlen⟩ := h doc rfl
    have hread := (reads_bytes hlen).bind (f := fun b => match decodeDocument b with
      | some doc => return some doc
      | none => fail "journalled row is not a document")
      (by rw [decodeDocument_encodeDocument hdoc]; exact Reads.pure (some doc))
    rw [append_nil] at hread
    exact (reads_u8 1).bind hread

theorem reads_entries (entries : List (RowId × Option Document)) (acc writes : TxnWrites)
    (heq : writes.entries = acc.entries ++ entries) (h : ∀ entry ∈ entries, StorableEntry entry) :
    Cursor.Reads (readEntries entries.length acc) (entries.flatMap entryBytes) writes := by
  induction entries generalizing acc with
  | nil =>
    obtain rfl : writes = acc := OrdMap.ext_entries (heq.trans (append_nil _))
    exact Reads.pure writes
  | cons entry entries ih =>
    obtain ⟨id, op⟩ := entry
    obtain ⟨⟨htable, hkey, hop⟩, hentries⟩ := forall_mem_cons.mp h
    have hlast : ∀ e ∈ acc.entries, e.1 < id := fun e he =>
      (pairwise_append.mp (heq ▸ writes.sorted)).2.2 e he _ mem_cons_self
    have hinsert : writes.entries = (acc.insert id op).entries ++ entries := by
      rw [show (acc.insert id op).entries = _ from OrdMap.insertEntry_of_lt hlast, heq,
        append_assoc, singleton_append]
    have hrest := ih (acc.insert id op) hinsert hentries
    rw [flatMap_cons, entryBytes, append_assoc, append_assoc]
    exact (reads_string htable).bind ((reads_bytes hkey).bind ((reads_op hop).bind hrest))

theorem decode_encode {writes : TxnWrites} (h : Storable writes) : decode (encode writes) = some writes := by
  have hmagic : magic.length = 6 := by decide
  have hsum : (leBytes 8 (fnv1a (body writes)).toNat).length = 8 := length_leBytes ..
  have hlen : (encode writes).length - 8 = (body writes).length := by
    rw [encode, length_append, hsum, Nat.add_sub_cancel]
  have hbody : 10 ≤ (body writes).length := by
    rw [body, length_append, length_append, hmagic, length_leBytes]
    omega
  have htake : (encode writes).take 6 = magic := by
    rw [encode, body, append_assoc]
    exact take_left' hmagic
  have hleft : (encode writes).take (body writes).length = body writes := take_left' rfl
  have hright : (encode writes).drop (body writes).length = leBytes 8 (fnv1a (body writes)).toNat :=
    drop_left' rfl
  have hdrop : (body writes).drop 6 = leBytes 4 writes.entries.length ++ writes.entries.flatMap entryBytes :=
    drop_left' hmagic
  have hread : readBody ((body writes).drop 6) = .ok (writes, []) := by
    have hreads := (reads_u32 h.1).bind (f := fun n => readEntries n OrdMap.empty)
      (reads_entries writes.entries OrdMap.empty writes (nil_append _).symm h.2) []
    rwa [append_nil, ← hdrop] at hreads
  have hword : leNat (leBytes 8 (fnv1a (body writes)).toNat) = (fnv1a (body writes)).toNat := by
    rw [leNat_leBytes, Nat.mod_eq_of_lt (by simpa using (fnv1a (body writes)).toNat_lt)]
  have hlong : ¬ ((encode writes).length < 6 + 4 + 8 ∨ (encode writes).take 6 ≠ magic) := by
    rw [htake, encode, length_append, hsum]
    simp only [ne_eq, not_true_eq_false, or_false]
    omega
  simp only [decode, if_neg hlong, hlen, hleft, hright, hword, ne_eq, not_true_eq_false, if_false, hread]

end RoundTrip

end Journal

end Skaidb.Exec
