import Skaidb.Proto.Message

namespace Skaidb.Proto

open Skaidb.Base Skaidb.Types Reader Wire List ClientRequest

section Fits

def ParamsFit (params : List Value) : Prop := params.length < 2 ^ 16 ∧ ∀ v ∈ params, ValueFits v

-- Texts, values and lists have lengths below 2^32, and lists of parameters below 2^16.
def ClientRequest.Fits : ClientRequest → Prop
  | .query sql _ | .prepare sql => StrFits sql
  | .execute _ params _ => ParamsFit params
  | .close _ => True
  | .queryStream sql _ => StrFits sql
  | .executeBatch _ rows _ => ListFits ParamsFit rows

def RowsFit (data : List (List Value)) : Prop := ListFits (ListFits ValueFits) data

def Response.Fits : Response → Prop
  | .rows columns data => ListFits StrFits columns ∧ RowsFit data
  | .error message => StrFits message
  | .rowsHeader columns => ListFits StrFits columns
  | .rowsChunk data => RowsFit data
  | .mutation _ | .ddl | .prepared _ _ | .rowsEnd => True

end Fits

section Requests

private theorem reads_opcode {β : Type} {tag : UInt8} {f : UInt8 → Cursor β} {bs : Bytes} {b : β}
    (h : Reads (f tag) bs b) : Reads (Cursor.u8 >>= f) (tag :: bs) b :=
  (reads_u8 tag).bind h

theorem reads_consistency {c : Consistency} : Reads Cursor.consistency [c.toU8] c :=
  reads_opcode (by cases c <;> exact Reads.pure _)

theorem reads_params {params : List Value} (h : ParamsFit params) :
    Reads Cursor.params (putParams params) params := by
  have hcount : Reads Cursor.u16 _ _ := reads_u16 (UInt16.ofNat params.length)
  rw [UInt16.toNat_ofNat_of_lt' h.1] at hcount
  refine hcount.bind ?_
  rw [UInt16.toNat_ofNat_of_lt' h.1]
  exact Reads.many params (fun v hv => reads_value (h.2 v hv))

theorem reads_clientRequest {req : ClientRequest} (h : req.Fits) : Reads read req.encode req := by
  cases req with
  | query sql c => exact reads_opcode (reads_consistency.bind ((reads_string h).map _))
  | prepare sql => exact reads_opcode ((reads_string h).map _)
  | execute id params c =>
    exact reads_opcode (reads_consistency.bind ((reads_u32 id).bind ((reads_params h).map _)))
  | close id => exact reads_opcode ((reads_u32 id).map _)
  | queryStream sql c => exact reads_opcode (reads_consistency.bind ((reads_string h).map _))
  | executeBatch id rows c =>
    exact reads_opcode (reads_consistency.bind ((reads_u32 id).bind
      ((reads_counted h (fun _ hp => reads_params hp)).map _)))

theorem yields_consistency : Yields Cursor.consistency (fun _ _ => True) := by
  refine yields_u8.bind (fun b m _ => ?_)
  split
  · exact Yields.pure trivial
  · exact Yields.fail _ _

theorem yields_params : Yields Cursor.params (fun params _ => ParamsFit params) := by
  refine yields_u16.bind (fun n m _ => ?_)
  intro xs params rest h
  obtain ⟨k, hk, hlen, hall⟩ := Yields.many yields_value n.toNat xs params rest h
  exact ⟨k, hk, hlen.trans_lt n.toNat_lt, hall⟩

theorem yields_clientRequest : Yields read (fun req _ => req.Fits) := by
  refine yields_u8.bind (fun tag m _ => ?_)
  split
  · exact yields_consistency.bind (fun c _ _ => yields_string.map (fun _ _ h => h))
  · exact yields_string.map (fun _ _ h => h)
  · exact yields_consistency.bind (fun c _ _ => yields_u32.bind (fun id _ _ => yields_params.map (fun _ _ h => h)))
  · exact yields_u32.map (fun _ _ h => h)
  · exact yields_consistency.bind (fun c _ _ => yields_u32.bind (fun id _ _ =>
      (yields_counted yields_params).map (fun _ _ h => h)))
  · exact yields_consistency.bind (fun c _ _ => yields_string.map (fun _ _ h => h))
  · exact Yields.fail _ _

end Requests

section Responses

theorem reads_rows {data : List (List Value)} (h : RowsFit data) :
    Reads decodeRows (putCounted encodeRow data) data :=
  reads_counted h (fun _ hrow => reads_counted hrow (fun _ hv => reads_value hv))

theorem reads_columns {columns : List String} (h : ListFits StrFits columns) :
    Reads decodeColumns (encodeColumns columns) columns :=
  reads_counted h (fun _ hs => reads_string hs)

theorem reads_response {res : Response} (h : res.Fits) : Reads Response.read res.encode res := by
  cases res with
  | rows columns data => exact reads_opcode ((reads_columns h.1).bind ((reads_rows h.2).map _))
  | mutation affected => exact reads_opcode (reads_u64.map _)
  | ddl => exact reads_opcode (Reads.pure _)
  | error message => exact reads_opcode ((reads_string h).map _)
  | prepared id params => exact reads_opcode ((reads_u32 id).bind ((reads_u16 params).map _))
  | rowsHeader columns => exact reads_opcode ((reads_columns h).map _)
  | rowsChunk data => exact reads_opcode ((reads_rows h).map _)
  | rowsEnd => exact reads_opcode (Reads.pure _)

theorem yields_rows : Yields decodeRows (fun data _ => RowsFit data) :=
  yields_counted (yields_counted yields_value)

theorem yields_columns : Yields decodeColumns (fun columns _ => ListFits StrFits columns) :=
  yields_counted yields_string

theorem yields_response : Yields Response.read (fun res _ => res.Fits) := by
  refine yields_u8.bind (fun tag m _ => ?_)
  split
  · exact yields_columns.bind (fun _ _ hc => yields_rows.map (fun _ _ hr => ⟨hc, hr⟩))
  · exact yields_u64.map (fun _ _ h => h)
  · exact Yields.pure trivial
  · exact yields_string.map (fun _ _ h => h)
  · exact yields_u32.bind (fun id _ _ => yields_u16.map (fun _ _ h => h))
  · exact yields_columns.map (fun _ _ h => h)
  · exact yields_rows.map (fun _ _ h => h)
  · exact Yields.pure trivial
  · exact Yields.fail _ _

end Responses

section Tags

def encodeRequest (tag : Option UInt32) (req : ClientRequest) : Bytes :=
  match tag with
  | none => req.encode
  | some id => encodeTaggedRequest id req

def encodeResponse (tag : Option UInt32) (res : Response) : Bytes :=
  match tag with
  | none => res.encode
  | some id => tagResponse [] id ++ res.encode

private theorem map_pair_eq_iff {α : Type} (x : Except ProtoError α) (tag : Option UInt32) (a : α) :
    x.map (fun a => (tag, a)) = .ok (tag, a) ↔ x = .ok a := by
  cases x <;> simp [Except.map]

private theorem leNat_id (id : UInt32) : UInt32.ofNat (leNat (leBytes 4 id.toNat)) = id := by
  rw [leNat_leBytes, Nat.mod_eq_of_lt (by simpa using id.toNat_lt), UInt32.ofNat_toNat]

theorem ClientRequest.encode_cons (req : ClientRequest) : ∃ tag rest, req.encode = tag :: rest ∧ tag ≠ 6 := by
  cases req <;> exact ⟨_, _, rfl, by decide⟩

theorem Response.encode_cons (res : Response) : ∃ tag rest, res.encode = tag :: rest ∧ tag ≠ 8 := by
  cases res <;> exact ⟨_, _, rfl, by decide⟩

theorem decodeClientRequest_iff {req : ClientRequest} :
    decodeClientRequest (encodeRequest tag req) = .ok (tag, req) ↔ req.Fits := by
  obtain ⟨op, rest, hcons, hop⟩ := req.encode_cons
  have hiff : decode req.encode = .ok req ↔ req.Fits :=
    map_fst_eq_iff (fun _ => reads_clientRequest) yields_clientRequest
  rw [← hiff, decodeClientRequest]
  cases tag with
  | none =>
    rw [encodeRequest, if_neg (by simp [hcons, hop]), map_pair_eq_iff]
  | some id =>
    have hdrop : (encodeTaggedRequest id req).drop 5 = req.encode := by
      rw [encodeTaggedRequest, drop_succ_cons, drop_left' length_leBytes]
    have htake : ((encodeTaggedRequest id req).drop 1).take 4 = leBytes 4 id.toNat := by
      rw [encodeTaggedRequest, drop_succ_cons, drop_zero, take_left' length_leBytes]
    rw [encodeRequest, if_pos (by simp [encodeTaggedRequest]), if_neg (by simp [encodeTaggedRequest, hcons]; omega),
      hdrop, htake, leNat_id, if_neg (by simp [hcons, hop]), map_pair_eq_iff]

theorem decodeTaggedResponse_iff {res : Response} :
    decodeTaggedResponse (encodeResponse tag res) = .ok (tag, res) ↔ res.Fits := by
  obtain ⟨op, rest, hcons, hop⟩ := res.encode_cons
  have hiff : Response.decode res.encode = .ok res ↔ res.Fits :=
    map_fst_eq_iff (fun _ => reads_response) yields_response
  rw [← hiff, decodeTaggedResponse]
  cases tag with
  | none =>
    rw [encodeResponse, if_neg (by simp [hcons, hop]), map_pair_eq_iff]
  | some id =>
    have hdrop : (tagResponse [] id ++ res.encode).drop 5 = res.encode :=
      drop_left' (by simp [tagResponse])
    have htake : ((tagResponse [] id ++ res.encode).drop 1).take 4 = leBytes 4 id.toNat :=
      take_left' length_leBytes
    rw [encodeResponse, if_pos (by simp [tagResponse]), if_neg (by simp [tagResponse, hcons]; omega), hdrop, htake,
      leNat_id, map_pair_eq_iff]

end Tags

section Chunks

open RowsChunkEncoder

theorem foldl_pushRow {rows : List (List Value)} {e : RowsChunkEncoder} :
    rows.foldl (fun s row => s.1.pushRow s.2 row) (e, out) =
      (⟨e.countPos, e.count + UInt32.ofNat rows.length⟩, out ++ rows.flatMap encodeRow) := by
  induction rows generalizing e out with
  | nil => simp
  | cons row rows ih =>
    rw [foldl_cons, pushRow, ih, flatMap_cons, append_assoc, length_cons,
      UInt32.ofNat_add, UInt32.add_assoc, UInt32.add_comm 1]
    rfl

theorem finish_eq {out tail : Bytes} {count : UInt32} :
    finish ⟨out.length + 1, count⟩ (out ++ [6] ++ [0, 0, 0, 0] ++ tail) =
      out ++ 6 :: (leBytes 4 count.toNat ++ tail) := by
  have hlen : (out ++ [6]).length = out.length + 1 := by simp
  have hlen' : (out ++ [6] ++ [0, 0, 0, 0]).length = out.length + 1 + 4 := by simp
  show List.take _ _ ++ leBytes 4 _ ++ List.drop _ _ = _
  rw [drop_left' hlen', append_assoc (out ++ [6]), take_left' hlen]
  simp

theorem encodeAll_eq : encodeAll out rows = out ++ (Response.rowsChunk rows).encode := by
  have hcount : leBytes 4 (0 + UInt32.ofNat rows.length).toNat = leBytes 4 rows.length := by
    have hwrap := leBytes_leNat (leBytes 4 rows.length)
    rw [length_leBytes, leNat_leBytes] at hwrap
    rwa [UInt32.zero_add, UInt32.toNat_ofNat']
  rw [encodeAll, begin, foldl_pushRow]
  exact finish_eq.trans (by rw [hcount]; rfl)

end Chunks

section RoundTrip

theorem roundTrip_iff (tag : Option UInt32) (req : ClientRequest) (res : Response) (out : Bytes)
    (rows : List (List Value)) : (decodeClientRequest (encodeRequest tag req) = .ok (tag, req) ↔ req.Fits) ∧
    (decodeTaggedResponse (encodeResponse tag res) = .ok (tag, res) ↔ res.Fits) ∧
    RowsChunkEncoder.encodeAll out rows = out ++ (Response.rowsChunk rows).encode :=
  ⟨decodeClientRequest_iff, decodeTaggedResponse_iff, encodeAll_eq⟩

-- With a count that wraps to zero all parameters are left behind the request.
theorem decode_execute_lost :
    decodeClientRequest (encodeRequest none (.execute 1 (List.replicate 65536 .null) .quorum)) =
      .ok (none, .execute 1 [] .quorum) := by
  have hbytes : (execute 1 (replicate 65536 .null) .quorum).encode =
      (execute 1 [] .quorum).encode ++ (replicate 65536 Value.null).flatMap putValue := by
    simp only [encode, putParams, length_replicate]
    rfl
  have hfits : (execute 1 [] .quorum).Fits := ⟨by decide, by simp⟩
  have hread := reads_clientRequest hfits
  rw [encodeRequest, hbytes]
  generalize (replicate 65536 Value.null).flatMap putValue = rest
  rw [decodeClientRequest, if_neg (by simp [encode]), decode, hread rest]
  rfl

end RoundTrip

end Skaidb.Proto
