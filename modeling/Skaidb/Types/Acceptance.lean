import Skaidb.Types.Encode

namespace Skaidb.Types

open Skaidb.Base Reader List Cursor Value

variable {value : Cursor Value} {v : Value}

section Extension

theorem Cursor.extends_take (n : Nat) : Extends (take n) (take n) := by
  intro xs a rest h more
  rw [take] at h ⊢
  by_cases hn : n ≤ xs.length
  · rw [if_pos hn] at h
    obtain ⟨rfl, rfl⟩ := Prod.mk.inj (Except.ok.inj h)
    rw [if_pos (by rw [length_append]; omega), take_append_of_le_length hn,
      drop_append_of_le_length hn]
  · rw [if_neg hn] at h
    cases h

theorem Cursor.extends_uuid : Extends uuid uuid := by
  intro xs a rest h more
  rw [uuid] at h ⊢
  by_cases hlen : (xs.take 16).length = 16
  · rw [dif_pos hlen] at h
    obtain ⟨rfl, rfl⟩ := Prod.mk.inj (Except.ok.inj h)
    have hle : 16 ≤ xs.length := by
      rw [length_take] at hlen
      omega
    simp only [take_append_of_le_length hle, drop_append_of_le_length hle, dif_pos hlen]
  · rw [dif_neg hlen] at h
    cases h

theorem Cursor.extends_u8 : Extends u8 u8 := (extends_take 1).map (fun bs => bs.headD 0)

theorem Cursor.extends_u32 : Extends u32 u32 := (extends_take 4).map leNat

theorem Cursor.extends_i64 : Extends i64 i64 := (extends_take 8).map _

theorem Cursor.extends_bytes : Extends bytes bytes := extends_u32.bind extends_take

theorem Cursor.extends_string : Extends string string := by
  refine extends_bytes.bind (fun b => ?_)
  cases String.fromUTF8? ⟨b.toArray⟩ with
  | some s => exact Extends.pure s
  | none => exact Extends.fail _ _

theorem Cursor.extends_items {value' : Cursor Value} (h : Extends value value') :
    Extends (items value n) (items value' n) := by
  induction n with
  | zero => exact Extends.pure []
  | succ n ih => exact h.bind (fun v => ih.map (fun vs => v :: vs))

theorem Cursor.extends_fields {value' : Cursor Value} (h : Extends value value') (n : Nat) (doc : Document) :
    Extends (fields value n doc) (fields value' n doc) := by
  induction n generalizing doc with
  | zero => exact Extends.pure doc
  | succ n ih => exact extends_string.bind (fun name => h.bind (fun v => ih (doc.insert name v)))

-- A value read within some nesting is read the same with more bytes behind it and more
-- nesting allowed.
theorem extends_decodeValue (hle : depth ≤ depth') : Extends (decodeValue depth) (decodeValue depth') := by
  induction depth generalizing depth' with
  | zero => exact Extends.fail _ _
  | succ depth ih =>
    obtain _ | depth' := depth'
    · omega
    have hvalue := ih (Nat.le_of_succ_le_succ hle)
    rw [decodeValue, decodeValue]
    refine extends_u8.bind (fun tag => ?_)
    split
    · exact Extends.pure _
    · exact extends_u8.map _
    · exact extends_i64.map _
    · exact extends_i64.map _
    · exact (extends_take 16).bind (fun _ => extends_u32.map _)
    · exact extends_string.map _
    · exact extends_bytes.map _
    · exact extends_uuid.map _
    · exact extends_i64.map _
    · exact extends_u32.bind (fun n => (extends_items hvalue).map _)
    · exact extends_u32.bind (fun n => (extends_fields hvalue n []).map _)
    · exact Extends.fail _ _

theorem Value.decode_append (h : v.Storable) {extra : Bytes} (hextra : extra ≠ []) :
    decode (v.encode ++ extra) = .error (.unrepresentableJson "trailing bytes after value") := by
  have hread := reads_decodeValue (v.encode ++ extra).length h (by simp) extra
  obtain ⟨b, extra, rfl⟩ := exists_cons_of_ne_nil hextra
  rw [decode, StateT.run, hread]

-- A proper prefix that decodes would make the whole decode to the same with bytes left over.
theorem Value.not_decode_prefix (h : v.Storable) (hcut : cut ++ more = v.encode) (hmore : more ≠ []) :
    decode cut ≠ .ok w := by
  intro hdecode
  have hread := reads_decodeValue v.encode.length h le_rfl []
  rw [append_nil] at hread
  rw [decode, StateT.run] at hdecode
  split at hdecode
  case h_1 => cases hdecode
  case h_2 u hu =>
    have hlen : cut.length ≤ v.encode.length := by
      rw [← hcut, length_append]
      omega
    have hwhole := extends_decodeValue hlen cut u [] hu more
    rw [hcut, hread] at hwhole
    exact hmore (Prod.mk.inj (Except.ok.inj hwhole)).2.symm
  case h_3 => cases hdecode

-- The encoding of a value decodes to it, and to nothing with bytes added or missing.
theorem Value.decode_exact {v : Value} (h : v.Storable) : Value.decode v.encode = .ok v ∧
    (∀ extra w, extra ≠ [] → Value.decode (v.encode ++ extra) ≠ .ok w) ∧
    ∀ cut w, cut <+: v.encode → cut ≠ v.encode → Value.decode cut ≠ .ok w := by
  refine ⟨decode_encode h, ?_, ?_⟩
  · intro extra w hextra
    rw [decode_append h hextra]
    exact fun heq => by cases heq
  · rintro cut w ⟨more, hcut⟩ hne
    refine not_decode_prefix h hcut ?_
    rintro rfl
    exact hne (by rw [← hcut, append_nil])

theorem Value.decode_exact_nested :
    let v := document [("a", .array [.null, .string "x"]), ("b", .decimal ⟨-5, 2⟩)]
    decode v.encode = .ok v ∧
    (∀ extra w, extra ≠ [] → decode (v.encode ++ extra) ≠ .ok w) ∧
    ∀ cut w, cut <+: v.encode → cut ≠ v.encode → decode cut ≠ .ok w :=
  decode_exact (by decide)

end Extension

section Acceptance

theorem utf8_of_fromUTF8? {b : Bytes} (h : String.fromUTF8? ⟨b.toArray⟩ = some s) : utf8 s = b := by
  rw [String.fromUTF8?] at h
  split at h
  · rw [← Option.some.inj h]
    rfl
  · cases h

theorem Cursor.yields_take (n : Nat) : Yields (take n) (fun bs m => bs.length = n ∧ m = n) := by
  intro xs a rest h
  rw [take] at h
  by_cases hn : n ≤ xs.length
  · rw [if_pos hn] at h
    obtain ⟨rfl, rfl⟩ := Prod.mk.inj (Except.ok.inj h)
    exact ⟨n, by rw [length_drop]; omega, length_take_of_le hn, rfl⟩
  · rw [if_neg hn] at h
    cases h

theorem Cursor.yields_u8 : Yields u8 (fun _ m => m = 1) :=
  (yields_take 1).map (fun _ _ h => h.2)

theorem Cursor.yields_i64 : Yields i64 (fun _ m => m = 8) :=
  (yields_take 8).map (fun _ _ h => h.2)

theorem Cursor.yields_u32 : Yields u32 (fun n m => n < 2 ^ 32 ∧ m = 4) := by
  refine (yields_take 4).map (fun bs m h => ⟨?_, h.2⟩)
  have hlt := leNat_lt bs
  rwa [h.1] at hlt

theorem Cursor.yields_bytes : Yields bytes (fun b m => b.length < 2 ^ 32 ∧ m = 4 + b.length) := by
  refine yields_u32.bind (fun n m hn => ?_)
  intro xs a rest h
  obtain ⟨k, hk, hlen, rfl⟩ := yields_take n xs a rest h
  exact ⟨k, hk, by omega, by omega⟩

theorem Cursor.yields_string :
    Yields string (fun s m => (utf8 s).length < 2 ^ 32 ∧ m = 4 + (utf8 s).length) := by
  refine yields_bytes.bind (fun b m hb => ?_)
  cases hs : String.fromUTF8? ⟨b.toArray⟩ with
  | none => exact Yields.fail _ _
  | some s =>
    rw [← utf8_of_fromUTF8? hs] at hb
    exact Yields.pure hb

theorem Cursor.yields_uuid : Yields uuid (fun _ m => m = 16) := by
  intro xs a rest h
  rw [uuid] at h
  by_cases hlen : (xs.take 16).length = 16
  · rw [dif_pos hlen] at h
    obtain ⟨-, rfl⟩ := Prod.mk.inj (Except.ok.inj h)
    rw [length_take] at hlen
    exact ⟨16, by rw [length_drop]; omega, rfl⟩
  · rw [dif_neg hlen] at h
    cases h

variable {doc : Document}

theorem Document.mem_insert (h : f ∈ doc.insert name v) : f = (name, v) ∨ f ∈ doc := by
  fun_induction Document.insert name v doc with
  | case1 => exact .inl (mem_singleton.mp h)
  | case2 other w fields hlt => exact mem_cons.mp h
  | case3 w fields hlt =>
    rcases mem_cons.mp h with rfl | h
    · exact .inl rfl
    · exact .inr (mem_cons_of_mem _ h)
  | case4 other w fields hlt hne ih =>
    rcases mem_cons.mp h with rfl | h
    · exact .inr mem_cons_self
    · exact (ih h).imp id (mem_cons_of_mem _)

theorem Document.sorted_insert (h : doc.Pairwise (fun f g => utf8 f.1 < utf8 g.1)) :
    (doc.insert name v).Pairwise (fun f g => utf8 f.1 < utf8 g.1) := by
  fun_induction Document.insert name v doc with
  | case1 => exact pairwise_singleton _ _
  | case2 other w fields hlt =>
    refine pairwise_cons.mpr ⟨fun g hg => ?_, h⟩
    rcases mem_cons.mp hg with rfl | hg
    · exact hlt
    · exact lt_trans hlt ((pairwise_cons.mp h).1 g hg)
  | case3 w fields hlt =>
    obtain ⟨hfirst, hrest⟩ := pairwise_cons.mp h
    exact pairwise_cons.mpr ⟨hfirst, hrest⟩
  | case4 other w fields hlt hne ih =>
    obtain ⟨hfirst, hrest⟩ := pairwise_cons.mp h
    refine pairwise_cons.mpr ⟨fun g hg => ?_, ih hrest⟩
    rcases Document.mem_insert hg with rfl | hg
    · exact lt_of_le_of_ne (not_lt.mp hlt) (fun heq => hne (utf8_inj heq).symm)
    · exact hfirst g hg

theorem Document.length_insert_le (doc : Document) (name : String) (v : Value) :
    (doc.insert name v).length ≤ doc.length + 1 ∧ (writeFields (doc.insert name v)).length ≤
      (writeFields doc).length + (4 + (utf8 name).length) + v.encode.length := by
  fun_induction Document.insert name v doc with
  | case4 other w fields hlt hne ih =>
    simp only [length_cons, writeFields, length_append] at ih ⊢
    omega
  | _ =>
    simp only [length_cons, length_nil, writeFields, writeBytes, length_append, length_leBytes]
    omega

def Value.WritableIn (v : Value) (n : Nat) : Prop := v.Storable ∧ v.encode.length ≤ n

theorem Cursor.yields_items (h : Yields value WritableIn) : Yields (items value k)
      (fun vs n => vs.length = k ∧ StorableItems vs ∧ (writeItems vs).length ≤ n) := by
  induction k with
  | zero => exact Yields.pure ⟨rfl, trivial, Nat.le_refl 0⟩
  | succ k ih =>
    refine h.bind (fun v m hv => ih.map (fun vs n hvs => ⟨?_, ⟨hv.1, hvs.2.1⟩, ?_⟩))
    · rw [length_cons, hvs.1]
    · have := hv.2
      rw [writeItems, length_append]
      omega

def Document.Read (doc : Document) (k m : Nat) : Prop :=
  doc.length ≤ k ∧ doc.Pairwise (fun f g => utf8 f.1 < utf8 g.1) ∧ StorableFields doc ∧ (writeFields doc).length ≤ m

theorem Document.Read.insert (h : doc.Read k m) (hname : (utf8 name).length < 2 ^ 32) (hv : v.WritableIn n) :
    (doc.insert name v).Read (k + 1) (m + (4 + (utf8 name).length) + n) := by
  obtain ⟨hlen, hsorted, hfields, hbytes⟩ := h
  obtain ⟨hlen', hbytes'⟩ := doc.length_insert_le name v
  refine ⟨by omega, Document.sorted_insert hsorted, (storableFields_iff _).mpr ?_, ?_⟩
  · intro f hf
    rcases Document.mem_insert hf with rfl | hf
    · exact ⟨hname, hv.1⟩
    · exact (storableFields_iff doc).mp hfields f hf
  · have := hv.2
    omega

theorem Cursor.yields_fields (h : Yields value WritableIn) (hdoc : doc.Read c m) :
    Yields (fields value k doc) (fun doc' n => doc'.Read (c + k) (m + n)) := by
  induction k generalizing doc c m with
  | zero => exact Yields.pure hdoc
  | succ k ih =>
    refine yields_string.bind (fun name i hname => h.bind (fun v j hv => ?_))
    have hread := ih (hdoc.insert hname.1 hv)
    rw [← hname.2, Nat.add_assoc c, Nat.add_comm 1] at hread
    simpa only [Nat.add_assoc] using hread

theorem yields_decodeValue : Yields (decodeValue depth) WritableIn := by
  induction depth with
  | zero => exact Yields.fail _ _
  | succ depth ih =>
    rw [decodeValue]
    refine yields_u8.bind (fun tag m hm => ?_)
    subst hm
    split
    · exact Yields.pure ⟨trivial, Nat.le_refl _⟩
    · exact yields_u8.map (fun b n hn => ⟨trivial, by simp [encode, hn]⟩)
    · exact yields_i64.map (fun b n hn => ⟨trivial, by simp [encode, hn]⟩)
    · exact yields_i64.map (fun b n hn => ⟨trivial, by simp [encode, hn]⟩)
    · refine (yields_take 16).bind (fun b i hb => yields_u32.map (fun u n hn => ⟨?_, ?_⟩))
      · exact ⟨BitVec.le_toInt _, BitVec.toInt_lt⟩
      · simp [encode, hn.2, hb.2]
    · exact yields_string.map (fun s n hs =>
        ⟨hs.1, by simp +arith [encode, writeBytes, hs.2]⟩)
    · exact yields_bytes.map (fun b n hb =>
        ⟨hb.1, by simp +arith [encode, writeBytes, hb.2]⟩)
    · exact yields_uuid.map (fun u n hn => ⟨trivial, by simp [encode, hn]⟩)
    · exact yields_i64.map (fun b n hn => ⟨trivial, by simp [encode, hn]⟩)
    · refine yields_u32.bind (fun k i hk => (yields_items ih).map (fun vs n hvs => ⟨?_, ?_⟩))
      · exact ⟨by omega, hvs.2.1⟩
      · simp only [encode, length_cons, length_append, length_leBytes]
        omega
    · refine yields_u32.bind (fun k i hk =>
        (yields_fields ih (c := 0) (m := 0) ?_).map (fun doc n hdoc => ⟨?_, ?_⟩))
      · exact ⟨Nat.le_refl 0, Pairwise.nil, trivial, Nat.le_refl 0⟩
      · exact ⟨by have := hdoc.1; omega, hdoc.2.1, hdoc.2.2.1⟩
      · have := hdoc.2.2.2
        simp only [encode, length_cons, length_append, length_leBytes]
        omega
    · exact Yields.fail _ _

theorem Value.writable_of_decode {bytes : Bytes} (h : decode bytes = .ok v) : v.WritableIn bytes.length := by
  rw [decode, StateT.run] at h
  split at h
  case h_1 => cases h
  case h_2 w hw =>
    obtain ⟨n, hn, hv⟩ := yields_decodeValue bytes w [] hw
    cases h
    exact hn ▸ hv
  case h_3 => cases h

-- Accepted bytes need not be an encoding, but the value they give has one, and no longer.
theorem Value.encode_of_decode {bytes : Bytes} (h : decode bytes = .ok v) :
    decode v.encode = .ok v ∧ v.encode.length ≤ bytes.length :=
  ⟨decode_encode (writable_of_decode h).1, (writable_of_decode h).2⟩

-- The fields come out of order, and one of them twice.
def unsortedDocument : Bytes := [10, 3, 0, 0, 0, 1, 0, 0, 0, 98, 0, 1, 0, 0, 0, 97, 0, 1, 0, 0, 0, 98, 0]

theorem Value.encode_of_decode_unsorted : let v := document [("a", .null), ("b", .null)]
    decode unsortedDocument = .ok v ∧ decode v.encode = .ok v ∧ v.encode.length ≤ unsortedDocument.length :=
  ⟨rfl, encode_of_decode (rfl : decode unsortedDocument = _)⟩

end Acceptance

end Skaidb.Types
