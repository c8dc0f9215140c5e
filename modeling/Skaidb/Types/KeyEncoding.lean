import Skaidb.Base.PrefixCode
import Skaidb.Types.Value

namespace Skaidb.Types

open Skaidb.Base List Value

section Scalars

theorem beBytes_inj (h : beBytes u = beBytes v) : u = v := by
  simp only [beBytes, List.cons.injEq, and_true, ← UInt8.toNat_inj, UInt64.toNat_toUInt8,
    UInt64.toNat_shiftRight, Nat.shiftRight_eq_div_pow, UInt64.reduceToNat, Nat.reduceMod,
    Nat.reducePow] at h
  have hu := u.toNat_lt
  have hv := v.toNat_lt
  rw [← UInt64.toNat_inj]
  omega

theorem beBytes_diverge (h : u ≠ v) : Diverge (beBytes u) (beBytes v) :=
  .of_length_eq rfl (fun heq => h (beBytes_inj heq))

theorem encodeI64_diverge (h : v ≠ w) : Diverge (encodeI64 v) (encodeI64 w) := by
  refine beBytes_diverge ?_
  intro heq
  have hu : v.toUInt64 = w.toUInt64 := by simpa using heq
  apply h
  cases v
  cases w
  cases hu
  rfl

private theorem or_eq_xor {x m : UInt64} (h : x &&& m = 0) : x ||| m = x ^^^ m := by
  rw [← UInt64.toBitVec_inj] at h ⊢
  ext i hi
  have hbit := congrArg (fun w => w.getLsbD i) h
  simp only [UInt64.toBitVec_and, BitVec.getLsbD_and, UInt64.toBitVec_ofNat, BitVec.getLsbD_zero] at hbit
  simp only [UInt64.toBitVec_or, UInt64.toBitVec_xor, ← BitVec.getLsbD_eq_getElem]
  grind

private theorem and_eq_zero_of_or_eq_not {x y m : UInt64} (h : x ||| m = ~~~y) : y &&& m = 0 := by
  rw [← UInt64.toBitVec_inj] at h ⊢
  ext i hi
  have hbit := congrArg (fun w => w.getLsbD i) h
  simp [hi] at hbit ⊢
  grind

theorem encodeF64_diverge {v w : F64} (h : v ≠ w) : Diverge (encodeF64 v) (encodeF64 w) := by
  obtain ⟨a⟩ := v
  obtain ⟨b⟩ := w
  have hab : a ≠ b := fun heq => h (by rw [heq])
  unfold encodeF64
  by_cases ha : a &&& 0x8000000000000000 = 0
  · by_cases hb : b &&& 0x8000000000000000 = 0
    · rw [if_pos ha, if_pos hb, or_eq_xor ha, or_eq_xor hb]
      exact beBytes_diverge (by simpa using hab)
    · rw [if_pos ha, if_neg hb]
      exact beBytes_diverge (fun heq => hb (and_eq_zero_of_or_eq_not heq))
  · by_cases hb : b &&& 0x8000000000000000 = 0
    · rw [if_neg ha, if_pos hb]
      exact beBytes_diverge (fun heq => ha (and_eq_zero_of_or_eq_not heq.symm))
    · rw [if_neg ha, if_neg hb]
      exact beBytes_diverge (by simpa using hab)

theorem escapeByte_apart : Apart escapeByte xs ys := by
  intro a _ b _ hab
  unfold escapeByte
  by_cases ha : a = 0
  · by_cases hb : b = 0
    · exact absurd (ha.trans hb.symm) hab
    · rw [if_pos ha, if_neg hb]
      exact .head (Ne.symm hb) _ _
  · by_cases hb : b = 0
    · rw [if_neg ha, if_pos hb]
      exact .head ha _ _
    · rw [if_neg ha, if_neg hb]
      exact .head hab _ _

theorem escapeByte_stop : Diverge (escapeByte b) [0x00, 0x00] := by
  unfold escapeByte
  split
  · exact .cons _ (.head (by decide) _ _)
  case isFalse h => exact .head h _ _

theorem encodeBytes_diverge (h : a ≠ b) : Diverge (encodeBytes a) (encodeBytes b) :=
  escapeByte_apart.terminated (fun _ _ => escapeByte_stop) (fun _ _ => escapeByte_stop) h

end Scalars

variable {fields : List (String × Value)} {items : List Value} {v : Value}

section Values

theorem tag_inj {s t : ValueType} (h : s.tag = t.tag) : s = t := by
  revert h
  cases s <;> cases t <;> decide

theorem encodeKey_eq_cons (toF64 : Decimal → F64) (v : Value) :
    v.encodeKey toF64 = v.typeOf.tag :: (v.encodeKey toF64).tail := by
  cases v <;> rfl

theorem diverge_of_typeOf_ne {u v : Value} (h : u.typeOf ≠ v.typeOf := by simp [typeOf]) :
    Diverge (u.encodeKey toF64) (v.encodeKey toF64) := by
  rw [encodeKey_eq_cons toF64 u, encodeKey_eq_cons toF64 v]
  exact .head (fun heq => h (tag_inj heq)) _ _

mutual

def Value.parts : Value → List Value
  | .array items => .array items :: partsItems items
  | .document fields => .document fields :: partsFields fields
  | v => [v]

def partsItems : List Value → List Value
  | [] => []
  | v :: items => v.parts ++ partsItems items

def partsFields : List (String × Value) → List Value
  | [] => []
  | (_, v) :: fields => v.parts ++ partsFields fields

end

-- What stands directly inside a value starts with a byte other than the terminator:
-- no NULL in an array, no field name that is empty or starts with a zero.
def Value.clear : Value → Bool
  | .array items => items.all (fun v => !v.isNull)
  | .document fields => fields.all (fun f => (utf8 f.1).head?.any (fun b => b ≠ 0))
  | _ => true

def Value.Clean (v : Value) : Prop := ∀ u ∈ v.parts, u.clear = true
deriving Decidable

def Value.DecimalFree (v : Value) : Prop := ∀ u ∈ v.parts, u.typeOf ≠ .decimal
deriving Decidable

theorem self_mem_parts {v : Value} : v ∈ v.parts := by
  cases v <;> simp [parts]

theorem mem_parts_array : u ∈ (array items).parts ↔ u = .array items ∨ ∃ v ∈ items, u ∈ v.parts := by
  have hitems : ∀ vs : List Value, u ∈ partsItems vs ↔ ∃ v ∈ vs, u ∈ v.parts := by
    intro vs
    induction vs with
    | nil => simp [partsItems]
    | cons v vs ih => simp [partsItems, ih]
  rw [parts, mem_cons, hitems]

theorem mem_parts_document :
    u ∈ (document fields).parts ↔ u = .document fields ∨ ∃ f ∈ fields, u ∈ f.2.parts := by
  have hfields : ∀ fs : List (String × Value), u ∈ partsFields fs ↔ ∃ f ∈ fs, u ∈ f.2.parts := by
    intro fs
    induction fs with
    | nil => simp [partsFields]
    | cons f fs ih =>
      simp [partsFields, ih]
  rw [parts, mem_cons, hfields]

theorem item_of_parts {p : Value → Prop} (h : ∀ u ∈ (array items).parts, p u) (hv : v ∈ items) :
    ∀ u ∈ v.parts, p u :=
  fun u hu => h u (mem_parts_array.mpr (.inr ⟨v, hv, hu⟩))

theorem field_of_parts {p : Value → Prop} (h : ∀ u ∈ (document fields).parts, p u) (hf : f ∈ fields) :
    ∀ u ∈ f.2.parts, p u :=
  fun u hu => h u (mem_parts_document.mpr (.inr ⟨f, hf, hu⟩))

theorem encodeBytes_stop {b : Bytes} (h : b.head?.any (fun b => b ≠ 0) = true) :
    Diverge (encodeBytes b) [tagEnd] := by
  cases b with
  | nil => simp at h
  | cons a b =>
    have ha : a ≠ 0 := by simpa using h
    simp only [encodeBytes, flatMap_cons, escapeByte, if_neg ha]
    exact .head ha _ _

theorem encodeKey_stop (h : v.isNull = false) : Diverge (v.encodeKey toF64) [tagEnd] := by
  have htype : v.typeOf ≠ .null := by
    intro ht
    cases v <;> first | exact absurd h (by decide) | cases ht
  rw [encodeKey_eq_cons toF64 v]
  exact .head (fun heq => htype (tag_inj heq)) _ _

def Value.Plain (v : Value) : Prop := v.DecimalFree ∧ v.Clean

theorem encodeField_diverge (h : f ≠ g)
    (hvalue : f.2 ≠ g.2 → Diverge (f.2.encodeKey toF64) (g.2.encodeKey toF64)) :
    Diverge (encodeField toF64 f) (encodeField toF64 g) := by
  obtain ⟨name, v⟩ := f
  obtain ⟨name', w⟩ := g
  by_cases hname : name = name'
  · subst hname
    exact (hvalue (fun hvw => h (congrArg (Prod.mk name) hvw))).prepend _
  · exact (encodeBytes_diverge (fun heq => hname (utf8_inj heq))).append _ _

theorem Value.Plain.item (h : (array items).Plain) (hv : v ∈ items) : v.Plain ∧ v.isNull = false := by
  have hclear := h.2 _ self_mem_parts
  simp only [clear, all_eq_true] at hclear
  exact ⟨⟨item_of_parts h.1 hv, item_of_parts h.2 hv⟩, by simpa using hclear v hv⟩

theorem Value.Plain.field (h : (document fields).Plain) (hf : f ∈ fields) :
    f.2.Plain ∧ (utf8 f.1).head?.any (fun b => b ≠ 0) = true := by
  have hclear := h.2 _ self_mem_parts
  simp only [clear, all_eq_true] at hclear
  exact ⟨⟨field_of_parts h.1 hf, field_of_parts h.2 hf⟩, hclear f hf⟩

-- Induction on the first value; where the types agree, the payloads are compared by the code
-- of that type.
theorem encodeKey_diverge {u : Value} (hu : u.Plain) (hv : v.Plain) (hne : u ≠ v) :
    Diverge (u.encodeKey toF64) (v.encodeKey toF64) := by
  induction u using induction generalizing v with
  | null =>
    cases v with
    | null => exact absurd rfl hne
    | _ => exact diverge_of_typeOf_ne
  | bool a =>
    cases v with
    | bool b =>
      cases a <;> cases b
      · exact absurd rfl hne
      · exact .cons _ (.head (by decide) _ _)
      · exact .cons _ (.head (by decide) _ _)
      · exact absurd rfl hne
    | _ => exact diverge_of_typeOf_ne
  | int a =>
    cases v with
    | int b => exact .cons _ (encodeI64_diverge (fun h => hne (by rw [h])))
    | _ => exact diverge_of_typeOf_ne
  | float a =>
    cases v with
    | float b => exact .cons _ (encodeF64_diverge (fun h => hne (by rw [h])))
    | _ => exact diverge_of_typeOf_ne
  | decimal d => exact absurd rfl (hu.1 _ self_mem_parts)
  | string a =>
    cases v with
    | string b => exact .cons _ (encodeBytes_diverge (fun h => hne (by rw [utf8_inj h])))
    | _ => exact diverge_of_typeOf_ne
  | bytes a =>
    cases v with
    | bytes b => exact .cons _ (encodeBytes_diverge (fun h => hne (by rw [h])))
    | _ => exact diverge_of_typeOf_ne
  | uuid a =>
    cases v with
    | uuid b =>
      refine .cons _ (.of_length_eq (by simp) ?_)
      intro h
      exact hne (by rw [show a = b from congrArg Uuid.mk (Vector.toList_inj.mp h)])
    | _ => exact diverge_of_typeOf_ne
  | timestamp a =>
    cases v with
    | timestamp b => exact .cons _ (encodeI64_diverge (fun h => hne (by rw [h])))
    | _ => exact diverge_of_typeOf_ne
  | array items ih =>
    cases v with
    | array items' =>
      have hcode : Apart (fun w => w.encodeKey toF64) items items' :=
        fun x hx y hy hxy => ih x hx (hu.item hx).1 (hv.item hy).1 hxy
      rw [encodeKey_array, encodeKey_array]
      refine .cons _ (hcode.terminated ?_ ?_ ?_)
      · exact fun w hw => encodeKey_stop (hu.item hw).2
      · exact fun w hw => encodeKey_stop (hv.item hw).2
      · exact fun h => hne (by rw [h])
    | _ => exact diverge_of_typeOf_ne
  | document fields ih =>
    cases v with
    | document fields' =>
      have hcode : Apart (encodeField toF64) fields fields' :=
        fun f hf g hg hfg =>
          encodeField_diverge hfg (fun h => ih f hf (hu.field hf).1 (hv.field hg).1 h)
      rw [encodeKey_document, encodeKey_document]
      refine .cons _ (hcode.terminated ?_ ?_ ?_)
      · exact fun f hf => (encodeBytes_stop (hu.field hf).2).append _ []
      · exact fun f hf => (encodeBytes_stop (hv.field hf).2).append _ []
      · exact fun h => hne (by rw [h])
    | _ => exact diverge_of_typeOf_ne

end Values

section Lists

variable (toF64 : Decimal → F64)

-- What concatenated encodings promise of two lists of values.
structure Faithful (xs ys : List Value) : Prop where
  inj : encodeValues toF64 xs = encodeValues toF64 ys → xs = ys
  left : encodeValues toF64 xs <+: encodeValues toF64 ys → encodeValues toF64 xs = encodeValues toF64 ys
  right : encodeValues toF64 ys <+: encodeValues toF64 xs → encodeValues toF64 xs = encodeValues toF64 ys
  order : encodeValues toF64 xs < encodeValues toF64 ys ↔
    xs.map (fun v => v.encodeKey toF64) < ys.map (fun v => v.encodeKey toF64)

variable {toF64}

theorem Faithful.of_plain {xs ys : List Value} (hlen : xs.length = ys.length)
    (hx : ∀ v ∈ xs, v.Plain) (hy : ∀ v ∈ ys, v.Plain) : Faithful toF64 xs ys := by
  have hcode : Apart (fun v => v.encodeKey toF64) xs ys :=
    fun u hu v hv huv => encodeKey_diverge (hx u hu) (hy v hv) huv
  by_cases hxy : xs = ys
  · subst hxy
    exact ⟨fun _ => rfl, fun _ => rfl, fun _ => rfl, hcode.flatMap_lt_iff rfl⟩
  · have hdiv : Diverge (encodeValues toF64 xs) (encodeValues toF64 ys) := hcode.flatMap hlen hxy
    exact ⟨fun h => absurd h hdiv.ne, fun h => absurd h hdiv.not_isPrefix,
      fun h => absurd h hdiv.symm.not_isPrefix, hcode.flatMap_lt_iff hlen⟩

private theorem split_at_first {α : Type*} {p : α → Bool} {l : List α} (h : l.all p = false) :
    ∃ pre a post, l = pre ++ a :: post ∧ pre.all p = true ∧ p a = false := by
  induction l with
  | nil => simp at h
  | cons a l ih =>
    cases hp : p a with
    | false => exact ⟨[], a, l, rfl, rfl, hp⟩
    | true =>
      obtain ⟨pre, b, post, rfl, hpre, hb⟩ := ih (by simpa [hp] using h)
      exact ⟨a :: pre, b, post, rfl, by simp [hp, hpre], hb⟩

-- Cut before the first NULL, an array encodes to a prefix of what it encoded to:
-- the NULL's tag is the terminator.
theorem array_cut (h : (array items).clear = false) :
    ∃ pre, pre.Sublist items ∧ (array pre).clear = true ∧ array pre ≠ .array items ∧
      (array pre).encodeKey toF64 <+: (array items).encodeKey toF64 := by
  obtain ⟨pre, a, post, rfl, hpre, ha⟩ := split_at_first h
  refine ⟨pre, sublist_append_left _ _, hpre, by simp, ?_⟩
  have hnull : a.encodeKey toF64 = [tagEnd] := by
    cases a <;> first | rfl | simp [isNull] at ha
  rw [encodeKey_array, encodeKey_array, flatMap_append, flatMap_cons, hnull]
  exact ⟨post.flatMap (fun v => v.encodeKey toF64) ++ [tagEnd], by simp⟩

theorem encodeBytes_eq_stop_cons {b : Bytes} (h : b.head?.any (fun b => b ≠ 0) = false) :
    ∃ rest, encodeBytes b = tagEnd :: rest := by
  cases b with
  | nil => exact ⟨[0x00], rfl⟩
  | cons a b =>
    have ha : a = 0 := by simpa using h
    subst ha
    exact ⟨_, rfl⟩

theorem document_cut (h : (document fields).clear = false) :
    ∃ pre, pre.Sublist fields ∧ (document pre).clear = true ∧ document pre ≠ .document fields ∧
      (document pre).encodeKey toF64 <+: (document fields).encodeKey toF64 := by
  obtain ⟨pre, f, post, rfl, hpre, hf⟩ := split_at_first h
  refine ⟨pre, sublist_append_left _ _, hpre, by simp, ?_⟩
  obtain ⟨rest, hrest⟩ := encodeBytes_eq_stop_cons hf
  have hfield : encodeField toF64 f = tagEnd :: (rest ++ f.2.encodeKey toF64) := by
    rw [encodeField, hrest, cons_append]
  rw [encodeKey_document, encodeKey_document, flatMap_append, flatMap_cons, hfield]
  exact ⟨rest ++ f.2.encodeKey toF64 ++ (post.flatMap (encodeField toF64) ++ [tagEnd]), by simp⟩

theorem Value.plain_array (hclear : (array items).clear = true) (h : ∀ v ∈ items, v.Plain) :
    (array items).Plain := by
  refine ⟨fun u hu => ?_, fun u hu => ?_⟩
  · rcases mem_parts_array.mp hu with rfl | ⟨v, hv, huv⟩
    · simp [typeOf]
    · exact (h v hv).1 u huv
  · rcases mem_parts_array.mp hu with rfl | ⟨v, hv, huv⟩
    · exact hclear
    · exact (h v hv).2 u huv

theorem Value.plain_document (hclear : (document fields).clear = true) (h : ∀ f ∈ fields, f.2.Plain) :
    (document fields).Plain := by
  refine ⟨fun u hu => ?_, fun u hu => ?_⟩
  · rcases mem_parts_document.mp hu with rfl | ⟨f, hf, huf⟩
    · simp [typeOf]
    · exact (h f hf).1 u huf
  · rcases mem_parts_document.mp hu with rfl | ⟨f, hf, huf⟩
    · exact hclear
    · exact (h f hf).2 u huf

-- A value that is not clean has a part some clean value is confused with. The
-- innermost such part is cut; what remains of it is clean.
theorem exists_confused (hdec : v.DecimalFree) (h : ¬ v.Clean) :
    ∃ u ∈ v.parts, ∃ w : Value, w.Plain ∧ w ≠ u ∧ w.encodeKey toF64 <+: u.encodeKey toF64 := by
  induction v using induction with
  | array items ih =>
    by_cases hall : ∀ w ∈ items, w.Clean
    · have hplain : ∀ w ∈ items, w.Plain := fun w hw => ⟨item_of_parts hdec hw, hall w hw⟩
      have hclear : (array items).clear = false := by
        by_contra hc
        exact h (plain_array (by simpa using hc) hplain).2
      obtain ⟨pre, hpre, hok, hne, hcut⟩ := array_cut hclear
      exact ⟨_, self_mem_parts, _,
        plain_array hok (fun w hw => hplain w (hpre.subset hw)), hne, hcut⟩
    · push Not at hall
      obtain ⟨item, hitem, hunclean⟩ := hall
      obtain ⟨u, hu, hw⟩ := ih item hitem (item_of_parts hdec hitem) hunclean
      exact ⟨u, mem_parts_array.mpr (.inr ⟨item, hitem, hu⟩), hw⟩
  | document fields ih =>
    by_cases hall : ∀ f ∈ fields, f.2.Clean
    · have hplain : ∀ f ∈ fields, f.2.Plain := fun f hf => ⟨field_of_parts hdec hf, hall f hf⟩
      have hclear : (document fields).clear = false := by
        by_contra hc
        exact h (plain_document (by simpa using hc) hplain).2
      obtain ⟨pre, hpre, hok, hne, hcut⟩ := document_cut hclear
      exact ⟨_, self_mem_parts, _,
        plain_document hok (fun f hf => hplain f (hpre.subset hf)), hne, hcut⟩
    · push Not at hall
      obtain ⟨f, hf, hunclean⟩ := hall
      obtain ⟨u, hu, hw⟩ := ih f hf (field_of_parts hdec hf) hunclean
      exact ⟨u, mem_parts_document.mpr (.inr ⟨f, hf, hu⟩), hw⟩
  | _ => exact absurd (fun u hu => by simp_all [parts, clear]) h

theorem not_faithful_of_isPrefix {w u : Value} (hne : w ≠ u)
    (h : w.encodeKey toF64 <+: u.encodeKey toF64) : ¬ Faithful toF64 [w] [u] := by
  intro hf
  have hprefix : encodeValues toF64 [w] <+: encodeValues toF64 [u] := by
    simpa [encodeValues] using h
  have heq := hf.inj (hf.left hprefix)
  exact hne (by simpa using heq)

-- Encodings of clean values are uniquely readable and ordered value by value; a
-- value that is not clean has a part that is confused with a clean value.
theorem encodeValues_faithful (toF64 : Decimal → F64) : (∀ xs ys : List Value, xs.length = ys.length →
      (∀ v ∈ xs ++ ys, v.DecimalFree ∧ v.Clean) → Faithful toF64 xs ys) ∧
    (∀ v : Value, v.DecimalFree → ¬ v.Clean →
      ∃ u ∈ v.parts, ∃ w : Value, w.DecimalFree ∧ w.Clean ∧ ¬ Faithful toF64 [w] [u]) := by
  constructor
  · intro xs ys hlen h
    refine Faithful.of_plain hlen ?_ ?_
    · exact fun v hv => h v (by simp [hv])
    · exact fun v hv => h v (by simp [hv])
  · intro v hdec hunclean
    obtain ⟨u, hu, w, hw, hne, hprefix⟩ := exists_confused hdec hunclean
    exact ⟨u, hu, w, hw.1, hw.2, not_faithful_of_isPrefix hne hprefix⟩

theorem encodeValues_faithful_nested :
    Faithful (fun _ => ⟨0⟩) [.array [.int 1, .array []], .document [("a", .null)]]
      [.array [.int 1], .document [("a", .bool true)]] :=
  (encodeValues_faithful (fun _ => ⟨0⟩)).1 _ _ rfl (by decide)

-- The empty array's terminator and a following NULL read as a NULL and the terminator.
theorem encodeValues_collide :
    (∀ v ∈ [Value.array [.array [], .null], .array [.array [.null]]], v.DecimalFree) ∧
      encodeValues (fun _ => ⟨0⟩) [.array [.array [], .null]] =
        encodeValues (fun _ => ⟨0⟩) [.array [.array [.null]]] ∧
      [Value.array [.array [], .null]] ≠ [.array [.array [.null]]] ∧
      encodeValues (fun _ => ⟨0⟩) [.array []] <+: encodeValues (fun _ => ⟨0⟩) [.array [.null]] :=
  ⟨by decide, by decide, by simp, by decide⟩

-- Rows are dropped by their concatenated encodings, first seen first kept.
def dedupFrom (toF64 : Decimal → F64) (seen : List Bytes) : List (List Value) → List (List Value)
  | [] => []
  | row :: rows =>
    if encodeValues toF64 row ∈ seen then dedupFrom toF64 seen rows
    else row :: dedupFrom toF64 (encodeValues toF64 row :: seen) rows

def dedupRows (toF64 : Decimal → F64) (rows : List (List Value)) : List (List Value) :=
  dedupFrom toF64 [] rows

theorem dedupFrom_spec (toF64 : Decimal → F64) (seen : List Bytes) (rows : List (List Value)) :
    (dedupFrom toF64 seen rows).Sublist rows ∧
      (∀ row ∈ dedupFrom toF64 seen rows, encodeValues toF64 row ∉ seen) ∧ (dedupFrom toF64 seen rows).Pairwise
        (fun a b => encodeValues toF64 a ≠ encodeValues toF64 b) ∧ ∀ row ∈ rows, encodeValues toF64 row ∈ seen ∨
        ∃ kept ∈ dedupFrom toF64 seen rows, encodeValues toF64 kept = encodeValues toF64 row := by
  induction rows generalizing seen with
  | nil => simp [dedupFrom]
  | cons row rows ih =>
    rw [dedupFrom]
    split
    case isTrue hseen =>
      obtain ⟨hsub, hnew, hpair, hall⟩ := ih seen
      refine ⟨hsub.cons _, hnew, hpair, ?_⟩
      intro r hr
      rcases mem_cons.mp hr with rfl | hr
      · exact .inl hseen
      · exact hall r hr
    case isFalse hseen =>
      obtain ⟨hsub, hnew, hpair, hall⟩ := ih (encodeValues toF64 row :: seen)
      refine ⟨hsub.cons_cons _, ?_, ?_, ?_⟩
      · intro r hr
        rcases mem_cons.mp hr with rfl | hr
        · exact hseen
        · exact fun hmem => hnew r hr (by simp [hmem])
      · refine pairwise_cons.mpr ⟨fun r hr heq => hnew r hr (by simp [heq]), hpair⟩
      · intro r hr
        rcases mem_cons.mp hr with rfl | hr
        · exact .inr ⟨r, by simp, rfl⟩
        · rcases hall r hr with hmem | ⟨kept, hkept, heq⟩
          · rcases mem_cons.mp hmem with heq | hmem
            · exact .inr ⟨row, by simp, heq.symm⟩
            · exact .inl hmem
          · exact .inr ⟨kept, by simp [hkept], heq⟩

-- On clean rows of one width, DISTINCT keeps each different row once.
theorem dedupRows_spec (hwidth : ∀ row ∈ rows, row.length = width) (hplain : ∀ row ∈ rows, ∀ v ∈ row, v.Plain) :
    (dedupRows toF64 rows).Sublist rows ∧ (dedupRows toF64 rows).Nodup ∧ ∀ row ∈ rows, row ∈ dedupRows toF64 rows := by
  obtain ⟨hsub, -, hpair, hall⟩ := dedupFrom_spec toF64 [] rows
  refine ⟨hsub, hpair.imp (fun hne heq => hne (by rw [heq])), fun row hrow => ?_⟩
  rcases hall row hrow with hmem | ⟨kept, hkept, heq⟩
  · simp at hmem
  · have hin := hsub.subset hkept
    have hlen : kept.length = row.length := (hwidth kept hin).trans (hwidth row hrow).symm
    have hsame := (Faithful.of_plain hlen (hplain kept hin) (hplain row hrow)).inj heq
    exact hsame ▸ hkept

theorem dedupRows_spec_null : (dedupRows (fun _ => ⟨0⟩) [[.null], [.bool true], [.null]]).Nodup :=
  (@dedupRows_spec _ _ 1 (by decide) (by unfold Value.Plain; decide)).2.1

end Lists

end Skaidb.Types
