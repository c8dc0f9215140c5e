import Mathlib.Data.Bool.AllAny
import Skaidb.Types.Codec

namespace Skaidb.Types

open List

namespace Uuid

def digits (s : String) : List Char := s.toList.filter (· ≠ '-')

def toDigit (b : UInt8) : Option UInt8 :=
  if 0x30 ≤ b ∧ b ≤ 0x39 then some (b - 0x30)
  else if 0x41 ≤ b ∧ b ≤ 0x46 then some (b - 0x37)
  else if 0x61 ≤ b ∧ b ≤ 0x66 then some (b - 0x57)
  else none

-- The number parser on two bytes: a plus sign may stand before one digit.
def fromStrRadix (high low : UInt8) : Option UInt8 :=
  if high = 0x2B then toDigit low
  else do return (← toDigit high) * 16 + (← toDigit low)

-- One turn of the loop: a slice that ends inside a character panics (`none`), and a pair
-- may be no number (`some none`).
def readPair (high low : UInt8) (rest : Bytes) : Option (Option UInt8) :=
  if rest.head?.any (fun b => 0x80 ≤ b ∧ b < 0xC0) then none else some (fromStrRadix high low)

def readPairs : Bytes → Option (Option Bytes)
  | high :: low :: rest =>
    match readPair high low rest with
    | none => none
    | some none => some none
    | some (some b) => (readPairs rest).map (Option.map (b :: ·))
  | _ => some (some [])

def hex (s : String) : Bytes := (digits s).flatMap String.utf8EncodeChar

def parseStr (s : String) : Option (Except ValueError Uuid) :=
  if (hex s).length ≠ 32 then some (.error (.invalidUuid s))
  else
    (readPairs (hex s)).map (fun
      | none => .error (.invalidUuid s)
      | some bytes => .ok ⟨.ofFn (fun i => bytes.getD i 0)⟩)

def hexPair (b : UInt8) : List Char :=
  [b / 16, b % 16].map (fun n => Char.ofNat (n.toNat + if n < 10 then 0x30 else 0x57))

def display (u : Uuid) : String :=
  String.ofList (u.bytes.toList.zipIdx.flatMap (fun e =>
    (if e.2 ∈ [4, 6, 8, 10] then ['-'] else []) ++ hexPair e.1))

def hexDigits : List Char := "0123456789abcdefABCDEF".toList

def code (c : Char) : UInt8 := UInt8.ofNat c.toNat

theorem ascii_spec (h : c.toNat < 128) : String.utf8EncodeChar c = [code c] ∧ code c < 0x80 ∧
    (code c = 0x2B → c = '+') ∧ ((toDigit (code c)).isSome ↔ c ∈ hexDigits) := by
  rw [← Char.ofNat_toNat c]
  generalize c.toNat = n at h
  revert n
  decide +kernel

theorem hexPair_spec (b : UInt8) : (∀ c ∈ hexPair b, c.toNat < 128 ∧ c ≠ '-') ∧
    ∃ high low, (hexPair b).map code = [high, low] ∧ fromStrRadix high low = some b := by
  have hall : ∀ n < 256, (hexPair (UInt8.ofNat n)).all (fun c => c.toNat < 128 ∧ c ≠ '-') ∧
      fromStrRadix ((hexPair (UInt8.ofNat n)).map code).head! ((hexPair (UInt8.ofNat n)).map code).getLast! =
        some (UInt8.ofNat n) := by
    decide +kernel
  have hb := hall b.toNat b.toNat_lt
  rw [UInt8.ofNat_toNat] at hb
  exact ⟨all_iff_forall_prop.mp hb.1, _, _, rfl, hb.2⟩

theorem utf8_ascii {cs : List Char} (h : ∀ c ∈ cs, c.toNat < 128) :
    cs.flatMap String.utf8EncodeChar = cs.map code := by
  rw [map_eq_flatMap]
  exact flatMap_congr (fun c hc => (ascii_spec (h c hc)).1)

-- On ASCII characters no slice ends inside one.
theorem readPairs_cons {cs : List Char} (h : ∀ c ∈ cs, c.toNat < 128) (hread : fromStrRadix high low = some b) :
    readPairs (high :: low :: cs.map code) = (readPairs (cs.map code)).map (Option.map (b :: ·)) := by
  have hpair : readPair high low (cs.map code) = some (some b) := by
    rw [readPair, hread, if_neg]
    cases cs with
    | nil => simp
    | cons c cs => simp [UInt8.not_le.mpr (ascii_spec (h c mem_cons_self)).2.1]
  rw [readPairs, hpair]

theorem ascii_hexDigits : ∀ c ∈ hexDigits, c.toNat < 128 := all_iff_forall_prop.mp (by decide)

theorem readPairs_digits : ∀ {cs : List Char}, (∀ c ∈ cs, c ∈ hexDigits) → 2 ∣ cs.length →
    ∃ bytes, readPairs (cs.map code) = some (some bytes)
  | [], _, _ => ⟨[], rfl⟩
  | [c], _, h => absurd h (by simp)
  | c :: d :: cs, h, heven => by
    obtain ⟨hc, hd, hcs⟩ : _ ∧ _ ∧ ∀ c ∈ cs, _ := by simpa only [forall_mem_cons] using h
    obtain ⟨bytes, hbytes⟩ := readPairs_digits hcs (by simpa using heven)
    obtain ⟨-, -, hplus, hdigit⟩ := ascii_spec (ascii_hexDigits c hc)
    obtain ⟨x, hx⟩ := Option.isSome_iff_exists.mp (hdigit.mpr hc)
    obtain ⟨y, hy⟩ := Option.isSome_iff_exists.mp ((ascii_spec (ascii_hexDigits d hd)).2.2.2.mpr hd)
    have hsign : code c ≠ 0x2B := by
      intro heq
      rw [hplus heq] at hc
      exact absurd hc (by decide)
    have hread : fromStrRadix (code c) (code d) = some (x * 16 + y) := by simp [fromStrRadix, hsign, hx, hy]
    rw [map_cons, map_cons, readPairs_cons (fun c hc => ascii_hexDigits c (hcs c hc)) hread, hbytes]
    exact ⟨_, rfl⟩

theorem ascii_hexPairs {bytes : Bytes} (hc : c ∈ bytes.flatMap hexPair) : c.toNat < 128 := by
  obtain ⟨b, -, hc⟩ := mem_flatMap.mp hc
  exact ((hexPair_spec b).1 c hc).1

theorem readPairs_hexPairs (bytes : Bytes) : readPairs ((bytes.flatMap hexPair).map code) = some (some bytes) := by
  induction bytes with
  | nil => rfl
  | cons b bytes ih =>
    obtain ⟨-, high, low, hpair, hread⟩ := hexPair_spec b
    rw [flatMap_cons, map_append, hpair, cons_append, cons_append, nil_append,
      readPairs_cons (fun c hc => ascii_hexPairs hc) hread, ih]
    rfl

theorem digits_display (u : Uuid) : digits u.display = u.bytes.toList.flatMap hexPair := by
  rw [digits, display, String.toList_ofList, filter_flatMap]
  conv_rhs => rw [← zipIdx_map_fst 0 u.bytes.toList, flatMap_map]
  refine flatMap_congr ?_
  intro e _
  have hpair : (hexPair e.1).filter (· ≠ '-') = _ :=
    filter_eq_self.mpr (fun c hc => decide_eq_true ((hexPair_spec e.1).1 c hc).2)
  rw [filter_append, hpair]
  split_ifs <;> rfl

-- What each turn of the loop makes of its pair.
def pairs : Bytes → List (Option (Option UInt8))
  | high :: low :: rest => readPair high low rest :: pairs rest
  | _ => []

-- Of the pairs that do not give a byte, the first is no number and ends between characters.
def Stops (bytes : Bytes) : Prop := (pairs bytes).find? (fun r => !r.any Option.isSome) = some (some none)

theorem readPairs_stops_iff : ∀ bytes, readPairs bytes = some none ↔ Stops bytes
  | [] | [_] => by simp [readPairs, Stops, pairs]
  | high :: low :: rest => by
    have ih := readPairs_stops_iff rest
    unfold Stops at ih ⊢
    rw [readPairs, pairs]
    match readPair high low rest with
    | none | some none => simp
    | some (some b) =>
      rw [find?_cons_of_neg (by simp), ← ih]
      cases readPairs rest <;> simp

theorem parseStr_display (u : Uuid) : parseStr u.display = some (.ok u) := by
  have hsame : .ofFn (fun i : Fin 16 => u.bytes.toList.getD i 0) = u.bytes :=
    Vector.ext fun i hi => by simp
  rw [parseStr, hex, digits_display, utf8_ascii (fun c hc => ascii_hexPairs hc), readPairs_hexPairs, if_neg]
  · show some (Except.ok (Uuid.mk _)) = _
    rw [hsame]
  · simp [hexPair]

-- Parsing returns, and takes the text if and only if it has 32 hexadecimal digits.
def Strict (s : String) : Prop :=
  (∃ r, parseStr s = some r) ∧
    ((∃ u, parseStr s = some (.ok u)) ↔ (digits s).length = 32 ∧ ∀ c ∈ digits s, c ∈ hexDigits)

theorem strict_iff (s : String) :
    Strict s ↔ ((hex s).length = 32 → (∀ c ∈ digits s, c ∈ hexDigits) ∨ Stops (hex s)) := by
  have hdigits : (∀ c ∈ digits s, c ∈ hexDigits) → hex s = (digits s).map code :=
    fun h => utf8_ascii (fun c hc => ascii_hexDigits c (h c hc))
  rw [Strict, parseStr, ← readPairs_stops_iff]
  by_cases hlen : (hex s).length = 32
  · by_cases h : ∀ c ∈ digits s, c ∈ hexDigits
    · have hcount : (digits s).length = 32 := by rw [← hlen, hdigits h, length_map]
      obtain ⟨bytes, hread⟩ := readPairs_digits h (by omega)
      simp [hdigits h, hcount, hread, iff_true_intro h]
    · match hout : readPairs (hex s) with
      | none | some none | some (some bytes) => simp [hlen, iff_false_intro h]
  · have hshort : ¬((digits s).length = 32 ∧ ∀ c ∈ digits s, c ∈ hexDigits) := by
      rintro ⟨hcount, h⟩
      exact hlen (by rw [hdigits h, length_map, hcount])
    simp [hlen, hshort]

-- Exactly the texts that have not 32 bytes beside their hyphens, that have only digits there,
-- or that the loop refuses are treated so. What is displayed parses back.
theorem parseStr_exact (s : String) (u : Uuid) :
    (Strict s ↔ ((hex s).length = 32 → (∀ c ∈ digits s, c ∈ hexDigits) ∨ Stops (hex s))) ∧
      parseStr u.display = some (.ok u) :=
  ⟨strict_iff s, parseStr_display u⟩

-- A plus sign passes for a digit, and a pair that ends inside a character panics.
theorem parseStr_plus : (∃ u, parseStr "+f+f+f+f+f+f+f+f+f+f+f+f+f+f+f+f" = some (.ok u)) ∧
    parseStr "0é00000000000000000000000000000" = none :=
  ⟨⟨⟨.ofFn (fun _ => 15)⟩, by decide⟩, by decide⟩

end Uuid

end Skaidb.Types
