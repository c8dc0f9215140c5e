import Mathlib.Algebra.Group.Nat.Defs
import Mathlib.Data.List.Basic
import Mathlib.Tactic.Common

namespace Skaidb.Base

open List

def splitOnce (sep : Char) (text : String) : Option (String × String) :=
  match text.toList.dropWhile (· ≠ sep) with
  | [] => none
  | _ :: after => some (String.ofList (text.toList.takeWhile (· ≠ sep)), String.ofList after)

def splitAll (sep : Char) (text : String) : List String :=
  (text.toList.splitOn sep).map String.ofList

def isWhite (c : Char) : Bool :=
  let n := c.toNat
  (9 ≤ n && n ≤ 13) || n = 0x20 || n = 0x85 || n = 0xA0 || n = 0x1680 || (0x2000 ≤ n && n ≤ 0x200A) ||
    n = 0x2028 || n = 0x2029 || n = 0x202F || n = 0x205F || n = 0x3000

def trim (text : String) : String :=
  String.ofList (((text.toList.dropWhile isWhite).reverse.dropWhile isWhite).reverse)

def digits? : List Char → Option Nat
  | [] => none
  | cs => if cs.all Char.isDigit then some (Nat.ofDigitChars 10 cs 0) else none

def parseUnsigned (bound : Nat) (text : String) : Option Nat :=
  let number := match text.toList with
    | '+' :: rest => digits? rest
    | cs => digits? cs
  number.filter (· ≤ bound)

def parseSigned (text : String) : Option Int :=
  match text.toList with
  | '-' :: rest => ((digits? rest).filter (· ≤ 2 ^ 63)).map (fun n => -(n : Int))
  | _ => (parseUnsigned (2 ^ 63 - 1) text).map (fun n => (n : Int))

theorem splitOnce_append {before : String} (h : sep ∉ before.toList) (after : String) :
    splitOnce sep (before ++ String.singleton sep ++ after) = some (before, after) := by
  have hne : ∀ c ∈ before.toList, decide (c ≠ sep) = true := by
    intro c hc
    simp only [decide_eq_true_eq]
    rintro rfl
    exact h hc
  have hlist : (before ++ String.singleton sep ++ after).toList = before.toList ++ sep :: after.toList := by
    simp
  rw [splitOnce, hlist, dropWhile_append_of_pos hne, takeWhile_append_of_pos hne]
  simp

theorem splitAll_intercalate (hne : lines ≠ []) (h : ∀ line ∈ lines, sep ∉ line.toList) :
    splitAll sep ((String.singleton sep).intercalate lines) = lines := by
  have hchars : ∀ cs ∈ lines.map String.toList, sep ∉ cs := by
    intro cs hcs
    obtain ⟨line, hline, rfl⟩ := mem_map.mp hcs
    exact h line hline
  rw [splitAll, String.toList_intercalate, String.toList_singleton,
    splitOn_intercalate sep hchars (by simpa using hne), map_map]
  calc lines.map (String.ofList ∘ String.toList) = lines.map id := by
        refine map_congr_left (fun line _ => ?_)
        simp
    _ = lines := map_id lines

theorem isWhite_of_isDigit {c : Char} (h : c.isDigit = true) : isWhite c = false := by
  simp only [Char.isDigit, Bool.and_eq_true, decide_eq_true_eq, UInt32.le_iff_toNat_le, ge_iff_le] at h
  have hval : c.toNat = c.val.toNat := rfl
  have hzero : '0'.val.toNat = 48 := rfl
  have hnine : '9'.val.toNat = 57 := rfl
  simp only [isWhite, Bool.or_eq_false_iff, Bool.and_eq_false_iff, decide_eq_false_iff_not]
  omega

theorem isDigit_of_mem_toString {n : Nat} {c : Char} (h : c ∈ (toString n).toList) : c.isDigit = true := by
  rw [Nat.toString_eq_ofList_toDigits, String.toList_ofList] at h
  exact Nat.isDigit_of_mem_toDigits (by decide) (by decide) h

theorem trim_eq_self {text : String} (hfirst : ∀ c ∈ text.toList.head?, isWhite c = false)
    (hlast : ∀ c ∈ text.toList.getLast?, isWhite c = false) : trim text = text := by
  have hdrop : ∀ cs : List Char, (∀ c ∈ cs.head?, isWhite c = false) → cs.dropWhile isWhite = cs := by
    intro cs hcs
    cases cs with
    | nil => rfl
    | cons c rest => rw [dropWhile_cons_of_neg (by simp [hcs c rfl])]
  rw [trim, hdrop _ hfirst, hdrop _ (by simpa using hlast), reverse_reverse, String.ofList_toList]

theorem parseUnsigned_toString (h : n ≤ bound) : parseUnsigned bound (toString n) = some n := by
  have hdigits : ∀ c ∈ Nat.toDigits 10 n, c.isDigit = true :=
    fun c hc => Nat.isDigit_of_mem_toDigits (by decide) (by decide) hc
  have hparsed : digits? (Nat.toDigits 10 n) = some n := by
    have hval : Nat.ofDigitChars 10 (Nat.toDigits 10 n) 0 = n :=
      Nat.ofDigitChars_toDigits (by decide) (by decide)
    cases hcs : Nat.toDigits 10 n with
    | nil => exact absurd hcs (Nat.toDigits_ne_nil)
    | cons c rest =>
      rw [hcs] at hdigits hval
      rw [digits?, if_pos (all_eq_true.mpr hdigits), hval]
      simp
  have hplus : ∀ rest, (toString n).toList ≠ '+' :: rest := by
    intro rest heq
    rw [Nat.toString_eq_ofList_toDigits, String.toList_ofList] at heq
    exact absurd (hdigits '+' (by simp [heq])) (by decide)
  have hnumber : (match (toString n).toList with
      | '+' :: rest => digits? rest
      | cs => digits? cs) = some n := by
    split
    case h_1 rest heq => exact absurd heq (hplus rest)
    case h_2 => rw [Nat.toString_eq_ofList_toDigits, String.toList_ofList, hparsed]
  rw [parseUnsigned, hnumber]
  simp [Option.filter, h]

end Skaidb.Base
