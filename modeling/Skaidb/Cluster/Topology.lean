import Skaidb.Base.Texts
import Skaidb.Cluster.Coordinator

namespace Skaidb.Cluster

open Skaidb.Base List

abbrev Member := NodeId × String

-- A `SetMembership` message. A non-empty previous list marks a change in progress.
structure Update where
  epoch : UInt64
  members : List Member
  prevMembers : List Member
  deriving DecidableEq

-- A node's view of the membership. Of the previous members only the ring is kept, which is
-- given by their ids; an empty list stands for no previous ring.
structure Topology where
  epoch : UInt64
  members : List Member
  prev : List NodeId
  deriving DecidableEq

namespace Topology

def build (u : Update) : Topology := ⟨u.epoch, u.members, u.prevMembers.map Prod.fst⟩

def fromMembers (members : List Member) (epoch : UInt64) : Topology := build ⟨epoch, members, []⟩

-- An update that is not newer is ignored, except by a node that has never been given one.
def setMembership (topo : Topology) (u : Update) : Topology :=
  if u.epoch ≤ topo.epoch ∧ topo.epoch ≠ 0 then topo else build u

end Topology

section File

-- The topology file: the epoch on the first line, then one member a line. The previous
-- members are not in it.
def saveMembership (epoch : UInt64) (members : List Member) : String :=
  "\n".intercalate (toString epoch.toNat :: members.map (fun m => m.1.name ++ " " ++ m.2) ++ [""])

def loadMembers : List String → Option (List Member)
  | [] => some []
  | line :: rest =>
    if trim line = "" then loadMembers rest
    else
      match splitOnce ' ' (trim line) with
      | none => none
      | some (id, addr) => (loadMembers rest).map (fun ms => (⟨id⟩, addr) :: ms)

def loadMembership (text : String) : Option (List Member × UInt64) :=
  match splitAll '\n' text with
  | [] => none
  | first :: rest =>
    match parseUnsigned (2 ^ 64 - 1) (trim first), loadMembers rest with
    | some epoch, some members => if members = [] then none else some (members, UInt64.ofNat epoch)
    | _, _ => none

def cleanText (text : String) : Bool := text ≠ "" && text.toList.all (fun c => !isWhite c)

def cleanMember (m : Member) : Bool := cleanText m.1.name && cleanText m.2

private theorem not_mem_of_clean {text : String} (h : cleanText text = true) (hc : isWhite c = true) :
    c ∉ text.toList := by
  intro hmem
  simp only [cleanText, Bool.and_eq_true, all_eq_true, Bool.not_eq_true'] at h
  rw [h.2 c hmem] at hc
  exact absurd hc (by decide)

private theorem line_toList (m : Member) :
    (m.1.name ++ " " ++ m.2).toList = m.1.name.toList ++ ' ' :: m.2.toList := by
  simp

private theorem trim_line (h : cleanMember m = true) :
    trim (m.1.name ++ " " ++ m.2) = m.1.name ++ " " ++ m.2 := by
  simp only [cleanMember, cleanText, Bool.and_eq_true, all_eq_true, Bool.not_eq_true',
    decide_eq_true_eq] at h
  obtain ⟨⟨hid, hidw⟩, haddr, haddrw⟩ := h
  refine trim_eq_self ?_ ?_
  · intro c hc
    rw [line_toList, List.head?_append_of_ne_nil _ (by simpa using hid)] at hc
    exact hidw c (mem_of_mem_head? hc)
  · intro c hc
    have hsuffix : (m.1.name ++ " " ++ m.2).toList.getLast? = m.2.toList.getLast? := by
      rw [line_toList, append_cons, getLast?_append_of_ne_nil _ (by simpa using haddr)]
    rw [hsuffix] at hc
    exact haddrw c (mem_of_mem_getLast? hc)

theorem loadMembers_lines {members : List Member} (h : ∀ m ∈ members, cleanMember m = true) :
    loadMembers (members.map (fun m => m.1.name ++ " " ++ m.2) ++ [""]) = some members := by
  induction members with
  | nil => decide
  | cons m rest ih =>
    have hm := h m (by simp)
    have hsplit : splitOnce ' ' (m.1.name ++ " " ++ m.2) = some (m.1.name, m.2) := by
      simp only [cleanMember, Bool.and_eq_true] at hm
      exact splitOnce_append (not_mem_of_clean hm.1 (by decide)) m.2
    have hne : m.1.name ++ " " ++ m.2 ≠ "" := by
      intro heq
      have := congrArg String.toList heq
      simp at this
    rw [map_cons, cons_append, loadMembers, trim_line hm, if_neg hne, hsplit,
      ih (fun x hx => h x (by simp [hx]))]
    rfl

theorem loadMembership_save {epoch : UInt64} {members : List Member} (h : ∀ m ∈ members, cleanMember m = true) :
    loadMembership (saveMembership epoch members) = if members = [] then none else some (members, epoch) := by
  have hlines : splitAll '\n' (saveMembership epoch members) =
      toString epoch.toNat :: members.map (fun m => m.1.name ++ " " ++ m.2) ++ [""] := by
    refine splitAll_intercalate (by simp) ?_
    intro line hline hmem
    simp only [cons_append, mem_cons, mem_append, mem_map, not_mem_nil, or_false] at hline
    obtain rfl | ⟨m, hm, rfl⟩ | rfl := hline
    · exact absurd (isDigit_of_mem_toString hmem) (by decide)
    · have hclean := h m hm
      simp only [cleanMember, Bool.and_eq_true] at hclean
      rw [line_toList, mem_append, mem_cons] at hmem
      obtain hmem | hmem | hmem := hmem
      · exact not_mem_of_clean hclean.1 (by decide) hmem
      · exact absurd hmem (by decide)
      · exact not_mem_of_clean hclean.2 (by decide) hmem
    · simp at hmem
  have hnumber : ∀ c ∈ (toString epoch.toNat).toList, isWhite c = false :=
    fun c hc => isWhite_of_isDigit (isDigit_of_mem_toString hc)
  have htrim : trim (toString epoch.toNat) = toString epoch.toNat :=
    trim_eq_self (fun c hc => hnumber c (mem_of_mem_head? hc))
      (fun c hc => hnumber c (mem_of_mem_getLast? hc))
  have hbound : epoch.toNat ≤ 2 ^ 64 - 1 := by
    have := epoch.toNat_lt
    omega
  rw [loadMembership, hlines, cons_append]
  simp only [htrim, parseUnsigned_toString hbound, loadMembers_lines h, UInt64.ofNat_toNat]

end File

end Skaidb.Cluster
