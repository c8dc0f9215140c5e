import Mathlib.Logic.Relation
import Mathlib.Data.List.Basic
import Mathlib.Tactic.Common

namespace Skaidb.Base

-- Depth-first search over a graph given by successor lists. The visited vertices are
-- threaded through the calls; the fuel bounds how deep they nest.
section DepthFirst

variable {α : Type*} [DecidableEq α]

def searchAny (visit : α → List α → Bool × List α) : List α → List α → Bool × List α
  | [], visited => (false, visited)
  | a :: rest, visited =>
    match visit a visited with
    | (true, visited') => (true, visited')
    | (false, visited') => searchAny visit rest visited'

variable (next : α → List α) (goal : α → Bool)

def search : Nat → α → List α → Bool × List α
  | 0, _, visited => (false, visited)
  | fuel + 1, a, visited =>
    if a ∈ visited then (false, visited)
    else if goal a then (true, a :: visited)
    else searchAny (search fuel) (next a) (a :: visited)

abbrev Reaches : α → α → Prop := Relation.ReflTransGen (fun x y => y ∈ next x)

variable {next goal} {visited : List α}

omit [DecidableEq α] in
theorem searchAny_true {visit : α → List α → Bool × List α} (h : searchAny visit as visited = (true, found)) :
    ∃ a ∈ as, ∃ before after, visit a before = (true, after) := by
  induction as generalizing visited with
  | nil => simp [searchAny] at h
  | cons a rest ih =>
    rw [searchAny] at h
    split at h
    case h_1 after hv => exact ⟨a, by simp, visited, after, hv⟩
    case h_2 after hv =>
      obtain ⟨b, hb, hfound⟩ := ih h
      exact ⟨b, by simp [hb], hfound⟩

theorem search_sound (h : search next goal fuel a visited = (true, found)) :
    ∃ b, Reaches next a b ∧ goal b = true := by
  induction fuel generalizing a visited found with
  | zero => simp [search] at h
  | succ fuel ih =>
    rw [search] at h
    split_ifs at h with hseen hgoal
    · simp at h
    · exact ⟨a, .refl, hgoal⟩
    · obtain ⟨c, hc, _, _, hvisit⟩ := searchAny_true h
      obtain ⟨b, hreach, hb⟩ := ih hvisit
      exact ⟨b, .head hc hreach, hb⟩

-- What a failed search leaves: the vertices it added are no goals, and their
-- successors have all been visited.
structure Explored (next : α → List α) (goal : α → Bool) (before after : List α) : Prop where
  grows : before ⊆ after
  closed : ∀ x ∈ after, x ∉ before → goal x = false ∧ ∀ y ∈ next x, y ∈ after

omit [DecidableEq α] in
theorem Explored.refl (visited : List α) : Explored next goal visited visited :=
  ⟨fun _ hx => hx, fun _ hx hnot => absurd hx hnot⟩

theorem Explored.trans (h : Explored next goal before between) (h' : Explored next goal between after) :
    Explored next goal before after := by
  refine ⟨fun x hx => h'.grows (h.grows hx), ?_⟩
  intro x hx hnot
  by_cases hb : x ∈ between
  · obtain ⟨hgoal, hnext⟩ := h.closed x hb hnot
    exact ⟨hgoal, fun y hy => h'.grows (hnext y hy)⟩
  · exact h'.closed x hx hb

def pending (nodes visited : List α) : Nat := (nodes.filter (fun x => x ∉ visited)).length

theorem pending_le_of_subset (nodes : List α) (h : visited ⊆ visited') :
    pending nodes visited' ≤ pending nodes visited := by
  refine (List.monotone_filter_right nodes ?_).length_le
  intro x hx
  simp only [decide_eq_true_eq] at hx ⊢
  exact fun hv => hx (h hv)

variable {nodes : List α}

theorem pending_cons_lt (ha : a ∈ nodes) (hnew : a ∉ visited) :
    pending nodes (a :: visited) < pending nodes visited := by
  have hsplit : nodes.filter (fun x => x ∉ a :: visited) =
      (nodes.filter (fun x => x ∉ visited)).filter (fun x => x ≠ a) := by
    rw [List.filter_filter]
    refine List.filter_congr ?_
    intro x _
    simp
  rw [pending, hsplit, pending]
  refine List.length_filter_lt_length_iff_exists.mpr ⟨a, ?_, by simp⟩
  simp [ha, hnew]

private theorem searchAny_false
    (hvisit : ∀ a before after, pending nodes before < fuel → visit a before = (false, after) →
      Explored next goal before after ∧ a ∈ after)
    (hfuel : pending nodes before < fuel) (h : searchAny visit as before = (false, after)) :
    Explored next goal before after ∧ ∀ a ∈ as, a ∈ after := by
  induction as generalizing before with
  | nil =>
    simp only [searchAny, Prod.mk.injEq, true_and] at h
    subst h
    exact ⟨.refl before, by simp⟩
  | cons a rest ih =>
    rw [searchAny] at h
    split at h
    case h_1 => simp at h
    case h_2 between hv =>
      obtain ⟨hexp, hmem⟩ := hvisit a before between hfuel hv
      have hless := Nat.lt_of_le_of_lt (pending_le_of_subset nodes hexp.grows) hfuel
      obtain ⟨hexp', hmem'⟩ := ih hless h
      refine ⟨hexp.trans hexp', ?_⟩
      intro x hx
      obtain rfl | hx := List.mem_cons.mp hx
      · exact hexp'.grows hmem
      · exact hmem' x hx

theorem search_false (hnodes : ∀ x, x ∉ nodes → next x = []) (hfuel : pending nodes before < fuel)
    (h : search next goal fuel a before = (false, after)) : Explored next goal before after ∧ a ∈ after := by
  induction fuel generalizing a before after with
  | zero => omega
  | succ fuel ih =>
    rw [search] at h
    split_ifs at h with hseen hgoal
    · simp only [Prod.mk.injEq, true_and] at h
      subst h
      exact ⟨.refl before, hseen⟩
    · simp at h
    · have hinner : Explored next goal (a :: before) after ∧ ∀ y ∈ next a, y ∈ after := by
        by_cases ha : a ∈ nodes
        · have hless := pending_cons_lt ha hseen
          exact searchAny_false (fun _ _ _ hf hv => ih hf hv) (by omega) h
        · rw [hnodes a ha] at h ⊢
          simp only [searchAny, Prod.mk.injEq, true_and] at h
          subst h
          exact ⟨.refl _, by simp⟩
      obtain ⟨hexp, hnext⟩ := hinner
      refine ⟨⟨fun x hx => hexp.grows (by simp [hx]), ?_⟩, hexp.grows (by simp)⟩
      intro x hx hnot
      by_cases hxa : x = a
      · subst hxa
        exact ⟨by simpa using hgoal, hnext⟩
      · exact hexp.closed x hx (by simp [hxa, hnot])

-- With fuel for every vertex that has successors, the search is exact.
theorem search_iff (hnodes : ∀ x, x ∉ nodes → next x = []) (hfuel : nodes.length < fuel) :
    (search next goal fuel a []).1 = true ↔ ∃ b, Reaches next a b ∧ goal b = true := by
  constructor
  · intro h
    exact search_sound (Prod.ext h rfl : search next goal fuel a [] = (true, _))
  · rintro ⟨b, hreach, hgoal⟩
    by_contra hfalse
    have hpending : pending nodes [] < fuel := Nat.lt_of_le_of_lt (List.length_filter_le _ _) hfuel
    obtain ⟨hexp, ha⟩ := search_false hnodes hpending
      (Prod.ext (Bool.eq_false_iff.mpr hfalse) rfl : search next goal fuel a [] = (false, _))
    have hb : b ∈ (search next goal fuel a []).2 := by
      clear hgoal
      induction hreach with
      | refl => exact ha
      | tail _ hstep ih => exact (hexp.closed _ ih (by simp)).2 _ hstep
    have hno := (hexp.closed b hb (by simp)).1
    rw [hgoal] at hno
    exact absurd hno (by decide)

end DepthFirst

end Skaidb.Base
