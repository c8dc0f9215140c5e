import Mathlib.Data.List.Forall2

namespace Skaidb.Exec

open List

-- What is left of the text and of the pattern. `star` has the pattern after the last percent
-- sign and the characters that were matched since the end of its run.
def likeFrom (s p : List Char) (star : Option (List Char × List Char)) : Bool :=
  match s with
  | [] => p.all (· = '%')
  | x :: rest =>
    if p.head? = some '%' then likeFrom (x :: rest) p.tail (some (p.tail, []))
    else if p.head? = some '_' ∨ p.head? = some x then
      likeFrom rest p.tail (star.map (fun t => (t.1, t.2 ++ [x])))
    else
      match star with
      -- The run of the percent sign grows by one character.
      | some (q, a) => likeFrom (a ++ x :: rest).tail q (some (q, []))
      | none => false
termination_by ((star.map (fun t => t.2.length + s.length)).getD (s.length + 1), p.length)
decreasing_by
  · cases p <;> cases star <;> simp only [Prod.lex_def, Option.map, Option.getD, length, tail] <;> grind
  · cases p <;> cases star <;> simp only [Prod.lex_def, Option.map, Option.getD, length, tail, length_append] <;> grind
  · simp [Prod.lex_def]

def likeMatch (s pattern : String) : Bool := likeFrom s.toList pattern.toList none

-- The part of the text that one pattern character stands for.
def Covers (c : Char) (part : List Char) : Prop :=
  if c = '%' then True else if c = '_' then part.length = 1 else part = [c]

def Like (p s : List Char) : Prop := ∃ parts : List (List Char), parts.flatten = s ∧ Forall₂ Covers p parts

section Like

variable {p q a b s u : List Char} {c x : Char}

theorem like_nil : Like [] s ↔ s = [] := by
  simp [Like, eq_comm]

theorem like_cons : Like (c :: p) s ↔ ∃ u v, u ++ v = s ∧ Covers c u ∧ Like p v := by
  constructor
  · rintro ⟨parts, rfl, hparts⟩
    obtain ⟨u, rest, hu, hrest, rfl⟩ := forall₂_cons_left_iff.mp hparts
    exact ⟨u, rest.flatten, rfl, hu, rest, rfl, hrest⟩
  · rintro ⟨u, v, rfl, hu, rest, rfl, hrest⟩
    exact ⟨u :: rest, rfl, .cons hu hrest⟩

theorem like_percent : Like ('%' :: p) s ↔ ∃ u v, u ++ v = s ∧ Like p v := by
  simp [like_cons, Covers]

theorem covers_iff (hc : c ≠ '%') : Covers c u ↔ ∃ x, u = [x] ∧ (c = '_' ∨ c = x) := by
  rw [Covers, if_neg hc]
  split_ifs with hone
  · simp [hone, length_eq_one_iff]
  · simp [hone]

theorem like_step (hc : c ≠ '%') : Like (c :: p) (x :: s) ↔ (c = '_' ∨ c = x) ∧ Like p s := by
  simp only [like_cons, covers_iff hc]
  constructor
  · rintro ⟨_, v, heq, ⟨y, rfl, hy⟩, hv⟩
    obtain ⟨rfl, rfl⟩ := cons.inj heq
    exact ⟨hy, hv⟩
  · exact fun ⟨hx, hs⟩ => ⟨[x], s, rfl, ⟨x, rfl, hx⟩, hs⟩

theorem like_end : Like p [] ↔ p.all (· = '%') = true := by
  induction p with
  | nil => simp [like_nil]
  | cons c p ih =>
    by_cases hc : c = '%'
    · subst hc
      simp [like_percent, ih]
    · simp [like_cons, covers_iff hc, hc]

theorem not_like (hp : p.head? ≠ some '%') (hc : ¬(p.head? = some '_' ∨ p.head? = some x)) : ¬Like p (x :: s) := by
  cases p with
  | nil => simp [like_nil]
  | cons c p =>
    simp only [head?_cons, Option.some.injEq] at hp hc
    rw [like_step (by simpa using hp)]
    exact fun h => hc h.1

theorem Like.percent_append (h : Like ('%' :: p) s) (u : List Char) : Like ('%' :: p) (u ++ s) := by
  obtain ⟨w, v, rfl, hv⟩ := like_percent.mp h
  exact like_percent.mpr ⟨u ++ w, v, append_assoc u w v, hv⟩

-- A stretch without percent signs, matched character by character.
def Matched : List Char → List Char → Prop := Forall₂ (fun c x => c ≠ '%' ∧ (c = '_' ∨ c = x))

theorem Matched.like_append (h : Matched b a) : Like (b ++ p) (a ++ s) ↔ Like p s := by
  induction h with
  | nil => rfl
  | cons hc _ ih => rw [cons_append, cons_append, like_step hc.1, ih, and_iff_right hc.2]

theorem Matched.split (h : Matched b a) (hv : Like (b ++ p) v) :
    ∃ a' s, a' ++ s = v ∧ a'.length = a.length ∧ Like p s := by
  induction h generalizing v with
  | nil => exact ⟨[], v, rfl, rfl, hv⟩
  | cons hc _ ih =>
    obtain ⟨_, w, rfl, hone, hw⟩ := like_cons.mp hv
    obtain ⟨y, rfl, -⟩ := (covers_iff hc.1).mp hone
    obtain ⟨a', s, rfl, hlen, hs⟩ := ih hw
    exact ⟨y :: a', s, rfl, congrArg Nat.succ hlen, hs⟩

theorem Matched.absorb (h : Matched b a) (hp : ∀ u v, u ++ v = s → Like p v → Like p s) :
    Like ('%' :: (b ++ p)) (a ++ s) ↔ Like p s := by
  constructor
  · intro hlike
    obtain ⟨u, w, huw, hw⟩ := like_percent.mp hlike
    obtain ⟨a', v, rfl, hlen, hv⟩ := h.split hw
    rw [← append_assoc] at huw
    have hle : a.length ≤ (u ++ a').length := by
      rw [length_append]
      omega
    obtain ⟨w, hw⟩ := prefix_of_prefix_length_le (prefix_append a s) (huw ▸ prefix_append (u ++ a') v) hle
    rw [← hw, append_assoc] at huw
    exact hp w v (append_cancel_left huw) hv
  · exact fun hlike => like_percent.mpr ⟨[], _, rfl, h.like_append.mpr hlike⟩

end Like

-- With a percent sign behind, the text from the end of its run is still open to a longer run.
theorem likeFrom_iff {star : Option (List Char × List Char)}
    (hstar : ∀ t ∈ star, ∃ b, t.1 = b ++ p ∧ Matched b t.2) : likeFrom s p star = true ↔
    match star with
    | none => Like p s
    | some (q, a) => Like ('%' :: q) (a ++ s) := by
  fun_induction likeFrom s p star with
  | case1 p star =>
    rw [← like_end]
    cases star with
    | none => rfl
    | some t =>
      obtain ⟨q, a⟩ := t
      obtain ⟨b, rfl, hmatched⟩ := hstar _ rfl
      refine (hmatched.absorb fun u v huv hv => ?_).symm
      rwa [(append_eq_nil_iff.mp huv).2] at hv
  | case2 p star x rest hp ih =>
    obtain ⟨p, rfl⟩ := head?_eq_some_iff.mp hp
    refine (ih ?_).trans ?_
    · rintro _ ⟨⟩
      exact ⟨[], rfl, .nil⟩
    cases star with
    | none => rfl
    | some t =>
      obtain ⟨q, a⟩ := t
      obtain ⟨b, rfl, hmatched⟩ := hstar _ rfl
      exact (hmatched.absorb fun u v huv hv => huv ▸ hv.percent_append u).symm
  | case3 p star x rest hp hc ih =>
    obtain ⟨c, p, rfl⟩ : ∃ c p', p = c :: p' := by
      cases p with
      | nil => simp at hc
      | cons c p => exact ⟨c, p, rfl⟩
    simp only [head?_cons, Option.some.injEq] at hp hc
    refine (ih ?_).trans ?_
    · intro t ht
      obtain ⟨⟨q, a⟩, hbefore, rfl⟩ := Option.map_eq_some_iff.mp ht
      obtain ⟨b, rfl, hmatched⟩ := hstar _ hbefore
      exact ⟨b ++ [c], by simp, rel_append hmatched (.cons ⟨hp, hc⟩ .nil)⟩
    cases star with
    | none => simp [like_step hp, hc]
    | some t => simp
  | case4 p x rest hp hc q a ih =>
    obtain ⟨b, rfl, hmatched⟩ := hstar _ rfl
    refine (ih ?_).trans ?_
    · rintro _ ⟨⟩
      exact ⟨[], rfl, .nil⟩
    obtain ⟨y, m, hm⟩ := exists_cons_of_ne_nil (show a ++ x :: rest ≠ [] by simp)
    simp only [nil_append, hm, tail_cons]
    constructor
    · exact fun hlike => hlike.percent_append [y]
    · intro hlike
      obtain ⟨_ | ⟨_, u⟩, v, huv, hv⟩ := like_percent.mp hlike
      · rw [nil_append] at huv
        rw [huv, ← hm, hmatched.like_append] at hv
        exact absurd hv (not_like hp hc)
      · exact like_percent.mpr ⟨u, v, (cons.inj huv).2, hv⟩
  | case5 p x rest hp hc => simp [not_like hp hc]

-- The scan goes back to the last percent sign only, and misses no way to split the text.
theorem likeMatch_iff (s pattern : String) : likeMatch s pattern = true ↔
    ∃ parts : List (List Char), parts.flatten = s.toList ∧ Forall₂ Covers pattern.toList parts := by
  rw [likeMatch, likeFrom_iff]
  · rfl
  · simp

end Skaidb.Exec
