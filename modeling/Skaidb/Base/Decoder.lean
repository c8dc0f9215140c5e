import Skaidb.Base.Framing

namespace Skaidb.Base

open List

-- A decoder takes a value off the front of a string, if a whole one stands there, and
-- gives what follows it.
abbrev Decoder (σ α : Type*) := List σ → Option (α × List σ)

namespace Decoder

variable {σ α β : Type*}

def pure (a : α) : Decoder σ α := fun xs => some (a, xs)

def bind (x : Decoder σ α) (f : α → Decoder σ β) : Decoder σ β := fun xs => (x xs).bind (fun p => f p.1 p.2)

def fixed (n : Nat) : Decoder σ (List σ) := fun xs => if n ≤ xs.length then some (xs.take n, xs.drop n) else none

variable {x : Decoder σ α}

theorem bind_eq (h : x xs = some (a, rest)) (f : α → Decoder σ β) : x.bind f xs = f a rest := by
  rw [bind, h]
  rfl

theorem fixed_append (xs rest : List σ) : fixed xs.length (xs ++ rest) = some (xs, rest) := by
  rw [fixed, if_pos (by rw [length_append]; omega), take_left' rfl, drop_left' rfl]

-- What is read depends on the symbols read alone, not on what follows them.
def Bounded (x : Decoder σ α) : Prop :=
  ∀ xs a rest, x xs = some (a, rest) → ∃ used, xs = used ++ rest ∧ ∀ ys, x (used ++ ys) = some (a, ys)

def Takes (x : Decoder σ α) (n : Nat) : Prop :=
  ∀ xs a rest, x xs = some (a, rest) → rest.length + n ≤ xs.length

theorem bounded_pure : Bounded (pure a : Decoder σ α) := by
  intro xs b rest h
  cases h
  exact ⟨[], rfl, fun _ => rfl⟩

theorem Bounded.bind {f : α → Decoder σ β} (hx : Bounded x) (hf : ∀ a, Bounded (f a)) : Bounded (x.bind f) := by
  intro xs b rest h
  obtain ⟨⟨a, mid⟩, ha, hb⟩ := Option.bind_eq_some_iff.mp h
  obtain ⟨used, rfl, hused⟩ := hx _ _ _ ha
  obtain ⟨used', rfl, hused'⟩ := hf a _ _ _ hb
  refine ⟨used ++ used', by simp, ?_⟩
  intro ys
  rw [Decoder.bind, append_assoc, hused]
  exact hused' ys

theorem bounded_fixed : Bounded (fixed n : Decoder σ (List σ)) := by
  intro xs a rest h
  unfold fixed at h
  split_ifs at h with hle
  cases h
  refine ⟨xs.take n, (take_append_drop n xs).symm, ?_⟩
  intro ys
  have hlen : (xs.take n).length = n := by
    rw [length_take]
    omega
  rw [fixed, if_pos (by rw [length_append]; omega), take_left' hlen, drop_left' hlen]

theorem takes_zero (h : Bounded x) : Takes x 0 := by
  intro xs a rest hx
  obtain ⟨used, rfl, -⟩ := h _ _ _ hx
  simp

theorem takes_fixed : Takes (fixed n : Decoder σ (List σ)) n := by
  intro xs a rest h
  unfold fixed at h
  split_ifs at h with hle
  cases h
  rw [length_drop]
  omega

theorem Takes.bind {f : α → Decoder σ β} (hx : Takes x n) (hf : ∀ a, Bounded (f a)) : Takes (x.bind f) n := by
  intro xs b rest h
  obtain ⟨⟨a, mid⟩, ha, hb⟩ := Option.bind_eq_some_iff.mp h
  have hmid := hx _ _ _ ha
  have hrest : rest.length + 0 ≤ mid.length := takes_zero (hf a) _ _ _ hb
  omega

theorem Bounded.none_of_cut (h : Bounded x) {used : List σ} (hused : x used = some (a, []))
    (hk : k < used.length) : x (used.take k) = none := by
  cases hcut : x (used.take k) with
  | none => rfl
  | some p =>
    obtain ⟨b, rest⟩ := p
    obtain ⟨front, hfront, hext⟩ := h _ _ _ hcut
    have hwhole := hext (rest ++ used.drop k)
    rw [← append_assoc, ← hfront, take_append_drop, hused] at hwhole
    cases hrest : rest ++ used.drop k with
    | cons => rw [hrest] at hwhole; cases hwhole
    | nil =>
      have hlen := congrArg List.length (append_eq_nil_iff.mp hrest).2
      rw [length_drop, length_nil] at hlen
      omega

def framing (x : Decoder σ α) (hx : Bounded x) (hpos : Takes x 1) : Framing σ (α × Nat) where
  head := fun xs => (x xs).map (fun p => (p.1, xs.length - p.2.length - 1))
  size := fun b => b.2 + 1
  size_pos := fun b => Nat.succ_pos _
  size_le := by
    intro xs b h
    obtain ⟨⟨a, rest⟩, ha, rfl⟩ := Option.map_eq_some_iff.mp h
    have := hpos _ _ _ ha
    simp only
    omega
  head_congr := by
    intro xs b h ys htake hle
    obtain ⟨⟨a, rest⟩, ha, rfl⟩ := Option.map_eq_some_iff.mp h
    have htakes := hpos _ _ _ ha
    obtain ⟨used, rfl, hused⟩ := hx _ _ _ ha
    have hlen : (used ++ rest).length - rest.length - 1 + 1 = used.length := by
      rw [List.length_append] at htakes ⊢
      omega
    simp only [hlen] at htake hle ⊢
    rw [List.take_left' rfl] at htake
    obtain ⟨zs, rfl⟩ : ∃ zs, ys = used ++ zs := ⟨ys.drop used.length, by
      conv_lhs => rw [← List.take_append_drop used.length ys, htake]⟩
    rw [hused]
    simp

section Framing

variable {xs rest : List σ}

theorem head_framing_eq_none : (framing x hx hpos).head xs = none ↔ x xs = none := by
  simp [framing]

def values (x : Decoder σ α) (hx : Bounded x) (hpos : Takes x 1) (xs : List σ) : List α :=
  ((framing x hx hpos).frames 0 xs).map (fun f => f.2.1)

private theorem map_frames :
    ((framing x hx hpos).frames pos xs).map (fun f => f.2.1) = values x hx hpos xs := by
  have := congrArg (List.map Prod.fst) (Framing.map_snd_frames (F := framing x hx hpos) xs pos 0)
  simpa only [map_map, Function.comp_def, values] using this

theorem values_of_none (h : x xs = none) : values x hx hpos xs = [] := by
  rw [values, Framing.frames_of_head_none (head_framing_eq_none.mpr h), map_nil]

theorem values_of_some (h : x xs = some (a, rest)) : values x hx hpos xs = a :: values x hx hpos rest := by
  have htakes := hpos _ _ _ h
  obtain ⟨used, rfl, hused⟩ := hx _ _ _ h
  have hhead : (framing x hx hpos).head (used ++ rest) =
      some (a, (used ++ rest).length - rest.length - 1) := by
    show (x (used ++ rest)).map _ = _
    rw [h]
    rfl
  have hsize : (framing x hx hpos).size (a, (used ++ rest).length - rest.length - 1) = used.length := by
    show (used ++ rest).length - rest.length - 1 + 1 = _
    rw [length_append] at htakes ⊢
    omega
  rw [values, Framing.frames_of_head_some hhead, map_cons, hsize, drop_left' rfl, map_frames]

def Filled (x : Decoder σ α) (hx : Bounded x) (hpos : Takes x 1) (xs : List σ) : Prop :=
  (framing x hx hpos).extent xs = xs.length
deriving Decidable

theorem values_append (h : Filled x hx hpos xs) :
    values x hx hpos (xs ++ ys) = values x hx hpos xs ++ values x hx hpos ys := by
  rw [values, Framing.frames_append h, map_append, map_frames, map_frames]

end Framing

-- Reading a string that comes in chunks: what is buffered, what is not read yet, and whether
-- the end has been seen.
structure Stream (σ : Type*) where
  buf : List σ
  unread : List σ
  eof : Bool

section Stream

variable (x : Decoder σ α) (limit chunk : Nat)

-- Values until there are `limit`, with a chunk more whenever the buffer has no whole one. An
-- unreadable rest counts as the end.
def fill (readable : Bool) : Nat → List α → Stream σ → List α × Stream σ
  | 0, page, s => (page, s)
  | fuel + 1, page, s =>
    if page.length < limit then
      match x s.buf with
      | some (a, rest) => fill readable fuel (page ++ [a]) { s with buf := rest }
      | none =>
        if s.eof then (page, s)
        else
          let got := if readable then s.unread.take chunk else []
          fill readable fuel page ⟨s.buf ++ got, s.unread.drop got.length, got.isEmpty⟩
    else (page, s)

def Stream.measure (s : Stream σ) : Nat := 2 * s.unread.length + s.buf.length + if s.eof then 0 else 1

variable {x limit chunk}

-- Nothing is skipped: the page and what is left are all the values there were. A page that
-- is not full has seen the end.
theorem fill_spec (hchunk : 0 < chunk) {fuel : Nat} {page : List α} {s : Stream σ}
    (hfuel : s.measure < fuel) (heof : s.eof = true → s.unread = []) :
    let r := fill x limit chunk true fuel page s
    page ++ values x hx hpos (s.buf ++ s.unread) = r.1 ++ values x hx hpos (r.2.buf ++ r.2.unread) ∧
      (r.2.eof = true → r.2.unread = []) ∧
      (r.1.length < limit → r.2.eof = true ∧ values x hx hpos (r.2.buf ++ r.2.unread) = []) := by
  induction fuel generalizing page s with
  | zero => omega
  | succ fuel ih =>
    by_cases hpage : page.length < limit
    · simp only [fill, hpage, if_true]
      cases hbuf : x s.buf with
      | some p =>
        obtain ⟨a, rest⟩ := p
        have htakes := hpos _ _ _ hbuf
        have hvalues : values x hx hpos (s.buf ++ s.unread) =
            a :: values x hx hpos (rest ++ s.unread) := by
          obtain ⟨used, hused, hext⟩ := hx _ _ _ hbuf
          refine values_of_some ?_
          rw [hused, append_assoc]
          exact hext _
        have hrest := @ih (page ++ [a]) { s with buf := rest } (by
          unfold Stream.measure at hfuel ⊢
          simp only
          omega) heof
        rw [hvalues, append_cons]
        exact hrest
      | none =>
        by_cases hend : s.eof = true
        · simp only [hend, if_true]
          refine ⟨trivial, fun _ => heof hend, ?_⟩
          intro _
          refine ⟨trivial, values_of_none ?_⟩
          rw [heof hend, append_nil]
          exact hbuf
        · have hmeasure : (⟨s.buf ++ s.unread.take chunk, s.unread.drop (s.unread.take chunk).length,
              (s.unread.take chunk).isEmpty⟩ : Stream σ).measure < fuel := by
            unfold Stream.measure at hfuel ⊢
            simp only [hend, Bool.false_eq_true, if_false, length_append, length_drop,
              length_take] at hfuel ⊢
            cases hun : s.unread with
            | nil => simp [hun] at hfuel ⊢; omega
            | cons y ys =>
              obtain ⟨c, rfl⟩ : ∃ c, chunk = c + 1 := ⟨chunk - 1, by omega⟩
              rw [hun] at hfuel
              simp only [take_succ_cons, isEmpty_cons, Bool.false_eq_true, if_false]
              simp only [length_cons] at hfuel ⊢
              omega
          have hnext := @ih page _ hmeasure (by
            intro hempty
            simp only [List.isEmpty_iff] at hempty ⊢
            rw [hempty, List.length_nil, List.drop_zero]
            cases hun : s.unread with
            | nil => rfl
            | cons y ys =>
              obtain ⟨c, rfl⟩ : ∃ c, chunk = c + 1 := ⟨chunk - 1, by omega⟩
              rw [hun, take_succ_cons] at hempty
              cases hempty)
          have hjoin : s.buf ++ s.unread.take chunk ++ s.unread.drop (s.unread.take chunk).length =
              s.buf ++ s.unread := by
            rw [append_assoc, length_take]
            by_cases hle : chunk ≤ s.unread.length
            · rw [Nat.min_eq_left hle, take_append_drop]
            · rw [Nat.min_eq_right (by omega), drop_length, append_nil,
                take_of_length_le (by omega)]
          simp only [hend, Bool.false_eq_true, if_false] at hnext ⊢
          rw [hjoin] at hnext
          exact hnext
    · simp only [fill, hpage, if_false]
      exact ⟨trivial, heof, fun h => absurd h (by simp)⟩

end Stream

end Decoder

end Skaidb.Base
