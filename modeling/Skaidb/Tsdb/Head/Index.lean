import Skaidb.Tsdb.Head.Entries

namespace Skaidb.Tsdb

open Skaidb.Base List Option SeriesEntry

variable {e' : SeriesEntry} {h' : Head}

namespace Head

-- What every head is like: the map finds exactly the live series, and a posting lists
-- exactly the live series that carry the label pair.
structure Sound (h : Head) : Prop where
  entries : ∀ {id e}, h.entry id = some e → e.Sound
  indexed : ∀ labels id, h.map.get? labels = some id ↔ ∃ e, h.entry id = some e ∧ e.labels = labels
  posted : ∀ label id, id ∈ h.posting label ↔ ∃ e, h.entry id = some e ∧ label ∈ e.labels

theorem sound_new : new.Sound :=
  ⟨by simp [new, entry], by simp [new, entry], by simp [new, entry, posting]⟩

variable {h : Head} {id : Nat} {e : SeriesEntry} {labels : Labels}

theorem entry_eq_some_iff : h.entry id = some e ↔ h.entries[id]? = some (some e) := by
  rw [entry, join_eq_some_iff]

theorem lt_of_entry (he : h.entry id = some e) : id < h.entries.length :=
  (List.getElem?_eq_some_iff.mp (entry_eq_some_iff.mp he)).1

theorem Sound.id_unique (hs : h.Sound) (he : h.entry id = some e) (he' : h.entry id' = some e')
    (heq : e.labels = e'.labels) : id = id' := by
  have hid := (hs.indexed e.labels id).mpr ⟨e, he, rfl⟩
  have hid' := (hs.indexed e.labels id').mpr ⟨e', he', heq.symm⟩
  exact some.inj (hid.symm.trans hid')

section Create

theorem entry_create {h : Head} : (h.create labels).entry id =
      if id = h.entries.length then some (.fresh labels) else h.entry id := by
  simp only [entry, create, getElem?_append, getElem?_singleton]
  split_ifs with hlt heq hsub heq
  · omega
  · rfl
  · rfl
  · omega
  · omega
  · rw [getElem?_eq_none (not_lt.mp hlt)]

theorem mem_posting_create {h : Head} : id ∈ (h.create labels).posting label ↔
      id ∈ h.posting label ∨ (label ∈ labels ∧ id = h.entries.length) := by
  have hfold := OrdMap.get?_foldl_extend (labels.map (fun l => (l, [h.entries.length]))) h.postings label
  rw [List.foldl_map] at hfold
  rw [posting, create, hfold, List.map_map]
  have hkeys : label ∈ labels.map (Prod.fst ∘ fun l => (l, [h.entries.length])) ↔ label ∈ labels := by simp
  split_ifs with hmem
  · simp [OrdMap.under, posting, hkeys.mp hmem]
  · simp [posting, hkeys.not.mp hmem]

theorem Sound.create (hs : h.Sound) (hnew : h.map.get? labels = none) : (h.create labels).Sound := by
  have hbelow : ∀ {id e}, h.entry id = some e → id ≠ h.entries.length :=
    fun he => (lt_of_entry he).ne
  refine ⟨fun {id e} he => ?_, fun other id => ?_, fun label id => ?_⟩
  · rw [entry_create] at he
    split_ifs at he
    · exact some.inj he ▸ sound_fresh
    · exact hs.entries he
  · simp only [entry_create]
    rw [show (h.create labels).map = h.map.insert labels h.entries.length from rfl, OrdMap.get?_insert]
    split_ifs with hother hid hid
    · simp [hid, hother, fresh]
    · refine ⟨fun heq => absurd (some.inj heq).symm hid, ?_⟩
      rintro ⟨e, he, hlabels⟩
      have hget := (hs.indexed other id).mpr ⟨e, he, hlabels⟩
      rw [hother, hnew] at hget
      cases hget
    · constructor
      · intro hget
        obtain ⟨e, he, -⟩ := (hs.indexed other id).mp hget
        exact absurd hid (hbelow he)
      · rintro ⟨e, he, hlabels⟩
        obtain rfl := some.inj he
        exact absurd hlabels.symm hother
    · exact hs.indexed other id
  · rw [mem_posting_create, hs.posted, entry_create]
    split_ifs with hid
    · constructor
      · rintro (⟨e, he, -⟩ | ⟨hlabel, -⟩)
        · exact absurd hid (hbelow he)
        · exact ⟨_, rfl, hlabel⟩
      · rintro ⟨e, he, hlabel⟩
        obtain rfl := some.inj he
        exact .inr ⟨hlabel, hid⟩
    · simp [hid]

theorem getOrCreate_cases (hget : h.getOrCreate labels maxSeries = .ok (h', id, created)) :
    (h.map.get? labels = some id ∧ h' = h ∧ created = false) ∨
      (h.map.get? labels = none ∧ id = h.entries.length ∧ h' = h.create labels ∧ created = true) := by
  unfold getOrCreate at hget
  split at hget
  case h_1 id' hfound =>
    cases hget
    exact .inl ⟨hfound, rfl, rfl⟩
  case h_2 hnone =>
    right
    split at hget
    case h_1 =>
      cases hget
      exact ⟨hnone, rfl, rfl, rfl⟩
    case h_2 limit =>
      split_ifs at hget
      cases hget
      exact ⟨hnone, rfl, rfl, rfl⟩

theorem entry_getOrCreate (hget : h.getOrCreate labels maxSeries = .ok (h', id, created))
    (he : h.entry i = some e) : h'.entry i = some e := by
  obtain ⟨-, rfl, -⟩ | ⟨-, -, rfl, -⟩ := getOrCreate_cases hget
  · exact he
  · rw [entry_create, if_neg (lt_of_entry he).ne]
    exact he

theorem Sound.getOrCreate (hs : h.Sound) (hget : h.getOrCreate labels maxSeries = .ok (h', id, created)) :
    h'.Sound ∧ ∃ e, h'.entry id = some e ∧ e.labels = labels := by
  obtain ⟨hfound, rfl, -⟩ | ⟨hnew, rfl, rfl, -⟩ := getOrCreate_cases hget
  · exact ⟨hs, (hs.indexed labels id).mp hfound⟩
  · exact ⟨hs.create hnew, .fresh labels, by rw [entry_create, if_pos rfl], rfl⟩

end Create

section Append

variable {h' : Head} {s : Sample} {span oooWindow : Int64}

theorem append_eq_ok (happend : h.append id s span oooWindow = .ok h') :
    ∃ e e', h.entry id = some e ∧ e.append s span oooWindow = .ok e' ∧
      h' = { h with
        entries := h.entries.set id (some e')
        maxTs := if e.lastTs < s.ts ∧ h.maxTs < s.ts then s.ts else h.maxTs } := by
  unfold append at happend
  split at happend
  case h_1 => cases happend
  case h_2 e he =>
    obtain ⟨e', he', happend⟩ := bind_eq_ok_iff.mp happend
    exact ⟨e, e', he, he', (Except.ok.inj happend).symm⟩

theorem entry_append (happend : h.append id s span oooWindow = .ok h') :
    ∃ e e', h.entry id = some e ∧ e.append s span oooWindow = .ok e' ∧
      ∀ id', h'.entry id' = if id' = id then some e' else h.entry id' := by
  obtain ⟨e, e', he, he', rfl⟩ := append_eq_ok happend
  refine ⟨e, e', he, he', fun id' => ?_⟩
  simp only [entry, getElem?_set]
  by_cases heq : id' = id
  · subst heq
    rw [if_pos rfl, if_pos rfl, if_pos (lt_of_entry he)]
    rfl
  · rw [if_neg (Ne.symm heq), if_neg heq]

theorem Sound.append (hs : h.Sound) (happend : h.append id s span oooWindow = .ok h') : h'.Sound := by
  obtain ⟨e, e', he, he', hentry⟩ := entry_append happend
  have hindex : h'.map = h.map ∧ h'.postings = h.postings := by
    obtain ⟨e, e', -, -, rfl⟩ := append_eq_ok happend
    exact ⟨rfl, rfl⟩
  have hsame : ∀ id' (p : Labels → Prop),
      (∃ x, h.entry id' = some x ∧ p x.labels) ↔
        ∃ x, (if id' = id then some e' else h.entry id') = some x ∧ p x.labels := by
    intro id' p
    split_ifs with heq
    · subst heq
      simp [he, append_labels he']
    · rfl
  refine ⟨fun {id' x} hx => ?_, fun labels id' => ?_, fun label id' => ?_⟩
  · rw [hentry] at hx
    split_ifs at hx
    · exact some.inj hx ▸ (hs.entries he).append he'
    · exact hs.entries hx
  · rw [hindex.1, hentry, ← hsame id' (· = labels)]
    exact hs.indexed labels id'
  · rw [posting, hindex.2, hentry, ← hsame id' (label ∈ ·)]
    exact hs.posted label id'

end Append

end Head

section Take

variable {boundary span : Int64}

def SeriesEntry.kept (e : SeriesEntry) (boundary : Int64) : Option SeriesEntry :=
  let e' := (e.sealBefore boundary).keepFrom boundary
  if e'.idle then none else some e'

def SeriesEntry.flushed (e : SeriesEntry) (boundary span : Int64) : Option (Labels × List SealedChunk) :=
  match e.takeBefore boundary span with
  | .ok (chunks, _) => if chunks = [] then none else some (e.labels, chunks)
  | .error _ => none

variable {e : SeriesEntry}

theorem SeriesEntry.kept_eq_some_iff :
    e.kept boundary = some e' ↔ (e.sealBefore boundary).keepFrom boundary = e' ∧ e'.idle = false := by
  unfold kept
  simp only
  split_ifs with hidle
  · simp only [false_iff, not_and]
    rintro rfl
    simp [hidle]
  · simp only [some.injEq]
    exact ⟨fun heq => ⟨heq, heq ▸ by simpa using hidle⟩, And.left⟩

theorem SeriesEntry.kept_labels (h : e.kept boundary = some e') : e'.labels = e.labels := by
  obtain ⟨rfl, -⟩ := kept_eq_some_iff.mp h
  exact (sealBefore_spec e boundary).1

theorem SeriesEntry.Sound.kept (he : e.Sound) (h : e.kept boundary = some e') : e'.Sound := by
  obtain ⟨flushed, rest, htake⟩ := e.takeBefore_ok boundary 1
  obtain ⟨rfl, -, -⟩ := takeBefore_eq htake
  exact (kept_eq_some_iff.mp h).1 ▸ (he.takeBefore htake).1

namespace Head

private theorem exists_slot_cons {slot : Option SeriesEntry} {rest : List (Option SeriesEntry)} {id : Nat}
    {p : SeriesEntry → Nat → Prop} : (∃ i e, (slot :: rest)[i]? = some (some e) ∧ p e (id + i)) ↔
      (∃ e, slot = some e ∧ p e id) ∨ ∃ i e, rest[i]? = some (some e) ∧ p e (id + 1 + i) := by
  rw [← Nat.or_exists_add_one]
  refine or_congr (by simp) (exists_congr fun i => ?_)
  rw [getElem?_cons_succ, Nat.add_assoc, Nat.add_comm 1 i]

theorem takeEntries_spec {id : Nat} {entries entries' : List (Option SeriesEntry)}
    {gone : List (Nat × Labels)} (ht : takeEntries boundary span id entries = .ok (out, entries', gone)) :
    entries' = entries.map (fun e => e.bind (·.kept boundary)) ∧
      out = entries.filterMap (fun e => e.bind (·.flushed boundary span)) ∧ ∀ g, g ∈ gone ↔
        ∃ i e, entries[i]? = some (some e) ∧ e.kept boundary = none ∧ g = (id + i, e.labels) := by
  induction entries generalizing id entries' out gone with
  | nil =>
    cases ht
    simp
  | cons slot rest ih =>
    cases slot with
    | none =>
      rw [takeEntries] at ht
      obtain ⟨⟨out', rest', gone'⟩, hrest, ht⟩ := bind_eq_ok_iff.mp ht
      cases ht
      obtain ⟨rfl, rfl, hgone⟩ := ih hrest
      refine ⟨rfl, rfl, fun g => ?_⟩
      rw [hgone]
      refine Iff.trans ?_ (exists_slot_cons (p := fun e i => e.kept boundary = none ∧ g = (i, e.labels))).symm
      simp
    | some e =>
      rw [takeEntries] at ht
      obtain ⟨⟨flushed, e'⟩, htake, ht⟩ := bind_eq_ok_iff.mp ht
      obtain ⟨⟨out', rest', gone'⟩, hrest, ht⟩ := bind_eq_ok_iff.mp ht
      obtain ⟨rfl, rfl, hgone⟩ := ih hrest
      obtain ⟨rfl, -, -⟩ := takeBefore_eq htake
      have hflushed : e.flushed boundary span = if flushed = [] then none else some (e.labels, flushed) := by
        rw [SeriesEntry.flushed, htake]
      have hout : ∀ more : FlushedSeries,
          more = rest.filterMap (fun e => e.bind (·.flushed boundary span)) →
            (if flushed = [] then more else (e.labels, flushed) :: more) =
              (some e :: rest).filterMap (fun e => e.bind (·.flushed boundary span)) := by
        rintro more rfl
        rw [filterMap_cons, bind_some, hflushed]
        split_ifs <;> rfl
      simp only [hout _ rfl] at ht
      split_ifs at ht with hidle
      · have hkept : e.kept boundary = none := if_pos hidle
        cases ht
        refine ⟨by simp [hkept], rfl, fun g => ?_⟩
        rw [mem_cons, hgone]
        refine Iff.trans ?_ (exists_slot_cons (p := fun e i => e.kept boundary = none ∧ g = (i, e.labels))).symm
        simp [hkept]
      · have hkept : e.kept boundary = some _ := if_neg hidle
        cases ht
        refine ⟨by simp [hkept], rfl, fun g => ?_⟩
        rw [hgone]
        refine Iff.trans ?_ (exists_slot_cons (p := fun e i => e.kept boundary = none ∧ g = (i, e.labels))).symm
        simp [hkept]

variable {h : Head}

theorem takeBefore_eq_ok (ht : h.takeBefore boundary span = .ok (out, h')) : ∃ gone : List (Nat × Labels),
      (∀ g, g ∈ gone ↔ ∃ e, h.entry g.1 = some e ∧ e.kept boundary = none ∧ g.2 = e.labels) ∧
      out = h.entries.filterMap (fun e => e.bind (·.flushed boundary span)) ∧
      h' = { h with
        map := gone.foldl (fun m g => m.erase g.2) h.map
        entries := h.entries.map (fun e => e.bind (·.kept boundary))
        live := h.live - gone.length
        postings := gone.foldl (fun p g => unpost p g.1 g.2) h.postings } := by
  obtain ⟨⟨out', entries', gone⟩, hentries, ht⟩ := bind_eq_ok_iff.mp ht
  cases ht
  obtain ⟨rfl, rfl, hgone⟩ := takeEntries_spec hentries
  refine ⟨gone, fun g => ?_, rfl, rfl⟩
  rw [hgone]
  simp only [Nat.zero_add, entry_eq_some_iff, Prod.ext_iff]
  constructor
  · rintro ⟨i, e, hi, hkept, rfl, hlabels⟩
    exact ⟨e, hi, hkept, hlabels⟩
  · rintro ⟨e, hi, hkept, hlabels⟩
    exact ⟨g.1, e, hi, hkept, rfl, hlabels⟩

theorem takeBefore_ok (h : Head) (boundary span : Int64) :
    ∃ out h', h.takeBefore boundary span = .ok (out, h') := by
  have hentries : ∀ entries id,
      ∃ r, takeEntries boundary span id entries = .ok r := by
    intro entries
    induction entries with
    | nil => exact fun id => ⟨_, rfl⟩
    | cons slot rest ih =>
      intro id
      obtain ⟨⟨out, entries, gone⟩, hrest⟩ := ih (id + 1)
      cases slot with
      | none => exact ⟨_, by rw [takeEntries, hrest]; rfl⟩
      | some e =>
        obtain ⟨flushed, e', htake⟩ := e.takeBefore_ok boundary span
        rw [takeEntries, htake, hrest]
        by_cases hidle : e'.idle = true
        · exact ⟨_, if_pos hidle⟩
        · exact ⟨_, if_neg hidle⟩
  obtain ⟨⟨out, entries, gone⟩, hr⟩ := hentries h.entries 0
  exact ⟨_, _, by rw [takeBefore, hr]; rfl⟩

theorem entry_takeBefore (ht : h.takeBefore boundary span = .ok (out, h'))
    (id : Nat) : h'.entry id = (h.entry id).bind (·.kept boundary) := by
  obtain ⟨gone, -, -, rfl⟩ := takeBefore_eq_ok ht
  simp only [entry, getElem?_map]
  cases h.entries[id]? with
  | none | some slot => rfl

section Unposting

theorem mem_unpost (p : Postings) (id : Nat) (labels : Labels) (label : Label) (i : Nat) :
    i ∈ ((unpost p id labels).get? label).getD [] ↔
      i ∈ (p.get? label).getD [] ∧ ¬(i = id ∧ label ∈ labels) := by
  induction labels generalizing p with
  | nil => simp [unpost]
  | cons l labels ih =>
    have hstep : unpost p id (l :: labels) = unpost (unpost p id [l]) id labels := rfl
    have hone : i ∈ ((unpost p id [l]).get? label).getD [] ↔
        i ∈ (p.get? label).getD [] ∧ ¬(i = id ∧ label = l) := by
      simp only [unpost, foldl_cons, foldl_nil]
      cases hl : p.get? l with
      | none =>
        by_cases heq : label = l
        · simp [heq, hl]
        · simp [heq]
      | some ids =>
        by_cases heq : label = l
        · simp [heq, hl]
        · simp [heq]
    rw [hstep, ih, hone, mem_cons]
    tauto

theorem mem_unpostAll {gone : List (Nat × Labels)} {p : Postings} :
    i ∈ ((gone.foldl (fun p g => unpost p g.1 g.2) p).get? label).getD [] ↔
      i ∈ (p.get? label).getD [] ∧ ∀ g ∈ gone, ¬(i = g.1 ∧ label ∈ g.2) := by
  induction gone generalizing p with
  | nil => simp
  | cons g gone ih => rw [foldl_cons, ih, mem_unpost, forall_mem_cons, and_assoc]

theorem get?_eraseAll (gone : List (Nat × Labels)) (m : OrdMap Labels Nat) (labels : Labels) (id : Nat) :
    (gone.foldl (fun m g => m.erase g.2) m).get? labels = some id ↔
      m.get? labels = some id ∧ ∀ g ∈ gone, labels ≠ g.2 := by
  induction gone generalizing m with
  | nil => simp
  | cons g gone ih =>
    rw [foldl_cons, ih, OrdMap.get?_erase, forall_mem_cons]
    split_ifs with heq
    · simp [heq]
    · simp [heq]

end Unposting

theorem Sound.takeBefore (hs : h.Sound) (ht : h.takeBefore boundary span = .ok (out, h')) : h'.Sound := by
  have hentry := entry_takeBefore ht
  obtain ⟨gone, hgone, -, hh'⟩ := takeBefore_eq_ok ht
  have hlive : ∀ id (p : Labels → Prop),
      (∃ e', h'.entry id = some e' ∧ p e'.labels) ↔
        ∃ e, h.entry id = some e ∧ p e.labels ∧ (id, e.labels) ∉ gone := by
    intro id p
    rw [hentry]
    constructor
    · rintro ⟨e', he', hp⟩
      obtain ⟨e, he, hkept⟩ := bind_eq_some_iff.mp he'
      refine ⟨e, he, kept_labels hkept ▸ hp, fun hmem => ?_⟩
      obtain ⟨x, hx, hnone, -⟩ := (hgone _).mp hmem
      obtain rfl : e = x := some.inj (he.symm.trans hx)
      rw [hnone] at hkept
      cases hkept
    · rintro ⟨e, he, hp, hmem⟩
      cases hkept : e.kept boundary with
      | none => exact absurd ((hgone (id, e.labels)).mpr ⟨e, he, hkept, rfl⟩) hmem
      | some e' => exact ⟨e', by rw [he]; exact hkept, (kept_labels hkept).symm ▸ hp⟩
  refine ⟨fun {id e'} he' => ?_, fun labels id => ?_, fun label id => ?_⟩
  · rw [hentry] at he'
    obtain ⟨e, he, hkept⟩ := bind_eq_some_iff.mp he'
    exact (hs.entries he).kept hkept
  · rw [hlive id (· = labels)]
    rw [hh', get?_eraseAll, hs.indexed]
    constructor
    · rintro ⟨⟨e, he, rfl⟩, hnot⟩
      exact ⟨e, he, rfl, fun hmem => hnot _ hmem rfl⟩
    · rintro ⟨e, he, rfl, hmem⟩
      refine ⟨⟨e, he, rfl⟩, ?_⟩
      rintro ⟨id', labels'⟩ hg rfl
      obtain ⟨x, hx, -, hlabels⟩ := (hgone _).mp hg
      obtain rfl : id = id' := hs.id_unique he hx hlabels
      exact hmem hg
  · rw [hlive id (label ∈ ·), posting, hh', mem_unpostAll]
    change id ∈ h.posting label ∧ _ ↔ _
    rw [hs.posted]
    constructor
    · rintro ⟨⟨e, he, hlabel⟩, hnot⟩
      exact ⟨e, he, hlabel, fun hmem => hnot _ hmem ⟨rfl, hlabel⟩⟩
    · rintro ⟨e, he, hlabel, hmem⟩
      refine ⟨⟨e, he, hlabel⟩, ?_⟩
      rintro ⟨id', labels'⟩ hg ⟨rfl, -⟩
      obtain ⟨x, hx, -, hlabels⟩ := (hgone _).mp hg
      obtain rfl : e = x := some.inj (he.symm.trans hx)
      exact hmem (hlabels ▸ hg)

end Head

end Take

end Skaidb.Tsdb
