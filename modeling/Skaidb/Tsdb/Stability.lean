import Skaidb.Tsdb.Attribution

namespace Skaidb.Tsdb

open Skaidb.Base List OrdMap Option Block

variable {b n : Block} {x : Sample}

section Holders

-- The last block, in the order of the list, that holds a sample of the series at the time.
def LastHolder (blocks : List Block) (labels : Labels) (ts : Int64) : Block → Prop :=
  Tops blockOrder (fun b => held b.pieces labels ts) blocks

variable {blocks : List Block} {labels : Labels} {b : Block}

theorem held_of_lastHolder (hseqs : (blocks.map seq).Nodup)
    (hsorted : blocks.Pairwise (fun a b => blockOrder a ≤ blockOrder b)) (h : LastHolder blocks labels ts b) :
    held (blocks.flatMap pieces) labels ts = held b.pieces labels ts := by
  obtain ⟨pre, post, rfl⟩ := append_of_mem h.mem
  have hbehind : held (post.flatMap pieces) labels ts = none := by
    refine held_flatMap_eq_none_iff.mpr fun c hc => ?_
    by_contra hsome
    have hle := h.le c (mem_append_right _ (mem_cons_of_mem _ hc)) hsome
    have hge := (pairwise_cons.mp (pairwise_append.mp hsorted).2.1).1 c hc
    have hseq : b.seq = c.seq := (Prod.mk.inj (toLex.injective (le_antisymm hge hle))).2
    rw [map_append, map_cons, nodup_append] at hseqs
    exact (nodup_cons.mp hseqs.2.1).1 (mem_map.mpr ⟨c, hc, hseq.symm⟩)
  obtain ⟨x, hx⟩ := ne_none_iff_exists'.mp h.valued
  rw [flatMap_append, flatMap_cons, held_append, held_append, hbehind, none_or, hx, some_or]

theorem held_sortBlocks (hseqs : (blocks.map seq).Nodup) (h : LastHolder blocks labels ts b) :
    held ((sortBlocks blocks).flatMap pieces) labels ts = held b.pieces labels ts :=
  held_of_lastHolder ((sortByKey_perm.map seq).nodup_iff.mpr hseqs) sortByKey_sorted
    (h.of_mem_iff fun _ => mem_sortByKey)

theorem exists_lastHolder (h : held (blocks.flatMap pieces) labels ts ≠ none) :
    ∃ b, LastHolder blocks labels ts b := by
  refine exists_tops blockOrder ?_
  by_contra hnone
  push Not at hnone
  exact h (held_flatMap_eq_none_iff.mpr hnone)

theorem blockOrder_le_iff (hseq : b.seq < n.seq) : blockOrder b ≤ blockOrder n ↔ b.minTs ≤ n.minTs := by
  rw [blockOrder, blockOrder, Prod.Lex.le_iff]
  constructor
  · rintro (hlt | ⟨heq, -⟩)
    · exact hlt.le
    · exact heq.le
  · intro hle
    obtain hlt | heq := hle.lt_or_eq
    · exact .inl hlt
    · exact .inr ⟨heq, hseq.le⟩

-- Only the blocks that hold a sample of the series at the time matter, and not how they are
-- listed before they are sorted.
theorem held_sortBlocks_congr {blocks' : List Block} (hseqs : (blocks.map seq).Nodup)
    (hseqs' : (blocks'.map seq).Nodup)
    (hmem : ∀ b, held b.pieces labels ts ≠ none → (b ∈ blocks' ↔ b ∈ blocks)) :
    held ((sortBlocks blocks').flatMap pieces) labels ts =
      held ((sortBlocks blocks).flatMap pieces) labels ts := by
  by_cases hsome : ∃ b ∈ blocks, held b.pieces labels ts ≠ none
  · obtain ⟨b, hb⟩ := exists_tops blockOrder hsome
    have hb' : LastHolder blocks' labels ts b :=
      ⟨(hmem b hb.valued).mpr hb.mem, hb.valued, fun a ha hval => hb.le a ((hmem a hval).mp ha) hval⟩
    rw [held_sortBlocks hseqs hb, held_sortBlocks hseqs' hb']
  · push Not at hsome
    have hnone : held ((sortBlocks blocks).flatMap pieces) labels ts = none :=
      held_flatMap_eq_none_iff.mpr fun b hb => hsome b (mem_sortByKey.mp hb)
    rw [hnone]
    refine held_flatMap_eq_none_iff.mpr fun b hb => ?_
    by_contra hval
    exact hval (hsome b ((hmem b hval).mp (mem_sortByKey.mp hb)))

-- What counts once a block with the sample `x` has joined others: the last of them that has
-- a sample goes before it if the new block begins first.
structure Joins (blocks joined : List Block) (labels : Labels) (ts : Int64) (x : Sample)
    (begins : Int64 → Prop) : Prop where
  before : ∀ b, LastHolder blocks labels ts b → begins b.minTs →
    held (joined.flatMap Block.pieces) labels ts = held b.pieces labels ts
  later : ∀ b, LastHolder blocks labels ts b → ¬begins b.minTs →
    held (joined.flatMap Block.pieces) labels ts = some x
  alone : (∀ b ∈ blocks, held b.pieces labels ts = none) → held (joined.flatMap Block.pieces) labels ts = some x

theorem held_joined {new : List Block} (hseqs : ((blocks ++ new).map seq).Nodup) (hn : n ∈ new)
    (hx : held n.pieces labels ts = some x) (honly : ∀ c ∈ new, held c.pieces labels ts ≠ none → c = n)
    (hnewer : ∀ b ∈ blocks, b.seq < n.seq) :
    Joins blocks (sortBlocks (blocks ++ new)) labels ts x (n.minTs < ·) := by
  have hlast : (∀ c ∈ blocks, held c.pieces labels ts ≠ none → blockOrder c ≤ blockOrder n) →
      held ((sortBlocks (blocks ++ new)).flatMap pieces) labels ts = some x := by
    intro hle
    have hholder : LastHolder (blocks ++ new) labels ts n := by
      refine ⟨mem_append_right _ hn, by simp [hx], fun c hc hsome => ?_⟩
      obtain hc | hc := mem_append.mp hc
      · exact hle c hc hsome
      · exact (congrArg blockOrder (honly c hc hsome)).le
    rw [held_sortBlocks hseqs hholder, hx]
  refine ⟨fun b hb hlt => ?_, fun b hb hge => ?_, fun hnone => ?_⟩
  · refine held_sortBlocks hseqs (hb.append fun c hc hsome => ?_)
    rw [honly c hc hsome]
    exact le_of_lt (Prod.Lex.lt_iff.mpr (.inl hlt))
  · exact hlast fun c hc hsome =>
      (hb.le c hc hsome).trans ((blockOrder_le_iff (hnewer b hb.mem)).mpr (not_lt.mp hge))
  · exact hlast fun c hc hsome => absurd (hnone c hc) hsome

theorem Block.Sound.minTs_lt_iff (hb : b.Sound) :
    b.minTs < t ↔ ∃ labels, ∃ x ∈ under b.pieces labels, x.ts < t := by
  constructor
  · intro hlt
    obtain ⟨s, hs, c, hc, hmin⟩ := hb.exists_minTs
    obtain ⟨x, hx, hts⟩ := (hb.chunks s hs c hc).exists_minTs
    exact ⟨s.1, x, mem_under_seriesPieces.mpr ⟨s, hs, rfl, c, hc, hx⟩, by rw [hts, hmin]; exact hlt⟩
  · rintro ⟨labels, x, hx, hlt⟩
    obtain ⟨s, hs, -, c, hc, hx⟩ := mem_under_seriesPieces.mp hx
    exact ((hb.minTs_le s hs c hc).trans ((hb.chunks s hs c hc).minTs_le hx)).trans_lt hlt

end Holders

section Rounds

-- The block that takes what the inputs hold at `ts` begins before `t`.
def Compaction.Begins (c : Compaction) (ts t : Int64) : Prop :=
  ∃ labels, ∃ x ∈ OrdMap.under (c.inputs.flatMap Block.pieces) labels, c.together x.ts ts = true ∧ x.ts < t

variable {c : Compaction}

theorem minTs_lt_iff_begins (h : Replaces c written) (hn : n ∈ written) {labels : Labels}
    (hsome : held n.pieces labels ts ≠ none) (t : Int64) : n.minTs < t ↔ c.Begins ts t := by
  rw [(h.sound n hn).minTs_lt_iff]
  have htogether := h.together n hn labels ts hsome
  constructor
  · rintro ⟨l, x, hx, hlt⟩
    obtain ⟨y, hy⟩ := exists_lastHeld Sample.ts hx
    have hin := htogether l x.ts
    rw [held, hy] at hin
    split_ifs at hin with hsame
    obtain ⟨hmem, hts⟩ := mem_of_lastHeld hin.symm
    exact ⟨l, y, hmem, hts ▸ hsame, hts ▸ hlt⟩
  · rintro ⟨l, x, hx, hsame, hlt⟩
    obtain ⟨y, hy⟩ := exists_lastHeld Sample.ts hx
    have hin := htogether l x.ts
    rw [if_pos hsame, show held (c.inputs.flatMap pieces) l x.ts = some y from hy] at hin
    obtain ⟨hmem, hts⟩ := mem_of_lastHeld hin
    exact ⟨l, y, hmem, hts ▸ hlt⟩

theorem held_written (h : Replaces c written) (hn : n ∈ written) {labels : Labels}
    (hx : held n.pieces labels ts = some x) : held (c.inputs.flatMap pieces) labels ts = some x := by
  rw [← h.held]
  refine held_flatMap_eq_some (fun b hb => ?_) ⟨n, hn, hx⟩
  by_cases hsome : held b.pieces labels ts = none
  · exact .inl hsome
  · exact .inr (h.once b hb n hn labels ts hsome (by simp [hx]) ▸ hx)

theorem exists_replacement (h : Replaces c written) {labels : Labels}
    (hx : held (c.inputs.flatMap pieces) labels ts = some x) :
    ∃ n ∈ written, held n.pieces labels ts = some x := by
  have hwritten := (h.held labels ts).trans hx
  obtain ⟨n, hn⟩ := exists_lastHolder (show held (written.flatMap pieces) labels ts ≠ none by simp [hwritten])
  obtain ⟨y, hy⟩ := ne_none_iff_exists'.mp hn.valued
  exact ⟨n, hn.mem, by rw [hy, ← held_written h hn.mem hy, hx]⟩

end Rounds

namespace Store

variable {s : Store}

def except (s : Store) (gone : List Block) : List Block :=
  s.blocks.filter (fun b => b.seq ∉ gone.map Block.seq)

theorem Sound.query_eq_iff_held {s' : Store} (hs : s.Sound) (hs' : s'.Sound) (hhead : s'.head = s.head) :
    (∀ matchers t0 t1, s'.query matchers t0 t1 = s.query matchers t0 t1) ↔
      ∀ labels ts, held s.head.pieces labels ts = none →
        held (s'.blocks.flatMap Block.pieces) labels ts = held (s.blocks.flatMap Block.pieces) labels ts := by
  rw [hs.query_eq_iff hs']
  refine forall_congr' fun labels => forall_congr' fun ts => ?_
  rw [pieces, pieces, held_append, held_append, hhead]
  cases held s.head.pieces labels ts with
  | none | some x => simp

section Rounds

variable {s' : Store} {c : Compaction} {rest written left : List Block} {labels : Labels}

-- When a round, or what has come of it while `left` are still there, hides no sample and
-- brings none back: where the inputs hold a sample, the last of the blocks left that has one
-- for the same series and time has what counts now if the new block begins before it, and
-- the inputs have it otherwise.
def CompactKeeps (s : Store) (c : Compaction) (left : List Block) : Prop :=
  ∀ labels ts x, held s.head.pieces labels ts = none →
    held (c.inputs.flatMap Block.pieces) labels ts = some x → ∀ b, LastHolder left labels ts b →
      (c.Begins ts b.minTs → held b.pieces labels ts = held (s.blocks.flatMap Block.pieces) labels ts) ∧
      (¬c.Begins ts b.minTs → held (s.blocks.flatMap Block.pieces) labels ts = some x)

theorem Filed.sortBlocks_eq (hf : s.Filed) : sortBlocks s.blocks = s.blocks := hf.sorted.insertionSort_eq

theorem Filed.held_blocks (hf : s.Filed) (hb : LastHolder s.blocks labels ts b) :
    held (s.blocks.flatMap Block.pieces) labels ts = held b.pieces labels ts :=
  held_of_lastHolder hf.seqs hf.sorted hb

theorem except_nil (s : Store) : s.except [] = s.blocks := by simp [except]

def listing (s : Store) (f : Files) : Store := { s with blocks := sortBlocks f.blocks }

theorem mem_except {gone : List Block} : b ∈ s.except gone ↔ b ∈ s.blocks ∧ b.seq ∉ gone.map seq := by
  rw [except, mem_filter, decide_eq_true_eq]

section

variable (hr : Round s c rest written s') (hf : s.Filed)

include hr hf

theorem nodup_joined {new : List Block}
    (hleft : left.Sublist s.blocks) (hnew : new.Sublist written) : ((left ++ new).map seq).Nodup := by
  have hall : ((s.blocks ++ written).map seq).Nodup :=
    hf.nodup_append written hr.seqs
  exact hall.sublist ((hleft.append hnew).map seq)

theorem joins_written {new : List Block} (hleft : left.Sublist s.blocks)
    (hnew : new.Sublist written) (hn : n ∈ new) (hx : held n.pieces labels ts = some x) :
    Joins left (sortBlocks (left ++ new)) labels ts x (c.Begins ts) := by
  have hmem := hnew.mem hn
  have hval : held n.pieces labels ts ≠ none := by simp [hx]
  have hbegins : (n.minTs < ·) = c.Begins ts :=
    funext fun t => propext (minTs_lt_iff_begins hr.replaces hmem hval t)
  rw [← hbegins]
  refine held_joined (nodup_joined hr hf hleft hnew) hn hx (fun b hb hsome => ?_) fun b hb => ?_
  · exact hr.replaces.once b (hnew.mem hb) n hmem labels ts hsome hval
  · exact (hf.below b (hleft.mem hb)).trans_le (hr.fresh hmem).1

theorem held_beside (hleft : left.Sublist s.blocks)
    (hrest : ∀ b ∈ rest, b ∈ left) (hnone : held (c.inputs.flatMap Block.pieces) labels ts = none) :
    held ((sortBlocks (left ++ written)).flatMap Block.pieces) labels ts =
      held (s.blocks.flatMap Block.pieces) labels ts := by
  have hwritten : ∀ n ∈ written, held n.pieces labels ts = none :=
    held_flatMap_eq_none_iff.mp ((hr.replaces.held labels ts).trans hnone)
  have hinputs := held_flatMap_eq_none_iff.mp hnone
  rw [← hf.sortBlocks_eq]
  refine held_sortBlocks_congr hf.seqs (nodup_joined hr hf hleft (Sublist.refl _)) fun b hval => ?_
  rw [mem_append, ← hr.perm.mem_iff, mem_append]
  constructor
  · rintro (hb | hb)
    · exact mem_append.mp (hr.perm.mem_iff.mpr (hleft.mem hb))
    · exact absurd (hwritten b hb) hval
  · rintro (hb | hb)
    · exact .inl (hrest b hb)
    · exact absurd (hinputs b hb) hval

theorem held_alone (hrest : ∀ b ∈ rest, held b.pieces labels ts = none)
    (hx : held (c.inputs.flatMap Block.pieces) labels ts = some x) :
    held (s.blocks.flatMap Block.pieces) labels ts = some x := by
  obtain ⟨b, hb⟩ := exists_lastHolder (show held (c.inputs.flatMap Block.pieces) labels ts ≠ none by simp [hx])
  have hsorted := hf.sorted.sublist hr.inputs_sublist
  have hseqs := hf.seqs.sublist (hr.inputs_sublist.map seq)
  have hall : LastHolder s.blocks labels ts b := by
    refine ⟨hr.inputs_sublist.mem hb.mem, hb.valued, fun a ha hval => ?_⟩
    obtain ha | ha := mem_append.mp (hr.perm.mem_iff.mpr ha)
    · exact absurd (hrest a ha) hval
    · exact hb.le a ha hval
  rw [hf.held_blocks hall, ← held_of_lastHolder hseqs hsorted hb, hx]

theorem keeps_iff (hleft : left.Sublist s.blocks) (hrest : ∀ b ∈ rest, b ∈ left) :
    (∀ labels ts, held s.head.pieces labels ts = none →
      held ((sortBlocks (left ++ written)).flatMap Block.pieces) labels ts =
        held (s.blocks.flatMap Block.pieces) labels ts) ↔ s.CompactKeeps c left := by
  constructor
  · intro h labels ts x hnone hx b hb
    obtain ⟨n, hn, hval⟩ := exists_replacement hr.replaces hx
    have hjoins := joins_written hr hf hleft (Sublist.refl _) hn hval
    rw [← h labels ts hnone]
    exact ⟨fun hlt => (hjoins.before b hb hlt).symm, hjoins.later b hb⟩
  · intro h labels ts hnone
    cases hx : held (c.inputs.flatMap Block.pieces) labels ts with
    | none => exact held_beside hr hf hleft hrest hx
    | some x =>
      obtain ⟨n, hn, hval⟩ := exists_replacement hr.replaces hx
      have hjoins := joins_written hr hf hleft (Sublist.refl _) hn hval
      by_cases hsome : ∃ b ∈ left, held b.pieces labels ts ≠ none
      · obtain ⟨b, hb⟩ := exists_tops blockOrder hsome
        obtain ⟨hbefore, hlater⟩ := h labels ts x hnone hx b hb
        by_cases hlt : c.Begins ts b.minTs
        · rw [hjoins.before b hb hlt, hbefore hlt]
        · rw [hjoins.later b hb hlt, hlater hlt]
      · push Not at hsome
        rw [hjoins.alone hsome, held_alone hr hf (fun b hb => hsome b (hrest b hb)) hx]

theorem held_writing (h : s.CompactKeeps c s.blocks)
    (hnone : held s.head.pieces labels ts = none) :
    held ((sortBlocks (s.blocks ++ written.take m)).flatMap Block.pieces) labels ts =
      held (s.blocks.flatMap Block.pieces) labels ts := by
  have hall := Sublist.refl s.blocks
  by_cases hnew : ∃ n ∈ written.take m, held n.pieces labels ts ≠ none
  · obtain ⟨n, hn, hval⟩ := hnew
    obtain ⟨x, hx⟩ := ne_none_iff_exists'.mp hval
    have hinputs := held_written hr.replaces (mem_of_mem_take hn) hx
    have hjoins := joins_written hr hf hall (take_sublist m written) hn hx
    obtain ⟨g, hg⟩ := exists_lastHolder (show held (c.inputs.flatMap Block.pieces) labels ts ≠ none by simp [hinputs])
    obtain ⟨b, hb⟩ : ∃ b, LastHolder s.blocks labels ts b :=
      exists_tops blockOrder ⟨g, hr.inputs_sublist.mem hg.mem, hg.valued⟩
    by_cases hlt : c.Begins ts b.minTs
    · rw [hjoins.before b hb hlt, hf.held_blocks hb]
    · rw [hjoins.later b hb hlt, (h labels ts x hnone hinputs b hb).2 hlt]
  · push Not at hnew
    nth_rewrite 2 [← hf.sortBlocks_eq]
    refine held_sortBlocks_congr hf.seqs (nodup_joined hr hf hall (take_sublist m written)) fun b hval => ?_
    rw [mem_append]
    exact ⟨fun hb => hb.resolve_right fun hin => hval (hnew b hin), .inl⟩

theorem stage_iff {gone blocks : List Block} (hgone : ∀ b ∈ gone, b ∈ c.inputs) (hseqs : (blocks.map Block.seq).Nodup)
    (hmem : ∀ b, b ∈ blocks ↔ b ∈ s.except gone ∨ b ∈ written) :
    (∀ labels ts, held s.head.pieces labels ts = none →
      held ((sortBlocks blocks).flatMap Block.pieces) labels ts = held (s.blocks.flatMap Block.pieces) labels ts) ↔
        s.CompactKeeps c (s.except gone) := by
  have hleft : (s.except gone).Sublist s.blocks := filter_sublist
  have hrest : ∀ b ∈ rest, b ∈ s.except gone := by
    refine fun b hb => mem_except.mpr ⟨hr.rest_sublist.mem hb, fun hin => hr.rest_apart hf hb ?_⟩
    exact map_subset seq (fun g hg => hgone g hg) hin
  rw [← keeps_iff hr hf hleft hrest]
  refine forall_congr' fun labels => forall_congr' fun ts => imp_congr_right fun _ => ?_
  rw [held_sortBlocks_congr (nodup_joined hr hf hleft (Sublist.refl _)) hseqs fun b _ => by
    rw [hmem, mem_append]]

theorem Filed.incomplete (hb : (c.removal.drop j).head? = some b) :
    ∃ d ∈ (((s.files.addDirs written).withoutDirs (c.removal.take j)).breakDir b.seq).dirs, d.complete = false := by
  have hnext : b ∈ c.removal.drop j := mem_of_mem_head? hb
  have hin : b ∈ c.inputs := hr.removal.mem_iff.mp (mem_of_mem_drop hnext)
  obtain ⟨d, hd, rfl⟩ := mem_map.mp (hf.dirs.mem_iff.mpr (hr.inputs_sublist.mem hin))
  have hnodup : (c.removal.map seq).Nodup :=
    (hr.removal.map seq).nodup_iff.mpr (hf.seqs.sublist (hr.inputs_sublist.map seq))
  have hkept : d ∈ ((s.files.addDirs written).withoutDirs (c.removal.take j)).dirs := by
    refine mem_filter.mpr ⟨mem_append_left _ hd, decide_eq_true fun htaken => ?_⟩
    rw [← List.take_append_drop j c.removal, List.map_append, List.nodup_append] at hnodup
    exact hnodup.2.2 _ htaken _ (mem_map.mpr ⟨d.block, hnext, rfl⟩) rfl
  exact ⟨_, mem_map.mpr ⟨d, hkept, rfl⟩, by rw [if_pos rfl]⟩

variable (hs : s.Sound)

include hs

theorem round_query_iff :
    (∀ matchers t0 t1, s'.query matchers t0 t1 = s.query matchers t0 t1) ↔ s.CompactKeeps c (s.except c.inputs) := by
  rw [hs.query_eq_iff_held (hr.sound hs) hr.head, hr.blocks]
  refine stage_iff hr hf (fun _ hb => hb) (nodup_joined hr hf hr.rest_sublist (Sublist.refl _)) fun b => ?_
  rw [mem_append, mem_except, ← hr.perm.mem_iff, mem_append]
  refine or_congr_left ⟨fun hb => ⟨.inl hb, fun hin => ?_⟩, fun ⟨hb, hseq⟩ => hb.resolve_right fun hin => ?_⟩
  · exact hr.rest_apart hf hb hin
  · exact hseq (mem_map.mpr ⟨b, hin, rfl⟩)

theorem listing_query_iff {f : Files} (hsub : f.blocks.Sublist (s.files.blocks ++ written)) :
    (∀ matchers t0 t1, (s.listing f).query matchers t0 t1 = s.query matchers t0 t1) ↔
      ∀ labels ts, held s.head.pieces labels ts = none →
        held ((sortBlocks f.blocks).flatMap Block.pieces) labels ts =
          held (s.blocks.flatMap Block.pieces) labels ts := by
  refine hs.query_eq_iff_held ⟨hs.head, fun b hb => ?_⟩ rfl
  obtain hb | hb := mem_append.mp (hsub.mem (mem_sortByKey.mp hb))
  · exact hs.blocks b (hf.dirs.mem_iff.mp hb)
  · exact hr.replaces.sound b hb

theorem removing_query_iff :
    (∀ matchers t0 t1, (s.listing ((s.files.addDirs written).withoutDirs (c.removal.take j))).query matchers t0 t1 =
      s.query matchers t0 t1) ↔ s.CompactKeeps c (s.except (c.removal.take j)) := by
  have hblocks : ((s.files.addDirs written).withoutDirs (c.removal.take j)).blocks =
      (s.files.blocks ++ written).filter (fun b => b.seq ∉ (c.removal.take j).map seq) := by
    rw [Files.blocks_withoutDirs, Files.blocks_addDirs]
  have hsub := hblocks ▸ filter_sublist
  have hgone : ∀ b ∈ c.removal.take j, b ∈ c.inputs :=
    fun b hb => hr.removal.mem_iff.mp (mem_of_mem_take hb)
  rw [listing_query_iff hr hf hs hsub]
  refine stage_iff hr hf hgone ((hr.nodup_all hf).sublist (hsub.map seq)) fun b => ?_
  rw [hblocks, mem_filter, mem_append, mem_except, decide_eq_true_eq, hf.dirs.mem_iff, or_and_right]
  refine or_congr_right ⟨And.left, fun hb => ⟨hb, fun hin => hr.not_mem_inputs hf hb ?_⟩⟩
  exact map_subset seq (fun g hg => hgone g hg) hin

theorem writing_query_eq (h : s.CompactKeeps c s.blocks) (m : Nat) (matchers : List Matcher) (t0 t1 : Int64) :
    (s.listing (s.files.addDirs (written.take m))).query matchers t0 t1 = s.query matchers t0 t1 := by
  have hblocks := Files.blocks_addDirs (written.take m) s.files
  have hsub : (s.files.addDirs (written.take m)).blocks.Sublist (s.files.blocks ++ written) :=
    hblocks ▸ (take_sublist m written).append_left _
  refine (listing_query_iff hr hf hs hsub).mpr (fun labels ts hnone => ?_) matchers t0 t1
  rw [← held_writing hr hf h hnone]
  refine held_sortBlocks_congr (nodup_joined hr hf (Sublist.refl _) (take_sublist m written))
    ((hr.nodup_all hf).sublist (hsub.map seq)) fun b _ => ?_
  rw [hblocks, mem_append, mem_append, hf.dirs.mem_iff]

-- Wherever a round is cut off, as long as every directory that is there is complete.
theorem interrupted_query_iff (hpast : s.past = []) :
    (∀ k, (∀ d ∈ (s'.filesAt k).dirs, d.complete = true) → ∀ matchers t0 t1,
      (s.listing (s'.filesAt k)).query matchers t0 t1 = s.query matchers t0 t1) ↔
        ∀ j, s.CompactKeeps c (s.except (c.removal.take j)) := by
  obtain ⟨trail, htrail, hstages, hall⟩ := hr.past
  rw [hpast, nil_append] at htrail
  constructor
  · intro h j
    refine (removing_query_iff hr hf hs).mp ?_
    have hcomplete : ∀ d ∈ ((s.files.addDirs written).withoutDirs (c.removal.take j)).dirs, d.complete = true := by
      intro d hd
      obtain hd | hd := mem_append.mp (mem_of_mem_filter hd)
      · exact hf.complete d hd
      · obtain ⟨b, -, rfl⟩ := mem_map.mp hd
        rfl
    obtain ⟨k, hk⟩ : ∃ k, s'.filesAt k = (s.files.addDirs written).withoutDirs (c.removal.take j) := by
      unfold filesAt
      rw [htrail]
      by_cases hj : j < c.removal.length
      · obtain ⟨k, hk⟩ := mem_iff_getElem?.mp (hall j hj)
        exact ⟨k, by rw [hk]; rfl⟩
      · refine ⟨trail.length, ?_⟩
        rw [getElem?_eq_none le_rfl, take_of_length_le (not_lt.mp hj), ← hr.files]
        rfl
    rw [← hk] at hcomplete ⊢
    exact h k hcomplete
  · intro h k hcomplete
    have hstage : Stage s.files c.removal written (s'.filesAt k) := by
      unfold filesAt
      rw [htrail]
      cases hk : trail[k]? with
      | none => exact .removing ⟨c.removal.length, .inl (by rw [take_length]; exact hr.files)⟩
      | some f => exact hstages f (mem_of_getElem? hk)
    generalize s'.filesAt k = f at hcomplete hstage
    cases hstage with
    | writing m =>
      have h0 := h 0
      rw [take_zero, except_nil] at h0
      exact writing_query_eq hr hf hs h0 m
    | removing hremoving =>
      obtain ⟨j, rfl | ⟨b, hb, rfl⟩⟩ := hremoving
      · exact (removing_query_iff hr hf hs).mpr (h j)
      · obtain ⟨d, hd, hbroken⟩ := hf.incomplete hr hb
        rw [hcomplete d hd] at hbroken
        cases hbroken

end

end Rounds

end Store

section Flushes

namespace SeriesEntry

def leaving (e : SeriesEntry) (boundary : Int64) : List Sample :=
  ((e.sealBefore boundary).flushable boundary).flatMap SealedChunk.data ++ (e.sealBefore boundary).due boundary

def staying (e : SeriesEntry) (boundary : Int64) : List Sample :=
  ((e.sealBefore boundary).keepFrom boundary).contents

end SeriesEntry

namespace Head

def leaving (h : Head) (boundary : Int64) : Pieces := h.perSeries (fun e => e.leaving boundary)

def staying (h : Head) (boundary : Int64) : Pieces := h.perSeries (fun e => e.staying boundary)

variable {h h' : Head} {boundary span : Int64}

theorem Sound.held_takeBefore (hs : h.Sound) (ht : h.takeBefore boundary span = .ok (out, h')) (labels : Labels)
    (ts : Int64) : held (seriesPieces out) labels ts = held (h.leaving boundary) labels ts ∧
      held h'.pieces labels ts = held (h.staying boundary) labels ts := by
  simp only [held, leaving, staying]
  by_cases hlive : ∃ id e, h.entry id = some e ∧ e.labels = labels
  · obtain ⟨id, e, he, rfl⟩ := hlive
    obtain ⟨chunks, e', htake⟩ := e.takeBefore_ok boundary span
    obtain ⟨hout, hrest⟩ := hs.under_takeBefore ht he htake
    obtain ⟨rfl, hlast, -⟩ := SeriesEntry.takeBefore_eq htake
    rw [hout, hrest, hs.under_perSeries he, hs.under_perSeries he]
    exact ⟨hlast ts, rfl⟩
  · push Not at hlive
    obtain ⟨hout, hrest⟩ := under_takeBefore_of_not_live ht hlive
    rw [hout, hrest, under_perSeries_of_not_live hlive, under_perSeries_of_not_live hlive]
    exact ⟨rfl, rfl⟩

end Head

namespace Store

variable {s : Store} {o : TsdbOptions} {labels : Labels}

def headFlush (s : Store) (o : TsdbOptions) (boundary : Int64) : Store :=
  match s.head.takeBefore boundary o.blockSpanMs with
  | .error _ => s
  | .ok (flushed, head) => (s.moveToBlock flushed head boundary).checkpoint boundary

theorem foldl_logAppend_frame (records : List Record) (s : Store) :
    (records.foldl logAppend s).head = s.head ∧ (records.foldl logAppend s).blocks = s.blocks := by
  induction records generalizing s with
  | nil => exact ⟨rfl, rfl⟩
  | cons r records ih =>
    have hr : (s.logAppend r).head = s.head ∧ (s.logAppend r).blocks = s.blocks := by
      unfold logAppend
      simp only
      split_ifs <;> exact ⟨rfl, rfl⟩
    obtain ⟨hhead, hblocks⟩ := ih (s.logAppend r)
    exact ⟨hhead.trans hr.1, hblocks.trans hr.2⟩

theorem truncateBefore_frame (s : Store) (seq : Nat) :
    (s.truncateBefore seq).head = s.head ∧ (s.truncateBefore seq).blocks = s.blocks := by
  obtain ⟨trail, heq, -⟩ := foldl_removeOldest (s.files.log.segments.takeWhile (fun g => g.seq < seq)) s
  rw [truncateBefore, heq]
  exact ⟨rfl, rfl⟩

theorem checkpoint_frame {s : Store} :
    (s.checkpoint boundary).head = s.head ∧ (s.checkpoint boundary).blocks = s.blocks := by
  obtain ⟨hhead, hblocks⟩ := foldl_logAppend_frame (checkpointRecords s.head boundary) s.logNewSegment
  unfold checkpoint
  simp only [truncateBefore_frame]
  exact ⟨hhead, hblocks⟩

-- When a flush hides no sample and brings none back: of a series and time that it takes, the
-- rest of the head has nothing else, and neither has the last block with a sample for them
-- if what is flushed goes back before its beginning.
def FlushKeeps (s : Store) (boundary : Int64) : Prop :=
  ∀ labels ts x, held s.head.pieces labels ts = some x → held (s.head.leaving boundary) labels ts ≠ none →
    (∀ y, held (s.head.staying boundary) labels ts = some y → y = x) ∧
    (held (s.head.staying boundary) labels ts = none → ∀ b, LastHolder s.blocks labels ts b →
      (∃ l, ∃ y ∈ OrdMap.under (s.head.leaving boundary) l, y.ts < b.minTs) → held b.pieces labels ts = some x)

theorem exists_under_congr (h : ∀ labels ts, held p labels ts = held q labels ts) :
    (∃ l, ∃ y ∈ under p l, y.ts < t) ↔ ∃ l, ∃ y ∈ under q l, y.ts < t := by
  have hsub : ∀ {p q : Pieces}, (∀ labels ts, held p labels ts = held q labels ts) →
      (∃ l, ∃ y ∈ under p l, y.ts < t) → ∃ l, ∃ y ∈ under q l, y.ts < t := by
    rintro p q h ⟨l, y, hy, hlt⟩
    obtain ⟨z, hz⟩ := exists_lastHeld Sample.ts hy
    obtain ⟨hmem, hts⟩ := mem_of_lastHeld ((h l y.ts).symm.trans hz)
    exact ⟨l, z, hmem, hts ▸ hlt⟩
  exact ⟨hsub h, hsub fun labels ts => (h labels ts).symm⟩

theorem held_writeBlock (seq level : Nat) (out : FlushedSeries) (labels : Labels) (ts : Int64) :
    held (writeBlock seq level out).pieces labels ts = held (seriesPieces out) labels ts := by
  rw [held, held, under_writeBlock]

section

variable {head : Head} (hf : s.Filed) (ht : s.head.takeBefore boundary o.blockSpanMs = .ok (out, head))

include hf ht

theorem headFlush_spec :
    (s.headFlush o boundary).head = head ∧ (s.headFlush o boundary).blocks =
      if out = [] then s.blocks else sortBlocks (s.blocks ++ [writeBlock s.nextBlockSeq 0 out]) := by
  have hmoved : (s.moveToBlock out head boundary).head = head ∧ (s.moveToBlock out head boundary).blocks =
      if out = [] then s.blocks else sortBlocks (s.blocks ++ [writeBlock s.nextBlockSeq 0 out]) := by
    have hf' : Filed { s with head := head } := { hf with }
    unfold moveToBlock
    simp only
    split_ifs with hnil
    · exact ⟨rfl, rfl⟩
    · rw [addBlock_eq hf']
      exact ⟨rfl, rfl⟩
  obtain ⟨hhead, hblocks⟩ := checkpoint_frame
  rw [headFlush, ht]
  exact ⟨hhead.trans hmoved.1, hblocks.trans hmoved.2⟩

theorem sound_headFlush (hs : s.Sound) : (s.headFlush o boundary).Sound := by
  obtain ⟨hhead, hblocks⟩ := headFlush_spec hf ht
  refine ⟨hhead ▸ hs.head.takeBefore ht, ?_⟩
  rw [hblocks]
  split_ifs with hnil
  · exact hs.blocks
  · intro b hb
    obtain hb | hb := mem_append.mp (mem_sortByKey.mp hb)
    · exact hs.blocks b hb
    · obtain ⟨labels, x, hx⟩ := hs.head.exists_flushed ht hnil
      rw [mem_singleton.mp hb]
      exact sound_writeBlock (hs.head.flushed_sound ht) hx

theorem held_unflushed (hnone : held (seriesPieces out) labels ts = none) :
    held ((s.headFlush o boundary).blocks.flatMap Block.pieces) labels ts =
      held (s.blocks.flatMap Block.pieces) labels ts := by
  rw [(headFlush_spec hf ht).2]
  split_ifs with hnil
  · rfl
  · nth_rewrite 2 [← hf.sortBlocks_eq]
    refine held_sortBlocks_congr hf.seqs (hf.nodup_append [_] rfl) fun b hval => ?_
    rw [mem_append, mem_singleton]
    refine ⟨fun hb => hb.resolve_right fun heq => hval ?_, .inl⟩
    rw [heq, held_writeBlock, hnone]

theorem held_flushed (hs : s.Sound) (hx : held (seriesPieces out) labels ts = some x) :
    Joins s.blocks (s.headFlush o boundary).blocks labels ts x
      (fun t => ∃ l, ∃ y ∈ OrdMap.under (s.head.leaving boundary) l, y.ts < t) := by
  have hnil : out ≠ [] := by
    rintro rfl
    simp [seriesPieces, held, under] at hx
  obtain ⟨l, y, hy⟩ := hs.head.exists_flushed ht hnil
  have hbegins : (fun t => ∃ l, ∃ y ∈ under (s.head.leaving boundary) l, y.ts < t) =
      ((writeBlock s.nextBlockSeq 0 out).minTs < ·) := by
    funext t
    rw [(sound_writeBlock (hs.head.flushed_sound ht) hy).minTs_lt_iff]
    exact propext (exists_under_congr fun labels ts =>
      ((held_writeBlock _ _ out labels ts).trans (hs.head.held_takeBefore ht labels ts).1).symm)
  rw [(headFlush_spec hf ht).2, if_neg hnil, hbegins]
  exact held_joined (hf.nodup_append [_] rfl) (mem_singleton_self _)
    ((held_writeBlock s.nextBlockSeq 0 out labels ts).trans hx) (fun c hc _ => mem_singleton.mp hc) hf.below

end

theorem headFlush_query_iff (hs : s.Sound) (hf : s.Filed) (o : TsdbOptions) (boundary : Int64) :
    (∀ matchers t0 t1, (s.headFlush o boundary).query matchers t0 t1 = s.query matchers t0 t1) ↔
      s.FlushKeeps boundary := by
  obtain ⟨out, head, ht⟩ := s.head.takeBefore_ok boundary o.blockSpanMs
  have hhead := (headFlush_spec hf ht).1
  rw [hs.query_eq_iff (sound_headFlush hf ht hs)]
  refine forall_congr' fun labels => forall_congr' fun ts => ?_
  obtain ⟨hleaving, hstaying⟩ := hs.head.held_takeBefore ht labels ts
  obtain ⟨hgone, hkept⟩ := hs.head.flush_held ht labels ts
  rw [pieces, pieces, held_append, held_append, hhead, ← hleaving, ← hstaying]
  cases hout : held (seriesPieces out) labels ts with
  | none =>
    rw [hkept hout, held_unflushed hf ht hout]
    simp
  | some x =>
    have hjoins := held_flushed hf ht hs hout
    cases hstay : held head.pieces labels ts with
    | some y =>
      obtain ⟨z, hz⟩ : ∃ z, held s.head.pieces labels ts = some z := by
        obtain ⟨hmem, rfl⟩ := mem_of_lastHeld hstay
        exact exists_lastHeld Sample.ts ((hs.head.flush_subset ht labels).2 hmem)
      rw [hz]
      simp
    | none =>
      rw [← hgone hstay, hout, none_or, some_or]
      by_cases hsome : ∃ b ∈ s.blocks, held b.pieces labels ts ≠ none
      · constructor
        · rintro heq x' hx' -
          obtain rfl := some.inj hx'
          exact ⟨by simp, fun _ b hb hlt => by rw [← hjoins.before b hb hlt, heq]⟩
        · intro h
          obtain ⟨b, hb⟩ := exists_tops blockOrder hsome
          by_cases hlt : ∃ l, ∃ y ∈ under (s.head.leaving boundary) l, y.ts < b.minTs
          · rw [hjoins.before b hb hlt]
            exact (h x rfl (by simp)).2 rfl b hb hlt
          · exact hjoins.later b hb hlt
      · push Not at hsome
        rw [hjoins.alone hsome]
        refine ⟨fun _ x' hx' _ => ⟨by simp, fun _ b hb => absurd (hsome b hb.mem) hb.valued⟩, fun _ => rfl⟩

end Store

end Flushes

-- A flush, a round of compaction and a round that is cut off leave every query as it was
-- exactly when they do not change which sample counts for a series and time.
theorem query_stable_iff (o : TsdbOptions) {s : Store} (hs : s.Sound) (hf : s.Filed) :
    (∀ boundary, (∀ matchers t0 t1, (s.headFlush o boundary).query matchers t0 t1 = s.query matchers t0 t1) ↔
      s.FlushKeeps boundary) ∧
    ((∀ matchers t0 t1, (s.compactRound o).1.query matchers t0 t1 = s.query matchers t0 t1) ↔
      ∀ c, s.nextCompaction o = some c → s.CompactKeeps c (s.except c.inputs)) ∧
    ((∀ k, (∀ d ∈ (((s.start []).compactRound o).1.filesAt k).dirs, d.complete = true) → ∀ matchers t0 t1,
        (s.listing (((s.start []).compactRound o).1.filesAt k)).query matchers t0 t1 = s.query matchers t0 t1) ↔
      ∀ c, s.nextCompaction o = some c → ∀ j, s.CompactKeeps c (s.except (c.removal.take j))) := by
  refine ⟨s.headFlush_query_iff hs hf o, ?_, ?_⟩
  · obtain ⟨hnext, heq⟩ | ⟨c, rest, written, s', hnext, heq, hr⟩ := Store.compactRound_spec hs hf o
    · simp [hnext, heq]
    · rw [heq, Store.round_query_iff hr hf hs, hnext]
      simp
  · have hs₀ : (s.start []).Sound := ⟨hs.head, hs.blocks⟩
    have hf₀ : (s.start []).Filed := { hf with }
    obtain ⟨hnext, heq⟩ | ⟨c, rest, written, s', hnext, heq, hr⟩ := Store.compactRound_spec hs₀ hf₀ o
    · rw [show s.nextCompaction o = none from hnext, heq]
      refine ⟨fun _ c hc => by simp at hc, fun _ k _ => ?_⟩
      have hlisting : (s.listing s.files).Sound :=
        ⟨hs.head, fun b hb => hs.blocks b (hf.dirs.mem_iff.mp (mem_sortByKey.mp hb))⟩
      refine (hs.query_eq_iff_held hlisting rfl).mpr fun labels ts _ => ?_
      rw [← hf.sortBlocks_eq]
      exact held_sortBlocks_congr hf.seqs ((hf.dirs.map seq).nodup_iff.mpr hf.seqs)
        fun b _ => hf.dirs.mem_iff
    · rw [show s.nextCompaction o = some c from hnext, heq]
      refine (Store.interrupted_query_iff hr hf₀ hs₀ rfl).trans ?_
      exact ⟨fun h c' hc' => some.inj hc' ▸ h, fun h => h c rfl⟩

theorem Round.held_eq_none_iff (hr : Round s c rest written s') :
    held s'.pieces labels ts = none ↔ held s.pieces labels ts = none := by
  have hwritten := hr.replaces.held labels ts
  simp only [Store.pieces, held_append, or_eq_none_iff, hr.head, hr.blocks]
  refine and_congr_right fun _ => ?_
  rw [held_flatMap_eq_none_iff, held_flatMap_eq_none_iff]
  simp only [sortBlocks, mem_sortByKey, ← hr.perm.mem_iff, forall_mem_append]
  refine and_congr_right fun _ => ?_
  rw [← held_flatMap_eq_none_iff, hwritten, held_flatMap_eq_none_iff]

namespace System

theorem sound_opened {s : Store} (h : opened o events = some s) : s.Sound ∧ s.Filed := by
  unfold opened at h
  split at h
  case h_1 => cases h
  case h_2 s' hs' =>
    obtain rfl := some.inj h
    have hfaithful := faithful_run o events
    simp only [Faithful, hs'] at hfaithful
    exact ⟨hfaithful.sound, hfaithful.filed⟩

section Scenario

def hourly : TsdbOptions := ⟨1000, none, 100, 5, true⟩

-- A repair has left a block that begins at 150; the head then takes a newer sample for that
-- time and an older one.
def repairedRun : List Event :=
  [.open, .call (.mergeSamples [row "a" 150 1]) [], .call (.appendBatch [row "a" 50 3, row "a" 150 2] false) []]

def straddledRun : List Event :=
  [.open, .call (.mergeSamples [row "b" 10 0]) [], .call (.mergeSamples [row "a" 50 2]) [],
    .call (.appendBatch [row "z" 30 0] false) [], .call .flush [],
    .call (.mergeSamples [row "a" 0 0, row "a" 50 1]) [], .call (.mergeSamples [row "a" 20 0, row "a" 50 3]) []]

def twoRepairsRun : List Event :=
  [.open, .call (.mergeSamples [row "a" 20 0, row "a" 150 1]) [], .call (.mergeSamples [row "a" 150 2]) []]

end Scenario

theorem query_stable_iff_twoRepairs :
    ∃ s, opened hourly twoRepairsRun = some s ∧ s.blocks.length = 2 ∧ (s.compactRound hourly).1.blocks.length = 1 ∧
      ∀ matchers t0 t1, (s.compactRound hourly).1.query matchers t0 t1 = s.query matchers t0 t1 := by
  obtain ⟨s, hs⟩ : ∃ s, opened hourly twoRepairsRun = some s := isSome_iff_exists.mp (by decide)
  have hcounts : (opened hourly twoRepairsRun).map (fun s =>
      [s.blocks.length, (s.compactRound hourly).1.blocks.length]) = some [2, 1] := by decide
  have hleft : (opened hourly twoRepairsRun).map (fun s =>
      (s.nextCompaction hourly).map (fun c => (s.except c.inputs).length)) = some (some 0) := by decide
  rw [hs] at hcounts hleft
  obtain ⟨hbefore, hafter⟩ := List.cons.inj (some.inj hcounts)
  refine ⟨s, hs, hbefore, (List.cons.inj hafter).1, ?_⟩
  obtain ⟨hsound, hfiled⟩ := sound_opened hs
  refine (query_stable_iff hourly hsound hfiled).2.1.mpr fun c hc labels ts x _ _ b hb => ?_
  have hlen : (s.nextCompaction hourly).map (fun c => (s.except c.inputs).length) = some 0 := some.inj hleft
  rw [hc] at hlen
  have hnil : s.except c.inputs = [] := length_eq_zero_iff.mp (some.inj hlen)
  exact absurd hb.mem (by rw [hnil]; exact not_mem_nil)

-- A flush brings an older sample back, and so does a merge.
theorem query_changes :
    (opened hourly repairedRun).map answer = some (some [(host "a", [⟨50, ⟨3⟩⟩, ⟨150, ⟨2⟩⟩])]) ∧
    (opened hourly repairedRun).map (fun s => answer (s.headFlush hourly (s.head.maxTs + 1))) =
      some (some [(host "a", [⟨50, ⟨3⟩⟩, ⟨150, ⟨1⟩⟩])]) ∧ (opened hourly straddledRun).map answer =
      some (some [(host "a", [⟨0, ⟨0⟩⟩, ⟨20, ⟨0⟩⟩, ⟨50, ⟨3⟩⟩]), (host "b", [⟨10, ⟨0⟩⟩]), (host "z", [⟨30, ⟨0⟩⟩])]) ∧
    (opened hourly straddledRun).map (fun s => answer (s.compactRound hourly).1) =
      some (some [(host "a", [⟨0, ⟨0⟩⟩, ⟨20, ⟨0⟩⟩, ⟨50, ⟨2⟩⟩]), (host "b", [⟨10, ⟨0⟩⟩]), (host "z", [⟨30, ⟨0⟩⟩])]) := by
  refine ⟨by decide, by decide, by decide, by decide⟩

-- Compaction can change which of two samples counts, but a series keeps all its times.
theorem compactLocked_keeps_times {s : Store} (h : opened o events = some s) (matchers : List Matcher) (t0 t1 : Int64) :
    ∃ r, (s.compactLocked o).query matchers t0 t1 = .ok r ∧ Store.QueryResult (s.compactLocked o) matchers t0 t1 r ∧
      ∀ labels ts, held (s.compactLocked o).pieces labels ts = none ↔ held s.pieces labels ts = none := by
  obtain ⟨hs, hf⟩ := sound_opened h
  obtain ⟨hsound, -, hkeeps⟩ := Store.compactRounds_induction
    (p := fun s' => ∀ labels ts, held s'.pieces labels ts = none ↔ held s.pieces labels ts = none) o
    (fun _ _ hp hr labels ts => hr.held_eq_none_iff.trans (hp labels ts)) (s.clock.headD 0 + 1)
    (s := { s with clock := s.clock.tail }) ⟨hs.head, hs.blocks⟩ { hf with } (fun _ _ => Iff.rfl)
  obtain ⟨r, hr, hspec⟩ := hsound.query_spec
  exact ⟨r, hr, hspec, hkeeps⟩

theorem compactLocked_keeps_straddled : ∃ s r, opened hourly straddledRun = some s ∧
    (s.compactLocked hourly).query [] 0 99 = .ok r ∧ Store.QueryResult (s.compactLocked hourly) [] 0 99 r ∧
    ∀ labels ts, held (s.compactLocked hourly).pieces labels ts = none ↔ held s.pieces labels ts = none := by
  obtain ⟨s, hs⟩ : ∃ s, opened hourly straddledRun = some s := isSome_iff_exists.mp (by decide)
  obtain ⟨r, hr⟩ := compactLocked_keeps_times hs [] 0 99
  exact ⟨s, r, hs, hr⟩

end System

end Skaidb.Tsdb
