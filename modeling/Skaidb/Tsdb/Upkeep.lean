import Skaidb.Tsdb.Head.Flush

namespace Skaidb.Tsdb

open Skaidb.Base List OrdMap Option Files Block Store

variable {group : List Nat}

section Plans

variable {blocks : List Block}

theorem planLevel_sublist {target : Int64} {level : Nat} {xs group : List (Block × Nat)} {plan : List Nat}
    (h : planLevel target level xs group = some plan) :
    2 ≤ plan.length ∧ plan.Sublist (group.map Prod.snd ++ xs.map Prod.snd) := by
  induction xs generalizing group with
  | nil =>
    rw [planLevel] at h
    split_ifs at h with hlen
    cases h
    simpa using hlen
  | cons x xs ih =>
    obtain ⟨b, i⟩ := x
    rw [planLevel] at h
    simp only at h
    have hskip : (group.map Prod.snd ++ xs.map Prod.snd).Sublist (group.map Prod.snd ++ i :: xs.map Prod.snd) :=
      (sublist_cons_self _ _).append_left _
    split_ifs at h with hlevel hfits hlen hfresh
    · obtain ⟨hlen, hsub⟩ := ih h
      exact ⟨hlen, hsub.trans hskip⟩
    · obtain ⟨hlen, hsub⟩ := ih h
      exact ⟨hlen, by simpa using hsub⟩
    · cases h
      exact ⟨by simpa using hlen, sublist_append_left _ _⟩
    · obtain ⟨hlen, hsub⟩ := ih h
      exact ⟨hlen, hsub.trans (sublist_append_right _ _)⟩
    · obtain ⟨hlen, hsub⟩ := ih h
      exact ⟨hlen, hsub.trans ((sublist_cons_self _ _).trans (sublist_append_right _ _))⟩

theorem plan_sublist {span : Int64} (h : plan blocks span = some group) :
    2 ≤ group.length ∧ group.Sublist (range blocks.length) := by
  obtain ⟨level, -, hlevel⟩ := exists_of_findSome?_eq_some h
  obtain ⟨hlen, hsub⟩ := planLevel_sublist hlevel
  rw [map_nil, nil_append, zipIdx_map_snd, ← range_eq_range'] at hsub
  exact ⟨hlen, hsub⟩

theorem planWideFrom_sublist (xs : List (Block × Nat)) (group : List Nat) (samples : Nat) :
    (planWideFrom t1 maxInputs maxSamples xs group samples).Sublist (group ++ xs.map Prod.snd) := by
  induction xs generalizing group samples with
  | nil => simp [planWideFrom]
  | cons x xs ih =>
    obtain ⟨b, i⟩ := x
    rw [planWideFrom]
    split_ifs with hwide hfull
    · exact ((singleton_sublist.mpr mem_cons_self).append_left _)
    · simpa using ih (group ++ [i]) (samples + b.samples)
    · exact (ih group samples).trans ((sublist_cons_self _ _).append_left _)

theorem planWide_sublist {span : Int64} (h : planWide blocks span maxInputs maxSamples = some group) :
    group.Sublist (range blocks.length) := by
  unfold planWide at h
  simp only at h
  split_ifs at h
  obtain rfl := Option.some.inj h
  have hsub := @planWideFrom_sublist (tierSpan span 1) maxInputs maxSamples blocks.zipIdx [] 0
  rwa [nil_append, zipIdx_map_snd, ← range_eq_range'] at hsub

def pick (blocks : List Block) (group : List Nat) : List Block := group.filterMap (fun i => blocks[i]?)

theorem pick_eq (h : group.Sublist (range blocks.length)) :
    pick blocks group = (blocks.zipIdx.filter (fun b => b.2 ∈ group)).map Prod.fst := by
  have hgroup : (blocks.zipIdx.filter (fun b => b.2 ∈ group)).map Prod.snd = group := by
    have hmap : (blocks.zipIdx.filter (fun b => b.2 ∈ group)).map Prod.snd =
        (range blocks.length).filter (fun i => i ∈ group) := by
      rw [List.range_eq_range', ← List.zipIdx_map_snd 0 blocks, List.filter_map]
      rfl
    rw [hmap]
    have hsorted : (range blocks.length).Pairwise (fun i j => id i < id j) := pairwise_lt_range
    refine eq_of_mem_iff_of_sorted (hsorted.sublist filter_sublist) (hsorted.sublist h) fun i => ?_
    simp only [mem_filter, decide_eq_true_eq]
    exact ⟨And.right, fun hi => ⟨h.mem hi, hi⟩⟩
  have hget : ∀ b ∈ blocks.zipIdx.filter (fun b => b.2 ∈ group), blocks[b.2]? = some b.1 :=
    fun b hb => mem_zipIdx_iff_getElem?.mp (mem_of_mem_filter hb)
  rw [pick]
  nth_rewrite 1 [← hgroup]
  rw [filterMap_map]
  exact (filterMap_congr hget).trans (congrFun filterMap_eq_map _)

theorem pick_sublist (h : group.Sublist (range blocks.length)) : (pick blocks group).Sublist blocks := by
  rw [pick_eq h]
  have hsub := (filter_sublist (p := fun b : Block × Nat => decide (b.2 ∈ group)) (l := blocks.zipIdx)).map Prod.fst
  rwa [zipIdx_map_fst] at hsub

theorem without_sublist : (without blocks group).Sublist blocks := by
  have hsub := (filter_sublist (p := fun b : Block × Nat => decide (b.2 ∉ group)) (l := blocks.zipIdx)).map Prod.fst
  rwa [zipIdx_map_fst] at hsub

theorem without_append_pick (h : group.Sublist (range blocks.length)) :
    (without blocks group ++ pick blocks group).Perm blocks := by
  rw [pick_eq h, without, ← map_append]
  have hperm := (filter_append_perm (fun b => decide (b.2 ∉ group)) blocks.zipIdx).map Prod.fst
  simpa using hperm

end Plans

variable {windows : List (Int64 × FlushedSeries)} {b : Block}

section BlockFiles

namespace Files

def blocks (f : Files) : List Block := f.dirs.map BlockDir.block

def addDirs (written : List Block) (f : Files) : Files :=
  { f with dirs := f.dirs ++ written.map (fun b => ⟨b, true⟩) }

def withoutDirs (gone : List Block) (f : Files) : Files :=
  { f with dirs := f.dirs.filter (fun d => d.block.seq ∉ gone.map Block.seq) }

theorem blocks_addDirs (written : List Block) (f : Files) : (f.addDirs written).blocks = f.blocks ++ written := by
  simp [blocks, addDirs, Function.comp_def]

theorem addDirs_nil (f : Files) : f.addDirs [] = f := by simp [addDirs]

theorem blocks_withoutDirs {gone : List Block} {f : Files} :
    (f.withoutDirs gone).blocks = f.blocks.filter (fun b => b.seq ∉ gone.map seq) := by
  rw [blocks, blocks, List.filter_map]
  rfl

theorem withoutDirs_nil (f : Files) : f.withoutDirs [] = f := by simp [withoutDirs]

theorem withoutDirs_withoutDirs {f : Files} :
    (f.withoutDirs gone).withoutDirs gone' = f.withoutDirs (gone ++ gone') := by
  simp only [withoutDirs, List.filter_filter, mk.injEq, and_true]
  exact List.filter_congr fun d _ => by simp [Bool.and_comm]

theorem blocks_breakDir {seq : Nat} {f : Files} : (f.breakDir seq).blocks = f.blocks := by
  rw [blocks, breakDir, List.map_map]
  refine List.map_congr_left fun d _ => ?_
  rw [Function.comp_apply]
  split_ifs <;> rfl

-- The files while blocks are removed one after the other. The directory of the next one may
-- have lost some of its files.
def Removing (before : Files) (gone : List Block) (f : Files) : Prop :=
  ∃ j, f = before.withoutDirs (gone.take j) ∨
    ∃ b, (gone.drop j).head? = some b ∧ f = (before.withoutDirs (gone.take j)).breakDir b.seq

variable {before f : Files} {gone : List Block}

theorem Removing.blocks_eq (h : Removing before gone f) :
    f.log = before.log ∧ ∃ j, f.blocks = before.blocks.filter (fun b => b.seq ∉ (gone.take j).map seq) := by
  obtain ⟨j, rfl | ⟨b, -, rfl⟩⟩ := h
  · exact ⟨rfl, j, blocks_withoutDirs⟩
  · exact ⟨rfl, j, blocks_breakDir.trans blocks_withoutDirs⟩

end Files

namespace Store

-- The block list and the directories agree, and the next number is free.
structure Filed (s : Store) : Prop where
  dirs : s.files.blocks.Perm s.blocks
  complete : ∀ d ∈ s.files.dirs, d.complete = true
  seqs : (s.blocks.map Block.seq).Nodup
  below : ∀ b ∈ s.blocks, b.seq < s.nextBlockSeq
  sorted : s.blocks.Pairwise (fun a b => blockOrder a ≤ blockOrder b)

variable {s s' : Store}

theorem allocBlockSeq_eq (h : ∀ b ∈ s.files.blocks, b.seq < s.nextBlockSeq) :
    s.allocBlockSeq = (s.nextBlockSeq, { s with nextBlockSeq := s.nextBlockSeq + 1 }) := by
  have hfree : s.nextBlockSeq ∉ s.files.dirs.map (fun d => d.block.seq) := by
    intro hmem
    obtain ⟨d, hd, heq⟩ := mem_map.mp hmem
    exact (h d.block (mem_map.mpr ⟨d, hd, rfl⟩)).ne heq
  rw [allocBlockSeq, freeSeq, if_neg hfree]

theorem removeBlock_eq {s : Store} : s.removeBlock b = { s with
      files := s.files.withoutDirs [b]
      past := s.past ++ [s.files, s.files.breakDir b.seq] } := by
  have hdirs : (s.files.breakDir b.seq).dirs.filter (fun d => d.block.seq ≠ b.seq) =
      s.files.dirs.filter (fun d => d.block.seq ≠ b.seq) := by
    rw [Files.breakDir, List.filter_map]
    have hseq : ((fun d : BlockDir => decide (d.block.seq ≠ b.seq)) ∘
        fun d => if d.block.seq = b.seq then { d with complete := false } else d) =
          fun d => decide (d.block.seq ≠ b.seq) := by
      funext d
      rw [Function.comp_apply]
      split_ifs <;> rfl
    rw [hseq]
    refine (map_congr_left fun d hd => ?_).trans (map_id _)
    exact if_neg (of_decide_eq_true (mem_filter.mp hd).2)
  simp only [removeBlock, write, removeDir, hdirs, append_assoc, singleton_append,
    withoutDirs, map_cons, map_nil, mem_singleton]
  rfl

theorem removeBlocks_spec (s : Store) (gone : List Block) : ∃ trail, s.removeBlocks gone =
        { s with files := s.files.withoutDirs gone, past := s.past ++ trail } ∧
      (∀ f ∈ trail, Removing s.files gone f) ∧
      ∀ j < gone.length, s.files.withoutDirs (gone.take j) ∈ trail := by
  induction gone generalizing s with
  | nil => exact ⟨[], by simp [removeBlocks, withoutDirs_nil], by simp, by simp⟩
  | cons b gone ih =>
    obtain ⟨trail, heq, htrail, hstages⟩ := ih (s.removeBlock b)
    have hfiles : ∀ gone', (s.removeBlock b).files.withoutDirs gone' = s.files.withoutDirs (b :: gone') := by
      intro gone'
      rw [removeBlock_eq]
      exact withoutDirs_withoutDirs
    refine ⟨[s.files, s.files.breakDir b.seq] ++ trail, ?_, ?_, ?_⟩
    · rw [show s.removeBlocks (b :: gone) = (s.removeBlock b).removeBlocks gone from rfl, heq, hfiles,
        removeBlock_eq, append_assoc]
    · intro f hf
      obtain hf | hf := mem_append.mp hf
      · obtain rfl | hf := mem_cons.mp hf
        · exact ⟨0, .inl (by simp [withoutDirs_nil])⟩
        · exact ⟨0, .inr ⟨b, rfl, by simpa [withoutDirs_nil] using hf⟩⟩
      · obtain ⟨j, hj⟩ := htrail f hf
        simp only [hfiles] at hj
        exact ⟨j + 1, hj⟩
    · intro j hj
      cases j with
      | zero => simp [withoutDirs_nil]
      | succ j =>
        rw [take_succ_cons, ← hfiles]
        exact mem_append_right _ (hstages j (Nat.lt_of_succ_lt_succ hj))

def windowBlocks : (seq : Nat) → List (Int64 × FlushedSeries) → List Block
  | _, [] => []
  | seq, (_, series) :: rest => writeBlock seq 0 series :: windowBlocks (seq + 1) rest

theorem windowBlocks_seqs (seq : Nat) (windows : List (Int64 × FlushedSeries)) :
    (windowBlocks seq windows).map Block.seq = List.range' seq windows.length := by
  induction windows generalizing seq with
  | nil => rfl
  | cons w rest ih => exact congrArg (seq :: ·) (ih (seq + 1))

theorem mem_windowBlocks {seq : Nat}
    (hb : b ∈ windowBlocks seq windows) : ∃ w ∈ windows, ∃ n, b = writeBlock n 0 w.2 := by
  induction windows generalizing seq with
  | nil => cases hb
  | cons w rest ih =>
    obtain rfl | hb := mem_cons.mp hb
    · exact ⟨w, mem_cons_self, seq, rfl⟩
    · obtain ⟨w', hw', hn⟩ := ih hb
      exact ⟨w', mem_cons_of_mem _ hw', hn⟩

theorem exists_windowBlock (seq : Nat) (hw : w ∈ windows) :
    ∃ n, writeBlock n 0 w.2 ∈ windowBlocks seq windows := by
  induction windows generalizing seq with
  | nil => cases hw
  | cons w' rest ih =>
    obtain rfl | hw := mem_cons.mp hw
    · exact ⟨seq, mem_cons_self⟩
    · obtain ⟨n, hn⟩ := ih (seq + 1) hw
      exact ⟨n, mem_cons_of_mem _ hn⟩

theorem pairwise_windowBlocks (seq : Nat)
    (h : windows.Pairwise (fun w w' => ∀ n n', p (writeBlock n 0 w.2) (writeBlock n' 0 w'.2))) :
    (windowBlocks seq windows).Pairwise p := by
  induction windows generalizing seq with
  | nil => exact Pairwise.nil
  | cons w rest ih =>
    obtain ⟨hw, hrest⟩ := pairwise_cons.mp h
    refine pairwise_cons.mpr ⟨fun b hb => ?_, ih (seq + 1) hrest⟩
    obtain ⟨w', hw', n, rfl⟩ := mem_windowBlocks hb
    exact hw w' hw' seq n

theorem writeWindows_spec (s : Store) (windows : List (Int64 × FlushedSeries))
    (h : ∀ b ∈ s.files.blocks, b.seq < s.nextBlockSeq) : ∃ trail, s.writeWindows windows =
        ({ s with
          nextBlockSeq := s.nextBlockSeq + windows.length
          files := s.files.addDirs (windowBlocks s.nextBlockSeq windows)
          past := s.past ++ trail }, windowBlocks s.nextBlockSeq windows) ∧
      ∀ f ∈ trail, ∃ n, f = s.files.addDirs ((windowBlocks s.nextBlockSeq windows).take n) := by
  induction windows generalizing s with
  | nil => exact ⟨[], by simp [writeWindows, windowBlocks, addDirs_nil], by simp⟩
  | cons w rest ih =>
    obtain ⟨window, series⟩ := w
    set b := writeBlock s.nextBlockSeq 0 series with hb
    set s₁ := { s with nextBlockSeq := s.nextBlockSeq + 1 }.write (addDir b) with hs₁
    have hblocks : s₁.files.blocks = s.files.blocks ++ [b] := by
      simp [hs₁, write, Files.addDir, Files.blocks]
    have hbelow : ∀ c ∈ s₁.files.blocks, c.seq < s₁.nextBlockSeq := by
      rw [hblocks]
      intro c hc
      obtain hc | hc := mem_append.mp hc
      · exact (h c hc).trans (Nat.lt_succ_self _)
      · rw [mem_singleton.mp hc]
        exact Nat.lt_succ_self _
    obtain ⟨trail, heq, htrail⟩ := ih s₁ hbelow
    refine ⟨s.files :: trail, ?_, ?_⟩
    · rw [writeWindows, allocBlockSeq_eq h]
      simp only [← hb, ← hs₁, heq, windowBlocks]
      simp [hs₁, write, addDir, addDirs, Nat.add_assoc, Nat.add_comm 1]
    · intro f hf
      obtain rfl | hf := mem_cons.mp hf
      · exact ⟨0, (addDirs_nil _).symm⟩
      · obtain ⟨n, rfl⟩ := htrail f hf
        refine ⟨n + 1, ?_⟩
        simp [hs₁, write, windowBlocks, addDir, addDirs]
        rfl

end Store

end BlockFiles

section Rounds

-- What a round of compaction takes: the blocks in their order, the order in which they are
-- removed, and which of their samples, by time, go to one block.
structure Compaction where
  inputs : List Block
  removal : List Block
  together : Int64 → Int64 → Bool

def Compaction.merge (inputs : List Block) : Compaction := ⟨inputs, inputs, fun _ _ => true⟩

def Compaction.fold (inputs : List Block) (span : Int64) : Compaction :=
  ⟨inputs, inputs.reverse, fun t t' => windowOf span t = windowOf span t'⟩

-- Blocks with the same contents, each series and time in one of them.
structure Replaces (c : Compaction) (written : List Block) : Prop where
  sound : ∀ b ∈ written, b.Sound
  held : ∀ labels ts,
    held (written.flatMap Block.pieces) labels ts = Tsdb.held (c.inputs.flatMap Block.pieces) labels ts
  subset : ∀ labels,
    OrdMap.under (written.flatMap Block.pieces) labels ⊆ OrdMap.under (c.inputs.flatMap Block.pieces) labels
  once : ∀ b ∈ written, ∀ b' ∈ written, ∀ labels ts,
    Tsdb.held b.pieces labels ts ≠ none → Tsdb.held b'.pieces labels ts ≠ none → b = b'
  together : ∀ b ∈ written, ∀ labels ts, Tsdb.held b.pieces labels ts ≠ none → ∀ labels' ts',
    Tsdb.held b.pieces labels' ts' =
      if c.together ts' ts then Tsdb.held (c.inputs.flatMap Block.pieces) labels' ts' else none

theorem held_flatMap_eq_none_iff {blocks : List Block} :
    held (blocks.flatMap Block.pieces) labels ts = none ↔ ∀ b ∈ blocks, held b.pieces labels ts = none := by
  induction blocks with
  | nil => simp [held, under]
  | cons b blocks ih =>
    rw [flatMap_cons, held_append, or_eq_none_iff, ih, forall_mem_cons, and_comm]

theorem held_flatMap_eq_some {blocks : List Block}
    (hall : ∀ b ∈ blocks, held b.pieces labels ts = none ∨ held b.pieces labels ts = some x)
    (hsome : ∃ b ∈ blocks, held b.pieces labels ts = some x) :
    held (blocks.flatMap Block.pieces) labels ts = some x := by
  induction blocks with
  | nil =>
    obtain ⟨b, hb, -⟩ := hsome
    cases hb
  | cons b blocks ih =>
    obtain ⟨hb, hall⟩ := forall_mem_cons.mp hall
    rw [flatMap_cons, held_append]
    by_cases hrest : ∃ c ∈ blocks, held c.pieces labels ts = some x
    · rw [ih hall hrest]
      rfl
    · have hnone : held (blocks.flatMap Block.pieces) labels ts = none :=
        held_flatMap_eq_none_iff.mpr fun c hc => (hall c hc).resolve_right fun h => hrest ⟨c, hc, h⟩
      obtain ⟨c, hc, hx⟩ := hsome
      obtain rfl | hc := mem_cons.mp hc
      · rw [hnone, hx]
        rfl
      · exact absurd ⟨c, hc, hx⟩ hrest

theorem replaces_merge {inputs : List Block} (hsound : b.Sound)
    (hheld : ∀ labels ts, held b.pieces labels ts = held (inputs.flatMap Block.pieces) labels ts)
    (hsub : ∀ labels, OrdMap.under b.pieces labels ⊆ OrdMap.under (inputs.flatMap Block.pieces) labels) :
    Replaces (.merge inputs) [b] := by
  have hpieces : [b].flatMap Block.pieces = b.pieces := flatMap_singleton _ _
  refine ⟨by simpa using hsound, hpieces ▸ hheld, hpieces ▸ hsub, ?_, ?_⟩
  · intro c hc c' hc' labels ts _ _
    rw [mem_singleton.mp hc, mem_singleton.mp hc']
  · intro c hc labels ts _ labels' ts'
    rw [mem_singleton.mp hc, hheld]
    exact (if_pos rfl).symm

theorem replaces_fold {inputs : List Block} {span : Int64} (seq : Nat)
    (hnodup : (windows.map Prod.fst).Nodup) (hfolded : ∀ w ∈ windows, FoldedInto inputs span w)
    (hcover : ∀ labels, ∀ x ∈ OrdMap.under (inputs.flatMap Block.pieces) labels,
      windowOf span x.ts ∈ windows.map Prod.fst) :
    Replaces (.fold inputs span) (Store.windowBlocks seq windows) := by
  have hheld : ∀ {w n labels ts}, w ∈ windows → held (writeBlock n 0 w.2).pieces labels ts =
      if windowOf span ts = w.1 then held (inputs.flatMap Block.pieces) labels ts else none := by
    intro w n labels ts hw
    rw [held, under_writeBlock]
    exact (hfolded w hw).held labels ts
  refine ⟨fun b hb => ?_, fun labels ts => ?_, fun labels x hx => ?_, ?_, fun b hb labels ts hsome labels' ts' => ?_⟩
  · obtain ⟨w, hw, n, rfl⟩ := mem_windowBlocks hb
    obtain ⟨labels, x, hx⟩ := (hfolded w hw).exists_mem
    exact sound_writeBlock (hfolded w hw).sound hx
  · change held ((Store.windowBlocks seq windows).flatMap Block.pieces) labels ts =
      held (inputs.flatMap Block.pieces) labels ts
    cases hinputs : held (inputs.flatMap Block.pieces) labels ts with
    | none =>
      refine held_flatMap_eq_none_iff.mpr fun b hb => ?_
      obtain ⟨w, hw, n, rfl⟩ := Store.mem_windowBlocks hb
      rw [hheld hw, hinputs, ite_self]
    | some x =>
      refine held_flatMap_eq_some (fun b hb => ?_) ?_
      · obtain ⟨w, hw, n, rfl⟩ := Store.mem_windowBlocks hb
        rw [hheld hw, hinputs]
        split_ifs
        · exact .inr rfl
        · exact .inl rfl
      · obtain ⟨hmem, rfl⟩ := mem_of_lastHeld hinputs
        obtain ⟨w, hw, hwindow⟩ := mem_map.mp (hcover labels x hmem)
        obtain ⟨n, hn⟩ := exists_windowBlock seq hw
        exact ⟨_, hn, by rw [hheld hw, if_pos hwindow.symm, hinputs]⟩
  · obtain ⟨piece, hpiece, hlabels, hx⟩ := mem_under.mp hx
    obtain ⟨b, hb, hpiece⟩ := mem_flatMap.mp hpiece
    obtain ⟨w, hw, n, rfl⟩ := mem_windowBlocks hb
    have hin := mem_under.mpr ⟨piece, hpiece, hlabels, hx⟩
    rw [under_writeBlock] at hin
    exact (hfolded w hw).subset labels hin
  · -- Two blocks that hold the same are the block of its window.
    have hpairs : (windowBlocks seq windows).Pairwise (fun b b' => ∀ labels ts,
        ¬(held b.pieces labels ts ≠ none ∧ held b'.pieces labels ts ≠ none)) := by
      refine pairwise_windowBlocks seq ?_
      refine (pairwise_map.mp hnodup).imp_of_mem fun {w w'} hw hw' hne n n' labels ts hboth => ?_
      rw [hheld hw, hheld hw'] at hboth
      by_cases heq : windowOf span ts = w.1
      · rw [if_neg fun heq' => hne (heq.symm.trans heq')] at hboth
        exact hboth.2 rfl
      · rw [if_neg heq] at hboth
        exact hboth.1 rfl
    intro b hb b' hb' labels ts hsome hsome'
    by_contra hne
    have : Std.Symm (fun b b' : Block => ∀ labels ts,
        ¬(held b.pieces labels ts ≠ none ∧ held b'.pieces labels ts ≠ none)) :=
      ⟨fun b b' h labels ts hboth => h labels ts hboth.symm⟩
    exact hpairs.forall hb hb' hne labels ts ⟨hsome, hsome'⟩
  · obtain ⟨w, hw, n, rfl⟩ := Store.mem_windowBlocks hb
    rw [hheld hw] at hsome ⊢
    have hwindow : windowOf span ts = w.1 := by
      by_contra hne
      exact hsome (if_neg hne)
    simp [Compaction.fold, hwindow]

-- The files while blocks are replaced: the inputs go when all that is written is there.
structure Rearranged (before : Files) (inputs written : List Block) (f : Files) : Prop where
  log : f.log = before.log
  sublist : f.blocks.Sublist (before.blocks ++ written)
  keeps : ∀ b ∈ before.blocks, b ∈ f.blocks ∨ b ∈ inputs ∧ written ⊆ f.blocks

-- The files at any point of a round: blocks are written first, then the inputs removed.
inductive Stage (before : Files) (removal written : List Block) : Files → Prop
  | writing (m : Nat) : Stage before removal written (before.addDirs (written.take m))
  | removing {f : Files} (h : Files.Removing (before.addDirs written) removal f) : Stage before removal written f

structure Round (s : Store) (c : Compaction) (rest written : List Block) (s' : Store) : Prop where
  head : s'.head = s.head
  flushedThrough : s'.flushedThrough = s.flushedThrough
  log : s'.files.log = s.files.log
  clock : s'.clock = s.clock
  rest_sublist : rest.Sublist s.blocks
  inputs_sublist : c.inputs.Sublist s.blocks
  removal : c.removal.Perm c.inputs
  perm : (rest ++ c.inputs).Perm s.blocks
  replaces : Replaces c written
  seqs : written.map Block.seq = List.range' s.nextBlockSeq written.length
  nextBlockSeq : s'.nextBlockSeq = s.nextBlockSeq + written.length
  blocks : s'.blocks = sortBlocks (rest ++ written)
  files : s'.files = (s.files.addDirs written).withoutDirs c.removal
  past : ∃ trail, s'.past = s.past ++ trail ∧ (∀ f ∈ trail, Stage s.files c.removal written f) ∧
    ∀ j < c.removal.length, (s.files.addDirs written).withoutDirs (c.removal.take j) ∈ trail

namespace Store

variable {s : Store}

theorem Filed.below_files (hf : s.Filed) : ∀ b ∈ s.files.blocks, b.seq < s.nextBlockSeq :=
  fun b hb => hf.below b (hf.dirs.mem_iff.mp hb)

theorem Filed.eq_of_seq (hf : s.Filed) {b' : Block} (hb : b ∈ s.blocks) (hb' : b' ∈ s.blocks)
    (heq : b.seq = b'.seq) : b = b' := inj_on_of_nodup_map hf.seqs hb hb' heq

theorem Filed.nodup_append (hf : s.Filed) (written : List Block)
    (hseqs : written.map seq = range' s.nextBlockSeq written.length) :
    ((s.blocks ++ written).map seq).Nodup := by
  rw [List.map_append, List.nodup_append]
  refine ⟨hf.seqs, hseqs ▸ nodup_range', ?_⟩
  rintro n hn m hm rfl
  obtain ⟨b, hb, rfl⟩ := mem_map.mp hn
  have hlt := hf.below b hb
  have hge := (mem_range'_1.mp (hseqs ▸ hm)).1
  omega

-- Blocks go and others come, under the next numbers.
theorem Filed.swap {s' : Store} (hf : s.Filed) {rest gone written : List Block} (hperm : (rest ++ gone).Perm s.blocks)
    (hseqs : written.map seq = range' s.nextBlockSeq written.length)
    (hnext : s'.nextBlockSeq = s.nextBlockSeq + written.length) (hblocks : s'.blocks = sortBlocks (rest ++ written))
    (hfiles : s'.files.dirs = ((s.files.addDirs written).withoutDirs gone).dirs) : s'.Filed := by
  have hall : (s.blocks ++ written).Perm (gone ++ (rest ++ written)) := by
    rw [← append_assoc]
    exact (hperm.symm.trans perm_append_comm).append_right written
  have hnodup := (hall.map seq).nodup_iff.mp (hf.nodup_append written hseqs)
  rw [List.map_append, List.nodup_append] at hnodup
  obtain ⟨-, hkept, hdisj⟩ := hnodup
  refine ⟨?_, ?_, ?_, ?_, hblocks ▸ sortByKey_sorted⟩
  · have hfilter : (gone ++ (rest ++ written)).filter (fun b => b.seq ∉ gone.map seq) = rest ++ written := by
      rw [filter_append, filter_eq_nil_iff.mpr (fun b hb => by simpa using ⟨b, hb, rfl⟩), nil_append]
      refine filter_eq_self.mpr fun b hb => decide_eq_true fun hin => ?_
      exact hdisj b.seq hin b.seq (mem_map.mpr ⟨b, hb, rfl⟩) rfl
    have heq : s'.files.blocks = (s.files.blocks ++ written).filter (fun b => b.seq ∉ gone.map seq) := by
      rw [← Files.blocks_addDirs, ← Files.blocks_withoutDirs, Files.blocks, hfiles]
      rfl
    rw [heq, hblocks]
    exact ((((hf.dirs.append_right written).trans hall).filter _).trans (.of_eq hfilter)).trans sortByKey_perm.symm
  · rw [hfiles]
    intro d hd
    obtain hd | hd := mem_append.mp (mem_of_mem_filter hd)
    · exact hf.complete d hd
    · obtain ⟨b, -, rfl⟩ := mem_map.mp hd
      rfl
  · rw [hblocks]
    exact (sortByKey_perm.map seq).nodup_iff.mpr hkept
  · intro b hb
    rw [hblocks, sortBlocks, mem_sortByKey, mem_append] at hb
    rw [hnext]
    obtain hb | hb := hb
    · exact Nat.lt_add_right _ (hf.below b (hperm.mem_iff.mp (mem_append_left _ hb)))
    · exact (mem_range'_1.mp (hseqs ▸ mem_map.mpr ⟨b, hb, rfl⟩)).2

theorem round_of_writes {c : Compaction} (hgroup : group.Sublist (range s.blocks.length))
    (hinputs : c.inputs = pick s.blocks group) (hremoval : c.removal.Perm c.inputs) {written : List Block}
    (hreplaces : Replaces c written) (hseqs : written.map seq = range' s.nextBlockSeq written.length)
    (htrail : ∀ f ∈ trail, ∃ n, f = s.files.addDirs (written.take n)) :
    Round s c (without s.blocks group) written
      { removeBlocks { s with
          nextBlockSeq := s.nextBlockSeq + written.length
          files := s.files.addDirs written
          past := s.past ++ trail } c.removal with
        blocks := sortBlocks (without s.blocks group ++ written) } := by
  obtain ⟨more, heq, hmore, hstages⟩ := removeBlocks_spec { s with
    nextBlockSeq := s.nextBlockSeq + written.length
    files := s.files.addDirs written
    past := s.past ++ trail } c.removal
  rw [heq]
  refine ⟨rfl, rfl, rfl, rfl, without_sublist, hinputs ▸ pick_sublist hgroup, hremoval,
    hinputs ▸ without_append_pick hgroup, hreplaces, hseqs, rfl, rfl, rfl, trail ++ more, by simp, ?_, ?_⟩
  · intro f hmem
    obtain hmem | hmem := mem_append.mp hmem
    · obtain ⟨n, rfl⟩ := htrail f hmem
      exact .writing n
    · exact .removing (hmore f hmem)
  · exact fun j hj => mem_append_right _ (hstages j hj)

theorem mergeRound_spec (hs : s.Sound) (hf : s.Filed)
    (hgroup : group.Sublist (range s.blocks.length)) (hlen : 2 ≤ group.length) :
    ∃ written s', s.mergeRound group = (s', true) ∧
      Round s (.merge (pick s.blocks group)) (without s.blocks group) written s' := by
  have hinputs : ∀ b ∈ pick s.blocks group, b.Sound := fun b hb => hs.blocks b ((pick_sublist hgroup).mem hb)
  have hne : pick s.blocks group ≠ [] := by
    obtain ⟨i, hi⟩ := exists_mem_of_ne_nil group (by rintro rfl; simp at hlen)
    have hlt := mem_range.mp (hgroup.mem hi)
    exact ne_nil_of_mem (mem_filterMap.mpr ⟨i, hi, getElem?_eq_getElem hlt⟩)
  obtain ⟨b, hb, hsound, hseq, hheld, hsub⟩ := mergeBlocks_spec s.nextBlockSeq hinputs hne
  have htrail : ∀ f ∈ [s.files], ∃ n, f = s.files.addDirs ([b].take n) := by
    intro f hmem
    exact ⟨0, (mem_singleton.mp hmem).trans (addDirs_nil _).symm⟩
  refine ⟨[b], _, ?_, round_of_writes hgroup rfl (Perm.refl _) (replaces_merge hsound hheld hsub)
    (by simp [hseq]) htrail⟩
  rw [mergeRound, allocBlockSeq_eq hf.below_files]
  simp only [show group.filterMap (fun i => s.blocks[i]?) = pick s.blocks group from rfl, hb]
  rfl

theorem wideRound_spec (hf : s.Filed) {o : TsdbOptions}
    (hplan : planWide s.blocks o.blockSpanMs maxMergeInputs wideFoldMaxSamples = some group) :
    ∃ written s', s.wideRound o = (s', true) ∧
      Round s (.fold (pick s.blocks group) o.blockSpanMs) (without s.blocks group) written s' := by
  obtain ⟨windows, hwindows, hnodup, hfolded, hcover⟩ := wideFoldCollect_spec
  obtain ⟨trail, hwrite, htrail⟩ := writeWindows_spec s windows hf.below_files
  have hlen : windows.length = (windowBlocks s.nextBlockSeq windows).length := by
    have hseqs := congrArg length (windowBlocks_seqs s.nextBlockSeq windows)
    simpa using hseqs.symm
  refine ⟨_, _, ?_, round_of_writes (planWide_sublist hplan) rfl (reverse_perm _)
    (replaces_fold s.nextBlockSeq hnodup hfolded hcover) (by rw [windowBlocks_seqs, hlen]) htrail⟩
  simp only [wideRound, hplan, show group.filterMap (fun i => s.blocks[i]?) = pick s.blocks group from rfl, hwindows,
    hwrite, hlen]
  rfl

def nextCompaction (s : Store) (o : TsdbOptions) : Option Compaction :=
  match (plan s.blocks o.blockSpanMs).filter (fun group => 2 ≤ (group.take maxMergeInputs).length) with
  | some group => some (.merge (pick s.blocks (group.take maxMergeInputs)))
  | none =>
    (planWide s.blocks o.blockSpanMs maxMergeInputs wideFoldMaxSamples).map
      (fun group => .fold (pick s.blocks group) o.blockSpanMs)

theorem compactRound_wide (hf : s.Filed) {o : TsdbOptions} (hround : s.compactRound o = s.wideRound o)
    (hnext : s.nextCompaction o = (planWide s.blocks o.blockSpanMs maxMergeInputs wideFoldMaxSamples).map
      (fun group => .fold (pick s.blocks group) o.blockSpanMs)) :
    (s.nextCompaction o = none ∧ s.compactRound o = (s, false)) ∨
      ∃ c rest written s', s.nextCompaction o = some c ∧ s.compactRound o = (s', true) ∧ Round s c rest written s' := by
  cases hwide : planWide s.blocks o.blockSpanMs maxMergeInputs wideFoldMaxSamples with
  | none =>
    rw [hnext, hround, hwide]
    exact .inl ⟨rfl, by rw [wideRound, hwide]⟩
  | some group =>
    obtain ⟨written, s', heq, hr⟩ := wideRound_spec hf hwide
    rw [hnext, hround, hwide]
    exact .inr ⟨_, _, written, s', rfl, heq, hr⟩

theorem compactRound_spec (hs : s.Sound) (hf : s.Filed) (o : TsdbOptions) :
    (s.nextCompaction o = none ∧ s.compactRound o = (s, false)) ∨
      ∃ c rest written s', s.nextCompaction o = some c ∧ s.compactRound o = (s', true) ∧ Round s c rest written s' := by
  cases hplan : plan s.blocks o.blockSpanMs with
  | none => exact compactRound_wide hf (by rw [compactRound, hplan]) (by rw [nextCompaction, hplan]; rfl)
  | some group =>
    by_cases hlen : 2 ≤ (group.take maxMergeInputs).length
    · obtain ⟨written, s', heq, hround⟩ :=
        mergeRound_spec hs hf ((take_sublist _ _).trans (plan_sublist hplan).2) hlen
      refine .inr ⟨_, _, written, s', ?_, ?_, hround⟩
      · rw [nextCompaction, hplan, filter_some, if_pos (decide_eq_true hlen)]
      · rw [compactRound, hplan]
        exact (if_pos hlen).trans heq
    · refine compactRound_wide hf ?_ ?_
      · rw [compactRound, hplan]
        exact if_neg hlen
      · rw [nextCompaction, hplan, filter_some, if_neg (by simpa using hlen)]

end Store

namespace Round

variable {s s' : Store} {c : Compaction} {rest written : List Block}

section

variable (h : Round s c rest written s')

include h

theorem mem_blocks : b ∈ s'.blocks ↔ b ∈ rest ∨ b ∈ written := by
  rw [h.blocks, sortBlocks, mem_sortByKey, mem_append]

theorem fresh (hb : b ∈ written) : s.nextBlockSeq ≤ b.seq ∧ b.seq < s.nextBlockSeq + written.length := by
  have hmem : b.seq ∈ range' s.nextBlockSeq written.length := h.seqs ▸ mem_map.mpr ⟨b, hb, rfl⟩
  exact mem_range'_1.mp hmem

theorem sound (hs : s.Sound) : s'.Sound := by
  refine ⟨h.head.symm ▸ hs.head, fun b hb => ?_⟩
  obtain hb | hb := h.mem_blocks.mp hb
  · exact hs.blocks b (h.rest_sublist.mem hb)
  · exact h.replaces.sound b hb

theorem mem_removal : n ∈ c.removal.map seq ↔ n ∈ c.inputs.map seq := (h.removal.map seq).mem_iff

section

variable (hf : s.Filed)

include hf

theorem rest_apart (hb : b ∈ rest) : b.seq ∉ c.inputs.map seq := by
  have hnodup := (h.perm.map seq).nodup_iff.mpr hf.seqs
  rw [map_append, nodup_append] at hnodup
  exact fun hin => hnodup.2.2 _ (mem_map_of_mem hb) _ hin rfl

theorem not_mem_inputs (hb : b ∈ written) : b.seq ∉ c.inputs.map seq := by
  intro hin
  obtain ⟨c, hc, hseq⟩ := mem_map.mp hin
  have hlt := hf.below c (h.inputs_sublist.mem hc)
  have hge := (h.fresh hb).1
  omega

theorem filed : s'.Filed :=
  hf.swap ((h.removal.append_left rest).trans h.perm) h.seqs h.nextBlockSeq h.blocks (by rw [h.files])

theorem nodup_all : ((s.files.blocks ++ written).map seq).Nodup :=
  ((hf.dirs.append_right written).map seq).nodup_iff.mpr (hf.nodup_append written h.seqs)

theorem rearranged (hstage : Stage s.files c.removal written f) : Rearranged s.files c.inputs written f := by
  cases hstage with
  | writing m =>
    refine ⟨rfl, ?_, fun b hb => .inl ?_⟩
    · rw [blocks_addDirs]
      exact (take_sublist m written).append_left _
    · rw [blocks_addDirs]
      exact mem_append_left _ hb
  | removing hremoving =>
    obtain ⟨hlog, j, hblocks⟩ := hremoving.blocks_eq
    rw [blocks_addDirs] at hblocks
    have hgone : ∀ n, n ∈ (c.removal.take j).map seq → n ∈ c.inputs.map seq :=
      fun n hn => h.mem_removal.mp (((take_sublist j c.removal).map seq).mem hn)
    have hmem : ∀ {b}, b ∈ s.files.blocks ++ written → b.seq ∉ c.inputs.map seq → b ∈ f.blocks :=
      fun hb hseq => hblocks ▸ mem_filter.mpr ⟨hb, decide_eq_true fun hin => hseq (hgone _ hin)⟩
    refine ⟨hlog, hblocks ▸ filter_sublist, fun b hb => ?_⟩
    by_cases hin : b.seq ∈ c.inputs.map seq
    · obtain ⟨b', hb', hseq⟩ := mem_map.mp hin
      obtain rfl := hf.eq_of_seq (h.inputs_sublist.mem hb') (hf.dirs.mem_iff.mp hb) hseq
      exact .inr ⟨hb', fun w hw => hmem (mem_append_right _ hw) (h.not_mem_inputs hf hw)⟩
    · exact .inl (hmem (mem_append_left _ hb) hin)

theorem rearranged_end : Rearranged s.files c.inputs written s'.files :=
  h.rearranged hf (.removing ⟨c.removal.length, .inl (by rw [h.files, take_length])⟩)

theorem rearranged_past : ∀ f ∈ s'.past, f ∈ s.past ∨ Rearranged s.files c.inputs written f := by
  obtain ⟨trail, hpast, hstages, -⟩ := h.past
  intro f hmem
  rw [hpast] at hmem
  obtain hmem | hmem := mem_append.mp hmem
  · exact .inl hmem
  · exact .inr (h.rearranged hf (hstages f hmem))

end

end

end Round

namespace Store

section Others

variable {s : Store}

theorem addBlock_eq (hf : s.Filed) (level : Nat) (series : FlushedSeries) : s.addBlock level series = { s with
      blocks := sortBlocks (s.blocks ++ [writeBlock s.nextBlockSeq level series])
      nextBlockSeq := s.nextBlockSeq + 1
      files := addDir (writeBlock s.nextBlockSeq level series) s.files
      past := s.past ++ [s.files] } := by
  rw [addBlock, allocBlockSeq_eq hf.below_files]
  rfl

theorem Filed.addBlock (hf : s.Filed) (level : Nat) (series : FlushedSeries) : (s.addBlock level series).Filed := by
  have hperm : (s.blocks ++ []).Perm s.blocks := .of_eq (append_nil _)
  have hseqs : [writeBlock s.nextBlockSeq level series].map seq = range' s.nextBlockSeq 1 := rfl
  rw [addBlock_eq hf]
  exact hf.swap hperm hseqs rfl rfl (by rw [withoutDirs_nil]; rfl)

structure Expired (s s' : Store) : Prop where
  store : s' = { s with blocks := s'.blocks, files := { s'.files with log := s.files.log }, past := s'.past }
  blocks : s'.blocks.Sublist s.blocks
  filed : s'.Filed
  past : ∀ f ∈ s'.past, f ∈ s.past ∨ f.log = s.files.log ∧ f.blocks.Sublist s.files.blocks

theorem Expired.head {s' : Store} (h : Expired s s') : s'.head = s.head := by rw [h.store]

theorem Expired.log {s' : Store} (h : Expired s s') : s'.files.log = s.files.log := by rw [h.store]

theorem expire_spec (hf : s.Filed) (o : TsdbOptions) : Expired s (s.expire o) := by
  unfold expire
  split
  case h_1 => exact ⟨rfl, Sublist.refl _, hf, fun f hmem => .inl hmem⟩
  case h_2 retention hretention =>
    set cutoff := saturatingSub s.head.maxTs retention
    obtain ⟨trail, heq, htrail, -⟩ := removeBlocks_spec s (s.blocks.filter (fun b => b.maxTs < cutoff))
    simp only [heq]
    refine ⟨rfl, filter_sublist, ?_, fun f hmem => ?_⟩
    · have hsub : (dropExpired s.blocks cutoff).Sublist s.blocks := filter_sublist
      refine ⟨?_, fun d hd => hf.complete d (mem_of_mem_filter hd),
        hf.seqs.sublist (hsub.map seq), fun b hb => hf.below b (hsub.mem hb), hf.sorted.sublist hsub⟩
      have hkeep : s.blocks.filter
          (fun b => b.seq ∉ (s.blocks.filter (fun b => b.maxTs < cutoff)).map seq) =
            dropExpired s.blocks cutoff := by
        refine filter_congr fun b hb => decide_eq_decide.mpr ?_
        rw [← not_lt, not_iff_not]
        constructor
        · intro hin
          obtain ⟨c, hc, hseq⟩ := mem_map.mp hin
          obtain ⟨hc, hold⟩ := mem_filter.mp hc
          rw [← hf.eq_of_seq hc hb hseq]
          exact of_decide_eq_true hold
        · exact fun hold => mem_map.mpr ⟨b, mem_filter.mpr ⟨hb, decide_eq_true hold⟩, rfl⟩
      have hperm := hf.dirs.filter
        (fun b => b.seq ∉ (s.blocks.filter (fun b => b.maxTs < cutoff)).map seq)
      rw [hkeep, Files.blocks, List.filter_map] at hperm
      exact hperm
    · obtain hmem | hmem := mem_append.mp hmem
      · exact .inl hmem
      · obtain ⟨hlog, j, hblocks⟩ := (htrail f hmem).blocks_eq
        exact .inr ⟨hlog, hblocks ▸ filter_sublist⟩

end Others

theorem compactRounds_induction {p : Store → Prop} (o : TsdbOptions)
    (hround : ∀ {s c rest written s'}, s.Sound → s.Filed → p s → Round s c rest written s' → p s')
    (rounds : Nat) {s : Store} (hs : s.Sound) (hf : s.Filed) (hp : p s) :
    (compactRounds o rounds s).Sound ∧ (compactRounds o rounds s).Filed ∧ p (compactRounds o rounds s) := by
  induction rounds generalizing s with
  | zero => exact ⟨hs, hf, hp⟩
  | succ rounds ih =>
    obtain ⟨-, heq⟩ | ⟨c, rest, written, s', -, heq, hr⟩ := compactRound_spec hs hf o
    · rw [compactRounds, heq]
      exact ⟨hs, hf, hp⟩
    · rw [compactRounds, heq]
      exact ih (hr.sound hs) (hr.filed hf) (hround hs hf hp hr)

end Store

end Rounds

end Skaidb.Tsdb
