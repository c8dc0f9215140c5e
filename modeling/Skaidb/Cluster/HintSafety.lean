import Skaidb.Cluster.HintLog

namespace Skaidb.Cluster

open Skaidb.Base Skaidb.Storage List OrdMap HintFiles Function Drain

variable {lossy : Bytes → String}

structure Drain.Shape (d : Drain) : Prop where
  eof : d.stream.eof = true → d.stream.unread = []
  idle : d.stage = .reading ∨ d.stage = .returning → d.tasks = []

theorem Drain.Shape.pending_idle {d : Drain} (h : d.Shape) (hstage : d.stage = .reading ∨ d.stage = .returning)
    (lossy : Bytes → String) (claimed : List Hint) : d.pending lossy claimed =
      recordsIn lossy (d.stream.buf ++ d.stream.unread) := by
  rcases hstage with hstage | hstage <;> simp [Drain.pending, hstage, h.idle]

namespace HintFiles

structure Inv (lossy : Bytes → String) (s : HintFiles) : Prop where
  fits : ∀ p ∈ s.spilled, p.2.Fits
  names : ∀ p ∈ s.spilled, ∀ q ∈ s.spilled, safeName p.1 = safeName q.1 → p.1 = q.1
  live : ∀ path, ∀ h ∈ s.liveRecords lossy path, ∃ r, safeName r = path ∧ (r, h) ∈ s.spilled
  covered : ∀ p ∈ s.spilled, p ∈ s.acked ∨ p.2 ∈ s.liveRecords lossy (safeName p.1) ∨
    ∃ t d, s.drain t = some d ∧ d.replica = p.1 ∧ p.2 ∈ d.pending lossy (s.claimedRecords lossy d.path)
  alone : ∀ t t' d d', s.drain t = some d → s.drain t' = some d' → d.path = d'.path → t = t'
  shape : ∀ t d, s.drain t = some d → d.Shape
  own : ∀ t d, s.drain t = some d → ∀ h ∈ d.pending lossy (s.claimedRecords lossy d.path),
    (d.replica, h) ∈ s.spilled ∧ h ∈ s.claimedRecords lossy d.path
  sent : ∀ p ∈ s.sent, p ∈ s.spilled

theorem Inv.safe {s : HintFiles} (h : s.Inv lossy) : s.Safe lossy := by
  refine ⟨?_, h.sent⟩
  intro p hp
  obtain hacked | hlive | ⟨t, d, hd, hr, hpending⟩ := h.covered p hp
  · exact .inl hacked
  · exact .inr (.inl hlive)
  · refine .inr (.inr ⟨?_, t, d, hd, hr⟩)
    rw [← hr]
    exact (h.own t d hd p.2 hpending).2

theorem Inv.start : (start).Inv lossy where
  fits := by simp [HintFiles.start]
  names := by simp [HintFiles.start]
  live := by simp [HintFiles.start, liveRecords]
  covered := by simp [HintFiles.start]
  alone := by simp [HintFiles.start]
  shape := by simp [HintFiles.start]
  own := by simp [HintFiles.start]
  sent := by simp [HintFiles.start]

variable {replica : NodeId}

section Appends

variable {s : HintFiles}

theorem mem_liveRecords_append {path other : String} (h : WholeLog lossy ((s.live path).getD [])) {bytes : Bytes} :
    x ∈ (s.append path bytes).liveRecords lossy other ↔
      x ∈ s.liveRecords lossy other ∨ other = path ∧ x ∈ recordsIn lossy bytes := by
  unfold liveRecords append
  by_cases hpath : other = path
  · subst hpath
    simp only [update_self, Option.getD_some, true_and]
    rw [show recordsIn lossy (_ ++ bytes) = _ from Decoder.values_append h, mem_append]
    rfl
  · simp [hpath]

theorem Inv.spill (h : s.Inv lossy) {hint : Hint}
    (hc : s.Careful lossy (.spill replica hint)) : (s.step lossy (.spill replica hint)).Inv lossy := by
  obtain ⟨hfits, hwhole, hname⟩ := hc
  have hrecords : ∀ path x, x ∈ (s.step lossy (.spill replica hint)).liveRecords lossy path ↔
      x ∈ s.liveRecords lossy path ∨ path = safeName replica ∧ x = hint := by
    intro path x
    refine (mem_liveRecords_append hwhole).trans ?_
    rw [recordsIn_encode hfits, mem_singleton]
  constructor
  · exact forall_mem_cons.mpr ⟨hfits, h.fits⟩
  · intro p hp q hq hsafe
    obtain rfl | hp := mem_cons.mp hp
    · obtain rfl | hq := mem_cons.mp hq
      · rfl
      · exact (hname q hq hsafe.symm).symm
    · obtain rfl | hq := mem_cons.mp hq
      · exact hname p hp hsafe
      · exact h.names p hp q hq hsafe
  · intro path x hx
    obtain hx | ⟨rfl, rfl⟩ := (hrecords path x).mp hx
    · obtain ⟨r, hr, hmem⟩ := h.live path x hx
      exact ⟨r, hr, mem_cons_of_mem _ hmem⟩
    · exact ⟨replica, rfl, mem_cons_self⟩
  · intro p hp
    obtain rfl | hp := mem_cons.mp hp
    · exact .inr (.inl ((hrecords _ _).mpr (.inr ⟨rfl, rfl⟩)))
    · obtain hacked | hlive | hdrain := h.covered p hp
      · exact .inl hacked
      · exact .inr (.inl ((hrecords _ _).mpr (.inl hlive)))
      · exact .inr (.inr hdrain)
  · exact h.alone
  · exact h.shape
  · intro t d hd x hx
    exact ⟨mem_cons_of_mem _ (h.own t d hd x hx).1, (h.own t d hd x hx).2⟩
  · exact fun p hp => mem_cons_of_mem _ (h.sent p hp)

theorem Inv.tornSpill (h : s.Inv lossy) {hint : Hint} {kept : Nat}
    (hc : s.Careful lossy (.tornSpill replica hint kept)) :
    (s.step lossy (.tornSpill replica hint kept)).Inv lossy := by
  obtain ⟨hfits, hwhole, hkept⟩ := hc
  have hrecords : ∀ path x, x ∈ (s.step lossy (.tornSpill replica hint kept)).liveRecords lossy path ↔
      x ∈ s.liveRecords lossy path := by
    intro path x
    refine (mem_liveRecords_append hwhole).trans ?_
    rw [recordsIn_torn hfits hkept]
    simp
  constructor
  · exact h.fits
  · exact h.names
  · exact fun path x hx => h.live path x ((hrecords path x).mp hx)
  · intro p hp
    rw [hrecords]
    exact h.covered p hp
  · exact h.alone
  · exact h.shape
  · exact h.own
  · exact h.sent

end Appends

section Drains

variable {s : HintFiles} {d : Drain}

theorem mem_flushers : t ∈ flushers := by
  cases t <;> simp [flushers]

private theorem eq_or_of_update {f : Flusher → Option Drain} {t t' : Flusher} {d e : Drain}
    (h : update f t (some d) t' = some e) : (t' = t ∧ e = d) ∨ t' ≠ t ∧ f t' = some e := by
  by_cases ht : t' = t
  · subst ht
    rw [update_self] at h
    cases h
    exact .inl ⟨rfl, rfl⟩
  · rw [update_of_ne ht] at h
    exact .inr ⟨ht, h⟩

theorem Inv.claim (h : s.Inv lossy) (hfree : s.drain t = none)
    (hc : s.Careful lossy (.claim t replica)) : (s.claim t replica).Inv lossy := by
  obtain ⟨halone, hname⟩ := hc
  have hapart : ∀ t' d, s.drain t' = some d → d.path ≠ safeName replica :=
    fun t' d hd => halone t' mem_flushers d hd
  unfold HintFiles.claim
  cases hlive : s.live (safeName replica) with
  | none => exact h
  | some data =>
    have hrecords : s.liveRecords lossy (safeName replica) = recordsIn lossy data := by
      rw [liveRecords, hlive]
      rfl
    have hother : ∀ path, path ≠ safeName replica →
        recordsIn lossy ((update s.draining (safeName replica) (some data) path).getD []) =
          s.claimedRecords lossy path := by
      intro path hne
      rw [update_of_ne hne]
      rfl
    have hclaimed : recordsIn lossy
        ((update s.draining (safeName replica) (some data) (safeName replica)).getD []) =
          recordsIn lossy data := by
      rw [update_self]
      rfl
    constructor
    · exact h.fits
    · exact h.names
    · intro path x hx
      by_cases hpath : path = safeName replica
      · subst hpath
        simp [liveRecords] at hx
      · refine h.live path x ?_
        simpa [liveRecords, update_of_ne hpath] using hx
    · intro p hp
      obtain hacked | hmem | ⟨t', d, hd, hr, hpending⟩ := h.covered p hp
      · exact .inl hacked
      · by_cases hpath : safeName p.1 = safeName replica
        · refine .inr (.inr ⟨t, _, update_self .., (hname p hp hpath).symm, ?_⟩)
          show p.2 ∈ recordsIn lossy _
          rw [show (⟨replica, .claimed, ⟨[], [], false⟩, [], false⟩ : Drain).path = safeName replica from rfl,
            hclaimed, ← hrecords, ← hpath]
          exact hmem
        · refine .inr (.inl ?_)
          simpa [liveRecords, update_of_ne hpath] using hmem
      · have hne : t' ≠ t := by
          rintro rfl
          rw [hfree] at hd
          cases hd
        refine .inr (.inr ⟨t', d, ?_, hr, ?_⟩)
        · exact (update_of_ne hne _ _).trans hd
        · rw [claimedRecords, hother _ (hapart t' d hd)]
          exact hpending
    · intro t₁ t₂ d₁ d₂ h₁ h₂ hpath
      obtain ⟨rfl, rfl⟩ | ⟨-, hs₁⟩ := eq_or_of_update h₁
      · obtain ⟨rfl, rfl⟩ | ⟨-, hs₂⟩ := eq_or_of_update h₂
        · rfl
        · exact absurd hpath.symm (hapart t₂ d₂ hs₂)
      · obtain ⟨rfl, rfl⟩ | ⟨-, hs₂⟩ := eq_or_of_update h₂
        · exact absurd hpath (hapart t₁ d₁ hs₁)
        · exact h.alone t₁ t₂ d₁ d₂ hs₁ hs₂ hpath
    · intro t' d hd
      obtain ⟨rfl, rfl⟩ | ⟨-, hs⟩ := eq_or_of_update hd
      · exact ⟨by simp, by simp⟩
      · exact h.shape t' d hs
    · intro t' d hd x hx
      obtain ⟨rfl, rfl⟩ | ⟨-, hs⟩ := eq_or_of_update hd
      · have hx : x ∈ recordsIn lossy data := by
          rw [← hclaimed]
          exact hx
        refine ⟨?_, by rw [claimedRecords]; exact hclaimed ▸ hx⟩
        rw [← hrecords] at hx
        obtain ⟨r, hr, hmem⟩ := h.live _ x hx
        rw [show r = replica from hname _ hmem hr] at hmem
        exact hmem
      · rw [claimedRecords, hother _ (hapart t' d hs)] at hx ⊢
        exact h.own t' d hs x hx
    · exact h.sent

section Replace

variable (h : s.Inv lossy) (hd : s.drain t = some d)

include h hd

section

variable (d' : Drain) (hreplica : d'.replica = d.replica) (hshape : d'.Shape)

include hreplica hshape

theorem Inv.replace {live' : String → Option Bytes} {acked' sent' : List (NodeId × Hint)}
    (hgrow : ∀ path, ∀ x ∈ s.liveRecords lossy path, x ∈ recordsIn lossy ((live' path).getD []))
    (hlive : ∀ path, ∀ x ∈ recordsIn lossy ((live' path).getD []), ∃ r, safeName r = path ∧ (r, x) ∈ s.spilled)
    (hacked : ∀ p ∈ s.acked, p ∈ acked') (hkeep : ∀ x ∈ d.pending lossy (s.claimedRecords lossy d.path),
      x ∈ d'.pending lossy (s.claimedRecords lossy d.path) ∨ (d.replica, x) ∈ acked' ∨
        x ∈ recordsIn lossy ((live' d.path).getD []))
    (hsub : ∀ x ∈ d'.pending lossy (s.claimedRecords lossy d.path),
      x ∈ d.pending lossy (s.claimedRecords lossy d.path)) (hsent : ∀ p ∈ sent', p ∈ s.spilled) :
    Inv lossy { s with
      live := live', drain := update s.drain t (some d'), acked := acked', sent := sent' } := by
  have hpath : d'.path = d.path := by rw [path, path, hreplica]
  constructor
  · exact h.fits
  · exact h.names
  · exact hlive
  · intro p hp
    obtain hp' | hp' | ⟨t', e, he, hr, hpending⟩ := h.covered p hp
    · exact .inl (hacked p hp')
    · exact .inr (.inl (hgrow _ _ hp'))
    · by_cases ht : t' = t
      · subst ht
        rw [hd] at he
        cases he
        obtain hx | hx | hx := hkeep p.2 hpending
        · refine .inr (.inr ⟨t', d', update_self .., hreplica.trans hr, ?_⟩)
          rw [hpath]
          exact hx
        · rw [hr] at hx
          exact .inl hx
        · rw [path, hr] at hx
          exact .inr (.inl hx)
      · exact .inr (.inr ⟨t', e, (update_of_ne ht _ _).trans he, hr, hpending⟩)
  · intro t₁ t₂ d₁ d₂ h₁ h₂ hp
    obtain ⟨rfl, rfl⟩ | ⟨-, hs₁⟩ := eq_or_of_update h₁
    · obtain ⟨rfl, rfl⟩ | ⟨-, hs₂⟩ := eq_or_of_update h₂
      · rfl
      · exact h.alone t₁ t₂ d d₂ hd hs₂ (hpath.symm.trans hp)
    · obtain ⟨rfl, rfl⟩ | ⟨-, hs₂⟩ := eq_or_of_update h₂
      · exact h.alone t₁ t₂ d₁ d hs₁ hd (hp.trans hpath)
      · exact h.alone t₁ t₂ d₁ d₂ hs₁ hs₂ hp
  · intro t' e he
    obtain ⟨rfl, rfl⟩ | ⟨-, hs⟩ := eq_or_of_update he
    · exact hshape
    · exact h.shape t' e hs
  · intro t' e he x hx
    obtain ⟨rfl, rfl⟩ | ⟨-, hs⟩ := eq_or_of_update he
    · have hx : x ∈ e.pending lossy (s.claimedRecords lossy e.path) := hx
      rw [hpath] at hx
      obtain ⟨hspilled, hclaimed⟩ := h.own t' d hd x (hsub x hx)
      refine ⟨hreplica ▸ hspilled, ?_⟩
      rw [hpath]
      exact hclaimed
    · exact h.own t' e hs x hx
  · exact hsent

theorem Inv.redrain (hsame : ∀ x, x ∈ d'.pending lossy (s.claimedRecords lossy d.path) ↔
      x ∈ d.pending lossy (s.claimedRecords lossy d.path)) {sent' : List (NodeId × Hint)}
    (hsent : ∀ p ∈ sent', p ∈ s.spilled) :
    Inv lossy { s with drain := update s.drain t (some d'), sent := sent' } :=
  h.replace hd d' hreplica hshape (fun _ _ hx => hx) h.live (fun _ hp => hp)
    (fun x hx => .inl ((hsame x).mpr hx)) (fun x hx => (hsame x).mp hx) hsent

theorem Inv.handBack (hwhole : WholeLog lossy ((s.live d.path).getD [])) (bytes : Bytes)
    (hmoved : ∀ x, x ∈ d.pending lossy (s.claimedRecords lossy d.path) ↔
      x ∈ recordsIn lossy bytes ∨ x ∈ d'.pending lossy (s.claimedRecords lossy d.path)) :
    ((s.append d.path bytes).setDrain t (some d')).Inv lossy := by
  refine h.replace hd d' hreplica hshape (fun path x hx => (mem_liveRecords_append hwhole).mpr (.inl hx)) ?_
    (fun _ hp => hp) ?_ (fun x hx => (hmoved x).mpr (.inr hx)) h.sent
  · intro path x hx
    obtain hold | ⟨rfl, hnew⟩ := (mem_liveRecords_append hwhole).mp hx
    · exact h.live path x hold
    · exact ⟨d.replica, rfl, (h.own t d hd x ((hmoved x).mpr (.inl hnew))).1⟩
  · intro x hx
    obtain hx | hx := (hmoved x).mp hx
    · exact .inr (.inr ((mem_liveRecords_append hwhole).mpr (.inr ⟨rfl, hx⟩)))
    · exact .inl hx

end

theorem Inv.removeDraining (hnone : d.pending lossy (s.claimedRecords lossy d.path) = []) :
    (s.removeDraining t d).Inv lossy := by
  have hrest : ∀ t' e, update s.drain t none t' = some e → t' ≠ t ∧ s.drain t' = some e := by
    intro t' e he
    by_cases ht : t' = t
    · subst ht
      rw [update_self] at he
      cases he
    · exact ⟨ht, (update_of_ne ht _ _).symm.trans he⟩
  have hother : ∀ t' e, t' ≠ t → s.drain t' = some e →
      recordsIn lossy ((update s.draining d.path none e.path).getD []) =
        s.claimedRecords lossy e.path := by
    intro t' e ht he
    rw [update_of_ne (fun hp => ht (h.alone t' t e d he hd hp))]
    rfl
  unfold HintFiles.removeDraining
  constructor
  · exact h.fits
  · exact h.names
  · exact h.live
  · intro p hp
    obtain hp' | hp' | ⟨t', e, he, hr, hpending⟩ := h.covered p hp
    · exact .inl hp'
    · exact .inr (.inl hp')
    · have ht : t' ≠ t := by
        rintro rfl
        rw [hd] at he
        cases he
        rw [hnone] at hpending
        cases hpending
      refine .inr (.inr ⟨t', e, (update_of_ne ht _ _).trans he, hr, ?_⟩)
      rw [claimedRecords, hother t' e ht he]
      exact hpending
  · intro t₁ t₂ d₁ d₂ h₁ h₂ hp
    exact h.alone t₁ t₂ d₁ d₂ (hrest t₁ d₁ h₁).2 (hrest t₂ d₂ h₂).2 hp
  · intro t' e he
    exact h.shape t' e (hrest t' e he).2
  · intro t' e he x hx
    obtain ⟨ht, he⟩ := hrest t' e he
    rw [claimedRecords, hother t' e ht he] at hx ⊢
    exact h.own t' e he x hx
  · exact h.sent

end Replace

end Drains

section Steps

variable {s : HintFiles} {d : Drain}

theorem pending_settle (heof : d.stream.eof = true → d.stream.unread = []) (claimed : List Hint) :
    d.settle.pending lossy claimed =
    d.tasks.flatMap HintTask.hints ++ recordsIn lossy (d.stream.buf ++ d.stream.unread) := by
  cases htasks : d.tasks with
  | cons task rest =>
    unfold Drain.settle Drain.pending
    rw [htasks]
  | nil =>
    unfold Drain.settle
    rw [htasks]
    split_ifs with haborted hend
    · simp [Drain.pending]
    · -- the end is seen and nothing is buffered
      simp only [Bool.and_eq_true, List.isEmpty_iff] at hend
      simp [Drain.pending, heof hend.1, hend.2]
    · simp [Drain.pending]

theorem shape_settle (heof : d.stream.eof = true → d.stream.unread = []) : d.settle.Shape := by
  unfold Drain.settle
  cases htasks : d.tasks with
  | nil => exact ⟨heof, fun _ => rfl⟩
  | cons task rest => exact ⟨heof, by simp⟩

theorem replica_settle : d.settle.replica = d.replica := by
  unfold Drain.settle
  cases d.tasks <;> rfl

theorem mem_groups {page : List Hint} : x ∈ ((OrdMap.gather (page.map (fun h => (h.table, [h])))).entries.map
      (fun g => HintTask.send g.1 g.2)).flatMap HintTask.hints ↔ x ∈ page := by
  simp only [mem_flatMap, mem_map]
  constructor
  · rintro ⟨_, ⟨⟨table, rows⟩, hg, rfl⟩, hx⟩
    rw [mem_gather] at hg
    rw [hg.2, under_map_singleton, map_id'] at hx
    exact mem_of_mem_filter hx
  · intro hx
    refine ⟨_, ⟨(x.table, _), mem_gather.mpr ⟨?_, rfl⟩, rfl⟩, ?_⟩
    · exact mem_map.mpr ⟨(x.table, [x]), mem_map.mpr ⟨x, hx, rfl⟩, rfl⟩
    · show x ∈ under _ _
      rw [under_map_singleton, map_id']
      exact mem_filter.mpr ⟨hx, by simp⟩

section

variable (h : s.Inv lossy)

include h

section

variable (hd : s.drain t = some d)

include hd

theorem Inv.openClaimed : (s.openClaimed t true d).Inv lossy := by
  unfold HintFiles.openClaimed
  cases hstage : d.stage with
  | claimed =>
    cases hdata : s.draining d.path with
    | none =>
      refine h.removeDraining hd ?_
      rw [Drain.pending, hstage, claimedRecords, hdata]
      exact recordsIn_nil
    | some data =>
      have hpending : d.pending lossy (s.claimedRecords lossy d.path) = recordsIn lossy data := by
        rw [Drain.pending, hstage, claimedRecords, hdata]
        rfl
      refine h.redrain hd ⟨d.replica, .reading, ⟨[], data, false⟩, [], false⟩ rfl
        ⟨fun heof => (by cases heof), fun _ => rfl⟩ ?_ h.sent
      rw [hpending]
      exact fun x => Iff.rfl
  | reading | handling | returning | removing => exact h

theorem Inv.readPage (hstage : d.stage = .reading) : (s.setDrain t (some (d.readPage lossy true))).Inv lossy := by
  have hshape := h.shape t d hd
  have hpending := hshape.pending_idle (.inl hstage) lossy (s.claimedRecords lossy d.path)
  have hfuel : d.stream.measure < 2 * d.stream.unread.length + d.stream.buf.length + 2 := by
    unfold Decoder.Stream.measure
    split_ifs <;> omega
  obtain ⟨hvalues, heof, hend⟩ := @Decoder.fill_spec _ _ (decodeHintRecord lossy) hintPageRecords hintReadChunk
    (bounded_decodeHintRecord lossy) (takes_decodeHintRecord lossy) (by decide) _ [] d.stream hfuel hshape.eof
  change recordsIn lossy _ = _ ++ recordsIn lossy _ at hvalues
  unfold Drain.readPage
  generalize Decoder.fill (decodeHintRecord lossy) hintPageRecords hintReadChunk true _ [] d.stream = r at *
  obtain ⟨page, stream⟩ := r
  simp only at hvalues heof hend ⊢
  rw [hvalues] at hpending
  split_ifs with hempty
  · rw [List.isEmpty_iff] at hempty
    subst hempty
    have hnone : recordsIn lossy (stream.buf ++ stream.unread) = [] := (hend (by decide)).2
    rw [hnone, append_nil] at hpending
    refine h.redrain hd { d with stream := stream, stage := .removing } rfl ⟨heof, by simp⟩ ?_ h.sent
    rw [hpending]
    exact fun x => Iff.rfl
  · let d' : Drain :=
      { d with
        stream := stream
        tasks := (OrdMap.gather (page.map (fun h => (h.table, [h])))).entries.map (fun g => .send g.1 g.2)
        stage := .handling }
    refine h.redrain hd d' rfl ⟨heof, by simp [d']⟩ ?_ h.sent
    intro x
    rw [hpending, Drain.pending, List.mem_append, List.mem_append, mem_groups]

theorem Inv.send (ok : Bool) : (s.send t ok d).Inv lossy := by
  have hshape := h.shape t d hd
  unfold HintFiles.send
  cases hstage : d.stage with
  | handling =>
    cases htasks : d.tasks with
    | nil => exact h
    | cons task rest =>
      cases task with
      | respill hint => exact h
      | send table rows =>
        have hpending : d.pending lossy (s.claimedRecords lossy d.path) =
            rows ++ (rest.flatMap HintTask.hints ++ recordsIn lossy (d.stream.buf ++ d.stream.unread)) := by
          rw [Drain.pending, hstage, htasks, flatMap_cons, append_assoc]
          rfl
        have hbatch : ∀ p ∈ rows.map (fun x => (d.replica, x)) ++ s.sent, p ∈ s.spilled := by
          intro p hp
          obtain hp | hp := mem_append.mp hp
          · obtain ⟨x, hx, rfl⟩ := mem_map.mp hp
            exact (h.own t d hd x (by rw [hpending]; exact mem_append_left _ hx)).1
          · exact h.sent p hp
        cases ok with
        | true =>
          have hnew := @pending_settle lossy { d with tasks := rest } hshape.eof
            (s.claimedRecords lossy d.path)
          refine h.replace hd ({ d with tasks := rest } : Drain).settle replica_settle
            (shape_settle hshape.eof) (fun _ _ hx => hx) h.live
            (fun p hp => mem_append_right _ hp) ?_ ?_ hbatch
          · intro x hx
            rw [hpending] at hx
            obtain hx | hx := mem_append.mp hx
            · exact .inr (.inl (mem_append_left _ (mem_map_of_mem hx)))
            · exact .inl (hnew ▸ hx)
          · intro x hx
            rw [hpending]
            exact mem_append_right _ (hnew ▸ hx)
        | false =>
          have hsame : d.giveUp.settle.pending lossy (s.claimedRecords lossy d.path) =
              d.pending lossy (s.claimedRecords lossy d.path) := by
            rw [pending_settle (d := d.giveUp) hshape.eof, hpending, giveUp, htasks,
              flatMap_map, flatMap_cons, ← append_assoc]
            simp [HintTask.hints, flatMap_singleton']
          refine h.redrain hd d.giveUp.settle replica_settle (shape_settle hshape.eof) ?_ hbatch
          rw [hsame]
          exact fun x => Iff.rfl
  | claimed | reading | returning | removing => exact h

theorem Inv.respill (hwhole : WholeLog lossy ((s.live d.path).getD [])) : (s.respill t none d).Inv lossy := by
  have hshape := h.shape t d hd
  unfold HintFiles.respill
  cases hstage : d.stage with
  | handling =>
    cases htasks : d.tasks with
    | nil => exact h
    | cons task rest =>
      cases task with
      | send table rows => exact h
      | respill hint =>
        have hpending : d.pending lossy (s.claimedRecords lossy d.path) =
            hint :: (rest.flatMap HintTask.hints ++ recordsIn lossy (d.stream.buf ++ d.stream.unread)) := by
          rw [Drain.pending, hstage, htasks, flatMap_cons]
          rfl
        have hspilled := (h.own t d hd hint (by rw [hpending]; exact mem_cons_self)).1
        refine h.handBack hd ({ d with tasks := rest } : Drain).settle replica_settle
          (shape_settle hshape.eof) hwhole (encodeHintRecord hint) ?_
        intro x
        rw [hpending, recordsIn_encode (h.fits _ hspilled), mem_singleton,
          @pending_settle lossy { d with tasks := rest } hshape.eof, mem_cons]
  | claimed | reading | returning | removing => exact h

theorem Inv.giveBack (hwhole : WholeLog lossy ((s.live d.path).getD [])) {k l : Nat}
    (hk : d.stream.buf.length ≤ k) (hl : d.stream.unread.length ≤ l) : (s.giveBack t (some (k, l)) d).Inv lossy := by
  unfold HintFiles.giveBack
  cases hstage : d.stage with
  | returning =>
    have hpending := (h.shape t d hd).pending_idle (.inr hstage) lossy (s.claimedRecords lossy d.path)
    simp only [take_of_length_le hk, take_of_length_le hl]
    refine h.handBack hd { d with stage := .removing } rfl ⟨(h.shape t d hd).eof, by simp⟩ hwhole _ ?_
    intro x
    rw [hpending]
    exact (or_iff_left not_mem_nil).symm
  | claimed | reading | handling | removing => exact h

end

theorem Inv.crash (hnone : ∀ t, s.drain t = none) : (s.step lossy .crash).Inv lossy := by
  have hsame : s.step lossy .crash = s := by
    unfold step
    rw [show (fun _ => none) = s.drain from funext (fun t => (hnone t).symm)]
  rw [hsame]
  exact h

theorem Inv.onDrain {f : Drain → HintFiles}
    (hf : ∀ d, s.drain t = some d → (f d).Inv lossy) : (s.onDrain t f).Inv lossy := by
  unfold HintFiles.onDrain
  cases hd : s.drain t with
  | none => exact h
  | some d => exact hf d hd

theorem Inv.step (e : HintEvent) (hc : s.Careful lossy e) : (s.step lossy e).Inv lossy := by
  cases e with
  | spill replica hint => exact h.spill hc
  | tornSpill replica hint kept => exact h.tornSpill hc
  | claim t replica =>
    unfold HintFiles.step
    simp only
    split_ifs with hbusy
    · exact h
    · exact h.claim (by simpa using hbusy) hc
  | openClaimed t ok =>
    obtain rfl : ok = true := hc
    exact h.onDrain (fun d hd => h.openClaimed hd)
  | page t readable =>
    obtain rfl : readable = true := hc
    refine h.onDrain ?_
    intro d hd
    split_ifs with hstage
    · exact h.readPage hd hstage
    · exact h
  | send t ok => exact h.onDrain (fun d hd => h.send hd ok)
  | respill t kept =>
    obtain ⟨rfl, hwhole⟩ := hc
    exact h.onDrain (fun d hd => h.respill hd (hwhole d hd))
  | giveBack t kept =>
    refine h.onDrain ?_
    intro d hd
    obtain ⟨hwhole, ⟨k, l⟩, rfl, hk, hl⟩ := hc d hd
    exact h.giveBack hd hwhole hk hl
  | remove t =>
    refine h.onDrain ?_
    intro d hd
    split_ifs with hstage
    · exact h.removeDraining hd (by rw [Drain.pending, hstage])
    · exact h
  | crash => exact h.crash (fun t => hc t mem_flushers)

end

end Steps

theorem safe_run (lossy : Bytes → String) (events : List HintEvent)
    (hrun : Along (HintFiles.step lossy) (HintFiles.Careful lossy) start events) :
    (events.foldl (HintFiles.step lossy) start).Safe lossy :=
  (hrun.invariant (fun _ e h hc => Inv.step h e hc) Inv.start).safe

section Scenarios

def rowHint (key : UInt8) : Hint := ⟨"t", [key], .put [7], ⟨1, 0⟩⟩

def secondTry : List HintEvent :=
  [.spill ⟨"b"⟩ (rowHint 1), .spill ⟨"b"⟩ ⟨"u", [2], .delete, ⟨2, 0⟩⟩, .claim .worker ⟨"b"⟩,
    .openClaimed .worker true, .page .worker true, .send .worker true, .send .worker false,
    .respill .worker none, .giveBack .worker (some (0, 0)), .remove .worker, .crash, .claim .ticker ⟨"b"⟩,
    .openClaimed .ticker true, .page .ticker true, .send .ticker true, .remove .ticker]

theorem safe_secondTry : let s := secondTry.foldl (step (fun _ => "")) start
    s.Safe (fun _ => "") ∧
      s.acked = [(⟨"b"⟩, ⟨"u", [2], .delete, ⟨2, 0⟩⟩), (⟨"b"⟩, rowHint 1)] :=
  ⟨safe_run (fun _ => "") secondTry (by decide), by decide⟩

-- After a crash in the middle of a drain nothing looks at the claimed log again.
theorem crash_in_drain_loses_hint : ¬([.spill ⟨"b"⟩ (rowHint 1), .claim .worker ⟨"b"⟩,
    .openClaimed .worker true, .crash].foldl (HintFiles.step (fun _ => "")) start).Safe (fun _ => "") := by
  rintro ⟨hcovered, -⟩
  obtain hacked | hlive | ⟨-, t, d, hd, -⟩ := hcovered (⟨"b"⟩, rowHint 1) (by decide)
  · exact absurd hacked (by decide)
  · exact absurd hlive (by decide)
  · cases hd

end Scenarios

end HintFiles

end Skaidb.Cluster
