import Skaidb.Storage.Retain.Gate

namespace Skaidb.Storage

open Skaidb.Base List

def Effect.upkeep : Effect → Bool
  | .openWal | .removeWal | .appendWal _ | .removeTables => false
  | _ => true

theorem Effect.upkeep_of_onTables {e : Effect} (h : e.onTables = true) : e.upkeep = true := by
  cases e <;> simp_all [Effect.onTables, Effect.upkeep]

namespace Session

variable {s s' s'' : Session}

def Upkeep (s s' : Session) : Prop :=
  s'.start = s.start ∧ ∃ es, s'.effects = s.effects ++ es ∧ ∀ e ∈ es, e.upkeep = true

namespace Upkeep

theorem refl (s : Session) : Upkeep s s := ⟨rfl, [], by simp, by simp⟩

section

variable (h : Upkeep s s')

include h

theorem trans (h' : Upkeep s' s'') : Upkeep s s'' := by
  obtain ⟨hstart, es, heq, hes⟩ := h
  obtain ⟨hstart', es', heq', hes'⟩ := h'
  refine ⟨hstart'.trans hstart, es ++ es', by rw [heq', heq, append_assoc], ?_⟩
  intro e he
  obtain he | he := mem_append.mp he
  · exact hes e he
  · exact hes' e he

theorem emitAll (hes : ∀ e ∈ es, e.upkeep = true) : Upkeep s (s'.emitAll es) :=
  h.trans ⟨rfl, es, rfl, hes⟩

theorem emit {e : Effect} (he : e.upkeep = true) : Upkeep s (s'.emit e) :=
  h.emitAll (by simpa using he)

theorem modify (f : Engine → Engine) : Upkeep s (s'.modify f) := h

theorem work (hw : TableWork s' s'') : Upkeep s s'' := by
  obtain ⟨es, heq, hes⟩ := hw.effects
  exact h.trans ⟨hw.start, es, heq, fun e he => Effect.upkeep_of_onTables (hes e he)⟩

theorem freeze : Upkeep s s'.freeze :=
  ((h.emit rfl).emit rfl).emit
    rfl

theorem syncThrough (commit : WalCommit) : Upkeep s (s'.syncThrough commit) := by
  unfold Session.syncThrough
  dsimp only
  split_ifs
  · exact h
  · exact h.emit rfl

theorem dropFlushed (f : FrozenMem) : Upkeep s (s'.dropFlushed f) := by
  unfold Session.dropFlushed
  split_ifs
  · refine h.emitAll ?_
    intro e he
    obtain ⟨n, -, rfl⟩ := mem_map.mp he
    rfl
  · exact h

theorem installFlush (job : FlushJob) (sst : SsTable) : Upkeep s (s'.installFlush job sst) := by
  have hmanifest : Upkeep s ((s'.modify (fun e => { e with l0 := sst :: e.l0 })).persistManifest) :=
    (h.modify _).emit rfl
  unfold Session.installFlush
  dsimp only
  split
  · exact hmanifest
  · exact (hmanifest.modify _).dropFlushed _

end

theorem drainFrozen (fuel : Nat) (h : Upkeep s s') : Upkeep s (Session.drainFrozen fuel s') := by
  induction fuel generalizing s' with
  | zero => exact h
  | succ fuel ih =>
    rw [Session.drainFrozen]
    split
    · exact h
    case h_2 job e htake =>
      have hwork : TableWork s' (({ s' with engine := e } : Session).writeTable (Engine.buildFlush job)) :=
        (TableWork.takeFlushJob s' htake).trans (TableWork.emit _ rfl)
      exact ih ((h.work hwork).installFlush job _)

theorem flush (h : Upkeep s s') (now : UInt64) : Upkeep s (s'.flush now) := by
  unfold Session.flush
  split_ifs
  · exact h
  · exact (h.drainFrozen _).work (TableWork.maybeCompact _ now)
  · exact (h.freeze.drainFrozen _).work (TableWork.maybeCompact _ now)

theorem maybeFlush (h : Upkeep s s') (now : UInt64) : Upkeep s (s'.maybeFlush now) := by
  unfold Session.maybeFlush
  split_ifs
  · exact h
  · exact h.flush now
  · exact h.freeze

theorem retain (h : Upkeep s s') (keep : Bytes → Bool) : Upkeep s (s'.retain keep) := by
  cases hdrop : (s'.engine.rejected keep).isEmpty with
  | true =>
    rw [Session.retain_eq_self keep hdrop]
    exact h
  | false =>
    rw [Session.retain_eq keep hdrop]
    refine h.trans ⟨rfl, _, rfl, ?_⟩
    intro e he
    unfold Engine.retainEffects at he
    simp only [mem_append, mem_map, mem_singleton] at he
    obtain (((⟨t, -, rfl⟩ | hwal) | ⟨n, -, rfl⟩) | rfl) | ⟨path, -, rfl⟩ := he
    · rfl
    · split_ifs at hwal
      · cases hwal
      · rw [mem_singleton.mp hwal]
        rfl
    · rfl
    · rfl
    · rfl

end Upkeep

theorem write_upkeep (s : Session) (stamping : Stamping) (sync : Bool) (wall now : UInt64) (key : Bytes)
    (value : VersionValue) : Upkeep (if s.engine.opts.ephemeral then s
      else s.emit (.appendWal ⟨stamp s.engine.clock wall stamping, key, value⟩))
      (s.write stamping sync wall now key value).1 := by
  refine write_rule (Upkeep.maybeFlush ?_ now) (fun t commit h => h.syncThrough commit)
  unfold logged buffered appendOp
  cases heph : s.engine.opts.ephemeral with
  | true =>
    simp only [engine_modify, heph, if_true]
    exact Upkeep.refl s
  | false =>
    simp only [engine_modify, heph, Bool.false_eq_true, if_false]
    exact Upkeep.refl (s.emit _)

end Session

def Op.record (e : Engine) : Op → Option WalRecord
  | .write stamping _ wall _ key value => some ⟨Session.stamp e.clock wall stamping, key, value⟩
  | _ => none

theorem Op.record_eq_none {op : Op} (h : op.isWrite = false) : op.record e = none := by
  cases op with
  | write => cases h
  | _ => rfl

namespace Process

variable {p : Process}

theorem Acts.upkeep (h : Acts p c s) (hop : ∀ op, c = .op op → op.isWrite = false) :
    Session.Upkeep p.session s := by
  have hstart := Session.Upkeep.refl p.session
  cases h with
  | write => cases hop _ rfl
  | sync i commit => exact hstart.syncThrough commit
  | freeze persist => exact hstart.freeze
  | flush now => exact hstart.flush now
  | installFlush i job sst found => exact hstart.installFlush job sst
  | mark hlc => exact hstart
  | retain keep => exact hstart.retain keep
  | work c s work => exact hstart.work work

theorem exec_effects (hpersist : p.engine.opts.ephemeral = false) (op : Op) :
    (p.step op).disk = p.disk.applyAll (p.exec op).2 ∧
      ∃ es, (p.exec op).2 = ((op.record p.engine).map Effect.appendWal).toList ++ es ∧
        ∀ e ∈ es, e.upkeep = true := by
  cases hop : op.isWrite with
  | false =>
    obtain ⟨s, hacts, -, hdisk, heffects⟩ := p.acts (.op op)
    obtain ⟨hstart, es, heq, hes⟩ := hacts.upkeep (by rintro _ ⟨⟩; exact hop)
    refine ⟨?_, es, ?_, hes⟩
    · show (p.call (.op op)).disk = p.disk.applyAll (p.execCall (.op op)).2
      rw [hdisk, heffects, Session.disk, hstart]
      rfl
    · rw [Op.record_eq_none hop]
      exact heffects.trans heq
  | true =>
    cases op with
    | write stamping sync wall now key value =>
      have hwrite := p.session.write_upkeep stamping sync wall now key value
      rw [if_neg (show ¬ p.session.engine.opts.ephemeral = true from Bool.eq_false_iff.mp hpersist)] at hwrite
      obtain ⟨hstart, es, heq, hes⟩ := hwrite
      refine ⟨?_, es, heq, hes⟩
      show (p.session.write stamping sync wall now key value).1.disk = _
      rw [Session.disk, hstart]
      rfl
    | _ => cases hop

end Process

end Skaidb.Storage
