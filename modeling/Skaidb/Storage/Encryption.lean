import Skaidb.Storage.Engine.Upkeep

namespace Skaidb.Storage

open Skaidb.Base List Engine Disk

structure AtRest (κ : Type*) where
  kek : Option κ
  atRestEnabled : Bool

inductive File where
  | table (path : Nat)
  | wal
  deriving DecidableEq

-- Whether the active log starts with an encryption header, and the files created
-- so far, each with whether it was written encrypted.
structure Seals where
  header : Bool
  created : List (File × Bool)

section Paths

variable {κ : Type*}

-- The key a flush or a compaction hands to `SsTable::write_stream`.
def AtRest.enc (o : AtRest κ) : Option κ := if o.atRestEnabled then o.kek else none

-- `retain` hands on none.
def Call.enc (o : AtRest κ) : Call → Option κ
  | .op _ => o.enc
  | .retain _ => none

-- A table is encrypted when it is written with a key. A fresh log gets a header
-- with a fresh key when the log before it had one.
def Seals.apply (crypto : Bool) (enc : Option κ) (f : Seals) : Effect → Seals
  | .writeTable t => { f with created := f.created ++ [(.table t.path, enc.isSome)] }
  | .createWal => { header := crypto, created := f.created ++ [(.wal, crypto)] }
  | .renameWal _ | .removeWal => { f with header := false }
  | _ => f

def Seals.applyAll (crypto : Bool) (enc : Option κ) (f : Seals) (effects : List Effect) : Seals :=
  effects.foldl (Seals.apply crypto enc) f

-- `Wal::open`: a log with a header goes on under its key, an empty one gets a
-- header when encryption is on, any other stays plain.
def AtRest.openWal (o : AtRest κ) (disk : Disk) (f : Seals) : Option (Bool × Seals) :=
  if f.header then o.kek.map (fun _ => (true, f))
  else if disk.activeRecords.isEmpty && o.atRestEnabled then
    o.kek.map (fun _ => (true, { header := true, created := f.created ++ [(.wal, true)] }))
  else
    some (false, { f with created := f.created ++ if disk.wal.isNone then [(.wal, false)] else [] })

end Paths

inductive VaultEvent where
  | call (c : Call)
  -- A crash during `c`, after the first `cut` of its effects. When the next one
  -- creates a log, `torn` leaves that log without its header.
  | crash (c : Call) (cut kept : Nat) (torn : Bool)
  | reopen (wall : UInt64)

inductive VaultStatus where
  | up (p : Process) (crypto : Bool)
  | down (disk : Disk)

structure Vault (κ : Type*) where
  opts : EngineOptions
  atRest : AtRest κ
  status : VaultStatus
  seals : Seals

namespace Vault

variable {κ : Type*}

def init (opts : EngineOptions) (atRest : AtRest κ) : Vault κ := ⟨opts, atRest, .down Disk.empty, ⟨false, []⟩⟩

def step (v : Vault κ) (event : VaultEvent) : Vault κ :=
  match event, v.status with
  | .call c, .up p crypto =>
    { v with
      status := .up (p.call c) crypto
      seals := v.seals.applyAll crypto (c.enc v.atRest) (p.execCall c).2 }
  | .crash c cut kept torn, .up p crypto =>
    let effects := (p.execCall c).2.take cut
    let disk := p.disk.applyAll effects
    let seals := v.seals.applyAll crypto (c.enc v.atRest) effects
    if torn && (p.execCall c).2[cut]? = some .createWal then
      { v with status := .down ((disk.apply .createWal).crash kept), seals := { seals with header := false } }
    else { v with status := .down (disk.crash kept), seals }
  | .reopen wall, .down disk =>
    match openWithOptions v.opts disk wall, v.atRest.openWal disk v.seals with
    | some session, some (crypto, seals) => { v with status := .up (.ofSession session) crypto, seals }
    | _, _ => v
  | _, _ => v

def run (v : Vault κ) (events : List VaultEvent) : Vault κ := events.foldl step v

end Vault

theorem Process.execCall_noOpen (p : Process) :
    (p.call c).disk = p.disk.applyAll (p.execCall c).2 ∧ ∀ e ∈ (p.execCall c).2, e ≠ .openWal := by
  obtain ⟨s, hacts, -, hdisk, heffects⟩ := p.acts c
  suffices hs : s.start = p.disk ∧ ∀ e ∈ s.effects, e ≠ .openWal by
    rw [heffects, hdisk, Session.disk, hs.1]
    exact ⟨rfl, hs.2⟩
  have hupkeep : ∀ {t : Session}, t.start = p.disk → (∀ e ∈ t.effects, e ≠ .openWal) →
      Session.Upkeep t s → s.start = p.disk ∧ ∀ e ∈ s.effects, e ≠ .openWal := by
    rintro t ht hopen ⟨hstart, es, heq, hes⟩
    refine ⟨hstart.trans ht, ?_⟩
    rintro e he rfl
    rw [heq] at he
    obtain he | he := mem_append.mp he
    · exact hopen _ he rfl
    · cases hes _ he
  by_cases hwrite : ∃ op, c = .op op ∧ op.isWrite = true
  · obtain ⟨op, rfl, hop⟩ := hwrite
    cases hacts with
    | write stamping sync wall now key value =>
      refine hupkeep ?_ ?_ (p.session.write_upkeep stamping sync wall now key value)
      · split_ifs <;> rfl
      · split_ifs <;> simp [Session.emit, Process.session]
    | work c s work => exact hupkeep rfl (by simp [Process.session]) ((Session.Upkeep.refl _).work work)
    | _ => cases hop
  · refine hupkeep rfl (by simp [Process.session]) (hacts.upkeep ?_)
    intro op hc
    exact Bool.eq_false_iff.mpr (fun hop => hwrite ⟨op, hc, hop⟩)

def Effect.isTable : Effect → Bool
  | .writeTable _ => true
  | _ => false

def Seals.AllEncrypted (f : Seals) : Prop := ∀ file ∈ f.created, file.2 = true

namespace Seals

variable {κ : Type*} (enc : Option κ)

theorem allEncrypted_applyAll {f : Seals} {effects : List Effect} : (f.applyAll true enc effects).AllEncrypted ↔
      f.AllEncrypted ∧ (enc.isSome = true ∨ effects.any Effect.isTable = false) := by
  induction effects generalizing f with
  | nil => simp [applyAll]
  | cons e effects ih =>
    have hstep : (f.apply true enc e).AllEncrypted ↔
        f.AllEncrypted ∧ (enc.isSome = true ∨ e.isTable = false) := by
      cases e <;> simp [Seals.apply, AllEncrypted, Effect.isTable, or_imp, forall_and]
    have hcons : f.applyAll true enc (e :: effects) = (f.apply true enc e).applyAll true enc effects := rfl
    rw [hcons, ih, hstep, any_cons, Bool.or_eq_false_iff]
    tauto

theorem header_applyAll {f : Seals} {d : Disk} (h : f.header = true ∨ d.wal = none)
    (hopen : ∀ e ∈ effects, e ≠ .openWal) :
    (f.applyAll true enc effects).header = true ∨ (d.applyAll effects).wal = none := by
  induction effects generalizing f d with
  | nil => exact h
  | cons e effects ih =>
    refine ih ?_ (fun x hx => hopen x (by simp [hx]))
    have hne := hopen e (by simp)
    cases e with
    | openWal => exact absurd rfl hne
    | createWal => exact .inl rfl
    | renameWal n => cases hwal : d.wal <;> simp [Disk.apply, hwal]
    | removeWal => exact .inr rfl
    | appendWal r | syncWal => simpa [Seals.apply, Disk.apply] using h
    | _ => exact h

end Seals

-- The effects of a retain write a table exactly when it drops a row and keeps one.
theorem Process.any_isTable_retain (p : Process) :
    ((p.execCall (.retain keep)).2.take cut).any Effect.isTable = false ↔
      cut = 0 ∨ (p.engine.rejected keep).isEmpty = true ∨ (p.engine.survivors keep).entries.isEmpty = true := by
  rw [p.effects_retain]
  cases hdrop : (p.engine.rejected keep).isEmpty with
  | true => simp
  | false =>
    cases hkept : (p.engine.survivors keep).entries.isEmpty with
    | true =>
      simp only [Bool.false_eq_true, if_false, or_true, iff_true, any_eq_false]
      intro e he
      have he := mem_of_mem_take he
      simp only [retainEffects, survivorTable, hkept, if_true, Option.toList_none, map_nil, nil_append, mem_append,
        mem_map, mem_singleton] at he
      obtain ((he | ⟨n, -, rfl⟩) | rfl) | ⟨n, -, rfl⟩ := he
      · split_ifs at he
        · simp at he
        · simp [mem_singleton.mp he, Effect.isTable]
      all_goals simp [Effect.isTable]
    | false =>
      cases cut with
      | zero => simp
      | succ cut => simp [retainEffects, survivorTable, hkept, Effect.isTable]

namespace Vault

variable {κ : Type*}

-- A retain that writes a table for its survivors writes it plain.
def NoPlain (v : Vault κ) (event : VaultEvent) : Prop :=
  match event, v.status with
  | .call (.retain keep), .up p _ =>
    (p.engine.rejected keep).isEmpty = true ∨ (p.engine.survivors keep).entries.isEmpty = true
  | .crash (.retain keep) cut _ _, .up p _ =>
    cut = 0 ∨ (p.engine.rejected keep).isEmpty = true ∨ (p.engine.survivors keep).entries.isEmpty = true
  | _, _ => True

-- The log in use is encrypted, and one without a header holds no record.
def Armed (kek : κ) (v : Vault κ) : Prop :=
  v.opts.ephemeral = false ∧ v.atRest = ⟨some kek, true⟩ ∧
  match v.status with
  | .up p crypto => crypto = true ∧ (v.seals.header = true ∨ p.disk.wal = none)
  | .down disk => v.seals.header = true ∨ disk.activeRecords = []

variable (kek : κ)

theorem call_armed (c : Call) {p : Process} {f : Seals} (hheader : f.header = true ∨ p.disk.wal = none)
    (cut : Nat) :
    ((f.applyAll true (c.enc (⟨some kek, true⟩ : AtRest κ)) ((p.execCall c).2.take cut)).header = true ∨
      (p.disk.applyAll ((p.execCall c).2.take cut)).wal = none) :=
  Seals.header_applyAll _ hheader (fun e he => p.execCall_noOpen.2 e (mem_of_mem_take he))

theorem call_allEncrypted (c : Call) (p : Process) (f : Seals) (cut : Nat) :
    (f.applyAll true (c.enc (⟨some kek, true⟩ : AtRest κ)) ((p.execCall c).2.take cut)).AllEncrypted ↔
      f.AllEncrypted ∧ ∀ keep, c = .retain keep →
        cut = 0 ∨ (p.engine.rejected keep).isEmpty = true ∨ (p.engine.survivors keep).entries.isEmpty = true := by
  rw [Seals.allEncrypted_applyAll]
  cases c with
  | op op => simp [Call.enc, AtRest.enc]
  | retain keep => simp [Call.enc, p.any_isTable_retain]

theorem rejected_of_no_effects {p : Process} (h : (p.execCall (.retain keep)).2 = []) :
    (p.engine.rejected keep).isEmpty = true := by
  rw [p.effects_retain] at h
  split_ifs at h with hdrop
  · exact hdrop
  · simp [retainEffects] at h

theorem step_armed {kek : κ} {v : Vault κ} (h : Armed kek v) : Armed kek (v.step event) ∧
    ((v.step event).seals.AllEncrypted ↔ v.seals.AllEncrypted ∧ v.NoPlain event) := by
  obtain ⟨opts, atRest, status, seals⟩ := v
  obtain ⟨hpersist, rfl, hstatus⟩ := h
  have hsame : Armed kek (⟨opts, ⟨some kek, true⟩, status, seals⟩) := ⟨hpersist, rfl, hstatus⟩
  cases status with
  | up p crypto =>
    obtain ⟨rfl, hheader⟩ := hstatus
    cases event with
    | reopen wall => exact ⟨hsame, by simp [step, NoPlain]⟩
    | call c =>
      have hcall := call_armed kek c hheader (p.execCall c).2.length
      have hall := call_allEncrypted kek c p seals (p.execCall c).2.length
      rw [take_length] at hcall hall
      refine ⟨⟨hpersist, rfl, rfl, ?_⟩, hall.trans ?_⟩
      · rw [p.execCall_noOpen.1]
        exact hcall
      · refine and_congr_right (fun _ => ?_)
        cases c with
        | op op => simp [NoPlain]
        | retain keep =>
          constructor
          · intro hkeep
            obtain hnil | hcond := hkeep keep rfl
            · exact .inl (rejected_of_no_effects (length_eq_zero_iff.mp hnil))
            · exact hcond
          · intro hcond other heq
            obtain rfl := Call.retain.inj heq
            exact .inr hcond
    | crash c cut kept torn =>
      have hcall := call_armed kek c hheader cut
      have hall := call_allEncrypted kek c p seals cut
      have hplain : (∀ keep, c = .retain keep → cut = 0 ∨ (p.engine.rejected keep).isEmpty = true ∨
          (p.engine.survivors keep).entries.isEmpty = true) ↔
          NoPlain (⟨opts, ⟨some kek, true⟩, .up p true, seals⟩) (.crash c cut kept torn) := by
        cases c with
        | op op | retain keep => simp [NoPlain]
      rw [hplain] at hall
      simp only [step]
      split_ifs
      · exact ⟨⟨hpersist, rfl, .inr (by simp [activeRecords, apply, crash])⟩, hall⟩
      · refine ⟨⟨hpersist, rfl, hcall.imp_right ?_⟩, hall⟩
        intro hwal
        simp [activeRecords, crash, hwal]
  | down disk =>
    cases event with
    | call c | crash c cut kept torn => exact ⟨hsame, by simp [step, NoPlain]⟩
    | reopen wall =>
      have hopen : ∃ created, (⟨some kek, true⟩ : AtRest κ).openWal disk seals =
          some (true, ⟨true, seals.created ++ created⟩) ∧ ∀ file ∈ created, file.2 = true := by
        unfold AtRest.openWal
        cases hheader : seals.header with
        | true => exact ⟨[], by simp [← hheader], by simp⟩
        | false =>
          have hempty : disk.activeRecords = [] := by simpa [hheader] using hstatus
          exact ⟨[(.wal, true)], by simp [hempty], by simp⟩
      obtain ⟨created, hwal, hnew⟩ := hopen
      simp only [step, hwal]
      split
      case h_1 session crypto f hsession hf =>
        obtain ⟨rfl, rfl⟩ := Prod.mk.inj (Option.some.inj hf)
        refine ⟨⟨hpersist, rfl, rfl, .inl rfl⟩, ?_⟩
        simp only [Seals.AllEncrypted, NoPlain, and_true, mem_append]
        exact ⟨fun h file hfile => h file (.inl hfile), fun h file hfile => hfile.elim (h file) (hnew file)⟩
      · exact ⟨hsame, by simp [NoPlain]⟩

-- Every file a run creates is encrypted exactly when no retain of the run writes
-- a table.
theorem encryption_covers_iff {opts : EngineOptions} (hpersist : opts.ephemeral = false) (kek : κ)
    (events : List VaultEvent) : ((init opts (⟨some kek, true⟩ : AtRest κ)).run events).seals.AllEncrypted ↔
      Along step NoPlain (init opts (⟨some kek, true⟩ : AtRest κ)) events := by
  have hrun : ∀ v : Vault κ, Armed kek v →
      ((v.run events).seals.AllEncrypted ↔ v.seals.AllEncrypted ∧ Along step NoPlain v events) := by
    induction events with
    | nil => exact fun v _ => by simp [run, Along]
    | cons event events ih =>
      intro v hv
      obtain ⟨harmed, hstep⟩ := step_armed hv
      have hrest := ih (v.step event) harmed
      rw [hstep] at hrest
      exact hrest.trans and_assoc
  have hinit : Armed kek (init opts (⟨some kek, true⟩)) := ⟨hpersist, rfl, .inr rfl⟩
  rw [hrun _ hinit]
  simp [init, Seals.AllEncrypted]

def vaultOptions : EngineOptions := ⟨1000, 1, 8, 0, 0, false⟩

-- Flush, compaction, a retain of nothing, a crash that leaves the log without its
-- header, and a reopen.
theorem encryption_covers_reopened : let events : List VaultEvent :=
      [.reopen 0, .call (.op (.write (.given ⟨1, 0⟩) true 0 0 [1] (.put [7]))), .call (.op (.flush 0)),
        .call (.retain (fun _ => false)), .call (.op (.write (.given ⟨2, 0⟩) true 0 0 [1] (.put [8]))),
        .crash (.op .freeze) 2 0 true, .reopen 0]
    let v := (init vaultOptions (⟨some (), true⟩)).run events
    v.seals.created.map Prod.fst = [.wal, .wal, .table 0, .table 1, .wal, .wal] ∧ v.seals.AllEncrypted := by
  refine ⟨by decide, (encryption_covers_iff rfl () _).mpr ?_⟩
  exact ⟨trivial, trivial, trivial, .inr (by decide), trivial, trivial, trivial, trivial⟩

theorem retain_writes_plain_table : let events : List VaultEvent :=
      [.reopen 0, .call (.op (.write (.given ⟨1, 0⟩) true 0 0 [1] (.put [7]))),
        .call (.op (.write (.given ⟨2, 0⟩) true 0 0 [2] (.put [8]))), .call (.retain (fun key => key ≠ [1]))]
    (.table 0, false) ∈ ((init vaultOptions (⟨some (), true⟩)).run events).seals.created := by
  decide

end Vault

end Skaidb.Storage
