import Skaidb.Cluster.Paging
import Skaidb.Cluster.Placement
import Skaidb.Storage.Engine.Deliveries
import Skaidb.Storage.Retain.InFlight

namespace Skaidb.Cluster

open Skaidb.Base Skaidb.Storage List Process

def migratePageRows : Nat := 2000

-- What is met while a page is looked at: the node's view when a key comes up, and the stamp
-- of the version a peer answers with when asked for the key, if it answers with one.
structure Asked where
  view : Bytes → View
  answer : Bytes → NodeId → Option Hlc

def ownerAnswers (v : View) (answer : NodeId → Option Hlc) (ours : Hlc) : List NodeId → List (NodeId × Hlc)
  | [] => []
  | owner :: rest =>
    if (v.peerAddr owner).isSome then
      match answer owner with
      | some hlc => (owner, hlc) :: if ours ≤ hlc then [] else ownerAnswers v answer ours rest
      | none => ownerAnswers v answer ours rest
    else ownerAnswers v answer ours rest

def ownersHold (v : View) (answer : NodeId → Option Hlc) (ours : Hlc) (owners : List NodeId) : Bool :=
  (ownerAnswers v answer ours owners).any (fun a => ours ≤ a.2)

inductive Phase where
  | walking
  | walked
  | dropped
  deriving DecidableEq

-- `reclaim` at work on one table, and everything owners have answered so far.
structure Reclaiming where
  process : Process
  cursor : Option Bytes
  confirmed : List Bytes
  heard : List (Bytes × NodeId × Hlc)
  phase : Phase

inductive ReclaimEvent where
  | op (op : Op)
  | page (asked : Asked)
  | drop

namespace Reclaiming

variable (table : String) (placed : TablePlacement)

def start (p : Process) : Reclaiming := ⟨p, none, [], [], .walking⟩

def consider (asked : Asked) (r : Reclaiming) (row : Bytes × Version) : Reclaiming :=
  let v := asked.view row.1
  let owners := v.placedReplicas placed (placement table row.1)
  if v.id ∈ owners then r
  else
    let answers := ownerAnswers v (asked.answer row.1) row.2.1 owners
    { r with
      confirmed := if ownersHold v (asked.answer row.1) row.2.1 owners then row.1 :: r.confirmed else r.confirmed
      heard := answers.map (fun a => (row.1, a.1, a.2)) ++ r.heard }

def readPage (asked : Asked) (r : Reclaiming) : Reclaiming :=
  let page := r.process.engine.scanVersionedPage r.cursor migratePageRows
  { page.foldl (consider table placed asked) r with
    cursor := page.getLast?.map Prod.fst
    phase := if page.length < migratePageRows then .walked else .walking }

-- Whatever else the engine does goes on between the pages and before the drop.
def step (r : Reclaiming) : ReclaimEvent → Reclaiming
  | .op op => { r with process := r.process.step op }
  | .page asked => if r.phase = .walking then readPage table placed asked r else r
  | .drop =>
    if r.phase = .walked then
      { r with
        process := if r.confirmed = [] then r.process else r.process.call (.retain (fun k => k ∉ r.confirmed))
        phase := .dropped }
    else r

-- A version that the drop removes, with nothing as new left behind, is not newer than
-- everything an owner has answered for its key.
def DropSafe (r : Reclaiming) : Prop :=
  ∀ key v, r.process.engine.Retains key v →
    (∀ w, (r.step table placed .drop).process.engine.Retains key w → w.1 < v.1) →
    ∃ owner hlc, (key, owner, hlc) ∈ r.heard ∧ v.1 ≤ hlc

def written (clock : HlcClock) : ReclaimEvent → Option (Bytes × Hlc)
  | .op (.write stamping _ wall _ key _) => some (key, Session.stamp clock wall stamping)
  | _ => none

-- Before the drop, no write of a confirmed key is newer than everything an owner has answered.
def Calm (r : Reclaiming) (e : ReclaimEvent) : Prop :=
  ∀ w ∈ written r.process.engine.clock e, r.phase ≠ .dropped → w.1 ∈ r.confirmed →
    ∃ a ∈ r.heard, a.1 = w.1 ∧ w.2 ≤ a.2.2
deriving Decidable

end Reclaiming

section Engine

variable {p : Process}

theorem version_step (h : p.Sound) {op : Op} {layer : Layer Bytes Hlc VersionValue}
    (hl : layer ∈ (p.step op).engine.layers) {key : Bytes} {v : Version} (hv : layer key = some v) :
    Reclaiming.written p.engine.clock (.op op) = some (key, v.1) ∨
      ∃ source ∈ p.engine.layers, source key = some v := by
  cases hwrite : op.isWrite with
  | false => exact .inr ((Changes.reworks (step_maintenance h hwrite).2).version_mem hl hv)
  | true =>
    cases op with
    | write stamping sync wall now other value =>
      have hchanges := (step_write h stamping sync wall now other value).2
      obtain ⟨source, hs, hsv⟩ := (Changes.reworks hchanges).version_mem hl hv
      obtain heq | hold := version_applyWrite hs hsv
      · cases heq
        exact .inl rfl
      · exact .inr hold
    | _ => cases hwrite

theorem step_sound (h : p.Sound) (op : Op) : (p.step op).Sound :=
  call_sound (c := .op op) h trivial

theorem retains_call_retain {keep : Bytes → Bool} {key : Bytes} (hkeep : keep key = true) {v : Version}
    (hv : newest p.engine.layers key = some v) : (p.call (.retain keep)).engine.Retains key v := by
  cases hdrop : (p.engine.rejected keep).isEmpty with
  | true =>
    rw [call_retain_self keep hdrop]
    exact highestRetained_newest.1 v hv
  | false =>
    rw [call_retain keep hdrop]
    rw [← mergedIter_spec.2] at hv
    have hrow := (OrdMap.lookup_eq_some_iff mergedIter_spec.1).mp hv
    have hmem : (key, v) ∈ (p.engine.survivors keep).entries := mem_filter.mpr ⟨hrow, hkeep⟩
    refine .inr ⟨⟨p.engine.nextSeq, p.engine.survivors keep⟩, ?_, ?_⟩
    · show _ ∈ (p.engine.survivorTable keep).toList
      unfold Engine.survivorTable
      rw [if_neg (by simpa using ne_nil_of_mem hmem)]
      simp
    · exact (OrdMap.get?_eq_some_iff _).mpr hmem

end Engine

namespace Reclaiming

variable {table : String} {placed : TablePlacement}

-- No version of a confirmed key is newer than everything an owner has answered.
def Bounded (e : Engine) (confirmed : List Bytes) (heard : List (Bytes × NodeId × Hlc)) : Prop :=
  ∀ key ∈ confirmed, ∀ layer ∈ e.layers, ∀ v, layer key = some v → ∃ a ∈ heard, a.1 = key ∧ v.1 ≤ a.2.2

structure Inv (r : Reclaiming) : Prop where
  sound : r.process.Sound
  bounded : Bounded r.process.engine r.confirmed r.heard

variable {r : Reclaiming}

theorem Inv.op (h : r.Inv) {op : Op} (hphase : r.phase ≠ .dropped) (hcalm : r.Calm (.op op)) :
    (r.step table placed (.op op)).Inv := by
  refine ⟨step_sound h.sound op, ?_⟩
  intro key hkey layer hl v hv
  obtain hwritten | ⟨source, hs, hsv⟩ := version_step h.sound hl hv
  · exact hcalm _ hwritten hphase hkey
  · exact h.bounded key hkey source hs v hsv

section Page

variable {asked : Asked} {r : Reclaiming}

theorem consider_process (row : Bytes × Version) : (consider table placed asked r row).process = r.process := by
  unfold consider
  simp only
  split <;> rfl

theorem Bounded.consider {row : Bytes × Version} (hrow : newest r.process.engine.layers row.1 = some row.2)
    (h : Bounded r.process.engine r.confirmed r.heard) :
    Bounded r.process.engine (consider table placed asked r row).confirmed
      (consider table placed asked r row).heard := by
  unfold Reclaiming.consider
  simp only
  split_ifs with hself hhold
  · exact h
  · intro key hkey layer hl v hv
    obtain rfl | hkey := mem_cons.mp hkey
    · obtain ⟨a, ha, hle⟩ := any_eq_true.mp hhold
      obtain ⟨w, hw, hvw⟩ := newest_le_of_mem hl hv
      rw [hrow] at hw
      cases hw
      refine ⟨(row.1, a.1, a.2), mem_append_left _ (mem_map_of_mem ha), rfl, ?_⟩
      exact hvw.trans (of_decide_eq_true hle)
    · obtain ⟨a, ha, hle⟩ := h key hkey layer hl v hv
      exact ⟨a, mem_append_right _ ha, hle⟩
  · intro key hkey layer hl v hv
    obtain ⟨a, ha, hle⟩ := h key hkey layer hl v hv
    exact ⟨a, mem_append_right _ ha, hle⟩

theorem Inv.consider_rows {rows : List (Bytes × Version)} (h : r.Inv)
    (hrows : ∀ row ∈ rows, newest r.process.engine.layers row.1 = some row.2) :
    (rows.foldl (consider table placed asked) r).Inv := by
  induction rows generalizing r with
  | nil => exact h
  | cons row rest ih =>
    have hproc := @consider_process table placed asked r row
    refine ih ⟨?_, ?_⟩ ?_
    · rw [hproc]
      exact h.sound
    · rw [hproc]
      exact h.bounded.consider (hrows row (by simp))
    · intro x hx
      rw [hproc]
      exact hrows x (by simp [hx])

theorem Inv.readPage (h : r.Inv) : (readPage table placed asked r).Inv := by
  have hrows : ∀ row ∈ r.process.engine.scanVersionedPage r.cursor migratePageRows,
      newest r.process.engine.layers row.1 = some row.2 := by
    intro row hrow
    rw [Engine.scanVersionedPage_eq] at hrow
    have hmem := (mem_filter.mp (mem_of_mem_take hrow)).1
    rw [← mergedIter_spec.2]
    exact (OrdMap.lookup_eq_some_iff mergedIter_spec.1).mpr hmem
  have hinv := @Inv.consider_rows table placed asked _ _ h hrows
  exact ⟨hinv.sound, hinv.bounded⟩

end Page

theorem Inv.dropSafe (h : r.Inv) : r.DropSafe table placed := by
  intro key v hv hgone
  obtain ⟨w, hw, hvw⟩ := highestRetained_newest.2 v hv
  have hretained := highestRetained_newest.1 w hw
  unfold Reclaiming.step at hgone
  simp only at hgone
  split_ifs at hgone with hphase hnone
  · exact absurd (hgone w hretained) (not_lt.mpr hvw)
  · by_cases hkey : key ∈ r.confirmed
    · obtain ⟨layer, hl, hlw⟩ := exists_of_newest_eq_some hw
      obtain ⟨a, ha, rfl, hle⟩ := h.bounded key hkey layer hl w hlw
      exact ⟨a.2.1, a.2.2, ha, hvw.trans hle⟩
    · have hkeep : decide (key ∉ r.confirmed) = true := by simpa using hkey
      have hkept := @retains_call_retain r.process (fun k => k ∉ r.confirmed) key hkeep w hw
      exact absurd (hgone w hkept) (not_lt.mpr hvw)
  · exact absurd (hgone w hretained) (not_lt.mpr hvw)

def Pending (r : Reclaiming) : Prop := r.phase ≠ .dropped → r.Inv

theorem Pending.step (h : r.Pending) (e : ReclaimEvent) (hcalm : r.Calm e) :
    (r.step table placed e).Pending := by
  intro hphase
  cases e with
  | op op => exact (h hphase).op hphase hcalm
  | page asked =>
    simp only [Reclaiming.step] at hphase ⊢
    split_ifs at hphase ⊢ with hwalking
    · exact (h (by simp [hwalking])).readPage
    · exact h hphase
  | drop =>
    simp only [Reclaiming.step] at hphase ⊢
    by_cases hwalked : r.phase = .walked
    · rw [if_pos hwalked] at hphase
      exact absurd rfl hphase
    · rw [if_neg hwalked] at hphase ⊢
      exact h hphase

theorem Pending.dropSafe (h : r.Pending) : r.DropSafe table placed := by
  by_cases hphase : r.phase = .dropped
  · -- a second drop does nothing
    intro key v hv hgone
    rw [Reclaiming.step, if_neg (by simp [hphase])] at hgone
    exact absurd (hgone v hv) (lt_irrefl _)
  · exact (h hphase).dropSafe

section Scenarios

def smallEngine : Process := Process.fresh ⟨1000, 4, 8, 0, 0, false⟩ 0

def put (stamp : UInt64) (key : Bytes) : ReclaimEvent := .op (.write (.given ⟨stamp, 0⟩) true 0 0 key (.put [7]))

def askB : ReclaimEvent :=
  .page ⟨fun _ => ⟨⟨"a"⟩, .fromMembers [(⟨"a"⟩, "a:1"), (⟨"b"⟩, "b:1")] 0, 1, 1, Schema.Catalog.default⟩,
    fun _ _ => some ⟨1, 0⟩⟩

def quietEvents : List ReclaimEvent := [put 1 [1], put 2 [2], askB, put 1 [1]]

def racing : Reclaiming :=
  [put 1 [1], askB, put 2 [1]].foldl (step "t" (.pinned [⟨"b"⟩])) (start smallEngine)

end Scenarios

end Reclaiming

end Skaidb.Cluster
