/-
  Walks of the cluster FSM along the log: what one frame does, and what a whole
  walk keeps.
-/
import UltimaCluster.Door

namespace UltimaCluster

open Bytes

/-! ## One frame -/

/-- The command a frame carries, if `s` accepts it. -/
def Frame.accepted (s : ClusterState) : Frame → Option ClusterCommand
  | .cluster _ body =>
    (ClusterState.readCommand body).filter fun cmd => (s.validateReplicated cmd).toBool
  | _ => none

def Frame.end_ : Frame → ℕ
  | .snapshot end_ _ _ => end_
  | .cluster end_ _ => end_
  | .consumed cursor => cursor

/-- All that a frame can do, and `walked` says that it does one of them. -/
inductive Walked (s : ClusterState) : Frame → ClusterState → Prop
  | snapshot (end_ : ℕ) (standby : Bool) (timeNs : ℕ) :
    Walked s (.snapshot end_ standby timeNs) (s.onSnapshotFrame end_ standby timeNs)
  | refused {end_ : ℕ} {body : Bytes} : (Frame.cluster end_ body).accepted s = none →
    Walked s (.cluster end_ body) { s with applied := end_ }
  | accepted {end_ : ℕ} {body : Bytes} {cmd : ClusterCommand} : cmd.Fits →
    s.validateReplicated cmd = .ok () → (Frame.cluster end_ body).accepted s = some cmd →
    Walked s (.cluster end_ body) ({ s with applied := end_ }.accept end_ cmd)
  | consumed {cursor : ℕ} : s.applied < cursor →
    Walked s (.consumed cursor) { s with applied := cursor }
  | passed {cursor : ℕ} : cursor ≤ s.applied → Walked s (.consumed cursor) s

theorem ClusterRefusal.reasonCode_ne_zero (r : ClusterRefusal) : r.reasonCode ≠ 0 := by
  cases r with
  | membership e => cases e <;> simp [ClusterRefusal.reasonCode, ProposeError.reasonCode]
  | _ => simp [ClusterRefusal.reasonCode]

/-- A command is refused, and then nothing but the position changes, or it is
    accepted. -/
theorem ClusterState.apply_cases (s : ClusterState) (end_ : ℕ) (body : Bytes) :
    ((Frame.cluster end_ body).accepted s = none ∧ (s.apply end_ body).2 ≠ 0 ∧
      (s.apply end_ body).1 = { s with applied := end_ }) ∨
    ∃ cmd, (Frame.cluster end_ body).accepted s = some cmd ∧ cmd.Fits ∧
      s.validateReplicated cmd = .ok () ∧
      s.apply end_ body = ({ s with applied := end_ }.accept end_ cmd, 0) := by
  cases hread : ClusterState.readCommand body with
  | none =>
    left
    rw [ClusterState.apply_undecodable hread]
    exact ⟨by simp [Frame.accepted, hread], by simp [undecodable], rfl⟩
  | some cmd =>
    cases hval : s.validateReplicated cmd with
    | ok =>
      right
      exact ⟨cmd, by simp [Frame.accepted, hread, hval, Except.toBool], fits_of_readCommand hread,
        hval, ClusterState.apply_accepted hread hval end_⟩
    | error r =>
      left
      refine ⟨by simp [Frame.accepted, hread, hval, Except.toBool], ?_⟩
      have happly : s.apply end_ body = ({ s with applied := end_ }, r.reasonCode) := by
        simp only [ClusterState.apply, hread, ClusterState.validateReplicated_applied, hval]
      rw [happly]
      exact ⟨r.reasonCode_ne_zero, rfl⟩

theorem walked (s : ClusterState) (f : Frame) : Walked s f (s.walk f) := by
  cases f with
  | snapshot end_ standby timeNs => exact .snapshot end_ standby timeNs
  | cluster end_ body =>
    rcases s.apply_cases end_ body with ⟨hacc, -, happly⟩ | ⟨cmd, hacc, hfits, hval, happly⟩
    · have h : s.walk (.cluster end_ body) = { s with applied := end_ } := happly
      rw [h]
      exact .refused hacc
    · have h : s.walk (.cluster end_ body) = { s with applied := end_ }.accept end_ cmd := by
        rw [ClusterState.walk, happly]
      rw [h]
      exact .accepted hfits hval hacc
  | consumed cursor =>
    simp only [ClusterState.walk, ClusterState.setConsumed]
    split
    · exact .consumed ‹_›
    · exact .passed (Nat.le_of_not_lt ‹_›)

theorem ClusterState.walk_accepted {s : ClusterState} {f : Frame} {cmd : ClusterCommand}
    (hacc : f.accepted s = some cmd) :
    s.walk f = { s with applied := f.end_ }.accept f.end_ cmd := by
  cases f with
  | snapshot end_ standby timeNs => cases hacc
  | consumed cursor => cases hacc
  | cluster end_ body =>
    rcases s.apply_cases end_ body with ⟨hacc', -, -⟩ | ⟨cmd', hacc', -, -, happly⟩
    · rw [hacc'] at hacc
      cases hacc
    · rw [hacc'] at hacc
      cases hacc
      rw [walk, happly]
      rfl

/-! ## What an operation does not touch -/

namespace ClusterState

theorem onSnapshotFrame_eq (s : ClusterState) (position : ℕ) (standby : Bool) (timeNs : ℕ) :
    ∃ catalog, s.onSnapshotFrame position standby timeNs = { s with catalog } := by
  unfold onSnapshotFrame
  split
  · exact ⟨_, rfl⟩
  · exact ⟨_, rfl⟩

theorem foldIntoCatalog_eq (s : ClusterState) (r : SnapshotReport) :
    ∃ catalog, s.foldIntoCatalog r = { s with catalog } := by
  unfold foldIntoCatalog
  split
  · exact ⟨_, rfl⟩
  split
  · simp only
    split
    · exact ⟨_, rfl⟩
    · exact ⟨_, rfl⟩
  · exact ⟨_, rfl⟩

theorem holdReport_eq (s : ClusterState) (r : SnapshotReport) :
    ∃ reports, s.holdReport r = { s with reports } := by
  unfold holdReport
  split
  · exact ⟨_, rfl⟩
  split
  · exact ⟨_, rfl⟩
  · exact ⟨_, rfl⟩

theorem putReport_eq (s : ClusterState) (r : SnapshotReport) :
    ∃ catalog reports, s.putReport r = { s with catalog, reports } := by
  obtain ⟨catalog, hfold⟩ := s.foldIntoCatalog_eq r
  unfold putReport
  simp only [hfold]
  split
  · obtain ⟨reports, hhold⟩ := ({ s with catalog }.dropCommandedBelow r.position).holdReport_eq r
    exact ⟨_, reports, hhold⟩
  · obtain ⟨reports, hhold⟩ := holdReport_eq { s with catalog } r
    exact ⟨_, reports, hhold⟩

theorem setRunning_eq (s : ClusterState) (row version position : ℕ) :
    ∃ running, s.setRunning row version position = { s with running } := by
  unfold setRunning
  split
  · exact ⟨_, rfl⟩
  · exact ⟨_, rfl⟩

theorem pushPin_eq (s : ClusterState) (p : UpgradePin) : ∃ pins, s.pushPin p = { s with pins } := by
  unfold pushPin
  simp only
  split
  · exact ⟨_, rfl⟩
  · exact ⟨_, rfl⟩

theorem putBackupWatermark_eq (s : ClusterState) (w : BackupWatermark) (position : ℕ) :
    ∃ backups, s.putBackupWatermark w position = { s with backups } := by
  unfold putBackupWatermark
  split
  · exact ⟨_, rfl⟩
  split
  · exact ⟨_, rfl⟩
  · exact ⟨_, rfl⟩

/-- What an accepted command changes, by kind. -/
inductive Effect (s : ClusterState) (position : ℕ) : ClusterCommand → ClusterState → Prop
  | membership (c : ClusterConfig) : Effect s position (.membership c) { s with membership := c }
  | scheduleTable (t : ScheduleTable) :
    Effect s position (.scheduleTable t) { s with table := t, tablePosition := position }
  | settings (r : Settings) (catalog : List SetEntry) :
    Effect s position (.settings r)
      { s with settings := adoptSettings s.settings r, settingsPosition := position, catalog }
  | upgradePin (p : UpgradePin) :
    Effect s position (.upgradePin p)
      { s with
        pins := (s.pushPin p).pins
        running := (s.setRunning p.row p.to_ position).running }
  | snapshotReport (r : SnapshotReport) (catalog : List SetEntry) (reports : List SnapshotReport) :
    Effect s position (.snapshotReport r) { s with catalog, reports }
  | rowGenesis (g : RowGenesis) :
    Effect s position (.rowGenesis g)
      { s with running := (s.setRunning g.row g.version position).running }
  | report {w : BackupWatermark} : w.op = .report →
    Effect s position (.backupWatermark w)
      { s with backups := (s.putBackupWatermark w position).backups }
  | forget {w : BackupWatermark} : w.op = .forget →
    Effect s position (.backupWatermark w)
      { s with backups := s.backups.filter fun e => e.tierId != w.tierId }

theorem accept_effect (s : ClusterState) (position : ℕ) (cmd : ClusterCommand) :
    Effect s position cmd (s.accept position cmd) := by
  cases cmd with
  | membership c => exact .membership c
  | scheduleTable t => exact .scheduleTable t
  | settings r => exact .settings r _
  | upgradePin p =>
    obtain ⟨pins, hpins⟩ := s.pushPin_eq p
    have h : s.accept position (.upgradePin p) =
        { s with
          pins := (s.pushPin p).pins
          running := (s.setRunning p.row p.to_ position).running } := by
      rw [accept, hpins]
      unfold setRunning
      split <;> rfl
    rw [h]
    exact .upgradePin p
  | snapshotReport r =>
    obtain ⟨catalog, reports, h⟩ := s.putReport_eq r
    rw [accept, h]
    exact .snapshotReport r catalog reports
  | rowGenesis g =>
    obtain ⟨running, h⟩ := s.setRunning_eq g.row g.version position
    have heff := @Effect.rowGenesis s position g
    rw [accept, h]
    rwa [h] at heff
  | backupWatermark w =>
    cases hop : w.op with
    | report =>
      obtain ⟨backups, h⟩ := s.putBackupWatermark_eq w position
      have heff := @Effect.report s position w hop
      simp only [accept, hop, h]
      rwa [h] at heff
    | forget =>
      simp only [accept, hop]
      exact .forget hop

theorem accept_applied (s : ClusterState) (position : ℕ) (cmd : ClusterCommand) :
    (s.accept position cmd).applied = s.applied := by
  have h := s.accept_effect position cmd
  generalize s.accept position cmd = t at h ⊢
  cases h <;> rfl

/-! ## Whole walks -/

@[simp] theorem walkAll_nil (s : ClusterState) : s.walkAll [] = s := rfl

@[simp] theorem walkAll_cons (s : ClusterState) (f : Frame) (fs : List Frame) :
    s.walkAll (f :: fs) = (s.walk f).walkAll fs := rfl

theorem walkAll_append (s : ClusterState) (fs gs : List Frame) :
    s.walkAll (fs ++ gs) = (s.walkAll fs).walkAll gs := by
  simp [walkAll]

theorem walkAll_keeps {P : ClusterState → Prop} (hstep : ∀ s f, P s → P (s.walk f))
    {s : ClusterState} (h : P s) (fs : List Frame) : P (s.walkAll fs) := by
  induction fs generalizing s with
  | nil => exact h
  | cons f fs ih => exact ih (hstep s f h)

/-- The commands accepted along a walk. -/
def accepts : ClusterState → List Frame → List ClusterCommand
  | _, [] => []
  | s, f :: fs => (f.accepted s).toList ++ accepts (s.walk f) fs

end ClusterState

/-! ## The order of the log -/

/-- A frame ends above all before it; the cursor is at or above it. -/
def Frame.Before (f g : Frame) : Prop :=
  match g with
  | .consumed cursor => f.end_ ≤ cursor
  | _ => f.end_ < g.end_

instance (f g : Frame) : Decidable (f.Before g) :=
  match g with
  | .consumed cursor => inferInstanceAs (Decidable (f.end_ ≤ cursor))
  | .snapshot end_ _ _ => inferInstanceAs (Decidable (f.end_ < end_))
  | .cluster end_ _ => inferInstanceAs (Decidable (f.end_ < end_))

/-- The order of the committed log, in which the ends of frames increase. -/
def LogOrder (fs : List Frame) : Prop := fs.Pairwise Frame.Before

instance (fs : List Frame) : Decidable (LogOrder fs) :=
  inferInstanceAs (Decidable (fs.Pairwise Frame.Before))

theorem Frame.Before.le {f g : Frame} (h : f.Before g) : f.end_ ≤ g.end_ := by
  cases g with
  | consumed cursor => exact h
  | snapshot end_ standby timeNs => exact Nat.le_of_lt h
  | cluster end_ body => exact Nat.le_of_lt h

namespace ClusterState

theorem walk_applied (s : ClusterState) (f : Frame) :
    (s.walk f).applied = s.applied ∨ (s.walk f).applied = f.end_ := by
  have hw := walked s f
  generalize s.walk f = t at hw ⊢
  cases hw with
  | snapshot end_ standby timeNs =>
    obtain ⟨catalog, h⟩ := s.onSnapshotFrame_eq end_ standby timeNs
    exact .inl (by rw [h])
  | refused _ => exact .inr rfl
  | accepted _ _ _ => exact .inr (accept_applied _ _ _)
  | consumed _ => exact .inr rfl
  | passed _ => exact .inl rfl

theorem walkAll_applied_le {s : ClusterState} {fs : List Frame} {bound : ℕ}
    (hs : s.applied ≤ bound) (hfs : ∀ f ∈ fs, f.end_ ≤ bound) : (s.walkAll fs).applied ≤ bound := by
  induction fs generalizing s with
  | nil => exact hs
  | cons f fs ih =>
    refine ih ?_ fun g hg => hfs g (List.mem_cons_of_mem _ hg)
    rcases s.walk_applied f with h | h
    · rwa [h]
    · rw [h]
      exact hfs f List.mem_cons_self

theorem applied_le_walkAll {s : ClusterState} {fs : List Frame} (hs : ∀ f ∈ fs, s.applied ≤ f.end_)
    (hord : LogOrder fs) : s.applied ≤ (s.walkAll fs).applied := by
  induction fs generalizing s with
  | nil => exact le_rfl
  | cons f fs ih =>
    obtain ⟨hhead, htail⟩ := List.pairwise_cons.mp hord
    have hf := hs f List.mem_cons_self
    have hstep : s.applied ≤ (s.walk f).applied := by
      rcases s.walk_applied f with h | h
      · exact h.ge
      · rwa [h]
    refine hstep.trans (ih ?_ htail)
    intro g hg
    rcases s.walk_applied f with h | h
    · rw [h]
      exact hs g (List.mem_cons_of_mem _ hg)
    · rw [h]
      exact (hhead g hg).le

end ClusterState

end UltimaCluster
