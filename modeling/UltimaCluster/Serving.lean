/-
  Who serves: only a leader does, a candidacy starts at a tick only, and the
  tick of a leader does not start one.
-/
import UltimaCluster.Ballots

namespace UltimaCluster

namespace ElectionSm

variable {ev : Event} {s s' : ElectionSm} {out : List Action}

theorem Trans.role (h : Trans ev s s' out) :
    s'.role = s.role ∨ s'.role = .follower ∨ (s.role = .candidate ∧ s'.role = .leader) ∨
      ((∃ nowNs, ev = .tick nowNs) ∧ s'.role = .candidate) := by
  cases h with
  | adopt _ _ _ => exact .inr (.inl rfl)
  | stepDown _ _ => exact .inr (.inl rfl)
  | candidacy nowNs hev _ _ _ => exact .inr (.inr (.inr ⟨⟨nowNs, hev⟩, rfl⟩))
  | win _ hrole _ => exact .inr (.inr (.inl ⟨hrole, rfl⟩))
  | rank nowNs _ _ =>
    rcases rankLeader_role s nowNs with h | h
    · exact .inl h
    · exact .inr (.inl h)
  | durableAdvance durable _ =>
    unfold onDurableAdvanced
    dsimp only
    split <;> exact .inl rfl
  | gossip _ _ =>
    rw [advanceGossipCommit_eq]
    exact .inl rfl
  | finish _ _ =>
    rw [finishValidation_eq]
    exact .inl rfl
  | observeTerm term base _ hlt _ =>
    rw [onDataTermObserved, if_pos hlt]
    exact .inl rfl
  | revert _ target _ =>
    rw [revertConfig_eq]
    exact .inl rfl
  | observeConfig position config _ _ =>
    rw [adoptConfig_eq]
    exact .inl rfl
  | _ => exact .inl rfl

theorem rankLeader_serving (nowNs : ℕ) (hr : s.role = .leader) :
    (rankLeader nowNs s).1.serving → (rankLeader nowNs s).1.role = .leader := by
  unfold rankLeader
  dsimp only
  split
  · split_ifs
    · exact fun _ => hr
    · exact fun h => by cases h
    · exact fun _ => hr
    · exact fun _ => hr
  · exact fun _ => hr

theorem Trans.serving (h : Trans ev s s' out) (hs : s.serving → s.role = .leader) :
    s'.serving → s'.role = .leader := by
  cases h with
  | adopt _ _ _ => exact fun h => by cases h
  | stepDown _ _ => exact fun h => by cases h
  | candidacy _ _ _ _ _ => exact fun h => by cases h
  | win _ _ _ => exact fun _ => rfl
  | rank nowNs hrole _ => exact rankLeader_serving nowNs hrole
  | durableAdvance durable _ =>
    unfold onDurableAdvanced
    dsimp only
    split <;> exact hs
  | openTerm _ _ hrole => exact fun _ => hrole
  | gossip _ _ =>
    rw [advanceGossipCommit_eq]
    exact hs
  | finish _ _ =>
    rw [finishValidation_eq]
    exact hs
  | observeTerm term base _ hlt _ =>
    rw [onDataTermObserved, if_pos hlt]
    exact hs
  | revert _ target _ =>
    rw [revertConfig_eq]
    exact hs
  | observeConfig position config _ _ =>
    rw [adoptConfig_eq]
    exact hs
  | _ => exact hs

theorem step_serving (hs : s.serving → s.role = .leader) (ev : Event) :
    (s.step ev).1.serving → (s.step ev).1.role = .leader :=
  (step_steps s ev).invariant (P := fun s => s.serving → s.role = .leader)
    (fun _ _ _ ht => ht.serving) hs

theorem step_leads (hev : ∀ nowNs, ev ≠ .tick nowNs) (hr : s.role ≠ .candidate) :
    (s.step ev).1.role ≠ .candidate ∧ ((s.step ev).1.role = .leader →
      s.role = .leader ∧ (s.step ev).1.currentTerm = s.currentTerm) := by
  refine (step_steps s ev).invariant (P := fun s' => s'.role ≠ .candidate ∧
    (s'.role = .leader → s.role = .leader ∧ s'.currentTerm = s.currentTerm)) ?_
    ⟨hr, fun h => ⟨h, rfl⟩⟩
  intro s1 s2 out ht h1
  refine ⟨?_, ?_⟩
  · rcases ht.role with h | h | ⟨-, h⟩ | ⟨⟨nowNs, h⟩, -⟩
    · rw [h]
      exact h1.1
    · simp [h]
    · simp [h]
    · exact absurd h (hev nowNs)
  · intro h2
    rcases ht.leads h2 with ⟨hlead, hterm⟩ | ⟨base, hmem⟩
    · obtain ⟨hlead, hterm'⟩ := h1.2 hlead
      exact ⟨hlead, hterm.trans hterm'⟩
    · obtain ⟨-, -, -, hcand, -, -⟩ := ht.emits _ hmem
      exact absurd hcand h1.1

theorem step_tick_leads (nowNs : ℕ) (hr : s.role = .leader) :
    (s.step (.tick nowNs)).1.role ≠ .candidate ∧
      (s.step (.tick nowNs)).1.currentTerm = s.currentTerm := by
  unfold step
  split
  · exact ⟨by simp [hr], rfl⟩
  · refine ⟨?_, onTick_currentTerm nowNs hr⟩
    have hrank : (rankLeader nowNs { s with lastTickNs := nowNs }).1.role ≠ .candidate := by
      rcases rankLeader_role { s with lastTickNs := nowNs } nowNs with h | h
      · rw [h]
        simp [hr]
      · simp [h]
    rw [stepBody, onTick_leader nowNs hr, andThen_fst]
    split <;> exact hrank

end ElectionSm

end UltimaCluster
