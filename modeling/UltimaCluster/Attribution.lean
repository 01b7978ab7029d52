/-
  Term maps as attributions: which term's byte stands at a position.
-/
import UltimaCluster.Lib.Timeline
import UltimaCluster.Election

namespace UltimaCluster

namespace TermMap

/-- Strictly ascending terms, ascending bases. -/
structure WF (m : TermMap) : Prop where
  terms : m.Pairwise fun a b => a.1 < b.1
  bases : m.Pairwise fun a b => a.2 ≤ b.2

/-- Well-formed, and every entry but the last covers some byte. -/
structure Strict (m : TermMap) : Prop where
  terms : m.Pairwise fun a b => a.1 < b.1
  bases : m.Pairwise fun a b => a.2 < b.2

theorem Strict.wf {m : TermMap} (h : m.Strict) : m.WF :=
  ⟨h.terms, h.bases.imp fun h => h.le⟩

theorem Strict.sublist {m n : TermMap} (h : m.Strict) (hn : n.Sublist m) : n.Strict :=
  ⟨h.terms.sublist hn, h.bases.sublist hn⟩

/-- The term of the byte at position `p`, as a map attributes it. -/
def attr (m : TermMap) (p : ℕ) : Option ℕ := Timeline.valueAt m p

/-- The window that a leader ships: the last `maxTermMapWireEntries` entries. -/
def wireTail (m : TermMap) : TermMap := m.drop (m.length - maxTermMapWireEntries)

theorem exists_wireTail (m : TermMap) : ∃ hidden, m = hidden ++ m.wireTail :=
  ⟨m.take (m.length - maxTermMapWireEntries), (List.take_append_drop _ _).symm⟩

/-- The loop of `term_at` finds the last entry that starts below `pos`. -/
theorem termAtLoop_eq {m : TermMap} (h : m.Pairwise fun a b => a.2 ≤ b.2) (t p : ℕ) :
    termAtLoop (p + 1) t m = (m.attr p).getD t := by
  induction m generalizing t with
  | nil => rfl
  | cons e m ih =>
    obtain ⟨term, base⟩ := e
    obtain ⟨hhead, htail⟩ := List.pairwise_cons.mp h
    rw [termAtLoop, attr, Timeline.valueAt_cons]
    by_cases hb : base < p + 1
    · rw [if_pos hb, if_pos (Nat.lt_succ_iff.mp hb), ih htail, attr]
      cases Timeline.valueAt m p <;> rfl
    · have hlt : ∀ e ∈ m, p < e.2 := by
        intro e he
        have := hhead e he
        dsimp only at this
        omega
      rw [if_neg hb, if_neg (by omega), Timeline.valueAt_eq_none hlt]
      rfl

/-- `term_at` is the attribution of the byte below, in a map with ascending
    bases. -/
theorem termAt_succ {m : TermMap} (h : m.WF) (p : ℕ) : m.termAt (p + 1) = (m.attr p).getD 0 := by
  rw [termAt, if_neg (Nat.succ_ne_zero p), termAtLoop_eq h.bases]

end TermMap

end UltimaCluster
