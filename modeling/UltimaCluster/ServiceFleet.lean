/-
  A row on all nodes: its incarnations, which start in place of one another, and
  the artifacts that they have built.

  `Fleet.exec_keeps` is the induction step for what holds of every artifact and of
  every incarnation.
-/
import UltimaCluster.ServiceStart

namespace UltimaCluster

namespace Service

variable {σ : Type}

/-- An incarnation of the row on a node. -/
structure Incarnation (σ : Type) where
  service : Service σ
  running : Running σ

/-- The row on all nodes, and the artifacts that its incarnations have built: tag,
    version and image. -/
structure Fleet (σ : Type) where
  nodes : ℕ → Option (Incarnation σ)
  pool : List (ℕ × ℕ × Bytes)

/-- A step of one node's row. -/
inductive FleetStep (σ : Type) where
  /-- An incarnation starts on the node, in place of the one before. -/
  | attach (node : ℕ) (S : Service σ) (env : AttachEnv) (sm₀ : σ) (seen : Counters)
  | row (node : ℕ) (step : RowStep)

namespace Fleet

def empty : Fleet σ := ⟨fun _ => none, []⟩

/-- One step of a node. -/
def exec (F : Fleet σ) : FleetStep σ → Fleet σ
  | .attach node S env sm₀ seen =>
    match S.attach env sm₀ with
    | .ok row => { F with nodes := Function.update F.nodes node (some ⟨S, ⟨row, seen⟩⟩) }
    | .error _ => { F with nodes := Function.update F.nodes node none }
  | .row node step =>
    match F.nodes node with
    | none => F
    | some i =>
      let running := i.running.exec i.service step
      { nodes := Function.update F.nodes node (some { i with running })
        pool := F.pool ++ running.row.built.map fun a => (a.1, i.service.version, a.2) }

/-- The passes find joined blocks. -/
def Steady (F : Fleet σ) : FleetStep σ → Prop
  | .attach _ _ _ _ _ => True
  | .row node step => ∀ i ∈ F.nodes node, SteadyStep i.running.row step

/-- What holds of the artifacts and of the incarnations, if a start and a step of an
    incarnation keep it. -/
theorem exec_keeps {F : Fleet σ} {A : ℕ → ℕ → Bytes → Prop} {I : Incarnation σ → Prop}
    {step : FleetStep σ} (hpool : ∀ a ∈ F.pool, A a.1 a.2.1 a.2.2)
    (hnodes : ∀ node, ∀ i ∈ F.nodes node, I i)
    (hattach : ∀ node S env sm₀ seen row, step = .attach node S env sm₀ seen →
      S.attach env sm₀ = .ok row → I ⟨S, ⟨row, seen⟩⟩)
    (hrow : ∀ node s i, step = .row node s → F.nodes node = some i → I i →
      I { i with running := i.running.exec i.service s } ∧
        ∀ a ∈ (i.running.exec i.service s).row.built, A a.1 i.service.version a.2) :
    (∀ a ∈ (F.exec step).pool, A a.1 a.2.1 a.2.2) ∧ ∀ node, ∀ i ∈ (F.exec step).nodes node, I i := by
  -- the other nodes are as they were
  have hothers : ∀ {node : ℕ} {o : Option (Incarnation σ)}, (∀ i ∈ o, I i) →
      ∀ node', ∀ i ∈ Function.update F.nodes node o node', I i := by
    intro node o ho node' i hi
    by_cases heq : node' = node
    · subst heq
      rw [Function.update_self] at hi
      exact ho i hi
    · rw [Function.update_of_ne heq] at hi
      exact hnodes node' i hi
  cases step with
  | attach node S env sm₀ seen =>
    rw [Fleet.exec]
    split
    · rename_i row hrow
      refine ⟨hpool, hothers ?_⟩
      rintro i ⟨⟩
      exact hattach node S env sm₀ seen row rfl hrow
    · refine ⟨hpool, hothers ?_⟩
      rintro i ⟨⟩
  | row node step =>
    rw [Fleet.exec]
    split
    · exact ⟨hpool, hnodes⟩
    rename_i i hi
    obtain ⟨hinc, hbuilt⟩ := hrow node step i rfl hi (hnodes node i hi)
    refine ⟨?_, hothers ?_⟩
    · intro a ha
      obtain ha | ha := List.mem_append.mp ha
      · exact hpool a ha
      · obtain ⟨b, hb, rfl⟩ := List.mem_map.mp ha
        exact hbuilt b hb
    · rintro j ⟨⟩
      exact hinc

end Fleet

end Service

end UltimaCluster
