/-
  Outputs are delivered at least once.
-/
import UltimaCluster.OutputCourse

namespace UltimaCluster

open Function (update update_of_ne update_self)

namespace Output

open Service (anyLook)

namespace OutputNode

variable {σ : Type} {L : CommittedLog} {declared : List ℕ} {n n' : OutputNode σ} {s : ℕ}

/-! ## The others -/

section
variable (h : n.Inv L declared)

include h

theorem Inv.agents_carry (hagents : n'.agents = n.agents) (hrows : ∀ s, (n.rows s).isSome → (n'.rows s).isSome)
    (k : ∀ s, Carries n n' s) :
    ∀ s, ∀ a ∈ n'.agents s, s ∈ declared ∧ (n'.rows s).isSome ∧ n'.Holds L s a := by
  intro s a ha
  rw [hagents] at ha
  obtain ⟨hd, hr, hold⟩ := h.agents s a ha
  exact ⟨hd, hrows s hr, (k s).holds hold⟩

theorem Inv.words {service progress disk persisted : ℕ} {d : DutyPc} (hs : n.Mark L declared service)
    (hp : n.Mark L declared progress) (hd : n.Mark L declared disk) (hduty : n.OnDuty L declared d) :
    Inv L declared { n with service, progress, disk, persisted, duty := d } := by
  have k : ∀ s, Carries n { n with service, progress, disk, persisted, duty := d } s := by
    intro s
    refine carries_of_eq ?_ ?_ ?_ ?_ ?_ ?_ s <;> rfl
  have hsub : ∀ r ∈ n.handed,
      r ∈ OutputNode.handed { n with service, progress, disk, persisted, duty := d } := fun _ hr => hr
  refine ⟨h.slots, hs.carry hsub le_rfl, hp.carry hsub le_rfl, hd.carry hsub le_rfl, hduty.carry hsub le_rfl,
    h.rows, ?_, h.stamps, h.order, h.applied⟩
  exact h.agents_carry rfl (fun _ hr => hr) k

theorem Inv.duty_step (floorElapsed : Bool) : (n.dutyCycle declared floorElapsed).Inv L declared := by
  have hduty := h.duty
  unfold dutyCycle
  cases hpc : n.duty with
  | idle =>
    refine h.words h.service h.progress h.disk ⟨[], rfl, ?_, .inl ⟨rfl, rfl⟩⟩
    intro s hs
    cases hs
  | mins ids least =>
    rw [hpc] at hduty
    obtain ⟨seen, hsplit, hcov, hleast⟩ := hduty
    cases ids with
    | nil =>
      dsimp only
      rw [List.append_nil] at hsplit
      split
      · exact h.words h.service h.progress h.disk trivial
      · rename_i hne
        refine h.words ⟨fun s hs => hcov s (hsplit ▸ hs), ?_⟩ h.progress h.disk trivial
        rcases hleast with ⟨hnil, -⟩ | hedge
        · exact absurd (hsplit.trans hnil) hne
        · exact hedge
    | cons id ids =>
      obtain ⟨hedge, hslot⟩ := h.slots id
      have hid : id ∈ declared := by
        rw [hsplit]
        exact List.mem_append_right _ List.mem_cons_self
      refine h.words h.service h.progress h.disk ⟨seen ++ [id], ?_, ?_, .inr ?_⟩
      · rw [hsplit, List.append_assoc, List.singleton_append]
      · intro s hs
        rcases List.mem_snoc.mp hs with hs | rfl
        · exact (hcov s hs).mono (min_le_left _ _)
        · exact (hslot hid).mono (min_le_right _ _)
      · rcases hleast with ⟨-, rfl⟩ | hedge'
        · have := hedge.lt
          rw [min_eq_right (by omega)]
          exact hedge
        · rcases min_choice least (n.completed id) with heq | heq
          · rw [heq]
            exact hedge'
          · rw [heq]
            exact hedge
  | persist =>
    dsimp only
    split
    · exact h.words h.service h.progress h.disk trivial
    · exact h.words h.service h.progress h.service h.service
  | mirror v =>
    rw [hpc] at hduty
    exact h.words h.service hduty h.disk trivial

theorem Inv.restart_step (hzero : L.Edge 0) : n.restart.Inv L declared := by
  have hstale : ∀ s, n.restart.Fresh s := by
    intro s r hr hcur
    have hle := (h.stamps r hr).1
    have heq : r.reign = n.reign + 1 := hcur.2.2
    omega
  have k : ∀ s, Carries n n.restart s :=
    fun s => ⟨fun _ hr => hr, le_rfl, fun r hr hcur => absurd hcur (hstale s r hr), nofun, fun _ ht => ht⟩
  have hmark : n.restart.Mark L declared 0 := ⟨fun _ _ => covered_zero, hzero⟩
  have hdisk : n.restart.Mark L declared n.disk :=
    Mark.carry (n := n) (fun _ hr => hr) le_rfl h.disk
  refine ⟨fun _ => ⟨hzero, fun _ => covered_zero⟩, hmark, hdisk, hdisk, trivial, ?_, ?_, ?_,
    h.order, h.applied⟩
  · exact fun s i hi => ⟨(h.rows s i hi).1, Nat.zero_le _⟩
  · exact h.agents_carry rfl (fun _ hr => hr) k
  · exact fun r hr => ⟨(h.stamps r hr).1.trans (Nat.le_succ _), (h.stamps r hr).2⟩

theorem Inv.lead_step (b : Bool) : (n.exec declared (.lead b)).Inv L declared := by
  have hreign : n.reign ≤ (n.exec declared (.lead b)).reign := by
    show n.reign ≤ if _ then _ else _
    split
    · exact Nat.le_succ _
    · exact le_rfl
  refine h.carry rfl rfl rfl rfl rfl rfl le_rfl hreign (fun _ => le_rfl) h.rows
    (h.agents_carry rfl (fun _ hr => hr) fun s => ?_)
  by_cases hup : (b && !n.leader) = true
  · -- a new leadership, in which nothing was handed over
    have hfresh : (n.exec declared (.lead b)).Fresh s := by
      intro r hr hcur
      have hle := (h.stamps r hr).1
      have heq : r.reign = if b && !n.leader then n.reign + 1 else n.reign := hcur.2.2
      rw [if_pos hup] at heq
      omega
    exact ⟨fun _ hr => hr, le_rfl, fun r hr hcur => absurd hcur (hfresh r hr), fun _ => .inr hfresh,
      fun _ ht => ht⟩
  · refine ⟨fun _ hr => hr, le_rfl, fun r hr hcur => ⟨hr, hcur.1, hcur.2.1, ?_⟩, fun hl => .inl ?_,
      fun _ ht => ht⟩
    · have heq : r.reign = if b && !n.leader then n.reign + 1 else n.reign := hcur.2.2
      rwa [if_neg hup] at heq
    · have hl : b = true := hl
      cases hn : n.leader with
      | true => rfl
      | false => simp [hl, hn] at hup

theorem Inv.attach_step {S : Service σ} {env : AttachEnv} {sm₀ : σ} {seen : Counters}
    (hp : n.Possible L declared (.attach s S env sm₀ seen)) :
    (n.exec declared (.attach s S env sm₀ seen)).Inv L declared := by
  obtain ⟨hdecl, -, -, hM, henv, hsm₀⟩ := hp
  unfold exec
  dsimp only
  split
  · exact h
  rename_i row hrow
  obtain ⟨r, hstands, -⟩ := Service.attach_called hrow henv hsm₀
  refine h.carry rfl rfl rfl rfl rfl rfl le_rfl le_rfl ?_ ?_ ?_
  · intro t
    show n.lives t ≤ update n.lives s (n.lives s + 1) t
    by_cases hts : t = s
    · subst hts
      rw [update_self]
      exact Nat.le_succ _
    · rw [update_of_ne hts]
  · intro t i hi
    by_cases hts : t = s
    · subst hts
      simp only [update_self] at hi ⊢
      obtain rfl := Option.some.inj hi
      exact ⟨⟨hM, row, _, r, hstands⟩, le_rfl⟩
    · simp only [update_of_ne hts] at hi ⊢
      exact h.rows t i hi
  · intro t b hb
    by_cases hts : t = s
    · subst hts
      simp only [update_self] at hb ⊢
      obtain rfl := Option.some.inj hb
      refine ⟨hdecl, rfl, ?_⟩
      -- the calls before are of other incarnations
      intro _ c hc hcur
      have hle := (h.stamps c hc).2
      have heq : c.life = update n.lives t (n.lives t + 1) t := hcur.2.1
      rw [update_self] at heq
      rw [hcur.1] at hle
      omega
    · simp only [update_of_ne hts] at hb ⊢
      obtain ⟨hd, hr, hold⟩ := h.agents t b hb
      refine ⟨hd, hr, Carries.holds (n := n) ⟨fun _ hr => hr, le_rfl, ?_, .inl, ?_⟩ hold⟩
      · intro c hc hcur
        refine ⟨hc, hcur.1, ?_, hcur.2.2⟩
        have heq : c.life = update n.lives s (n.lives s + 1) t := hcur.2.1
        rwa [update_of_ne hts] at heq
      · rintro u ⟨i, hi, hle⟩
        refine ⟨i, ?_, hle⟩
        show update n.rows s _ t = some i
        rwa [update_of_ne hts]

theorem Inv.detach_step : (n.exec declared (.detach s)).Inv L declared := by
  refine h.carry rfl rfl rfl rfl rfl rfl le_rfl le_rfl (fun _ => le_rfl) ?_ ?_
  · intro t i hi
    have hi : update n.rows s none t = some i := hi
    by_cases hts : t = s
    · subst hts
      rw [update_self] at hi
      cases hi
    · rw [update_of_ne hts] at hi
      exact h.rows t i hi
  · intro t b hb
    have hb : update n.agents s none t = some b := hb
    by_cases hts : t = s
    · subst hts
      rw [update_self] at hb
      cases hb
    · rw [update_of_ne hts] at hb
      have hrows : (n.exec declared (.detach s)).rows t = n.rows t := update_of_ne hts _ _
      obtain ⟨hd, hr, hold⟩ := h.agents t b hb
      refine ⟨hd, hrows ▸ hr, Carries.holds (n := n)
        ⟨fun _ hr => hr, le_rfl, fun _ hr hcur => ⟨hr, hcur⟩, .inl, ?_⟩ hold⟩
      intro u hu
      rw [Applied, hrows]
      exact hu

theorem Inv.row_step {step : RowStep} (hp : n.Possible L declared (.row s step))
    (hord : n.Orderly L (.row s step)) : (n.exec declared (.row s step)).Inv L declared := by
  unfold exec
  dsimp only
  split
  · exact h
  rename_i i hi
  obtain ⟨⟨hM, row₀, due, r, hstands⟩, hword⟩ := h.rows s i hi
  obtain ⟨r', -, hstands', happ⟩ := (Service.called_keeps hM (anyLook row₀)).exec hstands (hp i hi)
    (hord i hi) (Service.watches_true step)
  refine h.carry rfl rfl rfl rfl rfl rfl le_rfl le_rfl (fun _ => le_rfl) ?_
    (h.agents_carry rfl ?_ fun t => ⟨fun _ hr => hr, le_rfl, fun _ hr hcur => ⟨hr, hcur⟩, .inl, ?_⟩)
  · intro t j hj
    by_cases hts : t = s
    · subst hts
      simp only [update_self] at hj
      obtain rfl := Option.some.inj hj
      exact ⟨⟨hM, row₀, due, r', hstands'⟩, hword.trans happ⟩
    · simp only [update_of_ne hts] at hj
      exact h.rows t j hj
  · intro t ht
    by_cases hts : t = s
    · subst hts
      simp only [update_self]
      rfl
    · simp only [update_of_ne hts]
      exact ht
  · rintro u ⟨j, hj, hle⟩
    by_cases hts : t = s
    · subst hts
      obtain rfl : i = j := Option.some.inj (hi.symm.trans hj)
      exact ⟨_, update_self _ _ _, hle.trans happ⟩
    · exact ⟨j, (update_of_ne hts _ _).trans hj, hle⟩

theorem Inv.publish_step : (n.exec declared (.publish s)).Inv L declared := by
  unfold exec
  dsimp only
  split
  · exact h
  rename_i i hi
  refine h.carry rfl rfl rfl rfl rfl rfl le_rfl le_rfl (fun _ => le_rfl) ?_
    (h.agents_carry rfl (fun _ hr => hr) fun t => ?_)
  · intro t j hj
    by_cases hts : t = s
    · subst hts
      simp only [update_self]
      obtain rfl : i = j := Option.some.inj (hi.symm.trans hj)
      exact ⟨(h.rows t i hi).1, le_rfl⟩
    · simp only [update_of_ne hts]
      exact h.rows t j hj
  · refine carries_of_eq ?_ ?_ ?_ ?_ ?_ ?_ t <;> rfl

theorem Inv.install_step (pos : ℕ) : (n.exec declared (.install pos)).Inv L declared := by
  refine h.carry rfl rfl rfl rfl rfl rfl (le_max_left _ _) le_rfl (fun _ => le_rfl) h.rows
    (h.agents_carry rfl (fun _ hr => hr) fun t => ?_)
  exact ⟨fun _ hr => hr, le_max_left _ _, fun _ hr hcur => ⟨hr, hcur⟩, .inl, fun _ ht => ht⟩

theorem Inv.step {st : OutputStep σ} (hp : n.Possible L declared st) (hord : n.Orderly L st) :
    (n.exec declared st).Inv L declared := by
  cases st with
  | lead b => exact h.lead_step b
  | attach s S env sm₀ seen => exact h.attach_step hp
  | detach s => exact h.detach_step
  | row s step => exact h.row_step hp hord
  | publish s => exact h.publish_step
  | output s env =>
    unfold exec
    dsimp only
    split
    · exact h
    · rename_i a ha
      exact h.output ha (hp a ha) (hord a ha)
  | duty floorElapsed => exact h.duty_step floorElapsed
  | restart => exact h.restart_step Tiling.edge_base
  | install pos => exact h.install_step pos

end

theorem inv_start {origin : ℕ} (ho : L.Edge origin) :
    (OutputNode.start origin : OutputNode σ).Inv L declared := by
  have hmark : (OutputNode.start origin : OutputNode σ).Mark L declared origin :=
    ⟨fun _ _ => covered_origin, ho⟩
  refine ⟨fun _ => ⟨Tiling.edge_base, fun _ => covered_zero⟩, ⟨fun _ _ => covered_zero, Tiling.edge_base⟩,
    hmark, hmark, trivial, ?_, ?_, ?_, .nil, ?_⟩
  · intro s i hi
    cases hi
  · intro s a ha
    cases ha
  · intro r hr
    cases hr
  · intro r hr
    cases hr

/-! ## Runs -/

/-- While every walk of the journal finds what it needs, whatever a slot or the marker says is
    completed was handed over and answered, in the order of the log, and applied before. -/
theorem delivered_of_orderly {origin : ℕ} (ho : L.Edge origin) {sts : List (OutputStep σ)}
    (hrun : Runs L declared (OutputNode.start origin) sts)
    (hord : Trace.Admits (exec declared) (Orderly L) (OutputNode.start origin) sts) (k : ℕ) :
    (run declared (OutputNode.start origin) (sts.take k)).Delivered L declared := by
  have hinv : (run declared (OutputNode.start origin) (sts.take k)).Inv L declared := by
    refine Trace.Admits.rule (P := fun l => (run declared (OutputNode.start origin) l).Inv L declared)
      (inv_start ho) ?_ ((Trace.Admits.both hrun hord).take k)
    intro l st h hst
    unfold run at h ⊢
    rw [List.foldl_append]
    exact h.step hst.1 hst.2
  exact ⟨fun s hs => (hinv.slots s).2 hs, hinv.disk.covered, hinv.order, hinv.applied⟩

/-! ## A purge above the marker -/

instance (L : CommittedLog) (t : ℕ) (x : ℕ × LogFrame) : Decidable (L.Agrees t x) :=
  decidable_of_iff ((x.1 + x.2.span ≤ t ∨ ∃ y ∈ L.placed, y.1 = x.1 ∧ y.1 + y.2.span ≤ t) → x ∈ L.placed) (by
    refine imp_congr_left (or_congr_right ⟨?_, ?_⟩)
    · rintro ⟨⟨p, f⟩, hy, rfl, hle⟩
      exact ⟨f, hy, hle⟩
    · rintro ⟨f, hy, hle⟩
      exact ⟨_, hy, rfl, hle⟩)

instance (L : CommittedLog) : (a : Agent) → (env : AgentEnv) → Decidable (Found L a env)
  | ⟨cursor, _, .read target⟩, ⟨_, .run frames, _, _⟩ =>
    inferInstanceAs (Decidable (∀ x ∈ Tiling.place LogFrame.span cursor frames, L.Agrees target x))
  | ⟨_, _, .open_ _⟩, env =>
    inferInstanceAs (Decidable (∀ b ∈ env.scan.found, ∀ x ∈ b.placed, L.Agrees env.counters.head x))
  | ⟨_, _, .read _⟩, ⟨_, .notCommitted, _, _⟩ | ⟨_, _, .read _⟩, ⟨_, .overrun, _, _⟩ | ⟨_, _, .top⟩, _
  | ⟨_, _, .reset⟩, _ | ⟨_, _, .load⟩, _ | ⟨_, _, .turn _⟩, _ | ⟨_, _, .batch _ _ _⟩, _
  | ⟨_, _, .block _⟩, _ | ⟨_, _, .walk _ _ _⟩, _ | ⟨_, _, .deliver _ _⟩, _ | ⟨_, _, .hand _ _⟩, _
  | ⟨_, _, .store _ _⟩, _ => .isTrue trivial

theorem reaches_iff {v : JournalScan} {cursor marker : ℕ} {x : ℕ × LogFrame} {xs : List (ℕ × LogFrame)}
    (hv : v.found.flatMap Block.placed = x :: xs) :
    Reaches v cursor marker ↔
      x :: xs = Tiling.place LogFrame.span x.1 ((x :: xs).map Prod.snd) ∧ x.1 ≤ max cursor marker ∧
        cursor < x.1 + Tiling.width LogFrame.span ((x :: xs).map Prod.snd) := by
  constructor
  · rintro ⟨base, fs, hfs, hle, hlt⟩
    rw [hv] at hfs
    cases fs with
    | nil => cases hfs
    | cons f fs =>
      have hsnd : ∀ (l : List LogFrame) (b : ℕ), (Tiling.place LogFrame.span b l).map Prod.snd = l := by
        intro l
        induction l with
        | nil => exact fun _ => rfl
        | cons g l ih => exact fun b => congrArg (g :: ·) (ih _)
      have hx : x.1 = base := congrArg Prod.fst (List.cons.inj hfs).1
      rw [hfs, hsnd, hx]
      exact ⟨rfl, hle, hlt⟩
  · rintro ⟨heq, hle, hlt⟩
    exact ⟨x.1, _, hv.trans heq, hle, hlt⟩

instance (v : JournalScan) (cursor marker : ℕ) : Decidable (Reaches v cursor marker) :=
  match hv : v.found.flatMap Block.placed with
  | x :: xs => decidable_of_iff _ (reaches_iff hv).symm
  | [] => decidable_of_iff (cursor < marker) (by
    constructor
    · exact fun hlt => ⟨marker, [], hv, le_max_right _ _, hlt⟩
    · rintro ⟨base, fs, hfs, hle, hlt⟩
      rw [hv] at hfs
      cases fs with
      | nil =>
        rw [Tiling.width_nil] at hlt
        omega
      | cons f fs => cases hfs)

instance (L : CommittedLog) (n : OutputNode σ) (s : ℕ) :
    (a : Agent) → (env : AgentEnv) → Decidable (n.Steady L s a env)
  | ⟨cursor, _, .open_ _⟩, env =>
    inferInstanceAs (Decidable (Reaches env.scan cursor (max n.progress n.origin)))
  | ⟨_, _, .block w⟩, env =>
    inferInstanceAs (Decidable (w.blocks ≠ [] → w.resume ≤ n.target s env.counters))
  | ⟨_, _, .walk _ bound (x :: _)⟩, _ => inferInstanceAs (Decidable (L.Agrees bound x))
  | ⟨_, _, .walk _ _ []⟩, _ | ⟨_, _, .top⟩, _ | ⟨_, _, .reset⟩, _ | ⟨_, _, .load⟩, _ | ⟨_, _, .turn _⟩, _
  | ⟨_, _, .read _⟩, _ | ⟨_, _, .batch _ _ _⟩, _ | ⟨_, _, .deliver _ _⟩, _ | ⟨_, _, .hand _ _⟩, _
  | ⟨_, _, .store _ _⟩, _ => .isTrue trivial

section

open Service

/-- A service attaches and applies three messages. -/
private def appliesThree : List (OutputStep (Option UInt64)) :=
  [.attach 0 laggard laggardStart none ⟨0, 0⟩,
    .row 0 (.begin_ (some true) (some true) ⟨96, 96⟩ false),
    .row 0 (.turn ⟨[0], .run (List.replicate 3 emptyMessage), fun _ => [], fun _ => false, fun _ => false,
      segmentPass none⟩),
    .publish 0, .lead true]

/-- The agent of a new leader finds the ring past its cursor, and walks the blocks
    that a scan finds. -/
private def walks (blocks : List Block) (calls : ℕ) : List AgentEnv :=
  List.replicate (7 + 5 * calls) ⟨⟨96, 96⟩, .overrun, ⟨[], [some blocks]⟩, .ok⟩

private def oneBlock : List Block := [⟨64, [emptyMessage]⟩]

private def threeBlocks : List Block := [⟨0, List.replicate 3 emptyMessage⟩]

private theorem appliesThree_runs :
    Runs threeMessages [0] (start 0) appliesThree ∧
      Trace.Admits (exec [0]) (Orderly threeMessages) (start 0) appliesThree := by
  refine ⟨⟨⟨List.mem_singleton_self _, rfl, rfl, placeMachine_advances, laggard_attachable, laggard_resumes⟩,
    ?_, ?_, trivial, trivial, trivial⟩, trivial, ?_, ?_, trivial, trivial, trivial⟩
  · rintro i ⟨⟩
    exact ⟨by decide, by decide⟩
  · rintro i ⟨⟩ x hx c ⟨⟩ -
    revert x
    decide
  · exact fun _ _ => trivial
  · rintro i ⟨⟩ ⟨⟩

private theorem walks_runs (blocks : List Block) (calls : ℕ) (n : OutputNode (Option UInt64)) :
    Runs threeMessages [0] n ((walks blocks calls).map (.output 0)) ↔
      Trace.Admits (fun n env => exec [0] n (.output 0 env))
        (fun n env => ∀ a ∈ n.agents 0, Found threeMessages a env) n (walks blocks calls) :=
  Trace.admits_map

private theorem walks_orderly (blocks : List Block) (calls : ℕ) (n : OutputNode (Option UInt64)) :
    Trace.Admits (exec [0]) (Orderly threeMessages) n ((walks blocks calls).map (.output 0)) ↔
      Trace.Admits (fun n env => exec [0] n (.output 0 env))
        (fun n env => ∀ a ∈ n.agents 0, n.Steady threeMessages 0 a env) n (walks blocks calls) :=
  Trace.admits_map

/-- The walk finds everything; then the node persists the marker. -/
private def walksAll : List (OutputStep (Option UInt64)) :=
  appliesThree ++ (walks threeBlocks 3).map (.output 0) ++ List.replicate 5 (.duty true)

theorem delivered_of_orderly_three :
    (run [0] (start 0) (walksAll.take walksAll.length)).Delivered threeMessages [0] ∧
      (run [0] (start 0) walksAll).disk = 96 := by
  refine ⟨delivered_of_orderly Tiling.edge_base ?_ ?_ _, by decide +kernel⟩
  · unfold walksAll
    rw [Runs, Trace.admits_append, Trace.admits_append]
    refine ⟨⟨appliesThree_runs.1, (walks_runs _ _ _).mpr (by decide +kernel)⟩, ?_⟩
    exact ⟨trivial, trivial, trivial, trivial, trivial, trivial⟩
  · unfold walksAll
    rw [Trace.admits_append, Trace.admits_append]
    refine ⟨⟨appliesThree_runs.2, (walks_orderly _ _ _).mpr (by decide +kernel)⟩, ?_⟩
    exact ⟨trivial, trivial, trivial, trivial, trivial, trivial⟩

/-- The walk begins at the block that is left. -/
private def walksTheRest : List (OutputStep (Option UInt64)) :=
  appliesThree ++ (walks oneBlock 1).map (.output 0)

/-- A node that was purged above its marker becomes leader, and its walk begins where the
    journal does. -/
theorem skipped_after_purge :
    Runs threeMessages [0] (start 0) walksTheRest ∧
      ¬ (run [0] (start 0) walksTheRest).Delivered threeMessages [0] := by
  constructor
  · unfold walksTheRest
    rw [Runs, Trace.admits_append]
    exact ⟨appliesThree_runs.1, (walks_runs _ _ _).mpr (by decide +kernel)⟩
  · intro h
    obtain ⟨c, hc, -, hframe, -⟩ := h.slot 0 (List.mem_singleton_self _) (0, emptyMessage)
      (by decide) rfl le_rfl (by decide +kernel)
    have hnone : ∀ c ∈ (run [0] (start 0) walksTheRest).handed, c.frame ≠ (0, emptyMessage) := by
      decide +kernel
    exact hnone c hc hframe

end

end OutputNode

end Output

end UltimaCluster
