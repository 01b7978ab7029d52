/-
  The course of an output agent: what a slot or the marker says is completed was
  handed over and answered, and the agent's cursor is behind nothing else.

  `Delivered` is what is to be shown, `Orderly` what a walk of the journal has to
  find; `Inv` is the invariant, which every access of an agent keeps
  (`Inv.output`).
-/
import UltimaCluster.Output

namespace UltimaCluster

namespace Output

open Service (anyLook Called Stands Advances)

namespace OutputNode

variable {σ : Type} (L : CommittedLog) (declared : List ℕ)

/-! ## What is said -/

/-- The frame was handed to the handler of the service, which answered `Ok` or
    `Permanent`. -/
def Answered (n : OutputNode σ) (s : ℕ) (x : ℕ × LogFrame) : Prop :=
  ∃ h ∈ n.handed, h.service = s ∧ h.frame = x ∧ h.answer ≠ .retryable

/-- Every message of the log that ends at or below `e` was, of those from the node's
    start on. -/
def Covered (n : OutputNode σ) (s e : ℕ) : Prop :=
  ∀ x ∈ L.placed, x.2.frameType = frameTypeMessage → n.origin ≤ x.1 → x.1 + x.2.span ≤ e →
    n.Answered s x

/-- Within one leadership an agent's calls are in the order of the log; only a frame
    that is to be retried comes twice. -/
def InOrder (h h' : Handed) : Prop :=
  h.service = h'.service → h.life = h'.life → h.reign = h'.reign →
    h.frame.1 ≤ h'.frame.1 ∧ (h.answer ≠ .retryable → h.frame.1 < h'.frame.1)

/-- What was handed over, and in what order. -/
structure Delivered (n : OutputNode σ) : Prop where
  slot : ∀ s ∈ declared, n.Covered L s (n.completed s)
  marker : ∀ s ∈ declared, n.Covered L s n.disk
  order : n.handed.Pairwise InOrder
  /-- The state machine had applied what was handed over. -/
  applied : ∀ h ∈ n.handed, ∃ q ∈ h.lastApplied, h.frame.1 ≤ q.toNat

/-- What a scan finds is one piece, which begins at or below the marker or the
    cursor, and reaches past the cursor. -/
def Reaches (v : JournalScan) (cursor marker : ℕ) : Prop :=
  ∃ (base : ℕ) (fs : List LogFrame), v.found.flatMap Block.placed = Tiling.place LogFrame.span base fs ∧
    base ≤ max cursor marker ∧ cursor < base + Tiling.width LogFrame.span fs

/-- A walk finds what it needs: what it scans reaches from the cursor or the marker
    on, the target that it loads for a block is not below where it resumes, and what
    it takes up to that target is the log's. -/
def Steady (n : OutputNode σ) (s : ℕ) (a : Agent) (env : AgentEnv) : Prop :=
  match a.pc with
  | .open_ _ => Reaches env.scan a.cursor (max n.progress n.origin)
  | .block w => w.blocks ≠ [] → w.resume ≤ n.target s env.counters
  | .walk _ bound (x :: _) => L.Agrees bound x
  | _ => True

/-- The walks of the output agents and of the apply agents find what they need. -/
def Orderly (n : OutputNode σ) : OutputStep σ → Prop
  | .row s step => ∀ i ∈ n.rows s, Service.SteadyStep i.running.row step
  | .output s env => ∀ a ∈ n.agents s, n.Steady L s a env
  | _ => True

/-! ## The invariant -/

/-- The state machine of a row has applied what the row says. -/
def RowOk (i : Service.Incarnation σ) : Prop :=
  Advances i.service.machine ∧ ∃ (row₀ : ServiceRow σ) (due : List AppFrame) (r : ℕ),
    Stands i.service L (anyLook row₀) (Called i.service L due) i.running r

section
variable (n : OutputNode σ) (s : ℕ)

/-- A call of the incarnation that runs, in the leadership that holds. -/
def Current (h : Handed) : Prop := h.service = s ∧ h.life = n.lives s ∧ h.reign = n.reign

def Behind (c : ℕ) : Prop := ∀ h ∈ n.handed, n.Current s h → h.frame.1 + h.frame.2.span ≤ c

def Fresh : Prop := ∀ h ∈ n.handed, ¬ n.Current s h

/-- The row has applied up to `t`. -/
def Applied (t : ℕ) : Prop := ∃ i ∈ n.rows s, t ≤ i.running.row.applied

/-- The agent has come to `c`. -/
structure Stood (c : ℕ) : Prop where
  covered : n.Covered L s c
  edge : L.Edge c
  behind : n.Behind s c

/-- A walk with the frames that are left for it. -/
structure Walking (w : Walk) (rest : List (ℕ × LogFrame)) (q : ℕ) (fs : List LogFrame) (reach : ℕ) :
    Prop where
  rest : rest = Tiling.place LogFrame.span q fs
  past : w.resume < q + Tiling.width LogFrame.span fs
  next : q = w.cursor ∨ w.cursor = w.resume
  covered : n.Covered L s reach
  reach : q ≤ reach ∧ w.cursor ≤ reach ∧ w.resume ≤ reach
  edge : L.Edge w.cursor ∧ L.Edge w.resume
  behind : n.Behind s (max w.resume w.cursor)
  target : n.Applied s w.target

/-- What is kept for the frames behind the one that is delivered. -/
def Kept (a : Agent) (x : ℕ × LogFrame) : Source → Prop
  | .live target _ frames => a.cursor = x.1 + x.2.span ∧ n.Applied s target ∧
      ∀ y ∈ Tiling.place LogFrame.span a.cursor frames, L.Agrees target y
  | .walk w bound frames => w.resume ≤ x.1 ∧ w.resume ≤ bound ∧ L.Edge w.resume ∧
      n.Applied s w.target ∧ n.Applied s bound ∧
      ∃ fs, frames ++ w.blocks.flatMap Block.placed = Tiling.place LogFrame.span (x.1 + x.2.span) fs

/-- A frame that is being delivered. -/
structure Pending (x : ℕ × LogFrame) : Prop where
  mem : x ∈ L.placed
  message : x.2.frameType = frameTypeMessage
  covered : n.Covered L s x.1
  applied : n.Applied s (x.1 + x.2.span)
  behind : ∀ h ∈ n.handed, n.Current s h →
    h.frame.1 + h.frame.2.span ≤ x.1 ∨ h.frame = x ∧ h.answer = .retryable

/-- What an agent knows at its place. -/
def Holds (a : Agent) : Prop :=
  match a.pc with
  | .top => if a.wasLeader then n.Stood L s a.cursor else n.leader = true → n.Fresh s
  | .reset => n.Fresh s
  | .load => a.wasLeader = true ∧ n.Stood L s a.cursor
  | .turn target | .read target | .open_ target =>
    a.wasLeader = true ∧ n.Stood L s a.cursor ∧ n.Applied s target
  | .batch target _ frames => a.wasLeader = true ∧ n.Stood L s a.cursor ∧ n.Applied s target ∧
    ∀ x ∈ Tiling.place LogFrame.span a.cursor frames, L.Agrees target x
  | .block w => a.wasLeader = true ∧
    ∃ q fs reach, n.Walking L s w (w.blocks.flatMap Block.placed) q fs reach
  | .walk w bound frames => a.wasLeader = true ∧ n.Applied s bound ∧ w.resume ≤ bound ∧
    ∃ q fs reach, n.Walking L s w (frames ++ w.blocks.flatMap Block.placed) q fs reach
  | .deliver x src | .hand x src => a.wasLeader = true ∧ n.Pending L s x ∧ n.Kept L s a x src
  | .store x src => a.wasLeader = true ∧ n.Stood L s (x.1 + x.2.span) ∧ n.Kept L s a x src

end

/-- All declared services have come to `v`. -/
structure Mark (n : OutputNode σ) (v : ℕ) : Prop where
  covered : ∀ s ∈ declared, n.Covered L s v
  edge : L.Edge v

/-- The node on its way over the slots. -/
def OnDuty (n : OutputNode σ) : DutyPc → Prop
  | .idle | .persist => True
  | .mins ids least => ∃ seen, declared = seen ++ ids ∧ (∀ s ∈ seen, n.Covered L s least) ∧
    (seen = [] ∧ least = 2 ^ 64 - 1 ∨ L.Edge least)
  | .mirror v => n.Mark L declared v

/-- The invariant of a run. -/
structure Inv (n : OutputNode σ) : Prop where
  slots : ∀ s, L.Edge (n.completed s) ∧ (s ∈ declared → n.Covered L s (n.completed s))
  service : n.Mark L declared n.service
  progress : n.Mark L declared n.progress
  disk : n.Mark L declared n.disk
  duty : n.OnDuty L declared n.duty
  rows : ∀ s, ∀ i ∈ n.rows s, RowOk L i ∧ n.applied s ≤ i.running.row.applied
  agents : ∀ s, ∀ a ∈ n.agents s, s ∈ declared ∧ (n.rows s).isSome ∧ n.Holds L s a
  stamps : ∀ h ∈ n.handed, h.reign ≤ n.reign ∧ h.life ≤ n.lives h.service
  order : n.handed.Pairwise InOrder
  applied : ∀ h ∈ n.handed, ∃ q ∈ h.lastApplied, h.frame.1 ≤ q.toNat

variable {L declared} {n n' : OutputNode σ} {s c e : ℕ} {x : ℕ × LogFrame} {a : Agent}

/-! ## Coverage -/

theorem Covered.mono (h : n.Covered L s e) (hle : c ≤ e) : n.Covered L s c :=
  fun x hx hm ho hend => h x hx hm ho (hend.trans hle)

theorem Covered.max (h : n.Covered L s c) (h' : n.Covered L s e) : n.Covered L s (max c e) := by
  intro x hx hm ho hend
  rcases le_max_iff.mp hend with hend | hend
  · exact h x hx hm ho hend
  · exact h' x hx hm ho hend

theorem covered_origin : n.Covered L s n.origin := by
  intro x _ _ ho hend
  have := x.2.span_pos
  omega

theorem covered_zero : n.Covered L s 0 := by
  intro x _ _ _ hend
  have := x.2.span_pos
  omega

theorem Covered.over (h : n.Covered L s c) (hx : x ∈ L.placed) (hle : x.1 ≤ c)
    (hm : x.2.frameType = frameTypeMessage → c < x.1 + x.2.span → n.origin ≤ x.1 → n.Answered s x) :
    n.Covered L s (x.1 + x.2.span) := by
  intro y hy hmy ho hend
  by_cases hyc : y.1 + y.2.span ≤ c
  · exact h y hy hmy ho hyc
  · -- the frame lies between: it is the one
    have hyx : y.1 ≤ x.1 := by
      rcases Tiling.edge_cases (Tiling.edge_of_mem hy) hx with hle' | hle'
      · have := y.2.span_pos
        omega
      · exact hle'
    have hxy : x.1 ≤ y.1 := by
      rcases Tiling.edge_cases (Tiling.edge_of_mem hx) hy with hle' | hle'
      · omega
      · exact hle'
    obtain rfl : y = x := Tiling.place_unique LogFrame.span_pos hy hx (by omega)
    exact hm hmy (by omega) ho

theorem Behind.mono (h : n.Behind s c) (hle : c ≤ e) : n.Behind s e :=
  fun r hr hcur => (h r hr hcur).trans hle

theorem Fresh.behind (h : n.Fresh s) : n.Behind s c := fun r hr hcur => absurd hcur (h r hr)

theorem Applied.mono (h : n.Applied s e) (hle : c ≤ e) : n.Applied s c := by
  obtain ⟨i, hi, hi'⟩ := h
  exact ⟨i, hi, hle.trans hi'⟩

/-! ## What others do -/

/-- What a step leaves to the agent of a service. -/
structure Carries (n n' : OutputNode σ) (s : ℕ) : Prop where
  handed : ∀ h ∈ n.handed, h ∈ n'.handed
  origin : n.origin ≤ n'.origin
  current : ∀ h ∈ n'.handed, n'.Current s h → h ∈ n.handed ∧ n.Current s h
  leader : n'.leader = true → n.leader = true ∨ n'.Fresh s
  applied : ∀ t, n.Applied s t → n'.Applied s t

theorem Covered.carry (hh : ∀ h ∈ n.handed, h ∈ n'.handed) (ho : n.origin ≤ n'.origin)
    (h : n.Covered L s c) : n'.Covered L s c := by
  intro x hx hm ho' hend
  obtain ⟨r, hr, hs⟩ := h x hx hm (ho.trans ho') hend
  exact ⟨r, hh r hr, hs⟩

theorem Mark.carry (hh : ∀ h ∈ n.handed, h ∈ n'.handed) (ho : n.origin ≤ n'.origin)
    (h : n.Mark L declared c) : n'.Mark L declared c :=
  ⟨fun s hs => (h.covered s hs).carry hh ho, h.edge⟩

section
variable (k : Carries n n' s)

include k

theorem Carries.behind (h : n.Behind s c) : n'.Behind s c := by
  intro r hr hcur
  obtain ⟨hr, hcur⟩ := k.current r hr hcur
  exact h r hr hcur

theorem Carries.fresh (h : n.Fresh s) : n'.Fresh s := by
  intro r hr hcur
  obtain ⟨hr, hcur⟩ := k.current r hr hcur
  exact h r hr hcur

theorem Carries.stood (h : n.Stood L s c) : n'.Stood L s c :=
  ⟨h.covered.carry k.handed k.origin, h.edge, k.behind h.behind⟩

theorem Carries.walking {w : Walk} {rest : List (ℕ × LogFrame)} {q reach : ℕ} {fs : List LogFrame}
    (h : n.Walking L s w rest q fs reach) : n'.Walking L s w rest q fs reach :=
  { h with
    covered := h.covered.carry k.handed k.origin
    behind := k.behind h.behind
    target := k.applied _ h.target }

theorem Carries.kept {src : Source} (h : n.Kept L s a x src) : n'.Kept L s a x src := by
  cases src with
  | live target before frames => exact ⟨h.1, k.applied _ h.2.1, h.2.2⟩
  | walk w bound frames =>
    obtain ⟨hres, hbound, hedge, ht, hb, hfs⟩ := h
    exact ⟨hres, hbound, hedge, k.applied _ ht, k.applied _ hb, hfs⟩

theorem Carries.pending (h : n.Pending L s x) : n'.Pending L s x := by
  refine ⟨h.mem, h.message, h.covered.carry k.handed k.origin, k.applied _ h.applied, ?_⟩
  intro r hr hcur
  obtain ⟨hr, hcur⟩ := k.current r hr hcur
  exact h.behind r hr hcur

theorem Carries.holds (h : n.Holds L s a) : n'.Holds L s a := by
  unfold Holds at h ⊢
  cases hpc : a.pc with
  | top =>
    simp only [hpc] at h ⊢
    by_cases hw : a.wasLeader = true
    · rw [if_pos hw] at h ⊢
      exact k.stood h
    · rw [if_neg hw] at h ⊢
      intro hl
      rcases k.leader hl with hl | hf
      · exact k.fresh (h hl)
      · exact hf
  | reset =>
    simp only [hpc] at h ⊢
    exact k.fresh h
  | load =>
    simp only [hpc] at h ⊢
    exact ⟨h.1, k.stood h.2⟩
  | turn target | read target | open_ target =>
    simp only [hpc] at h ⊢
    exact ⟨h.1, k.stood h.2.1, k.applied _ h.2.2⟩
  | batch target before frames =>
    simp only [hpc] at h ⊢
    exact ⟨h.1, k.stood h.2.1, k.applied _ h.2.2.1, h.2.2.2⟩
  | block w =>
    simp only [hpc] at h ⊢
    obtain ⟨hl, q, fs, reach, hw⟩ := h
    exact ⟨hl, q, fs, reach, k.walking hw⟩
  | walk w bound frames =>
    simp only [hpc] at h ⊢
    obtain ⟨hl, hb, hres, q, fs, reach, hw⟩ := h
    exact ⟨hl, k.applied _ hb, hres, q, fs, reach, k.walking hw⟩
  | deliver x src | hand x src =>
    simp only [hpc] at h ⊢
    exact ⟨h.1, k.pending h.2.1, k.kept h.2.2⟩
  | store x src =>
    simp only [hpc] at h ⊢
    exact ⟨h.1, k.stood h.2.1, k.kept h.2.2⟩

end

theorem carries_of_eq (hh : n'.handed = n.handed) (ho : n'.origin = n.origin)
    (hl : n'.lives = n.lives) (hr : n'.reign = n.reign) (hle : n'.leader = n.leader)
    (hrows : n'.rows = n.rows) (s : ℕ) : Carries n n' s := by
  have hcur : ∀ h, n'.Current s h ↔ n.Current s h := by
    intro h
    rw [Current, Current, hl, hr]
  refine ⟨fun h hm => hh ▸ hm, ho ▸ le_rfl, ?_, fun h => .inl (hle ▸ h), ?_⟩
  · rw [hh]
    exact fun h hm hc => ⟨hm, (hcur h).mp hc⟩
  · intro t ht
    rw [Applied, hrows]
    exact ht

theorem OnDuty.carry (hh : ∀ h ∈ n.handed, h ∈ n'.handed) (ho : n.origin ≤ n'.origin) {d : DutyPc}
    (h : n.OnDuty L declared d) : n'.OnDuty L declared d := by
  cases d with
  | idle | persist => trivial
  | mins ids least =>
    obtain ⟨seen, hsplit, hcov, hedge⟩ := h
    exact ⟨seen, hsplit, fun s hs => (hcov s hs).carry hh ho, hedge⟩
  | mirror v => exact Mark.carry hh ho h

theorem Inv.build (h : n.Inv L declared) (hh : ∀ r ∈ n.handed, r ∈ n'.handed) (ho : n.origin ≤ n'.origin)
    (hs : n'.service = n.service) (hp : n'.progress = n.progress) (hd : n'.disk = n.disk)
    (hduty : n'.duty = n.duty)
    (hslots : ∀ s, L.Edge (n'.completed s) ∧ (s ∈ declared → n'.Covered L s (n'.completed s)))
    (hrows : ∀ s, ∀ i ∈ n'.rows s, RowOk L i ∧ n'.applied s ≤ i.running.row.applied)
    (hagents : ∀ s, ∀ a ∈ n'.agents s, s ∈ declared ∧ (n'.rows s).isSome ∧ n'.Holds L s a)
    (hstamps : ∀ h ∈ n'.handed, h.reign ≤ n'.reign ∧ h.life ≤ n'.lives h.service)
    (horder : n'.handed.Pairwise InOrder)
    (happlied : ∀ h ∈ n'.handed, ∃ q ∈ h.lastApplied, h.frame.1 ≤ q.toNat) : n'.Inv L declared := by
  refine ⟨hslots, ?_, ?_, ?_, ?_, hrows, hagents, hstamps, horder, happlied⟩
  · rw [hs]
    exact h.service.carry hh ho
  · rw [hp]
    exact h.progress.carry hh ho
  · rw [hd]
    exact h.disk.carry hh ho
  · rw [hduty]
    exact h.duty.carry hh ho

theorem Inv.carry (h : n.Inv L declared) (hc : n'.completed = n.completed)
    (hs : n'.service = n.service) (hp : n'.progress = n.progress) (hd : n'.disk = n.disk)
    (hduty : n'.duty = n.duty) (hh : n'.handed = n.handed) (ho : n.origin ≤ n'.origin)
    (hr : n.reign ≤ n'.reign) (hl : ∀ s, n.lives s ≤ n'.lives s)
    (hrows : ∀ s, ∀ i ∈ n'.rows s, RowOk L i ∧ n'.applied s ≤ i.running.row.applied)
    (hagents : ∀ s, ∀ a ∈ n'.agents s, s ∈ declared ∧ (n'.rows s).isSome ∧ n'.Holds L s a) :
    n'.Inv L declared := by
  have hh' : ∀ r ∈ n.handed, r ∈ n'.handed := fun r hr => hh ▸ hr
  refine h.build hh' ho hs hp hd hduty ?_ hrows hagents ?_ ?_ ?_
  · rw [hc]
    exact fun s => ⟨(h.slots s).1, fun hd => ((h.slots s).2 hd).carry hh' ho⟩
  · rw [hh]
    intro r hm
    obtain ⟨h1, h2⟩ := h.stamps r hm
    exact ⟨h1.trans hr, h2.trans (hl _)⟩
  · rw [hh]
    exact h.order
  · rw [hh]
    exact h.applied

/-! ## The agent -/

section
variable (h : n.Inv L declared) (ha : n.agents s = some a)

include h ha

theorem Inv.setAgent {a' : Agent} (hold : n.Holds L s a') : (n.setAgent s a').Inv L declared := by
  have k : ∀ t, Carries n (n.setAgent s a') t := carries_of_eq rfl rfl rfl rfl rfl rfl
  obtain ⟨hdecl, hrow, -⟩ := h.agents s a ha
  refine h.carry rfl rfl rfl rfl rfl rfl le_rfl le_rfl (fun _ => le_rfl) h.rows ?_
  intro t b hb
  by_cases hts : t = s
  · subst hts
    have hb : Function.update n.agents t (some a') t = some b := hb
    rw [Function.update_self, Option.some.injEq] at hb
    subst hb
    exact ⟨hdecl, hrow, (k t).holds hold⟩
  · have hb : Function.update n.agents s (some a') t = some b := hb
    rw [Function.update_of_ne hts] at hb
    obtain ⟨hd, hr, hold⟩ := h.agents t b hb
    exact ⟨hd, hr, (k t).holds hold⟩

theorem Inv.applied_target (c : Counters) : n.Applied s (n.target s c) := by
  obtain ⟨-, hrow, -⟩ := h.agents s a ha
  obtain ⟨i, hi⟩ := Option.isSome_iff_exists.mp hrow
  exact ⟨i, hi, (min_le_right _ _).trans (h.rows s i hi).2⟩

omit h ha in
theorem Stood.over (hs : n.Stood L s x.1) (hx : x ∈ L.placed)
    (hm : x.2.frameType ≠ frameTypeMessage) : n.Stood L s (x.1 + x.2.span) :=
  ⟨hs.covered.over hx le_rfl fun hm' => absurd hm' hm, Tiling.edge_end_of_mem hx,
    hs.behind.mono (Nat.le_add_right _ _)⟩

omit h ha in
theorem Stood.pending (hs : n.Stood L s x.1) (hx : x ∈ L.placed)
    (hm : x.2.frameType = frameTypeMessage) (happ : n.Applied s (x.1 + x.2.span)) : n.Pending L s x :=
  ⟨hx, hm, hs.covered, happ, fun r hr hcur => .inl (hs.behind r hr hcur)⟩

theorem Inv.batch {target before : ℕ} {frames : List LogFrame} (hpc : a.pc = .batch target before frames)
    (env : AgentEnv) : (n.outputCycle s a env).Inv L declared := by
  obtain ⟨-, -, hold⟩ := h.agents s a ha
  simp only [Holds, hpc] at hold
  obtain ⟨hl, hst, happ, hag⟩ := hold
  have hend : ∀ before, n.Holds L s (a.endBatch target before) := by
    intro before
    unfold Agent.endBatch
    split
    · simp only [Holds, hl, if_true]
      exact hst
    · exact ⟨hl, hst, happ⟩
  unfold outputCycle
  simp only [hpc]
  cases frames with
  | nil => exact h.setAgent ha (hend before)
  | cons f frames =>
    dsimp only
    by_cases hlt : target < a.cursor + f.span
    · rw [if_pos hlt]
      exact h.setAgent ha (hend before)
    · rw [if_neg hlt]
      have hx : (a.cursor, f) ∈ L.placed :=
        hag (a.cursor, f) (List.mem_cons_self) (.inl (Nat.not_lt.mp hlt))
      have hrest : ∀ x ∈ Tiling.place LogFrame.span (a.cursor + f.span) frames, L.Agrees target x :=
        fun x hx => hag x (List.mem_cons_of_mem _ hx)
      split
      · rename_i hm
        refine h.setAgent ha ?_
        exact ⟨hl, Stood.pending (x := (a.cursor, f)) hst hx hm (happ.mono (Nat.not_lt.mp hlt)),
          rfl, happ, hrest⟩
      · rename_i hm
        refine h.setAgent ha ?_
        exact ⟨hl, Stood.over (x := (a.cursor, f)) hst hx hm, happ, hrest⟩

variable {env : AgentEnv}

theorem Inv.open_ {target : ℕ} (hpc : a.pc = .open_ target) (hst : n.Steady L s a env) :
    (n.outputCycle s a env).Inv L declared := by
  obtain ⟨hdecl, -, hold⟩ := h.agents s a ha
  simp only [Holds, hpc] at hold
  simp only [Steady, hpc] at hst
  obtain ⟨hl, hstood, happ⟩ := hold
  obtain ⟨base, fs, hfound, hbase, hpast⟩ := hst
  unfold outputCycle
  simp only [hpc]
  refine h.setAgent ha ?_
  refine ⟨hl, base, fs, max a.cursor (max n.progress n.origin), hfound, hpast, .inr rfl, ?_, ?_,
    ⟨hstood.edge, hstood.edge⟩, ?_, happ⟩
  · exact hstood.covered.max ((h.progress.covered s hdecl).max covered_origin)
  · exact ⟨hbase, le_max_left _ _, le_max_left _ _⟩
  · rw [max_self]
    exact hstood.behind

omit h ha in
theorem Walking.stood {w : Walk} {rest : List (ℕ × LogFrame)} {q reach : ℕ} {fs : List LogFrame}
    (hw : n.Walking L s w rest q fs reach) (hle : w.resume ≤ w.cursor) : n.Stood L s w.cursor := by
  refine ⟨hw.covered.mono hw.reach.2.1, hw.edge.1, ?_⟩
  have hb := hw.behind
  rwa [max_eq_right hle] at hb

theorem Inv.block {w : Walk} (hpc : a.pc = .block w) (hst : n.Steady L s a env) :
    (n.outputCycle s a env).Inv L declared := by
  obtain ⟨-, -, hold⟩ := h.agents s a ha
  simp only [Holds, hpc] at hold
  simp only [Steady, hpc] at hst
  obtain ⟨hl, q, fs, reach, hw⟩ := hold
  unfold outputCycle
  simp only [hpc]
  cases hblocks : w.blocks with
  | nil =>
    rw [hblocks] at hw
    have hfs : fs = [] := by
      cases fs with
      | nil => rfl
      | cons f fs => cases hw.rest
    have hle : w.resume ≤ w.cursor := by
      have hpast := hw.past
      rw [hfs, Tiling.width_nil, Nat.add_zero] at hpast
      rcases hw.next with hq | hq
      · omega
      · omega
    refine h.setAgent ha ?_
    exact ⟨hl, hw.stood hle, hw.target⟩
  | cons b blocks =>
    refine h.setAgent ha ?_
    rw [hblocks, List.flatMap_cons] at hw
    refine ⟨hl, h.applied_target ha env.counters, hst (by rw [hblocks]; exact List.cons_ne_nil _ _), q, fs,
      reach, ?_⟩
    exact { hw with }

theorem Inv.walk {w : Walk} {bound : ℕ} {frames : List (ℕ × LogFrame)}
    (hpc : a.pc = .walk w bound frames) (hst : n.Steady L s a env) :
    (n.outputCycle s a env).Inv L declared := by
  obtain ⟨-, -, hold⟩ := h.agents s a ha
  simp only [Holds, hpc] at hold
  simp only [Steady, hpc] at hst
  obtain ⟨hl, happ, hres, q, fs, reach, hw⟩ := hold
  unfold outputCycle
  simp only [hpc]
  cases frames with
  | nil =>
    refine h.setAgent ha ?_
    exact ⟨hl, q, fs, reach, hw⟩
  | cons x frames =>
    dsimp only at hst ⊢
    obtain ⟨f, fs, rfl⟩ : ∃ f fs', fs = f :: fs' := by
      cases fs with
      | nil => cases hw.rest
      | cons f fs => exact ⟨f, fs, rfl⟩
    have hrest := hw.rest
    rw [List.cons_append, Tiling.place, List.cons.injEq] at hrest
    obtain ⟨rfl, hrest⟩ := hrest
    by_cases hlt : bound < q + f.span
    · rw [if_pos hlt]
      refine h.setAgent ha ?_
      refine ⟨hl, hw.stood ?_, hw.target⟩
      -- a frame below where the walk resumes would end there at the latest
      by_contra hlow
      have hlow : w.cursor < w.resume := Nat.not_le.mp hlow
      obtain rfl : q = w.cursor := hw.next.resolve_right (by omega)
      obtain ⟨g, hg, hgend⟩ := Tiling.Edge.exists_mem hw.edge.1 hw.edge.2 hlow
      have hx := hst (.inr ⟨g, hg, hgend.trans hres⟩)
      have heq := Tiling.place_unique LogFrame.span_pos hx hg rfl
      rw [Prod.mk.injEq] at heq
      rw [heq.2] at hlt
      omega
    · rw [if_neg hlt]
      have hend : q + f.span ≤ bound := Nat.not_lt.mp hlt
      have hx : (q, f) ∈ L.placed := hst (.inl hend)
      split
      · rename_i hm
        split
        · rename_i hlead
          refine h.setAgent ha ?_
          simp only [Holds, Agent.abandon]
          simp only [Bool.not_eq_true'] at hlead
          rw [hlead]
          simp
        · refine h.setAgent ha ?_
          refine ⟨hl, ⟨hx, hm.1, hw.covered.mono hw.reach.1, happ.mono hend, ?_⟩, hm.2, hres, hw.edge.2,
            hw.target, happ, fs, hrest⟩
          intro r hr hcur
          refine .inl ((hw.behind r hr hcur).trans ?_)
          rcases hw.next with hq | hq
          · exact max_le hm.2 hq.ge
          · rw [hq, max_self]
            exact hm.2
      · rename_i hm
        refine h.setAgent ha ?_
        refine ⟨hl, happ, hres, q + f.span, fs, max reach (q + f.span), hrest, ?_, .inl rfl, ?_, ?_, ?_, ?_,
          hw.target⟩
        · have := hw.past
          rw [Tiling.width_cons] at this
          show w.resume < q + f.span + _
          omega
        · refine hw.covered.max (hw.covered.over hx hw.reach.1 fun hmsg hover _ => ?_)
          -- a message that is not delivered lies below where the walk resumes
          have hover : reach < q + f.span := hover
          have hres' := hw.reach.2.2
          rcases Tiling.edge_cases hw.edge.2 hx with hle | hle
          · have hle : q + f.span ≤ w.resume := hle
            omega
          · exact absurd ⟨hmsg, hle⟩ hm
        · exact ⟨le_max_right _ _, le_max_right _ _, hw.reach.2.2.trans (le_max_left _ _)⟩
        · exact ⟨Tiling.edge_end_of_mem hx, hw.edge.2⟩
        · refine hw.behind.mono ?_
          show max w.resume w.cursor ≤ max w.resume (q + f.span)
          rcases hw.next with hq | hq
          · omega
          · omega

omit h ha in
theorem RowOk.lastApplied {i : Service.Incarnation σ} (hi : RowOk L i) (hx : x ∈ L.placed)
    (hm : x.2.frameType = frameTypeMessage) (hle : x.1 + x.2.span ≤ i.running.row.applied) :
    ∃ q ∈ i.service.machine.lastApplied i.running.row.sm, x.1 ≤ q.toNat := by
  obtain ⟨-, row₀, due, r, hstands⟩ := hi
  have happ : appFrame i.service.hash x = some ⟨x.2.ctx x.1, .message x.2.body⟩ := by
    rw [appFrame, if_pos hm]
  have hlt : x.1 < r := by
    have := hstands.applied
    have := x.2.span_pos
    omega
  have hmem := CommittedLog.mem_appsBelow.mpr ⟨x, hx, hlt, happ⟩
  obtain ⟨q, hq, hle⟩ := le_lastPosition (CommittedLog.ordered_appsBelow hstands.inv.edge) hmem
  refine ⟨q, by rw [hstands.inv.last]; exact hq, ?_⟩
  rw [UInt64.le_iff_toNat_le, CommittedLog.position_toNat hx happ] at hle
  exact hle

theorem Inv.hand {src : Source} (hpc : a.pc = .hand x src) (env : AgentEnv) :
    (n.outputCycle s a env).Inv L declared := by
  obtain ⟨hdecl, hrow, hold⟩ := h.agents s a ha
  simp only [Holds, hpc] at hold
  obtain ⟨hl, hpend, hkept⟩ := hold
  obtain ⟨i, hi⟩ := Option.isSome_iff_exists.mp hrow
  unfold outputCycle
  simp only [hpc]
  obtain ⟨call, hcall⟩ : ∃ call : Handed, call = ⟨s, n.lives s, n.reign, x, env.answer,
      (n.rows s).bind fun i => i.service.machine.lastApplied i.running.row.sm⟩ := ⟨_, rfl⟩
  rw [← hcall]
  have hsub : ∀ r ∈ n.handed, r ∈ n.handed ++ [call] := fun r hr => List.mem_append_left _ hr
  have hnew : ∀ r ∈ n.handed ++ [call], r ∈ n.handed ∨ r = call := fun r hr => by
    rwa [List.mem_append, List.mem_singleton] at hr
  refine h.build hsub le_rfl rfl rfl rfl rfl ?_ h.rows ?_ ?_ ?_ ?_
  · exact fun t => ⟨(h.slots t).1, fun hd => ((h.slots t).2 hd).carry hsub le_rfl⟩
  · intro t b hb
    by_cases hts : t = s
    · subst hts
      have hb : Function.update n.agents t _ t = some b := hb
      rw [Function.update_self, Option.some.injEq] at hb
      refine ⟨hdecl, hrow, ?_⟩
      subst hb
      by_cases hans : env.answer = .retryable
      · simp only [hans, if_true, Holds]
        refine ⟨hl, { hpend with covered := hpend.covered.carry hsub le_rfl, behind := ?_ }, ?_⟩
        · intro r hr hcur
          rcases hnew r hr with hr | rfl
          · exact hpend.behind r hr hcur
          · rw [hcall]
            exact .inr ⟨rfl, hans⟩
        · cases src with
          | live target before frames => exact hkept
          | walk w bound frames => exact hkept
      · simp only [hans, if_false, Holds]
        refine ⟨hl, ⟨?_, Tiling.edge_end_of_mem hpend.mem, ?_⟩, ?_⟩
        · refine Covered.over (Covered.carry hsub le_rfl hpend.covered) hpend.mem le_rfl fun _ _ _ => ?_
          refine ⟨call, List.mem_concat_self, ?_⟩
          rw [hcall]
          exact ⟨rfl, rfl, hans⟩
        · intro r hr hcur
          rcases hnew r hr with hr | rfl
          · rcases hpend.behind r hr hcur with hle | ⟨heq, -⟩
            · exact hle.trans (Nat.le_add_right _ _)
            · rw [heq]
          · rw [hcall]
        · cases src with
          | live target before frames => exact hkept
          | walk w bound frames => exact hkept
    · have hb : Function.update n.agents s _ t = some b := hb
      rw [Function.update_of_ne hts] at hb
      obtain ⟨hd, hr, hold⟩ := h.agents t b hb
      refine ⟨hd, hr, Carries.holds ⟨hsub, le_rfl, ?_, .inl, fun _ => id⟩ hold⟩
      intro r hr hcur
      rcases hnew r hr with hr | rfl
      · exact ⟨hr, hcur⟩
      · rw [hcall] at hcur
        exact absurd hcur.1.symm hts
  · intro r hr
    rcases hnew r hr with hr | rfl
    · exact h.stamps r hr
    · rw [hcall]
      exact ⟨le_rfl, le_rfl⟩
  · rw [List.pairwise_append]
    refine ⟨h.order, List.pairwise_singleton _ _, fun r hr r' hr' => ?_⟩
    rw [List.mem_singleton.mp hr', hcall]
    intro h1 h2 h3
    have hspan := r.frame.2.span_pos
    rcases hpend.behind r hr ⟨h1, by rw [h2], h3⟩ with hle | ⟨heq, hretry⟩
    · exact ⟨by show r.frame.1 ≤ x.1; omega, fun _ => by show r.frame.1 < x.1; omega⟩
    · exact ⟨heq ▸ le_rfl, fun hne => absurd hretry hne⟩
  · intro r hr
    rcases hnew r hr with hr | rfl
    · exact h.applied r hr
    · rw [hcall, hi]
      obtain ⟨j, hj, hle⟩ := hpend.applied
      obtain rfl : i = j := Option.some.inj (hi.symm.trans hj)
      exact (h.rows s i hi).1.lastApplied hpend.mem hpend.message hle

omit ha in
theorem Inv.storeOutputCompleted (hdecl : n.Covered L s e) (hedge : L.Edge e) :
    (n.storeOutputCompleted s e).Inv L declared := by
  unfold OutputNode.storeOutputCompleted
  split
  · have k : ∀ t, Carries n { n with completed := Function.update n.completed s e } t :=
      carries_of_eq rfl rfl rfl rfl rfl rfl
    refine h.build (fun _ hr => hr) le_rfl rfl rfl rfl rfl ?_ h.rows ?_ h.stamps h.order h.applied
    · intro t
      by_cases hts : t = s
      · subst hts
        simp only [Function.update_self]
        exact ⟨hedge, fun _ => hdecl⟩
      · simp only [Function.update_of_ne hts]
        exact h.slots t
    · intro t b hb
      obtain ⟨hd, hr, hold⟩ := h.agents t b hb
      exact ⟨hd, hr, (k t).holds hold⟩
  · exact h

theorem Inv.store {src : Source} (hpc : a.pc = .store x src) (env : AgentEnv) :
    (n.outputCycle s a env).Inv L declared := by
  obtain ⟨-, -, hold⟩ := h.agents s a ha
  simp only [Holds, hpc] at hold
  obtain ⟨hl, hst, hkept⟩ := hold
  unfold outputCycle
  simp only [hpc]
  have hinv : (n.storeOutputCompleted s (x.1 + x.2.span)).Inv L declared :=
    h.storeOutputCompleted hst.covered hst.edge
  have hagents : (n.storeOutputCompleted s (x.1 + x.2.span)).agents s = some a := by
    unfold OutputNode.storeOutputCompleted
    split <;> exact ha
  have k : Carries n (n.storeOutputCompleted s (x.1 + x.2.span)) s := by
    unfold OutputNode.storeOutputCompleted
    split
    · refine carries_of_eq ?_ ?_ ?_ ?_ ?_ ?_ s <;> rfl
    · refine carries_of_eq ?_ ?_ ?_ ?_ ?_ ?_ s <;> rfl
  refine hinv.setAgent hagents (k.holds ?_)
  cases src with
  | live target before frames =>
    obtain ⟨hcur, happ, hag⟩ := hkept
    exact ⟨hl, hcur ▸ hst, happ, hag⟩
  | walk w bound frames =>
    obtain ⟨hres, hbound, hedge, ht, happ, fs, hfs⟩ := hkept
    have hspan := x.2.span_pos
    refine ⟨hl, happ, hbound, x.1 + x.2.span, fs, x.1 + x.2.span, hfs, ?_, .inl rfl, hst.covered, ?_,
      ⟨hst.edge, hedge⟩, ?_, ht⟩
    · show w.resume < x.1 + x.2.span + _
      omega
    · exact ⟨le_rfl, le_rfl, by show w.resume ≤ _; omega⟩
    · refine hst.behind.mono (le_max_right _ _)

theorem Inv.output (hfound : Found L a env) (hst : n.Steady L s a env) :
    (n.outputCycle s a env).Inv L declared := by
  obtain ⟨-, -, hold⟩ := h.agents s a ha
  cases hpc : a.pc with
  | top =>
    simp only [Holds, hpc] at hold
    unfold outputCycle
    simp only [hpc]
    split
    · rename_i hlead
      rw [Bool.not_eq_true'] at hlead
      refine h.setAgent ha ?_
      simp [Holds, hlead]
    · rename_i hlead
      rw [Bool.not_eq_true', Bool.not_eq_false] at hlead
      refine h.setAgent ha ?_
      by_cases hw : a.wasLeader = true
      · rw [if_pos hw] at hold
        simp only [hw, if_true, Holds]
        exact ⟨trivial, hold⟩
      · rw [if_neg hw] at hold
        simp only [hw, Bool.false_eq_true, if_false, Holds]
        exact hold hlead
  | reset =>
    simp only [Holds, hpc] at hold
    unfold outputCycle
    simp only [hpc]
    refine h.setAgent ha ?_
    simp only [Holds]
    obtain ⟨hdecl, -, -⟩ := h.agents s a ha
    exact ⟨trivial, h.progress.covered s hdecl, h.progress.edge, hold.behind⟩
  | load =>
    simp only [Holds, hpc] at hold
    unfold outputCycle
    simp only [hpc]
    refine h.setAgent ha ?_
    simp only [Holds]
    exact ⟨hold.1, hold.2, h.applied_target ha env.counters⟩
  | turn target =>
    simp only [Holds, hpc] at hold
    unfold outputCycle
    simp only [hpc]
    refine h.setAgent ha ?_
    split
    · simp only [Holds]
      exact hold
    · simp only [Holds, hold.1, if_true]
      exact hold.2.1
  | read target =>
    simp only [Holds, hpc] at hold
    simp only [Found, hpc] at hfound
    obtain ⟨hl, hstood, happ⟩ := hold
    have htop : n.Holds L s { a with pc := .top } := by
      simp only [Holds, hl, if_true]
      exact hstood
    unfold outputCycle
    simp only [hpc]
    split
    · exact h.setAgent ha htop
    · split
      · exact h.setAgent ha htop
      · refine h.setAgent ha ?_
        simp only [Holds]
        exact ⟨hl, hstood, happ⟩
      · rename_i frames hread
        rw [hread] at hfound
        refine h.setAgent ha ?_
        simp only [Holds]
        exact ⟨hl, hstood, happ, hfound⟩
  | open_ target => exact h.open_ ha hpc hst
  | batch target before frames => exact h.batch ha hpc env
  | block w => exact h.block ha hpc hst
  | walk w bound frames => exact h.walk ha hpc hst
  | deliver x src =>
    simp only [Holds, hpc] at hold
    unfold outputCycle
    simp only [hpc]
    split
    · rename_i hlead
      rw [Bool.not_eq_true'] at hlead
      refine h.setAgent ha ?_
      cases src <;> simp [Holds, Agent.abandon, hlead]
    · refine h.setAgent ha ?_
      simp only [Holds]
      refine ⟨hold.1, hold.2.1, ?_⟩
      have hkept := hold.2.2
      cases src <;> exact hkept
  | hand x src => exact h.hand ha hpc env
  | store x src => exact h.store ha hpc env

end

end OutputNode

end Output

end UltimaCluster
