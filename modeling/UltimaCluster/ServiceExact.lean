/-
  Which calls a row makes.

  * a pass of the journal passes over a segment that was purged after its listing,
    and does not compare where a block begins with what was reached
    (`purged_under_replay`): the frames of that segment are never applied;
  * as long as the blocks that the passes find join up, what is due is at all times
    the rest of the log, from the reach of the row on (`calls_are_the_log`).
-/
import UltimaCluster.ServiceStart

namespace UltimaCluster

/-! ## Accounts -/

/-- What is due after an event; `none` if it was of another frame. -/
def settle (due : List AppFrame) : RowEvent → Option (List AppFrame)
  | .call g => if due.head? = some g then some due.tail else none
  | .install pos => some (due.filter fun g => pos ≤ g.ctx.position.toNat)

/-- The frames that are still due after some calls and installs: a call has to be of the next
    frame that is due, and an artifact stands for all frames below its tag. -/
def account (due : List AppFrame) (es : List RowEvent) : Option (List AppFrame) := es.foldlM settle due

theorem account_concat {due rest : List AppFrame} {es : List RowEvent} (h : account due es = some rest)
    (e : RowEvent) : account due (es ++ [e]) = settle rest e := by
  rw [account, List.foldlM_append, ← account, h]
  simp

/-- The position of the last. -/
def lastPosition (fs : List AppFrame) : Option UInt64 := fs.getLast?.map (·.ctx.position)

theorem lastPosition_concat (fs : List AppFrame) (g : AppFrame) :
    lastPosition (fs ++ [g]) = some g.ctx.position := by
  simp [lastPosition]

theorem exists_of_lastPosition {fs : List AppFrame} {q : UInt64} (h : q ∈ lastPosition fs) :
    ∃ g ∈ fs, g.ctx.position = q := by
  obtain ⟨g, hg, rfl⟩ := Option.map_eq_some_iff.mp h
  exact ⟨g, List.mem_of_getLast? hg, rfl⟩

theorem le_lastPosition {fs : List AppFrame} (ho : AppFrame.Ordered fs) {g : AppFrame} (hg : g ∈ fs) :
    ∃ q ∈ lastPosition fs, g.ctx.position ≤ q := by
  induction fs using List.reverseRecOn with
  | nil => cases hg
  | append_singleton fs f =>
    refine ⟨f.ctx.position, lastPosition_concat fs f, ?_⟩
    rcases List.mem_snoc.mp hg with hg | rfl
    · have hlt := (List.pairwise_append.mp ho).2.2 g hg f (by simp)
      grind
    · grind

namespace CommittedLog

variable {L : CommittedLog} {hash r r' pos : ℕ} {x : ℕ × LogFrame} {g : AppFrame}

theorem position_toNat (hx : x ∈ L.placed) (hg : appFrame hash x = some g) :
    g.ctx.position.toNat = x.1 := by
  rw [appFrame_position hg, UInt64.toNat_ofNat_of_lt' (start_lt hx)]

theorem appsFrom_filter (r pos : ℕ) :
    (L.appsFrom hash r).filter (fun g => pos ≤ g.ctx.position.toNat) = L.appsFrom hash (max r pos) := by
  rw [appsFrom, appsFrom, List.filter_filterMap, List.filterMap_filter, List.filterMap_filter]
  refine List.filterMap_congr fun x hx => ?_
  by_cases hr : r ≤ x.1
  · cases hg : appFrame hash x with
    | none => simp [Option.filter]
    | some g =>
      have hpos := position_toNat hx hg
      by_cases hle : pos ≤ x.1 <;> simp [Option.filter, hpos, hr, hle]
  · have hmax : ¬ max r pos ≤ x.1 := by omega
    simp [hr, hmax]

/-- No frame lies between, if none of those below starts at or above the lower end. -/
theorem appsBelow_eq (hle : pos ≤ r) (h : ∀ g ∈ L.appsBelow hash r, g.ctx.position.toNat < pos) :
    L.appsBelow hash r = L.appsBelow hash pos := by
  rw [appsBelow, appsBelow, Tiling.below, Tiling.below, List.filterMap_filter, List.filterMap_filter]
  refine List.filterMap_congr fun x hx => ?_
  cases hg : appFrame hash x with
  | none => simp
  | some g =>
    by_cases hr : x.1 < r
    · have hpos := h g (mem_appsBelow.mpr ⟨x, hx, hr, hg⟩)
      rw [position_toNat hx hg] at hpos
      simp [hr, hpos]
    · have hr' : ¬ x.1 < pos := by omega
      simp [hr, hr']

theorem below_or_next (hr : L.Edge r) (hx : x ∈ L.placed) (hle : x.1 ≤ r) :
    (x.1 + x.2.span ≤ r ∧ max r (x.1 + x.2.span) = r) ∨
      (x.1 = r ∧ max r (x.1 + x.2.span) = x.1 + x.2.span) := by
  obtain h | h := hr.le_or_le hx
  · exact .inl ⟨h, Nat.max_eq_left h⟩
  · have heq : x.1 = r := Nat.le_antisymm hle h
    exact .inr ⟨heq, by omega⟩

theorem lastPosition_lt {q : UInt64} (hq : q ∈ lastPosition (L.appsBelow hash r)) :
    q.toNat < r ∧ L.Edge q.toNat := by
  obtain ⟨g, hg, rfl⟩ := exists_of_lastPosition hq
  obtain ⟨x, hx, hlt, hg⟩ := mem_appsBelow.mp hg
  rw [position_toNat hx hg]
  exact ⟨hlt, Tiling.edge_of_mem hx⟩

end CommittedLog

namespace Service

variable {σ : Type}

/-! ## The calls of a row -/

/-- Every call moves `last_applied` to the position of its frame. -/
structure Advances (M : SnapshotStateMachine σ) : Prop where
  apply : ∀ s ctx cmd, M.lastApplied (M.apply s ctx cmd).1 = some ctx.position
  onTimer : ∀ s ctx ev, M.lastApplied (M.onTimer s ctx ev).1 = some ctx.position

/-- The artifact is of the log below its tag. -/
def Whole (S : Service σ) (L : CommittedLog) (pos : ℕ) (payload : Bytes) : Prop :=
  L.Edge pos ∧ ∀ sm sm' installed, S.machine.installSnapshot sm (.ofNat pos) payload = .ok (sm', installed) →
    installed = .ofNat pos ∧ S.machine.lastApplied sm' = lastPosition (L.appsBelow S.hash pos)

/-- An event is of what lies below. -/
def Within (S : Service σ) (L : CommittedLog) (r : ℕ) : RowEvent → Prop
  | .call g => ∃ x ∈ L.placed, appFrame S.hash x = some g ∧ x.1 + x.2.span ≤ r
  | .install pos => pos ≤ r

/-- A row that has made the calls up to `r`, of those that were due. -/
structure Called (S : Service σ) (L : CommittedLog) (due : List AppFrame) (w : Work σ) (r : ℕ) :
    Prop where
  edge : L.Edge r
  last : S.machine.lastApplied w.sm = lastPosition (L.appsBelow S.hash r)
  account : account due w.events = some (L.appsFrom S.hash r)
  within : ∀ e ∈ w.events, Within S L r e

variable {S : Service σ} {L : CommittedLog} {due : List AppFrame} {w : Work σ} {r : ℕ} {x : ℕ × LogFrame}

theorem Advances.step (h : Advances S.machine) (s : σ) (g : AppFrame) :
    S.machine.lastApplied (S.machine.step s g).1 = some g.ctx.position := by
  rw [RawStateMachine.step]
  cases g.body with
  | message cmd => exact h.apply s g.ctx cmd
  | timer ev => exact h.onTimer s g.ctx ev

theorem Within.mono {e : RowEvent} {r' : ℕ} (h : Within S L r e) (hle : r ≤ r') : Within S L r' e := by
  cases e with
  | call g =>
    obtain ⟨x, hx, hg, hend⟩ := h
    exact ⟨x, hx, hg, Nat.le_trans hend hle⟩
  | install pos => exact Nat.le_trans h hle

theorem Called.skip (h : Called S L due w r) (hx : x ∈ L.placed) (hle : x.1 ≤ r)
    (happ : appFrame S.hash x = none) : Called S L due w (max r (x.1 + x.2.span)) := by
  obtain ⟨-, hmax⟩ | ⟨rfl, hmax⟩ := CommittedLog.below_or_next h.edge hx hle
  · rwa [hmax]
  · have hbelow : L.appsBelow S.hash (x.1 + x.2.span) = _ := CommittedLog.appsBelow_concat hx
    have hfrom : L.appsFrom S.hash x.1 = _ := CommittedLog.appsFrom_cons hx
    rw [happ, Option.toList_none, List.append_nil] at hbelow
    rw [happ, Option.toList_none, List.nil_append] at hfrom
    rw [hmax]
    exact ⟨Tiling.edge_end_of_mem hx, by rw [hbelow, h.last], by rw [← hfrom, h.account],
      fun e he => (h.within e he).mono (Nat.le_add_right _ _)⟩

theorem Called.call (hM : Advances S.machine) (h : Called S L due w r) (hx : x ∈ L.placed)
    (hle : x.1 ≤ r) {g : AppFrame} (happ : appFrame S.hash x = some g) :
    Called S L due (S.deliver w g) (max r (x.1 + x.2.span)) := by
  have hpos := CommittedLog.position_toNat hx happ
  obtain ⟨hend, hmax⟩ | ⟨rfl, hmax⟩ := CommittedLog.below_or_next h.edge hx hle
  · -- it is among those that were applied
    have hlt : x.1 < r := by
      have := x.2.span_pos
      omega
    obtain ⟨q, hq, hge⟩ := le_lastPosition (CommittedLog.ordered_appsBelow h.edge)
      (CommittedLog.mem_appsBelow.mpr ⟨x, hx, hlt, happ⟩)
    have habove : S.machine.above w.sm g = false := by
      rw [RawStateMachine.above, h.last, Option.mem_def.mp hq]
      simpa using UInt64.not_lt.mpr hge
    rw [deliver, habove, hmax]
    exact h
  · have hbelow : L.appsBelow S.hash (x.1 + x.2.span) = _ := CommittedLog.appsBelow_concat hx
    have hfrom : L.appsFrom S.hash x.1 = _ := CommittedLog.appsFrom_cons hx
    rw [happ, Option.toList_some] at hbelow hfrom
    have habove : S.machine.above w.sm g = true := by
      rw [RawStateMachine.above, Option.all_eq_true, h.last]
      intro q hq
      have := (CommittedLog.lastPosition_lt hq).1
      rw [decide_eq_true_eq, UInt64.lt_iff_toNat_lt, hpos]
      exact this
    rw [deliver, if_pos habove, hmax]
    refine ⟨Tiling.edge_end_of_mem hx, ?_, ?_, ?_⟩
    · rw [hbelow, lastPosition_concat]
      exact hM.step w.sm g
    · rw [account_concat h.account, settle, hfrom]
      simp
    · intro e he
      rcases List.mem_snoc.mp he with he | rfl
      · exact (h.within e he).mono (Nat.le_add_right _ _)
      · exact ⟨x, hx, happ, le_rfl⟩

theorem Called.install (h : Called S L due w r) {pos : ℕ} {payload : Bytes}
    (hlast : ∀ q ∈ S.machine.lastApplied w.sm, q.toNat < pos) (hgood : Whole S L pos payload) {sm : σ}
    {installed : UInt64} (hinstall : S.machine.installSnapshot w.sm (.ofNat pos) payload =
      .ok (sm, installed)) :
    installed = .ofNat pos ∧ L.Edge pos ∧
      Called S L due { w with sm, events := w.events ++ [.install pos] } (max r pos) := by
  obtain ⟨hedge, hall⟩ := hgood
  obtain ⟨hlanded, hsm⟩ := hall _ _ _ hinstall
  refine ⟨hlanded, hedge, ?_, ?_, ?_, ?_⟩
  · obtain hmax | hmax := max_choice r pos
    · rw [hmax]
      exact h.edge
    · rw [hmax]
      exact hedge
  · obtain hle | hle := Nat.le_total pos r
    · -- the row has passed the tag, but no frame since
      have hnone : ∀ g ∈ L.appsBelow S.hash r, g.ctx.position.toNat < pos := by
        intro g hg
        obtain ⟨q, hq, hge⟩ := le_lastPosition (CommittedLog.ordered_appsBelow h.edge) hg
        have := hlast q (h.last ▸ hq)
        have := UInt64.le_iff_toNat_le.mp hge
        omega
      rw [Nat.max_eq_left hle, CommittedLog.appsBelow_eq hle hnone]
      exact hsm
    · rw [Nat.max_eq_right hle]
      exact hsm
  · rw [account_concat h.account, settle, CommittedLog.appsFrom_filter]
  · intro e he
    rcases List.mem_snoc.mp he with he | rfl
    · exact (h.within e he).mono (Nat.le_max_left _ _)
    · exact Nat.le_max_right _ _

theorem onSnapshotFrame_sm (e : WalkEnv) (w : Work σ) (x : ℕ × LogFrame) :
    (S.onSnapshotFrame e w x).sm = w.sm ∧ (S.onSnapshotFrame e w x).events = w.events := by
  unfold onSnapshotFrame
  repeat' split
  all_goals exact ⟨rfl, rfl⟩

theorem called_keeps (hM : Advances S.machine) (T : Terms) :
    Keeps S L (fun pos _ => Whole S L pos) T (Called S L due) where
  edge h := h.edge
  last h q hq := CommittedLog.lastPosition_lt (h.last ▸ hq)
  skip h hx hle _ happ := h.skip hx hle happ
  record {e w r x} h hx hle hclu _ _ := by
    refine h.skip hx hle ?_
    rw [appFrame, hclu]
    rfl
  call h hx hle happ := h.call hM hx hle happ
  instant {e w r x} h hx hle hsnap := by
    have happ : appFrame S.hash x = none := by
      rw [appFrame, hsnap]
      rfl
    obtain ⟨hsm, hevents⟩ := onSnapshotFrame_sm (S := S) e w x
    have hskip := h.skip hx hle happ
    exact ⟨hskip.edge, by rw [hsm, hskip.last], by rw [hevents, hskip.account], by
      rw [hevents]
      exact hskip.within⟩
  install h hlast hgood _ hinstall := h.install hlast hgood hinstall

/-! ## From the start -/

/-- What the state machine has applied at the start is of the log, below the frontier. -/
def Resumes (S : Service σ) (L : CommittedLog) (sm₀ : σ) (seen : Counters) : Prop :=
  ∀ q ∈ S.machine.lastApplied sm₀, ∃ x ∈ L.placed, ∃ g, appFrame S.hash x = some g ∧
    x.1 = q.toNat ∧ x.1 + x.2.span ≤ seen.head

/-- What is due at the start: the frames from there on, above what was applied. -/
def dueAt (S : Service σ) (L : CommittedLog) (row : ServiceRow σ) : List AppFrame :=
  (L.appsFrom S.hash row.cursor).filter (S.machine.above row.sm)

theorem dueAt_eq {row : ServiceRow σ}
    (hlast : S.machine.lastApplied row.sm = lastPosition (L.appsBelow S.hash r)) (hle : row.cursor ≤ r)
    (hnone : ∀ g ∈ L.appsBelow S.hash r, row.cursor ≤ g.ctx.position.toNat →
      S.machine.lastApplied row.sm = some g.ctx.position) :
    dueAt S L row = L.appsFrom S.hash r := by
  have hmax : max row.cursor r = r := Nat.max_eq_right hle
  rw [dueAt, ← hmax, ← CommittedLog.appsFrom_filter]
  refine List.filter_congr fun g hg => ?_
  obtain ⟨x, hx, hcursor, happ⟩ := CommittedLog.mem_appsFrom.mp hg
  have hpos := CommittedLog.position_toNat hx happ
  rw [RawStateMachine.above]
  by_cases hxr : r ≤ x.1
  · rw [hpos, decide_eq_true hxr, Option.all_eq_true]
    intro q hq
    have := (CommittedLog.lastPosition_lt (hlast ▸ hq)).1
    rw [decide_eq_true_eq, UInt64.lt_iff_toNat_lt]
    omega
  · have hg' : g ∈ L.appsBelow S.hash r :=
      CommittedLog.mem_appsBelow.mpr ⟨x, hx, Nat.not_le.mp hxr, happ⟩
    rw [hnone g hg' (by omega), hpos, decide_eq_false hxr]
    simp

theorem attach_called {env : AttachEnv} {sm₀ : σ} {row : ServiceRow σ} {seen : Counters}
    (hattach : S.attach env sm₀ = .ok row) (henv : Attachable L (fun pos _ => Whole S L pos) env seen)
    (hsm₀ : Resumes S L sm₀ seen) :
    ∃ r, Stands S L (anyLook row) (Called S L (dueAt S L row)) ⟨row, seen⟩ r ∧
      (r = row.cursor ∨ ∃ x ∈ L.placed, S.machine.lastApplied row.sm = some (.ofNat x.1) ∧
        row.cursor = x.1 ∧ r = x.1 + x.2.span) := by
  have h := attach_ok hattach
  have hstands : ∀ r, L.Edge r → S.machine.lastApplied row.sm = lastPosition (L.appsBelow S.hash r) →
      row.cursor ≤ r → L.Edge row.cursor → r ≤ seen.head → dueAt S L row = L.appsFrom S.hash r →
      Stands S L (anyLook row) (Called S L (dueAt S L row)) ⟨row, seen⟩ r := by
    intro r hedge hlast hle hcursor hhead hdue
    refine ⟨⟨hedge, hlast, ?_, ?_⟩, ⟨rfl, rfl⟩, ⟨hle, hcursor⟩, by rwa [h.applied], fun _ => h.applied, hhead,
      ?_, by simp [h.idle.2]⟩
    · rw [h.events, account, hdue]
      rfl
    · rw [h.events]
      simp
    · rw [h.idle.1]
      simp
  obtain ⟨hsm, hcursor⟩ | ⟨hhead, -, payload, ⟨hedge, hall⟩, hinstall⟩ := h.restored_or_kept henv
  · cases hq : S.machine.lastApplied sm₀ with
    | none =>
      rw [hq] at hcursor
      have hcursor : row.cursor = 0 := hcursor
      have hnil : L.appsBelow S.hash 0 = [] := by
        refine List.eq_nil_iff_forall_not_mem.mpr fun g hg => ?_
        obtain ⟨x, -, hlt, -⟩ := CommittedLog.mem_appsBelow.mp hg
        exact absurd hlt (Nat.not_lt_zero _)
      have hlast : S.machine.lastApplied row.sm = lastPosition (L.appsBelow S.hash 0) := by
        rw [hsm, hq, hnil]
        rfl
      refine ⟨0, hstands 0 Tiling.edge_base hlast (Nat.le_of_eq hcursor) ?_ (Nat.zero_le _) ?_,
        .inl hcursor.symm⟩
      · rw [hcursor]
        exact Tiling.edge_base
      · refine dueAt_eq hlast (Nat.le_of_eq hcursor) fun g hg => ?_
        rw [hnil] at hg
        cases hg
    | some q =>
      obtain ⟨x, hx, g, happ, hpos, hhead⟩ := hsm₀ q hq
      rw [hq] at hcursor
      have hcursor : row.cursor = x.1 := hcursor.trans hpos.symm
      have hbelow : L.appsBelow S.hash (x.1 + x.2.span) = _ := CommittedLog.appsBelow_concat hx
      rw [happ, Option.toList_some] at hbelow
      have hgq : g.ctx.position = q := by
        rw [appFrame_position happ, hpos, UInt64.ofNat_toNat]
      have hlast : S.machine.lastApplied row.sm = lastPosition (L.appsBelow S.hash (x.1 + x.2.span)) := by
        rw [hsm, hq, hbelow, lastPosition_concat, hgq]
      have hle : row.cursor ≤ x.1 + x.2.span := by omega
      have hsmq : S.machine.lastApplied row.sm = some (.ofNat x.1) := by
        rw [hsm, hq, hpos, UInt64.ofNat_toNat]
      refine ⟨_, hstands _ (Tiling.edge_end_of_mem hx) hlast hle ?_ hhead ?_, .inr ⟨x, hx, hsmq, hcursor, rfl⟩⟩
      · rw [hcursor]
        exact Tiling.edge_of_mem hx
      · refine dueAt_eq hlast hle fun g' hg' hge => ?_
        rw [hbelow] at hg'
        rcases List.mem_snoc.mp hg' with hg' | rfl
        · obtain ⟨y, hy, hlt, happ'⟩ := CommittedLog.mem_appsBelow.mp hg'
          rw [CommittedLog.position_toNat hy happ'] at hge
          omega
        · rw [hsm, hq, hgq]
  · -- an artifact, at its tag
    obtain ⟨-, hlast⟩ := hall _ _ _ hinstall
    refine ⟨row.cursor, hstands _ hedge hlast le_rfl hedge hhead ?_, .inl rfl⟩
    refine dueAt_eq hlast le_rfl fun g hg hge => ?_
    obtain ⟨x, hx, hlt, happ⟩ := CommittedLog.mem_appsBelow.mp hg
    rw [CommittedLog.position_toNat hx happ] at hge
    exact absurd hlt (Nat.not_lt.mpr hge)

/-- The calls of a row are the log, from its start on: at every point of a run whose
    passes find a journal that joins up, what is still due of the frames from the start
    on is the rest of the log above some edge, which is not below what is published nor
    above the counters; no call was of a frame that ends above them; and what is
    published has not gone back. -/
theorem calls_are_the_log (hM : Advances S.machine) {env : AttachEnv} {sm₀ : σ} {row : ServiceRow σ}
    {seen : Counters} (hattach : S.attach env sm₀ = .ok row)
    (henv : Attachable L (fun pos _ => Whole S L pos) env seen) (hsm₀ : Resumes S L sm₀ seen)
    {steps : List RowStep}
    (hrun : Trace.Admits (Running.exec S)
      (fun R step => Allowed L (fun pos _ => Whole S L pos) R.row R.seen step ∧
        SteadyStep R.row step) ⟨row, seen⟩ steps)
    (k : ℕ) {R : Running σ} (hR : (steps.take k).foldl (Running.exec S) ⟨row, seen⟩ = R) :
    (∃ r, L.Edge r ∧ R.row.applied ≤ r ∧ r ≤ R.seen.head ∧
      account (dueAt S L row) R.row.events = some (L.appsFrom S.hash r)) ∧
    (∀ g, .call g ∈ R.row.events →
      ∃ x ∈ L.placed, appFrame S.hash x = some g ∧ x.1 + x.2.span ≤ R.seen.head) ∧
    ∀ j ≤ k, ((steps.take j).foldl (Running.exec S) ⟨row, seen⟩).row.applied ≤ R.row.applied := by
  have hk : Keeps S L _ (anyLook row) (Called S L (dueAt S L row)) := called_keeps hM (anyLook row)
  obtain ⟨r₀, hstands, -⟩ := attach_called hattach henv hsm₀
  subst hR
  obtain ⟨r, -, hs, -⟩ := hk.run hstands (hrun.take k) fun step _ => watches_true step
  refine ⟨⟨r, hs.inv.edge, hs.applied, hs.head, hs.inv.account⟩, ?_, ?_⟩
  · intro g hg
    obtain ⟨x, hx, happ, hend⟩ := hs.inv.within _ hg
    exact ⟨x, hx, happ, Nat.le_trans hend hs.head⟩
  · intro j hj
    obtain ⟨rj, -, hsj, -⟩ := hk.run hstands (hrun.take j) fun step _ => watches_true step
    have hsplit : steps.take j ++ (steps.take k).drop j = steps.take k := by
      have h := List.take_append_drop j (steps.take k)
      rwa [List.take_take, Nat.min_eq_left hj] at h
    have hrest := hrun.take k
    rw [← hsplit, Trace.admits_append] at hrest
    obtain ⟨-, -, -, hle⟩ := hk.run hsj hrest.2 fun step _ => watches_true step
    rwa [← List.foldl_append, hsplit] at hle

/-! ## A purge under a pass -/

/-- A machine that remembers only where it is. -/
def placeMachine : SnapshotStateMachine (Option UInt64) where
  apply _ ctx _ := (some ctx.position, {}, [])
  onTimer _ ctx _ := (some ctx.position, {})
  lastApplied s := s
  freeze s := .ok ([], s.getD 0)
  installSnapshot _ pos _ := .ok (none, pos)

def laggard : Service (Option UInt64) := ⟨placeMachine, 0, 0, 0, false, false⟩

def emptyMessage : LogFrame := ⟨frameTypeMessage, 0, 0, 0, 0, 0, []⟩

/-- Three messages of 32 bytes. -/
def threeMessages : CommittedLog := ⟨List.replicate 3 emptyMessage, by decide⟩

def laggardStart : AttachEnv where
  view := .view none none 0
  startSet := none
  reread := .view none none 0
  frontier := ⟨0, 0⟩
  open_ _ := none
  durable := 0
  lag := .off

/-- The row at its start. -/
def laggardRow : ServiceRow (Option UInt64) where
  sm := none
  events := []
  built := []
  cursor := 0
  applied := 0
  stalled := none
  pin := none
  attachRecordPos := 0
  lag := .off
  poisoned := false
  streak := 0
  cycle := none
  failed := none

/-- A pass over a journal of three segments, of which the middle one may be gone when
    it is opened. -/
def segmentPass (middle : Option (List Block)) : PassEnv where
  startSet := none
  view := .view none none 0
  frontier := ⟨96, 96⟩
  open_ _ := none
  heads := .ok [some 0, some 32, some 64]
  covering := ⟨96, 96⟩
  isFile _ := false
  names := .ok []
  allNames := .ok []
  counters := ⟨96, 96⟩
  held := 0
  scan₁ := .ok ⟨[], []⟩
  scan₂ := .ok ⟨[some 0, some 32, some 64], [some [⟨0, [emptyMessage]⟩], middle, some [⟨64, [emptyMessage]⟩]]⟩
  looks _ := []
  busy _ := false
  sent _ := false

/-- A cycle that finds the ring lapped. -/
def lapped (middle : Option (List Block)) : List RowStep :=
  [.begin_ (some true) (some true) ⟨96, 96⟩ false,
    .turn ⟨[0], .overrun, fun _ => [], fun _ => false, fun _ => false, segmentPass middle⟩]

theorem placeMachine_advances : Advances laggard.machine := ⟨fun _ _ _ => rfl, fun _ _ _ => rfl⟩

theorem laggard_attachable :
    Attachable threeMessages (fun pos _ => Whole laggard threeMessages pos) laggardStart ⟨0, 0⟩ where
  frontier := le_refl _
  durable := le_rfl
  pin _ _ _ _ _ h := by cases h
  store _ _ h := by cases h

theorem laggard_resumes : Resumes laggard threeMessages none ⟨0, 0⟩ := by
  intro q hq
  cases hq

theorem lapped_readable {middle : Option (List Block)}
    (h : ∀ b ∈ middle.getD [], ∀ x ∈ b.placed, x ∈ threeMessages.placed) :
    Readable threeMessages (fun pos _ => Whole laggard threeMessages pos) ⟨96, 96⟩ (segmentPass middle) where
  frontier := le_refl _
  covering := le_refl _
  counters := le_refl _
  journal v hv b hb x hx := by
    obtain rfl := Except.ok.inj hv
    intro _
    simp only [JournalScan.found, List.flatMap_cons, Option.getD_some, List.flatMap_nil, List.append_nil,
      List.mem_append, List.mem_singleton] at hb
    have hfirst : ∀ x ∈ (⟨0, [emptyMessage]⟩ : Block).placed, x ∈ threeMessages.placed := by decide
    have hlast : ∀ x ∈ (⟨64, [emptyMessage]⟩ : Block).placed, x ∈ threeMessages.placed := by decide
    obtain rfl | hb | rfl := hb
    · exact hfirst x hx
    · exact h b hb x hx
    · exact hlast x hx
  store _ _ h := by cases h

/-- The middle segment, if it is there. -/
def middleBlock : Block := ⟨32, [emptyMessage]⟩

theorem lapped_steady : (segmentPass (some [middleBlock])).Steady 0 := by
  intro v heads hv hheads
  obtain rfl := Except.ok.inj hv
  obtain rfl := Except.ok.inj hheads
  refine ⟨by decide, by decide, ?_⟩
  intro i h hi
  match i with
  | 0 | 1 | 2 =>
    obtain rfl := Option.some.inj (Option.some.inj hi)
    exact ⟨_, _, rfl, le_rfl⟩

theorem purged_under_replay :
    laggard.attach laggardStart none = .ok laggardRow ∧ Advances laggard.machine ∧
    Attachable threeMessages (fun pos _ => Whole laggard threeMessages pos) laggardStart ⟨0, 0⟩ ∧
    Resumes laggard threeMessages none ⟨0, 0⟩ ∧
    Trace.Admits (Running.exec laggard)
      (fun R step => Allowed threeMessages (fun pos _ => Whole laggard threeMessages pos) R.row R.seen step)
      ⟨laggardRow, ⟨0, 0⟩⟩ (lapped none) ∧
    ((lapped none).foldl (Running.exec laggard) ⟨laggardRow, ⟨0, 0⟩⟩).row.applied = 96 ∧
    account (dueAt laggard threeMessages laggardRow)
      ((lapped none).foldl (Running.exec laggard) ⟨laggardRow, ⟨0, 0⟩⟩).row.events = none := by
  refine ⟨rfl, placeMachine_advances, laggard_attachable, laggard_resumes, ⟨?_, ?_, trivial⟩, ?_, ?_⟩
  · exact ⟨by decide, by decide⟩
  · exact lapped_readable (by simp)
  · decide +kernel
  · decide +kernel

theorem calls_are_three_messages :
    (∃ r, threeMessages.Edge r ∧ 96 ≤ r ∧ r ≤ 96 ∧
      account (dueAt laggard threeMessages laggardRow)
        ((lapped (some [middleBlock])).foldl (Running.exec laggard) ⟨laggardRow, ⟨0, 0⟩⟩).row.events =
          some (threeMessages.appsFrom 0 r)) ∧
    ((lapped (some [middleBlock])).foldl (Running.exec laggard)
      ⟨laggardRow, ⟨0, 0⟩⟩).row.events.length = 3 := by
  have hrun : Trace.Admits (Running.exec laggard)
      (fun R step => Allowed threeMessages (fun pos _ => Whole laggard threeMessages pos) R.row R.seen step ∧
        SteadyStep R.row step) ⟨laggardRow, ⟨0, 0⟩⟩ (lapped (some [middleBlock])) := by
    refine ⟨⟨⟨by decide, by decide⟩, trivial⟩, ⟨?_, fun _ => lapped_steady⟩, trivial⟩
    exact lapped_readable (by decide)
  obtain ⟨⟨r, hedge, happlied, hhead, hall⟩, -⟩ := calls_are_the_log placeMachine_advances
    (rfl : laggard.attach laggardStart none = .ok laggardRow) laggard_attachable
    laggard_resumes hrun 2 rfl
  exact ⟨⟨r, hedge, happlied, hhead, hall⟩, by decide +kernel⟩

end Service

end UltimaCluster
