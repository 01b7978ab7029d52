/-
  Which binary applies which frames of a row.

  * a view that shows a record of the row may be of a later one (`RowLog.Shown`): at a
    record that a later one follows, a binary stops, even if the record was refused
    (`stopped_at_refused`);
  * a binary that attaches under a pin applies the frames from the origin of the pin
    on, which the line of `from` has applied before it;
  * other than that a frame is applied by a binary of the row's line, no record off
    its line is passed except over an artifact of its line, and a stop is at a record
    that was accepted off its line, or that a later one follows (`lines_split`).
-/
import UltimaCluster.RowHistory
import UltimaCluster.ServiceExact
import UltimaCluster.ServiceFleet

namespace UltimaCluster

open CommittedLog (below_or_next ordered_appsBelow start_lt)
open Tiling (edge_end_of_mem edge_of_mem place width)

open VersionGate

namespace RowLog

variable (H : RowLog)

/-- A view is of a position that the cluster agent has come to. -/
def Shown (l : Look) : Prop :=
  l.view = .contended ∨ ∃ A, H.log.Edge A ∧ l.clusterApplied ≤ A ∧ l.view = H.viewAt A

/-- A record that was accepted, and what it moved the row to. -/
def Moves (x : ℕ × LogFrame) (version : ℕ) : Prop :=
  ∃ r, H.runningAt (x.1 + x.2.span) = some r ∧ r.recordPos = x.1 + x.2.span ∧ r.version = version

/-- No frame of the row starts in between. -/
def Quiet (hash p q : ℕ) : Prop := ∀ x ∈ H.log.placed, p ≤ x.1 → x.1 < q → appFrame hash x = none

/-- The next frame of the row is the binary's to apply. -/
def Headed (hash version pos : ℕ) : Prop :=
  ∃ q, pos ≤ q ∧ H.log.Edge q ∧ H.Own version q ∧ H.Quiet hash pos q

variable {H} {x : ℕ × LogFrame} {hash version pos p q : ℕ}

theorem Moves.recordAt (h : H.Moves x version) : H.recordAt (x.1 + x.2.span) = x.1 + x.2.span := by
  obtain ⟨r, hr, hpos, -⟩ := h
  rw [RowLog.recordAt, hr]
  exact hpos

theorem Moves.record (h : H.Moves x version) (hx : x ∈ H.log.placed) :
    x.2.frameType = frameTypeCluster ∧ isRecordOf H.row x.2.body := by
  cases recorded hx with
  | same hrun _ =>
    have hle := (recordAt_le (edge_of_mem hx)).1
    have hend := h.recordAt
    have := x.2.span_pos
    rw [RowLog.recordAt, hrun, ← RowLog.recordAt] at hend
    omega
  | first _ htype hrec _ _ _ => exact ⟨htype, hrec⟩
  | pin _ htype hrec _ _ _ => exact ⟨htype, hrec⟩

theorem Moves.le_recordAt (h : H.Moves x version) (hx : x ∈ H.log.placed) (hq : H.log.Edge q)
    (hle : x.1 + x.2.span ≤ q) : x.1 + x.2.span ≤ H.recordAt q := by
  have hmono := recordAt_mono (edge_end_of_mem hx) hq hle
  rwa [h.recordAt] at hmono

theorem Headed.of_own (hpos : H.log.Edge pos) (h : H.Own version pos) : H.Headed hash version pos :=
  ⟨pos, le_rfl, hpos, h, fun _ _ hle hlt => absurd hlt (Nat.not_lt.mpr hle)⟩

theorem Headed.of_line {version' : ℕ} (h : H.Headed hash version pos) (hline : sameLine version' version) :
    H.Headed hash version' pos := by
  obtain ⟨q, hle, hq, hown, hquiet⟩ := h
  exact ⟨q, hle, hq, hown.of_line hline, hquiet⟩

theorem Headed.quiet (h : H.Headed hash version q) (hle : p ≤ q) (hquiet : H.Quiet hash p q) :
    H.Headed hash version p := by
  obtain ⟨q', hle', hq', hown, hquiet'⟩ := h
  refine ⟨q', Nat.le_trans hle hle', hq', hown, fun x hx hp hlt => ?_⟩
  obtain hxq | hxq := Nat.lt_or_ge x.1 q
  · exact hquiet x hx hp hxq
  · exact hquiet' x hx hxq hlt

theorem Headed.next (h : H.Headed hash version x.1) (hx : x ∈ H.log.placed)
    (hmoves : ∀ v, H.Moves x v → sameLine version v) : H.Headed hash version (x.1 + x.2.span) := by
  obtain ⟨q, hle, hq, hown, hquiet⟩ := h
  obtain hend | hstart := hq.le_or_le hx
  · exact ⟨q, hend, hq, hown, fun y hy hge => hquiet y hy (Nat.le_trans (Nat.le_add_right _ _) hge)⟩
  · obtain rfl : x.1 = q := Nat.le_antisymm hle hstart
    refine .of_own (edge_end_of_mem hx) (hown.next hx fun r hr hpos => ?_)
    exact hmoves r.version ⟨r, hr, hpos, rfl⟩

theorem Headed.own (h : H.Headed hash version x.1) (hx : x ∈ H.log.placed) {g : AppFrame}
    (happ : appFrame hash x = some g) : H.Own version x.1 := by
  obtain ⟨q, hle, -, hown, hquiet⟩ := h
  obtain hlt | rfl := Nat.lt_or_eq_of_le hle
  · have hnone := hquiet x hx le_rfl hlt
    rw [happ] at hnone
    cases hnone
  · exact hown

/-! ## The verdict -/

theorem moves_of_pass {row mine decidedTo : ℕ} {looks : List Look} (hrow : row = H.row)
    (hx : x ∈ H.log.placed) (hlooks : ∀ l ∈ looks, H.Shown l)
    (hpass : onClusterFrame row mine decidedTo x.1 x.2 looks = .pass) (hdecided : decidedTo < x.1 + x.2.span) :
    ∀ v, H.Moves x v → sameLine mine v := by
  intro v hmoves
  have hrec := (hmoves.record hx).2
  unfold onClusterFrame at hpass
  rw [hrow, if_pos hrec] at hpass
  dsimp only at hpass
  rw [if_neg (Nat.not_le.mpr hdecided)] at hpass
  split at hpass
  · rename_i hfind
    obtain ⟨l, hl, hlook⟩ := List.exists_of_findSome?_eq_some hfind
    split at hlook
    · rename_i hend
      obtain hview | ⟨A, hA, hle, hview⟩ := hlooks l (List.mem_of_mem_take hl)
      · rw [hview] at hlook
        cases hlook
      · have hle := Nat.le_trans hend hle
        have hknown := hmoves.le_recordAt hx hA hle
        rw [hview, viewAt] at hlook
        unfold VersionGate.verdict at hlook
        dsimp only at hlook
        split at hlook
        · rename_i hgo
          obtain hlt | ⟨heq, hline⟩ := hgo
          · omega
          · -- the view is as this record left the row
            have hsame := (since_record (edge_end_of_mem hx) hA hle (Nat.le_of_eq heq)).1
            obtain ⟨r, hr, -, rfl⟩ := hmoves
            rw [hsame, hr] at hline
            exact hline
        · cases hlook
    · cases hlook
  · cases hpass
  · cases hpass

theorem moves_of_stop {row mine decidedTo running : ℕ} {later : Bool} {looks : List Look} (hrow : row = H.row)
    (hx : x ∈ H.log.placed) (hlooks : ∀ l ∈ looks, H.Shown l)
    (hstop : onClusterFrame row mine decidedTo x.1 x.2 looks = .stop running later) :
    isRecordOf H.row x.2.body ∧ decidedTo < x.1 + x.2.span ∧
      (later = false → H.Moves x running ∧ ¬ sameLine mine running) ∧
      (later = true → ∃ A, H.log.Edge A ∧ x.1 + x.2.span < H.recordAt A) := by
  unfold onClusterFrame at hstop
  rw [hrow] at hstop
  split at hstop
  · rename_i hrec
    dsimp only at hstop
    split at hstop
    · cases hstop
    rename_i hdecided
    split at hstop
    · cases hstop
    · rename_i hfind
      obtain ⟨rfl, rfl⟩ := Gate.stop.inj hstop
      obtain ⟨l, hl, hlook⟩ := List.exists_of_findSome?_eq_some hfind
      refine ⟨hrec, Nat.not_le.mp hdecided, ?_⟩
      split at hlook
      · rename_i hend
        obtain hview | ⟨A, hA, hle, hview⟩ := hlooks l (List.mem_of_mem_take hl)
        · rw [hview] at hlook
          cases hlook
        · have hle := Nat.le_trans hend hle
          rw [hview, viewAt] at hlook
          unfold VersionGate.verdict at hlook
          dsimp only at hlook
          split at hlook
          · cases hlook
          · rename_i hgo
            obtain ⟨rfl, rfl⟩ := Verdict.stop.inj (Option.some.inj hlook)
            refine ⟨fun hlater => ?_, fun hlater => ⟨A, hA, of_decide_eq_true hlater⟩⟩
            have heq : H.recordAt A = x.1 + x.2.span := by
              have := of_decide_eq_false hlater
              rw [not_or] at hgo
              omega
            have hsame := (since_record (edge_end_of_mem hx) hA hle (Nat.le_of_eq heq)).1
            have hoff : ¬ sameLine mine (((H.runningAt A).map RowRunning.version).getD 0) :=
              fun hline => hgo (.inr ⟨heq, hline⟩)
            refine ⟨?_, hoff⟩
            cases hrun : H.runningAt A with
            | none =>
              rw [RowLog.recordAt, hrun] at heq
              have : (0 : ℕ) = x.1 + x.2.span := heq
              omega
            | some r =>
              rw [RowLog.recordAt, hrun] at heq
              exact ⟨r, by rw [← hsame, hrun], heq, rfl⟩
      · cases hlook
    · cases hstop
  · cases hstop

end RowLog

namespace Service

variable {σ : Type}

/-! ## The lines of an incarnation -/

/-- What an incarnation decided at its start: the records up to the one it attached
    with, and its pin. -/
structure Decided (H : RowLog) (S : Service σ) (T : Terms) (start : ℕ) : Prop where
  row : S.row = H.row
  looks : T.looks = H.Shown
  below : ∀ p, H.log.Edge p → start ≤ p → p ≤ T.recordPos → H.Own S.version p
  pinned : ∀ origin from_ to_, T.pin = some (origin, from_, to_) →
    origin < T.recordPos ∧ ∀ p, H.log.Edge p → origin ≤ p → p ≤ T.recordPos → H.Own S.version p

/-- A row that has applied what was its own, up to `r`; `pool` is the artifacts that
    there are. -/
structure Lined (H : RowLog) (S : Service σ) (T : Terms) (pool : List (ℕ × ℕ × Bytes)) (start : ℕ)
    (w : Work σ) (r : ℕ) : Prop where
  start : start ≤ r
  headed : H.Headed S.hash S.version r
  calls : ∀ g, .call g ∈ w.events →
    ∃ x ∈ H.log.placed, appFrame S.hash x = some g ∧ H.Own S.version x.1
  built : ∀ a ∈ w.built, H.log.Edge a.1 ∧ H.Headed S.hash S.version a.1
  records : ∀ x ∈ H.log.placed, ∀ v, H.Moves x v → T.recordPos < x.1 + x.2.span → x.1 + x.2.span ≤ r →
    sameLine S.version v ∨ ∃ a ∈ pool, x.1 < a.1 ∧ sameLine a.2.1 S.version

/-- Every artifact is of a binary that was its own at the tag. -/
def OwnPool (H : RowLog) (hash : ℕ) (pool : List (ℕ × ℕ × Bytes)) : Prop :=
  ∀ a ∈ pool, H.log.Edge a.1 ∧ H.Headed hash a.2.1 a.1

variable {H : RowLog} {S : Service σ} {T : Terms} {pool : List (ℕ × ℕ × Bytes)} {start r : ℕ} {w : Work σ}
  {due : List AppFrame} {x : ℕ × LogFrame}

theorem Lined.mono {pool' : List (ℕ × ℕ × Bytes)} (h : Lined H S T pool start w r) (hsub : pool ⊆ pool') :
    Lined H S T pool' start w r := by
  refine { h with records := fun x hx v hmoves hlt hle => ?_ }
  obtain hline | ⟨a, ha, hrange⟩ := h.records x hx v hmoves hlt hle
  · exact .inl hline
  · exact .inr ⟨a, hsub ha, hrange⟩

theorem Lined.next (h : Lined H S T pool start w r) (hx : x ∈ H.log.placed) (hr : x.1 = r)
    (hheaded : H.Headed S.hash S.version (x.1 + x.2.span))
    (hmoves : T.recordPos < x.1 + x.2.span → ∀ v, H.Moves x v → sameLine S.version v) :
    Lined H S T pool start w (x.1 + x.2.span) := by
  subst hr
  refine ⟨Nat.le_trans h.start (Nat.le_add_right _ _), hheaded, h.calls, h.built, ?_⟩
  intro y hy v hv hlt hle
  have hxedge : H.log.Edge x.1 := edge_of_mem hx
  have hyedge : H.log.Edge y.1 := edge_of_mem hy
  obtain hend | hstart := hxedge.le_or_le hy
  · exact h.records y hy v hv hlt hend
  · -- the frame itself
    have hyx : y = x := by
      have hspan := y.2.span_pos
      obtain hend' | hstart' := hyedge.le_or_le hx
      · omega
      · exact Tiling.place_unique LogFrame.span_pos hy hx (Nat.le_antisymm hstart' hstart)
    subst hyx
    exact .inl (hmoves hlt v hv)

theorem Lined.skip (h : Lined H S T pool start w r) (hr : H.log.Edge r) (hx : x ∈ H.log.placed)
    (hle : x.1 ≤ r) (hmoves : ∀ v, H.Moves x v → sameLine S.version v) :
    Lined H S T pool start w (max r (x.1 + x.2.span)) := by
  obtain ⟨-, hmax⟩ | ⟨rfl, hmax⟩ := below_or_next hr hx hle
  · rwa [hmax]
  · rw [hmax]
    exact h.next hx rfl (h.headed.next hx hmoves) fun _ => hmoves

theorem not_moves (hx : x ∈ H.log.placed) (hclu : x.2.frameType ≠ frameTypeCluster) :
    ∀ v, H.Moves x v → sameLine S.version v :=
  fun _ hv => absurd (hv.record hx).1 hclu

theorem appFrame_ne_cluster {hash : ℕ} {g : AppFrame} (h : appFrame hash x = some g) :
    x.2.frameType ≠ frameTypeCluster := by
  intro hclu
  rw [appFrame, hclu] at h
  cases h

theorem Lined.call (hc : Called S H.log due w r) (h : Lined H S T pool start w r) (hx : x ∈ H.log.placed)
    (hle : x.1 ≤ r) {g : AppFrame} (happ : appFrame S.hash x = some g) :
    Lined H S T pool start (S.deliver w g) (max r (x.1 + x.2.span)) := by
  have hskip := h.skip hc.edge hx hle (not_moves hx (appFrame_ne_cluster happ))
  rw [deliver]
  split
  · rename_i habove
    refine { hskip with calls := ?_ }
    intro g' hg'
    obtain hg' | hg' := List.mem_append.mp hg'
    · exact h.calls g' hg'
    · obtain rfl : g' = g := by simpa using hg'
      refine ⟨x, hx, happ, ?_⟩
      obtain ⟨hend, -⟩ | ⟨rfl, -⟩ := below_or_next hc.edge hx hle
      · -- it is among those that were applied
        have hlt : x.1 < r := by
          have := x.2.span_pos
          omega
        obtain ⟨q, hq, hge⟩ := le_lastPosition (ordered_appsBelow hc.edge)
          (CommittedLog.mem_appsBelow.mpr ⟨x, hx, hlt, happ⟩)
        rw [RawStateMachine.above, Option.all_eq_true, hc.last] at habove
        have := of_decide_eq_true (habove q hq)
        exact absurd this (UInt64.not_lt.mpr hge)
      · exact h.headed.own hx happ
  · exact hskip

theorem Lined.instant (hc : Called S H.log due w r) (h : Lined H S T pool start w r) (hx : x ∈ H.log.placed)
    (hle : x.1 ≤ r) (hsnap : x.2.frameType = frameTypeSnapshot) (e : WalkEnv) :
    Lined H S T pool start (S.onSnapshotFrame e w x) (max r (x.1 + x.2.span)) := by
  have hclu : x.2.frameType ≠ frameTypeCluster := by
    rw [hsnap]
    decide
  have hskip := h.skip hc.edge hx hle (not_moves hx hclu)
  unfold onSnapshotFrame
  split
  · exact hskip
  split
  · exact hskip
  split
  · exact hskip
  split
  · exact hskip
  rename_i hlast
  split
  · exact hskip
  split
  · refine { hskip with built := ?_ }
    intro a ha
    obtain ha | ha := List.mem_append.mp ha
    · exact h.built a ha
    rw [List.mem_singleton.mp ha]
    refine ⟨edge_end_of_mem hx, hskip.headed.quiet (Nat.le_max_right _ _) fun y hy hge hlt => ?_⟩
    -- nothing was applied since the instant
    cases happ : appFrame S.hash y with
    | none => rfl
    | some g =>
      exfalso
      have hlt : y.1 < r := by omega
      obtain ⟨q, hq, hgq⟩ := le_lastPosition (ordered_appsBelow hc.edge)
        (CommittedLog.mem_appsBelow.mpr ⟨y, hy, hlt, happ⟩)
      refine hlast (Option.any_eq_true .. |>.mpr ⟨q, hc.last ▸ hq, ?_⟩)
      have hpos := CommittedLog.position_toNat hy happ
      rw [decide_eq_true_eq, UInt64.le_iff_toNat_le, UInt64.toNat_ofNat_of_lt' (start_lt hx)]
      have := UInt64.le_iff_toNat_le.mp hgq
      omega
  · exact hskip

theorem Lined.install (hD : Decided H S T start) (hpool : OwnPool H S.hash pool)
    (h : Lined H S T pool start w r) {pos version : ℕ} {payload : Bytes} (hedge : H.log.Edge pos)
    (hin : (pos, version, payload) ∈ pool) (hexp : Expected S T pos version) (sm : σ) :
    Lined H S T pool start { w with sm, events := w.events ++ [.install pos] } (max r pos) := by
  have hcalls : ∀ g, RowEvent.call g ∈ w.events ++ [.install pos] →
      ∃ x ∈ H.log.placed, appFrame S.hash x = some g ∧ H.Own S.version x.1 := by
    intro g hg
    obtain hg | hg := List.mem_append.mp hg
    · exact h.calls g hg
    · simp at hg
  obtain hle | hlt := Nat.lt_or_ge r pos |>.symm
  · rw [Nat.max_eq_left hle]
    exact { h with calls := hcalls }
  · rw [Nat.max_eq_right (Nat.le_of_lt hlt)]
    refine ⟨Nat.le_trans h.start (Nat.le_of_lt hlt), ?_, hcalls, h.built, ?_⟩
    · obtain hline | ⟨from_, to_, hpin, -⟩ := hexp
      · exact (hpool _ hin).2.of_line (RowLog.sameLine_symm hline)
      · obtain ⟨hrec, hown⟩ := hD.pinned _ _ _ hpin
        exact .of_own hedge (hown pos hedge le_rfl (Nat.le_of_lt hrec))
    · intro x hx v hv hrec hend
      obtain hline | ⟨from_, to_, hpin, -⟩ := hexp
      · refine .inr ⟨_, hin, ?_, hline⟩
        have := x.2.span_pos
        omega
      · have := (hD.pinned _ _ _ hpin).1
        omega

theorem lined_keeps (hM : Advances S.machine) (hD : Decided H S T start) (hpool : OwnPool H S.hash pool) :
    Keeps S H.log (fun pos version img => (pos, version, img) ∈ pool ∧ Whole S H.log pos img) T
      (fun w r => Called S H.log due w r ∧ Lined H S T pool start w r) := by
  have hk : Keeps S H.log _ T (Called S H.log due) := called_keeps hM T
  exact {
    edge := fun h => hk.edge h.1
    last := fun h => hk.last h.1
    skip := fun h hx hle hclu happ => ⟨hk.skip h.1 hx hle hclu happ,
      h.2.skip h.1.edge hx hle (not_moves hx hclu)⟩
    record := by
      intro e w r x h hx hle hclu hknows hpass
      refine ⟨hk.record h.1 hx hle hclu hknows hpass, ?_⟩
      obtain hlt | hdec := Nat.lt_or_ge e.decidedTo (x.1 + x.2.span)
      · exact h.2.skip h.1.edge hx hle
          (RowLog.moves_of_pass hD.row hx (fun l hl => hD.looks ▸ hknows.looks x.1 l hl) hpass hlt)
      obtain ⟨-, hmax⟩ | ⟨rfl, hmax⟩ := below_or_next h.1.edge hx hle
      · rw [hmax]
        exact h.2
      · -- the record was decided at the start
        have hle : x.1 + x.2.span ≤ T.recordPos := by
          have := hknows.below
          have := x.2.span_pos
          omega
        have hend : H.log.Edge (x.1 + x.2.span) := edge_end_of_mem hx
        have hown := hD.below _ hend (Nat.le_trans h.2.start (Nat.le_add_right _ _)) hle
        rw [hmax]
        exact h.2.next hx rfl (.of_own hend hown) fun hlt => absurd hlt (Nat.not_lt.mpr hle)
    call := fun h hx hle happ => ⟨hk.call h.1 hx hle happ, h.2.call h.1 hx hle happ⟩
    instant := fun h hx hle hsnap => ⟨hk.instant h.1 hx hle hsnap, h.2.instant h.1 hx hle hsnap _⟩
    install := by
      intro w r pos version payload sm installed h hlast hgood hexp hinstall
      obtain ⟨hlanded, hedge, hcalled⟩ := hk.install h.1 hlast hgood.2 hexp hinstall
      exact ⟨hlanded, hedge, hcalled, h.2.install hD hpool hedge hgood.1 hexp sm⟩ }

/-! ## At the start -/

/-- What a start finds of the row: a view of a position that the cluster agent has come
    to, at or above what the state machine has applied. -/
structure Found (H : RowLog) (S : Service σ) (env : AttachEnv) (sm₀ : σ) (A : ℕ) : Prop where
  row : S.row = H.row
  edge : H.log.Edge A
  view : env.view = .contended ∨ env.view = H.viewAt A
  applied : ∀ q ∈ S.machine.lastApplied sm₀, ∀ x ∈ H.log.placed, x.1 = q.toNat → x.1 + x.2.span ≤ A

variable {env : AttachEnv} {sm₀ : σ} {row : ServiceRow σ} {A : ℕ}

theorem Found.attached (h : Found H S env sm₀ A) (hrow : Attached S env sm₀ row) :
    env.view = H.viewAt A ∧ row.attachRecordPos = H.recordAt A ∧
      row.pin = (H.pinAt A).map (fun p => (p.origin, p.from_, p.to_)) ∧
      ∀ r ∈ H.runningAt A, sameLine S.version r.version := by
  obtain ⟨running, hview, hgate⟩ := hrow.view
  obtain hcont | hat := h.view
  · rw [hview] at hcont
    cases hcont
  have hsame := hview.symm.trans hat
  rw [RowLog.viewAt] at hsame
  obtain ⟨hpin, hrun, hrec⟩ := RowRead.view.inj hsame
  refine ⟨hat, hrec, hpin, fun r hr => ?_⟩
  cases hp : H.pinAt A with
  | none =>
    rw [hpin, hrun, hp, Option.mem_def.mp hr] at hgate
    simp only [attachGate, Option.map_none, Option.map_some] at hgate
    split at hgate
    · assumption
    · cases hgate
  | some p =>
    obtain ⟨r', hr', hversion, -⟩ := RowLog.pinned h.edge hp
    rw [hr'] at hr
    obtain rfl := Option.some.inj hr
    rw [hpin, hp] at hgate
    simp only [attachGate, Option.map_some] at hgate
    split at hgate
    · rename_i hline
      rw [hversion]
      exact RowLog.sameLine_symm hline
    · cases hgate

theorem recordPos_lt_of_permitted {pin : ℕ × ℕ × ℕ} {view : RowRead} {running : Option ℕ}
    {recordPos decidedTo pos built : ℕ} (hview : view = .view (some pin) running recordPos)
    (h : startSetPermitted (some pin) view decidedTo (some (pos, built))) : recordPos < pos := by
  rw [hview, startSetPermitted] at h
  split at h
  · cases h
  · simpa using h

theorem Found.decided (h : Found H S env sm₀ A) (hrow : Attached S env sm₀ row) :
    Decided H S ⟨H.Shown, row.attachRecordPos, row.pin⟩ row.cursor := by
  obtain ⟨-, hrec, hpin, hline⟩ := h.attached hrow
  obtain ⟨running, hview, -⟩ := hrow.view
  have hpinned : ∀ origin from_ to_, row.pin = some (origin, from_, to_) →
      origin < row.attachRecordPos ∧ ∀ p, H.log.Edge p → origin ≤ p → p ≤ row.attachRecordPos →
        H.Own S.version p := by
    intro origin from_ to_ hp
    rw [hpin] at hp
    obtain ⟨pin, hat, hp⟩ := Option.map_eq_some_iff.mp hp
    obtain ⟨rfl, rfl, rfl⟩ : pin.origin = origin ∧ pin.from_ = from_ ∧ pin.to_ = to_ := by simpa using hp
    obtain ⟨r, hr, hversion, horigin⟩ := RowLog.pinned h.edge hat
    rw [hrec]
    exact ⟨horigin, fun p hp hge hle => RowLog.own_of_pin h.edge hat (hversion ▸ hline r hr) hp hge hle⟩
  refine ⟨h.row, rfl, fun p hp hge hle => ?_, hpinned⟩
  cases hat : H.pinAt A with
  | none =>
    -- there was one version at most
    have hpA : p ≤ A := Nat.le_trans (hrec ▸ hle) (RowLog.recordAt_le h.edge).1
    left
    intro r hr
    obtain hnone | hsame := RowLog.unpinned hp h.edge hpA hat
    · rw [hnone] at hr
      cases hr
    · exact hline r (hsame ▸ hr)
  | some pin =>
    have hrowpin : row.pin = some (pin.origin, pin.from_, pin.to_) := by
      rw [hpin, hat]
      rfl
    rw [hrowpin] at hview
    have habove : ∀ pos built, env.startSet = some (pos, built) → pos ≤ row.cursor →
        startSetPermitted row.pin env.view row.attachRecordPos env.startSet → H.Own S.version p := by
      intro pos built hset hpos hpermitted
      rw [hset, hrowpin] at hpermitted
      have := recordPos_lt_of_permitted hview hpermitted
      have : p ≤ row.attachRecordPos := hle
      omega
    cases hrow.start with
    | kept hsm hcursor hstart =>
      obtain hnone | ⟨hpermitted, built, pos, hpos, hset, -⟩ := hstart
      · rw [hrowpin] at hnone
        cases hnone
      · exact habove pos built hset hpos hpermitted
    | set built hset hpermitted => exact habove _ built hset le_rfl hpermitted
    | pinned from_ to_ horigin => exact (hpinned _ _ _ horigin).2 p hp hge hle

theorem Found.kept (h : Found H S env sm₀ A) (hrow : Attached S env sm₀ row) (hr : H.log.Edge r)
    (hle : row.cursor ≤ r) (hrA : r ≤ A)
    (hstart : row.pin = none ∨ startSetPermitted row.pin env.view row.attachRecordPos env.startSet ∧
      ∃ built, ∃ pos ≤ row.cursor, env.startSet = some (pos, built) ∧ sameLine built S.version) :
    H.Own S.version r := by
  obtain ⟨-, hrec, hpin, hline⟩ := h.attached hrow
  obtain ⟨running, hview, -⟩ := hrow.view
  left
  intro v hv
  cases hat : H.pinAt A with
  | none =>
    obtain hnone | hsame := RowLog.unpinned hr h.edge hrA hat
    · rw [hnone] at hv
      cases hv
    · exact hline v (hsame ▸ hv)
  | some pin =>
    have hrowpin : row.pin = some (pin.origin, pin.from_, pin.to_) := by
      rw [hpin, hat]
      rfl
    obtain hnone | ⟨hpermitted, built, pos, hpos, hset, -⟩ := hstart
    · rw [hrowpin] at hnone
      cases hnone
    rw [hrowpin] at hview hpermitted
    rw [hset] at hpermitted
    have hlt := recordPos_lt_of_permitted hview hpermitted
    have hsame := (RowLog.since_record hr h.edge hrA (by omega)).1
    exact hline v (hsame ▸ hv)

theorem Found.lined (h : Found H S env sm₀ A) (hrow : Attached S env sm₀ row) (hpool : OwnPool H S.hash pool)
    {seen : Counters} (henv : Attachable H.log
      (fun pos version img => (pos, version, img) ∈ pool ∧ Whole S H.log pos img) env seen)
    (hsm₀ : Resumes S H.log sm₀ seen) (hr : H.log.Edge r) (hreach : r = row.cursor ∨ ∃ x ∈ H.log.placed,
      S.machine.lastApplied row.sm = some (.ofNat x.1) ∧ row.cursor = x.1 ∧ r = x.1 + x.2.span) :
    Lined H S ⟨H.Shown, row.attachRecordPos, row.pin⟩ pool row.cursor row.toWork r := by
  obtain ⟨-, hrec, -⟩ := h.attached hrow
  have hle : row.cursor ≤ r := by
    obtain rfl | ⟨x, -, -, hcursor, rfl⟩ := hreach
    · exact le_rfl
    · omega
  have hlined : H.Headed S.hash S.version r →
      (∀ x ∈ H.log.placed, ∀ v, H.Moves x v → row.attachRecordPos < x.1 + x.2.span → x.1 + x.2.span ≤ r →
        ∃ a ∈ pool, x.1 < a.1 ∧ sameLine a.2.1 S.version) →
      Lined H S ⟨H.Shown, row.attachRecordPos, row.pin⟩ pool row.cursor row.toWork r := by
    intro hheaded hrecords
    refine ⟨hle, hheaded, ?_, ?_, fun x hx v hv hlt hend => .inr (hrecords x hx v hv hlt hend)⟩
    · rw [hrow.events]
      simp
    · rw [hrow.built]
      simp
  -- an artifact leaves the cursor at its tag
  have htag : ∀ {version : ℕ}, Restored S env.open_ version row.cursor sm₀ row.sm → r = row.cursor := by
    intro version hres
    obtain heq | ⟨x, hx, hlast, hcursor, -⟩ := hreach
    · exact heq
    · obtain ⟨-, -, -, -, -, hbelow⟩ := hres
      have := hbelow _ hlast
      rw [hcursor] at this
      exact absurd this (UInt64.lt_irrefl _)
  cases hrow.start with
  | kept hsm hcursor hstart =>
    have hrA : r ≤ A := by
      obtain rfl | ⟨x, hx, hlast, -, rfl⟩ := hreach
      · cases hq : S.machine.lastApplied sm₀ with
        | none =>
          rw [hcursor, hq]
          exact Nat.zero_le _
        | some q =>
          rw [hq] at hcursor
          have hcursor : row.cursor = q.toNat := hcursor
          obtain ⟨x, hx, -, -, hpos, -⟩ := hsm₀ q hq
          have := h.applied q hq x hx hpos
          omega
      · rw [hsm] at hlast
        exact h.applied _ hlast x hx (UInt64.toNat_ofNat_of_lt' (start_lt hx)).symm
    refine hlined (.of_own hr (h.kept hrow hr hle hrA hstart)) fun x hx v hv hlt hend => ?_
    have := hv.le_recordAt hx h.edge (Nat.le_trans hend hrA)
    omega
  | set built hset _ _ hres =>
    obtain rfl := htag hres
    obtain ⟨version, payload, ⟨hin, -⟩, hline, -⟩ := henv.restored hres
    refine hlined ((hpool _ hin).2.of_line (RowLog.sameLine_symm hline)) fun x hx v hv hlt hend => ?_
    refine ⟨_, hin, ?_, hline⟩
    have := x.2.span_pos
    omega
  | pinned from_ to_ hpin hres =>
    obtain rfl := htag hres
    obtain ⟨hlt, hown⟩ := (h.decided hrow).pinned _ _ _ hpin
    refine hlined (.of_own hr (hown _ hr le_rfl (Nat.le_of_lt hlt))) fun x hx v hv hrec hend => ?_
    have : row.cursor < row.attachRecordPos := hlt
    omega

/-! ## All incarnations -/

namespace Fleet

/-- What an incarnation of any version finds: artifacts that were built, and the words of
    its row as the cluster agent has published them. -/
def Versioned (H : RowLog) (hash : ℕ) (F : Fleet σ) : FleetStep σ → Prop
  | .attach _ S env sm₀ seen =>
    S.hash = hash ∧ Advances S.machine ∧
      Attachable H.log (fun pos version img => (pos, version, img) ∈ F.pool ∧ Whole S H.log pos img) env seen ∧
      Resumes S H.log sm₀ seen ∧ ∃ A, Found H S env sm₀ A
  | .row node step =>
    (∀ i ∈ F.nodes node, Service.Allowed H.log
      (fun pos version img => (pos, version, img) ∈ F.pool ∧ Whole i.service H.log pos img)
      i.running.row i.running.seen step) ∧ Watches H.Shown step

/-- An incarnation has applied what was its own. -/
def OfLine (H : RowLog) (hash : ℕ) (pool : List (ℕ × ℕ × Bytes)) (i : Incarnation σ) : Prop :=
  i.service.hash = hash ∧ Advances i.service.machine ∧
    ∃ due T start r, Decided H i.service T start ∧
      Stands i.service H.log T
        (fun w r => Called i.service H.log due w r ∧ Lined H i.service T pool start w r) i.running r

variable {hash : ℕ} {F : Fleet σ}

theorem OfLine.mono {pool' : List (ℕ × ℕ × Bytes)} {i : Incarnation σ} (h : OfLine H hash pool i)
    (hsub : pool ⊆ pool') : OfLine H hash pool' i := by
  obtain ⟨hhash, hM, due, T, start, r, hD, hs⟩ := h
  exact ⟨hhash, hM, due, T, start, r, hD, { hs with inv := ⟨hs.inv.1, hs.inv.2.mono hsub⟩ }⟩

theorem ofLine_attach (hpool : OwnPool H hash pool) {seen : Counters} (hhash : S.hash = hash)
    (hM : Advances S.machine) (henv : Attachable H.log
      (fun pos version img => (pos, version, img) ∈ pool ∧ Whole S H.log pos img) env seen)
    (hsm₀ : Resumes S H.log sm₀ seen) (hfound : Found H S env sm₀ A) (hattach : S.attach env sm₀ = .ok row) :
    OfLine H hash pool ⟨S, ⟨row, seen⟩⟩ := by
  subst hhash
  have hrow := attach_ok hattach
  have hwhole : Attachable H.log (fun pos _ => Whole S H.log pos) env seen :=
    { henv with store := fun pos file hopen tag hdecode htag =>
      (henv.store pos file hopen tag hdecode htag).2 }
  obtain ⟨r, hs, hreach⟩ := attach_called hattach hwhole hsm₀
  refine ⟨rfl, hM, dueAt S H.log row, _, _, r, hfound.decided hrow, ?_⟩
  exact ⟨⟨hs.inv, hfound.lined hrow hpool henv hsm₀ hs.inv.edge hreach⟩, ⟨rfl, rfl⟩, hs.cursor,
    hs.applied, hs.live,
    hs.head, hs.cycle, by simp [hrow.idle.2]⟩

theorem pool_subset (F : Fleet σ) (step : FleetStep σ) : F.pool ⊆ (F.exec step).pool := by
  cases step with
  | attach node S env sm₀ seen =>
    rw [Fleet.exec]
    split
    all_goals exact List.Subset.refl _
  | row node step =>
    rw [Fleet.exec]
    split
    · exact List.Subset.refl _
    · exact List.subset_append_left _ _

theorem ofLine_exec (hpool : OwnPool H hash F.pool)
    (hnodes : ∀ node, ∀ i ∈ F.nodes node, OfLine H hash F.pool i)
    {step : FleetStep σ} (hstep : F.Versioned H hash step) (hsteady : F.Steady step) :
    OwnPool H hash (F.exec step).pool ∧
      ∀ node, ∀ i ∈ (F.exec step).nodes node, OfLine H hash (F.exec step).pool i := by
  have hkept : (∀ a ∈ (F.exec step).pool, H.log.Edge a.1 ∧ H.Headed hash a.2.1 a.1) ∧
      ∀ node, ∀ i ∈ (F.exec step).nodes node, OfLine H hash F.pool i := by
    refine exec_keeps (A := fun pos version _ => H.log.Edge pos ∧ H.Headed hash version pos) hpool hnodes ?_ ?_
    · rintro node S env sm₀ seen row rfl hattach
      obtain ⟨hhash, hM, henv, hsm₀, A, hfound⟩ := hstep
      exact ofLine_attach hpool hhash hM henv hsm₀ hfound hattach
    · rintro node s i rfl hi ⟨rfl, hM, due, T, start, r, hD, hs⟩
      obtain ⟨hallowed, hwatch⟩ := hstep
      obtain ⟨r', -, hs', -⟩ := (lined_keeps hM hD hpool).exec hs (hallowed i hi) (hsteady i hi)
        (hD.looks ▸ hwatch)
      exact ⟨⟨rfl, hM, due, T, start, r', hD, hs'⟩, hs'.inv.2.built⟩
  exact ⟨hkept.1, fun node i hi => (hkept.2 node i hi).mono (pool_subset F step)⟩

/-- A version change splits the log: in every run of the incarnations of a row whose
    passes find a journal that joins up,
    * a frame is applied by a binary of the row's line there, or before the row has a
      version, or between the origin and the record of a pin to the binary's line;
    * what a row has published lies below every record above its start that moved the row
      off its line, unless there is an artifact of its line above that record;
    * a row that was superseded stands at a record above the one it attached with, which
      moved the row off its line, or which a later one that was accepted follows. -/
theorem lines_split {steps : List (FleetStep σ)}
    (hrun : Trace.Admits Fleet.exec (fun F step => F.Versioned H hash step ∧ F.Steady step) Fleet.empty steps)
    (hF : steps.foldl Fleet.exec Fleet.empty = F) (node : ℕ) (i : Incarnation σ) (hi : i ∈ F.nodes node) :
    (∀ g, .call g ∈ i.running.row.events →
      ∃ x ∈ H.log.placed, appFrame hash x = some g ∧ H.Own i.service.version x.1) ∧
    (∀ x ∈ H.log.placed, ∀ v, H.Moves x v → i.running.row.attachRecordPos < x.1 + x.2.span →
      x.1 + x.2.span ≤ i.running.row.applied →
        sameLine i.service.version v ∨ ∃ a ∈ F.pool, x.1 < a.1 ∧ sameLine a.2.1 i.service.version) ∧
    ∀ running pos later, i.running.row.failed = some (.superseded running pos later) →
      i.running.row.applied = pos ∧ ∃ f, (pos, f) ∈ H.log.placed ∧ f.frameType = frameTypeCluster ∧
        isRecordOf H.row f.body ∧ i.running.row.attachRecordPos < pos + f.span ∧
        (later = false → H.Moves (pos, f) running ∧ ¬ sameLine i.service.version running) ∧
        (later = true → ∃ A, H.log.Edge A ∧ pos + f.span < H.recordAt A) := by
  have hinv : OwnPool H hash F.pool ∧ ∀ node, ∀ i ∈ F.nodes node, OfLine H hash F.pool i := by
    rw [← hF]
    refine hrun.rule (P := fun steps =>
      OwnPool H hash (steps.foldl Fleet.exec Fleet.empty).pool ∧
        ∀ node, ∀ i ∈ (steps.foldl Fleet.exec Fleet.empty).nodes node,
          OfLine H hash (steps.foldl Fleet.exec Fleet.empty).pool i) ?_ ?_
    · exact ⟨by simp [OwnPool, empty], by simp [empty]⟩
    · rintro steps step ⟨hpool, hnodes⟩ hstep
      rw [List.foldl_append, List.foldl_cons, List.foldl_nil]
      exact ofLine_exec hpool hnodes hstep.1 hstep.2
  obtain ⟨rfl, -, due, T, start, r, hD, hs⟩ := hinv.2 node i hi
  refine ⟨hs.inv.2.calls, fun x hx v hv hlt hend => ?_, fun running pos later hfailed => ?_⟩
  · rw [hs.terms.1] at hlt
    exact hs.inv.2.records x hx v hv hlt (Nat.le_trans hend hs.applied)
  · obtain ⟨happlied, f, decidedTo, looks, hf, hclu, hle, hlooks, hstop⟩ :=
      hs.stopped running pos later hfailed
    obtain ⟨hrec, hlt, hfirst, hlater⟩ := RowLog.moves_of_stop (x := (pos, f)) hD.row hf
      (fun l hl => hD.looks ▸ hlooks l hl) hstop
    refine ⟨happlied, f, hf, hclu, hrec, ?_, hfirst, hlater⟩
    rw [hs.terms.1]
    exact Nat.lt_of_le_of_lt hle hlt

/-! ## A refused record and a pin -/

def recordFrame (kind : ClusterKind) (payload : Bytes) : LogFrame :=
  ⟨frameTypeCluster, 0, 0, 0, 0, 0, writeClusterPrefix kind ++ payload⟩

/-- The first version of a row, an instant, a message, a pin from a line that the row
    does not run, and a pin from the line that it runs. -/
def splitLog : CommittedLog :=
  ⟨[recordFrame .rowGenesis (encodeRowGenesis ⟨0, 65536⟩),
      { emptyMessage with frameType := frameTypeSnapshot }, emptyMessage,
      recordFrame .upgradePin (encodeUpgradePin ⟨0, 131072, 65536, 96⟩),
      recordFrame .upgradePin (encodeUpgradePin ⟨0, 65536, 131072, 96⟩)],
    by decide⟩

theorem splitLog_origins (x : ℕ × LogFrame) (hx : x ∈ splitLog.placed)
    (_ : x.2.frameType = frameTypeCluster) (p : UpgradePin)
    (hp : ClusterState.readCommand x.2.body = some (.upgradePin p)) : p.origin ≤ x.1 := by
  have hall : ∀ x ∈ splitLog.placed, ClusterState.readCommand x.2.body = none ∨
      x.1 = 0 ∧ ClusterState.readCommand x.2.body = some (.rowGenesis ⟨0, 65536⟩) ∨
      128 ≤ x.1 ∧ (ClusterState.readCommand x.2.body = some (.upgradePin ⟨0, 131072, 65536, 96⟩) ∨
        ClusterState.readCommand x.2.body = some (.upgradePin ⟨0, 65536, 131072, 96⟩)) := by
    decide +kernel
  have := hall x hx
  rw [hp] at this
  simp only [reduceCtorEq, Option.some.injEq, ClusterCommand.upgradePin.injEq, false_or,
    and_false] at this
  obtain ⟨hpos, rfl | rfl⟩ := this
  all_goals exact Nat.le_trans (by decide) hpos

def splitRow : RowLog where
  log := splitLog
  membership := .genesis [(1, 0, 1)] []
  settings := .genesisDefault
  row := ⟨0, cncMaxServices_pos⟩
  origins := splitLog_origins

def splitService (version : ℕ) : Service (Option UInt64) := ⟨placeMachine, version, 0, 0, true, true⟩

def splitStart (view : RowRead) (file : Option Bytes) : AttachEnv where
  view := view
  startSet := none
  reread := view
  frontier := ⟨256, 256⟩
  open_ pos := if pos = 96 then file else none
  durable := 256
  lag := .off

def splitTurn (frames : List LogFrame) : TurnEnv where
  floors := [0]
  read := .run frames
  looks _ := [⟨256, splitRow.viewAt 256⟩]
  busy _ := false
  sent _ := true
  pass := segmentPass none

/-- A binary of the first line, with the view from before the pins, and then one of the
    second line. -/
def splitSteps : List (FleetStep (Option UInt64)) :=
  [.attach 0 (splitService 65536) (splitStart (splitRow.viewAt 64) none) none ⟨256, 256⟩,
    .row 0 (.begin_ (some true) (some true) ⟨256, 256⟩ false), .row 0 (.turn (splitTurn splitLog.frames)),
    .attach 1 (splitService 131072)
      (splitStart (splitRow.viewAt 256) (some (writeSnapshotEnvelope 96 65536))) none ⟨256, 256⟩,
    .row 1 (.begin_ (some true) (some true) ⟨256, 256⟩ false),
    .row 1 (.turn (splitTurn (splitLog.frames.drop 2)))]

theorem split_edge {k pos : ℕ} (h : pos = 0 + width LogFrame.span (splitLog.frames.take k)) :
    splitRow.log.Edge pos :=
  ⟨_, _, (List.take_append_drop k splitLog.frames).symm, h⟩

theorem split_found {version A : ℕ} {file : Option Bytes} (hA : splitRow.log.Edge A) :
    Found splitRow (splitService version) (splitStart (splitRow.viewAt A) file) none A where
  row := rfl
  edge := hA
  view := .inr rfl
  applied q hq := by cases hq

theorem split_watches (frames : List LogFrame) : Watches splitRow.Shown (.turn (splitTurn frames)) := by
  refine ⟨fun pos l hl => ?_, fun pos l hl => by cases hl⟩
  rw [List.mem_singleton.mp hl]
  exact .inr ⟨256, split_edge (k := 5) (by decide), le_rfl, rfl⟩

theorem split_whole : Whole (splitService 131072) splitLog 96 [] := by
  refine ⟨split_edge (k := 2) (by decide), ?_⟩
  rintro sm sm' installed ⟨⟩
  exact ⟨rfl, by decide +kernel⟩

theorem split_attachable {pool : List (ℕ × ℕ × Bytes)} {version A : ℕ} {file : Option Bytes}
    (hpin : ∀ origin from_ to_ running recordPos,
      splitRow.viewAt A = .view (some (origin, from_, to_)) running recordPos → origin ≤ 256)
    (hfile : ∀ f ∈ file, f = writeSnapshotEnvelope 96 65536 ∧ (96, 65536, []) ∈ pool ∧ version = 131072) :
    Attachable splitLog
      (fun pos v img => (pos, v, img) ∈ pool ∧ Whole (splitService version) splitLog pos img)
      (splitStart (splitRow.viewAt A) file) ⟨256, 256⟩ where
  frontier := le_refl _
  durable := le_rfl
  pin := hpin
  store pos f hopen tag hdecode htag := by
    simp only [splitStart, Option.ite_none_right_eq_some] at hopen
    obtain ⟨rfl, hopen⟩ := hopen
    obtain ⟨rfl, hin, rfl⟩ := hfile f hopen
    have htag : tag = ⟨96, 65536⟩ := by
      have hread : decodeSnapshotEnvelope ((writeSnapshotEnvelope 96 65536).take snapshotEnvelopeLen) =
          .ok ⟨96, 65536⟩ := by decide +kernel
      rw [hread] at hdecode
      exact (Except.ok.inj hdecode).symm
    subst htag
    have hdrop : (writeSnapshotEnvelope 96 65536).drop snapshotEnvelopeLen = [] := by decide +kernel
    rw [hdrop]
    exact ⟨hin, split_whole⟩

theorem split_allowed {Good : Incarnation (Option UInt64) → ℕ → ℕ → Bytes → Prop}
    {o : Option (Incarnation (Option UInt64))} (cursor : ℕ) {frames : List LogFrame}
    (hcursor : o.map (fun i => i.running.row.cursor) = some cursor)
    (hframes : ∀ x ∈ place LogFrame.span cursor frames, x ∈ splitLog.placed) :
    ∀ i ∈ o, Service.Allowed splitLog (Good i) i.running.row i.running.seen (.turn (splitTurn frames)) := by
  rintro i hi x hx - - -
  rw [Option.mem_def.mp hi] at hcursor
  obtain rfl := Option.some.inj hcursor
  exact hframes x hx

theorem split_seen {Good : Incarnation (Option UInt64) → ℕ → ℕ → Bytes → Prop}
    {o : Option (Incarnation (Option UInt64))}
    {a b : Option Bool} {learner : Bool} (hseen : o.map (fun i => i.running.seen) = some ⟨256, 256⟩) :
    ∀ i ∈ o, Service.Allowed splitLog (Good i) i.running.row i.running.seen
      (.begin_ a b ⟨256, 256⟩ learner) := by
  intro i hi
  rw [Option.mem_def.mp hi] at hseen
  exact le_of_eq (Option.some.inj hseen)

theorem split_versioned :
    Trace.Admits Fleet.exec (fun F step => F.Versioned splitRow 0 step ∧ F.Steady step) Fleet.empty
      splitSteps := by
  have hadv : Advances placeMachine := ⟨fun _ _ _ => rfl, fun _ _ _ => rfl⟩
  have hview₁ : splitRow.viewAt 64 = .view none (some 65536) 64 := by decide +kernel
  have hview₂ : splitRow.viewAt 256 = .view (some (96, 65536, 131072)) (some 131072) 256 := by decide +kernel
  refine ⟨⟨⟨rfl, hadv, split_attachable ?_ ?_, ?_, 64,
    split_found (split_edge (k := 1) (by decide))⟩, trivial⟩,
    ⟨⟨split_seen (by decide +kernel), trivial⟩, ?_⟩,
    ⟨⟨split_allowed 0 (by decide +kernel) (by decide +kernel), split_watches _⟩, ?_⟩,
    ⟨⟨rfl, hadv, split_attachable ?_ ?_, ?_, 256, split_found (split_edge (k := 5) (by decide))⟩, trivial⟩,
    ⟨⟨split_seen (by decide +kernel), trivial⟩, ?_⟩,
    ⟨⟨split_allowed 96 (by decide +kernel) (by decide +kernel), split_watches _⟩, ?_⟩, trivial⟩
  · intro origin from_ to_ running recordPos h
    rw [hview₁] at h
    cases h
  · simp
  · intro q hq
    cases hq
  · exact fun _ _ => trivial
  · intro i hi h
    cases h
  · intro origin from_ to_ running recordPos h
    rw [hview₂] at h
    cases h
    decide
  · rintro f ⟨⟩
    exact ⟨rfl, by decide +kernel, rfl⟩
  · intro q hq
    cases hq
  · exact fun _ _ => trivial
  · intro i hi h
    cases h

/-- The first binary stops at the pin that was refused; the second one, which is of the
    line that the other pin names, applies a message that lies below both. -/
theorem stopped_at_refused :
    Trace.Admits Fleet.exec (fun F step => F.Versioned splitRow 0 step ∧ F.Steady step) Fleet.empty
      splitSteps ∧
    (∃ i ∈ (splitSteps.foldl Fleet.exec Fleet.empty).nodes 0,
      i.running.row.failed = some (.superseded 131072 128 true) ∧
      ∃ f, (128, f) ∈ splitRow.log.placed ∧ splitRow.runningAt (128 + f.span) = splitRow.runningAt 128) ∧
    ∃ i ∈ (splitSteps.foldl Fleet.exec Fleet.empty).nodes 1, ∃ x ∈ splitRow.log.placed, ∃ g ∈ appFrame 0 x,
      .call g ∈ i.running.row.events ∧
        (splitRow.runningAt x.1).any fun r => !sameLine i.service.version r.version := by
  refine ⟨split_versioned, ?_, ?_⟩
  · have hnode : ((splitSteps.foldl Fleet.exec Fleet.empty).nodes 0).map (fun i => i.running.row.failed) =
        some (some (.superseded 131072 128 true)) := by decide +kernel
    obtain ⟨i, hi, hfailed⟩ := Option.map_eq_some_iff.mp hnode
    refine ⟨i, hi, hfailed, recordFrame .upgradePin (encodeUpgradePin ⟨0, 131072, 65536, 96⟩), ?_, ?_⟩
    · decide +kernel
    · decide +kernel
  · have hnode : ((splitSteps.foldl Fleet.exec Fleet.empty).nodes 1).map
        (fun i => (i.service.version, i.running.row.events)) =
          some (131072, [.call ⟨⟨96, 0, 0⟩, .message []⟩]) := by decide +kernel
    obtain ⟨i, hi, hrow⟩ := Option.map_eq_some_iff.mp hnode
    obtain ⟨hversion, hevents⟩ := Prod.mk.inj hrow
    refine ⟨i, hi, (96, emptyMessage), ?_, ⟨⟨96, 0, 0⟩, .message []⟩, ?_, ?_, ?_⟩
    · decide +kernel
    · decide +kernel
    · rw [hevents]
      exact List.mem_singleton_self _
    · rw [hversion]
      decide +kernel

theorem lines_split_at_pin :
    ∃ i ∈ (splitSteps.foldl Fleet.exec Fleet.empty).nodes 0,
      i.running.row.failed = some (.superseded 131072 128 true) ∧ i.running.row.applied = 128 ∧
      ∃ A, splitRow.log.Edge A ∧ 192 < splitRow.recordAt A := by
  have hnode : ((splitSteps.foldl Fleet.exec Fleet.empty).nodes 0).map (fun i => i.running.row.failed) =
      some (some (.superseded 131072 128 true)) := by decide +kernel
  obtain ⟨i, hi, hfailed⟩ := Option.map_eq_some_iff.mp hnode
  obtain ⟨-, -, hstopped⟩ := lines_split split_versioned rfl 0 i hi
  obtain ⟨happlied, f, hf, -, -, -, -, hlater⟩ := hstopped _ _ _ hfailed
  have hspan : f.span = 64 := by
    have hall : ∀ x ∈ splitRow.log.placed, x.1 = 128 → x.2.span = 64 := by decide +kernel
    exact hall (128, f) hf rfl
  rw [hspan] at hlater
  exact ⟨i, hi, hfailed, happlied, hlater rfl⟩

end Fleet

end Service

end UltimaCluster
