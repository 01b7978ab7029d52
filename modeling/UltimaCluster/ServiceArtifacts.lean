/-
  What the artifacts of a row are.

  The incarnations of one row, on any number of nodes, share the artifacts that they
  build: a store can give any artifact that one of them has built, under its tag.
  Each is the state after the frames that start below its tag (`artifacts_of_log`),
  as long as the blocks that the passes find join up; where a segment is purged
  under a pass, an artifact can miss its frames (`artifact_of_purged`).

  A pass can come by an instant that lies below what the row has reached: it freezes
  there only if no frame since then was applied, and then the state is still the one
  at the instant (`Conforms.run_of_above`).
-/
import UltimaCluster.ServiceExact
import UltimaCluster.ServiceFleet

namespace UltimaCluster

open CommittedLog (appsBelow_concat below_or_next ordered_appsBelow position_toNat start_lt)
open RawStateMachine (above run_append run_concat)

namespace SnapshotStateMachine.Conforms

variable {σ : Type} {M : SnapshotStateMachine σ} {s : σ} {fs : List AppFrame}

theorem lastApplied_run (h : M.Conforms) (hs : M.lastApplied s = none) {q : UInt64}
    (hq : q ∈ M.lastApplied (M.run s fs)) : ∃ f ∈ fs, f.ctx.position = q := by
  obtain hq | hq := h.resumable.run_cursor hq
  · rw [show h.resumable.cursor s = none from hs] at hq
    cases hq
  · exact hq

/-- The frames of a log so far: those up to what was applied, and the ignored ones. -/
theorem split_above (h : M.Conforms) (hs : M.lastApplied s = none) (ho : AppFrame.Ordered fs) :
    ∃ ks is, fs = ks ++ is ∧ M.run s fs = M.run s ks ∧ Idle M.toRawStateMachine M.lastApplied (M.run s ks) is ∧
      ∀ g, M.above (M.run s fs) g → g ∉ ks := by
  have hcursor : ∀ f ∈ fs, ∀ c ∈ h.resumable.cursor s, c < f.ctx.position := by
    intro f _ c hc
    rw [show h.resumable.cursor s = none from hs] at hc
    cases hc
  obtain ⟨ks, is, hsplit, hidle, hks, -⟩ := h.resumable.run_split hcursor ho
  have hrun : M.run s fs = M.run s ks := by
    rw [hsplit, run_append, h.idle_run hidle]
  refine ⟨ks, is, hsplit, hrun, hidle, fun g habove hg => ?_⟩
  obtain ⟨c, hc, hle⟩ := hks g hg
  have hlt := Option.all_eq_true .. |>.mp habove c (hrun ▸ hc)
  grind

theorem run_of_above (h : M.Conforms) (hs : M.lastApplied s = none) {gs : List AppFrame}
    (ho : AppFrame.Ordered (fs ++ gs)) (habove : ∀ g ∈ gs, M.above (M.run s (fs ++ gs)) g) :
    M.run s (fs ++ gs) = M.run s fs := by
  obtain ⟨ks, is, hsplit, hrun, hidle, hks⟩ := h.split_above hs ho
  obtain ⟨is', rfl, rfl⟩ | ⟨v, rfl, rfl⟩ := List.append_eq_append_iff.mp hsplit
  · cases is' with
    | nil => rw [hrun, List.append_nil]
    | cons g is' => exact absurd (by simp) (hks g (habove g (by simp)))
  · have hidle' := (SnapshotStateMachine.idle_append.mp hidle).1
    rw [hrun, run_append, h.idle_run hidle']

theorem step_of_above (h : M.Conforms) (hs : M.lastApplied s = none) (ho : AppFrame.Ordered fs)
    {g : AppFrame} (hg : g ∈ fs) (habove : M.above (M.run s fs) g) :
    (M.step (M.run s fs) g).1 = M.run s fs := by
  obtain ⟨ks, is, hsplit, hrun, hidle, hks⟩ := h.split_above hs ho
  have hmem : g ∈ is := by
    rw [hsplit] at hg
    exact (List.mem_append.mp hg).resolve_left (hks g habove)
  rw [hrun]
  exact (h.idleAt (h.idle_iff.mp hidle g hmem)).2

end SnapshotStateMachine.Conforms

theorem CommittedLog.appsBelow_append {L : CommittedLog} {r pos : ℕ} (hash : ℕ) (hr : L.Edge r)
    (hpos : L.Edge pos) (hle : pos ≤ r) :
    ∃ gs, L.appsBelow hash r = L.appsBelow hash pos ++ gs ∧ ∀ g ∈ gs, pos ≤ g.ctx.position.toNat := by
  have happs : L.appsBelow hash pos ++ L.appsFrom hash pos = L.appsBelow hash r ++ L.appsFrom hash r := by
    rw [← apps_split pos hpos, ← apps_split r hr]
  obtain ⟨gs, hbelow, hfrom⟩ | ⟨gs, hbelow, hfrom⟩ := List.append_eq_append_iff.mp happs
  · refine ⟨gs, hbelow, fun g hg => ?_⟩
    have hmem : g ∈ L.appsFrom hash pos := hfrom ▸ List.mem_append_left _ hg
    obtain ⟨x, hx, hge, happ⟩ := mem_appsFrom.mp hmem
    rwa [position_toNat hx happ]
  · -- what lies below the lower edge does not start above the higher
    have hnil : gs = [] := by
      refine List.eq_nil_iff_forall_not_mem.mpr fun g hg => ?_
      obtain ⟨x, hx, hlt, happ⟩ := mem_appsBelow.mp (hbelow ▸ List.mem_append_right _ hg)
      obtain ⟨y, hy, hge, happ'⟩ := mem_appsFrom.mp (hfrom ▸ List.mem_append_left _ hg)
      have hxy : x.1 = y.1 := by rw [← position_toNat hx happ, position_toNat hy happ']
      omega
    rw [hnil, List.append_nil] at hbelow
    exact ⟨[], by rw [hbelow, List.append_nil], by simp⟩

namespace Service

variable {σ : Type}

/-! ## One incarnation -/

/-- The state after the frames that start below a position. -/
def stateAt (M : SnapshotStateMachine σ) (hash : ℕ) (L : CommittedLog) (s₀ : σ) (pos : ℕ) : σ :=
  M.run s₀ (L.appsBelow hash pos)

/-- The artifact of the state at its tag. -/
def Frozen (M : SnapshotStateMachine σ) (hash : ℕ) (L : CommittedLog) (s₀ : σ) (pos : ℕ) (img : Bytes) :
    Prop :=
  L.Edge pos ∧ ∃ p, M.freeze (stateAt M hash L s₀ pos) = .ok (img, p)

/-- A row whose state machine has the state at `r`, and whose artifacts are those of
    their tags. -/
structure Tracks (S : Service σ) (L : CommittedLog) (s₀ : σ) (w : Work σ) (r : ℕ) : Prop where
  edge : L.Edge r
  sm : w.sm = stateAt S.machine S.hash L s₀ r
  built : ∀ a ∈ w.built, Frozen S.machine S.hash L s₀ a.1 a.2

variable {S : Service σ} {L : CommittedLog} {s₀ : σ} {w : Work σ} {r pos : ℕ} {x : ℕ × LogFrame}

section Conforming

variable (hM : S.machine.Conforms) (hs₀ : S.machine.lastApplied s₀ = none)

include hM hs₀

theorem lastApplied_stateAt {q : UInt64} (hq : q ∈ S.machine.lastApplied (stateAt S.machine S.hash L s₀ r)) :
    q.toNat < r ∧ L.Edge q.toNat := by
  obtain ⟨g, hg, rfl⟩ := hM.lastApplied_run hs₀ hq
  obtain ⟨x, hx, hlt, happ⟩ := CommittedLog.mem_appsBelow.mp hg
  rw [position_toNat hx happ]
  exact ⟨hlt, Tiling.edge_of_mem hx⟩

/-- Where a machine resumes that has the state at `r`. -/
theorem resume_stateAt (r : ℕ) :
    ((S.machine.lastApplied (stateAt S.machine S.hash L s₀ r)).getD 0).toNat ≤ r ∧
      L.Edge ((S.machine.lastApplied (stateAt S.machine S.hash L s₀ r)).getD 0).toNat := by
  cases hq : S.machine.lastApplied (stateAt S.machine S.hash L s₀ r) with
  | none => exact ⟨Nat.zero_le _, Tiling.edge_base⟩
  | some q =>
    obtain ⟨hlt, hedge⟩ := lastApplied_stateAt hM hs₀ hq
    exact ⟨Nat.le_of_lt hlt, hedge⟩

theorem install_frozen {live : σ} {payload : Bytes} (h : Frozen S.machine S.hash L s₀ pos payload) :
    S.machine.installSnapshot live (.ofNat pos) payload =
      .ok (stateAt S.machine S.hash L s₀ pos, .ofNat pos) := by
  obtain ⟨hedge, p, hfreeze⟩ := h
  refine hM.install hfreeze fun q hq => ?_
  rw [UInt64.lt_iff_toNat_lt, UInt64.toNat_ofNat_of_lt' hedge.lt]
  exact (lastApplied_stateAt hM hs₀ hq).1

/-- Where nothing from `pos` on was applied, the state is still the one at `pos`. -/
theorem stateAt_eq (hr : L.Edge r) (hpos : L.Edge pos) (hle : pos ≤ r)
    (hlast : ∀ q ∈ S.machine.lastApplied (stateAt S.machine S.hash L s₀ r), q.toNat < pos) :
    stateAt S.machine S.hash L s₀ r = stateAt S.machine S.hash L s₀ pos := by
  obtain ⟨gs, hsplit, hgs⟩ := CommittedLog.appsBelow_append S.hash hr hpos hle
  rw [stateAt, hsplit] at hlast ⊢
  refine hM.run_of_above hs₀ (hsplit ▸ ordered_appsBelow hr) fun g hg => ?_
  rw [above, Option.all_eq_true]
  intro q hq
  have hge := hgs g hg
  have hlt := hlast q hq
  rw [decide_eq_true_eq, UInt64.lt_iff_toNat_lt]
  omega

omit hM hs₀ in
theorem Tracks.skip (h : Tracks S L s₀ w r) (hx : x ∈ L.placed) (hle : x.1 ≤ r)
    (happ : appFrame S.hash x = none) : Tracks S L s₀ w (max r (x.1 + x.2.span)) := by
  obtain ⟨-, hmax⟩ | ⟨rfl, hmax⟩ := below_or_next h.edge hx hle
  · rwa [hmax]
  · have hbelow : L.appsBelow S.hash (x.1 + x.2.span) = _ := appsBelow_concat hx
    rw [happ, Option.toList_none, List.append_nil] at hbelow
    rw [hmax]
    exact ⟨Tiling.edge_end_of_mem hx, by rw [h.sm, stateAt, stateAt, hbelow], h.built⟩

theorem Tracks.call (h : Tracks S L s₀ w r) (hx : x ∈ L.placed) (hle : x.1 ≤ r) {g : AppFrame}
    (happ : appFrame S.hash x = some g) : Tracks S L s₀ (S.deliver w g) (max r (x.1 + x.2.span)) := by
  have hpos := position_toNat hx happ
  obtain ⟨hend, hmax⟩ | ⟨rfl, hmax⟩ := below_or_next h.edge hx hle
  · rw [hmax, deliver]
    split
    · rename_i habove
      have hlt : x.1 < r := by
        have := x.2.span_pos
        omega
      have hsame := hM.step_of_above hs₀ (ordered_appsBelow h.edge)
        (CommittedLog.mem_appsBelow.mpr ⟨x, hx, hlt, happ⟩) (by rwa [h.sm] at habove)
      refine ⟨h.edge, ?_, h.built⟩
      rw [h.sm]
      exact hsame
    · exact h
  · have hbelow : L.appsBelow S.hash (x.1 + x.2.span) = _ := appsBelow_concat hx
    rw [happ, Option.toList_some] at hbelow
    have habove : S.machine.above w.sm g = true := by
      rw [above, Option.all_eq_true, h.sm]
      intro q hq
      have := (lastApplied_stateAt hM hs₀ hq).1
      rw [decide_eq_true_eq, UInt64.lt_iff_toNat_lt, hpos]
      exact this
    rw [deliver, if_pos habove, hmax]
    refine ⟨Tiling.edge_end_of_mem hx, ?_, h.built⟩
    rw [stateAt, hbelow, run_concat, h.sm]
    rfl

theorem Tracks.instant (h : Tracks S L s₀ w r) (hx : x ∈ L.placed) (hle : x.1 ≤ r)
    (hsnap : x.2.frameType = frameTypeSnapshot) (e : WalkEnv) :
    Tracks S L s₀ (S.onSnapshotFrame e w x) (max r (x.1 + x.2.span)) := by
  have happ : appFrame S.hash x = none := by
    rw [appFrame, hsnap]
    rfl
  have hskip := h.skip hx hle happ
  unfold onSnapshotFrame
  split
  · exact hskip
  split
  · exact hskip
  split
  · exact hskip
  split
  · exact hskip
  rename_i hlast
  split
  · exact hskip
  rename_i img p hfreeze
  split
  · refine ⟨hskip.edge, hskip.sm, ?_⟩
    intro a ha
    obtain ha | ha := List.mem_append.mp ha
    · exact h.built a ha
    rw [List.mem_singleton.mp ha]
    have hedge : L.Edge x.1 := Tiling.edge_of_mem hx
    refine ⟨Tiling.edge_end_of_mem hx, p, ?_⟩
    -- nothing was applied since the instant
    have hlt : ∀ q ∈ S.machine.lastApplied (stateAt S.machine S.hash L s₀ r), q.toNat < x.1 := by
      intro q hq
      rw [h.sm, Option.any_eq_true] at hlast
      by_contra hge
      refine hlast ⟨q, hq, ?_⟩
      rw [decide_eq_true_eq, UInt64.le_iff_toNat_le, UInt64.toNat_ofNat_of_lt' (start_lt hx)]
      exact Nat.not_lt.mp hge
    have hbelow : L.appsBelow S.hash (x.1 + x.2.span) = _ := appsBelow_concat hx
    rw [happ, Option.toList_none, List.append_nil] at hbelow
    rw [stateAt, hbelow, ← stateAt, ← stateAt_eq hM hs₀ h.edge hedge hle hlt, ← h.sm]
    exact hfreeze
  · exact hskip

theorem Tracks.install (h : Tracks S L s₀ w r) {payload : Bytes}
    (hlast : ∀ q ∈ S.machine.lastApplied w.sm, q.toNat < pos)
    (hgood : Frozen S.machine S.hash L s₀ pos payload)
    {sm : σ} {installed : UInt64}
    (hinstall : S.machine.installSnapshot w.sm (.ofNat pos) payload = .ok (sm, installed)) :
    installed = .ofNat pos ∧ L.Edge pos ∧
      Tracks S L s₀ { w with sm, events := w.events ++ [.install pos] } (max r pos) := by
  have hedge := hgood.1
  rw [install_frozen hM hs₀ hgood] at hinstall
  obtain ⟨rfl, rfl⟩ := Prod.mk.inj (Except.ok.inj hinstall)
  refine ⟨rfl, hedge, ?_⟩
  obtain hle | hle := Nat.le_total pos r
  · rw [Nat.max_eq_left hle]
    exact ⟨h.edge, (stateAt_eq hM hs₀ h.edge hedge hle (h.sm ▸ hlast)).symm, h.built⟩
  · rw [Nat.max_eq_right hle]
    exact ⟨hedge, rfl, h.built⟩

theorem tracks_keeps (T : Terms) :
    Keeps S L (fun pos _ => Frozen S.machine S.hash L s₀ pos) T (Tracks S L s₀) where
  edge h := h.edge
  last h _ hq := lastApplied_stateAt hM hs₀ (h.sm ▸ hq)
  skip h hx hle _ happ := h.skip hx hle happ
  record {e w r x} h hx hle hclu _ _ := by
    refine h.skip hx hle ?_
    rw [appFrame, hclu]
    rfl
  call h hx hle happ := h.call hM hs₀ hx hle happ
  instant {e _ _ _} h hx hle hsnap := h.instant hM hs₀ hx hle hsnap e
  install h hlast hgood _ hinstall := h.install hM hs₀ hlast hgood hinstall

end Conforming

/-! ## All incarnations -/

namespace Fleet

/-- A store gives what was built under the tag, and the state machine that starts has
    the state after a prefix of the log. -/
def Allowed (M : SnapshotStateMachine σ) (hash : ℕ) (L : CommittedLog) (s₀ : σ) (F : Fleet σ) :
    FleetStep σ → Prop
  | .attach _ S env sm₀ seen =>
    S.machine = M ∧ S.hash = hash ∧
      Attachable L (fun pos version img => (pos, version, img) ∈ F.pool) env seen ∧
      ∃ r, L.Edge r ∧ r ≤ seen.head ∧ sm₀ = stateAt M hash L s₀ r
  | .row node step =>
    ∀ i ∈ F.nodes node, Service.Allowed L (fun pos version img => (pos, version, img) ∈ F.pool)
      i.running.row i.running.seen step

/-- An incarnation is at a state of the log. -/
def OfLog (M : SnapshotStateMachine σ) (hash : ℕ) (L : CommittedLog) (s₀ : σ) (i : Incarnation σ) : Prop :=
  i.service.machine = M ∧ i.service.hash = hash ∧
    ∃ T r, T.looks = (fun _ => True) ∧ Stands i.service L T (Tracks i.service L s₀) i.running r

variable {M : SnapshotStateMachine σ} {hash : ℕ} {F : Fleet σ}

theorem ofLog_attach (hM : M.Conforms) (hs₀ : M.lastApplied s₀ = none)
    (hpool : ∀ a ∈ F.pool, Frozen M hash L s₀ a.1 a.2.2) {S : Service σ} {env : AttachEnv} {sm₀ : σ}
    {seen : Counters} {row : ServiceRow σ} (hmachine : S.machine = M) (hhash : S.hash = hash)
    (henv : Attachable L (fun pos version img => (pos, version, img) ∈ F.pool) env seen) {r₀ : ℕ}
    (hr₀ : L.Edge r₀) (hhead : r₀ ≤ seen.head) (hsm₀ : sm₀ = stateAt M hash L s₀ r₀)
    (hattach : S.attach env sm₀ = .ok row) : OfLog M hash L s₀ ⟨S, ⟨row, seen⟩⟩ := by
  subst hmachine hhash
  refine ⟨rfl, rfl, anyLook row, ?_⟩
  have hrow := attach_ok hattach
  have hstands : ∀ r, L.Edge r → row.sm = stateAt S.machine S.hash L s₀ r → row.cursor ≤ r →
      L.Edge row.cursor → r ≤ seen.head →
      (anyLook row).looks = (fun _ => True) ∧ Stands S L (anyLook row) (Tracks S L s₀) ⟨row, seen⟩ r := by
    intro r hedge hsm hle hcursor hhead
    refine ⟨rfl, ⟨hedge, hsm, ?_⟩, ⟨rfl, rfl⟩, ⟨hle, hcursor⟩, by rwa [hrow.applied],
      fun _ => hrow.applied, hhead, ?_, by simp [hrow.idle.2]⟩
    · rw [hrow.built]
      simp
    · rw [hrow.idle.1]
      simp
  obtain ⟨hsm, hcursor⟩ | ⟨hle, version, payload, hgood, hinstall⟩ := hrow.restored_or_kept henv
  · have hresume := resume_stateAt (S := S) (L := L) hM hs₀ r₀
    rw [← hsm₀, ← hcursor] at hresume
    exact ⟨r₀, hstands r₀ hr₀ (hsm.trans hsm₀) hresume.1 hresume.2 hhead⟩
  · have hfrozen := hpool _ hgood
    rw [install_frozen hM hs₀ hfrozen] at hinstall
    obtain ⟨hsm, -⟩ := Prod.mk.inj (Except.ok.inj hinstall)
    exact ⟨row.cursor, hstands _ hfrozen.1 hsm.symm le_rfl hfrozen.1 hle⟩

theorem ofLog_exec (hM : M.Conforms) (hs₀ : M.lastApplied s₀ = none)
    (hpool : ∀ a ∈ F.pool, Frozen M hash L s₀ a.1 a.2.2)
    (hnodes : ∀ node, ∀ i ∈ F.nodes node, OfLog M hash L s₀ i) {step : FleetStep σ}
    (hallowed : F.Allowed M hash L s₀ step) (hsteady : F.Steady step) :
    (∀ a ∈ (F.exec step).pool, Frozen M hash L s₀ a.1 a.2.2) ∧
      ∀ node, ∀ i ∈ (F.exec step).nodes node, OfLog M hash L s₀ i := by
  refine exec_keeps (A := fun pos _ img => Frozen M hash L s₀ pos img) hpool hnodes ?_ ?_
  · rintro node S env sm₀ seen row rfl hattach
    obtain ⟨hmachine, hhash, henv, r₀, hr₀, hhead, hsm₀⟩ := hallowed
    exact ofLog_attach hM hs₀ hpool hmachine hhash henv hr₀ hhead hsm₀ hattach
  · rintro node s i rfl hi ⟨rfl, rfl, T, r, hwatch, hs⟩
    have hgood := Service.Allowed.mono (hallowed i hi) fun pos version img himg => hpool _ himg
    obtain ⟨r', -, hs', -⟩ := (tracks_keeps hM hs₀ T).exec hs hgood (hsteady i hi)
      (hwatch ▸ watches_true s)
    exact ⟨⟨rfl, rfl, T, r', hwatch, hs'⟩, hs'.inv.built⟩

/-- Artifacts are functions of the log: in every run of the incarnations of a row whose
    passes find a journal that joins up, an artifact is the state after the frames that
    start below its tag, which has applied nothing from the tag on; and two artifacts of
    one tag are equal. -/
theorem artifacts_of_log (hM : M.Conforms) (hs₀ : M.lastApplied s₀ = none) {steps : List (FleetStep σ)}
    (hrun : Trace.Admits Fleet.exec (fun F step => F.Allowed M hash L s₀ step ∧ F.Steady step)
      Fleet.empty steps) :
    (∀ pos version img, (pos, version, img) ∈ (steps.foldl Fleet.exec Fleet.empty).pool →
      (∃ p, M.freeze (M.run s₀ (L.appsBelow hash pos)) = .ok (img, p)) ∧
        ∀ q ∈ M.lastApplied (M.run s₀ (L.appsBelow hash pos)), q.toNat < pos) ∧
    ∀ pos version version' img img', (pos, version, img) ∈ (steps.foldl Fleet.exec Fleet.empty).pool →
      (pos, version', img') ∈ (steps.foldl Fleet.exec Fleet.empty).pool → img = img' := by
  have hinv : (∀ a ∈ (steps.foldl Fleet.exec Fleet.empty).pool, Frozen M hash L s₀ a.1 a.2.2) ∧
      ∀ node, ∀ i ∈ (steps.foldl Fleet.exec Fleet.empty).nodes node, OfLog M hash L s₀ i := by
    refine hrun.rule (P := fun steps =>
      (∀ a ∈ (steps.foldl Fleet.exec Fleet.empty).pool, Frozen M hash L s₀ a.1 a.2.2) ∧
        ∀ node, ∀ i ∈ (steps.foldl Fleet.exec Fleet.empty).nodes node, OfLog M hash L s₀ i) ?_ ?_
    · exact ⟨by simp [empty], by simp [empty]⟩
    · rintro steps step ⟨hpool, hnodes⟩ hstep
      rw [List.foldl_append, List.foldl_cons, List.foldl_nil]
      exact ofLog_exec hM hs₀ hpool hnodes hstep.1 hstep.2
  refine ⟨fun pos version img himg => ?_, fun pos version version' img img' himg himg' => ?_⟩
  · obtain ⟨-, hfreeze⟩ := hinv.1 _ himg
    refine ⟨hfreeze, fun q hq => ?_⟩
    obtain ⟨g, hg, rfl⟩ := hM.lastApplied_run hs₀ hq
    obtain ⟨x, hx, hlt, happ⟩ := CommittedLog.mem_appsBelow.mp hg
    rwa [CommittedLog.position_toNat hx happ]
  · obtain ⟨-, p, hfreeze⟩ := hinv.1 _ himg
    obtain ⟨-, p', hfreeze'⟩ := hinv.1 _ himg'
    rw [hfreeze] at hfreeze'
    exact (Prod.mk.inj (Except.ok.inj hfreeze')).1

/-! ## A purge under a pass -/

/-- A row that builds, of a machine that remembers only the last message. -/
def builder : Service (Option UInt64) := ⟨SnapshotStateMachine.cursorMachine fun _ => [], 0, 0, 0, true, false⟩

/-- Two messages and an instant. -/
def instantLog : CommittedLog :=
  ⟨[emptyMessage, emptyMessage, { emptyMessage with frameType := frameTypeSnapshot }], by decide⟩

/-- The journal of `instantLog`, in three segments. -/
def instantScan (middle : Option (List Block)) : JournalScan :=
  ⟨[some 0, some 32, some 64],
    [some [⟨0, [emptyMessage]⟩], middle,
      some [⟨64, [{ emptyMessage with frameType := frameTypeSnapshot }]⟩]]⟩

def instantPass (middle : Option (List Block)) : PassEnv :=
  { segmentPass middle with
    scan₁ := .ok (instantScan middle), scan₂ := .ok (instantScan middle), sent := fun _ => true }

def instantTurn (middle : Option (List Block)) : TurnEnv where
  floors := [0]
  read := .overrun
  looks _ := []
  busy _ := false
  sent _ := true
  pass := instantPass middle

/-- A start, and a cycle that finds the ring lapped. -/
def instantSteps (middle : Option (List Block)) : List (FleetStep (Option UInt64)) :=
  [.attach 0 builder laggardStart none ⟨0, 0⟩,
    .row 0 (.begin_ (some true) (some true) ⟨96, 96⟩ false), .row 0 (.turn (instantTurn middle))]

theorem instant_allowed {middle : Option (List Block)}
    (h : ∀ b ∈ middle.getD [], ∀ x ∈ b.placed, x ∈ instantLog.placed) :
    Trace.Admits Fleet.exec (fun F step => F.Allowed builder.machine 0 instantLog none step) Fleet.empty
      (instantSteps middle) := by
  refine ⟨⟨rfl, rfl, ⟨le_refl _, le_rfl, ?_, ?_⟩, 0, Tiling.edge_base, le_rfl, rfl⟩, ?_, ?_,
    trivial⟩
  · intro _ _ _ _ _ hpin
    cases hpin
  · intro _ _ hopen
    cases hopen
  · rintro i ⟨⟩
    exact ⟨Nat.zero_le _, Nat.zero_le _⟩
  · rintro i ⟨⟩
    refine ⟨le_refl _, le_refl _, le_refl _, ?_, ?_⟩
    · intro v hv b hb x hx _
      obtain rfl := Except.ok.inj hv
      have hfirst : ∀ x ∈ (⟨0, [emptyMessage]⟩ : Block).placed, x ∈ instantLog.placed := by decide
      have hlast : ∀ x ∈ (⟨64, [{ emptyMessage with frameType := frameTypeSnapshot }]⟩ : Block).placed,
          x ∈ instantLog.placed := by decide
      simp only [instantScan, JournalScan.found, List.flatMap_cons, Option.getD_some, List.flatMap_nil,
        List.append_nil, List.mem_append, List.mem_singleton] at hb
      obtain rfl | hb | rfl := hb
      · exact hfirst x hx
      · exact h b hb x hx
      · exact hlast x hx
    · intro _ _ hopen
      cases hopen

theorem artifact_of_purged :
    builder.machine.Conforms ∧ builder.machine.lastApplied none = none ∧
    Trace.Admits Fleet.exec (fun F step => F.Allowed builder.machine 0 instantLog none step) Fleet.empty
      (instantSteps none) ∧
    ∃ img, (96, 0, img) ∈ ((instantSteps none).foldl Fleet.exec Fleet.empty).pool ∧
      ¬ ∃ p, builder.machine.freeze (builder.machine.run none (instantLog.appsBelow 0 96)) = .ok (img, p) := by
  refine ⟨SnapshotStateMachine.cursorMachine_conforms _ _, rfl, instant_allowed (by simp), Bytes.le 8 0,
    ?_, ?_⟩
  · decide +kernel
  · rintro ⟨p, hp⟩
    have himg : (builder.machine.freeze (builder.machine.run none (instantLog.appsBelow 0 96))).toOption.map
        Prod.fst = some (Bytes.le 8 32) := by decide +kernel
    rw [hp] at himg
    have heq : Bytes.le 8 0 = Bytes.le 8 32 := Option.some.inj himg
    exact absurd heq (by decide)

theorem instant_steady (resume : ℕ) : (instantPass (some [middleBlock])).Steady resume := by
  intro v heads hv hheads
  obtain rfl := Except.ok.inj hv
  obtain rfl := Except.ok.inj hheads
  refine ⟨?_, by decide, ?_⟩
  · refine List.isChain_cons_cons.mpr ⟨.inl (by decide), List.isChain_cons_cons.mpr ⟨.inl (by decide), ?_⟩⟩
    exact .singleton _
  · intro i h hi
    match i with
    | 0 | 1 | 2 =>
      obtain rfl := Option.some.inj (Option.some.inj hi)
      exact ⟨_, _, rfl, le_rfl⟩

theorem artifact_of_two_messages :
    (96, 0, Bytes.le 8 32) ∈ ((instantSteps (some [middleBlock])).foldl Fleet.exec Fleet.empty).pool ∧
      ∃ p, builder.machine.freeze (builder.machine.run none (instantLog.appsBelow 0 96)) =
        .ok (Bytes.le 8 32, p) := by
  have hmem : ((96, 0, Bytes.le 8 32) : ℕ × ℕ × Bytes) ∈
      ((instantSteps (some [middleBlock])).foldl Fleet.exec Fleet.empty).pool := by decide +kernel
  have hsteady : ∀ step ∈ instantSteps (some [middleBlock]), ∀ F : Fleet (Option UInt64), F.Steady step := by
    intro step hstep F
    simp only [instantSteps, List.mem_cons, List.not_mem_nil, or_false] at hstep
    obtain rfl | rfl | rfl := hstep
    · trivial
    · exact fun _ _ => trivial
    · exact fun _ _ _ => instant_steady _
  have hmiddle : ∀ b ∈ (some [middleBlock]).getD [], ∀ x ∈ b.placed, x ∈ instantLog.placed := by decide
  have hrun := Trace.Admits.and (instant_allowed hmiddle) hsteady
  exact ⟨hmem, ((artifacts_of_log (SnapshotStateMachine.cursorMachine_conforms _ _) rfl hrun).1 _ _ _ hmem).1⟩

end Fleet

end Service

end UltimaCluster
