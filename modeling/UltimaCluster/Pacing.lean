/-
  The bound that paces a node's reports on its services (`uc_node/src/services.rs`).

  A node reports no more than `fsm_lag` past its slowest service, and the services pace
  on the page word of the same setting.  The log is laid out by leaders with buffers of
  any size, and a follower may cut what a deposed leader wrote.  A node's file names no
  bound of its own, so its default is a quarter of the buffer.
-/
import UltimaCluster.LagBarrier
import UltimaCluster.LogAppender

namespace UltimaCluster

/-- One frame at the payload ceiling. -/
def oneFrame (maxPayload : ℕ) : ℕ := alignFrameLen (headerLen + maxPayload)

/-- The setting within its limits. -/
def clampLag (setting bufferBytes maxPayload : ℕ) : ℕ :=
  min (max setting (oneFrame maxPayload)) (max bufferBytes 2 / 2 - 1)

/-- The bound on the reports. -/
def fsmLagFromSetting (setting bufferBytes maxPayload : ℕ) : Option ℕ :=
  if setting = fsmLagLockstep then some (oneFrame maxPayload)
  else if setting = 0 then some (bufferBytes / 4)
  else some (clampLag setting bufferBytes maxPayload)

/-- The word of the page. -/
def pageLagFromSetting (setting bufferBytes maxPayload : ℕ) : ℕ :=
  if setting = fsmLagLockstep then 0
  else if setting = 0 then bufferBytes / 4
  else clampLag setting bufferBytes maxPayload

/-- How far a service may lag. -/
inductive FsmLag where
  | lockstep
  | bounded (b : ℕ)
deriving DecidableEq

/-- The declared services. -/
structure ServicesConfig where
  declared : List ℕ
  fsmLag : Option FsmLag
deriving DecidableEq

namespace ServicesConfig

def resolveLag (services : ServicesConfig) (bufferBytes : ℕ) : FsmLag :=
  services.fsmLag.getD (.bounded (bufferBytes / 4))

def pageLagValue (services : ServicesConfig) (bufferBytes : ℕ) : ℕ :=
  match services.resolveLag bufferBytes with
  | .lockstep => 0
  | .bounded b => b

def fsmLagEff (services : ServicesConfig) (bufferBytes maxPayload : ℕ) : Option ℕ :=
  if services.declared = [] then none
  else
    match services.resolveLag bufferBytes with
    | .lockstep => some (oneFrame maxPayload)
    | .bounded b => some b

end ServicesConfig

/-- The bound of a node and the word on its page. -/
structure LagDoor where
  fsmLagEff : Option ℕ
  fsmLagBytes : ℕ
deriving DecidableEq

namespace LagDoor

variable (services : ServicesConfig) (bufferBytes ceiling : ℕ)

def boot : LagDoor := ⟨services.fsmLagEff bufferBytes ceiling, services.pageLagValue bufferBytes⟩

/-- A settings record is committed: the page is written when the bound moves. -/
def adopt (door : LagDoor) (setting : ℕ) : LagDoor :=
  if door.fsmLagEff.isSome then
    let next : LagDoor :=
      if setting = 0 then boot services bufferBytes ceiling
      else ⟨fsmLagFromSetting setting bufferBytes ceiling, pageLagFromSetting setting bufferBytes ceiling⟩
    if next.fsmLagEff ≠ door.fsmLagEff then next else door
  else door

end LagDoor

/-- Where a log ends. -/
def laidEnd : List (ℕ × Laid) → ℕ := fun log => log.getLast?.elim 0 fun x => x.1 + x.2.span

/-- What an append lays out at `pos`. -/
def laidAt (b : LogBuffer) (pos : ℕ) (f : LogFrame) : List (ℕ × Laid) :=
  let pad := LogRing.padLen b pos f
  (if 0 < pad then
    [(pos, ⟨pad, ⟨frameTypePadding, 0, f.termId, 0, 0, f.timeNs, []⟩⟩)] else []) ++
    [(pos + pad, ⟨f.total, f⟩)]

/-- Logs with payloads up to the ceiling. -/
inductive LaidLog (ceiling : ℕ) : List (ℕ × Laid) → Prop where
  | nil : LaidLog ceiling []
  | append {log : List (ℕ × Laid)} (b : LogBuffer) (f : LogFrame) : LaidLog ceiling log →
    f.body.length ≤ ceiling → LaidLog ceiling (log ++ laidAt b (laidEnd log) f)
  | cut {log pre : List (ℕ × Laid)} : LaidLog ceiling log → pre <+: log → LaidLog ceiling pre

/-- Entries lie one behind the other, at aligned positions, and none is longer than a frame
    at the ceiling. -/
structure LaidOut (ceiling : ℕ) (log : List (ℕ × Laid)) : Prop where
  chained : log.Pairwise fun x y => x.1 + x.2.span ≤ y.1
  entry : ∀ x ∈ log, frameAlignment ∣ x.1 ∧ x.2.span ≤ oneFrame ceiling

variable {ceiling pos : ℕ} {log : List (ℕ × Laid)} {b : LogBuffer} {f : LogFrame}

theorem LaidOut.end_le (h : LaidOut ceiling log) {x : ℕ × Laid} (hx : x ∈ log) :
    x.1 + x.2.span ≤ laidEnd log := by
  induction log using List.reverseRecOn with
  | nil => cases hx
  | append_singleton log y _ =>
    simp only [laidEnd, List.getLast?_append, List.getLast?_singleton, Option.some_or, Option.elim_some]
    rcases List.mem_snoc.mp hx with hx | rfl
    · have := (List.pairwise_append.mp h.chained).2.2 x hx y (List.mem_singleton_self y)
      omega
    · rfl

/-- The node's bound is that of the word on its page, and a frame at the ceiling fits. -/
structure LagDoor.Ok (declared : List ℕ) (ceiling : ℕ) (door : LagDoor) : Prop where
  page : match (LagPage.mk declared door.fsmLagBytes).mode with
    | .off => door.fsmLagEff = none
    | .lockstep => door.fsmLagEff = some (oneFrame ceiling)
    | .bounded lag => door.fsmLagEff = some lag
  fits : ∀ lag ∈ door.fsmLagEff, oneFrame ceiling ≤ lag

variable {declared : List ℕ} {door : LagDoor}

theorem LagDoor.ok_of_le (hd : declared ≠ []) {lag page : ℕ} (hfits : oneFrame ceiling ≤ lag)
    (hpage : page = lag ∨ page = 0 ∧ lag = oneFrame ceiling) : Ok declared ceiling ⟨some lag, page⟩ := by
  have hpos : 0 < oneFrame ceiling := by
    unfold oneFrame alignFrameLen headerLen frameAlignment
    omega
  refine ⟨?_, by simpa using hfits⟩
  rcases hpage with rfl | ⟨rfl, rfl⟩
  · simp [LagPage.mode, hd, (hpos.trans_le hfits).ne']
  · simp [LagPage.mode, hd]

theorem oneFrame_le_capacity (hceil : ceiling ≤ b.maxPayload) : 8 * oneFrame ceiling ≤ b.capacity := by
  have hroom := b.room
  have hframe : oneFrame ceiling ≤ alignFrameLen (headerLen + b.maxPayload) :=
    alignFrameLen_mono (Nat.add_le_add_left hceil _)
  omega

theorem LagDoor.ok_of_setting (hceil : ceiling ≤ b.maxPayload) (hd : declared ≠ []) (setting : ℕ) :
    Ok declared ceiling
      ⟨fsmLagFromSetting setting b.capacity ceiling, pageLagFromSetting setting b.capacity ceiling⟩ := by
  have hroom := oneFrame_le_capacity hceil
  have hpos : 0 < oneFrame ceiling := by
    unfold oneFrame alignFrameLen headerLen frameAlignment
    omega
  unfold fsmLagFromSetting pageLagFromSetting clampLag
  split
  · exact ok_of_le hd le_rfl (.inr ⟨rfl, rfl⟩)
  · split
    · exact ok_of_le hd (by omega) (.inl rfl)
    · exact ok_of_le hd (by omega) (.inl rfl)

theorem LagDoor.ok_boot (hceil : ceiling ≤ b.maxPayload) :
    Ok declared ceiling (boot ⟨declared, none⟩ b.capacity ceiling) := by
  have hroom := oneFrame_le_capacity hceil
  by_cases hd : declared = []
  · subst hd
    exact ⟨rfl, nofun⟩
  · simp only [boot, ServicesConfig.fsmLagEff, ServicesConfig.pageLagValue, ServicesConfig.resolveLag,
      Option.getD_none, if_neg hd]
    exact ok_of_le hd (by omega) (.inl rfl)

theorem LagDoor.Ok.adopt (h : door.Ok declared ceiling) (hceil : ceiling ≤ b.maxPayload) (setting : ℕ) :
    (door.adopt ⟨declared, none⟩ b.capacity ceiling setting).Ok declared ceiling := by
  unfold LagDoor.adopt
  split
  · rename_i hsome
    have hd : declared ≠ [] := by
      rintro rfl
      rw [show door.fsmLagEff = none from h.page] at hsome
      cases hsome
    have hnext : LagDoor.Ok declared ceiling
        (if setting = 0 then boot ⟨declared, none⟩ b.capacity ceiling
          else ⟨fsmLagFromSetting setting b.capacity ceiling,
            pageLagFromSetting setting b.capacity ceiling⟩) := by
      split
      · exact ok_boot hceil
      · exact ok_of_setting hceil hd setting
    dsimp only
    split_ifs at hnext ⊢ <;> first | exact hnext | exact h
  · exact h

theorem LagDoor.Ok.run (h : door.Ok declared ceiling) (hceil : ceiling ≤ b.maxPayload) (settings : List ℕ) :
    (settings.foldl (LagDoor.adopt ⟨declared, none⟩ b.capacity ceiling) door).Ok declared ceiling := by
  induction settings generalizing door with
  | nil => exact h
  | cons setting settings ih => exact ih (h.adopt hceil setting)

theorem LaidLog.foldl (b : LogBuffer) {fs : List LogFrame} (hfs : ∀ f ∈ fs, f.body.length ≤ ceiling)
    (h : LaidLog ceiling log) :
    LaidLog ceiling (fs.foldl (fun log f => log ++ laidAt b (laidEnd log) f) log) := by
  induction fs generalizing log with
  | nil => exact h
  | cons f fs ih =>
    obtain ⟨hf, hfs⟩ := List.forall_mem_cons.mp hfs
    exact ih hfs (h.append b f hf)

end UltimaCluster
