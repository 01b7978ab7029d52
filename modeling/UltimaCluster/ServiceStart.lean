/-
  Where an incarnation of a service starts: what `attach` answers, as one case for
  each way in.
-/
import UltimaCluster.ServiceReach

namespace UltimaCluster

open VersionGate

namespace Service

variable {σ : Type} {S : Service σ}

/-- An artifact of the store at `pos`, installed over `sm₀`. -/
def Restored (S : Service σ) (open_ : ℕ → Option Bytes) (version pos : ℕ) (sm₀ sm : σ) : Prop :=
  ∃ file payload, open_ pos = some file ∧ verifySnapshotEnvelope file pos (some version) = .ok payload ∧
    S.machine.installSnapshot sm₀ (.ofNat pos) payload = .ok (sm, .ofNat pos) ∧
    ∀ q ∈ S.machine.lastApplied sm, q < UInt64.ofNat pos

/-- Where an incarnation starts: with the state machine as it is, with the start set, or
    with the artifact of the pinned origin. -/
inductive Start (S : Service σ) (env : AttachEnv) (sm₀ : σ) (row : ServiceRow σ) : Prop where
  | kept (hsm : row.sm = sm₀) (hcursor : row.cursor = ((S.machine.lastApplied sm₀).getD 0).toNat)
    (hpin : row.pin = none ∨ startSetPermitted row.pin env.view row.attachRecordPos env.startSet ∧
      ∃ built, ∃ pos ≤ row.cursor, env.startSet = some (pos, built) ∧ sameLine built S.version)
  | set (built : ℕ) (hset : env.startSet = some (row.cursor, built))
    (hpermitted : startSetPermitted row.pin env.view row.attachRecordPos env.startSet)
    (hhead : row.cursor ≤ env.frontier.head)
    (hrestored : Restored S env.open_ S.version row.cursor sm₀ row.sm)
  | pinned (from_ to_ : ℕ) (hpin : row.pin = some (row.cursor, from_, to_))
    (hrestored : Restored S env.open_ from_ row.cursor sm₀ row.sm)

/-- What `attach` gives. -/
structure Attached (S : Service σ) (env : AttachEnv) (sm₀ : σ) (row : ServiceRow σ) : Prop where
  events : row.events = []
  built : row.built = []
  applied : row.applied = row.cursor
  idle : row.cycle = none ∧ row.failed = none
  view : ∃ running, env.view = .view row.pin running row.attachRecordPos ∧
    S.attachGate row.pin running = .ok ()
  durable : row.cursor ≤ env.durable
  start : Start S env sm₀ row

variable {row : ServiceRow σ}

theorem published_attached {env : AttachEnv} {pin : Option (ℕ × ℕ × ℕ)} {running : Option ℕ}
    {recordPos : ℕ} {sm₀ sm : σ} {startPos : Option ℕ}
    (hview : env.view = .view pin running recordPos) (hgate : S.attachGate pin running = .ok ())
    (h : S.published env pin recordPos sm startPos = .ok row)
    (hstart : row.sm = sm → row.pin = pin → row.attachRecordPos = recordPos →
      row.cursor = startPos.getD ((S.machine.lastApplied sm).getD 0).toNat → Start S env sm₀ row) :
    Attached S env sm₀ row := by
  unfold published at h
  dsimp only at h
  split at h
  · cases h
  split at h
  · cases h
  rename_i hle
  obtain rfl := Except.ok.inj h
  exact ⟨rfl, rfl, rfl, ⟨rfl, rfl⟩, ⟨running, hview, hgate⟩, Nat.not_lt.mp hle, hstart rfl rfl rfl rfl⟩

theorem restored_of_landed {open_ : ℕ → Option Bytes} {version pos : ℕ} {sm₀ sm : σ} {file payload : Bytes}
    {installed : UInt64} (hopen : open_ pos = some file)
    (hverify : verifySnapshotEnvelope file pos (some version) = .ok payload)
    (hinstall : S.machine.installSnapshot sm₀ (.ofNat pos) payload = .ok (sm, installed))
    (hlanded : installLanded pos installed (S.machine.lastApplied sm)) :
    Restored S open_ version pos sm₀ sm := by
  rw [installLanded, Bool.and_eq_true, beq_iff_eq, Option.all_eq_true] at hlanded
  obtain ⟨rfl, hlast⟩ := hlanded
  exact ⟨file, payload, hopen, hverify, hinstall, fun q hq => of_decide_eq_true (hlast q hq)⟩

theorem pinnedInstall_ok {env : AttachEnv} {origin from_ : ℕ} {sm₀ sm : σ}
    (h : S.pinnedInstall env origin from_ sm₀ = .ok sm) :
    Restored S env.open_ from_ origin sm₀ sm := by
  unfold pinnedInstall at h
  split at h
  · cases h
  split at h
  · cases h
  rename_i file hopen
  split at h
  · cases h
  rename_i payload hverify
  split at h
  · cases h
  rename_i sm₁ installed hinstall
  split at h
  · rename_i hlanded
    obtain rfl := Except.ok.inj h
    exact restored_of_landed hopen hverify hinstall hlanded
  · cases h

theorem attachStartSet_ok {env : AttachEnv} {pin : Option (ℕ × ℕ × ℕ)} {recordPos : ℕ} {sm₀ sm : σ}
    {setAt : Option ℕ} {pastIt : Bool}
    (h : S.attachStartSet env pin recordPos sm₀ = .ok (setAt, sm, pastIt)) :
    (setAt = none ∧ sm = sm₀ ∧ (pastIt → startSetPermitted pin env.view recordPos env.startSet ∧
        ∃ built, ∃ pos ≤ ((S.machine.lastApplied sm₀).getD 0).toNat, env.startSet = some (pos, built) ∧
          sameLine built S.version)) ∨
      ∃ pos built, setAt = some pos ∧ env.startSet = some (pos, built) ∧
        startSetPermitted pin env.view recordPos env.startSet ∧ pos ≤ env.frontier.head ∧
        Restored S env.open_ S.version pos sm₀ sm := by
  unfold attachStartSet at h
  split at h
  · rename_i hpermitted
    have hpermitted := (Bool.and_eq_true _ _ ▸ hpermitted).2
    dsimp only at h
    split at h
    · cases h
    · obtain ⟨rfl, rfl, rfl⟩ : none = setAt ∧ sm₀ = sm ∧ _ = pastIt := by simpa using h
      refine .inl ⟨rfl, rfl, fun hpast => ⟨hpermitted, ?_⟩⟩
      obtain ⟨⟨pos, built⟩, hset, hs⟩ := Option.any_eq_true .. |>.mp hpast
      rw [Bool.and_eq_true, decide_eq_true_eq] at hs
      exact ⟨built, pos, hs.1, hset, hs.2⟩
    · rename_i pos sm₁ hset
      obtain ⟨rfl, rfl, -⟩ : some pos = setAt ∧ sm₁ = sm ∧ _ := by simpa using h
      obtain ⟨-, hhead, ⟨built, hs⟩, file, payload, installed, hopen, hverify, hinstall, hlanded⟩ :=
        installStartSet_some hset
      exact .inr ⟨pos, built, rfl, hs, hpermitted, hhead,
        restored_of_landed hopen hverify hinstall hlanded⟩
  · obtain ⟨rfl, rfl, rfl⟩ : none = setAt ∧ sm₀ = sm ∧ false = pastIt := by simpa using h
    exact .inl ⟨rfl, rfl, by simp⟩

theorem attach_ok {env : AttachEnv} {sm₀ : σ} (h : S.attach env sm₀ = .ok row) :
    Attached S env sm₀ row := by
  unfold attach at h
  split at h
  · cases h
  rename_i pin running recordPos hview
  cases hgate : S.attachGate pin running with
  | error err =>
    rw [hgate] at h
    cases h
  | ok =>
    rw [hgate] at h
    dsimp only [bind, Except.bind] at h
    split at h
    · cases h
    cases hset : S.attachStartSet env pin recordPos sm₀ with
    | error err =>
      rw [hset] at h
      cases h
    | ok res =>
      obtain ⟨setAt, sm, pastIt⟩ := res
      rw [hset] at h
      obtain ⟨rfl, rfl, hpast⟩ | ⟨pos, built, rfl, hs, hpermitted, hhead, hrestored⟩ :=
        attachStartSet_ok hset
      · cases pin with
        | none =>
          refine published_attached hview hgate h fun hsm hpin _ hcursor => ?_
          exact .kept hsm hcursor (.inl hpin)
        | some p =>
          obtain ⟨origin, from_, to_⟩ := p
          dsimp only at h
          split at h
          · rename_i hp
            refine published_attached hview hgate h fun hsm hpin hrecord hcursor => ?_
            refine .kept hsm hcursor (.inr ?_)
            rw [hpin, hrecord, hcursor]
            exact hpast hp
          · cases hinstall : S.pinnedInstall env origin from_ sm with
            | error err =>
              rw [hinstall] at h
              cases h
            | ok sm₁ =>
              rw [hinstall] at h
              refine published_attached hview hgate h fun hsm hpin _ hcursor => ?_
              obtain rfl : row.cursor = origin := hcursor
              exact .pinned from_ to_ hpin (hsm ▸ pinnedInstall_ok hinstall)
      · refine published_attached hview hgate h fun hsm hpin hrecord hcursor => ?_
        obtain rfl : row.cursor = pos := hcursor
        exact .set built hs (by rwa [hpin, hrecord]) hhead (hsm ▸ hrestored)

/-- What an incarnation finds: the artifacts of the store are good ones, and a pin is
    committed. -/
structure Attachable (L : CommittedLog) (Good : ℕ → ℕ → Bytes → Prop) (env : AttachEnv) (seen : Counters) :
    Prop where
  frontier : env.frontier ≤ seen
  durable : env.durable ≤ seen.durable
  pin : ∀ origin from_ to_ running recordPos,
    env.view = .view (some (origin, from_, to_)) running recordPos → origin ≤ seen.commit
  store : ∀ pos file, env.open_ pos = some file →
    ∀ tag, decodeSnapshotEnvelope (file.take snapshotEnvelopeLen) = .ok tag → tag.position = pos →
      Good pos tag.version (file.drop snapshotEnvelopeLen)

variable {L : CommittedLog} {Good : ℕ → ℕ → Bytes → Prop} {env : AttachEnv} {seen : Counters} {sm₀ sm : σ}

theorem Attachable.restored (henv : Attachable L Good env seen) {version pos : ℕ}
    (h : Restored S env.open_ version pos sm₀ sm) :
    ∃ built payload, Good pos built payload ∧ sameLine built version ∧
      S.machine.installSnapshot sm₀ (.ofNat pos) payload = .ok (sm, .ofNat pos) := by
  obtain ⟨file, payload, hopen, hverify, hinstall, -⟩ := h
  obtain ⟨tag, hdecode, htag, hline, rfl⟩ := verifySnapshotEnvelope_ok hverify
  exact ⟨_, _, henv.store pos file hopen tag hdecode htag, hline version rfl, hinstall⟩

theorem Attached.restored_or_kept (h : Attached S env sm₀ row) (henv : Attachable L Good env seen) :
    (row.sm = sm₀ ∧ row.cursor = ((S.machine.lastApplied sm₀).getD 0).toNat) ∨
      (row.cursor ≤ seen.head ∧ ∃ built payload, Good row.cursor built payload ∧
        S.machine.installSnapshot sm₀ (.ofNat row.cursor) payload = .ok (row.sm, .ofNat row.cursor)) := by
  cases h.start with
  | kept hsm hcursor _ => exact .inl ⟨hsm, hcursor⟩
  | set built _ _ hhead hres =>
    obtain ⟨u, payload, hgood, -, hinstall⟩ := henv.restored hres
    exact .inr ⟨Nat.le_trans hhead (Counters.head_mono henv.frontier), u, payload, hgood, hinstall⟩
  | pinned from_ to_ hpin hres =>
    obtain ⟨running, hview, -⟩ := h.view
    rw [hpin] at hview
    obtain ⟨u, payload, hgood, -, hinstall⟩ := henv.restored hres
    exact .inr ⟨le_min (henv.pin _ _ _ _ _ hview) (Nat.le_trans h.durable henv.durable), u, payload, hgood,
      hinstall⟩

end Service

end UltimaCluster
