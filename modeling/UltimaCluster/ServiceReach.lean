/-
  How far a row has come along the log.

  A row has reached `r` if what starts below `r` is in its state machine, by calls
  or by an artifact.  `Keeps` says of a property of a row and its reach what has
  to be shown of one frame and one install; everything that the apply loop and the
  replay do then keeps it (`Keeps.exec`, `Keeps.run`), as long as the blocks that a
  replay finds join up (`Steady`).
-/
import UltimaCluster.ServiceApply

namespace UltimaCluster

open VersionGate

instance : Preorder Counters where
  le c c' := c.commit ≤ c'.commit ∧ c.durable ≤ c'.durable
  le_refl c := ⟨le_rfl, le_rfl⟩
  le_trans _ _ _ h h' := ⟨Nat.le_trans h.1 h'.1, Nat.le_trans h.2 h'.2⟩

instance (c c' : Counters) : Decidable (c ≤ c') :=
  inferInstanceAs (Decidable (c.commit ≤ c'.commit ∧ c.durable ≤ c'.durable))

theorem Counters.head_mono {c c' : Counters} (h : c ≤ c') : c.head ≤ c'.head :=
  min_le_min h.1 h.2

/-! ## The environment -/

/-- A frame is the log's, if it ends at or below the target, or the log's own at
    its place does. -/
def CommittedLog.Agrees (L : CommittedLog) (target : ℕ) (x : ℕ × LogFrame) : Prop :=
  (x.1 + x.2.span ≤ target ∨ ∃ f, (x.1, f) ∈ L.placed ∧ x.1 + f.span ≤ target) → x ∈ L.placed

namespace JournalScan

/-- All that the files of the listing hold, of those that are still there. -/
def found (v : JournalScan) : List Block := v.files.flatMap fun f => f.getD []

/-- A block begins at or below where the one before it ends, or below what the row
    has. -/
def Joins (resume : ℕ) (b b' : Block) : Prop :=
  b'.base ≤ b.base + Tiling.width LogFrame.span b.frames ∨ b'.base ≤ resume

instance (resume : ℕ) (b b' : Block) : Decidable (Joins resume b b') := inferInstanceAs (Decidable (_ ∨ _))

/-- The blocks join up: the first begins at or below where the journal was found to
    begin, the others join the one before them, and a file begins where its probe
    said. -/
structure Steady (v : JournalScan) (resume first : ℕ) : Prop where
  joined : v.found.IsChain (Joins resume)
  first : ∀ b ∈ v.found.head?, b.base ≤ first
  head : ∀ i h : ℕ, v.heads[i]? = some (some h) →
    ∃ (b : Block) (bs : List Block), v.files[i]? = some (some (b :: bs)) ∧ b.base ≤ h

variable {v : JournalScan} {start resume first r : ℕ}

theorem skipped_succ {heads : List (Option ℕ)} {k : ℕ} (h : skipped start heads = k + 1) :
    ∃ head ≤ start, heads[k]? = some (some head) := by
  induction heads generalizing k with
  | nil => cases h
  | cons o heads ih =>
    cases o with
    | none => cases h
    | some head =>
      rw [skipped] at h
      split_ifs at h with hle
      rw [Nat.add_right_cancel_iff] at h
      cases k with
      | zero => exact ⟨head, hle, rfl⟩
      | succ k => exact ih h

theorem chained_of_joined {bs : List Block}
    (hj : bs.IsChain (Joins resume))
    (hfirst : ∀ b ∈ bs.head?, b.base ≤ r) (hr : resume ≤ r) :
    Tiling.Chained LogFrame.span r (bs.flatMap Block.placed) := by
  induction bs generalizing r with
  | nil => trivial
  | cons b bs ih =>
    have hb : b.base ≤ r := hfirst b rfl
    rw [List.flatMap_cons, Tiling.chained_append]
    refine ⟨Tiling.chained_place hb _, ih hj.tail (fun b' hb' => ?_)
      (Nat.le_trans hr (Tiling.le_reach _))⟩
    cases bs with
    | nil => cases hb'
    | cons b'' bs =>
      obtain rfl : b'' = b' := Option.some.inj hb'
      obtain hle | hle := List.isChain_cons_cons.mp hj |>.1
      · exact Nat.le_trans hle (Tiling.le_reach_place _ _ hb)
      · exact Nat.le_trans hle (Nat.le_trans hr (Tiling.le_reach _))

theorem Steady.chained (h : v.Steady resume first) (hfirst : first ≤ start) (hstart : start ≤ r)
    (hr : resume ≤ r) : Tiling.Chained LogFrame.span r (v.frames start) := by
  have hsplit : v.found = (v.files.take (skipped start v.heads.tail)).flatMap (fun f => f.getD []) ++
      v.blocks start := by
    rw [found, blocks, ← List.flatMap_append, List.take_append_drop]
  have hjoined : (v.blocks start).IsChain (Joins resume) :=
    (List.isChain_append.mp (hsplit ▸ h.joined)).2.1
  refine chained_of_joined hjoined (fun b hb => ?_) hr
  cases hk : skipped start v.heads.tail with
  | zero =>
    have hall : v.blocks start = v.found := by rw [blocks, hk, List.drop_zero, found]
    rw [hall] at hb
    exact Nat.le_trans (h.first b hb) (Nat.le_trans hfirst hstart)
  | succ k =>
    -- the file that is first visited was probed
    obtain ⟨head, hle, hget⟩ := skipped_succ hk
    rw [List.getElem?_tail] at hget
    obtain ⟨b', bs, hfile, hbase⟩ := h.head _ _ hget
    have hdrop : v.files.drop (k + 1) = some (b' :: bs) :: v.files.drop (k + 2) := by
      obtain ⟨hlt, heq⟩ := List.getElem?_eq_some_iff.mp hfile
      rw [List.drop_eq_getElem_cons hlt, heq]
    rw [blocks, hk, hdrop] at hb
    obtain rfl : b' = b := Option.some.inj hb
    omega

end JournalScan

/-! ## Artifacts -/

theorem verifySnapshotEnvelope_ok {file payload : Bytes} {pos : ℕ} {v : Option ℕ}
    (h : verifySnapshotEnvelope file pos v = .ok payload) :
    ∃ tag, decodeSnapshotEnvelope (file.take snapshotEnvelopeLen) = .ok tag ∧ tag.position = pos ∧
      (∀ want ∈ v, sameLine tag.version want) ∧ payload = file.drop snapshotEnvelopeLen := by
  rw [verifySnapshotEnvelope] at h
  cases hd : decodeSnapshotEnvelope (file.take snapshotEnvelopeLen) with
  | error err =>
    rw [hd] at h
    cases h
  | ok tag =>
    rw [hd] at h
    by_cases hpos : tag.position = pos
    · refine ⟨tag, rfl, hpos, ?_⟩
      cases v with
      | none =>
        simp only [bind, Except.bind, hpos, ne_eq, not_true_eq_false, if_false, pure, Except.pure,
          Except.ok.injEq] at h
        exact ⟨by simp, h.symm⟩
      | some want =>
        by_cases hline : sameLine tag.version want = true
        · simp only [bind, Except.bind, hpos, ne_eq, not_true_eq_false, if_false, hline, if_true, pure,
            Except.pure, Except.ok.injEq] at h
          refine ⟨fun want' hw => ?_, h.symm⟩
          rwa [← Option.some.inj hw]
        · simp [bind, Except.bind, hpos, hline, throw, throwThe, MonadExceptOf.throw] at h
    · simp [bind, Except.bind, hpos, throw, throwThe, MonadExceptOf.throw] at h

theorem installStartSet_some {σ : Type} {M : SnapshotStateMachine σ} {version resume frontier pos : ℕ}
    {sm sm' : σ} {set : Option (ℕ × ℕ)} {open_ : ℕ → Option Bytes}
    (h : installStartSet M version sm set resume frontier open_ = .ok (some (pos, sm'))) :
    resume < pos ∧ pos ≤ frontier ∧ (∃ built, set = some (pos, built)) ∧
      ∃ file payload installed, open_ pos = some file ∧
        verifySnapshotEnvelope file pos (some version) = .ok payload ∧
        M.installSnapshot sm (.ofNat pos) payload = .ok (sm', installed) ∧
        installLanded pos installed (M.lastApplied sm') := by
  unfold installStartSet at h
  split at h
  · cases h
  · rename_i pos' built
    split_ifs at h with hrange hline
    · cases h
    · cases h
    rw [not_or, Nat.not_le, Nat.not_lt] at hrange
    split at h
    · cases h
    · rename_i file hopen
      split at h
      · cases h
      · rename_i payload hverify
        split at h
        · cases h
        · rename_i sm₁ installed hinstall
          split_ifs at h with hlanded
          obtain ⟨rfl, rfl⟩ : pos' = pos ∧ sm₁ = sm' := by simpa using h
          exact ⟨hrange.1, hrange.2, ⟨built, rfl⟩, file, payload, installed, hopen, hverify, hinstall,
            hlanded⟩

/-- The journal as a pass finds it, for a row at `resume`. -/
def PassEnv.Steady (env : PassEnv) (resume : ℕ) : Prop :=
  ∀ v heads, env.scan₂ = .ok v → env.heads = .ok heads → v.Steady resume ((firstMeta heads).getD 0)

namespace Service

variable {σ : Type}

/-- What can be read: the counters grow, the ring and the journal hold the log up to
    the frontier, and the artifacts of the store are good ones. -/
structure Readable (L : CommittedLog) (Good : ℕ → ℕ → Bytes → Prop) (seen : Counters) (env : PassEnv) :
    Prop where
  frontier : seen ≤ env.frontier
  covering : env.frontier ≤ env.covering
  counters : env.covering ≤ env.counters
  journal : ∀ v, env.scan₂ = .ok v → ∀ b ∈ v.found, ∀ x ∈ b.placed, L.Agrees env.counters.head x
  store : ∀ pos file, env.open_ pos = some file →
    ∀ tag, decodeSnapshotEnvelope (file.take snapshotEnvelopeLen) = .ok tag → tag.position = pos →
      Good pos tag.version (file.drop snapshotEnvelopeLen)

/-- A step in the environment, when the counters were last seen at `seen`. -/
def Allowed (L : CommittedLog) (Good : ℕ → ℕ → Bytes → Prop) (row : ServiceRow σ) (seen : Counters) :
    RowStep → Prop
  | .begin_ _ _ counters _ => seen ≤ counters
  | .turn env =>
    match env.read with
    | .run frames =>
      ∀ x ∈ Tiling.place LogFrame.span row.cursor frames, ∀ c ∈ row.cycle, L.Agrees c.counters.head x
    | .notCommitted => True
    | .overrun => Readable L Good seen env.pass

variable {L : CommittedLog}

theorem Allowed.mono {Good Good' : ℕ → ℕ → Bytes → Prop} {row : ServiceRow σ} {seen : Counters}
    {step : RowStep} (h : Allowed L Good row seen step)
    (hgood : ∀ pos version img, Good pos version img → Good' pos version img) :
    Allowed L Good' row seen step := by
  cases step with
  | begin_ => exact h
  | turn env =>
    rw [Allowed] at h ⊢
    split at h
    · exact h
    · trivial
    · refine { h with store := ?_ }
      intro pos file hopen tag hdecode htag
      exact hgood _ _ _ (h.store pos file hopen tag hdecode htag)

/-- The counters after a step. -/
def lastSeen (row : ServiceRow σ) (seen : Counters) : RowStep → Counters
  | .begin_ _ _ counters _ => if row.failed.isSome then seen else counters
  | .turn env => if row.failed.isNone ∧ env.read = .overrun then env.pass.counters else seen

/-- The blocks of a pass join up. -/
def SteadyStep (row : ServiceRow σ) : RowStep → Prop
  | .begin_ _ _ _ _ => True
  | .turn env => env.read = .overrun → env.pass.Steady row.cursor

/-- A row and the counters that it has last seen. -/
structure Running (σ : Type) where
  row : ServiceRow σ
  seen : Counters

/-- A step of a row, and what it has seen then. -/
def Running.exec (S : Service σ) (R : Running σ) (step : RowStep) : Running σ :=
  ⟨S.exec R.row step, lastSeen R.row R.seen step⟩

/-! ## What is kept -/

/-- What an incarnation goes by: what the views can show, and the record and the pin
    that it attached with. -/
structure Terms where
  looks : Look → Prop
  recordPos : ℕ
  pin : Option (ℕ × ℕ × ℕ)

def Watches (looks : Look → Prop) : RowStep → Prop
  | .begin_ _ _ _ _ => True
  | .turn env => (∀ pos, ∀ l ∈ env.looks pos, looks l) ∧ ∀ pos, ∀ l ∈ env.pass.looks pos, looks l

/-- The terms of a row, whatever the views show. -/
def anyLook (row : ServiceRow σ) : Terms := ⟨fun _ => True, row.attachRecordPos, row.pin⟩

theorem watches_true (step : RowStep) : Watches (fun _ => True) step := by
  cases step with
  | begin_ => trivial
  | turn env => exact ⟨fun _ _ _ => trivial, fun _ _ _ => trivial⟩

/-- What a walk knows of records, when the row has reached `r`. -/
structure Knows (T : Terms) (e : WalkEnv) (r : ℕ) : Prop where
  looks : ∀ pos, ∀ l ∈ e.looks pos, T.looks l
  above : T.recordPos ≤ e.decidedTo
  below : e.decidedTo ≤ max T.recordPos r

/-- The versions of artifacts that an incarnation takes. -/
def Expected (S : Service σ) (T : Terms) (pos version : ℕ) : Prop :=
  sameLine version S.version ∨ ∃ from_ to_, T.pin = some (pos, from_, to_) ∧ sameLine version from_

/-- A stop at a record. -/
def Stopped (S : Service σ) (L : CommittedLog) (T : Terms) (running pos : ℕ) (later : Bool) : Prop :=
  ∃ f decidedTo looks, (pos, f) ∈ L.placed ∧ f.frameType = frameTypeCluster ∧ T.recordPos ≤ decidedTo ∧
    (∀ l ∈ looks, T.looks l) ∧ onClusterFrame S.row S.version decidedTo pos f looks = .stop running later

/-- What has to be shown of a property of a row's work and its reach. -/
structure Keeps (S : Service σ) (L : CommittedLog) (Good : ℕ → ℕ → Bytes → Prop) (T : Terms)
    (I : Work σ → ℕ → Prop) : Prop where
  edge : ∀ {w r}, I w r → L.Edge r
  last : ∀ {w r}, I w r → ∀ q ∈ S.machine.lastApplied w.sm, q.toNat < r ∧ L.Edge q.toNat
  skip : ∀ {w r x}, I w r → x ∈ L.placed → x.1 ≤ r → x.2.frameType ≠ frameTypeCluster →
    appFrame S.hash x = none → I w (max r (x.1 + x.2.span))
  record : ∀ {e w r x}, I w r → x ∈ L.placed → x.1 ≤ r → x.2.frameType = frameTypeCluster →
    Knows T e r → onClusterFrame S.row S.version e.decidedTo x.1 x.2 (e.looks x.1) = .pass →
      I w (max r (x.1 + x.2.span))
  call : ∀ {w r x g}, I w r → x ∈ L.placed → x.1 ≤ r → appFrame S.hash x = some g →
    I (S.deliver w g) (max r (x.1 + x.2.span))
  instant : ∀ {e w r x}, I w r → x ∈ L.placed → x.1 ≤ r → x.2.frameType = frameTypeSnapshot →
    I (S.onSnapshotFrame e w x) (max r (x.1 + x.2.span))
  install : ∀ {w r pos version payload sm installed}, I w r →
    (∀ q ∈ S.machine.lastApplied w.sm, q.toNat < pos) → Good pos version payload →
    Expected S T pos version →
    S.machine.installSnapshot w.sm (.ofNat pos) payload = .ok (sm, installed) →
      installed = .ofNat pos ∧ L.Edge pos ∧
        I { w with sm, events := w.events ++ [.install pos] } (max r pos)

/-- Where a pass stands: at `startPos`, with what lies below it. -/
structure At (I : Work σ → ℕ → Prop) (L : CommittedLog) (w : Work σ) (r startPos : ℕ)
    (cursor : Option ℕ) : Prop where
  inv : I w r
  start : startPos ≤ r ∧ L.Edge startPos
  cursor : ∀ c ∈ cursor, c ≤ r ∧ L.Edge c

/-- Where the walk of a pass stopped. -/
def EndsAt (S : Service σ) (L : CommittedLog) (T : Terms) (decidedTo target r : ℕ)
    (xs : List (ℕ × LogFrame)) : WalkEnd → Prop
  | .done => True
  | .straddle pos => pos ≤ r ∧ ∃ f, (pos, f) ∈ xs ∧ target < pos + f.span
  | .stop running pos later =>
    (pos ≤ r ∧ ∃ f, (pos, f) ∈ L.placed ∧ decidedTo < pos + f.span) ∧ Stopped S L T running pos later
  | .pending pos => pos ≤ r ∧ ∃ f, (pos, f) ∈ L.placed ∧ decidedTo < pos + f.span

/-- Where a batch stopped. -/
def BatchEnds (S : Service σ) (L : CommittedLog) (T : Terms) (cursor : ℕ) : WalkEnd → Prop
  | .stop running pos later => pos = cursor ∧ Stopped S L T running pos later
  | .pending pos => pos = cursor
  | _ => True

/-- What a pass answers, for a row at `resume` that has reached `r`. -/
def Landed (S : Service σ) (L : CommittedLog) (T : Terms) (resume r : ℕ) :
    Except ServiceError Replay → Prop
  | .ok (.rejoin pos) | .ok (.awaitVersion pos) | .ok (.awaitCommit pos) =>
    resume ≤ pos ∧ pos ≤ r ∧ L.Edge pos
  | .error (.superseded running pos later) =>
    (resume ≤ pos ∧ pos ≤ r) ∧ Stopped S L T running pos later
  | _ => True

theorem firstMeta_le_firstAvailable (gapAbove : Option ℕ) (preJump : ℕ) (heads : List (Option ℕ)) :
    (firstMeta heads).getD 0 ≤ firstAvailable gapAbove preJump heads := by
  cases gapAbove with
  | none => exact le_rfl
  | some floor => exact Nat.le_max_left _ _

theorem newestName_le {names : List ℕ} {atMost pos : ℕ} (h : newestName names atMost = some pos) :
    pos ≤ atMost := by
  have hmem := List.max?_mem h
  exact of_decide_eq_true (List.mem_filter.mp hmem).2

variable {S : Service σ} {a : ReplayArgs} {env : PassEnv}

theorem coveringArtifact_le {first target pos : ℕ}
    (h : S.coveringArtifact a env first target = .ok (some pos)) : pos ≤ target := by
  rw [coveringArtifact] at h
  split at h
  · cases h
  split at h
  · rename_i p hp
    obtain ⟨-, hp⟩ := Option.filter_eq_some_iff.mp hp
    obtain rfl : p.1 = pos := by simpa using h
    simp only [Bool.and_eq_true, decide_eq_true_eq] at hp
    exact hp.1.2
  · split at h
    · cases h
    · exact newestName_le (Except.ok.inj h)

variable {w : Work σ}

theorem installCovering_ok {pos : ℕ} {res : Work σ × ℕ × Option ℕ}
    (h : S.installCovering a env w pos = .ok res) :
    ∃ file want payload sm installed, env.open_ pos = some file ∧
      (want = S.version ∨ ∃ to_, a.pin = some (pos, want, to_)) ∧
      verifySnapshotEnvelope file pos (some want) = .ok payload ∧
      S.machine.installSnapshot w.sm (.ofNat pos) payload = .ok (sm, installed) ∧
      res = ({ w with sm, events := w.events ++ [.install installed.toNat] }, installed.toNat,
        some installed.toNat) := by
  unfold installCovering at h
  split at h
  · cases h
  rename_i file hopen
  dsimp only at h
  split at h
  · cases h
  rename_i payload hverify
  split at h
  · cases h
  rename_i sm installed hinstall
  refine ⟨file, _, payload, sm, installed, hopen, ?_, hverify, hinstall, (Except.ok.inj h).symm⟩
  split
  · rename_i origin from_ to_ hpin
    split_ifs with horigin
    · exact .inr ⟨to_, by rw [hpin, horigin]⟩
    · exact .inl rfl
  · exact .inl rfl

variable {T : Terms}

theorem landed_of_jump {startPos resume r : ℕ} {err : ServiceError}
    (h : S.startSetJump a env w startPos = .error err) : Landed S L T resume r (.error err) := by
  unfold startSetJump at h
  split at h
  · split at h
    · rename_i hset
      obtain rfl := Except.error.inj h
      unfold installStartSet at hset
      repeat' split at hset
      all_goals cases hset
      all_goals trivial
    · cases h
    · cases h
  · cases h

theorem landed_of_cover {first startPos resume r : ℕ} {cursor : Option ℕ} {err : ServiceError}
    (h : S.coverGap a env first w startPos cursor = .error err) :
    Landed S L T resume r (.error err) := by
  unfold coverGap at h
  split at h
  · cases h
  dsimp only at h
  split at h
  · rename_i hcover
    obtain rfl := Except.error.inj h
    unfold coveringArtifact at hcover
    repeat' split at hcover
    all_goals cases hcover
    trivial
  split at h
  · rename_i pos _
    cases hinst : S.installCovering a env w pos with
    | ok res =>
      rw [hinst] at h
      cases h
    | error err' =>
      rw [hinst] at h
      obtain rfl := Except.error.inj h
      unfold installCovering at hinst
      split at hinst
      · cases hinst
        trivial
      dsimp only at hinst
      split at hinst
      · cases hinst
        trivial
      split at hinst
      all_goals cases hinst
      trivial
  · repeat' split at h
    all_goals cases h
    all_goals trivial

theorem coverGap_wait {first startPos : ℕ} {cursor : Option ℕ} {wait : Replay}
    (h : S.coverGap a env first w startPos cursor = .ok (.inl wait)) :
    ∃ artifact target, wait = .awaitArtifact artifact target := by
  unfold coverGap at h
  split at h
  · cases h
  dsimp only at h
  split at h
  · cases h
  split at h
  · rename_i pos _
    cases hinst : S.installCovering a env w pos <;> rw [hinst] at h <;> cases h
  · repeat' split at h
    all_goals cases h
    exact ⟨_, _, rfl⟩

theorem onClusterFrame_decided {row mine decidedTo pos : ℕ} {f : LogFrame} {looks : List Look}
    (h : onClusterFrame row mine decidedTo pos f looks ≠ .pass) : decidedTo < pos + f.span := by
  by_contra hle
  refine h ?_
  rw [onClusterFrame]
  split_ifs with hrec
  · exact if_pos (Nat.not_lt.mp hle)
  · rfl

theorem Knows.mono {e : WalkEnv} {r r' : ℕ} (h : Knows T e r) (hle : r ≤ r') : Knows T e r' :=
  ⟨h.looks, h.above, Nat.le_trans h.below (max_le_max le_rfl hle)⟩

theorem Knows.stopped {e : WalkEnv} {r running : ℕ} {x : ℕ × LogFrame} {later : Bool}
    (h : Knows T e r) (hx : x ∈ L.placed) (hclu : x.2.frameType = frameTypeCluster)
    (hstop : onClusterFrame S.row S.version e.decidedTo x.1 x.2 (e.looks x.1) = .stop running later) :
    Stopped S L T running x.1 later :=
  ⟨x.2, e.decidedTo, e.looks x.1, hx, hclu, h.above, h.looks x.1, hstop⟩

namespace Keeps

variable {S : Service σ} {L : CommittedLog} {Good : ℕ → ℕ → Bytes → Prop} {T : Terms}
  {I : Work σ → ℕ → Prop} {e : WalkEnv} {w w' : Work σ} {r target : ℕ} {x : ℕ × LogFrame}

theorem dispatch (hk : Keeps S L Good T I) {acts : Bool} (hI : I w r) (hx : x ∈ L.placed) (hr : x.1 ≤ r)
    (he : Knows T e r) {g : Gate} (hd : S.dispatch e acts w x = (w', g)) :
    (g = .pass ∧ I w' (max r (x.1 + x.2.span))) ∨
      (g ≠ .pass ∧ w' = w ∧ x.2.frameType = frameTypeCluster ∧
        onClusterFrame S.row S.version e.decidedTo x.1 x.2 (e.looks x.1) = g) := by
  rw [Service.dispatch] at hd
  split_ifs at hd with hsnap hacts hclu
  · obtain ⟨rfl, rfl⟩ := Prod.mk.inj hd
    exact .inl ⟨rfl, hk.instant hI hx hr hsnap⟩
  · obtain ⟨rfl, rfl⟩ := Prod.mk.inj hd
    refine .inl ⟨rfl, hk.skip hI hx hr ?_ ?_⟩
    · rw [hsnap]
      decide
    · rw [appFrame, hsnap]
      rfl
  · obtain ⟨rfl, rfl⟩ := Prod.mk.inj hd
    by_cases hpass : onClusterFrame S.row S.version e.decidedTo x.1 x.2 (e.looks x.1) = .pass
    · exact .inl ⟨hpass, hk.record hI hx hr hclu he hpass⟩
    · exact .inr ⟨hpass, rfl, hclu, rfl⟩
  · split at hd
    · rename_i happ
      obtain ⟨rfl, rfl⟩ := Prod.mk.inj hd
      exact .inl ⟨rfl, hk.skip hI hx hr hclu happ⟩
    · rename_i g' happ
      obtain ⟨rfl, rfl⟩ := Prod.mk.inj hd
      exact .inl ⟨rfl, hk.call hI hx hr happ⟩

theorem scanFrames (hk : Keeps S L Good T I) {freezeAt cursor : Option ℕ} {xs : List (ℕ × LogFrame)}
    (hI : I w r) (hch : Tiling.Chained LogFrame.span r xs) (hxs : ∀ x ∈ xs, L.Agrees target x)
    (hcur : ∀ c ∈ cursor, c ≤ r ∧ L.Edge c) (he : Knows T e r) {cursor' : Option ℕ} {ended : WalkEnd}
    (hs : S.scanFrames e target freezeAt w cursor xs = (w', cursor', ended)) :
    ∃ r', r ≤ r' ∧ r' ≤ max r target ∧ I w' r' ∧ (∀ c ∈ cursor', c ≤ r' ∧ L.Edge c) ∧
      EndsAt S L T e.decidedTo target r' xs ended := by
  induction xs generalizing w r cursor with
  | nil =>
    obtain ⟨rfl, rfl, rfl⟩ : w = w' ∧ cursor = cursor' ∧ WalkEnd.done = ended := by
      simpa [Service.scanFrames] using hs
    exact ⟨r, le_rfl, Nat.le_max_left _ _, hI, hcur, trivial⟩
  | cons x xs ih =>
    obtain ⟨hx, hch⟩ := hch
    rw [Service.scanFrames] at hs
    split_ifs at hs with hend
    · obtain ⟨rfl, rfl, rfl⟩ : w = w' ∧ cursor = cursor' ∧ WalkEnd.straddle x.1 = ended := by
        simpa using hs
      exact ⟨r, le_rfl, Nat.le_max_left _ _, hI, hcur, hx, x.2, List.mem_cons_self, hend⟩
    · have hin : x ∈ L.placed := hxs x List.mem_cons_self (.inl (Nat.not_lt.mp hend))
      split at hs
      · rename_i w₁ hd
        obtain ⟨-, hI₁⟩ | ⟨hne, -⟩ := hk.dispatch hI hin hx he hd
        · -- the frame is passed, and the cursor is at its end at least
          have hcur₁ : ∀ c ∈ some (cursor.elim (x.1 + x.2.span) (max · (x.1 + x.2.span))),
              c ≤ max r (x.1 + x.2.span) ∧ L.Edge c := by
            intro c hc
            obtain rfl := Option.some.inj hc
            have hedge : L.Edge (x.1 + x.2.span) := Tiling.edge_end_of_mem hin
            cases cursor with
            | none => exact ⟨Nat.le_max_right _ _, hedge⟩
            | some c =>
              obtain ⟨hc, hce⟩ := hcur c rfl
              refine ⟨max_le_max hc le_rfl, ?_⟩
              show L.Edge (max c (x.1 + x.2.span))
              obtain h | h := max_choice c (x.1 + x.2.span)
              · rwa [h]
              · rwa [h]
          obtain ⟨r', hle, hmax, hI', hcur', hends⟩ := ih hI₁ hch
            (fun y hy => hxs y (List.mem_cons_of_mem _ hy)) hcur₁ (he.mono (Nat.le_max_left _ _)) hs
          refine ⟨r', Nat.le_trans (Nat.le_max_left _ _) hle, by omega, hI', hcur', ?_⟩
          cases ended with
          | straddle pos =>
            obtain ⟨hpos, f, hf, hlt⟩ := hends
            exact ⟨hpos, f, List.mem_cons_of_mem _ hf, hlt⟩
          | done | stop | pending => exact hends
        · exact absurd rfl hne
      all_goals
        rename_i hd
        obtain ⟨hp, -⟩ | ⟨hne, rfl, hclu, hgate⟩ := hk.dispatch hI hin hx he hd
        · cases hp
        obtain ⟨rfl, rfl, rfl⟩ := hs
        have hdec := onClusterFrame_decided (hgate ▸ hne)
        refine ⟨r, le_rfl, Nat.le_max_left _ _, hI, hcur, ?_⟩
      · exact ⟨⟨hx, x.2, hin, hdec⟩, he.stopped hin hclu hgate⟩
      · exact ⟨hx, x.2, hin, hdec⟩

theorem liveFrames (hk : Keeps S L Good T I) {oneFrame : Bool} {cursor : ℕ} {fs : List LogFrame}
    (hI : I w r) (hcur : cursor ≤ r) (hedge : L.Edge cursor)
    (hfs : ∀ x ∈ Tiling.place LogFrame.span cursor fs, L.Agrees target x)
    (he : Knows T e r) {cursor' : ℕ} {ended : WalkEnd}
    (hs : S.liveFrames e target oneFrame w cursor fs = (w', cursor', ended)) :
    ∃ r', r ≤ r' ∧ r' ≤ max r target ∧ I w' r' ∧ cursor ≤ cursor' ∧ cursor' ≤ r' ∧ L.Edge cursor' ∧
      BatchEnds S L T cursor' ended := by
  induction fs generalizing w r cursor with
  | nil =>
    obtain ⟨rfl, rfl, rfl⟩ : w = w' ∧ cursor = cursor' ∧ WalkEnd.done = ended := by
      simpa [Service.liveFrames] using hs
    exact ⟨r, le_rfl, Nat.le_max_left _ _, hI, le_rfl, hcur, hedge, trivial⟩
  | cons f fs ih =>
    rw [Service.liveFrames] at hs
    have hrest : ∀ x ∈ Tiling.place LogFrame.span (cursor + f.span) fs, L.Agrees target x :=
      fun x hx => hfs x (List.mem_cons_of_mem _ hx)
    by_cases hend : target < cursor + f.span
    · rw [if_pos hend] at hs
      obtain ⟨rfl, rfl, rfl⟩ : w = w' ∧ cursor = cursor' ∧ WalkEnd.done = ended := by simpa using hs
      exact ⟨r, le_rfl, Nat.le_max_left _ _, hI, le_rfl, hcur, hedge, trivial⟩
    have hin : (cursor, f) ∈ L.placed := hfs _ List.mem_cons_self (.inl (Nat.not_lt.mp hend))
    have hnext : L.Edge (cursor + f.span) := Tiling.edge_end_of_mem hin
    rw [if_neg hend] at hs
    by_cases hpad : f.frameType = frameTypePadding
    · rw [if_pos hpad] at hs
      have happ : appFrame S.hash (cursor, f) = none := by
        rw [appFrame, hpad]
        rfl
      have hclu : f.frameType ≠ frameTypeCluster := by
        rw [hpad]
        decide
      obtain ⟨r', hle, hmax, hI', hge, hres⟩ := ih (hk.skip hI hin hcur hclu happ) (Nat.le_max_right _ _)
        hnext hrest (he.mono (Nat.le_max_left _ _)) hs
      exact ⟨r', Nat.le_trans (Nat.le_max_left _ _) hle, by dsimp only at hle hmax; omega, hI',
        by omega, hres⟩
    · rw [if_neg hpad] at hs
      split at hs
      · rename_i w₁ hd
        obtain ⟨-, hI₁⟩ | ⟨hne, -⟩ := hk.dispatch hI hin hcur he hd
        · split_ifs at hs
          · obtain ⟨rfl, rfl, rfl⟩ : w₁ = w' ∧ cursor + f.span = cursor' ∧ WalkEnd.done = ended := by
              simpa using hs
            exact ⟨_, Nat.le_max_left _ _, by dsimp only; omega, hI₁, Nat.le_add_right _ _,
              Nat.le_max_right _ _, hnext, trivial⟩
          · obtain ⟨r', hle, hmax, hI', hge, hres⟩ := ih hI₁ (Nat.le_max_right _ _) hnext hrest
              (he.mono (Nat.le_max_left _ _)) hs
            exact ⟨r', Nat.le_trans (Nat.le_max_left _ _) hle, by dsimp only at hle hmax; omega, hI',
              by omega, hres⟩
        · exact absurd rfl hne
      all_goals
        rename_i hd
        obtain ⟨hp, -⟩ | ⟨hne, rfl, hclu, hgate⟩ := hk.dispatch hI hin hcur he hd
        · cases hp
        obtain ⟨rfl, rfl, rfl⟩ := hs
        refine ⟨r, le_rfl, Nat.le_max_left _ _, hI, le_rfl, hcur, hedge, ?_⟩
      · exact ⟨rfl, he.stopped hin hclu hgate⟩
      · rfl

/-! ### A pass -/

variable {a : ReplayArgs} {env : PassEnv} {seen : Counters} {startPos startPos' : ℕ}
  {cursor cursor' : Option ℕ}

theorem installed (hk : Keeps S L Good T I) (henv : Readable L Good seen env) (hI : I w r) {pos : ℕ}
    (hlast : ∀ q ∈ S.machine.lastApplied w.sm, q.toNat < pos) {file payload : Bytes}
    (hopen : env.open_ pos = some file) {want : ℕ}
    (hverify : verifySnapshotEnvelope file pos (some want) = .ok payload)
    (hwant : ∀ version, sameLine version want → Expected S T pos version) {sm : σ} {installed : UInt64}
    (hinstall : S.machine.installSnapshot w.sm (.ofNat pos) payload = .ok (sm, installed)) :
    installed = .ofNat pos ∧
      At I L { w with sm, events := w.events ++ [.install pos] } (max r pos) pos (some pos) := by
  obtain ⟨tag, hdecode, htag, hline, rfl⟩ := verifySnapshotEnvelope_ok hverify
  have hgood := henv.store pos file hopen tag hdecode htag
  obtain ⟨heq, hedge, hI'⟩ := hk.install hI hlast hgood (hwant _ (hline want rfl)) hinstall
  refine ⟨heq, hI', ⟨Nat.le_max_right _ _, hedge⟩, ?_⟩
  rintro c ⟨⟩
  exact ⟨Nat.le_max_right _ _, hedge⟩

theorem startSetJump (hk : Keeps S L Good T I) (henv : Readable L Good seen env) (hI : I w r)
    (hstart : startPos ≤ r ∧ L.Edge startPos)
    (hlast : ∀ q ∈ S.machine.lastApplied w.sm, q.toNat ≤ startPos)
    (hj : S.startSetJump a env w startPos = .ok (w', startPos', cursor')) :
    ∃ r', r ≤ r' ∧ r' ≤ max r env.frontier.head ∧ At I L w' r' startPos' cursor' ∧
      (∀ q ∈ S.machine.lastApplied w'.sm, q.toNat ≤ startPos') := by
  rw [Service.startSetJump] at hj
  split_ifs at hj with hpermitted
  · split at hj
    · cases hj
    · obtain ⟨rfl, rfl, rfl⟩ : w = w' ∧ startPos = startPos' ∧ none = cursor' := by simpa using hj
      exact ⟨r, le_rfl, Nat.le_max_left _ _, ⟨hI, hstart, by simp⟩, hlast⟩
    · rename_i pos sm hset
      obtain ⟨rfl, rfl, rfl⟩ : { w with sm, events := w.events ++ [.install pos] } = w' ∧
          pos = startPos' ∧ some pos = cursor' := by simpa using hj
      obtain ⟨hresume, hfrontier, -, file, payload, installed, hopen, hverify, hinstall, hlanded⟩ :=
        installStartSet_some hset
      have hbelow : ∀ q ∈ S.machine.lastApplied w.sm, q.toNat < pos := fun q hq => by
        have := hlast q hq
        omega
      obtain ⟨-, hat⟩ := hk.installed henv hI hbelow hopen hverify (fun _ => .inl) hinstall
      refine ⟨max r pos, Nat.le_max_left _ _, max_le_max le_rfl hfrontier, hat, ?_⟩
      intro q hq
      rw [installLanded, Bool.and_eq_true, Option.all_eq_true] at hlanded
      have hlt : q < UInt64.ofNat pos := of_decide_eq_true (hlanded.2 q hq)
      rw [UInt64.lt_iff_toNat_lt, UInt64.toNat_ofNat_of_lt' hat.start.2.lt] at hlt
      exact Nat.le_of_lt hlt
  · obtain ⟨rfl, rfl, rfl⟩ : w = w' ∧ startPos = startPos' ∧ none = cursor' := by simpa using hj
    exact ⟨r, le_rfl, Nat.le_max_left _ _, ⟨hI, hstart, by simp⟩, hlast⟩

theorem coverGap (hk : Keeps S L Good T I) (henv : Readable L Good seen env) (hpin : a.pin = T.pin)
    (hat : At I L w r startPos cursor) (hlast : ∀ q ∈ S.machine.lastApplied w.sm, q.toNat ≤ startPos)
    {first : ℕ} (hc : S.coverGap a env first w startPos cursor = .ok (.inr (w', startPos', cursor'))) :
    ∃ r', r ≤ r' ∧ r' ≤ max r env.covering.head ∧ At I L w' r' startPos' cursor' ∧
      first ≤ startPos' := by
  unfold Service.coverGap at hc
  split at hc
  · rename_i hfirst
    obtain ⟨rfl, rfl, rfl⟩ : w = w' ∧ startPos = startPos' ∧ cursor = cursor' := by simpa using hc
    exact ⟨r, le_rfl, Nat.le_max_left _ _, hat, hfirst⟩
  · dsimp only at hc
    split at hc
    · cases hc
    rename_i covering hcovering
    split at hc
    · rename_i pos hpos
      obtain ⟨hpos, hge⟩ := Option.filter_eq_some_iff.mp hpos
      have hge : first ≤ pos := of_decide_eq_true hge
      have hle := coveringArtifact_le (hpos ▸ hcovering)
      have hbelow : ∀ q ∈ S.machine.lastApplied w.sm, q.toNat < pos := fun q hq => by
        have := hlast q hq
        omega
      cases hinst : S.installCovering a env w pos with
      | error err =>
        rw [hinst] at hc
        cases hc
      | ok res =>
        rw [hinst] at hc
        obtain rfl : res = (w', startPos', cursor') := by simpa [Except.map] using hc
        obtain ⟨file, want, payload, sm, installed, hopen, hwant, hverify, hinstall, hres⟩ :=
          installCovering_ok hinst
        have hexpected : ∀ version, sameLine version want → Expected S T pos version := by
          intro version hline
          obtain rfl | ⟨to_, hto⟩ := hwant
          · exact .inl hline
          · exact .inr ⟨want, to_, hpin ▸ hto, hline⟩
        obtain ⟨rfl, hat'⟩ := hk.installed henv hat.inv hbelow hopen hverify hexpected hinstall
        rw [UInt64.toNat_ofNat_of_lt' hat'.start.2.lt] at hres
        obtain ⟨rfl, rfl, rfl⟩ := hres
        exact ⟨_, Nat.le_max_left _ _, max_le_max le_rfl hle, hat', hge⟩
    · split at hc
      · cases hc
      split at hc
      · cases hc
      · split at hc <;> cases hc

theorem scanJournal (hk : Keeps S L Good T I) (henv : Readable L Good seen env)
    (hsteady : env.Steady a.resume) {heads : List (Option ℕ)} (hheads : env.heads = .ok heads)
    (hfirst : (firstMeta heads).getD 0 ≤ startPos) (hat : At I L w r startPos cursor)
    (hres : a.resume ≤ r ∧ L.Edge a.resume) (hdec : a.decidedTo = max T.recordPos a.resume)
    (hlooks : ∀ pos, ∀ l ∈ env.looks pos, T.looks l) (hhead : a.resume ≤ env.counters.head)
    {res : Except ServiceError Replay}
    (hs : S.scanJournal a env w startPos cursor = (w', res)) :
    ∃ r', r ≤ r' ∧ r' ≤ max r env.counters.head ∧ I w' r' ∧ Landed S L T a.resume r' res := by
  have hfail : ∀ msg, (w, .error (.journal msg)) = (w', res) →
      ∃ r', r ≤ r' ∧ r' ≤ max r env.counters.head ∧ I w' r' ∧ Landed S L T a.resume r' res := by
    rintro msg h
    obtain ⟨rfl, rfl⟩ := Prod.mk.inj h
    exact ⟨r, le_rfl, Nat.le_max_left _ _, hat.inv, trivial⟩
  unfold Service.scanJournal at hs
  dsimp only at hs
  split at hs
  · exact hfail _ hs
  · exact hfail _ hs
  rename_i freezeAt v hfreeze hscan
  have hagree : ∀ x ∈ v.frames startPos, L.Agrees env.counters.head x := by
    intro x hx
    obtain ⟨b, hb, hx⟩ := List.mem_flatMap.mp hx
    refine henv.journal v hscan b ?_ x hx
    obtain ⟨f, hf, hb⟩ := List.mem_flatMap.mp hb
    exact List.mem_flatMap.mpr ⟨f, List.drop_subset _ _ hf, hb⟩
  have hch := (hsteady v heads hscan hheads).chained hfirst hat.start.1 hres.1
  -- a straddling frame cannot lie below where the row is
  have hstraddle : ∀ {pos : ℕ}, L.Edge pos → (∃ f, (pos, f) ∈ v.frames startPos ∧
      env.counters.head < pos + f.span) → a.resume ≤ pos := by
    rintro pos hedge ⟨f, hf, hlt⟩
    by_contra hbelow
    obtain ⟨g, hg, hle⟩ := hedge.exists_mem hres.2 (Nat.not_le.mp hbelow)
    have hin := hagree _ hf (.inr ⟨g, hg, by omega⟩)
    have heq : (pos, f) = (pos, g) := Tiling.place_unique LogFrame.span_pos hin hg rfl
    rw [(Prod.mk.inj heq).2] at hlt
    omega
  have hrecord : ∀ {pos : ℕ}, (∃ f, (pos, f) ∈ L.placed ∧ a.decidedTo < pos + f.span) →
      a.resume ≤ pos ∧ L.Edge pos := by
    rintro pos ⟨f, hf, hlt⟩
    refine ⟨?_, Tiling.edge_of_mem hf⟩
    obtain hle | hle := hres.2.le_or_le hf
    · dsimp only at hle
      omega
    · exact hle
  have hknows : Knows T ⟨a.learner, a.decidedTo, env.looks, env.busy, env.sent⟩ r := by
    refine ⟨hlooks, ?_, ?_⟩
    · rw [hdec]
      exact Nat.le_max_left _ _
    · rw [hdec]
      exact max_le_max le_rfl hres.1
  split at hs
  all_goals
    rename_i hscanned
    obtain ⟨r', hle, hmax, hI', hcur', hends⟩ :=
      hk.scanFrames hat.inv hch hagree hat.cursor hknows hscanned
    refine ⟨r', hle, hmax, ?_⟩
  · obtain ⟨rfl, rfl⟩ := Prod.mk.inj hs
    exact ⟨hI', ⟨(hrecord hends.1.2).1, hends.1.1⟩, hends.2⟩
  · obtain ⟨rfl, rfl⟩ := Prod.mk.inj hs
    exact ⟨hI', (hrecord hends.2).1, hends.1, (hrecord hends.2).2⟩
  · rename_i w₁ cursor₁ ended _ _
    have hrejoin : Landed S L T a.resume r' (.ok (.rejoin (rejoinAt a.resume cursor₁))) := by
      have hstay : Landed S L T a.resume r' (.ok (.rejoin a.resume)) :=
        ⟨le_rfl, Nat.le_trans hres.1 hle, hres.2⟩
      cases cursor₁ with
      | none => exact hstay
      | some c =>
        rw [rejoinAt]
        split_ifs with hc
        · exact ⟨hc, hcur' c rfl⟩
        · exact hstay
    cases ended with
    | straddle pos =>
      dsimp only at hs
      split_ifs at hs with hat₁ hat₂
      · obtain ⟨rfl, rfl⟩ := Prod.mk.inj hs
        obtain ⟨hpos, hedge⟩ := hcur' pos hat₁
        exact ⟨hI', hstraddle hedge hends.2, hpos, hedge⟩
      · obtain ⟨rfl, rfl⟩ := Prod.mk.inj hs
        subst hat₂
        exact ⟨hI', hstraddle hat.start.2 hends.2, hends.1, hat.start.2⟩
      · obtain ⟨rfl, rfl⟩ := Prod.mk.inj hs
        exact ⟨hI', hrejoin⟩
    | done | stop | pending =>
      obtain ⟨rfl, rfl⟩ := Prod.mk.inj hs
      exact ⟨hI', hrejoin⟩

theorem replayInto (hk : Keeps S L Good T I) (henv : Readable L Good seen env)
    (hsteady : env.Steady a.resume) (hI : I w r) (hres : a.resume ≤ r ∧ L.Edge a.resume)
    (hdec : a.decidedTo = max T.recordPos a.resume) (hpin : a.pin = T.pin)
    (hlooks : ∀ pos, ∀ l ∈ env.looks pos, T.looks l) (hhead : r ≤ seen.head) {res : Except ServiceError Replay}
    (hs : S.replayInto a env w = (w', res)) :
    ∃ r', r ≤ r' ∧ r' ≤ env.counters.head ∧ I w' r' ∧ Landed S L T a.resume r' res := by
  have hhead₁ : seen.head ≤ env.frontier.head := Counters.head_mono henv.frontier
  have hhead₂ : env.frontier.head ≤ env.covering.head := Counters.head_mono henv.covering
  have hhead₃ : env.covering.head ≤ env.counters.head := Counters.head_mono henv.counters
  have hsm : ((S.machine.lastApplied w.sm).getD 0).toNat ≤ r ∧
      L.Edge ((S.machine.lastApplied w.sm).getD 0).toNat := by
    cases hq : S.machine.lastApplied w.sm with
    | none => exact ⟨Nat.zero_le _, Tiling.edge_base⟩
    | some q =>
      obtain ⟨hlt, hedge⟩ := hk.last hI q hq
      exact ⟨Nat.le_of_lt hlt, hedge⟩
  unfold Service.replayInto at hs
  dsimp only at hs
  generalize hpre : (if a.gapAbove.isNone = true then
      max ((S.machine.lastApplied w.sm).getD 0).toNat a.resume
    else ((S.machine.lastApplied w.sm).getD 0).toNat) = preJump at hs
  have hstart : preJump ≤ r ∧ L.Edge preJump := by
    rw [← hpre]
    split_ifs
    · refine ⟨max_le hsm.1 hres.1, ?_⟩
      obtain h | h := max_choice ((S.machine.lastApplied w.sm).getD 0).toNat a.resume
      · rw [h]
        exact hsm.2
      · rw [h]
        exact hres.2
    · exact hsm
  have hlast : ∀ q ∈ S.machine.lastApplied w.sm, q.toNat ≤ preJump := by
    intro q hq
    rw [← hpre, Option.mem_def.mp hq]
    split_ifs
    · exact Nat.le_max_left _ _
    · exact le_rfl
  split at hs
  · obtain ⟨rfl, rfl⟩ := Prod.mk.inj hs
    rename_i err hjump
    refine ⟨r, le_rfl, by omega, hI, ?_⟩
    exact landed_of_jump hjump
  rename_i w₁ startPos₁ cursor₁ hjump
  obtain ⟨r₁, hle₁, hmax₁, hat₁, hlast₁⟩ := hk.startSetJump henv hI hstart hlast hjump
  split at hs
  · obtain ⟨rfl, rfl⟩ := Prod.mk.inj hs
    exact ⟨r₁, hle₁, by omega, hat₁.inv, trivial⟩
  rename_i heads hheads
  split at hs
  · obtain ⟨rfl, rfl⟩ := Prod.mk.inj hs
    rename_i err hcover
    exact ⟨r₁, hle₁, by omega, hat₁.inv, landed_of_cover hcover⟩
  · obtain ⟨rfl, rfl⟩ := Prod.mk.inj hs
    rename_i wait hcover
    obtain ⟨artifact, target, rfl⟩ := coverGap_wait hcover
    exact ⟨r₁, hle₁, by omega, hat₁.inv, trivial⟩
  · rename_i w₂ startPos₂ cursor₂ hcover
    obtain ⟨r₂, hle₂, hmax₂, hat₂, hge⟩ := hk.coverGap henv hpin hat₁ hlast₁ hcover
    obtain ⟨r', hle, hmax, hI', hlanded⟩ := hk.scanJournal henv hsteady hheads
      (Nat.le_trans (firstMeta_le_firstAvailable _ _ _) hge) hat₂ ⟨by omega, hres.2⟩ hdec hlooks
      (by omega) hs
    exact ⟨r', by omega, by omega, hI', hlanded⟩

end Keeps

/-! ## A row -/

/-- Where a row stands: it has reached `r`, and what it publishes lies below. -/
structure Stands (S : Service σ) (L : CommittedLog) (T : Terms) (I : Work σ → ℕ → Prop) (R : Running σ)
    (r : ℕ) : Prop where
  inv : I R.row.toWork r
  terms : R.row.attachRecordPos = T.recordPos ∧ R.row.pin = T.pin
  cursor : R.row.cursor ≤ r ∧ L.Edge R.row.cursor
  applied : R.row.applied ≤ r
  live : R.row.failed = none → R.row.applied = R.row.cursor
  head : r ≤ R.seen.head
  cycle : ∀ c ∈ R.row.cycle, c.counters ≤ R.seen
  stopped : ∀ running pos later, R.row.failed = some (.superseded running pos later) →
    R.row.applied = pos ∧ Stopped S L T running pos later

theorem lagPlan_le {mode : LagMode} {floor cursor : ℕ} {c : Counters} {p : ℕ × Bool}
    (h : lagPlan mode floor cursor c = some p) : p.1 ≤ c.head := by
  unfold lagPlan at h
  split at h
  · rw [← Option.some.inj h]
  split at h
  · rw [← Option.some.inj h]
  · dsimp only at h
    split at h
    · cases h
    · rw [← Option.some.inj h]
      exact Nat.min_le_left _ _
  · split at h
    · cases h
    · rw [← Option.some.inj h]

theorem planned_le {mode : LagMode} {cursor : ℕ} {c : Counters} {floors : List ℕ} {p : ℕ × Bool}
    (h : planned mode cursor c floors = some p) : p.1 ≤ c.head := by
  cases floors with
  | nil => cases h
  | cons floor floors =>
    rw [planned, Option.or_eq_some_iff] at h
    obtain h | ⟨-, h⟩ := h
    · exact lagPlan_le h
    · split at h
      · obtain ⟨floor', -, h⟩ := List.exists_of_findSome?_eq_some h
        exact lagPlan_le h
      · cases h

end Service

theorem CommittedLog.Agrees.anti {L : CommittedLog} {target target' : ℕ} {x : ℕ × LogFrame}
    (h : L.Agrees target x) (hle : target' ≤ target) : L.Agrees target' x := by
  rintro (hx | ⟨f, hf, hx⟩)
  · exact h (.inl (Nat.le_trans hx hle))
  · exact h (.inr ⟨f, hf, Nat.le_trans hx hle⟩)

namespace Service

variable {σ : Type} {S : Service σ} {L : CommittedLog} {Good : ℕ → ℕ → Bytes → Prop} {T : Terms}
  {I : Work σ → ℕ → Prop} {R : Running σ} {r : ℕ}

namespace Keeps

/-- What a step leaves: a row that stands further on, with nothing unpublished. -/
def Advanced (S : Service σ) (L : CommittedLog) (T : Terms) (I : Work σ → ℕ → Prop) (R R' : Running σ)
    (r : ℕ) : Prop :=
  ∃ r', r ≤ r' ∧ Stands S L T I R' r' ∧ R.row.applied ≤ R'.row.applied

theorem liveTurn (hk : Keeps S L Good T I) (hs : Stands S L T I R r) (hlive : R.row.failed = none)
    {c : Cycle} (hc : R.row.cycle = some c) {env : TurnEnv} {target : ℕ} {oneFrame : Bool}
    (htarget : target ≤ c.counters.head) {frames : List LogFrame}
    (hfs : ∀ x ∈ Tiling.place LogFrame.span R.row.cursor frames, L.Agrees target x)
    (hlooks : ∀ pos, ∀ l ∈ env.looks pos, T.looks l) {row : ServiceRow σ}
    (hrow : S.liveTurn R.row c env target oneFrame frames = row) :
    Advanced S L T I R ⟨row, R.seen⟩ r := by
  have htop : c.counters.head ≤ R.seen.head := Counters.head_mono (hs.cycle c hc)
  have hhead : max r target ≤ R.seen.head := max_le hs.head (Nat.le_trans htarget htop)
  have happlied := hs.live hlive
  have hknows : Knows T ⟨c.learner, R.row.attachRecordPos, env.looks, env.busy, env.sent⟩ r :=
    ⟨hlooks, Nat.le_of_eq hs.terms.1.symm, by rw [hs.terms.1]; exact Nat.le_max_left _ _⟩
  unfold Service.liveTurn at hrow
  dsimp only at hrow
  split at hrow
  all_goals
    rename_i hwalk
    obtain ⟨r', hle, hmax, hI, hge, hcur, hedge, hpos⟩ :=
      hk.liveFrames hs.inv hs.cursor.1 hs.cursor.2 hfs hknows hwalk
    have hhead' : r' ≤ R.seen.head := Nat.le_trans hmax hhead
    subst hrow
    refine ⟨r', hle, ?_⟩
  · obtain ⟨rfl, hstopped⟩ := hpos
    refine ⟨⟨hI, hs.terms, ⟨Nat.le_trans hs.cursor.1 hle, hs.cursor.2⟩, hcur, by simp, hhead', by simp, ?_⟩,
      happlied ▸ hge⟩
    rintro _ _ _ ⟨⟩
    exact ⟨rfl, hstopped⟩
  · obtain rfl := hpos
    exact ⟨⟨hI, hs.terms, ⟨hcur, hedge⟩, hcur, fun _ => rfl, hhead', by simp, by simp [hlive]⟩,
      happlied ▸ hge⟩
  · refine ⟨⟨hI, hs.terms, ⟨hcur, hedge⟩, hcur, fun _ => rfl, hhead', ?_, by simp [hlive]⟩, happlied ▸ hge⟩
    intro c' hc'
    dsimp only at hc'
    split at hc'
    · cases hc'
    · exact hs.cycle c' hc'

theorem replayTurn (hk : Keeps S L Good T I) (hs : Stands S L T I R r) (hlive : R.row.failed = none)
    {c : Cycle} {env : TurnEnv} (henv : Readable L Good R.seen env.pass)
    (hsteady : env.pass.Steady R.row.cursor) (hlooks : ∀ pos, ∀ l ∈ env.pass.looks pos, T.looks l)
    {row : ServiceRow σ}
    (hrow : S.replayTurn R.row c env = row) : Advanced S L T I R ⟨row, env.pass.counters⟩ r := by
  have hseen : R.seen ≤ env.pass.counters :=
    (henv.frontier.trans henv.covering).trans henv.counters
  have happlied := hs.live hlive
  have hcycle : ∀ c' ∈ R.row.cycle, c'.counters ≤ env.pass.counters := fun c' hc' =>
    (hs.cycle c' hc').trans hseen
  unfold Service.replayTurn at hrow
  dsimp only at hrow
  generalize hpass : S.replayInto _ env.pass R.row.toWork = res at hrow
  obtain ⟨w, res⟩ := res
  obtain ⟨r', hle, hhead, hI, hlanded⟩ :=
    hk.replayInto henv hsteady hs.inv hs.cursor (by rw [hs.terms.1]) hs.terms.2 hlooks hs.head hpass
  have hstay : R.row.cursor ≤ r' ∧ L.Edge R.row.cursor := ⟨Nat.le_trans hs.cursor.1 hle, hs.cursor.2⟩
  have hstay' : R.row.applied ≤ r' := Nat.le_trans hs.applied hle
  refine ⟨r', hle, ?_⟩
  split at hrow
  · obtain ⟨rfl, hres⟩ := Prod.mk.inj ‹_›
    rw [hres] at hlanded
    subst hrow
    obtain ⟨⟨hge, hle'⟩, hstopped⟩ := hlanded
    refine ⟨⟨hI, hs.terms, hstay, hle', by simp, hhead, by simp, ?_⟩, happlied ▸ hge⟩
    rintro _ _ _ ⟨⟩
    exact ⟨rfl, hstopped⟩
  · obtain ⟨rfl, hres⟩ := Prod.mk.inj ‹_›
    rename_i e hne _
    subst hrow
    refine ⟨⟨hI, hs.terms, hstay, hstay', by simp, hhead, by simp, ?_⟩, le_rfl⟩
    intro running pos later hfailed
    exact absurd (Option.some.inj hfailed) (hne running pos later)
  · obtain ⟨rfl, hres⟩ := Prod.mk.inj ‹_›
    rw [hres] at hlanded
    subst hrow
    exact ⟨⟨hI, hs.terms, hlanded.2, hlanded.2.1, fun _ => rfl, hhead, by simp, by simp [hlive]⟩,
      happlied ▸ hlanded.1⟩
  · obtain ⟨rfl, hres⟩ := Prod.mk.inj ‹_›
    rw [hres] at hlanded
    subst hrow
    exact ⟨⟨hI, hs.terms, hlanded.2, hlanded.2.1, fun _ => rfl, hhead, by simp, by simp [hlive]⟩,
      happlied ▸ hlanded.1⟩
  · obtain ⟨rfl, hres⟩ := Prod.mk.inj ‹_›
    subst hrow
    exact ⟨⟨hI, hs.terms, hstay, hstay', fun _ => happlied, hhead, by simp, by simp [hlive]⟩, le_rfl⟩
  · rename_i cursor _
    obtain ⟨rfl, hres⟩ := Prod.mk.inj ‹_›
    rw [hres] at hlanded
    obtain ⟨hge, hcur, hedge⟩ : R.row.cursor ≤ cursor ∧ cursor ≤ r' ∧ L.Edge cursor := hlanded
    rw [Nat.max_eq_left hge] at hrow
    split_ifs at hrow
    all_goals
      subst hrow
      refine ⟨⟨hI, hs.terms, ⟨hcur, hedge⟩, hcur, fun _ => rfl, hhead, ?_, by simp [hlive]⟩, happlied ▸ hge⟩
    · simp
    · exact hcycle
    · exact hcycle

theorem exec (hk : Keeps S L Good T I) (hs : Stands S L T I R r) {step : RowStep}
    (hallowed : Allowed L Good R.row R.seen step) (hsteady : SteadyStep R.row step)
    (hwatch : Watches T.looks step) :
    Advanced S L T I R (R.exec S step) r := by
  have hstay : ∀ {seen : Counters} {cycle : Option Cycle}, R.seen ≤ seen →
      (∀ c ∈ cycle, c ∈ R.row.cycle) → Advanced S L T I R ⟨{ R.row with cycle }, seen⟩ r := by
    intro seen cycle hseen hcycle
    exact ⟨r, le_rfl, ⟨hs.inv, hs.terms, hs.cursor, hs.applied, hs.live,
      Nat.le_trans hs.head (Counters.head_mono hseen),
      fun c hc => (hs.cycle c (hcycle c hc)).trans hseen, hs.stopped⟩, le_rfl⟩
  have hseen : R.seen ≤ lastSeen R.row R.seen step := by
    cases step with
    | begin_ instance₁ instance₂ counters learner =>
      rw [lastSeen]
      split
      · exact le_refl _
      · exact hallowed
    | turn env =>
      rw [lastSeen]
      split
      · rename_i hover
        rw [Allowed, hover.2] at hallowed
        exact (hallowed.frontier.trans hallowed.covering).trans hallowed.counters
      · exact le_refl _
  rw [Running.exec]
  unfold Service.exec
  split
  · exact hstay hseen fun _ hc => hc
  rename_i hfailed
  have hlive : R.row.failed = none := by simpa using hfailed
  cases step with
  | begin_ instance₁ instance₂ counters learner =>
    rw [lastSeen, if_neg hfailed]
    refine ⟨r, le_rfl, ?_⟩
    have hhead : r ≤ counters.head := Nat.le_trans hs.head (Counters.head_mono hallowed)
    unfold beginCycle
    dsimp only
    generalize (if instance₁ = some false then R.row.streak + 1 else 0) = streak
    split
    · exact ⟨⟨hs.inv, hs.terms, hs.cursor, hs.applied, by simp, hhead, fun c hc =>
        (hs.cycle c hc).trans hallowed, by simp⟩, le_rfl⟩
    · refine ⟨⟨hs.inv, hs.terms, hs.cursor, hs.applied, hs.live, hhead, ?_, hs.stopped⟩, le_rfl⟩
      intro c hc
      dsimp only at hc
      split at hc
      · cases hc
      · obtain rfl := Option.some.inj hc
        exact le_refl _
  | turn env =>
    dsimp only
    unfold Service.turn
    split
    · exact hstay hseen fun _ hc => hc
    rename_i c hc
    split
    · exact hstay hseen (by simp)
    rename_i target oneFrame hplan
    have htarget := planned_le hplan
    split
    · exact hstay hseen (by simp)
    split
    · exact hstay hseen (by simp)
    · rename_i frames hread
      rw [Allowed, hread] at hallowed
      have hlast : lastSeen R.row R.seen (.turn env) = R.seen := by
        rw [lastSeen, if_neg (by simp [hread])]
      rw [hlast]
      exact hk.liveTurn hs hlive hc htarget (fun x hx => (hallowed x hx c hc).anti htarget)
        hwatch.1 rfl
    · rename_i hread
      rw [Allowed, hread] at hallowed
      have hlast : lastSeen R.row R.seen (.turn env) = env.pass.counters := by
        rw [lastSeen, if_pos ⟨by simp [hlive], hread⟩]
      rw [hlast]
      exact hk.replayTurn hs hlive hallowed (hsteady hread) hwatch.2 rfl

theorem run (hk : Keeps S L Good T I) (hs : Stands S L T I R r) {steps : List RowStep}
    (h : Trace.Admits (Running.exec S)
      (fun R step => Allowed L Good R.row R.seen step ∧ SteadyStep R.row step) R steps)
    (hwatch : ∀ step ∈ steps, Watches T.looks step) :
    Advanced S L T I R (steps.foldl (Running.exec S) R) r := by
  induction steps generalizing R r with
  | nil => exact ⟨r, le_rfl, hs, le_rfl⟩
  | cons step steps ih =>
    obtain ⟨r₁, hle₁, hs₁, happlied₁⟩ := hk.exec hs h.1.1 h.1.2 (hwatch step List.mem_cons_self)
    obtain ⟨r₂, hle₂, hs₂, happlied₂⟩ := ih hs₁ h.2 fun s hs => hwatch s (List.mem_cons_of_mem _ hs)
    exact ⟨r₂, Nat.le_trans hle₁ hle₂, hs₂, Nat.le_trans happlied₁ happlied₂⟩

end Keeps

end Service

end UltimaCluster
