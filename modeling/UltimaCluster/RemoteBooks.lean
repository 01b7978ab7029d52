/-
  The books of the remote client: which requests are live, in the producer's
  hands, pushed or dropped.
-/
import UltimaCluster.RemoteEngine

namespace UltimaCluster

open Function (update update_of_ne update_self)

namespace Remote

/-! ## Program counters -/

/-- The call that is under way and has no slot. -/
def ClaimPc.pending : ClaimPc → List Call
  | .admission c | .isFree c | .stage c | .count c | .reserve c | .userData c | .deadline c | .kind c
  | .minPosition c | .publish c => [c]
  | .idle | .nextSeq _ | .commit _ => []

/-- The slot is published, and the cursor is not moved. -/
def ClaimPc.unnumbered : ClaimPc → ℕ
  | .nextSeq _ => 1
  | _ => 0

/-- The slot is published, and the call has not returned. -/
def ClaimPc.unreturned : ClaimPc → ℕ
  | .nextSeq _ | .commit _ => 1
  | _ => 0

/-- The requests that the producer holds. -/
def ProducerPc.hands : ProducerPc → List ℕ
  | .pass _ _ _ fired => fired.map Prod.fst
  | .push r _ _ _ rest _ | .check r _ rest _ _ => r.seq :: rest.map Record.seq
  | _ => []

/-- The record that is being pushed. -/
def ProducerPc.pushing : ProducerPc → CompletionQueue.Pushing
  | .push r body stage _ _ _ => some (r, body, stage)
  | _ => none

namespace RemoteEngine

variable {cfg : EngineConfig} {n n' : RemoteEngine}

/-! ## The invariant -/

/-- The call that a request was made by. -/
def callOf (cfg : EngineConfig) (n : RemoteEngine) (seq : ℕ) : Option Call :=
  if cfg.firstSeq ≤ seq then n.calls[seq - cfg.firstSeq]? else none

/-- The words of a slot are those of a call. -/
structure Words (n : RemoteEngine) (i : ℕ) (c : Call) : Prop where
  userData : n.userData i = c.userData
  deadlineNs : n.deadlineNs i = c.deadlineNs
  kind : n.kind i = c.kind
  minPosition : n.minPosition i = c.minPosition

/-- What the submitter has stored where it is. -/
def ClaimAt (cfg : EngineConfig) (n : RemoteEngine) : ClaimPc → Prop
  | .userData _ => n.owner (slot cfg n.seqNext) = .reserved
  | .deadline c => n.owner (slot cfg n.seqNext) = .reserved ∧
      n.userData (slot cfg n.seqNext) = c.userData
  | .kind c => n.owner (slot cfg n.seqNext) = .reserved ∧
      n.userData (slot cfg n.seqNext) = c.userData ∧
      n.deadlineNs (slot cfg n.seqNext) = c.deadlineNs
  | .minPosition c => n.owner (slot cfg n.seqNext) = .reserved ∧
      n.userData (slot cfg n.seqNext) = c.userData ∧
      n.deadlineNs (slot cfg n.seqNext) = c.deadlineNs ∧ n.kind (slot cfg n.seqNext) = c.kind
  | .publish c => n.owner (slot cfg n.seqNext) = .reserved ∧ n.Words (slot cfg n.seqNext) c
  | _ => True

/-- What the slots are claimed for. -/
structure Claimed (cfg : EngineConfig) (n : RemoteEngine) : Prop where
  seqNext : n.seqNext + n.sub.unnumbered = cfg.firstSeq + n.calls.length
  accepted : n.accepted + n.sub.unreturned = n.calls.length
  /-- A word that names a request is that of its slot, with the words of its
      call. -/
  owned : ∀ i s, n.owner i = .seq s → i = slot cfg s ∧ ∃ c, n.callOf cfg s = some c ∧ n.Words i c
  claimAt : n.ClaimAt cfg n.sub
  ids : (n.calls.map Call.id ++ n.refused ++ n.sub.pending.map Call.id).Nodup
  bounded : ∀ k ∈ n.calls.map Call.id ++ n.refused ++ n.sub.pending.map Call.id, k < n.sends

/-- The requests that are settled. -/
def settled (n : RemoteEngine) : List ℕ :=
  n.queue.pushed.map (fun x => x.1.seq) ++ n.dropped.map Drop.seq ++ n.prod.hands

/-- A request that was claimed is live or settled, and settled once. -/
structure Settled (cfg : EngineConfig) (n : RemoteEngine) : Prop where
  nodup : n.settled.Nodup
  claimed : ∀ s ∈ n.settled, (n.callOf cfg s).isSome ∧ ¬ n.Live cfg s
  covered : ∀ s, (n.callOf cfg s).isSome → n.Live cfg s ∨ s ∈ n.settled

/-- A response to a call that is not below its token. -/
def Fresh (c : Call) (r : Response) : Prop :=
  c.kind = .query → r.expired = false → c.minPosition ≤ r.position

/-- A record that completes its request. -/
structure Right (cfg : EngineConfig) (n : RemoteEngine) (x : Record) (body : Bytes) : Prop where
  call : ∃ c, n.callOf cfg x.seq = some c ∧ x.userData = c.userData ∧
    (x.tag = .response → ∃ r ∈ n.received, r.seq = x.seq ∧ r.body = body ∧ x.position = r.position ∧
      x.hasPosition = true ∧ x.replayed = r.replayed ∧ x.expired = r.expired ∧ Fresh c r)

/-- What the producer knows of an answer. -/
def AnswerAt (cfg : EngineConfig) (n : RemoteEngine) : Answer → Prop
  | .response r => r ∈ n.received ∧ n.Accepted cfg r.seq ∧
      (n.Live cfg r.seq → ∀ c, n.callOf cfg r.seq = some c → Fresh c r)
  | .refusal s tag => n.Accepted cfg s ∧ tag ≠ .response

/-- What the producer knows where it is.  It alone frees slots, so what it found
    live stays so. -/
def ProducerAt (cfg : EngineConfig) (n : RemoteEngine) : ProducerPc → Prop
  | .reading | .exited => True
  | .kindOwner r => r ∈ n.received ∧ n.Accepted cfg r.seq
  | .kindWord r => r ∈ n.received ∧ n.Accepted cfg r.seq ∧ n.Live cfg r.seq
  | .minWord r kind => r ∈ n.received ∧ n.Accepted cfg r.seq ∧ n.Live cfg r.seq ∧
      ∀ c, n.callOf cfg r.seq = some c → kind = c.kind
  | .take a .owner => n.AnswerAt cfg a
  | .take a .userData => n.AnswerAt cfg a ∧ n.Live cfg a.seq
  | .take a (.exchange ud) => n.AnswerAt cfg a ∧ n.Live cfg a.seq ∧
      ∀ c, n.callOf cfg a.seq = some c → ud = c.userData
  | .pass _ i stage fired =>
    (∀ f ∈ fired, ∃ c, n.callOf cfg f.1 = some c ∧ f.2 = c.userData) ∧
      match stage with
      | .owner => True
      | .deadline s | .userData s => n.owner i = .seq s
      | .exchange s ud => n.owner i = .seq s ∧ ∀ c, n.callOf cfg s = some c → ud = c.userData
  | .push r body _ _ rest _ | .check r body rest _ _ =>
    n.Right cfg r body ∧ ∀ x ∈ rest, n.Right cfg x []

/-- A record has the user data of its request, and a response's record is that of a response to
    it that is not below its token. -/
structure Righted (cfg : EngineConfig) (n : RemoteEngine) : Prop where
  pushed : ∀ x ∈ n.queue.pushed, n.Right cfg x.1 x.2
  producerAt : n.ProducerAt cfg n.prod

/-- The invariant of a run. -/
structure Kept (cfg : EngineConfig) (n : RemoteEngine) : Prop where
  claimed : n.Claimed cfg
  settled : n.Settled cfg
  righted : n.Righted cfg
  piped : n.queue.Piped cfg.queue n.prod.pushing

theorem kept_start : (start cfg).Kept cfg where
  claimed := by
    refine ⟨rfl, rfl, ?_, trivial, by simp [start, ClaimPc.pending], by simp [start, ClaimPc.pending]⟩
    intro i s hs
    cases hs
  settled := by
    refine ⟨by simp [settled, start, CompletionQueue.new, ProducerPc.hands],
      by simp [settled, start, CompletionQueue.new, ProducerPc.hands], ?_⟩
    intro s hs
    simp [callOf, start] at hs
  righted := ⟨by simp [start, CompletionQueue.new], trivial⟩
  piped := CompletionQueue.piped_new

/-! ## Calls -/

theorem callOf_isSome {s : ℕ} :
    (n.callOf cfg s).isSome ↔ cfg.firstSeq ≤ s ∧ s < cfg.firstSeq + n.calls.length := by
  unfold callOf
  split
  · rw [Option.isSome_iff_ne_none, ne_eq, List.getElem?_eq_none_iff]
    omega
  · simp only [Option.isSome_none, Bool.false_eq_true, false_iff]
    omega

theorem callOf_append {s : ℕ} {c : Call} (h : n.callOf cfg s = some c) {cs : List Call}
    (hcs : n'.calls = n.calls ++ cs) : n'.callOf cfg s = some c := by
  have hlt := callOf_isSome.mp (Option.isSome_of_eq_some h)
  unfold callOf at h ⊢
  rw [if_pos hlt.1] at h ⊢
  rw [hcs, List.getElem?_append_left (by omega)]
  exact h

theorem callOf_of_append {s : ℕ} {c : Call} {cs : List Call} (hcs : n'.calls = n.calls ++ cs)
    (hs : s < cfg.firstSeq + n.calls.length) (h : n'.callOf cfg s = some c) :
    n.callOf cfg s = some c := by
  unfold callOf at h ⊢
  split at h
  · rename_i hle
    rw [if_pos hle]
    rwa [hcs, List.getElem?_append_left (by omega)] at h
  · cases h

/-! ## The submitter -/

theorem Right.mono {x : Record} {body : Bytes} (h : n.Right cfg x body) {cs : List Call}
    (hcs : n'.calls = n.calls ++ cs) (hrec : ∀ r ∈ n.received, r ∈ n'.received) :
    n'.Right cfg x body := by
  obtain ⟨c, hc, hud, hresp⟩ := h.call
  refine ⟨c, callOf_append hc hcs, hud, fun ht => ?_⟩
  obtain ⟨r, hr, hrest⟩ := hresp ht
  exact ⟨r, hrec r hr, hrest⟩

/-- The slots as the producer sees them: a request that becomes live is new. -/
structure Extends (cfg : EngineConfig) (n n' : RemoteEngine) : Prop where
  calls : ∃ cs, n'.calls = n.calls ++ cs
  accepted : n.accepted ≤ n'.accepted
  owner : ∀ i s, s < cfg.firstSeq + n.calls.length → (n'.owner i = .seq s ↔ n.owner i = .seq s)
  received : ∀ r ∈ n.received, r ∈ n'.received

section

variable (m : Extends cfg n n') (h : n.Claimed cfg)

include m

theorem Extends.live {s : ℕ} (hs : s < cfg.firstSeq + n.calls.length) :
    n'.Live cfg s ↔ n.Live cfg s :=
  m.owner _ s hs

theorem Extends.right {x : Record} {body : Bytes} (hx : n.Right cfg x body) : n'.Right cfg x body := by
  obtain ⟨cs, hcs⟩ := m.calls
  exact hx.mono hcs m.received

theorem Extends.accepted_imp {s : ℕ} (hs : n.Accepted cfg s) : n'.Accepted cfg s := by
  have h1 := hs.2
  have h2 := m.accepted
  exact ⟨hs.1, by omega⟩

theorem Extends.callOf_iff {s : ℕ} (hs : s < cfg.firstSeq + n.calls.length) {c : Call} :
    n'.callOf cfg s = some c ↔ n.callOf cfg s = some c := by
  obtain ⟨cs, hcs⟩ := m.calls
  exact ⟨callOf_of_append hcs hs, fun hc => callOf_append hc hcs⟩

omit m in
theorem AnswerAt.accepted {a : Answer} (ha : n.AnswerAt cfg a) : n.Accepted cfg a.seq := by
  cases a with
  | response r => exact ha.2.1
  | refusal s tag => exact ha.1

include h

omit m in
theorem Claimed.accepted_lt {s : ℕ} (hs : n.Accepted cfg s) : s < cfg.firstSeq + n.calls.length := by
  have h1 := h.accepted
  have h2 := hs.2
  omega

omit m in
theorem Claimed.owned_lt {i s : ℕ} (hs : n.owner i = .seq s) : s < cfg.firstSeq + n.calls.length := by
  obtain ⟨-, c, hc, -⟩ := h.owned i s hs
  exact (callOf_isSome.mp (Option.isSome_of_eq_some hc)).2

theorem Extends.answerAt {a : Answer} (ha : n.AnswerAt cfg a) : n'.AnswerAt cfg a := by
  cases a with
  | response r =>
    obtain ⟨hr, hacc, hfresh⟩ := ha
    have hlt := h.accepted_lt hacc
    refine ⟨m.received r hr, m.accepted_imp hacc, fun hl c hc => ?_⟩
    exact hfresh ((m.live hlt).mp hl) c ((m.callOf_iff hlt).mp hc)
  | refusal s tag => exact ⟨m.accepted_imp ha.1, ha.2⟩

theorem Extends.producerAt {pc : ProducerPc} (hat : n.ProducerAt cfg pc) : n'.ProducerAt cfg pc := by
  obtain ⟨cs, hcs⟩ := m.calls
  have howner : ∀ i s, n.owner i = .seq s → n'.owner i = .seq s := fun i s hs =>
    (m.owner i s (h.owned_lt hs)).mpr hs
  cases pc with
  | reading | exited => trivial
  | kindOwner r => exact ⟨m.received r hat.1, m.accepted_imp hat.2⟩
  | kindWord r => exact ⟨m.received r hat.1, m.accepted_imp hat.2.1, howner _ _ hat.2.2⟩
  | minWord r kind =>
    obtain ⟨hr, hacc, hl, hkind⟩ := hat
    exact ⟨m.received r hr, m.accepted_imp hacc, howner _ _ hl, fun c hc =>
      hkind c ((m.callOf_iff (h.accepted_lt hacc)).mp hc)⟩
  | take a stage =>
    cases stage with
    | owner => exact m.answerAt h hat
    | userData => exact ⟨m.answerAt h hat.1, howner _ _ hat.2⟩
    | exchange ud =>
      exact ⟨m.answerAt h hat.1, howner _ _ hat.2.1, fun c hc =>
        hat.2.2 c ((m.callOf_iff (h.accepted_lt hat.1.accepted)).mp hc)⟩
  | pass mode i stage fired =>
    refine ⟨fun f hf => ?_, ?_⟩
    · obtain ⟨c, hc, hud⟩ := hat.1 f hf
      exact ⟨c, callOf_append hc hcs, hud⟩
    · have hstage := hat.2
      cases stage with
      | owner => trivial
      | deadline s | userData s => exact howner i s hstage
      | exchange s ud =>
        exact ⟨howner i s hstage.1, fun c hc =>
          hstage.2 c ((m.callOf_iff (h.owned_lt hstage.1)).mp hc)⟩
  | push r body stage again rest exits => exact ⟨m.right hat.1, fun x hx => m.right (hat.2 x hx)⟩
  | check r body rest exits full => exact ⟨m.right hat.1, fun x hx => m.right (hat.2 x hx)⟩

end

/-- What the submitter does to the rest. -/
structure SubMoves (cfg : EngineConfig) (n n' : RemoteEngine) : Prop extends Extends cfg n n' where
  fresh : ∀ s, cfg.firstSeq + n.calls.length ≤ s → s < cfg.firstSeq + n'.calls.length → n'.Live cfg s
  prod : n'.prod = n.prod
  queue : n'.queue = n.queue
  dropped : n'.dropped = n.dropped

theorem SubMoves.settled (m : SubMoves cfg n n') (h : n.Kept cfg) : n'.Settled cfg := by
  obtain ⟨cs, hcs⟩ := m.calls
  have hle : n.calls.length ≤ n'.calls.length := by
    rw [hcs, List.length_append]
    exact Nat.le_add_right _ _
  have hset : n'.settled = n.settled := by
    rw [RemoteEngine.settled, RemoteEngine.settled, m.queue, m.dropped, m.prod]
  refine ⟨hset ▸ h.settled.nodup, ?_, ?_⟩
  · rw [hset]
    intro s hs
    obtain ⟨hc, hl⟩ := h.settled.claimed s hs
    have hlt := callOf_isSome.mp hc
    exact ⟨callOf_isSome.mpr ⟨hlt.1, by omega⟩, fun hc => hl ((m.live hlt.2).mp hc)⟩
  · rw [hset]
    intro s hs
    have hlt := callOf_isSome.mp hs
    rcases Nat.lt_or_ge s (cfg.firstSeq + n.calls.length) with hold | hnew
    · exact (h.settled.covered s (callOf_isSome.mpr ⟨hlt.1, hold⟩)).imp_left (m.live hold).mpr
    · exact .inl (m.fresh s hnew hlt.2)

theorem SubMoves.kept (m : SubMoves cfg n n') (h : n.Kept cfg) (hcl : n'.Claimed cfg) :
    n'.Kept cfg := by
  refine ⟨hcl, m.settled h, ⟨?_, ?_⟩, ?_⟩
  · rw [m.queue]
    exact fun x hx => m.right (h.righted.pushed x hx)
  · rw [m.prod]
    exact m.producerAt h.claimed h.righted.producerAt
  · rw [m.queue, m.prod]
    exact h.piped

theorem Claimed.setSub {q : ClaimPc} (h : n.Claimed cfg) (hsub : n.sub = q) (pc : ClaimPc)
    (hnum : pc.unnumbered = q.unnumbered) (hret : pc.unreturned = q.unreturned)
    (hpend : pc.pending = q.pending) (hat : ClaimAt cfg { n with sub := pc } pc) :
    Claimed cfg { n with sub := pc } := by
  subst hsub
  refine ⟨?_, ?_, ?_, hat, ?_, ?_⟩
  · rw [hnum]
    exact h.seqNext
  · rw [hret]
    exact h.accepted
  · intro i s hs
    obtain ⟨hi, c, hc, hw⟩ := h.owned i s hs
    exact ⟨hi, c, hc, hw.1, hw.2, hw.3, hw.4⟩
  · rw [hpend]
    exact h.ids
  · rw [hpend]
    exact h.bounded

theorem ClaimAt.congr {pc : ClaimPc} (hat : n.ClaimAt cfg pc) (closed : Bool) (queue : CompletionQueue)
    (prod : ProducerPc) (received : List Response) (dropped : List Drop) :
    ClaimAt cfg { n with closed, queue, prod, received, dropped } pc := by
  cases pc with
  | publish c => exact ⟨hat.1, hat.2.1, hat.2.2, hat.2.3, hat.2.4⟩
  | _ => exact hat

theorem ClaimAt.free {pc : ClaimPc} {i : ℕ} {prod : ProducerPc} (hat : n.ClaimAt cfg pc)
    (hres : n.owner (slot cfg n.seqNext) = .reserved →
      update n.owner i .free (slot cfg n.seqNext) = .reserved) :
    ClaimAt cfg { n.free i with prod := prod } pc := by
  cases pc with
  | userData c => exact hres hat
  | publish c => exact ⟨hres hat.1, hat.2.1, hat.2.2, hat.2.3, hat.2.4⟩
  | deadline c | kind c | minPosition c => exact ⟨hres hat.1, hat.2⟩
  | _ => trivial

theorem Claimed.congr (h : n.Claimed cfg) (closed : Bool) (queue : CompletionQueue)
    (prod : ProducerPc) (received : List Response) (dropped : List Drop) :
    Claimed cfg { n with closed, queue, prod, received, dropped } := by
  refine { h with owned := fun i s hs => ?_, claimAt := h.claimAt.congr _ _ _ _ _ }
  obtain ⟨hi, c, hc, hw⟩ := h.owned i s hs
  exact ⟨hi, c, hc, hw.1, hw.2, hw.3, hw.4⟩

/-- `send` returns an error. -/
theorem Claimed.refuse {c : Call} {q : ClaimPc} (h : n.Claimed cfg) (hsub : n.sub = q)
    (hnum : q.unnumbered = 0) (hret : q.unreturned = 0) (hpend : q.pending = [c]) :
    (n.refuse c).Claimed cfg := by
  subst hsub
  refine ⟨?_, ?_, ?_, trivial, ?_, ?_⟩
  · have := h.seqNext
    rw [hnum] at this
    exact this
  · have := h.accepted
    rw [hret] at this
    exact this
  · intro i s hs
    obtain ⟨hi, c, hc, hw⟩ := h.owned i s hs
    exact ⟨hi, c, hc, hw.1, hw.2, hw.3, hw.4⟩
  · have := h.ids
    rw [hpend] at this
    simpa [RemoteEngine.refuse, ClaimPc.pending] using this
  · have := h.bounded
    rw [hpend] at this
    simpa [RemoteEngine.refuse, ClaimPc.pending] using this

theorem Claimed.store {q : ClaimPc} (h : n.Claimed cfg) (hsub : n.sub = q)
    (hr : n.owner (slot cfg n.seqNext) = .reserved)
    (hn : n' = { n with
      userData := n'.userData, deadlineNs := n'.deadlineNs, kind := n'.kind
      minPosition := n'.minPosition, sub := n'.sub })
    (hwords : ∀ i, i ≠ slot cfg n.seqNext → ∀ c, n.Words i c → n'.Words i c)
    (hnum : n'.sub.unnumbered = q.unnumbered) (hret : n'.sub.unreturned = q.unreturned)
    (hpend : n'.sub.pending = q.pending) (hat : n'.ClaimAt cfg n'.sub) : n'.Claimed cfg := by
  subst hsub
  have hcalls : n'.calls = n.calls := by rw [hn]
  have howner : n'.owner = n.owner := by rw [hn]
  refine ⟨?_, ?_, ?_, hat, ?_, ?_⟩
  · have := h.seqNext
    rw [hnum, hcalls, show n'.seqNext = n.seqNext by rw [hn]]
    exact this
  · have := h.accepted
    rw [hret, hcalls, show n'.accepted = n.accepted by rw [hn]]
    exact this
  · intro i s hs
    rw [howner] at hs
    obtain ⟨hi, c, hc, hw⟩ := h.owned i s hs
    refine ⟨hi, c, by rw [callOf, hcalls]; exact hc, hwords i ?_ c hw⟩
    rintro rfl
    rw [hr] at hs
    cases hs
  · rw [hpend, hcalls, show n'.refused = n.refused by rw [hn]]
    exact h.ids
  · rw [hpend, hcalls, show n'.refused = n.refused by rw [hn], show n'.sends = n.sends by rw [hn]]
    exact h.bounded

theorem Claimed.submitter (h : n.Claimed cfg) (ok : Bool) : (n.submitter cfg ok).Claimed cfg := by
  have hat := h.claimAt
  cases hsub : n.sub with
  | idle =>
    simp only [RemoteEngine.submitter, hsub]
    exact h
  | admission c | isFree c | stage c | count c =>
    simp only [RemoteEngine.submitter, hsub]
    split
    · exact h.setSub hsub _ rfl rfl rfl trivial
    · exact h.refuse hsub rfl rfl rfl
  | reserve c =>
    simp only [RemoteEngine.submitter, hsub]
    split
    · have hnum := h.seqNext
      have hret := h.accepted
      have hids := h.ids
      have hbound := h.bounded
      rw [hsub] at hnum hret hids hbound
      refine ⟨hnum, hret, ?_, update_self _ _ _, hids, hbound⟩
      intro i s hs
      dsimp only at hs
      by_cases hi : i = slot cfg n.seqNext
      · rw [hi, update_self] at hs
        cases hs
      · rw [update_of_ne hi] at hs
        obtain ⟨hi, c, hc, hw⟩ := h.owned i s hs
        exact ⟨hi, c, hc, hw.1, hw.2, hw.3, hw.4⟩
    · exact h.refuse hsub rfl rfl rfl
  | userData c =>
    rw [hsub] at hat
    simp only [RemoteEngine.submitter, hsub]
    refine h.store hsub hat rfl (fun i hi c' hw => ?_) rfl rfl rfl ⟨hat, update_self _ _ _⟩
    exact ⟨(update_of_ne hi _ _).trans hw.1, hw.2, hw.3, hw.4⟩
  | deadline c =>
    rw [hsub] at hat
    simp only [RemoteEngine.submitter, hsub]
    refine h.store hsub hat.1 rfl (fun i hi c' hw => ?_) rfl rfl rfl ⟨hat.1, hat.2, update_self _ _ _⟩
    exact ⟨hw.1, (update_of_ne hi _ _).trans hw.2, hw.3, hw.4⟩
  | kind c =>
    rw [hsub] at hat
    simp only [RemoteEngine.submitter, hsub]
    refine h.store hsub hat.1 rfl (fun i hi c' hw => ?_) rfl
      rfl rfl ⟨hat.1, hat.2.1, hat.2.2, update_self _ _ _⟩
    exact ⟨hw.1, hw.2, (update_of_ne hi _ _).trans hw.3, hw.4⟩
  | minPosition c =>
    rw [hsub] at hat
    simp only [RemoteEngine.submitter, hsub]
    refine h.store hsub hat.1 rfl (fun i hi c' hw => ?_) rfl
      rfl rfl ⟨hat.1, hat.2.1, hat.2.2.1, hat.2.2.2, update_self _ _ _⟩
    exact ⟨hw.1, hw.2, hw.3, (update_of_ne hi _ _).trans hw.4⟩
  | publish c =>
    have hnum := h.seqNext
    have hret := h.accepted
    have hids := h.ids
    have hbound := h.bounded
    rw [hsub] at hat hnum hret hids hbound
    simp only [ClaimPc.unnumbered, ClaimPc.unreturned, ClaimPc.pending, Nat.add_zero] at hnum hret hids hbound
    simp only [RemoteEngine.submitter, hsub]
    refine ⟨?_, ?_, ?_, trivial, ?_, ?_⟩
    · simp only [ClaimPc.unnumbered, List.length_append, List.length_singleton]
      omega
    · simp only [ClaimPc.unreturned, List.length_append, List.length_singleton]
      omega
    · intro i s hs
      dsimp only at hs
      by_cases hi : i = slot cfg n.seqNext
      · subst hi
        rw [update_self] at hs
        injection hs with hs
        subst hs
        refine ⟨rfl, c, ?_, ⟨hat.2.1, hat.2.2, hat.2.3, hat.2.4⟩⟩
        rw [callOf, if_pos (by omega), show n.seqNext - cfg.firstSeq = n.calls.length by omega]
        exact List.getElem?_concat_length
      · rw [update_of_ne hi] at hs
        obtain ⟨hi, c', hc, hw⟩ := h.owned i s hs
        exact ⟨hi, c', callOf_append hc rfl, hw.1, hw.2, hw.3, hw.4⟩
    · simp only [ClaimPc.pending, List.map_append, List.map_cons, List.map_nil, List.append_nil] at hids ⊢
      refine (List.Perm.nodup_iff ?_).mp hids
      rw [List.append_assoc, List.append_assoc]
      exact List.Perm.append_left _ List.perm_append_comm
    · simp only [ClaimPc.pending, List.map_append, List.map_cons, List.map_nil, List.append_nil,
        List.mem_append] at hbound ⊢
      exact fun k hk => hbound k (by tauto)
  | nextSeq c =>
    have hnum := h.seqNext
    have hret := h.accepted
    have hids := h.ids
    have hbound := h.bounded
    rw [hsub] at hnum hret hids hbound
    simp only [RemoteEngine.submitter, hsub]
    refine ⟨hnum, hret, fun i s hs => ?_, trivial, hids, hbound⟩
    obtain ⟨hi, c, hc, hw⟩ := h.owned i s hs
    exact ⟨hi, c, hc, hw.1, hw.2, hw.3, hw.4⟩
  | commit c =>
    have hnum := h.seqNext
    have hret := h.accepted
    have hids := h.ids
    have hbound := h.bounded
    rw [hsub] at hnum hret hids hbound
    simp only [RemoteEngine.submitter, hsub]
    refine ⟨hnum, hret, fun i s hs => ?_, trivial, hids, hbound⟩
    obtain ⟨hi, c, hc, hw⟩ := h.owned i s hs
    exact ⟨hi, c, hc, hw.1, hw.2, hw.3, hw.4⟩

theorem subMoves_quiet (hcalls : n'.calls = n.calls) (hacc : n.accepted ≤ n'.accepted)
    (howner : ∀ i s, n'.owner i = .seq s ↔ n.owner i = .seq s) (hprod : n'.prod = n.prod)
    (hq : n'.queue = n.queue) (hrec : n'.received = n.received) (hd : n'.dropped = n.dropped) :
    SubMoves cfg n n' := by
  refine ⟨⟨⟨[], by rw [hcalls, List.append_nil]⟩, hacc, fun i s _ => howner i s,
    fun r hr => hrec ▸ hr⟩, ?_, hprod, hq, hd⟩
  intro s h1 h2
  rw [hcalls] at h2
  omega

theorem subMoves_submitter (h : n.Claimed cfg) (ok : Bool) : SubMoves cfg n (n.submitter cfg ok) := by
  cases hsub : n.sub with
  | reserve c =>
    simp only [RemoteEngine.submitter, hsub]
    split
    · rename_i hfree
      refine subMoves_quiet rfl le_rfl (fun i s => ?_) rfl rfl rfl rfl
      by_cases hi : i = slot cfg n.seqNext
      · subst hi
        simp [hfree]
      · simp [hi]
    · exact subMoves_quiet rfl le_rfl (fun _ _ => Iff.rfl) rfl rfl rfl rfl
  | publish c =>
    have hat := h.claimAt
    have hnum := h.seqNext
    rw [hsub] at hat hnum
    simp only [ClaimPc.unnumbered, Nat.add_zero] at hnum
    simp only [RemoteEngine.submitter, hsub]
    refine ⟨⟨⟨[c], rfl⟩, le_rfl, fun i s hs => ?_, fun _ hr => hr⟩, fun s h1 h2 => ?_, rfl, rfl, rfl⟩
    · by_cases hi : i = slot cfg n.seqNext
      · subst hi
        simp only [update_self, hat.1, Owner.seq.injEq, reduceCtorEq, iff_false]
        omega
      · simp [hi]
    · simp only [List.length_append, List.length_singleton] at h2
      obtain rfl : s = n.seqNext := by omega
      exact update_self _ _ _
  | idle | userData c | deadline c | kind c | minPosition c | nextSeq c =>
    simp only [RemoteEngine.submitter, hsub]
    exact subMoves_quiet rfl le_rfl (fun _ _ => Iff.rfl) rfl rfl rfl rfl
  | commit c =>
    simp only [RemoteEngine.submitter, hsub]
    exact subMoves_quiet rfl (Nat.le_succ _) (fun _ _ => Iff.rfl) rfl rfl rfl rfl
  | admission c | isFree c | stage c | count c =>
    simp only [RemoteEngine.submitter, hsub]
    split <;> exact subMoves_quiet rfl le_rfl (fun _ _ => Iff.rfl) rfl rfl rfl rfl

theorem Kept.submitter (h : n.Kept cfg) (ok : Bool) : (n.submitter cfg ok).Kept cfg :=
  (subMoves_submitter h.claimed ok).kept h (h.claimed.submitter ok)

theorem Kept.send (h : n.Kept cfg) (hidle : n.sub = .idle) (ud : ℕ) (kind : RequestType)
    (deadline min : ℕ) : (step cfg n (.send ud kind deadline min)).Kept cfg := by
  have hnum := h.claimed.seqNext
  have hret := h.claimed.accepted
  have hids := h.claimed.ids
  have hbound := h.claimed.bounded
  rw [hidle] at hnum hret hids hbound
  simp only [ClaimPc.pending, List.map_nil, List.append_nil] at hids hbound
  have hnew : (n.calls.map Call.id ++ n.refused ++ [n.sends]).Nodup := by
    rw [List.nodup_append]
    refine ⟨hids, List.nodup_singleton _, ?_⟩
    intro a ha b hb
    obtain rfl := List.mem_singleton.mp hb
    exact (hbound a ha).ne
  have hlt : ∀ k ∈ n.calls.map Call.id ++ n.refused ++ [n.sends], k < n.sends + 1 := by
    intro k hk
    rcases List.mem_snoc.mp hk with hk | rfl
    · exact (hbound k hk).trans (Nat.lt_succ_self _)
    · exact Nat.lt_succ_self _
  have howned : ∀ i s, n.owner i = .seq s →
      i = slot cfg s ∧ ∃ c, n.callOf cfg s = some c ∧ n.Words i c := h.claimed.owned
  simp only [step]
  split
  · refine SubMoves.kept (n := n) (subMoves_quiet rfl le_rfl (fun _ _ => Iff.rfl) rfl rfl rfl rfl) h
      ⟨hnum, hret, fun i s hs => ?_, trivial, ?_, ?_⟩
    · obtain ⟨hi, c, hc, hw⟩ := howned i s hs
      exact ⟨hi, c, hc, hw.1, hw.2, hw.3, hw.4⟩
    · simpa [RemoteEngine.refuse, ClaimPc.pending] using hnew
    · simpa [RemoteEngine.refuse, ClaimPc.pending] using hlt
  · refine SubMoves.kept (n := n) (subMoves_quiet rfl le_rfl (fun _ _ => Iff.rfl) rfl rfl rfl rfl) h
      ⟨hnum, hret, fun i s hs => ?_, trivial, hnew, hlt⟩
    obtain ⟨hi, c, hc, hw⟩ := howned i s hs
    exact ⟨hi, c, hc, hw.1, hw.2, hw.3, hw.4⟩

end RemoteEngine

end Remote

end UltimaCluster
