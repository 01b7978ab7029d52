/-
  Membership requests of operators (`handle_admin`, `on_config_proposal` and
  `on_config_reply` of `uc_node/src/node.rs`): a leader proposes and appends, another
  node forwards the request to the leader it knows of and answers with the reply.

  Datagrams are kept once sent and may be delivered any number of times, or never.
  What else a node does (elections, commits, membership) may put its kernel into any
  state; that the reconcile latches and that the ring has room are choices of the step.
  An address stands for its node, and every audit record is written.
-/
import UltimaCluster.ClusterFsm
import UltimaCluster.Election
import UltimaCluster.Lib.Trace

namespace UltimaCluster

/-- A request as the admin sockets and peers carry it. -/
structure AdminReq where
  seq : ℕ
  nonce : ℕ
  op : ℕ
  id : NodeId
  ip : ℕ
  port : ℕ
deriving DecidableEq

/-- The body of a forwarded proposal. -/
structure ConfigProposal where
  nonce : ℕ
  op : ℕ
  id : NodeId
  ip : ℕ
  port : ℕ
deriving DecidableEq

/-- The answer to a request, by its nonce. -/
structure ConfigReply where
  nonce : ℕ
  status : ℕ
  reason : ℕ
  version : ℕ
deriving DecidableEq

/-- The request that was forwarded last. -/
structure PendingAdminFwd where
  seq : ℕ
  nonce : ℕ
deriving DecidableEq

def reasonMalformedOp : ℕ := 11

/-- The operation that a request asks for. -/
def wireToConfigOp (op : ℕ) (id : NodeId) (ip port : ℕ) : Option ConfigOp :=
  match op with
  | 1 => some (.addLearner id (ip, port))
  | 2 => some (.promoteLearner id)
  | 3 => some (.demoteVoter id)
  | 4 => some (.removeLearner id)
  | 5 => some (.removeVoter id)
  | _ => none

/-- What the rest of the node decides. -/
structure AdminKernel where
  sm : ElectionSm
  admissionBytes : ℕ
  membershipReconciledLatched : Bool
  configVersion : ℕ
  /-- The leader hint, where its address is known. -/
  leaderHint : Option NodeId
  /-- The nodes whose address is a member's. -/
  addrToId : List NodeId
deriving DecidableEq

/-- The admin state of one node. -/
structure AdminNode where
  kernel : AdminKernel
  lastAdminSeq : ℕ
  pendingAdminFwd : Option PendingAdminFwd
  lastConfigReply : Option (ℕ × ConfigReply)
deriving DecidableEq

/-- What the ring and the reconcile do during a proposal. -/
structure AppendChoice where
  latches : Bool
  room : Bool
  position : ℕ
deriving DecidableEq

namespace AdminKernel

/-- Status, reason and version, with the config that was appended. -/
def proposeAndAppend (k : AdminKernel) (c : AppendChoice) (op : ℕ) (id : NodeId) (ip port : ℕ) :
    (ℕ × ℕ × ℕ) × Option ClusterConfig × AdminKernel :=
  match wireToConfigOp op id ip port with
  | none => ((1, reasonMalformedOp, k.configVersion), none, k)
  | some configOp =>
    match k.sm.proposeConfig configOp k.admissionBytes with
    | .error e => ((1, e.reasonCode, k.configVersion), none, k)
    | .ok newCfg =>
      let k := { k with membershipReconciledLatched := k.membershipReconciledLatched || c.latches }
      if !k.membershipReconciledLatched then ((2, 0, k.configVersion), none, k)
      else if c.room then
        ((0, 0, newCfg.version), some newCfg,
          { k with sm := (k.sm.step (.configObserved c.position newCfg)).1 })
      else ((2, 0, k.configVersion), none, k)

end AdminKernel

/-- A line that was answered, with the nonce of its request. -/
structure AdminAnswer where
  node : NodeId
  seq : ℕ
  reply : ConfigReply
deriving DecidableEq

/-- The nodes and the datagrams that were sent, with what was read, evaluated by a
    leader, appended and answered so far. -/
structure AdminNet where
  nodes : NodeId → AdminNode
  proposals : List (NodeId × NodeId × ConfigProposal)
  replies : List (NodeId × ConfigReply)
  requests : List ℕ
  evaluated : List ConfigReply
  frames : List (ℕ × ClusterConfig)
  answers : List AdminAnswer

/-- What can happen between the nodes. -/
inductive AdminStep where
  /-- A node reads a request; `refused` is why it was not authenticated. -/
  | request (n : NodeId) (req : AdminReq) (refused : Option ℕ) (c : AppendChoice)
  | proposal (src dst : NodeId) (body : ConfigProposal) (c : AppendChoice)
  | reply (dst : NodeId) (body : ConfigReply)
  | kernel (n : NodeId) (k : AdminKernel)
  /-- A role change or a truncation. -/
  | invalidate (n : NodeId)

namespace AdminNet

/-- The kernels as they are, and nothing asked. -/
def fresh (kernels : NodeId → AdminKernel) : AdminNet :=
  ⟨fun n => ⟨kernels n, 0, none, none⟩, [], [], [], [], [], []⟩

def setNode (w : AdminNet) (n : NodeId) (a : AdminNode) : AdminNet :=
  { w with nodes := Function.update w.nodes n a }

/-- The reply slot of the page. -/
def writeAdminReply (w : AdminNet) (n : NodeId) (seq nonce status reason version : ℕ) : AdminNet :=
  { w with answers := w.answers ++ [⟨n, seq, ⟨nonce, status, reason, version⟩⟩] }

/-- `propose_and_append` at a node, for a request. -/
def evaluate (w : AdminNet) (n : NodeId) (c : AppendChoice) (nonce op : ℕ) (id : NodeId) (ip port : ℕ) :
    ConfigReply × AdminNet :=
  let a := w.nodes n
  let ((status, reason, version), frame, k) := a.kernel.proposeAndAppend c op id ip port
  let reply : ConfigReply := ⟨nonce, status, reason, version⟩
  let w := w.setNode n { a with kernel := k }
  (reply, { w with
    evaluated := w.evaluated ++ [reply]
    frames := w.frames ++ (frame.map fun cfg => (nonce, cfg)).toList })

/-- A pending forward is answered with a retry. -/
def giveUp (w : AdminNet) (n : NodeId) : AdminNet :=
  match (w.nodes n).pendingAdminFwd with
  | none => w
  | some old =>
    let a := w.nodes n
    (w.setNode n { a with pendingAdminFwd := none }).writeAdminReply n old.seq old.nonce 2 0
      a.kernel.configVersion

/-- A request read from the page. -/
def handleAdmin (w : AdminNet) (n : NodeId) (req : AdminReq) (refused : Option ℕ) (c : AppendChoice) :
    AdminNet :=
  let a := w.nodes n
  match refused with
  | some reason => w.writeAdminReply n req.seq req.nonce 1 reason a.kernel.configVersion
  | none =>
    if a.kernel.sm.role = .leader then
      let (reply, w) := w.evaluate n c req.nonce req.op req.id req.ip req.port
      w.writeAdminReply n req.seq req.nonce reply.status reply.reason reply.version
    else
      match a.kernel.leaderHint with
      | none => w.writeAdminReply n req.seq req.nonce 2 0 a.kernel.configVersion
      | some leader =>
        let w := w.giveUp n
        let w := w.setNode n { w.nodes n with pendingAdminFwd := some ⟨req.seq, req.nonce⟩ }
        { w with proposals := w.proposals ++ [(n, leader, ⟨req.nonce, req.op, req.id, req.ip, req.port⟩)] }

/-- A proposal that is not the one answered last. -/
def answerProposal (w : AdminNet) (src dst : NodeId) (body : ConfigProposal) (c : AppendChoice) :
    AdminNet :=
  let (reply, w) := w.evaluate dst c body.nonce body.op body.id body.ip body.port
  let w := w.setNode dst { w.nodes dst with lastConfigReply := some (body.nonce, reply) }
  { w with replies := w.replies ++ [(src, reply)] }

/-- A forwarded request reaches a node. -/
def onConfigProposal (w : AdminNet) (src dst : NodeId) (body : ConfigProposal) (c : AppendChoice) :
    AdminNet :=
  let a := w.nodes dst
  if a.kernel.sm.role ≠ .leader then w
  else if src ∉ a.kernel.addrToId then w
  else
    match a.lastConfigReply with
    | some (nonce, reply) =>
      if nonce = body.nonce then { w with replies := w.replies ++ [(src, reply)] }
      else w.answerProposal src dst body c
    | none => w.answerProposal src dst body c

/-- The reply to a forwarded request. -/
def onConfigReply (w : AdminNet) (dst : NodeId) (body : ConfigReply) : AdminNet :=
  match (w.nodes dst).pendingAdminFwd with
  | none => w
  | some pending =>
    if pending.nonce ≠ body.nonce then w
    else
      (w.setNode dst { w.nodes dst with pendingAdminFwd := none }).writeAdminReply dst pending.seq
        pending.nonce body.status body.reason body.version

/-- When a leader life ends. -/
def invalidateAdminCaches (w : AdminNet) (n : NodeId) : AdminNet :=
  (w.setNode n { w.nodes n with lastConfigReply := none }).giveUp n

/-- One step of the nodes. -/
def exec (w : AdminNet) : AdminStep → AdminNet
  | .request n req refused c =>
    if (w.nodes n).lastAdminSeq < req.seq then
      let w := w.setNode n { w.nodes n with lastAdminSeq := req.seq }
      { w with requests := w.requests ++ [req.nonce] }.handleAdmin n req refused c
    else w
  | .proposal src dst body c => w.onConfigProposal src dst body c
  | .reply dst body => w.onConfigReply dst body
  | .kernel n k => w.setNode n { w.nodes n with kernel := k }
  | .invalidate n => w.invalidateAdminCaches n

/-- Every request has its own nonce, and only what was sent arrives. -/
def Possible (w : AdminNet) : AdminStep → Prop
  | .request _ req _ _ => req.nonce ∉ w.requests
  | .proposal src dst body _ => (src, dst, body) ∈ w.proposals
  | .reply dst body => (dst, body) ∈ w.replies
  | _ => True

def run (w : AdminNet) (steps : List AdminStep) : AdminNet := steps.foldl exec w

instance (w : AdminNet) : (step : AdminStep) → Decidable (w.Possible step)
  | .request _ req _ _ => inferInstanceAs (Decidable (req.nonce ∉ w.requests))
  | .proposal src dst body _ => inferInstanceAs (Decidable ((src, dst, body) ∈ w.proposals))
  | .reply dst body => inferInstanceAs (Decidable ((dst, body) ∈ w.replies))
  | .kernel _ _ => .isTrue trivial
  | .invalidate _ => .isTrue trivial

/-! ## What is asked of the answers -/

/-- What the answers may say. -/
structure Truthful (w : AdminNet) : Prop where
  once : (w.frames.map Prod.fst).Nodup
  accepted : ∀ a ∈ w.answers, a.reply.status = 0 →
    ∃ cfg, (a.reply.nonce, cfg) ∈ w.frames ∧ cfg.version = a.reply.version
  refused : ∀ a ∈ w.answers, a.reply.status ≠ 0 → ∀ cfg, (a.reply.nonce, cfg) ∉ w.frames

/-- A leader evaluates this proposal: it is not the one it answered last. -/
def Evaluates (w : AdminNet) (src dst : NodeId) (body : ConfigProposal) : Prop :=
  (w.nodes dst).kernel.sm.role = .leader ∧ src ∈ (w.nodes dst).kernel.addrToId ∧
    (w.nodes dst).lastConfigReply.map Prod.fst ≠ some body.nonce

/-- A pending forward that is given up now was not appended. -/
def MayGiveUp (w : AdminNet) (n : NodeId) : Prop :=
  ∀ old ∈ (w.nodes n).pendingAdminFwd, old.nonce ∉ w.frames.map Prod.fst

/-- A leader evaluates no proposal that was evaluated before or whose request was
    answered, and no forward is given up once its change was appended. -/
def Recognised (w : AdminNet) : AdminStep → Prop
  | .proposal src dst body _ => w.Evaluates src dst body →
    body.nonce ∉ w.evaluated.map ConfigReply.nonce ∧ ∀ a ∈ w.answers, a.reply.nonce ≠ body.nonce
  | .request n req refused _ =>
    refused = none → (w.nodes n).lastAdminSeq < req.seq → (w.nodes n).kernel.sm.role ≠ .leader →
      (w.nodes n).kernel.leaderHint ≠ none → w.MayGiveUp n
  | .invalidate n => w.MayGiveUp n
  | _ => True

instance (w : AdminNet) (src dst : NodeId) (body : ConfigProposal) : Decidable (w.Evaluates src dst body) :=
  inferInstanceAs (Decidable (_ ∧ _ ∧ _))

instance (w : AdminNet) (n : NodeId) : Decidable (w.MayGiveUp n) :=
  inferInstanceAs (Decidable (∀ old ∈ (w.nodes n).pendingAdminFwd, old.nonce ∉ w.frames.map Prod.fst))

instance (w : AdminNet) : (step : AdminStep) → Decidable (w.Recognised step)
  | .proposal src dst body _ => inferInstanceAs (Decidable (w.Evaluates src dst body → _ ∧ _))
  | .request n _ _ _ => inferInstanceAs (Decidable (_ → _ → _ → _ → w.MayGiveUp n))
  | .invalidate n => inferInstanceAs (Decidable (w.MayGiveUp n))
  | .reply _ _ => .isTrue trivial
  | .kernel _ _ => .isTrue trivial

/-! ## Every run -/

/-- What carries `Truthful` over a run. -/
structure Inv (w : AdminNet) : Prop extends Truthful w where
  evaluatedOnce : (w.evaluated.map ConfigReply.nonce).Nodup
  evaluatedAsked : ∀ e ∈ w.evaluated, e.nonce ∈ w.requests
  appended : ∀ e ∈ w.evaluated, e.status = 0 → ∃ cfg, (e.nonce, cfg) ∈ w.frames ∧ cfg.version = e.version
  notAppended : ∀ e ∈ w.evaluated, e.status ≠ 0 → ∀ cfg, (e.nonce, cfg) ∉ w.frames
  framesEvaluated : ∀ x ∈ w.frames, x.1 ∈ w.evaluated.map ConfigReply.nonce
  proposed : ∀ p ∈ w.proposals, p.2.2.nonce ∈ w.requests
  replied : ∀ r ∈ w.replies, r.2 ∈ w.evaluated
  cached : ∀ n x, (w.nodes n).lastConfigReply = some x → x.2 ∈ w.evaluated
  pending : ∀ n p, (w.nodes n).pendingAdminFwd = some p → p.nonce ∈ w.requests
  answered : ∀ a ∈ w.answers, a.reply.nonce ∈ w.requests

theorem inv_fresh (kernels : NodeId → AdminKernel) : Inv (fresh kernels) where
  once := List.nodup_nil
  accepted := nofun
  refused := nofun
  evaluatedOnce := List.nodup_nil
  evaluatedAsked := nofun
  appended := nofun
  notAppended := nofun
  framesEvaluated := nofun
  proposed := nofun
  replied := nofun
  cached := nofun
  pending := nofun
  answered := nofun

variable {w : AdminNet}

/-- A node is changed, its cache and its pending forward to what the run has had. -/
theorem Inv.setNode (h : Inv w) (n : NodeId) {a : AdminNode}
    (hcache : ∀ x, a.lastConfigReply = some x → x.2 ∈ w.evaluated)
    (hpending : ∀ p, a.pendingAdminFwd = some p → p.nonce ∈ w.requests) : Inv (w.setNode n a) :=
  { h with
    once := h.once
    accepted := h.accepted
    refused := h.refused
    cached := fun m x hx => by
      by_cases hm : m = n
      · subst hm
        simp only [AdminNet.setNode, Function.update_self] at hx
        exact hcache x hx
      · simp only [AdminNet.setNode, Function.update_of_ne hm] at hx
        exact h.cached m x hx
    pending := fun m p hp => by
      by_cases hm : m = n
      · subst hm
        simp only [AdminNet.setNode, Function.update_self] at hp
        exact hpending p hp
      · simp only [AdminNet.setNode, Function.update_of_ne hm] at hp
        exact h.pending m p hp }

theorem Inv.answer (h : Inv w) {n : NodeId} {seq nonce status reason version : ℕ}
    (hasked : nonce ∈ w.requests)
    (hok : status = 0 → ∃ cfg, (nonce, cfg) ∈ w.frames ∧ cfg.version = version)
    (hno : status ≠ 0 → ∀ cfg, (nonce, cfg) ∉ w.frames) :
    Inv (w.writeAdminReply n seq nonce status reason version) :=
  { h with
    once := h.once
    accepted := fun a ha => by
      rcases List.mem_snoc.mp ha with ha | rfl
      · exact h.accepted a ha
      · exact hok
    refused := fun a ha => by
      rcases List.mem_snoc.mp ha with ha | rfl
      · exact h.refused a ha
      · exact hno
    answered := fun a ha => by
      rcases List.mem_snoc.mp ha with ha | rfl
      · exact h.answered a ha
      · exact hasked }

theorem proposeAndAppend_spec (k : AdminKernel) (c : AppendChoice) (op : ℕ) (id : NodeId) (ip port : ℕ) :
    (∃ cfg, (k.proposeAndAppend c op id ip port).2.1 = some cfg ∧
        (k.proposeAndAppend c op id ip port).1.1 = 0 ∧
        (k.proposeAndAppend c op id ip port).1.2.2 = cfg.version) ∨
      ((k.proposeAndAppend c op id ip port).2.1 = none ∧ (k.proposeAndAppend c op id ip port).1.1 ≠ 0) := by
  unfold AdminKernel.proposeAndAppend
  cases wireToConfigOp op id ip port with
  | none => exact .inr ⟨rfl, Nat.one_ne_zero⟩
  | some configOp =>
    dsimp only
    cases k.sm.proposeConfig configOp k.admissionBytes with
    | error e => exact .inr ⟨rfl, Nat.one_ne_zero⟩
    | ok newCfg =>
      dsimp only
      split
      · exact .inr ⟨rfl, Nat.succ_ne_zero 1⟩
      · split
        · exact .inl ⟨newCfg, rfl, rfl, rfl⟩
        · exact .inr ⟨rfl, Nat.succ_ne_zero 1⟩

theorem Inv.evaluate (h : Inv w) (n : NodeId) (c : AppendChoice) {nonce : ℕ} (op : ℕ) (id : NodeId)
    (ip port : ℕ) (hasked : nonce ∈ w.requests) (hnew : nonce ∉ w.evaluated.map ConfigReply.nonce)
    (hopen : ∀ a ∈ w.answers, a.reply.nonce ≠ nonce) :
    Inv (w.evaluate n c nonce op id ip port).2 := by
  have hframe : ∀ cfg, (nonce, cfg) ∉ w.frames := fun cfg hcfg => hnew (h.framesEvaluated _ hcfg)
  have hspec := proposeAndAppend_spec (w.nodes n).kernel c op id ip port
  unfold AdminNet.evaluate
  dsimp only
  generalize (w.nodes n).kernel.proposeAndAppend c op id ip port = res at hspec ⊢
  obtain ⟨⟨status, reason, version⟩, frame, k⟩ := res
  dsimp only at hspec ⊢
  have hother : ∀ e ∈ w.evaluated, e.nonce ≠ nonce := fun e he heq => hnew (heq ▸ List.mem_map_of_mem he)
  have hkeep : ∀ {x : ℕ × ClusterConfig}, x.1 ≠ nonce →
      (x ∈ w.frames ++ (frame.map fun cfg => (nonce, cfg)).toList ↔ x ∈ w.frames) := by
    intro x hx
    rw [List.mem_append, or_iff_left]
    intro hmem
    rw [Option.mem_toList, Option.map_eq_some_iff] at hmem
    obtain ⟨cfg, -, rfl⟩ := hmem
    exact hx rfl
  have hset : Inv (w.setNode n { w.nodes n with kernel := k }) := h.setNode n (h.cached n) (h.pending n)
  have hnew' : ∀ e : ConfigReply, e ∈ w.evaluated ++ [⟨nonce, status, reason, version⟩] →
      e ∈ w.evaluated ∨ e = ⟨nonce, status, reason, version⟩ := fun e he =>
    (List.mem_append.mp he).imp_right List.mem_singleton.mp
  refine { hset with
    once := ?_, accepted := ?_, refused := ?_, evaluatedOnce := ?_, evaluatedAsked := ?_, appended := ?_
    notAppended := ?_, framesEvaluated := ?_, replied := ?_, cached := ?_ }
  · rw [List.map_append]
    refine List.Nodup.append h.once ?_ ?_
    · cases frame <;> simp
    · intro m hm hm'
      obtain ⟨x, hx, rfl⟩ := List.mem_map.mp hm
      obtain ⟨y, hy, hxy⟩ := List.mem_map.mp hm'
      rw [Option.mem_toList, Option.map_eq_some_iff] at hy
      obtain ⟨cfg, -, rfl⟩ := hy
      have hx' : (nonce, x.2) ∈ w.frames := by
        rw [show nonce = x.1 from hxy]
        exact hx
      exact hframe x.2 hx'
  · intro a ha hstatus
    obtain ⟨cfg, hcfg, hversion⟩ := h.accepted a ha hstatus
    exact ⟨cfg, (hkeep (hopen a ha)).mpr hcfg, hversion⟩
  · intro a ha hstatus cfg hcfg
    exact h.refused a ha hstatus cfg ((hkeep (hopen a ha)).mp hcfg)
  · rw [List.map_append]
    refine List.Nodup.append h.evaluatedOnce (List.nodup_singleton _) ?_
    intro m hm hm'
    obtain rfl := List.mem_singleton.mp hm'
    exact hnew hm
  · intro e he
    rcases hnew' e he with he | rfl
    · exact h.evaluatedAsked e he
    · exact hasked
  · intro e he hstatus
    rcases hnew' e he with he | rfl
    · obtain ⟨cfg, hcfg, hversion⟩ := h.appended e he hstatus
      exact ⟨cfg, (hkeep (hother e he)).mpr hcfg, hversion⟩
    · rcases hspec with ⟨cfg, rfl, -, hversion⟩ | ⟨-, hne⟩
      · exact ⟨cfg, List.mem_concat_self, hversion.symm⟩
      · exact absurd hstatus hne
  · intro e he hstatus cfg hcfg
    rcases hnew' e he with he | rfl
    · exact h.notAppended e he hstatus cfg ((hkeep (hother e he)).mp hcfg)
    · rcases hspec with ⟨-, -, hzero, -⟩ | ⟨rfl, -⟩
      · exact hstatus hzero
      · rw [Option.map_none, Option.toList_none, List.append_nil] at hcfg
        exact hframe cfg hcfg
  · intro x hx
    rw [List.map_append]
    by_cases hxn : x.1 = nonce
    · exact List.mem_append_right _ (List.mem_singleton.mpr hxn)
    · exact List.mem_append_left _ (h.framesEvaluated x ((hkeep hxn).mp hx))
  · exact fun r hr => List.mem_append_left _ (h.replied r hr)
  · exact fun m x hx => List.mem_append_left _ (hset.cached m x hx)

theorem Inv.giveUp (h : Inv w) {n : NodeId} (hmay : w.MayGiveUp n) : Inv (w.giveUp n) := by
  unfold AdminNet.giveUp
  cases hold : (w.nodes n).pendingAdminFwd with
  | none => exact h
  | some old =>
    have hset : Inv (w.setNode n { w.nodes n with pendingAdminFwd := none }) :=
      h.setNode n (h.cached n) nofun
    refine hset.answer (h.pending n old hold) (absurd · (Nat.succ_ne_zero 1)) fun _ cfg hcfg => ?_
    exact hmay old hold (List.mem_map_of_mem hcfg)

theorem Inv.answerProposal (h : Inv w) {src dst : NodeId} {body : ConfigProposal} {c : AppendChoice}
    (hsent : (src, dst, body) ∈ w.proposals) (hnew : body.nonce ∉ w.evaluated.map ConfigReply.nonce)
    (hopen : ∀ a ∈ w.answers, a.reply.nonce ≠ body.nonce) : Inv (w.answerProposal src dst body c) := by
  have heval := h.evaluate dst c body.op body.id body.ip body.port (h.proposed _ hsent) hnew hopen
  have hreply : (w.evaluate dst c body.nonce body.op body.id body.ip body.port).1 ∈
      (w.evaluate dst c body.nonce body.op body.id body.ip body.port).2.evaluated :=
    List.mem_concat_self
  unfold AdminNet.answerProposal
  generalize w.evaluate dst c body.nonce body.op body.id body.ip body.port = res at heval hreply ⊢
  obtain ⟨reply, v⟩ := res
  have hset : Inv (v.setNode dst { v.nodes dst with lastConfigReply := some (body.nonce, reply) }) := by
    refine heval.setNode dst (fun x hx => ?_) (heval.pending dst)
    cases hx
    exact hreply
  exact { hset with
    once := hset.once
    accepted := hset.accepted
    refused := hset.refused
    replied := fun r hr => by
      rcases List.mem_snoc.mp hr with hr | rfl
      · exact hset.replied r hr
      · exact hreply }

theorem Inv.handleAdmin (h : Inv w) {n : NodeId} {req : AdminReq} {refused : Option ℕ} {c : AppendChoice}
    (hasked : req.nonce ∈ w.requests) (hnew : req.nonce ∉ w.evaluated.map ConfigReply.nonce)
    (hopen : ∀ a ∈ w.answers, a.reply.nonce ≠ req.nonce)
    (hmay : refused = none → (w.nodes n).kernel.sm.role ≠ .leader → (w.nodes n).kernel.leaderHint ≠ none →
      w.MayGiveUp n) :
    Inv (w.handleAdmin n req refused c) := by
  have hframe : ∀ cfg, (req.nonce, cfg) ∉ w.frames := fun cfg hcfg => hnew (h.framesEvaluated _ hcfg)
  unfold AdminNet.handleAdmin
  cases refused with
  | some reason => exact h.answer hasked (absurd · Nat.one_ne_zero) fun _ => hframe
  | none =>
    dsimp only
    by_cases hlead : (w.nodes n).kernel.sm.role = .leader
    · rw [if_pos hlead]
      have heval := h.evaluate n c req.op req.id req.ip req.port hasked hnew hopen
      have hreply : (w.evaluate n c req.nonce req.op req.id req.ip req.port).1 ∈
          (w.evaluate n c req.nonce req.op req.id req.ip req.port).2.evaluated :=
        List.mem_concat_self
      have hnonce : (w.evaluate n c req.nonce req.op req.id req.ip req.port).1.nonce = req.nonce := rfl
      generalize w.evaluate n c req.nonce req.op req.id req.ip req.port = res at heval hreply hnonce ⊢
      obtain ⟨reply, v⟩ := res
      dsimp only at heval hreply hnonce ⊢
      rw [← hnonce]
      exact heval.answer (heval.evaluatedAsked _ hreply) (heval.appended _ hreply)
        (heval.notAppended _ hreply)
    · rw [if_neg hlead]
      cases hhint : (w.nodes n).kernel.leaderHint with
      | none => exact h.answer hasked (absurd · (Nat.succ_ne_zero 1)) fun _ => hframe
      | some leader =>
        have hgive := h.giveUp (hmay rfl hlead (by rw [hhint]; exact Option.some_ne_none leader))
        have hrequests : (w.giveUp n).requests = w.requests := by
          unfold AdminNet.giveUp
          cases (w.nodes n).pendingAdminFwd <;> rfl
        generalize w.giveUp n = v at hgive hrequests ⊢
        have hset : Inv (v.setNode n { v.nodes n with pendingAdminFwd := some ⟨req.seq, req.nonce⟩ }) := by
          refine hgive.setNode n (hgive.cached n) fun p hp => ?_
          cases hp
          rw [hrequests]
          exact hasked
        exact { hset with
          once := hset.once
          accepted := hset.accepted
          refused := hset.refused
          proposed := fun p hp => by
            rcases List.mem_snoc.mp hp with hp | rfl
            · exact hset.proposed p hp
            · exact hrequests ▸ hasked }

theorem Inv.exec (h : Inv w) {step : AdminStep} (hp : w.Possible step) (hr : w.Recognised step) :
    Inv (w.exec step) := by
  cases step with
  | request n req refused c =>
    simp only [AdminNet.exec]
    by_cases hseq : (w.nodes n).lastAdminSeq < req.seq
    · rw [if_pos hseq]
      have hset : Inv (w.setNode n { w.nodes n with lastAdminSeq := req.seq }) :=
        h.setNode n (h.cached n) (h.pending n)
      have hmore : ∀ {m : ℕ}, m ∈ w.requests → m ∈ w.requests ++ [req.nonce] :=
        fun hm => List.mem_append_left _ hm
      have hread : Inv { w.setNode n { w.nodes n with lastAdminSeq := req.seq } with
          requests := w.requests ++ [req.nonce] } :=
        { hset with
          once := hset.once
          accepted := hset.accepted
          refused := hset.refused
          evaluatedAsked := fun e he => hmore (hset.evaluatedAsked e he)
          proposed := fun p hp => hmore (hset.proposed p hp)
          pending := fun m p hp => hmore (hset.pending m p hp)
          answered := fun a ha => hmore (hset.answered a ha) }
      refine hread.handleAdmin (List.mem_concat_self) ?_ ?_ ?_
      · intro hmem
        obtain ⟨e, he, heq⟩ := List.mem_map.mp hmem
        exact hp (heq ▸ h.evaluatedAsked e he)
      · intro a ha heq
        exact hp (heq ▸ h.answered a ha)
      · intro hrefused hlead hhint
        simp only [AdminNet.setNode, Function.update_self] at hlead hhint
        intro old hold
        simp only [AdminNet.setNode, Function.update_self] at hold
        exact hr hrefused hseq hlead hhint old hold
    · rw [if_neg hseq]
      exact h
  | proposal src dst body c =>
    simp only [AdminNet.exec, AdminNet.onConfigProposal]
    by_cases hlead : (w.nodes dst).kernel.sm.role = .leader
    · rw [if_neg (not_not.mpr hlead)]
      by_cases hmember : src ∈ (w.nodes dst).kernel.addrToId
      · rw [if_neg (not_not.mpr hmember)]
        cases hcache : (w.nodes dst).lastConfigReply with
        | none =>
          obtain ⟨hnew, hopen⟩ := hr ⟨hlead, hmember, by rw [hcache]; exact nofun⟩
          exact h.answerProposal hp hnew hopen
        | some x =>
          obtain ⟨nonce, reply⟩ := x
          dsimp only
          by_cases hsame : nonce = body.nonce
          · rw [if_pos hsame]
            exact { h with
              once := h.once
              accepted := h.accepted
              refused := h.refused
              replied := fun r hr => by
                rcases List.mem_snoc.mp hr with hr | rfl
                · exact h.replied r hr
                · exact h.cached dst (nonce, reply) hcache }
          · rw [if_neg hsame]
            obtain ⟨hnew, hopen⟩ := hr ⟨hlead, hmember, by
              rw [hcache, Option.map_some, ne_eq, Option.some.injEq]
              exact hsame⟩
            exact h.answerProposal hp hnew hopen
      · rw [if_pos hmember]
        exact h
    · rw [if_pos hlead]
      exact h
  | reply dst body =>
    simp only [AdminNet.exec, AdminNet.onConfigReply]
    cases hpending : (w.nodes dst).pendingAdminFwd with
    | none => exact h
    | some pending =>
      dsimp only
      by_cases hsame : pending.nonce = body.nonce
      · rw [if_neg (not_not.mpr hsame), hsame]
        have hbody := h.replied _ hp
        have hset : Inv (w.setNode dst { w.nodes dst with pendingAdminFwd := none }) :=
          h.setNode dst (h.cached dst) nofun
        exact hset.answer (h.evaluatedAsked _ hbody) (h.appended _ hbody) (h.notAppended _ hbody)
      · rw [if_pos hsame]
        exact h
  | kernel n k => exact h.setNode n (h.cached n) (h.pending n)
  | invalidate n =>
    have hset : Inv (w.setNode n { w.nodes n with lastConfigReply := none }) :=
      h.setNode n nofun (h.pending n)
    refine hset.giveUp fun old hold => ?_
    simp only [AdminNet.setNode, Function.update_self] at hold
    exact hr old hold

/-- In a run where leaders evaluate no proposal again, nor for a request that was
    answered, and no forward is given up after its change was appended, every request
    is appended at most once, with the version it is told, and never when it is told
    otherwise. -/
theorem truthful_run (kernels : NodeId → AdminKernel) {steps : List AdminStep}
    (h : Trace.Admits exec Possible (fresh kernels) steps)
    (hr : Trace.Admits exec Recognised (fresh kernels) steps) : Truthful (run (fresh kernels) steps) := by
  have hinv : Inv (run (fresh kernels) steps) := by
    refine Trace.Admits.rule (P := fun steps => Inv (run (fresh kernels) steps)) (inv_fresh kernels)
      (fun steps step ih hok => ?_) (h.both hr)
    rw [run, List.foldl_append]
    exact ih.exec hok.1 hok.2
  exact hinv.toTruthful

/-- Three voters and a learner; node 1 leads and node 2 knows it. -/
def threeVoters (n : NodeId) : AdminKernel where
  sm := { (default : ElectionSm) with
    id := n
    role := if n = 1 then .leader else .follower
    serving := decide (n = 1)
    config := ⟨5, [(1, (0, 1)), (2, (0, 2)), (3, (0, 3))], [(4, (0, 4))], []⟩ }
  admissionBytes := 4096
  membershipReconciledLatched := true
  configVersion := 5
  leaderHint := some 1
  addrToId := [1, 2, 3, 4]

/-- The leader sees its log committed up to a position. -/
def commits (steps : List AdminStep) (pos : ℕ) : AdminStep :=
  let k := ((run (fresh threeVoters) steps).nodes 1).kernel
  .kernel 1 { k with sm := { k.sm with commitSeen := pos } }

/-- Request 10, at node 2, is to promote node 4. -/
def promote : List AdminStep :=
  [.request 2 ⟨1, 10, 2, 4, 0, 0⟩ none ⟨true, true, 0⟩, .proposal 2 1 ⟨10, 2, 4, 0, 0⟩ ⟨true, true, 96⟩,
    .reply 2 ⟨10, 0, 0, 6⟩]

/-- Request 11, at node 2, is to demote it. -/
def demote : List AdminStep :=
  [.request 2 ⟨2, 11, 3, 4, 0, 0⟩ none ⟨true, true, 0⟩, .proposal 2 1 ⟨11, 3, 4, 0, 0⟩ ⟨true, true, 192⟩,
    .reply 2 ⟨11, 0, 0, 7⟩]

def promoteAndDemote : List AdminStep := promote ++ commits promote 96 :: demote

theorem truthful_run_promote :
    (Trace.Admits exec Possible (fresh threeVoters) promoteAndDemote ∧
      Trace.Admits exec Recognised (fresh threeVoters) promoteAndDemote) ∧
      (run (fresh threeVoters) promoteAndDemote).frames.map (fun x => (x.1, x.2.version)) =
        [(10, 6), (11, 7)] ∧
      Truthful (run (fresh threeVoters) promoteAndDemote) := by
  have h : Trace.Admits exec Possible (fresh threeVoters) promoteAndDemote := by decide +kernel
  have hr : Trace.Admits exec Recognised (fresh threeVoters) promoteAndDemote := by decide +kernel
  exact ⟨⟨h, hr⟩, by decide +kernel, truthful_run threeVoters h hr⟩

/-- The proposal of request 10 comes again after that of request 11, and is taken up
    again. -/
def promoteAgain : List AdminStep :=
  promoteAndDemote ++ [commits promoteAndDemote 192, .proposal 2 1 ⟨10, 2, 4, 0, 0⟩ ⟨true, true, 288⟩]

theorem promoted_twice :
    Trace.Admits exec Possible (fresh threeVoters) promoteAgain ∧
      (run (fresh threeVoters) promoteAgain).frames.map (fun x => (x.1, x.2.version)) =
        [(10, 6), (11, 7), (10, 8)] ∧
      ¬ Truthful (run (fresh threeVoters) promoteAgain) := by
  refine ⟨by decide +kernel, by decide +kernel, fun h => ?_⟩
  have hframes : (run (fresh threeVoters) promoteAgain).frames.map Prod.fst = [10, 11, 10] := by decide +kernel
  have honce := h.once
  rw [hframes] at honce
  exact absurd honce (by decide)

end AdminNet

end UltimaCluster
