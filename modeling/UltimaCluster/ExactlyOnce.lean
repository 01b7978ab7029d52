/-
  Exactly-once, and what a restart makes of it.

  `sessioned_exactly_once` puts together the three parts, for every inner machine,
  every configuration and every log: what a repeat is answered and changes, the
  bounds of the table, and that a machine restarted from an artifact cannot be told
  from one that never stopped. The last is for every codec of the image that reads
  back what it writes, and for tables whose encoding an install accepts; `freeze`
  writes longer ones too (`frozen_table_refused`).
-/
import Mathlib.Data.UInt
import UltimaCluster.Lib.Bincode
import UltimaCluster.SessionRestart

namespace UltimaCluster

open Std Bincode SnapshotStateMachine

namespace Sessioned

variable {σ : Type}

theorem repeat_answer (S : RawStateMachine σ) (inner : σ) (cfg : SessionConfig)
    {fs : List AppFrame} {i j : ℕ} {f g : AppFrame} {e e' : Envelope} (hij : i < j)
    (hi : fs[i]? = some f) (hj : fs[j]? = some g) (he : f.envelope = some e)
    (he' : g.envelope = some e') (hc : e'.clientId = e.clientId) (hq : e'.seq = e.seq)
    (hstay : ∀ k, i < k → k ≤ j → e.clientId ∈ (recorded S inner cfg fs k).table.clients) :
    ∃ st, (recorded S inner cfg fs j).table.clients[e.clientId]? = some st ∧
      recorded S inner cfg fs (j + 1) = { recorded S inner cfg fs j with
          table := { (recorded S inner cfg fs j).table with
            clients := (recorded S inner cfg fs j).table.clients.insert e.clientId
              { st with lastSeenPos := g.ctx.position } }
          maxPosSeen := some g.ctx.position } ∧ (∀ w ∈ st.window, w.1 = e.seq →
        ((raw S.recorder).step (recorded S inner cfg fs j) g).2.2 = tagReplayed :: w.2 ∧
        ∀ r, (recorded S inner cfg fs (i + 1)).inner.2 =
          (recorded S inner cfg fs i).inner.2 ++ [(⟨f.ctx, .message e.body⟩, r)] → w.2 = r.2) ∧
      ((∀ w ∈ st.window, w.1 ≠ e.seq) →
        ((raw S.recorder).step (recorded S inner cfg fs j) g).2.2 = [tagExpired]) := by
  have hlen : j < fs.length := (List.getElem?_eq_some_iff.mp hj).1
  have hfirst := answered_succ (S := S) hi he (hstay (i + 1) (by omega) (by omega))
  have hans := answered_upTo (by omega) hlen.le hfirst fun k hk hkj => hstay k (by omega) hkj
  have hok : (recorded S inner cfg fs j).table.Ok := recorded_ok j
  rw [recorded_succ hj]
  generalize recorded S inner cfg fs j = s at hans hok ⊢
  have hret := hans.retry (p := g.ctx.position)
  obtain ⟨st, h, hst, -, -, hall⟩ := hans
  have hsee : s.table.see e.clientId g.ctx.position = { st with lastSeenPos := g.ctx.position } := by
    simp [SessionTable.see, hst]
  have hfind : ∀ w ∈ st.window, w.1 = e.seq → st.window.find? (·.1 = e.seq) = some w := by
    intro w hw hwq
    have hnodup : (st.window.map Prod.fst).Nodup := by
      refine List.pairwise_map.mpr ((hok.sane _ _ hst).sorted.imp fun {a b} hab heq => ?_)
      grind
    obtain ⟨w', hw'⟩ := Option.isSome_iff_exists.mp
      (List.find?_isSome.mpr ⟨w, hw, by simpa using hwq⟩ : (st.window.find? (·.1 = e.seq)).isSome)
    have hw'q : w'.1 = e.seq := by simpa using List.find?_some hw'
    rw [hw', List.inj_on_of_nodup_map hnodup (List.mem_of_find?_eq_some hw') hw (hw'q.trans hwq.symm)]
  obtain ⟨out, hr, hout⟩ : ∃ out, (s.table.see e.clientId g.ctx.position).retry e.seq = some out ∧
      ((∀ w ∈ st.window, w.1 = e.seq → out = tagReplayed :: w.2) ∧
        ((∀ w ∈ st.window, w.1 ≠ e.seq) → out = [tagExpired])) := by
    rw [hsee] at hret ⊢
    rcases hret with ⟨w₀, hw₀, -, hr⟩ | ⟨hnone, hr⟩
    · refine ⟨_, hr, fun w hw hwq => ?_, fun hno => ?_⟩
      · rw [Option.some.inj (hw₀.symm.trans (hfind w hw hwq))]
      · exact absurd (by simpa using List.find?_some hw₀) (hno w₀ (List.mem_of_find?_eq_some hw₀))
    · refine ⟨_, hr, fun w hw hwq => ?_, fun _ => rfl⟩
      cases hnone.symm.trans (hfind w hw hwq)
  rw [← hc, ← hq] at hr
  refine ⟨st, hst, ?_, fun w hw hwq => ⟨?_, hall w hw hwq⟩, fun hno => ?_⟩
  · rw [step_retry he' hr, hc, hsee]
  · rw [step_retry he' hr]
    exact hout.1 w hw hwq
  · rw [step_retry he' hr]
    exact hout.2 hno

/-- A restart after the frames `pre`, with any part `ks` of them fed again. -/
theorem restart_same {codec : ImageCodec TableImage} (hcodec : codec.Lawful)
    {S : SnapshotStateMachine σ} (hS : S.Conforms) (inner : σ) (cfg : SessionConfig)
    {pre ks post : List AppFrame} {img blob : Bytes} {p P : UInt64} {live : Sessioned σ}
    (ho : AppFrame.Ordered (pre ++ post))
    (hnew : ∀ c ∈ S.lastApplied inner, c < P ∧ ∀ f ∈ pre ++ post, c < f.ctx.position)
    (hks : ks <:+ pre) (hP : ∀ f ∈ pre, f.ctx.position < P) (hlive : live.table.cfg = cfg)
    (hfreeze : S.freeze ((machine codec S).run (.new inner cfg) pre).inner = .ok (img, p))
    (hblob : codec.encodeToVec ((machine codec S).run (.new inner cfg) pre).image = .ok blob)
    (hlen : blob.length ≤ maxTableBlobLen) :
    ∃ art b, (machine codec S).freeze ((machine codec S).run (.new inner cfg) pre) = .ok (art, p) ∧
      (machine codec S).installSnapshot live P art = .ok (b, P) ∧
      (machine codec S).replayAnswers ((machine codec S).replay b ks) post =
        ((machine codec S).answers ((machine codec S).run (.new inner cfg) pre) post).map some ∧
      ∀ n, Lift Eq ((machine codec S).run (.new inner cfg) (pre ++ post.take n))
        ((machine codec S).replay b (ks ++ post.take n)) := by
  have hok := run_ok (S := S.toRawStateMachine) (s := .new inner cfg) (SessionTable.Ok.new cfg) pre
  have hcfg := run_cfg (S := S.toRawStateMachine) (s := .new inner cfg) (SessionTable.Ok.new cfg) pre
  let R := resumable hcodec hS.resumable hS.apply_seen
  have hart := freeze_eq hfreeze hblob
  have hwithin : codec.Within ((machine codec S).run (.new inner cfg) pre).image maxTableBlobLen := by
    intro b hb
    rw [hblob] at hb
    cases hb
    exact hlen
  have hcursor : ∀ c ∈ R.cursor ((machine codec S).run (.new inner cfg) pre), c < P := by
    intro c hc
    rcases R.run_cursor hc with hc | ⟨f, hf, rfl⟩
    · exact (hnew c hc).1
    · exact hP f hf
  have hpeer : R.Peer live ((machine codec S).run (.new inner cfg) pre) :=
    ⟨trivial, hlive.trans hcfg.symm⟩
  obtain ⟨b, hb, hsame, hseen, -⟩ := R.restore ⟨trivial, hwithin, hok.exact⟩ hpeer hart hcursor
  have hstart : ∀ f ∈ pre ++ post, ∀ c ∈ R.cursor (.new inner cfg), c < f.ctx.position :=
    fun f hf c hc => (hnew c hc).2 f hf
  refine ⟨_, b, hart, hb, (R.replay_same ho hstart hsame hseen hks).2.2, fun n => ?_⟩
  have hsub : (pre ++ post.take n).Sublist (pre ++ post) :=
    (List.take_sublist n post).append_left pre
  obtain ⟨hback, hreplay, -⟩ :=
    R.replay_same (ho.sublist hsub) (fun f hf => hstart f (hsub.mem hf)) hsame hseen hks
  rw [hreplay, RawStateMachine.run_append]
  exact R.sim.run hback _

/-- **Exactly-once.** Over every log, a repeat of a pair whose client has stayed in
    the table does not reach the inner machine and changes nothing but last-seen; it
    gets the first response back if the window holds it. The table keeps its bounds.
    And a machine restarted from an artifact of any point, over whatever part of the
    log before it is fed again, answers and evicts as one that never stopped. -/
theorem sessioned_exactly_once (codec : ImageCodec TableImage) (S : SnapshotStateMachine σ) (inner : σ)
    (cfg : SessionConfig) :
    (∀ (fs : List AppFrame) (i j : ℕ) (f g : AppFrame) (e e' : Envelope), i < j →
      fs[i]? = some f → fs[j]? = some g → f.envelope = some e → g.envelope = some e' →
      e'.clientId = e.clientId → e'.seq = e.seq → (∀ k, i < k → k ≤ j →
        e.clientId ∈ (recorded S.toRawStateMachine inner cfg fs k).table.clients) →
      ∃ st, (recorded S.toRawStateMachine inner cfg fs j).table.clients[e.clientId]? = some st ∧
        recorded S.toRawStateMachine inner cfg fs (j + 1) =
          { recorded S.toRawStateMachine inner cfg fs j with
            table := { (recorded S.toRawStateMachine inner cfg fs j).table with
              clients := (recorded S.toRawStateMachine inner cfg fs j).table.clients.insert e.clientId
                { st with lastSeenPos := g.ctx.position } }
            maxPosSeen := some g.ctx.position } ∧ (∀ w ∈ st.window, w.1 = e.seq →
          ((raw S.recorder).step (recorded S.toRawStateMachine inner cfg fs j) g).2.2 =
            tagReplayed :: w.2 ∧ ∀ r, (recorded S.toRawStateMachine inner cfg fs (i + 1)).inner.2 =
            (recorded S.toRawStateMachine inner cfg fs i).inner.2 ++
              [(⟨f.ctx, .message e.body⟩, r)] → w.2 = r.2) ∧ ((∀ w ∈ st.window, w.1 ≠ e.seq) →
          ((raw S.recorder).step (recorded S.toRawStateMachine inner cfg fs j) g).2.2 =
            [tagExpired])) ∧
    (∀ fs : List AppFrame,
      ((machine codec S).run (.new inner cfg) fs).table.totalBytes =
        MapSum.total ClientState.windowBytes ((machine codec S).run (.new inner cfg) fs).table.clients ∧
      ((machine codec S).run (.new inner cfg) fs).table.totalBytes ≤ cfg.maxBytes.toNat ∧
      ((machine codec S).run (.new inner cfg) fs).table.clients.size ≤ cfg.maxClients.toNat) ∧
    (codec.Lawful → S.Conforms → ∀ (pre ks post : List AppFrame) (img blob : Bytes) (p P : UInt64)
        (live : Sessioned σ),
      AppFrame.Ordered (pre ++ post) →
      (∀ c ∈ S.lastApplied inner, c < P ∧ ∀ f ∈ pre ++ post, c < f.ctx.position) →
      ks <:+ pre → (∀ f ∈ pre, f.ctx.position < P) → live.table.cfg = cfg →
      S.freeze ((machine codec S).run (.new inner cfg) pre).inner = .ok (img, p) →
      codec.encodeToVec ((machine codec S).run (.new inner cfg) pre).image = .ok blob →
      blob.length ≤ maxTableBlobLen →
      ∃ art b, (machine codec S).freeze ((machine codec S).run (.new inner cfg) pre) = .ok (art, p) ∧
        (machine codec S).installSnapshot live P art = .ok (b, P) ∧
        (machine codec S).replayAnswers ((machine codec S).replay b ks) post =
          ((machine codec S).answers ((machine codec S).run (.new inner cfg) pre) post).map some ∧
        ∀ n, Lift Eq ((machine codec S).run (.new inner cfg) (pre ++ post.take n))
          ((machine codec S).replay b (ks ++ post.take n))) := by
  refine ⟨?_, fun fs => ?_, ?_⟩
  · intro fs i j f g e e' hij hi hj he he' hc hq hstay
    exact repeat_answer S.toRawStateMachine inner cfg hij hi hj he he' hc hq hstay
  · have hok := run_ok (S := S.toRawStateMachine) (s := .new inner cfg) (SessionTable.Ok.new cfg) fs
    have hcfg := run_cfg (S := S.toRawStateMachine) (s := .new inner cfg) (SessionTable.Ok.new cfg) fs
    exact ⟨hok.exact, hok.budget.trans_eq (congrArg (·.maxBytes.toNat) hcfg),
      hok.size.trans_eq (congrArg (·.maxClients.toNat) hcfg)⟩
  · intro hcodec hS pre ks post img blob p P live ho hnew hks hP hlive hfreeze hblob hlen
    exact restart_same hcodec hS inner cfg ho hnew hks hP hlive hfreeze hblob hlen

/-! ## Runs -/

/-- The encoding of `c`, for the crate. -/
def encodedBy {α : Type} (c : Codec α) : ImageCodec α where
  encodeToVec a := .ok (c.enc a)
  decodeFromSlice b := ((c.dec b).map fun r => .ok r.1).getD (.error "UnexpectedEnd")

theorem encodedBy_lawful {α : Type} {c : Codec α} (h : c.Lawful) : (encodedBy c).Lawful := by
  intro a b hb hlen
  cases hb
  have hread := h.reads a hlen []
  rw [List.append_nil] at hread
  simp [encodedBy, hread]

/-- One client of the table. -/
def clientCodec : Codec ClientState :=
  (Codec.u64.option.pair (Codec.u64.pair (Codec.u64.pair Codec.u8.list).list)).via
    (fun st => (st.highestSeq, st.lastSeenPos, st.window)) fun p => ⟨p.1, p.2.1, p.2.2⟩

/-- The image of the table, field by field. -/
def tableCodec : Codec TableImage :=
  (Codec.u64.pair (Codec.u64.pair (Codec.u64.pair (Codec.u64.map clientCodec)))).via
    (fun img => (img.cfg.window, img.cfg.maxClients, img.cfg.maxBytes, img.clients))
    fun p => ⟨⟨p.1, p.2.1, p.2.2.1⟩, p.2.2.2⟩

theorem clientCodec_lawful : clientCodec.Lawful :=
  (Codec.u64_lawful.option.pair
    (Codec.u64_lawful.pair (Codec.u64_lawful.pair Codec.u8_lawful.list).list)).via fun _ => rfl

theorem tableCodec_lawful : tableCodec.Lawful :=
  (Codec.u64_lawful.pair (Codec.u64_lawful.pair
    (Codec.u64_lawful.pair (Codec.u64_lawful.map clientCodec_lawful)))).via fun _ => rfl

/-- `Sessioned` with that encoding. -/
def encoded (S : SnapshotStateMachine σ) : SnapshotStateMachine (Sessioned σ) :=
  machine (encodedBy tableCodec) S

/-- A command of client 7. -/
def command (position : UInt64) (seq : ℕ) (body : Bytes) : AppFrame :=
  ⟨⟨position, 0, 0⟩, .message (Bytes.le 8 7 ++ Bytes.le 8 seq ++ body)⟩

/-- The retry at 96 lies above the cursor of the artifact, and is fed again. -/
theorem sessioned_exactly_once_echo :
    ∃ art b, (encoded (cursorMachine id)).freeze ((encoded (cursorMachine id)).run
          (.new none ⟨4, 4, 100⟩) [command 32 1 [5], command 96 1 [5]]) = .ok (art, 32) ∧
      (encoded (cursorMachine id)).installSnapshot (.new none ⟨4, 4, 100⟩) 160 art = .ok (b, 160) ∧
      (encoded (cursorMachine id)).replayAnswers
          ((encoded (cursorMachine id)).replay b [command 96 1 [5]])
          [command 160 1 [5], command 224 2 [6]] =
        [some ({}, [tagReplayed, 5]), some ({}, [tagFresh, 6])] := by
  obtain ⟨art, b, hfreeze, hinstall, hanswers, -⟩ :=
    (sessioned_exactly_once (encodedBy tableCodec) (cursorMachine id) none ⟨4, 4, 100⟩).2.2
      (encodedBy_lawful tableCodec_lawful) (cursorMachine_conforms id _)
      [command 32 1 [5], command 96 1 [5]] [command 96 1 [5]] [command 160 1 [5], command 224 2 [6]]
      _ _ 32 160 (.new none ⟨4, 4, 100⟩) (by unfold AppFrame.Ordered; decide +kernel)
      (by intro c hc; cases hc) (List.suffix_cons _ _) (by decide +kernel) rfl rfl rfl
      (by decide +kernel)
  refine ⟨art, b, hfreeze, hinstall, hanswers.trans ?_⟩
  decide +kernel

/-- A configuration with room for one response. -/
def roomy : SessionConfig := ⟨1, 1, 2 ^ 31⟩

/-- The table with one response of client 7. -/
def oneResponse (r : Bytes) : SessionTable :=
  ⟨roomy, (∅ : ExtTreeMap UInt64 ClientState).insert 7 ⟨some 1, 32, [(1, r)]⟩, r.length⟩

theorem run_command {reply : Bytes → Bytes} (h : (reply []).length ≤ 2 ^ 31) :
    (encoded (cursorMachine reply)).run (.new none roomy) [command 32 1 []] =
      ⟨some 32, oneResponse (reply []), some 32⟩ := by
  have he : (command 32 1 []).envelope = some ⟨7, 1, []⟩ := by decide +kernel
  have hsee : (SessionTable.new roomy).see 7 32 = ⟨none, 32, []⟩ := rfl
  have hr : ((SessionTable.new roomy).see 7 32).retry 1 = none := rfl
  have hwrite : (SessionTable.new roomy).write 7 1 ((SessionTable.new roomy).see 7 32) (reply []) =
      oneResponse (reply []) := by
    simp only [SessionTable.write, hsee]
    simp [SessionTable.trim, SessionTable.new, roomy, oneResponse]
  have hclients : (oneResponse (reply [])).evictClientsOverCapacity = oneResponse (reply []) := rfl
  have hbytes : (oneResponse (reply [])).evictBytesOverBudget 7 = oneResponse (reply []) := by
    have hover : ¬ (oneResponse (reply [])).cfg.maxBytes.toNat < (oneResponse (reply [])).totalBytes :=
      Nat.not_lt.mpr h
    show SessionTable.evictBytes 7 (1 + 1) _ = _
    rw [SessionTable.evictBytes, if_neg hover]
  show ((raw _).step _ _).1 = _
  rw [step_fresh he hr]
  simp only [Sessioned.mk.injEq]
  refine ⟨rfl, ?_, rfl⟩
  show (SessionTable.new roomy).record 7 1 ((SessionTable.new roomy).see 7 32) (reply []) = _
  rw [SessionTable.record, hwrite, hclients, hbytes]

theorem blob_length {r : Bytes} (h : 2 ^ 16 ≤ r.length) (h' : r.length < 2 ^ 32) :
    (tableCodec.enc (Sessioned.mk (some (32 : UInt64)) (oneResponse r) (some 32)).image).length =
      r.length + 19 := by
  have hr : (varint r.length).length = 5 := by
    unfold varint
    rw [if_neg (by omega), if_neg (by omega), if_pos h']
    rfl
  have hmany : (r.flatMap Codec.u8.enc).length = r.length := by
    show (r.flatMap fun b => [b]).length = _
    simp
  have hlist : ((∅ : ExtTreeMap UInt64 ClientState).insert 7 ⟨some 1, 32, [(1, r)]⟩).toList =
      [(7, ⟨some 1, 32, [(1, r)]⟩)] := rfl
  have h1 : (Codec.u64.enc 1).length = 1 := rfl
  have h7 : (Codec.u64.enc 7).length = 1 := rfl
  have h32 : (Codec.u64.enc 32).length = 1 := rfl
  have h31 : (Codec.u64.enc (2 ^ 31)).length = 5 := rfl
  have hone : (varint (0 + 1)).length = 1 := rfl
  simp only [image, tableCodec, Codec.via, Codec.pair, Codec.map, oneResponse, roomy, hlist]
  simp only [Codec.list, clientCodec, Codec.via, Codec.pair, Codec.option, List.flatMap_cons,
    List.flatMap_nil, List.length_append, List.length_cons, List.length_nil, hr, hmany, h1, h7, h32,
    h31, hone]
  omega

/-- A response of a gibibyte: the artifact is frozen, and no machine installs it. -/
theorem frozen_table_refused :
    ∃ art, (encoded (cursorMachine fun _ => List.replicate (2 ^ 30) 0)).freeze
        ((encoded (cursorMachine fun _ => List.replicate (2 ^ 30) 0)).run (.new none roomy)
          [command 32 1 []]) = .ok (art, 32) ∧
      ∀ live P, (encoded (cursorMachine fun _ => List.replicate (2 ^ 30) 0)).installSnapshot live P art =
        .error (.codec ("session table blob length " ++ toString (2 ^ 30 + 19) ++ " exceeds the " ++
          toString maxTableBlobLen ++ "-byte sanity bound")) := by
  have hsize : (List.replicate (2 ^ 30) (0 : UInt8)).length = 2 ^ 30 := List.length_replicate
  have hblob : (tableCodec.enc (Sessioned.mk (some (32 : UInt64))
      (oneResponse (List.replicate (2 ^ 30) 0)) (some 32)).image).length = 2 ^ 30 + 19 := by
    rw [blob_length (by rw [hsize]; decide) (by rw [hsize]; decide), hsize]
  rw [run_command (by rw [hsize]; decide)]
  refine ⟨_, freeze_eq rfl rfl, fun live P => ?_⟩
  refine (install_too_long (by rw [hblob]; decide) (by rw [hblob]; decide)).trans ?_
  rw [hblob]

end Sessioned

end UltimaCluster
