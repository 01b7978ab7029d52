/-
  The completions of a client.
-/
import UltimaCluster.ClientPieces

namespace UltimaCluster

def ClientCall.userData : ClientCall → ℕ
  | .submitTo userData _ _ | .submitAll userData _ | .queryOn userData _ _ _ => userData

/-- The token that a query is sent with. -/
def Consistency.token : Consistency → ℕ
  | .atLeast token => token
  | .linearizable | .snapshot => 0

/-- The rings that a call awaits: that of its service, or all that are declared. -/
def EngineShared.ringsOf (sh : EngineShared) : ClientCall → ℕ → Prop
  | .submitTo _ id _ | .queryOn _ id _ _ => fun ring => ring = id
  | .submitAll _ _ => fun ring => sh.declared.testBit ring

namespace ClientEngine

variable {w w' : ClientEngine} {s t i d : ℕ} {c : Claim}

/-! ## Maintenance -/

/-- The pass that is under way will still come to the slot of the number, and
    find its deadline passed. -/
def SweepAhead (w : ClientEngine) (s d : ℕ) : PollPc → Prop
  | .clock | .scan (.restart _) _ _ => True
  | .scan (.sweep now) i stage =>
    d ≤ now ∧ (i < w.table.slotIndex s ∨ i = w.table.slotIndex s ∧
      match stage with
      | .owner => True
      | .deadline owner | .userData owner | .exchange owner _ => owner = s + 1
      | .finish _ _ => False)
  | _ => False

/-- A request that is done, or that was written and the pass completes. -/
structure Pending (w : ClientEngine) (s : ℕ) (c : Claim) : Prop where
  claim : w.claims s = some c
  life : w.life s = .done ∨ s ∈ w.sent ∧
    (w.life s = .won ∨ w.life s = .live ∧ w.SweepAhead s c.body.deadlineNs w.poll)

theorem sweepAhead_congr {pc : PollPc} (hlen : w'.table.len = w.table.len)
    (h : w.SweepAhead s d pc) : w'.SweepAhead s d pc := by
  have hidx : w'.table.slotIndex s = w.table.slotIndex s := by
    rw [SlotTable.slotIndex, SlotTable.slotIndex, hlen]
  cases pc with
  | scan mode i stage =>
    cases mode with
    | sweep now => simpa only [SweepAhead, hidx] using h
    | _ => exact h
  | _ => exact h

theorem Pending.touches (h : w.Pending s c) {s₀ : ℕ} (htouch : Touches w w' t s₀) :
    w'.Pending s c := by
  obtain ⟨hc, hlife⟩ := h
  refine ⟨htouch.claims_kept hc, ?_⟩
  by_cases hne : s = s₀
  · subst hne
    exact .inl (htouch.done.mpr (hlife.resolve_right fun h => htouch.unsent h.1))
  · rw [htouch.life s hne, htouch.sent s hne, htouch.poll]
    refine hlife.imp id fun ⟨hsent, h⟩ => ⟨hsent, h.imp id fun ⟨hl, hs⟩ => ⟨hl, ?_⟩⟩
    exact sweepAhead_congr htouch.len hs

theorem sweepAhead_scanStep (hown : w.Own) {mode : ScanMode} {stage : ScanStage}
    (hl : w.life s = .live) (hc : w.claims s = some c)
    (hahead : w.SweepAhead s c.body.deadlineNs (.scan mode i stage))
    (hl' : (w.scanStep mode i stage).life s = .live) :
    w.SweepAhead s c.body.deadlineNs (w.scanStep mode i stage).poll := by
  obtain ⟨howner, hmatch⟩ := hown.live s c hl hc
  have hlt := hown.slotIndex_lt s
  -- on to the next slot, from one before the number's
  have next : ∀ now, c.body.deadlineNs ≤ now → i < w.table.slotIndex s →
      w.SweepAhead s c.body.deadlineNs (.scan (.sweep now) (i + 1) .owner) := fun now hnow hi =>
    ⟨hnow, (Nat.lt_or_eq_of_le hi).imp id fun h => ⟨h, trivial⟩⟩
  cases mode with
  | abort => exact hahead.elim
  | restart current =>
    cases stage <;> dsimp only [ClientEngine.scanStep] <;> first
      | trivial
      | (split <;> first
          | trivial
          | (split <;> trivial))
  | sweep now =>
    obtain ⟨hnow, hi⟩ := hahead
    cases stage with
    | owner =>
      dsimp only [ClientEngine.scanStep]
      have hlen : ¬ w.table.len ≤ i := by
        rcases hi with hi | ⟨hi, -⟩ <;> omega
      rw [if_neg hlen]
      split
      · refine ⟨hnow, hi.imp id fun ⟨hi, _⟩ => ⟨hi, ?_⟩⟩
        rw [SlotTable.slot, ← hi] at howner
        exact howner
      · rename_i hocc
        obtain hi | ⟨hi, -⟩ := hi
        · exact next now hnow hi
        · refine absurd ?_ hocc
          rw [hi]
          exact (hown.here hl).1
    | deadline owner =>
      dsimp only [ClientEngine.scanStep]
      split
      · obtain hi | ⟨hi, -⟩ := hi
        · exact next now hnow hi
        · have hdead := hmatch.deadlineNs
          rw [SlotTable.slot, ← hi] at hdead
          omega
      · exact ⟨hnow, hi⟩
    | userData owner => exact ⟨hnow, hi⟩
    | exchange owner ud =>
      dsimp only [ClientEngine.scanStep] at hl' ⊢
      obtain hi | ⟨hi, ho⟩ := hi
      · split
        · exact ⟨hnow, .inl hi⟩
        · exact next now hnow hi
      · have hown' : (w.table.slots i).owner = owner := by
          rw [SlotTable.slot, ← hi] at howner
          rw [howner, ho]
        rw [if_pos hown', ho, Nat.add_sub_cancel] at hl'
        simp [setLife] at hl'
    | finish owner ud =>
      obtain hi | ⟨-, hfalse⟩ := hi
      · exact next now hnow hi
      · exact hfalse.elim

theorem scanStep_len (w : ClientEngine) (mode : ScanMode) (i : ℕ) (stage : ScanStage) :
    (w.scanStep mode i stage).table.len = w.table.len := by
  cases stage <;> dsimp only [ClientEngine.scanStep] <;> first
    | rfl
    | (split <;> first
        | rfl
        | (split <;> rfl))

theorem Pending.scanStep (h : w.Pending s c) (hown : w.Own) {mode : ScanMode} {stage : ScanStage}
    (hpc : w.poll = .scan mode i stage) : (w.scanStep mode i stage).Pending s c := by
  obtain ⟨hc, hlife⟩ := h
  have hun := untouched_scanStep w mode i stage
  refine ⟨hun.claims ▸ hc, ?_⟩
  rw [hun.sent]
  obtain heq | ⟨hold, hwon⟩ | ⟨-, hdone⟩ := life_scanStep hown hpc s
  · rw [heq]
    refine hlife.imp id fun ⟨hsent, h⟩ => ⟨hsent, h.imp id fun ⟨hl, hs⟩ => ⟨hl, ?_⟩⟩
    rw [hpc] at hs
    exact sweepAhead_congr (scanStep_len w mode i stage)
      (sweepAhead_scanStep hown hl hc hs (heq.trans hl))
  · refine .inr ⟨(hlife.resolve_left ?_).1, .inl hwon⟩
    rw [hold]
    decide
  · exact .inl hdone

theorem Pending.done_of_idle (h : w.Pending s c) (hown : w.Own) (hpc : w.poll = .idle) :
    w.life s = .done := by
  obtain hdone | ⟨-, hwon | ⟨-, hahead⟩⟩ := h.life
  · exact hdone
  · have hfin := hown.won s hwon
    rw [hpc] at hfin
    exact hfin.elim
  · rw [hpc] at hahead
    exact hahead.elim

/-- A maintenance pass that starts while a request is live does not pass its slot by. -/
theorem Pending.exec (h : w.Pending s c) (hown : w.Own) (step : EngineStep) (hp : w.Possible step)
    (hclock : ∀ now, step = .poll now → c.body.deadlineNs ≤ now) : (w.exec step).Pending s c := by
  have hstep := hp.1
  cases step with
  | enter t call v =>
    obtain ⟨s₀, htouch⟩ := hown.touches_enter hstep.2 call v
    exact h.touches htouch
  | sender t write =>
    obtain ⟨s₀, htouch⟩ := hown.touches_senderStep hstep write (room_of_possible hp)
    exact h.touches htouch
  | deliver r q =>
    have hdone := h.done_of_idle hown hstep.1
    dsimp only [ClientEngine.exec]
    rw [ClientEngine.deliver]
    split
    · exact h
    · split
      · exact ⟨h.claim, .inl hdone⟩
      · split
        · exact ⟨h.claim, .inl hdone⟩
        · exact h
  | maintain observed =>
    have hdone := h.done_of_idle hown hstep
    dsimp only [ClientEngine.exec]
    rw [ClientEngine.maintain]
    split_ifs <;> exact ⟨h.claim, .inl hdone⟩
  | drainAbort => exact ⟨h.claim, .inl (h.done_of_idle hown hstep)⟩
  | poll now =>
    dsimp only [ClientEngine.exec]
    rw [ClientEngine.pollStep]
    split
    · exact h
    · rename_i r q stage hpc
      have hun := untouched_resolveStep w r q stage
      refine ⟨hun.claims ▸ h.claim, ?_⟩
      rw [hun.sent]
      obtain heq | ⟨hold, hwon⟩ | ⟨-, hdone⟩ := life_resolveStep hown hpc s
      · rw [heq]
        refine h.life.imp id fun hlive => ⟨hlive.1, hlive.2.imp id fun hscan => ?_⟩
        have hahead := hscan.2
        rw [hpc] at hahead
        exact hahead.elim
      · refine .inr ⟨(h.life.resolve_left ?_).1, .inl hwon⟩
        rw [hold]
        decide
      · exact .inl hdone
    · refine ⟨h.claim, h.life.imp id fun hlive => ⟨hlive.1, hlive.2.imp id fun hscan =>
        ⟨hscan.1, hclock now rfl, ?_⟩⟩⟩
      exact (Nat.eq_zero_or_pos (w.table.slotIndex s)).symm.imp id fun h => ⟨h.symm, trivial⟩
    · rename_i mode i stage hpc
      exact h.scanStep hown hpc

/-! ## Runs -/

/-- The invariant of a run. -/
structure Inv (w : ClientEngine) : Prop where
  own : w.Own
  counted : w.Counted
  books : w.Books
  settled : w.Settled

theorem Inv.exec (h : w.Inv) (step : EngineStep) (hp : w.Possible step) : (w.exec step).Inv :=
  ⟨h.own.exec step hp, h.counted.exec h.own step hp, h.books.exec h.own step hp,
    h.settled.exec h.own step hp⟩

theorem inv_start (sh : EngineShared) {maxInflight : ℕ} (hmax : maxInflight < 2 ^ 32)
    (startSeq threads : ℕ) : (start sh maxInflight startSeq threads).Inv :=
  ⟨own_start sh hmax startSeq threads, counted_start sh maxInflight startSeq threads,
    books_start sh maxInflight startSeq threads, settled_start sh maxInflight startSeq threads⟩

variable {steps : List EngineStep}

theorem Inv.run (h : w.Inv) (hr : w.Runs steps) : (w.run steps).Inv := by
  refine Trace.Admits.rule (P := fun steps => (w.run steps).Inv) h (fun steps step hinv hp => ?_) hr
  rw [ClientEngine.run, List.foldl_append]
  exact hinv.exec step hp

theorem Pending.run (h : w.Pending s c) (hinv : w.Inv) (hr : w.Runs steps)
    (hclock : ∀ now, .poll now ∈ steps → c.body.deadlineNs ≤ now) : (w.run steps).Pending s c := by
  induction steps generalizing w with
  | nil => exact h
  | cons step steps ih =>
    refine ih (h.exec hinv.own step hr.1 fun now hnow => hclock now ?_) (hinv.exec step hr.1) hr.2
      fun now hnow => hclock now (List.mem_cons_of_mem _ hnow)
    rw [hnow]
    exact List.mem_cons_self

/-! ## The calls -/

/-- The completions that are for a call. -/
def completionsOf (w : ClientEngine) (k : ℕ) : List Completion :=
  w.completions.filter fun x => (w.claims x.seq).any (·.call = k)

theorem mem_completionsOf {k : ℕ} {x : Completion} :
    x ∈ w.completionsOf k ↔ x ∈ w.completions ∧ ∃ c, w.claims x.seq = some c ∧ c.call = k := by
  rw [completionsOf, List.mem_filter, Option.any_eq_true]
  simp

/-- An accepted call has at most one completion and a refused one none; a completion has the
    user data of its call, a query's response is not below its token, and a fan-in has one piece
    of the call from each of its rings. -/
structure CompletesOnce (w : ClientEngine) : Prop where
  /-- A completion is for one call. -/
  attributed : ∀ x ∈ w.completions, ∃ k < w.calls.length, x ∈ w.completionsOf k
  atMostOnce : ∀ k, (w.completionsOf k).length ≤ 1
  refused : ∀ k e, (k, .error e) ∈ w.answers → w.completionsOf k = []
  userData : ∀ k x t call, x ∈ w.completionsOf k → w.calls[k]? = some (t, call) →
    x.userData = call.userData
  fanIn : ∀ k x t call parts, x ∈ w.completionsOf k → w.calls[k]? = some (t, call) →
    x.outcome = .responses parts → PiecesOf w.delivered x.seq (w.shared.ringsOf call) parts
  query : ∀ k x t userData id bytes c body, x ∈ w.completionsOf k →
    w.calls[k]? = some (t, .queryOn userData id bytes c) → x.outcome = .response body →
      ∃ p, x.position = some p ∧ c.token ≤ p
  /-- The slots that are taken, and the claims and completions in between. -/
  count : w.table.inflight = liveSlots w.table + w.betweenSenders + pollWeight w.poll

/-- What `send` is given for a call. -/
structure ArgsFor (sh : EngineShared) (call : ClientCall) (a : SendArgs) : Prop where
  userData : a.userData = call.userData
  rings : ∀ ring, a.expected.testBit ring ↔ sh.ringsOf call ring
  query : ∀ userData id bytes c, call = .queryOn userData id bytes c →
    a.kind = .query ∧ a.minPosition = c.token

variable {sh : EngineShared}

theorem expectOne_ok {id e : ℕ} (h : sh.expectOne id = .ok e) (ring : ℕ) :
    e.testBit ring ↔ ring = id := by
  rw [EngineShared.expectOne] at h
  split_ifs at h
  cases h
  rw [testBit_bit, decide_eq_true_eq, eq_comm]

theorem queryWithMin_ok {userData id : ℕ} {bytes : Bytes} {lin : Bool} {min : ℕ} {a : SendArgs}
    (h : sh.queryWithMin userData id bytes lin min = .ok a) :
    a.userData = userData ∧ (∀ ring, a.expected.testBit ring ↔ ring = id) ∧ a.kind = .query ∧
      a.minPosition = min := by
  rw [EngineShared.queryWithMin] at h
  cases hone : sh.expectOne id with
  | error e =>
    rw [hone] at h
    cases h
  | ok e =>
    rw [hone] at h
    split at h
    · cases h
    · cases h
      exact ⟨rfl, expectOne_ok hone, rfl, rfl⟩

theorem args_ok {call : ClientCall} {a : SendArgs} (h : sh.args call = .ok a) :
    ArgsFor sh call a := by
  cases call with
  | submitTo ud id bytes =>
    rw [EngineShared.args] at h
    cases hone : sh.expectOne id with
    | error e =>
      rw [hone] at h
      cases h
    | ok e =>
      rw [hone] at h
      cases h
      exact ⟨rfl, expectOne_ok hone, by simp⟩
  | submitAll ud bytes =>
    cases h
    exact ⟨rfl, fun _ => Iff.rfl, by simp⟩
  | queryOn ud id bytes c =>
    cases c <;>
    · obtain ⟨hud, hrings, hkind, hmin⟩ := queryWithMin_ok h
      refine ⟨hud, hrings, fun _ _ _ c' hc => ?_⟩
      cases hc
      exact ⟨hkind, hmin⟩

theorem Inv.completion (h : w.Inv) {k : ℕ} {x : Completion} (hx : x ∈ w.completionsOf k) {t : ℕ}
    {call : ClientCall} (hcall : w.calls[k]? = some (t, call)) :
    ∃ c a, Right w.delivered x c ∧ ArgsFor w.shared call a ∧ c.body.userData = a.userData ∧
      c.body.kind = a.kind ∧ c.body.expected = a.expected ∧ c.body.minPosition = a.minPosition := by
  obtain ⟨hin, c, hc, rfl⟩ := mem_completionsOf.mp hx
  obtain ⟨call', hcall', a, hargs, hud, hkind, hexp, -, hmin⟩ := h.books.call x.seq c hc
  rw [hcall, Option.some.injEq, Prod.mk.injEq] at hcall'
  obtain ⟨-, rfl⟩ := hcall'
  exact ⟨c, a, h.settled.right x hin c hc, args_ok hargs, hud, hkind, hexp, hmin⟩

theorem Inv.completesOnce (h : w.Inv) : w.CompletesOnce where
  attributed x hx := by
    have hdone := (h.settled.done x.seq).mpr (List.mem_map_of_mem hx)
    obtain ⟨c, hc⟩ := h.own.claim (s := x.seq) (by rw [hdone]; decide)
    exact ⟨c.call, (h.books.call x.seq c hc).call_lt, mem_completionsOf.mpr ⟨hx, c, hc, rfl⟩⟩
  atMostOnce k := by
    -- two completions of a call are of one number, and no number has two
    have hnodup : (w.completionsOf k).Nodup :=
      (List.Nodup.of_map _ h.settled.nodup).filter _
    by_contra hlen
    obtain ⟨x, y, rest, hlist⟩ : ∃ x y rest, w.completionsOf k = x :: y :: rest := by
      match hl : w.completionsOf k with
      | [] | [_] => simp [hl] at hlen
      | x :: y :: rest => exact ⟨x, y, rest, rfl⟩
    have hx : x ∈ w.completionsOf k := by simp [hlist]
    have hy : y ∈ w.completionsOf k := by simp [hlist]
    obtain ⟨hxin, c, hc, hck⟩ := mem_completionsOf.mp hx
    obtain ⟨hyin, c', hc', hck'⟩ := mem_completionsOf.mp hy
    have hseq := h.books.once x.seq y.seq c c' hc hc' (hck.trans hck'.symm)
    have hxy : x = y := List.inj_on_of_nodup_map h.settled.nodup hxin hyin hseq
    rw [hlist, List.nodup_cons] at hnodup
    exact hnodup.1 (by rw [hxy]; exact List.mem_cons_self)
  refused k e hk := by
    rw [List.eq_nil_iff_forall_not_mem]
    intro x hx
    obtain ⟨hin, c, hc, hck⟩ := mem_completionsOf.mp hx
    have hdone := (h.settled.done x.seq).mpr (List.mem_map_of_mem hin)
    obtain hburnt | hrel := h.books.refused k e hk x.seq c hc hck
    · rw [hburnt] at hdone
      cases hdone
    · rw [hrel] at hdone
      cases hdone
  userData k x t call hx hcall := by
    obtain ⟨c, a, hright, hargs, hud, -⟩ := h.completion hx hcall
    rw [hright.userData, hud, hargs.userData]
  fanIn k x t call parts hx hcall hout := by
    obtain ⟨c, a, hright, hargs, -, -, hexp, -⟩ := h.completion hx hcall
    refine (hright.pieces parts hout).congr fun ring => ?_
    rw [hexp]
    exact hargs.rings ring
  query k x t ud id bytes con body hx hcall hout := by
    obtain ⟨c, a, hright, hargs, -, hkind, -, hmin⟩ := h.completion hx hcall
    obtain ⟨hq, htoken⟩ := hargs.query ud id bytes con rfl
    obtain ⟨p, hp, hle⟩ := hright.query body hout (hkind.trans hq)
    exact ⟨p, hp, by rwa [hmin, htoken] at hle⟩
  count := h.counted

theorem Inv.maintained (h : w.Inv) {k : ℕ} (hk : (k, .ok ()) ∈ w.answers) {observed : Option ℕ}
    (hr : w.Runs (.maintain observed :: steps))
    (hclock : ∀ s c now, w.claims s = some c → c.call = k → .poll now ∈ steps →
      c.body.deadlineNs ≤ now) (hidle : (w.run (.maintain observed :: steps)).poll = .idle) :
    (w.run (.maintain observed :: steps)).completionsOf k ≠ [] := by
  obtain ⟨s, c, hc, hck, hout⟩ := h.books.accepted k hk
  have hpoll : w.poll = .idle := hr.1.1
  have hheld : w.life s = .done ∨ s ∈ w.sent ∧ w.life s = .live := by
    have hnot : w.life s ≠ .won := fun hw => by
      have := h.own.won s hw
      rw [hpoll] at this
      exact this
    obtain hsent | hw | hd := hout
    · obtain hl | hw | hd := h.own.sent s hsent
      · exact .inr ⟨hsent, hl⟩
      · exact absurd hw hnot
      · exact .inl hd
    · exact absurd hw hnot
    · exact .inl hd
  have hpending : (w.exec (.maintain observed)).Pending s c := by
    dsimp only [ClientEngine.exec]
    rw [ClientEngine.maintain]
    split_ifs <;> exact ⟨hc, hheld.imp id fun hlive => ⟨hlive.1, .inr ⟨hlive.2, trivial⟩⟩⟩
  have hinv := h.exec _ hr.1
  have hend := hpending.run hinv hr.2 fun now hnow => hclock s c now hc hck hnow
  have hinv' := hinv.run hr.2
  have hdone := hend.done_of_idle hinv'.own hidle
  obtain ⟨x, hx, hxs⟩ := List.mem_map.mp ((hinv'.settled.done s).mp hdone)
  refine List.ne_nil_of_mem (mem_completionsOf.mpr ⟨hx, c, ?_, hck⟩)
  rw [hxs]
  exact hend.claim

/-- In every run, with any number of sending threads: every accepted call has at
    most one completion and a refused one none; and a pass of maintenance that
    starts after a call was accepted and past its deadline leaves it completed. -/
theorem completions_exactly_once (sh : EngineShared) (maxInflight startSeq threads : ℕ)
    (hmax : maxInflight < 2 ^ 32) (steps : List EngineStep)
    (hr : (start sh maxInflight startSeq threads).Runs steps) :
    ((start sh maxInflight startSeq threads).run steps).CompletesOnce ∧
      ∀ before after observed k,
        steps = before ++ .maintain observed :: after →
        (k, .ok ()) ∈ ((start sh maxInflight startSeq threads).run before).answers →
        (∀ s c now, ((start sh maxInflight startSeq threads).run before).claims s = some c →
          c.call = k → .poll now ∈ after → c.body.deadlineNs ≤ now) →
        ((start sh maxInflight startSeq threads).run steps).poll = .idle →
          (((start sh maxInflight startSeq threads).run steps).completionsOf k).length = 1 := by
  have hinv := (inv_start sh hmax startSeq threads).run hr
  refine ⟨hinv.completesOnce, ?_⟩
  rintro before after observed k rfl hk hclock hidle
  obtain ⟨hpre, hrest⟩ := Trace.admits_append.mp hr
  have hsplit : (start sh maxInflight startSeq threads).run (before ++ .maintain observed :: after) =
      ((start sh maxInflight startSeq threads).run before).run (.maintain observed :: after) :=
    List.foldl_append ..
  have hsome := ((inv_start sh hmax startSeq threads).run hpre).maintained hk hrest hclock
    (hsplit ▸ hidle)
  rw [← hsplit] at hsome
  have hone := hinv.completesOnce.atMostOnce k
  have hpos := List.length_pos_iff.mpr hsome
  omega

/-- One service, and requests that time out after 10. -/
def soloShared : EngineShared :=
  ⟨7, 1, 10, none, 100, false, true, 1, by decide, by decide⟩

/-- A call of thread 0 that is accepted: the door, the counter, the number, the
    slot, the seven stores, the word, the record, the return. -/
def soloSubmit : List EngineStep :=
  .enter 0 (.submitTo 5 0 []) ⟨true, 0, 0⟩ :: List.replicate 13 (.sender 0 (.ok ()))

/-- The response comes twice, with a pass of maintenance in between. -/
def soloRun : List EngineStep :=
  soloSubmit ++ [.deliver ⟨some 0, 7, 1, .response false (List.replicate 8 0)⟩ 1] ++
    List.replicate 7 (.poll 0) ++ [.maintain (some 1)] ++ List.replicate 66 (.poll 10) ++
    [.deliver ⟨some 0, 7, 1, .response false (List.replicate 8 0)⟩ 1, .poll 10]

theorem completions_exactly_once_solo :
    ((start soloShared 1 1 1).run soloRun).completions = [⟨1, 5, some 0, .response []⟩] ∧
      ((start soloShared 1 1 1).run soloRun).CompletesOnce :=
  ⟨by decide +kernel,
    (completions_exactly_once soloShared 1 1 1 (by decide) soloRun (by decide +kernel)).1⟩

/-- A request is counted before it has a slot; and the word of the last number but
    one is `RESERVED`, which no record finds and no pass completes. -/
theorem count_ahead_of_slots :
    (Trace.Admits exec Allowed (start soloShared 1 1 1) (soloSubmit.take 2) ∧
      ((start soloShared 1 1 1).run (soloSubmit.take 2)).table.inflight = 1 ∧
      liveSlots ((start soloShared 1 1 1).run (soloSubmit.take 2)).table = 0) ∧
    (Trace.Admits exec Allowed (start soloShared 1 (2 ^ 64 - 2) 1)
        (soloSubmit ++ .maintain (some 1) :: List.replicate 66 (.poll 10)) ∧
      ((start soloShared 1 (2 ^ 64 - 2) 1).run
        (soloSubmit ++ .maintain (some 1) :: List.replicate 66 (.poll 10))).poll = .idle ∧
      ((start soloShared 1 (2 ^ 64 - 2) 1).run
        (soloSubmit ++ .maintain (some 1) :: List.replicate 66 (.poll 10))).answers = [(0, .ok ())] ∧
      ((start soloShared 1 (2 ^ 64 - 2) 1).run
        (soloSubmit ++ .maintain (some 1) :: List.replicate 66 (.poll 10))).completions = []) := by
  decide +kernel

end ClientEngine

end UltimaCluster
