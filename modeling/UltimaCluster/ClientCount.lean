/-
  The count of the window.

  `inflight` is raised before a slot is taken and lowered after it is given back;
  in between a claim or a completion counts without a slot.  So it is the number
  of the slots that are taken, and of the threads in between.
-/
import UltimaCluster.ClientInv

namespace UltimaCluster

open SlotTable (ownerWord setOwner setSlot slot subInflight)

theorem sum_range_update {α : Type*} (f : α → ℕ) (g : ℕ → α) {n j : ℕ} (hj : j < n) (x : α) :
    ∑ i ∈ Finset.range n, f (Function.update g j x i) + f (g j) =
      ∑ i ∈ Finset.range n, f (g i) + f x := by
  have hmem := Finset.mem_range.mpr hj
  have hrest : ∀ i ∈ (Finset.range n).erase j, f (Function.update g j x i) = f (g i) := by
    intro i hi
    rw [Function.update_of_ne (Finset.ne_of_mem_erase hi)]
  rw [← Finset.add_sum_erase _ _ hmem, ← Finset.add_sum_erase (Finset.range n) (fun i => f (g i)) hmem,
    Finset.sum_congr rfl hrest, Function.update_self]
  omega

namespace ClientEngine

/-- A slot that is not free. -/
def slotWeight (x : Slot) : ℕ := if x.owner = ownerFree then 0 else 1

/-- The slots in use. -/
def liveSlots (T : SlotTable) : ℕ := ∑ i ∈ Finset.range T.len, slotWeight (T.slots i)

/-- A thread that counts and has no slot. -/
def senderWeight : SenderPc → ℕ
  | .counted _ | .full _ | .drawn _ _ | .busy _ | .released _ _ _ => 1
  | _ => 0

def betweenSenders (w : ClientEngine) : ℕ := ∑ t ∈ Finset.range w.threads, senderWeight (w.senders t)

/-- The poll half between the compare-exchange and the decrement. -/
def pollWeight : PollPc → ℕ
  | .resolve _ _ (.finish _ _ _ _ _) | .scan _ _ (.finish _ _) => 1
  | _ => 0

/-- The count, with what is in between. -/
def Counted (w : ClientEngine) : Prop :=
  w.table.inflight = liveSlots w.table + w.betweenSenders + pollWeight w.poll

variable {w : ClientEngine} {s t i : ℕ}

theorem counted_start (sh : EngineShared) (maxInflight startSeq threads : ℕ) :
    (start sh maxInflight startSeq threads).Counted := by
  simp [Counted, liveSlots, betweenSenders, start, SlotTable.new, Slot.new, slotWeight, senderWeight,
    pollWeight]

theorem betweenSenders_setPc (w : ClientEngine) (ht : t < w.threads) (pc : SenderPc) :
    (w.setPc t pc).betweenSenders + senderWeight (w.senders t) =
      w.betweenSenders + senderWeight pc :=
  sum_range_update senderWeight w.senders ht pc

theorem liveSlots_setSlot {T : SlotTable} (hi : T.slotIndex s < T.len) (x : Slot) :
    liveSlots (T.setSlot s x) + slotWeight (T.slot s) = liveSlots T + slotWeight x :=
  sum_range_update slotWeight T.slots hi x

theorem betweenSenders_pos (ht : t < w.threads) (h : senderWeight (w.senders t) = 1) :
    1 ≤ w.betweenSenders := by
  have hmoved := betweenSenders_setPc w ht .idle
  simp only [senderWeight] at h hmoved
  omega

variable {w' : ClientEngine}

/-- A thread goes from one place to another, and the slots and the count along. -/
theorem Counted.setPc {q : SenderPc} (h : w.Counted) (ht : t < w.threads) (hpc : w.senders t = q)
    {T : SlotTable} {pc : SenderPc} (htable : w'.table = T) (hpoll : w'.poll = w.poll)
    (hthreads : w'.threads = w.threads) (hsenders : w'.senders = Function.update w.senders t pc)
    (hmove : T.inflight + liveSlots w.table + senderWeight q =
      w.table.inflight + liveSlots T + senderWeight pc) : w'.Counted := by
  subst hpc
  have hsum : w'.betweenSenders = (w.setPc t pc).betweenSenders := by
    rw [betweenSenders, hthreads, hsenders]
    rfl
  have hmoved := betweenSenders_setPc w ht pc
  rw [Counted] at h ⊢
  rw [htable, hpoll, hsum]
  omega

theorem Counted.senderStep (h : w.Counted) (hown : w.Own) (ht : t < w.threads)
    (write : Except RingError Unit) : (w.senderStep t write).Counted := by
  have hknows := hown.senders t ht
  -- a thread that leaves counts for one
  have gives : ∀ {q pc} {w' : ClientEngine}, w.senders t = q → senderWeight q = 1 → senderWeight pc = 0 →
      w'.table = w.table.subInflight → w'.poll = w.poll → w'.threads = w.threads →
      w'.senders = Function.update w.senders t pc → w'.Counted := by
    intro q pc w' hpc h1 h0 htable hpoll hthreads hsenders
    refine h.setPc ht hpc htable hpoll hthreads hsenders ?_
    have hpos := betweenSenders_pos ht (hpc ▸ h1)
    rw [Counted] at h
    rw [h1, h0]
    simp only [liveSlots, subInflight] at h ⊢
    omega
  rw [ClientEngine.senderStep]
  split
  · exact h
  · rename_i c hpc
    refine h.setPc ht hpc (T := w.table.addInflight) rfl rfl rfl rfl ?_
    split_ifs <;> simp only [SlotTable.addInflight, senderWeight, liveSlots] <;> omega
  · rename_i c hpc
    exact gives hpc rfl rfl rfl rfl rfl rfl
  · rename_i c hpc
    exact h.setPc ht hpc (T := w.table.drawSeq) rfl rfl rfl rfl rfl
  · rename_i c s hpc
    have hlt := hown.slotIndex_lt s
    split_ifs with hfree
    · refine h.setPc ht hpc (T := w.table.setOwner s ownerReserved) rfl rfl rfl rfl ?_
      have hset := liveSlots_setSlot (T := w.table) hlt { w.table.slot s with owner := ownerReserved }
      simp only [slotWeight, hfree, ownerFree, ownerReserved, senderWeight, setOwner,
        setSlot] at hset ⊢
      norm_num at hset ⊢
      omega
    · exact h.setPc ht hpc (T := w.table) rfl rfl rfl rfl rfl
  · rename_i c hpc
    exact gives hpc rfl rfl rfl rfl rfl rfl
  · rename_i c s done hpc
    have hlt := hown.slotIndex_lt s
    rw [hpc] at hknows
    obtain ⟨-, -, hl, -⟩ := hknows
    have hres := hown.storing s hl
    split_ifs with hdone
    · refine h.setPc ht hpc (T := w.table.setSlot s ((w.table.slot s).store c.body done)) rfl rfl rfl rfl ?_
      have hset := liveSlots_setSlot (T := w.table) hlt ((w.table.slot s).store c.body done)
      simp only [slotWeight, store_owner] at hset
      simp only [senderWeight, setSlot] at hset ⊢
      omega
    · refine h.setPc ht hpc (T := w.table.setOwner s (ownerWord s)) rfl rfl rfl rfl ?_
      have hset := liveSlots_setSlot (T := w.table) hlt
        { w.table.slot s with owner := ownerWord s }
      rw [ownerWord_eq (hown.drawn s (by rw [hl]; decide)).2] at hset ⊢
      simp only [slotWeight, hres, ownerFree, ownerReserved, senderWeight, setOwner,
        setSlot] at hset ⊢
      norm_num at hset ⊢
      omega
  · rename_i c s hpc
    split
    · exact h.setPc ht hpc (T := w.table) rfl rfl rfl rfl rfl
    · exact h.setPc ht hpc (T := w.table) rfl rfl rfl rfl rfl
  · rename_i c s hpc
    exact h.setPc ht hpc (T := w.table) rfl rfl rfl rfl rfl
  · rename_i c s e hpc
    have hlt := hown.slotIndex_lt s
    rw [hpc] at hknows
    obtain ⟨-, -, hheld, -⟩ := hknows
    rw [ownerWord_eq (hown.drawn s hheld.ne_fresh).2]
    split_ifs with howner
    · refine h.setPc ht hpc (T := w.table.setOwner s ownerFree) rfl rfl rfl rfl ?_
      have hset := liveSlots_setSlot (T := w.table) hlt { w.table.slot s with owner := ownerFree }
      simp only [slotWeight, howner, ownerFree, senderWeight, setOwner,
        setSlot] at hset ⊢
      norm_num at hset ⊢
      omega
    · exact h.setPc ht hpc (T := w.table) rfl rfl rfl rfl rfl
  · rename_i c s e hpc
    exact gives hpc rfl rfl rfl rfl rfl rfl

theorem Counted.polls (h : w.Counted) (hinflight : w'.table.inflight = w.table.inflight)
    (hslots : liveSlots w'.table = liveSlots w.table) (hthreads : w'.threads = w.threads)
    (hsenders : w'.senders = w.senders) (hpoll : pollWeight w'.poll = pollWeight w.poll) :
    w'.Counted := by
  rw [Counted] at h ⊢
  rw [hinflight, hslots, hpoll, betweenSenders, hthreads, hsenders]
  exact h

theorem Counted.win (h : w.Counted) (hown : w.Own) (howner : (w.table.slot s).owner ≠ ownerFree)
    {T : SlotTable} (hT : T = w.table.setOwner s ownerFree) (htable : w'.table = T)
    (hthreads : w'.threads = w.threads) (hsenders : w'.senders = w.senders)
    (hpoll : pollWeight w.poll = 0) (hpoll' : pollWeight w'.poll = 1) : w'.Counted := by
  have hset := liveSlots_setSlot (T := w.table) (hown.slotIndex_lt s)
    { w.table.slot s with owner := ownerFree }
  simp only [slotWeight, if_neg howner, if_true] at hset
  have hslots : liveSlots w'.table + 1 = liveSlots w.table := by
    rw [htable, hT]
    exact hset
  have hinflight : w'.table.inflight = w.table.inflight := by
    rw [htable, hT]
    rfl
  rw [Counted] at h ⊢
  rw [hinflight, hpoll', betweenSenders, hthreads, hsenders]
  rw [hpoll, betweenSenders] at h
  omega

theorem Counted.finish (h : w.Counted) (htable : w'.table = w.table.subInflight)
    (hthreads : w'.threads = w.threads) (hsenders : w'.senders = w.senders)
    (hpoll : pollWeight w.poll = 1) (hpoll' : pollWeight w'.poll = 0) : w'.Counted := by
  rw [Counted] at h ⊢
  rw [htable, hpoll', betweenSenders, hthreads, hsenders]
  rw [hpoll, betweenSenders] at h
  have hslots : liveSlots w.table.subInflight = liveSlots w.table := rfl
  rw [hslots]
  simp only [subInflight]
  omega

theorem Counted.resolveStep (h : w.Counted) (hown : w.Own) {r : EgressRecord} {stage : ResolveStage}
    (hpc : w.poll = .resolve r s stage) : (w.resolveStep r s stage).Counted := by
  have hknows := hown.poll
  rw [hpc] at hknows
  obtain ⟨-, hwire, -, hknows⟩ := hknows
  have goes : ∀ pc, pollWeight (.resolve r s stage) = 0 → pollWeight pc = 0 →
      { w with poll := pc }.Counted :=
    fun pc h0 h1 => h.polls rfl rfl rfl rfl (by rw [hpc, h0, h1])
  cases stage with
  | minOwner =>
    refine goes _ rfl ?_
    split_ifs <;> rfl
  | minValue => exact goes _ rfl rfl
  | owner min =>
    dsimp only [ClientEngine.resolveStep]
    split_ifs <;> exact goes _ rfl rfl
  | kind min owner =>
    dsimp only [ClientEngine.resolveStep]
    split_ifs <;> exact goes _ rfl rfl
  | expected min owner =>
    dsimp only [ClientEngine.resolveStep]
    split
    · exact goes _ rfl rfl
    · split_ifs <;> exact goes _ rfl rfl
  | received min owner expected ring =>
    dsimp only [ClientEngine.resolveStep]
    have hset := liveSlots_setSlot (T := w.table) (hown.slotIndex_lt r.wireSeq)
      { w.table.slot r.wireSeq with received := (w.table.slot r.wireSeq).received ||| 1 <<< ring }
    have hslots := Nat.add_right_cancel hset
    split_ifs <;> exact h.polls rfl hslots rfl rfl (by rw [hpc]; rfl)
  | userData min owner first => exact goes _ rfl rfl
  | fanIn min owner first ud => exact goes _ rfl rfl
  | exchange min owner first ud fi =>
    dsimp only [ClientEngine.resolveStep]
    obtain ⟨c, ⟨-, -, rfl⟩, -⟩ := hknows
    split_ifs with howner
    · refine h.win hown ?_ rfl rfl rfl rfl (by rw [hpc]; rfl) rfl
      rw [howner]
      exact Nat.succ_ne_zero s
    · exact goes _ rfl rfl
  | finish min owner first ud fi => exact h.finish rfl rfl rfl (by rw [hpc]; rfl) rfl

theorem Counted.scanStep (h : w.Counted) (hown : w.Own) {mode : ScanMode} {stage : ScanStage}
    (hpc : w.poll = .scan mode i stage) : (w.scanStep mode i stage).Counted := by
  have hknows := hown.poll
  rw [hpc] at hknows
  have goes : ∀ pc, pollWeight (.scan mode i stage) = 0 → pollWeight pc = 0 →
      { w with poll := pc }.Counted :=
    fun pc h0 h1 => h.polls rfl rfl rfl rfl (by rw [hpc, h0, h1])
  cases stage with
  | owner =>
    dsimp only [ClientEngine.scanStep]
    split
    · refine goes _ rfl ?_
      cases mode <;> rfl
    · split
      · refine goes _ rfl ?_
        cases mode <;> rfl
      · exact goes _ rfl rfl
  | deadline owner =>
    dsimp only [ClientEngine.scanStep]
    split
    · split_ifs <;> exact goes _ rfl rfl
    · exact goes _ rfl rfl
  | userData owner => exact goes _ rfl rfl
  | exchange owner ud =>
    dsimp only [ClientEngine.scanStep]
    obtain ⟨hi, s, rfl, -⟩ := hknows
    split_ifs with howner
    · refine h.win hown ?_ rfl rfl rfl rfl (by rw [hpc]; rfl) rfl
      rw [slot, SlotTable.slotIndex, Nat.mod_eq_of_lt hi, howner]
      exact Nat.succ_ne_zero s
    · exact goes _ rfl rfl
  | finish owner ud => exact h.finish rfl rfl rfl (by rw [hpc]; rfl) rfl

theorem Counted.exec (h : w.Counted) (hown : w.Own) (step : EngineStep) (hp : w.Possible step) :
    (w.exec step).Counted := by
  have hstep := hp.1
  cases step with
  | enter t call v =>
    dsimp only [ClientEngine.exec]
    rw [ClientEngine.enter]
    split
    · exact h.polls rfl rfl rfl rfl rfl
    · exact h.setPc hstep.1 hstep.2 (T := w.table) rfl rfl rfl rfl rfl
  | sender t write => exact h.senderStep hown hstep write
  | deliver r s =>
    have hidle : w.poll = .idle := hstep.1
    dsimp only [ClientEngine.exec]
    rw [ClientEngine.deliver]
    split
    · exact h
    · split
      · refine h.polls rfl rfl rfl rfl ?_
        rw [hidle]
        split_ifs <;> rfl
      · split
        · exact h.polls rfl rfl rfl rfl (by rw [hidle]; rfl)
        · exact h
  | maintain observed =>
    have hidle : w.poll = .idle := hstep
    dsimp only [ClientEngine.exec]
    rw [ClientEngine.maintain]
    split_ifs <;> exact h.polls rfl rfl rfl rfl (by rw [hidle]; rfl)
  | drainAbort =>
    have hidle : w.poll = .idle := hstep
    exact h.polls rfl rfl rfl rfl (by rw [hidle]; rfl)
  | poll now =>
    dsimp only [ClientEngine.exec]
    rw [ClientEngine.pollStep]
    split
    · exact h
    · rename_i r s stage hpc
      exact h.resolveStep hown hpc
    · rename_i hpc
      exact h.polls rfl rfl rfl rfl (by rw [hpc]; rfl)
    · rename_i mode i stage hpc
      exact h.scanStep hown hpc

end ClientEngine

end UltimaCluster
