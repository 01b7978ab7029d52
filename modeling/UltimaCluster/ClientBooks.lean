/-
  The calls of a client and their answers.
-/
import UltimaCluster.ClientCount

namespace UltimaCluster

open Function (update update_of_ne update_self)
open List (mem_append mem_singleton)

namespace ClientEngine

/-! ## Calls -/

/-- The claim is what the call asks for. -/
def Fits (sh : EngineShared) (call : ClientCall) (m : SlotMeta) : Prop :=
  ∃ a, sh.args call = .ok a ∧ m.userData = a.userData ∧ m.kind = a.kind ∧ m.expected = a.expected ∧
    m.fanIn = a.fanIn ∧ m.minPosition = a.minPosition

variable (w : ClientEngine)

/-- The claim is of a call that fits. -/
def Placed (c : Claim) : Prop :=
  ∃ call, w.calls[c.call]? = some (c.thread, call) ∧ Fits w.shared call c.body

/-- A call that has no number yet and no answer. -/
def Fresh (c : Claim) : Prop :=
  (∀ s c', w.claims s = some c' → c'.call ≠ c.call) ∧ ∀ a, (c.call, a) ∉ w.answers

def SenderBooks : SenderPc → Prop
  | .admitted c | .counted c | .full c => w.Placed c ∧ w.Fresh c
  | .busy c => w.Placed c ∧ ∀ s c', w.claims s = some c' → c'.call = c.call → w.life s = .burnt
  | _ => True

/-- A number was drawn for one call; a call that was refused has no number, or one that was
    burnt or given back; one that was accepted has a number whose record was written or whose
    request is completed. -/
structure Books : Prop where
  call : ∀ s c, w.claims s = some c → w.Placed c
  once : ∀ s s' c c', w.claims s = some c → w.claims s' = some c' → c.call = c'.call → s = s'
  answered : ∀ k a, (k, a) ∈ w.answers → k < w.calls.length
  refused : ∀ k e, (k, .error e) ∈ w.answers → ∀ s c, w.claims s = some c → c.call = k →
    w.life s = .burnt ∨ w.life s = .released
  accepted : ∀ k, (k, .ok ()) ∈ w.answers → ∃ s c, w.claims s = some c ∧ c.call = k ∧
    (s ∈ w.sent ∨ w.life s = .won ∨ w.life s = .done)
  senders : ∀ t < w.threads, w.SenderBooks (w.senders t)

variable {w} {w' : ClientEngine} {s s₀ t i : ℕ}

variable {c : Claim}

theorem Placed.call_lt (h : w.Placed c) : c.call < w.calls.length := by
  obtain ⟨call, hcall, -⟩ := h
  exact (List.getElem?_eq_some_iff.mp hcall).1

theorem Placed.thread_eq {c c' : Claim} (h : w.Placed c) (h' : w.Placed c') (heq : c.call = c'.call) :
    c.thread = c'.thread := by
  obtain ⟨_, hcall, -⟩ := h
  obtain ⟨_, hcall', -⟩ := h'
  rw [heq, hcall', Option.some.injEq, Prod.mk.injEq] at hcall
  exact hcall.1.symm

theorem Placed.mono (h : w.Placed c) (hshared : w'.shared = w.shared)
    (hcalls : w.calls <+: w'.calls) : w'.Placed c := by
  obtain ⟨call, hcall, hfits⟩ := h
  refine ⟨call, ?_, hshared ▸ hfits⟩
  obtain ⟨rest, hrest⟩ := hcalls
  rw [← hrest, List.getElem?_append_left (List.getElem?_eq_some_iff.mp hcall).1]
  exact hcall

theorem Books.frame (h : w.Books) (hshared : w'.shared = w.shared) (hcalls : w'.calls = w.calls)
    (hclaims : w'.claims = w.claims) (hanswers : w'.answers = w.answers)
    (hthreads : w'.threads = w.threads) (hsent : ∀ s ∈ w.sent, s ∈ w'.sent)
    (hburnt : ∀ s, w.life s = .burnt → w'.life s = .burnt)
    (hreleased : ∀ s, w.life s = .released → w'.life s = .released)
    (hdone : ∀ s, w.life s = .won ∨ w.life s = .done → w'.life s = .won ∨ w'.life s = .done)
    (hsenders : ∀ t < w.threads, w'.senders t = w.senders t ∨ w'.SenderBooks (w'.senders t)) :
    w'.Books := by
  have hplaced : ∀ {c}, w.Placed c → w'.Placed c := fun hc =>
    hc.mono hshared (by rw [hcalls])
  constructor
  · intro s c hc
    exact hplaced (h.call s c (hclaims ▸ hc))
  · rw [hclaims]
    exact h.once
  · rw [hanswers, hcalls]
    exact h.answered
  · intro k e hk s c hc heq
    rw [hanswers] at hk
    rw [hclaims] at hc
    exact (h.refused k e hk s c hc heq).imp (hburnt s) (hreleased s)
  · intro k hk
    obtain ⟨s, c, hc, heq, hs⟩ := h.accepted k (hanswers ▸ hk)
    exact ⟨s, c, hclaims ▸ hc, heq, hs.imp (hsent s) (hdone s)⟩
  · intro t ht
    obtain heq | hbooks := hsenders t (hthreads ▸ ht)
    · have hpc := h.senders t (hthreads ▸ ht)
      rw [← heq] at hpc
      cases hcase : w'.senders t with
      | admitted c | counted c | full c =>
        rw [hcase] at hpc
        refine ⟨hplaced hpc.1, ?_⟩
        rw [Fresh, hclaims, hanswers]
        exact hpc.2
      | busy c =>
        rw [hcase] at hpc
        refine ⟨hplaced hpc.1, fun s c' hc' heq' => hburnt s (hpc.2 s c' (hclaims ▸ hc') heq')⟩
      | _ => trivial
    · exact hbooks

theorem Books.reply (h : w.Books) (hown : w.Own) {T : SlotTable} {r : Except SubmitError Unit}
    (hc : w.Placed c) (hthread : c.thread = t)
    (hrefused : ∀ e, r = .error e → ∀ s c', w.claims s = some c' → c'.call = c.call →
      w.life s = .burnt ∨ w.life s = .released) (haccepted : r = .ok () → ∃ s, w.claims s = some c ∧
      (s ∈ w.sent ∨ w.life s = .won ∨ w.life s = .done)) :
    ({ w with table := T }.reply t c r).Books := by
  constructor
  · exact h.call
  · exact h.once
  · intro k a hk
    rw [ClientEngine.reply, mem_append, mem_singleton] at hk
    obtain hk | hk := hk
    · exact h.answered k a hk
    · cases hk
      exact hc.call_lt
  · intro k e hk s c' hc' heq
    rw [ClientEngine.reply, mem_append, mem_singleton, Prod.mk.injEq] at hk
    obtain hk | ⟨rfl, hr⟩ := hk
    · exact h.refused k e hk s c' hc' heq
    · exact hrefused e hr.symm s c' hc' heq
  · intro k hk
    rw [ClientEngine.reply, mem_append, mem_singleton, Prod.mk.injEq] at hk
    obtain hk | ⟨rfl, hr⟩ := hk
    · exact h.accepted k hk
    · obtain ⟨s, hs, hout⟩ := haccepted hr.symm
      exact ⟨s, c, hs, rfl, hout⟩
  · intro t' ht'
    by_cases hne : t' = t
    · subst hne
      simp only [ClientEngine.reply, setPc, update_self]
      trivial
    have hpc := h.senders t' ht'
    have hknows := hown.senders t' ht'
    -- the call of another thread is another call
    have hother : ∀ c', c'.thread = t' → w.Placed c' → c'.call ≠ c.call := fun c' hc' hplaced heq =>
      hne (hc'.symm.trans ((hplaced.thread_eq hc heq).trans hthread))
    simp only [ClientEngine.reply, setPc, update_of_ne hne]
    cases hcase : w.senders t' with
    | admitted c' | counted c' | full c' =>
      rw [hcase] at hpc hknows
      refine ⟨hpc.1, hpc.2.1, fun a ha => ?_⟩
      rw [mem_append, mem_singleton, Prod.mk.injEq] at ha
      obtain ha | ⟨heq, -⟩ := ha
      · exact hpc.2.2 a ha
      · exact hother c' hknows hpc.1 heq
    | busy c' =>
      rw [hcase] at hpc
      exact hpc
    | _ => trivial

theorem Books.draw (h : w.Books) (hown : w.Own) (ht : t < w.threads)
    (hpc : w.senders t = .counted c) :
    (({ w with
        table := w.table.drawSeq
        claims := update w.claims w.table.nextSeq (some c) }.setLife
          w.table.nextSeq .drawn).setPc t (.drawn c w.table.nextSeq)).Books := by
  have hbooks := h.senders t ht
  have hknows := hown.senders t ht
  rw [hpc] at hbooks hknows
  obtain ⟨hplaced, hnew, hunanswered⟩ := hbooks
  have hfresh : w.life w.table.nextSeq = .fresh := by
    by_contra hne
    exact Nat.lt_irrefl _ (hown.drawn _ hne).1
  have hnone : w.claims w.table.nextSeq = none := (hown.claims _).mpr hfresh
  -- a claim is the new one, or was there before
  have hclaims : ∀ s c', update w.claims w.table.nextSeq (some c) s = some c' →
      s = w.table.nextSeq ∧ c' = c ∨ s ≠ w.table.nextSeq ∧ w.claims s = some c' := by
    intro s c' hc'
    by_cases hne : s = w.table.nextSeq
    · subst hne
      rw [update_self, Option.some.injEq] at hc'
      exact .inl ⟨rfl, hc'.symm⟩
    · rw [update_of_ne hne] at hc'
      exact .inr ⟨hne, hc'⟩
  have hlife : ∀ s ≠ w.table.nextSeq,
      update w.life w.table.nextSeq .drawn s = w.life s :=
    fun s hne => update_of_ne hne _ _
  constructor
  · intro s c' hc'
    obtain ⟨-, rfl⟩ | ⟨-, hc'⟩ := hclaims s c' hc'
    · exact hplaced
    · exact h.call s c' hc'
  · intro s s' c₁ c₂ hc₁ hc₂ heq
    obtain ⟨rfl, rfl⟩ | ⟨-, hold₁⟩ := hclaims s c₁ hc₁ <;>
      obtain ⟨rfl, rfl⟩ | ⟨-, hold₂⟩ := hclaims s' c₂ hc₂
    · rfl
    · exact absurd heq.symm (hnew s' c₂ hold₂)
    · exact absurd heq (hnew s c₁ hold₁)
    · exact h.once s s' c₁ c₂ hold₁ hold₂ heq
  · exact h.answered
  · intro k e hk s c' hc' heq
    obtain ⟨-, rfl⟩ | ⟨hne, hc'⟩ := hclaims s c' hc'
    · subst heq
      exact absurd hk (hunanswered _)
    · change update w.life w.table.nextSeq .drawn s = _ ∨ _
      rw [hlife s hne]
      refine (h.refused k e hk s c' hc' heq).imp id fun hrel => ?_
      change update w.life w.table.nextSeq .drawn s = _
      rwa [hlife s hne]
  · intro k hk
    obtain ⟨s, c', hc', heq, hs⟩ := h.accepted k hk
    have hne : s ≠ w.table.nextSeq := by
      rintro rfl
      rw [hnone] at hc'
      cases hc'
    refine ⟨s, c', ?_, heq, hs.imp id ?_⟩
    · exact (update_of_ne hne _ _).trans hc'
    · intro hdone
      simpa only [setPc, setLife, hlife s hne] using hdone
  · intro t' ht'
    by_cases hne : t' = t
    · subst hne
      simp only [setPc, update_self]
      trivial
    have hpc' := h.senders t' ht'
    have hknows' := hown.senders t' ht'
    have hother : ∀ c', c'.thread = t' → w.Placed c' → c.call ≠ c'.call := fun c' hc' hplaced' heq =>
      hne (hc'.symm.trans ((hplaced'.thread_eq hplaced heq.symm).trans hknows))
    simp only [setPc, setLife, update_of_ne hne]
    cases hcase : w.senders t' with
    | admitted c' | counted c' | full c' =>
      rw [hcase] at hpc' hknows'
      refine ⟨hpc'.1, fun s c'' hc'' => ?_, hpc'.2.2⟩
      obtain ⟨-, rfl⟩ | ⟨-, hc''⟩ := hclaims s c'' hc''
      · exact hother c' hknows' hpc'.1
      · exact hpc'.2.1 s c'' hc''
    | busy c' =>
      rw [hcase] at hpc' hknows'
      refine ⟨hpc'.1, fun s c'' hc'' heq => ?_⟩
      obtain ⟨-, rfl⟩ | ⟨hs, hc''⟩ := hclaims s c'' hc''
      · exact absurd heq (hother c' hknows' hpc'.1)
      · change update w.life w.table.nextSeq .drawn s = _
        rw [hlife s hs]
        exact hpc'.2 s c'' hc'' heq
    | _ => trivial

theorem Books.mine (h : w.Books) {T : SlotTable} {l : Life} {pc : SenderPc}
    (hold : w.life s₀ ≠ .burnt ∧ w.life s₀ ≠ .released ∧ w.life s₀ ≠ .won ∧ w.life s₀ ≠ .done)
    (hpc : (({ w with table := T }.setLife s₀ l).setPc t pc).SenderBooks pc) :
    (({ w with table := T }.setLife s₀ l).setPc t pc).Books := by
  have hlife : ∀ s ≠ s₀, update w.life s₀ l s = w.life s :=
    fun s hne => update_of_ne hne _ _
  have hkeep : ∀ s l', w.life s = l' → w.life s₀ ≠ l' → update w.life s₀ l s = l' := by
    rintro s l' hs hne
    rw [hlife s (by rintro rfl; exact hne hs), hs]
  refine h.frame rfl rfl rfl rfl rfl (fun _ => id) (fun s hs => hkeep s _ hs hold.1)
    (fun s hs => hkeep s _ hs hold.2.1)
    (fun s hs => hs.imp (fun h => hkeep s _ h hold.2.2.1) fun h => hkeep s _ h hold.2.2.2)
    fun t' _ => ?_
  by_cases hne : t' = t
  · subst hne
    right
    simpa only [setPc, update_self] using hpc
  · left
    exact update_of_ne hne _ _

theorem Books.setPc (h : w.Books) {T : SlotTable} {sent : List ℕ} (hsent : ∀ s ∈ w.sent, s ∈ sent)
    {pc : SenderPc} (hpc : w.SenderBooks pc) :
    ({ w with table := T, sent }.setPc t pc).Books := by
  refine h.frame rfl rfl rfl rfl rfl hsent (fun _ => id) (fun _ => id) (fun _ => id) fun t' _ => ?_
  by_cases hne : t' = t
  · subst hne
    right
    simp only [ClientEngine.setPc, update_self]
    cases pc <;> exact hpc
  · left
    exact update_of_ne hne _ _

theorem Books.senderStep (h : w.Books) (hown : w.Own) (ht : t < w.threads)
    (write : Except RingError Unit) : (w.senderStep t write).Books := by
  have hknows := hown.senders t ht
  have hbooks := h.senders t ht
  rw [ClientEngine.senderStep]
  split
  · exact h
  · rename_i c hpc
    rw [hpc] at hbooks
    refine h.setPc (fun _ => id) ?_
    split_ifs <;> exact hbooks
  · rename_i c hpc
    rw [hpc] at hbooks hknows
    refine h.reply hown hbooks.1 hknows (fun e _ s c' hc' heq => ?_) (by simp)
    exact absurd heq (hbooks.2.1 s c' hc')
  · rename_i c hpc
    exact h.draw hown ht hpc
  · rename_i c s hpc
    rw [hpc] at hknows
    obtain ⟨hthread, hc, hl⟩ := hknows
    split_ifs
    · exact h.mine (by simp [hl]) trivial
    · refine h.mine (T := w.table) (by simp [hl]) ⟨h.call s c hc, fun s' c' hc' heq => ?_⟩
      have heq' := h.once s' s c' c hc' hc heq
      subst heq'
      simp [ClientEngine.setPc, setLife]
  · rename_i c hpc
    rw [hpc] at hbooks hknows
    exact h.reply hown hbooks.1 hknows (fun e _ s c' hc' heq => .inl (hbooks.2 s c' hc' heq)) (by simp)
  · rename_i c s done hpc
    rw [hpc] at hknows
    obtain ⟨hthread, hc, hl, -⟩ := hknows
    split_ifs
    · exact h.setPc (fun _ => id) trivial
    · exact h.mine (by simp [hl]) trivial
  · split
    · exact h.setPc (T := w.table) (fun s hs => List.mem_append_left _ hs) trivial
    · exact h.setPc (T := w.table) (fun _ => id) trivial
  · rename_i c s hpc
    rw [hpc] at hknows
    obtain ⟨hthread, hc, -, hs⟩ := hknows
    exact h.reply (T := w.table) hown (h.call s c hc) hthread (by simp) fun _ => ⟨s, hc, .inl hs⟩
  · rename_i c s e hpc
    rw [hpc] at hknows
    obtain ⟨hthread, hc, hheld, -⟩ := hknows
    rw [ownerWord_eq (hown.drawn s hheld.ne_fresh).2]
    split_ifs with howner
    · have hlive := (hown.owner_eq_iff hheld.ne_fresh).mp howner
      exact h.mine (by simp [hlive]) trivial
    · have hnot : w.life s ≠ .live := fun hl =>
        howner ((hown.owner_eq_iff hheld.ne_fresh).mpr hl)
      exact h.reply (T := w.table) hown (h.call s c hc) hthread (by simp)
        fun _ => ⟨s, hc, .inr (hheld.resolve_left hnot)⟩
  · rename_i c s e hpc
    rw [hpc] at hknows
    obtain ⟨hthread, hc, hl⟩ := hknows
    refine h.reply hown (h.call s c hc) hthread (fun e' _ s' c' hc' heq => ?_) (by simp)
    have heq' := h.once s' s c' c hc' hc heq
    subst heq'
    exact .inr hl

theorem fits_of_sendChecks {call : ClientCall} {v : DoorView} {m : SlotMeta}
    (h : (w.shared.args call >>= w.sendChecks v) = .ok m) : Fits w.shared call m := by
  cases hargs : w.shared.args call with
  | error e =>
    rw [hargs] at h
    cases h
  | ok a =>
    rw [hargs] at h
    change w.sendChecks v a = .ok m at h
    rw [sendChecks] at h
    split at h
    · cases h
    · dsimp only at h
      split_ifs at h <;> cases h <;> exact ⟨a, hargs, rfl, rfl, rfl, rfl, rfl⟩

theorem Books.enter (h : w.Books) (t : ℕ) (call : ClientCall) (v : DoorView) :
    (w.enter t call v).Books := by
  have hpre : w.calls <+: w.calls ++ [(t, call)] := List.prefix_append _ _
  have hlast : (w.calls ++ [(t, call)])[w.calls.length]? = some (t, call) := by simp
  -- what there was, with one more call
  have hcalled : Books { w with calls := w.calls ++ [(t, call)] } := by
    refine ⟨fun s c hc => (h.call s c hc).mono rfl hpre, h.once, fun k a hk => ?_, h.refused,
      h.accepted, fun t' ht' => ?_⟩
    · have := h.answered k a hk
      simp only [List.length_append, List.length_singleton]
      omega
    · have hpc := h.senders t' ht'
      cases hcase : w.senders t' with
      | admitted c | counted c | full c | busy c =>
        rw [hcase] at hpc
        exact ⟨hpc.1.mono rfl hpre, hpc.2⟩
      | _ => trivial
  rw [ClientEngine.enter]
  split
  · refine ⟨hcalled.call, hcalled.once, fun k a hk => ?_, fun k e' hk s c hc heq => ?_, fun k hk => ?_,
      fun t' ht' => ?_⟩
    · rw [mem_append, mem_singleton, Prod.mk.injEq] at hk
      obtain hk | ⟨rfl, -⟩ := hk
      · exact hcalled.answered k a hk
      · simp
    · rw [mem_append, mem_singleton, Prod.mk.injEq] at hk
      obtain hk | ⟨rfl, -⟩ := hk
      · exact h.refused k e' hk s c hc heq
      · exact absurd heq (h.call s c hc).call_lt.ne
    · rw [mem_append, mem_singleton, Prod.mk.injEq] at hk
      obtain hk | ⟨-, hk⟩ := hk
      · exact h.accepted k hk
      · cases hk
    · have hpc := hcalled.senders t' ht'
      have hold := h.senders t' ht'
      dsimp only at hpc ⊢
      cases hcase : w.senders t' with
      | admitted c | counted c | full c =>
        rw [hcase] at hpc hold
        refine ⟨hpc.1, hpc.2.1, fun a ha => ?_⟩
        rw [mem_append, mem_singleton, Prod.mk.injEq] at ha
        obtain ha | ⟨heq, -⟩ := ha
        · exact hpc.2.2 a ha
        · exact hold.1.call_lt.ne heq
      | busy c =>
        rw [hcase] at hpc
        exact hpc
      | _ => trivial
  · rename_i m hm
    refine hcalled.setPc (T := w.table) (fun _ => id) ⟨⟨call, hlast, fits_of_sendChecks hm⟩, fun s c hc => ?_,
      fun a ha => ?_⟩
    · exact (h.call s c hc).call_lt.ne
    · exact absurd (h.answered _ a ha) (Nat.lt_irrefl _)

/-- The poll half frees the slot of a live request, then it calls back. -/
def Advances (l l' : Life) : Prop := l' = l ∨ l = .live ∧ l' = .won ∨ l = .won ∧ l' = .done

theorem Books.polls (h : w.Books) (hshared : w'.shared = w.shared) (hcalls : w'.calls = w.calls)
    (hclaims : w'.claims = w.claims) (hanswers : w'.answers = w.answers)
    (hthreads : w'.threads = w.threads) (hsent : w'.sent = w.sent)
    (hsenders : w'.senders = w.senders)
    (hlife : ∀ s, Advances (w.life s) (w'.life s)) : w'.Books := by
  have hkeep : ∀ s l, l ≠ .live → l ≠ .won → w.life s = l → w'.life s = l := by
    intro s l hl hw hs
    obtain heq | ⟨hold, -⟩ | ⟨hold, -⟩ := hlife s
    · exact heq.trans hs
    · exact absurd (hs.symm.trans hold) hl
    · exact absurd (hs.symm.trans hold) hw
  refine h.frame hshared hcalls hclaims hanswers hthreads (fun s hs => hsent ▸ hs)
    (fun s => hkeep s _ (by decide) (by decide)) (fun s => hkeep s _ (by decide) (by decide))
    (fun s hs => ?_) fun t _ => .inl (by rw [hsenders])
  obtain heq | ⟨-, hwon⟩ | ⟨-, hdone⟩ := hlife s
  · exact heq ▸ hs
  · exact .inl hwon
  · exact .inr hdone

theorem life_resolveStep (hown : w.Own) {r : EgressRecord} {stage : ResolveStage}
    (hpc : w.poll = .resolve r s stage) (q : ℕ) :
    Advances (w.life q) ((w.resolveStep r s stage).life q) := by
  have hknows := hown.poll
  rw [hpc] at hknows
  obtain ⟨-, -, -, hknows⟩ := hknows
  cases stage with
  | minOwner | minValue | userData min owner first | fanIn min owner first ud => exact .inl rfl
  | owner min | kind min owner | received min owner expected ring =>
    dsimp only [ClientEngine.resolveStep]
    split_ifs <;> exact .inl rfl
  | expected min owner =>
    dsimp only [ClientEngine.resolveStep]
    split
    · exact .inl rfl
    · split_ifs <;> exact .inl rfl
  | exchange min owner first ud fi =>
    dsimp only [ClientEngine.resolveStep]
    obtain ⟨c, ⟨-, hl, rfl⟩, -⟩ := hknows
    split_ifs
    · by_cases hq : q = s
      · subst hq
        exact .inr (.inl ⟨hl, update_self ..⟩)
      · exact .inl (update_of_ne hq _ _)
    · exact .inl rfl
  | finish min owner first ud fi =>
    obtain ⟨c, -, hl, rfl, -⟩ := hknows
    by_cases hq : q = s
    · subst hq
      exact .inr (.inr ⟨hl, update_self ..⟩)
    · exact .inl (update_of_ne hq _ _)

theorem life_scanStep (hown : w.Own) {mode : ScanMode} {stage : ScanStage}
    (hpc : w.poll = .scan mode i stage) (q : ℕ) :
    Advances (w.life q) ((w.scanStep mode i stage).life q) := by
  have hknows := hown.poll
  rw [hpc] at hknows
  cases stage with
  | owner =>
    dsimp only [ClientEngine.scanStep]
    split
    · exact .inl rfl
    · split <;> exact .inl rfl
  | deadline owner =>
    dsimp only [ClientEngine.scanStep]
    split
    · split_ifs <;> exact .inl rfl
    · exact .inl rfl
  | userData owner => exact .inl rfl
  | exchange owner ud =>
    dsimp only [ClientEngine.scanStep]
    obtain ⟨hi, s, rfl, hidx, hp, -⟩ := hknows
    split_ifs with howner
    · by_cases hq : q = s
      · subst hq
        refine .inr (.inl ⟨(hown.owner_eq_iff hp.ne_fresh).mp ?_, update_self ..⟩)
        rw [SlotTable.slot, hidx, howner]
      · exact .inl (update_of_ne hq _ _)
    · exact .inl rfl
  | finish owner ud =>
    obtain ⟨s, c, rfl, hl, -⟩ := hknows
    by_cases hq : q = s
    · subst hq
      exact .inr (.inr ⟨hl, update_self ..⟩)
    · exact .inl (update_of_ne hq _ _)

/-- What the poll half does not touch. -/
structure Untouched (w w' : ClientEngine) : Prop where
  shared : w'.shared = w.shared
  calls : w'.calls = w.calls
  claims : w'.claims = w.claims
  answers : w'.answers = w.answers
  threads : w'.threads = w.threads
  sent : w'.sent = w.sent
  senders : w'.senders = w.senders
  delivered : w'.delivered = w.delivered

theorem untouched_resolveStep (w : ClientEngine) (r : EgressRecord) (s : ℕ) (stage : ResolveStage) :
    Untouched w (w.resolveStep r s stage) := by
  cases stage <;> dsimp only [ClientEngine.resolveStep] <;>
    first
      | exact ⟨rfl, rfl, rfl, rfl, rfl, rfl, rfl, rfl⟩
      | (split <;> first
          | exact ⟨rfl, rfl, rfl, rfl, rfl, rfl, rfl, rfl⟩
          | (split_ifs <;> exact ⟨rfl, rfl, rfl, rfl, rfl, rfl, rfl, rfl⟩))

theorem untouched_scanStep (w : ClientEngine) (mode : ScanMode) (i : ℕ) (stage : ScanStage) :
    Untouched w (w.scanStep mode i stage) := by
  cases stage <;> dsimp only [ClientEngine.scanStep] <;>
    first
      | exact ⟨rfl, rfl, rfl, rfl, rfl, rfl, rfl, rfl⟩
      | (split <;> first
          | exact ⟨rfl, rfl, rfl, rfl, rfl, rfl, rfl, rfl⟩
          | (split <;> exact ⟨rfl, rfl, rfl, rfl, rfl, rfl, rfl, rfl⟩))

theorem Books.untouched (h : w.Books) (hun : Untouched w w')
    (hlife : ∀ s, Advances (w.life s) (w'.life s)) : w'.Books :=
  h.polls hun.shared hun.calls hun.claims hun.answers hun.threads hun.sent hun.senders hlife

theorem Books.exec (h : w.Books) (hown : w.Own) (step : EngineStep) (hp : w.Possible step) :
    (w.exec step).Books := by
  cases step with
  | enter t call v => exact h.enter t call v
  | sender t write => exact h.senderStep hown hp.1 write
  | deliver r s =>
    dsimp only [ClientEngine.exec]
    rw [ClientEngine.deliver]
    split
    · exact h
    · split
      · exact h.polls rfl rfl rfl rfl rfl rfl rfl fun _ => .inl rfl
      · split
        · exact h.polls rfl rfl rfl rfl rfl rfl rfl fun _ => .inl rfl
        · exact h
  | maintain observed =>
    dsimp only [ClientEngine.exec]
    rw [ClientEngine.maintain]
    split_ifs <;> exact h.polls rfl rfl rfl rfl rfl rfl rfl fun _ => .inl rfl
  | drainAbort => exact h.polls rfl rfl rfl rfl rfl rfl rfl fun _ => .inl rfl
  | poll now =>
    dsimp only [ClientEngine.exec]
    rw [ClientEngine.pollStep]
    split
    · exact h
    · rename_i r s stage hpc
      exact h.untouched (untouched_resolveStep w r s stage) (life_resolveStep hown hpc)
    · exact h.polls rfl rfl rfl rfl rfl rfl rfl fun _ => .inl rfl
    · rename_i mode i stage hpc
      exact h.untouched (untouched_scanStep w mode i stage) (life_scanStep hown hpc)

theorem books_start (sh : EngineShared) (maxInflight startSeq threads : ℕ) :
    (start sh maxInflight startSeq threads).Books where
  call s c hc := by cases hc
  once s s' c c' hc := by cases hc
  answered k a hk := by cases hk
  refused k e hk := by cases hk
  accepted k hk := by cases hk
  senders t _ := trivial

end ClientEngine

end UltimaCluster
