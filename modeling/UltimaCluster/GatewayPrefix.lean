/-
  The prefix rule of a gateway connection.
-/
import Mathlib.Order.Nat
import UltimaCluster.Gateway

namespace UltimaCluster

open Function (update update_of_ne update_self)
open List (mem_append mem_append_left mem_append_right mem_cons_self mem_singleton)

namespace Gateway

/-- The SUBMIT that the reader has in hand. -/
def ReaderPc.current : ReaderPc → Option ℕ
  | .door k | .canServe k | .latch k | .ladder k | .submit k => some k
  | .reading | .gone => none

/-- How many SUBMITs have left the reader's hands. -/
def Conn.passed (conn : Conn) : ℕ := conn.reader.current.getD conn.next

/-- The SUBMIT was answered as one that is left out. -/
def Conn.Excluded (conn : Conn) (k : ℕ) : Prop :=
  conn.answers k = some .tooLarge ∨ conn.answers k = some .unavailable ∨
    conn.answers k = some .unknown

instance (conn : Conn) (k : ℕ) : Decidable (conn.Excluded k) := inferInstanceAs (Decidable (_ ∨ _))

/-- The connection takes no more SUBMITs. -/
def Conn.Shut (conn : Conn) : Prop := conn.notServing = true ∨ conn.reader = .gone

instance (conn : Conn) : Decidable conn.Shut := inferInstanceAs (Decidable (_ ∨ _))

/-- SUBMITs of one connection, in order. -/
def Before (s t : Submit) : Prop := s.conn = t.conn → s.k < t.k

namespace Pipeline

variable {p p' : Pipeline} {c k m : ℕ} {s t : Submit}

/-! ## What is said -/

/-- The SUBMITs of a connection that were appended. -/
def appended (p : Pipeline) (c : ℕ) : List ℕ := (p.log.filter (·.conn = c)).map Submit.k

/-- What is appended of one connection. -/
structure PrefixRule (p : Pipeline) (c : ℕ) : Prop where
  /-- They are appended in the order in which they were sent. -/
  ordered : (p.appended c).Pairwise (· < ·)
  /-- None is passed over, but those refused as too large or answered
      service-unavailable or unknown. -/
  complete : ∀ k m, m ∈ p.appended c → k < m →
    k ∈ p.appended c ∨ (p.conns c).Excluded k ∨ ⟨c, k⟩ ∈ p.dropped
  /-- Nothing is appended behind a SUBMIT that was redirected. -/
  redirected : ∀ k m, (p.conns c).answers k = some .redirected → m ∈ p.appended c → m < k

/-- The SUBMIT is past the latch and not drained. -/
def InPipe (p : Pipeline) (s : Submit) : Prop :=
  s ∈ p.ring ∨ p.held = some s ∨ (p.conns s.conn).reader = .submit s.k

/-- A refusal has come home: it was answered as one that is left out, or the
    connection takes no more SUBMITs and has none on the way behind it. -/
def Home (p : Pipeline) (s : Submit) : Prop :=
  (p.conns s.conn).Excluded s.k ∨
    (p.conns s.conn).Shut ∧ ∀ m, s.k < m → ¬ p.InPipe ⟨s.conn, m⟩

/-- When the node starts to serve, every refusal has come home. -/
def Orderly (p : Pipeline) : PipelineStep → Prop
  | .cycle true => ∀ s ∈ p.refusals, p.Home s
  | _ => True

/-! ## The invariant -/

/-- The SUBMITs that were appended or are to be, in the order of the log. -/
def line (p : Pipeline) : List Submit := p.log ++ p.held.toList ++ p.ring

/-- The order from the readers to the log. -/
structure InLine (p : Pipeline) : Prop where
  line : p.line.Pairwise Before
  drained : ∀ r ∈ p.refusals ++ p.dropped, ∀ s ∈ p.ring, Before r s
  apart : ∀ s ∈ p.line, s ∉ p.refusals
  held : p.node = .drain true → p.held = none

/-- The SUBMIT has reached the ring. -/
def Entered (p : Pipeline) (s : Submit) : Prop :=
  s ∈ p.line ∨ s ∈ p.refusals ∨ s ∈ p.dropped

/-- Requests are numbered in turn. -/
structure Counted (p : Pipeline) : Prop where
  current : ∀ c k, (p.conns c).reader.current = some k → (p.conns c).next = k + 1
  entered : ∀ s, p.Entered s → s.k < (p.conns s.conn).passed
  unanswered : ∀ c k, (p.conns c).passed ≤ k → (p.conns c).answers k = none
  /-- A SUBMIT that left the reader's hands has reached the ring or was
      answered; when the reader ends, one may be lost. -/
  covered : ∀ c k, k < (p.conns c).passed → p.Entered ⟨c, k⟩ ∨ (p.conns c).Excluded k ∨
    (p.conns c).answers k = some .redirected ∨
    (p.conns c).reader = .gone ∧ k + 1 = (p.conns c).next

/-- The node serves. -/
def NodePc.serves : NodePc → Prop
  | .retry | .drain true => True
  | .idle | .drain false => False

/-- A refused request has none after it. -/
structure Ruled (p : Pipeline) : Prop where
  refused : ∀ s ∈ p.refusals, ¬ (p.conns s.conn).Excluded s.k → ∀ t ∈ p.log, t.conn = s.conn →
    t.k < s.k
  home : NodePc.serves p.node → ∀ s ∈ p.refusals, p.Home s
  /-- What the reader redirected is the last that it took to the latch. -/
  redirected : ∀ c k, (p.conns c).answers k = some .redirected → ⟨c, k⟩ ∈ p.refusals ∨
    (p.conns c).notServing = true ∧ (∀ m, (p.conns c).reader ≠ .submit m) ∧
      ∀ s ∈ p.line, s.conn = c → s.k < k

/-- The invariant of a run. -/
structure Inv (p : Pipeline) : Prop where
  inLine : p.InLine
  counted : p.Counted
  ruled : p.Ruled

theorem inv_start : start.Inv := by
  refine ⟨⟨?_, ?_, ?_, ?_⟩, ⟨?_, ?_, ?_, ?_⟩, ⟨?_, ?_, ?_⟩⟩ <;>
    simp [start, line, Entered, ReaderPc.current, Conn.passed, NodePc.serves]

/-! ## The rule -/

theorem mem_appended : m ∈ p.appended c ↔ ⟨c, m⟩ ∈ p.log := by
  simp only [appended, List.mem_map, List.mem_filter, decide_eq_true_eq]
  constructor
  · rintro ⟨s, ⟨hs, rfl⟩, rfl⟩
    exact hs
  · exact fun h => ⟨⟨c, m⟩, ⟨h, rfl⟩, rfl⟩

theorem InLine.log_before (h : p.InLine) (hs : s ∈ p.log) (ht : p.held = some t ∨ t ∈ p.ring) :
    Before s t := by
  have hline := h.line
  rw [Pipeline.line, List.append_assoc] at hline
  refine (List.pairwise_append.mp hline).2.2 s hs t ?_
  rcases ht with ht | ht
  · rw [ht]
    exact mem_append_left _ (List.mem_singleton_self _)
  · exact mem_append_right _ ht

theorem Inv.rule (h : p.Inv) (c : ℕ) : p.PrefixRule c := by
  have hlog : ∀ s ∈ p.log, s ∈ p.line := fun s hs =>
    mem_append_left _ (mem_append_left _ hs)
  have hredirected : ∀ k m, (p.conns c).answers k = some .redirected → m ∈ p.appended c → m < k := by
    intro k m hk hm
    rw [mem_appended] at hm
    rcases h.ruled.redirected c k hk with href | ⟨-, -, hlast⟩
    · refine h.ruled.refused ⟨c, k⟩ href ?_ ⟨c, m⟩ hm rfl
      simp [Conn.Excluded, hk]
    · exact hlast ⟨c, m⟩ (hlog _ hm) rfl
  refine ⟨?_, fun k m hm hkm => ?_, hredirected⟩
  · have hpair := (List.pairwise_append.mp (List.pairwise_append.mp h.inLine.line).1).1
    rw [appended, List.pairwise_map, List.pairwise_filter]
    refine hpair.imp ?_
    intro s t hst hs ht
    exact hst ((of_decide_eq_true hs).trans (of_decide_eq_true ht).symm)
  · have hmlog := mem_appended.mp hm
    have hpassed : m < (p.conns c).passed := h.counted.entered ⟨c, m⟩ (.inl (hlog _ hmlog))
    rcases h.counted.covered c k (by omega) with hent | hex | hred | ⟨hgone, hlast⟩
    · rcases hent with hline | href | hdrop
      · simp only [Pipeline.line, mem_append, Option.mem_toList] at hline
        rcases hline with (hk | hheld) | hring
        · exact .inl (mem_appended.mpr hk)
        · have : m < k := h.inLine.log_before hmlog (.inl hheld) rfl
          omega
        · have : m < k := h.inLine.log_before hmlog (.inr hring) rfl
          omega
      · by_cases hex : (p.conns c).Excluded k
        · exact .inr (.inl hex)
        · have : m < k := h.ruled.refused ⟨c, k⟩ href hex ⟨c, m⟩ hmlog rfl
          omega
      · exact .inr (.inr hdrop)
    · exact .inr (.inl hex)
    · have := hredirected k m hred hm
      omega
    · have : (p.conns c).passed = (p.conns c).next := by
        rw [Conn.passed, hgone]
        rfl
      omega

/-! ## The edge -/

/-- What a step of the edge does to a connection, when it puts nothing in the
    ring. -/
structure Moves (p : Pipeline) (c : ℕ) (conn : Conn) : Prop where
  current : ∀ k, conn.reader.current = some k → conn.next = k + 1
  passed : (p.conns c).passed ≤ conn.passed
  answers : ∀ k v, (p.conns c).answers k = some v → conn.answers k = some v
  unanswered : ∀ k, conn.passed ≤ k → conn.answers k = none
  covered : ∀ k, (p.conns c).passed ≤ k → k < conn.passed → conn.Excluded k ∨
    conn.answers k = some .redirected ∨ conn.reader = .gone ∧ k + 1 = conn.next
  gone : (p.conns c).reader = .gone → conn.reader = .gone ∧ conn.next = (p.conns c).next
  latch : (p.conns c).notServing = true → conn.notServing = true
  /-- A connection that is shut brings no SUBMIT past the latch. -/
  submit : (p.conns c).Shut → ∀ m, conn.reader = .submit m → (p.conns c).reader = .submit m
  redirected : ∀ k, conn.answers k = some .redirected → (p.conns c).answers k = some .redirected ∨
    ⟨c, k⟩ ∈ p.refusals ∨
    conn.notServing = true ∧ (∀ m, conn.reader ≠ .submit m) ∧ k = (p.conns c).passed

theorem conns_setConn_self {conn : Conn} : (p.setConn c conn).conns c = conn :=
  update_self _ _ _

theorem conns_setConn_of_ne {conn : Conn} {d : ℕ} (hd : d ≠ c) :
    (p.setConn c conn).conns d = p.conns d :=
  update_of_ne hd _ _

theorem Excluded.mono {conn conn' : Conn} (h : conn.Excluded k)
    (ha : ∀ k v, conn.answers k = some v → conn'.answers k = some v) : conn'.Excluded k :=
  h.imp (ha k _) (Or.imp (ha k _) (ha k _))

section

variable (h : p.Inv)

include h

theorem Inv.setConn {conn : Conn} (w : p.Moves c conn) : (p.setConn c conn).Inv := by
  have hshut : (p.conns c).Shut → conn.Shut := fun hs =>
    hs.imp w.latch fun hg => (w.gone hg).1
  refine ⟨⟨h.inLine.line, h.inLine.drained, h.inLine.apart, h.inLine.held⟩, ⟨?_, ?_, ?_, ?_⟩,
    ⟨?_, ?_, ?_⟩⟩
  · intro d k hk
    by_cases hd : d = c
    · subst hd
      rw [conns_setConn_self] at hk ⊢
      exact w.current k hk
    · rw [conns_setConn_of_ne hd] at hk ⊢
      exact h.counted.current d k hk
  · intro s hs
    have hold := h.counted.entered s hs
    by_cases hd : s.conn = c
    · rw [hd, conns_setConn_self]
      rw [hd] at hold
      exact Nat.lt_of_lt_of_le hold w.passed
    · rw [conns_setConn_of_ne hd]
      exact hold
  · intro d k hk
    by_cases hd : d = c
    · subst hd
      rw [conns_setConn_self] at hk ⊢
      exact w.unanswered k hk
    · rw [conns_setConn_of_ne hd] at hk ⊢
      exact h.counted.unanswered d k hk
  · intro d k hk
    by_cases hd : d = c
    · subst hd
      rw [conns_setConn_self] at hk ⊢
      rcases Nat.lt_or_ge k (p.conns d).passed with hold | hnew
      · rcases h.counted.covered d k hold with hent | hex | hred | ⟨hg, hn⟩
        · exact .inl hent
        · exact .inr (.inl (Excluded.mono hex w.answers))
        · exact .inr (.inr (.inl (w.answers k _ hred)))
        · obtain ⟨hg', hn'⟩ := w.gone hg
          exact .inr (.inr (.inr ⟨hg', hn'.symm ▸ hn⟩))
      · exact .inr (w.covered k hnew hk)
    · rw [conns_setConn_of_ne hd] at hk ⊢
      exact h.counted.covered d k hk
  · intro s hs hex t ht hst
    refine h.ruled.refused s hs (fun hold => hex ?_) t ht hst
    by_cases hd : s.conn = c
    · rw [hd, conns_setConn_self]
      rw [hd] at hold
      exact Excluded.mono hold w.answers
    · rwa [conns_setConn_of_ne hd]
  · intro hserves s hs
    have hhome := h.ruled.home hserves s hs
    by_cases hd : s.conn = c
    · subst hd
      unfold Home at hhome ⊢
      rw [conns_setConn_self]
      rcases hhome with hex | ⟨hsh, hpipe⟩
      · exact .inl (Excluded.mono hex w.answers)
      · refine .inr ⟨hshut hsh, fun m hm hin => hpipe m hm ?_⟩
        rcases hin with hin | hin | hin
        · exact .inl hin
        · exact .inr (.inl hin)
        · rw [conns_setConn_self] at hin
          exact .inr (.inr (w.submit hsh m hin))
    · unfold Home InPipe at hhome ⊢
      simp only [conns_setConn_of_ne hd]
      exact hhome
  · intro d k hk
    by_cases hd : d = c
    · subst hd
      rw [conns_setConn_self] at hk ⊢
      rcases w.redirected k hk with hold | href | ⟨hl, hr, rfl⟩
      · rcases h.ruled.redirected d k hold with href | ⟨hl, hr, hlast⟩
        · exact .inl href
        · exact .inr ⟨w.latch hl, fun m hm => hr m (w.submit (.inl hl) m hm), hlast⟩
      · exact .inl href
      · refine .inr ⟨hl, hr, fun s hs hsd => ?_⟩
        rw [← hsd]
        exact h.counted.entered s (.inl hs)
    · rw [conns_setConn_of_ne hd] at hk ⊢
      exact h.ruled.redirected d k hk

theorem Inv.passed_current (hk : (p.conns c).reader.current = some k) :
    (p.conns c).passed = k ∧ (p.conns c).next = k + 1 := by
  refine ⟨?_, h.counted.current c k hk⟩
  rw [Conn.passed, hk, Option.getD_some]

theorem Inv.moves_reader {pc : ReaderPc} (hk : (p.conns c).reader.current = some k)
    (hpc : pc.current = some k) (hsub : (p.conns c).Shut → ∀ m, pc ≠ .submit m) :
    p.Moves c { p.conns c with reader := pc } := by
  obtain ⟨hpassed, hnext⟩ := h.passed_current hk
  have hnew : Conn.passed { p.conns c with reader := pc } = k := by
    rw [Conn.passed, hpc, Option.getD_some]
  refine ⟨?_, ?_, fun _ _ hv => hv, ?_, ?_, ?_, id, ?_, fun _ hr => .inl hr⟩
  · intro m hm
    rw [hpc, Option.some.injEq] at hm
    exact hm ▸ hnext
  · rw [hpassed, hnew]
  · intro m hm
    rw [hnew] at hm
    exact h.counted.unanswered c m (hpassed.le.trans hm)
  · intro m h1 h2
    rw [hnew] at h2
    omega
  · intro hg
    rw [hg] at hk
    cases hk
  · exact fun hs m hm => absurd hm (hsub hs m)

theorem Inv.moves_answer {b : Bool} {v : Verdict} (hk : (p.conns c).reader.current = some k)
    (hb : (p.conns c).notServing = true → b = true)
    (hv : v = .tooLarge ∨ v = .unavailable ∨ v = .redirected ∧ b = true) :
    p.Moves c (Conn.answer { p.conns c with reader := .reading, notServing := b } k v) := by
  obtain ⟨hpassed, hnext⟩ := h.passed_current hk
  have hnone := h.counted.unanswered c k hpassed.le
  have hself : update (p.conns c).answers k (some v) k = some v := update_self _ _ _
  refine ⟨?_, ?_, ?_, ?_, ?_, ?_, hb, ?_, ?_⟩
  · intro m hm
    cases hm
  · show (p.conns c).passed ≤ (p.conns c).next
    omega
  · intro m w hw
    have hne : m ≠ k := by
      rintro rfl
      rw [hnone] at hw
      cases hw
    exact (update_of_ne hne _ _).trans hw
  · intro m hm
    have hm : (p.conns c).next ≤ m := hm
    exact (update_of_ne (by omega) _ _).trans (h.counted.unanswered c m (by omega))
  · intro m h1 h2
    have h2 : m < (p.conns c).next := h2
    obtain rfl : m = k := by omega
    rcases hv with rfl | rfl | ⟨rfl, -⟩
    · exact .inl (.inl hself)
    · exact .inl (.inr (.inl hself))
    · exact .inr (.inl hself)
  · intro hg
    rw [hg] at hk
    cases hk
  · intro _ m hm
    cases hm
  · intro m hm
    by_cases hmk : m = k
    · subst hmk
      refine .inr (.inr ⟨?_, fun _ hc => (by cases hc), hpassed.symm⟩)
      have hm : some v = some .redirected := hself.symm.trans hm
      rcases hv with rfl | rfl | ⟨-, hb⟩
      · cases hm
      · cases hm
      · exact hb
    · exact .inl ((update_of_ne hmk _ _).symm.trans hm)

theorem Inv.moves_gone : p.Moves c { p.conns c with reader := .gone } := by
  have hle : (p.conns c).passed ≤ (p.conns c).next ∧ (p.conns c).next ≤ (p.conns c).passed + 1 := by
    cases hcur : (p.conns c).reader.current with
    | none =>
      rw [Conn.passed, hcur, Option.getD_none]
      omega
    | some k =>
      obtain ⟨hp, hn⟩ := h.passed_current hcur
      omega
  refine ⟨?_, hle.1, fun _ _ hv => hv, ?_, ?_, fun hg => ⟨rfl, rfl⟩, id, ?_, fun _ hr => .inl hr⟩
  · intro k hk
    cases hk
  · intro k hk
    have hk : (p.conns c).next ≤ k := hk
    exact h.counted.unanswered c k (hle.1.trans hk)
  · intro k h1 h2
    have h2 : k < (p.conns c).next := h2
    refine .inr (.inr ⟨rfl, ?_⟩)
    show k + 1 = (p.conns c).next
    omega
  · intro _ m hm
    cases hm

theorem Inv.moves_complete {b : Bool} {v : Verdict} (hin : p.InFlight ⟨c, k⟩)
    (hb : (p.conns c).notServing = true → b = true)
    (hv : v = .redirected → ⟨c, k⟩ ∈ p.refusals) :
    p.Moves c (Conn.answer { p.conns c with notServing := b } k v) := by
  have hent : p.Entered ⟨c, k⟩ := by
    rcases hin.1 with hr | hh | hl | href | hd
    · exact .inl (mem_append_right _ hr)
    · refine .inl (mem_append_left _ (mem_append_right _ ?_))
      rw [hh]
      exact List.mem_singleton_self _
    · exact .inl (mem_append_left _ (mem_append_left _ hl))
    · exact .inr (.inl href)
    · exact .inr (.inr hd)
  have hlt : k < (p.conns c).passed := h.counted.entered _ hent
  have hself : update (p.conns c).answers k (some v) k = some v := update_self _ _ _
  refine ⟨h.counted.current c, le_rfl, ?_, ?_, ?_, fun hg => ⟨hg, rfl⟩, hb, fun _ _ hm => hm, ?_⟩
  · intro m w hw
    have hne : m ≠ k := by
      rintro rfl
      rw [hin.2] at hw
      cases hw
    exact (update_of_ne hne _ _).trans hw
  · intro m hm
    have hm : (p.conns c).passed ≤ m := hm
    exact (update_of_ne (by omega) _ _).trans (h.counted.unanswered c m hm)
  · intro m h1 h2
    have h2 : m < (p.conns c).passed := h2
    omega
  · intro m hm
    by_cases hmk : m = k
    · subst hmk
      have hm : some v = some .redirected := hself.symm.trans hm
      exact .inr (.inl (hv (Option.some.inj hm)))
    · exact .inl ((update_of_ne hmk _ _).symm.trans hm)

theorem Inv.frame (hread : (p.conns c).reader = .reading) (fits : Bool) : (p.step (.frame c fits)).Inv := by
  have hpassed : (p.conns c).passed = (p.conns c).next := by
    rw [Conn.passed, hread]
    rfl
  simp only [step]
  split
  · refine h.setConn ⟨?_, hpassed.le, fun _ _ hv => hv, ?_, ?_, ?_, id, ?_, fun _ hr => .inl hr⟩
    · intro k hk
      injection hk with hk
      exact congrArg (· + 1) hk
    · exact fun k hk => h.counted.unanswered c k (hpassed.le.trans hk)
    · intro k h1 h2
      have h2 : k < (p.conns c).next := h2
      omega
    · intro hg
      rw [hread] at hg
      cases hg
    · intro _ m hm
      cases hm
  · have hself : ∀ v, update (p.conns c).answers (p.conns c).next (some v) (p.conns c).next =
        some v := fun _ => update_self _ _ _
    have hother : ∀ m v, m ≠ (p.conns c).next →
        update (p.conns c).answers (p.conns c).next (some v) m = (p.conns c).answers m :=
      fun m v hm => update_of_ne hm _ _
    have hnew : Conn.passed (Conn.answer { p.conns c with next := (p.conns c).next + 1 }
        (p.conns c).next .tooLarge) = (p.conns c).next + 1 := by
      rw [Conn.passed]
      simp only [Conn.answer, hread]
      rfl
    refine h.setConn ⟨?_, ?_, ?_, ?_, ?_, ?_, id, ?_, ?_⟩
    · intro k hk
      simp only [Conn.answer, hread] at hk
      cases hk
    · rw [hnew, hpassed]
      exact Nat.le_succ _
    · intro m w hw
      have hne : m ≠ (p.conns c).next := by
        rintro rfl
        rw [h.counted.unanswered c _ hpassed.le] at hw
        cases hw
      exact (hother m _ hne).trans hw
    · intro m hm
      rw [hnew] at hm
      exact (hother m _ (by omega)).trans (h.counted.unanswered c m (by omega))
    · intro m h1 h2
      rw [hnew] at h2
      obtain rfl : m = (p.conns c).next := by omega
      exact .inl (.inl (hself _))
    · intro hg
      rw [hread] at hg
      cases hg
    · intro _ m hm
      simp only [Conn.answer, hread] at hm
      cases hm
    · intro m hm
      by_cases hmk : m = (p.conns c).next
      · subst hmk
        have hm : some Verdict.tooLarge = some .redirected := (hself _).symm.trans hm
        cases hm
      · exact .inl ((hother m _ hmk).symm.trans hm)

theorem Inv.enter (hk : (p.conns c).reader = .submit k) :
    Inv { p.setConn c { p.conns c with reader := .reading } with ring := p.ring ++ [⟨c, k⟩] } := by
  obtain ⟨hpassed, hnext⟩ := h.passed_current (c := c) (k := k) (by rw [hk]; rfl)
  have hlast : ∀ s, p.Entered s → Before s ⟨c, k⟩ := by
    intro s hs hc
    have hlt := h.counted.entered s hs
    rw [show s.conn = c from hc, hpassed] at hlt
    exact hlt
  have hline : Pipeline.line
      { p.setConn c { p.conns c with reader := .reading } with ring := p.ring ++ [⟨c, k⟩] } =
      p.line ++ [⟨c, k⟩] := (List.append_assoc _ _ _).symm
  have hent : ∀ s, Entered
      { p.setConn c { p.conns c with reader := .reading } with ring := p.ring ++ [⟨c, k⟩] } s ↔
      p.Entered s ∨ s = ⟨c, k⟩ := by
    intro s
    rw [Entered, hline, mem_append, mem_singleton]
    exact or_right_comm
  refine ⟨⟨?_, ?_, ?_, h.inLine.held⟩, ⟨?_, ?_, ?_, ?_⟩, ⟨?_, ?_, ?_⟩⟩
  · rw [hline, List.pairwise_append]
    refine ⟨h.inLine.line, List.pairwise_singleton _ _, fun s hs t ht => ?_⟩
    rw [List.mem_singleton.mp ht]
    exact hlast s (.inl hs)
  · intro r hr s hs
    rcases List.mem_snoc.mp hs with hs | rfl
    · exact h.inLine.drained r hr s hs
    · exact hlast r (.inr (List.mem_append.mp hr))
  · intro s hs href
    rw [hline, mem_append, mem_singleton] at hs
    rcases hs with hs | rfl
    · exact h.inLine.apart s hs href
    · exact Nat.lt_irrefl k (hlast _ (.inr (.inl href)) rfl)
  · intro d m hm
    by_cases hd : d = c
    · subst hd
      simp only [conns_setConn_self] at hm
      cases hm
    · simp only [conns_setConn_of_ne hd] at hm ⊢
      exact h.counted.current d m hm
  · intro s hs
    by_cases hd : s.conn = c
    · simp only [hd, conns_setConn_self]
      show s.k < (p.conns c).next
      rcases (hent s).mp hs with hs | rfl
      · have : s.k < k := hlast s hs hd
        omega
      · show k < (p.conns c).next
        omega
    · simp only [conns_setConn_of_ne hd]
      rcases (hent s).mp hs with hs | rfl
      · exact h.counted.entered s hs
      · exact absurd rfl hd
  · intro d m hm
    by_cases hd : d = c
    · subst hd
      simp only [conns_setConn_self] at hm ⊢
      have hm : (p.conns d).next ≤ m := hm
      exact h.counted.unanswered d m (by omega)
    · simp only [conns_setConn_of_ne hd] at hm ⊢
      exact h.counted.unanswered d m hm
  · intro d m hm
    by_cases hd : d = c
    · subst hd
      simp only [conns_setConn_self] at hm ⊢
      have hm : m < (p.conns d).next := hm
      by_cases hmk : m = k
      · exact .inl ((hent _).mpr (.inr (by rw [hmk])))
      · rcases h.counted.covered d m (by omega) with hold | hex | hred | ⟨hg, -⟩
        · exact .inl ((hent _).mpr (.inl hold))
        · exact .inr (.inl hex)
        · exact .inr (.inr (.inl hred))
        · rw [hk] at hg
          cases hg
    · simp only [conns_setConn_of_ne hd] at hm ⊢
      exact (h.counted.covered d m hm).imp_left fun hold => (hent _).mpr (.inl hold)
  · intro s hs hex t ht hst
    refine h.ruled.refused s hs (fun hold => hex ?_) t ht hst
    by_cases hd : s.conn = c
    · simp only [hd, conns_setConn_self]
      rw [hd] at hold
      exact hold
    · simp only [conns_setConn_of_ne hd]
      exact hold
  · intro hserves s hs
    have hhome := h.ruled.home hserves s hs
    by_cases hd : s.conn = c
    · rcases hhome with hex | ⟨-, hpipe⟩
      · left
        simp only [hd, conns_setConn_self]
        rw [hd] at hex
        exact hex
      · have hin : p.InPipe ⟨s.conn, k⟩ := by
          rw [hd]
          exact .inr (.inr hk)
        exact absurd hin (hpipe k (hlast s (.inr (.inl hs)) hd))
    · unfold Home InPipe at hhome ⊢
      simp only [conns_setConn_of_ne hd]
      refine hhome.imp_right fun ⟨hsh, hpipe⟩ => ⟨hsh, fun m hm hin => hpipe m hm ?_⟩
      refine hin.imp_left fun hring => ?_
      rcases List.mem_append.mp hring with hring | hring
      · exact hring
      · exact absurd (congrArg Submit.conn (List.mem_singleton.mp hring)) hd
  · intro d m hm
    by_cases hd : d = c
    · subst hd
      simp only [conns_setConn_self] at hm ⊢
      rcases h.ruled.redirected d m hm with href | ⟨-, hr, -⟩
      · exact .inl href
      · exact absurd hk (hr k)
    · simp only [conns_setConn_of_ne hd] at hm ⊢
      refine (h.ruled.redirected d m hm).imp_right fun ⟨hl, hr, hlt⟩ => ⟨hl, hr, fun s hs hsd => ?_⟩
      rw [hline, mem_append, mem_singleton] at hs
      rcases hs with hs | rfl
      · exact hlt s hs hsd
      · exact absurd hsd.symm hd

theorem Inv.dispatch (c : ℕ) (ch : ReaderChoice) : (p.dispatch c ch).Inv := by
  unfold Pipeline.dispatch
  dsimp only
  cases hpc : (p.conns c).reader with
  | reading => exact h
  | gone => exact h
  | door k =>
    refine h.setConn (h.moves_reader (k := k) (by rw [hpc]; rfl) ?_ ?_)
    · split <;> rfl
    · intro _ m
      split <;> exact nofun
  | canServe k =>
    refine h.setConn (h.moves_reader (k := k) (by rw [hpc]; rfl) ?_ ?_)
    · split <;> rfl
    · intro _ m
      split <;> exact nofun
  | latch k => exact h.setConn (h.moves_answer (by rw [hpc]; rfl) (fun _ => rfl) (.inr (.inr ⟨rfl, rfl⟩)))
  | ladder k =>
    have hcur : (p.conns c).reader.current = some k := by rw [hpc]; rfl
    dsimp only
    split
    · exact h.setConn h.moves_gone
    · split
      · rename_i hl
        exact h.setConn (h.moves_answer hcur id (.inr (.inr ⟨rfl, hl⟩)))
      · rename_i hl
        split
        · exact h.setConn (h.moves_answer hcur id (.inr (.inl rfl)))
        · refine h.setConn (h.moves_reader hcur rfl ?_)
          rintro (hs | hs)
          · exact absurd hs hl
          · rw [hpc] at hs
            cases hs
  | submit k =>
    have hcur : (p.conns c).reader.current = some k := by rw [hpc]; rfl
    cases ch.submit with
    | ok => exact h.enter hpc
    | backpressure => exact h.setConn (h.moves_reader hcur rfl fun _ _ => nofun)
    | notServing => exact h.setConn (h.moves_reader hcur rfl fun _ _ => nofun)
    | payloadTooLarge => exact h.setConn (h.moves_answer hcur id (.inl rfl))
    | unavailable => exact h.setConn (h.moves_answer hcur id (.inr (.inl rfl)))
    | instanceRestart => exact h.setConn h.moves_gone

theorem Inv.complete {out : Completion} (hp : p.Possible (.complete c k out)) :
    (p.complete c k out).Inv := by
  cases out with
  | response => exact h.setConn (h.moves_complete hp.1 id nofun)
  | notLeader => exact h.setConn (h.moves_complete hp.1 (fun _ => rfl) fun _ => hp.2)
  | retry => exact h.setConn (h.moves_complete hp id nofun)
  | timedOut => exact h.setConn (h.moves_complete hp id nofun)

end

/-! ## The node -/

section

variable (h : p.Inv) (hconns : p'.conns = p.conns)

include h hconns

theorem Inv.node (hent : ∀ s, p'.Entered s ↔ p.Entered s) (hline : ∀ s ∈ p'.line, s ∈ p.line)
    (href : ∀ s ∈ p.refusals, s ∈ p'.refusals) (hin : p'.InLine)
    (hrefused : ∀ s ∈ p'.refusals, ¬ (p.conns s.conn).Excluded s.k → ∀ t ∈ p'.log,
      t.conn = s.conn → t.k < s.k)
    (hpipe : ∀ s, p'.InPipe s → p.InPipe s)
    (hhome : NodePc.serves p'.node → ∀ s ∈ p'.refusals, p.Home s) : p'.Inv := by
  refine ⟨hin, ⟨?_, ?_, ?_, ?_⟩, ⟨?_, ?_, ?_⟩⟩
  · rw [hconns]
    exact h.counted.current
  · rw [hconns]
    exact fun s hs => h.counted.entered s ((hent s).mp hs)
  · rw [hconns]
    exact h.counted.unanswered
  · rw [hconns]
    exact fun c k hk => (h.counted.covered c k hk).imp_left (hent _).mpr
  · rw [hconns]
    exact hrefused
  · intro hserves s hs
    unfold Home
    rw [hconns]
    refine (hhome hserves s hs).imp_right fun ⟨hsh, hno⟩ => ⟨hsh, fun m hm hin => ?_⟩
    exact hno m hm (hpipe _ hin)
  · rw [hconns]
    intro c k hk
    refine (h.ruled.redirected c k hk).imp (href _) fun ⟨hl, hr, hlt⟩ => ⟨hl, hr, ?_⟩
    exact fun s hs => hlt s (hline s hs)

omit h in
theorem InPipe.of_held (hring : ∀ s ∈ p'.ring, s ∈ p.ring)
    (hheld : ∀ s, p'.held = some s → p.held = some s ∨ s ∈ p.ring) (hs : p'.InPipe s) :
    p.InPipe s := by
  rcases hs with hs | hs | hs
  · exact .inl (hring s hs)
  · rcases hheld s hs with hold | hold
    · exact .inr (.inl hold)
    · exact .inl hold
  · rw [hconns] at hs
    exact .inr (.inr hs)

theorem Inv.move (hline : p'.line = p.line) (href : p'.refusals = p.refusals)
    (hdrop : p'.dropped = p.dropped) (hring : ∀ s ∈ p'.ring, s ∈ p.ring)
    (hheld : p'.node = .drain true → p'.held = none)
    (hlog : ∀ t ∈ p'.log, t ∈ p.log ∨ p.InPipe t ∧ t ∈ p.line ∧ NodePc.serves p.node)
    (hpipe : ∀ s, p'.InPipe s → p.InPipe s)
    (hhome : NodePc.serves p'.node → ∀ s ∈ p.refusals, p.Home s) : p'.Inv := by
  have hent : ∀ s, p'.Entered s ↔ p.Entered s := by
    intro s
    rw [Entered, Entered, hline, href, hdrop]
  have hin : p'.InLine := by
    refine ⟨?_, ?_, ?_, hheld⟩
    · rw [hline]
      exact h.inLine.line
    · rw [href, hdrop]
      exact fun r hr s hs => h.inLine.drained r hr s (hring s hs)
    · rw [hline, href]
      exact h.inLine.apart
  refine h.node hconns hent (by rw [hline]; exact fun _ => id) (by rw [href]; exact fun _ => id) hin
    ?_ hpipe (by rw [href]; exact hhome)
  rw [href]
  intro s hs hex t ht hst
  rcases hlog t ht with hold | ⟨hpt, hlt, hserves⟩
  · exact h.ruled.refused s hs hex t hold hst
  · -- the refusal has come home, so what is on the way was sent before it
    rcases h.ruled.home hserves s hs with hexc | ⟨-, hno⟩
    · exact absurd hexc hex
    · have hle : ¬ s.k < t.k := fun hlt => hno t.k hlt (hst ▸ hpt)
      have hne : t.k ≠ s.k := by
        intro hk
        have hts : t = s := by
          cases t
          cases s
          cases hst
          cases hk
          rfl
        exact h.inLine.apart t hlt (hts ▸ hs)
      omega

theorem Inv.take {l : List Submit} (hline : p.line = l ++ s :: p'.ring)
    (hline' : p'.line = l ++ p'.ring) (hlog : p'.log = p.log) (hlogl : ∀ t ∈ p.log, t ∈ l)
    (hring : ∀ t ∈ p'.ring, t ∈ p.ring)
    (hout : (p'.refusals = p.refusals ++ [s] ∧ p'.dropped = p.dropped ∧ p'.node = .drain false) ∨
      p'.refusals = p.refusals ∧ p'.dropped = p.dropped ++ [s])
    (hserves : NodePc.serves p'.node → NodePc.serves p.node)
    (hheld : p'.node = .drain true → p'.held = none)
    (hpipe : ∀ s, p'.InPipe s → p.InPipe s) : p'.Inv := by
  have hpair := h.inLine.line
  rw [hline, List.pairwise_append, List.pairwise_cons] at hpair
  obtain ⟨hl, ⟨hsr, hr⟩, hlr⟩ := hpair
  have hmem : ∀ t, t ∈ p.line ↔ t ∈ p'.line ∨ t = s := by
    intro t
    rw [hline, hline', mem_append, List.mem_cons, mem_append]
    simp only [or_comm, or_left_comm]
  have hent : ∀ t, p'.Entered t ↔ p.Entered t := by
    intro t
    unfold Entered
    rw [hmem]
    rcases hout with ⟨h1, h2, -⟩ | ⟨h1, h2⟩
    · rw [h1, h2, mem_append, mem_singleton]
      simp only [or_assoc, or_comm, or_left_comm]
    · rw [h1, h2, mem_append, mem_singleton]
      simp only [or_assoc, or_comm, or_left_comm]
  have hself : s ∉ p'.line := by
    intro hs
    rw [hline', mem_append] at hs
    rcases hs with hs | hs
    · exact Nat.lt_irrefl _ (hlr s hs s mem_cons_self rfl)
    · exact Nat.lt_irrefl _ (hsr s hs rfl)
  have hout' : ∀ r, r ∈ p'.refusals ++ p'.dropped → r ∈ p.refusals ++ p.dropped ∨ r = s := by
    intro r hr
    rcases hout with ⟨h1, h2, -⟩ | ⟨h1, h2⟩
    · simp only [h1, h2, mem_append, mem_singleton, or_assoc, or_comm] at hr ⊢
      exact hr
    · simp only [h1, h2, mem_append, mem_singleton, or_comm, or_left_comm] at hr ⊢
      exact hr
  refine h.node hconns hent (fun t ht => (hmem t).mpr (.inl ht)) ?_ ⟨?_, ?_, ?_, hheld⟩ ?_ hpipe ?_
  · intro r hr
    rcases hout with ⟨h1, -, -⟩ | ⟨h1, -⟩
    · rw [h1]
      exact mem_append_left _ hr
    · rw [h1]
      exact hr
  · rw [hline', List.pairwise_append]
    exact ⟨hl, hr, fun a ha b hb => hlr a ha b (List.mem_cons_of_mem _ hb)⟩
  · intro r hr t ht
    rcases hout' r hr with hr | rfl
    · exact h.inLine.drained r hr t (hring t ht)
    · exact hsr t ht
  · intro t ht href
    have hold := h.inLine.apart t ((hmem t).mpr (.inl ht))
    rcases hout with ⟨h1, -, -⟩ | ⟨h1, -⟩
    · rw [h1, mem_append, mem_singleton] at href
      rcases href with href | rfl
      · exact hold href
      · exact hself ht
    · rw [h1] at href
      exact hold href
  · rw [hlog]
    intro r hr hex t ht htr
    rcases hout with ⟨h1, -, -⟩ | ⟨h1, -⟩
    · rw [h1, mem_append, mem_singleton] at hr
      rcases hr with hr | rfl
      · exact h.ruled.refused r hr hex t ht htr
      · exact hlr t (hlogl t ht) r mem_cons_self htr
    · rw [h1] at hr
      exact h.ruled.refused r hr hex t ht htr
  · intro hs r hr
    rcases hout with ⟨-, -, hnode⟩ | ⟨h1, -⟩
    · rw [hnode] at hs
      exact hs.elim
    · rw [h1] at hr
      exact h.ruled.home (hserves hs) r hr

end

section

variable (h : p.Inv)

include h

theorem Inv.drain (res : AppendResult) : (p.drainIngressRing res).Inv := by
  have hin : ∀ s, p.held = some s → s ∈ p.line := by
    intro s hs
    rw [Pipeline.line, hs]
    exact mem_append_left _ (mem_append_right _ (List.mem_singleton_self s))
  unfold drainIngressRing
  split
  next => exact h
  next hnode hheld =>
    refine h.move rfl rfl rfl rfl (fun _ => id) (fun _ => hheld) (fun _ => .inl) (fun _ => id) ?_
    exact fun _ => h.ruled.home (by rw [hnode]; trivial)
  next s hnode hheld =>
    have hserves : NodePc.serves p.node := by rw [hnode]; trivial
    cases res with
    | ok =>
      refine h.move rfl ?_ rfl rfl (fun _ => id) (fun _ => rfl) ?_
        (fun _ => .of_held rfl (fun _ => id) nofun) ?_
      · simp [Pipeline.line, hheld]
      · intro t ht
        rcases List.mem_append.mp ht with ht | ht
        · exact .inl ht
        · rw [List.mem_singleton.mp ht]
          exact .inr ⟨.inr (.inl hheld), hin s hheld, hserves⟩
      · exact fun _ => h.ruled.home hserves
    | payloadTooLarge =>
      refine h.take (l := p.log) rfl ?_ ?_ rfl (fun _ => id) (fun _ => id) (.inr ⟨rfl, rfl⟩)
        (fun _ => hserves) (fun _ => rfl) (fun _ => .of_held rfl (fun _ => id) nofun)
      · simp [Pipeline.line, hheld]
      · simp [Pipeline.line]
    | wouldOverrun =>
      exact h.move rfl rfl rfl rfl (fun _ => id) nofun (fun _ => .inl) (fun _ => id) fun hs => hs.elim
  next =>
    exact h.move rfl rfl rfl rfl (fun _ => id) nofun (fun _ => .inl) (fun _ => id) fun hs => hs.elim
  next s ring hnode hring =>
    have hheld := h.inLine.held hnode
    have hserves : NodePc.serves p.node := by rw [hnode]; trivial
    have hsub : ∀ t ∈ ring, t ∈ p.ring := fun t ht => hring ▸ List.mem_cons_of_mem s ht
    have hs : s ∈ p.ring := hring ▸ mem_cons_self
    cases res with
    | ok =>
      refine h.move rfl ?_ rfl rfl hsub (fun _ => hheld) ?_
        (fun _ => .of_held rfl hsub fun _ => .inl) (fun _ => h.ruled.home hserves)
      · simp [Pipeline.line, hheld, hring]
      · intro t ht
        rcases List.mem_snoc.mp ht with ht | rfl
        · exact .inl ht
        · exact .inr ⟨.inl hs, mem_append_right _ hs, hserves⟩
    | payloadTooLarge =>
      refine h.take (l := p.log) rfl ?_ ?_ rfl (fun _ => id) hsub (.inr ⟨rfl, rfl⟩)
        (fun _ => hserves) (fun _ => hheld) (fun _ => .of_held rfl hsub fun _ => .inl)
      · simp [Pipeline.line, hheld, hring]
      · simp [Pipeline.line, hheld]
    | wouldOverrun =>
      refine h.move rfl ?_ rfl rfl hsub nofun (fun _ => .inl) ?_ fun hs => hs.elim
      · simp [Pipeline.line, hheld, hring]
      · exact fun _ => .of_held rfl hsub fun t ht => .inr (Option.some.inj ht ▸ hs)
  next s ring hnode hring =>
    have hsub : ∀ t ∈ ring, t ∈ p.ring := fun t ht => hring ▸ List.mem_cons_of_mem s ht
    refine h.take (l := p.log ++ p.held.toList) rfl ?_ rfl rfl (fun _ => mem_append_left _) hsub
      (.inl ⟨rfl, rfl, hnode⟩) id (fun hd => ?_) ?_
    · simp [Pipeline.line, hring]
    · rw [show p.node = _ from hd] at hnode
      cases hnode
    · exact fun _ => .of_held rfl hsub fun _ => .inl

theorem Inv.step {st : PipelineStep} (hp : p.Possible st) (hord : p.Orderly st) : (p.step st).Inv := by
  cases st with
  | frame c fits => exact h.frame hp fits
  | dispatch c ch => exact h.dispatch c ch
  | hangUp c => exact h.setConn h.moves_gone
  | complete c k out => exact h.complete hp
  | cycle serving =>
    refine h.move rfl rfl rfl rfl (fun _ => id) ?_ (fun _ => .inl) (fun _ => id) ?_
    · show (if serving = true ∧ p.held.isSome then NodePc.retry else .drain serving) = _ → _
      intro hd
      split at hd
      · cases hd
      · rename_i hnot
        cases hd
        exact Option.not_isSome_iff_eq_none.mp fun hs => hnot ⟨rfl, hs⟩
    · cases serving with
      | true => exact fun _ => hord
      | false => exact fun hs => hs.elim
  | drain res => exact h.drain res
  | stop =>
    exact h.move rfl rfl rfl rfl (fun _ => id) nofun (fun _ => .inl) (fun _ => id) fun hs => hs.elim

end

/-! ## Runs -/

/-- While the node starts to serve only when every refusal has come home, the SUBMITs of a
    connection that are appended are a prefix of those that it sent, but for those left out. -/
theorem rule_of_orderly {sts : List PipelineStep} (hrun : start.Runs sts)
    (hord : Trace.Admits step Orderly start sts) (k c : ℕ) :
    (run start (sts.take k)).PrefixRule c := by
  have hinv : (run start (sts.take k)).Inv := by
    refine Trace.Admits.rule (P := fun l => (run start l).Inv) inv_start ?_
      ((Trace.Admits.both hrun hord).take k)
    intro l st h hst
    unfold run at h ⊢
    rw [List.foldl_append]
    exact h.step hst.1 hst.2
  exact hinv.rule c

/-- What a connection has past the latch, with what others have in the ring. -/
def pipe (p : Pipeline) (c : ℕ) : List Submit :=
  p.ring ++ p.held.toList ++ match (p.conns c).reader with
    | .submit k => [⟨c, k⟩]
    | _ => []

theorem mem_pipe : ⟨c, m⟩ ∈ p.pipe c ↔ p.InPipe ⟨c, m⟩ := by
  unfold pipe InPipe
  cases (p.conns c).reader <;>
    simp [eq_comm]

instance (s : Submit) : Decidable (p.Home s) :=
  decidable_of_iff ((p.conns s.conn).Excluded s.k ∨ (p.conns s.conn).Shut ∧
    ∀ t ∈ p.pipe s.conn, t.conn = s.conn → ¬ s.k < t.k) (by
      refine or_congr_right (and_congr_right fun _ => ⟨fun hno m hm hin => ?_, fun hno t ht hst hlt => ?_⟩)
      · exact hno _ (mem_pipe.mpr hin) rfl hm
      · exact hno t.k hlt (mem_pipe.mp (hst ▸ ht)))

instance (p : Pipeline) : (st : PipelineStep) → Decidable (p.Orderly st)
  | .cycle true => inferInstanceAs (Decidable (∀ s ∈ p.refusals, p.Home s))
  | .cycle false | .frame _ _ | .dispatch _ _ | .hangUp _ | .complete _ _ _ | .drain _ | .stop =>
    .isTrue trivial

section

/-- The reader takes a SUBMIT and brings it to the ring. -/
private def submits (c : ℕ) : List PipelineStep :=
  .frame c true :: List.replicate 4 (.dispatch c ⟨true, .go, .ok⟩)

/-- The second SUBMIT is refused, the third is redirected at the door; then the
    node serves again, and another connection's SUBMIT is appended. -/
private def refusedAndServed : List PipelineStep :=
  submits 0 ++ [.cycle true, .drain .ok, .drain .ok] ++ submits 0 ++
    [.cycle false, .drain .ok, .drain .ok, .complete 0 1 .notLeader] ++
    [.frame 0 true, .dispatch 0 ⟨true, .go, .ok⟩, .dispatch 0 ⟨true, .go, .ok⟩] ++
    submits 1 ++ [.cycle true, .drain .ok]

theorem rule_of_orderly_refused :
    (run start (refusedAndServed.take refusedAndServed.length)).PrefixRule 0 ∧
      (run start refusedAndServed).log = [⟨0, 0⟩, ⟨1, 0⟩] ∧
      (run start refusedAndServed).refusals = [⟨0, 1⟩] :=
  ⟨rule_of_orderly (by decide +kernel) (by decide +kernel) _ 0, by decide +kernel, by decide +kernel⟩

/-- The node refuses a SUBMIT, is elected, and drains the next before the refusal
    is delivered. -/
private def electedBehindARefusal : List PipelineStep :=
  submits 0 ++ [.cycle false, .drain .ok, .drain .ok] ++ submits 0 ++
    [.cycle true, .drain .ok, .complete 0 0 .notLeader]

/-- The node refuses a SUBMIT, wins the election, and appends the next before the refusal has
    latched the connection. -/
theorem rule_fails_on_election :
    start.Runs electedBehindARefusal ∧ ¬ (run start electedBehindARefusal).PrefixRule 0 := by
  refine ⟨by decide +kernel, fun h => ?_⟩
  have hlt := h.redirected 0 1 (by decide +kernel) (by decide +kernel)
  exact absurd hlt (by decide)

end

end Pipeline

end Gateway

end UltimaCluster
