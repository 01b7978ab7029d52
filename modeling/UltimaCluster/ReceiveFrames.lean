/-
  Frames in the ring of the receive path: runs of frames end to end, what a
  copied run adds and what it leaves.
-/
import UltimaCluster.ReceivePath

namespace UltimaCluster

/-! ## Walks over a stream -/

section Walks

variable {R : ℕ → ℕ → Prop}

theorem walk_split (hin : ∀ a b q, R a b → a < q → q < b → ¬ ∃ c, R q c) {s e q : ℕ}
    (hw : Relation.ReflTransGen R s e) (hq : ∃ c, R q c) (hs : s ≤ q) (he : q ≤ e) :
    Relation.ReflTransGen R s q ∧ Relation.ReflTransGen R q e := by
  induction hw using Relation.ReflTransGen.head_induction_on with
  | refl =>
    obtain rfl : q = e := le_antisymm he hs
    exact ⟨.refl, .refl⟩
  | @head a m ham hme ih =>
    rcases hs.eq_or_lt with rfl | hlt'
    · exact ⟨.refl, .head ham hme⟩
    · have hmq : m ≤ q := by
        by_contra hc
        exact hin a m q ham hlt' (not_le.mp hc) hq
      obtain ⟨h1, h2⟩ := ih hmq
      exact ⟨.head ham h1, h2⟩

theorem walk_le (hlt : ∀ a b, R a b → a < b) {s e : ℕ} (hw : Relation.ReflTransGen R s e) :
    s ≤ e := by
  induction hw with
  | refl => exact le_rfl
  | tail _ h ih => exact ih.trans (hlt _ _ h).le

theorem walk_join (hlt : ∀ a b, R a b → a < b) (hdet : Relator.RightUnique R)
    (hin : ∀ a b q, R a b → a < q → q < b → ¬ ∃ c, R q c) {s e s' e' : ℕ}
    (hw : Relation.ReflTransGen R s e) (hw' : Relation.ReflTransGen R s' e') (hs : s ≤ s')
    (he : s' ≤ e) : Relation.ReflTransGen R s (max e e') := by
  rcases Relation.ReflTransGen.cases_head hw' with rfl | ⟨m, hm, -⟩
  · rw [max_eq_left he]
    exact hw
  · obtain ⟨h1, h2⟩ := walk_split hin hw ⟨m, hm⟩ hs he
    rcases Relation.ReflTransGen.total_of_right_unique hdet h2 hw' with h | h
    · rw [max_eq_right (walk_le hlt h)]
      exact hw.trans h
    · rw [max_eq_left (walk_le hlt h)]
      exact hw

end Walks

namespace ReceivePath

variable {streams : ℕ → LeaderStream} {capacity : ℕ}

/-! ## Frames of the ring -/

variable (streams capacity) in
/-- A frame of the stream of `term` lies in the ring at `[s, e)`, its wire
    bytes copied from datagrams that were accepted after `epoch` primes. -/
def Intact (ring : ℕ → Option RingByte) (epoch term s e : ℕ) : Prop :=
  ∃ f, (streams term).frame s = some f ∧ e = s + f.aligned ∧
    ∀ i < f.wireLen, ring ((s + i) % capacity) = some ⟨s + i, term, epoch⟩

variable (streams capacity) in
/-- Frames of one stream, end to end. -/
def Run (ring : ℕ → Option RingByte) (epoch term : ℕ) : ℕ → ℕ → Prop :=
  Relation.ReflTransGen (Intact streams capacity ring epoch term)

variable (streams capacity) in
/-- Frames of any streams, end to end. -/
def Walk (ring : ℕ → Option RingByte) (epoch : ℕ) : ℕ → ℕ → Prop :=
  Relation.ReflTransGen fun s e => ∃ term, Intact streams capacity ring epoch term s e

theorem headerLen_le_alignFrameLen {len : ℕ} (h : headerLen ≤ len) :
    headerLen ≤ alignFrameLen len := by
  simp only [headerLen, alignFrameLen, frameAlignment] at h ⊢
  omega

theorem aligned_pos {term p : ℕ} {f : WireFrame} (h : (streams term).frame p = some f) :
    headerLen ≤ f.aligned :=
  headerLen_le_alignFrameLen ((streams term).header p f h)

theorem wireLen_pos {term p : ℕ} {f : WireFrame} (h : (streams term).frame p = some f) :
    0 < f.wireLen := by
  unfold WireFrame.wireLen
  split
  · decide
  · exact lt_of_lt_of_le (by decide) (aligned_pos h)

theorem wireLen_le_aligned {term p : ℕ} {f : WireFrame} (h : (streams term).frame p = some f) :
    f.wireLen ≤ f.aligned := by
  unfold WireFrame.wireLen
  split
  · exact aligned_pos h
  · exact le_rfl

section

variable {ring ring' : ℕ → Option RingByte} {epoch term s e : ℕ}

theorem Intact.lt (h : Intact streams capacity ring epoch term s e) : s < e := by
  obtain ⟨f, hf, rfl, -⟩ := h
  have := aligned_pos hf
  simp only [headerLen] at this
  omega

theorem intact_unique :
    Relator.RightUnique (Intact streams capacity ring epoch term) := by
  rintro s e e' ⟨f, hf, rfl, -⟩ ⟨f', hf', rfl, -⟩
  rw [hf, Option.some.injEq] at hf'
  rw [hf']

theorem intact_disjoint {q : ℕ} (h : Intact streams capacity ring epoch term s e) (hs : s < q)
    (he : q < e) : ¬ ∃ c, Intact streams capacity ring epoch term q c := by
  rintro ⟨c, f', hf', -⟩
  obtain ⟨f, hf, rfl, -⟩ := h
  rw [(streams term).disjoint s q f hf hs he] at hf'
  cases hf'

theorem Intact.mono (h : Intact streams capacity ring epoch term s e)
    (hk : ∀ q, s ≤ q → q < e → ring (q % capacity) = some ⟨q, term, epoch⟩ →
      ring' (q % capacity) = some ⟨q, term, epoch⟩) :
    Intact streams capacity ring' epoch term s e := by
  obtain ⟨f, hf, rfl, hb⟩ := h
  refine ⟨f, hf, rfl, ?_⟩
  intro i hi
  have := wireLen_le_aligned hf
  exact hk (s + i) (by omega) (by omega) (hb i hi)

theorem Run.le (h : Run streams capacity ring epoch term s e) : s ≤ e :=
  walk_le (fun _ _ => Intact.lt) h

theorem Run.mono (h : Run streams capacity ring epoch term s e)
    (hk : ∀ q, s ≤ q → q < e → ring (q % capacity) = some ⟨q, term, epoch⟩ →
      ring' (q % capacity) = some ⟨q, term, epoch⟩) :
    Run streams capacity ring' epoch term s e := by
  induction h with
  | refl => exact .refl
  | @tail m e hsm hme ih =>
    have hle : s ≤ m := Run.le hsm
    refine .tail (ih fun q hs hq => hk q hs (hq.trans hme.lt)) (hme.mono ?_)
    exact fun q hs hq => hk q (hle.trans hs) hq

theorem Walk.le (h : Walk streams capacity ring epoch s e) : s ≤ e :=
  walk_le (fun _ _ ⟨_, hi⟩ => hi.lt) h

theorem Walk.mono (h : Walk streams capacity ring epoch s e)
    (hk : ∀ q term, s ≤ q → q < e → ring (q % capacity) = some ⟨q, term, epoch⟩ →
      ring' (q % capacity) = some ⟨q, term, epoch⟩) :
    Walk streams capacity ring' epoch s e := by
  induction h with
  | refl => exact .refl
  | @tail m e hsm hme ih =>
    obtain ⟨term, hi⟩ := hme
    have hle : s ≤ m := Walk.le hsm
    refine .tail (ih fun q t hs hq => hk q t hs (hq.trans hi.lt)) ⟨term, hi.mono ?_⟩
    exact fun q hs hq => hk q term (hle.trans hs) hq

theorem Run.walk (h : Run streams capacity ring epoch term s e) :
    Walk streams capacity ring epoch s e := by
  induction h with
  | refl => exact .refl
  | tail _ hi ih => exact .tail ih ⟨term, hi⟩

theorem Run.join {s' e' : ℕ} (h : Run streams capacity ring epoch term s e)
    (h' : Run streams capacity ring epoch term s' e') (hs : s ≤ s') (he : s' ≤ e) :
    Run streams capacity ring epoch term s (max e e') :=
  walk_join (fun _ _ => Intact.lt) intact_unique (fun _ _ _ => intact_disjoint) h h' hs he

end

/-! ## The copy of a run -/

section

variable {ring : ℕ → Option RingByte} {epoch term pos len : ℕ}

theorem writeRing_of_lt (hfit : pos % capacity + len ≤ capacity) {i : ℕ} (hi : i < len) :
    writeRing capacity pos len term epoch ring ((pos + i) % capacity) =
      some ⟨pos + i, term, epoch⟩ := by
  have hslot : (pos + i) % capacity = pos % capacity + i := by
    rw [Nat.add_mod, Nat.mod_eq_of_lt (show i < capacity by omega),
      Nat.mod_eq_of_lt (show pos % capacity + i < capacity by omega)]
  unfold writeRing
  rw [hslot, if_pos ⟨by omega, by omega⟩, Nat.add_sub_cancel_left]

/-- A byte of the window `[low, low + capacity)` that is not in the copied run
    keeps its slot. -/
theorem writeRing_of_window {low q : ℕ} (hlow : low ≤ pos) (hend : pos + len ≤ low + capacity)
    (hq : low ≤ q) (hq' : q < low + capacity) (hout : q < pos ∨ pos + len ≤ q) :
    writeRing capacity pos len term epoch ring (q % capacity) = ring (q % capacity) := by
  unfold writeRing
  rw [if_neg]
  rintro ⟨h1, h2⟩
  -- The byte of the run with that slot is a multiple of the capacity away.
  set i := q % capacity - pos % capacity with hi
  have hmod : pos + i ≡ q [MOD capacity] := by
    have : pos % capacity + i = q % capacity := by omega
    calc pos + i ≡ pos % capacity + i [MOD capacity] := (Nat.mod_modEq pos capacity).symm.add_right i
      _ = q % capacity := this
      _ ≡ q [MOD capacity] := Nat.mod_modEq q capacity
  have hne : pos + i ≠ q := by omega
  rcases lt_or_gt_of_ne hne with hlt | hlt
  · have := Nat.le_of_dvd (by omega) ((Nat.modEq_iff_dvd' hlt.le).mp hmod)
    omega
  · have := Nat.le_of_dvd (by omega) ((Nat.modEq_iff_dvd' hlt.le).mp hmod.symm)
    omega

theorem Run.of_sends {body : List WireFrame} {adv : ℕ} (hs : (streams term).Sends pos body)
    (hw : walkAdvance body = some adv)
    (hb : ∀ i < wireLenOf body, ring ((pos + i) % capacity) = some ⟨pos + i, term, epoch⟩) :
    Run streams capacity ring epoch term pos (pos + adv) := by
  induction body generalizing pos adv with
  | nil =>
    obtain rfl : 0 = adv := by simpa [walkAdvance] using hw
    exact .refl
  | cons f fs ih =>
    obtain ⟨hf, hfs⟩ := hs
    have hlen : wireLenOf (f :: fs) = f.wireLen + wireLenOf fs := by simp [wireLenOf]
    have hhead : Intact streams capacity ring epoch term pos (pos + f.aligned) :=
      ⟨f, hf, rfl, fun i hi => hb i (by omega)⟩
    unfold walkAdvance at hw
    rw [if_neg (by have := (streams term).header pos f hf; omega)] at hw
    split at hw
    · split at hw
      · obtain rfl : f.aligned = adv := by simpa using hw
        exact .single hhead
      · cases hw
    · rename_i hpad
      obtain ⟨rest, hrest, rfl⟩ := Option.map_eq_some_iff.mp hw
      have hal : f.wireLen = f.aligned := by simp [WireFrame.wireLen, hpad]
      rw [← Nat.add_assoc]
      refine .head hhead (ih hfs hrest fun i hi => ?_)
      have := hb (f.aligned + i) (by omega)
      rwa [← Nat.add_assoc] at this

end

end ReceivePath

end UltimaCluster
