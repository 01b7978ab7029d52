/-
  Whole records, in the order of their publication.

  Everything in the ring is for a position below `publish_position`, but for what
  the write under way has stored.  So a read that finds the position less than a
  capacity above its head has copied its record, unless the write under way had
  already reached the slots of that record: its span is nowhere in the check.
-/
import Mathlib.Data.List.Sort
import UltimaCluster.BroadcastReads

namespace UltimaCluster

/-! ## What a write stores -/

theorem LogRing.mem_bytesAt_iff {pos q : ℕ} {bs : Bytes} {b : UInt8} :
    (q, b) ∈ LogRing.bytesAt pos bs ↔ ∃ i, bs[i]? = some b ∧ q = pos + i := by
  unfold LogRing.bytesAt
  rw [List.mem_map]
  constructor
  · rintro ⟨⟨x, i⟩, hmem, heq⟩
    obtain ⟨rfl, rfl⟩ := Prod.mk.inj heq
    exact ⟨i, List.mem_zipIdx_iff_getElem?.mp hmem, rfl⟩
  · rintro ⟨i, hi, rfl⟩
    exact ⟨(b, i), List.mem_zipIdx_iff_getElem?.mpr hi, rfl⟩

theorem LogRing.map_fst_bytesAt (pos : ℕ) (bs : Bytes) :
    (LogRing.bytesAt pos bs).map (·.1) = List.range' pos bs.length := by
  unfold LogRing.bytesAt
  refine List.ext_getElem (by simp) fun i hi hi' => ?_
  simp

namespace RingEntry

variable {crc : Bytes → UInt32} {e : RingEntry} {pos q : ℕ} {b : UInt8}

theorem mem_stores : (q, b) ∈ e.stores crc pos ↔ ∃ i, (e.bytes crc)[i]? = some b ∧ q = pos + i := by
  unfold stores
  rw [List.mem_append, LogRing.mem_bytesAt_iff, LogRing.mem_bytesAt_iff]
  constructor
  · rintro (⟨i, hi, rfl⟩ | ⟨i, hi, rfl⟩)
    · rw [List.getElem?_drop] at hi
      exact ⟨4 + i, hi, by omega⟩
    · rw [List.getElem?_take] at hi
      split_ifs at hi
      exact ⟨i, hi, rfl⟩
  · rintro ⟨i, hi, rfl⟩
    by_cases h4 : i < 4
    · exact .inr ⟨i, by rw [List.getElem?_take, if_pos h4, hi], rfl⟩
    · refine .inl ⟨i - 4, ?_, by omega⟩
      rw [List.getElem?_drop, ← hi]
      congr 1
      omega

theorem stores_lt (h : e.Ok) {st : ℕ × UInt8} (hst : st ∈ e.stores crc pos) :
    pos ≤ st.1 ∧ st.1 < pos + e.span := by
  obtain ⟨q, b⟩ := st
  obtain ⟨i, hi, rfl⟩ := mem_stores.mp hst
  have hlt := (List.getElem?_eq_some_iff.mp hi).1
  have hle := e.length_bytes_le crc h
  omega

theorem nodup_stores : ((e.stores crc pos).map (·.1)).Nodup := by
  unfold stores
  rw [List.map_append, LogRing.map_fst_bytesAt, LogRing.map_fst_bytesAt, List.nodup_append]
  refine ⟨List.nodup_range', List.nodup_range', ?_⟩
  intro x hx y hy
  rw [List.mem_range'_1] at hx hy
  rw [List.length_take] at hy
  omega

end RingEntry

/-- What the write under way has stored so far. -/
def BroadcastWrite.stored (crc : Bytes → UInt32) (pos : ℕ) (w : BroadcastWrite) : List ℕ :=
  ((w.entry.stores crc pos).take ((w.entry.stores crc pos).length - w.left.length)).map (·.1)

theorem BroadcastWrite.stored_eq {crc : Bytes → UInt32} {pos : ℕ} {w : BroadcastWrite}
    {done : List (ℕ × UInt8)} (hdone : w.entry.stores crc pos = done ++ w.left) :
    w.stored crc pos = done.map (·.1) := by
  unfold BroadcastWrite.stored
  rw [hdone, List.length_append, Nat.add_sub_cancel, List.take_left']
  rfl

namespace BroadcastRing

variable (crc : Bytes → UInt32) (shape : RingShape)

/-! ## The condition -/

/-- The next access of the read is the second load. -/
def rechecking (s : BroadcastRing) : Bool :=
  match s.read with
  | some (.copy out again) =>
    match tryReadRecordAt crc (out.map (·.1)) (again.map (·.1)) with
    | .done _ => true
    | _ => false
  | _ => false

/-- No record has the type of a padding; and when a read finds the position less
    than a capacity above its head, the write under way has stored nothing over
    what is at the head. -/
def Safe (s : BroadcastRing) : BroadcastStep → Prop
  | .write r => r.msgType.toNat ≠ paddingMsgType
  | .access => s.rechecking crc = true → s.publishPosition < s.head + shape.capacity →
      ∀ w ∈ s.write, ∀ q ∈ w.stored crc s.publishPosition, ∀ e ∈ s.published, e.1 = s.head →
        q < s.head + shape.capacity ∨ s.head + shape.capacity + (e.2.bytes crc).length ≤ q
  | _ => True

instance (s : BroadcastRing) : (step : BroadcastStep) → Decidable (s.Safe crc shape step)
  | .write _ => inferInstanceAs (Decidable (_ ≠ _))
  | .access => inferInstanceAs (Decidable (s.rechecking crc = true → _))
  | .storeByte | .publish | .subscribe | .tryRead => .isTrue trivial

/-! ## The invariant -/

/-- A write under way. -/
structure WriteOk (s : BroadcastRing) (w : BroadcastWrite) : Prop where
  entry : w.entry.Ok
  fits : s.publishPosition % shape.capacity + w.entry.span ≤ shape.capacity
  progress : ∃ done, w.entry.stores crc s.publishPosition = done ++ w.left ∧
    ∀ st ∈ done, s.store.last st.1 = some st.2
  retry : ∀ r ∈ w.retry, (RingEntry.record r).Ok

/-- An entry at `p`, whole in the store. -/
structure EntryAt (s : BroadcastRing) (p : ℕ) (e : RingEntry) : Prop where
  ok : e.Ok
  below : p + e.span ≤ s.publishPosition
  fits : p % shape.capacity + e.span ≤ shape.capacity
  last : ∀ i b, (e.bytes crc)[i]? = some b → s.store.last (p + i) = some b
  next : p + e.span = s.publishPosition ∨ ∃ e', (p + e.span, e') ∈ s.published

/-- A read of the entry `e` at the head. -/
structure CopyOk (s : BroadcastRing) (e : RingEntry) (out again : List (UInt8 × Option ℕ)) : Prop where
  asked : Asked crc (out.map (·.1)) (again.map (·.1))
  out : ∀ i c, out[i]? = some c → i < (e.bytes crc).length →
    Lap.Copied shape.capacity s.store (s.head + i) c
  again : ∀ i c, again[i]? = some c → 4 + i < (e.bytes crc).length →
    Lap.Copied shape.capacity s.store (s.head + (4 + i)) c

/-- The invariant of a run. -/
structure Inv (s : BroadcastRing) : Prop where
  store : s.store.Ok shape.capacity
  aligned : recordAlign ∣ s.publishPosition
  entries : ∀ p e, (p, e) ∈ s.published → EntryAt crc shape s p e
  ordered : s.published.Pairwise fun a b => a.1 < b.1
  head : s.head = s.publishPosition ∨ ∃ e, (s.head, e) ∈ s.published
  owners : ∀ o q, s.store.owner o = some q →
    q < s.publishPosition ∨ ∃ w ∈ s.write, q ∈ w.stored crc s.publishPosition
  write : ∀ w ∈ s.write, WriteOk crc shape s w
  read : ∀ out again, s.read = some (.copy out again) →
    ∃ e, (s.head, e) ∈ s.published ∧ CopyOk crc shape s e out again
  answers : ∀ a ∈ s.answers, a.2 ≠ .corrupt ∧ a.2 ≠ .badCrc
  order : s.delivered.Pairwise fun a b => a.1 < b.1
  delivered : ∀ d ∈ s.delivered, d.1 < s.head ∧ d ∈ records s.published

variable {crc shape} {s : BroadcastRing} {w : BroadcastWrite}

theorem inv_create : Inv crc shape create where
  store := ⟨by simp [create], by simp [create], by simp [create]⟩
  aligned := dvd_zero _
  entries := by simp [create]
  ordered := List.Pairwise.nil
  head := .inl rfl
  owners := by simp [create]
  write := by simp [create]
  read := by simp [create]
  answers := by simp [create]
  order := List.Pairwise.nil
  delivered := by simp [create, BroadcastRing.delivered]

theorem Inv.head_le (h : Inv crc shape s) : s.head ≤ s.publishPosition := by
  rcases h.head with heq | ⟨e, he⟩
  · exact heq.le
  · have := (h.entries _ e he).below
    omega

/-! ## The producer -/

theorem WriteOk.stored_lt (h : WriteOk crc shape s w) {q : ℕ}
    (hq : q ∈ w.stored crc s.publishPosition) :
    s.publishPosition ≤ q ∧ q < s.publishPosition + w.entry.span := by
  obtain ⟨st, hst, rfl⟩ := List.mem_map.mp hq
  exact RingEntry.stores_lt h.entry (List.mem_of_mem_take hst)

/-- Everything in the ring is for a position below the end of the write under
    way, less than a capacity above `publish_position`. -/
theorem Inv.owner_lt (h : Inv crc shape s) {o q : ℕ} (ho : s.store.owner o = some q) :
    q < s.publishPosition + shape.capacity := by
  rcases h.owners o q ho with hlt | ⟨w, hw, hq⟩
  · exact hlt.trans_le (Nat.le_add_right _ _)
  · have hwrite := h.write w hw
    have := (hwrite.stored_lt hq).2
    have := hwrite.fits
    omega

theorem Inv.storeByte (h : Inv crc shape s) : Inv crc shape (s.storeByte shape) := by
  unfold BroadcastRing.storeByte
  split
  · rename_i entry w v left retry hwr
    have hw := h.write _ hwr
    obtain ⟨done, hdone, hlast⟩ := hw.progress
    dsimp only at hdone
    have hmem : (w, v) ∈ entry.stores crc s.publishPosition := by
      rw [hdone]
      exact List.mem_append_right _ List.mem_cons_self
    have hpos := (RingEntry.stores_lt hw.entry hmem).1
    dsimp only at hpos
    have hlap : ∀ q, s.store.owner (w % shape.capacity) = some q → q < w + shape.capacity := by
      intro q hq
      have := h.owner_lt hq
      omega
    -- no byte is stored twice
    have hfresh : ∀ st ∈ done, st.1 ≠ w := by
      have hnodup : ((done ++ (w, v) :: left).map (·.1)).Nodup := hdone ▸ RingEntry.nodup_stores
      rw [List.map_append, List.map_cons, List.nodup_append] at hnodup
      intro st hst
      exact hnodup.2.2 st.1 (List.mem_map_of_mem hst) w List.mem_cons_self
    have hprogress : entry.stores crc s.publishPosition = (done ++ [(w, v)]) ++ left := by
      rw [hdone, List.append_assoc]
      rfl
    have hok : WriteOk crc shape
        { s with store := s.store.write shape.capacity w v, write := some ⟨entry, left, retry⟩ }
        ⟨entry, left, retry⟩ := by
      refine { hw with progress := ⟨done ++ [(w, v)], hprogress, ?_⟩ }
      intro st hst
      rcases List.mem_snoc.mp hst with hst | rfl
      · exact (Lap.Store.write_last_ne _ _ (hfresh st hst)).trans (hlast st hst)
      · exact Lap.Store.write_last_self _ _ _ _
    exact { h with
      store := h.store.write hlap
      entries := by
        intro p e he
        have hat := h.entries p e he
        refine { hat with last := fun i b hb => ?_ }
        have hlt := (List.getElem?_eq_some_iff.mp hb).1
        have hle := e.length_bytes_le crc hat.ok
        have hbelow := hat.below
        exact (Lap.Store.write_last_ne _ _ (by omega)).trans (hat.last i b hb)
      owners := by
        intro o q ho
        dsimp only at ho
        by_cases he : o = w % shape.capacity
        · rw [he, Lap.Store.write_owner_self] at ho
          refine .inr ⟨_, rfl, ?_⟩
          rw [BroadcastWrite.stored_eq hprogress, ← Option.some.inj ho]
          simp
        · rw [Lap.Store.write_owner_ne _ _ he] at ho
          refine (h.owners o q ho).imp id ?_
          rintro ⟨w', hw', hq⟩
          obtain rfl := Option.mem_unique hw' hwr
          refine ⟨_, rfl, ?_⟩
          rw [BroadcastWrite.stored_eq hprogress]
          rw [BroadcastWrite.stored_eq hdone] at hq
          rw [List.map_append]
          exact List.mem_append_left _ hq
      write := by
        intro w' hw'
        obtain rfl := Option.mem_some.mp hw'
        exact hok
      read := by
        intro out again hread
        obtain ⟨e, he, hcopy⟩ := h.read out again hread
        have hat := h.entries _ e he
        have hle := e.length_bytes_le crc hat.ok
        have hbelow := hat.below
        refine ⟨e, he, hcopy.asked, fun i c hi hlt => ?_, fun i c hi hlt => ?_⟩
        · exact (hcopy.out i c hi hlt).write h.store hlap (by omega)
        · exact (hcopy.again i c hi hlt).write h.store hlap (by omega) }
  · exact h

theorem Inv.startWrite (h : Inv crc shape s) (hidle : s.write = none) {r : RingRecord}
    (hr : (RingEntry.record r).Ok) : Inv crc shape (s.startWrite crc shape r) := by
  have hmod : s.publishPosition % shape.capacity < shape.capacity := Nat.mod_lt _ shape.capacity_pos
  have hdvd : recordAlign ∣ shape.capacity - s.publishPosition % shape.capacity :=
    Nat.dvd_sub shape.align_dvd ((Nat.dvd_mod_iff shape.align_dvd).mpr h.aligned)
  unfold BroadcastRing.startWrite
  dsimp only
  generalize hentry : (if shape.capacity - s.publishPosition % shape.capacity < alignRecordSize r.total
    then RingEntry.padding (shape.capacity - s.publishPosition % shape.capacity)
    else RingEntry.record r) = entry
  generalize hretry : (if shape.capacity - s.publishPosition % shape.capacity < alignRecordSize r.total
    then some r else none) = retry
  have hok : entry.Ok ∧ s.publishPosition % shape.capacity + entry.span ≤ shape.capacity := by
    split_ifs at hentry with htail
    · subst hentry
      have hword : alignRecordSize r.total ≤ 2 ^ 32 := by
        have := hr.2.1
        unfold alignRecordSize recordAlign
        omega
      refine ⟨⟨Nat.le_of_dvd (by omega) hdvd, by omega, hdvd⟩, ?_⟩
      change _ + (shape.capacity - _) ≤ _
      omega
    · subst hentry
      refine ⟨hr, ?_⟩
      change _ + alignRecordSize r.total ≤ _
      omega
  have hretry' : ∀ r' ∈ retry, (RingEntry.record r').Ok := by
    intro r' hr'
    split_ifs at hretry
    · subst hretry
      obtain rfl := Option.mem_some.mp hr'
      exact hr
    · subst hretry
      cases hr'
  exact { h with
    entries := fun p e he =>
      have hat := h.entries p e he
      ⟨hat.ok, hat.below, hat.fits, hat.last, hat.next⟩
    owners := by
      intro o q ho
      rcases h.owners o q ho with hlt | ⟨w, hw, -⟩
      · exact .inl hlt
      · rw [hidle] at hw
        cases hw
    write := by
      intro w hw
      obtain rfl := Option.mem_some.mp hw
      exact ⟨hok.1, hok.2, ⟨[], rfl, by simp⟩, hretry'⟩
    read := by
      intro out again hread
      obtain ⟨e, he, hcopy⟩ := h.read out again hread
      exact ⟨e, he, hcopy.asked, hcopy.out, hcopy.again⟩ }

theorem Inv.publish_entry (h : Inv crc shape s) {entry : RingEntry} {retry : Option RingRecord}
    (hw : s.write = some ⟨entry, [], retry⟩) :
    Inv crc shape { s with
      publishPosition := s.publishPosition + entry.span
      published := s.published ++ [(s.publishPosition, entry)]
      write := none } := by
  have hok := h.write _ hw
  obtain ⟨done, hdone, hlast⟩ := hok.progress
  dsimp only at hdone
  rw [List.append_nil] at hdone
  exact { h with
    aligned := Nat.dvd_add h.aligned (RingEntry.span_dvd hok.entry)
    entries := by
      intro p e he
      rcases List.mem_append.mp he with he | he
      · have hat := h.entries p e he
        have hbelow := hat.below
        refine ⟨hat.ok, by dsimp only; omega, hat.fits, hat.last, .inr ?_⟩
        rcases hat.next with heq | ⟨e', he'⟩
        · exact ⟨entry, List.mem_append_right _ (by rw [heq]; exact List.mem_singleton_self _)⟩
        · exact ⟨e', List.mem_append_left _ he'⟩
      · obtain ⟨rfl, rfl⟩ := Prod.mk.inj (List.mem_singleton.mp he)
        refine ⟨hok.entry, le_rfl, hok.fits, fun i b hb => ?_, .inl rfl⟩
        exact hlast (s.publishPosition + i, b) (hdone ▸ RingEntry.mem_stores.mpr ⟨i, hb, rfl⟩)
    ordered := by
      refine List.pairwise_append.mpr ⟨h.ordered, List.pairwise_singleton _ _, ?_⟩
      rintro ⟨p, e⟩ he x hx
      rw [List.mem_singleton.mp hx]
      have hat := h.entries p e he
      have := hat.below
      have := RingEntry.span_pos hat.ok
      omega
    head := by
      right
      rcases h.head with heq | ⟨e, he⟩
      · exact ⟨entry, List.mem_append_right _ (by rw [heq]; exact List.mem_singleton_self _)⟩
      · exact ⟨e, List.mem_append_left _ he⟩
    owners := by
      intro o q ho
      left
      rcases h.owners o q ho with hlt | ⟨w, hw', hq⟩
      · dsimp only
        omega
      · obtain rfl := Option.mem_unique hw' hw
        exact ((h.write _ hw).stored_lt hq).2
    write := by simp
    read := by
      intro out again hread
      obtain ⟨e, he, hcopy⟩ := h.read out again hread
      exact ⟨e, List.mem_append_left _ he, hcopy.asked, hcopy.out, hcopy.again⟩
    delivered := by
      intro d hd
      obtain ⟨hlt, hmem⟩ := h.delivered d hd
      refine ⟨hlt, ?_⟩
      unfold records
      rw [List.filterMap_append]
      exact List.mem_append_left _ hmem }

theorem Inv.publish (h : Inv crc shape s) : Inv crc shape (s.publish crc shape) := by
  unfold BroadcastRing.publish
  split
  · rename_i entry retry hw
    have hpub := h.publish_entry hw
    split
    · rename_i r
      exact hpub.startWrite rfl ((h.write _ hw).retry r rfl)
    · exact hpub
  · exact h

/-! ## The consumer -/

theorem Inv.move_head (h : Inv crc shape s) {head : ℕ} {read : Option BroadcastPc} (hle : s.head ≤ head)
    (hhead : head = s.publishPosition ∨ ∃ e, (head, e) ∈ s.published)
    (hread : ∀ out again, read ≠ some (.copy out again)) :
    Inv crc shape { s with head, read } where
  store := h.store
  aligned := h.aligned
  entries p e he :=
    have hat := h.entries p e he
    ⟨hat.ok, hat.below, hat.fits, hat.last, hat.next⟩
  ordered := h.ordered
  head := hhead
  owners := h.owners
  write w hw :=
    have hok := h.write w hw
    ⟨hok.entry, hok.fits, hok.progress, hok.retry⟩
  read out again hr := absurd hr (hread out again)
  answers := h.answers
  order := h.order
  delivered d hd := ⟨(h.delivered d hd).1.trans_le hle, (h.delivered d hd).2⟩

theorem delivered_answer (s : BroadcastRing) (a : TryRead) :
    (s.answer a).delivered = s.delivered ++
      match a with
      | .record r => [(s.head, r)]
      | _ => [] := by
  unfold delivered answer
  rw [List.filterMap_append]
  cases a <;> rfl

theorem Inv.answer (h : Inv crc shape s) {a : TryRead} {head : ℕ} (hle : s.head ≤ head)
    (hhead : head = s.publishPosition ∨ ∃ e, (head, e) ∈ s.published)
    (ha : a ≠ .corrupt ∧ a ≠ .badCrc)
    (hrecord : ∀ r, a = .record r → (s.head, .record r) ∈ s.published ∧ s.head < head) :
    Inv crc shape { s.answer a with head } := by
  exact { h with
    entries := fun p e he =>
      have hat := h.entries p e he
      ⟨hat.ok, hat.below, hat.fits, hat.last, hat.next⟩
    head := hhead
    write := fun w hw =>
      have hok := h.write w hw
      ⟨hok.entry, hok.fits, hok.progress, hok.retry⟩
    read := fun out again hr => by cases hr
    answers := by
      refine List.forall_mem_snoc h.answers ?_
      exact ha
    order := by
      change (s.answer a).delivered.Pairwise _
      rw [delivered_answer]
      refine List.pairwise_append.mpr ⟨h.order, ?_, ?_⟩
      · cases a <;> simp
      · intro x hx y hy
        cases a with
        | record r =>
          rw [List.mem_singleton.mp hy]
          exact (h.delivered x hx).1
        | none | overwritten | corrupt | badCrc => cases hy
    delivered := by
      intro d hd
      change d ∈ (s.answer a).delivered at hd
      rw [delivered_answer] at hd
      rcases List.mem_append.mp hd with hd | hd
      · exact ⟨(h.delivered d hd).1.trans_le hle, (h.delivered d hd).2⟩
      · cases a with
        | record r =>
          rw [List.mem_singleton.mp hd]
          obtain ⟨hmem, hlt⟩ := hrecord r rfl
          exact ⟨hlt, List.mem_filterMap.mpr ⟨_, hmem, rfl⟩⟩
        | none | overwritten | corrupt | badCrc => cases hd }

theorem Inv.copied (h : Inv crc shape s) {e : RingEntry} (he : (s.head, e) ∈ s.published) {i : ℕ}
    (hi : i < (e.bytes crc).length) :
    Lap.Copied shape.capacity s.store (s.head + i) (cellAt shape s i) := by
  have hat := h.entries _ e he
  have hle := e.length_bytes_le crc hat.ok
  have hfits := hat.fits
  have hslot : (s.head + i) % shape.capacity = s.head % shape.capacity + i := by
    rw [Nat.add_mod, Nat.mod_eq_of_lt (show i < shape.capacity by omega), Nat.mod_eq_of_lt (by omega)]
  unfold cellAt
  rw [← hslot]
  exact h.store.copied _

/-- A copied byte, once the position is known to be less than a capacity above
    the head and the write under way to have stored nothing over it. -/
theorem Inv.byte_eq (h : Inv crc shape s) {e : RingEntry} (he : (s.head, e) ∈ s.published)
    (hpub : s.publishPosition < s.head + shape.capacity)
    (hsafe : ∀ w ∈ s.write, ∀ q ∈ w.stored crc s.publishPosition, q < s.head + shape.capacity ∨
      s.head + shape.capacity + (e.bytes crc).length ≤ q)
    {i : ℕ} {c : UInt8 × Option ℕ} (hi : i < (e.bytes crc).length)
    (hc : Lap.Copied shape.capacity s.store (s.head + i) c) : (e.bytes crc)[i]? = some c.1 := by
  have hlap : ∀ q, c.2 = some q → q < s.head + i + shape.capacity := by
    intro q hq
    by_contra hge
    obtain ⟨q', ho, hle⟩ := hc.grown q hq
    have hplace := h.store.place _ q' ho
    have hlt := h.owner_lt ho
    rcases h.owners _ q' ho with hbelow | ⟨w, hw, hstored⟩
    · omega
    · -- the one later position of the slot that is within reach
      have heq : q' ≤ s.head + i + shape.capacity := by
        refine Lap.le_of_mod_eq ?_ (by omega) (C := shape.capacity)
        rw [hplace, Nat.add_mod_right]
      rcases hsafe w hw q' hstored with hq' | hq' <;> omega
  have hbyte : (e.bytes crc)[i]? = some (e.bytes crc)[i] := List.getElem?_eq_getElem hi
  have hexact := (hc.exact hlap).2 _ ((h.entries _ e he).last i _ hbyte)
  rw [hbyte, hexact]

theorem Inv.recheck (h : Inv crc shape s) {out again : List (UInt8 × Option ℕ)} {raw : RawRead}
    (hread : s.read = some (.copy out again))
    (hdone : tryReadRecordAt crc (out.map (·.1)) (again.map (·.1)) = .done raw)
    (hsafe : s.Safe crc shape .access) : Inv crc shape (s.recheck shape raw) := by
  have hheadle := h.head_le
  unfold BroadcastRing.recheck
  split
  · exact h.answer hheadle (.inl rfl) ⟨by simp, by simp⟩ (by simp)
  · have hpub : s.publishPosition < s.head + shape.capacity := by omega
    obtain ⟨e, he, hcopy⟩ := h.read out again hread
    have hat := h.entries _ e he
    have hrechecking : s.rechecking crc = true := by
      unfold rechecking
      rw [hread]
      dsimp only
      rw [hdone]
    have hsafe' := fun w hw q hq => hsafe hrechecking hpub w hw q hq _ he rfl
    have hget : ∀ (l : List (UInt8 × Option ℕ)) (i : ℕ) (b : UInt8), (l.map (·.1))[i]? = some b →
        ∃ c, l[i]? = some c ∧ c.1 = b := by
      intro l i b hb
      rw [List.getElem?_map] at hb
      exact Option.map_eq_some_iff.mp hb
    have hraw : raw = e.raw := by
      refine hcopy.asked.raw_eq crc hat.ok (fun i hi b hb => ?_) (fun i hi b hb => ?_) hdone
      · obtain ⟨c, hc, rfl⟩ := hget out i b hb
        exact h.byte_eq he hpub hsafe' hi (hcopy.out i c hc hi)
      · obtain ⟨c, hc, rfl⟩ := hget again i b hb
        exact h.byte_eq he hpub hsafe' hi (hcopy.again i c hc hi)
    have hspan := RingEntry.span_pos hat.ok
    subst hraw
    cases e with
    | record r =>
      refine h.answer (by omega) hat.next ⟨by simp, by simp⟩ ?_
      rintro r' heq
      obtain rfl := TryRead.record.inj heq
      exact ⟨he, Nat.lt_add_of_pos_right hspan⟩
    | padding len => exact h.move_head (by omega) hat.next (by simp)

theorem Inv.set_copy (h : Inv crc shape s) {e : RingEntry} (he : (s.head, e) ∈ s.published)
    {out again : List (UInt8 × Option ℕ)} (hcopy : CopyOk crc shape s e out again) :
    Inv crc shape { s with read := some (.copy out again) } where
  store := h.store
  aligned := h.aligned
  entries p e he :=
    have hat := h.entries p e he
    ⟨hat.ok, hat.below, hat.fits, hat.last, hat.next⟩
  ordered := h.ordered
  head := h.head
  owners := h.owners
  write w hw :=
    have hok := h.write w hw
    ⟨hok.entry, hok.fits, hok.progress, hok.retry⟩
  read out' again' hr := by
    cases hr
    exact ⟨e, he, hcopy.asked, hcopy.out, hcopy.again⟩
  answers := h.answers
  order := h.order
  delivered := h.delivered

theorem Inv.access (h : Inv crc shape s) (hsafe : s.Safe crc shape .access) :
    Inv crc shape (s.access crc shape) := by
  have hheadle := h.head_le
  unfold BroadcastRing.access
  split
  · exact h
  · split_ifs with hempty hfar
    · exact h.answer le_rfl h.head ⟨by simp, by simp⟩ (by simp)
    · exact h.answer hheadle (.inl rfl) ⟨by simp, by simp⟩ (by simp)
    · obtain heq | ⟨e, he⟩ := h.head
      · exact absurd heq hempty
      · exact h.set_copy he ⟨⟨by simp, by simp⟩, by simp, by simp⟩
  · rename_i out again hread
    obtain ⟨e, he, hcopy⟩ := h.read out again hread
    split
    · rename_i hnext
      refine h.set_copy he ⟨?_, fun i c hi hlt => ?_, hcopy.again⟩
      · rw [List.map_append]
        exact hcopy.asked.copy crc hnext _
      · rw [List.getElem?_append] at hi
        split at hi
        · exact hcopy.out i c hi hlt
        · rw [List.getElem?_singleton] at hi
          split at hi
          · have hlen : i = out.length := by omega
            rw [← Option.some.inj hi, ← hlen]
            exact h.copied he hlt
          · cases hi
    · rename_i hnext
      refine h.set_copy he ⟨?_, hcopy.out, fun i c hi hlt => ?_⟩
      · rw [List.map_append]
        exact hcopy.asked.recopy crc hnext _
      · rw [List.getElem?_append] at hi
        split at hi
        · exact hcopy.again i c hi hlt
        · rw [List.getElem?_singleton] at hi
          split at hi
          · have hlen : i = again.length := by omega
            rw [← Option.some.inj hi, ← hlen]
            exact h.copied he hlt
          · cases hi
    · rename_i raw hdone
      exact h.recheck hread hdone hsafe

theorem Inv.exec (h : Inv crc shape s) {step : BroadcastStep} (hp : s.Possible step)
    (hsafe : s.Safe crc shape step) : Inv crc shape (s.exec crc shape step) := by
  cases step with
  | write r =>
    dsimp only [BroadcastRing.exec]
    split
    · exact h
    · have := shape.word
      exact h.startWrite hp.1 ⟨hp.2, by omega, hsafe⟩
  | storeByte => exact h.storeByte
  | publish => exact h.publish
  | subscribe =>
    have hread : s.read = none := hp
    exact h.move_head h.head_le (.inl rfl) (by simp [hread])
  | tryRead => exact h.move_head le_rfl h.head (by simp)
  | access => exact h.access hsafe

/-- **Reads are never torn.**  Where no record has the type of a padding and no
    read is confirmed over bytes that the write under way has stored, every
    record that a read returns was published at its position, in the order of
    publication, and no read fails. -/
theorem broadcast_reads_untorn (crc : Bytes → UInt32) (shape : RingShape) {steps : List BroadcastStep}
    (h : Trace.Admits (BroadcastRing.exec crc shape) (fun s step => s.Possible step ∧ s.Safe crc shape step)
      create steps) :
    (run crc shape create steps).delivered.Sublist (records (run crc shape create steps).published) ∧
      ∀ a ∈ (run crc shape create steps).answers, a.2 ≠ .corrupt ∧ a.2 ≠ .badCrc := by
  have hinv : Inv crc shape (run crc shape create steps) := by
    refine Trace.Admits.rule (P := fun is => Inv crc shape (run crc shape create is)) inv_create ?_ h
    rintro is step hinv ⟨hp, hsafe⟩
    unfold run at hinv ⊢
    rw [List.foldl_append]
    exact hinv.exec hp hsafe
  refine ⟨?_, hinv.answers⟩
  -- both lists go by position
  have hrecords : (records (run crc shape create steps).published).Pairwise fun a b => a.1 < b.1 := by
    refine List.pairwise_filterMap.mpr (hinv.ordered.imp ?_)
    rintro ⟨p, e⟩ ⟨p', e'⟩ hlt a ha b hb
    cases e <;> cases e' <;> cases ha <;> cases hb
    exact hlt
  refine List.sublist_of_subperm_of_pairwise (List.subperm_of_subset ?_ ?_) hinv.order hrecords
  · exact hinv.order.imp fun {a b} hlt heq => (heq ▸ hlt).false
  · exact fun d hd => (hinv.delivered d hd).2

/-! ### Two laps in one record -/

def smallRing : RingShape := .sixtyFour

def firstRecord : RingRecord := ⟨1, 0, List.replicate 8 1, []⟩

def secondRecord : RingRecord := ⟨7, 9, List.replicate 8 2, []⟩

/-- Its bytes 24 to 27 read as a length of 20. -/
def longRecord : RingRecord := ⟨3, 0, List.replicate 8 3, List.replicate 8 4 ++ [20, 0, 0, 0]⟩

def publishing (r : RingRecord) : List BroadcastStep :=
  .write r :: List.replicate r.total .storeByte ++ [.publish]

/-- A read of a record without a payload. -/
def reading : List BroadcastStep := .tryRead :: List.replicate 34 .access

/-- A read while the next record is being written. -/
theorem broadcast_reads_untorn_first :
    (run (fun _ => 0) smallRing create
      (publishing firstRecord ++ [.write secondRecord, .storeByte, .storeByte] ++ reading)).delivered =
        [(0, firstRecord)] ∧
    (run (fun _ => 0) smallRing create
      (publishing firstRecord ++ [.write secondRecord, .storeByte, .storeByte] ++
        reading)).delivered.Sublist
      (records (run (fun _ => 0) smallRing create
        (publishing firstRecord ++ [.write secondRecord, .storeByte, .storeByte] ++
          reading)).published) :=
  ⟨by decide +kernel, (broadcast_reads_untorn _ _ (by decide +kernel)).1⟩

/-- The long record is stored over the second one, up to its first word. -/
def overtaken : List BroadcastStep :=
  publishing firstRecord ++ [.subscribe] ++ publishing secondRecord ++
    (.write longRecord :: List.replicate 6 .storeByte ++ [.publish]) ++
    List.replicate 28 .storeByte ++ reading

theorem torn_read :
    ¬ ∀ (crc : Bytes → UInt32) (shape : RingShape) (steps : List BroadcastStep),
      Trace.Admits (BroadcastRing.exec crc shape) Possible create steps →
      (run crc shape create steps).delivered.Sublist (records (run crc shape create steps).published) ∧
        ∀ a ∈ (run crc shape create steps).answers, a.2 ≠ .corrupt ∧ a.2 ≠ .badCrc := by
  intro h
  have hsub := (h (fun _ => 0) smallRing overtaken (by decide +kernel)).1
  have hgiven : (24, ⟨0, 0, List.replicate 8 2, []⟩) ∈
      (run (fun _ => 0) smallRing create overtaken).delivered := by
    decide +kernel
  have hnever : (24, ⟨0, 0, List.replicate 8 2, []⟩) ∉
      records (run (fun _ => 0) smallRing create overtaken).published := by
    decide +kernel
  exact hnever (hsub.mem hgiven)

end BroadcastRing

end UltimaCluster
