/-
  The completion queue of the remote client (`uc_remote/src/completion.rs`): one
  producer, one consumer, a ring of records and an arena for their bodies.

  A step is one access to what the two sides share; the copy of a body and the
  read of one for a callback are one access each.  `push` publishes a record by
  its last store; `drain` gives the space of a batch back when all its callbacks
  have returned.

  `pushed` and `delivered` are kept for the statements and read by no step.
-/
import UltimaCluster.Lib.Bytes
import UltimaCluster.Lib.CellRing
import UltimaCluster.Lib.Blocks

namespace UltimaCluster

namespace Remote

/-- How a request ended. -/
inductive OutcomeTag where
  | response
  | unknown
  | payloadTooLarge
  | timedOut
  | closed
deriving DecidableEq

/-- `Record`; `seq` is the request that it completes, which the queue does not
    carry. -/
structure Record where
  userData : ℕ
  position : ℕ
  hasPosition : Bool
  tag : OutcomeTag
  replayed : Bool
  expired : Bool
  bodyOff : ℕ
  bodyLen : ℕ
  seq : ℕ
deriving DecidableEq

/-- `Record::simple`. -/
def Record.simple (seq userData : ℕ) (tag : OutcomeTag) : Record where
  userData
  position := 0
  hasPosition := false
  tag
  replayed := false
  expired := false
  bodyOff := 0
  bodyLen := 0
  seq

/-- The record as it is published. -/
def Record.placed (r : Record) (off len : ℕ) : Record := { r with bodyOff := off, bodyLen := len }

/-- The number of records and of bytes. -/
structure QueueSize where
  entries : ℕ
  arenaCapacity : ℕ
  entries_pos : 0 < entries

/-- Where `push` is: its next access. -/
inductive PushStage where
  | tail
  | arenaTail
  | copy
  | slot
  | arenaHead
  | head
deriving DecidableEq

/-- Where `drain` is: its next access.  `t` and `a` are the cursors that the
    batch has come to. -/
inductive DrainPc where
  | idle
  | head (max : ℕ)
  | slot (h t a left : ℕ)
  | body (r : Record) (h t a left : ℕ)
  | arenaTail (t a : ℕ)
  | tail (t : ℕ)
deriving DecidableEq

/-- The queue, and its drain. -/
structure CompletionQueue where
  slots : ℕ → Record
  arena : ℕ → UInt8
  head : ℕ
  tail : ℕ
  arenaHead : ℕ
  arenaTail : ℕ
  drain : DrainPc
  /-- The records that were published, with their bodies. -/
  pushed : List (Record × Bytes)
  /-- What the callbacks were given. -/
  delivered : List (Record × Bytes)

namespace CompletionQueue

variable {size : QueueSize} {q : CompletionQueue} {r : Record} {body : Bytes}

def new : CompletionQueue where
  slots _ := Record.simple 0 0 .closed
  arena _ := 0
  head := 0
  tail := 0
  arenaHead := 0
  arenaTail := 0
  drain := .idle
  pushed := []
  delivered := []

/-! ## Accesses -/

/-- What an access of `push` leads to. -/
inductive PushNext where
  | stage (s : PushStage)
  | refused
  | done
deriving DecidableEq

/-- There is room for a record and its body. -/
def Room (size : QueueSize) (q : CompletionQueue) (body : Bytes) : Prop :=
  q.head - q.tail < size.entries ∧ body.length ≤ size.arenaCapacity - (q.arenaHead - q.arenaTail)

instance (q : CompletionQueue) (body : Bytes) : Decidable (q.Room size body) :=
  inferInstanceAs (Decidable (_ ∧ _))

/-- The next access of `push`. -/
def push (size : QueueSize) (q : CompletionQueue) (r : Record) (body : Bytes) :
    PushStage → CompletionQueue × PushNext
  | .tail => (q, if q.head - q.tail < size.entries then .stage .arenaTail else .refused)
  | .arenaTail =>
    (q, if body.length ≤ size.arenaCapacity - (q.arenaHead - q.arenaTail) then .stage .copy
      else .refused)
  | .copy =>
    ({ q with arena := CellRing.write size.arenaCapacity q.arena q.arenaHead body }, .stage .slot)
  | .slot =>
    ({ q with
        slots := CellRing.write size.entries q.slots q.head [r.placed q.arenaHead body.length] },
      .stage .arenaHead)
  | .arenaHead => ({ q with arenaHead := q.arenaHead + body.length }, .stage .head)
  | .head =>
    ({ q with
        head := q.head + 1
        pushed := q.pushed ++ [(r.placed (q.arenaHead - body.length) body.length, body)] },
      .done)

/-- The next access of `drain`. -/
def drainStep (size : QueueSize) (q : CompletionQueue) : CompletionQueue :=
  match q.drain with
  | .idle => q
  | .head max => { q with drain := .slot q.head q.tail q.arenaTail max }
  | .slot h t a left =>
    if 0 < left ∧ t < h then { q with drain := .body (q.slots (t % size.entries)) h t a left }
    else if t = q.tail then { q with drain := .idle }
    else { q with drain := .arenaTail t a }
  | .body r h t _ left =>
    { q with
      delivered := q.delivered ++ [(r, CellRing.read size.arenaCapacity q.arena r.bodyOff r.bodyLen)]
      drain := .slot h (t + 1) (r.bodyOff + r.bodyLen) (left - 1) }
  | .arenaTail t a => { q with arenaTail := a, drain := .tail t }
  | .tail t => { q with tail := t, drain := .idle }

/-! ## The invariant -/

/-- The bodies of what was pushed. -/
def bodies (q : CompletionQueue) : List Bytes := q.pushed.map Prod.snd

/-- The records of what was pushed. -/
def records (q : CompletionQueue) : List Record := q.pushed.map Prod.fst

/-- A record that is being pushed, and how far. -/
abbrev Pushing := Option (Record × Bytes × PushStage)

/-- The body that is in the arena and not published. -/
def copied : Pushing → Bytes
  | some (_, body, .slot) | some (_, body, .arenaHead) | some (_, body, .head) => body
  | _ => []

/-- The record that is in its slot and not published. -/
def placed (q : CompletionQueue) : Pushing → List Record
  | some (r, body, .arenaHead) | some (r, body, .head) =>
    [r.placed q.bodies.flatten.length body.length]
  | _ => []

/-- What a producer was told of the consumer's cursors. -/
def Roomy (size : QueueSize) (q : CompletionQueue) : Pushing → Prop
  | none | some (_, _, .tail) => True
  | some (_, _, .arenaTail) => q.head + 1 ≤ q.tail + size.entries
  | some (_, body, _) => q.head + 1 ≤ q.tail + size.entries ∧
      q.bodies.flatten.length + body.length ≤ q.arenaTail + size.arenaCapacity

/-- The bytes that `arena_head` is ahead by. -/
def ahead : Pushing → ℕ
  | some (_, body, .head) => body.length
  | _ => 0

/-- How many records were handed to callbacks. -/
def cursor (q : CompletionQueue) : ℕ :=
  match q.drain with
  | .idle | .head _ => q.tail
  | .slot _ t _ _ | .body _ _ t _ _ | .arenaTail t _ | .tail t => t

/-- What the consumer knows where it is. -/
def DrainAt (q : CompletionQueue) : DrainPc → Prop
  | .idle | .head _ => q.arenaTail = Blocks.start q.bodies q.tail
  | .slot h t a _ => h ≤ q.head ∧ t ≤ h ∧ a = Blocks.start q.bodies t ∧
      q.arenaTail = Blocks.start q.bodies q.tail
  | .body r h t _ _ => h ≤ q.head ∧ t < h ∧ q.records[t]? = some r ∧
      q.arenaTail = Blocks.start q.bodies q.tail
  | .arenaTail t a => t ≤ q.head ∧ a = Blocks.start q.bodies t ∧
      q.arenaTail = Blocks.start q.bodies q.tail
  | .tail t => t ≤ q.head ∧ q.arenaTail = Blocks.start q.bodies t

/-- Bodies lie in the arena in order. -/
structure Piped (size : QueueSize) (q : CompletionQueue) (p : Pushing) : Prop where
  /-- A record says where its body is. -/
  placedAt : ∀ (i : ℕ) r body, q.pushed[i]? = some (r, body) →
    r.bodyOff = Blocks.start q.bodies i ∧ r.bodyLen = body.length
  head : q.head = q.pushed.length
  arenaHead : q.arenaHead = q.bodies.flatten.length + ahead p
  cursor_le : q.tail ≤ q.cursor ∧ q.cursor ≤ q.head
  occupied : q.head ≤ q.tail + size.entries
  arenaOccupied : q.bodies.flatten.length ≤ q.arenaTail + size.arenaCapacity
  roomy : q.Roomy size p
  slots : CellRing.Holds size.entries q.slots q.tail (q.records ++ q.placed p)
  arena : CellRing.Holds size.arenaCapacity q.arena q.arenaTail (q.bodies.flatten ++ copied p)
  delivered : q.delivered = q.pushed.take q.cursor
  drainAt : q.DrainAt q.drain

theorem piped_new : (new).Piped size none where
  placedAt := by simp [new]
  head := rfl
  arenaHead := rfl
  cursor_le := ⟨le_rfl, le_rfl⟩
  occupied := Nat.zero_le _
  arenaOccupied := Nat.zero_le _
  roomy := trivial
  slots := by
    intro i r _ hr
    simp [new, records, placed] at hr
  arena := by
    intro i b _ hb
    simp [new, bodies, copied] at hb
  delivered := rfl
  drainAt := rfl

theorem length_records (q : CompletionQueue) : q.records.length = q.pushed.length :=
  List.length_map _

theorem length_bodies (q : CompletionQueue) : q.bodies.length = q.pushed.length :=
  List.length_map _

section

variable {p : Pushing} (h : q.Piped size p)

include h

theorem Piped.arenaTail_le : q.arenaTail ≤ Blocks.start q.bodies q.cursor := by
  have hat := h.drainAt
  have hcur := h.cursor_le.1
  unfold cursor at hcur ⊢
  cases hd : q.drain with
  | idle | head max =>
    rw [hd] at hat
    exact hat.le
  | slot hh t a left =>
    rw [hd] at hat hcur
    exact hat.2.2.2.le.trans (Blocks.start_mono hcur)
  | body r hh t a left =>
    rw [hd] at hat hcur
    exact hat.2.2.2.le.trans (Blocks.start_mono hcur)
  | arenaTail t a =>
    rw [hd] at hat hcur
    exact hat.2.2.le.trans (Blocks.start_mono hcur)
  | tail t =>
    rw [hd] at hat
    exact hat.2.le

/-! ## The consumer -/

theorem Piped.setDrain (pc : DrainPc) (hcur : CompletionQueue.cursor { q with drain := pc } = q.cursor)
    (hat : q.DrainAt pc) : Piped size { q with drain := pc } p := by
  refine { h with cursor_le := ?_, roomy := ?_, slots := ?_, delivered := ?_, drainAt := ?_ }
  · rw [hcur]
    exact h.cursor_le
  · have := h.roomy
    rcases p with _ | ⟨r, body, _ | _ | _ | _ | _ | _⟩ <;> exact this
  · have := h.slots
    rcases p with _ | ⟨r, body, _ | _ | _ | _ | _ | _⟩ <;> exact this
  · rw [hcur]
    exact h.delivered
  · cases pc <;> exact hat

theorem Piped.release {t a : ℕ} {pc : DrainPc} (htail : q.tail ≤ t) (ha : q.arenaTail ≤ a)
    (hcur : CompletionQueue.cursor { q with tail := t, arenaTail := a, drain := pc } = q.cursor)
    (hle : t ≤ q.cursor) (hat : DrainAt { q with tail := t, arenaTail := a, drain := pc } pc) :
    Piped size { q with tail := t, arenaTail := a, drain := pc } p := by
  have hocc := h.occupied
  have hacc := h.arenaOccupied
  refine ⟨h.placedAt, h.head, h.arenaHead, ?_, ?_, ?_, ?_, ?_, ?_, ?_, hat⟩
  · rw [hcur]
    exact ⟨hle, h.cursor_le.2⟩
  · show q.head ≤ t + size.entries
    omega
  · show q.bodies.flatten.length ≤ a + size.arenaCapacity
    omega
  · have hroom := h.roomy
    rcases p with _ | ⟨r, body, _ | _ | _ | _ | _ | _⟩
    · trivial
    · trivial
    · exact hroom.trans (Nat.add_le_add_right htail _)
    all_goals exact ⟨hroom.1.trans (Nat.add_le_add_right htail _), hroom.2.trans (Nat.add_le_add_right ha _)⟩
  · have := h.slots.mono htail
    rcases p with _ | ⟨r, body, _ | _ | _ | _ | _ | _⟩ <;> exact this
  · exact h.arena.mono ha
  · rw [hcur]
    exact h.delivered

theorem Piped.callback {r : Record} {hh t a left : ℕ} (hd : q.drain = .body r hh t a left) :
    q.pushed[t]? = some (r, CellRing.read size.arenaCapacity q.arena r.bodyOff r.bodyLen) := by
  have hat := h.drainAt
  have htail := h.arenaTail_le
  unfold cursor at htail
  rw [hd] at hat htail
  obtain ⟨hle, hlt, hrec, -⟩ := hat
  have ht : t < q.pushed.length := by
    have := h.head
    omega
  obtain ⟨⟨r', body⟩, hget⟩ : ∃ x, q.pushed[t]? = some x := ⟨_, List.getElem?_eq_getElem ht⟩
  have hr : r' = r := by
    rw [records, List.getElem?_map, hget, Option.map_some, Option.some.injEq] at hrec
    exact hrec
  subst hr
  obtain ⟨hoff, hlen⟩ := h.placedAt t r' body hget
  have hbody : q.bodies[t]? = some body := by rw [bodies, List.getElem?_map, hget, Option.map_some]
  have hsucc := Blocks.start_succ hbody
  have hend : Blocks.start q.bodies t + body.length ≤ q.bodies.flatten.length := by
    rw [← hsucc, ← Blocks.start_length]
    refine Blocks.start_mono ?_
    rw [length_bodies]
    exact ht
  rw [hget, hoff, hlen, h.arena.left.read htail hend]
  have hblock := Blocks.range_block hbody
  rw [hsucc, Blocks.range, Nat.add_sub_cancel_left] at hblock
  rw [hblock]

theorem Piped.drainStep : (q.drainStep size).Piped size p := by
  have hat := h.drainAt
  have hcur := h.cursor_le
  have hdel := h.delivered
  unfold cursor at hcur hdel
  cases hd : q.drain with
  | idle =>
    simp only [CompletionQueue.drainStep, hd]
    exact h
  | head max =>
    rw [hd] at hat
    simp only [CompletionQueue.drainStep, hd]
    refine h.setDrain _ ?_ ?_
    · simp only [cursor, hd]
    · rw [hd] at hcur
      exact ⟨le_rfl, hcur.2, hat, hat⟩
  | slot hh t a left =>
    rw [hd] at hat hcur
    obtain ⟨hle, ht, ha, harena⟩ := hat
    simp only [CompletionQueue.drainStep, hd]
    split
    · rename_i hmore
      refine h.setDrain _ (by simp only [cursor, hd]) ⟨hle, hmore.2, ?_, harena⟩
      have hlt : t < q.records.length := by
        rw [length_records, ← h.head]
        omega
      have hget : (q.records ++ q.placed p)[t]? = some q.records[t] := by
        rw [List.getElem?_append_left hlt, List.getElem?_eq_getElem hlt]
      rw [h.slots t _ hcur.1 hget, List.getElem?_eq_getElem hlt]
    · split
      · rename_i heq
        refine h.setDrain _ ?_ harena
        simp only [cursor, hd, heq]
      · exact h.setDrain _ (by simp only [cursor, hd]) ⟨ht.trans hle, ha, harena⟩
  | body r hh t a left =>
    have hget := h.callback hd
    rw [hd] at hat hcur hdel
    dsimp only at hcur hdel
    obtain ⟨hle, hlt, -, harena⟩ := hat
    obtain ⟨hoff, hlen⟩ := h.placedAt t _ _ hget
    have hbody : q.bodies[t]? = some (CellRing.read size.arenaCapacity q.arena r.bodyOff r.bodyLen) := by
      rw [bodies, List.getElem?_map, hget, Option.map_some]
    simp only [CompletionQueue.drainStep, hd]
    refine { h with cursor_le := ?_, roomy := ?_, slots := ?_, delivered := ?_, drainAt := ?_ }
    · show q.tail ≤ t + 1 ∧ t + 1 ≤ q.head
      omega
    · have := h.roomy
      rcases p with _ | ⟨r, body, _ | _ | _ | _ | _ | _⟩ <;> exact this
    · have := h.slots
      rcases p with _ | ⟨r, body, _ | _ | _ | _ | _ | _⟩ <;> exact this
    · show q.delivered ++ [_] = q.pushed.take (t + 1)
      rw [hdel, List.take_add_one, hget, Option.toList_some]
    · refine ⟨hle, hlt, ?_, harena⟩
      show r.bodyOff + r.bodyLen = Blocks.start q.bodies (t + 1)
      rw [Blocks.start_succ hbody]
      omega
  | arenaTail t a =>
    have htail := h.arenaTail_le
    unfold cursor at htail
    rw [hd] at hat hcur htail
    obtain ⟨hle, ha, -⟩ := hat
    simp only [CompletionQueue.drainStep, hd]
    refine h.release le_rfl (ha ▸ htail) (by simp only [cursor, hd]) h.cursor_le.1 ⟨hle, ha⟩
  | tail t =>
    rw [hd] at hat hcur
    simp only [CompletionQueue.drainStep, hd]
    refine h.release hcur.1 le_rfl (by simp only [cursor, hd]) (by simp only [cursor, hd]; exact le_rfl)
      hat.2

/-! ## The producer -/

theorem Piped.start (hp : p = none) (r : Record) (body : Bytes) :
    q.Piped size (some (r, body, .tail)) := by
  subst hp
  exact { h with roomy := trivial }

omit h in
/-- What holds after an access of `push`. -/
def Pushed (size : QueueSize) (q : CompletionQueue) (r : Record) (body : Bytes) : PushNext → Prop
  | .stage s => q.Piped size (some (r, body, s))
  | .refused | .done => q.Piped size none

theorem Piped.copy (hp : p = some (r, body, .copy)) :
    Piped size { q with arena := CellRing.write size.arenaCapacity q.arena q.arenaHead body }
      (some (r, body, .slot)) := by
  subst hp
  have hroom := h.roomy
  have htail := h.arenaTail_le
  have hhead : q.arenaHead = q.bodies.flatten.length := h.arenaHead
  have hle : q.arenaTail ≤ q.bodies.flatten.length := by
    refine htail.trans ?_
    rw [← Blocks.start_length]
    refine Blocks.start_mono ?_
    rw [length_bodies, ← h.head]
    exact h.cursor_le.2
  refine { h with roomy := hroom, arena := ?_, drainAt := ?_ }
  · rw [hhead]
    have hold := h.arena
    simp only [copied, List.append_nil] at hold
    exact hold.append hle hroom.2
  · have := h.drainAt
    cases hd : q.drain <;> rw [hd] at this <;> exact this

theorem Piped.place (hp : p = some (r, body, .slot)) :
    Piped size { q with
      slots := CellRing.write size.entries q.slots q.head [r.placed q.arenaHead body.length] }
      (some (r, body, .arenaHead)) := by
  subst hp
  have hroom := h.roomy
  have hhead : q.arenaHead = q.bodies.flatten.length := h.arenaHead
  have hlen : q.head = q.records.length := by rw [length_records, h.head]
  refine { h with roomy := hroom, slots := ?_, drainAt := ?_ }
  · have hold := h.slots
    simp only [placed, List.append_nil] at hold
    rw [hlen, hhead]
    refine hold.append ?_ ?_
    · rw [← hlen]
      exact h.cursor_le.1.trans h.cursor_le.2
    · rw [← hlen, List.length_singleton]
      exact hroom.1
  · have := h.drainAt
    cases hd : q.drain <;> rw [hd] at this <;> exact this

omit h in
/-- A record that is published behind them does not move those that are
    drained. -/
theorem DrainAt.grow {q' : CompletionQueue} {pc : DrainPc} {x : Record} (hat : q.DrainAt pc)
    (hb : q'.bodies = q.bodies ++ [body]) (hr : q'.records = q.records ++ [x])
    (hhead : q'.head = q.head + 1) (htail : q'.tail = q.tail) (harena : q'.arenaTail = q.arenaTail)
    (hle : q.tail ≤ q.pushed.length) (hlen : q.head ≤ q.pushed.length) : q'.DrainAt pc := by
  have hstart : ∀ i, i ≤ q.pushed.length → Blocks.start q'.bodies i = Blocks.start q.bodies i := by
    intro i hi
    rw [hb, Blocks.start_append]
    rwa [length_bodies]
  have hs := hstart _ hle
  cases pc with
  | idle | head max =>
    rw [DrainAt, htail, harena, hs]
    exact hat
  | slot hh t a left =>
    obtain ⟨h1, h2, h3, h4⟩ := hat
    rw [DrainAt, hhead, htail, harena, hs, hstart t (by omega)]
    exact ⟨h1.trans (Nat.le_succ _), h2, h3, h4⟩
  | body r' hh t a left =>
    obtain ⟨h1, h2, h3, h4⟩ := hat
    rw [DrainAt, hhead, htail, harena, hs, hr,
      List.getElem?_append_left (List.getElem?_eq_some_iff.mp h3).1]
    exact ⟨h1.trans (Nat.le_succ _), h2, h3, h4⟩
  | arenaTail t a =>
    obtain ⟨h1, h2, h3⟩ := hat
    rw [DrainAt, hhead, htail, harena, hs, hstart t (by omega)]
    exact ⟨h1.trans (Nat.le_succ _), h2, h3⟩
  | tail t =>
    rw [DrainAt, hhead, harena, hstart t (hat.1.trans hlen)]
    exact ⟨hat.1.trans (Nat.le_succ _), hat.2⟩

theorem Piped.publish (hp : p = some (r, body, .head)) :
    Piped size { q with
      head := q.head + 1
      pushed := q.pushed ++ [(r.placed (q.arenaHead - body.length) body.length, body)] } none := by
  subst hp
  have hroom := h.roomy
  have hhead : q.arenaHead = q.bodies.flatten.length + body.length := h.arenaHead
  have hoff : q.arenaHead - body.length = q.bodies.flatten.length := by omega
  have hbodies : ∀ x : Record, CompletionQueue.bodies { q with
      head := q.head + 1, pushed := q.pushed ++ [(x, body)] } = q.bodies ++ [body] := by
    intro x
    simp [bodies]
  have hcur : ∀ x : Record, CompletionQueue.cursor { q with
      head := q.head + 1, pushed := q.pushed ++ [(x, body)] } = q.cursor := fun _ => rfl
  have hle : q.cursor ≤ q.bodies.length := by
    rw [length_bodies, ← h.head]
    exact h.cursor_le.2
  have hstart : ∀ i, i ≤ q.head →
      Blocks.start (q.bodies ++ [body]) i = Blocks.start q.bodies i := by
    intro i hi
    refine Blocks.start_append ?_
    rw [length_bodies, ← h.head]
    exact hi
  have htail := h.cursor_le.1.trans h.cursor_le.2
  rw [hoff]
  refine ⟨?_, ?_, ?_, ?_, ?_, ?_, trivial, ?_, ?_, ?_, ?_⟩
  · intro i r' b hget
    rw [hbodies]
    rcases Nat.lt_or_ge i q.pushed.length with hi | hi
    · rw [List.getElem?_append_left hi] at hget
      obtain ⟨h1, h2⟩ := h.placedAt i r' b hget
      exact ⟨by rw [h1, hstart i (by rw [h.head]; exact hi.le)], h2⟩
    · have hlt := (List.getElem?_eq_some_iff.mp hget).1
      rw [List.length_append, List.length_singleton] at hlt
      obtain rfl : i = q.pushed.length := by omega
      rw [List.getElem?_concat_length, Option.some.injEq, Prod.mk.injEq] at hget
      obtain ⟨rfl, rfl⟩ := hget
      refine ⟨?_, rfl⟩
      rw [hstart _ h.head.ge, ← length_bodies, Blocks.start_length]
      rfl
  · rw [List.length_append, List.length_singleton, h.head]
  · rw [hbodies, List.flatten_append, List.length_append]
    simpa [ahead] using hhead
  · rw [hcur]
    exact ⟨h.cursor_le.1, h.cursor_le.2.trans (Nat.le_succ _)⟩
  · exact hroom.1
  · rw [hbodies, List.flatten_append, List.length_append]
    simpa using hroom.2
  · have hold := h.slots
    simp only [records, placed, List.map_append, List.map_cons, List.map_nil, List.append_nil] at hold ⊢
    exact hold
  · have hold := h.arena
    rw [hbodies, List.flatten_append]
    simpa [copied] using hold
  · rw [hcur, List.take_append_of_le_length]
    · exact h.delivered
    · rwa [← length_bodies]
  · exact h.drainAt.grow (hbodies _) List.map_append rfl rfl rfl (htail.trans h.head.le) h.head.le

/-- An access of `push`. -/
theorem Piped.push {stage : PushStage} (hp : p = some (r, body, stage)) :
    Pushed size (q.push size r body stage).1 r body (q.push size r body stage).2 := by
  cases stage with
  | tail =>
    subst hp
    simp only [CompletionQueue.push]
    split
    · refine { h with roomy := ?_ }
      show q.head + 1 ≤ q.tail + size.entries
      omega
    · exact { h with roomy := trivial }
  | arenaTail =>
    subst hp
    have hhead : q.arenaHead = q.bodies.flatten.length := h.arenaHead
    have hocc := h.arenaOccupied
    simp only [CompletionQueue.push]
    split
    · refine { h with roomy := ⟨h.roomy, ?_⟩ }
      omega
    · exact { h with roomy := trivial }
  | copy => exact h.copy hp
  | slot => exact h.place hp
  | arenaHead =>
    subst hp
    have hat := h.drainAt
    refine { h with arenaHead := ?_, drainAt := ?_ }
    · simp only [CompletionQueue.push, h.arenaHead]
      rfl
    · simp only [CompletionQueue.push]
      cases hd : q.drain <;> rw [hd] at hat <;> exact hat
  | head => exact h.publish hp

end

theorem push_pushed (size : QueueSize) (q : CompletionQueue) (r : Record) (body : Bytes) (stage : PushStage) :
    ((q.push size r body stage).2 = .done → ∃ off len,
      (q.push size r body stage).1.pushed = q.pushed ++ [(r.placed off len, body)]) ∧
    ((q.push size r body stage).2 ≠ .done → (q.push size r body stage).1.pushed = q.pushed) := by
  cases stage with
  | tail | arenaTail =>
    simp only [push]
    split <;> simp
  | copy | slot | arenaHead => simp [push]
  | head => exact ⟨fun _ => ⟨_, _, rfl⟩, fun hne => absurd rfl hne⟩

theorem drainStep_pushed (size : QueueSize) (q : CompletionQueue) :
    (q.drainStep size).pushed = q.pushed := by
  unfold drainStep
  repeat' split
  all_goals rfl

end CompletionQueue

end Remote

end UltimaCluster
