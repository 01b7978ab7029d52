/-
  The session table over a run.

  A step looks one client up, writes at most that client, and then only evicts
  (`SessionTable.Shrinks`). The byte count is exact at every point in between, and
  each of the two loops ends where its bound holds.
-/
import UltimaCluster.Sessioned

namespace UltimaCluster

open ClientState (windowBytes)
open MapSum (total total_insert total_of_getElem?)

open Std

namespace SessionTable

variable {t u : SessionTable}

/-- The count is the bytes held. -/
def Exact (t : SessionTable) : Prop :=
  t.totalBytes = MapSum.total ClientState.windowBytes t.clients

/-- Evictions keep of an entry its marks and a tail of its window. -/
structure Shrinks (u t : SessionTable) : Prop where
  cfg : u.cfg = t.cfg
  entry : ∀ (c : UInt64) (st : ClientState), u.clients[c]? = some st →
    ∃ st₀ : ClientState, t.clients[c]? = some st₀ ∧
    st.highestSeq = st₀.highestSeq ∧ st.lastSeenPos = st₀.lastSeenPos ∧ st.window <:+ st₀.window

theorem Shrinks.refl (t : SessionTable) : t.Shrinks t :=
  ⟨rfl, fun _ st h => ⟨st, h, rfl, rfl, List.suffix_refl _⟩⟩

theorem Shrinks.trans {v : SessionTable} (huv : u.Shrinks v) (hvt : v.Shrinks t) : u.Shrinks t := by
  refine ⟨huv.cfg.trans hvt.cfg, fun c st h => ?_⟩
  obtain ⟨st₁, h₁, hs₁, hp₁, hw₁⟩ := huv.entry c st h
  obtain ⟨st₀, h₀, hs₀, hp₀, hw₀⟩ := hvt.entry c st₁ h₁
  exact ⟨st₀, h₀, hs₁.trans hs₀, hp₁.trans hp₀, hw₁.trans hw₀⟩

/-! ## One eviction -/

variable {id : UInt64}

theorem oldest_mem {excl : Option UInt64} (h : t.oldestClientExcluding excl = some id) :
    id ∈ t.clients ∧ some id ≠ excl := by
  obtain ⟨⟨id', st⟩, hmin, rfl⟩ := Option.map_eq_some_iff.mp h
  have hmem := List.argmin_mem (Option.mem_def.mpr hmin)
  obtain ⟨hin, hne⟩ := List.mem_filter.mp hmem
  have hget := ExtTreeMap.mem_toList_iff_getElem?_eq_some.mp hin
  exact ⟨ExtTreeMap.mem_iff_isSome_getElem?.mpr (by simp [hget]), by simpa using hne⟩

theorem oldest_none {excl : Option UInt64} (h : t.oldestClientExcluding excl = none)
    (hid : id ∈ t.clients) : some id = excl := by
  have hnil := List.argmin_eq_none.mp (Option.map_eq_none_iff.mp h)
  have hmem : (id, t.clients[id]) ∈ t.clients.toList := by
    rw [ExtTreeMap.mem_toList_iff_getElem?_eq_some]
    exact ExtTreeMap.getElem?_eq_some_getElem hid
  by_contra hne
  have hin : (id, t.clients[id]) ∈ t.clients.toList.filter fun e => some e.1 ≠ excl :=
    List.mem_filter.mpr ⟨hmem, by simpa using hne⟩
  rw [hnil] at hin
  exact List.not_mem_nil hin

theorem exists_getElem? {c : UInt64} (h : c ∈ t.clients) : ∃ st, t.clients[c]? = some st :=
  ⟨t.clients[c], ExtTreeMap.getElem?_eq_some_getElem h⟩

variable {st : ClientState}

theorem mem_of_getElem? {c : UInt64} (h : t.clients[c]? = some st) : c ∈ t.clients := by
  rw [ExtTreeMap.mem_iff_isSome_getElem?, h]
  rfl

theorem removeClient_of_getElem? (h : t.clients[id]? = some st) :
    t.removeClient id =
      { t with clients := t.clients.erase id, totalBytes := t.totalBytes - st.windowBytes } := by
  simp [removeClient, h]

theorem Exact.removeClient (h : t.Exact) (hid : id ∈ t.clients) : (t.removeClient id).Exact := by
  obtain ⟨st, hst⟩ := exists_getElem? hid
  rw [removeClient_of_getElem? hst]
  have hsum := total_of_getElem? (w := windowBytes) hst
  show t.totalBytes - st.windowBytes = total windowBytes (t.clients.erase id)
  rw [h, hsum]
  omega

theorem removeClient_shrinks (hid : id ∈ t.clients) : (t.removeClient id).Shrinks t := by
  obtain ⟨st, hst⟩ := exists_getElem? hid
  rw [removeClient_of_getElem? hst]
  refine ⟨rfl, fun c st' h => ?_⟩
  rw [ExtTreeMap.getElem?_erase] at h
  split_ifs at h
  exact ⟨st', h, rfl, rfl, List.suffix_refl _⟩

theorem removeClient_size (hid : id ∈ t.clients) :
    (t.removeClient id).clients.size + 1 = t.clients.size := by
  obtain ⟨st, hst⟩ := exists_getElem? hid
  have hpos : 0 < t.clients.size := by
    rw [← ExtTreeMap.length_toList]
    exact List.length_pos_of_mem (ExtTreeMap.mem_toList_iff_getElem?_eq_some.mpr hst)
  rw [removeClient_of_getElem? hst]
  rw [ExtTreeMap.size_erase, if_pos (by simpa using hid)]
  omega

theorem removeClient_held {id j : UInt64} (hid : id ∈ t.clients) (hne : id ≠ j) :
    (t.removeClient id).held j = t.held j := by
  obtain ⟨st, hst⟩ := exists_getElem? hid
  have hcmp : ¬ compare id j = .eq := fun h => hne (LawfulEqOrd.eq_of_compare h)
  rw [removeClient_of_getElem? hst]
  simp [held, ExtTreeMap.getElem?_erase, hcmp]

/-! ## The loops -/

theorem evictClients_keeps (n : ℕ) (h : t.Exact) :
    (evictClients n t).Exact ∧ (evictClients n t).Shrinks t := by
  induction n generalizing t with
  | zero => exact ⟨h, .refl t⟩
  | succ n ih =>
    rw [evictClients]
    split_ifs with hover
    · split
      · rename_i id hid
        have hmem := (oldest_mem hid).1
        obtain ⟨he, hs⟩ := ih (h.removeClient hmem)
        exact ⟨he, hs.trans (removeClient_shrinks hmem)⟩
      · exact ⟨h, .refl t⟩
    · exact ⟨h, .refl t⟩

theorem evictClients_size {n : ℕ} (hn : t.clients.size ≤ n) :
    (evictClients n t).clients.size ≤ t.cfg.maxClients.toNat := by
  induction n generalizing t with
  | zero => exact hn.trans (Nat.zero_le _)
  | succ n ih =>
    rw [evictClients]
    split_ifs with hover
    · split
      · rename_i id hid
        have hmem := (oldest_mem hid).1
        have hsize := removeClient_size hmem
        rw [← (removeClient_shrinks hmem).cfg]
        exact ih (by omega)
      · rename_i hnone
        -- nothing is excluded, so there is no client at all
        have hnil : t.clients.toList = [] := by
          by_contra hne
          obtain ⟨⟨c, st⟩, hc⟩ := List.exists_mem_of_ne_nil _ hne
          have hin := mem_of_getElem? (ExtTreeMap.mem_toList_iff_getElem?_eq_some.mp hc)
          exact absurd (oldest_none hnone hin) (by simp)
        rw [← ExtTreeMap.length_toList, hnil]
        exact Nat.zero_le _
    · omega

section PopFront

variable {j : UInt64} {st : ClientState} {e : UInt64 × Bytes} {rest : List (UInt64 × Bytes)}

theorem Exact.popFront (h : t.Exact) (hst : t.clients[j]? = some st) (hw : st.window = e :: rest) :
    (t.popFront j st e rest).Exact := by
  show t.totalBytes - e.2.length = total _ (t.clients.insert j { st with window := rest })
  have hsum := total_of_getElem? (w := windowBytes) hst
  have hbytes : st.windowBytes = e.2.length + windowBytes { st with window := rest } := by
    simp [windowBytes, hw]
  rw [h, hsum, hbytes, total_insert]
  omega

theorem popFront_shrinks (hst : t.clients[j]? = some st) (hw : st.window = e :: rest) :
    (t.popFront j st e rest).Shrinks t := by
  refine ⟨rfl, fun c st' h => ?_⟩
  rw [popFront, ExtTreeMap.getElem?_insert] at h
  split_ifs at h with hc
  · obtain rfl : j = c := LawfulEqOrd.eq_of_compare hc
    cases h
    exact ⟨st, hst, rfl, rfl, hw ▸ List.suffix_cons e rest⟩
  · exact ⟨st', h, rfl, rfl, List.suffix_refl _⟩

theorem popFront_size (hst : t.clients[j]? = some st) :
    (t.popFront j st e rest).clients.size = t.clients.size := by
  show (t.clients.insert j _).size = _
  rw [ExtTreeMap.size_insert, if_pos (by simpa using mem_of_getElem? hst)]

theorem popFront_held (hst : t.clients[j]? = some st) (hw : st.window = e :: rest) :
    (t.popFront j st e rest).held j + 1 = t.held j := by
  simp [held, popFront, hst, hw]

end PopFront

variable {j : UInt64}

theorem evictBytes_keeps (n : ℕ) (h : t.Exact) :
    (evictBytes j n t).Exact ∧ (evictBytes j n t).Shrinks t ∧
      (evictBytes j n t).clients.size ≤ t.clients.size := by
  induction n generalizing t with
  | zero => exact ⟨h, .refl t, le_rfl⟩
  | succ n ih =>
    rw [evictBytes]
    split_ifs with hover
    · split
      · rename_i id hid
        have hmem := (oldest_mem hid).1
        have hsize := removeClient_size hmem
        obtain ⟨he, hs, hle⟩ := ih (h.removeClient hmem)
        exact ⟨he, hs.trans (removeClient_shrinks hmem), by omega⟩
      · split
        · exact ⟨h, .refl t, le_rfl⟩
        · rename_i st hst
          split
          · rename_i e rest hw
            obtain ⟨he, hs, hle⟩ := ih (h.popFront hst hw)
            exact ⟨he, hs.trans (popFront_shrinks hst hw), hle.trans_eq (popFront_size hst)⟩
          · exact ⟨h, .refl t, le_rfl⟩
    · exact ⟨h, .refl t, le_rfl⟩

/-- The loop cannot stop early: with no other client and no response left, nothing
    is held. -/
theorem evictBytes_budget {n : ℕ} (h : t.Exact) (hn : t.clients.size + t.held j ≤ n) :
    (evictBytes j n t).totalBytes ≤ t.cfg.maxBytes.toNat := by
  have hempty : ∀ t : SessionTable, t.Exact → t.clients.size = 0 → t.totalBytes = 0 := by
    intro t h h0
    have hnil : t.clients.toList = [] := by
      rw [← List.length_eq_zero_iff, ExtTreeMap.length_toList, h0]
    rw [h, total, hnil]
    rfl
  induction n generalizing t with
  | zero =>
    rw [evictBytes, hempty t h (by omega)]
    exact Nat.zero_le _
  | succ n ih =>
    rw [evictBytes]
    split_ifs with hover
    · split
      · rename_i id hid
        obtain ⟨hmem, hne⟩ := oldest_mem hid
        have hsize := removeClient_size hmem
        have hheld := removeClient_held hmem fun heq => hne (congrArg some heq)
        rw [← (removeClient_shrinks hmem).cfg]
        exact ih (h.removeClient hmem) (by omega)
      · rename_i hnone
        have honly : ∀ c ∈ t.clients, c = j := fun c hc => Option.some.inj (oldest_none hnone hc)
        split
        · rename_i hj
          have hnil : t.clients.toList = [] := by
            by_contra hne
            obtain ⟨⟨c, st⟩, hc⟩ := List.exists_mem_of_ne_nil _ hne
            have hget := ExtTreeMap.mem_toList_iff_getElem?_eq_some.mp hc
            rw [honly c (mem_of_getElem? hget), hj] at hget
            cases hget
          rw [hempty t h (by rw [← ExtTreeMap.length_toList, hnil]; rfl)]
          exact Nat.zero_le _
        · rename_i st hst
          split
          · rename_i e rest hw
            have hheld := popFront_held hst hw
            have hsize : (t.popFront j st e rest).clients.size = t.clients.size := popFront_size hst
            exact ih (t := t.popFront j st e rest) (h.popFront hst hw) (by omega)
          · rename_i hw
            rw [h, MapSum.total_of_unique honly hst]
            simp [windowBytes, hw]
    · omega

/-! ## A fresh response -/

theorem trim_spec (n : ℕ) (l : List (UInt64 × Bytes)) :
    (trim n l).1 <:+ l ∧ (trim n l).1.length ≤ n ∧
      (l.map fun e => e.2.length).sum = (trim n l).2 + ((trim n l).1.map fun e => e.2.length).sum := by
  induction l with
  | nil => simp [trim]
  | cons e rest ih =>
    obtain ⟨hsuf, hlen, hsum⟩ := ih
    rw [trim]
    split_ifs with hn
    · refine ⟨hsuf.trans (List.suffix_cons e rest), hlen, ?_⟩
      simp only [List.map_cons, List.sum_cons, hsum]
      omega
    · exact ⟨List.suffix_refl _, Nat.le_of_not_lt hn, by simp⟩

/-- An entry is about the frames up to its highest sequence number. -/
structure Sane (cfg : SessionConfig) (st : ClientState) : Prop where
  highest : ∃ h, st.highestSeq = some h ∧ ∀ e ∈ st.window, e.1 ≤ h
  sorted : st.window.Pairwise fun e e' => e.1 < e'.1
  window : st.window.length ≤ cfg.window.toNat

theorem Sane.suffix {cfg : SessionConfig} {st st₀ : ClientState} (h : Sane cfg st₀)
    (hs : st.highestSeq = st₀.highestSeq) (hw : st.window <:+ st₀.window) : Sane cfg st := by
  obtain ⟨q, hq, hall⟩ := h.highest
  exact ⟨⟨q, hs.trans hq, fun e he => hall e (hw.mem he)⟩, h.sorted.sublist hw.sublist,
    hw.length_le.trans h.window⟩

/-- What every table keeps. -/
structure Ok (t : SessionTable) : Prop where
  exact : t.Exact
  budget : t.totalBytes ≤ t.cfg.maxBytes.toNat
  size : t.clients.size ≤ t.cfg.maxClients.toNat
  sane : ∀ (c : UInt64) (st : ClientState), t.clients[c]? = some st → Sane t.cfg st

theorem Ok.new (cfg : SessionConfig) : (new cfg).Ok where
  exact := MapSum.total_empty.symm
  budget := Nat.zero_le _
  size := Nat.zero_le _
  sane c st h := by simp [SessionTable.new] at h

variable {c q p : UInt64} {r : Bytes}

theorem see_window (t : SessionTable) (c p : UInt64) :
    total windowBytes t.clients =
      (t.see c p).windowBytes + total windowBytes (t.clients.erase c) := by
  cases hc : t.clients[c]? with
  | some st =>
    rw [total_of_getElem? hc]
    simp [see, hc, windowBytes]
  | none =>
    rw [MapSum.erase_of_getElem?_none hc]
    simp [see, hc, windowBytes]

theorem Exact.write (h : t.Exact) : (t.write c q (t.see c p) r).Exact := by
  obtain ⟨-, -, hsum⟩ := trim_spec t.cfg.window.toNat ((t.see c p).window ++ [(q, r)])
  have hsee := see_window t c p
  simp only [List.map_append, List.sum_append, List.map_cons, List.map_nil, List.sum_cons,
    List.sum_nil] at hsum
  show _ - _ = total windowBytes (t.clients.insert c _)
  rw [h, hsee, total_insert]
  simp only [windowBytes]
  omega

theorem write_getElem?_self (t : SessionTable) (st : ClientState) :
    (t.write c q st r).clients[c]? =
      some { st with
        highestSeq := some q
        window := (trim t.cfg.window.toNat (st.window ++ [(q, r)])).1 } := by
  simp [write]

theorem write_getElem?_ne {d : UInt64} (hd : c ≠ d) (t : SessionTable) (st : ClientState) :
    (t.write c q st r).clients[d]? = t.clients[d]? := by
  have hcmp : ¬ compare c d = .eq := fun h => hd (LawfulEqOrd.eq_of_compare h)
  simp [write, ExtTreeMap.getElem?_insert, hcmp]

theorem lt_of_retry {h : UInt64} (hr : st.retry q = none) (hh : st.highestSeq = some h) :
    h < q := by
  unfold ClientState.retry at hr
  simp only [hh] at hr
  split_ifs at hr with hle
  · split at hr <;> cases hr
  · grind

theorem Ok.lt_of_mem_see (h : t.Ok) (hr : (t.see c p).retry q = none) {e : UInt64 × Bytes}
    (he : e ∈ (t.see c p).window) : e.1 < q := by
  cases hc : t.clients[c]? with
  | none => simp [see, hc] at he
  | some st =>
    obtain ⟨q₀, hq₀, hall⟩ := (h.sane c st hc).highest
    have hlt := lt_of_retry (h := q₀) hr (by simp [see, hc, hq₀])
    have hle := hall e (by simpa [see, hc] using he)
    grind

theorem Ok.sorted_see (h : t.Ok) : (t.see c p).window.Pairwise fun e e' => e.1 < e'.1 := by
  cases hc : t.clients[c]? with
  | none => simp [see, hc]
  | some st => simpa [see, hc] using (h.sane c st hc).sorted

theorem record_shrinks (h : t.Exact) :
    (t.record c q (t.see c p) r).Shrinks (t.write c q (t.see c p) r) := by
  have hw := h.write (c := c) (q := q) (p := p) (r := r)
  obtain ⟨he, hs⟩ := evictClients_keeps (t.write c q (t.see c p) r).clients.size hw
  exact (evictBytes_keeps _ he).2.1.trans hs

theorem Ok.record (h : t.Ok) (hr : (t.see c p).retry q = none) :
    (t.record c q (t.see c p) r).Ok := by
  have hw := h.exact.write (c := c) (q := q) (p := p) (r := r)
  have hshrinks := record_shrinks (c := c) (q := q) (p := p) (r := r) h.exact
  obtain ⟨he, hs⟩ := evictClients_keeps (t.write c q (t.see c p) r).clients.size hw
  obtain ⟨he', hs', hsize⟩ := evictBytes_keeps (j := c)
    ((t.write c q (t.see c p) r).evictClientsOverCapacity.clients.size +
      (t.write c q (t.see c p) r).evictClientsOverCapacity.held c) he
  have hcfg : (t.record c q (t.see c p) r).cfg = t.cfg := hshrinks.cfg
  refine ⟨he', ?_, ?_, fun d st hd => ?_⟩
  · rw [hcfg]
    exact (evictBytes_budget he le_rfl).trans_eq (by rw [hs.cfg]; rfl)
  · rw [hcfg]
    exact hsize.trans (evictClients_size le_rfl)
  · obtain ⟨st₀, hst₀, hhigh, -, hsuf⟩ := hshrinks.entry d st hd
    rw [hcfg]
    refine Sane.suffix ?_ hhigh hsuf
    by_cases hcd : c = d
    · subst hcd
      rw [write_getElem?_self] at hst₀
      cases hst₀
      obtain ⟨htrim, hlen, -⟩ := trim_spec t.cfg.window.toNat ((t.see c p).window ++ [(q, r)])
      refine ⟨⟨q, rfl, fun e hmem => ?_⟩, List.Pairwise.sublist htrim.sublist ?_, hlen⟩
      · rcases List.mem_append.mp (htrim.mem hmem) with hold | hnew
        · have := h.lt_of_mem_see hr hold
          grind
        · rw [List.mem_singleton.mp hnew]
          grind
      · refine List.pairwise_append.mpr ⟨h.sorted_see, List.pairwise_singleton _ _, ?_⟩
        intro e he e' he'
        rw [List.mem_singleton.mp he']
        exact h.lt_of_mem_see hr he
    · rw [write_getElem?_ne hcd] at hst₀
      exact h.sane d st₀ hst₀

/-! ## A retry -/

theorem see_of_retry {out : Bytes} (h : (t.see c p).retry q = some out) :
    ∃ st, t.clients[c]? = some st ∧ t.see c p = { st with lastSeenPos := p } := by
  cases hc : t.clients[c]? with
  | some st => exact ⟨st, rfl, by simp [see, hc]⟩
  | none => simp [see, hc, ClientState.retry] at h

theorem Ok.retry (h : t.Ok) (hst : t.clients[c]? = some st) :
    Ok { t with clients := t.clients.insert c { st with lastSeenPos := p } } where
  exact := by
    show t.totalBytes = total windowBytes (t.clients.insert c _)
    rw [h.exact, total_insert, total_of_getElem? hst]
    rfl
  budget := h.budget
  size := by
    rw [ExtTreeMap.size_insert, if_pos (by simpa using mem_of_getElem? hst)]
    exact h.size
  sane d st' hd := by
    rw [ExtTreeMap.getElem?_insert] at hd
    split_ifs at hd
    · cases hd
      exact ⟨(h.sane c st hst).highest, (h.sane c st hst).sorted, (h.sane c st hst).window⟩
    · exact h.sane d st' hd

/-- The pair has been seen since its client is in the table, and the window holds no
    response for it but those that satisfy `P`. -/
def Answered (t : SessionTable) (c q : UInt64) (P : Bytes → Prop) : Prop :=
  ∃ st h, t.clients[c]? = some st ∧ st.highestSeq = some h ∧ q ≤ h ∧
    ∀ e ∈ st.window, e.1 = q → P e.2

variable {P : Bytes → Prop}

theorem answered_of_retry {out : Bytes} (h : (t.see c p).retry q = some out) :
    t.Answered c q fun _ => True := by
  obtain ⟨st, hst, hsee⟩ := see_of_retry h
  rw [hsee] at h
  unfold ClientState.retry at h
  simp only at h
  split at h
  · cases h
  · rename_i h' hh'
    split_ifs at h with hle
    exact ⟨st, h', hst, hh', hle, fun _ _ _ => trivial⟩

theorem Answered.shrinks (h : t.Answered c q P) (hut : u.Shrinks t) (hc : c ∈ u.clients) :
    u.Answered c q P := by
  obtain ⟨st, hst⟩ := exists_getElem? hc
  obtain ⟨st₀, hst₀, hhigh, -, hw⟩ := hut.entry c st hst
  obtain ⟨st₁, q₀, hst₁, hq₀, hle, hall⟩ := h
  obtain rfl : st₀ = st₁ := Option.some.inj (hst₀.symm.trans hst₁)
  exact ⟨st, q₀, hst, hhigh.trans hq₀, hle, fun e he => hall e (hw.mem he)⟩

theorem Answered.touch {d : UInt64} (h : t.Answered c q P) (hd : t.clients[d]? = some st) :
    Answered { t with clients := t.clients.insert d { st with lastSeenPos := p } } c q P := by
  obtain ⟨st₁, q₀, hst₁, hq₀, hle, hall⟩ := h
  by_cases hdc : d = c
  · subst hdc
    obtain rfl : st = st₁ := Option.some.inj (hd.symm.trans hst₁)
    exact ⟨_, q₀, ExtTreeMap.getElem?_insert_self, hq₀, hle, hall⟩
  · have hcmp : ¬ compare d c = .eq := fun h => hdc (LawfulEqOrd.eq_of_compare h)
    refine ⟨st₁, q₀, ?_, hq₀, hle, hall⟩
    simp [ExtTreeMap.getElem?_insert, hcmp, hst₁]

theorem Answered.write {d q' : UInt64} (h : t.Answered c q P)
    (hr : (t.see d p).retry q' = none) : (t.write d q' (t.see d p) r).Answered c q P := by
  obtain ⟨st, q₀, hst, hq₀, hle, hall⟩ := h
  by_cases hdc : d = c
  · subst hdc
    have hsee : t.see d p = { st with lastSeenPos := p } := by simp [see, hst]
    have hlt : q₀ < q' := lt_of_retry hr (by simp [hsee, hq₀])
    refine ⟨_, q', write_getElem?_self t _, rfl, by grind, fun e he heq => ?_⟩
    have hsuf := (trim_spec t.cfg.window.toNat ((t.see d p).window ++ [(q', r)])).1
    rcases List.mem_append.mp (hsuf.mem he) with hold | hnew
    · exact hall e (by simpa [hsee] using hold) heq
    · rw [List.mem_singleton.mp hnew] at heq
      grind
  · exact ⟨st, q₀, by rw [write_getElem?_ne hdc, hst], hq₀, hle, hall⟩

/-- The write of the pair itself: what was in the window before is of lower numbers. -/
theorem answered_write (h : t.Ok) (hr : (t.see c p).retry q = none) :
    (t.write c q (t.see c p) r).Answered c q (· = r) := by
  refine ⟨_, q, write_getElem?_self t _, rfl, by grind, fun e he heq => ?_⟩
  have hsuf := (trim_spec t.cfg.window.toNat ((t.see c p).window ++ [(q, r)])).1
  rcases List.mem_append.mp (hsuf.mem he) with hold | hnew
  · have := h.lt_of_mem_see hr hold
    grind
  · rw [List.mem_singleton.mp hnew]

theorem Answered.retry (h : t.Answered c q P) :
    (∃ e, (t.see c p).window.find? (·.1 = q) = some e ∧ P e.2 ∧
        (t.see c p).retry q = some (tagReplayed :: e.2)) ∨
      ((t.see c p).window.find? (·.1 = q) = none ∧ (t.see c p).retry q = some [tagExpired]) := by
  obtain ⟨st, q₀, hst, hq₀, hle, hall⟩ := h
  have hsee : t.see c p = { st with lastSeenPos := p } := by simp [see, hst]
  rw [hsee]
  unfold ClientState.retry
  simp only [hq₀, if_pos hle]
  cases hf : st.window.find? (·.1 = q) with
  | none => exact .inr ⟨rfl, rfl⟩
  | some e =>
    have heq : e.1 = q := by simpa using List.find?_some hf
    exact .inl ⟨e, rfl, hall e (List.mem_of_find?_eq_some hf) heq, rfl⟩

end SessionTable

end UltimaCluster
