/-
  RampRdma.Server.ReadEnds — when a one-sided read ends.

  `RDMAWriteSocket::read` polls two words that only `Entry::update` makes non-zero. A slot
  that `get_item_addr` binds is updated at once; one that `invalidate` binds, on the first
  PREPARE or PUT of its key, is not, and `get_item_addr` hands its address out all the
  same. Such a slot is first written by a COMMIT whose timestamp finds a version of the key
  and is past the key's newest committed one (a PUT moves that one up).

  `Written` is that condition, of the history alone. `slot_inv` is the invariant: a bound
  slot holds an item if and only if its key is `Written`.
  - `read_ends_iff`: a read of an address handed out ends if and only if its key is
    `Written`, and then it returns 0 or -1.
  - `read_hangs`: PREPARE, then `get_item_addr`: the read polls for ever.
-/

import Mathlib
import RampRdma.Data
import RampRdma.Lib.Runs
import RampRdma.Server.Bindings
import RampRdma.Wire

namespace RampRdma

open Runs

variable {C : Codec}

/-- `commit(ts)` finds a version of `k` newer than the newest committed. -/
def Store.Commits (t : Store) (ts : Timestamp) (k : Key) : Prop := t.latest k < ts ∧ ∃ i ∈ t.versions ts, i.key = k

/-- The call that writes the slot of `k` after the calls `pre`. -/
def WrittenBy (k : Key) (pre : List Call) (c : Call) : Prop :=
  (c = .get_item_addr k ∧ ∀ c' ∈ pre, c'.touches ≠ some k) ∨
  ∃ ts, c = .commit ts ∧ (pre.foldl Store.call {}).Commits ts k

/-- The first call that touches `k` is a `get_item_addr`, or some commit rewrites its slot. -/
def Written (k : Key) (cs : List Call) : Prop := Somewhere (WrittenBy k) cs

theorem written_snoc {k : Key} {cs : List Call} {c : Call} :
    Written k (cs ++ [c]) ↔ Written k cs ∨ WrittenBy k cs c := somewhere_snoc

structure SlotInv (cs : List Call) (a : AbsTable) : Prop where
  store : a.toStore = cs.foldl Store.call {}
  bound : ∀ ts, ∀ i ∈ a.versions ts, a.cache.binding i.key ≠ none
  touched : ∀ k, a.cache.binding k = none ↔ ∀ c ∈ cs, c.touches ≠ some k
  unbound : ∀ k, a.cache.binding k = none → ¬ Written k cs
  held : ∀ k s, a.cache.binding k = some (some s) → ((∃ v i, s = .holds v i) ↔ Written k cs)

theorem stale_holds (s : Slot) : (∃ v i, s.stale = .holds v i) ↔ ∃ v i, s = .holds v i := by
  cases s with
  | blank v => simp [Slot.stale]
  | holds v i => simp [Slot.stale]

theorem slotInv_init (n : Nat) : SlotInv [] (.init n) where
  store := rfl
  bound ts i hi := by cases hi
  touched k := by simp [AbsTable.init, Cache.init]
  unbound k _ := somewhere_nil _
  held k s h := by cases h

theorem forall_snoc {α : Type} {P : α → Prop} {as : List α} {a : α} :
    (∀ x ∈ as ++ [a], P x) ↔ (∀ x ∈ as, P x) ∧ P a := by
  rw [List.forall_mem_append, List.forall_mem_singleton]

/-- A call that writes no slot, and touches the key `key` only. -/
theorem slotInv_invalidate {cs : List Call} {a : AbsTable} (hi : SlotInv cs a) {c : Call} {item : Item}
    (ht : c.touches = some item.key) (hit : c.item = some item) (hw : ∀ k pre, ¬ WrittenBy k pre c) {b : Cache}
    (hb : a.cache.invalidate item.key = .ok b) : SlotInv (cs ++ [c]) ⟨a.toStore.call c, b⟩ := by
  obtain ⟨hne, hk⟩ := Cache.invalidate_cases hb
  have hkey : b.binding item.key ≠ none := by
    rcases hk with ⟨-, -, h, -⟩ | ⟨n, -, -, h, -⟩ | ⟨s, -, h, -⟩ <;> rw [h] <;> simp
  refine ⟨by rw [List.foldl_append, ← hi.store]; rfl, ?_, ?_, ?_, ?_⟩
  · intro ts i hm
    show b.binding i.key ≠ none
    by_cases e : i.key = item.key
    · rw [e]; exact hkey
    · rw [hne _ e]
      rcases mem_versions_call.mp hm with hm | ⟨h, -⟩
      · exact hi.bound ts i hm
      · rw [hit] at h
        cases h
        exact absurd rfl e
  · intro k
    show b.binding k = none ↔ _
    rw [forall_snoc, ht]
    by_cases e : k = item.key
    · subst e; simp [hkey]
    · rw [hne _ e, hi.touched k]
      simp [Ne.symm e]
  · intro k h
    rw [written_snoc]
    rintro (h' | h')
    · by_cases e : k = item.key
      · subst e; exact hkey h
      · exact hi.unbound k (by rw [← hne _ e]; exact h) h'
    · exact hw _ _ h'
  · intro k s h
    rw [written_snoc, or_iff_left (hw _ _)]
    by_cases e : k = item.key
    · subst e
      have h : b.binding item.key = some (some s) := h
      rcases hk with ⟨-, -, h1, -⟩ | ⟨n, h0, -, h1, -⟩ | ⟨s', h0, h1, -⟩ <;> rw [h1] at h <;> cases h
      · simpa using hi.unbound _ h0
      · rw [stale_holds]
        exact hi.held _ s' h0
    · exact hi.held k s (by rw [← hne _ e]; exact h)

theorem slotInv_commit {cs : List Call} {a a' : AbsTable} {ts : Timestamp} (hi : SlotInv cs a)
    (h : a.call C (.commit ts) = .ok a') : SlotInv (cs ++ [.commit ts]) a' := by
  have hst := AbsTable.call_store h
  have hrun : run (AbsTable.commit_item C ts) a (a.versions ts) = .ok a' := h
  have hw : ∀ k, WrittenBy k cs (.commit ts) ↔ a.Commits ts k := by
    intro k; simp [WrittenBy, hi.store]
  have hnone : ∀ k, a'.cache.binding k = none ↔ a.cache.binding k = none := by
    intro k
    rcases AbsTable.commit_items_cases (k := k) _ hrun with ⟨hb, -⟩ | ⟨i, -, -, -, ⟨s, h0⟩, h1⟩
    · rw [hb]
    · rw [h0, h1]; simp
  have hunb : ∀ k, a.cache.binding k = none → ¬ a.Commits ts k := by
    rintro k h0 ⟨-, i, hm, rfl⟩
    exact hi.bound ts i hm h0
  refine ⟨by rw [hst, List.foldl_append, ← hi.store]; rfl, ?_, ?_, ?_, ?_⟩
  · intro ts' i hm
    rw [hst] at hm
    rw [ne_eq, hnone]
    rcases mem_versions_call.mp hm with hm | ⟨hno, -⟩
    · exact hi.bound ts' i hm
    · cases hno
  · intro k
    rw [hnone, hi.touched k, forall_snoc]
    simp [Call.touches]
  · intro k h0
    rw [hnone] at h0
    rw [written_snoc, hw]
    exact not_or.mpr ⟨hi.unbound k h0, hunb k h0⟩
  · intro k s hs
    rw [written_snoc, hw]
    rcases AbsTable.commit_items_cases (k := k) _ hrun with ⟨hb, hwhy⟩ | ⟨i, hm, hik, hlt, -, h1⟩
    · rw [hb] at hs
      have hno : ¬ a.Commits ts k := by
        rintro ⟨hlt, i, hm, hik⟩
        rcases hwhy with h0 | h0 | h0
        · rw [hs] at h0; cases h0
        · exact h0 hlt
        · exact h0 i hm hik
      rw [or_iff_left hno]
      exact hi.held k s hs
    · rw [h1] at hs
      cases hs
      exact iff_of_true ⟨true, i, rfl⟩ (.inr ⟨hlt, i, hm, hik⟩)

theorem slotInv_get_item_addr {cs : List Call} {a a' : AbsTable} {key : Key} (hi : SlotInv cs a)
    (h : a.call C (.get_item_addr key) = .ok a') : SlotInv (cs ++ [.get_item_addr key]) a' := by
  obtain ⟨b, hb, he⟩ := bind_ok.mp h
  cases he
  obtain ⟨hne, hk⟩ := Cache.get_item_addr_cases hb
  have hw : ∀ k, WrittenBy k cs (.get_item_addr key) ↔ k = key ∧ a.cache.binding k = none := by
    intro k
    rw [hi.touched k]
    simp [WrittenBy, eq_comm]
  have hkey : b.binding key ≠ none := by
    rcases hk with ⟨n, -, -, -, h1⟩ | ⟨s, h0, rfl⟩
    · rw [h1]; simp
    · rw [h0]; simp
  have hold : ∀ k, b.binding k = none → k ≠ key ∧ a.cache.binding k = none := by
    intro k hk0
    have e : k ≠ key := by rintro rfl; exact hkey hk0
    exact ⟨e, by rw [← hne _ e]; exact hk0⟩
  refine ⟨by rw [List.foldl_append, ← hi.store]; rfl, ?_, ?_, ?_, ?_⟩
  · intro ts i hm h0
    exact hi.bound ts i hm (hold _ h0).2
  · intro k
    show b.binding k = none ↔ _
    rw [forall_snoc]
    by_cases e : k = key
    · subst e; simp [hkey, Call.touches]
    · rw [hne _ e, hi.touched k]
      simp [Call.touches, Ne.symm e]
  · intro k h0
    obtain ⟨e, h0⟩ := hold k h0
    rw [written_snoc, hw]
    exact not_or.mpr ⟨hi.unbound k h0, fun h => e h.1⟩
  · intro k s hs
    have hs : b.binding k = some (some s) := hs
    rw [written_snoc, hw]
    by_cases e : k = key
    · subst e
      rcases hk with ⟨n, h0, -, -, h1⟩ | ⟨s0, h0, rfl⟩
      · rw [h1] at hs
        cases hs
        exact iff_of_true ⟨true, _, rfl⟩ (.inr ⟨rfl, h0⟩)
      · -- already bound: nothing changes
        rw [or_iff_left fun h => by rw [h0] at h; cases h.2]
        exact hi.held k s hs
    · rw [hne _ e] at hs
      rw [or_iff_left fun h => e h.1]
      exact hi.held k s hs

theorem slotInv_call {cs : List Call} {a a' : AbsTable} {c : Call} (hi : SlotInv cs a) (h : a.call C c = .ok a') :
    SlotInv (cs ++ [c]) a' := by
  cases c with
  | prepare item =>
    obtain ⟨b, hb, h⟩ := bind_ok.mp h
    cases h
    exact slotInv_invalidate hi rfl rfl (by intro k pre; simp [WrittenBy]) hb
  | commit ts => exact slotInv_commit hi h
  | put item =>
    obtain ⟨b, hb, h⟩ := bind_ok.mp h
    cases h
    exact slotInv_invalidate hi rfl rfl (by intro k pre; simp [WrittenBy]) hb
  | get_item_addr key => exact slotInv_get_item_addr hi h

theorem slot_inv {n : Nat} {cs : List Call} {a : AbsTable} (h : run (AbsTable.call C) (.init n) cs = .ok a) :
    SlotInv cs a :=
  run_induct SlotInv (slotInv_init n) (fun _ _ _ _ _ hi h => slotInv_call hi h) cs a h

/-! ## Reads -/

theorem read_slot {m : Bytes.Mem} {e : Nat} {s : Slot} (h : SlotAt C m e s) :
    (∃ fuel r, RDMAWriteSocket.read C fuel (RDMAWriteSocket.contents m e) = some r ∧ (r.1 = 0 ∨ r.1 = -1)) ↔
      ∃ v i, s = .holds v i := by
  cases s with
  | blank v =>
    have hno : ∀ fuel, RDMAWriteSocket.read C fuel (RDMAWriteSocket.contents m e) = none :=
      RDMAWriteSocket.read_blank h.1
    constructor
    · rintro ⟨fuel, r, hr, -⟩
      rw [hno] at hr
      cases hr
    · rintro ⟨_, _, hs⟩
      cases hs
  | holds v i =>
    refine iff_of_true ?_ ⟨v, i, rfl⟩
    cases v with
    | true => exact ⟨1, _, RDMAWriteSocket.read_valid h.1 h.2 0, .inl rfl⟩
    | false =>
      refine ⟨1, _, RDMAWriteSocket.read_invalid h.1 ?_ 0, .inr rfl⟩
      rw [h.2]
      decide

/-- The address handed out is the one the key is bound to, and a call that hands one out
    does the same to the abstract table. -/
theorem get_item_addr_slot {t : Table} {a : AbsTable} (hs : TableSim C t a) (k : Key) :
    RelExcept (fun r a' => TableSim C r.1 a' ∧ r.1.committed_items.entries.find k = some (some r.2))
      (t.get_item_addr C k) (a.call C (.get_item_addr k)) :=
  (hs.cache.get_item_addr_sim k).bind fun _ _ hc => .ok ⟨⟨hs.store, hc.1⟩, hc.2⟩

/-- A one-sided read of an address handed out for `k` ends, with 0 or -1, if and only if the
    first call that touched `k` was a `get_item_addr` or some commit has rewritten its slot. -/
theorem read_ends_iff {n : Nat} {pre post : List Call} {k : Key} {addr : Nat} {t t₁ t' : Table}
    (h : run (Table.call C) (.init n) pre = .ok t) (ha : t.get_item_addr C k = .ok (t₁, addr))
    (h' : run (Table.call C) t₁ post = .ok t') :
    (∃ fuel r, RDMAWriteSocket.read C fuel (RDMAWriteSocket.contents t'.committed_items.mem addr) = some r ∧
      (r.1 = 0 ∨ r.1 = -1)) ↔ Written k (pre ++ .get_item_addr k :: post) := by
  have hall : run (Table.call C) (.init n) (pre ++ .get_item_addr k :: post) = .ok t' := by
    rw [run_append_ok]
    refine ⟨t, h, ?_⟩
    rw [run_cons, bind_ok]
    exact ⟨t₁, by rw [Table.call, ha]; rfl, h'⟩
  obtain ⟨a, _, hs⟩ := (h ▸ calls_sim n pre : RelExcept (TableSim C) (.ok t) _).ok_left
  obtain ⟨_, _, _, hf⟩ := (ha ▸ get_item_addr_slot hs k).ok_left
  obtain ⟨a', hrun, hs'⟩ := (hall ▸ calls_sim n _ : RelExcept (TableSim C) (.ok t') _).ok_left
  obtain ⟨s, hk, hslot⟩ := hs'.cache.slot (calls_address h' hf)
  rw [read_slot hslot]
  exact (slot_inv hrun).held k s hk

/-- PREPAREs of two keys and the COMMIT of one, before its address is handed out; a PREPARE of its
    next version, after. -/
theorem read_ends_committed : ∃ t t₁ addr t',
    run (Table.call Wire.msgpack) (.init ENTRY_NUM)
      [.prepare { key := "x", ts := ⟨1, 0⟩ }, .prepare { key := "y", ts := ⟨2, 0⟩ }, .commit ⟨1, 0⟩] = .ok t ∧
    t.get_item_addr Wire.msgpack "x" = .ok (t₁, addr) ∧
    run (Table.call Wire.msgpack) t₁ [.prepare { key := "x", ts := ⟨3, 0⟩ }] = .ok t' ∧
    ∃ fuel r, RDMAWriteSocket.read Wire.msgpack fuel (RDMAWriteSocket.contents t'.committed_items.mem addr) = some r ∧
      (r.1 = 0 ∨ r.1 = -1) := by
  obtain ⟨t', h⟩ := ok_of_isOk (show (run (Table.call Wire.msgpack) (.init ENTRY_NUM)
    [.prepare { key := "x", ts := ⟨1, 0⟩ }, .prepare { key := "y", ts := ⟨2, 0⟩ }, .commit ⟨1, 0⟩] >>= fun t =>
    t.get_item_addr Wire.msgpack "x" >>= fun r =>
    run (Table.call Wire.msgpack) r.1 [.prepare { key := "x", ts := ⟨3, 0⟩ }]).isOk = true by decide +kernel)
  obtain ⟨t, hpre, h⟩ := bind_ok.mp h
  obtain ⟨⟨t₁, addr⟩, ha, hpost⟩ := bind_ok.mp h
  refine ⟨t, t₁, addr, t', hpre, ha, hpost, (read_ends_iff hpre ha hpost).mpr ?_⟩
  exact ⟨[.prepare { key := "x", ts := ⟨1, 0⟩ }, .prepare { key := "y", ts := ⟨2, 0⟩ }], _, _, rfl,
    .inr ⟨⟨1, 0⟩, rfl, by decide, by decide⟩⟩

/-! ## A read that hangs -/

/-- A PREPARE, then a GET_WITH_ADDR of the same key. -/
theorem read_hangs : ∃ t t' addr,
    run (Table.call Wire.msgpack) (.init ENTRY_NUM) [.prepare { key := "x", ts := ⟨1, 0⟩ }] = .ok t ∧
    t.get_item_addr Wire.msgpack "x" = .ok (t', addr) ∧
    ∀ fuel, RDMAWriteSocket.read Wire.msgpack fuel (RDMAWriteSocket.contents t'.committed_items.mem addr) = none := by
  obtain ⟨t, h, hs⟩ : ∃ t, run (Table.call Wire.msgpack) (.init ENTRY_NUM)
      [.prepare { key := "x", ts := ⟨1, 0⟩ }] = .ok t ∧
      TableSim Wire.msgpack t ⟨(({} : Store).push_back { key := "x", ts := ⟨1, 0⟩ }),
        { (Cache.init ENTRY_NUM).bind "x" (some (.blank true)) with free := 999 }⟩ :=
    (calls_sim ENTRY_NUM [.prepare { key := "x", ts := ⟨1, 0⟩ }]).ok_right
  obtain ⟨⟨t', addr⟩, ha, hs', hf⟩ := (get_item_addr_slot hs "x").ok_right
  obtain ⟨s, hk, hslot⟩ := hs'.cache.slot hf
  cases hk
  exact ⟨t, t', addr, h, ha, RDMAWriteSocket.read_blank hslot.1⟩

end RampRdma
