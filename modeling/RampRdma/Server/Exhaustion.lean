/-
  RampRdma.Server.Exhaustion — what happens when the pool of `ENTRY_NUM` slots runs out.

  `try_pop` on the empty pool fails silently and leaves the null pointer that
  `entries[key]` has just inserted; every later `invalidate`, `update` or `get_item_addr`
  of that key dereferences it. `get_item_addr` of a new key inserts nothing and `at` throws.

  `Safe` is the condition on the state before a call under which none of this happens:
  - `exhaustion_iff`: a run from a pool of `n` slots meets no null pointer and no
    `std::out_of_range`, and does to `items` and `latest_commit` what it would do with a
    pool that never runs out, if and only if each of its calls is `Safe`.
  - `exhaustion_faults`: one key more than there are slots, prepared twice.
-/

import Mathlib
import RampRdma.Data
import RampRdma.Lib.Runs
import RampRdma.Server.ReadEnds
import RampRdma.Wire

namespace RampRdma

open Runs

variable {C : Codec}

/-- The call finds its key bound to no null pointer, and does not ask an empty pool for an
    address. A commit may meet one behind an item that does not fit, at which it exits. -/
def Safe (C : Codec) (t : Table) : Call → Prop
  | .prepare item => t.committed_items.entries.find item.key ≠ some none
  | .put item => t.committed_items.entries.find item.key ≠ some none
  | .commit ts =>
    Everywhere (fun pre i => t.latest i.key < ts → (∀ j ∈ pre, t.latest j.key < ts → Entry.Fits C j) →
      t.committed_items.entries.find i.key ≠ some none) (t.versions ts)
  | .get_item_addr key =>
    t.committed_items.entries.find key ≠ some none ∧
      (t.committed_items.entries.find key = none → t.committed_items.unused_entries ≠ [])

namespace AbsTable

/-- A commit's loop meets no null binding before it exits. -/
def CommitSafe (C : Codec) (a : AbsTable) (ts : Timestamp) (l : List Item) : Prop :=
  Everywhere (fun pre i => a.latest i.key < ts → (∀ j ∈ pre, a.latest j.key < ts → Entry.Fits C j) →
    a.cache.binding i.key ≠ some none) l

def Safe (C : Codec) (a : AbsTable) : Call → Prop
  | .prepare item => a.cache.binding item.key ≠ some none
  | .put item => a.cache.binding item.key ≠ some none
  | .commit ts => CommitSafe C a ts (a.versions ts)
  | .get_item_addr key => a.cache.binding key ≠ some none ∧ (a.cache.binding key = none → a.cache.free ≠ 0)

/-! ## Unsafe calls fail -/

theorem commit_item_head {ts : Timestamp} {a a' : AbsTable} {i : Item} (h : a.commit_item C ts i = .ok a') (k : Key) :
    a'.latest k = a.latest k ∧ (a'.cache.binding k = none ↔ a.cache.binding k = none) ∧
      (a'.cache.binding k = some none ↔ a.cache.binding k = some none) := by
  refine ⟨by rw [commit_item_store h, Store.touch_latest], ?_⟩
  have hrun : run (commit_item C ts) a [i] = .ok a' := by rw [run_cons, h]; rfl
  rcases commit_items_cases (k := k) _ hrun with ⟨hb, -⟩ | ⟨i, -, -, -, ⟨s, h0⟩, h1⟩
  · rw [hb]; simp
  · rw [h0, h1]; simp

theorem commitSafe_congr {ts : Timestamp} {a a' : AbsTable} {l : List Item} (hl : ∀ k, a'.latest k = a.latest k)
    (hb : ∀ k, a'.cache.binding k = some none ↔ a.cache.binding k = some none) :
    CommitSafe C a' ts l ↔ CommitSafe C a ts l := by
  simp only [CommitSafe, Everywhere, hl, ne_eq, hb]

theorem commit_items_safe {ts : Timestamp} : ∀ (l : List Item) (a : AbsTable),
    (∀ i ∈ l, a.cache.binding i.key ≠ none) → (∀ e, run (commit_item C ts) a l = .error e → e = .exit) →
    CommitSafe C a ts l := by
  intro l
  induction l with
  | nil => intro a _ _ pre i post e; simp at e
  | cons item l ih =>
    intro a hbound hexit
    rw [CommitSafe, everywhere_cons]
    -- the head meets no null binding
    have hhead : a.latest item.key < ts → a.cache.binding item.key ≠ some none := by
      intro hlt hnull
      have herr : run (commit_item C ts) a (item :: l) = .error .null_deref := by
        rw [run_cons, commit_item, if_pos ((Timestamp.lt_iff _ _).mpr hlt)]
        simp only [Cache.update, hnull]
        rfl
      exact absurd (hexit _ herr) (by decide)
    refine ⟨fun hlt _ => hhead hlt, fun pre i post e hlt hfit => ?_⟩
    rcases hs : a.commit_item C ts item with e' | a'
    · -- the head exits, so it does not fit
      have hfit' : a.latest item.key < ts → Entry.Fits C item := hfit item List.mem_cons_self
      exfalso
      unfold commit_item at hs
      split at hs
      · rename_i hlt'
        have hlt' := (Timestamp.lt_iff _ _).mp hlt'
        have hnn := hhead hlt'
        rcases hb : a.cache.binding item.key with _ | _ | s
        · exact hbound item List.mem_cons_self hb
        · exact hnn hb
        · simp only [Cache.update, hb, if_pos (hfit' hlt')] at hs
          cases hs
      · cases hs
    · have hh := commit_item_head hs
      have hih : CommitSafe C a' ts l := by
        apply ih a'
        · intro j hj
          rw [ne_eq, (hh j.key).2.1]
          exact hbound j (List.mem_cons_of_mem _ hj)
        · intro e' he'
          exact hexit e' (by rw [run_cons, hs]; exact he')
      rw [commitSafe_congr (fun k => (hh k).1) fun k => (hh k).2.2] at hih
      exact hih pre i post e hlt fun j hj => hfit j (List.mem_cons_of_mem _ hj)

theorem safe_of_call {a : AbsTable} {c : Call} (hbound : ∀ ts, ∀ i ∈ a.versions ts, a.cache.binding i.key ≠ none)
    (h : ∀ e, a.call C c = .error e → e = .exit) : a.Safe C c := by
  cases c with
  | prepare item =>
    intro hb
    exact absurd (h .null_deref (by simp only [call, Cache.invalidate, hb]; rfl)) (by decide)
  | put item =>
    intro hb
    exact absurd (h .null_deref (by simp only [call, Cache.invalidate, hb]; rfl)) (by decide)
  | commit ts => exact commit_items_safe _ a (hbound ts) h
  | get_item_addr key =>
    refine ⟨fun hb => ?_, fun hb hf => ?_⟩
    · exact absurd (h .null_deref (by simp only [call, Cache.get_item_addr, hb]; rfl)) (by decide)
    · exact absurd (h .out_of_range (by simp only [call, Cache.get_item_addr, hb, hf]; rfl)) (by decide)

/-! ## Safe calls do what they do with an unlimited pool -/

/-- `b` has a slot wherever `a` has one or a null pointer. -/
structure Loose (a b : AbsTable) : Prop where
  store : a.toStore = b.toStore
  unbound : ∀ k, a.cache.binding k = none ↔ b.cache.binding k = none
  never_null : ∀ k, b.cache.binding k ≠ some none

theorem loose_init (n m : Nat) : Loose (init n) (init m) := ⟨rfl, fun _ => Iff.rfl, fun _ h => by cases h⟩

variable {a b : AbsTable}

theorem Loose.binding (h : Loose a b) {k : Key} (hk : a.cache.binding k ≠ some none) :
    (a.cache.binding k = none ∧ b.cache.binding k = none) ∨
      (∃ s s', a.cache.binding k = some (some s) ∧ b.cache.binding k = some (some s')) := by
  rcases ha : a.cache.binding k with _ | _ | s
  · exact .inl ⟨rfl, (h.unbound k).mp ha⟩
  · exact absurd ha hk
  · rcases hb : b.cache.binding k with _ | _ | s'
    · exact absurd ((h.unbound k).mpr hb) (by rw [ha]; simp)
    · exact absurd hb (h.never_null k)
    · exact .inr ⟨s, s', rfl, rfl⟩

/-- The key `key` gets a binding on both sides, a slot on the right. -/
theorem Loose.bind (h : Loose a b) {t : Store} {ca cb : Cache} {key : Key} (ha : ca.binding key ≠ none)
    (hb : ∃ s, cb.binding key = some (some s)) (hna : ∀ k, k ≠ key → ca.binding k = a.cache.binding k)
    (hnb : ∀ k, k ≠ key → cb.binding k = b.cache.binding k) : Loose ⟨t, ca⟩ ⟨t, cb⟩ := by
  obtain ⟨s, hb⟩ := hb
  refine ⟨rfl, fun k => ?_, fun k => ?_⟩
  · show ca.binding k = none ↔ cb.binding k = none
    by_cases e : k = key
    · subst e; simp [ha, hb]
    · rw [hna k e, hnb k e]
      exact h.unbound k
  · show cb.binding k ≠ some none
    by_cases e : k = key
    · subst e; simp [hb]
    · rw [hnb k e]
      exact h.never_null k

theorem invalidate_loose (h : Loose a b) {key : Key} {t : Store} (hk : a.cache.binding key ≠ some none)
    (hfree : 0 < b.cache.free) :
    ∃ ca cb, a.cache.invalidate key = .ok ca ∧ b.cache.invalidate key = .ok cb ∧ Loose ⟨t, ca⟩ ⟨t, cb⟩ ∧
      b.cache.free ≤ cb.free + 1 := by
  obtain ⟨n, hn⟩ : ∃ n, b.cache.free = n + 1 := ⟨b.cache.free - 1, by omega⟩
  rcases h.binding hk with ⟨ha, hb⟩ | ⟨s, s', ha, hb⟩
  · rcases hf : a.cache.free with _ | m
    · refine ⟨a.cache.bind key none, { b.cache.bind key (some (.blank true)) with free := n },
        by simp [Cache.invalidate, ha, hf], by simp [Cache.invalidate, hb, hn], ?_, by show _ ≤ n + 1; omega⟩
      exact h.bind (by simp) ⟨_, Cache.binding_bind_same b.cache _ _⟩ (fun k e => Cache.binding_bind_ne _ _ e)
        fun k e => Cache.binding_bind_ne b.cache _ e
    · refine ⟨{ a.cache.bind key (some (.blank true)) with free := m },
        { b.cache.bind key (some (.blank true)) with free := n },
        by simp [Cache.invalidate, ha, hf], by simp [Cache.invalidate, hb, hn], ?_, by show _ ≤ n + 1; omega⟩
      exact h.bind (by simp [Cache.bind]) ⟨_, Cache.binding_bind_same b.cache _ _⟩
        (fun k e => Cache.binding_bind_ne a.cache _ e) fun k e => Cache.binding_bind_ne b.cache _ e
  · refine ⟨a.cache.bind key (some s.stale), b.cache.bind key (some s'.stale),
      by simp [Cache.invalidate, ha], by simp [Cache.invalidate, hb], ?_, by simp⟩
    exact h.bind (by simp) ⟨_, Cache.binding_bind_same _ _ _⟩ (fun k e => Cache.binding_bind_ne _ _ e)
      fun k e => Cache.binding_bind_ne _ _ e

theorem get_item_addr_loose (h : Loose a b) {key : Key} {t : Store} (hk : a.cache.binding key ≠ some none)
    (hpool : a.cache.binding key = none → a.cache.free ≠ 0) (hfree : 0 < b.cache.free) :
    RelExcept (fun ca cb => Loose ⟨t, ca⟩ ⟨t, cb⟩ ∧ b.cache.free ≤ cb.free + 1)
      (a.cache.get_item_addr C key) (b.cache.get_item_addr C key) ∧
    ∀ e, a.cache.get_item_addr C key = .error e → e = .exit := by
  obtain ⟨n, hn⟩ : ∃ n, b.cache.free = n + 1 := ⟨b.cache.free - 1, by omega⟩
  rcases h.binding hk with ⟨ha, hb⟩ | ⟨s, s', ha, hb⟩
  · obtain ⟨m, hm⟩ : ∃ m, a.cache.free = m + 1 := ⟨a.cache.free - 1, by have := hpool ha; omega⟩
    by_cases hfit : Entry.Fits C (.of_key key)
    · simp only [Cache.get_item_addr, ha, hb, hm, hn, if_pos hfit]
      refine ⟨.ok ⟨?_, by simp⟩, fun e he => by cases he⟩
      exact h.bind (by simp [Cache.bind]) ⟨_, Cache.binding_bind_same b.cache _ _⟩
        (fun k e => Cache.binding_bind_ne a.cache _ e) fun k e => Cache.binding_bind_ne b.cache _ e
    · simp only [Cache.get_item_addr, ha, hb, hm, hn, if_neg hfit]
      exact ⟨.error _, fun e he => by cases he; rfl⟩
  · simp only [Cache.get_item_addr, ha, hb]
    exact ⟨.ok ⟨⟨rfl, h.unbound, h.never_null⟩, by omega⟩, fun e he => by cases he⟩

theorem commit_item_loose (h : Loose a b) {ts : Timestamp} {i : Item}
    (hk : a.latest i.key < ts → a.cache.binding i.key ≠ some none) :
    RelExcept (fun a' b' => Loose a' b' ∧ b'.cache.free = b.cache.free) (a.commit_item C ts i) (b.commit_item C ts i) ∧
    ∀ e, a.commit_item C ts i = .error e → e = .exit ∧ a.latest i.key < ts ∧ ¬ Entry.Fits C i := by
  rw [commit_item, commit_item, ← h.store]
  by_cases hlt : a.latest i.key < ts
  · rw [if_pos ((Timestamp.lt_iff _ _).mpr hlt), if_pos ((Timestamp.lt_iff _ _).mpr hlt)]
    rcases h.binding (hk hlt) with ⟨ha, hb⟩ | ⟨s, s', ha, hb⟩
    · simp only [Cache.update, ha, hb]
      exact ⟨.ok ⟨⟨rfl, h.unbound, h.never_null⟩, rfl⟩, fun e he => by cases he⟩
    · by_cases hfit : Entry.Fits C i
      · simp only [Cache.update, ha, hb, if_pos hfit]
        refine ⟨.ok ⟨?_, rfl⟩, fun e he => by cases he⟩
        exact h.bind (by simp) ⟨_, Cache.binding_bind_same _ _ _⟩ (fun k e => Cache.binding_bind_ne _ _ e)
          fun k e => Cache.binding_bind_ne _ _ e
      · simp only [Cache.update, ha, hb, if_neg hfit]
        exact ⟨.error _, fun e he => by cases he; exact ⟨rfl, hlt, hfit⟩⟩
  · rw [if_neg fun h => hlt ((Timestamp.lt_iff _ _).mp h), if_neg fun h => hlt ((Timestamp.lt_iff _ _).mp h)]
    exact ⟨.ok ⟨⟨rfl, h.unbound, h.never_null⟩, rfl⟩, fun e he => by cases he⟩

theorem commit_items_loose {ts : Timestamp} : ∀ (l : List Item) (a b : AbsTable), Loose a b →
    (∀ i ∈ l, a.cache.binding i.key ≠ none) → CommitSafe C a ts l →
    RelExcept (fun a' b' => Loose a' b' ∧ b'.cache.free = b.cache.free)
      (run (commit_item C ts) a l) (run (commit_item C ts) b l) ∧
    ∀ e, run (commit_item C ts) a l = .error e → e = .exit := by
  intro l
  induction l with
  | nil => intro a b h _ _; exact ⟨.ok ⟨h, rfl⟩, fun e he => by cases he⟩
  | cons item l ih =>
    intro a b h hbound hsafe
    rw [CommitSafe, everywhere_cons] at hsafe
    obtain ⟨h0, hrest⟩ := hsafe
    obtain ⟨hstep, herr⟩ := @commit_item_loose C a b h ts item fun hlt => h0 hlt (by simp)
    rw [run_cons, run_cons]
    rcases hs : a.commit_item C ts item with e | a1
    · rw [hs] at hstep
      rw [(hstep.error_iff e).mp rfl]
      exact ⟨.error e, fun e' he => by cases he; exact (herr e hs).1⟩
    · rw [hs] at hstep
      obtain ⟨b1, hb1, hl1, hf1⟩ := hstep.ok_left
      rw [hb1]
      have hh := commit_item_head hs
      have hfit : a.latest item.key < ts → Entry.Fits C item := by
        intro hlt
        by_contra hfit
        rw [commit_item, if_pos ((Timestamp.lt_iff _ _).mpr hlt)] at hs
        obtain ⟨c, hc, -⟩ := bind_ok.mp hs
        rcases ha : a.cache.binding item.key with _ | _ | s
        · exact hbound item List.mem_cons_self ha
        · simp only [Cache.update, ha] at hc; cases hc
        · simp only [Cache.update, ha, if_neg hfit] at hc; cases hc
      have hsafe1 : CommitSafe C a1 ts l := by
        rw [commitSafe_congr (fun k => (hh k).1) fun k => (hh k).2.2]
        intro pre i post e hlt hpre
        refine hrest pre i post e hlt fun j hj hltj => ?_
        rcases List.mem_cons.mp hj with rfl | hj
        · exact hfit hltj
        · exact hpre j hj hltj
      have hbound1 : ∀ i ∈ l, a1.cache.binding i.key ≠ none := by
        intro i hi
        rw [ne_eq, (hh i.key).2.1]
        exact hbound i (List.mem_cons_of_mem _ hi)
      obtain ⟨hr, he⟩ := ih a1 b1 hl1 hbound1 hsafe1
      exact ⟨hr.imp fun _ _ h => ⟨h.1, h.2.trans hf1⟩, he⟩

theorem call_loose {c : Call} (h : Loose a b) (hbound : ∀ ts, ∀ i ∈ a.versions ts, a.cache.binding i.key ≠ none)
    (hsafe : a.Safe C c) (hfree : 0 < b.cache.free) :
    RelExcept (fun a' b' => Loose a' b' ∧ b.cache.free ≤ b'.cache.free + 1) (a.call C c) (b.call C c) ∧
    ∀ e, a.call C c = .error e → e = .exit := by
  cases c with
  | prepare item =>
    obtain ⟨ca, cb, ha, hb, hl, hf⟩ := invalidate_loose (t := a.push_back item) h hsafe hfree
    simp only [call, ha, hb, ← h.store]
    exact ⟨.ok ⟨hl, hf⟩, fun e he => by cases he⟩
  | put item =>
    obtain ⟨ca, cb, ha, hb, hl, hf⟩ := invalidate_loose (t := Store.put a.toStore item) h hsafe hfree
    simp only [call, ha, hb, ← h.store]
    exact ⟨.ok ⟨hl, hf⟩, fun e he => by cases he⟩
  | commit ts =>
    obtain ⟨hr, he⟩ := @commit_items_loose C ts (a.versions ts) a b h (hbound ts) hsafe
    refine ⟨?_, he⟩
    show RelExcept _ (run _ a (a.versions ts)) (run _ b (b.versions ts))
    rw [← h.store]
    exact hr.imp fun _ _ h => ⟨h.1, by omega⟩
  | get_item_addr key =>
    obtain ⟨hr, he⟩ := get_item_addr_loose (C := C) (t := a.toStore) h hsafe.1 hsafe.2 hfree
    refine ⟨?_, fun e herr => ?_⟩
    · refine hr.bind fun ca cb hc => ?_
      rw [← h.store]
      exact .ok hc
    · rcases bind_error.mp herr with herr | ⟨_, _, herr⟩
      · exact he e herr
      · cases herr

/-- Runs of safe calls, from a pool that may run out and one that cannot. -/
theorem calls_loose : ∀ (cs : List Call) (pre : List Call) (a b : AbsTable), SlotInv pre a → Loose a b →
    cs.length ≤ b.cache.free →
    (∀ p c q a', cs = p ++ c :: q → run (call C) a p = .ok a' → a'.Safe C c) →
    RelExcept Loose (run (call C) a cs) (run (call C) b cs) ∧ ∀ e, run (call C) a cs = .error e → e = .exit := by
  intro cs
  induction cs with
  | nil => intro pre a b _ h _ _; exact ⟨.ok h, fun e he => by cases he⟩
  | cons c cs ih =>
    intro pre a b hi h hlen hsafe
    rw [List.length_cons] at hlen
    obtain ⟨hstep, herr⟩ := call_loose h hi.bound (hsafe [] c cs a rfl rfl) (by omega)
    rw [run_cons, run_cons]
    rcases hs : a.call C c with e | a1
    · rw [hs] at hstep
      rw [(hstep.error_iff e).mp rfl]
      exact ⟨.error e, fun e' he => by cases he; exact herr e hs⟩
    · rw [hs] at hstep
      obtain ⟨b1, hb1, hl1, hf1⟩ := hstep.ok_left
      rw [hb1]
      refine ih (pre ++ [c]) a1 b1 (slotInv_call hi hs) hl1 (by omega) fun p c' q a' e hrun => ?_
      exact hsafe (c :: p) c' q a' (by rw [e]; rfl) (by rw [run_cons, hs]; exact hrun)

theorem calls_safe {cs : List Call} {n : Nat} (h : ∀ e, run (call C) (init n) cs = .error e → e = .exit)
    {p q : List Call} {c : Call} {a' : AbsTable} (e : cs = p ++ c :: q) (hrun : run (call C) (init n) p = .ok a') :
    a'.Safe C c := by
  refine safe_of_call (slot_inv hrun).bound fun f hf => h f ?_
  exact run_error.mpr ⟨p, c, q, a', e, hrun, hf⟩

end AbsTable

/-! ## The table -/

theorem safe_sim {t : Table} {a : AbsTable} (hs : TableSim C t a) (c : Call) : Safe C t c ↔ a.Safe C c := by
  have hnull : ∀ k, t.committed_items.entries.find k = some none ↔ a.cache.binding k = some none := by
    intro k
    have hb := hs.cache.binding k
    generalize t.committed_items.entries.find k = x, a.cache.binding k = y at hb
    cases hb <;> simp
  have hnone : ∀ k, t.committed_items.entries.find k = none ↔ a.cache.binding k = none := by
    intro k
    have hb := hs.cache.binding k
    generalize t.committed_items.entries.find k = x, a.cache.binding k = y at hb
    cases hb <;> simp
  have hpool : t.committed_items.unused_entries = [] ↔ a.cache.free = 0 := by
    rw [hs.cache.free, List.length_eq_zero_iff]
  cases c with
  | prepare item => simp only [Safe, AbsTable.Safe, ne_eq, hnull]
  | commit ts => simp only [Safe, AbsTable.Safe, AbsTable.CommitSafe, ne_eq, hnull, hs.store]
  | put item => simp only [Safe, AbsTable.Safe, ne_eq, hnull]
  | get_item_addr key => simp only [Safe, AbsTable.Safe, ne_eq, hnull, hnone, hpool]

/-- A run meets no null pointer and no `std::out_of_range`, and evolves `items` and
    `latest_commit` as with a pool of a slot for each of its calls, if and only if every
    call is safe in the state it finds. -/
theorem exhaustion_iff {n m : Nat} {cs : List Call} (hm : cs.length ≤ m) :
    ((∀ e, run (Table.call C) (.init n) cs = .error e → e = .exit) ∧
      RelExcept (fun t u => t.toStore = u.toStore) (run (Table.call C) (.init n) cs)
        (run (Table.call C) (.init m) cs)) ↔
    ∀ pre c post t, cs = pre ++ c :: post → run (Table.call C) (.init n) pre = .ok t → Safe C t c := by
  have hn := calls_sim (C := C) n cs
  have hm' := calls_sim (C := C) m cs
  constructor
  · intro ⟨hexit, _⟩ pre c post t e hrun
    obtain ⟨a, ha, hs⟩ := (hrun ▸ calls_sim n pre : RelExcept (TableSim C) (.ok t) _).ok_left
    rw [safe_sim hs]
    exact AbsTable.calls_safe (fun f hf => hexit f ((hn.error_iff f).mpr hf)) e ha
  · intro hsafe
    obtain ⟨hr, he⟩ := AbsTable.calls_loose (C := C) cs [] (.init n) (.init m) (slotInv_init n)
      (AbsTable.loose_init n m) hm fun p c q a' e ha => by
        obtain ⟨t, ht, hs⟩ := (ha ▸ calls_sim n p : RelExcept (TableSim C) _ (.ok a')).ok_right
        exact (safe_sim hs c).mp (hsafe p c q t e ht)
    refine ⟨fun f hf => he f ((hn.error_iff f).mp hf), ?_⟩
    refine ((hn.trans hr).trans hm'.symm).imp fun t u h => ?_
    obtain ⟨b, ⟨a, hta, hab⟩, hub⟩ := h
    exact hta.store.trans (hab.store.trans hub.store.symm)

/-- One slot: the second key is bound to null, and no later call is for it. -/
def starved : List Call := [.prepare { key := "x", ts := ⟨1, 0⟩ }, .prepare { key := "y", ts := ⟨2, 0⟩ }, .commit ⟨1, 0⟩,
  .get_item_addr "x"]

theorem exhaustion_starved : (∀ e, run (Table.call Wire.msgpack) (.init 1) starved = .error e → e = .exit) ∧
    RelExcept (fun t u => t.toStore = u.toStore) (run (Table.call Wire.msgpack) (.init 1) starved)
      (run (Table.call Wire.msgpack) (.init ENTRY_NUM) starved) := by
  refine (exhaustion_iff (by decide)).mpr fun pre c post t e hrun => ?_
  have hany : ∀ {P : Table → Bool}, (run (Table.call Wire.msgpack) (.init 1) pre).toOption.any P = true → P t = true := by
    intro P h
    rwa [hrun] at h
  rcases pre with _ | ⟨c1, _ | ⟨c2, _ | ⟨c3, _ | ⟨c4, pre⟩⟩⟩⟩
  · cases e
    have hk : t.committed_items.entries.find "x" ≠ some none := of_decide_eq_true (hany
      (P := fun t => decide (t.committed_items.entries.find "x" ≠ some none)) (by decide +kernel))
    exact hk
  · cases e
    have hk : t.committed_items.entries.find "y" ≠ some none := of_decide_eq_true (hany
      (P := fun t => decide (t.committed_items.entries.find "y" ≠ some none)) (by decide +kernel))
    exact hk
  · cases e
    have hv := hany (P := fun t => decide (t.versions ⟨1, 0⟩ = [{ key := "x", ts := ⟨1, 0⟩ }]) &&
      decide (t.committed_items.entries.find "x" ≠ some none)) (by decide +kernel)
    simp only [Bool.and_eq_true, decide_eq_true_eq] at hv
    show Everywhere _ (t.versions ⟨1, 0⟩)
    rw [hv.1]
    intro p i q e _ _
    rcases p with _ | ⟨j, p⟩
    · cases e
      exact hv.2
    · simp at e
  · cases e
    have hx := hany (P := fun t => (t.committed_items.entries.find "x").isSome &&
      decide (t.committed_items.entries.find "x" ≠ some none)) (by decide +kernel)
    simp only [Bool.and_eq_true, decide_eq_true_eq] at hx
    refine ⟨hx.2, fun hn => ?_⟩
    rw [hn] at hx
    cases hx.1
  · simp [starved] at e

/-! ## A run that faults -/

/-- Prepares of as many keys as the pool has slots leave it empty. -/
theorem prepares_free {n : Nat} (items : List Item) (hd : (items.map (·.key)).Nodup) (hl : items.length ≤ n) :
    ∃ a, run (AbsTable.call C) (.init n) (items.map .prepare) = .ok a ∧ a.cache.free = n - items.length ∧
      ∀ k, k ∉ items.map (·.key) → a.cache.binding k = none := by
  induction items using List.reverseRecOn with
  | nil => exact ⟨_, rfl, rfl, fun k _ => rfl⟩
  | append_singleton items item ih =>
    rw [List.map_append, List.map_singleton, List.nodup_append] at hd
    rw [List.length_append, List.length_singleton] at hl
    obtain ⟨a, ha, hf, hb⟩ := ih hd.1 (by omega)
    have hk : a.cache.binding item.key = none := by
      apply hb
      intro hm
      exact hd.2.2 _ hm _ (List.mem_singleton.mpr rfl) rfl
    obtain ⟨m, hm⟩ : ∃ m, a.cache.free = m + 1 := ⟨a.cache.free - 1, by omega⟩
    refine ⟨⟨a.push_back item, { a.cache.bind item.key (some (.blank true)) with free := m }⟩, ?_, ?_, ?_⟩
    · rw [List.map_append, List.map_singleton, run_snoc_ok]
      exact ⟨a, ha, by simp only [AbsTable.call, Cache.invalidate, hk, hm]; rfl⟩
    · show m = _
      rw [List.length_append, List.length_singleton]
      omega
    · intro k hkn
      rw [List.map_append, List.mem_append, not_or, List.map_singleton, List.mem_singleton] at hkn
      show (a.cache.bind item.key _).binding k = none
      rw [Cache.binding_bind_ne _ _ hkn.2]
      exact hb k hkn.1

/-- The item a test client writes for its `i`-th key. -/
def numbered (i : Nat) : Item := { key := toString i, ts := ⟨1, 0⟩ }

/-- PREPAREs of the keys "0" to "1000", and one more of "1000". -/
theorem exhaustion_faults : run (Table.call Wire.msgpack) (.init ENTRY_NUM)
    ((List.range (ENTRY_NUM + 1)).map (fun i => .prepare (numbered i)) ++ [.prepare (numbered ENTRY_NUM)]) =
      .error .null_deref := by
  have hinj : ∀ i j, (numbered i).key = (numbered j).key → i = j := fun i j h => Nat.repr_injective h
  have hkeys : ∀ m, ((List.range m).map numbered).map (·.key) = (List.range m).map fun i => (numbered i).key := by
    intro m; rw [List.map_map]; rfl
  obtain ⟨a, ha, hf, hb⟩ := prepares_free (C := Wire.msgpack) (n := ENTRY_NUM) ((List.range ENTRY_NUM).map numbered)
    (by rw [hkeys]; exact List.nodup_range.map hinj) (by simp)
  have hk : a.cache.binding (numbered ENTRY_NUM).key = none := by
    apply hb
    rw [hkeys]
    intro hm
    obtain ⟨i, hi, he⟩ := List.mem_map.mp hm
    exact absurd (hinj _ _ he) (Nat.ne_of_lt (List.mem_range.mp hi))
  have hfree : a.cache.free = 0 := by rw [hf]; simp
  rw [(calls_sim ENTRY_NUM _).error_iff, List.range_succ, List.map_append, List.append_assoc, run_append]
  rw [List.map_map] at ha
  have ha : run (AbsTable.call Wire.msgpack) (.init ENTRY_NUM)
      ((List.range ENTRY_NUM).map fun i => .prepare (numbered i)) = .ok a := ha
  rw [ha]
  show run (AbsTable.call Wire.msgpack) a [.prepare (numbered ENTRY_NUM), .prepare (numbered ENTRY_NUM)] = _
  -- the first of the two leaves a null pointer, the second dereferences it
  have h1 : a.call Wire.msgpack (.prepare (numbered ENTRY_NUM)) =
      .ok ⟨a.push_back (numbered ENTRY_NUM), a.cache.bind (numbered ENTRY_NUM).key none⟩ := by
    simp only [AbsTable.call, Cache.invalidate, hk, hfree]
    rfl
  have h2 : AbsTable.call Wire.msgpack ⟨a.push_back (numbered ENTRY_NUM), a.cache.bind (numbered ENTRY_NUM).key none⟩
      (.prepare (numbered ENTRY_NUM)) = .error .null_deref := by
    simp only [AbsTable.call, Cache.invalidate, Cache.binding_bind_same]
    rfl
  refine run_error.mpr ⟨[.prepare (numbered ENTRY_NUM)], .prepare (numbered ENTRY_NUM), [], _, rfl, ?_, h2⟩
  rw [run_cons, h1]
  rfl

end RampRdma
