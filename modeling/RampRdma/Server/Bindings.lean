/-
  RampRdma.Server.Bindings — what a call does to the cache binding of one key.

  - `invalidate_cases` / `update_cases` / `get_item_addr_cases`: all that a call on the
    cache which does not fail can do; every other key keeps its binding.
  - `commit_items_cases`: a commit rewrites the slots of the keys it finds at its
    timestamp and not yet committed that far, and no others.
  - `call_address` / `calls_address`: a key's slot, once bound, is its slot for good, so
    an address handed out stays the address of that key.
-/

import Mathlib
import RampRdma.Data
import RampRdma.Lib.Runs
import RampRdma.Server.Table

namespace RampRdma

open Runs

variable {C : Codec}

/-! ## The cache -/

namespace Cache

theorem invalidate_cases {a a' : Cache} {key : Key} (h : a.invalidate key = .ok a') :
    (∀ k, k ≠ key → a'.binding k = a.binding k) ∧
    ((a.binding key = none ∧ a.free = 0 ∧ a'.binding key = some none ∧ a'.free = 0) ∨
      (∃ n, a.binding key = none ∧ a.free = n + 1 ∧ a'.binding key = some (some (.blank true)) ∧ a'.free = n) ∨
      (∃ s, a.binding key = some (some s) ∧ a'.binding key = some (some s.stale) ∧ a'.free = a.free)) := by
  unfold invalidate at h
  split at h
  · rename_i hb hf
    cases h
    exact ⟨fun k hk => binding_bind_ne a _ hk, .inl ⟨hb, hf, binding_bind_same _ _ _, hf⟩⟩
  · rename_i n hb hf
    cases h
    exact ⟨fun k hk => binding_bind_ne a _ hk, .inr (.inl ⟨n, hb, hf, binding_bind_same a _ _, rfl⟩)⟩
  · cases h
  · rename_i s hb
    cases h
    exact ⟨fun k hk => binding_bind_ne a _ hk, .inr (.inr ⟨s, hb, binding_bind_same _ _ _, rfl⟩)⟩

theorem update_cases {a a' : Cache} {item : Item} (h : a.update C item = .ok a') :
    (∀ k, k ≠ item.key → a'.binding k = a.binding k) ∧ a'.free = a.free ∧
    ((a.binding item.key = none ∧ a'.binding item.key = none) ∨
      (∃ s, a.binding item.key = some (some s) ∧ a'.binding item.key = some (some (.holds true item)))) := by
  unfold update at h
  split at h
  · rename_i hb
    cases h
    exact ⟨fun _ _ => rfl, rfl, .inl ⟨hb, hb⟩⟩
  · cases h
  · rename_i s hb
    split at h
    · cases h
      exact ⟨fun k hk => binding_bind_ne a _ hk, rfl, .inr ⟨s, hb, binding_bind_same _ _ _⟩⟩
    · cases h

theorem get_item_addr_cases {a a' : Cache} {key : Key} (h : a.get_item_addr C key = .ok a') :
    (∀ k, k ≠ key → a'.binding k = a.binding k) ∧
    ((∃ n, a.binding key = none ∧ a.free = n + 1 ∧ a'.free = n ∧
        a'.binding key = some (some (.holds true (.of_key key)))) ∨
      (∃ s, a.binding key = some (some s) ∧ a' = a)) := by
  unfold get_item_addr at h
  split at h
  · cases h
  · rename_i n hb hf
    split at h
    · cases h
      exact ⟨fun k hk => binding_bind_ne a _ hk, .inl ⟨n, hb, hf, rfl, binding_bind_same a _ _⟩⟩
    · cases h
  · cases h
  · rename_i s hb
    cases h
    exact ⟨fun _ _ => rfl, .inr ⟨s, hb, rfl⟩⟩

end Cache

/-! ## Reads -/

theorem Represents.slot {c : CommittedItems} {a : Cache} (h : Represents C c a) {k : Key} {e : Nat}
    (hk : c.entries.find k = some (some e)) : ∃ s, a.binding k = some (some s) ∧ SlotAt C c.mem e s := by
  have hb := h.binding k
  rw [hk] at hb
  generalize a.binding k = b at hb
  cases hb with
  | slot hs => exact ⟨_, rfl, hs⟩

/-- A one-sided read that does not return -1 found the slot valid and returns what it holds. -/
theorem read_result {m : Bytes.Mem} {e fuel : Nat} {s : Slot} (h : SlotAt C m e s) {r : Int} {item : Option Item}
    (hr : RDMAWriteSocket.read C fuel (RDMAWriteSocket.contents m e) = some (r, item)) (hne : r ≠ -1) :
    ∃ i, item = some i ∧ s = .holds true i := by
  rcases fuel with _ | fuel
  · simp [RDMAWriteSocket.read, poll] at hr
  · cases s with
    | blank v =>
      rw [RDMAWriteSocket.read_blank h.1] at hr
      cases hr
    | holds v i =>
      cases v with
      | true =>
        rw [RDMAWriteSocket.read_valid h.1 h.2] at hr
        cases hr
        exact ⟨i, rfl, rfl⟩
      | false =>
        have hf : Entry.flag m e ≠ IS_VALID := by rw [h.2]; decide
        rw [RDMAWriteSocket.read_invalid h.1 hf] at hr
        cases hr
        exact absurd rfl hne

/-! ## The table -/

namespace AbsTable

/-- What a commit's loop over `l` leaves the binding of `k` as. -/
theorem commit_items_cases {ts : Timestamp} {k : Key} : ∀ (l : List Item) {a a' : AbsTable},
    run (commit_item C ts) a l = .ok a' →
    (a'.cache.binding k = a.cache.binding k ∧
      (a.cache.binding k = none ∨ ¬ a.latest k < ts ∨ ∀ i ∈ l, i.key ≠ k)) ∨
    (∃ i ∈ l, i.key = k ∧ a.latest k < ts ∧ (∃ s, a.cache.binding k = some (some s)) ∧
      a'.cache.binding k = some (some (.holds true i))) := by
  intro l
  induction l with
  | nil => intro a a' h; cases h; exact .inl ⟨rfl, .inr (.inr (by simp))⟩
  | cons item l ih =>
    intro a a' h
    rw [run_cons, bind_ok] at h
    obtain ⟨a1, h1, h⟩ := h
    have hs := commit_item_store h1
    have hlat : a1.latest k = a.latest k := by rw [hs, Store.touch_latest]
    have ih := ih h
    rw [hlat] at ih
    -- the head of the list either leaves `k` alone or rewrites its slot
    have head : (a1.cache.binding k = a.cache.binding k ∧
          (a.cache.binding k = none ∨ ¬ a.latest k < ts ∨ item.key ≠ k)) ∨
        (item.key = k ∧ a.latest k < ts ∧ (∃ s, a.cache.binding k = some (some s)) ∧
          a1.cache.binding k = some (some (.holds true item))) := by
      unfold commit_item at h1
      split at h1
      · rename_i hlt
        rw [Timestamp.lt_iff] at hlt
        obtain ⟨c, hc, h1⟩ := bind_ok.mp h1
        cases h1
        obtain ⟨hne, -, hk⟩ := Cache.update_cases hc
        by_cases e : item.key = k
        · subst e
          rcases hk with ⟨h0, h1⟩ | ⟨s, h0, h1⟩
          · exact .inl ⟨h1.trans h0.symm, .inl h0⟩
          · exact .inr ⟨rfl, hlt, ⟨s, h0⟩, h1⟩
        · exact .inl ⟨hne k (Ne.symm e), .inr (.inr e)⟩
      · rename_i hlt
        rw [Timestamp.lt_iff] at hlt
        cases h1
        by_cases e : item.key = k
        · subst e
          exact .inl ⟨rfl, .inr (.inl hlt)⟩
        · exact .inl ⟨rfl, .inr (.inr e)⟩
    rcases ih with ⟨hk, hwhy⟩ | ⟨i, hi, hik, hlt, ⟨s, hs'⟩, hk⟩
    · rcases head with ⟨hk1, hwhy1⟩ | ⟨hik, hlt, hs', hk1⟩
      · refine .inl ⟨hk.trans hk1, ?_⟩
        rcases hwhy1 with h0 | h0 | h0
        · exact .inl h0
        · exact .inr (.inl h0)
        · rcases hwhy with h0' | h0' | h0'
          · exact .inl (hk1 ▸ h0')
          · exact .inr (.inl h0')
          · refine .inr (.inr fun i hi => ?_)
            rcases List.mem_cons.mp hi with rfl | hi
            · exact h0
            · exact h0' i hi
      · exact .inr ⟨item, List.mem_cons_self, hik, hlt, hs', hk.trans hk1⟩
    · refine .inr ⟨i, List.mem_cons_of_mem _ hi, hik, hlt, ?_, hk⟩
      rcases head with ⟨hk1, -⟩ | ⟨-, -, hs1, -⟩
      · exact ⟨s, hk1 ▸ hs'⟩
      · exact hs1

end AbsTable

/-! ## Lookups -/

theorem get_item_by_ver_cases (t : Store) (key : Key) (ts : Timestamp) :
    (t.get_item_by_ver key ts ∈ t.versions ts ∧ (t.get_item_by_ver key ts).key = key) ∨
      (t.get_item_by_ver key ts = .empty ∧ ∀ i ∈ t.versions ts, i.key ≠ key) := by
  rw [Store.get_item_by_ver_eq]
  generalize h : List.find? _ (t.versions ts) = o
  cases o with
  | none =>
    refine .inr ⟨rfl, fun i hi => ?_⟩
    simpa using List.find?_eq_none.mp h i hi
  | some i => exact .inl ⟨List.mem_of_find?_eq_some h, by simpa using List.find?_some h⟩

/-! ## Calls -/

/-- The version a call adds. -/
def Call.item : Call → Option Item
  | .prepare item => some item
  | .put item => some item
  | _ => none

/-- The key a call binds a slot to where it has none. -/
def Call.touches : Call → Option Key
  | .prepare item => some item.key
  | .put item => some item.key
  | .get_item_addr key => some key
  | .commit _ => none

theorem commit_key_items (t : Store) (key : Key) (ts : Timestamp) : (t.commit_key key ts).items = t.items := by
  unfold Store.commit_key
  show (if _ then _ else _ : Store).items = _
  split <;> rfl

theorem commit_key_latest (t : Store) (key : Key) (ts : Timestamp) (k : Key) :
    (t.commit_key key ts).latest k = if k = key ∧ t.latest key < ts then ts else t.latest k := by
  unfold Store.commit_key
  show (if ((t.touch key).latest key).lt ts then _ else _ : Store).latest k = _
  rw [Store.touch_latest]
  by_cases hlt : t.latest key < ts
  · rw [if_pos ((Timestamp.lt_iff _ _).mpr hlt)]
    show ((((t.touch key).latest_commit.set key ts).find k).getD .empty) = _
    by_cases e : k = key
    · subst e; simp [hlt]
    · rw [ConcurrentMap.find_set_ne _ _ e, if_neg fun h => e h.1]
      exact t.touch_latest key k
  · rw [if_neg fun h => hlt ((Timestamp.lt_iff _ _).mp h), if_neg fun h => hlt h.2, Store.touch_latest]

theorem mem_versions_call {t : Store} {c : Call} {i : Item} {ts : Timestamp} :
    i ∈ (t.call c).versions ts ↔ i ∈ t.versions ts ∨ (c.item = some i ∧ i.ts = ts) := by
  have hp : ∀ item : Item, i ∈ (t.push_back item).versions ts ↔ i ∈ t.versions ts ∨ (some item = some i ∧ i.ts = ts) := by
    intro item
    rw [Store.mem_versions_push_back, Option.some.injEq]
    exact or_congr_right ⟨by rintro ⟨rfl, rfl⟩; exact ⟨rfl, rfl⟩, by rintro ⟨rfl, rfl⟩; exact ⟨rfl, rfl⟩⟩
  cases c with
  | prepare item => exact hp item
  | commit ts' => simp [Store.call, Call.item, Store.versions_congr (touches_items _ t)]
  | put item =>
    have : (t.call (.put item)).items = (t.push_back item).items := commit_key_items _ _ _
    rw [Store.versions_congr this]
    exact hp item
  | get_item_addr key => simp [Store.call, Call.item]

/-! ## Addresses -/

namespace CommittedItems

variable {c c' : CommittedItems} {k : Key} {e : Nat}

theorem invalidate_address {key : Key} (h : c.invalidate key = .ok c') (hk : c.entries.find k = some (some e)) :
    c'.entries.find k = some (some e) := by
  unfold invalidate at h
  split at h
  · rename_i hb
    have hne : k ≠ key := by rintro rfl; rw [hk] at hb; cases hb
    split at h <;> cases h <;> exact (ConcurrentMap.find_set_ne _ _ hne).trans hk
  · cases h
  · cases h; exact hk

theorem update_address {item : Item} (h : c.update C item = .ok c') (hk : c.entries.find k = some (some e)) :
    c'.entries.find k = some (some e) := by
  unfold update at h
  split at h
  · cases h; exact hk
  · cases h
  · obtain ⟨m, _, h⟩ := bind_ok.mp h
    cases h; exact hk

theorem get_item_addr_address {key : Key} {addr : Nat} (h : c.get_item_addr C key = .ok (c', addr))
    (hk : c.entries.find k = some (some e)) : c'.entries.find k = some (some e) := by
  unfold get_item_addr at h
  rcases hf : c.entries.find key with _ | _ | e' <;> rcases hu : c.unused_entries with _ | ⟨e1, q⟩ <;>
    simp only [hf, hu, pure, Except.pure, bind, Except.bind] at h
  · cases h
  · have hne : k ≠ key := by rintro rfl; rw [hk] at hf; cases hf
    split at h
    · cases h
    · simp only [ConcurrentMap.find_set_same] at h
      cases h
      exact (ConcurrentMap.find_set_ne _ _ hne).trans hk
  all_goals cases h
  all_goals exact hk

end CommittedItems

theorem commit_item_store {ts : Timestamp} {t t' : Table} {item : Item} (h : t.commit_item C ts item = .ok t') :
    t'.toStore = t.touch item.key := by
  rw [Table.commit_item_eq] at h
  split at h
  · obtain ⟨c, _, h⟩ := bind_ok.mp h
    cases h; rfl
  · cases h; rfl

theorem commit_item_address {ts : Timestamp} {t t' : Table} {item : Item} (h : t.commit_item C ts item = .ok t')
    {k : Key} {e : Nat} (hk : t.committed_items.entries.find k = some (some e)) :
    t'.committed_items.entries.find k = some (some e) := by
  rw [Table.commit_item_eq] at h
  split at h
  · obtain ⟨c, hc, h⟩ := bind_ok.mp h
    cases h
    exact CommittedItems.update_address hc hk
  · cases h; exact hk

theorem call_address {t t' : Table} {c : Call} (h : t.call C c = .ok t') {k : Key} {e : Nat}
    (hk : t.committed_items.entries.find k = some (some e)) : t'.committed_items.entries.find k = some (some e) := by
  cases c with
  | prepare item =>
    obtain ⟨c, hc, h⟩ := bind_ok.mp h
    cases h
    exact CommittedItems.invalidate_address hc hk
  | commit ts =>
    have h : t.commit C ts = .ok t' := h
    rw [Table.commit_eq] at h
    exact run_inv (fun t => t.committed_items.entries.find k = some (some e))
      (fun _ _ _ hk h => commit_item_address h hk) hk h
  | put item =>
    obtain ⟨t1, h1, h⟩ := bind_ok.mp h
    obtain ⟨c, hc, h1⟩ := bind_ok.mp h1
    cases h
    cases h1
    exact CommittedItems.invalidate_address hc hk
  | get_item_addr key =>
    obtain ⟨⟨t1, addr⟩, h1, h⟩ := bind_ok.mp h
    obtain ⟨⟨c, addr'⟩, hc, h1⟩ := bind_ok.mp h1
    cases h1
    cases h
    exact CommittedItems.get_item_addr_address hc hk

theorem calls_address {t t' : Table} {cs : List Call} (h : run (Table.call C) t cs = .ok t') {k : Key} {e : Nat}
    (hk : t.committed_items.entries.find k = some (some e)) : t'.committed_items.entries.find k = some (some e) :=
  run_inv (fun t => t.committed_items.entries.find k = some (some e)) (fun _ _ _ hk h => call_address h hk) hk h

end RampRdma
