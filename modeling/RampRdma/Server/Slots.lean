/-
  RampRdma.Server.Slots — the slots of the cache over whole histories: of one slot, what a
  one-sided read finds after any updates and invalidations; of all of them, who has which.

  - `read_last`: a slot that was updated first reads as its last update or, after an
    invalidation, as -1, whatever older and longer items left in it.
  - `call_cases`: all that a call on the cache can do to queue, bindings and bytes.
  - `slots_exclusive`: every slot is in the queue once or bound to one key, a binding stays,
    and the bytes of a bound slot change only by calls on its key.
-/

import Mathlib
import RampRdma.Lib.Runs
import RampRdma.Server.CommittedItems
import RampRdma.Wire

namespace RampRdma

open Bytes Runs

variable {C : Codec}

/-! ## One slot -/

namespace Entry

inductive Call where
  | update (item : Item)
  | invalidate
  deriving DecidableEq

def call (C : Codec) (e : Nat) (m : Mem) : Call → Except Fault Mem
  | .update item => update C m e item
  | .invalidate => .ok (invalidate m e)

/-- What a read returns after a call, and the item it stores. -/
def Call.answer : Call → Int × Option Item
  | .update item => (0, some item)
  | .invalidate => (-1, none)

theorem call_update {e : Nat} {m : Mem} {item : Item} (h : Fits C item) :
    ∃ m', call C e m (.update item) = .ok m' ∧ Holds C m' e item ∧ flag m' e = IS_VALID :=
  ⟨_, update_ok C h m e, written_holds C m e h, written_flag C m e item⟩

theorem call_invalidate {e : Nat} {m : Mem} {item : Item} (h : Holds C m e item) :
    ∃ m', call C e m .invalidate = .ok m' ∧ Holds C m' e item ∧ flag m' e = IS_INVALID :=
  ⟨_, rfl, h.congr C fun i h4 _ => invalidate_outside m e (by omega), invalidate_flag m e⟩

theorem calls_hold {e : Nat} {cs : List Call} (hf : ∀ item, .update item ∈ cs → Fits C item) (m : Mem) {first : Item}
    (h0 : Holds C m e first) : ∃ m' item, run (call C e) m cs = .ok m' ∧ Holds C m' e item := by
  induction cs generalizing m first with
  | nil => exact ⟨m, first, rfl, h0⟩
  | cons c cs ih =>
    have hf' : ∀ item, .update item ∈ cs → Fits C item := fun item h => hf item (List.mem_cons_of_mem _ h)
    obtain ⟨m1, i1, h1, hh⟩ : ∃ m1 i1, call C e m c = .ok m1 ∧ Holds C m1 e i1 := by
      cases c with
      | update item =>
        obtain ⟨m1, h1, hh, -⟩ := call_update (e := e) (m := m) (hf item List.mem_cons_self)
        exact ⟨m1, item, h1, hh⟩
      | invalidate =>
        obtain ⟨m1, h1, hh, -⟩ := call_invalidate h0
        exact ⟨m1, first, h1, hh⟩
    obtain ⟨m', item, hr, hh'⟩ := ih hf' m1 hh
    refine ⟨m', item, ?_, hh'⟩
    rw [run_cons, h1]
    exact hr

theorem read_last {cs : List Call} {c : Call} (h0 : ∃ first, (cs ++ [c]).head? = some (.update first))
    (hf : ∀ item, .update item ∈ cs ++ [c] → Fits C item) (m : Mem) (e : Nat) :
    ∃ m', run (call C e) m (cs ++ [c]) = .ok m' ∧
      ∀ fuel, RDMAWriteSocket.read C (fuel + 1) (RDMAWriteSocket.contents m' e) = some c.answer := by
  -- the calls before the last one succeed, and leave an item unless there are none
  obtain ⟨m1, h1, hh⟩ : ∃ m1, run (call C e) m cs = .ok m1 ∧ (c = .invalidate → ∃ item, Holds C m1 e item) := by
    cases cs with
    | nil =>
      obtain ⟨first, h⟩ := h0
      refine ⟨m, rfl, fun e => ?_⟩
      rw [e] at h
      cases h
    | cons c1 cs =>
      obtain ⟨first, h⟩ := h0
      cases h
      obtain ⟨m1, h1, hh, -⟩ := call_update (e := e) (m := m) (hf first List.mem_cons_self)
      obtain ⟨m2, item, h2, hh2⟩ := calls_hold (fun item h => hf item (List.mem_append_left _ (List.mem_cons_of_mem _ h))) m1 hh
      refine ⟨m2, ?_, fun _ => ⟨item, hh2⟩⟩
      rw [run_cons, h1]
      exact h2
  cases c with
  | update item =>
    obtain ⟨m', h2, hh', hv⟩ := call_update (e := e) (m := m1) (hf item (by simp))
    exact ⟨m', run_snoc_ok.mpr ⟨m1, h1, h2⟩, RDMAWriteSocket.read_valid hh' hv⟩
  | invalidate =>
    obtain ⟨item, hh⟩ := hh rfl
    obtain ⟨m', h2, hh', hv⟩ := call_invalidate hh
    refine ⟨m', run_snoc_ok.mpr ⟨m1, h1, h2⟩, RDMAWriteSocket.read_invalid hh' ?_⟩
    rw [hv]
    decide

/-- A long key, then a short one. -/
theorem read_last_short : ∃ m', run (call Wire.msgpack 0) (fun _ => 0)
      [.update (.of_key "longer"), .invalidate, .update (.of_key "x")] = .ok m' ∧
    ∀ fuel, RDMAWriteSocket.read Wire.msgpack (fuel + 1) (RDMAWriteSocket.contents m' 0) = some (0, some (.of_key "x")) :=
  @read_last _ [.update (.of_key "longer"), .invalidate] (.update (.of_key "x")) ⟨_, rfl⟩
    (by
      intro item h
      simp only [List.mem_append, List.mem_cons, Call.update.injEq, reduceCtorEq, List.not_mem_nil, or_false] at h
      rcases h with rfl | rfl
      · decide
      · decide) _ _

end Entry

/-! ## All slots -/

namespace CommittedItems

inductive Call where
  | invalidate (key : Key)
  | update (item : Item)
  | get_item_addr (key : Key)

def Call.key : Call → Key
  | .invalidate key => key
  | .update item => item.key
  | .get_item_addr key => key

def call (C : Codec) (c : CommittedItems) : Call → Except Fault CommittedItems
  | .invalidate key => c.invalidate key
  | .update item => c.update C item
  | .get_item_addr key => do
    let (c, _) ← c.get_item_addr C key
    return c

/-- The slot at `e` is the key's. -/
def Bound (c : CommittedItems) (k : Key) (e : Nat) : Prop := c.entries.find k = some (some e)

/-- Only bytes of the slot at `e` differ. -/
def Within (e : Nat) (m m' : Mem) : Prop := ∀ p, p < e ∨ e + ENTRY_SIZE ≤ p → m' p = m p

/-- The slot is unused, once, or bound, to one key. -/
def Exclusive (c : CommittedItems) (e : Nat) : Prop :=
  (c.unused_entries.count e = 1 ∧ ∀ k, ¬ c.Bound k e) ∨ (e ∉ c.unused_entries ∧ ∃! k, c.Bound k e)

variable {c c' : CommittedItems} {x : Call}

theorem update_within {m m' : Mem} {e : Nat} {item : Item} (h : Entry.update C m e item = .ok m') :
    Within e m m' ∧ m' = Entry.written C m e item := by
  by_cases hf : Entry.Fits C item
  · rw [Entry.update_ok C hf] at h
    cases h
    exact ⟨fun p hp => Entry.written_outside C m e hf hp, rfl⟩
  · rw [Entry.update_exit C hf] at h
    cases h

/-- All that a call can do: nothing, write the slot of its key, bind its key to the first
    unused slot and write that, or bind its key to null. -/
inductive Did (c : CommittedItems) (k : Key) : CommittedItems → Prop
  | nothing : Did c k c
  | write {e : Nat} {m : Mem} : c.Bound k e → Within e c.mem m → Did c k { c with mem := m }
  | take {e : Nat} {q : List Nat} {m : Mem} : c.entries.find k = none → c.unused_entries = e :: q → Within e c.mem m →
      Did c k ⟨m, c.entries.set k (some e), q⟩
  | null : c.entries.find k = none → c.unused_entries = [] → Did c k { c with entries := c.entries.set k none }

/-- And the address handed out is that of the slot of its key. -/
theorem get_item_addr_did {key : Key} {addr : Nat} (h : c.get_item_addr C key = .ok (c', addr)) :
    Did c key c' ∧ c'.Bound key addr := by
  unfold get_item_addr at h
  rcases hf : c.entries.find key with _ | _ | e <;> rcases hu : c.unused_entries with _ | ⟨e1, q⟩ <;>
    simp only [hf, hu, pure, Except.pure, bind, Except.bind] at h
  · cases h
  · split at h
    · cases h
    · rename_i m hm
      simp only [ConcurrentMap.find_set_same] at h
      cases h
      exact ⟨.take hf hu (update_within hm).1, ConcurrentMap.find_set_same _ _ _⟩
  · cases h
  · cases h
  · cases h
    exact ⟨.nothing, hf⟩
  · cases h
    exact ⟨.nothing, hf⟩

theorem call_cases (h : c.call C x = .ok c') : Did c x.key c' := by
  cases x with
  | invalidate key =>
    have h : c.invalidate key = .ok c' := h
    unfold invalidate at h
    split at h
    · rename_i hb
      split at h <;> rename_i hu <;> cases h
      · exact .null hb hu
      · exact .take hb hu fun p _ => rfl
    · cases h
    · rename_i e hb
      cases h
      refine .write hb fun p hp => Entry.invalidate_outside _ _ ?_
      simp only [ENTRY_SIZE] at hp
      omega
  | update item =>
    have h : c.update C item = .ok c' := h
    unfold update at h
    split at h
    · cases h
      exact .nothing
    · cases h
    · rename_i e hb
      obtain ⟨m, hm, h⟩ := bind_ok.mp h
      cases h
      exact .write hb (update_within hm).1
  | get_item_addr key =>
    obtain ⟨⟨c1, addr⟩, h1, h⟩ := bind_ok.mp h
    cases h
    exact (get_item_addr_did h1).1

/-! ### Bindings -/

/-- A binding, to null too, is never changed. -/
theorem Did.binding {k key : Key} {b : Option Nat} (h : Did c key c') (hb : c.entries.find k = some b) :
    c'.entries.find k = some b := by
  cases h with
  | nothing => exact hb
  | write _ _ => exact hb
  | take hn hu hm =>
    have hne : k ≠ key := by rintro rfl; rw [hn] at hb; cases hb
    exact (ConcurrentMap.find_set_ne _ _ hne).trans hb
  | null hn hu =>
    have hne : k ≠ key := by rintro rfl; rw [hn] at hb; cases hb
    exact (ConcurrentMap.find_set_ne _ _ hne).trans hb

theorem calls_binding {xs : List Call} (h : run (call C) c xs = .ok c') {k : Key} {b : Option Nat}
    (hb : c.entries.find k = some b) : c'.entries.find k = some b :=
  run_inv (fun c => c.entries.find k = some b) (fun _ _ _ hb h => (call_cases h).binding hb) hb h

/-! ### Slots -/

structure Conserved (n : Nat) (c : CommittedItems) : Prop where
  all : ∀ i < n, i * ENTRY_SIZE ∈ c.unused_entries ∨ ∃ k, c.Bound k (i * ENTRY_SIZE)
  aligned : ∀ e, (e ∈ c.unused_entries ∨ ∃ k, c.Bound k e) → ENTRY_SIZE ∣ e
  nodup : c.unused_entries.Nodup
  taken : ∀ k e, c.Bound k e → e ∉ c.unused_entries
  injective : ∀ k k' e, c.Bound k e → c.Bound k' e → k = k'

theorem conserved_init (n : Nat) : Conserved n (.init n) := by
  have hr := represents_init (C := Wire.msgpack) n
  exact ⟨fun i hi => .inl (List.mem_map.mpr ⟨i, List.mem_range.mpr hi, rfl⟩), hr.aligned, hr.nodup, hr.taken, hr.injective⟩

/-- The bindings of a map with a new one for `key`. -/
theorem bound_set {m : ConcurrentMap Key (Option Nat)} {key k : Key} {b : Option Nat} {e : Nat}
    (h : (m.set key b).find k = some (some e)) : (k = key ∧ b = some e) ∨ (k ≠ key ∧ m.find k = some (some e)) := by
  rw [ConcurrentMap.find_set] at h
  by_cases ek : k = key
  · rw [if_pos ek] at h
    cases h
    exact .inl ⟨ek, rfl⟩
  · rw [if_neg ek] at h
    exact .inr ⟨ek, h⟩

theorem Did.conserved {n : Nat} {key : Key} (h : Did c key c') (hc : Conserved n c) : Conserved n c' := by
  have hb : ∀ {k e}, c.Bound k e → c'.Bound k e := fun hk => h.binding hk
  cases h with
  | nothing => exact hc
  | write _ _ => exact ⟨hc.all, hc.aligned, hc.nodup, hc.taken, hc.injective⟩
  | @take e q m hn hu hm =>
    have hnd := hc.nodup
    rw [hu, List.nodup_cons] at hnd
    have hq : ∀ e' ∈ q, e' ∈ c.unused_entries := fun e' he => by rw [hu]; exact List.mem_cons_of_mem _ he
    have he : e ∈ c.unused_entries := by rw [hu]; exact List.mem_cons_self
    refine ⟨fun i hi => ?_, fun e' he' => ?_, hnd.2, fun k e' hk => ?_, fun k k' e' hk hk' => ?_⟩
    · rcases hc.all i hi with h | ⟨k, hk⟩
      · rw [hu] at h
        rcases List.mem_cons.mp h with h | h
        · exact .inr ⟨key, by rw [h]; exact ConcurrentMap.find_set_same _ _ _⟩
        · exact .inl h
      · exact .inr ⟨k, hb hk⟩
    · rcases he' with he' | ⟨k, hk⟩
      · exact hc.aligned e' (.inl (hq e' he'))
      · rcases bound_set hk with ⟨-, h⟩ | ⟨-, hk⟩
        · cases h
          exact hc.aligned _ (.inl he)
        · exact hc.aligned e' (.inr ⟨k, hk⟩)
    · rcases bound_set hk with ⟨-, h⟩ | ⟨-, hk⟩
      · cases h
        exact hnd.1
      · exact fun h => hc.taken k e' hk (hq e' h)
    · rcases bound_set hk with ⟨rfl, h⟩ | ⟨-, h1⟩ <;> rcases bound_set hk' with ⟨rfl, h'⟩ | ⟨-, h2⟩
      · rfl
      · cases h
        exact absurd he (hc.taken k' _ h2)
      · cases h'
        exact absurd he (hc.taken k _ h1)
      · exact hc.injective k k' e' h1 h2
  | null hn hu =>
    have old : ∀ {k e}, (c.entries.set key none).find k = some (some e) → c.Bound k e := by
      intro k e hk
      rcases bound_set hk with ⟨-, h⟩ | ⟨-, hk⟩
      · cases h
      · exact hk
    refine ⟨fun i hi => (hc.all i hi).imp id fun ⟨k, hk⟩ => ⟨k, hb hk⟩, fun e he => ?_, hc.nodup,
      fun k e hk => hc.taken k e (old hk), fun k k' e hk hk' => hc.injective k k' e (old hk) (old hk')⟩
    exact hc.aligned e (he.imp id fun ⟨k, hk⟩ => ⟨k, old hk⟩)

theorem conserved {n : Nat} {xs : List Call} (h : run (call C) (.init n) xs = .ok c) : Conserved n c :=
  run_inv (Conserved n) (fun _ _ _ hc h => (call_cases h).conserved hc) (conserved_init n) h

theorem Conserved.exclusive {n : Nat} (hc : Conserved n c) {i : Nat} (hi : i < n) : c.Exclusive (i * ENTRY_SIZE) := by
  rcases hc.all i hi with h | ⟨k, hk⟩
  · exact .inl ⟨List.count_eq_one_of_mem hc.nodup h, fun k hk => hc.taken k _ hk h⟩
  · exact .inr ⟨hc.taken k _ hk, k, hk, fun k' hk' => hc.injective k' k _ hk' hk⟩

/-- A call leaves the slots of other keys alone. -/
theorem Did.frame {n : Nat} {key k : Key} {e i : Nat} (h : Did c key c') (hc : Conserved n c) (hk : c.Bound k e)
    (hne : key ≠ k) (hi : i < ENTRY_SIZE) : c'.mem (e + i) = c.mem (e + i) := by
  have he := hc.aligned e (.inr ⟨k, hk⟩)
  cases h with
  | nothing => rfl
  | null _ _ => rfl
  | @write e' m hb hm =>
    refine hm _ (slot_disjoint (hc.aligned e' (.inr ⟨key, hb⟩)) he (fun e0 => hne ?_) hi)
    subst e0
    exact hc.injective key k e' hb hk
  | @take e' q m hn hu hm =>
    have hu' : e' ∈ c.unused_entries := by rw [hu]; exact List.mem_cons_self
    refine hm _ (slot_disjoint (hc.aligned e' (.inl hu')) he (fun e0 => ?_) hi)
    subst e0
    exact hc.taken k e' hk hu'

theorem get_item_addr_again {k : Key} {addr : Nat} (h : c.Bound k addr) : c.get_item_addr C k = .ok (c, addr) := by
  have h : c.entries.find k = some (some addr) := h
  unfold get_item_addr
  simp only [h, pure, Except.pure, bind, Except.bind]

/-- The address handed out for a key is that of its slot, for good; updates of the key write
    there, and calls on other keys write no byte of it. -/
theorem slots_exclusive {n : Nat} {xs : List Call} (h : run (call C) (.init n) xs = .ok c) :
    (∀ i < n, c.Exclusive (i * ENTRY_SIZE)) ∧
    (∀ k addr c1, c.get_item_addr C k = .ok (c1, addr) → c1.Bound k addr) ∧
    ∀ k addr, c.Bound k addr → ∀ ys c2, run (call C) c ys = .ok c2 →
      c2.Bound k addr ∧ c2.get_item_addr C k = .ok (c2, addr) ∧
      (∀ item c3, item.key = k → c2.update C item = .ok c3 → c3.mem = Entry.written C c2.mem addr item) ∧
      ∀ y c3, y.key ≠ k → c2.call C y = .ok c3 → ∀ i < ENTRY_SIZE, c3.mem (addr + i) = c2.mem (addr + i) := by
  refine ⟨fun i hi => (conserved h).exclusive hi, fun k addr c1 h1 => (get_item_addr_did h1).2, fun k addr hb ys c2 h2 => ?_⟩
  have hk : c2.Bound k addr := calls_binding h2 hb
  have hc : Conserved n c2 := conserved (run_append_ok.mpr ⟨c, h, h2⟩)
  refine ⟨hk, get_item_addr_again hk, ?_, fun y c3 hy h3 i hi => (call_cases h3).frame hc hk hy hi⟩
  rintro item c3 rfl h3
  have hk : c2.entries.find item.key = some (some addr) := hk
  unfold update at h3
  rw [hk] at h3
  obtain ⟨m, hm, h3⟩ := bind_ok.mp h3
  cases h3
  exact (update_within hm).2

/-- Two keys, and later calls of the second: the first keeps its slot and its bytes. -/
theorem slots_exclusive_two : ∃ c c2 c3, run (call Wire.msgpack) (.init 2) [.invalidate "x", .get_item_addr "y"] = .ok c ∧
    run (call Wire.msgpack) c [.update { key := "y", ts := ⟨1, 0⟩ }, .invalidate "y"] = .ok c2 ∧
    c2.call Wire.msgpack (.update { key := "y", ts := ⟨2, 0⟩ }) = .ok c3 ∧ c.Exclusive ENTRY_SIZE ∧
    c2.get_item_addr Wire.msgpack "x" = .ok (c2, 0) ∧ ∀ i < ENTRY_SIZE, c3.mem (0 + i) = c2.mem (0 + i) := by
  obtain ⟨c3, h⟩ := ok_of_isOk (show (run (call Wire.msgpack) (.init 2) [.invalidate "x", .get_item_addr "y"] >>= fun c =>
    run (call Wire.msgpack) c [.update { key := "y", ts := ⟨1, 0⟩ }, .invalidate "y"] >>= fun c2 =>
    c2.call Wire.msgpack (.update { key := "y", ts := ⟨2, 0⟩ })).isOk = true by decide +kernel)
  obtain ⟨c, hc, h⟩ := bind_ok.mp h
  obtain ⟨c2, h2, h3⟩ := bind_ok.mp h
  have hk : c.Bound "x" 0 := by
    have hb : ((run (call Wire.msgpack) (.init 2) [.invalidate "x", .get_item_addr "y"]).toOption.map
      fun c => c.entries.find "x") = some (some (some 0)) := by decide +kernel
    rw [hc] at hb
    exact Option.some.inj hb
  obtain ⟨hex, -, hslot⟩ := slots_exclusive hc
  obtain ⟨-, haddr, -, hframe⟩ := hslot "x" 0 hk _ c2 h2
  exact ⟨c, c2, c3, hc, h2, h3, hex 1 (by decide), haddr, hframe _ c3 (by decide) h3⟩

end CommittedItems

end RampRdma
