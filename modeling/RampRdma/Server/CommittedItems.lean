/-
  RampRdma.Server.CommittedItems — the RDMA-readable cache of committed items
  (`CommittedItems.cpp`): a region of `ENTRY_NUM` slots, the queue of unused ones and the
  map from keys to the slots bound to them. A key touched while the queue is empty is
  bound to a null `Entry*`.

  `Cache` says what the component is for, without addresses and bytes: which keys have a
  slot, what a reader would find in each, how many are free. `invalidate_sim`,
  `update_sim` and `get_item_addr_sim` connect the two: on states that represent each
  other (`Represents`) the code's calls and the cache's end alike, faults included, and the new
  states represent each other again. Everything proved of the cache elsewhere is proved
  of `Cache` and carried over by these.
-/

import Mathlib
import RampRdma.Data
import RampRdma.Lib.Bytes
import RampRdma.Lib.Runs
import RampRdma.Server.Entry

namespace RampRdma

open Bytes Runs

abbrev ENTRY_NUM : Nat := 1000

structure CommittedItems where
  /-- The region at `addr`, cleared by the constructor; addresses are relative to it. -/
  mem : Mem
  /-- `ConcurrentMap<Key, Entry*>`; an entry is its address, `none` the null pointer. -/
  entries : ConcurrentMap Key (Option Nat)
  unused_entries : List Nat

namespace CommittedItems

/-- The constructor, for a pool of `n` slots. -/
def init (n : Nat) : CommittedItems := ⟨fun _ => 0, .empty, (List.range n).map (· * ENTRY_SIZE)⟩

def invalidate (c : CommittedItems) (key : Key) : Except Fault CommittedItems :=
  match c.entries.find key with
  | none =>
    -- `entries[key]` inserts null, which a failing `try_pop` leaves there
    match c.unused_entries with
    | [] => .ok { c with entries := c.entries.set key none }
    | e :: q => .ok { c with entries := c.entries.set key (some e), unused_entries := q }
  | some none => .error .null_deref
  | some (some e) => .ok { c with mem := Entry.invalidate c.mem e }

variable (C : Codec)

def update (c : CommittedItems) (item : Item) : Except Fault CommittedItems :=
  match c.entries.find item.key with
  | none => .ok c
  | some none => .error .null_deref
  | some (some e) => do
    let mem ← Entry.update C c.mem e item
    return { c with mem := mem }

def get_item_addr (c : CommittedItems) (key : Key) : Except Fault (CommittedItems × Nat) := do
  let c ← match c.entries.find key, c.unused_entries with
    | none, e :: q => do
      let mem ← Entry.update C c.mem e (.of_key key)
      pure { mem := mem, entries := c.entries.set key (some e), unused_entries := q }
    | _, _ => pure c
  match c.entries.find key with
  | none => .error .out_of_range
  | some none => .error .null_deref
  | some (some e) => .ok (c, e)

end CommittedItems

/-! ## What the cache is for -/

inductive Slot where
  /-- Bound but never updated. -/
  | blank (valid : Bool)
  | holds (valid : Bool) (item : Item)
  deriving DecidableEq

/-- The slot after its flag was set to `IS_INVALID`. -/
def Slot.stale : Slot → Slot
  | .blank _ => .blank false
  | .holds _ i => .holds false i

structure Cache where
  /-- Not bound, bound to null, or bound to a slot. -/
  binding : Key → Option (Option Slot)
  free : Nat

namespace Cache

def init (n : Nat) : Cache := ⟨fun _ => none, n⟩

def bind (a : Cache) (key : Key) (b : Option Slot) : Cache :=
  { a with binding := fun k => if k = key then some b else a.binding k }

def invalidate (a : Cache) (key : Key) : Except Fault Cache :=
  match a.binding key, a.free with
  | none, 0 => .ok (a.bind key none)
  | none, n + 1 => .ok { a.bind key (some (.blank true)) with free := n }
  | some none, _ => .error .null_deref
  | some (some s), _ => .ok (a.bind key (some s.stale))

variable (C : Codec)

def update (a : Cache) (item : Item) : Except Fault Cache :=
  match a.binding item.key with
  | none => .ok a
  | some none => .error .null_deref
  | some (some _) => if Entry.Fits C item then .ok (a.bind item.key (some (.holds true item))) else .error .exit

def get_item_addr (a : Cache) (key : Key) : Except Fault Cache :=
  match a.binding key, a.free with
  | none, 0 => .error .out_of_range
  | none, n + 1 =>
    if Entry.Fits C (.of_key key) then .ok { a.bind key (some (.holds true (.of_key key))) with free := n }
    else .error .exit
  | some none, _ => .error .null_deref
  | some (some _), _ => .ok a

@[simp] theorem bind_free (a : Cache) (key : Key) (b : Option Slot) : (a.bind key b).free = a.free := rfl

@[simp] theorem binding_bind_same (a : Cache) (key : Key) (b : Option Slot) : (a.bind key b).binding key = some b := by
  simp [bind]

theorem binding_bind_ne (a : Cache) {key k : Key} (b : Option Slot) (h : k ≠ key) :
    (a.bind key b).binding k = a.binding k := by simp [bind, h]

end Cache

/-! ## Representation -/

variable {C : Codec}

def validWord (v : Bool) : Nat := if v then IS_VALID else IS_INVALID

/-- What a reader would find in the slot at `e`. -/
def SlotAt (C : Codec) (m : Mem) (e : Nat) : Slot → Prop
  | .blank v => Entry.Blank m e ∧ Entry.flag m e = validWord v
  | .holds v i => Entry.Holds C m e i ∧ Entry.flag m e = validWord v

theorem SlotAt.congr {m m' : Mem} {e : Nat} {s : Slot} (h : SlotAt C m e s)
    (hm : ∀ i < ENTRY_SIZE, m' (e + i) = m (e + i)) : SlotAt C m' e s := by
  have hf : Entry.flag m' e = Entry.flag m e :=
    Entry.flag_congr fun i hi => hm i (Nat.lt_trans hi (by decide))
  cases s with
  | blank v => exact ⟨h.1.congr fun i _ hi => hm i hi, hf.trans h.2⟩
  | holds v i => exact ⟨h.1.congr C fun i _ hi => hm i hi, hf.trans h.2⟩

theorem SlotAt.stale {m : Mem} {e : Nat} {s : Slot} (h : SlotAt C m e s) :
    SlotAt C (Entry.invalidate m e) e s.stale := by
  have hm : ∀ i, 4 ≤ i → i < ENTRY_SIZE → Entry.invalidate m e (e + i) = m (e + i) :=
    fun i h4 _ => Entry.invalidate_outside m e (by omega)
  cases s with
  | blank v => exact ⟨h.1.congr hm, Entry.invalidate_flag m e⟩
  | holds v i => exact ⟨h.1.congr C hm, Entry.invalidate_flag m e⟩

theorem slotAt_written (m : Mem) (e : Nat) {item : Item} (h : Entry.Fits C item) :
    SlotAt C (Entry.written C m e item) e (.holds true item) :=
  ⟨Entry.written_holds C m e h, Entry.written_flag C m e item⟩

/-- Two slots at different multiples of the slot size share no byte. -/
theorem slot_disjoint {e e' : Nat} (h : ENTRY_SIZE ∣ e) (h' : ENTRY_SIZE ∣ e') (hne : e ≠ e') {i : Nat}
    (hi : i < ENTRY_SIZE) : e' + i < e ∨ e + ENTRY_SIZE ≤ e' + i := by
  obtain ⟨a, rfl⟩ := h
  obtain ⟨b, rfl⟩ := h'
  simp only [ENTRY_SIZE] at hi hne ⊢
  omega

inductive BindingAt (C : Codec) (m : Mem) : Option (Option Nat) → Option (Option Slot) → Prop
  | unbound : BindingAt C m none none
  | null : BindingAt C m (some none) (some none)
  | slot {e : Nat} {s : Slot} : SlotAt C m e s → BindingAt C m (some (some e)) (some (some s))

theorem BindingAt.congr {m m' : Mem} {b : Option (Option Nat)} {b' : Option (Option Slot)} (h : BindingAt C m b b')
    (hm : ∀ e, b = some (some e) → ∀ i < ENTRY_SIZE, m' (e + i) = m (e + i)) : BindingAt C m' b b' := by
  cases h with
  | unbound => exact .unbound
  | null => exact .null
  | slot hs => exact .slot (hs.congr (hm _ rfl))

structure Represents (C : Codec) (c : CommittedItems) (a : Cache) : Prop where
  binding : ∀ k, BindingAt C c.mem (c.entries.find k) (a.binding k)
  free : a.free = c.unused_entries.length
  unused : ∀ e ∈ c.unused_entries, SlotAt C c.mem e (.blank true)
  aligned : ∀ e, (e ∈ c.unused_entries ∨ ∃ k, c.entries.find k = some (some e)) → ENTRY_SIZE ∣ e
  nodup : c.unused_entries.Nodup
  taken : ∀ k e, c.entries.find k = some (some e) → e ∉ c.unused_entries
  injective : ∀ k k' e, c.entries.find k = some (some e) → c.entries.find k' = some (some e) → k = k'

theorem represents_init (n : Nat) : Represents C (.init n) (.init n) where
  binding _ := .unbound
  free := by simp [Cache.init, CommittedItems.init]
  unused e _ := ⟨fun _ _ _ => rfl, load_zero 4 e fun _ _ => rfl⟩
  aligned e h := by
    rcases h with h | ⟨k, hk⟩
    · obtain ⟨i, _, rfl⟩ := List.mem_map.mp h
      exact ⟨i, Nat.mul_comm _ _⟩
    · cases hk
  nodup := List.nodup_range.map fun a b h => by simpa [ENTRY_SIZE] using h
  taken k e hk := by cases hk
  injective k k' e hk := by cases hk

namespace Represents

variable {c : CommittedItems} {a : Cache}

/-- New bytes in the slot bound to `key`, and nowhere else. -/
theorem write (h : Represents C c a) {key : Key} {e : Nat} (hk : c.entries.find key = some (some e)) {m : Mem}
    {s : Slot} (hout : ∀ p, p < e ∨ e + ENTRY_SIZE ≤ p → m p = c.mem p) (hs : SlotAt C m e s) :
    Represents C { c with mem := m } (a.bind key (some s)) := by
  have he := h.aligned e (.inr ⟨key, hk⟩)
  refine ⟨fun k => ?_, h.free, fun e' he' => ?_, h.aligned, h.nodup, h.taken, h.injective⟩
  · by_cases ek : k = key
    · subst ek
      rw [Cache.binding_bind_same, hk]
      exact .slot hs
    · rw [Cache.binding_bind_ne a _ ek]
      refine (h.binding k).congr fun e' hb i hi => hout _ ?_
      refine slot_disjoint he (h.aligned e' (.inr ⟨k, hb⟩)) (fun e0 => ek ?_) hi
      subst e0
      exact h.injective k key e hb hk
  · refine (h.unused e' he').congr fun i hi => hout _ ?_
    refine slot_disjoint he (h.aligned e' (.inl he')) (fun e0 => ?_) hi
    subst e0
    exact h.taken key e hk he'

/-- The first unused slot goes to `key`. -/
theorem take (h : Represents C c a) {key : Key} (hk : c.entries.find key = none) {e : Nat} {q : List Nat}
    (hu : c.unused_entries = e :: q) {m : Mem} {s : Slot} (hout : ∀ p, p < e ∨ e + ENTRY_SIZE ≤ p → m p = c.mem p)
    (hs : SlotAt C m e s) :
    Represents C ⟨m, c.entries.set key (some e), q⟩ { a.bind key (some s) with free := q.length } := by
  have hmem : ∀ e' ∈ q, e' ∈ c.unused_entries := fun e' he' => by rw [hu]; exact List.mem_cons_of_mem _ he'
  have he : e ∈ c.unused_entries := by rw [hu]; exact List.mem_cons_self
  have hal := h.aligned e (.inl he)
  have hnd := h.nodup
  rw [hu, List.nodup_cons] at hnd
  -- a binding of the new map is the new one, or an old one of another key
  have old : ∀ {k e'}, (c.entries.set key (some e)).find k = some (some e') →
      (k = key ∧ e' = e) ∨ (k ≠ key ∧ c.entries.find k = some (some e')) := by
    intro k e' hb
    rw [ConcurrentMap.find_set] at hb
    by_cases ek : k = key
    · rw [if_pos ek] at hb
      cases hb
      exact .inl ⟨ek, rfl⟩
    · rw [if_neg ek] at hb
      exact .inr ⟨ek, hb⟩
  refine ⟨fun k => ?_, rfl, fun e' he' => ?_, fun e' he' => ?_, hnd.2, fun k e' hb => ?_, fun k k' e' hb hb' => ?_⟩
  · by_cases ek : k = key
    · subst ek
      show BindingAt C m ((c.entries.set k (some e)).find k) ((a.bind k (some s)).binding k)
      rw [Cache.binding_bind_same, ConcurrentMap.find_set_same]
      exact .slot hs
    · show BindingAt C m ((c.entries.set key (some e)).find k) ((a.bind key (some s)).binding k)
      rw [Cache.binding_bind_ne a _ ek, ConcurrentMap.find_set_ne _ _ ek]
      refine (h.binding k).congr fun e' hb i hi => hout _ ?_
      refine slot_disjoint hal (h.aligned e' (.inr ⟨k, hb⟩)) (fun e0 => ?_) hi
      subst e0
      exact h.taken k e hb he
  · refine (h.unused e' (hmem e' he')).congr fun i hi => hout _ ?_
    refine slot_disjoint hal (h.aligned e' (.inl (hmem e' he'))) (fun e0 => ?_) hi
    subst e0
    exact hnd.1 he'
  · rcases he' with he' | ⟨k, hb⟩
    · exact h.aligned e' (.inl (hmem e' he'))
    · rcases old hb with ⟨_, rfl⟩ | ⟨_, hb⟩
      · exact hal
      · exact h.aligned e' (.inr ⟨k, hb⟩)
  · rcases old hb with ⟨_, rfl⟩ | ⟨_, hb⟩
    · exact hnd.1
    · exact fun hm => h.taken k e' hb (hmem e' hm)
  · rcases old hb with ⟨rfl, rfl⟩ | ⟨_, h1⟩ <;> rcases old hb' with ⟨rfl, e0⟩ | ⟨_, h2⟩
    · rfl
    · exact absurd he (h.taken k' e' h2)
    · subst e0
      exact absurd he (h.taken k e' h1)
    · exact h.injective k k' e' h1 h2

/-- A key touched with no slot left. -/
theorem null (h : Represents C c a) {key : Key} (hk : c.entries.find key = none) :
    Represents C { c with entries := c.entries.set key none } (a.bind key none) := by
  have old : ∀ {k e'}, (c.entries.set key none).find k = some (some e') → c.entries.find k = some (some e') := by
    intro k e' hb
    rw [ConcurrentMap.find_set] at hb
    by_cases ek : k = key
    · rw [if_pos ek] at hb
      cases hb
    · rwa [if_neg ek] at hb
  refine ⟨fun k => ?_, h.free, h.unused, fun e he => ?_, h.nodup, fun k e hb => h.taken k e (old hb),
    fun k k' e hb hb' => h.injective k k' e (old hb) (old hb')⟩
  · by_cases ek : k = key
    · subst ek
      rw [Cache.binding_bind_same, ConcurrentMap.find_set_same]
      exact .null
    · rw [Cache.binding_bind_ne a _ ek, ConcurrentMap.find_set_ne _ _ ek]
      exact h.binding k
  · exact h.aligned e (he.imp id fun ⟨k, hb⟩ => ⟨k, old hb⟩)

/-! ## The calls simulate the cache's -/

theorem invalidate_sim (h : Represents C c a) (key : Key) :
    RelExcept (Represents C) (c.invalidate key) (a.invalidate key) := by
  have hb := h.binding key
  unfold CommittedItems.invalidate Cache.invalidate
  rcases hf : c.entries.find key with _ | _ | e <;> rcases ha : a.binding key with _ | _ | s <;> rw [hf, ha] at hb
  all_goals cases hb
  · rcases hu : c.unused_entries with _ | ⟨e, q⟩
    · have hfree : a.free = 0 := by rw [h.free, hu]; rfl
      have hn := h.null hf
      rw [hu] at hn
      rw [hfree]
      exact .ok hn
    · have hfree : a.free = q.length + 1 := by rw [h.free, hu]; rfl
      rw [hfree]
      refine .ok (h.take hf hu (fun _ _ => rfl) (h.unused e ?_))
      rw [hu]
      exact List.mem_cons_self
  · exact .error _
  · rename_i hs
    refine .ok (h.write hf (fun p hp => Entry.invalidate_outside _ _ ?_) hs.stale)
    simp only [ENTRY_SIZE] at hp
    omega

theorem update_sim (h : Represents C c a) (item : Item) :
    RelExcept (Represents C) (c.update C item) (a.update C item) := by
  have hb := h.binding item.key
  unfold CommittedItems.update Cache.update
  rcases hf : c.entries.find item.key with _ | _ | e <;> rcases ha : a.binding item.key with _ | _ | s <;>
    rw [hf, ha] at hb
  all_goals cases hb
  · exact .ok h
  · exact .error _
  · by_cases hfit : Entry.Fits C item
    · simp only [Entry.update_ok C hfit, if_pos hfit]
      exact .ok (h.write hf (fun p hp => Entry.written_outside C _ _ hfit hp) (slotAt_written _ _ hfit))
    · simp only [Entry.update_exit C hfit, if_neg hfit]
      exact .error _

/-- And the address handed out is the one the key is bound to from then on. -/
theorem get_item_addr_sim (h : Represents C c a) (key : Key) :
    RelExcept (fun r a' => Represents C r.1 a' ∧ r.1.entries.find key = some (some r.2))
      (c.get_item_addr C key) (a.get_item_addr C key) := by
  have hb := h.binding key
  unfold CommittedItems.get_item_addr Cache.get_item_addr
  rcases hf : c.entries.find key with _ | _ | e <;> rcases ha : a.binding key with _ | _ | s <;> rw [hf, ha] at hb
  all_goals cases hb
  · rcases hu : c.unused_entries with _ | ⟨e, q⟩
    · have hfree : a.free = 0 := by rw [h.free, hu]; rfl
      rw [hfree]
      simp only [pure, Except.pure, bind, Except.bind, hf]
      exact .error _
    · have hfree : a.free = q.length + 1 := by rw [h.free, hu]; rfl
      rw [hfree]
      by_cases hfit : Entry.Fits C (.of_key key)
      · simp only [Entry.update_ok C hfit, if_pos hfit, pure, Except.pure, bind, Except.bind,
          ConcurrentMap.find_set_same]
        exact .ok ⟨h.take hf hu (fun p hp => Entry.written_outside C _ _ hfit hp) (slotAt_written _ _ hfit),
          ConcurrentMap.find_set_same _ _ _⟩
      · simp only [Entry.update_exit C hfit, if_neg hfit, bind, Except.bind]
        exact .error _
  · simp only [pure, Except.pure, bind, Except.bind, hf]
    exact .error _
  · simp only [pure, Except.pure, bind, Except.bind, hf]
    exact .ok ⟨h, hf⟩

end Represents

end RampRdma
