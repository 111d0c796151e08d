/-
  RampRdma.Ycsb.Cache — `CommittedItemsCache` of the YCSB tree: `memcpy`s that check no bound,
  where `CommittedItems` goes through `Buffer::update`. The flag is written first, and the
  region is not cleared.

  - `update_fits`: an item that fits its slot leaves the same bytes behind.
  - `cache_agrees`: so the two go through the same states in any run of calls, errors included,
    up to the first item that does not fit: there `CommittedItems` exits, and
    `CommittedItemsCache` goes on with an image in memory that is longer than the slot.
-/

import Mathlib
import RampRdma.Lib.Bytes
import RampRdma.Lib.Runs
import RampRdma.Server.Slots

namespace RampRdma.Ycsb

open Bytes Runs

variable (C : Codec)

namespace CacheEntry

def invalidate (m : Mem) (addr : Nat) : Mem := write m addr (le 4 IS_INVALID)

def update (m : Mem) (addr : Nat) (item : Item) : Mem :=
  let sbuf := C.pack item
  let header : MessageHeader := { req_type := .RESULT, body_size := sbuf.length }
  write (write (write (write m addr (le 4 IS_VALID)) (addr + 4) header.bytes) (addr + 4 + 24) sbuf)
    (addr + 4 + 24 + sbuf.length) (le 4 IS_ARRIVED)

end CacheEntry

namespace CommittedItemsCache

/-- The constructor, for a pool of `n` entries; `m` is what the region holds. -/
def init (m : Mem) (n : Nat) : CommittedItems := ⟨m, .empty, (List.range n).map (· * ENTRY_SIZE)⟩

def invalidate (c : CommittedItems) (key : Key) : Except Fault CommittedItems :=
  match c.entries.find key with
  | none =>
    match c.unused_entries with
    | [] => .ok { c with entries := c.entries.set key none }
    | e :: q => .ok { c with entries := c.entries.set key (some e), unused_entries := q }
  | some none => .error .null_deref
  | some (some e) => .ok { c with mem := CacheEntry.invalidate c.mem e }

def update (c : CommittedItems) (item : Item) : Except Fault CommittedItems :=
  match c.entries.find item.key with
  | none => .ok c
  | some none => .error .null_deref
  | some (some e) => .ok { c with mem := CacheEntry.update C c.mem e item }

def get_item_addr (c : CommittedItems) (key : Key) : Except Fault (CommittedItems × Nat) :=
  let c := match c.entries.find key, c.unused_entries with
    | none, e :: q =>
      { mem := CacheEntry.update C c.mem e (.of_key key), entries := c.entries.set key (some e), unused_entries := q }
    | _, _ => c
  match c.entries.find key with
  | none => .error .out_of_range
  | some none => .error .null_deref
  | some (some e) => .ok (c, e)

def call (c : CommittedItems) : CommittedItems.Call → Except Fault CommittedItems
  | .invalidate key => invalidate c key
  | .update item => update C c item
  | .get_item_addr key => do
    let (c, _) ← get_item_addr C c key
    return c

/-- The item a call writes, and the entry. -/
def writes (c : CommittedItems) : CommittedItems.Call → Option (Nat × Item)
  | .invalidate _ => none
  | .update item => (c.entries.find item.key).join.map (·, item)
  | .get_item_addr key =>
    match c.entries.find key, c.unused_entries with
    | none, e :: _ => some (e, .of_key key)
    | _, _ => none

end CommittedItemsCache

/-! ## One entry -/

/-- Flag, header, version and end mark. -/
def image (item : Item) : List UInt8 :=
  le 4 IS_VALID ++ (({ req_type := .RESULT, body_size := (C.pack item).length } : MessageHeader).bytes ++
    (C.pack item ++ le 4 IS_ARRIVED))

variable {C}

theorem update_image (m : Mem) (e : Nat) (item : Item) : CacheEntry.update C m e item = write m e (image C item) := by
  rw [image, write_append, write_append, write_append]
  simp only [length_le, MessageHeader.length_bytes]
  rfl

theorem length_image (item : Item) : (image C item).length = 32 + (C.pack item).length := by
  simp only [image, List.length_append, length_le, MessageHeader.length_bytes]
  omega

/-- The flag first or last: the same bytes. -/
theorem update_fits {item : Item} (h : Entry.Fits C item) (m : Mem) (e : Nat) :
    Entry.update C m e item = .ok (CacheEntry.update C m e item) := by
  rw [Entry.update_ok C h]
  simp only [Entry.written, CacheEntry.update]
  have hflag : ∀ (m : Mem) {b : Nat} (bs : List UInt8), e + 4 ≤ b →
      write (write m e (le 4 IS_VALID)) b bs = write (write m b bs) e (le 4 IS_VALID) := by
    intro m b bs hb
    exact write_comm m (by rwa [length_le])
  rw [hflag m _ le_rfl, hflag _ _ (Nat.le_add_right _ _), hflag _ _ (by omega)]

/-! ## One call -/

variable {c c' : CommittedItems} {x : CommittedItems.Call}

theorem call_fits (h : ∀ e item, CommittedItemsCache.writes c x = some (e, item) → Entry.Fits C item) :
    CommittedItemsCache.call C c x = c.call C x := by
  cases x with
  | invalidate key => rfl
  | update item =>
    simp only [CommittedItemsCache.call, CommittedItemsCache.update, CommittedItems.call, CommittedItems.update]
    rcases hf : c.entries.find item.key with _ | _ | e
    · rfl
    · rfl
    · have hfit := h e item (by simp [CommittedItemsCache.writes, hf])
      simp only [update_fits hfit]
      rfl
  | get_item_addr key =>
    simp only [CommittedItemsCache.call, CommittedItemsCache.get_item_addr, CommittedItems.call,
      CommittedItems.get_item_addr]
    rcases hf : c.entries.find key with _ | e
    · rcases hq : c.unused_entries with _ | ⟨e, q⟩
      · rfl
      · have hfit := h e (.of_key key) (by simp [CommittedItemsCache.writes, hf, hq])
        simp only [update_fits hfit]
        rfl
    · rfl

/-- Where `Buffer::update` finds no room. -/
theorem call_overruns {e : Nat} {item : Item} (hw : CommittedItemsCache.writes c x = some (e, item))
    (h : ¬ Entry.Fits C item) :
    c.call C x = .error .exit ∧
    ∃ c', CommittedItemsCache.call C c x = .ok c' ∧ c'.mem = CacheEntry.update C c.mem e item := by
  cases x with
  | invalidate key => cases hw
  | update item =>
    simp only [CommittedItemsCache.writes, Option.map_eq_some_iff, Option.join_eq_some_iff, Prod.mk.injEq] at hw
    obtain ⟨_, hf, rfl, rfl⟩ := hw
    simp only [CommittedItemsCache.call, CommittedItemsCache.update, CommittedItems.call, CommittedItems.update, hf,
      Entry.update_exit C h]
    exact ⟨rfl, _, rfl, rfl⟩
  | get_item_addr key =>
    simp only [CommittedItemsCache.writes] at hw
    split at hw <;> cases hw
    rename_i q hf hq
    simp only [CommittedItemsCache.call, CommittedItemsCache.get_item_addr, CommittedItems.call,
      CommittedItems.get_item_addr, hf, hq, Entry.update_exit C h, ConcurrentMap.find_set_same]
    exact ⟨rfl, _, rfl, rfl⟩

/-- A call of `CommittedItems` exits only there. -/
theorem exit_writes (h : c.call C x = .error .exit) :
    ∃ e item, CommittedItemsCache.writes c x = some (e, item) ∧ ¬ Entry.Fits C item := by
  by_contra hn
  have hfit : ∀ e item, CommittedItemsCache.writes c x = some (e, item) → Entry.Fits C item := by
    intro e item hw
    by_contra hf
    exact hn ⟨e, item, hw, hf⟩
  rw [← call_fits hfit] at h
  cases x with
  | invalidate key =>
    simp only [CommittedItemsCache.call, CommittedItemsCache.invalidate] at h
    split at h
    · split at h <;> cases h
    · cases h
    · cases h
  | update item =>
    simp only [CommittedItemsCache.call, CommittedItemsCache.update] at h
    split at h <;> cases h
  | get_item_addr key =>
    simp only [CommittedItemsCache.call, CommittedItemsCache.get_item_addr] at h
    rcases bind_error.mp h with h | ⟨_, _, h⟩
    · split at h <;> cases h
    · cases h

theorem writes_aligned {n e : Nat} {item : Item} (hc : CommittedItems.Conserved n c)
    (hw : CommittedItemsCache.writes c x = some (e, item)) : ENTRY_SIZE ∣ e := by
  cases x with
  | invalidate key => cases hw
  | update item =>
    simp only [CommittedItemsCache.writes, Option.map_eq_some_iff, Option.join_eq_some_iff, Prod.mk.injEq] at hw
    obtain ⟨_, hf, rfl, rfl⟩ := hw
    exact hc.aligned _ (.inr ⟨item.key, hf⟩)
  | get_item_addr key =>
    simp only [CommittedItemsCache.writes] at hw
    split at hw <;> cases hw
    rename_i q hf hq
    exact hc.aligned e (.inl (by rw [hq]; exact List.mem_cons_self))

/-! ## Runs -/

theorem run_fits (cs : List CommittedItems.Call) (c : CommittedItems)
    (h : run (CommittedItems.call C) c cs ≠ .error .exit) :
    run (CommittedItemsCache.call C) c cs = run (CommittedItems.call C) c cs := by
  induction cs generalizing c with
  | nil => rw [run_nil, run_nil]
  | cons x cs ih =>
    rw [run_cons] at h
    rw [run_cons, run_cons]
    have hcall : CommittedItemsCache.call C c x = c.call C x := by
      apply call_fits
      intro e item hw
      by_contra hf
      exact h (by rw [(call_overruns hw hf).1]; rfl)
    rw [hcall]
    cases hx : c.call C x with
    | error e => simp only [bind, Except.bind]
    | ok c' =>
      rw [hx] at h
      exact ih c' h

/-- The region as it was, and a pool of `n` entries: both caches go through the same states, until
    `CommittedItems` exits for want of room. There `CommittedItemsCache` writes on over the next entry. -/
theorem cache_agrees (C : Codec) (m : Mem) (n : Nat) (cs : List CommittedItems.Call) :
    (run (CommittedItems.call C) (CommittedItemsCache.init m n) cs ≠ .error .exit →
      run (CommittedItemsCache.call C) (CommittedItemsCache.init m n) cs =
        run (CommittedItems.call C) (CommittedItemsCache.init m n) cs) ∧
    (run (CommittedItems.call C) (CommittedItemsCache.init m n) cs = .error .exit → ∃ pre x post c c' e item,
      cs = pre ++ x :: post ∧ run (CommittedItemsCache.call C) (CommittedItemsCache.init m n) pre = .ok c ∧
      CommittedItemsCache.call C c x = .ok c' ∧ CommittedItemsCache.writes c x = some (e, item) ∧
      ENTRY_SIZE ∣ e ∧ ENTRY_SIZE < (image C item).length ∧ slice c'.mem e (image C item).length = image C item) := by
  refine ⟨run_fits cs _, fun h => ?_⟩
  obtain ⟨pre, x, post, c, rfl, hpre, hx⟩ := run_error.mp h
  obtain ⟨e, item, hw, hf⟩ := exit_writes hx
  obtain ⟨-, c', hc', hm⟩ := call_overruns hw hf
  have hrun : run (CommittedItemsCache.call C) (CommittedItemsCache.init m n) pre = .ok c := by
    rw [run_fits pre _ (by rw [hpre]; simp), hpre]
  have h0 := CommittedItems.conserved_init n
  have hinit : CommittedItems.Conserved n (CommittedItemsCache.init m n) :=
    ⟨h0.all, h0.aligned, h0.nodup, h0.taken, h0.injective⟩
  have hc : CommittedItems.Conserved n c :=
    run_inv (CommittedItems.Conserved n) (fun _ _ _ hc h => (CommittedItems.call_cases h).conserved hc) hinit hpre
  refine ⟨pre, x, post, c, c', e, item, rfl, hrun, hc', hw, writes_aligned hc hw, ?_, ?_⟩
  · rw [length_image]
    simp only [Entry.Fits, ENTRY_SIZE] at hf ⊢
    omega
  · rw [hm, update_image, slice_write_self]

end RampRdma.Ycsb
