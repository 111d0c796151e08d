/-
  RampRdma.Server.OneSided — a one-sided read of a cache slot while its server writes it.

  The server's calls on a slot are serialized by its mutex: `invalidate` is one write,
  `update` writes header, body, arrival int and flag in turn. A read is produced in packets,
  each the bytes of the next range of the slot as they are then; what has been produced
  lands in the client's buffer in the order of addresses, in pieces of any size, while
  `RDMAWriteSocket::read` polls the two arrival words and decodes the body.

  The flag is looked at once, at the lowest address. A read that found it valid goes on
  through whatever updates come.
  - `Untorn`: no update begins while a read that found the flag valid has bytes of the item
    still to fetch, and no read begins between the header and the arrival int of an update
    whose slot was left valid.
  - `no_torn_item`: in runs whose steps all meet it, a read that returns 0 has an item that
    was passed to an update.
  - `torn_item`: half a value of one version and half of the next.
-/

import Mathlib
import RampRdma.Lib.Machine
import RampRdma.Lib.Runs
import RampRdma.Server.Entry
import RampRdma.Wire

namespace RampRdma.OneSided

open Bytes Machine Runs

/-- Before which write of an update the server is. -/
inductive Server where
  | idle
  | body (item : Item)
  | arrived (item : Item)
  | valid (item : Item)
  deriving DecidableEq

/-- Where the client is in `read`. -/
inductive Reader where
  /-- Polling the arrival word of the header. -/
  | header
  /-- Polling the one behind the body. -/
  | body (body_size : Nat)
  /-- Before `unpack`. -/
  | decode (body_size : Nat)
  | done (r : Int) (item : Option Item)
  deriving DecidableEq

/-- Addresses are relative to the slot. -/
structure State where
  mem : Mem
  server : Server := .idle
  /-- The items passed to updates. -/
  updated : List Item
  /-- The bytes of the packets so far. -/
  produced : List UInt8 := []
  /-- How many of them are in the client's buffer. -/
  landed : Nat := 0
  reader : Reader := .header

inductive Act where
  | invalidate
  /-- The first write of an update. -/
  | update (item : Item)
  /-- The next write. -/
  | next
  /-- A packet of `k` bytes. -/
  | produce (k : Nat)
  | land (k : Nat)
  /-- The client finds what it polls for, or decodes. -/
  | read

variable (C : Codec)

def header (item : Item) : MessageHeader := { req_type := .RESULT, body_size := (C.pack item).length }

/-- A slot after its first update. -/
def init (item : Item) : State := { mem := Entry.written C (fun _ => 0) 0 item, updated := [item] }

/-- The next write of `Entry::update`. -/
def Server.write (m : Mem) : Server → Except Fault (Mem × Server)
  | .idle => .ok (m, .idle)
  | .body item => do
    let m ← (Entry.buffer 0).update m (4 + 24) (C.pack item)
    return (m, .arrived item)
  | .arrived item => do
    let m ← (Entry.buffer 0).update m (4 + 24 + (C.pack item).length) (le 4 IS_ARRIVED)
    return (m, .valid item)
  | .valid _ => do
    let m ← (Entry.buffer 0).update m 0 (le 4 IS_VALID)
    return (m, .idle)

namespace State

/-- The client's buffer, cleared before the read. -/
def read_buf (s : State) : Mem := fun a => if a < s.landed then s.produced.getD a 0 else 0

/-- As `RDMAWriteSocket.read`, a `parse_error` included. -/
def read (s : State) : Reader → Option State
  | .header =>
    if load 4 s.read_buf (4 + 16) ≠ 0 then
      if load 4 s.read_buf 0 ≠ 0 then some { s with reader := .done (-1) none }
      else some { s with reader := .body (load 8 s.read_buf (4 + 8)) }
    else none
  | .body body_size => if load 4 s.read_buf (4 + 24 + body_size) ≠ 0 then some { s with reader := .decode body_size } else none
  | .decode body_size =>
    match C.unpack (slice s.read_buf (4 + 24) body_size) with
    | some item => some { s with reader := .done 0 (some item) }
    | none => some { s with reader := .done (-1) none }
  | .done _ _ => none

end State

def step (s : State) : Act → Option State
  | .invalidate => if s.server = .idle then some { s with mem := Entry.invalidate s.mem 0 } else none
  | .update item =>
    if s.server = .idle then
      match (Entry.buffer 0).update s.mem 4 (header C item).bytes with
      | .ok m => some { s with mem := m, server := .body item, updated := s.updated ++ [item] }
      | .error _ => none
    else none
  | .next =>
    match s.server.write C s.mem with
    | .ok (m, server) => some { s with mem := m, server := server }
    | .error _ => none
  | .produce k =>
    if 0 < k ∧ s.produced.length + k ≤ ENTRY_SIZE then
      some { s with produced := s.produced ++ slice s.mem s.produced.length k }
    else none
  | .land k => if s.landed + k ≤ s.produced.length then some { s with landed := s.landed + k } else none
  | .read => s.read C s.reader

/-- The writes of an update, without a client, are `Entry::update`. -/
theorem update_alone {s : State} {item : Item} {m : Mem} (hs : s.server = .idle) (h : Entry.update C s.mem 0 item = .ok m) :
    exec (step C) (fun _ _ => True) s [.update item, .next, .next, .next] =
      some { s with mem := m, updated := s.updated ++ [item] } := by
  obtain ⟨m1, h1, h⟩ := bind_ok.mp h
  obtain ⟨m2, h2, h⟩ := bind_ok.mp h
  obtain ⟨m3, h3, h4⟩ := bind_ok.mp h
  have e1 : (Entry.buffer 0).update s.mem 4 (header C item).bytes = .ok m1 := h1
  simp [exec, step, hs, e1, Server.write, h2, h3, h4, bind, Except.bind, pure, Except.pure]

/-! ## The condition -/

/-- Header and body, or body and arrival int, may be of different updates. -/
def Server.midway : Server → Bool
  | .body _ => true
  | .arrived _ => true
  | _ => false

/-- A read has found the flag valid and not yet fetched all of the item that is in the slot. -/
def State.Open (s : State) : Prop :=
  0 < s.produced.length ∧ s.produced.getD 0 0 = 0 ∧ s.produced.length < 4 + 24 + load 8 s.mem (4 + 8) + 4

instance (s : State) : Decidable s.Open := inferInstanceAs (Decidable (_ ∧ _))

def Untorn (s : State) : Act → Prop
  | .update _ => ¬ s.Open
  | .produce _ => s.produced = [] → s.server.midway = true → Entry.flag s.mem 0 ≠ IS_VALID
  | _ => True

instance (s : State) : ∀ a, Decidable (Untorn s a)
  | .invalidate => inferInstanceAs (Decidable True)
  | .update _ => inferInstanceAs (Decidable (¬ _))
  | .next => inferInstanceAs (Decidable True)
  | .produce _ => inferInstanceAs (Decidable (_ → _))
  | .land _ => inferInstanceAs (Decidable True)
  | .read => inferInstanceAs (Decidable True)

/-! ## The slot -/

/-- Header, body and arrival int. -/
def content (item : Item) : List UInt8 := (header C item).bytes ++ (C.pack item ++ le 4 IS_ARRIVED)

@[simp] theorem length_content (item : Item) : (content C item).length = 28 + (C.pack item).length := by
  simp only [content, List.length_append, MessageHeader.length_bytes, length_le]
  omega

/-- Behind the flag there is an item. -/
structure Shows (m : Mem) (item : Item) : Prop where
  fits : Entry.Fits C item
  bytes : slice m 4 (28 + (C.pack item).length) = content C item

def ServerOk (m : Mem) (updated : List Item) : Server → Prop
  | .idle => ∃ item ∈ updated, Shows C m item
  | .body item => item ∈ updated ∧ slice m 4 24 = (header C item).bytes
  | .arrived item => item ∈ updated ∧ 4 + 24 + (C.pack item).length ≤ ENTRY_SIZE ∧
      slice m 4 (24 + (C.pack item).length) = (header C item).bytes ++ C.pack item
  | .valid item => item ∈ updated ∧ Shows C m item

variable {C} {m : Mem} {item : Item}

theorem Shows.byte (h : Shows C m item) {i : Nat} (hi : i < 28 + (C.pack item).length) : m (4 + i) = (content C item).getD i 0 := by
  rw [← h.bytes, getD_slice m 4 hi]

/-- A write of the flag. -/
theorem slice_flag (v n : Nat) : slice (write m 0 (le 4 v)) 4 n = slice m 4 n :=
  slice_write_disjoint m 0 _ (by simp)

theorem Shows.flag (h : Shows C m item) (v : Nat) : Shows C (write m 0 (le 4 v)) item :=
  ⟨h.fits, by rw [slice_flag, h.bytes]⟩

theorem update_bytes {b : Buffer} {m' : Mem} {offset : Nat} {src : List UInt8} (h : b.update m offset src = .ok m') :
    m' = write m (b.addr + offset) src := by
  unfold Buffer.update at h
  split at h <;> cases h
  rfl

theorem update_room {m' : Mem} {offset : Nat} {src : List UInt8} (hs : offset ≤ ENTRY_SIZE)
    (h : (Entry.buffer 0).update m offset src = .ok m') : offset + src.length ≤ ENTRY_SIZE := by
  by_contra hl
  rw [Buffer.update_exit (Entry.buffer 0) m hs (not_le.mp hl) (by decide)] at h
  cases h

/-- The flag word is never half written. -/
def FlagOk (m : Mem) : Prop := slice m 0 4 = le 4 IS_VALID ∨ slice m 0 4 = le 4 IS_INVALID

theorem flagOk_behind {a : Nat} {bs : List UInt8} (h : FlagOk m) (ha : 4 ≤ a) : FlagOk (write m a bs) := by
  unfold FlagOk
  rw [slice_write_disjoint m a bs (by omega)]
  exact h

theorem slice_word (m : Mem) (v : Nat) : slice (write m 0 (le 4 v)) 0 4 = le 4 v := by
  have := slice_write_self m 0 (le 4 v)
  rwa [length_le] at this

/-- An invalid flag shows in its first byte. -/
theorem FlagOk.first (h : FlagOk m) (hf : Entry.flag m 0 ≠ IS_VALID) : m 0 ≠ 0 := by
  have h0 : m 0 = (slice m 0 4).getD 0 0 := by rw [getD_slice m 0 (by omega), Nat.zero_add]
  rcases h with h | h
  · refine absurd ?_ hf
    rw [Entry.flag, load, h]
    rfl
  · rw [h0, h]
    decide

/-- What the next write of an update does. -/
theorem serverOk_write {server server' : Server} {m' : Mem} {updated : List Item} (hf : FlagOk m) (h : ServerOk C m updated server)
    (hw : server.write C m = .ok (m', server')) : FlagOk m' ∧ ServerOk C m' updated server' ∧
      (server.midway = false → server'.midway = false ∧ ∀ item, Shows C m item → Shows C m' item) := by
  cases server with
  | idle =>
    cases hw
    exact ⟨hf, h, fun _ => ⟨rfl, fun _ h => h⟩⟩
  | body item =>
    obtain ⟨m1, h1, hw⟩ := bind_ok.mp hw
    cases hw
    have hb := slice_write_behind m 4 24 (C.pack item)
    rw [h.2] at hb
    rw [update_bytes h1]
    refine ⟨flagOk_behind hf (by simp [Entry.buffer]), ⟨h.1, update_room (by decide) h1, ?_⟩, fun hm => by cases hm⟩
    simpa [Entry.buffer] using hb
  | arrived item =>
    obtain ⟨m1, h1, hw⟩ := bind_ok.mp hw
    cases hw
    have hb := slice_write_behind m 4 (24 + (C.pack item).length) (le 4 IS_ARRIVED)
    rw [h.2.2] at hb
    have hfit : Entry.Fits C item := by
      have := update_room h.2.1 h1
      rwa [length_le] at this
    rw [update_bytes h1]
    refine ⟨flagOk_behind hf (by simp [Entry.buffer]; omega), ⟨h.1, hfit, ?_⟩, fun hm => by cases hm⟩
    rw [length_le, List.append_assoc] at hb
    have e : 28 + (C.pack item).length = 24 + (C.pack item).length + 4 := by omega
    have ea : (Entry.buffer 0).addr + (4 + 24 + (C.pack item).length) = 4 + (24 + (C.pack item).length) := by
      simp only [Entry.buffer]
      omega
    rw [ea, e]
    exact hb
  | valid item =>
    obtain ⟨m1, h1, hw⟩ := bind_ok.mp hw
    cases hw
    rw [update_bytes h1]
    exact ⟨.inl (slice_word m _), ⟨item, h.1, h.2.flag _⟩, fun _ => ⟨rfl, fun _ h => h.flag _⟩⟩

/-! ## What a read has fetched -/

/-- Behind the flag, the bytes are those of `item` as far as they go. -/
def Copied (C : Codec) (item : Item) (produced : List UInt8) : Prop :=
  ∀ i < 28 + (C.pack item).length, 4 + i < produced.length → produced.getD (4 + i) 0 = (content C item).getD i 0

inductive ReadOk (C : Codec) (s : State) : Prop
  | fresh : s.produced = [] → ReadOk C s
  /-- It found the flag invalid. -/
  | invalid : 0 < s.produced.length → s.produced.getD 0 0 ≠ 0 → ReadOk C s
  /-- It has a part of `item`; the rest is still in the slot. -/
  | part (item : Item) : item ∈ s.updated → Entry.Fits C item → Copied C item s.produced →
      (s.produced.length < 32 + (C.pack item).length → Shows C s.mem item ∧ s.server.midway = false) → ReadOk C s

/-- The client has the header, and the flag was valid. -/
def Started (C : Codec) (produced : List UInt8) (landed body_size : Nat) : Prop :=
  20 < landed ∧ produced.getD 0 0 = 0 ∧
    ∀ item, Entry.Fits C item → Copied C item produced → body_size = (C.pack item).length

def ReaderOk (C : Codec) (s : State) : Reader → Prop
  | .header => True
  | .body body_size => Started C s.produced s.landed body_size
  | .decode body_size => Started C s.produced s.landed body_size ∧ 28 + body_size < s.landed
  | .done _ (some item) => item ∈ s.updated
  | .done _ none => True

structure Inv (C : Codec) (s : State) : Prop where
  flag : FlagOk s.mem
  server : ServerOk C s.mem s.updated s.server
  landed : s.landed ≤ s.produced.length
  read : ReadOk C s
  reader : ReaderOk C s s.reader

theorem Copied.of_append {produced more : List UInt8} (h : Copied C item (produced ++ more)) : Copied C item produced := by
  intro i hi hl
  rw [← h i hi (by rw [List.length_append]; omega), List.getD_append _ _ _ _ hl]

/-- A packet more of the slot. -/
theorem Copied.produce {produced : List UInt8} {k : Nat} (h : Copied C item produced)
    (hs : produced.length < 32 + (C.pack item).length → Shows C m item) : Copied C item (produced ++ slice m produced.length k) := by
  intro i hi hl
  rw [List.length_append, length_slice] at hl
  by_cases hp : 4 + i < produced.length
  · rw [List.getD_append _ _ _ _ hp, h i hi hp]
  · rw [List.getD_append_right _ _ _ _ (by omega), getD_slice m _ (by omega), Nat.add_sub_cancel' (by omega)]
    exact (hs (by omega)).byte hi

section
variable {s s' : State} {n : Nat}

theorem read_buf_zero {a : Nat} (h : s.landed ≤ a) : s.read_buf a = 0 := by
  rw [State.read_buf, if_neg (by omega)]

/-- A word of the client's buffer that is not zero has begun to land. -/
theorem landed_of_load {a : Nat} (h : load n s.read_buf a ≠ 0) : a < s.landed := by
  by_contra hl
  exact h (load_zero n a fun i _ => read_buf_zero (by omega))

/-- The client's buffer behind the flag. -/
theorem Copied.begins (h : Copied C item s.produced) (hl : s.landed ≤ s.produced.length) :
    Begins (window s.read_buf 4 (s.landed - 4)) (content C item) (min (s.landed - 4) (28 + (C.pack item).length)) := by
  intro i hi
  rw [window, if_pos (by omega), State.read_buf, if_pos (by omega)]
  exact h i (by omega) (by omega)

/-- The size in the header of `item`. -/
theorem body_size_of_begins {w : Mem} {l : Nat} (h : Begins w (content C item) l) (hl : 16 ≤ l) (hf : Entry.Fits C item) :
    load 8 w 8 = (C.pack item).length := by
  have e : content C item = (le 4 MessageType.RESULT.code ++ le 4 0) ++ (le 8 (C.pack item).length ++
      (le 4 0xffffffff ++ le 4 0 ++ (C.pack item ++ le 4 IS_ARRIVED))) := by
    simp [content, MessageHeader.bytes, header]
  rw [h.load e (by simp) (length_le 8 _) (by omega), leNat_le]
  simp only [Entry.Fits, ENTRY_SIZE] at hf
  omega

theorem Copied.body_size (h : Copied C item s.produced) (hf : Entry.Fits C item) (hl : s.landed ≤ s.produced.length)
    (h20 : 20 < s.landed) : load 8 s.read_buf (4 + 8) = (C.pack item).length := by
  rw [← body_size_of_begins (h.begins hl) (by omega) hf, load_congr (slice_window s.read_buf 4 (by omega))]

theorem Shows.body_size (h : Shows C m item) : load 8 m (4 + 8) = (C.pack item).length := by
  have hb : Begins (window m 4 (28 + (C.pack item).length)) (content C item) (28 + (C.pack item).length) := by
    intro i hi
    rw [window, if_pos hi, h.byte hi]
  rw [← body_size_of_begins hb (by omega) h.fits, load_congr (slice_window m 4 (by omega))]

theorem Copied.body (h : Copied C item s.produced) (hl : s.landed ≤ s.produced.length)
    (hn : 28 + (C.pack item).length < s.landed) : slice s.read_buf (4 + 24) (C.pack item).length = C.pack item := by
  have hb := h.begins hl
  have hw : slice (window s.read_buf 4 (s.landed - 4)) 24 (C.pack item).length = C.pack item :=
    hb.slice rfl (by simp) (by omega)
  rwa [slice_window s.read_buf 4 (by omega)] at hw

/-- Reads keep what they have while the slot does, or they have all of it. -/
theorem ReadOk.mono (h : ReadOk C s) (hp : s'.produced = s.produced) (hu : ∀ item ∈ s.updated, item ∈ s'.updated)
    (hs : ∀ item, 0 < s.produced.length → s.produced.getD 0 0 = 0 → s.produced.length < 32 + (C.pack item).length →
      Shows C s.mem item → s.server.midway = false → Shows C s'.mem item ∧ s'.server.midway = false) : ReadOk C s' := by
  cases h with
  | fresh h => exact .fresh (hp.trans h)
  | invalid h1 h2 => exact .invalid (hp ▸ h1) (hp ▸ h2)
  | part item hm hf hc hrest =>
    rcases List.eq_nil_or_concat s.produced with h0 | ⟨l, b, h0⟩
    · exact .fresh (hp.trans h0)
    · have h1 : 0 < s.produced.length := by
        rw [h0]
        simp
      by_cases h2 : s.produced.getD 0 0 = 0
      · refine .part item (hu item hm) hf (hp ▸ hc) fun hl => ?_
        rw [hp] at hl
        obtain ⟨h3, h4⟩ := hrest hl
        exact hs item h1 h2 hl h3 h4
      · exact .invalid (hp ▸ h1) (hp ▸ h2)

/-- A step that touches neither the slot nor what was fetched. -/
theorem ReadOk.same (h : ReadOk C s) (hp : s'.produced = s.produced) (hm : s'.mem = s.mem) (hs : s'.server = s.server)
    (hu : s'.updated = s.updated) : ReadOk C s' :=
  h.mono hp (fun _ h => hu ▸ h) fun _ _ _ _ h1 h2 => ⟨hm ▸ h1, hs ▸ h2⟩

/-- A step of the client. -/
theorem inv_read (hi : Inv C s) (h : s.read C s.reader = some s') : Inv C s' := by
  have hok := hi.reader
  cases hr : s.reader with
  | header =>
    rw [hr, State.read] at h
    split at h
    · rename_i hl
      have h20 := landed_of_load hl
      split at h
      · cases h
        exact ⟨hi.flag, hi.server, hi.landed, hi.read.same rfl rfl rfl rfl, trivial⟩
      · rename_i hf
        cases h
        refine ⟨hi.flag, hi.server, hi.landed, hi.read.same rfl rfl rfl rfl, by omega, ?_,
          fun item hfit hc => hc.body_size hfit hi.landed (by omega)⟩
        have h0 : s.read_buf 0 = 0 := first_of_load_zero (not_not.mp hf)
        rwa [State.read_buf, if_pos (by omega)] at h0
    · cases h
  | body body_size =>
    rw [hr] at hok h
    rw [State.read] at h
    split at h <;> cases h
    rename_i hl
    have := landed_of_load hl
    exact ⟨hi.flag, hi.server, hi.landed, hi.read.same rfl rfl rfl rfl, hok, by omega⟩
  | decode body_size =>
    rw [hr] at hok h
    obtain ⟨⟨h20, hf, hn⟩, hl⟩ := hok
    -- the flag was valid, so what was fetched is of one item
    cases hi.read with
    | fresh hp =>
      have := hi.landed
      rw [hp] at this
      simp at this
      omega
    | invalid _ hne => exact absurd hf hne
    | part item hm hfit hc _ =>
      obtain rfl := hn item hfit hc
      rw [State.read, hc.body hi.landed hl, hfit.unpack] at h
      cases h
      exact ⟨hi.flag, hi.server, hi.landed, hi.read.same rfl rfl rfl rfl, hm⟩
  | done r item =>
    rw [hr] at h
    cases h

/-- The client's stage when more is fetched or lands, or another update begins. -/
theorem ReaderOk.mono {r : Reader} (h : ReaderOk C s r) (hp : ∃ more, s'.produced = s.produced ++ more)
    (hl : s.landed ≤ s'.landed) (hs : s.landed ≤ s.produced.length) (hu : ∀ item ∈ s.updated, item ∈ s'.updated) :
    ReaderOk C s' r := by
  obtain ⟨more, hp⟩ := hp
  have hst : ∀ n, Started C s.produced s.landed n → Started C s'.produced s'.landed n := by
    rintro n ⟨h20, hf, hn⟩
    refine ⟨by omega, ?_, fun item hfit hc => hn item hfit (hp ▸ hc).of_append⟩
    rw [hp, List.getD_append _ _ _ _ (by omega)]
    exact hf
  cases r with
  | header => trivial
  | body n => exact hst n h
  | decode n => exact ⟨hst n h.1, by have := h.2; omega⟩
  | done r item =>
    cases item with
    | none => trivial
    | some item => exact hu item h

/-- What the slot holds when no update is half done. -/
theorem ServerOk.shows {server : Server} {updated : List Item} (h : ServerOk C m updated server) (hm : server.midway = false) :
    ∃ item ∈ updated, Shows C m item := by
  cases server with
  | idle => exact h
  | body item => cases hm
  | arrived item => cases hm
  | valid item => exact ⟨item, h.1, h.2⟩

/-- A packet. The first one finds the flag invalid, or an item behind it. -/
theorem ReadOk.produce (h : ReadOk C s) (hf : FlagOk s.mem) (hs : ServerOk C s.mem s.updated s.server) {k : Nat} (hk : 0 < k)
    (hu : s.produced = [] → s.server.midway = true → Entry.flag s.mem 0 ≠ IS_VALID) :
    ReadOk C { s with produced := s.produced ++ slice s.mem s.produced.length k } := by
  cases h with
  | fresh hp =>
    have hp' : s.produced ++ slice s.mem s.produced.length k = slice s.mem 0 k := by simp [hp]
    rw [hp']
    cases hm : s.server.midway with
    | true =>
      refine .invalid (by simpa using hk) ?_
      show (slice s.mem 0 k).getD 0 0 ≠ 0
      rw [getD_slice s.mem 0 hk, Nat.zero_add]
      exact hf.first (hu hp hm)
    | false =>
      obtain ⟨item, hi, hsh⟩ := hs.shows hm
      refine .part item hi hsh.fits ?_ fun _ => ⟨hsh, hm⟩
      have h0 : Copied C item [] := fun i _ hl => absurd hl (Nat.not_lt_zero _)
      exact h0.produce fun _ => hsh
  | invalid h1 h2 =>
    refine .invalid (by simp; omega) ?_
    show (s.produced ++ _).getD 0 0 ≠ 0
    rwa [List.getD_append _ _ _ _ h1]
  | part item hi hfit hc hrest =>
    refine .part item hi hfit (hc.produce fun hl => (hrest hl).1) fun hl => hrest ?_
    simp only [List.length_append] at hl
    omega

theorem inv_step {a : Act} (hi : Inv C s) (hu : Untorn s a) (h : step C s a = some s') : Inv C s' := by
  cases a with
  | invalidate =>
    simp only [step] at h
    split at h <;> cases h
    rename_i hidle
    have hs := hi.server
    rw [hidle] at hs
    obtain ⟨item, hm, hsh⟩ := hs
    refine ⟨.inr (slice_word _ _), ?_, hi.landed,
      hi.read.mono rfl (fun _ h => h) fun _ _ _ _ h1 h2 => ⟨h1.flag _, h2⟩, hi.reader⟩
    show ServerOk C _ s.updated s.server
    rw [hidle]
    exact ⟨item, hm, hsh.flag _⟩
  | update item =>
    simp only [step] at h
    split at h
    · rename_i hidle
      split at h <;> cases h
      rename_i m hm
      rw [update_bytes hm]
      refine ⟨flagOk_behind hi.flag (by simp [Entry.buffer]), ⟨by simp, ?_⟩, hi.landed,
        hi.read.mono rfl (fun _ h => by simp [h]) fun i h0 h1 h2 hsh _ => absurd ⟨h0, h1, ?_⟩ hu,
        hi.reader.mono ⟨[], by simp⟩ le_rfl hi.landed fun _ h => by simp [h]⟩
      · have := slice_write_self s.mem 4 (header C item).bytes
        rwa [MessageHeader.length_bytes] at this
      · rw [hsh.body_size]
        omega
    · cases h
  | next =>
    simp only [step] at h
    split at h <;> cases h
    rename_i m server hw
    obtain ⟨hf, hs, hsh⟩ := serverOk_write hi.flag hi.server hw
    exact ⟨hf, hs, hi.landed,
      hi.read.mono rfl (fun _ h => h) fun item _ _ _ h1 h2 => ⟨(hsh h2).2 item h1, (hsh h2).1⟩, hi.reader⟩
  | produce k =>
    simp only [step] at h
    split at h <;> cases h
    rename_i hk
    exact ⟨hi.flag, hi.server, by simp; have := hi.landed; omega, hi.read.produce hi.flag hi.server hk.1 hu,
      hi.reader.mono ⟨_, rfl⟩ le_rfl hi.landed fun _ h => h⟩
  | land k =>
    simp only [step] at h
    split at h <;> cases h
    rename_i hk
    exact ⟨hi.flag, hi.server, hk, hi.read.same rfl rfl rfl rfl,
      hi.reader.mono ⟨[], by simp⟩ (by simp) hi.landed fun _ h => h⟩
  | read => exact inv_read hi h

theorem inv_init (h : Entry.Fits C item) : Inv C (init C item) := by
  refine ⟨.inl (slice_word _ _), ⟨item, by simp [init], h, ?_⟩, le_rfl, .fresh rfl, trivial⟩
  have h1 := slice_write_self (fun _ => 0) 4 (header C item).bytes
  rw [MessageHeader.length_bytes] at h1
  have h2 := slice_write_behind (write (fun _ => 0) 4 (header C item).bytes) 4 24 (C.pack item)
  rw [h1] at h2
  have h3 := slice_write_behind (write (write (fun _ => 0) 4 (header C item).bytes) (4 + 24) (C.pack item)) 4
    (24 + (C.pack item).length) (le 4 IS_ARRIVED)
  rw [h2, length_le, List.append_assoc] at h3
  have em : (init C item).mem = write (write (write (write (fun _ => 0) 4 (header C item).bytes) (4 + 24) (C.pack item))
      (4 + (24 + (C.pack item).length)) (le 4 IS_ARRIVED)) 0 (le 4 IS_VALID) := by
    have e : 4 + (24 + (C.pack item).length) = 0 + 28 + (C.pack item).length := by omega
    rw [e]
    rfl
  have en : 28 + (C.pack item).length = 24 + (C.pack item).length + 4 := by omega
  rw [em, slice_flag, en, h3]
  rfl

end

/-- Where no update begins under a read that found the flag valid, and no such read begins inside
    an update, a read that returns 0 has read an item that was passed to an update. -/
theorem no_torn_item {s : State} (h0 : Entry.Fits C item) (h : Reach (step C) Untorn (init C item) s) {i : Item}
    (hd : s.reader = .done 0 (some i)) : i ∈ s.updated := by
  have hi : Inv C s := h.inv (Inv C) (inv_init h0) fun _ _ _ => inv_step
  have hok := hi.reader
  rw [hd] at hok
  exact hok

/-- Versions of "x" whose value has two bytes. -/
def version (b c : UInt8) (sec : Int64) : Item := { key := "x", values := .ofList [("f", [b, c])] compare, ts := ⟨sec, 0⟩ }

theorem decode_step {s : State} {i : Item} {n : Nat} (hd : s.reader = .decode n) (hs : slice s.read_buf (4 + 24) n = C.pack i)
    (hf : Entry.Fits C i) : step C s .read = some { s with reader := .done 0 (some i) } := by
  rw [step, hd, State.read, hs, hf.unpack]

/-- The slot is invalidated while it is read. -/
theorem no_torn_item_one : ∃ s, Reach (step Wire.msgpack) Untorn (init Wire.msgpack (version 1 1 1)) s ∧
    s.reader = .done 0 (some (version 1 1 1)) ∧ version 1 1 1 ∈ s.updated := by
  have hf : Entry.Fits Wire.msgpack (version 1 1 1) := by decide +kernel
  obtain ⟨s, hs, hp⟩ := reach_any (show (exec (step Wire.msgpack) Untorn (init Wire.msgpack (version 1 1 1))
      [.produce 37, .land 24, .read, .invalidate, .produce 2523, .land 2536, .read]).any (fun s : State =>
        decide (s.reader = .decode 14) && decide (slice s.read_buf (4 + 24) 14 = Wire.msgpack.pack (version 1 1 1))) = true by
    decide +kernel)
  simp only [Bool.and_eq_true, decide_eq_true_eq] at hp
  have hr := hs.tail (show Untorn s .read from trivial) (decode_step hp.1 hp.2 hf)
  exact ⟨_, hr, rfl, no_torn_item hf hr rfl⟩

/-- The first packet ends between the two bytes of the value; an invalidate and an update come
    before the second. -/
theorem torn_item : ∃ s, Reach (step Wire.msgpack) (fun _ _ => True) (init Wire.msgpack (version 1 1 1)) s ∧
    s.reader = .done 0 (some (version 1 2 2)) ∧ s.updated = [version 1 1 1, version 2 2 2] ∧
    version 1 2 2 ∉ s.updated := by
  obtain ⟨s, hs, hp⟩ := reach_any (show (exec (step Wire.msgpack) (fun _ _ => True) (init Wire.msgpack (version 1 1 1))
      [.produce 37, .invalidate, .update (version 2 2 2), .next, .next, .next, .produce 2523, .land 2560, .read,
        .read]).any (fun s : State => decide (s.reader = .decode 14) &&
          decide (slice s.read_buf (4 + 24) 14 = Wire.msgpack.pack (version 1 2 2)) &&
          decide (s.updated = [version 1 1 1, version 2 2 2])) = true by decide +kernel)
  simp only [Bool.and_eq_true, decide_eq_true_eq] at hp
  have hr := hs.tail trivial (decode_step hp.1.1 hp.1.2 (by decide +kernel))
  refine ⟨_, hr, rfl, hp.2, ?_⟩
  show version 1 2 2 ∉ s.updated
  rw [hp.2]
  decide +kernel

end RampRdma.OneSided
