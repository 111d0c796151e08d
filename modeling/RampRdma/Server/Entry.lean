/-
  RampRdma.Server.Entry — one slot of the RDMA-readable cache, byte by byte: what the
  server writes (`Entry::update`, `Entry::invalidate`, `Buffer::update`) and what a client
  makes of a one-sided read of it (`RDMAWriteSocket::read`).

  A slot is `ENTRY_SIZE` bytes: an int flag, a `MessageHeader`, the packed item and an int
  that marks its end. `MessageHeader` has its x86-64 layout (`req_type`, padding,
  `body_size`, `is_arrived`, padding; 24 bytes); the padding, which nothing reads, is
  taken as zero.

  Two facts about a slot's bytes carry everything above this module: `Holds` (header,
  body and end mark of one item, whatever the flag) and `Blank` (nothing written but the
  flag).
  - `update_ok` / `update_exit`: an update of an item that fits leaves a valid slot that
    holds it and touches no other byte; of one that does not fit, it exits.
  - `read_valid` / `read_invalid` / `read_blank`: a one-sided read of a slot that holds an
    item returns it or -1 by the flag; of a blank slot it polls for ever.
-/

import Mathlib
import RampRdma.Data
import RampRdma.Lib.Bytes

namespace RampRdma

open Bytes

/-- What ends a call, or the whole process: `exit(EXIT_FAILURE)`, a dereferenced null
    pointer, a `std::out_of_range` nobody catches. -/
inductive Fault where
  | exit
  | null_deref
  | out_of_range
  deriving DecidableEq, Repr

/-! ## Buffer -/

structure Buffer where
  addr : Nat
  size : Nat

/-- `stop - pos` as the comparison with a `size_t` sees it: a signed difference made
    unsigned. -/
def room (stop pos : Nat) : Nat := (((stop : Int) - pos) % 2 ^ 64).toNat

def Buffer.update (b : Buffer) (m : Mem) (offset : Nat) (src : List UInt8) : Except Fault Mem :=
  if room (b.addr + b.size) (b.addr + offset) < src.length then .error .exit
  else .ok (write m (b.addr + offset) src)

theorem Buffer.update_ok (b : Buffer) (m : Mem) {offset : Nat} {src : List UInt8} (h : offset + src.length ≤ b.size)
    (hs : b.size < 2 ^ 64) : b.update m offset src = .ok (write m (b.addr + offset) src) := by
  have : ¬ room (b.addr + b.size) (b.addr + offset) < src.length := by simp only [room]; omega
  rw [Buffer.update, if_neg this]

theorem Buffer.update_exit (b : Buffer) (m : Mem) {offset : Nat} {src : List UInt8} (h : offset ≤ b.size)
    (hl : b.size < offset + src.length) (hs : b.size < 2 ^ 64) : b.update m offset src = .error .exit := by
  have : room (b.addr + b.size) (b.addr + offset) < src.length := by simp only [room]; omega
  rw [Buffer.update, if_pos this]

/-! ## MessageHeader -/

inductive MessageType where
  | PREPARE
  | COMMIT
  | PUT
  | GET
  | GET_WITH_ADDR
  | DONE
  | RESULT
  | RELEASE_LOCKS
  | CLOSE
  deriving DecidableEq, Repr

def MessageType.code : MessageType → Nat
  | .PREPARE => 0
  | .COMMIT => 1
  | .PUT => 2
  | .GET => 3
  | .GET_WITH_ADDR => 4
  | .DONE => 5
  | .RESULT => 6
  | .RELEASE_LOCKS => 7
  | .CLOSE => 8

structure MessageHeader where
  req_type : MessageType
  body_size : Nat
  is_arrived : Nat := 0xffffffff

def MessageHeader.bytes (h : MessageHeader) : List UInt8 :=
  le 4 h.req_type.code ++ (le 4 0 ++ (le 8 h.body_size ++ (le 4 h.is_arrived ++ le 4 0)))

@[simp] theorem MessageHeader.length_bytes (h : MessageHeader) : h.bytes.length = 24 := by
  simp [MessageHeader.bytes]

/-! ## Entry -/

abbrev ENTRY_SIZE : Nat := 2560

def IS_INVALID : Nat := 0xffffffff

def IS_ARRIVED : Nat := 0xffffffff

def IS_VALID : Nat := 0

namespace Entry

def buffer (e : Nat) : Buffer := ⟨e, ENTRY_SIZE⟩

/-- Its `Buffer::update` of the first word is always in bounds. -/
def invalidate (m : Mem) (e : Nat) : Mem := write m e (le 4 IS_INVALID)

theorem invalidate_eq (m : Mem) (e : Nat) : (buffer e).update m 0 (le 4 IS_INVALID) = .ok (invalidate m e) := by
  rw [Buffer.update_ok _ _ (by simp [buffer, ENTRY_SIZE]) (by simp [buffer, ENTRY_SIZE])]; rfl

variable (C : Codec)

def update (m : Mem) (e : Nat) (item : Item) : Except Fault Mem := do
  let sbuf := C.pack item
  let header : MessageHeader := { req_type := .RESULT, body_size := sbuf.length }
  let m ← (buffer e).update m 4 header.bytes
  let m ← (buffer e).update m (4 + 24) sbuf
  let m ← (buffer e).update m (4 + 24 + sbuf.length) (le 4 IS_ARRIVED)
  (buffer e).update m 0 (le 4 IS_VALID)

def flag (m : Mem) (e : Nat) : Nat := load 4 m e

/-- The encodings that leave room for flag, header and end mark. -/
def Fits (item : Item) : Prop := 4 + 24 + (C.pack item).length + 4 ≤ ENTRY_SIZE

instance (item : Item) : Decidable (Fits C item) := inferInstanceAs (Decidable (_ ≤ _))

theorem Fits.unpack {C : Codec} {item : Item} (h : Fits C item) : C.unpack (C.pack item) = some item := by
  simp only [Fits, ENTRY_SIZE] at h
  exact C.unpack_pack item (by simp only [PACKET_SIZE]; omega)

structure Holds (m : Mem) (e : Nat) (item : Item) : Prop where
  fits : Fits C item
  arrived : load 4 m (e + 20) ≠ 0
  size : load 8 m (e + 12) = (C.pack item).length
  body : slice m (e + 28) (C.pack item).length = C.pack item
  mark : load 4 m (e + 28 + (C.pack item).length) ≠ 0

def Blank (m : Mem) (e : Nat) : Prop := ∀ i, 4 ≤ i → i < ENTRY_SIZE → m (e + i) = 0

/-! ## What an update writes -/

/-- The bytes an update of an item that fits leaves behind. -/
def written (m : Mem) (e : Nat) (item : Item) : Mem :=
  let sbuf := C.pack item
  let header : MessageHeader := { req_type := .RESULT, body_size := sbuf.length }
  write (write (write (write m (e + 4) header.bytes) (e + 28) sbuf) (e + 28 + sbuf.length) (le 4 IS_ARRIVED))
    e (le 4 IS_VALID)

theorem update_ok {item : Item} (h : Fits C item) (m : Mem) (e : Nat) :
    update C m e item = .ok (written C m e item) := by
  simp only [Fits, ENTRY_SIZE] at h
  have hs : (buffer e).size = 2560 := rfl
  simp only [update]
  rw [Buffer.update_ok _ _ (by rw [hs]; simp) (by omega)]
  simp only [bind, Except.bind]
  rw [Buffer.update_ok _ _ (by omega) (by omega)]
  simp only
  rw [Buffer.update_ok _ _ (by rw [hs, length_le]; omega) (by omega)]
  simp only
  rw [Buffer.update_ok _ _ (by rw [hs, length_le]; omega) (by omega)]
  simp only [written, buffer, Nat.add_assoc, Nat.add_zero, Nat.reduceAdd]

theorem update_exit {item : Item} (h : ¬ Fits C item) (m : Mem) (e : Nat) :
    update C m e item = .error .exit := by
  simp only [Fits, ENTRY_SIZE] at h
  have hs : (buffer e).size = 2560 := rfl
  simp only [update]
  rw [Buffer.update_ok _ _ (by rw [hs]; simp) (by omega)]
  simp only [bind, Except.bind]
  by_cases hb : 4 + 24 + (C.pack item).length ≤ 2560
  · rw [Buffer.update_ok _ _ (by omega) (by omega)]
    simp only
    rw [Buffer.update_exit _ _ (by omega) (by rw [hs, length_le]; omega) (by omega)]
  · rw [Buffer.update_exit _ _ (by omega) (by omega) (by omega)]

theorem written_outside (m : Mem) (e : Nat) {item : Item} (h : Fits C item) {p : Nat}
    (hp : p < e ∨ e + ENTRY_SIZE ≤ p) : written C m e item p = m p := by
  simp only [Fits, ENTRY_SIZE] at h hp
  simp only [written]
  rw [write_outside _ _ _ (by simp; omega), write_outside _ _ _ (by simp; omega),
    write_outside _ _ _ (by omega), write_outside _ _ _ (by simp; omega)]

theorem written_flag (m : Mem) (e : Nat) (item : Item) : flag (written C m e item) e = IS_VALID := by
  simp only [flag, written]
  rw [load_write_self]
  rfl

theorem written_holds (m : Mem) (e : Nat) {item : Item} (h : Fits C item) : Holds C (written C m e item) e item := by
  have hf := h
  simp only [Fits, ENTRY_SIZE] at hf
  -- the header's fields, each stored after the ones before it
  have hh : ∀ (m : Mem) (h : MessageHeader), write m (e + 4) h.bytes =
      write (write (write (write (write m (e + 4) (le 4 h.req_type.code)) (e + 8) (le 4 0)) (e + 12) (le 8 h.body_size))
        (e + 20) (le 4 h.is_arrived)) (e + 24) (le 4 0) := by
    intro m h
    simp only [MessageHeader.bytes, write_append, length_le, Nat.add_assoc, Nat.reduceAdd]
  refine ⟨h, ?_, ?_, ?_, ?_⟩
  · simp only [written, hh]
    rw [load_write_disjoint _ _ _ (by simp), load_write_disjoint _ _ _ (by simp; omega),
      load_write_disjoint _ _ _ (by omega), load_write_disjoint _ _ _ (by simp), load_write_self]
    decide
  · simp only [written, hh]
    rw [load_write_disjoint _ _ _ (by simp), load_write_disjoint _ _ _ (by simp; omega),
      load_write_disjoint _ _ _ (by omega), load_write_disjoint _ _ _ (by simp), load_write_disjoint _ _ _ (by simp),
      load_write_self]
    omega
  · simp only [written]
    rw [slice_write_disjoint _ _ _ (by simp), slice_write_disjoint _ _ _ (by omega)]
    exact slice_write_self _ _ _
  · simp only [written]
    rw [load_write_disjoint _ _ _ (by simp; omega), load_write_self]
    decide

/-! ## Slots under later writes -/

/-- Only the flag word can differ. -/
theorem Holds.congr {m m' : Mem} {e : Nat} {item : Item} (h : Holds C m e item)
    (hm : ∀ i, 4 ≤ i → i < ENTRY_SIZE → m' (e + i) = m (e + i)) : Holds C m' e item := by
  obtain ⟨hf, ha, hs, hb, hk⟩ := h
  have hf' := hf
  simp only [Fits, ENTRY_SIZE] at hf' hm
  have sl : ∀ i n, 4 ≤ i → i + n ≤ 2560 → slice m' (e + i) n = slice m (e + i) n := by
    intro i n h1 h2
    apply slice_congr
    intro j hj
    rw [Nat.add_assoc]
    exact hm (i + j) (by omega) (by omega)
  refine ⟨hf, ?_, ?_, ?_, ?_⟩
  · rw [load_congr (sl 20 4 (by omega) (by omega))]
    exact ha
  · rw [load_congr (sl 12 8 (by omega) (by omega))]
    exact hs
  · rw [sl 28 _ (by omega) (by omega)]
    exact hb
  · rw [Nat.add_assoc] at hk ⊢
    rw [load_congr (sl (28 + (C.pack item).length) 4 (by omega) (by omega))]
    exact hk

theorem Blank.congr {m m' : Mem} {e : Nat} (h : Blank m e)
    (hm : ∀ i, 4 ≤ i → i < ENTRY_SIZE → m' (e + i) = m (e + i)) : Blank m' e :=
  fun i h1 h2 => (hm i h1 h2).trans (h i h1 h2)

theorem flag_congr {m m' : Mem} {e : Nat} (hm : ∀ i < 4, m' (e + i) = m (e + i)) : flag m' e = flag m e :=
  load_congr (slice_congr hm)

theorem invalidate_outside (m : Mem) (e : Nat) {p : Nat} (hp : p < e ∨ e + 4 ≤ p) : invalidate m e p = m p :=
  write_outside _ _ _ (by simpa using hp)

theorem invalidate_flag (m : Mem) (e : Nat) : flag (invalidate m e) e = IS_INVALID := by
  simp only [flag, invalidate]
  rw [load_write_self]
  rfl

/-- An item is told from any other, and from a blank slot, by the slot's bytes. -/
theorem Holds.unique {m : Mem} {e : Nat} {i j : Item} (hi : Holds C m e i) (hj : Holds C m e j) : i = j := by
  have hl : (C.pack i).length = (C.pack j).length := hi.size.symm.trans hj.size
  have hp : C.pack i = C.pack j := by rw [← hi.body, ← hj.body, hl]
  exact Option.some.inj (hi.fits.unpack.symm.trans ((congrArg C.unpack hp).trans hj.fits.unpack))

end Entry

/-! ## RDMAWriteSocket::read -/

/-- `while (true) { if (*is_arrived != 0) break; }`, `fuel` turns of it, on memory that
    does not change any more. -/
def poll : Nat → Mem → Nat → Option Unit
  | 0, _, _ => none
  | fuel + 1, m, is_arrived => if load 4 m is_arrived ≠ 0 then some () else poll fuel m is_arrived

theorem poll_zero {m : Mem} {a : Nat} (h : load 4 m a = 0) : ∀ fuel, poll fuel m a = none := by
  intro fuel
  induction fuel with
  | zero => rfl
  | succ f ih => rw [poll, if_neg (by simp [h]), ih]

theorem poll_arrived {m : Mem} {a : Nat} (h : load 4 m a ≠ 0) (fuel : Nat) : poll (fuel + 1) m a = some () := by
  rw [poll, if_pos h]

namespace RDMAWriteSocket

/-- `RDMAWriteSocket::read` once the slot's bytes are at address 0 of the local buffer: its
    return value and the item it stored; `none` while it still polls after `fuel` turns.
    Bytes that do not unpack give -1. Where msgpack finds them malformed it throws a
    `parse_error`, which `read` does not catch, and the process ends instead. -/
def read (C : Codec) (fuel : Nat) (read_buf : Mem) : Option (Int × Option Item) := do
  poll fuel read_buf (4 + 16)
  let is_invalid := load 4 read_buf 0
  let body_size := load 8 read_buf (4 + 8)
  if is_invalid ≠ 0 then return (-1, none)
  poll fuel read_buf (4 + 24 + body_size)
  match C.unpack (slice read_buf (4 + 24) body_size) with
  | some item => return (0, some item)
  | none => return (-1, none)

/-- What a one-sided read of the slot at `e` puts into the local buffer. -/
def contents (m : Mem) (e : Nat) : Mem := window m e ENTRY_SIZE

variable {C : Codec} {m : Mem} {e : Nat}

theorem load_contents {b n : Nat} (h : b + n ≤ ENTRY_SIZE) : load n (contents m e) b = load n m (e + b) :=
  load_congr (slice_window m e h)

theorem read_invalid {item : Item} (h : Entry.Holds C m e item) (hf : Entry.flag m e ≠ IS_VALID) (fuel : Nat) :
    read C (fuel + 1) (contents m e) = some (-1, none) := by
  have h1 : load 4 (contents m e) (4 + 16) ≠ 0 := by rw [load_contents (by decide)]; exact h.arrived
  have h2 : load 4 (contents m e) 0 ≠ 0 := by rw [load_contents (by decide)]; exact hf
  simp [read, poll_arrived h1, h2]

theorem read_valid {item : Item} (h : Entry.Holds C m e item) (hf : Entry.flag m e = IS_VALID) (fuel : Nat) :
    read C (fuel + 1) (contents m e) = some (0, some item) := by
  have hfit := h.fits
  simp only [Entry.Fits, ENTRY_SIZE] at hfit
  have h1 : load 4 (contents m e) (4 + 16) ≠ 0 := by rw [load_contents (by decide)]; exact h.arrived
  have h2 : load 4 (contents m e) 0 = 0 := by rw [load_contents (by decide)]; exact hf
  have h3 : load 8 (contents m e) (4 + 8) = (C.pack item).length := by rw [load_contents (by decide)]; exact h.size
  have h4 : load 4 (contents m e) (4 + 24 + (C.pack item).length) ≠ 0 := by
    rw [load_contents (by simp only [ENTRY_SIZE]; omega), ← Nat.add_assoc]; exact h.mark
  have h5 : C.unpack (slice (contents m e) (4 + 24) (C.pack item).length) = some item := by
    rw [contents, slice_window m e (by simp only [ENTRY_SIZE]; omega), h.body, h.fits.unpack]
  simp [read, poll_arrived h1, h2, h3, poll_arrived h4, h5]

theorem read_blank (h : Entry.Blank m e) (fuel : Nat) : read C fuel (contents m e) = none := by
  have h1 : load 4 (contents m e) (4 + 16) = 0 := by
    rw [load_contents (by decide)]
    refine load_zero 4 _ fun j hj => ?_
    rw [Nat.add_assoc]
    exact h (20 + j) (by omega) (by simp only [ENTRY_SIZE]; omega)
  simp [read, poll_zero h1]

end RDMAWriteSocket
end RampRdma
