/-
  RampRdma.Net.Message — what the verbs transports put on the wire (`Communicator::send`,
  `Buffer::append`, and `send_msg` of `SendRecvSocket`, `RDMAWriteSocket` and
  `RDMAWriteImmSocket`).

  A message is a `MessageHeader`, a body and, for the RDMA Writes, an int that marks the
  end; it is put at the front of a cleared buffer of `PACKET_SIZE` bytes, all of which are
  posted. `send_msg_ok` / `send_msg_exit`: a message that fits leaves as its `image`; one
  that does not makes the sender exit in `Buffer::append`.
-/

import Mathlib
import RampRdma.Data
import RampRdma.Lib.Bytes
import RampRdma.Server.Entry

namespace RampRdma

open Bytes

/-! ## Headers -/

/-- The fields of a received header that the receiver looks at; a `MessageType` is an int. -/
structure RawHeader where
  req_type : Nat
  body_size : Nat
  deriving DecidableEq, Repr

/-- `read(header)`, from the bytes at `a`. -/
def RawHeader.read (m : Mem) (a : Nat) : RawHeader := ⟨load 4 m a, load 8 m (a + 8)⟩

structure Message where
  req_type : MessageType
  body : List UInt8
  deriving DecidableEq, Repr

namespace Message

/-- `MessageHeader(msg_type, sbuf.size())`. -/
def header (msg : Message) : MessageHeader := { req_type := msg.req_type, body_size := msg.body.length }

/-- What a receiver has to get. -/
def delivered (msg : Message) : RawHeader × List UInt8 := (⟨msg.req_type.code, msg.body.length⟩, msg.body)

end Message

/-! ## Buffer::append -/

/-- The buffer of `get_send_buf`, cleared; addresses are relative to it. -/
structure SendBuf where
  mem : Mem := fun _ => 0
  write_pos : Nat := 0

namespace SendBuf

def append (b : SendBuf) (src : List UInt8) : Except Fault SendBuf :=
  if room PACKET_SIZE b.write_pos < src.length then .error .exit
  else .ok ⟨write b.mem b.write_pos src, b.write_pos + src.length⟩

theorem append_ok (b : SendBuf) {src : List UInt8} (h : b.write_pos + src.length ≤ PACKET_SIZE) :
    b.append src = .ok ⟨write b.mem b.write_pos src, b.write_pos + src.length⟩ := by
  have : ¬ room PACKET_SIZE b.write_pos < src.length := by simp only [room, PACKET_SIZE] at *; omega
  rw [append, if_neg this]

theorem append_exit (b : SendBuf) {src : List UInt8} (h : b.write_pos ≤ PACKET_SIZE)
    (hl : PACKET_SIZE < b.write_pos + src.length) : b.append src = .error .exit := by
  have : room PACKET_SIZE b.write_pos < src.length := by simp only [room, PACKET_SIZE] at *; omega
  rw [append, if_pos this]

/-- `post_send`, `post_write`: all of the buffer. -/
def posted (b : SendBuf) : List UInt8 := slice b.mem 0 PACKET_SIZE

end SendBuf

/-! ## send_msg -/

/-- `SendRecvSocket::send_msg`, with no mark, and `RDMAWriteSocket::send_msg` and
    `RDMAWriteImmSocket::send_msg`, whose `mark` is `is_arrived`. -/
def send_msg (mark : List UInt8) (msg : Message) : Except Fault (List UInt8) := do
  let b ← ({} : SendBuf).append msg.header.bytes
  let b ← b.append msg.body
  let b ← b.append mark
  return b.posted

/-- `int is_arrived = 0xffffffff`. -/
def is_arrived : List UInt8 := le 4 0xffffffff

@[simp] theorem length_is_arrived : is_arrived.length = 4 := rfl

namespace SendRecvSocket

/-- `append(header).append(body, header.body_size)`. -/
def send_msg : Message → Except Fault (List UInt8) := RampRdma.send_msg []

end SendRecvSocket

namespace RDMAWriteSocket

def send_msg : Message → Except Fault (List UInt8) := RampRdma.send_msg is_arrived

end RDMAWriteSocket

namespace RDMAWriteImmSocket

def send_msg : Message → Except Fault (List UInt8) := RampRdma.send_msg is_arrived

end RDMAWriteImmSocket

/-- The packet of a message that fits. -/
def image (mark : List UInt8) (msg : Message) : List UInt8 :=
  msg.header.bytes ++ msg.body ++ mark ++ List.replicate (PACKET_SIZE - (24 + msg.body.length + mark.length)) 0

/-- Header, body and mark fit a packet. -/
def Fits (mark : List UInt8) (msg : Message) : Prop := 24 + msg.body.length + mark.length ≤ PACKET_SIZE

instance (mark : List UInt8) (msg : Message) : Decidable (Fits mark msg) := inferInstanceAs (Decidable (_ ≤ _))

variable {mark : List UInt8} {msg : Message}

theorem length_image (h : Fits mark msg) : (image mark msg).length = PACKET_SIZE := by
  simp only [Fits, PACKET_SIZE] at h
  simp only [image, List.length_append, MessageHeader.length_bytes, List.length_replicate, PACKET_SIZE]
  omega

theorem send_msg_ok (h : Fits mark msg) : send_msg mark msg = .ok (image mark msg) := by
  simp only [Fits, PACKET_SIZE] at h
  simp only [send_msg]
  rw [SendBuf.append_ok _ (by simp [PACKET_SIZE])]
  simp only [bind, Except.bind, MessageHeader.length_bytes, Nat.zero_add]
  rw [SendBuf.append_ok _ (by simp only [PACKET_SIZE]; omega)]
  simp only
  rw [SendBuf.append_ok _ (by simp only [PACKET_SIZE]; omega)]
  have hw : write (write (write (fun _ => 0) 0 msg.header.bytes) 24 msg.body) (24 + msg.body.length) mark =
      write (fun _ => 0) 0 (msg.header.bytes ++ msg.body ++ mark) := by
    simp only [write_append, List.length_append, MessageHeader.length_bytes, Nat.zero_add]
  simp only [SendBuf.posted, pure, Except.pure]
  rw [hw, slice_write_zero (by simp [PACKET_SIZE]; omega)]
  simp [image, Nat.add_assoc]

theorem send_msg_exit (h : ¬ Fits mark msg) : send_msg mark msg = .error .exit := by
  simp only [Fits, PACKET_SIZE] at h
  simp only [send_msg]
  rw [SendBuf.append_ok _ (by simp [PACKET_SIZE])]
  simp only [bind, Except.bind, MessageHeader.length_bytes, Nat.zero_add]
  by_cases hb : 24 + msg.body.length ≤ 2560
  · rw [SendBuf.append_ok _ (by simp only [PACKET_SIZE]; omega)]
    simp only
    rw [SendBuf.append_exit _ (by simp only [PACKET_SIZE]; omega) (by simp only [PACKET_SIZE]; omega)]
  · rw [SendBuf.append_exit _ (by simp [PACKET_SIZE]) (by simp only [PACKET_SIZE]; omega)]

/-! ## What a receiver finds -/

section
variable {m : Mem} {n : Nat}

theorem header_read {bs post : List UInt8} (h : Begins m bs n) (hb : bs = msg.header.bytes ++ post) (hn : 16 ≤ n)
    (hm : msg.body.length < 2 ^ 64) : RawHeader.read m 0 = msg.delivered.1 := by
  have hc : msg.req_type.code < 2 ^ 32 := by cases msg.req_type <;> decide
  have e : bs = le 4 msg.req_type.code ++ (le 4 0 ++ (le 8 msg.body.length ++ (le 4 0xffffffff ++ le 4 0 ++ post))) := by
    simp [hb, MessageHeader.bytes, Message.header]
  have h1 : load 4 m 0 = leNat (le 4 msg.req_type.code) := h.load (e.trans (List.nil_append _).symm) rfl (by simp) (by omega)
  have h2 : load 8 m 8 = leNat (le 8 msg.body.length) :=
    h.load (e.trans (List.append_assoc _ _ _).symm) (by simp) (by simp) (by omega)
  simp only [RawHeader.read, Nat.zero_add, h1, h2, leNat_le, Message.delivered, RawHeader.mk.injEq]
  omega

theorem image_eq (mark : List UInt8) (msg : Message) : image mark msg = msg.header.bytes ++ (msg.body ++
    (mark ++ List.replicate (PACKET_SIZE - (24 + msg.body.length + mark.length)) 0)) := by
  simp [image]

theorem body_read (h : Begins m (image mark msg) n) (hn : 24 + msg.body.length ≤ n) : slice m 24 msg.body.length = msg.body :=
  h.slice (image_eq mark msg) (by simp) hn

/-- `offsetof(MessageHeader, is_arrived)` is 16. -/
theorem arrived_read (h : Begins m (image mark msg) n) (hn : 20 ≤ n) : slice m 16 4 = le 4 0xffffffff := by
  have e : image mark msg = (le 4 msg.req_type.code ++ le 4 0 ++ le 8 msg.body.length) ++ (le 4 0xffffffff ++
      (le 4 0 ++ msg.body ++ mark ++ List.replicate (PACKET_SIZE - (24 + msg.body.length + mark.length)) 0)) := by
    simp [image, MessageHeader.bytes, Message.header]
  exact h.slice e (by simp) (by simpa using hn)

theorem mark_read (h : Begins m (image mark msg) n) (hn : 24 + msg.body.length + mark.length ≤ n) :
    slice m (24 + msg.body.length) mark.length = mark :=
  h.slice ((image_eq mark msg).trans (List.append_assoc _ _ _).symm) (by simp) hn

end

end RampRdma
