/-
  RampRdma.Net.Sizes — which messages the four sockets take, and what their receivers do
  with them once every byte has come.

  Each receiver has a buffer of `PACKET_SIZE` bytes: `msg_buf`, the posted receive buffer
  or `write_buf`. The verbs sockets fill a send buffer of that size first, so that what
  leaves fits; `TCPSocket::send_msg` writes a body of any size, and `get_body` reads it into
  `msg_buf` as it is.
  - `fits_iff`: a message is refused by its sender or delivered inside the receive buffer,
    unless it goes over TCP with a body larger than that.
-/

import Mathlib
import RampRdma.Net.Framing

namespace RampRdma

open Bytes

inductive Socket where
  | TCPSocket
  | SendRecvSocket
  | RDMAWriteSocket
  | RDMAWriteImmSocket
  deriving DecidableEq, Repr

namespace Socket

def send_msg : Socket → Message → Except Fault (List UInt8)
  | .TCPSocket, msg => .ok (TCPSocket.send_msg msg)
  | .SendRecvSocket, msg => SendRecvSocket.send_msg msg
  | .RDMAWriteSocket, msg => RDMAWriteSocket.send_msg msg
  | .RDMAWriteImmSocket, msg => RDMAWriteImmSocket.send_msg msg

/-- Where the bytes of the receive buffer end that `get_body(body_size)` and the copy of the
    body touch. -/
def touched : Socket → Nat → Nat
  | .TCPSocket, body_size => body_size
  | .SendRecvSocket, body_size => 24 + body_size
  | .RDMAWriteSocket, body_size => 24 + body_size + 4
  | .RDMAWriteImmSocket, body_size => 24 + body_size

/-- A network on which no read is short. -/
def whole : Network := ⟨fun _ count => count, fun _ _ h => h, fun _ _ => le_rfl⟩

/-- `SendRecvSocket::recv_header` in the receive buffer, of the size that has come. -/
def recv_header (recv_buf : Mem) (byte_len : Nat) : Option RawHeader :=
  if room byte_len 0 < 24 then none else some (.read recv_buf 0)

/-- `recv_header` and `recv_body` of what has come; `none` while they poll, after `fuel`
    turns, and where they run out of a buffer. -/
def recv (fuel : Nat) : Socket → List UInt8 → Option (RawHeader × List UInt8)
  | .TCPSocket, stream => do
    let (header, rest) ← TCPSocket.recv_header whole (fun _ => 0) 0 stream
    let (body, _) ← TCPSocket.recv_body whole 1 header.body_size rest
    return (header, body)
  | .SendRecvSocket, packet => do
    let recv_buf := write (fun _ => 0) 0 packet
    let header ← recv_header recv_buf packet.length
    return (header, slice recv_buf 24 header.body_size)
  | .RDMAWriteSocket, packet => do
    let write_buf := write (fun _ => 0) 0 packet
    poll fuel write_buf 16
    let header := RawHeader.read write_buf 0
    poll fuel write_buf (24 + header.body_size)
    return (header, slice write_buf 24 header.body_size)
  | .RDMAWriteImmSocket, packet => do
    let write_buf := write (fun _ => 0) 0 packet
    let header := RawHeader.read write_buf 0
    return (header, slice write_buf 24 header.body_size)

/-- Refused by the sender, or delivered unchanged from inside the receive buffer. -/
def Carried (sock : Socket) (msg : Message) : Prop :=
  match sock.send_msg msg with
  | .error _ => True
  | .ok bytes => ∀ fuel, ∃ header, sock.recv (fuel + 1) bytes = some (header, msg.body) ∧
      sock.touched header.body_size ≤ PACKET_SIZE

/-! ## Packets -/

section
variable {mark : List UInt8} {msg : Message}

theorem begins_packet (bs : List UInt8) : Begins (write (fun _ => 0) 0 bs) bs bs.length := by
  intro i hi
  have hw := write_inside (fun _ => 0) 0 bs hi
  rw [Nat.zero_add] at hw
  rw [hw, List.getD_eq_getElem]

theorem packet_header (h : Fits mark msg) :
    RawHeader.read (write (fun _ => 0) 0 (image mark msg)) 0 = ⟨msg.req_type.code, msg.body.length⟩ := by
  have hb := begins_packet (image mark msg)
  rw [length_image h] at hb
  simp only [Fits, PACKET_SIZE] at h
  exact header_read hb (image_eq mark msg) (by simp [PACKET_SIZE]) (by omega)

theorem packet_body (h : Fits mark msg) :
    slice (write (fun _ => 0) 0 (image mark msg)) 24 msg.body.length = msg.body := by
  have hb := begins_packet (image mark msg)
  rw [length_image h] at hb
  exact body_read hb (by simp only [Fits] at h; omega)

/-- Both words that the receiver of an RDMA Write polls. -/
theorem packet_arrived (h : Fits is_arrived msg) :
    load 4 (write (fun _ => 0) 0 (image is_arrived msg)) 16 ≠ 0 ∧
    load 4 (write (fun _ => 0) 0 (image is_arrived msg)) (24 + msg.body.length) ≠ 0 := by
  have hb := begins_packet (image is_arrived msg)
  rw [length_image h] at hb
  have h1 := arrived_read hb (by simp [PACKET_SIZE])
  have h2 := mark_read hb (by simpa [Fits] using h)
  refine ⟨by rw [load, h1]; decide, ?_⟩
  rw [length_is_arrived] at h2
  rw [load, h2]
  decide

end

/-! ## Who refuses, who delivers -/

theorem recv_tcp (fuel : Nat) (stream : List UInt8) :
    recv fuel .TCPSocket stream = (TCPSocket.recv_header whole (fun _ => 0) 0 stream).bind fun r =>
      (TCPSocket.recv_body whole 1 r.1.body_size r.2).bind fun b => some (r.1, b.1) := rfl

theorem recv_write (fuel : Nat) (packet : List UInt8) :
    recv fuel .RDMAWriteSocket packet = (poll fuel (write (fun _ => 0) 0 packet) 16).bind fun _ =>
      (poll fuel (write (fun _ => 0) 0 packet) (24 + (RawHeader.read (write (fun _ => 0) 0 packet) 0).body_size)).bind fun _ =>
        some (.read (write (fun _ => 0) 0 packet) 0,
          slice (write (fun _ => 0) 0 packet) 24 (RawHeader.read (write (fun _ => 0) 0 packet) 0).body_size) := rfl

theorem carried_tcp {msg : Message} : Carried .TCPSocket msg ↔ msg.body.length ≤ PACKET_SIZE := by
  constructor
  · intro h
    obtain ⟨header, hr, ht⟩ := h 0
    rw [recv_tcp, Option.bind_eq_some_iff] at hr
    obtain ⟨⟨header', rest⟩, -, hr⟩ := hr
    obtain ⟨⟨body, rest'⟩, hb, hr⟩ := Option.bind_eq_some_iff.mp hr
    obtain ⟨rfl, rfl⟩ := Prod.mk.inj (Option.some.inj hr)
    -- what is received has the size in the header, and `msg_buf` has room for it
    have ht : header'.body_size ≤ PACKET_SIZE := ht
    rw [← TCPSocket.recv_body_length hb]
    exact ht
  · intro h fuel
    refine ⟨msg.delivered.1, ?_, h⟩
    have hh : TCPSocket.recv_header whole (fun _ => 0) 0 (msg.header.bytes ++ msg.body) = some (msg.delivered.1, msg.body) :=
      TCPSocket.recv_header_full h rfl
    have hb := TCPSocket.recv_body_full (N := whole) (i := 1) msg.body [] h rfl
    rw [List.append_nil] at hb
    rw [recv_tcp, TCPSocket.send_msg, hh]
    show ((TCPSocket.recv_body whole 1 msg.body.length msg.body).bind fun b => some (msg.delivered.1, b.1)) = _
    rw [hb]
    rfl

/-- A verbs socket sends what fits its buffer. -/
theorem carried_verbs {sock : Socket} (mark : List UInt8) {msg : Message}
    (hs : sock.send_msg msg = RampRdma.send_msg mark msg)
    (hr : Fits mark msg → ∀ fuel, ∃ header, sock.recv (fuel + 1) (image mark msg) = some (header, msg.body) ∧
      sock.touched header.body_size ≤ PACKET_SIZE) : Carried sock msg := by
  unfold Carried
  rw [hs]
  by_cases h : Fits mark msg
  · rw [send_msg_ok h]
    exact hr h
  · rw [send_msg_exit h]
    trivial

theorem fits_iff (sock : Socket) (msg : Message) :
    Carried sock msg ↔ (sock = .TCPSocket → msg.body.length ≤ PACKET_SIZE) := by
  cases sock with
  | TCPSocket => simp [carried_tcp]
  | SendRecvSocket =>
    refine iff_of_true (carried_verbs [] rfl fun h fuel => ⟨msg.delivered.1, ?_, ?_⟩) (fun e => by cases e)
    · have hr : ¬ room (image [] msg).length 0 < 24 := by rw [length_image h]; decide
      have hh : recv_header (write (fun _ => 0) 0 (image [] msg)) (image [] msg).length =
          some ⟨msg.req_type.code, msg.body.length⟩ := by
        rw [recv_header, if_neg hr, packet_header h]
      simp only [recv, hh]
      exact congrArg (fun body => some (msg.delivered.1, body)) (packet_body h)
    · simp only [Fits, List.length_nil] at h
      exact h
  | RDMAWriteSocket =>
    refine iff_of_true (carried_verbs is_arrived rfl fun h fuel => ⟨msg.delivered.1, ?_, ?_⟩) (fun e => by cases e)
    · obtain ⟨h1, h2⟩ := packet_arrived h
      rw [recv_write, packet_header h, poll_arrived h1, poll_arrived h2, packet_body h]
      rfl
    · simp only [Fits, length_is_arrived] at h
      exact h
  | RDMAWriteImmSocket =>
    refine iff_of_true (carried_verbs is_arrived rfl fun h fuel => ⟨msg.delivered.1, ?_, ?_⟩) (fun e => by cases e)
    · simp only [recv, packet_header h, packet_body h]
      rfl
    · simp only [Fits, length_is_arrived] at h
      show 24 + msg.body.length ≤ PACKET_SIZE
      omega

/-- One byte more than `msg_buf` has room for. -/
theorem oversized : ¬ ∀ (sock : Socket) (msg : Message), Carried sock msg := by
  intro h
  have hl : (List.replicate 2561 (0 : UInt8)).length ≤ PACKET_SIZE := carried_tcp.mp (h .TCPSocket ⟨.PUT, _⟩)
  rw [List.length_replicate] at hl
  exact absurd hl (by decide)

end Socket

end RampRdma
