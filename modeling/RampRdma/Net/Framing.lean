/-
  RampRdma.Net.Framing — messages over a `TCPSocket`: the receiver asks for 24 bytes and
  then for as many as the header says, each with one `read`.

  A `read` of a positive count returns at least one byte and at most the count, as the
  `Network` cuts the stream; `TCPSocket::recv` takes what it gets for the whole.
  - `received_full`: while reads return what is asked for, the messages come out as sent.
  - `framing_iff`: they do for every sequence of messages exactly on the networks that
    never return less.
-/

import Mathlib
import RampRdma.Net.Message

namespace RampRdma

open Bytes

/-- How many bytes the `i`-th `read` of a connection returns when asked for `count`. -/
structure Network where
  got : Nat → Nat → Nat
  pos : ∀ i count, 0 < count → 0 < got i count
  le : ∀ i count, got i count ≤ count

namespace TCPSocket

/-- `send(&header)`, `send(body, header.body_size)`. -/
def send_msg (msg : Message) : List UInt8 := msg.header.bytes ++ msg.body

variable (N : Network)

/-- `read(sock, buf, count)`: what it returns, and what remains; `none` while there is
    nothing to return. -/
def recv (i count : Nat) (stream : List UInt8) : Option (List UInt8 × List UInt8) :=
  if 0 < count ∧ stream = [] then none else some (stream.take (N.got i count), stream.drop (N.got i count))

/-- `MessageHeader header; recv_header(&header)`; `stack` is what `header` held before. -/
def recv_header (stack : Mem) (i : Nat) (stream : List UInt8) : Option (RawHeader × List UInt8) := do
  let (bytes, rest) ← recv N i 24 stream
  return (RawHeader.read (write stack 0 bytes) 0, rest)

/-- The body that `recv_body` copies out of the cleared `msg_buf`; `none` also where `read`
    is given more than `msg_buf` has room for. -/
def recv_body (i body_size : Nat) (stream : List UInt8) : Option (List UInt8 × List UInt8) :=
  if PACKET_SIZE < body_size then none else do
    let (bytes, rest) ← recv N i body_size stream
    return (slice (write (fun _ => 0) 0 bytes) 0 body_size, rest)

variable (stack : Nat → Mem)

/-- `recv`, `k` times, from the `i`-th on: two `read`s each. -/
def received : Nat → Nat → List UInt8 → List (RawHeader × List UInt8)
  | 0, _, _ => []
  | k + 1, i, stream =>
    match recv_header N (stack i) (2 * i) stream with
    | none => []
    | some (header, rest) =>
      match recv_body N (2 * i + 1) header.body_size rest with
      | none => []
      | some (body, rest) => (header, body) :: received k (i + 1) rest

/-- Bodies that `msg_buf` has room for. -/
def Sendable (msgs : List Message) : Prop := ∀ msg ∈ msgs, msg.body.length ≤ PACKET_SIZE

/-- No read of the `i`-th message is short. -/
def FullAt (i : Nat) : Prop := N.got (2 * i) 24 = 24 ∧ ∀ n ≤ PACKET_SIZE, N.got (2 * i + 1) n = n

variable {N stack}

theorem recv_full {i : Nat} (bs rest : List UInt8) (h : N.got i bs.length = bs.length) :
    recv N i bs.length (bs ++ rest) = some (bs, rest) := by
  have hne : ¬ (0 < bs.length ∧ bs ++ rest = []) := by
    intro ⟨h0, e⟩
    rw [List.append_eq_nil_iff] at e
    rw [e.1] at h0
    exact absurd h0 (by simp)
  rw [recv, if_neg hne, h, List.take_left, List.drop_left]

theorem recv_header_full {i : Nat} {msg : Message} {m : Mem} {rest : List UInt8} (hm : msg.body.length ≤ PACKET_SIZE)
    (h : N.got i 24 = 24) : recv_header N m i (msg.header.bytes ++ rest) = some (msg.delivered.1, rest) := by
  have hr := recv_full (N := N) (i := i) msg.header.bytes rest (by simpa using h)
  rw [MessageHeader.length_bytes] at hr
  have hb : Begins (write m 0 msg.header.bytes) msg.header.bytes 24 := by
    intro j hj
    have hw := write_inside m 0 msg.header.bytes (i := j) (by simpa using hj)
    rw [Nat.zero_add] at hw
    rw [hw, List.getD_eq_getElem]
  simp only [PACKET_SIZE] at hm
  rw [recv_header, hr]
  show some (RawHeader.read (write m 0 msg.header.bytes) 0, rest) = _
  rw [header_read hb (List.append_nil _).symm (by omega) (by omega)]

theorem recv_body_full {i : Nat} (body rest : List UInt8) (hm : body.length ≤ PACKET_SIZE)
    (h : N.got i body.length = body.length) : recv_body N i body.length (body ++ rest) = some (body, rest) := by
  rw [recv_body, if_neg (by omega), recv_full body rest h]
  show some (slice (write _ 0 body) 0 body.length, rest) = _
  rw [slice_write_self]

theorem recv_body_length {i body_size : Nat} {stream body rest : List UInt8}
    (h : recv_body N i body_size stream = some (body, rest)) : body_size = body.length := by
  unfold recv_body at h
  split at h
  · cases h
  · obtain ⟨r, -, hr⟩ := Option.bind_eq_some_iff.mp h
    cases hr
    rw [length_slice]

theorem received_full (stack : Nat → Mem) {msgs : List Message} (hs : Sendable msgs) (k : Nat) {i : Nat} (rest : List UInt8)
    (h : ∀ j < msgs.length, FullAt N (i + j)) :
    received N stack (msgs.length + k) i (msgs.flatMap send_msg ++ rest) =
      msgs.map Message.delivered ++ received N stack k (i + msgs.length) rest := by
  induction msgs generalizing i with
  | nil => simp
  | cons msg msgs ih =>
    obtain ⟨h0, hb⟩ : FullAt N i := h 0 (by simp)
    have hm : msg.body.length ≤ PACKET_SIZE := hs msg List.mem_cons_self
    have ih := ih (fun m hm => hs m (List.mem_cons_of_mem _ hm)) (i := i + 1) fun j hj => by
      rw [Nat.add_assoc, Nat.add_comm 1]
      exact h (j + 1) (by simpa using hj)
    have e : (msg :: msgs).length + k = msgs.length + k + 1 := by simp; omega
    have es : (msg :: msgs).flatMap send_msg ++ rest = msg.header.bytes ++ (msg.body ++ (msgs.flatMap send_msg ++ rest)) := by
      simp [send_msg]
    rw [e, es, received, recv_header_full hm h0]
    show (match recv_body N (2 * i + 1) msg.body.length _ with
      | none => []
      | some (body, rest) => (msg.delivered.1, body) :: received N stack _ (i + 1) rest) = _
    rw [recv_body_full _ _ hm (hb _ hm)]
    show _ :: received N stack _ (i + 1) _ = _
    rw [ih, Nat.add_assoc, Nat.add_comm 1]
    rfl

/-! ## Short reads -/

/-- A body of bytes that no header has. -/
def odd (n : Nat) : Message := ⟨.GET, List.replicate n 0xaa⟩

theorem odd_header : ∀ r < 24, ((odd 1).header.bytes.drop r).head? ≠ some 0xaa := by decide

/-- The messages before the `i`-th came out right; so the `i`-th does when they all do. -/
theorem received_last {i : Nat} (hf : ∀ j < i, FullAt N j) {msg : Message} (hm : msg.body.length ≤ PACKET_SIZE)
    (h : ∀ msgs : List Message, Sendable msgs →
      received N stack msgs.length 0 (msgs.flatMap send_msg) = msgs.map Message.delivered) :
    received N stack 1 i (send_msg msg) = [msg.delivered] := by
  have hs : Sendable (List.replicate i (odd 0)) := by
    intro m hmem
    rw [List.eq_of_mem_replicate hmem]
    exact Nat.zero_le _
  have h1 := h (List.replicate i (odd 0) ++ [msg]) fun m hmem => by
    rcases List.mem_append.mp hmem with hmem | hmem
    · exact hs m hmem
    · rw [List.mem_singleton.mp hmem]
      exact hm
  have h2 := received_full (N := N) (i := 0) stack hs 1 (send_msg msg) fun j hj => by
    rw [Nat.zero_add]
    exact hf j (by simpa using hj)
  rw [List.length_append, List.flatMap_append, List.map_append] at h1
  have e : [msg].flatMap send_msg = send_msg msg := by simp
  rw [List.length_singleton, e, h2] at h1
  have h3 := List.append_cancel_left h1
  simpa using h3

/-- One message received is one header and one body. -/
theorem received_one {i : Nat} {stream : List UInt8} {header : RawHeader} {body : List UInt8}
    (h : received N stack 1 i stream = [(header, body)]) :
    ∃ rest rest', recv_header N (stack i) (2 * i) stream = some (header, rest) ∧
      recv_body N (2 * i + 1) header.body_size rest = some (body, rest') := by
  unfold received at h
  split at h
  · cases h
  · rename_i hh
    split at h
    · cases h
    · rename_i hb
      cases h
      exact ⟨_, _, hh, hb⟩

theorem header_full {i : Nat} (h : received N stack 1 i (send_msg (odd 1)) = [(odd 1).delivered]) : N.got (2 * i) 24 = 24 := by
  by_contra hne
  have hr : N.got (2 * i) 24 < 24 := lt_of_le_of_ne (N.le _ _) hne
  obtain ⟨rest, rest', hh, hb⟩ := received_one h
  -- the body starts in the middle of the header
  have e : recv_header N (stack i) (2 * i) (send_msg (odd 1)) =
      some (_, ((odd 1).header.bytes ++ (odd 1).body).drop (N.got (2 * i) 24)) := rfl
  obtain rfl : rest = _ := congrArg Prod.snd (Option.some.inj (hh.symm.trans e))
  rw [List.drop_append_of_le_length (by simp; omega)] at hb
  have hne : (odd 1).header.bytes.drop (N.got (2 * i) 24) ≠ [] := by
    intro e
    have := congrArg List.length e
    simp at this
    omega
  obtain ⟨x, xs, hx⟩ := List.exists_cons_of_ne_nil hne
  have hodd := odd_header _ hr
  rw [hx] at hb hodd
  have h1 : N.got (2 * i + 1) 1 = 1 := le_antisymm (N.le _ _) (N.pos _ _ (by decide))
  have hb1 : recv_body N (2 * i + 1) 1 (x :: xs ++ (odd 1).body) = some ([x], xs ++ (odd 1).body) :=
    recv_body_full [x] (xs ++ (odd 1).body) (by simp [PACKET_SIZE]) h1
  have hb : recv_body N (2 * i + 1) 1 (x :: xs ++ (odd 1).body) = some ([0xaa], rest') := hb
  rw [hb1] at hb
  cases hb
  exact hodd rfl

theorem body_full {i n : Nat} (h0 : N.got (2 * i) 24 = 24) (hn : n ≤ PACKET_SIZE)
    (h : received N stack 1 i (send_msg (odd n)) = [(odd n).delivered]) : N.got (2 * i + 1) n = n := by
  by_contra hne
  have hr : N.got (2 * i + 1) n < n := lt_of_le_of_ne (N.le _ _) hne
  have hl : (odd n).body.length = n := by simp [odd]
  obtain ⟨rest, rest', hh, hb⟩ := received_one h
  rw [send_msg, recv_header_full (by rw [hl]; exact hn) h0] at hh
  cases hh
  have hb : recv_body N (2 * i + 1) (odd n).body.length (odd n).body = some ((odd n).body, rest') := hb
  rw [hl] at hb
  -- the bytes that did not come are zero
  have hne : ¬ (0 < n ∧ (odd n).body = []) := by
    intro ⟨h0, e⟩
    rw [e] at hl
    simp at hl
    omega
  rw [recv_body, if_neg (by omega), recv, if_neg hne] at hb
  have hs : slice (write (fun _ => 0) 0 ((odd n).body.take (N.got (2 * i + 1) n))) 0 n = (odd n).body :=
    congrArg Prod.fst (Option.some.inj hb)
  rw [slice_write_zero (by simp; omega)] at hs
  have hx := congrArg (·[N.got (2 * i + 1) n]?) hs
  simp [odd, hr, hr.le] at hx

/-- Every sequence of messages comes out as sent on exactly the networks without short
    reads. -/
theorem framing_iff (N : Network) (stack : Nat → Mem) :
    (∀ msgs : List Message, Sendable msgs →
      received N stack msgs.length 0 (msgs.flatMap send_msg) = msgs.map Message.delivered) ↔
      ∀ i, FullAt N i := by
  constructor
  · intro h i
    induction i using Nat.strong_induction_on with
    | _ i ih =>
      have h0 := header_full (received_last ih (by decide) h)
      exact ⟨h0, fun n hn => body_full h0 hn (received_last ih (by simpa [odd] using hn) h)⟩
  · intro h msgs hs
    have hr := received_full (i := 0) stack hs 0 [] fun j _ => h (0 + j)
    simpa [received] using hr

/-- Returns one byte of a body at a time. -/
def bytewise : Network where
  got _ count := if count = 24 then 24 else min 1 count
  pos _ count h := by split <;> omega
  le _ count := by split <;> omega

/-- The second byte of the body has not come, and counts as read. -/
theorem short_body : ¬ ∀ (N : Network) (stack : Nat → Mem) (msgs : List Message), Sendable msgs →
    received N stack msgs.length 0 (msgs.flatMap send_msg) = msgs.map Message.delivered := by
  intro h
  have hs := h bytewise (fun _ _ => 0) [⟨.PUT, [1, 2]⟩] (by simp [Sendable, PACKET_SIZE])
  revert hs
  decide

end TCPSocket

end RampRdma
