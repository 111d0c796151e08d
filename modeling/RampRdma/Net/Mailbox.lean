/-
  RampRdma.Net.Mailbox — messages over `RDMAWriteSocket`: each side's `write_buf`, into which
  the other side's packets are written while it polls two words of it.

  A posted packet lands byte by byte in the order of addresses, in pieces of any size; the
  receiver reads the header once its `is_arrived` is not zero, takes the body once the int
  behind it is not zero, and clears the whole buffer. Each side sends when it has received
  what the other side last sent, the client first.

  The poll is satisfied by the first byte of the mark. If the buffer is cleared before the
  other three land, they stay, and the poll of a later body that ends there is satisfied at
  once (`stale_mark`). `MarkLanded` is the condition that this does not happen: the mark is
  there whole when the buffer is cleared.
  - `Box`: the buffer holds a prefix of the packet of the one message not yet received, and
    zeros.
  - `delivers`: in runs whose every `clear_msg_buf` meets the condition, what is received is
    what was sent, in order, and what has landed is received.
-/

import Mathlib
import RampRdma.Lib.Machine
import RampRdma.Net.Message

namespace RampRdma.RDMAWriteSocket

open Bytes Machine

/-- Where the receiver is in `recv`. -/
inductive Stage where
  /-- Polling in `recv_header`. -/
  | header
  /-- Polling in `get_body`. -/
  | body (header : RawHeader)
  /-- Before `clear_msg_buf`. -/
  | clear (header : RawHeader) (body : List UInt8)

/-- If the buffer is about to be cleared, the mark of the message is there whole. -/
def Stage.MarkLanded (write_buf : Mem) : Stage → Prop
  | .clear h _ => load 4 write_buf (24 + h.body_size) = 0xffffffff
  | _ => True

instance (write_buf : Mem) : ∀ stage : Stage, Decidable (stage.MarkLanded write_buf)
  | .header => inferInstanceAs (Decidable True)
  | .body _ => inferInstanceAs (Decidable True)
  | .clear _ _ => inferInstanceAs (Decidable (_ = _))

/-- One direction, with the buffer of its receiver. -/
structure Mailbox where
  write_buf : Mem := fun _ => 0
  /-- The packets under way: where the next byte lands, and the bytes that have not. -/
  flight : List (Nat × List UInt8) := []
  stage : Stage := .header
  sent : List Message := []
  received : List (RawHeader × List UInt8) := []

namespace Mailbox

/-- `send_msg`: none where it exits. -/
def send (b : Mailbox) (msg : Message) : Option Mailbox :=
  match send_msg msg with
  | .ok packet => some { b with flight := b.flight ++ [(0, packet)], sent := b.sent ++ [msg] }
  | .error _ => none

/-- The next `k` bytes land. -/
def land (b : Mailbox) (k : Nat) : Option Mailbox :=
  match b.flight with
  | [] => none
  | (a, bytes) :: rest =>
    if 0 < k ∧ k ≤ bytes.length then
      some { b with
        write_buf := write b.write_buf a (bytes.take k)
        flight := if k = bytes.length then rest else (a + k, bytes.drop k) :: rest }
    else none

def recv_header (b : Mailbox) : Option Mailbox :=
  match b.stage with
  | .header => if load 4 b.write_buf 16 ≠ 0 then some { b with stage := .body (.read b.write_buf 0) } else none
  | _ => none

/-- `get_body`, and the copy into the unpacker. -/
def get_body (b : Mailbox) : Option Mailbox :=
  match b.stage with
  | .body header =>
    if load 4 b.write_buf (24 + header.body_size) ≠ 0 then
      some { b with stage := .clear header (slice b.write_buf 24 header.body_size) }
    else none
  | _ => none

/-- `clear_msg_buf`, the end of `recv`. -/
def clear_msg_buf (b : Mailbox) : Option Mailbox :=
  match b.stage with
  | .clear header body =>
    some { b with write_buf := fun _ => 0, stage := .header, received := b.received ++ [(header, body)] }
  | _ => none

end Mailbox

/-! ## Both sides -/

/-- The mailbox into the server, and the one into the client. -/
structure State where
  server : Mailbox := {}
  client : Mailbox := {}

inductive Side where
  | server
  | client
  deriving DecidableEq

/-- The mailbox of the side that receives. -/
def State.box (s : State) : Side → Mailbox
  | .server => s.server
  | .client => s.client

def State.set (s : State) (d : Side) (b : Mailbox) : State :=
  match d with
  | .server => { s with server := b }
  | .client => { s with client := b }

/-- Whoever sends to `d` has received what was last sent to it. -/
def State.Turn (s : State) : Side → Prop
  | .server => s.client.received.length = s.server.sent.length
  | .client => s.server.received.length = s.client.sent.length + 1

instance (s : State) : ∀ d, Decidable (s.Turn d)
  | .server => inferInstanceAs (Decidable (_ = _))
  | .client => inferInstanceAs (Decidable (_ = _))

inductive Act where
  | send (d : Side) (msg : Message)
  | land (d : Side) (k : Nat)
  | recv_header (d : Side)
  | get_body (d : Side)
  | clear_msg_buf (d : Side)

def step (s : State) : Act → Option State
  | .send d msg => if s.Turn d then ((s.box d).send msg).map (s.set d) else none
  | .land d k => ((s.box d).land k).map (s.set d)
  | .recv_header d => (s.box d).recv_header.map (s.set d)
  | .get_body d => (s.box d).get_body.map (s.set d)
  | .clear_msg_buf d => (s.box d).clear_msg_buf.map (s.set d)

def MarkLanded (s : State) : Act → Prop
  | .clear_msg_buf d => (s.box d).stage.MarkLanded (s.box d).write_buf
  | _ => True

instance (s : State) : ∀ a, Decidable (MarkLanded s a)
  | .clear_msg_buf d => inferInstanceAs (Decidable ((s.box d).stage.MarkLanded (s.box d).write_buf))
  | .send _ _ => inferInstanceAs (Decidable True)
  | .land _ _ => inferInstanceAs (Decidable True)
  | .recv_header _ => inferInstanceAs (Decidable True)
  | .get_body _ => inferInstanceAs (Decidable True)

/-! ## What is in a mailbox -/

def Zeros (flight : List (Nat × List UInt8)) : Prop := ∀ w ∈ flight, ∀ x ∈ w.2, x = 0

/-- A packet of which `p` bytes have landed. -/
def landing (msg : Message) (p : Nat) : List (Nat × List UInt8) :=
  if p < PACKET_SIZE then [(p, (image is_arrived msg).drop p)] else []

/-- What the receiver knows once `p` bytes of `msg` have landed. -/
def StageOk (msg : Message) (p : Nat) : Stage → Prop
  | .header => True
  | .body header => header = msg.delivered.1 ∧ 16 < p
  | .clear header body => header = msg.delivered.1 ∧ body = msg.body ∧ 24 + msg.body.length < p

theorem StageOk.mono {msg : Message} {p p' : Nat} {stage : Stage} (h : StageOk msg p stage) (hp : p ≤ p') :
    StageOk msg p' stage := by
  cases stage with
  | header => trivial
  | body header => exact ⟨h.1, by have := h.2; omega⟩
  | clear header body => exact ⟨h.1, h.2.1, by have := h.2.2; omega⟩

inductive Box (b : Mailbox) : Prop
  /-- Everything sent is received; zeros may still land. -/
  | quiet : b.received = b.sent.map Message.delivered → b.stage = .header → (∀ a, b.write_buf a = 0) → Zeros b.flight → Box b
  /-- The last message sent is not; `p` bytes of it have landed, behind the `tail` of the one before. -/
  | busy (old : List Message) (msg : Message) (p : Nat) (tail : List (Nat × List UInt8)) :
      b.sent = old ++ [msg] → b.received = old.map Message.delivered → Fits is_arrived msg → p ≤ PACKET_SIZE →
      b.flight = tail ++ landing msg p → Zeros tail → (tail ≠ [] → p = 0) →
      (∀ a, b.write_buf a = if a < p then (image is_arrived msg).getD a 0 else 0) → StageOk msg p b.stage → Box b

theorem Zeros.tail {w : Nat × List UInt8} {flight : List (Nat × List UInt8)} (h : Zeros (w :: flight)) : Zeros flight :=
  fun w hw => h w (List.mem_cons_of_mem _ hw)

/-- Zeros that land leave a buffer of zeros, and only zeros behind. -/
theorem Zeros.land {a k : Nat} {bytes : List UInt8} {flight : List (Nat × List UInt8)} (h : Zeros ((a, bytes) :: flight)) :
    (∀ m : Mem, ∀ q, m q = 0 → write m a (bytes.take k) q = 0) ∧
    Zeros (if k = bytes.length then flight else (a + k, bytes.drop k) :: flight) := by
  have hz : ∀ x ∈ bytes, x = 0 := h (a, bytes) List.mem_cons_self
  refine ⟨fun m q hq => ?_, ?_⟩
  · unfold write
    split
    · rename_i hr
      rw [List.getD_eq_getElem _ _ (by omega)]
      exact hz _ (List.mem_of_mem_take (List.getElem_mem _))
    · exact hq
  · split
    · exact h.tail
    · intro w hw x hx
      rcases List.mem_cons.mp hw with rfl | hw
      · exact hz x (List.mem_of_mem_drop hx)
      · exact h.tail w hw x hx

section
variable {b b' : Mailbox} {msg : Message} {p : Nat}

/-- A buffer that holds the first `p` bytes of a packet. -/
theorem begins_landed (h : ∀ a, b.write_buf a = if a < p then (image is_arrived msg).getD a 0 else 0) :
    Begins b.write_buf (image is_arrived msg) p := by
  intro i hi
  rw [h, if_pos hi]

/-- A word that is not zero has begun to land. -/
theorem landed_of_load (h : ∀ a, b.write_buf a = if a < p then (image is_arrived msg).getD a 0 else 0) {n a : Nat}
    (hl : load n b.write_buf a ≠ 0) : a < p := by
  by_contra hp
  refine hl (load_zero n a fun i _ => ?_)
  rw [h, if_neg (by omega)]

theorem Box.send (hb : Box b) (h : b.send msg = some b') (hr : b.received.length = b.sent.length) : Box b' := by
  unfold Mailbox.send at h
  by_cases hf : Fits is_arrived msg
  · rw [RDMAWriteSocket.send_msg, send_msg_ok hf] at h
    cases h
    cases hb with
    | quiet hrec hst hbuf hz =>
      refine .busy _ _ 0 _ rfl hrec hf (Nat.zero_le _) ?_ hz (fun _ => rfl) (fun a => ?_) ?_
      · simp [landing, PACKET_SIZE]
      · rw [if_neg (by omega)]
        exact hbuf a
      · rw [hst]
        trivial
    | busy old msg' p tail hs hrec _ _ _ _ _ _ _ =>
      rw [hs, hrec] at hr
      simp at hr
  · rw [RDMAWriteSocket.send_msg, send_msg_exit hf] at h
    cases h

theorem Box.land (hb : Box b) {k : Nat} (h : b.land k = some b') : Box b' := by
  unfold Mailbox.land at h
  split at h
  · cases h
  · rename_i a bytes rest hfl
    split at h <;> cases h
    rename_i hk
    cases hb with
    | quiet hrec hst hbuf hz =>
      rw [hfl] at hz
      obtain ⟨hw, hz⟩ := hz.land (k := k)
      exact .quiet hrec hst (fun q => hw _ q (hbuf q)) hz
    | busy old msg p tail hs hrec hf hp hflight hz htail hbuf hst =>
      rw [hfl] at hflight
      cases tail with
      | cons w tail =>
        -- the end of the packet before
        cases hflight
        obtain ⟨hw, hz⟩ := hz.land (k := k)
        have h0 := htail (by simp)
        subst h0
        refine .busy _ _ 0 (if k = bytes.length then tail else (a + k, bytes.drop k) :: tail) hs hrec hf hp ?_ hz (fun _ => rfl)
          (fun q => ?_) hst
        · split <;> rfl
        · show write b.write_buf a _ q = _
          rw [if_neg (by omega)]
          refine hw _ q ?_
          rw [hbuf, if_neg (by omega)]
      | nil =>
        unfold landing at hflight
        split at hflight
        · rename_i hlt
          cases hflight
          have hlen := length_image hf
          rw [List.length_drop, hlen] at hk
          refine .busy _ _ (a + k) [] hs hrec hf (by omega) ?_ (fun w hw => by cases hw) (fun e => absurd rfl e)
            (fun q => ?_) (hst.mono (by omega))
          · rw [List.length_drop, hlen, landing, List.drop_drop]
            by_cases hk' : k = PACKET_SIZE - a
            · rw [if_pos hk', if_neg (by omega)]
              rfl
            · rw [if_neg hk', if_pos (by omega)]
              rfl
          · show write b.write_buf a _ q = _
            unfold write
            rw [List.length_take, List.length_drop, hlen, Nat.min_eq_left (by omega)]
            by_cases hq : a ≤ q ∧ q < a + k
            · rw [if_pos hq, if_pos hq.2, List.getD_eq_getElem _ _ (by simp [hlen]; omega), List.getElem_take,
                List.getElem_drop, List.getD_eq_getElem _ _ (by rw [hlen]; omega)]
              congr 1
              omega
            · rw [if_neg hq, hbuf]
              by_cases hqa : q < a
              · rw [if_pos hqa, if_pos (by omega)]
              · rw [if_neg hqa, if_neg (by omega)]
        · cases hflight

theorem Box.recv_header (hb : Box b) (h : b.recv_header = some b') : Box b' := by
  unfold Mailbox.recv_header at h
  split at h
  · rename_i hst
    split at h <;> cases h
    rename_i hl
    cases hb with
    | quiet hrec _ hbuf hz => exact absurd (load_zero 4 16 fun i _ => hbuf _) hl
    | busy old msg p tail hs hrec hf hp hflight hz htail hbuf _ =>
      have h16 := landed_of_load hbuf hl
      refine .busy old msg p tail hs hrec hf hp hflight hz htail hbuf ⟨?_, h16⟩
      have hm := hf
      simp only [Fits, PACKET_SIZE] at hm
      exact header_read (begins_landed hbuf) (image_eq _ _) h16.le (by omega)
  · cases h

theorem Box.get_body (hb : Box b) (h : b.get_body = some b') : Box b' := by
  unfold Mailbox.get_body at h
  split at h
  · rename_i header hst
    split at h <;> cases h
    rename_i hl
    cases hb with
    | quiet _ hst' _ _ =>
      rw [hst] at hst'
      cases hst'
    | busy old msg p tail hs hrec hf hp hflight hz htail hbuf hok =>
      rw [hst] at hok
      obtain ⟨rfl, -⟩ := hok
      have hp' := landed_of_load hbuf hl
      exact .busy old msg p tail hs hrec hf hp hflight hz htail hbuf
        ⟨rfl, body_read (begins_landed hbuf) hp'.le, hp'⟩
  · cases h

/-- With the mark there whole, nothing but zeros is still to land. -/
theorem mark_landed (hbuf : ∀ a, b.write_buf a = if a < p then (image is_arrived msg).getD a 0 else 0)
    (h : load 4 b.write_buf (24 + msg.body.length) = 0xffffffff) : 24 + msg.body.length + 4 ≤ p := by
  by_contra hp
  have hlast : b.write_buf (24 + msg.body.length + 3) = 0 := by rw [hbuf, if_neg (by omega)]
  have hlt : load 4 b.write_buf (24 + msg.body.length) < 256 ^ 3 := load_lt_of_last hlast
  omega

theorem Box.clear_msg_buf (hb : Box b) (hm : b.stage.MarkLanded b.write_buf) (h : b.clear_msg_buf = some b') : Box b' := by
  unfold Mailbox.clear_msg_buf at h
  split at h
  · rename_i header body hst
    cases h
    rw [hst] at hm
    cases hb with
    | quiet _ hst' _ _ =>
      rw [hst] at hst'
      cases hst'
    | busy old msg p tail hs hrec hf hp hflight hz htail hbuf hok =>
      rw [hst] at hok
      obtain ⟨rfl, rfl, hp'⟩ := hok
      have hp' := mark_landed hbuf hm
      have htail : tail = [] := by
        by_contra hne
        have := htail hne
        omega
      refine .quiet ?_ rfl (fun a => rfl) ?_
      · simp only [hs, hrec, List.map_append, List.map_cons, List.map_nil]
        rfl
      · show Zeros b.flight
        rw [hflight, htail, List.nil_append, landing]
        split
        · intro w hw x hx
          rw [List.mem_singleton.mp hw] at hx
          rw [image_eq, ← List.append_assoc, ← List.append_assoc, List.drop_append,
            List.drop_eq_nil_of_le (by simp; omega), List.nil_append] at hx
          exact List.eq_of_mem_replicate (List.mem_of_mem_drop hx)
        · intro w hw
          cases hw
  · cases h

/-- What has landed whole can be received. -/
theorem Box.progress (hb : Box b) (hf : b.flight = []) (hr : b.received.length < b.sent.length) :
    b.recv_header.isSome = true ∨ b.get_body.isSome = true ∨
      b.stage.MarkLanded b.write_buf ∧ b.clear_msg_buf.isSome = true := by
  cases hb with
  | quiet hrec _ _ _ =>
    rw [hrec] at hr
    simp at hr
  | busy old msg p tail hs hrec hfit hp hflight hz htail hbuf hok =>
    -- the whole packet is in the buffer
    rw [hf] at hflight
    have hland : landing msg p = [] := (List.append_eq_nil_iff.mp hflight.symm).2
    have hp : p = PACKET_SIZE := by
      unfold landing at hland
      split at hland
      · cases hland
      · omega
    subst hp
    have hbeg := begins_landed hbuf
    have h1 := arrived_read hbeg (by decide)
    have h2 := mark_read hbeg (by simpa [Fits] using hfit)
    rw [length_is_arrived] at h2
    cases hst : b.stage with
    | header =>
      left
      have : load 4 b.write_buf 16 ≠ 0 := by
        rw [load, h1]
        decide
      simp [Mailbox.recv_header, hst, this]
    | body header =>
      right; left
      rw [hst] at hok
      obtain ⟨rfl, -⟩ := hok
      have : load 4 b.write_buf (24 + msg.delivered.1.body_size) ≠ 0 := by
        show load 4 b.write_buf (24 + msg.body.length) ≠ 0
        rw [load, h2]
        decide
      simp [Mailbox.get_body, hst, this]
    | clear header body =>
      right; right
      rw [hst] at hok
      obtain ⟨rfl, -⟩ := hok
      refine ⟨?_, by simp [Mailbox.clear_msg_buf, hst]⟩
      show load 4 b.write_buf (24 + msg.body.length) = 0xffffffff
      rw [load, h2]
      decide

/-- The messages received are the first ones sent, and at most one is not. -/
theorem Box.received (hb : Box b) : b.received = (b.sent.take b.received.length).map Message.delivered ∧
    b.received.length ≤ b.sent.length ∧ b.sent.length ≤ b.received.length + 1 := by
  cases hb with
  | quiet hrec _ _ _ => simp [hrec]
  | busy old msg p tail hs hrec _ _ _ _ _ _ _ => simp [hs, hrec]

end

/-! ## Runs -/

structure Inv (s : State) : Prop where
  box : ∀ d, Box (s.box d)
  answered : s.client.sent.length ≤ s.server.received.length
  asked : s.server.sent.length ≤ s.client.received.length + 1

@[simp] theorem box_set_self (s : State) (d : Side) (b : Mailbox) : (s.set d b).box d = b := by cases d <;> rfl

theorem box_set_ne (s : State) {d d' : Side} (b : Mailbox) (h : d' ≠ d) : (s.set d b).box d' = s.box d' := by
  cases d <;> cases d' <;> first | rfl | exact absurd rfl h

theorem boxes_set {s : State} (hi : Inv s) {d : Side} {b : Mailbox} (hb : Box b) (d' : Side) : Box ((s.set d b).box d') := by
  by_cases e : d' = d
  · subst e
    rw [box_set_self]
    exact hb
  · rw [box_set_ne s b e]
    exact hi.box d'

/-- A step in one mailbox that sends nothing and loses nothing received. -/
theorem inv_set {s : State} (hi : Inv s) {d : Side} {b : Mailbox} (hb : Box b) (hs : b.sent = (s.box d).sent)
    (hr : (s.box d).received.length ≤ b.received.length) : Inv (s.set d b) := by
  have h1 := hi.answered
  have h2 := hi.asked
  refine ⟨boxes_set hi hb, ?_, ?_⟩
  · cases d with
    | server => exact h1.trans hr
    | client =>
      show b.sent.length ≤ s.server.received.length
      rw [hs]
      exact h1
  · cases d with
    | server =>
      show b.sent.length ≤ s.client.received.length + 1
      rw [hs]
      exact h2
    | client => exact h2.trans (Nat.succ_le_succ hr)

theorem Mailbox.send_eq {b b' : Mailbox} {msg : Message} (h : b.send msg = some b') :
    b'.sent = b.sent ++ [msg] ∧ b'.received = b.received := by
  unfold Mailbox.send at h
  split at h <;> cases h
  exact ⟨rfl, rfl⟩

theorem Mailbox.land_eq {b b' : Mailbox} {k : Nat} (h : b.land k = some b') : b'.sent = b.sent ∧ b'.received = b.received := by
  unfold Mailbox.land at h
  split at h
  · cases h
  · split at h <;> cases h
    exact ⟨rfl, rfl⟩

theorem Mailbox.recv_header_eq {b b' : Mailbox} (h : b.recv_header = some b') :
    b'.sent = b.sent ∧ b'.received = b.received := by
  unfold Mailbox.recv_header at h
  split at h
  · split at h <;> cases h
    exact ⟨rfl, rfl⟩
  · cases h

theorem Mailbox.get_body_eq {b b' : Mailbox} (h : b.get_body = some b') :
    b'.sent = b.sent ∧ b'.received = b.received := by
  unfold Mailbox.get_body at h
  split at h
  · split at h <;> cases h
    exact ⟨rfl, rfl⟩
  · cases h

theorem Mailbox.clear_msg_buf_eq {b b' : Mailbox} (h : b.clear_msg_buf = some b') :
    b'.sent = b.sent ∧ ∃ r, b'.received = b.received ++ [r] := by
  unfold Mailbox.clear_msg_buf at h
  split at h <;> cases h
  exact ⟨rfl, _, rfl⟩

/-- Whoever may send has nothing under way to the other side. -/
theorem inv_send {s : State} (hi : Inv s) {d : Side} {msg : Message} {b : Mailbox} (ht : s.Turn d)
    (hb : (s.box d).send msg = some b) : Inv (s.set d b) := by
  have h1 := hi.answered
  have h2 := hi.asked
  obtain ⟨hs, hr⟩ := Mailbox.send_eq hb
  have hle := (hi.box d).received.2.1
  have hlen : (s.box d).received.length = (s.box d).sent.length := by
    cases d with
    | server =>
      have hc := (hi.box .client).received.2.1
      simp only [State.box, State.Turn] at *
      omega
    | client =>
      have hc := (hi.box .server).received.2.1
      simp only [State.box, State.Turn] at *
      omega
  refine ⟨boxes_set hi ((hi.box d).send hb hlen), ?_, ?_⟩
  · cases d with
    | server =>
      show s.client.sent.length ≤ b.received.length
      rw [hr]
      exact h1
    | client =>
      show b.sent.length ≤ s.server.received.length
      simp only [State.Turn] at ht
      rw [hs, List.length_append, List.length_singleton]
      exact ht.ge
  · cases d with
    | server =>
      show b.sent.length ≤ s.client.received.length + 1
      simp only [State.Turn] at ht
      rw [hs, List.length_append, List.length_singleton, ht]
      exact le_rfl
    | client =>
      show s.server.sent.length ≤ b.received.length + 1
      rw [hr]
      exact h2

theorem inv_step {s s' : State} {a : Act} (hi : Inv s) (hm : MarkLanded s a) (h : step s a = some s') : Inv s' := by
  cases a with
  | send d msg =>
    simp only [step] at h
    split at h
    · rename_i ht
      obtain ⟨b, hb, rfl⟩ := Option.map_eq_some_iff.mp h
      exact inv_send hi ht hb
    · cases h
  | land d k =>
    obtain ⟨b, hb, rfl⟩ := Option.map_eq_some_iff.mp h
    obtain ⟨hs, hr⟩ := Mailbox.land_eq hb
    exact inv_set hi ((hi.box d).land hb) hs (by rw [hr])
  | recv_header d =>
    obtain ⟨b, hb, rfl⟩ := Option.map_eq_some_iff.mp h
    obtain ⟨hs, hr⟩ := Mailbox.recv_header_eq hb
    exact inv_set hi ((hi.box d).recv_header hb) hs (by rw [hr])
  | get_body d =>
    obtain ⟨b, hb, rfl⟩ := Option.map_eq_some_iff.mp h
    obtain ⟨hs, hr⟩ := Mailbox.get_body_eq hb
    exact inv_set hi ((hi.box d).get_body hb) hs (by rw [hr])
  | clear_msg_buf d =>
    obtain ⟨b, hb, rfl⟩ := Option.map_eq_some_iff.mp h
    obtain ⟨hs, r, hr⟩ := Mailbox.clear_msg_buf_eq hb
    exact inv_set hi ((hi.box d).clear_msg_buf hm hb) hs (by rw [hr, List.length_append]; omega)

theorem inv_init : Inv {} where
  box d := by
    have : Box {} := .quiet rfl rfl (fun a => rfl) (fun w hw => by cases hw)
    cases d <;> exact this
  answered := Nat.zero_le _
  asked := Nat.zero_le _

theorem inv_run {s : State} (h : Reach step MarkLanded {} s) : Inv s :=
  h.inv Inv inv_init fun _ _ _ => inv_step

/-- Where every buffer is cleared only once the mark has landed whole, each side has received
    the messages sent to it, in order and complete; and once a message has landed, its
    receiver can go on. -/
theorem delivers {s : State} (h : Reach step MarkLanded {} s) (d : Side) :
    (s.box d).received = ((s.box d).sent.take (s.box d).received.length).map Message.delivered ∧
    ((s.box d).flight = [] → (s.box d).received.length < (s.box d).sent.length →
      ∃ a s', MarkLanded s a ∧ step s a = some s' ∧ a ∈ [Act.recv_header d, .get_body d, .clear_msg_buf d]) := by
  have hi := inv_run h
  refine ⟨(hi.box d).received.1, fun hf hr => ?_⟩
  rcases (hi.box d).progress hf hr with hp | hp | ⟨hm, hp⟩
  · obtain ⟨b, hb⟩ := Option.isSome_iff_exists.mp hp
    exact ⟨.recv_header d, s.set d b, trivial, by simp [step, hb], by simp⟩
  · obtain ⟨b, hb⟩ := Option.isSome_iff_exists.mp hp
    exact ⟨.get_body d, s.set d b, trivial, by simp [step, hb], by simp⟩
  · obtain ⟨b, hb⟩ := Option.isSome_iff_exists.mp hp
    exact ⟨.clear_msg_buf d, s.set d b, hm, by simp [step, hb], by simp⟩

theorem delivers_answer : ∃ s : State, Reach step MarkLanded {} s ∧
    (s.box .client).received = ((s.box .client).sent.take (s.box .client).received.length).map Message.delivered ∧
    ((s.box .client).flight = [] → (s.box .client).received.length < (s.box .client).sent.length →
      ∃ a s', MarkLanded s a ∧ step s a = some s' ∧
        a ∈ [Act.recv_header .client, .get_body .client, .clear_msg_buf .client]) ∧
    (s.box .client).flight = [] ∧ (s.box .client).received.length < (s.box .client).sent.length := by
  obtain ⟨s, hs, hp⟩ := reach_any (show (exec step MarkLanded {} [.send .server ⟨.GET, [7]⟩, .land .server 2560,
      .recv_header .server, .get_body .server, .clear_msg_buf .server, .send .client ⟨.RESULT, [5, 6]⟩, .land .client 20,
      .land .client 2540]).any (fun s : State => (s.box .client).flight.isEmpty &&
        decide ((s.box .client).received.length < (s.box .client).sent.length)) = true by decide +kernel)
  simp only [Bool.and_eq_true, List.isEmpty_iff, decide_eq_true_eq] at hp
  obtain ⟨h1, h2⟩ := delivers hs .client
  exact ⟨s, hs, h1, h2, hp⟩

/-- The server takes the GET of one byte when the first byte of its mark has landed, and
    clears; the other three bytes land at 26 to 28. The GET of two bytes that comes next is
    polled at 26: nothing of its body has landed, and two zeros are taken for it. -/
theorem stale_mark : ∃ s : State, Reach step (fun _ _ => True) {} s ∧
    s.server.sent = [⟨.GET, [7]⟩, ⟨.GET, [5, 6]⟩] ∧
    s.server.received = [(⟨3, 1⟩, [7]), (⟨3, 2⟩, [0, 0])] ∧
    s.server.received ≠ (s.server.sent.take 2).map Message.delivered := by
  obtain ⟨s, hs, hp⟩ := reach_any (show (exec step (fun _ _ => True) {} [.send .server ⟨.GET, [7]⟩, .land .server 26,
      .recv_header .server, .get_body .server, .clear_msg_buf .server, .land .server 2534, .send .client ⟨.DONE, []⟩,
      .land .client 2560, .recv_header .client, .get_body .client, .clear_msg_buf .client,
      .send .server ⟨.GET, [5, 6]⟩, .land .server 24, .recv_header .server, .get_body .server,
      .clear_msg_buf .server]).any (fun s : State => decide (s.server.sent = [⟨.GET, [7]⟩, ⟨.GET, [5, 6]⟩]) &&
        decide (s.server.received = [(⟨3, 1⟩, [7]), (⟨3, 2⟩, [0, 0])])) = true by decide +kernel)
  simp only [Bool.and_eq_true, decide_eq_true_eq] at hp
  refine ⟨s, hs, hp.1, hp.2, ?_⟩
  rw [hp.1, hp.2]
  decide

end RampRdma.RDMAWriteSocket
