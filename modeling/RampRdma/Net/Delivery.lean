/-
  RampRdma.Net.Delivery — a `SendRecvSocket` or `RDMAWriteImmSocket` connection: a link in
  each direction.

  Over RDMA Write with immediate data each side sends when it has received what the other
  last sent (`InTurn`), the client first; over Send/Recv each at any time.
  - `Receives`: the steps that take a packet on; each leaves it less far to go (`left_lt`),
    and one is possible while something sent is not received (`can_receive`).
  - `connection_delivers`: each side receives what was sent to it, in order and complete, whatever the
    sides do; the addresses the sides write to are those of the `write_buf`s.
  - `recvs_conserved`: every receive buffer is posted, completed or held, once, and over RDMA
    Write with immediate data one is posted whenever a request is under way.

  Both sides have their receive buffers posted before anything is sent (`Link.init`), and
  there are no one-sided reads on the connection (`Link.MayCall`).
-/

import Mathlib
import RampRdma.Net.Landing
import RampRdma.Net.Mailbox

namespace RampRdma.Verbs

open Bytes Machine

section

variable {tr : Transport} {own : RemoteKeyAndAddr}

/-! ## What a step changes -/

theorem LinkInv.received_eq {l : Link} {done cur ready flying : List Packet} (h : LinkInv tr own l done cur ready flying) :
    l.received = ((msgs l.sent).take l.received.length).map Message.delivered ∧
    l.received.length + (msgs (cur ++ (ready ++ flying))).length = (msgs l.sent).length := by
  rw [h.received, h.sent, msgs_append, List.length_map, List.length_append]
  refine ⟨?_, rfl⟩
  rw [List.take_left' rfl]

theorem Link.call_eq {l l' : Link} {rka : Option RemoteKeyAndAddr} {c : Call} (hl : l.call tr rka c = some l') :
    l'.sent = l.sent ∧ l'.received = l.received ∧ l'.learned = l.learned := by
  unfold Link.call at hl
  split at hl
  · split at hl <;> cases hl
    exact ⟨rfl, rfl, rfl⟩
  · cases hl

theorem Link.post_msg_eq {l l' : Link} {s : Socket} {buf : Nat} {rka : Option RemoteKeyAndAddr} {msg : Message}
    (hl : l.post_msg tr s buf rka msg = some l') : l'.received = l.received ∧ l'.learned = l.learned ∧
    l'.sent = l.sent ++ [.msg msg] ∧ (tr = .write_imm → rka ≠ none) := by
  unfold Link.post_msg at hl
  split at hl <;> cases hl
  · exact ⟨rfl, rfl, rfl, fun ht => by cases ht⟩
  · exact ⟨rfl, rfl, rfl, by simp⟩

/-- The thread sends nothing to read, or posts one message. -/
theorem Link.run_eq {l l' : Link} {rka : Option RemoteKeyAndAddr} (hl : l.run tr own rka = some l') :
    l'.received = l.received ∧ l'.learned = l.learned ∧ (msgs l'.sent = msgs l.sent ∨
      l.Posts ∧ (tr = .write_imm → rka ≠ none) ∧ ∃ msg, msgs l'.sent = msgs l.sent ++ [msg]) := by
  unfold Link.run at hl
  split at hl
  · cases hl
  · split at hl
    · cases hl
      exact ⟨rfl, rfl, .inl rfl⟩
    · cases hl
      refine ⟨rfl, rfl, .inl ?_⟩
      show msgs (l.sent ++ [.rka own]) = _
      simp
    · rename_i msg buf hpc
      obtain ⟨h1, h2, h3, h4⟩ := Link.post_msg_eq hl
      exact ⟨h1, h2, .inr ⟨by simp [Link.Posts, hpc], h4, msg, by simp [h3]⟩⟩
    · rename_i buf hpc
      obtain ⟨h1, h2, h3, h4⟩ := Link.post_msg_eq hl
      exact ⟨h1, h2, .inr ⟨by simp [Link.Posts, hpc], h4, ⟨.CLOSE, []⟩, by simp [h3]⟩⟩
    · cases hl
      exact ⟨rfl, rfl, .inl rfl⟩

theorem Link.complete_eq {l l' : Link} (hl : l.complete tr = some l') : l'.sent = l.sent ∧ l'.received = l.received ∧
    l'.learned = l.learned := by
  unfold Link.complete at hl
  split at hl
  · cases hl
  · obtain ⟨s, -, rfl⟩ := Option.map_eq_some_iff.mp hl
    exact ⟨rfl, rfl, rfl⟩

/-! ## What is sent is received -/

/-- The steps of the hardware and the receiver that take a packet on. -/
inductive Receives (tr : Transport) (l l' : Link) : Prop
  | land {k : Nat} (h : l.land k = some l')
  | notify (h : l.notify = some l')
  | recv_rka (h : l.recv_rka = some l')
  | recv_header (h : l.recv_header tr = some l')
  | get_body (h : l.get_body tr = some l')
  | clear_msg_buf (h : l.clear_msg_buf tr = some l')

theorem LinkInv.receives {l l' : Link} {done cur ready flying : List Packet} (h : LinkInv tr own l done cur ready flying)
    (hr : Receives tr l l') : ∃ done cur ready flying, LinkInv tr own l' done cur ready flying := by
  cases hr with
  | land hl => exact ⟨_, _, _, _, h.land hl⟩
  | notify hl =>
    obtain ⟨ready, flying, h⟩ := h.notify hl
    exact ⟨_, _, _, _, h⟩
  | recv_rka hl =>
    obtain ⟨done, cur, ready, h⟩ := h.recv_rka hl
    exact ⟨_, _, _, _, h⟩
  | recv_header hl =>
    obtain ⟨done, cur, ready, h⟩ := h.recv_header hl
    exact ⟨_, _, _, _, h⟩
  | get_body hl => exact ⟨_, _, _, _, h.get_body hl⟩
  | clear_msg_buf hl =>
    obtain ⟨done, cur, ready, h⟩ := h.clear_msg_buf hl
    exact ⟨_, _, _, _, h⟩

theorem Receives.kept {l l' : Link} (hr : Receives tr l l') :
    l'.sent = l.sent ∧ l.received.length ≤ l'.received.length ∧ (l.learned ≠ none → l'.learned ≠ none) := by
  cases hr with
  | land hl =>
    obtain ⟨m, n, rfl⟩ := Link.land_eq hl
    exact ⟨rfl, le_rfl, id⟩
  | notify hl =>
    obtain ⟨rs, bufs, buf, rfl⟩ := Link.notify_eq hl
    exact ⟨rfl, le_rfl, id⟩
  | recv_rka hl =>
    unfold Link.recv_rka at hl
    split at hl <;> cases hl
    exact ⟨rfl, le_rfl, fun _ => by simp⟩
  | recv_header hl =>
    unfold Link.recv_header at hl
    split at hl <;> cases hl
    exact ⟨rfl, le_rfl, id⟩
  | get_body hl =>
    unfold Link.get_body at hl
    split at hl <;> cases hl
    exact ⟨rfl, le_rfl, id⟩
  | clear_msg_buf hl =>
    unfold Link.clear_msg_buf at hl
    split at hl <;> cases hl
    exact ⟨rfl, by simp, id⟩

def Stage.left : Stage → Nat
  | .body _ _ => 2
  | .clear _ _ _ => 1
  | _ => 0

/-- How far the packets under way have to go. -/
def Link.left (l : Link) : Nat :=
  (PACKET_SIZE + 4) * l.flying.length + 3 * l.recv_cq.length + l.stage.left - l.landed

theorem LinkInv.flying_length {l : Link} {done cur ready flying : List Packet} (h : LinkInv tr own l done cur ready flying) :
    l.flying.length = flying.length := by
  have := h.sender.flight.length
  rwa [List.length_map, List.length_map] at this

theorem LinkInv.landed_le {l : Link} {done cur ready flying : List Packet} (h : LinkInv tr own l done cur ready flying) :
    l.landed ≤ (PACKET_SIZE + 4) * l.flying.length := by
  have hle := h.receiver.landed
  by_cases h0 : l.landed = 0
  · omega
  · have hpos := List.length_pos_of_ne_nil (h.receiver.none_landed h0).1
    rw [← h.flying_length] at hpos
    simp only [PACKET_SIZE] at hle ⊢
    omega

theorem LinkInv.left_lt {l l' : Link} {done cur ready flying : List Packet} (h : LinkInv tr own l done cur ready flying)
    (hr : Receives tr l l') : l'.left < l.left := by
  have hle := h.landed_le
  cases hr with
  | land hl =>
    unfold Link.land at hl
    split at hl
    · split at hl <;> cases hl
      rename_i hw _ _ hk
      have hlen := congrArg List.length hw
      rw [List.length_cons] at hlen
      show (PACKET_SIZE + 4) * l.flying.length + 3 * l.recv_cq.length + l.stage.left - (l.landed + _) < Link.left l
      simp only [Link.left, PACKET_SIZE] at *
      omega
    · cases hl
  | notify hl =>
    unfold Link.notify at hl
    split at hl
    · split at hl <;> cases hl
      rename_i wrs _ rs buf bufs hw _ _ hk
      have hlen : (l.socket.outstanding.drop (l.arrived + 1)).length + 1 = l.flying.length := by
        have := congrArg List.length hw
        simp only [Link.flying, List.length_drop, List.length_cons] at this ⊢
        omega
      show (PACKET_SIZE + 4) * (l.socket.outstanding.drop (l.arrived + 1)).length + 3 * (l.recv_cq ++ [buf]).length +
        l.stage.left - 0 < Link.left l
      simp only [Link.left, PACKET_SIZE, List.length_append, List.length_singleton] at *
      omega
    · cases hl
  | recv_rka hl =>
    unfold Link.recv_rka at hl
    split at hl <;> cases hl
    rename_i hst hcq
    simp only [Link.left, Link.flying, hst, hcq, Stage.left, List.length_cons] at *
    omega
  | recv_header hl =>
    unfold Link.recv_header at hl
    split at hl <;> cases hl
    rename_i hst hcq
    simp only [Link.left, Link.flying, hst, hcq, Stage.left, List.length_cons] at *
    omega
  | get_body hl =>
    unfold Link.get_body at hl
    split at hl <;> cases hl
    rename_i hst
    simp only [Link.left, Link.flying, hst, Stage.left] at *
    omega
  | clear_msg_buf hl =>
    unfold Link.clear_msg_buf at hl
    split at hl <;> cases hl
    rename_i hst
    simp only [Link.left, Link.flying, hst, Stage.left] at *
    omega

/-- A packet under way can land, or complete, when a buffer is posted. -/
theorem LinkInv.can_arrive {l : Link} {done cur ready flying : List Packet} (h : LinkInv tr own l done cur ready flying)
    (hf : flying ≠ []) (hp : l.posted_recvs ≠ []) : (∃ k, (l.land k).isSome) ∨ l.notify.isSome := by
  have hlen := h.flying_length
  have hrem := congrArg List.length h.sender.remotes
  have hpos := List.length_pos_of_ne_nil hf
  rw [List.length_map] at hrem
  obtain ⟨wr, wrs, hw⟩ := List.exists_cons_of_length_pos (hlen ▸ hpos)
  obtain ⟨r, rs, hr⟩ := List.exists_cons_of_length_pos (hrem ▸ hpos)
  obtain ⟨buf, bufs, hb⟩ := List.exists_cons_of_ne_nil hp
  rcases Nat.lt_or_ge l.landed PACKET_SIZE with hlt | hge
  · have hk : 0 < PACKET_SIZE - l.landed ∧ l.landed + (PACKET_SIZE - l.landed) ≤ PACKET_SIZE := by omega
    exact .inl ⟨PACKET_SIZE - l.landed, by simp only [Link.land, hw, hr, hb, if_pos hk, Option.isSome_some]⟩
  · have he : l.landed = PACKET_SIZE := le_antisymm h.receiver.landed hge
    exact .inr (by simp only [Link.notify, hw, hr, hb, he, if_true, Option.isSome_some])

/-- A packet that is not taken up can be taken on. -/
theorem LinkInv.can_move {l : Link} {done cur ready flying : List Packet} (h : LinkInv tr own l done cur ready flying)
    (hne : cur ++ (ready ++ flying) ≠ []) : ∃ l', Receives tr l l' := by
  have hst := h.receiver.stage
  have hperm := h.receiver.recvs
  have hcq := h.receiver.length
  rcases hs : l.stage with _ | _ | ⟨b, hd⟩ | ⟨b, hd, body⟩
  case body => exact ⟨_, .get_body (by simp only [Link.get_body, hs]; rfl)⟩
  case clear => exact ⟨_, .clear_msg_buf (by simp only [Link.clear_msg_buf, hs]; rfl)⟩
  all_goals
    rw [hs] at hst hperm
    obtain rfl : cur = [] := hst
    rcases hc : l.recv_cq with _ | ⟨buf, cq⟩
  case rka.cons => exact ⟨_, .recv_rka (by simp only [Link.recv_rka, hs, hc]; rfl)⟩
  case header.cons => exact ⟨_, .recv_header (by simp only [Link.recv_header, hs, hc]; rfl)⟩
  all_goals
    -- nothing has arrived, and every buffer is posted
    rw [hc] at hperm hcq
    obtain rfl : ready = [] := List.eq_nil_of_length_eq_zero hcq
    have hf : flying ≠ [] := hne
    have hp : l.posted_recvs ≠ [] := by
      intro hp
      rw [hp] at hperm
      exact absurd hperm.length_eq (by decide)
    rcases h.can_arrive hf hp with ⟨k, hl⟩ | hl
    · obtain ⟨l', hl⟩ := Option.isSome_iff_exists.mp hl
      exact ⟨l', .land hl⟩
    · obtain ⟨l', hl⟩ := Option.isSome_iff_exists.mp hl
      exact ⟨l', .notify hl⟩

/-- What is sent and not received can be taken on. -/
theorem LinkInv.can_receive {l : Link} {done cur ready flying : List Packet} (h : LinkInv tr own l done cur ready flying)
    (hr : l.received.length < (msgs l.sent).length) : ∃ l', Receives tr l l' := by
  have hlen := h.received_eq.2
  refine h.can_move fun h0 => ?_
  rw [h0] at hlen
  simp only [msgs_nil, List.length_nil] at hlen
  omega

end

/-! ## Both sides -/

open RDMAWriteSocket (Side)

def other : Side → Side
  | .server => .client
  | .client => .server

@[simp] theorem other_other (d : Side) : other (other d) = d := by cases d <;> rfl

theorem other_ne (d : Side) : other d ≠ d := by cases d <;> simp [other]

/-- The link into the server, and the one into the client. -/
structure State where
  server : Link
  client : Link

namespace State

def init (tr : Transport) : State := ⟨.init tr, .init tr⟩

def link (s : State) : Side → Link
  | .server => s.server
  | .client => s.client

def set (s : State) (d : Side) (l : Link) : State :=
  match d with
  | .server => { s with server := l }
  | .client => { s with client := l }

/-- `rka` of the side that sends to `d`. -/
def rka (s : State) (d : Side) : Option RemoteKeyAndAddr := (s.link (other d)).learned

/-- Whoever sends to `d` has received what was last sent to it. -/
def Turn (s : State) : Side → Prop
  | .server => s.client.received.length = (msgs s.server.sent).length
  | .client => s.server.received.length = (msgs s.client.sent).length + 1

instance (s : State) : ∀ d, Decidable (s.Turn d)
  | .server => inferInstanceAs (Decidable (_ = _))
  | .client => inferInstanceAs (Decidable (_ = _))

end State

/-- What the side that sends to `d` sends of its own `write_buf`, whose key is `rkeys`. -/
def own (rkeys : Side → UInt32) (d : Side) : RemoteKeyAndAddr := ⟨rkeys (other d), UInt64.ofNat WRITE_BUF⟩

namespace Connection

/-- Each on the link into `d`: `call`, `run` and `complete` of its sender, the others of its receiver. -/
inductive Act where
  | call (d : Side) (c : Call)
  | run (d : Side)
  | complete (d : Side)
  | land (d : Side) (k : Nat)
  | notify (d : Side)
  | recv_rka (d : Side)
  | recv_header (d : Side)
  | get_body (d : Side)
  | clear_msg_buf (d : Side)

/-- It takes a packet to `d` on. -/
def Act.Receives (d : Side) : Act → Prop
  | .land d' _ | .notify d' | .recv_rka d' | .recv_header d' | .get_body d' | .clear_msg_buf d' => d' = d
  | _ => False

variable (tr : Transport) (rkeys : Side → UInt32)

def step (s : State) : Act → Option State
  | .call d c => ((s.link d).call tr (s.rka d) c).map (s.set d)
  | .run d => ((s.link d).run tr (own rkeys d) (s.rka d)).map (s.set d)
  | .complete d => ((s.link d).complete tr).map (s.set d)
  | .land d k => ((s.link d).land k).map (s.set d)
  | .notify d => (s.link d).notify.map (s.set d)
  -- the constructor sends first
  | .recv_rka d => if (s.link (other d)).rka_sent then (s.link d).recv_rka.map (s.set d) else none
  | .recv_header d => ((s.link d).recv_header tr).map (s.set d)
  | .get_body d => ((s.link d).get_body tr).map (s.set d)
  | .clear_msg_buf d => ((s.link d).clear_msg_buf tr).map (s.set d)

/-- Over RDMA Write with immediate data each side posts a message only in its turn. -/
def InTurn (s : State) : Act → Prop
  | .run d => tr = .write_imm → (s.link d).Posts → s.Turn d
  | _ => True

instance (s : State) : ∀ a, Decidable (InTurn tr s a)
  | .run d => inferInstanceAs (Decidable (tr = .write_imm → (s.link d).Posts → s.Turn d))
  | .call _ _ => inferInstanceAs (Decidable True)
  | .complete _ => inferInstanceAs (Decidable True)
  | .land _ _ => inferInstanceAs (Decidable True)
  | .notify _ => inferInstanceAs (Decidable True)
  | .recv_rka _ => inferInstanceAs (Decidable True)
  | .recv_header _ => inferInstanceAs (Decidable True)
  | .get_body _ => inferInstanceAs (Decidable True)
  | .clear_msg_buf _ => inferInstanceAs (Decidable True)

structure Inv (s : State) : Prop where
  link : ∀ d, ∃ done cur ready flying, LinkInv tr (own rkeys d) (s.link d) done cur ready flying
  /-- Whoever has sent a message has the other side's address. -/
  knows : ∀ d, tr = .write_imm → msgs (s.link d).sent ≠ [] → s.rka d ≠ none
  answered : tr = .write_imm → (msgs s.client.sent).length ≤ s.server.received.length
  asked : tr = .write_imm → (msgs s.server.sent).length ≤ s.client.received.length + 1

@[simp] theorem link_set_self (s : State) (d : Side) (l : Link) : (s.set d l).link d = l := by cases d <;> rfl

theorem link_set_ne (s : State) {d d' : Side} (l : Link) (h : d' ≠ d) : (s.set d l).link d' = s.link d' := by
  cases d <;> cases d' <;> first | rfl | exact absurd rfl h

theorem inv_init : Inv tr rkeys (.init tr) where
  link d := by
    have h := linkInv_init tr (own rkeys d)
    cases d <;> exact ⟨[], [], [], [], h⟩
  knows d ht h := by cases d <;> cases tr <;> exact absurd rfl h
  answered _ := by cases tr <;> exact Nat.zero_le _
  asked _ := by cases tr <;> exact Nat.zero_le _

variable {tr rkeys} {s s' : State}

/-- A step on one link, by what it sends and receives. -/
theorem inv_set (hi : Inv tr rkeys s) {d : Side} {l : Link}
    (hl : ∃ done cur ready flying, LinkInv tr (own rkeys d) l done cur ready flying)
    (hr : (s.link d).received.length ≤ l.received.length) (hk : (s.link d).learned ≠ none → l.learned ≠ none)
    (hs : msgs l.sent = msgs (s.link d).sent ∨ (tr = .write_imm → s.rka d ≠ none) ∧ (tr = .write_imm → s.Turn d) ∧
      ∃ msg, msgs l.sent = msgs (s.link d).sent ++ [msg]) : Inv tr rkeys (s.set d l) := by
  refine ⟨fun d' => ?_, fun d' ht h => ?_, fun ht => ?_, fun ht => ?_⟩
  · by_cases e : d' = d
    · subst e
      rw [link_set_self]
      exact hl
    · rw [link_set_ne s l e]
      exact hi.link d'
  · by_cases e : d' = d
    · subst e
      have hrka : (s.set d' l).rka d' = s.rka d' := by simp only [State.rka, link_set_ne s l (other_ne d')]
      rw [hrka]
      rw [link_set_self] at h
      rcases hs with hs | ⟨hs, -⟩
      · exact hi.knows d' ht (hs ▸ h)
      · exact hs ht
    · rw [link_set_ne s l e] at h
      have := hi.knows d' ht h
      have ho : other d' = d := by cases d <;> cases d' <;> first | rfl | exact absurd rfl e
      simp only [State.rka, ho, link_set_self] at this ⊢
      exact hk this
  · have h1 := hi.answered ht
    cases d with
    | server => exact h1.trans hr
    | client =>
      show (msgs l.sent).length ≤ s.server.received.length
      rcases hs with hs | ⟨-, hturn, msg, hs⟩ <;> rw [hs]
      · exact h1
      · have hturn : s.server.received.length = (msgs s.client.sent).length + 1 := hturn ht
        rw [List.length_append, List.length_singleton, hturn]
        exact le_rfl
  · have h2 := hi.asked ht
    cases d with
    | server =>
      show (msgs l.sent).length ≤ s.client.received.length + 1
      rcases hs with hs | ⟨-, hturn, msg, hs⟩ <;> rw [hs]
      · exact h2
      · have hturn : s.client.received.length = (msgs s.server.sent).length := hturn ht
        rw [List.length_append, List.length_singleton, hturn]
        exact le_rfl
    | client => exact h2.trans (Nat.succ_le_succ hr)

theorem inv_receives (hi : Inv tr rkeys s) {d : Side} {l : Link} (hr : Receives tr (s.link d) l) : Inv tr rkeys (s.set d l) := by
  obtain ⟨done, cur, ready, flying, h⟩ := hi.link d
  obtain ⟨h1, h2, h3⟩ := hr.kept
  exact inv_set hi (h.receives hr) h2 h3 (.inl (by rw [h1]))

/-- Whoever may send has nothing under way to the other side. -/
theorem turn_none (hi : Inv tr rkeys s) (ht : tr = .write_imm) {d : Side} (hturn : s.Turn d) {own : RemoteKeyAndAddr}
    {done cur ready flying : List Packet} (h : LinkInv tr own (s.link d) done cur ready flying) :
    msgs (cur ++ (ready ++ flying)) = [] := by
  have h1 := hi.answered ht
  have h2 := hi.asked ht
  have hlen := h.received_eq.2
  refine List.eq_nil_of_length_eq_zero ?_
  cases d with
  | server =>
    obtain ⟨done', cur', ready', flying', h'⟩ := hi.link .client
    have hlen' := h'.received_eq.2
    simp only [State.link, State.Turn] at *
    omega
  | client =>
    obtain ⟨done', cur', ready', flying', h'⟩ := hi.link .server
    have hlen' := h'.received_eq.2
    simp only [State.link, State.Turn] at *
    omega

theorem LinkInv_learned {l : Link} {own : RemoteKeyAndAddr} {done cur ready flying : List Packet}
    (h : LinkInv tr own l done cur ready flying) (ht : tr = .write_imm) {r : RemoteKeyAndAddr} (hl : l.learned = some r) : r = own := by
  obtain ⟨-, ⟨-, -, h0⟩ | ⟨-, -, h0⟩⟩ := h.hand.write_imm ht
  · rw [h0] at hl
    cases hl
  · rw [h0] at hl
    cases hl
    rfl

theorem step_inv {a : Act} (hi : Inv tr rkeys s) (ha : InTurn tr s a) (h : step tr rkeys s a = some s') : Inv tr rkeys s' := by
  cases a with
  | call d c =>
    obtain ⟨l, hl, rfl⟩ := Option.map_eq_some_iff.mp h
    obtain ⟨done, cur, ready, flying, hd⟩ := hi.link d
    obtain ⟨h1, h2, h3⟩ := Link.call_eq hl
    exact inv_set hi ⟨_, _, _, _, hd.call hl⟩ (by rw [h2]) (by rw [h3]; exact id) (.inl (by rw [h1]))
  | run d =>
    obtain ⟨l, hl, rfl⟩ := Option.map_eq_some_iff.mp h
    obtain ⟨done, cur, ready, flying, hd⟩ := hi.link d
    obtain ⟨done', cur', ready', flying', hd'⟩ := hi.link (other d)
    obtain ⟨flying'', hrun⟩ := hd.run (fun ht r hr => by rw [LinkInv_learned hd' ht hr]; rfl)
      (fun ht hp => turn_none hi ht (ha ht hp) hd) hl
    obtain ⟨h1, h2, h3⟩ := Link.run_eq hl
    refine inv_set hi ⟨_, _, _, _, hrun⟩ (by rw [h1]) (by rw [h2]; exact id) ?_
    rcases h3 with h3 | ⟨hp, hk, hm⟩
    · exact .inl h3
    · exact .inr ⟨hk, fun ht => ha ht hp, hm⟩
  | complete d =>
    obtain ⟨l, hl, rfl⟩ := Option.map_eq_some_iff.mp h
    obtain ⟨done, cur, ready, flying, hd⟩ := hi.link d
    obtain ⟨h1, h2, h3⟩ := Link.complete_eq hl
    exact inv_set hi ⟨_, _, _, _, hd.complete hl⟩ (by rw [h2]) (by rw [h3]; exact id) (.inl (by rw [h1]))
  | land d k =>
    obtain ⟨l, hl, rfl⟩ := Option.map_eq_some_iff.mp h
    exact inv_receives hi (.land hl)
  | notify d =>
    obtain ⟨l, hl, rfl⟩ := Option.map_eq_some_iff.mp h
    exact inv_receives hi (.notify hl)
  | recv_rka d =>
    simp only [step] at h
    split at h
    · obtain ⟨l, hl, rfl⟩ := Option.map_eq_some_iff.mp h
      exact inv_receives hi (.recv_rka hl)
    · cases h
  | recv_header d =>
    obtain ⟨l, hl, rfl⟩ := Option.map_eq_some_iff.mp h
    exact inv_receives hi (.recv_header hl)
  | get_body d =>
    obtain ⟨l, hl, rfl⟩ := Option.map_eq_some_iff.mp h
    exact inv_receives hi (.get_body hl)
  | clear_msg_buf d =>
    obtain ⟨l, hl, rfl⟩ := Option.map_eq_some_iff.mp h
    exact inv_receives hi (.clear_msg_buf hl)

theorem inv (h : Reach (step tr rkeys) (InTurn tr) (.init tr) s) : Inv tr rkeys s :=
  h.inv (Inv tr rkeys) (inv_init tr rkeys) fun _ _ _ => step_inv

/-! ## Delivery -/

/-- An address that a side has is one that the other has sent. -/
theorem known_sent (hi : Inv tr rkeys s) (ht : tr = .write_imm) {d : Side} (hk : s.rka d ≠ none) : (s.link (other d)).rka_sent = true := by
  obtain ⟨done, cur, ready, flying, h⟩ := hi.link (other d)
  obtain ⟨hsent, ⟨-, -, h0⟩ | ⟨-, hdone, -⟩⟩ := h.hand.write_imm ht
  · exact absurd h0 hk
  · rcases hsent with ⟨h0, -⟩ | ⟨-, h1⟩
    · have := h.sent
      rw [h0] at this
      exact absurd (List.append_eq_nil_iff.mp this.symm).1 hdone
    · exact h1

/-- A step that takes a packet to `d` on is one of the connection's. -/
theorem receives_step (hi : Inv tr rkeys s) {d : Side} (hk : tr = .write_imm → (s.link (other d)).rka_sent = true) {l : Link}
    (hr : Receives tr (s.link d) l) : ∃ a : Act, a.Receives d ∧ step tr rkeys s a = some (s.set d l) := by
  cases hr with
  | @land k hl => exact ⟨.land d k, rfl, by rw [step, hl, Option.map_some]⟩
  | notify hl => exact ⟨.notify d, rfl, by rw [step, hl, Option.map_some]⟩
  | recv_header hl => exact ⟨.recv_header d, rfl, by rw [step, hl, Option.map_some]⟩
  | get_body hl => exact ⟨.get_body d, rfl, by rw [step, hl, Option.map_some]⟩
  | clear_msg_buf hl => exact ⟨.clear_msg_buf d, rfl, by rw [step, hl, Option.map_some]⟩
  | recv_rka hl =>
    obtain ⟨done, cur, ready, flying, h⟩ := hi.link d
    have ht : tr = .write_imm := by
      have hst : (s.link d).stage = .rka := by
        unfold Link.recv_rka at hl
        split at hl <;> first | assumption | cases hl
      cases htr : tr with
      | send_recv => exact absurd hst (h.hand.send_recv htr).2
      | write_imm => rfl
    exact ⟨.recv_rka d, rfl, by rw [step, if_pos (hk ht), hl, Option.map_some]⟩

/-- Taken on for long enough, what is sent is received. -/
theorem drains (hi : Inv tr rkeys s) (d : Side) : ∃ s', Reach (step tr rkeys) (fun _ a => a.Receives d) s s' ∧
    (s'.link d).received = (msgs (s.link d).sent).map Message.delivered := by
  induction hn : (s.link d).left using Nat.strong_induction_on generalizing s with
  | _ n ih =>
    subst hn
    obtain ⟨done, cur, ready, flying, h⟩ := hi.link d
    obtain ⟨hrec, hlen⟩ := h.received_eq
    rcases Nat.lt_or_ge (s.link d).received.length (msgs (s.link d).sent).length with hlt | hge
    · obtain ⟨l, hl⟩ := h.can_receive hlt
      obtain ⟨a, ha, hs⟩ := receives_step hi (fun ht => known_sent hi ht (hi.knows d ht (List.ne_nil_of_length_pos (by omega)))) hl
      have hleft : ((s.set d l).link d).left < (s.link d).left := by
        rw [link_set_self]
        exact h.left_lt hl
      obtain ⟨s', hr, hs'⟩ := ih _ hleft (inv_receives hi hl) rfl
      have h1 : Reach (step tr rkeys) (fun _ a => a.Receives d) s (s.set d l) := .tail .refl ha hs
      refine ⟨s', h1.trans hr, ?_⟩
      rw [hs', link_set_self, hl.kept.1]
    · refine ⟨s, .refl, ?_⟩
      rw [hrec, List.take_of_length_le hge]

/-- In every state, what a side has received is what was sent to it, in order; the rest of that
    is received when the hardware and that side go on, whatever the other does; and the address
    a side writes to is that of the other's `write_buf`. -/
theorem connection_delivers (h : Reach (step tr rkeys) (InTurn tr) (.init tr) s) (d : Side) :
    (s.link d).received = ((msgs (s.link d).sent).take (s.link d).received.length).map Message.delivered ∧
    (∃ s', Reach (step tr rkeys) (fun _ a => a.Receives d) s s' ∧
      (s'.link d).received = (msgs (s.link d).sent).map Message.delivered) ∧
    (tr = .write_imm → ∀ r, s.rka d = some r → r = ⟨rkeys d, UInt64.ofNat WRITE_BUF⟩) := by
  have hi := inv h
  obtain ⟨done, cur, ready, flying, hd⟩ := hi.link d
  obtain ⟨done', cur', ready', flying', hd'⟩ := hi.link (other d)
  refine ⟨hd.received_eq.1, drains hi d, fun ht r hr => ?_⟩
  rw [LinkInv_learned hd' ht hr, own, other_other]

/-- Both constructors, and a GET that has not landed. -/
def asking : List Act :=
  [.call .server .send_rka, .run .server, .call .client .send_rka, .run .client, .land .server 2560, .notify .server,
    .recv_rka .server, .land .client 1000, .land .client 1560, .notify .client, .recv_rka .client,
    .call .server (.send_msg ⟨.GET, [7]⟩), .run .server]

theorem connection_delivers_asking : ∃ s s', Reach (step .write_imm fun _ => 5) (InTurn .write_imm) (.init .write_imm) s ∧
    s.server.received = [] ∧ Reach (step .write_imm fun _ => 5) (fun _ a => a.Receives .server) s s' ∧
    s'.server.received = [(⟨3, 1⟩, [7])] := by
  obtain ⟨s, hs, hp⟩ := reach_any (show (exec (step .write_imm fun _ => 5) (InTurn .write_imm) (.init .write_imm) asking).any
    (fun s : State => decide (msgs s.server.sent = [⟨.GET, [7]⟩]) && decide (s.server.received = [])) = true by decide +kernel)
  simp only [Bool.and_eq_true, decide_eq_true_eq] at hp
  obtain ⟨-, ⟨s', hr, he⟩, -⟩ := connection_delivers hs .server
  refine ⟨s, s', hs, hp.2, hr, he.trans ?_⟩
  show (msgs s.server.sent).map Message.delivered = _
  rw [hp.1]
  rfl

/-! ## The receive buffers -/

theorem length_msgs {ps : List Packet} (h : ∀ p ∈ ps, ∃ m, p = .msg m) : (msgs ps).length = ps.length := by
  induction ps with
  | nil => rfl
  | cons p ps ih =>
    obtain ⟨m, rfl⟩ := h p List.mem_cons_self
    rw [msgs_msg, List.length_cons, List.length_cons, ih fun q hq => h q (List.mem_cons_of_mem _ hq)]

/-- The packets not taken up are at most the address and one message. -/
theorem under_way {own : RemoteKeyAndAddr} {done ps : List Packet} {ms : List Message} (h : done ++ ps = .rka own :: ms.map .msg)
    (h1 : (msgs ps).length ≤ 1) : ps.length ≤ 2 := by
  have hms : ∀ p ∈ ms.map Packet.msg, ∃ m, p = .msg m := by simp
  rcases done with _ | ⟨q, done⟩
  · rw [List.nil_append] at h
    rw [h, msgs_rka, length_msgs hms] at h1
    rw [h, List.length_cons]
    omega
  · obtain ⟨-, h⟩ := List.cons.inj h
    have : (msgs ps).length = ps.length := length_msgs fun p hp => hms p (h ▸ List.mem_append_right _ hp)
    omega

theorem stage_bufs_le {m : Mem} {cur : List Packet} {st : Stage} (h : StageOk tr m cur st) : st.bufs.length ≤ cur.length := by
  cases st with
  | rka => exact Nat.zero_le _
  | header => exact Nat.zero_le _
  | body b hd =>
    obtain ⟨msg, rfl, -⟩ := h
    exact le_rfl
  | clear b hd body =>
    obtain ⟨msg, rfl, -⟩ := h
    exact le_rfl

theorem recvs_conserved (h : Reach (step tr rkeys) (InTurn tr) (.init tr) s) (d : Side) :
    ((s.link d).posted_recvs ++ (s.link d).recv_cq ++ (s.link d).stage.bufs).Perm recv_slots ∧
    (tr = .write_imm → (s.link d).flying ≠ [] → (s.link d).posted_recvs ≠ []) := by
  obtain ⟨done, cur, ready, flying, hd⟩ := (inv h).link d
  refine ⟨hd.receiver.recvs, fun ht hf hp => ?_⟩
  have hperm := hd.receiver.recvs.length_eq
  have hcq := hd.receiver.length
  have hbufs := stage_bufs_le hd.receiver.stage
  have hfly := hd.flying_length
  have hpos := List.length_pos_of_ne_nil hf
  have halone := hd.receiver.alone ht
  have hsent := hd.sent
  rw [hp] at hperm
  have h10 : recv_slots.length = 10 := rfl
  simp only [List.nil_append, List.length_append, h10] at hperm
  obtain ⟨⟨h0, -⟩ | ⟨⟨ms, hms⟩, -⟩, -⟩ := hd.hand.write_imm ht
  · rw [h0] at hsent
    have := congrArg List.length hsent
    simp only [List.length_nil, List.length_append] at this
    omega
  · have := under_way (hsent.symm.trans hms) halone
    simp only [List.length_append] at this
    omega

/-- The GET is under way. -/
theorem recvs_conserved_asking : ∃ s, Reach (step .write_imm fun _ => 5) (InTurn .write_imm) (.init .write_imm) s ∧
    s.server.flying ≠ [] ∧ s.server.posted_recvs ≠ [] := by
  obtain ⟨s, hs, hp⟩ := reach_any (show (exec (step .write_imm fun _ => 5) (InTurn .write_imm) (.init .write_imm) asking).any
    (fun s : State => decide (s.server.flying.length = 1)) = true by decide +kernel)
  have hf : s.server.flying ≠ [] := by
    intro h0
    rw [h0] at hp
    cases of_decide_eq_true hp
  exact ⟨s, hs, hf, (recvs_conserved hs .server).2 rfl hf⟩

end Connection

end RampRdma.Verbs
