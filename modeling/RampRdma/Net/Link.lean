/-
  RampRdma.Net.Link — one direction of a `SendRecvSocket` or `RDMAWriteImmSocket` connection:
  the sender's buffers, the requests in the queue pair, the receiver's posted buffers and its
  completions.

  The sender is the `Socket` of `Net.SendBufs`, with the bytes of its buffers: a buffer is
  cleared when it is handed out, filled before it is posted, and the hardware reads it piece
  by piece at any time before the completion. A SEND lands in the oldest posted receive
  buffer; an RDMA Write with immediate data lands in `write_buf` and takes that buffer off
  the queue for its completion only. Before any message an `RDMAWriteImmSocket` sends the key
  and address of its `write_buf`, as a SEND. One-sided reads are in `Server.OneSided`.
  - `step_bufs`: no send buffer comes to be twice, also past `send_close`.
  - `LinkInv`: what is posted and has not arrived is in the sender's buffers as it was
    posted; what has arrived is in the receiver's until its `recv` is over.
  - `SenderOk.handed` / `SenderOk.post` / `SenderOk.arrive`: the sender's side of it.
-/

import Mathlib
import RampRdma.Lib.Blocks
import RampRdma.Lib.Machine
import RampRdma.Net.Message
import RampRdma.Net.SendBufs

namespace RampRdma.Verbs

open Bytes Machine

inductive Transport where
  | send_recv
  | write_imm
  deriving DecidableEq

/-- What `send_msg` appends behind the body. -/
def Transport.mark : Transport → List UInt8
  | .send_recv => []
  | .write_imm => is_arrived

structure RemoteKeyAndAddr where
  rkey : UInt32
  remote_addr : UInt64
  deriving DecidableEq

namespace RemoteKeyAndAddr

/-- As `Buffer::append` copies it; the padding behind `rkey` is taken as zero. -/
def bytes (r : RemoteKeyAndAddr) : List UInt8 := le 4 r.rkey.toNat ++ (le 4 0 ++ le 8 r.remote_addr.toNat)

@[simp] theorem length_bytes (r : RemoteKeyAndAddr) : r.bytes.length = 16 := by simp [bytes]

def read (m : Mem) (a : Nat) : RemoteKeyAndAddr := ⟨UInt32.ofNat (load 4 m a), UInt64.ofNat (load 8 m (a + 8))⟩

/-- The whole send buffer. -/
def image (r : RemoteKeyAndAddr) : List UInt8 := r.bytes ++ List.replicate (PACKET_SIZE - 16) 0

end RemoteKeyAndAddr

/-- The addresses of the receive buffers, in the first half of `verbs_buf`. -/
def recv_slots : List Nat := (List.range PACKET_WINDOW_SIZE).map (· * PACKET_SIZE)

/-- `write_buf.addr`: an allocation of its own, put behind `verbs_buf`. -/
def WRITE_BUF : Nat := 20 * PACKET_SIZE

/-- Where the receiver is: in the constructor, or in `recv`. -/
inductive Stage where
  | rka
  | header
  | body (msg_buf : Nat) (header : RawHeader)
  | clear (msg_buf : Nat) (header : RawHeader) (body : List UInt8)

/-- `msg_buf`. -/
def Stage.bufs : Stage → List Nat
  | .body b _ | .clear b _ _ => [b]
  | _ => []

/-- What is posted. -/
inductive Packet where
  | rka (r : RemoteKeyAndAddr)
  | msg (msg : Message)

structure Link where
  socket : Socket := {}
  /-- The sender's buffers. -/
  send_mem : Mem := fun _ => 0
  rka_sent : Bool := false
  /-- Of the outstanding requests, those that have arrived: the oldest. -/
  arrived : Nat := 0
  /-- The remote address of each of the others, `none` in a SEND. -/
  remotes : List (Option Nat) := []
  /-- The bytes of the oldest of them that have landed. -/
  landed : Nat := 0
  /-- The receiver's buffers. -/
  mem : Mem := fun _ => 0
  posted_recvs : List Nat := recv_slots
  recv_cq : List Nat := []
  stage : Stage := .header
  /-- `rka`, of the receiver. -/
  learned : Option RemoteKeyAndAddr := none
  sent : List Packet := []
  received : List (RawHeader × List UInt8) := []

/-- All receive buffers are posted before anything is sent. The server's constructor posts its own
    after `rdma_accept`, when the client may have sent already: that order is left out. -/
def Link.init : Transport → Link
  | .send_recv => {}
  | .write_imm => { stage := .rka }

def clear_buf (m : Mem) (buf : Nat) : Mem := write m buf (List.replicate PACKET_SIZE 0)

namespace Link

variable (tr : Transport)

/-! ## The sender -/

/-- Fill the buffer and post it. -/
def post (l : Link) (s : Socket) (buf : Nat) (bytes : List UInt8) (remote : Option Nat) (p : Packet) : Link :=
  { l with
    socket := s
    send_mem := write l.send_mem buf bytes
    remotes := l.remotes ++ [remote]
    sent := l.sent ++ [p] }

/-- `post_send`, or `post_write_imm` to `rka.remote_addr`. -/
def post_msg (l : Link) (s : Socket) (buf : Nat) (rka : Option RemoteKeyAndAddr) (msg : Message) : Option Link :=
  match send_msg tr.mark msg, tr, rka with
  | .ok bytes, .send_recv, _ => some (l.post s buf bytes none (.msg msg))
  | .ok bytes, .write_imm, some r => some (l.post s buf bytes (some r.remote_addr.toNat) (.msg msg))
  | _, _, _ => none

/-- `own` is the key and address of the sender's `write_buf`, `rka` what it has of the other side's. -/
def run (own : RemoteKeyAndAddr) (rka : Option RemoteKeyAndAddr) (l : Link) : Option Link :=
  match Verbs.run tr.mark l.socket with
  | none => none
  | some s =>
    match l.socket.pc with
    | .polling _ => some { l with socket := s, send_mem := s.pc.held.foldl clear_buf l.send_mem }
    | .holding .send_rka buf => some { l.post s buf own.image none (.rka own) with rka_sent := true }
    | .holding (.send_msg msg) buf => l.post_msg tr s buf rka msg
    | .cleared buf => l.post_msg tr s buf rka ⟨.CLOSE, []⟩
    | _ => some { l with socket := s }

/-- The constructor sends first, and messages only once it has ended. The one-sided reads of
    `ACRAMPFastHandler` on the same queue pair are left out: no step here is one. -/
def MayCall (rka : Option RemoteKeyAndAddr) (l : Link) : Call → Prop
  | .send_rka => tr = .write_imm ∧ l.rka_sent = false
  | .send_msg _ | .send_close => tr = .write_imm → l.rka_sent = true ∧ rka ≠ none
  | .read => False

instance (rka : Option RemoteKeyAndAddr) (l : Link) : ∀ c, Decidable (l.MayCall tr rka c)
  | .send_rka => inferInstanceAs (Decidable (_ ∧ _))
  | .send_msg _ => inferInstanceAs (Decidable (_ → _))
  | .send_close => inferInstanceAs (Decidable (_ → _))
  | .read => inferInstanceAs (Decidable False)

def call (rka : Option RemoteKeyAndAddr) (l : Link) (c : Call) : Option Link :=
  if l.MayCall tr rka c then
    match Verbs.step tr.mark l.socket (.call c) with
    | none => none
    | some s => some { l with socket := s, send_mem := s.pc.held.foldl clear_buf l.send_mem }
  else none

/-! ## The hardware -/

/-- The requests that have not arrived. -/
def flying (l : Link) : List WorkRequest := l.socket.outstanding.drop l.arrived

/-- The next `k` bytes of the oldest of them land. -/
def land (l : Link) (k : Nat) : Option Link :=
  match l.flying, l.remotes, l.posted_recvs with
  | wr :: _, remote :: _, buf :: _ =>
    if 0 < k ∧ l.landed + k ≤ PACKET_SIZE then
      some { l with
        mem := write l.mem (remote.getD buf + l.landed) (slice l.send_mem (wr.wr_id + l.landed) k)
        landed := l.landed + k }
    else none
  | _, _, _ => none

/-- It has landed whole: the receive completion. -/
def notify (l : Link) : Option Link :=
  match l.flying, l.remotes, l.posted_recvs with
  | _ :: _, _ :: remotes, buf :: bufs =>
    if l.landed = PACKET_SIZE then
      some { l with
        arrived := l.arrived + 1
        remotes := remotes
        landed := 0
        posted_recvs := bufs
        recv_cq := l.recv_cq ++ [buf] }
    else none
  | _, _, _ => none

/-- The send completion of the oldest request. -/
def complete (l : Link) : Option Link :=
  match l.arrived with
  | 0 => none
  | n + 1 => (Verbs.step tr.mark l.socket .complete).map fun s => { l with socket := s, arrived := n }

/-! ## The receiver -/

/-- Where `recv` reads the message whose completion has `msg_buf`. -/
def source (msg_buf : Nat) : Nat :=
  match tr with
  | .send_recv => msg_buf
  | .write_imm => WRITE_BUF

/-- The end of the constructor. -/
def recv_rka (l : Link) : Option Link :=
  match l.stage, l.recv_cq with
  | .rka, buf :: cq => some { l with
      learned := some (.read l.mem buf)
      recv_cq := cq
      posted_recvs := l.posted_recvs ++ [buf]
      stage := .header }
  | _, _ => none

def recv_header (l : Link) : Option Link :=
  match l.stage, l.recv_cq with
  | .header, buf :: cq => some { l with recv_cq := cq, stage := .body buf (.read l.mem (source tr buf)) }
  | _, _ => none

/-- `get_body`, and the copy into the unpacker. -/
def get_body (l : Link) : Option Link :=
  match l.stage with
  | .body buf h => some { l with stage := .clear buf h (slice l.mem (source tr buf + 24) h.body_size) }
  | _ => none

/-- What the end of `recv` clears: `write_buf`, where there is one. -/
def clear_mem (m : Mem) : Mem :=
  match tr with
  | .send_recv => m
  | .write_imm => clear_buf m WRITE_BUF

/-- `clear_msg_buf`, the end of `recv`. -/
def clear_msg_buf (l : Link) : Option Link :=
  match l.stage with
  | .clear buf h body => some { l with
      mem := clear_mem tr l.mem
      posted_recvs := l.posted_recvs ++ [buf]
      stage := .header
      received := l.received ++ [(h, body)] }
  | _ => none

end Link

/-! ## Which buffers are apart -/

/-- Every send buffer that is free, posted or held. -/
def Socket.bufs (s : Socket) : List Nat := s.send_bufs ++ s.posted.map WorkRequest.wr_id ++ s.pc.held

theorem count_pushes (bufs send_bufs : List Nat) (b : Nat) :
    (bufs.foldl push_back send_bufs).count b ≤ send_bufs.count b + bufs.count b := by
  induction bufs generalizing send_bufs with
  | nil => simp
  | cons buf bufs ih =>
    have hp : (push_back send_bufs buf).count b ≤ send_bufs.count b + [buf].count b := by
      rw [← List.count_append]
      unfold push_back
      split
      · exact le_rfl
      · exact (List.tail_sublist _).count_le b
    have hc : (buf :: bufs).count b = [buf].count b + bufs.count b := by rw [← List.count_append]; rfl
    have := ih (push_back send_bufs buf)
    rw [List.foldl_cons, hc]
    omega

/-- No buffer comes to be twice, also after `send_close` has cleared the queue. -/
theorem step_bufs {s s' : Socket} (h : Step s s') (b : Nat) : s'.bufs.count b ≤ s.bufs.count b := by
  cases h with
  | @take c buf bufs hpc hb =>
    simp only [Socket.bufs, Socket.posted, hpc, hb, Pc.held, List.count_append, List.count_cons, List.count_nil]
    omega
  | empty hpc hb => simp only [Socket.bufs, Socket.posted, hpc, Pc.held, le_refl]
  | complete ho =>
    simp only [Socket.bufs, posted_complete ho]
    exact le_rfl
  | @poll c wr wcs hpc hq =>
    have hcq : s.send_cq = (wr :: wcs) ++ s.send_cq.drop PACKET_WINDOW_SIZE := by rw [← hq, List.take_append_drop]
    have hp := count_pushes (wcs.map WorkRequest.wr_id) s.send_bufs b
    have he : (s.send_cq.map WorkRequest.wr_id).count b = [wr.wr_id].count b + (wcs.map WorkRequest.wr_id).count b +
        ((s.send_cq.drop PACKET_WINDOW_SIZE).map WorkRequest.wr_id).count b := by
      rw [← List.count_append, ← List.count_append]
      conv_lhs => rw [hcq]
      simp
    simp only [Socket.bufs, Socket.posted, hpc, Pc.held, List.map_append, List.count_append, List.count_nil]
    omega
  | @post c buf pc hpc hpc' =>
    have he : (s.post { wr_id := buf } pc).bufs = s.send_bufs ++ (s.posted.map WorkRequest.wr_id ++ [buf]) := by
      rcases hpc' with rfl | rfl <;> simp [Socket.bufs, Socket.post, Socket.posted, Pc.held]
    rw [he]
    simp only [Socket.bufs, hpc, Pc.held, List.count_append]
    omega
  | read hpc => simp only [Socket.bufs, Socket.posted, hpc, Pc.held, le_refl]
  | clear hpc =>
    have hd := ((List.drop_sublist PACKET_WINDOW_SIZE s.send_cq).map WorkRequest.wr_id).count_le b
    simp only [Socket.bufs, Socket.posted, hpc, Pc.held, List.map_append, List.count_append]
    omega
  | close hpc =>
    simp only [Socket.bufs, Socket.post, Socket.posted, hpc, Pc.held, List.map_append, List.map_cons, List.map_nil,
      List.count_append, List.count_nil]
    omega
  | @closed wr wcs hpc hq =>
    simp only [Socket.bufs, Socket.posted, hpc, hq, Pc.held, List.map_append, List.map_cons, List.count_append, List.count_cons]
    omega

/-- The send buffers are some of the ten, each at most once. -/
structure Socket.Apart (s : Socket) : Prop where
  nodup : s.bufs.Nodup
  slots : ∀ b ∈ s.bufs, b ∈ slots

theorem apart_init : Socket.Apart {} where
  nodup := by
    have h : Socket.bufs {} = slots := by simp [Socket.bufs, Socket.posted, Pc.held]
    rw [h]
    exact slots_nodup
  slots b hb := by simpa [Socket.bufs, Socket.posted, Pc.held] using hb

theorem Socket.Apart.step {s s' : Socket} (h : s.Apart) (hs : Step s s') : s'.Apart where
  nodup := List.nodup_iff_count_le_one.mpr fun b => (step_bufs hs b).trans (List.nodup_iff_count_le_one.mp h.nodup b)
  slots b hb := h.slots b (List.count_pos_iff.mp (lt_of_lt_of_le (List.count_pos_iff.mpr hb) (step_bufs hs b)))

theorem slot_eq {b : Nat} (h : b ∈ slots) : ∃ i, b = i * PACKET_SIZE := by
  obtain ⟨i, -, rfl⟩ := List.mem_map.mp h
  exact ⟨PACKET_WINDOW_SIZE + i, by rw [Nat.add_mul, Nat.mul_comm PACKET_SIZE]⟩

/-- Two of them are a packet apart. -/
theorem slots_apart {b b' : Nat} (h : b ∈ slots) (h' : b' ∈ slots) (hne : b ≠ b') :
    b + PACKET_SIZE ≤ b' ∨ b' + PACKET_SIZE ≤ b := by
  obtain ⟨i, rfl⟩ := slot_eq h
  obtain ⟨j, rfl⟩ := slot_eq h'
  exact slot_apart fun e => hne (by rw [e])

/-- A posted buffer is not the one held. -/
theorem Socket.Apart.held {s : Socket} (h : s.Apart) {buf : Nat} (hb : buf ∈ s.pc.held) {wr : WorkRequest}
    (hw : wr ∈ s.outstanding) : wr.wr_id + PACKET_SIZE ≤ buf ∨ buf + PACKET_SIZE ≤ wr.wr_id := by
  have hwr : wr.wr_id ∈ s.posted.map WorkRequest.wr_id := List.mem_map_of_mem (List.mem_append_right _ hw)
  refine slots_apart (h.slots _ (List.mem_append_left _ (List.mem_append_right _ hwr))) (h.slots _ (List.mem_append_right _ hb))
    fun e => ?_
  exact (List.nodup_append.mp h.nodup).2.2 wr.wr_id (List.mem_append_right _ hwr) buf hb e

/-! ## What is where -/

namespace Packet

variable (tr : Transport)

def image : Packet → List UInt8
  | .rka r => r.image
  | .msg m => RampRdma.image tr.mark m

def Fits : Packet → Prop
  | .rka _ => True
  | .msg m => RampRdma.Fits tr.mark m

/-- The remote address of its request. -/
def remote : Packet → Option Nat
  | .rka _ => none
  | .msg _ => match tr with
    | .send_recv => none
    | .write_imm => some WRITE_BUF

/-- Where it lands when `buf` is the oldest posted receive buffer. -/
def target (p : Packet) (buf : Nat) : Nat := (p.remote tr).getD buf

def toMsg : Packet → Option Message
  | .rka _ => none
  | .msg m => some m

theorem length_image {p : Packet} (h : p.Fits tr) : (p.image tr).length = PACKET_SIZE := by
  cases p with
  | rka r =>
    show (r.bytes ++ List.replicate (PACKET_SIZE - 16) 0).length = _
    rw [List.length_append, List.length_replicate, RemoteKeyAndAddr.length_bytes]
    rfl
  | msg m => exact RampRdma.length_image h

end Packet

def msgs (ps : List Packet) : List Message := ps.filterMap Packet.toMsg

@[simp] theorem msgs_append (ps qs : List Packet) : msgs (ps ++ qs) = msgs ps ++ msgs qs := List.filterMap_append

@[simp] theorem msgs_nil : msgs [] = [] := rfl

@[simp] theorem msgs_rka (r : RemoteKeyAndAddr) (ps : List Packet) : msgs (.rka r :: ps) = msgs ps := rfl

@[simp] theorem msgs_msg (m : Message) (ps : List Packet) : msgs (.msg m :: ps) = m :: msgs ps := rfl

variable {tr : Transport} {own : RemoteKeyAndAddr}

/-- What the receiver has of the message it is receiving. -/
def StageOk (tr : Transport) (m : Mem) (cur : List Packet) : Stage → Prop
  | .rka | .header => cur = []
  | .body b h => ∃ msg, cur = [.msg msg] ∧ h = msg.delivered.1 ∧ slice m (Link.source tr b) PACKET_SIZE = image tr.mark msg
  | .clear _ h body => ∃ msg, cur = [.msg msg] ∧ (h, body) = msg.delivered

/-- The sender's side; `flying` are the packets that have not arrived. -/
structure SenderOk (tr : Transport) (l : Link) (flying : List Packet) : Prop where
  apart : l.socket.Apart
  arrived : l.arrived ≤ l.socket.outstanding.length
  flight : Blocks l.send_mem PACKET_SIZE (l.flying.map WorkRequest.wr_id) (flying.map (Packet.image tr))
  remotes : l.remotes = flying.map (Packet.remote tr)

/-- The receiver's; `ready` are the packets that have and are not taken up, `cur` the one being received. -/
structure ReceiverOk (tr : Transport) (l : Link) (cur ready flying : List Packet) : Prop where
  landed : l.landed ≤ PACKET_SIZE
  landing : ∀ p ps, flying = p :: ps → ∀ buf bufs, l.posted_recvs = buf :: bufs →
    slice l.mem (p.target tr buf) l.landed = (p.image tr).take l.landed
  none_landed : l.landed ≠ 0 → flying ≠ [] ∧ l.posted_recvs ≠ []
  recvs : (l.posted_recvs ++ l.recv_cq ++ l.stage.bufs).Perm recv_slots
  blocks : Blocks l.mem PACKET_SIZE (List.zipWith (Packet.target tr) ready l.recv_cq) (ready.map (Packet.image tr))
  length : ready.length = l.recv_cq.length
  stage : StageOk tr l.mem cur l.stage
  /-- One message at a time goes through `write_buf`. -/
  alone : tr = .write_imm → (msgs (cur ++ (ready ++ flying))).length ≤ 1

/-- The constructors; `done` are the packets taken up. -/
structure HandOk (tr : Transport) (own : RemoteKeyAndAddr) (l : Link) (done : List Packet) : Prop where
  /-- The thread is in no call that the constructor forbids. -/
  calls : ∀ c, l.socket.pc = .polling c ∨ (∃ b, l.socket.pc = .holding c b) →
    c ≠ .read ∧ (c = .send_rka → tr = .write_imm ∧ l.rka_sent = false) ∧ (c ≠ .send_rka → tr = .write_imm → l.rka_sent = true)
  cleared : ∀ b, l.socket.pc = .cleared b → tr = .write_imm → l.rka_sent = true
  send_recv : tr = .send_recv → (∀ p ∈ l.sent, ∃ m, p = .msg m) ∧ l.stage ≠ .rka
  write_imm : tr = .write_imm → (l.sent = [] ∧ l.rka_sent = false ∨
    (∃ ms : List Message, l.sent = .rka own :: ms.map .msg) ∧ l.rka_sent = true) ∧
    (l.stage = .rka ∧ done = [] ∧ l.learned = none ∨ l.stage ≠ .rka ∧ done ≠ [] ∧ l.learned = some own)

structure LinkInv (tr : Transport) (own : RemoteKeyAndAddr) (l : Link) (done cur ready flying : List Packet) : Prop where
  sent : l.sent = done ++ (cur ++ (ready ++ flying))
  fits : ∀ p ∈ l.sent, p.Fits tr
  received : l.received = (msgs done).map Message.delivered
  sender : SenderOk tr l flying
  receiver : ReceiverOk tr l cur ready flying
  hand : HandOk tr own l done

theorem linkInv_init (tr : Transport) (own : RemoteKeyAndAddr) : LinkInv tr own (.init tr) [] [] [] [] := by
  have hs : SenderOk tr {} [] := ⟨apart_init, Nat.zero_le _, .nil, rfl⟩
  have hr : ReceiverOk tr {} [] [] [] := by
    refine ⟨Nat.zero_le _, (fun p ps h => by cases h), fun h => absurd rfl h, ?_, .nil, rfl, rfl, fun _ => Nat.zero_le _⟩
    show (recv_slots ++ [] ++ []).Perm recv_slots
    simp
  have hc : ∀ (c : Call), Pc.idle = .polling c ∨ (∃ b, Pc.idle = .holding c b) → False := by
    rintro c (h | ⟨b, h⟩) <;> cases h
  cases tr with
  | send_recv =>
    refine ⟨rfl, (fun p hp => by cases hp), rfl, hs, hr,
      ⟨fun c h => (hc c h).elim, (fun b h => by cases h), fun _ => ⟨(fun p hp => by cases hp), ?_⟩, (fun h => by cases h)⟩⟩
    intro h
    cases h
  | write_imm =>
    refine ⟨rfl, (fun p hp => by cases hp), rfl, ⟨hs.apart, hs.arrived, hs.flight, hs.remotes⟩,
      ⟨hr.landed, hr.landing, hr.none_landed, hr.recvs, hr.blocks, hr.length, rfl, hr.alone⟩,
      ⟨fun c h => (hc c h).elim, (fun b h => by cases h), (fun h => by cases h), fun _ => ⟨.inl ⟨rfl, rfl⟩, .inl ⟨rfl, rfl, rfl⟩⟩⟩⟩

/-! ## The sender keeps it -/

/-- A buffer just handed out, cleared. -/
theorem SenderOk.handed {l : Link} {flying : List Packet} (h : SenderOk tr l flying) {s : Socket} (hs : Step l.socket s)
    (ho : s.outstanding = l.socket.outstanding) :
    SenderOk tr { l with socket := s, send_mem := s.pc.held.foldl clear_buf l.send_mem } flying := by
  have ha := h.apart.step hs
  refine ⟨ha, by rw [ho]; exact h.arrived, ?_, h.remotes⟩
  have hfl : ({ l with socket := s, send_mem := s.pc.held.foldl clear_buf l.send_mem } : Link).flying = l.flying := by
    simp only [Link.flying, ho]
  rw [hfl]
  -- at most one buffer is held
  have one : s.pc.held = [] ∨ ∃ buf, s.pc.held = [buf] := by
    cases s.pc <;> simp [Pc.held]
  rcases one with hb | ⟨buf, hb⟩
  · show Blocks (s.pc.held.foldl clear_buf l.send_mem) _ _ _
    rw [hb]
    exact h.flight
  · show Blocks (s.pc.held.foldl clear_buf l.send_mem) _ _ _
    rw [hb]
    refine h.flight.write fun a hm => ?_
    obtain ⟨wr, hw, rfl⟩ := List.mem_map.mp hm
    rw [List.length_replicate]
    exact ha.held (by rw [hb]; exact List.mem_singleton_self _) (ho ▸ List.mem_of_mem_drop hw)

/-- A buffer filled and posted. -/
theorem SenderOk.post {l : Link} {flying : List Packet} (h : SenderOk tr l flying) {s : Socket} (hs : Step l.socket s) {buf : Nat}
    (hb : l.socket.pc.held = [buf]) {wr : WorkRequest} (hw : wr.wr_id = buf)
    (ho : s.outstanding = l.socket.outstanding ++ [wr]) {p : Packet} (hf : p.Fits tr) :
    SenderOk tr (l.post s buf (p.image tr) (p.remote tr) p) (flying ++ [p]) := by
  have hlen := p.length_image tr hf
  have hfl : (l.post s buf (p.image tr) (p.remote tr) p).flying = l.flying ++ [wr] := by
    show s.outstanding.drop l.arrived = _
    rw [ho, List.drop_append_of_le_length h.arrived]
    rfl
  refine ⟨h.apart.step hs, ?_, ?_, ?_⟩
  · show l.arrived ≤ s.outstanding.length
    rw [ho, List.length_append]
    exact Nat.le_add_right_of_le h.arrived
  · rw [hfl, List.map_append, List.map_append]
    refine Blocks.snoc (h.flight.write fun a hm => ?_) ?_
    · obtain ⟨wr', hw', rfl⟩ := List.mem_map.mp hm
      rw [hlen]
      exact h.apart.held (by rw [hb]; exact List.mem_singleton_self _) (List.mem_of_mem_drop hw')
    · show slice (write l.send_mem buf (p.image tr)) wr.wr_id PACKET_SIZE = p.image tr
      rw [hw, ← hlen]
      exact slice_write_self _ _ _
  · show l.remotes ++ [p.remote tr] = _
    rw [h.remotes, List.map_append]
    rfl

/-- Nothing of the sender's moves. -/
theorem SenderOk.same {l l' : Link} {flying : List Packet} (h : SenderOk tr l flying) (h1 : l'.socket = l.socket)
    (h2 : l'.send_mem = l.send_mem) (h3 : l'.arrived = l.arrived) (h4 : l'.remotes = l.remotes) : SenderOk tr l' flying := by
  have hfl : l'.flying = l.flying := by simp only [Link.flying, h1, h3]
  exact ⟨h1 ▸ h.apart, by rw [h1, h3]; exact h.arrived, by rw [hfl, h2]; exact h.flight, h4.trans h.remotes⟩

/-- The socket moves and its requests do not. -/
theorem SenderOk.move {l : Link} {flying : List Packet} (h : SenderOk tr l flying) {s : Socket} (hs : Step l.socket s)
    (ho : s.outstanding = l.socket.outstanding) : SenderOk tr { l with socket := s } flying := by
  have hfl : ({ l with socket := s } : Link).flying = l.flying := by simp only [Link.flying, ho]
  exact ⟨h.apart.step hs, by rw [ho]; exact h.arrived, by rw [hfl]; exact h.flight, h.remotes⟩

/-- The oldest request completes. -/
theorem SenderOk.complete {l : Link} {flying : List Packet} (h : SenderOk tr l flying) {s : Socket} (hs : Step l.socket s)
    {n : Nat} (hn : l.arrived = n + 1) {wr : WorkRequest} (ho : l.socket.outstanding = wr :: s.outstanding) :
    SenderOk tr { l with socket := s, arrived := n } flying := by
  have hle := h.arrived
  rw [hn, ho, List.length_cons] at hle
  have hfl : ({ l with socket := s, arrived := n } : Link).flying = l.flying := by
    simp only [Link.flying, hn, ho, List.drop_succ_cons]
  exact ⟨h.apart.step hs, by show n ≤ s.outstanding.length; omega, by rw [hfl]; exact h.flight, h.remotes⟩

/-- The oldest request that had not arrived has. -/
theorem SenderOk.arrive {l l' : Link} {p : Packet} {flying : List Packet} (h : SenderOk tr l (p :: flying))
    (h1 : l'.socket = l.socket) (h2 : l'.send_mem = l.send_mem) (h3 : l'.arrived = l.arrived + 1)
    (h4 : l.remotes = p.remote tr :: l'.remotes) : SenderOk tr l' flying := by
  have hfl : l'.flying = l.flying.tail := by
    simp only [Link.flying, h1, h3, List.tail_drop]
  have hb := h.flight
  have hr := h.remotes
  rcases hf : l.flying with _ | ⟨wr, wrs⟩
  · rw [hf] at hb
    cases hb
  · rw [hf] at hb hfl
    have hlt : l.arrived < l.socket.outstanding.length := by
      have := congrArg List.length hf
      simp only [Link.flying, List.length_drop, List.length_cons] at this
      omega
    rw [h4] at hr
    exact ⟨h1 ▸ h.apart, by rw [h1, h3]; exact hlt, by rw [hfl, h2]; exact (blocks_cons.mp hb).2, (List.cons.inj hr).2⟩

end RampRdma.Verbs
