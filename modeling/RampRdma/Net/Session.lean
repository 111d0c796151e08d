/-
  RampRdma.Net.Session — the calls of a handler over a `Net.Delivery` connection: it sends a
  request and waits for the answer, the executor at the other end decodes requests and sends
  answers, each with one unpacker for the whole connection.

  Underneath, the hardware and both sockets take their steps at any time.
  - `Phase`: what a call goes through. `Inv` ties one to the bytes: what either side has been
    told to send is the requests and answers of the calls that are over, and those of the phase.
  - `in_turn`: so over RDMA Write with immediate data each side sends in its turn.
  - `calls_agree`: so the executor serves what the handler asked for, and the handler is given
    what the executor answered, in order; and the executor's loop ends on CLOSE only.

  No side reads the other's memory: an `ACRAMPFastHandler`'s sessions are those in which
  `get_all` never finds an address in its cache.
-/

import Mathlib
import RampRdma.Net.Calls
import RampRdma.Net.Delivery

namespace RampRdma.Verbs

open Machine

/-! ## What a thread has been told to send -/

def Call.msgs : Call → List Message
  | .send_msg msg => [msg]
  | .send_close => [⟨.CLOSE, []⟩]
  | .send_rka | .read => []

/-- The message of the call the thread is in, until it is posted. -/
def Pc.msgs : Pc → List Message
  | .polling c | .holding c _ => c.msgs
  | .cleared _ => [⟨.CLOSE, []⟩]
  | _ => []

def Link.queued (l : Link) : List Message := Verbs.msgs l.sent ++ l.socket.pc.msgs

variable {tr : Transport} {own : RemoteKeyAndAddr}

theorem Link.call_queued {l l' : Link} {rka : Option RemoteKeyAndAddr} {c : Call} (h : l.call tr rka c = some l') :
    l'.queued = l.queued ++ c.msgs := by
  unfold Link.call at h
  split at h
  · split at h <;> cases h
    rename_i s hs
    simp only [Link.queued]
    simp only [Verbs.step] at hs
    split at hs <;> cases hs
    all_goals
      rename_i hpc _
      rw [hpc]
      simp [Pc.msgs]
  · cases h

theorem Link.post_msg_socket {l l' : Link} {s : Socket} {buf : Nat} {rka : Option RemoteKeyAndAddr} {msg : Message}
    (h : l.post_msg tr s buf rka msg = some l') : l'.socket = s := by
  unfold Link.post_msg at h
  split at h <;> cases h <;> rfl

theorem Link.run_socket {l l' : Link} {rka : Option RemoteKeyAndAddr} (h : l.run tr own rka = some l') :
    Verbs.run tr.mark l.socket = some l'.socket := by
  unfold Link.run at h
  split at h
  · cases h
  · rename_i s hs
    rw [hs]
    split at h
    · cases h
      rfl
    · cases h
      rfl
    · rw [Link.post_msg_socket h]
    · rw [Link.post_msg_socket h]
    · cases h
      rfl

/-- The messages of the call that a step of the thread leaves to post. -/
theorem run_msgs {mark : List UInt8} {s s' : Socket} (h : Verbs.run mark s = some s') :
    s'.pc.msgs = match s.pc with
      | .polling c => c.msgs
      | .holding .send_close _ => [⟨.CLOSE, []⟩]
      | _ => [] := by
  unfold Verbs.run at h
  split at h
  · rename_i hpc
    split at h <;> cases h
    rw [hpc]
    rfl
  · rename_i hpc
    split at h <;> cases h
    rw [hpc]
    rfl
  all_goals
    rename_i hpc
    first
    | (cases h; rw [hpc]; rfl)
    | (split at h <;> cases h; rw [hpc]; rfl)
    | cases h

theorem Link.run_queued {l l' : Link} {rka : Option RemoteKeyAndAddr} (h : l.run tr own rka = some l') : l'.queued = l.queued := by
  have hm := run_msgs (Link.run_socket h)
  rw [Link.queued, Link.queued, hm]
  unfold Link.run at h
  split at h
  · cases h
  · split at h
    · rename_i c hpc
      cases h
      rw [hpc]
      rfl
    · rename_i buf hpc
      cases h
      rw [hpc]
      simp [Link.post, Pc.msgs, Call.msgs]
    · rename_i msg buf hpc
      rw [(Link.post_msg_eq h).2.2.1, hpc]
      simp [Pc.msgs, Call.msgs]
    · rename_i buf hpc
      rw [(Link.post_msg_eq h).2.2.1, hpc]
      simp [Pc.msgs]
    · rename_i h1 h2 h3 h4
      cases h
      rcases hpc : l.socket.pc with _ | c | ⟨c, buf⟩ | _ | buf | _ | _
      case polling => exact absurd hpc (h1 c)
      case cleared => exact absurd hpc (h4 buf)
      case holding =>
        cases c with
        | send_msg msg => exact absurd hpc (h3 msg buf)
        | send_rka => exact absurd hpc (h2 buf)
        | read => rfl
        | send_close => rfl
      all_goals rfl

theorem Link.complete_queued {l l' : Link} (h : l.complete tr = some l') : l'.queued = l.queued := by
  unfold Link.complete at h
  split at h
  · cases h
  · obtain ⟨s, hs, rfl⟩ := Option.map_eq_some_iff.mp h
    simp only [Verbs.step] at hs
    split at hs <;> cases hs
    rfl

theorem Receives.sender {l l' : Link} (hr : Receives tr l l') : l'.socket = l.socket ∧ l'.rka_sent = l.rka_sent := by
  cases hr with
  | land hl =>
    obtain ⟨m, n, rfl⟩ := Link.land_eq hl
    exact ⟨rfl, rfl⟩
  | notify hl =>
    obtain ⟨rs, bufs, buf, rfl⟩ := Link.notify_eq hl
    exact ⟨rfl, rfl⟩
  | recv_rka hl =>
    unfold Link.recv_rka at hl
    split at hl <;> cases hl
    exact ⟨rfl, rfl⟩
  | recv_header hl =>
    unfold Link.recv_header at hl
    split at hl <;> cases hl
    exact ⟨rfl, rfl⟩
  | get_body hl =>
    unfold Link.get_body at hl
    split at hl <;> cases hl
    exact ⟨rfl, rfl⟩
  | clear_msg_buf hl =>
    unfold Link.clear_msg_buf at hl
    split at hl <;> cases hl
    exact ⟨rfl, rfl⟩

theorem Receives.socket {l l' : Link} (hr : Receives tr l l') : l'.socket = l.socket := hr.sender.1

theorem Receives.rka_sent {l l' : Link} (hr : Receives tr l l') : l'.rka_sent = l.rka_sent := hr.sender.2

theorem Receives.queued {l l' : Link} (hr : Receives tr l l') : l'.queued = l.queued := by
  rw [Link.queued, Link.queued, hr.socket, hr.kept.1]

/-! ## A step of the connection -/

open RDMAWriteSocket (Side)

namespace Connection

variable {rkeys : Side → UInt32} {s s' : State}

/-- What the step tells the sender to `d` to send. -/
def Act.msgs (d : Side) : Act → List Message
  | .call d' c => if d' = d then c.msgs else []
  | _ => []

/-- One link changes, by what is queued on it and received. -/
theorem link_step {d : Side} {l : Link} (ms : List Message) (hq : l.queued = (s.link d).queued ++ ms)
    (hr : (s.link d).received.length ≤ l.received.length) (d' : Side) :
    ((s.set d l).link d').queued = (s.link d').queued ++ (if d = d' then ms else []) ∧
    (s.link d').received.length ≤ ((s.set d l).link d').received.length := by
  by_cases e : d' = d
  · subst e
    rw [link_set_self, if_pos rfl]
    exact ⟨hq, hr⟩
  · rw [link_set_ne s l e, if_neg (Ne.symm e), List.append_nil]
    exact ⟨rfl, le_rfl⟩

theorem receives_link {d : Side} {l : Link} (hr : Receives tr (s.link d) l) (d' : Side) :
    ((s.set d l).link d').queued = (s.link d').queued ++ [] ∧
    (s.link d').received.length ≤ ((s.set d l).link d').received.length := by
  have h := link_step [] (by rw [hr.queued, List.append_nil]) hr.kept.2.1 d'
  simpa using h

theorem step_link {a : Act} (h : step tr rkeys s a = some s') (d : Side) :
    (s'.link d).queued = (s.link d).queued ++ a.msgs d ∧ (s.link d).received.length ≤ (s'.link d).received.length := by
  cases a with
  | call d' c =>
    obtain ⟨l, hl, rfl⟩ := Option.map_eq_some_iff.mp h
    exact link_step _ (Link.call_queued hl) (by rw [(Link.call_eq hl).2.1]) d
  | run d' =>
    obtain ⟨l, hl, rfl⟩ := Option.map_eq_some_iff.mp h
    have := link_step [] (by rw [Link.run_queued hl, List.append_nil]) (by rw [(Link.run_eq hl).1]) d
    simpa [Act.msgs] using this
  | complete d' =>
    obtain ⟨l, hl, rfl⟩ := Option.map_eq_some_iff.mp h
    have := link_step [] (by rw [Link.complete_queued hl, List.append_nil]) (by rw [(Link.complete_eq hl).2.1]) d
    simpa [Act.msgs] using this
  | land d' k =>
    obtain ⟨l, hl, rfl⟩ := Option.map_eq_some_iff.mp h
    exact receives_link (show Receives tr _ _ from .land hl) d
  | notify d' =>
    obtain ⟨l, hl, rfl⟩ := Option.map_eq_some_iff.mp h
    exact receives_link (show Receives tr _ _ from .notify hl) d
  | recv_rka d' =>
    simp only [step] at h
    split at h
    · obtain ⟨l, hl, rfl⟩ := Option.map_eq_some_iff.mp h
      exact receives_link (show Receives tr _ _ from .recv_rka hl) d
    · cases h
  | recv_header d' =>
    obtain ⟨l, hl, rfl⟩ := Option.map_eq_some_iff.mp h
    exact receives_link (show Receives tr _ _ from .recv_header hl) d
  | get_body d' =>
    obtain ⟨l, hl, rfl⟩ := Option.map_eq_some_iff.mp h
    exact receives_link (show Receives tr _ _ from .get_body hl) d
  | clear_msg_buf d' =>
    obtain ⟨l, hl, rfl⟩ := Option.map_eq_some_iff.mp h
    exact receives_link (.clear_msg_buf hl) d

/-- A message received is one queued, and fits. -/
theorem received_get (hi : Inv tr rkeys s) (d : Side) {i : Nat} {x : RawHeader × List UInt8}
    (hx : (s.link d).received[i]? = some x) :
    ∃ m, (s.link d).queued[i]? = some m ∧ x = m.delivered ∧ m.body.length ≤ PACKET_SIZE := by
  obtain ⟨done, cur, ready, flying, h⟩ := hi.link d
  have hm := hx
  rw [h.received, List.getElem?_map] at hm
  obtain ⟨m, hd, rfl⟩ := Option.map_eq_some_iff.mp hm
  have hsent : (msgs (s.link d).sent)[i]? = some m := by
    rw [h.sent, msgs_append, List.getElem?_append_left (List.getElem?_eq_some_iff.mp hd).1]
    exact hd
  refine ⟨m, ?_, rfl, ?_⟩
  · rw [Link.queued, List.getElem?_append_left (List.getElem?_eq_some_iff.mp hsent).1]
    exact hsent
  · obtain ⟨p, hp, hpm⟩ := List.mem_filterMap.mp (List.mem_of_getElem? hsent)
    cases p with
    | rka r => cases hpm
    | msg m' =>
      cases hpm
      have hf : Fits tr.mark m := h.fits _ hp
      simp only [Fits, PACKET_SIZE] at hf ⊢
      omega

theorem received_length (hi : Inv tr rkeys s) (d : Side) :
    (s.link d).received.length ≤ (msgs (s.link d).sent).length ∧
    (msgs (s.link d).sent).length + (s.link d).socket.pc.msgs.length = (s.link d).queued.length := by
  obtain ⟨done, cur, ready, flying, h⟩ := hi.link d
  have := h.received_eq.2
  exact ⟨by omega, (List.length_append ..).symm⟩

theorem posts_pending {l : Link} (h : l.Posts) : l.socket.pc.msgs.length = 1 := by
  unfold Link.Posts at h
  split at h
  · rename_i hpc
    rw [hpc]
    rfl
  · rename_i hpc
    rw [hpc]
    rfl
  · cases h

end Connection

end RampRdma.Verbs

namespace RampRdma.Session

open Machine Calls
open RDMAWriteSocket (Side)
open Verbs (Transport)

/-! ## The two ends -/

inductive Caller (Req : Type) where
  | ready
  /-- In `send`, or in the `recv` behind it. -/
  | waiting (r : Req)
  /-- In `send_close`. -/
  | closed
  deriving DecidableEq

inductive Executor (Req : Type) where
  | loop
  | serving (r : Req)
  | ended
  deriving DecidableEq

structure State (Req Ans : Type) where
  net : Verbs.State
  caller : Caller Req := .ready
  executor : Executor Req := .loop
  caller_unpk : List UInt8 := []
  executor_unpk : List UInt8 := []
  /-- The messages the executor has received, and the caller. -/
  taken : Nat := 0
  got : Nat := 0
  /-- Ghosts: what was served, and the calls that have returned. -/
  served : List (Req × Ans) := []
  results : List (Req × Ans) := []

inductive Act (Req Ans Vars : Type) where
  | ask (r : Req)
  | close
  | take
  | answer (a : Ans)
  | result (vars : Vars)
  | net (a : Verbs.Connection.Act)

variable {Req Ans Vars : Type} (M : Mode Req Ans Vars) (tr : Transport) (rkeys : Side → UInt32)

def State.init : State Req Ans := { net := .init tr }

/-- The threads send what `ask`, `close` and `answer` tell them, and else the constructors' messages only. -/
def Constructs : Verbs.Connection.Act → Bool
  | .call _ .send_rka => true
  | .call _ _ => false
  | _ => true

def step (s : State Req Ans) : Act Req Ans Vars → Option (State Req Ans)
  | .ask r =>
    match s.caller with
    | .ready =>
      if M.sends r then
        (Verbs.Connection.step tr rkeys s.net (.call .server (.send_msg (M.request r)))).map fun net =>
          { s with net := net, caller := .waiting r }
      else none
    | _ => none
  | .close =>
    match s.caller with
    | .ready => (Verbs.Connection.step tr rkeys s.net (.call .server .send_close)).map fun net => { s with net := net, caller := .closed }
    | _ => none
  | .take =>
    match s.executor, s.net.server.received[s.taken]? with
    | .loop, some (header, body) => some { s with
        executor := match (M.recv s.executor_unpk header body).1 with
          | some r => .serving r
          | none => .ended
        executor_unpk := (M.recv s.executor_unpk header body).2
        taken := s.taken + 1 }
    | _, _ => none
  | .answer a =>
    match s.executor with
    | .serving r =>
      if M.answers r a then
        (Verbs.Connection.step tr rkeys s.net (.call .client (.send_msg (M.answer a)))).map fun net =>
          { s with net := net, executor := .loop, served := s.served ++ [(r, a)] }
      else none
    | _ => none
  | .result vars =>
    match s.caller, s.net.client.received[s.got]? with
    | .waiting r, some (_, body) => some { s with
        caller := .ready
        caller_unpk := (M.result r vars s.caller_unpk body).2
        got := s.got + 1
        results := s.results ++ [(r, (M.result r vars s.caller_unpk body).1)] }
    | _, _ => none
  | .net a =>
    if Constructs a then (Verbs.Connection.step tr rkeys s.net a).map fun net => { s with net := net } else none

/-! ## What a call goes through -/

inductive Phase (Req Ans : Type) where
  | quiet
  | asked (r : Req)
  | serving (r : Req)
  | answered (r : Req) (a : Ans)
  | closing
  | ended

namespace Phase

/-- The requests, and the answers, that are not of a call that has returned. -/
def requests : Phase Req Ans → List Message
  | .quiet => []
  | .asked r | .serving r | .answered r _ => [M.request r]
  | .closing | .ended => [⟨.CLOSE, []⟩]

def answers : Phase Req Ans → List Message
  | .answered _ a => [M.answer a]
  | _ => []

/-- Of the requests, those taken. -/
def taken : Phase Req Ans → Nat
  | .serving _ | .answered _ _ | .ended => 1
  | _ => 0

def served : Phase Req Ans → List (Req × Ans)
  | .answered r a => [(r, a)]
  | _ => []

def caller : Phase Req Ans → Caller Req
  | .quiet => .ready
  | .asked r | .serving r | .answered r _ => .waiting r
  | .closing | .ended => .closed

def executor : Phase Req Ans → Executor Req
  | .serving r => .serving r
  | .ended => .ended
  | _ => .loop

def Sound : Phase Req Ans → Prop
  | .asked r | .serving r => M.sends r = true
  | .answered r a => M.sends r = true ∧ M.answers r a = true
  | _ => True

theorem counts (p : Phase Req Ans) :
    (p.requests M).length ≤ 1 ∧ p.taken ≤ (p.requests M).length ∧ (p.answers M).length ≤ p.taken := by
  cases p <;> simp [requests, taken, answers]

end Phase

structure Inv (s : State Req Ans) (p : Phase Req Ans) : Prop where
  conn : Verbs.Connection.Inv tr rkeys s.net
  caller : s.caller = p.caller
  executor : s.executor = p.executor
  unpk : s.caller_unpk = [] ∧ s.executor_unpk = []
  requests : s.net.server.queued = s.results.map (fun x => M.request x.1) ++ p.requests M
  answers : s.net.client.queued = s.results.map (fun x => M.answer x.2) ++ p.answers M
  taken : s.taken = s.results.length + p.taken ∧ s.taken ≤ s.net.server.received.length
  got : s.got = s.results.length ∧ s.got ≤ s.net.client.received.length
  served : s.served = s.results ++ p.served
  sound : p.Sound M

theorem inv_init : Inv M tr rkeys (.init tr) .quiet where
  conn := Verbs.Connection.inv_init tr rkeys
  caller := rfl
  executor := rfl
  unpk := ⟨rfl, rfl⟩
  requests := by cases tr <;> rfl
  answers := by cases tr <;> rfl
  taken := ⟨rfl, Nat.zero_le _⟩
  got := ⟨rfl, Nat.zero_le _⟩
  served := rfl
  sound := trivial

variable {M tr rkeys} {s s' : State Req Ans} {p : Phase Req Ans}

/-- A request is posted only when all answers have been received, and an answer when its request has. -/
theorem in_turn (hi : Inv M tr rkeys s p) (a : Verbs.Connection.Act) : Verbs.Connection.InTurn tr s.net a := by
  cases a <;> try trivial
  case run d =>
    intro ht hp
    have h1 := Verbs.Connection.received_length hi.conn .server
    have h2 := Verbs.Connection.received_length hi.conn .client
    have hpost := Verbs.Connection.posts_pending hp
    have hc := p.counts M
    have hq := congrArg List.length hi.requests
    have hq' := congrArg List.length hi.answers
    have ht := hi.taken
    have hg := hi.got
    simp only [List.length_append, List.length_map] at hq hq'
    cases d with
    | server =>
      show s.net.client.received.length = (Verbs.msgs s.net.server.sent).length
      simp only [Verbs.State.link] at h1 h2 hpost
      omega
    | client =>
      show s.net.server.received.length = (Verbs.msgs s.net.client.sent).length + 1
      simp only [Verbs.State.link] at h1 h2 hpost
      omega

/-! ## A step, and the phase after it -/

/-- What a step of the connection leaves of the invariant. -/
theorem conn_step (hi : Inv M tr rkeys s p) {a : Verbs.Connection.Act} {net : Verbs.State}
    (h : Verbs.Connection.step tr rkeys s.net a = some net) :
    Verbs.Connection.Inv tr rkeys net ∧
    net.server.queued = s.results.map (fun x => M.request x.1) ++ p.requests M ++ a.msgs .server ∧
    net.client.queued = s.results.map (fun x => M.answer x.2) ++ p.answers M ++ a.msgs .client ∧
    s.taken ≤ net.server.received.length ∧ s.got ≤ net.client.received.length := by
  obtain ⟨h1, h2⟩ := Verbs.Connection.step_link h .server
  obtain ⟨h3, h4⟩ := Verbs.Connection.step_link h .client
  refine ⟨Verbs.Connection.step_inv hi.conn (in_turn hi a) h, ?_, ?_, hi.taken.2.trans h2, hi.got.2.trans h4⟩
  · rw [← hi.requests]
    exact h1
  · rw [← hi.answers]
    exact h3

theorem ask_inv (hi : Inv M tr rkeys s p) {r : Req} (h : step M tr rkeys s (.ask r : Act Req Ans Vars) = some s') :
    p = .quiet ∧ Inv M tr rkeys s' (.asked r) := by
  simp only [step] at h
  split at h
  · rename_i hc
    split at h
    · rename_i hs
      obtain ⟨net, hn, rfl⟩ := Option.map_eq_some_iff.mp h
      obtain rfl : p = .quiet := by
        have := hi.caller
        rw [hc] at this
        cases p <;> first | rfl | cases this
      obtain ⟨h1, h2, h3, h4, h5⟩ := conn_step hi hn
      refine ⟨rfl, h1, rfl, hi.executor, hi.unpk, ?_, ?_, ⟨hi.taken.1, h4⟩, ⟨hi.got.1, h5⟩, hi.served, hs⟩
      · rw [h2]
        simp [Phase.requests, Verbs.Connection.Act.msgs, Verbs.Call.msgs]
      · rw [h3]
        simp [Phase.answers, Verbs.Connection.Act.msgs]
    · cases h
  · cases h

theorem close_inv (hi : Inv M tr rkeys s p) (h : step M tr rkeys s (.close : Act Req Ans Vars) = some s') :
    p = .quiet ∧ Inv M tr rkeys s' .closing := by
  simp only [step] at h
  split at h
  · rename_i hc
    obtain ⟨net, hn, rfl⟩ := Option.map_eq_some_iff.mp h
    obtain rfl : p = .quiet := by
      have := hi.caller
      rw [hc] at this
      cases p <;> first | rfl | cases this
    obtain ⟨h1, h2, h3, h4, h5⟩ := conn_step hi hn
    refine ⟨rfl, h1, rfl, hi.executor, hi.unpk, ?_, ?_, ⟨hi.taken.1, h4⟩, ⟨hi.got.1, h5⟩, hi.served, trivial⟩
    · rw [h2]
      simp [Phase.requests, Verbs.Connection.Act.msgs, Verbs.Call.msgs]
    · rw [h3]
      simp [Phase.answers, Verbs.Connection.Act.msgs]
  · cases h

/-- The message the executor takes is that of the phase. -/
theorem taken_message (hi : Inv M tr rkeys s p) {x : RawHeader × List UInt8} (hx : s.net.server.received[s.taken]? = some x) :
    ∃ m, (p.requests M)[p.taken]? = some m ∧ x = m.delivered ∧ m.body.length ≤ PACKET_SIZE := by
  obtain ⟨m, hm, hd, hfit⟩ := Verbs.Connection.received_get hi.conn .server hx
  have hm : s.net.server.queued[s.taken]? = some m := hm
  rw [hi.requests, hi.taken.1, List.getElem?_append_right (by simp)] at hm
  simp only [List.length_map, Nat.add_sub_cancel_left] at hm
  exact ⟨m, hm, hd, hfit⟩

/-- The message the caller gets is that of the phase. -/
theorem got_message (hi : Inv M tr rkeys s p) {x : RawHeader × List UInt8} (hx : s.net.client.received[s.got]? = some x) :
    ∃ m, (p.answers M)[0]? = some m ∧ x = m.delivered ∧ m.body.length ≤ PACKET_SIZE := by
  obtain ⟨m, hm, hd, hfit⟩ := Verbs.Connection.received_get hi.conn .client hx
  have hm : s.net.client.queued[s.got]? = some m := hm
  rw [hi.answers, hi.got.1, List.getElem?_append_right (by simp)] at hm
  simp only [List.length_map, Nat.sub_self] at hm
  exact ⟨m, hm, hd, hfit⟩

theorem taken_body {r : Req} (hi : Inv M tr rkeys s (.asked r)) {x : RawHeader × List UInt8}
    (hx : s.net.server.received[s.taken]? = some x) : x.2 = (M.request r).body := by
  obtain ⟨m, hm, rfl, -⟩ := taken_message hi hx
  obtain rfl : M.request r = m := by simpa [Phase.requests, Phase.taken] using hm
  rfl

theorem got_body {r : Req} {a : Ans} (hi : Inv M tr rkeys s (.answered r a)) {x : RawHeader × List UInt8}
    (hx : s.net.client.received[s.got]? = some x) : x.2 = (M.answer a).body := by
  obtain ⟨m, hm, rfl, -⟩ := got_message hi hx
  obtain rfl : M.answer a = m := by simpa [Phase.answers] using hm
  rfl

theorem take_inv (hi : Inv M tr rkeys s p) (h : step M tr rkeys s (.take : Act Req Ans Vars) = some s') :
    (∃ r, p = .asked r ∧ Inv M tr rkeys s' (.serving r)) ∨ p = .closing ∧ Inv M tr rkeys s' .ended := by
  simp only [step] at h
  split at h
  · rename_i header body he hx
    cases h
    obtain ⟨m, hm, hd, hfit⟩ := taken_message hi hx
    have hlt := (List.getElem?_eq_some_iff.mp hx).1
    have hp := hi.executor
    rw [he] at hp
    rw [hi.unpk.2]
    cases p with
    | asked r =>
      obtain rfl : M.request r = m := by simpa [Phase.requests, Phase.taken] using hm
      have hrecv : M.recv [] header body = (some r, []) := by
        have := M.recv_request r hi.sound hfit
        rwa [← hd] at this
      rw [hrecv]
      exact .inl ⟨r, rfl, hi.conn, hi.caller, rfl, ⟨hi.unpk.1, rfl⟩, hi.requests, hi.answers,
        ⟨by rw [hi.taken.1]; rfl, hlt⟩, hi.got, hi.served, hi.sound⟩
    | closing =>
      obtain rfl : (⟨.CLOSE, []⟩ : Message) = m := by simpa [Phase.requests, Phase.taken] using hm
      have hrecv : M.recv [] header body = (none, []) := by
        have := M.recv_close
        rw [Prod.ext_iff] at hd
        obtain ⟨rfl, rfl⟩ := hd
        exact this
      rw [hrecv]
      exact .inr ⟨rfl, hi.conn, hi.caller, rfl, ⟨hi.unpk.1, rfl⟩, hi.requests, hi.answers,
        ⟨by rw [hi.taken.1]; rfl, hlt⟩, hi.got, hi.served, trivial⟩
    | quiet => simp [Phase.requests] at hm
    | serving r => cases hp
    | answered r a => simp [Phase.requests, Phase.taken] at hm
    | ended => cases hp
  · cases h

theorem answer_inv (hi : Inv M tr rkeys s p) {a : Ans} (h : step M tr rkeys s (.answer a : Act Req Ans Vars) = some s') :
    ∃ r, p = .serving r ∧ Inv M tr rkeys s' (.answered r a) := by
  simp only [step] at h
  split at h
  · rename_i r he
    split at h
    · rename_i ha
      obtain ⟨net, hn, rfl⟩ := Option.map_eq_some_iff.mp h
      obtain rfl : p = .serving r := by
        have := hi.executor
        rw [he] at this
        cases p <;> cases this
        rfl
      obtain ⟨h1, h2, h3, h4, h5⟩ := conn_step hi hn
      refine ⟨r, rfl, h1, hi.caller, rfl, hi.unpk, ?_, ?_, ⟨hi.taken.1, h4⟩, ⟨hi.got.1, h5⟩, ?_, hi.sound, ha⟩
      · rw [h2]
        simp [Phase.requests, Verbs.Connection.Act.msgs]
      · rw [h3]
        simp [Phase.answers, Verbs.Connection.Act.msgs, Verbs.Call.msgs]
      · show s.served ++ [(r, a)] = _
        rw [hi.served]
        simp [Phase.served]
    · cases h
  · cases h

theorem result_inv (hi : Inv M tr rkeys s p) {vars : Vars} (h : step M tr rkeys s (.result vars) = some s') :
    ∃ r a, p = .answered r a ∧ s'.results = s.results ++ [(r, a)] ∧ Inv M tr rkeys s' .quiet := by
  simp only [step] at h
  split at h
  · rename_i r header body hc hx
    cases h
    obtain ⟨m, hm, hd, hfit⟩ := got_message hi hx
    have hlt := (List.getElem?_eq_some_iff.mp hx).1
    have hp := hi.caller
    rw [hc] at hp
    rw [hi.unpk.1]
    cases p with
    | answered r' a =>
      cases hp
      obtain rfl : M.answer a = m := by simpa [Phase.answers] using hm
      have hres : M.result r vars [] body = (a, []) := by
        have := M.result_answer r a vars hi.sound.2 hfit
        rw [Prod.ext_iff] at hd
        rw [show body = (M.answer a).body from hd.2]
        exact this
      rw [hres]
      refine ⟨r, a, rfl, rfl, hi.conn, rfl, hi.executor, ⟨rfl, hi.unpk.2⟩, ?_, ?_, ⟨?_, hi.taken.2⟩, ⟨?_, hlt⟩, ?_, trivial⟩
      · simp [hi.requests, Phase.requests]
      · simp [hi.answers, Phase.answers]
      · simp [hi.taken.1, Phase.taken]
      · simp [hi.got.1]
      · simp [hi.served, Phase.served]
    | quiet => cases hp
    | asked r' => simp [Phase.answers] at hm
    | serving r' => simp [Phase.answers] at hm
    | closing => cases hp
    | ended => cases hp
  · cases h

theorem net_inv (hi : Inv M tr rkeys s p) {a : Verbs.Connection.Act}
    (h : step M tr rkeys s (.net a : Act Req Ans Vars) = some s') : Inv M tr rkeys s' p := by
  simp only [step] at h
  split at h
  · rename_i hc
    obtain ⟨net, hn, rfl⟩ := Option.map_eq_some_iff.mp h
    obtain ⟨h1, h2, h3, h4, h5⟩ := conn_step hi hn
    have hm : ∀ d, a.msgs d = [] := by
      intro d
      cases a with
      | call d' c =>
        cases c with
        | send_rka => simp [Verbs.Connection.Act.msgs, Verbs.Call.msgs]
        | _ => cases hc
      | _ => rfl
    rw [hm, List.append_nil] at h2 h3
    exact ⟨h1, hi.caller, hi.executor, hi.unpk, h2, h3, ⟨hi.taken.1, h4⟩, ⟨hi.got.1, h5⟩, hi.served, hi.sound⟩
  · cases h

theorem step_inv (hi : Inv M tr rkeys s p) {a : Act Req Ans Vars} (h : step M tr rkeys s a = some s') :
    ∃ p', Inv M tr rkeys s' p' := by
  cases a with
  | ask r => exact ⟨_, (ask_inv hi h).2⟩
  | close => exact ⟨_, (close_inv hi h).2⟩
  | take =>
    rcases take_inv hi h with ⟨r, -, h⟩ | ⟨-, h⟩
    · exact ⟨_, h⟩
    · exact ⟨_, h⟩
  | answer a =>
    obtain ⟨r, -, h⟩ := answer_inv hi h
    exact ⟨_, h⟩
  | result vars =>
    obtain ⟨r, a, -, -, h⟩ := result_inv hi h
    exact ⟨_, h⟩
  | net a => exact ⟨_, net_inv hi h⟩

abbrev Any (_ : State Req Ans) (_ : Act Req Ans Vars) : Prop := True

theorem inv (h : Reach (step M tr rkeys) Any (.init tr) s) : ∃ p, Inv M tr rkeys s p :=
  h.inv (fun s => ∃ p, Inv M tr rkeys s p) ⟨_, inv_init M tr rkeys⟩ fun _ _ _ ⟨_, hi⟩ _ hs => step_inv hi hs

/-- What the handler is given is what the executor answered to what the handler asked, in
    order, and but for the call under way; neither unpacker keeps anything; and the executor
    leaves its loop only when the handler has closed. -/
theorem calls_agree (h : Reach (step M tr rkeys) Any (.init tr) s) :
    s.results <+: s.served ∧ s.served.length ≤ s.results.length + 1 ∧
    (∀ r, s.executor = .serving r → s.caller = .waiting r ∧ s.served = s.results) ∧
    (s.executor = .ended → s.caller = .closed) ∧ s.caller_unpk = [] ∧ s.executor_unpk = [] := by
  obtain ⟨p, hi⟩ := inv h
  have hs := hi.served
  refine ⟨⟨p.served, hs.symm⟩, ?_, fun r he => ?_, fun he => ?_, hi.unpk.1, hi.unpk.2⟩
  · rw [hs, List.length_append]
    cases p <;> simp [Phase.served]
  · rw [hi.executor] at he
    cases p <;> cases he
    exact ⟨hi.caller, by rw [hs]; simp [Phase.served]⟩
  · rw [hi.executor] at he
    cases p <;> cases he
    exact hi.caller

/-- A packet on its way to `d`, from the post to the end of `recv_body`. -/
def packet (d : Side) : List (Act Req Ans Vars) :=
  [.net (.run d), .net (.land d PACKET_SIZE), .net (.notify d), .net (.recv_header d), .net (.get_body d), .net (.clear_msg_buf d)]

instance (s : State Req Ans) (a : Act Req Ans Vars) : Decidable (Any s a) := inferInstanceAs (Decidable True)

theorem calls_agree_locking : ∃ s, Reach (step (locking streaming) .send_recv fun _ => 5) Any (.init .send_recv) s ∧
    s.results = [(.GET "x", .RESULT (.of_key "x"))] ∧ s.results <+: s.served := by
  obtain ⟨s, hs, hp⟩ := reach_any (show (exec (step (locking streaming) .send_recv fun _ => 5) Any (.init .send_recv)
    (.ask (.GET "x") :: packet .server ++ .take :: .answer (.RESULT (.of_key "x")) :: packet .client ++ [.result .empty])).any
    (fun s => decide (s.results = [(LockBased.Request.GET "x", Locking.Answer.RESULT (Item.of_key "x"))])) = true by decide +kernel)
  exact ⟨s, hs, of_decide_eq_true hp, (calls_agree hs).1⟩

end RampRdma.Session
