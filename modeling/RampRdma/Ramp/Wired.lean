/-
  RampRdma.Ramp.Wired — the RAMP-Fast system with its messages as bytes: between each client
  and each server a `Net.Session` over Send/Recv or RDMA Write with immediate data.

  The handlers and executors are those of `Ramp.System`. What an executor serves is what it
  decodes from its connection, and what a handler takes for the answer is what it decodes;
  the hardware and the sockets of all connections take their steps at any time in between.
  An item that is decoded has its values here; `Ramp.Viewed` has what the code has instead,
  views into the unpackers' buffers.
  - `Tied`: where a call of the system is, and where it is on the wire.
  - `Inv.refines`: so whatever the connections do, the handlers and executors go through
    states that they reach with requests and answers handed over as they are.
  - `go_comes`, `serve_comes`, `recv_comes`: and what they can do then comes after some steps
    of one connection.
-/

import Mathlib
import RampRdma.Lib.Machine
import RampRdma.Net.SessionProgress
import RampRdma.Ramp.Progress

namespace RampRdma.Ramp.Wired

open Machine Calls
open RDMAWriteSocket (Side)
open Verbs (Transport)

variable {Obj : Type} (P : Packing Obj) (tr : Transport) (rkeys : Side → UInt32)

/-- `RAMPFastHandler` and `RAMPFastExecutor`, which send no addresses. -/
abbrev mode : Mode Request Answer RAMPFast.Vars := ramp P false 0 0 (by decide)

abbrev Wire := Session.State Request Answer

variable {cp : ConnectionPool} {C : Codec}

/-- All clients run `RAMPFastHandler`. -/
abbrev fast (cp : ConnectionPool) (C : Codec) : Config := ⟨cp, C, fun _ => false⟩

structure State (cp : ConnectionPool) (C : Codec) where
  sys : Ramp.State (fast cp C) := {}
  wires : Nat → cp.Server → Wire

def State.init (cp : ConnectionPool) (C : Codec) : State cp C := { wires := fun _ _ => .init tr }

inductive Act (cp : ConnectionPool) (C : Codec) where
  /-- A handler goes on, up to the end of its `send`, or an executor with what it serves. -/
  | sys (a : Ramp.Act (fast cp C))
  /-- An executor's `recv_header` and `recv_body`. -/
  | take (c : Nat) (srv : cp.Server)
  /-- An executor's `send`. -/
  | answer (c : Nat) (srv : cp.Server)
  /-- A handler's `recv`. -/
  | recv (c : Nat) (srv : cp.Server) (vars : RAMPFast.Vars)
  | net (c : Nat) (srv : cp.Server) (a : Verbs.Connection.Act)

def conn (s : Ramp.State (fast cp C)) (c : Nat) (srv : cp.Server) : Conn := (s.clients c).conns srv

/-- `x` is what is on the connection. -/
def put (s : Ramp.State (fast cp C)) (c : Nat) (srv : cp.Server) (x : Conn) : Ramp.State (fast cp C) :=
  s.set c ((s.clients c).put_conn srv x)

def State.wire (s : State cp C) (c : Nat) (srv : cp.Server) (w : Wire) : State cp C :=
  { s with wires := Function.update s.wires c (Function.update (s.wires c) srv w) }

/-- The connection on which it sends a request. -/
def com : Ramp.Act (fast cp C) → Option (Nat × cp.Server)
  | .prepare c item => some (c, cp.get item.key)
  | .commit c srv => some (c, srv)
  | .ask c key _ | .fetch c key => some (c, cp.get key)
  | _ => none

/-- A handler goes on; where it sends a request, onto the wire. -/
def go (s : State cp C) (a : Ramp.Act (fast cp C)) : Option (State cp C) :=
  match Ramp.step s.sys a with
  | none => none
  | some sys =>
    match com a with
    | none => some { s with sys := sys }
    | some (c, srv) =>
      match conn sys c srv with
      | .asked r => (Session.step (mode P) tr rkeys (s.wires c srv) (.ask r)).map fun w => { s with sys := sys }.wire c srv w
      | _ => none

def step (s : State cp C) : Act cp C → Option (State cp C)
  | .sys (.recv _ _) => none
  | .sys (.serve c srv) =>
    match (s.wires c srv).executor with
    | .serving _ => (Ramp.step s.sys (.serve c srv)).map fun sys => { s with sys := sys }
    | _ => none
  | .sys a => go P tr rkeys s a
  | .take c srv =>
    match Session.step (mode P) tr rkeys (s.wires c srv) .take with
    | none => none
    | some w =>
      match w.executor with
      | .serving r => some ({ s with sys := put s.sys c srv (.asked r) }.wire c srv w)
      | _ => none
  | .answer c srv =>
    match conn s.sys c srv with
    | .answered _ a => (Session.step (mode P) tr rkeys (s.wires c srv) (.answer a)).map (s.wire c srv)
    | _ => none
  | .recv c srv vars =>
    match Session.step (mode P) tr rkeys (s.wires c srv) (.result vars) with
    | none => none
    | some w =>
      match w.results.getLast? with
      | some (r, a) => (Ramp.step (put s.sys c srv (.answered r a)) (.recv c srv)).map fun sys => { s with sys := sys }.wire c srv w
      | none => none
  | .net c srv a => (Session.step (mode P) tr rkeys (s.wires c srv) (.net a)).map (s.wire c srv)

/-! ## What a step of the system does to the connections -/

theorem conn_set (s : Ramp.State (fast cp C)) (c : Nat) (cl : Client cp.Server) (c' : Nat) (srv : cp.Server) :
    conn (s.set c cl) c' srv = if c' = c then cl.conns srv else conn s c' srv := by
  unfold conn Ramp.State.set
  by_cases e : c' = c
  · subst e
    simp
  · simp [e]

theorem conn_put (s : Ramp.State (fast cp C)) (c : Nat) (srv : cp.Server) (x : Conn) (c' : Nat) (srv' : cp.Server) :
    conn (put s c srv x) c' srv' = if c' = c ∧ srv' = srv then x else conn s c' srv' := by
  rw [put, conn_set]
  by_cases e : c' = c
  · subst e
    by_cases e' : srv' = srv
    · subst e'
      simp [Client.put_conn]
    · simp [Client.put_conn, e', conn]
  · simp [e]

theorem put_self {s : Ramp.State (fast cp C)} {c : Nat} {srv : cp.Server} {x : Conn} (h : conn s c srv = x) : put s c srv x = s := by
  subst h
  simp [put, conn, Client.put_conn, Ramp.State.set]

theorem conn_wire (s : State cp C) (c : Nat) (srv : cp.Server) (w : Wire) (c' : Nat) (srv' : cp.Server) :
    (s.wire c srv w).wires c' srv' = if c' = c ∧ srv' = srv then w else s.wires c' srv' := by
  unfold State.wire
  by_cases e : c' = c
  · subst e
    by_cases e' : srv' = srv
    · subst e'
      simp
    · simp [e']
  · simp [e]

/-- A handler's step sends one request on a quiet connection, or touches none. -/
inductive Sends (s s' : Ramp.State (fast cp C)) : Option (Nat × cp.Server) → Prop
  | none : (∀ c srv, conn s' c srv = conn s c srv) → Sends s s' none
  | some {c : Nat} {srv : cp.Server} {r : Request} : conn s c srv = .quiet → RAMPFast.sends false r = true →
      (∀ c' srv', conn s' c' srv' = if c' = c ∧ srv' = srv then .asked r else conn s c' srv') → Sends s s' (some (c, srv))

variable {s s' : Ramp.State (fast cp C)}

/-- With the connections as they were. -/
theorem Sends.same {c : Nat} {cl : Client cp.Server} (hs : s'.clients = Function.update s.clients c cl)
    (h : cl.conns = (s.clients c).conns) : Sends s s' .none := by
  refine .none fun c' srv => ?_
  have hc : conn s' c' srv = conn (s.set c cl) c' srv := by rw [conn, hs]; rfl
  rw [hc, conn_set]
  split
  · rename_i e
    rw [h, e, conn]
  · rfl

theorem Sends.send {c : Nat} {cl : Client cp.Server} {srv : cp.Server} {r : Request} (hq : conn s c srv = .quiet)
    (hr : RAMPFast.sends false r = true) (h : cl.conns = ((s.clients c).put_conn srv (.asked r)).conns) :
    Sends s (s.set c cl) (.some (c, srv)) := by
  refine .some (r := r) hq hr fun c' srv' => ?_
  rw [← conn_put, put, conn_set, conn_set, h]

theorem sys_sends {a : Ramp.Act (fast cp C)} (h : Ramp.step s a = some s') (hr : ∀ c srv, a ≠ .recv c srv)
    (hs : ∀ c srv, a ≠ .serve c srv) : Sends s s' (com a) := by
  cases step_took h with
  | put_all _ => exact .same rfl rfl
  | prepare _ _ hq => exact .send hq rfl rfl
  | begin_commit _ _ => exact .same rfl rfl
  | commit _ _ hq => exact .send hq rfl rfl
  | put_return _ _ => exact .same rfl rfl
  | get_all _ => exact .same rfl rfl
  | @ask c fuel key g todo ret ret' cl _ _ hq ha =>
    simp only [Client.ask, Bool.false_eq_true, if_false] at ha
    cases ha
    exact .send (r := .GET key .empty) hq rfl rfl
  | check _ _ => exact .same rfl rfl
  | skip _ _ => exact .same rfl rfl
  | fetch _ _ hq => exact .send hq rfl rfl
  | get_return _ _ => exact .same rfl rfl
  | recv_put _ => exact absurd rfl (hr _ _)
  | recv_first _ _ => exact absurd rfl (hr _ _)
  | recv_second _ _ => exact absurd rfl (hr _ _)
  | clear _ => exact .same rfl rfl
  | serve _ => exact absurd rfl (hs _ _)

/-- An executor goes on with its request, and answers what the handler waits for. -/
theorem serve_req {t t' : Table} {x x' : Conn} {r : Request} (h : Ramp.serve C t x = some (t', x')) (hx : x.req = some r) :
    x'.req = some r ∧ ∀ r' a, x' = .answered r' a → r = r' ∧ (RAMPFast.sends false r = true → RAMPFast.answers r a = true) := by
  unfold Ramp.serve at h
  split at h
  all_goals first | cases h | skip
  all_goals try (split at h <;> cases h)
  all_goals
    cases hx
    refine ⟨rfl, fun r' a e => ?_⟩
    cases e
    try exact ⟨rfl, fun _ => rfl⟩
  all_goals exact ⟨rfl, fun h => by cases h⟩

/-! ## A call in the system and on the wire -/

/-- The phase a call is in on the wire, and what the system has on the connection. -/
def Tied : Session.Phase Request Answer → Conn → Prop
  | .quiet, x => x = .quiet
  | .asked r, x => x = .asked r
  | .serving r, x => x.req = some r ∧
      ∀ r' a, x = .answered r' a → r = r' ∧ (RAMPFast.sends false r = true → RAMPFast.answers r a = true)
  | .answered r a, x => x = .answered r a
  | .closing, _ | .ended, _ => False

structure Inv (s : State cp C) : Prop where
  reach : Reachable s.sys
  tied : ∀ c srv, ∃ p, Session.Inv (mode P) tr rkeys (s.wires c srv) p ∧ Tied p (conn s.sys c srv)
  live : ∀ c srv, Session.Live tr (s.wires c srv)

theorem inv_init : Inv P tr rkeys (.init tr cp C) where
  reach := .init
  tied _ _ := ⟨.quiet, Session.inv_init _ tr rkeys, rfl⟩
  live _ _ := Session.live_init tr

variable {P tr rkeys} {s s' : State cp C}

/-- One connection takes a step, in the system and on the wire. -/
theorem inv_wire (hi : Inv P tr rkeys s) {sys : Ramp.State (fast cp C)} (hr : Reachable sys) {c : Nat} {srv : cp.Server}
    {w : Wire} {p : Session.Phase Request Answer} {x : Conn}
    (hc : ∀ c' srv', conn sys c' srv' = if c' = c ∧ srv' = srv then x else conn s.sys c' srv')
    (hw : Session.Inv (mode P) tr rkeys w p) (hl : Session.Live tr w) (ht : Tied p x) :
    Inv P tr rkeys ({ s with sys := sys }.wire c srv w) := by
  refine ⟨hr, fun c' srv' => ?_, fun c' srv' => ?_⟩
  all_goals
    rw [conn_wire]
    by_cases e : c' = c ∧ srv' = srv
  · have hconn : conn ({ s with sys := sys }.wire c srv w).sys c' srv' = x := (hc c' srv').trans (if_pos e)
    rw [if_pos e, hconn]
    exact ⟨p, hw, ht⟩
  · have hconn : conn ({ s with sys := sys }.wire c srv w).sys c' srv' = conn s.sys c' srv' := (hc c' srv').trans (if_neg e)
    rw [if_neg e, hconn]
    exact hi.tied c' srv'
  · rw [if_pos e]
    exact hl
  · rw [if_neg e]
    exact hi.live c' srv'

/-- Only the wire does. -/
theorem inv_wire_only (hi : Inv P tr rkeys s) {c : Nat} {srv : cp.Server} {w : Wire} {p : Session.Phase Request Answer}
    (hw : Session.Inv (mode P) tr rkeys w p) (hl : Session.Live tr w) (ht : Tied p (conn s.sys c srv)) :
    Inv P tr rkeys (s.wire c srv w) := by
  refine inv_wire hi hi.reach (fun c' srv' => ?_) hw hl ht
  split
  · rename_i e
    rw [e.1, e.2]
  · rfl

theorem tied_quiet {p : Session.Phase Request Answer} (h : Tied p .quiet) : p = .quiet := by
  cases p with
  | quiet => rfl
  | asked r => cases h
  | serving r => cases h.1
  | answered r a => cases h
  | closing => cases h
  | ended => cases h

theorem inv_go (hi : Inv P tr rkeys s) {a : Ramp.Act (fast cp C)} (hr : ∀ c srv, a ≠ .recv c srv)
    (hs : ∀ c srv, a ≠ .serve c srv) (h : go P tr rkeys s a = some s') : Inv P tr rkeys s' := by
  unfold go at h
  split at h
  · cases h
  rename_i sys hsys
  have hreach := hi.reach.step hsys
  have hsend := sys_sends hsys hr hs
  generalize com a = o at h hsend
  cases hsend with
  | none hc =>
    cases h
    exact ⟨hreach, fun c srv => by rw [hc]; exact hi.tied c srv, hi.live⟩
  | @some c srv r hq hr hc =>
    have hx : conn sys c srv = .asked r := by rw [hc, if_pos ⟨rfl, rfl⟩]
    simp only [hx] at h
    obtain ⟨w, hw, rfl⟩ := Option.map_eq_some_iff.mp h
    obtain ⟨p, hp, ht⟩ := hi.tied c srv
    rw [hq] at ht
    obtain rfl := tied_quiet ht
    exact inv_wire hi hreach hc (Session.ask_inv hp hw).2 (Session.step_live hp (hi.live c srv) hw) rfl

theorem inv_serve (hi : Inv P tr rkeys s) {c : Nat} {srv : cp.Server} {sys : Ramp.State (fast cp C)} {r : Request}
    (he : (s.wires c srv).executor = .serving r) (h : Ramp.step s.sys (.serve c srv) = some sys) :
    Inv P tr rkeys { s with sys := sys } := by
  obtain ⟨p, hp, ht⟩ := hi.tied c srv
  have hx := hp.executor
  rw [he] at hx
  cases p <;> cases hx
  cases step_took h with
  | @serve _ _ t x hserve =>
    have hreq := serve_req hserve ht.1
    refine ⟨hi.reach.step h, fun c' srv' => ?_, hi.live⟩
    have hc : ∀ t' : cp.Server → Table,
        conn ({ s.sys.set c ((s.sys.clients c).put_conn srv x) with tables := t' } : Ramp.State (fast cp C)) c' srv' =
          conn (put s.sys c srv x) c' srv' := fun _ => rfl
    show ∃ p, Session.Inv (mode P) tr rkeys (s.wires c' srv') p ∧ Tied p (conn _ c' srv')
    rw [hc, conn_put]
    by_cases e : c' = c ∧ srv' = srv
    · obtain ⟨rfl, rfl⟩ := e
      rw [if_pos ⟨rfl, rfl⟩]
      exact ⟨_, hp, hreq⟩
    · rw [if_neg e]
      exact hi.tied c' srv'

/-- What the executor decodes is what the system has on the connection. -/
theorem inv_take (hi : Inv P tr rkeys s) {c : Nat} {srv : cp.Server} {w : Wire}
    (hw : Session.step (mode P) tr rkeys (s.wires c srv) .take = some w) {r : Request} (he : w.executor = .serving r) :
    put s.sys c srv (.asked r) = s.sys ∧ Inv P tr rkeys (s.wire c srv w) := by
  obtain ⟨p, hp, ht⟩ := hi.tied c srv
  rcases Session.take_inv hp hw with ⟨r', rfl, hp'⟩ | ⟨rfl, -⟩
  · have hr := hp'.executor
    rw [he] at hr
    cases hr
    have ht : conn s.sys c srv = .asked r := ht
    refine ⟨put_self ht, inv_wire_only hi hp' (Session.step_live hp (hi.live c srv) hw) ?_⟩
    rw [ht]
    exact ⟨rfl, fun r' a e => by cases e⟩
  · cases ht

/-- What the handler decodes is what the executor answered. -/
theorem inv_recv (hi : Inv P tr rkeys s) {c : Nat} {srv : cp.Server} {vars : RAMPFast.Vars} {w : Wire}
    (hw : Session.step (mode P) tr rkeys (s.wires c srv) (.result vars) = some w) {r : Request} {a : Answer}
    (hl : w.results.getLast? = some (r, a)) {sys : Ramp.State (fast cp C)}
    (h : Ramp.step (put s.sys c srv (.answered r a)) (.recv c srv) = some sys) :
    Inv P tr rkeys ({ s with sys := sys }.wire c srv w) := by
  obtain ⟨p, hp, ht⟩ := hi.tied c srv
  obtain ⟨r', a', rfl, hres, hp'⟩ := Session.result_inv hp hw
  rw [hres, List.getLast?_concat] at hl
  cases hl
  have ht : conn s.sys c srv = .answered r a := ht
  rw [put_self ht] at h
  refine inv_wire hi (hi.reach.step h) (x := .quiet) (fun c' srv' => ?_) hp' (Session.step_live hp (hi.live c srv) hw) rfl
  rw [← conn_put]
  cases step_took h <;> (rw [conn_put, conn_set]; split <;> simp_all [conn, Client.put_conn, Function.update_apply])

theorem step_inv (hi : Inv P tr rkeys s) {a : Act cp C} (h : step P tr rkeys s a = some s') : Inv P tr rkeys s' := by
  cases a with
  | sys a =>
    by_cases hr : ∃ c srv, a = .recv c srv
    · obtain ⟨c, srv, rfl⟩ := hr
      cases h
    by_cases hs : ∃ c srv, a = .serve c srv
    · obtain ⟨c, srv, rfl⟩ := hs
      simp only [step] at h
      split at h
      · rename_i r he
        obtain ⟨sys, hsys, rfl⟩ := Option.map_eq_some_iff.mp h
        exact inv_serve hi he hsys
      · cases h
    · have hr : ∀ c srv, a ≠ .recv c srv := fun c srv e => hr ⟨c, srv, e⟩
      have hs : ∀ c srv, a ≠ .serve c srv := fun c srv e => hs ⟨c, srv, e⟩
      have hgo : step P tr rkeys s (.sys a) = go P tr rkeys s a := by
        cases a <;> first | rfl | exact absurd rfl (hr _ _) | exact absurd rfl (hs _ _)
      exact inv_go hi hr hs (hgo ▸ h)
  | take c srv =>
    simp only [step] at h
    split at h
    · cases h
    · rename_i w hw
      split at h
      · rename_i r he
        cases h
        obtain ⟨hsys, hinv⟩ := inv_take hi hw he
        rw [hsys]
        exact hinv
      · cases h
  | answer c srv =>
    simp only [step] at h
    split at h
    · rename_i r a hx
      obtain ⟨w, hw, rfl⟩ := Option.map_eq_some_iff.mp h
      obtain ⟨p, hp, ht⟩ := hi.tied c srv
      obtain ⟨r', rfl, hp'⟩ := Session.answer_inv hp hw
      rw [hx] at ht
      refine inv_wire_only hi hp' (Session.step_live hp (hi.live c srv) hw) ?_
      rw [hx, (ht.2 r a rfl).1]
      rfl
    · cases h
  | recv c srv vars =>
    simp only [step] at h
    split at h
    · cases h
    · rename_i w hw
      split at h
      · rename_i r a hl
        obtain ⟨sys, hsys, rfl⟩ := Option.map_eq_some_iff.mp h
        exact inv_recv hi hw hl hsys
      · cases h
  | net c srv a =>
    simp only [step] at h
    obtain ⟨w, hw, rfl⟩ := Option.map_eq_some_iff.mp h
    obtain ⟨p, hp, ht⟩ := hi.tied c srv
    exact inv_wire_only hi (Session.net_inv hp hw) (Session.step_live hp (hi.live c srv) hw) ht

/-- The system never sees the wires: it is in a state that `Ramp.System` reaches, every request
    on it is the one its handler waits for, and what an executor serves is what it was sent. -/
theorem Inv.refines (hi : Inv P tr rkeys s) :
    Reachable s.sys ∧ ∀ c srv r,
      ((conn s.sys c srv).req = some r ↔ (s.wires c srv).caller = .waiting r) ∧
      ((s.wires c srv).executor = .serving r → (s.wires c srv).caller = .waiting r) := by
  refine ⟨hi.reach, fun c srv r => ?_⟩
  obtain ⟨p, hp, ht⟩ := hi.tied c srv
  rw [hp.caller, hp.executor]
  cases p with
  | quiet => rw [show conn s.sys c srv = .quiet from ht]; simp [Conn.req, Session.Phase.caller, Session.Phase.executor]
  | asked r' => rw [show conn s.sys c srv = .asked r' from ht]; simp [Conn.req, Session.Phase.caller, Session.Phase.executor]
  | serving r' => rw [ht.1]; simp [Session.Phase.caller, Session.Phase.executor]
  | answered r' a => rw [show conn s.sys c srv = .answered r' a from ht]; simp [Conn.req, Session.Phase.caller, Session.Phase.executor]
  | closing => cases ht
  | ended => cases ht

/-! ## The wires keep up -/

theorem wire_self (s : State cp C) (c : Nat) (srv : cp.Server) : s.wire c srv (s.wires c srv) = s := by
  simp [State.wire]

theorem wire_wire (s : State cp C) (c : Nat) (srv : cp.Server) (w w' : Wire) : (s.wire c srv w).wire c srv w' = s.wire c srv w' := by
  simp [State.wire]

theorem wires_wire (s : State cp C) (c : Nat) (srv : cp.Server) (w : Wire) : (s.wire c srv w).wires c srv = w := by
  rw [conn_wire, if_pos ⟨rfl, rfl⟩]

variable (P tr rkeys) in
/-- One connection takes some steps, and then `a` is taken. -/
def Comes (s : State cp C) (a : Act cp C) (s' : State cp C) : Prop :=
  ∃ c srv w, Session.Waits (mode P) tr rkeys (s.wires c srv) w ∧ step P tr rkeys (s.wire c srv w) a = some s'

theorem Comes.now {a : Act cp C} (h : step P tr rkeys s a = some s') : Comes P tr rkeys s a s' :=
  ⟨0, ⟨0, cp.nonempty⟩, _, .refl, by rwa [wire_self]⟩

theorem go_comes (hi : Inv P tr rkeys s) {a : Ramp.Act (fast cp C)} (hr : ∀ c srv, a ≠ .recv c srv)
    (hs : ∀ c srv, a ≠ .serve c srv) {sys : Ramp.State (fast cp C)} (h : Ramp.step s.sys a = some sys) :
    ∃ s', Comes P tr rkeys s (.sys a) s' ∧ s'.sys = sys := by
  have hgo : ∀ s : State cp C, step P tr rkeys s (.sys a) = go P tr rkeys s a := by
    intro s
    cases a <;> first | rfl | exact absurd rfl (hr _ _) | exact absurd rfl (hs _ _)
  have hsend := sys_sends h hr hs
  rcases hcom : com a with _ | ⟨c, srv⟩
  · refine ⟨{ s with sys := sys }, .now ?_, rfl⟩
    rw [hgo]
    simp only [go, h, hcom]
  · rw [hcom] at hsend
    cases hsend with
    | @some _ _ r hq hr hc =>
      have hx : conn sys c srv = .asked r := by rw [hc, if_pos ⟨rfl, rfl⟩]
      obtain ⟨p, hp, ht⟩ := hi.tied c srv
      rw [hq] at ht
      obtain rfl := tied_quiet ht
      obtain ⟨w, w', hw, hask⟩ := Session.can_ask hp (hi.live c srv) hr
      refine ⟨{ s with sys := sys }.wire c srv w', ⟨c, srv, w, hw, ?_⟩, rfl⟩
      have hsys : Ramp.step (s.wire c srv w).sys a = some sys := h
      rw [hgo]
      simp only [go, hsys, hcom, hx, wires_wire, hask, Option.map_some]
      exact congrArg some (wire_wire { s with sys := sys } c srv w w')

/-- The executor decodes the request, where it has not. -/
theorem serve_comes (hi : Inv P tr rkeys s) {c : Nat} {srv : cp.Server} {sys : Ramp.State (fast cp C)}
    (hf : ∀ r, (conn s.sys c srv).req = some r → Fits tr.mark ((mode P).request r))
    (h : Ramp.step s.sys (.serve c srv) = some sys) :
    ∃ s', s'.sys = sys ∧ (step P tr rkeys s (.sys (.serve c srv)) = some s' ∨
      ∃ s1, Comes P tr rkeys s (.take c srv) s1 ∧ step P tr rkeys s1 (.sys (.serve c srv)) = some s') := by
  have hserving : ∀ {s : State cp C} {r : Request}, (s.wires c srv).executor = .serving r →
      Ramp.step s.sys (.serve c srv) = some sys → step P tr rkeys s (.sys (.serve c srv)) = some { s with sys := sys } := by
    intro s r he h
    simp only [step, he, h, Option.map_some]
  obtain ⟨p, hp, ht⟩ := hi.tied c srv
  cases p with
  | asked r =>
    have ht : conn s.sys c srv = .asked r := ht
    obtain ⟨w, w', hw, htake, hp'⟩ := Session.request_taken hp (hi.live c srv) (hf r (by rw [ht]; rfl))
    have hstep : step P tr rkeys (s.wire c srv w) (.take c srv) = some (s.wire c srv w') := by
      have he : w'.executor = .serving r := hp'.executor
      have hput : put (s.wire c srv w).sys c srv (.asked r) = s.sys := put_self ht
      simp only [step, wires_wire, htake, he, hput]
      exact congrArg some (wire_wire s c srv w w')
    exact ⟨_, rfl, .inr ⟨_, ⟨c, srv, w, hw, hstep⟩, hserving (r := r) (by rw [wires_wire]; exact hp'.executor) h⟩⟩
  | serving r => exact ⟨_, rfl, .inl (hserving hp.executor h)⟩
  | closing => cases ht
  | ended => cases ht
  | _ =>
    -- nothing to serve
    cases step_took h with
    | serve hserve =>
      rw [show (s.sys.clients c).conns srv = _ from ht] at hserve
      cases hserve

/-- The executor sends the answer, where it has not, and the handler decodes it. -/
theorem recv_comes (hi : Inv P tr rkeys s) {c : Nat} {srv : cp.Server} {sys : Ramp.State (fast cp C)}
    (hf : ∀ r a, conn s.sys c srv = .answered r a → Fits tr.mark ((mode P).answer a))
    (h : Ramp.step s.sys (.recv c srv) = some sys) (vars : RAMPFast.Vars) :
    ∃ s', s'.sys = sys ∧ (Comes P tr rkeys s (.recv c srv vars) s' ∨
      ∃ s1, step P tr rkeys s (.answer c srv) = some s1 ∧ Comes P tr rkeys s1 (.recv c srv vars) s') := by
  obtain ⟨r, a, hx⟩ : ∃ r a, conn s.sys c srv = .answered r a := by
    cases step_took h with
    | recv_put hc => exact ⟨_, _, hc⟩
    | recv_first hc _ => exact ⟨_, _, hc⟩
    | recv_second hc _ => exact ⟨_, _, hc⟩
  have hgot : ∀ {s : State cp C}, Session.Inv (mode P) tr rkeys (s.wires c srv) (.answered r a) → Session.Live tr (s.wires c srv) →
      conn s.sys c srv = .answered r a → Ramp.step s.sys (.recv c srv) = some sys →
      ∃ s', s'.sys = sys ∧ Comes P tr rkeys s (.recv c srv vars) s' := by
    intro s hp hl hx h
    obtain ⟨w, w', hw, hres, hlast⟩ := Session.answer_got hp hl (hf r a ‹_›) vars
    refine ⟨{ s with sys := sys }.wire c srv w', rfl, c, srv, w, hw, ?_⟩
    have hput : put (s.wire c srv w).sys c srv (.answered r a) = s.sys := put_self hx
    simp only [step, wires_wire, hres, hlast, List.getLast?_concat, hput, h, Option.map_some]
    exact congrArg some (wire_wire { s with sys := sys } c srv w w')
  obtain ⟨p, hp, ht⟩ := hi.tied c srv
  rw [hx] at ht
  cases p with
  | serving r' =>
    obtain ⟨hr, hans⟩ := ht
    cases hr
    obtain ⟨w, hw⟩ := Session.can_answer hp (hi.live c srv) hp.executor ((hans r a rfl).2 hp.sound)
    have hstep : step P tr rkeys s (.answer c srv) = some (s.wire c srv w) := by
      simp only [step, hx, hw, Option.map_some]
    have hp' : Session.Inv (mode P) tr rkeys w (.answered r a) := by
      obtain ⟨r', h0, h1⟩ := Session.answer_inv hp hw
      cases h0
      exact h1
    obtain ⟨s', hsys, hs'⟩ := hgot (s := s.wire c srv w) (by rw [wires_wire]; exact hp')
      (by rw [wires_wire]; exact Session.step_live hp (hi.live c srv) hw) hx h
    exact ⟨s', hsys, .inr ⟨_, hstep, hs'⟩⟩
  | answered r' a' =>
    cases ht
    obtain ⟨s', hsys, hs'⟩ := hgot hp (hi.live c srv) hx h
    exact ⟨s', hsys, .inl hs'⟩
  | quiet => cases ht
  | asked r' => cases ht
  | closing => cases ht
  | ended => cases ht

end RampRdma.Ramp.Wired
