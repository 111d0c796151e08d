/-
  RampRdma.NoCC.System — NO_CONCURRENCY_CONTROL: any number of clients that run `NoCCHandler`,
  and the `NoCCExecutor`s of their connections.

  A version lists no keys, and a `get_all` has one round. `Table::prepare` and
  `Table::commit` are taken apart as in `Ramp.System`.
-/

import Mathlib
import RampRdma.Lib.Machine
import RampRdma.Net.Calls
import RampRdma.Ramp.System

namespace RampRdma.NoCC

open Machine
open Ramp (PutAll GetAll Ret)
open Calls.NoCC (Request)

abbrev Answer := Locking.Answer

inductive Conn where
  | quiet
  | asked (r : Request)
  /-- PREPARE: the version is in `items`, its entry not yet invalidated. -/
  | pushed (item : Item)
  /-- COMMIT: the versions not yet looked at. -/
  | walking (ts : Timestamp) (rest : List Item)
  | answered (r : Request) (a : Answer)
  deriving DecidableEq

/-- The next thing the executor of a connection does. -/
def serve (C : Codec) (t : Table) : Conn → Option (Table × Conn)
  | .asked (.PREPARE item) => some ({ t with toStore := t.push_back item }, .pushed item)
  | .pushed item =>
    match t.committed_items.invalidate item.key with
    | .ok c => some ({ t with committed_items := c }, .answered (.PREPARE item) .DONE)
    | .error _ => none
  | .asked (.COMMIT ts) => some (t, .walking ts (t.versions ts))
  | .walking ts (item :: rest) =>
    match t.commit_item C ts item with
    | .ok t => some (t, .walking ts rest)
    | .error _ => none
  | .walking ts [] => some (t, .answered (.COMMIT ts) .DONE)
  | .asked (.GET key) =>
    some ({ t with toStore := (t.get_latest_item key).1 }, .answered (.GET key) (.RESULT (t.get_latest_item key).2))
  | .quiet => none
  | .answered _ _ => none

/-- `Item(key, w.second, ts)` for each `w` of `write_set`. -/
def items (p : PutAll) : List Item :=
  p.trx.write_set.toList.map fun w => { key := w.1, values := w.2, ts := p.ts }

inductive Phase (S : Type) where
  | idle
  | preparing (p : PutAll) (todo : List Item)
  | committing (p : PutAll) (todo : List S)
  | reading (g : GetAll) (todo : List Key) (ret : Ret)

variable {cp : ConnectionPool}

structure Client (cp : ConnectionPool) where
  phase : Phase cp.Server := .idle
  conns : cp.Server → Conn := fun _ => .quiet
  access_coms : List cp.Server := []

structure State (cp : ConnectionPool) where
  tables : cp.Server → Table := fun _ => .init ENTRY_NUM
  clients : Nat → Client cp := fun _ => {}
  puts : List PutAll := []
  prepared : List PutAll := []
  returned : List PutAll := []
  gets : List (GetAll × Ret) := []

inductive Act (cp : ConnectionPool) where
  | put_all (c : Nat) (trx : Transaction) (ts : Timestamp)
  | prepare (c : Nat) (item : Item)
  | begin_commit (c : Nat)
  | commit (c : Nat) (srv : cp.Server)
  | put_return (c : Nat)
  | get_all (c : Nat) (trx : Transaction)
  | ask (c : Nat) (key : Key)
  | get_return (c : Nat)
  | recv (c : Nat) (srv : cp.Server)
  | clear (c : Nat)
  | serve (c : Nat) (srv : cp.Server)

def State.set (s : State cp) (c : Nat) (cl : Client cp) : State cp :=
  { s with clients := Function.update s.clients c cl }

namespace Client

def AllQuiet (cl : Client cp) : Prop := ∀ srv, cl.conns srv = .quiet

instance (cl : Client cp) : Decidable cl.AllQuiet := inferInstanceAs (Decidable (∀ _, _))

def put_conn (cl : Client cp) (srv : cp.Server) (x : Conn) : Client cp :=
  { cl with conns := Function.update cl.conns srv x }

/-- `cp.get(key)`, then `com->send(r)`. -/
def send (cl : Client cp) (key : Key) (r : Request) : Client cp :=
  { cl.put_conn (cp.get key) (.asked r) with access_coms := insert_com cl.access_coms (cp.get key) }

end Client

/-- What `com->recv(&ret[key])` makes of an answer. -/
def take_answer (ret : Ret) : Request → Answer → Option Ret
  | .GET key, .RESULT item => some (ConcurrentMap.set ret key item)
  | _, _ => none

def step (C : Codec) (s : State cp) : Act cp → Option (State cp)
  | .put_all c trx ts =>
    let cl := s.clients c
    match cl.phase with
    | .idle =>
      let p : PutAll := ⟨c, trx, ts⟩
      some { s.set c { cl with phase := .preparing p (items p) } with puts := p :: s.puts }
    | _ => none
  | .prepare c item =>
    let cl := s.clients c
    match cl.phase with
    | .preparing p todo =>
      if item ∈ todo ∧ cl.conns (cp.get item.key) = .quiet then
        some (s.set c { cl.send item.key (.PREPARE item) with phase := .preparing p (todo.erase item) })
      else none
    | _ => none
  | .begin_commit c =>
    let cl := s.clients c
    match cl.phase with
    | .preparing p todo =>
      if todo = [] ∧ cl.AllQuiet then
        some { s.set c { cl with phase := .committing p cl.access_coms } with prepared := p :: s.prepared }
      else none
    | _ => none
  | .commit c srv =>
    let cl := s.clients c
    match cl.phase with
    | .committing p todo =>
      if srv ∈ todo ∧ cl.conns srv = .quiet then
        some (s.set c { cl.put_conn srv (.asked (.COMMIT p.ts)) with phase := .committing p (todo.erase srv) })
      else none
    | _ => none
  | .put_return c =>
    let cl := s.clients c
    match cl.phase with
    | .committing p todo =>
      if todo = [] ∧ cl.AllQuiet then some { s.set c { cl with phase := .idle } with returned := p :: s.returned }
      else none
    | _ => none
  | .get_all c trx =>
    let cl := s.clients c
    match cl.phase with
    | .idle =>
      let g : GetAll := ⟨c, trx, s.returned⟩
      some (s.set c { cl with phase := .reading g g.keys .empty })
    | _ => none
  | .ask c key =>
    let cl := s.clients c
    match cl.phase with
    | .reading g todo ret =>
      if key ∈ todo ∧ cl.conns (cp.get key) = .quiet then
        some (s.set c { cl.send key (.GET key) with phase := .reading g (todo.erase key) ret })
      else none
    | _ => none
  | .get_return c =>
    let cl := s.clients c
    match cl.phase with
    | .reading g todo ret =>
      if todo = [] ∧ cl.AllQuiet then some { s.set c { cl with phase := .idle } with gets := (g, ret) :: s.gets }
      else none
    | _ => none
  | .recv c srv =>
    let cl := s.clients c
    match cl.conns srv with
    | .answered r a =>
      let cl := cl.put_conn srv .quiet
      match cl.phase with
      | .reading g todo ret =>
        match take_answer ret r a with
        | some ret => some (s.set c { cl with phase := .reading g todo ret })
        | none => none
      | _ => some (s.set c cl)
    | _ => none
  | .clear c =>
    let cl := s.clients c
    match cl.phase with
    | .idle => some (s.set c { cl with access_coms := [] })
    | _ => none
  | .serve c srv =>
    let cl := s.clients c
    match NoCC.serve C (s.tables srv) (cl.conns srv) with
    | some (t, x) => some { s.set c (cl.put_conn srv x) with tables := Function.update s.tables srv t }
    | none => none

/-- Any interleaving of any steps. -/
abbrev Any (_ : State cp) (_ : Act cp) : Prop := True

instance (s : State cp) (a : Act cp) : Decidable (Any s a) := inferInstanceAs (Decidable True)

end RampRdma.NoCC
