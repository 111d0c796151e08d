/-
  RampRdma.Ycsb.LockBased — clients and servers of the modes rr, rc and ru of the YCSB copy
  (`LockBasedHandler`, `LockBasedExecutor`, `LockManager`), any number of each.

  The clients are those of `Locking.System`, and so are the locks. An executor keeps the lock
  of a PUT until RELEASE_LOCKS, gives it back at once, or, for a GET, does not take it, as
  the durations say that `server_main` sets: `Config.rr`, `Config.rc`, `Config.ru`.

  `open_puts` and `open_gets` are ghosts: the clients and keys whose table has been accessed
  and whose RELEASE_LOCKS, of the executor of the key, has not come to the key since, nor to
  its end.
-/

import Mathlib
import RampRdma.Lib.Machine
import RampRdma.Locking.System
import RampRdma.Ycsb.Table

namespace RampRdma.Ycsb.LockBased

open Machine Locking

inductive LockDuration where
  | LONG
  | SHORT
  | NONE
  deriving DecidableEq

structure Config where
  write_duration : LockDuration
  read_duration : LockDuration
  deriving DecidableEq

namespace Config

def rr : Config := ⟨.LONG, .LONG⟩

def rc : Config := ⟨.LONG, .SHORT⟩

def ru : Config := ⟨.LONG, .NONE⟩

def duration (cfg : Config) : Request → LockDuration
  | .PUT _ => cfg.write_duration
  | .GET _ => cfg.read_duration

end Config

inductive Conn where
  | quiet
  /-- In `put` or `get`, before the lock. -/
  | asked (r : Request)
  /-- Before the table is accessed. -/
  | locked (r : Request)
  /-- In `Table::put`, between `prepare` and `commit`. -/
  | pushed (item : Item)
  /-- After the table is accessed, before the lock is given back or the key noted. -/
  | accessed (r : Request) (a : Answer)
  | answered (r : Request) (a : Answer)
  | release_locks
  /-- In `LockManager::unlock(access_keys)`. -/
  | unlocking (rest : List Key)
  | released
  deriving DecidableEq

namespace Conn

/-- The PUT or GET a connection carries. -/
def request : Conn → Option Request
  | .asked r => some r
  | .locked r => some r
  | .pushed item => some (.PUT item)
  | .accessed r _ => some r
  | .answered r _ => some r
  | _ => none

/-- The request whose lock, if it takes one, the executor has taken and neither given back nor
    noted. -/
def granted : Conn → Option Request
  | .locked r => some r
  | .pushed item => some (.PUT item)
  | .accessed r _ => some r
  | _ => none

/-- The key whose lock the next step gives back. -/
def unlocks (cfg : Config) : Conn → Option Key
  | .accessed r _ => if cfg.duration r = .SHORT then some r.key else none
  | .unlocking (key :: _) => some key
  | _ => none

end Conn

/-! ## Executors -/

/-- A server: its table, its `LockManager`, and the `access_keys` of the executor of each
    client. -/
structure Node where
  table : Table := {}
  mutex_table : Key → Mutex := fun _ => {}
  access_keys : Nat → OrdSet Key := fun _ => ∅

namespace Node

def set_mutex (n : Node) (key : Key) (m : Mutex) : Node := { n with mutex_table := Function.update n.mutex_table key m }

def set_access (n : Node) (c : Nat) (keys : OrdSet Key) : Node :=
  { n with access_keys := Function.update n.access_keys c keys }

def unlock (n : Node) (c : Nat) (key : Key) : Node := n.set_mutex key ((n.mutex_table key).unlock c)

/-- What `put` and `get` do with the lock after the table. -/
def keep (n : Node) (c : Nat) (key : Key) : LockDuration → Node
  | .SHORT => n.unlock c key
  | .LONG => n.set_access c ((n.access_keys c).insert key)
  | .NONE => n

end Node

/-- The next thing the executor of a connection of client `c` does; `none` while it waits. -/
def serve (cfg : Config) (n : Node) (c : Nat) : Conn → Option (Node × Conn)
  | .asked (.PUT item) =>
    match (n.mutex_table item.key).write_lock c with
    | some m => some (n.set_mutex item.key m, .locked (.PUT item))
    | none => none
  | .asked (.GET key) =>
    if cfg.read_duration = .NONE then some (n, .locked (.GET key)) else
      match (n.mutex_table key).read_lock c with
      | some m => some (n.set_mutex key m, .locked (.GET key))
      | none => none
  | .locked (.PUT item) => some ({ n with table := n.table.prepare item }, .pushed item)
  | .pushed item => some ({ n with table := n.table.commit_key item.key item.ts }, .accessed (.PUT item) .DONE)
  | .locked (.GET key) =>
    some ({ n with table := (n.table.get_latest_item key).1 }, .accessed (.GET key) (.RESULT (n.table.get_latest_item key).2))
  | .accessed r a => some (n.keep c r.key (cfg.duration r), .answered r a)
  | .release_locks => some (n, .unlocking (n.access_keys c).toList)
  | .unlocking (key :: rest) => some (n.unlock c key, .unlocking rest)
  | .unlocking [] => some (n.set_access c ∅, .released)
  | .quiet => none
  | .answered _ _ => none
  | .released => none

/-- Everything `serve` can do. -/
inductive Served (cfg : Config) (n : Node) (c : Nat) : Conn → Node → Conn → Prop
  | write_lock {item : Item} {m : Mutex} : (n.mutex_table item.key).write_lock c = some m →
      Served cfg n c (.asked (.PUT item)) (n.set_mutex item.key m) (.locked (.PUT item))
  | read_lock {key : Key} {m : Mutex} : cfg.read_duration ≠ .NONE → (n.mutex_table key).read_lock c = some m →
      Served cfg n c (.asked (.GET key)) (n.set_mutex key m) (.locked (.GET key))
  | unlocked {key : Key} : cfg.read_duration = .NONE → Served cfg n c (.asked (.GET key)) n (.locked (.GET key))
  | push {item : Item} :
      Served cfg n c (.locked (.PUT item)) { n with table := n.table.prepare item } (.pushed item)
  | put {item : Item} : Served cfg n c (.pushed item) { n with table := n.table.commit_key item.key item.ts }
      (.accessed (.PUT item) .DONE)
  | get {key : Key} : Served cfg n c (.locked (.GET key)) { n with table := (n.table.get_latest_item key).1 }
      (.accessed (.GET key) (.RESULT (n.table.get_latest_item key).2))
  | keep {r : Request} {a : Answer} : Served cfg n c (.accessed r a) (n.keep c r.key (cfg.duration r)) (.answered r a)
  | release : Served cfg n c .release_locks n (.unlocking (n.access_keys c).toList)
  | unlock {key : Key} {rest : List Key} : Served cfg n c (.unlocking (key :: rest)) (n.unlock c key) (.unlocking rest)
  | released : Served cfg n c (.unlocking []) (n.set_access c ∅) .released

theorem serve_cases {cfg : Config} {n n' : Node} {c : Nat} {x x' : Conn} (h : serve cfg n c x = some (n', x')) :
    Served cfg n c x n' x' := by
  unfold serve at h
  split at h
  · split at h <;> cases h
    rename_i hm
    exact .write_lock hm
  · split at h
    · rename_i hd
      cases h
      exact .unlocked hd
    · rename_i hd
      split at h <;> cases h
      rename_i hm
      exact .read_lock hd hm
  · cases h; exact .push
  · cases h; exact .put
  · cases h; exact .get
  · cases h; exact .keep
  · cases h; exact .release
  · cases h; exact .unlock
  · cases h; exact .released
  · cases h
  · cases h
  · cases h

/-! ## Clients -/

structure Client (S : Type) where
  phase : Phase S := .idle
  conns : S → Conn := fun _ => .quiet
  access_coms : List S := []

variable (cp : ConnectionPool)

/-- What a client does. -/
inductive Move where
  | put_all (trx : Transaction) (ts : Timestamp)
  | get_all (trx : Transaction)
  | send
  | recv (srv : cp.Server)
  | release
  | send_release (srv : cp.Server)
  | return_all
  | clear

structure State where
  nodes : cp.Server → Node := fun _ => {}
  clients : Nat → Client cp.Server := fun _ => {}
  open_puts : List (Nat × Key) := []
  open_gets : List (Nat × Key) := []

inductive Act where
  | client (c : Nat) (m : Move cp)
  | serve (c : Nat) (srv : cp.Server)

variable {cp}

namespace Client

def AllQuiet (cl : Client cp.Server) : Prop := ∀ srv, cl.conns srv = .quiet

instance (cl : Client cp.Server) : Decidable cl.AllQuiet := inferInstanceAs (Decidable (∀ _, _))

def put_conn (cl : Client cp.Server) (srv : cp.Server) (x : Conn) : Client cp.Server :=
  { cl with conns := Function.update cl.conns srv x }

/-- `cp.get(key)`, then `com->send(r)`. -/
def send (cl : Client cp.Server) (r : Request) : Client cp.Server :=
  { cl.put_conn (cp.get r.key) (.asked r) with access_coms := insert_com cl.access_coms (cp.get r.key) }

def move (c : Nat) (cl : Client cp.Server) : Move cp → Option (Client cp.Server)
  | .put_all trx ts =>
    match cl.phase with
    | .idle => some { cl with phase := .sending (.put ⟨c, trx, ts⟩) (Trx.put ⟨c, trx, ts⟩).requests ∅ }
    | _ => none
  | .get_all trx =>
    match cl.phase with
    | .idle => some { cl with phase := .sending (.get ⟨c, trx⟩) (Trx.get ⟨c, trx⟩).requests ∅ }
    | _ => none
  | .send =>
    match cl.phase with
    | .sending _ (r :: _) _ => if cl.AllQuiet then some (cl.send r) else none
    | _ => none
  | .recv srv =>
    match cl.conns srv, cl.phase with
    | .answered r a, .sending t (_ :: todo) ret =>
      some { cl.put_conn srv .quiet with phase := .sending t todo (take_answer ret r a) }
    | .released, .releasing _ _ _ => some (cl.put_conn srv .quiet)
    | _, _ => none
  | .release =>
    match cl.phase with
    | .sending t [] ret => if cl.AllQuiet then some { cl with phase := .releasing t ret cl.access_coms } else none
    | _ => none
  | .send_release srv =>
    match cl.phase with
    | .releasing t ret todo =>
      if srv ∈ todo ∧ cl.conns srv = .quiet then
        some { cl.put_conn srv .release_locks with phase := .releasing t ret (todo.erase srv) }
      else none
    | _ => none
  | .return_all =>
    match cl.phase with
    | .releasing _ _ [] => if cl.AllQuiet then some { cl with phase := .idle } else none
    | _ => none
  | .clear =>
    match cl.phase with
    | .idle => some { cl with access_coms := [] }
    | _ => none

/-- What a client can do to one of its connections. -/
inductive Moved (srv : cp.Server) : Conn → Conn → Prop
  | same {x : Conn} : Moved srv x x
  | asked {r : Request} : cp.get r.key = srv → Moved srv .quiet (.asked r)
  | answered {r : Request} {a : Answer} : Moved srv (.answered r a) .quiet
  | release_locks : Moved srv .quiet .release_locks
  | released : Moved srv .released .quiet

theorem moved_put {cl : Client cp.Server} {srv : cp.Server} {x : Conn} (h : Moved srv (cl.conns srv) x) (srv' : cp.Server) :
    Moved srv' (cl.conns srv') ((cl.put_conn srv x).conns srv') := by
  show Moved srv' _ (Function.update cl.conns srv x srv')
  by_cases e : srv' = srv
  · subst e
    rwa [Function.update_self]
  · rw [Function.update_of_ne e]
    exact .same

theorem move_cases {c : Nat} {cl cl' : Client cp.Server} {m : Move cp} (h : cl.move c m = some cl') (srv : cp.Server) :
    Moved srv (cl.conns srv) (cl'.conns srv) := by
  cases m with
  | put_all trx ts =>
    simp only [move] at h
    split at h <;> cases h
    exact .same
  | get_all trx =>
    simp only [move] at h
    split at h <;> cases h
    exact .same
  | send =>
    simp only [move] at h
    split at h
    · rename_i r _ _ _
      split at h <;> cases h
      rename_i hq
      refine moved_put ?_ srv
      rw [hq]
      exact .asked rfl
    · cases h
  | recv srv' =>
    simp only [move] at h
    split at h <;> cases h
    · rename_i hx _
      refine moved_put ?_ srv
      rw [hx]
      exact .answered
    · rename_i hx _
      refine moved_put ?_ srv
      rw [hx]
      exact .released
  | release =>
    simp only [move] at h
    split at h
    · split at h <;> cases h
      exact .same
    · cases h
  | send_release srv' =>
    simp only [move] at h
    split at h
    · split at h <;> cases h
      rename_i hq
      refine moved_put ?_ srv
      rw [hq.2]
      exact .release_locks
    · cases h
  | return_all =>
    simp only [move] at h
    split at h
    · split at h <;> cases h
      exact .same
    · cases h
  | clear =>
    simp only [move] at h
    split at h <;> cases h
    exact .same

end Client

/-! ## Steps -/

namespace State

def set (s : State cp) (c : Nat) (cl : Client cp.Server) : State cp :=
  { s with clients := Function.update s.clients c cl }

/-- What the next step of an executor at `srv` does to the ghosts. -/
def mark (s : State cp) (c : Nat) (srv : cp.Server) : Conn → State cp
  | .locked (.PUT item) => { s with open_puts := (c, item.key) :: s.open_puts }
  | .locked (.GET key) => { s with open_gets := (c, key) :: s.open_gets }
  | .unlocking (key :: _) =>
    { s with open_puts := s.open_puts.filter (· ≠ (c, key)), open_gets := s.open_gets.filter (· ≠ (c, key)) }
  | .unlocking [] =>
    { s with
      open_puts := s.open_puts.filter fun p => ¬ (p.1 = c ∧ cp.get p.2 = srv)
      open_gets := s.open_gets.filter fun p => ¬ (p.1 = c ∧ cp.get p.2 = srv) }
  | _ => s

end State

def step (cfg : Config) (s : State cp) : Act cp → Option (State cp)
  | .client c m => ((s.clients c).move c m).map (s.set c)
  | .serve c srv =>
    match LockBased.serve cfg (s.nodes srv) c ((s.clients c).conns srv) with
    | some (n, x) =>
      some { (s.mark c srv ((s.clients c).conns srv)).set c ((s.clients c).put_conn srv x) with
        nodes := Function.update s.nodes srv n }
    | none => none

/-- The states that any interleaving of any steps leads to. -/
def Reachable (cfg : Config) (s : State cp) : Prop := Reach (step cfg) (fun _ _ => True) {} s

end RampRdma.Ycsb.LockBased
