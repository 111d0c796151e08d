/-
  RampRdma.Locking.System — clients and servers of the TWO_PHASE_LOCKING mode
  (`LockBasedHandler`, `LockBasedExecutor`, `LockManager`), any number of each.

  A transaction sends its PUTs or GETs one after the other, in the order of its keys
  (`Trx.requests`; a `std::map` is iterated in key order), each to the server of its key,
  and waits for the answer; then it sends RELEASE_LOCKS to all servers it has used, in any
  order, and waits for all of them. An executor stays in `put` or `get` (`asked`) until
  the lock of the key is granted to its client.

  A lock is a readers–writer lock (`RwLock`) whose owners are the clients: a client has one
  executor at each server, and a key one server. The table is a `Store`: nothing in this
  mode reads the cache, and what a full cache does to `Table::put` is the matter of
  `Server.Exhaustion`.

  `puts`, `finished` and `completed` are ghosts: the `put_all`s started, the transactions
  past their last answer, and the ones that have returned, each with what it read.
-/

import Mathlib
import RampRdma.Data
import RampRdma.Lib.RwLock
import RampRdma.Server.Table

namespace RampRdma.Locking

/-- PUT and GET; RELEASE_LOCKS carries nothing. -/
inductive Request where
  | PUT (item : Item)
  | GET (key : Key)
  deriving DecidableEq

def Request.key : Request → Key
  | .PUT item => item.key
  | .GET key => key

inductive Answer where
  | DONE
  | RESULT (item : Item)
  deriving DecidableEq

inductive Conn where
  | quiet
  /-- In `put` or `get`, the lock not yet granted. -/
  | asked (r : Request)
  | locked (r : Request)
  /-- In `Table::put`, between `prepare` and `commit`. -/
  | pushed (item : Item)
  | answered (r : Request) (a : Answer)
  | release_locks
  /-- In `LockManager::unlock(access_keys)`. -/
  | unlocking (rest : List Key)
  | released
  deriving DecidableEq

/-- The PUT or GET a connection carries. -/
def Conn.request : Conn → Option Request
  | .asked r => some r
  | .locked r => some r
  | .pushed item => some (.PUT item)
  | .answered r _ => some r
  | _ => none

/-! ## Executors -/

abbrev Mutex := RwLock Nat

/-- A server: its table, its `LockManager`, and the `access_keys` of the executor of each
    client. -/
structure Node where
  table : Store := {}
  mutex_table : Key → Mutex := fun _ => {}
  access_keys : Nat → OrdSet Key := fun _ => ∅

namespace Node

def set_mutex (n : Node) (key : Key) (m : Mutex) : Node := { n with mutex_table := Function.update n.mutex_table key m }

def set_access (n : Node) (c : Nat) (keys : OrdSet Key) : Node :=
  { n with access_keys := Function.update n.access_keys c keys }

end Node

/-- The next thing the executor of a connection of client `c` does; `none` while it waits. -/
def serve (n : Node) (c : Nat) : Conn → Option (Node × Conn)
  | .asked (.PUT item) =>
    match (n.mutex_table item.key).write_lock c with
    | some m => some (n.set_mutex item.key m, .locked (.PUT item))
    | none => none
  | .asked (.GET key) =>
    match (n.mutex_table key).read_lock c with
    | some m => some (n.set_mutex key m, .locked (.GET key))
    | none => none
  | .locked (.PUT item) => some ({ n with table := n.table.push_back item }, .pushed item)
  | .pushed item =>
    some ({ n with table := n.table.commit_key item.key item.ts }.set_access c ((n.access_keys c).insert item.key),
      .answered (.PUT item) .DONE)
  | .locked (.GET key) =>
    some ({ n with table := (n.table.get_latest_item key).1 }.set_access c ((n.access_keys c).insert key),
      .answered (.GET key) (.RESULT (n.table.get_latest_item key).2))
  | .release_locks => some (n, .unlocking (n.access_keys c).toList)
  | .unlocking (key :: rest) => some (n.set_mutex key ((n.mutex_table key).unlock c), .unlocking rest)
  | .unlocking [] => some (n.set_access c ∅, .released)
  | .quiet => none
  | .answered _ _ => none
  | .released => none

/-- Everything `serve` can do. -/
inductive Served (n : Node) (c : Nat) : Conn → Node → Conn → Prop
  | write_lock {item : Item} {m : Mutex} : (n.mutex_table item.key).write_lock c = some m →
      Served n c (.asked (.PUT item)) (n.set_mutex item.key m) (.locked (.PUT item))
  | read_lock {key : Key} {m : Mutex} : (n.mutex_table key).read_lock c = some m →
      Served n c (.asked (.GET key)) (n.set_mutex key m) (.locked (.GET key))
  | push {item : Item} : Served n c (.locked (.PUT item)) { n with table := n.table.push_back item } (.pushed item)
  | put {item : Item} : Served n c (.pushed item)
      ({ n with table := n.table.commit_key item.key item.ts }.set_access c ((n.access_keys c).insert item.key))
      (.answered (.PUT item) .DONE)
  | get {key : Key} : Served n c (.locked (.GET key))
      ({ n with table := (n.table.get_latest_item key).1 }.set_access c ((n.access_keys c).insert key))
      (.answered (.GET key) (.RESULT (n.table.get_latest_item key).2))
  | release : Served n c .release_locks n (.unlocking (n.access_keys c).toList)
  | unlock {key : Key} {rest : List Key} : Served n c (.unlocking (key :: rest))
      (n.set_mutex key ((n.mutex_table key).unlock c)) (.unlocking rest)
  | released : Served n c (.unlocking []) (n.set_access c ∅) .released

theorem serve_cases {n n' : Node} {c : Nat} {x x' : Conn} (h : serve n c x = some (n', x')) : Served n c x n' x' := by
  unfold serve at h
  split at h
  · split at h <;> cases h
    rename_i hm
    exact .write_lock hm
  · split at h <;> cases h
    rename_i hm
    exact .read_lock hm
  · cases h; exact .push
  · cases h; exact .put
  · cases h; exact .get
  · cases h; exact .release
  · cases h; exact .unlock
  · cases h; exact .released
  · cases h
  · cases h
  · cases h

/-! ## Clients -/

structure PutAll where
  client : Nat
  trx : Transaction
  ts : Timestamp
  deriving DecidableEq

/-- `Item(key, w.second, ts)` for each `w` of `write_set`. -/
def PutAll.items (p : PutAll) : List Item :=
  p.trx.write_set.toList.map fun w => { key := w.1, values := w.2, ts := p.ts }

structure GetAll where
  client : Nat
  trx : Transaction
  deriving DecidableEq

def GetAll.keys (g : GetAll) : List Key := g.trx.read_set.keys

inductive Trx where
  | put (p : PutAll)
  | get (g : GetAll)
  deriving DecidableEq

/-- What the loop of `put_all` or `get_all` sends. -/
def Trx.requests : Trx → List Request
  | .put p => p.items.map .PUT
  | .get g => g.keys.map .GET

abbrev Ret := Map Key Item

/-- `ret[key]`. -/
def Ret.at (ret : Ret) (key : Key) : Item := ret[key]?.getD .empty

/-- `com->recv()` after a PUT, `com->recv(&ret[key])` after a GET. -/
def take_answer (ret : Ret) : Request → Answer → Ret
  | .GET key, .RESULT item => ret.insert key item
  | _, _ => ret

inductive Phase (S : Type) where
  | idle
  /-- `todo`: what is not answered, the first of it perhaps sent. -/
  | sending (t : Trx) (todo : List Request) (ret : Ret)
  /-- `todo`: the servers not yet sent RELEASE_LOCKS. -/
  | releasing (t : Trx) (ret : Ret) (todo : List S)

def Phase.trx {S : Type} : Phase S → Option Trx
  | .idle => none
  | .sending t _ _ => some t
  | .releasing t _ _ => some t

structure Client (S : Type) where
  phase : Phase S := .idle
  conns : S → Conn := fun _ => .quiet
  access_coms : List S := []

/-! ## Steps -/

variable (cp : ConnectionPool)

structure State where
  nodes : cp.Server → Node := fun _ => {}
  clients : Nat → Client cp.Server := fun _ => {}
  puts : List PutAll := []
  finished : List (Trx × Ret) := []
  completed : List (Trx × Ret) := []

inductive Act where
  | put_all (c : Nat) (trx : Transaction) (ts : Timestamp)
  | get_all (c : Nat) (trx : Transaction)
  | send (c : Nat)
  | recv (c : Nat) (srv : cp.Server)
  | release (c : Nat)
  | send_release (c : Nat) (srv : cp.Server)
  | return_all (c : Nat)
  | clear (c : Nat)
  | serve (c : Nat) (srv : cp.Server)

/-- Not the start of a transaction, and not what a client does between two of them. -/
def Act.Goes : Act cp → Prop
  | .put_all _ _ _ => False
  | .get_all _ _ => False
  | .clear _ => False
  | _ => True

variable {cp}

def State.set (s : State cp) (c : Nat) (cl : Client cp.Server) : State cp :=
  { s with clients := Function.update s.clients c cl }

namespace Client

def AllQuiet (cl : Client cp.Server) : Prop := ∀ srv, cl.conns srv = .quiet

instance (cl : Client cp.Server) : Decidable cl.AllQuiet := inferInstanceAs (Decidable (∀ _, _))

def put_conn (cl : Client cp.Server) (srv : cp.Server) (x : Conn) : Client cp.Server :=
  { cl with conns := Function.update cl.conns srv x }

/-- `cp.get(key)`, then `com->send(r)`. -/
def send (cl : Client cp.Server) (r : Request) : Client cp.Server :=
  { cl.put_conn (cp.get r.key) (.asked r) with access_coms := insert_com cl.access_coms (cp.get r.key) }

end Client

def step (s : State cp) : Act cp → Option (State cp)
  | .put_all c trx ts =>
    let cl := s.clients c
    match cl.phase with
    | .idle =>
      let p : PutAll := ⟨c, trx, ts⟩
      some { s.set c { cl with phase := .sending (.put p) (Trx.put p).requests ∅ } with puts := p :: s.puts }
    | _ => none
  | .get_all c trx =>
    let cl := s.clients c
    match cl.phase with
    | .idle =>
      let g : GetAll := ⟨c, trx⟩
      some (s.set c { cl with phase := .sending (.get g) (Trx.get g).requests ∅ })
    | _ => none
  | .send c =>
    let cl := s.clients c
    match cl.phase with
    | .sending _ (r :: _) _ => if cl.AllQuiet then some (s.set c (cl.send r)) else none
    | _ => none
  | .recv c srv =>
    let cl := s.clients c
    match cl.conns srv, cl.phase with
    | .answered r a, .sending t (_ :: todo) ret =>
      some (s.set c { cl.put_conn srv .quiet with phase := .sending t todo (take_answer ret r a) })
    | .released, .releasing _ _ _ => some (s.set c (cl.put_conn srv .quiet))
    | _, _ => none
  | .release c =>
    let cl := s.clients c
    match cl.phase with
    | .sending t [] ret =>
      if cl.AllQuiet then
        some { s.set c { cl with phase := .releasing t ret cl.access_coms } with finished := (t, ret) :: s.finished }
      else none
    | _ => none
  | .send_release c srv =>
    let cl := s.clients c
    match cl.phase with
    | .releasing t ret todo =>
      if srv ∈ todo ∧ cl.conns srv = .quiet then
        some (s.set c { cl.put_conn srv .release_locks with phase := .releasing t ret (todo.erase srv) })
      else none
    | _ => none
  | .return_all c =>
    let cl := s.clients c
    match cl.phase with
    | .releasing t ret [] =>
      if cl.AllQuiet then some { s.set c { cl with phase := .idle } with completed := (t, ret) :: s.completed } else none
    | _ => none
  | .clear c =>
    let cl := s.clients c
    match cl.phase with
    | .idle => some (s.set c { cl with access_coms := [] })
    | _ => none
  | .serve c srv =>
    let cl := s.clients c
    match Locking.serve (s.nodes srv) c (cl.conns srv) with
    | some (n, x) => some { s.set c (cl.put_conn srv x) with nodes := Function.update s.nodes srv n }
    | none => none

/-- The states that any interleaving of any steps leads to. -/
inductive Reachable : State cp → Prop
  | init : Reachable {}
  | step {s s' : State cp} {a : Act cp} : Reachable s → step s a = some s' → Reachable s'

def exec (s : State cp) : List (Act cp) → Option (State cp)
  | [] => some s
  | a :: as => match step s a with
    | some s => exec s as
    | none => none

theorem reachable_exec {as : List (Act cp)} : ∀ {s s' : State cp}, Reachable s → exec s as = some s' → Reachable s' := by
  induction as with
  | nil => intro s s' h he; cases he; exact h
  | cons a as ih =>
    intro s s' h he
    unfold exec at he
    split at he
    · rename_i s1 h1
      exact ih (h.step h1) he
    · cases he

theorem exec_any {as : List (Act cp)} {P : State cp → Bool} (h : (exec {} as).any P = true) :
    ∃ s, Reachable s ∧ P s = true := by
  generalize he : exec {} as = o at h
  cases o with
  | none => cases h
  | some s => exact ⟨s, reachable_exec .init he, h⟩

/-! ## What a step can do -/

/-- Everything a step from `s` can lead to. -/
inductive Step (s : State cp) : State cp → Prop
  | put_all {c : Nat} {p : PutAll} : p.client = c → (s.clients c).phase = .idle →
      Step s { s.set c { s.clients c with phase := .sending (.put p) (Trx.put p).requests ∅ } with puts := p :: s.puts }
  | get_all {c : Nat} {g : GetAll} : g.client = c → (s.clients c).phase = .idle →
      Step s (s.set c { s.clients c with phase := .sending (.get g) (Trx.get g).requests ∅ })
  | send {c : Nat} {t : Trx} {r : Request} {todo : List Request} {ret : Ret} :
      (s.clients c).phase = .sending t (r :: todo) ret → (s.clients c).AllQuiet →
      Step s (s.set c ((s.clients c).send r))
  | recv {c : Nat} {srv : cp.Server} {r r' : Request} {a : Answer} {t : Trx} {todo : List Request} {ret : Ret} :
      (s.clients c).conns srv = .answered r a → (s.clients c).phase = .sending t (r' :: todo) ret →
      Step s (s.set c { (s.clients c).put_conn srv .quiet with phase := .sending t todo (take_answer ret r a) })
  | release {c : Nat} {t : Trx} {ret : Ret} : (s.clients c).phase = .sending t [] ret → (s.clients c).AllQuiet →
      Step s { s.set c { s.clients c with phase := .releasing t ret (s.clients c).access_coms } with
        finished := (t, ret) :: s.finished }
  | send_release {c : Nat} {srv : cp.Server} {t : Trx} {ret : Ret} {todo : List cp.Server} :
      (s.clients c).phase = .releasing t ret todo → (s.clients c).conns srv = .quiet →
      Step s (s.set c { (s.clients c).put_conn srv .release_locks with phase := .releasing t ret (todo.erase srv) })
  | recv_release {c : Nat} {srv : cp.Server} {t : Trx} {ret : Ret} {todo : List cp.Server} :
      (s.clients c).conns srv = .released → (s.clients c).phase = .releasing t ret todo →
      Step s (s.set c ((s.clients c).put_conn srv .quiet))
  | return_all {c : Nat} {t : Trx} {ret : Ret} : (s.clients c).phase = .releasing t ret [] → (s.clients c).AllQuiet →
      Step s { s.set c { s.clients c with phase := .idle } with completed := (t, ret) :: s.completed }
  | clear {c : Nat} : (s.clients c).phase = .idle → Step s (s.set c { s.clients c with access_coms := [] })
  | serve {c : Nat} {srv : cp.Server} {n : Node} {x : Conn} :
      Served (s.nodes srv) c ((s.clients c).conns srv) n x →
      Step s { s.set c ((s.clients c).put_conn srv x) with nodes := Function.update s.nodes srv n }

theorem step_cases {s s' : State cp} {a : Act cp} (h : step s a = some s') : Step s s' := by
  cases a with
  | put_all c trx ts =>
    simp only [step] at h
    split at h <;> cases h
    rename_i hp
    exact .put_all rfl hp
  | get_all c trx =>
    simp only [step] at h
    split at h <;> cases h
    rename_i hp
    exact .get_all rfl hp
  | send c =>
    simp only [step] at h
    split at h
    · rename_i hp
      split at h <;> cases h
      rename_i hq
      exact .send hp hq
    · cases h
  | recv c srv =>
    simp only [step] at h
    split at h
    · rename_i hx hp
      cases h
      exact .recv hx hp
    · rename_i hx hp
      cases h
      exact .recv_release hx hp
    · cases h
  | release c =>
    simp only [step] at h
    split at h
    · rename_i hp
      split at h <;> cases h
      rename_i hq
      exact .release hp hq
    · cases h
  | send_release c srv =>
    simp only [step] at h
    split at h
    · rename_i hp
      split at h <;> cases h
      rename_i hq
      exact .send_release hp hq.2
    · cases h
  | return_all c =>
    simp only [step] at h
    split at h
    · rename_i hp
      split at h <;> cases h
      rename_i hq
      exact .return_all hp hq
    · cases h
  | clear c =>
    simp only [step] at h
    split at h <;> cases h
    rename_i hp
    exact .clear hp
  | serve c srv =>
    simp only [step] at h
    split at h
    · rename_i n x hs
      cases h
      exact .serve (serve_cases hs)
    · cases h

/-! ## Scripts: two servers, a client's requests in order -/

/-- `"x"` on the first, every other key on the second. -/
abbrev two : ConnectionPool := ⟨2, fun k => if k = "x" then 0 else 1, by decide⟩

/-- `n` steps of the executor, then the answer. -/
def answering (c : Nat) (srv : two.Server) (n : Nat) : List (Act two) :=
  List.replicate n (Act.serve c srv) ++ [Act.recv c srv]

/-- A PUT (3 steps) or a GET (2). -/
def asking (c : Nat) (srv : two.Server) (n : Nat) : List (Act two) := Act.send c :: answering c srv n

/-- RELEASE_LOCKS to a server with one lock. -/
def unlocking (c : Nat) (srv : two.Server) : List (Act two) := Act.send_release c srv :: answering c srv 3

/-- A transaction on `"x"` and `"y"`, each request taking `n` steps, up to its return. -/
def both (c n : Nat) : List (Act two) :=
  List.flatten [asking c 0 n, asking c 1 n, [.release c], unlocking c 0, unlocking c 1, [.return_all c, .clear c]]

end RampRdma.Locking
