/-
  RampRdma.Ramp.System — clients and servers of the RAMP-Fast and AC-RAMP-Fast modes
  (`RAMPFastHandler`, `ACRAMPFastHandler`, `RAMPFastExecutor`, `ACRAMPFastExecutor`,
  `TrxHandler::send_to_all`), any number of each.

  A client has one connection to every server and an executor at its other end. A
  connection is quiet or carries one request (`Conn`): `com->mtx` lets the bodies of a
  `parallel_for_each` use it one at a time. The bodies run in any order, so what they have
  left is a list any element of which may be next.

  A step (`step`) is one of
  - the client starting a `put_all` or `get_all`, starting one body's request, taking an
    answer, or passing from one phase to the next;
  - an executor doing one thing to its table: a PREPARE pushes the version and then
    invalidates the entry, a COMMIT goes through the versions one by one, GET_WITH_ADDR
    looks the item up and then its address. An executor that meets a `Fault` takes no
    further step. The fault ends the whole process; here the other executors may go on.
  A one-sided read sees the entry at one instant; `fuel` is how long it polls.

  `CommittedItems::invalidate`, `update` and `get_item_addr` are one step each, as if the
  executors of a server took turns. They take no lock, and two of them that bind the same
  key at the same time can do what none of these runs does: `Server.Interleaving` has their
  calls on the containers one by one.

  `puts`, `prepared`, `returned` and `gets` are ghosts: the `put_all`s started, past their
  PREPAREs, and returned, and the `get_all`s completed with what they read. A `get_all`
  carries the `put_all`s that had returned when it started.
-/

import Mathlib
import RampRdma.Data
import RampRdma.Server.Bindings
import RampRdma.Wire

namespace RampRdma.Ramp

inductive Request where
  | PREPARE (item : Item)
  | COMMIT (ts : Timestamp)
  | GET (key : Key) (ts : Timestamp)
  | GET_WITH_ADDR (key : Key) (ts : Timestamp)
  deriving DecidableEq

inductive Answer where
  | DONE
  | RESULT (item : Item)
  | RESULT_ADDR (item : Item) (addr : Nat)
  deriving DecidableEq

inductive Conn where
  | quiet
  | asked (r : Request)
  /-- PREPARE: the version is in `items`, its entry not yet invalidated. -/
  | pushed (item : Item)
  /-- COMMIT: the versions not yet looked at. -/
  | walking (ts : Timestamp) (rest : List Item)
  /-- GET_WITH_ADDR: the item is looked up, its address not yet. -/
  | looked (key : Key) (ts : Timestamp) (item : Item)
  | answered (r : Request) (a : Answer)
  deriving DecidableEq

/-- The request a connection carries. -/
def Conn.req : Conn → Option Request
  | .quiet => none
  | .asked r => some r
  | .pushed item => some (.PREPARE item)
  | .walking ts _ => some (.COMMIT ts)
  | .looked key ts _ => some (.GET_WITH_ADDR key ts)
  | .answered r _ => some r

/-! ## Executors -/

/-- The next thing the executor of a connection does. -/
def serve (C : Codec) (t : Table) : Conn → Option (Table × Conn)
  | .asked (.PREPARE item) => some ({ t with toStore := t.push_back item }, .pushed item)
  | .pushed item =>
    match t.committed_items.invalidate item.key with
    | .ok c => some ({ t with committed_items := c }, .answered (.PREPARE item) .DONE)
    | .error _ => none
  | .asked (.COMMIT ts) => some (t, .walking ts (t.versions ts))
  | .walking ts (item :: rest) =>
    match t.commit_item C ts item with
    | .ok t => some (t, .walking ts rest)
    | .error _ => none
  | .walking ts [] => some (t, .answered (.COMMIT ts) .DONE)
  | .asked (.GET key ts) =>
    if ts.is_empty then
      some ({ t with toStore := (t.get_latest_item key).1 }, .answered (.GET key ts) (.RESULT (t.get_latest_item key).2))
    else some (t, .answered (.GET key ts) (.RESULT (t.get_item_by_ver key ts)))
  | .asked (.GET_WITH_ADDR key ts) =>
    some ({ t with toStore := (t.get_latest_item key).1 }, .looked key ts (t.get_latest_item key).2)
  | .looked key ts item =>
    match t.get_item_addr C key with
    | .ok (t, addr) => some (t, .answered (.GET_WITH_ADDR key ts) (.RESULT_ADDR item addr))
    | .error _ => none
  | .quiet => none
  | .answered _ _ => none

/-! ## Clients -/

structure PutAll where
  client : Nat
  trx : Transaction
  ts : Timestamp
  deriving DecidableEq

/-- `Item(key, w.second, ts, this->trx->access_keys)` for each `w` of `write_set`. -/
def PutAll.items (p : PutAll) : List Item :=
  p.trx.write_set.toList.map fun w => { key := w.1, values := w.2, ts := p.ts, trx_keys := p.trx.access_keys }

structure GetAll where
  client : Nat
  trx : Transaction
  after : List PutAll
  deriving DecidableEq

def GetAll.keys (g : GetAll) : List Key := g.trx.read_set.keys

abbrev Ret := ConcurrentMap Key Item

/-- `ret[key]`. -/
def Ret.at (ret : Ret) (key : Key) : Item := (ConcurrentMap.find ret key).getD .empty

abbrev Versions := ConcurrentMap Key Timestamp

/-- `v_latest[key]`. -/
def Versions.at (v : Versions) (key : Key) : Timestamp := (ConcurrentMap.find v key).getD .empty

/-- `if (v_latest[key] < item.ts) v_latest[key] = item.ts` for the keys of an item. -/
def Versions.raise (ts : Timestamp) (v : Versions) (key : Key) : Versions :=
  if (v.at key).lt ts then ConcurrentMap.set v key ts else v

/-- "Check missing version": over the items of `ret`, in the order of `keys`. -/
def v_latest (ret : Ret) (keys : List Key) : Versions :=
  keys.foldl (fun v k => (ret.at k).trx_keys.toList.foldl (Versions.raise (ret.at k).ts) v) .empty

inductive Phase (S : Type) where
  | idle
  | preparing (p : PutAll) (todo : List Item)
  | committing (p : PutAll) (todo : List S)
  | first (g : GetAll) (todo : List Key) (ret : Ret)
  | second (g : GetAll) (v : Versions) (todo : List Key) (ret : Ret)

structure Client (S : Type) where
  phase : Phase S := .idle
  conns : S → Conn := fun _ => .quiet
  access_coms : List S := []
  addr_cache : ConcurrentMap Key Nat := .empty

/-! ## Steps -/

structure Config where
  cp : ConnectionPool
  C : Codec
  /-- The clients that run `ACRAMPFastHandler::get_all`. -/
  ac : Nat → Bool

variable (cfg : Config)

structure State where
  tables : cfg.cp.Server → Table := fun _ => .init ENTRY_NUM
  clients : Nat → Client cfg.cp.Server := fun _ => {}
  puts : List PutAll := []
  prepared : List PutAll := []
  returned : List PutAll := []
  gets : List (GetAll × Ret) := []

inductive Act where
  | put_all (c : Nat) (trx : Transaction) (ts : Timestamp)
  | prepare (c : Nat) (item : Item)
  | begin_commit (c : Nat)
  | commit (c : Nat) (srv : cfg.cp.Server)
  | put_return (c : Nat)
  | get_all (c : Nat) (trx : Transaction)
  | ask (c : Nat) (key : Key) (fuel : Nat)
  | check (c : Nat)
  | skip (c : Nat) (key : Key)
  | fetch (c : Nat) (key : Key)
  | get_return (c : Nat)
  | recv (c : Nat) (srv : cfg.cp.Server)
  | clear (c : Nat)
  | serve (c : Nat) (srv : cfg.cp.Server)

variable {cfg}

def State.set (s : State cfg) (c : Nat) (cl : Client cfg.cp.Server) : State cfg :=
  { s with clients := Function.update s.clients c cl }

namespace Client

def AllQuiet (cl : Client cfg.cp.Server) : Prop := ∀ srv, cl.conns srv = .quiet

instance (cl : Client cfg.cp.Server) : Decidable cl.AllQuiet := inferInstanceAs (Decidable (∀ _, _))

def put_conn (cl : Client cfg.cp.Server) (srv : cfg.cp.Server) (x : Conn) : Client cfg.cp.Server :=
  { cl with conns := Function.update cl.conns srv x }

/-- `cp.get(key)`, then `com->send(r)`. -/
def send (cl : Client cfg.cp.Server) (key : Key) (r : Request) : Client cfg.cp.Server :=
  { cl.put_conn (cfg.cp.get key) (.asked r) with access_coms := insert_com cl.access_coms (cfg.cp.get key) }

/-- One body of the first round of `ACRAMPFastHandler::get_all`, or of
    `RAMPFastHandler::get_all`: up to the request, or all of it when the one-sided read
    succeeds; `none` while the read polls. -/
def ask (C : Codec) (ac : Bool) (t : Table) (fuel : Nat) (key : Key) (ret : Ret) (cl : Client cfg.cp.Server) :
    Option (Client cfg.cp.Server × Ret) :=
  if ac then
    match cl.addr_cache.find key with
    | none => some (cl.send key (.GET_WITH_ADDR key .empty), ret)
    | some addr =>
      match RDMAWriteSocket.read C fuel (RDMAWriteSocket.contents t.committed_items.mem addr) with
      | none => none
      | some (r, item) =>
        if r = -1 then some (cl.send key (.GET_WITH_ADDR key .empty), ret)
        else some ({ cl with access_coms := insert_com cl.access_coms (cfg.cp.get key) },
          ConcurrentMap.set ret key (item.getD (ret.at key)))
  else some (cl.send key (.GET key .empty), ret)

end Client

/-- What `com->recv` makes of an answer in a round of `get_all`: `ret[key]`, and in the first
    round `addr_cache[key]`. -/
def take_answer (ret : Ret) (addrs : ConcurrentMap Key Nat) : Request → Answer → Option (Ret × ConcurrentMap Key Nat)
  | .GET key _, .RESULT item => some (ConcurrentMap.set ret key item, addrs)
  | .GET_WITH_ADDR key _, .RESULT_ADDR item addr => some (ConcurrentMap.set ret key item, addrs.set key addr)
  | _, _ => none

def step (s : State cfg) : Act cfg → Option (State cfg)
  | .put_all c trx ts =>
    let cl := s.clients c
    match cl.phase with
    | .idle =>
      let p : PutAll := ⟨c, trx, ts⟩
      some { s.set c { cl with phase := .preparing p p.items } with puts := p :: s.puts }
    | _ => none
  | .prepare c item =>
    let cl := s.clients c
    match cl.phase with
    | .preparing p todo =>
      if item ∈ todo ∧ cl.conns (cfg.cp.get item.key) = .quiet then
        some (s.set c { cl.send item.key (.PREPARE item) with phase := .preparing p (todo.erase item) })
      else none
    | _ => none
  | .begin_commit c =>
    let cl := s.clients c
    match cl.phase with
    | .preparing p todo =>
      if todo = [] ∧ cl.AllQuiet then
        some { s.set c { cl with phase := .committing p cl.access_coms } with prepared := p :: s.prepared }
      else none
    | _ => none
  | .commit c srv =>
    let cl := s.clients c
    match cl.phase with
    | .committing p todo =>
      if srv ∈ todo ∧ cl.conns srv = .quiet then
        some (s.set c { cl.put_conn srv (.asked (.COMMIT p.ts)) with phase := .committing p (todo.erase srv) })
      else none
    | _ => none
  | .put_return c =>
    let cl := s.clients c
    match cl.phase with
    | .committing p todo =>
      if todo = [] ∧ cl.AllQuiet then some { s.set c { cl with phase := .idle } with returned := p :: s.returned }
      else none
    | _ => none
  | .get_all c trx =>
    let cl := s.clients c
    match cl.phase with
    | .idle =>
      let g : GetAll := ⟨c, trx, s.returned⟩
      some (s.set c { cl with phase := .first g g.keys .empty })
    | _ => none
  | .ask c key fuel =>
    let cl := s.clients c
    match cl.phase with
    | .first g todo ret =>
      if key ∈ todo ∧ cl.conns (cfg.cp.get key) = .quiet then
        match cl.ask cfg.C (cfg.ac c) (s.tables (cfg.cp.get key)) fuel key ret with
        | some (cl, ret) => some (s.set c { cl with phase := .first g (todo.erase key) ret })
        | none => none
      else none
    | _ => none
  | .check c =>
    let cl := s.clients c
    match cl.phase with
    | .first g todo ret =>
      if todo = [] ∧ cl.AllQuiet then some (s.set c { cl with phase := .second g (v_latest ret g.keys) g.keys ret })
      else none
    | _ => none
  | .skip c key =>
    let cl := s.clients c
    match cl.phase with
    | .second g v todo ret =>
      if key ∈ todo ∧ ¬ (v.at key).gt (ret.at key).ts then
        some (s.set c { cl with phase := .second g v (todo.erase key) ret })
      else none
    | _ => none
  | .fetch c key =>
    let cl := s.clients c
    match cl.phase with
    | .second g v todo ret =>
      if key ∈ todo ∧ (v.at key).gt (ret.at key).ts ∧ cl.conns (cfg.cp.get key) = .quiet then
        some (s.set c { cl.send key (.GET key (v.at key)) with phase := .second g v (todo.erase key) ret })
      else none
    | _ => none
  | .get_return c =>
    let cl := s.clients c
    match cl.phase with
    | .second g _ todo ret =>
      if todo = [] ∧ cl.AllQuiet then some { s.set c { cl with phase := .idle } with gets := (g, ret) :: s.gets }
      else none
    | _ => none
  | .recv c srv =>
    let cl := s.clients c
    match cl.conns srv with
    | .answered r a =>
      let cl := cl.put_conn srv .quiet
      match cl.phase with
      | .first g todo ret =>
        match take_answer ret cl.addr_cache r a with
        | some (ret, addrs) => some (s.set c { cl with phase := .first g todo ret, addr_cache := addrs })
        | none => none
      | .second g v todo ret =>
        match take_answer ret cl.addr_cache r a with
        | some (ret, _) => some (s.set c { cl with phase := .second g v todo ret })
        | none => none
      | _ => some (s.set c cl)
    | _ => none
  | .clear c =>
    let cl := s.clients c
    match cl.phase with
    | .idle => some (s.set c { cl with access_coms := [] })
    | _ => none
  | .serve c srv =>
    let cl := s.clients c
    match Ramp.serve cfg.C (s.tables srv) (cl.conns srv) with
    | some (t, x) => some { s.set c (cl.put_conn srv x) with tables := Function.update s.tables srv t }
    | none => none

/-- The states that any interleaving of any steps leads to. -/
inductive Reachable : State cfg → Prop
  | init : Reachable {}
  | step {s s' : State cfg} {a : Act cfg} : Reachable s → step s a = some s' → Reachable s'

/-- The state after the actions `as`, if each of them can be taken. -/
def exec (s : State cfg) : List (Act cfg) → Option (State cfg)
  | [] => some s
  | a :: as => match step s a with
    | some s => exec s as
    | none => none

theorem reachable_exec {as : List (Act cfg)} : ∀ {s s' : State cfg}, Reachable s → exec s as = some s' → Reachable s' := by
  induction as with
  | nil => intro s s' h he; cases he; exact h
  | cons a as ih =>
    intro s s' h he
    unfold exec at he
    split at he
    · rename_i s1 h1
      exact ih (h.step h1) he
    · cases he

theorem exec_any {as : List (Act cfg)} {P : State cfg → Bool} (h : (exec {} as).any P = true) :
    ∃ s, Reachable s ∧ P s = true := by
  generalize he : exec {} as = o at h
  cases o with
  | none => cases h
  | some s => exact ⟨s, reachable_exec .init he, h⟩

/-! ## What a step can do -/

/-- Everything a step from `s` can lead to. -/
inductive Step (s : State cfg) : State cfg → Prop
  | put_all {c : Nat} {p : PutAll} : p.client = c → (s.clients c).phase = .idle →
      Step s { s.set c { s.clients c with phase := .preparing p p.items } with puts := p :: s.puts }
  | prepare {c : Nat} {item : Item} {p : PutAll} {todo : List Item} : (s.clients c).phase = .preparing p todo →
      item ∈ todo → (s.clients c).conns (cfg.cp.get item.key) = .quiet →
      Step s (s.set c { (s.clients c).send item.key (.PREPARE item) with phase := .preparing p (todo.erase item) })
  | begin_commit {c : Nat} {p : PutAll} : (s.clients c).phase = .preparing p [] → (s.clients c).AllQuiet →
      Step s { s.set c { s.clients c with phase := .committing p (s.clients c).access_coms } with
        prepared := p :: s.prepared }
  | commit {c : Nat} {srv : cfg.cp.Server} {p : PutAll} {todo : List cfg.cp.Server} :
      (s.clients c).phase = .committing p todo → (s.clients c).conns srv = .quiet →
      Step s (s.set c { (s.clients c).put_conn srv (.asked (.COMMIT p.ts)) with
        phase := .committing p (todo.erase srv) })
  | put_return {c : Nat} {p : PutAll} : (s.clients c).phase = .committing p [] → (s.clients c).AllQuiet →
      Step s { s.set c { s.clients c with phase := .idle } with returned := p :: s.returned }
  | get_all {c : Nat} {g : GetAll} : g.after = s.returned → (s.clients c).phase = .idle →
      Step s (s.set c { s.clients c with phase := .first g g.keys .empty })
  | ask {c : Nat} {key : Key} {g : GetAll} {todo : List Key} {ret : Ret} {r : Request} :
      (s.clients c).phase = .first g todo ret → key ∈ todo → (s.clients c).conns (cfg.cp.get key) = .quiet →
      (cfg.ac c = false ∧ r = .GET key .empty ∨ cfg.ac c = true ∧ r = .GET_WITH_ADDR key .empty) →
      Step s (s.set c { (s.clients c).send key r with phase := .first g (todo.erase key) ret })
  | read {c : Nat} {key : Key} {g : GetAll} {todo : List Key} {ret : Ret} {addr fuel : Nat} {r : Int}
      {item : Option Item} :
      (s.clients c).phase = .first g todo ret → key ∈ todo → cfg.ac c = true →
      (s.clients c).addr_cache.find key = some addr →
      RDMAWriteSocket.read cfg.C fuel
        (RDMAWriteSocket.contents (s.tables (cfg.cp.get key)).committed_items.mem addr) = some (r, item) → r ≠ -1 →
      Step s (s.set c { s.clients c with
        access_coms := insert_com (s.clients c).access_coms (cfg.cp.get key)
        phase := .first g (todo.erase key) (ConcurrentMap.set ret key (item.getD (ret.at key))) })
  | check {c : Nat} {g : GetAll} {ret : Ret} : (s.clients c).phase = .first g [] ret → (s.clients c).AllQuiet →
      Step s (s.set c { s.clients c with phase := .second g (v_latest ret g.keys) g.keys ret })
  | skip {c : Nat} {key : Key} {g : GetAll} {v : Versions} {todo : List Key} {ret : Ret} :
      (s.clients c).phase = .second g v todo ret → v.at key ≤ (ret.at key).ts →
      Step s (s.set c { s.clients c with phase := .second g v (todo.erase key) ret })
  | fetch {c : Nat} {key : Key} {g : GetAll} {v : Versions} {todo : List Key} {ret : Ret} :
      (s.clients c).phase = .second g v todo ret → (ret.at key).ts < v.at key →
      (s.clients c).conns (cfg.cp.get key) = .quiet →
      Step s (s.set c { (s.clients c).send key (.GET key (v.at key)) with phase := .second g v (todo.erase key) ret })
  | get_return {c : Nat} {g : GetAll} {v : Versions} {ret : Ret} : (s.clients c).phase = .second g v [] ret →
      (s.clients c).AllQuiet →
      Step s { s.set c { s.clients c with phase := .idle } with gets := (g, ret) :: s.gets }
  | recv_put {c : Nat} {srv : cfg.cp.Server} {r : Request} {a : Answer} : (s.clients c).conns srv = .answered r a →
      (∀ g todo ret, (s.clients c).phase ≠ .first g todo ret) →
      (∀ g v todo ret, (s.clients c).phase ≠ .second g v todo ret) →
      Step s (s.set c ((s.clients c).put_conn srv .quiet))
  | recv_first {c : Nat} {srv : cfg.cp.Server} {r : Request} {a : Answer} {g : GetAll} {todo : List Key} {ret ret' : Ret}
      {addrs : ConcurrentMap Key Nat} : (s.clients c).conns srv = .answered r a →
      (s.clients c).phase = .first g todo ret → take_answer ret (s.clients c).addr_cache r a = some (ret', addrs) →
      Step s (s.set c { (s.clients c).put_conn srv .quiet with phase := .first g todo ret', addr_cache := addrs })
  | recv_second {c : Nat} {srv : cfg.cp.Server} {r : Request} {a : Answer} {g : GetAll} {v : Versions} {todo : List Key}
      {ret ret' : Ret} {addrs : ConcurrentMap Key Nat} : (s.clients c).conns srv = .answered r a →
      (s.clients c).phase = .second g v todo ret → take_answer ret (s.clients c).addr_cache r a = some (ret', addrs) →
      Step s (s.set c { (s.clients c).put_conn srv .quiet with phase := .second g v todo ret' })
  | clear {c : Nat} : (s.clients c).phase = .idle → Step s (s.set c { s.clients c with access_coms := [] })
  | serve {c : Nat} {srv : cfg.cp.Server} {t : Table} {x : Conn} :
      Ramp.serve cfg.C (s.tables srv) ((s.clients c).conns srv) = some (t, x) →
      Step s { s.set c ((s.clients c).put_conn srv x) with tables := Function.update s.tables srv t }

theorem step_ask {s s' : State cfg} {c fuel : Nat} {key : Key} (h : step s (.ask c key fuel) = some s') : Step s s' := by
  simp only [step] at h
  split at h
  · rename_i g todo ret hp
    split at h
    · rename_i hk
      obtain ⟨hm, hq⟩ := hk
      split at h
      · rename_i cl ret' ha
        cases h
        unfold Client.ask at ha
        split at ha
        · rename_i hac
          split at ha
          · cases ha
            exact .ask hp hm hq (.inr ⟨hac, rfl⟩)
          · rename_i addr haddr
            split at ha
            · cases ha
            · rename_i r item hr
              split at ha
              · cases ha
                exact .ask hp hm hq (.inr ⟨hac, rfl⟩)
              · rename_i hne
                cases ha
                exact .read hp hm hac haddr hr hne
        · rename_i hac
          cases ha
          exact .ask hp hm hq (.inl ⟨by simpa using hac, rfl⟩)
      · cases h
    · cases h
  · cases h

theorem step_recv {s s' : State cfg} {c : Nat} {srv : cfg.cp.Server} (h : step s (.recv c srv) = some s') : Step s s' := by
  simp only [step] at h
  split at h
  · rename_i r a hx
    split at h
    · rename_i g todo ret hp
      split at h
      · rename_i ret' addrs ht
        cases h
        exact .recv_first hx hp ht
      · cases h
    · rename_i g v todo ret hp
      split at h
      · rename_i ret' addrs ht
        cases h
        exact .recv_second hx hp ht
      · cases h
    · rename_i h1 h2
      cases h
      exact .recv_put hx (fun g todo ret => h1 g todo ret) fun g v todo ret => h2 g v todo ret
  · cases h

theorem step_cases {s s' : State cfg} {a : Act cfg} (h : step s a = some s') : Step s s' := by
  cases a with
  | ask c key fuel => exact step_ask h
  | recv c srv => exact step_recv h
  | serve c srv =>
    simp only [step] at h
    split at h
    · rename_i t x hs
      cases h
      exact .serve hs
    · cases h
  | put_all c trx ts =>
    simp only [step] at h
    split at h <;> cases h
    rename_i hp
    exact .put_all rfl hp
  | get_all c trx =>
    simp only [step] at h
    split at h <;> cases h
    rename_i hp
    exact .get_all rfl hp
  | clear c =>
    simp only [step] at h
    split at h <;> cases h
    rename_i hp
    exact .clear hp
  | prepare c item =>
    simp only [step] at h
    split at h
    · rename_i p todo hp
      split at h <;> cases h
      rename_i hk
      exact .prepare hp hk.1 hk.2
    · cases h
  | begin_commit c =>
    simp only [step] at h
    split at h
    · rename_i p todo hp
      split at h <;> cases h
      rename_i hk
      obtain ⟨rfl, hq⟩ := hk
      exact .begin_commit hp hq
    · cases h
  | commit c srv =>
    simp only [step] at h
    split at h
    · rename_i p todo hp
      split at h <;> cases h
      rename_i hk
      exact .commit hp hk.2
    · cases h
  | put_return c =>
    simp only [step] at h
    split at h
    · rename_i p todo hp
      split at h <;> cases h
      rename_i hk
      obtain ⟨rfl, hq⟩ := hk
      exact .put_return hp hq
    · cases h
  | check c =>
    simp only [step] at h
    split at h
    · rename_i g todo ret hp
      split at h <;> cases h
      rename_i hk
      obtain ⟨rfl, hq⟩ := hk
      exact .check hp hq
    · cases h
  | skip c key =>
    simp only [step] at h
    split at h
    · rename_i g v todo ret hp
      split at h <;> cases h
      rename_i hk
      exact .skip hp (not_lt.mp fun hlt => hk.2 ((Timestamp.gt_iff _ _).mpr hlt))
    · cases h
  | fetch c key =>
    simp only [step] at h
    split at h
    · rename_i g v todo ret hp
      split at h <;> cases h
      rename_i hk
      exact .fetch hp ((Timestamp.gt_iff _ _).mp hk.2.1) hk.2.2
    · cases h
  | get_return c =>
    simp only [step] at h
    split at h
    · rename_i g v todo ret hp
      split at h <;> cases h
      rename_i hk
      obtain ⟨rfl, hq⟩ := hk
      exact .get_return hp hq
    · cases h

/-! ## Scripts: one server, a client's requests in order -/

abbrev one (ac : Nat → Bool) : Config := ⟨⟨1, fun _ => 0, by decide⟩, Wire.msgpack, ac⟩

section
variable {ac : Nat → Bool}

/-- `n` steps of the executor, then the answer. -/
def answering (c n : Nat) : List (Act (one ac)) := List.replicate n (Act.serve c 0) ++ [Act.recv c 0]

def preparing (c : Nat) (trx : Transaction) (ts : Timestamp) : List (Act (one ac)) :=
  Act.put_all c trx ts :: (PutAll.items ⟨c, trx, ts⟩).flatMap (fun i => Act.prepare c i :: answering c 2) ++
    [Act.begin_commit c]

/-- The COMMIT of a client alone; `n` versions have its timestamp. -/
def committing (c n : Nat) : List (Act (one ac)) :=
  Act.commit c 0 :: answering c (n + 2) ++ [Act.put_return c, Act.clear c]

def putting (c : Nat) (trx : Transaction) (ts : Timestamp) : List (Act (one ac)) :=
  preparing c trx ts ++ committing c trx.write_set.size

/-- A first-round GET_WITH_ADDR (2 steps) or GET (1). -/
def asking (c n : Nat) (key : Key) : List (Act (one ac)) := Act.ask c key 0 :: answering c n

end

end RampRdma.Ramp
