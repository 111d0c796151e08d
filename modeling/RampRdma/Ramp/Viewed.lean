/-
  RampRdma.Ramp.Viewed — the RAMP-Fast system over bytes, with the values where the code has
  them: in the buffers of the unpackers (`Server.Views`), those of the executors for what is
  in the tables, those of the handlers for what is in `ret`.

  A step of `Ramp.Wired` is taken with what the views show at that moment (`seen`): an
  executor's lookup or commit reads the bytes that are behind the views of its table then,
  and a handler that goes on or returns, those behind the views in `ret`. What a thread has
  in hand between two of its steps, the item it looked up or the versions a commit is going
  through, is a copy here.

  No connection is closed, and `Kept` is the condition of `Server.Views` on both sides: a
  body is put over no value of a version that is stored, nor of an item that the `get_all`
  under way has received.
  - `viewed_refines`: in such runs what the views show is a state that the handlers and
    executors reach with requests and answers handed over as they are.
  - `viewed_follows`: and whatever they can do then, they come to do over the connections.
-/

import Mathlib
import RampRdma.Lib.Machine
import RampRdma.Ramp.Wired
import RampRdma.Server.Views

namespace RampRdma.Ramp.Viewed

open Bytes Machine Calls
open RDMAWriteSocket (Side)
open Verbs (Transport)
open Views (StoredItem convert)
open Wired (conn fast mode)

variable {Obj : Type} (P : Packing Obj) (M : Views.Msgpack (P.pack .item)) (tr : Transport) (rkeys : Side → UInt32)
variable {cp : ConnectionPool} {C : Codec}

/-- A handler's side of its connections. -/
structure Handler (cp : ConnectionPool) where
  unpk : cp.Server → Views.Unpacker := fun _ => {}
  ret : ConcurrentMap Key (StoredItem cp.Server) := .empty
  /-- The items received into `ret`. -/
  held : List (StoredItem cp.Server) := []

structure State (cp : ConnectionPool) (C : Codec) where
  wired : Wired.State cp C
  /-- The executors of a server and `items` of its table; an executor goes by its client. -/
  executors : cp.Server → Views.State Nat := fun _ => {}
  handlers : Nat → Handler cp := fun _ => {}

def State.init (cp : ConnectionPool) (C : Codec) : State cp C := { wired := .init tr cp C }

/-! ## What the views show -/

def shown {E : Type} (buf : E → Option Mem) (v : StoredItem E) : Item := (v.read buf).getD .empty

def Handler.buf (h : Handler cp) : cp.Server → Option Mem := fun srv => some (h.unpk srv).buffer

/-- `ret`, of a `get_all`. -/
def phase_ret {S : Type} : Phase S → Option Ret
  | .first _ _ r | .second _ _ _ r => some r
  | _ => none

def with_ret {S : Type} (r : Ret) : Phase S → Phase S
  | .first g todo _ => .first g todo r
  | .second g v todo _ => .second g v todo r
  | ph => ph

namespace State

variable (s : State cp C)

/-- The table with the items its views show. -/
def table (srv : cp.Server) : Table :=
  { s.wired.sys.tables srv with items := fun ts => ((s.executors srv).items.find ts).map (·.map (shown (s.executors srv).buf)) }

/-- The handler with the `ret` its views show. -/
def client (c : Nat) : Client cp.Server :=
  { s.wired.sys.clients c with
    phase := with_ret (fun key => ((s.handlers c).ret.find key).map (shown (s.handlers c).buf)) (s.wired.sys.clients c).phase }

def seen : Wired.State cp C := { s.wired with sys := { s.wired.sys with tables := s.table, clients := s.client } }

/-! ## Bodies -/

/-- The body that the executor takes next. -/
def request (c : Nat) (srv : cp.Server) : List UInt8 :=
  (((s.wired.wires c srv).net.server.received[(s.wired.wires c srv).taken]?).map Prod.snd).getD []

/-- The body that the handler takes next. -/
def answer (c : Nat) (srv : cp.Server) : List UInt8 :=
  (((s.wired.wires c srv).net.client.received[(s.wired.wires c srv).got]?).map Prod.snd).getD []

/-- The executor's unpacker, with room for a body of `size`. -/
def executor_unpk (c : Nat) (srv : cp.Server) (size : Nat) : Views.Unpacker :=
  (((s.executors srv).unpk c).getD {}).reserve_buffer M.capacity size

/-- The handler's unpacker, with room for a body of `size`. -/
def handler_unpk (c : Nat) (srv : cp.Server) (size : Nat) : Views.Unpacker :=
  ((s.handlers c).unpk srv).reserve_buffer M.capacity size

end State

def Handler.recv_body (h : Handler cp) (srv : cp.Server) (u : Views.Unpacker) (body : List UInt8) : Handler cp :=
  { h with unpk := Function.update h.unpk srv (u.fill body) }

/-- `ret[key]`. -/
def Handler.set (h : Handler cp) (key : Key) (v : StoredItem cp.Server) : Handler cp :=
  { h with ret := h.ret.set key v, held := v :: h.held }

/-- The item of a PREPARE is in the last body of the buffer. -/
def item_pos (u : Option Views.Unpacker) (item : Item) : Nat := (u.getD {}).used - (P.pack .item item).length

/-! ## Steps -/

/-- What the step that leads to `w` does to buffers and views. -/
def after (s : State cp C) (w : Wired.State cp C) : Wired.Act cp C → State cp C
  | .take c srv =>
    let body := s.request c srv
    { s with
      wired := w
      executors := Function.update s.executors srv ((s.executors srv).recv_body c (s.executor_unpk P M c srv body.length) body) }
  | .sys (.serve c srv) =>
    match conn s.wired.sys c srv with
    | .asked (.PREPARE item) => { s with
        wired := w
        executors := Function.update s.executors srv
          ((s.executors srv).push_back M c (item_pos P ((s.executors srv).unpk c) item) item) }
    | _ => { s with wired := w }
  | .sys (.get_all c _) =>
    { s with wired := w, handlers := Function.update s.handlers c { s.handlers c with ret := .empty, held := [] } }
  | .recv c srv _ =>
    let body := s.answer c srv
    let u := s.handler_unpk P M c srv body.length
    let h := (s.handlers c).recv_body srv u body
    match (w.wires c srv).results.getLast? with
    | some (.GET key _, .RESULT item) =>
      { s with wired := w, handlers := Function.update s.handlers c (h.set key (convert M srv u.used item)) }
    | _ => { s with wired := w, handlers := Function.update s.handlers c h }
  | _ => { s with wired := w }

def step (s : State cp C) (a : Wired.Act cp C) : Option (State cp C) :=
  (Wired.step P tr rkeys s.seen a).map fun w => after P M s w a

/-- A body of `size` from client `c` is put over no stored value. -/
def State.TakesApart (s : State cp C) (c : Nat) (srv : cp.Server) (size : Nat) : Prop :=
  ∀ v ∈ (s.executors srv).stored, ∀ p ∈ v.values.toList, p.2.Apart c (s.executor_unpk P M c srv size).used size

/-- A body of `size` from the server is put over no value in `ret`. -/
def State.GetsApart (s : State cp C) (c : Nat) (srv : cp.Server) (size : Nat) : Prop :=
  ∀ v ∈ (s.handlers c).held, ∀ p ∈ v.values.toList, p.2.Apart srv (s.handler_unpk P M c srv size).used size

instance (s : State cp C) (c : Nat) (srv : cp.Server) (size : Nat) : Decidable (s.TakesApart P M c srv size) :=
  inferInstanceAs (Decidable (∀ v ∈ (s.executors srv).stored, ∀ p ∈ v.values.toList, _))

instance (s : State cp C) (c : Nat) (srv : cp.Server) (size : Nat) : Decidable (s.GetsApart P M c srv size) :=
  inferInstanceAs (Decidable (∀ v ∈ (s.handlers c).held, ∀ p ∈ v.values.toList, _))

/-- What is received next leaves the values alone that are still read. -/
def Kept (s : State cp C) : Wired.Act cp C → Prop
  | .take c srv => s.TakesApart P M c srv (s.request c srv).length
  | .recv c srv _ => s.GetsApart P M c srv (s.answer c srv).length
  | _ => True

instance (s : State cp C) : ∀ a, Decidable (Kept P M s a)
  | .take c srv => inferInstanceAs (Decidable (s.TakesApart P M c srv _))
  | .recv c srv _ => inferInstanceAs (Decidable (s.GetsApart P M c srv _))
  | .sys _ => inferInstanceAs (Decidable True)
  | .answer _ _ => inferInstanceAs (Decidable True)
  | .net _ _ _ => inferInstanceAs (Decidable True)

/-! ## What a step of the system does to items -/

section
variable {s s' : Ramp.State (fast cp C)}

theorem commit_item_items {t t' : Table} {ts : Timestamp} {item : Item} (h : t.commit_item C ts item = .ok t') : t'.items = t.items := by
  rw [Table.commit_item_eq] at h
  split at h
  · obtain ⟨c, _, h⟩ := Runs.bind_ok.mp h
    cases h
    rfl
  · cases h
    rfl

/-- An executor stores the version of a PREPARE, and nothing else. -/
theorem serve_items {t t' : Table} {x x' : Conn} (h : Ramp.serve C t x = some (t', x')) :
    (∃ item, x = .asked (.PREPARE item) ∧ t'.items = (t.push_back item).items) ∨
    (∀ item, x ≠ .asked (.PREPARE item)) ∧ t'.items = t.items := by
  unfold Ramp.serve at h
  split at h
  · cases h
    exact .inl ⟨_, rfl, rfl⟩
  · refine .inr ⟨(fun _ e => by cases e), ?_⟩
    split at h <;> cases h
    rfl
  · cases h
    exact .inr ⟨(fun _ e => by cases e), rfl⟩
  · refine .inr ⟨(fun _ e => by cases e), ?_⟩
    split at h
    · rename_i ht
      cases h
      exact commit_item_items ht
    · cases h
  · cases h
    exact .inr ⟨(fun _ e => by cases e), rfl⟩
  · refine .inr ⟨(fun _ e => by cases e), ?_⟩
    split at h <;> cases h <;> rfl
  · cases h
    exact .inr ⟨(fun _ e => by cases e), rfl⟩
  · refine .inr ⟨(fun _ e => by cases e), ?_⟩
    split at h
    · rename_i ht
      cases h
      obtain ⟨r, _, ht⟩ := Runs.bind_ok.mp ht
      cases ht
      rfl
    · cases h
  · cases h
  · cases h

theorem sys_items {a : Ramp.Act (fast cp C)} (h : Ramp.step s a = some s') (hs : ∀ c srv, a ≠ .serve c srv) : s'.tables = s.tables := by
  cases step_took h with
  | serve _ => exact absurd rfl (hs _ _)
  | _ => rfl

theorem ret_set {c c' : Nat} {cl : Client cp.Server} {r : Ret} (h : phase_ret ((s.set c cl).clients c').phase = some r) :
    (c' = c ∧ phase_ret cl.phase = some r) ∨ (c' ≠ c ∧ phase_ret (s.clients c').phase = some r) := by
  have h : phase_ret (Function.update s.clients c cl c').phase = some r := h
  by_cases e : c' = c
  · subst e
    rw [Function.update_self] at h
    exact .inl ⟨rfl, h⟩
  · rw [Function.update_of_ne e] at h
    exact .inr ⟨e, h⟩

/-- Only an answer changes `ret`, and a `get_all` that starts. -/
theorem sys_ret {a : Ramp.Act (fast cp C)} (h : Ramp.step s a = some s') (hr : ∀ c srv, a ≠ .recv c srv) {c : Nat} {r : Ret}
    (hret : phase_ret (s'.clients c).phase = some r) :
    phase_ret (s.clients c).phase = some r ∨ (∃ trx, a = .get_all c trx) ∧ r = .empty := by
  -- the phase of the client of the step, before it
  have self : ∀ {c' : Nat} {cl : Client cp.Server}, s'.clients = (s.set c' cl).clients →
      (phase_ret cl.phase = some r → phase_ret (s.clients c').phase = some r) → phase_ret (s.clients c).phase = some r := by
    intro c' cl hs hcl
    rw [hs] at hret
    rcases ret_set hret with ⟨rfl, hc⟩ | ⟨-, hc⟩
    · exact hcl hc
    · exact hc
  cases step_took h with
  | put_all _ => exact .inl (self rfl fun e => by cases e)
  | prepare hp _ _ => exact .inl (self rfl fun e => by cases e)
  | begin_commit hp _ => exact .inl (self rfl fun e => by cases e)
  | commit hp _ _ => exact .inl (self rfl fun e => by cases e)
  | put_return hp _ => exact .inl (self rfl fun e => by cases e)
  | @get_all c' trx _ =>
    rcases ret_set hret with ⟨rfl, hc⟩ | ⟨-, hc⟩
    · cases hc
      exact .inr ⟨⟨trx, rfl⟩, rfl⟩
    · exact .inl hc
  | @ask c' fuel key g todo r' ret' cl hp _ _ ha =>
    simp only [Client.ask, Bool.false_eq_true, if_false] at ha
    cases ha
    exact .inl (self rfl fun e => by rw [hp]; exact e)
  | check hp _ => exact .inl (self rfl fun e => by rw [hp]; exact e)
  | skip hp _ => exact .inl (self rfl fun e => by rw [hp]; exact e)
  | fetch hp _ _ => exact .inl (self rfl fun e => by rw [hp]; exact e)
  | get_return hp _ => exact .inl (self rfl fun e => by cases e)
  | recv_put _ => exact absurd rfl (hr _ _)
  | recv_first _ _ => exact absurd rfl (hr _ _)
  | recv_second _ _ => exact absurd rfl (hr _ _)
  | clear hp => exact .inl (self rfl fun e => e)
  | serve _ => exact .inl (self rfl fun e => e)

/-- What an answer does to `ret`. -/
theorem recv_ret {c c' : Nat} {srv : cp.Server} {r : Request} {a : Answer} (hx : conn s c srv = .answered r a)
    (hs : RAMPFast.sends false r = true) (h : Ramp.step s (.recv c srv) = some s') {q : Ret}
    (hret : phase_ret (s'.clients c').phase = some q) :
    c' ≠ c ∧ phase_ret (s.clients c').phase = some q ∨
    c' = c ∧ ∃ key ts item q', r = .GET key ts ∧ a = .RESULT item ∧ phase_ret (s.clients c).phase = some q' ∧
      q = ConcurrentMap.set q' key item := by
  have take : ∀ {q' : Ret} {addrs addrs' : ConcurrentMap Key Nat}, take_answer q' addrs r a = some (q, addrs') →
      ∃ key ts item, r = .GET key ts ∧ a = .RESULT item ∧ q = ConcurrentMap.set q' key item := by
    intro q' addrs addrs' ht
    unfold take_answer at ht
    split at ht
    · cases ht
      exact ⟨_, _, _, rfl, rfl, rfl⟩
    · cases hs
    · cases ht
  simp only [Ramp.step] at h
  have hx : (s.clients c).conns srv = .answered r a := hx
  simp only [hx] at h
  split at h
  · rename_i g todo q' hp
    have hp : (s.clients c).phase = .first g todo q' := hp
    split at h
    · rename_i q1 addrs ht
      cases h
      rcases ret_set hret with ⟨rfl, hc⟩ | hc
      · cases hc
        obtain ⟨key, ts, item, h1, h2, h3⟩ := take ht
        exact .inr ⟨rfl, key, ts, item, q', h1, h2, by rw [hp]; rfl, h3⟩
      · exact .inl hc
    · cases h
  · rename_i g v todo q' hp
    have hp : (s.clients c).phase = .second g v todo q' := hp
    split at h
    · rename_i q1 addrs ht
      cases h
      rcases ret_set hret with ⟨rfl, hc⟩ | hc
      · cases hc
        obtain ⟨key, ts, item, h1, h2, h3⟩ := take ht
        exact .inr ⟨rfl, key, ts, item, q', h1, h2, by rw [hp]; rfl, h3⟩
      · exact .inl hc
    · cases h
  · rename_i h1 h2
    cases h
    rcases ret_set hret with ⟨rfl, hc⟩ | hc
    · have hc : phase_ret (s.clients c').phase = some q := hc
      unfold phase_ret at hc
      split at hc
      · rename_i hp
        exact absurd hp (h1 _ _ _)
      · rename_i hp
        exact absurd hp (h2 _ _ _ _)
      · cases hc
    · exact .inl hc

end

/-! ## The invariant -/

/-- The views on a server, against the versions in its table and what its executors are serving. -/
structure ServerInv (e : Views.State Nat) (items : ConcurrentMap Timestamp (List Item))
    (executor : Nat → Session.Executor Request) : Prop where
  views : Views.Inv e
  items : e.sent.items = items
  unpk : ∀ c, e.unpk c ≠ none
  /-- A version that is yet to be stored. -/
  taken : ∀ c item, executor c = .serving (.PREPARE item) →
    (convert M c (item_pos P (e.unpk c) item) item).read e.buf = some item

/-- The views of a handler, against the items in `ret`. -/
structure HandlerInv (h : Handler cp) (r : Option Ret) : Prop where
  ret : ∀ q, r = some q → ∀ key, (h.ret.find key).map (·.read h.buf) = (q.find key).map some
  held : ∀ key v, h.ret.find key = some v → v ∈ h.held

structure Inv (s : State cp C) : Prop where
  wired : Wired.Inv P tr rkeys s.wired
  server : ∀ srv, ServerInv P M (s.executors srv) (s.wired.sys.tables srv).items fun c => (s.wired.wires c srv).executor
  handler : ∀ c, HandlerInv (s.handlers c) (phase_ret (s.wired.sys.clients c).phase)

theorem inv_init : Inv P M tr rkeys (.init tr cp C) where
  wired := Wired.inv_init P tr rkeys
  server _ := ⟨Views.inv_init, rfl, (by rintro _ ⟨⟩), fun _ _ h => by cases h⟩
  handler _ := ⟨fun _ h => by (cases h), fun _ _ h => by cases h⟩

variable {P M tr rkeys} {s s' : State cp C}

theorem ServerInv.mono {e : Views.State Nat} {items : ConcurrentMap Timestamp (List Item)}
    {executor executor' : Nat → Session.Executor Request} (h : ServerInv P M e items executor)
    (he : ∀ c r, executor' c = .serving r → executor c = .serving r) : ServerInv P M e items executor' :=
  ⟨h.views, h.items, h.unpk, fun c item hc => h.taken c item (he c _ hc)⟩

theorem HandlerInv.mono {h : Handler cp} {r r' : Option Ret} (hi : HandlerInv h r) (hr : ∀ q, r' = some q → r = some q) :
    HandlerInv h r' :=
  ⟨fun q hq => hi.ret q (hr q hq), hi.held⟩

theorem shown_all {E : Type} {buf : E → Option Mem} {l : List (StoredItem E)} {is : List Item}
    (h : l.map (·.read buf) = is.map some) : l.map (shown buf) = is := by
  have := congrArg (List.map fun o : Option Item => o.getD .empty) h
  rw [List.map_map, List.map_map] at this
  show l.map (fun v => (v.read buf).getD .empty) = is
  simpa [Function.comp_def] using this

theorem ServerInv.shown {e : Views.State Nat} {items : ConcurrentMap Timestamp (List Item)}
    {executor : Nat → Session.Executor Request} (h : ServerInv P M e items executor) :
    (fun ts => (e.items.find ts).map (·.map (shown e.buf))) = items := by
  funext ts
  have hv := h.views.items ts
  rw [h.items] at hv
  show _ = items.find ts
  cases hf : e.items.find ts <;> cases hg : items.find ts <;> rw [hf, hg] at hv
  · rfl
  · cases hv
  · cases hv
  · exact congrArg some (shown_all (Option.some.inj hv))

theorem HandlerInv.shown {h : Handler cp} {q : Ret} (hi : HandlerInv h (some q)) :
    (fun key => (h.ret.find key).map (shown h.buf)) = q := by
  funext key
  have hr := hi.ret q rfl key
  show _ = q.find key
  cases hf : h.ret.find key <;> cases hg : q.find key <;> rw [hf, hg] at hr
  · rfl
  · cases hr
  · cases hr
  · rw [Option.map_some] at hr ⊢
    rw [Viewed.shown, Option.some.inj hr]
    rfl

/-- What the views show is what the decoded items are. -/
theorem seen_eq (hi : Inv P M tr rkeys s) : s.seen = s.wired := by
  have htable : s.table = s.wired.sys.tables := by
    funext srv
    rw [State.table, (hi.server srv).shown]
  have hclient : s.client = s.wired.sys.clients := by
    funext c
    have hret := hi.handler c
    have hphase : with_ret (fun key => ((s.handlers c).ret.find key).map (shown (s.handlers c).buf)) (s.wired.sys.clients c).phase =
        (s.wired.sys.clients c).phase := by
      cases hp : (s.wired.sys.clients c).phase with
      | first g todo r =>
        rw [hp] at hret
        exact congrArg (Phase.first g todo) hret.shown
      | second g v todo r =>
        rw [hp] at hret
        exact congrArg (Phase.second g v todo) hret.shown
      | _ => rfl
    rw [State.client, hphase]
  rw [State.seen, htable, hclient]

theorem step_seen (hi : Inv P M tr rkeys s) (a : Wired.Act cp C) :
    step P M tr rkeys s a = (Wired.step P tr rkeys s.wired a).map fun w => after P M s w a := by
  rw [step, seen_eq hi]

theorem step_wired (hi : Inv P M tr rkeys s) {a : Wired.Act cp C} {w : Wired.State cp C}
    (h : Wired.step P tr rkeys s.wired a = some w) : step P M tr rkeys s a = some (after P M s w a) := by
  rw [step_seen hi, h]
  rfl

/-! ## Steps that receive nothing -/

/-- Neither the views nor what they are views of. -/
theorem Inv.frame (hi : Inv P M tr rkeys s) {w : Wired.State cp C} (hw : Wired.Inv P tr rkeys w)
    (htab : w.sys.tables = s.wired.sys.tables)
    (hexec : ∀ c srv r, (w.wires c srv).executor = .serving r → (s.wired.wires c srv).executor = .serving r)
    (hret : ∀ c q, phase_ret (w.sys.clients c).phase = some q → phase_ret (s.wired.sys.clients c).phase = some q) :
    Inv P M tr rkeys { s with wired := w } where
  wired := hw
  server srv := by
    rw [htab]
    exact (hi.server srv).mono fun c r => hexec c srv r
  handler c := (hi.handler c).mono (hret c)

/-- Only `take` gives an executor a request. -/
theorem executor_wire {w : Wired.State cp C} {c : Nat} {srv : cp.Server} {x : Wired.Wire}
    (h : ∀ r, x.executor = .serving r → (w.wires c srv).executor = .serving r) {sys : Ramp.State (fast cp C)} :
    ∀ c' srv' r, (({ w with sys := sys }.wire c srv x).wires c' srv').executor = .serving r → (w.wires c' srv').executor = .serving r := by
  intro c' srv' r he
  rw [Wired.conn_wire] at he
  split at he
  · rename_i e
    rw [e.1, e.2]
    exact h r he
  · exact he

theorem ask_executor {x x' : Wired.Wire} {r : Request} (h : Session.step (mode P) tr rkeys x (.ask r) = some x') :
    x'.executor = x.executor := by
  simp only [Session.step] at h
  split at h
  · split at h
    · obtain ⟨net, _, rfl⟩ := Option.map_eq_some_iff.mp h
      rfl
    · cases h
  · cases h

theorem answer_executor {x x' : Wired.Wire} {a : Answer} (h : Session.step (mode P) tr rkeys x (.answer a) = some x') :
    x'.executor = .loop := by
  simp only [Session.step] at h
  split at h
  · split at h
    · obtain ⟨net, _, rfl⟩ := Option.map_eq_some_iff.mp h
      rfl
    · cases h
  · cases h

theorem result_executor {x x' : Wired.Wire} {vars : RAMPFast.Vars} (h : Session.step (mode P) tr rkeys x (.result vars) = some x') :
    x'.executor = x.executor := by
  simp only [Session.step] at h
  split at h <;> cases h
  rfl

theorem net_executor {x x' : Wired.Wire} {a : Verbs.Connection.Act} (h : Session.step (mode P) tr rkeys x (.net a) = some x') :
    x'.executor = x.executor := by
  simp only [Session.step] at h
  split at h
  · obtain ⟨net, _, rfl⟩ := Option.map_eq_some_iff.mp h
    rfl
  · cases h

/-- A handler that goes on. -/
theorem go_frame (hi : Inv P M tr rkeys s) {a : Ramp.Act (fast cp C)} (hr : ∀ c srv, a ≠ .recv c srv)
    (hs : ∀ c srv, a ≠ .serve c srv) (hg : ∀ c trx, a ≠ .get_all c trx) {w : Wired.State cp C}
    (h : Wired.go P tr rkeys s.wired a = some w) : Inv P M tr rkeys { s with wired := w } := by
  have hw := Wired.inv_go hi.wired hr hs h
  unfold Wired.go at h
  split at h
  · cases h
  rename_i sys hsys
  have hret : ∀ c r, phase_ret (sys.clients c).phase = some r → phase_ret (s.wired.sys.clients c).phase = some r := by
    intro c r hc
    rcases sys_ret hsys hr hc with h | ⟨⟨trx, e⟩, -⟩
    · exact h
    · exact absurd e (hg c trx)
  split at h
  · cases h
    exact hi.frame hw (sys_items hsys hs) (fun _ _ _ he => he) hret
  · split at h
    · obtain ⟨x, hx, rfl⟩ := Option.map_eq_some_iff.mp h
      exact hi.frame hw (sys_items hsys hs) (executor_wire fun r he => by rwa [ask_executor hx] at he) hret
    · cases h

/-- `ret` is empty. -/
theorem get_all_inv (hi : Inv P M tr rkeys s) {c : Nat} {trx : Transaction} {w : Wired.State cp C}
    (h : Wired.go P tr rkeys s.wired (.get_all c trx) = some w) :
    Inv P M tr rkeys
      { s with wired := w, handlers := Function.update s.handlers c { s.handlers c with ret := .empty, held := [] } } := by
  have hw := Wired.inv_go hi.wired (fun _ _ e => by cases e) (fun _ _ e => by cases e) h
  unfold Wired.go at h
  split at h
  · cases h
  rename_i sys hsys
  cases h
  refine ⟨hw, fun srv => ?_, ?_⟩
  · show ServerInv P M _ (sys.tables srv).items _
    rw [sys_items hsys fun _ _ e => by cases e]
    exact hi.server srv
  · refine (Function.forall_update_iff s.handlers fun c' h => HandlerInv h (phase_ret (sys.clients c').phase)).mpr ⟨?_, fun c' e => ?_⟩
    · refine ⟨fun q hq => ?_, fun key v hv => by cases hv⟩
      cases step_took hsys with
      | get_all _ =>
        rcases ret_set hq with ⟨-, hc⟩ | ⟨hne, -⟩
        · cases hc
          exact fun key => rfl
        · exact absurd rfl hne
    · refine (hi.handler c').mono fun q hq => ?_
      rcases sys_ret hsys (fun _ _ e => by cases e) hq with hq | ⟨⟨trx', e'⟩, -⟩
      · exact hq
      · cases e'
        exact absurd rfl e

/-! ## An executor -/

/-- A version is stored, and its views. -/
theorem ServerInv.push_back {e : Views.State Nat} {t t' : Table} {executor : Nat → Session.Executor Request}
    (h : ServerInv P M e t.items executor) {c : Nat} {item : Item} (hc : executor c = .serving (.PREPARE item))
    (ht : t'.items = (t.push_back item).items) :
    ServerInv P M (e.push_back M c (item_pos P (e.unpk c) item) item) t'.items executor where
  views := Views.inv_push_back h.views (h.taken c item hc)
  items := by
    rw [ht]
    show (Store.push_back _ item).items = _
    simp only [Store.push_back, Store.versions, h.items]
  unpk := h.unpk
  taken := h.taken

theorem serve_inv (hi : Inv P M tr rkeys s) {c : Nat} {srv : cp.Server} {sys : Ramp.State (fast cp C)} {r : Request}
    (he : (s.wired.wires c srv).executor = .serving r) (h : Ramp.step s.wired.sys (.serve c srv) = some sys) :
    Inv P M tr rkeys (after P M s { s.wired with sys := sys } (.sys (.serve c srv))) := by
  have hw := Wired.inv_serve hi.wired he h
  obtain ⟨p, hp, ht⟩ := hi.wired.tied c srv
  have hx := hp.executor
  rw [he] at hx
  cases p <;> cases hx
  have hret : ∀ c' q, phase_ret (sys.clients c').phase = some q → phase_ret (s.wired.sys.clients c').phase = some q := by
    intro c' q hq
    rcases sys_ret h (fun _ _ e => by cases e) hq with hq | ⟨⟨_, e⟩, -⟩
    · exact hq
    · cases e
  obtain ⟨t, x, hserve, htab⟩ : ∃ t x, Ramp.serve C (s.wired.sys.tables srv) (conn s.wired.sys c srv) = some (t, x) ∧
      sys.tables = Function.update s.wired.sys.tables srv t := by
    cases step_took h with
    | serve hserve => exact ⟨_, _, hserve, rfl⟩
  have hother : ∀ srv', srv' ≠ srv → sys.tables srv' = s.wired.sys.tables srv' := fun srv' e => by
    rw [htab, Function.update_of_ne e]
  have hself : sys.tables srv = t := by rw [htab, Function.update_self]
  rcases serve_items hserve with ⟨item, hx, ht'⟩ | ⟨hx, ht'⟩
  · have hreq : Request.PREPARE item = r := by
      have := ht.1
      rw [hx] at this
      exact Option.some.inj this
    subst hreq
    simp only [after, hx]
    refine ⟨hw, ?_, fun c' => (hi.handler c').mono (hret c')⟩
    refine (Function.forall_update_iff s.executors fun srv' e =>
      ServerInv P M e (sys.tables srv').items fun c => (s.wired.wires c srv').executor).mpr ⟨?_, fun srv' e => ?_⟩
    · rw [hself]
      exact (hi.server srv).push_back he ht'
    · rw [hother srv' e]
      exact hi.server srv'
  · have hafter : after P M s { s.wired with sys := sys } (.sys (.serve c srv)) = { s with wired := { s.wired with sys := sys } } := by
      simp only [after]
    rw [hafter]
    refine ⟨hw, fun srv' => ?_, fun c' => (hi.handler c').mono (hret c')⟩
    show ServerInv P M _ (sys.tables srv').items _
    by_cases e : srv' = srv
    · subst e
      rw [hself, ht']
      exact hi.server srv'
    · rw [hother srv' e]
      exact hi.server srv'

/-- A body that is put over nothing stored: of a PREPARE, it shows the version. -/
theorem ServerInv.recv_body {e : Views.State Nat} {items : ConcurrentMap Timestamp (List Item)}
    {executor executor' : Nat → Session.Executor Request} (h : ServerInv P M e items executor) {c : Nat} {u : Views.Unpacker}
    {r : Request} (hu : e.buf c = some u.buffer)
    (hk : ∀ v ∈ e.stored, ∀ p ∈ v.values.toList, p.2.Apart c u.used ((mode P).request r).body.length)
    (hc : executor' c = .serving r) (hother : ∀ c', c' ≠ c → executor' c' = executor c') :
    ServerInv P M (e.recv_body c u ((mode P).request r).body) items executor' where
  views := Views.inv_recv_body h.views hu hk
  items := h.items
  unpk c' := by
    by_cases e' : c' = c
    · subst e'
      simp [Views.State.recv_body]
    · simp only [Views.State.recv_body, Function.update_of_ne e']
      exact h.unpk c'
  taken c' item hi := by
    rw [Views.buf_recv_body]
    by_cases e' : c' = c
    · subst e'
      rw [hc] at hi
      cases hi
      have hpos : item_pos P ((e.recv_body c' u ((mode P).request (.PREPARE item)).body).unpk c') item = u.used := by
        simp only [item_pos, Views.State.recv_body, Function.update_self, Option.getD_some, Views.Unpacker.fill]
        show u.used + (P.pack .item item).length - (P.pack .item item).length = u.used
        exact Nat.add_sub_cancel ..
      rw [hpos]
      exact Views.read_convert item u
    · -- the buffer of another connection
      have hunpk : (e.recv_body c u ((mode P).request r).body).unpk c' = e.unpk c' := by
        simp only [Views.State.recv_body, Function.update_of_ne e']
      rw [hunpk, ← h.taken c' item (by rw [← hother c' e', hi])]
      refine Views.read_congr fun p hp => Views.bytes_fill hu fun hcom => absurd ?_ e'
      rw [← hcom]
      obtain ⟨f, q⟩ := p
      have hf := Std.ExtTreeMap.mem_toList_iff_getElem?_eq_some.mp hp
      rw [convert, Std.ExtTreeMap.getElem?_map, Option.map_eq_some_iff] at hf
      obtain ⟨v, -, rfl⟩ := hf
      rfl

/-- The body that is taken is that of the request. -/
theorem request_eq (hi : Inv P M tr rkeys s) {c : Nat} {srv : cp.Server} {w : Wired.State cp C}
    (h : Wired.step P tr rkeys s.wired (.take c srv) = some w) :
    ∃ r x, conn s.wired.sys c srv = .asked r ∧ (s.wired.wires c srv).executor = .loop ∧
      s.request c srv = ((mode P).request r).body ∧ x.executor = .serving r ∧ w = s.wired.wire c srv x := by
  simp only [Wired.step] at h
  split at h
  · cases h
  rename_i x hx
  split at h
  · rename_i r he
    cases h
    obtain ⟨hsys, -⟩ := Wired.inv_take hi.wired hx he
    obtain ⟨p, hp, ht⟩ := hi.wired.tied c srv
    obtain ⟨r', rfl, hp'⟩ | ⟨rfl, -⟩ := Session.take_inv hp hx
    · obtain rfl : r' = r := by
        have hr := hp'.executor
        rw [he] at hr
        cases hr
        rfl
      refine ⟨r', x, ht, hp.executor, ?_, he, by rw [hsys]⟩
      simp only [Session.step] at hx
      split at hx
      · rename_i header body _ hrec
        have hb : body = ((mode P).request r').body := Session.taken_body hp hrec
        rw [← hb, State.request, hrec]
        rfl
      · cases hx
    · cases ht
  · cases h

/-- The body that a handler gets is that of the answer. -/
theorem answer_eq (hi : Inv P M tr rkeys s) {c : Nat} {srv : cp.Server} {vars : RAMPFast.Vars} {w : Wired.State cp C}
    (h : Wired.step P tr rkeys s.wired (.recv c srv vars) = some w) :
    ∃ r a x sys, conn s.wired.sys c srv = .answered r a ∧ RAMPFast.sends false r = true ∧
      s.answer c srv = ((mode P).answer a).body ∧ x.results.getLast? = some (r, a) ∧
      x.executor = (s.wired.wires c srv).executor ∧ Ramp.step s.wired.sys (.recv c srv) = some sys ∧
      w = { s.wired with sys := sys }.wire c srv x := by
  simp only [Wired.step] at h
  split at h
  · cases h
  rename_i x hx
  split at h
  · rename_i r a hl
    obtain ⟨sys, hsys, rfl⟩ := Option.map_eq_some_iff.mp h
    obtain ⟨p, hp, ht⟩ := hi.wired.tied c srv
    obtain ⟨r', a', rfl, hres, hp'⟩ := Session.result_inv hp hx
    have hl' := hl
    rw [hres, List.getLast?_concat] at hl'
    cases hl'
    have ht : conn s.wired.sys c srv = .answered r a := ht
    rw [Wired.put_self ht] at hsys
    refine ⟨r, a, x, sys, ht, hp.sound.1, ?_, hl, result_executor hx, hsys, rfl⟩
    simp only [Session.step] at hx
    split at hx
    · rename_i r' header body _ hrec
      have hb : body = ((mode P).answer a).body := Session.got_body hp hrec
      rw [← hb, State.answer, hrec]
      rfl
    · cases hx
  · cases h

theorem executor_buf {e : Views.State Nat} {items : ConcurrentMap Timestamp (List Item)}
    {executor : Nat → Session.Executor Request} (h : ServerInv P M e items executor) (c size : Nat) :
    e.buf c = some (((e.unpk c).getD {}).reserve_buffer M.capacity size).buffer := by
  rw [Views.reserve_buffer_buffer, Views.State.buf]
  cases hu : e.unpk c with
  | none => exact absurd hu (h.unpk c)
  | some u => rfl

theorem take_inv (hi : Inv P M tr rkeys s) {c : Nat} {srv : cp.Server} {w : Wired.State cp C}
    (hk : Kept P M s (.take c srv)) (h : Wired.step P tr rkeys s.wired (.take c srv) = some w) :
    Inv P M tr rkeys (after P M s w (.take c srv)) := by
  have hw := Wired.step_inv hi.wired h
  obtain ⟨r, x, -, -, hbody, he, rfl⟩ := request_eq hi h
  simp only [Kept, hbody] at hk
  simp only [after, hbody]
  refine ⟨hw, ?_, hi.handler⟩
  refine (Function.forall_update_iff s.executors fun srv' e => ServerInv P M e (s.wired.sys.tables srv').items fun c' =>
    ((s.wired.wire c srv x).wires c' srv').executor).mpr ⟨?_, fun srv' e => ?_⟩
  · refine (hi.server srv).recv_body (executor_buf (hi.server srv) c _) hk ?_ fun c' e => ?_
    · rw [Wired.conn_wire, if_pos ⟨rfl, rfl⟩, he]
    · rw [Wired.conn_wire, if_neg fun h => e h.1]
  · refine (hi.server srv').mono fun c' r hc => ?_
    rwa [Wired.conn_wire, if_neg fun h => e h.2] at hc

/-! ## A handler -/

theorem handler_buf (h : Handler cp) (srv : cp.Server) (size : Nat) :
    h.buf srv = some ((h.unpk srv).reserve_buffer M.capacity size).buffer := by
  rw [Views.reserve_buffer_buffer, Handler.buf]

theorem buf_recv_body (h : Handler cp) (srv : cp.Server) (u : Views.Unpacker) (body : List UInt8) :
    (h.recv_body srv u body).buf = Function.update h.buf srv (some (u.fill body).buffer) := by
  funext srv'
  by_cases e : srv' = srv
  · subst e
    simp [Handler.buf, Handler.recv_body]
  · simp [Handler.buf, Handler.recv_body, Function.update_of_ne e]

/-- A body that is put over nothing in `ret`. -/
theorem HandlerInv.recv_body {h : Handler cp} {r : Option Ret} (hi : HandlerInv h r) {srv : cp.Server} {u : Views.Unpacker}
    {body : List UInt8} (hu : h.buf srv = some u.buffer)
    (hk : ∀ v ∈ h.held, ∀ p ∈ v.values.toList, p.2.Apart srv u.used body.length) : HandlerInv (h.recv_body srv u body) r := by
  refine ⟨fun q hq key => ?_, hi.held⟩
  rw [← hi.ret q hq key]
  show Option.map _ (h.ret.find key) = _
  rcases hv : h.ret.find key with _ | v
  · rfl
  · rw [buf_recv_body]
    exact congrArg some (Views.read_congr fun p hp => Views.bytes_fill hu (hk v (hi.held key v hv) p hp))

/-- `ret[key]` is the item of the body. -/
theorem HandlerInv.set {h : Handler cp} {key : Key} {v : StoredItem cp.Server} {item : Item} {r r' : Option Ret}
    (hi : HandlerInv h r) (hv : v.read h.buf = some item)
    (hr : ∀ q', r' = some q' → ∃ q, r = some q ∧ q' = ConcurrentMap.set q key item) : HandlerInv (h.set key v) r' := by
  refine ⟨fun q' hq key' => ?_, fun key' v' hv' => ?_⟩
  · obtain ⟨q, hr, rfl⟩ := hr q' hq
    show Option.map (·.read h.buf) ((h.ret.set key v).find key') = _
    rw [ConcurrentMap.find_set, ConcurrentMap.find_set]
    split
    · exact congrArg some hv
    · exact hi.ret q hr key'
  · have hv' : (h.ret.set key v).find key' = some v' := hv'
    rw [ConcurrentMap.find_set] at hv'
    split at hv'
    · cases hv'
      exact List.mem_cons_self
    · exact List.mem_cons_of_mem _ (hi.held key' v' hv')

theorem recv_inv (hi : Inv P M tr rkeys s) {c : Nat} {srv : cp.Server} {vars : RAMPFast.Vars} {w : Wired.State cp C}
    (hk : Kept P M s (.recv c srv vars)) (h : Wired.step P tr rkeys s.wired (.recv c srv vars) = some w) :
    Inv P M tr rkeys (after P M s w (.recv c srv vars)) := by
  have hw := Wired.step_inv hi.wired h
  obtain ⟨r, a, x, sys, ht, hsends, hbody, hlast, he, hsys, rfl⟩ := answer_eq hi h
  simp only [Kept, hbody] at hk
  have hlast : (({ s.wired with sys := sys }.wire c srv x).wires c srv).results.getLast? = some (r, a) := by
    rw [Wired.wires_wire, hlast]
  have hserver : ∀ srv', ServerInv P M (s.executors srv') (sys.tables srv').items fun c' =>
      (({ s.wired with sys := sys }.wire c srv x).wires c' srv').executor := by
    intro srv'
    rw [sys_items hsys fun _ _ e => by cases e]
    refine (hi.server srv').mono fun c' r hc => ?_
    exact executor_wire (fun r hr => by rwa [he] at hr) c' srv' r hc
  have hrecv := (hi.handler c).recv_body (handler_buf (s.handlers c) srv _) hk
  have hother : ∀ c', c' ≠ c → HandlerInv (s.handlers c') (phase_ret (sys.clients c').phase) := by
    intro c' e
    refine (hi.handler c').mono fun q hq => ?_
    rcases recv_ret ht hsends hsys hq with ⟨-, hq⟩ | ⟨e', -⟩
    · exact hq
    · exact absurd e' e
  simp only [after, hbody, hlast]
  split
  · -- an item
    rename_i key ts item e
    cases e
    refine ⟨hw, hserver, ?_⟩
    refine (Function.forall_update_iff s.handlers fun c' h => HandlerInv h (phase_ret (sys.clients c').phase)).mpr ⟨?_, hother⟩
    refine hrecv.set (?_ : _ = some item) fun q hq => ?_
    · rw [buf_recv_body]
      exact Views.read_convert item _
    · rcases recv_ret ht hsends hsys hq with ⟨e, -⟩ | ⟨-, key', ts', item', q', hreq, ha, hq', hset⟩
      · exact absurd rfl e
      · cases hreq
        cases ha
        exact ⟨q', hq', hset⟩
  · rename_i hno
    refine ⟨hw, hserver, ?_⟩
    refine (Function.forall_update_iff s.handlers fun c' h => HandlerInv h (phase_ret (sys.clients c').phase)).mpr ⟨?_, hother⟩
    refine hrecv.mono fun q hq => ?_
    rcases recv_ret ht hsends hsys hq with ⟨e, -⟩ | ⟨-, key, ts, item, q', rfl, rfl, -⟩
    · exact absurd rfl e
    · exact absurd rfl (hno _ _ _)

/-! ## Runs -/

theorem step_inv (hi : Inv P M tr rkeys s) {a : Wired.Act cp C} (hk : Kept P M s a) (hs : step P M tr rkeys s a = some s') :
    Inv P M tr rkeys s' := by
  rw [step_seen hi] at hs
  obtain ⟨w, h, rfl⟩ := Option.map_eq_some_iff.mp hs
  have hw := Wired.step_inv hi.wired h
  cases a with
  | sys a =>
    cases a with
    | recv c srv => cases h
    | serve c srv =>
      simp only [Wired.step] at h
      split at h
      · rename_i r he
        obtain ⟨sys, hsys, rfl⟩ := Option.map_eq_some_iff.mp h
        exact serve_inv hi he hsys
      · cases h
    | get_all c trx => exact get_all_inv hi h
    | _ => exact go_frame hi (fun _ _ e => by cases e) (fun _ _ e => by cases e) (fun _ _ e => by cases e) h
  | take c srv => exact take_inv hi hk h
  | recv c srv vars => exact recv_inv hi hk h
  | answer c srv =>
    simp only [Wired.step] at h
    split at h
    · obtain ⟨x, hx, rfl⟩ := Option.map_eq_some_iff.mp h
      exact hi.frame hw rfl (executor_wire fun r he => by rw [answer_executor hx] at he; cases he) fun _ _ hr => hr
    · cases h
  | net c srv b =>
    simp only [Wired.step] at h
    obtain ⟨x, hx, rfl⟩ := Option.map_eq_some_iff.mp h
    exact hi.frame hw rfl (executor_wire fun r he => by rwa [net_executor hx] at he) fun _ _ hr => hr

theorem inv (h : Reach (step P M tr rkeys) (Kept P M) (.init tr cp C) s) : Inv P M tr rkeys s :=
  h.inv (Inv P M tr rkeys) (inv_init P M tr rkeys) fun _ _ _ hi hk hs => step_inv hi hk hs

/-- In runs that keep the values, what the views show is a state that `Ramp.System` reaches: every
    request on it is the one its handler waits for, and what an executor serves is what it was sent. -/
theorem viewed_refines (h : Reach (step P M tr rkeys) (Kept P M) (.init tr cp C) s) :
    Reachable s.seen.sys ∧ ∀ c srv r,
      ((conn s.seen.sys c srv).req = some r ↔ (s.seen.wires c srv).caller = .waiting r) ∧
      ((s.seen.wires c srv).executor = .serving r → (s.seen.wires c srv).caller = .waiting r) := by
  have hi := inv h
  rw [seen_eq hi]
  exact hi.wired.refines

/-! ## The wires keep up -/

theorem after_wired (w : Wired.State cp C) (a : Wired.Act cp C) : (after P M s w a).wired = w := by
  unfold after
  split <;> first | rfl | (split <;> rfl)

/-- With other wires. -/
def State.to (s : State cp C) (w : Wired.State cp C) : State cp C := { s with wired := w }

theorem waits_inner (hi : Inv P M tr rkeys s) {c : Nat} {srv : cp.Server} {x : Wired.Wire}
    (h : Session.Waits (mode P) tr rkeys (s.wired.wires c srv) x) :
    Reach (step P M tr rkeys) (Kept P M) s (s.to (s.wired.wire c srv x)) := by
  induction h with
  | refl =>
    rw [Wired.wire_self]
    exact .refl
  | @tail x x' a _ ha hs ih =>
    obtain ⟨b, rfl⟩ := ha
    have hi1 := ih.inv (Inv P M tr rkeys) hi fun _ _ _ hi hk hs => step_inv hi hk hs
    refine ih.tail (a := .net c srv b) trivial ?_
    rw [step_seen hi1]
    simp only [State.to, Wired.step, Wired.wires_wire, hs, Option.map_some, Wired.wire_wire, after]

theorem waits_executor {x x' : Wired.Wire} (h : Session.Waits (mode P) tr rkeys x x') : x'.executor = x.executor := by
  induction h with
  | refl => rfl
  | tail _ ha hs ih =>
    obtain ⟨b, rfl⟩ := ha
    rw [net_executor hs, ih]

/-- Only the connections have taken steps. -/
structure Waited (s s1 : State cp C) : Prop where
  sys : s1.wired.sys = s.wired.sys
  executor : ∀ c srv, (s1.wired.wires c srv).executor = (s.wired.wires c srv).executor
  executors : s1.executors = s.executors
  handlers : s1.handlers = s.handlers

/-- What comes over the wires comes here, where the next body is put over no value. -/
theorem comes (hi : Inv P M tr rkeys s) {a : Wired.Act cp C} {w : Wired.State cp C} (h : Wired.Comes P tr rkeys s.wired a w)
    (hk : ∀ s1, Inv P M tr rkeys s1 → Waited s s1 → Wired.step P tr rkeys s1.wired a = some w → Kept P M s1 a) :
    ∃ s', Reach (step P M tr rkeys) (Kept P M) s s' ∧ s'.wired = w := by
  obtain ⟨c, srv, x, hx, hs⟩ := h
  have hw := waits_inner hi hx
  have hi1 := hw.inv (Inv P M tr rkeys) hi fun _ _ _ hi hk hs => step_inv hi hk hs
  have hwaited : Waited s (s.to (s.wired.wire c srv x)) := by
    refine ⟨rfl, fun c' srv' => ?_, rfl, rfl⟩
    show ((s.wired.wire c srv x).wires c' srv').executor = _
    rw [Wired.conn_wire]
    split
    · rename_i e
      rw [e.1, e.2, waits_executor hx]
    · rfl
  exact ⟨after P M (s.to (s.wired.wire c srv x)) w a, hw.tail (a := a) (hk _ hi1 hwaited hs) (step_wired hi1 hs), after_wired w a⟩

/-- An answer is put over no value in `ret`. -/
theorem recv_kept {s1 : State cp C} {c : Nat} {srv : cp.Server} {vars : RAMPFast.Vars} {w : Wired.State cp C}
    (hgets : ∀ r a, conn s.wired.sys c srv = .answered r a → s.GetsApart P M c srv ((mode P).answer a).body.length)
    (hi1 : Inv P M tr rkeys s1) (hsys : s1.wired.sys = s.wired.sys) (hh : s1.handlers = s.handlers)
    (h : Wired.step P tr rkeys s1.wired (.recv c srv vars) = some w) : Kept P M s1 (.recv c srv vars) := by
  obtain ⟨r, a, x, sys, ht, -, hbody, -⟩ := answer_eq hi1 h
  rw [hsys] at ht
  simp only [Kept, State.GetsApart, State.handler_unpk, hbody, hh]
  exact hgets r a ht

/-- A request is put over no stored value. -/
theorem take_kept {s1 : State cp C} {c : Nat} {srv : cp.Server} {w : Wired.State cp C}
    (htakes : ∀ r, conn s.wired.sys c srv = .asked r → (s.wired.wires c srv).executor = .loop →
      s.TakesApart P M c srv ((mode P).request r).body.length)
    (hi1 : Inv P M tr rkeys s1) (hw : Waited s s1) (h : Wired.step P tr rkeys s1.wired (.take c srv) = some w) :
    Kept P M s1 (.take c srv) := by
  obtain ⟨r, x, hx, he, hbody, -⟩ := request_eq hi1 h
  rw [hw.sys] at hx
  rw [hw.executor] at he
  simp only [Kept, State.TakesApart, State.executor_unpk, hbody, hw.executors]
  exact htakes r hx he

theorem recv_follows (hi : Inv P M tr rkeys s) {c : Nat} {srv : cp.Server} {sys : Ramp.State (fast cp C)}
    (hans : ∀ r a, conn s.wired.sys c srv = .answered r a → Fits tr.mark ((mode P).answer a))
    (hgets : ∀ r a, conn s.wired.sys c srv = .answered r a → s.GetsApart P M c srv ((mode P).answer a).body.length)
    (hs : Ramp.step s.wired.sys (.recv c srv) = some sys) :
    ∃ s', Reach (step P M tr rkeys) (Kept P M) s s' ∧ s'.wired.sys = sys := by
  obtain ⟨w, rfl, hcomes | ⟨w1, hanswer, hcomes⟩⟩ := Wired.recv_comes hi.wired hans hs ⟨.empty, ⟨0, 0⟩⟩
  · obtain ⟨s', hs', rfl⟩ := comes hi hcomes fun s1 hi1 hw h1 => recv_kept hgets hi1 hw.sys hw.handlers h1
    exact ⟨s', hs', rfl⟩
  · -- the answer is still to be sent
    have hone : step P M tr rkeys s (.answer c srv) = some (s.to w1) := step_wired hi hanswer
    have hsys : w1.sys = s.wired.sys := by
      simp only [Wired.step] at hanswer
      split at hanswer
      · obtain ⟨x, -, rfl⟩ := Option.map_eq_some_iff.mp hanswer
        rfl
      · cases hanswer
    obtain ⟨s', hs', rfl⟩ := comes (step_inv hi (a := .answer c srv) trivial hone) hcomes fun s1 hi1 hw h1 =>
      recv_kept hgets hi1 (hw.sys.trans hsys) hw.handlers h1
    exact ⟨s', (Reach.tail .refl (a := .answer c srv) trivial hone).trans hs', rfl⟩

theorem serve_follows (hi : Inv P M tr rkeys s) {c : Nat} {srv : cp.Server} {sys : Ramp.State (fast cp C)}
    (hreq : ∀ r, (conn s.wired.sys c srv).req = some r → Fits tr.mark ((mode P).request r))
    (htakes : ∀ r, conn s.wired.sys c srv = .asked r → (s.wired.wires c srv).executor = .loop →
      s.TakesApart P M c srv ((mode P).request r).body.length)
    (hs : Ramp.step s.wired.sys (.serve c srv) = some sys) :
    ∃ s', Reach (step P M tr rkeys) (Kept P M) s s' ∧ s'.wired.sys = sys := by
  obtain ⟨w, rfl, hserve | ⟨w1, hcomes, hserve⟩⟩ := Wired.serve_comes hi.wired hreq hs
  · exact ⟨_, .tail .refl (a := .sys (.serve c srv)) trivial (step_wired hi hserve), by rw [after_wired]⟩
  · -- the executor has still to take the request
    obtain ⟨s1, hs1, rfl⟩ := comes hi hcomes fun s1 hi1 hw h1 => take_kept htakes hi1 hw h1
    have hi1 := hs1.inv (Inv P M tr rkeys) hi fun _ _ _ hi hk hs => step_inv hi hk hs
    exact ⟨_, hs1.tail (a := .sys (.serve c srv)) trivial (step_wired hi1 hserve), by rw [after_wired]⟩

/-- The wires hold up nothing: what `Ramp.System` can do next, handlers and executors come to do
    over the wires, as long as the messages fit a packet and are put over no value. -/
theorem viewed_follows (h : Reach (step P M tr rkeys) (Kept P M) (.init tr cp C) s)
    (hreq : ∀ c srv r, (conn s.seen.sys c srv).req = some r → Fits tr.mark ((mode P).request r))
    (hans : ∀ c srv r a, conn s.seen.sys c srv = .answered r a → Fits tr.mark ((mode P).answer a))
    (htakes : ∀ c srv r, conn s.seen.sys c srv = .asked r → (s.seen.wires c srv).executor = .loop →
      s.TakesApart P M c srv ((mode P).request r).body.length)
    (hgets : ∀ c srv r a, conn s.seen.sys c srv = .answered r a → s.GetsApart P M c srv ((mode P).answer a).body.length)
    {a : Ramp.Act (fast cp C)} {sys : Ramp.State (fast cp C)} (hs : Ramp.step s.seen.sys a = some sys) :
    ∃ s', Reach (step P M tr rkeys) (Kept P M) s s' ∧ s'.seen.sys = sys := by
  have hi := inv h
  rw [seen_eq hi] at hreq hans htakes hgets hs
  suffices hw : ∃ s', Reach (step P M tr rkeys) (Kept P M) s s' ∧ s'.wired.sys = sys by
    obtain ⟨s', hs', rfl⟩ := hw
    exact ⟨s', hs', by rw [seen_eq (inv (h.trans hs'))]⟩
  by_cases hr : ∃ c srv, a = .recv c srv
  · obtain ⟨c, srv, rfl⟩ := hr
    exact recv_follows hi (hans c srv) (hgets c srv) hs
  by_cases he : ∃ c srv, a = .serve c srv
  · obtain ⟨c, srv, rfl⟩ := he
    exact serve_follows hi (hreq c srv) (htakes c srv) hs
  · obtain ⟨w, hcomes, rfl⟩ := Wired.go_comes hi.wired (fun c srv e => hr ⟨c, srv, e⟩) (fun c srv e => he ⟨c, srv, e⟩) hs
    obtain ⟨s', hs', rfl⟩ := comes hi hcomes fun _ _ _ _ => trivial
    exact ⟨s', hs', rfl⟩

/-! ## One client writes, another reads -/

/-- A packet of client `c`. -/
def packet (c : Nat) (srv : cp.Server) (d : Side) : List (Wired.Act cp C) :=
  [.net c srv (.run d), .net c srv (.land d PACKET_SIZE), .net c srv (.notify d), .net c srv (.recv_header d),
    .net c srv (.get_body d), .net c srv (.clear_msg_buf d)]

abbrev single : ConnectionPool := ⟨1, fun _ => 0, Nat.one_pos⟩

/-- A request of client `c` that is on its way, `n` steps of the executor, and the answer. -/
def calling (c n : Nat) : List (Wired.Act single Wire.msgpack) :=
  let srv := single.get "x"
  packet c srv .server ++ .take c srv :: List.replicate n (.sys (.serve c srv)) ++ .answer c srv :: packet c srv .client ++
    [.recv c srv ⟨.empty, ⟨0, 0⟩⟩]

def trx : Transaction := ({} : Transaction).add_write "x" (.ofList [("f", [7])] compare)

/-- The version of `trx`. -/
def version : Item := { key := "x", values := .ofList [("f", [7])] compare, ts := ⟨1, 0⟩, trx_keys := trx.access_keys }

/-- Client 0 writes `"x"`, and client 1 reads it. -/
def reading : List (Wired.Act single Wire.msgpack) :=
  [.sys (.put_all 0 trx ⟨1, 0⟩), .sys (.prepare 0 version)] ++ calling 0 2 ++
    [.sys (.begin_commit 0), .sys (.commit 0 (single.get "x"))] ++ calling 0 3 ++
    [.sys (.put_return 0), .sys (.get_all 1 (({} : Transaction).add_read "x" ∅)), .sys (.ask 1 "x" 0)] ++ calling 1 1 ++
    [.sys (.check 1), .sys (.skip 1 "x"), .sys (.get_return 1)]

/-- The items that `streaming` packs are those of `Wire`. -/
def msgpack : Views.Msgpack (streaming.pack .item) := Views.msgpack

abbrev run_step : State single Wire.msgpack → Wired.Act single Wire.msgpack → Option (State single Wire.msgpack) :=
  step streaming msgpack .send_recv fun _ => 5

abbrev run_kept : State single Wire.msgpack → Wired.Act single Wire.msgpack → Prop := Kept streaming msgpack

theorem viewed_refines_reading : ∃ s, Reach run_step run_kept (.init .send_recv single Wire.msgpack) s ∧
    s.seen.sys.gets.length = 1 ∧ (s.seen.sys.tables (single.get "x")).get_item_by_ver "x" ⟨1, 0⟩ = version ∧
    Reachable s.seen.sys := by
  obtain ⟨s, hs, hp⟩ := reach_any (show (Machine.exec run_step run_kept (.init .send_recv single Wire.msgpack) reading).any
    (fun s => decide (s.seen.sys.gets.length = 1) &&
      decide ((s.seen.sys.tables (single.get "x")).get_item_by_ver "x" ⟨1, 0⟩ = version)) = true by decide +kernel)
  simp only [Bool.and_eq_true, decide_eq_true_eq] at hp
  exact ⟨s, hs, hp.1, hp.2, (viewed_refines hs).1⟩

/-- Where the version of client 0 is stored, and client 1 asks for `"x"`. -/
def asking : Option (State single Wire.msgpack) :=
  Machine.exec run_step run_kept (.init .send_recv single Wire.msgpack)
    ([.sys (.put_all 0 trx ⟨1, 0⟩), .sys (.prepare 0 version)] ++ calling 0 2 ++
      [.sys (.get_all 1 (({} : Transaction).add_read "x" ∅)), .sys (.ask 1 "x" 0)])

set_option maxRecDepth 400000 in
theorem conn_asking {s : State single Wire.msgpack} (h : asking = some s) (c : Nat) (srv : single.Server) :
    conn s.seen.sys c srv = if c = 1 then .asked (.GET "x" .empty) else .quiet := by
  have hs : asking.map (fun s => conn s.seen.sys c srv) = some (if c = 1 then .asked (.GET "x" .empty) else .quiet) := by
    rw [show srv = single.get "x" from Subsingleton.elim (α := Fin 1) _ _]
    match c with
    | 0 => decide +kernel
    | 1 => decide +kernel
    | c + 2 => rfl
  rw [h] at hs
  exact Option.some.inj hs

/-- The executor gets to serve it. -/
theorem viewed_follows_asking : ∃ s s', Reach run_step run_kept (.init .send_recv single Wire.msgpack) s ∧
    (s.seen.sys.tables (single.get "x")).get_item_by_ver "x" ⟨1, 0⟩ = version ∧
    conn s.seen.sys 1 (single.get "x") = .asked (.GET "x" .empty) ∧ Reach run_step run_kept s s' ∧
    conn s'.seen.sys 1 (single.get "x") = .answered (.GET "x" .empty) (.RESULT .empty) := by
  obtain ⟨s, hs⟩ : ∃ s, asking = some s := Option.isSome_iff_exists.mp (by decide +kernel)
  have hc := conn_asking hs
  have hserve : (asking.bind fun s => Ramp.step s.seen.sys (.serve 1 (single.get "x"))).map
      (fun sys => conn sys 1 (single.get "x")) = some (.answered (.GET "x" .empty) (.RESULT .empty)) := by decide +kernel
  have hview : asking.map (fun s => (s.seen.sys.tables (single.get "x")).get_item_by_ver "x" ⟨1, 0⟩) = some version := by
    decide +kernel
  have htakes : asking.map (fun s => decide (s.TakesApart streaming msgpack 1 (single.get "x")
      ((mode streaming).request (.GET "x" .empty)).body.length)) = some true := by decide +kernel
  rw [hs] at hserve hview htakes
  rw [Option.bind_some] at hserve
  obtain ⟨sys, hstep, hx⟩ := Option.map_eq_some_iff.mp hserve
  have hreach := reach_exec .refl hs
  obtain ⟨s', hs', rfl⟩ := viewed_follows hreach (fun c srv r h => by
      rw [hc] at h
      split at h <;> cases h
      decide +kernel) (fun c srv r a h => by
      rw [hc] at h
      split at h <;> cases h) (fun c srv r h _ => by
      rw [hc] at h
      split at h <;> cases h
      rename_i e
      rw [e, show srv = single.get "x" from Subsingleton.elim (α := Fin 1) _ _]
      exact of_decide_eq_true (Option.some.inj htakes)) (fun c srv r a h => by
      rw [hc] at h
      split at h <;> cases h) hstep
  exact ⟨s, s', hreach, Option.some.inj hview, hc 1 _, hs', hx⟩

end RampRdma.Ramp.Viewed
