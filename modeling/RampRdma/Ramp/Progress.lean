/-
  RampRdma.Ramp.Progress — a RAMP transaction never waits for another client's.

  A client's own steps are its actions and those of the executors that serve its
  connections; starting a transaction, or forgetting `access_coms`, is not one of them.
  Messages are handed over whole: one that is too long for a packet, which ends the process
  that sends it in `Buffer::append`, is not looked for here (`Net.Sizes`).
  - `step_clients`: a step of one client leaves every other client as it is.
  - `step_left`: an own step makes what is left of the transaction smaller: the coarse
    steps to come, and for a COMMIT being executed the versions still to look at.
  - `can_go_on`: in every reachable state a client inside a transaction has an own step,
    unless a server process it has a request at has ended (`Dead`) or its one-sided read
    polls (`Polls`).
  - `finishes`: so it is through after finitely many own steps, in whatever order they are
    taken and whatever all the other clients do, or leave undone, in between.
-/

import Mathlib
import RampRdma.Data
import RampRdma.Ramp.System
import RampRdma.Ramp.Invariant

namespace RampRdma.Ramp

variable {cfg : Config}

/-- The client whose step it is. -/
def Act.client : Act cfg → Nat
  | .put_all c _ _ | .prepare c _ | .begin_commit c | .commit c _ | .put_return c | .get_all c _ | .ask c _ _
  | .check c | .skip c _ | .fetch c _ | .get_return c | .recv c _ | .clear c | .serve c _ => c

/-- The steps that are not part of a transaction under way. -/
def Act.starts : Act cfg → Bool
  | .put_all _ _ _ | .get_all _ _ | .clear _ => true
  | _ => false

def Own (c : Nat) (a : Act cfg) : Prop := a.client = c ∧ a.starts = false

/-- An executor of `srv` has met a `Fault`, which ends the process. -/
def Dead (s : State cfg) (srv : cfg.cp.Server) : Prop :=
  ∃ c r, ((s.clients c).conns srv).req = some r ∧ (∀ a, (s.clients c).conns srv ≠ .answered r a) ∧
    serve cfg.C (s.tables srv) ((s.clients c).conns srv) = none

/-- A one-sided read the client is in does not come to an end. -/
def Polls (s : State cfg) (c : Nat) : Prop :=
  ∃ g todo ret key addr, (s.clients c).phase = .first g todo ret ∧ key ∈ todo ∧ cfg.ac c = true ∧
    (s.clients c).addr_cache.find key = some addr ∧
    ∀ fuel, RDMAWriteSocket.read cfg.C fuel
      (RDMAWriteSocket.contents (s.tables (cfg.cp.get key)).committed_items.mem addr) = none

def Blocked (s : State cfg) (c : Nat) : Prop :=
  (∃ srv, Dead s srv ∧ (s.clients c).conns srv ≠ .quiet) ∨ Polls s c

/-- Any steps of other clients. -/
def Others (c : Nat) : State cfg → State cfg → Prop :=
  Relation.ReflTransGen fun s s' => ∃ a : Act cfg, a.client ≠ c ∧ step s a = some s'

/-- Whatever the others do, the client is idle, or blocked, or can take an own step, and after
    every own step the same holds, finitely many own steps deep. -/
inductive Finishes (c : Nat) : State cfg → Prop
  | intro {s : State cfg} :
      (∀ s1, Others c s s1 → (s1.clients c).phase = .idle ∨ Blocked s1 c ∨ ∃ a s2, Own c a ∧ step s1 a = some s2) →
      (∀ s1 a s2, Others c s s1 → Own c a → step s1 a = some s2 → Finishes c s2) → Finishes c s

/-! ## What each action does -/

/-- `Step`, by the action taken. -/
inductive Took (s : State cfg) : Act cfg → State cfg → Prop
  | put_all {c : Nat} {trx : Transaction} {ts : Timestamp} : (s.clients c).phase = .idle →
      Took s (.put_all c trx ts) { s.set c { s.clients c with phase := .preparing ⟨c, trx, ts⟩ (PutAll.items ⟨c, trx, ts⟩) } with
        puts := ⟨c, trx, ts⟩ :: s.puts }
  | prepare {c : Nat} {item : Item} {p : PutAll} {todo : List Item} : (s.clients c).phase = .preparing p todo →
      item ∈ todo → (s.clients c).conns (cfg.cp.get item.key) = .quiet →
      Took s (.prepare c item)
        (s.set c { (s.clients c).send item.key (.PREPARE item) with phase := .preparing p (todo.erase item) })
  | begin_commit {c : Nat} {p : PutAll} : (s.clients c).phase = .preparing p [] → (s.clients c).AllQuiet →
      Took s (.begin_commit c) { s.set c { s.clients c with phase := .committing p (s.clients c).access_coms } with
        prepared := p :: s.prepared }
  | commit {c : Nat} {srv : cfg.cp.Server} {p : PutAll} {todo : List cfg.cp.Server} :
      (s.clients c).phase = .committing p todo → srv ∈ todo → (s.clients c).conns srv = .quiet →
      Took s (.commit c srv) (s.set c { (s.clients c).put_conn srv (.asked (.COMMIT p.ts)) with
        phase := .committing p (todo.erase srv) })
  | put_return {c : Nat} {p : PutAll} : (s.clients c).phase = .committing p [] → (s.clients c).AllQuiet →
      Took s (.put_return c) { s.set c { s.clients c with phase := .idle } with returned := p :: s.returned }
  | get_all {c : Nat} {trx : Transaction} : (s.clients c).phase = .idle →
      Took s (.get_all c trx) (s.set c { s.clients c with
        phase := .first ⟨c, trx, s.returned⟩ (GetAll.keys ⟨c, trx, s.returned⟩) .empty })
  | ask {c fuel : Nat} {key : Key} {g : GetAll} {todo : List Key} {ret ret' : Ret} {cl : Client cfg.cp.Server} :
      (s.clients c).phase = .first g todo ret → key ∈ todo → (s.clients c).conns (cfg.cp.get key) = .quiet →
      (s.clients c).ask cfg.C (cfg.ac c) (s.tables (cfg.cp.get key)) fuel key ret = some (cl, ret') →
      Took s (.ask c key fuel) (s.set c { cl with phase := .first g (todo.erase key) ret' })
  | check {c : Nat} {g : GetAll} {ret : Ret} : (s.clients c).phase = .first g [] ret → (s.clients c).AllQuiet →
      Took s (.check c) (s.set c { s.clients c with phase := .second g (v_latest ret g.keys) g.keys ret })
  | skip {c : Nat} {key : Key} {g : GetAll} {v : Versions} {todo : List Key} {ret : Ret} :
      (s.clients c).phase = .second g v todo ret → key ∈ todo →
      Took s (.skip c key) (s.set c { s.clients c with phase := .second g v (todo.erase key) ret })
  | fetch {c : Nat} {key : Key} {g : GetAll} {v : Versions} {todo : List Key} {ret : Ret} :
      (s.clients c).phase = .second g v todo ret → key ∈ todo → (s.clients c).conns (cfg.cp.get key) = .quiet →
      Took s (.fetch c key)
        (s.set c { (s.clients c).send key (.GET key (v.at key)) with phase := .second g v (todo.erase key) ret })
  | get_return {c : Nat} {g : GetAll} {v : Versions} {ret : Ret} : (s.clients c).phase = .second g v [] ret →
      (s.clients c).AllQuiet →
      Took s (.get_return c) { s.set c { s.clients c with phase := .idle } with gets := (g, ret) :: s.gets }
  | recv_put {c : Nat} {srv : cfg.cp.Server} {r : Request} {a : Answer} : (s.clients c).conns srv = .answered r a →
      Took s (.recv c srv) (s.set c ((s.clients c).put_conn srv .quiet))
  | recv_first {c : Nat} {srv : cfg.cp.Server} {r : Request} {a : Answer} {g : GetAll} {todo : List Key} {ret ret' : Ret}
      {addrs : ConcurrentMap Key Nat} : (s.clients c).conns srv = .answered r a →
      (s.clients c).phase = .first g todo ret →
      Took s (.recv c srv)
        (s.set c { (s.clients c).put_conn srv .quiet with phase := .first g todo ret', addr_cache := addrs })
  | recv_second {c : Nat} {srv : cfg.cp.Server} {r : Request} {a : Answer} {g : GetAll} {v : Versions} {todo : List Key}
      {ret ret' : Ret} : (s.clients c).conns srv = .answered r a → (s.clients c).phase = .second g v todo ret →
      Took s (.recv c srv) (s.set c { (s.clients c).put_conn srv .quiet with phase := .second g v todo ret' })
  | clear {c : Nat} : (s.clients c).phase = .idle → Took s (.clear c) (s.set c { s.clients c with access_coms := [] })
  | serve {c : Nat} {srv : cfg.cp.Server} {t : Table} {x : Conn} :
      Ramp.serve cfg.C (s.tables srv) ((s.clients c).conns srv) = some (t, x) →
      Took s (.serve c srv) { s.set c ((s.clients c).put_conn srv x) with tables := Function.update s.tables srv t }

theorem step_took {s s' : State cfg} {a : Act cfg} (h : step s a = some s') : Took s a s' := by
  cases a with
  | put_all c trx ts =>
    simp only [step] at h
    split at h <;> cases h
    exact .put_all ‹_›
  | get_all c trx =>
    simp only [step] at h
    split at h <;> cases h
    exact .get_all ‹_›
  | clear c =>
    simp only [step] at h
    split at h <;> cases h
    exact .clear ‹_›
  | prepare c item =>
    simp only [step] at h
    split at h
    · rename_i p todo hp
      split at h <;> cases h
      rename_i hk
      exact .prepare hp hk.1 hk.2
    · cases h
  | begin_commit c =>
    simp only [step] at h
    split at h
    · rename_i p todo hp
      split at h <;> cases h
      rename_i hk
      obtain ⟨rfl, hq⟩ := hk
      exact .begin_commit hp hq
    · cases h
  | commit c srv =>
    simp only [step] at h
    split at h
    · rename_i p todo hp
      split at h <;> cases h
      rename_i hk
      exact .commit hp hk.1 hk.2
    · cases h
  | put_return c =>
    simp only [step] at h
    split at h
    · rename_i p todo hp
      split at h <;> cases h
      rename_i hk
      obtain ⟨rfl, hq⟩ := hk
      exact .put_return hp hq
    · cases h
  | ask c key fuel =>
    simp only [step] at h
    split at h
    · rename_i g todo ret hp
      split at h
      · rename_i hk
        split at h <;> cases h
        rename_i cl ret' ha
        exact .ask hp hk.1 hk.2 ha
      · cases h
    · cases h
  | check c =>
    simp only [step] at h
    split at h
    · rename_i g todo ret hp
      split at h <;> cases h
      rename_i hk
      obtain ⟨rfl, hq⟩ := hk
      exact .check hp hq
    · cases h
  | skip c key =>
    simp only [step] at h
    split at h
    · rename_i g v todo ret hp
      split at h <;> cases h
      rename_i hk
      exact .skip hp hk.1
    · cases h
  | fetch c key =>
    simp only [step] at h
    split at h
    · rename_i g v todo ret hp
      split at h <;> cases h
      rename_i hk
      exact .fetch hp hk.1 hk.2.2
    · cases h
  | get_return c =>
    simp only [step] at h
    split at h
    · rename_i g v todo ret hp
      split at h <;> cases h
      rename_i hk
      obtain ⟨rfl, hq⟩ := hk
      exact .get_return hp hq
    · cases h
  | recv c srv =>
    simp only [step] at h
    split at h
    · rename_i r a hx
      split at h
      · rename_i g todo ret hp
        split at h <;> cases h
        exact .recv_first hx hp
      · rename_i g v todo ret hp
        split at h <;> cases h
        exact .recv_second hx hp
      · cases h
        exact .recv_put hx
    · cases h
  | serve c srv =>
    simp only [step] at h
    split at h <;> cases h
    exact .serve ‹_›

/-! ## Whose step -/

theorem step_clients {s s' : State cfg} {a : Act cfg} (h : step s a = some s') :
    ∃ cl, s'.clients = Function.update s.clients a.client cl := by
  cases step_took h <;> exact ⟨_, rfl⟩

theorem step_other {s s' : State cfg} {a : Act cfg} (h : step s a = some s') {c : Nat} (hc : a.client ≠ c) :
    s'.clients c = s.clients c := by
  obtain ⟨cl, hcl⟩ := step_clients h
  rw [hcl, Function.update_of_ne (Ne.symm hc)]

theorem Others.client {c : Nat} {s s' : State cfg} (h : Others c s s') : s'.clients c = s.clients c := by
  induction h with
  | refl => rfl
  | tail _ hs ih =>
    obtain ⟨a, ha, hs⟩ := hs
    rw [step_other hs ha, ih]

theorem Others.reachable {c : Nat} {s s' : State cfg} (h : Others c s s') (hs : Reachable s) : Reachable s' := by
  induction h with
  | refl => exact hs
  | tail _ hs ih =>
    obtain ⟨a, -, hs⟩ := hs
    exact ih.step hs

/-! ## What is left of a transaction -/

def Conn.work : Conn → Nat
  | .quiet => 0
  | .asked _ => 3
  | .pushed _ | .walking _ _ | .looked _ _ _ => 2
  | .answered _ _ => 1

@[simp] theorem Conn.work_quiet : Conn.quiet.work = 0 := rfl

@[simp] theorem Conn.work_asked (r : Request) : (Conn.asked r).work = 3 := rfl

@[simp] theorem Conn.work_answered (r : Request) (a : Answer) : (Conn.answered r a).work = 1 := rfl

/-- The versions a COMMIT has still to look at. -/
def Conn.rest : Conn → Nat
  | .walking _ rest => rest.length
  | _ => 0

/-- The steps of the client itself, each with those of the request it may send. -/
def Client.ahead (cl : Client cfg.cp.Server) : Nat :=
  match cl.phase with
  | .idle => 0
  | .preparing _ todo => 8 * todo.length + 4 * cl.access_coms.length + 2
  | .committing _ todo => 4 * todo.length + 1
  | .first g todo _ => 4 * todo.length + 4 * g.keys.length + 2
  | .second _ _ todo _ => 4 * todo.length + 1

def Client.left (cl : Client cfg.cp.Server) : Nat ×ₗ Nat :=
  toLex (cl.ahead + ∑ srv, (cl.conns srv).work, ∑ srv, (cl.conns srv).rest)

theorem sum_update {S : Type} [Fintype S] [DecidableEq S] (conns : S → Conn) (f : Conn → Nat) (srv : S) (x : Conn) :
    ∑ i, f (Function.update conns srv x i) + f (conns srv) = ∑ i, f (conns i) + f x := by
  have h1 := Finset.add_sum_erase Finset.univ (fun i => f (Function.update conns srv x i)) (Finset.mem_univ srv)
  have h2 := Finset.add_sum_erase Finset.univ (fun i => f (conns i)) (Finset.mem_univ srv)
  have h3 : ∑ i ∈ Finset.univ.erase srv, f (Function.update conns srv x i) = ∑ i ∈ Finset.univ.erase srv, f (conns i) :=
    Finset.sum_congr rfl fun i hi => by rw [Function.update_of_ne (Finset.ne_of_mem_erase hi)]
  rw [Function.update_self] at h1
  omega

theorem insert_com_length {S : Type} [DecidableEq S] (coms : List S) (com : S) :
    (insert_com coms com).length ≤ coms.length + 1 := by
  unfold insert_com
  split
  · omega
  · simp

theorem left_lt {cl cl' : Client cfg.cp.Server}
    (h : cl'.ahead + ∑ srv, (cl'.conns srv).work < cl.ahead + ∑ srv, (cl.conns srv).work) : cl'.left < cl.left :=
  Prod.Lex.toLex_lt_toLex.mpr (.inl h)

/-- A client that sends a request has paid for it in advance. -/
theorem left_send {cl cl' : Client cfg.cp.Server} {srv : cfg.cp.Server} {r : Request}
    (hc : cl'.conns = Function.update cl.conns srv (.asked r)) (hq : cl.conns srv = .quiet)
    (ha : cl'.ahead + 4 ≤ cl.ahead) : cl'.left < cl.left := by
  have h := sum_update cl.conns Conn.work srv (.asked r)
  rw [hq, Conn.work_asked, Conn.work_quiet] at h
  apply left_lt
  rw [hc]
  omega

theorem length_erase_mem {α : Type} [DecidableEq α] {l : List α} {x : α} (h : x ∈ l) : (l.erase x).length + 1 = l.length := by
  rw [List.length_erase_of_mem h]
  have := List.length_pos_of_mem h
  omega

theorem serve_left {C : Codec} {t t' : Table} {x x' : Conn} (h : serve C t x = some (t', x')) :
    x'.work < x.work ∨ x'.work = x.work ∧ x'.rest < x.rest := by
  unfold serve at h
  split at h
  · cases h; exact .inl (by simp [Conn.work])
  · split at h <;> cases h
    exact .inl (by simp [Conn.work])
  · cases h; exact .inl (by simp [Conn.work])
  · split at h <;> cases h
    exact .inr ⟨rfl, by simp [Conn.rest]⟩
  · cases h; exact .inl (by simp [Conn.work])
  · split at h <;> cases h <;> exact .inl (by simp [Conn.work])
  · cases h; exact .inl (by simp [Conn.work])
  · split at h <;> cases h
    exact .inl (by simp [Conn.work])
  · cases h
  · cases h

/-- An answer taken is a step less. -/
theorem left_recv {cl cl' : Client cfg.cp.Server} {srv : cfg.cp.Server} {r : Request} {a : Answer}
    (hc : cl'.conns = Function.update cl.conns srv .quiet) (hx : cl.conns srv = .answered r a)
    (ha : cl'.ahead = cl.ahead) : cl'.left < cl.left := by
  have h := sum_update cl.conns Conn.work srv .quiet
  rw [hx, Conn.work_answered, Conn.work_quiet] at h
  apply left_lt
  rw [hc]
  omega

/-- A step of the client that sends nothing. -/
theorem left_pass {cl cl' : Client cfg.cp.Server} (hc : cl'.conns = cl.conns) (ha : cl'.ahead < cl.ahead) :
    cl'.left < cl.left := by
  apply left_lt
  rw [hc]
  omega

theorem left_serve {cl : Client cfg.cp.Server} {srv : cfg.cp.Server} {C : Codec} {t t' : Table} {x : Conn}
    (h : serve C t (cl.conns srv) = some (t', x)) : (cl.put_conn srv x).left < cl.left := by
  have hw := sum_update cl.conns Conn.work srv x
  have hr := sum_update cl.conns Conn.rest srv x
  have ha : (cl.put_conn srv x).ahead = cl.ahead := rfl
  have hc : (cl.put_conn srv x).conns = Function.update cl.conns srv x := rfl
  rcases serve_left h with h | ⟨he, h⟩
  · apply left_lt
    rw [ha, hc]
    omega
  · refine Prod.Lex.toLex_lt_toLex.mpr (.inr ⟨?_, ?_⟩)
    · show (cl.put_conn srv x).ahead + _ = _
      rw [ha, hc]
      omega
    · show ∑ i, ((cl.put_conn srv x).conns i).rest < _
      rw [hc]
      omega

theorem ask_left {C : Codec} {ac : Bool} {t : Table} {fuel : Nat} {key : Key} {ret ret' : Ret} {g : GetAll} {todo : List Key}
    {cl cl' : Client cfg.cp.Server} (hp : cl.phase = .first g todo ret) (hk : key ∈ todo)
    (hq : cl.conns (cfg.cp.get key) = .quiet) (h : cl.ask C ac t fuel key ret = some (cl', ret')) :
    ({ cl' with phase := .first g (todo.erase key) ret' } : Client cfg.cp.Server).left < cl.left := by
  have hl := length_erase_mem hk
  unfold Client.ask at h
  split at h
  · split at h
    · cases h
      exact left_send rfl hq (by simp only [Client.ahead, hp]; omega)
    · split at h
      · cases h
      · split at h <;> cases h
        · exact left_send rfl hq (by simp only [Client.ahead, hp]; omega)
        · exact left_pass rfl (by simp only [Client.ahead, hp]; omega)
  · cases h
    exact left_send rfl hq (by simp only [Client.ahead, hp]; omega)

theorem step_left {s s' : State cfg} {a : Act cfg} (h : step s a = some s') (ha : a.starts = false) :
    (s'.clients a.client).left < (s.clients a.client).left := by
  -- the client of the step is the one whose entry is updated
  have self : ∀ {c : Nat} {cl : Client cfg.cp.Server}, cl.left < (s.clients c).left →
      ((s.set c cl).clients c).left < (s.clients c).left := by
    intro c cl hlt
    simpa only [State.set, Function.update_self] using hlt
  cases step_took h with
  | put_all _ => cases ha
  | get_all _ => cases ha
  | clear _ => cases ha
  | @prepare c item p todo hp hk hq =>
    have hl := length_erase_mem hk
    have hi := insert_com_length (s.clients c).access_coms (cfg.cp.get item.key)
    refine self (left_send rfl hq ?_)
    simp only [Client.ahead, Client.send, hp]
    omega
  | @begin_commit c p hp hq =>
    refine self (c := c) (left_pass rfl ?_)
    simp only [Client.ahead, hp]
    omega
  | commit hp hk hq =>
    have hl := length_erase_mem hk
    refine self (left_send rfl hq ?_)
    simp only [Client.ahead, hp]
    omega
  | @put_return c p hp hq =>
    refine self (c := c) (left_pass rfl ?_)
    simp only [Client.ahead, hp]
    omega
  | ask hp hk hq hask => exact self (ask_left hp hk hq hask)
  | @check c g ret hp hq =>
    refine self (c := c) (left_pass rfl ?_)
    simp only [Client.ahead, hp]
    omega
  | skip hp hk =>
    have hl := length_erase_mem hk
    refine self (left_pass rfl ?_)
    simp only [Client.ahead, hp]
    omega
  | fetch hp hk hq =>
    have hl := length_erase_mem hk
    refine self (left_send rfl hq ?_)
    simp only [Client.ahead, hp]
    omega
  | @get_return c g v ret hp hq =>
    refine self (c := c) (left_pass rfl ?_)
    simp only [Client.ahead, hp]
    omega
  | recv_put hx => exact self (left_recv rfl hx rfl)
  | recv_first hx hp => exact self (left_recv rfl hx (by simp only [Client.ahead, hp]))
  | recv_second hx hp => exact self (left_recv rfl hx (by simp only [Client.ahead, hp]))
  | serve hs => exact self (left_serve hs)

/-! ## There is always a step -/

theorem own_some {s : State cfg} {c : Nat} {a : Act cfg} (ha : Own c a) (h : (step s a).isSome = true) :
    ∃ a s', Own c a ∧ step s a = some s' := ⟨a, _, ha, (Option.some_get h).symm⟩

/-- In a reachable state the answer on a connection is one its client can take. -/
theorem recv_some {s : State cfg} (hi : Inv s) {c : Nat} {srv : cfg.cp.Server} {r : Request} {a : Answer}
    (hx : (s.clients c).conns srv = .answered r a) : (step s (.recv c srv)).isSome = true := by
  have hcl := hi.clients c
  have hok := hcl.conns srv
  have hph := hcl.phase
  rw [hx] at hok
  simp only [step, hx]
  split
  · rename_i g todo ret hp
    have hp : (s.clients c).phase = .first g todo ret := hp
    rw [hp] at hph
    obtain ⟨k, -, rfl | rfl⟩ := hph.2 srv r (req_of_answered hx)
    · obtain ⟨item, rfl, -⟩ := hok
      rfl
    · obtain ⟨item, addr, rfl, -⟩ := hok
      rfl
  · rename_i g v todo ret hp
    have hp : (s.clients c).phase = .second g v todo ret := hp
    rw [hp] at hph
    obtain ⟨k, -, rfl⟩ := hph.2 srv r (req_of_answered hx)
    obtain ⟨item, rfl, -⟩ := hok
    rfl
  · rfl

/-- A connection in use is served, answered, or dead. -/
theorem busy_step {s : State cfg} (hi : Inv s) {c : Nat} {srv : cfg.cp.Server} (hb : (s.clients c).conns srv ≠ .quiet) :
    (∃ a s', Own c a ∧ step s a = some s') ∨ Dead s srv := by
  rcases hx : (s.clients c).conns srv with _ | r | item | ⟨ts, rest⟩ | ⟨key, ts, item⟩ | ⟨r, a⟩
  case quiet => exact absurd hx hb
  case answered => exact .inl (own_some ⟨rfl, rfl⟩ (recv_some hi hx))
  all_goals
    rcases hs : serve cfg.C (s.tables srv) ((s.clients c).conns srv) with _ | ⟨t, x⟩
    · refine .inr ⟨c, _, by rw [hx]; rfl, fun a h => ?_, hs⟩
      rw [hx] at h
      cases h
    · exact .inl (own_some (a := .serve c srv) ⟨rfl, rfl⟩ (by simp only [step, hs]; rfl))

/-- A first-round body can go on, or its one-sided read polls. -/
theorem ask_step {s : State cfg} {c : Nat} {g : GetAll} {todo : List Key} {ret : Ret} {key : Key}
    (hp : (s.clients c).phase = .first g todo ret) (hk : key ∈ todo) (hq : (s.clients c).conns (cfg.cp.get key) = .quiet) :
    (∃ a s', Own c a ∧ step s a = some s') ∨ Polls s c := by
  by_cases hf : ∃ fuel, ((s.clients c).ask cfg.C (cfg.ac c) (s.tables (cfg.cp.get key)) fuel key ret).isSome = true
  · obtain ⟨fuel, hf⟩ := hf
    obtain ⟨⟨cl, ret'⟩, ha⟩ := Option.isSome_iff_exists.mp hf
    refine .inl (own_some (a := .ask c key fuel) ⟨rfl, rfl⟩ ?_)
    simp only [step, hp, hk, hq, and_self, if_true, ha]
    rfl
  · refine .inr ?_
    rw [not_exists] at hf
    unfold Client.ask at hf
    rcases hac : cfg.ac c with _ | _
    · exact absurd (by simp [hac]) (hf 0)
    · rcases hadr : (s.clients c).addr_cache.find key with _ | addr
      · exact absurd (by simp [hac, hadr]) (hf 0)
      · refine ⟨g, todo, ret, key, addr, hp, hk, hac, hadr, fun fuel => ?_⟩
        have hf := hf fuel
        simp only [hac, if_true, hadr] at hf
        rcases hr : RDMAWriteSocket.read cfg.C fuel
            (RDMAWriteSocket.contents (s.tables (cfg.cp.get key)).committed_items.mem addr) with _ | ⟨r, item⟩
        · rfl
        · simp only [hr] at hf
          split at hf <;> exact absurd rfl hf

/-- With nothing in flight the client itself has a step. -/
theorem quiet_step {s : State cfg} {c : Nat} (hq : (s.clients c).AllQuiet) (hne : (s.clients c).phase ≠ .idle) :
    (∃ a s', Own c a ∧ step s a = some s') ∨ Polls s c := by
  rcases hp : (s.clients c).phase with _ | ⟨p, todo⟩ | ⟨p, todo⟩ | ⟨g, todo, ret⟩ | ⟨g, v, todo, ret⟩
  case idle => exact absurd hp hne
  case preparing =>
    rcases todo with _ | ⟨item, todo⟩
    · exact .inl (own_some (a := .begin_commit c) ⟨rfl, rfl⟩ (by simp [step, hp, hq]))
    · exact .inl (own_some (a := .prepare c item) ⟨rfl, rfl⟩ (by simp [step, hp, hq _]))
  case committing =>
    rcases todo with _ | ⟨srv, todo⟩
    · exact .inl (own_some (a := .put_return c) ⟨rfl, rfl⟩ (by simp [step, hp, hq]))
    · exact .inl (own_some (a := .commit c srv) ⟨rfl, rfl⟩ (by simp [step, hp, hq _]))
  case first =>
    rcases todo with _ | ⟨key, todo⟩
    · exact .inl (own_some (a := .check c) ⟨rfl, rfl⟩ (by simp [step, hp, hq]))
    · exact ask_step hp List.mem_cons_self (hq _)
  case second =>
    rcases todo with _ | ⟨key, todo⟩
    · exact .inl (own_some (a := .get_return c) ⟨rfl, rfl⟩ (by simp [step, hp, hq]))
    · by_cases hgt : (v.at key).gt (ret.at key).ts
      · exact .inl (own_some (a := .fetch c key) ⟨rfl, rfl⟩ (by simp [step, hp, hq _, hgt]))
      · exact .inl (own_some (a := .skip c key) ⟨rfl, rfl⟩ (by simp [step, hp, hgt]))

theorem can_go_on {s : State cfg} (hi : Inv s) (c : Nat) :
    (s.clients c).phase = .idle ∨ Blocked s c ∨ ∃ a s', Own c a ∧ step s a = some s' := by
  by_cases hne : (s.clients c).phase = .idle
  · exact .inl hne
  · refine .inr ?_
    by_cases hq : (s.clients c).AllQuiet
    · rcases quiet_step hq hne with h | h
      · exact .inr h
      · exact .inl (.inr h)
    · obtain ⟨srv, hb⟩ := not_forall.mp hq
      rcases busy_step hi hb with h | h
      · exact .inr h
      · exact .inl (.inl ⟨srv, h, hb⟩)

theorem finishes {s : State cfg} (h : Reachable s) (c : Nat) : Finishes c s := by
  -- induction on what is left; the steps of others leave it as it is
  induction hl : (s.clients c).left using WellFoundedLT.induction generalizing s with
  | ind l ih =>
    subst hl
    refine .intro (fun s1 h1 => can_go_on (inv (h1.reachable h)) c) fun s1 a s2 h1 ha h2 => ?_
    refine ih _ ?_ ((h1.reachable h).step h2) rfl
    have hlt := step_left h2 ha.2
    rwa [ha.1, h1.client] at hlt

/-- A client with its first PREPARE in flight. -/
theorem finishes_preparing : ∃ s : State (one fun _ => false), Reachable s ∧ ¬ (s.clients 0).AllQuiet ∧ Finishes 0 s := by
  obtain ⟨s, hs, hq⟩ := exec_any (show (exec ({} : State (one fun _ => false))
    [.put_all 0 (({} : Transaction).add_write "x" ∅) ⟨1, 0⟩,
      .prepare 0 ⟨"x", ∅, ⟨1, 0⟩, ({} : OrdSet Key).insert "x"⟩]).any
    (fun s => decide (¬ (s.clients 0).AllQuiet)) = true by decide +kernel)
  exact ⟨s, hs, of_decide_eq_true hq, finishes hs 0⟩

end RampRdma.Ramp
