/-
  RampRdma.NoCC.Refinement — NO_CONCURRENCY_CONTROL does what RAMP-Fast does for transactions
  that list no keys.

  - `State.ramp`: where RAMP-Fast is after the same steps, on the transactions without their
    `access_keys`.
  - `step_ramp`, `get_return_ramp`: a step is one of RAMP-Fast's, but for the end of a `get_all`,
    where RAMP-Fast goes through a second round that has nothing to fetch.
  - `nocc_refines`: so RAMP-Fast reaches each of these states.
  - `nocc_reads_nothing`: so too, the versions of a `put_all` past its PREPAREs are in place, and
    no `get_all` returns one: `latest_commit` never advances.
-/

import Mathlib
import RampRdma.NoCC.System
import RampRdma.Ramp.Visibility

namespace RampRdma.NoCC

open Machine
open Ramp (PutAll GetAll Ret)
open Calls.NoCC (Request)

variable {cp : ConnectionPool} {C : Codec}

/-! ## The same steps of RAMP-Fast -/

/-- All clients run `RAMPFastHandler`. -/
abbrev config (cp : ConnectionPool) (C : Codec) : Ramp.Config := ⟨cp, C, fun _ => false⟩

/-- Without `access_keys`. -/
def erase (p : PutAll) : PutAll := { p with trx := { p.trx with access_keys := ∅ } }

def erase_after (g : GetAll) : GetAll := { g with after := g.after.map erase }

theorem erase_items (p : PutAll) : (erase p).items = items p := rfl

def ramp_request : Request → Ramp.Request
  | .PREPARE item => .PREPARE item
  | .COMMIT ts => .COMMIT ts
  | .GET key => .GET key .empty

def ramp_answer : Answer → Ramp.Answer
  | .DONE => .DONE
  | .RESULT item => .RESULT item

def Conn.ramp : Conn → Ramp.Conn
  | .quiet => .quiet
  | .asked r => .asked (ramp_request r)
  | .pushed item => .pushed item
  | .walking ts rest => .walking ts rest
  | .answered r a => .answered (ramp_request r) (ramp_answer a)

def Phase.ramp {S : Type} : Phase S → Ramp.Phase S
  | .idle => .idle
  | .preparing p todo => .preparing (erase p) todo
  | .committing p todo => .committing (erase p) todo
  | .reading g todo ret => .first (erase_after g) todo ret

def Client.ramp (C : Codec) (cl : Client cp) : Ramp.Client (config cp C).cp.Server :=
  { phase := cl.phase.ramp, conns := fun srv => (cl.conns srv).ramp, access_coms := cl.access_coms }

def State.ramp (C : Codec) (s : State cp) : Ramp.State (config cp C) where
  tables := s.tables
  clients c := (s.clients c).ramp C
  puts := s.puts.map erase
  prepared := s.prepared.map erase
  returned := s.returned.map erase
  gets := s.gets.map fun x => (erase_after x.1, x.2)

theorem ramp_quiet {x : Conn} : x.ramp = .quiet ↔ x = .quiet := by
  cases x <;> simp [Conn.ramp]

theorem ramp_allQuiet (cl : Client cp) : (cl.ramp C).AllQuiet ↔ cl.AllQuiet :=
  forall_congr' fun _ => ramp_quiet

theorem ramp_put_conn (cl : Client cp) (srv : cp.Server) (x : Conn) :
    (cl.put_conn srv x).ramp C = (cl.ramp C).put_conn srv x.ramp := by
  simp only [Client.ramp, Client.put_conn, Ramp.Client.put_conn, Ramp.Client.mk.injEq, true_and, and_true]
  funext srv'
  by_cases e : srv' = srv
  · subst e
    simp
  · simp [e]

theorem ramp_send (cl : Client cp) (key : Key) (r : Request) :
    (cl.send key r).ramp C = (cl.ramp C).send key (ramp_request r) := by
  have h := ramp_put_conn (C := C) cl (cp.get key) (.asked r)
  exact congrArg (fun x : Ramp.Client _ => { x with access_coms := insert_com cl.access_coms (cp.get key) }) h

@[simp] theorem ramp_clients (s : State cp) (c : Nat) : (s.ramp C).clients c = (s.clients c).ramp C := rfl

@[simp] theorem ramp_phase (cl : Client cp) : (cl.ramp C).phase = cl.phase.ramp := rfl

@[simp] theorem ramp_conns (cl : Client cp) (srv : cp.Server) : (cl.ramp C).conns srv = (cl.conns srv).ramp := rfl

theorem ramp_with {cl : Client cp} {cl' : Ramp.Client (config cp C).cp.Server} (h : cl' = cl.ramp C) (ph : Phase cp.Server) :
    ({ cl' with phase := ph.ramp } : Ramp.Client (config cp C).cp.Server) = ({ cl with phase := ph } : Client cp).ramp C := by
  subst h
  rfl

/-- Client `c` alone has changed, and some of the rest. -/
theorem ramp_eq {s s' : State cp} {r : Ramp.State (config cp C)} {c : Nat} {cl : Client cp}
    {cl' : Ramp.Client (config cp C).cp.Server} (hs : s'.clients = Function.update s.clients c cl)
    (hr : r.clients = Function.update (s.ramp C).clients c cl') (hc : cl' = cl.ramp C) (ht : r.tables = (s'.ramp C).tables)
    (hp : r.puts = (s'.ramp C).puts) (hd : r.prepared = (s'.ramp C).prepared) (hn : r.returned = (s'.ramp C).returned)
    (hg : r.gets = (s'.ramp C).gets) : r = s'.ramp C := by
  have hcl : r.clients = (s'.ramp C).clients := by
    funext c'
    rw [hr, hc, ramp_clients, hs]
    by_cases e : c' = c
    · subst e
      simp
    · simp [e]
  cases r
  cases hcl
  cases ht
  cases hp
  cases hd
  cases hn
  cases hg
  rfl

theorem ramp_serve {t t' : Table} {x x' : Conn} (h : serve C t x = some (t', x')) : Ramp.serve C t x.ramp = some (t', x'.ramp) := by
  unfold serve at h
  split at h
  · cases h
    rfl
  · split at h <;> cases h
    rename_i hc
    simp only [Conn.ramp, Ramp.serve, hc, ramp_request, ramp_answer]
  · cases h
    rfl
  · split at h <;> cases h
    rename_i hc
    simp only [Conn.ramp, Ramp.serve, hc]
  · cases h
    rfl
  · cases h
    rfl
  · cases h
  · cases h

theorem ramp_take {ret ret' : Ret} {r : Request} {a : Answer} (addrs : ConcurrentMap Key Nat) (h : take_answer ret r a = some ret') :
    Ramp.take_answer ret addrs (ramp_request r) (ramp_answer a) = some (ret', addrs) := by
  unfold take_answer at h
  split at h <;> cases h
  rfl

/-- RAMP-Fast's step for all but the end of `get_all`. -/
def Act.ramp (C : Codec) : Act cp → Ramp.Act (config cp C)
  | .put_all c trx ts => .put_all c { trx with access_keys := ∅ } ts
  | .prepare c item => .prepare c item
  | .begin_commit c => .begin_commit c
  | .commit c srv => .commit c srv
  | .put_return c => .put_return c
  | .get_all c trx => .get_all c trx
  | .ask c key => .ask c key 0
  | .get_return c => .get_return c
  | .recv c srv => .recv c srv
  | .clear c => .clear c
  | .serve c srv => .serve c srv

variable {s s' : State cp}

theorem step_ramp {a : Act cp} (h : step C s a = some s') (ha : ∀ c, a ≠ .get_return c) :
    Ramp.step (s.ramp C) (a.ramp C) = some (s'.ramp C) := by
  cases a with
  | put_all c trx ts =>
    simp only [step] at h
    split at h <;> cases h
    rename_i hp
    simp only [Act.ramp, Ramp.step, ramp_clients, ramp_phase, hp, Phase.ramp]
    exact congrArg some (ramp_eq rfl rfl rfl rfl rfl rfl rfl rfl)
  | prepare c item =>
    simp only [step] at h
    split at h
    · rename_i p todo hp
      split at h <;> cases h
      rename_i hk
      simp only [Act.ramp, Ramp.step, ramp_clients, ramp_phase, ramp_conns, hp, Phase.ramp, ramp_quiet, hk, and_self, if_true]
      have hcl := ramp_with (C := C) (ramp_send (s.clients c) item.key (.PREPARE item)).symm (.preparing p (todo.erase item))
      exact congrArg some (ramp_eq rfl rfl hcl rfl rfl rfl rfl rfl)
    · cases h
  | begin_commit c =>
    simp only [step] at h
    split at h
    · rename_i p todo hp
      split at h <;> cases h
      rename_i hk
      simp only [Act.ramp, Ramp.step, ramp_clients, ramp_phase, hp, Phase.ramp, ramp_allQuiet, hk, and_self, if_true]
      exact congrArg some (ramp_eq rfl rfl rfl rfl rfl rfl rfl rfl)
    · cases h
  | commit c srv =>
    simp only [step] at h
    split at h
    · rename_i p todo hp
      split at h <;> cases h
      rename_i hk
      simp only [Act.ramp, Ramp.step, ramp_clients, ramp_phase, ramp_conns, hp, Phase.ramp, ramp_quiet, hk, and_self, if_true]
      have hcl := ramp_with (C := C) (ramp_put_conn (s.clients c) srv (.asked (.COMMIT p.ts))).symm (.committing p (todo.erase srv))
      exact congrArg some (ramp_eq rfl rfl hcl rfl rfl rfl rfl rfl)
    · cases h
  | put_return c =>
    simp only [step] at h
    split at h
    · rename_i p todo hp
      split at h <;> cases h
      rename_i hk
      simp only [Act.ramp, Ramp.step, ramp_clients, ramp_phase, hp, Phase.ramp, ramp_allQuiet, hk, and_self, if_true]
      exact congrArg some (ramp_eq rfl rfl rfl rfl rfl rfl rfl rfl)
    · cases h
  | get_all c trx =>
    simp only [step] at h
    split at h <;> cases h
    rename_i hp
    simp only [Act.ramp, Ramp.step, ramp_clients, ramp_phase, hp, Phase.ramp]
    exact congrArg some (ramp_eq rfl rfl rfl rfl rfl rfl rfl rfl)
  | ask c key =>
    simp only [step] at h
    split at h
    · rename_i g todo ret hp
      split at h <;> cases h
      rename_i hk
      simp only [Act.ramp, Ramp.step, ramp_clients, ramp_phase, ramp_conns, hp, Phase.ramp, ramp_quiet, hk, and_self, if_true,
        Ramp.Client.ask, Bool.false_eq_true, if_false]
      have hcl := ramp_with (C := C) (ramp_send (s.clients c) key (.GET key)).symm (.reading g (todo.erase key) ret)
      exact congrArg some (ramp_eq rfl rfl hcl rfl rfl rfl rfl rfl)
    · cases h
  | get_return c => exact absurd rfl (ha c)
  | recv c srv =>
    simp only [step] at h
    split at h
    · rename_i r a hx
      have hcl : ((s.clients c).ramp C).put_conn srv .quiet = ((s.clients c).put_conn srv .quiet).ramp C :=
        (ramp_put_conn _ srv .quiet).symm
      split at h
      · rename_i g todo ret hp
        split at h <;> cases h
        rename_i ret' ht
        simp only [Act.ramp, Ramp.step, ramp_clients, ramp_conns, hx, Conn.ramp, hcl, ramp_phase, hp, Phase.ramp, ramp_take _ ht]
        exact congrArg some (ramp_eq rfl rfl (ramp_with rfl (.reading g todo ret')) rfl rfl rfl rfl rfl)
      · rename_i hp
        cases h
        have hne : ∀ g todo ret, (s.clients c).phase ≠ .reading g todo ret := hp
        simp only [Act.ramp, Ramp.step, ramp_clients, ramp_conns, hx, Conn.ramp, hcl, ramp_phase]
        rcases hph : ((s.clients c).put_conn srv .quiet).phase with _ | ⟨p, todo⟩ | ⟨p, todo⟩ | ⟨g, todo, ret⟩
        case reading => exact absurd hph (hne g todo ret)
        all_goals exact congrArg some (ramp_eq rfl rfl rfl rfl rfl rfl rfl rfl)
    · cases h
  | clear c =>
    simp only [step] at h
    split at h <;> cases h
    rename_i hp
    simp only [Act.ramp, Ramp.step, ramp_clients, ramp_phase, hp, Phase.ramp]
    exact congrArg some (ramp_eq rfl rfl rfl rfl rfl rfl rfl rfl)
  | serve c srv =>
    simp only [step] at h
    split at h <;> cases h
    rename_i t x hx
    have hserve := ramp_serve hx
    simp only [Act.ramp, Ramp.step, ramp_clients, ramp_conns]
    rw [show (s.ramp C).tables srv = s.tables srv from rfl, hserve]
    exact congrArg some (ramp_eq rfl rfl (by rw [← ramp_put_conn]) rfl rfl rfl rfl rfl)

/-! ## A second round with nothing to fetch -/

section
variable {cfg : Ramp.Config} {r : Ramp.State cfg} {c : Nat} {g : GetAll} {ret : Ret}

theorem ramp_skips {v : Ramp.Versions} (hv : ∀ key, v.at key ≤ (ret.at key).ts) (cl : Ramp.Client cfg.cp.Server) (todo : List Key) :
    Ramp.Reachable (r.set c { cl with phase := .second g v todo ret }) →
    Ramp.Reachable (r.set c { cl with phase := .second g v [] ret }) := by
  induction todo with
  | nil => exact id
  | cons key todo ih =>
    intro h
    apply ih
    refine h.step (a := .skip c key) ?_
    have hgt : ¬ (v.at key).gt (ret.at key).ts := by
      rw [Timestamp.gt_iff]
      exact not_lt_of_ge (hv key)
    simp [Ramp.step, Ramp.State.set, hgt]

/-- `get_all` ends after its first round. -/
theorem ramp_returns (hr : Ramp.Reachable r) (hp : (r.clients c).phase = .first g [] ret) (hq : (r.clients c).AllQuiet)
    (hv : ∀ key, (Ramp.v_latest ret g.keys).at key ≤ (ret.at key).ts) :
    Ramp.Reachable { r.set c { r.clients c with phase := .idle } with gets := (g, ret) :: r.gets } := by
  have hcheck : Ramp.step r (.check c) =
      some (r.set c { r.clients c with phase := .second g (Ramp.v_latest ret g.keys) g.keys ret }) := by
    simp only [Ramp.step, hp, hq, and_self, if_true]
  have hskip := ramp_skips hv _ _ (hr.step hcheck)
  refine hskip.step (a := .get_return c) ?_
  have hq' : ∀ srv, (r.clients c).conns srv = .quiet := hq
  simp [Ramp.step, Ramp.State.set, Ramp.Client.AllQuiet, hq']

end

/-! ## Where RAMP-Fast gets -/

/-- What a GET finds: `latest_commit` is at `Timestamp()`. -/
def Bare (item : Item) : Prop := item.ts = .empty ∧ item.trx_keys = ∅

structure Inv (C : Codec) (s : State cp) : Prop where
  ramp : Ramp.Reachable (s.ramp C)
  latest : ∀ srv k, (s.tables srv).latest k = .empty
  answers : ∀ c srv key item, (s.clients c).conns srv = .answered (.GET key) (.RESULT item) → Bare item
  reading : ∀ c g todo ret, (s.clients c).phase = .reading g todo ret → ∀ k, Bare (ret.at k)

theorem bare_empty : Bare .empty := ⟨rfl, rfl⟩

theorem inv_init : Inv C ({} : State cp) where
  ramp := .init
  latest _ _ := rfl
  answers _ _ _ _ h := by cases h
  reading _ _ _ _ h := by cases h

/-- `get_latest_item` finds a version with timestamp `Timestamp()`, or none. -/
theorem Inv.found (hi : Inv C s) (srv : cp.Server) (key : Key) : Bare ((s.tables srv).get_latest_item key).2 := by
  show Bare ((s.tables srv).get_item_by_ver key ((s.tables srv).latest key))
  rw [hi.latest]
  rcases get_item_by_ver_cases (s.tables srv).toStore key .empty with ⟨hm, -⟩ | ⟨he, -⟩
  · obtain ⟨hts, ⟨p, hp, hip⟩, -⟩ := ((Ramp.inv hi.ramp).tables srv).versions _ _ hm
    obtain ⟨q, -, rfl⟩ := List.mem_map.mp hp
    exact ⟨hts, (Ramp.mem_items.mp hip).2.2⟩
  · rw [he]
    exact bare_empty

/-- Client `c` alone has changed. -/
theorem Inv.client (hi : Inv C s) (hr : Ramp.Reachable (s'.ramp C)) {c : Nat} {cl : Client cp}
    (hs : s'.clients = Function.update s.clients c cl) (ht : ∀ srv k, (s'.tables srv).latest k = (s.tables srv).latest k)
    (ha : ∀ srv key item, cl.conns srv = .answered (.GET key) (.RESULT item) → Bare item)
    (hp : ∀ g todo ret, cl.phase = .reading g todo ret → ∀ k, Bare (ret.at k)) : Inv C s' := by
  refine ⟨hr, fun srv k => (ht srv k).trans (hi.latest srv k), fun c' srv key item h => ?_, fun c' g todo ret h => ?_⟩
  all_goals
    rw [hs] at h
    by_cases e : c' = c
  · subst e
    rw [Function.update_self] at h
    exact ha srv key item h
  · rw [Function.update_of_ne e] at h
    exact hi.answers c' srv key item h
  · subst e
    rw [Function.update_self] at h
    exact hp g todo ret h
  · rw [Function.update_of_ne e] at h
    exact hi.reading c' g todo ret h

theorem Inv.put_conn (hi : Inv C s) (c : Nat) (srv : cp.Server) {x : Conn}
    (hx : ∀ key item, x = .answered (.GET key) (.RESULT item) → Bare item) (srv' : cp.Server) (key : Key) (item : Item)
    (h : ((s.clients c).put_conn srv x).conns srv' = .answered (.GET key) (.RESULT item)) : Bare item := by
  by_cases e : srv' = srv
  · subst e
    exact hx key item (by simpa [Client.put_conn] using h)
  · exact hi.answers c srv' key item (by simpa [Client.put_conn, e] using h)

theorem serve_answer {t t' : Table} {x x' : Conn} (h : serve C t x = some (t', x')) {key : Key} {item : Item}
    (hx : x' = .answered (.GET key) (.RESULT item)) : item = (t.get_latest_item key).2 := by
  subst hx
  unfold serve at h
  split at h
  all_goals first | cases h | skip
  · split at h <;> cases h
  · split at h <;> cases h
  · rfl

/-- The second round of RAMP-Fast skips every key. -/
theorem get_return_ramp (hi : Inv C s) {c : Nat} {g : GetAll} {ret : Ret} (hp : (s.clients c).phase = .reading g [] ret)
    (hq : (s.clients c).AllQuiet) :
    Ramp.Reachable (({ s.set c { s.clients c with phase := .idle } with gets := (g, ret) :: s.gets } : State cp).ramp C) := by
  have hbare := hi.reading c g [] ret hp
  have hv : ∀ key, (Ramp.v_latest ret (erase_after g).keys).at key ≤ (ret.at key).ts := by
    intro key
    rw [(hbare key).1]
    rcases Ramp.v_latest_from ret (erase_after g).keys key with h0 | ⟨k, -, hk, -⟩
    · exact h0.le
    · rw [(hbare k).2] at hk
      exact absurd hk Std.ExtTreeSet.not_mem_empty
  have hph : ((s.ramp C).clients c).phase = .first (erase_after g) [] ret := by
    rw [ramp_clients, ramp_phase, hp]
    rfl
  have hr := ramp_returns hi.ramp hph ((ramp_allQuiet _).mpr hq) hv
  have heq : ({ (s.ramp C).set c { (s.ramp C).clients c with phase := .idle } with
      gets := (erase_after g, ret) :: (s.ramp C).gets } : Ramp.State (config cp C)) =
      State.ramp C { s.set c { s.clients c with phase := .idle } with gets := (g, ret) :: s.gets } :=
    ramp_eq rfl rfl rfl rfl rfl rfl rfl rfl
  exact heq ▸ hr

theorem step_inv (hi : Inv C s) {a : Act cp} (h : step C s a = some s') : Inv C s' := by
  have hr : (∀ c, a ≠ .get_return c) → Ramp.Reachable (s'.ramp C) := fun ha => hi.ramp.step (step_ramp h ha)
  cases a with
  | put_all c trx ts =>
    replace hr := hr (by simp)
    simp only [step] at h
    split at h <;> cases h
    exact hi.client hr rfl (fun _ _ => rfl) (hi.answers c) fun g todo ret e => by cases e
  | prepare c item =>
    replace hr := hr (by simp)
    simp only [step] at h
    split at h
    · split at h <;> cases h
      exact hi.client hr rfl (fun _ _ => rfl) (hi.put_conn c _ fun key item e => by cases e) fun g todo ret e => by cases e
    · cases h
  | begin_commit c =>
    replace hr := hr (by simp)
    simp only [step] at h
    split at h
    · split at h <;> cases h
      exact hi.client hr rfl (fun _ _ => rfl) (hi.answers c) fun g todo ret e => by cases e
    · cases h
  | commit c srv =>
    replace hr := hr (by simp)
    simp only [step] at h
    split at h
    · split at h <;> cases h
      exact hi.client hr rfl (fun _ _ => rfl) (hi.put_conn c srv fun key item e => by cases e) fun g todo ret e => by cases e
    · cases h
  | put_return c =>
    replace hr := hr (by simp)
    simp only [step] at h
    split at h
    · split at h <;> cases h
      exact hi.client hr rfl (fun _ _ => rfl) (hi.answers c) fun g todo ret e => by cases e
    · cases h
  | get_all c trx =>
    replace hr := hr (by simp)
    simp only [step] at h
    split at h <;> cases h
    refine hi.client hr rfl (fun _ _ => rfl) (hi.answers c) fun g todo ret e k => ?_
    cases e
    exact bare_empty
  | ask c key =>
    replace hr := hr (by simp)
    simp only [step] at h
    split at h
    · rename_i g todo ret hp
      split at h <;> cases h
      refine hi.client hr rfl (fun _ _ => rfl) (hi.put_conn c _ fun key item e => by cases e) fun g' todo' ret' e => ?_
      cases e
      exact hi.reading c g todo ret hp
    · cases h
  | get_return c =>
    simp only [step] at h
    split at h
    · rename_i g todo ret hp
      split at h <;> cases h
      rename_i hk
      obtain ⟨rfl, hq⟩ := hk
      exact hi.client (get_return_ramp hi hp hq) rfl (fun _ _ => rfl) (hi.answers c) fun g todo ret e => by cases e
    · cases h
  | recv c srv =>
    replace hr := hr (by simp)
    have hquiet := hi.put_conn c srv (x := .quiet) fun key item e => by cases e
    simp only [step] at h
    split at h
    · rename_i r a hx
      split at h
      · rename_i g todo ret hp
        split at h <;> cases h
        rename_i ret' ht
        refine hi.client hr rfl (fun _ _ => rfl) hquiet fun g' todo' ret'' e k => ?_
        cases e
        unfold take_answer at ht
        split at ht <;> cases ht
        rename_i key item
        rw [Ramp.ret_at_set]
        split
        · exact hi.answers c srv key item hx
        · exact hi.reading c g todo ret hp k
      · rename_i hp
        cases h
        exact hi.client hr rfl (fun _ _ => rfl) hquiet fun g todo ret e => absurd e (hp g todo ret)
    · cases h
  | clear c =>
    replace hr := hr (by simp)
    simp only [step] at h
    split at h <;> cases h
    exact hi.client hr rfl (fun _ _ => rfl) (hi.answers c) fun g todo ret e => hi.reading c g todo ret e
  | serve c srv =>
    replace hr := hr (by simp)
    simp only [step] at h
    split at h <;> cases h
    rename_i t x hx
    have hl := (Ramp.serve_table (ramp_serve hx)).2.2
    refine hi.client hr rfl (fun srv' k => ?_) (hi.put_conn c srv fun key item e => ?_) fun g todo ret e => hi.reading c g todo ret e
    · show (Function.update s.tables srv t srv').latest k = _
      by_cases e : srv' = srv
      · subst e
        rw [Function.update_self]
        exact hl k
      · rw [Function.update_of_ne e]
    · rw [serve_answer hx e]
      exact hi.found srv key

theorem inv (h : Reach (step C) Any {} s) : Inv C s :=
  h.inv (Inv C) inv_init fun _ _ _ hi _ hs => step_inv hi hs

/-- What the handlers and executors do is what those of RAMP-Fast do for transactions that list
    no keys: each state is one that RAMP-Fast reaches. -/
theorem nocc_refines (h : Reach (step C) Any {} s) : Ramp.Reachable (s.ramp C) := (inv h).ramp

/-- The versions of a `put_all` past its PREPAREs are in place, and no `get_all` has returned one. -/
theorem nocc_reads_nothing (h : Reach (step C) Any {} s) (hc : Clocks PutAll.ts s.puts) :
    (∀ p ∈ s.prepared, ∀ i ∈ items p, i ∈ (s.tables (cp.get i.key)).versions i.ts) ∧
    ∀ g ret, (g, ret) ∈ s.gets → ∀ k, ret.at k = .empty := by
  have hr := (inv h).ramp
  have hc' : Clocks PutAll.ts (s.ramp C).puts := by
    refine ⟨?_, fun p hp => ?_⟩
    · have he : (s.ramp C).puts.map PutAll.ts = s.puts.map PutAll.ts := by
        show (s.puts.map erase).map PutAll.ts = _
        rw [List.map_map]
        rfl
      rw [he]
      exact hc.distinct
    · obtain ⟨q, hq, rfl⟩ := List.mem_map.mp hp
      exact hc.positive q hq
  refine ⟨fun p hp i hip => ?_, fun g ret hg k => ?_⟩
  · rw [← erase_items] at hip
    exact ((Ramp.inv hr).prepared (erase p) (List.mem_map_of_mem hp)).2 i hip
  · exact ((Ramp.blank (fun _ => rfl) hr hc').gets (erase_after g) ret (List.mem_map.mpr ⟨(g, ret), hg, rfl⟩)).2 k

abbrev single : ConnectionPool := ⟨1, fun _ => 0, Nat.one_pos⟩

/-- Client 0 writes `"x"` and then reads it. -/
def putXThenGet : List (Act single) :=
  let trx := ({} : Transaction).add_write "x" ((∅ : Map Field Value).insert "f" [7])
  let srv := single.get "x"
  [.put_all 0 trx ⟨1, 0⟩, .prepare 0 { key := "x", values := (∅ : Map Field Value).insert "f" [7], ts := ⟨1, 0⟩ },
    .serve 0 srv, .serve 0 srv, .recv 0 srv, .begin_commit 0, .commit 0 srv, .serve 0 srv, .serve 0 srv, .serve 0 srv,
    .recv 0 srv, .put_return 0, .clear 0, .get_all 0 (({} : Transaction).add_read "x" ∅), .ask 0 "x", .serve 0 srv,
    .recv 0 srv, .get_return 0]

theorem nocc_refines_put : ∃ s : State single, Reach (step Wire.msgpack) Any {} s ∧
    s.gets.map (fun x => x.1.after.length) = [1] ∧ Ramp.Reachable (s.ramp Wire.msgpack) := by
  obtain ⟨s, hs, hp⟩ := reach_any (show (exec (step Wire.msgpack) Any {} putXThenGet).any
    (fun s => decide (s.gets.map (fun x => x.1.after.length) = [1])) = true by decide +kernel)
  exact ⟨s, hs, of_decide_eq_true hp, nocc_refines hs⟩

theorem nocc_reads_nothing_put : ∃ s : State single, Reach (step Wire.msgpack) Any {} s ∧
    s.gets.map (fun x => x.1.after.length) = [1] ∧ ∀ g ret, (g, ret) ∈ s.gets → ∀ k, ret.at k = .empty := by
  obtain ⟨s, hs, hp⟩ := reach_any (show (exec (step Wire.msgpack) Any {} putXThenGet).any (fun s =>
    decide (Clocks PutAll.ts s.puts) && decide (s.gets.map (fun x => x.1.after.length) = [1])) = true by decide +kernel)
  obtain ⟨hc, hg⟩ := Bool.and_eq_true_iff.mp hp
  exact ⟨s, hs, of_decide_eq_true hg, (nocc_reads_nothing hs (of_decide_eq_true hc)).2⟩

end RampRdma.NoCC
