/-
  RampRdma.Ramp.ReadAtomic — what a two-round read returns, when timestamps are distinct
  and greater than `Timestamp()` (`Clocks`).

  - `second_round_answers`: a second-round GET is answered with the version it asks for if
    and only if the `put_all` with that timestamp writes the key; so always, if no
    `put_all` reads a key that it does not write. `access_keys`, which the items carry,
    holds the keys read as well.
  - `mixed_fetch_unanswered`: a transaction that reads "y" and writes "x", and a reader of
    both.
  - `read_atomic`: if `access_keys` holds the keys written and no others, a completed
    `get_all` has no fractured read.

  Both rest on the second phase: `second_step` carries a property of it over a step.
-/

import Mathlib
import RampRdma.Data
import RampRdma.Ramp.Invariant
import RampRdma.Wire

namespace RampRdma.Ramp

variable {cfg : Config}

/-! ## Clocks -/

section
variable {puts : List PutAll}

/-- Versions with one timestamp are of one `put_all`. -/
theorem trx_keys_of_ts (h : Clocks PutAll.ts puts) {i j : Item} (hi : Written puts i) (hj : Written puts j)
    (e : i.ts = j.ts) : i.trx_keys = j.trx_keys := by
  obtain ⟨p, hp, hi⟩ := hi
  obtain ⟨q, hq, hj⟩ := hj
  obtain ⟨-, hit, hik⟩ := mem_items.mp hi
  obtain ⟨-, hjt, hjk⟩ := mem_items.mp hj
  have hpq : p = q := h.unique hp hq (by rw [← hit, e, hjt])
  rw [hik, hjk, hpq]

theorem seen_positive (h : Clocks PutAll.ts puts) {prepared : List PutAll} {i : Item} (hs : Seen puts prepared i) :
    .empty ≤ i.ts := by
  rcases hs with ⟨h0, -⟩ | ⟨⟨p, hp, hi⟩, -⟩
  · exact h0.ge
  · rw [(mem_items.mp hi).2.1]
    exact (h.positive p hp).le

end

theorem mem_items_of_write {p : PutAll} {k : Key} (h : k ∈ p.trx.write_set) : ∃ i ∈ p.items, i.key = k := by
  obtain ⟨v, hv⟩ : ∃ v, p.trx.write_set[k]? = some v := by
    rw [← Option.isSome_iff_exists, Std.ExtTreeMap.isSome_getElem?_iff_mem]
    exact h
  exact ⟨⟨k, v, p.ts, p.trx.access_keys⟩, mem_items.mpr ⟨hv, rfl, rfl⟩, rfl⟩

theorem write_of_mem_items {p : PutAll} {i : Item} (h : i ∈ p.items) : i.key ∈ p.trx.write_set := by
  rw [← Std.ExtTreeMap.isSome_getElem?_iff_mem, (mem_items.mp h).1]
  rfl

theorem step_puts {s s' : State cfg} (h : Step s s') : s'.puts = s.puts ∨ ∃ p, s'.puts = p :: s.puts := by
  cases h
  case put_all p _ _ => exact .inr ⟨p, rfl⟩
  all_goals exact .inl rfl

theorem step_clocks {s s' : State cfg} (h : Step s s') (hc : Clocks PutAll.ts s'.puts) : Clocks PutAll.ts s.puts := by
  rcases step_puts h with e | ⟨p, e⟩
  · rwa [e] at hc
  · rw [e] at hc
    exact hc.tail

theorem step_puts_subset {s s' : State cfg} (h : Step s s') : s.puts ⊆ s'.puts := by
  rcases step_puts h with e | ⟨p, e⟩
  · rw [e]; exact List.Subset.refl _
  · rw [e]; exact List.subset_cons_self _ _

/-! ## The second phase -/

/-- The requests in flight. -/
def Client.reqs (cl : Client cfg.cp.Server) (srv : cfg.cp.Server) : Option Request := (cl.conns srv).req

/-- `P` of a client in its second round. -/
def InSecond (P : GetAll → Versions → List Key → Ret → (cfg.cp.Server → Option Request) → Prop)
    (cl : Client cfg.cp.Server) : Prop :=
  ∀ g v todo ret, cl.phase = .second g v todo ret → P g v todo ret cl.reqs

theorem reqs_put_conn (cl : Client cfg.cp.Server) (srv : cfg.cp.Server) (x : Conn) :
    (cl.put_conn srv x).reqs = Function.update cl.reqs srv x.req := by
  funext srv'
  show (Function.update cl.conns srv x srv').req = _
  by_cases e : srv' = srv
  · subst e; rw [Function.update_self, Function.update_self]
  · rw [Function.update_of_ne e, Function.update_of_ne e]; rfl

theorem reqs_quiet {cl : Client cfg.cp.Server} (h : cl.AllQuiet) : cl.reqs = fun _ => none := by
  funext srv
  show (cl.conns srv).req = none
  rw [h srv]
  rfl

/-- A property of second rounds that holds at their start and that their steps keep holds of
    every client after a step. -/
theorem second_step {P : GetAll → Versions → List Key → Ret → (cfg.cp.Server → Option Request) → Prop}
    {s s' : State cfg} (h : Step s s') (hP : ∀ c, InSecond P (s.clients c))
    (check : ∀ c g ret, (s.clients c).phase = .first g [] ret → P g (v_latest ret g.keys) g.keys ret fun _ => none)
    (skip : ∀ g v todo ret reqs key, P g v todo ret reqs → v.at key ≤ (ret.at key).ts → P g v (todo.erase key) ret reqs)
    (fetch : ∀ g v todo ret reqs key, P g v todo ret reqs → (ret.at key).ts < v.at key → reqs (cfg.cp.get key) = none →
      P g v (todo.erase key) ret (Function.update reqs (cfg.cp.get key) (some (.GET key (v.at key)))))
    (recv : ∀ c srv r a g v todo ret ret' addrs, (s.clients c).conns srv = .answered r a →
      (s.clients c).phase = .second g v todo ret → take_answer ret (s.clients c).addr_cache r a = some (ret', addrs) →
      P g v todo ret (s.clients c).reqs → P g v todo ret' (Function.update (s.clients c).reqs srv none)) :
    ∀ c, InSecond P (s'.clients c) := by
  -- a step changes one client
  have upd : ∀ c cl, InSecond P cl → ∀ c', InSecond P (Function.update s.clients c cl c') := by
    intro c cl hcl c'
    by_cases e : c' = c
    · subst e
      rwa [Function.update_self]
    · rw [Function.update_of_ne e]
      exact hP c'
  cases h with
  | put_all _ _ => exact upd _ _ fun g v todo ret e => by cases e
  | prepare _ _ _ => exact upd _ _ fun g v todo ret e => by cases e
  | begin_commit _ _ => exact upd _ _ fun g v todo ret e => by cases e
  | commit _ _ => exact upd _ _ fun g v todo ret e => by cases e
  | put_return _ _ => exact upd _ _ fun g v todo ret e => by cases e
  | get_all _ _ => exact upd _ _ fun g v todo ret e => by cases e
  | ask _ _ _ _ => exact upd _ _ fun g v todo ret e => by cases e
  | read _ _ _ _ _ _ => exact upd _ _ fun g v todo ret e => by cases e
  | get_return _ _ => exact upd _ _ fun g v todo ret e => by cases e
  | recv_first _ _ _ => exact upd _ _ fun g v todo ret e => by cases e
  | @check c g0 ret0 hp hq =>
    refine upd _ _ fun g v todo ret e => ?_
    cases e
    show P _ _ _ _ (s.clients c).reqs
    rw [reqs_quiet hq]
    exact check c g0 ret0 hp
  | @skip c key g0 v0 todo0 ret0 hp hle =>
    refine upd _ _ fun g v todo ret e => ?_
    cases e
    exact skip _ _ _ _ _ key (hP c _ _ _ _ hp) hle
  | @fetch c key g0 v0 todo0 ret0 hp hlt hq =>
    refine upd _ _ fun g v todo ret e => ?_
    cases e
    show P _ _ _ _ ((s.clients c).put_conn _ _).reqs
    rw [reqs_put_conn]
    refine fetch _ _ _ _ _ key (hP c _ _ _ _ hp) hlt ?_
    show ((s.clients c).conns _).req = none
    rw [hq]
    rfl
  | @recv_put c srv r a hx hf hs => exact upd _ _ fun g v todo ret e => absurd e (hs g v todo ret)
  | @recv_second c srv r a g0 v0 todo0 ret0 ret1 addrs hx hp ht =>
    refine upd _ _ fun g v todo ret e => ?_
    cases e
    show P _ _ _ _ ((s.clients c).put_conn _ _).reqs
    rw [reqs_put_conn]
    exact recv c srv r a _ _ _ _ _ addrs hx hp ht (hP c _ _ _ _ hp)
  | @clear c hp => exact upd _ _ fun g v todo ret e => by rw [hp] at e; cases e
  | @serve c srv t x hs =>
    refine upd _ _ fun g v todo ret e => ?_
    rw [reqs_put_conn, serve_req hs]
    have hsame : Function.update (s.clients c).reqs srv ((s.clients c).conns srv).req = (s.clients c).reqs :=
      Function.update_eq_self _ _
    rw [hsame]
    exact hP c g v todo ret e

/-- What the answer to a second-round GET is. -/
theorem second_answer {s : State cfg} (hi : Inv s) {c : Nat} {srv : cfg.cp.Server} {r : Request} {a : Answer} {g : GetAll}
    {v : Versions} {todo : List Key} {ret : Ret} (hp : (s.clients c).phase = .second g v todo ret)
    (hx : (s.clients c).conns srv = .answered r a) :
    ∃ k item, cfg.cp.get k = srv ∧ r = .GET k (v.at k) ∧ a = .RESULT item ∧
      (v.at k ≠ .empty → Fetched s.prepared (s.tables srv) k (v.at k) item) := by
  have hcl := hi.clients c
  have hph := hcl.phase
  have hok := hcl.conns srv
  rw [hp] at hph
  rw [hx] at hok
  obtain ⟨k, hk, rfl⟩ := hph.2 srv r (req_of_answered hx)
  obtain ⟨item, ha, -, hf⟩ := hok
  exact ⟨k, item, hk, rfl, ha, hf⟩

/-- In a second round nothing read is older than `Timestamp()`, and every version asked for
    is newer. -/
def Rising (_ : GetAll) (_ : Versions) (_ : List Key) (ret : Ret) (reqs : cfg.cp.Server → Option Request) : Prop :=
  (∀ k, .empty ≤ (ret.at k).ts) ∧ ∀ srv k ts, reqs srv = some (.GET k ts) → .empty < ts

theorem fetched_rising {s : State cfg} (hi : Inv s) (hc : Clocks PutAll.ts s.puts) {srv : cfg.cp.Server} {k : Key} {ts : Timestamp}
    {item : Item} (h : Fetched s.prepared (s.tables srv) k ts item) : .empty ≤ item.ts := by
  rcases h with ⟨hm, -⟩ | ⟨he, -⟩
  · obtain ⟨-, ⟨p, hp, hi⟩, -⟩ := (hi.tables srv).versions ts item hm
    rw [(mem_items.mp hi).2.1]
    exact (hc.positive p hp).le
  · rw [he]

theorem rising {s : State cfg} (h : Reachable s) (hc : Clocks PutAll.ts s.puts) : ∀ c, InSecond Rising (s.clients c) := by
  induction h with
  | init => intro c g v todo ret e; cases e
  | step hr hs ih =>
    have hst := step_cases hs
    have hc' := step_clocks hst hc
    have hi := inv hr
    refine second_step hst (ih hc') ?_ ?_ ?_ ?_
    · intro c g ret hp
      have hph := (hi.clients c).phase
      rw [hp] at hph
      exact ⟨fun k => seen_positive hc' (hph.1 k), fun srv k ts e => by cases e⟩
    · intro g v todo ret reqs key hP hle
      exact hP
    · intro g v todo ret reqs key hP hlt hq
      refine ⟨hP.1, fun srv k ts e => ?_⟩
      by_cases es : srv = cfg.cp.get key
      · subst es
        rw [Function.update_self] at e
        cases e
        exact (hP.1 key).trans_lt hlt
      · rw [Function.update_of_ne es] at e
        exact hP.2 srv k ts e
    · intro c srv r a g v todo ret ret' addrs hx hp ht hP
      obtain ⟨k, item, hk, rfl, rfl, hf⟩ := second_answer hi hp hx
      cases ht
      have hpos : Timestamp.empty < v.at k := hP.2 srv k _ (req_of_answered hx)
      refine ⟨fun k' => ?_, fun srv' k' ts e => ?_⟩
      · rw [ret_at_set]
        split
        · exact fetched_rising hi hc' (hf hpos.ne')
        · exact hP.1 k'
      · by_cases es : srv' = srv
        · subst es
          rw [Function.update_self] at e
          cases e
        · rw [Function.update_of_ne es] at e
          exact hP.2 srv' k' ts e

/-! ## Second-round answers -/

/-- `item` is what the server has answered the connection's request with, or what it answers
    if it is served now. -/
def AnsweredWith (C : Codec) (t : Table) (x : Conn) (item : Item) : Prop :=
  ∃ r, x = .answered r (.RESULT item) ∨ ∃ t', serve C t x = some (t', .answered r (.RESULT item))

theorem serve_get (C : Codec) (t : Table) (k : Key) {ts : Timestamp} (h : ts ≠ .empty) :
    serve C t (.asked (.GET k ts)) = some (t, .answered (.GET k ts) (.RESULT (t.get_item_by_ver k ts))) := by
  simp [serve, Timestamp.is_empty, h]

/-- Every connection with a second-round GET is answered, and how. -/
theorem second_fetched {s : State cfg} (hi : Inv s) {c : Nat} {srv : cfg.cp.Server} {g : GetAll} {v : Versions}
    {todo : List Key} {ret : Ret} {k : Key} {ts : Timestamp} (hp : (s.clients c).phase = .second g v todo ret)
    (hq : (s.clients c).reqs srv = some (.GET k ts)) (hts : ts ≠ .empty) :
    ts = v.at k ∧ ∃ item, AnsweredWith cfg.C (s.tables srv) ((s.clients c).conns srv) item ∧
      Fetched s.prepared (s.tables srv) k ts item := by
  have hcl := hi.clients c
  have hph := hcl.phase
  have hok := hcl.conns srv
  have hro : ReqOk s.puts s.prepared srv (.GET k ts) := hcl.reqOk hq
  have hq : ((s.clients c).conns srv).req = some (.GET k ts) := hq
  rw [hp] at hph
  obtain ⟨k', hk, he⟩ := hph.2 srv _ hq
  cases he
  refine ⟨rfl, ?_⟩
  generalize (s.clients c).conns srv = x at hq hok
  cases x with
  | asked r =>
    cases hq
    have hsv := serve_get cfg.C (s.tables srv) k hts
    obtain ⟨item, ha, -, hf⟩ := serve_connOk hsv (hi.tables srv) hok (fun r e => by cases e; exact hro) fun p hpm i him hik => by
      have := (hi.prepared p hpm).2 i him
      rwa [Stored, hik] at this
    cases ha
    have hle := (serve_table hsv).1
    exact ⟨_, ⟨_, .inr ⟨_, hsv⟩⟩, hf hts⟩
  | answered r a =>
    cases hq
    obtain ⟨item, rfl, -, hf⟩ := hok
    exact ⟨item, ⟨_, .inl rfl⟩, hf hts⟩
  | quiet => cases hq
  | pushed item => cases hq
  | walking ts rest => cases hq
  | looked key ts item => cases hq

/-- A second-round GET of `k` at `ts`: which `put_all` has that timestamp, and when it is
    answered with that version. -/
theorem second_round_answers {s : State cfg} (h : Reachable s) (hc : Clocks PutAll.ts s.puts) (hb : ∀ p ∈ s.puts, p.trx.Built)
    {c : Nat} {srv : cfg.cp.Server} {g : GetAll} {v : Versions} {todo : List Key} {ret : Ret} {k : Key} {ts : Timestamp}
    (hp : (s.clients c).phase = .second g v todo ret) (hq : (s.clients c).reqs srv = some (.GET k ts)) :
    ts = v.at k ∧ ∃ p ∈ s.puts, p.ts = ts ∧
      ∃ item, AnsweredWith cfg.C (s.tables srv) ((s.clients c).conns srv) item ∧
        (item ∈ p.items ∧ item.key = k ∧ item.ts = ts ↔ k ∈ p.trx.write_set) ∧
        ((∀ y ∈ p.trx.read_set, y ∈ p.trx.write_set) → item ∈ p.items ∧ item.key = k ∧ item.ts = ts) := by
  have hi := inv h
  have hts : Timestamp.empty < ts := (rising h hc c g v todo ret hp).2 srv k ts hq
  obtain ⟨rfl, item, ha, hf⟩ := second_fetched hi hp hq hts.ne'
  refine ⟨rfl, ?_⟩
  -- the version that raised `v_latest[k]`
  have hph := (hi.clients c).phase
  rw [hp] at hph
  rcases hph.1 k with h0 | ⟨i, ⟨p, hpm, hip⟩, -, hit, hik, -⟩
  · exact absurd h0 hts.ne'
  · obtain ⟨-, hpt, hpk⟩ := mem_items.mp hip
    have hiff : item ∈ p.items ∧ item.key = k ∧ item.ts = v.at k ↔ k ∈ p.trx.write_set := by
      constructor
      · intro ⟨hm, hk, _⟩
        rw [← hk]
        exact write_of_mem_items hm
      · intro hw
        rcases hf with ⟨hm, hk⟩ | ⟨-, q, hqm, hqt, hno⟩
        · obtain ⟨hmt, ⟨q, hqm, hqi⟩, -⟩ := (hi.tables srv).versions _ _ hm
          have hqp : q = p := hc.unique hqm hpm (by rw [← (mem_items.mp hqi).2.1, hmt, ← hit, hpt])
          exact ⟨hqp ▸ hqi, hk, hmt⟩
        · have hqp : q = p := hc.unique (hi.prepared q hqm).1 hpm (by rw [hqt, ← hit, hpt])
          subst hqp
          obtain ⟨j, hj, hjk⟩ := mem_items_of_write hw
          exact absurd hjk (hno j hj)
    refine ⟨p, hpm, by rw [← hpt, hit], item, ha, hiff, fun hrw => hiff.mpr ?_⟩
    rw [hpk] at hik
    rcases ((hb p hpm).access_keys k).mp hik with hr | hw
    · exact hrw k hr
    · exact hw

/-! A reader of "x" and "y" that has both addresses. -/

def readXY : Transaction := [Transaction.Add.read "x" ∅, .read "y" ∅].foldl .add {}

def writeXY : Transaction := [Transaction.Add.write "x" ∅, .write "y" {("f", [1])}].foldl .add {}

def writeY : Transaction := [Transaction.Add.write "y" {("f", [1])}].foldl .add {}

def readYWriteX : Transaction := [Transaction.Add.read "y" ∅, .write "x" ∅].foldl .add {}

def bound : List (Act (one fun _ => true)) := List.flatten
  [[.get_all 0 readXY], asking 0 2 "x", asking 0 2 "y", [.check 0, .skip 0 "x", .skip 0 "y", .get_return 0]]

/-- "y" is read before `writeXY`, "x" after it, and "y" then fetched. -/
def fetching : List (Act (one fun _ => true)) := List.flatten
  [bound, [.get_all 0 readXY, .ask 0 "y" 1], putting 1 writeXY ⟨1, 0⟩,
    [.ask 0 "x" 1, .check 0, .skip 0 "x", .fetch 0 "y"]]

def Phase.fetches {S : Type} : Phase S → Bool
  | .second _ _ _ _ => true
  | _ => false

theorem Phase.fetches_second {S : Type} {p : Phase S} (h : p.fetches = true) : ∃ g v todo ret, p = .second g v todo ret := by
  cases p with
  | second g v todo ret => exact ⟨g, v, todo, ret, rfl⟩
  | _ => cases h

theorem second_round_answers_fetching : ∃ s : State (one fun _ => true), ∃ g v todo ret,
    Reachable s ∧ Clocks PutAll.ts s.puts ∧ (∀ p ∈ s.puts, p.trx.Built) ∧ (s.clients 0).phase = .second g v todo ret ∧
    (s.clients 0).reqs 0 = some (.GET "y" ⟨1, 0⟩) ∧
    ⟨1, 0⟩ = v.at "y" ∧ ∃ p ∈ s.puts, p.ts = ⟨1, 0⟩ ∧
      ∃ item, AnsweredWith Wire.msgpack (s.tables 0) ((s.clients 0).conns 0) item ∧
        (item ∈ p.items ∧ item.key = "y" ∧ item.ts = ⟨1, 0⟩ ↔ "y" ∈ p.trx.write_set) ∧
        ((∀ y ∈ p.trx.read_set, y ∈ p.trx.write_set) → item ∈ p.items ∧ item.key = "y" ∧ item.ts = ⟨1, 0⟩) := by
  have hrun : (exec {} fetching).any (fun s => decide (s.puts = [⟨1, writeXY, ⟨1, 0⟩⟩] ∧
      (s.clients 0).reqs 0 = some (.GET "y" ⟨1, 0⟩)) && (s.clients 0).phase.fetches) = true := by decide +kernel
  obtain ⟨s, hr, hs⟩ := exec_any hrun
  obtain ⟨hs, hph⟩ := Bool.and_eq_true_iff.mp hs
  obtain ⟨hp, hq⟩ := of_decide_eq_true hs
  obtain ⟨g, v, todo, ret, hph⟩ := Phase.fetches_second hph
  have hc : Clocks PutAll.ts s.puts := by rw [hp]; decide
  have hb : ∀ p ∈ s.puts, p.trx.Built := by
    rw [hp]
    intro p hm
    rw [List.mem_singleton.mp hm]
    exact ⟨_, rfl⟩
  exact ⟨s, g, v, todo, ret, hr, hc, hb, hph, hq, second_round_answers hr hc hb hph hq⟩

/-- `readYWriteX` names "y" in its version of "x", and has no version of "y": the answer
    takes the place of the version of "y" read before. -/
theorem mixed_fetch_unanswered : ∃ s : State (one fun _ => true), ∃ g v todo ret,
    Reachable s ∧ Clocks PutAll.ts s.puts ∧ (∀ p ∈ s.puts, p.trx.Built) ∧ (s.clients 0).phase = .second g v todo ret ∧
    (s.clients 0).conns 0 = .answered (.GET "y" (v.at "y")) (.RESULT .empty) ∧
    (ret.at "y").values ≠ ∅ ∧ (step s (.recv 0 0)).any (fun s => match (s.clients 0).phase with
      | .second _ _ _ ret => decide (ret.at "y" = .empty)
      | _ => false) = true := by
  have hrun : (exec {} (List.flatten [bound, putting 1 writeY ⟨1, 0⟩, putting 1 readYWriteX ⟨2, 0⟩,
      [.get_all 0 readXY, .ask 0 "x" 1, .ask 0 "y" 1, .check 0, .skip 0 "x", .fetch 0 "y", .serve 0 0]])).any
      (fun s => decide (s.puts = [⟨1, readYWriteX, ⟨2, 0⟩⟩, ⟨1, writeY, ⟨1, 0⟩⟩]) &&
        match (s.clients 0).phase with
        | .second _ v _ ret => decide ((s.clients 0).conns 0 = .answered (.GET "y" (v.at "y")) (.RESULT .empty) ∧
            (ret.at "y").values ≠ ∅ ∧ (step s (.recv 0 0)).any (fun s => match (s.clients 0).phase with
              | .second _ _ _ ret => decide (ret.at "y" = .empty)
              | _ => false) = true)
        | _ => false) = true := by decide +kernel
  obtain ⟨s, hr, hs⟩ := exec_any hrun
  obtain ⟨hp, hs⟩ := Bool.and_eq_true_iff.mp hs
  have hp := of_decide_eq_true hp
  split at hs
  · rename_i g v todo ret hph
    obtain ⟨hx, hv, hrecv⟩ := of_decide_eq_true hs
    refine ⟨s, g, v, todo, ret, hr, by rw [hp]; decide, fun p hm => ?_, hph, hx, hv, hrecv⟩
    rw [hp] at hm
    rcases List.mem_cons.mp hm with e | hm
    · rw [e]
      exact ⟨_, rfl⟩
    · rw [List.mem_singleton.mp hm]
      exact ⟨_, rfl⟩
  · cases hs

/-! ## Read atomicity -/

/-- In a second round: no item of `ret` is newer than the `v_latest` of a key it names, and
    `ret[k]` is at least `v_latest[k]` unless that version is still to come. -/
def Atomic (g : GetAll) (v : Versions) (todo : List Key) (ret : Ret) (reqs : cfg.cp.Server → Option Request) : Prop :=
  (∀ x ∈ g.keys, ∀ y ∈ (ret.at x).trx_keys, (ret.at x).ts ≤ v.at y) ∧
  ∀ k ∈ g.keys, k ∈ todo ∨ v.at k ≤ (ret.at k).ts ∨ reqs (cfg.cp.get k) = some (.GET k (v.at k))

/-- The item fetched for `k` names only keys whose `v_latest` is no smaller. -/
theorem fetched_keys {s : State cfg} (hi : Inv s) (hc : Clocks PutAll.ts s.puts)
    (hk : ∀ p ∈ s.puts, ∀ k, k ∈ p.trx.access_keys ↔ k ∈ p.trx.write_set) {v : Versions}
    (hv : VersionsOk s.puts s.prepared v) {srv : cfg.cp.Server} {k : Key} {item : Item} (hpos : .empty < v.at k)
    (hf : Fetched s.prepared (s.tables srv) k (v.at k) item) :
    item.ts = v.at k ∧ ∀ y ∈ item.trx_keys, item.ts ≤ v.at y := by
  rcases hv k with h0 | ⟨i, hw, -, hit, hik, hle⟩
  · exact absurd h0 hpos.ne'
  · rcases hf with ⟨hm, -⟩ | ⟨-, q, hqm, hqt, hno⟩
    · obtain ⟨hmt, hw', -⟩ := (hi.tables srv).versions _ _ hm
      have heq : item.trx_keys = i.trx_keys := trx_keys_of_ts hc hw' hw (by rw [hmt, hit])
      refine ⟨hmt, fun y hy => ?_⟩
      rw [hmt, ← hit]
      exact hle y (heq ▸ hy)
    · -- the `put_all` with this timestamp names `k`, so it writes it
      obtain ⟨p, hpm, hip⟩ := hw
      obtain ⟨-, hpt, hpk⟩ := mem_items.mp hip
      have hqp : q = p := hc.unique (hi.prepared q hqm).1 hpm (by rw [hqt, ← hit, hpt])
      subst hqp
      rw [hpk, hk q hpm] at hik
      obtain ⟨j, hj, hjk⟩ := mem_items_of_write hik
      exact absurd hjk (hno j hj)

theorem atomic {s : State cfg} (h : Reachable s) (hc : Clocks PutAll.ts s.puts)
    (hk : ∀ p ∈ s.puts, ∀ k, k ∈ p.trx.access_keys ↔ k ∈ p.trx.write_set) : ∀ c, InSecond Atomic (s.clients c) := by
  induction h with
  | init => intro c g v todo ret e; cases e
  | @step s s' act hr hs ih =>
    have hst := step_cases hs
    have hc' := step_clocks hst hc
    have hk' : ∀ p ∈ s.puts, ∀ k, k ∈ p.trx.access_keys ↔ k ∈ p.trx.write_set := fun p hp => hk p (step_puts_subset hst hp)
    have hi := inv hr
    refine second_step hst (ih hc' hk') ?_ ?_ ?_ ?_
    · intro c g ret hp
      exact ⟨fun x hx y hy => le_v_latest hx hy, fun k hk => .inl hk⟩
    · intro g v todo ret reqs key hP hle
      refine ⟨hP.1, fun k hkg => ?_⟩
      by_cases e : k = key
      · subst e
        exact .inr (.inl hle)
      · exact (hP.2 k hkg).imp (List.mem_erase_of_ne e).mpr id
    · intro g v todo ret reqs key hP hlt hq
      refine ⟨hP.1, fun k hkg => ?_⟩
      by_cases e : k = key
      · subst e
        exact .inr (.inr (Function.update_self _ _ _))
      · rcases hP.2 k hkg with hm | hle | hrq
        · exact .inl ((List.mem_erase_of_ne e).mpr hm)
        · exact .inr (.inl hle)
        · have hne : cfg.cp.get k ≠ cfg.cp.get key := by
            intro he
            rw [he, hq] at hrq
            cases hrq
          exact .inr (.inr (by rw [Function.update_of_ne hne]; exact hrq))
    · intro c srv r a g v todo ret ret' addrs hx hp ht hP
      obtain ⟨k, item, hks, rfl, rfl, hf⟩ := second_answer hi hp hx
      cases ht
      have hph := (hi.clients c).phase
      rw [hp] at hph
      have hrq : (s.clients c).reqs srv = some (.GET k (v.at k)) := req_of_answered hx
      have hpos : Timestamp.empty < v.at k := (rising hr hc' c g v todo ret hp).2 srv k _ hrq
      obtain ⟨hts, hle⟩ := fetched_keys hi hc' hk' hph.1 hpos (hf hpos.ne')
      refine ⟨fun x hx y hy => ?_, fun k' hkg => ?_⟩
      · rw [ret_at_set] at hy ⊢
        split
        · rename_i e
          rw [if_pos e] at hy
          exact hle y hy
        · rename_i e
          rw [if_neg e] at hy
          exact hP.1 x hx y hy
      · rw [ret_at_set]
        split
        · rename_i e
          subst e
          exact .inr (.inl hts.ge)
        · rename_i e
          refine (hP.2 k' hkg).imp id (Or.imp id fun hrq' => ?_)
          have hne : cfg.cp.get k' ≠ srv := by
            intro he
            rw [he, hrq] at hrq'
            cases hrq'
            exact e rfl
          rw [Function.update_of_ne hne]
          exact hrq'

theorem step_gets {s s' : State cfg} (h : Step s s') : s'.gets = s.gets ∨ ∃ c g v ret,
    (s.clients c).phase = .second g v [] ret ∧ (s.clients c).AllQuiet ∧ s'.gets = (g, ret) :: s.gets := by
  cases h
  case get_return c g v ret hp hq => exact .inr ⟨c, g, v, ret, hp, hq, rfl⟩
  all_goals exact .inl rfl

/-- No fractured read. -/
theorem read_atomic {s : State cfg} (h : Reachable s) (hc : Clocks PutAll.ts s.puts)
    (hk : ∀ p ∈ s.puts, ∀ k, k ∈ p.trx.access_keys ↔ k ∈ p.trx.write_set) {g : GetAll} {ret : Ret}
    (hg : (g, ret) ∈ s.gets) {x y : Key} (hx : x ∈ g.keys) (hy : y ∈ g.keys) (hxy : y ∈ (ret.at x).trx_keys) :
    (ret.at x).ts ≤ (ret.at y).ts := by
  induction h with
  | init => cases hg
  | @step s s' act hr hs ih =>
    have hst := step_cases hs
    have hc' := step_clocks hst hc
    have hk' : ∀ p ∈ s.puts, ∀ k, k ∈ p.trx.access_keys ↔ k ∈ p.trx.write_set := fun p hp => hk p (step_puts_subset hst hp)
    rcases step_gets hst with e | ⟨c, g0, v, ret0, hp, hq, e⟩
    · rw [e] at hg
      exact ih hc' hk' hg
    · rw [e] at hg
      rcases List.mem_cons.mp hg with e | hg
      · cases e
        obtain ⟨h1, h2⟩ := atomic hr hc' hk' c _ _ _ _ hp
        rw [reqs_quiet hq] at h2
        rcases h2 y hy with hm | hle | hrq
        · cases hm
        · exact (h1 x hx y hxy).trans hle
        · cases hrq
      · exact ih hc' hk' hg

theorem read_atomic_fetching : ∃ s : State (one fun _ => true), ∃ g ret,
    Reachable s ∧ Clocks PutAll.ts s.puts ∧ (∀ p ∈ s.puts, ∀ k, k ∈ p.trx.access_keys ↔ k ∈ p.trx.write_set) ∧
    (g, ret) ∈ s.gets ∧ "x" ∈ g.keys ∧ "y" ∈ g.keys ∧ "y" ∈ (ret.at "x").trx_keys ∧ (ret.at "x").ts = ⟨1, 0⟩ ∧
    (ret.at "x").ts ≤ (ret.at "y").ts := by
  have hrun : (exec {} (fetching ++ [.serve 0 0, .recv 0 0, .get_return 0])).any (fun s =>
      decide (s.puts = [⟨1, writeXY, ⟨1, 0⟩⟩]) &&
      match s.gets with
      | (g, ret) :: _ => decide ("x" ∈ g.keys ∧ "y" ∈ g.keys ∧ "y" ∈ (ret.at "x").trx_keys ∧ (ret.at "x").ts = ⟨1, 0⟩)
      | [] => false) = true := by decide +kernel
  obtain ⟨s, hr, hs⟩ := exec_any hrun
  obtain ⟨hp, hs⟩ := Bool.and_eq_true_iff.mp hs
  have hp := of_decide_eq_true hp
  split at hs
  · rename_i g ret rest hgets
    obtain ⟨hx, hy, hxy, hts⟩ := of_decide_eq_true hs
    have hc : Clocks PutAll.ts s.puts := by rw [hp]; decide
    have hk : ∀ p ∈ s.puts, ∀ k, k ∈ p.trx.access_keys ↔ k ∈ p.trx.write_set := by
      rw [hp]
      intro p hm k
      rw [List.mem_singleton.mp hm]
      simp [writeXY, Transaction.add, Transaction.add_write]
    have hg : (g, ret) ∈ s.gets := by rw [hgets]; exact List.mem_cons_self
    exact ⟨s, g, ret, hr, hc, hk, hg, hx, hy, hxy, hts, read_atomic hr hc hk hg hx hy hxy⟩
  · cases hs

end RampRdma.Ramp
