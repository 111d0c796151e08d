/-
  RampRdma.Locking.Invariant — who holds which lock, in every reachable state.

  - An executor's locks are the keys it has in `access_keys`, and the key of the request it
    is serving once that is granted (`Holding`, `ExecOk`).
  - Before RELEASE_LOCKS a transaction's `access_keys` are the keys of what has been
    answered, which are smaller than the key it asks for next (`PhaseOk`,
    `requests_sorted`); afterwards every server that has some of them left is still to be
    told.
  - A `put_all` holds its locks as a writer, a `get_all` as a reader (`ModeOk`): so nobody
    else holds a lock that a `put_all` holds (`held_alone`).
  `inv` is the run lemma.
-/

import Mathlib
import RampRdma.Data
import RampRdma.Lib.RwLock
import RampRdma.Locking.System

namespace RampRdma.Locking

variable {cp : ConnectionPool}

/-! ## Requests -/

theorem items_sorted (p : PutAll) : p.items.Pairwise fun i j => i.key < j.key := by
  unfold PutAll.items
  rw [List.pairwise_map]
  exact Std.ExtTreeMap.ordered_keys_toList.imp fun h => compare_lt_iff_lt.mp h

theorem keys_sorted (g : GetAll) : g.keys.Pairwise (· < ·) :=
  (Std.ExtTreeMap.ordered_keys (t := g.trx.read_set)).imp fun h => compare_lt_iff_lt.mp h

theorem requests_sorted (t : Trx) : t.requests.Pairwise fun r r' => r.key < r'.key := by
  cases t with
  | put p =>
    show (p.items.map Request.PUT).Pairwise _
    rw [List.pairwise_map]
    exact items_sorted p
  | get g =>
    show (g.keys.map Request.GET).Pairwise _
    rw [List.pairwise_map]
    exact keys_sorted g

/-- What is answered comes before what is asked for next. -/
theorem done_lt {t : Trx} {done todo : List Request} {r r' : Request} (h : t.requests = done ++ r :: todo) (hr : r' ∈ done) :
    r'.key < r.key := by
  have hs := requests_sorted t
  rw [h, List.pairwise_append] at hs
  exact hs.2.2 r' hr r List.mem_cons_self

theorem put_of_requests {t : Trx} {item : Item} (h : .PUT item ∈ t.requests) : ∃ p, t = .put p ∧ item ∈ p.items := by
  cases t with
  | put p =>
    obtain ⟨i, hi, e⟩ := List.mem_map.mp h
    cases e
    exact ⟨p, rfl, hi⟩
  | get g =>
    obtain ⟨k, -, e⟩ := List.mem_map.mp h
    cases e

theorem get_of_requests {t : Trx} {key : Key} (h : .GET key ∈ t.requests) : ∃ g, t = .get g ∧ key ∈ g.keys := by
  cases t with
  | put p =>
    obtain ⟨i, -, e⟩ := List.mem_map.mp h
    cases e
  | get g =>
    obtain ⟨k, hk, e⟩ := List.mem_map.mp h
    cases e
    exact ⟨g, rfl, hk⟩

theorem mem_insert_com {S : Type} [DecidableEq S] {coms : List S} {com com' : S} :
    com' ∈ insert_com coms com ↔ com' = com ∨ com' ∈ coms := by
  unfold insert_com
  split
  · rename_i h
    exact ⟨.inr, fun h' => h'.elim (fun e => e ▸ h) id⟩
  · exact List.mem_cons

/-! ## Executors -/

/-- The keys that the executor of client `c` has locked. -/
def Holding (n : Node) (c : Nat) : Conn → Key → Prop
  | .locked r, k => k = r.key ∨ k ∈ n.access_keys c
  | .pushed item, k => k = item.key ∨ k ∈ n.access_keys c
  | .unlocking rest, k => k ∈ rest
  | _, k => k ∈ n.access_keys c

structure ExecOk (n : Node) (srv : cp.Server) (c : Nat) (x : Conn) : Prop where
  holds : ∀ k, (n.mutex_table k).Holds c ↔ Holding n c x k
  here : ∀ k ∈ n.access_keys c, cp.get k = srv
  unlocking : ∀ rest, x = .unlocking rest → rest.Nodup ∧ ∀ k ∈ rest, k ∈ n.access_keys c
  released : x = .released → n.access_keys c = ∅

theorem set_mutex_holds {n : Node} {key k : Key} {m : Mutex} {c : Nat} :
    ((n.set_mutex key m).mutex_table k).Holds c ↔ if k = key then m.Holds c else (n.mutex_table k).Holds c := by
  show (Function.update n.mutex_table key m k).Holds c ↔ _
  by_cases e : k = key
  · subst e
    rw [Function.update_self, if_pos rfl]
  · rw [Function.update_of_ne e, if_neg e]

theorem set_access_same (n : Node) (c : Nat) (keys : OrdSet Key) : (n.set_access c keys).access_keys c = keys :=
  Function.update_self _ _ _

theorem set_access_ne (n : Node) {c c' : Nat} (keys : OrdSet Key) (h : c' ≠ c) :
    (n.set_access c keys).access_keys c' = n.access_keys c' := Function.update_of_ne h _ _

section
variable {n n' : Node} {c : Nat} {x x' : Conn}

/-- What serving `c` leaves of the locks and keys of the others. -/
theorem served_other (h : Served n c x n' x') (hn : ∀ k, (n.mutex_table k).readers.Nodup) {c' : Nat} (hc : c' ≠ c) :
    (∀ k, (n'.mutex_table k).Holds c' ↔ (n.mutex_table k).Holds c') ∧ n'.access_keys c' = n.access_keys c' := by
  cases h with
  | @write_lock item m hm =>
    refine ⟨fun k => ?_, rfl⟩
    rw [set_mutex_holds]
    split
    · rename_i e
      rw [RwLock.write_lock_holds hm, e]
      simp [hc]
    · rfl
  | @read_lock key m hm =>
    refine ⟨fun k => ?_, rfl⟩
    rw [set_mutex_holds]
    split
    · rename_i e
      rw [RwLock.read_lock_holds hm, e]
      simp [hc]
    · rfl
  | push => exact ⟨fun k => Iff.rfl, rfl⟩
  | put => exact ⟨fun k => Iff.rfl, set_access_ne _ _ hc⟩
  | get => exact ⟨fun k => Iff.rfl, set_access_ne _ _ hc⟩
  | release => exact ⟨fun k => Iff.rfl, rfl⟩
  | @unlock key rest =>
    refine ⟨fun k => ?_, rfl⟩
    rw [set_mutex_holds]
    split
    · rename_i e
      rw [RwLock.unlock_holds (hn key), e]
      simp [hc]
    · rfl
  | released => exact ⟨fun k => Iff.rfl, set_access_ne _ _ hc⟩

theorem served_readers (h : Served n c x n' x') (hn : ∀ k, (n.mutex_table k).readers.Nodup)
    (hnew : ∀ r, x = .asked r → ¬ (n.mutex_table r.key).Holds c) (k : Key) : (n'.mutex_table k).readers.Nodup := by
  have upd : ∀ (key : Key) (m : Mutex), m.readers.Nodup → ((n.set_mutex key m).mutex_table k).readers.Nodup := by
    intro key m hm
    show (Function.update n.mutex_table key m k).readers.Nodup
    by_cases e : k = key
    · subst e
      rwa [Function.update_self]
    · rw [Function.update_of_ne e]
      exact hn k
  cases h with
  | @write_lock item m hm =>
    apply upd
    rw [(RwLock.write_lock_writer hm).2]
    exact List.nodup_nil
  | @read_lock key m hm =>
    apply upd
    rw [(RwLock.read_lock_writer hm).2, List.nodup_cons]
    exact ⟨fun hc => hnew _ rfl (.inr hc), hn key⟩
  | @unlock key rest =>
    apply upd
    exact (hn key).sublist RwLock.unlock_readers_sublist
  | push => exact hn k
  | put => exact hn k
  | get => exact hn k
  | release => exact hn k
  | released => exact hn k

theorem served_busy (h : Served n c x n' x') : x ≠ .quiet ∧ (∀ r a, x ≠ .answered r a) ∧ x' ≠ .quiet := by
  refine ⟨fun e => ?_, fun r a e => ?_, fun e => ?_⟩
  · subst e
    cases h
  · subst e
    cases h
  · subst e
    cases h

theorem served_request (h : Served n c x n' x') : x'.request = x.request := by
  cases h <;> rfl

/-- What serving does to the client's own keys. -/
theorem served_access (h : Served n c x n' x') :
    (n'.access_keys c = n.access_keys c ∧ (∀ r a, x' ≠ .answered r a)) ∨
    (∃ r a, x.request = some r ∧ x' = .answered r a ∧ n'.access_keys c = (n.access_keys c).insert r.key) ∨
    (n'.access_keys c = ∅ ∧ x' = .released) := by
  cases h with
  | put => exact .inr (.inl ⟨_, _, rfl, rfl, set_access_same _ _ _⟩)
  | get => exact .inr (.inl ⟨_, _, rfl, rfl, set_access_same _ _ _⟩)
  | released => exact .inr (.inr ⟨set_access_same _ _ _, rfl⟩)
  | _ => exact .inl ⟨rfl, fun r a e => by cases e⟩

theorem served_exec {srv : cp.Server} (h : Served n c x n' x') (hx : ExecOk n srv c x)
    (hn : ∀ k, (n.mutex_table k).readers.Nodup) (hr : ∀ r, x.request = some r → cp.get r.key = srv) :
    ExecOk n' srv c x' := by
  cases h with
  | @write_lock item m hm =>
    refine ⟨fun k => ?_, hx.here, (fun rest e => by cases e), (fun e => by cases e)⟩
    rw [set_mutex_holds]
    show _ ↔ k = item.key ∨ k ∈ n.access_keys c
    have hk : (n.mutex_table k).Holds c ↔ k ∈ n.access_keys c := hx.holds k
    by_cases e : k = item.key
    · subst e
      rw [if_pos rfl, RwLock.write_lock_holds hm]
      simp
    · rw [if_neg e, hk]
      simp [e]
  | @read_lock key m hm =>
    refine ⟨fun k => ?_, hx.here, (fun rest e => by cases e), (fun e => by cases e)⟩
    rw [set_mutex_holds]
    show _ ↔ k = key ∨ k ∈ n.access_keys c
    have hk : (n.mutex_table k).Holds c ↔ k ∈ n.access_keys c := hx.holds k
    by_cases e : k = key
    · subst e
      rw [if_pos rfl, RwLock.read_lock_holds hm]
      simp
    · rw [if_neg e, hk]
      simp [e]
  | push => exact ⟨hx.holds, hx.here, (fun rest e => by cases e), (fun e => by cases e)⟩
  | @put item =>
    refine ⟨fun k => ?_, fun k hk => ?_, (fun rest e => by cases e), (fun e => by cases e)⟩
    · show _ ↔ k ∈ (Node.set_access _ c _).access_keys c
      rw [set_access_same, Std.ExtTreeSet.mem_insert, compare_eq_iff_eq, eq_comm (a := item.key)]
      exact hx.holds k
    · rw [set_access_same, Std.ExtTreeSet.mem_insert, compare_eq_iff_eq] at hk
      rcases hk with e | hk
      · subst e
        exact hr _ rfl
      · exact hx.here k hk
  | @get key =>
    refine ⟨fun k => ?_, fun k hk => ?_, (fun rest e => by cases e), (fun e => by cases e)⟩
    · show _ ↔ k ∈ (Node.set_access _ c _).access_keys c
      rw [set_access_same, Std.ExtTreeSet.mem_insert, compare_eq_iff_eq, eq_comm (a := key)]
      exact hx.holds k
    · rw [set_access_same, Std.ExtTreeSet.mem_insert, compare_eq_iff_eq] at hk
      rcases hk with e | hk
      · subst e
        exact hr _ rfl
      · exact hx.here k hk
  | release =>
    refine ⟨fun k => ?_, hx.here, fun rest e => ?_, (fun e => by cases e)⟩
    · show _ ↔ k ∈ (n.access_keys c).toList
      rw [Std.ExtTreeSet.mem_toList]
      exact hx.holds k
    · cases e
      exact ⟨Std.ExtTreeSet.distinct_toList.imp fun h e => h (compare_eq_iff_eq.mpr e),
        fun k hk => Std.ExtTreeSet.mem_toList.mp hk⟩
  | @unlock key rest =>
    obtain ⟨hnd, hsub⟩ := hx.unlocking _ rfl
    rw [List.nodup_cons] at hnd
    refine ⟨fun k => ?_, hx.here, fun rest' e => ?_, (fun e => by cases e)⟩
    · rw [set_mutex_holds]
      show _ ↔ k ∈ rest
      have hk : (n.mutex_table k).Holds c ↔ k ∈ key :: rest := hx.holds k
      by_cases e : k = key
      · subst e
        rw [if_pos rfl, RwLock.unlock_holds (hn k)]
        simp [hnd.1]
      · rw [if_neg e, hk]
        simp [e]
    · cases e
      exact ⟨hnd.2, fun k hk => hsub k (List.mem_cons_of_mem _ hk)⟩
  | released =>
    refine ⟨fun k => ?_, fun k hk => ?_, (fun rest e => by cases e), fun _ => set_access_same _ _ _⟩
    · show _ ↔ k ∈ (Node.set_access _ c _).access_keys c
      rw [set_access_same]
      have hk : (n.mutex_table k).Holds c ↔ k ∈ [] := hx.holds k
      refine hk.trans ?_
      simp
    · rw [set_access_same] at hk
      exact absurd hk Std.ExtTreeSet.not_mem_empty

/-- Serving another client leaves the account as it was. -/
theorem ExecOk.congr {srv : cp.Server} (hx : ExecOk n srv c x) (hl : ∀ k, (n'.mutex_table k).Holds c ↔ (n.mutex_table k).Holds c)
    (ha : n'.access_keys c = n.access_keys c) : ExecOk n' srv c x := by
  refine ⟨fun k => ?_, by rw [ha]; exact hx.here, by rw [ha]; exact hx.unlocking, by rw [ha]; exact hx.released⟩
  rw [hl, hx.holds]
  cases x <;> simp only [Holding, ha]

end

/-! ## Clients -/

/-- What the executors of a client have locked and what its connections carry, by its phase. -/
def PhaseOk (nodes : cp.Server → Node) (c : Nat) (cl : Client cp.Server) : Phase cp.Server → Prop
  | .idle => ∀ srv, cl.conns srv = .quiet ∧ (nodes srv).access_keys c = ∅
  | .sending t todo _ =>
    (∃ done, t.requests = done ++ todo ∧ ∀ k, k ∈ (nodes (cp.get k)).access_keys c ↔
      (∃ r ∈ done, r.key = k) ∨ ∃ r a, cl.conns (cp.get k) = .answered r a ∧ r.key = k) ∧
    (∀ srv, cl.conns srv = .quiet ∨ ∃ r rest, todo = r :: rest ∧ (cl.conns srv).request = some r ∧ cp.get r.key = srv) ∧
    ∀ srv, (nodes srv).access_keys c ≠ ∅ ∨ cl.conns srv ≠ .quiet → srv ∈ cl.access_coms
  | .releasing t _ todo =>
    (∀ srv, (cl.conns srv).request = none) ∧
    (∀ srv, cl.conns srv = .quiet → (nodes srv).access_keys c ≠ ∅ → srv ∈ todo) ∧
    ∀ srv k, k ∈ (nodes srv).access_keys c → ∃ r ∈ t.requests, r.key = k

/-- A `put_all` holds locks as a writer, a `get_all` as a reader. -/
structure ModeOk (m : Mutex) (c : Nat) (t : Option Trx) : Prop where
  writer : m.writer = some c → ∃ p, t = some (.put p)
  reader : c ∈ m.readers → ∃ g, t = some (.get g)

structure Inv (s : State cp) : Prop where
  readers : ∀ srv k, ((s.nodes srv).mutex_table k).readers.Nodup
  execs : ∀ c srv, ExecOk (s.nodes srv) srv c ((s.clients c).conns srv)
  phases : ∀ c, PhaseOk s.nodes c (s.clients c) (s.clients c).phase
  modes : ∀ c srv k, ModeOk ((s.nodes srv).mutex_table k) c (s.clients c).phase.trx
  active : {c | (s.clients c).phase ≠ .idle}.Finite

section
variable {s : State cp}

/-- The request a connection carries is the first one not answered. -/
theorem Inv.request (hi : Inv s) {c : Nat} {srv : cp.Server} {r : Request}
    (hq : ((s.clients c).conns srv).request = some r) :
    ∃ t done rest ret, (s.clients c).phase = .sending t (r :: rest) ret ∧ t.requests = done ++ r :: rest ∧
      cp.get r.key = srv ∧ ∀ k, k ∈ (s.nodes (cp.get k)).access_keys c ↔
        (∃ r ∈ done, r.key = k) ∨ ∃ r a, (s.clients c).conns (cp.get k) = .answered r a ∧ r.key = k := by
  have hp := hi.phases c
  generalize (s.clients c).phase = ph at hp
  cases ph with
  | idle =>
    rw [(hp srv).1] at hq
    cases hq
  | sending t todo ret =>
    obtain ⟨⟨done, hd, ha⟩, hc, -⟩ := hp
    rcases hc srv with h0 | ⟨r', rest, rfl, hr, hk⟩
    · rw [h0] at hq
      cases hq
    · rw [hq] at hr
      cases hr
      exact ⟨t, done, rest, ret, rfl, hd, hk, ha⟩
  | releasing t ret todo =>
    rw [hp.1 srv] at hq
    cases hq

/-- Only a `put_all` sends PUTs. -/
theorem Inv.putting (hi : Inv s) {c : Nat} {srv : cp.Server} {i : Item}
    (hq : ((s.clients c).conns srv).request = some (.PUT i)) :
    cp.get i.key = srv ∧ ∃ p todo ret, (s.clients c).phase = .sending (.put p) todo ret ∧ i ∈ p.items := by
  obtain ⟨t, done, rest, ret, hp, hd, hs, -⟩ := hi.request hq
  have hm : .PUT i ∈ t.requests := by rw [hd]; exact List.mem_append_right _ List.mem_cons_self
  obtain ⟨p, rfl, hip⟩ := put_of_requests hm
  exact ⟨hs, p, _, _, hp, hip⟩

/-- Only a `get_all` sends GETs. -/
theorem Inv.getting (hi : Inv s) {c : Nat} {srv : cp.Server} {k : Key}
    (hq : ((s.clients c).conns srv).request = some (.GET k)) :
    cp.get k = srv ∧ ∃ g todo ret, (s.clients c).phase = .sending (.get g) todo ret ∧ k ∈ g.keys := by
  obtain ⟨t, done, rest, ret, hp, hd, hs, -⟩ := hi.request hq
  have hm : .GET k ∈ t.requests := by rw [hd]; exact List.mem_append_right _ List.mem_cons_self
  obtain ⟨g, rfl, hk⟩ := get_of_requests hm
  exact ⟨hs, g, _, _, hp, hk⟩

/-- A key asked for is larger than every key the client has locked. -/
theorem Inv.asked_lt (hi : Inv s) {c : Nat} {srv : cp.Server} {r : Request} (hx : (s.clients c).conns srv = .asked r)
    {srv' : cp.Server} {k : Key} (hk : ((s.nodes srv').mutex_table k).Holds c) : k < r.key := by
  have hq : ((s.clients c).conns srv).request = some r := by rw [hx]; rfl
  obtain ⟨t, done, rest, ret, hp, hd, hs, ha⟩ := hi.request hq
  have hph := hi.phases c
  rw [hp] at hph
  obtain ⟨-, hc, -⟩ := hph
  -- every other connection of the client is quiet
  have hacc : k ∈ (s.nodes srv').access_keys c := by
    have hh := ((hi.execs c srv').holds k).mp hk
    rcases hc srv' with h0 | ⟨r', rest', e, hr', hs'⟩
    · rw [h0] at hh
      exact hh
    · cases e
      have e : srv' = srv := hs'.symm.trans hs
      subst e
      rw [hx] at hh
      exact hh
  have hsrv := (hi.execs c srv').here k hacc
  rw [← hsrv, ha] at hacc
  rcases hacc with ⟨r', hr', rfl⟩ | ⟨r', a, hx', rfl⟩
  · exact done_lt hd hr'
  · rcases hc (cp.get r'.key) with h0 | ⟨r1, rest', e, hr1, hs'⟩
    · rw [h0] at hx'
      cases hx'
    · cases e
      have e : cp.get r'.key = srv := hs'.symm.trans hs
      rw [e, hx] at hx'
      cases hx'

/-- Nobody else holds a lock that a `put_all` holds. -/
theorem Inv.held_alone (hi : Inv s) {c c' : Nat} {p : PutAll} (hp : (s.clients c).phase.trx = some (.put p))
    {srv : cp.Server} {k : Key} (h : ((s.nodes srv).mutex_table k).Holds c)
    (h' : ((s.nodes srv).mutex_table k).Holds c') : c' = c := by
  rcases h with hw | hr
  · exact RwLock.holds_writer hw h'
  · obtain ⟨g, hg⟩ := (hi.modes c srv k).reader hr
    rw [hp] at hg
    cases hg

end

/-! ## Steps -/

/-- A connection that changes without its executor. -/
theorem ExecOk.reconn {n : Node} {srv : cp.Server} {c : Nat} {x x' : Conn} (hx : ExecOk n srv c x)
    (hh : ∀ k, Holding n c x' k ↔ Holding n c x k) (hu : ∀ rest, x' ≠ .unlocking rest) (hr : x' ≠ .released) :
    ExecOk n srv c x' :=
  ⟨fun k => (hx.holds k).trans (hh k).symm, hx.here, fun rest e => absurd e (hu rest), fun e => absurd e hr⟩

theorem modeOk_free {m : Mutex} {c : Nat} (h : ¬ m.Holds c) (t : Option Trx) : ModeOk m c t :=
  ⟨fun hw => absurd (.inl hw) h, fun hr => absurd (.inr hr) h⟩

theorem PhaseOk.congr {nodes nodes' : cp.Server → Node} {c : Nat} {cl : Client cp.Server}
    (ha : ∀ srv, (nodes' srv).access_keys c = (nodes srv).access_keys c) {ph : Phase cp.Server}
    (h : PhaseOk nodes c cl ph) : PhaseOk nodes' c cl ph := by
  cases ph with
  | idle => exact fun srv => ⟨(h srv).1, (ha srv).trans (h srv).2⟩
  | sending t todo ret =>
    obtain ⟨⟨done, hd, hk⟩, hc, hs⟩ := h
    exact ⟨⟨done, hd, fun k => by rw [ha]; exact hk k⟩, hc, fun srv => by rw [ha]; exact hs srv⟩
  | releasing t ret todo =>
    obtain ⟨h1, h2, h3⟩ := h
    exact ⟨h1, fun srv => by rw [ha]; exact h2 srv, fun srv => by rw [ha]; exact h3 srv⟩

section
variable {s : State cp}

/-- A step of client `c` that touches no server. -/
theorem client_inv (hi : Inv s) {c : Nat} {cl : Client cp.Server} {puts : List PutAll} {finished completed : List (Trx × Ret)}
    (hx : ∀ srv, ExecOk (s.nodes srv) srv c (cl.conns srv)) (hp : PhaseOk s.nodes c cl cl.phase)
    (hm : ∀ srv k, ModeOk ((s.nodes srv).mutex_table k) c cl.phase.trx) :
    Inv ⟨s.nodes, Function.update s.clients c cl, puts, finished, completed⟩ := by
  refine ⟨hi.readers, fun c' srv => ?_, fun c' => ?_, fun c' srv k => ?_, ?_⟩
  · show ExecOk _ _ c' ((Function.update s.clients c cl c').conns srv)
    by_cases e : c' = c
    · subst e
      rw [Function.update_self]
      exact hx srv
    · rw [Function.update_of_ne e]
      exact hi.execs c' srv
  · show PhaseOk _ c' (Function.update s.clients c cl c') (Function.update s.clients c cl c').phase
    by_cases e : c' = c
    · subst e
      rw [Function.update_self]
      exact hp
    · rw [Function.update_of_ne e]
      exact hi.phases c'
  · show ModeOk _ c' (Function.update s.clients c cl c').phase.trx
    by_cases e : c' = c
    · subst e
      rw [Function.update_self]
      exact hm srv k
    · rw [Function.update_of_ne e]
      exact hi.modes c' srv k
  · refine (hi.active.insert c).subset fun c' hc' => ?_
    by_cases e : c' = c
    · exact .inl e
    · have hc' : (Function.update s.clients c cl c').phase ≠ .idle := hc'
      rw [Function.update_of_ne e] at hc'
      exact .inr hc'

theorem exec_update {c : Nat} (hi : Inv s) {srv : cp.Server} {x : Conn} (hx : ExecOk (s.nodes srv) srv c x) (srv' : cp.Server) :
    ExecOk (s.nodes srv') srv' c (Function.update (s.clients c).conns srv x srv') := by
  by_cases e : srv' = srv
  · subst e
    rwa [Function.update_self]
  · rw [Function.update_of_ne e]
    exact hi.execs c srv'

/-- The same where the executor at `srv` is left as it is. -/
theorem exec_reconn {c : Nat} (hi : Inv s) {srv : cp.Server} {x : Conn} (x' : Conn) (hx : (s.clients c).conns srv = x)
    (hh : ∀ k, Holding (s.nodes srv) c x' k ↔ Holding (s.nodes srv) c x k) (hu : ∀ rest, x' ≠ .unlocking rest)
    (hr : x' ≠ .released) (srv' : cp.Server) :
    ExecOk (s.nodes srv') srv' c (Function.update (s.clients c).conns srv x' srv') := by
  subst hx
  exact exec_update hi ((hi.execs c srv).reconn hh hu hr) srv'

/-- A client that has all its connections quiet and no keys left holds nothing. -/
theorem free_of_idle (hi : Inv s) {c : Nat} (h : ∀ srv, (s.clients c).conns srv = .quiet ∧ (s.nodes srv).access_keys c = ∅)
    (srv : cp.Server) (k : Key) : ¬ ((s.nodes srv).mutex_table k).Holds c := by
  intro hh
  rw [(hi.execs c srv).holds, (h srv).1] at hh
  have hh : k ∈ (s.nodes srv).access_keys c := hh
  rw [(h srv).2] at hh
  exact Std.ExtTreeSet.not_mem_empty hh

/-- What the phase of the client that is served becomes. -/
theorem served_phase (hi : Inv s) {c : Nat} {srv : cp.Server} {n : Node} {x : Conn}
    (h : Served (s.nodes srv) c ((s.clients c).conns srv) n x) :
    PhaseOk (Function.update s.nodes srv n) c ((s.clients c).put_conn srv x) (s.clients c).phase := by
  obtain ⟨hx, hna, hx'⟩ := served_busy h
  have hreq := served_request h
  have hacc := served_access h
  have hp := hi.phases c
  generalize (s.clients c).phase = ph at hp
  cases ph with
  | idle => exact absurd (hp srv).1 hx
  | sending t todo ret =>
    obtain ⟨⟨done, hd, hk⟩, hc, hs⟩ := hp
    obtain ⟨r, rest, htodo, hr, hrs⟩ := (hc srv).resolve_left hx
    refine ⟨⟨done, hd, fun k => ?_⟩, fun srv' => ?_, fun srv' hsrv' => ?_⟩
    · show k ∈ (Function.update s.nodes srv n (cp.get k)).access_keys c ↔
        _ ∨ ∃ r a, Function.update (s.clients c).conns srv x (cp.get k) = _ ∧ _
      by_cases e : cp.get k = srv
      · rw [e, Function.update_self, Function.update_self]
        have hold : k ∈ (s.nodes srv).access_keys c ↔ ∃ r ∈ done, r.key = k := by
          rw [← e, hk, e]
          exact ⟨fun h => h.resolve_right fun ⟨r, a, hx, _⟩ => hna r a hx, .inl⟩
        rcases hacc with ⟨he, hno⟩ | ⟨r', a, hr', hx', he⟩ | ⟨-, hx'⟩
        · rw [he, hold]
          exact ⟨.inl, fun h => h.resolve_right fun ⟨r, a, hx, _⟩ => hno r a hx⟩
        · rw [he, Std.ExtTreeSet.mem_insert, compare_eq_iff_eq, hold, hx', or_comm]
          refine or_congr_right ⟨fun h => ⟨r', a, rfl, h⟩, ?_⟩
          intro ⟨r1, a1, e1, h⟩
          cases e1
          exact h
        · rw [hx', hr] at hreq
          cases hreq
      · rw [Function.update_of_ne e, Function.update_of_ne e]
        exact hk k
    · show Function.update (s.clients c).conns srv x srv' = _ ∨ ∃ r rest, _ ∧
        (Function.update (s.clients c).conns srv x srv').request = _ ∧ _
      by_cases e : srv' = srv
      · subst e
        rw [Function.update_self, hreq]
        exact .inr ⟨r, rest, htodo, hr, hrs⟩
      · rw [Function.update_of_ne e]
        exact hc srv'
    · by_cases e : srv' = srv
      · subst e
        exact hs srv' (.inr hx)
      · have hsrv' : (Function.update s.nodes srv n srv').access_keys c ≠ ∅ ∨
          Function.update (s.clients c).conns srv x srv' ≠ .quiet := hsrv'
        rw [Function.update_of_ne e, Function.update_of_ne e] at hsrv'
        exact hs srv' hsrv'
  | releasing t ret todo =>
    obtain ⟨h1, h2, h3⟩ := hp
    refine ⟨fun srv' => ?_, fun srv' => ?_, fun srv' k => ?_⟩
    · show (Function.update (s.clients c).conns srv x srv').request = none
      by_cases e : srv' = srv
      · subst e
        rw [Function.update_self, hreq]
        exact h1 srv'
      · rw [Function.update_of_ne e]
        exact h1 srv'
    · show Function.update (s.clients c).conns srv x srv' = _ → (Function.update s.nodes srv n srv').access_keys c ≠ ∅ → _
      by_cases e : srv' = srv
      · subst e
        rw [Function.update_self]
        exact fun e => absurd e hx'
      · rw [Function.update_of_ne e, Function.update_of_ne e]
        exact h2 srv'
    · show k ∈ (Function.update s.nodes srv n srv').access_keys c → _
      by_cases e : srv' = srv
      · subst e
        rw [Function.update_self]
        rcases hacc with ⟨he, -⟩ | ⟨r, a, hr, -, -⟩ | ⟨he, -⟩
        · rw [he]
          exact h3 srv' k
        · rw [h1 srv'] at hr
          cases hr
        · rw [he]
          exact fun hk => absurd hk Std.ExtTreeSet.not_mem_empty
      · rw [Function.update_of_ne e]
        exact h3 srv' k

/-- Who can become a writer or a reader by a step of an executor. -/
theorem served_modes {n n' : Node} {c : Nat} {x x' : Conn} (h : Served n c x n' x') (c' : Nat) (k : Key) :
    ((n'.mutex_table k).writer = some c' →
      (n.mutex_table k).writer = some c' ∨ c' = c ∧ ∃ item, x = .asked (.PUT item)) ∧
    (c' ∈ (n'.mutex_table k).readers → c' ∈ (n.mutex_table k).readers ∨ c' = c ∧ ∃ key, x = .asked (.GET key)) := by
  have upd : ∀ (key : Key) (m : Mutex), (n.set_mutex key m).mutex_table k = n.mutex_table k ∨
      k = key ∧ (n.set_mutex key m).mutex_table k = m := by
    intro key m
    by_cases e : k = key
    · subst e
      exact .inr ⟨rfl, Function.update_self _ _ _⟩
    · exact .inl (Function.update_of_ne e _ _)
  cases h with
  | @write_lock item m hm =>
    rcases upd item.key m with e | ⟨-, e⟩
    · rw [e]
      exact ⟨.inl, .inl⟩
    · obtain ⟨hw, hr⟩ := RwLock.write_lock_writer hm
      rw [e, hw, hr]
      refine ⟨fun h => .inr ⟨?_, item, rfl⟩, fun h => by cases h⟩
      cases h
      rfl
  | @read_lock key m hm =>
    rcases upd key m with e | ⟨rfl, e⟩
    · rw [e]
      exact ⟨.inl, .inl⟩
    · obtain ⟨hw, hr⟩ := RwLock.read_lock_writer hm
      rw [e, hw, hr]
      refine ⟨(fun h => by cases h), fun h => ?_⟩
      rcases List.mem_cons.mp h with h | h
      · exact .inr ⟨h, _, rfl⟩
      · exact .inl h
  | @unlock key rest =>
    rcases upd key ((n.mutex_table key).unlock c) with e | ⟨rfl, e⟩
    · rw [e]
      exact ⟨.inl, .inl⟩
    · rw [e]
      exact ⟨fun h => .inl (RwLock.unlock_writer h), fun h => .inl (RwLock.unlock_readers_sublist.subset h)⟩
  | push => exact ⟨.inl, .inl⟩
  | put => exact ⟨.inl, .inl⟩
  | get => exact ⟨.inl, .inl⟩
  | release => exact ⟨.inl, .inl⟩
  | released => exact ⟨.inl, .inl⟩

theorem serve_inv (hi : Inv s) {c : Nat} {srv : cp.Server} {n : Node} {x : Conn}
    (h : Served (s.nodes srv) c ((s.clients c).conns srv) n x) :
    Inv { s.set c ((s.clients c).put_conn srv x) with nodes := Function.update s.nodes srv n } := by
  have hnew : ∀ r, (s.clients c).conns srv = .asked r → ¬ ((s.nodes srv).mutex_table r.key).Holds c :=
    fun r hx hh => lt_irrefl _ (hi.asked_lt hx hh)
  have hreq : ∀ r, ((s.clients c).conns srv).request = some r → cp.get r.key = srv := by
    intro r hr
    obtain ⟨-, -, -, -, -, -, hs, -⟩ := hi.request hr
    exact hs
  refine ⟨fun srv' k => ?_, fun c' srv' => ?_, fun c' => ?_, fun c' srv' k => ?_, ?_⟩
  · show ((Function.update s.nodes srv n srv').mutex_table k).readers.Nodup
    by_cases e : srv' = srv
    · subst e
      rw [Function.update_self]
      exact served_readers h (hi.readers srv') hnew k
    · rw [Function.update_of_ne e]
      exact hi.readers srv' k
  · show ExecOk (Function.update s.nodes srv n srv') srv' c'
      ((Function.update s.clients c ((s.clients c).put_conn srv x) c').conns srv')
    by_cases ec : c' = c
    · subst ec
      rw [Function.update_self]
      show ExecOk _ _ _ (Function.update (s.clients c').conns srv x srv')
      by_cases e : srv' = srv
      · subst e
        rw [Function.update_self, Function.update_self]
        exact served_exec h (hi.execs c' srv') (hi.readers srv') hreq
      · rw [Function.update_of_ne e, Function.update_of_ne e]
        exact hi.execs c' srv'
    · rw [Function.update_of_ne ec]
      by_cases e : srv' = srv
      · subst e
        rw [Function.update_self]
        obtain ⟨hl, ha⟩ := served_other h (hi.readers srv') ec
        exact (hi.execs c' srv').congr hl ha
      · rw [Function.update_of_ne e]
        exact hi.execs c' srv'
  · show PhaseOk (Function.update s.nodes srv n) c' (Function.update s.clients c ((s.clients c).put_conn srv x) c')
      (Function.update s.clients c ((s.clients c).put_conn srv x) c').phase
    by_cases ec : c' = c
    · subst ec
      rw [Function.update_self]
      exact served_phase hi h
    · rw [Function.update_of_ne ec]
      refine (hi.phases c').congr fun srv' => ?_
      by_cases e : srv' = srv
      · subst e
        rw [Function.update_self]
        exact (served_other h (hi.readers srv') ec).2
      · rw [Function.update_of_ne e]
  · show ModeOk ((Function.update s.nodes srv n srv').mutex_table k) c'
      (Function.update s.clients c ((s.clients c).put_conn srv x) c').phase.trx
    have hph : (Function.update s.clients c ((s.clients c).put_conn srv x) c').phase = (s.clients c').phase := by
      by_cases ec : c' = c
      · subst ec
        rw [Function.update_self]
        rfl
      · rw [Function.update_of_ne ec]
    rw [hph]
    by_cases e : srv' = srv
    · subst e
      rw [Function.update_self]
      obtain ⟨hw, hr⟩ := served_modes h c' k
      refine ⟨fun hm => ?_, fun hm => ?_⟩
      · rcases hw hm with hm | ⟨rfl, item, hx⟩
        · exact (hi.modes c' srv' k).writer hm
        · obtain ⟨-, p, _, _, hp, -⟩ := hi.putting (i := item) (by rw [hx]; rfl)
          exact ⟨p, by rw [hp]; rfl⟩
      · rcases hr hm with hm | ⟨rfl, key, hx⟩
        · exact (hi.modes c' srv' k).reader hm
        · obtain ⟨-, g, _, _, hp, -⟩ := hi.getting (k := key) (by rw [hx]; rfl)
          exact ⟨g, by rw [hp]; rfl⟩
    · rw [Function.update_of_ne e]
      exact hi.modes c' srv' k
  · refine hi.active.subset fun c' hc' => ?_
    have hc' : (Function.update s.clients c ((s.clients c).put_conn srv x) c').phase ≠ .idle := hc'
    by_cases ec : c' = c
    · subst ec
      rw [Function.update_self] at hc'
      exact hc'
    · rwa [Function.update_of_ne ec] at hc'

/-- The start of a transaction. -/
theorem inv_start (hi : Inv s) {c : Nat} (t : Trx) (puts : List PutAll) (hp : (s.clients c).phase = .idle) :
    Inv ⟨s.nodes, Function.update s.clients c { s.clients c with phase := .sending t t.requests ∅ }, puts, s.finished,
      s.completed⟩ := by
  have hph := hi.phases c
  rw [hp] at hph
  refine client_inv hi (hi.execs c) ⟨⟨[], rfl, fun k => ?_⟩, fun srv => .inl (hph srv).1, fun srv h => ?_⟩
    fun srv k => modeOk_free (free_of_idle hi hph srv k) _
  · rw [(hph (cp.get k)).1, (hph (cp.get k)).2]
    simp
  · rcases h with h | h
    · exact absurd (hph srv).2 h
    · exact absurd (hph srv).1 h

theorem inv_send (hi : Inv s) {c : Nat} {t : Trx} {r : Request} {todo : List Request} {ret : Ret}
    (hp : (s.clients c).phase = .sending t (r :: todo) ret) (hq : (s.clients c).AllQuiet) :
    Inv (s.set c ((s.clients c).send r)) := by
  have hph := hi.phases c
  have hmode := hi.modes c
  rw [hp] at hph hmode
  obtain ⟨⟨done, hd, hk⟩, -, hs⟩ := hph
  have hx := exec_reconn hi (.asked r) (hq (cp.get r.key)) (fun k => Iff.rfl) (fun rest e => by cases e) fun e => by cases e
  refine client_inv hi hx ?_ ?_
  · show PhaseOk s.nodes c _ (s.clients c).phase
    rw [hp]
    refine ⟨⟨done, hd, fun k => ?_⟩, fun srv => ?_, fun srv h => ?_⟩
    · show _ ↔ _ ∨ ∃ r' a,
        Function.update (s.clients c).conns (cp.get r.key) (.asked r) (cp.get k) = .answered r' a ∧ r'.key = k
      rw [hk]
      refine or_congr_right ⟨fun ⟨r', a, h, _⟩ => ?_, fun ⟨r', a, h, _⟩ => ?_⟩
      · rw [hq] at h
        cases h
      · by_cases e : cp.get k = cp.get r.key
        · rw [e, Function.update_self] at h
          cases h
        · rw [Function.update_of_ne e, hq] at h
          cases h
    · show Function.update (s.clients c).conns (cp.get r.key) (.asked r) srv = _ ∨ ∃ r' rest, _ ∧
        (Function.update (s.clients c).conns (cp.get r.key) (.asked r) srv).request = _ ∧ _
      by_cases e : srv = cp.get r.key
      · subst e
        rw [Function.update_self]
        exact .inr ⟨r, todo, rfl, rfl, rfl⟩
      · rw [Function.update_of_ne e]
        exact .inl (hq srv)
    · show srv ∈ insert_com (s.clients c).access_coms (cp.get r.key)
      have h : _ ∨ Function.update (s.clients c).conns (cp.get r.key) (.asked r) srv ≠ .quiet := h
      by_cases e : srv = cp.get r.key
      · exact mem_insert_com.mpr (.inl e)
      · rw [Function.update_of_ne e] at h
        exact mem_insert_com.mpr (.inr (hs srv h))
  · show ∀ srv k, ModeOk _ c (s.clients c).phase.trx
    rw [hp]
    exact hmode

theorem inv_recv (hi : Inv s) {c : Nat} {srv : cp.Server} {r r' : Request} {a : Answer} {t : Trx} {todo : List Request} {ret : Ret}
    (hx : (s.clients c).conns srv = .answered r a) (hp : (s.clients c).phase = .sending t (r' :: todo) ret) :
    Inv (s.set c { (s.clients c).put_conn srv .quiet with phase := .sending t todo (take_answer ret r a) }) := by
  have hph := hi.phases c
  have hmode := hi.modes c
  rw [hp] at hph hmode
  obtain ⟨⟨done, hd, hk⟩, hc, hs⟩ := hph
  -- the answer is the first request's, and no other connection is busy
  obtain ⟨r1, rest, htodo, hr1, hrs⟩ : ∃ r1 rest, r' :: todo = r1 :: rest ∧ ((s.clients c).conns srv).request = some r1 ∧
      cp.get r1.key = srv := (hc srv).resolve_left (by rw [hx]; exact fun e => by cases e)
  rw [hx] at hr1
  cases hr1
  cases htodo
  have hquiet : ∀ srv', srv' ≠ srv → (s.clients c).conns srv' = .quiet := by
    intro srv' hne
    rcases hc srv' with h0 | ⟨r2, rest2, e, -, hs2⟩
    · exact h0
    · cases e
      exact absurd (hs2.symm.trans hrs) hne
  have hx' := exec_reconn hi .quiet hx (fun k => Iff.rfl) (fun rest e => by cases e) fun e => by cases e
  refine client_inv hi hx' ⟨⟨done ++ [r], by simp [hd], fun k => ?_⟩, fun srv' => .inl ?_, fun srv' h => ?_⟩ hmode
  · show _ ↔ _ ∨ ∃ r' a, Function.update (s.clients c).conns srv .quiet (cp.get k) = .answered r' a ∧ r'.key = k
    rw [hk]
    constructor
    · intro h
      left
      rcases h with ⟨r2, hm, he⟩ | ⟨r2, a2, h2, he⟩
      · exact ⟨r2, List.mem_append_left _ hm, he⟩
      · by_cases e : cp.get k = srv
        · rw [e, hx] at h2
          cases h2
          exact ⟨r, by simp, he⟩
        · rw [hquiet _ e] at h2
          cases h2
    · intro h
      rcases h with ⟨r2, hm, he⟩ | ⟨r2, a2, h2, -⟩
      · rcases List.mem_append.mp hm with hm | hm
        · exact .inl ⟨r2, hm, he⟩
        · rw [List.mem_singleton.mp hm] at he
          exact .inr ⟨r, a, by rw [← he, hrs]; exact hx, he⟩
      · by_cases e : cp.get k = srv
        · rw [e, Function.update_self] at h2
          cases h2
        · rw [Function.update_of_ne e, hquiet _ e] at h2
          cases h2
  · show Function.update (s.clients c).conns srv .quiet srv' = .quiet
    by_cases e : srv' = srv
    · subst e
      rw [Function.update_self]
    · rw [Function.update_of_ne e]
      exact hquiet srv' e
  · by_cases e : srv' = srv
    · subst e
      exact hs srv' (.inr (by rw [hx]; exact fun e => by cases e))
    · have h : _ ∨ Function.update (s.clients c).conns srv .quiet srv' ≠ .quiet := h
      rw [Function.update_of_ne e] at h
      exact hs srv' h

theorem request_update {conns : cp.Server → Conn} {srv : cp.Server} {x : Conn} (h : ∀ srv, (conns srv).request = none)
    (hx : x.request = none) (srv' : cp.Server) : (Function.update conns srv x srv').request = none := by
  by_cases e : srv' = srv
  · subst e
    rwa [Function.update_self]
  · rw [Function.update_of_ne e]
    exact h srv'

/-! ## Runs -/

theorem inv_step {s' : State cp} (hi : Inv s) (h : Step s s') : Inv s' := by
  cases h with
  | serve h => exact serve_inv hi h
  | put_all _ hp => exact inv_start hi _ _ hp
  | get_all _ hp => exact inv_start hi _ _ hp
  | send hp hq => exact inv_send hi hp hq
  | recv hx hp => exact inv_recv hi hx hp
  | @release c t ret hp hq =>
    have hph := hi.phases c
    have hmode := hi.modes c
    rw [hp] at hph hmode
    obtain ⟨⟨done, hd, hk⟩, -, hs⟩ := hph
    refine client_inv hi (hi.execs c) ⟨fun srv => ?_, fun srv _ h => hs srv (.inl h), fun srv k h => ?_⟩ hmode
    · show ((s.clients c).conns srv).request = none
      rw [hq]
      rfl
    · have hsrv := (hi.execs c srv).here k h
      rw [← hsrv, hk] at h
      rcases h with ⟨r, hr, he⟩ | ⟨r, a, h, -⟩
      · exact ⟨r, by rw [hd]; exact List.mem_append_left _ hr, he⟩
      · rw [hq] at h
        cases h
  | @send_release c srv t ret todo hp hq =>
    have hph := hi.phases c
    have hmode := hi.modes c
    rw [hp] at hph hmode
    obtain ⟨h1, h2, h3⟩ := hph
    have hx := exec_reconn hi .release_locks hq (fun k => Iff.rfl) (fun rest e => by cases e) fun e => by cases e
    refine client_inv hi hx ⟨request_update h1 rfl, fun srv' => ?_, h3⟩ hmode
    · show Function.update (s.clients c).conns srv .release_locks srv' = .quiet → _
      by_cases e : srv' = srv
      · subst e
        rw [Function.update_self]
        exact fun e => by cases e
      · rw [Function.update_of_ne e]
        exact fun hx hne => (List.mem_erase_of_ne e).mpr (h2 srv' hx hne)
  | @recv_release c srv t ret todo hx hp =>
    have hph := hi.phases c
    have hmode := hi.modes c
    rw [hp] at hph hmode
    obtain ⟨h1, h2, h3⟩ := hph
    have hempty := (hi.execs c srv).released hx
    have hx' := exec_reconn hi .quiet hx (fun k => Iff.rfl) (fun rest e => by cases e) fun e => by cases e
    refine client_inv hi hx' ?_ ?_
    · show PhaseOk s.nodes c _ (s.clients c).phase
      rw [hp]
      refine ⟨request_update h1 rfl, fun srv' => ?_, h3⟩
      · show Function.update (s.clients c).conns srv .quiet srv' = .quiet → _
        by_cases e : srv' = srv
        · subst e
          exact fun _ hne => absurd hempty hne
        · rw [Function.update_of_ne e]
          exact h2 srv'
    · show ∀ srv k, ModeOk _ c (s.clients c).phase.trx
      rw [hp]
      exact hmode
  | @return_all c t ret hp hq =>
    have hph := hi.phases c
    rw [hp] at hph
    obtain ⟨-, h2, -⟩ := hph
    have hidle : ∀ srv, (s.clients c).conns srv = .quiet ∧ (s.nodes srv).access_keys c = ∅ := by
      intro srv
      refine ⟨hq srv, ?_⟩
      by_cases hne : (s.nodes srv).access_keys c = ∅
      · exact hne
      · cases h2 srv (hq srv) hne
    exact client_inv hi (hi.execs c) hidle fun srv k => modeOk_free (free_of_idle hi hidle srv k) _
  | @clear c hp =>
    have hph := hi.phases c
    rw [hp] at hph
    refine client_inv hi (hi.execs c) ?_ ?_
    · show PhaseOk s.nodes c _ (s.clients c).phase
      rw [hp]
      exact hph
    · show ∀ srv k, ModeOk _ c (s.clients c).phase.trx
      exact hi.modes c

end

theorem inv {s : State cp} (h : Reachable s) : Inv s := by
  induction h with
  | init =>
    refine ⟨fun srv k => List.nodup_nil, fun c srv => ⟨fun k => ?_, fun k hk => ?_, (fun rest e => by cases e), fun _ => rfl⟩,
      fun c srv => ⟨rfl, rfl⟩, fun c srv k => ⟨(fun h => by cases h), (fun h => by cases h)⟩, ?_⟩
    · exact iff_of_false RwLock.holds_init Std.ExtTreeSet.not_mem_empty
    · exact absurd hk Std.ExtTreeSet.not_mem_empty
    · convert Set.finite_empty
      simp
  | step _ hs ih => exact inv_step ih (step_cases hs)

end RampRdma.Locking
