/-
  RampRdma.Ycsb.Isolation — what the modes rr, rc and ru of the YCSB copy keep apart, in every
  interleaving of any number of clients.

  All three keep the write lock of a PUT until RELEASE_LOCKS. So the client of an unreleased
  put is the writer of its key (`Inv.puts`), and in rr the client of an unreleased get is a
  reader of its key (`Inv.gets`): only the step that unlocks a key takes a client's lock away
  (`served_grows`), and in RELEASE_LOCKS it ends the put or the get as well.
  - `unlocks_held`: nobody gives back a lock that it does not hold, as `pthread_rwlock_unlock`
    asks for.
  - `isolated`: the three properties.
-/

import Mathlib
import RampRdma.Ycsb.LockBased

namespace RampRdma.Ycsb.LockBased

open Machine Locking

variable {cp : ConnectionPool} {cfg : Config}

/-! ## Locks -/

/-- `c` has lost nothing. -/
structure Grows (c : Nat) (m m' : Mutex) : Prop where
  writer : m.writer = some c → m'.writer = some c
  reader : c ∈ m.readers → c ∈ m'.readers

theorem Grows.refl {c : Nat} {m : Mutex} : Grows c m m := ⟨id, id⟩

theorem grows_write_lock {c c' : Nat} {m m' : Mutex} (h : m.write_lock c = some m') : Grows c' m m' := by
  unfold RwLock.write_lock at h
  split at h
  · rename_i hm
    constructor
    · intro hw
      rw [hm.1] at hw
      cases hw
    · intro hr
      rw [hm.2] at hr
      cases hr
  · cases h

theorem grows_read_lock {c c' : Nat} {m m' : Mutex} (h : m.read_lock c = some m') : Grows c' m m' := by
  unfold RwLock.read_lock at h
  split at h
  · rename_i hm
    cases h
    constructor
    · intro hw
      rw [hm] at hw
      cases hw
    · intro hr
      exact List.mem_cons_of_mem _ hr
  · cases h

theorem grows_unlock {c c' : Nat} {m : Mutex} (h : c' ≠ c) : Grows c' m (m.unlock c) := by
  unfold RwLock.unlock
  split
  · rename_i hw
    have hr : m.readers = [] := m.exclusive.resolve_left (by rw [hw]; exact fun e => by cases e)
    constructor
    · intro hw'
      rw [hw] at hw'
      cases hw'
      exact absurd rfl h
    · intro hm
      rw [hr] at hm
      cases hm
  · constructor
    · exact id
    · intro hm
      exact (List.mem_erase_of_ne h).mpr hm

/-- A reader is not the writer. -/
theorem not_reader_writer {c c' : Nat} {m : Mutex} (hw : m.writer = some c) (hr : c' ∈ m.readers) : False := by
  rcases m.exclusive with e | e
  · rw [hw] at e
    cases e
  · rw [e] at hr
    cases hr

theorem set_mutex_grows {c : Nat} {n : Node} {key k : Key} {m : Mutex} (h : k = key → Grows c (n.mutex_table key) m) :
    Grows c (n.mutex_table k) ((n.set_mutex key m).mutex_table k) := by
  show Grows c _ (Function.update n.mutex_table key m k)
  by_cases e : k = key
  · subst e
    rw [Function.update_self]
    exact h rfl
  · rw [Function.update_of_ne e]
    exact .refl

section
variable {n n' : Node} {c : Nat} {x x' : Conn}

theorem unlocks_cases {k : Key} (h : x.unlocks cfg = some k) :
    (∃ r a, x = .accessed r a ∧ cfg.duration r = .SHORT ∧ r.key = k) ∨ ∃ rest, x = .unlocking (k :: rest) := by
  unfold Conn.unlocks at h
  split at h
  · split at h <;> cases h
    exact .inl ⟨_, _, rfl, ‹_›, rfl⟩
  · cases h
    exact .inr ⟨_, rfl⟩
  · cases h

/-- A step takes nothing from anybody but the lock that it gives back. -/
theorem served_grows (h : Served cfg n c x n' x') (c' : Nat) (k : Key) (hu : c' = c → x.unlocks cfg ≠ some k) :
    Grows c' (n.mutex_table k) (n'.mutex_table k) := by
  have unlock : ∀ key, (c' = c → key ≠ k) → Grows c' (n.mutex_table k) ((n.unlock c key).mutex_table k) := by
    intro key hk
    refine set_mutex_grows fun e => ?_
    subst e
    exact grows_unlock fun e => hk e rfl
  cases h with
  | write_lock hm => exact set_mutex_grows fun _ => grows_write_lock hm
  | read_lock _ hm => exact set_mutex_grows fun _ => grows_read_lock hm
  | unlocked => exact .refl
  | push => exact .refl
  | put => exact .refl
  | get => exact .refl
  | @keep r a =>
    cases hd : cfg.duration r with
    | SHORT =>
      refine unlock r.key fun e hk => hu e ?_
      simp [Conn.unlocks, hd, hk]
    | LONG => exact .refl
    | NONE => exact .refl
  | release => exact .refl
  | @unlock key rest =>
    refine unlock key fun e hk => hu e ?_
    simp [Conn.unlocks, hk]
  | released => exact .refl

theorem served_access_other (h : Served cfg n c x n' x') {c' : Nat} (hc : c' ≠ c) : n'.access_keys c' = n.access_keys c' := by
  cases h with
  | @keep r a =>
    cases cfg.duration r with
    | SHORT => rfl
    | LONG => exact Function.update_of_ne hc _ _
    | NONE => rfl
  | released => exact Function.update_of_ne hc _ _
  | _ => rfl

theorem served_request (h : Served cfg n c x n' x') {r : Request} (hr : x'.request = some r) : x.request = some r := by
  cases h with
  | release => cases hr
  | unlock => cases hr
  | released => cases hr
  | _ => exact hr

/-! ## Executors -/

/-- The lock of a request that is past its lock step. -/
def Granted (cfg : Config) (m : Mutex) (c : Nat) : Request → Prop
  | .PUT _ => m.writer = some c
  | .GET _ => cfg.read_duration ≠ .NONE → c ∈ m.readers

/-- The keys noted for RELEASE_LOCKS, or left of it. -/
def Noted (n : Node) (c : Nat) : Conn → Key → Prop
  | .unlocking rest, k => k ∈ rest
  | _, k => k ∈ n.access_keys c

/-- The lock of such a key: of a PUT, unless the GETs are noted, too. -/
structure Kept (cfg : Config) (m : Mutex) (c : Nat) : Prop where
  holds : m.Holds c
  writer : cfg.read_duration ≠ .LONG → m.writer = some c

structure ExecOk (cfg : Config) (srv : cp.Server) (n : Node) (c : Nat) (x : Conn) : Prop where
  here : ∀ r, x.request = some r → cp.get r.key = srv
  granted : ∀ r, x.granted = some r → Granted cfg (n.mutex_table r.key) c r
  kept : ∀ k, Noted n c x k → Kept cfg (n.mutex_table k) c
  nodup : ∀ rest, x = .unlocking rest → rest.Nodup

theorem Granted.grows {m m' : Mutex} {r : Request} (h : Granted cfg m c r) (hg : Grows c m m') : Granted cfg m' c r := by
  cases r with
  | PUT item => exact hg.writer h
  | GET key => exact fun hd => hg.reader (h hd)

theorem Kept.grows {m m' : Mutex} (h : Kept cfg m c) (hg : Grows c m m') : Kept cfg m' c :=
  ⟨h.holds.imp hg.writer hg.reader, fun hd => hg.writer (h.writer hd)⟩

/-- Serving another client leaves the account as it was. -/
theorem ExecOk.other {srv : cp.Server} {c' : Nat} {y : Conn} (hx : ExecOk cfg srv n c' y) (h : Served cfg n c x n' x')
    (hc : c' ≠ c) : ExecOk cfg srv n' c' y := by
  have hg := fun k => served_grows h c' k fun e => absurd e hc
  refine ⟨hx.here, fun r hr => (hx.granted r hr).grows (hg _), fun k hk => (hx.kept k ?_).grows (hg k), hx.nodup⟩
  cases y <;> simpa only [Noted, served_access_other h hc] using hk

/-- Give back the lock of a key that is not `k`. -/
theorem Kept.unlock {key k : Key} (h : Kept cfg (n.mutex_table k) c) (hk : k ≠ key) :
    Kept cfg ((n.unlock c key).mutex_table k) c :=
  h.grows (set_mutex_grows fun e => absurd e hk)

theorem ExecOk.moved {srv : cp.Server} (hx : ExecOk cfg srv n c x) (h : Client.Moved srv x x') : ExecOk cfg srv n c x' := by
  cases h with
  | same => exact hx
  | asked hr =>
    refine ⟨fun r e => ?_, (fun r e => by cases e), hx.kept, (fun rest e => by cases e)⟩
    cases e
    exact hr
  | answered => exact ⟨(fun r e => by cases e), (fun r e => by cases e), hx.kept, (fun rest e => by cases e)⟩
  | release_locks => exact ⟨(fun r e => by cases e), (fun r e => by cases e), hx.kept, (fun rest e => by cases e)⟩
  | released => exact ⟨(fun r e => by cases e), (fun r e => by cases e), hx.kept, (fun rest e => by cases e)⟩

/-- Only GETs give their lock back at once. -/
theorem get_of_short {r : Request} (hl : cfg.write_duration = .LONG) (h : cfg.duration r = .SHORT) :
    ∃ key, r = .GET key ∧ cfg.read_duration = .SHORT := by
  cases r with
  | PUT item =>
    have h : cfg.write_duration = .SHORT := h
    rw [hl] at h
    cases h
  | GET key => exact ⟨key, rfl, h⟩

theorem ExecOk.unlocks_held {srv : cp.Server} (hl : cfg.write_duration = .LONG) (hx : ExecOk cfg srv n c x) {k : Key}
    (h : x.unlocks cfg = some k) : (n.mutex_table k).Holds c := by
  rcases unlocks_cases h with ⟨r, a, rfl, hd, rfl⟩ | ⟨rest, rfl⟩
  · obtain ⟨key, rfl, hr⟩ := get_of_short hl hd
    exact .inr (hx.granted _ rfl (by simp [hr]))
  · exact (hx.kept k List.mem_cons_self).holds

/-- The step after the table: with the lock of a PUT kept, and of a GET kept if it is noted. -/
theorem ExecOk.keep {srv : cp.Server} {r : Request} {a : Answer} (hl : cfg.write_duration = .LONG)
    (hx : ExecOk cfg srv n c (.accessed r a)) : ExecOk cfg srv (n.keep c r.key (cfg.duration r)) c (.answered r a) := by
  have hg : Granted cfg (n.mutex_table r.key) c r := hx.granted r rfl
  have hkept : ∀ k, k ∈ n.access_keys c → Kept cfg (n.mutex_table k) c := hx.kept
  refine ⟨hx.here, (fun r hr => by cases hr), fun k hk => ?_, (fun rest e => by cases e)⟩
  have hk : k ∈ (n.keep c r.key (cfg.duration r)).access_keys c := hk
  cases hd : cfg.duration r with
  | LONG =>
    rw [hd] at hk
    have hk : k ∈ Function.update n.access_keys c ((n.access_keys c).insert r.key) c := hk
    show Kept cfg (n.mutex_table k) c
    rw [Function.update_self, Std.ExtTreeSet.mem_insert, compare_eq_iff_eq] at hk
    rcases hk with rfl | hk
    · cases r with
      | PUT item => exact ⟨.inl hg, fun _ => hg⟩
      | GET key =>
        have hd : cfg.read_duration = .LONG := hd
        exact ⟨.inr (hg (by simp [hd])), fun hne => absurd hd hne⟩
    · exact hkept k hk
  | SHORT =>
    rw [hd] at hk
    obtain ⟨key, rfl, hr⟩ := get_of_short hl hd
    -- a key noted before is another one: its lock is a write lock
    refine (hkept k hk).unlock ?_
    rintro rfl
    exact not_reader_writer ((hkept _ hk).writer (by simp [hr])) (hg (by simp [hr]))
  | NONE =>
    rw [hd] at hk
    exact hkept k hk

theorem ExecOk.serve {srv : cp.Server} (hl : cfg.write_duration = .LONG) (hx : ExecOk cfg srv n c x)
    (h : Served cfg n c x n' x') : ExecOk cfg srv n' c x' := by
  have hhere : ∀ r, x'.request = some r → cp.get r.key = srv := fun r hr => hx.here r (served_request h hr)
  have hg := served_grows h c
  cases h with
  | @write_lock item m hm =>
    refine ⟨hhere, fun r hr => ?_, fun k hk => (hx.kept k hk).grows (hg k (by simp [Conn.unlocks])), (fun rest e => by cases e)⟩
    cases hr
    show ((n.set_mutex item.key m).mutex_table item.key).writer = _
    rw [show (n.set_mutex item.key m).mutex_table item.key = m from Function.update_self _ _ _]
    exact (RwLock.write_lock_writer hm).1
  | @read_lock key m _ hm =>
    refine ⟨hhere, fun r hr => ?_, fun k hk => (hx.kept k hk).grows (hg k (by simp [Conn.unlocks])), (fun rest e => by cases e)⟩
    cases hr
    intro _
    show c ∈ ((n.set_mutex key m).mutex_table key).readers
    rw [show (n.set_mutex key m).mutex_table key = m from Function.update_self _ _ _, (RwLock.read_lock_writer hm).2]
    exact List.mem_cons_self
  | @unlocked key hd =>
    refine ⟨hhere, fun r hr => ?_, hx.kept, (fun rest e => by cases e)⟩
    cases hr
    exact fun hne => absurd hd hne
  | push =>
    refine ⟨hhere, fun r hr => ?_, hx.kept, (fun rest e => by cases e)⟩
    cases hr
    exact hx.granted _ rfl
  | put =>
    refine ⟨hhere, fun r hr => ?_, hx.kept, (fun rest e => by cases e)⟩
    cases hr
    exact hx.granted _ rfl
  | get =>
    refine ⟨hhere, fun r hr => ?_, hx.kept, (fun rest e => by cases e)⟩
    cases hr
    exact hx.granted _ rfl
  | keep => exact hx.keep hl
  | release =>
    refine ⟨hhere, (fun r hr => by cases hr), fun k hk => hx.kept k ?_, fun rest e => ?_⟩
    · exact Std.ExtTreeSet.mem_toList.mp hk
    · cases e
      exact Std.ExtTreeSet.distinct_toList.imp fun h e => h (compare_eq_iff_eq.mpr e)
  | @unlock key rest =>
    have hn := List.nodup_cons.mp (hx.nodup _ rfl)
    refine ⟨hhere, (fun r hr => by cases hr), fun k hk => ?_, fun rest' e => ?_⟩
    · refine (hx.kept k (List.mem_cons_of_mem _ hk)).unlock ?_
      rintro rfl
      exact hn.1 hk
    · cases e
      exact hn.2
  | released =>
    refine ⟨hhere, (fun r hr => by cases hr), fun k hk => ?_, (fun rest e => by cases e)⟩
    have hk : k ∈ Function.update n.access_keys c ∅ c := hk
    rw [Function.update_self] at hk
    exact absurd hk Std.ExtTreeSet.not_mem_empty

end

/-! ## States -/

structure Inv (cfg : Config) (s : State cp) : Prop where
  execs : ∀ c srv, ExecOk cfg srv (s.nodes srv) c ((s.clients c).conns srv)
  puts : ∀ p ∈ s.open_puts, ((s.nodes (cp.get p.2)).mutex_table p.2).writer = some p.1
  gets : cfg.read_duration = .LONG → ∀ p ∈ s.open_gets, p.1 ∈ ((s.nodes (cp.get p.2)).mutex_table p.2).readers

section
variable {s s' : State cp} {c : Nat} {srv : cp.Server} {x : Conn} {p : Nat × Key}

/-- What is open after a step was open before and is not what the step ends, or the step opens
    it. -/
theorem mem_mark_puts (h : p ∈ (s.mark c srv x).open_puts) :
    (p ∈ s.open_puts ∧ ∀ rest, x = .unlocking (p.2 :: rest) → p.1 ≠ c) ∨
    ∃ item, x = .locked (.PUT item) ∧ p = (c, item.key) := by
  unfold State.mark at h
  split at h
  · rcases List.mem_cons.mp h with h | h
    · exact .inr ⟨_, rfl, h⟩
    · exact .inl ⟨h, fun rest e => by cases e⟩
  · exact .inl ⟨h, fun rest e => by cases e⟩
  · rename_i key rest
    obtain ⟨h, hne⟩ := List.mem_filter.mp h
    refine .inl ⟨h, fun rest' e hc => of_decide_eq_true hne ?_⟩
    cases e
    rw [← hc]
  · exact .inl ⟨List.mem_of_mem_filter h, fun rest e => by cases e⟩
  · rename_i hx _
    exact .inl ⟨h, fun rest e => absurd e (hx _ _)⟩

theorem mem_mark_gets (h : p ∈ (s.mark c srv x).open_gets) :
    (p ∈ s.open_gets ∧ ∀ rest, x = .unlocking (p.2 :: rest) → p.1 ≠ c) ∨
    ∃ key, x = .locked (.GET key) ∧ p = (c, key) := by
  unfold State.mark at h
  split at h
  · exact .inl ⟨h, fun rest e => by cases e⟩
  · rcases List.mem_cons.mp h with h | h
    · exact .inr ⟨_, rfl, h⟩
    · exact .inl ⟨h, fun rest e => by cases e⟩
  · rename_i key rest
    obtain ⟨h, hne⟩ := List.mem_filter.mp h
    refine .inl ⟨h, fun rest' e hc => of_decide_eq_true hne ?_⟩
    cases e
    rw [← hc]
  · exact .inl ⟨List.mem_of_mem_filter h, fun rest e => by cases e⟩
  · rename_i hx _
    exact .inl ⟨h, fun rest e => absurd e (hx _ _)⟩

theorem update_nodes_grows {n : Node} {d : Nat} {k : Key}
    (h : cp.get k = srv → Grows d ((s.nodes srv).mutex_table k) (n.mutex_table k)) :
    Grows d ((s.nodes (cp.get k)).mutex_table k) ((Function.update s.nodes srv n (cp.get k)).mutex_table k) := by
  by_cases e : cp.get k = srv
  · rw [e, Function.update_self]
    exact h e
  · rw [Function.update_of_ne e]
    exact .refl

theorem inv_client (hi : Inv cfg s) {m : Move cp} {cl : Client cp.Server} (h : (s.clients c).move c m = some cl) :
    Inv cfg (s.set c cl) := by
  refine ⟨fun c' srv => ?_, hi.puts, hi.gets⟩
  show ExecOk cfg srv (s.nodes srv) c' ((Function.update s.clients c cl c').conns srv)
  by_cases e : c' = c
  · subst e
    rw [Function.update_self]
    exact (hi.execs c' srv).moved (Client.move_cases h srv)
  · rw [Function.update_of_ne e]
    exact hi.execs c' srv

theorem mark_clients : (s.mark c srv x).clients = s.clients := by
  unfold State.mark
  split <;> rfl

theorem conns_update {x' : Conn} (c' : Nat) (srv' : cp.Server) :
    (Function.update s.clients c ((s.clients c).put_conn srv x') c').conns srv' =
      if c' = c ∧ srv' = srv then x' else (s.clients c').conns srv' := by
  by_cases ec : c' = c
  · subst ec
    rw [Function.update_self]
    show Function.update (s.clients c').conns srv x' srv' = _
    rw [Function.update_apply]
    simp
  · rw [Function.update_of_ne ec, if_neg fun h => ec h.1]

section
variable {n : Node} {x' : Conn}

theorem execs_serve (hl : cfg.write_duration = .LONG) (hi : Inv cfg s)
    (h : Served cfg (s.nodes srv) c ((s.clients c).conns srv) n x') (c' : Nat) (srv' : cp.Server) :
    ExecOk cfg srv' (Function.update s.nodes srv n srv') c'
      ((Function.update s.clients c ((s.clients c).put_conn srv x') c').conns srv') := by
  rw [conns_update]
  by_cases es : srv' = srv
  · subst es
    rw [Function.update_self]
    by_cases ec : c' = c
    · subst ec
      rw [if_pos ⟨rfl, rfl⟩]
      exact (hi.execs c' srv').serve hl h
    · rw [if_neg fun h => ec h.1]
      exact (hi.execs c' srv').other h ec
  · rw [Function.update_of_ne es, if_neg fun h => es h.2]
    exact hi.execs c' srv'

theorem puts_serve (hl : cfg.write_duration = .LONG) (hi : Inv cfg s)
    (h : Served cfg (s.nodes srv) c ((s.clients c).conns srv) n x')
    (hp : p ∈ (s.mark c srv ((s.clients c).conns srv)).open_puts) :
    ((Function.update s.nodes srv n (cp.get p.2)).mutex_table p.2).writer = some p.1 := by
  have hx := hi.execs c srv
  rcases mem_mark_puts hp with ⟨hp, hne⟩ | ⟨item, e, rfl⟩
  · refine (update_nodes_grows fun e => served_grows h _ _ fun hc hu => ?_).writer (hi.puts p hp)
    -- the put's own lock is not given back but in RELEASE_LOCKS, which ends the put
    rcases unlocks_cases hu with ⟨r, a, hxe, hd, hk⟩ | ⟨rest, hxe⟩
    · obtain ⟨key, rfl, hrd⟩ := get_of_short hl hd
      have hg : c ∈ ((s.nodes srv).mutex_table key).readers := hx.granted (.GET key) (by rw [hxe]; rfl) (by simp [hrd])
      have hw := hi.puts p hp
      rw [← hk, show cp.get (Request.GET key).key = srv from hk ▸ e] at hw
      exact not_reader_writer hw hg
    · exact hne rest hxe hc
  · rw [e] at h
    cases h
    have hg := hx.granted (.PUT item) (by rw [e]; rfl)
    have hs : cp.get item.key = srv := hx.here (.PUT item) (by rw [e]; rfl)
    show ((Function.update s.nodes srv _ (cp.get item.key)).mutex_table item.key).writer = some c
    rw [hs, Function.update_self]
    exact hg

theorem gets_serve (hl : cfg.write_duration = .LONG) (hi : Inv cfg s)
    (h : Served cfg (s.nodes srv) c ((s.clients c).conns srv) n x') (hr : cfg.read_duration = .LONG)
    (hp : p ∈ (s.mark c srv ((s.clients c).conns srv)).open_gets) :
    p.1 ∈ ((Function.update s.nodes srv n (cp.get p.2)).mutex_table p.2).readers := by
  have hx := hi.execs c srv
  rcases mem_mark_gets hp with ⟨hp, hne⟩ | ⟨key, e, rfl⟩
  · refine (update_nodes_grows fun e => served_grows h _ _ fun hc hu => ?_).reader (hi.gets hr p hp)
    rcases unlocks_cases hu with ⟨r, a, hxe, hd, hk⟩ | ⟨rest, hxe⟩
    · obtain ⟨key, -, hrd⟩ := get_of_short hl hd
      rw [hr] at hrd
      cases hrd
    · exact hne rest hxe hc
  · rw [e] at h
    cases h
    have hg := hx.granted (.GET key) (by rw [e]; rfl) (by simp [hr])
    have hs : cp.get key = srv := hx.here (.GET key) (by rw [e]; rfl)
    show c ∈ ((Function.update s.nodes srv _ (cp.get key)).mutex_table key).readers
    rw [hs, Function.update_self]
    exact hg

theorem inv_serve (hl : cfg.write_duration = .LONG) (hi : Inv cfg s)
    (h : Served cfg (s.nodes srv) c ((s.clients c).conns srv) n x') :
    Inv cfg { (s.mark c srv ((s.clients c).conns srv)).set c ((s.clients c).put_conn srv x') with
      nodes := Function.update s.nodes srv n } := by
  refine ⟨fun c' srv' => ?_, fun p hp => puts_serve hl hi h hp, fun hr p hp => gets_serve hl hi h hr hp⟩
  show ExecOk cfg srv' (Function.update s.nodes srv n srv') c'
    ((Function.update (s.mark c srv ((s.clients c).conns srv)).clients c ((s.clients c).put_conn srv x') c').conns srv')
  rw [mark_clients]
  exact execs_serve hl hi h c' srv'

end

end

theorem inv_step (hl : cfg.write_duration = .LONG) {s s' : State cp} {a : Act cp} (hi : Inv cfg s)
    (h : step cfg s a = some s') : Inv cfg s' := by
  cases a with
  | client c m =>
    obtain ⟨cl, hm, rfl⟩ := Option.map_eq_some_iff.mp h
    exact inv_client hi hm
  | serve c srv =>
    simp only [step] at h
    split at h
    · rename_i n x hs
      cases h
      exact inv_serve hl hi (serve_cases hs)
    · cases h

theorem inv_init : Inv cfg ({} : State cp) := by
  refine ⟨fun c srv => ⟨(fun r e => by cases e), (fun r e => by cases e), fun k hk => ?_, (fun rest e => by cases e)⟩,
    (fun p hp => by cases hp), (fun _ p hp => by cases hp)⟩
  exact absurd hk Std.ExtTreeSet.not_mem_empty

theorem inv {s : State cp} (hl : cfg.write_duration = .LONG) (h : Reachable cfg s) : Inv cfg s :=
  h.inv (Inv cfg) inv_init fun _ _ _ hi _ h => inv_step hl hi h

/-- In every reachable state, whoever gives back a lock holds it. -/
theorem unlocks_held {s : State cp} (hl : cfg.write_duration = .LONG) (h : Reachable cfg s) {c : Nat} {srv : cp.Server}
    {k : Key} (hu : ((s.clients c).conns srv).unlocks cfg = some k) : ((s.nodes srv).mutex_table k).Holds c :=
  ((inv hl h).execs c srv).unlocks_held hl hu

/-! ## Isolation -/

structure Isolated (cfg : Config) (s : State cp) : Prop where
  /-- No key has unreleased puts of two clients. -/
  one_writer : ∀ c c' k, (c, k) ∈ s.open_puts → (c', k) ∈ s.open_puts → c' = c
  /-- In rr and rc, who is about to read the table finds no unreleased put of another. -/
  read : cfg = .rr ∨ cfg = .rc → ∀ c srv k, (s.clients c).conns srv = .locked (.GET k) →
    ∀ c', (c', k) ∈ s.open_puts → c' = c
  /-- In rr, who is about to put finds no unreleased get of another. -/
  put : cfg = .rr → ∀ c srv item, ((s.clients c).conns srv = .locked (.PUT item) ∨ (s.clients c).conns srv = .pushed item) →
    ∀ c', (c', item.key) ∈ s.open_gets → c' = c

theorem isolated {s : State cp} (hc : cfg = .rr ∨ cfg = .rc ∨ cfg = .ru) (h : Reachable cfg s) : Isolated cfg s := by
  have hl : cfg.write_duration = .LONG := by rcases hc with rfl | rfl | rfl <;> rfl
  have hi := inv hl h
  constructor
  · intro c c' k h1 h2
    have hw := hi.puts _ h1
    rw [hi.puts _ h2] at hw
    exact Option.some.inj hw
  · intro hm c srv k hx c' hp
    have hd : cfg.read_duration ≠ .NONE := by rcases hm with rfl | rfl <;> simp [Config.rr, Config.rc]
    have hs : cp.get k = srv := (hi.execs c srv).here (.GET k) (by rw [hx]; rfl)
    have hg : c ∈ ((s.nodes srv).mutex_table k).readers := (hi.execs c srv).granted (.GET k) (by rw [hx]; rfl) hd
    have hw := hi.puts _ hp
    rw [hs] at hw
    exact (not_reader_writer hw hg).elim
  · rintro rfl c srv item hx c' hp
    have hs : cp.get item.key = srv := (hi.execs c srv).here (.PUT item) (by rcases hx with hx | hx <;> rw [hx] <;> rfl)
    have hw : ((s.nodes srv).mutex_table item.key).writer = some c :=
      (hi.execs c srv).granted (.PUT item) (by rcases hx with hx | hx <;> rw [hx] <;> rfl)
    have hr := hi.gets rfl _ hp
    rw [hs] at hr
    exact (not_reader_writer hw hr).elim

/-- In rr, client 0 has read "x" and client 1 has put "y", neither has released. -/
theorem isolated_two : ∃ s : State two, Reachable .rr s ∧ s.open_gets = [(0, "x")] ∧ s.open_puts = [(1, "y")] ∧
    Isolated .rr s := by
  obtain ⟨s, hs, hp⟩ := reach_any (show (exec (step .rr) (fun _ _ => True) {} [
      .client 0 (.get_all (.add {} (.read "x" ∅))), .client 0 .send, .serve 0 0, .serve 0 0,
      .client 1 (.put_all (.add {} (.write "y" ∅)) ⟨1, 0⟩), .client 1 .send, .serve 1 1, .serve 1 1]).any
        (fun s : State two => decide (s.open_gets = [(0, "x")]) && decide (s.open_puts = [(1, "y")])) = true by
    decide +kernel)
  simp only [Bool.and_eq_true, decide_eq_true_eq] at hp
  exact ⟨s, hs, hp.1, hp.2, isolated (.inl rfl) hs⟩

end RampRdma.Ycsb.LockBased
