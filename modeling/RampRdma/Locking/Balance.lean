/-
  RampRdma.Locking.Balance — the locks that the executors of one server hold when their
  clients send any messages in any order.

  An executor counts nothing: it unlocks the keys of its set `access_keys` once each, on
  RELEASE_LOCKS, and nothing on CLOSE. A second GET of a key takes a second read lock. What
  cannot be granted waits, or comes back as EDEADLK where the executor itself is in the way
  (POSIX leaves it open), which `Mutex` does not look at.
  - `Once`: no GET of a key that the connection has read-locked, no CLOSE before RELEASE_LOCKS.
  - `released_all`: in every run of such messages, an executor that has answered RELEASE_LOCKS
    or left its loop holds no lock.
  - `get_twice`: two GETs of one key, and the key stays locked after RELEASE_LOCKS.
-/

import Mathlib
import RampRdma.Lib.Machine
import RampRdma.Locking.Invariant

namespace RampRdma.Locking.Balance

open Machine

inductive Message where
  | request (r : Request)
  | RELEASE_LOCKS
  /-- CLOSE, or any other type. -/
  | CLOSE
  deriving DecidableEq

structure State where
  node : Node := {}
  conns : Nat → Conn := fun _ => .quiet
  /-- The executors whose `run` has ended. -/
  closed : List Nat := []

inductive Act where
  | recv (c : Nat) (msg : Message)
  | serve (c : Nat)
  | refuse (c : Nat)

/-- In `recv_header`. -/
def receiving : Conn → Bool
  | .quiet => true
  | .answered _ _ => true
  | .released => true
  | _ => false

instance (m : Mutex) (c : Nat) : Decidable (m.Holds c) := inferInstanceAs (Decidable (_ ∨ _))

/-- When `pthread_rwlock_wrlock` and `pthread_rwlock_rdlock` may return EDEADLK. -/
def EDEADLK (m : Mutex) (c : Nat) : Request → Bool
  | .PUT _ => m.Holds c
  | .GET _ => m.writer = some c

def State.set (s : State) (c : Nat) (x : Conn) : State := { s with conns := Function.update s.conns c x }

def step (s : State) : Act → Option State
  | .recv c msg =>
    if receiving (s.conns c) ∧ c ∉ s.closed then
      match msg with
      | .request r => some (s.set c (.asked r))
      | .RELEASE_LOCKS => some (s.set c .release_locks)
      | .CLOSE => some { s.set c .quiet with closed := c :: s.closed }
    else none
  | .serve c =>
    match Locking.serve s.node c (s.conns c) with
    | some (n, x) => some { s.set c x with node := n }
    | none => none
  | .refuse c =>
    match s.conns c with
    | .asked r => if EDEADLK (s.node.mutex_table r.key) c r then some (s.set c (.locked r)) else none
    | _ => none

/-- A step that the unlocking of each key once can make up for. -/
def Once (s : State) : Act → Prop
  | .recv c (.request (.GET key)) => c ∉ (s.node.mutex_table key).readers
  | .recv c .CLOSE => s.node.access_keys c = ∅
  | _ => True

instance : ∀ s a, Decidable (Once s a)
  | s, .recv c (.request (.GET key)) => inferInstanceAs (Decidable (c ∉ (s.node.mutex_table key).readers))
  | s, .recv c .CLOSE => inferInstanceAs (Decidable (s.node.access_keys c = ∅))
  | _, .recv _ (.request (.PUT _)) => .isTrue trivial
  | _, .recv _ .RELEASE_LOCKS => .isTrue trivial
  | _, .serve _ => .isTrue trivial
  | _, .refuse _ => .isTrue trivial

/-- After RELEASE_LOCKS, or after `run`. -/
def Done (s : State) (c : Nat) : Prop := s.conns c = .released ∨ c ∈ s.closed

instance (s : State) (c : Nat) : Decidable (Done s c) := inferInstanceAs (Decidable (_ ∨ _))

/-! ## Steps -/

inductive Step (s : State) : Act → State → Prop
  | request {c : Nat} {r : Request} : receiving (s.conns c) = true → c ∉ s.closed →
      Step s (.recv c (.request r)) (s.set c (.asked r))
  | release {c : Nat} : receiving (s.conns c) = true → c ∉ s.closed →
      Step s (.recv c .RELEASE_LOCKS) (s.set c .release_locks)
  | close {c : Nat} : receiving (s.conns c) = true →
      Step s (.recv c .CLOSE) { s.set c .quiet with closed := c :: s.closed }
  | serve {c : Nat} {n : Node} {x : Conn} : Served s.node c (s.conns c) n x → Step s (.serve c) { s.set c x with node := n }
  | refuse {c : Nat} {r : Request} : s.conns c = .asked r → EDEADLK (s.node.mutex_table r.key) c r = true →
      Step s (.refuse c) (s.set c (.locked r))

variable {s s' : State} {a : Act}

theorem step_cases (h : step s a = some s') : Step s a s' := by
  cases a with
  | recv c msg =>
    simp only [step] at h
    split at h
    · rename_i hr
      cases msg with
      | request r => cases h; exact .request hr.1 hr.2
      | RELEASE_LOCKS => cases h; exact .release hr.1 hr.2
      | CLOSE => cases h; exact .close hr.1
    · cases h
  | serve c =>
    simp only [step] at h
    split at h
    · rename_i n x hs
      cases h
      exact .serve (serve_cases hs)
    · cases h
  | refuse c =>
    simp only [step] at h
    split at h
    · rename_i r hx
      split at h
      · rename_i he
        cases h
        exact .refuse hx he
      · cases h
    · cases h

/-! ## Who holds what -/

/-- All keys at one server. -/
abbrev one : ConnectionPool := ⟨1, fun _ => 0, Nat.one_pos⟩

structure Inv (s : State) : Prop where
  readers : ∀ k, (s.node.mutex_table k).readers.Nodup
  execs : ∀ c, @ExecOk one s.node 0 c (s.conns c)
  asked : ∀ c key, s.conns c = .asked (.GET key) → c ∉ (s.node.mutex_table key).readers
  closed : ∀ c ∈ s.closed, s.conns c = .quiet ∧ s.node.access_keys c = ∅

theorem set_same (s : State) (c : Nat) (x : Conn) : (s.set c x).conns c = x := Function.update_self _ _ _

theorem set_ne (s : State) {c c' : Nat} (x : Conn) (h : c' ≠ c) : (s.set c x).conns c' = s.conns c' :=
  Function.update_of_ne h _ _

/-- What holds of `x` at `c`, and of every other connection before. -/
theorem set_forall {P : Nat → Conn → Prop} {c : Nat} {x : Conn} (h : P c x) (ho : ∀ c', c' ≠ c → P c' (s.conns c')) (c' : Nat) :
    P c' ((s.set c x).conns c') := by
  by_cases e : c' = c
  · subst e
    rw [set_same]
    exact h
  · rw [set_ne _ _ e]
    exact ho c' e

theorem inv_init : Inv {} where
  readers k := List.nodup_nil
  execs c := by
    refine ⟨fun k => ?_, fun k hk => ?_, (fun rest e => by cases e), (fun e => by cases e)⟩
    · refine iff_of_false RwLock.holds_init ?_
      exact Std.ExtTreeSet.not_mem_empty
    · exact absurd hk Std.ExtTreeSet.not_mem_empty
  asked c key h := by cases h
  closed c hc := by cases hc

theorem holding_receiving {n : Node} {c : Nat} {x : Conn} (h : receiving x = true) (k : Key) :
    Holding n c x k ↔ k ∈ n.access_keys c := by
  cases x <;> first | rfl | cases h

/-- A message leaves the locks as they are. -/
theorem inv_message (hi : Inv s) {c : Nat} {x : Conn} (hr : receiving (s.conns c) = true) (hc : c ∉ s.closed)
    (hx : ∀ k, Holding s.node c x k ↔ k ∈ s.node.access_keys c) (hu : ∀ rest, x ≠ .unlocking rest) (hne : x ≠ .released)
    (hg : ∀ key, x = .asked (.GET key) → c ∉ (s.node.mutex_table key).readers) : Inv (s.set c x) where
  readers := hi.readers
  execs := by
    have he := hi.execs c
    refine set_forall ⟨fun k => ?_, he.here, fun rest e => absurd e (hu rest), fun e => absurd e hne⟩ fun c' _ => hi.execs c'
    exact ((he.holds k).trans (holding_receiving hr k)).trans (hx k).symm
  asked := set_forall (P := fun c' x => ∀ key, x = .asked (.GET key) → c' ∉ (s.node.mutex_table key).readers) hg fun c' _ =>
    hi.asked c'
  closed c' h := by
    have e : c' ≠ c := fun e => hc (e ▸ h)
    rw [set_ne _ _ e]
    exact hi.closed c' h

theorem inv_close (hi : Inv s) {c : Nat} (hr : receiving (s.conns c) = true) (ha : s.node.access_keys c = ∅) :
    Inv { s.set c .quiet with closed := c :: s.closed } where
  readers := hi.readers
  execs := by
    have he := hi.execs c
    refine set_forall ⟨fun k => ?_, he.here, (fun rest e => by cases e), (fun e => by cases e)⟩ fun c' _ => hi.execs c'
    exact (he.holds k).trans (holding_receiving hr k)
  asked := set_forall (P := fun c' x => ∀ key, x = .asked (.GET key) → c' ∉ (s.node.mutex_table key).readers)
    (fun key e => by cases e) fun c' _ => hi.asked c'
  closed := set_forall (P := fun c' x => c' ∈ c :: s.closed → x = .quiet ∧ s.node.access_keys c' = ∅) (fun _ => ⟨rfl, ha⟩)
    fun c' e h => hi.closed c' ((List.mem_cons.mp h).resolve_left e)

/-- A lock that is granted was not held by the one it is granted to. -/
theorem granted {n n' : Node} {c : Nat} {r : Request} {x : Conn} (h : Served n c (.asked r) n' x)
    (hg : ∀ key, r = .GET key → c ∉ (n.mutex_table key).readers) : ¬ (n.mutex_table r.key).Holds c := by
  cases h with
  | @write_lock item m hm =>
    show ¬ (n.mutex_table item.key).Holds c
    unfold RwLock.write_lock at hm
    split at hm
    · rename_i hw
      intro h
      rcases h with h | h
      · rw [hw.1] at h
        cases h
      · rw [hw.2] at h
        cases h
    · cases hm
  | @read_lock key m hm =>
    show ¬ (n.mutex_table key).Holds c
    unfold RwLock.read_lock at hm
    split at hm
    · rename_i hw
      intro h
      rcases h with h | h
      · rw [hw] at h
        cases h
      · exact hg key rfl h
    · cases hm

/-- Serving `c` gives no other a read lock. -/
theorem served_reader {n n' : Node} {c c' : Nat} {x x' : Conn} (h : Served n c x n' x') (hc : c' ≠ c) {k : Key}
    (hr : c' ∉ (n.mutex_table k).readers) : c' ∉ (n'.mutex_table k).readers := by
  have upd : ∀ (key : Key) (m : Mutex), (c' ∈ m.readers → c' ∈ (n.mutex_table key).readers) →
      c' ∉ ((n.set_mutex key m).mutex_table k).readers := by
    intro key m hm
    show c' ∉ (Function.update n.mutex_table key m k).readers
    by_cases e : k = key
    · subst e
      rw [Function.update_self]
      exact fun h => hr (hm h)
    · rwa [Function.update_of_ne e]
  cases h with
  | @write_lock item m hm =>
    apply upd
    intro h
    rw [(RwLock.write_lock_writer hm).2] at h
    cases h
  | @read_lock key m hm =>
    apply upd
    intro h
    rw [(RwLock.read_lock_writer hm).2] at h
    exact (List.mem_cons.mp h).resolve_left hc
  | @unlock key rest =>
    apply upd
    exact fun h => RwLock.unlock_readers_sublist.subset h
  | push => exact hr
  | put => exact hr
  | get => exact hr
  | release => exact hr
  | released => exact hr

theorem served_asked {n n' : Node} {c : Nat} {x : Conn} (r : Request) : ¬ Served n c x n' (.asked r) := by
  intro h
  cases h

theorem inv_serve (hi : Inv s) {c : Nat} {n : Node} {x : Conn} (h : Served s.node c (s.conns c) n x) :
    Inv { s.set c x with node := n } where
  readers := served_readers h hi.readers fun r e => by
    rw [e] at h
    exact granted h fun key hk => hi.asked c key (e.trans (congrArg _ hk))
  execs := by
    refine set_forall (served_exec h (hi.execs c) hi.readers fun r _ => Subsingleton.elim _ _) fun c' e => ?_
    obtain ⟨hl, ha⟩ := served_other h hi.readers e
    exact (hi.execs c').congr hl ha
  asked := by
    refine set_forall (P := fun c' x => ∀ key, x = .asked (.GET key) → c' ∉ (n.mutex_table key).readers) (fun key hx => ?_)
      fun c' e key hx => served_reader h e (hi.asked c' key hx)
    rw [hx] at h
    exact absurd h (served_asked _)
  closed c' hc := by
    have e : c' ≠ c := by
      rintro rfl
      exact (served_busy h).1 (hi.closed c' hc).1
    show (s.set c x).conns c' = .quiet ∧ n.access_keys c' = ∅
    rw [set_ne _ _ e, (served_other h hi.readers e).2]
    exact hi.closed c' hc

/-- The lock that is not granted is one that the executor has. -/
theorem inv_refuse (hi : Inv s) {c : Nat} {r : Request} (hx : s.conns c = .asked r)
    (hd : EDEADLK (s.node.mutex_table r.key) c r = true) : Inv (s.set c (.locked r)) where
  readers := hi.readers
  execs := by
    have he := hi.execs c
    rw [hx] at he
    have hh : (s.node.mutex_table r.key).Holds c := by
      cases r with
      | PUT item => exact of_decide_eq_true hd
      | GET key => exact .inl (of_decide_eq_true hd)
    refine set_forall ⟨fun k => ?_, he.here, (fun rest e => by cases e), (fun e => by cases e)⟩ fun c' _ => hi.execs c'
    show _ ↔ k = r.key ∨ k ∈ s.node.access_keys c
    have hk : (s.node.mutex_table k).Holds c ↔ k ∈ s.node.access_keys c := he.holds k
    refine hk.trans ?_
    constructor
    · exact .inr
    · rintro (rfl | h)
      · exact (he.holds _).mp hh
      · exact h
  asked := set_forall (P := fun c' x => ∀ key, x = .asked (.GET key) → c' ∉ (s.node.mutex_table key).readers)
    (fun key e => by cases e) fun c' _ => hi.asked c'
  closed c' h := by
    have e : c' ≠ c := by
      rintro rfl
      have := (hi.closed c' h).1
      rw [hx] at this
      cases this
    rw [set_ne _ _ e]
    exact hi.closed c' h

theorem inv_step (hi : Inv s) (ho : Once s a) (h : step s a = some s') : Inv s' := by
  cases step_cases h with
  | @request c r hr hc =>
    refine inv_message hi hr hc (fun k => Iff.rfl) (fun rest e => by cases e) (fun e => by cases e) ?_
    intro key e
    cases e
    exact ho
  | release hr hc =>
    exact inv_message hi hr hc (fun k => Iff.rfl) (fun rest e => by cases e) (fun e => by cases e) (fun key e => by cases e)
  | close hr => exact inv_close hi hr ho
  | serve hs => exact inv_serve hi hs
  | refuse hx hd => exact inv_refuse hi hx hd

theorem inv (h : Reach step Once {} s) : Inv s :=
  h.inv Inv inv_init fun _ _ _ hi ho hs => inv_step hi ho hs

/-! ## After RELEASE_LOCKS, and after CLOSE -/

theorem released_all (h : Reach step Once {} s) {c : Nat} (hd : Done s c) (k : Key) : ¬ (s.node.mutex_table k).Holds c := by
  have hi := inv h
  have ha : s.node.access_keys c = ∅ := by
    rcases hd with hx | hc
    · exact (hi.execs c).released hx
    · exact (hi.closed c hc).2
  have hr : receiving (s.conns c) = true := by
    rcases hd with hx | hc
    · rw [hx]
      rfl
    · rw [(hi.closed c hc).1]
      rfl
  intro hh
  have hk := (holding_receiving hr k).mp ((hi.execs c).holds k |>.mp hh)
  rw [ha] at hk
  exact Std.ExtTreeSet.not_mem_empty hk

/-- A PUT, a GET of the same key that comes back as EDEADLK, and RELEASE_LOCKS. -/
def put_get : List Act :=
  [.recv 0 (.request (.PUT { key := "x", ts := ⟨1, 0⟩ })), .serve 0, .serve 0, .serve 0,
    .recv 0 (.request (.GET "x")), .refuse 0, .serve 0, .recv 0 .RELEASE_LOCKS, .serve 0, .serve 0, .serve 0]

theorem released_all_put_get : ∃ s, Reach step Once {} s ∧ Done s 0 ∧ ¬ (s.node.mutex_table "x").Holds 0 := by
  obtain ⟨s, hs, hp⟩ := reach_any (show (Machine.exec step Once {} put_get).any
    (fun s => decide (Done s 0)) = true by decide +kernel)
  have hd := of_decide_eq_true hp
  exact ⟨s, hs, hd, released_all hs hd "x"⟩

def get_get : List Act :=
  [.recv 0 (.request (.GET "x")), .serve 0, .serve 0, .recv 0 (.request (.GET "x")), .serve 0, .serve 0,
    .recv 0 .RELEASE_LOCKS, .serve 0, .serve 0, .serve 0]

/-- Two read locks of `"x"`, one unlock. -/
theorem get_twice : ¬ ∀ s, Reach step (fun _ _ => True) {} s → ∀ c, Done s c → ∀ k, ¬ (s.node.mutex_table k).Holds c := by
  intro h
  obtain ⟨s, hs, hp⟩ := reach_any (show (Machine.exec step (fun _ _ => True) {} get_get).any
    (fun s => decide (Done s 0) && decide ((s.node.mutex_table "x").Holds 0)) = true by decide +kernel)
  simp only [Bool.and_eq_true, decide_eq_true_eq] at hp
  exact h s hs 0 hp.1 "x" hp.2

end RampRdma.Locking.Balance
