/-
  RampRdma.Locking.Deadlock — the TWO_PHASE_LOCKING mode never comes to a standstill.

  A client in the middle of a transaction can go on, or its executor can, unless the
  executor waits for a lock (`goes_or_blocked`). A lock that is not granted has a holder,
  in the middle of a transaction too. Of the waiting clients, finitely many, take one that
  waits for the largest key: every lock a waiting client holds is for a smaller key than
  the one it waits for (`Inv.asked_lt`), so the holder of that one is not waiting.
  - `no_deadlock`: in every reachable state with an unfinished transaction some client or
    executor can take a step of one.
-/

import Mathlib
import RampRdma.Data
import RampRdma.Lib.RwLock
import RampRdma.Locking.Invariant

namespace RampRdma.Locking

variable {cp : ConnectionPool} {s : State cp}

/-- Some client or executor can take a step of an unfinished transaction. -/
def CanGo (s : State cp) : Prop := ∃ a, Act.Goes cp a ∧ (step s a).isSome = true

/-- The executor of client `c` waits for a lock. -/
def Blocked (s : State cp) (c : Nat) : Prop :=
  ∃ r, (s.clients c).conns (cp.get r.key) = .asked r ∧ serve (s.nodes (cp.get r.key)) c (.asked r) = none

/-- The key of the request that client `c` has to send or has sent. -/
def wanted (s : State cp) (c : Nat) : Key :=
  match (s.clients c).phase with
  | .sending _ (r :: _) _ => r.key
  | _ => ""

theorem canGo_serve {c : Nat} {srv : cp.Server} {n : Node} {x : Conn}
    (h : serve (s.nodes srv) c ((s.clients c).conns srv) = some (n, x)) : CanGo s := by
  refine ⟨.serve c srv, trivial, ?_⟩
  simp only [step, h, Option.isSome_some]

theorem canGo_quiet {c : Nat} (hq : (s.clients c).AllQuiet) (hc : (s.clients c).phase ≠ .idle) : CanGo s := by
  cases hp : (s.clients c).phase with
  | idle => exact absurd hp hc
  | sending t todo ret =>
    cases todo with
    | nil =>
      refine ⟨.release c, trivial, ?_⟩
      simp only [step, hp, if_pos hq, Option.isSome_some]
    | cons r todo =>
      refine ⟨.send c, trivial, ?_⟩
      simp only [step, hp, if_pos hq, Option.isSome_some]
  | releasing t ret todo =>
    cases todo with
    | nil =>
      refine ⟨.return_all c, trivial, ?_⟩
      simp only [step, hp, if_pos hq, Option.isSome_some]
    | cons srv todo =>
      refine ⟨.send_release c srv, trivial, ?_⟩
      simp only [step, hp]
      rw [if_pos ⟨List.mem_cons_self, hq srv⟩]
      rfl

theorem goes_or_blocked (hi : Inv s) {c : Nat} (hc : (s.clients c).phase ≠ .idle) : CanGo s ∨ Blocked s c := by
  by_cases hq : (s.clients c).AllQuiet
  · exact .inl (canGo_quiet hq hc)
  · obtain ⟨srv, hne⟩ := not_forall.mp hq
    cases hx : (s.clients c).conns srv with
    | quiet => exact absurd hx hne
    | asked r =>
      obtain ⟨-, -, -, -, -, -, hs, -⟩ := hi.request (r := r) (by rw [hx]; rfl)
      subst hs
      cases hsv : serve (s.nodes (cp.get r.key)) c (.asked r) with
      | none => exact .inr ⟨r, hx, hsv⟩
      | some nx => exact .inl (canGo_serve (by rw [hx]; exact hsv))
    | locked r =>
      cases r with
      | PUT item => exact .inl (canGo_serve (by rw [hx]; rfl))
      | GET key => exact .inl (canGo_serve (by rw [hx]; rfl))
    | pushed item => exact .inl (canGo_serve (by rw [hx]; rfl))
    | answered r a =>
      obtain ⟨t, done, rest, ret, hp, -⟩ := hi.request (r := r) (by rw [hx]; rfl)
      refine .inl ⟨.recv c srv, trivial, ?_⟩
      simp only [step, hx, hp]
      rfl
    | release_locks => exact .inl (canGo_serve (by rw [hx]; rfl))
    | unlocking rest =>
      cases rest with
      | nil => exact .inl (canGo_serve (by rw [hx]; rfl))
      | cons key rest => exact .inl (canGo_serve (by rw [hx]; rfl))
    | released =>
      have hph := hi.phases c
      cases hp : (s.clients c).phase with
      | idle => exact absurd hp hc
      | sending t todo ret =>
        rw [hp] at hph
        rcases hph.2.1 srv with h0 | ⟨r, rest, -, hr, -⟩
        · exact absurd h0 hne
        · rw [hx] at hr
          cases hr
      | releasing t ret todo =>
        refine .inl ⟨.recv c srv, trivial, ?_⟩
        simp only [step, hx, hp]
        rfl

/-- A lock that is not granted has a holder. -/
theorem blocked_holder {n : Node} {c : Nat} {r : Request} (h : serve n c (.asked r) = none) :
    ∃ c', (n.mutex_table r.key).Holds c' := by
  cases r with
  | PUT item =>
    simp only [serve] at h
    split at h
    · cases h
    · rename_i hm
      exact RwLock.write_lock_none hm
  | GET key =>
    simp only [serve] at h
    split at h
    · cases h
    · rename_i hm
      exact RwLock.read_lock_none hm

theorem Blocked.wanted_eq (hi : Inv s) {c : Nat} {r : Request} (hx : (s.clients c).conns (cp.get r.key) = .asked r) :
    wanted s c = r.key := by
  obtain ⟨t, done, rest, ret, hp, -⟩ := hi.request (r := r) (by rw [hx]; rfl)
  unfold wanted
  rw [hp]

/-- Some handler or executor goes on as long as a client is in a transaction. The cache faults of
    `Table::put` are not looked at (`Server.Exhaustion`). -/
theorem no_deadlock (h : Reachable s) {c : Nat} (hc : (s.clients c).phase ≠ .idle) :
    ∃ a s', Act.Goes cp a ∧ step s a = some s' := by
  have hi := inv h
  suffices hgo : CanGo s by
    obtain ⟨a, ha, hs⟩ := hgo
    obtain ⟨s', hs⟩ := Option.isSome_iff_exists.mp hs
    exact ⟨a, s', ha, hs⟩
  rcases goes_or_blocked hi hc with hgo | hb
  · exact hgo
  · have hfin : {c | Blocked s c}.Finite := by
      refine hi.active.subset fun c ⟨r, hx, _⟩ hp => ?_
      obtain ⟨t, done, rest, ret, hp', -⟩ := hi.request (r := r) (by rw [hx]; rfl)
      rw [hp'] at hp
      cases hp
    obtain ⟨c1, ⟨r, hx, hsv⟩, hmax⟩ := exists_unblocked hfin ⟨c, hb⟩ (wanted s)
      (fun c k => ((s.nodes (cp.get k)).mutex_table k).Holds c) fun c ⟨r, hx, _⟩ k hk => by
        rw [Blocked.wanted_eq hi hx]
        exact hi.asked_lt hx hk
    rw [Blocked.wanted_eq hi hx] at hmax
    obtain ⟨c2, hh⟩ := blocked_holder hsv
    -- whoever has the lock is in a transaction and not waiting
    have hc2 : (s.clients c2).phase ≠ .idle := by
      intro hp
      have hph := hi.phases c2
      rw [hp] at hph
      exact free_of_idle hi hph _ _ hh
    exact (goes_or_blocked hi hc2).resolve_right fun hb2 => hmax c2 hb2 hh

/-- Client 1 waits for a lock that client 0 has. -/
theorem no_deadlock_waiting : ∃ s : State two, Reachable s ∧ (s.clients 1).phase ≠ .idle ∧ step s (.serve 1 0) = none ∧
    ∃ a s', Act.Goes two a ∧ step s a = some s' := by
  have hrun : (exec {} [.put_all 0 (.add {} (.write "x" ∅)) ⟨1, 0⟩, .send 0, .serve 0 0,
      .put_all 1 (.add {} (.write "x" ∅)) ⟨2, 0⟩, .send 1]).any (fun s : State two =>
        (s.clients 1).phase.trx.isSome && (step s (.serve 1 0)).isNone) = true := by decide +kernel
  obtain ⟨s, hr, hs⟩ := exec_any hrun
  obtain ⟨ht, hb⟩ := Bool.and_eq_true_iff.mp hs
  have hp : (s.clients 1).phase ≠ .idle := by
    intro e
    rw [e] at ht
    cases ht
  exact ⟨s, hr, hp, Option.isNone_iff_eq_none.mp hb, no_deadlock hr hp⟩

end RampRdma.Locking
