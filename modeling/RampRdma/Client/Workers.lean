/-
  RampRdma.Client.Workers — the worker threads of a client (`Client.cpp`, `ClientThread.cpp`)
  over the clients and servers of `Ramp.System`, so in the RAMP_FAST and AC_RAMP_FAST modes:
  worker `w` is its client `w`.

  A thread pops a transaction, runs `put_all` if the transaction writes and `get_all` if it
  reads, clears `access_coms`, and starts again; where the queue is empty it is through. In
  between, the bodies of the calls under way and the executors take their steps, of any
  worker, in any order.
  - `Inv`: every transaction is in the queue, in one worker's hands, or executed, once; and
    the `put_all`s and `get_all`s that have returned are those of the transactions executed
    and of the workers past them.
  - `executes_once`: so when every worker has joined, each transaction has been executed once,
    with one `put_all` if it writes and one `get_all` if it reads.
  - `after_acc`: every run comes to an end.
  - `stuck_joined`: and where no server ends, it comes to an end only with all workers joined.
-/

import Mathlib
import RampRdma.Lib.Machine
import RampRdma.Ramp.Partitions

namespace RampRdma.Workers

open Ramp Machine

/-- Where the thread is in `ClientThread::run`. -/
inductive Pc where
  | loop
  | popped (trx : Transaction)
  /-- In `put_all`. -/
  | putting (trx : Transaction)
  | put (trx : Transaction)
  /-- In `get_all`. -/
  | getting (trx : Transaction)
  | got (trx : Transaction)
  | joined
  deriving DecidableEq

/-- `this->trx_handler->trx`. -/
def Pc.trx : Pc → Multiset Transaction
  | .popped t | .putting t | .put t | .getting t | .got t => {t}
  | _ => 0

def Writes (t : Transaction) : Prop := t.write_set.isEmpty = false

def Reads (t : Transaction) : Prop := t.read_set.isEmpty = false

instance : DecidablePred Writes := fun t => inferInstanceAs (Decidable (t.write_set.isEmpty = false))

instance : DecidablePred Reads := fun t => inferInstanceAs (Decidable (t.read_set.isEmpty = false))

variable {cfg : Config}

variable (cfg) in
structure State where
  sys : Ramp.State cfg := {}
  trx_queue : List Transaction
  pc : Nat → Pc := fun _ => .loop
  /-- The transactions executed. -/
  done : List Transaction := []

variable (cfg) in
inductive Act where
  /-- The thread of worker `w` goes on; `ts` is what `now()` gives it. -/
  | go (w : Nat) (ts : Timestamp)
  /-- A call under way, or the executor of one of its connections, goes on. -/
  | sys (a : Ramp.Act cfg)

def Idle (s : State cfg) (w : Nat) : Prop := (s.sys.clients w).phase = .idle

instance (s : State cfg) (w : Nat) : Decidable (Idle s w) :=
  match h : (s.sys.clients w).phase with
  | .idle => isTrue h
  | .preparing _ _ => isFalse (by rw [Idle, h]; simp)
  | .committing _ _ => isFalse (by rw [Idle, h]; simp)
  | .first _ _ _ => isFalse (by rw [Idle, h]; simp)
  | .second _ _ _ _ => isFalse (by rw [Idle, h]; simp)

def State.set (s : State cfg) (w : Nat) (pc : Pc) : State cfg := { s with pc := Function.update s.pc w pc }

/-- `ClientThread::run`. -/
def go (s : State cfg) (w : Nat) (ts : Timestamp) : Option (State cfg) :=
  match s.pc w with
  | .loop =>
    match s.trx_queue with
    | [] => some (s.set w .joined)
    | trx :: queue => some { s.set w (.popped trx) with trx_queue := queue }
  | .popped trx =>
    if Writes trx then (Ramp.step s.sys (.put_all w trx ts)).map fun sys => { s.set w (.putting trx) with sys := sys }
    else some (s.set w (.put trx))
  | .putting trx => if Idle s w then some (s.set w (.put trx)) else none
  | .put trx =>
    if Reads trx then (Ramp.step s.sys (.get_all w trx)).map fun sys => { s.set w (.getting trx) with sys := sys }
    else some (s.set w (.got trx))
  | .getting trx => if Idle s w then some (s.set w (.got trx)) else none
  | .got trx => (Ramp.step s.sys (.clear w)).map fun sys => { s.set w .loop with sys := sys, done := trx :: s.done }
  | .joined => none

variable (worker_num : Nat)

def step (s : State cfg) : Act cfg → Option (State cfg)
  | .go w ts => if w < worker_num then go s w ts else none
  | .sys a =>
    if a.client < worker_num ∧ a.starts = false then (Ramp.step s.sys a).map fun sys => { s with sys := sys } else none

/-- Any step may be next. -/
abbrev Any (_ : State cfg) (_ : Act cfg) : Prop := True

/-! ## Which call a worker is in -/

/-- `put_all` (`true`) or `get_all`, of which transaction. -/
def call {S : Type} : Phase S → Option (Bool × Transaction)
  | .idle => none
  | .preparing p _ | .committing p _ => some (true, p.trx)
  | .first g _ _ | .second g _ _ _ => some (false, g.trx)

def Pc.call : Pc → Option (Bool × Transaction)
  | .putting t => some (true, t)
  | .getting t => some (false, t)
  | _ => none

theorem call_none {S : Type} {ph : Phase S} : call ph = none ↔ ph = .idle := by
  cases ph <;> simp [call]

/-- A transaction whose `put_all` has returned and that is not through. -/
def has_put (pc : Pc) (c : Option (Bool × Transaction)) : Multiset Transaction :=
  match pc with
  | .putting t => if c = none then {t} else 0
  | .put t | .getting t | .got t => if Writes t then {t} else 0
  | _ => 0

def has_got (pc : Pc) (c : Option (Bool × Transaction)) : Multiset Transaction :=
  match pc with
  | .getting t => if c = none then {t} else 0
  | .got t => if Reads t then {t} else 0
  | _ => 0

/-- What an own step of client `c` does to the calls: one returns, or none does. -/
inductive Returns (s s' : Ramp.State cfg) (c : Nat) : Prop
  | put (p : PutAll) (h : call (s.clients c).phase = some (true, p.trx)) (h' : call (s'.clients c).phase = none)
      (hr : s'.returned = p :: s.returned) (hg : s'.gets = s.gets)
  | got (g : GetAll) (ret : Ret) (h : call (s.clients c).phase = some (false, g.trx)) (h' : call (s'.clients c).phase = none)
      (hr : s'.returned = s.returned) (hg : s'.gets = (g, ret) :: s.gets)
  | none (h : call (s'.clients c).phase = call (s.clients c).phase) (hr : s'.returned = s.returned) (hg : s'.gets = s.gets)

theorem step_returns {s s' : Ramp.State cfg} {a : Ramp.Act cfg} (h : Ramp.step s a = some s') (ha : a.starts = false) :
    Returns s s' a.client := by
  -- the client of the step has the phase it is given
  have self : ∀ {c : Nat} {cl : Client cfg.cp.Server}, call cl.phase = call (s.clients c).phase →
      call ((s.set c cl).clients c).phase = call (s.clients c).phase := by
    intro c cl h
    simpa only [Ramp.State.set, Function.update_self] using h
  cases step_took h with
  | put_all _ => cases ha
  | get_all _ => cases ha
  | clear _ => cases ha
  | prepare hp _ _ => exact .none (self (by rw [hp]; rfl)) rfl rfl
  | @begin_commit c p hp _ => exact .none (self (c := c) (by rw [hp]; rfl)) rfl rfl
  | commit hp _ _ => exact .none (self (by rw [hp]; rfl)) rfl rfl
  | @put_return c p hp _ =>
    refine .put p (by rw [Act.client, hp]; rfl) ?_ rfl rfl
    simp only [Ramp.State.set, Act.client, Function.update_self]
    rfl
  | ask hp _ _ _ => exact .none (self (by rw [hp]; rfl)) rfl rfl
  | @check c g ret hp _ => exact .none (self (c := c) (by rw [hp]; rfl)) rfl rfl
  | skip hp _ => exact .none (self (by rw [hp]; rfl)) rfl rfl
  | fetch hp _ _ => exact .none (self (by rw [hp]; rfl)) rfl rfl
  | @get_return c g v ret hp _ =>
    refine .got g ret (by rw [Act.client, hp]; rfl) ?_ rfl rfl
    simp only [Ramp.State.set, Act.client, Function.update_self]
    rfl
  | recv_put _ => exact .none (self rfl) rfl rfl
  | recv_first _ hp => exact .none (self (by rw [hp]; rfl)) rfl rfl
  | recv_second _ hp => exact .none (self (by rw [hp]; rfl)) rfl rfl
  | serve _ => exact .none (self rfl) rfl rfl

/-! ## Every transaction once -/

/-- A sum over the workers of which one has changed. -/
theorem sum_change {M : Type} [AddCommMonoid M] {n : Nat} {f g : Nat → M} {w : Nat} (hw : w < n) (h : ∀ v, v ≠ w → g v = f v) :
    ∑ v ∈ Finset.range n, g v + f w = ∑ v ∈ Finset.range n, f v + g w := by
  have hm := Finset.mem_range.mpr hw
  have he : ∑ v ∈ (Finset.range n).erase w, g v = ∑ v ∈ (Finset.range n).erase w, f v :=
    Finset.sum_congr rfl fun v hv => h v (Finset.ne_of_mem_erase hv)
  rw [← Finset.add_sum_erase _ f hm, ← Finset.add_sum_erase _ g hm, he]
  abel

theorem exchange {n : Nat} {f g : Nat → Multiset Transaction} {w : Nat} (hw : w < n) (h : ∀ v, v ≠ w → g v = f v)
    {A B X Y : Multiset Transaction} (hA : A = B + ∑ v ∈ Finset.range n, f v) (hx : X + B + f w = A + Y + g w) :
    X = Y + ∑ v ∈ Finset.range n, g v := by
  have hs := sum_change hw h
  ext t
  have hs := congrArg (Multiset.count t) hs
  have hA := congrArg (Multiset.count t) hA
  have hx := congrArg (Multiset.count t) hx
  simp only [Multiset.count_add] at hs hA hx ⊢
  omega

/-- The transactions that have been put, and that have been read. -/
def put_trxs (s : Ramp.State cfg) : List Transaction := s.returned.map PutAll.trx

def got_trxs (s : Ramp.State cfg) : List Transaction := s.gets.map (·.1.trx)

structure Inv (trxs : List Transaction) (s : State cfg) : Prop where
  coherent : ∀ w, call (s.sys.clients w).phase = none ∨ call (s.sys.clients w).phase = (s.pc w).call
  writes : ∀ w t, s.pc w = .putting t → Writes t
  reads : ∀ w t, s.pc w = .getting t → Reads t
  all : (trxs : Multiset Transaction) = (s.trx_queue ++ s.done : List Transaction) +
    ∑ w ∈ Finset.range worker_num, (s.pc w).trx
  put : (put_trxs s.sys : Multiset Transaction) = (s.done.filter Writes : List Transaction) +
    ∑ w ∈ Finset.range worker_num, has_put (s.pc w) (call (s.sys.clients w).phase)
  got : (got_trxs s.sys : Multiset Transaction) = (s.done.filter Reads : List Transaction) +
    ∑ w ∈ Finset.range worker_num, has_got (s.pc w) (call (s.sys.clients w).phase)
  joined : ∀ w, s.pc w = .joined → s.trx_queue = []

theorem inv_init (trxs : List Transaction) : Inv worker_num trxs ({ trx_queue := trxs } : State cfg) where
  coherent w := .inl rfl
  writes w t h := by cases h
  reads w t h := by cases h
  all := by simp [Pc.trx]
  put := by simp [put_trxs, has_put]
  got := by simp [got_trxs, has_got]
  joined w h := by cases h

variable {worker_num} {trxs : List Transaction} {s s' : State cfg}

/-- A step that changes worker `w` only, by what it does to the counts. -/
theorem Inv.set (hi : Inv worker_num trxs s) {w : Nat} (hw : w < worker_num) {sys : Ramp.State cfg} {queue done : List Transaction}
    {x : Pc} (hc : ∀ v, v ≠ w → call (sys.clients v).phase = call (s.sys.clients v).phase)
    (hcoh : call (sys.clients w).phase = none ∨ call (sys.clients w).phase = x.call)
    (hwr : ∀ t, x = .putting t → Writes t) (hrd : ∀ t, x = .getting t → Reads t)
    (hall : ((s.trx_queue ++ s.done : List Transaction) : Multiset Transaction) + (s.pc w).trx =
      (queue ++ done : List Transaction) + x.trx)
    (hput : (put_trxs sys : Multiset Transaction) + (s.done.filter Writes : List Transaction) +
      has_put (s.pc w) (call (s.sys.clients w).phase) =
        put_trxs s.sys + (done.filter Writes : List Transaction) + has_put x (call (sys.clients w).phase))
    (hgot : (got_trxs sys : Multiset Transaction) + (s.done.filter Reads : List Transaction) +
      has_got (s.pc w) (call (s.sys.clients w).phase) =
        got_trxs s.sys + (done.filter Reads : List Transaction) + has_got x (call (sys.clients w).phase))
    (hj : ∀ v, (v ≠ w → s.pc v = .joined) → (v = w → x = .joined) → queue = []) :
    Inv worker_num trxs ⟨sys, queue, Function.update s.pc w x, done⟩ := by
  have hpc : ∀ v, v ≠ w → Function.update s.pc w x v = s.pc v := fun v hv => Function.update_of_ne hv _ _
  have hself : Function.update s.pc w x w = x := Function.update_self ..
  refine ⟨fun v => ?_, fun v t h => ?_, fun v t h => ?_, ?_, ?_, ?_, fun v h => ?_⟩
  · show call (sys.clients v).phase = none ∨ call (sys.clients v).phase = (Function.update s.pc w x v).call
    by_cases e : v = w
    · subst e
      rwa [hself]
    · rw [hc v e, hpc v e]
      exact hi.coherent v
  · have h : Function.update s.pc w x v = .putting t := h
    by_cases e : v = w
    · subst e
      exact hwr t (hself ▸ h)
    · exact hi.writes v t (hpc v e ▸ h)
  · have h : Function.update s.pc w x v = .getting t := h
    by_cases e : v = w
    · subst e
      exact hrd t (hself ▸ h)
    · exact hi.reads v t (hpc v e ▸ h)
  · have hx := exchange (f := fun v => (s.pc v).trx) (g := fun v => (Function.update s.pc w x v).trx)
      (X := trxs) (Y := (queue ++ done : List Transaction)) hw (fun v e => by simp only [hpc v e]) hi.all
    exact hx (by rw [hself, add_assoc, hall, ← add_assoc])
  · have hx := exchange (f := fun v => has_put (s.pc v) (call (s.sys.clients v).phase))
      (g := fun v => has_put (Function.update s.pc w x v) (call (sys.clients v).phase))
      (X := put_trxs sys) (Y := (done.filter Writes : List Transaction)) hw (fun v e => by simp only [hpc v e, hc v e]) hi.put
    exact hx (by rw [hself]; exact hput)
  · have hx := exchange (f := fun v => has_got (s.pc v) (call (s.sys.clients v).phase))
      (g := fun v => has_got (Function.update s.pc w x v) (call (sys.clients v).phase))
      (X := got_trxs sys) (Y := (done.filter Reads : List Transaction)) hw (fun v e => by simp only [hpc v e, hc v e]) hi.got
    exact hx (by rw [hself]; exact hgot)
  · have h : Function.update s.pc w x v = .joined := h
    refine hj v (fun e => hpc v e ▸ h) fun e => ?_
    subst e
    exact hself ▸ h

/-- A worker that only goes on in `run`. -/
theorem Inv.move (hi : Inv worker_num trxs s) {w : Nat} (hw : w < worker_num) {x : Pc}
    (hq : call (s.sys.clients w).phase = none) (hwr : ∀ t, x ≠ .putting t) (hrd : ∀ t, x ≠ .getting t) (hj : x ≠ .joined)
    (hall : (s.pc w).trx = x.trx) (hput : has_put (s.pc w) none = has_put x none)
    (hgot : has_got (s.pc w) none = has_got x none) : Inv worker_num trxs (s.set w x) :=
  hi.set hw (fun v _ => rfl) (.inl hq) (fun t e => absurd e (hwr t)) (fun t e => absurd e (hrd t)) (by rw [hall])
    (by rw [hq, hput]) (by rw [hq, hgot]) fun v h h' => by
      by_cases e : v = w
      · exact absurd (h' e) hj
      · exact hi.joined v (h e)

/-- A worker that starts a call. -/
theorem Inv.start (hi : Inv worker_num trxs s) {w : Nat} (hw : w < worker_num) {x : Pc} {sys : Ramp.State cfg}
    (hc : ∀ v, v ≠ w → sys.clients v = s.sys.clients v) (hq : call (s.sys.clients w).phase = none)
    (hx : call (sys.clients w).phase = x.call) (hwr : ∀ t, x = .putting t → Writes t) (hrd : ∀ t, x = .getting t → Reads t)
    (hj : x ≠ .joined) (hall : (s.pc w).trx = x.trx) (hret : sys.returned = s.sys.returned) (hgets : sys.gets = s.sys.gets)
    (hput : has_put (s.pc w) none = has_put x x.call) (hgot : has_got (s.pc w) none = has_got x x.call) :
    Inv worker_num trxs { s.set w x with sys := sys } :=
  hi.set hw (fun v e => by rw [hc v e]) (.inr hx) hwr hrd (by rw [hall]; rfl)
    (by rw [hq, hx, hput, put_trxs, put_trxs, hret]; rfl) (by rw [hq, hx, hgot, got_trxs, got_trxs, hgets]; rfl) fun v h h' => by
      by_cases e : v = w
      · exact absurd (h' e) hj
      · exact hi.joined v (h e)

theorem filter_cons (P : Transaction → Prop) [DecidablePred P] (t : Transaction) (l : List Transaction) :
    ((t :: l).filter P : Multiset Transaction) = (l.filter P : List Transaction) + if P t then {t} else 0 := by
  by_cases h : P t
  · rw [List.filter_cons_of_pos (by simpa using h), if_pos h, add_comm, Multiset.singleton_add, Multiset.cons_coe]
  · rw [List.filter_cons_of_neg (by simpa using h), if_neg h, add_zero]

theorem coherent_none (hi : Inv worker_num trxs s) {w : Nat} (h : (s.pc w).call = none) : call (s.sys.clients w).phase = none := by
  rcases hi.coherent w with hc | hc
  · exact hc
  · exact hc.trans h

theorem go_inv (hi : Inv worker_num trxs s) {w : Nat} (hw : w < worker_num) {ts : Timestamp} (h : go s w ts = some s') :
    Inv worker_num trxs s' := by
  unfold go at h
  split at h
  · rename_i hpc
    have hq := coherent_none hi (w := w) (by rw [hpc]; rfl)
    split at h
    · rename_i hqueue
      cases h
      refine hi.set hw (fun v _ => rfl) (.inl hq) (fun t e => by cases e) (fun t e => by cases e) ?_ ?_ ?_ fun _ _ _ => hqueue
      · rw [hpc]
        rfl
      · rw [hpc]
        rfl
      · rw [hpc]
        rfl
    · rename_i trx queue hqueue
      cases h
      refine hi.set hw (fun v _ => rfl) (.inl hq) (fun t e => by cases e) (fun t e => by cases e) ?_ ?_ ?_ fun v h h' => ?_
      · rw [hpc, hqueue]
        show ((trx :: (queue ++ s.done) : List Transaction) : Multiset Transaction) + 0 = (queue ++ s.done : List Transaction) + {trx}
        rw [add_zero, add_comm, Multiset.singleton_add, Multiset.cons_coe]
      · rw [hpc]
        rfl
      · rw [hpc]
        rfl
      · by_cases e : v = w
        · cases h' e
        · have := hi.joined v (h e)
          rw [hqueue] at this
          cases this
  · rename_i trx hpc
    have hq := coherent_none hi (w := w) (by rw [hpc]; rfl)
    split at h
    · rename_i hwr
      obtain ⟨sys, hs, rfl⟩ := Option.map_eq_some_iff.mp h
      have hother : ∀ v, v ≠ w → sys.clients v = s.sys.clients v := fun v e => step_other hs (Ne.symm e)
      cases step_took hs with
      | put_all hp =>
        refine hi.start hw hother hq ?_ (fun t e => ?_) (fun t e => by cases e) (by simp) (by rw [hpc]; rfl) rfl rfl
          (by rw [hpc]; rfl) (by rw [hpc]; rfl)
        · simp only [Ramp.State.set, Function.update_self]
          rfl
        · cases e
          exact hwr
    · rename_i hwr
      cases h
      exact hi.move hw hq (by simp) (by simp) (by simp) (by rw [hpc]; rfl)
        (by simp [hpc, has_put, hwr]) (by rw [hpc]; rfl)
  · rename_i trx hpc
    split at h <;> cases h
    rename_i hidle
    have hwr := hi.writes w trx hpc
    exact hi.move hw (call_none.mpr hidle) (by simp) (by simp) (by simp) (by rw [hpc]; rfl)
      (by simp [hpc, has_put, hwr]) (by rw [hpc]; rfl)
  · rename_i trx hpc
    have hq := coherent_none hi (w := w) (by rw [hpc]; rfl)
    split at h
    · rename_i hrd
      obtain ⟨sys, hs, rfl⟩ := Option.map_eq_some_iff.mp h
      have hother : ∀ v, v ≠ w → sys.clients v = s.sys.clients v := fun v e => step_other hs (Ne.symm e)
      cases step_took hs with
      | get_all hp =>
        refine hi.start hw hother hq ?_ (fun t e => by cases e) (fun t e => ?_) (by simp) (by rw [hpc]; rfl) rfl rfl
          (by rw [hpc]; rfl) (by rw [hpc]; rfl)
        · simp only [Ramp.State.set, Function.update_self]
          rfl
        · cases e
          exact hrd
    · rename_i hrd
      cases h
      exact hi.move hw hq (by simp) (by simp) (by simp) (by rw [hpc]; rfl) (by rw [hpc]; rfl)
        (by simp [hpc, has_got, hrd])
  · rename_i trx hpc
    split at h <;> cases h
    rename_i hidle
    have hrd := hi.reads w trx hpc
    exact hi.move hw (call_none.mpr hidle) (by simp) (by simp) (by simp) (by rw [hpc]; rfl) (by rw [hpc]; rfl)
      (by simp [hpc, has_got, hrd])
  · rename_i trx hpc
    have hq := coherent_none hi (w := w) (by rw [hpc]; rfl)
    obtain ⟨sys, hs, rfl⟩ := Option.map_eq_some_iff.mp h
    have hother : ∀ v, v ≠ w → sys.clients v = s.sys.clients v := fun v e => step_other hs (Ne.symm e)
    cases step_took hs with
    | clear hp =>
      refine hi.set hw (fun v e => by rw [hother v e]) (.inl ?_) (fun t e => by cases e) (fun t e => by cases e) ?_ ?_ ?_ fun v h h' => ?_
      · simp only [Ramp.State.set, Function.update_self]
        exact hq
      · rw [hpc]
        show ((s.trx_queue ++ s.done : List Transaction) : Multiset Transaction) + {trx} = (s.trx_queue ++ trx :: s.done : List Transaction) + 0
        rw [add_zero, add_comm, Multiset.singleton_add, Multiset.cons_coe]
        exact Multiset.coe_eq_coe.mpr List.perm_middle.symm
      · rw [hpc, filter_cons]
        exact (add_assoc _ _ _).trans (add_zero _).symm
      · rw [hpc, filter_cons]
        exact (add_assoc _ _ _).trans (add_zero _).symm
      · by_cases e : v = w
        · cases h' e
        · exact hi.joined v (h e)
  · cases h

theorem sys_inv (hi : Inv worker_num trxs s) {a : Ramp.Act cfg} (hw : a.client < worker_num) (ha : a.starts = false)
    {sys : Ramp.State cfg} (h : Ramp.step s.sys a = some sys) : Inv worker_num trxs { s with sys := sys } := by
  have hother : ∀ v, v ≠ a.client → call (sys.clients v).phase = call (s.sys.clients v).phase := fun v e => by
    rw [step_other h (Ne.symm e)]
  -- the worker stays where it is
  have hpc : Function.update s.pc a.client (s.pc a.client) = s.pc := Function.update_eq_self ..
  suffices hs : Inv worker_num trxs ⟨sys, s.trx_queue, Function.update s.pc a.client (s.pc a.client), s.done⟩ by rwa [hpc] at hs
  have hjoin : ∀ v, (v ≠ a.client → s.pc v = .joined) → (v = a.client → s.pc a.client = .joined) → s.trx_queue = [] := by
    intro v h h'
    by_cases e : v = a.client
    · exact hi.joined _ (h' e)
    · exact hi.joined v (h e)
  cases step_returns h ha with
  | put p hc hc' hr hg =>
    have hcoh : s.pc a.client = .putting p.trx := by
      rcases hi.coherent a.client with h0 | h0
      · rw [hc] at h0
        cases h0
      · rw [hc] at h0
        rcases hx : s.pc a.client with _ | _ | t | _ | t | _ | _ <;> rw [hx] at h0 <;> cases h0
        rfl
    refine hi.set hw hother (.inl hc') (hi.writes _) (hi.reads _) rfl ?_ ?_ hjoin
    · rw [hc, hc', hcoh, put_trxs, hr]
      show ((p.trx :: put_trxs s.sys : List Transaction) : Multiset Transaction) + _ + 0 = put_trxs s.sys + _ + {p.trx}
      rw [← Multiset.cons_coe, ← Multiset.singleton_add]
      abel
    · rw [hc, hc', hcoh, got_trxs, hg]
      rfl
  | got g ret hc hc' hr hg =>
    have hcoh : s.pc a.client = .getting g.trx := by
      rcases hi.coherent a.client with h0 | h0
      · rw [hc] at h0
        cases h0
      · rw [hc] at h0
        rcases hx : s.pc a.client with _ | _ | t | _ | t | _ | _ <;> rw [hx] at h0 <;> cases h0
        rfl
    refine hi.set hw hother (.inl hc') (hi.writes _) (hi.reads _) rfl ?_ ?_ hjoin
    · rw [hc, hc', hcoh, put_trxs, hr]
      rfl
    · rw [hc, hc', hcoh, got_trxs, hg]
      show ((g.trx :: got_trxs s.sys : List Transaction) : Multiset Transaction) + _ + 0 = got_trxs s.sys + _ + {g.trx}
      rw [← Multiset.cons_coe, ← Multiset.singleton_add]
      abel
  | none hc hr hg =>
    refine hi.set hw hother (by rw [hc]; exact hi.coherent _) (hi.writes _) (hi.reads _) rfl ?_ ?_ hjoin
    · rw [hc, put_trxs, hr]
      rfl
    · rw [hc, got_trxs, hg]
      rfl

theorem step_inv (hi : Inv worker_num trxs s) {a : Act cfg} (h : step worker_num s a = some s') : Inv worker_num trxs s' := by
  cases a with
  | go w ts =>
    simp only [step] at h
    split at h
    · exact go_inv hi ‹_› h
    · cases h
  | sys a =>
    simp only [step] at h
    split at h
    · rename_i hw
      obtain ⟨sys, hs, rfl⟩ := Option.map_eq_some_iff.mp h
      exact sys_inv hi hw.1 hw.2 hs
    · cases h

theorem inv (h : Reach (step worker_num) Any { trx_queue := trxs } s) : Inv worker_num trxs s :=
  h.inv (Inv worker_num trxs) (inv_init worker_num trxs) fun _ _ _ hi _ hs => step_inv hi hs

/-- What the workers have in their hands. -/
def in_hands (worker_num : Nat) (s : State cfg) : Multiset Transaction := ∑ w ∈ Finset.range worker_num, (s.pc w).trx

theorem executes_once (hn : 0 < worker_num) (h : Reach (step worker_num) Any { trx_queue := trxs } s) :
    (s.trx_queue : Multiset Transaction) + in_hands worker_num s + s.done = trxs ∧
    ((∀ w < worker_num, s.pc w = .joined) → s.done.Perm trxs ∧ (put_trxs s.sys).Perm (trxs.filter Writes) ∧
      (got_trxs s.sys).Perm (trxs.filter Reads)) := by
  have hi := inv h
  refine ⟨?_, fun hj => ?_⟩
  · rw [hi.all, ← Multiset.coe_add, in_hands]
    abel
  · have hsum : ∀ f : Nat → Multiset Transaction, (∀ w < worker_num, f w = 0) → ∑ w ∈ Finset.range worker_num, f w = 0 :=
      fun f hf => Finset.sum_eq_zero fun w hw => hf w (Finset.mem_range.mp hw)
    have hall := hi.all
    have hput := hi.put
    have hgot := hi.got
    rw [hi.joined 0 (hj 0 hn), hsum _ fun w hw => by rw [hj w hw]; rfl, add_zero, List.nil_append] at hall
    rw [hsum _ fun w hw => by rw [hj w hw]; rfl, add_zero] at hput
    rw [hsum _ fun w hw => by rw [hj w hw]; rfl, add_zero] at hgot
    have hdone := (Multiset.coe_eq_coe.mp hall).symm
    exact ⟨hdone, (Multiset.coe_eq_coe.mp hput).trans (hdone.filter _), (Multiset.coe_eq_coe.mp hgot).trans (hdone.filter _)⟩

/-- A write and a read of `"x"`. -/
def two : List Transaction := [({} : Transaction).add_write "x" ∅, ({} : Transaction).add_read "x" ∅]

/-- Worker 0 pops the one, worker 1 the other while the first is under way. -/
def two_run : List (Act (one fun _ => true)) :=
  let srv := (one fun _ => true).cp.get "x"
  [.go 0 .empty, .go 0 ⟨1, 0⟩, .go 1 .empty, .sys (.prepare 0 ⟨"x", ∅, ⟨1, 0⟩, ({} : OrdSet Key).insert "x"⟩), .go 1 .empty,
    .go 1 .empty, .sys (.serve 0 srv), .sys (.ask 1 "x" 0), .sys (.serve 0 srv), .sys (.serve 1 srv), .sys (.serve 1 srv),
    .sys (.recv 0 srv), .sys (.begin_commit 0), .sys (.recv 1 srv), .sys (.commit 0 srv), .sys (.serve 0 srv),
    .sys (.check 1), .sys (.skip 1 "x"), .sys (.serve 0 srv), .sys (.get_return 1), .sys (.serve 0 srv), .go 1 .empty,
    .sys (.recv 0 srv), .go 1 .empty, .go 1 .empty, .sys (.put_return 0), .go 0 .empty, .go 0 .empty, .go 0 .empty, .go 0 .empty]

theorem executes_once_two : ∃ s : State (one fun _ => true), Reach (step 2) Any { trx_queue := two } s ∧
    (∀ w < 2, s.pc w = .joined) ∧ s.done.Perm two := by
  obtain ⟨s, hs, hp⟩ := reach_any (show (exec (step 2) Any ({ trx_queue := two } : State (one fun _ => true)) two_run).any
    (fun s => decide (s.pc 0 = .joined) && decide (s.pc 1 = .joined)) = true by decide +kernel)
  simp only [Bool.and_eq_true, decide_eq_true_eq] at hp
  have hj : ∀ w < 2, s.pc w = .joined := by
    intro w hw
    interval_cases w
    · exact hp.1
    · exact hp.2
  exact ⟨s, hs, hj, ((executes_once (by decide) hs).2 hj).1⟩

/-! ## The end -/

/-- The steps of `run` to come, until the next `pop`. -/
def Pc.left : Pc → Nat
  | .popped _ => 6
  | .putting _ => 5
  | .put _ => 4
  | .getting _ => 3
  | .got _ => 2
  | .loop => 1
  | .joined => 0

/-- What is left of the run: the steps of the threads, and then those of the calls under way. -/
def State.left (n : Nat) (s : State cfg) : Nat ×ₗ (Fin n → Nat ×ₗ Nat) :=
  toLex (6 * s.trx_queue.length + ∑ w ∈ Finset.range n, (s.pc w).left, fun w => (s.sys.clients w).left)

theorem go_left {w : Nat} (hw : w < worker_num) {ts : Timestamp} (h : go s w ts = some s') :
    s'.left worker_num < s.left worker_num := by
  -- only the place of the worker and the queue count
  have key : ∀ {x : Pc}, s'.pc = Function.update s.pc w x → 6 * s'.trx_queue.length + x.left < 6 * s.trx_queue.length + (s.pc w).left →
      s'.left worker_num < s.left worker_num := by
    intro x hx hlt
    have hs := sum_change (f := fun v => (s.pc v).left) (g := fun v => (s'.pc v).left) hw fun v e => by
      show (s'.pc v).left = _
      rw [hx, Function.update_of_ne e]
    simp only [hx, Function.update_self] at hs
    refine Prod.Lex.toLex_lt_toLex.mpr (.inl ?_)
    rw [hx]
    omega
  unfold go at h
  split at h
  · rename_i hpc
    split at h <;> rename_i hqueue <;> cases h
    · exact key rfl (by rw [hpc]; exact Nat.lt_succ_self _)
    · exact key rfl (by rw [hpc, hqueue, List.length_cons]; simp only [Pc.left]; omega)
  · rename_i trx hpc
    split at h
    · obtain ⟨sys, -, rfl⟩ := Option.map_eq_some_iff.mp h
      exact key rfl (by rw [hpc]; exact Nat.lt_succ_self _)
    · cases h
      exact key rfl (by rw [hpc]; simp only [State.set, Pc.left]; omega)
  · rename_i trx hpc
    split at h <;> cases h
    exact key rfl (by rw [hpc]; exact Nat.lt_succ_self _)
  · rename_i trx hpc
    split at h
    · obtain ⟨sys, -, rfl⟩ := Option.map_eq_some_iff.mp h
      exact key rfl (by rw [hpc]; exact Nat.lt_succ_self _)
    · cases h
      exact key rfl (by rw [hpc]; simp only [State.set, Pc.left]; omega)
  · rename_i trx hpc
    split at h <;> cases h
    exact key rfl (by rw [hpc]; exact Nat.lt_succ_self _)
  · rename_i trx hpc
    obtain ⟨sys, -, rfl⟩ := Option.map_eq_some_iff.mp h
    exact key rfl (by rw [hpc]; exact Nat.lt_succ_self _)
  · cases h

theorem step_left {a : Act cfg} (h : step worker_num s a = some s') : s'.left worker_num < s.left worker_num := by
  cases a with
  | go w ts =>
    simp only [step] at h
    split at h
    · exact go_left ‹_› h
    · cases h
  | sys a =>
    simp only [step] at h
    split at h
    · rename_i hw
      obtain ⟨sys, hs, rfl⟩ := Option.map_eq_some_iff.mp h
      have hlt := Ramp.step_left hs hw.2
      refine Prod.Lex.toLex_lt_toLex.mpr (.inr ⟨rfl, Pi.lt_def.mpr ⟨fun v => ?_, ⟨a.client, hw.1⟩, hlt⟩⟩)
      by_cases e : v = ⟨a.client, hw.1⟩
      · subst e
        exact hlt.le
      · have hv : a.client ≠ v := fun he => e (Fin.ext he.symm)
        show (sys.clients v).left ≤ (s.sys.clients v).left
        rw [step_other hs hv]
    · cases h

/-- No run goes on for ever. -/
theorem after_acc (s : State cfg) : Acc (fun s2 s1 => ∃ a, step worker_num s1 a = some s2) s := by
  refine Subrelation.accessible (fun {s2 s1} ⟨a, ha⟩ => ?_) (InvImage.accessible (State.left worker_num) (WellFounded.apply wellFounded_lt _))
  exact step_left ha

theorem ends (worker_num : Nat) (s : State cfg) :
    ∃ s', Reach (step worker_num) Any s s' ∧ ∀ a, step worker_num s' a = none := by
  have hacc : Acc (fun s2 s1 => ∃ a, step worker_num s1 a = some s2) s := after_acc s
  induction hacc with
  | intro s _ ih =>
    by_cases h : ∀ a, step worker_num s a = none
    · exact ⟨s, .refl, h⟩
    · obtain ⟨a, ha⟩ := not_forall.mp h
      obtain ⟨s1, h1⟩ := Option.ne_none_iff_exists'.mp ha
      obtain ⟨s', hr, hs⟩ := ih s1 ⟨a, h1⟩
      have hr1 : Reach (step worker_num) Any s s1 := .tail .refl trivial h1
      exact ⟨s', hr1.trans hr, hs⟩

/-- The keys of the transaction are among `ks`, and its versions fit a slot. -/
def TrxWithin (cfg : Config) (ks : Finset Key) (trx : Transaction) : Prop :=
  (∀ k ∈ trx.read_set.keys, k ∈ ks) ∧ ∀ c ts, ∀ i ∈ PutAll.items ⟨c, trx, ts⟩, i.key ∈ ks ∧ Entry.Fits cfg.C i

variable {ks : Finset Key}

theorem mem_trxs (hi : Inv worker_num trxs s) {w : Nat} (hw : w < worker_num) {trx : Transaction} (ht : trx ∈ (s.pc w).trx) :
    trx ∈ trxs := by
  have hsum : trx ∈ ∑ v ∈ Finset.range worker_num, (s.pc v).trx := by
    rw [Multiset.mem_sum]
    exact ⟨w, Finset.mem_range.mpr hw, ht⟩
  have hm : trx ∈ (trxs : Multiset Transaction) := by
    rw [hi.all]
    exact Multiset.mem_add.mpr (.inr hsum)
  exact Multiset.mem_coe.mp hm

/-- The calls of the workers are a run of the clients and servers in which every transaction is one
    of `trxs`. -/
theorem sys_reach (hks : ∀ trx ∈ trxs, TrxWithin cfg ks trx) (h : Reach (step worker_num) Any { trx_queue := trxs } s) :
    Reach Ramp.step (Within ks) {} s.sys := by
  induction h with
  | refl => exact .refl
  | @tail s s' a hr _ hs ih =>
    have hi := inv hr
    cases a with
    | sys a =>
      simp only [step] at hs
      split at hs
      · rename_i hw
        obtain ⟨sys, hsys, rfl⟩ := Option.map_eq_some_iff.mp hs
        have hok : Within ks s.sys a := by
          cases a <;> first | trivial | exact absurd hw.2 (by simp [Act.starts])
        exact ih.tail hok hsys
      · cases hs
    | go w ts =>
      simp only [step] at hs
      split at hs
      · rename_i hw
        unfold go at hs
        split at hs
        · split at hs <;> cases hs <;> exact ih
        · rename_i trx hpc
          split at hs
          · obtain ⟨sys, hsys, rfl⟩ := Option.map_eq_some_iff.mp hs
            have hok : Within ks s.sys (.put_all w trx ts) :=
              (hks trx (mem_trxs hi hw (by rw [hpc]; exact Multiset.mem_singleton_self _))).2 w ts
            exact ih.tail hok hsys
          · cases hs
            exact ih
        · split at hs <;> cases hs
          exact ih
        · rename_i trx hpc
          split at hs
          · obtain ⟨sys, hsys, rfl⟩ := Option.map_eq_some_iff.mp hs
            have hok : Within ks s.sys (.get_all w trx) :=
              (hks trx (mem_trxs hi hw (by rw [hpc]; exact Multiset.mem_singleton_self _))).1
            exact ih.tail hok hsys
          · cases hs
            exact ih
        · split at hs <;> cases hs
          exact ih
        · obtain ⟨sys, hsys, rfl⟩ := Option.map_eq_some_iff.mp hs
          have hok : Within ks s.sys (.clear w) := trivial
          exact ih.tail hok hsys
        · cases hs
      · cases hs

/-- Where no server can end, the only way not to go on is to have joined. -/
theorem stuck_joined (hS : ∀ srv, (keysOf cfg.cp ks srv).card ≤ ENTRY_NUM) (hf : ∀ k ∈ ks, Entry.Fits cfg.C (.of_key k))
    (hac : ∀ c, cfg.ac c = false) (hks : ∀ trx ∈ trxs, TrxWithin cfg ks trx)
    (h : Reach (step worker_num) Any { trx_queue := trxs } s) (hstuck : ∀ a, step worker_num s a = none) {w : Nat}
    (hw : w < worker_num) : s.pc w = .joined := by
  have hi := inv h
  have hgo : ∀ ts, go s w ts = none := fun ts => by
    have := hstuck (.go w ts)
    rwa [step, if_pos hw] at this
  have hgo := hgo .empty
  -- inside a call the client is idle, or has a step
  have hidle : Idle s w := by
    rcases (no_server_ends hS hf (sys_reach hks h)).2 w (hac w) with hid | ⟨a, sys, ⟨rfl, ha⟩, hs⟩
    · exact hid
    · have := hstuck (.sys a)
      rw [step, if_pos ⟨hw, ha⟩, hs] at this
      cases this
  have hph : (s.sys.clients w).phase = .idle := hidle
  rcases hpc : s.pc w with _ | trx | trx | trx | trx | trx | _ <;> simp only [go, hpc] at hgo
  case joined => rfl
  case loop => split at hgo <;> cases hgo
  case popped =>
    split at hgo
    · simp only [Ramp.step, hph, Option.map_some] at hgo
      cases hgo
    · cases hgo
  case put =>
    split at hgo
    · simp only [Ramp.step, hph, Option.map_some] at hgo
      cases hgo
    · cases hgo
  case got =>
    simp only [Ramp.step, hph, Option.map_some] at hgo
    cases hgo
  case putting =>
    rw [if_pos hidle] at hgo
    cases hgo
  case getting =>
    rw [if_pos hidle] at hgo
    cases hgo

end RampRdma.Workers
