/-
  RampRdma.Net.SendBufs — the send buffers of a `SendRecvSocket`, `RDMAWriteSocket` or
  `RDMAWriteImmSocket`, used by one thread: which are free, which are posted, and what
  `send_close` waits for.

  A buffer is posted as a work request whose id is its address, and comes back when the
  completion of the request is polled. Completions appear in `send_cq` in posting order, at
  any time (`Act.complete`); everything else is the thread's. `ibv_poll_cq` gives as many as
  there are, up to what it is asked for. A message that does not fit a buffer ends the
  process.
  - `pushes_eq`: what is put back never overflows the circular buffer.
  - `inv`: until `send_close` clears the queue, every buffer is free, posted or held, once.
  - `send_bufs_partition`: so no buffer is handed out before its request has completed, and
    nobody waits for nothing.
  - `send_close_waits_iff`: `send_close` returns with its own completion exactly when all
    earlier requests have completed by the time it clears the queue.
-/

import Mathlib
import RampRdma.Lib.Machine
import RampRdma.Net.Message

namespace RampRdma.Verbs

open Machine

abbrev PACKET_WINDOW_SIZE : Nat := 10

inductive Call where
  | send_msg (msg : Message)
  /-- What the constructor of an `RDMAWriteSocket` sends. -/
  | send_rka
  | read
  | send_close
  deriving DecidableEq

structure WorkRequest where
  wr_id : Nat
  /-- Ghost: posted by `send_close`. -/
  close : Bool := false
  deriving DecidableEq

/-- Where the thread is. -/
inductive Pc where
  | idle
  /-- In `get_send_buf`, with no free buffer. -/
  | polling (c : Call)
  | holding (c : Call) (buf : Nat)
  /-- In `RDMAWriteSocket::read`, after `post_read`. -/
  | reading
  /-- In `send_close`, after its `ibv_poll_cq`. -/
  | cleared (buf : Nat)
  | closing
  | closed
  deriving DecidableEq

def Pc.held : Pc → List Nat
  | .holding _ buf => [buf]
  | .cleared buf => [buf]
  | _ => []

/-- `send_close` has cleared the queue. -/
def Pc.past : Pc → Bool
  | .cleared _ => true
  | .closing => true
  | .closed => true
  | _ => false

/-- The addresses of the send buffers, in the second half of `verbs_buf`. -/
def slots : List Nat := (List.range PACKET_WINDOW_SIZE).map fun i => PACKET_SIZE * PACKET_WINDOW_SIZE + i * PACKET_SIZE

structure Socket where
  /-- `boost::circular_buffer`. -/
  send_bufs : List Nat := slots
  /-- Completed and not polled, oldest first. -/
  send_cq : List WorkRequest := []
  /-- Posted and not completed, oldest first. -/
  outstanding : List WorkRequest := []
  pc : Pc := .idle
  deriving DecidableEq

/-- Onto a full circular buffer: the front is overwritten. -/
def push_back (send_bufs : List Nat) (buf : Nat) : List Nat :=
  if send_bufs.length < PACKET_WINDOW_SIZE then send_bufs ++ [buf] else (send_bufs ++ [buf]).tail

def Socket.posted (s : Socket) : List WorkRequest := s.send_cq ++ s.outstanding

def Socket.post (s : Socket) (wr : WorkRequest) (pc : Pc) : Socket := { s with outstanding := s.outstanding ++ [wr], pc := pc }

inductive Act where
  | call (c : Call)
  /-- The oldest request completes. -/
  | complete
  /-- The thread goes on. -/
  | run

variable (mark : List UInt8)

/-- The next thing the thread does; `none` where it polls an empty queue, or exits. -/
def run (s : Socket) : Option Socket :=
  match s.pc with
  | .polling c =>
    match s.send_cq.take PACKET_WINDOW_SIZE with
    | [] => none
    | wr :: wcs => some { s with
        send_cq := s.send_cq.drop PACKET_WINDOW_SIZE
        send_bufs := (wcs.map WorkRequest.wr_id).foldl push_back s.send_bufs
        pc := .holding c wr.wr_id }
  | .holding (.send_msg msg) buf =>
    match send_msg mark msg with
    | .ok _ => some (s.post { wr_id := buf } .idle)
    | .error _ => none
  | .holding .send_rka buf => some (s.post { wr_id := buf } .idle)
  | .holding .read buf => some (s.post { wr_id := buf } .reading)
  | .reading => some { s with pc := .idle }
  | .holding .send_close buf => some { s with send_cq := s.send_cq.drop PACKET_WINDOW_SIZE, pc := .cleared buf }
  | .cleared buf =>
    match send_msg mark ⟨.CLOSE, []⟩ with
    | .ok _ => some (s.post { wr_id := buf, close := true } .closing)
    | .error _ => none
  | .closing =>
    match s.send_cq with
    | [] => none
    | _ :: wcs => some { s with send_cq := wcs, pc := .closed }
  | .idle => none
  | .closed => none

def step (s : Socket) : Act → Option Socket
  | .call c =>
    match s.pc, s.send_bufs with
    | .idle, [] => some { s with pc := .polling c }
    | .idle, buf :: bufs => some { s with send_bufs := bufs, pc := .holding c buf }
    | _, _ => none
  | .complete =>
    match s.outstanding with
    | [] => none
    | wr :: rest => some { s with send_cq := s.send_cq ++ [wr], outstanding := rest }
  | .run => run mark s

/-- The completion of CLOSE has been polled, or CLOSE has not been posted. -/
def Socket.ClosePolled (s : Socket) : Prop := ∀ wr ∈ s.posted, wr.close = false

instance (s : Socket) : Decidable s.ClosePolled := inferInstanceAs (Decidable (∀ wr ∈ s.posted, _))

/-- Every step is allowed. -/
abbrev Any (_ : Socket) (_ : Act) : Prop := True

/-! ## Steps -/

inductive Step (s : Socket) : Socket → Prop
  | take {c : Call} {buf : Nat} {bufs : List Nat} : s.pc = .idle → s.send_bufs = buf :: bufs →
      Step s { s with send_bufs := bufs, pc := .holding c buf }
  | empty {c : Call} : s.pc = .idle → s.send_bufs = [] → Step s { s with pc := .polling c }
  | complete {wr : WorkRequest} {rest : List WorkRequest} : s.outstanding = wr :: rest →
      Step s { s with send_cq := s.send_cq ++ [wr], outstanding := rest }
  | poll {c : Call} {wr : WorkRequest} {wcs : List WorkRequest} : s.pc = .polling c →
      s.send_cq.take PACKET_WINDOW_SIZE = wr :: wcs →
      Step s { s with
        send_cq := s.send_cq.drop PACKET_WINDOW_SIZE
        send_bufs := (wcs.map WorkRequest.wr_id).foldl push_back s.send_bufs
        pc := .holding c wr.wr_id }
  | post {c : Call} {buf : Nat} {pc : Pc} : s.pc = .holding c buf → pc = .idle ∨ pc = .reading →
      Step s (s.post { wr_id := buf } pc)
  | read : s.pc = .reading → Step s { s with pc := .idle }
  | clear {buf : Nat} : s.pc = .holding .send_close buf →
      Step s { s with send_cq := s.send_cq.drop PACKET_WINDOW_SIZE, pc := .cleared buf }
  | close {buf : Nat} : s.pc = .cleared buf → Step s (s.post { wr_id := buf, close := true } .closing)
  | closed {wr : WorkRequest} {wcs : List WorkRequest} : s.pc = .closing → s.send_cq = wr :: wcs →
      Step s { s with send_cq := wcs, pc := .closed }

variable {mark} {s s' : Socket}

theorem run_cases (h : run mark s = some s') : Step s s' := by
  unfold run at h
  split at h
  · rename_i c hp
    split at h
    · cases h
    · rename_i wr wcs hq
      cases h
      exact .poll hp hq
  · rename_i hp
    split at h <;> cases h
    exact .post hp (.inl rfl)
  · rename_i hp
    cases h
    exact .post hp (.inl rfl)
  · rename_i hp
    cases h
    exact .post hp (.inr rfl)
  · rename_i hp
    cases h
    exact .read hp
  · rename_i hp
    cases h
    exact .clear hp
  · rename_i hp
    split at h <;> cases h
    exact .close hp
  · rename_i hp
    split at h
    · cases h
    · rename_i hq
      cases h
      exact .closed hp hq
  · cases h
  · cases h

theorem step_cases {a : Act} (h : step mark s a = some s') : Step s s' := by
  cases a with
  | call c =>
    simp only [step] at h
    split at h
    · rename_i hp hb
      cases h
      exact .empty hp hb
    · rename_i hp hb
      cases h
      exact .take hp hb
    · cases h
  | complete =>
    simp only [step] at h
    split at h
    · cases h
    · rename_i ho
      cases h
      exact .complete ho
  | run => exact run_cases h

/-! ## Who has which buffer -/

theorem slots_nodup : slots.Nodup := by decide

theorem length_slots : slots.length = 10 := rfl

theorem pushes_eq {send_bufs bufs : List Nat} (h : send_bufs.length + bufs.length ≤ 10) :
    bufs.foldl push_back send_bufs = send_bufs ++ bufs := by
  induction bufs generalizing send_bufs with
  | nil => simp
  | cons buf bufs ih =>
    rw [List.length_cons] at h
    have hp : push_back send_bufs buf = send_bufs ++ [buf] := if_pos (by simp only [PACKET_WINDOW_SIZE]; omega)
    rw [List.foldl_cons, hp, ih (by rw [List.length_append, List.length_singleton]; omega)]
    simp

/-- A request that completes stays posted, in its place. -/
theorem posted_complete {wr : WorkRequest} {rest : List WorkRequest} (h : s.outstanding = wr :: rest) :
    ({ s with send_cq := s.send_cq ++ [wr], outstanding := rest } : Socket).posted = s.posted := by
  simp [Socket.posted, h]

structure Inv (s : Socket) : Prop where
  slots : (s.send_bufs ++ s.posted.map WorkRequest.wr_id ++ s.pc.held).Perm slots
  polling : ∀ c, s.pc = .polling c → s.send_bufs = []
  posted : s.ClosePolled

theorem inv_init : Inv {} where
  slots := by simp [Socket.posted, Pc.held]
  polling c h := by cases h
  posted wr h := by cases h

theorem Inv.length (hi : Inv s) : s.send_bufs.length + s.send_cq.length + s.outstanding.length + s.pc.held.length = 10 := by
  have h := hi.slots.length_eq
  simp only [Socket.posted, List.length_append, List.length_map, length_slots] at h
  omega

theorem inv_count (hi : Inv s) (b : Nat) :
    s.send_bufs.count b + (s.send_cq.map WorkRequest.wr_id).count b + (s.outstanding.map WorkRequest.wr_id).count b +
      s.pc.held.count b = slots.count b := by
  have h := List.perm_iff_count.mp hi.slots b
  simp only [Socket.posted, List.map_append, List.count_append] at h
  omega

theorem inv_take (hi : Inv s) {c : Call} {buf : Nat} {bufs : List Nat} (hpc : s.pc = .idle) (hb : s.send_bufs = buf :: bufs) :
    Inv { s with send_bufs := bufs, pc := .holding c buf } := by
  refine ⟨List.perm_iff_count.mpr fun b => ?_, fun c h => (by cases h), hi.posted⟩
  have := inv_count hi b
  simp only [hpc, hb, Pc.held, List.count_cons, List.count_nil, Socket.posted, List.map_append, List.count_append] at this ⊢
  omega

theorem inv_poll (hi : Inv s) {c : Call} {wr : WorkRequest} {wcs : List WorkRequest} (hpc : s.pc = .polling c)
    (hq : s.send_cq.take PACKET_WINDOW_SIZE = wr :: wcs) :
    Inv { s with
      send_cq := s.send_cq.drop PACKET_WINDOW_SIZE
      send_bufs := (wcs.map WorkRequest.wr_id).foldl push_back s.send_bufs
      pc := .holding c wr.wr_id } := by
  have hb := hi.polling c hpc
  have hl : wcs.length + 1 ≤ 10 := by
    have := congrArg List.length hq
    simp only [List.length_take, List.length_cons, PACKET_WINDOW_SIZE] at this
    omega
  have hcq : s.send_cq = (wr :: wcs) ++ s.send_cq.drop PACKET_WINDOW_SIZE := by rw [← hq, List.take_append_drop]
  have hpush : (wcs.map WorkRequest.wr_id).foldl push_back s.send_bufs = wcs.map WorkRequest.wr_id := by
    rw [hb, pushes_eq, List.nil_append]
    rw [List.length_map, List.length_nil]
    omega
  refine ⟨List.perm_iff_count.mpr fun b => ?_, fun c h => (by cases h), fun w hw => hi.posted w ?_⟩
  · have := inv_count hi b
    rw [hcq, hb, hpc] at this
    simp only [hpush, Pc.held, List.map_cons, List.map_append, List.count_cons, List.count_nil, List.count_append,
      Socket.posted, List.cons_append] at this ⊢
    omega
  · rcases List.mem_append.mp hw with hw | hw
    · exact List.mem_append_left _ (List.mem_of_mem_drop hw)
    · exact List.mem_append_right _ hw

theorem inv_post (hi : Inv s) {c : Call} {buf : Nat} {pc : Pc} (hpc : s.pc = .holding c buf) (hpc' : pc = .idle ∨ pc = .reading) :
    Inv (s.post { wr_id := buf } pc) := by
  obtain ⟨hh, hpol⟩ : pc.held = [] ∧ ∀ c, pc ≠ .polling c := by
    rcases hpc' with rfl | rfl <;> exact ⟨rfl, fun c h => by cases h⟩
  refine ⟨List.perm_iff_count.mpr fun b => ?_, fun c h => absurd h (hpol c), fun w hw => ?_⟩
  · have := inv_count hi b
    have hheld : (s.post { wr_id := buf } pc).pc.held = [] := hh
    have hold : (Pc.holding c buf).held = [buf] := rfl
    rw [hpc, hold] at this
    rw [hheld]
    simp only [Socket.post, List.map_append, List.count_append, List.count_nil, Socket.posted, List.map_cons,
      List.map_nil, List.count_cons] at this ⊢
    omega
  · rcases List.mem_append.mp hw with hw | hw
    · exact hi.posted w (List.mem_append_left _ hw)
    · rcases List.mem_append.mp hw with hw | hw
      · exact hi.posted w (List.mem_append_right _ hw)
      · rw [List.mem_singleton.mp hw]

theorem step_inv (hi : Inv s) (h : Step s s') (hp : s'.pc.past = false) : Inv s' := by
  cases h with
  | take hpc hb => exact inv_take hi hpc hb
  | empty hpc hb =>
    refine ⟨?_, fun c _ => hb, hi.posted⟩
    have := hi.slots
    rw [hpc] at this
    exact this
  | complete ho =>
    refine ⟨?_, hi.polling, ?_⟩
    · rw [posted_complete ho]
      exact hi.slots
    · unfold Socket.ClosePolled
      rw [posted_complete ho]
      exact hi.posted
  | poll hpc hq => exact inv_poll hi hpc hq
  | post hpc hpc' => exact inv_post hi hpc hpc'
  | read hpc =>
    refine ⟨?_, fun c h => (by cases h), hi.posted⟩
    have := hi.slots
    rw [hpc] at this
    exact this
  | clear _ => cases hp
  | close _ => cases hp
  | closed _ _ => cases hp

/-- `send_close` does not go back. -/
theorem step_past (h : Step s s') (hp : s.pc.past = true) : s'.pc.past = true := by
  cases h with
  | take hpc _ => rw [hpc] at hp; cases hp
  | empty hpc _ => rw [hpc] at hp; cases hp
  | complete _ => exact hp
  | poll hpc _ => rw [hpc] at hp; cases hp
  | post hpc _ => rw [hpc] at hp; cases hp
  | read hpc => rw [hpc] at hp; cases hp
  | clear hpc => rw [hpc] at hp; cases hp
  | close _ => rfl
  | closed _ _ => rfl

theorem inv (h : Reach (step mark) Any {} s) (hp : s.pc.past = false) : Inv s := by
  refine h.inv (fun s => s.pc.past = false → Inv s) (fun _ => inv_init) (fun s a s' ih _ hs hp => ?_) hp
  have hst := step_cases hs
  refine step_inv (ih ?_) hst hp
  by_contra hn
  rw [step_past hst (by simpa using hn)] at hp
  cases hp

/-! ## Until send_close -/

theorem step_outstanding (h : Step s s') (hp : s'.pc.past = false) {wr : WorkRequest} (hw : wr ∈ s.outstanding) :
    wr ∈ s'.posted := by
  cases h with
  | take _ _ => exact List.mem_append_right _ hw
  | empty _ _ => exact List.mem_append_right _ hw
  | complete ho =>
    rw [posted_complete ho]
    exact List.mem_append_right _ hw
  | poll _ _ => exact List.mem_append_right _ hw
  | post _ _ => exact List.mem_append_right _ (List.mem_append_left _ hw)
  | read _ => exact List.mem_append_right _ hw
  | clear _ => cases hp
  | close _ => cases hp
  | closed _ _ => cases hp

/-- Until `send_close` clears the queue. -/
theorem send_bufs_partition (h : Reach (step mark) Any {} s) (hp : s.pc.past = false) :
    (s.send_bufs ++ s.posted.map WorkRequest.wr_id ++ s.pc.held).Perm slots ∧
    (∀ a s', step mark s a = some s' → ∀ buf ∈ s'.pc.held, buf ∉ s.pc.held →
      buf ∉ s.outstanding.map WorkRequest.wr_id ∧ buf ∉ s'.posted.map WorkRequest.wr_id) ∧
    ∀ c, s.pc = .polling c → s.posted ≠ [] := by
  have hi := inv h hp
  refine ⟨hi.slots, fun a s' hs buf hb hn => ?_, fun c hc he => ?_⟩
  · have hst := step_cases hs
    by_cases hp' : s'.pc.past = false
    · have hnd := (step_inv hi hst hp').slots.nodup_iff.mpr slots_nodup
      have hout : buf ∉ s'.posted.map WorkRequest.wr_id := fun hm =>
        (List.nodup_append.mp hnd).2.2 buf (List.mem_append_right _ hm) buf hb rfl
      refine ⟨fun hm => hout ?_, hout⟩
      obtain ⟨wr, hw, rfl⟩ := List.mem_map.mp hm
      exact List.mem_map_of_mem (step_outstanding hst hp' hw)
    · -- `send_close` keeps the buffer it has
      cases hst with
      | clear hpc =>
        rw [hpc] at hn
        exact absurd hb hn
      | close hpc =>
        cases hb
      | closed hpc _ => cases hb
      | complete _ => exact absurd hp hp'
      | take _ _ => exact absurd rfl hp'
      | empty _ _ => exact absurd rfl hp'
      | poll _ _ => exact absurd rfl hp'
      | read _ => exact absurd rfl hp'
      | post _ hpc =>
        rcases hpc with rfl | rfl <;> exact absurd rfl hp'
  · have hl := hi.length
    have hb := hi.polling c hc
    have he := congrArg List.length he
    simp only [Socket.posted, List.length_append, List.length_nil] at he
    simp only [hb, hc, Pc.held, List.length_nil] at hl
    omega

/-- All ten buffers are posted by reads, and an eleventh read waits for one of them. -/
def eleven : List Act := (List.replicate 10 [Act.call .read, .run, .run]).flatten ++ [.call .read]

theorem send_bufs_partition_eleven : ∃ s, Reach (step is_arrived) Any {} s ∧ s.pc = .polling .read ∧ s.posted ≠ [] := by
  obtain ⟨s, hs, hp⟩ := reach_any (show (Machine.exec (step is_arrived) Any {} eleven).any
    (fun s => decide (s.pc = .polling .read)) = true by decide +kernel)
  have hp := of_decide_eq_true hp
  exact ⟨s, hs, hp, (send_bufs_partition hs (by rw [hp]; rfl)).2.2 _ hp⟩

/-! ## send_close -/

/-- The posted requests, by where `send_close` is: `rest` was outstanding when it cleared the
    queue. -/
def Closing (rest : List WorkRequest) (s : Socket) : Prop :=
  match s.pc with
  | .cleared _ => s.posted = rest
  | .closing => ∃ buf, s.posted = rest ++ [{ wr_id := buf, close := true }]
  | .closed => ∃ buf, s.posted = List.tail (rest ++ [{ wr_id := buf, close := true }])
  | _ => False

theorem closing_step {rest : List WorkRequest} (hi : Closing rest s) (h : Step s s') : Closing rest s' := by
  cases h with
  | take hpc _ => simp only [Closing, hpc] at hi
  | empty hpc _ => simp only [Closing, hpc] at hi
  | @complete wr wrs ho =>
    unfold Closing at hi ⊢
    rw [posted_complete ho]
    exact hi
  | poll hpc _ => simp only [Closing, hpc] at hi
  | post hpc _ => simp only [Closing, hpc] at hi
  | read hpc => simp only [Closing, hpc] at hi
  | clear hpc => simp only [Closing, hpc] at hi
  | @close buf hpc =>
    simp only [Closing, hpc] at hi
    refine ⟨buf, ?_⟩
    rw [← hi]
    simp [Socket.posted, Socket.post]
  | @closed wr wcs hpc hq =>
    simp only [Closing, hpc] at hi
    obtain ⟨buf, hi⟩ := hi
    refine ⟨buf, ?_⟩
    rw [← hi]
    simp [Socket.posted, hq]

/-- The one completion that `send_close` waits for is that of CLOSE if and only if every earlier
    request had completed when it cleared the queue. -/
theorem send_close_waits_iff (h : Reach (step mark) Any {} s) {buf : Nat} (hp : s.pc = .holding .send_close buf)
    {s1 s2 : Socket} (h1 : step mark s .run = some s1) (h2 : Reach (step mark) Any s1 s2) (hc : s2.pc = .closed) :
    s2.ClosePolled ↔ s.outstanding = [] := by
  have hi := inv h (by rw [hp]; rfl)
  have hl := hi.length
  have hcl : Closing s.outstanding s1 := by
    have hs : s1 = { s with send_cq := s.send_cq.drop PACKET_WINDOW_SIZE, pc := .cleared buf } := by
      simp only [step, run, hp] at h1
      cases h1
      rfl
    have hd : s.send_cq.drop PACKET_WINDOW_SIZE = [] := List.drop_eq_nil_of_le (by simp only [PACKET_WINDOW_SIZE]; omega)
    rw [hs, hd]
    rfl
  have hcl := h2.inv (Closing s.outstanding) hcl fun _ _ _ hi _ hs => closing_step hi (step_cases hs)
  simp only [Closing, hc] at hcl
  obtain ⟨buf', hpost⟩ := hcl
  unfold Socket.ClosePolled
  rw [hpost]
  cases s.outstanding with
  | nil => simp
  | cons wr rest => simp

/-- An answer has completed, and `send_close` is about to clear the queue. -/
def answered : Socket := ⟨slots.drop 2, [{ wr_id := 25600 }], [], .holding .send_close 28160⟩

theorem send_close_waits_answered : ∃ s1 s2, Reach (step []) Any {} answered ∧ step [] answered .run = some s1 ∧
    Reach (step []) Any s1 s2 ∧ s2.pc = .closed ∧ s2.ClosePolled := by
  have h : Reach (step []) Any {} answered := by
    obtain ⟨s, hs, hp⟩ := reach_any (show (Machine.exec (step []) Any {}
      [.call (.send_msg ⟨.DONE, []⟩), .run, .complete, .call .send_close]).any (fun s => decide (s = answered)) = true by decide +kernel)
    exact of_decide_eq_true hp ▸ hs
  have h1 : step [] answered .run = some ⟨slots.drop 2, [], [], .cleared 28160⟩ := rfl
  obtain ⟨s2, h2, hp⟩ := reach_any (show (Machine.exec (step []) Any ⟨slots.drop 2, [], [], .cleared 28160⟩
    [.run, .complete, .run]).any (fun s => decide (s.pc = .closed)) = true by decide +kernel)
  have hp := of_decide_eq_true hp
  exact ⟨_, s2, h, h1, h2, hp, (send_close_waits_iff h rfl h1 h2 hp).mpr rfl⟩

/-- An answer, and CLOSE: the answer completes after the queue was cleared. -/
def late : List Act := [.call (.send_msg ⟨.DONE, []⟩), .run, .call .send_close, .run, .run, .complete, .run]

theorem close_unsent : ¬ ∀ s, Reach (step []) Any {} s → s.pc = .closed → s.ClosePolled := by
  intro h
  obtain ⟨s, hs, hp⟩ := reach_any (show (Machine.exec (step []) Any {} late).any
    (fun s => decide (s.pc = .closed) && !decide s.ClosePolled) = true by decide +kernel)
  simp only [Bool.and_eq_true, decide_eq_true_eq, Bool.not_eq_true', decide_eq_false_iff_not] at hp
  exact hp.2 (h s hs hp.1)

end RampRdma.Verbs
