/-
  RampRdma.Net.SessionProgress — a call is never held up by its connection: wherever a session
  is, the hardware and the sockets, going on by themselves, bring it to where the handler can
  send, the executor can take the request, or the handler the answer.

  - `Live`: a thread in `get_send_buf` has requests to wait for, and one that sends knows
    where to.
  - `can_go`: so a thread that is sending can go on, or a completion or a packet under way can,
    which leaves less to do (`Link.work`).
  - `call_goes_on`: so what comes next in a call is at most some steps of the connection away.
    As in `Net.Session`, no one-sided reads are on the connection.
-/

import Mathlib
import RampRdma.Net.Session

namespace RampRdma.Verbs

open Machine

variable {tr : Transport} {own : RemoteKeyAndAddr}

/-! ## A thread that sends -/

structure Live (tr : Transport) (rka : Option RemoteKeyAndAddr) (l : Link) : Prop where
  bufs : l.socket.pc.past = false → Verbs.Inv l.socket
  knows : tr = .write_imm → l.socket.pc.msgs ≠ [] → rka ≠ none
  reading : l.socket.pc ≠ .reading

theorem live_init (tr : Transport) (rka : Option RemoteKeyAndAddr) : Live tr rka (.init tr) := by
  have h : (Link.init tr).socket = {} := by cases tr <;> rfl
  refine ⟨fun _ => by rw [h]; exact inv_init, fun _ hm => ?_, by rw [h]; simp⟩
  rw [h] at hm
  exact absurd rfl hm

/-- What an `Inv` of the socket becomes. -/
theorem bufs_step {s s' : Socket} (h : s.pc.past = false → Verbs.Inv s) (hs : Step s s') (hp : s'.pc.past = false) : Verbs.Inv s' := by
  refine step_inv (h ?_) hs hp
  by_contra hn
  rw [step_past hs (by simpa using hn)] at hp
  cases hp

/-- The thread is in the call. -/
def Pc.In (c : Call) (pc : Pc) : Prop := pc = .polling c ∨ ∃ buf, pc = .holding c buf

theorem Pc.In.msgs {c : Call} {pc : Pc} (h : pc.In c) : pc.msgs = c.msgs := by
  rcases h with rfl | ⟨buf, rfl⟩ <;> rfl

theorem call_in {mark : List UInt8} {s s' : Socket} {c : Call} (h : Verbs.step mark s (.call c) = some s') : s'.pc.In c := by
  simp only [Verbs.step] at h
  split at h <;> cases h
  · exact .inl rfl
  · exact .inr ⟨_, rfl⟩

theorem Live.call {l l' : Link} {rka : Option RemoteKeyAndAddr} {c : Call} (h : Live tr rka l) (hl : l.call tr rka c = some l') :
    Live tr rka l' := by
  unfold Link.call at hl
  split at hl
  · rename_i hm
    split at hl <;> cases hl
    rename_i s hs
    have hin := call_in hs
    refine ⟨bufs_step h.bufs (step_cases hs), fun ht hne => ?_, fun hr => ?_⟩
    · rw [hin.msgs] at hne
      cases c with
      | send_msg m => exact (hm ht).2
      | send_close => exact (hm ht).2
      | send_rka => exact absurd rfl hne
      | read => exact absurd rfl hne
    · rcases hin with h1 | ⟨buf, h1⟩ <;> (rw [h1] at hr; cases hr)
  · cases hl

theorem run_reading {mark : List UInt8} {s s' : Socket} (h : Verbs.run mark s = some s') (hr : ∀ buf, s.pc ≠ .holding .read buf) :
    s'.pc ≠ .reading := by
  unfold Verbs.run at h
  split at h
  case h_4 hpc => exact absurd hpc (hr _)
  all_goals first
    | (cases h; simp [Socket.post])
    | (split at h <;> cases h; simp [Socket.post])
    | cases h

theorem run_msgs_ne {mark : List UInt8} {s s' : Socket} (h : Verbs.run mark s = some s') (hm : s'.pc.msgs ≠ []) : s.pc.msgs ≠ [] := by
  rw [run_msgs h] at hm
  split at hm
  · rename_i hpc
    rw [hpc]
    exact hm
  · rename_i hpc
    rw [hpc]
    exact hm
  · exact absurd rfl hm

theorem Live.run {l l' : Link} {rka : Option RemoteKeyAndAddr} {done cur ready flying : List Packet} (h : Live tr rka l)
    (hi : LinkInv tr own l done cur ready flying) (hl : l.run tr own rka = some l') : Live tr rka l' := by
  have hs := Link.run_socket hl
  have hr : ∀ buf, l.socket.pc ≠ .holding .read buf := fun buf hpc => (hi.hand.calls .read (.inr ⟨buf, hpc⟩)).1 rfl
  exact ⟨bufs_step h.bufs (run_cases hs), fun ht hne => h.knows ht (run_msgs_ne hs hne), run_reading hs hr⟩

theorem Live.complete {l l' : Link} {rka : Option RemoteKeyAndAddr} (h : Live tr rka l) (hl : l.complete tr = some l') :
    Live tr rka l' := by
  unfold Link.complete at hl
  split at hl
  · cases hl
  · obtain ⟨s, hs, rfl⟩ := Option.map_eq_some_iff.mp hl
    have hpc : s.pc = l.socket.pc := by
      simp only [Verbs.step] at hs
      split at hs <;> cases hs
      rfl
    refine ⟨bufs_step h.bufs (step_cases hs), fun ht hne => h.knows ht ?_, ?_⟩
    · rwa [← hpc]
    · show s.pc ≠ .reading
      rw [hpc]
      exact h.reading

theorem Live.receives {l l' : Link} {rka : Option RemoteKeyAndAddr} (h : Live tr rka l) (hr : Receives tr l l') : Live tr rka l' := by
  have hs := hr.socket
  exact ⟨by rw [hs]; exact h.bufs, by rw [hs]; exact h.knows, by rw [hs]; exact h.reading⟩

theorem Live.mono {l : Link} {rka rka' : Option RemoteKeyAndAddr} (h : Live tr rka l) (hk : rka ≠ none → rka' ≠ none) :
    Live tr rka' l :=
  ⟨h.bufs, fun ht hm => hk (h.knows ht hm), h.reading⟩

/-! ## What is left to do on a link -/

/-- The calls of a thread that are not over, by how far they are. -/
def Pc.work : Pc → Nat
  | .polling _ => PACKET_SIZE + 10
  | .holding .send_close _ => PACKET_SIZE + 9
  | .holding _ _ => PACKET_SIZE + 8
  | .cleared _ => PACKET_SIZE + 7
  | _ => 0

/-- The constructor has not begun to send. -/
def Link.Begins (tr : Transport) (l : Link) : Prop := tr = .write_imm ∧ l.rka_sent = false ∧ l.socket.pc = .idle

instance (l : Link) : Decidable (l.Begins tr) := inferInstanceAs (Decidable (_ ∧ _))

def Link.work (tr : Transport) (l : Link) : Nat :=
  l.left + 2 * l.socket.outstanding.length + l.socket.pc.work + if l.Begins tr then PACKET_SIZE + 20 else 0

theorem Link.work_lt {l l' : Link} (h : l'.left + 2 * l'.socket.outstanding.length + l'.socket.pc.work <
    l.left + 2 * l.socket.outstanding.length + l.socket.pc.work) (hb : l'.Begins tr → l.Begins tr) : l'.work tr < l.work tr := by
  unfold Link.work
  by_cases hl : l.Begins tr
  · rw [if_pos hl]
    split <;> omega
  · rw [if_neg hl, if_neg fun h => hl (hb h)]
    omega

/-- Something goes on, and leaves less to do. -/
inductive Goes (tr : Transport) (own : RemoteKeyAndAddr) (rka : Option RemoteKeyAndAddr) (l : Link) : Prop
  | run {l' : Link} : l.run tr own rka = some l' → l'.work tr < l.work tr → Goes tr own rka l
  | complete {l' : Link} : l.complete tr = some l' → l'.work tr < l.work tr → Goes tr own rka l
  | receives {l' : Link} : Receives tr l l' → (tr = .write_imm → rka ≠ none) → Goes tr own rka l

theorem LinkInv.work_receives {l l' : Link} {done cur ready flying : List Packet} (h : LinkInv tr own l done cur ready flying)
    (hr : Receives tr l l') : l'.work tr < l.work tr := by
  refine Link.work_lt ?_ fun hb => ?_
  · have := h.left_lt hr
    rw [hr.socket]
    omega
  · rw [Link.Begins, hr.socket, hr.rka_sent] at hb
    exact hb

/-- A request more is under way. -/
theorem LinkInv.left_post {l l' : Link} {done cur ready flying : List Packet} (h : LinkInv tr own l done cur ready flying)
    {wr : WorkRequest} (ho : l'.socket.outstanding = l.socket.outstanding ++ [wr]) (ha : l'.arrived = l.arrived)
    (hcq : l'.recv_cq = l.recv_cq) (hst : l'.stage = l.stage) (hl : l'.landed = l.landed) :
    l'.left = l.left + (PACKET_SIZE + 4) := by
  have hle := h.landed_le
  have harr := h.sender.arrived
  have hf : l'.flying.length = l.flying.length + 1 := by
    simp only [Link.flying, ho, ha, List.length_drop, List.length_append, List.length_singleton]
    omega
  simp only [Link.left, hf, hcq, hst, hl, Nat.mul_add, Nat.mul_one]
  omega

theorem Link.post_msg_some {l : Link} {rka : Option RemoteKeyAndAddr} {msg : Message} (hf : Fits tr.mark msg)
    (hk : tr = .write_imm → rka ≠ none) (s : Socket) (buf : Nat) : ∃ l', l.post_msg tr s buf rka msg = some l' ∧
    l'.socket = s ∧ l'.arrived = l.arrived ∧ l'.recv_cq = l.recv_cq ∧ l'.stage = l.stage ∧ l'.landed = l.landed ∧
    l'.rka_sent = l.rka_sent := by
  unfold Link.post_msg
  rw [send_msg_ok hf]
  cases tr with
  | send_recv => exact ⟨_, rfl, rfl, rfl, rfl, rfl, rfl, rfl⟩
  | write_imm =>
    obtain ⟨r, rfl⟩ := Option.ne_none_iff_exists'.mp (hk rfl)
    exact ⟨_, rfl, rfl, rfl, rfl, rfl, rfl, rfl⟩

/-- A thread that holds a buffer for a message posts it. -/
theorem LinkInv.goes_post {l : Link} {rka : Option RemoteKeyAndAddr} {done cur ready flying : List Packet}
    (h : LinkInv tr own l done cur ready flying) (msg : Message) (s : Socket) (buf : Nat) {wr : WorkRequest}
    (hrun : l.run tr own rka = l.post_msg tr s buf rka msg) (hf : Fits tr.mark msg) (hk : tr = .write_imm → rka ≠ none)
    (ho : s.outstanding = l.socket.outstanding ++ [wr]) (hw : s.pc.work + (PACKET_SIZE + 7) ≤ l.socket.pc.work)
    (hsent : tr = .write_imm → l.rka_sent = true) : Goes tr own rka l := by
  obtain ⟨l', hl, rfl, ha, hcq, hst, hland, hrka⟩ := Link.post_msg_some (l := l) hf hk s buf
  refine .run (hrun.trans hl) (Link.work_lt ?_ fun hb => ?_)
  · rw [h.left_post ho ha hcq hst hland, ho, List.length_append, List.length_singleton]
    omega
  · have h0 := hb.2.1
    rw [hrka, hsent hb.1] at h0
    cases h0

theorem fits_close (tr : Transport) : Fits tr.mark ⟨.CLOSE, []⟩ := by cases tr <;> decide

/-- A thread that is sending goes on, unless its message is too long for a packet. -/
theorem LinkInv.can_go {l : Link} {rka : Option RemoteKeyAndAddr} {done cur ready flying : List Packet}
    (h : LinkInv tr own l done cur ready flying) (hl : Live tr rka l) (hw : 0 < l.socket.pc.work)
    (hf : ∀ m ∈ l.socket.pc.msgs, Fits tr.mark m) : Goes tr own rka l := by
  rcases hpc : l.socket.pc with _ | c | ⟨c, buf⟩ | _ | buf | _ | _
  case polling =>
    have hinv := hl.bufs (by rw [hpc]; rfl)
    rcases hcq : l.socket.send_cq with _ | ⟨wr, wcs⟩
    · -- nothing has completed, so everything is outstanding
      have hlen := hinv.length
      rw [hcq, hinv.polling c hpc, hpc] at hlen
      simp only [List.length_nil, Pc.held] at hlen
      rcases harr : l.arrived with _ | n
      · have hfly : flying ≠ [] := by
          intro h0
          have := h.flying_length
          rw [h0, Link.flying, harr, List.drop_zero, List.length_nil] at this
          omega
        obtain ⟨l', hr⟩ := h.can_move fun h0 => hfly (by simpa using (List.append_eq_nil_iff.mp (List.append_eq_nil_iff.mp h0).2).2)
        refine .receives hr fun ht => ?_
        obtain ⟨-, h2, h3⟩ := h.hand.calls c (.inl hpc)
        by_cases hc : c = .send_rka
        · obtain ⟨⟨h0, -⟩ | ⟨-, h1⟩, -⟩ := h.hand.write_imm ht
          · have hsent := h.sent
            rw [h0] at hsent
            simp only [List.nil_eq, List.append_eq_nil_iff] at hsent
            exact absurd hsent.2.2.2 hfly
          · rw [(h2 hc).2] at h1
            cases h1
        · refine hl.knows ht ?_
          rw [hpc]
          cases c with
          | send_rka => exact absurd rfl hc
          | read => exact absurd rfl (h.hand.calls .read (.inl hpc)).1
          | send_msg m => simp [Pc.msgs, Call.msgs]
          | send_close => simp [Pc.msgs, Call.msgs]
      · obtain ⟨wr, rest, ho⟩ := List.exists_cons_of_length_pos (l := l.socket.outstanding) (by omega)
        have hcomp : l.complete tr = some { l with
            socket := { l.socket with send_cq := l.socket.send_cq ++ [wr], outstanding := rest }, arrived := n } := by
          simp only [Link.complete, harr, Verbs.step, ho, Option.map_some]
        refine .complete hcomp (Link.work_lt ?_ id)
        have hfl : l.flying = rest.drop n := by simp only [Link.flying, ho, harr, List.drop_succ_cons]
        simp only [Link.left, hfl]
        rw [ho, List.length_cons]
        show (PACKET_SIZE + 4) * (rest.drop n).length + 3 * l.recv_cq.length + l.stage.left - l.landed + 2 * rest.length + _ < _
        omega
    · have hrun : ∃ l', l.run tr own rka = some l' ∧ l'.socket.pc = .holding c wr.wr_id ∧ l'.left = l.left ∧
          l'.socket.outstanding = l.socket.outstanding := by
        unfold Link.run Verbs.run
        simp only [hpc, hcq, PACKET_WINDOW_SIZE, List.take_succ_cons]
        exact ⟨_, rfl, rfl, rfl, rfl⟩
      obtain ⟨l', hl', h1, h2, h3⟩ := hrun
      refine .run hl' (Link.work_lt ?_ fun hb => absurd (h1.symm.trans hb.2.2) (by simp))
      have hwork : (Pc.holding c wr.wr_id).work < (Pc.polling c).work := by cases c <;> simp [Pc.work]
      rw [h1, h2, h3, hpc]
      omega
  case holding =>
    cases c with
    | send_msg msg =>
      have hfit := hf msg (by rw [hpc]; exact List.mem_singleton_self msg)
      refine h.goes_post msg (l.socket.post { wr_id := buf } .idle) buf ?_ hfit
        (fun ht => hl.knows ht (by rw [hpc]; simp [Pc.msgs, Call.msgs])) rfl (by rw [hpc]; simp [Socket.post, Pc.work])
        ((h.hand.calls _ (.inr ⟨buf, hpc⟩)).2.2 (by simp))
      simp only [Link.run, Verbs.run, hpc, send_msg_ok hfit]
    | send_rka =>
      have hrun : ∃ l', l.run tr own rka = some l' ∧ l'.socket = l.socket.post { wr_id := buf } .idle ∧ l'.arrived = l.arrived ∧
          l'.recv_cq = l.recv_cq ∧ l'.stage = l.stage ∧ l'.landed = l.landed ∧ l'.rka_sent = true := by
        simp only [Link.run, Verbs.run, hpc]
        exact ⟨_, rfl, rfl, rfl, rfl, rfl, rfl, rfl⟩
      obtain ⟨l', hl', hs, h1, h2, h3, h4, h5⟩ := hrun
      refine .run hl' (Link.work_lt ?_ fun hb => absurd (h5.symm.trans hb.2.1) (by simp))
      have ho : l'.socket.outstanding = l.socket.outstanding ++ [{ wr_id := buf }] := by rw [hs]; rfl
      have hpc' : l'.socket.pc = .idle := by rw [hs]; rfl
      simp only [h.left_post ho h1 h2 h3 h4, ho, hpc, hpc', Pc.work, List.length_append, List.length_singleton]
      omega
    | read => exact absurd rfl (h.hand.calls .read (.inr ⟨buf, hpc⟩)).1
    | send_close =>
      have hrun : ∃ l', l.run tr own rka = some l' ∧ l'.socket.pc = .cleared buf ∧ l'.left = l.left ∧
          l'.socket.outstanding = l.socket.outstanding := by
        simp only [Link.run, Verbs.run, hpc]
        exact ⟨_, rfl, rfl, rfl, rfl⟩
      obtain ⟨l', hl', h1, h2, h3⟩ := hrun
      refine .run hl' (Link.work_lt ?_ fun hb => absurd (h1.symm.trans hb.2.2) (by simp))
      simp only [h1, h2, h3, hpc, Pc.work]
      omega
  case cleared =>
    refine h.goes_post ⟨.CLOSE, []⟩ (l.socket.post { wr_id := buf, close := true } .closing) buf ?_
      (fits_close tr) (fun ht => hl.knows ht (by rw [hpc]; simp [Pc.msgs])) rfl (by rw [hpc]; simp [Socket.post, Pc.work])
      (h.hand.cleared buf hpc)
    simp only [Link.run, Verbs.run, hpc, send_msg_ok (fits_close tr)]
  all_goals
    rw [hpc] at hw
    cases hw

/-! ## Both links -/

/-- In `send_close`. -/
def Pc.closes : Pc → Bool
  | .polling .send_close | .holding .send_close _ | .cleared _ | .closing | .closed => true
  | _ => false

theorem run_closes {mark : List UInt8} {s s' : Socket} (h : Verbs.run mark s = some s') (hc : s'.pc.closes = true) :
    s.pc.closes = true := by
  unfold Verbs.run at h
  split at h
  · rename_i c hpc
    split at h <;> cases h
    rw [hpc]
    cases c <;> first | rfl | cases hc
  · split at h <;> cases h
    cases hc
  · cases h
    cases hc
  · cases h
    cases hc
  · cases h
    cases hc
  · rename_i hpc
    rw [hpc]
    rfl
  · rename_i hpc
    rw [hpc]
    rfl
  · rename_i hpc
    rw [hpc]
    rfl
  · cases h
  · cases h

/-- A thread that sends no message is in no call, or in the constructor's. -/
theorem idle_or {pc : Pc} (hm : pc.msgs = []) (hr : pc ≠ .reading) (hc : pc.closes = false) (hread : ¬ pc.In .read) :
    pc = .idle ∨ pc.In .send_rka := by
  rcases pc with _ | c | ⟨c, buf⟩ | _ | buf | _ | _
  case idle => exact .inl rfl
  case reading => exact absurd rfl hr
  case cleared => cases hc
  case closing => cases hc
  case closed => cases hc
  all_goals
    cases c with
    | send_msg m => cases hm
    | send_close => cases hc
    | send_rka => first | exact .inr (.inl rfl) | exact .inr (.inr ⟨_, rfl⟩)
    | read => first | exact absurd (.inl rfl) hread | exact absurd (.inr ⟨_, rfl⟩) hread

namespace Connection

open RDMAWriteSocket (Side)

variable {rkeys : Side → UInt32} {s s' : State}

abbrev Lively (tr : Transport) (s : State) : Prop := ∀ d, Live tr (s.rka d) (s.link d)

theorem lively_init (tr : Transport) : Lively tr (.init tr) := by
  intro d
  cases d <;> exact live_init tr _

theorem lively_set (hl : Lively tr s) {d : Side} {l : Link} (hd : Live tr (s.rka d) l)
    (hk : (s.link d).learned ≠ none → l.learned ≠ none) : Lively tr (s.set d l) := by
  intro d'
  by_cases e : d' = d
  · subst e
    rw [link_set_self]
    refine hd.mono fun h => ?_
    rwa [State.rka, link_set_ne s l (other_ne d')]
  · have ho : other d' = d := by cases d <;> cases d' <;> first | rfl | exact absurd rfl e
    rw [link_set_ne s l e]
    refine (hl d').mono fun h => ?_
    rw [State.rka, ho] at h
    rw [State.rka, ho, link_set_self]
    exact hk h

theorem step_lively (hi : Inv tr rkeys s) (hl : Lively tr s) {a : Act} (h : step tr rkeys s a = some s') : Lively tr s' := by
  have hrecv : ∀ {d : Side} {l : Link}, Receives tr (s.link d) l → Lively tr (s.set d l) := fun hr =>
    lively_set hl ((hl _).receives hr) hr.kept.2.2
  cases a with
  | call d c =>
    obtain ⟨l, hc, rfl⟩ := Option.map_eq_some_iff.mp h
    exact lively_set hl ((hl d).call hc) (by rw [(Link.call_eq hc).2.2]; exact id)
  | run d =>
    obtain ⟨l, hc, rfl⟩ := Option.map_eq_some_iff.mp h
    obtain ⟨done, cur, ready, flying, hd⟩ := hi.link d
    exact lively_set hl ((hl d).run hd hc) (by rw [(Link.run_eq hc).2.1]; exact id)
  | complete d =>
    obtain ⟨l, hc, rfl⟩ := Option.map_eq_some_iff.mp h
    exact lively_set hl ((hl d).complete hc) (by rw [(Link.complete_eq hc).2.2]; exact id)
  | land d k =>
    obtain ⟨l, hc, rfl⟩ := Option.map_eq_some_iff.mp h
    exact hrecv (.land hc)
  | notify d =>
    obtain ⟨l, hc, rfl⟩ := Option.map_eq_some_iff.mp h
    exact hrecv (.notify hc)
  | recv_rka d =>
    simp only [step] at h
    split at h
    · obtain ⟨l, hc, rfl⟩ := Option.map_eq_some_iff.mp h
      exact hrecv (.recv_rka hc)
    · cases h
  | recv_header d =>
    obtain ⟨l, hc, rfl⟩ := Option.map_eq_some_iff.mp h
    exact hrecv (.recv_header hc)
  | get_body d =>
    obtain ⟨l, hc, rfl⟩ := Option.map_eq_some_iff.mp h
    exact hrecv (.get_body hc)
  | clear_msg_buf d =>
    obtain ⟨l, hc, rfl⟩ := Option.map_eq_some_iff.mp h
    exact hrecv (.clear_msg_buf hc)

/-- Only `send_close` leads there. -/
theorem step_closes {a : Act} (h : step tr rkeys s a = some s') {d : Side} (hc : (s'.link d).socket.pc.closes = true) :
    a = .call d .send_close ∨ (s.link d).socket.pc.closes = true := by
  have hset : ∀ {d' : Side} {l : Link}, s' = s.set d' l → (l.socket.pc.closes = true → a = .call d' .send_close ∨
      (s.link d').socket.pc.closes = true) → a = .call d .send_close ∨ (s.link d).socket.pc.closes = true := by
    rintro d' l rfl hl
    by_cases e : d = d'
    · subst e
      rw [link_set_self] at hc
      exact hl hc
    · rw [link_set_ne s l e] at hc
      exact .inr hc
  have hrecv : ∀ {d' : Side} {l : Link}, Receives tr (s.link d') l → s' = s.set d' l →
      a = .call d .send_close ∨ (s.link d).socket.pc.closes = true := fun hr he =>
    hset he fun h => .inr (by rwa [← hr.socket])
  cases a with
  | call d' c =>
    obtain ⟨l, hl, rfl⟩ := Option.map_eq_some_iff.mp h
    refine hset rfl fun h => .inl ?_
    have hin : l.socket.pc.In c := by
      unfold Link.call at hl
      split at hl
      · split at hl <;> cases hl
        exact call_in ‹_›
      · cases hl
    rcases hin with h1 | ⟨buf, h1⟩ <;> (rw [h1] at h; cases c <;> first | rfl | cases h)
  | run d' =>
    obtain ⟨l, hl, rfl⟩ := Option.map_eq_some_iff.mp h
    exact hset rfl fun h => .inr (run_closes (Link.run_socket hl) h)
  | complete d' =>
    obtain ⟨l, hl, rfl⟩ := Option.map_eq_some_iff.mp h
    refine hset rfl fun h => .inr ?_
    unfold Link.complete at hl
    split at hl
    · cases hl
    · obtain ⟨sock, hs, rfl⟩ := Option.map_eq_some_iff.mp hl
      simp only [Verbs.step] at hs
      split at hs <;> cases hs
      exact h
  | land d' k =>
    obtain ⟨l, hl, rfl⟩ := Option.map_eq_some_iff.mp h
    exact hrecv (.land hl) rfl
  | notify d' =>
    obtain ⟨l, hl, rfl⟩ := Option.map_eq_some_iff.mp h
    exact hrecv (.notify hl) rfl
  | recv_rka d' =>
    simp only [step] at h
    split at h
    · obtain ⟨l, hl, rfl⟩ := Option.map_eq_some_iff.mp h
      exact hrecv (.recv_rka hl) rfl
    · cases h
  | recv_header d' =>
    obtain ⟨l, hl, rfl⟩ := Option.map_eq_some_iff.mp h
    exact hrecv (.recv_header hl) rfl
  | get_body d' =>
    obtain ⟨l, hl, rfl⟩ := Option.map_eq_some_iff.mp h
    exact hrecv (.get_body hl) rfl
  | clear_msg_buf d' =>
    obtain ⟨l, hl, rfl⟩ := Option.map_eq_some_iff.mp h
    exact hrecv (.clear_msg_buf hl) rfl

/-- What is left to do on both links. -/
def work (tr : Transport) (s : State) : Nat := s.server.work tr + s.client.work tr

theorem work_set {d : Side} {l : Link} (h : l.work tr < (s.link d).work tr) : work tr (s.set d l) < work tr s := by
  cases d with
  | server => exact Nat.add_lt_add_right h _
  | client => exact Nat.add_lt_add_left h _

/-- A step of the hardware or the sockets, not of a thread that calls, which leaves less to do. -/
def Moves (tr : Transport) (rkeys : Side → UInt32) (s : State) : Prop :=
  ∃ a s', (∀ d c, a = Act.call d c → c = .send_rka) ∧ step tr rkeys s a = some s' ∧ work tr s' < work tr s

theorem goes_moves (hi : Inv tr rkeys s) {d : Side} (hg : Goes tr (Verbs.own rkeys d) (s.rka d) (s.link d)) : Moves tr rkeys s := by
  cases hg with
  | @run l hl hw => exact ⟨.run d, s.set d l, by simp, by rw [step, hl, Option.map_some], work_set hw⟩
  | @complete l hl hw => exact ⟨.complete d, s.set d l, by simp, by rw [step, hl, Option.map_some], work_set hw⟩
  | @receives l hr hk =>
    obtain ⟨done, cur, ready, flying, h⟩ := hi.link d
    obtain ⟨a, ha, hs⟩ := receives_step hi (fun ht => known_sent hi ht (hk ht)) hr
    refine ⟨a, s.set d l, ?_, hs, work_set (h.work_receives hr)⟩
    rintro d' c rfl
    cases ha

/-- What is queued on a link is received, or the link goes on. -/
theorem queued_moves (hi : Inv tr rkeys s) (hl : Lively tr s) (d : Side) (hf : ∀ m ∈ (s.link d).socket.pc.msgs, Fits tr.mark m)
    (hlt : (s.link d).received.length < (s.link d).queued.length) : Moves tr rkeys s := by
  obtain ⟨done, cur, ready, flying, h⟩ := hi.link d
  by_cases hw : 0 < (s.link d).socket.pc.work
  · exact goes_moves hi (h.can_go (hl d) hw hf)
  · have hm : (s.link d).socket.pc.msgs = [] := by
      rcases hpc : (s.link d).socket.pc with _ | c | ⟨c, buf⟩ | _ | buf | _ | _
      case polling =>
        rw [hpc] at hw
        simp [Pc.work] at hw
      case holding =>
        rw [hpc] at hw
        cases c <;> simp [Pc.work] at hw
      case cleared =>
        rw [hpc] at hw
        simp [Pc.work] at hw
      all_goals rfl
    have hlen := (received_length hi d).2
    rw [hm, List.length_nil, Nat.add_zero] at hlen
    have hlt : (s.link d).received.length < (msgs (s.link d).sent).length := by omega
    obtain ⟨l, hr⟩ := h.can_receive hlt
    exact goes_moves hi (.receives hr fun ht => hi.knows d ht (List.ne_nil_of_length_pos (by omega)))

end Connection

end RampRdma.Verbs

namespace RampRdma.Session

open Machine Calls
open RDMAWriteSocket (Side)
open Verbs (Transport)
open Verbs.Connection (Lively Moves)

variable {Req Ans Vars : Type} {M : Mode Req Ans Vars} {tr : Transport} {rkeys : Side → UInt32}
variable {s s' : State Req Ans} {p : Phase Req Ans}

/-! ## A session -/

structure Live (tr : Transport) (s : State Req Ans) : Prop where
  lively : Lively tr s.net
  closes : ∀ d, (s.net.link d).socket.pc.closes = true → d = .server ∧ s.caller = .closed

theorem live_init (tr : Transport) : Live tr (.init tr : State Req Ans) := by
  refine ⟨Verbs.Connection.lively_init tr, fun d h => ?_⟩
  cases d <;> cases tr <;> cases h

theorem live_conn (hi : Inv M tr rkeys s p) (hl : Live tr s) {a : Verbs.Connection.Act} {net : Verbs.State}
    (h : Verbs.Connection.step tr rkeys s.net a = some net) (ha : ∀ d, a ≠ .call d .send_close) :
    Lively tr net ∧ ∀ d, (net.link d).socket.pc.closes = true → d = .server ∧ s.caller = .closed := by
  refine ⟨Verbs.Connection.step_lively hi.conn hl.lively h, fun d hc => ?_⟩
  rcases Verbs.Connection.step_closes h hc with e | hc
  · exact absurd e (ha d)
  · exact hl.closes d hc

theorem step_live (hi : Inv M tr rkeys s p) (hl : Live tr s) {a : Act Req Ans Vars} (h : step M tr rkeys s a = some s') : Live tr s' := by
  cases a with
  | ask r =>
    simp only [step] at h
    split at h
    · rename_i hc
      split at h
      · obtain ⟨net, hn, rfl⟩ := Option.map_eq_some_iff.mp h
        obtain ⟨h1, h2⟩ := live_conn hi hl hn (by simp)
        refine ⟨h1, fun d hd => ?_⟩
        have := (h2 d hd).2
        rw [hc] at this
        cases this
      · cases h
    · cases h
  | close =>
    simp only [step] at h
    split at h
    · rename_i hc
      obtain ⟨net, hn, rfl⟩ := Option.map_eq_some_iff.mp h
      refine ⟨Verbs.Connection.step_lively hi.conn hl.lively hn, fun d hd => ?_⟩
      rcases Verbs.Connection.step_closes hn hd with e | hd
      · cases e
        exact ⟨rfl, rfl⟩
      · have := (hl.closes d hd).2
        rw [hc] at this
        cases this
    · cases h
  | take =>
    simp only [step] at h
    split at h <;> cases h
    exact ⟨hl.lively, hl.closes⟩
  | answer a =>
    simp only [step] at h
    split at h
    · split at h
      · obtain ⟨net, hn, rfl⟩ := Option.map_eq_some_iff.mp h
        obtain ⟨h1, h2⟩ := live_conn hi hl hn (by simp)
        exact ⟨h1, h2⟩
      · cases h
    · cases h
  | result vars =>
    simp only [step] at h
    split at h
    · rename_i hc _
      cases h
      refine ⟨hl.lively, fun d hd => ?_⟩
      have := (hl.closes d hd).2
      rw [hc] at this
      cases this
    · cases h
  | net a =>
    simp only [step] at h
    split at h
    · rename_i hc
      obtain ⟨net, hn, rfl⟩ := Option.map_eq_some_iff.mp h
      obtain ⟨h1, h2⟩ := live_conn hi hl hn (by rintro d rfl; cases hc)
      exact ⟨h1, h2⟩
    · cases h

theorem live (h : Reach (step M tr rkeys) Any (.init tr) s) : (∃ p, Inv M tr rkeys s p) ∧ Live tr s :=
  h.inv (fun s => (∃ p, Inv M tr rkeys s p) ∧ Live tr s) ⟨⟨_, inv_init M tr rkeys⟩, live_init tr⟩
    fun _ _ _ ⟨⟨_, hi⟩, hl⟩ _ hs => ⟨step_inv hi hs, step_live hi hl hs⟩

/-! ## Until the next event of the call -/

/-- Only the connection takes steps. -/
def Waits (M : Mode Req Ans Vars) (tr : Transport) (rkeys : Side → UInt32) (s s' : State Req Ans) : Prop :=
  Reach (step M tr rkeys) (fun _ a => ∃ b, a = .net b) s s'

theorem waits_until (Goal : Verbs.State → Prop)
    (hgo : ∀ s, Inv M tr rkeys s p → Live tr s → ¬ Goal s.net → Moves tr rkeys s.net) (hi : Inv M tr rkeys s p) (hl : Live tr s) :
    ∃ net, Waits M tr rkeys s { s with net := net } ∧ Inv M tr rkeys { s with net := net } p ∧
      Live tr { s with net := net } ∧ Goal net := by
  induction hn : Verbs.Connection.work tr s.net using Nat.strong_induction_on generalizing s with
  | _ n ih =>
    subst hn
    by_cases hg : Goal s.net
    · exact ⟨s.net, .refl, hi, hl, hg⟩
    · obtain ⟨a, net, ha, hs, hlt⟩ := hgo s hi hl hg
      have hc : Constructs a = true := by
        cases a with
        | call d c =>
          rw [ha d c rfl]
          rfl
        | _ => rfl
      have hstep : step M tr rkeys s (.net a : Act Req Ans Vars) = some { s with net := net } := by
        simp only [step, hc, if_true, hs, Option.map_some]
      obtain ⟨net', hw, hi', hl', hg'⟩ := ih (Verbs.Connection.work tr net) hlt (net_inv hi hstep) (step_live hi hl hstep) rfl
      have hone : Waits M tr rkeys s { s with net := net } := .tail .refl ⟨a, rfl⟩ hstep
      exact ⟨net', hone.trans hw, hi', hl', hg'⟩

/-- The message a handler is sending is that of the phase. -/
theorem pending_request (hi : Inv M tr rkeys s p) : ∀ m ∈ s.net.server.socket.pc.msgs, m ∈ p.requests M := by
  intro m hm
  obtain ⟨h1, h2⟩ := Verbs.Connection.received_length hi.conn .server
  have hq := hi.requests
  have ht := hi.taken
  simp only [Verbs.State.link] at h1 h2
  have hdrop : p.requests M = s.net.server.queued.drop s.results.length := by
    rw [hq, List.drop_left' (List.length_map ..)]
  rw [hdrop, Verbs.Link.queued, List.drop_append_of_le_length (by omega)]
  exact List.mem_append_right _ hm

theorem pending_answer (hi : Inv M tr rkeys s p) : ∀ m ∈ s.net.client.socket.pc.msgs, m ∈ p.answers M := by
  intro m hm
  obtain ⟨h1, h2⟩ := Verbs.Connection.received_length hi.conn .client
  have hq := hi.answers
  have hg := hi.got
  simp only [Verbs.State.link] at h1 h2
  have hdrop : p.answers M = s.net.client.queued.drop s.results.length := by
    rw [hq, List.drop_left' (List.length_map ..)]
  rw [hdrop, Verbs.Link.queued, List.drop_append_of_le_length (by omega)]
  exact List.mem_append_right _ hm

/-- The request of the phase reaches the executor. -/
theorem request_arrives (hi : Inv M tr rkeys s p) (hl : Live tr s) (hf : ∀ m ∈ p.requests M, Fits tr.mark m) :
    ∃ net, Waits M tr rkeys s { s with net := net } ∧ Inv M tr rkeys { s with net := net } p ∧
      net.server.received.length = net.server.queued.length := by
  obtain ⟨net, h1, h2, -, h4⟩ := waits_until (fun net => net.server.received.length = net.server.queued.length)
    (fun s hi hl hg => Verbs.Connection.queued_moves hi.conn hl.lively .server (fun m hm => hf m (pending_request hi m hm)) (by
      obtain ⟨h1, h2⟩ := Verbs.Connection.received_length hi.conn .server
      simp only [Verbs.State.link] at h1 h2 ⊢
      omega)) hi hl
  exact ⟨net, h1, h2, h4⟩

theorem answer_arrives (hi : Inv M tr rkeys s p) (hl : Live tr s) (hf : ∀ m ∈ p.answers M, Fits tr.mark m) :
    ∃ net, Waits M tr rkeys s { s with net := net } ∧ Inv M tr rkeys { s with net := net } p ∧
      net.client.received.length = net.client.queued.length := by
  obtain ⟨net, h1, h2, -, h4⟩ := waits_until (fun net => net.client.received.length = net.client.queued.length)
    (fun s hi hl hg => Verbs.Connection.queued_moves hi.conn hl.lively .client (fun m hm => hf m (pending_answer hi m hm)) (by
      obtain ⟨h1, h2⟩ := Verbs.Connection.received_length hi.conn .client
      simp only [Verbs.State.link] at h1 h2 ⊢
      omega)) hi hl
  exact ⟨net, h1, h2, h4⟩

/-! ## Both threads can send -/

/-- A thread that sends nothing and has been through the constructor can call. -/
theorem can_call (net : Verbs.State) (d : Side) (hpc : (net.link d).socket.pc = .idle)
    (hk : tr = .write_imm → (net.link d).rka_sent = true ∧ net.rka d ≠ none) (m : Message) :
    ∃ net', Verbs.Connection.step tr rkeys net (.call d (.send_msg m)) = some net' := by
  have hm : (net.link d).MayCall tr (net.rka d) (.send_msg m) := hk
  simp only [Verbs.Connection.step, Verbs.Link.call, if_pos hm, Verbs.step, hpc]
  rcases (net.link d).socket.send_bufs with _ | ⟨buf, bufs⟩ <;> exact ⟨_, rfl⟩

/-- The constructor's message is posted, or can go on. -/
theorem begins_moves {net : Verbs.State} {d : Side} (hb : (net.link d).Begins tr) : Moves tr rkeys net := by
  obtain ⟨ht, hr, hpc⟩ := hb
  have hm : (net.link d).MayCall tr (net.rka d) .send_rka := ⟨ht, hr⟩
  have hcall : ∃ l, (net.link d).call tr (net.rka d) .send_rka = some l ∧ l.left = (net.link d).left ∧
      l.socket.outstanding = (net.link d).socket.outstanding ∧ l.socket.pc.In .send_rka := by
    simp only [Verbs.Link.call, if_pos hm, Verbs.step, hpc]
    rcases (net.link d).socket.send_bufs with _ | ⟨buf, bufs⟩
    · exact ⟨_, rfl, rfl, rfl, .inl rfl⟩
    · exact ⟨_, rfl, rfl, rfl, .inr ⟨buf, rfl⟩⟩
  obtain ⟨l, hl, h1, h2, h3⟩ := hcall
  refine ⟨.call d .send_rka, net.set d l, by rintro _ _ ⟨⟩; rfl, by rw [Verbs.Connection.step, hl, Option.map_some], ?_⟩
  refine Verbs.Connection.work_set ?_
  have hnb : ¬ l.Begins tr := fun h => by
    rcases h3 with h3 | ⟨buf, h3⟩ <;> cases h3.symm.trans h.2.2
  have hw : l.socket.pc.work ≤ PACKET_SIZE + 10 := by
    rcases h3 with h3 | ⟨buf, h3⟩ <;> (rw [h3]; simp [Verbs.Pc.work])
  unfold Verbs.Link.work
  rw [if_neg hnb, if_pos ⟨ht, hr, hpc⟩, h1, h2, hpc]
  simp only [Verbs.Pc.work] at hw ⊢
  omega

theorem thread_idle (hi : Inv M tr rkeys s p) (hl : Live tr s) {d : Side} (hm : (s.net.link d).socket.pc.msgs = [])
    (hc : d = .client ∨ s.caller ≠ .closed) : (s.net.link d).socket.pc = .idle ∨ (s.net.link d).socket.pc.In .send_rka := by
  obtain ⟨done, cur, ready, flying, h⟩ := hi.conn.link d
  refine Verbs.idle_or hm (hl.lively d).reading ?_ fun hin => (h.hand.calls .read hin).1 rfl
  by_contra hcl
  obtain ⟨rfl, h0⟩ := hl.closes d (by simpa using hcl)
  rcases hc with hc | hc
  · cases hc
  · exact hc h0

theorem in_rka_moves (hi : Inv M tr rkeys s p) (hl : Live tr s) {d : Side} (h : (s.net.link d).socket.pc.In .send_rka) :
    Moves tr rkeys s.net := by
  obtain ⟨done, cur, ready, flying, hd⟩ := hi.conn.link d
  refine Verbs.Connection.goes_moves hi.conn (hd.can_go (hl.lively d) ?_ ?_)
  · rcases h with h | ⟨buf, h⟩ <;> (rw [h]; exact Nat.succ_pos _)
  · rw [h.msgs]
    intro m hm
    cases hm

/-- The handler's thread is through the constructor, and has the address of the server's `write_buf`. -/
def MaySend (tr : Transport) (net : Verbs.State) : Prop :=
  net.server.socket.pc = .idle ∧ (tr = .write_imm → net.server.rka_sent = true ∧ net.rka .server ≠ none)

/-- Until then the constructors go on. -/
theorem quiet_moves (hi : Inv M tr rkeys s .quiet) (hl : Live tr s) (hg : ¬ MaySend tr s.net) : Moves tr rkeys s.net := by
  have hms : s.net.server.socket.pc.msgs = [] := List.eq_nil_iff_forall_not_mem.mpr fun m hm => nomatch pending_request hi m hm
  have hmc : s.net.client.socket.pc.msgs = [] := List.eq_nil_iff_forall_not_mem.mpr fun m hm => nomatch pending_answer hi m hm
  have hc : s.caller ≠ .closed := by
    rw [hi.caller]
    intro h
    cases h
  rcases thread_idle (d := .server) hi hl hms (.inr hc) with hs | hs
  case inr => exact in_rka_moves hi hl hs
  have ht : tr = .write_imm := by
    by_contra ht
    exact hg ⟨hs, fun h => absurd h ht⟩
  rcases hrs : s.net.server.rka_sent with _ | _
  · exact begins_moves (d := .server) ⟨ht, hrs, hs⟩
  rcases thread_idle (d := .client) hi hl hmc (.inl rfl) with hcl | hcl
  case inr => exact in_rka_moves hi hl hcl
  rcases hrc : s.net.client.rka_sent with _ | _
  · exact begins_moves (d := .client) ⟨ht, hrc, hcl⟩
  -- the server's address is on its way
  obtain ⟨done, cur, ready, flying, h⟩ := hi.conn.link .client
  obtain ⟨⟨-, h0⟩ | ⟨⟨ms, hsent⟩, -⟩, ⟨-, hdone, -⟩ | ⟨-, -, hk⟩⟩ := h.hand.write_imm ht
  · exact absurd (hrc.symm.trans h0) (by simp)
  · exact absurd (hrc.symm.trans h0) (by simp)
  · have hne : cur ++ (ready ++ flying) ≠ [] := by
      intro he
      have hs := h.sent
      rw [hdone, he, hsent] at hs
      cases hs
    obtain ⟨l, hr⟩ := h.can_move hne
    obtain ⟨a, ha, hs⟩ := Verbs.Connection.receives_step (d := .client) hi.conn (fun _ => hrs) hr
    refine ⟨a, _, ?_, hs, Verbs.Connection.work_set (h.work_receives hr)⟩
    rintro d' c rfl
    cases ha
  · refine absurd ⟨hs, fun _ => ⟨hrs, ?_⟩⟩ hg
    show s.net.client.learned ≠ none
    rw [show s.net.client.learned = _ from hk]
    simp

/-- An executor that has taken a request can answer. -/
theorem can_answer (hi : Inv M tr rkeys s p) (hl : Live tr s) {r : Req} (he : s.executor = .serving r) {a : Ans}
    (ha : M.answers r a = true) :
    ∃ s', step M tr rkeys s (.answer a : Act Req Ans Vars) = some s' := by
  have hp := hi.executor
  rw [he] at hp
  obtain rfl : p = .serving r := by
    cases p <;> cases hp
    rfl
  have hmc : s.net.client.socket.pc.msgs = [] := List.eq_nil_iff_forall_not_mem.mpr fun m hm => nomatch pending_answer hi m hm
  have htaken := hi.taken
  have hrec := (Verbs.Connection.received_length hi.conn .server).1
  have hpos : 0 < s.net.server.received.length := by
    have : (Phase.serving r : Phase Req Ans).taken = 1 := rfl
    omega
  have hk : tr = .write_imm → s.net.client.rka_sent = true ∧ s.net.rka .client ≠ none := by
    intro ht
    have hknow : s.net.rka .server ≠ none := hi.conn.knows .server ht (List.ne_nil_of_length_pos (lt_of_lt_of_le hpos hrec))
    refine ⟨Verbs.Connection.known_sent hi.conn ht hknow, ?_⟩
    obtain ⟨done, cur, ready, flying, h⟩ := hi.conn.link .server
    obtain ⟨-, ⟨-, h0, -⟩ | ⟨-, -, h1⟩⟩ := h.hand.write_imm ht
    · have hr := congrArg List.length h.received
      rw [h0] at hr
      exact absurd (show s.net.server.received.length = 0 from hr) (by omega)
    · show s.net.server.learned ≠ none
      rw [show s.net.server.learned = _ from h1]
      simp
  have hidle : s.net.client.socket.pc = .idle := by
    rcases thread_idle (d := .client) hi hl hmc (.inl rfl) with h | h
    · exact h
    · obtain ⟨done, cur, ready, flying, hd⟩ := hi.conn.link .client
      obtain ⟨ht, h0⟩ := (hd.hand.calls .send_rka h).2.1 rfl
      exact absurd ((hk ht).1.symm.trans h0) (by simp)
  obtain ⟨net, hn⟩ : ∃ net, Verbs.Connection.step tr rkeys s.net (.call .client (.send_msg (M.answer a))) = some net :=
    can_call s.net .client hidle hk _
  simp only [step, he, ha, if_true, hn, Option.map_some]
  exact ⟨_, rfl⟩

theorem can_ask (hi : Inv M tr rkeys s .quiet) (hl : Live tr s) {r : Req} (hr : M.sends r = true) :
    ∃ s1 s2, Waits M tr rkeys s s1 ∧ step M tr rkeys s1 (.ask r) = some s2 := by
  obtain ⟨net, hw, -, -, hg⟩ := waits_until (MaySend tr) (fun s hi hl hg => quiet_moves hi hl hg) hi hl
  obtain ⟨net', hn⟩ : ∃ net', Verbs.Connection.step tr rkeys net (.call .server (.send_msg (M.request r))) = some net' :=
    can_call net .server hg.1 hg.2 _
  have hc : s.caller = .ready := hi.caller
  refine ⟨_, { s with net := net', caller := .waiting r }, hw, ?_⟩
  simp only [step, hc, hr, if_true, hn, Option.map_some]

/-- A request, or CLOSE, that is not taken is. -/
theorem can_take (hi : Inv M tr rkeys s p) (hl : Live tr s) (he : s.executor = .loop) (hp : p.taken < (p.requests M).length)
    (hf : ∀ m ∈ p.requests M, Fits tr.mark m) :
    ∃ s1 s2, Waits M tr rkeys s s1 ∧ Inv M tr rkeys s1 p ∧ step M tr rkeys s1 .take = some s2 := by
  obtain ⟨net, hw, hi', hrec⟩ := request_arrives hi hl hf
  have hlt : s.taken < net.server.received.length := by
    have ht := hi'.taken.1
    rw [hrec, hi'.requests, List.length_append, List.length_map]
    simp only at ht ⊢
    omega
  have hs : ∃ s2, step M tr rkeys { s with net := net } (.take : Act Req Ans Vars) = some s2 := by
    rcases hx : net.server.received[s.taken]? with _ | ⟨header, body⟩
    · rw [List.getElem?_eq_none_iff] at hx
      omega
    · simp only [step, he, hx]
      exact ⟨_, rfl⟩
  obtain ⟨s2, hs2⟩ := hs
  exact ⟨_, s2, hw, hi', hs2⟩

theorem request_taken {r : Req} (hi : Inv M tr rkeys s (.asked r)) (hl : Live tr s) (hf : Fits tr.mark (M.request r)) :
    ∃ s1 s2, Waits M tr rkeys s s1 ∧ step M tr rkeys s1 .take = some s2 ∧ Inv M tr rkeys s2 (.serving r) := by
  obtain ⟨s1, s2, hw, hi1, hs⟩ := can_take hi hl hi.executor (by simp [Phase.taken, Phase.requests])
    (by simpa [Phase.requests] using hf)
  refine ⟨s1, s2, hw, hs, ?_⟩
  rcases take_inv hi1 hs with ⟨r', h0, h2⟩ | ⟨h0, -⟩
  · cases h0
    exact h2
  · cases h0

theorem close_taken (hi : Inv M tr rkeys s .closing) (hl : Live tr s) :
    ∃ s1 s2, Waits M tr rkeys s s1 ∧ step M tr rkeys s1 .take = some s2 ∧ Inv M tr rkeys s2 .ended := by
  obtain ⟨s1, s2, hw, hi1, hs⟩ := can_take hi hl hi.executor (by simp [Phase.taken, Phase.requests])
    (by simpa [Phase.requests] using Verbs.fits_close tr)
  refine ⟨s1, s2, hw, hs, ?_⟩
  rcases take_inv hi1 hs with ⟨r', h0, -⟩ | ⟨-, h2⟩
  · cases h0
  · exact h2

theorem answer_got {r : Req} {a : Ans} (hi : Inv M tr rkeys s (.answered r a)) (hl : Live tr s) (hf : Fits tr.mark (M.answer a))
    (vars : Vars) : ∃ s1 s2, Waits M tr rkeys s s1 ∧ step M tr rkeys s1 (.result vars) = some s2 ∧
      s2.results = s.results ++ [(r, a)] := by
  obtain ⟨net, hw, hi', hrec⟩ := answer_arrives hi hl (by simpa [Phase.answers] using hf)
  have hlt : s.got < net.client.received.length := by
    rw [hrec, hi'.answers, List.length_append, List.length_map, ← hi'.got.1]
    simp [Phase.answers]
  have hs : ∃ s2, step M tr rkeys { s with net := net } (.result vars) = some s2 := by
    rcases hx : net.client.received[s.got]? with _ | ⟨header, body⟩
    · rw [List.getElem?_eq_none_iff] at hx
      omega
    · have hcaller : s.caller = .waiting r := hi.caller
      simp only [step, hcaller, hx]
      exact ⟨_, rfl⟩
  obtain ⟨s2, hs2⟩ := hs
  refine ⟨_, s2, hw, hs2, ?_⟩
  obtain ⟨r', a', h0, h2, -⟩ := result_inv hi' hs2
  cases h0
  exact h2

/-- Wherever a session is, the next event of its call is some steps of the connection away:
    the handler can ask, the executor takes the request and can answer, the handler gets the
    answer, CLOSE ends the loop; as long as the messages fit a packet. -/
theorem call_goes_on (h : Reach (step M tr rkeys) Any (.init tr) s) :
    (s.caller = .ready → ∀ r, M.sends r = true → ∃ s1 s2, Waits M tr rkeys s s1 ∧ step M tr rkeys s1 (.ask r) = some s2) ∧
    (∀ r, s.caller = .waiting r → s.executor = .loop → s.served = s.results → Fits tr.mark (M.request r) →
      ∃ s1 s2, Waits M tr rkeys s s1 ∧ step M tr rkeys s1 .take = some s2 ∧ s2.executor = .serving r) ∧
    (∀ r a, s.executor = .serving r → M.answers r a = true → ∃ s2, step M tr rkeys s (.answer a) = some s2) ∧
    (∀ r a, s.served = s.results ++ [(r, a)] → Fits tr.mark (M.answer a) → ∀ vars,
      ∃ s1 s2, Waits M tr rkeys s s1 ∧ step M tr rkeys s1 (.result vars) = some s2 ∧ s2.results = s.served) ∧
    (s.caller = .closed → s.executor = .loop → ∃ s1 s2, Waits M tr rkeys s s1 ∧ step M tr rkeys s1 .take = some s2 ∧
      s2.executor = .ended) := by
  obtain ⟨⟨p, hi⟩, hl⟩ := live h
  have h1 := hi.caller
  have h2 := hi.executor
  have h3 := hi.served
  refine ⟨fun hc r hr => ?_, fun r hc he hsv hf => ?_, fun r a he ha => can_answer hi hl he ha, fun r a hsv hf vars => ?_,
    fun hc he => ?_⟩
  · rw [hc] at h1
    cases p with
    | quiet => exact can_ask hi hl hr
    | _ => cases h1
  · rw [hc] at h1
    rw [he] at h2
    rw [hsv] at h3
    cases p with
    | asked r' =>
      cases h1
      obtain ⟨s1, s2, hw, hs, hi2⟩ := request_taken hi hl hf
      exact ⟨s1, s2, hw, hs, hi2.executor⟩
    | serving r' => cases h2
    | answered r' a => exact absurd h3 (by simp [Phase.served])
    | _ => cases h1
  · rw [hsv] at h3
    have h3 := List.append_cancel_left h3
    cases p with
    | answered r' a' =>
      cases h3
      obtain ⟨s1, s2, hw, hs, hr⟩ := answer_got hi hl hf vars
      exact ⟨s1, s2, hw, hs, by rw [hr, hsv]⟩
    | _ => cases h3
  · rw [hc] at h1
    rw [he] at h2
    cases p with
    | closing =>
      obtain ⟨s1, s2, hw, hs, hi2⟩ := close_taken hi hl
      exact ⟨s1, s2, hw, hs, hi2.executor⟩
    | ended => cases h2
    | _ => cases h1

theorem call_goes_on_asking : ∃ s, Reach (step (locking streaming) .send_recv fun _ => 5) Any (.init .send_recv) s ∧
    s.caller = .waiting (.GET "x") ∧ ∃ s1 s2, Waits (locking streaming) .send_recv (fun _ => 5) s s1 ∧
      step (locking streaming) .send_recv (fun _ => 5) s1 .take = some s2 ∧ s2.executor = .serving (.GET "x") := by
  obtain ⟨s, hs, hp⟩ := reach_any (show (exec (step (locking streaming) .send_recv fun _ => 5) Any (.init .send_recv)
    [.ask (.GET "x")]).any (fun s => decide (s.caller = .waiting (.GET "x")) && decide (s.executor = .loop) &&
      decide (s.served = s.results)) = true by decide +kernel)
  simp only [Bool.and_eq_true, decide_eq_true_eq] at hp
  obtain ⟨⟨h1, h2⟩, h3⟩ := hp
  exact ⟨s, hs, h1, (call_goes_on hs).2.1 _ h1 h2 h3 (by decide +kernel)⟩

end RampRdma.Session
