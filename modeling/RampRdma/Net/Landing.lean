/-
  RampRdma.Net.Landing — every step on a link keeps `LinkInv`.

  - `ReceiverOk.land` / `ReceiverOk.notify`: bytes land where nothing is that has arrived.
  - `LinkInv.recv_header` / `LinkInv.clear_msg_buf`: the receiver takes the oldest packet
    whole, and gives its buffer back.
  - `LinkInv.call` / `LinkInv.run`: the thread that sends.
-/

import Mathlib
import RampRdma.Net.Link

namespace RampRdma.Verbs

open Bytes Machine

variable {tr : Transport} {own : RemoteKeyAndAddr}

/-! ## The receiver keeps it -/

theorem recv_slots_nodup : recv_slots.Nodup := by decide

theorem recv_slot {b : Nat} (h : b ∈ recv_slots) : ∃ i < 10, b = i * PACKET_SIZE := by
  obtain ⟨i, hi, rfl⟩ := List.mem_map.mp h
  exact ⟨i, List.mem_range.mp hi, rfl⟩

/-- Two packets land a packet apart, unless both go to `write_buf`. -/
theorem targets_apart {p q : Packet} {buf b : Nat} (hb : buf ∈ recv_slots) (hb' : b ∈ recv_slots) (hne : buf ≠ b)
    (h : p.remote tr = none ∨ q.remote tr = none) :
    p.target tr buf + PACKET_SIZE ≤ q.target tr b ∨ q.target tr b + PACKET_SIZE ≤ p.target tr buf := by
  obtain ⟨i, hi, rfl⟩ := recv_slot hb
  obtain ⟨j, hj, rfl⟩ := recv_slot hb'
  have hw : ∀ (r : Packet), r.remote tr = none ∨ r.remote tr = some WRITE_BUF := by
    intro r
    cases r <;> cases tr <;> simp [Packet.remote]
  have hij := slot_apart (w := PACKET_SIZE) fun e : i = j => hne (by rw [e])
  rcases hw p with hp | hp <;> rcases hw q with hq | hq <;> simp only [Packet.target, hp, hq, Option.getD_none, Option.getD_some]
  · exact hij
  · left; simp only [WRITE_BUF, PACKET_SIZE]; omega
  · right; simp only [WRITE_BUF, PACKET_SIZE]; omega
  · rw [hp, hq] at h
    rcases h with h | h <;> cases h

/-- Of two packets that are not yet received one does not go to `write_buf`. -/
theorem one_remote {ps qs : List Packet} (h : tr = .write_imm → (msgs (ps ++ qs)).length ≤ 1) {p q : Packet} (hp : p ∈ qs)
    (hq : q ∈ ps) : p.remote tr = none ∨ q.remote tr = none := by
  cases tr with
  | send_recv => cases p <;> simp [Packet.remote]
  | write_imm =>
    have h := h rfl
    rw [msgs_append, List.length_append] at h
    cases p with
    | rka r => exact .inl rfl
    | msg m =>
      cases q with
      | rka r => exact .inr rfl
      | msg m' =>
        have h1 : 0 < (msgs qs).length := List.length_pos_of_mem (List.mem_filterMap.mpr ⟨_, hp, rfl⟩)
        have h2 : 0 < (msgs ps).length := List.length_pos_of_mem (List.mem_filterMap.mpr ⟨_, hq, rfl⟩)
        omega

theorem mem_targets {ps : List Packet} {bs : List Nat} {a : Nat} (h : a ∈ List.zipWith (Packet.target tr) ps bs) :
    ∃ q ∈ ps, ∃ b ∈ bs, a = q.target tr b := by
  induction ps generalizing bs with
  | nil => cases h
  | cons p ps ih =>
    cases bs with
    | nil => cases h
    | cons b bs =>
      rcases List.mem_cons.mp h with rfl | h
      · exact ⟨p, List.mem_cons_self, b, List.mem_cons_self, rfl⟩
      · obtain ⟨q, hq, b', hb, he⟩ := ih h
        exact ⟨q, List.mem_cons_of_mem _ hq, b', List.mem_cons_of_mem _ hb, he⟩

theorem slice_part {m : Mem} {a w i k : Nat} {bs : List UInt8} (h : slice m a w = bs) (hk : i + k ≤ w) :
    slice m (a + i) k = (bs.drop i).take k := by
  subst h
  apply List.ext_getElem
  · simp only [length_slice, List.length_take, List.length_drop]
    omega
  · intro j h1 h2
    simp [slice, Nat.add_assoc]

/-- A buffer posted is none of those taken. -/
theorem ReceiverOk.head {l : Link} {cur ready flying : List Packet} (h : ReceiverOk tr l cur ready flying) {buf : Nat}
    {bufs : List Nat} (hp : l.posted_recvs = buf :: bufs) :
    buf ∈ recv_slots ∧ ∀ b, b ∈ l.recv_cq ∨ b ∈ l.stage.bufs → b ∈ recv_slots ∧ buf ≠ b := by
  have hnd := h.recvs.nodup_iff.mpr recv_slots_nodup
  rw [hp, List.cons_append, List.cons_append, List.nodup_cons] at hnd
  have hm : ∀ b, b ∈ l.posted_recvs ++ l.recv_cq ++ l.stage.bufs → b ∈ recv_slots := fun b hb => h.recvs.mem_iff.mp hb
  refine ⟨hm buf (by simp [hp]), fun b hb => ⟨hm b ?_, ?_⟩⟩
  · rcases hb with hb | hb
    · exact List.mem_append_left _ (List.mem_append_right _ hb)
    · exact List.mem_append_right _ hb
  · rintro rfl
    refine hnd.1 ?_
    rcases hb with hb | hb
    · exact List.mem_append_left _ (List.mem_append_right _ hb)
    · exact List.mem_append_right _ hb

/-- Bytes that land where the oldest packet under way goes change nothing taken. -/
theorem ReceiverOk.apart {l : Link} {cur ready ps : List Packet} {p : Packet} (h : ReceiverOk tr l cur ready (p :: ps)) {buf : Nat}
    {bufs : List Nat} (hp : l.posted_recvs = buf :: bufs) {m : Mem}
    (hm : ∀ a, a < p.target tr buf ∨ p.target tr buf + PACKET_SIZE ≤ a → m a = l.mem a) :
    Blocks m PACKET_SIZE (List.zipWith (Packet.target tr) ready l.recv_cq) (ready.map (Packet.image tr)) ∧
      StageOk tr m cur l.stage := by
  obtain ⟨hb, htaken⟩ := h.head hp
  have hone : ∀ q ∈ cur ++ ready, p.remote tr = none ∨ q.remote tr = none := fun q hq =>
    one_remote (by rw [List.append_assoc]; exact h.alone) List.mem_cons_self hq
  refine ⟨h.blocks.frame fun a ha i hi => hm _ ?_, ?_⟩
  · obtain ⟨q, hq, b, hb', rfl⟩ := mem_targets ha
    obtain ⟨hs, hne⟩ := htaken b (.inl hb')
    have := targets_apart hb hs hne (hone q (List.mem_append_right _ hq))
    omega
  · have hst := h.stage
    cases hstage : l.stage with
    | rka => rw [hstage] at hst; exact hst
    | header => rw [hstage] at hst; exact hst
    | clear b hd body => rw [hstage] at hst; exact hst
    | body b hd =>
      rw [hstage] at hst htaken
      obtain ⟨msg, rfl, h1, h2⟩ := hst
      refine ⟨msg, rfl, h1, ?_⟩
      rw [← h2]
      obtain ⟨hs, hne⟩ := htaken b (.inr (List.mem_singleton_self _))
      have := targets_apart (q := .msg msg) hb hs hne (hone _ (List.mem_append_left _ (List.mem_singleton_self _)))
      have hsrc : Packet.target tr (.msg msg) b = Link.source tr b := by cases tr <;> rfl
      rw [hsrc] at this
      exact slice_congr fun i hi => hm _ (by omega)

theorem ReceiverOk.land {l l' : Link} {cur ready flying : List Packet} (h : ReceiverOk tr l cur ready flying)
    (hs : SenderOk tr l flying) (hf : ∀ p ∈ flying, p.Fits tr) {k : Nat} (hl : l.land k = some l') :
    ReceiverOk tr l' cur ready flying ∧ SenderOk tr l' flying := by
  unfold Link.land at hl
  split at hl
  · rename_i wr wrs remote remotes buf bufs hw hr hp
    split at hl <;> cases hl
    rename_i hk
    refine ⟨?_, hs.same rfl rfl rfl rfl⟩
    -- the request is that of the oldest packet under way
    have hb := hs.flight
    have hrem := hs.remotes
    rw [hw] at hb
    rw [hr] at hrem
    rcases flying with _ | ⟨p, ps⟩
    · cases hb
    · obtain ⟨himg, -⟩ := blocks_cons.mp hb
      obtain ⟨rfl, -⟩ := List.cons.inj hrem
      have hlen := p.length_image tr (hf p List.mem_cons_self)
      have hbytes := slice_part himg hk.2
      have hout : ∀ a, a < p.target tr buf ∨ p.target tr buf + PACKET_SIZE ≤ a →
          write l.mem (p.target tr buf + l.landed) (slice l.send_mem (wr.wr_id + l.landed) k) a = l.mem a := by
        intro a ha
        refine write_outside _ _ _ ?_
        rw [length_slice]
        omega
      obtain ⟨h1, h2⟩ := h.apart hp hout
      refine ⟨hk.2, fun p' ps' he buf' bufs' he' => ?_, fun _ => ⟨by simp, by simp [hp]⟩, h.recvs, h1, h.length, h2, h.alone⟩
      obtain ⟨rfl, rfl⟩ := List.cons.inj he
      rw [show l.posted_recvs = buf' :: bufs' from he'] at hp
      obtain ⟨rfl, rfl⟩ := List.cons.inj hp
      have hold := h.landing _ _ rfl _ _ he'
      have := slice_write_behind l.mem (p.target tr buf') l.landed (slice l.send_mem (wr.wr_id + l.landed) k)
      rw [length_slice, hold, hbytes] at this
      rw [hbytes]
      exact this.trans (List.take_add ..).symm
  · cases hl

/-- The oldest packet under way has landed whole. -/
theorem ReceiverOk.notify {l l' : Link} {cur ready flying : List Packet} (h : ReceiverOk tr l cur ready flying)
    (hs : SenderOk tr l flying) (hf : ∀ p ∈ flying, p.Fits tr) (hl : l.notify = some l') :
    ∃ p ps, flying = p :: ps ∧ ReceiverOk tr l' cur (ready ++ [p]) ps ∧ SenderOk tr l' ps := by
  unfold Link.notify at hl
  split at hl
  · rename_i wr wrs remote remotes buf bufs hw hr hp
    split at hl <;> cases hl
    rename_i hk
    have hrem := hs.remotes
    rw [hr] at hrem
    rcases flying with _ | ⟨p, ps⟩
    · cases hrem
    · obtain ⟨rfl, -⟩ := List.cons.inj hrem
      have hlen := p.length_image tr (hf p List.mem_cons_self)
      refine ⟨p, ps, rfl, ⟨Nat.zero_le _, fun p' ps' _ buf' bufs' _ => rfl, fun h0 => absurd rfl h0, ?_, ?_, ?_, h.stage, ?_⟩,
        hs.arrive rfl rfl rfl hr⟩
      · have hperm := h.recvs
        rw [hp] at hperm
        refine List.Perm.trans (List.perm_iff_count.mpr fun b => ?_) hperm
        simp only [List.count_append, List.count_cons, List.count_nil]
        omega
      · show Blocks l.mem _ (List.zipWith _ (ready ++ [p]) (l.recv_cq ++ [buf])) _
        rw [List.zipWith_append h.length, List.map_append]
        refine h.blocks.snoc ?_
        have := h.landing p ps rfl buf bufs hp
        rw [hk, ← hlen, List.take_length, hlen] at this
        exact this
      · show (ready ++ [p]).length = (l.recv_cq ++ [buf]).length
        rw [List.length_append, List.length_append, h.length]
        rfl
      · have := h.alone
        simpa using this
  · cases hl

/-! ### Reading -/

/-- The memory as seen from `a` on. -/
theorem begins_of_slice {m : Mem} {a w : Nat} {bs : List UInt8} (h : slice m a w = bs) : Begins (fun i => m (a + i)) bs w := by
  intro i hi
  rw [← h, getD_slice m a hi]

theorem slice_from (m : Mem) (a b n : Nat) : slice (fun i => m (a + i)) b n = slice m (a + b) n := by
  simp [slice, Nat.add_assoc]

theorem header_from {m : Mem} {a : Nat} {mark : List UInt8} {msg : Message} (h : slice m a PACKET_SIZE = image mark msg)
    (hf : RampRdma.Fits mark msg) : RawHeader.read m a = msg.delivered.1 := by
  have hb := begins_of_slice h
  have hf' : msg.body.length < 2 ^ 64 := by
    simp only [RampRdma.Fits, PACKET_SIZE] at hf
    omega
  have hr := header_read hb (image_eq mark msg) (by decide) hf'
  rw [← hr]
  simp only [RawHeader.read, load, slice_from, Nat.add_zero, Nat.zero_add]

theorem body_from {m : Mem} {a : Nat} {mark : List UInt8} {msg : Message} (h : slice m a PACKET_SIZE = image mark msg)
    (hf : RampRdma.Fits mark msg) : slice m (a + 24) msg.body.length = msg.body := by
  rw [← slice_from]
  refine body_read (begins_of_slice h) ?_
  simp only [RampRdma.Fits] at hf
  omega

theorem rka_from {m : Mem} {a : Nat} {r : RemoteKeyAndAddr} (h : slice m a PACKET_SIZE = r.image) :
    RemoteKeyAndAddr.read m a = r := by
  have hb := begins_of_slice h
  have e : r.image = le 4 r.rkey.toNat ++ (le 4 0 ++ (le 8 r.remote_addr.toNat ++ List.replicate (PACKET_SIZE - 16) 0)) := by
    simp only [RemoteKeyAndAddr.image, RemoteKeyAndAddr.bytes, List.append_assoc]
  have h1 : load 4 (fun i => m (a + i)) 0 = leNat (le 4 r.rkey.toNat) :=
    hb.load (e.trans (List.nil_append _).symm) rfl (length_le _ _) (by decide)
  have h2 : load 8 (fun i => m (a + i)) 8 = leNat (le 8 r.remote_addr.toNat) :=
    hb.load (e.trans (List.append_assoc _ _ _).symm) (by simp) (length_le _ _) (by decide)
  have e1 : load 4 m a = r.rkey.toNat := by
    rw [load, slice_from, leNat_le] at h1
    have := r.rkey.toNat_lt
    rw [load]
    exact h1.trans (Nat.mod_eq_of_lt (by omega))
  have e2 : load 8 m (a + 8) = r.remote_addr.toNat := by
    rw [load, slice_from, leNat_le] at h2
    have := r.remote_addr.toNat_lt
    rw [load]
    exact h2.trans (Nat.mod_eq_of_lt (by omega))
  simp only [RemoteKeyAndAddr.read, e1, e2, UInt32.ofNat_toNat, UInt64.ofNat_toNat]

/-- A completion belongs to the oldest packet not taken up. -/
theorem ReceiverOk.next {l : Link} {cur ready flying : List Packet} (h : ReceiverOk tr l cur ready flying) {buf : Nat}
    {cq : List Nat} (hc : l.recv_cq = buf :: cq) : ∃ q qs, ready = q :: qs ∧ qs.length = cq.length ∧
      slice l.mem (q.target tr buf) PACKET_SIZE = q.image tr ∧
      Blocks l.mem PACKET_SIZE (List.zipWith (Packet.target tr) qs cq) (qs.map (Packet.image tr)) := by
  have hlen := h.length
  have hb := h.blocks
  rw [hc] at hlen hb
  rcases ready with _ | ⟨q, qs⟩
  · cases hlen
  · obtain ⟨h1, h2⟩ := blocks_cons.mp hb
    exact ⟨q, qs, rfl, Nat.succ.inj hlen, h1, h2⟩

theorem LinkInv.recv_rka {l l' : Link} {done cur ready flying : List Packet} (h : LinkInv tr own l done cur ready flying)
    (hl : l.recv_rka = some l') : ∃ done cur ready, LinkInv tr own l' done cur ready flying := by
  unfold Link.recv_rka at hl
  split at hl <;> cases hl
  rename_i buf cq hst hcq
  obtain ⟨q, qs, rfl, hlen, himg, hblocks⟩ := h.receiver.next hcq
  have hstage := h.receiver.stage
  rw [hst] at hstage
  obtain rfl : cur = [] := hstage
  have htr : tr = .write_imm := by
    cases tr with
    | send_recv => exact absurd hst (h.hand.send_recv rfl).2
    | write_imm => rfl
  subst htr
  obtain ⟨hsent, ⟨-, rfl, -⟩ | ⟨hne, -⟩⟩ := h.hand.write_imm rfl
  · -- the first packet is the other side's address
    have hs := h.sent
    obtain ⟨ms, hms⟩ : ∃ ms : List Message, l.sent = .rka own :: ms.map .msg := by
      rcases hsent with ⟨h0, -⟩ | ⟨hms, -⟩
      · rw [h0] at hs
        cases hs
      · exact hms
    rw [hms] at hs
    obtain ⟨rfl, -⟩ := List.cons.inj hs
    refine ⟨[.rka own], [], qs, ⟨h.sent, h.fits, h.received, h.sender.same rfl rfl rfl rfl, ?_, ?_⟩⟩
    · refine ⟨h.receiver.landed, fun p ps he b bs hb => ?_, fun h0 => ?_, ?_, hblocks, hlen, rfl, fun ht => ?_⟩
      · rcases hp : l.posted_recvs with _ | ⟨b', bs'⟩
        · -- nothing has landed while no buffer was posted
          have h0 : l.landed = 0 := by
            by_contra h0
            exact (h.receiver.none_landed h0).2 hp
          show slice l.mem _ l.landed = _
          rw [h0]
          rfl
        · have hb : l.posted_recvs ++ [buf] = b :: bs := hb
          rw [hp] at hb
          obtain ⟨rfl, -⟩ := List.cons.inj hb
          exact h.receiver.landing p ps he b' bs' hp
      · obtain ⟨h1, -⟩ := h.receiver.none_landed h0
        exact ⟨h1, by simp⟩
      · have hperm := h.receiver.recvs
        rw [hcq, hst] at hperm
        refine List.Perm.trans (List.perm_iff_count.mpr fun b => ?_) hperm
        simp only [List.count_append, List.count_cons, List.count_nil, Stage.bufs]
        omega
      · simpa using h.receiver.alone ht
    · refine ⟨h.hand.calls, h.hand.cleared, (fun ht => by cases ht), fun _ => ⟨hsent, .inr ⟨by simp, by simp, ?_⟩⟩⟩
      have himg : slice l.mem buf PACKET_SIZE = own.image := himg
      show some (RemoteKeyAndAddr.read l.mem buf) = some own
      rw [rka_from himg]
  · exact absurd hst hne

theorem LinkInv.recv_header {l l' : Link} {done cur ready flying : List Packet} (h : LinkInv tr own l done cur ready flying)
    (hl : l.recv_header tr = some l') : ∃ done cur ready, LinkInv tr own l' done cur ready flying := by
  unfold Link.recv_header at hl
  split at hl <;> cases hl
  rename_i buf cq hst hcq
  obtain ⟨q, qs, rfl, hlen, himg, hblocks⟩ := h.receiver.next hcq
  have hstage := h.receiver.stage
  rw [hst] at hstage
  obtain rfl : cur = [] := hstage
  have hs := h.sent
  have hq : q ∈ l.sent := by rw [hs]; simp
  -- it is a message
  obtain ⟨msg, rfl⟩ : ∃ msg, q = .msg msg := by
    cases htr : tr with
    | send_recv => exact (h.hand.send_recv htr).1 q hq
    | write_imm =>
      obtain ⟨hsent, ⟨hst', -⟩ | ⟨-, hdone, -⟩⟩ := h.hand.write_imm htr
      · rw [hst] at hst'
        cases hst'
      · rcases hsent with ⟨h0, -⟩ | ⟨⟨ms, hms⟩, -⟩
        · rw [h0] at hq
          cases hq
        · rcases done with _ | ⟨d, done⟩
          · exact absurd rfl hdone
          · rw [hms] at hs
            obtain ⟨-, hs⟩ := List.cons.inj hs
            have hm : q ∈ ms.map Packet.msg := by rw [hs]; simp
            obtain ⟨m, -, rfl⟩ := List.mem_map.mp hm
            exact ⟨m, rfl⟩
  have hsrc : Packet.target tr (.msg msg) buf = Link.source tr buf := by cases tr <;> rfl
  rw [hsrc] at himg
  refine ⟨done, [.msg msg], qs, ⟨hs, h.fits, h.received, h.sender.same rfl rfl rfl rfl, ?_, ?_⟩⟩
  · refine ⟨h.receiver.landed, h.receiver.landing, h.receiver.none_landed, ?_, hblocks, hlen,
      ⟨msg, rfl, header_from himg (h.fits _ hq), himg⟩, fun ht => h.receiver.alone ht⟩
    have hperm := h.receiver.recvs
    rw [hcq, hst] at hperm
    refine List.Perm.trans (List.perm_iff_count.mpr fun b => ?_) hperm
    simp only [List.count_append, List.count_cons, List.count_nil, Stage.bufs]
    omega
  · refine ⟨h.hand.calls, h.hand.cleared, fun ht => ⟨(h.hand.send_recv ht).1, by simp⟩, fun ht => ?_⟩
    obtain ⟨hsent, hstage⟩ := h.hand.write_imm ht
    refine ⟨hsent, .inr ?_⟩
    rcases hstage with ⟨hst', -⟩ | ⟨-, hrest⟩
    · rw [hst] at hst'
      cases hst'
    · exact ⟨by simp, hrest⟩

theorem LinkInv.get_body {l l' : Link} {done cur ready flying : List Packet} (h : LinkInv tr own l done cur ready flying)
    (hl : l.get_body tr = some l') : LinkInv tr own l' done cur ready flying := by
  unfold Link.get_body at hl
  split at hl <;> cases hl
  rename_i buf hd hst
  have hstage := h.receiver.stage
  have hperm := h.receiver.recvs
  rw [hst] at hstage hperm
  obtain ⟨msg, rfl, rfl, himg⟩ := hstage
  have hq : Packet.msg msg ∈ l.sent := by rw [h.sent]; simp
  refine ⟨h.sent, h.fits, h.received, h.sender.same rfl rfl rfl rfl,
    ⟨h.receiver.landed, h.receiver.landing, h.receiver.none_landed, hperm, h.receiver.blocks, h.receiver.length,
      ⟨msg, rfl, ?_⟩, h.receiver.alone⟩, ⟨h.hand.calls, h.hand.cleared, fun ht => ⟨(h.hand.send_recv ht).1, by simp⟩, fun ht => ?_⟩⟩
  · show (msg.delivered.1, slice l.mem (Link.source tr buf + 24) msg.body.length) = _
    rw [body_from himg (h.fits _ hq)]
    rfl
  · obtain ⟨hsent, hstage⟩ := h.hand.write_imm ht
    refine ⟨hsent, .inr ?_⟩
    rcases hstage with ⟨hst', -⟩ | ⟨-, hrest⟩
    · rw [hst] at hst'
      cases hst'
    · exact ⟨by simp, hrest⟩

theorem remote_none {ps : List Packet} (h : tr = .write_imm → msgs ps = []) {p : Packet} (hp : p ∈ ps) : p.remote tr = none := by
  cases tr with
  | send_recv => cases p <;> rfl
  | write_imm =>
    cases p with
    | rka r => rfl
    | msg m =>
      have hm : m ∈ msgs ps := List.mem_filterMap.mpr ⟨_, hp, rfl⟩
      rw [h rfl] at hm
      cases hm

theorem LinkInv.clear_msg_buf {l l' : Link} {done cur ready flying : List Packet} (h : LinkInv tr own l done cur ready flying)
    (hl : l.clear_msg_buf tr = some l') : ∃ done cur ready, LinkInv tr own l' done cur ready flying := by
  unfold Link.clear_msg_buf at hl
  split at hl <;> cases hl
  rename_i buf hd body hst
  have hstage := h.receiver.stage
  have hperm := h.receiver.recvs
  rw [hst] at hstage hperm
  obtain ⟨msg, rfl, hm⟩ := hstage
  -- the message was the only one to go through `write_buf`
  have hrest : tr = .write_imm → msgs (ready ++ flying) = [] := by
    intro ht
    have := h.receiver.alone ht
    simp only [List.cons_append, List.nil_append, msgs_msg, List.length_cons] at this
    exact List.eq_nil_of_length_eq_zero (by omega)
  have hmem : ∀ q ∈ ready ++ flying, ∀ b ∈ recv_slots, ∀ i < PACKET_SIZE,
      Link.clear_mem tr l.mem (q.target tr b + i) = l.mem (q.target tr b + i) := by
    intro q hq b hb i hi
    have ht : q.target tr b = b := by rw [Packet.target, remote_none hrest hq]; rfl
    rw [ht]
    cases tr with
    | send_recv => rfl
    | write_imm =>
      obtain ⟨j, hj, rfl⟩ := recv_slot hb
      refine write_outside _ _ _ (.inl ?_)
      simp only [WRITE_BUF, PACKET_SIZE] at hi ⊢
      omega
  have hslots : ∀ b, b ∈ l.posted_recvs ∨ b ∈ l.recv_cq → b ∈ recv_slots := by
    intro b hb
    refine hperm.mem_iff.mp (List.mem_append_left _ (List.mem_append.mpr hb))
  refine ⟨done ++ [.msg msg], [], ready, ⟨?_, h.fits, ?_, h.sender.same rfl rfl rfl rfl, ?_, ?_⟩⟩
  · rw [h.sent]
    simp
  · show l.received ++ [(hd, body)] = _
    rw [h.received, msgs_append, List.map_append, hm]
    rfl
  · refine ⟨h.receiver.landed, fun p ps he b bs hb => ?_, fun h0 => ?_, ?_, ?_, h.receiver.length, rfl, fun ht => ?_⟩
    · have hb : l.posted_recvs ++ [buf] = b :: bs := hb
      rcases hp : l.posted_recvs with _ | ⟨b', bs'⟩
      · have h0 : l.landed = 0 := by
          by_contra h0
          exact (h.receiver.none_landed h0).2 hp
        show slice _ _ l.landed = _
        rw [h0]
        rfl
      · rw [hp] at hb
        obtain ⟨rfl, -⟩ := List.cons.inj hb
        rw [← h.receiver.landing p ps he b' bs' hp]
        have hle := h.receiver.landed
        refine slice_congr fun i hi => hmem p (by simp [he]) b' (hslots _ (.inl (by simp [hp]))) i ?_
        have hi : i < l.landed := hi
        omega
    · obtain ⟨h1, -⟩ := h.receiver.none_landed h0
      exact ⟨h1, by simp⟩
    · refine List.Perm.trans (List.perm_iff_count.mpr fun b => ?_) hperm
      simp only [List.count_append, List.count_cons, List.count_nil, Stage.bufs]
      omega
    · refine h.receiver.blocks.frame fun a ha i hi => ?_
      obtain ⟨q, hq, b, hb, rfl⟩ := mem_targets ha
      exact hmem q (List.mem_append_left _ hq) b (hslots b (.inr hb)) i hi
    · rw [List.nil_append, hrest ht]
      exact Nat.zero_le _
  · refine ⟨h.hand.calls, h.hand.cleared, fun ht => ⟨(h.hand.send_recv ht).1, by simp⟩, fun ht => ?_⟩
    obtain ⟨hsent, hstage⟩ := h.hand.write_imm ht
    refine ⟨hsent, .inr ?_⟩
    rcases hstage with ⟨hst', -⟩ | ⟨-, -, hrest⟩
    · rw [hst] at hst'
      cases hst'
    · exact ⟨by simp, by simp, hrest⟩

/-! ## A link keeps it -/

/-- The receiver's side when one more packet is posted. -/
theorem ReceiverOk.post {l l' : Link} {cur ready flying : List Packet} (h : ReceiverOk tr l cur ready flying) {p : Packet}
    (ha : tr = .write_imm → (msgs (cur ++ (ready ++ (flying ++ [p])))).length ≤ 1) (h1 : l'.landed = l.landed)
    (h2 : l'.mem = l.mem) (h3 : l'.posted_recvs = l.posted_recvs) (h4 : l'.recv_cq = l.recv_cq) (h5 : l'.stage = l.stage) :
    ReceiverOk tr l' cur ready (flying ++ [p]) := by
  refine ⟨h1 ▸ h.landed, fun q qs he buf bufs hb => ?_, fun h0 => ?_, by rw [h3, h4, h5]; exact h.recvs,
    by rw [h2, h4]; exact h.blocks, by rw [h4]; exact h.length, by rw [h2, h5]; exact h.stage, ha⟩
  · rw [h1, h2]
    rw [h3] at hb
    rcases flying with _ | ⟨q', qs'⟩
    · have h0 : l.landed = 0 := by
        by_contra h0
        exact (h.none_landed h0).1 rfl
      rw [h0]
      rfl
    · obtain ⟨rfl, -⟩ := List.cons.inj he
      exact h.landing q' qs' rfl buf bufs hb
  · rw [h1] at h0
    rw [h3]
    exact ⟨by simp, (h.none_landed h0).2⟩

/-- The thread fills and posts a message. -/
theorem LinkInv.post_msg {l l' : Link} {done cur ready flying : List Packet} (h : LinkInv tr own l done cur ready flying) {s : Socket}
    (hs : Step l.socket s) {buf : Nat} (hb : l.socket.pc.held = [buf]) {wr : WorkRequest} (hw : wr.wr_id = buf)
    (ho : s.outstanding = l.socket.outstanding ++ [wr]) (hp : s.pc.held = [] ∧ (∀ c, s.pc ≠ .polling c))
    {rka : Option RemoteKeyAndAddr} (hr : tr = .write_imm → ∀ r, rka = some r → r.remote_addr.toNat = WRITE_BUF) {msg : Message}
    (hsent : tr = .write_imm → l.rka_sent = true ∧ msgs (cur ++ (ready ++ flying)) = [])
    (hl : l.post_msg tr s buf rka msg = some l') :
    LinkInv tr own l' done cur ready (flying ++ [.msg msg]) := by
  -- what is posted, and where it goes
  obtain ⟨hf, rfl⟩ : RampRdma.Fits tr.mark msg ∧
      l' = l.post s buf (Packet.image tr (.msg msg)) (Packet.remote tr (.msg msg)) (.msg msg) := by
    unfold Link.post_msg at hl
    by_cases hf : RampRdma.Fits tr.mark msg
    · rw [send_msg_ok hf] at hl
      refine ⟨hf, ?_⟩
      split at hl
      · rename_i hbytes
        cases hbytes
        cases hl
        rfl
      · rename_i r hbytes
        cases hbytes
        cases hl
        rw [hr rfl r rfl]
        rfl
      · cases hl
    · rw [send_msg_exit hf] at hl
      cases hl
  refine ⟨?_, fun p hp => ?_, h.received, h.sender.post hs hb hw ho hf, h.receiver.post (fun ht => ?_) rfl rfl rfl rfl rfl, ?_⟩
  · show l.sent ++ _ = _
    rw [h.sent]
    simp
  · rcases List.mem_append.mp hp with hp | hp
    · exact h.fits p hp
    · rw [List.mem_singleton.mp hp]
      exact hf
  · rw [← List.append_assoc ready, ← List.append_assoc cur, msgs_append, (hsent ht).2]
    exact le_rfl
  · refine ⟨fun c hc => ?_, fun b hb' ht => (hsent ht).1, fun ht => ⟨fun p hp => ?_, (h.hand.send_recv ht).2⟩, fun ht => ?_⟩
    · rcases hc with hc | ⟨b, hc⟩
      · exact absurd hc (hp.2 c)
      · have hc : s.pc = .holding c b := hc
        rw [hc] at hp
        cases hp.1
    · rcases List.mem_append.mp hp with hp | hp
      · exact (h.hand.send_recv ht).1 p hp
      · exact ⟨msg, List.mem_singleton.mp hp⟩
    · obtain ⟨h1, h2⟩ := h.hand.write_imm ht
      refine ⟨.inr ?_, h2⟩
      rcases h1 with ⟨-, h0⟩ | ⟨⟨ms, hms⟩, h0⟩
      · rw [(hsent ht).1] at h0
        cases h0
      · refine ⟨⟨ms ++ [msg], ?_⟩, h0⟩
        show l.sent ++ _ = _
        rw [hms, List.map_append]
        rfl

/-- A step of the thread's or of the hardware's that posts nothing and lands nothing. -/
theorem LinkInv.thread {l : Link} {done cur ready flying : List Packet} (h : LinkInv tr own l done cur ready flying) {s : Socket}
    {m : Mem} {n : Nat} (hs : SenderOk tr { l with socket := s, send_mem := m, arrived := n } flying)
    (hc : ∀ c, s.pc = .polling c ∨ (∃ b, s.pc = .holding c b) → c ≠ .read ∧
      (c = .send_rka → tr = .write_imm ∧ l.rka_sent = false) ∧ (c ≠ .send_rka → tr = .write_imm → l.rka_sent = true))
    (hcl : ∀ b, s.pc = .cleared b → tr = .write_imm → l.rka_sent = true) :
    LinkInv tr own { l with socket := s, send_mem := m, arrived := n } done cur ready flying where
  sent := h.sent
  fits := h.fits
  received := h.received
  sender := hs
  receiver := ⟨h.receiver.landed, h.receiver.landing, h.receiver.none_landed, h.receiver.recvs, h.receiver.blocks,
    h.receiver.length, h.receiver.stage, h.receiver.alone⟩
  hand := ⟨hc, hcl, h.hand.send_recv, h.hand.write_imm⟩

theorem LinkInv.call {l l' : Link} {done cur ready flying : List Packet} (h : LinkInv tr own l done cur ready flying)
    {rka : Option RemoteKeyAndAddr} {c : Call} (hl : l.call tr rka c = some l') : LinkInv tr own l' done cur ready flying := by
  unfold Link.call at hl
  split at hl
  · rename_i hmay
    split at hl <;> cases hl
    rename_i s hs
    have hst := step_cases hs
    -- the call waits for a buffer or has one
    obtain ⟨ho, hpc⟩ : s.outstanding = l.socket.outstanding ∧ (s.pc = .polling c ∨ ∃ b, s.pc = .holding c b) := by
      simp only [Verbs.step] at hs
      split at hs <;> cases hs
      · exact ⟨rfl, .inl rfl⟩
      · exact ⟨rfl, .inr ⟨_, rfl⟩⟩
    refine h.thread (h.sender.handed hst ho) (fun c' hc' => ?_) fun b hb => ?_
    · have he : c' = c := by
        rcases hpc with hpc | ⟨b, hpc⟩ <;> rcases hc' with hc' | ⟨b', hc'⟩ <;> rw [hpc] at hc' <;> cases hc' <;> rfl
      subst he
      cases c' with
      | send_rka => exact ⟨by simp, fun _ => hmay, fun hne => absurd rfl hne⟩
      | send_msg m => exact ⟨by simp, (by simp), fun _ ht => (hmay ht).1⟩
      | send_close => exact ⟨by simp, (by simp), fun _ ht => (hmay ht).1⟩
      | read => exact absurd hmay id
    · rcases hpc with hpc | ⟨b', hpc⟩ <;> rw [hpc] at hb <;> cases hb
  · cases hl

/-- The constructor posts the key and the address. -/
theorem LinkInv.post_rka {l : Link} {done cur ready flying : List Packet} (h : LinkInv tr own l done cur ready flying) {buf : Nat}
    (hpc : l.socket.pc = .holding .send_rka buf) (hs : Step l.socket (l.socket.post { wr_id := buf } .idle)) :
    LinkInv tr own { l.post (l.socket.post { wr_id := buf } .idle) buf own.image none (.rka own) with rka_sent := true } done cur
      ready (flying ++ [.rka own]) := by
  obtain ⟨-, htr, -⟩ := h.hand.calls _ (.inr ⟨buf, hpc⟩)
  obtain ⟨rfl, hrka⟩ := htr rfl
  obtain ⟨hsent, hstage⟩ := h.hand.write_imm rfl
  -- nothing was sent before
  have h0 : l.sent = [] := by
    rcases hsent with ⟨h0, -⟩ | ⟨-, hrka'⟩
    · exact h0
    · rw [hrka] at hrka'
      cases hrka'
  obtain ⟨rfl, rfl, rfl, rfl⟩ : done = [] ∧ cur = [] ∧ ready = [] ∧ flying = [] := by simpa [h0] using h.sent
  have hsender := h.sender.post (p := .rka own) hs (by rw [hpc]; rfl) rfl rfl trivial
  refine ⟨?_, fun p hp => ?_, h.received, hsender.same rfl rfl rfl rfl,
    h.receiver.post (fun _ => Nat.zero_le _) rfl rfl rfl rfl rfl, ?_⟩
  · show l.sent ++ [.rka own] = _
    rw [h0]
    rfl
  · have hp : p ∈ l.sent ++ [.rka own] := hp
    rw [h0] at hp
    rw [List.mem_singleton.mp hp]
    trivial
  · refine ⟨fun c hc => ?_, fun b hb => (by cases hb), fun ht => (by cases ht), fun _ => ⟨.inr ⟨⟨[], ?_⟩, rfl⟩, hstage⟩⟩
    · rcases hc with hc | ⟨b, hc⟩ <;> cases hc
    · show l.sent ++ [.rka own] = _
      rw [h0]
      rfl

/-- The thread's next step posts a message. -/
def Link.Posts (l : Link) : Prop :=
  match l.socket.pc with
  | .holding (.send_msg _) _ => True
  | .cleared _ => True
  | _ => False

instance (l : Link) : Decidable l.Posts := by
  unfold Link.Posts
  split <;> infer_instance

theorem LinkInv.run {l l' : Link} {done cur ready flying : List Packet} (h : LinkInv tr own l done cur ready flying)
    {rka : Option RemoteKeyAndAddr} (hr : tr = .write_imm → ∀ r, rka = some r → r.remote_addr.toNat = WRITE_BUF)
    (hm : tr = .write_imm → l.Posts → msgs (cur ++ (ready ++ flying)) = []) (hl : l.run tr own rka = some l') :
    ∃ flying, LinkInv tr own l' done cur ready flying := by
  unfold Link.run at hl
  split at hl
  · cases hl
  · rename_i s hs
    have hst := run_cases hs
    split at hl
    · -- a buffer has come back
      rename_i c hpc
      cases hl
      obtain ⟨ho, b, hpc'⟩ : s.outstanding = l.socket.outstanding ∧ ∃ b, s.pc = .holding c b := by
        simp only [Verbs.run, hpc] at hs
        split at hs <;> cases hs
        exact ⟨rfl, _, rfl⟩
      refine ⟨flying, h.thread (h.sender.handed hst ho) (fun c' hc => ?_) fun b' hb => ?_⟩
      · rcases hc with hc | ⟨b', hc⟩ <;> rw [hpc'] at hc <;> cases hc
        exact h.hand.calls c (.inl hpc)
      · rw [hpc'] at hb
        cases hb
    · rename_i buf hpc
      cases hl
      obtain rfl : s = l.socket.post { wr_id := buf } .idle := by
        simp only [Verbs.run, hpc] at hs
        cases hs
        rfl
      exact ⟨_, h.post_rka hpc hst⟩
    · rename_i msg buf hpc
      obtain rfl : s = l.socket.post { wr_id := buf } .idle := by
        simp only [Verbs.run, hpc] at hs
        split at hs <;> cases hs
        rfl
      have hcall := (h.hand.calls _ (.inr ⟨buf, hpc⟩)).2.2 (by simp)
      exact ⟨_, h.post_msg hst (by rw [hpc]; rfl) rfl rfl ⟨rfl, fun c hc => by cases hc⟩ hr
        (fun ht => ⟨hcall ht, hm ht (by simp [Link.Posts, hpc])⟩) hl⟩
    · rename_i buf hpc
      obtain rfl : s = l.socket.post { wr_id := buf, close := true } .closing := by
        simp only [Verbs.run, hpc] at hs
        split at hs <;> cases hs
        rfl
      exact ⟨_, h.post_msg hst (by rw [hpc]; rfl) rfl rfl ⟨rfl, fun c hc => by cases hc⟩ hr
        (fun ht => ⟨h.hand.cleared buf hpc ht, hm ht (by simp [Link.Posts, hpc])⟩) hl⟩
    · rename_i h1 h2 h3 h4
      cases hl
      -- `send_close` clears the queue, or polls its completion
      rcases hp : l.socket.pc with _ | c | ⟨c, buf⟩ | _ | buf | _ | _
      · simp only [Verbs.run, hp] at hs
        cases hs
      · exact absurd hp (h1 c)
      · cases c with
        | send_rka => exact absurd hp (h2 buf)
        | send_msg msg => exact absurd hp (h3 msg buf)
        | read => exact absurd rfl (h.hand.calls _ (.inr ⟨buf, hp⟩)).1
        | send_close =>
          have hcall := (h.hand.calls _ (.inr ⟨buf, hp⟩)).2.2 (by simp)
          simp only [Verbs.run, hp] at hs
          cases hs
          refine ⟨flying, h.thread (h.sender.move hst rfl) (fun c hc => ?_) fun b _ => hcall⟩
          rcases hc with hc | ⟨b, hc⟩ <;> cases hc
      · simp only [Verbs.run, hp] at hs
        cases hs
        refine ⟨flying, h.thread (h.sender.move hst rfl) (fun c hc => ?_) fun b hb => by cases hb⟩
        rcases hc with hc | ⟨b, hc⟩ <;> cases hc
      · exact absurd hp (h4 buf)
      · simp only [Verbs.run, hp] at hs
        split at hs <;> cases hs
        refine ⟨flying, h.thread (h.sender.move hst rfl) (fun c hc => ?_) fun b hb => by cases hb⟩
        rcases hc with hc | ⟨b, hc⟩ <;> cases hc
      · simp only [Verbs.run, hp] at hs
        cases hs

theorem LinkInv.complete {l l' : Link} {done cur ready flying : List Packet} (h : LinkInv tr own l done cur ready flying)
    (hl : l.complete tr = some l') : LinkInv tr own l' done cur ready flying := by
  unfold Link.complete at hl
  split at hl
  · cases hl
  · rename_i n hn
    obtain ⟨s, hs, rfl⟩ := Option.map_eq_some_iff.mp hl
    have hst := step_cases hs
    simp only [Verbs.step] at hs
    split at hs <;> cases hs
    rename_i wr rest ho
    exact h.thread (h.sender.complete hst hn ho) h.hand.calls h.hand.cleared

theorem LinkInv.flying_fits {l : Link} {done cur ready flying : List Packet} (h : LinkInv tr own l done cur ready flying) :
    ∀ p ∈ flying, p.Fits tr := by
  intro p hp
  refine h.fits p ?_
  rw [h.sent]
  simp [hp]

theorem Link.land_eq {l l' : Link} {k : Nat} (hl : l.land k = some l') :
    ∃ m n, l' = { l with mem := m, landed := n } := by
  unfold Link.land at hl
  split at hl
  · split at hl <;> cases hl
    exact ⟨_, _, rfl⟩
  · cases hl

theorem LinkInv.land {l l' : Link} {done cur ready flying : List Packet} (h : LinkInv tr own l done cur ready flying) {k : Nat}
    (hl : l.land k = some l') : LinkInv tr own l' done cur ready flying := by
  obtain ⟨hr, hs⟩ := h.receiver.land h.sender h.flying_fits hl
  obtain ⟨m, n, rfl⟩ := Link.land_eq hl
  exact ⟨h.sent, h.fits, h.received, hs, hr, ⟨h.hand.calls, h.hand.cleared, h.hand.send_recv, h.hand.write_imm⟩⟩

theorem Link.notify_eq {l l' : Link} (hl : l.notify = some l') :
    ∃ rs bufs buf, l' = { l with arrived := l.arrived + 1, remotes := rs, landed := 0, posted_recvs := bufs, recv_cq := l.recv_cq ++ [buf] } := by
  unfold Link.notify at hl
  split at hl
  · split at hl <;> cases hl
    exact ⟨_, _, _, rfl⟩
  · cases hl

theorem LinkInv.notify {l l' : Link} {done cur ready flying : List Packet} (h : LinkInv tr own l done cur ready flying)
    (hl : l.notify = some l') : ∃ ready flying, LinkInv tr own l' done cur ready flying := by
  obtain ⟨p, ps, rfl, hr, hs⟩ := h.receiver.notify h.sender h.flying_fits hl
  obtain ⟨rs, bufs, buf, rfl⟩ := Link.notify_eq hl
  refine ⟨ready ++ [p], ps, ⟨?_, h.fits, h.received, hs, hr,
    ⟨h.hand.calls, h.hand.cleared, h.hand.send_recv, h.hand.write_imm⟩⟩⟩
  show l.sent = _
  rw [h.sent]
  simp

end RampRdma.Verbs
