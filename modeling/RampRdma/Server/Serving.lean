/-
  RampRdma.Server.Serving — what a version may cost in bytes: when it is sent with a PREPARE
  over `RDMAWriteSocket`, when a commit writes it to its cache slot, and when it is the
  answer to a GET or a GET_WITH_ADDR (`RAMPFastExecutor::get`,
  `ACRAMPFastExecutor::get_item_and_addr`).

  A packet is a header, the packed item and the arrival int: 2532 bytes are left for the
  item. A slot has a flag besides, of an int: 2528. The answer to a GET_WITH_ADDR shares
  the packet with a `RemoteKeyAndAddr` of 3 to 15 bytes.
  - `served_iff`: a version that its client could send is written to its slot and sent in
    both answers exactly if it is as small as the slot and the address leave room for.
  - `accepted_exits`: the client could send it, and the commit makes the server exit.
-/

import Mathlib
import RampRdma.Net.Message
import RampRdma.Server.ReadEnds
import RampRdma.Wire

namespace RampRdma

open Runs

structure RemoteKeyAndAddr where
  rkey : UInt32
  remote_addr : UInt64

/-- `MSGPACK_DEFINE(rkey, remote_addr)`. -/
def RemoteKeyAndAddr.pack (rka : RemoteKeyAndAddr) : List UInt8 :=
  Msgpack.arrayFamily.pack 2 ++ (Msgpack.packInt rka.rkey.toNat ++ Msgpack.packInt rka.remote_addr.toNat)

/-! ## The executors -/

variable (C : Codec)

namespace RAMPFastExecutor

/-- `com->send(MessageType::RESULT, item)`. -/
def send (item : Item) : Except Fault (List UInt8) := RDMAWriteSocket.send_msg ⟨.RESULT, C.pack item⟩

def get (t : Table) (key : Key) (ts_req : Timestamp) : Except Fault (Table × List UInt8) :=
  if ts_req.is_empty then do
    let (s, item) := t.get_latest_item key
    let packet ← send C item
    return ({ t with toStore := s }, packet)
  else do
    let packet ← send C (t.get_item_by_ver key ts_req)
    return (t, packet)

end RAMPFastExecutor

namespace ACRAMPFastExecutor

variable (rkey : UInt32) (addr : UInt64)

/-- `RemoteKeyAndAddr rka(..)` and `com->send(MessageType::RESULT, item, rka)`; the slots begin at
    `addr`. -/
def send (t : Table) (key : Key) (item : Item) : Except Fault (Table × List UInt8) := do
  let (t, e) ← t.get_item_addr C key
  let rka : RemoteKeyAndAddr := ⟨rkey, addr + .ofNat e⟩
  let packet ← RDMAWriteSocket.send_msg ⟨.RESULT, C.pack item ++ rka.pack⟩
  return (t, packet)

def get_item_and_addr (t : Table) (key : Key) : Except Fault (Table × List UInt8) :=
  let (s, item) := t.get_latest_item key
  send C rkey addr { t with toStore := s } key item

end ACRAMPFastExecutor

/-- No size check fails on `item`: in its turn of a commit, as the answer to a GET, and as the
    answer to a GET_WITH_ADDR. -/
structure Served (rkey : UInt32) (addr : UInt64) (t : Table) (item : Item) : Prop where
  commit : t.commit_item C item.ts item ≠ .error .exit
  get : RAMPFastExecutor.send C item ≠ .error .exit
  get_with_addr : ACRAMPFastExecutor.send C rkey addr t item.key item ≠ .error .exit

variable {C} {rkey : UInt32} {addr : UInt64} {t t' : Table} {item : Item}

/-! ## One path at a time -/

theorem send_msg_exit_iff (msg : Message) :
    RDMAWriteSocket.send_msg msg = .error .exit ↔ PACKET_SIZE - 28 < msg.body.length := by
  have hf : Fits is_arrived msg ↔ ¬ PACKET_SIZE - 28 < msg.body.length := by
    simp only [Fits, PACKET_SIZE, length_is_arrived]
    omega
  unfold RDMAWriteSocket.send_msg
  by_cases h : Fits is_arrived msg
  · rw [send_msg_ok h]
    simpa using hf.mp h
  · rw [send_msg_exit h]
    simpa using not_not.mp (hf.not.mp h)

theorem commit_item_exit_iff {e : Nat} (he : t.committed_items.entries.find item.key = some (some e)) :
    t.commit_item C item.ts item = .error .exit ↔ t.latest item.key < item.ts ∧ ENTRY_SIZE - 32 < (C.pack item).length := by
  have hf : Entry.Fits C item ↔ ¬ ENTRY_SIZE - 32 < (C.pack item).length := by
    simp only [Entry.Fits, ENTRY_SIZE]
    omega
  rw [Table.commit_item_eq, CommittedItems.update, he, ← Timestamp.lt_iff]
  by_cases hlt : (t.latest item.key).lt item.ts = true
  · rw [if_pos hlt]
    by_cases h : Entry.Fits C item
    · simp only [Entry.update_ok C h]
      simpa [bind, Except.bind, pure, Except.pure] using fun _ => not_lt.mp (hf.mp h)
    · simp only [Entry.update_exit C h]
      simpa [bind, Except.bind, hlt] using not_not.mp (hf.not.mp h)
  · rw [if_neg hlt]
    simp [hlt]

/-- The answer depends on the cache alone, not on what `get_latest_item` does to the store. -/
theorem send_exit_iff {key : Key} : ACRAMPFastExecutor.send C rkey addr t key item = .error .exit ↔
    t.committed_items.get_item_addr C key = .error .exit ∨ ∃ r, t.committed_items.get_item_addr C key = .ok r ∧
      PACKET_SIZE - 28 < (C.pack item).length + (RemoteKeyAndAddr.pack ⟨rkey, addr + .ofNat r.2⟩).length := by
  unfold ACRAMPFastExecutor.send Table.get_item_addr
  rcases hr : t.committed_items.get_item_addr C key with f | r
  · simp [bind, Except.bind]
  · have hlen := send_msg_exit_iff ⟨.RESULT, C.pack item ++ RemoteKeyAndAddr.pack ⟨rkey, addr + .ofNat r.2⟩⟩
    rw [List.length_append] at hlen
    show (RDMAWriteSocket.send_msg _ >>= fun packet => .ok (_, packet)) = .error .exit ↔ _
    rw [bind_error]
    simp [hlen]

theorem send_addr_exit_iff {e : Nat} (he : t.committed_items.entries.find item.key = some (some e)) :
    ACRAMPFastExecutor.send C rkey addr t item.key item = .error .exit ↔
      PACKET_SIZE - 28 < (C.pack item).length + (RemoteKeyAndAddr.pack ⟨rkey, addr + .ofNat e⟩).length := by
  have ha : t.committed_items.get_item_addr C item.key = .ok (t.committed_items, e) := by
    simp [CommittedItems.get_item_addr, he, bind, Except.bind, pure, Except.pure]
  rw [send_exit_iff, ha]
  simp

/-- What `Served` says of the executors. -/
theorem Served.get_item_and_addr (h : Served C rkey addr t item) (hl : (t.get_latest_item item.key).2 = item) :
    ACRAMPFastExecutor.get_item_and_addr C rkey addr t item.key ≠ .error .exit := by
  show ACRAMPFastExecutor.send C rkey addr _ item.key (t.get_latest_item item.key).2 ≠ _
  have := h.get_with_addr
  rw [ne_eq, send_exit_iff] at this
  rw [hl, ne_eq, send_exit_iff]
  exact this

theorem Served.get_by_ver (h : Served C rkey addr t item) (hts : item.ts.is_empty = false)
    (hl : t.get_item_by_ver item.key item.ts = item) :
    RAMPFastExecutor.get C t item.key item.ts ≠ .error .exit := by
  unfold RAMPFastExecutor.get
  rw [hts, hl]
  show (RAMPFastExecutor.send C item >>= fun packet => .ok (t, packet)) ≠ .error .exit
  rw [ne_eq, bind_error]
  simpa using h.get

/-! ## The key of a version stays bound -/

theorem commit_item_entries {ts : Timestamp} {i : Item} (h : t.commit_item C ts i = .ok t') :
    t'.committed_items.entries = t.committed_items.entries := by
  rw [Table.commit_item_eq] at h
  split at h
  · obtain ⟨c, hc, h⟩ := bind_ok.mp h
    cases h
    unfold CommittedItems.update at hc
    split at hc
    · cases hc; rfl
    · cases hc
    · obtain ⟨m, _, hc⟩ := bind_ok.mp hc
      cases hc; rfl
  · cases h; rfl

/-- Also in the middle of a commit. -/
theorem prepared_bound {n : Nat} {cs : List Call} {ts : Timestamp} {l : List Item} {t₀ : Table}
    (h : run (Table.call C) (.init n) cs = .ok t₀) (hl : run (Table.commit_item C ts) t₀ l = .ok t)
    (hp : .prepare item ∈ cs) : t.committed_items.entries.find item.key ≠ none := by
  obtain ⟨a, hrun, hs⟩ := (h ▸ calls_sim n cs : RelExcept (TableSim C) (.ok t₀) _).ok_left
  have he : t.committed_items.entries = t₀.committed_items.entries :=
    run_inv (fun t => t.committed_items.entries = t₀.committed_items.entries)
      (fun _ _ _ he h => (commit_item_entries h).trans he) rfl hl
  have hb : a.cache.binding item.key ≠ none := by
    rw [ne_eq, (slot_inv hrun).touched]
    intro hno
    exact hno _ hp rfl
  rw [he]
  intro hf
  have := hs.cache.binding item.key
  rw [hf] at this
  generalize a.cache.binding item.key = b at this hb
  cases this
  exact hb rfl

/-- A version that was prepared, at any later moment: after some calls, and some turns of a
    commit's loop. -/
theorem served_iff {n : Nat} {cs : List Call} {ts : Timestamp} {l : List Item} {t₀ : Table} {packet : List UInt8}
    (h : run (Table.call C) (.init n) cs = .ok t₀) (hl : run (Table.commit_item C ts) t₀ l = .ok t)
    (hp : .prepare item ∈ cs) (ha : RDMAWriteSocket.send_msg ⟨.PREPARE, C.pack item⟩ = .ok packet) :
    Served C rkey addr t item ↔ ∀ e, t.committed_items.entries.find item.key = some (some e) →
      (t.latest item.key < item.ts → (C.pack item).length ≤ 2528) ∧
      (C.pack item).length + (RemoteKeyAndAddr.pack ⟨rkey, addr + .ofNat e⟩).length ≤ 2532 := by
  have hacc : ¬ PACKET_SIZE - 28 < (C.pack item).length := by
    rw [← send_msg_exit_iff ⟨.PREPARE, C.pack item⟩, ha]
    simp
  have hget : RAMPFastExecutor.send C item ≠ .error .exit := (send_msg_exit_iff ⟨.RESULT, C.pack item⟩).not.mpr hacc
  constructor
  · intro hs e he
    have h1 := (commit_item_exit_iff he).not.mp hs.commit
    have h2 := (send_addr_exit_iff he).not.mp hs.get_with_addr
    simp only [ENTRY_SIZE, PACKET_SIZE, not_and, not_lt] at h1 h2
    exact ⟨h1, h2⟩
  · intro hc
    rcases he : t.committed_items.entries.find item.key with _ | _ | e
    · exact absurd he (prepared_bound h hl hp)
    · -- bound to null: not this fault
      refine ⟨?_, hget, ?_⟩
      · rw [Table.commit_item_eq, CommittedItems.update, he]
        split <;> simp [bind, Except.bind]
      · rw [ne_eq, send_exit_iff, CommittedItems.get_item_addr, he]
        simp [bind, Except.bind, pure, Except.pure, he]
    · obtain ⟨h1, h2⟩ := hc e he
      refine ⟨(commit_item_exit_iff he).not.mpr ?_, hget, (send_addr_exit_iff he).not.mpr ?_⟩
      · simpa [ENTRY_SIZE] using h1
      · simpa [PACKET_SIZE] using h2

/-- A version of 2521 bytes, in the first slot: with an address of 11 bytes no byte is left. -/
def largest : Item := { key := "x", values := .ofList [("f", .replicate 2508 0)] compare, ts := ⟨1, 0⟩ }

theorem served_iff_largest : ∃ packet t, RDMAWriteSocket.send_msg ⟨.PREPARE, Wire.msgpack.pack largest⟩ = .ok packet ∧
    run (Table.call Wire.msgpack) (.init ENTRY_NUM) [.prepare largest] = .ok t ∧
    t.committed_items.entries.find "x" = some (some 0) ∧
    (Wire.msgpack.pack largest).length + (RemoteKeyAndAddr.pack ⟨7, 0x7f0000000000 + .ofNat 0⟩).length = 2532 ∧
    Served Wire.msgpack 7 0x7f0000000000 t largest := by
  have hlen : (Wire.msgpack.pack largest).length = 2521 := by decide +kernel
  have hrka : (RemoteKeyAndAddr.pack ⟨7, 0x7f0000000000 + .ofNat 0⟩).length = 11 := by decide +kernel
  obtain ⟨t, h⟩ := ok_of_isOk (show (run (Table.call Wire.msgpack) (.init ENTRY_NUM) [.prepare largest]).isOk = true by decide +kernel)
  have hk : t.committed_items.entries.find "x" = some (some 0) := by
    have hb : ((run (Table.call Wire.msgpack) (.init ENTRY_NUM) [.prepare largest]).toOption.map
      fun t => t.committed_items.entries.find "x") = some (some (some 0)) := by decide +kernel
    rw [h] at hb
    exact Option.some.inj hb
  have ha : RDMAWriteSocket.send_msg ⟨.PREPARE, Wire.msgpack.pack largest⟩ = .ok _ :=
    send_msg_ok (by simp [Fits, hlen, PACKET_SIZE])
  refine ⟨_, t, ha, h, hk, by rw [hlen, hrka],
    (@served_iff Wire.msgpack 7 0x7f0000000000 t largest ENTRY_NUM _ ⟨1, 0⟩ [] t _ h rfl (by simp) ha).mpr fun e he => ?_⟩
  obtain rfl : 0 = e := Option.some.inj (Option.some.inj (hk.symm.trans he))
  rw [hlen, hrka]
  exact ⟨fun _ => by decide, by decide⟩

/-- A version of 2529 bytes. -/
def large : Item := { key := "x", values := .ofList [("f", .replicate 2516 0)] compare, ts := ⟨1, 0⟩ }

/-- Its PREPARE leaves the client, its commit finds no room for it. -/
theorem accepted_exits : ∃ packet t, RDMAWriteSocket.send_msg ⟨.PREPARE, Wire.msgpack.pack large⟩ = .ok packet ∧
    run (Table.call Wire.msgpack) (.init ENTRY_NUM) [.prepare large] = .ok t ∧
    t.commit Wire.msgpack large.ts = .error .exit := by
  have hlen : (Wire.msgpack.pack large).length = 2529 := by decide +kernel
  obtain ⟨t, h, hs⟩ : ∃ t, run (Table.call Wire.msgpack) (.init ENTRY_NUM) [.prepare large] = .ok t ∧
      TableSim Wire.msgpack t ⟨({} : Store).push_back large,
        { (Cache.init ENTRY_NUM).bind "x" (some (.blank true)) with free := 999 }⟩ :=
    (calls_sim ENTRY_NUM [.prepare large]).ok_right
  have ha : RDMAWriteSocket.send_msg ⟨.PREPARE, Wire.msgpack.pack large⟩ = .ok _ := send_msg_ok (by simp [Fits, hlen, PACKET_SIZE])
  refine ⟨_, t, ha, h, ((call_sim hs (.commit large.ts)).error_iff .exit).mpr ?_⟩
  have hf : ¬ Entry.Fits Wire.msgpack large := by simp [Entry.Fits, hlen]
  show run (AbsTable.commit_item Wire.msgpack large.ts) _ [large] = _
  rw [run_cons, AbsTable.commit_item, if_pos (by decide), Cache.update]
  simp only [show large.key = "x" from rfl, Cache.binding_bind_same, if_neg hf]
  rfl

end RampRdma
