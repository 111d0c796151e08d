/-
  RampRdma.Ramp.Collision — what the timestamp of a `put_all` isolates, when the clocks of
  two clients may give the same one.

  A version is readable (`Readable`) if `latest_commit` names it or its key's cache entry
  yields it. `items[ts]` holds the versions of every `put_all` with timestamp `ts`, a
  COMMIT(ts) goes through all of them, and `get_item_by_ver` finds the first of its key.
  - `commit_isolated`: so a COMMIT(ts) makes readable only versions of `put_all`s with
    that timestamp, and once a `put_all` is past its PREPAREs a lookup of its key at its
    timestamp yields a version of one of them: its own, unless another of them writes
    the key.
  - `collision_leaks`: a COMMIT makes another client's version readable before that
    client has sent its last PREPARE; and of three versions of "x" with one timestamp the
    second can be read by no one.
-/

import Mathlib
import RampRdma.Data
import RampRdma.Lib.Runs
import RampRdma.Ramp.Invariant
import RampRdma.Ramp.ReadAtomic
import RampRdma.Wire

namespace RampRdma

open Runs

/-! ## Cache entries -/

theorem poll_fuel {m : Bytes.Mem} {a : Nat} : ∀ {fuel : Nat}, poll fuel m a = some () → poll 1 m a = some () := by
  intro fuel
  induction fuel with
  | zero => intro h; cases h
  | succ n ih =>
    intro h
    unfold poll at h
    split at h
    · rename_i hne
      exact poll_arrived hne 0
    · exact ih h

/-- Polling for longer changes nothing: the local buffer does not change. -/
theorem read_fuel {C : Codec} {m : Bytes.Mem} {fuel : Nat} {r : Int × Option Item}
    (h : RDMAWriteSocket.read C fuel m = some r) : RDMAWriteSocket.read C 1 m = some r := by
  unfold RDMAWriteSocket.read at h ⊢
  obtain ⟨u, h1, h⟩ := Option.bind_eq_some_iff.mp h
  rw [poll_fuel h1]
  simp only [Option.bind_eq_bind, Option.bind_some] at h ⊢
  split at h
  · rename_i hv
    rw [if_pos hv]
    exact h
  · rename_i hv
    rw [if_neg hv]
    obtain ⟨u, h2, h⟩ := Option.bind_eq_some_iff.mp h
    rw [poll_fuel h2]
    exact h

/-- What a one-sided read of the cache entry of `key` gives. -/
def Table.entry (C : Codec) (t : Table) (key : Key) : Option Item :=
  match t.committed_items.entries.find key with
  | some (some addr) =>
    match RDMAWriteSocket.read C 1 (RDMAWriteSocket.contents t.committed_items.mem addr) with
    | some (r, item) => if r = -1 then none else item
    | none => none
  | _ => none

theorem entry_iff_read {C : Codec} {t : Table} {k : Key} {i : Item} :
    t.entry C k = some i ↔ ∃ addr fuel r, t.committed_items.entries.find k = some (some addr) ∧
      RDMAWriteSocket.read C fuel (RDMAWriteSocket.contents t.committed_items.mem addr) = some (r, some i) ∧ r ≠ -1 := by
  unfold Table.entry
  constructor
  · intro h
    split at h
    · rename_i addr ha
      split at h
      · rename_i r item hr
        split at h
        · cases h
        · rename_i hne
          subst h
          exact ⟨addr, 1, r, ha, hr, hne⟩
      · cases h
    · cases h
  · intro ⟨addr, fuel, r, ha, hr, hne⟩
    simp only [ha, read_fuel hr, if_neg hne]

/-- It is what a valid slot holds. -/
theorem entry_iff {C : Codec} {t : Table} {a : Cache} (h : Represents C t.committed_items a) {k : Key} {i : Item} :
    t.entry C k = some i ↔ a.binding k = some (some (.holds true i)) := by
  rw [entry_iff_read]
  constructor
  · intro ⟨addr, fuel, r, ha, hr, hne⟩
    obtain ⟨s, hb, hs⟩ := h.slot ha
    obtain ⟨j, hj, rfl⟩ := read_result hs hr hne
    cases hj
    exact hb
  · intro hb
    have hk := h.binding k
    rw [hb] at hk
    generalize hf : t.committed_items.entries.find k = o at hk
    cases hk with
    | slot hs => exact ⟨_, 1, 0, rfl, RDMAWriteSocket.read_valid hs.1 hs.2 0, by decide⟩

/-- What a reader of `k` can be given: the version `latest_commit` names, or the cache
    entry. -/
def Readable (C : Codec) (t : Table) (k : Key) (i : Item) : Prop :=
  (t.latest k = i.ts ∧ i ∈ t.versions i.ts ∧ i.key = k) ∨ t.entry C k = some i

instance (C : Codec) (t : Table) (k : Key) (i : Item) : Decidable (Readable C t k i) :=
  inferInstanceAs (Decidable (_ ∨ _))

namespace Ramp

variable {cfg : Config}

/-- One step of a COMMIT(ts): what becomes readable is a version at `ts`. -/
theorem serve_commit {C : Codec} {t t' : Table} {x x' : Conn} {ts : Timestamp} {a : Cache}
    (h : serve C t x = some (t', x')) (hx : x.req = some (.COMMIT ts)) (hrep : Represents C t.committed_items a)
    (hrest : ∀ rest, x = .walking ts rest → ∀ i ∈ rest, i ∈ t.versions ts) {k : Key} {i : Item}
    (hi : Readable C t' k i) : Readable C t k i ∨ i ∈ t.versions ts ∧ i.key = k := by
  unfold serve at h
  split at h
  · cases hx
  · cases hx
  · cases h
    exact .inl hi
  · rename_i ts' item rest
    cases hx
    split at h <;> cases h
    rename_i hc
    have hst := commit_item_store hc
    have hm : item ∈ t.versions ts := hrest _ rfl item List.mem_cons_self
    rcases hi with ⟨hl, hv, hk⟩ | he
    · left; left
      rw [hst, Store.touch_latest] at hl
      rw [hst, Store.versions_congr (t.touch_items item.key)] at hv
      exact ⟨hl, hv, hk⟩
    · rw [Table.commit_item_eq] at hc
      split at hc
      · obtain ⟨c, hup, hc⟩ := bind_ok.mp hc
        cases hc
        obtain ⟨a', hab, ha'⟩ := (hup ▸ hrep.update_sim item).ok_left
        obtain ⟨hne, -, hk⟩ := Cache.update_cases hab
        have hb := (entry_iff ha').mp he
        by_cases e : k = item.key
        · subst e
          rcases hk with ⟨-, h1⟩ | ⟨s, -, h1⟩
          · rw [h1] at hb
            cases hb
          · rw [h1] at hb
            cases hb
            exact .inr ⟨hm, rfl⟩
        · rw [hne k e] at hb
          exact .inl (.inr ((entry_iff hrep).mpr hb))
      · cases hc
        exact .inl (.inr he)
  · cases h
    exact .inl hi
  · cases hx
  · cases hx
  · cases hx
  · cases h
  · cases h

/-- Who sent a COMMIT. -/
theorem commit_sent {s : State cfg} (hi : Inv s) {c : Nat} {srv : cfg.cp.Server} {ts : Timestamp}
    (hq : ((s.clients c).conns srv).req = some (.COMMIT ts)) : ∃ p ∈ s.prepared, p.client = c ∧ p.ts = ts := by
  have hph := (hi.clients c).phase
  generalize (s.clients c).phase = ph at hph
  cases ph with
  | idle =>
    rw [hph srv] at hq
    cases hq
  | preparing p todo =>
    obtain ⟨i, -, he, -⟩ := hph.2.2.2.2 srv _ hq
    cases he
  | committing p todo =>
    have he := hph.2.2 srv _ hq
    cases he
    exact ⟨p, hph.1, hph.2.1, rfl⟩
  | first g todo ret =>
    obtain ⟨k, -, he | he⟩ := hph.2 srv _ hq
    · cases he
    · cases he
  | second g v todo ret =>
    obtain ⟨k, -, he⟩ := hph.2 srv _ hq
    cases he

/-- What a COMMIT makes readable, and what a lookup at a `put_all`'s timestamp yields. -/
theorem commit_isolated {s : State cfg} (h : Reachable s) :
    (∀ c srv ts s', ((s.clients c).conns srv).req = some (.COMMIT ts) → step s (.serve c srv) = some s' →
      (∃ p ∈ s.prepared, p.client = c ∧ p.ts = ts) ∧
      ∀ srv' k i, Readable cfg.C (s'.tables srv') k i →
        Readable cfg.C (s.tables srv') k i ∨ ∃ q ∈ s.puts, q.ts = ts ∧ i ∈ q.items ∧ i.key = k) ∧
    ∀ p ∈ s.prepared, ∀ k ∈ p.trx.write_set,
      (∃ q ∈ s.puts, q.ts = p.ts ∧ q.trx.write_set[k]? = some ((s.tables (cfg.cp.get k)).get_item_by_ver k p.ts).values) ∧
      ((∀ q ∈ s.puts, q.ts = p.ts → k ∈ q.trx.write_set → q = p) →
        p.trx.write_set[k]? = some ((s.tables (cfg.cp.get k)).get_item_by_ver k p.ts).values) := by
  have hi := inv h
  refine ⟨fun c srv ts s' hq hs => ⟨commit_sent hi hq, fun srv' k i hr => ?_⟩, fun p hp k hk => ?_⟩
  · simp only [step] at hs
    split at hs
    · rename_i t x hsv
      cases hs
      have hr : Readable cfg.C (Function.update s.tables srv t srv') k i := hr
      by_cases e : srv' = srv
      · subst e
        rw [Function.update_self] at hr
        obtain ⟨a, ha, -⟩ := (hi.tables srv').cache
        have hok := (hi.clients c).conns srv'
        have hrest : ∀ rest, (s.clients c).conns srv' = .walking ts rest → ∀ i ∈ rest, i ∈ (s.tables srv').versions ts := by
          intro rest e
          rwa [e] at hok
        rcases serve_commit hsv hq ha hrest hr with hr | ⟨hm, hk⟩
        · exact .inl hr
        · obtain ⟨hts, ⟨q, hqm, hqi⟩, -⟩ := (hi.tables srv').versions ts i hm
          exact .inr ⟨q, hqm, by rw [← (mem_items.mp hqi).2.1, hts], hqi, hk⟩
      · rw [Function.update_of_ne e] at hr
        exact .inl hr
    · cases hs
  · -- the version is there, so the lookup finds one of its key
    obtain ⟨j, hj, rfl⟩ := mem_items_of_write hk
    have hst := (hi.prepared p hp).2 j hj
    rw [Stored, (mem_items.mp hj).2.1] at hst
    obtain ⟨q, hqm, hqt, hq⟩ : ∃ q ∈ s.puts, q.ts = p.ts ∧
        q.trx.write_set[j.key]? = some ((s.tables (cfg.cp.get j.key)).get_item_by_ver j.key p.ts).values := by
      rcases get_item_by_ver_cases (s.tables (cfg.cp.get j.key)).toStore j.key p.ts with ⟨hm, hkey⟩ | ⟨-, hno⟩
      · obtain ⟨hts, ⟨q, hqm, hqi⟩, -⟩ := (hi.tables _).versions _ _ hm
        obtain ⟨hv, hqt, -⟩ := mem_items.mp hqi
        rw [hkey] at hv
        exact ⟨q, hqm, by rw [← hqt, hts], hv⟩
      · exact absurd rfl (hno j hst)
    refine ⟨⟨q, hqm, hqt, hq⟩, fun huniq => ?_⟩
    have hmem : j.key ∈ q.trx.write_set := by
      rw [← Std.ExtTreeMap.isSome_getElem?_iff_mem, hq]
      rfl
    have hqp : q = p := huniq q hqm hqt hmem
    subst hqp
    exact hq

/-- Client 1's `put_all` of "y" and "z", and its version of "y". -/
def putYZ : PutAll := ⟨1, Transaction.add_write (Transaction.add_write {} "y" ∅) "z" ∅, ⟨1, 0⟩⟩

def versionY : Item := putYZ.items.headD .empty

/-- Client 1 has sent one of its two PREPAREs, client 0 the COMMIT of its `put_all` of "x" at
    the same timestamp. -/
def leaking : List (Act (one fun _ => false)) := List.flatten
  [[.put_all 1 putYZ.trx putYZ.ts, .prepare 1 versionY], answering 1 2,
    preparing 0 (Transaction.add_write {} "x" ∅) ⟨1, 0⟩, (committing 0 1).take 2]

def writeXAs (v : UInt8) : Transaction := Transaction.add_write {} "x" {("f", [v])}

/-- Three `put_all`s of "x" at one timestamp. -/
def colliding : List (Act (one fun _ => false)) := List.flatten
  [preparing 0 (writeXAs 0) ⟨1, 0⟩, preparing 1 (writeXAs 1) ⟨1, 0⟩, preparing 2 (writeXAs 2) ⟨1, 0⟩,
    committing 0 3, committing 1 3, committing 2 3]

theorem commit_isolated_leaking : ∃ s s' : State (one fun _ => false), Reachable s ∧
    ((s.clients 0).conns 0).req = some (.COMMIT ⟨1, 0⟩) ∧ step s (.serve 0 0) = some s' ∧ s.prepared.length = 1 ∧
    ((∃ p ∈ s.prepared, p.client = 0 ∧ p.ts = ⟨1, 0⟩) ∧
      ∀ srv' k i, Readable Wire.msgpack (s'.tables srv') k i →
        Readable Wire.msgpack (s.tables srv') k i ∨ ∃ q ∈ s.puts, q.ts = ⟨1, 0⟩ ∧ i ∈ q.items ∧ i.key = k) ∧
    ∀ p ∈ s.prepared, ∀ k ∈ p.trx.write_set,
      (∃ q ∈ s.puts, q.ts = p.ts ∧ q.trx.write_set[k]? = some ((s.tables 0).get_item_by_ver k p.ts).values) ∧
      ((∀ q ∈ s.puts, q.ts = p.ts → k ∈ q.trx.write_set → q = p) →
        p.trx.write_set[k]? = some ((s.tables 0).get_item_by_ver k p.ts).values) := by
  have hrun : (exec {} leaking).any (fun s => decide (((s.clients 0).conns 0).req = some (.COMMIT ⟨1, 0⟩)) &&
      (step s (.serve 0 0)).isSome && decide (s.prepared.length = 1)) = true := by decide +kernel
  obtain ⟨s, hr, hs⟩ := exec_any hrun
  obtain ⟨hs, hl⟩ := Bool.and_eq_true_iff.mp hs
  obtain ⟨hq, hs⟩ := Bool.and_eq_true_iff.mp hs
  have hq := of_decide_eq_true hq
  obtain ⟨s', hs⟩ := Option.isSome_iff_exists.mp hs
  have hiso := commit_isolated hr
  exact ⟨s, s', hr, hq, hs, of_decide_eq_true hl, hiso.1 0 0 ⟨1, 0⟩ s' hq hs, hiso.2⟩

theorem collision_leaks :
    (∃ s s' : State (one fun _ => false), Reachable s ∧ ((s.clients 0).conns 0).req = some (.COMMIT ⟨1, 0⟩) ∧
      step s (.serve 0 0) = some s' ∧ ∃ i, Readable Wire.msgpack (s'.tables 0) "y" i ∧
      ¬ Readable Wire.msgpack (s.tables 0) "y" i ∧ ∀ p ∈ s.prepared, i ∉ p.items) ∧
    ∃ s : State (one fun _ => false), Reachable s ∧ ∃ p ∈ s.returned, "x" ∈ p.trx.write_set ∧
      (∀ q ∈ s.puts, ¬ p.ts < q.ts) ∧
      p.trx.write_set["x"]? ≠ some ((s.tables 0).get_item_by_ver "x" p.ts).values ∧
      ∀ i, (s.tables 0).entry Wire.msgpack "x" = some i → p.trx.write_set["x"]? ≠ some i.values := by
  constructor
  · have hrun : (exec {} leaking).any (fun s => decide (((s.clients 0).conns 0).req = some (.COMMIT ⟨1, 0⟩)) &&
        (step s (.serve 0 0)).any fun s' => decide (Readable Wire.msgpack (s'.tables 0) "y" versionY ∧
          ¬ Readable Wire.msgpack (s.tables 0) "y" versionY ∧ ∀ p ∈ s.prepared, versionY ∉ p.items)) = true := by
      decide +kernel
    obtain ⟨s, hr, hs⟩ := exec_any hrun
    obtain ⟨hq, hs⟩ := Bool.and_eq_true_iff.mp hs
    obtain ⟨s', hst, hs⟩ := (Option.any_eq_true _ _).mp hs
    exact ⟨s, s', hr, of_decide_eq_true hq, hst, _, of_decide_eq_true hs⟩
  · have hrun : (exec {} colliding).any (fun s => decide (⟨1, writeXAs 1, ⟨1, 0⟩⟩ ∈ s.returned ∧
        (∀ q ∈ s.puts, ¬ (⟨1, 0⟩ : Timestamp) < q.ts) ∧
        (writeXAs 1).write_set["x"]? ≠ some ((s.tables 0).get_item_by_ver "x" ⟨1, 0⟩).values) &&
        ((s.tables 0).entry Wire.msgpack "x").any fun i => decide ((writeXAs 1).write_set["x"]? ≠ some i.values)) = true := by
      decide +kernel
    obtain ⟨s, hr, hs⟩ := exec_any hrun
    obtain ⟨hs, he⟩ := Bool.and_eq_true_iff.mp hs
    obtain ⟨hm, hno, hv⟩ := of_decide_eq_true hs
    refine ⟨s, hr, _, hm, by decide, hno, hv, fun i hi => ?_⟩
    rw [hi] at he
    exact of_decide_eq_true he

end Ramp

end RampRdma
