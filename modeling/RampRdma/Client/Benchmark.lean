/-
  RampRdma.Client.Benchmark — what the client program does in its RAMP-Fast mode, from
  `gen_test_trxs` to the numbers it prints.

  Each generated transaction writes, or reads, `trx_len` keys drawn from `"1"` to
  `data_num`; the draws are any (`key_dice`), and the shuffled queue is any permutation.
  - `item_le`: a version of such a transaction is at most `value_size + 9 trx_len + 61` bytes.
  - `client_ends`: so where `data_num` is at most `ENTRY_NUM` and the versions fit a slot,
    every run ends with all workers joined, `write_trx_num` `put_all`s and `read_trx_num`
    `get_all`s returned, which is what `print_result` divides by the run time.

  As in `Ramp.System`, requests and answers are handed over whole and as they were sent, and a
  server's calls of `CommittedItems` each run to completion before the next. Neither is so of
  every run of the code: see `Net.Framing`, `Net.Mailbox` and `Server.Interleaving`.
-/

import Mathlib
import RampRdma.Client.TrxQueue
import RampRdma.Client.Workers

namespace RampRdma.Benchmark

open Bytes Ramp Machine Msgpack Workers

/-- The fields of `Config` that `gen_test_trxs` reads. -/
structure Params where
  data_num : Nat
  trx_len : Nat
  write_trx_num : Nat
  read_trx_num : Nat
  value_size : Nat

/-- One turn of the loop over the write transactions. -/
def write_trx (keys : List Key) (values : Map Field Value) : Transaction := keys.foldl (fun trx key => trx.add_write key values) {}

def read_trx (keys : List Key) (fields : OrdSet Field) : Transaction := keys.foldl (fun trx key => trx.add_read key fields) {}

variable (p : Params) (key_dice : Nat → Nat) (value_dice : Nat → Fin 10) (m : Mem)

/-- The keys drawn for transaction `i`. -/
def keys_of (i : Nat) : List Key := (List.range p.trx_len).map fun j => toString (key_dice (i * p.trx_len + j))

/-- `m` is what the new `val_str` holds. -/
def values : Map Field Value := (∅ : Map Field Value).insert "f" (TrxQueue.value p.value_size value_dice m)

def fields : OrdSet Field := (∅ : OrdSet Field).insert "f"

def gen_test_trxs : List Transaction :=
  (List.range p.write_trx_num).map (fun i => write_trx (keys_of p key_dice i) (values p value_dice m)) ++
    (List.range p.read_trx_num).map fun i => read_trx (keys_of p key_dice (p.write_trx_num + i)) fields

/-! ## What is generated -/

section
variable {keys : List Key} {values : Map Field Value} {fields : OrdSet Field}

theorem write_trx_snoc (keys : List Key) (key : Key) (values : Map Field Value) :
    write_trx (keys ++ [key]) values = (write_trx keys values).add_write key values := by simp [write_trx]

theorem read_trx_snoc (keys : List Key) (key : Key) (fields : OrdSet Field) :
    read_trx (keys ++ [key]) fields = (read_trx keys fields).add_read key fields := by simp [read_trx]

theorem write_trx_read_set (keys : List Key) (values : Map Field Value) : (write_trx keys values).read_set = ∅ := by
  induction keys using List.reverseRecOn with
  | nil => rfl
  | append_singleton keys key ih => rw [write_trx_snoc, Transaction.add_write, ih]

theorem read_trx_write_set (keys : List Key) (fields : OrdSet Field) : (read_trx keys fields).write_set = ∅ := by
  induction keys using List.reverseRecOn with
  | nil => rfl
  | append_singleton keys key ih => rw [read_trx_snoc, Transaction.add_read, ih]

theorem write_trx_write_set (k : Key) : (write_trx keys values).write_set[k]? = if k ∈ keys then some values else none := by
  induction keys using List.reverseRecOn with
  | nil => simp [write_trx]
  | append_singleton keys key ih =>
    rw [write_trx_snoc, Transaction.add_write, Std.ExtTreeMap.getElem?_insert, ih]
    by_cases e : key = k
    · simp [e]
    · simp [e, Ne.symm e]

theorem read_trx_read_set (k : Key) : k ∈ (read_trx keys fields).read_set ↔ k ∈ keys := by
  induction keys using List.reverseRecOn with
  | nil => simp [read_trx]
  | append_singleton keys key ih =>
    rw [read_trx_snoc, Transaction.add_read, Std.ExtTreeMap.mem_insert, ih, List.mem_append, List.mem_singleton, or_comm,
      compare_eq_iff_eq, eq_comm]

theorem write_trx_access_keys (k : Key) : k ∈ (write_trx keys values).access_keys ↔ k ∈ keys := by
  induction keys using List.reverseRecOn with
  | nil => simp [write_trx]
  | append_singleton keys key ih =>
    rw [write_trx_snoc, Transaction.add_write, Std.ExtTreeSet.mem_insert, ih, List.mem_append, List.mem_singleton, or_comm,
      compare_eq_iff_eq, eq_comm]

theorem access_keys_size : (write_trx keys values).access_keys.size ≤ keys.length := by
  induction keys using List.reverseRecOn with
  | nil => simp [write_trx]
  | append_singleton keys key ih =>
    have hs := Std.ExtTreeSet.size_insert_le (t := (write_trx keys values).access_keys) (k := key)
    rw [write_trx_snoc, Transaction.add_write, List.length_append, List.length_singleton]
    exact hs.trans (Nat.succ_le_succ ih)

theorem writes_iff : Writes (write_trx keys values) ↔ keys ≠ [] := by
  unfold Writes
  rcases keys with _ | ⟨key, keys⟩
  · simp [write_trx]
  · have h : (write_trx (key :: keys) values).write_set[key]? = _ := write_trx_write_set key
    rw [if_pos List.mem_cons_self] at h
    have hm : key ∈ (write_trx (key :: keys) values).write_set := by
      rw [Std.ExtTreeMap.mem_iff_isSome_getElem?, h]
      rfl
    have hne : (write_trx (key :: keys) values).write_set ≠ ∅ := fun h0 => by simp [h0] at hm
    simp [hne]

theorem reads_iff : Reads (read_trx keys fields) ↔ keys ≠ [] := by
  unfold Reads
  rcases keys with _ | ⟨key, keys⟩
  · simp [read_trx]
  · have hm : key ∈ (read_trx (key :: keys) fields).read_set := (read_trx_read_set key).mpr List.mem_cons_self
    have hne : (read_trx (key :: keys) fields).read_set ≠ ∅ := fun h0 => by simp [h0] at hm
    simp [hne]

end

/-! ## How large the versions are -/

/-- A key of at most four bytes. -/
def Short (k : Key) : Prop := k.toByteArray.data.toList.length ≤ 4

instance (k : Key) : Decidable (Short k) := inferInstanceAs (Decidable (_ ≤ _))

theorem short_toString {n : Nat} (h : n ≤ ENTRY_NUM) : Short (toString n) := by
  have hall : ∀ n ∈ List.range 1001, (toString n).toByteArray.data.toList.length ≤ 4 := by decide +kernel
  exact hall n (List.mem_range.mpr (Nat.lt_succ_of_le h))

theorem widths : (∀ f ∈ strFamily.forms, f.2 ≤ 4) ∧ (∀ f ∈ binFamily.forms, f.2 ≤ 4) ∧ (∀ f ∈ arrayFamily.forms, f.2 ≤ 4) ∧
    ∀ f ∈ mapFamily.forms, f.2 ≤ 4 := by decide

theorem str_le {k : Key} (h : Short k) : (Wire.str.pack k).length ≤ 9 := by
  have := bytes_le widths.1 k.toByteArray.data.toList
  exact this.trans (Nat.add_le_add_left h 5)

theorem timestamp_le (ts : Timestamp) : (Wire.timestamp.pack ts).length ≤ 23 := by
  have h1 := packInt_le ts.sec.toInt
  have h2 := packInt_le ts.usec.toInt
  have h3 := Family.pack_le widths.2.2.1 2
  show (arrayFamily.pack 2 ++ (packInt ts.sec.toInt ++ packInt ts.usec.toInt)).length ≤ 23
  rw [List.length_append, List.length_append]
  omega

theorem values_le {values : Map Field Value} {n : Nat} (hs : values.size ≤ 1) (hv : ∀ f v, values[f]? = some v → Short f ∧ v.length ≤ n) :
    ((Wire.map Wire.bin).pack values).length ≤ 19 + n := by
  have hm := many_le widths.2.2.2 (f := pair Wire.str Wire.bin) (c := 14 + n) (l := values.toList) fun a ha => by
    obtain ⟨hf, hlen⟩ := hv a.1 a.2 (Std.ExtTreeMap.mem_toList_iff_getElem?_eq_some.mp ha)
    have h1 := str_le hf
    have h2 := bytes_le widths.2.1 a.2
    show (Wire.str.pack a.1 ++ (bytes binFamily).pack a.2).length ≤ _
    rw [List.length_append]
    omega
  rw [Std.ExtTreeMap.length_toList] at hm
  have : values.size * (14 + n) ≤ 1 * (14 + n) := Nat.mul_le_mul_right _ hs
  exact hm.trans (by omega)

theorem set_le {keys : OrdSet Key} (h : ∀ k ∈ keys, Short k) : (Wire.set.pack keys).length ≤ 5 + keys.size * 9 := by
  have hm := many_le widths.2.2.1 (f := Wire.str) (c := 9) (l := keys.toList) fun k hk =>
    str_le (h k (Std.ExtTreeSet.mem_toList.mp hk))
  rwa [Std.ExtTreeSet.length_toList] at hm

theorem item_le {i : Item} {n : Nat} (hk : Short i.key) (hs : i.values.size ≤ 1)
    (hv : ∀ f v, i.values[f]? = some v → Short f ∧ v.length ≤ n) (ht : ∀ k ∈ i.trx_keys, Short k) :
    (Wire.msgpack.pack i).length ≤ 61 + n + 9 * i.trx_keys.size := by
  have h1 := Family.pack_le widths.2.2.1 4
  have h2 := str_le hk
  have h3 := values_le hs hv
  have h4 := timestamp_le i.ts
  have h5 := set_le ht
  show (arrayFamily.pack 4 ++ (Wire.str.pack i.key ++ ((Wire.map Wire.bin).pack i.values ++
    (Wire.timestamp.pack i.ts ++ Wire.set.pack i.trx_keys)))).length ≤ _
  simp only [List.length_append]
  omega

/-! ## The whole run -/

/-- RAMP-Fast on the servers of `cp`. -/
abbrev ramp_fast (cp : ConnectionPool) : Config := ⟨cp, Wire.msgpack, fun _ => false⟩

/-- `"1"` to `data_num`. -/
def test_keys (data_num : Nat) : Finset Key := (Finset.Icc 1 data_num).image toString

variable {p key_dice value_dice m}

theorem mem_test_keys (hk : ∀ i, 1 ≤ key_dice i ∧ key_dice i ≤ p.data_num) {i : Nat} {k : Key} (h : k ∈ keys_of p key_dice i) :
    k ∈ test_keys p.data_num := by
  obtain ⟨j, -, rfl⟩ := List.mem_map.mp h
  exact Finset.mem_image_of_mem _ (Finset.mem_Icc.mpr (hk _))

theorem short_test_keys {n : Nat} (hd : n ≤ ENTRY_NUM) {k : Key} (h : k ∈ test_keys n) : Short k := by
  obtain ⟨m, hm, rfl⟩ := Finset.mem_image.mp h
  exact short_toString ((Finset.mem_Icc.mp hm).2.trans hd)

theorem length_keys_of (i : Nat) : (keys_of p key_dice i).length = p.trx_len := by simp [keys_of]

theorem keys_of_ne_nil {i : Nat} : keys_of p key_dice i ≠ [] ↔ 0 < p.trx_len := by
  have h : (keys_of p key_dice i).length = p.trx_len := length_keys_of i
  rw [← h, List.length_pos_iff]

variable {cp : ConnectionPool}

/-- The one field is `"f"`. -/
theorem values_one (p : Params) (value_dice : Nat → Fin 10) (m : Mem) : (values p value_dice m).size ≤ 1 ∧
    ∀ f v, (values p value_dice m)[f]? = some v → Short f ∧ v.length ≤ p.value_size := by
  refine ⟨by simp [values, Std.ExtTreeMap.size_insert], fun f v hv => ?_⟩
  rw [values, Std.ExtTreeMap.getElem?_insert] at hv
  split at hv
  · rename_i hf
    cases hv
    rw [compare_eq_iff_eq] at hf
    subst hf
    exact ⟨by decide, by simp [TrxQueue.value]⟩
  · simp at hv

theorem write_fits {keys : List Key} {values : Map Field Value} (hk : ∀ k ∈ keys, Short k) (hl : keys.length = p.trx_len)
    (hs : values.size ≤ 1) (hv : ∀ f v, values[f]? = some v → Short f ∧ v.length ≤ p.value_size)
    (hsz : p.value_size + 9 * p.trx_len ≤ 2467) {k : Key} (hm : k ∈ keys) (ts : Timestamp) :
    Entry.Fits Wire.msgpack ⟨k, values, ts, (write_trx keys values).access_keys⟩ := by
  have hsize : (write_trx keys values).access_keys.size ≤ keys.length := access_keys_size
  have hle := item_le (i := ⟨k, values, ts, (write_trx keys values).access_keys⟩) (hk k hm) hs hv fun k h =>
    hk k ((write_trx_access_keys k).mp h)
  show 4 + 24 + (Wire.msgpack.pack _).length + 4 ≤ 2560
  have hle : (Wire.msgpack.pack ⟨k, values, ts, (write_trx keys values).access_keys⟩).length ≤
    61 + p.value_size + 9 * (write_trx keys values).access_keys.size := hle
  omega

/-- Every key of a generated transaction is one of the test keys, and every version fits a slot. -/
theorem gen_within (hk : ∀ i, 1 ≤ key_dice i ∧ key_dice i ≤ p.data_num) (hd : p.data_num ≤ ENTRY_NUM)
    (hsz : p.value_size + 9 * p.trx_len ≤ 2467) {trx : Transaction} (ht : trx ∈ gen_test_trxs p key_dice value_dice m) :
    TrxWithin (ramp_fast cp) (test_keys p.data_num) trx := by
  rcases List.mem_append.mp ht with ht | ht
  · obtain ⟨i, -, rfl⟩ := List.mem_map.mp ht
    have hkeys : ∀ k ∈ keys_of p key_dice i, k ∈ test_keys p.data_num := fun k => mem_test_keys hk
    refine ⟨fun k h => ?_, fun c ts it hit => ?_⟩
    · rw [write_trx_read_set] at h
      cases h
    · obtain ⟨⟨k, values⟩, hw, rfl⟩ := List.mem_map.mp hit
      have hw := Std.ExtTreeMap.mem_toList_iff_getElem?_eq_some.mp hw
      rw [write_trx_write_set] at hw
      split at hw <;> cases hw
      rename_i hmem
      refine ⟨hkeys k hmem, write_fits (fun k h => short_test_keys hd (hkeys k h)) (length_keys_of i) (values_one p value_dice m).1
        (values_one p value_dice m).2 hsz hmem ts⟩
  · obtain ⟨i, -, rfl⟩ := List.mem_map.mp ht
    refine ⟨fun k h => ?_, fun c ts it hit => ?_⟩
    · exact mem_test_keys hk ((read_trx_read_set k).mp (Std.ExtTreeMap.mem_keys.mp h))
    · obtain ⟨w, hw, -⟩ := List.mem_map.mp hit
      have hw := Std.ExtTreeMap.mem_toList_iff_getElem?_eq_some.mp hw
      simp only [read_trx_write_set] at hw
      simp at hw

theorem not_reads_write (keys : List Key) (values : Map Field Value) : ¬ Reads (write_trx keys values) := by
  simp [Reads, write_trx_read_set]

theorem not_writes_read (keys : List Key) (fields : OrdSet Field) : ¬ Writes (read_trx keys fields) := by
  simp [Writes, read_trx_write_set]

theorem count_map {P : Transaction → Prop} [DecidablePred P] {b : Prop} [Decidable b] {f : Nat → Transaction} (n : Nat)
    (h : ∀ i, P (f i) ↔ b) : (((List.range n).map f).filter P).length = if b then n else 0 := by
  induction n with
  | zero => simp
  | succ n ih =>
    rw [List.range_succ, List.map_append, List.filter_append, List.length_append, ih]
    by_cases hb : b
    · simp [hb, (h n).mpr hb]
    · simp [hb, mt (h n).mp hb]

/-- A transaction of no operations is neither put nor read. -/
theorem gen_counts : ((gen_test_trxs p key_dice value_dice m).filter Writes).length = (if 0 < p.trx_len then p.write_trx_num else 0) ∧
    ((gen_test_trxs p key_dice value_dice m).filter Reads).length = if 0 < p.trx_len then p.read_trx_num else 0 := by
  have hw : ∀ i, Writes (write_trx (keys_of p key_dice i) (values p value_dice m)) ↔ 0 < p.trx_len :=
    fun i => writes_iff.trans keys_of_ne_nil
  have hr : ∀ i, Reads (read_trx (keys_of p key_dice (p.write_trx_num + i)) fields) ↔ 0 < p.trx_len :=
    fun i => reads_iff.trans keys_of_ne_nil
  have hw' : ∀ i, Writes (read_trx (keys_of p key_dice (p.write_trx_num + i)) fields) ↔ False :=
    fun i => iff_false_intro (not_writes_read _ _)
  have hr' : ∀ i, Reads (write_trx (keys_of p key_dice i) (values p value_dice m)) ↔ False :=
    fun i => iff_false_intro (not_reads_write _ _)
  unfold gen_test_trxs
  rw [List.filter_append, List.filter_append, List.length_append, List.length_append, count_map _ hw, count_map _ hr,
    count_map _ hw', count_map _ hr']
  simp

theorem card_keysOf (cp : ConnectionPool) {n : Nat} (hd : n ≤ ENTRY_NUM) (srv : cp.Server) :
    (keysOf cp (test_keys n) srv).card ≤ ENTRY_NUM := by
  calc (keysOf cp (test_keys n) srv).card ≤ (test_keys n).card := Finset.card_filter_le _ _
    _ ≤ (Finset.Icc 1 n).card := Finset.card_image_le
    _ = n := by simp
    _ ≤ ENTRY_NUM := hd

theorem fits_key {n : Nat} (hd : n ≤ ENTRY_NUM) {k : Key} (hk : k ∈ test_keys n) : Entry.Fits Wire.msgpack (.of_key k) := by
  have hle := item_le (i := .of_key k) (n := 0) (short_test_keys hd hk) (by simp) (fun f v h => by simp at h) (fun k h => by simp at h)
  have h0 : (Item.of_key k).trx_keys.size = 0 := by simp
  rw [h0] at hle
  show 4 + 24 + (Wire.msgpack.pack (.of_key k)).length + 4 ≤ 2560
  omega

variable {worker_num : Nat} {queue : List Transaction} {s : Workers.State (ramp_fast cp)}

/-- No run goes on for ever; and where one ends, every worker has joined, and the generated
    transactions have been executed, each once. Messages are handed over whole, and the calls
    of a server's `CommittedItems` do not overlap (`Ramp.serve`). -/
theorem client_ends (hn : 0 < worker_num) (hk : ∀ i, 1 ≤ key_dice i ∧ key_dice i ≤ p.data_num) (hd : p.data_num ≤ ENTRY_NUM)
    (hsz : p.value_size + 9 * p.trx_len ≤ 2467)
    (hq : queue.Perm (gen_test_trxs p key_dice value_dice m)) (h : Reach (step worker_num) Any { trx_queue := queue } s) :
    Acc (fun s2 s1 => ∃ a, step worker_num s1 a = some s2) s ∧
    ((∀ a, step worker_num s a = none) → (∀ w < worker_num, s.pc w = .joined) ∧ s.done.Perm (gen_test_trxs p key_dice value_dice m) ∧
      s.sys.returned.length = (if 0 < p.trx_len then p.write_trx_num else 0) ∧
      s.sys.gets.length = if 0 < p.trx_len then p.read_trx_num else 0) := by
  refine ⟨after_acc s, fun hstuck => ?_⟩
  have hj : ∀ w < worker_num, s.pc w = .joined := fun w => stuck_joined (card_keysOf cp hd)
    (fun _ => fits_key hd) (fun _ => rfl) (fun trx ht => gen_within hk hd hsz (hq.mem_iff.mp ht)) h hstuck
  obtain ⟨hdone, hput, hgot⟩ := (executes_once hn h).2 hj
  have h1 := (hput.trans (hq.filter _)).length_eq
  have h2 := (hgot.trans (hq.filter _)).length_eq
  rw [gen_counts.1, put_trxs, List.length_map] at h1
  rw [gen_counts.2, got_trxs, List.length_map] at h2
  exact ⟨hj, hdone.trans hq, h1, h2⟩

/-- With the default sizes. -/
def default_queue : List Transaction :=
  gen_test_trxs ⟨1000, 8, 500, 700, 1000⟩ (fun i => i % 1000 + 1) (fun _ => 7) fun _ => 0

/-- Eight workers on two servers. -/
theorem client_ends_default : ∃ s : Workers.State (ramp_fast ⟨2, String.length, Nat.two_pos⟩),
    Reach (step 8) Any { trx_queue := default_queue } s ∧ (∀ w < 8, s.pc w = .joined) ∧ s.sys.returned.length = 500 ∧
      s.sys.gets.length = 700 := by
  obtain ⟨s, hs, hstuck⟩ := ends 8 ({ trx_queue := default_queue } : Workers.State (ramp_fast ⟨2, String.length, Nat.two_pos⟩))
  have h := (client_ends (by decide) (fun i => ⟨Nat.le_add_left _ _, Nat.mod_lt _ (by decide)⟩) (by decide) (by decide)
    (.refl _) hs).2 hstuck
  exact ⟨s, hs, h.1, h.2.2⟩

end RampRdma.Benchmark
