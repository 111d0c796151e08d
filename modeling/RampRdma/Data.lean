/-
  RampRdma.Data — the data model both programs share (`include/common/data`,
  `src/common/data/Timestamp.cpp`, `src/common/service/Transaction.cpp`).

  `std::map` and `std::set` are the standard library's extensional tree maps and sets
  (iterated in key order); `Key` and `Field` are `std::string`; a `Value` is the bytes its
  `raw_ref` views; `long` is `Int64`. Timestamps are ordered by `operator <`, which is the
  lexicographic order on seconds and microseconds (`lt_iff`, `gt_iff`).

  `Codec` is MessagePack's `pack` and `unpack` of an `Item`. The library is not part of
  the repository; the one thing assumed of it is that decoding inverts encoding, for
  encodings no longer than a packet (longer ones never leave their sender).
-/

import Mathlib

namespace RampRdma

abbrev Map (K V : Type) [Ord K] := Std.ExtTreeMap K V compare

abbrev OrdSet (K : Type) [Ord K] := Std.ExtTreeSet K compare

/-- `tbb::concurrent_unordered_map`: what it binds each key to. -/
def ConcurrentMap (K V : Type) := K → Option V

namespace ConcurrentMap

variable {K V : Type}

def empty : ConcurrentMap K V := fun _ => none

/-- `find`, and `at` without its exception. -/
def find (m : ConcurrentMap K V) (k : K) : Option V := m k

@[simp] theorem find_empty (k : K) : (empty : ConcurrentMap K V).find k = none := rfl

variable [DecidableEq K]

/-- `m[k] = v`. -/
def set (m : ConcurrentMap K V) (k : K) (v : V) : ConcurrentMap K V := fun k' => if k' = k then some v else m k'

/-- `m.insert({k, v})`: an existing binding stays. -/
def insert (m : ConcurrentMap K V) (k : K) (v : V) : ConcurrentMap K V :=
  match m.find k with
  | some _ => m
  | none => m.set k v

@[simp] theorem find_set_same (m : ConcurrentMap K V) (k : K) (v : V) : (m.set k v).find k = some v := by
  simp [find, set]

theorem find_set_ne (m : ConcurrentMap K V) {k k' : K} (v : V) (h : k' ≠ k) : (m.set k v).find k' = m.find k' := by
  simp [find, set, h]

theorem find_set (m : ConcurrentMap K V) (k k' : K) (v : V) :
    (m.set k v).find k' = if k' = k then some v else m.find k' := rfl

theorem insert_bound {m : ConcurrentMap K V} {k : K} {w : V} (h : m.find k = some w) (v : V) : m.insert k v = m := by
  simp [insert, h]

theorem insert_unbound {m : ConcurrentMap K V} {k : K} (h : m.find k = none) (v : V) : m.insert k v = m.set k v := by
  simp [insert, h]

end ConcurrentMap

abbrev Key := String

abbrev Field := String

abbrev Value := List UInt8

/-! ## Timestamp -/

structure Timestamp where
  sec : Int64 := 0
  usec : Int64 := 0
  deriving DecidableEq, Repr

namespace Timestamp

/-- `Timestamp()`. -/
abbrev empty : Timestamp := {}

def lt (a b : Timestamp) : Bool := if a.sec = b.sec then a.usec < b.usec else a.sec < b.sec

def gt (a b : Timestamp) : Bool := if a.sec = b.sec then b.usec < a.usec else b.sec < a.sec

def is_empty (a : Timestamp) : Bool := a = empty

def rank (a : Timestamp) : Lex (Int × Int) := toLex (a.sec.toInt, a.usec.toInt)

theorem rank_injective : Function.Injective rank := by
  intro ⟨s, u⟩ ⟨s', u'⟩ h
  simp only [rank, EmbeddingLike.apply_eq_iff_eq, Prod.mk.injEq, Int64.toInt_inj] at h
  rw [h.1, h.2]

instance : LinearOrder Timestamp := LinearOrder.lift' rank rank_injective

theorem lt_iff (a b : Timestamp) : a.lt b = true ↔ a < b := by
  have h : a < b ↔ a.rank < b.rank := Iff.rfl
  rw [h, lt, rank, rank, Prod.Lex.toLex_lt_toLex]
  simp only [Int64.toInt_inj, ← Int64.lt_iff_toInt_lt]
  split
  · rename_i e; simp [e]
  · rename_i e; simp [e]

theorem gt_iff (a b : Timestamp) : a.gt b = true ↔ b < a := by
  have h : a.gt b = b.lt a := by simp only [gt, lt, eq_comm]
  rw [h, lt_iff]

end Timestamp

/-- What `now()` gave to the elements of `l`: no timestamp twice, and none before or at
    `Timestamp()`. -/
structure Clocks {A : Type} (ts : A → Timestamp) (l : List A) : Prop where
  distinct : (l.map ts).Nodup
  positive : ∀ a ∈ l, Timestamp.empty < ts a

namespace Clocks

variable {A : Type} {ts : A → Timestamp} {l : List A}

instance : Decidable (Clocks ts l) :=
  decidable_of_iff ((l.map ts).Nodup ∧ ∀ a ∈ l, Timestamp.empty < ts a)
    ⟨fun h => ⟨h.1, h.2⟩, fun h => ⟨h.distinct, h.positive⟩⟩

theorem unique (h : Clocks ts l) {a b : A} (ha : a ∈ l) (hb : b ∈ l) (e : ts a = ts b) : a = b :=
  List.inj_on_of_nodup_map h.distinct ha hb e

theorem tail {a : A} (h : Clocks ts (a :: l)) : Clocks ts l := by
  have hd := h.distinct
  rw [List.map_cons, List.nodup_cons] at hd
  exact ⟨hd.2, fun b hb => h.positive b (List.mem_cons_of_mem _ hb)⟩

end Clocks

/-! ## Item -/

structure Item where
  key : Key := ""
  values : Map Field Value := ∅
  ts : Timestamp := .empty
  trx_keys : OrdSet Key := ∅
  deriving DecidableEq

/-- `Item()`. -/
abbrev Item.empty : Item := {}

/-- `Item(key)`. -/
abbrev Item.of_key (key : Key) : Item := { key := key }

theorem find_single {l : List Item} {i : Item} (hi : i ∈ l) (h : ∀ j ∈ l, j.key = i.key → j = i) :
    l.find? (·.key = i.key) = some i := by
  rcases hf : l.find? (·.key = i.key) with _ | j
  · have := List.find?_eq_none.mp hf i hi
    simp at this
  · have hj := List.find?_some hf
    rw [hf, h j (List.mem_of_find?_eq_some hf) (by simpa using hj)]

/-! ## Transaction -/

structure Transaction where
  access_keys : OrdSet Key := ∅
  read_set : Map Key (OrdSet Field) := ∅
  write_set : Map Key (Map Field Value) := ∅
  deriving DecidableEq

namespace Transaction

def add_write (t : Transaction) (key : Key) (values : Map Field Value) : Transaction :=
  { t with access_keys := t.access_keys.insert key, write_set := t.write_set.insert key values }

def add_read (t : Transaction) (key : Key) (fields : OrdSet Field) : Transaction :=
  { t with access_keys := t.access_keys.insert key, read_set := t.read_set.insert key fields }

/-- What a caller (the test generator, or the JNI interface) can do to a transaction. -/
inductive Add where
  | write (key : Key) (values : Map Field Value)
  | read (key : Key) (fields : OrdSet Field)

def add (t : Transaction) : Add → Transaction
  | .write k v => t.add_write k v
  | .read k f => t.add_read k f

/-- The transactions that sequences of `add_write` and `add_read` build. -/
def Built (t : Transaction) : Prop := ∃ as : List Add, t = as.foldl add {}

/-- `access_keys` holds the keys read and the keys written, and no others. -/
theorem Built.access_keys {t : Transaction} (h : t.Built) (k : Key) :
    k ∈ t.access_keys ↔ k ∈ t.read_set ∨ k ∈ t.write_set := by
  obtain ⟨as, rfl⟩ := h
  suffices hs : ∀ (as : List Add) (t : Transaction), (k ∈ t.access_keys ↔ k ∈ t.read_set ∨ k ∈ t.write_set) →
      (k ∈ (as.foldl add t).access_keys ↔ k ∈ (as.foldl add t).read_set ∨ k ∈ (as.foldl add t).write_set) from
    hs as {} (by simp)
  intro as
  induction as with
  | nil => intro t ht; exact ht
  | cons a as ih =>
    intro t ht
    apply ih
    cases a with
    | write k' v =>
      simp only [add, add_write, Std.ExtTreeSet.mem_insert, Std.ExtTreeMap.mem_insert, ht]
      tauto
    | read k' f =>
      simp only [add, add_read, Std.ExtTreeSet.mem_insert, Std.ExtTreeMap.mem_insert, ht]
      tauto

end Transaction

/-! ## ConnectionPool -/

/-- `config.server_list` and `std::hash<std::string>`: each key has its server. -/
structure ConnectionPool where
  server_num : Nat
  hash : Key → Nat
  nonempty : 0 < server_num

namespace ConnectionPool

abbrev Server (cp : ConnectionPool) := Fin cp.server_num

instance (cp : ConnectionPool) : LawfulBEq cp.Server := inferInstance

/-- `server_list.at(hash_v % server_list.size())`. -/
def get (cp : ConnectionPool) (key : Key) : cp.Server := ⟨cp.hash key % cp.server_num, Nat.mod_lt _ cp.nonempty⟩

end ConnectionPool

/-- `access_coms.insert(com)`. -/
def insert_com {S : Type} [DecidableEq S] (coms : List S) (com : S) : List S := if com ∈ coms then coms else com :: coms

/-! ## MessagePack -/

/-- `PACKET_SIZE`, `ENTRY_SIZE`. -/
abbrev PACKET_SIZE : Nat := 2560

structure Codec where
  pack : Item → List UInt8
  unpack : List UInt8 → Option Item
  unpack_pack : ∀ i, (pack i).length ≤ PACKET_SIZE → unpack (pack i) = some i

end RampRdma
