/-
  RampRdma.Server.Versions — which versions a server's table returns, after any sequence of
  calls and of GETs, which insert into `latest_commit` too.

  The (key, timestamp) pairs are `Stamped`: none occurs twice, and none has `Timestamp()`.
  - `added_kept`: a version that was prepared or put is what `get_item_by_ver` returns for
    its key and timestamp from then on.
  - `latest_op`: only a PUT moves the latest timestamp of its key; so `get_newest`: the latest
    item of a key is its newest put, whatever else was prepared and committed.
  - `table_versions`: both, and the order of the PUTs of a key does not matter.
-/

import Mathlib
import RampRdma.Lib.Newest
import RampRdma.Server.Bindings
import RampRdma.Wire

namespace RampRdma.Versions

open Runs Newest

/-- A call, or `Table::get`. -/
inductive Op where
  | call (c : Call)
  | get (key : Key)

def Op.item : Op → Option Item
  | .call c => c.item
  | .get _ => none

variable (C : Codec)

def op (t : Table) : Op → Except Fault Table
  | .call c => t.call C c
  | .get key => .ok { (t.get_latest_item key).1 with committed_items := t.committed_items }

/-- The versions prepared or put. -/
def added (ops : List Op) : List Item := ops.filterMap Op.item

/-- The versions of `k` that were put. -/
def puts (k : Key) (ops : List Op) : List Item :=
  ops.filterMap fun
    | .call (.put item) => if item.key = k then some item else none
    | _ => none

structure Stamped (ops : List Op) : Prop where
  distinct : ((added ops).map fun i => (i.key, i.ts)).Nodup
  positive : ∀ i ∈ added ops, Timestamp.empty < i.ts

/-- What `op` does to the store. -/
def store_op (s : Store) : Op → Store
  | .call c => s.call c
  | .get key => s.touch key

variable {C} {t t' : Table} {ops : List Op} {o : Op} {i : Item} {k : Key}

/-! ## What was added -/

theorem added_snoc (ops : List Op) (o : Op) : added (ops ++ [o]) = added ops ++ o.item.toList := by
  unfold added
  rw [List.filterMap_append]
  cases h : o.item <;> simp [h]

theorem mem_added_snoc : i ∈ added (ops ++ [o]) ↔ i ∈ added ops ∨ o.item = some i := by
  rw [added_snoc, List.mem_append, Option.mem_toList]

theorem mem_puts : i ∈ puts k ops ↔ .call (.put i) ∈ ops ∧ i.key = k := by
  unfold puts
  rw [List.mem_filterMap]
  constructor
  · rintro ⟨o, ho, h⟩
    split at h
    · rename_i item
      split at h
      · rename_i hk
        cases h
        exact ⟨ho, hk⟩
      · cases h
    · cases h
  · rintro ⟨ho, rfl⟩
    exact ⟨_, ho, by simp⟩

theorem puts_snoc (k : Key) (ops : List Op) (o : Op) : puts k (ops ++ [o]) = puts k ops ++ puts k [o] :=
  List.filterMap_append

theorem mem_added_of_puts (h : i ∈ puts k ops) : i ∈ added ops :=
  List.mem_filterMap.mpr ⟨_, (mem_puts.mp h).1, rfl⟩

theorem Stamped.unique (h : Stamped ops) {j : Item} (hi : i ∈ added ops) (hj : j ∈ added ops) (hk : i.key = j.key)
    (ht : i.ts = j.ts) : i = j :=
  List.inj_on_of_nodup_map h.distinct hi hj (by simp only [hk, ht])

theorem Stamped.puts (h : Stamped ops) : Distinct Item.ts (puts k ops) := fun _ hi _ hj ht =>
  h.unique (mem_added_of_puts hi) (mem_added_of_puts hj) ((mem_puts.mp hi).2.trans (mem_puts.mp hj).2.symm) ht

/-! ## The store -/

theorem commit_items_store {ts : Timestamp} {l : List Item} (h : run (Table.commit_item C ts) t l = .ok t') :
    t'.toStore = l.foldl (fun s item => s.touch item.key) t.toStore := by
  refine run_induct (f := Table.commit_item C ts) (s := t)
    (fun l t' => t'.toStore = l.foldl (fun s item => s.touch item.key) t.toStore) rfl ?_ l t' h
  intro l item t1 t2 _ h1 h2
  rw [commit_item_store h2, h1, List.foldl_append]
  rfl

theorem op_store (h : op C t o = .ok t') : t'.toStore = store_op t.toStore o := by
  cases o with
  | get key =>
    cases h
    rfl
  | call c =>
    cases c with
    | prepare item =>
      obtain ⟨c, _, h⟩ := bind_ok.mp h
      cases h
      rfl
    | commit ts =>
      have h : t.commit C ts = .ok t' := h
      rw [Table.commit_eq] at h
      exact commit_items_store h
    | put item =>
      obtain ⟨t1, h1, h⟩ := bind_ok.mp h
      obtain ⟨c, _, h1⟩ := bind_ok.mp h1
      cases h
      cases h1
      rfl
    | get_item_addr key =>
      obtain ⟨⟨t1, addr⟩, h1, h⟩ := bind_ok.mp h
      obtain ⟨⟨c, addr'⟩, _, h1⟩ := bind_ok.mp h1
      cases h1
      cases h
      rfl

theorem mem_versions_op {s : Store} {ts : Timestamp} :
    i ∈ (store_op s o).versions ts ↔ i ∈ s.versions ts ∨ (o.item = some i ∧ i.ts = ts) := by
  cases o with
  | call c => exact mem_versions_call
  | get key => simp [store_op, Op.item, Store.versions_congr (s.touch_items key)]

theorem latest_op (s : Store) (o : Op) (k : Key) : (store_op s o).latest k =
    (puts k [o]).foldl (fun ts i => if ts < i.ts then i.ts else ts) (s.latest k) := by
  match o with
  | .call (.prepare item) => rfl
  | .call (.commit ts) => exact commit_latest s ts k
  | .call (.put item) =>
    show (Store.commit_key _ _ _).latest k = _
    rw [commit_key_latest, Store.push_back_latest, Store.push_back_latest]
    by_cases e : item.key = k
    · subst e
      simp [puts]
    · simp [puts, e, Ne.symm e]
  | .call (.get_item_addr key) => rfl
  | .get key => exact s.touch_latest key k

structure Inv (ops : List Op) (s : Store) : Prop where
  versions : ∀ ts i, i ∈ s.versions ts ↔ i ∈ added ops ∧ i.ts = ts
  latest : ∀ k, s.latest k = (newest Item.ts Item.empty (puts k ops)).ts

theorem newest_fold (d : Item) (l : List Item) :
    (newest Item.ts d l).ts = l.foldl (fun ts i => if ts < i.ts then i.ts else ts) d.ts := by
  induction l generalizing d with
  | nil => rfl
  | cons i l ih =>
    show (newest Item.ts (newer Item.ts d i) l).ts = _
    rw [ih]
    unfold newer
    split <;> rename_i h <;> simp [h]

theorem inv_init (n : Nat) : Inv [] (Table.init n).toStore where
  versions ts i := by
    constructor
    · intro h
      cases h
    · rintro ⟨h, -⟩
      cases h
  latest k := rfl

theorem inv_op {s : Store} (hi : Inv ops s) (o : Op) : Inv (ops ++ [o]) (store_op s o) where
  versions ts i := by
    rw [mem_versions_op, hi.versions, mem_added_snoc]
    tauto
  latest k := by rw [latest_op, hi.latest, newest_fold, newest_fold, puts_snoc, List.foldl_append]

theorem inv {n : Nat} (h : run (op C) (.init n) ops = .ok t) : Inv ops t.toStore := by
  refine run_induct (fun ops t => Inv ops t.toStore) (inv_init n) (fun ops o t t' _ hi h => ?_) ops t h
  rw [op_store h]
  exact inv_op hi o

/-! ## Lookups -/

theorem added_kept {s : Store} (hi : Inv ops s) (hs : Stamped ops) (h : i ∈ added ops) : s.get_item_by_ver i.key i.ts = i := by
  have hm : ∀ j, j ∈ s.versions i.ts → j.key = i.key → j = i := fun j hj hk => by
    obtain ⟨hj, ht⟩ := (hi.versions _ _).mp hj
    exact hs.unique hj h hk ht
  rw [Store.get_item_by_ver_eq, find_single ((hi.versions _ _).mpr ⟨h, rfl⟩) hm]
  rfl

theorem get_newest {s : Store} (hi : Inv ops s) (hs : Stamped ops) (k : Key) :
    (s.get_latest_item k).2 = newest Item.ts .empty (puts k ops) := by
  show s.get_item_by_ver k (s.latest k) = _
  rw [hi.latest]
  rcases newest_mem Item.ts .empty (puts k ops) with h | h
  · rw [h]
    rcases get_item_by_ver_cases s k Item.empty.ts with ⟨hm, hk⟩ | ⟨he, -⟩
    · -- there is no version at `Timestamp()`
      obtain ⟨hm, ht⟩ := (hi.versions _ _).mp hm
      have := hs.positive _ hm
      rw [ht] at this
      exact absurd this (lt_irrefl _)
    · exact he
  · have hk := (mem_puts.mp h).2
    have hg := added_kept hi hs (mem_added_of_puts h)
    rwa [hk] at hg

/-- Versions are never lost, and PUTs are last-writer-wins by timestamp in any order. -/
theorem table_versions {n : Nat} (h : run (op C) (.init n) ops = .ok t) (hs : Stamped ops) :
    (∀ i ∈ added ops, t.get_item_by_ver i.key i.ts = i) ∧
    (∀ k, puts k ops = [] → (t.get_latest_item k).2 = .empty) ∧
    (∀ k, ∀ i ∈ puts k ops, (∀ j ∈ puts k ops, j.ts ≤ i.ts) → (t.get_latest_item k).2 = i) ∧
    ∀ k n' ops' t', run (op C) (.init n') ops' = .ok t' → Stamped ops' → (puts k ops').Perm (puts k ops) →
      (t'.get_latest_item k).2 = (t.get_latest_item k).2 := by
  have hi := inv h
  have hpos : ∀ k, ∀ i ∈ puts k ops, Item.empty.ts < i.ts := fun k i hm => hs.positive i (mem_added_of_puts hm)
  refine ⟨fun i hm => added_kept hi hs hm, ?_, ?_, ?_⟩
  · intro k hk
    rw [get_newest hi hs, hk]
    rfl
  · intro k i hm hle
    rw [get_newest hi hs]
    exact newest_eq hs.puts hm (hpos k i hm) hle
  · intro k n' ops' t' h' hs' hp
    rw [get_newest hi hs, get_newest (inv h') hs']
    exact newest_perm hs.puts (hpos k) hp

/-- The older version is put last. -/
def two : List Op := [.call (.put { key := "x", ts := ⟨2, 0⟩ }), .call (.put { key := "x", ts := ⟨1, 0⟩ })]

theorem table_versions_two : ∃ t, run (op Wire.msgpack) (.init 1) two = .ok t ∧
    t.get_item_by_ver "x" ⟨1, 0⟩ = { key := "x", ts := ⟨1, 0⟩ } ∧ (t.get_latest_item "x").2 = { key := "x", ts := ⟨2, 0⟩ } := by
  obtain ⟨t, ht⟩ : ∃ t, run (op Wire.msgpack) (.init 1) two = .ok t := ⟨_, rfl⟩
  have h := table_versions ht ⟨by decide, by decide⟩
  exact ⟨t, ht, h.1 { key := "x", ts := ⟨1, 0⟩ } (by decide), h.2.2.1 "x" _ (by decide) (by decide)⟩

end RampRdma.Versions
