/-
  RampRdma.Server.Table — a server's table (`Table.h`, `Table.cpp`): the versions of every
  key (`items`, one vector for each timestamp), the newest committed timestamp of every
  key (`latest_commit`) and the RDMA-readable cache (`committed_items`).

  `Store` is the table without its cache, which nothing but the one-sided reads of the
  AC-RAMP clients looks at. A `Call` is one of the operations the executors run on a
  table, `Store.call` what it does to the store, `AbsTable` the table over the abstract
  cache.
  - `call_sim`: calls on a table and on its abstract table end alike, faults included.
  - `call_store`: a call that does not fail changes the store as if there were no cache.
  - `insert_latest_touch` / `commit_latest`: `operator[]` inserts a `Timestamp()` when it
    only reads, so the `insert` after it in `Table::commit(ts)` finds its key bound and
    changes nothing: a commit never advances `latest_commit`.
-/

import Mathlib
import RampRdma.Data
import RampRdma.Lib.Runs
import RampRdma.Server.CommittedItems

namespace RampRdma

open Runs

structure Store where
  items : ConcurrentMap Timestamp (List Item) := .empty
  latest_commit : ConcurrentMap Key Timestamp := .empty

namespace Store

/-- The value of `latest_commit[key]`. -/
def latest (t : Store) (key : Key) : Timestamp := (t.latest_commit.find key).getD .empty

/-- The insertion `latest_commit[key]` makes. -/
def touch (t : Store) (key : Key) : Store := { t with latest_commit := t.latest_commit.insert key .empty }

/-- `items[ts]`, empty where nothing was prepared. -/
def versions (t : Store) (ts : Timestamp) : List Item := (t.items.find ts).getD []

/-- `items[item.ts].push_back(item)`. -/
def push_back (t : Store) (item : Item) : Store :=
  { t with items := t.items.set item.ts (t.versions item.ts ++ [item]) }

/-- `latest_commit.insert(std::make_pair(key, ts))`. -/
def insert_latest (t : Store) (key : Key) (ts : Timestamp) : Store :=
  { t with latest_commit := t.latest_commit.insert key ts }

/-- `Table::commit(key, ts)`. -/
def commit_key (t : Store) (key : Key) (ts_c : Timestamp) : Store :=
  let t := t.touch key
  if (t.latest key).lt ts_c then { t with latest_commit := t.latest_commit.set key ts_c } else t

def put (t : Store) (item : Item) : Store := (t.push_back item).commit_key item.key item.ts

def get_item_by_ver (t : Store) (key : Key) (ts : Timestamp) : Item :=
  match t.items.find ts with
  | some l => (l.find? (·.key = key)).getD .empty
  | none => .empty

/-- `Table::get_latest_item`, and `Table::get`, which is the same. -/
def get_latest_item (t : Store) (key : Key) : Store × Item :=
  (t.touch key, t.get_item_by_ver key (t.latest key))

end Store

structure Table extends Store where
  committed_items : CommittedItems

namespace Table

/-- `Table()`, over a pool of `n` slots. -/
def init (n : Nat) : Table := { committed_items := .init n }

def prepare (t : Table) (item : Item) : Except Fault Table := do
  let c ← t.committed_items.invalidate item.key
  return { t.push_back item with committed_items := c }

variable (C : Codec)

/-- One turn of the loop in `Table::commit(ts)`. -/
def commit_item (ts_c : Timestamp) (t : Table) (item : Item) : Except Fault Table :=
  let s := t.touch item.key
  if (s.latest item.key).lt ts_c then do
    let s := s.insert_latest item.key ts_c
    let c ← t.committed_items.update C item
    return { s with committed_items := c }
  else return { s with committed_items := t.committed_items }

def commit (t : Table) (ts_c : Timestamp) : Except Fault Table :=
  match t.items.find ts_c with
  | some l => run (commit_item C ts_c) t l
  | none => .ok t

def put (t : Table) (item : Item) : Except Fault Table := do
  let t ← t.prepare item
  return { t.commit_key item.key item.ts with committed_items := t.committed_items }

/-- `table->committed_items.get_item_addr(key)`. -/
def get_item_addr (t : Table) (key : Key) : Except Fault (Table × Nat) := do
  let (c, addr) ← t.committed_items.get_item_addr C key
  return ({ t with committed_items := c }, addr)

end Table

/-- What executors run on a table. -/
inductive Call where
  | prepare (item : Item)
  | commit (ts : Timestamp)
  | put (item : Item)
  | get_item_addr (key : Key)

def Table.call (C : Codec) (t : Table) : Call → Except Fault Table
  | .prepare item => t.prepare item
  | .commit ts => t.commit C ts
  | .put item => t.put item
  | .get_item_addr key => do
    let (t, _) ← t.get_item_addr C key
    return t

/-! ## Stores -/

namespace Store

@[simp] theorem touch_items (t : Store) (key : Key) : (t.touch key).items = t.items := rfl

@[simp] theorem touch_latest (t : Store) (key k : Key) : (t.touch key).latest k = t.latest k := by
  simp only [latest, touch]
  by_cases e : k = key
  · subst e
    rcases hf : t.latest_commit.find k with _ | ts
    · rw [ConcurrentMap.insert_unbound hf, ConcurrentMap.find_set_same]; rfl
    · rw [ConcurrentMap.insert_bound hf, hf]
  · rcases hf : t.latest_commit.find key with _ | ts
    · rw [ConcurrentMap.insert_unbound hf, ConcurrentMap.find_set_ne _ _ e]
    · rw [ConcurrentMap.insert_bound hf]

theorem touch_bound (t : Store) (key : Key) : ∃ ts, (t.touch key).latest_commit.find key = some ts := by
  simp only [touch]
  rcases hf : t.latest_commit.find key with _ | ts
  · exact ⟨_, by rw [ConcurrentMap.insert_unbound hf, ConcurrentMap.find_set_same]⟩
  · exact ⟨ts, by rw [ConcurrentMap.insert_bound hf, hf]⟩

/-- The `insert` in `Table::commit(ts)` finds the binding `operator[]` has just made. -/
theorem insert_latest_touch (t : Store) (key : Key) (ts : Timestamp) :
    (t.touch key).insert_latest key ts = t.touch key := by
  obtain ⟨ts', h⟩ := t.touch_bound key
  simp only [insert_latest]
  rw [ConcurrentMap.insert_bound h]

@[simp] theorem push_back_latest (t : Store) (item : Item) (k : Key) : (t.push_back item).latest k = t.latest k := rfl

theorem versions_push_back (t : Store) (item : Item) (ts : Timestamp) :
    (t.push_back item).versions ts = if ts = item.ts then t.versions ts ++ [item] else t.versions ts := by
  simp only [versions, push_back, ConcurrentMap.find_set]
  split
  · rename_i e; subst e; rfl
  · rfl

theorem mem_versions_push_back {t : Store} {item i : Item} {ts : Timestamp} :
    i ∈ (t.push_back item).versions ts ↔ i ∈ t.versions ts ∨ (i = item ∧ ts = item.ts) := by
  rw [versions_push_back]
  by_cases e : ts = item.ts
  · simp [e]
  · simp [e]

theorem versions_congr {t t' : Store} (h : t'.items = t.items) (ts : Timestamp) : t'.versions ts = t.versions ts := by
  simp only [versions, h]

theorem get_item_by_ver_eq (t : Store) (key : Key) (ts : Timestamp) :
    t.get_item_by_ver key ts = ((t.versions ts).find? (·.key = key)).getD .empty := by
  simp only [get_item_by_ver, versions]
  cases t.items.find ts <;> rfl

end Store

namespace Table

variable (C : Codec)

theorem commit_item_eq (ts_c : Timestamp) (t : Table) (item : Item) :
    t.commit_item C ts_c item =
      if (t.latest item.key).lt ts_c then
        t.committed_items.update C item >>= fun c => .ok { t.touch item.key with committed_items := c }
      else .ok { t.touch item.key with committed_items := t.committed_items } := by
  simp only [commit_item, Store.touch_latest, Store.insert_latest_touch]
  rfl

theorem commit_eq (t : Table) (ts_c : Timestamp) : t.commit C ts_c = run (commit_item C ts_c) t (t.versions ts_c) := by
  simp only [commit, Store.versions]
  cases t.items.find ts_c <;> rfl

end Table

/-! ## The table over the abstract cache -/

def Store.call (t : Store) : Call → Store
  | .prepare item => t.push_back item
  | .commit ts => (t.versions ts).foldl (fun t item => t.touch item.key) t
  | .put item => t.put item
  | .get_item_addr _ => t

structure AbsTable extends Store where
  cache : Cache

namespace AbsTable

def init (n : Nat) : AbsTable := { cache := .init n }

variable (C : Codec)

def commit_item (ts_c : Timestamp) (a : AbsTable) (item : Item) : Except Fault AbsTable :=
  if (a.latest item.key).lt ts_c then
    a.cache.update C item >>= fun c => .ok { a.touch item.key with cache := c }
  else .ok { a.touch item.key with cache := a.cache }

def call (a : AbsTable) : Call → Except Fault AbsTable
  | .prepare item => a.cache.invalidate item.key >>= fun c => .ok { a.push_back item with cache := c }
  | .commit ts => run (commit_item C ts) a (a.versions ts)
  | .put item => a.cache.invalidate item.key >>= fun c => .ok { Store.put a.toStore item with cache := c }
  | .get_item_addr key => a.cache.get_item_addr C key >>= fun c => .ok { a with cache := c }

end AbsTable

structure TableSim (C : Codec) (t : Table) (a : AbsTable) : Prop where
  store : t.toStore = a.toStore
  cache : Represents C t.committed_items a.cache

variable {C : Codec}

theorem tableSim_init (n : Nat) : TableSim C (.init n) (.init n) := ⟨rfl, represents_init n⟩

theorem commit_item_sim {t : Table} {a : AbsTable} (h : TableSim C t a) (ts : Timestamp) (item : Item) :
    RelExcept (TableSim C) (t.commit_item C ts item) (a.commit_item C ts item) := by
  rw [Table.commit_item_eq, AbsTable.commit_item, ← h.store]
  split
  · exact (h.cache.update_sim item).bind fun c c' hc => .ok ⟨rfl, hc⟩
  · exact .ok ⟨rfl, h.cache⟩

theorem call_sim {t : Table} {a : AbsTable} (h : TableSim C t a) (c : Call) :
    RelExcept (TableSim C) (t.call C c) (a.call C c) := by
  cases c with
  | prepare item =>
    exact (h.cache.invalidate_sim item.key).bind fun c c' hc => .ok ⟨by rw [h.store], hc⟩
  | commit ts =>
    show RelExcept _ (t.commit C ts) _
    rw [Table.commit_eq, h.store]
    exact RelExcept.run (fun t a item h => commit_item_sim h ts item) _ t a h
  | put item =>
    show RelExcept _ (t.put item) _
    simp only [Table.put, Table.prepare, AbsTable.call, bind_assoc]
    exact (h.cache.invalidate_sim item.key).bind fun c c' hc => .ok ⟨by rw [h.store]; rfl, hc⟩
  | get_item_addr key =>
    show RelExcept _ (t.get_item_addr C key >>= fun r => .ok r.1) _
    simp only [Table.get_item_addr, bind_assoc]
    exact (h.cache.get_item_addr_sim key).bind fun c c' hc => .ok ⟨h.store, hc.1⟩

theorem calls_sim (n : Nat) (cs : List Call) :
    RelExcept (TableSim C) (run (Table.call C) (.init n) cs) (run (AbsTable.call C) (.init n) cs) :=
  RelExcept.run (fun _ _ c h => call_sim h c) cs _ _ (tableSim_init n)

/-! ## What calls do to the store -/

theorem AbsTable.commit_item_store {a a' : AbsTable} {ts : Timestamp} {item : Item}
    (h : a.commit_item C ts item = .ok a') : a'.toStore = a.touch item.key := by
  unfold AbsTable.commit_item at h
  split at h
  · obtain ⟨c, _, h⟩ := bind_ok.mp h
    cases h; rfl
  · cases h; rfl

theorem AbsTable.commit_items_store {ts : Timestamp} : ∀ (l : List Item) {a a' : AbsTable},
    run (AbsTable.commit_item C ts) a l = .ok a' → a'.toStore = l.foldl (fun t item => t.touch item.key) a.toStore := by
  intro l
  induction l with
  | nil => intro a a' h; cases h; rfl
  | cons item l ih =>
    intro a a' h
    rw [run_cons, bind_ok] at h
    obtain ⟨a1, h1, h⟩ := h
    rw [ih h, AbsTable.commit_item_store h1]
    rfl

theorem AbsTable.call_store {a a' : AbsTable} {c : Call} (h : a.call C c = .ok a') : a'.toStore = a.toStore.call c := by
  cases c with
  | prepare item => obtain ⟨c, _, h⟩ := bind_ok.mp h; cases h; rfl
  | commit ts => exact AbsTable.commit_items_store _ h
  | put item => obtain ⟨c, _, h⟩ := bind_ok.mp h; cases h; rfl
  | get_item_addr key => obtain ⟨c, _, h⟩ := bind_ok.mp h; cases h; rfl

theorem touches_latest (l : List Item) (t : Store) (k : Key) :
    (l.foldl (fun t item => t.touch item.key) t).latest k = t.latest k := by
  induction l generalizing t with
  | nil => rfl
  | cons item l ih => rw [List.foldl_cons, ih, Store.touch_latest]

/-- A commit never advances `latest_commit`. -/
theorem commit_latest (t : Store) (ts : Timestamp) (k : Key) : (t.call (.commit ts)).latest k = t.latest k :=
  touches_latest _ t k

theorem touches_items (l : List Item) (t : Store) :
    (l.foldl (fun t item => t.touch item.key) t).items = t.items := by
  induction l generalizing t with
  | nil => rfl
  | cons item l ih => rw [List.foldl_cons, ih, Store.touch_items]

end RampRdma
