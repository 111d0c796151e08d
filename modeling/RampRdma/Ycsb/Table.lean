/-
  RampRdma.Ycsb.Table — the table of the YCSB copy (`YCSB-0.5.0/src/data`), without its
  cache.

  `Timestamp::operator==` of this copy compares `usec` with the other's `sec`. It is the key
  comparison of the map `items`: a lookup of a timestamp finds the node, if there is one,
  whose `sec` and `usec` both are the timestamp's `sec` (`eq_iff`), whatever its `usec`.
  - `find_modify`: what `items[ts]` does to later lookups; a node made for a timestamp whose
    `usec` is not its `sec` is never found again.
  - `commit_latest`: a commit moves up the `latest_commit` of every key it finds an item of.
-/

import Mathlib
import RampRdma.Data

namespace RampRdma.Ycsb

/-- `a == b`. -/
def eq (a b : Timestamp) : Bool := a.sec = b.sec && a.usec = b.sec

theorem eq_iff {a b : Timestamp} : eq a b = true ↔ a.sec = b.sec ∧ a.usec = b.sec := by simp [eq]

/-- `ConcurrentMap<Timestamp, V>`: its nodes, of which a lookup takes one whose key is equal. -/
abbrev TimestampMap (V : Type) := List (Timestamp × V)

namespace TimestampMap

variable {V : Type}

def find (m : TimestampMap V) (ts : Timestamp) : Option V := (m.find? fun n => eq n.1 ts).map Prod.snd

/-- `m[ts] = f(m[ts])`, where `m[ts]` inserts the default if it finds no node. -/
def modify (m : TimestampMap V) (ts : Timestamp) (d : V) (f : V → V) : TimestampMap V :=
  match m with
  | [] => [(ts, f d)]
  | n :: m => if eq n.1 ts then (n.1, f n.2) :: m else n :: modify m ts d f

theorem find_cons (n : Timestamp × V) (m : TimestampMap V) (ts : Timestamp) :
    find (n :: m) ts = if eq n.1 ts then some n.2 else find m ts := by
  unfold find
  rw [List.find?_cons]
  cases eq n.1 ts <;> rfl

theorem find_modify (m : TimestampMap V) (ts q : Timestamp) (d : V) (f : V → V) :
    (m.modify ts d f).find q =
      if q.sec = ts.sec ∧ (m.find ts ≠ none ∨ ts.usec = ts.sec) then some (f ((m.find ts).getD d)) else m.find q := by
  induction m with
  | nil =>
    rw [modify, find_cons]
    by_cases h : q.sec = ts.sec
    · simp [find, eq, h]
    · simp [find, eq, h, Ne.symm h]
  | cons n m ih =>
    rw [modify]
    by_cases hn : eq n.1 ts = true
    · rw [if_pos hn, find_cons, find_cons, find_cons, if_pos hn]
      obtain ⟨h1, h2⟩ := eq_iff.mp hn
      by_cases h : q.sec = ts.sec
      · rw [if_pos (eq_iff.mpr ⟨h1.trans h.symm, h2.trans h.symm⟩), if_pos ⟨h, .inl (by simp)⟩]
        rfl
      · have hq : ¬ eq n.1 q = true := fun e => h ((eq_iff.mp e).1.symm.trans h1)
        rw [if_neg hq, if_neg hq, if_neg fun e => h e.1]
    · rw [if_neg hn, find_cons, find_cons, find_cons, if_neg hn, ih]
      by_cases hq : eq n.1 q = true
      · rw [if_pos hq, if_pos hq, if_neg]
        rintro ⟨h, -⟩
        rw [eq_iff, ← h] at hn
        exact hn (eq_iff.mp hq)
      · rw [if_neg hq, if_neg hq]

end TimestampMap

structure Table where
  items : TimestampMap (List Item) := []
  latest_commit : ConcurrentMap Key Timestamp := .empty

namespace Table

/-- The value of `latest_commit[key]`. -/
def latest (t : Table) (key : Key) : Timestamp := (t.latest_commit.find key).getD .empty

/-- The insertion `latest_commit[key]` makes. -/
def touch (t : Table) (key : Key) : Table := { t with latest_commit := t.latest_commit.insert key .empty }

/-- `items[item.ts].push_back(item)`. -/
def prepare (t : Table) (item : Item) : Table := { t with items := t.items.modify item.ts [] (· ++ [item]) }

/-- `commit(key, ts_c)`, and one turn of the loop of `commit(ts_c)`. -/
def commit_key (t : Table) (key : Key) (ts_c : Timestamp) : Table :=
  let t := t.touch key
  if (t.latest key).lt ts_c then { t with latest_commit := t.latest_commit.set key ts_c } else t

/-- The `std::out_of_range` of `items.at(ts_c)` is caught. -/
def commit (t : Table) (ts_c : Timestamp) : Table :=
  match t.items.find ts_c with
  | some l => l.foldl (fun t item => t.commit_key item.key ts_c) t
  | none => t

def put (t : Table) (item : Item) : Table := (t.prepare item).commit_key item.key item.ts

def get_item_by_ver (t : Table) (key : Key) (ts : Timestamp) : Item :=
  match t.items.find ts with
  | some l => (l.find? (·.key = key)).getD .empty
  | none => .empty

/-- `get_latest_item`, and `get`, which is the same. -/
def get_latest_item (t : Table) (key : Key) : Table × Item := (t.touch key, t.get_item_by_ver key (t.latest key))

/-- `items.at(ts)`, empty where it throws. -/
def versions (t : Table) (ts : Timestamp) : List Item := (t.items.find ts).getD []

theorem get_item_by_ver_eq (t : Table) (key : Key) (ts : Timestamp) :
    t.get_item_by_ver key ts = ((t.versions ts).find? (·.key = key)).getD .empty := by
  unfold get_item_by_ver versions
  cases t.items.find ts <;> rfl

theorem touch_latest (t : Table) (key k : Key) : (t.touch key).latest k = t.latest k := by
  unfold latest touch
  by_cases e : k = key
  · subst e
    rcases hf : t.latest_commit.find k with _ | ts
    · rw [ConcurrentMap.insert_unbound hf, ConcurrentMap.find_set_same]
      rfl
    · rw [ConcurrentMap.insert_bound hf, hf]
  · rcases hf : t.latest_commit.find key with _ | ts
    · rw [ConcurrentMap.insert_unbound hf, ConcurrentMap.find_set_ne _ _ e]
    · rw [ConcurrentMap.insert_bound hf]

theorem commit_key_latest (t : Table) (key : Key) (ts : Timestamp) (k : Key) :
    (t.commit_key key ts).latest k = if k = key ∧ t.latest key < ts then ts else t.latest k := by
  unfold commit_key
  show (if ((t.touch key).latest key).lt ts then _ else _ : Table).latest k = _
  rw [touch_latest]
  by_cases hlt : t.latest key < ts
  · rw [if_pos ((Timestamp.lt_iff _ _).mpr hlt)]
    show ((((t.touch key).latest_commit.set key ts).find k).getD .empty) = _
    by_cases e : k = key
    · subst e
      simp [hlt]
    · rw [ConcurrentMap.find_set_ne _ _ e, if_neg fun h => e h.1]
      exact t.touch_latest key k
  · rw [if_neg fun h => hlt ((Timestamp.lt_iff _ _).mp h), if_neg fun h => hlt h.2, touch_latest]

theorem commit_key_items (t : Table) (key : Key) (ts : Timestamp) : (t.commit_key key ts).items = t.items := by
  unfold commit_key
  show (if _ then _ else _ : Table).items = _
  split <;> rfl

/-- The loop of `commit`. -/
theorem commit_keys (l : List Item) (t : Table) (ts : Timestamp) :
    (l.foldl (fun t item => t.commit_key item.key ts) t).items = t.items ∧
    ∀ k, (l.foldl (fun t item => t.commit_key item.key ts) t).latest k =
      if (∃ i ∈ l, i.key = k) ∧ t.latest k < ts then ts else t.latest k := by
  induction l generalizing t with
  | nil => simp
  | cons item l ih =>
    obtain ⟨h1, h2⟩ := ih (t.commit_key item.key ts)
    refine ⟨h1.trans (commit_key_items _ _ _), fun k => ?_⟩
    rw [List.foldl_cons, h2, commit_key_latest]
    by_cases e : k = item.key
    · subst e
      by_cases hlt : t.latest item.key < ts
      · simp [hlt]
      · simp [hlt]
    · have he : (∃ i ∈ item :: l, i.key = k) ↔ ∃ i ∈ l, i.key = k := by simp [Ne.symm e]
      have hk : (if k = item.key ∧ t.latest item.key < ts then ts else t.latest k) = t.latest k := if_neg fun h => e h.1
      rw [hk]
      exact if_congr (and_congr_left' he.symm) rfl rfl

theorem commit_items (t : Table) (ts : Timestamp) : (t.commit ts).items = t.items := by
  unfold commit
  split
  · exact (commit_keys _ _ _).1
  · rfl

theorem commit_latest (t : Table) (ts : Timestamp) (k : Key) :
    (t.commit ts).latest k = if (∃ i ∈ t.versions ts, i.key = k) ∧ t.latest k < ts then ts else t.latest k := by
  unfold commit versions
  split
  · rename_i l hl
    rw [(commit_keys _ _ _).2, hl]
    rfl
  · rename_i hl
    simp [hl]

theorem prepare_versions (t : Table) (item : Item) (q : Timestamp) : (t.prepare item).versions q =
    if q.sec = item.ts.sec ∧ (t.items.find item.ts ≠ none ∨ item.ts.usec = item.ts.sec) then t.versions item.ts ++ [item]
    else t.versions q := by
  unfold versions prepare
  rw [TimestampMap.find_modify]
  split <;> rfl

end Table

end RampRdma.Ycsb
