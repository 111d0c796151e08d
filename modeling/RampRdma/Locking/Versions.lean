/-
  RampRdma.Locking.Versions — which versions the tables of the TWO_PHASE_LOCKING mode hold.

  Transactions are taken in the order of their last answers (`finished`), where each holds
  all its locks. A version in a table is one of a `put_all` that has finished, or that has
  put it and still holds the write lock of its key (`PutDone`, `Data`); and
  `Table::commit(key, ts)` keeps the largest timestamp of a key. So what a GET returns
  under the read lock is, of all `put_all`s finished by then, the version of the key with
  the largest timestamp (`read_snapshot`).
  `data` is the run lemma.
-/

import Mathlib
import RampRdma.Data
import RampRdma.Lib.Newest
import RampRdma.Locking.Invariant
import RampRdma.Server.Bindings

namespace RampRdma.Locking

open Newest

variable {cp : ConnectionPool}

/-! ## Snapshots -/

theorem mem_items {p : PutAll} {i : Item} :
    i ∈ p.items ↔ p.trx.write_set[i.key]? = some i.values ∧ i.ts = p.ts ∧ i.trx_keys = ∅ := by
  simp only [PutAll.items, List.mem_map]
  constructor
  · intro ⟨w, hw, he⟩
    subst he
    exact ⟨Std.ExtTreeMap.mem_toList_iff_getElem?_eq_some.mp hw, rfl, rfl⟩
  · intro ⟨hv, ht, hk⟩
    refine ⟨(i.key, i.values), Std.ExtTreeMap.mem_toList_iff_getElem?_eq_some.mpr hv, ?_⟩
    cases i
    simp_all

theorem items_unique {p : PutAll} {i j : Item} (hi : i ∈ p.items) (hj : j ∈ p.items) (e : i.key = j.key) : i = j := by
  obtain ⟨hiv, hit, hik⟩ := mem_items.mp hi
  obtain ⟨hjv, hjt, hjk⟩ := mem_items.mp hj
  rw [e, hjv] at hiv
  cases i
  cases j
  simp_all

/-- The `put_all`s of a list of transactions. -/
def putsOf (l : List (Trx × Ret)) : List PutAll :=
  l.filterMap fun x => match x.1 with
    | .put p => some p
    | .get _ => none

/-- The versions of `k` that the `put_all`s of `l` write. -/
def writes (l : List PutAll) (k : Key) : List Item := l.flatMap fun p => p.items.filter (·.key = k)

/-- The one with the largest timestamp; `Item()` if there is none. -/
def snapshot (l : List PutAll) (k : Key) : Item := newest (·.ts) Item.empty (writes l k)

theorem mem_putsOf {l : List (Trx × Ret)} {p : PutAll} : p ∈ putsOf l ↔ ∃ ret, (.put p, ret) ∈ l := by
  simp only [putsOf, List.mem_filterMap]
  constructor
  · intro ⟨⟨t, ret⟩, hm, he⟩
    cases t with
    | put q => cases he; exact ⟨ret, hm⟩
    | get g => cases he
  · intro ⟨ret, hm⟩
    exact ⟨_, hm, rfl⟩

theorem mem_writes {l : List PutAll} {k : Key} {i : Item} : i ∈ writes l k ↔ i.key = k ∧ ∃ p ∈ l, i ∈ p.items := by
  simp only [writes, List.mem_flatMap, List.mem_filter, decide_eq_true_eq]
  constructor
  · intro ⟨p, hp, hi, hk⟩
    exact ⟨hk, p, hp, hi⟩
  · intro ⟨hk, p, hp, hi⟩
    exact ⟨p, hp, hi, hk⟩

theorem writes_distinct {puts l : List PutAll} (hc : Clocks PutAll.ts puts) (hl : ∀ p ∈ l, p ∈ puts) (k : Key) :
    Distinct (·.ts) (writes l k) := by
  intro i hi j hj e
  obtain ⟨hik, p, hp, hip⟩ := mem_writes.mp hi
  obtain ⟨hjk, q, hq, hjq⟩ := mem_writes.mp hj
  have hpq : p = q := hc.unique (hl p hp) (hl q hq) (by rw [← (mem_items.mp hip).2.1, ← (mem_items.mp hjq).2.1]; exact e)
  subst hpq
  exact items_unique hip hjq (hik.trans hjk.symm)

/-- A `put_all` that does not write `k` changes nothing there. -/
theorem snapshot_cons {l : List PutAll} {p : PutAll} {k : Key} (h : ∀ i ∈ p.items, i.key ≠ k) :
    snapshot (p :: l) k = snapshot l k := by
  have hf : p.items.filter (·.key = k) = [] := List.filter_eq_nil_iff.mpr fun i hi => by simpa using h i hi
  show newest _ _ (p.items.filter (·.key = k) ++ writes l k) = _
  rw [hf]
  rfl

/-! ## Versions -/

/-- Client `c` is in the middle of a `put_all` and has put its version `i`. -/
def Doing (nodes : cp.Server → Node) (c : Nat) (cl : Client cp.Server) (i : Item) : Prop :=
  ∃ p, (∃ todo ret, cl.phase = .sending (.put p) todo ret) ∧ i ∈ p.items ∧
    (i.key ∈ (nodes (cp.get i.key)).access_keys c ∨ cl.conns (cp.get i.key) = .pushed i)

def PutDone (s : State cp) (i : Item) : Prop :=
  (∃ p ∈ putsOf s.finished, i ∈ p.items) ∨ ∃ c, Doing s.nodes c (s.clients c) i

structure Data (s : State cp) : Prop where
  versions : ∀ srv ts i, i ∈ (s.nodes srv).table.versions ts → i.ts = ts ∧ cp.get i.key = srv ∧ PutDone s i
  stored : ∀ i, PutDone s i → i ∈ (s.nodes (cp.get i.key)).table.versions i.ts
  latest_version : ∀ srv k, (s.nodes srv).table.latest k = .empty ∨
    ∃ i ∈ (s.nodes srv).table.versions ((s.nodes srv).table.latest k), i.key = k
  le_latest : ∀ srv ts i, i ∈ (s.nodes srv).table.versions ts →
    ts ≤ (s.nodes srv).table.latest i.key ∨ ∃ c, (s.clients c).conns srv = .pushed i
  started : ∀ p, p ∈ putsOf s.finished ∨ (∃ c, (s.clients c).phase.trx = some (.put p)) → p ∈ s.puts

section
variable {s : State cp}

/-- A client that has a key among its `access_keys` before RELEASE_LOCKS holds its lock. -/
theorem Inv.access_holds (hi : Inv s) {c : Nat} {t : Trx} {todo : List Request} {ret : Ret}
    (hp : (s.clients c).phase = .sending t todo ret) {srv : cp.Server} {k : Key}
    (hk : k ∈ (s.nodes srv).access_keys c) : ((s.nodes srv).mutex_table k).Holds c := by
  have hph := hi.phases c
  rw [hp] at hph
  rw [(hi.execs c srv).holds]
  rcases hph.2.1 srv with h0 | ⟨r, rest, -, hr, -⟩
  · rw [h0]
    exact hk
  · generalize (s.clients c).conns srv = x at hr
    cases x with
    | asked r => exact hk
    | locked r => exact .inr hk
    | pushed item => exact .inr hk
    | answered r a => exact hk
    | quiet => cases hr
    | release_locks => cases hr
    | unlocking rest => cases hr
    | released => cases hr

theorem Doing.holds (hi : Inv s) {c : Nat} {i : Item} (h : Doing s.nodes c (s.clients c) i) :
    ∃ p, (s.clients c).phase.trx = some (.put p) ∧ ((s.nodes (cp.get i.key)).mutex_table i.key).Holds c := by
  obtain ⟨p, ⟨todo, ret, hp⟩, -, hk⟩ := h
  refine ⟨p, by rw [hp]; rfl, ?_⟩
  rcases hk with hk | hx
  · exact hi.access_holds hp hk
  · rw [(hi.execs c _).holds, hx]
    exact .inl rfl

theorem pushed_doing (hi : Inv s) {c : Nat} {srv : cp.Server} {i : Item} (hx : (s.clients c).conns srv = .pushed i) :
    cp.get i.key = srv ∧ Doing s.nodes c (s.clients c) i := by
  obtain ⟨hs, p, _, _, hp, hip⟩ := hi.putting (i := i) (by rw [hx]; rfl)
  refine ⟨hs, p, ⟨_, _, hp⟩, hip, .inr ?_⟩
  rw [hs]
  exact hx

/-- With the last answer all versions of a `put_all` are put. -/
theorem all_doing (hi : Inv s) {c : Nat} {p : PutAll} {ret : Ret} (hp : (s.clients c).phase = .sending (.put p) [] ret)
    {i : Item} (hip : i ∈ p.items) : Doing s.nodes c (s.clients c) i := by
  have hph := hi.phases c
  rw [hp] at hph
  obtain ⟨⟨done, hreq, hk⟩, -, -⟩ := hph
  rw [List.append_nil] at hreq
  refine ⟨p, ⟨_, _, hp⟩, hip, .inl ((hk i.key).mpr (.inl ⟨.PUT i, ?_, rfl⟩))⟩
  rw [← hreq]
  exact List.mem_map.mpr ⟨i, hip, rfl⟩

/-- While a `get_all` holds a key, nobody is in the middle of writing it. -/
theorem not_doing (hi : Inv s) {c : Nat} {g : GetAll} (hg : (s.clients c).phase.trx = some (.get g)) {i : Item}
    (hh : ((s.nodes (cp.get i.key)).mutex_table i.key).Holds c) (c' : Nat) : ¬ Doing s.nodes c' (s.clients c') i := by
  intro hd
  obtain ⟨p, hp, hh'⟩ := hd.holds hi
  have e : c = c' := hi.held_alone hp hh' hh
  subst e
  rw [hg] at hp
  cases hp

/-- What a GET returns. -/
theorem read_snapshot (hi : Inv s) (hd : Data s) (hc : Clocks PutAll.ts s.puts) {c : Nat} {srv : cp.Server} {key : Key}
    (hx : (s.clients c).conns srv = .locked (.GET key)) :
    ((s.nodes srv).table.get_latest_item key).2 = snapshot (putsOf s.finished) key := by
  obtain ⟨hs, g, _, _, hp, -⟩ := hi.getting (k := key) (by rw [hx]; rfl)
  subst hs
  have hg : (s.clients c).phase.trx = some (.get g) := by rw [hp]; rfl
  have hh : ((s.nodes (cp.get key)).mutex_table key).Holds c := by
    rw [(hi.execs c _).holds, hx]
    exact .inl rfl
  have hno : ∀ i, i.key = key → ∀ c', ¬ Doing s.nodes c' (s.clients c') i := by
    intro i e
    subst e
    exact not_doing hi hg hh
  -- the versions of the key are those of the `put_all`s that have finished
  have hfin : ∀ ts i, i ∈ (s.nodes (cp.get key)).table.versions ts → i.key = key → i ∈ writes (putsOf s.finished) key := by
    intro ts i hm hk
    obtain ⟨-, -, hdone⟩ := hd.versions _ ts i hm
    rcases hdone with hfin | ⟨c', hdo⟩
    · exact mem_writes.mpr ⟨hk, hfin⟩
    · exact absurd hdo (hno i hk c')
  have hle : ∀ i ∈ writes (putsOf s.finished) key, i.ts ≤ (s.nodes (cp.get key)).table.latest key := by
    intro i hm
    obtain ⟨rfl, hwr⟩ := mem_writes.mp hm
    rcases hd.le_latest _ _ i (hd.stored i (.inl hwr)) with hle | ⟨c', hx'⟩
    · exact hle
    · exact absurd (pushed_doing hi hx').2 (hno i rfl c')
  have hpos : ∀ i ∈ writes (putsOf s.finished) key, Timestamp.empty < i.ts := by
    intro i hm
    obtain ⟨-, p, hpf, hip⟩ := mem_writes.mp hm
    rw [(mem_items.mp hip).2.1]
    exact hc.positive p (hd.started p (.inl hpf))
  show (s.nodes (cp.get key)).table.get_item_by_ver key ((s.nodes (cp.get key)).table.latest key) = _
  rcases hd.latest_version (cp.get key) key with h0 | ⟨i, hm, hk⟩
  · have hnil : writes (putsOf s.finished) key = [] := by
      refine List.eq_nil_iff_forall_not_mem.mpr fun i hm => ?_
      have hlt := (hpos i hm).trans_le (hle i hm)
      rw [h0] at hlt
      exact lt_irrefl _ hlt
    rw [snapshot, hnil]
    rcases get_item_by_ver_cases (s.nodes (cp.get key)).table key
      ((s.nodes (cp.get key)).table.latest key) with ⟨hm, hk⟩ | ⟨he, -⟩
    · have := hfin _ _ hm hk
      rw [hnil] at this
      cases this
    · exact he
  · rcases get_item_by_ver_cases (s.nodes (cp.get key)).table key
      ((s.nodes (cp.get key)).table.latest key) with ⟨hm', hk'⟩ | ⟨-, hno'⟩
    · have hw := hfin _ _ hm' hk'
      have hts := (hd.versions _ _ _ hm').1
      refine (newest_eq (writes_distinct hc (fun p hp => hd.started p (.inl hp)) key) hw (hpos _ hw) fun y hy => ?_).symm
      show y.ts ≤ _
      rw [hts]
      exact hle y hy
    · exact absurd hk (hno' i hm)

/-! ## Clients' steps -/

/-- A client that changes neither what it has put nor its `put_all`. -/
theorem doing_congr {nodes nodes' : cp.Server → Node} {c : Nat} {cl cl' : Client cp.Server}
    (hp : ∀ p, (∃ todo ret, cl'.phase = .sending (.put p) todo ret) ↔ ∃ todo ret, cl.phase = .sending (.put p) todo ret)
    (ha : ∀ srv, (nodes' srv).access_keys c = (nodes srv).access_keys c)
    (hx : ∀ srv i, cl'.conns srv = .pushed i ↔ cl.conns srv = .pushed i) (i : Item) :
    Doing nodes' c cl' i ↔ Doing nodes c cl i := by
  simp only [Doing, hp, ha, hx]

theorem putDone_congr {nodes : cp.Server → Node} {clients : Nat → Client cp.Server} {puts : List PutAll}
    {finished completed : List (Trx × Ret)} (hf : putsOf finished = putsOf s.finished)
    (h : ∀ c i, Doing nodes c (clients c) i ↔ Doing s.nodes c (s.clients c) i) (i : Item) :
    PutDone ⟨nodes, clients, puts, finished, completed⟩ i ↔ PutDone s i := by
  simp only [PutDone, hf, h]

/-- A step of client `c` that touches no server. -/
theorem data_client (hd : Data s) {c : Nat} {cl : Client cp.Server} {puts : List PutAll} {finished completed : List (Trx × Ret)}
    (hdone : ∀ i, PutDone ⟨s.nodes, Function.update s.clients c cl, puts, finished, completed⟩ i ↔ PutDone s i)
    (hx : ∀ srv i, (s.clients c).conns srv = .pushed i → cl.conns srv = .pushed i)
    (hs : ∀ p, p ∈ putsOf finished ∨ cl.phase.trx = some (.put p) → p ∈ puts) (hsub : s.puts ⊆ puts) :
    Data ⟨s.nodes, Function.update s.clients c cl, puts, finished, completed⟩ := by
  refine ⟨fun srv ts i hm => ?_, fun i h => hd.stored i ((hdone i).mp h), hd.latest_version, fun srv ts i hm => ?_, fun p hp => ?_⟩
  · obtain ⟨h1, h2, h3⟩ := hd.versions srv ts i hm
    exact ⟨h1, h2, (hdone i).mpr h3⟩
  · refine (hd.le_latest srv ts i hm).imp id fun ⟨c', h⟩ => ⟨c', ?_⟩
    show (Function.update s.clients c cl c').conns srv = .pushed i
    by_cases e : c' = c
    · subst e
      rw [Function.update_self]
      exact hx srv i h
    · rwa [Function.update_of_ne e]
  · rcases hp with hp | ⟨c', hp⟩
    · exact hs p (.inl hp)
    · have hp : (Function.update s.clients c cl c').phase.trx = some (.put p) := hp
      by_cases e : c' = c
      · subst e
        rw [Function.update_self] at hp
        exact hs p (.inr hp)
      · rw [Function.update_of_ne e] at hp
        exact hsub (hd.started p (.inr ⟨c', hp⟩))

/-- The same, when it goes on with its `put_all` or is in none. -/
theorem data_client_same (hd : Data s) {c : Nat} {cl : Client cp.Server} {puts : List PutAll} {completed : List (Trx × Ret)}
    (hdo : ∀ i, Doing s.nodes c cl i ↔ Doing s.nodes c (s.clients c) i)
    (hx : ∀ srv i, (s.clients c).conns srv = .pushed i → cl.conns srv = .pushed i)
    (hs : ∀ p, cl.phase.trx = some (.put p) → p ∈ puts) (hsub : s.puts ⊆ puts) :
    Data ⟨s.nodes, Function.update s.clients c cl, puts, s.finished, completed⟩ := by
  refine data_client hd (putDone_congr rfl fun c' i => ?_) hx (fun p hp => ?_) hsub
  · by_cases e : c' = c
    · subst e
      rw [Function.update_self]
      exact hdo i
    · rw [Function.update_of_ne e]
  · exact hp.elim (fun hp => hsub (hd.started p (.inl hp))) (hs p)

/-- A connection that was not, and will not be, between `prepare` and `commit`. -/
theorem pushed_update (conns : cp.Server → Conn) (srv : cp.Server) (x : Conn) (h : ∀ i, conns srv ≠ .pushed i)
    (hx : ∀ i, x ≠ .pushed i) (srv' : cp.Server) (i : Item) :
    Function.update conns srv x srv' = .pushed i ↔ conns srv' = .pushed i := by
  by_cases e : srv' = srv
  · subst e
    rw [Function.update_self]
    exact iff_of_false (hx i) (h i)
  · rw [Function.update_of_ne e]

/-! ## Executors' steps -/

theorem served_store {n n' : Node} {c : Nat} {x x' : Conn} (h : Served n c x n' x') :
    (∀ ts i, i ∈ n'.table.versions ts ↔ i ∈ n.table.versions ts ∨ x = .locked (.PUT i) ∧ i.ts = ts) ∧
    (∀ k, n.table.latest k ≤ n'.table.latest k) ∧
    (∀ k, n'.table.latest k = n.table.latest k ∨
      ∃ item, x = .pushed item ∧ item.key = k ∧ n'.table.latest k = item.ts) ∧
    ∀ item, x = .pushed item → item.ts ≤ n'.table.latest item.key := by
  cases h with
  | @push item =>
    refine ⟨fun ts i => ?_, fun k => le_rfl, fun k => .inl rfl, fun item e => by cases e⟩
    show i ∈ (n.table.push_back item).versions ts ↔ _
    rw [Store.mem_versions_push_back]
    refine or_congr_right ⟨fun ⟨e1, e2⟩ => ?_, fun ⟨e1, e2⟩ => ?_⟩
    · subst e1
      exact ⟨rfl, e2.symm⟩
    · cases e1
      exact ⟨rfl, e2.symm⟩
  | @put item =>
    have hl : ∀ k, (n.table.commit_key item.key item.ts).latest k =
        if k = item.key ∧ n.table.latest item.key < item.ts then item.ts else n.table.latest k :=
      commit_key_latest n.table item.key item.ts
    refine ⟨fun ts i => ?_, fun k => ?_, fun k => ?_, fun item' e => ?_⟩
    · show i ∈ (n.table.commit_key item.key item.ts).versions ts ↔ _
      rw [Store.versions_congr (commit_key_items _ _ _)]
      exact ⟨.inl, fun h => h.resolve_right fun ⟨e, _⟩ => by cases e⟩
    · show _ ≤ (n.table.commit_key item.key item.ts).latest k
      rw [hl]
      split
      · rename_i hk
        rw [hk.1]
        exact hk.2.le
      · exact le_rfl
    · show (n.table.commit_key item.key item.ts).latest k = _ ∨
        ∃ item', _ ∧ _ ∧ (n.table.commit_key item.key item.ts).latest k = _
      rw [hl]
      split
      · rename_i hk
        exact .inr ⟨item, rfl, hk.1.symm, rfl⟩
      · exact .inl rfl
    · cases e
      show _ ≤ (n.table.commit_key item.key item.ts).latest item.key
      rw [hl]
      split
      · exact le_rfl
      · rename_i hk
        exact not_lt.mp fun hlt => hk ⟨rfl, hlt⟩
  | @get key =>
    have hl : ∀ k, (n.table.get_latest_item key).1.latest k = n.table.latest k := Store.touch_latest _ _
    refine ⟨fun ts i => ⟨.inl, fun h => h.resolve_right fun ⟨e, _⟩ => by cases e⟩, fun k => (hl k).ge, fun k => .inl (hl k),
      fun item e => by cases e⟩
  | _ =>
    exact ⟨fun ts i => ⟨.inl, fun h => h.resolve_right fun ⟨e, _⟩ => by cases e⟩, fun k => le_rfl, fun k => .inl rfl,
      fun item e => by cases e⟩

theorem access_update {nodes : cp.Server → Node} {srv : cp.Server} {n : Node} {c : Nat}
    (h : n.access_keys c = (nodes srv).access_keys c) (srv' : cp.Server) :
    (Function.update nodes srv n srv').access_keys c = (nodes srv').access_keys c := by
  by_cases e : srv' = srv
  · subst e
    rw [Function.update_self, h]
  · rw [Function.update_of_ne e]

/-- A version goes into the table. -/
theorem doing_push (hi : Inv s) {c : Nat} {srv : cp.Server} {item i : Item}
    (hx : (s.clients c).conns srv = .locked (.PUT item)) :
    Doing (Function.update s.nodes srv { s.nodes srv with table := (s.nodes srv).table.push_back item }) c
      ((s.clients c).put_conn srv (.pushed item)) i ↔ Doing s.nodes c (s.clients c) i ∨ item = i := by
  have ha : (Function.update s.nodes srv { s.nodes srv with table := (s.nodes srv).table.push_back item }
      (cp.get i.key)).access_keys c = (s.nodes (cp.get i.key)).access_keys c := by
    apply access_update
    rfl
  constructor
  · intro ⟨p, hp, hip, hk⟩
    rw [ha] at hk
    rcases hk with hk | hk
    · exact .inl ⟨p, hp, hip, .inl hk⟩
    · have hk : Function.update (s.clients c).conns srv (.pushed item) (cp.get i.key) = .pushed i := hk
      by_cases e : cp.get i.key = srv
      · rw [e, Function.update_self] at hk
        cases hk
        exact .inr rfl
      · rw [Function.update_of_ne e] at hk
        exact .inl ⟨p, hp, hip, .inr hk⟩
  · intro h
    rcases h with ⟨p, hp, hip, hk⟩ | e
    · refine ⟨p, hp, hip, ?_⟩
      rw [ha]
      refine hk.imp id fun hk => ?_
      have e : cp.get i.key ≠ srv := by
        intro e
        rw [e, hx] at hk
        cases hk
      show Function.update (s.clients c).conns srv _ (cp.get i.key) = _
      rwa [Function.update_of_ne e]
    · subst e
      obtain ⟨hs, p, _, _, hp, hip⟩ := hi.putting (i := item) (by rw [hx]; rfl)
      refine ⟨p, ⟨_, _, hp⟩, hip, .inr ?_⟩
      show Function.update (s.clients c).conns srv _ (cp.get item.key) = _
      rw [hs, Function.update_self]

/-- Its key goes into `access_keys`. -/
theorem doing_put (hi : Inv s) {c : Nat} {srv : cp.Server} {item i : Item} (hx : (s.clients c).conns srv = .pushed item) :
    Doing (Function.update s.nodes srv
        ({ s.nodes srv with table := (s.nodes srv).table.commit_key item.key item.ts }.set_access c
          (((s.nodes srv).access_keys c).insert item.key))) c
      ((s.clients c).put_conn srv (.answered (.PUT item) .DONE)) i ↔ Doing s.nodes c (s.clients c) i := by
  obtain ⟨hs, q, ⟨todo, ret, hq⟩, hiq, -⟩ := pushed_doing hi hx
  constructor
  · intro ⟨p, hp, hip, hk⟩
    refine ⟨p, hp, hip, ?_⟩
    by_cases e : cp.get i.key = srv
    · rw [e]
      have hk : i.key ∈ (Function.update s.nodes srv _ (cp.get i.key)).access_keys c ∨
        Function.update (s.clients c).conns srv _ (cp.get i.key) = .pushed i := hk
      rw [e, Function.update_self, Function.update_self] at hk
      rcases hk with hk | hk
      · rw [set_access_same, Std.ExtTreeSet.mem_insert, compare_eq_iff_eq] at hk
        rcases hk with hk | hk
        · -- the version just put
          obtain ⟨todo', ret', hp⟩ := hp
          have hp : (s.clients c).phase = .sending (.put p) todo' ret' := hp
          rw [hq] at hp
          cases hp
          have e : item = i := items_unique hiq hip hk
          subst e
          exact .inr hx
        · exact .inl hk
      · cases hk
    · have hk : i.key ∈ (Function.update s.nodes srv _ (cp.get i.key)).access_keys c ∨
        Function.update (s.clients c).conns srv _ (cp.get i.key) = .pushed i := hk
      rwa [Function.update_of_ne e, Function.update_of_ne e] at hk
  · intro ⟨p, hp, hip, hk⟩
    refine ⟨p, hp, hip, ?_⟩
    show i.key ∈ (Function.update s.nodes srv _ (cp.get i.key)).access_keys c ∨
      Function.update (s.clients c).conns srv _ (cp.get i.key) = .pushed i
    by_cases e : cp.get i.key = srv
    · rw [e, Function.update_self, set_access_same, Std.ExtTreeSet.mem_insert]
      rw [e, hx] at hk
      rcases hk with hk | hk
      · exact .inl (.inr hk)
      · cases hk
        exact .inl (.inl (compare_eq_iff_eq.mpr rfl))
    · rwa [Function.update_of_ne e, Function.update_of_ne e]

/-- Serving a client adds the version whose `prepare` it executes to what it has put. -/
theorem served_doing (hi : Inv s) {c : Nat} {srv : cp.Server} {n : Node} {x : Conn}
    (h : Served (s.nodes srv) c ((s.clients c).conns srv) n x) (i : Item) :
    Doing (Function.update s.nodes srv n) c ((s.clients c).put_conn srv x) i ↔
      Doing s.nodes c (s.clients c) i ∨ (s.clients c).conns srv = .locked (.PUT i) := by
  have hph := hi.phases c
  have keep : n.access_keys c = (s.nodes srv).access_keys c → (∀ j, (s.clients c).conns srv ≠ .pushed j) →
      (∀ j, x ≠ .pushed j) → (s.clients c).conns srv ≠ .locked (.PUT i) →
      (Doing (Function.update s.nodes srv n) c ((s.clients c).put_conn srv x) i ↔
        Doing s.nodes c (s.clients c) i ∨ (s.clients c).conns srv = .locked (.PUT i)) := by
    intro ha h1 h2 hne
    rw [or_iff_left hne]
    have hx' : ∀ srv' j, ((s.clients c).put_conn srv x).conns srv' = .pushed j ↔ (s.clients c).conns srv' = .pushed j :=
      pushed_update _ _ _ h1 h2
    exact @doing_congr cp s.nodes _ c (s.clients c) ((s.clients c).put_conn srv x) (fun p => Iff.rfl) (access_update ha) hx' i
  -- in no `put_all` before or after
  have none : (∀ p todo ret, (s.clients c).phase ≠ .sending (.put p) todo ret) → (s.clients c).conns srv ≠ .locked (.PUT i) →
      (Doing (Function.update s.nodes srv n) c ((s.clients c).put_conn srv x) i ↔
        Doing s.nodes c (s.clients c) i ∨ (s.clients c).conns srv = .locked (.PUT i)) := by
    intro hp hne
    rw [or_iff_left hne]
    exact iff_of_false (fun ⟨p, ⟨todo, ret, e⟩, _⟩ => hp p todo ret e) fun ⟨p, ⟨todo, ret, e⟩, _⟩ => hp p todo ret e
  generalize hx : (s.clients c).conns srv = x0 at h
  rw [hx] at keep none
  cases h with
  | write_lock _ => exact keep rfl (fun j e => by cases e) (fun j e => by cases e) fun e => by cases e
  | read_lock _ => exact keep rfl (fun j e => by cases e) (fun j e => by cases e) fun e => by cases e
  | release => exact keep rfl (fun j e => by cases e) (fun j e => by cases e) fun e => by cases e
  | unlock => exact keep rfl (fun j e => by cases e) (fun j e => by cases e) fun e => by cases e
  | @get key =>
    obtain ⟨-, g, _, _, hp, -⟩ := hi.getting (k := key) (by rw [hx]; rfl)
    refine none (fun p todo ret e => ?_) fun e => by cases e
    rw [hp] at e
    cases e
  | released =>
    refine none (fun p todo ret e => ?_) fun e => by cases e
    rw [e] at hph
    rcases hph.2.1 srv with h0 | ⟨r, rest, -, hr, -⟩
    · rw [hx] at h0
      cases h0
    · rw [hx] at hr
      cases hr
  | push => exact (doing_push hi hx).trans (or_congr_right (by simp))
  | put =>
    rw [or_iff_left (fun e => by cases e)]
    exact doing_put hi hx

theorem putDone_serve (hi : Inv s) {c : Nat} {srv : cp.Server} {n : Node} {x : Conn}
    (h : Served (s.nodes srv) c ((s.clients c).conns srv) n x) (i : Item) :
    PutDone { s.set c ((s.clients c).put_conn srv x) with nodes := Function.update s.nodes srv n } i ↔
      PutDone s i ∨ (s.clients c).conns srv = .locked (.PUT i) := by
  have other : ∀ c', c' ≠ c → (Doing (Function.update s.nodes srv n) c'
      (Function.update s.clients c ((s.clients c).put_conn srv x) c') i ↔ Doing s.nodes c' (s.clients c') i) := by
    intro c' e
    rw [Function.update_of_ne e]
    exact doing_congr (fun p => Iff.rfl) (access_update (served_other h (hi.readers srv) e).2) (fun _ _ => Iff.rfl) i
  have own : Doing (Function.update s.nodes srv n) c (Function.update s.clients c ((s.clients c).put_conn srv x) c) i ↔
      Doing s.nodes c (s.clients c) i ∨ (s.clients c).conns srv = .locked (.PUT i) := by
    rw [Function.update_self]
    exact served_doing hi h i
  constructor
  · intro hp
    rcases hp with hp | ⟨c', hp⟩
    · exact .inl (.inl hp)
    · by_cases e : c' = c
      · subst e
        exact (own.mp hp).imp (fun hp => .inr ⟨c', hp⟩) id
      · exact .inl (.inr ⟨c', (other c' e).mp hp⟩)
  · intro hp
    rcases hp with (hp | ⟨c', hp⟩) | hp
    · exact .inl hp
    · by_cases e : c' = c
      · subst e
        exact .inr ⟨c', own.mpr (.inl hp)⟩
      · exact .inr ⟨c', (other c' e).mpr hp⟩
    · exact .inr ⟨c, own.mpr (.inr hp)⟩

theorem data_serve (hi : Inv s) (hd : Data s) {c : Nat} {srv : cp.Server} {n : Node} {x : Conn}
    (h : Served (s.nodes srv) c ((s.clients c).conns srv) n x) :
    Data { s.set c ((s.clients c).put_conn srv x) with nodes := Function.update s.nodes srv n } := by
  obtain ⟨hv, hle, hl, hput⟩ := served_store h
  have hdone := putDone_serve hi h
  refine ⟨fun srv' ts i hm => ?_, fun i hp => ?_, fun srv' k => ?_, fun srv' ts i hm => ?_, fun p hp => ?_⟩
  · have hm : i ∈ (Function.update s.nodes srv n srv').table.versions ts := hm
    rw [hdone]
    by_cases e : srv' = srv
    · subst e
      rw [Function.update_self, hv] at hm
      rcases hm with hm | ⟨hx, hts⟩
      · obtain ⟨h1, h2, h3⟩ := hd.versions srv' ts i hm
        exact ⟨h1, h2, .inl h3⟩
      · obtain ⟨-, -, -, -, -, -, hs, -⟩ := hi.request (r := .PUT i) (by rw [hx]; rfl)
        exact ⟨hts, hs, .inr hx⟩
    · rw [Function.update_of_ne e] at hm
      obtain ⟨h1, h2, h3⟩ := hd.versions srv' ts i hm
      exact ⟨h1, h2, .inl h3⟩
  · show i ∈ (Function.update s.nodes srv n (cp.get i.key)).table.versions i.ts
    rcases (hdone i).mp hp with hp | hx
    · have hm := hd.stored i hp
      by_cases e : cp.get i.key = srv
      · rw [e] at hm
        rw [e, Function.update_self, hv]
        exact .inl hm
      · rwa [Function.update_of_ne e]
    · obtain ⟨hs, -⟩ := hi.putting (i := i) (by rw [hx]; rfl)
      rw [hs, Function.update_self, hv]
      exact .inr ⟨hx, rfl⟩
  · show (Function.update s.nodes srv n srv').table.latest k = .empty ∨
      ∃ i ∈ (Function.update s.nodes srv n srv').table.versions ((Function.update s.nodes srv n srv').table.latest k), i.key = k
    by_cases e : srv' = srv
    · subst e
      rw [Function.update_self]
      rcases hl k with he | ⟨item, hx, hk, he⟩
      · rw [he]
        refine (hd.latest_version srv' k).imp id fun ⟨i, hm, hk⟩ => ⟨i, ?_, hk⟩
        exact (hv _ _).mpr (.inl hm)
      · right
        obtain ⟨hs, hdo⟩ := pushed_doing hi hx
        have hm := hd.stored item (.inr ⟨c, hdo⟩)
        rw [hs] at hm
        rw [he]
        exact ⟨item, (hv _ _).mpr (.inl hm), hk⟩
    · rw [Function.update_of_ne e]
      exact hd.latest_version srv' k
  · have hm : i ∈ (Function.update s.nodes srv n srv').table.versions ts := hm
    show ts ≤ (Function.update s.nodes srv n srv').table.latest i.key ∨
      ∃ c', (Function.update s.clients c ((s.clients c).put_conn srv x) c').conns srv' = .pushed i
    by_cases e : srv' = srv
    · subst e
      rw [Function.update_self, hv] at hm
      rw [Function.update_self]
      rcases hm with hm | ⟨hx, hts⟩
      · have hts := (hd.versions srv' ts i hm).1
        rcases hd.le_latest srv' ts i hm with hlt | ⟨c', hx⟩
        · exact .inl (hlt.trans (hle _))
        · by_cases ec : c' = c
          · subst ec
            rw [← hts]
            exact .inl (hput i hx)
          · refine .inr ⟨c', ?_⟩
            rwa [Function.update_of_ne ec]
      · -- just prepared
        refine .inr ⟨c, ?_⟩
        rw [hx] at h
        cases h
        rw [Function.update_self]
        exact Function.update_self _ _ _
    · rw [Function.update_of_ne e] at hm
      rw [Function.update_of_ne e]
      refine (hd.le_latest srv' ts i hm).imp id fun ⟨c', hx⟩ => ⟨c', ?_⟩
      by_cases ec : c' = c
      · subst ec
        rw [Function.update_self]
        show Function.update (s.clients c').conns srv x srv' = _
        rwa [Function.update_of_ne e]
      · rwa [Function.update_of_ne ec]
  · refine hd.started p (hp.imp id fun ⟨c', hp⟩ => ⟨c', ?_⟩)
    have hp : (Function.update s.clients c ((s.clients c).put_conn srv x) c').phase.trx = some (.put p) := hp
    by_cases ec : c' = c
    · subst ec
      rw [Function.update_self] at hp
      exact hp
    · rwa [Function.update_of_ne ec] at hp

/-- What a client has put, it has finished when it starts to release. -/
theorem data_release (hi : Inv s) (hd : Data s) {c : Nat} {t : Trx} {ret : Ret} (hp : (s.clients c).phase = .sending t [] ret)
    (hq : (s.clients c).AllQuiet) :
    Data { s.set c { s.clients c with phase := .releasing t ret (s.clients c).access_coms } with
      finished := (t, ret) :: s.finished } := by
  have hnot : ∀ i, ¬ Doing s.nodes c { s.clients c with phase := .releasing t ret (s.clients c).access_coms } i := by
    intro i ⟨q, ⟨todo, ret, e⟩, _⟩
    cases e
  have hdo : ∀ i, Doing s.nodes c (s.clients c) i ↔ ∃ p, t = .put p ∧ i ∈ p.items := by
    intro i
    constructor
    · intro ⟨q, ⟨todo, ret, e⟩, hq, _⟩
      rw [hp] at e
      cases e
      exact ⟨q, rfl, hq⟩
    · intro ⟨q, e, hq⟩
      subst e
      exact all_doing hi hp hq
  have hputs : ∀ q, q ∈ putsOf ((t, ret) :: s.finished) ↔ t = .put q ∨ q ∈ putsOf s.finished := by
    intro q
    rw [mem_putsOf, mem_putsOf]
    simp only [List.mem_cons, Prod.mk.injEq]
    constructor
    · intro ⟨ret', h⟩
      rcases h with ⟨e, -⟩ | h
      · exact .inl e.symm
      · exact .inr ⟨ret', h⟩
    · intro h
      rcases h with e | ⟨ret', h⟩
      · exact ⟨ret, .inl ⟨e.symm, rfl⟩⟩
      · exact ⟨ret', .inr h⟩
  refine data_client hd (fun i => ?_) (fun srv i e => by rw [hq] at e; cases e) (fun q hq => ?_) (List.Subset.refl _)
  · simp only [PutDone, hputs]
    constructor
    · intro h
      rcases h with ⟨q, e | hq, hi⟩ | ⟨c', hdo'⟩
      · exact .inr ⟨c, (hdo i).mpr ⟨q, e, hi⟩⟩
      · exact .inl ⟨q, hq, hi⟩
      · by_cases e : c' = c
        · subst e
          rw [Function.update_self] at hdo'
          exact absurd hdo' (hnot i)
        · rw [Function.update_of_ne e] at hdo'
          exact .inr ⟨c', hdo'⟩
    · intro h
      rcases h with ⟨q, hq, hi⟩ | ⟨c', hdo'⟩
      · exact .inl ⟨q, .inr hq, hi⟩
      · by_cases e : c' = c
        · subst e
          obtain ⟨q, e, hi⟩ := (hdo i).mp hdo'
          exact .inl ⟨q, .inl e, hi⟩
        · refine .inr ⟨c', ?_⟩
          rwa [Function.update_of_ne e]
  · rw [hputs] at hq
    rcases hq with (e | hq) | e
    · refine hd.started q (.inr ⟨c, ?_⟩)
      rw [hp, ← e]
      rfl
    · exact hd.started q (.inl hq)
    · refine hd.started q (.inr ⟨c, ?_⟩)
      rw [hp]
      exact e

theorem data_step {s' : State cp} (hi : Inv s) (hd : Data s) (h : Step s s') : Data s' := by
  cases h with
  | @put_all c p hpc hp =>
    have hph := hi.phases c
    rw [hp] at hph
    refine data_client_same hd (fun i => ?_) (fun srv i h => h) (fun q hq => ?_) (List.subset_cons_self _ _)
    · refine iff_of_false ?_ ?_
      · intro ⟨q, _, _, hk⟩
        rcases hk with hk | hx
        · rw [(hph _).2] at hk
          exact Std.ExtTreeSet.not_mem_empty hk
        · rw [(hph _).1] at hx
          cases hx
      · intro ⟨q, ⟨todo, ret, e⟩, _⟩
        rw [hp] at e
        cases e
    · cases hq
      exact List.mem_cons_self
  | @get_all c g hgc hp =>
    refine data_client_same hd (fun i => ?_) (fun srv i h => h) (fun q hq => by cases hq) (List.Subset.refl _)
    refine iff_of_false ?_ ?_
    · intro ⟨q, ⟨todo, ret, e⟩, _⟩
      cases e
    · intro ⟨q, ⟨todo, ret, e⟩, _⟩
      rw [hp] at e
      cases e
  | @send c t r todo ret hp hq =>
    have hx := pushed_update (s.clients c).conns (cp.get r.key) (.asked r)
      (fun i e => by rw [hq] at e; cases e) fun i e => by cases e
    refine data_client_same hd (doing_congr (fun p => Iff.rfl) (fun srv => rfl) hx) (fun srv i => (hx srv i).mpr)
      (fun p e => ?_) (List.Subset.refl _)
    exact hd.started p (.inr ⟨c, e⟩)
  | @recv c srv r r' a t todo ret hxa hp =>
    have hx := pushed_update (s.clients c).conns srv .quiet
      (fun i e => by rw [hxa] at e; cases e) fun i e => by cases e
    refine data_client_same hd (doing_congr (fun p => ?_) (fun srv => rfl) hx) (fun srv i => (hx srv i).mpr)
      (fun p e => ?_) (List.Subset.refl _)
    · rw [hp]
      constructor
      · intro ⟨todo, ret, e⟩
        cases e
        exact ⟨_, _, rfl⟩
      · intro ⟨todo, ret, e⟩
        cases e
        exact ⟨_, _, rfl⟩
    · refine hd.started p (.inr ⟨c, ?_⟩)
      rw [hp]
      exact e
  | release hp hq => exact data_release hi hd hp hq
  | @send_release c srv t ret todo hp hq =>
    have hx := pushed_update (s.clients c).conns srv .release_locks
      (fun i e => by rw [hq] at e; cases e) fun i e => by cases e
    refine data_client_same hd (doing_congr (fun p => ?_) (fun srv => rfl) hx) (fun srv i => (hx srv i).mpr)
      (fun p e => ?_) (List.Subset.refl _)
    · rw [hp]
      exact iff_of_false (fun ⟨_, _, e⟩ => by cases e) fun ⟨_, _, e⟩ => by cases e
    · refine hd.started p (.inr ⟨c, ?_⟩)
      rw [hp]
      exact e
  | @recv_release c srv t ret todo hxr hp =>
    have hx := pushed_update (s.clients c).conns srv .quiet
      (fun i e => by rw [hxr] at e; cases e) fun i e => by cases e
    refine data_client_same hd (doing_congr (fun p => Iff.rfl) (fun srv => rfl) hx) (fun srv i => (hx srv i).mpr)
      (fun p e => ?_) (List.Subset.refl _)
    exact hd.started p (.inr ⟨c, e⟩)
  | @return_all c t ret hp hq =>
    refine data_client_same hd (doing_congr (fun p => ?_) (fun srv => rfl) fun srv i => Iff.rfl) (fun srv i h => h)
      (fun q hq => by cases hq) (List.Subset.refl _)
    rw [hp]
    exact iff_of_false (fun ⟨_, _, e⟩ => by cases e) fun ⟨_, _, e⟩ => by cases e
  | @clear c hp =>
    refine data_client_same hd (doing_congr (fun p => Iff.rfl) (fun srv => rfl) fun srv i => Iff.rfl) (fun srv i h => h)
      (fun p e => hd.started p (.inr ⟨c, e⟩)) (List.Subset.refl _)
  | serve h => exact data_serve hi hd h

end

theorem data {s : State cp} (h : Reachable s) : Data s := by
  induction h with
  | init =>
    refine ⟨fun srv ts i hm => ?_, fun i hp => ?_, fun srv k => .inl rfl, fun srv ts i hm => ?_, fun p hp => ?_⟩
    · cases hm
    · rcases hp with ⟨p, hp, -⟩ | ⟨c, p, ⟨todo, ret, e⟩, -⟩
      · cases hp
      · cases e
    · cases hm
    · rcases hp with hp | ⟨c, e⟩
      · cases hp
      · cases e
  | step h hs ih => exact data_step (inv h) ih (step_cases hs)

end RampRdma.Locking
