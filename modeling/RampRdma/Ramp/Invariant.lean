/-
  RampRdma.Ramp.Invariant — what holds in every reachable state, whatever timestamps the
  `put_all`s draw.

  - Every version at a server is one of a `put_all`'s items, at the server of its key.
  - A `put_all` past its PREPAREs (`prepared`) has all its versions in place; a COMMIT in
    flight or executing carries the timestamp of such a one (`Ready`).
  - So what a first round returns, from the server or from the cache, is an empty item or
    a version with a `Ready` timestamp (`Seen`), and a `v_latest[k]` that is not empty is
    the timestamp of such a version that names `k` (`VersionsOk`).
  - A second-round answer is a version of the key it asked for, or `Item()` if a `put_all`
    with that timestamp does not write the key (`Fetched`).

  `TableOk`, `ConnOk` and `PhaseOk` say this of a server, a connection and a client;
  each only asks more facts of `puts`, `prepared` and the tables, which grow
  (`TableLe`). `inv` is the run lemma, `serve_inv` and `client_inv` its two kinds of step.
-/

import Mathlib
import RampRdma.Data
import RampRdma.Lib.Runs
import RampRdma.Ramp.System

namespace RampRdma.Ramp

open Runs

variable {cfg : Config}

/-! ## Versions and timestamps -/

theorem mem_items {p : PutAll} {i : Item} :
    i ∈ p.items ↔ p.trx.write_set[i.key]? = some i.values ∧ i.ts = p.ts ∧ i.trx_keys = p.trx.access_keys := by
  simp only [PutAll.items, List.mem_map]
  constructor
  · intro ⟨w, hw, he⟩
    subst he
    exact ⟨Std.ExtTreeMap.mem_toList_iff_getElem?_eq_some.mp hw, rfl, rfl⟩
  · intro ⟨hv, ht, hk⟩
    refine ⟨(i.key, i.values), Std.ExtTreeMap.mem_toList_iff_getElem?_eq_some.mpr hv, ?_⟩
    cases i
    simp_all

/-- A version of some `put_all`. -/
def Written (puts : List PutAll) (i : Item) : Prop := ∃ p ∈ puts, i ∈ p.items

/-- Some `put_all` with timestamp `ts` is past its PREPAREs. -/
def Ready (prepared : List PutAll) (ts : Timestamp) : Prop := ∃ p ∈ prepared, p.ts = ts

/-- What a first round may return. -/
def Seen (puts prepared : List PutAll) (i : Item) : Prop :=
  i.ts = .empty ∧ (i.trx_keys = ∅ ∨ Written puts i) ∨ Written puts i ∧ Ready prepared i.ts

def Stored (tables : cfg.cp.Server → Table) (i : Item) : Prop := i ∈ (tables (cfg.cp.get i.key)).versions i.ts

theorem Written.mono {puts puts' : List PutAll} (hp : puts ⊆ puts') {i : Item} (h : Written puts i) : Written puts' i := by
  obtain ⟨p, hm, hi⟩ := h
  exact ⟨p, hp hm, hi⟩

theorem Ready.mono {prepared prepared' : List PutAll} (hr : prepared ⊆ prepared') {ts : Timestamp}
    (h : Ready prepared ts) : Ready prepared' ts := by
  obtain ⟨p, hm, ht⟩ := h
  exact ⟨p, hr hm, ht⟩

theorem Seen.mono {puts puts' prepared prepared' : List PutAll} (hp : puts ⊆ puts') (hr : prepared ⊆ prepared')
    {i : Item} (h : Seen puts prepared i) : Seen puts' prepared' i := by
  rcases h with ⟨h0, hk | hw⟩ | ⟨hw, hr'⟩
  · exact .inl ⟨h0, .inl hk⟩
  · exact .inl ⟨h0, .inr (hw.mono hp)⟩
  · exact .inr ⟨hw.mono hp, hr'.mono hr⟩

theorem seen_empty {puts prepared : List PutAll} {i : Item} (h0 : i.ts = .empty) (hk : i.trx_keys = ∅) :
    Seen puts prepared i := .inl ⟨h0, .inl hk⟩

/-! ## Tables -/

/-- Versions and addresses stay. -/
structure TableLe (t t' : Table) : Prop where
  versions : ∀ ts i, i ∈ t.versions ts → i ∈ t'.versions ts
  address : ∀ k e, t.committed_items.entries.find k = some (some e) → t'.committed_items.entries.find k = some (some e)

theorem TableLe.refl (t : Table) : TableLe t t := ⟨fun _ _ h => h, fun _ _ h => h⟩

structure TableOk (puts prepared : List PutAll) (srv : cfg.cp.Server) (t : Table) : Prop where
  versions : ∀ ts, ∀ i ∈ t.versions ts, i.ts = ts ∧ Written puts i ∧ cfg.cp.get i.key = srv
  latest : ∀ k, t.latest k = .empty ∨ Ready prepared (t.latest k)
  cache : ∃ a, Represents cfg.C t.committed_items a ∧ ∀ k v i, a.binding k = some (some (.holds v i)) →
    i.key = k ∧ (i = .of_key k ∨ i ∈ t.versions i.ts ∧ Ready prepared i.ts)

theorem TableOk.mono {puts puts' prepared prepared' : List PutAll} (hp : puts ⊆ puts') (hr : prepared ⊆ prepared')
    {srv : cfg.cp.Server} {t : Table} (h : TableOk puts prepared srv t) : TableOk puts' prepared' srv t := by
  refine ⟨fun ts i hi => ?_, fun k => (h.latest k).imp id (Ready.mono hr), ?_⟩
  · obtain ⟨h1, h2, h3⟩ := h.versions ts i hi
    exact ⟨h1, h2.mono hp, h3⟩
  · obtain ⟨a, ha, hc⟩ := h.cache
    refine ⟨a, ha, fun k v i hb => ?_⟩
    obtain ⟨hk, hi⟩ := hc k v i hb
    exact ⟨hk, hi.imp id fun h => ⟨h.1, h.2.mono hr⟩⟩

theorem tableOk_init (srv : cfg.cp.Server) : TableOk [] [] srv (.init ENTRY_NUM) where
  versions ts i hi := by cases hi
  latest k := .inl rfl
  cache := ⟨.init ENTRY_NUM, represents_init _, fun k v i h => by cases h⟩

section
variable {puts prepared : List PutAll} {srv : cfg.cp.Server} {t : Table}

/-- `get_latest_item` returns an empty item or a version with a ready timestamp. -/
theorem TableOk.latest_seen (h : TableOk puts prepared srv t) (key : Key) :
    Seen puts prepared (t.get_latest_item key).2 := by
  show Seen puts prepared (t.get_item_by_ver key (t.latest key))
  rcases get_item_by_ver_cases t.toStore key (t.latest key) with ⟨hm, -⟩ | ⟨he, -⟩
  · obtain ⟨hts, hw, -⟩ := h.versions _ _ hm
    rcases h.latest key with h0 | hr
    · exact .inl ⟨hts.trans h0, .inr hw⟩
    · exact .inr ⟨hw, by rwa [hts]⟩
  · rw [he]
    exact seen_empty rfl rfl

/-- So does a one-sided read. -/
theorem TableOk.read_seen (h : TableOk puts prepared srv t) {key : Key} {addr fuel : Nat} {r : Int} {item : Option Item}
    (ha : t.committed_items.entries.find key = some (some addr))
    (hr : RDMAWriteSocket.read cfg.C fuel (RDMAWriteSocket.contents t.committed_items.mem addr) = some (r, item))
    (hne : r ≠ -1) : ∃ i, item = some i ∧ i.key = key ∧ Seen puts prepared i := by
  obtain ⟨a, hrep, hc⟩ := h.cache
  obtain ⟨s, hb, hs⟩ := hrep.slot ha
  obtain ⟨i, hi, hs'⟩ := read_result hs hr hne
  subst hs'
  obtain ⟨hk, hi'⟩ := hc key true i hb
  refine ⟨i, hi, hk, ?_⟩
  rcases hi' with he | ⟨hm, hrd⟩
  · subst he
    exact seen_empty rfl rfl
  · exact .inr ⟨(h.versions _ _ hm).2.1, hrd⟩

end

/-! ## Connections -/

/-- What a second-round GET may be answered with. -/
def Fetched (prepared : List PutAll) (t : Table) (key : Key) (ts : Timestamp) (item : Item) : Prop :=
  item ∈ t.versions ts ∧ item.key = key ∨ item = .empty ∧ ∃ p ∈ prepared, p.ts = ts ∧ ∀ i ∈ p.items, i.key ≠ key

def ConnOk (puts prepared : List PutAll) (t : Table) : Conn → Prop
  | .quiet => True
  | .asked _ => True
  | .pushed item => item ∈ t.versions item.ts
  | .walking ts rest => ∀ i ∈ rest, i ∈ t.versions ts
  | .looked _ _ item => Seen puts prepared item
  | .answered (.PREPARE item) a => a = .DONE ∧ item ∈ t.versions item.ts
  | .answered (.COMMIT _) a => a = .DONE
  | .answered (.GET key ts) a => ∃ item, a = .RESULT item ∧ (ts = .empty → Seen puts prepared item) ∧
      (ts ≠ .empty → Fetched prepared t key ts item)
  | .answered (.GET_WITH_ADDR key _) a => ∃ item addr, a = .RESULT_ADDR item addr ∧ Seen puts prepared item ∧
      t.committed_items.entries.find key = some (some addr)

theorem ConnOk.mono {puts puts' prepared prepared' : List PutAll} (hp : puts ⊆ puts') (hr : prepared ⊆ prepared')
    {t t' : Table} (ht : TableLe t t') {x : Conn} (h : ConnOk puts prepared t x) : ConnOk puts' prepared' t' x := by
  rcases x with _ | r | item | ⟨ts, rest⟩ | ⟨key, ts, item⟩ | ⟨_ | _ | _ | _, a⟩
  · trivial
  · trivial
  · exact ht.versions _ _ h
  · exact fun i hi => ht.versions _ _ (h i hi)
  · exact Seen.mono hp hr h
  · exact ⟨h.1, ht.versions _ _ h.2⟩
  · exact h
  · obtain ⟨item, ha, h1, h2⟩ := h
    refine ⟨item, ha, fun e => (h1 e).mono hp hr, fun e => ?_⟩
    rcases h2 e with ⟨hm, hk⟩ | ⟨he, p, hm, hk⟩
    · exact .inl ⟨ht.versions _ _ hm, hk⟩
    · exact .inr ⟨he, p, hr hm, hk⟩
  · obtain ⟨item, addr, ha, hs, hf⟩ := h
    exact ⟨item, addr, ha, hs.mono hp hr, ht.address _ _ hf⟩

/-- What a request in flight to `srv` may be. -/
def ReqOk (puts prepared : List PutAll) (srv : cfg.cp.Server) : Request → Prop
  | .PREPARE item => Written puts item ∧ cfg.cp.get item.key = srv
  | .COMMIT ts => Ready prepared ts
  | .GET key ts => cfg.cp.get key = srv ∧ (ts = .empty ∨ Ready prepared ts)
  | .GET_WITH_ADDR key _ => cfg.cp.get key = srv

/-! ## Executors -/

theorem serve_req {C : Codec} {t t' : Table} {x x' : Conn} (h : serve C t x = some (t', x')) : x'.req = x.req := by
  unfold serve at h
  split at h
  · cases h; rfl
  · split at h <;> cases h; rfl
  · cases h; rfl
  · split at h <;> cases h; rfl
  · cases h; rfl
  · split at h <;> cases h <;> rfl
  · cases h; rfl
  · split at h <;> cases h; rfl
  · cases h
  · cases h

/-- What one step of an executor does to its table. -/
theorem serve_table {C : Codec} {t t' : Table} {x x' : Conn} (h : serve C t x = some (t', x')) :
    TableLe t t' ∧
    (∀ ts i, i ∈ t'.versions ts → i ∈ t.versions ts ∨ x = .asked (.PREPARE i) ∧ i.ts = ts) ∧
    (∀ k, t'.latest k = t.latest k) := by
  unfold serve at h
  split at h
  · rename_i item
    cases h
    refine ⟨⟨fun ts i hi => Store.mem_versions_push_back.mpr (.inl hi), fun k e hk => hk⟩, fun ts i hi => ?_, fun k => rfl⟩
    rcases Store.mem_versions_push_back.mp hi with hi | ⟨rfl, rfl⟩
    · exact .inl hi
    · exact .inr ⟨rfl, rfl⟩
  · split at h <;> cases h
    rename_i c hc
    exact ⟨⟨fun ts i hi => hi, fun k e hk => CommittedItems.invalidate_address hc hk⟩, fun ts i hi => .inl hi, fun k => rfl⟩
  · cases h
    exact ⟨TableLe.refl _, fun ts i hi => .inl hi, fun k => rfl⟩
  · split at h <;> cases h
    rename_i hc
    have hst := commit_item_store hc
    have hv : ∀ ts, t'.versions ts = t.versions ts := fun ts => Store.versions_congr (by rw [hst, Store.touch_items]) ts
    refine ⟨⟨fun ts i hi => by rwa [hv], fun k e hk => commit_item_address hc hk⟩, fun ts i hi => .inl (by rwa [hv] at hi),
      fun k => by rw [hst, Store.touch_latest]⟩
  · cases h
    exact ⟨TableLe.refl _, fun ts i hi => .inl hi, fun k => rfl⟩
  · split at h <;> cases h
    · exact ⟨⟨fun ts i hi => hi, fun k e hk => hk⟩, fun ts i hi => .inl hi, fun k => Store.touch_latest _ _ _⟩
    · exact ⟨TableLe.refl _, fun ts i hi => .inl hi, fun k => rfl⟩
  · cases h
    exact ⟨⟨fun ts i hi => hi, fun k e hk => hk⟩, fun ts i hi => .inl hi, fun k => Store.touch_latest _ _ _⟩
  · split at h <;> cases h
    rename_i hc
    obtain ⟨⟨c, addr⟩, hc, h⟩ := bind_ok.mp hc
    cases h
    exact ⟨⟨fun ts i hi => hi, fun k e hk => CommittedItems.get_item_addr_address hc hk⟩, fun ts i hi => .inl hi, fun k => rfl⟩
  · cases h
  · cases h

section
variable {puts prepared : List PutAll} {srv : cfg.cp.Server} {t t' : Table} {x x' : Conn}

/-- What the slots hold after one step of an executor. -/
theorem serve_cache (h : serve cfg.C t x = some (t', x')) (ht : TableOk puts prepared srv t)
    (hx : ConnOk puts prepared t x) (hr : ∀ r, x.req = some r → ReqOk puts prepared srv r) :
    ∃ a, Represents cfg.C t'.committed_items a ∧ ∀ k v i, a.binding k = some (some (.holds v i)) →
      i.key = k ∧ (i = .of_key k ∨ i ∈ t'.versions i.ts ∧ Ready prepared i.ts) := by
  have hle := (serve_table h).1
  obtain ⟨a, ha, hc⟩ := ht.cache
  have keep : ∀ k v i, a.binding k = some (some (.holds v i)) →
      i.key = k ∧ (i = .of_key k ∨ i ∈ t'.versions i.ts ∧ Ready prepared i.ts) := by
    intro k v i hb
    obtain ⟨hk, hi⟩ := hc k v i hb
    exact ⟨hk, hi.imp id fun h => ⟨hle.versions _ _ h.1, h.2⟩⟩
  unfold serve at h
  split at h
  · cases h
    exact ⟨a, ha, keep⟩
  · rename_i item
    split at h <;> cases h
    rename_i c hinv
    obtain ⟨a', hab, ha'⟩ := (hinv ▸ ha.invalidate_sim item.key).ok_left
    obtain ⟨hne, hk⟩ := Cache.invalidate_cases hab
    refine ⟨a', ha', fun k v i hb => ?_⟩
    by_cases e : k = item.key
    · subst e
      rcases hk with ⟨-, -, h1, -⟩ | ⟨n, -, -, h1, -⟩ | ⟨s, h0, h1, -⟩ <;> rw [h1] at hb
      · cases hb
      · cases hb
      · cases s with
        | blank v => cases hb
        | holds v i => cases hb; exact keep _ _ _ h0
    · exact keep k v i (by rw [← hne k e]; exact hb)
  · cases h
    exact ⟨a, ha, keep⟩
  · rename_i ts item rest
    split at h <;> cases h
    rename_i hcom
    rw [Table.commit_item_eq] at hcom
    split at hcom
    · obtain ⟨c, hup, hcom⟩ := bind_ok.mp hcom
      cases hcom
      obtain ⟨a', hab, ha'⟩ := (hup ▸ ha.update_sim item).ok_left
      obtain ⟨hne, -, hk⟩ := Cache.update_cases hab
      refine ⟨a', ha', fun k v i hb => ?_⟩
      by_cases e : k = item.key
      · subst e
        rcases hk with ⟨-, h1⟩ | ⟨s, -, h1⟩ <;> rw [h1] at hb <;> cases hb
        have hm : item ∈ t.versions ts := hx item List.mem_cons_self
        have hts := (ht.versions ts item hm).1
        have hrd : Ready prepared ts := hr _ rfl
        exact ⟨rfl, .inr ⟨by rw [hts]; exact hle.versions _ _ hm, by rwa [hts]⟩⟩
      · exact keep k v i (by rw [← hne k e]; exact hb)
    · cases hcom
      exact ⟨a, ha, keep⟩
  · cases h
    exact ⟨a, ha, keep⟩
  · split at h <;> cases h <;> exact ⟨a, ha, keep⟩
  · cases h
    exact ⟨a, ha, keep⟩
  · rename_i key ts item
    split at h <;> cases h
    rename_i addr hget
    obtain ⟨⟨c, addr'⟩, hg, hget⟩ := bind_ok.mp hget
    cases hget
    obtain ⟨a', hab, ha', -⟩ := (hg ▸ ha.get_item_addr_sim key).ok_left
    obtain ⟨hne, hk⟩ := Cache.get_item_addr_cases hab
    refine ⟨a', ha', fun k v i hb => ?_⟩
    rcases hk with ⟨n, -, -, -, h1⟩ | ⟨s, -, rfl⟩
    · by_cases e : k = key
      · subst e
        rw [h1] at hb
        cases hb
        exact ⟨rfl, .inl rfl⟩
      · exact keep k v i (by rw [← hne k e]; exact hb)
    · exact keep k v i hb
  · cases h
  · cases h

theorem serve_tableOk (h : serve cfg.C t x = some (t', x')) (ht : TableOk puts prepared srv t)
    (hx : ConnOk puts prepared t x) (hr : ∀ r, x.req = some r → ReqOk puts prepared srv r) :
    TableOk puts prepared srv t' := by
  obtain ⟨-, hv, hl⟩ := serve_table h
  refine ⟨fun ts i hi => ?_, fun k => by rw [hl]; exact ht.latest k, serve_cache h ht hx hr⟩
  rcases hv ts i hi with hi | ⟨rfl, hts⟩
  · exact ht.versions ts i hi
  · obtain ⟨hw, hk⟩ : Written puts i ∧ cfg.cp.get i.key = srv := hr _ rfl
    exact ⟨hts, hw, hk⟩

theorem serve_connOk (h : serve cfg.C t x = some (t', x')) (ht : TableOk puts prepared srv t)
    (hx : ConnOk puts prepared t x) (hr : ∀ r, x.req = some r → ReqOk puts prepared srv r)
    (hstored : ∀ p ∈ prepared, ∀ i ∈ p.items, cfg.cp.get i.key = srv → i ∈ t.versions i.ts) :
    ConnOk puts prepared t' x' := by
  have hle := (serve_table h).1
  unfold serve at h
  split at h
  · cases h
    exact Store.mem_versions_push_back.mpr (.inr ⟨rfl, rfl⟩)
  · split at h <;> cases h
    exact ⟨rfl, hle.versions _ _ hx⟩
  · cases h
    exact fun i hi => hi
  · split at h <;> cases h
    exact fun i hi => hle.versions _ _ (hx i (List.mem_cons_of_mem _ hi))
  · cases h
    rfl
  · rename_i key ts
    split at h <;> cases h
    · rename_i he
      have he : ts = .empty := by simpa [Timestamp.is_empty] using he
      exact ⟨_, rfl, fun _ => ht.latest_seen key, fun hne => absurd he hne⟩
    · rename_i he
      have he : ts ≠ .empty := by simpa [Timestamp.is_empty] using he
      refine ⟨_, rfl, fun h0 => absurd h0 he, fun _ => ?_⟩
      rcases get_item_by_ver_cases t.toStore key ts with hf | ⟨h0, hno⟩
      · exact .inl hf
      · obtain ⟨hk, h1 | ⟨p, hp, hpt⟩⟩ : cfg.cp.get key = srv ∧ (ts = .empty ∨ Ready prepared ts) := hr _ rfl
        · exact absurd h1 he
        · refine .inr ⟨h0, p, hp, hpt, fun i hi hik => ?_⟩
          have hm := hstored p hp i hi (by rw [hik]; exact hk)
          rw [(mem_items.mp hi).2.1, hpt] at hm
          exact hno i hm hik
  · rename_i key ts
    cases h
    exact ht.latest_seen key
  · rename_i key ts item
    split at h <;> cases h
    rename_i addr hget
    obtain ⟨⟨c, addr'⟩, hg, hget⟩ := bind_ok.mp hget
    cases hget
    obtain ⟨a, ha, -⟩ := ht.cache
    obtain ⟨a', -, -, hf⟩ := (hg ▸ ha.get_item_addr_sim key).ok_left
    exact ⟨_, _, rfl, hx, hf⟩
  · cases h
  · cases h

end

/-! ## Clients -/

/-- A `v_latest[k]` that is not empty is the timestamp of a ready version that names `k`, and
    whose other keys have a `v_latest` no smaller. -/
def VersionsOk (puts prepared : List PutAll) (v : Versions) : Prop :=
  ∀ k, v.at k = .empty ∨ ∃ i, Written puts i ∧ Ready prepared i.ts ∧ i.ts = v.at k ∧ k ∈ i.trx_keys ∧
    ∀ y ∈ i.trx_keys, i.ts ≤ v.at y

/-- What a client has in flight and has seen, by its phase. -/
def PhaseOk (puts prepared : List PutAll) (tables : cfg.cp.Server → Table) (c : Nat) (conns : cfg.cp.Server → Conn) :
    Phase cfg.cp.Server → Prop
  | .idle => ∀ srv, conns srv = .quiet
  | .preparing p todo =>
    p ∈ puts ∧ p.client = c ∧ (∀ i ∈ todo, i ∈ p.items) ∧
    (∀ i ∈ p.items, i ∈ todo ∨ (conns (cfg.cp.get i.key)).req = some (.PREPARE i) ∨ Stored tables i) ∧
    ∀ srv r, (conns srv).req = some r → ∃ i ∈ p.items, r = .PREPARE i ∧ cfg.cp.get i.key = srv
  | .committing p _ => p ∈ prepared ∧ p.client = c ∧ ∀ srv r, (conns srv).req = some r → r = .COMMIT p.ts
  | .first _ _ ret =>
    (∀ k, Seen puts prepared (ret.at k)) ∧
    ∀ srv r, (conns srv).req = some r →
      ∃ k, cfg.cp.get k = srv ∧ (r = .GET k .empty ∨ r = .GET_WITH_ADDR k .empty)
  | .second _ v _ _ =>
    VersionsOk puts prepared v ∧
    ∀ srv r, (conns srv).req = some r → ∃ k, cfg.cp.get k = srv ∧ r = .GET k (v.at k)

structure ClientOk (puts prepared : List PutAll) (tables : cfg.cp.Server → Table) (c : Nat) (cl : Client cfg.cp.Server) :
    Prop where
  conns : ∀ srv, ConnOk puts prepared (tables srv) (cl.conns srv)
  addrs : ∀ k e, cl.addr_cache.find k = some e →
    (tables (cfg.cp.get k)).committed_items.entries.find k = some (some e)
  phase : PhaseOk puts prepared tables c cl.conns cl.phase

/-- The invariant. -/
structure Inv (s : State cfg) : Prop where
  prepared : ∀ p ∈ s.prepared, p ∈ s.puts ∧ ∀ i ∈ p.items, Stored s.tables i
  tables : ∀ srv, TableOk s.puts s.prepared srv (s.tables srv)
  clients : ∀ c, ClientOk s.puts s.prepared s.tables c (s.clients c)

section
variable {puts puts' prepared prepared' : List PutAll} {tables tables' : cfg.cp.Server → Table} {c : Nat}

theorem VersionsOk.mono (hp : puts ⊆ puts') (hr : prepared ⊆ prepared') {v : Versions} (h : VersionsOk puts prepared v) :
    VersionsOk puts' prepared' v := by
  intro k
  rcases h k with h0 | ⟨i, hw, hi, hrest⟩
  · exact .inl h0
  · exact .inr ⟨i, hw.mono hp, hi.mono hr, hrest⟩

theorem PhaseOk.mono (hp : puts ⊆ puts') (hr : prepared ⊆ prepared') (ht : ∀ srv, TableLe (tables srv) (tables' srv))
    {conns conns' : cfg.cp.Server → Conn} (hc : ∀ srv, (conns' srv).req = (conns srv).req) {ph : Phase cfg.cp.Server}
    (h : PhaseOk puts prepared tables c conns ph) : PhaseOk puts' prepared' tables' c conns' ph := by
  cases ph with
  | idle =>
    intro srv
    have hq := hc srv
    rw [h srv] at hq
    cases hx : conns' srv <;> rw [hx] at hq <;> simp_all [Conn.req]
  | preparing p todo =>
    obtain ⟨h1, h2, h3, h4, h5⟩ := h
    refine ⟨hp h1, h2, h3, fun i hi => ?_, fun srv r hrq => h5 srv r (by rwa [← hc])⟩
    rcases h4 i hi with hm | hq | hs
    · exact .inl hm
    · exact .inr (.inl (by rwa [hc]))
    · exact .inr (.inr ((ht _).versions _ _ hs))
  | committing p todo => exact ⟨hr h.1, h.2.1, fun srv r hrq => h.2.2 srv r (by rwa [← hc])⟩
  | first g todo ret => exact ⟨fun k => (h.1 k).mono hp hr, fun srv r hrq => h.2 srv r (by rwa [← hc])⟩
  | second g v todo ret => exact ⟨h.1.mono hp hr, fun srv r hrq => h.2 srv r (by rwa [← hc])⟩

theorem ClientOk.mono (hp : puts ⊆ puts') (hr : prepared ⊆ prepared') (ht : ∀ srv, TableLe (tables srv) (tables' srv))
    {cl : Client cfg.cp.Server} (h : ClientOk puts prepared tables c cl) : ClientOk puts' prepared' tables' c cl :=
  ⟨fun srv => (h.conns srv).mono hp hr (ht srv), fun k e hk => (ht _).address _ _ (h.addrs k e hk),
    h.phase.mono hp hr ht fun _ => rfl⟩

/-- The requests of a client, whatever its phase. -/
theorem ClientOk.reqOk {cl : Client cfg.cp.Server} (h : ClientOk puts prepared tables c cl) {srv : cfg.cp.Server}
    {r : Request} (hr : (cl.conns srv).req = some r) : ReqOk puts prepared srv r := by
  have hp := h.phase
  generalize cl.phase = ph at hp
  cases ph with
  | idle =>
    rw [hp srv] at hr
    cases hr
  | preparing p todo =>
    obtain ⟨h1, -, -, -, h5⟩ := hp
    obtain ⟨i, hi, rfl, hk⟩ := h5 srv r hr
    exact ⟨⟨p, h1, hi⟩, hk⟩
  | committing p todo =>
    obtain ⟨h1, -, h3⟩ := hp
    rw [h3 srv r hr]
    exact ⟨p, h1, rfl⟩
  | first g todo ret =>
    obtain ⟨k, hk, rfl | rfl⟩ := hp.2 srv r hr
    · exact ⟨hk, .inl rfl⟩
    · exact hk
  | second g v todo ret =>
    obtain ⟨k, hk, rfl⟩ := hp.2 srv r hr
    refine ⟨hk, ?_⟩
    rcases hp.1 k with h0 | ⟨i, -, hrd, hts, -⟩
    · exact .inl h0
    · exact .inr (hts ▸ hrd)

end

/-! ## Steps -/

theorem serve_inv {s : State cfg} (hi : Inv s) {c : Nat} {srv : cfg.cp.Server} {t : Table} {x : Conn}
    (h : serve cfg.C (s.tables srv) ((s.clients c).conns srv) = some (t, x)) :
    Inv { s.set c ((s.clients c).put_conn srv x) with tables := Function.update s.tables srv t } := by
  have hc := hi.clients c
  have hreq : ∀ r, ((s.clients c).conns srv).req = some r → ReqOk s.puts s.prepared srv r := fun r => hc.reqOk
  have hle : ∀ srv', TableLe (s.tables srv') (Function.update s.tables srv t srv') := by
    intro srv'
    by_cases e : srv' = srv
    · subst e
      rw [Function.update_self]
      exact (serve_table h).1
    · rw [Function.update_of_ne e]
      exact TableLe.refl _
  refine ⟨fun p hp => ?_, fun srv' => ?_, fun c' => ?_⟩
  · obtain ⟨h1, h2⟩ := hi.prepared p hp
    exact ⟨h1, fun i hm => (hle _).versions _ _ (h2 i hm)⟩
  · show TableOk _ _ srv' (Function.update s.tables srv t srv')
    by_cases e : srv' = srv
    · subst e
      rw [Function.update_self]
      exact serve_tableOk h (hi.tables srv') (hc.conns srv') hreq
    · rw [Function.update_of_ne e]
      exact hi.tables srv'
  · show ClientOk _ _ _ c' (Function.update s.clients c _ c')
    by_cases e : c' = c
    · subst e
      rw [Function.update_self]
      have hm := (hi.clients c').mono (List.Subset.refl _) (List.Subset.refl _) hle
      refine ⟨fun srv' => ?_, hm.addrs, ?_⟩
      · show ConnOk s.puts s.prepared (Function.update s.tables srv t srv') (Function.update (s.clients c').conns srv x srv')
        by_cases e : srv' = srv
        · subst e
          rw [Function.update_self, Function.update_self]
          refine serve_connOk h (hi.tables srv') (hc.conns srv') hreq fun p hp i hip hk => ?_
          have := (hi.prepared p hp).2 i hip
          rwa [Stored, hk] at this
        · rw [Function.update_of_ne e, Function.update_of_ne e]
          exact hc.conns srv'
      · refine hc.phase.mono (List.Subset.refl _) (List.Subset.refl _) hle fun srv' => ?_
        show (Function.update (s.clients c').conns srv x srv').req = _
        by_cases e : srv' = srv
        · subst e
          rw [Function.update_self]
          exact serve_req h
        · rw [Function.update_of_ne e]
    · rw [Function.update_of_ne e]
      exact (hi.clients c').mono (List.Subset.refl _) (List.Subset.refl _) hle

/-- A step of client `c` that touches no table. -/
theorem client_inv {s : State cfg} (hi : Inv s) {c : Nat} {cl : Client cfg.cp.Server}
    {puts prepared returned : List PutAll} {gets : List (GetAll × Ret)} (hp : s.puts ⊆ puts)
    (hr : s.prepared ⊆ prepared) (hnew : ∀ p ∈ prepared, p ∈ puts ∧ ∀ i ∈ p.items, Stored s.tables i)
    (hcl : ClientOk puts prepared s.tables c cl) :
    Inv ⟨s.tables, Function.update s.clients c cl, puts, prepared, returned, gets⟩ := by
  refine ⟨hnew, fun srv => (hi.tables srv).mono hp hr, fun c' => ?_⟩
  show ClientOk _ _ _ c' (Function.update s.clients c cl c')
  by_cases e : c' = c
  · subst e
    rwa [Function.update_self]
  · rw [Function.update_of_ne e]
    exact (hi.clients c').mono hp hr fun _ => TableLe.refl _

theorem conns_update {puts prepared : List PutAll} {tables : cfg.cp.Server → Table} {conns : cfg.cp.Server → Conn}
    (h : ∀ srv, ConnOk puts prepared (tables srv) (conns srv)) {srv : cfg.cp.Server} {x : Conn}
    (hx : ConnOk puts prepared (tables srv) x) (srv' : cfg.cp.Server) :
    ConnOk puts prepared (tables srv') (Function.update conns srv x srv') := by
  by_cases e : srv' = srv
  · subst e
    rwa [Function.update_self]
  · rw [Function.update_of_ne e]
    exact h srv'

theorem req_of_answered {conns : cfg.cp.Server → Conn} {srv : cfg.cp.Server} {r : Request} {a : Answer}
    (h : conns srv = .answered r a) : (conns srv).req = some r := by rw [h]; rfl

theorem ret_at_set (ret : Ret) (key k : Key) (item : Item) :
    Ret.at (ConcurrentMap.set ret key item) k = if k = key then item else ret.at k := by
  simp only [Ret.at, ConcurrentMap.find_set]
  split <;> rfl

theorem addrs_set {tables : cfg.cp.Server → Table} {addrs : ConcurrentMap Key Nat}
    (h : ∀ k e, addrs.find k = some e → (tables (cfg.cp.get k)).committed_items.entries.find k = some (some e))
    {key : Key} {addr : Nat} (ha : (tables (cfg.cp.get key)).committed_items.entries.find key = some (some addr)) :
    ∀ k e, (addrs.set key addr).find k = some e →
      (tables (cfg.cp.get k)).committed_items.entries.find k = some (some e) := by
  intro k e hk
  rw [ConcurrentMap.find_set] at hk
  by_cases ek : k = key
  · subst ek
    rw [if_pos rfl] at hk
    cases hk
    exact ha
  · rw [if_neg ek] at hk
    exact h k e hk

/-! ## The check between the rounds -/

theorem versions_at_set (v : Versions) (key k : Key) (ts : Timestamp) :
    Versions.at (ConcurrentMap.set v key ts) k = if k = key then ts else v.at k := by
  simp only [Versions.at, ConcurrentMap.find_set]
  split <;> rfl

theorem raise_at (ts : Timestamp) (v : Versions) (key k : Key) :
    (v.raise ts key).at k = if k = key ∧ v.at key < ts then ts else v.at k := by
  unfold Versions.raise
  by_cases hlt : v.at key < ts
  · rw [if_pos ((Timestamp.lt_iff _ _).mpr hlt), versions_at_set]
    simp only [hlt, and_true]
  · rw [if_neg fun h => hlt ((Timestamp.lt_iff _ _).mp h), if_neg fun h => hlt h.2]

theorem raises_at (ts : Timestamp) (l : List Key) (v : Versions) (k : Key) :
    v.at k ≤ (l.foldl (Versions.raise ts) v).at k ∧ (k ∈ l → ts ≤ (l.foldl (Versions.raise ts) v).at k) ∧
    ((l.foldl (Versions.raise ts) v).at k = v.at k ∨ k ∈ l ∧ (l.foldl (Versions.raise ts) v).at k = ts) := by
  induction l generalizing v with
  | nil => exact ⟨le_rfl, (fun h => by cases h), Or.inl rfl⟩
  | cons y l ih =>
    rw [List.foldl_cons]
    obtain ⟨h1, h2, h3⟩ := ih (v.raise ts y)
    have hr := raise_at ts v y k
    have hle : v.at k ≤ (v.raise ts y).at k := by
      rw [hr]
      split
      · rename_i hy
        rw [hy.1]
        exact hy.2.le
      · exact le_rfl
    refine ⟨hle.trans h1, fun hm => ?_, ?_⟩
    · rcases List.mem_cons.mp hm with e | hm
      · refine le_trans ?_ h1
        rw [hr]
        split
        · exact le_rfl
        · rename_i hy
          rw [e]
          exact not_lt.mp fun hlt => hy ⟨e, hlt⟩
      · exact h2 hm
    · rcases h3 with h3 | ⟨hm, h3⟩
      · rw [h3, hr]
        split
        · rename_i hy
          exact .inr ⟨hy.1 ▸ List.mem_cons_self, rfl⟩
        · exact .inl rfl
      · exact .inr ⟨List.mem_cons_of_mem _ hm, h3⟩

theorem v_latest_fold (ret : Ret) (keys : List Key) (v : Versions) (y : Key) :
    let w := keys.foldl (fun v k => (ret.at k).trx_keys.toList.foldl (Versions.raise (ret.at k).ts) v) v
    v.at y ≤ w.at y ∧ (∀ k ∈ keys, y ∈ (ret.at k).trx_keys → (ret.at k).ts ≤ w.at y) ∧
      (w.at y = v.at y ∨ ∃ k ∈ keys, y ∈ (ret.at k).trx_keys ∧ w.at y = (ret.at k).ts) := by
  induction keys generalizing v with
  | nil => exact ⟨le_rfl, (fun k hk => by cases hk), Or.inl rfl⟩
  | cons x keys ih =>
    intro w
    obtain ⟨h1, h2, h3⟩ := raises_at (ret.at x).ts (ret.at x).trx_keys.toList v y
    obtain ⟨i1, i2, i3⟩ := ih ((ret.at x).trx_keys.toList.foldl (Versions.raise (ret.at x).ts) v)
    refine ⟨h1.trans i1, fun k hk hy => ?_, ?_⟩
    · rcases List.mem_cons.mp hk with rfl | hk
      · exact (h2 (Std.ExtTreeSet.mem_toList.mpr hy)).trans i1
      · exact i2 k hk hy
    · rcases i3 with i3 | ⟨k, hk, hy, he⟩
      · rcases h3 with h3 | ⟨hy, h3⟩
        · exact .inl (i3.trans h3)
        · exact .inr ⟨x, List.mem_cons_self, Std.ExtTreeSet.mem_toList.mp hy, i3.trans h3⟩
      · exact .inr ⟨k, List.mem_cons_of_mem _ hk, hy, he⟩

/-- `v_latest[y]` is no smaller than any item of the first round that names `y`. -/
theorem le_v_latest {ret : Ret} {keys : List Key} {k y : Key} (hk : k ∈ keys) (hy : y ∈ (ret.at k).trx_keys) :
    (ret.at k).ts ≤ (v_latest ret keys).at y := (v_latest_fold ret keys .empty y).2.1 k hk hy

/-- And the timestamp of one of them, if it is not empty. -/
theorem v_latest_from (ret : Ret) (keys : List Key) (y : Key) :
    (v_latest ret keys).at y = .empty ∨
      ∃ k ∈ keys, y ∈ (ret.at k).trx_keys ∧ (v_latest ret keys).at y = (ret.at k).ts :=
  (v_latest_fold ret keys .empty y).2.2

theorem versionsOk_check {puts prepared : List PutAll} {ret : Ret} (h : ∀ k, Seen puts prepared (ret.at k))
    (keys : List Key) : VersionsOk puts prepared (v_latest ret keys) := by
  intro y
  rcases v_latest_from ret keys y with h0 | ⟨k, hk, hy, he⟩
  · exact .inl h0
  · rcases h k with ⟨h0, -⟩ | ⟨hw, hr⟩
    · exact .inl (he.trans h0)
    · exact .inr ⟨ret.at k, hw, hr, he.symm, hy, fun z hz => le_v_latest hk hz⟩

/-! ## Runs -/

/-- What the requests of all connections keep, when one connection gets another. -/
theorem reqs_update {conns : cfg.cp.Server → Conn} {srv : cfg.cp.Server} {x : Conn} {Q : cfg.cp.Server → Request → Prop}
    (h : ∀ srv r, (conns srv).req = some r → Q srv r) (hx : ∀ r, x.req = some r → Q srv r) (srv' : cfg.cp.Server)
    (r : Request) (hr : (Function.update conns srv x srv').req = some r) : Q srv' r := by
  by_cases e : srv' = srv
  · subst e
    rw [Function.update_self] at hr
    exact hx r hr
  · rw [Function.update_of_ne e] at hr
    exact h srv' r hr

section
variable {s s' : State cfg} {c : Nat} {srv : cfg.cp.Server}

/-- A step of client `c` that neither starts nor prepares a `put_all`. -/
theorem client_inv_same (hi : Inv s) {cl : Client cfg.cp.Server} {returned : List PutAll} {gets : List (GetAll × Ret)}
    (hcl : ClientOk s.puts s.prepared s.tables c cl) :
    Inv ⟨s.tables, Function.update s.clients c cl, s.puts, s.prepared, returned, gets⟩ :=
  client_inv hi (List.Subset.refl _) (List.Subset.refl _) hi.prepared hcl

theorem inv_put_all (hi : Inv s) {p : PutAll} (hc : p.client = c) (hp : (s.clients c).phase = .idle) :
    Inv { s.set c { s.clients c with phase := .preparing p p.items } with puts := p :: s.puts } := by
  have hcl := hi.clients c
  have hq : ∀ srv, (s.clients c).conns srv = .quiet := by
    have := hcl.phase
    rwa [hp] at this
  have hsub : s.puts ⊆ p :: s.puts := List.subset_cons_self _ _
  have hm := hcl.mono hsub (List.Subset.refl s.prepared) fun _ => TableLe.refl _
  refine client_inv hi hsub (List.Subset.refl _) (fun q hq => ⟨hsub (hi.prepared q hq).1, (hi.prepared q hq).2⟩)
    ⟨hm.conns, hm.addrs, List.mem_cons_self, hc, fun i hi => hi, fun i hi => .inl hi, fun srv r hr => ?_⟩
  rw [hq srv] at hr
  cases hr

theorem inv_prepare (hi : Inv s) {item : Item} {p : PutAll} {todo : List Item}
    (hp : (s.clients c).phase = .preparing p todo) (hm : item ∈ todo) (hq : (s.clients c).conns (cfg.cp.get item.key) = .quiet) :
    Inv (s.set c { (s.clients c).send item.key (.PREPARE item) with phase := .preparing p (todo.erase item) }) := by
  have hcl := hi.clients c
  have hph := hcl.phase
  rw [hp] at hph
  obtain ⟨h1, h2, h3, h4, h5⟩ := hph
  refine client_inv_same hi ⟨conns_update hcl.conns trivial, hcl.addrs, h1, h2, fun i hi => h3 i (List.mem_of_mem_erase hi),
    fun i hi => ?_, reqs_update h5 fun r hr => ?_⟩
  · show _ ∨ (Function.update (s.clients c).conns _ _ _).req = _ ∨ _
    by_cases e : i = item
    · subst e
      exact .inr (.inl (by rw [Function.update_self]; rfl))
    · rcases h4 i hi with hm' | hr | hs
      · exact .inl ((List.mem_erase_of_ne e).mpr hm')
      · -- its connection is another one: this one was quiet
        have hne : cfg.cp.get i.key ≠ cfg.cp.get item.key := by
          intro he
          rw [he, hq] at hr
          cases hr
        exact .inr (.inl (by rwa [Function.update_of_ne hne]))
      · exact .inr (.inr hs)
  · cases hr
    exact ⟨item, h3 item hm, rfl, rfl⟩

theorem inv_begin_commit (hi : Inv s) {p : PutAll} (hp : (s.clients c).phase = .preparing p [])
    (hq : (s.clients c).AllQuiet) :
    Inv { s.set c { s.clients c with phase := .committing p (s.clients c).access_coms } with prepared := p :: s.prepared } := by
  have hcl := hi.clients c
  have hph := hcl.phase
  rw [hp] at hph
  obtain ⟨h1, h2, -, h4, -⟩ := hph
  have hsub : s.prepared ⊆ p :: s.prepared := List.subset_cons_self _ _
  have hm := hcl.mono (List.Subset.refl s.puts) hsub fun _ => TableLe.refl _
  refine client_inv hi (List.Subset.refl _) hsub (fun q hqm => ?_)
    ⟨hm.conns, hm.addrs, List.mem_cons_self, h2, fun srv r hr => ?_⟩
  · rcases List.mem_cons.mp hqm with rfl | hqm
    · -- nothing left to send and nothing in flight: every version is stored
      refine ⟨h1, fun i hi => ?_⟩
      rcases h4 i hi with hm | hr | hs
      · cases hm
      · rw [hq] at hr; cases hr
      · exact hs
    · exact hi.prepared q hqm
  · have hr : ((s.clients c).conns srv).req = some r := hr
    rw [hq srv] at hr
    cases hr

/-- The answer to a PREPARE or a COMMIT. -/
theorem inv_recv_put (hi : Inv s) {r : Request} {a : Answer} (hx : (s.clients c).conns srv = .answered r a)
    (hf : ∀ g todo ret, (s.clients c).phase ≠ .first g todo ret)
    (hs : ∀ g v todo ret, (s.clients c).phase ≠ .second g v todo ret) :
    Inv (s.set c ((s.clients c).put_conn srv .quiet)) := by
  have hcl := hi.clients c
  refine client_inv_same hi ⟨conns_update hcl.conns trivial, hcl.addrs, ?_⟩
  show PhaseOk s.puts s.prepared s.tables c (Function.update (s.clients c).conns srv .quiet) (s.clients c).phase
  have hph := hcl.phase
  generalize (s.clients c).phase = ph at hf hs hph
  cases ph with
  | idle =>
    rw [hph srv] at hx
    cases hx
  | preparing p todo =>
    obtain ⟨h1, h2, h3, h4, h5⟩ := hph
    refine ⟨h1, h2, h3, fun i hi => ?_, reqs_update h5 fun r hr => by cases hr⟩
    rcases h4 i hi with hm | hr | hst
    · exact .inl hm
    · by_cases e : cfg.cp.get i.key = srv
      · -- its PREPARE is the one answered
        have hok := hcl.conns srv
        rw [e, hx] at hr
        rw [hx] at hok
        cases hr
        exact .inr (.inr (by rw [Stored, e]; exact hok.2))
      · exact .inr (.inl (by rwa [Function.update_of_ne e]))
    · exact .inr (.inr hst)
  | committing p todo => exact ⟨hph.1, hph.2.1, reqs_update hph.2.2 fun r hr => by cases hr⟩
  | first g todo ret => exact absurd rfl (hf g todo ret)
  | second g v todo ret => exact absurd rfl (hs g v todo ret)

/-- The answer to a GET or a GET_WITH_ADDR of the first round. -/
theorem inv_recv_first (hi : Inv s) {r : Request} {a : Answer} {g : GetAll} {todo : List Key} {ret ret' : Ret}
    {addrs : ConcurrentMap Key Nat} (hx : (s.clients c).conns srv = .answered r a)
    (hp : (s.clients c).phase = .first g todo ret) (ht : take_answer ret (s.clients c).addr_cache r a = some (ret', addrs)) :
    Inv (s.set c { (s.clients c).put_conn srv .quiet with phase := .first g todo ret', addr_cache := addrs }) := by
  have hcl := hi.clients c
  have hph := hcl.phase
  rw [hp] at hph
  have hok := hcl.conns srv
  rw [hx] at hok
  have hreqs : ∀ srv' r', (Function.update (s.clients c).conns srv .quiet srv').req = some r' →
      ∃ k, cfg.cp.get k = srv' ∧ (r' = .GET k .empty ∨ r' = .GET_WITH_ADDR k .empty) :=
    reqs_update hph.2 fun r hr => by cases hr
  obtain ⟨k, hk, rfl | rfl⟩ := hph.2 srv r (req_of_answered hx)
  · obtain ⟨item, rfl, hs, -⟩ := hok
    cases ht
    refine client_inv_same hi ⟨conns_update hcl.conns trivial, hcl.addrs, fun k' => ?_, hreqs⟩
    rw [ret_at_set]
    split
    · exact hs rfl
    · exact hph.1 k'
  · obtain ⟨item, addr, rfl, hs, ha⟩ := hok
    cases ht
    refine client_inv_same hi ⟨conns_update hcl.conns trivial, addrs_set hcl.addrs (by rw [hk]; exact ha), fun k' => ?_, hreqs⟩
    rw [ret_at_set]
    split
    · exact hs
    · exact hph.1 k'

theorem inv_step (hi : Inv s) (h : Step s s') : Inv s' := by
  cases h with
  | put_all hc hp => exact inv_put_all hi hc hp
  | prepare hp hm hq => exact inv_prepare hi hp hm hq
  | begin_commit hp hq => exact inv_begin_commit hi hp hq
  | @commit c srv p todo hp hq =>
    have hcl := hi.clients c
    have hph := hcl.phase
    rw [hp] at hph
    obtain ⟨h1, h2, h3⟩ := hph
    refine client_inv_same hi ⟨conns_update hcl.conns trivial, hcl.addrs, h1, h2, reqs_update h3 fun r hr => ?_⟩
    cases hr
    rfl
  | @put_return c p hp hq => exact client_inv_same hi ⟨(hi.clients c).conns, (hi.clients c).addrs, hq⟩
  | @get_all c g hg hp =>
    have hcl := hi.clients c
    have hph := hcl.phase
    rw [hp] at hph
    refine client_inv_same hi ⟨hcl.conns, hcl.addrs, fun k => seen_empty rfl rfl, fun srv r hr => ?_⟩
    have hr : ((s.clients c).conns srv).req = some r := hr
    rw [hph srv] at hr
    cases hr
  | @ask c key g todo ret r hp hm hq hr =>
    have hcl := hi.clients c
    have hph := hcl.phase
    rw [hp] at hph
    refine client_inv_same hi ⟨conns_update hcl.conns trivial, hcl.addrs, hph.1, reqs_update hph.2 fun r' hr' => ?_⟩
    cases hr'
    exact ⟨key, rfl, hr.imp And.right And.right⟩
  | @read c key g todo ret addr fuel r item hp hm hac haddr hread hne =>
    have hcl := hi.clients c
    have hph := hcl.phase
    rw [hp] at hph
    obtain ⟨i, rfl, -, hs⟩ := (hi.tables (cfg.cp.get key)).read_seen (hcl.addrs key addr haddr) hread hne
    refine client_inv_same hi ⟨hcl.conns, hcl.addrs, fun k => ?_, hph.2⟩
    rw [ret_at_set]
    split
    · exact hs
    · exact hph.1 k
  | @check c g ret hp hq =>
    have hcl := hi.clients c
    have hph := hcl.phase
    rw [hp] at hph
    refine client_inv_same hi ⟨hcl.conns, hcl.addrs, versionsOk_check hph.1 _, fun srv r hr => ?_⟩
    have hr : ((s.clients c).conns srv).req = some r := hr
    rw [hq srv] at hr
    cases hr
  | @skip c key g v todo ret hp hle =>
    have hcl := hi.clients c
    have hph := hcl.phase
    rw [hp] at hph
    exact client_inv_same hi ⟨hcl.conns, hcl.addrs, hph⟩
  | @fetch c key g v todo ret hp hlt hq =>
    have hcl := hi.clients c
    have hph := hcl.phase
    rw [hp] at hph
    refine client_inv_same hi ⟨conns_update hcl.conns trivial, hcl.addrs, hph.1, reqs_update hph.2 fun r hr => ?_⟩
    cases hr
    exact ⟨key, rfl, rfl⟩
  | @get_return c g v ret hp hq => exact client_inv_same hi ⟨(hi.clients c).conns, (hi.clients c).addrs, hq⟩
  | recv_put hx hf hs => exact inv_recv_put hi hx hf hs
  | recv_first hx hp ht => exact inv_recv_first hi hx hp ht
  | @recv_second c srv r a g v todo ret ret' addrs hx hp ht =>
    have hcl := hi.clients c
    have hph := hcl.phase
    rw [hp] at hph
    exact client_inv_same hi ⟨conns_update hcl.conns trivial, hcl.addrs, hph.1, reqs_update hph.2 fun r hr => by cases hr⟩
  | @clear c hp => exact client_inv_same hi ⟨(hi.clients c).conns, (hi.clients c).addrs, (hi.clients c).phase⟩
  | serve h => exact serve_inv hi h

end

theorem inv {s : State cfg} (h : Reachable s) : Inv s := by
  induction h with
  | init =>
    refine ⟨fun p hp => ?_, tableOk_init, fun c => ⟨fun srv => trivial, fun k e hk => ?_, fun srv => rfl⟩⟩
    · cases hp
    · cases hk
  | step _ hs ih => exact inv_step ih (step_cases hs)

end RampRdma.Ramp
