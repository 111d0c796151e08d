/-
  RampRdma.Server.Coherence — the cache and the store: when a slot whose flag is
  `IS_VALID` shows the newest committed version of its key.

  `Hist` is a ghost of the calls so far: the versions prepared and the ones committed.
  `Coherent` is what a one-sided read relies on: a valid slot decodes to the timestamp,
  values and keys of the newest committed version, or to those of `Item()`.

  The code breaks it in two ways. `invalidate` binds a fresh slot without touching it, and
  a cleared flag word is `IS_VALID`: until the key's first COMMIT the slot is valid and
  empty. And as a commit never advances `latest_commit`, a COMMIT older than the newest
  one still passes the check and puts its version into the slot. `InOrder` excludes both:
  - `coherent_iff`: every state of a run is coherent if and only if every call of it is
    `InOrder` in the state it finds.
  - `incoherent_runs`: a first PREPARE; two COMMITs of one key, the newer first.
-/

import Mathlib
import RampRdma.Data
import RampRdma.Lib.Newest
import RampRdma.Lib.Runs
import RampRdma.Server.ReadEnds
import RampRdma.Wire

namespace RampRdma

open Newest Runs

variable {C : Codec}

/-! ## Histories -/

structure Hist where
  prepared : List Item := []
  committed : List Item := []

namespace Hist

def step (h : Hist) : Call → Hist
  | .prepare item => { h with prepared := h.prepared ++ [item] }
  | .commit ts => { h with committed := h.committed ++ h.prepared.filter (·.ts = ts) }
  | .put item => { prepared := h.prepared ++ [item], committed := h.committed ++ [item] }
  | .get_item_addr _ => h

/-- The version of `k` with the largest committed timestamp, `Item()` if there is none. -/
def newest (h : Hist) (k : Key) : Item := Newest.newest (·.ts) Item.empty (h.committed.filter (·.key = k))

/-- Versions of one key have different timestamps, all greater than `Timestamp()`. -/
structure Fresh (h : Hist) : Prop where
  distinct : ∀ i ∈ h.prepared, ∀ j ∈ h.prepared, i.key = j.key → i.ts = j.ts → i = j
  positive : ∀ i ∈ h.prepared, Timestamp.empty < i.ts

theorem mem_step_prepared {h : Hist} {c : Call} {i : Item} (hi : i ∈ h.prepared) : i ∈ (h.step c).prepared := by
  cases c with
  | prepare item => exact List.mem_append_left _ hi
  | commit ts => exact hi
  | put item => exact List.mem_append_left _ hi
  | get_item_addr key => exact hi

theorem Fresh.of_step {h : Hist} {c : Call} (hf : (h.step c).Fresh) : h.Fresh :=
  ⟨fun i hi j hj => hf.distinct i (mem_step_prepared hi) j (mem_step_prepared hj),
    fun i hi => hf.positive i (mem_step_prepared hi)⟩

end Hist

def hist (cs : List Call) : Hist := cs.foldl Hist.step {}

theorem hist_snoc (cs : List Call) (c : Call) : hist (cs ++ [c]) = (hist cs).step c := by
  rw [hist, List.foldl_append]; rfl

/-! ## The claim and its condition -/

/-- The data of a version that a reader looks at. -/
def SameVersion (i j : Item) : Prop := i.ts = j.ts ∧ i.values = j.values ∧ i.trx_keys = j.trx_keys

/-- Every valid slot decodes to the newest committed version of its key. -/
def Coherent (C : Codec) (h : Hist) (t : Table) : Prop :=
  ∀ k e, t.committed_items.entries.find k = some (some e) → Entry.flag t.committed_items.mem e = IS_VALID →
    ∃ fuel i, RDMAWriteSocket.read C fuel (RDMAWriteSocket.contents t.committed_items.mem e) = some (0, some i) ∧
      SameVersion i (h.newest k)

/-- A PREPARE or PUT finds its key bound (or no slot to bind), and a COMMIT that rewrites the
    slot of a key comes before any COMMIT or PUT of a newer version of it. -/
def InOrder (h : Hist) (t : Table) : Call → Prop
  | .prepare item => t.committed_items.entries.find item.key ≠ none ∨ t.committed_items.unused_entries = []
  | .put item => t.committed_items.entries.find item.key ≠ none ∨ t.committed_items.unused_entries = []
  | .commit ts => ∀ i ∈ t.versions ts, t.latest i.key < ts → ∀ j ∈ h.committed, j.key = i.key → j.ts ≤ ts
  | .get_item_addr _ => True

/-! ## The store and its history -/

structure HistInv (h : Hist) (t : Store) : Prop where
  versions : ∀ ts i, i ∈ t.versions ts ↔ i ∈ h.prepared ∧ i.ts = ts
  committed : ∀ i ∈ h.committed, i ∈ h.prepared
  latest : ∀ k, t.latest k = .empty ∨ ∃ i ∈ h.committed, i.key = k ∧ i.ts = t.latest k

theorem histInv_call {h : Hist} {t : Store} (hi : HistInv h t) (c : Call) : HistInv (h.step c) (t.call c) := by
  cases c with
  | prepare item =>
    refine ⟨fun ts i => ?_, fun i hc => List.mem_append_left _ (hi.committed i hc), hi.latest⟩
    rw [mem_versions_call, hi.versions]
    simp only [Call.item, Hist.step, List.mem_append, List.mem_singleton, Option.some.injEq, eq_comm]
    tauto
  | commit ts =>
    refine ⟨fun ts' i => ?_, fun i hc => ?_, fun k => ?_⟩
    · rw [mem_versions_call, hi.versions]
      simp [Call.item, Hist.step]
    · rcases List.mem_append.mp hc with hc | hc
      · exact hi.committed i hc
      · exact (List.mem_filter.mp hc).1
    · rw [commit_latest]
      rcases hi.latest k with h0 | ⟨i, hc, hk⟩
      · exact .inl h0
      · exact .inr ⟨i, List.mem_append_left _ hc, hk⟩
  | put item =>
    refine ⟨fun ts i => ?_, fun i hc => ?_, fun k => ?_⟩
    · rw [mem_versions_call, hi.versions]
      simp only [Call.item, Hist.step, List.mem_append, List.mem_singleton, Option.some.injEq, eq_comm]
      tauto
    · rcases List.mem_append.mp hc with hc | hc
      · exact List.mem_append_left _ (hi.committed i hc)
      · exact List.mem_append_right _ hc
    · have hl : (t.call (.put item)).latest k = if k = item.key ∧ t.latest item.key < item.ts then item.ts else t.latest k :=
        commit_key_latest _ _ _ _
      rw [hl]
      split
      · rename_i hk
        exact .inr ⟨item, List.mem_append_right _ List.mem_cons_self, hk.1.symm, rfl⟩
      · rcases hi.latest k with h0 | ⟨i, hc, hk⟩
        · exact .inl h0
        · exact .inr ⟨i, List.mem_append_left _ hc, hk⟩
  | get_item_addr key => exact ⟨fun ts i => by rw [mem_versions_call, hi.versions]; simp [Call.item, Hist.step],
      hi.committed, hi.latest⟩

theorem histInv_init : HistInv {} {} := ⟨fun ts i => by simp [Store.versions], fun i hc => hc, fun k => .inl rfl⟩

namespace Hist

theorem newest_congr_key {h : Hist} {l : List Item} {k : Key} (hk : ∀ i ∈ l, i.key ≠ k) :
    Hist.newest { h with committed := h.committed ++ l } k = h.newest k := by
  have he : l.filter (·.key = k) = [] := by
    rw [List.filter_eq_nil_iff]
    intro i hi
    simpa using hk i hi
  simp only [Hist.newest, List.filter_append, he, List.append_nil]

theorem le_newest {h : Hist} {i : Item} (hc : i ∈ h.committed) : i.ts ≤ (h.newest i.key).ts :=
  Newest.le_newest (·.ts) (List.mem_filter.mpr ⟨hc, by simp⟩)

/-- The newest version after a commit that finds nothing newer is the one it commits. -/
theorem newest_commit {h : Hist} (hf : h.Fresh) (hsub : ∀ i ∈ h.committed, i ∈ h.prepared) {i : Item}
    (hp : i ∈ h.prepared) (hle : ∀ j ∈ h.committed, j.key = i.key → j.ts ≤ i.ts) :
    (h.step (.commit i.ts)).newest i.key = i := by
  have hm : ∀ j, j ∈ (h.step (.commit i.ts)).committed.filter (·.key = i.key) →
      j ∈ h.prepared ∧ j.key = i.key ∧ j.ts ≤ i.ts := by
    intro j hj
    obtain ⟨hj, hk⟩ := List.mem_filter.mp hj
    have hk : j.key = i.key := by simpa using hk
    rcases List.mem_append.mp hj with hj | hj
    · exact ⟨hsub j hj, hk, hle j hj hk⟩
    · obtain ⟨hj, he⟩ := List.mem_filter.mp hj
      exact ⟨hj, hk, le_of_eq (by simpa using he)⟩
  apply newest_eq
  · intro x hx y hy e
    exact hf.distinct x (hm x hx).1 y (hm y hy).1 ((hm x hx).2.1.trans (hm y hy).2.1.symm) e
  · refine List.mem_filter.mpr ⟨List.mem_append_right _ (List.mem_filter.mpr ⟨hp, by simp⟩), by simp⟩
  · exact hf.positive i hp
  · exact fun y hy => (hm y hy).2.2

end Hist

/-! ## Slots -/

/-- What a reader of a slot sees is the version `v`, if it sees anything. -/
def Slot.Shows (v : Item) : Slot → Prop
  | .blank valid => valid = false
  | .holds true i => SameVersion i v
  | .holds false _ => True

theorem Slot.stale_shows (v : Item) (s : Slot) : s.stale.Shows v := by
  cases s with
  | blank valid => rfl
  | holds valid i => trivial

theorem slotAt_shows {m : Bytes.Mem} {e : Nat} {s : Slot} (h : SlotAt C m e s) (v : Item) :
    (Entry.flag m e = IS_VALID →
      ∃ fuel i, RDMAWriteSocket.read C fuel (RDMAWriteSocket.contents m e) = some (0, some i) ∧ SameVersion i v) ↔
    s.Shows v := by
  cases s with
  | blank valid =>
    obtain ⟨hb, hfl⟩ := h
    cases valid with
    | true =>
      refine iff_of_false (fun hr => ?_) (by intro hs; cases hs)
      obtain ⟨fuel, i, hr, _⟩ := hr hfl
      rw [RDMAWriteSocket.read_blank hb] at hr
      cases hr
    | false =>
      refine iff_of_true (fun hv => ?_) rfl
      rw [hfl] at hv
      exact absurd hv (by decide)
  | holds valid j =>
    obtain ⟨hj, hfl⟩ := h
    cases valid with
    | true =>
      constructor
      · intro hr
        obtain ⟨fuel, i, hr, hs⟩ := hr hfl
        cases fuel with
        | zero => simp [RDMAWriteSocket.read, poll] at hr
        | succ fuel =>
          rw [RDMAWriteSocket.read_valid hj hfl] at hr
          cases hr
          exact hs
      · intro hs _
        exact ⟨1, j, RDMAWriteSocket.read_valid hj hfl 0, hs⟩
    | false =>
      refine iff_of_true (fun hv => ?_) trivial
      rw [hfl] at hv
      exact absurd hv (by decide)

namespace AbsTable

def Coherent (h : Hist) (a : AbsTable) : Prop := ∀ k s, a.cache.binding k = some (some s) → s.Shows (h.newest k)

def InOrder (h : Hist) (a : AbsTable) : Call → Prop
  | .prepare item => a.cache.binding item.key ≠ none ∨ a.cache.free = 0
  | .put item => a.cache.binding item.key ≠ none ∨ a.cache.free = 0
  | .commit ts => ∀ i ∈ a.versions ts, a.latest i.key < ts → ∀ j ∈ h.committed, j.key = i.key → j.ts ≤ ts
  | .get_item_addr _ => True

variable {h : Hist} {a a' : AbsTable}

/-- A call that invalidates the slot of `key` and commits nothing of another key. -/
theorem coherent_invalidate {h' : Hist} {t : Store} {key : Key} {b : Cache} (hc : a.Coherent h)
    (hb : a.cache.invalidate key = .ok b) (hn : ∀ k, k ≠ key → h'.newest k = h.newest k) :
    Coherent h' ⟨t, b⟩ ↔ a.cache.binding key ≠ none ∨ a.cache.free = 0 := by
  obtain ⟨hne, hk⟩ := Cache.invalidate_cases hb
  have other : ∀ k s, k ≠ key → b.binding k = some (some s) → s.Shows (h'.newest k) := by
    intro k s e hs
    rw [hn k e]
    exact hc k s (by rw [← hne k e]; exact hs)
  rcases hk with ⟨-, hfree, h1, -⟩ | ⟨n, h0, hfree, h1, -⟩ | ⟨s', h0, h1, -⟩
  · refine iff_of_true (fun k s hs => ?_) (.inr hfree)
    have hs : b.binding k = some (some s) := hs
    by_cases e : k = key
    · subst e; rw [h1] at hs; cases hs
    · exact other k s e hs
  · -- a fresh slot: valid and blank
    refine iff_of_false (fun hc' => ?_) ?_
    · exact Bool.noConfusion (hc' key _ h1)
    · rw [h0, hfree]; simp
  · refine iff_of_true (fun k s hs => ?_) (.inl (by rw [h0]; simp))
    have hs : b.binding k = some (some s) := hs
    by_cases e : k = key
    · subst e; rw [h1] at hs; cases hs; exact Slot.stale_shows _ _
    · exact other k s e hs

theorem coherent_commit {ts : Timestamp} (hi : HistInv h a.toStore) (hf : h.Fresh)
    (hbound : ∀ ts, ∀ i ∈ a.versions ts, a.cache.binding i.key ≠ none) (hc : a.Coherent h)
    (hcall : a.call C (.commit ts) = .ok a') : a'.Coherent (h.step (.commit ts)) ↔ a.InOrder h (.commit ts) := by
  have hrun : run (commit_item C ts) a (a.versions ts) = .ok a' := hcall
  constructor
  · intro hc' i hm hlt j hj hjk
    rcases commit_items_cases (k := i.key) _ hrun with ⟨-, h0 | h0 | h0⟩ | ⟨i', hm', hk', -, -, h1⟩
    · exact absurd h0 (hbound ts i hm)
    · exact absurd hlt h0
    · exact absurd rfl (h0 i hm)
    · have hs : SameVersion i' _ := hc' i.key _ h1
      have hle := Hist.le_newest (h := h.step (.commit ts)) (List.mem_append_left _ hj)
      rw [hjk, ← hs.1, ((hi.versions ts i').mp hm').2] at hle
      exact hle
  · intro ho k s hs
    rcases commit_items_cases (k := k) _ hrun with ⟨hb, hwhy⟩ | ⟨i, hm, hk, hlt, -, h1⟩
    · rw [hb] at hs
      -- the slot stays, and so does the newest version
      suffices hn : (h.step (.commit ts)).newest k = h.newest k by rw [hn]; exact hc k s hs
      by_cases hl : ∀ i ∈ h.prepared.filter (·.ts = ts), i.key ≠ k
      · exact Hist.newest_congr_key hl
      · obtain ⟨i, hm, hk⟩ : ∃ i ∈ h.prepared.filter (·.ts = ts), i.key = k := by
          by_contra hno
          exact hl fun i hm hk => hno ⟨i, hm, hk⟩
        obtain ⟨hp, he⟩ := List.mem_filter.mp hm
        have he : i.ts = ts := by simpa using he
        have hv : i ∈ a.versions ts := (hi.versions ts i).mpr ⟨hp, he⟩
        have hle : ts ≤ a.latest k := by
          rcases hwhy with h0 | h0 | h0
          · rw [hs] at h0; cases h0
          · exact not_lt.mp h0
          · exact absurd hk (h0 i hv)
        -- `ts` has a version of `k`, so `latest_commit[k]` is not empty: a PUT moved it
        have hnew : ts ≤ (h.newest k).ts := by
          rcases hi.latest k with h0 | ⟨j, hj, hjk, hjt⟩
          · have := hf.positive i hp
            rw [he] at this
            exact absurd this (not_lt.mpr (h0 ▸ hle))
          · rw [← hjk]
            exact hle.trans (hjt ▸ Hist.le_newest hj)
        have hstep : h.step (.commit ts) = { h with committed := h.committed ++ h.prepared.filter (·.ts = ts) } := rfl
        rw [hstep]
        simp only [Hist.newest, List.filter_append]
        apply newest_append_of_le
        intro x hx
        have hx := (List.mem_filter.mp (List.mem_filter.mp hx).1).2
        rw [show x.ts = ts by simpa using hx]
        exact hnew
    · rw [h1] at hs
      cases hs
      obtain ⟨hp, he⟩ := (hi.versions ts i).mp hm
      subst hk
      subst he
      show SameVersion i _
      rw [Hist.newest_commit hf hi.committed hp fun j hj hjk => ho i hm hlt j hj hjk]
      exact ⟨rfl, rfl, rfl⟩

theorem coherent_get_item_addr {key : Key} (hi : HistInv h a.toStore)
    (hbound : ∀ ts, ∀ i ∈ a.versions ts, a.cache.binding i.key ≠ none) (hc : a.Coherent h)
    (hcall : a.call C (.get_item_addr key) = .ok a') : a'.Coherent h := by
  obtain ⟨b, hb, he⟩ := bind_ok.mp hcall
  cases he
  obtain ⟨hne, hk⟩ := Cache.get_item_addr_cases hb
  intro k s hs
  have hs : b.binding k = some (some s) := hs
  rcases hk with ⟨n, h0, -, -, h1⟩ | ⟨s0, -, rfl⟩
  · by_cases e : k = key
    · subst e
      rw [h1] at hs
      cases hs
      -- an unbound key has no version
      have hno : h.committed.filter (·.key = k) = [] := by
        rw [List.filter_eq_nil_iff]
        intro i hic hik
        have hik : i.key = k := by simpa using hik
        exact hbound i.ts i ((hi.versions _ _).mpr ⟨hi.committed i hic, rfl⟩) (hik ▸ h0)
      show SameVersion (.of_key k) (h.newest k)
      simp only [Hist.newest, hno, newest_nil]
      exact ⟨rfl, rfl, rfl⟩
    · exact hc k s (by rw [← hne k e]; exact hs)
  · exact hc k s hs

theorem coherent_call {c : Call} (hi : HistInv h a.toStore) (hf : h.Fresh)
    (hbound : ∀ ts, ∀ i ∈ a.versions ts, a.cache.binding i.key ≠ none) (hc : a.Coherent h)
    (hcall : a.call C c = .ok a') : a'.Coherent (h.step c) ↔ a.InOrder h c := by
  cases c with
  | prepare item =>
    obtain ⟨b, hb, he⟩ := bind_ok.mp hcall
    cases he
    exact coherent_invalidate hc hb fun _ _ => rfl
  | commit ts => exact coherent_commit hi hf hbound hc hcall
  | put item =>
    obtain ⟨b, hb, he⟩ := bind_ok.mp hcall
    cases he
    refine coherent_invalidate hc hb fun k e => ?_
    exact Hist.newest_congr_key (h := h) fun i hi => by rw [List.mem_singleton.mp hi]; exact Ne.symm e
  | get_item_addr key => exact iff_of_true (coherent_get_item_addr hi hbound hc hcall) trivial

theorem hist_inv {n : Nat} {cs : List Call} (hrun : run (call C) (init n) cs = .ok a) : HistInv (hist cs) a.toStore :=
  run_induct (s := init n) (fun cs (a : AbsTable) => HistInv (hist cs) a.toStore) histInv_init
    (fun cs c _ _ _ hi h => by rw [hist_snoc, call_store h]; exact histInv_call hi c) cs a hrun

theorem coherent_of_inOrder {n : Nat} : ∀ (cs : List Call) (a : AbsTable), run (call C) (init n) cs = .ok a →
    (hist cs).Fresh → (∀ pre c post u, cs = pre ++ c :: post → run (call C) (init n) pre = .ok u →
      InOrder (hist pre) u c) → a.Coherent (hist cs) := by
  intro cs
  induction cs using List.reverseRecOn with
  | nil => intro a h _ _ k s hs; cases h; cases hs
  | append_singleton cs c ih =>
    intro a' h hf ho
    obtain ⟨a, ha, hcall⟩ := run_snoc_ok.mp h
    rw [hist_snoc] at hf ⊢
    have hc := ih a ha hf.of_step fun pre c' post u e hu => ho pre c' (post ++ [c]) u (by simp [e]) hu
    exact (coherent_call (hist_inv ha) hf.of_step (slot_inv ha).bound hc hcall).mpr (ho cs c [] a rfl ha)

end AbsTable

/-! ## The table -/

theorem coherent_sim {h : Hist} {t : Table} {a : AbsTable} (hs : TableSim C t a) : Coherent C h t ↔ a.Coherent h := by
  constructor
  · intro hc k s hk
    have hb := hs.cache.binding k
    rw [hk] at hb
    obtain ⟨e, he, hslot⟩ : ∃ e, t.committed_items.entries.find k = some (some e) ∧
        SlotAt C t.committed_items.mem e s := by
      generalize t.committed_items.entries.find k = b at hb
      cases hb with
      | slot hslot => exact ⟨_, rfl, hslot⟩
    exact (slotAt_shows hslot _).mp (hc k e he)
  · intro hc k e he
    obtain ⟨s, hk, hslot⟩ := hs.cache.slot he
    exact (slotAt_shows hslot _).mpr (hc k s hk)

theorem inOrder_sim {h : Hist} {t : Table} {a : AbsTable} (hs : TableSim C t a) (c : Call) :
    InOrder h t c ↔ a.InOrder h c := by
  have hnone : ∀ k, t.committed_items.entries.find k = none ↔ a.cache.binding k = none := by
    intro k
    have hb := hs.cache.binding k
    generalize t.committed_items.entries.find k = x, a.cache.binding k = y at hb
    cases hb <;> simp
  have hpool : t.committed_items.unused_entries = [] ↔ a.cache.free = 0 := by
    rw [hs.cache.free, List.length_eq_zero_iff]
  cases c with
  | prepare item => simp only [InOrder, AbsTable.InOrder, ne_eq, hnone, hpool]
  | commit ts => simp only [InOrder, AbsTable.InOrder, hs.store]
  | put item => simp only [InOrder, AbsTable.InOrder, ne_eq, hnone, hpool]
  | get_item_addr key => exact Iff.rfl

/-- Every state a run goes through is coherent if and only if every call of it is in order. -/
theorem coherent_iff {n : Nat} {cs : List Call} {t : Table} (hrun : run (Table.call C) (.init n) cs = .ok t)
    (hf : (hist cs).Fresh) :
    (∀ pre post u, cs = pre ++ post → run (Table.call C) (.init n) pre = .ok u → Coherent C (hist pre) u) ↔
    ∀ pre c post u, cs = pre ++ c :: post → run (Table.call C) (.init n) pre = .ok u → InOrder (hist pre) u c := by
  have fresh_of : ∀ pre post, cs = pre ++ post → (hist pre).Fresh := by
    intro pre post e
    subst e
    clear hrun
    induction post using List.reverseRecOn with
    | nil => rwa [List.append_nil] at hf
    | append_singleton post c ih =>
      rw [← List.append_assoc, hist_snoc] at hf
      exact ih hf.of_step
  constructor
  · intro hc pre c post u e hu
    have e' : cs = (pre ++ [c]) ++ post := by rw [e, List.append_assoc]; rfl
    obtain ⟨u', hu', -⟩ := run_append_ok.mp (e' ▸ hrun)
    obtain ⟨a, ha, hs⟩ := (hu ▸ calls_sim n pre : RelExcept (TableSim C) (.ok u) _).ok_left
    obtain ⟨a', ha', hs'⟩ := (hu' ▸ calls_sim n _ : RelExcept (TableSim C) (.ok u') _).ok_left
    obtain ⟨a1, ha1, hcall⟩ := run_snoc_ok.mp ha'
    cases ha.symm.trans ha1
    rw [inOrder_sim hs]
    refine (AbsTable.coherent_call (AbsTable.hist_inv ha) (fresh_of _ _ e) (slot_inv ha).bound
      ((coherent_sim hs).mp (hc pre (c :: post) u e hu)) hcall).mp ?_
    have := (coherent_sim hs').mp (hc (pre ++ [c]) post u' e' hu')
    rwa [hist_snoc] at this
  · intro ho pre post u e hu
    obtain ⟨a, ha, hs⟩ := (hu ▸ calls_sim n pre : RelExcept (TableSim C) (.ok u) _).ok_left
    rw [coherent_sim hs]
    refine AbsTable.coherent_of_inOrder pre a ha (fresh_of _ _ e) fun p c q a1 e1 ha1 => ?_
    obtain ⟨u1, hu1, hs1⟩ := (ha1 ▸ calls_sim n p : RelExcept (TableSim C) _ (.ok a1)).ok_right
    exact (inOrder_sim hs1 c).mp (ho p c (q ++ post) u1 (by rw [e, e1]; simp) hu1)

/-! ## Runs -/

/-- A version of "x" with microsecond stamp `t`. -/
def versionAt (t : Int64) : Item :=
  { key := "x", values := .ofList [("f", [t.toUInt64.toUInt8])], ts := ⟨1, t⟩, trx_keys := {"x"} }

/-- What a run over the abstract table leaves the slot of "x" as, carried to the table. -/
theorem run_slot (cs : List Call) (b : Option (Option Slot))
    (h : ((run (AbsTable.call C) (.init ENTRY_NUM) cs).toOption.map fun a => a.cache.binding "x") = some b) :
    ∃ t a, run (Table.call C) (.init ENTRY_NUM) cs = .ok t ∧ TableSim C t a ∧ a.cache.binding "x" = b := by
  rcases ha : run (AbsTable.call C) (.init ENTRY_NUM) cs with e | a
  · rw [ha] at h; cases h
  · rw [ha] at h
    obtain ⟨t, ht, hs⟩ := (ha ▸ calls_sim ENTRY_NUM cs : RelExcept (TableSim C) _ (.ok a)).ok_right
    exact ⟨t, a, ht, hs, Option.some.inj h⟩

/-- A reader, then one transaction on "x". -/
def oneWriter : List Call := [.get_item_addr "x", .prepare (versionAt 1), .commit ⟨1, 1⟩]

/-- A reader, then two transactions on "x", the newer one first to commit. -/
def lateCommit : List Call :=
  [.get_item_addr "x", .prepare (versionAt 1), .prepare (versionAt 2), .commit ⟨1, 2⟩, .commit ⟨1, 1⟩]

theorem coherent_iff_oneWriter : ∃ t, run (Table.call Wire.msgpack) (.init ENTRY_NUM) oneWriter = .ok t ∧
    ((∀ pre post u, oneWriter = pre ++ post → run (Table.call Wire.msgpack) (.init ENTRY_NUM) pre = .ok u →
        Coherent Wire.msgpack (hist pre) u) ↔
      ∀ pre c post u, oneWriter = pre ++ c :: post → run (Table.call Wire.msgpack) (.init ENTRY_NUM) pre = .ok u →
        InOrder (hist pre) u c) := by
  obtain ⟨t, a, ht, -, -⟩ := run_slot (C := Wire.msgpack) oneWriter (some (some (.holds true (versionAt 1)))) (by decide)
  refine ⟨t, ht, coherent_iff ht ⟨?_, ?_⟩⟩
  · intro i hi j hj _ _
    exact (List.mem_singleton.mp hi).trans (List.mem_singleton.mp hj).symm
  · intro i hi
    rw [List.mem_singleton.mp hi]
    decide

/-- A first PREPARE leaves a valid blank slot; of two COMMITs of "x", the older one that
    comes last wins the slot. -/
theorem incoherent_runs :
    (∃ t, run (Table.call Wire.msgpack) (.init ENTRY_NUM) [.prepare (versionAt 1)] = .ok t ∧
      ¬ Coherent Wire.msgpack (hist [.prepare (versionAt 1)]) t) ∧
    ∃ t, run (Table.call Wire.msgpack) (.init ENTRY_NUM) lateCommit = .ok t ∧
      ¬ Coherent Wire.msgpack (hist lateCommit) t := by
  constructor
  · obtain ⟨t, a, ht, hs, hb⟩ := run_slot (C := Wire.msgpack) [.prepare (versionAt 1)] (some (some (.blank true)))
      (by decide)
    refine ⟨t, ht, fun hc => ?_⟩
    exact Bool.noConfusion ((coherent_sim hs).mp hc "x" _ hb)
  · obtain ⟨t, a, ht, hs, hb⟩ := run_slot (C := Wire.msgpack) lateCommit (some (some (.holds true (versionAt 1))))
      (by decide)
    refine ⟨t, ht, fun hc => ?_⟩
    have hv : SameVersion (versionAt 1) _ := (coherent_sim hs).mp hc "x" _ hb
    exact absurd hv.1 (by decide)

end RampRdma
