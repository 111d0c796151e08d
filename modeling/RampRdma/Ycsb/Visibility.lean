/-
  RampRdma.Ycsb.Visibility — which versions the table of the YCSB copy returns, after any
  sequence of PREPAREs and COMMITs.

  All timestamps of one second are one key of `items`, once there is a node whose `usec` is
  that second, and no key before. So a version can be lost, found under another timestamp of
  its second, hidden behind an earlier one of its key, or committed by another transaction.
  - `Apart`: none of this happens at a call, as far as the calls before it tell.
  - `visible_iff`: every version is found from its prepare on, and the latest one of every key
    is the newest of those committed by their own timestamp, after every call, if and only if
    each call is `Apart`.
  - `lost`: one PREPARE with the clock at 300 microseconds past a second.
-/

import Mathlib
import RampRdma.Lib.Runs
import RampRdma.Ycsb.Table

namespace RampRdma.Ycsb

open Runs

inductive Call where
  | prepare (item : Item)
  | commit (ts : Timestamp)

def Call.item : Call → Option Item
  | .prepare item => some item
  | .commit _ => none

def Table.call (t : Table) : Call → Table
  | .prepare item => t.prepare item
  | .commit ts => t.commit ts

/-- The table after `cs`. -/
def after (cs : List Call) : Table := cs.foldl Table.call {}

/-- The versions prepared. -/
def prepared (cs : List Call) : List Item := cs.filterMap Call.item

/-- No two versions of a key with one timestamp, and none before or at `Timestamp()`. -/
structure Stamped (cs : List Call) : Prop where
  distinct : ((prepared cs).map fun i => (i.key, i.ts)).Nodup
  positive : ∀ i ∈ prepared cs, Timestamp.empty < i.ts
  commits : ∀ ts, .commit ts ∈ cs → Timestamp.empty < ts

/-- `i` was prepared before a commit of its own timestamp. -/
def Committed (cs : List Call) (i : Item) : Prop := Somewhere (fun pre c => c = .commit i.ts ∧ i ∈ prepared pre) cs

/-- `i` is the newest version of `k` that is committed, or there is none. -/
def IsLatest (cs : List Call) (k : Key) (i : Item) : Prop :=
  (i = .empty ∧ ∀ j, Committed cs j → j.key ≠ k) ∨
  (Committed cs i ∧ i.key = k ∧ ∀ j, Committed cs j → j.key = k → j.ts ≤ i.ts)

structure Visible (cs : List Call) : Prop where
  by_ver : ∀ i ∈ prepared cs, (after cs).get_item_by_ver i.key i.ts = i
  latest : ∀ k, IsLatest cs k ((after cs).get_latest_item k).2

/-- What goes wrong nowhere: the second of a version has its node, and no other version of the
    key; and a commit finds no version of another timestamp, unless its key is committed
    that far already. -/
def Apart (pre : List Call) : Call → Prop
  | .prepare item =>
    (item.ts.usec = item.ts.sec ∨ ∃ i ∈ prepared pre, i.ts.sec = item.ts.sec ∧ i.ts.usec = item.ts.sec) ∧
    ∀ i ∈ prepared pre, i.key = item.key → i.ts.sec ≠ item.ts.sec
  | .commit ts => ∀ i ∈ prepared pre, i.ts.sec = ts.sec → i.ts ≠ ts →
    ∃ j, Committed pre j ∧ j.key = i.key ∧ i.ts.sec ≤ j.ts.sec

theorem after_snoc (cs : List Call) (c : Call) : after (cs ++ [c]) = (after cs).call c := by
  simp [after, List.foldl_append]

theorem prepared_snoc (cs : List Call) (c : Call) : prepared (cs ++ [c]) = prepared cs ++ c.item.toList := by
  unfold prepared
  rw [List.filterMap_append]
  cases c <;> rfl

theorem mem_prepared_snoc {cs : List Call} {c : Call} {i : Item} :
    i ∈ prepared (cs ++ [c]) ↔ i ∈ prepared cs ∨ c.item = some i := by
  rw [prepared_snoc, List.mem_append, Option.mem_toList]

theorem committed_snoc {cs : List Call} {c : Call} {i : Item} :
    Committed (cs ++ [c]) i ↔ Committed cs i ∨ c = .commit i.ts ∧ i ∈ prepared cs := somewhere_snoc

theorem Committed.prepared {cs : List Call} {i : Item} (h : Committed cs i) : i ∈ prepared cs := by
  obtain ⟨pre, c, post, rfl, -, hi⟩ := h
  unfold Ycsb.prepared
  rw [List.filterMap_append]
  exact List.mem_append_left _ hi

theorem Stamped.init {cs : List Call} {c : Call} (h : Stamped (cs ++ [c])) : Stamped cs := by
  have hd := h.distinct
  rw [prepared_snoc, List.map_append, List.nodup_append] at hd
  exact ⟨hd.1, fun i hi => h.positive i (mem_prepared_snoc.mpr (.inl hi)), fun ts ht => h.commits ts (by simp [ht])⟩

/-! ## Seconds -/

theorem lt_of_sec_lt {a b : Timestamp} (h : a.sec < b.sec) : a < b := by
  have hne : a.sec ≠ b.sec := by
    intro e
    rw [e, Int64.lt_iff_toInt_lt] at h
    omega
  rw [← Timestamp.lt_iff, Timestamp.lt, if_neg hne]
  exact decide_eq_true h

theorem sec_le_of_le {a b : Timestamp} (h : a ≤ b) : a.sec ≤ b.sec := by
  by_contra hn
  refine absurd h (not_le.mpr (lt_of_sec_lt ?_))
  rw [Int64.le_iff_toInt_le] at hn
  rw [Int64.lt_iff_toInt_lt]
  omega

/-! ## The table behind calls that are apart -/

structure Inv (cs : List Call) : Prop where
  node : ∀ i ∈ prepared cs, ∃ j ∈ prepared cs, j.ts.sec = i.ts.sec ∧ j.ts.usec = i.ts.sec
  single : ∀ i ∈ prepared cs, ∀ j ∈ prepared cs, i.key = j.key → i.ts.sec = j.ts.sec → i = j
  versions : ∀ ts, (after cs).versions ts = (prepared cs).filter (·.ts.sec = ts.sec)
  full : ∀ ts, (after cs).items.find ts ≠ some []
  /-- `latest_commit` is in the second of the newest version committed. -/
  latest : ∀ k, ((after cs).latest k = .empty ∧ ∀ j, Committed cs j → j.key ≠ k) ∨
    ∃ i, Committed cs i ∧ i.key = k ∧ ((after cs).latest k).sec = i.ts.sec ∧
      ∀ j, Committed cs j → j.key = k → j.ts.sec ≤ i.ts.sec

variable {cs : List Call} {c : Call}

namespace Inv

theorem mem_versions (hi : Inv cs) {i : Item} {ts : Timestamp} :
    i ∈ (after cs).versions ts ↔ i ∈ prepared cs ∧ i.ts.sec = ts.sec := by
  rw [hi.versions, List.mem_filter, decide_eq_true_eq]

/-- A lookup of a timestamp in the second of a version returns that version. -/
theorem found (hi : Inv cs) {i : Item} (h : i ∈ prepared cs) {ts : Timestamp} (hs : i.ts.sec = ts.sec) :
    (after cs).get_item_by_ver i.key ts = i := by
  rw [Table.get_item_by_ver_eq, find_single (hi.mem_versions.mpr ⟨h, hs⟩)]
  · rfl
  · intro j hj hk
    obtain ⟨hj, hjs⟩ := hi.mem_versions.mp hj
    exact hi.single j hj i h hk (hjs.trans hs.symm)

theorem bound (hi : Inv cs) {ts : Timestamp} : (after cs).items.find ts ≠ none ↔ ∃ i ∈ prepared cs, i.ts.sec = ts.sec := by
  rcases hf : (after cs).items.find ts with _ | l
  · have hv : (after cs).versions ts = [] := by rw [Table.versions, hf]; rfl
    constructor
    · intro h
      exact absurd rfl h
    · rintro ⟨i, h, hs⟩
      have := hi.mem_versions.mpr ⟨h, hs⟩
      rw [hv] at this
      cases this
  · have hv : (after cs).versions ts = l := by rw [Table.versions, hf]; rfl
    refine iff_of_true (by simp) ?_
    cases l with
    | nil => exact absurd hf (hi.full ts)
    | cons i l =>
      have : i ∈ (after cs).versions ts := by rw [hv]; exact List.mem_cons_self
      exact ⟨i, hi.mem_versions.mp this⟩

theorem visible (hi : Inv cs) (hs : Stamped cs) : Visible cs := by
  refine ⟨fun i h => hi.found h rfl, fun k => ?_⟩
  show IsLatest cs k ((after cs).get_item_by_ver k ((after cs).latest k))
  rcases hi.latest k with ⟨h0, hno⟩ | ⟨i, hc, rfl, hsec, hle⟩
  · -- nothing was prepared in second 0: its first version would have to be at `Timestamp()`
    have hv : (after cs).versions ((after cs).latest k) = [] := by
      rw [List.eq_nil_iff_forall_not_mem]
      intro j hj
      obtain ⟨hj, hjs⟩ := hi.mem_versions.mp hj
      obtain ⟨j0, hj0, h1, h2⟩ := hi.node j hj
      rw [h0] at hjs
      refine absurd (hs.positive j0 hj0) ?_
      have : j0.ts = .empty := by
        cases hts : j0.ts
        rw [hts, hjs] at h1 h2
        simp only at h1 h2
        rw [h1, h2]
      rw [this]
      exact lt_irrefl _
    rw [Table.get_item_by_ver_eq, hv]
    exact .inl ⟨rfl, hno⟩
  · rw [hi.found hc.prepared hsec.symm]
    refine .inr ⟨hc, rfl, fun j hj hk => ?_⟩
    by_cases e : j.ts.sec = i.ts.sec
    · rw [hi.single j hj.prepared i hc.prepared hk e]
    · refine (lt_of_sec_lt ?_).le
      have := hle j hj hk
      rw [Int64.le_iff_toInt_le] at this
      rw [← Int64.toInt_inj] at e
      rw [Int64.lt_iff_toInt_lt]
      omega

/-! ### One more call -/

theorem prepare (hi : Inv cs) {item : Item} (ha : Apart cs (.prepare item)) : Inv (cs ++ [.prepare item]) := by
  obtain ⟨hnode, hnew⟩ := ha
  have hm : ∀ {i}, i ∈ prepared (cs ++ [.prepare item]) ↔ i ∈ prepared cs ∨ i = item := by
    intro i
    rw [mem_prepared_snoc]
    simp [Call.item, eq_comm]
  have hc : ∀ i, Committed (cs ++ [.prepare item]) i ↔ Committed cs i := by
    intro i
    rw [committed_snoc]
    simp
  have hat : (after cs).items.find item.ts ≠ none ∨ item.ts.usec = item.ts.sec := by
    rcases hnode with h | ⟨i, h, hs, -⟩
    · exact .inr h
    · exact .inl (hi.bound.mpr ⟨i, h, hs⟩)
  refine ⟨fun i h => ?_, fun i h j hj hk hs => ?_, fun ts => ?_, fun ts => ?_, fun k => ?_⟩
  · rcases hm.mp h with h | rfl
    · obtain ⟨j, hj, he⟩ := hi.node i h
      exact ⟨j, hm.mpr (.inl hj), he⟩
    · rcases hnode with h | ⟨j, hj, he⟩
      · exact ⟨i, hm.mpr (.inr rfl), rfl, h⟩
      · exact ⟨j, hm.mpr (.inl hj), he⟩
  · rcases hm.mp h with h1 | h1 <;> rcases hm.mp hj with h2 | h2
    · exact hi.single i h1 j h2 hk hs
    · subst h2
      exact absurd hs (hnew i h1 hk)
    · subst h1
      exact absurd hs.symm (hnew j h2 hk.symm)
    · rw [h1, h2]
  · rw [after_snoc]
    show ((after cs).prepare item).versions ts = _
    rw [Table.prepare_versions, prepared_snoc, List.filter_append]
    by_cases e : ts.sec = item.ts.sec
    · rw [if_pos ⟨e, hat⟩, hi.versions]
      simp [Call.item, e]
    · rw [if_neg fun h => e h.1, hi.versions]
      simp [Call.item, Ne.symm e]
  · rw [after_snoc]
    show ((after cs).items.modify item.ts [] (· ++ [item])).find ts ≠ _
    rw [TimestampMap.find_modify]
    split
    · simp
    · exact hi.full ts
  · rw [after_snoc]
    simp only [hc]
    exact hi.latest k

/-- What a commit does to a key: `i` is its version in the second of the commit. -/
theorem commit_key (hi : Inv cs) {ts : Timestamp} (h0 : Timestamp.empty < ts) {i : Item} (h : i ∈ prepared cs)
    (hs : i.ts.sec = ts.sec) (ha : i.ts ≠ ts → ∃ j, Committed cs j ∧ j.key = i.key ∧ i.ts.sec ≤ j.ts.sec) :
    ∃ j, (Committed cs j ∨ j = i ∧ i.ts = ts) ∧ j.key = i.key ∧ ((after cs).commit ts |>.latest i.key).sec = j.ts.sec ∧
      i.ts.sec ≤ j.ts.sec ∧ ∀ j', Committed cs j' → j'.key = i.key → j'.ts.sec ≤ j.ts.sec := by
  have hl := Table.commit_latest (after cs) ts i.key
  have hex : ∃ j ∈ (after cs).versions ts, j.key = i.key := ⟨i, hi.mem_versions.mpr ⟨h, hs⟩, rfl⟩
  by_cases hlt : (after cs).latest i.key < ts
  · rw [if_pos ⟨hex, hlt⟩] at hl
    rw [hl]
    rcases hi.latest i.key with ⟨-, hno⟩ | ⟨j, hj, hk, hsec, hle⟩
    · -- the first commit of the key
      by_cases hts : i.ts = ts
      · exact ⟨i, .inr ⟨rfl, hts⟩, rfl, hs.symm, Int64.le_refl _, fun j' hj' hk' => absurd hk' (hno j' hj')⟩
      · obtain ⟨j, hj, hk, -⟩ := ha hts
        exact absurd hk (hno j hj)
    · have hjs : j.ts.sec ≤ ts.sec := hsec ▸ sec_le_of_le hlt.le
      by_cases hts : i.ts = ts
      · exact ⟨i, .inr ⟨rfl, hts⟩, rfl, hs.symm, Int64.le_refl _, fun j' hj' hk' =>
          Int64.le_trans (hle j' hj' hk') (hs ▸ hjs)⟩
      · obtain ⟨j0, hj0, hk0, hle0⟩ := ha hts
        have h1 := hle j0 hj0 hk0
        have h2 : j.ts.sec = ts.sec := Int64.le_antisymm hjs (hs ▸ Int64.le_trans hle0 h1)
        exact ⟨j, .inl hj, hk, h2.symm, by rw [h2, hs]; exact Int64.le_refl _, hle⟩
  · rw [if_neg fun h => hlt h.2] at hl
    rw [hl]
    rcases hi.latest i.key with ⟨he, -⟩ | ⟨j, hj, hk, hsec, hle⟩
    · rw [he] at hlt
      exact absurd h0 hlt
    · refine ⟨j, .inl hj, hk, hsec, ?_, hle⟩
      rw [hs, ← hsec]
      exact sec_le_of_le (not_lt.mp hlt)

theorem commit (hi : Inv cs) {ts : Timestamp} (h0 : Timestamp.empty < ts) (ha : Apart cs (.commit ts)) :
    Inv (cs ++ [.commit ts]) := by
  have hp : prepared (cs ++ [.commit ts]) = prepared cs := by
    rw [prepared_snoc]
    simp [Call.item]
  have hit : (after (cs ++ [.commit ts])).items = (after cs).items := by
    rw [after_snoc]
    exact Table.commit_items _ _
  have hc : ∀ i, Committed (cs ++ [.commit ts]) i ↔ Committed cs i ∨ i.ts = ts ∧ i ∈ prepared cs := by
    intro i
    rw [committed_snoc]
    simp [eq_comm]
  refine ⟨by rw [hp]; exact hi.node, by rw [hp]; exact hi.single, fun q => ?_, by rw [hit]; exact hi.full, fun k => ?_⟩
  · rw [hp, ← hi.versions]
    simp only [Table.versions, hit]
  · rw [after_snoc]
    by_cases hk : ∃ i ∈ prepared cs, i.ts.sec = ts.sec ∧ i.key = k
    · obtain ⟨i, h, hs, rfl⟩ := hk
      obtain ⟨j, hj, hjk, hsec, hle, hmax⟩ := hi.commit_key h0 h hs (ha i h hs)
      refine .inr ⟨j, (hc j).mpr (hj.imp id ?_), hjk, hsec, fun j' hj' hk' => ?_⟩
      · rintro ⟨rfl, hts⟩
        exact ⟨hts, h⟩
      · rcases (hc j').mp hj' with hj' | ⟨rfl, hj'⟩
        · exact hmax j' hj' hk'
        · rwa [← hs]
    · -- no version of the key in the second
      have hl : ((after cs).commit ts).latest k = (after cs).latest k := by
        rw [Table.commit_latest, if_neg]
        rintro ⟨⟨i, h, hik⟩, -⟩
        obtain ⟨h, hs⟩ := hi.mem_versions.mp h
        exact hk ⟨i, h, hs, hik⟩
      have hck : ∀ j, j.key = k → (Committed (cs ++ [.commit ts]) j ↔ Committed cs j) := by
        intro j hjk
        rw [hc, or_iff_left]
        rintro ⟨rfl, hj⟩
        exact hk ⟨j, hj, rfl, hjk⟩
      have hl : ((after cs).call (.commit ts)).latest k = (after cs).latest k := hl
      rw [hl]
      rcases hi.latest k with ⟨he, hno⟩ | ⟨i, h, hik, hsec, hle⟩
      · exact .inl ⟨he, fun j hj hjk => hno j ((hck j hjk).mp hj) hjk⟩
      · exact .inr ⟨i, (hck i hik).mpr h, hik, hsec, fun j hj hjk => hle j ((hck j hjk).mp hj) hjk⟩

/-! ### Nothing less will do -/

/-- A version whose prepare is not apart is not found right after it. -/
theorem apart_prepare (hi : Inv cs) {item : Item} (hs : Stamped (cs ++ [.prepare item]))
    (hv : Visible (cs ++ [.prepare item])) : Apart cs (.prepare item) := by
  have hitem : item ∈ prepared (cs ++ [.prepare item]) := mem_prepared_snoc.mpr (.inr rfl)
  have hget := hv.by_ver item hitem
  rw [after_snoc, Table.get_item_by_ver_eq] at hget
  have hver := (after cs).prepare_versions item item.ts
  constructor
  · by_contra hno
    rw [not_or] at hno
    have hf : (after cs).items.find item.ts = none := by
      by_contra hf
      obtain ⟨i, h, hsec⟩ := hi.bound.mp hf
      obtain ⟨j, hj, h1, h2⟩ := hi.node i h
      rw [hsec] at h1 h2
      exact hno.2 ⟨j, hj, h1, h2⟩
    rw [if_neg (by simp [hf, hno.1]), Table.versions, Table.versions, hf] at hver
    have he : item = .empty := by
      rw [← hget]
      show ((((after cs).prepare item).versions item.ts).find? _).getD _ = _
      rw [Table.versions, hver]
      rfl
    refine absurd (hs.positive item hitem) ?_
    rw [he]
    exact lt_irrefl _
  · intro i h hk hsec
    -- an earlier version of the key stands before it
    have hin : i ∈ (after cs).versions item.ts := hi.mem_versions.mpr ⟨h, hsec⟩
    have hbefore : ∃ post, ((after cs).prepare item).versions item.ts = (after cs).versions item.ts ++ post := by
      rw [hver]
      split
      · exact ⟨_, rfl⟩
      · exact ⟨[], (List.append_nil _).symm⟩
    obtain ⟨post, hb⟩ := hbefore
    obtain ⟨j, hj⟩ : ∃ j, ((after cs).versions item.ts).find? (·.key = item.key) = some j := by
      refine Option.isSome_iff_exists.mp (List.find?_isSome.mpr ⟨i, hin, by simpa using hk⟩)
    have hget : ((((after cs).prepare item).versions item.ts).find? (·.key = item.key)).getD .empty = item := hget
    rw [hb, List.find?_append, hj] at hget
    have : j = item := hget
    subst this
    have hmem := (hi.mem_versions.mp (List.mem_of_find?_eq_some hj)).1
    have hd := hs.distinct
    rw [prepared_snoc, List.map_append, List.nodup_append] at hd
    exact hd.2.2 _ (List.mem_map_of_mem hmem) _ (by simp [Call.item]) rfl

theorem apart_commit (hi : Inv cs) {ts : Timestamp} (hs : Stamped (cs ++ [.commit ts]))
    (hv : Visible (cs ++ [.commit ts])) : Apart cs (.commit ts) := by
  intro i h hsec hne
  by_contra hno
  have hbelow : ∀ j, Committed cs j → j.key = i.key → j.ts.sec < i.ts.sec := by
    intro j hj hk
    by_contra hge
    refine hno ⟨j, hj, hk, ?_⟩
    rw [Int64.lt_iff_toInt_lt] at hge
    rw [Int64.le_iff_toInt_le]
    omega
  have hlt : (after cs).latest i.key < ts := by
    rcases hi.latest i.key with ⟨he, -⟩ | ⟨j, hj, hk, hjs, -⟩
    · rw [he]
      exact hs.commits ts (by simp)
    · refine lt_of_sec_lt ?_
      rw [hjs, ← hsec]
      exact hbelow j hj hk
  have hl : ((after cs).commit ts).latest i.key = ts := by
    rw [Table.commit_latest, if_pos ⟨⟨i, hi.mem_versions.mpr ⟨h, hsec⟩, rfl⟩, hlt⟩]
  have hget : ((after (cs ++ [.commit ts])).get_latest_item i.key).2 = i := by
    rw [after_snoc]
    show ((after cs).commit ts).get_item_by_ver i.key (((after cs).commit ts).latest i.key) = i
    rw [hl, Table.get_item_by_ver_eq, Table.versions, Table.commit_items]
    have := hi.found h hsec
    rwa [Table.get_item_by_ver_eq] at this
  have hlatest := hv.latest i.key
  rw [hget] at hlatest
  rcases hlatest with ⟨he, -⟩ | ⟨hc, -, -⟩
  · refine absurd (hs.positive i (mem_prepared_snoc.mpr (.inl h))) ?_
    rw [he]
    exact lt_irrefl _
  · rcases committed_snoc.mp hc with hc | ⟨hc, -⟩
    · have := hbelow i hc rfl
      rw [Int64.lt_iff_toInt_lt] at this
      omega
    · exact hne (Call.commit.inj hc).symm

end Inv

/-! ## After every call -/

theorem stamped_of_prefix {pre : List Call} (hp : pre <+: cs) (hs : Stamped cs) : Stamped pre := by
  induction cs using List.reverseRecOn with
  | nil =>
    rw [List.prefix_nil.mp hp]
    exact hs
  | append_singleton cs c ih =>
    rcases List.prefix_concat_iff.mp hp with rfl | hp
    · exact hs
    · exact ih hp hs.init

theorem inv_of_apart (hs : Stamped cs) (ha : Everywhere Apart cs) : Inv cs := by
  induction cs using List.reverseRecOn with
  | nil =>
    have hno : ∀ j, ¬ Committed [] j := fun j => somewhere_nil _
    constructor
    case node => exact fun i h => nomatch h
    case single => exact fun i h => nomatch h
    case versions => exact fun ts => rfl
    case full => exact fun ts h => nomatch h
    case latest => exact fun k => .inl ⟨rfl, fun j hj => absurd hj (hno j)⟩
  | append_singleton cs c ih =>
    obtain ⟨ha, hc⟩ := everywhere_snoc.mp ha
    have hi := ih hs.init ha
    cases c with
    | prepare item => exact hi.prepare hc
    | commit ts => exact hi.commit (hs.commits ts (by simp)) hc

/-- After every call of the sequence, every version prepared is found by its key and timestamp and
    the latest version of every key is the newest committed, if and only if every call is
    apart. -/
theorem visible_iff (hs : Stamped cs) : (∀ pre, pre <+: cs → Visible pre) ↔ Everywhere Apart cs := by
  constructor
  · intro hv
    induction cs using List.reverseRecOn with
    | nil =>
      intro pre c post h
      simp at h
    | append_singleton cs c ih =>
      have ha := ih hs.init fun pre hp => hv pre (hp.trans (List.prefix_append _ _))
      have hi := inv_of_apart hs.init ha
      have hvis := hv _ List.prefix_rfl
      refine everywhere_snoc.mpr ⟨ha, ?_⟩
      cases c with
      | prepare item => exact hi.apart_prepare hs hvis
      | commit ts => exact hi.apart_commit hs hvis
  · intro ha pre hp
    have hs' := stamped_of_prefix hp hs
    refine (inv_of_apart hs' ?_).visible hs'
    obtain ⟨post, rfl⟩ := hp
    intro pre' c post' e
    exact ha pre' c (post' ++ post) (by rw [e]; simp)

/-- Two versions of one second, the first at the second itself, and a commit of each. -/
theorem visible_iff_two : (∀ pre, pre <+: [.prepare { key := "x", ts := ⟨1, 1⟩ }, .prepare { key := "y", ts := ⟨1, 300⟩ },
      .commit ⟨1, 1⟩, .commit ⟨1, 300⟩] → Visible pre) ↔
    Everywhere Apart [.prepare { key := "x", ts := ⟨1, 1⟩ }, .prepare { key := "y", ts := ⟨1, 300⟩ },
      .commit ⟨1, 1⟩, .commit ⟨1, 300⟩] :=
  visible_iff ⟨by decide, by decide, by
    intro ts h
    simp only [List.mem_cons, reduceCtorEq, false_or, List.not_mem_nil, or_false, Call.commit.injEq] at h
    rcases h with rfl | rfl <;> decide⟩

/-- A PREPARE at 1.000300 s. -/
theorem lost : Stamped [.prepare { key := "x", ts := ⟨1, 300⟩ }] ∧
    (after [.prepare { key := "x", ts := ⟨1, 300⟩ }]).get_item_by_ver "x" ⟨1, 300⟩ = .empty ∧
    ¬ Visible [.prepare { key := "x", ts := ⟨1, 300⟩ }] := by
  have he : (after [.prepare { key := "x", ts := ⟨1, 300⟩ }]).get_item_by_ver "x" ⟨1, 300⟩ = .empty := by decide
  refine ⟨⟨by decide, by decide, fun ts h => ?_⟩, he, fun hv => ?_⟩
  · cases h with
    | tail _ h => cases h
  have := hv.by_ver { key := "x", ts := ⟨1, 300⟩ } (by simp [prepared, Call.item])
  rw [he] at this
  exact absurd (congrArg Item.ts this) (by decide)

end RampRdma.Ycsb
