/-
  RampRdma.Client.Transactions — what `add_write` and `add_read` make of operations on one key
  (`Transaction.cpp`, called by the YCSB client and by `TrxQueue::gen_test_trxs`).

  Both assign: the last call on a key replaces what the calls before it said of it.
  - `write_set_built` / `read_set_built`: each set holds the values, or the fields, of the last
    call on the key.
  - `Accumulates` is the contract of YCSB's update, field by field.
  - `accumulates_iff`: it is kept exactly when the last call of each kind on each key mentions
    every field that an earlier one mentions (`Covers`).
-/

import Mathlib
import RampRdma.Data

namespace RampRdma.Transaction

/-- The transaction that calls on a fresh one build. -/
def built (as : List Add) : Transaction := as.foldl add {}

/-- Which entry a call assigns: of `write_set` (`true`) or `read_set`, and the key. -/
def Add.entry : Add → Bool × Key
  | .write key _ => (true, key)
  | .read key _ => (false, key)

def Add.Mentions : Add → Field → Prop
  | .write _ values, f => f ∈ values
  | .read _ fields, f => f ∈ fields

/-- The values a call writes for `k`. -/
def Add.values (k : Key) : Add → Option (Map Field Value)
  | .write key values => if key = k then some values else none
  | .read _ _ => none

/-- The fields a call requests for `k`. -/
def Add.fields (k : Key) : Add → Option (OrdSet Field)
  | .read key fields => if key = k then some fields else none
  | .write _ _ => none

def Add.value (k : Key) (f : Field) (a : Add) : Option Value := (a.values k).bind fun v => v[f]?

/-- The last result that is not `none`. -/
def last {β : Type} (g : Add → Option β) (as : List Add) : Option β := as.reverse.findSome? g

structure Accumulates (as : List Add) : Prop where
  /-- The value of the last write of `k` that mentions `f`. -/
  written : ∀ k f, ((built as).write_set[k]?.bind fun v => v[f]?) = last (Add.value k f) as
  requested : ∀ k f fields, .read k fields ∈ as → f ∈ fields → ∃ s, (built as).read_set[k]? = some s ∧ f ∈ s
  others : ∀ pre a post, as = pre ++ a :: post → ∀ k, k ≠ a.entry.2 →
    ((built pre).add a).write_set[k]? = (built pre).write_set[k]? ∧ ((built pre).add a).read_set[k]? = (built pre).read_set[k]?

/-- The last call of each kind on each key mentions all the fields that the ones before it do. -/
def Covers (as : List Add) : Prop :=
  ∀ pre a post, as = pre ++ a :: post → (∀ b ∈ post, b.entry ≠ a.entry) →
    ∀ b ∈ pre, b.entry = a.entry → ∀ f, b.Mentions f → a.Mentions f

section
variable {β : Type} {g : Add → Option β} {as : List Add}

theorem last_snoc (g : Add → Option β) (as : List Add) (a : Add) : last g (as ++ [a]) = (g a).or (last g as) := by
  unfold last
  rw [List.reverse_append, List.reverse_singleton, List.singleton_append, List.findSome?_cons]
  cases g a <;> rfl

theorem last_some {x : β} : last g as = some x ↔ ∃ pre a post, as = pre ++ a :: post ∧ g a = some x ∧ ∀ b ∈ post, g b = none := by
  unfold last
  rw [List.findSome?_eq_some_iff]
  constructor
  · rintro ⟨l, a, l', h, hx, hn⟩
    refine ⟨l'.reverse, a, l.reverse, ?_, hx, fun b hb => hn b (List.mem_reverse.mp hb)⟩
    rw [← List.reverse_reverse as, h]
    simp
  · rintro ⟨pre, a, post, rfl, hx, hn⟩
    exact ⟨post.reverse, a, pre.reverse, by simp, hx, fun b hb => hn b (List.mem_reverse.mp hb)⟩

theorem last_none : last g as = none ↔ ∀ a ∈ as, g a = none := by
  unfold last
  rw [List.findSome?_eq_none_iff]
  exact forall_congr' fun a => imp_congr_left List.mem_reverse

end

/-! ## What the sets hold -/

theorem built_snoc (as : List Add) (a : Add) : built (as ++ [a]) = (built as).add a := by simp [built]

theorem add_write_set (t : Transaction) (a : Add) (k : Key) : (t.add a).write_set[k]? = (a.values k).or t.write_set[k]? := by
  cases a with
  | write key values =>
    show (t.write_set.insert key values)[k]? = _
    by_cases e : key = k
    · simp [Add.values, e]
    · simp [Std.ExtTreeMap.getElem?_insert, Add.values, e]
  | read key fields => rfl

theorem add_read_set (t : Transaction) (a : Add) (k : Key) : (t.add a).read_set[k]? = (a.fields k).or t.read_set[k]? := by
  cases a with
  | write key values => rfl
  | read key fields =>
    show (t.read_set.insert key fields)[k]? = _
    by_cases e : key = k
    · simp [Add.fields, e]
    · simp [Std.ExtTreeMap.getElem?_insert, Add.fields, e]

theorem write_set_built (as : List Add) (k : Key) : (built as).write_set[k]? = last (Add.values k) as := by
  induction as using List.reverseRecOn with
  | nil => rfl
  | append_singleton as a ih => rw [built_snoc, add_write_set, last_snoc, ih]

theorem read_set_built (as : List Add) (k : Key) : (built as).read_set[k]? = last (Add.fields k) as := by
  induction as using List.reverseRecOn with
  | nil => rfl
  | append_singleton as a ih => rw [built_snoc, add_read_set, last_snoc, ih]

theorem values_some {a : Add} {k : Key} {values : Map Field Value} : a.values k = some values ↔ a = .write k values := by
  cases a with
  | write key v =>
    simp only [Add.values, Option.ite_none_right_eq_some, Option.some.injEq, Add.write.injEq]
  | read key fields => simp [Add.values]

theorem fields_some {a : Add} {k : Key} {fields : OrdSet Field} : a.fields k = some fields ↔ a = .read k fields := by
  cases a with
  | read key v =>
    simp only [Add.fields, Option.ite_none_right_eq_some, Option.some.injEq, Add.read.injEq]
  | write key values => simp [Add.fields]

theorem values_none {a : Add} {k : Key} : a.values k = none ↔ a.entry ≠ (true, k) := by
  cases a <;> simp [Add.values, Add.entry]

theorem fields_none {a : Add} {k : Key} : a.fields k = none ↔ a.entry ≠ (false, k) := by
  cases a <;> simp [Add.fields, Add.entry]

theorem value_none {a : Add} {k : Key} {f : Field} : a.value k f = none ↔ a.entry = (true, k) → ¬ a.Mentions f := by
  cases a with
  | write key values =>
    by_cases e : key = k
    · simp [Add.value, Add.values, Add.entry, Add.Mentions, e]
    · simp [Add.value, Add.values, Add.entry, e]
  | read key fields => simp [Add.value, Add.values, Add.entry]

theorem add_other (t : Transaction) {a : Add} {k : Key} (h : k ≠ a.entry.2) :
    (t.add a).write_set[k]? = t.write_set[k]? ∧ (t.add a).read_set[k]? = t.read_set[k]? := by
  have hv : a.values k = none := values_none.mpr fun e => h (by rw [e])
  have hf : a.fields k = none := fields_none.mpr fun e => h (by rw [e])
  rw [add_write_set, add_read_set, hv, hf]
  exact ⟨rfl, rfl⟩

theorem unmentioned {v : Map Field Value} {f : Field} : v[f]? = none ↔ f ∉ v := by
  rw [Std.ExtTreeMap.mem_iff_isSome_getElem?]
  cases v[f]? <;> simp

/-! ## Fields over several calls -/

variable {as : List Add}

theorem Covers.written (h : Covers as) (k : Key) (f : Field) :
    ((built as).write_set[k]?.bind fun v => v[f]?) = last (Add.value k f) as := by
  rw [write_set_built]
  rcases hl : last (Add.values k) as with _ | v
  · symm
    rw [last_none] at hl
    exact last_none.mpr fun a ha => by rw [Add.value, hl a ha]; rfl
  · obtain ⟨pre, a, post, rfl, ha, hp⟩ := last_some.mp hl
    obtain rfl := values_some.mp ha
    have hpost : ∀ b ∈ post, b.entry ≠ (true, k) := fun b hb => values_none.mp (hp b hb)
    show v[f]? = _
    rcases hv : v[f]? with _ | x
    · symm
      have hm : ¬ (Add.write k v).Mentions f := unmentioned.mp hv
      refine last_none.mpr fun b hb => value_none.mpr fun he hbf => ?_
      rcases List.mem_append.mp hb with hb | hb
      · exact hm (h pre _ post rfl hpost b hb he f hbf)
      · rcases List.mem_cons.mp hb with rfl | hb
        · exact hm hbf
        · exact hpost b hb he
    · symm
      refine last_some.mpr ⟨pre, _, post, rfl, ?_, fun b hb => ?_⟩
      · rw [Add.value, ha]
        exact hv
      · rw [Add.value, hp b hb]
        rfl

theorem Covers.requested (h : Covers as) {k : Key} {f : Field} {fields : OrdSet Field} (hr : .read k fields ∈ as)
    (hf : f ∈ fields) : ∃ s, (built as).read_set[k]? = some s ∧ f ∈ s := by
  rw [read_set_built]
  rcases hl : last (Add.fields k) as with _ | s
  · have := last_none.mp hl _ hr
    simp [Add.fields] at this
  · obtain ⟨pre, a, post, rfl, ha, hp⟩ := last_some.mp hl
    obtain rfl := fields_some.mp ha
    have hpost : ∀ b ∈ post, b.entry ≠ (false, k) := fun b hb => fields_none.mp (hp b hb)
    refine ⟨s, rfl, ?_⟩
    rcases List.mem_append.mp hr with hr | hr
    · exact h pre _ post rfl hpost _ hr rfl f hf
    · rcases List.mem_cons.mp hr with e | hr
      · cases e
        exact hf
      · exact absurd rfl (hpost _ hr)

theorem Accumulates.covers (h : Accumulates as) : Covers as := by
  rintro pre a post rfl hpost b hb he f hf
  cases a with
  | write k v =>
    have hl : last (Add.values k) (pre ++ .write k v :: post) = some v :=
      last_some.mpr ⟨pre, _, post, rfl, by simp [Add.values], fun b hb => values_none.mpr (hpost b hb)⟩
    have hw := h.written k f
    rw [write_set_built, hl] at hw
    have hne : last (Add.value k f) (pre ++ .write k v :: post) ≠ none := fun hn =>
      value_none.mp (last_none.mp hn b (List.mem_append_left _ hb)) he hf
    rw [← hw] at hne
    show f ∈ v
    by_contra hno
    exact hne (unmentioned.mpr hno)
  | read k fields =>
    have hl : last (Add.fields k) (pre ++ .read k fields :: post) = some fields :=
      last_some.mpr ⟨pre, _, post, rfl, by simp [Add.fields], fun b hb => fields_none.mpr (hpost b hb)⟩
    cases b with
    | write key v => cases he
    | read key fs =>
      cases he
      obtain ⟨s, hs, hfs⟩ := h.requested k f fs (List.mem_append_left _ hb) hf
      rw [read_set_built, hl] at hs
      cases hs
      exact hfs

theorem Covers.accumulates (h : Covers as) : Accumulates as where
  written := h.written
  requested _ _ _ hr hf := h.requested hr hf
  others pre _ _ _ _ hk := add_other (built pre) hk

theorem accumulates_iff (as : List Add) : Accumulates as ↔ Covers as := ⟨Accumulates.covers, Covers.accumulates⟩

/-- Two updates of one record, each of a field of its own: the first is gone. -/
theorem lost_field : ¬ ∀ as, Accumulates as := by
  intro h
  have hw := (h [.write "x" ((∅ : Map Field Value).insert "f" [1]),
    .write "x" ((∅ : Map Field Value).insert "g" [2])]).written "x" "f"
  revert hw
  decide +kernel

end RampRdma.Transaction
