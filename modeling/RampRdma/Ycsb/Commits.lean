/-
  RampRdma.Ycsb.Commits — `Table::commit(ts)` as concurrent executors run it: `items.at`, the
  read of `latest_commit[key]` and the assignment to it are each a step, and the steps of
  different executors interleave (`commit_alone`: with no other executor in between it is
  `Table.commit`).

  The test `latest_commit[key] < ts` may be out of date when the assignment follows: another
  executor has moved the key on in between.
  - `Ordered`: who assigns to a key finds nobody who is about to assign an earlier timestamp to
    it.
  - `never_decreases`: in runs whose steps all meet it, no `latest_commit[key]` ever
    decreases. A step that does not meet it can be followed by one that does decrease it
    (`decreases`).
  - `went_back`: two commits of one key.
-/

import Mathlib
import RampRdma.Lib.Machine
import RampRdma.Ycsb.Table

namespace RampRdma.Ycsb.Commits

open Machine

/-- Before which step of `commit` an executor is. -/
inductive Phase where
  | idle
  /-- `rest` is what is left of `items.at(ts)`; next is the test for the first of it. -/
  | test (ts : Timestamp) (rest : List Item)
  | assign (ts : Timestamp) (item : Item) (rest : List Item)
  deriving DecidableEq

/-- The key and the timestamp of the assignment that is next. -/
def Phase.assigns : Phase → Option (Key × Timestamp)
  | .assign ts item _ => some (item.key, ts)
  | _ => none

/-- `E` are the executors. -/
structure State (E : Type) where
  table : Table
  phase : E → Phase := fun _ => .idle

inductive Act (E : Type) where
  | prepare (x : E) (item : Item)
  /-- An idle executor calls `commit(ts)` and takes its first step, `items.at(ts)`. -/
  | commit (x : E) (ts : Timestamp)
  | next (x : E)

variable {E : Type}

def init (t : Table) : State E := { table := t }

/-- `latest_commit[key] = ts`. -/
def assign (t : Table) (key : Key) (ts : Timestamp) : Table := { t with latest_commit := t.latest_commit.set key ts }

/-- No executor is about to assign an earlier timestamp to the key that this step assigns to. -/
def Ordered (s : State E) : Act E → Prop
  | .next x => ∀ a ∈ (s.phase x).assigns, ∀ y, ∀ b ∈ (s.phase y).assigns, a.1 = b.1 → a.2 ≤ b.2
  | _ => True

instance [Fintype E] (s : State E) : ∀ a, Decidable (Ordered s a)
  | .prepare _ _ => inferInstanceAs (Decidable True)
  | .commit _ _ => inferInstanceAs (Decidable True)
  | .next x =>
    inferInstanceAs (Decidable (∀ a ∈ (s.phase x).assigns, ∀ y, ∀ b ∈ (s.phase y).assigns, a.1 = b.1 → a.2 ≤ b.2))

theorem assign_latest (t : Table) (key : Key) (ts : Timestamp) (k : Key) :
    (assign t key ts).latest k = if k = key then ts else t.latest k := by
  unfold assign Table.latest
  rw [ConcurrentMap.find_set]
  split <;> rfl

section
variable [DecidableEq E]

namespace State

def goto (s : State E) (x : E) (p : Phase) : State E := { s with phase := Function.update s.phase x p }

def commit (s : State E) (x : E) (ts : Timestamp) : State E :=
  -- the exception of `at` is caught
  match s.table.items.find ts with
  | some l => s.goto x (.test ts l)
  | none => s

def next (s : State E) (x : E) : Phase → Option (State E)
  | .idle => none
  | .test _ [] => some (s.goto x .idle)
  | .test ts (item :: rest) =>
    let s := { s with table := s.table.touch item.key }
    if (s.table.latest item.key).lt ts then some (s.goto x (.assign ts item rest)) else some (s.goto x (.test ts rest))
  | .assign ts item rest => some ({ s with table := assign s.table item.key ts }.goto x (.test ts rest))

end State

def step (s : State E) : Act E → Option (State E)
  | .prepare x item => if s.phase x = .idle then some { s with table := s.table.prepare item } else none
  | .commit x ts => if s.phase x = .idle then some (s.commit x ts) else none
  | .next x => s.next x (s.phase x)

/-- Everything a step from `s` can do. -/
inductive Step (s : State E) : Act E → State E → Prop
  | prepare {x : E} {item : Item} : Step s (.prepare x item) { s with table := s.table.prepare item }
  | thrown {x : E} {ts : Timestamp} : Step s (.commit x ts) s
  /-- A step that assigns nothing, and after which its executor is about to assign only what is
      later than it found. -/
  | move {a : Act E} {x : E} {t : Table} {p : Phase} : (∀ k, t.latest k = s.table.latest k) →
      (∀ a ∈ p.assigns, s.table.latest a.1 < a.2) → Step s a (State.goto { s with table := t } x p)
  | assign {x : E} {ts : Timestamp} {item : Item} {rest : List Item} : s.phase x = .assign ts item rest →
      Step s (.next x) (State.goto { s with table := assign s.table item.key ts } x (.test ts rest))

variable {s s' : State E} {a : Act E} {x : E}

theorem step_cases (h : step s a = some s') : Step s a s' := by
  cases a with
  | prepare x item =>
    simp only [step] at h
    split at h <;> cases h
    exact .prepare
  | commit x ts =>
    simp only [step] at h
    split at h <;> cases h
    unfold State.commit
    split
    · exact .move (fun k => rfl) (by simp [Phase.assigns])
    · exact .thrown
  | next x =>
    simp only [step] at h
    cases hx : s.phase x with
    | idle =>
      rw [hx] at h
      cases h
    | test ts rest =>
      rw [hx] at h
      cases rest with
      | nil =>
        cases h
        exact .move (fun k => rfl) (by simp [Phase.assigns])
      | cons item rest =>
        simp only [State.next] at h
        split at h <;> cases h
        · rename_i hlt
          rw [Table.touch_latest, Timestamp.lt_iff] at hlt
          exact .move (s.table.touch_latest item.key) (by simpa [Phase.assigns] using hlt)
        · exact .move (s.table.touch_latest item.key) (by simp [Phase.assigns])
    | assign ts item rest =>
      rw [hx] at h
      cases h
      exact .assign hx

/-! ## Without interleaving -/

theorem loop_alone (ts : Timestamp) (l : List Item) (hx : s.phase x = .test ts l) :
    ∃ s', Reach step (fun _ a => a = .next x) s s' ∧ s'.phase x = .idle ∧
      s'.table = l.foldl (fun t item => t.commit_key item.key ts) s.table := by
  induction l generalizing s with
  | nil =>
    refine ⟨s.goto x .idle, Reach.refl.tail rfl ?_, Function.update_self _ _ _, rfl⟩
    simp only [step, hx, State.next]
  | cons item rest ih =>
    have h1 : step s (.next x) = s.next x (.test ts (item :: rest)) := by simp only [step, hx]
    have hk : s.table.commit_key item.key ts =
        if ((s.table.touch item.key).latest item.key).lt ts then assign (s.table.touch item.key) item.key ts
        else s.table.touch item.key := rfl
    rw [List.foldl_cons, hk]
    simp only [State.next] at h1
    split at h1
    · rename_i hlt
      rw [if_pos hlt]
      obtain ⟨s', hr, hp, ht⟩ := ih
        (s := State.goto { s with table := assign (s.table.touch item.key) item.key ts } x (.test ts rest))
        (Function.update_self _ _ _)
      have h2 : step (State.goto { s with table := s.table.touch item.key } x (.assign ts item rest)) (.next x) =
          some (State.goto { s with table := assign (s.table.touch item.key) item.key ts } x (.test ts rest)) := by
        simp [step, State.goto, State.next]
      refine ⟨s', ?_, hp, ht⟩
      exact Reach.trans (Reach.tail (Reach.tail .refl rfl h1) rfl h2) hr
    · rename_i hlt
      rw [if_neg hlt]
      obtain ⟨s', hr, hp, ht⟩ := ih (s := (State.goto { s with table := s.table.touch item.key } x (.test ts rest)))
        (Function.update_self _ _ _)
      exact ⟨s', Reach.trans (Reach.tail .refl rfl h1) hr, hp, ht⟩

/-- An executor that goes on alone does what `Table.commit` does. -/
theorem commit_alone (ts : Timestamp) (hx : s.phase x = .idle) :
    ∃ s', Reach step (fun _ a => a = .next x) (s.commit x ts) s' ∧ s'.phase x = .idle ∧ s'.table = s.table.commit ts := by
  unfold State.commit Table.commit
  cases s.table.items.find ts with
  | some l => exact loop_alone (s := s.goto x (.test ts l)) ts l (Function.update_self _ _ _)
  | none => exact ⟨s, .refl, hx, rfl⟩

/-! ## Runs whose assignments are in order -/

/-- What an executor is about to assign is not behind what the key has. -/
def Inv (s : State E) : Prop := ∀ x, ∀ a ∈ (s.phase x).assigns, s.table.latest a.1 ≤ a.2

/-- `x` moves on, and what the others are about to assign stays ahead. -/
theorem inv_goto {t : Table} {p : Phase} (hp : ∀ a ∈ p.assigns, t.latest a.1 ≤ a.2)
    (hi : ∀ y, ∀ a ∈ (s.phase y).assigns, t.latest a.1 ≤ a.2) : Inv (State.goto { s with table := t } x p) := by
  intro y a ha
  have ha : a ∈ (Function.update s.phase x p y).assigns := ha
  by_cases e : y = x
  · subst e
    rw [Function.update_self] at ha
    exact hp a ha
  · rw [Function.update_of_ne e] at ha
    exact hi y a ha

theorem inv_step (hi : Inv s) (ho : Ordered s a) (h : step s a = some s') : Inv s' := by
  cases step_cases h with
  | prepare => exact hi
  | thrown => exact hi
  | move ht hp =>
    refine inv_goto (fun a ha => ?_) fun y a ha => ?_
    · rw [ht]
      exact (hp a ha).le
    · rw [ht]
      exact hi y a ha
  | @assign x ts item rest hx =>
    refine inv_goto (fun a ha => by cases ha) fun y a ha => ?_
    rw [assign_latest]
    split
    · rename_i e
      exact ho (item.key, ts) (by rw [hx]; rfl) y a ha e.symm
    · exact hi y a ha

theorem step_le (hi : Inv s) (h : step s a = some s') (k : Key) : s.table.latest k ≤ s'.table.latest k := by
  cases step_cases h with
  | prepare => exact le_rfl
  | thrown => exact le_rfl
  | move ht _ => exact (ht k).ge
  | @assign x ts item rest hx =>
    show _ ≤ (Commits.assign s.table item.key ts).latest k
    rw [assign_latest]
    split
    · rename_i e
      subst e
      exact hi x (item.key, ts) (by rw [hx]; rfl)
    · exact le_rfl

/-- While no executor assigns to a key ahead of one that is about to assign an earlier timestamp
    to it, `latest_commit` of no key decreases, from any state of the run to any later one. -/
theorem never_decreases {t : Table} (h : Reach step Ordered (init t) s) (h' : Reach step Ordered s s') (k : Key) :
    s.table.latest k ≤ s'.table.latest k := by
  have hi : Inv s := h.inv Inv (fun x a ha => by cases ha) fun _ _ _ => inv_step
  have := h'.inv (fun s' => Inv s' ∧ s.table.latest k ≤ s'.table.latest k) ⟨hi, le_rfl⟩
    fun _ _ _ ⟨hi, hle⟩ ho hs => ⟨inv_step hi ho hs, hle.trans (step_le hi hs k)⟩
  exact this.2

/-- One executor commits 1.000001 s and then another 2.000002 s, both of which have tested "x"
    before. -/
theorem never_decreases_two : ∃ s s' : State Bool, Reach step Ordered (init {}) s ∧ Reach step Ordered s s' ∧
    s.table.latest "x" = ⟨1, 1⟩ ∧ s'.table.latest "x" = ⟨2, 2⟩ ∧ ∀ k, s.table.latest k ≤ s'.table.latest k := by
  obtain ⟨s, hs, hp⟩ := reach_any (show (exec step Ordered (init {})
      [.prepare false { key := "x", ts := ⟨1, 1⟩ }, .prepare true { key := "x", ts := ⟨2, 2⟩ }, .commit false ⟨1, 1⟩,
        .commit true ⟨2, 2⟩, .next false, .next true, .next false]).any (fun s : State Bool =>
          decide (s.table.latest "x" = ⟨1, 1⟩) && (exec step Ordered s [.next true]).any (fun s' : State Bool =>
            decide (s'.table.latest "x" = ⟨2, 2⟩))) = true by decide +kernel)
  simp only [Bool.and_eq_true, decide_eq_true_eq] at hp
  obtain ⟨s', hs', hp'⟩ := reach_any hp.2
  exact ⟨s, s', hs, hs', hp.1, of_decide_eq_true hp', never_decreases hs hs'⟩

theorem step_assigns {k : Key} {ts : Timestamp} (hx : (s.phase x).assigns = some (k, ts)) :
    ∃ p, step s (.next x) = some (State.goto { s with table := assign s.table k ts } x p) := by
  cases hp : s.phase x with
  | assign ts' item rest =>
    rw [hp] at hx
    cases hx
    exact ⟨.test ts rest, by simp only [step, hp, State.next]⟩
  | _ => rw [hp] at hx; cases hx

/-- A step that is not in order can be followed by one that takes the key back. -/
theorem decreases {y : E} {k : Key} {ts ts' : Timestamp} (hx : (s.phase x).assigns = some (k, ts))
    (hy : (s.phase y).assigns = some (k, ts')) (hlt : ts' < ts) :
    ∃ s1 s2, step s (.next x) = some s1 ∧ step s1 (.next y) = some s2 ∧ s2.table.latest k < s1.table.latest k := by
  have hne : y ≠ x := by
    rintro rfl
    rw [hx] at hy
    cases hy
    exact lt_irrefl _ hlt
  obtain ⟨p, h1⟩ := step_assigns hx
  have hy1 : ((State.goto { s with table := assign s.table k ts } x p).phase y).assigns = some (k, ts') := by
    show (Function.update s.phase x p y).assigns = _
    rw [Function.update_of_ne hne, hy]
  obtain ⟨q, h2⟩ := step_assigns hy1
  refine ⟨_, _, h1, h2, ?_⟩
  show (assign (assign s.table k ts) k ts').latest k < (assign s.table k ts).latest k
  rw [assign_latest, assign_latest, if_pos rfl, if_pos rfl]
  exact hlt

/-- The second executor commits 2.000002 s between the test and the assignment of the first. -/
theorem went_back : ∃ s s' : State Bool, Reach step (fun _ _ => True) (init {}) s ∧ Reach step (fun _ _ => True) s s' ∧
    s'.table.latest "x" < s.table.latest "x" := by
  obtain ⟨s, hs, hp⟩ := reach_any (show (exec step (fun _ _ => True) (init {})
      [.prepare false { key := "x", ts := ⟨1, 1⟩ }, .prepare true { key := "x", ts := ⟨2, 2⟩ }, .commit false ⟨1, 1⟩,
        .commit true ⟨2, 2⟩, .next false, .next true, .next true]).any (fun s : State Bool =>
          (exec step (fun _ _ => True) s [.next false]).any (fun s' : State Bool =>
            decide (s'.table.latest "x" < s.table.latest "x"))) = true by decide +kernel)
  obtain ⟨s', hs', hp'⟩ := reach_any hp
  exact ⟨s, s', hs, hs', of_decide_eq_true hp'⟩

end

end RampRdma.Ycsb.Commits
