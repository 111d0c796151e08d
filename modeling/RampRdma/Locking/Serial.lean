/-
  RampRdma.Locking.Serial — in which sense the TWO_PHASE_LOCKING mode is serializable.

  The transactions in the order of their last answers explain every read, if a key's value
  is taken to be the version with the largest timestamp (`serializable`). They need not if
  it is taken to be the one of the last `put_all`: a `put_all` takes its timestamp before it
  has any lock, and `Table::commit(key, ts)` passes over a version that is older than the
  latest one. No other order need explain the reads either (`crossing`): of two `put_all`s
  that write `x`, the one that locks it last has the smaller timestamp and is never read,
  but it is, at another key.
-/

import Mathlib
import RampRdma.Locking.Snapshot

namespace RampRdma.Locking

open Newest

variable {cp : ConnectionPool}

/-- Every `get_all` of an order, latest first, has read what `read` says of the `put_all`s
    before it. -/
def Explains (read : List PutAll → Key → Item) : List (Trx × Ret) → Prop
  | [] => True
  | (.put _, _) :: pre => Explains read pre
  | (.get g, ret) :: pre => (∀ k ∈ g.keys, ret.at k = read (putsOf pre) k) ∧ Explains read pre

instance (read : List PutAll → Key → Item) : ∀ l, Decidable (Explains read l)
  | [] => inferInstanceAs (Decidable True)
  | (.put _, _) :: pre => instDecidableExplains read pre
  | (.get g, ret) :: pre =>
    have := instDecidableExplains read pre
    inferInstanceAs (Decidable ((∀ k ∈ g.keys, ret.at k = read (putsOf pre) k) ∧ Explains read pre))

/-- What the last `put_all` that writes `k` writes there; `Item()` if there is none. -/
def last_write (l : List PutAll) (k : Key) : Item := (writes l k).head?.getD .empty

theorem explains_iff {read : List PutAll → Key → Item} {l : List (Trx × Ret)} :
    Explains read l ↔ ∀ post g ret pre, l = post ++ (.get g, ret) :: pre → ∀ k ∈ g.keys, ret.at k = read (putsOf pre) k := by
  induction l with
  | nil => simp [Explains]
  | cons x l ih =>
    obtain ⟨t, ret⟩ := x
    constructor
    · intro h post g ret' pre e k hk
      cases post with
      | nil =>
        cases e
        exact h.1 k hk
      | cons y post =>
        have he := (List.cons.inj e).2
        cases t with
        | put p => exact ih.mp h post g ret' pre he k hk
        | get g' => exact ih.mp h.2 post g ret' pre he k hk
    · intro h
      have hl : Explains read l := ih.mpr fun post g ret' pre e => h (_ :: post) g ret' pre (by rw [e]; rfl)
      cases t with
      | put p => exact hl
      | get g => exact ⟨h [] g ret l rfl, hl⟩

/-- Where the writes of a key come in the order of their timestamps, the newest is the last. -/
theorem snapshot_last {l : List PutAll} {k : Key} (h0 : ∀ i ∈ writes l k, Timestamp.empty < i.ts)
    (hs : (writes l k).Pairwise fun i j => j.ts < i.ts) : snapshot l k = last_write l k := by
  unfold snapshot last_write
  cases hw : writes l k with
  | nil => rfl
  | cons i w =>
    rw [hw] at h0 hs
    have hle : ∀ j ∈ w, j.ts ≤ i.ts := fun j hj => ((List.pairwise_cons.mp hs).1 j hj).le
    have hi : newer (·.ts) Item.empty i = i := if_pos (h0 i List.mem_cons_self)
    show newest (·.ts) (newer (·.ts) Item.empty i) w = i
    rw [hi]
    exact newest_append_of_le (l := []) hle

/-- One total order of the transactions past their last answer, all that have returned among
    them, explains what every `get_all` has read: of each key the version with the largest
    timestamp before it. Where the `put_all`s of each key come in the order of their
    timestamps, that is the last one before it. -/
theorem serializable {s : State cp} (h : Reachable s) (hc : Clocks PutAll.ts s.puts) :
    ∃ order : List (Trx × Ret), order.Perm s.finished ∧ s.completed.Subperm order ∧ Explains snapshot order ∧
      ((∀ k, (writes (putsOf order) k).Pairwise fun i j => j.ts < i.ts) → Explains last_write order) := by
  have hx : Explains snapshot s.finished := explains_iff.mpr (reads h hc).finished
  refine ⟨s.finished, .refl _, completed_subperm h, hx, fun hs => explains_iff.mpr fun post g ret pre e k hk => ?_⟩
  rw [explains_iff.mp hx post g ret pre e k hk]
  have hsub : writes (putsOf pre) k <:+ writes (putsOf s.finished) k := by
    rw [e]
    refine ⟨writes (putsOf (post ++ [(.get g, ret)])) k, ?_⟩
    simp [putsOf, writes]
  refine snapshot_last (fun i hi => ?_) ((hs k).sublist hsub.sublist)
  obtain ⟨-, p, hp, hip⟩ := mem_writes.mp (hsub.subset hi)
  rw [(mem_items.mp hip).2.1]
  exact hc.positive p ((data h).started p (.inl hp))

/-- The write of client 1 has the later timestamp and the earlier lock of `"x"`: it is read
    without the other one's `"y"`, and afterwards with it. -/
def crossing_run : List (Act two) :=
  List.flatten [[.put_all 0 (.add (.add {} (.write "x" ∅)) (.write "y" ∅)) ⟨1, 0⟩],
    [.put_all 1 (.add {} (.write "x" ∅)) ⟨2, 0⟩], asking 1 (two.get "x") 3, [.release 1], unlocking 1 (two.get "x"),
    [.return_all 1],
    [.get_all 2 (.add (.add {} (.read "x" ∅)) (.read "y" ∅))], both 2 2,
    both 0 3,
    [.get_all 2 (.add (.add {} (.read "x" ∅)) (.read "y" ∅))], both 2 2]

theorem serializable_crossing : ∃ s : State two, Reachable s ∧ Clocks PutAll.ts s.puts ∧ s.completed.length = 4 ∧
    ∃ order : List (Trx × Ret), order.Perm s.finished ∧ s.completed.Subperm order ∧ Explains snapshot order ∧
      ((∀ k, (writes (putsOf order) k).Pairwise fun i j => j.ts < i.ts) → Explains last_write order) := by
  have hrun : (exec {} crossing_run).any (fun s =>
      decide (Clocks PutAll.ts s.puts) && decide (s.completed.length = 4)) = true := by decide +kernel
  obtain ⟨s, hr, hs⟩ := exec_any hrun
  obtain ⟨hc, hl⟩ := Bool.and_eq_true_iff.mp hs
  have hc := of_decide_eq_true hc
  exact ⟨s, hr, hc, of_decide_eq_true hl, serializable hr hc⟩

/-- No order of the transactions that have returned gives each `get_all` the last writes
    before it. -/
theorem crossing : ∃ s : State two, Reachable s ∧ Clocks PutAll.ts s.puts ∧
    ¬ ∃ order : List (Trx × Ret), order.Perm s.completed ∧ Explains last_write order := by
  have hrun : (exec {} crossing_run).any (fun s => decide (Clocks PutAll.ts s.puts) &&
      s.completed.permutations'.all fun order => !decide (Explains last_write order)) = true := by decide +kernel
  obtain ⟨s, hr, hs⟩ := exec_any hrun
  obtain ⟨hc, hs⟩ := Bool.and_eq_true_iff.mp hs
  refine ⟨s, hr, of_decide_eq_true hc, fun ⟨order, hp, he⟩ => ?_⟩
  have hno := List.all_eq_true.mp hs order (List.mem_permutations'.mpr hp)
  simp [he] at hno

end RampRdma.Locking
