/-
  RampRdma.Lib.Newest — last writer wins: the element of a list with the largest stamp,
  a default where the list has none that beats it.

  Proved: `newest_snoc` (how a register that keeps the newer of two computes it one write
  at a time), `newest_append_of_le` (writes that are not newer leave it), `newest_eq` (an
  element that no other beats is the newest) and `newest_perm` (the order does not matter).
-/

import Mathlib

namespace RampRdma.Newest

variable {α β : Type}

/-- Stamps tell the elements of `l` apart. -/
def Distinct (stamp : α → β) (l : List α) : Prop := ∀ x ∈ l, ∀ y ∈ l, stamp x = stamp y → x = y

variable [LinearOrder β] (stamp : α → β)

def newer (m x : α) : α := if stamp m < stamp x then x else m

def newest (d : α) (l : List α) : α := l.foldl (newer stamp) d

@[simp] theorem newest_nil (d : α) : newest stamp d [] = d := rfl

theorem newest_snoc (d : α) (l : List α) (x : α) :
    newest stamp d (l ++ [x]) = if stamp (newest stamp d l) < stamp x then x else newest stamp d l := by
  simp only [newest, List.foldl_append, List.foldl_cons, List.foldl_nil]
  rfl

theorem newest_mem (d : α) (l : List α) : newest stamp d l = d ∨ newest stamp d l ∈ l := by
  induction l using List.reverseRecOn with
  | nil => exact .inl rfl
  | append_singleton l x ih =>
    rw [newest_snoc]
    split
    · exact .inr (List.mem_append_right _ List.mem_cons_self)
    · exact ih.imp id (List.mem_append_left _)

theorem le_newest {d : α} {l : List α} {x : α} (hx : x ∈ l) : stamp x ≤ stamp (newest stamp d l) := by
  induction l using List.reverseRecOn with
  | nil => cases hx
  | append_singleton l y ih =>
    rw [newest_snoc]
    rcases List.mem_append.mp hx with hx | hx
    · split
      · rename_i h; exact (ih hx).trans h.le
      · exact ih hx
    · cases List.mem_singleton.mp hx
      split
      · exact le_rfl
      · rename_i h; exact not_lt.mp h

variable {stamp}

/-- Writes that do not beat the newest one leave it. -/
theorem newest_append_of_le {d : α} {l l' : List α} (h : ∀ x ∈ l', stamp x ≤ stamp (newest stamp d l)) :
    newest stamp d (l ++ l') = newest stamp d l := by
  induction l' using List.reverseRecOn with
  | nil => rw [List.append_nil]
  | append_singleton l' x ih =>
    have ih := ih fun y hy => h y (List.mem_append_left _ hy)
    rw [← List.append_assoc, newest_snoc, ih]
    exact if_neg (not_lt.mpr (h x (List.mem_append_right _ List.mem_cons_self)))

theorem newest_eq {d : α} {l : List α} (hd : Distinct stamp l) {x : α} (hx : x ∈ l) (h0 : stamp d < stamp x)
    (hle : ∀ y ∈ l, stamp y ≤ stamp x) : newest stamp d l = x := by
  rcases newest_mem stamp d l with h | h
  · exact absurd (le_newest stamp (d := d) hx) (by rw [h]; exact not_le.mpr h0)
  · exact hd _ h x hx (le_antisymm (hle _ h) (le_newest stamp hx))

theorem newest_perm {d : α} {l l' : List α} (hd : Distinct stamp l) (h0 : ∀ x ∈ l, stamp d < stamp x) (hp : l'.Perm l) :
    newest stamp d l' = newest stamp d l := by
  have hd' : Distinct stamp l' := fun x hx y hy => hd x (hp.mem_iff.mp hx) y (hp.mem_iff.mp hy)
  rcases newest_mem stamp d l with h | h
  · have hl : l = [] := List.eq_nil_iff_forall_not_mem.mpr fun x hx => by
      have hle := le_newest stamp (d := d) hx
      rw [h] at hle
      exact absurd (h0 x hx) (not_lt.mpr hle)
    rw [hl] at hp
    rw [hl, hp.eq_nil]
  · exact newest_eq hd' (hp.mem_iff.mpr h) (h0 _ h) fun y hy => le_newest stamp (hp.mem_iff.mp hy)

end RampRdma.Newest
