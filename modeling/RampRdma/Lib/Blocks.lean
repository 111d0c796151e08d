/-
  RampRdma.Lib.Blocks — byte blocks of one size at given addresses of a memory, one for each
  address, in order.

  - `Blocks.frame`: they stay while no byte of theirs changes; `Blocks.write`: so across a
    write that misses every one of them.
  - `Blocks.snoc` / `Blocks.cons`: a queue of them grows at one end and shrinks at the other.
-/

import Mathlib
import RampRdma.Lib.Bytes

namespace RampRdma.Bytes

/-- The memory holds the blocks `bs`, `w` bytes each, at the addresses `as`. -/
def Blocks (m : Mem) (w : Nat) (as : List Nat) (bs : List (List UInt8)) : Prop := List.Forall₂ (fun a b => slice m a w = b) as bs

variable {m m' : Mem} {w : Nat} {as : List Nat} {bs : List (List UInt8)}

theorem Blocks.nil : Blocks m w [] [] := List.Forall₂.nil

theorem Blocks.length (h : Blocks m w as bs) : as.length = bs.length := List.Forall₂.length_eq h

theorem blocks_cons {a : Nat} {b : List UInt8} : Blocks m w (a :: as) (b :: bs) ↔ slice m a w = b ∧ Blocks m w as bs :=
  List.forall₂_cons

theorem Blocks.frame (h : Blocks m w as bs) (hm : ∀ a ∈ as, ∀ i < w, m' (a + i) = m (a + i)) : Blocks m' w as bs := by
  induction h with
  | nil => exact .nil
  | @cons a b as bs hb _ ih =>
    refine .cons ?_ (ih fun a' ha => hm a' (List.mem_cons_of_mem _ ha))
    rw [← hb]
    exact slice_congr fun i hi => hm a List.mem_cons_self i hi

theorem Blocks.write (h : Blocks m w as bs) {a : Nat} {bytes : List UInt8}
    (hd : ∀ a' ∈ as, a' + w ≤ a ∨ a + bytes.length ≤ a') : Blocks (write m a bytes) w as bs := by
  refine h.frame fun a' ha i hi => write_outside m a bytes ?_
  have := hd a' ha
  omega

theorem Blocks.snoc (h : Blocks m w as bs) {a : Nat} {b : List UInt8} (hb : slice m a w = b) :
    Blocks m w (as ++ [a]) (bs ++ [b]) := List.rel_append h (.cons hb .nil)

/-- Blocks of a size apart. -/
theorem slot_apart {w i j : Nat} (h : i ≠ j) : i * w + w ≤ j * w ∨ j * w + w ≤ i * w := by
  rcases Nat.lt_or_gt_of_ne h with h | h
  · exact .inl (by rw [← Nat.succ_mul]; exact Nat.mul_le_mul_right w h)
  · exact .inr (by rw [← Nat.succ_mul]; exact Nat.mul_le_mul_right w h)

end RampRdma.Bytes
