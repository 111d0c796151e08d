/-
  RampRdma.Client.TrxQueue — the test value of `TrxQueue::gen_test_trxs`, digit by digit.

  Turn `i` of the loop lets `snprintf` write a digit and a NUL at `val_str + i`, each time with
  the whole `value_size` as its limit.
  - `turns`: from two bytes on, the first `i` bytes are the digits drawn after `i` turns, and
    the NUL of the last turn is at index `i`.
  - `fill_overruns`: so the value is right, and the last NUL is one byte behind the buffer.
  - `never_fills`: and a value of one byte is a NUL.
-/

import Mathlib
import RampRdma.Lib.Bytes

namespace RampRdma.TrxQueue

open Bytes

/-- `snprintf(s, size, ...)`: what it writes of a text. -/
def snprintf (size : Nat) (text : List UInt8) : List UInt8 := if size = 0 then [] else text.take (size - 1) ++ [0]

/-- `"%d"`. -/
def digit (d : Fin 10) : UInt8 := 0x30 + UInt8.ofNat d.val

/-- What is at `val_str`, and the indices written to. -/
structure ValStr where
  mem : Mem
  written : List Nat := []

variable (value_size : Nat) (value_dice : Nat → Fin 10)

/-- One turn of the loop. -/
def turn (v : ValStr) (i : Nat) : ValStr :=
  let text := snprintf value_size [digit (value_dice i)]
  { mem := write v.mem i text, written := v.written ++ List.range' i text.length }

/-- `i` turns, on a `new char[value_size]` that holds `m`. -/
def turns (m : Mem) (i : Nat) : ValStr := (List.range i).foldl (turn value_size value_dice) { mem := m }

/-- The bytes of `Value(val_str, value_size)`. -/
def value (m : Mem) : List UInt8 := slice (turns value_size value_dice m value_size).mem 0 value_size

/-- Nothing is written outside, and every byte is the digit drawn for it. -/
def Fills (m : Mem) : Prop :=
  (∀ i ∈ (turns value_size value_dice m value_size).written, i < value_size) ∧
    value value_size value_dice m = (List.range value_size).map fun i => digit (value_dice i)

variable {value_size value_dice} {m : Mem}

theorem turns_succ (m : Mem) (i : Nat) :
    turns value_size value_dice m (i + 1) = turn value_size value_dice (turns value_size value_dice m i) i := by
  simp [turns, List.range_succ]

theorem snprintf_digit (h : 2 ≤ value_size) (d : UInt8) : snprintf value_size [d] = [d, 0] := by
  have ht : [d].take (value_size - 1) = [d] := List.take_of_length_le (by simp only [List.length_singleton]; omega)
  rw [snprintf, if_neg (by omega), ht]
  rfl

theorem turns_digits (h : 2 ≤ value_size) (m : Mem) (i : Nat) :
    (∀ j < i, (turns value_size value_dice m i).mem j = digit (value_dice j)) ∧
      ∀ k, k ∈ (turns value_size value_dice m i).written ↔ 0 < i ∧ k ≤ i := by
  induction i with
  | zero => simp [turns]
  | succ i ih =>
    obtain ⟨hm, hw⟩ := ih
    rw [turns_succ]
    simp only [turn, snprintf_digit h]
    constructor
    · intro j hj
      by_cases e : j = i
      · subst e
        exact write_inside _ j [digit (value_dice j), 0] (i := 0) (by simp)
      · rw [write_outside _ _ _ (by omega)]
        exact hm j (by omega)
    · intro k
      rw [List.mem_append, hw]
      simp only [List.mem_range'_1, List.length_cons, List.length_nil]
      omega

/-- One NUL too many. -/
theorem fill_overruns (h : 2 ≤ value_size) (m : Mem) :
    value value_size value_dice m = (List.range value_size).map (fun i => digit (value_dice i)) ∧
      value_size ∈ (turns value_size value_dice m value_size).written := by
  obtain ⟨hm, hw⟩ := turns_digits h m value_size
  refine ⟨?_, (hw _).mpr ⟨by omega, le_rfl⟩⟩
  unfold value slice
  refine List.map_congr_left fun i hi => ?_
  rw [Nat.zero_add]
  exact hm i (List.mem_range.mp hi)

theorem digit_ne_zero (d : Fin 10) : digit d ≠ 0 := by
  revert d
  decide

theorem never_fills (h : 1 ≤ value_size) (value_dice : Nat → Fin 10) (m : Mem) : ¬ Fills value_size value_dice m := by
  rintro ⟨hw, hv⟩
  by_cases h2 : 2 ≤ value_size
  · exact absurd (hw _ (fill_overruns h2 m).2) (lt_irrefl _)
  · obtain rfl : value_size = 1 := by omega
    -- the limit leaves room for the NUL only
    have h0 : value 1 value_dice m = [0] := rfl
    rw [h0] at hv
    exact digit_ne_zero _ (List.head_eq_of_cons_eq hv).symm

/-- The default. -/
theorem never_fills_default : ¬ Fills 1000 (fun _ => 7) (fun _ => 0) := never_fills (by decide) _ _

theorem overrun : ¬ ∀ value_size, 1 ≤ value_size → ∀ (value_dice : Nat → Fin 10) (m : Mem), Fills value_size value_dice m := by
  intro h
  have hw := (h 1000 (by decide) (fun _ => 7) (fun _ => 0)).1 1000 (fill_overruns (by decide) _).2
  exact absurd hw (lt_irrefl _)

end RampRdma.TrxQueue
