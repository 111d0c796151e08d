/-
  RampRdma.Lib.Machine — machines that take one step at a time, by a partial step function,
  and their runs in which every step meets a condition.

  - `Reach.inv`: what holds at first and is kept by every step that meets the condition
    holds in every state such a run reaches.
  - `reach_any`: a script that executes is a run.
-/

import Mathlib

namespace RampRdma.Machine

variable {S A : Type}

/-- The states that runs from `init` lead to when every step meets `ok` in the state it is
    taken in. -/
inductive Reach (step : S → A → Option S) (ok : S → A → Prop) (init : S) : S → Prop
  | refl : Reach step ok init init
  | tail {s s' : S} {a : A} : Reach step ok init s → ok s a → step s a = some s' → Reach step ok init s'

variable {step : S → A → Option S} {ok : S → A → Prop} {init s : S}

theorem Reach.inv (P : S → Prop) (h0 : P init) (hs : ∀ s a s', P s → ok s a → step s a = some s' → P s')
    (h : Reach step ok init s) : P s := by
  induction h with
  | refl => exact h0
  | tail _ ha hst ih => exact hs _ _ _ ih ha hst

theorem Reach.trans {s' : S} (h : Reach step ok init s) (h' : Reach step ok s s') : Reach step ok init s' := by
  induction h' with
  | refl => exact h
  | tail _ ha hst ih => exact ih.tail ha hst

/-- A script of steps, as far as each meets the condition. -/
def exec (step : S → A → Option S) (ok : S → A → Prop) [∀ s a, Decidable (ok s a)] (s : S) : List A → Option S
  | [] => some s
  | a :: as => if ok s a then (match step s a with
    | some s => exec step ok s as
    | none => none) else none

theorem reach_exec [∀ s a, Decidable (ok s a)] {as : List A} :
    ∀ {s s' : S}, Reach step ok init s → exec step ok s as = some s' → Reach step ok init s' := by
  induction as with
  | nil => intro s s' h he; cases he; exact h
  | cons a as ih =>
    intro s s' h he
    unfold exec at he
    split at he
    · rename_i ha
      split at he
      · rename_i s1 h1
        exact ih (h.tail ha h1) he
      · cases he
    · cases he

theorem reach_any [∀ s a, Decidable (ok s a)] {as : List A} {P : S → Bool} (h : (exec step ok init as).any P = true) :
    ∃ s, Reach step ok init s ∧ P s = true := by
  generalize he : exec step ok init as = o at h
  cases o with
  | none => cases h
  | some s => exact ⟨s, reach_exec .refl he, h⟩

end RampRdma.Machine
