/-
  RampRdma.Lib.Runs — runs of a fallible step function over a list of inputs
  (`List.foldlM` in `Except ε`), and the two rules everything proved of them uses:
  - `run_induct` / `run_inv`: what every successful step keeps holds after every
    successful run;
  - `RelExcept.run`: step functions that simulate each other, errors included, have runs
    that do.
  Also `run_error`: a run fails exactly when some prefix of it succeeds and the next step
  does not; and `Somewhere` / `Everywhere`, conditions on the steps of a history that see
  what came before each.
-/

import Mathlib

namespace RampRdma.Runs

variable {ε σ τ α : Type}

def run (f : σ → α → Except ε σ) (s : σ) (as : List α) : Except ε σ := as.foldlM f s

@[simp] theorem run_nil (f : σ → α → Except ε σ) (s : σ) : run f s [] = .ok s := rfl

theorem run_cons (f : σ → α → Except ε σ) (s : σ) (a : α) (as : List α) :
    run f s (a :: as) = f s a >>= fun t => run f t as := rfl

theorem run_append (f : σ → α → Except ε σ) (s : σ) (as bs : List α) :
    run f s (as ++ bs) = run f s as >>= fun t => run f t bs := List.foldlM_append

theorem ok_of_isOk {x : Except ε α} (h : x.isOk = true) : ∃ a, x = .ok a := by
  cases x with
  | error e => cases h
  | ok a => exact ⟨a, rfl⟩

theorem bind_ok {x : Except ε σ} {f : σ → Except ε τ} {r : τ} :
    (x >>= f) = .ok r ↔ ∃ a, x = .ok a ∧ f a = .ok r := by
  cases x with
  | error e => simp [bind, Except.bind]
  | ok a => simp [bind, Except.bind]

theorem bind_error {x : Except ε σ} {f : σ → Except ε τ} {e : ε} :
    (x >>= f) = .error e ↔ x = .error e ∨ ∃ a, x = .ok a ∧ f a = .error e := by
  cases x with
  | error e => simp [bind, Except.bind]
  | ok a => simp [bind, Except.bind]

theorem run_snoc (f : σ → α → Except ε σ) (s : σ) (as : List α) (a : α) :
    run f s (as ++ [a]) = run f s as >>= fun t => f t a := by
  rw [run_append]
  congr 1
  funext t
  rw [run_cons]
  cases f t a <;> rfl

theorem run_snoc_ok {f : σ → α → Except ε σ} {s u : σ} {as : List α} {a : α} :
    run f s (as ++ [a]) = .ok u ↔ ∃ t, run f s as = .ok t ∧ f t a = .ok u := by
  rw [run_snoc, bind_ok]

theorem run_append_ok {f : σ → α → Except ε σ} {s u : σ} {as bs : List α} :
    run f s (as ++ bs) = .ok u ↔ ∃ t, run f s as = .ok t ∧ run f t bs = .ok u := by
  rw [run_append, bind_ok]

/-! ## Invariants -/

/-- An invariant of the inputs so far and the state they led to. -/
theorem run_induct {f : σ → α → Except ε σ} {s : σ} (P : List α → σ → Prop) (h0 : P [] s)
    (hs : ∀ as a t u, run f s as = .ok t → P as t → f t a = .ok u → P (as ++ [a]) u) :
    ∀ as t, run f s as = .ok t → P as t := by
  intro as
  induction as using List.reverseRecOn with
  | nil => intro t h; cases h; exact h0
  | append_singleton as a ih =>
    intro u h
    obtain ⟨t, ht, hu⟩ := run_snoc_ok.mp h
    exact hs as a t u ht (ih t ht) hu

theorem run_inv {f : σ → α → Except ε σ} (P : σ → Prop) (hs : ∀ s a t, P s → f s a = .ok t → P t) {s t : σ}
    (h0 : P s) {as : List α} (h : run f s as = .ok t) : P t :=
  run_induct (fun _ t => P t) h0 (fun _ a t u _ hp hu => hs t a u hp hu) as t h

/-- A run fails at its first failing step. -/
theorem run_error {f : σ → α → Except ε σ} {s : σ} {as : List α} {e : ε} :
    run f s as = .error e ↔ ∃ pre a post t, as = pre ++ a :: post ∧ run f s pre = .ok t ∧ f t a = .error e := by
  constructor
  · induction as generalizing s with
    | nil => intro h; cases h
    | cons a as ih =>
      intro h
      rw [run_cons, bind_error] at h
      rcases h with h | ⟨t, ht, h⟩
      · exact ⟨[], a, as, s, rfl, rfl, h⟩
      · obtain ⟨pre, b, post, u, rfl, hu, hb⟩ := ih h
        exact ⟨a :: pre, b, post, u, rfl, by rw [run_cons, ht]; exact hu, hb⟩
  · rintro ⟨pre, a, post, t, rfl, ht, ha⟩
    rw [run_append, ht]
    show run f t (a :: post) = .error e
    rw [run_cons, ha]
    rfl

/-! ## Steps of a history -/

/-- Some element meets `P`, which also sees what came before it. -/
def Somewhere (P : List α → α → Prop) (as : List α) : Prop := ∃ pre a post, as = pre ++ a :: post ∧ P pre a

def Everywhere (P : List α → α → Prop) (as : List α) : Prop := ∀ pre a post, as = pre ++ a :: post → P pre a

theorem split_snoc {as pre post : List α} {a b : α} :
    as ++ [a] = pre ++ b :: post ↔
      (∃ post', post = post' ++ [a] ∧ as = pre ++ b :: post') ∨ (post = [] ∧ pre = as ∧ b = a) := by
  rcases List.eq_nil_or_concat post with rfl | ⟨post', c, rfl⟩
  · constructor
    · intro h
      obtain ⟨h1, h2⟩ := List.append_inj' h rfl
      cases h2
      exact .inr ⟨rfl, h1.symm, rfl⟩
    · rintro (⟨post', h, _⟩ | ⟨_, rfl, rfl⟩)
      · simp at h
      · rfl
  · constructor
    · intro h
      rw [List.concat_eq_append, ← List.cons_append, ← List.append_assoc] at h
      obtain ⟨h1, h2⟩ := List.append_inj' h rfl
      cases h2
      exact .inl ⟨post', by simp, h1⟩
    · rintro (⟨post'', h, rfl⟩ | ⟨h, _⟩)
      · rw [h]; simp
      · simp at h

theorem somewhere_nil (P : List α → α → Prop) : ¬ Somewhere P [] := by
  rintro ⟨pre, a, post, h, _⟩
  simp at h

theorem somewhere_snoc {P : List α → α → Prop} {as : List α} {a : α} :
    Somewhere P (as ++ [a]) ↔ Somewhere P as ∨ P as a := by
  constructor
  · rintro ⟨pre, b, post, h, hp⟩
    rcases split_snoc.mp h with ⟨post', -, rfl⟩ | ⟨-, rfl, rfl⟩
    · exact .inl ⟨pre, b, post', rfl, hp⟩
    · exact .inr hp
  · rintro (⟨pre, b, post, rfl, hp⟩ | hp)
    · exact ⟨pre, b, post ++ [a], by simp, hp⟩
    · exact ⟨as, a, [], rfl, hp⟩

theorem everywhere_snoc {P : List α → α → Prop} {as : List α} {a : α} :
    Everywhere P (as ++ [a]) ↔ Everywhere P as ∧ P as a := by
  constructor
  · intro h
    exact ⟨fun pre b post e => h pre b (post ++ [a]) (by simp [e]), h as a [] rfl⟩
  · rintro ⟨h, ha⟩ pre b post e
    rcases split_snoc.mp e with ⟨post', -, e⟩ | ⟨-, rfl, rfl⟩
    · exact h pre b post' e
    · exact ha

theorem everywhere_cons {P : List α → α → Prop} {as : List α} {a : α} :
    Everywhere P (a :: as) ↔ P [] a ∧ Everywhere (fun pre b => P (a :: pre) b) as := by
  constructor
  · intro h
    exact ⟨h [] a as rfl, fun pre b post e => h (a :: pre) b post (by rw [e]; rfl)⟩
  · rintro ⟨h0, h⟩ pre b post e
    cases pre with
    | nil => cases e; exact h0
    | cons c pre => cases e; exact h pre b post rfl

/-! ## Simulation -/

/-- Both succeed with related results, or both fail in the same way. -/
inductive RelExcept (R : σ → τ → Prop) : Except ε σ → Except ε τ → Prop
  | ok {s : σ} {t : τ} : R s t → RelExcept R (.ok s) (.ok t)
  | error (e : ε) : RelExcept R (.error e) (.error e)

namespace RelExcept

variable {R : σ → τ → Prop}

theorem ok_left {s : σ} {y : Except ε τ} (h : RelExcept R (.ok s) y) : ∃ t, y = .ok t ∧ R s t := by
  cases h with
  | ok hr => exact ⟨_, rfl, hr⟩

theorem ok_right {x : Except ε σ} {t : τ} (h : RelExcept R x (.ok t)) : ∃ s, x = .ok s ∧ R s t := by
  cases h with
  | ok hr => exact ⟨_, rfl, hr⟩

theorem error_iff {x : Except ε σ} {y : Except ε τ} (h : RelExcept R x y) (e : ε) :
    x = .error e ↔ y = .error e := by
  cases h with
  | ok _ => simp
  | error e' => simp

theorem imp {R' : σ → τ → Prop} {x : Except ε σ} {y : Except ε τ} (h : RelExcept R x y)
    (hr : ∀ s t, R s t → R' s t) : RelExcept R' x y := by
  cases h with
  | ok h => exact .ok (hr _ _ h)
  | error e => exact .error e

theorem symm {x : Except ε σ} {y : Except ε τ} (h : RelExcept R x y) : RelExcept (fun t s => R s t) y x := by
  cases h with
  | ok h => exact .ok h
  | error e => exact .error e

theorem trans {υ : Type} {R' : τ → υ → Prop} {x : Except ε σ} {y : Except ε τ} {z : Except ε υ}
    (h : RelExcept R x y) (h' : RelExcept R' y z) : RelExcept (fun s u => ∃ t, R s t ∧ R' t u) x z := by
  cases h with
  | ok h =>
    cases h' with
    | ok h' => exact .ok ⟨_, h, h'⟩
  | error e =>
    cases h' with
    | error _ => exact .error e

theorem bind {σ' τ' : Type} {R' : σ' → τ' → Prop} {x : Except ε σ} {y : Except ε τ} {f : σ → Except ε σ'}
    {g : τ → Except ε τ'} (h : RelExcept R x y) (hf : ∀ s t, R s t → RelExcept R' (f s) (g t)) :
    RelExcept R' (x >>= f) (y >>= g) := by
  cases h with
  | ok hr => exact hf _ _ hr
  | error e => exact .error e

theorem run {f : σ → α → Except ε σ} {g : τ → α → Except ε τ} (hs : ∀ s t a, R s t → RelExcept R (f s a) (g t a))
    (as : List α) : ∀ s t, R s t → RelExcept R (run f s as) (run g t as) := by
  induction as with
  | nil => intro s t h; exact .ok h
  | cons a as ih =>
    intro s t h
    rw [run_cons, run_cons]
    exact (hs s t a h).bind ih

end RelExcept

end RampRdma.Runs
