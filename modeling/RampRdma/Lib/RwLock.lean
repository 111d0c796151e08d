/-
  RampRdma.Lib.RwLock — readers–writer locks that know who holds them, and waiting in a
  fixed order.

  A read lock is granted when no writer holds the lock, a write lock when nobody does, so
  that there is never a writer besides another holder (`exclusive`, a field). An owner may
  read-lock more than once, and unlocks as often.
  - `read_lock_holds` / `write_lock_holds` / `unlock_holds`: who holds the lock afterwards.
  - `read_lock_none` / `write_lock_none`: who is in the way.
  - `exists_unblocked`: if whoever waits for a key holds only smaller keys, somebody waits
    for no key that a waiting one holds.
-/

import Mathlib

namespace RampRdma

structure RwLock (O : Type) where
  writer : Option O := none
  readers : List O := []
  exclusive : writer = none ∨ readers = [] := by exact .inl rfl

namespace RwLock

variable {O : Type}

def Holds (l : RwLock O) (o : O) : Prop := l.writer = some o ∨ o ∈ l.readers

def read_lock (l : RwLock O) (o : O) : Option (RwLock O) :=
  if l.writer = none then some ⟨none, o :: l.readers, .inl rfl⟩ else none

def write_lock (l : RwLock O) (o : O) : Option (RwLock O) :=
  if l.writer = none ∧ l.readers = [] then some ⟨some o, [], .inr rfl⟩ else none

def unlock [DecidableEq O] (l : RwLock O) (o : O) : RwLock O :=
  if l.writer = some o then {} else ⟨l.writer, l.readers.erase o, l.exclusive.imp id fun h => by rw [h]; rfl⟩

variable {l l' : RwLock O} {o o' : O}

theorem holds_init : ¬ ({} : RwLock O).Holds o := by
  intro h
  rcases h with h | h
  · cases h
  · cases h

/-- A writer holds the lock alone. -/
theorem holds_writer (h : l.writer = some o) (h' : l.Holds o') : o' = o := by
  rcases h' with h' | h'
  · rw [h] at h'
    cases h'
    rfl
  · rcases l.exclusive with e | e
    · rw [h] at e
      cases e
    · rw [e] at h'
      cases h'

theorem read_lock_writer (h : l.read_lock o = some l') : l'.writer = none ∧ l'.readers = o :: l.readers := by
  unfold read_lock at h
  split at h
  · cases h
    exact ⟨rfl, rfl⟩
  · cases h

theorem write_lock_writer (h : l.write_lock o = some l') : l'.writer = some o ∧ l'.readers = [] := by
  unfold write_lock at h
  split at h
  · cases h
    exact ⟨rfl, rfl⟩
  · cases h

theorem read_lock_holds (h : l.read_lock o = some l') : l'.Holds o' ↔ o' = o ∨ l.Holds o' := by
  unfold read_lock at h
  split at h
  · rename_i hw
    cases h
    simp [Holds, hw]
  · cases h

theorem write_lock_holds (h : l.write_lock o = some l') : l'.Holds o' ↔ o' = o ∨ l.Holds o' := by
  unfold write_lock at h
  split at h
  · rename_i hw
    cases h
    simp [Holds, hw, eq_comm]
  · cases h

theorem unlock_holds [DecidableEq O] (hn : l.readers.Nodup) : (l.unlock o).Holds o' ↔ o' ≠ o ∧ l.Holds o' := by
  unfold unlock
  split
  · rename_i hw
    refine iff_of_false holds_init fun ⟨hne, h⟩ => hne (holds_writer hw h)
  · rename_i hw
    show l.writer = some o' ∨ o' ∈ l.readers.erase o ↔ _
    rw [hn.mem_erase_iff]
    constructor
    · intro h
      rcases h with h | ⟨hne, h⟩
      · refine ⟨fun e => hw (e ▸ h), .inl h⟩
      · exact ⟨hne, .inr h⟩
    · intro ⟨hne, h⟩
      exact h.imp id fun h => ⟨hne, h⟩

theorem unlock_writer [DecidableEq O] (h : (l.unlock o).writer = some o') : l.writer = some o' := by
  unfold unlock at h
  split at h
  · cases h
  · exact h

theorem unlock_readers_sublist [DecidableEq O] : (l.unlock o).readers.Sublist l.readers := by
  unfold unlock
  split
  · exact List.nil_sublist _
  · exact List.erase_sublist

theorem read_lock_none (h : l.read_lock o = none) : ∃ o', l.Holds o' := by
  unfold read_lock at h
  split at h
  · cases h
  · rename_i hw
    obtain ⟨o', hw⟩ := Option.ne_none_iff_exists'.mp hw
    exact ⟨o', .inl hw⟩

theorem write_lock_none (h : l.write_lock o = none) : ∃ o', l.Holds o' := by
  unfold write_lock at h
  split at h
  · cases h
  · rename_i hno
    by_cases hw : l.writer = none
    · obtain ⟨o', ho⟩ := List.exists_mem_of_ne_nil _ fun hr => hno ⟨hw, hr⟩
      exact ⟨o', .inr ho⟩
    · obtain ⟨o', hw⟩ := Option.ne_none_iff_exists'.mp hw
      exact ⟨o', .inl hw⟩

end RwLock

/-- Waiting in order: of finitely many that wait, `a` for `want a`, if each holds only keys
    smaller than the one it waits for, then one of them waits for a key that no waiting one
    holds. -/
theorem exists_unblocked {A K : Type} [LinearOrder K] {s : Set A} (hs : s.Finite) (hne : s.Nonempty) (want : A → K)
    (holds : A → K → Prop) (order : ∀ a ∈ s, ∀ k, holds a k → k < want a) :
    ∃ a ∈ s, ∀ b ∈ s, ¬ holds b (want a) := by
  obtain ⟨a, ha, hmax⟩ := Set.exists_max_image s want hs hne
  refine ⟨a, ha, fun b hb hh => ?_⟩
  have hlt : want a < want b := order b hb _ hh
  exact absurd (hmax b hb) (not_le.mpr hlt)

end RampRdma
