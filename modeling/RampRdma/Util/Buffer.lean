/-
  RampRdma.Util.Buffer — the bounds checks of `Buffer`, in 64-bit arithmetic.

  A check compares the difference of two pointers, which is signed, with a `size_t`: the
  difference is made unsigned, so an end that is behind the position looks far away. Pointers
  are addresses, which wrap; a position is an address less `addr`.
  - `inv`: `write_pos` and `read_pos` never leave the buffer, whatever was called.
  - `safe_iff`: so `append`, `read` and `clear` touch the buffer only, and `update` does unless
    its offset is past the end and its length neither zero nor beyond the wrapped difference.
  - `each_safe_iff`: over whole sequences of calls.
-/

import Mathlib
import RampRdma.Lib.Runs
import RampRdma.Server.Entry

namespace RampRdma.Util

open Runs

structure Buffer where
  addr : BitVec 64
  size : BitVec 64
  write_pos : BitVec 64
  read_pos : BitVec 64
  deriving DecidableEq

inductive Op where
  | append (len : BitVec 64)
  | read (len : BitVec 64)
  | update (offset len : BitVec 64)
  | clear
  deriving DecidableEq

/-- `len` bytes of the buffer's memory, read or written. -/
structure Touched where
  start : BitVec 64
  len : BitVec 64
  deriving DecidableEq

namespace Buffer

/-- `Buffer(addr, size)`. -/
def new (addr size : BitVec 64) : Buffer := ⟨addr, size, addr, addr⟩

def call (b : Buffer) : Op → Except Fault (Buffer × Touched)
  | .update offset len =>
    if b.addr + b.size - (b.addr + offset) < len then .error .exit else .ok (b, ⟨b.addr + offset, len⟩)
  | .append len =>
    if b.addr + b.size - b.write_pos < len then .error .exit
    else .ok ({ b with write_pos := b.write_pos + len }, ⟨b.write_pos, len⟩)
  | .read len =>
    if b.addr + b.size - b.read_pos < len then .error .exit
    else .ok ({ b with read_pos := b.read_pos + len }, ⟨b.read_pos, len⟩)
  | .clear => .ok ({ b with write_pos := b.addr, read_pos := b.addr }, ⟨b.addr, b.size⟩)

/-- What a call leaves, as runs go on with it. -/
def step (b : Buffer) (op : Op) : Except Fault Buffer := do
  let (b, _) ← b.call op
  return b

/-- `pos` is in `[addr, addr + size]`. -/
def Within (b : Buffer) (pos : BitVec 64) : Prop := pos - b.addr ≤ b.size

/-- Every byte touched has a position below `size`. -/
def Inside (b : Buffer) (t : Touched) : Prop := ∀ i < t.len, t.start + i - b.addr < b.size

/-- The call exits, or stays inside and leaves both positions within. -/
def Safe (b : Buffer) (op : Op) : Prop :=
  ∀ b' t, b.call op = .ok (b', t) → b.Inside t ∧ b'.Within b'.write_pos ∧ b'.Within b'.read_pos

/-- An update of at least one byte that passes the check starts no further than the end. -/
def Fine (b : Buffer) : Op → Prop
  | .update offset len => offset ≤ b.size ∨ len = 0 ∨ b.size - offset < len
  | _ => True

/-- Of all calls of the sequence that are made, in the state each is made in. -/
def EachCall (P : Buffer → Op → Prop) (addr size : BitVec 64) (ops : List Op) : Prop :=
  ∀ pre op post b, ops = pre ++ op :: post → run step (new addr size) pre = .ok b → P b op

/-! ## Differences -/

theorem room_left (addr size x : BitVec 64) : addr + size - (addr + x) = size - x := by bv_omega

/-- The check of `Buffer.update` in `Server.Entry`, on addresses that are numbers. -/
theorem room_eq (stop pos : BitVec 64) : (stop - pos).toNat = room stop.toNat pos.toNat := by
  simp only [room, BitVec.toNat_sub]
  omega

theorem offset_of (addr pos : BitVec 64) : addr + (pos - addr) = pos := by bv_omega

/-- The check of a position that is within. -/
theorem fits {size x len : BitVec 64} (hx : x ≤ size) (h : ¬ size - x < len) : x + len ≤ size ∧ ∀ i < len, x + i < size := by
  constructor
  · bv_omega
  · intro i hi
    bv_omega

variable {b b' : Buffer} {op : Op} {t : Touched}

theorem inside_of_fits {pos len : BitVec 64} (h : ∀ i < len, pos - b.addr + i < b.size) : b.Inside ⟨pos, len⟩ := by
  intro i hi
  have e : pos + i - b.addr = pos - b.addr + i := by bv_omega
  show pos + i - b.addr < b.size
  rw [e]
  exact h i hi

/-! ## Positions -/

structure Inv (b : Buffer) : Prop where
  write : b.Within b.write_pos
  read : b.Within b.read_pos

theorem inv_new (addr size : BitVec 64) : Inv (new addr size) := by
  have h : addr - addr ≤ size := by bv_omega
  exact ⟨h, h⟩

/-- A check at a position that is within, and the position moved. -/
theorem check_within {pos len : BitVec 64} (hp : b.Within pos) (h : ¬ b.addr + b.size - pos < len) :
    b.Within (pos + len) ∧ b.Inside ⟨pos, len⟩ := by
  have e : b.addr + b.size - pos = b.size - (pos - b.addr) := by
    rw [← room_left b.addr b.size (pos - b.addr), offset_of]
  rw [e] at h
  obtain ⟨h1, h2⟩ := fits hp h
  refine ⟨?_, inside_of_fits h2⟩
  have e' : pos + len - b.addr = pos - b.addr + len := by bv_omega
  show pos + len - b.addr ≤ b.size
  rw [e']
  exact h1

theorem call_inv (hi : Inv b) (h : b.call op = .ok (b', t)) : Inv b' := by
  cases op with
  | update offset len =>
    simp only [call] at h
    split at h <;> cases h
    exact hi
  | append len =>
    simp only [call] at h
    split at h <;> cases h
    rename_i hc
    exact ⟨(check_within hi.write hc).1, hi.read⟩
  | read len =>
    simp only [call] at h
    split at h <;> cases h
    rename_i hc
    exact ⟨hi.write, (check_within hi.read hc).1⟩
  | clear =>
    cases h
    exact inv_new _ _

theorem inv {addr size : BitVec 64} {ops : List Op} (h : run step (new addr size) ops = .ok b) : Inv b := by
  refine run_inv Inv (fun b op b' hi h => ?_) (inv_new addr size) h
  obtain ⟨⟨b1, t⟩, h1, h⟩ := bind_ok.mp h
  cases h
  exact call_inv hi h1

/-! ## Bytes -/

theorem update_inside {offset len : BitVec 64} (h : ¬ b.addr + b.size - (b.addr + offset) < len) :
    b.Inside ⟨b.addr + offset, len⟩ ↔ offset ≤ b.size ∨ len = 0 := by
  rw [room_left] at h
  have e : b.addr + offset - b.addr = offset := by bv_omega
  constructor
  · intro hi
    by_cases h0 : len = 0
    · exact .inr h0
    · -- the first byte
      have h1 : b.addr + offset + 0 - b.addr < b.size := hi 0 (show 0 < len by bv_omega)
      have e0 : b.addr + offset + 0 - b.addr = offset := by bv_omega
      rw [e0] at h1
      exact .inl (BitVec.le_of_lt h1)
  · rintro (hle | rfl)
    · refine inside_of_fits ?_
      rw [e]
      exact (fits hle h).2
    · intro i hi
      exact absurd hi (show ¬ i < 0 by bv_omega)

theorem Inv.safe (hi : Inv b) (h : ∀ b' t, b.call op = .ok (b', t) → b.Inside t) : b.Safe op := fun b' t hc =>
  ⟨h b' t hc, (call_inv hi hc).write, (call_inv hi hc).read⟩

theorem safe_iff (hi : Inv b) (op : Op) : b.Safe op ↔ b.Fine op := by
  cases op with
  | update offset len =>
    by_cases hc : b.addr + b.size - (b.addr + offset) < len
    · refine iff_of_true (fun b' t h => ?_) (.inr (.inr (room_left _ _ _ ▸ hc)))
      rw [call, if_pos hc] at h
      cases h
    · have hc' : ¬ b.size - offset < len := room_left b.addr _ _ ▸ hc
      have hcall : b.call (.update offset len) = .ok (b, ⟨b.addr + offset, len⟩) := if_neg hc
      constructor
      · intro h
        exact ((update_inside hc).mp (h _ _ hcall).1).imp id .inl
      · intro h b' t h'
        rw [hcall] at h'
        cases h'
        refine ⟨(update_inside hc).mpr ?_, hi.write, hi.read⟩
        rcases h with h | h | h
        · exact .inl h
        · exact .inr h
        · exact absurd h hc'
  | append len =>
    refine iff_of_true (hi.safe fun b' t h => ?_) trivial
    simp only [call] at h
    split at h <;> cases h
    rename_i hc
    exact (check_within hi.write hc).2
  | read len =>
    refine iff_of_true (hi.safe fun b' t h => ?_) trivial
    simp only [call] at h
    split at h <;> cases h
    rename_i hc
    exact (check_within hi.read hc).2
  | clear =>
    refine iff_of_true (hi.safe fun b' t h => ?_) trivial
    cases h
    refine inside_of_fits fun i hi => ?_
    have e : b.addr - b.addr + i = i := by bv_omega
    rw [e]
    exact hi

theorem each_safe_iff (addr size : BitVec 64) (ops : List Op) : EachCall Safe addr size ops ↔ EachCall Fine addr size ops := by
  constructor
  · intro h pre op post b e hr
    exact (safe_iff (inv hr) op).mp (h pre op post b e hr)
  · intro h pre op post b e hr
    exact (safe_iff (inv hr) op).mpr (h pre op post b e hr)

/-- One byte past the end of 16 passes the check. -/
theorem update_past_end : ¬ ∀ addr size ops, EachCall Safe addr size ops := by
  intro h
  have hs := h 4096 16 [.update 17 1] [] (.update 17 1) [] (new 4096 16) rfl rfl (new 4096 16) ⟨4096 + 17, 1⟩ (by decide)
  exact absurd (hs.1 0 (by decide)) (by decide)

end Buffer

end RampRdma.Util
