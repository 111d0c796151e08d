/-
  RampRdma.Lib.Bytes — byte-addressed memory and little-endian words.

  A memory is a total map from addresses to bytes. `write` stores a list of bytes from an
  address on, `slice` loads one, `window` is a copy of a range at address 0 (what a
  one-sided read brings over). A word is `n` bytes, least significant first (`le`,
  `leNat`); `load` reads one.

  Proved: a slice of what was just written is what was written (`slice_write_self`), a
  write leaves every disjoint slice alone (`slice_write_disjoint`), writing a
  concatenation is writing its parts in turn (`write_append`), and a stored word loads
  back modulo its width (`load_write_self`).
-/

import Mathlib

namespace RampRdma.Bytes

abbrev Mem := Nat → UInt8

def write (m : Mem) (a : Nat) (bs : List UInt8) : Mem := fun p =>
  if a ≤ p ∧ p < a + bs.length then bs.getD (p - a) 0 else m p

def slice (m : Mem) (a n : Nat) : List UInt8 := (List.range n).map fun i => m (a + i)

/-- The `n` bytes from `a` on, moved to address 0; nothing past them. -/
def window (m : Mem) (a n : Nat) : Mem := fun p => if p < n then m (a + p) else 0

/-! ## Slices and writes -/

@[simp] theorem length_slice (m : Mem) (a n : Nat) : (slice m a n).length = n := by simp [slice]

theorem slice_congr {m m' : Mem} {a b n : Nat} (h : ∀ i < n, m (a + i) = m' (b + i)) :
    slice m a n = slice m' b n := by
  simp only [slice]
  exact List.map_congr_left fun i hi => h i (List.mem_range.mp hi)

theorem write_outside (m : Mem) (a : Nat) (bs : List UInt8) {p : Nat} (h : p < a ∨ a + bs.length ≤ p) :
    write m a bs p = m p := by
  simp only [write]
  rw [if_neg (by omega)]

theorem write_inside (m : Mem) (a : Nat) (bs : List UInt8) {i : Nat} (h : i < bs.length) :
    write m a bs (a + i) = bs[i] := by
  simp only [write]
  rw [if_pos (by omega), Nat.add_sub_cancel_left, List.getD_eq_getElem _ _ h]

theorem slice_write_self (m : Mem) (a : Nat) (bs : List UInt8) : slice (write m a bs) a bs.length = bs := by
  apply List.ext_getElem (by simp)
  intro i h1 h2
  simp only [slice, List.getElem_map, List.getElem_range]
  exact write_inside m a bs h2

theorem getD_slice (m : Mem) (a : Nat) {n i : Nat} (h : i < n) : (slice m a n).getD i 0 = m (a + i) := by
  rw [List.getD_eq_getElem _ _ (by simpa using h)]
  simp [slice]

/-- A write right behind a slice. -/
theorem slice_write_behind (m : Mem) (a n : Nat) (bs : List UInt8) :
    slice (write m (a + n) bs) a (n + bs.length) = slice m a n ++ bs := by
  apply List.ext_getElem (by simp)
  intro i h1 h2
  simp only [slice, List.getElem_map, List.getElem_range]
  by_cases hi : i < n
  · rw [write_outside _ _ _ (by omega), List.getElem_append_left (by simpa using hi)]
    simp
  · have hw := write_inside m (a + n) bs (i := i - n) (by simp at h2; omega)
    rw [Nat.add_assoc, Nat.add_sub_cancel' (by omega)] at hw
    rw [hw, List.getElem_append_right (by simp; omega)]
    simp

/-- What a cleared buffer holds once something is put at its front. -/
theorem slice_write_zero {bs : List UInt8} {n : Nat} (h : bs.length ≤ n) :
    slice (write (fun _ => 0) 0 bs) 0 n = bs ++ List.replicate (n - bs.length) 0 := by
  apply List.ext_getElem (by simp; omega)
  intro i h1 h2
  simp only [slice, List.getElem_map, List.getElem_range, Nat.zero_add]
  by_cases hi : i < bs.length
  · have hw := write_inside (fun _ => 0) 0 bs hi
    rw [Nat.zero_add] at hw
    rw [hw, List.getElem_append_left hi]
  · rw [write_outside _ _ _ (by omega), List.getElem_append_right (by omega), List.getElem_replicate]

theorem slice_write_disjoint (m : Mem) (a : Nat) (bs : List UInt8) {b n : Nat}
    (h : b + n ≤ a ∨ a + bs.length ≤ b) : slice (write m a bs) b n = slice m b n :=
  slice_congr fun _ hi => write_outside m a bs (by omega)

theorem write_append (m : Mem) (a : Nat) (xs ys : List UInt8) :
    write m a (xs ++ ys) = write (write m a xs) (a + xs.length) ys := by
  funext p
  simp only [write, List.length_append]
  by_cases h1 : a + xs.length ≤ p ∧ p < a + xs.length + ys.length
  · rw [if_pos (by omega), if_pos h1, List.getD_append_right _ _ _ _ (by omega)]
    congr 1; omega
  · rw [if_neg h1]
    by_cases h2 : a ≤ p ∧ p < a + xs.length
    · rw [if_pos (by omega), if_pos h2, List.getD_append _ _ _ _ (by omega)]
    · rw [if_neg (by omega), if_neg h2]

/-- Two writes that touch different bytes, in either order. -/
theorem write_comm (m : Mem) {a b : Nat} {xs ys : List UInt8} (h : a + xs.length ≤ b) :
    write (write m a xs) b ys = write (write m b ys) a xs := by
  funext p
  by_cases hp : a ≤ p ∧ p < a + xs.length
  · simp only [write]
    rw [if_neg (by omega), if_pos hp, if_pos hp]
  · simp only [write]
    rw [if_neg hp, if_neg hp]

/-- A part of what was just written. -/
theorem slice_write_part (m : Mem) (a : Nat) (pre mid post : List UInt8) :
    slice (write m a (pre ++ (mid ++ post))) (a + pre.length) mid.length = mid := by
  rw [write_append, write_append, slice_write_disjoint _ _ _ (.inl le_rfl)]
  exact slice_write_self _ _ _

theorem slice_window (m : Mem) (a : Nat) {n b k : Nat} (h : b + k ≤ n) :
    slice (window m a n) b k = slice m (a + b) k := by
  apply slice_congr
  intro i hi
  simp only [window]
  rw [if_pos (by omega), Nat.add_assoc]

/-- The first `n` bytes of `m` are those of `bs`. -/
def Begins (m : Mem) (bs : List UInt8) (n : Nat) : Prop := ∀ i < n, m i = bs.getD i 0

theorem Begins.mono {m : Mem} {bs : List UInt8} {n n' : Nat} (h : Begins m bs n) (hn : n' ≤ n) : Begins m bs n' :=
  fun i hi => h i (by omega)

/-- A part of what a memory begins with, in its place. -/
theorem Begins.slice {m : Mem} {bs pre mid post : List UInt8} {n a : Nat} (h : Begins m bs n)
    (hb : bs = pre ++ (mid ++ post)) (ha : pre.length = a) (hn : a + mid.length ≤ n) : slice m a mid.length = mid := by
  apply List.ext_getElem (by simp)
  intro i h1 h2
  subst ha hb
  simp only [Bytes.slice, List.getElem_map, List.getElem_range]
  rw [h _ (by omega), List.getD_append_right _ _ _ _ (by omega), Nat.add_sub_cancel_left, List.getD_append _ _ _ _ h2,
    List.getD_eq_getElem _ _ h2]

/-! ## Words -/

/-- The `n` low bytes of `v`, least significant first. -/
def le : Nat → Nat → List UInt8
  | 0, _ => []
  | n + 1, v => UInt8.ofNat v :: le n (v / 256)

def leNat : List UInt8 → Nat
  | [] => 0
  | b :: bs => b.toNat + 256 * leNat bs

def load (n : Nat) (m : Mem) (a : Nat) : Nat := leNat (slice m a n)

@[simp] theorem length_le (n v : Nat) : (le n v).length = n := by
  induction n generalizing v with
  | zero => rfl
  | succ n ih => simp [le, ih]

theorem leNat_le (n v : Nat) : leNat (le n v) = v % 256 ^ n := by
  induction n generalizing v with
  | zero => simp [le, leNat, Nat.mod_one]
  | succ n ih =>
    have hb : (UInt8.ofNat v).toNat = v % 256 := by simp
    rw [le, leNat, ih, hb, Nat.pow_succ, Nat.mul_comm (256 ^ n) 256, Nat.mod_mul]

theorem load_congr {n : Nat} {m m' : Mem} {a b : Nat} (h : slice m a n = slice m' b n) :
    load n m a = load n m' b := by simp only [load, h]

theorem load_write_self (m : Mem) (a n v : Nat) : load n (write m a (le n v)) a = v % 256 ^ n := by
  have h := slice_write_self m a (le n v)
  rw [length_le] at h
  rw [load, h, leNat_le]

theorem load_write_disjoint (m : Mem) (a : Nat) (bs : List UInt8) {n b : Nat} (h : b + n ≤ a ∨ a + bs.length ≤ b) :
    load n (write m a bs) b = load n m b :=
  load_congr (slice_write_disjoint m a bs h)

theorem Begins.load {m : Mem} {bs pre mid post : List UInt8} {n a k : Nat} (h : Begins m bs n)
    (hb : bs = pre ++ (mid ++ post)) (ha : pre.length = a) (hk : mid.length = k) (hn : a + k ≤ n) : load k m a = leNat mid := by
  subst hk
  rw [Bytes.load, h.slice hb ha hn]

theorem leNat_replicate_zero (n : Nat) : leNat (List.replicate n 0) = 0 := by
  induction n with
  | zero => rfl
  | succ n ih => rw [List.replicate_succ, leNat, ih]; rfl

theorem load_zero (n a : Nat) {m : Mem} (h : ∀ i < n, m (a + i) = 0) : load n m a = 0 := by
  have hs : slice m a n = List.replicate n 0 := by
    apply List.ext_getElem (by simp)
    intro i h1 h2
    simpa [slice] using h i (by simpa using h1)
  rw [load, hs, leNat_replicate_zero]

theorem leNat_lt (bs : List UInt8) : leNat bs < 256 ^ bs.length := by
  induction bs with
  | nil => simp [leNat]
  | cons b bs ih =>
    have hb := b.toNat_lt
    rw [leNat, List.length_cons, Nat.pow_succ]
    omega

theorem leNat_append (bs cs : List UInt8) : leNat (bs ++ cs) = leNat bs + 256 ^ bs.length * leNat cs := by
  induction bs with
  | nil => simp [leNat]
  | cons b bs ih => rw [List.cons_append, leNat, ih, leNat, List.length_cons, Nat.pow_succ]; ring

/-- The first byte of a word that is zero. -/
theorem first_of_load_zero {m : Mem} {a n : Nat} (h : load (n + 1) m a = 0) : m a = 0 := by
  have hs : slice m a (n + 1) = m a :: slice m (a + 1) n := by
    simp only [slice, List.range_succ_eq_map, List.map_cons, List.map_map, Nat.add_zero]
    congr 1
    apply List.map_congr_left
    intro i _
    simp [Nat.add_comm, Nat.add_left_comm]
  rw [load, hs, leNat] at h
  exact UInt8.toNat_inj.mp (by simp; omega)

/-- A word whose last byte is zero is small. -/
theorem load_lt_of_last {m : Mem} {a n : Nat} (h : m (a + n) = 0) : load (n + 1) m a < 256 ^ n := by
  have hs : slice m a (n + 1) = slice m a n ++ [0] := by
    simp only [slice, List.range_succ, List.map_append, List.map_cons, List.map_nil, h]
  have hlt := leNat_lt (slice m a n)
  rw [length_slice] at hlt
  rw [load, hs, leNat_append]
  simpa [leNat] using hlt

end RampRdma.Bytes
