/-
  RampRdma.Lib.MsgpackStream — where a MessagePack object ends, found byte by byte.

  A streaming unpacker is given bytes in pieces and has to tell when an object is complete.
  `scan` counts the objects that are still to come; a head byte may announce more of them
  (an array, a map), bytes to pass over, or a length that follows.
  - `scan_front`: what it finds does not depend on the bytes behind it.
  - `Objects`: the forms that a `Format` packs are so many objects, whatever follows them.
    It is proved for each of the formats, and for those built from them.
-/

import Mathlib
import RampRdma.Lib.Msgpack

namespace RampRdma.Msgpack

open Bytes

/-- What a length counts. -/
inductive Counts where
  /-- Bytes; an extension has `more` of them. -/
  | bytes (more : Nat)
  /-- Objects, `each` for an element. -/
  | objects (each : Nat)
  deriving DecidableEq, Repr

/-- What a head byte announces. -/
inductive Head where
  | bytes (k : Nat)
  | objects (k : Nat)
  | length (width : Nat) (counts : Counts)
  | unused
  deriving DecidableEq, Repr

def head (b : UInt8) : Head :=
  if b < 0x80 then .bytes 0
  else if b < 0x90 then .objects (2 * (b.toNat - 0x80))
  else if b < 0xa0 then .objects (b.toNat - 0x90)
  else if b < 0xc0 then .bytes (b.toNat - 0xa0)
  else if 0xe0 ≤ b then .bytes 0
  else
    match b.toNat - 0xc0 with
    | 0 | 2 | 3 => .bytes 0
    | 4 | 25 => .length 1 (.bytes 0)
    | 5 | 26 => .length 2 (.bytes 0)
    | 6 | 27 => .length 4 (.bytes 0)
    | 7 => .length 1 (.bytes 1)
    | 8 => .length 2 (.bytes 1)
    | 9 => .length 4 (.bytes 1)
    | 12 | 16 => .bytes 1
    | 13 | 17 | 20 => .bytes 2
    | 21 => .bytes 3
    | 10 | 14 | 18 => .bytes 4
    | 22 => .bytes 5
    | 11 | 15 | 19 => .bytes 8
    | 23 => .bytes 9
    | 24 => .bytes 17
    | 28 => .length 2 (.objects 1)
    | 29 => .length 4 (.objects 1)
    | 30 => .length 2 (.objects 2)
    | 31 => .length 4 (.objects 2)
    | _ => .unused

/-- What the next byte is. -/
inductive Mode where
  | head
  | length (left acc : Nat) (counts : Counts)
  | body (left : Nat)
  deriving DecidableEq, Repr

/-- After a length, or a head with its bytes: the mode, and `n` with what it adds. -/
def passing (k n : Nat) : Mode × Nat := if k = 0 then (.head, n) else (.body k, n)

def counted (len n : Nat) : Counts → Mode × Nat
  | .bytes more => passing (len + more) n
  | .objects each => (.head, n + each * len)

/-- One byte, of an object behind which `n` are to come. -/
def scan_byte (n : Nat) (b : UInt8) : Mode → Option (Mode × Nat)
  | .head =>
    match head b with
    | .bytes k => some (passing k n)
    | .objects k => some (.head, n + k)
    | .length width counts => some (.length width 0 counts, n)
    | .unused => none
  | .length left acc counts =>
    if left ≤ 1 then some (counted (acc * 256 + b.toNat) n counts)
    else some (.length (left - 1) (acc * 256 + b.toNat) counts, n)
  | .body left => some (if left ≤ 1 then (.head, n) else (.body (left - 1), n))

inductive Scan where
  | whole (rest : List UInt8)
  | short
  | bad (rest : List UInt8)
  deriving DecidableEq, Repr

/-- Behind the object of which the next byte is `m`, `n` are to come. At a head, `n` counts
    the object that begins there. -/
def scan : Mode × Nat → List UInt8 → Scan
  | (.head, 0), bs => .whole bs
  | (.head, _ + 1), [] => .short
  | (.head, n + 1), b :: bs =>
    match scan_byte n b .head with
    | some s => scan s bs
    | none => .bad (b :: bs)
  | (.length _ _ _, _), [] => .short
  | (.body _, _), [] => .short
  | (.length left acc counts, n), b :: bs =>
    match scan_byte n b (.length left acc counts) with
    | some s => scan s bs
    | none => .bad (b :: bs)
  | (.body left, n), b :: bs =>
    match scan_byte n b (.body left) with
    | some s => scan s bs
    | none => .bad (b :: bs)

theorem scan_front {bs rest : List UInt8} {s : Mode × Nat} (h : scan s bs = .whole rest) :
    ∃ c, bs = c ++ rest ∧ ∀ r, scan s (c ++ r) = .whole r := by
  induction bs generalizing s with
  | nil =>
    rcases s with ⟨m | _ | _, _ | n⟩ <;> cases h
    exact ⟨[], rfl, fun r => by simp [scan]⟩
  | cons b bs ih =>
    -- one byte, and then as before
    have hone : ∀ s', scan s' bs = .whole rest → (∀ bs', scan s (b :: bs') = scan s' bs') →
        ∃ c, b :: bs = c ++ rest ∧ ∀ r, scan s (c ++ r) = .whole r := by
      intro s' h' hs
      obtain ⟨c, rfl, hc⟩ := ih h'
      exact ⟨b :: c, rfl, fun r => by rw [List.cons_append, hs, hc]⟩
    obtain ⟨m, n⟩ := s
    cases m with
    | head =>
      cases n with
      | zero =>
        rw [scan] at h
        cases h
        exact ⟨[], rfl, fun r => by simp [scan]⟩
      | succ n =>
        rw [scan] at h
        split at h
        · rename_i s' hs
          exact hone s' h fun bs' => by rw [scan, hs]
        · cases h
    | length left acc counts =>
      rw [scan] at h
      split at h
      · rename_i s' hs
        exact hone s' h fun bs' => by rw [scan, hs]
      · cases h
    | body left =>
      rw [scan] at h
      split at h
      · rename_i s' hs
        exact hone s' h fun bs' => by rw [scan, hs]
      · cases h

/-! ## Bytes and lengths -/

theorem scan_passing {xs : List UInt8} {k : Nat} (h : xs.length = k) (n : Nat) (rest : List UInt8) :
    scan (passing k n) (xs ++ rest) = scan (.head, n) rest := by
  induction xs generalizing k with
  | nil =>
    subst h
    rfl
  | cons x xs ih =>
    subst h
    rw [passing, if_neg (by simp), List.cons_append, scan, scan_byte]
    cases xs with
    | nil => rfl
    | cons y ys =>
      have := ih rfl
      rw [passing, if_neg (by simp)] at this
      simpa using this

theorem beNat_cons (b : UInt8) (bs : List UInt8) : beNat (b :: bs) = b.toNat * 256 ^ bs.length + beNat bs := by
  simp [beNat, leNat_append, leNat]
  ring

theorem scan_length {xs : List UInt8} {w : Nat} (h : xs.length = w) (hw : 0 < w) (acc n : Nat) (c : Counts) (rest : List UInt8) :
    scan (.length w acc c, n) (xs ++ rest) = scan (counted (acc * 256 ^ w + beNat xs) n c) rest := by
  induction xs generalizing w acc with
  | nil =>
    subst h
    cases hw
  | cons x xs ih =>
    subst h
    rw [List.cons_append, scan, scan_byte, beNat_cons]
    cases xs with
    | nil => simp [beNat, leNat]
    | cons y ys =>
      rw [if_neg (by simp), List.length_cons, Nat.add_sub_cancel]
      show scan (.length (y :: ys).length (acc * 256 + x.toNat) c, n) (y :: ys ++ rest) = _
      rw [ih rfl (by simp), List.length_cons, pow_succ 256 (ys.length + 1)]
      congr 2
      ring

/-! ## Formats -/

/-- A packed value is `k` objects, wherever it stands. -/
def Objects {α : Type} (k : Nat) (f : Format α) : Prop :=
  ∀ (a : α) (rest : List UInt8) (n : Nat), (f.pack a).length < 2 ^ 32 →
    scan (.head, n + k) (f.pack a ++ rest) = scan (.head, n) rest

theorem scan_head {b : UInt8} {s : Mode × Nat} {n : Nat} (h : scan_byte n b .head = some s) (bs : List UInt8) :
    scan (.head, n + 1) (b :: bs) = scan s bs := by
  rw [scan, h]

theorem scan_packInt (i : Int) (hlo : -2 ^ 63 ≤ i) (hhi : i < 2 ^ 64) (n : Nat) (rest : List UInt8) :
    scan (.head, n + 1) (packInt i ++ rest) = scan (.head, n) rest := by
  -- a head that announces a word
  have hword : ∀ f ∈ unsignedForms ++ signedForms, head f.1 = .bytes f.2 := by decide
  have hform : ∀ (t : UInt8) (w v : Nat), (t, w) ∈ unsignedForms ++ signedForms →
      scan (.head, n + 1) (t :: be w v ++ rest) = scan (.head, n) rest := by
    intro t w v hf
    have hs : scan_byte n t .head = some (passing w n) := by simp only [scan_byte, hword _ hf]
    rw [List.cons_append, scan_head hs]
    exact scan_passing (length_be w v) n rest
  unfold packInt
  split
  · have hh : ∀ b : UInt8, b < 0x80 ∨ 0xe0 ≤ b → head b = .bytes 0 := by
      intro b hb
      unfold head
      rcases hb with hb | hb
      · rw [if_pos hb]
      · simp only [UInt8.le_iff_toNat_le, UInt8.lt_iff_toNat_lt, UInt8.reduceToNat] at hb ⊢
        rw [if_neg (by omega), if_neg (by omega), if_neg (by omega), if_neg (by omega), if_pos hb]
    have hs : scan_byte n (UInt8.ofNat (i % 256).toNat) .head = some (passing 0 n) := by
      simp only [scan_byte]
      rw [hh]
      simp only [UInt8.le_iff_toNat_le, UInt8.lt_iff_toNat_lt, UInt8.reduceToNat, UInt8.toNat_ofNat']
      omega
    rw [List.singleton_append, scan_head hs]
    rfl
  · split
    · split
      · rename_i t w hf
        exact hform t w _ (List.mem_append_left _ (List.mem_of_find?_eq_some hf))
      · rename_i hf
        have := List.find?_eq_none.mp hf (0xcf, 8) (by decide)
        simp only [decide_eq_true_eq, not_lt] at this
        norm_num at this
        omega
    · split
      · rename_i t w hf
        exact hform t w _ (List.mem_append_right _ (List.mem_of_find?_eq_some hf))
      · rename_i hf
        have := List.find?_eq_none.mp hf (0xd3, 8) (by decide)
        simp only [decide_eq_true_eq] at this
        norm_num at this
        omega

theorem objects_int64 : Objects 1 int64 := fun i rest n _ =>
  scan_packInt i.toInt i.le_toInt (i.toInt_lt.trans (by norm_num)) n rest

theorem unpackInt_nat {v : Nat} (h : v < 2 ^ 64) (rest : List UInt8) : unpackInt (packInt v ++ rest) = some ((v : Int), rest) := by
  rcases Nat.lt_or_ge v 128 with hv | hv
  · exact (unpackInt_packInt (by omega) (by omega) rest).1
  · unfold packInt
    rw [if_neg (by omega), if_pos (by omega)]
    simp only [Int.toNat_natCast]
    split
    · rename_i t w hf
      exact unpackInt_unsigned (List.mem_of_find?_eq_some hf) (by simpa using List.find?_some hf) rest
    · rename_i hf
      have := List.find?_eq_none.mp hf (0xcf, 8) (by decide)
      simp only [decide_eq_true_eq, not_lt] at this
      norm_num at this
      omega

theorem packInt_pos {v : Nat} (h : v < 2 ^ 64) : 0 < (packInt v).length := by
  rcases hp : packInt v with _ | ⟨b, bs⟩
  · have := unpackInt_nat h []
    rw [hp] at this
    cases this
  · exact Nat.succ_pos _

def uint64 : Format UInt64 where
  pack i := packInt i.toNat
  unpack bs := (unpackInt bs).map fun (i, rest) => (UInt64.ofNat i.toNat, rest)
  pack_pos i := packInt_pos i.toNat_lt
  unpack_pack i rest _ := by
    rw [unpackInt_nat i.toNat_lt]
    simp

def uint32 : Format UInt32 where
  pack i := packInt i.toNat
  unpack bs := (unpackInt bs).map fun (i, rest) => (UInt32.ofNat i.toNat, rest)
  pack_pos i := packInt_pos (i.toNat_lt.trans (by norm_num))
  unpack_pack i rest _ := by
    rw [unpackInt_nat (i.toNat_lt.trans (by norm_num))]
    simp

theorem scan_packNat {v : Nat} (h : v < 2 ^ 64) (n : Nat) (rest : List UInt8) :
    scan (.head, n + 1) (packInt v ++ rest) = scan (.head, n) rest := by
  refine scan_packInt v ?_ ?_ n rest
  · have := Int.natCast_nonneg v
    linarith
  · exact_mod_cast h

theorem objects_uint64 : Objects 1 uint64 := by
  intro i rest n _
  simp only [uint64]
  exact scan_packNat i.toNat_lt n rest

theorem objects_uint32 : Objects 1 uint32 := by
  intro i rest n _
  simp only [uint32]
  exact scan_packNat (i.toNat_lt.trans (by norm_num)) n rest

/-- The head byte that has the length in it. -/
def Counts.head (len : Nat) : Counts → Head
  | .bytes more => .bytes (len + more)
  | .objects each => .objects (each * len)

/-- The head bytes of a family say what its lengths count. -/
structure Heads (F : Family) (c : Counts) : Prop where
  short : ∀ len < F.short, head (UInt8.ofNat (F.fix + len)) = c.head len
  forms : ∀ f ∈ F.forms, 0 < f.2 ∧ head f.1 = .length f.2 c

theorem heads_str : Heads strFamily (.bytes 0) := ⟨by decide, by decide⟩

theorem heads_bin : Heads binFamily (.bytes 0) := ⟨by decide, by decide⟩

theorem heads_array : Heads arrayFamily (.objects 1) := ⟨by decide, by decide⟩

theorem heads_map : Heads mapFamily (.objects 2) := ⟨by decide, by decide⟩

theorem Heads.scan_pack {F : Family} {c : Counts} (hc : Heads F c) {len : Nat} (hlen : len < 2 ^ 32) (n : Nat) (rest : List UInt8) :
    scan (.head, n + 1) (F.pack len ++ rest) = scan (counted len n c) rest := by
  by_cases hs : len < F.short
  · rw [Family.pack, if_pos hs, List.singleton_append]
    refine scan_head ?_ rest
    rw [scan_byte, hc.short len hs]
    cases c <;> rfl
  · obtain ⟨f, hf, hlt⟩ := F.whole len hlen
    rcases hfind : F.forms.find? (len < 256 ^ ·.2) with _ | ⟨t, w⟩
    · have := List.find?_eq_none.mp hfind f hf
      simp [hlt] at this
    · have hw : len < 256 ^ w := by simpa using List.find?_some hfind
      obtain ⟨h0, hh⟩ := hc.forms _ (List.mem_of_find?_eq_some hfind)
      have hb : scan_byte n t .head = some (.length w 0 c, n) := by simp only [scan_byte, hh]
      simp only [Family.pack, if_neg hs, hfind]
      rw [List.cons_append, scan_head hb, scan_length (length_be w len) h0, beNat_be hw, Nat.zero_mul, Nat.zero_add]

theorem objects_bytes {F : Family} (hF : Heads F (.bytes 0)) : Objects 1 (bytes F) := by
  intro bs rest n h
  have h : (F.pack bs.length ++ bs).length < 2 ^ 32 := h
  rw [List.length_append] at h
  show scan (.head, n + 1) (F.pack bs.length ++ bs ++ rest) = _
  rw [List.append_assoc, hF.scan_pack (by omega), counted, Nat.add_zero]
  exact scan_passing rfl n rest

section
variable {α β : Type} {j k : Nat} {f : Format α} {g : Format β}

theorem objects_pair (hf : Objects j f) (hg : Objects k g) : Objects (j + k) (pair f g) := by
  intro p rest n h
  have h : (f.pack p.1 ++ g.pack p.2).length < 2 ^ 32 := h
  rw [List.length_append] at h
  show scan (.head, n + (j + k)) (f.pack p.1 ++ g.pack p.2 ++ rest) = _
  rw [List.append_assoc, show n + (j + k) = n + k + j by omega, hf _ _ _ (by omega), hg _ _ _ (by omega)]

theorem objects_flatMap (hf : Objects k f) (l : List α) (rest : List UInt8) (n : Nat) (h : (l.flatMap f.pack).length < 2 ^ 32) :
    scan (.head, n + k * l.length) (l.flatMap f.pack ++ rest) = scan (.head, n) rest := by
  induction l with
  | nil => rfl
  | cons a l ih =>
    rw [List.flatMap_cons, List.length_append] at h
    rw [List.flatMap_cons, List.append_assoc, List.length_cons, Nat.mul_succ, ← Nat.add_assoc, hf _ _ _ (by omega), ih (by omega)]

theorem objects_many {F : Family} (hF : Heads F (.objects k)) (hf : Objects k f) : Objects 1 (many F f) := by
  intro l rest n h
  have h : (F.pack l.length ++ l.flatMap f.pack).length < 2 ^ 32 := h
  rw [List.length_append] at h
  have hl := length_le_flatMap f l
  show scan (.head, n + 1) (F.pack l.length ++ l.flatMap f.pack ++ rest) = _
  rw [List.append_assoc, hF.scan_pack (by omega)]
  exact objects_flatMap hf l rest n (by omega)

theorem objects_record {hk : k < 2 ^ 32} (hf : Objects k f) : Objects 1 (record k hk f) := by
  intro a rest n h
  have h : (arrayFamily.pack k ++ f.pack a).length < 2 ^ 32 := h
  rw [List.length_append] at h
  show scan (.head, n + 1) (arrayFamily.pack k ++ f.pack a ++ rest) = _
  rw [List.append_assoc, heads_array.scan_pack hk, counted, Nat.one_mul]
  exact hf a rest n (by omega)

theorem objects_transport {enc : β → α} {dec : α → Option β} {h : ∀ b, dec (enc b) = some b} (hf : Objects k f) :
    Objects k (transport f enc dec h) := fun b rest n hl => hf (enc b) rest n hl

end

end RampRdma.Msgpack
