/-
  RampRdma.Lib.Msgpack — MessagePack formats as prefix codes.

  A `Format` packs a value and unpacks one from the front of a byte list, and carries the
  law that ties the two. The formats here are the ones `msgpack::pack` chooses for an
  `int64_t`, for strings, binaries, arrays and maps: the shortest form that holds the
  value or the length, words big-endian. Lengths are words of at most four bytes, so the
  law is about encodings shorter than 2^32.

  `pair`, `replicate` and `transport` build the format of a record or a container from
  those of its parts.
-/

import Mathlib
import RampRdma.Lib.Bytes

namespace RampRdma.Msgpack

open Bytes

structure Format (α : Type) where
  pack : α → List UInt8
  unpack : List UInt8 → Option (α × List UInt8)
  pack_pos : ∀ a, 0 < (pack a).length
  unpack_pack : ∀ a rest, (pack a).length < 2 ^ 32 → unpack (pack a ++ rest) = some (a, rest)

/-! ## Bytes and big-endian words -/

def take (n : Nat) (bs : List UInt8) : Option (List UInt8 × List UInt8) :=
  if n ≤ bs.length then some (bs.take n, bs.drop n) else none

theorem take_append {n : Nat} {xs : List UInt8} (h : xs.length = n) (rest : List UInt8) :
    take n (xs ++ rest) = some (xs, rest) := by
  subst h
  rw [take, if_pos (by simp), List.take_left', List.drop_left'] <;> rfl

def be (n v : Nat) : List UInt8 := (le n v).reverse

def beNat (bs : List UInt8) : Nat := leNat bs.reverse

@[simp] theorem length_be (n v : Nat) : (be n v).length = n := by simp [be]

theorem beNat_be {n v : Nat} (h : v < 256 ^ n) : beNat (be n v) = v := by
  rw [beNat, be, List.reverse_reverse, leNat_le, Nat.mod_eq_of_lt h]

/-- The forms of a word: a first byte and the width of what follows it. -/
abbrev Forms := List (UInt8 × Nat)

def Forms.unpack (fs : Forms) : List UInt8 → Option ((Nat × Nat) × List UInt8)
  | [] => none
  | t :: bs => do
    let f ← fs.find? (·.1 = t)
    let (x, rest) ← take f.2 bs
    return ((f.2, beNat x), rest)

theorem Forms.unpack_form {fs : Forms} (hd : (fs.map Prod.fst).Nodup) {t : UInt8} {w : Nat} (hf : (t, w) ∈ fs)
    {v : Nat} (hv : v < 256 ^ w) (rest : List UInt8) : fs.unpack (t :: (be w v ++ rest)) = some ((w, v), rest) := by
  have hfind : fs.find? (·.1 = t) = some (t, w) := by
    induction fs with
    | nil => cases hf
    | cons f fs ih =>
      rw [List.map_cons, List.nodup_cons] at hd
      rcases List.mem_cons.mp hf with rfl | hf
      · simp
      · have hne : f.1 ≠ t := fun e => hd.1 (e ▸ List.mem_map_of_mem hf)
        rw [List.find?_cons_of_neg (by simpa using hne)]
        exact ih hd.2 hf
  simp [Forms.unpack, hfind, take_append, beNat_be hv]

/-! ## Lengths -/

/-- A family of lengths: short ones inside the first byte, from `fix` on, the others as
    words. -/
structure Family where
  fix : Nat
  short : Nat
  forms : Forms
  byte : fix + short ≤ 256
  tags : (forms.map Prod.fst).Nodup
  apart : ∀ f ∈ forms, f.1.toNat < fix ∨ fix + short ≤ f.1.toNat
  whole : ∀ n < 2 ^ 32, ∃ f ∈ forms, n < 256 ^ f.2

namespace Family

variable (F : Family)

def pack (n : Nat) : List UInt8 :=
  if n < F.short then [UInt8.ofNat (F.fix + n)]
  else
    match F.forms.find? (n < 256 ^ ·.2) with
    | some (t, w) => t :: be w n
    | none => []

def unpack : List UInt8 → Option (Nat × List UInt8)
  | [] => none
  | b :: bs =>
    if F.fix ≤ b.toNat ∧ b.toNat < F.fix + F.short then some (b.toNat - F.fix, bs)
    else (F.forms.unpack (b :: bs)).map fun (v, rest) => (v.2, rest)

variable {F}

theorem unpack_pack {n : Nat} (hn : n < 2 ^ 32) (rest : List UInt8) :
    F.unpack (F.pack n ++ rest) = some (n, rest) := by
  by_cases hs : n < F.short
  · have hb : (UInt8.ofNat (F.fix + n)).toNat = F.fix + n := by
      have := F.byte
      simp only [UInt8.toNat_ofNat']
      omega
    rw [pack, if_pos hs, List.singleton_append, unpack, hb, if_pos (by omega), Nat.add_sub_cancel_left]
  · obtain ⟨f, hf, hlt⟩ := F.whole n hn
    rcases hfind : F.forms.find? (n < 256 ^ ·.2) with _ | ⟨t, w⟩
    · have := List.find?_eq_none.mp hfind f hf
      simp [hlt] at this
    · have hm := List.mem_of_find?_eq_some hfind
      have hw : n < 256 ^ w := by simpa using List.find?_some hfind
      have ha := F.apart _ hm
      simp only [pack, if_neg hs, hfind, List.cons_append, unpack]
      rw [if_neg (by simp only at ha; omega), Forms.unpack_form F.tags hm hw]
      rfl

theorem pack_pos {n : Nat} (hn : n < 2 ^ 32) : 0 < (F.pack n).length := by
  by_cases hs : n < F.short
  · rw [pack, if_pos hs]; simp
  · obtain ⟨f, hf, hlt⟩ := F.whole n hn
    rcases hfind : F.forms.find? (n < 256 ^ ·.2) with _ | ⟨t, w⟩
    · have := List.find?_eq_none.mp hfind f hf
      simp [hlt] at this
    · simp [pack, if_neg hs, hfind]

end Family

theorem whole_four {fs : Forms} {t : UInt8} (h : (t, 4) ∈ fs) (n : Nat) (hn : n < 2 ^ 32) : ∃ f ∈ fs, n < 256 ^ f.2 :=
  ⟨_, h, hn.trans_le (by norm_num)⟩

def strFamily : Family where
  fix := 0xa0
  short := 32
  forms := [(0xd9, 1), (0xda, 2), (0xdb, 4)]
  byte := by decide
  tags := by decide
  apart := by decide
  whole := whole_four (t := 0xdb) (by decide)

def binFamily : Family where
  fix := 0
  short := 0
  forms := [(0xc4, 1), (0xc5, 2), (0xc6, 4)]
  byte := by decide
  tags := by decide
  apart := by decide
  whole := whole_four (t := 0xc6) (by decide)

def arrayFamily : Family where
  fix := 0x90
  short := 16
  forms := [(0xdc, 2), (0xdd, 4)]
  byte := by decide
  tags := by decide
  apart := by decide
  whole := whole_four (t := 0xdd) (by decide)

def mapFamily : Family where
  fix := 0x80
  short := 16
  forms := [(0xde, 2), (0xdf, 4)]
  byte := by decide
  tags := by decide
  apart := by decide
  whole := whole_four (t := 0xdf) (by decide)

/-! ## Integers -/

def unsignedForms : Forms := [(0xcc, 1), (0xcd, 2), (0xce, 4), (0xcf, 8)]

def signedForms : Forms := [(0xd0, 1), (0xd1, 2), (0xd2, 4), (0xd3, 8)]

def packInt (i : Int) : List UInt8 :=
  if -32 ≤ i ∧ i < 128 then [UInt8.ofNat (i % 256).toNat]
  else if 0 ≤ i then
    match unsignedForms.find? (i.toNat < 256 ^ ·.2) with
    | some (t, w) => t :: be w i.toNat
    | none => []
  else
    match signedForms.find? (fun f => -(256 ^ f.2 / 2) ≤ i) with
    | some (t, w) => t :: be w (i % 256 ^ w).toNat
    | none => []

/-- The value of a two's-complement word of `w` bytes. -/
def signed (w v : Nat) : Int := if v < 256 ^ w / 2 then v else v - 256 ^ w

def unpackInt : List UInt8 → Option (Int × List UInt8)
  | [] => none
  | b :: bs =>
    if b < 0x80 then some (b.toNat, bs)
    else if 0xe0 ≤ b then some (b.toNat - 256, bs)
    else
      match unsignedForms.unpack (b :: bs) with
      | some (v, rest) => some (v.2, rest)
      | none => (signedForms.unpack (b :: bs)).map fun (v, rest) => (signed v.1 v.2, rest)

theorem signed_word {w : Nat} (hw : 0 < w) {i : Int} (hlo : -(256 ^ w / 2) ≤ i) (hneg : i < 0) :
    (i % 256 ^ w).toNat < 256 ^ w ∧ signed w (i % 256 ^ w).toNat = i := by
  obtain ⟨m, hm⟩ : ∃ m : Nat, 256 ^ w = 2 * m := ⟨128 * 256 ^ (w - 1), by
    obtain ⟨k, rfl⟩ : ∃ k, w = k + 1 := ⟨w - 1, by omega⟩
    rw [Nat.pow_succ, Nat.add_sub_cancel]; omega⟩
  have hpos : 0 < 256 ^ w := by positivity
  have hmi : (256 : Int) ^ w = 2 * m := by exact_mod_cast hm
  simp only [signed, hm, hmi] at hlo hpos ⊢
  have he : i % (2 * m) = i + 2 * m := by
    rw [← Int.add_emod_right, Int.emod_eq_of_lt (by omega) (by omega)]
  rw [he]
  refine ⟨by omega, ?_⟩
  rw [if_neg (by omega)]
  omega

theorem unpackInt_unsigned {t : UInt8} {w : Nat} (hf : (t, w) ∈ unsignedForms) {v : Nat} (hv : v < 256 ^ w)
    (rest : List UInt8) : unpackInt (t :: (be w v ++ rest)) = some ((v : Int), rest) := by
  have ht : ∀ f ∈ unsignedForms, ¬ f.1 < 0x80 ∧ ¬ 0xe0 ≤ f.1 := by decide
  simp only [unpackInt, if_neg (ht _ hf).1, if_neg (ht _ hf).2,
    @Forms.unpack_form unsignedForms (by decide) _ _ hf _ hv]

theorem unpackInt_signed {t : UInt8} {w : Nat} (hf : (t, w) ∈ signedForms) {v : Nat} (hv : v < 256 ^ w)
    (rest : List UInt8) : unpackInt (t :: (be w v ++ rest)) = some (signed w v, rest) := by
  have ht : ∀ f ∈ signedForms, ¬ f.1 < 0x80 ∧ ¬ 0xe0 ≤ f.1 ∧ unsignedForms.find? (·.1 = f.1) = none := by decide
  have hu : unsignedForms.unpack (t :: (be w v ++ rest)) = none := by
    simp only [Forms.unpack, (ht _ hf).2.2, bind, Option.bind]
  simp only [unpackInt, if_neg (ht _ hf).1, if_neg (ht _ hf).2.1, hu,
    @Forms.unpack_form signedForms (by decide) _ _ hf _ hv, Option.map_some]

theorem unpackInt_packInt {i : Int} (hlo : -2 ^ 63 ≤ i) (hhi : i < 2 ^ 63) (rest : List UInt8) :
    unpackInt (packInt i ++ rest) = some (i, rest) ∧ 0 < (packInt i).length := by
  unfold packInt
  split
  · rename_i h
    refine ⟨?_, by simp⟩
    have hb : (UInt8.ofNat (i % 256).toNat).toNat = (i % 256).toNat := by
      simp only [UInt8.toNat_ofNat']
      omega
    simp only [List.singleton_append, unpackInt, UInt8.lt_iff_toNat_lt, UInt8.le_iff_toNat_le, hb]
    by_cases hn : 0 ≤ i
    · rw [if_pos (by show (i % 256).toNat < 128; omega)]
      congr 2; omega
    · rw [if_neg (by show ¬ (i % 256).toNat < 128; omega), if_pos (by show 224 ≤ (i % 256).toNat; omega)]
      congr 2; omega
  · split
    · rename_i hn
      split
      · rename_i t w hfind
        have hw : i.toNat < 256 ^ w := by simpa using List.find?_some hfind
        refine ⟨?_, Nat.succ_pos _⟩
        show unpackInt (t :: (be w i.toNat ++ rest)) = _
        rw [unpackInt_unsigned (List.mem_of_find?_eq_some hfind) hw, Int.toNat_of_nonneg hn]
      · rename_i hfind
        have := List.find?_eq_none.mp hfind (0xcf, 8) (by decide)
        simp only [decide_eq_true_eq, not_lt] at this
        norm_num at this
        omega
    · rename_i hn
      split
      · rename_i t w hfind
        have hm := List.mem_of_find?_eq_some hfind
        have hpos : ∀ f ∈ signedForms, 0 < f.2 := by decide
        obtain ⟨h1, h2⟩ := signed_word (hpos _ hm) (by simpa using List.find?_some hfind) (by omega)
        refine ⟨?_, Nat.succ_pos _⟩
        show unpackInt (t :: (be w (i % 256 ^ w).toNat ++ rest)) = _
        rw [unpackInt_signed hm h1, h2]
      · rename_i hfind
        have := List.find?_eq_none.mp hfind (0xd3, 8) (by decide)
        simp only [decide_eq_true_eq] at this
        norm_num at this
        omega

def int64 : Format Int64 where
  pack i := packInt i.toInt
  unpack bs := (unpackInt bs).map fun (i, rest) => (Int64.ofInt i, rest)
  pack_pos i := (unpackInt_packInt i.le_toInt i.toInt_lt []).2
  unpack_pack i rest _ := by
    rw [(unpackInt_packInt i.le_toInt i.toInt_lt rest).1]
    simp

/-! ## Containers -/

variable {α β : Type}

/-- A length and that many bytes. -/
def bytes (F : Family) : Format (List UInt8) where
  pack bs := F.pack bs.length ++ bs
  unpack xs := do
    let (n, xs) ← F.unpack xs
    take n xs
  pack_pos bs := by
    rw [List.length_append]
    by_cases h : bs.length < 2 ^ 32
    · have := Family.pack_pos (F := F) h
      omega
    · omega
  unpack_pack bs rest h := by
    rw [List.length_append] at h
    rw [List.append_assoc, Family.unpack_pack (by omega)]
    exact take_append rfl rest

/-- `n` values in a row. -/
def times (f : Format α) : Nat → List UInt8 → Option (List α × List UInt8)
  | 0, bs => some ([], bs)
  | n + 1, bs => do
    let (a, bs) ← f.unpack bs
    let (l, bs) ← times f n bs
    return (a :: l, bs)

theorem times_flatMap (f : Format α) (l : List α) (rest : List UInt8) (h : (l.flatMap f.pack).length < 2 ^ 32) :
    times f l.length (l.flatMap f.pack ++ rest) = some (l, rest) := by
  induction l with
  | nil => rfl
  | cons a l ih =>
    rw [List.flatMap_cons, List.length_append] at h
    rw [List.flatMap_cons, List.append_assoc, List.length_cons, times, f.unpack_pack a _ (by omega)]
    simp only [bind, Option.bind, ih (by omega)]
    rfl

theorem length_le_flatMap (f : Format α) (l : List α) : l.length ≤ (l.flatMap f.pack).length := by
  induction l with
  | nil => simp
  | cons a l ih =>
    have := f.pack_pos a
    rw [List.flatMap_cons, List.length_append, List.length_cons]
    omega

/-- A count and that many values. -/
def many (F : Family) (f : Format α) : Format (List α) where
  pack l := F.pack l.length ++ l.flatMap f.pack
  unpack bs := do
    let (n, bs) ← F.unpack bs
    times f n bs
  pack_pos l := by
    rw [List.length_append]
    have hl := length_le_flatMap f l
    by_cases h : l.length < 2 ^ 32
    · have := Family.pack_pos (F := F) h
      omega
    · omega
  unpack_pack l rest h := by
    rw [List.length_append] at h
    have hl := length_le_flatMap f l
    rw [List.append_assoc, Family.unpack_pack (by omega)]
    exact times_flatMap f l rest (by omega)

def pair (f : Format α) (g : Format β) : Format (α × β) where
  pack p := f.pack p.1 ++ g.pack p.2
  unpack bs := do
    let (a, bs) ← f.unpack bs
    let (b, bs) ← g.unpack bs
    return ((a, b), bs)
  pack_pos p := by
    have := f.pack_pos p.1
    rw [List.length_append]
    omega
  unpack_pack p rest h := by
    rw [List.length_append] at h
    rw [List.append_assoc, f.unpack_pack _ _ (by omega)]
    simp only [bind, Option.bind, g.unpack_pack _ _ (by omega : (g.pack p.2).length < 2 ^ 32)]
    rfl

/-- An array of exactly `n` members, laid out by `f`. -/
def record (n : Nat) (hn : n < 2 ^ 32) (f : Format α) : Format α where
  pack a := arrayFamily.pack n ++ f.pack a
  unpack bs := do
    let (m, bs) ← arrayFamily.unpack bs
    if m = n then f.unpack bs else none
  pack_pos a := by
    have := f.pack_pos a
    rw [List.length_append]
    omega
  unpack_pack a rest h := by
    rw [List.length_append] at h
    rw [List.append_assoc, Family.unpack_pack hn]
    simp only [bind, Option.bind, if_true]
    exact f.unpack_pack a rest (by omega)

/-- The same bytes for another type. -/
def transport (f : Format α) (enc : β → α) (dec : α → Option β) (h : ∀ b, dec (enc b) = some b) : Format β where
  pack b := f.pack (enc b)
  unpack bs := do
    let (a, bs) ← f.unpack bs
    let b ← dec a
    return (b, bs)
  pack_pos b := f.pack_pos (enc b)
  unpack_pack b rest hl := by
    rw [f.unpack_pack _ _ hl]
    simp [h]

/-! ## Sizes -/

theorem Family.pack_le {F : Family} (hw : ∀ f ∈ F.forms, f.2 ≤ 4) (n : Nat) : (F.pack n).length ≤ 5 := by
  unfold Family.pack
  split
  · simp
  · split
    · rename_i t w hf
      have := hw _ (List.mem_of_find?_eq_some hf)
      rw [List.length_cons, length_be]
      omega
    · simp

theorem packInt_le (i : Int) : (packInt i).length ≤ 9 := by
  have hu : ∀ f ∈ unsignedForms, f.2 ≤ 8 := by decide
  have hs : ∀ f ∈ signedForms, f.2 ≤ 8 := by decide
  unfold packInt
  split
  · simp
  · split
    · split
      · rename_i t w hf
        have := hu _ (List.mem_of_find?_eq_some hf)
        rw [List.length_cons, length_be]
        omega
      · simp
    · split
      · rename_i t w hf
        have := hs _ (List.mem_of_find?_eq_some hf)
        rw [List.length_cons, length_be]
        omega
      · simp

theorem bytes_le {F : Family} (hw : ∀ f ∈ F.forms, f.2 ≤ 4) (bs : List UInt8) : ((bytes F).pack bs).length ≤ 5 + bs.length := by
  have := Family.pack_le hw bs.length
  show (F.pack bs.length ++ bs).length ≤ _
  rw [List.length_append]
  omega

theorem flatMap_le {f : Format α} {c : Nat} {l : List α} (h : ∀ a ∈ l, (f.pack a).length ≤ c) :
    (l.flatMap f.pack).length ≤ l.length * c := by
  induction l with
  | nil => simp
  | cons a l ih =>
    have h1 := h a List.mem_cons_self
    have h2 := ih fun b hb => h b (List.mem_cons_of_mem _ hb)
    rw [List.flatMap_cons, List.length_append, List.length_cons, Nat.succ_mul]
    omega

theorem many_le {F : Family} (hw : ∀ f ∈ F.forms, f.2 ≤ 4) {f : Format α} {c : Nat} {l : List α}
    (h : ∀ a ∈ l, (f.pack a).length ≤ c) : ((many F f).pack l).length ≤ 5 + l.length * c := by
  have h1 := Family.pack_le hw l.length
  have h2 := flatMap_le h
  show (F.pack l.length ++ l.flatMap f.pack).length ≤ _
  rw [List.length_append]
  omega

end RampRdma.Msgpack
