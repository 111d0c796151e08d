/-
  RampRdma.Net.Communicator — the bodies a `Communicator` decodes, one after the other, with
  its one `msgpack::unpacker`.

  MessagePack is not part of the repository: `Unpacker` is what is assumed of its streaming
  unpacker, which decodes the concatenation of the bytes it is given. `unpack_args` catches
  what `next` and `convert` throw and goes on to the next argument, and the bytes that a body
  leaves are in front of the next one.
  - `unpack_args_encoded`: with nothing left over, a well-formed body gives its arguments.
  - `received_whole`: bodies of as many whole objects as their receiver unpacks leave nothing,
    whatever the types.
  - `decodes_iff`: the next well-formed body is decoded as encoded, for all of them, exactly
    when nothing is left over.
-/

import Mathlib

namespace RampRdma.Communicator

/-- What `next` finds in the bytes that were given and not yet consumed: an object and what
    is behind it, too few bytes (`false`), or no MessagePack (a `parse_error`). -/
inductive Next (Obj : Type) where
  | object (obj : Obj) (rest : List UInt8)
  | incomplete
  | parse_error (rest : List UInt8)
  deriving DecidableEq, Repr

variable {Obj Ty : Type} {Val : Ty → Type}

/-- `Ty` are the types of the arguments, `Val` their values. -/
structure Unpacker (Obj Ty : Type) (Val : Ty → Type) where
  /-- The object of an `unpacked` that `next` did not fill. -/
  nil : Obj
  next : List UInt8 → Next Obj
  /-- What the variable holds after `obj.convert`, also when that throws a `type_error`. -/
  convert : (t : Ty) → Obj → Val t → Val t
  /-- An object is found wherever its bytes are in front. -/
  front : ∀ {bs obj rest}, next bs = .object obj rest → ∃ c, bs = c ++ rest ∧ ∀ r, next (c ++ r) = .object obj r

/-- An argument of `recv_body`: a variable of type `t` and what it holds. -/
abbrev Arg (Val : Ty → Type) := Σ t, Val t

variable (U : Unpacker Obj Ty Val)

/-- The variables after `unpack_args`, and what is left in the unpacker. -/
def unpack_args (unpk : List UInt8) : List (Arg Val) → List (Arg Val) × List UInt8
  | [] => ([], unpk)
  | ⟨t, first⟩ :: rest =>
    let (first, unpk) := match U.next unpk with
      | .object obj unpk => (U.convert t obj first, unpk)
      | .incomplete => (U.convert t U.nil first, unpk)
      | .parse_error unpk => (first, unpk)
    let (rest, unpk) := unpack_args unpk rest
    (⟨t, first⟩ :: rest, unpk)

/-- `memcpy(unpk.buffer(), get_body(body_size), body_size)`, and `unpack_args`. -/
def recv_body (unpk body : List UInt8) (args : List (Arg Val)) : List (Arg Val) × List UInt8 :=
  unpack_args U (unpk ++ body) args

/-- What is left in the unpacker of a new `Communicator` after the bodies, each received into
    its arguments. -/
def received (bodies : List (List UInt8 × List (Arg Val))) : List UInt8 :=
  bodies.foldl (fun unpk b => (recv_body U unpk b.1 b.2).2) []

/-! ## Well-formed bodies -/

/-- `c` is a form of `obj`. -/
def Code (c : List UInt8) (obj : Obj) : Prop := ∀ rest, U.next (c ++ rest) = .object obj rest

/-- The body is `n` objects. -/
inductive Objects : Nat → List UInt8 → Prop
  | nil : Objects 0 []
  | cons {n : Nat} {c body : List UInt8} {obj : Obj} : Code U c obj → Objects n body → Objects (n + 1) (c ++ body)

/-- The body is the arguments, in order. -/
inductive Encoded : List UInt8 → List (Arg Val) → Prop
  | nil : Encoded [] []
  | cons {c body : List UInt8} {obj : Obj} {t : Ty} {v : Val t} {args : List (Arg Val)} :
      Code U c obj → (∀ first, U.convert t obj first = v) → Encoded body args → Encoded (c ++ body) (⟨t, v⟩ :: args)

/-- With `unpk` left over, every body that encodes arguments gives them to variables of their
    types, whatever these held. -/
def Decodes (unpk : List UInt8) : Prop :=
  ∀ (body : List UInt8) (vals args : List (Arg Val)), Encoded U body vals → args.map Sigma.fst = vals.map Sigma.fst →
    (recv_body U unpk body args).1 = vals

variable {U}

theorem unpack_args_object {unpk rest : List UInt8} {obj : Obj} (h : U.next unpk = .object obj rest) (t : Ty) (first : Val t)
    (args : List (Arg Val)) : unpack_args U unpk (⟨t, first⟩ :: args) =
      (⟨t, U.convert t obj first⟩ :: (unpack_args U rest args).1, (unpack_args U rest args).2) := by
  simp only [unpack_args, h]

theorem unpack_args_encoded {body : List UInt8} {vals : List (Arg Val)} (h : Encoded U body vals) (rest : List UInt8)
    {args : List (Arg Val)} (ht : args.map Sigma.fst = vals.map Sigma.fst) :
    unpack_args U (body ++ rest) args = (vals, rest) := by
  induction h generalizing args with
  | nil =>
    rw [List.map_nil, List.map_eq_nil_iff] at ht
    rw [ht]
    rfl
  | @cons c body obj t v vals hc hv _ ih =>
    cases args with
    | nil => cases ht
    | cons a args =>
      obtain ⟨t', first⟩ := a
      rw [List.map_cons, List.map_cons, List.cons.injEq] at ht
      obtain ⟨rfl, ht⟩ := ht
      rw [List.append_assoc, unpack_args_object (hc _), hv, ih ht]

theorem unpack_args_objects {n : Nat} {body : List UInt8} (h : Objects U n body) (rest : List UInt8) {args : List (Arg Val)}
    (hn : args.length = n) : (unpack_args U (body ++ rest) args).2 = rest := by
  induction h generalizing args with
  | nil =>
    rw [List.length_eq_zero_iff] at hn
    rw [hn]
    rfl
  | cons hc _ ih =>
    cases args with
    | nil => cases hn
    | cons a args =>
      obtain ⟨t, first⟩ := a
      rw [List.append_assoc, unpack_args_object (hc _)]
      exact ih (by simpa using hn)

theorem received_snoc (bodies : List (List UInt8 × List (Arg Val))) (body : List UInt8) (args : List (Arg Val)) :
    received U (bodies ++ [(body, args)]) = (recv_body U (received U bodies) body args).2 := by
  simp [received]

/-- Objects of a wrong type do no harm to later bodies; a missing or a surplus one does. -/
theorem received_whole {bodies : List (List UInt8 × List (Arg Val))} (h : ∀ b ∈ bodies, Objects U b.2.length b.1) :
    received U bodies = [] := by
  induction bodies using List.reverseRecOn with
  | nil => rfl
  | append_singleton bodies b ih =>
    obtain ⟨body, args⟩ := b
    rw [received_snoc, ih fun b hb => h b (List.mem_append_left _ hb)]
    have ho := unpack_args_objects (h (body, args) (List.mem_append_right _ List.mem_cons_self)) [] rfl
    rwa [List.append_nil] at ho

/-! ## Leftover bytes -/

/-- A value whose form `b` is not the end of a longer form of it, nor what nil converts to,
    and another value: for a `Key`, the empty string, whose other forms end with the zero byte of
    a length, and any other string. -/
structure Marker (U : Unpacker Obj Ty Val) (t : Ty) (v : Val t) (b : UInt8) (v' : Val t) (c' : List UInt8) : Prop where
  form : Encoded U [b] [⟨t, v⟩]
  longest : ∀ d obj, Code U (d ++ [b]) obj → (∀ first, U.convert t obj first = v) → d = []
  nil : ∀ first, U.convert t U.nil first = first
  other : Encoded U c' [⟨t, v'⟩]
  ne : v' ≠ v

variable {t : Ty} {v v' : Val t} {b : UInt8} {c' : List UInt8}

/-- One argument and a body of it: what `next` finds converts to the value. -/
theorem Decodes.object {unpk c : List UInt8} {w : Val t} (h : Decodes U unpk) (hm : Marker U t v b v' c')
    (hc : Encoded U c [⟨t, w⟩]) :
    ∃ obj rest, U.next (unpk ++ c) = .object obj rest ∧ ∀ first, U.convert t obj first = w := by
  have hr : ∀ first, (unpack_args U (unpk ++ c) [⟨t, first⟩]).1 = [⟨t, w⟩] := fun first => h c [⟨t, w⟩] [⟨t, first⟩] hc rfl
  rcases hn : U.next (unpk ++ c) with ⟨obj, rest⟩ | _ | rest
  · refine ⟨obj, rest, rfl, fun first => ?_⟩
    have hf := hr first
    rw [unpack_args_object hn] at hf
    simpa [unpack_args] using hf
  · have hf : ∀ first, first = w := fun first => by
      simpa [unpack_args, hn, hm.nil] using hr first
    exact absurd ((hf v').trans (hf v).symm) hm.ne
  · have hf : ∀ first, first = w := fun first => by simpa [unpack_args, hn] using hr first
    exact absurd ((hf v').trans (hf v).symm) hm.ne

theorem Decodes.empty {unpk : List UInt8} (h : Decodes U unpk) (hm : Marker U t v b v' c') : unpk = [] := by
  obtain ⟨obj, rest, hn, hv⟩ := h.object hm hm.form
  obtain ⟨c, hc, hcode⟩ := U.front hn
  rcases List.eq_nil_or_concat rest with rfl | ⟨rest', b', rfl⟩
  · rw [List.append_nil] at hc
    exact hm.longest unpk obj (hc ▸ hcode) hv
  · -- The object lies in the leftover bytes, and is what every next body begins with.
    rw [List.concat_eq_append, ← List.append_assoc] at hc
    have hu : unpk = c ++ rest' := (List.append_inj' hc rfl).1
    obtain ⟨obj', rest'', hn', hv'⟩ := h.object hm hm.other
    rw [hu, List.append_assoc, hcode] at hn'
    cases hn'
    exact absurd ((hv' v).symm.trans (hv v)) hm.ne

theorem decodes_empty : Decodes U [] := by
  intro body vals args h ht
  have := unpack_args_encoded h [] ht
  rw [List.append_nil] at this
  show (unpack_args U body args).1 = vals
  rw [this]

theorem decodes_iff (hm : Marker U t v b v' c') (bodies : List (List UInt8 × List (Arg Val))) :
    Decodes U (received U bodies) ↔ received U bodies = [] :=
  ⟨fun h => h.empty hm, fun h => h ▸ decodes_empty⟩

/-! ## Keys -/

/-- `msgpack::object`, for short strings and what else one byte is. -/
inductive Short where
  | nil
  | int (n : UInt8)
  | str (bytes : List UInt8)
  deriving DecidableEq, Repr

namespace Short

def next : List UInt8 → Next Short
  | [] => .incomplete
  | b :: bs =>
    if b < 0x80 then .object (.int b) bs
    else if b = 0xc0 then .object .nil bs
    else if 0xa0 ≤ b ∧ b < 0xc0 then
      if b.toNat - 0xa0 ≤ bs.length then .object (.str (bs.take (b.toNat - 0xa0))) (bs.drop (b.toNat - 0xa0))
      else .incomplete
    else .parse_error (b :: bs)

/-- `convert` to a `std::string`. -/
def convert : Short → List UInt8 → List UInt8
  | .str bytes, _ => bytes
  | _, first => first

theorem next_str {b : UInt8} (hb : 0xa0 ≤ b ∧ b < 0xc0) {s : List UInt8} (hs : s.length = b.toNat - 0xa0)
    (rest : List UInt8) : next (b :: (s ++ rest)) = .object (.str s) rest := by
  have h1 : ¬ b < 0x80 := by
    simp only [UInt8.lt_iff_toNat_lt, UInt8.le_iff_toNat_le, UInt8.reduceToNat] at hb ⊢
    omega
  have h2 : b ≠ 0xc0 := fun e => absurd hb.2 (by rw [e]; decide)
  rw [next, if_neg h1, if_neg h2, if_pos hb, if_pos (by rw [List.length_append]; omega), List.take_left' hs, List.drop_left' hs]

theorem next_object {bs rest : List UInt8} {obj : Short} (h : next bs = .object obj rest) :
    (∃ b, bs = b :: rest ∧ ∀ r, next (b :: r) = .object obj r) ∨
    (∃ b s, bs = b :: (s ++ rest) ∧ obj = .str s ∧ ∀ r, next (b :: (s ++ r)) = .object obj r) := by
  rcases bs with _ | ⟨b, bs⟩
  · cases h
  · rw [next] at h
    by_cases h1 : b < 0x80
    · rw [if_pos h1] at h
      cases h
      exact .inl ⟨b, rfl, fun r => by rw [next, if_pos h1]⟩
    · rw [if_neg h1] at h
      by_cases h2 : b = 0xc0
      · rw [if_pos h2] at h
        cases h
        exact .inl ⟨b, rfl, fun r => by rw [next, if_neg h1, if_pos h2]⟩
      · rw [if_neg h2] at h
        split at h
        · rename_i h3
          split at h
          · cases h
            refine .inr ⟨b, bs.take (b.toNat - 0xa0), by rw [List.take_append_drop], rfl, fun r => ?_⟩
            exact next_str h3 (by rw [List.length_take]; omega) r
          · cases h
        · cases h

end Short

/-- For the one argument `&key` of a GET. -/
def keys : Unpacker Short Unit (fun _ => List UInt8) where
  nil := .nil
  next := Short.next
  convert _ := Short.convert
  front h := by
    rcases Short.next_object h with ⟨b, rfl, hr⟩ | ⟨b, s, rfl, -, hr⟩
    · exact ⟨[b], rfl, hr⟩
    · exact ⟨b :: s, rfl, hr⟩

abbrev key (s : List UInt8) : Arg (fun _ : Unit => List UInt8) := ⟨(), s⟩

theorem keys_encoded {b : UInt8} (hb : 0xa0 ≤ b ∧ b < 0xc0) {s : List UInt8} (hs : s.length = b.toNat - 0xa0) :
    Encoded keys (b :: s) [key s] := by
  have hc : Code keys (b :: s) (.str s) := Short.next_str hb hs
  have he : Encoded keys (b :: s ++ []) [key s] := .cons hc (fun _ => rfl) .nil
  rwa [List.append_nil] at he

theorem keys_marker : Marker keys () [] 0xa0 [0x61] [0xa1, 0x61] where
  form := keys_encoded (by decide) rfl
  longest d obj hc hv := by
    have hn := hc []
    rw [List.append_nil] at hn
    rcases Short.next_object hn with ⟨b, hb, -⟩ | ⟨b, s, hb, rfl, -⟩
    · simpa using congrArg List.length hb
    · have hs : s = [] := hv []
      rw [hs] at hb
      simpa using congrArg List.length hb
  nil _ := rfl
  other := keys_encoded (by decide) rfl
  ne := by decide

theorem decodes_iff_keys : Decodes keys (received keys [([0xa1], [key []])]) ↔ received keys [([0xa1], [key []])] = [] :=
  decodes_iff keys_marker _

/-- The body of a GET is cut short after the first byte of its key; the GET of "b" that comes
    next gives the key whose one byte is 0xa1. -/
theorem truncated_body : ¬ ∀ bodies : List (List UInt8 × List (Arg fun _ : Unit => List UInt8)),
    Decodes keys (received keys bodies) := by
  intro h
  have hb := h [([0xa1], [key []])] [0xa1, 0x62] [key [0x62]] [key []] (keys_encoded (by decide) rfl) rfl
  revert hb
  decide

end RampRdma.Communicator
