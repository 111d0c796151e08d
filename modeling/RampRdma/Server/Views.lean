/-
  RampRdma.Server.Views — the values of stored versions. A `Value` is a
  `msgpack::type::raw_ref`, an address and a size: converting a received item leaves its
  values where they are, in the buffer of the `msgpack::unpacker` of the connection it came
  over, and the table keeps the views.

  The unpacker appends each body to its buffer and goes back to the front when there is no
  room for the next one behind the last (msgpack is not part of the repository: `Msgpack` has
  what is assumed of it). The bodies from then on are put over those the views are into. And
  when the client closes, `run` ends with `delete this->com`: the unpacker goes, and its
  buffer with it.
  - `Kept`: a body is put over no byte of a value that is stored, and no connection is closed
    whose buffer stored values are in.
  - `values_kept`: in runs whose every step is so, what the versions' views show is what their
    clients sent, whoever looks: a lookup, or a commit that packs them.
  - `recycled`: a version, and as many messages as go round the buffer once.
  - `freed`: a version, and CLOSE.
-/

import Mathlib
import RampRdma.Lib.Machine
import RampRdma.Server.Table
import RampRdma.Wire

namespace RampRdma.Views

open Bytes Machine

structure RawRef (E : Type) where
  /-- The connection whose unpacker's buffer it points into. -/
  com : E
  ptr : Nat
  size : Nat

/-- An `Item` as the server has it. -/
structure StoredItem (E : Type) where
  key : Key := ""
  values : Map Field (RawRef E) := ∅
  ts : Timestamp := .empty
  trx_keys : OrdSet Key := ∅

/-- What is assumed of msgpack, for items packed by `pack`. -/
structure Msgpack (pack : Item → List UInt8) where
  /-- Of an unpacker's buffer. -/
  capacity : Nat
  room : PACKET_SIZE ≤ capacity
  /-- Where in a packed item the value of a field is. -/
  offset : Item → Field → Nat
  value_at : ∀ i f v, i.values[f]? = some v → ∃ pre post, pack i = pre ++ (v ++ post) ∧ pre.length = offset i f

/-! ## Unpackers -/

structure Unpacker where
  buffer : Mem := fun _ => 0
  used : Nat := 0

namespace Unpacker

/-- `reserve_buffer(size)`, once everything before it is parsed and dropped. -/
def reserve_buffer (capacity : Nat) (u : Unpacker) (size : Nat) : Unpacker :=
  if u.used + size ≤ capacity then u else { u with used := 0 }

/-- `memcpy(unpk.buffer(), body, body_size)` and `buffer_consumed(body_size)`. -/
def fill (u : Unpacker) (body : List UInt8) : Unpacker := ⟨write u.buffer u.used body, u.used + body.length⟩

end Unpacker

section
variable {E : Type} (buf : E → Option Mem)

/-- `none`: it reads what is freed. -/
def RawRef.bytes (r : RawRef E) : Option (List UInt8) :=
  if r.size = 0 then some [] else (buf r.com).map fun m => slice m r.ptr r.size

/-- The item that goes into a message or a cache entry. -/
def StoredItem.read (v : StoredItem E) : Option Item :=
  if ∀ p ∈ v.values.toList, (p.2.bytes buf).isSome = true then
    some { key := v.key, values := v.values.map fun _ r => (r.bytes buf).getD [], ts := v.ts, trx_keys := v.trx_keys }
  else none

end

variable {E : Type} {pack : Item → List UInt8} (M : Msgpack pack)

/-- The item of a body at `pos` of the buffer. -/
def convert (com : E) (pos : Nat) (item : Item) : StoredItem E :=
  { key := item.key, values := item.values.map fun f v => ⟨com, pos + M.offset item f, v.length⟩, ts := item.ts,
    trx_keys := item.trx_keys }

/-- `size` bytes at `pos` of the buffer of `x` are no bytes of the view. -/
def RawRef.Apart (r : RawRef E) (x : E) (pos size : Nat) : Prop :=
  r.com = x → r.size = 0 ∨ r.ptr + r.size ≤ pos ∨ pos + size ≤ r.ptr

instance [DecidableEq E] (r : RawRef E) (x : E) (pos size : Nat) : Decidable (r.Apart x pos size) :=
  inferInstanceAs (Decidable (_ → _))

/-! ## What views show -/

section
variable {M} {x : E} {buf buf' : E → Option Mem}

theorem read_congr {v : StoredItem E} (h : ∀ p ∈ v.values.toList, p.2.bytes buf' = p.2.bytes buf) : v.read buf' = v.read buf := by
  have hm : (v.values.map fun _ r => (r.bytes buf').getD []) = v.values.map fun _ r => (r.bytes buf).getD [] := by
    apply Std.ExtTreeMap.ext_getElem?
    intro f
    rw [Std.ExtTreeMap.getElem?_map, Std.ExtTreeMap.getElem?_map]
    rcases hf : v.values[f]? with _ | r
    · rfl
    · have hr := h (f, r) (Std.ExtTreeMap.mem_toList_iff_getElem?_eq_some.mpr hf)
      simp only [Option.map_some]
      rw [hr]
  have hs : (∀ p ∈ v.values.toList, (p.2.bytes buf').isSome = true) ↔ ∀ p ∈ v.values.toList, (p.2.bytes buf).isSome = true := by
    constructor
    · intro hall p hp
      rw [← h p hp]
      exact hall p hp
    · intro hall p hp
      rw [h p hp]
      exact hall p hp
  rw [StoredItem.read, StoredItem.read, hm]
  simp only [hs]

theorem read_key {v : StoredItem E} {i : Item} (h : v.read buf = some i) : i.key = v.key := by
  unfold StoredItem.read at h
  split at h <;> cases h
  rfl

theorem read_empty : ({} : StoredItem E).read buf = some .empty := by
  have hm : ((∅ : Map Field (RawRef E)).map fun _ r => (r.bytes buf).getD []) = ∅ := by
    apply Std.ExtTreeMap.ext_getElem?
    intro f
    simp
  simp [StoredItem.read, hm]

/-- The lookup goes by key, which is copied. -/
theorem read_find {l : List (StoredItem E)} {is : List Item} (h : l.map (·.read buf) = is.map some) (key : Key) :
    ((l.find? (·.key = key)).getD {}).read buf = some ((is.find? (·.key = key)).getD .empty) := by
  induction l generalizing is with
  | nil =>
    obtain rfl : is = [] := by simpa using h.symm
    exact read_empty
  | cons v l ih =>
    cases is with
    | nil => cases h
    | cons i is =>
      rw [List.map_cons, List.map_cons, List.cons.injEq] at h
      have hk := read_key h.1
      rw [List.find?_cons, List.find?_cons, hk]
      by_cases e : v.key = key
      · simp only [e, decide_true, Option.getD_some]
        exact h.1
      · simp only [e, decide_false]
        exact ih h.2

variable [DecidableEq E]

/-- A body put elsewhere leaves a view as it is. -/
theorem bytes_fill {r : RawRef E} {u : Unpacker} {body : List UInt8} (hu : buf x = some u.buffer)
    (h : r.Apart x u.used body.length) : r.bytes (Function.update buf x (some (u.fill body).buffer)) = r.bytes buf := by
  unfold RawRef.bytes
  by_cases e : r.com = x
  · rw [e, Function.update_self, hu, Unpacker.fill]
    rcases h e with h0 | h0
    · rw [if_pos h0, if_pos h0]
    · simp only [Option.map_some, slice_write_disjoint _ _ _ h0]
  · rw [Function.update_of_ne e]

/-- An item just received shows what was sent. -/
theorem read_convert (item : Item) (u : Unpacker) :
    (convert M x u.used item).read (Function.update buf x (some (u.fill (pack item)).buffer)) = some item := by
  have hb : ∀ f v, item.values[f]? = some v → (RawRef.mk x (u.used + M.offset item f) v.length).bytes
      (Function.update buf x (some (u.fill (pack item)).buffer)) = some v := by
    intro f v hf
    obtain ⟨pre, post, hp, hl⟩ := M.value_at item f v hf
    have hs := slice_write_part u.buffer u.used pre v post
    unfold RawRef.bytes
    split
    · rename_i h0
      rw [List.length_eq_zero_iff.mp h0]
    · simp only [Function.update_self, Option.map_some, Unpacker.fill, hp, ← hl, hs]
  have hall : ∀ p ∈ (convert M x u.used item).values.toList,
      (p.2.bytes (Function.update buf x (some (u.fill (pack item)).buffer))).isSome = true := by
    intro ⟨f, r⟩ hp
    have hf := Std.ExtTreeMap.mem_toList_iff_getElem?_eq_some.mp hp
    rw [convert, Std.ExtTreeMap.getElem?_map, Option.map_eq_some_iff] at hf
    obtain ⟨v, hv, rfl⟩ := hf
    rw [hb f v hv]
    rfl
  have hm : ((convert M x u.used item).values.map fun _ r =>
      (r.bytes (Function.update buf x (some (u.fill (pack item)).buffer))).getD []) = item.values := by
    apply Std.ExtTreeMap.ext_getElem?
    intro f
    rw [Std.ExtTreeMap.getElem?_map, convert, Std.ExtTreeMap.getElem?_map]
    rcases hf : item.values[f]? with _ | v
    · rfl
    · simp only [Option.map_some, hb f v hf, Option.getD_some]
  rw [StoredItem.read, if_pos hall, hm]
  rfl

end

/-! ## Executors -/

/-- What a connection receives. -/
inductive Request where
  | PREPARE (item : Item)
  | PUT (item : Item)
  /-- Changes no version. -/
  | other (body : List UInt8)
  | CLOSE

structure State (E : Type) where
  /-- `none` once `run` has ended with `delete this->com`. -/
  unpk : E → Option Unpacker := fun _ => some {}
  /-- `items` of the table all executors share. -/
  items : ConcurrentMap Timestamp (List (StoredItem E)) := .empty
  /-- The versions stored. -/
  stored : List (StoredItem E) := []
  /-- A table whose values were copied. -/
  sent : Store := {}

namespace State

def buf (s : State E) : E → Option Mem := fun x => (s.unpk x).map (·.buffer)

def versions (s : State E) (ts : Timestamp) : List (StoredItem E) := (s.items.find ts).getD []

/-- `items[item.ts].push_back(item)`. -/
def push_back (s : State E) (com : E) (pos : Nat) (item : Item) : State E :=
  let v := convert M com pos item
  { s with items := s.items.set v.ts (s.versions v.ts ++ [v]), stored := s.stored ++ [v], sent := s.sent.push_back item }

def get_item_by_ver (s : State E) (key : Key) (ts : Timestamp) : StoredItem E :=
  match s.items.find ts with
  | some l => (l.find? (·.key = key)).getD {}
  | none => {}

/-- The body of a request on `x` is put where `reserve_buffer` has made room. -/
def recv_body [DecidableEq E] (s : State E) (x : E) (u : Unpacker) (body : List UInt8) : State E :=
  { s with unpk := Function.update s.unpk x (some (u.fill body)) }

end State

variable (pack) in
def Request.body : Request → List UInt8
  | .PREPARE item => pack item
  | .PUT item => pack item
  | .other body => body
  | .CLOSE => []

/-! ## The invariant -/

variable {M} {s s' : State E} {x : E}

structure Inv (s : State E) : Prop where
  items : ∀ ts, (s.items.find ts).map (·.map (·.read s.buf)) = (s.sent.items.find ts).map (·.map some)
  stored : ∀ ts l, s.items.find ts = some l → ∀ v ∈ l, v ∈ s.stored

theorem inv_init : Inv ({} : State E) where
  items ts := rfl
  stored ts l h := by cases h

theorem Inv.versions (hi : Inv s) (ts : Timestamp) : (s.versions ts).map (·.read s.buf) = (s.sent.versions ts).map some := by
  have h := hi.items ts
  unfold State.versions Store.versions
  cases hf : s.items.find ts <;> cases hg : s.sent.items.find ts <;> rw [hf, hg] at h
  · rfl
  · cases h
  · cases h
  · exact Option.some.inj h

theorem inv_push_back (hi : Inv s) {pos : Nat} {item : Item} (h : (convert M x pos item).read s.buf = some item) :
    Inv (s.push_back M x pos item) := by
  have hf : ∀ ts, (s.push_back M x pos item).items.find ts =
      if ts = item.ts then some (s.versions item.ts ++ [convert M x pos item]) else s.items.find ts :=
    fun ts => ConcurrentMap.find_set _ _ ts _
  refine ⟨fun ts => ?_, fun ts l hl v hm => ?_⟩
  · have hg : (s.push_back M x pos item).sent.items.find ts =
        if ts = item.ts then some (s.sent.versions item.ts ++ [item]) else s.sent.items.find ts := ConcurrentMap.find_set _ _ ts _
    rw [hf, hg]
    show Option.map (List.map (StoredItem.read s.buf)) _ = _
    split
    · simp only [Option.map_some, List.map_append, List.map_singleton, h, hi.versions]
    · exact hi.items ts
  · rw [hf] at hl
    show v ∈ s.stored ++ [_]
    split at hl
    · cases hl
      rcases List.mem_append.mp hm with hm | hm
      · cases hv : s.items.find item.ts with
        | none => simp [State.versions, hv] at hm
        | some l =>
          rw [State.versions, hv] at hm
          exact List.mem_append_left _ (hi.stored _ l hv v hm)
      · exact List.mem_append_right _ hm
    · exact List.mem_append_left _ (hi.stored ts l hl v hm)

/-- Where all stored views show what they showed. -/
theorem Inv.views (hi : Inv s) (hitems : s'.items = s.items) (hstored : s'.stored = s.stored) (hsent : s'.sent = s.sent)
    (h : ∀ v ∈ s.stored, ∀ p ∈ v.values.toList, p.2.bytes s'.buf = p.2.bytes s.buf) : Inv s' := by
  refine ⟨fun ts => ?_, fun ts l hl v hv => ?_⟩
  · rw [hitems, hsent, ← hi.items ts]
    rcases hf : s.items.find ts with _ | l
    · rfl
    · refine congrArg some (List.map_congr_left fun v hv => ?_)
      exact read_congr (h v (hi.stored ts l hf v hv))
  · rw [hstored]
    exact hi.stored ts l (hitems ▸ hl) v hv

/-! ## Steps -/

variable [DecidableEq E] (M)

/-- `recv_body`, and what `run` does with the request; nothing is received on a connection that is closed. -/
def step (s : State E) : E × Request → Option (State E)
  | (x, req) =>
    let body := req.body pack
    match s.unpk x with
    | none => none
    | some u =>
      if body.length ≤ PACKET_SIZE then
        let u := u.reserve_buffer M.capacity body.length
        match req with
        | .PREPARE item => some ((s.recv_body x u body).push_back M x u.used item)
        | .PUT item => some ((s.recv_body x u body).push_back M x u.used item)
        | .other _ => some (s.recv_body x u body)
        | .CLOSE => some { s with unpk := Function.update s.unpk x none }
      else none

/-- A body is put over no stored value, and a connection whose buffer stored values are in is not closed. -/
def Kept (s : State E) : E × Request → Prop
  | (x, .CLOSE) => ∀ v ∈ s.stored, ∀ p ∈ v.values.toList, p.2.com = x → p.2.size = 0
  | (x, req) => ∀ u, s.unpk x = some u → ∀ v ∈ s.stored, ∀ p ∈ v.values.toList,
      p.2.Apart x (u.reserve_buffer M.capacity (req.body pack).length).used (req.body pack).length

instance (s : State E) (x : E) (req : Request) : Decidable (∀ u, s.unpk x = some u → ∀ v ∈ s.stored, ∀ p ∈ v.values.toList,
    p.2.Apart x (u.reserve_buffer M.capacity (req.body pack).length).used (req.body pack).length) :=
  match h : s.unpk x with
  | none => isTrue fun _ e => by cases e
  | some u => decidable_of_iff (∀ v ∈ s.stored, ∀ p ∈ v.values.toList,
      p.2.Apart x (u.reserve_buffer M.capacity (req.body pack).length).used (req.body pack).length) (by simp)

instance (s : State E) : ∀ a, Decidable (Kept M s a)
  | (x, .CLOSE) => inferInstanceAs (Decidable (∀ v ∈ s.stored, ∀ p ∈ v.values.toList, p.2.com = x → p.2.size = 0))
  | (_, .PREPARE _) => inferInstanceAs (Decidable (∀ _, _))
  | (_, .PUT _) => inferInstanceAs (Decidable (∀ _, _))
  | (_, .other _) => inferInstanceAs (Decidable (∀ _, _))

variable {M}

theorem buf_recv_body (u : Unpacker) (body : List UInt8) :
    (s.recv_body x u body).buf = Function.update s.buf x (some (u.fill body).buffer) := by
  funext y
  by_cases e : y = x
  · subst e
    simp [State.buf, State.recv_body]
  · simp [State.buf, State.recv_body, Function.update_of_ne e]

/-- A body that is kept apart from the views shows in no version. -/
theorem inv_recv_body (hi : Inv s) {u : Unpacker} {body : List UInt8} (hu : s.buf x = some u.buffer)
    (h : ∀ v ∈ s.stored, ∀ p ∈ v.values.toList, p.2.Apart x u.used body.length) : Inv (s.recv_body x u body) := by
  refine hi.views rfl rfl rfl fun v hv p hp => ?_
  rw [buf_recv_body]
  exact bytes_fill hu (h v hv p hp)

/-- No stored value is in the buffer that goes. -/
theorem inv_close (hi : Inv s) (h : ∀ v ∈ s.stored, ∀ p ∈ v.values.toList, p.2.com = x → p.2.size = 0) :
    Inv { s with unpk := Function.update s.unpk x none } := by
  refine hi.views rfl rfl rfl fun v hv p hp => ?_
  unfold RawRef.bytes
  by_cases e : p.2.com = x
  · rw [if_pos (h v hv p hp e), if_pos (h v hv p hp e)]
  · simp only [State.buf, Function.update_of_ne e]

/-- The version of a body, and the body. -/
theorem inv_store (hi : Inv s) {u : Unpacker} {item : Item} (hu : s.buf x = some u.buffer)
    (h : ∀ v ∈ s.stored, ∀ p ∈ v.values.toList, p.2.Apart x u.used (pack item).length) :
    Inv ((s.recv_body x u (pack item)).push_back M x u.used item) := by
  refine inv_push_back (inv_recv_body hi hu h) ?_
  rw [buf_recv_body]
  exact read_convert item u

theorem reserve_buffer_buffer (capacity : Nat) (u : Unpacker) (size : Nat) : (u.reserve_buffer capacity size).buffer = u.buffer := by
  unfold Unpacker.reserve_buffer
  split <;> rfl

theorem inv_step {a : E × Request} (hi : Inv s) (hk : Kept M s a) (h : step M s a = some s') : Inv s' := by
  obtain ⟨x, req⟩ := a
  simp only [step] at h
  split at h
  · cases h
  rename_i u hx
  split at h
  · have hu : ∀ size, s.buf x = some (u.reserve_buffer M.capacity size).buffer := by
      intro size
      rw [reserve_buffer_buffer, State.buf, hx]
      rfl
    cases req with
    | PREPARE item =>
      cases h
      exact inv_store hi (hu _) (hk u hx)
    | PUT item =>
      cases h
      exact inv_store hi (hu _) (hk u hx)
    | other body =>
      cases h
      exact inv_recv_body hi (hu _) (hk u hx)
    | CLOSE =>
      cases h
      exact inv_close hi hk
  · cases h

/-- As long as no body is put over a stored value and no stored value goes with its connection,
    every version that a lookup returns, and every one that a commit packs, has the bytes that
    were sent. -/
theorem values_kept (h : Reach (step M) (Kept M) {} s) :
    (∀ key ts, (s.get_item_by_ver key ts).read s.buf = some (s.sent.get_item_by_ver key ts)) ∧
    (∀ ts, (s.versions ts).map (fun v => (v.read s.buf).map pack) = (s.sent.versions ts).map fun i => some (pack i)) := by
  have hi : Inv s := h.inv Inv inv_init fun _ _ _ => inv_step
  constructor
  · intro key ts
    have hf := read_find (hi.versions ts) key
    rw [Store.get_item_by_ver_eq, ← hf]
    unfold State.get_item_by_ver State.versions
    cases s.items.find ts <;> rfl
  · intro ts
    have hv := congrArg (List.map (Option.map pack)) (hi.versions ts)
    rw [List.map_map, List.map_map] at hv
    exact hv

/-! ## Runs -/

/-- With a buffer of `MSGPACK_UNPACKER_INIT_BUFFER_SIZE`, less a counter. -/
def msgpack : Msgpack Wire.msgpack.pack where
  capacity := 64 * 1024 - 4
  room := by decide
  offset i f := (Wire.before_value i f).length
  value_at i f v h := by
    obtain ⟨post, hp⟩ := Wire.value_at h
    exact ⟨_, post, hp, rfl⟩

def version : Item := { key := "x", values := .ofList [("f", [7])] compare, ts := ⟨1, 0⟩ }

/-- COMMIT, with the timestamp of `version`. -/
def COMMIT : Request := .other (Wire.timestamp.pack ⟨1, 0⟩)

/-- A client prepares and commits; another one looks, and closes. -/
theorem values_kept_two : ∃ s : State Bool, Reach (step msgpack) (Kept msgpack) {} s ∧ s.unpk true = none ∧
    s.sent.get_item_by_ver "x" ⟨1, 0⟩ = version ∧
    (∀ key ts, (s.get_item_by_ver key ts).read s.buf = some (s.sent.get_item_by_ver key ts)) ∧
    (∀ ts, (s.versions ts).map (fun v => (v.read s.buf).map Wire.msgpack.pack) =
      (s.sent.versions ts).map fun i => some (Wire.msgpack.pack i)) := by
  obtain ⟨s, hs, hp⟩ := reach_any (show (exec (step msgpack) (Kept msgpack) {}
      [(false, .PREPARE version), (false, COMMIT), (true, .other (Wire.str.pack "x" ++ Wire.timestamp.pack .empty)),
        (true, .CLOSE)]).any (fun s : State Bool =>
        (s.unpk true).isNone && decide (s.sent.get_item_by_ver "x" ⟨1, 0⟩ = version)) = true by decide +kernel)
  simp only [Bool.and_eq_true, Option.isNone_iff_eq_none, decide_eq_true_eq] at hp
  exact ⟨s, hs, hp.1, hp.2, values_kept hs⟩

/-- Versions of another key, of 2528 bytes. -/
def large (k : Nat) : Item := { key := "y", values := .ofList [("f", .replicate 2515 0)] compare, ts := ⟨.ofNat (k + 2), 0⟩ }

/-- The 26th of them does not fit behind the others any more. -/
theorem recycled : ∃ s : State Unit, Reach (step msgpack) (fun _ _ => True) {} s ∧
    s.sent.get_item_by_ver "x" ⟨1, 0⟩ = version ∧ version.values["f"]? = some [7] ∧
    (((s.get_item_by_ver "x" ⟨1, 0⟩).read s.buf).map fun i => i.values["f"]?) = some (some [0xd3]) := by
  obtain ⟨s, hs, hp⟩ := reach_any (show (exec (step msgpack) (fun _ _ => True) {}
      (((), .PREPARE version) :: (List.range 26).map fun k => ((), .PREPARE (large k)))).any (fun s : State Unit =>
        decide (s.sent.get_item_by_ver "x" ⟨1, 0⟩ = version) &&
        decide ((((s.get_item_by_ver "x" ⟨1, 0⟩).read s.buf).map fun i => i.values["f"]?) = some (some [0xd3]))) = true by decide +kernel)
  simp only [Bool.and_eq_true, decide_eq_true_eq] at hp
  exact ⟨s, hs, hp.1, by decide +kernel, hp.2⟩

/-- The client of the committed version has closed. -/
theorem freed : ∃ s : State Unit, Reach (step msgpack) (fun _ _ => True) {} s ∧
    s.sent.get_item_by_ver "x" ⟨1, 0⟩ = version ∧ (s.get_item_by_ver "x" ⟨1, 0⟩).read s.buf = none := by
  obtain ⟨s, hs, hp⟩ := reach_any (show (exec (step msgpack) (fun _ _ => True) {}
      [((), .PREPARE version), ((), COMMIT), ((), .CLOSE)]).any (fun s : State Unit =>
        decide (s.sent.get_item_by_ver "x" ⟨1, 0⟩ = version) &&
        decide ((s.get_item_by_ver "x" ⟨1, 0⟩).read s.buf = none)) = true by decide +kernel)
  simp only [Bool.and_eq_true, decide_eq_true_eq] at hp
  exact ⟨s, hs, hp.1, hp.2⟩

end RampRdma.Views
