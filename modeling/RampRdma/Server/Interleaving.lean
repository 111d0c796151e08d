/-
  RampRdma.Server.Interleaving — the calls of `CommittedItems` as concurrent executors run
  them: each call on `entries` or `unused_entries` and each `Entry::update` or
  `Entry::invalidate` is a step, and the steps of different executors interleave.

  `invalidate` and `get_item_addr` look the key up, and bind it in later steps if it was
  not bound. Nothing keeps the answer true in between: a second executor may look up the
  same key, find it unbound and bind it to another slot, or find the null pointer that
  `entries[key]` inserts before `try_pop` overwrites it.
  - `Undisturbed`: a step that binds a key finds it still without an entry, and a step that
    reads a binding finds no `try_pop` into it pending.
  - `addresses_current`: in runs whose steps all meet it, and find slots left, every address
    returned is the address of the entry bound to its key, and no null is dereferenced.
  - `overtaken`: two executors that touch the same key for the first time.
-/

import Mathlib
import RampRdma.Lib.Machine
import RampRdma.Server.CommittedItems
import RampRdma.Wire

namespace RampRdma.Interleaving

open Machine

/-- What an executor calls for a PREPARE, a COMMIT or a GET_WITH_ADDR. -/
inductive Request where
  | invalidate (key : Key)
  | update (item : Item)
  | get_item_addr (key : Key)

/-- Before which step of a call an executor is. -/
inductive Phase where
  | idle
  /-- `entries[key]`, which inserts null. -/
  | insert (key : Key)
  /-- `try_pop(entries[key])`. -/
  | try_pop (key : Key)
  /-- `entries.at(key)` of `invalidate`. -/
  | at_key (key : Key)
  /-- `->invalidate()`. -/
  | invalidate (key : Key) (entry : Option Nat)
  /-- `try_pop(entry)`. -/
  | try_pop_entry (key : Key)
  /-- `entry->update(Item(key))`. -/
  | update_entry (key : Key) (entry : Nat)
  /-- `entries[key] = entry`. -/
  | assign (key : Key) (entry : Nat)
  /-- `entries.at(key)->addr`. -/
  | at_addr (key : Key)
  /-- `->update(item)`. -/
  | update (item : Item) (entry : Option Nat)
  deriving DecidableEq

/-- `E` are the executors. -/
structure State (E : Type) where
  items : CommittedItems
  phase : E → Phase := fun _ => .idle
  /-- The keys and addresses `get_item_addr` has returned. -/
  returned : List (Key × Nat) := []
  /-- What ended the process. -/
  fault : Option Fault := none

inductive Act (E : Type) where
  /-- An idle executor takes the first step of a call. -/
  | call (x : E) (req : Request)
  /-- The next step of a call. -/
  | next (x : E)

variable {E : Type} (C : Codec)

/-- `CommittedItems()`, over a pool of `n` slots. -/
def init (n : Nat) : State E := { items := .init n }

namespace State

variable [DecidableEq E] (s : State E)

def goto (x : E) (p : Phase) : State E := { s with phase := Function.update s.phase x p }

def bind (key : Key) (entry : Nat) : State E :=
  { s with items := { s.items with entries := s.items.entries.set key (some entry) } }

def call (x : E) : Request → State E
  | .invalidate key =>
    match s.items.entries.find key with
    | none => s.goto x (.insert key)
    | some _ => s.goto x (.at_key key)
  | .get_item_addr key =>
    match s.items.entries.find key with
    | none => s.goto x (.try_pop_entry key)
    | some _ => s.goto x (.at_addr key)
  | .update item =>
    -- the exception of `at` is caught
    match s.items.entries.find item.key with
    | none => s
    | some entry => s.goto x (.update item entry)

def next (x : E) : Phase → Option (State E)
  | .idle => none
  | .insert key =>
    some ({ s with items := { s.items with entries := s.items.entries.insert key none } }.goto x (.try_pop key))
  | .try_pop key =>
    match s.items.unused_entries with
    | [] => some (s.goto x .idle)
    | e :: q => some (({ s with items := { s.items with unused_entries := q } }.bind key e).goto x .idle)
  | .at_key key =>
    match s.items.entries.find key with
    | none => some { s with fault := some .out_of_range }
    | some entry => some (s.goto x (.invalidate key entry))
  | .invalidate _ none => some { s with fault := some .null_deref }
  | .invalidate _ (some e) => some ({ s with items := { s.items with mem := Entry.invalidate s.items.mem e } }.goto x .idle)
  | .try_pop_entry key =>
    match s.items.unused_entries with
    | [] => some (s.goto x (.at_addr key))
    | e :: q => some ({ s with items := { s.items with unused_entries := q } }.goto x (.update_entry key e))
  | .update_entry key e =>
    match Entry.update C s.items.mem e (.of_key key) with
    | .ok mem => some ({ s with items := { s.items with mem := mem } }.goto x (.assign key e))
    | .error f => some { s with fault := some f }
  | .assign key e => some ((s.bind key e).goto x (.at_addr key))
  | .at_addr key =>
    match s.items.entries.find key with
    | none => some { s with fault := some .out_of_range }
    | some none => some { s with fault := some .null_deref }
    | some (some e) => some ({ s with returned := s.returned ++ [(key, e)] }.goto x .idle)
  | .update _ none => some { s with fault := some .null_deref }
  | .update item (some e) =>
    match Entry.update C s.items.mem e item with
    | .ok mem => some ({ s with items := { s.items with mem := mem } }.goto x .idle)
    | .error f => some { s with fault := some f }

end State

def step [DecidableEq E] (s : State E) : Act E → Option (State E)
  | .call x req => if s.fault = none ∧ s.phase x = .idle then some (s.call x req) else none
  | .next x => if s.fault = none then s.next C x (s.phase x) else none

namespace Phase

/-- The step takes a slot from the pool. -/
def pops : Phase → Bool
  | .try_pop _ => true
  | .try_pop_entry _ => true
  | _ => false

/-- The key the step binds. -/
def binds : Phase → Option Key
  | .try_pop key => some key
  | .assign key _ => some key
  | _ => none

/-- The key whose binding the step reads. -/
def reads : Phase → Option Key
  | .at_key key => some key
  | .at_addr key => some key
  | _ => none

end Phase

/-- The pool does not run out. -/
def PoolLeft (s : State E) : Act E → Prop
  | .call _ _ => True
  | .next x => (s.phase x).pops = true → s.items.unused_entries ≠ []

/-- No executor has inserted a null pointer for `key` that it is about to overwrite. -/
def NoPending (s : State E) (key : Key) : Prop := ∀ y, s.phase y ≠ .try_pop key

/-- No executor has bound `key` to an entry. -/
def NoEntry (s : State E) (key : Key) : Prop := (s.items.entries.find key).join = none

/-- A key that is bound is still without an entry, and a binding that is read is not about to
    be overwritten. -/
def Undisturbed (s : State E) : Act E → Prop
  | .call _ (.update item) => NoPending s item.key
  | .call _ _ => True
  | .next x => (∀ key ∈ (s.phase x).binds, NoEntry s key) ∧ (∀ key ∈ (s.phase x).reads, NoPending s key)

instance (s : State E) : ∀ a, Decidable (PoolLeft s a)
  | .call _ _ => inferInstanceAs (Decidable True)
  | .next _ => inferInstanceAs (Decidable (_ → _))

instance [Fintype E] (s : State E) (key : Key) : Decidable (NoPending s key) := inferInstanceAs (Decidable (∀ _, _))

instance (s : State E) (key : Key) : Decidable (NoEntry s key) := inferInstanceAs (Decidable (_ = _))

instance [Fintype E] (s : State E) : ∀ a, Decidable (Undisturbed s a)
  | .call _ (.update item) => inferInstanceAs (Decidable (NoPending s item.key))
  | .call _ (.invalidate _) => inferInstanceAs (Decidable True)
  | .call _ (.get_item_addr _) => inferInstanceAs (Decidable True)
  | .next _ => inferInstanceAs (Decidable (_ ∧ _))

/-! ## The invariant -/

/-- What was looked up stays true, and a slot about to be written is the one bound to the key. -/
def PhaseOk (s : State E) : Phase → Prop
  | .at_key key => s.items.entries.find key ≠ none
  | .at_addr key => s.items.entries.find key ≠ none
  | .invalidate key entry => ∃ e, entry = some e ∧ s.items.entries.find key = some (some e)
  | .update item entry => ∃ e, entry = some e ∧ s.items.entries.find item.key = some (some e)
  | _ => True

structure Inv (s : State E) : Prop where
  returned : ∀ k e, (k, e) ∈ s.returned → s.items.entries.find k = some (some e)
  pending : ∀ k, s.items.entries.find k = some none → ∃ y, s.phase y = .try_pop k
  phase : ∀ x, PhaseOk s (s.phase x)
  fault : s.fault ≠ some .null_deref ∧ s.fault ≠ some .out_of_range

/-- Nothing is unbound, and no entry is replaced. -/
structure Grows (s s' : State E) : Prop where
  bound : ∀ k, s.items.entries.find k ≠ none → s'.items.entries.find k ≠ none
  entry : ∀ k e, s.items.entries.find k = some (some e) → s'.items.entries.find k = some (some e)

variable {C} {s s' : State E} {x : E} {p : Phase} {key : Key} {e : Nat}

theorem Grows.of_eq (h : s'.items.entries = s.items.entries) : Grows s s' := by
  constructor <;> simp [h]

theorem Grows.phaseOk (h : Grows s s') (hp : PhaseOk s p) : PhaseOk s' p := by
  cases p with
  | at_key key => exact h.bound key hp
  | at_addr key => exact h.bound key hp
  | invalidate key entry =>
    obtain ⟨e, he, hk⟩ := hp
    exact ⟨e, he, h.entry key e hk⟩
  | update item entry =>
    obtain ⟨e, he, hk⟩ := hp
    exact ⟨e, he, h.entry item.key e hk⟩
  | _ => trivial

theorem grows_bind (h : NoEntry s key) (hs : s'.items.entries = (s.items.entries.set key (some e))) : Grows s s' := by
  constructor
  · intro k hk
    rw [hs, ConcurrentMap.find_set]
    split <;> simp [hk]
  · intro k e' hk
    have hne : k ≠ key := by
      rintro rfl
      rw [NoEntry, hk] at h
      cases h
    rw [hs, ConcurrentMap.find_set_ne _ _ hne, hk]

theorem grows_insert (hs : s'.items.entries = s.items.entries.insert key none) : Grows s s' := by
  rcases hk : s.items.entries.find key with _ | b
  · rw [ConcurrentMap.insert_unbound hk] at hs
    constructor
    · intro k hb
      rw [hs, ConcurrentMap.find_set]
      split <;> simp [hb]
    · intro k e hb
      have hne : k ≠ key := by
        rintro rfl
        rw [hk] at hb
        cases hb
      rw [hs, ConcurrentMap.find_set_ne _ _ hne, hb]
  · rw [ConcurrentMap.insert_bound hk] at hs
    exact .of_eq hs

theorem Inv.exit (hi : Inv s) : Inv { s with fault := some .exit } :=
  ⟨hi.returned, hi.pending, hi.phase, by simp⟩

theorem update_error {m : Bytes.Mem} {item : Item} {f : Fault} (h : Entry.update C m e item = .error f) : f = .exit := by
  by_cases hf : Entry.Fits C item
  · rw [Entry.update_ok C hf] at h
    cases h
  · rw [Entry.update_exit C hf] at h
    cases h
    rfl

/-- A binding that no `try_pop` is pending for is an entry. -/
theorem Inv.not_null (hi : Inv s) (h : NoPending s key) : s.items.entries.find key ≠ some none := by
  intro hn
  obtain ⟨y, hy⟩ := hi.pending key hn
  exact h y hy

theorem inv_init (n : Nat) : Inv (init n : State E) where
  returned k e h := by cases h
  pending k h := by cases h
  phase x := trivial
  fault := ⟨by simp [init], by simp [init]⟩

variable [DecidableEq E]

/-- An executor moves on to phase `p`. A null it leaves behind is one it inserts. -/
theorem Inv.move (hi : Inv s) (hg : Grows s s') (hp : s'.phase = Function.update s.phase x p)
    (hr : ∀ k e, (k, e) ∈ s'.returned → (k, e) ∈ s.returned ∨ s'.items.entries.find k = some (some e))
    (hf : s'.fault = s.fault) (hok : PhaseOk s' p)
    (hn : ∀ k, s'.items.entries.find k = some none →
      (s.items.entries.find k = some none ∧ s.phase x ≠ .try_pop k) ∨ p = .try_pop k) :
    Inv s' := by
  refine ⟨fun k e h => ?_, fun k hk => ?_, fun y => ?_, hf ▸ hi.fault⟩
  · rcases hr k e h with h | h
    · exact hg.entry k e (hi.returned k e h)
    · exact h
  · rcases hn k hk with ⟨hk, hne⟩ | rfl
    · obtain ⟨y, hy⟩ := hi.pending k hk
      have : y ≠ x := by
        rintro rfl
        exact hne hy
      exact ⟨y, by rw [hp, Function.update_of_ne this, hy]⟩
    · exact ⟨x, by rw [hp, Function.update_self]⟩
  · rw [hp]
    by_cases e : y = x
    · subst e
      rw [Function.update_self]
      exact hok
    · rw [Function.update_of_ne e]
      exact hg.phaseOk (hi.phase y)

/-- The same where `entries` does not change. -/
theorem Inv.goto (hi : Inv s) (hs : s'.items.entries = s.items.entries) (hp : s'.phase = Function.update s.phase x p)
    (hr : ∀ k e, (k, e) ∈ s'.returned → (k, e) ∈ s.returned ∨ s'.items.entries.find k = some (some e))
    (hf : s'.fault = s.fault) (hok : PhaseOk s' p) (hx : ∀ k, s.phase x ≠ .try_pop k) : Inv s' :=
  hi.move (.of_eq hs) hp hr hf hok fun k hk => .inl ⟨by rw [← hs, hk], hx k⟩

theorem inv_call (hi : Inv s) {req : Request} (hx : s.phase x = .idle) (ho : Undisturbed s (.call x req)) :
    Inv (s.call x req) := by
  have hne : ∀ k, s.phase x ≠ .try_pop k := by simp [hx]
  cases req with
  | invalidate key =>
    simp only [State.call]
    split
    · exact hi.goto rfl rfl (fun _ _ h => .inl h) rfl trivial hne
    · rename_i h
      refine hi.goto rfl rfl (fun _ _ h => .inl h) rfl ?_ hne
      show s.items.entries.find key ≠ none
      simp [h]
  | get_item_addr key =>
    simp only [State.call]
    split
    · exact hi.goto rfl rfl (fun _ _ h => .inl h) rfl trivial hne
    · rename_i h
      refine hi.goto rfl rfl (fun _ _ h => .inl h) rfl ?_ hne
      show s.items.entries.find key ≠ none
      simp [h]
  | update item =>
    simp only [State.call]
    split
    · exact hi
    · rename_i entry h
      refine hi.goto rfl rfl (fun _ _ h => .inl h) rfl ?_ hne
      cases entry with
      | none => exact absurd h (hi.not_null ho)
      | some e => exact ⟨e, rfl, h⟩

/-- `insert` leaves no new null but its own. -/
theorem null_insert {m : ConcurrentMap Key (Option Nat)} {k : Key} (h : (m.insert key none).find k = some none) (hk : k ≠ key) :
    m.find k = some none := by
  rcases hm : m.find key with _ | b
  · rwa [ConcurrentMap.insert_unbound hm, ConcurrentMap.find_set_ne _ _ hk] at h
  · rwa [ConcurrentMap.insert_bound hm] at h

theorem null_bind {m : ConcurrentMap Key (Option Nat)} {k : Key} (h : (m.set key (some e)).find k = some none) :
    m.find k = some none ∧ k ≠ key := by
  rw [ConcurrentMap.find_set] at h
  split at h
  · cases h
  · exact ⟨h, ‹_›⟩

/-- A step that binds its key. -/
theorem Inv.bind (hi : Inv s) (h : NoEntry s key) (he : s'.items.entries = s.items.entries.set key (some e))
    (hp : s'.phase = Function.update s.phase x p) (hr : s'.returned = s.returned) (hf : s'.fault = s.fault)
    (hok : PhaseOk s' p) (hx : ∀ k, s.phase x = .try_pop k → k = key) : Inv s' := by
  refine hi.move (grows_bind h he) hp (fun k e h => .inl (hr ▸ h)) hf hok fun k hk => ?_
  rw [he] at hk
  obtain ⟨hk, hne⟩ := null_bind hk
  exact .inl ⟨hk, fun e => hne (hx k e)⟩

theorem inv_next (hi : Inv s) (hl : PoolLeft s (.next x)) (ho : Undisturbed s (.next x))
    (h : s.next C x (s.phase x) = some s') : Inv s' := by
  have hok := hi.phase x
  obtain ⟨hb, hr⟩ := ho
  cases hx : s.phase x with
  | idle =>
    rw [hx] at h
    cases h
  | insert key =>
    rw [hx] at h
    cases h
    refine hi.move (p := .try_pop key) (grows_insert rfl) rfl (fun _ _ h => .inl h) rfl trivial fun k hk => ?_
    by_cases e : k = key
    · exact .inr (by rw [e])
    · exact .inl ⟨null_insert hk e, by simp [hx]⟩
  | try_pop key =>
    rw [hx, State.next.eq_def] at h
    simp only at h
    split at h
    · exact absurd ‹_› (hl (by rw [hx]; rfl))
    · rename_i e q hq
      cases h
      exact hi.bind (x := x) (e := e) (hb key (by rw [hx]; rfl)) rfl rfl rfl rfl trivial (by simp [hx])
  | at_key key =>
    simp only [hx] at hok
    rw [hx, State.next.eq_def] at h
    simp only at h
    split at h
    · exact absurd ‹_› hok
    · rename_i entry hk
      cases h
      refine hi.goto (x := x) rfl rfl (fun _ _ h => .inl h) rfl ?_ (by simp [hx])
      cases entry with
      | none => exact absurd hk (hi.not_null (hr key (by rw [hx]; rfl)))
      | some e => exact ⟨e, rfl, hk⟩
  | invalidate key entry =>
    simp only [hx] at hok
    obtain ⟨e, rfl, hk⟩ := hok
    rw [hx] at h
    cases h
    exact hi.goto (x := x) rfl rfl (fun _ _ h => .inl h) rfl trivial (by simp [hx])
  | try_pop_entry key =>
    rw [hx, State.next.eq_def] at h
    simp only at h
    split at h
    · exact absurd ‹_› (hl (by rw [hx]; rfl))
    · cases h
      exact hi.goto (x := x) rfl rfl (fun _ _ h => .inl h) rfl trivial (by simp [hx])
  | update_entry key e =>
    rw [hx, State.next.eq_def] at h
    simp only at h
    split at h
    · cases h
      exact hi.goto (x := x) rfl rfl (fun _ _ h => .inl h) rfl trivial (by simp [hx])
    · rename_i f hf
      cases h
      cases update_error hf
      exact hi.exit
  | assign key e =>
    rw [hx] at h
    cases h
    refine hi.bind (x := x) (e := e) (hb key (by rw [hx]; rfl)) rfl rfl rfl rfl ?_ (by simp [hx])
    show (s.items.entries.set key (some e)).find key ≠ none
    simp
  | at_addr key =>
    simp only [hx] at hok
    rw [hx, State.next.eq_def] at h
    simp only at h
    split at h
    · exact absurd ‹_› hok
    · exact absurd ‹_› (hi.not_null (hr key (by rw [hx]; rfl)))
    · rename_i e hk
      cases h
      refine hi.goto (x := x) rfl rfl (fun k e' h => ?_) rfl trivial (by simp [hx])
      rcases List.mem_append.mp h with h | h
      · exact .inl h
      · cases List.mem_singleton.mp h
        exact .inr hk
  | update item entry =>
    simp only [hx] at hok
    obtain ⟨e, rfl, hk⟩ := hok
    rw [hx, State.next.eq_def] at h
    simp only at h
    split at h
    · cases h
      exact hi.goto (x := x) rfl rfl (fun _ _ h => .inl h) rfl trivial (by simp [hx])
    · rename_i f hf
      cases h
      cases update_error hf
      exact hi.exit

theorem inv_step {a : Act E} (hi : Inv s) (hl : PoolLeft s a) (ho : Undisturbed s a) (h : step C s a = some s') : Inv s' := by
  cases a with
  | call x req =>
    simp only [step] at h
    split at h
    · rename_i hx
      cases h
      exact inv_call hi hx.2 ho
    · cases h
  | next x =>
    simp only [step] at h
    split at h
    · exact inv_next hi hl ho h
    · cases h

/-- While what calls have looked up stays true, every address returned stays the address of the
    entry of its key, which is the one that calls of the key write, and no null is dereferenced. -/
theorem addresses_current {n : Nat} (h : Reach (step C) (fun s a => PoolLeft s a ∧ Undisturbed s a) (init n) s) :
    (∀ k e, (k, e) ∈ s.returned → s.items.entries.find k = some (some e) ∧
      ∀ y e', (s.phase y = .invalidate k e' ∨ ∃ item, item.key = k ∧ s.phase y = .update item e') → e' = some e) ∧
    s.fault ≠ some .null_deref := by
  have hi : Inv s := h.inv Inv (inv_init n) fun _ _ _ hi ⟨hl, ho⟩ h => inv_step hi hl ho h
  refine ⟨fun k e hr => ?_, hi.fault.1⟩
  have hk := hi.returned k e hr
  refine ⟨hk, fun y e' hy => ?_⟩
  have hok := hi.phase y
  rcases hy with hy | ⟨item, rfl, hy⟩
  · rw [hy] at hok
    obtain ⟨e1, rfl, h1⟩ := hok
    rw [hk] at h1
    cases h1
    rfl
  · rw [hy] at hok
    obtain ⟨e1, rfl, h1⟩ := hok
    rw [hk] at h1
    cases h1
    rfl

/-- Executor `false` binds "x" and returns its address, executor `true` invalidates it. -/
theorem addresses_current_pair : ∃ s : State Bool,
    Reach (step Wire.msgpack) (fun s a => PoolLeft s a ∧ Undisturbed s a) (init 2) s ∧ s.returned = [("x", 0)] ∧
    (∀ k e, (k, e) ∈ s.returned → s.items.entries.find k = some (some e) ∧
      ∀ y e', (s.phase y = .invalidate k e' ∨ ∃ item, item.key = k ∧ s.phase y = .update item e') → e' = some e) ∧
    s.fault ≠ some .null_deref := by
  obtain ⟨s, hs, hp⟩ := reach_any (show (exec (step Wire.msgpack) (fun s a => PoolLeft s a ∧ Undisturbed s a) (init 2)
      [.call false (.get_item_addr "x"), .next false, .next false, .next false, .call true (.invalidate "x"), .next true,
        .next false]).any (fun s : State Bool => decide (s.returned = [("x", 0)])) = true by decide +kernel)
  exact ⟨s, hs, of_decide_eq_true hp, addresses_current hs⟩

/-- Both executors find "x" unbound: the first returns the address of the entry it has bound,
    then the second binds another. Or the second finds the null pointer that the first is
    about to overwrite. -/
theorem overtaken :
    (∃ s : State Bool, Reach (step Wire.msgpack) PoolLeft (init 2) s ∧ ("x", 0) ∈ s.returned ∧
      s.items.entries.find "x" = some (some ENTRY_SIZE)) ∧
    (∃ s : State Bool, Reach (step Wire.msgpack) PoolLeft (init 2) s ∧ s.fault = some .null_deref) := by
  constructor
  · obtain ⟨s, hs, hp⟩ := reach_any (show (exec (step Wire.msgpack) PoolLeft (init 2)
        [.call false (.get_item_addr "x"), .call true (.get_item_addr "x"), .next false, .next true, .next false,
          .next false, .next false, .next true, .next true]).any (fun s : State Bool =>
            decide (("x", 0) ∈ s.returned) && decide (s.items.entries.find "x" = some (some ENTRY_SIZE))) = true by
      decide +kernel)
    simp only [Bool.and_eq_true, decide_eq_true_eq] at hp
    exact ⟨s, hs, hp⟩
  · obtain ⟨s, hs, hp⟩ := reach_any (show (exec (step Wire.msgpack) PoolLeft (init 2)
        [.call false (.invalidate "x"), .next false, .call true (.invalidate "x"), .next true, .next true]).any
          (fun s : State Bool => decide (s.fault = some .null_deref)) = true by decide +kernel)
    exact ⟨s, hs, of_decide_eq_true hp⟩

end RampRdma.Interleaving
