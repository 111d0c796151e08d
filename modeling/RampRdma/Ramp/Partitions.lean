/-
  RampRdma.Ramp.Partitions — which servers a transaction touches, and when no server ends.

  (1) Partition independence (`partition_independence`). `ClientThread::run` clears
  `access_coms` after each transaction, so a `put_all` starts with none (`Cleared`). Then a
  client's requests go to servers of the keys of its transaction and to no others, and
  its COMMITs to each server of a key it writes, once.

  (2) No server ends (`no_server_ends`). Where each server holds at most `ENTRY_NUM` of the
  keys that are read or written, and every version fits a slot (`Within`), no request of
  any client, in any interleaving, meets a `Fault`. A RAMP-Fast client inside a transaction
  then always has a step of its own. This is for runs in which a server's calls of
  `CommittedItems` each run to completion before the next, as in `Ramp.System`: two
  `invalidate`s of one new key inside each other can end the process whatever the sizes are.
-/

import Mathlib
import RampRdma.Data
import RampRdma.Lib.Machine
import RampRdma.Lib.Runs
import RampRdma.Server.Slots
import RampRdma.Ramp.System
import RampRdma.Ramp.Invariant
import RampRdma.Ramp.Progress

namespace RampRdma.Ramp

open Machine Runs

variable {cfg : Config}

/-! ## (1) Partition independence -/

/-- A `put_all` starts with no connections in `access_coms`. -/
def Cleared (s : State cfg) : Act cfg → Prop
  | .put_all c _ _ => (s.clients c).access_coms = []
  | _ => True

instance : ∀ (s : State cfg) (a : Act cfg), Decidable (Cleared s a)
  | s, .put_all c _ _ => inferInstanceAs (Decidable ((s.clients c).access_coms = []))
  | _, .prepare _ _ | _, .begin_commit _ | _, .commit _ _ | _, .put_return _ | _, .get_all _ _ | _, .ask _ _ _
  | _, .check _ | _, .skip _ _ | _, .fetch _ _ | _, .get_return _ | _, .recv _ _ | _, .clear _ | _, .serve _ _ =>
    inferInstanceAs (Decidable True)

/-- The server holds a key of the transaction. -/
def Uses (cp : ConnectionPool) : Phase cp.Server → cp.Server → Prop
  | .idle, _ => False
  | .preparing p _, srv | .committing p _, srv => ∃ i ∈ p.items, cp.get i.key = srv
  | .first g _ _, srv | .second g _ _ _, srv => ∃ k ∈ g.keys, cp.get k = srv

structure Local (cl : Client cfg.cp.Server) : Prop where
  conns : ∀ srv, cl.conns srv ≠ .quiet → Uses cfg.cp cl.phase srv
  preparing : ∀ p todo, cl.phase = .preparing p todo → cl.access_coms.Nodup ∧ (∀ i ∈ todo, i ∈ p.items) ∧
    (∀ srv ∈ cl.access_coms, Uses cfg.cp cl.phase srv) ∧ ∀ i ∈ p.items, i ∈ todo ∨ cfg.cp.get i.key ∈ cl.access_coms
  committing : ∀ p todo, cl.phase = .committing p todo → cl.access_coms.Nodup ∧ (∀ srv ∈ todo, srv ∈ cl.access_coms) ∧
    ∀ srv, srv ∈ cl.access_coms ↔ Uses cfg.cp cl.phase srv
  first : ∀ g todo ret, cl.phase = .first g todo ret → ∀ k ∈ todo, k ∈ g.keys
  second : ∀ g v todo ret, cl.phase = .second g v todo ret → ∀ k ∈ todo, k ∈ g.keys

theorem insert_com_nodup {S : Type} [DecidableEq S] {coms : List S} (h : coms.Nodup) (com : S) :
    (insert_com coms com).Nodup := by
  unfold insert_com
  split
  · exact h
  · rename_i hn
    exact List.nodup_cons.mpr ⟨hn, h⟩

theorem mem_insert_com {S : Type} [DecidableEq S] {coms : List S} {com c : S} :
    c ∈ insert_com coms com ↔ c = com ∨ c ∈ coms := by
  unfold insert_com
  split
  · rename_i hm
    constructor
    · exact .inr
    · rintro (rfl | h)
      · exact hm
      · exact h
  · exact List.mem_cons

/-- A client whose connections are in use only where they were, and at servers of its keys. -/
theorem conns_uses {conns : cfg.cp.Server → Conn} {ph : Phase cfg.cp.Server} (h : ∀ srv, conns srv ≠ .quiet → Uses cfg.cp ph srv)
    {srv : cfg.cp.Server} {x : Conn} (hx : x ≠ .quiet → Uses cfg.cp ph srv) (srv' : cfg.cp.Server)
    (hb : Function.update conns srv x srv' ≠ .quiet) : Uses cfg.cp ph srv' := by
  by_cases e : srv' = srv
  · subst e
    rw [Function.update_self] at hb
    exact hx hb
  · rw [Function.update_of_ne e] at hb
    exact h srv' hb

theorem local_idle {cl : Client cfg.cp.Server} (h : cl.phase = .idle) (hq : cl.AllQuiet) : Local cl where
  conns srv hb := absurd (hq srv) hb
  preparing p todo hp := by rw [h] at hp; cases hp
  committing p todo hp := by rw [h] at hp; cases hp
  first g todo ret hp := by rw [h] at hp; cases hp
  second g v todo ret hp := by rw [h] at hp; cases hp

theorem local_first {cl : Client cfg.cp.Server} {g : GetAll} {todo : List Key} {ret : Ret} (h : cl.phase = .first g todo ret)
    (hk : ∀ k ∈ todo, k ∈ g.keys) (hc : ∀ srv, cl.conns srv ≠ .quiet → ∃ k ∈ g.keys, cfg.cp.get k = srv) : Local cl where
  conns srv hb := by rw [h]; exact hc srv hb
  preparing p todo hp := by rw [h] at hp; cases hp
  committing p todo hp := by rw [h] at hp; cases hp
  first g todo ret hp := by rw [h] at hp; cases hp; exact hk
  second g v todo ret hp := by rw [h] at hp; cases hp

theorem local_second {cl : Client cfg.cp.Server} {g : GetAll} {v : Versions} {todo : List Key} {ret : Ret}
    (h : cl.phase = .second g v todo ret) (hk : ∀ k ∈ todo, k ∈ g.keys)
    (hc : ∀ srv, cl.conns srv ≠ .quiet → ∃ k ∈ g.keys, cfg.cp.get k = srv) : Local cl where
  conns srv hb := by rw [h]; exact hc srv hb
  preparing p todo hp := by rw [h] at hp; cases hp
  committing p todo hp := by rw [h] at hp; cases hp
  first g todo ret hp := by rw [h] at hp; cases hp
  second g v todo ret hp := by rw [h] at hp; cases hp; exact hk

/-- Only the connections change, and none comes into use. -/
theorem Local.put_conn {cl : Client cfg.cp.Server} (h : Local cl) {srv : cfg.cp.Server} {x : Conn}
    (hx : x ≠ .quiet → cl.conns srv ≠ .quiet) : Local (cl.put_conn srv x) :=
  ⟨conns_uses h.conns fun hne => h.conns srv (hx hne), h.preparing, h.committing, h.first, h.second⟩

theorem local_ask {C : Codec} {ac : Bool} {t : Table} {fuel : Nat} {key : Key} {ret ret' : Ret} {g : GetAll} {todo : List Key}
    {cl cl' : Client cfg.cp.Server} (hl : Local cl) (hp : cl.phase = .first g todo ret) (hk : key ∈ todo)
    (h : cl.ask C ac t fuel key ret = some (cl', ret')) :
    Local ({ cl' with phase := .first g (todo.erase key) ret' } : Client cfg.cp.Server) := by
  have hkeys := hl.first g todo ret hp
  have hc := hl.conns
  rw [hp] at hc
  have herase : ∀ k ∈ todo.erase key, k ∈ g.keys := fun k hm => hkeys k (List.mem_of_mem_erase hm)
  have hsent : ∀ r, Local ({ cl.send key r with phase := .first g (todo.erase key) ret' } : Client cfg.cp.Server) :=
    fun r => local_first rfl herase (conns_uses hc fun _ => ⟨key, hkeys key hk, rfl⟩)
  unfold Client.ask at h
  split at h
  · split at h
    · cases h
      exact hsent _
    · split at h
      · cases h
      · split at h <;> cases h
        · exact hsent _
        · exact local_first rfl herase hc
  · cases h
    exact hsent _

theorem local_step {s s' : State cfg} {a : Act cfg} (hi : Inv s) (hl : ∀ c, Local (s.clients c)) (ha : Cleared s a)
    (h : step s a = some s') : ∀ c, Local (s'.clients c) := by
  -- only the client of the step has changed
  suffices hc : Local (s'.clients a.client) by
    intro c
    by_cases e : a.client = c
    · exact e ▸ hc
    · rw [step_other h e]
      exact hl c
  have self : ∀ {c : Nat} {cl : Client cfg.cp.Server}, Local cl → Local ((s.set c cl).clients c) := by
    intro c cl h
    simpa only [State.set, Function.update_self] using h
  have quiet : ∀ {c : Nat}, (s.clients c).phase = .idle → (s.clients c).AllQuiet := by
    intro c hp
    have := (hi.clients c).phase
    rwa [hp] at this
  cases step_took h with
  | @put_all c trx ts hp =>
    have ha : (s.clients c).access_coms = [] := ha
    refine self ⟨fun srv hb => absurd (quiet hp srv) hb, fun p todo he => ?_, fun p todo he => (by cases he),
      fun g todo ret he => (by cases he), fun g v todo ret he => (by cases he)⟩
    cases he
    show (s.clients c).access_coms.Nodup ∧ _ ∧ (∀ srv ∈ (s.clients c).access_coms, _) ∧ _
    rw [ha]
    exact ⟨List.nodup_nil, fun i hi => hi, fun srv hs => (by cases hs), fun i hi => .inl hi⟩
  | @prepare c item p todo hp hk hq =>
    obtain ⟨h1, h2, h3, h4⟩ := (hl c).preparing p todo hp
    have hc := (hl c).conns
    rw [hp] at hc h3
    have hu : Uses cfg.cp (.preparing p todo) (cfg.cp.get item.key) := ⟨item, h2 item hk, rfl⟩
    refine self ⟨conns_uses hc fun _ => hu, fun p' todo' he => ?_, fun p todo he => (by cases he),
      fun g todo ret he => (by cases he), fun g v todo ret he => (by cases he)⟩
    cases he
    refine ⟨insert_com_nodup h1 _, fun i hi => h2 i (List.mem_of_mem_erase hi), fun srv hs => ?_, fun i hi => ?_⟩
    · rcases mem_insert_com.mp hs with rfl | hs
      · exact hu
      · exact h3 srv hs
    · by_cases e : i = item
      · exact .inr (mem_insert_com.mpr (.inl (by rw [e])))
      · exact (h4 i hi).imp (List.mem_erase_of_ne e).mpr fun hm => mem_insert_com.mpr (.inr hm)
  | @begin_commit c p hp hq =>
    obtain ⟨h1, h2, h3, h4⟩ := (hl c).preparing p [] hp
    rw [hp] at h3
    refine self (c := c) ⟨fun srv hb => absurd (hq srv) hb, fun p todo he => (by cases he), fun p' todo he => ?_,
      fun g todo ret he => (by cases he), fun g v todo ret he => (by cases he)⟩
    cases he
    refine ⟨h1, fun srv hs => hs, fun srv => ⟨h3 srv, ?_⟩⟩
    rintro ⟨i, hi, rfl⟩
    rcases h4 i hi with hm | hm
    · cases hm
    · exact hm
  | @commit c srv p todo hp hk hq =>
    obtain ⟨h1, h2, h3⟩ := (hl c).committing p todo hp
    have hc := (hl c).conns
    rw [hp] at hc h3
    refine self ⟨conns_uses hc fun _ => (h3 srv).mp (h2 srv hk), fun p todo he => (by cases he), fun p' todo' he => ?_,
      fun g todo ret he => (by cases he), fun g v todo ret he => (by cases he)⟩
    cases he
    exact ⟨h1, fun srv hs => h2 srv (List.mem_of_mem_erase hs), h3⟩
  | @put_return c p hp hq => exact self (c := c) (local_idle rfl hq)
  | @get_all c trx hp => exact self (c := c) (local_first rfl (fun k hk => hk) fun srv hb => absurd (quiet hp srv) hb)
  | @ask c fuel key g todo ret ret' cl hp hk hq hask => exact self (local_ask (hl c) hp hk hask)
  | @check c g ret hp hq => exact self (c := c) (local_second rfl (fun k hk => hk) fun srv hb => absurd (hq srv) hb)
  | @skip c key g v todo ret hp hk =>
    have hc := (hl c).conns
    rw [hp] at hc
    exact self (c := c) (local_second rfl (fun k hm => (hl c).second g v todo ret hp k (List.mem_of_mem_erase hm)) hc)
  | @fetch c key g v todo ret hp hk hq =>
    have hkeys := (hl c).second g v todo ret hp
    have hc := (hl c).conns
    rw [hp] at hc
    exact self (local_second rfl (fun k hm => hkeys k (List.mem_of_mem_erase hm))
      (conns_uses hc fun _ => ⟨key, hkeys key hk, rfl⟩))
  | @get_return c g v ret hp hq => exact self (c := c) (local_idle rfl hq)
  | @recv_put c srv r a hx => exact self ((hl c).put_conn fun hne => absurd rfl hne)
  | @recv_first c srv r a g todo ret ret' addrs hx hp =>
    have hq : Local ((s.clients c).put_conn srv .quiet) := (hl c).put_conn fun hne => absurd rfl hne
    have hq := hq.conns
    simp only [Client.put_conn, hp] at hq
    exact self (local_first rfl ((hl c).first g todo ret hp) hq)
  | @recv_second c srv r a g v todo ret ret' hx hp =>
    have hq : Local ((s.clients c).put_conn srv .quiet) := (hl c).put_conn fun hne => absurd rfl hne
    have hq := hq.conns
    simp only [Client.put_conn, hp] at hq
    exact self (local_second rfl ((hl c).second g v todo ret hp) hq)
  | @clear c hp => exact self (c := c) (local_idle hp (quiet hp))
  | @serve c srv t x hs =>
    refine self ((hl c).put_conn fun _ hq => ?_)
    rw [hq] at hs
    cases hs

/-- The connections in use are those of the transaction's own servers; a COMMIT goes to
    each server of a key written, once. -/
theorem partition_independence {s : State cfg} (h : Reach step Cleared {} s) (c : Nat) :
    (∀ srv, (s.clients c).conns srv ≠ .quiet → Uses cfg.cp (s.clients c).phase srv) ∧
    ∀ p todo, (s.clients c).phase = .committing p todo →
      (s.clients c).access_coms.Nodup ∧ ∀ srv, srv ∈ (s.clients c).access_coms ↔ ∃ i ∈ p.items, cfg.cp.get i.key = srv := by
  have hl : Inv s ∧ ∀ c, Local (s.clients c) := by
    refine h.inv (fun s => Inv s ∧ ∀ c, Local (s.clients c)) ⟨inv .init, fun c => local_idle rfl fun srv => rfl⟩ ?_
    intro s a s' hs ha hst
    exact ⟨inv_step hs.1 (step_cases hst), local_step hs.1 hs.2 ha hst⟩
  refine ⟨(hl.2 c).conns, fun p todo hp => ?_⟩
  obtain ⟨h1, -, h3⟩ := (hl.2 c).committing p todo hp
  rw [hp] at h3
  exact ⟨h1, h3⟩

/-- `"x"` has a server of its own. -/
abbrev halves : Config := ⟨⟨2, fun k => if k = "x" then 0 else 1, Nat.two_pos⟩, Wire.msgpack, fun _ => false⟩

/-- A COMMIT of a write of `"x"` on its way. -/
theorem partition_independence_committing : ∃ s : State halves, Reach step Cleared {} s ∧
    (s.clients 0).conns (halves.cp.get "x") ≠ .quiet ∧ (s.clients 0).conns (halves.cp.get "y") = .quiet ∧
    Uses halves.cp (s.clients 0).phase (halves.cp.get "x") := by
  obtain ⟨s, hs, hq⟩ := reach_any (show (Machine.exec step Cleared ({} : State halves)
    [.put_all 0 (({} : Transaction).add_write "x" ∅) ⟨1, 0⟩,
      .prepare 0 ⟨"x", ∅, ⟨1, 0⟩, ({} : OrdSet Key).insert "x"⟩,
      .serve 0 (halves.cp.get "x"), .serve 0 (halves.cp.get "x"), .recv 0 (halves.cp.get "x"), .begin_commit 0,
      .commit 0 (halves.cp.get "x")]).any
    (fun s => decide ((s.clients 0).conns (halves.cp.get "x") ≠ .quiet ∧ (s.clients 0).conns (halves.cp.get "y") = .quiet)) =
      true by decide +kernel)
  obtain ⟨h1, h2⟩ := of_decide_eq_true hq
  exact ⟨s, hs, h1, h2, (partition_independence hs 0).1 _ h1⟩

/-! ## (2) No server ends -/

/-- The keys of `ks` that the server holds. -/
def keysOf (cp : ConnectionPool) (ks : Finset Key) (srv : cp.Server) : Finset Key := ks.filter fun k => cp.get k = srv

/-- The transaction's keys are among `ks`, and its versions fit a slot. -/
def Within (ks : Finset Key) (_ : State cfg) : Act cfg → Prop
  | .put_all c trx ts => ∀ i ∈ PutAll.items ⟨c, trx, ts⟩, i.key ∈ ks ∧ Entry.Fits cfg.C i
  | .get_all _ trx => ∀ k ∈ trx.read_set.keys, k ∈ ks
  | _ => True

instance (ks : Finset Key) : ∀ (s : State cfg) (a : Act cfg), Decidable (Within ks s a)
  | _, .put_all c trx ts =>
    inferInstanceAs (Decidable (∀ i ∈ PutAll.items ⟨c, trx, ts⟩, i.key ∈ ks ∧ Entry.Fits cfg.C i))
  | _, .get_all _ trx => inferInstanceAs (Decidable (∀ k ∈ trx.read_set.keys, k ∈ ks))
  | _, .prepare _ _ | _, .begin_commit _ | _, .commit _ _ | _, .put_return _ | _, .ask _ _ _ | _, .check _ | _, .skip _ _
  | _, .fetch _ _ | _, .get_return _ | _, .recv _ _ | _, .clear _ | _, .serve _ _ => inferInstanceAs (Decidable True)

/-- A cache that only keys of `S` have a slot of, and no key a null pointer. -/
structure Pooled (S : Finset Key) (c : CommittedItems) : Prop where
  conserved : CommittedItems.Conserved ENTRY_NUM c
  named : ∀ k b, c.entries.find k = some b → k ∈ S
  bound : ∀ k, c.entries.find k ≠ some none

theorem pooled_init (S : Finset Key) : Pooled S (.init ENTRY_NUM) where
  conserved := CommittedItems.conserved_init _
  named k b h := by cases h
  bound k h := by cases h

section
variable {S : Finset Key} {c c' : CommittedItems} {key : Key}

/-- One slot for each key is enough. -/
theorem Pooled.slot_left (h : Pooled S c) (hS : S.card ≤ ENTRY_NUM) (hk : key ∈ S) (hn : c.entries.find key = none) :
    c.unused_entries ≠ [] := by
  intro hu
  -- every slot is bound, to a key of its own other than `key`
  have hb : ∀ i : Fin ENTRY_NUM, ∃ k, c.Bound k (i.val * ENTRY_SIZE) := by
    intro i
    rcases h.conserved.all i.val i.isLt with hm | hk
    · rw [hu] at hm
      cases hm
    · exact hk
  choose f hf using hb
  have hmaps : ∀ i ∈ Finset.univ, f i ∈ S.erase key := by
    intro i _
    refine Finset.mem_erase.mpr ⟨?_, h.named _ _ (hf i)⟩
    rintro rfl
    have := hf i
    rw [CommittedItems.Bound, hn] at this
    cases this
  have hinj : Set.InjOn f (Finset.univ : Finset (Fin ENTRY_NUM)) := by
    intro i _ j _ e
    have hi := hf i
    rw [e, CommittedItems.Bound, hf j] at hi
    have : j.val * ENTRY_SIZE = i.val * ENTRY_SIZE := by simpa using hi
    exact Fin.ext (Nat.eq_of_mul_eq_mul_right (by decide) this.symm)
  have hle := Finset.card_le_card_of_injOn f hmaps hinj
  rw [Finset.card_erase_of_mem hk, Finset.card_univ, Fintype.card_fin] at hle
  have hpos : 0 < S.card := Finset.card_pos.mpr ⟨key, hk⟩
  omega

theorem Pooled.did (h : Pooled S c) (hS : S.card ≤ ENTRY_NUM) (hd : CommittedItems.Did c key c')
    (hk : c.entries.find key = none → key ∈ S) : Pooled S c' := by
  refine ⟨hd.conserved h.conserved, fun k b hb => ?_, fun k hb => ?_⟩
  · cases hd with
    | nothing => exact h.named k b hb
    | write _ _ => exact h.named k b hb
    | take hn _ _ =>
      by_cases e : k = key
      · exact e ▸ hk hn
      · exact h.named k b ((ConcurrentMap.find_set_ne _ _ e).symm.trans hb)
    | null hn hu => exact absurd hu (h.slot_left hS (hk hn) hn)
  · cases hd with
    | nothing => exact h.bound k hb
    | write _ _ => exact h.bound k hb
    | take hn _ _ =>
      by_cases e : k = key
      · subst e
        rw [ConcurrentMap.find_set_same] at hb
        cases hb
      · exact h.bound k ((ConcurrentMap.find_set_ne _ _ e).symm.trans hb)
    | null hn hu => exact absurd hu (h.slot_left hS (hk hn) hn)

/-- Where an executor can bind a key, the key is one of the server's. -/
structure MayBind (C : Codec) (S : Finset Key) (x : Conn) : Prop where
  pushed : ∀ item, x = .pushed item → item.key ∈ S
  looked : ∀ k ts item, x = .looked k ts item → k ∈ S ∧ Entry.Fits C (.of_key k)
  walking : ∀ ts item rest, x = .walking ts (item :: rest) → Entry.Fits C item

theorem serve_pooled {C : Codec} {t t' : Table} {x x' : Conn} (h : serve C t x = some (t', x')) (hp : Pooled S t.committed_items)
    (hS : S.card ≤ ENTRY_NUM) (hx : MayBind C S x) : Pooled S t'.committed_items := by
  unfold serve at h
  split at h
  · cases h; exact hp
  · rename_i item
    split at h <;> cases h
    rename_i c hc
    exact hp.did hS (CommittedItems.call_cases (C := C) (x := .invalidate item.key) hc) fun _ => hx.pushed item rfl
  · cases h; exact hp
  · rename_i ts item rest
    split at h <;> cases h
    rename_i hcom
    rw [Table.commit_item_eq] at hcom
    split at hcom
    · obtain ⟨c, hc, hcom⟩ := bind_ok.mp hcom
      cases hcom
      rcases hn : t.committed_items.entries.find item.key with _ | b
      · -- an unbound key is not updated
        simp only [CommittedItems.update, hn] at hc
        cases hc
        exact hp
      · exact hp.did hS (CommittedItems.call_cases (x := .update item) hc) fun h0 => by
          rw [show t.committed_items.entries.find item.key = none from h0] at hn
          cases hn
    · cases hcom
      exact hp
  · cases h; exact hp
  · split at h <;> cases h <;> exact hp
  · cases h; exact hp
  · rename_i key ts item
    split at h <;> cases h
    rename_i addr hget
    obtain ⟨⟨c, addr'⟩, hg, hget⟩ := bind_ok.mp hget
    cases hget
    exact hp.did hS (CommittedItems.get_item_addr_did hg).1 fun _ => (hx.looked key ts item rfl).1
  · cases h
  · cases h

theorem serve_some {C : Codec} {t : Table} {x : Conn} (hp : Pooled S t.committed_items) (hS : S.card ≤ ENTRY_NUM)
    (hx : MayBind C S x) (hq : x ≠ .quiet) (ha : ∀ r a, x ≠ .answered r a) : (serve C t x).isSome = true := by
  rcases x with _ | ⟨_ | _ | ⟨key, ts⟩ | _⟩ | item | ⟨ts, _ | ⟨item, rest⟩⟩ | ⟨key, ts, item⟩ | ⟨r, a⟩
  case quiet => exact absurd rfl hq
  case answered => exact absurd rfl (ha r a)
  case asked.GET =>
    simp only [serve]
    split <;> rfl
  case pushed =>
    rcases hb : t.committed_items.entries.find item.key with _ | _ | e
    · rcases hu : t.committed_items.unused_entries with _ | ⟨e, q⟩ <;> simp only [serve, CommittedItems.invalidate, hb, hu] <;> rfl
    · exact absurd hb (hp.bound _)
    · simp only [serve, CommittedItems.invalidate, hb]
      rfl
  case walking.cons =>
    have hf := hx.walking ts item rest rfl
    simp only [serve, Table.commit_item_eq]
    split
    · rfl
    · rename_i e he
      split at he
      · rcases hb : t.committed_items.entries.find item.key with _ | _ | e
        · simp only [CommittedItems.update, hb, bind, Except.bind] at he
          cases he
        · exact absurd hb (hp.bound _)
        · simp only [CommittedItems.update, hb, Entry.update_ok C hf, bind, Except.bind, pure, Except.pure] at he
          cases he
      · cases he
  case looked =>
    obtain ⟨hk, hf⟩ := hx.looked key ts item rfl
    rcases hb : t.committed_items.entries.find key with _ | _ | e
    · rcases hu : t.committed_items.unused_entries with _ | ⟨e, q⟩
      · exact absurd hu (hp.slot_left hS hk hb)
      · simp only [serve, Table.get_item_addr, CommittedItems.get_item_addr, hb, hu, Entry.update_ok C hf, bind, Except.bind, pure,
          Except.pure, ConcurrentMap.find_set_same]
        rfl
    · exact absurd hb (hp.bound _)
    · simp only [serve, Table.get_item_addr, CommittedItems.get_item_addr, hb, bind, Except.bind, pure, Except.pure]
      rfl
  all_goals rfl

end

structure Sound (ks : Finset Key) (s : State cfg) : Prop where
  puts : ∀ p ∈ s.puts, ∀ i ∈ p.items, i.key ∈ ks ∧ Entry.Fits cfg.C i
  pools : ∀ srv, Pooled (keysOf cfg.cp ks srv) (s.tables srv).committed_items
  todo : ∀ c g todo ret, (s.clients c).phase = .first g todo ret → ∀ k ∈ todo, k ∈ ks
  asked : ∀ c srv k ts, ((s.clients c).conns srv).req = some (.GET_WITH_ADDR k ts) → k ∈ ks

variable {ks : Finset Key} {s s' : State cfg}

theorem Sound.mayBind (hs : Sound ks s) (hi : Inv s) (hf : ∀ k ∈ ks, Entry.Fits cfg.C (.of_key k)) (c : Nat)
    (srv : cfg.cp.Server) : MayBind cfg.C (keysOf cfg.cp ks srv) ((s.clients c).conns srv) := by
  have written : ∀ i, Written s.puts i → i.key ∈ ks ∧ Entry.Fits cfg.C i := fun i ⟨p, hp, hm⟩ => hs.puts p hp i hm
  refine ⟨fun item hx => ?_, fun k ts item hx => ?_, fun ts item rest hx => ?_⟩
  · obtain ⟨hw, hk⟩ : Written s.puts item ∧ cfg.cp.get item.key = srv := (hi.clients c).reqOk (r := .PREPARE item) (by rw [hx]; rfl)
    exact Finset.mem_filter.mpr ⟨(written item hw).1, hk⟩
  · have hr : ((s.clients c).conns srv).req = some (.GET_WITH_ADDR k ts) := by rw [hx]; rfl
    have hk := hs.asked c srv k ts hr
    exact ⟨Finset.mem_filter.mpr ⟨hk, (hi.clients c).reqOk hr⟩, hf k hk⟩
  · have hok := (hi.clients c).conns srv
    rw [hx] at hok
    exact (written item ((hi.tables srv).versions ts item (hok item List.mem_cons_self)).2.1).2

/-- A step of client `c` that touches no table. -/
theorem Sound.client (hs : Sound ks s) {c : Nat} {cl : Client cfg.cp.Server} {puts prepared returned : List PutAll}
    {gets : List (GetAll × Ret)} (hp : ∀ p ∈ puts, ∀ i ∈ p.items, i.key ∈ ks ∧ Entry.Fits cfg.C i)
    (ht : ∀ g todo ret, cl.phase = .first g todo ret → ∀ k ∈ todo, k ∈ ks)
    (ha : ∀ srv k ts, (cl.conns srv).req = some (.GET_WITH_ADDR k ts) → k ∈ ks) :
    Sound ks (⟨s.tables, Function.update s.clients c cl, puts, prepared, returned, gets⟩ : State cfg) := by
  refine ⟨hp, hs.pools, fun c' g todo ret h => ?_, fun c' srv k ts h => ?_⟩
  · by_cases e : c' = c
    · subst e
      exact ht g todo ret (by simpa using h)
    · exact hs.todo c' g todo ret (by simpa [e] using h)
  · by_cases e : c' = c
    · subst e
      exact ha srv k ts (by simpa using h)
    · exact hs.asked c' srv k ts (by simpa [e] using h)

/-- One request more. -/
theorem Sound.ask (hs : Sound ks s) {c : Nat} {srv : cfg.cp.Server} {x : Conn}
    (hx : ∀ k ts, x.req = some (.GET_WITH_ADDR k ts) → k ∈ ks) (srv' : cfg.cp.Server) (k : Key) (ts : Timestamp)
    (h : (Function.update (s.clients c).conns srv x srv').req = some (.GET_WITH_ADDR k ts)) : k ∈ ks :=
  reqs_update (Q := fun _ r => ∀ k ts, r = .GET_WITH_ADDR k ts → k ∈ ks)
    (fun srv _ hr k ts e => hs.asked c srv k ts (e ▸ hr)) (fun _ hr k ts e => hx k ts (e ▸ hr)) srv' _ h k ts rfl

theorem sound_step (hi : Inv s) (hs : Sound ks s) (hS : ∀ srv, (keysOf cfg.cp ks srv).card ≤ ENTRY_NUM)
    (hf : ∀ k ∈ ks, Entry.Fits cfg.C (.of_key k)) {a : Act cfg} (ha : Within ks s a) (h : step s a = some s') : Sound ks s' := by
  cases step_took h with
  | @put_all c trx ts hp =>
    refine hs.client (fun p hm => ?_) (fun g todo ret he => (by cases he)) (hs.asked c)
    rcases List.mem_cons.mp hm with rfl | hm
    · exact ha
    · exact hs.puts p hm
  | @prepare c item p todo hp hk hq =>
    exact hs.client hs.puts (fun g todo ret he => (by cases he)) (hs.ask fun k ts he => (by cases he))
  | @begin_commit c p hp hq => exact hs.client hs.puts (fun g todo ret he => (by cases he)) (hs.asked c)
  | @commit c srv p todo hp hk hq =>
    exact hs.client hs.puts (fun g todo ret he => (by cases he)) (hs.ask fun k ts he => (by cases he))
  | @put_return c p hp hq => exact hs.client hs.puts (fun g todo ret he => (by cases he)) (hs.asked c)
  | @get_all c trx hp =>
    refine hs.client hs.puts (fun g todo ret he => ?_) (hs.asked c)
    cases he
    exact ha
  | @ask c fuel key g todo ret ret' cl hp hk hq hask =>
    have hkeys := hs.todo c g todo ret hp
    have herase : ∀ g' todo' ret0, Phase.first g (todo.erase key) ret' = (.first g' todo' ret0 : Phase cfg.cp.Server) →
        ∀ k ∈ todo', k ∈ ks := by
      intro g' todo' ret0 he k hm
      cases he
      exact hkeys k (List.mem_of_mem_erase hm)
    unfold Client.ask at hask
    split at hask
    · split at hask
      · cases hask
        refine hs.client hs.puts herase (hs.ask fun k ts he => ?_)
        cases he
        exact hkeys key hk
      · split at hask
        · cases hask
        · split at hask <;> cases hask
          · refine hs.client hs.puts herase (hs.ask fun k ts he => ?_)
            cases he
            exact hkeys key hk
          · exact hs.client hs.puts herase (hs.asked c)
    · cases hask
      exact hs.client hs.puts herase (hs.ask fun k ts he => (by cases he))
  | @check c g ret hp hq => exact hs.client hs.puts (fun g todo ret he => (by cases he)) (hs.asked c)
  | @skip c key g v todo ret hp hk => exact hs.client hs.puts (fun g todo ret he => (by cases he)) (hs.asked c)
  | @fetch c key g v todo ret hp hk hq =>
    exact hs.client hs.puts (fun g todo ret he => (by cases he)) (hs.ask fun k ts he => (by cases he))
  | @get_return c g v ret hp hq => exact hs.client hs.puts (fun g todo ret he => (by cases he)) (hs.asked c)
  | @recv_put c srv r a hx => exact hs.client hs.puts (hs.todo c) (hs.ask fun k ts he => (by cases he))
  | @recv_first c srv r a g todo ret ret' addrs hx hp =>
    refine hs.client hs.puts (fun g' todo' ret0 he => ?_) (hs.ask fun k ts he => (by cases he))
    cases he
    exact hs.todo c g todo ret hp
  | @recv_second c srv r a g v todo ret ret' hx hp =>
    exact hs.client hs.puts (fun g todo ret he => (by cases he)) (hs.ask fun k ts he => (by cases he))
  | @clear c hp => exact hs.client hs.puts (hs.todo c) (hs.asked c)
  | @serve c srv t x hx =>
    have hcl : Sound ks (s.set c ((s.clients c).put_conn srv x)) :=
      hs.client hs.puts (hs.todo c) (hs.ask fun k ts he => hs.asked c srv k ts (by rw [← serve_req hx]; exact he))
    refine ⟨hcl.puts, fun srv' => ?_, hcl.todo, hcl.asked⟩
    show Pooled _ (Function.update s.tables srv t srv').committed_items
    by_cases e : srv' = srv
    · subst e
      rw [Function.update_self]
      exact serve_pooled hx (hs.pools srv') (hS srv') (hs.mayBind hi hf c srv')
    · rw [Function.update_of_ne e]
      exact hs.pools srv'

/-- No server process ends, and a RAMP-Fast client always has a step; the calls of a server's
    `CommittedItems` do not overlap here (`serve`). -/
theorem no_server_ends (hS : ∀ srv, (keysOf cfg.cp ks srv).card ≤ ENTRY_NUM) (hf : ∀ k ∈ ks, Entry.Fits cfg.C (.of_key k))
    (h : Reach step (Within ks) {} s) :
    (∀ srv, ¬ Dead s srv) ∧
    ∀ c, cfg.ac c = false → (s.clients c).phase = .idle ∨ ∃ a s', Own c a ∧ step s a = some s' := by
  have hs : Inv s ∧ Sound ks s := by
    refine h.inv (fun s => Inv s ∧ Sound ks s) ⟨inv .init, ?_⟩ fun s a s' hs ha hst =>
      ⟨inv_step hs.1 (step_cases hst), sound_step hs.1 hs.2 hS hf ha hst⟩
    exact ⟨fun p hp => (by cases hp), fun srv => pooled_init _, fun c g todo ret he => (by cases he),
      fun c srv k ts he => (by cases he)⟩
  have hdead : ∀ srv, ¬ Dead s srv := by
    rintro srv ⟨c, r, hr, ha, hn⟩
    have hq : (s.clients c).conns srv ≠ .quiet := by
      intro hq
      rw [hq] at hr
      cases hr
    have hsome := serve_some (hs.2.pools srv) (hS srv) (hs.2.mayBind hs.1 hf c srv) hq fun r' a he => by
      rw [he] at hr
      cases hr
      exact ha a he
    rw [hn] at hsome
    cases hsome
  refine ⟨hdead, fun c hac => ?_⟩
  rcases can_go_on hs.1 c with h | (⟨srv, hd, -⟩ | ⟨g, todo, ret, key, addr, -, -, hac', -⟩) | h
  · exact .inl h
  · exact absurd hd (hdead srv)
  · rw [hac] at hac'
    cases hac'
  · exact .inr h

/-- One key, with its PREPARE in flight. -/
theorem no_server_ends_one : ∃ s : State halves, Reach step (Within {"x"}) {} s ∧ ¬ (s.clients 0).AllQuiet ∧
    ∀ srv, ¬ Dead s srv := by
  obtain ⟨s, hs, hq⟩ := reach_any (show (Machine.exec step (Within {"x"}) ({} : State halves)
    [.put_all 0 (({} : Transaction).add_write "x" ∅) ⟨1, 0⟩,
      .prepare 0 ⟨"x", ∅, ⟨1, 0⟩, ({} : OrdSet Key).insert "x"⟩]).any
    (fun s => decide (¬ (s.clients 0).AllQuiet)) = true by decide +kernel)
  refine ⟨s, hs, of_decide_eq_true hq, (no_server_ends (fun srv => ?_) (by decide +kernel) hs).1⟩
  calc (keysOf halves.cp {"x"} srv).card ≤ ({"x"} : Finset Key).card := Finset.card_filter_le _ _
    _ ≤ ENTRY_NUM := by decide

end RampRdma.Ramp
