/-
  RampRdma.Ramp.Remote — the memory that the one-sided reads of `ACRAMPFastHandler::get_all`
  touch: the region that `Server::start` puts into `Config::cache_addr` and `cache_size`.

  A client reads a whole slot at an address it has had from a GET_WITH_ADDR, whenever it
  likes and without asking the server again; the server meanwhile serves everybody else.
  - `serve_did`: what an executor does to the cache is one of the four things of `Did`.
  - `Region`: the slots are those of the region, whole and apart.
  - `remote_reads`: an address a client has is that of one slot inside the region, for ever
    that of its key, the same for all clients; and a read of it that ends gives -1 or a
    version of the key.

  A server's calls of `CommittedItems` each run to completion before the next, as in
  `Ramp.System`. Two `get_item_addr`s of one new key inside each other would hand out two
  addresses, of which only the later stays the key's.
-/

import Mathlib
import RampRdma.Ramp.Partitions

namespace RampRdma.Ramp

open Machine Runs

variable {cfg : Config}

/-- Every slot is one of the region's, and no two keys have the same. -/
structure Region (n : Nat) (c : CommittedItems) : Prop where
  conserved : CommittedItems.Conserved n c
  inside : ∀ e, (e ∈ c.unused_entries ∨ ∃ k, c.Bound k e) → e < n * ENTRY_SIZE

theorem region_init (n : Nat) : Region n (.init n) where
  conserved := CommittedItems.conserved_init n
  inside e h := by
    rcases h with h | ⟨k, h⟩
    · obtain ⟨i, hi, rfl⟩ := List.mem_map.mp h
      exact Nat.mul_lt_mul_of_pos_right (List.mem_range.mp hi) (by decide)
    · cases h

theorem Region.did {n : Nat} {c c' : CommittedItems} {key : Key} (h : Region n c) (hd : CommittedItems.Did c key c') : Region n c' := by
  refine ⟨hd.conserved h.conserved, fun e he => h.inside e ?_⟩
  cases hd with
  | nothing => exact he
  | write _ _ => exact he
  | @take e' q m hn hu hm =>
    have hq : ∀ x ∈ q, x ∈ c.unused_entries := fun x hx => by rw [hu]; exact List.mem_cons_of_mem _ hx
    rcases he with he | ⟨k, hk⟩
    · exact .inl (hq e he)
    · rcases CommittedItems.bound_set hk with ⟨-, h0⟩ | ⟨-, hk⟩
      · cases h0
        exact .inl (by rw [hu]; exact List.mem_cons_self)
      · exact .inr ⟨k, hk⟩
  | null hn hu =>
    rcases he with he | ⟨k, hk⟩
    · exact .inl he
    · rcases CommittedItems.bound_set hk with ⟨-, h0⟩ | ⟨-, hk⟩
      · cases h0
      · exact .inr ⟨k, hk⟩

theorem Region.slot {n : Nat} {c : CommittedItems} (h : Region n c) {k : Key} {e : Nat} (hb : c.Bound k e) :
    ∃ i < n, e = i * ENTRY_SIZE := by
  obtain ⟨i, rfl⟩ := h.conserved.aligned e (.inr ⟨k, hb⟩)
  have hlt := h.inside _ (.inr ⟨k, hb⟩)
  rw [Nat.mul_comm] at hlt ⊢
  exact ⟨i, Nat.lt_of_mul_lt_mul_right hlt, rfl⟩

theorem Region.apart {n : Nat} {c : CommittedItems} (h : Region n c) {k k' : Key} {e e' : Nat} (hb : c.Bound k e)
    (hb' : c.Bound k' e') (hne : k ≠ k') : e + ENTRY_SIZE ≤ e' ∨ e' + ENTRY_SIZE ≤ e := by
  obtain ⟨i, -, rfl⟩ := h.slot hb
  obtain ⟨j, -, rfl⟩ := h.slot hb'
  have hij : i ≠ j := by
    rintro rfl
    exact hne (h.conserved.injective k k' _ hb hb')
  simp only [ENTRY_SIZE]
  omega

/-! ## Executors -/

theorem serve_did {C : Codec} {t t' : Table} {x x' : Conn} (h : serve C t x = some (t', x')) :
    ∃ key, CommittedItems.Did t.committed_items key t'.committed_items := by
  unfold serve at h
  split at h
  · cases h
    exact ⟨"", .nothing⟩
  · rename_i item
    split at h <;> cases h
    rename_i c hc
    exact ⟨_, CommittedItems.call_cases (C := C) (x := .invalidate item.key) hc⟩
  · cases h
    exact ⟨"", .nothing⟩
  · rename_i ts item rest
    split at h <;> cases h
    rename_i hcom
    rw [Table.commit_item_eq] at hcom
    split at hcom
    · obtain ⟨c, hc, hcom⟩ := bind_ok.mp hcom
      cases hcom
      exact ⟨_, CommittedItems.call_cases (x := .update item) hc⟩
    · cases hcom
      exact ⟨"", .nothing⟩
  · cases h
    exact ⟨"", .nothing⟩
  · split at h <;> cases h <;> exact ⟨"", .nothing⟩
  · cases h
    exact ⟨"", .nothing⟩
  · rename_i key ts item
    split at h <;> cases h
    rename_i addr hget
    obtain ⟨⟨c, addr'⟩, hg, hget⟩ := bind_ok.mp hget
    cases hget
    exact ⟨_, (CommittedItems.get_item_addr_did hg).1⟩
  · cases h
  · cases h

/-- What a step does to the cache of a server. -/
theorem step_did {s s' : State cfg} {a : Act cfg} (h : step s a = some s') (srv : cfg.cp.Server) :
    ∃ key, CommittedItems.Did (s.tables srv).committed_items key (s'.tables srv).committed_items := by
  have same : s'.tables = s.tables →
      ∃ key, CommittedItems.Did (s.tables srv).committed_items key (s'.tables srv).committed_items := by
    intro e
    rw [e]
    exact ⟨"", .nothing⟩
  cases step_took h with
  | @serve c srv' t x hs =>
    show ∃ key, CommittedItems.Did _ key (Function.update s.tables srv' t srv).committed_items
    by_cases e : srv = srv'
    · subst e
      rw [Function.update_self]
      exact serve_did hs
    · rw [Function.update_of_ne e]
      exact ⟨"", .nothing⟩
  | put_all _ => exact same rfl
  | prepare _ _ _ => exact same rfl
  | begin_commit _ _ => exact same rfl
  | commit _ _ _ => exact same rfl
  | put_return _ _ => exact same rfl
  | get_all _ => exact same rfl
  | ask _ _ _ _ => exact same rfl
  | check _ _ => exact same rfl
  | skip _ _ => exact same rfl
  | fetch _ _ _ => exact same rfl
  | get_return _ _ => exact same rfl
  | recv_put _ => exact same rfl
  | recv_first _ _ => exact same rfl
  | recv_second _ _ => exact same rfl
  | clear _ => exact same rfl

theorem region {s : State cfg} (h : Reachable s) (srv : cfg.cp.Server) : Region ENTRY_NUM (s.tables srv).committed_items := by
  induction h with
  | init => exact region_init _
  | step _ hs ih =>
    obtain ⟨key, hd⟩ := step_did hs srv
    exact ih.did hd

/-! ## Addresses -/

/-- Any steps. -/
abbrev Later : State cfg → State cfg → Prop := Reach step fun _ _ => True

theorem Later.reachable {s s' : State cfg} (h : Later s s') (hs : Reachable s) : Reachable s' :=
  h.inv Reachable hs fun _ _ _ hs _ h => hs.step h

theorem Later.bound {s s' : State cfg} (h : Later s s') {srv : cfg.cp.Server} {k : Key} {e : Nat}
    (hb : (s.tables srv).committed_items.Bound k e) : (s'.tables srv).committed_items.Bound k e := by
  refine h.inv (fun s => (s.tables srv).committed_items.Bound k e) hb fun s a s' hb _ hs => ?_
  obtain ⟨key, hd⟩ := step_did hs srv
  exact hd.binding hb

/-- A client's addresses stay, or one of them is what an answer gives. -/
theorem step_addrs {s s' : State cfg} (h : Step s s') : ∃ c cl, s'.clients = Function.update s.clients c cl ∧
    (cl.addr_cache = (s.clients c).addr_cache ∨
      ∃ ret ret' r a, take_answer ret (s.clients c).addr_cache r a = some (ret', cl.addr_cache)) := by
  cases h with
  | recv_first hx hp ht => exact ⟨_, _, rfl, .inr ⟨_, _, _, _, ht⟩⟩
  | put_all _ _ => exact ⟨_, _, rfl, .inl rfl⟩
  | prepare _ _ _ => exact ⟨_, _, rfl, .inl rfl⟩
  | begin_commit _ _ => exact ⟨_, _, rfl, .inl rfl⟩
  | commit _ _ => exact ⟨_, _, rfl, .inl rfl⟩
  | put_return _ _ => exact ⟨_, _, rfl, .inl rfl⟩
  | get_all _ _ => exact ⟨_, _, rfl, .inl rfl⟩
  | ask _ _ _ _ => exact ⟨_, _, rfl, .inl rfl⟩
  | read _ _ _ _ _ _ => exact ⟨_, _, rfl, .inl rfl⟩
  | check _ _ => exact ⟨_, _, rfl, .inl rfl⟩
  | skip _ _ => exact ⟨_, _, rfl, .inl rfl⟩
  | fetch _ _ _ => exact ⟨_, _, rfl, .inl rfl⟩
  | get_return _ _ => exact ⟨_, _, rfl, .inl rfl⟩
  | recv_put _ _ _ => exact ⟨_, _, rfl, .inl rfl⟩
  | recv_second _ _ _ => exact ⟨_, _, rfl, .inl rfl⟩
  | clear _ => exact ⟨_, _, rfl, .inl rfl⟩
  | serve _ => exact ⟨_, _, rfl, .inl rfl⟩

theorem take_answer_addrs {ret ret' : Ret} {addrs addrs' : ConcurrentMap Key Nat} {r : Request} {a : Answer}
    (h : take_answer ret addrs r a = some (ret', addrs')) {k : Key} (hk : addrs.find k ≠ none) : addrs'.find k ≠ none := by
  unfold take_answer at h
  split at h <;> cases h
  · exact hk
  · rw [ConcurrentMap.find_set]
    split
    · simp
    · exact hk

/-- A client does not forget an address. -/
theorem step_addr {s s' : State cfg} (h : Step s s') {c : Nat} {k : Key} (hk : (s.clients c).addr_cache.find k ≠ none) :
    (s'.clients c).addr_cache.find k ≠ none := by
  obtain ⟨c', cl, hc, ha⟩ := step_addrs h
  rw [hc]
  by_cases e : c = c'
  · subst e
    rw [Function.update_self]
    rcases ha with ha | ⟨ret, ret', r, a, ha⟩
    · rwa [ha]
    · exact take_answer_addrs ha hk
  · rwa [Function.update_of_ne e]

/-- And what it has for a key is where the key's slot is. -/
theorem Later.addr {s s' : State cfg} (h : Later s s') (hs : Reachable s) {c : Nat} {k : Key} {e : Nat}
    (ha : (s.clients c).addr_cache.find k = some e) : (s'.clients c).addr_cache.find k = some e := by
  have hk : (s'.clients c).addr_cache.find k ≠ none :=
    h.inv (fun s => (s.clients c).addr_cache.find k ≠ none) (by rw [ha]; simp) fun _ _ _ hk _ hst => step_addr (step_cases hst) hk
  obtain ⟨e', he'⟩ := Option.ne_none_iff_exists'.mp hk
  have h1 := h.bound (((inv hs).clients c).addrs k e ha)
  have h2 := ((inv (h.reachable hs)).clients c).addrs k e' he'
  rw [show (s'.tables (cfg.cp.get k)).committed_items.entries.find k = some (some e) from h1] at h2
  rw [he']
  simpa using h2.symm

/-- A read that ends gives -1 and no item, or 0 and one. -/
theorem read_ends {C : Codec} {fuel : Nat} {m : Bytes.Mem} {r : Int} {item : Option Item}
    (h : RDMAWriteSocket.read C fuel m = some (r, item)) : r = -1 ∧ item = none ∨ r = 0 ∧ item ≠ none := by
  unfold RDMAWriteSocket.read at h
  obtain ⟨-, -, h⟩ := Option.bind_eq_some_iff.mp h
  dsimp only at h
  split at h
  · cases h
    exact .inl ⟨rfl, rfl⟩
  · obtain ⟨-, -, h⟩ := Option.bind_eq_some_iff.mp h
    split at h <;> cases h
    · exact .inr ⟨rfl, by simp⟩
    · exact .inl ⟨rfl, rfl⟩

/-- What the address in a client's cache stays, and what a read of it gives; the calls of a
    server's `CommittedItems` do not overlap here (`serve`). -/
theorem remote_reads {s : State cfg} (h : Reachable s) {c : Nat} {key : Key} {addr : Nat}
    (ha : (s.clients c).addr_cache.find key = some addr) :
    (∃ i < ENTRY_NUM, addr = i * ENTRY_SIZE) ∧
    (∀ s', Later s s' → (s'.clients c).addr_cache.find key = some addr ∧
      (s'.tables (cfg.cp.get key)).committed_items.Bound key addr ∧
      ∀ c' k addr', (s'.clients c').addr_cache.find k = some addr' → cfg.cp.get k = cfg.cp.get key →
        if k = key then addr' = addr else addr' + ENTRY_SIZE ≤ addr ∨ addr + ENTRY_SIZE ≤ addr') ∧
    ∀ fuel r item, RDMAWriteSocket.read cfg.C fuel
        (RDMAWriteSocket.contents (s.tables (cfg.cp.get key)).committed_items.mem addr) = some (r, item) →
      r = -1 ∧ item = none ∨ r = 0 ∧ ∃ i, item = some i ∧ i.key = key ∧ Seen s.puts s.prepared i := by
  have hb : (s.tables (cfg.cp.get key)).committed_items.Bound key addr := ((inv h).clients c).addrs key addr ha
  refine ⟨(region h _).slot hb, fun s' hs => ⟨hs.addr h ha, hs.bound hb, fun c' k addr' hk hsrv => ?_⟩, fun fuel r item hr => ?_⟩
  · have hs' := hs.reachable h
    have hb1 := hs.bound hb
    have hb2 : (s'.tables (cfg.cp.get key)).committed_items.Bound k addr' := hsrv ▸ ((inv hs').clients c').addrs k addr' hk
    split
    · rename_i e
      subst e
      have h1 : some (some addr) = some (some addr') := hb1.symm.trans hb2
      simpa using h1.symm
    · rename_i e
      exact (region hs' _).apart hb2 hb1 e
  · rcases read_ends hr with h0 | ⟨h0, -⟩
    · exact .inl h0
    · exact .inr ⟨h0, ((inv h).tables _).read_seen hb hr (by rw [h0]; decide)⟩

/-- An address had, and a read of it. -/
theorem remote_reads_one : ∃ s : State (one fun _ => true), Reachable s ∧ (s.clients 0).addr_cache.find "x" = some 0 ∧
    ∃ i < ENTRY_NUM, 0 = i * ENTRY_SIZE := by
  obtain ⟨s, hs, hq⟩ := exec_any (show (exec ({} : State (one fun _ => true))
    (.get_all 0 (({} : Transaction).add_read "x" ∅) :: asking 0 2 "x")).any
    (fun s => decide ((s.clients 0).addr_cache.find "x" = some 0)) = true by decide +kernel)
  have hq := of_decide_eq_true hq
  exact ⟨s, hs, hq, (remote_reads hs hq).1⟩

end RampRdma.Ramp
