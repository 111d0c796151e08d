/-
  RampRdma.Ramp.Visibility — what a `get_all` of the RAMP-Fast mode sees of the `put_all`s
  that returned before it started: nothing.

  `Table::commit(ts)` never advances `latest_commit` (`commit_latest`), and in this mode
  nothing else does, so a first-round GET is always answered with `Item()`, no second
  round asks for anything, and every `get_all` returns `Item()` for every key (`blank`).
  - `visibility_iff`: so a completed `get_all` has seen the writes of the `put_all`s
    before it exactly when they wrote none of its keys; and after a commit at `ts`, of any
    table, `latest_commit[k]` has reached `ts` exactly when it had before, and
    `get_latest_item` returns what it returned before.
  - `returned_put_unseen`: a `put_all` of "x", then a `get_all` of "x".
-/

import Mathlib
import RampRdma.Data
import RampRdma.Lib.Runs
import RampRdma.Ramp.Invariant
import RampRdma.Ramp.ReadAtomic
import RampRdma.Wire

namespace RampRdma

open Runs

/-! ## One commit -/

/-- A commit changes neither the versions nor the newest timestamps. -/
theorem commit_keeps {C : Codec} {t t' : Table} {ts : Timestamp} (h : t.commit C ts = .ok t') :
    t'.items = t.items ∧ ∀ k, t'.latest k = t.latest k := by
  rw [Table.commit_eq] at h
  refine run_inv (fun u : Table => u.items = t.items ∧ ∀ k, u.latest k = t.latest k) ?_ ⟨rfl, fun k => rfl⟩ h
  intro u item u' ⟨h1, h2⟩ hu
  have hst := commit_item_store hu
  refine ⟨?_, fun k => ?_⟩
  · rw [hst, Store.touch_items, h1]
  · rw [hst, Store.touch_latest, h2]

theorem commit_get_latest_item {C : Codec} {t t' : Table} {ts : Timestamp} (h : t.commit C ts = .ok t') (k : Key) :
    (t'.get_latest_item k).2 = (t.get_latest_item k).2 := by
  obtain ⟨hi, hl⟩ := commit_keeps h
  show t'.get_item_by_ver k (t'.latest k) = t.get_item_by_ver k (t.latest k)
  rw [hl, Store.get_item_by_ver_eq, Store.get_item_by_ver_eq, Store.versions_congr hi]

namespace Ramp

variable {cfg : Config}

/-! ## Every read is blank -/

/-- What a client has read, by its phase: `Item()`s. -/
def PhaseBlank (returned : List PutAll) (conns : cfg.cp.Server → Conn) : Phase cfg.cp.Server → Prop
  | .first g _ ret => g.after ⊆ returned ∧ (∀ k, ret.at k = .empty) ∧
    ∀ srv r, (conns srv).req = some r → ∃ k, r = .GET k .empty
  | .second g v _ ret => g.after ⊆ returned ∧ ∀ k, ret.at k = .empty ∧ v.at k = .empty
  | _ => True

structure ClientBlank (returned : List PutAll) (cl : Client cfg.cp.Server) : Prop where
  answers : ∀ srv k a, cl.conns srv = .answered (.GET k .empty) a → a = .RESULT .empty
  phase : PhaseBlank returned cl.conns cl.phase

structure Blank (s : State cfg) : Prop where
  latest : ∀ srv k, (s.tables srv).latest k = .empty
  returned : s.returned ⊆ s.prepared
  clients : ∀ c, ClientBlank s.returned (s.clients c)
  gets : ∀ g ret, (g, ret) ∈ s.gets → g.after ⊆ s.returned ∧ ∀ k, ret.at k = .empty

theorem ClientBlank.mono {returned returned' : List PutAll} (hr : returned ⊆ returned') {cl : Client cfg.cp.Server}
    (h : ClientBlank returned cl) : ClientBlank returned' cl := by
  refine ⟨h.answers, ?_⟩
  have hp := h.phase
  generalize cl.phase = ph at hp
  cases ph with
  | first g todo ret => exact ⟨List.Subset.trans hp.1 hr, hp.2⟩
  | second g v todo ret => exact ⟨List.Subset.trans hp.1 hr, hp.2⟩
  | _ => trivial

theorem v_latest_blank {ret : Ret} (h : ∀ k, ret.at k = .empty) (keys : List Key) (k : Key) :
    (v_latest ret keys).at k = .empty := by
  rcases v_latest_from ret keys k with h0 | ⟨x, -, hk, -⟩
  · exact h0
  · rw [h x] at hk
    exact absurd hk Std.ExtTreeSet.not_mem_empty

/-- `get_latest_item` finds nothing while nothing has advanced `latest_commit`. -/
theorem get_latest_item_blank {s : State cfg} (hi : Inv s) (hc : Clocks PutAll.ts s.puts) (hb : Blank s)
    (srv : cfg.cp.Server) (k : Key) :
    ((s.tables srv).get_latest_item k).2 = .empty := by
  show (s.tables srv).get_item_by_ver k ((s.tables srv).latest k) = .empty
  rw [hb.latest]
  rcases get_item_by_ver_cases (s.tables srv).toStore k .empty with ⟨hm, -⟩ | ⟨he, -⟩
  · obtain ⟨hts, ⟨p, hp, hip⟩, -⟩ := (hi.tables srv).versions _ _ hm
    have hpos := hc.positive p hp
    rw [← (mem_items.mp hip).2.1, hts] at hpos
    exact absurd hpos (lt_irrefl _)
  · exact he

theorem serve_blank {C : Codec} {t t' : Table} {x : Conn} {k : Key} {a : Answer}
    (h : serve C t x = some (t', .answered (.GET k .empty) a)) : a = .RESULT (t.get_latest_item k).2 := by
  unfold serve at h
  split at h
  · cases h
  · split at h <;> cases h
  · cases h
  · split at h <;> cases h
  · cases h
  · split at h
    · cases h; rfl
    · rename_i hne
      cases h
      exact absurd rfl hne
  · cases h
  · split at h <;> cases h
  · cases h
  · cases h

section
variable {s : State cfg} {c : Nat} {cl : Client cfg.cp.Server}

theorem conns_blank (h : ∀ srv k a, (s.clients c).conns srv = .answered (.GET k .empty) a → a = .RESULT .empty)
    (srv : cfg.cp.Server) (x : Conn) (hx : ∀ k a, x = .answered (.GET k .empty) a → a = .RESULT .empty) :
    ∀ srv' k a, Function.update (s.clients c).conns srv x srv' = .answered (.GET k .empty) a → a = .RESULT .empty := by
  intro srv' k a e
  by_cases es : srv' = srv
  · subst es
    rw [Function.update_self] at e
    exact hx k a e
  · rw [Function.update_of_ne es] at e
    exact h srv' k a e

/-- A step of one client. -/
theorem clients_blank (hb : Blank s) (h : ClientBlank s.returned cl) (c' : Nat) :
    ClientBlank s.returned (Function.update s.clients c cl c') := by
  by_cases e : c' = c
  · subst e
    rwa [Function.update_self]
  · rw [Function.update_of_ne e]
    exact hb.clients c'

end

/-- What a server answers has no version. -/
theorem blank_serve {s : State cfg} (hi : Inv s) (hc : Clocks PutAll.ts s.puts) (hb : Blank s) {c : Nat} {srv : cfg.cp.Server}
    {t : Table} {x : Conn} (hs : serve cfg.C (s.tables srv) ((s.clients c).conns srv) = some (t, x)) :
    Blank { s.set c ((s.clients c).put_conn srv x) with tables := Function.update s.tables srv t } := by
  obtain ⟨-, -, hl⟩ := serve_table hs
  have ha := conns_blank (hb.clients c).answers srv x fun k a e => by
    subst e
    rw [serve_blank hs, get_latest_item_blank hi hc hb]
  refine ⟨fun srv' k => ?_, hb.returned, clients_blank hb ⟨ha, ?_⟩, hb.gets⟩
  · show (Function.update s.tables srv t srv').latest k = .empty
    by_cases e : srv' = srv
    · subst e
      rw [Function.update_self, hl]
      exact hb.latest srv' k
    · rw [Function.update_of_ne e]
      exact hb.latest srv' k
  · have hph := (hb.clients c).phase
    show PhaseBlank s.returned (Function.update (s.clients c).conns srv x) (s.clients c).phase
    generalize (s.clients c).phase = ph at hph
    cases ph with
    | first g todo ret =>
      refine ⟨hph.1, hph.2.1, reqs_update hph.2.2 fun r hr => ?_⟩
      rw [serve_req hs] at hr
      exact hph.2.2 srv r hr
    | second g v todo ret => exact hph
    | _ => trivial

theorem blank_step {s s' : State cfg} (hf : ∀ c, cfg.ac c = false) (hi : Inv s) (hc : Clocks PutAll.ts s.puts) (hb : Blank s)
    (h : Step s s') : Blank s' := by
  cases h with
  | @put_all c p hpc hp => exact ⟨hb.latest, hb.returned, clients_blank hb ⟨(hb.clients c).answers, trivial⟩, hb.gets⟩
  | @prepare c item p todo hp hm hq =>
    have ha := conns_blank (hb.clients c).answers (cfg.cp.get item.key) (.asked (.PREPARE item)) fun k a e => by cases e
    exact ⟨hb.latest, hb.returned, clients_blank hb ⟨ha, trivial⟩, hb.gets⟩
  | @begin_commit c p hp hq =>
    exact ⟨hb.latest, List.Subset.trans hb.returned (List.subset_cons_self _ _),
      clients_blank hb ⟨(hb.clients c).answers, trivial⟩, hb.gets⟩
  | @commit c srv p todo hp hq =>
    have ha := conns_blank (hb.clients c).answers srv (.asked (.COMMIT p.ts)) fun k a e => by cases e
    exact ⟨hb.latest, hb.returned, clients_blank hb ⟨ha, trivial⟩, hb.gets⟩
  | @put_return c p hp hq =>
    have hph := (hi.clients c).phase
    rw [hp] at hph
    have hsub : s.returned ⊆ p :: s.returned := List.subset_cons_self _ _
    have hidle : ClientBlank s.returned ({ s.clients c with phase := .idle } : Client cfg.cp.Server) :=
      ⟨(hb.clients c).answers, trivial⟩
    refine ⟨hb.latest, List.cons_subset.mpr ⟨hph.1, hb.returned⟩, fun c' => (clients_blank hb hidle c').mono hsub,
      fun g ret hg => ?_⟩
    obtain ⟨h1, h2⟩ := hb.gets g ret hg
    exact ⟨List.Subset.trans h1 hsub, h2⟩
  | @get_all c g hg hp =>
    have hph := (hi.clients c).phase
    rw [hp] at hph
    refine ⟨hb.latest, hb.returned, clients_blank hb ⟨(hb.clients c).answers, hg ▸ List.Subset.refl _, fun k => rfl,
      fun srv r hr => ?_⟩, hb.gets⟩
    have hr : ((s.clients c).conns srv).req = some r := hr
    rw [hph srv] at hr
    cases hr
  | @ask c key g todo ret r hp hm hq hr =>
    have hph := (hb.clients c).phase
    rw [hp] at hph
    obtain ⟨hg, hret, hreq⟩ := hph
    have hr : r = .GET key .empty := by
      rcases hr with ⟨-, hr⟩ | ⟨hac, -⟩
      · exact hr
      · rw [hf c] at hac
        cases hac
    subst hr
    have ha := conns_blank (hb.clients c).answers (cfg.cp.get key) (.asked (.GET key .empty)) fun k a e => by cases e
    refine ⟨hb.latest, hb.returned, clients_blank hb ⟨ha, hg, hret, reqs_update hreq fun r hr => ?_⟩, hb.gets⟩
    cases hr
    exact ⟨key, rfl⟩
  | @read c key g todo ret addr fuel r item hp hm hac haddr hread hne =>
    rw [hf c] at hac
    cases hac
  | @check c g ret hp hq =>
    have hph := (hb.clients c).phase
    rw [hp] at hph
    obtain ⟨hg, hret, -⟩ := hph
    exact ⟨hb.latest, hb.returned, clients_blank hb ⟨(hb.clients c).answers, hg,
      fun k => ⟨hret k, v_latest_blank hret g.keys k⟩⟩, hb.gets⟩
  | @skip c key g v todo ret hp hle =>
    have hph := (hb.clients c).phase
    rw [hp] at hph
    exact ⟨hb.latest, hb.returned, clients_blank hb ⟨(hb.clients c).answers, hph⟩, hb.gets⟩
  | @fetch c key g v todo ret hp hlt hq =>
    have hph := (hb.clients c).phase
    rw [hp] at hph
    -- nothing to fetch
    rw [(hph.2 key).1, (hph.2 key).2] at hlt
    exact absurd hlt (lt_irrefl _)
  | @get_return c g v ret hp hq =>
    have hph := (hb.clients c).phase
    rw [hp] at hph
    refine ⟨hb.latest, hb.returned, clients_blank hb ⟨(hb.clients c).answers, trivial⟩, fun g' ret' hg => ?_⟩
    rcases List.mem_cons.mp hg with e | hg
    · cases e
      exact ⟨hph.1, fun k => (hph.2 k).1⟩
    · exact hb.gets g' ret' hg
  | @recv_put c srv r a hx hnf hns =>
    have ha := conns_blank (hb.clients c).answers srv .quiet fun k a e => by cases e
    refine ⟨hb.latest, hb.returned, clients_blank hb ⟨ha, ?_⟩, hb.gets⟩
    show PhaseBlank s.returned _ (s.clients c).phase
    generalize (s.clients c).phase = ph at hnf hns
    cases ph with
    | first g todo ret => exact absurd rfl (hnf g todo ret)
    | second g v todo ret => exact absurd rfl (hns g v todo ret)
    | _ => trivial
  | @recv_first c srv r a g todo ret ret' addrs hx hp ht =>
    have hph := (hb.clients c).phase
    rw [hp] at hph
    obtain ⟨hg, hret, hreq⟩ := hph
    obtain ⟨k, rfl⟩ := hreq srv r (req_of_answered hx)
    have hans := (hb.clients c).answers srv k a hx
    subst hans
    cases ht
    have ha := conns_blank (hb.clients c).answers srv .quiet fun k a e => by cases e
    refine ⟨hb.latest, hb.returned, clients_blank hb ⟨ha, hg, fun k' => ?_, reqs_update hreq fun r hr => by cases hr⟩, hb.gets⟩
    rw [ret_at_set]
    split
    · rfl
    · exact hret k'
  | @recv_second c srv r a g v todo ret ret' addrs hx hp ht =>
    have hph := (hb.clients c).phase
    rw [hp] at hph
    obtain ⟨k, item, -, rfl, rfl, -⟩ := second_answer hi hp hx
    rw [(hph.2 k).2] at hx
    have hans := (hb.clients c).answers srv k _ hx
    cases hans
    cases ht
    have ha := conns_blank (hb.clients c).answers srv .quiet fun k a e => by cases e
    refine ⟨hb.latest, hb.returned, clients_blank hb ⟨ha, hph.1, fun k' => ⟨?_, (hph.2 k').2⟩⟩, hb.gets⟩
    rw [ret_at_set]
    split
    · rfl
    · exact (hph.2 k').1
  | @clear c hp => exact ⟨hb.latest, hb.returned, clients_blank hb ⟨(hb.clients c).answers, (hb.clients c).phase⟩, hb.gets⟩
  | serve hs => exact blank_serve hi hc hb hs

theorem blank {s : State cfg} (hf : ∀ c, cfg.ac c = false) (h : Reachable s) (hc : Clocks PutAll.ts s.puts) : Blank s := by
  induction h with
  | init =>
    refine ⟨fun srv k => rfl, List.Subset.refl _, fun c => ⟨?_, trivial⟩, fun g ret hg => by cases hg⟩
    intro srv k a e
    cases e
  | @step s s' act hr hs ih =>
    have hst := step_cases hs
    have hc' := step_clocks hst hc
    exact blank_step hf (inv hr) hc' (ih hc') hst

/-! ## Visibility -/

/-- When a `get_all` has seen the `put_all`s that returned before it started, and what a
    commit does to the newest versions of a table. -/
theorem visibility_iff (hf : ∀ c, cfg.ac c = false) {s : State cfg} (h : Reachable s) (hc : Clocks PutAll.ts s.puts) :
    (∀ g ret, (g, ret) ∈ s.gets →
      ((∀ p ∈ g.after, ∀ k ∈ g.keys, k ∈ p.trx.write_set → p.ts ≤ (ret.at k).ts) ↔
        ∀ p ∈ g.after, ∀ k ∈ g.keys, k ∉ p.trx.write_set)) ∧
    ∀ (t t' : Table) ts, t.commit cfg.C ts = .ok t' → ∀ k, (ts ≤ t'.latest k ↔ ts ≤ t.latest k) ∧
      (t'.get_latest_item k).2 = (t.get_latest_item k).2 := by
  have hb := blank hf h hc
  have hi := inv h
  refine ⟨fun g ret hg => ?_, fun t t' ts ht k => ⟨by rw [(commit_keeps ht).2], commit_get_latest_item ht k⟩⟩
  obtain ⟨hsub, hret⟩ := hb.gets g ret hg
  constructor
  · intro hv p hp k hk hw
    have hle := hv p hp k hk hw
    rw [hret k] at hle
    have hpos := hc.positive p (hi.prepared p (hb.returned (hsub hp))).1
    exact absurd (hpos.trans_le hle) (lt_irrefl _)
  · intro hv p hp k hk hw
    exact absurd hw (hv p hp k hk)

/-- A `put_all` of "x" by client 0, then a `get_all` of `key` by client 1. -/
def putXThenGet (key : Key) : List (Act (one fun _ => false)) := List.flatten
  [putting 0 (Transaction.add_write {} "x" ∅) ⟨1, 0⟩, [.get_all 1 (Transaction.add_read {} key ∅)], asking 1 1 key,
    [.check 1, .skip 1 key, .get_return 1]]

theorem visibility_iff_other : ∃ s : State (one fun _ => false), Reachable s ∧ Clocks PutAll.ts s.puts ∧
    s.gets.map (fun x => x.1.after.length) = [1] ∧
    (∀ g ret, (g, ret) ∈ s.gets →
      ((∀ p ∈ g.after, ∀ k ∈ g.keys, k ∈ p.trx.write_set → p.ts ≤ (ret.at k).ts) ↔
        ∀ p ∈ g.after, ∀ k ∈ g.keys, k ∉ p.trx.write_set)) ∧
    ∀ (t t' : Table) ts, t.commit Wire.msgpack ts = .ok t' → ∀ k, (ts ≤ t'.latest k ↔ ts ≤ t.latest k) ∧
      (t'.get_latest_item k).2 = (t.get_latest_item k).2 := by
  have hrun : (exec {} (putXThenGet "y")).any (fun s => decide (Clocks PutAll.ts s.puts) &&
      decide (s.gets.map (fun x => x.1.after.length) = [1])) = true := by decide +kernel
  obtain ⟨s, hr, hs⟩ := exec_any hrun
  obtain ⟨hc, hg⟩ := Bool.and_eq_true_iff.mp hs
  have hc := of_decide_eq_true hc
  exact ⟨s, hr, hc, of_decide_eq_true hg, visibility_iff (fun _ => rfl) hr hc⟩

theorem returned_put_unseen : ∃ s : State (one fun _ => false), Reachable s ∧ Clocks PutAll.ts s.puts ∧
    ∃ g ret p, (g, ret) ∈ s.gets ∧ p ∈ g.after ∧ "x" ∈ g.keys ∧ "x" ∈ p.trx.write_set ∧ (ret.at "x").ts < p.ts := by
  have hrun : (exec {} (putXThenGet "x")).any (fun s => decide (Clocks PutAll.ts s.puts) && match s.gets with
      | (g, ret) :: _ => match g.after with
        | p :: _ => decide ("x" ∈ g.keys ∧ "x" ∈ p.trx.write_set ∧ (ret.at "x").ts < p.ts)
        | [] => false
      | [] => false) = true := by decide +kernel
  obtain ⟨s, hr, hs⟩ := exec_any hrun
  obtain ⟨hc, hs⟩ := Bool.and_eq_true_iff.mp hs
  split at hs
  · rename_i g ret rest hgets
    split at hs
    · rename_i p ps hafter
      refine ⟨s, hr, of_decide_eq_true hc, g, ret, p, ?_, ?_, of_decide_eq_true hs⟩
      · rw [hgets]
        exact List.mem_cons_self
      · rw [hafter]
        exact List.mem_cons_self
    · cases hs
  · cases hs

end Ramp

end RampRdma
