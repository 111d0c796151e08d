/-
  RampRdma.Locking.Snapshot — what a `get_all` reads under its locks.

  What it has read of a key is the newest version of the `put_all`s that have finished
  (`read_snapshot`), and stays so until it finishes itself: it holds the read locks of all
  these keys, and a `put_all` that finishes meanwhile holds the write locks of its own
  (`Reads`).
  - `snapshot_reads`: all items of one `get_all` are the newest of one set of `put_all`s,
    those that finished before it.
-/

import Mathlib
import RampRdma.Locking.Versions

namespace RampRdma.Locking

variable {cp : ConnectionPool}

def Trx.client : Trx → Nat
  | .put p => p.client
  | .get g => g.client

/-! ## The transactions that have returned -/

/-- Each transaction that has returned is one of those that have finished, and so is each
    that waits for its RELEASE_LOCKS, besides. -/
structure Counts (s : State cp) : Prop where
  client : ∀ c t, (s.clients c).phase.trx = some t → t.client = c
  completed : ∀ x, s.completed.count x ≤ s.finished.count x
  releasing : ∀ c t ret todo, (s.clients c).phase = .releasing t ret todo → s.completed.count (t, ret) < s.finished.count (t, ret)

/-! ## Reads -/

structure Reads (s : State cp) : Prop where
  taken : ∀ c g todo ret, (s.clients c).phase = .sending (.get g) todo ret →
    ∀ k ∈ g.keys, .GET k ∈ todo ∨ ret.at k = snapshot (putsOf s.finished) k
  answers : ∀ c srv k a, (s.clients c).conns srv = .answered (.GET k) a → a = .RESULT (snapshot (putsOf s.finished) k)
  finished : ∀ post g ret pre, s.finished = post ++ (.get g, ret) :: pre → ∀ k ∈ g.keys, ret.at k = snapshot (putsOf pre) k

section
variable {s : State cp}

/-- A `get_all` holds what it no longer has to ask for. -/
theorem taken_holds (hi : Inv s) {c : Nat} {g : GetAll} {todo : List Request} {ret : Ret}
    (hp : (s.clients c).phase = .sending (.get g) todo ret) {k : Key} (hk : k ∈ g.keys) (hn : .GET k ∉ todo) :
    ((s.nodes (cp.get k)).mutex_table k).Holds c := by
  have hph := hi.phases c
  rw [hp] at hph
  obtain ⟨⟨done, hreq, ha⟩, -, -⟩ := hph
  have hm : .GET k ∈ done ++ todo := by
    rw [← hreq]
    exact List.mem_map.mpr ⟨k, hk, rfl⟩
  have hd : .GET k ∈ done := (List.mem_append.mp hm).resolve_right hn
  exact hi.access_holds hp ((ha k).mpr (.inl ⟨_, hd, rfl⟩))

theorem answered_holds (hi : Inv s) {c : Nat} {srv : cp.Server} {k : Key} {a : Answer}
    (hx : (s.clients c).conns srv = .answered (.GET k) a) :
    (∃ g, (s.clients c).phase.trx = some (.get g)) ∧ ((s.nodes (cp.get k)).mutex_table k).Holds c := by
  obtain ⟨hs, g, todo, ret, hp, hk⟩ := hi.getting (k := k) (by rw [hx]; rfl)
  have hph := hi.phases c
  rw [hp] at hph
  obtain ⟨⟨done, -, ha⟩, -, -⟩ := hph
  refine ⟨⟨g, by rw [hp]; rfl⟩, hi.access_holds hp ((ha k).mpr (.inr ⟨.GET k, a, ?_, rfl⟩))⟩
  rw [hs]
  exact hx

/-- A transaction that finishes writes no key that a `get_all` holds. -/
theorem snapshot_release (hi : Inv s) {c c' : Nat} {t : Trx} {ret : Ret} {g : GetAll} {k : Key}
    (hp : (s.clients c).phase = .sending t [] ret) (hg : (s.clients c').phase.trx = some (.get g))
    (hh : ((s.nodes (cp.get k)).mutex_table k).Holds c') :
    snapshot (putsOf ((t, ret) :: s.finished)) k = snapshot (putsOf s.finished) k := by
  cases t with
  | get g' => rfl
  | put p =>
    refine snapshot_cons fun i hip e => ?_
    subst e
    exact not_doing hi hg hh c (all_doing hi hp hip)

/-- A step in which no transaction finishes. -/
theorem reads_client (hr : Reads s) {nodes : cp.Server → Node} {c : Nat} {cl : Client cp.Server} {puts : List PutAll}
    {completed : List (Trx × Ret)}
    (ht : ∀ g todo ret, cl.phase = .sending (.get g) todo ret →
      ∀ k ∈ g.keys, .GET k ∈ todo ∨ ret.at k = snapshot (putsOf s.finished) k)
    (ha : ∀ srv k a, cl.conns srv = .answered (.GET k) a → a = .RESULT (snapshot (putsOf s.finished) k)) :
    Reads ⟨nodes, Function.update s.clients c cl, puts, s.finished, completed⟩ := by
  refine ⟨fun c' g todo ret hp => ?_, fun c' srv k a hx => ?_, hr.finished⟩
  · have hp : (Function.update s.clients c cl c').phase = .sending (.get g) todo ret := hp
    by_cases e : c' = c
    · subst e
      rw [Function.update_self] at hp
      exact ht g todo ret hp
    · rw [Function.update_of_ne e] at hp
      exact hr.taken c' g todo ret hp
  · have hx : (Function.update s.clients c cl c').conns srv = .answered (.GET k) a := hx
    by_cases e : c' = c
    · subst e
      rw [Function.update_self] at hx
      exact ha srv k a hx
    · rw [Function.update_of_ne e] at hx
      exact hr.answers c' srv k a hx

/-- A connection that is given nothing to read. -/
theorem answers_update (hr : Reads s) {c : Nat} {srv : cp.Server} {x : Conn}
    (hx : ∀ k a, x = .answered (.GET k) a → a = .RESULT (snapshot (putsOf s.finished) k)) (srv' : cp.Server) (k : Key) (a : Answer)
    (h : Function.update (s.clients c).conns srv x srv' = .answered (.GET k) a) :
    a = .RESULT (snapshot (putsOf s.finished) k) := by
  by_cases e : srv' = srv
  · subst e
    rw [Function.update_self] at h
    exact hx k a h
  · rw [Function.update_of_ne e] at h
    exact hr.answers c srv' k a h

theorem reads_step {s' : State cp} (hi : Inv s) (hd : Data s) (hc : Clocks PutAll.ts s.puts) (hr : Reads s) (h : Step s s') :
    Reads s' := by
  cases h with
  | @put_all c p hpc hp => exact reads_client hr (fun g todo ret e => by cases e) (hr.answers c)
  | @get_all c g hgc hp =>
    refine reads_client hr (fun g' todo ret e k hk => ?_) (hr.answers c)
    cases e
    exact .inl (List.mem_map.mpr ⟨k, hk, rfl⟩)
  | @send c t r todo ret hp hq =>
    exact reads_client hr (hr.taken c) (answers_update hr fun k a e => by cases e)
  | @recv c srv r r' a t todo ret hx hp =>
    refine reads_client hr (fun g todo' ret' e k hk => ?_) (answers_update hr fun k a e => by cases e)
    cases e
    -- the answer is the one of the first request
    obtain ⟨t', done, rest, ret', hp', -⟩ := hi.request (r := r) (by rw [hx]; rfl)
    rw [hp] at hp'
    cases hp'
    cases r with
    | PUT i =>
      obtain ⟨-, p, _, _, hp', -⟩ := hi.putting (i := i) (by rw [hx]; rfl)
      rw [hp] at hp'
      cases hp'
    | GET key =>
      have ha := hr.answers c srv key a hx
      subst ha
      show _ ∨ Ret.at (ret.insert key _) k = _
      unfold Ret.at
      rw [Std.ExtTreeMap.getElem?_insert]
      by_cases e : key = k
      · subst e
        right
        simp
      · rw [if_neg (by simpa using e)]
        rcases hr.taken c g _ ret hp k hk with hm | he
        · rcases List.mem_cons.mp hm with e' | hm
          · cases e'
            exact absurd rfl e
          · exact .inl hm
        · exact .inr he
  | @release c t ret hp hq =>
    refine ⟨fun c' g todo ret' hp' k hk => ?_, fun c' srv k a hx => ?_, fun post g ret' pre he k hk => ?_⟩
    · have hp' : (Function.update s.clients c _ c').phase = .sending (.get g) todo ret' := hp'
      by_cases e : c' = c
      · subst e
        rw [Function.update_self] at hp'
        cases hp'
      · rw [Function.update_of_ne e] at hp'
        by_cases hm : .GET k ∈ todo
        · exact .inl hm
        · right
          have hh := taken_holds hi hp' hk hm
          show _ = snapshot (putsOf ((t, ret) :: s.finished)) k
          rw [snapshot_release hi hp (by rw [hp']; rfl) hh]
          exact (hr.taken c' g todo ret' hp' k hk).resolve_left hm
    · have hx : (Function.update s.clients c _ c').conns srv = .answered (.GET k) a := hx
      have hx : (s.clients c').conns srv = .answered (.GET k) a := by
        by_cases e : c' = c
        · subst e
          rwa [Function.update_self] at hx
        · rwa [Function.update_of_ne e] at hx
      obtain ⟨⟨g, hg⟩, hh⟩ := answered_holds hi hx
      show a = .RESULT (snapshot (putsOf ((t, ret) :: s.finished)) k)
      rw [snapshot_release hi hp hg hh]
      exact hr.answers c' srv k a hx
    · have he : (t, ret) :: s.finished = post ++ (.get g, ret') :: pre := he
      cases post with
      | nil =>
        cases he
        rcases hr.taken c g [] ret hp k hk with hm | he
        · cases hm
        · exact he
      | cons x post =>
        exact hr.finished post g ret' pre (List.cons.inj he).2 k hk
  | @send_release c srv t ret todo hp hq =>
    exact reads_client hr (fun g todo' ret' e => by cases e) (answers_update hr fun k a e => by cases e)
  | @recv_release c srv t ret todo hx hp =>
    exact reads_client hr (hr.taken c) (answers_update hr fun k a e => by cases e)
  | @return_all c t ret hp hq => exact reads_client hr (fun g todo' ret' e => by cases e) (hr.answers c)
  | @clear c hp => exact reads_client hr (hr.taken c) (hr.answers c)
  | @serve c srv n x h =>
    refine reads_client hr (hr.taken c) (answers_update hr fun k a e => ?_)
    subst e
    generalize hx : (s.clients c).conns srv = x0 at h
    cases h with
    | get => exact congrArg Answer.RESULT (read_snapshot hi hd hc hx)

theorem counts_client (hn : Counts s) {nodes : cp.Server → Node} {c : Nat} {cl : Client cp.Server} {puts : List PutAll}
    (ht : ∀ t, cl.phase.trx = some t → t.client = c)
    (hl : ∀ t ret todo, cl.phase = .releasing t ret todo → s.completed.count (t, ret) < s.finished.count (t, ret)) :
    Counts ⟨nodes, Function.update s.clients c cl, puts, s.finished, s.completed⟩ := by
  refine ⟨fun c' t e => ?_, hn.completed, fun c' t ret todo e => ?_⟩
  · have e : (Function.update s.clients c cl c').phase.trx = some t := e
    by_cases ec : c' = c
    · subst ec
      rw [Function.update_self] at e
      exact ht t e
    · rw [Function.update_of_ne ec] at e
      exact hn.client c' t e
  · have e : (Function.update s.clients c cl c').phase = .releasing t ret todo := e
    by_cases ec : c' = c
    · subst ec
      rw [Function.update_self] at e
      exact hl t ret todo e
    · rw [Function.update_of_ne ec] at e
      exact hn.releasing c' t ret todo e

theorem counts_step {s' : State cp} (hn : Counts s) (h : Step s s') : Counts s' := by
  cases h with
  | @put_all c p hpc hp =>
    exact counts_client hn (fun t e => by cases e; exact hpc) fun t ret todo e => by cases e
  | @get_all c g hgc hp =>
    exact counts_client hn (fun t e => by cases e; exact hgc) fun t ret todo e => by cases e
  | @send c t r todo ret hp hq => exact counts_client hn (hn.client c) (hn.releasing c)
  | @recv c srv r r' a t todo ret hx hp =>
    refine counts_client hn (fun t' e => ?_) fun t ret todo e => by cases e
    cases e
    exact hn.client c t (by rw [hp]; rfl)
  | @release c t ret hp hq =>
    have ht : t.client = c := hn.client c t (by rw [hp]; rfl)
    refine ⟨fun c' t' e => ?_, fun x => ?_, fun c' t' ret' todo e => ?_⟩
    · have e : (Function.update s.clients c _ c').phase.trx = some t' := e
      by_cases ec : c' = c
      · subst ec
        rw [Function.update_self] at e
        cases e
        exact ht
      · rw [Function.update_of_ne ec] at e
        exact hn.client c' t' e
    · exact (hn.completed x).trans List.count_le_count_cons
    · have e : (Function.update s.clients c _ c').phase = .releasing t' ret' todo := e
      show _ < ((t, ret) :: s.finished).count (t', ret')
      by_cases ec : c' = c
      · subst ec
        rw [Function.update_self] at e
        cases e
        rw [List.count_cons_self]
        exact Nat.lt_succ_of_le (hn.completed _)
      · rw [Function.update_of_ne ec] at e
        exact (hn.releasing c' t' ret' todo e).trans_le List.count_le_count_cons
  | @send_release c srv t ret todo hp hq =>
    refine counts_client hn (fun t' e => ?_) fun t' ret' todo' e => ?_
    · cases e
      exact hn.client c t (by rw [hp]; rfl)
    · cases e
      exact hn.releasing c t ret todo hp
  | @recv_release c srv t ret todo hx hp => exact counts_client hn (hn.client c) (hn.releasing c)
  | @return_all c t ret hp hq =>
    have ht : t.client = c := hn.client c t (by rw [hp]; rfl)
    refine ⟨fun c' t' e => ?_, fun x => ?_, fun c' t' ret' todo e => ?_⟩
    · have e : (Function.update s.clients c _ c').phase.trx = some t' := e
      by_cases ec : c' = c
      · subst ec
        rw [Function.update_self] at e
        cases e
      · rw [Function.update_of_ne ec] at e
        exact hn.client c' t' e
    · show ((t, ret) :: s.completed).count x ≤ _
      by_cases e : (t, ret) = x
      · subst e
        rw [List.count_cons_self]
        exact hn.releasing c t ret [] hp
      · rw [List.count_cons_of_ne e]
        exact hn.completed x
    · have e : (Function.update s.clients c _ c').phase = .releasing t' ret' todo := e
      show ((t, ret) :: s.completed).count (t', ret') < _
      by_cases ec : c' = c
      · subst ec
        rw [Function.update_self] at e
        cases e
      · rw [Function.update_of_ne ec] at e
        -- a transaction of another client
        have ht' : t'.client = c' := hn.client c' t' (by rw [e]; rfl)
        have hne : (t, ret) ≠ (t', ret') := by
          intro e
          cases e
          exact ec (ht'.symm.trans ht)
        rw [List.count_cons_of_ne hne]
        exact hn.releasing c' t' ret' todo e
  | @clear c hp => exact counts_client hn (hn.client c) (hn.releasing c)
  | @serve c srv n x h => exact counts_client hn (hn.client c) (hn.releasing c)

end

theorem counts {s : State cp} (h : Reachable s) : Counts s := by
  induction h with
  | init => exact ⟨(fun c t e => by cases e), fun x => le_rfl, (fun c t ret todo e => by cases e)⟩
  | step _ hs ih => exact counts_step ih (step_cases hs)

theorem completed_subperm {s : State cp} (h : Reachable s) : s.completed.Subperm s.finished :=
  List.subperm_ext_iff.mpr fun x _ => (counts h).completed x

theorem step_puts {s s' : State cp} (h : Step s s') : s'.puts = s.puts ∨ ∃ p, s'.puts = p :: s.puts := by
  cases h with
  | put_all => exact .inr ⟨_, rfl⟩
  | _ => exact .inl rfl

theorem reads {s : State cp} (h : Reachable s) (hc : Clocks PutAll.ts s.puts) : Reads s := by
  induction h with
  | init =>
    refine ⟨(fun c g todo ret e => by cases e), (fun c srv k a e => by cases e), fun post g ret pre e => ?_⟩
    have hl := congrArg List.length e
    simp at hl
  | @step s0 s' a hr hs ih =>
    have hst := step_cases hs
    have hc' : Clocks PutAll.ts s0.puts := by
      rcases step_puts hst with e | ⟨p, e⟩
      · rw [e] at hc
        exact hc
      · rw [e] at hc
        exact hc.tail
    exact reads_step (inv hr) (data hr) hc' (ih hc') hst

/-- In every interleaving, with no timestamp given twice: each transaction that has returned
    is one of `finished`, and a `get_all` in it has read, of each of its keys, the newest
    version of a set of `put_all`s that finished before it. -/
theorem snapshot_reads {s : State cp} (h : Reachable s) (hc : Clocks PutAll.ts s.puts) :
    s.completed.Subperm s.finished ∧ ∀ post g ret pre, s.finished = post ++ (.get g, ret) :: pre →
      ∃ l : List PutAll, (∀ p ∈ l, ∃ r, (.put p, r) ∈ pre) ∧ ∀ k ∈ g.keys, ret.at k = snapshot l k := by
  refine ⟨completed_subperm h, fun post g ret pre e => ?_⟩
  exact ⟨putsOf pre, fun p hp => mem_putsOf.mp hp, (reads h hc).finished post g ret pre e⟩

/-- The `get_all` waits for `"x"` while the `put_all` has both locks, and reads it before the
    other one is given back. -/
theorem snapshot_reads_waiting : ∃ s : State two, ∃ g ret, Reachable s ∧ Clocks PutAll.ts s.puts ∧
    (.get g, ret) ∈ s.completed ∧ g.keys = ["x", "y"] ∧ (ret.at "x").ts = ⟨1, 0⟩ ∧
    s.completed.Subperm s.finished ∧ ∀ post g ret pre, s.finished = post ++ (.get g, ret) :: pre →
      ∃ l : List PutAll, (∀ p ∈ l, ∃ r, (.put p, r) ∈ pre) ∧ ∀ k ∈ g.keys, ret.at k = snapshot l k := by
  have hrun : (exec {} (List.flatten [[.put_all 0 (.add (.add {} (.write "x" ∅)) (.write "y" ∅)) ⟨1, 0⟩],
      asking 0 0 3, asking 0 1 3, [.release 0, .get_all 1 (.add (.add {} (.read "x" ∅)) (.read "y" ∅)), .send 1],
      unlocking 0 0, answering 1 0 2, unlocking 0 1, asking 1 1 2,
      [.release 1], unlocking 1 0, unlocking 1 1, [.return_all 1]])).any (fun s =>
        decide (Clocks PutAll.ts s.puts) && s.completed.any fun p =>
          decide (p.1 = .get ⟨1, .add (.add {} (.read "x" ∅)) (.read "y" ∅)⟩ ∧ (p.2.at "x").ts = ⟨1, 0⟩)) = true := by
    decide +kernel
  obtain ⟨s, hr, hs⟩ := exec_any hrun
  obtain ⟨hc, hs⟩ := Bool.and_eq_true_iff.mp hs
  have hc := of_decide_eq_true hc
  obtain ⟨⟨t, ret⟩, hm, hs⟩ := List.any_eq_true.mp hs
  obtain ⟨hg, hx⟩ := of_decide_eq_true hs
  have hm : (.get ⟨1, .add (.add {} (.read "x" ∅)) (.read "y" ∅)⟩, ret) ∈ s.completed := hg ▸ hm
  exact ⟨s, _, ret, hr, hc, hm, by decide, hx, snapshot_reads hr hc⟩

end RampRdma.Locking
