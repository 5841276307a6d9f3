import Limen.BlockingLimiter.Fifo

/-! The order of service of `LifoBlockingLimiter` and the bound on its backlog, over any
delegate. -/
namespace Limen.BlockingLimiter
open Transition WaitingLine
variable {Ctx δ : Type} {d : Delegate Ctx δ} {n : Nat}

/-- The loop of a waiter that timed out. A reverse iterator is the index of its `base()`:
it stands at `rend()` when this is 0, and else refers to the element before it, which
`std::next(it).base()` points at. -/
def scanBack (i : Nat) (deque : List Nat) : Nat → List Nat
  | 0 => deque
  | base + 1 => if deque[base]? = some i then deque.eraseIdx base else scanBack i deque base

/-- The elements behind the iterator have been passed and stay. -/
theorem scanBack_append (i : Nat) (ahead passed : List Nat) :
    scanBack i (ahead ++ passed) ahead.length = (ahead.reverse.erase i).reverse ++ passed := by
  induction ahead using List.reverseRecOn generalizing passed with
  | nil => rfl
  | append_singleton ahead a ih =>
    have next : (ahead ++ ([a] ++ passed))[ahead.length]? = some a := by simp
    rw [List.length_append, List.length_singleton, scanBack, List.append_assoc, next,
      List.reverse_concat]
    split
    · rename_i here
      rw [Option.some.inj here, List.erase_cons_head, List.reverse_reverse,
        List.eraseIdx_append_of_length_le (Nat.le_refl _), Nat.sub_self]
      rfl
    · rename_i other
      rw [List.erase_cons_tail (by simpa using other), List.reverse_cons, List.append_assoc, ih]

theorem scanBack_eq_withdraw (i : Nat) (deque : List Nat) :
    scanBack i deque deque.length = Discipline.withdraw i deque (.lifo n) := by
  have scanned := scanBack_append i deque []
  rwa [List.append_nil, List.append_nil] at scanned

namespace State
variable {s t : State Ctx δ} {e : Event Ctx}

theorem backlog_step (valid : s.Valid) (bounded : s.queue.length ≤ n)
    (stepped : s.step d (.lifo n) e = some t) : t.queue.length ≤ n := by
  rcases turns_cases valid stepped with ⟨_, same⟩ | ⟨i, _, _, _, _, _, _, parked, _⟩ |
    ⟨i, _, _, _, _, _, _, _, _, withdrawn⟩ | ⟨served, _, queue⟩
  · rwa [same]
  · simp only [Discipline.park] at parked
    split at parked
    · contradiction
    · rename_i space
      rw [← Option.some.inj parked]
      exact Nat.lt_of_not_le space
  · rw [withdrawn, Discipline.withdraw_eq_filter valid.nodup]
    exact (List.length_filter_le _ _).trans bounded
  · rw [queue, List.length_append] at bounded
    omega

theorem run_backlog {delegate : δ} {es : List (Event Ctx)}
    (ran : run (step d (.lifo n)) (start delegate) es = some s) : s.queue.length ≤ n :=
  valid_invariant (P := fun s : State Ctx δ => s.queue.length ≤ n) backlog_step
    (start_valid delegate) ran (Nat.zero_le n)

/-- The deque read from the back is the order of arrival, so its front is the last to have
arrived. -/
theorem handed_freshest {delegate : δ} {es : List (Event Ctx)}
    (ran : run (step d (.lifo n)) (start delegate) es = some s) {before after : List (Turn Nat)}
    {b : Nat} (split : journal d (.lifo n) delegate es = before ++ .handed b :: after) :
    (waiting before).getLast? = some b := by
  have seen : observe (step d (.lifo n)) (turns d (.lifo n)) (start delegate) es =
    before ++ .handed b :: after := split
  refine observe_entries
    (P := fun before entry => ∀ b, entry = .handed b → (waiting before).getLast? = some b)
    ?_ ran seen b rfl
  rintro es s e t first _ rest ran stepped seen b rfl
  have inLine : InLine (.lifo n) (journal d (.lifo n) delegate es) s := run_inLine ran
  have line : waiting (journal d (.lifo n) delegate es) = s.queue.reverse := inLine.line
  obtain ⟨before, after, rfl, queue⟩ := turns_handed (run_valid ran) stepped seen
  exact served_from_back inLine.nodup (queue ▸ line) rfl

theorem turnedAway_full {i : Nat} {input : Input} {r r' : Request Ctx}
    (found : s.requests[i]? = some r) (parking : r.phase = .parking)
    (stepped : s.step d (.lifo n) (.advance i input) = some t) (found' : t.requests[i]? = some r')
    (refused : r'.phase = .refused) : n ≤ s.queue.length := by
  by_contra space
  have parked : Discipline.park i s.queue (.lifo n) = some (i :: s.queue) := if_neg space
  simp only [step, found, Option.bind_eq_bind, Option.bind_some, parking, Phase.advance, parked,
    Heap.construct, Option.some.injEq] at stepped
  rw [← stepped, Pool.getElem?_modify_self _ found, Option.some.injEq] at found'
  rw [← found'] at refused
  contradiction

/-- What `LifoBlockingLimiter` promises of a run and the state where it ends. -/
structure LifoService (d : Delegate Ctx δ) (n : Nat) (delegate : δ) (es : List (Event Ctx))
    (s : State Ctx δ) : Prop where
  bounded : s.queue.length ≤ n
  nodup : s.queue.Nodup
  /-- The deque holds those who were pushed and have neither been handed a slot nor timed
  out, the last of them in front. -/
  parked : s.queue = (waiting (journal d (.lifo n) delegate es)).reverse
  freshest : ∀ before after b, journal d (.lifo n) delegate es = before ++ .handed b :: after →
    (waiting before).getLast? = some b
  /-- Whoever returns from the backlog check without parking found the backlog full. -/
  turnedAway : ∀ before after i input u v r r', es = before ++ .advance i input :: after →
    run (step d (.lifo n)) (start delegate) before = some u →
    u.step d (.lifo n) (.advance i input) = some v → u.requests[i]? = some r →
    r.phase = .parking → v.requests[i]? = some r' → r'.phase = .refused → u.queue.length = n
  timedOut : ∀ before after i input u v r waiter, es = before ++ .advance i input :: after →
    run (step d (.lifo n)) (start delegate) before = some u →
    u.step d (.lifo n) (.advance i input) = some v → u.requests[i]? = some r →
    r.phase = .awake waiter → waiter.slot = none →
    i ∈ u.queue ∧ v.queue = scanBack i u.queue u.queue.length ∧
      v.queue = u.queue.filter fun j => j ≠ i

theorem lifo_service (d : Delegate Ctx δ) (n : Nat) (delegate : δ) (es : List (Event Ctx))
    (ran : run (step d (.lifo n)) (start delegate) es = some s) : LifoService d n delegate es s where
  bounded := run_backlog ran
  nodup := (run_valid ran).nodup
  parked := by
    have line : waiting (journal d (.lifo n) delegate es) = s.queue.reverse := (run_inLine ran).line
    rw [line, List.reverse_reverse]
  freshest := by
    intro before after b split
    exact handed_freshest ran split
  turnedAway := by
    intro before after i input u v r r' _ reached stepped found parking found' refused
    exact le_antisymm (run_backlog reached) (turnedAway_full found parking stepped found' refused)
  timedOut := by
    intro before after i input u v r waiter _ reached stepped found awake empty
    obtain ⟨member, withdrawn, filtered⟩ := step_timedOut (run_valid reached) (run_waits reached)
      found awake empty stepped
    exact ⟨member, withdrawn.trans (scanBack_eq_withdraw i u.queue).symm, filtered⟩

/-- Three callers fill the backlog, a fourth is turned away, the one in the middle times
out, and two completions serve the others, the freshest first. -/
def fullBacklog : List (Event Unit) :=
  [.tryAcquire (), .advance 0 {}, .advance 0 {}, .advance 0 {},
    .tryAcquire (), .advance 1 {}, .advance 1 {}, .tryAcquire (), .advance 2 {}, .advance 2 {},
    .tryAcquire (), .advance 3 {}, .advance 3 {}, .tryAcquire (), .advance 4 {}, .advance 4 {},
    .advance 2 {}, .advance 2 {},
    .guard (.complete 0 .success), .advance 0 {}, .advance 0 {}, .advance 0 {},
    .advance 3 {}, .advance 3 {}, .advance 3 {}, .advance 3 { addr := 1 },
    .guard (.complete 1 .success), .advance 3 {}, .advance 3 {}, .advance 3 {}]

theorem fullBacklog_served :
    journal (simpleDelegate fun _ => false) (.lifo 3) (initial Unit 1).delegate fullBacklog =
      [.pushed 1, .pushed 2, .pushed 3, .timedOut 2, .handed 3, .handed 1] ∧
    ∃ s, run (step (simpleDelegate fun _ => false) (.lifo 3)) (initial Unit 1) fullBacklog =
        some s ∧
      LifoService (simpleDelegate fun _ => false) 3 (initial Unit 1).delegate fullBacklog s := by
  have entries : journal (simpleDelegate fun _ => false) (.lifo 3) (initial Unit 1).delegate
      fullBacklog = [.pushed 1, .pushed 2, .pushed 3, .timedOut 2, .handed 3, .handed 1] := by
    decide +kernel
  have ended : (run (step (simpleDelegate fun _ => false) (.lifo 3))
      (start (initial Unit 1).delegate) fullBacklog).isSome := by decide +kernel
  obtain ⟨s, ran⟩ := Option.isSome_iff_exists.mp ended
  exact ⟨entries, s, ran, lifo_service _ _ _ _ ran⟩
end State
end Limen.BlockingLimiter
