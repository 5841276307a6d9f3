import Limen.BlockingLimiter.Lifo
import Limen.BlockingLimiter.Rounds.Slots

/-! The order of service where the rounds of `Unblock` are interrupted. Callers that take the fast
path in between overtake those who are parked, but among those the order is as before. -/
namespace Limen.BlockingLimiter.Rounds
open Transition WaitingLine
variable {Ctx δ : Type} {d : Delegate Ctx δ} {discipline : Discipline} {s t : Rounds Ctx δ}
  {delegate : δ} {e : Event Ctx} {es : List (Event Ctx)} {entries : List (Turn Nat)}

/-- What a step does to the queue. -/
def turns (d : Delegate Ctx δ) (discipline : Discipline) (s : Rounds Ctx δ) (e : Event Ctx)
    (_ : Rounds Ctx δ) : List (Turn Nat) :=
  match e with
  | .advance i input =>
    match s.requests[i]? with
    | some ⟨_, .unblocking _ _⟩ =>
      if s.holder = some i ∧ (s.round d (input.now 0)).2 = true then (s.queue.take 1).map .handed
      else []
    | some r => r.phase.turns d discipline i s.toState input
    | none => []
  | _ => []

def journal (d : Delegate Ctx δ) (discipline : Discipline) (delegate : δ) (es : List (Event Ctx)) :
    List (Turn Nat) :=
  observe (step d discipline) (turns d discipline) (start delegate) es

theorem handedOver_last {u v : State Ctx δ} {now : Int} (last : u.round d now = (v, false)) :
    handedOver d (fun _ => now) u.queue u = [] := by
  rcases State.round_last last with ⟨empty, -⟩ | ⟨w, rest, queue, missing, -⟩ |
      ⟨w, rest, r, delegate, queue, found, refused, -⟩
  · rw [empty, handedOver]
  · rw [queue, handedOver, missing]
  · rw [queue, handedOver, found]
    dsimp only
    rw [refused]

theorem phase_deliveries {i : Nat} {u : State Ctx δ} {input : Input} {phase : Phase}
    (before : ∀ admission call, phase ≠ .unblocking admission call) :
    deliveries (phase.turns d discipline i u input) = [] := by
  cases phase with
  | parking =>
    simp only [Phase.turns]
    split <;> rfl
  | awake waiter =>
    simp only [Phase.turns]
    split <;> rfl
  | unblocking admission call => exact absurd rfl (before admission call)
  | _ => rfl

/-- A round hands over to the front, or a step does to the queue what one of the machine does
whose `Unblock` is one step, and then it hands nothing over. -/
theorem turns_cases (valid : s.Valid) (stepped : s.step d discipline e = some t) :
    (∃ w rest r delegate slot, s.queue = w :: rest ∧ s.requests[w]? = some r ∧
      turns d discipline s e t = [.handed w] ∧
      t.toState = s.handOff w rest delegate slot) ∨
    (turns d discipline s e t = [] ∧ t.toState = s.toState) ∨
    ∃ e', s.toState.step d discipline e' = some t.toState ∧
      turns d discipline s e t = State.turns d discipline s.toState e' t.toState ∧
      deliveries (turns d discipline s e t) = [] := by
  cases step_moves stepped with
  | @locked i input r admission call found atUnblock free =>
    obtain ⟨context, phase⟩ := r
    subst atUnblock
    exact .inr (.inl ⟨by simp [turns, found, free], rfl⟩)
  | @handed i w input rest r delegate slot holds queue found granted =>
    obtain ⟨⟨context, phase⟩, admission, call, there, atUnblock⟩ := valid.held _ holds
    subst atUnblock
    refine .inl ⟨w, rest, r, delegate, slot, queue, found, ?_, rfl⟩
    have more : (s.round d (input.now 0)).2 = true := by
      simp only [State.round, queue, found, granted]
    simp [turns, there, holds, more, queue]
  | @ended i input r admission call u v holds found atUnblock last onward =>
    obtain ⟨context, phase⟩ := r
    subst atUnblock
    have none : turns d discipline s (.advance i input) ⟨u, none⟩ = [] := by
      simp [turns, found, last]
    refine .inr (.inr ⟨_, onward, ?_, by rw [none]; rfl⟩)
    rw [none]
    simp [State.turns, found, Phase.turns, handedOver_last last]
  | @stepped e u outside onward =>
    cases e with
    | tryAcquire | guard | setLimit => exact .inr (.inr ⟨_, onward, rfl, rfl⟩)
    | advance i input =>
      obtain ⟨⟨context, phase⟩, found, _⟩ := State.step_advance onward
      obtain ⟨before, _⟩ := outside i input _ rfl found
      have same : turns d discipline s (.advance i input) ⟨u, s.holder⟩ =
          phase.turns d discipline i s.toState input := by
        simp only [turns, found]
        split
        · rename_i admission call there
          cases there
          exact absurd rfl (before admission call)
        · rename_i there
          cases there
          rfl
        · contradiction
      refine .inr (.inr ⟨_, onward, ?_, ?_⟩)
      · rw [same]
        simp only [State.turns, found]
      · rw [same]
        exact phase_deliveries before

theorem inLine_handOff {u : State Ctx δ} {w : Nat} {rest : List Nat} {r : Request Ctx}
    {slot : Slot Unit} (valid : u.Valid) (inLine : State.InLine discipline entries u)
    (queue : u.queue = w :: rest) (found : u.requests[w]? = some r) :
    State.InLine discipline (entries ++ [.handed w]) (u.handOff w rest delegate slot) := by
  have handed : [Turn.handed w] = [w].map .handed := rfl
  have split : u.queue = [w] ++ rest := queue
  have same : pushes (entries ++ [.handed w]) = pushes entries := by
    rw [pushes_append, handed, pushes_handed, List.append_nil]
  refine ⟨same ▸ inLine.nodup, ?_, ?_⟩
  · rw [handed, waiting_handed, inLine.line, split]
    exact Discipline.arrivals_served (split ▸ valid.nodup)
  · intro j came
    have passed : ∃ r, u.requests[j]? = some r ∧ r.phase.before = false := by
      by_cases here : j = w
      · subst here
        obtain ⟨waiter, waits, _⟩ := valid.front queue found
        refine ⟨r, found, ?_⟩
        cases phase : r.phase <;> simp [phase, Phase.waiter?, Phase.before] at waits ⊢
      · apply inLine.passed j
        rw [same, left_append, handed, left_handed, List.mem_singleton] at came
        exact came.imp_right fun left => left.resolve_right here
    obtain ⟨r', found', passed⟩ := passed
    refine Pool.modify_keeps (P := fun r => r.phase.before = false) found found' passed fun kept => ?_
    cases phase : r.phase <;>
      simp_all [Request.deliver, Request.moveTo, Phase.deliver, Phase.before]

theorem run_inLine (ran : run (step d discipline) (start delegate) es = some s) :
    State.InLine discipline (journal d discipline delegate es) s.toState := by
  have begun : run (State.step d discipline) (State.start delegate) [] =
    some (State.start delegate : State Ctx δ) := rfl
  refine history (P := fun es s => State.InLine discipline (journal d discipline delegate es)
    s.toState) ?_ ?_ ran
  · exact State.run_inLine begun
  · intro es s e t before inLine stepped
    rw [journal, observe_concat before stepped]
    have valid := run_valid before
    rcases turns_cases valid stepped with
      ⟨w, rest, r, delegate', slot, queue, found, handed, same⟩ | ⟨none, same⟩ |
      ⟨e', onward, same, _⟩
    · rw [handed, same]
      exact inLine_handOff valid.valid inLine queue found
    · rw [none, List.append_nil, same]
      exact inLine
    · rw [same]
      exact State.inLine_step valid.valid inLine onward

/-- Whenever somebody is handed a slot, they are in front. -/
theorem turns_front (valid : s.Valid) (stepped : s.step d discipline e = some t)
    {first rest : List (Turn Nat)} {b : Nat}
    (seen : turns d discipline s e t = first ++ .handed b :: rest) :
    first = [] ∧ ∃ after, s.queue = b :: after := by
  rcases turns_cases valid stepped with
    ⟨w, after, r, delegate', slot, queue, found, handed, same⟩ | ⟨none, same⟩ |
    ⟨e', _, _, undelivered⟩
  · rw [handed] at seen
    rcases first with _ | ⟨_, _ | _⟩ <;> simp at seen
    obtain ⟨rfl, rfl⟩ := seen
    exact ⟨rfl, after, queue⟩
  · simp [none] at seen
  · rw [seen] at undelivered
    simp [deliveries, Turn.handed?] at undelivered

theorem handed_front (ran : run (step d discipline) (start delegate) es = some s)
    {before after : List (Turn Nat)} {b : Nat}
    (split : journal d discipline delegate es = before ++ .handed b :: after) :
    ∃ rest, waiting before = discipline.arrivals (b :: rest) := by
  have seen : observe (step d discipline) (turns d discipline) (start delegate) es =
    before ++ .handed b :: after := split
  refine observe_entries (P := fun before entry => ∀ b, entry = .handed b →
    ∃ rest, waiting before = discipline.arrivals (b :: rest)) ?_ ran seen b rfl
  rintro es s e t first _ rest ran stepped seen b rfl
  obtain ⟨rfl, after, queue⟩ := turns_front (run_valid ran) stepped seen
  refine ⟨after, ?_⟩
  rw [List.append_nil, ← queue]
  exact (run_inLine ran).line

theorem run_backlog {n : Nat} (ran : run (step d (.lifo n)) (start delegate) es = some s) :
    s.queue.length ≤ n := by
  refine invariant (P := fun u : State Ctx δ => u.queue.length ≤ n) State.backlog_step ?_ ran
    (Nat.zero_le n)
  intro u w rest r delegate slot now _ bounded queue _ _
  rw [queue, List.length_cons] at bounded
  exact Nat.le_of_succ_le bounded

/-- Over every delegate and however the rounds of `Unblock` are interrupted: who waits is who was
pushed and has neither been handed a slot nor timed out, and a slot goes to the first of them, or
to the last where the deque is one. -/
theorem served_in_turn (d : Delegate Ctx δ) (delegate : δ) (es : List (Event Ctx)) :
    (∀ s, run (step d .fifo) (start delegate) es = some s →
      waiting (journal d .fifo delegate es) = s.queue ∧
      ∀ before after b, journal d .fifo delegate es = before ++ .handed b :: after →
        (waiting before).head? = some b) ∧
    ∀ n s, run (step d (.lifo n)) (start delegate) es = some s →
      s.queue.length ≤ n ∧ waiting (journal d (.lifo n) delegate es) = s.queue.reverse ∧
      ∀ before after b, journal d (.lifo n) delegate es = before ++ .handed b :: after →
        (waiting before).getLast? = some b := by
  constructor
  · intro s ran
    refine ⟨(run_inLine ran).line, fun before after b split => ?_⟩
    obtain ⟨rest, line⟩ := handed_front ran split
    rw [line]
    rfl
  · intro n s ran
    refine ⟨run_backlog ran, (run_inLine ran).line, fun before after b split => ?_⟩
    obtain ⟨rest, line⟩ := handed_front ran split
    rw [line, Discipline.arrivals, List.getLast?_reverse]
    rfl

/-- The newcomer takes a slot, but not the place of the caller in front. -/
theorem overtaken_in_turn :
    journal (simpleDelegate fun _ => false) .fifo (State.initial Unit 2).delegate overtaken =
      [.pushed 2, .pushed 3, .handed 2] ∧
    (waiting [.pushed 2, Turn.pushed 3]).head? = some 2 := by
  have entries : journal (simpleDelegate fun _ => false) .fifo (State.initial Unit 2).delegate
      overtaken = [.pushed 2, .pushed 3, .handed 2] := by decide +kernel
  have ended : (run (step (simpleDelegate fun _ => false) .fifo)
      (start (State.initial Unit 2).delegate) overtaken).isSome := by decide +kernel
  obtain ⟨s, ran⟩ := Option.isSome_iff_exists.mp ended
  exact ⟨entries, ((served_in_turn _ _ overtaken).1 s ran).2 _ [] 2 (by rw [entries]; rfl)⟩
end Limen.BlockingLimiter.Rounds
