import Limen.WindowedLimit.Concurrent

/-! The operations of a run, as a log, and what every reachable state has in order: a call
only moves on, and the calls inside the boundary section are at most one. -/
namespace Limen.WindowedLimit
open Transition
variable {W α τ ρ : Type}

/-- One operation: the call that makes it, where that call is before and after, and the
deadline after it. -/
structure Operation (α τ ρ : Type) where
  call : Nat
  sample : Sample
  before : Point α τ ρ
  after : Point α τ ρ
  nextUpdateTimeNs : Int

/-- What the log has of an operation of the `i`-th call. -/
def Call.operation (call : Call α τ ρ) (i : Nat) (w : Shared W) (point : Point α τ ρ) :
    Operation α τ ρ :=
  ⟨i, call.sample, call.point, point, w.nextUpdateTimeNs⟩

/-- The order in which a call reaches its points. -/
def Stage.rank : Stage τ ρ → Nat
  | .loadCandidate => 6
  | .trackedRtt _ => 7
  | .loadMaxInflight => 8
  | .loadSampleCount => 9
  | .loadDidDrop => 10
  | .storeActive => 11
  | .storeDue => 12
  | .callDelegate => 13
  | .inDelegate => 14
  | .reset _ => 15

def Point.rank : Point α τ ρ → Nat
  | .loadActive => 0
  | .addSample _ _ => 1
  | .loadDue => 2
  | .tryLock => 3
  | .reloadDue => 4
  | .loadOld => 5
  | .boundary _ _ stage => stage.rank
  | .unlock => 16
  | .returned => 17

theorem Stage.rank_bounds (stage : Stage τ ρ) : 6 ≤ stage.rank ∧ stage.rank ≤ 15 := by
  cases stage <;> simp [rank]

/-- The points between `try_lock` and `unlock`. -/
def Point.locked : Point α τ ρ → Bool
  | .reloadDue | .loadOld | .boundary _ _ _ | .unlock => true
  | _ => false

theorem Point.locked_iff (point : Point α τ ρ) :
    point.locked = true ↔ 4 ≤ point.rank ∧ point.rank ≤ 16 := by
  cases point with
  | boundary old read stage =>
    have bounds := stage.rank_bounds
    simp only [locked, rank, true_iff]
    omega
  | _ => simp [locked, rank]

/-- The points of a method that is run by several operations. -/
def Point.repeats : Point α τ ρ → Bool
  | .addSample _ _ | .boundary _ _ (.trackedRtt _) | .boundary _ _ (.reset _) => true
  | _ => false

section Step
variable [AtomicWindow W α τ ρ] {c : Config} {w w' : Shared W} {s : Sample} {spurious : Bool}
  {point point' : Point α τ ρ}

/-- One operation of a call, with what decides where it leads. -/
inductive Moves (c : Config) (w : Shared W) (s : Sample) :
    Point α τ ρ → Shared W → Point α τ ρ → Prop
  | loadActive : Moves c w s .loadActive w (.addSample w.activeIndex (AtomicWindow.addEntry W))
  | adding {idx pc pc' slot} (spurious : Bool)
      (added : AtomicWindow.addStep (w.slots idx) s spurious pc = (slot, some pc')) :
      Moves c w s (.addSample idx pc) { w with slots := Function.update w.slots idx slot }
        (.addSample idx pc')
  | added {idx pc slot} (spurious : Bool)
      (added : AtomicWindow.addStep (w.slots idx) s spurious pc = (slot, none)) :
      Moves c w s (.addSample idx pc) { w with slots := Function.update w.slots idx slot } .loadDue
  | early (early : endTimeNs s ≤ w.nextUpdateTimeNs) : Moves c w s .loadDue w .returned
  | due (late : w.nextUpdateTimeNs < endTimeNs s) : Moves c w s .loadDue w .tryLock
  | refused : Moves c w s .tryLock w .returned
  | acquired (free : w.boundaryMu = false) :
      Moves c w s .tryLock { w with boundaryMu := true } .reloadDue
  | overtaken (early : endTimeNs s ≤ w.nextUpdateTimeNs) : Moves c w s .reloadDue w .unlock
  | takes (late : w.nextUpdateTimeNs < endTimeNs s) : Moves c w s .reloadDue w .loadOld
  | loadOld : Moves c w s .loadOld w (.boundary w.activeIndex {} .loadCandidate)
  | loadCandidate {old read} : Moves c w s (.boundary old read .loadCandidate) w
      (.boundary old { read with candidateRtt := SampleWindow.candidateRttNs (w.slots old) }
        (.trackedRtt (AtomicWindow.trackEntry W)))
  | tracking {old read pc pc'} (tracked : AtomicWindow.trackStep (w.slots old) pc = .inl pc') :
      Moves c w s (.boundary old read (.trackedRtt pc)) w (.boundary old read (.trackedRtt pc'))
  | tracked {old read pc rtt} (tracked : AtomicWindow.trackStep (w.slots old) pc = .inr rtt) :
      Moves c w s (.boundary old read (.trackedRtt pc)) w
        (.boundary old { read with trackedRtt := rtt } .loadMaxInflight)
  | loadMaxInflight {old read} : Moves c w s (.boundary old read .loadMaxInflight) w
      (.boundary old { read with maxInflight := SampleWindow.maxInflight (w.slots old) }
        .loadSampleCount)
  | loadSampleCount {old read} : Moves c w s (.boundary old read .loadSampleCount) w
      (.boundary old { read with sampleCount := SampleWindow.sampleCount (w.slots old) }
        .loadDidDrop)
  | loadDidDrop {old read} : Moves c w s (.boundary old read .loadDidDrop) w
      (.boundary old { read with didDropInWindow := SampleWindow.didDrop (w.slots old) }
        .storeActive)
  | storeActive {old read} : Moves c w s (.boundary old read .storeActive)
      { w with activeIndex := 1 - old } (.boundary old read .storeDue)
  | storeDue {old read} : Moves c w s (.boundary old read .storeDue)
      { w with nextUpdateTimeNs := wrap 64 (endTimeNs s + adaptiveNs c read.candidateRtt) }
      (.boundary old read .callDelegate)
  | delegates {old read} (ready : windowReady c read = true) :
      Moves c w s (.boundary old read .callDelegate) w (.boundary old read .inDelegate)
  | skips {old read} (unready : windowReady c read = false) :
      Moves c w s (.boundary old read .callDelegate) w
        (.boundary old read (.reset (AtomicWindow.resetEntry W)))
  | delegated {old read} : Moves c w s (.boundary old read .inDelegate) w
      (.boundary old read (.reset (AtomicWindow.resetEntry W)))
  | resetting {old read pc pc' slot}
      (stored : AtomicWindow.resetStep (w.slots old) pc = (slot, some pc')) :
      Moves c w s (.boundary old read (.reset pc))
        { w with slots := Function.update w.slots old slot } (.boundary old read (.reset pc'))
  | reset {old read pc slot} (stored : AtomicWindow.resetStep (w.slots old) pc = (slot, none)) :
      Moves c w s (.boundary old read (.reset pc))
        { w with slots := Function.update w.slots old slot } .unlock
  | unlock : Moves c w s .unlock { w with boundaryMu := false } .returned

theorem advance_boundary {old : Fin 2} {read : Aggregate} {stage : Stage τ ρ}
    (advanced : stage.advance c w s old read = (w', point')) :
    Moves c w s (.boundary old read stage) w' point' := by
  cases stage with
  | trackedRtt pc =>
    simp only [Stage.advance] at advanced
    split at advanced <;> cases advanced
    · exact .tracking (by assumption)
    · exact .tracked (by assumption)
  | callDelegate =>
    simp only [Stage.advance] at advanced
    split at advanced <;> cases advanced
    · exact .delegates (by assumption)
    · exact .skips (by simpa using (by assumption : ¬ windowReady c read = true))
  | reset pc =>
    simp only [Stage.advance] at advanced
    rcases stored : AtomicWindow.resetStep (w.slots old) pc with ⟨slot, _ | pc'⟩ <;>
      rw [stored] at advanced <;> cases advanced
    · exact .reset stored
    · exact .resetting stored
  | loadCandidate => cases advanced; exact .loadCandidate
  | loadMaxInflight => cases advanced; exact .loadMaxInflight
  | loadSampleCount => cases advanced; exact .loadSampleCount
  | loadDidDrop => cases advanced; exact .loadDidDrop
  | storeActive => cases advanced; exact .storeActive
  | storeDue => cases advanced; exact .storeDue
  | inDelegate => cases advanced; exact .delegated

theorem advance_moves (advanced : point.advance c w s spurious = some (w', point')) :
    Moves c w s point w' point' := by
  cases point with
  | addSample idx pc =>
    simp only [Point.advance] at advanced
    rcases added : AtomicWindow.addStep (w.slots idx) s spurious pc with ⟨slot, _ | pc'⟩ <;>
      rw [added] at advanced <;> cases advanced
    · exact .added spurious added
    · exact .adding spurious added
  | loadDue =>
    simp only [Point.advance] at advanced
    split at advanced <;> cases advanced
    · exact .early (by assumption)
    · exact .due (by omega)
  | tryLock =>
    simp only [Point.advance, Option.some.injEq] at advanced
    split at advanced
    · cases advanced
      exact .refused
    · rename_i free
      cases advanced
      exact .acquired (by simpa using (not_or.mp free).1)
  | reloadDue =>
    simp only [Point.advance] at advanced
    split at advanced <;> cases advanced
    · exact .overtaken (by assumption)
    · exact .takes (by omega)
  | boundary old read stage => exact advance_boundary (Option.some.inj advanced)
  | returned => contradiction
  | loadActive => cases advanced; exact .loadActive
  | loadOld => cases advanced; exact .loadOld
  | unlock => cases advanced; exact .unlock

theorem Moves.rank (moved : Moves c w s point w' point') :
    point.rank < point'.rank ∨ (point.repeats = true ∧ point.rank ≤ point'.rank) := by
  cases moved <;> simp [Point.rank, Stage.rank, Point.repeats]

theorem Moves.active (moved : Moves c w s point w' point') : point' ≠ .loadActive := by
  cases moved <;> simp

theorem Moves.unreturned (moved : Moves c w s point w' point') : point.rank < 17 := by
  cases moved <;> simp [Point.rank, Stage.rank]

/-- The mutex is taken and released at the ends of the section, and by nobody else. -/
theorem Moves.boundaryMu (moved : Moves c w s point w' point') :
    (point'.locked = point.locked ∧ w'.boundaryMu = w.boundaryMu) ∨
      (point.locked = false ∧ point'.locked = true ∧ w.boundaryMu = false ∧ w'.boundaryMu = true) ∨
      (point.locked = true ∧ point'.locked = false ∧ w'.boundaryMu = false) := by
  cases moved <;> simp_all [Point.locked]

theorem Moves.enters_section (moved : Moves c w s point w' point') (locked : point'.locked = true) :
    point.locked = true ∨ (point = .tryLock ∧ point' = .reloadDue) := by
  cases moved <;> simp_all [Point.locked]

theorem Moves.free (moved : Moves c w s point w' point') (before : point = .tryLock)
    (after : point' = .reloadDue) : w.boundaryMu = false := by
  cases moved <;> simp_all
end Step

/-- A sample below the threshold is dropped at once. -/
def Config.enter (c : Config) (sample : Sample) : Call α τ ρ :=
  ⟨sample, if sample.rttNs < c.minRttThresholdNs then .returned else .loadActive⟩

theorem enter_rank (c : Config) (sample : Sample) :
    (c.enter sample : Call α τ ρ).point.rank = 0 ∨ (c.enter sample : Call α τ ρ).point.rank = 17 := by
  simp only [Config.enter]
  split
  · exact .inr rfl
  · exact .inl rfl

namespace State
variable [AtomicWindow W α τ ρ] {c : Config} {factory : W} {s t : State W α τ ρ} {e : Event}
  {es : List Event}

def sees (s : State W α τ ρ) (e : Event) (t : State W α τ ρ) : List (Operation α τ ρ) :=
  match e with
  | .onSample _ => []
  | .advance i _ =>
    match s.calls[i]?, t.calls[i]? with
    | some call, some call' => [call.operation i t.toShared call'.point]
    | _, _ => []

def operations (c : Config) (factory : W) (es : List Event) : List (Operation α τ ρ) :=
  observe (step c) sees (start factory) es

theorem step_cases (stepped : s.step c e = some t) :
    (∃ sample, e = .onSample sample ∧ t = { s with calls := s.calls ++ [c.enter sample] } ∧
        s.sees e t = []) ∨
      ∃ i spurious call shared point, e = .advance i spurious ∧ s.calls[i]? = some call ∧
        Moves c s.toShared call.sample call.point shared point ∧
        t = { shared with calls := s.calls.modify i (Call.moveTo point) } ∧
        s.sees e t = [call.operation i shared point] := by
  cases e with
  | onSample sample =>
    cases stepped
    exact .inl ⟨sample, rfl, rfl, rfl⟩
  | advance i spurious =>
    simp only [step, Option.bind_eq_bind, Option.bind_eq_some_iff, Option.some.injEq] at stepped
    obtain ⟨call, found, ⟨shared, point⟩, advanced, rfl⟩ := stepped
    refine .inr ⟨i, spurious, call, shared, point, rfl, found, advance_moves advanced, rfl, ?_⟩
    simp only [sees, found, Pool.getElem?_modify_self (Call.moveTo point) found]
    rfl

/-- Every event is taken where the log so far and the state admit it. -/
def Throughout (c : Config) (factory : W)
    (admits : List (Operation α τ ρ) → State W α τ ρ → Event → Prop) (es : List Event) : Prop :=
  ∀ before e after s, es = before ++ e :: after →
    run (step c) (start factory) before = some s → admits (operations c factory before) s e

theorem Throughout.left {admits : List (Operation α τ ρ) → State W α τ ρ → Event → Prop}
    {fs : List Event} (all : Throughout c factory admits (es ++ fs)) :
    Throughout c factory admits es := by
  rintro before e after s rfl reached
  exact all before e (after ++ fs) s (by simp) reached

/-- The same with the events counted off, which can be evaluated. -/
theorem throughout_of_forall {admits : List (Operation α τ ρ) → State W α τ ρ → Event → Prop}
    (all : ∀ n < es.length, ∀ s ∈ run (step c) (start factory) (es.take n), ∀ e ∈ es[n]?,
      admits (operations c factory (es.take n)) s e) : Throughout c factory admits es := by
  rintro before e after s rfl reached
  have taken : (before ++ e :: after).take before.length = before := List.take_left
  have here := all before.length (by simp)
  rw [taken] at here
  exact here s reached e (by simp)

theorem throughout_of_along {admits : State W α τ ρ → Event → Prop}
    (along : Along (step c) admits (start factory) es) :
    Throughout c factory (fun _ => admits) es := fun before e after s split reached =>
  along_iff.mp along before e after s split reached

/-- What holds at the start and is kept by every entry and by every operation that is
admitted, of the log and of the state, holds along the run. -/
theorem run_admitted {P : List (Operation α τ ρ) → State W α τ ρ → Prop}
    {Q : List (Operation α τ ρ) → State W α τ ρ → Event → Prop}
    (initial : P [] (start factory))
    (enters : ∀ {log s}, P log s → ∀ sample, Q log s (.onSample sample) →
      P log { s with calls := s.calls ++ [c.enter sample] })
    (moves : ∀ {es s i spurious call shared point},
      run (step c) (start factory) es = some s → Throughout c factory Q es →
      P (operations c factory es) s → s.calls[i]? = some call →
      Q (operations c factory es) s (.advance i spurious) →
      Moves c s.toShared call.sample call.point shared point →
      P (operations c factory es ++ [call.operation i shared point])
        { shared with calls := s.calls.modify i (Call.moveTo point) })
    (ran : run (step c) (start factory) es = some s) (admitted : Throughout c factory Q es) :
    P (operations c factory es) s := by
  suffices all : es <+: es → P (operations c factory es) s from all List.prefix_rfl
  refine history (P := fun before s => before <+: es → P (operations c factory before) s)
    (fun _ => initial) ?_ ran
  rintro before s e t reached ih stepped ⟨after, rfl⟩
  have here : P (operations c factory before) s :=
    ih ⟨e :: after, by rw [List.append_assoc, List.singleton_append]⟩
  rw [operations, observe_concat reached stepped, ← operations]
  have split : before ++ [e] ++ after = before ++ e :: after := by
    rw [List.append_assoc, List.singleton_append]
  have admits := admitted before e after s split reached
  rcases step_cases stepped with ⟨sample, rfl, rfl, unseen⟩ |
    ⟨i, spurious, call, shared, point, rfl, found, moved, rfl, seen⟩
  · rw [unseen, List.append_nil]
    exact enters here sample admits
  · rw [seen]
    rw [List.append_assoc] at admitted
    exact moves reached admitted.left here found admits moved

/-- The same when nothing is asked of the steps. -/
theorem run_operations {P : List (Operation α τ ρ) → State W α τ ρ → Prop}
    (initial : P [] (start factory))
    (enters : ∀ {log s}, P log s → ∀ sample, P log { s with calls := s.calls ++ [c.enter sample] })
    (moves : ∀ {es s i call shared point},
      run (step c) (start factory) es = some s → P (operations c factory es) s →
      s.calls[i]? = some call → Moves c s.toShared call.sample call.point shared point →
      P (operations c factory es ++ [call.operation i shared point])
        { shared with calls := s.calls.modify i (Call.moveTo point) })
    (ran : run (step c) (start factory) es = some s) : P (operations c factory es) s :=
  run_admitted (Q := fun _ _ _ => True) initial (fun here sample _ => enters here sample)
    (fun reached _ here found _ moved => moves reached here found moved) ran
    (fun _ _ _ _ _ _ => trivial)

/-- A fact about each call that entering establishes, and that its own operations and those
of the others keep, holds of all calls. -/
theorem run_each {P : List (Operation α τ ρ) → Shared W → Nat → Call α τ ρ → Prop}
    (enters : ∀ log w i sample, P log w i (c.enter sample))
    (own : ∀ {es s i call shared point}, run (step c) (start factory) es = some s →
      s.calls[i]? = some call → Moves c s.toShared call.sample call.point shared point →
      P (operations c factory es) s.toShared i call →
      P (operations c factory es ++ [call.operation i shared point]) shared i (call.moveTo point))
    (others : ∀ {es s i call shared point j other}, run (step c) (start factory) es = some s →
      s.calls[i]? = some call → Moves c s.toShared call.sample call.point shared point → j ≠ i →
      s.calls[j]? = some other → P (operations c factory es) s.toShared j other →
      P (operations c factory es ++ [call.operation i shared point]) shared j other)
    (ran : run (step c) (start factory) es = some s) {i : Nat} {call : Call α τ ρ}
    (found : s.calls[i]? = some call) : P (operations c factory es) s.toShared i call := by
  refine run_operations (P := fun log s => ∀ (i : Nat) call, s.calls[i]? = some call →
    P log s.toShared i call) (by simp [start]) ?_ ?_ ran i call found
  · intro log s each sample i call found
    rcases Pool.getElem?_concat_eq_some.mp found with before | ⟨_, rfl⟩
    · exact each i call before
    · exact enters ..
  · intro es s i call shared point ran each found moved j call' found'
    rcases Pool.getElem?_modify_cases found found' with ⟨rfl, rfl⟩ | ⟨other, before⟩
    · exact own ran found moved (each j call found)
    · exact others ran found moved other before (each j call' before)

/-- The log and the calls agree. -/
structure Logged (log : List (Operation α τ ρ)) (s : State W α τ ρ) : Prop where
  made : ∀ op ∈ log, ∃ call, s.calls[op.call]? = some call ∧ call.sample = op.sample ∧
    op.after.rank ≤ call.point.rank
  ordered : log.Pairwise fun a b => a.call = b.call → a.after.rank ≤ b.before.rank

theorem run_logged (ran : run (step c) (start factory) es = some s) :
    Logged (operations c factory es) s := by
  refine run_operations (P := Logged) ⟨by simp, .nil⟩ ?_ ?_ ran
  · intro log s logged sample
    refine ⟨?_, logged.ordered⟩
    intro op member
    obtain ⟨call, found, same, reached⟩ := logged.made op member
    exact ⟨call, Pool.getElem?_concat_eq_some.mpr (.inl found), same, reached⟩
  · intro es s i call shared point _ logged found moved
    have further : call.point.rank ≤ point.rank := by
      rcases moved.rank with before | ⟨_, before⟩ <;> omega
    have self := Pool.getElem?_modify_self (Call.moveTo point) found
    constructor
    · intro op member
      rcases List.mem_append.mp member with earlier | new
      · obtain ⟨call', found', same, reached⟩ := logged.made op earlier
        refine Pool.modify_keeps (P := fun call => call.sample = op.sample ∧
          op.after.rank ≤ call.point.rank) found found' ⟨same, reached⟩ ?_
        rintro ⟨same, reached⟩
        exact ⟨same, reached.trans further⟩
      · obtain rfl := List.mem_singleton.mp new
        exact ⟨_, self, rfl, Nat.le_refl _⟩
    · refine List.pairwise_append.mpr ⟨logged.ordered, List.pairwise_singleton .., ?_⟩
      intro op member new last same
      obtain rfl := List.mem_singleton.mp last
      obtain ⟨call', found', _, reached⟩ := logged.made op member
      have own : op.call = i := same
      rw [own, found, Option.some.injEq] at found'
      subst found'
      exact reached

/-- Every call that has got past the threshold is accepted. -/
theorem run_accepted (ran : run (step c) (start factory) es = some s) {i : Nat}
    {call : Call α τ ρ} (found : s.calls[i]? = some call)
    (unreturned : call.point.rank < 17) : c.minRttThresholdNs ≤ call.sample.rttNs := by
  refine run_each (P := fun _ _ _ call => call.point.rank < 17 →
    c.minRttThresholdNs ≤ call.sample.rttNs) ?_ ?_ ?_ ran found unreturned
  · intro log w i sample unreturned
    simp only [Config.enter] at unreturned ⊢
    split at unreturned
    · exact absurd unreturned (Nat.lt_irrefl 17)
    · omega
  · intro es s i call shared point _ _ moved accepted _
    exact accepted moved.unreturned
  · intro es s i call shared point j other _ _ _ _ _ accepted
    exact accepted

/-- The mutex is held exactly if a call is inside the section, and then one is. -/
theorem run_locked (ran : run (step c) (start factory) es = some s) :
    (if s.boundaryMu then 1 else 0) = s.calls.countP fun call => call.point.locked := by
  refine run_operations (P := fun _ s =>
    (if s.boundaryMu then 1 else 0) = s.calls.countP fun call => call.point.locked) rfl ?_ ?_ ran
  · intro log s locked sample
    have outside : (c.enter sample : Call α τ ρ).point.locked = false := by
      rw [← Bool.not_eq_true, Point.locked_iff]
      have entry := enter_rank (α := α) (τ := τ) (ρ := ρ) c sample
      omega
    rw [Pool.countP_concat, outside, locked]
    rfl
  · intro es s i call shared point _ locked found moved
    have recount := Pool.countP_modify (fun call => call.point.locked) (Call.moveTo point) found
    have after : (call.moveTo point).point.locked = point.locked := rfl
    simp only [after] at recount
    rcases moved.boundaryMu with ⟨same, mutex⟩ | ⟨before, inside, free, taken⟩ |
      ⟨before, outside, released⟩
    · rw [mutex, locked]
      rw [same] at recount
      exact (Nat.add_right_cancel recount).symm
    · rw [taken]
      rw [free] at locked
      rw [before, inside] at recount
      simp only [Bool.false_eq_true, if_false, if_true] at *
      omega
    · rw [released]
      rw [before, outside] at recount
      simp only [Bool.false_eq_true, if_false, if_true] at *
      split at locked <;> omega

theorem unlocked_of_free (ran : run (step c) (start factory) es = some s)
    (free : s.boundaryMu = false) {i : Nat} {call : Call α τ ρ} (found : s.calls[i]? = some call) :
    call.point.locked = false := by
  have count := run_locked ran
  rw [free] at count
  have none := List.countP_eq_zero.mp count.symm call (List.mem_of_getElem? found)
  simpa using none

/-- Two calls are not inside the section at once. -/
theorem locked_unique (ran : run (step c) (start factory) es = some s) {i j : Nat}
    {call call' : Call α τ ρ} (found : s.calls[i]? = some call) (found' : s.calls[j]? = some call')
    (locked : call.point.locked = true) (locked' : call'.point.locked = true) : i = j := by
  have count := run_locked ran
  refine Pool.unique_of_countP_le_one (p := fun call => call.point.locked) ?_ found found' locked
    locked'
  rw [← count]
  split <;> decide
end State
end Limen.WindowedLimit
