import Limen.WindowedLimit.Steps

/-! Window boundaries under concurrency. Many threads may find the same deadline passed;
the check that is repeated under the mutex lets one of them through. -/
namespace Limen.WindowedLimit
open Transition State
variable {W α τ ρ : Type}

namespace Operation

def acquires (op : Operation α τ ρ) : Bool :=
  match op.before, op.after with
  | .tryLock, .reloadDue => true
  | _, _ => false

/-- The second check has found the deadline passed: the boundary is taken. -/
def takes (op : Operation α τ ρ) : Bool :=
  match op.before, op.after with
  | .reloadDue, .loadOld => true
  | _, _ => false

def candidate? (op : Operation α τ ρ) : Option Int :=
  match op.before, op.after with
  | .boundary _ _ .loadCandidate, .boundary _ read (.trackedRtt _) => some read.candidateRtt
  | _, _ => none

def storesDue (op : Operation α τ ρ) : Bool :=
  match op.before with
  | .boundary _ _ .storeDue => true
  | _ => false

/-- The beginning of a delegate call. -/
def delegates (op : Operation α τ ρ) : Bool :=
  match op.before, op.after with
  | .boundary _ _ .callDelegate, .boundary _ _ .inDelegate => true
  | _, _ => false

theorem acquires_iff {op : Operation α τ ρ} :
    op.acquires = true ↔ op.before = .tryLock ∧ op.after = .reloadDue := by
  rw [acquires]
  split <;> simp_all

theorem takes_iff {op : Operation α τ ρ} :
    op.takes = true ↔ op.before = .reloadDue ∧ op.after = .loadOld := by
  rw [takes]
  split <;> simp_all

theorem rank_of_delegates {op : Operation α τ ρ} (delegates : op.delegates = true) :
    op.before.rank = 13 ∧ op.after.rank = 14 := by
  rw [Operation.delegates] at delegates
  split at delegates
  · rename_i before after
    rw [before, after]
    exact ⟨rfl, rfl⟩
  · contradiction

theorem rank_of_candidate? {op : Operation α τ ρ} {candidate : Int}
    (read : op.candidate? = some candidate) : op.after.rank = 7 := by
  rw [candidate?] at read
  split at read
  · rename_i after
    rw [after]
    rfl
  · contradiction
end Operation

def took (log : List (Operation α τ ρ)) (i : Nat) : Bool :=
  log.any fun op => op.takes && op.call == i

/-- The boundaries, by the operations that acquire `boundary_mu_` for them. -/
def boundaries (log : List (Operation α τ ρ)) : List (Operation α τ ρ) :=
  (log.filter Operation.acquires).filter fun op => took log op.call

/-- The candidate RTT that a call has read. -/
def candidateOf (log : List (Operation α τ ρ)) (i : Nat) : Option Int :=
  (log.filter fun op => op.call = i).findSome? Operation.candidate?

def deadlines (log : List (Operation α τ ρ)) : List Int :=
  (log.filter Operation.storesDue).map Operation.nextUpdateTimeNs

def delegations (log : List (Operation α τ ρ)) : List Nat :=
  (log.filter Operation.delegates).map Operation.call

/-- The length of the window after one whose smallest RTT is `candidateRtt`. -/
def windowTimeNs (c : Config) (candidateRtt : Int) : Int :=
  if candidateRtt = int64Max then c.minWindowTimeNs
  else min (max (2 * candidateRtt) c.minWindowTimeNs) c.maxWindowTimeNs

theorem minWindowTimeNs_le (c : Config) (candidateRtt : Int) :
    c.minWindowTimeNs ≤ windowTimeNs c candidateRtt := by
  have ordered := c.window_ordered
  rw [windowTimeNs]
  split <;> omega

/-- What a call has read that is about to store the deadline. -/
def Point.storing? : Point α τ ρ → Option Aggregate
  | .boundary _ read .storeDue => some read
  | _ => none

/-- No addition or doubling of `OnSample` overflows. -/
def DeadlinesFit (c : Config) (s : State W α τ ρ) : Event → Prop
  | .onSample sample =>
    c.minRttThresholdNs ≤ sample.rttNs → InRange 64 (sample.startTimeNs + sample.rttNs)
  | .advance i _ => ∀ call ∈ s.calls[i]?, ∀ read ∈ call.point.storing?,
    (read.candidateRtt ≠ int64Max → InRange 64 (read.candidateRtt * 2)) ∧
      InRange 64 (endTimeNs call.sample + adaptiveNs c read.candidateRtt)

instance (c : Config) (s : State W α τ ρ) : (e : Event) → Decidable (DeadlinesFit c s e)
  | .onSample _ => inferInstanceAs (Decidable (_ → _))
  | .advance _ _ => inferInstanceAs (Decidable (∀ call ∈ _, _))

section Step
variable [AtomicWindow W α τ ρ] {c : Config} {w w' : Shared W} {s : Sample}
  {point point' : Point α τ ρ}

/-- The deadline is stored by one operation, which ends what is to be scheduled. -/
theorem Moves.stores (moved : Moves c w s point w' point') :
    (w'.nextUpdateTimeNs = w.nextUpdateTimeNs ∧ (∀ old read, point ≠ .boundary old read .storeDue) ∧
        (5 ≤ point.rank → point.rank ≤ 12 → point'.rank ≤ 12)) ∨
      ∃ old read, point = .boundary old read .storeDue ∧
        w'.nextUpdateTimeNs = wrap 64 (endTimeNs s + adaptiveNs c read.candidateRtt) := by
  cases moved <;> simp [Point.rank, Stage.rank]

theorem Moves.late (moved : Moves c w s point w' point') (before : point = .reloadDue)
    (after : point' = .loadOld) : w.nextUpdateTimeNs < endTimeNs s := by
  cases moved <;> simp_all

theorem Moves.taken (moved : Moves c w s point w' point') (taken : 5 ≤ point'.rank)
    (inside : point'.rank ≤ 15) :
    (5 ≤ point.rank ∧ point.rank ≤ 15) ∨ (point = .reloadDue ∧ point' = .loadOld) := by
  cases moved <;> simp_all [Point.rank, Stage.rank]

/-- The candidate is read once, at the beginning of the boundary work. -/
theorem Moves.candidate {old : Fin 2} {read : Aggregate} {stage : Stage τ ρ}
    (moved : Moves c w s point w' (.boundary old read stage)) (past : 7 ≤ stage.rank) :
    (∃ read' stage', point = .boundary old read' stage' ∧ 7 ≤ stage'.rank ∧
        read'.candidateRtt = read.candidateRtt) ∨
      ∃ read' pc, point = .boundary old read' .loadCandidate ∧ stage = .trackedRtt pc := by
  cases moved <;> simp_all [Stage.rank]

theorem Moves.unscheduled (moved : Moves c w s point w' point') (taken : 5 ≤ point'.rank)
    (unscheduled : point'.rank ≤ 12) :
    w'.nextUpdateTimeNs = w.nextUpdateTimeNs ∧ (5 ≤ point.rank ∧ point.rank ≤ 12 ∨
      (point = .reloadDue ∧ w.nextUpdateTimeNs < endTimeNs s)) := by
  cases moved <;> simp_all [Point.rank, Stage.rank]
end Step

/-- The second boundary ends later than the window that the first has opened. -/
def Apart (c : Config) (log : List (Operation α τ ρ)) (a b : Operation α τ ρ) : Prop :=
  ∃ candidate, candidateOf log a.call = some candidate ∧
    endTimeNs a.sample + windowTimeNs c candidate < endTimeNs b.sample

theorem candidateOf_append {log : List (Operation α τ ρ)} {i : Nat} {candidate : Int}
    (read : candidateOf log i = some candidate) (more : List (Operation α τ ρ)) :
    candidateOf (log ++ more) i = some candidate := by
  rw [candidateOf, List.filter_append, List.findSome?_append, ← candidateOf, read]
  rfl

theorem Apart.append {c : Config} {log : List (Operation α τ ρ)} {a b : Operation α τ ρ}
    (apart : Apart c log a b) (more : List (Operation α τ ρ)) : Apart c (log ++ more) a b := by
  obtain ⟨candidate, known, apart⟩ := apart
  exact ⟨candidate, candidateOf_append known more, apart⟩

/-- The store of the deadline, when nothing overflows. -/
theorem due_eq {c : Config} {s : State W α τ ρ} {call : Call α τ ρ} {i : Nat} {spurious : Bool}
    {old : Fin 2} {read : Aggregate} (exact : DeadlinesFit c s (.advance i spurious))
    (found : s.calls[i]? = some call) (here : call.point = .boundary old read .storeDue) :
    wrap 64 (endTimeNs call.sample + adaptiveNs c read.candidateRtt) =
      endTimeNs call.sample + windowTimeNs c read.candidateRtt := by
  obtain ⟨doubled, sum⟩ := exact call found read (by rw [here]; rfl)
  rw [wrap_eq (by decide) sum]
  congr 1
  rw [adaptiveNs, windowTimeNs]
  split
  · rfl
  · rename_i measured
    rw [wrap_eq (by decide) (doubled measured), Int.mul_comm]

namespace State
variable [AtomicWindow W α τ ρ] {c : Config} {factory : W} {s : State W α τ ρ} {es : List Event}
  {i : Nat} {call : Call α τ ρ}

/-- The call inside the section is the one that acquired the mutex last. -/
theorem run_holder (ran : run (step c) (start factory) es = some s) (found : s.calls[i]? = some call)
    (locked : call.point.locked = true) :
    ∃ rest a, (operations c factory es).filter Operation.acquires = rest ++ [a] ∧ a.call = i ∧
      a.sample = call.sample := by
  refine run_each (P := fun log _ i call => call.point.locked = true →
    ∃ rest a, log.filter Operation.acquires = rest ++ [a] ∧ a.call = i ∧ a.sample = call.sample)
    ?_ ?_ ?_ ran found locked
  · intro log w i sample locked
    rw [Point.locked_iff] at locked
    have entry := enter_rank (α := α) (τ := τ) (ρ := ρ) c sample
    omega
  · intro es s i call shared point ran found moved held locked
    rcases moved.enters_section locked with inside | entered
    · have silent : (call.operation i shared point).acquires = false := by
        rw [← Bool.not_eq_true, Operation.acquires_iff]
        rintro ⟨outside, _⟩
        have here : call.point = .tryLock := outside
        rw [here] at inside
        contradiction
      rw [Pool.filter_concat_of_neg silent]
      exact held inside
    · have acquires : (call.operation i shared point).acquires = true :=
        Operation.acquires_iff.mpr entered
      exact ⟨_, _, Pool.filter_concat_of_pos acquires, rfl, rfl⟩
  · intro es s i call shared point j other ran found moved different found' held locked
    cases acquires : (call.operation i shared point).acquires with
    | true =>
      obtain ⟨before, after⟩ := Operation.acquires_iff.mp acquires
      rw [unlocked_of_free ran (moved.free before after) found'] at locked
      contradiction
    | false =>
      rw [Pool.filter_concat_of_neg acquires]
      exact held locked

theorem unread (ran : run (step c) (start factory) es = some s) (found : s.calls[i]? = some call)
    (before : call.point.rank < 7) :
    ((operations c factory es).filter fun op => op.call = i).findSome? Operation.candidate? =
      none := by
  rw [List.findSome?_eq_none_iff]
  intro op member
  obtain ⟨member, own⟩ := List.mem_filter.mp member
  obtain ⟨call', found', _, reached⟩ := (run_logged ran).made op member
  cases read : op.candidate? with
  | none => rfl
  | some candidate =>
    rw [of_decide_eq_true own, found, Option.some.injEq] at found'
    have rank := Operation.rank_of_candidate? read
    rw [found'] at before
    omega

/-- A call knows the candidate that it has read. -/
theorem run_candidate (ran : run (step c) (start factory) es = some s)
    (found : s.calls[i]? = some call) {old : Fin 2} {read : Aggregate} {stage : Stage τ ρ}
    (here : call.point = .boundary old read stage) (past : 7 ≤ stage.rank) :
    candidateOf (operations c factory es) i = some read.candidateRtt := by
  refine run_each (P := fun log _ i call => ∀ old read stage,
    call.point = .boundary old read stage → 7 ≤ stage.rank →
      candidateOf log i = some read.candidateRtt) ?_ ?_ ?_ ran found old read stage here past
  · intro log w i sample old read stage here
    simp only [Config.enter] at here
    split at here <;> contradiction
  · intro es s i call shared point ran found moved known old read stage here past
    obtain rfl : point = .boundary old read stage := here
    rcases moved.candidate past with ⟨read', stage', before, past', same⟩ | ⟨read', pc, before, rfl⟩
    · rw [← same]
      exact candidateOf_append (known old read' stage' before past') _
    · rw [candidateOf, Pool.filter_concat_of_pos (by simp [Call.operation]), List.findSome?_append,
        unread ran found (by rw [before]; exact Nat.lt_succ_self 6)]
      simp [Call.operation, Operation.candidate?, before]
  · intro es s i call shared point j other _ _ _ _ _ known old read stage here past
    exact candidateOf_append (known old read stage here past) _

/-- Between its second check and its store of the deadline a call is late for the deadline. -/
theorem run_late (ran : run (step c) (start factory) es = some s) (found : s.calls[i]? = some call)
    (taken : 5 ≤ call.point.rank) (unscheduled : call.point.rank ≤ 12) :
    s.nextUpdateTimeNs < endTimeNs call.sample := by
  refine run_each (P := fun _ w _ call => 5 ≤ call.point.rank → call.point.rank ≤ 12 →
    w.nextUpdateTimeNs < endTimeNs call.sample) ?_ ?_ ?_ ran found taken unscheduled
  · intro log w i sample taken unscheduled
    have entry := enter_rank (α := α) (τ := τ) (ρ := ρ) c sample
    omega
  · intro es s i call shared point ran found moved late taken unscheduled
    obtain ⟨same, inside | ⟨_, passed⟩⟩ := moved.unscheduled taken unscheduled
    · exact same ▸ late inside.1 inside.2
    · exact same ▸ passed
  · intro es s i call shared point j other ran found moved different found' late taken unscheduled
    rcases moved.stores with ⟨same, _⟩ | ⟨old, read, here, _⟩
    · exact same ▸ late taken unscheduled
    · -- The deadline is stored inside the section, and this call is inside too.
      have locked : call.point.locked = true := by rw [here]; rfl
      have locked' : other.point.locked = true := other.point.locked_iff.mpr ⟨by omega, by omega⟩
      exact absurd (locked_unique ran found' found locked' locked) different

/-- A boundary that has stored its deadline. -/
def Scheduled (c : Config) (log : List (Operation α τ ρ)) (s : State W α τ ρ)
    (op : Operation α τ ρ) : Prop :=
  ∃ candidate, candidateOf log op.call = some candidate ∧
    endTimeNs op.sample + windowTimeNs c candidate ≤ s.nextUpdateTimeNs

theorem run_scheduled (ran : run (step c) (start factory) es = some s)
    (exact : Throughout c factory (fun _ => DeadlinesFit c) es) {op : Operation α τ ρ}
    (member : op ∈ operations c factory es) (takes : op.takes = true) :
    (∃ call, s.calls[op.call]? = some call ∧ call.point.rank ≤ 12) ∨
      Scheduled c (operations c factory es) s op := by
  refine run_admitted (P := fun log s => ∀ op ∈ log, op.takes = true →
    (∃ call, s.calls[op.call]? = some call ∧ call.point.rank ≤ 12) ∨ Scheduled c log s op)
    (by simp) ?_ ?_ ran exact op member takes
  · intro log s scheduled sample _ op member takes
    rcases scheduled op member takes with ⟨call, found, open'⟩ | done
    · exact .inl ⟨call, Pool.getElem?_concat_eq_some.mpr (.inl found), open'⟩
    · exact .inr done
  · intro es s i spurious call shared point ran _ scheduled found exact moved op member takes
    have self := Pool.getElem?_modify_self (Call.moveTo point) found
    rcases List.mem_append.mp member with earlier | new
    · obtain ⟨call', found', sampled, reached⟩ := (run_logged ran).made op earlier
      have taken : 5 ≤ call'.point.rank := by
        rw [(Operation.takes_iff.mp takes).2] at reached
        exact reached
      rcases moved.stores with ⟨same, _, onward⟩ | ⟨old, read, here, stored⟩
      · -- The deadline stands, and so does what has been scheduled by it.
        rcases scheduled op earlier takes with ⟨call'', found'', early⟩ | ⟨candidate, known, below⟩
        · obtain rfl : call' = call'' := Option.some.inj (found'.symm.trans found'')
          refine .inl ?_
          by_cases own : op.call = i
          · rw [own, found, Option.some.injEq] at found'
            subst found'
            exact ⟨_, by rw [own]; exact self, onward taken early⟩
          · exact ⟨call', by rw [Pool.getElem?_modify_other _ own]; exact found', early⟩
        · exact .inr ⟨candidate, candidateOf_append known _, same ▸ below⟩
      · have twelve : call.point.rank = 12 := by rw [here]; rfl
        have due := stored.trans (due_eq exact found here)
        refine .inr ?_
        by_cases own : op.call = i
        · rw [own, found, Option.some.injEq] at found'
          subst found'
          have known := run_candidate ran found here (by simp [Stage.rank])
          rw [← own] at known
          refine ⟨_, candidateOf_append known _, ?_⟩
          rw [← sampled, due]
        · -- Another boundary is over, for its call is not inside the section.
          have locked : call.point.locked = true := by rw [here]; rfl
          rcases scheduled op earlier takes with ⟨call'', found'', early⟩ | ⟨candidate, known, below⟩
          · obtain rfl : call' = call'' := Option.some.inj (found'.symm.trans found'')
            have locked' := call'.point.locked_iff.mpr ⟨by omega, by omega⟩
            exact absurd (locked_unique ran found' found locked' locked) own
          · have late := run_late ran found (by omega) (by omega)
            have positive := c.minWindowTime_pos
            have length := minWindowTimeNs_le c read.candidateRtt
            refine ⟨candidate, candidateOf_append known _, ?_⟩
            dsimp only
            omega
    · obtain rfl := List.mem_singleton.mp new
      refine .inl ⟨_, self, ?_⟩
      obtain ⟨_, after⟩ := Operation.takes_iff.mp takes
      have here : point = .loadOld := after
      rw [here]
      exact Nat.le_of_ble_eq_true rfl

theorem run_deadlines (ran : run (step c) (start factory) es = some s)
    (exact : Throughout c factory (fun _ => DeadlinesFit c) es) :
    (0 :: deadlines (operations c factory es)).Pairwise (· < ·) ∧
      (∀ due ∈ 0 :: deadlines (operations c factory es), due ≤ s.nextUpdateTimeNs) ∧
      (0 :: deadlines (operations c factory es)).getLast? = some s.nextUpdateTimeNs := by
  refine run_admitted (P := fun log s => (0 :: deadlines log).Pairwise (· < ·) ∧
    (∀ due ∈ 0 :: deadlines log, due ≤ s.nextUpdateTimeNs) ∧
    (0 :: deadlines log).getLast? = some s.nextUpdateTimeNs) ?_ ?_ ?_ ran exact
  · simp [deadlines, start]
  · intro log s below sample _
    exact below
  · rintro es s i spurious call shared point ran _ ⟨increasing, below, last⟩ found exact moved
    rcases moved.stores with ⟨same, elsewhere, _⟩ | ⟨old, read, here, stored⟩
    · have keeps : (call.operation i shared point).storesDue = false := by
        rw [Operation.storesDue]
        split
        · rename_i here
          exact absurd here (elsewhere _ _)
        · rfl
      rw [deadlines, Pool.filter_concat_of_neg keeps, ← deadlines]
      dsimp only
      rw [same]
      exact ⟨increasing, below, last⟩
    · have twelve : call.point.rank = 12 := by rw [here]; rfl
      have storesDue : (call.operation i shared point).storesDue = true := by
        simp [Operation.storesDue, Call.operation, here]
      have due := stored.trans (due_eq exact found here)
      have late := run_late ran found (by omega) (by omega)
      have positive := c.minWindowTime_pos
      have length := minWindowTimeNs_le c read.candidateRtt
      have later : s.nextUpdateTimeNs < shared.nextUpdateTimeNs := by omega
      rw [deadlines, Pool.filter_concat_of_pos storesDue, List.map_append, ← deadlines,
        ← List.cons_append]
      refine ⟨List.pairwise_append.mpr ⟨increasing, List.pairwise_singleton .., ?_⟩, ?_, ?_⟩
      · intro due member next single
        obtain rfl := List.mem_singleton.mp single
        exact Int.lt_of_le_of_lt (below due member) later
      · intro due member
        rcases List.mem_append.mp member with earlier | new
        · exact (below due earlier).trans (Int.le_of_lt later)
        · obtain rfl := List.mem_singleton.mp new
          exact Int.le_refl _
      · rw [List.map_singleton, List.getLast?_concat]
        rfl

/-- Whoever is doing the boundary work has taken the boundary. -/
theorem run_took (ran : run (step c) (start factory) es = some s) (found : s.calls[i]? = some call)
    (taken : 5 ≤ call.point.rank) (inside : call.point.rank ≤ 15) :
    took (operations c factory es) i = true := by
  refine run_each (P := fun log _ i call => 5 ≤ call.point.rank → call.point.rank ≤ 15 →
    took log i = true) ?_ ?_ ?_ ran found taken inside
  · intro log w i sample taken inside
    have entry := enter_rank (α := α) (τ := τ) (ρ := ρ) c sample
    omega
  · intro es s i call shared point ran found moved took' taken inside
    rw [took, List.any_append, ← took]
    rcases moved.taken taken inside with ⟨past, inside'⟩ | ends
    · rw [took' past inside', Bool.true_or]
    · have takes : (call.operation i shared point).takes = true := Operation.takes_iff.mpr ends
      have own : (call.operation i shared point).call = i := rfl
      simp [takes, own]
  · intro es s i call shared point j other _ _ _ _ _ took' taken inside
    rw [took, List.any_append, ← took, took' taken inside, Bool.true_or]

theorem untaken (ran : run (step c) (start factory) es = some s) (found : s.calls[i]? = some call)
    (before : call.point.rank < 5) : took (operations c factory es) i = false := by
  rw [took, List.any_eq_false]
  intro op member
  rw [Bool.and_eq_true, beq_iff_eq]
  rintro ⟨takes, own⟩
  obtain ⟨call', found', _, reached⟩ := (run_logged ran).made op member
  rw [own, found, Option.some.injEq] at found'
  rw [(Operation.takes_iff.mp takes).2, ← found'] at reached
  exact absurd reached (Nat.not_le_of_lt before)

/-- When a boundary is taken, every other one is past its deadline already. -/
theorem spaced_before (ran : run (step c) (start factory) es = some s)
    (exact : Throughout c factory (fun _ => DeadlinesFit c) es) (found : s.calls[i]? = some call)
    (locked : call.point.locked = true) {b : Operation α τ ρ} (member : b ∈ operations c factory es)
    (other : b.call ≠ i) (taken : took (operations c factory es) b.call = true) :
    Scheduled c (operations c factory es) s b := by
  obtain ⟨op, member', takes⟩ := List.any_eq_true.mp taken
  rw [Bool.and_eq_true, beq_iff_eq] at takes
  obtain ⟨call', found', sampled, _⟩ := (run_logged ran).made b member
  obtain ⟨call'', found'', sampled', reached⟩ := (run_logged ran).made op member'
  rw [takes.2, found', Option.some.injEq] at found''
  subst found''
  rcases run_scheduled ran exact member' takes.1 with ⟨call'', found'', early⟩ |
    ⟨candidate, known, below⟩
  · rw [takes.2, found', Option.some.injEq] at found''
    subst found''
    rw [(Operation.takes_iff.mp takes.1).2] at reached
    have inside : 5 ≤ call'.point.rank := reached
    have locked' := call'.point.locked_iff.mpr ⟨by omega, by omega⟩
    exact absurd (locked_unique ran found' found locked' locked) other
  · rw [takes.2] at known
    rw [← sampled', sampled] at below
    exact ⟨candidate, known, below⟩

theorem boundaries_keep (ran : run (step c) (start factory) es = some s)
    (found : s.calls[i]? = some call) {shared : Shared W} {point : Point α τ ρ}
    (keeps : (call.operation i shared point).takes = false) :
    boundaries (operations c factory es ++ [call.operation i shared point]) =
      boundaries (operations c factory es) := by
  have same : took (operations c factory es ++ [call.operation i shared point]) =
      took (operations c factory es) := by
    funext j
    rw [took, List.any_append, ← took]
    simp [keeps]
  rw [boundaries, boundaries, same]
  cases acquires : (call.operation i shared point).acquires with
  | false => rw [Pool.filter_concat_of_neg acquires]
  | true =>
    have before : call.point = .tryLock := (Operation.acquires_iff.mp acquires).1
    have fresh : took (operations c factory es) (call.operation i shared point).call = false :=
      untaken ran found (by rw [before]; exact Nat.lt_of_succ_lt (Nat.lt_succ_self 4))
    rw [Pool.filter_concat_of_pos acquires]
    exact Pool.filter_concat_of_neg fresh

/-- Only the call that holds the mutex takes a boundary, and it was the last to acquire it. -/
theorem boundaries_take (ran : run (step c) (start factory) es = some s)
    (found : s.calls[i]? = some call) {shared : Shared W} {point : Point α τ ρ}
    (takes : (call.operation i shared point).takes = true) :
    ∃ a, a.call = i ∧ a.sample = call.sample ∧
      boundaries (operations c factory es ++ [call.operation i shared point]) =
        boundaries (operations c factory es) ++ [a] := by
  have here : call.point = .reloadDue := (Operation.takes_iff.mp takes).1
  obtain ⟨rest, a, acquired, own, sampled⟩ := run_holder ran found (by rw [here]; rfl)
  refine ⟨a, own, sampled, ?_⟩
  have fresh : took (operations c factory es) a.call = false := by
    rw [own]
    exact untaken ran found (by rw [here]; exact Nat.lt_succ_self 4)
  have silent : (call.operation i shared point).acquires = false := by
    simp [Operation.acquires, Call.operation, here]
  have now (j : Nat) : took (operations c factory es ++ [call.operation i shared point]) j =
      (took (operations c factory es) j || i == j) := by
    have same : (call.operation i shared point).call = i := rfl
    rw [took, List.any_append, ← took]
    simp [takes, same]
  have distinct : ∀ b ∈ rest, b.call ≠ i := by
    intro b member same
    have ordered := (run_logged ran).ordered.filter Operation.acquires
    rw [acquired, List.pairwise_append] at ordered
    have order := ordered.2.2 b member a List.mem_cons_self (same.trans own.symm)
    have acquires : ∀ op ∈ rest ++ [a], op.acquires = true := by
      intro op member
      rw [← acquired] at member
      exact (List.mem_filter.mp member).2
    rw [(Operation.acquires_iff.mp (acquires b (List.mem_append_left _ member))).2,
      (Operation.acquires_iff.mp (acquires a (by simp))).1] at order
    exact absurd order (by simp [Point.rank])
  have before : boundaries (operations c factory es) =
      rest.filter fun op => took (operations c factory es) op.call := by
    rw [boundaries, acquired]
    exact Pool.filter_concat_of_neg fresh
  rw [before, boundaries, Pool.filter_concat_of_neg silent, acquired,
    Pool.filter_concat_of_pos (by rw [now, own]; simp)]
  congr 1
  apply List.filter_congr
  intro b member
  rw [now, beq_eq_false_iff_ne.mpr (distinct b member).symm, Bool.or_false]

/-- A boundary that comes after another is taken past the other's deadline. -/
theorem run_spaced (ran : run (step c) (start factory) es = some s)
    (exact : Throughout c factory (fun _ => DeadlinesFit c) es) :
    (boundaries (operations c factory es)).Pairwise (Apart c (operations c factory es)) := by
  refine run_admitted (P := fun log _ => (boundaries log).Pairwise (Apart c log)) .nil ?_ ?_ ran exact
  · intro log s spaced sample _
    exact spaced
  · intro es s i spurious call shared point ran exact spaced found _ moved
    have still := spaced.imp fun apart => apart.append [call.operation i shared point]
    cases takes : (call.operation i shared point).takes with
    | false =>
      rw [boundaries_keep ran found takes]
      exact still
    | true =>
      obtain ⟨a, own, sampled, added⟩ := boundaries_take ran found takes
      have here : call.point = .reloadDue := (Operation.takes_iff.mp takes).1
      have there : point = .loadOld := (Operation.takes_iff.mp takes).2
      have late := moved.late here there
      rw [added]
      refine List.pairwise_append.mpr ⟨still, List.pairwise_singleton .., ?_⟩
      intro b member last single
      obtain rfl := List.mem_singleton.mp single
      obtain ⟨acquired, taken⟩ := List.mem_filter.mp member
      have other : b.call ≠ i := by
        intro same
        rw [same, untaken ran found (by rw [here]; exact Nat.lt_succ_self 4)] at taken
        contradiction
      obtain ⟨candidate, known, below⟩ := spaced_before ran exact found (by rw [here]; rfl)
        (List.mem_of_mem_filter acquired) other taken
      refine ⟨candidate, candidateOf_append known _, ?_⟩
      rw [sampled]
      exact Int.lt_of_le_of_lt below late

/-- Every end time that has been computed is the exact sum. -/
theorem run_exact (ran : run (step c) (start factory) es = some s)
    (exact : Throughout c factory (fun _ => DeadlinesFit c) es) {op : Operation α τ ρ}
    (member : op ∈ operations c factory es) :
    endTimeNs op.sample = op.sample.startTimeNs + op.sample.rttNs := by
  have all := run_admitted (P := fun log s =>
    (∀ (i : Nat) call, s.calls[i]? = some call → call.point.rank < 17 →
      endTimeNs call.sample = call.sample.startTimeNs + call.sample.rttNs) ∧
    ∀ op ∈ log, endTimeNs op.sample = op.sample.startTimeNs + op.sample.rttNs)
    (by simp [start]) ?_ ?_ ran exact
  · exact all.2 op member
  · rintro log s ⟨calls, ops⟩ sample exact
    refine ⟨?_, ops⟩
    intro i call found unreturned
    rcases Pool.getElem?_concat_eq_some.mp found with before | ⟨_, rfl⟩
    · exact calls i call before unreturned
    · simp only [Config.enter] at unreturned ⊢
      split at unreturned
      · exact absurd unreturned (Nat.lt_irrefl 17)
      · exact wrap_eq (by decide) (exact (by omega))
  · rintro es s i spurious call shared point ran _ ⟨calls, ops⟩ found _ moved
    have started : endTimeNs call.sample = call.sample.startTimeNs + call.sample.rttNs :=
      calls i call found moved.unreturned
    constructor
    · intro j call' found' unreturned
      rcases Pool.getElem?_modify_cases found found' with ⟨rfl, rfl⟩ | ⟨_, earlier⟩
      · exact started
      · exact calls j call' earlier unreturned
    · intro op member
      rcases List.mem_append.mp member with earlier | new
      · exact ops op earlier
      · obtain rfl := List.mem_singleton.mp new
        exact started

/-- The boundary work is done by calls that have acquired the mutex and taken the boundary. -/
theorem run_bounded (ran : run (step c) (start factory) es = some s) {op : Operation α τ ρ}
    (member : op ∈ operations c factory es) (taken : 5 ≤ op.before.rank)
    (inside : op.before.rank ≤ 15) :
    ∃ a ∈ boundaries (operations c factory es), a.call = op.call := by
  have both := run_operations (P := fun log _ => ∀ op ∈ log, 5 ≤ op.before.rank →
    op.before.rank ≤ 15 → (∃ a ∈ log.filter Operation.acquires, a.call = op.call) ∧
      took log op.call = true) (by simp) ?_ ?_ ran op member taken inside
  · obtain ⟨⟨a, acquired, own⟩, took⟩ := both
    exact ⟨a, List.mem_filter.mpr ⟨acquired, own ▸ took⟩, own⟩
  · intro log s acquired sample
    exact acquired
  · intro es s i call shared point ran acquired found moved op member taken inside
    rw [List.filter_append, took, List.any_append, ← took]
    rcases List.mem_append.mp member with earlier | new
    · obtain ⟨⟨a, member', own⟩, took'⟩ := acquired op earlier taken inside
      exact ⟨⟨a, List.mem_append_left _ member', own⟩, by rw [took', Bool.true_or]⟩
    · obtain rfl := List.mem_singleton.mp new
      have locked := call.point.locked_iff.mpr ⟨Nat.le_of_succ_le taken, Nat.le_succ_of_le inside⟩
      obtain ⟨rest, a, last, own, _⟩ := run_holder ran found locked
      have took' : took (operations c factory es) i = true := run_took ran found taken inside
      refine ⟨⟨a, List.mem_append_left _ (by rw [last]; simp), own⟩, ?_⟩
      exact Bool.or_eq_true_iff.mpr (.inl took')
end State

def Point.inDelegate : Point α τ ρ → Bool
  | .boundary _ _ .inDelegate => true
  | _ => false

theorem Point.locked_of_inDelegate (point : Point α τ ρ) (delegating : point.inDelegate = true) :
    point.locked = true := by
  cases point <;> first | rfl | contradiction

/-- What the mutex and the second check are for, of a run with this log that has reached
`s`. -/
structure BoundariesExclusive (c : Config) (log : List (Operation α τ ρ)) (s : State W α τ ρ) :
    Prop where
  spaced : (boundaries log).Pairwise fun a b => ∃ candidate,
    candidateOf log a.call = some candidate ∧ c.minWindowTimeNs ≤ windowTimeNs c candidate ∧
      a.sample.startTimeNs + a.sample.rttNs + windowTimeNs c candidate <
        b.sample.startTimeNs + b.sample.rttNs
  increasing : (0 :: deadlines log).Pairwise (· < ·)
  deadline : (0 :: deadlines log).getLast? = some s.nextUpdateTimeNs
  once : (delegations log).Nodup
  own : ∀ i ∈ delegations log, ∃ a ∈ boundaries log, a.call = i
  apart : s.calls.countP (fun call => call.point.inDelegate) ≤ 1

section Exclusive
variable [AtomicWindow W α τ ρ] {c : Config} {factory : W} {s : State W α τ ρ} {es : List Event}

theorem run_delegations (ran : run (step c) (start factory) es = some s) :
    (delegations (operations c factory es)).Nodup ∧
      ∀ i ∈ delegations (operations c factory es),
        ∃ a ∈ boundaries (operations c factory es), a.call = i := by
  constructor
  · rw [delegations, List.Nodup, List.pairwise_map]
    refine ((run_logged ran).ordered.filter Operation.delegates).imp_of_mem ?_
    intro a b first second ordered same
    have before := Operation.rank_of_delegates (List.mem_filter.mp first).2
    have after := Operation.rank_of_delegates (List.mem_filter.mp second).2
    have order := ordered same
    omega
  · intro i member
    obtain ⟨op, delegating, rfl⟩ := List.mem_map.mp member
    obtain ⟨member, delegates⟩ := List.mem_filter.mp delegating
    have rank := Operation.rank_of_delegates delegates
    exact run_bounded ran member (by omega) (by omega)

/-- For every window implementation, any number of calls and any interleaving of their
atomic operations: boundaries are taken one at a time, each past the deadline that the one
before it has set, and the delegate is called at most once for each. -/
theorem boundaries_exclusive (c : Config) (factory : W) (es : List Event) (s : State W α τ ρ)
    (ran : run (step c) (start factory) es = some s)
    (exact : Along (step c) (DeadlinesFit c) (start factory) es) :
    BoundariesExclusive c (operations c factory es) s where
  spaced := by
    have exact := throughout_of_along exact
    refine (run_spaced ran exact).imp_of_mem ?_
    rintro a b before after ⟨candidate, known, apart⟩
    have member {op : Operation α τ ρ} (taken : op ∈ boundaries (operations c factory es)) :
        op ∈ operations c factory es := List.mem_of_mem_filter (List.mem_of_mem_filter taken)
    rw [run_exact ran exact (member before), run_exact ran exact (member after)] at apart
    exact ⟨candidate, known, minWindowTimeNs_le c candidate, apart⟩
  increasing := (run_deadlines ran (throughout_of_along exact)).1
  deadline := (run_deadlines ran (throughout_of_along exact)).2.2
  once := (run_delegations ran).1
  own := (run_delegations ran).2
  apart := by
    have count := run_locked ran
    have inside : s.calls.countP (fun call => call.point.inDelegate) ≤
        s.calls.countP (fun call => call.point.locked) := by
      apply List.countP_mono_left
      intro call _ delegating
      exact call.point.locked_of_inDelegate delegating
    split at count <;> omega
end Exclusive

/-- The second call finds the first deadline passed as well, gets the mutex after the first
call has moved the deadline, and leaves again. The third call takes the next boundary. -/
def contested : List Event :=
  [.onSample ⟨0, 5, 1, false⟩, .onSample ⟨0, 7, 1, false⟩, .onSample ⟨20, 6, 1, false⟩] ++
    List.replicate 7 (.advance 0) ++ List.replicate 6 (.advance 1) ++
    List.replicate 20 (.advance 0) ++ List.replicate 3 (.advance 1) ++ List.replicate 27 (.advance 2)

theorem contested_exclusive : ∃ s,
    run (step quickWindows) (start ({} : AverageSampleWindow)) contested = some s ∧
    (boundaries (operations quickWindows ({} : AverageSampleWindow) contested)).map
      Operation.call = [0, 2] ∧
    deadlines (operations quickWindows ({} : AverageSampleWindow) contested) = [15, 38] ∧
    BoundariesExclusive quickWindows
      (operations quickWindows ({} : AverageSampleWindow) contested) s := by
  have reached : (run (step quickWindows) (start ({} : AverageSampleWindow)) contested).isSome := by
    decide +kernel
  obtain ⟨s, ran⟩ := Option.isSome_iff_exists.mp reached
  refine ⟨s, ran, by decide +kernel, by decide +kernel, ?_⟩
  exact boundaries_exclusive quickWindows ({} : AverageSampleWindow) contested s ran
    (by decide +kernel)
end Limen.WindowedLimit
