import Limen.WindowedLimit.Steps
import Mathlib.Algebra.Order.BigOperators.Group.List

/-! Samples are not counted twice. A slot's count is raised by writers at any time and is
read and then cleared by whoever is inside the boundary section; between the two nobody
else reads it. -/
namespace Limen.WindowedLimit
open Transition State
variable {W : Type}

/-- A window whose `SampleCount` is a counter that `AddSample` raises first and that `Reset`
clears first. -/
class CountedWindow (W : Type) [AtomicWindow W AddPoint TrackPoint ResetPoint] : Prop where
  addEntry : AtomicWindow.addEntry W = AddPoint.count
  raises : ∀ (w : W) s spurious slot next, AtomicWindow.addStep w s spurious .count = (slot, next) →
    SampleWindow.sampleCount slot = wrap 32 (SampleWindow.sampleCount w + 1)
  adds : ∀ (w : W) s spurious pc slot next, AtomicWindow.addStep w s spurious pc = (slot, next) →
    next ≠ some .count ∧
      (pc ≠ .count → SampleWindow.sampleCount slot = SampleWindow.sampleCount w)
  resetEntry : AtomicWindow.resetEntry W = ResetPoint.count
  clears : ∀ (w : W) slot next, AtomicWindow.resetStep w .count = (slot, next) →
    SampleWindow.sampleCount slot = 0
  resets : ∀ (w : W) pc slot next, AtomicWindow.resetStep w pc = (slot, next) →
    next ≠ some .count ∧
      (pc ≠ .count → SampleWindow.sampleCount slot = SampleWindow.sampleCount w)

instance : CountedWindow AverageSampleWindow where
  addEntry := rfl
  raises := by
    rintro w s spurious slot next ⟨⟩
    rfl
  adds := by
    intro w s spurious pc slot next added
    rcases AverageSampleWindow.addStep_cases added with ⟨rfl, _, rfl⟩ | ⟨index, rfl, rfl, rfl⟩ |
      ⟨_, ⟨x, rfl⟩, late⟩
    · exact ⟨by simp, by simp⟩
    · exact ⟨by simp, fun _ => rfl⟩
    · exact ⟨fun again => absurd (late _ again) (by decide), fun _ => rfl⟩
  resetEntry := rfl
  clears := by
    rintro w slot next ⟨⟩
    rfl
  resets := by
    intro w pc slot next stored
    cases pc <;> cases stored <;> simp [SampleWindow.sampleCount]

instance : CountedWindow PercentileSampleWindow where
  addEntry := rfl
  raises := by
    rintro w s spurious slot next ⟨⟩
    rfl
  adds := by
    intro w s spurious pc slot next added
    rcases PercentileSampleWindow.addStep_cases added with ⟨rfl, _, rfl⟩ | ⟨index, rfl, rfl, rfl⟩ |
      ⟨_, ⟨x, rfl⟩, late⟩
    · exact ⟨by split <;> simp, by simp⟩
    · exact ⟨by simp, fun _ => rfl⟩
    · exact ⟨fun again => absurd (late _ again) (by decide), fun _ => rfl⟩
  resetEntry := rfl
  clears := by
    rintro w slot next ⟨⟩
    rfl
  resets := by
    intro w pc slot next stored
    cases pc <;> cases stored <;> simp [SampleWindow.sampleCount]

/-- What an operation does with a slot's count. -/
inductive Entry where
  | raised (idx : Fin 2)
  | cleared (old : Fin 2)
  | read (old : Fin 2) (sampleCount : Int)

def Operation.entry? (op : Operation AddPoint TrackPoint ResetPoint) : Option Entry :=
  match op.before, op.after with
  | .addSample idx .count, _ => some (.raised idx)
  | .boundary old _ (.reset .count), _ => some (.cleared old)
  | .boundary old _ .loadSampleCount, .boundary _ read _ => some (.read old read.sampleCount)
  | _, _ => none

structure Ledger where
  /-- The calls that have raised a slot's count since it was last cleared. -/
  tally : Fin 2 → List Nat := fun _ => []
  /-- For every `SampleCount` of a boundary, the calls it has counted and its value. -/
  readings : List (List Nat × Int) := []

def Ledger.enter (b : Ledger) (op : Operation AddPoint TrackPoint ResetPoint) : Ledger :=
  match op.entry? with
  | some (.raised idx) => { b with tally := Function.update b.tally idx (b.tally idx ++ [op.call]) }
  | some (.cleared old) => { b with tally := Function.update b.tally old [] }
  | some (.read old sampleCount) => { b with readings := b.readings ++ [(b.tally old, sampleCount)] }
  | none => b

def ledger (log : List (Operation AddPoint TrackPoint ResetPoint)) : Ledger :=
  log.foldl Ledger.enter {}

/-- All calls counted so far, reading by reading. -/
def Ledger.counted (b : Ledger) : List Nat := (b.readings.map Prod.fst).flatten

/-- The call has raised the count of its slot. -/
def Point.raised : Point AddPoint TrackPoint ResetPoint → Bool
  | .loadActive | .addSample _ .count => false
  | _ => true

/-- The call has read the slot's count and has yet to clear it. -/
def Point.awaits (k : Fin 2) : Point AddPoint TrackPoint ResetPoint → Bool
  | .boundary old _ .loadDidDrop | .boundary old _ .storeActive | .boundary old _ .storeDue
  | .boundary old _ .callDelegate | .boundary old _ .inDelegate
  | .boundary old _ (.reset .count) => old = k
  | _ => false

section Step
variable [AtomicWindow W AddPoint TrackPoint ResetPoint] {c : Config} {w w' : Shared W}
  {s : Sample} {point point' : Point AddPoint TrackPoint ResetPoint}

/-- The count of each slot. -/
def Shared.counts (w : Shared W) (k : Fin 2) : Int := SampleWindow.sampleCount (w.slots k)

/-- What an operation does to the counts. -/
inductive Counts (w w' : Shared W) : Point AddPoint TrackPoint ResetPoint →
    Point AddPoint TrackPoint ResetPoint → Prop
  | raised {idx : Fin 2} {next : Point AddPoint TrackPoint ResetPoint} (raised : next.raised = true)
      (counts : w'.counts = Function.update w.counts idx (wrap 32 (w.counts idx + 1))) :
      Counts w w' (.addSample idx .count) next
  | cleared {old : Fin 2} {seen : Aggregate} {next : Point AddPoint TrackPoint ResetPoint}
      (raised : next.raised = true) (counts : w'.counts = Function.update w.counts old 0) :
      Counts w w' (.boundary old seen (.reset .count)) next
  | read {old : Fin 2} {seen seen' : Aggregate} (counts : w'.counts = w.counts)
      (value : seen'.sampleCount = w.counts old) :
      Counts w w' (.boundary old seen .loadSampleCount) (.boundary old seen' .loadDidDrop)
  | other {here next : Point AddPoint TrackPoint ResetPoint} (counts : w'.counts = w.counts)
      (silent : ∀ call sample due, Operation.entry? ⟨call, sample, here, next, due⟩ = none)
      (raised : here.raised = true → next.raised = true)
      (awaits : ∀ k, here.awaits k = true → next.awaits k = true) : Counts w w' here next

theorem counts_update (w : Shared W) (k : Fin 2) (slot : W) :
    Shared.counts { w with slots := Function.update w.slots k slot } =
      Function.update w.counts k (SampleWindow.sampleCount slot) :=
  Function.comp_update SampleWindow.sampleCount w.slots k slot

theorem counts_kept {k : Fin 2} {slot : W} (same : SampleWindow.sampleCount slot = w.counts k) :
    Shared.counts { w with slots := Function.update w.slots k slot } = w.counts := by
  rw [counts_update, same, Function.update_eq_self]

variable [CountedWindow W]

theorem Moves.counts (moved : Moves c w s point w' point') : Counts w w' point point' := by
  cases moved with
  | adding spurious added =>
    rename_i idx pc pc' slot
    obtain ⟨onward, same⟩ := CountedWindow.adds _ _ _ _ _ _ added
    have raised : (Point.addSample idx pc' : Point AddPoint TrackPoint ResetPoint).raised = true := by
      cases pc' <;> first | rfl | contradiction
    by_cases first' : pc = .count
    · subst first'
      refine .raised raised ?_
      rw [counts_update, CountedWindow.raises _ _ _ _ _ added]
      rfl
    · refine .other (counts_kept (same first')) ?_ (fun _ => raised) (by simp [Point.awaits])
      intro call sample due
      cases pc <;> first | rfl | contradiction
  | added spurious added =>
    rename_i idx pc slot
    obtain ⟨_, same⟩ := CountedWindow.adds _ _ _ _ _ _ added
    by_cases first' : pc = .count
    · subst first'
      refine .raised rfl ?_
      rw [counts_update, CountedWindow.raises _ _ _ _ _ added]
      rfl
    · refine .other (counts_kept (same first')) ?_ (fun _ => rfl) (by simp [Point.awaits])
      intro call sample due
      cases pc <;> first | rfl | contradiction
  | resetting stored =>
    rename_i old read pc pc' slot
    obtain ⟨onward, same⟩ := CountedWindow.resets _ _ _ _ stored
    by_cases first' : pc = .count
    · subst first'
      refine .cleared rfl ?_
      rw [counts_update, CountedWindow.clears _ _ _ stored]
    · refine .other (counts_kept (same first')) ?_ (fun _ => rfl) ?_
      · intro call sample due
        cases pc <;> first | rfl | contradiction
      · intro k awaits
        cases pc <;> contradiction
  | reset stored =>
    rename_i old read pc slot
    obtain ⟨_, same⟩ := CountedWindow.resets _ _ _ _ stored
    by_cases first' : pc = .count
    · subst first'
      refine .cleared rfl ?_
      rw [counts_update, CountedWindow.clears _ _ _ stored]
    · refine .other (counts_kept (same first')) ?_ (fun _ => rfl) ?_
      · intro call sample due
        cases pc <;> first | rfl | contradiction
      · intro k awaits
        cases pc <;> contradiction
  | loadSampleCount => exact .read rfl rfl
  | loadActive =>
    rw [CountedWindow.addEntry]
    exact .other rfl (fun _ _ _ => rfl) (by simp [Point.raised]) (by simp [Point.awaits])
  | skips unready =>
    rw [CountedWindow.resetEntry]
    exact .other rfl (fun _ _ _ => rfl) (by simp [Point.raised]) (by simp [Point.awaits])
  | delegated =>
    rw [CountedWindow.resetEntry]
    exact .other rfl (fun _ _ _ => rfl) (by simp [Point.raised]) (by simp [Point.awaits])
  | _ => exact .other rfl (fun _ _ _ => rfl) (by simp [Point.raised]) (by simp [Point.awaits])
end Step

theorem ledger_concat (log : List (Operation AddPoint TrackPoint ResetPoint))
    (op : Operation AddPoint TrackPoint ResetPoint) :
    ledger (log ++ [op]) = (ledger log).enter op :=
  List.foldl_concat ..

/-- The books agree with the slots, and nobody is in them twice: who has been counted is
counted no more, except by the one who has counted it and has not cleared the slot yet. -/
structure Balanced (c : Config) (b : Ledger) (s : State W AddPoint TrackPoint ResetPoint)
    [AtomicWindow W AddPoint TrackPoint ResetPoint] : Prop where
  counts : ∀ k, s.counts k = wrap 32 (b.tally k).length
  values : ∀ reading ∈ b.readings, reading.2 = wrap 32 reading.1.length
  nodup : b.counted.Nodup
  tallies : ∀ k, (b.tally k).Nodup
  apart : ∀ k k', k ≠ k' → (b.tally k).Disjoint (b.tally k')
  entered : ∀ i, (i ∈ b.counted ∨ ∃ k, i ∈ b.tally k) → ∃ call, s.calls[i]? = some call ∧
    call.point.raised = true ∧ c.minRttThresholdNs ≤ call.sample.rttNs
  fresh : ∀ k, (∃ (i : Nat) (call : Call AddPoint TrackPoint ResetPoint),
    s.calls[i]? = some call ∧ call.point.awaits k = true) ∨ (b.tally k).Disjoint b.counted

section Run
variable [AtomicWindow W AddPoint TrackPoint ResetPoint] {c : Config}
  {factory : W} {s : State W AddPoint TrackPoint ResetPoint} {es : List Event} {b : Ledger}

theorem Balanced.enters (balanced : Balanced c b s) (sample : Sample) :
    Balanced c b { s with calls := s.calls ++ [c.enter sample] } where
  counts := balanced.counts
  values := balanced.values
  nodup := balanced.nodup
  tallies := balanced.tallies
  apart := balanced.apart
  entered := by
    intro i member
    obtain ⟨call, found, raised, accepted⟩ := balanced.entered i member
    exact ⟨call, Pool.getElem?_concat_eq_some.mpr (.inl found), raised, accepted⟩
  fresh := by
    intro k
    rcases balanced.fresh k with ⟨i, call, found, awaits⟩ | disjoint
    · exact .inl ⟨i, call, Pool.getElem?_concat_eq_some.mpr (.inl found), awaits⟩
    · exact .inr disjoint

section Moves
variable {i : Nat} {call : Call AddPoint TrackPoint ResetPoint} {shared : Shared W}
  {point : Point AddPoint TrackPoint ResetPoint}

/-- Who is in the books has entered and stays. -/
theorem Balanced.entered_moves (balanced : Balanced c b s) (found : s.calls[i]? = some call)
    (raised : call.point.raised = true → point.raised = true) {j : Nat}
    (member : j ∈ b.counted ∨ ∃ k, j ∈ b.tally k) : ∃ call', (s.calls.modify i (.moveTo point))[j]? =
      some call' ∧ call'.point.raised = true ∧ c.minRttThresholdNs ≤ call'.sample.rttNs := by
  obtain ⟨call', found', holds⟩ := balanced.entered j member
  refine Pool.modify_keeps (P := fun call => call.point.raised = true ∧
    c.minRttThresholdNs ≤ call.sample.rttNs) found found' holds ?_
  rintro ⟨before, accepted⟩
  exact ⟨raised before, accepted⟩

theorem Balanced.fresh_moves (balanced : Balanced c b s) (found : s.calls[i]? = some call) {k : Fin 2}
    (awaits : call.point.awaits k = true → point.awaits k = true) :
    (∃ (j : Nat) (call' : Call AddPoint TrackPoint ResetPoint),
      (s.calls.modify i (.moveTo point))[j]? = some call' ∧ call'.point.awaits k = true) ∨
      (b.tally k).Disjoint b.counted := by
  rcases balanced.fresh k with ⟨j, call', found', waits⟩ | disjoint
  · exact .inl ⟨j, Pool.modify_keeps (P := fun call => call.point.awaits k = true) found found' waits
      awaits⟩
  · exact .inr disjoint

theorem Balanced.other (balanced : Balanced c b s) (found : s.calls[i]? = some call)
    (counts : shared.counts = s.counts) (raised : call.point.raised = true → point.raised = true)
    (awaits : ∀ k, call.point.awaits k = true → point.awaits k = true) :
    Balanced c b { shared with calls := s.calls.modify i (.moveTo point) } where
  counts k := (congrFun counts k).trans (balanced.counts k)
  values := balanced.values
  nodup := balanced.nodup
  tallies := balanced.tallies
  apart := balanced.apart
  entered _ member := balanced.entered_moves found raised member
  fresh k := balanced.fresh_moves found (awaits k)

theorem wrap_succ (n : Nat) : wrap 32 (wrap 32 n + 1) = wrap 32 ((n + 1 : Nat) : Int) := by
  rw [wrap_wrap_add]
  rfl

/-- Who has not raised a count is in no book. -/
theorem Balanced.absent (balanced : Balanced c b s) (found : s.calls[i]? = some call)
    (before : call.point.raised = false) : i ∉ b.counted ∧ ∀ k, i ∉ b.tally k := by
  have unknown : ¬ (i ∈ b.counted ∨ ∃ k, i ∈ b.tally k) := by
    intro member
    obtain ⟨call', found', raised, _⟩ := balanced.entered i member
    obtain rfl : call = call' := Option.some.inj (found.symm.trans found')
    rw [before] at raised
    contradiction
  exact ⟨fun counted => unknown (.inl counted), fun k there => unknown (.inr ⟨k, there⟩)⟩

theorem Balanced.raised {idx : Fin 2} (balanced : Balanced c b s) (found : s.calls[i]? = some call)
    (before : call.point.raised = false) (after : point.raised = true)
    (accepted : c.minRttThresholdNs ≤ call.sample.rttNs)
    (unread : ∀ k, call.point.awaits k = false)
    (counts : shared.counts = Function.update s.counts idx (wrap 32 (s.counts idx + 1))) :
    Balanced c { b with tally := Function.update b.tally idx (b.tally idx ++ [i]) }
      { shared with calls := s.calls.modify i (.moveTo point) } := by
  have absent := balanced.absent found before
  have tally (k : Fin 2) (j : Nat) : j ∈ Function.update b.tally idx (b.tally idx ++ [i]) k ↔
      j ∈ b.tally k ∨ (k = idx ∧ j = i) := by
    by_cases here : k = idx
    · subst here
      simp
    · simp [here]
  constructor
  · intro k
    refine (congrFun counts k).trans ?_
    dsimp only
    by_cases here : k = idx
    · subst here
      rw [Function.update_self, Function.update_self, balanced.counts, wrap_succ, List.length_append,
        List.length_singleton]
    · rw [Function.update_of_ne here, Function.update_of_ne here, balanced.counts]
  · exact balanced.values
  · exact balanced.nodup
  · intro k
    dsimp only
    by_cases here : k = idx
    · subst here
      rw [Function.update_self]
      rw [← List.concat_eq_append]
      exact (balanced.tallies k).concat (absent.2 k)
    · rw [Function.update_of_ne here]
      exact balanced.tallies k
  · intro k k' different j member member'
    rcases (tally k j).mp member with there | ⟨rfl, rfl⟩ <;>
      rcases (tally k' j).mp member' with there' | ⟨rfl, same⟩
    · exact balanced.apart k k' different there there'
    · exact absurd (same ▸ there) (absent.2 k)
    · exact absurd there' (absent.2 k')
    · exact different rfl
  · intro j member
    have known : (j ∈ b.counted ∨ ∃ k, j ∈ b.tally k) ∨ j = i := by
      rcases member with counted | ⟨k, there⟩
      · exact .inl (.inl counted)
      · rcases (tally k j).mp there with earlier | ⟨_, new⟩
        · exact .inl (.inr ⟨k, earlier⟩)
        · exact .inr new
    rcases known with earlier | rfl
    · exact balanced.entered_moves found (fun _ => after) earlier
    · exact ⟨_, Pool.getElem?_modify_self (Call.moveTo point) found, after, accepted⟩
  · intro k
    have awaits : call.point.awaits k = true → point.awaits k = true := by simp [unread]
    rcases balanced.fresh_moves found awaits with waits | disjoint
    · exact .inl waits
    · refine .inr ?_
      intro j member counted
      rcases (tally k j).mp member with there | ⟨_, rfl⟩
      · exact disjoint there counted
      · exact absent.1 counted

theorem Balanced.cleared {old : Fin 2} (balanced : Balanced c b s) (found : s.calls[i]? = some call)
    (after : point.raised = true) (elsewhere : ∀ k, k ≠ old → call.point.awaits k = false)
    (counts : shared.counts = Function.update s.counts old 0) :
    Balanced c { b with tally := Function.update b.tally old [] }
      { shared with calls := s.calls.modify i (.moveTo point) } := by
  have tally (k : Fin 2) (j : Nat) (member : j ∈ Function.update b.tally old [] k) :
      k ≠ old ∧ j ∈ b.tally k := by
    by_cases here : k = old
    · subst here
      simp at member
    · rw [Function.update_of_ne here] at member
      exact ⟨here, member⟩
  constructor
  · intro k
    refine (congrFun counts k).trans ?_
    dsimp only
    by_cases here : k = old
    · subst here
      rw [Function.update_self, Function.update_self]
      rfl
    · rw [Function.update_of_ne here, Function.update_of_ne here, balanced.counts]
  · exact balanced.values
  · exact balanced.nodup
  · intro k
    dsimp only
    by_cases here : k = old
    · subst here
      rw [Function.update_self]
      exact List.nodup_nil
    · rw [Function.update_of_ne here]
      exact balanced.tallies k
  · intro k k' different j member member'
    exact balanced.apart k k' different (tally k j member).2 (tally k' j member').2
  · intro j member
    refine balanced.entered_moves found (fun _ => after) ?_
    rcases member with counted | ⟨k, there⟩
    · exact .inl counted
    · exact .inr ⟨k, (tally k j there).2⟩
  · intro k
    by_cases here : k = old
    · refine .inr ?_
      intro j member
      exact absurd here (tally k j member).1
    · have awaits : call.point.awaits k = true → point.awaits k = true := by
        simp [elsewhere k here]
      rcases balanced.fresh_moves found awaits with waits | disjoint
      · exact .inl waits
      · exact .inr fun j member counted => disjoint (tally k j member).2 counted

/-- The count is read while nobody waits to clear a slot, so all that is in it is new. -/
theorem Balanced.read {old : Fin 2} {value : Int} (balanced : Balanced c b s)
    (found : s.calls[i]? = some call) (after : point.raised = true)
    (nobody : ∀ (j : Nat) (call' : Call AddPoint TrackPoint ResetPoint) k,
      s.calls[j]? = some call' → call'.point.awaits k = false)
    (waits : point.awaits old = true) (counts : shared.counts = s.counts)
    (exact : value = s.counts old) :
    Balanced c { b with readings := b.readings ++ [(b.tally old, value)] }
      { shared with calls := s.calls.modify i (.moveTo point) } := by
  have counted : Ledger.counted { b with readings := b.readings ++ [(b.tally old, value)] } =
      b.counted ++ b.tally old := by
    simp [Ledger.counted]
  have fresh (k : Fin 2) : (b.tally k).Disjoint b.counted := by
    rcases balanced.fresh k with ⟨j, call', found', awaits⟩ | disjoint
    · rw [nobody j call' k found'] at awaits
      contradiction
    · exact disjoint
  constructor
  · exact fun k => (congrFun counts k).trans (balanced.counts k)
  · intro reading member
    rcases List.mem_append.mp member with earlier | new
    · exact balanced.values reading earlier
    · obtain rfl := List.mem_singleton.mp new
      exact exact.trans (balanced.counts old)
  · rw [counted]
    exact balanced.nodup.append (balanced.tallies old) (fresh old).symm
  · exact balanced.tallies
  · exact balanced.apart
  · intro j member
    refine balanced.entered_moves found (fun _ => after) ?_
    rw [counted, List.mem_append] at member
    rcases member with (earlier | new) | there
    · exact .inl earlier
    · exact .inr ⟨old, new⟩
    · exact .inr there
  · intro k
    by_cases here : k = old
    · subst here
      exact .inl ⟨i, _, Pool.getElem?_modify_self (Call.moveTo point) found, waits⟩
    · refine .inr ?_
      rw [counted]
      intro j member elsewhere
      rcases List.mem_append.mp elsewhere with earlier | new
      · exact fresh k member earlier
      · exact balanced.apart k old here member new
end Moves

variable [CountedWindow W]

theorem awaits_locked {point : Point AddPoint TrackPoint ResetPoint} {k : Fin 2}
    (awaits : point.awaits k = true) : point.locked = true := by
  cases point <;> first | rfl | contradiction

theorem run_balanced (empty : SampleWindow.sampleCount factory = 0)
    (ran : run (step c) (start factory) es = some s) :
    Balanced c (ledger (operations c factory es)) s := by
  refine run_operations (P := fun log s => Balanced c (ledger log) s) ?_ ?_ ?_ ran
  · have zero : wrap 32 (([] : List Nat).length : Int) = 0 := by decide
    exact ⟨fun _ => empty.trans zero.symm, by simp [ledger], List.nodup_nil, fun _ => List.nodup_nil,
      fun _ _ _ _ member => absurd member List.not_mem_nil, by simp [ledger, Ledger.counted],
      fun _ => .inr fun _ member => absurd member List.not_mem_nil⟩
  · exact fun balanced sample => balanced.enters sample
  · intro es s i call shared point ran balanced found moved
    rw [ledger_concat]
    obtain ⟨sample, here⟩ := call
    cases moved.counts with
    | raised raised counts =>
      exact balanced.raised found rfl raised (run_accepted ran found (by simp [Point.rank]))
        (fun _ => rfl) counts
    | cleared raised counts =>
      refine balanced.cleared found raised ?_ counts
      intro k elsewhere
      simpa [Point.awaits] using elsewhere.symm
    | read counts value =>
      refine balanced.read found rfl ?_ (by simp [Point.awaits]) counts value
      intro j call' k found'
      rw [← Bool.not_eq_true]
      intro awaits
      obtain rfl := locked_unique ran found' found (awaits_locked awaits) rfl
      obtain rfl := Option.some.inj (found.symm.trans found')
      contradiction
    | other counts silent raised awaits =>
      have same : (ledger (operations c factory es)).enter
          (Call.operation ⟨sample, here⟩ i shared point) =
          ledger (operations c factory es) := by
        rw [Ledger.enter, Call.operation, silent]
      rw [same]
      exact balanced.other found counts raised awaits

/-- A value of a counter that has wrapped is no more than the number of increments. -/
theorem wrap_le (n : Nat) : wrap 32 n ≤ n := by
  rw [wrap, Int.bmod_def]
  split <;> omega
end Run

/-- Of a run with this log that has reached `s`: no call is counted twice. -/
structure CountedOnce (c : Config) (log : List (Operation AddPoint TrackPoint ResetPoint))
    (s : State W AddPoint TrackPoint ResetPoint) : Prop where
  once : ((ledger log).readings.map Prod.fst).flatten.Nodup
  value : ∀ reading ∈ (ledger log).readings, reading.2 = wrap 32 reading.1.length
  accepted : ∀ reading ∈ (ledger log).readings, ∀ i ∈ reading.1, ∃ call, s.calls[i]? = some call ∧
    c.minRttThresholdNs ≤ call.sample.rttNs
  total : ((ledger log).readings.map Prod.snd).sum ≤
    s.calls.countP fun call => c.minRttThresholdNs ≤ call.sample.rttNs

theorem Balanced.countedOnce [AtomicWindow W AddPoint TrackPoint ResetPoint] {c : Config}
    {log : List (Operation AddPoint TrackPoint ResetPoint)}
    {s : State W AddPoint TrackPoint ResetPoint} (balanced : Balanced c (ledger log) s) :
    CountedOnce c log s where
  once := balanced.nodup
  value := balanced.values
  accepted := by
    intro reading member i counted
    obtain ⟨call, found, _, accepted⟩ := balanced.entered i
      (.inl (List.mem_flatten.mpr ⟨reading.1, List.mem_map.mpr ⟨reading, member, rfl⟩, counted⟩))
    exact ⟨call, found, accepted⟩
  total := by
    have lengths :
        ((ledger log).readings.map Prod.snd).sum ≤ ((ledger log).counted.length : Int) := by
      rw [Ledger.counted, List.length_flatten, List.map_map, Nat.cast_list_sum, List.map_map]
      apply List.sum_le_sum
      intro reading member
      rw [balanced.values reading member]
      exact wrap_le _
    have finite : {i : Nat | ∃ call, s.calls[i]? = some call ∧
        decide (c.minRttThresholdNs ≤ call.sample.rttNs) = true}.Finite := by
      refine (Set.finite_lt_nat s.calls.length).subset ?_
      rintro i ⟨call, found, _⟩
      exact (List.getElem?_eq_some_iff.mp found).1
    have within : (ledger log).counted.length ≤
        s.calls.countP fun call => c.minRttThresholdNs ≤ call.sample.rttNs := by
      rw [← Pool.ncard_positions, ← List.toFinset_card_of_nodup balanced.nodup,
        ← Set.ncard_coe_finset]
      refine Set.ncard_le_ncard ?_ finite
      intro i member
      obtain ⟨call, found, _, accepted⟩ := balanced.entered i (.inl (List.mem_toFinset.mp member))
      exact ⟨call, found, decide_eq_true accepted⟩
    omega

/-- With either window, any number of calls and any interleaving of their atomic operations,
however late a writer is: no call is counted at two boundaries, and all counts that
boundaries read are together at most the number of accepted samples. -/
theorem samples_counted_once (c : Config) (es : List Event) :
    (∀ s, run (step c) (start ({} : AverageSampleWindow)) es = some s →
      CountedOnce c (operations c ({} : AverageSampleWindow) es) s) ∧
    ∀ percentile maxSamples s,
      run (step c) (start (PercentileSampleWindow.construct percentile maxSamples)) es = some s →
      CountedOnce c (operations c (PercentileSampleWindow.construct percentile maxSamples) es) s :=
  ⟨fun _ ran => (run_balanced rfl ran).countedOnce,
    fun _ _ _ ran => (run_balanced rfl ran).countedOnce⟩

/-- The second call has the index of the first slot and makes its updates only after that
slot has been closed, cleared and made active again; the fourth call reads them. -/
def lateWriter : List Event :=
  [.onSample ⟨0, 5, 1, false⟩, .onSample ⟨0, 7, 1, false⟩, .onSample ⟨20, 6, 1, false⟩,
      .onSample ⟨40, 6, 1, false⟩] ++
    List.replicate 1 (.advance 1) ++ List.replicate 27 (.advance 0) ++
    List.replicate 27 (.advance 2) ++ List.replicate 7 (.advance 1) ++ List.replicate 25 (.advance 3)

theorem lateWriter_counted_once : ∃ s,
    run (step quickWindows) (start ({} : AverageSampleWindow)) lateWriter = some s ∧
    (ledger (operations quickWindows ({} : AverageSampleWindow) lateWriter)).readings =
      [([0], 1), ([2], 1), ([1, 3], 2)] ∧
    CountedOnce quickWindows (operations quickWindows ({} : AverageSampleWindow) lateWriter) s := by
  have reached : (run (step quickWindows) (start ({} : AverageSampleWindow)) lateWriter).isSome := by
    decide +kernel
  obtain ⟨s, ran⟩ := Option.isSome_iff_exists.mp reached
  refine ⟨s, ran, by decide +kernel, ?_⟩
  exact (samples_counted_once quickWindows lateWriter).1 s ran
end Limen.WindowedLimit
