import Limen.AbstractLimiter.Accounting

/-! The observable instruments. A callback emits its rows one after another and loads one atomic
for each; calls go on in between. -/
namespace Limen.AbstractLimiter
open Transition
variable {Ctx σ π : Type}

/-- An observation: attributes by key, and a value. -/
structure Row where
  attributes : List (String × String)
  value : Int
  deriving DecidableEq, Repr

/-- `kStatusLabels`. -/
def statusLabel : Status → String
  | .success => "success"
  | .rejected => "rejected"
  | .dropped => "dropped"
  | .ignored => "ignored"
  | .bypassed => "bypassed"

def observeLimit (id : String) : List (Counters σ → Row) := [fun c => ⟨[("id", id)], c.limit⟩]

/-- `OnObserveInflight` of the base class. -/
def observeInflight (id : String) : List (Counters σ → Row) :=
  [fun c => ⟨[("id", id)], c.inflight⟩]

def observeCall (id : String) : List (Counters σ → Row) :=
  statuses.map fun status c =>
    ⟨[("id", id), ("status", statusLabel status)], c.outcomeCounts status⟩

namespace State

/-- One collection. The events `meanwhile k` come between the rows `k - 1` and `k`. -/
def collect (l : Limiter Ctx σ π) (rows : List (Counters σ → Row))
    (meanwhile : Nat → List (Event Ctx)) (s : State Ctx σ π) : Option (State Ctx σ π × List Row) :=
  readings (step l) (rows.map fun row s => row s.toCounters) meanwhile s

/-- The calls that have ended with this outcome. -/
def ended (status : Status) (s : State Ctx σ π) : Nat :=
  s.requests.countP fun r => r.phase.outcome = some status

variable {l : Limiter Ctx σ π} {s t : State Ctx σ π} {limit : Int} {es more : List (Event Ctx)}
  {e : Event Ctx}

theorem step_counts (valid : s.Valid) (stepped : s.step l e = some t) (status : Status) :
    s.outcomeCounts status ≤ t.outcomeCounts status := by
  rcases step_cases valid stepped with ⟨_, _, same, _⟩ | ⟨i, r, phase, _, moved, _⟩ |
    ⟨_, _, _, published, _⟩
  · rw [same]
  · rcases moved.cases with ⟨input, made, _, advanced⟩ | ⟨_, _, _, _, _, same, _⟩
    · rw [counts_changes advanced status]
      exact Nat.le_add_right _ _
    · rw [same]
  · rw [published]

theorem run_counts (ran : run (step l) s more = some t) (valid : s.Valid) (status : Status) :
    s.outcomeCounts status ≤ t.outcomeCounts status := by
  have kept : t.Valid ∧ s.outcomeCounts status ≤ t.outcomeCounts status :=
    invariant (P := fun u => u.Valid ∧ s.outcomeCounts status ≤ u.outcomeCounts status)
      (fun before stepped => ⟨valid_step before.1 stepped,
        before.2.trans (step_counts before.1 stepped status)⟩) ran ⟨valid, le_rfl⟩
  exact kept.2

/-- The rows of `limen.call` in the order of the enumeration, each with a value between those at
the start and at the end of the collection. -/
theorem collect_call {id : String} {meanwhile : Nat → List (Event Ctx)} {rows : List Row}
    (valid : s.Valid) (collected : s.collect l (observeCall id) meanwhile = some (t, rows)) :
    List.Forall₂ (fun status row =>
      row.attributes = [("id", id), ("status", statusLabel status)] ∧
        (s.outcomeCounts status : Int) ≤ row.value ∧ row.value ≤ (t.outcomeCounts status : Int))
      statuses rows := by
  have between := readings_between collected
  rw [observeCall, List.map_map, List.forall₂_map_left_iff] at between
  refine between.imp ?_
  rintro status row ⟨before, after, u, first, second, rfl⟩
  have kept : u.Valid := invariant valid_step first valid
  refine ⟨rfl, ?_, ?_⟩
  · exact Int.ofNat_le.mpr (run_counts first valid status)
  · exact Int.ofNat_le.mpr (run_counts second kept status)

theorem collect_ran {rows : List (Counters σ → Row)} {meanwhile : Nat → List (Event Ctx)}
    {collected : List Row} (done : s.collect l rows meanwhile = some (t, collected)) :
    ∃ more, run (step l) s more = some t := readings_run done

/-- `limen.call`, in every interleaving of its rows with calls: each row is the number of calls
that have ended so at its moment, no later collection reports less, and a collection at rest
leaves out none but the outstanding calls. -/
theorem call_metric_accounts (id : String) (ran : run (step l) (start l.gate limit) es = some s)
    {meanwhile : Nat → List (Event Ctx)} {rows : List Row}
    (collected : s.collect l (observeCall id) meanwhile = some (t, rows)) :
    List.Forall₂ (fun status row =>
        row.attributes = [("id", id), ("status", statusLabel status)] ∧
          (s.ended status : Int) ≤ row.value ∧ row.value ≤ (t.ended status : Int)) statuses rows ∧
      (∀ more u meanwhile' v rows', run (step l) t more = some u →
        u.collect l (observeCall id) meanwhile' = some (v, rows') →
        List.Forall₂ (fun row row' => row.attributes = row'.attributes ∧ row.value ≤ row'.value)
          rows rows') ∧
      ((∀ k, meanwhile k = []) → s.Settled →
        (calls es : Int) = (rows.map Row.value).sum + s.outstandingSlots.ncard) := by
  have valid := run_valid ran
  obtain ⟨first, onward⟩ := collect_ran collected
  have ran' : run (step l) (start l.gate limit) (es ++ first) = some t :=
    run_append_eq_some.mpr ⟨s, ran, onward⟩
  have valid' := run_valid ran'
  have between := collect_call valid collected
  refine ⟨between.imp ?_, ?_, ?_⟩
  · intro status row exact
    simpa only [ended, outcomeCounts_eq ran, outcomeCounts_eq ran'] using exact
  · intro more u meanwhile' v rows' ran later
    have later := collect_call (run_valid (run_append_eq_some.mpr ⟨t, ran', ran⟩)) later
    refine List.forall₂_iff_get.mpr ⟨between.length_eq.symm.trans later.length_eq, ?_⟩
    intro k inRows inRows'
    have inStatuses : k < statuses.length := between.length_eq ▸ inRows
    obtain ⟨labels, _, atMost⟩ := between.get inStatuses inRows
    obtain ⟨labels', atLeast, _⟩ := later.get inStatuses inRows'
    have onward : t.outcomeCounts (statuses.get ⟨k, inStatuses⟩) ≤ u.outcomeCounts _ :=
      run_counts ran valid' _
    refine ⟨labels.trans labels'.symm, ?_⟩
    omega
  · intro rest settled
    rw [funext rest, collect, readings_undisturbed] at collected
    obtain ⟨rfl, rfl⟩ := Prod.mk.inj (Option.some.inj collected)
    rw [← length_requests ran, length_of_settled settled, ncard_outstandingSlots valid,
      ← funext (outcomeCounts_eq ran)]
    simp [observeCall, statuses]

/-- A call of the base class up to its slot. -/
def oneHeld : List (Event Unit) := [.tryAcquire (), .advance 0 {}, .advance 0 { addr := 3 }]

/-- It completes after the first row has been emitted. -/
def afterFirstRow : Nat → List (Event Unit)
  | 1 => [.guard (.complete 3 .success), .advance 0 {}, .advance 0 {}, .advance 0 {}]
  | _ => []

/-- The row of the successes has been emitted by then. -/
theorem oneHeld_accounts : ∃ s t rows,
    run (step ⟨gate Unit, fun _ => false⟩) (start (gate Unit) 1) oneHeld = some s ∧
      s.collect ⟨gate Unit, fun _ => false⟩ (observeCall "api") afterFirstRow = some (t, rows) ∧
      rows.map Row.value = [0, 0, 0, 0, 0] ∧ t.ended .success = 1 ∧
      List.Forall₂ (fun status row =>
        row.attributes = [("id", "api"), ("status", statusLabel status)] ∧
          (s.ended status : Int) ≤ row.value ∧ row.value ≤ (t.ended status : Int))
        statuses rows := by
  obtain ⟨s, t, rows, ran, collected, values, ended⟩ : ∃ s t rows,
      run (step ⟨gate Unit, fun _ => false⟩) (start (gate Unit) 1) oneHeld = some s ∧
        s.collect ⟨gate Unit, fun _ => false⟩ (observeCall "api") afterFirstRow = some (t, rows) ∧
        rows.map Row.value = [0, 0, 0, 0, 0] ∧ t.ended .success = 1 :=
    ⟨_, _, _, rfl, rfl, rfl, rfl⟩
  exact ⟨s, t, rows, ran, collected, values, ended,
    (call_metric_accounts "api" ran collected).1⟩
end State
end Limen.AbstractLimiter
