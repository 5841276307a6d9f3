import Limen.Pool
import Limen.SampleWindow.Undisturbed
import Mathlib.Order.MinMax

/-! `AddSample` by any number of threads on a window that nobody resets. One event lets one call
make its next atomic operation. What the calls have done so far adds up, in any order. -/
namespace Limen
open Transition

/-- A call of `AddSample`. It has returned where there is no next operation. -/
structure Adding where
  sample : Sample
  point : Option AddPoint
  deriving DecidableEq, Repr

/-- A window and the calls at work on it, numbered by their position. -/
structure Adders (W : Type) where
  window : W
  calls : List Adding
  deriving DecidableEq, Repr

namespace Adding

def moveTo (next : Option AddPoint) (call : Adding) : Adding := { call with point := next }

/-- The call has incremented the counter. -/
def counted (call : Adding) : Bool :=
  match call.point with
  | some .count => false
  | _ => true

/-- It has recorded its RTT, if it does. -/
def recorded (call : Adding) : Bool :=
  match call.point with
  | some .count | some (.record _) => false
  | _ => true

/-- It is past the first loop. -/
def lowered (call : Adding) : Bool :=
  match call.point with
  | some .loadMax | some (.exchangeMax _) | some .drop | none => true
  | _ => false

/-- It is past the second loop. -/
def raised (call : Adding) : Bool :=
  match call.point with
  | some .drop | none => true
  | _ => false

def returned (call : Adding) : Bool := call.point.isNone

/-- What the conditions of the loops and of the last store have found. -/
def Due (call : Adding) : Prop :=
  match call.point with
  | some (.exchangeMin current) => call.sample.rttNs < current
  | some (.exchangeMax current) => current < call.sample.inflight
  | some .drop => call.sample.didDrop = true
  | _ => True

theorem settled_of_late {call : Adding} (late : ∀ pc, call.point = some pc → pc.late = true) :
    call.counted = true ∧ call.recorded = true := by
  obtain ⟨s, _ | pc⟩ := call
  · exact ⟨rfl, rfl⟩
  · have here : pc.late = true := late pc rfl
    cases pc <;> first | contradiction | exact ⟨rfl, rfl⟩
end Adding

namespace Adders
variable {W τ ρ : Type} [AtomicWindow W AddPoint τ ρ] {s t : Adders W}

structure Event where
  call : Nat
  spurious : Bool := false
  deriving DecidableEq, Repr

def start (window : W) (samples : List Sample) : Adders W where
  window := window
  calls := samples.map fun sample => ⟨sample, some (AtomicWindow.addEntry W)⟩

def step (s : Adders W) (e : Event) : Option (Adders W) := do
  let call ← s.calls[e.call]?
  let pc ← call.point
  let (window, next) := AtomicWindow.addStep s.window call.sample e.spurious pc
  some { window, calls := s.calls.modify e.call (Adding.moveTo next) }

theorem step_cases {e : Event} (stepped : step s e = some t) : ∃ call pc slot next,
    s.calls[e.call]? = some call ∧ call.point = some pc ∧
      AtomicWindow.addStep s.window call.sample e.spurious pc = (slot, next) ∧
      t = { window := slot, calls := s.calls.modify e.call (Adding.moveTo next) } := by
  simp only [step, Option.bind_eq_bind, Option.bind_eq_some_iff] at stepped
  obtain ⟨call, present, pc, here, moved⟩ := stepped
  exact ⟨call, pc, _, _, present, here, rfl, (Option.some.inj moved).symm⟩

/-- No call is added or lost, and each keeps its arguments. -/
theorem run_samples {window : W} {samples : List Sample} {es : List Event}
    (ran : run step (start window samples) es = some s) : s.calls.map Adding.sample = samples := by
  refine invariant (P := fun s => s.calls.map Adding.sample = samples) ?_ ran ?_
  · intro s e t same stepped
    obtain ⟨call, pc, slot, next, present, -, -, rfl⟩ := step_cases stepped
    rw [← same]
    have kept : (s.calls.map Adding.sample)[e.call]? = some call.sample := by
      rw [List.getElem?_map, present, Option.map_some]
    have mapped : (s.calls.modify e.call (Adding.moveTo next)).map Adding.sample =
        (s.calls.map Adding.sample).modify e.call id := Pool.map_modify present rfl
    rw [mapped, Pool.modify_of_fixed kept rfl]
  · rw [start, List.map_map]
    exact List.map_id samples

/-- All calls have returned. -/
def Finished (s : Adders W) : Prop := ∀ call ∈ s.calls, call.point = none

instance (s : Adders W) : Decidable s.Finished :=
  inferInstanceAs (Decidable (∀ call ∈ s.calls, call.point = none))

theorem calls_eq_of_finished {window : W} {samples : List Sample} {es : List Event}
    (ran : run step (start window samples) es = some s) (finished : s.Finished) :
    s.calls = samples.map fun sample => ⟨sample, none⟩ := by
  rw [← run_samples ran, List.map_map]
  refine (List.map_id s.calls).symm.trans (List.map_congr_left ?_)
  intro call member
  rw [id_eq, Function.comp_apply, ← finished call member]

/-- A view of the window to which every call contributes, at each of its points so much. -/
structure Contributes {V : Type} (view : W → V) (contribute : V → Adding → V) : Prop where
  due : ∀ sample, Adding.Due ⟨sample, some (AtomicWindow.addEntry W)⟩
  fresh : ∀ v sample, contribute v ⟨sample, some (AtomicWindow.addEntry W)⟩ = v
  onward : ∀ {w slot : W} {v : V} {sample : Sample} {spurious : Bool} {pc : AddPoint}
    {next : Option AddPoint}, Adding.Due ⟨sample, some pc⟩ → view w = contribute v ⟨sample, some pc⟩ →
    AtomicWindow.addStep w sample spurious pc = (slot, next) →
    view slot = contribute v ⟨sample, next⟩ ∧ Adding.Due ⟨sample, next⟩

namespace Contributes
variable {V : Type} {view : W → V} {contribute : V → Adding → V}

theorem foldl_start (contributes : Contributes view contribute) (window : W) (samples : List Sample)
    (v : V) : (start window samples).calls.foldl contribute v = v := by
  rw [start, List.foldl_map]
  induction samples with
  | nil => rfl
  | cons sample samples ih => rw [List.foldl_cons, contributes.fresh, ih]

variable [RightCommutative contribute]

theorem run_folded (contributes : Contributes view contribute) {window : W} {samples : List Sample}
    {es : List Event} (ran : run step (start window samples) es = some s) :
    view s.window = s.calls.foldl contribute (view window) := by
  refine (invariant (P := fun s => view s.window = s.calls.foldl contribute (view window) ∧
    ∀ call ∈ s.calls, call.Due) ?_ ran ⟨?_, ?_⟩).1
  · rintro s e t ⟨folded, due⟩ stepped
    obtain ⟨⟨sample, _⟩, pc, slot, next, present, rfl, added, rfl⟩ := step_cases stepped
    -- The call that moves is taken last, and the others make up what it finds.
    obtain ⟨rest, before, after⟩ :=
      Pool.foldl_modify (f := contribute) present (Adding.moveTo next) (view window)
    obtain ⟨contributed, dueNext⟩ :=
      contributes.onward (due _ (List.mem_of_getElem? present)) (folded.trans before) added
    refine ⟨contributed.trans after.symm, ?_⟩
    intro call member
    obtain ⟨j, found⟩ := List.mem_iff_getElem?.mp member
    rcases Pool.getElem?_modify_cases present found with ⟨_, rfl⟩ | ⟨_, other⟩
    · exact dueNext
    · exact due call (List.mem_of_getElem? other)
  · exact (contributes.foldl_start window samples _).symm
  · intro call member
    obtain ⟨sample, _, rfl⟩ := List.mem_map.mp member
    exact contributes.due sample

/-- Once all calls have returned, they have contributed as much as one after the other. -/
theorem finished_folded (contributes : Contributes view contribute) {window : W}
    {samples order : List Sample} {es : List Event}
    (ran : run step (start window samples) es = some s) (finished : s.Finished)
    (same : order.Perm samples) :
    view s.window = order.foldl (fun v sample => contribute v ⟨sample, none⟩) (view window) := by
  have reordered : (order.map fun sample => (⟨sample, none⟩ : Adding)).Perm s.calls := by
    rw [calls_eq_of_finished ran finished]
    exact same.map _
  rw [contributes.run_folded ran, ← reordered.foldl_eq, List.foldl_map]
end Contributes
end Adders

namespace Extremes
variable {x y : Extremes} {s : Sample} {pc : AddPoint}

/-- What a call has made of the shared fields. -/
def contribute (x : Extremes) (call : Adding) : Extremes where
  minRttNs := if call.lowered then min x.minRttNs call.sample.rttNs else x.minRttNs
  maxInflight := if call.raised then max x.maxInflight call.sample.inflight else x.maxInflight
  didDrop := x.didDrop || (call.returned && call.sample.didDrop)

instance : RightCommutative contribute where
  right_comm x first second := by
    simp only [contribute, mk.injEq]
    refine ⟨?_, ?_, Bool.or_right_comm ..⟩
    · split <;> split <;> simp only [min_right_comm]
    · split <;> split <;> simp only [max_right_comm]

/-- Up to the end of the first loop, nothing. -/
theorem contribute_early {call : Adding} (early : call.lowered = false) : x.contribute call = x := by
  obtain ⟨s, _ | pc⟩ := call
  · contradiction
  · cases pc <;>
      first | contradiction | simp [contribute, Adding.lowered, Adding.raised, Adding.returned]

theorem contribute_loadMax (x : Extremes) (s : Sample) :
    x.contribute ⟨s, some .loadMax⟩ = { x with minRttNs := min x.minRttNs s.rttNs } := by
  simp [contribute, Adding.lowered, Adding.raised, Adding.returned]

theorem contribute_drop (x : Extremes) (s : Sample) : x.contribute ⟨s, some .drop⟩ =
    ⟨min x.minRttNs s.rttNs, max x.maxInflight s.inflight, x.didDrop⟩ := by
  simp [contribute, Adding.lowered, Adding.raised, Adding.returned]

theorem contribute_none (x : Extremes) (s : Sample) : x.contribute ⟨s, none⟩ =
    ⟨min x.minRttNs s.rttNs, max x.maxInflight s.inflight, x.didDrop || s.didDrop⟩ := rfl

/-- In the end, what the method does. -/
theorem contribute_returned (x : Extremes) (s : Sample) : x.contribute ⟨s, none⟩ = x.add s := by
  rw [contribute_none]
  simp only [add, mk.injEq]
  refine ⟨?_, ?_, ?_⟩
  · split <;> omega
  · split <;> omega
  · cases s.didDrop <;> simp

theorem contribute_tryMin (x : Extremes) (s : Sample) :
    x.contribute ⟨s, tryMin s x.minRttNs⟩ = x ∧ Adding.Due ⟨s, tryMin s x.minRttNs⟩ := by
  rw [tryMin]
  split
  · exact ⟨contribute_early rfl, by assumption⟩
  · have low : min x.minRttNs s.rttNs = x.minRttNs := by omega
    rw [contribute_loadMax, low]
    exact ⟨rfl, trivial⟩

theorem contribute_tryMax (x : Extremes) (s : Sample) :
    x.contribute ⟨s, tryMax s x.maxInflight⟩ = x.contribute ⟨s, some .loadMax⟩ ∧
      Adding.Due ⟨s, tryMax s x.maxInflight⟩ := by
  rw [tryMax]
  split
  · exact ⟨rfl, by assumption⟩
  · have high : max x.maxInflight s.inflight = x.maxInflight := by omega
    rw [contribute_loadMax]
    cases drops : s.didDrop with
    | true =>
      rw [if_pos rfl, contribute_drop, high]
      exact ⟨rfl, drops⟩
    | false =>
      rw [if_neg Bool.false_ne_true, contribute_none, high, drops, Bool.or_false]
      exact ⟨rfl, trivial⟩

/-- What the call has made of the fields of `x` grows with each of its operations, whoever else
has been at work on them. -/
theorem contribute_onward (spurious : Bool) (late : pc.late = true)
    (due : Adding.Due ⟨s, some pc⟩) (found : y = x.contribute ⟨s, some pc⟩) :
    (y.addStep s spurious pc).1 = x.contribute ⟨s, (y.addStep s spurious pc).2⟩ ∧
      Adding.Due ⟨s, (y.addStep s spurious pc).2⟩ := by
  cases pc with
  | count => contradiction
  | record index => contradiction
  | loadMin =>
    obtain rfl : y = x := found.trans (contribute_early rfl)
    obtain ⟨same, next⟩ := contribute_tryMin y s
    exact ⟨same.symm, next⟩
  | exchangeMin current =>
    obtain rfl : y = x := found.trans (contribute_early rfl)
    simp only [addStep]
    split
    · obtain ⟨same, next⟩ := contribute_tryMin y s
      exact ⟨same.symm, next⟩
    · rename_i exchanged
      have here : y.minRttNs = current := not_not.mp (not_or.mp exchanged).2
      have low : min y.minRttNs s.rttNs = s.rttNs := here ▸ min_eq_right (Int.le_of_lt due)
      rw [contribute_loadMax, low]
      exact ⟨rfl, trivial⟩
  | loadMax =>
    subst found
    obtain ⟨same, next⟩ := contribute_tryMax x s
    exact ⟨same.symm, next⟩
  | exchangeMax current =>
    subst found
    simp only [addStep]
    split
    · obtain ⟨same, next⟩ := contribute_tryMax x s
      exact ⟨same.symm, next⟩
    · rename_i exchanged
      have here : x.maxInflight = current := not_not.mp (not_or.mp exchanged).2
      have high : max x.maxInflight s.inflight = s.inflight :=
        here ▸ max_eq_right (Int.le_of_lt due)
      have loaded : x.contribute ⟨s, some (.exchangeMax current)⟩ =
          { x with minRttNs := min x.minRttNs s.rttNs } := contribute_loadMax x s
      rw [loaded]
      cases drops : s.didDrop with
      | true =>
        rw [if_pos rfl, contribute_drop, high]
        exact ⟨rfl, drops⟩
      | false =>
        rw [if_neg Bool.false_ne_true, contribute_none, high, drops, Bool.or_false]
        exact ⟨rfl, trivial⟩
  | drop =>
    subst found
    have drops : s.didDrop = true := due
    refine ⟨?_, trivial⟩
    rw [contribute_drop]
    simp only [addStep, contribute_none, drops, Bool.or_true]
end Extremes
end Limen
