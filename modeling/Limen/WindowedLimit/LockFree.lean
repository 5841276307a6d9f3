import Limen.SampleWindow.LockFree
import Limen.WindowedLimit.Steps

/-! No call of `OnSample` waits for another one: the mutex is only tried, the reading and the
resetting of a closed window are bounded, and the loops of `AddSample` retry after a change that
another call, or a reset, has made once. -/
namespace Limen
open Transition

/-- The operations left of `TrackedRttNs`, of which there are `span` in all. -/
def TrackPoint.need (span : Nat) : TrackPoint → Nat
  | .loadCount => span
  | .loadSum _ => 1
  | .loadEntry usable buffer => max 1 (usable - buffer.length).toNat

/-- Two stores of `Reset` make values stale that other calls have in hand. -/
def ResetPoint.need (n : Nat) : ResetPoint → Nat
  | .count => 2 * n + 3
  | .sum => 2 * n + 2
  | .min => 2 * n + 1
  | .max => n + 1
  | .drop => 1

namespace WindowedLimit

/-- What the methods of a window cost a boundary and the calls that add to it. -/
structure Costs {W : Type} [AtomicWindow W AddPoint TrackPoint ResetPoint] (view : W → Extremes)
    (span : W → Nat) : Prop where
  addEntry : AtomicWindow.addEntry W = AddPoint.count
  trackEntry : AtomicWindow.trackEntry W = TrackPoint.loadCount
  resetEntry : AtomicWindow.resetEntry W = ResetPoint.count
  positive : ∀ w, 1 ≤ span w
  spending : Adders.Spending view
  adding : ∀ {w slot : W} {s spurious pc next},
    AtomicWindow.addStep w s spurious pc = (slot, next) → span slot = span w
  tracking : ∀ {w : W} {pc pc'}, AtomicWindow.trackStep w pc = .inl pc' →
    pc'.need (span w) + 1 ≤ pc.need (span w)
  resetting : ∀ {w slot : W} {n pc next}, 1 ≤ n → AtomicWindow.resetStep w pc = (slot, next) →
    span slot = span w ∧ ∃ d, (∀ call : Adding,
        call.need n (view slot) ≤ call.need n (view w) + d) ∧
      (next.elim 0 (ResetPoint.need n)) + 1 + d * (n - 1) ≤ pc.need n

theorem averageCosts : Costs AverageSampleWindow.extremes fun _ => 2 where
  addEntry := rfl
  trackEntry := rfl
  resetEntry := rfl
  positive w := by omega
  spending := AverageSampleWindow.spending
  adding added := rfl
  tracking {w pc pc'} tracked := by
    cases pc with
    | loadCount =>
      change (if w.sampleCount = 0 then _ else _) = _ at tracked
      split at tracked <;> cases tracked
      exact Nat.le_refl 2
    | _ => contradiction
  resetting {w slot n pc next} some_call stored := by
    refine ⟨rfl, ?_⟩
    cases pc <;> cases stored
    case min =>
      refine ⟨1, Adding.need_disturbed n _ _, ?_⟩
      simp only [Option.elim_some, ResetPoint.need]
      omega
    case max =>
      refine ⟨1, Adding.need_disturbed n _ _, ?_⟩
      simp only [Option.elim_some, ResetPoint.need]
      omega
    all_goals
      refine ⟨0, fun call => Nat.le_refl _, ?_⟩
      simp [ResetPoint.need]

theorem tryEntry_need {w : PercentileSampleWindow} {usable : Int} {buffer : List Int}
    {pc : TrackPoint} (tried : w.tryEntry usable buffer = .inl pc) (span : Nat) :
    (pc.need span : Int) = usable - buffer.length ∧ (buffer.length : Int) < usable := by
  rw [PercentileSampleWindow.tryEntry] at tried
  split at tried <;> cases tried
  simp only [TrackPoint.need]
  omega

theorem percentileCosts : Costs PercentileSampleWindow.extremes fun w => 1 + w.maxSamples where
  addEntry := rfl
  trackEntry := rfl
  resetEntry := rfl
  positive w := by omega
  spending := PercentileSampleWindow.spending
  adding {w slot s spurious pc next} added := by
    change w.addStep s spurious pc = (slot, next) at added
    cases pc <;> cases added <;> rfl
  tracking {w pc pc'} tracked := by
    cases pc with
    | loadCount =>
      change (if w.sampleCount = 0 then _ else _) = _ at tracked
      split at tracked
      · contradiction
      · have entry := tryEntry_need tracked (1 + w.maxSamples)
        simp only [List.length_nil] at entry
        simp only [TrackPoint.need.eq_1]
        omega
    | loadEntry usable buffer =>
      change w.tryEntry usable (buffer ++ _) = _ at tracked
      have entry := tryEntry_need tracked (1 + w.maxSamples)
      simp only [List.length_append, List.length_singleton] at entry
      simp only [TrackPoint.need.eq_3]
      omega
    | loadSum count => contradiction
  resetting {w slot n pc next} some_call stored := by
    cases pc <;> cases stored <;> refine ⟨rfl, ?_⟩
    case min =>
      refine ⟨1, Adding.need_disturbed n _ _, ?_⟩
      simp only [Option.elim_some, ResetPoint.need]
      omega
    case max =>
      refine ⟨1, Adding.need_disturbed n _ _, ?_⟩
      simp only [Option.elim_some, ResetPoint.need]
      omega
    all_goals
      refine ⟨0, fun call => Nat.le_refl _, ?_⟩
      simp [ResetPoint.need]

/-- What the boundary work may still take, `span` being that of its window. -/
def Stage.need (n span : Nat) : Stage TrackPoint ResetPoint → Nat
  | .loadCandidate => 2 * n + 11 + span
  | .trackedRtt pc => 2 * n + 10 + pc.need span
  | .loadMaxInflight => 2 * n + 10
  | .loadSampleCount => 2 * n + 9
  | .loadDidDrop => 2 * n + 8
  | .storeActive => 2 * n + 7
  | .storeDue => 2 * n + 6
  | .callDelegate => 2 * n + 5
  | .inDelegate => 2 * n + 4
  | .reset pc => pc.need n

/-- What a call of one among `n` may still need. -/
def Call.need {W : Type} (view : W → Extremes) (n span : Nat) (slots : Fin 2 → W)
    (call : Call AddPoint TrackPoint ResetPoint) : Nat :=
  match call.point with
  | .loadActive => 4 * n + 22 + span
  | .addSample idx pc => 2 * n + 16 + span + Adding.need n (view (slots idx)) ⟨call.sample, some pc⟩
  | .loadDue => 2 * n + 16 + span
  | .tryLock => 2 * n + 15 + span
  | .reloadDue => 2 * n + 14 + span
  | .loadOld => 2 * n + 13 + span
  | .boundary _ _ stage => 1 + stage.need n span
  | .unlock => 1
  | .returned => 0

/-- An update of one window disturbs the calls that add to it and no others. -/
theorem need_update {W : Type} {view : W → Extremes} {n k d : Nat} {slots : Fin 2 → W}
    {idx : Fin 2} {slot : W}
    (disturbed : ∀ call : Adding, call.need n (view slot) ≤ call.need n (view (slots idx)) + d)
    (call : Call AddPoint TrackPoint ResetPoint) :
    call.need view n k (Function.update slots idx slot) ≤ call.need view n k slots + d := by
  obtain ⟨s, point⟩ := call
  cases point with
  | addSample other pc =>
    by_cases here : other = idx
    · subst here
      have own := disturbed ⟨s, some pc⟩
      simp only [Call.need, Function.update_self]
      omega
    · simp only [Call.need, Function.update_of_ne here]
      omega
  | _ => exact Nat.le_add_right _ d

section Costs
variable {W : Type} [AtomicWindow W AddPoint TrackPoint ResetPoint] {view : W → Extremes}
  {span : W → Nat} {c : Config} {n k : Nat} {s : Sample} {w w' : Shared W} {spurious : Bool}
  {point point' : Point AddPoint TrackPoint ResetPoint}

/-- An operation of a call: it disturbs the others by no more than it uses up of what its own
call needs, unless it has failed spuriously. -/
def Spends (view : W → Extremes) (span : W → Nat) (n k : Nat) (w w' : Shared W) (spurious : Bool)
    (before after : Call AddPoint TrackPoint ResetPoint) : Prop :=
  (∀ i, span (w'.slots i) = k) ∧ ∃ d, (∀ other : Call AddPoint TrackPoint ResetPoint,
      other.need view n k w'.slots ≤ other.need view n k w.slots + d) ∧
    after.need view n k w'.slots + 1 + d * (n - 1) ≤
      before.need view n k w.slots + spurious.toNat

omit [AtomicWindow W AddPoint TrackPoint ResetPoint] in
theorem span_update {idx : Fin 2} {slot : W} (spans : ∀ i, span (w.slots i) = k)
    (same : span slot = span (w.slots idx)) (i : Fin 2) :
    span (Function.update w.slots idx slot i) = k := by
  rw [Function.update_apply]
  split
  · rw [same, spans]
  · exact spans i

omit [AtomicWindow W AddPoint TrackPoint ResetPoint] in
theorem Spends.of_unchanged {before after : Call AddPoint TrackPoint ResetPoint}
    (spans : ∀ i, span (w.slots i) = k) (slots : w'.slots = w.slots)
    (own : after.need view n k w.slots + 1 ≤ before.need view n k w.slots) :
    Spends view span n k w w' spurious before after := by
  rw [Spends, slots]
  refine ⟨spans, 0, fun other => Nat.le_refl _, ?_⟩
  omega

theorem addSample_spends (costs : Costs view span) {idx : Fin 2} {pc : AddPoint}
    (some_call : 1 ≤ n) (spans : ∀ i, span (w.slots i) = k)
    (advanced : Point.advance c w s spurious (.addSample idx pc) = some (w', point')) :
    Spends view span n k w w' spurious ⟨s, .addSample idx pc⟩ ⟨s, point'⟩ := by
  simp only [Point.advance] at advanced
  rcases added : AtomicWindow.addStep (w.slots idx) s spurious pc with ⟨slot, next⟩
  rw [added] at advanced
  obtain ⟨d, disturbed, own⟩ := costs.spending some_call added
  obtain ⟨rfl, rfl⟩ := Prod.mk.inj (Option.some.inj advanced)
  refine ⟨span_update spans (costs.adding added), d, need_update disturbed, ?_⟩
  cases next with
  | none =>
    simp only [Call.need]
    omega
  | some pc' =>
    simp only [Call.need, Function.update_self]
    omega

/-- All operations outside `AddSample` and `Reset` have only to count down. -/
theorem moves_spends (costs : Costs view span) (some_call : 1 ≤ n)
    (spans : ∀ i, span (w.slots i) = k) (outside : ∀ idx pc, point ≠ .addSample idx pc)
    (moved : Moves c w s point w' point') :
    Spends view span n k w w' spurious ⟨s, point⟩ ⟨s, point'⟩ := by
  have resets {old : Fin 2} {read : Aggregate} {pc : ResetPoint} {slot : W}
      {next : Option ResetPoint} {after : Point AddPoint TrackPoint ResetPoint}
      (stored : AtomicWindow.resetStep (w.slots old) pc = (slot, next))
      (needs : ∀ slots : Fin 2 → W,
        Call.need view n k slots ⟨s, after⟩ = 1 + next.elim 0 (ResetPoint.need n)) :
      Spends view span n k w { w with slots := Function.update w.slots old slot } spurious
        ⟨s, .boundary old read (.reset pc)⟩ ⟨s, after⟩ := by
    obtain ⟨same, d, disturbed, own⟩ := costs.resetting some_call stored
    refine ⟨span_update spans same, d, need_update disturbed, ?_⟩
    rw [needs]
    simp only [Call.need, Stage.need]
    omega
  cases moved with
  | loadActive =>
    refine .of_unchanged spans rfl ?_
    simp only [Call.need, costs.addEntry, Adding.need]
    omega
  | adding => exact absurd rfl (outside _ _)
  | added => exact absurd rfl (outside _ _)
  | loadCandidate =>
    refine .of_unchanged spans rfl ?_
    simp only [Call.need, Stage.need, costs.trackEntry, TrackPoint.need]
    omega
  | @tracking old read pc pc' tracked =>
    have shorter := costs.tracking tracked
    rw [spans] at shorter
    refine .of_unchanged spans rfl ?_
    simp only [Call.need, Stage.need]
    omega
  | @tracked old read pc rtt tracked =>
    have positive : 1 ≤ pc.need k := by
      have some_span := costs.positive (w.slots old)
      rw [spans] at some_span
      cases pc <;> simp only [TrackPoint.need] <;> omega
    refine .of_unchanged spans rfl ?_
    simp only [Call.need, Stage.need]
    omega
  | skips unready =>
    refine .of_unchanged spans rfl ?_
    simp only [Call.need, Stage.need, costs.resetEntry, ResetPoint.need]
    omega
  | delegated =>
    refine .of_unchanged spans rfl ?_
    simp only [Call.need, Stage.need, costs.resetEntry, ResetPoint.need]
    omega
  | resetting stored => exact resets stored fun _ => rfl
  | reset stored => exact resets stored fun _ => rfl
  | _ =>
    refine .of_unchanged spans rfl ?_
    simp only [Call.need, Stage.need]
    omega

theorem advance_spends (costs : Costs view span) (some_call : 1 ≤ n)
    (spans : ∀ i, span (w.slots i) = k)
    (advanced : point.advance c w s spurious = some (w', point')) :
    Spends view span n k w w' spurious ⟨s, point⟩ ⟨s, point'⟩ := by
  by_cases adds : ∃ idx pc, point = .addSample idx pc
  · obtain ⟨idx, pc, rfl⟩ := adds
    exact addSample_spends costs some_call spans advanced
  · refine moves_spends costs some_call spans (fun idx pc here => ?_) (advance_moves advanced)
    exact adds ⟨idx, pc, here⟩
end Costs

namespace State
variable {W : Type} [AtomicWindow W AddPoint TrackPoint ResetPoint] {view : W → Extremes}
  {span : W → Nat} {c : Config} {factory : W} {s t : State W AddPoint TrackPoint ResetPoint}
  {es : List Event}

def advances : Event → Bool
  | .advance _ _ => true
  | .onSample _ => false

def arrives : Event → Bool
  | .onSample _ => true
  | .advance _ _ => false

def spurious : Event → Bool
  | .advance _ spurious => spurious
  | .onSample _ => false

def potential (view : W → Extremes) (n k : Nat)
    (s : State W AddPoint TrackPoint ResetPoint) : Nat :=
  (s.calls.map (Call.need view n k s.slots)).sum

theorem step_spends (costs : Costs view span) {n k : Nat} {e : Event} (few : s.calls.length ≤ n)
    (spans : ∀ i, span (s.slots i) = k) (stepped : s.step c e = some t) :
    (∀ i, span (t.slots i) = k) ∧ t.calls.length = s.calls.length + (arrives e).toNat ∧
      (advances e).toNat + potential view n k t ≤ potential view n k s +
        ((4 * n + 22 + k) * (arrives e).toNat + 1 * (spurious e).toNat) := by
  cases e with
  | onSample sample =>
    cases stepped
    refine ⟨spans, List.length_append, ?_⟩
    have entry : Call.need view n k s.slots
        ⟨sample, if sample.rttNs < c.minRttThresholdNs then .returned else .loadActive⟩ ≤
          4 * n + 22 + k := by
      split
      · exact Nat.zero_le _
      · exact Nat.le_refl _
    simp only [potential, List.map_append, List.map_singleton, List.sum_append,
      List.sum_singleton, advances, arrives, spurious, Bool.toNat_false, Bool.toNat_true]
    omega
  | advance i spurious =>
    simp only [step, Option.bind_eq_bind, Option.bind_eq_some_iff, Option.some.injEq] at stepped
    obtain ⟨⟨sample, point⟩, found, ⟨shared, point'⟩, advanced, rfl⟩ := stepped
    have present := (List.getElem?_eq_some_iff.mp found).1
    obtain ⟨still, d, disturbed, own⟩ := advance_spends costs (n := n) (by omega) spans advanced
    dsimp only at own
    refine ⟨still, List.length_modify .., ?_⟩
    have total :=
      Pool.sum_modify_le (f := Call.moveTo point') (fun other _ => disturbed other) found
    have fewer : d * (s.calls.length - 1) ≤ d * (n - 1) := Nat.mul_le_mul_left d (by omega)
    simp only [Call.moveTo] at total
    simp only [potential, advances, arrives, State.spurious, Bool.toNat_false, Bool.toNat_true]
    omega

theorem run_counted (costs : Costs view span) (ran : run (step c) (start factory) es = some s) :
    s.calls.length = es.countP arrives ∧ ∀ i, span (s.slots i) = span factory := by
  refine history (P := fun es s => s.calls.length = es.countP arrives ∧
    ∀ i, span (s.slots i) = span factory) ⟨rfl, fun _ => rfl⟩ ?_ ran
  rintro es s e t _ ⟨counted, spans⟩ stepped
  obtain ⟨still, grown, _⟩ := step_spends costs (Nat.le_refl _) spans stepped
  refine ⟨?_, still⟩
  rw [grown, counted, Pool.countP_concat]
  cases arrives e <;> rfl

theorem countP_advances_le (costs : Costs view span)
    (ran : run (step c) (start factory) es = some s) :
    es.countP advances ≤ es.countP arrives * (4 * es.countP arrives + 22 + span factory) +
      es.countP spurious := by
  have along : Along (step c) (fun s _ => s.calls.length ≤ es.countP arrives ∧
      ∀ i, span (s.slots i) = span factory) (start factory) es := by
    rw [along_iff]
    rintro before e after t rfl reached
    obtain ⟨counted, spans⟩ := run_counted costs reached
    refine ⟨?_, spans⟩
    rw [counted, List.countP_append]
    exact Nat.le_add_right _ _
  have spent : es.countP advances + potential view (es.countP arrives) (span factory) s ≤
      potential view (es.countP arrives) (span factory) (start factory) +
        ((4 * es.countP arrives + 22 + span factory) * es.countP arrives +
          1 * es.countP spurious) :=
    countP_le _ (fun here stepped => (step_spends costs here.1 here.2 stepped).2.2) ran along
  have begun : potential view (es.countP arrives) (span factory) (start factory) = 0 := rfl
  rw [begun, Nat.mul_comm (_ + _ + _)] at spent
  omega
end State

/-- `N` calls make a number of atomic operations that is bounded by `N` and, where the window is
copied, by its size: however they interleave, whoever takes the boundaries, and whatever the
windows hold at first. -/
theorem onSample_lock_free (c : Config) (es : List Event) :
    (∀ (factory : AverageSampleWindow) s,
      run (State.step c) (State.start factory) es = some s →
      es.countP State.advances ≤
        es.countP State.arrives * (4 * es.countP State.arrives + 24) + es.countP State.spurious) ∧
    ∀ (factory : PercentileSampleWindow) s,
      run (State.step c) (State.start factory) es = some s →
      es.countP State.advances ≤
        es.countP State.arrives * (4 * es.countP State.arrives + 23 + factory.maxSamples) +
          es.countP State.spurious := by
  constructor
  · intro factory s ran
    exact State.countP_advances_le averageCosts ran
  · intro factory s ran
    have bounded := State.countP_advances_le percentileCosts ran
    rwa [← Nat.add_assoc] at bounded

/-- Two calls add to one window, and the exchange of the second one fails. -/
def overlapping : List Event :=
  [.onSample ⟨0, 20, 1, false⟩, .onSample ⟨5, 30, 2, false⟩, .advance 0, .advance 1, .advance 0,
    .advance 0, .advance 1, .advance 1, .advance 0, .advance 1, .advance 0, .advance 1]

theorem overlapping_lock_free :
    overlapping.countP State.advances ≤ 2 * (4 * 2 + 24) + overlapping.countP State.spurious := by
  obtain ⟨s, ran⟩ : ∃ s, run (State.step quickWindows)
      (State.start ({} : AverageSampleWindow)) overlapping = some s := ⟨_, rfl⟩
  exact (onSample_lock_free quickWindows overlapping).1 {} s ran
end WindowedLimit
end Limen
