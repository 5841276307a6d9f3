import Limen.WindowedLimit.Cadence

/-! What the boundaries read of the least RTT, of the greatest number in flight and of the drops is
of samples that were accepted, whichever windows those were meant for. Only what is added up can
be torn. -/
namespace Limen

/-- The extremes that a window's methods return. -/
def SampleWindow.extremes {W : Type} [SampleWindow W] (w : W) : Extremes :=
  ⟨SampleWindow.candidateRttNs w, SampleWindow.maxInflight w, SampleWindow.didDrop w⟩

namespace Extremes

/-- Each extreme is that of no sample, or is attained by one of `samples`. -/
structure Attained (samples : List Sample) (x : Extremes) : Prop where
  rtt : x.minRttNs = int64Max ∨ ∃ s ∈ samples, s.rttNs = x.minRttNs
  inflight : x.maxInflight = 0 ∨ ∃ s ∈ samples, s.inflight = x.maxInflight
  drop : x.didDrop = true → ∃ s ∈ samples, s.didDrop = true

theorem attained_fresh (samples : List Sample) : Attained samples ⟨int64Max, 0, false⟩ :=
  ⟨.inl rfl, .inl rfl, nofun⟩

theorem Attained.resetMin {samples : List Sample} {x : Extremes} (attained : x.Attained samples) :
    { x with minRttNs := int64Max }.Attained samples :=
  ⟨.inl rfl, attained.inflight, attained.drop⟩

theorem Attained.resetMax {samples : List Sample} {x : Extremes} (attained : x.Attained samples) :
    { x with maxInflight := 0 }.Attained samples :=
  ⟨attained.rtt, .inl rfl, attained.drop⟩

theorem Attained.resetDrop {samples : List Sample} {x : Extremes} (attained : x.Attained samples) :
    { x with didDrop := false }.Attained samples :=
  ⟨attained.rtt, attained.inflight, by simp⟩

theorem tryMin_drop (s : Sample) (current : Int) : tryMin s current ≠ some .drop := by
  rw [tryMin]
  split <;> simp

theorem didDrop_of_tryMax {s : Sample} {current : Int} (next : tryMax s current = some .drop) :
    s.didDrop = true := by
  rw [tryMax] at next
  split at next
  · cases next
  · split at next
    · assumption
    · cases next

theorem Attained.addStep {samples : List Sample} {x : Extremes} (attained : x.Attained samples)
    {s : Sample} (member : s ∈ samples) (spurious : Bool) {pc : AddPoint}
    (dropping : pc = .drop → s.didDrop = true) :
    (x.addStep s spurious pc).1.Attained samples ∧
      ((x.addStep s spurious pc).2 = some .drop → s.didDrop = true) := by
  cases pc with
  | loadMin => exact ⟨attained, fun next => absurd next (tryMin_drop _ _)⟩
  | exchangeMin current =>
    simp only [Extremes.addStep]
    split
    · exact ⟨attained, fun next => absurd next (tryMin_drop _ _)⟩
    · exact ⟨⟨.inr ⟨s, member, rfl⟩, attained.inflight, attained.drop⟩, by simp⟩
  | loadMax => exact ⟨attained, didDrop_of_tryMax⟩
  | exchangeMax current =>
    simp only [Extremes.addStep]
    split
    · exact ⟨attained, didDrop_of_tryMax⟩
    · refine ⟨⟨attained.rtt, .inr ⟨s, member, rfl⟩, attained.drop⟩, fun next => ?_⟩
      dsimp only at next
      split at next
      · assumption
      · contradiction
  | drop =>
    refine ⟨⟨attained.rtt, attained.inflight, fun _ => ⟨s, member, dropping rfl⟩⟩, ?_⟩
    simp [Extremes.addStep]
  | count => exact ⟨attained, by simp [Extremes.addStep]⟩
  | record index => exact ⟨attained, by simp [Extremes.addStep]⟩
end Extremes

/-- One operation of `AddSample` or of `Reset` leaves the extremes attained. -/
structure AttainsExtremes (W : Type) [AtomicWindow W AddPoint TrackPoint ResetPoint] : Prop where
  adds : ∀ {samples : List Sample} {w slot : W} {s : Sample} {spurious : Bool} {pc : AddPoint}
    {next : Option AddPoint}, (SampleWindow.extremes w).Attained samples → s ∈ samples →
    (pc = .drop → s.didDrop = true) → AtomicWindow.addStep w s spurious pc = (slot, next) →
    (SampleWindow.extremes slot).Attained samples ∧ (next = some .drop → s.didDrop = true)
  resets : ∀ {samples : List Sample} {w slot : W} {pc : ResetPoint} {next : Option ResetPoint},
    (SampleWindow.extremes w).Attained samples → AtomicWindow.resetStep w pc = (slot, next) →
    (SampleWindow.extremes slot).Attained samples
  entry : AtomicWindow.addEntry W = AddPoint.count

theorem AverageSampleWindow.attainsExtremes : AttainsExtremes AverageSampleWindow where
  adds := by
    intro samples w slot s spurious pc next attained member dropping added
    cases late : pc.late with
    | true =>
      have kept := attained.addStep member spurious dropping
      change w.addStep s spurious pc = _ at added
      rw [addStep_of_late w s spurious late] at added
      cases added
      exact kept
    | false =>
      cases pc <;> first | contradiction | (cases added; exact ⟨attained, nofun⟩)
  resets := by
    intro samples w slot pc next attained stored
    cases pc <;> cases stored
    · exact attained
    · exact attained
    · exact attained.resetMin
    · exact attained.resetMax
    · exact attained.resetDrop
  entry := rfl

theorem PercentileSampleWindow.attainsExtremes : AttainsExtremes PercentileSampleWindow where
  adds := by
    intro samples w slot s spurious pc next attained member dropping added
    cases late : pc.late with
    | true =>
      have kept := attained.addStep member spurious dropping
      change w.addStep s spurious pc = _ at added
      rw [addStep_of_late w s spurious late] at added
      cases added
      exact kept
    | false =>
      cases pc with
      | count =>
        cases added
        refine ⟨attained, fun next => ?_⟩
        split at next <;> cases next
      | record index =>
        cases added
        exact ⟨attained, nofun⟩
      | _ => contradiction
  resets := by
    intro samples w slot pc next attained stored
    cases pc <;> cases stored
    · exact attained
    · exact attained
    · exact attained.resetMin
    · exact attained.resetMax
    · exact attained.resetDrop
  entry := rfl

namespace WindowedLimit
open Transition State
variable {W : Type}

def Aggregate.extremes (read : Aggregate) : Extremes :=
  ⟨read.candidateRtt, read.maxInflight, read.didDropInWindow⟩

/-- A call about to set the drop flag has a drop to report, and what a boundary has read so far
is attained. -/
def Point.Supported (samples : List Sample) (s : Sample) :
    Point AddPoint TrackPoint ResetPoint → Prop
  | .addSample _ pc => pc = .drop → s.didDrop = true
  | .boundary _ read .loadCandidate => read = {}
  | .boundary _ read _ => read.extremes.Attained samples
  | _ => True

section Step
variable [AtomicWindow W AddPoint TrackPoint ResetPoint] {c : Config} {w w' : Shared W} {s : Sample}
  {point point' : Point AddPoint TrackPoint ResetPoint} {samples : List Sample}

def Shared.Attained (w : Shared W) (samples : List Sample) : Prop :=
  ∀ k, (SampleWindow.extremes (w.slots k)).Attained samples

theorem Shared.Attained.update (attained : w.Attained samples) {k : Fin 2} {slot : W}
    (own : (SampleWindow.extremes slot).Attained samples) :
    ({ w with slots := Function.update w.slots k slot } : Shared W).Attained samples := by
  intro j
  change (SampleWindow.extremes (Function.update w.slots k slot j)).Attained samples
  rw [Function.update_apply]
  split
  · exact own
  · exact attained j

theorem Moves.attained (law : AttainsExtremes W) (member : s ∈ samples)
    (attained : w.Attained samples) (supported : point.Supported samples s)
    (moved : Moves c w s point w' point') :
    w'.Attained samples ∧ point'.Supported samples s := by
  cases moved with
  | loadActive => exact ⟨attained, by rw [law.entry]; exact nofun⟩
  | @adding idx pc pc' slot spurious added =>
    obtain ⟨kept, dropping⟩ := law.adds (attained idx) member supported added
    exact ⟨attained.update kept, fun next => dropping (congrArg some next)⟩
  | @added idx pc slot spurious added =>
    exact ⟨attained.update (law.adds (attained idx) member supported added).1, trivial⟩
  | loadOld => exact ⟨attained, rfl⟩
  | @loadCandidate old read =>
    obtain rfl : read = {} := supported
    exact ⟨attained, (attained old).rtt, .inl rfl, nofun⟩
  | tracking tracked => exact ⟨attained, supported⟩
  | tracked tracked => exact ⟨attained, supported⟩
  | @loadMaxInflight old read =>
    exact ⟨attained, supported.rtt, (attained old).inflight, supported.drop⟩
  | loadSampleCount => exact ⟨attained, supported⟩
  | @loadDidDrop old read =>
    exact ⟨attained, supported.rtt, supported.inflight, (attained old).drop⟩
  | @resetting old read pc pc' slot stored =>
    exact ⟨attained.update (law.resets (attained old) stored), supported⟩
  | @reset old read pc slot stored =>
    exact ⟨attained.update (law.resets (attained old) stored), trivial⟩
  | storeActive => exact ⟨attained, supported⟩
  | storeDue => exact ⟨attained, supported⟩
  | delegates ready => exact ⟨attained, supported⟩
  | skips unready => exact ⟨attained, supported⟩
  | delegated => exact ⟨attained, supported⟩
  | _ => exact ⟨attained, trivial⟩
end Step

/-- What a boundary has to show for itself: the delegate is told of a number in flight and of a
drop that samples have reported, and windows are as long as the RTT of one asks for. -/
structure Operation.Backed (samples : List Sample) (op : Operation AddPoint TrackPoint ResetPoint) :
    Prop where
  inflight : ∀ x ∈ op.delivers?, x.inflight = 0 ∨ ∃ s ∈ samples, s.inflight = x.inflight
  drop : ∀ x ∈ op.delivers?, x.didDrop = true → ∃ s ∈ samples, s.didDrop = true
  candidate : ∀ v ∈ op.candidate?, v = int64Max ∨ ∃ s ∈ samples, s.rttNs = v

theorem Operation.delivers_aggregate {op : Operation AddPoint TrackPoint ResetPoint} {x : Sample}
    (delivered : op.delivers? = some x) :
    ∃ old read, op.before = .boundary old read .callDelegate ∧
      x.inflight = read.maxInflight ∧ x.didDrop = read.didDropInWindow := by
  unfold Operation.delivers? Call.delivers? at delivered
  split at delivered
  · rename_i old read _ _ before _
    cases delivered
    exact ⟨old, read, before, rfl, rfl⟩
  · contradiction

theorem Operation.candidate_aggregate {op : Operation AddPoint TrackPoint ResetPoint} {v : Int}
    (loaded : op.candidate? = some v) :
    ∃ old read pc, op.after = .boundary old read (.trackedRtt pc) ∧ v = read.candidateRtt := by
  rw [Operation.candidate?] at loaded
  split at loaded
  · rename_i old read pc _ after
    cases loaded
    exact ⟨old, read, pc, after, rfl⟩
  · contradiction

theorem Operation.backed {samples : List Sample} {op : Operation AddPoint TrackPoint ResetPoint}
    (before : op.before.Supported samples op.sample)
    (after : op.after.Supported samples op.sample) : op.Backed samples where
  inflight := by
    intro x delivered
    obtain ⟨old, read, there, inflight, _⟩ := Operation.delivers_aggregate delivered
    rw [there] at before
    have attained : read.extremes.Attained samples := before
    rw [inflight]
    exact attained.inflight
  drop := by
    intro x delivered
    obtain ⟨old, read, there, _, didDrop⟩ := Operation.delivers_aggregate delivered
    rw [there] at before
    have attained : read.extremes.Attained samples := before
    rw [didDrop]
    exact attained.drop
  candidate := by
    intro v loaded
    obtain ⟨old, read, pc, there, rfl⟩ := Operation.candidate_aggregate loaded
    rw [there] at after
    have attained : read.extremes.Attained samples := after
    exact attained.rtt

/-- The samples that `OnSample` is called with. -/
def Event.sample? : Event → Option Sample
  | .onSample s => some s
  | .advance _ _ => none

def accepted (c : Config) (es : List Event) : List Sample :=
  (es.filterMap Event.sample?).filter fun s => c.minRttThresholdNs ≤ s.rttNs

theorem mem_accepted {c : Config} {es : List Event} {s : Sample} :
    s ∈ accepted c es ↔ .onSample s ∈ es ∧ c.minRttThresholdNs ≤ s.rttNs := by
  simp only [accepted, List.mem_filter, List.mem_filterMap, decide_eq_true_eq]
  refine and_congr_left fun _ => ⟨?_, fun member => ⟨_, member, rfl⟩⟩
  rintro ⟨e, member, entered⟩
  cases e with
  | onSample s' =>
    cases entered
    exact member
  | advance => contradiction

section Run
variable [AtomicWindow W AddPoint TrackPoint ResetPoint] {c : Config} {factory : W}
  {s : State W AddPoint TrackPoint ResetPoint} {es : List Event} {samples : List Sample}

/-- Calls keep their samples and their places. -/
theorem run_entered (ran : run (step c) (start factory) es = some s) {sample : Sample}
    (entered : .onSample sample ∈ es) :
    ∃ (i : Nat) (call : _), s.calls[i]? = some call ∧ call.sample = sample := by
  refine history (P := fun es s => .onSample sample ∈ es →
    ∃ (i : Nat) (call : Call AddPoint TrackPoint ResetPoint),
      s.calls[i]? = some call ∧ call.sample = sample) nofun ?_ ran entered
  intro es s e t ran ih stepped entered
  rcases step_cases stepped with
    ⟨other, rfl, rfl, _⟩ | ⟨j, _, mover, shared, point, rfl, there, _, rfl, _⟩
  · rcases List.mem_append.mp entered with earlier | last
    · obtain ⟨i, call, found, same⟩ := ih earlier
      exact ⟨i, call, Pool.getElem?_concat_eq_some.mpr (.inl found), same⟩
    · cases List.mem_singleton.mp last
      exact ⟨s.calls.length, _, Pool.getElem?_concat_eq_some.mpr (.inr ⟨rfl, rfl⟩), rfl⟩
  · rcases List.mem_append.mp entered with earlier | last
    · obtain ⟨i, call, found, same⟩ := ih earlier
      exact ⟨i, Pool.modify_keeps (P := fun call => call.sample = sample) there found same id⟩
    · cases List.mem_singleton.mp last

/-- What the slots and the calls have of `samples`. -/
structure State.Attained (c : Config) (samples : List Sample)
    (s : State W AddPoint TrackPoint ResetPoint) : Prop where
  slots : s.toShared.Attained samples
  calls : ∀ call ∈ s.calls, c.minRttThresholdNs ≤ call.sample.rttNs →
    call.sample ∈ samples ∧ call.point.Supported samples call.sample

/-- Only samples among `samples` are accepted. -/
def Admits (c : Config) (samples : List Sample) : Event → Prop
  | .onSample s => c.minRttThresholdNs ≤ s.rttNs → s ∈ samples
  | .advance _ _ => True

theorem State.Attained.enter (attained : s.Attained c samples) {sample : Sample}
    (admitted : Admits c samples (.onSample sample)) :
    State.Attained c samples { s with calls := s.calls ++ [c.enter sample] } := by
  refine ⟨attained.slots, fun call member passed => ?_⟩
  rcases List.mem_append.mp member with earlier | last
  · exact attained.calls call earlier passed
  · obtain rfl := List.mem_singleton.mp last
    refine ⟨admitted passed, ?_⟩
    rw [Config.enter]
    split <;> trivial

theorem run_attained (law : AttainsExtremes W)
    (fresh : (SampleWindow.extremes factory).Attained samples)
    (ran : run (step c) (start factory) es = some s) (admitted : ∀ e ∈ es, Admits c samples e) :
    s.Attained c samples ∧ ∀ op ∈ operations c factory es, op.Backed samples := by
  refine run_admitted (P := fun log s => State.Attained c samples s ∧ ∀ op ∈ log, op.Backed samples)
    (Q := fun _ _ => Admits c samples)
    ⟨⟨fun _ => fresh, by simp [start]⟩, by simp⟩ ?_ ?_ ran ?_
  · exact fun kept sample admitted => ⟨kept.1.enter admitted, kept.2⟩
  · rintro es s i spurious call shared point ran _ ⟨attained, backed⟩ found _ moved
    have passed := run_accepted ran found moved.unreturned
    obtain ⟨member, supported⟩ := attained.calls call (List.mem_of_getElem? found) passed
    obtain ⟨slots, onward⟩ := moved.attained law member attained.slots supported
    refine ⟨⟨slots, ?_⟩, ?_⟩
    · intro other there passed
      obtain ⟨j, found'⟩ := List.getElem?_of_mem there
      rcases Pool.getElem?_modify_cases found found' with ⟨_, rfl⟩ | ⟨_, earlier⟩
      · exact ⟨member, onward⟩
      · exact attained.calls other (List.mem_of_getElem? earlier) passed
    · intro op there
      rcases List.mem_append.mp there with earlier | last
      · exact backed op earlier
      · obtain rfl := List.mem_singleton.mp last
        exact Operation.backed supported onward
  · rintro before e after _ rfl _
    exact admitted e (by simp)

theorem admits_accepted (c : Config) (es : List Event) : ∀ e ∈ es, Admits c (accepted c es) e := by
  intro e member
  cases e with
  | onSample s => exact fun passed => mem_accepted.mpr ⟨member, passed⟩
  | advance => trivial

/-- Clock readings that leave room: samples end within a quarter of the range of 64 bits, and
neither they nor the windows are longer than that. -/
structure Clocked (c : Config) (samples : List Sample) : Prop where
  ends : ∀ s ∈ samples, -2 ^ 62 ≤ s.startTimeNs + s.rttNs ∧ s.startTimeNs + s.rttNs < 2 ^ 62
  short : ∀ s ∈ samples, s.rttNs < 2 ^ 62
  window : c.maxWindowTimeNs ≤ 2 ^ 62

instance (c : Config) (samples : List Sample) : Decidable (Clocked c samples) :=
  decidable_of_iff ((∀ s ∈ samples, -2 ^ 62 ≤ s.startTimeNs + s.rttNs ∧
      s.startTimeNs + s.rttNs < 2 ^ 62) ∧
    (∀ s ∈ samples, s.rttNs < 2 ^ 62) ∧ c.maxWindowTimeNs ≤ 2 ^ 62)
    ⟨fun ⟨ends, short, window⟩ => ⟨ends, short, window⟩,
      fun clocked => ⟨clocked.ends, clocked.short, clocked.window⟩⟩

theorem adaptiveNs_bounds (c : Config) (candidateRtt : Int) :
    c.minWindowTimeNs ≤ adaptiveNs c candidateRtt ∧
      adaptiveNs c candidateRtt ≤ c.maxWindowTimeNs := by
  have ordered := c.window_ordered
  rw [adaptiveNs]
  split <;> omega

theorem Clocked.fits (clocked : Clocked c samples) (nonneg : ∀ s ∈ samples, 0 ≤ s.rttNs)
    {call : Call AddPoint TrackPoint ResetPoint} (member : call.sample ∈ samples)
    (supported : call.point.Supported samples call.sample) {read : Aggregate}
    (storing : call.point.storing? = some read) :
    (read.candidateRtt ≠ int64Max → InRange 64 (read.candidateRtt * 2)) ∧
      InRange 64 (endTimeNs call.sample + adaptiveNs c read.candidateRtt) := by
  obtain ⟨low, high⟩ := clocked.ends _ member
  obtain ⟨shortest, longest⟩ := adaptiveNs_bounds c read.candidateRtt
  have positive := c.minWindowTime_pos
  have window := clocked.window
  constructor
  · intro measured
    have extremes : read.extremes.Attained samples := by
      cases point : call.point with
      | boundary old read' stage =>
        rw [point] at storing supported
        cases stage <;> cases storing
        exact supported
      | _ =>
        rw [point] at storing
        contradiction
    obtain ⟨other, among, same⟩ := extremes.rtt.resolve_left measured
    have same : other.rttNs = read.candidateRtt := same
    have short := clocked.short other among
    have measurable := nonneg other among
    constructor <;> norm_num <;> omega
  · have inside : InRange 64 (call.sample.startTimeNs + call.sample.rttNs) := by
      constructor <;> norm_num <;> omega
    rw [endTimeNs, wrap_eq (by decide) inside]
    constructor <;> norm_num <;> omega

/-- No run gets out of the range of 64 bits. -/
theorem Clocked.along (law : AttainsExtremes W)
    (fresh : ∀ samples, (SampleWindow.extremes factory).Attained samples)
    (clocked : Clocked c (accepted c es)) :
    Along (step c) (DeadlinesFit c) (start factory) es := by
  refine along_iff.mpr ?_
  rintro before e after s rfl reached
  have attained := (run_attained law (fresh (accepted c (before ++ e :: after))) reached
    fun e member => admits_accepted c _ e (List.mem_append_left _ member)).1
  cases e with
  | onSample sample =>
    intro passed
    obtain ⟨low, high⟩ := clocked.ends sample (mem_accepted.mpr ⟨by simp, passed⟩)
    constructor <;> norm_num <;> omega
  | advance i spurious =>
    intro call found read storing
    have unreturned : call.point.rank < 17 := by
      cases point : call.point with
      | boundary old read stage =>
        have bounds := stage.rank_bounds
        simp only [Point.rank]
        omega
      | _ =>
        rw [point] at storing
        contradiction
    have passed := run_accepted reached found unreturned
    obtain ⟨member, supported⟩ := attained.calls call (List.mem_of_getElem? found) passed
    have threshold := c.threshold_nonneg
    exact clocked.fits (fun s there => threshold.trans (mem_accepted.mp there).2) member supported
      storing
end Run

/-- With windows of either kind, however samples and boundaries get in each other's way, what a
boundary tells the delegate of the number in flight and of drops, and what it makes the next
window as long as, are of accepted samples. -/
theorem boundaries_read_samples (c : Config) (es : List Event) :
    (∀ s, run (step c) (start ({} : AverageSampleWindow)) es = some s →
      ∀ op ∈ operations c ({} : AverageSampleWindow) es, op.Backed (accepted c es)) ∧
    ∀ (percentile : ℚ) (maxSamples : Nat) s,
      run (step c) (start (PercentileSampleWindow.construct percentile maxSamples)) es = some s →
      ∀ op ∈ operations c (PercentileSampleWindow.construct percentile maxSamples) es,
        op.Backed (accepted c es) := by
  constructor
  · intro s ran
    exact (run_attained AverageSampleWindow.attainsExtremes (Extremes.attained_fresh _) ran
      (admits_accepted c es)).2
  · intro percentile maxSamples s ran
    exact (run_attained PercentileSampleWindow.attainsExtremes (Extremes.attained_fresh _) ran
      (admits_accepted c es)).2

/-- The first boundary finds two samples and reports their mean. -/
theorem contested_reads :
    fed (operations quickWindows ({} : AverageSampleWindow) contested) =
        [⟨0, 6, 1, false⟩, ⟨20, 6, 1, false⟩] ∧
      ∀ op ∈ operations quickWindows ({} : AverageSampleWindow) contested,
        op.Backed (accepted quickWindows contested) := by
  have reached : (run (step quickWindows) (start ({} : AverageSampleWindow)) contested).isSome := by
    decide +kernel
  obtain ⟨s, ran⟩ := Option.isSome_iff_exists.mp reached
  exact ⟨by decide +kernel, (boundaries_read_samples quickWindows contested).1 s ran⟩

/-- With windows of either kind and in every interleaving: where the clock leaves room, no
addition and no doubling overflows. -/
theorem deadlines_fit (c : Config) (es : List Event) (clocked : Clocked c (accepted c es)) :
    Along (step c) (DeadlinesFit c) (start ({} : AverageSampleWindow)) es ∧
      ∀ (percentile : ℚ) (maxSamples : Nat), Along (step c) (DeadlinesFit c)
        (start (PercentileSampleWindow.construct percentile maxSamples)) es :=
  ⟨clocked.along AverageSampleWindow.attainsExtremes Extremes.attained_fresh, fun _ _ =>
    clocked.along PercentileSampleWindow.attainsExtremes Extremes.attained_fresh⟩

theorem contested_fit : Along (step quickWindows) (DeadlinesFit quickWindows)
    (start ({} : AverageSampleWindow)) contested :=
  (deadlines_fit quickWindows contested (by decide)).1
end WindowedLimit
end Limen
