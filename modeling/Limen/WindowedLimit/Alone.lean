import Limen.SampleWindow.Undisturbed
import Limen.WindowedLimit.Refinement
import Limen.WindowedLimit.Steps

/-! Calls of `OnSample` one after the other. The atomic operations of a call that nobody
disturbs do what the call does in one step, so that runs of the sequential model are runs of
the concurrent one. -/
namespace Limen.WindowedLimit
open Transition State

/-- A window whose methods, undisturbed, do what `SampleWindow` says, in the states that it can
be in. -/
class SerialWindow (W : Type) {α τ ρ : outParam Type} [AtomicWindow W α τ ρ] where
  Sound : W → Prop
  add_sound : ∀ {w : W} (s : Sample), Sound w →
    Sound (SampleWindow.addSample w s.rttNs s.inflight s.didDrop)
  reset_sound : ∀ {w : W}, Sound w → Sound (SampleWindow.reset w)
  adds : ∀ (w : W) (s : Sample), Finishes (fun w pc => AtomicWindow.addStep w s false pc) w
    (AtomicWindow.addEntry W) (SampleWindow.addSample w s.rttNs s.inflight s.didDrop)
  tracks : ∀ {w : W}, Sound w →
    Returns (AtomicWindow.trackStep w) (AtomicWindow.trackEntry W) (SampleWindow.trackedRttNs w)
  resets : ∀ w : W, Finishes AtomicWindow.resetStep w (AtomicWindow.resetEntry W)
    (SampleWindow.reset w)

instance : SerialWindow AverageSampleWindow where
  Sound _ := True
  add_sound _ _ := trivial
  reset_sound _ := trivial
  adds := AverageSampleWindow.finishes_add
  tracks {w} _ := w.returns_tracked
  resets := AverageSampleWindow.finishes_reset

instance : SerialWindow PercentileSampleWindow where
  Sound w := w.rtts.length = w.maxSamples
  add_sound := by
    intro w s sized
    show (PercentileSampleWindow.store w.rtts w.storeIndex s.rttNs).length = w.maxSamples
    rw [PercentileSampleWindow.storeIndex]
    split
    · rw [PercentileSampleWindow.length_store]
      exact sized
    · exact sized
  reset_sound sized := sized
  adds := PercentileSampleWindow.finishes_add
  tracks := PercentileSampleWindow.returns_tracked
  resets := PercentileSampleWindow.finishes_reset

variable {W α τ ρ : Type}

/-- What the delegate receives by an operation. -/
def Point.hands (s : Sample) : Point α τ ρ → Point α τ ρ → List Sample
  | .boundary _ read .callDelegate, .boundary _ _ .inDelegate =>
    [⟨s.startTimeNs, read.trackedRtt, read.maxInflight, read.didDropInWindow⟩]
  | _, _ => []

/-- What the delegate has received. -/
def handed (log : List (Operation α τ ρ)) : List Sample :=
  log.flatMap fun op => op.before.hands op.sample op.after

variable [AtomicWindow W α τ ρ]

/-- The operations of a call from a point to its return, with nobody else at work. -/
inductive Path (c : Config) (s : Sample) : Shared W → Point α τ ρ → Shared W → List Sample → Prop
  | returned {w : Shared W} : Path c s w .returned w []
  | next {w w₁ w' : Shared W} {point point₁ : Point α τ ρ} {rest all : List Sample}
      (advanced : point.advance c w s false = some (w₁, point₁))
      (hands : all = point.hands s point₁ ++ rest) (onward : Path c s w₁ point₁ w' rest) :
      Path c s w point w' all

section Path
variable {c : Config} {s : Sample} {w' : Shared W} {samples : List Sample}

theorem path_addSample {slot slot' : W} {pc : α}
    (adds : Finishes (fun w pc => AtomicWindow.addStep w s false pc) slot pc slot') {w : Shared W}
    {idx : Fin 2} (here : w.slots idx = slot)
    (onward : Path c s { w with slots := Function.update w.slots idx slot' } .loadDue w' samples) :
    Path c s w (.addSample idx pc) w' samples := by
  induction adds generalizing w with
  | last stepped =>
    refine .next ?_ rfl onward
    rw [Point.advance, here, stepped]
  | next stepped rest ih =>
    refine .next ?_ rfl (ih (w := { w with slots := Function.update w.slots idx _ })
      (Function.update_self ..) ?_)
    · rw [Point.advance, here, stepped]
    · dsimp only
      rw [Function.update_idem]
      exact onward

theorem path_trackedRtt {w : Shared W} {old : Fin 2} {read : Aggregate} {pc : τ} {rtt : Int}
    (tracks : Returns (AtomicWindow.trackStep (w.slots old)) pc rtt)
    (onward :
      Path c s w (.boundary old { read with trackedRtt := rtt } .loadMaxInflight) w' samples) :
    Path c s w (.boundary old read (.trackedRtt pc)) w' samples := by
  induction tracks with
  | last stepped =>
    refine .next ?_ rfl onward
    rw [Point.advance, Stage.advance, stepped]
  | next stepped rest ih =>
    refine .next ?_ rfl (ih onward)
    rw [Point.advance, Stage.advance, stepped]

theorem path_reset {slot slot' : W} {pc : ρ} (resets : Finishes AtomicWindow.resetStep slot pc slot')
    {w : Shared W} {old : Fin 2} {read : Aggregate} (here : w.slots old = slot)
    (onward : Path c s { w with slots := Function.update w.slots old slot' } .unlock w' samples) :
    Path c s w (.boundary old read (.reset pc)) w' samples := by
  induction resets generalizing w with
  | last stepped =>
    refine .next ?_ rfl onward
    rw [Point.advance, Stage.advance, here, stepped]
  | next stepped rest ih =>
    refine .next ?_ rfl (ih (w := { w with slots := Function.update w.slots old _ })
      (Function.update_self ..) ?_)
    · rw [Point.advance, Stage.advance, here, stepped]
    · dsimp only
      rw [Function.update_idem]
      exact onward

theorem path_delegates {w : Shared W} {old : Fin 2} {read : Aggregate}
    (ready : windowReady c read = true)
    (onward : Path c s w (.boundary old read .inDelegate) w' samples) :
    Path c s w (.boundary old read .callDelegate) w'
      (⟨s.startTimeNs, read.trackedRtt, read.maxInflight, read.didDropInWindow⟩ :: samples) := by
  refine .next ?_ rfl onward
  rw [Point.advance, Stage.advance, if_pos ready]

theorem path_skips {w : Shared W} {old : Fin 2} {read : Aggregate}
    (unready : windowReady c read = false)
    (onward : Path c s w (.boundary old read (.reset (AtomicWindow.resetEntry W))) w' samples) :
    Path c s w (.boundary old read .callDelegate) w' samples := by
  refine .next ?_ rfl onward
  rw [Point.advance, Stage.advance, unready, if_neg Bool.false_ne_true]

/-- Past the deadline, and with the mutex free, a call takes the boundary. -/
theorem path_due {w : Shared W} (late : ¬ endTimeNs s ≤ w.nextUpdateTimeNs)
    (free : w.boundaryMu = false)
    (onward : Path c s { w with boundaryMu := true } .loadOld w' samples) :
    Path c s w .loadDue w' samples := by
  have checked : Path c s { w with boundaryMu := true } .reloadDue w' samples := by
    refine .next ?_ rfl onward
    rw [Point.advance, if_neg late]
  have locked : Path c s w .tryLock w' samples := by
    refine .next ?_ rfl checked
    rw [Point.advance, free, if_neg (by simp)]
  refine .next ?_ rfl locked
  rw [Point.advance, if_neg late]

variable [SerialWindow W]

theorem path_boundary (w : WindowedLimit W) (sound : SerialWindow.Sound (w.slots w.activeIndex)) :
    Path c s ⟨w, true⟩ .loadOld ⟨(w.boundary c s.startTimeNs (endTimeNs s)).1, false⟩
      (w.boundary c s.startTimeNs (endTimeNs s)).2.toList := by
  refine .next rfl rfl (.next rfl rfl ?_)
  refine path_trackedRtt (SerialWindow.tracks sound) ?_
  refine .next rfl rfl (.next rfl rfl (.next rfl rfl (.next rfl rfl (.next rfl rfl ?_))))
  have closes (read : Aggregate) (w₁ : Shared W)
      (here : w₁.slots w.activeIndex = w.slots w.activeIndex) :
      Path c s w₁ (.boundary w.activeIndex read (.reset (AtomicWindow.resetEntry W)))
        { w₁ with
          slots := Function.update w₁.slots w.activeIndex (SampleWindow.reset (w.slots w.activeIndex))
          boundaryMu := false } [] :=
    path_reset (SerialWindow.resets _) here (.next rfl rfl .returned)
  rw [boundary]
  by_cases ready : SampleWindow.candidateRttNs (w.slots w.activeIndex) ≠ int64Max ∧
      c.windowSize ≤ SampleWindow.sampleCount (w.slots w.activeIndex)
  · rw [if_pos ready]
    exact path_delegates (decide_eq_true ready) (.next rfl rfl (closes _ _ rfl))
  · rw [if_neg ready]
    exact path_skips (decide_eq_false ready) (closes _ _ rfl)

theorem path_onSample (w : WindowedLimit W) (sound : ∀ k, SerialWindow.Sound (w.slots k))
    (accepted : ¬ s.rttNs < c.minRttThresholdNs) :
    Path c s ⟨w, false⟩ .loadActive ⟨(w.onSample c s).1, false⟩ (w.onSample c s).2.toList := by
  rw [onSample, if_neg accepted]
  refine .next rfl rfl (path_addSample (SerialWindow.adds _ s) rfl ?_)
  dsimp only
  by_cases early : wrap 64 (s.startTimeNs + s.rttNs) ≤ w.nextUpdateTimeNs
  · rw [if_pos early]
    refine .next ?_ rfl .returned
    rw [Point.advance, endTimeNs, if_pos early]
  · rw [if_neg early]
    refine path_due early rfl (path_boundary _ ?_)
    dsimp only
    rw [Function.update_self]
    exact SerialWindow.add_sound s (sound _)
end Path

section Run
variable {c : Config} {s : Sample} {w w' : Shared W} {samples : List Sample}

theorem step_alone (calls : List (Call α τ ρ)) {point point₁ : Point α τ ρ}
    (advanced : point.advance c w s false = some (w', point₁)) :
    step c ⟨w, calls ++ [⟨s, point⟩]⟩ (.advance calls.length) =
      some ⟨w', calls ++ [⟨s, point₁⟩]⟩ := by
  simp only [step, List.getElem?_concat_length, Option.bind_eq_bind, Option.bind_some, advanced,
    Pool.modify_concat]
  rfl

theorem Path.runs {point : Point α τ ρ} (path : Path c s w point w' samples)
    (calls : List (Call α τ ρ)) : ∃ n, run (step c) ⟨w, calls ++ [⟨s, point⟩]⟩
        (List.replicate n (.advance calls.length)) = some ⟨w', calls ++ [⟨s, .returned⟩]⟩ ∧
      handed (observe (step c) sees ⟨w, calls ++ [⟨s, point⟩]⟩
        (List.replicate n (.advance calls.length))) = samples := by
  induction path with
  | returned => exact ⟨0, rfl, rfl⟩
  | next advanced hands onward ih =>
    obtain ⟨n, ran, log⟩ := ih
    have stepped := step_alone calls advanced
    refine ⟨n + 1, ?_, ?_⟩
    · rw [List.replicate_succ, run_cons, stepped]
      exact ran
    · rw [List.replicate_succ]
      simp only [observe, stepped]
      simp only [sees, List.getElem?_concat_length, handed, List.flatMap_append]
      rw [hands, ← log]
      simp [Call.operation, handed]

/-- Calls enter only when all others have returned. -/
def OneByOne (s : State W α τ ρ) : Event → Prop
  | .onSample _ => ∀ call ∈ s.calls, call.point = .returned
  | .advance _ _ => True

theorem along_advances (t : State W α τ ρ) (n i : Nat) :
    Along (step c) OneByOne t (List.replicate n (.advance i)) := by
  induction n generalizing t with
  | zero => trivial
  | succ n ih => exact ⟨trivial, fun next _ => ih next⟩

variable [SerialWindow W]

/-- Between calls: the mutex is free, and the windows are as their methods leave them. -/
structure Idle (t : State W α τ ρ) : Prop where
  free : t.boundaryMu = false
  sound : ∀ k, SerialWindow.Sound (t.slots k)
  returned : ∀ call ∈ t.calls, call.point = .returned

theorem sound_update {slots : Fin 2 → W} {slot : W} (sound : ∀ k, SerialWindow.Sound (slots k))
    (also : SerialWindow.Sound slot) (j k : Fin 2) :
    SerialWindow.Sound (Function.update slots j slot k) := by
  by_cases here : k = j
  · subst here
    rw [Function.update_self]
    exact also
  · rw [Function.update_of_ne here]
    exact sound k

theorem onSample_sound {w : WindowedLimit W} (sound : ∀ k, SerialWindow.Sound (w.slots k))
    (k : Fin 2) :
    SerialWindow.Sound ((w.onSample c s).1.slots k) := by
  rw [onSample]
  split
  · exact sound k
  · have added := sound_update sound (SerialWindow.add_sound s (sound w.activeIndex)) w.activeIndex
    dsimp only
    split
    · exact added k
    · exact sound_update added (SerialWindow.reset_sound (added w.activeIndex)) _ k

/-- One call, from entry to return. -/
theorem run_onSample {t : State W α τ ρ} (idle : Idle t) (sample : Sample) : ∃ es u,
    run (step c) t es = some u ∧ Idle u ∧ Along (step c) OneByOne t es ∧
      u.toWindowedLimit = (t.toWindowedLimit.onSample c sample).1 ∧
      handed (observe (step c) sees t es) = (t.toWindowedLimit.onSample c sample).2.toList := by
  obtain ⟨⟨w, mutex⟩, calls⟩ := t
  obtain rfl : mutex = false := idle.free
  have last (call : Call α τ ρ) (member : call ∈ calls ++ [⟨sample, .returned⟩]) :
      call.point = .returned := by
    rcases List.mem_append.mp member with before | new
    · exact idle.returned call before
    · rw [List.mem_singleton.mp new]
  by_cases noise : sample.rttNs < c.minRttThresholdNs
  · have entered : step c ⟨⟨w, false⟩, calls⟩ (.onSample sample) =
        some ⟨⟨w, false⟩, calls ++ [⟨sample, .returned⟩]⟩ := by
      simp only [step, if_pos noise]
    refine ⟨[.onSample sample], _, (run_single ..).trans entered, ⟨rfl, idle.sound, last⟩,
      ⟨idle.returned, fun _ _ => trivial⟩, ?_, ?_⟩
    · rw [onSample, if_pos noise]
    · rw [onSample, if_pos noise]
      simp only [observe, entered]
      rfl
  · have entered : step c ⟨⟨w, false⟩, calls⟩ (.onSample sample) =
        some ⟨⟨w, false⟩, calls ++ [⟨sample, .loadActive⟩]⟩ := by
      simp only [step, if_neg noise]
    obtain ⟨n, ran, log⟩ := (path_onSample w idle.sound noise).runs calls
    refine ⟨.onSample sample :: List.replicate n (.advance calls.length),
      ⟨⟨(w.onSample c sample).1, false⟩, calls ++ [⟨sample, .returned⟩]⟩, ?_,
      ⟨rfl, onSample_sound idle.sound, last⟩,
      ⟨idle.returned, fun u _ => along_advances u n _⟩, rfl, ?_⟩
    · rw [run_cons, entered]
      exact ran
    · simp only [observe, entered]
      exact log

/-- Calls one after the other drive the delegate as the sequential model says. -/
theorem run_serial {t : State W α τ ρ} (idle : Idle t) (samples : List Sample) : ∃ es u,
    run (step c) t es = some u ∧ Along (step c) OneByOne t es ∧
      handed (observe (step c) sees t es) =
        delegateCalls (onSample c) t.toWindowedLimit samples := by
  induction samples generalizing t with
  | nil => exact ⟨[], t, rfl, trivial, rfl⟩
  | cons sample rest ih =>
    obtain ⟨es, u, ran, idle', along, same, log⟩ := run_onSample (c := c) idle sample
    obtain ⟨fs, v, ran', along', log'⟩ := ih idle'
    refine ⟨es ++ fs, v, run_append_eq_some.mpr ⟨u, ran, ran'⟩, along.append ran along', ?_⟩
    rw [observe_append ran, handed, List.flatMap_append, ← handed, ← handed, log, log', same,
      delegateCalls]
end Run

/-- Every sequence of samples has a run of atomic operations, with one call at a time, whose
delegate calls are those of the sequential model. -/
theorem serial_run (c : Config) (samples : List Sample) :
    (∃ es s, run (step c) (start ({} : AverageSampleWindow)) es = some s ∧
      Along (step c) OneByOne (start ({} : AverageSampleWindow)) es ∧
      handed (operations c ({} : AverageSampleWindow) es) =
        delegateCalls (onSample c) (construct ({} : AverageSampleWindow)) samples) ∧
    ∀ percentile maxSamples, ∃ es s,
      run (step c) (start (PercentileSampleWindow.construct percentile maxSamples)) es = some s ∧
      Along (step c) OneByOne (start (PercentileSampleWindow.construct percentile maxSamples)) es ∧
      handed (operations c (PercentileSampleWindow.construct percentile maxSamples) es) =
        delegateCalls (onSample c)
          (construct (PercentileSampleWindow.construct percentile maxSamples)) samples :=
  ⟨run_serial ⟨rfl, fun _ => trivial, by simp [start]⟩ samples,
    fun _ _ => run_serial ⟨rfl, fun _ => List.length_replicate, by simp [start]⟩ samples⟩
end Limen.WindowedLimit
