import Limen.AbstractLimit
import Limen.AbstractLimiter.Accounting

/-! A limiter as a part of a larger machine. What the machine does to the limiter's state is what
the limiter's own operations and changes of its cap do, so that what holds of every run of the
limiter holds of the part. The first such machine is a limiter with the algorithm it wraps:
completed calls feed the algorithm their samples, one at a time under its mutex, and the caps it
publishes are the ones that admission reads. -/
namespace Limen.ClosedLoop
open AbstractLimiter Transition
variable {Ctx σ π τ S E : Type}

/-- The limiter gets from `s` to `t`, and in between differs from one of them in the cap at
most. -/
def Follows (l : Limiter Ctx σ π) (s t : AbstractLimiter.State Ctx σ π) : Prop :=
  ∃ ds, run (AbstractLimiter.State.step l) s ds = some t ∧
    ∀ w, Visits (AbstractLimiter.State.step l) s ds w → (w.limit = s.limit ∨ w.limit = t.limit) ∧
      ((w.toGauge = s.toGauge ∧ w.requests = s.requests) ∨
        (w.toGauge = t.toGauge ∧ w.requests = t.requests))

namespace Follows
variable {l : Limiter Ctx σ π} {s t u : AbstractLimiter.State Ctx σ π}
  {d : AbstractLimiter.Event Ctx}

theorem refl (l : Limiter Ctx σ π) (s : AbstractLimiter.State Ctx σ π) : Follows l s s := by
  refine ⟨[], rfl, fun w visits => ?_⟩
  obtain rfl := visits_nil visits
  exact ⟨.inl rfl, .inl ⟨rfl, rfl⟩⟩

theorem single (stepped : s.step l d = some t) : Follows l s t := by
  refine ⟨[d], (run_single ..).trans stepped, fun w visits => ?_⟩
  rcases visits_cons visits with rfl | ⟨u, first, rest⟩
  · exact ⟨.inl rfl, .inl ⟨rfl, rfl⟩⟩
  · obtain rfl := visits_nil rest
    obtain rfl := Option.some.inj (stepped.symm.trans first)
    exact ⟨.inr rfl, .inr ⟨rfl, rfl⟩⟩

theorem publish {value : Int} (stepped : s.step l d = some u) (sameLimit : u.limit = s.limit)
    (published : u.step l (.setLimit value) = some t) (gauge : t.toGauge = u.toGauge)
    (requests : t.requests = u.requests) : Follows l s t := by
  have reached : run (AbstractLimiter.State.step l) u [.setLimit value] = some t :=
    (run_single ..).trans published
  refine ⟨[d, .setLimit value], run_cons_eq_some.mpr ⟨u, stepped, reached⟩, fun w visits => ?_⟩
  rcases visits_cons visits with rfl | ⟨v, first, rest⟩
  · exact ⟨.inl rfl, .inl ⟨rfl, rfl⟩⟩
  · obtain rfl := Option.some.inj (stepped.symm.trans first)
    rcases visits_cons rest with rfl | ⟨v, second, last⟩
    · exact ⟨.inl sameLimit, .inr ⟨gauge.symm, requests.symm⟩⟩
    · obtain rfl := visits_nil last
      obtain rfl := Option.some.inj (published.symm.trans second)
      exact ⟨.inr rfl, .inr ⟨rfl, rfl⟩⟩
end Follows

/-- A machine that a limiter is a part of. -/
structure Host (Ctx σ π S E : Type) where
  limiter : Limiter Ctx σ π
  initialLimit : Int
  start : S
  step : S → E → Option S
  view : S → AbstractLimiter.State Ctx σ π
  starts : view start = .start limiter.gate initialLimit
  follows : ∀ {s e t}, step s e = some t → Follows limiter (view s) (view t)

namespace Host
variable {h : Host Ctx σ π S E} {caps : Int → Prop} {es : List E} {s : S}

/-- The limiter alone goes through the states that it goes through as a part, and through no
others but such as differ from one of them in the cap. -/
structure Refines (h : Host Ctx σ π S E) (caps : Int → Prop) (es : List E)
    (u : AbstractLimiter.State Ctx σ π) (ds : List (AbstractLimiter.Event Ctx)) : Prop where
  ran : run (AbstractLimiter.State.step h.limiter) (.start h.limiter.gate h.initialLimit) ds =
    some u
  visited : ∀ w, Visits (AbstractLimiter.State.step h.limiter)
      (.start h.limiter.gate h.initialLimit) ds w → caps w.limit ∧
    ∃ v, Visits h.step h.start es v ∧ (h.view v).toGauge = w.toGauge ∧
      (h.view v).requests = w.requests

theorem run_refines (caps : Int → Prop) (ran : run h.step h.start es = some s)
    (allowed : ∀ v, Visits h.step h.start es v → caps (h.view v).limit) :
    ∃ ds, h.Refines caps es (h.view s) ds := by
  refine history (P := fun es s => (∀ v, Visits h.step h.start es v → caps (h.view v).limit) →
    ∃ ds, h.Refines caps es (h.view s) ds) ?_ ?_ ran allowed
  · intro allowed
    have here : Visits h.step h.start ([] : List E) h.start := visits_last rfl
    refine ⟨[], congrArg some h.starts.symm, fun w visits => ?_⟩
    obtain rfl := visits_nil visits
    rw [← h.starts]
    exact ⟨allowed _ here, h.start, here, rfl, rfl⟩
  · intro es s e t ran ih stepped allowed
    have before : Visits h.step h.start (es ++ [e]) s := (visits_last ran).append [e]
    have after : Visits h.step h.start (es ++ [e]) t :=
      visits_last (run_append_eq_some.mpr ⟨s, ran, (run_single ..).trans stepped⟩)
    obtain ⟨ds, refines⟩ := ih fun v visits => allowed v (visits.append [e])
    obtain ⟨fs, reached, between⟩ := h.follows stepped
    refine ⟨ds ++ fs, run_append_eq_some.mpr ⟨_, refines.ran, reached⟩, fun w visits => ?_⟩
    rcases visits_append visits with earlier | ⟨u, first, rest⟩
    · obtain ⟨allowed, v, there, same⟩ := refines.visited w earlier
      exact ⟨allowed, v, there.append [e], same⟩
    · obtain rfl := Option.some.inj (refines.ran.symm.trans first)
      obtain ⟨limit, shared⟩ := between w rest
      constructor
      · rcases limit with same | same <;> rw [same]
        · exact allowed s before
        · exact allowed t after
      · rcases shared with ⟨gauge, requests⟩ | ⟨gauge, requests⟩
        · exact ⟨s, before, gauge.symm, requests.symm⟩
        · exact ⟨t, after, gauge.symm, requests.symm⟩
end Host

/-- A limiter over an algorithm whose cap changes with its samples only. -/
structure System (Ctx σ π τ : Type) where
  limiter : Limiter Ctx σ π
  algorithm : AbstractLimit.Algorithm τ

structure State (Ctx σ π τ : Type) extends AbstractLimiter.State Ctx σ π where
  own : τ

inductive Event (Ctx : Type) where
  | tryAcquire (context : Ctx)
  | advance (call : Nat) (input : Input)
  | guard (op : GuardOp)
  | notify
  deriving DecidableEq, Repr

def Event.limiter : Event Ctx → AbstractLimiter.Event Ctx
  | .tryAcquire context => .tryAcquire context
  | .advance call input => .advance call input
  | .guard op => .guard op
  | .notify => .notify

/-- What the last operation of `OnSlotComplete` passes to the algorithm. -/
def sample? (input : Input) : Phase π → Option Sample
  | .sampling call => some ⟨call.slot.startTimeNs, input.now - call.slot.startTimeNs,
      call.slot.inflightAtAcquire, toOutcomeStatus call.status = .dropped⟩
  | _ => none

def Event.sample? (s : AbstractLimiter.State Ctx σ π) : Event Ctx → Option Sample
  | .advance call input => s.requests[call]?.bind fun r => ClosedLoop.sample? input r.phase
  | _ => none

theorem advance_samples {gate : Gate Ctx σ π} {c c' : Counters σ} {input : Input}
    {phase phase' : Phase π} {made : Option (Slot Unit)}
    (advanced : phase.advance gate c input = some (c', phase', made)) :
    c'.samples = c.samples ++ (sample? input phase).toList := by
  cases phase <;> simp only [Phase.advance, Option.some.injEq, Prod.mk.injEq, reduceCtorEq]
    at advanced <;> obtain ⟨rfl, rfl, rfl⟩ := advanced <;>
    simp [sample?, Counters.count]

/-- No event of the limiter's changes the cap, and one that feeds a sample feeds one. -/
theorem step_feeds {l : Limiter Ctx σ π} {s t : AbstractLimiter.State Ctx σ π} {e : Event Ctx}
    (stepped : s.step l e.limiter = some t) :
    t.samples = s.samples ++ (e.sample? s).toList ∧ t.limit = s.limit := by
  cases e with
  | tryAcquire context =>
    cases stepped
    exact ⟨(List.append_nil _).symm, rfl⟩
  | advance call input =>
    obtain ⟨r, c, phase, made, heap, found, advanced, _, rfl⟩ :=
      AbstractLimiter.State.step_advance stepped
    simp only [Event.sample?, found, Option.bind_some]
    exact ⟨advance_samples advanced, advance_limit advanced⟩
  | guard op =>
    obtain ⟨heap, completion, _, rfl⟩ := AbstractLimiter.State.step_guard stepped
    exact ⟨(List.append_nil _).symm, rfl⟩
  | notify =>
    simp only [Event.limiter, AbstractLimiter.State.step] at stepped
    split at stepped
    · contradiction
    · split at stepped <;> cases stepped <;> exact ⟨(List.append_nil _).symm, rfl⟩

/-- Nothing but the cap changes when one is published. -/
theorem setLimit_cases {l : Limiter Ctx σ π} {s t : AbstractLimiter.State Ctx σ π} {value : Int}
    (published : s.step l (.setLimit value) = some t) :
    t.limit = value ∧ t.toGauge = s.toGauge ∧ t.requests = s.requests ∧ t.samples = s.samples := by
  simp only [AbstractLimiter.State.step] at published
  split at published
  · contradiction
  · split at published <;> cases published
    · exact ⟨Eq.symm ‹_›, rfl, rfl, rfl⟩
    · exact ⟨rfl, rfl, rfl, rfl⟩

/-- What an algorithm would be left with by `samples`, one after the other. -/
def replay (a : AbstractLimit.Algorithm τ) (initialLimit : Int) (own : τ) (samples : List Sample) :
    AbstractLimit.State τ :=
  a.after initialLimit own (samples.map .onSample)

theorem replay_concat (a : AbstractLimit.Algorithm τ) (initialLimit : Int) (own : τ)
    (samples : List Sample) (sample : Sample) : replay a initialLimit own (samples ++ [sample]) =
      a.onSample (replay a initialLimit own samples) sample := by
  rw [replay, List.map_append, List.map_singleton, AbstractLimit.Algorithm.after_concat]
  rfl

namespace State

def start (y : System Ctx σ π τ) (initialLimit : Int) (own : τ) : State Ctx σ π τ :=
  ⟨.start y.limiter.gate initialLimit, own⟩

/-- `AbstractLimit::OnSample`, up to the store of the cap; the callbacks follow one by one. -/
def onSample (y : System Ctx σ π τ) (s : State Ctx σ π τ) (t : AbstractLimiter.State Ctx σ π)
    (sample : Sample) : Option (State Ctx σ π τ) :=
  let updated := y.algorithm.update s.own s.limit sample
  (t.step y.limiter (.setLimit updated.2)).map fun u => ⟨u, updated.1⟩

def step (y : System Ctx σ π τ) (s : State Ctx σ π τ) (e : Event Ctx) :
    Option (State Ctx σ π τ) := do
  let t ← s.toState.step y.limiter e.limiter
  match e.sample? s.toState with
  | none => some ⟨t, s.own⟩
  -- The mutex is free once the callbacks of the last change have returned.
  | some sample => if s.publishing.isSome then none else s.onSample y t sample

variable {y : System Ctx σ π τ} {s t : State Ctx σ π τ} {e : Event Ctx}

/-- A step is one of the limiter's that feeds no sample, or one that does with the update that
the sample brings about. -/
theorem step_cases (stepped : s.step y e = some t) :
    (s.toState.step y.limiter e.limiter = some t.toState ∧ t.own = s.own ∧
        t.samples = s.samples ∧ t.limit = s.limit) ∨
      ∃ sample u, s.publishing = none ∧ s.toState.step y.limiter e.limiter = some u ∧
        u.samples = s.samples ++ [sample] ∧ u.limit = s.limit ∧
        u.step y.limiter (.setLimit (y.algorithm.update s.own s.limit sample).2) =
          some t.toState ∧ t.own = (y.algorithm.update s.own s.limit sample).1 := by
  simp only [step, Option.bind_eq_bind, Option.bind_eq_some_iff] at stepped
  obtain ⟨u, moved, rest⟩ := stepped
  obtain ⟨samples, sameLimit⟩ := step_feeds moved
  split at rest
  · rename_i silent
    cases rest
    rw [silent] at samples
    exact .inl ⟨moved, rfl, samples.trans (List.append_nil _), sameLimit⟩
  · rename_i sample sampled
    split at rest
    · contradiction
    · rename_i free
      simp only [onSample, Option.map_eq_some_iff] at rest
      obtain ⟨t, published, rfl⟩ := rest
      rw [sampled] at samples
      exact .inr ⟨sample, u, by simpa using free, moved, samples, sameLimit, published, rfl⟩

variable {initialLimit : Int} {own : τ} {es : List (Event Ctx)}

/-- The cap is what the algorithm makes of the samples fed so far, in the order in which they
were. -/
theorem run_replays (ran : run (step y) (start y initialLimit own) es = some s) :
    s.limit = (replay y.algorithm initialLimit own s.samples).limit ∧
      s.own = (replay y.algorithm initialLimit own s.samples).own := by
  refine history (P := fun _ s => s.limit = (replay y.algorithm initialLimit own s.samples).limit ∧
    s.own = (replay y.algorithm initialLimit own s.samples).own) ⟨rfl, rfl⟩ ?_ ran
  rintro es s e t - ⟨limit, owned⟩ stepped
  rcases step_cases stepped with
    ⟨_, sameOwn, samples, sameLimit⟩ | ⟨sample, u, -, -, samples, -, published, now⟩
  · rw [samples, sameOwn, sameLimit]
    exact ⟨limit, owned⟩
  · obtain ⟨set, -, -, kept⟩ := setLimit_cases published
    rw [kept, samples, replay_concat, set, now, limit, owned]
    exact ⟨(AbstractLimit.setLimitLocked_limit _ _).symm, rfl⟩
end State

/-- The limiter as a part of the whole. -/
def System.host (y : System Ctx σ π τ) (initialLimit : Int) (own : τ) :
    Host Ctx σ π (State Ctx σ π τ) (Event Ctx) where
  limiter := y.limiter
  initialLimit := initialLimit
  start := .start y initialLimit own
  step := State.step y
  view := State.toState
  starts := rfl
  follows := by
    intro s e t stepped
    rcases State.step_cases stepped with
      ⟨moved, _, _, _⟩ | ⟨sample, u, _, moved, _, sameLimit, published, _⟩
    · exact .single moved
    · obtain ⟨_, gauge, requests, _⟩ := setLimit_cases published
      exact .publish moved sameLimit published gauge requests
end Limen.ClosedLoop
