import Limen.ClosedLoop.Confinement
import Limen.WindowedLimit.Cadence

/-! The whole chain: a limiter over a `WindowedLimit` over an algorithm, each in single atomic
operations. Completed calls enter their samples into the windows, the threads that take the
boundaries drive the algorithm, and the caps it publishes are the ones that admission reads. -/
namespace Limen.ClosedLoop
open AbstractLimiter Transition
variable {Ctx σ π W α β ρ τ : Type}

/-- `W` is the implementation of the windows, and `factory` a window as `Build` gets it. -/
structure Chain (Ctx σ π W τ : Type) where
  limiter : Limiter Ctx σ π
  config : WindowedLimit.Config
  factory : W
  algorithm : AbstractLimit.Algorithm τ

namespace Chain

structure State (Ctx σ π W α β ρ τ : Type) where
  limiter : AbstractLimiter.State Ctx σ π
  window : WindowedLimit.State W α β ρ
  own : τ

inductive Event (Ctx : Type) where
  | limiter (e : ClosedLoop.Event Ctx)
  | window (call : Nat) (spurious : Bool := false)
  deriving DecidableEq, Repr

variable [AtomicWindow W α β ρ]

namespace State

def start (y : Chain Ctx σ π W τ) (initialLimit : Int) (own : τ) : State Ctx σ π W α β ρ τ :=
  ⟨.start y.limiter.gate initialLimit, .start y.factory, own⟩

/-- `WindowedLimit::OnSample` is entered. -/
def enter (y : Chain Ctx σ π W τ) (w : WindowedLimit.State W α β ρ) :
    Option Sample → Option (WindowedLimit.State W α β ρ)
  | none => some w
  | some sample => w.step y.config (.onSample sample)

/-- `AbstractLimit::OnSample` is entered with what a boundary has found, and left once the
callbacks have returned. -/
def delegate (y : Chain Ctx σ π W τ) (s : State Ctx σ π W α β ρ τ)
    (call : WindowedLimit.Call α β ρ) (point : WindowedLimit.Point α β ρ) :
    Option (AbstractLimiter.State Ctx σ π × τ) :=
  match call.delivers? point with
  | some sample =>
    let updated := y.algorithm.update s.own s.limiter.limit sample
    (s.limiter.step y.limiter (.setLimit updated.2)).map fun t => (t, updated.1)
  | none =>
    if call.point.inDelegate && s.limiter.publishing.isSome then none else some (s.limiter, s.own)

def step (y : Chain Ctx σ π W τ) (s : State Ctx σ π W α β ρ τ) :
    Event Ctx → Option (State Ctx σ π W α β ρ τ)
  | .limiter e => do
    let t ← s.limiter.step y.limiter e.limiter
    let w ← enter y s.window (e.sample? s.limiter)
    some ⟨t, w, s.own⟩
  | .window i spurious => do
    let call ← s.window.calls[i]?
    let w ← s.window.step y.config (.advance i spurious)
    let next ← w.calls[i]?
    let (t, own) ← s.delegate y call next.point
    some ⟨t, w, own⟩
end State

variable {y : Chain Ctx σ π W τ} {s t : State Ctx σ π W α β ρ τ} {e : Event Ctx}

/-- What a step does to the parts. -/
inductive Moves (y : Chain Ctx σ π W τ) (s t : State Ctx σ π W α β ρ τ) : Event Ctx → Prop
  | quiet {e : ClosedLoop.Event Ctx}
      (moved : s.limiter.step y.limiter e.limiter = some t.limiter)
      (limit : t.limiter.limit = s.limiter.limit) (silent : e.sample? s.limiter = none)
      (samples : t.limiter.samples = s.limiter.samples) (window : t.window = s.window)
      (own : t.own = s.own) : Moves y s t (.limiter e)
  | enters {e : ClosedLoop.Event Ctx} {sample : Sample}
      (moved : s.limiter.step y.limiter e.limiter = some t.limiter)
      (limit : t.limiter.limit = s.limiter.limit) (sampled : e.sample? s.limiter = some sample)
      (samples : t.limiter.samples = s.limiter.samples ++ [sample])
      (entered : s.window.step y.config (.onSample sample) = some t.window)
      (own : t.own = s.own) : Moves y s t (.limiter e)
  | advances {i : Nat} {spurious : Bool}
      (moved : s.window.step y.config (.advance i spurious) = some t.window)
      (unfed : WindowedLimit.fed (s.window.sees (.advance i spurious) t.window) = [])
      (limiter : t.limiter = s.limiter) (own : t.own = s.own) : Moves y s t (.window i spurious)
  | delegates {i : Nat} {spurious : Bool} {sample : Sample}
      (moved : s.window.step y.config (.advance i spurious) = some t.window)
      (feeds : WindowedLimit.fed (s.window.sees (.advance i spurious) t.window) = [sample])
      (published : s.limiter.step y.limiter
        (.setLimit (y.algorithm.update s.own s.limiter.limit sample).2) = some t.limiter)
      (own : t.own = (y.algorithm.update s.own s.limiter.limit sample).1) :
      Moves y s t (.window i spurious)

theorem step_moves (stepped : s.step y e = some t) : Moves y s t e := by
  cases e with
  | limiter e =>
    simp only [State.step, Option.bind_eq_bind, Option.bind_eq_some_iff] at stepped
    obtain ⟨u, moved, w, entered, rest⟩ := stepped
    cases rest
    obtain ⟨samples, limit⟩ := step_feeds moved
    cases sampled : e.sample? s.limiter with
    | none =>
      rw [sampled] at samples entered
      exact .quiet moved limit sampled (samples.trans (List.append_nil _))
        (Option.some.inj entered).symm rfl
    | some sample =>
      rw [sampled] at samples entered
      exact .enters moved limit sampled samples entered rfl
  | window i spurious =>
    simp only [State.step, Option.bind_eq_bind, Option.bind_eq_some_iff] at stepped
    obtain ⟨call, found, w, moved, next, found', ⟨u, own⟩, delegated, rest⟩ := stepped
    cases rest
    have seen : WindowedLimit.fed (s.window.sees (.advance i spurious) w) =
        (call.delivers? next.point).toList := by
      simp only [WindowedLimit.State.sees, found, found', WindowedLimit.fed]
      cases delivered : call.delivers? next.point <;>
        simp [WindowedLimit.Operation.delivers?, WindowedLimit.Call.operation, delivered]
    simp only [State.delegate] at delegated
    split at delegated
    · rename_i sample delivered
      simp only [Option.map_eq_some_iff, Prod.mk.injEq] at delegated
      obtain ⟨u, published, rfl, rfl⟩ := delegated
      rw [delivered] at seen
      exact .delegates moved seen published rfl
    · rename_i silent
      rw [silent] at seen
      split at delegated
      · contradiction
      · cases delegated
        exact .advances moved seen rfl rfl

/-- The limiter as a part of the chain. -/
def host (y : Chain Ctx σ π W τ) (initialLimit : Int) (own : τ) :
    Host Ctx σ π (State Ctx σ π W α β ρ τ) (Event Ctx) where
  limiter := y.limiter
  initialLimit := initialLimit
  start := .start y initialLimit own
  step := State.step y
  view := State.limiter
  starts := rfl
  follows := by
    intro s e t stepped
    cases step_moves stepped with
    | quiet moved => exact .single moved
    | enters moved => exact .single moved
    | advances _ _ same =>
      rw [same]
      exact .refl ..
    | delegates _ _ published => exact .single published

/-- No time that the windows compute overflows. -/
def Fits (y : Chain Ctx σ π W τ) (s : State Ctx σ π W α β ρ τ) : Event Ctx → Prop
  | .limiter e => ∀ sample ∈ e.sample? s.limiter,
    WindowedLimit.DeadlinesFit y.config s.window (.onSample sample)
  | .window i spurious => WindowedLimit.DeadlinesFit y.config s.window (.advance i spurious)

instance (y : Chain Ctx σ π W τ) (s : State Ctx σ π W α β ρ τ) : (e : Event Ctx) →
    Decidable (Fits y s e)
  | .limiter e => inferInstanceAs (Decidable (∀ sample ∈ e.sample? s.limiter, _))
  | .window i spurious =>
    inferInstanceAs (Decidable (WindowedLimit.DeadlinesFit y.config s.window (.advance i spurious)))

variable {initialLimit : Int} {own : τ} {es : List (Event Ctx)} {ws : List WindowedLimit.Event}

/-- The windows alone, with the events `ws`, get where they are as a part of the chain, and the
algorithm is where what they feed it leads. -/
structure Windowed (y : Chain Ctx σ π W τ) (initialLimit : Int) (own : τ)
    (ws : List WindowedLimit.Event) (s : State Ctx σ π W α β ρ τ) : Prop where
  ran : run (WindowedLimit.State.step y.config) (.start y.factory) ws = some s.window
  entered : ∀ (i : Nat) call, s.window.calls[i]? = some call → call.sample ∈ s.limiter.samples
  limit : s.limiter.limit = (replay y.algorithm initialLimit own
    (WindowedLimit.fed (WindowedLimit.State.operations y.config y.factory ws))).limit
  own : s.own = (replay y.algorithm initialLimit own
    (WindowedLimit.fed (WindowedLimit.State.operations y.config y.factory ws))).own

theorem start_windowed (y : Chain Ctx σ π W τ) (initialLimit : Int) (own : τ) :
    Windowed y initialLimit own [] (State.start y initialLimit own : State Ctx σ π W α β ρ τ) := by
  refine ⟨rfl, ?_, rfl, rfl⟩
  simp [State.start, WindowedLimit.State.start]

theorem Windowed.concat {w : WindowedLimit.Event} (windowed : Windowed y initialLimit own ws s)
    (moved : s.window.step y.config w = some t.window) :
    run (WindowedLimit.State.step y.config) (.start y.factory) (ws ++ [w]) = some t.window ∧
      WindowedLimit.fed (WindowedLimit.State.operations y.config y.factory (ws ++ [w])) =
        WindowedLimit.fed (WindowedLimit.State.operations y.config y.factory ws) ++
          WindowedLimit.fed (s.window.sees w t.window) := by
  refine ⟨run_append_eq_some.mpr ⟨_, windowed.ran, (run_single ..).trans moved⟩, ?_⟩
  rw [← WindowedLimit.fed_append, WindowedLimit.State.operations,
    observe_concat windowed.ran moved]
  rfl

/-- An operation leaves every call its sample. -/
theorem Windowed.advanced {i : Nat} {spurious : Bool} (windowed : Windowed y initialLimit own ws s)
    (moved : s.window.step y.config (.advance i spurious) = some t.window) (j : Nat)
    (call : WindowedLimit.Call α β ρ) (found : t.window.calls[j]? = some call) :
    call.sample ∈ s.limiter.samples := by
  rcases WindowedLimit.State.step_cases moved with
    ⟨_, none, _⟩ | ⟨k, _, other, shared, point, _, there, _, same, _⟩
  · contradiction
  · rw [same] at found
    rcases Pool.getElem?_modify_cases there found with ⟨rfl, rfl⟩ | ⟨_, earlier⟩
    · exact windowed.entered j other there
    · exact windowed.entered j call earlier

theorem Windowed.enters {sample : Sample} (windowed : Windowed y initialLimit own ws s)
    (entered : s.window.step y.config (.onSample sample) = some t.window)
    (samples : t.limiter.samples = s.limiter.samples ++ [sample])
    (limit : t.limiter.limit = s.limiter.limit) (sameOwn : t.own = s.own) :
    Windowed y initialLimit own (ws ++ [.onSample sample]) t := by
  obtain ⟨ran, fed⟩ := windowed.concat entered
  have unfed : WindowedLimit.fed (s.window.sees (.onSample sample) t.window) = [] := rfl
  rw [unfed, List.append_nil] at fed
  refine ⟨ran, fun i call found => ?_, ?_, ?_⟩
  · rw [samples]
    have calls : t.window.calls = s.window.calls ++ [y.config.enter sample] := by
      rw [← Option.some.inj entered]
      rfl
    rw [calls] at found
    rcases Pool.getElem?_concat_eq_some.mp found with earlier | ⟨_, rfl⟩
    · exact List.mem_append_left _ (windowed.entered i call earlier)
    · exact List.mem_append_right _ (List.mem_singleton.mpr rfl)
  · rw [fed, limit, windowed.limit]
  · rw [fed, sameOwn, windowed.own]

theorem Windowed.advances {i : Nat} {spurious : Bool} (windowed : Windowed y initialLimit own ws s)
    (moved : s.window.step y.config (.advance i spurious) = some t.window)
    (unfed : WindowedLimit.fed (s.window.sees (.advance i spurious) t.window) = [])
    (limiter : t.limiter = s.limiter) (sameOwn : t.own = s.own) :
    Windowed y initialLimit own (ws ++ [.advance i spurious]) t := by
  obtain ⟨ran, fed⟩ := windowed.concat moved
  rw [unfed, List.append_nil] at fed
  refine ⟨ran, ?_, by rw [fed, limiter, windowed.limit], by rw [fed, sameOwn, windowed.own]⟩
  rw [limiter]
  exact windowed.advanced moved

theorem Windowed.delegates {i : Nat} {spurious : Bool} {sample : Sample}
    (windowed : Windowed y initialLimit own ws s)
    (moved : s.window.step y.config (.advance i spurious) = some t.window)
    (feeds : WindowedLimit.fed (s.window.sees (.advance i spurious) t.window) = [sample])
    (published : s.limiter.step y.limiter
      (.setLimit (y.algorithm.update s.own s.limiter.limit sample).2) = some t.limiter)
    (updated : t.own = (y.algorithm.update s.own s.limiter.limit sample).1) :
    Windowed y initialLimit own (ws ++ [.advance i spurious]) t := by
  obtain ⟨ran, fed⟩ := windowed.concat moved
  obtain ⟨set, _, _, samples⟩ := setLimit_cases published
  rw [feeds] at fed
  refine ⟨ran, ?_, ?_, ?_⟩
  · rw [samples]
    exact windowed.advanced moved
  · rw [fed, replay_concat, set, windowed.limit, windowed.own]
    exact (AbstractLimit.setLimitLocked_limit _ _).symm
  · rw [fed, replay_concat, updated, windowed.limit, windowed.own]
    rfl

theorem run_windowed (ran : run (State.step y) (State.start y initialLimit own) es = some s) :
    ∃ ws, Windowed y initialLimit own ws s ∧
      (Along (State.step y) (Fits y) (State.start y initialLimit own) es →
        Along (WindowedLimit.State.step y.config) (WindowedLimit.DeadlinesFit y.config)
          (.start y.factory) ws) := by
  refine history (P := fun es s => ∃ ws, Windowed y initialLimit own ws s ∧
    (Along (State.step y) (Fits y) (State.start y initialLimit own) es →
      Along (WindowedLimit.State.step y.config) (WindowedLimit.DeadlinesFit y.config)
        (.start y.factory) ws)) ⟨[], start_windowed y initialLimit own, fun _ => trivial⟩ ?_ ran
  rintro es s e t reached ⟨ws, windowed, fit⟩ stepped
  have here (along : Along (State.step y) (Fits y) (State.start y initialLimit own) (es ++ [e])) :
      Fits y s e := (along.right reached).1
  cases step_moves stepped with
  | quiet moved limit silent samples window sameOwn =>
    refine ⟨ws, ⟨window ▸ windowed.ran, ?_, limit ▸ windowed.limit, sameOwn ▸ windowed.own⟩,
      fun along => fit along.left⟩
    rw [window, samples]
    exact windowed.entered
  | @enters e sample moved limit sampled samples entered sameOwn =>
    refine ⟨_, windowed.enters entered samples limit sameOwn, fun along => ?_⟩
    exact (fit along.left).append windowed.ran ⟨here along sample sampled, fun _ _ => trivial⟩
  | advances moved unfed limiter sameOwn =>
    refine ⟨_, windowed.advances moved unfed limiter sameOwn, fun along => ?_⟩
    exact (fit along.left).append windowed.ran ⟨here along, fun _ _ => trivial⟩
  | delegates moved feeds published updated =>
    refine ⟨_, windowed.delegates moved feeds published updated, fun along => ?_⟩
    exact (fit along.left).append windowed.ran ⟨here along, fun _ _ => trivial⟩
end Chain
end Limen.ClosedLoop
