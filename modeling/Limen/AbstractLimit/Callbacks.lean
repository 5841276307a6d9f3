import Limen.Gradient2Limit
import Limen.Pool
import Mathlib.Data.List.Destutter

/-! What the change callbacks of an `AbstractLimit` are called with: the caps published since
they were registered, one after another, without the repetitions. -/
namespace Limen.AbstractLimit

/-- Adding a value to a list adds it to the list without repetitions, unless it is the last
one there. -/
theorem destutter_concat {α : Type*} [DecidableEq α] {l : List α} {a last : α} (b : α)
    (ends : (l.destutter' (· ≠ ·) a).getLast? = some last) :
    (l ++ [b]).destutter' (· ≠ ·) a =
      l.destutter' (· ≠ ·) a ++ if b = last then [] else [b] := by
  induction l generalizing a with
  | nil =>
    obtain rfl : a = last := by simpa using ends
    by_cases same : b = a
    · simp [same]
    · simp [same, Ne.symm same]
  | cons x l ih =>
    by_cases repeated : a ≠ x
    · rw [List.destutter'_cons_pos _ repeated] at ends ⊢
      rw [List.cons_append, List.destutter'_cons_pos _ repeated, List.cons_append]
      rw [List.getLast?_cons_of_ne_nil (List.destutter'_ne_nil _ _)] at ends
      rw [ih ends]
    · rw [List.destutter'_cons_neg _ repeated] at ends ⊢
      rw [List.cons_append, List.destutter'_cons_neg _ repeated]
      exact ih ends

namespace Algorithm
variable {σ : Type} (a : Algorithm σ)

/-- The cap an operation publishes, be it a new one or not. -/
def publishes (s : State σ) : Event → Option Int
  | .onSample sample => some (a.update s.own s.limit sample).2
  | .setLimit newLimit => some newLimit
  | .notifyOnChange => none

def published (s : State σ) : List Event → List Int
  | [] => []
  | e :: events => (a.publishes s e).toList ++ published (a.step s e) events

theorem published_concat (s : State σ) (events : List Event) (e : Event) :
    a.published s (events ++ [e]) =
      a.published s events ++ (a.publishes (events.foldl a.step s) e).toList := by
  induction events generalizing s with
  | nil => simp [published]
  | cons d events ih => simp [published, ih]

/-- An operation publishes a cap or registers one more callback. -/
theorem step_cases (s : State σ) (e : Event) :
    (∃ value, a.publishes s e = some value ∧
        (a.step s e).toAbstractLimit = s.setLimitLocked value) ∨
      (e = .notifyOnChange ∧ a.publishes s e = none ∧
        (a.step s e).toAbstractLimit = s.toAbstractLimit.notifyOnChange) := by
  cases e with
  | onSample sample => exact .inl ⟨_, rfl, rfl⟩
  | setLimit newLimit => exact .inl ⟨_, rfl, rfl⟩
  | notifyOnChange => exact .inr ⟨rfl, rfl, rfl⟩
end Algorithm

theorem setLimitLocked_listener {l : AbstractLimit} {k : Nat} {received : List Int} (value : Int)
    (found : (l.setLimitLocked value).listeners[k]? = some received) :
    ∃ before, l.listeners[k]? = some before ∧
      received = before ++ if value = l.limit then [] else [value] := by
  rw [setLimitLocked] at found
  split at found
  · rename_i same
    exact ⟨received, found, by simp [same]⟩
  · rename_i different
    rw [List.getElem?_map, Option.map_eq_some_iff] at found
    obtain ⟨before, there, rfl⟩ := found
    exact ⟨before, there, by simp [different]⟩

@[simp] theorem setLimitLocked_length (l : AbstractLimit) (value : Int) :
    (l.setLimitLocked value).listeners.length = l.listeners.length := by
  rw [setLimitLocked]
  split <;> simp

/-- What a callback registered under the cap `registered` has received, once `published` has
been published and the cap is `current`. -/
structure Heard (registered : Int) (published received : List Int) (current : Int) : Prop where
  history : registered :: received = published.destutter' (· ≠ ·) registered
  current : (registered :: received).getLast? = some current

theorem heard_nothing (registered : Int) : Heard registered [] [] registered := ⟨rfl, rfl⟩

theorem Heard.publish {registered current : Int} {published received : List Int}
    (heard : Heard registered published received current) (value : Int) :
    Heard registered (published ++ [value]) (received ++ if value = current then [] else [value])
      value := by
  have ends : (published.destutter' (· ≠ ·) registered).getLast? = some current := by
    rw [← heard.history]
    exact heard.current
  constructor
  · rw [destutter_concat value ends, ← heard.history, List.cons_append]
  · by_cases same : value = current
    · simpa [same] using heard.current
    · rw [if_neg same, ← List.cons_append, List.getLast?_concat]

/-- Neighbours differ, and so do the first value received and the cap at registration. -/
theorem Heard.changes {registered current : Int} {published received : List Int}
    (heard : Heard registered published received current) :
    received.IsChain (· ≠ ·) ∧ ∀ first ∈ received.head?, first ≠ registered := by
  have chain : (registered :: received).IsChain (· ≠ ·) := by
    rw [heard.history]
    exact List.isChain_destutter' _ _ _
  rw [List.isChain_cons] at chain
  exact ⟨chain.2, fun first member => (chain.1 first member).symm⟩

theorem Heard.last {registered current last : Int} {published received : List Int}
    (heard : Heard registered published received current) (ends : received.getLast? = some last) :
    last = current := by
  have nonempty : received ≠ [] := by
    rintro rfl
    contradiction
  have whole := heard.current
  rw [List.getLast?_cons_of_ne_nil nonempty, ends] at whole
  exact Option.some.inj whole

namespace Algorithm
variable {σ : Type} (a : Algorithm σ) (initialLimit : Int) (own : σ)

/-- Listener `k` was registered after `before`, and has heard what `later` published. -/
def Listens (before later : List Event) (k : Nat) (received : List Int) : Prop :=
  (a.after initialLimit own before).listeners.length = k ∧
    Heard (a.after initialLimit own before).limit
      (a.published (a.after initialLimit own (before ++ [.notifyOnChange])) later) received
      (a.after initialLimit own (before ++ .notifyOnChange :: later)).limit

theorem after_later (before later : List Event) (e : Event) :
    a.after initialLimit own (before ++ .notifyOnChange :: (later ++ [e])) =
      a.step (a.after initialLimit own (before ++ .notifyOnChange :: later)) e := by
  rw [← after_concat]
  simp

theorem published_later (before later : List Event) (e : Event) :
    a.published (a.after initialLimit own (before ++ [.notifyOnChange])) (later ++ [e]) =
      a.published (a.after initialLimit own (before ++ [.notifyOnChange])) later ++
        (a.publishes (a.after initialLimit own (before ++ .notifyOnChange :: later)) e).toList := by
  rw [published_concat, after, after, ← List.foldl_append]
  simp

variable {a initialLimit own}

theorem Listens.publish {before later : List Event} {k : Nat} {received : List Int} {e : Event}
    {value : Int} (listens : a.Listens initialLimit own before later k received)
    (publishes : a.publishes (a.after initialLimit own (before ++ .notifyOnChange :: later)) e =
      some value)
    (stepped : (a.step (a.after initialLimit own (before ++ .notifyOnChange :: later)) e).limit =
      value) :
    a.Listens initialLimit own before (later ++ [e]) k (received ++
      if value = (a.after initialLimit own (before ++ .notifyOnChange :: later)).limit then []
      else [value]) := by
  obtain ⟨position, heard⟩ := listens
  refine ⟨position, ?_⟩
  rw [published_later, publishes, after_later, stepped]
  exact heard.publish value

theorem Listens.silent {before later : List Event} {k : Nat} {received : List Int}
    (listens : a.Listens initialLimit own before later k received) :
    a.Listens initialLimit own before (later ++ [.notifyOnChange]) k received := by
  obtain ⟨position, heard⟩ := listens
  refine ⟨position, ?_⟩
  rw [published_later, publishes, Option.toList_none, List.append_nil, after_later]
  exact heard

variable (a initialLimit own)

/-- Every callback on record was registered at some point and has listened since. -/
theorem after_listens (events : List Event) (k : Nat) (received : List Int)
    (found : (a.after initialLimit own events).listeners[k]? = some received) :
    ∃ before later, events = before ++ .notifyOnChange :: later ∧
      a.Listens initialLimit own before later k received := by
  induction events using List.reverseRecOn generalizing received with
  | nil => simp [after, start, construct] at found
  | append_singleton events e ih =>
    rw [after_concat] at found
    rcases a.step_cases (a.after initialLimit own events) e with
      ⟨value, publishes, stepped⟩ | ⟨rfl, _, stepped⟩
    · rw [stepped] at found
      obtain ⟨earlier, there, rfl⟩ := setLimitLocked_listener value found
      obtain ⟨before, later, rfl, listens⟩ := ih earlier there
      refine ⟨before, later ++ [e], by simp, listens.publish publishes ?_⟩
      rw [stepped, setLimitLocked_limit]
    · rw [stepped, notifyOnChange] at found
      rcases Pool.getElem?_concat_eq_some.mp found with old | ⟨rfl, rfl⟩
      · obtain ⟨before, later, rfl, listens⟩ := ih received old
        exact ⟨before, later ++ [.notifyOnChange], by simp, listens.silent⟩
      · refine ⟨events, [], rfl, rfl, ?_⟩
        rw [after_concat]
        exact heard_nothing _

/-- A callback that is registered stays on record. -/
theorem length_listeners (events : List Event) :
    (a.after initialLimit own events).listeners.length = events.count .notifyOnChange := by
  induction events using List.reverseRecOn with
  | nil => rfl
  | append_singleton events e ih =>
    rw [after_concat, List.count_append, ← ih]
    rcases a.step_cases (a.after initialLimit own events) e with
      ⟨value, publishes, stepped⟩ | ⟨rfl, _, stepped⟩
    · rw [stepped, setLimitLocked_length]
      cases e with
      | notifyOnChange => contradiction
      | onSample | setLimit => rfl
    · rw [stepped, notifyOnChange]
      simp

/-- Whatever the algorithm and the order of operations, the callbacks are as many as were
registered, in that order; and each has received the caps published since then without the
repetitions: neighbours differ, the first differs from the cap at registration, and the
last is the cap in force. -/
theorem callbacks_receive_history (events : List Event) :
    (∀ before later, events = before ++ .notifyOnChange :: later →
      ∃ received, (a.after initialLimit own events).listeners[
        (a.after initialLimit own before).listeners.length]? = some received) ∧
    ∀ (k : Nat) received, (a.after initialLimit own events).listeners[k]? = some received →
      ∃ before later, events = before ++ .notifyOnChange :: later ∧
        (a.after initialLimit own before).listeners.length = k ∧
        (a.after initialLimit own before).limit :: received =
          (a.published (a.after initialLimit own (before ++ [.notifyOnChange])) later).destutter'
            (· ≠ ·) (a.after initialLimit own before).limit ∧
        received.IsChain (· ≠ ·) ∧
        (∀ first ∈ received.head?, first ≠ (a.after initialLimit own before).limit) ∧
        ∀ last ∈ received.getLast?, last = (a.after initialLimit own events).limit := by
  constructor
  · rintro before later rfl
    have position : (a.after initialLimit own before).listeners.length <
        (a.after initialLimit own (before ++ .notifyOnChange :: later)).listeners.length := by
      rw [length_listeners, length_listeners, List.count_append, List.count_cons_self]
      omega
    exact ⟨_, List.getElem?_eq_getElem position⟩
  · intro k received found
    obtain ⟨before, later, rfl, position, heard⟩ := a.after_listens initialLimit own events k
      received found
    obtain ⟨chain, first⟩ := heard.changes
    exact ⟨before, later, rfl, position, heard.history, chain, first,
      fun last ends => heard.last ends⟩
end Algorithm

/-- `Gradient2Limit` as one of the algorithms; its `Update` does not read the current cap. -/
def gradient2Limit (b : Gradient2Limit.Builder) : Algorithm (ℚ × ExpAvgMeasurement) where
  update own limit sample :=
    let updated := Gradient2Limit.update b ⟨construct limit, own.1, own.2⟩ sample.rttNs
      sample.inflight
    ((updated.1.estimatedLimit, updated.1.longRtt), updated.2)

theorem gradient2Limit_onSample (b : Gradient2Limit.Builder) (g : Gradient2Limit) (sample : Sample) :
    (gradient2Limit b).onSample ⟨g.toAbstractLimit, g.estimatedLimit, g.longRtt⟩ sample =
      ⟨(g.onSample b sample).toAbstractLimit, (g.onSample b sample).estimatedLimit,
        (g.onSample b sample).longRtt⟩ := by
  simp only [Algorithm.onSample, gradient2Limit, Gradient2Limit.onSample, Gradient2Limit.update]
  split
  · rfl
  · split <;> rfl

/-- The states of a `Gradient2Limit` are those of its algorithm under samples alone. -/
theorem gradient2Limit_after (b : Gradient2Limit.Builder) (samples : List Sample) :
    (gradient2Limit b).after b.initialLimit (b.initialLimit, b.build.longRtt)
        (samples.map .onSample) =
      ⟨(b.after samples).toAbstractLimit, (b.after samples).estimatedLimit,
        (b.after samples).longRtt⟩ := by
  induction samples using List.reverseRecOn with
  | nil => rfl
  | append_singleton samples s ih =>
    rw [List.map_append, List.map_singleton, Algorithm.after_concat, ih,
      Gradient2Limit.Builder.after_concat]
    exact gradient2Limit_onSample b _ s
end Limen.AbstractLimit
