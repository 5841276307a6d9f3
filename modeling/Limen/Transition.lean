import Mathlib.Data.List.Forall2
import Mathlib.Data.List.Induction

/-! Finite runs of a partial step function. An event that is not enabled has no
successor, so the events of a run determine every state it visits. -/
namespace Transition
variable {S E : Type*} {step : S → E → Option S}

def run (step : S → E → Option S) : S → List E → Option S
  | s, [] => some s
  | s, e :: es => (step s e).bind fun t => run step t es

theorem run_cons (s : S) (e : E) (es : List E) :
    run step s (e :: es) = (step s e).bind fun t => run step t es := rfl

theorem run_single (s : S) (e : E) : run step s [e] = step s e :=
  Option.bind_fun_some (step s e)

theorem run_cons_eq_some {s u : S} {e : E} {es : List E} :
    run step s (e :: es) = some u ↔ ∃ t, step s e = some t ∧ run step t es = some u := by
  rw [run_cons, Option.bind_eq_some_iff]

theorem run_append (s : S) (es fs : List E) :
    run step s (es ++ fs) = (run step s es).bind fun t => run step t fs := by
  induction es generalizing s with
  | nil => rfl
  | cons e es ih =>
    simp only [List.cons_append, run_cons, Option.bind_assoc]
    exact congrArg _ (funext fun t => ih t)

theorem run_append_eq_some {s u : S} {es fs : List E} :
    run step s (es ++ fs) = some u ↔ ∃ t, run step s es = some t ∧ run step t fs = some u := by
  rw [run_append, Option.bind_eq_some_iff]

theorem invariant {P : S → Prop} (preserves : ∀ {s e t}, P s → step s e = some t → P t)
    {s t : S} {es : List E} (ran : run step s es = some t) (initial : P s) : P t := by
  induction es generalizing s with
  | nil =>
    cases ran
    exact initial
  | cons e es ih =>
    obtain ⟨middle, first, rest⟩ := run_cons_eq_some.mp ran
    exact ih rest (preserves initial first)

/-- An invariant that may mention the whole history: the events so far and the
state they lead to from a fixed start. -/
theorem history {P : List E → S → Prop} {start : S} (initial : P [] start)
    (preserves : ∀ {es s e t}, run step start es = some s → P es s → step s e = some t →
      P (es ++ [e]) t)
    {es : List E} {t : S} (ran : run step start es = some t) : P es t := by
  induction es using List.reverseRecOn generalizing t with
  | nil =>
    cases ran
    exact initial
  | append_singleton es e ih =>
    obtain ⟨s, before, last⟩ := run_append_eq_some.mp ran
    obtain ⟨u, stepped, same⟩ := run_cons_eq_some.mp last
    cases same
    exact preserves before (ih before) stepped

/-- Every event of the run is taken in a state that admits it. -/
def Along (step : S → E → Option S) (admits : S → E → Prop) : S → List E → Prop
  | _, [] => True
  | s, e :: es => admits s e ∧ ∀ t, step s e = some t → Along step admits t es

theorem along_iff {admits : S → E → Prop} {s : S} {es : List E} :
    Along step admits s es ↔ ∀ before e after t, es = before ++ e :: after →
      run step s before = some t → admits t e := by
  induction es generalizing s with
  | nil => simp [Along]
  | cons d es ih =>
    constructor
    · rintro ⟨here, later⟩ before e after t split ran
      cases before with
      | nil =>
        cases split
        cases ran
        exact here
      | cons _ before =>
        cases split
        obtain ⟨middle, first, rest⟩ := run_cons_eq_some.mp ran
        exact ih.mp (later middle first) before e after t rfl rest
    · intro admitted
      refine ⟨admitted [] d es s rfl rfl, fun middle first => ih.mpr ?_⟩
      rintro before e after t rfl ran
      exact admitted (d :: before) e after t rfl (run_cons_eq_some.mpr ⟨middle, first, ran⟩)

theorem Along.left {admits : S → E → Prop} {s : S} {es fs : List E}
    (along : Along step admits s (es ++ fs)) : Along step admits s es := by
  rw [along_iff] at along ⊢
  rintro before e after t rfl ran
  exact along before e (after ++ fs) t (by simp) ran

theorem Along.right {admits : S → E → Prop} {s t : S} {es fs : List E}
    (along : Along step admits s (es ++ fs)) (ran : run step s es = some t) :
    Along step admits t fs := by
  rw [along_iff] at along ⊢
  rintro before e after u rfl rest
  exact along (es ++ before) e after u (by simp) (run_append_eq_some.mpr ⟨t, ran, rest⟩)

theorem Along.append {admits : S → E → Prop} {s t : S} {es fs : List E}
    (along : Along step admits s es) (ran : run step s es = some t)
    (later : Along step admits t fs) : Along step admits s (es ++ fs) := by
  induction es generalizing s with
  | nil =>
    cases ran
    exact later
  | cons e es ih =>
    obtain ⟨middle, first, rest⟩ := run_cons_eq_some.mp ran
    refine ⟨along.1, fun other stepped => ?_⟩
    obtain rfl : middle = other := Option.some.inj (first.symm.trans stepped)
    exact ih (along.2 middle first) rest

theorem Along.and {admits also : S → E → Prop} {s : S} {es : List E}
    (along : Along step admits s es) (other : Along step also s es) :
    Along step (fun s e => admits s e ∧ also s e) s es := by
  rw [along_iff] at along other ⊢
  exact fun before e after t split ran =>
    ⟨along before e after t split ran, other before e after t split ran⟩

instance decidableAlong {admits : S → E → Prop} [∀ s e, Decidable (admits s e)] :
    (s : S) → (es : List E) → Decidable (Along step admits s es)
  | _, [] => .isTrue trivial
  | s, e :: es =>
    match stepped : step s e with
    | none => decidable_of_iff (admits s e) (by simp [Along, stepped])
    | some t =>
      have : Decidable (Along step admits t es) := decidableAlong t es
      decidable_of_iff (admits s e ∧ Along step admits t es) (by simp [Along, stepped])

theorem invariant_along {P : S → Prop} {admits : S → E → Prop}
    (preserves : ∀ {s e t}, P s → admits s e → step s e = some t → P t)
    {s t : S} {es : List E} (ran : run step s es = some t) (along : Along step admits s es)
    (initial : P s) : P t := by
  induction es generalizing s with
  | nil =>
    cases ran
    exact initial
  | cons e es ih =>
    obtain ⟨middle, first, rest⟩ := run_cons_eq_some.mp ran
    exact ih rest (along.2 middle first) (preserves initial along.1 first)

/-- Two conditions on steps that agree wherever an invariant holds, which steps that meet
the second keep, agree along every run. -/
theorem along_congr {P : S → Prop} {admits also : S → E → Prop}
    (same : ∀ {s e}, P s → (admits s e ↔ also s e))
    (preserves : ∀ {s e t}, P s → also s e → step s e = some t → P t) {s : S} (initial : P s)
    (es : List E) : Along step admits s es ↔ Along step also s es := by
  induction es generalizing s with
  | nil => exact Iff.rfl
  | cons e es ih =>
    constructor
    · rintro ⟨here, later⟩
      have also := (same initial).mp here
      exact ⟨also, fun t stepped => (ih (preserves initial also stepped)).mp (later t stepped)⟩
    · rintro ⟨here, later⟩
      exact ⟨(same initial).mpr here,
        fun t stepped => (ih (preserves initial here stepped)).mpr (later t stepped)⟩

/-- What an observer who sees every transition writes down along a run. -/
def observe {O : Type*} (step : S → E → Option S) (sees : S → E → S → List O) :
    S → List E → List O
  | _, [] => []
  | s, e :: es =>
    match step s e with
    | none => []
    | some t => sees s e t ++ observe step sees t es

theorem observe_append {O : Type*} {sees : S → E → S → List O} {s t : S} {es : List E}
    (before : run step s es = some t) (fs : List E) :
    observe step sees s (es ++ fs) = observe step sees s es ++ observe step sees t fs := by
  induction es generalizing s with
  | nil =>
    cases before
    rfl
  | cons d es ih =>
    obtain ⟨middle, first, rest⟩ := run_cons_eq_some.mp before
    simp only [List.cons_append, observe, first, ih rest, List.append_assoc]

theorem observe_concat {O : Type*} {sees : S → E → S → List O} {s t u : S} {es : List E} {e : E}
    (before : run step s es = some t) (last : step t e = some u) :
    observe step sees s (es ++ [e]) = observe step sees s es ++ sees t e u := by
  rw [observe_append before]
  simp only [observe, last, List.append_nil]

/-- What holds of every entry and those before it, where a step makes it, holds of them all. -/
theorem observe_entries {O : Type*} {sees : S → E → S → List O} {P : List O → O → Prop} {start : S}
    (each : ∀ {es s e t first o rest}, run step start es = some s → step s e = some t →
      sees s e t = first ++ o :: rest → P (observe step sees start es ++ first) o)
    {es : List E} {t : S} (ran : run step start es = some t) {before after : List O} {o : O}
    (split : observe step sees start es = before ++ o :: after) : P before o := by
  refine history (P := fun es _ => ∀ before o after,
    observe step sees start es = before ++ o :: after → P before o) ?_ ?_ ran before o after split
  · intro before o after split
    simp [observe] at split
  · intro es s e t ran earlier stepped before o after split
    rw [observe_concat ran stepped] at split
    rcases List.append_eq_append_iff.mp split with ⟨first, rfl, rest⟩ | ⟨more, whole, rest⟩
    · exact each ran stepped rest
    · cases more with
      | nil =>
        rw [List.append_nil] at whole
        have first : sees s e t = [] ++ o :: after := rest.symm
        have here := each ran stepped first
        rwa [List.append_nil, whole] at here
      | cons entry more =>
        obtain ⟨rfl, rfl⟩ := List.cons_eq_cons.mp rest
        exact earlier before o more whole

/-- What a log with entries under keys has under one of them. -/
def about {K O : Type*} [DecidableEq K] (key : K) (log : List (K × O)) : List O :=
  (log.filter fun entry => entry.1 = key).map Prod.snd

section About
variable {K O : Type*} [DecidableEq K]

@[simp] theorem about_append (key : K) (log more : List (K × O)) :
    about key (log ++ more) = about key log ++ about key more := by simp [about]

theorem mem_about {key : K} {entry : O} {log : List (K × O)} :
    entry ∈ about key log ↔ (key, entry) ∈ log := by
  simp only [about, List.mem_map, List.mem_filter, decide_eq_true_eq]
  constructor
  · rintro ⟨⟨_, _⟩, ⟨member, rfl⟩, rfl⟩
    exact member
  · intro member
    exact ⟨_, ⟨member, rfl⟩, rfl⟩

theorem about_single (key other : K) (entry : O) :
    about key [(other, entry)] = if other = key then [entry] else [] := by
  by_cases here : other = key <;> simp [about, here]

theorem about_own (key : K) (seen : List O) :
    about key (seen.map fun entry => (key, entry)) = seen := by
  simp [about, List.filter_map, Function.comp_def]

theorem about_other {key other : K} (different : other ≠ key) (seen : List O) :
    about other (seen.map fun entry => (key, entry)) = [] := by
  simp [about, List.filter_map, Function.comp_def, Ne.symm different]
end About

/-- The steps from a point on, to the one that leads nowhere. -/
inductive Finishes {X P : Type*} (step : X → P → X × Option P) : X → P → X → Prop
  | last {x y : X} {p : P} (stepped : step x p = (y, none)) : Finishes step x p y
  | next {x y z : X} {p q : P} (stepped : step x p = (y, some q)) (rest : Finishes step y q z) :
      Finishes step x p z

/-- The same for steps that change nothing and end with a result. -/
inductive Returns {P R : Type*} (step : P → P ⊕ R) : P → R → Prop
  | last {p : P} {r : R} (stepped : step p = .inr r) : Returns step p r
  | next {p q : P} {r : R} (stepped : step p = .inl q) (rest : Returns step q r) : Returns step p r

/-- Steps on a part of a larger state. -/
theorem Finishes.lift {X Y P : Type*} {step : X → P → X × Option P} {larger : Y → P → Y × Option P}
    (put : X → Y) (within : P → Prop) {x y : X} {p : P} (finishes : Finishes step x p y)
    (closed : ∀ {x p q}, (step x p).2 = some q → within q)
    (same : ∀ x p, within p → larger (put x) p = (put (step x p).1, (step x p).2))
    (start : within p) : Finishes larger (put x) p (put y) := by
  induction finishes with
  | last stepped =>
    refine .last ?_
    rw [same _ _ start, stepped]
  | next stepped rest ih =>
    have onward := closed (congrArg Prod.snd stepped)
    refine .next ?_ (ih onward)
    rw [same _ _ start, stepped]

/-- The run passes through `s`. -/
def Visits (step : S → E → Option S) (start : S) (es : List E) (s : S) : Prop :=
  ∃ before after, es = before ++ after ∧ run step start before = some s

theorem visits_last {start s : S} {es : List E} (ran : run step start es = some s) :
    Visits step start es s := ⟨es, [], (List.append_nil es).symm, ran⟩

theorem Visits.append {start s : S} {es : List E} (visits : Visits step start es s)
    (more : List E) : Visits step start (es ++ more) s := by
  obtain ⟨before, after, rfl, ran⟩ := visits
  exact ⟨before, after ++ more, List.append_assoc .., ran⟩

theorem visits_nil {start w : S} (visits : Visits step start [] w) : w = start := by
  obtain ⟨before, after, split, reached⟩ := visits
  obtain ⟨rfl, rfl⟩ := List.append_eq_nil_iff.mp split.symm
  exact (Option.some.inj reached).symm

theorem visits_cons {start w : S} {e : E} {es : List E} (visits : Visits step start (e :: es) w) :
    w = start ∨ ∃ u, step start e = some u ∧ Visits step u es w := by
  obtain ⟨before, after, split, reached⟩ := visits
  cases before with
  | nil => exact .inl (Option.some.inj reached).symm
  | cons d before =>
    obtain ⟨rfl, rest⟩ := List.cons.inj split
    obtain ⟨u, first, reached⟩ := run_cons_eq_some.mp reached
    exact .inr ⟨u, first, before, after, rest, reached⟩

theorem visits_append {start w : S} {es fs : List E} (visits : Visits step start (es ++ fs) w) :
    Visits step start es w ∨ ∃ u, run step start es = some u ∧ Visits step u fs w := by
  obtain ⟨before, after, split, reached⟩ := visits
  rcases List.append_eq_append_iff.mp split with ⟨more, rfl, rest⟩ | ⟨more, rfl, rest⟩
  · obtain ⟨u, first, second⟩ := run_append_eq_some.mp reached
    exact .inr ⟨u, first, more, after, rest, second⟩
  · exact .inl ⟨before, more, rfl, reached⟩

/-- What holds wherever an event is taken and at the end holds all along the run. -/
theorem forall_visits {P : S → Prop} {start s t : S} {es : List E}
    (along : Along step (fun s _ => P s) start es) (ran : run step start es = some t) (last : P t)
    (visits : Visits step start es s) : P s := by
  obtain ⟨before, after, rfl, reached⟩ := visits
  cases after with
  | nil =>
    rw [List.append_nil, reached, Option.some.injEq] at ran
    exact ran ▸ last
  | cons e after => exact along_iff.mp along before e after s rfl reached

/-! ### Readings -/

/-- One value after another, each read some steps after the one before. -/
def readings {V : Type*} (step : S → E → Option S) :
    List (S → V) → (Nat → List E) → S → Option (S × List V)
  | [], _, s => some (s, [])
  | read :: rest, meanwhile, s =>
    (run step s (meanwhile 0)).bind fun t =>
      (readings step rest (fun k => meanwhile (k + 1)) t).map fun later =>
        (later.1, read t :: later.2)

section Readings
variable {V : Type*} {read : S → V} {reads : List (S → V)} {values : List V}
  {meanwhile : Nat → List E} {s t : S}

theorem readings_cons_eq_some :
    readings step (read :: reads) meanwhile s = some (t, values) ↔
      ∃ u later, run step s (meanwhile 0) = some u ∧
        readings step reads (fun k => meanwhile (k + 1)) u = some (t, later) ∧
        values = read u :: later := by
  rw [readings, Option.bind_eq_some_iff]
  simp only [Option.map_eq_some_iff, Prod.exists, Prod.mk.injEq]
  constructor
  · rintro ⟨u, ran, t', later, rest, rfl, rfl⟩
    exact ⟨u, later, ran, rest, rfl⟩
  · rintro ⟨u, later, ran, rest, rfl⟩
    exact ⟨u, ran, t, later, rest, rfl, rfl⟩

theorem readings_run (observed : readings step reads meanwhile s = some (t, values)) :
    ∃ es, run step s es = some t := by
  induction reads generalizing meanwhile s values with
  | nil =>
    cases observed
    exact ⟨[], rfl⟩
  | cons read reads ih =>
    obtain ⟨u, later, ran, rest, _⟩ := readings_cons_eq_some.mp observed
    obtain ⟨es, onward⟩ := ih rest
    exact ⟨meanwhile 0 ++ es, run_append_eq_some.mpr ⟨u, ran, onward⟩⟩

/-- Each value is that of a state on the way. -/
theorem readings_between (observed : readings step reads meanwhile s = some (t, values)) :
    List.Forall₂ (fun read value => ∃ before after u, run step s before = some u ∧
      run step u after = some t ∧ read u = value) reads values := by
  induction reads generalizing meanwhile s values with
  | nil =>
    cases observed
    exact .nil
  | cons read reads ih =>
    obtain ⟨u, later, ran, rest, rfl⟩ := readings_cons_eq_some.mp observed
    obtain ⟨onward, last⟩ := readings_run rest
    refine .cons ⟨meanwhile 0, onward, u, ran, last, rfl⟩ ((ih rest).imp ?_)
    rintro read value ⟨before, after, v, first, second, same⟩
    exact ⟨meanwhile 0 ++ before, after, v, run_append_eq_some.mpr ⟨u, ran, first⟩, second, same⟩

/-- While nothing happens, the readings are those of one state. -/
theorem readings_undisturbed (reads : List (S → V)) (s : S) :
    readings step reads (fun _ => []) s = some (s, reads.map (· s)) := by
  induction reads with
  | nil => rfl
  | cons read reads ih => exact readings_cons_eq_some.mpr ⟨s, _, rfl, ih, rfl⟩
end Readings
end Transition
