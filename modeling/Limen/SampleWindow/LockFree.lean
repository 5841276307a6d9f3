import Limen.Progress
import Limen.SampleWindow.Adders

/-! The loops of `AddSample` are lock-free: an exchange fails because another call's has
succeeded, and no call has more than two that do. Each call is weighed by the operations it may
still have to make, a stale value in hand by one more. -/
namespace Limen
open Transition

namespace Adding

/-- What a call of one among `n` on fields that stand at `x` may still need. -/
def need (n : Nat) (x : Extremes) (call : Adding) : Nat :=
  match call.point with
  | none => 0
  | some .drop => 1
  | some (.exchangeMax current) => n + 1 + if x.maxInflight = current then 0 else 1
  | some .loadMax => n + 2
  | some (.exchangeMin current) => 2 * n + 2 + if x.minRttNs = current then 0 else 1
  | some .loadMin => 2 * n + 3
  | some (.record _) => 2 * n + 4
  | some .count => 2 * n + 5

/-- A change of the fields makes a value stale at most. -/
theorem need_disturbed (n : Nat) (x y : Extremes) (call : Adding) :
    call.need n y ≤ call.need n x + 1 := by
  obtain ⟨s, _ | pc⟩ := call
  · exact Nat.zero_le _
  · cases pc <;> simp only [need] <;> grind

theorem need_tryMin {n : Nat} (x : Extremes) (s : Sample) (some_call : 1 ≤ n) :
    (⟨s, Extremes.tryMin s x.minRttNs⟩ : Adding).need n x ≤ 2 * n + 2 := by
  rw [Extremes.tryMin]
  split
  · simp [need]
  · simp only [need]
    omega

theorem need_tryMax (n : Nat) (x : Extremes) (s : Sample) :
    (⟨s, Extremes.tryMax s x.maxInflight⟩ : Adding).need n x ≤ n + 1 := by
  rw [Extremes.tryMax]
  split
  · simp [need]
  · split <;> simp [need]

/-- An operation that takes the fields from `x` to `y`: it disturbs the other calls by no more
than it uses up of what its own call needs, unless it has failed spuriously. -/
def Spends (n : Nat) (x y : Extremes) (spurious : Bool) (before after : Adding) : Prop :=
  ∃ d, (∀ call : Adding, call.need n y ≤ call.need n x + d) ∧
    after.need n y + 1 + d * (n - 1) ≤ before.need n x + spurious.toNat

theorem Spends.of_unchanged {n : Nat} {x : Extremes} {spurious : Bool} {before after : Adding}
    (own : after.need n x + 1 ≤ before.need n x + spurious.toNat) :
    Spends n x x spurious before after := by
  refine ⟨0, fun call => Nat.le_refl _, ?_⟩
  rw [Nat.zero_mul, Nat.add_zero]
  exact own
end Adding

namespace Extremes
open Adding

theorem addStep_spends {n : Nat} (x : Extremes) (s : Sample) (spurious : Bool) {pc : AddPoint}
    (late : pc.late = true) (some_call : 1 ≤ n) :
    Spends n x (x.addStep s spurious pc).1 spurious ⟨s, some pc⟩
      ⟨s, (x.addStep s spurious pc).2⟩ := by
  cases pc with
  | count => contradiction
  | record index => contradiction
  | loadMin =>
    have tried := need_tryMin x s some_call
    refine .of_unchanged ?_
    simp only [addStep, need] at tried ⊢
    omega
  | exchangeMin current =>
    simp only [addStep]
    split
    · rename_i failed
      have tried := need_tryMin x s some_call
      refine .of_unchanged ?_
      -- A failure that is not spurious has found the value in hand stale.
      rcases failed with rfl | stale
      · simp only [need, Bool.toNat_true] at tried ⊢
        omega
      · simp only [need, if_neg stale] at tried ⊢
        omega
    · refine ⟨1, need_disturbed n x _, ?_⟩
      simp only [need, Nat.one_mul]
      omega
  | loadMax =>
    have tried := need_tryMax n x s
    refine .of_unchanged ?_
    simp only [addStep, need] at tried ⊢
    omega
  | exchangeMax current =>
    simp only [addStep]
    split
    · rename_i failed
      have tried := need_tryMax n x s
      refine .of_unchanged ?_
      rcases failed with rfl | stale
      · simp only [need, Bool.toNat_true] at tried ⊢
        omega
      · simp only [need, if_neg stale] at tried ⊢
        omega
    · refine ⟨1, need_disturbed n x _, ?_⟩
      split <;> simp only [need, Nat.one_mul] <;> omega
  | drop =>
    refine ⟨0, fun call => ?_, ?_⟩
    · rfl
    · simp [addStep, need]
end Extremes

namespace Adders
open Adding
variable {W τ ρ : Type} [AtomicWindow W AddPoint τ ρ] {s t : Adders W}

/-- The operations of a window, seen on the fields that its loops work on. -/
def Spending (view : W → Extremes) : Prop :=
  ∀ {n : Nat} {w slot : W} {sample : Sample} {spurious : Bool} {pc : AddPoint}
    {next : Option AddPoint}, 1 ≤ n → AtomicWindow.addStep w sample spurious pc = (slot, next) →
    Spends n (view w) (view slot) spurious ⟨sample, some pc⟩ ⟨sample, next⟩

/-- What all calls together may still need. -/
def potential (view : W → Extremes) (s : Adders W) : Nat :=
  (s.calls.map (need s.calls.length (view s.window))).sum

theorem step_spends {view : W → Extremes} (spending : Spending view) {e : Event}
    (stepped : step s e = some t) :
    1 + potential view t ≤ potential view s + e.spurious.toNat := by
  obtain ⟨⟨sample, _⟩, pc, slot, next, present, rfl, added, rfl⟩ := step_cases stepped
  have some_call : 1 ≤ s.calls.length := by
    have inside := (List.getElem?_eq_some_iff.mp present).1
    omega
  obtain ⟨d, disturbed, own⟩ := spending some_call added
  dsimp only at own
  have total := Pool.sum_modify_le (f := Adding.moveTo next) (fun call _ => disturbed call) present
  have moved : Adding.moveTo next ⟨sample, some pc⟩ = ⟨sample, next⟩ := rfl
  rw [moved] at total
  simp only [potential, List.length_modify]
  omega

theorem potential_start (view : W → Extremes) (window : W) (samples : List Sample)
    (entry : AtomicWindow.addEntry W = AddPoint.count) :
    potential view (start window samples) = samples.length * (2 * samples.length + 5) := by
  simp only [potential, start, List.length_map, List.map_map, entry]
  have same : (samples.map (need samples.length (view window) ∘
      fun sample => (⟨sample, some .count⟩ : Adding))) =
      samples.map fun _ => 2 * samples.length + 5 := rfl
  rw [same, List.map_const', List.sum_replicate_nat]

/-- A call that has not returned can go on. -/
theorem exists_step (unfinished : ¬ s.Finished) :
    ∃ e t, step s e = some t ∧ e.spurious = false := by
  simp only [Finished, not_forall] at unfinished
  obtain ⟨call, member, running⟩ := unfinished
  obtain ⟨i, present⟩ := List.mem_iff_getElem?.mp member
  obtain ⟨pc, here⟩ := Option.ne_none_iff_exists'.mp running
  refine ⟨⟨i, false⟩, ?_⟩
  simp [step, present, here]

/-- However the operations of the calls interleave, they are bounded in number, and whatever
has been done can be brought to an end. -/
def LockFree (W : Type) {τ ρ : Type} [AtomicWindow W AddPoint τ ρ] : Prop :=
  ∀ (window : W) (samples : List Sample) (es : List Event) (s : Adders W),
    run step (start window samples) es = some s →
    es.length ≤ samples.length * (2 * samples.length + 5) + es.countP Event.spurious ∧
      ∃ more t, run step s more = some t ∧ t.Finished ∧ ∀ e ∈ more, e.spurious = false

theorem Spending.lockFree {view : W → Extremes} (spending : Spending view)
    (entry : AtomicWindow.addEntry W = AddPoint.count) : LockFree W := by
  intro window samples es s ran
  constructor
  · have spent : es.countP (fun _ => true) + potential view s ≤
        potential view (start window samples) +
          (0 * es.countP (fun _ => false) + 1 * es.countP Event.spurious) :=
      countP_le (potential view) (fun _ stepped => by simpa using step_spends spending stepped) ran
        (along_iff.mpr fun _ _ _ _ _ _ => trivial)
    rw [potential_start view window samples entry, List.countP_true] at spent
    omega
  · refine exists_completion (potential view) (fun {s} unfinished => ?_) s
    obtain ⟨e, t, stepped, steady⟩ := exists_step unfinished
    have spent := step_spends spending stepped
    rw [steady, Bool.toNat_false] at spent
    exact ⟨e, t, stepped, steady, by omega⟩
end Adders

theorem AverageSampleWindow.spending : Adders.Spending AverageSampleWindow.extremes := by
  intro n w slot sample spurious pc next some_call added
  cases late : pc.late with
  | true =>
    have spends := Extremes.addStep_spends w.extremes sample spurious late some_call
    change w.addStep sample spurious pc = _ at added
    rw [addStep_of_late w sample spurious late] at added
    cases added
    exact spends
  | false =>
    cases pc <;> first | contradiction | skip
    all_goals
      cases added
      refine .of_unchanged ?_
      simp only [Adding.need]
      omega

theorem PercentileSampleWindow.spending : Adders.Spending PercentileSampleWindow.extremes := by
  intro n w slot sample spurious pc next some_call added
  cases late : pc.late with
  | true =>
    have spends := Extremes.addStep_spends w.extremes sample spurious late some_call
    change w.addStep sample spurious pc = _ at added
    rw [addStep_of_late w sample spurious late] at added
    cases added
    exact spends
  | false =>
    cases pc <;> first | contradiction | skip
    all_goals
      cases added
      refine .of_unchanged ?_
      simp only [Adding.need]
      grind

theorem addSample_lockFree :
    Adders.LockFree AverageSampleWindow ∧ Adders.LockFree PercentileSampleWindow :=
  ⟨AverageSampleWindow.spending.lockFree rfl, PercentileSampleWindow.spending.lockFree rfl⟩

/-- Both calls have loaded the least RTT before either stores its own. -/
def contending : List Adders.Event :=
  [⟨0, false⟩, ⟨1, false⟩, ⟨0, false⟩, ⟨1, false⟩, ⟨0, false⟩, ⟨1, false⟩, ⟨0, false⟩, ⟨1, false⟩]

theorem contending_lockFree : ∃ s more t,
    run Adders.step (Adders.start ({} : AverageSampleWindow) [⟨0, 20, 1, false⟩, ⟨5, 30, 2, true⟩])
      contending = some s ∧
    run Adders.step s more = some t ∧ t.Finished ∧ contending.length ≤ 2 * (2 * 2 + 5) := by
  obtain ⟨s, ran⟩ : ∃ s, run Adders.step (Adders.start ({} : AverageSampleWindow)
      [⟨0, 20, 1, false⟩, ⟨5, 30, 2, true⟩]) contending = some s := ⟨_, rfl⟩
  obtain ⟨bounded, more, t, rest, finished, _⟩ := addSample_lockFree.1 _ _ _ _ ran
  exact ⟨s, more, t, ran, rest, finished, bounded⟩
end Limen
