import Limen.WindowedLimit.Steps
import Mathlib.Algebra.Order.BigOperators.Group.List

/-! The average of a window under concurrency. A sample raises the count and the sum of its
slot by two operations, and a boundary reads and clears the two by two operations as well.
A sample that falls between is seen, or cleared, by half. -/
namespace Limen.WindowedLimit
open Transition State

/-- The smallest and the largest of some numbers lie around their mean. -/
theorem mean_between {l : List Int} (nonempty : l ≠ []) (nonneg : ∀ x ∈ l, 0 ≤ x) :
    (∃ low ∈ l, low ≤ l.sum.tdiv l.length) ∧ ∃ high ∈ l, l.sum.tdiv l.length ≤ high := by
  have positive : 0 < (l.length : Int) := by
    exact_mod_cast List.length_pos_iff.mpr nonempty
  rw [Int.tdiv_eq_ediv_of_nonneg (List.sum_nonneg nonneg)]
  have below : l.length * (l.sum / l.length) ≤ l.sum := Int.mul_ediv_self_le (Int.ne_of_gt positive)
  have above : l.sum < l.length * (l.sum / l.length + 1) := by
    rw [Int.mul_add, Int.mul_one]
    exact Int.lt_mul_ediv_self_add positive
  constructor
  · by_contra none
    push Not at none
    have all := List.card_nsmul_le_sum l (l.sum / l.length + 1) fun x member => none x member
    rw [nsmul_eq_mul] at all
    exact absurd all (Int.not_le.mpr above)
  · by_contra none
    push Not at none
    have all := List.sum_le_card_nsmul l (l.sum / l.length - 1) fun x member =>
      Int.le_sub_one_of_lt (none x member)
    rw [nsmul_eq_mul, Int.mul_sub, Int.mul_one] at all
    omega

/-- The updates that have reached the slots, with the RTTs of the samples. -/
structure Updates where
  counted : Fin 2 → List (Nat × Int) := fun _ => []
  summed : Fin 2 → List (Nat × Int) := fun _ => []
  /-- What had been counted when a boundary last loaded or stored the count. -/
  seen : Fin 2 → List (Nat × Int) := fun _ => []
  /-- What had been counted when a boundary last stored the count. -/
  cleared : Fin 2 → List (Nat × Int) := fun _ => []

def Updates.enter (b : Updates) (op : Operation AddPoint TrackPoint ResetPoint) : Updates :=
  match op.before with
  | .addSample idx .count =>
    { b with
      counted := Function.update b.counted idx (b.counted idx ++ [(op.call, op.sample.rttNs)]) }
  | .addSample idx (.record _) =>
    { b with summed := Function.update b.summed idx (b.summed idx ++ [(op.call, op.sample.rttNs)]) }
  | .boundary old _ (.trackedRtt .loadCount) =>
    { b with seen := Function.update b.seen old (b.counted old) }
  | .boundary old _ (.reset .count) =>
    { b with
      seen := Function.update b.seen old (b.counted old)
      cleared := Function.update b.cleared old (b.counted old) }
  | _ => b

def updates (log : List (Operation AddPoint TrackPoint ResetPoint)) : Updates :=
  log.foldl Updates.enter {}

/-- What has to hold for the next operation of a call not to tear a sample. A boundary that
accesses the sum must find there the samples that it has found in the count, and a slot that
it has found empty must still be empty when it loads `SampleCount`. -/
def Point.Untorn (b : Updates) (w : Shared AverageSampleWindow) (s : Sample) :
    Point AddPoint TrackPoint ResetPoint → Prop
  | .addSample idx .count => InRange 32 ((w.slots idx).sampleCount + 1)
  | .addSample idx (.record _) => InRange 64 ((w.slots idx).sumRttNs + s.rttNs)
  | .boundary old _ (.trackedRtt (.loadSum _)) | .boundary old _ (.reset .sum) =>
    (b.seen old).Perm (b.summed old)
  | .boundary old _ .loadSampleCount => b.seen old = b.cleared old → b.counted old = b.seen old
  | _ => True

def Untorn (log : List (Operation AddPoint TrackPoint ResetPoint))
    (s : State AverageSampleWindow AddPoint TrackPoint ResetPoint) : Event → Prop
  | .onSample _ => True
  | .advance i _ => ∀ call ∈ s.calls[i]?, call.point.Untorn (updates log) s.toShared call.sample

/-- The RTT of an accepted sample whose `AddSample` has started. -/
def Started {W : Type} (c : Config) (s : State W AddPoint TrackPoint ResetPoint)
    (rttNs : Int) : Prop :=
  ∃ call ∈ s.calls, c.minRttThresholdNs ≤ call.sample.rttNs ∧ call.point ≠ .loadActive ∧
    call.sample.rttNs = rttNs

def Between {W : Type} (c : Config) (s : State W AddPoint TrackPoint ResetPoint)
    (rttNs : Int) : Prop :=
  (∃ low, Started c s low ∧ low ≤ rttNs) ∧ ∃ high, Started c s high ∧ rttNs ≤ high

/-- If the event calls the delegate, then with an RTT between those of the samples so far. -/
def TrackedWithin {W : Type} (c : Config) (s : State W AddPoint TrackPoint ResetPoint) : Event → Prop
  | .onSample _ => True
  | .advance i _ => ∀ call ∈ s.calls[i]?, ∀ old read,
    call.point = .boundary old read .callDelegate → windowReady c read = true →
      Between c s read.trackedRtt

/-- What the boundary work has read so far, against the updates. -/
def Point.Faithful (b : Updates) (within : Int → Prop) : Point AddPoint TrackPoint ResetPoint → Prop
  | .boundary old _ (.trackedRtt (.loadSum count)) =>
    count = (b.seen old).length - (b.cleared old).length ∧ count ≠ 0 ∧
      b.cleared old <+: b.seen old ∧ b.seen old <+: b.counted old
  | .boundary _ _ (.trackedRtt (.loadEntry _ _)) => False
  | .boundary old read .loadMaxInflight | .boundary old read .loadSampleCount =>
    b.seen old = b.cleared old ∨ within read.trackedRtt
  | .boundary _ read .loadDidDrop | .boundary _ read .storeActive | .boundary _ read .storeDue
  | .boundary _ read .callDelegate => read.sampleCount = 0 ∨ within read.trackedRtt
  | .boundary old _ (.reset .sum) => b.seen old = b.cleared old
  | _ => True

def total (samples : List (Nat × Int)) : Int := (samples.map Prod.snd).sum

section Step
variable {c : Config} {w w' : Shared AverageSampleWindow} {s : Sample}
  {point point' : Point AddPoint TrackPoint ResetPoint}

def Shared.sampleCounts (w : Shared AverageSampleWindow) (k : Fin 2) : Int := (w.slots k).sampleCount

def Shared.sums (w : Shared AverageSampleWindow) (k : Fin 2) : Int := (w.slots k).sumRttNs

/-- What an operation does to the counts and the sums. -/
inductive Sums (w w' : Shared AverageSampleWindow) (s : Sample) :
    Point AddPoint TrackPoint ResetPoint → Point AddPoint TrackPoint ResetPoint → Prop
  | counted {idx : Fin 2} {index : Int}
      (counts : w'.sampleCounts =
        Function.update w.sampleCounts idx (wrap 32 (w.sampleCounts idx + 1)))
      (sums : w'.sums = w.sums) :
      Sums w w' s (.addSample idx .count) (.addSample idx (.record index))
  | summed {idx : Fin 2} {index : Int} (counts : w'.sampleCounts = w.sampleCounts)
      (sums : w'.sums = Function.update w.sums idx (wrap 64 (w.sums idx + s.rttNs))) :
      Sums w w' s (.addSample idx (.record index)) (.addSample idx .loadMin)
  | empty {old : Fin 2} {seen seen' : Aggregate} (counts : w'.sampleCounts = w.sampleCounts)
      (sums : w'.sums = w.sums) (zero : w.sampleCounts old = 0) :
      Sums w w' s (.boundary old seen (.trackedRtt .loadCount)) (.boundary old seen' .loadMaxInflight)
  | loaded {old : Fin 2} {seen : Aggregate} {count : Int}
      (counts : w'.sampleCounts = w.sampleCounts) (sums : w'.sums = w.sums)
      (found : count = w.sampleCounts old) (nonzero : count ≠ 0) :
      Sums w w' s (.boundary old seen (.trackedRtt .loadCount))
        (.boundary old seen (.trackedRtt (.loadSum count)))
  | averaged {old : Fin 2} {seen seen' : Aggregate} {count : Int}
      (counts : w'.sampleCounts = w.sampleCounts) (sums : w'.sums = w.sums)
      (mean : seen'.trackedRtt = (w.sums old).tdiv count) :
      Sums w w' s (.boundary old seen (.trackedRtt (.loadSum count)))
        (.boundary old seen' .loadMaxInflight)
  | sampled {old : Fin 2} {seen seen' : Aggregate} (counts : w'.sampleCounts = w.sampleCounts)
      (sums : w'.sums = w.sums) (tracked : seen'.trackedRtt = seen.trackedRtt)
      (value : seen'.sampleCount = w.sampleCounts old) :
      Sums w w' s (.boundary old seen .loadSampleCount) (.boundary old seen' .loadDidDrop)
  | clearedCount {old : Fin 2} {seen : Aggregate}
      (counts : w'.sampleCounts = Function.update w.sampleCounts old 0) (sums : w'.sums = w.sums) :
      Sums w w' s (.boundary old seen (.reset .count)) (.boundary old seen (.reset .sum))
  | clearedSum {old : Fin 2} {seen : Aggregate} (counts : w'.sampleCounts = w.sampleCounts)
      (sums : w'.sums = Function.update w.sums old 0) :
      Sums w w' s (.boundary old seen (.reset .sum)) (.boundary old seen (.reset .min))
  | other {here next : Point AddPoint TrackPoint ResetPoint}
      (counts : w'.sampleCounts = w.sampleCounts) (sums : w'.sums = w.sums)
      (silent : ∀ (b : Updates) call sample due, b.enter ⟨call, sample, here, next, due⟩ = b)
      (elsewhere : ∀ old read, here ≠ .boundary old read (.reset .sum))
      (faithful : ∀ b within, here.Faithful b within → next.Faithful b within) : Sums w w' s here next

theorem update_counts (w : Shared AverageSampleWindow) (k : Fin 2) (slot : AverageSampleWindow) :
    Shared.sampleCounts { w with slots := Function.update w.slots k slot } =
      Function.update w.sampleCounts k slot.sampleCount :=
  Function.comp_update AverageSampleWindow.sampleCount w.slots k slot

theorem update_sums (w : Shared AverageSampleWindow) (k : Fin 2) (slot : AverageSampleWindow) :
    Shared.sums { w with slots := Function.update w.slots k slot } =
      Function.update w.sums k slot.sumRttNs :=
  Function.comp_update AverageSampleWindow.sumRttNs w.slots k slot

/-- A change of the other fields of a slot. -/
theorem Sums.aside {k : Fin 2} {slot : AverageSampleWindow}
    (counts : slot.sampleCount = w.sampleCounts k) (sums : slot.sumRttNs = w.sums k)
    (silent : ∀ (b : Updates) call sample due, b.enter ⟨call, sample, point, point', due⟩ = b)
    (elsewhere : ∀ old read, point ≠ .boundary old read (.reset .sum))
    (faithful : ∀ b within, point.Faithful b within → point'.Faithful b within) :
    Sums w { w with slots := Function.update w.slots k slot } s point point' := by
  refine .other ?_ ?_ silent elsewhere faithful
  · rw [update_counts, counts, Function.update_eq_self]
  · rw [update_sums, sums, Function.update_eq_self]

theorem Moves.sums (moved : Moves c w s point w' point') (b : Updates) (within : Int → Prop)
    (faithful : point.Faithful b within) : Sums w w' s point point' := by
  cases moved with
  | adding spurious added =>
    rename_i idx pc pc' slot
    rcases AverageSampleWindow.addStep_cases added with ⟨rfl, rfl, next⟩ | ⟨index, rfl, rfl, next⟩ |
      ⟨late, ⟨x, rfl⟩, _⟩
    · cases next
      refine .counted (update_counts ..) ?_
      rw [update_sums]
      exact Function.update_eq_self ..
    · cases next
      refine .summed ?_ (update_sums ..)
      rw [update_counts]
      exact Function.update_eq_self ..
    · refine .aside rfl rfl ?_ (by simp) (by simp [Point.Faithful])
      intro b call sample due
      cases pc <;> first | rfl | contradiction
  | added spurious added =>
    rename_i idx pc slot
    rcases AverageSampleWindow.addStep_cases added with ⟨_, _, next⟩ | ⟨index, _, _, next⟩ |
      ⟨late, ⟨x, rfl⟩, _⟩
    · contradiction
    · contradiction
    · refine .aside rfl rfl ?_ (by simp) (by simp [Point.Faithful])
      intro b call sample due
      cases pc <;> first | rfl | contradiction
  | tracking tracked =>
    rename_i old read pc pc'
    cases pc with
    | loadCount =>
      have step : AverageSampleWindow.trackStep (w.slots old) .loadCount = .inl pc' := tracked
      rw [AverageSampleWindow.trackStep] at step
      split at step
      · contradiction
      · cases step
        exact .loaded rfl rfl rfl (by assumption)
    | _ => contradiction
  | tracked tracked =>
    rename_i old read pc rtt
    cases pc with
    | loadCount =>
      have step : AverageSampleWindow.trackStep (w.slots old) .loadCount = .inr rtt := tracked
      rw [AverageSampleWindow.trackStep] at step
      split at step
      · cases step
        exact .empty rfl rfl (by assumption)
      · contradiction
    | loadSum count =>
      cases tracked
      exact .averaged rfl rfl rfl
    | loadEntry usable buffer => exact faithful.elim
  | resetting stored =>
    rename_i old read pc pc' slot
    cases pc with
    | count =>
      cases stored
      refine .clearedCount (update_counts ..) ?_
      rw [update_sums]
      exact Function.update_eq_self ..
    | sum =>
      cases stored
      refine .clearedSum ?_ (update_sums ..)
      rw [update_counts]
      exact Function.update_eq_self ..
    | min =>
      cases stored
      exact .aside rfl rfl (fun _ _ _ _ => rfl) (by simp) (by simp [Point.Faithful])
    | max =>
      cases stored
      exact .aside rfl rfl (fun _ _ _ _ => rfl) (by simp) (by simp [Point.Faithful])
    | drop => cases stored
  | reset stored =>
    rename_i old read pc slot
    cases pc <;> cases stored
    exact .aside rfl rfl (fun _ _ _ _ => rfl) (by simp) (by simp [Point.Faithful])
  | loadSampleCount => exact .sampled rfl rfl rfl rfl
  | _ => exact .other rfl rfl (fun _ _ _ _ => rfl) (by simp) (by simp [Point.Faithful])
end Step

theorem Point.faithful_of_unlocked {b : Updates} {within : Int → Prop}
    {point : Point AddPoint TrackPoint ResetPoint} (unlocked : point.locked = false) :
    point.Faithful b within := by
  cases point <;> trivial

theorem Point.Faithful.mono {b b' : Updates} {within within' : Int → Prop}
    {point : Point AddPoint TrackPoint ResetPoint} (faithful : point.Faithful b within)
    (seen : b'.seen = b.seen) (cleared : b'.cleared = b.cleared)
    (counted : ∀ k, b.counted k <+: b'.counted k) (wider : ∀ rtt, within rtt → within' rtt) :
    point.Faithful b' within' := by
  cases point with
  | boundary old read stage =>
    cases stage with
    | trackedRtt pc =>
      cases pc with
      | loadSum count =>
        obtain ⟨length, nonzero, first, second⟩ := faithful
        simp only [Faithful, seen, cleared]
        exact ⟨length, nonzero, first, second.trans (counted old)⟩
      | loadCount => trivial
      | loadEntry usable buffer => exact faithful
    | loadMaxInflight =>
      simp only [Faithful, seen, cleared]
      exact faithful.imp_right (wider _)
    | loadSampleCount =>
      simp only [Faithful, seen, cleared]
      exact faithful.imp_right (wider _)
    | reset pc =>
      cases pc with
      | sum =>
        simp only [Faithful, seen, cleared]
        exact faithful
      | _ => trivial
    | loadDidDrop => exact Or.imp_right (wider _) faithful
    | storeActive => exact Or.imp_right (wider _) faithful
    | storeDue => exact Or.imp_right (wider _) faithful
    | callDelegate => exact Or.imp_right (wider _) faithful
    | _ => trivial
  | _ => trivial

/-- The counts and the sums are those of whole samples, except for the sum of a slot whose
count is cleared already, and every boundary has read what it should. -/
structure Whole (c : Config) (b : Updates)
    (s : State AverageSampleWindow AddPoint TrackPoint ResetPoint) : Prop where
  counts : ∀ k, s.sampleCounts k = (b.counted k).length - (b.cleared k).length
  extends_cleared : ∀ k, b.cleared k <+: b.counted k
  sums : ∀ k, s.sums k = total (b.summed k) - total (b.cleared k) ∨
    ∃ (i : Nat) (call : Call AddPoint TrackPoint ResetPoint) (read : Aggregate),
      s.calls[i]? = some call ∧ call.point = .boundary k read (.reset .sum)
  members : ∀ k, ∀ sample ∈ b.counted k, Started c s sample.2
  faithful : ∀ (i : Nat) call, s.calls[i]? = some call → call.point.Faithful b (Between c s)

section Run
variable {c : Config} {s : State AverageSampleWindow AddPoint TrackPoint ResetPoint} {b : Updates}
  {es : List Event} {i : Nat} {call : Call AddPoint TrackPoint ResetPoint}
  {shared : Shared AverageSampleWindow} {point : Point AddPoint TrackPoint ResetPoint}

theorem Started.moves {rtt : Int} (started : Started c s rtt) (found : s.calls[i]? = some call)
    (active : point ≠ .loadActive) :
    Started c { shared with calls := s.calls.modify i (.moveTo point) } rtt := by
  obtain ⟨call', member, holds⟩ := started
  obtain ⟨j, found'⟩ := List.mem_iff_getElem?.mp member
  obtain ⟨call'', moved, still⟩ := Pool.modify_keeps (f := Call.moveTo point)
    (P := fun call : Call AddPoint TrackPoint ResetPoint => c.minRttThresholdNs ≤ call.sample.rttNs ∧
      call.point ≠ .loadActive ∧ call.sample.rttNs = rtt)
    found found' holds fun before => ⟨before.1, active, before.2.2⟩
  exact ⟨call'', List.mem_of_getElem? moved, still⟩

theorem Between.moves {rtt : Int} (between : Between c s rtt) (found : s.calls[i]? = some call)
    (active : point ≠ .loadActive) :
    Between c { shared with calls := s.calls.modify i (.moveTo point) } rtt := by
  obtain ⟨⟨low, started, below⟩, high, started', above⟩ := between
  exact ⟨⟨low, started.moves found active, below⟩, high, started'.moves found active, above⟩

theorem Started.enters {rtt : Int} (started : Started c s rtt) (sample : Sample) :
    Started c { s with calls := s.calls ++ [c.enter sample] } rtt := by
  obtain ⟨call, member, rest⟩ := started
  exact ⟨call, List.mem_append_left _ member, rest⟩

theorem Whole.enters (whole : Whole c b s) (sample : Sample) :
    Whole c b { s with calls := s.calls ++ [c.enter sample] } where
  counts := whole.counts
  extends_cleared := whole.extends_cleared
  sums := by
    intro k
    rcases whole.sums k with exact | ⟨i, call, read, found, here⟩
    · exact .inl exact
    · exact .inr ⟨i, call, read, Pool.getElem?_concat_eq_some.mpr (.inl found), here⟩
  members k sample' member := (whole.members k sample' member).enters sample
  faithful := by
    intro i call found
    rcases Pool.getElem?_concat_eq_some.mp found with before | ⟨_, rfl⟩
    · refine (whole.faithful i call before).mono rfl rfl (fun _ => List.prefix_rfl) ?_
      rintro rtt ⟨⟨low, started, below⟩, high, started', above⟩
      exact ⟨⟨low, started.enters sample, below⟩, high, started'.enters sample, above⟩
    · refine Point.faithful_of_unlocked ?_
      rw [← Bool.not_eq_true, Point.locked_iff]
      have entry := enter_rank (α := AddPoint) (τ := TrackPoint) (ρ := ResetPoint) c sample
      omega

/-- A slot that is being cleared still is, unless its own boundary moves on. -/
theorem clearing_moves {k : Fin 2} (found : s.calls[i]? = some call)
    (elsewhere : ∀ read, call.point ≠ .boundary k read (.reset .sum))
    (clearing : ∃ (j : Nat) (call' : Call AddPoint TrackPoint ResetPoint) (read : Aggregate),
      s.calls[j]? = some call' ∧ call'.point = .boundary k read (.reset .sum)) :
    ∃ (j : Nat) (call' : Call AddPoint TrackPoint ResetPoint) (read : Aggregate),
      (s.calls.modify i (.moveTo point))[j]? = some call' ∧
        call'.point = .boundary k read (.reset .sum) := by
  obtain ⟨j, call', read, found', here⟩ := clearing
  have other : j ≠ i := by
    rintro rfl
    obtain rfl : call = call' := Option.some.inj (found.symm.trans found')
    exact elsewhere read here
  exact ⟨j, call', read, by rw [Pool.getElem?_modify_other _ other, found'], here⟩

/-- What a boundary has read stays as it is while others move: writers do not change what it
is compared with, and there is no other boundary. -/
theorem Whole.faithful_moves {b' : Updates} (whole : Whole c b s)
    (ran : run (step c) (start ({} : AverageSampleWindow)) es = some s)
    (found : s.calls[i]? = some call) (active : point ≠ .loadActive)
    (own : point.Faithful b' (Between c { shared with calls := s.calls.modify i (.moveTo point) }))
    (others : call.point.locked = true ∨
      (b'.seen = b.seen ∧ b'.cleared = b.cleared ∧ ∀ k, b.counted k <+: b'.counted k))
    (j : Nat) (call' : Call AddPoint TrackPoint ResetPoint)
    (found' : (s.calls.modify i (.moveTo point))[j]? = some call') :
    call'.point.Faithful b'
      (Between c { shared with calls := s.calls.modify i (.moveTo point) }) := by
  rcases Pool.getElem?_modify_cases found found' with ⟨rfl, rfl⟩ | ⟨other, earlier⟩
  · exact own
  · rcases others with locked | ⟨seen, cleared, counted⟩
    · refine Point.faithful_of_unlocked ?_
      rw [← Bool.not_eq_true]
      intro locked'
      exact other (locked_unique ran earlier found locked' locked)
    · exact (whole.faithful j call' earlier).mono seen cleared counted
        fun _ between => between.moves found active

theorem Whole.counted {idx : Fin 2} (whole : Whole c b s)
    (ran : run (step c) (start ({} : AverageSampleWindow)) es = some s)
    (found : s.calls[i]? = some call) (here : call.point = .addSample idx .count)
    (active : point ≠ .loadActive) (free : point.locked = false)
    (fits : InRange 32 (s.sampleCounts idx + 1))
    (counts : shared.sampleCounts =
      Function.update s.sampleCounts idx (wrap 32 (s.sampleCounts idx + 1)))
    (sums : shared.sums = s.sums) :
    Whole c
      { b with
        counted := Function.update b.counted idx (b.counted idx ++ [(i, call.sample.rttNs)]) }
      { shared with calls := s.calls.modify i (.moveTo point) } := by
  have longer (k : Fin 2) : b.counted k <+: Function.update b.counted idx
      (b.counted idx ++ [(i, call.sample.rttNs)]) k := by
    by_cases same : k = idx
    · subst same
      rw [Function.update_self]
      exact List.prefix_append ..
    · rw [Function.update_of_ne same]
  constructor
  · intro k
    refine (congrFun counts k).trans ?_
    dsimp only
    by_cases same : k = idx
    · subst same
      rw [Function.update_self, Function.update_self, wrap_eq (by decide) fits, whole.counts,
        List.length_append, List.length_singleton]
      push_cast
      omega
    · rw [Function.update_of_ne same, Function.update_of_ne same, whole.counts]
  · exact fun k => (whole.extends_cleared k).trans (longer k)
  · intro k
    rcases whole.sums k with exact | clearing
    · exact .inl ((congrFun sums k).trans exact)
    · exact .inr (clearing_moves found (by simp [here]) clearing)
  · intro k sample member
    dsimp only at member
    by_cases same : k = idx
    · subst same
      rw [Function.update_self] at member
      rcases List.mem_append.mp member with earlier | new
      · exact (whole.members k sample earlier).moves found active
      · obtain rfl := List.mem_singleton.mp new
        have accepted := run_accepted ran found (by rw [here]; simp [Point.rank])
        have self := Pool.getElem?_modify_self (Call.moveTo point) found
        exact ⟨_, List.mem_of_getElem? self, accepted, active, rfl⟩
    · rw [Function.update_of_ne same] at member
      exact (whole.members k sample member).moves found active
  · exact whole.faithful_moves ran found active (Point.faithful_of_unlocked free)
      (.inr ⟨rfl, rfl, longer⟩)

theorem Whole.summed {idx : Fin 2} {index : Int} (whole : Whole c b s)
    (ran : run (step c) (start ({} : AverageSampleWindow)) es = some s)
    (found : s.calls[i]? = some call) (here : call.point = .addSample idx (.record index))
    (active : point ≠ .loadActive) (free : point.locked = false)
    (fits : InRange 64 (s.sums idx + call.sample.rttNs))
    (counts : shared.sampleCounts = s.sampleCounts)
    (sums : shared.sums = Function.update s.sums idx (wrap 64 (s.sums idx + call.sample.rttNs))) :
    Whole c
      { b with
        summed := Function.update b.summed idx (b.summed idx ++ [(i, call.sample.rttNs)]) }
      { shared with calls := s.calls.modify i (.moveTo point) } where
  counts k := (congrFun counts k).trans (whole.counts k)
  extends_cleared := whole.extends_cleared
  sums := by
    intro k
    rcases whole.sums k with exact | clearing
    · refine .inl ((congrFun sums k).trans ?_)
      dsimp only
      by_cases same : k = idx
      · subst same
        rw [Function.update_self, Function.update_self, wrap_eq (by decide) fits, exact, total, total,
          total, List.map_append, List.sum_append, List.map_singleton, List.sum_singleton]
        omega
      · rw [Function.update_of_ne same, Function.update_of_ne same, exact]
    · exact .inr (clearing_moves found (by simp [here]) clearing)
  members k sample member := (whole.members k sample member).moves found active
  faithful := whole.faithful_moves ran found active (Point.faithful_of_unlocked free)
    (.inr ⟨rfl, rfl, fun _ => List.prefix_rfl⟩)

/-- A step that leaves the counts, the sums and what has been seen of them alone. -/
theorem Whole.still (whole : Whole c b s)
    (ran : run (step c) (start ({} : AverageSampleWindow)) es = some s)
    (found : s.calls[i]? = some call) (active : point ≠ .loadActive)
    (elsewhere : ∀ old read, call.point ≠ .boundary old read (.reset .sum))
    (counts : shared.sampleCounts = s.sampleCounts) (sums : shared.sums = s.sums)
    (own : point.Faithful b (Between c { shared with calls := s.calls.modify i (.moveTo point) })) :
    Whole c b { shared with calls := s.calls.modify i (.moveTo point) } where
  counts k := (congrFun counts k).trans (whole.counts k)
  extends_cleared := whole.extends_cleared
  sums := by
    intro k
    rcases whole.sums k with exact | clearing
    · exact .inl ((congrFun sums k).trans exact)
    · exact .inr (clearing_moves found (elsewhere k) clearing)
  members k sample member := (whole.members k sample member).moves found active
  faithful := whole.faithful_moves ran found active own
    (.inr ⟨rfl, rfl, fun _ => List.prefix_rfl⟩)

theorem Whole.looked {old : Fin 2} (whole : Whole c b s)
    (ran : run (step c) (start ({} : AverageSampleWindow)) es = some s)
    (found : s.calls[i]? = some call) (active : point ≠ .loadActive)
    (locked : call.point.locked = true)
    (elsewhere : ∀ old read, call.point ≠ .boundary old read (.reset .sum))
    (counts : shared.sampleCounts = s.sampleCounts) (sums : shared.sums = s.sums)
    (own : point.Faithful { b with seen := Function.update b.seen old (b.counted old) }
      (Between c { shared with calls := s.calls.modify i (.moveTo point) })) :
    Whole c { b with seen := Function.update b.seen old (b.counted old) }
      { shared with calls := s.calls.modify i (.moveTo point) } where
  counts k := (congrFun counts k).trans (whole.counts k)
  extends_cleared := whole.extends_cleared
  sums := by
    intro k
    rcases whole.sums k with exact | clearing
    · exact .inl ((congrFun sums k).trans exact)
    · exact .inr (clearing_moves found (elsewhere k) clearing)
  members k sample member := (whole.members k sample member).moves found active
  faithful := whole.faithful_moves ran found active own (.inl locked)

theorem Whole.clearedCount {old : Fin 2} {read : Aggregate} (whole : Whole c b s)
    (ran : run (step c) (start ({} : AverageSampleWindow)) es = some s)
    (found : s.calls[i]? = some call) (here : call.point = .boundary old read (.reset .count))
    (there : point = .boundary old read (.reset .sum))
    (counts : shared.sampleCounts = Function.update s.sampleCounts old 0)
    (sums : shared.sums = s.sums) :
    Whole c
      { b with
        seen := Function.update b.seen old (b.counted old)
        cleared := Function.update b.cleared old (b.counted old) }
      { shared with calls := s.calls.modify i (.moveTo point) } where
  counts := by
    intro k
    refine (congrFun counts k).trans ?_
    dsimp only
    by_cases same : k = old
    · subst same
      rw [Function.update_self, Function.update_self, Int.sub_self]
    · rw [Function.update_of_ne same, Function.update_of_ne same, whole.counts]
  extends_cleared := by
    intro k
    dsimp only
    by_cases same : k = old
    · subst same
      rw [Function.update_self]
    · rw [Function.update_of_ne same]
      exact whole.extends_cleared k
  sums := by
    intro k
    by_cases same : k = old
    · subst same
      exact .inr ⟨i, _, read, Pool.getElem?_modify_self (Call.moveTo point) found, there⟩
    · rcases whole.sums k with exact | clearing
      · refine .inl ((congrFun sums k).trans ?_)
        dsimp only
        rw [Function.update_of_ne same, exact]
      · exact .inr (clearing_moves found (by simp [here]) clearing)
  members k sample member := (whole.members k sample member).moves found (by simp [there])
  faithful := by
    refine whole.faithful_moves ran found (by simp [there]) ?_ (.inl (by rw [here]; rfl))
    rw [there, Point.Faithful]
    dsimp only
    rw [Function.update_self, Function.update_self]

/-- The sum is cleared of the samples that the count was cleared of. -/
theorem Whole.clearedSum {old : Fin 2} {read : Aggregate} (whole : Whole c b s)
    (ran : run (step c) (start ({} : AverageSampleWindow)) es = some s)
    (found : s.calls[i]? = some call) (here : call.point = .boundary old read (.reset .sum))
    (active : point ≠ .loadActive)
    (own : point.Faithful b (Between c { shared with calls := s.calls.modify i (.moveTo point) }))
    (untorn : (b.seen old).Perm (b.summed old)) (counts : shared.sampleCounts = s.sampleCounts)
    (sums : shared.sums = Function.update s.sums old 0) :
    Whole c b { shared with calls := s.calls.modify i (.moveTo point) } where
  counts k := (congrFun counts k).trans (whole.counts k)
  extends_cleared := whole.extends_cleared
  sums := by
    intro k
    by_cases same : k = old
    · subst same
      have seen : b.seen k = b.cleared k := by
        have faithful := whole.faithful i call found
        rw [here] at faithful
        exact faithful
      have equal : total (b.summed k) = total (b.cleared k) := by
        rw [← seen]
        exact (untorn.map Prod.snd).sum_eq.symm
      refine .inl ((congrFun sums k).trans ?_)
      rw [Function.update_self, equal, Int.sub_self]
    · rcases whole.sums k with exact | clearing
      · refine .inl ((congrFun sums k).trans ?_)
        rw [Function.update_of_ne same, exact]
      · exact .inr (clearing_moves found (by simp [here, Ne.symm same]) clearing)
  members k sample member := (whole.members k sample member).moves found active
  faithful := whole.faithful_moves ran found active own
    (.inr ⟨rfl, rfl, fun _ => List.prefix_rfl⟩)

/-- The mean that a boundary computes from a sum of the samples it has counted. -/
theorem Whole.mean_between {old : Fin 2} {read : Aggregate} {count : Int} (whole : Whole c b s)
    (ran : run (step c) (start ({} : AverageSampleWindow)) es = some s)
    (found : s.calls[i]? = some call)
    (here : call.point = .boundary old read (.trackedRtt (.loadSum count)))
    (untorn : (b.seen old).Perm (b.summed old)) : Between c s ((s.sums old).tdiv count) := by
  have faithful := whole.faithful i call found
  rw [here] at faithful
  obtain ⟨length, nonzero, ⟨rest, seen⟩, within⟩ := faithful
  have exact : s.sums old = total (b.summed old) - total (b.cleared old) := by
    rcases whole.sums old with exact | ⟨j, call', read', found', clearing⟩
    · exact exact
    · obtain rfl := locked_unique ran found' found (by rw [clearing]; rfl) (by rw [here]; rfl)
      obtain rfl : call = call' := Option.some.inj (found.symm.trans found')
      simp [here] at clearing
  have equal : total (b.summed old) = total (b.cleared old) + total rest := by
    have same : total (b.summed old) = total (b.seen old) := (untorn.map Prod.snd).sum_eq.symm
    rw [same, ← seen, total, total, total, List.map_append, List.sum_append]
  have size : count = ((rest.map Prod.snd).length : Int) := by
    rw [← seen, List.length_append] at length
    rw [List.length_map, length]
    push_cast
    omega
  have mean : (s.sums old).tdiv count =
      (rest.map Prod.snd).sum.tdiv (rest.map Prod.snd).length := by
    rw [exact, equal, size, total, total]
    congr 1
    omega
  have started : ∀ rtt ∈ rest.map Prod.snd, Started c s rtt := by
    intro rtt member
    obtain ⟨sample, later, rfl⟩ := List.mem_map.mp member
    refine whole.members old sample (within.subset ?_)
    rw [← seen]
    exact List.mem_append_right _ later
  have nonneg : ∀ rtt ∈ rest.map Prod.snd, 0 ≤ rtt := by
    intro rtt member
    obtain ⟨call', _, accepted, _, rfl⟩ := started rtt member
    exact c.threshold_nonneg.trans accepted
  have nonempty : rest.map Prod.snd ≠ [] := by
    intro none
    rw [none] at size
    exact nonzero size
  obtain ⟨⟨low, lower, below⟩, high, higher, above⟩ :=
    Limen.WindowedLimit.mean_between nonempty nonneg
  rw [mean]
  exact ⟨⟨low, started low lower, below⟩, high, started high higher, above⟩

theorem updates_concat (log : List (Operation AddPoint TrackPoint ResetPoint))
    (op : Operation AddPoint TrackPoint ResetPoint) :
    updates (log ++ [op]) = (updates log).enter op :=
  List.foldl_concat ..

theorem run_whole (ran : run (step c) (start ({} : AverageSampleWindow)) es = some s)
    (untorn : Throughout c ({} : AverageSampleWindow) Untorn es) :
    Whole c (updates (operations c ({} : AverageSampleWindow) es)) s := by
  refine run_admitted (P := fun log s => Whole c (updates log) s) ?_ ?_ ?_ ran untorn
  · exact ⟨fun _ => rfl, fun _ => List.prefix_rfl, fun _ => .inl rfl, by simp [updates],
      by simp [start]⟩
  · exact fun whole sample _ => whole.enters sample
  · intro es s i spurious call shared point ran _ whole found untorn moved
    rw [updates_concat]
    have untorn := untorn call found
    have active := moved.active
    have faithful := whole.faithful i call found
    obtain ⟨sample, here⟩ := call
    cases moved.sums _ _ faithful with
    | counted counts sums => exact whole.counted ran found rfl active rfl untorn counts sums
    | summed counts sums => exact whole.summed ran found rfl active rfl untorn counts sums
    | empty counts sums zero =>
      refine whole.looked ran found active rfl (by simp) counts sums (.inl ?_)
      dsimp only
      rw [Function.update_self]
      have length := whole.counts
      rename_i old _ _
      have level := (whole.counts old).symm.trans zero
      exact ((whole.extends_cleared old).eq_of_length (by omega)).symm
    | loaded counts sums same nonzero =>
      rename_i old _ count
      refine whole.looked ran found active rfl (by simp) counts sums ?_
      rw [Point.Faithful]
      dsimp only
      rw [Function.update_self]
      exact ⟨same.trans (whole.counts old), nonzero, whole.extends_cleared old, List.prefix_rfl⟩
    | averaged counts sums mean =>
      refine whole.still ran found active (by simp) counts sums (.inr ?_)
      rw [mean]
      exact (whole.mean_between ran found rfl untorn).moves found active
    | sampled counts sums tracked value =>
      rename_i old seen seen'
      refine whole.still ran found active (by simp) counts sums ?_
      rcases faithful with empty | within
      · refine .inl ?_
        have level := whole.counts old
        rw [untorn empty, empty, Int.sub_self] at level
        exact value.trans level
      · refine .inr ?_
        rw [tracked]
        exact within.moves found active
    | clearedCount counts sums => exact whole.clearedCount ran found rfl rfl counts sums
    | clearedSum counts sums =>
      exact whole.clearedSum ran found rfl active trivial untorn counts sums
    | other counts sums silent elsewhere onward =>
      have same := silent (updates (operations c ({} : AverageSampleWindow) es)) i sample
        shared.nextUpdateTimeNs
      rw [Call.operation, same]
      refine whole.still ran found active elsewhere counts sums ?_
      exact (onward _ _ faithful).mono rfl rfl (fun _ => List.prefix_rfl)
        fun _ between => between.moves found active
end Run

/-- In every run of which no step tears a sample, each tracked RTT that the delegate receives
lies between RTTs of samples that have been added. -/
theorem tracked_within (c : Config) (es : List Event)
    (untorn : Throughout c ({} : AverageSampleWindow) Untorn es) :
    Along (step c) (TrackedWithin c) (start ({} : AverageSampleWindow)) es := by
  rw [along_iff]
  rintro before e after s rfl reached
  cases e with
  | onSample sample => trivial
  | advance i spurious =>
    intro call found old read here ready
    have faithful := (run_whole reached untorn.left).faithful i call found
    rw [here] at faithful
    rcases faithful with none | between
    · have size := c.windowSize_pos
      rw [windowReady, decide_eq_true_eq, none] at ready
      omega
    · exact between

instance decidableUntorn (b : Updates) (w : Shared AverageSampleWindow) (s : Sample) :
    (point : Point AddPoint TrackPoint ResetPoint) → Decidable (point.Untorn b w s)
  | .addSample _ .count => inferInstanceAs (Decidable (InRange 32 _))
  | .addSample _ (.record _) => inferInstanceAs (Decidable (InRange 64 _))
  | .boundary _ _ (.trackedRtt (.loadSum _)) | .boundary _ _ (.reset .sum) =>
    inferInstanceAs (Decidable (List.Perm _ _))
  | .boundary _ _ .loadSampleCount => inferInstanceAs (Decidable (_ → _))
  | .addSample _ .loadMin | .addSample _ (.exchangeMin _) | .addSample _ .loadMax
  | .addSample _ (.exchangeMax _) | .addSample _ .drop | .boundary _ _ (.trackedRtt .loadCount)
  | .boundary _ _ (.trackedRtt (.loadEntry _ _)) | .boundary _ _ (.reset .count)
  | .boundary _ _ (.reset .min) | .boundary _ _ (.reset .max) | .boundary _ _ (.reset .drop)
  | .boundary _ _ .loadCandidate | .boundary _ _ .loadMaxInflight | .boundary _ _ .loadDidDrop
  | .boundary _ _ .storeActive | .boundary _ _ .storeDue | .boundary _ _ .callDelegate
  | .boundary _ _ .inDelegate | .loadActive | .loadDue | .tryLock | .reloadDue | .loadOld | .unlock
  | .returned => .isTrue trivial

instance (log : List (Operation AddPoint TrackPoint ResetPoint))
    (s : State AverageSampleWindow AddPoint TrackPoint ResetPoint) :
    (e : Event) → Decidable (Untorn log s e)
  | .onSample _ => .isTrue trivial
  | .advance i _ => inferInstanceAs (Decidable (∀ call ∈ s.calls[i]?, _))

/-- The second call adds the whole of its sample before the first one closes the window. -/
def wholeAdded : List Event :=
  [.onSample ⟨0, 5, 1, false⟩, .onSample ⟨0, 7, 1, false⟩] ++ List.replicate 3 (.advance 1) ++
    List.replicate 20 (.advance 0)

theorem wholeAdded_within :
    ((run (step quickWindows) (start ({} : AverageSampleWindow)) wholeAdded).map
      fun s => s.calls.map Call.point) =
        some [.boundary 0 ⟨5, 6, 1, 2, false⟩ .inDelegate, .addSample 0 .loadMin] ∧
    Along (step quickWindows) (TrackedWithin quickWindows) (start ({} : AverageSampleWindow))
      wholeAdded :=
  ⟨by decide +kernel,
    tracked_within quickWindows wholeAdded (throughout_of_forall (by decide +kernel))⟩

/-- The second call has raised the count and not yet the sum when the first one closes the
window. -/
def halfAdded : List Event :=
  [.onSample ⟨0, 5, 1, false⟩, .onSample ⟨0, 7, 1, false⟩] ++ List.replicate 2 (.advance 1) ++
    List.replicate 19 (.advance 0)

/-- With RTTs of 5 and 7 the delegate is told 2. -/
theorem halfAdded_torn : ¬ ∀ (c : Config) es s,
    run (step c) (start ({} : AverageSampleWindow)) es = some s →
      Along (step c) (TrackedWithin c) (start ({} : AverageSampleWindow)) es := by
  intro always
  have reached : ((run (step quickWindows) (start ({} : AverageSampleWindow)) halfAdded).map
      fun s => s.calls) = some [⟨⟨0, 5, 1, false⟩, .boundary 0 ⟨5, 2, 1, 2, false⟩ .callDelegate⟩,
        ⟨⟨0, 7, 1, false⟩, .addSample 0 (.record 0)⟩] := by decide +kernel
  obtain ⟨s, ran, calls⟩ := Option.map_eq_some_iff.mp reached
  have more : (run (step quickWindows) (start ({} : AverageSampleWindow))
      (halfAdded ++ [.advance 0])).isSome := by decide +kernel
  obtain ⟨t, later⟩ := Option.isSome_iff_exists.mp more
  have within := along_iff.mp (always quickWindows _ t later) halfAdded (.advance 0) [] s rfl ran
  obtain ⟨⟨low, ⟨call, member, _, _, rfl⟩, below⟩, _⟩ := within _ (by rw [calls]; rfl) 0 _ rfl
    (by decide)
  rw [calls, List.mem_cons, List.mem_singleton] at member
  rcases member with rfl | rfl
  · exact absurd below (by decide)
  · exact absurd below (by decide)
end Limen.WindowedLimit
