import Limen.WindowedLimit.Counts

/-! The array of a percentile window under concurrency. A sample claims an entry by the count
and fills it by a second operation. The boundary copies what the count has claimed, filled or
not, and a sample that has claimed its entry before a `Reset` may fill it afterwards. -/
namespace Limen.WindowedLimit
open Transition State

/-- Who has claimed and who has filled the entries of the slots. -/
structure Claims where
  /-- The calls that have claimed an index since the slot's count was last cleared. -/
  claimed : Fin 2 → List (Nat × Int) := fun _ => []
  /-- The last call that has stored each entry. -/
  storer : Fin 2 → Int → Option Nat := fun _ _ => none

def Claims.enter (b : Claims) (op : Operation AddPoint TrackPoint ResetPoint) : Claims :=
  match op.before, op.after with
  | .addSample idx .count, .addSample _ (.record index) =>
    { b with claimed := Function.update b.claimed idx (b.claimed idx ++ [(op.call, index)]) }
  | .addSample idx (.record index), _ =>
    { b with
      storer := Function.update b.storer idx (Function.update (b.storer idx) index (some op.call)) }
  | .boundary old _ (.reset .count), _ => { b with claimed := Function.update b.claimed old [] }
  | _, _ => b

def claims (log : List (Operation AddPoint TrackPoint ResetPoint)) : Claims :=
  log.foldl Claims.enter {}

theorem claims_concat (log : List (Operation AddPoint TrackPoint ResetPoint))
    (op : Operation AddPoint TrackPoint ResetPoint) :
    claims (log ++ [op]) = (claims log).enter op :=
  List.foldl_concat ..

/-- The call of a claim has not stored its entry. -/
def Pending (calls : List (Call AddPoint TrackPoint ResetPoint)) (k : Fin 2) (claim : Nat × Int) :
    Prop :=
  calls[claim.1]?.map Call.point = some (.addSample k (.record claim.2))

/-- What has to hold for the next operation of the `i`-th call not to make or to read a stale
entry. A call whose claim is from before the last `Reset` may store only an entry that nobody
has claimed and stored since; an entry that is copied must have been stored by those who have
claimed it. -/
def Point.Orderly (b : Claims) (calls : List (Call AddPoint TrackPoint ResetPoint)) (i : Nat) :
    Point AddPoint TrackPoint ResetPoint → Prop
  | .addSample idx (.record index) => (i, index) ∈ b.claimed idx ∨
    ∀ claim ∈ b.claimed idx, claim.2 = index → Pending calls idx claim
  | .boundary old _ (.trackedRtt (.loadEntry _ buffer)) =>
    ∀ claim ∈ b.claimed old, claim.2 = buffer.length → ¬ Pending calls old claim
  | _ => True

def Orderly (log : List (Operation AddPoint TrackPoint ResetPoint))
    (s : State PercentileSampleWindow AddPoint TrackPoint ResetPoint) : Event → Prop
  | .onSample _ => True
  | .advance i _ => ∀ call ∈ s.calls[i]?, call.point.Orderly (claims log) s.calls i

/-- The entry has been stored last by a call that has claimed it since the last `Reset`, and
holds the RTT of that call. -/
def Current (b : Claims) (s : State PercentileSampleWindow AddPoint TrackPoint ResetPoint)
    (k : Fin 2) (n : Nat) : Prop :=
  ∃ i, (i, (n : Int)) ∈ b.claimed k ∧ b.storer k n = some i ∧
    ∃ call, s.calls[i]? = some call ∧ (s.slots k).rtts[n]? = some call.sample.rttNs

/-- If the event copies an entry into the sort buffer, then a current one. -/
def CopiesCurrent (log : List (Operation AddPoint TrackPoint ResetPoint))
    (s : State PercentileSampleWindow AddPoint TrackPoint ResetPoint) : Event → Prop
  | .onSample _ => True
  | .advance i _ => ∀ call ∈ s.calls[i]?, ∀ old read usable buffer,
    call.point = .boundary old read (.trackedRtt (.loadEntry usable buffer)) →
      Current (claims log) s old buffer.length

section Step
variable {c : Config} {w w' : Shared PercentileSampleWindow} {s : Sample}
  {point point' : Point AddPoint TrackPoint ResetPoint}

def Shared.arrays (w : Shared PercentileSampleWindow) (k : Fin 2) : List Int := (w.slots k).rtts

def Shared.bounds (w : Shared PercentileSampleWindow) (k : Fin 2) : Nat := (w.slots k).maxSamples

/-- The points that hold a claim or a part of the copy. -/
def Point.holds : Point AddPoint TrackPoint ResetPoint → Bool
  | .addSample _ (.record _) | .boundary _ _ (.trackedRtt (.loadEntry _ _)) => true
  | _ => false

/-- What an operation does to the counts and the arrays. -/
inductive Entries (w w' : Shared PercentileSampleWindow) (s : Sample) :
    Point AddPoint TrackPoint ResetPoint → Point AddPoint TrackPoint ResetPoint → Prop
  | claimed {idx : Fin 2} (below : w.counts idx < w.bounds idx)
      (counts : w'.counts = Function.update w.counts idx (wrap 32 (w.counts idx + 1)))
      (arrays : w'.arrays = w.arrays) :
      Entries w w' s (.addSample idx .count) (.addSample idx (.record (w.counts idx)))
  | full {idx : Fin 2} (above : w.bounds idx ≤ w.counts idx)
      (counts : w'.counts = Function.update w.counts idx (wrap 32 (w.counts idx + 1)))
      (arrays : w'.arrays = w.arrays) :
      Entries w w' s (.addSample idx .count) (.addSample idx .loadMin)
  | stored {idx : Fin 2} {index : Int} (counts : w'.counts = w.counts)
      (arrays : w'.arrays = Function.update w.arrays idx
        (PercentileSampleWindow.store (w.arrays idx) (some index) s.rttNs)) :
      Entries w w' s (.addSample idx (.record index)) (.addSample idx .loadMin)
  | cleared {old : Fin 2} {seen : Aggregate} (counts : w'.counts = Function.update w.counts old 0)
      (arrays : w'.arrays = w.arrays) :
      Entries w w' s (.boundary old seen (.reset .count)) (.boundary old seen (.reset .min))
  | looked {old : Fin 2} {seen : Aggregate} (same : w' = w)
      (some : 0 < min (w.counts old) (w.bounds old)) :
      Entries w w' s (.boundary old seen (.trackedRtt .loadCount))
        (.boundary old seen (.trackedRtt (.loadEntry (min (w.counts old) (w.bounds old)) [])))
  | copied {old : Fin 2} {seen : Aggregate} {usable : Int} {buffer buffer' : List Int}
      (same : w' = w) (more : buffer'.length < usable) :
      Entries w w' s (.boundary old seen (.trackedRtt (.loadEntry usable buffer)))
        (.boundary old seen (.trackedRtt (.loadEntry usable buffer')))
  | other {here next : Point AddPoint TrackPoint ResetPoint} (counts : w'.counts = w.counts)
      (arrays : w'.arrays = w.arrays)
      (silent : ∀ (b : Claims) call sample due, b.enter ⟨call, sample, here, next, due⟩ = b)
      (settled : ∀ idx index, here ≠ .addSample idx (.record index)) (released : next.holds = false) :
      Entries w w' s here next

theorem arrays_update (w : Shared PercentileSampleWindow) (k : Fin 2)
    (slot : PercentileSampleWindow) :
    Shared.arrays { w with slots := Function.update w.slots k slot } =
      Function.update w.arrays k slot.rtts :=
  Function.comp_update PercentileSampleWindow.rtts w.slots k slot

theorem arrays_kept {k : Fin 2} {slot : PercentileSampleWindow} (same : slot.rtts = w.arrays k) :
    Shared.arrays { w with slots := Function.update w.slots k slot } = w.arrays := by
  rw [arrays_update, same, Function.update_eq_self]

theorem bounds_update (w : Shared PercentileSampleWindow) (k : Fin 2)
    (slot : PercentileSampleWindow) :
    Shared.bounds { w with slots := Function.update w.slots k slot } =
      Function.update w.bounds k slot.maxSamples :=
  Function.comp_update PercentileSampleWindow.maxSamples w.slots k slot

/-- A change of the other fields of a slot. -/
theorem Entries.aside {k : Fin 2} {slot : PercentileSampleWindow}
    (counts : slot.sampleCount = w.counts k) (arrays : slot.rtts = w.arrays k)
    (silent : ∀ (b : Claims) call sample due, b.enter ⟨call, sample, point, point', due⟩ = b)
    (settled : ∀ idx index, point ≠ .addSample idx (.record index))
    (released : point'.holds = false) :
    Entries w { w with slots := Function.update w.slots k slot } s point point' :=
  .other (counts_kept counts) (arrays_kept arrays) silent settled released

theorem AddPoint.holds_of_late {pc : AddPoint} (late : pc.late = true) (idx : Fin 2) :
    (Point.addSample idx pc : Point AddPoint TrackPoint ResetPoint).holds = false := by
  cases pc <;> first | rfl | contradiction

theorem Moves.entries (moved : Moves c w s point w' point') : Entries w w' s point point' := by
  cases moved with
  | adding spurious added =>
    rename_i idx pc pc' slot
    rcases PercentileSampleWindow.addStep_cases added with ⟨rfl, rfl, next⟩ |
      ⟨index, rfl, rfl, next⟩ | ⟨late, ⟨x, rfl⟩, onward⟩
    · split at next <;> cases next
      · exact .claimed (by assumption) (counts_update ..) (arrays_kept rfl)
      · exact .full (Int.not_lt.mp (by assumption)) (counts_update ..) (arrays_kept rfl)
    · cases next
      exact .stored (counts_kept rfl) (arrays_update ..)
    · refine .aside rfl rfl ?_ ?_ (AddPoint.holds_of_late (onward pc' rfl) idx)
      · intro b call sample due
        cases pc <;> first | rfl | contradiction
      · rintro idx index ⟨⟩
        contradiction
  | added spurious added =>
    rename_i idx pc slot
    rcases PercentileSampleWindow.addStep_cases added with ⟨_, _, next⟩ | ⟨index, _, _, next⟩ |
      ⟨late, ⟨x, rfl⟩, _⟩
    · split at next <;> contradiction
    · contradiction
    · refine .aside rfl rfl ?_ ?_ rfl
      · intro b call sample due
        cases pc <;> first | rfl | contradiction
      · rintro idx index ⟨⟩
        contradiction
  | tracking tracked =>
    rename_i old read pc pc'
    have step : PercentileSampleWindow.trackStep (w.slots old) pc = .inl pc' := tracked
    cases pc with
    | loadCount =>
      rw [PercentileSampleWindow.trackStep] at step
      split at step
      · contradiction
      · rw [PercentileSampleWindow.tryEntry] at step
        split at step <;> cases step
        exact .looked rfl (by assumption)
    | loadEntry usable buffer =>
      rw [PercentileSampleWindow.trackStep, PercentileSampleWindow.tryEntry] at step
      split at step <;> cases step
      exact .copied rfl (by assumption)
    | loadSum count => contradiction
  | resetting stored =>
    rename_i old read pc pc' slot
    cases pc with
    | count =>
      cases stored
      exact .cleared (counts_update ..) (arrays_kept rfl)
    | drop => cases stored
    | _ =>
      cases stored
      exact .aside rfl rfl (fun _ _ _ _ => rfl) (by simp) rfl
  | reset stored =>
    rename_i old read pc slot
    cases pc <;> cases stored
    exact .aside rfl rfl (fun _ _ _ _ => rfl) (by simp) rfl
  | tracked tracked =>
    rename_i old read pc rtt
    exact .other rfl rfl (fun _ _ _ _ => rfl) (by simp) rfl
  | _ => exact .other rfl rfl (fun _ _ _ _ => rfl) (by simp) rfl

theorem Moves.bounds (moved : Moves c w s point w' point') : w'.bounds = w.bounds := by
  cases moved with
  | adding spurious added =>
    rw [bounds_update]
    rcases PercentileSampleWindow.addStep_cases added with ⟨_, rfl, _⟩ | ⟨_, _, rfl, _⟩ |
      ⟨_, ⟨x, rfl⟩, _⟩ <;> exact Function.update_eq_self ..
  | added spurious added =>
    rw [bounds_update]
    rcases PercentileSampleWindow.addStep_cases added with ⟨_, rfl, _⟩ | ⟨_, _, rfl, _⟩ |
      ⟨_, ⟨x, rfl⟩, _⟩ <;> exact Function.update_eq_self ..
  | resetting stored =>
    rename_i old read pc pc' slot
    rw [bounds_update]
    cases pc <;> cases stored <;> exact Function.update_eq_self ..
  | reset stored =>
    rename_i old read pc slot
    rw [bounds_update]
    cases pc <;> cases stored
    exact Function.update_eq_self ..
  | _ => rfl
end Step
/-- What a call at the point relies on. -/
def Point.Held (m : Nat) (b : Claims) : Point AddPoint TrackPoint ResetPoint → Prop
  | .addSample _ (.record index) => index < m
  | .boundary old _ (.trackedRtt (.loadEntry usable buffer)) => buffer.length < usable ∧
    ∀ n : Int, 0 ≤ n → n < usable → ∃ i, (i, n) ∈ b.claimed old
  | _ => True

theorem Point.held_of_released {m : Nat} {b : Claims} {point : Point AddPoint TrackPoint ResetPoint}
    (released : point.holds = false) : point.Held m b := by
  cases point with
  | addSample idx pc => cases pc <;> trivial
  | boundary old read stage =>
    cases stage with
    | trackedRtt pc => cases pc <;> trivial
    | _ => trivial
  | _ => trivial

/-- The entries below the count are claimed, and a claimed entry is current once its call
has stored it. -/
structure Filled (m : Nat) (b : Claims)
    (s : State PercentileSampleWindow AddPoint TrackPoint ResetPoint) : Prop where
  reached : ∀ k (n : Int), 0 ≤ n → n < s.counts k → n < m → ∃ i, (i, n) ∈ b.claimed k
  stored : ∀ k, ∀ claim ∈ b.claimed k, Pending s.calls k claim ∨
    ∃ i, (i, claim.2) ∈ b.claimed k ∧ b.storer k claim.2 = some i
  values : ∀ k (n : Nat) i, b.storer k n = some i → ∃ call, s.calls[i]? = some call ∧
    (s.arrays k)[n]? = some call.sample.rttNs
  held : ∀ (i : Nat) call, s.calls[i]? = some call → call.point.Held m b

section Run
variable {c : Config} {percentile : ℚ} {m : Nat} {b b' : Claims} {es : List Event} {i : Nat}
  {s : State PercentileSampleWindow AddPoint TrackPoint ResetPoint}
  {call : Call AddPoint TrackPoint ResetPoint} {shared : Shared PercentileSampleWindow}
  {point : Point AddPoint TrackPoint ResetPoint}

theorem run_bounds (ran : run (step c) (start (PercentileSampleWindow.construct percentile m)) es =
    some s) (k : Fin 2) : s.bounds k = m ∧ (s.arrays k).length = m := by
  refine run_operations (P := fun _ s => ∀ k, s.bounds k = m ∧ (s.arrays k).length = m) ?_ ?_ ?_
    ran k
  · intro k
    exact ⟨rfl, List.length_replicate⟩
  · exact fun bounded _ => bounded
  · intro es s i call shared point _ bounded found moved k
    refine ⟨(congrFun moved.bounds k).trans (bounded k).1, ?_⟩
    have same (kept : shared.arrays = s.arrays) : (shared.arrays k).length = m := by
      rw [kept]
      exact (bounded k).2
    obtain ⟨sample, here⟩ := call
    cases moved.entries with
    | stored counts arrays =>
      rename_i idx index
      show (shared.arrays k).length = m
      rw [arrays]
      by_cases own : k = idx
      · subst own
        rw [Function.update_self, PercentileSampleWindow.length_store]
        exact (bounded k).2
      · rw [Function.update_of_ne own]
        exact (bounded k).2
    | claimed below counts arrays => exact same arrays
    | full above counts arrays => exact same arrays
    | cleared counts arrays => exact same arrays
    | looked kept => exact same (by rw [kept])
    | copied kept => exact same (by rw [kept])
    | other counts arrays => exact same arrays

theorem Pending.moves {k : Fin 2} {claim : Nat × Int} (pending : Pending s.calls k claim)
    (found : s.calls[i]? = some call)
    (settled : claim.1 = i → call.point ≠ .addSample k (.record claim.2)) :
    Pending (s.calls.modify i (.moveTo point)) k claim := by
  by_cases own : claim.1 = i
  · rw [Pending, own, found] at pending
    exact absurd (Option.some.inj pending) (settled own)
  · rw [Pending, Pool.getElem?_modify_other _ own]
    exact pending

/-- An operation that is no store to the slot keeps its claims as they are. -/
theorem Filled.stored_moves (filled : Filled m b s) (found : s.calls[i]? = some call) {k : Fin 2}
    {claim : Nat × Int} {claimed : List (Nat × Int)}
    (settled : ∀ index, call.point ≠ .addSample k (.record index)) (more : b.claimed k ⊆ claimed)
    (member : claim ∈ b.claimed k) : Pending (s.calls.modify i (.moveTo point)) k claim ∨
      ∃ j, (j, claim.2) ∈ claimed ∧ b.storer k claim.2 = some j := by
  rcases filled.stored k claim member with pending | ⟨j, mine, last⟩
  · exact .inl (pending.moves found fun _ => settled claim.2)
  · exact .inr ⟨j, more mine, last⟩

/-- Calls keep their samples. -/
theorem Filled.values_moves (filled : Filled m b s) (found : s.calls[i]? = some call)
    (arrays : shared.arrays = s.arrays) {k : Fin 2} {n j : Nat} (storer : b.storer k n = some j) :
    ∃ call', (s.calls.modify i (.moveTo point))[j]? = some call' ∧
      (shared.arrays k)[n]? = some call'.sample.rttNs := by
  obtain ⟨call', found', value⟩ := filled.values k n j storer
  rw [arrays]
  exact Pool.modify_keeps (f := Call.moveTo point)
    (P := fun call => (s.arrays k)[n]? = some call.sample.rttNs) found found' value id

theorem Filled.held_moves (filled : Filled m b s) (found : s.calls[i]? = some call)
    (own : point.Held m b')
    (others : ∀ (j : Nat) call', s.calls[j]? = some call' → j ≠ i → call'.point.Held m b →
      call'.point.Held m b') {j : Nat} {call' : Call AddPoint TrackPoint ResetPoint}
    (found' : (s.calls.modify i (.moveTo point))[j]? = some call') : call'.point.Held m b' := by
  rcases Pool.getElem?_modify_cases found found' with ⟨rfl, rfl⟩ | ⟨other, before⟩
  · exact own
  · exact others j call' before other (filled.held j call' before)

theorem Point.Held.mono {point : Point AddPoint TrackPoint ResetPoint} (held : point.Held m b)
    (more : ∀ k, b.claimed k ⊆ b'.claimed k) : point.Held m b' := by
  cases point with
  | addSample idx pc => cases pc <;> trivial
  | boundary old read stage =>
    cases stage with
    | trackedRtt pc =>
      cases pc with
      | loadEntry usable buffer =>
        refine ⟨held.1, fun n nonneg below => ?_⟩
        obtain ⟨i, member⟩ := held.2 n nonneg below
        exact ⟨i, more old member⟩
      | _ => trivial
    | _ => trivial
  | _ => trivial

theorem counts_lower (ran : run (step c) (start (PercentileSampleWindow.construct percentile m)) es =
    some s) (k : Fin 2) : -2 ^ 31 ≤ s.counts k := by
  rw [(run_balanced rfl ran).counts k]
  exact Int.le_bmod (by decide)

/-- A counter that goes up to its maximum and then down to its minimum. -/
theorem le_of_lt_wrap_succ {x n : Int} (lower : -2 ^ 31 ≤ x) (nonneg : 0 ≤ n)
    (below : n < wrap 32 (x + 1)) : n ≤ x := by
  rw [wrap, Int.bmod_def] at below
  split at below <;> omega

theorem Filled.enters (filled : Filled m b s) (sample : Sample) :
    Filled m b { s with calls := s.calls ++ [c.enter sample] } where
  reached := filled.reached
  stored := by
    intro k claim member
    refine (filled.stored k claim member).imp_left fun pending => ?_
    obtain ⟨call, found, there⟩ := Option.map_eq_some_iff.mp pending
    exact Option.map_eq_some_iff.mpr
      ⟨call, Pool.getElem?_concat_eq_some.mpr (.inl found), there⟩
  values := by
    intro k n j storer
    obtain ⟨call, found, value⟩ := filled.values k n j storer
    exact ⟨call, Pool.getElem?_concat_eq_some.mpr (.inl found), value⟩
  held := by
    intro j call found
    rcases Pool.getElem?_concat_eq_some.mp found with before | ⟨_, rfl⟩
    · exact filled.held j call before
    · simp only [Config.enter]
      split <;> trivial

/-- A step that leaves the counts and the arrays alone. -/
theorem Filled.still (filled : Filled m b s) (found : s.calls[i]? = some call)
    (counts : shared.counts = s.counts) (arrays : shared.arrays = s.arrays)
    (settled : ∀ idx index, call.point ≠ .addSample idx (.record index)) (own : point.Held m b) :
    Filled m b { shared with calls := s.calls.modify i (.moveTo point) } where
  reached k n nonneg below room :=
    filled.reached k n nonneg (below.trans_eq (congrFun counts k)) room
  stored k _ member := filled.stored_moves found (settled k) (List.Subset.refl _) member
  values _ _ _ storer := filled.values_moves found arrays storer
  held _ _ := filled.held_moves found own fun _ _ _ _ held => held

theorem Filled.claimed {idx : Fin 2}
    (ran : run (step c) (start (PercentileSampleWindow.construct percentile m)) es = some s)
    (filled : Filled m b s) (found : s.calls[i]? = some call)
    (here : call.point = .addSample idx .count) (below : s.counts idx < m)
    (counts : shared.counts = Function.update s.counts idx (wrap 32 (s.counts idx + 1)))
    (arrays : shared.arrays = s.arrays) :
    Filled m
      { b with claimed := Function.update b.claimed idx (b.claimed idx ++ [(i, s.counts idx)]) }
      { shared with
        calls := s.calls.modify i (.moveTo (.addSample idx (.record (s.counts idx)))) } := by
  have grows (k : Fin 2) : b.claimed k ⊆
      Function.update b.claimed idx (b.claimed idx ++ [(i, s.counts idx)]) k := by
    by_cases same : k = idx
    · subst same
      rw [Function.update_self]
      exact List.subset_append_left ..
    · rw [Function.update_of_ne same]
      exact List.Subset.refl _
  have self := Pool.getElem?_modify_self (Call.moveTo (.addSample idx (.record (s.counts idx)))) found
  constructor
  · intro k n nonneg less room
    have less : n < Function.update s.counts idx (wrap 32 (s.counts idx + 1)) k :=
      less.trans_eq (congrFun counts k)
    by_cases same : k = idx
    · subst same
      rw [Function.update_self] at less
      rcases Int.lt_or_eq_of_le (le_of_lt_wrap_succ (counts_lower ran k) nonneg less) with
        earlier | rfl
      · obtain ⟨j, member⟩ := filled.reached k n nonneg earlier room
        exact ⟨j, grows k member⟩
      · refine ⟨i, ?_⟩
        dsimp only
        rw [Function.update_self]
        exact List.mem_append_right _ (List.mem_singleton_self _)
    · rw [Function.update_of_ne same] at less
      obtain ⟨j, member⟩ := filled.reached k n nonneg less room
      exact ⟨j, grows k member⟩
  · intro k claim member
    by_cases same : k = idx
    · subst same
      dsimp only at member
      rw [Function.update_self] at member
      rcases List.mem_append.mp member with earlier | new
      · exact filled.stored_moves found (by simp [here]) (grows k) earlier
      · obtain rfl := List.mem_singleton.mp new
        refine .inl ?_
        rw [Pending, self]
        rfl
    · dsimp only at member
      rw [Function.update_of_ne same] at member
      exact filled.stored_moves found (by simp [here]) (grows k) member
  · exact fun _ _ _ storer => filled.values_moves found arrays storer
  · intro j call' found'
    have own : (Point.addSample idx (.record (s.counts idx))).Held m
        { b with claimed := Function.update b.claimed idx (b.claimed idx ++ [(i, s.counts idx)]) } :=
      below
    exact filled.held_moves found own (fun _ _ _ _ held => held.mono grows) found'

/-- Beyond the bound no entry is claimed. -/
theorem Filled.full {idx : Fin 2} (filled : Filled m b s) (found : s.calls[i]? = some call)
    (here : call.point = .addSample idx .count) (above : m ≤ s.counts idx)
    (counts : shared.counts = Function.update s.counts idx (wrap 32 (s.counts idx + 1)))
    (arrays : shared.arrays = s.arrays) (own : point.Held m b) :
    Filled m b { shared with calls := s.calls.modify i (.moveTo point) } where
  reached := by
    intro k n nonneg less room
    have less : n < Function.update s.counts idx (wrap 32 (s.counts idx + 1)) k :=
      less.trans_eq (congrFun counts k)
    by_cases same : k = idx
    · subst same
      exact filled.reached k n nonneg (room.trans_le above) room
    · rw [Function.update_of_ne same] at less
      exact filled.reached k n nonneg less room
  stored _ _ member := filled.stored_moves found (by simp [here]) (List.Subset.refl _) member
  values _ _ _ storer := filled.values_moves found arrays storer
  held j call' := filled.held_moves found own fun _ _ _ _ held => held

/-- The entry is the caller's own, or all who have claimed it since the last `Reset` have yet
to store it. -/
theorem Filled.stored_recorded {idx k : Fin 2} {index : Int} {claim : Nat × Int}
    (filled : Filled m b s) (found : s.calls[i]? = some call)
    (here : call.point = .addSample idx (.record index))
    (orderly : (i, index) ∈ b.claimed idx ∨
      ∀ claim ∈ b.claimed idx, claim.2 = index → Pending s.calls idx claim)
    (member : claim ∈ b.claimed k) : Pending (s.calls.modify i (.moveTo point)) k claim ∨
      ∃ j, (j, claim.2) ∈ b.claimed k ∧
        Function.update b.storer idx (Function.update (b.storer idx) index (some i)) k claim.2 =
          some j := by
  by_cases entry : k = idx ∧ claim.2 = index
  · obtain ⟨rfl, rfl⟩ := entry
    rw [Function.update_self, Function.update_self]
    rcases orderly with mine | pending
    · exact .inr ⟨i, mine, rfl⟩
    · by_cases self : claim.1 = i
      · refine .inr ⟨i, ?_, rfl⟩
        rw [← self]
        exact member
      · exact .inl ((pending claim member rfl).moves found fun also => absurd also self)
  · have same : Function.update b.storer idx (Function.update (b.storer idx) index (some i)) k
        claim.2 = b.storer k claim.2 := by
      by_cases slot : k = idx
      · subst slot
        rw [Function.update_self, Function.update_of_ne fun equal => entry ⟨rfl, equal⟩]
      · rw [Function.update_of_ne slot]
    rw [same]
    refine (filled.stored k claim member).imp_left fun pending => pending.moves found fun _ => ?_
    rw [here]
    rintro ⟨⟩
    exact entry ⟨rfl, rfl⟩

/-- The array holds what its storers have stored. -/
theorem Filled.values_recorded {idx k : Fin 2} {index : Int} {n j : Nat}
    (ran : run (step c) (start (PercentileSampleWindow.construct percentile m)) es = some s)
    (filled : Filled m b s) (found : s.calls[i]? = some call)
    (here : call.point = .addSample idx (.record index))
    (storer : Function.update b.storer idx (Function.update (b.storer idx) index (some i)) k n =
      some j) :
    ∃ call', (s.calls.modify i (.moveTo point))[j]? = some call' ∧
      (Function.update s.arrays idx
        (PercentileSampleWindow.store (s.arrays idx) (some index) call.sample.rttNs) k)[n]? =
        some call'.sample.rttNs := by
  have room : index < m := by
    have held := filled.held i call found
    rw [here] at held
    exact held
  by_cases slot : k = idx
  · subst slot
    rw [Function.update_self] at storer ⊢
    by_cases entry : (n : Int) = index
    · subst entry
      rw [Function.update_self, Option.some.injEq] at storer
      subst storer
      refine ⟨_, Pool.getElem?_modify_self (Call.moveTo point) found, ?_⟩
      refine PercentileSampleWindow.store_self ?_ _
      rw [(run_bounds ran k).2]
      exact_mod_cast room
    · rw [Function.update_of_ne entry] at storer
      rw [PercentileSampleWindow.store_other entry]
      exact filled.values_moves found rfl storer
  · rw [Function.update_of_ne slot] at storer ⊢
    exact filled.values_moves found rfl storer

theorem Filled.recorded {idx : Fin 2} {index : Int}
    (ran : run (step c) (start (PercentileSampleWindow.construct percentile m)) es = some s)
    (filled : Filled m b s) (found : s.calls[i]? = some call)
    (here : call.point = .addSample idx (.record index))
    (orderly : (i, index) ∈ b.claimed idx ∨
      ∀ claim ∈ b.claimed idx, claim.2 = index → Pending s.calls idx claim)
    (counts : shared.counts = s.counts)
    (arrays : shared.arrays = Function.update s.arrays idx
      (PercentileSampleWindow.store (s.arrays idx) (some index) call.sample.rttNs))
    (own : ∀ b, point.Held m b) :
    Filled m
      { b with
        storer := Function.update b.storer idx (Function.update (b.storer idx) index (some i)) }
      { shared with calls := s.calls.modify i (.moveTo point) } where
  reached k n nonneg below :=
    filled.reached k n nonneg (below.trans_eq (congrFun counts k))
  stored _ _ member := filled.stored_recorded found here orderly member
  values k n j storer := by
    show ∃ call', _ ∧ (shared.arrays k)[n]? = _
    rw [arrays]
    exact filled.values_recorded ran found here storer
  held _ _ :=
    filled.held_moves found (own _) fun _ _ _ _ held => held.mono fun _ => List.Subset.refl _

theorem Filled.cleared {old : Fin 2} {read : Aggregate}
    (ran : run (step c) (start (PercentileSampleWindow.construct percentile m)) es = some s)
    (filled : Filled m b s) (found : s.calls[i]? = some call)
    (here : call.point = .boundary old read (.reset .count))
    (counts : shared.counts = Function.update s.counts old 0) (arrays : shared.arrays = s.arrays)
    (own : ∀ b, point.Held m b) :
    Filled m { b with claimed := Function.update b.claimed old [] }
      { shared with calls := s.calls.modify i (.moveTo point) } := by
  constructor
  · intro k n nonneg below room
    have below : n < Function.update s.counts old 0 k := below.trans_eq (congrFun counts k)
    by_cases same : k = old
    · subst same
      rw [Function.update_self] at below
      omega
    · rw [Function.update_of_ne same] at below
      dsimp only
      rw [Function.update_of_ne same]
      exact filled.reached k n nonneg below room
  · intro k claim member
    dsimp only at member ⊢
    by_cases same : k = old
    · subst same
      rw [Function.update_self] at member
      contradiction
    · rw [Function.update_of_ne same] at member ⊢
      exact filled.stored_moves found (by simp [here]) (List.Subset.refl _) member
  · exact fun _ _ _ storer => filled.values_moves found arrays storer
  · intro j call' found'
    refine filled.held_moves found (own _) ?_ found'
    intro j call' before other held
    have free : call'.point.locked = false := by
      rw [← Bool.not_eq_true]
      intro locked
      exact other (locked_unique ran before found locked (by rw [here]; rfl))
    cases there : call'.point with
    | addSample idx pc =>
      rw [there] at held
      cases pc <;> trivial
    | boundary old' read' stage =>
      rw [there] at free
      contradiction
    | _ => trivial

theorem run_filled (ran : run (step c) (start (PercentileSampleWindow.construct percentile m)) es =
      some s) (orderly : Throughout c (PercentileSampleWindow.construct percentile m) Orderly es) :
    Filled m (claims (operations c (PercentileSampleWindow.construct percentile m) es)) s := by
  refine run_admitted (P := fun log s => Filled m (claims log) s) ?_ ?_ ?_ ran orderly
  · exact ⟨fun k n nonneg below => absurd nonneg (Int.not_le.mpr below), by simp [claims],
      by simp [claims], by simp [start]⟩
  · exact fun filled sample _ => filled.enters sample
  · intro es s i spurious call shared point ran _ filled found orderly moved
    rw [claims_concat]
    have orderly := orderly call found
    have bound (k : Fin 2) : (s.bounds k : Int) = m := by rw [(run_bounds ran k).1]
    obtain ⟨sample, here⟩ := call
    cases moved.entries with
    | claimed below counts arrays =>
      rw [bound] at below
      exact filled.claimed ran found rfl below counts arrays
    | full above counts arrays =>
      rw [bound] at above
      exact filled.full found rfl above counts arrays trivial
    | stored counts arrays =>
      exact filled.recorded ran found rfl orderly counts arrays fun _ => trivial
    | cleared counts arrays => exact filled.cleared ran found rfl counts arrays fun _ => trivial
    | looked same some =>
      rename_i old read
      subst same
      refine filled.still found rfl rfl (by simp) ⟨some, fun n nonneg below => ?_⟩
      have within := lt_min_iff.mp below
      rw [bound] at within
      exact filled.reached old n nonneg within.1 within.2
    | copied same more =>
      subst same
      have held := filled.held i _ found
      exact filled.still found rfl rfl (by simp) ⟨more, held.2⟩
    | other counts arrays silent settled released =>
      have same := silent (claims (operations c (PercentileSampleWindow.construct percentile m) es)) i
        sample shared.nextUpdateTimeNs
      rw [Call.operation, same]
      exact filled.still found counts arrays settled (Point.held_of_released released)
end Run

/-- In every run in which stores and copies come in order, each entry that a boundary copies
into its sort buffer is current. -/
theorem copied_entries_current (c : Config) (percentile : ℚ) (maxSamples : Nat) (es : List Event)
    (orderly : Throughout c (PercentileSampleWindow.construct percentile maxSamples) Orderly es) :
    Throughout c (PercentileSampleWindow.construct percentile maxSamples) CopiesCurrent es := by
  rintro before e after s rfl reached
  have admitted := orderly before e after s rfl reached
  have filled := run_filled reached orderly.left
  cases e with
  | onSample sample => trivial
  | advance i spurious =>
    intro call found old read usable buffer here
    have settled := admitted call found
    have held := filled.held i call found
    rw [here] at settled held
    obtain ⟨j, claimed⟩ := held.2 buffer.length (Int.natCast_nonneg _) held.1
    rcases filled.stored old _ claimed with pending | ⟨last, mine, storer⟩
    · exact absurd pending (settled _ claimed rfl)
    · exact ⟨last, mine, storer, filled.values old buffer.length last storer⟩

instance (calls : List (Call AddPoint TrackPoint ResetPoint)) (k : Fin 2) (claim : Nat × Int) :
    Decidable (Pending calls k claim) :=
  inferInstanceAs (Decidable (_ = _))

instance decidableOrderly (b : Claims) (calls : List (Call AddPoint TrackPoint ResetPoint))
    (i : Nat) : (point : Point AddPoint TrackPoint ResetPoint) → Decidable (point.Orderly b calls i)
  | .addSample _ (.record _) => inferInstanceAs (Decidable (_ ∨ _))
  | .boundary old _ (.trackedRtt (.loadEntry _ _)) =>
    inferInstanceAs (Decidable (∀ claim ∈ b.claimed old, _))
  | .addSample _ .count | .addSample _ .loadMin | .addSample _ (.exchangeMin _)
  | .addSample _ .loadMax | .addSample _ (.exchangeMax _) | .addSample _ .drop
  | .boundary _ _ (.trackedRtt .loadCount) | .boundary _ _ (.trackedRtt (.loadSum _))
  | .boundary _ _ (.reset _) | .boundary _ _ .loadCandidate | .boundary _ _ .loadMaxInflight
  | .boundary _ _ .loadSampleCount | .boundary _ _ .loadDidDrop | .boundary _ _ .storeActive
  | .boundary _ _ .storeDue | .boundary _ _ .callDelegate | .boundary _ _ .inDelegate | .loadActive
  | .loadDue | .tryLock | .reloadDue | .loadOld | .unlock | .returned => .isTrue trivial

instance (log : List (Operation AddPoint TrackPoint ResetPoint))
    (s : State PercentileSampleWindow AddPoint TrackPoint ResetPoint) :
    (e : Event) → Decidable (Orderly log s e)
  | .onSample _ => .isTrue trivial
  | .advance i _ => inferInstanceAs (Decidable (∀ call ∈ s.calls[i]?, _))

/-- The second call claims an entry and stores it before the first one closes the window. -/
def bothFilled : List Event :=
  [.onSample ⟨0, 5, 1, false⟩, .onSample ⟨0, 7, 1, false⟩] ++ List.replicate 3 (.advance 1) ++
    List.replicate 15 (.advance 0)

theorem bothFilled_current :
    ((run (step quickWindows) (start (PercentileSampleWindow.construct 1 4)) bothFilled).map
      fun s => s.calls.map Call.point) =
        some [.boundary 0 ⟨5, 7, 0, 0, false⟩ .loadMaxInflight, .addSample 0 .loadMin] ∧
    Throughout quickWindows (PercentileSampleWindow.construct 1 4) CopiesCurrent bothFilled :=
  ⟨by decide +kernel, copied_entries_current quickWindows 1 4 bothFilled
    (throughout_of_forall (by decide +kernel))⟩

/-- The second call has claimed the first entry and not yet stored it when the first one
closes the window. -/
def halfFilled : List Event :=
  [.onSample ⟨0, 5, 1, false⟩, .onSample ⟨0, 7, 1, false⟩] ++ List.replicate 2 (.advance 1) ++
    List.replicate 13 (.advance 0)

/-- The initial zero is copied. -/
theorem halfFilled_stale : ¬ ∀ (c : Config) percentile maxSamples es s,
    run (step c) (start (PercentileSampleWindow.construct percentile maxSamples)) es = some s →
      Throughout c (PercentileSampleWindow.construct percentile maxSamples) CopiesCurrent es := by
  intro always
  have reached : ((run (step quickWindows) (start (PercentileSampleWindow.construct 1 4))
      halfFilled).map fun s => s.calls) =
      some [⟨⟨0, 5, 1, false⟩, .boundary 0 ⟨5, 0, 0, 0, false⟩ (.trackedRtt (.loadEntry 2 []))⟩,
        ⟨⟨0, 7, 1, false⟩, .addSample 0 (.record 0)⟩] := by decide +kernel
  obtain ⟨s, ran, calls⟩ := Option.map_eq_some_iff.mp reached
  have more : (run (step quickWindows) (start (PercentileSampleWindow.construct 1 4))
      (halfFilled ++ [.advance 0])).isSome := by decide +kernel
  obtain ⟨t, later⟩ := Option.isSome_iff_exists.mp more
  have current := always quickWindows 1 4 _ t later halfFilled (.advance 0) [] s rfl ran
  obtain ⟨i, _, storer, _⟩ := current _ (by rw [calls]; rfl) 0 _ 2 [] rfl
  have nobody : (claims (operations quickWindows (PercentileSampleWindow.construct 1 4)
      halfFilled)).storer 0 0 = none := by decide +kernel
  exact absurd (nobody.symm.trans storer) (Option.some_ne_none i).symm
end Limen.WindowedLimit
