import Limen.SampleWindow.Adders

/-! Samples that arrive at the same time. A window reports on them as it would if they had come
one after the other: of the average window each call adds its share to every field; of the
percentile window each has an entry of its own, and the order of the entries is not seen. -/
namespace Limen
open Transition

/-- The calls one after the other. -/
def SampleWindow.addAll {W : Type} [SampleWindow W] (w : W) (samples : List Sample) : W :=
  samples.foldl (fun w s => SampleWindow.addSample w s.rttNs s.inflight s.didDrop) w

/-- No method of `SampleWindow` that reads tells the windows apart. -/
structure SameReports {W : Type} [SampleWindow W] (w w' : W) : Prop where
  sampleCount : SampleWindow.sampleCount w = SampleWindow.sampleCount w'
  trackedRttNs : SampleWindow.trackedRttNs w = SampleWindow.trackedRttNs w'
  candidateRttNs : SampleWindow.candidateRttNs w = SampleWindow.candidateRttNs w'
  maxInflight : SampleWindow.maxInflight w = SampleWindow.maxInflight w'
  didDrop : SampleWindow.didDrop w = SampleWindow.didDrop w'

/-- Once all calls have returned, the window reports what it would if they had been made one
after the other, in any order. -/
def Lossless (W : Type) {τ ρ : Type} [AtomicWindow W AddPoint τ ρ] (Room : W → Nat → Prop) : Prop :=
  ∀ (w : W) (samples : List Sample) (es : List Adders.Event) (s : Adders W),
    Room w samples.length → run Adders.step (Adders.start w samples) es = some s → s.Finished →
      ∀ order : List Sample, order.Perm samples →
        SameReports s.window (SampleWindow.addAll w order)

namespace AverageSampleWindow

/-- The counters wrap, and add up all the same. -/
def contribute (w : AverageSampleWindow) (call : Adding) : AverageSampleWindow :=
  { w with
    sampleCount := if call.counted then wrap 32 (w.sampleCount + 1) else w.sampleCount
    sumRttNs := if call.recorded then wrap 64 (w.sumRttNs + call.sample.rttNs) else w.sumRttNs
  }.setExtremes (w.extremes.contribute call)

@[simp] theorem extremes_contribute (w : AverageSampleWindow) (call : Adding) :
    (w.contribute call).extremes = w.extremes.contribute call := rfl

theorem eq_of_fields {w w' : AverageSampleWindow} (count : w.sampleCount = w'.sampleCount)
    (sum : w.sumRttNs = w'.sumRttNs) (extremes : w.extremes = w'.extremes) : w = w' := by
  cases w
  cases w'
  cases count
  cases sum
  cases extremes
  rfl

instance : RightCommutative contribute where
  right_comm w first second := by
    apply eq_of_fields
    · simp only [contribute, setExtremes]
      split <;> split <;> rfl
    · simp only [contribute, setExtremes]
      split <;> split <;> first | rfl | exact wrap_right_comm ..
    · simp only [extremes_contribute]
      exact RightCommutative.right_comm ..

theorem contribute_returned (w : AverageSampleWindow) (s : Sample) :
    w.contribute ⟨s, none⟩ = w.addSample s.rttNs s.inflight s.didDrop := by
  apply eq_of_fields
  · rfl
  · rfl
  · rw [extremes_contribute, Extremes.contribute_returned]
    rfl

theorem sampleCount_contribute {w : AverageSampleWindow} {call : Adding}
    (counted : call.counted = true) :
    (w.contribute call).sampleCount = wrap 32 (w.sampleCount + 1) := if_pos counted

theorem sumRttNs_contribute {w : AverageSampleWindow} {call : Adding}
    (recorded : call.recorded = true) :
    (w.contribute call).sumRttNs = wrap 64 (w.sumRttNs + call.sample.rttNs) := if_pos recorded

theorem contribute_onward {v slot : AverageSampleWindow} {s : Sample} {spurious : Bool}
    {pc : AddPoint} {next : Option AddPoint} (due : Adding.Due ⟨s, some pc⟩)
    (added : (v.contribute ⟨s, some pc⟩).addStep s spurious pc = (slot, next)) :
    slot = v.contribute ⟨s, next⟩ ∧ Adding.Due ⟨s, next⟩ := by
  by_cases late : pc.late = true
  · rw [addStep_of_late _ _ _ late, Prod.mk.injEq] at added
    obtain ⟨rfl, moved⟩ := added
    obtain ⟨grown, dueNext⟩ := Extremes.contribute_onward spurious late due
      (extremes_contribute v ⟨s, some pc⟩)
    rw [moved] at grown dueNext
    have before : Adding.counted ⟨s, some pc⟩ = true ∧ Adding.recorded ⟨s, some pc⟩ = true :=
      Adding.settled_of_late (by simpa using late)
    have after : Adding.counted ⟨s, next⟩ = true ∧ Adding.recorded ⟨s, next⟩ = true :=
      Adding.settled_of_late fun pc' here => Extremes.addStep_late (moved.trans here)
    refine ⟨eq_of_fields ?_ ?_ grown, dueNext⟩
    · exact (sampleCount_contribute before.1).trans (sampleCount_contribute after.1).symm
    · exact (sumRttNs_contribute before.2).trans (sumRttNs_contribute after.2).symm
  · cases pc with
    | count =>
      cases added
      exact ⟨rfl, trivial⟩
    | record index =>
      cases added
      exact ⟨rfl, trivial⟩
    | _ => exact absurd rfl late

theorem contributes : Adders.Contributes (W := AverageSampleWindow) id contribute where
  due _ := trivial
  fresh w sample := eq_of_fields rfl rfl (by
    rw [extremes_contribute]
    exact Extremes.contribute_early rfl)
  onward due found added := by
    rw [id_eq] at found
    subst found
    exact contribute_onward due added

theorem lossless : Lossless AverageSampleWindow fun _ _ => True := by
  intro w samples es s _ ran finished order same
  have folded := contributes.finished_folded ran finished same
  simp only [contribute_returned] at folded
  have added : s.window = SampleWindow.addAll w order := folded
  rw [added]
  exact ⟨rfl, rfl, rfl, rfl, rfl⟩
end AverageSampleWindow

namespace PercentileSampleWindow
variable {w slot origin : PercentileSampleWindow} {base : Nat} {s : Adders PercentileSampleWindow}

theorem contributes : Adders.Contributes extremes Extremes.contribute where
  due _ := trivial
  fresh x sample := Extremes.contribute_early rfl
  onward := by
    intro w slot x s spurious pc next due found added
    by_cases late : pc.late = true
    · have stepped := (addStep_of_late w s spurious late).symm.trans added
      cases stepped
      exact Extremes.contribute_onward spurious late due found
    · cases pc with
      | count =>
        cases added
        have early : x.contribute ⟨s, some .count⟩ = x := Extremes.contribute_early rfl
        refine ⟨found.trans (early.trans ?_), ?_⟩
        · split <;> exact (Extremes.contribute_early rfl).symm
        · split <;> trivial
      | record index =>
        cases added
        exact ⟨found, trivial⟩
      | _ => exact absurd rfl late

/-- The array holds these RTTs above its first `base` entries, which are as they were. -/
structure Filled (origin : PercentileSampleWindow) (base : Nat) (rtts : List Int)
    (w : PercentileSampleWindow) : Prop where
  percentile_eq : w.percentile = origin.percentile
  maxSamples_eq : w.maxSamples = origin.maxSamples
  size : w.rtts.length = origin.rtts.length
  count : w.sampleCount = (base + rtts.length : Nat)
  entries : w.rtts.take (base + rtts.length) = origin.rtts.take base ++ rtts

/-- There is room for so many samples more, in the array that the constructor has made. -/
structure Room (w : PercentileSampleWindow) (more : Nat) : Prop where
  size : w.rtts.length = w.maxSamples
  maxSamples : w.maxSamples < 2 ^ 31
  counter : 0 ≤ w.sampleCount
  fits : w.sampleCount + more ≤ w.maxSamples

theorem Filled.sortBuffer_eq {rtts : List Int} (filled : Filled origin base rtts w)
    (fits : base + rtts.length ≤ origin.maxSamples) :
    w.sortBuffer = (origin.rtts.take base ++ rtts).insertionSort (· ≤ ·) := by
  have usable : (min w.sampleCount (w.maxSamples : Int)).toNat = base + rtts.length := by
    rw [filled.count, filled.maxSamples_eq]
    omega
  rw [sortBuffer, usable, filled.entries]

/-- The order of the entries is lost in the sorted snapshot. -/
theorem Filled.reports_eq {rtts others : List Int} {w' : PercentileSampleWindow}
    (filled : Filled origin base rtts w) (other : Filled origin base others w')
    (same : others.Perm rtts) (fits : base + rtts.length ≤ origin.maxSamples) :
    w.sampleCount = w'.sampleCount ∧ w.trackedRttNs = w'.trackedRttNs := by
  have length := same.length_eq
  have counts : w.sampleCount = w'.sampleCount := by rw [filled.count, other.count, length]
  have buffers : w.sortBuffer = w'.sortBuffer := by
    have permuted : (origin.rtts.take base ++ rtts).Perm (origin.rtts.take base ++ others) :=
      same.symm.append_left _
    have sorted := (List.perm_insertionSort (· ≤ ·) _).trans
      (permuted.trans (List.perm_insertionSort (· ≤ ·) _).symm)
    rw [filled.sortBuffer_eq fits, other.sortBuffer_eq (length ▸ fits)]
    exact sorted.eq_of_sortedLE List.sortedLE_insertionSort List.sortedLE_insertionSort
  have indices : w.readIndex = w'.readIndex := by
    rw [readIndex, readIndex, buffers, counts, filled.maxSamples_eq, other.maxSamples_eq,
      filled.percentile_eq, other.percentile_eq]
  refine ⟨counts, ?_⟩
  rw [trackedRttNs, trackedRttNs, counts, buffers, indices]

theorem Filled.addSample {rtts : List Int} (filled : Filled origin base rtts w)
    (sized : origin.rtts.length = origin.maxSamples) (small : origin.maxSamples < 2 ^ 31)
    (room : base + rtts.length < origin.maxSamples) (s : Sample) :
    Filled origin base (rtts ++ [s.rttNs]) (w.addSample s.rttNs s.inflight s.didDrop) where
  percentile_eq := filled.percentile_eq
  maxSamples_eq := filled.maxSamples_eq
  size := (length_store ..).trans filled.size
  count := by
    have counted : (w.addSample s.rttNs s.inflight s.didDrop).sampleCount =
        wrap 32 (w.sampleCount + 1) := rfl
    rw [counted, filled.count, wrap_eq (by decide) (by constructor <;> omega), List.length_append,
      List.length_singleton]
    omega
  entries := by
    have stored : (w.addSample s.rttNs s.inflight s.didDrop).rtts =
        w.rtts.set (base + rtts.length) s.rttNs := by
      have index : w.storeIndex = some ((base + rtts.length : Nat) : Int) := by
        rw [storeIndex, filled.count, filled.maxSamples_eq, if_pos (by omega)]
      have here : (w.addSample s.rttNs s.inflight s.didDrop).rtts =
        store w.rtts w.storeIndex s.rttNs := rfl
      rw [here, index, store, if_pos (Int.natCast_nonneg _), Int.toNat_natCast]
    have inside : base + rtts.length < w.rtts.length := by
      rw [filled.size, sized]
      exact room
    rw [stored, List.length_append, List.length_singleton, ← Nat.add_assoc, List.take_add_one,
      List.take_set_of_le (Nat.le_refl _), List.getElem?_set_self inside, filled.entries]
    exact List.append_assoc ..

/-- One after the other, the samples take the entries that follow. -/
theorem filled_addAll {samples : List Sample} {rtts : List Int} (filled : Filled origin base rtts w)
    (sized : origin.rtts.length = origin.maxSamples) (small : origin.maxSamples < 2 ^ 31)
    (room : base + rtts.length + samples.length ≤ origin.maxSamples) :
    Filled origin base (rtts ++ samples.map Sample.rttNs) (SampleWindow.addAll w samples) := by
  induction samples generalizing rtts w with
  | nil =>
    rw [List.map_nil, List.append_nil]
    exact filled
  | cons s samples ih =>
    rw [List.length_cons] at room
    have next := filled.addSample sized small (by omega) s
    rw [List.map_cons, List.append_cons]
    apply ih next
    rw [List.length_append, List.length_singleton]
    omega

/-! ### Entries claimed by the calls -/

/-- The calls that have incremented the counter are `claims`, in the order in which they have. Each
has the entry at its place there, and stores into no other. -/
structure Claimed (origin : PercentileSampleWindow) (base total : Nat) (claims : List Nat)
    (s : Adders PercentileSampleWindow) : Prop where
  percentile_eq : s.window.percentile = origin.percentile
  maxSamples_eq : s.window.maxSamples = origin.maxSamples
  size : s.window.rtts.length = origin.rtts.length
  total_eq : s.calls.length = total
  count : s.window.sampleCount = (base + claims.length : Nat)
  nodup : claims.Nodup
  within : ∀ i ∈ claims, i < total
  mem_claims : ∀ {i call}, s.calls[i]? = some call → (i ∈ claims ↔ call.counted = true)
  place : ∀ {i k call} {index : Int}, claims[k]? = some i → s.calls[i]? = some call →
    call.point = some (.record index) → index = (base + k : Nat)
  written : ∀ {i k call}, claims[k]? = some i → s.calls[i]? = some call → call.recorded = true →
    s.window.rtts[base + k]? = some call.sample.rttNs
  before : ∀ {n}, n < base → s.window.rtts[n]? = origin.rtts[n]?

variable {total : Nat} {claims : List Nat}

theorem claimed_start (counter : origin.sampleCount = (base : Nat)) (samples : List Sample) :
    Claimed origin base samples.length [] (Adders.start origin samples) where
  percentile_eq := rfl
  maxSamples_eq := rfl
  size := rfl
  total_eq := List.length_map ..
  count := counter
  nodup := List.nodup_nil
  within := by simp
  mem_claims := by
    intro i call found
    obtain ⟨sample, _, rfl⟩ := List.mem_map.mp (List.mem_of_getElem? found)
    simp [Adding.counted, AtomicWindow.addEntry]
  place := by simp
  written := by simp
  before _ := rfl

theorem length_le_of_nodup (nodup : claims.Nodup) (within : ∀ i ∈ claims, i < total) :
    claims.length ≤ total := by
  have subset : claims ⊆ List.range total := fun i member => List.mem_range.mpr (within i member)
  have atMost := (List.subperm_of_subset nodup subset).length_le
  rwa [List.length_range] at atMost

theorem Claimed.inside (claimed : Claimed origin base total claims s) {i : Nat} {call : Adding}
    (present : s.calls[i]? = some call) : i < total :=
  claimed.total_eq ▸ (List.getElem?_eq_some_iff.mp present).1

theorem Claimed.outside (claimed : Claimed origin base total claims s) {i : Nat} {sample : Sample}
    (present : s.calls[i]? = some ⟨sample, some .count⟩) : i ∉ claims := by
  intro member
  have counted := (claimed.mem_claims present).mp member
  contradiction

/-- While a call has no place, there is one left. -/
theorem Claimed.length_lt (claimed : Claimed origin base total claims s) {i : Nat} {sample : Sample}
    (present : s.calls[i]? = some ⟨sample, some .count⟩) : claims.length < total := by
  have nodup : (i :: claims).Nodup := List.nodup_cons.mpr ⟨claimed.outside present, claimed.nodup⟩
  refine length_le_of_nodup nodup ?_
  rintro j (_ | ⟨_, member⟩)
  · exact claimed.inside present
  · exact claimed.within j member

theorem Claimed.place_unique (claimed : Claimed origin base total claims s) {i k k' : Nat}
    (here : claims[k]? = some i) (there : claims[k']? = some i) : k' = k :=
  (List.getElem?_inj (List.getElem?_eq_some_iff.mp there).1 claimed.nodup).mp (there.trans here.symm)

/-- A call takes the next place. -/
theorem Claimed.claim (claimed : Claimed origin base total claims s)
    (small : origin.maxSamples < 2 ^ 31) (room : base + total ≤ origin.maxSamples) {i : Nat}
    {sample : Sample} (present : s.calls[i]? = some ⟨sample, some .count⟩) :
    Claimed origin base total (claims ++ [i])
      { window := { s.window with sampleCount := wrap 32 (s.window.sampleCount + 1) }
        calls := s.calls.modify i (Adding.moveTo (some (.record s.window.sampleCount))) } := by
  have outside := claimed.outside present
  have shorter := claimed.length_lt present
  -- Whoever has a place already is another call, at the place it had.
  have earlier {j k : Nat} (there : (claims ++ [i])[k]? = some j) :
      (j ≠ i ∧ claims[k]? = some j) ∨ (j = i ∧ k = claims.length) := by
    rcases Pool.getElem?_concat_eq_some.mp there with old | ⟨last, rfl⟩
    · exact .inl ⟨fun same => outside (same ▸ List.mem_of_getElem? old), old⟩
    · exact .inr ⟨rfl, last⟩
  have counted : wrap 32 (s.window.sampleCount + 1) = (base + (claims ++ [i]).length : Nat) := by
    rw [claimed.count, wrap_eq (by decide) (by constructor <;> omega), List.length_append,
      List.length_singleton]
    omega
  exact {
    percentile_eq := claimed.percentile_eq
    maxSamples_eq := claimed.maxSamples_eq
    size := claimed.size
    total_eq := (List.length_modify ..).trans claimed.total_eq
    count := counted
    nodup := by
      rw [← List.concat_eq_append]
      exact claimed.nodup.concat outside
    within := by
      intro j member
      rcases List.mem_append.mp member with old | new
      · exact claimed.within j old
      · obtain rfl := List.mem_singleton.mp new
        exact claimed.inside present
    mem_claims := by
      intro j call found
      rcases Pool.getElem?_modify_cases present found with ⟨rfl, rfl⟩ | ⟨other, old⟩
      · exact iff_of_true (List.mem_append_right _ (List.mem_singleton_self _)) rfl
      · rw [List.mem_append, List.mem_singleton, or_iff_left other]
        exact claimed.mem_claims old
    place := by
      intro j k call index there found point
      rcases earlier there with ⟨other, there⟩ | ⟨rfl, rfl⟩
      · rw [Pool.getElem?_modify_other _ other] at found
        exact claimed.place there found point
      · rw [Pool.getElem?_modify_self _ present] at found
        cases found
        cases point
        exact claimed.count
    written := by
      intro j k call there found recorded
      rcases earlier there with ⟨other, there⟩ | ⟨rfl, rfl⟩
      · rw [Pool.getElem?_modify_other _ other] at found
        exact claimed.written there found recorded
      · rw [Pool.getElem?_modify_self _ present] at found
        cases found
        contradiction
    before := claimed.before }

/-- A call that has its place moves on, and what it has stored is at that place. -/
theorem Claimed.onward (claimed : Claimed origin base total claims s) {i k : Nat} {call : Adding}
    {next : Option AddPoint} (present : s.calls[i]? = some call) (here : claims[k]? = some i)
    (late : ∀ pc, next = some pc → pc.late = true)
    (percentile : slot.percentile = s.window.percentile)
    (maxSamples : slot.maxSamples = s.window.maxSamples)
    (count : slot.sampleCount = s.window.sampleCount)
    (size : slot.rtts.length = s.window.rtts.length)
    (own : slot.rtts[base + k]? = some call.sample.rttNs)
    (others : ∀ n, n ≠ base + k → slot.rtts[n]? = s.window.rtts[n]?) :
    Claimed origin base total claims
      { window := slot, calls := s.calls.modify i (Adding.moveTo next) } where
  percentile_eq := percentile.trans claimed.percentile_eq
  maxSamples_eq := maxSamples.trans claimed.maxSamples_eq
  size := size.trans claimed.size
  total_eq := (List.length_modify ..).trans claimed.total_eq
  count := count.trans claimed.count
  nodup := claimed.nodup
  within := claimed.within
  mem_claims := by
    intro j call' found
    rcases Pool.getElem?_modify_cases present found with ⟨rfl, rfl⟩ | ⟨_, old⟩
    · exact iff_of_true (List.mem_of_getElem? here) (Adding.settled_of_late late).1
    · exact claimed.mem_claims old
  place := by
    intro j k' call' index there found point
    rcases Pool.getElem?_modify_cases present found with ⟨rfl, rfl⟩ | ⟨_, old⟩
    · have recording := late _ point
      contradiction
    · exact claimed.place there old point
  written := by
    intro j k' call' there found recorded
    rcases Pool.getElem?_modify_cases present found with ⟨rfl, rfl⟩ | ⟨other, old⟩
    · obtain rfl := claimed.place_unique here there
      exact own
    · have apart : k' ≠ k := by
        rintro rfl
        exact other (Option.some.inj (there.symm.trans here))
      rw [others (base + k') (by omega)]
      exact claimed.written there old recorded
  before := by
    intro n low
    rw [others n (by omega)]
    exact claimed.before low

theorem Claimed.step (claimed : Claimed origin base total claims s)
    (sized : origin.rtts.length = origin.maxSamples) (small : origin.maxSamples < 2 ^ 31)
    (room : base + total ≤ origin.maxSamples) {e : Adders.Event} {t : Adders PercentileSampleWindow}
    (stepped : s.step e = some t) : ∃ claims, Claimed origin base total claims t := by
  obtain ⟨⟨sample, _⟩, pc, slot, next, present, rfl, added, rfl⟩ := Adders.step_cases stepped
  have placed (counted : Adding.counted ⟨sample, some pc⟩ = true) :
      ∃ k, claims[k]? = some e.call :=
    List.mem_iff_getElem?.mp ((claimed.mem_claims present).mpr counted)
  have added : s.window.addStep sample e.spurious pc = (slot, next) := added
  rcases addStep_cases added with
    ⟨rfl, rfl, rfl⟩ | ⟨index, rfl, rfl, rfl⟩ | ⟨late, ⟨x, rfl⟩, onward⟩
  · have shorter := claimed.length_lt present
    have free : s.window.sampleCount < s.window.maxSamples := by
      rw [claimed.count, claimed.maxSamples_eq]
      omega
    rw [if_pos free]
    exact ⟨_, claimed.claim small room present⟩
  · obtain ⟨k, here⟩ := placed rfl
    obtain rfl := claimed.place here present rfl
    have inside : base + k < s.window.rtts.length := by
      have short := (List.getElem?_eq_some_iff.mp here).1
      have shorter := length_le_of_nodup claimed.nodup claimed.within
      rw [claimed.size, sized]
      omega
    refine ⟨claims, claimed.onward present here ?_ rfl rfl rfl ?_ (store_self inside sample.rttNs) ?_⟩
    · rintro _ ⟨⟩
      rfl
    · simp only [length_store]
    · intro n other
      have apart : (n : Int) ≠ (base + k : Nat) := by omega
      exact store_other apart s.window.rtts sample.rttNs
  · have settled : Adding.counted ⟨sample, some pc⟩ = true ∧
        Adding.recorded ⟨sample, some pc⟩ = true := Adding.settled_of_late (by simpa using late)
    obtain ⟨k, here⟩ := placed settled.1
    exact ⟨claims, claimed.onward present here onward rfl rfl rfl rfl
      (claimed.written here present settled.2) fun _ _ => rfl⟩

/-- The RTTs of the calls that have a place. -/
def claimedRtts (claims : List Nat) (calls : List Adding) : List Int :=
  claims.map fun i => (calls[i]?.map fun call => call.sample.rttNs).getD 0

theorem claimedRtts_perm {calls : List Adding} (everyone : claims.Perm (List.range calls.length)) :
    (claimedRtts claims calls).Perm (calls.map fun call => call.sample.rttNs) := by
  have all : claimedRtts (List.range calls.length) calls =
      calls.map fun call => call.sample.rttNs := by
    apply List.ext_getElem
    · simp [claimedRtts]
    · intro i _ inside
      rw [List.length_map] at inside
      simp [claimedRtts, inside]
  exact all ▸ everyone.map _

/-- When all calls have returned, each has a place and has stored its RTT there. -/
theorem Claimed.filled (claimed : Claimed origin base total claims s)
    (inside : base ≤ origin.rtts.length) (finished : s.Finished) :
    ∃ rtts, rtts.Perm (s.calls.map fun call => call.sample.rttNs) ∧
      Filled origin base rtts s.window := by
  have returned {i : Nat} {call : Adding} (found : s.calls[i]? = some call) :
      call.counted = true ∧ call.recorded = true := by
    have none := finished call (List.mem_of_getElem? found)
    exact Adding.settled_of_late (by simp [none])
  have everyone : claims.Perm (List.range s.calls.length) := by
    refine (List.perm_ext_iff_of_nodup claimed.nodup List.nodup_range).mpr fun i => ?_
    rw [List.mem_range]
    constructor
    · exact fun member => claimed.total_eq ▸ claimed.within i member
    · intro inside
      have found := List.getElem?_eq_getElem inside
      exact (claimed.mem_claims found).mpr (returned found).1
  have length : (claimedRtts claims s.calls).length = claims.length := List.length_map ..
  refine ⟨claimedRtts claims s.calls, claimedRtts_perm everyone, claimed.percentile_eq,
    claimed.maxSamples_eq, claimed.size, length ▸ claimed.count, ?_⟩
  have untouched : (origin.rtts.take base).length = base := List.length_take_of_le inside
  apply List.ext_getElem?
  intro n
  rw [length]
  by_cases low : n < base
  · rw [List.getElem?_take_of_lt (by omega), claimed.before low,
      List.getElem?_append_left (by omega), List.getElem?_take_of_lt low]
  · obtain ⟨k, rfl⟩ := Nat.exists_eq_add_of_le (Nat.not_lt.mp low)
    rw [List.getElem?_append_right (by omega), untouched, Nat.add_sub_cancel_left, claimedRtts,
      List.getElem?_map]
    cases there : claims[k]? with
    | none =>
      have beyond := List.getElem?_eq_none_iff.mp there
      rw [List.getElem?_take_eq_none (by omega)]
      rfl
    | some i =>
      have short := (List.getElem?_eq_some_iff.mp there).1
      have member : i < s.calls.length :=
        claimed.total_eq ▸ claimed.within i (List.mem_of_getElem? there)
      have found := List.getElem?_eq_getElem member
      rw [List.getElem?_take_of_lt (by omega), claimed.written there found (returned found).2,
        Option.map_some, found]
      rfl

theorem extremes_addAll (w : PercentileSampleWindow) (samples : List Sample) :
    (SampleWindow.addAll w samples).extremes = samples.foldl Extremes.add w.extremes :=
  (List.foldl_hom extremes fun _ _ => rfl).symm

theorem lossless : Lossless PercentileSampleWindow Room := by
  intro w samples es s room ran finished order same
  obtain ⟨base, counter⟩ := Int.eq_ofNat_of_zero_le room.counter
  have fits : base + samples.length ≤ w.maxSamples := by
    have fits := room.fits
    omega
  obtain ⟨claims, claimed⟩ : ∃ claims, Claimed w base samples.length claims s := by
    refine invariant (P := fun s => ∃ claims, Claimed w base samples.length claims s) ?_ ran
      ⟨[], claimed_start counter samples⟩
    rintro s e t ⟨claims, claimed⟩ stepped
    exact claimed.step room.size room.maxSamples fits stepped
  obtain ⟨rtts, permuted, filled⟩ := claimed.filled (by rw [room.size]; omega) finished
  have initial : Filled w base [] w := ⟨rfl, rfl, rfl, counter, by simp⟩
  have others : Filled w base (order.map Sample.rttNs) (SampleWindow.addAll w order) := by
    refine filled_addAll initial room.size room.maxSamples ?_
    rw [same.length_eq]
    exact fits
  have extremes : s.window.extremes = (SampleWindow.addAll w order).extremes := by
    have folded := contributes.finished_folded ran finished same
    simp only [Extremes.contribute_returned] at folded
    exact folded.trans (extremes_addAll w order).symm
  have values : (order.map Sample.rttNs).Perm rtts := by
    refine (same.map _).trans (.trans (.of_eq ?_) permuted.symm)
    rw [← Adders.run_samples ran, List.map_map]
    rfl
  obtain ⟨count, tracked⟩ := filled.reports_eq others values (by
    rw [← values.length_eq, List.length_map, same.length_eq]
    exact fits)
  exact ⟨count, tracked, congrArg Extremes.minRttNs extremes, congrArg Extremes.maxInflight extremes,
    congrArg Extremes.didDrop extremes⟩
end PercentileSampleWindow

/-- Samples that arrive at the same time are not lost in either window, whatever its state, if the
array of the percentile window has room for them. -/
theorem concurrent_samples_lossless : Lossless AverageSampleWindow (fun _ _ => True) ∧
    Lossless PercentileSampleWindow PercentileSampleWindow.Room :=
  ⟨AverageSampleWindow.lossless, PercentileSampleWindow.lossless⟩

/-- Two calls whose operations cross. Each of them loses an exchange to the other, and the first one
another exchange to nobody. -/
def crossing : List Adders.Event :=
  [⟨0, false⟩, ⟨1, false⟩, ⟨1, false⟩, ⟨0, false⟩, ⟨0, false⟩, ⟨1, false⟩, ⟨1, false⟩, ⟨0, false⟩,
    ⟨0, false⟩, ⟨1, false⟩, ⟨0, true⟩, ⟨0, false⟩, ⟨1, false⟩, ⟨1, false⟩, ⟨0, false⟩]

theorem crossing_lossless :
    let first : Sample := ⟨0, 5, 3, true⟩
    let second : Sample := ⟨0, 4, 4, false⟩
    let averaged : AverageSampleWindow := ⟨2, 9, 4, 4, true⟩
    let ranked : PercentileSampleWindow := ⟨1 / 2, 2, [5, 4], 2, 4, 4, true⟩
    (run Adders.step (Adders.start ({} : AverageSampleWindow) [first, second]) crossing =
          some ⟨averaged, [⟨first, none⟩, ⟨second, none⟩]⟩ ∧
        SameReports averaged (SampleWindow.addAll {} [second, first])) ∧
      run Adders.step (Adders.start (PercentileSampleWindow.construct (1 / 2) 2) [first, second])
          crossing = some ⟨ranked, [⟨first, none⟩, ⟨second, none⟩]⟩ ∧
        SameReports ranked
          (SampleWindow.addAll (PercentileSampleWindow.construct (1 / 2) 2) [second, first]) := by
  intro first second averaged ranked
  have averages : run Adders.step (Adders.start ({} : AverageSampleWindow) [first, second]) crossing =
      some ⟨averaged, [⟨first, none⟩, ⟨second, none⟩]⟩ := by
    decide +kernel
  have ranks : run Adders.step (Adders.start (PercentileSampleWindow.construct (1 / 2) 2)
      [first, second]) crossing = some ⟨ranked, [⟨first, none⟩, ⟨second, none⟩]⟩ := by
    decide +kernel
  have room : (PercentileSampleWindow.construct (1 / 2) 2).Room [first, second].length :=
    ⟨rfl, by decide, by decide, by decide⟩
  exact ⟨⟨averages, concurrent_samples_lossless.1 _ _ _ _ trivial averages (by decide) _ (.swap ..)⟩,
    ranks, concurrent_samples_lossless.2 _ _ _ _ room ranks (by decide) _ (.swap ..)⟩
end Limen
