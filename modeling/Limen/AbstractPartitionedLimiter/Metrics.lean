import Limen.AbstractLimiter.Metrics
import Limen.AbstractPartitionedLimiter.Construction
import Limen.AbstractPartitionedLimiter.Declarations
import Limen.AbstractPartitionedLimiter.RejectDelay

/-! What a limiter tells about its partitions, through its accessors and its instruments, in terms
of the names that were declared and of the calls in progress. -/
namespace Limen.AbstractPartitionedLimiter
open AbstractLimiter AbstractLimiter.State Transition
open Builder (declaredNames lastPercent Declared)
variable {Ctx : Type}

namespace Config
variable (config : Config Ctx)

def partitionInflightCount (table : Table) (name : String) : Int :=
  match config.partitionIndexByName name with
  | none => -1
  | some index => table.busy index

def partitionLimitFor (table : Table) (name : String) : Int :=
  match config.partitionIndexByName name with
  | none => 0
  | some index => table.limit index

/-- `OnObserveInflight`: the global row and one for each partition. -/
def observeInflight (id : String) : List (Counters Table → Row) :=
  AbstractLimiter.observeInflight id ++ config.partitions.zipIdx.map fun part c =>
    ⟨[("id", id), ("partition", part.1.name)], c.sub.busy part.2⟩

def observePartitionLimit (id : String) : List (Counters Table → Row) :=
  config.partitions.zipIdx.map fun part c =>
    ⟨[("id", id), ("partition", part.1.name)], c.sub.limit part.2⟩
end Config

def Table.delayedThreadCount (table : Table) : Int := table.delayedThreads

/-- The names in a table: the declared ones in order and the synthetic one. -/
def partitionNames (calls : List (Builder.Call Ctx)) : List String :=
  declaredNames calls ++ [unknownPartitionName]

/-- The call counts in its partition. -/
def occupying : Phase Pc → Bool
  | .acquiring pc => pc.point = .reserve
  | .releasingPartition _ => true
  | phase => phase.outstanding

theorem occupies_of_routed {p q : Nat} {phase : Phase Pc} (routed : Routed q phase) :
    occupies p phase = (occupying phase && q == p) := by
  cases phase <;> simp only [Routed] at routed <;>
    simp [occupies, outstandingIn, reservingIn, releasingIn, occupying, Phase.outstanding, routed,
      beq_eq_decide]

namespace Builder.Declared
variable {calls : List (Builder.Call Ctx)} {config : Config Ctx} {name : String} {index : Nat}

theorem names (declared : Declared calls config) :
    config.partitions.map Partition.name = partitionNames calls := by
  rw [declared.partitions, List.map_append, List.map_map]
  exact congrArg (· ++ _) (List.map_id _)

/-- Names and positions of the table correspond. -/
theorem index_iff (declared : Declared calls config) :
    config.partitionIndexByName name = some index ↔ (partitionNames calls)[index]? = some name := by
  rw [declared.indexed, ← declared.names, List.getElem?_map]

theorem exists_index (declared : Declared calls config) (member : name ∈ partitionNames calls) :
    ∃ index, config.partitionIndexByName name = some index := by
  obtain ⟨index, found⟩ := List.mem_iff_getElem?.mp member
  exact ⟨index, declared.index_iff.mpr found⟩

theorem absent (declared : Declared calls config) (missing : name ∉ partitionNames calls) :
    config.partitionIndexByName name = none := by
  cases entered : config.partitionIndexByName name with
  | none => rfl
  | some index => exact absurd (List.mem_of_getElem? (declared.index_iff.mp entered)) missing

/-- Calls go where the first name leads that their resolvers give and the table has. -/
theorem resolves_iff (declared : Declared calls config)
    (entered : config.partitionIndexByName name = some index) (context : Ctx) :
    config.resolvePartition context = index ↔ config.firstNamed context = name := by
  obtain ⟨_, routed⟩ := declared.routed context
  constructor
  · rintro rfl
    have here := declared.index_iff.mp entered
    rw [declared.index_iff.mp routed] at here
    exact Option.some.inj here
  · rintro rfl
    rw [routed] at entered
    exact Option.some.inj entered

/-- Rows by position are rows by name. -/
theorem rows (declared : Declared calls config) {V : Type} (row : String → Nat → V)
    (named : String → V)
    (same : ∀ name index, config.partitionIndexByName name = some index →
      row name index = named name) :
    config.partitions.zipIdx.map (fun part => row part.1.name part.2) =
      (partitionNames calls).map named := by
  rw [← declared.names, List.map_map]
  refine List.ext_getElem? fun index => ?_
  rw [List.getElem?_map, List.getElem?_map, List.getElem?_zipIdx, Nat.zero_add]
  cases found : config.partitions[index]? with
  | none => rfl
  | some part =>
    refine congrArg some (same part.name index ?_)
    rw [declared.indexed, found]
    rfl
end Builder.Declared

section Run
variable {calls : List (Builder.Call Ctx)} {config : Config Ctx} {bypass : Ctx → Bool} {cap : Int}
  {es : List (Event Ctx)} {s t : State Ctx Table Pc} {p : Nat}

theorem computePartitionLimit_zero (config : Config Ctx) (globalLimit : Int) :
    config.computePartitionLimit globalLimit (.rat 0) = 1 := by
  simp [Config.computePartitionLimit]

/-- What the quotas of all caps have in common holds of a partition's quota at all times, also
between the stores of an update. -/
theorem run_quota {Q : Int → Prop}
    (common : ∀ globalLimit, Q (config.computePartitionLimit globalLimit (config.percent p)))
    (ran : run (step (limiter config bypass)) (initial config cap) es = some s) :
    Q (s.sub.limit p) := by
  refine invariant (P := fun s => Q (s.sub.limit p)) ?_ ran (common cap)
  intro s e t kept stepped
  rcases Construction.limiter_step (fun _ => rfl) rfl stepped with ⟨_, _, same⟩ | ⟨_, _, _, same⟩ |
    ⟨value, n, _, _, ⟨_, _, stored⟩ | ⟨_, _, same⟩⟩
  · rwa [same]
  · rwa [same]
  · rw [stored]
    simp only [recompute, Function.update_apply]
    split
    · rename_i here
      rw [← here]
      exact common value
    · exact kept
  · rwa [same]

theorem run_follows (ran : run (step (limiter config bypass)) (initial config cap) es = some s) :
    Construction.Follows config s :=
  invariant (fun follows stepped => Construction.follows_step rfl follows stepped) ran
    fun _ _ => rfl

/-- What a limiter tells under each name. -/
structure Reported (calls : List (Builder.Call Ctx)) (config : Config Ctx)
    (s : State Ctx Table Pc) : Prop where
  /-- The calls that count in a partition are those whose resolvers lead to its name. -/
  inflight : ∀ name ∈ partitionNames calls, config.partitionInflightCount s.sub name =
    s.requests.countP fun r => occupying r.phase && config.firstNamed r.context == name
  total : s.Settled →
    s.inflight = ((partitionNames calls).map (config.partitionInflightCount s.sub)).sum
  /-- Unless an update is in progress. -/
  limit : s.publishing = none → ∀ name ∈ declaredNames calls,
    config.partitionLimitFor s.sub name =
      config.computePartitionLimit s.limit (lastPercent calls name)
  atLeastOne : ∀ name ∈ partitionNames calls, 1 ≤ config.partitionLimitFor s.sub name
  fallback : config.partitionLimitFor s.sub unknownPartitionName = 1
  absent : ∀ name ∉ partitionNames calls, config.partitionInflightCount s.sub name = -1 ∧
    config.partitionLimitFor s.sub name = 0
  delayed : s.sub.delayedThreadCount = s.requests.countP fun r => delaying r.phase
  budgeted : s.sub.delayedThreadCount ≤ config.maxDelayedThreads

/-- The instruments emit what the accessors return, one row for each name. -/
structure Exported (calls : List (Builder.Call Ctx)) (config : Config Ctx) : Prop where
  distinct : (partitionNames calls).Nodup
  inflight : ∀ id, config.observeInflight id =
    AbstractLimiter.observeInflight id ++ (partitionNames calls).map fun name c =>
      ⟨[("id", id), ("partition", name)], config.partitionInflightCount c.sub name⟩
  limit : ∀ id, config.observePartitionLimit id =
    (partitionNames calls).map fun name c =>
      ⟨[("id", id), ("partition", name)], config.partitionLimitFor c.sub name⟩

theorem Builder.Declared.exported (declared : Declared calls config) : Exported calls config where
  distinct := declared.names ▸ declared.distinct
  inflight id := by
    refine congrArg (AbstractLimiter.observeInflight id ++ ·) (declared.rows
      (fun name index (c : Counters Table) =>
        (⟨[("id", id), ("partition", name)], c.sub.busy index⟩ : Row)) _ ?_)
    intro name index entered
    simp only [Config.partitionInflightCount, entered]
  limit id := by
    refine declared.rows (fun name index (c : Counters Table) =>
      (⟨[("id", id), ("partition", name)], c.sub.limit index⟩ : Row)) _ ?_
    intro name index entered
    simp only [Config.partitionLimitFor, entered]

theorem Builder.Declared.reported (declared : Declared calls config)
    (budget : 0 ≤ config.maxDelayedThreads)
    (ran : run (State.step (limiter config bypass)) (initial config cap) es = some s) :
    Reported calls config s where
  inflight := by
    intro name member
    obtain ⟨index, entered⟩ := declared.exists_index member
    simp only [Config.partitionInflightCount, entered]
    rw [busy_eq ran index]
    congr 1
    apply List.countP_congr
    intro r there
    obtain ⟨i, found⟩ := List.mem_iff_getElem?.mp there
    rw [occupies_of_routed (run_routed ran found)]
    simp [declared.resolves_iff entered]
  total := by
    intro settled
    have rows := declared.rows (fun _ index => s.sub.busy index)
      (config.partitionInflightCount s.sub) fun name index entered => by
        simp only [Config.partitionInflightCount, entered]
    have byIndex : config.partitions.zipIdx.map (fun part => s.sub.busy part.2) =
        (List.range config.partitions.length).map s.sub.busy := by
      rw [List.range_eq_range', ← List.zipIdx_map_snd, List.map_map]
      rfl
    have sum : ((List.range config.partitions.length).map s.sub.busy).sum =
        ∑ p ∈ Finset.range config.partitions.length, s.sub.busy p := rfl
    rw [← rows, byIndex, sum, inflight_eq_sum ran]
    refine Finset.sum_congr rfl fun p _ => ?_
    obtain ⟨noReserve, noRelease⟩ := settled_counts (p := p) settled
    rw [busy_eq ran p, countP_occupies, noReserve, noRelease]
    rfl
  limit := by
    intro idle name member
    obtain ⟨index, found⟩ := List.mem_iff_getElem?.mp member
    have entered : config.partitionIndexByName name = some index := by
      rw [declared.index_iff, partitionNames, List.getElem?_append_left, found]
      exact (List.getElem?_eq_some_iff.mp found).1
    have small := config.indexed _ _ entered
    have filled := run_follows ran
    simp only [Construction.Follows, idle] at filled
    have percent : config.percent index = lastPercent calls name := by
      rw [Config.percent, declared.partitions, List.getElem?_append_left, List.getElem?_map, found]
      · rfl
      · rw [List.length_map]
        exact (List.getElem?_eq_some_iff.mp found).1
    simp only [Config.partitionLimitFor, entered]
    rw [filled index small, percent]
  atLeastOne := by
    intro name member
    obtain ⟨index, entered⟩ := declared.exists_index member
    simp only [Config.partitionLimitFor, entered]
    exact run_quota (fun _ => le_max_left 1 _) ran
  fallback := by
    have entered : config.partitionIndexByName unknownPartitionName =
        some (declaredNames calls).length := by
      rw [declared.index_iff, partitionNames]
      simp
    have percent : config.percent (declaredNames calls).length = .rat 0 := by
      simp [Config.percent, declared.partitions]
    simp only [Config.partitionLimitFor, entered]
    refine run_quota (Q := (· = 1)) (fun globalLimit => ?_) ran
    rw [percent, computePartitionLimit_zero]
  absent := by
    intro name missing
    simp [Config.partitionInflightCount, Config.partitionLimitFor, declared.absent missing]
  delayed := delayedThreads_eq ran
  budgeted := delayedThreads_le budget ran
end Run

open Builder in
/-- Of the limiter that a builder makes, whatever the calls on the builder were: in every
interleaving the accessors tell the calls that count in a partition, its quota and the delayed
threads under the declared names, and the instruments emit the same under the same names. -/
theorem reported_by_name {calls : List (Builder.Call Ctx)} {strCat : Percent → String}
    {nanToInt cap : Int} {b : Builder Ctx} {config : Config Ctx} (bypass : Ctx → Bool)
    (made : run (Builder.step strCat nanToInt) {} calls = some b)
    (built : b.build strCat nanToInt = .ok (config, cap)) :
    Exported calls config ∧ ∀ es s,
      run (State.step (limiter config bypass)) (initial config cap) es = some s →
        Reported calls config s := by
  obtain ⟨specs, resolvers, accepted, _, rfl⟩ := build_accepted built
  have declared : Declared calls (.build specs resolvers b.maxDelayedThreads nanToInt) :=
    accepted.declared_build (holds_of_run made) _
  exact ⟨declared.exported, fun es s ran => declared.reported accepted.budget ran⟩

/-- A call of a declared partition and one that no resolver places. -/
def goldAndTin : List (Event String) :=
  [.tryAcquire "gold", .advance 0 {}, .advance 0 {}, .advance 0 {}, .tryAcquire "tin",
    .advance 1 {}, .advance 1 {}, .advance 1 {}, .advance 1 {}]

theorem goldAndTin_reported : ∃ config s,
    run (State.step (limiter config fun _ => false)) (initial config 10) goldAndTin = some s ∧
      config.partitionInflightCount s.sub "gold" = 1 ∧
      config.partitionInflightCount s.sub unknownPartitionName = 1 ∧ s.inflight = 1 ∧
      config.partitionLimitFor s.sub "gold" = 5 ∧ Exported goldBronzeSilver config ∧
      Reported goldBronzeSilver config s := by
  have accepted : (run (Builder.step (fun _ => "") 0) {} goldBronzeSilver).any (fun b =>
      (b.build (fun _ => "") 0).toOption.any fun made => made.2 = 10 &&
        (run (State.step (limiter made.1 fun _ => false)) (initial made.1 10) goldAndTin).any
          fun s => made.1.partitionInflightCount s.sub "gold" = 1 &&
            made.1.partitionInflightCount s.sub unknownPartitionName = 1 && s.inflight = 1 &&
            made.1.partitionLimitFor s.sub "gold" = 5) = true := by
    decide +kernel
  obtain ⟨b, made, ok⟩ := (Option.any_eq_true _ _).mp accepted
  obtain ⟨⟨config, cap⟩, found, ok⟩ := (Option.any_eq_true _ _).mp ok
  simp only [Bool.and_eq_true, decide_eq_true_eq] at ok
  obtain ⟨rfl, ok⟩ := ok
  obtain ⟨s, ran, ok⟩ := (Option.any_eq_true _ _).mp ok
  simp only [Bool.and_eq_true, decide_eq_true_eq] at ok
  obtain ⟨⟨⟨gold, unknown⟩, total⟩, quota⟩ := ok
  have built : b.build (fun _ => "") 0 = .ok (config, 10) := by
    cases result : b.build (fun _ => "") 0 with
    | error message =>
      rw [result] at found
      contradiction
    | ok value =>
      rw [result] at found
      exact congrArg _ (Option.some.inj found)
  obtain ⟨exported, reported⟩ := reported_by_name (fun _ => false) made built
  exact ⟨config, s, ran, gold, unknown, total, quota, exported, reported goldAndTin s ran⟩
end Limen.AbstractPartitionedLimiter
