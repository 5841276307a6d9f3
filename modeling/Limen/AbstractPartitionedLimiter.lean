import Limen.AbstractLimiter
import Mathlib.Data.Rat.Floor

/-! `AbstractPartitionedLimiter`: the partition table, its quotas and the two-branch gate.
A percentage is an exact rational or NaN. -/
namespace Limen.AbstractPartitionedLimiter
open AbstractLimiter

inductive Percent where
  | nan
  | rat (value : ℚ)
  deriving DecidableEq, Repr

/-- The fields of `Partition` that do not change. -/
structure Partition where
  name : String
  percent : Percent
  rejectDelay : Int
  deriving DecidableEq, Repr

def unknownPartitionName : String := "unknown"

/-- The runtime table of a limiter. The last partition is the synthetic one, and every
index a lookup can give is one of the table. -/
structure Config (Ctx : Type) where
  partitions : List Partition
  partitionIndexByName : String → Option Nat
  resolvers : List (Ctx → Option String)
  unknownPartitionIndex : Nat
  maxDelayedThreads : Int
  /-- What converting a NaN to `int` yields; the language leaves it open. -/
  nanToInt : Int
  indexed : ∀ name index, partitionIndexByName name = some index → index < partitions.length
  unknown : unknownPartitionIndex < partitions.length

/-- `partition_index_by_name[spec.name] = index`. -/
def enterIndex (table : String → Option Nat) (entry : Partition × Nat) : String → Option Nat :=
  Function.update table entry.1.name (some entry.2)

def indexByName (specs : List Partition) : String → Option Nat :=
  specs.zipIdx.foldl enterIndex fun _ => none

theorem foldl_enterIndex_lt {bound : Nat} {entries : List (Partition × Nat)}
    {table : String → Option Nat} (bounded : ∀ entry ∈ entries, entry.2 < bound)
    (initial : ∀ name index, table name = some index → index < bound) {name : String} {index : Nat}
    (found : entries.foldl enterIndex table name = some index) : index < bound := by
  induction entries generalizing table with
  | nil => exact initial name index found
  | cons entry rest ih =>
    refine ih (fun other member => bounded other (List.mem_cons_of_mem _ member)) ?_ found
    intro other position atOther
    rw [enterIndex, Function.update_apply] at atOther
    split at atOther
    · cases atOther
      exact bounded entry List.mem_cons_self
    · exact initial other position atOther

theorem indexByName_lt {specs : List Partition} {name : String} {index : Nat}
    (found : indexByName specs name = some index) : index < specs.length := by
  refine foldl_enterIndex_lt ?_ (by simp) found
  intro entry member
  obtain ⟨_, bound, _⟩ := List.mem_zipIdx (x := entry.1) (i := entry.2) member
  omega

variable {Ctx : Type}

/-- The table that `Build` makes from the declared partitions. -/
def Config.build (specs : List Partition) (resolvers : List (Ctx → Option String))
    (maxDelayedThreads nanToInt : Int) : Config Ctx where
  partitions := specs ++ [⟨unknownPartitionName, .rat 0, 0⟩]
  partitionIndexByName :=
    Function.update (indexByName specs) unknownPartitionName (some specs.length)
  resolvers := resolvers
  unknownPartitionIndex := specs.length
  maxDelayedThreads := maxDelayedThreads
  nanToInt := nanToInt
  indexed := by
    intro name index found
    rw [List.length_append, List.length_singleton]
    rw [Function.update_apply] at found
    split at found
    · cases found
      omega
    · have bound := indexByName_lt found
      omega
  unknown := by simp

namespace Config
variable (config : Config Ctx)

def resolve (context : Ctx) : List (Ctx → Option String) → Nat
  | [] => config.unknownPartitionIndex
  | resolver :: rest =>
    match resolver context with
    | none => resolve context rest
    | some name =>
      match config.partitionIndexByName name with
      | some index => index
      | none => resolve context rest

def resolvePartition (context : Ctx) : Nat := config.resolve context config.resolvers

theorem resolvePartition_lt (context : Ctx) :
    config.resolvePartition context < config.partitions.length := by
  rw [resolvePartition]
  induction config.resolvers with
  | nil => exact config.unknown
  | cons resolver rest ih =>
    rw [resolve]
    split
    · exact ih
    · split
      · exact config.indexed _ _ ‹_›
      · exact ih

def computePartitionLimit (globalLimit : Int) (percent : Percent) : Int :=
  let computed := match percent with
    | .rat value => ⌈globalLimit * value⌉
    | .nan => config.nanToInt
  max 1 computed

def percent (p : Nat) : Percent := (config.partitions[p]?.map Partition.percent).getD (.rat 0)

def rejectDelay (p : Nat) : Int := (config.partitions[p]?.map Partition.rejectDelay).getD 0
end Config

/-- The atomics of the subclass. -/
structure Table where
  busy : Nat → Int
  limit : Nat → Int
  delayedThreads : Int

/-- The program points of `DoAcquire`, with the value a loop carries. The last four are in
`MaybeBackoffDelay`. -/
inductive Point where
  | loadInflight
  | loadLimit (inflight : Int)
  | burst
  | loadBusy
  | loadQuota (current : Int)
  | exchange (current : Int)
  | reserve
  | loadDelayed
  | exchangeDelayed (current : Int)
  | sleep
  | wake
  deriving DecidableEq, Repr

/-- `partition_index` is resolved before the first atomic operation. -/
structure Pc where
  partitionIndex : Nat
  point : Point
  deriving DecidableEq, Repr

def Table.addBusy (t : Table) (p : Nat) (delta : Int) : Table :=
  { t with busy := Function.update t.busy p (t.busy p + delta) }

/-- The loop condition of `MaybeBackoffDelay`. -/
def Config.backoff (config : Config Ctx) (current : Int) : Progress Point :=
  if current < config.maxDelayedThreads then .running (.exchangeDelayed current)
  else .finished none

/-- One atomic operation of a call on partition `p`. -/
def Config.operation (config : Config Ctx) (limit : Int) (gauge : Gauge Table) (p : Nat)
    (spurious : Bool) : Point → Gauge Table × Progress Point
  | .loadInflight => (gauge, .running (.loadLimit gauge.inflight))
  | .loadLimit inflight => (gauge, .running (if inflight ≥ limit then .loadBusy else .burst))
  -- Burst into idle capacity: the partition counter may run above its own quota.
  | .burst => ({ gauge with sub := gauge.sub.addBusy p 1 }, .running .reserve)
  | .loadBusy => (gauge, .running (.loadQuota (gauge.sub.busy p)))
  | .loadQuota current =>
    (gauge,
      if current ≥ gauge.sub.limit p then
        if config.rejectDelay p = 0 then .finished none else .running .loadDelayed
      else .running (.exchange current))
  | .exchange current =>
    if gauge.sub.busy p = current ∧ ¬ spurious then
      ({ gauge with sub := gauge.sub.addBusy p 1 }, .running .reserve)
    else (gauge, .running (.loadQuota (gauge.sub.busy p)))
  | .reserve =>
    ({ gauge with inflight := gauge.inflight + 1 }, .finished (some ⟨gauge.inflight + 1, p⟩))
  | .loadDelayed => (gauge, config.backoff gauge.sub.delayedThreads)
  | .exchangeDelayed current =>
    if gauge.sub.delayedThreads = current ∧ ¬ spurious then
      ({ gauge with sub := { gauge.sub with delayedThreads := current + 1 } }, .running .sleep)
    else (gauge, config.backoff gauge.sub.delayedThreads)
  | .sleep => (gauge, .running .wake)
  | .wake =>
    ({ gauge with sub := { gauge.sub with delayedThreads := gauge.sub.delayedThreads - 1 } },
      .finished none)

def Pc.progress (p : Nat) : Progress Point → Progress Pc
  | .running point => .running ⟨p, point⟩
  | .finished result => .finished result

def doAcquire (config : Config Ctx) (limit : Int) (gauge : Gauge Table) (pc : Pc)
    (spurious : Bool) : Gauge Table × Progress Pc :=
  let done := config.operation limit gauge pc.partitionIndex spurious pc.point
  (done.1, Pc.progress pc.partitionIndex done.2)

def onReleasePartition (partitionIndex : Int) (t : Table) : Table :=
  t.addBusy partitionIndex.toNat (-1)

/-- One store of `RecomputePartitionLimits`. -/
def recompute (config : Config Ctx) (newLimit : Int) (p : Nat) (t : Table) : Table :=
  { t with
    limit := Function.update t.limit p (config.computePartitionLimit newLimit (config.percent p)) }

theorem backoff_not_admitted (config : Config Ctx) (current : Int) (result : AcquireResult) :
    config.backoff current ≠ .finished (some result) := by
  rw [Config.backoff]
  split <;> simp

/-- An operation on partition `p` admits only at `reserve`; before that it may raise the
partition's counter, on the way to `reserve`, or work on the delay budget. -/
theorem operation_cases (config : Config Ctx) (limit : Int) (gauge : Gauge Table) (p : Nat)
    (spurious : Bool) (point : Point) :
    (point = .reserve ∧ config.operation limit gauge p spurious point =
        ({ gauge with inflight := gauge.inflight + 1 },
          .finished (some ⟨gauge.inflight + 1, p⟩))) ∨
      (point ≠ .reserve ∧ config.operation limit gauge p spurious point =
        ({ gauge with sub := gauge.sub.addBusy p 1 }, .running .reserve)) ∨
      (point ≠ .reserve ∧ ∃ delayed progress, config.operation limit gauge p spurious point =
          ({ gauge with sub := { gauge.sub with delayedThreads := delayed } }, progress) ∧
        progress ≠ .running .reserve ∧ ∀ result, progress ≠ .finished (some result)) := by
  cases point <;> simp only [Config.operation]
  case burst => simp
  case reserve => simp
  case loadLimit inflight =>
    exact .inr (.inr ⟨by simp, _, _, rfl, by split <;> simp, by simp⟩)
  case loadQuota current =>
    refine .inr (.inr ⟨by simp, _, _, rfl, ?_, ?_⟩)
    · split_ifs <;> simp
    · intro result
      split_ifs <;> simp
  case exchange current =>
    split
    · exact .inr (.inl ⟨by simp, rfl⟩)
    · exact .inr (.inr ⟨by simp, _, _, rfl, by simp, by simp⟩)
  case loadDelayed =>
    refine .inr (.inr ⟨by simp, _, _, rfl, ?_, backoff_not_admitted config _⟩)
    rw [Config.backoff]
    split <;> simp
  case exchangeDelayed current =>
    split
    · exact .inr (.inr ⟨by simp, _, _, rfl, by simp, by simp⟩)
    · refine .inr (.inr ⟨by simp, _, _, rfl, ?_, backoff_not_admitted config _⟩)
      rw [Config.backoff]
      split <;> simp
  all_goals exact .inr (.inr ⟨by simp, _, _, rfl, by simp, by simp⟩)

def gate (config : Config Ctx) : Gate Ctx Table Pc where
  construct limit :=
    ⟨fun _ => 0, fun p => config.computePartitionLimit limit (config.percent p), 0⟩
  entry context := ⟨config.resolvePartition context, .loadInflight⟩
  acquire := doAcquire config
  onReleasePartition := onReleasePartition
  callbackStores := config.partitions.length
  limitChanged := recompute config
  reserves := by
    intro limit gauge pc spurious gauge' result acquired
    rw [doAcquire] at acquired
    rcases operation_cases config limit gauge pc.partitionIndex spurious pc.point with
      ⟨_, operated⟩ | ⟨_, operated⟩ | ⟨_, _, progress, operated, _, notAdmitted⟩ <;>
      rw [operated] at acquired
    · cases acquired
      exact ⟨rfl, rfl⟩
    · cases acquired
    · cases progress with
      | running point => cases acquired
      | finished other =>
        cases acquired
        exact absurd rfl (notAdmitted result)
  keeps := by
    intro limit gauge pc spurious gauge' progress acquired notAdmitted
    rw [doAcquire] at acquired
    rcases operation_cases config limit gauge pc.partitionIndex spurious pc.point with
      ⟨_, operated⟩ | ⟨_, operated⟩ | ⟨_, _, _, operated, _, _⟩ <;>
      rw [operated] at acquired <;> cases acquired
    · exact absurd rfl (notAdmitted _)
    · rfl
    · rfl
end Limen.AbstractPartitionedLimiter
