import Limen.AbstractPartitionedLimiter

/-! `AbstractPartitionedLimiter::Builder`: the setters, which check nothing, and `Build`,
which checks everything it does check. -/
namespace Limen.AbstractPartitionedLimiter
variable {Ctx : Type}

namespace Percent

/-- `percent < 0.0 || percent > 1.0`; a comparison with NaN is false. -/
def outOfRange : Percent → Bool
  | .nan => false
  | .rat value => value < 0 || 1 < value

def add : Percent → Percent → Percent
  | .rat a, .rat b => .rat (a + b)
  | _, _ => .nan

def exceeds (bound : ℚ) : Percent → Bool
  | .nan => false
  | .rat value => bound < value
end Percent

/-- The settings of the builder. The wrapped algorithm is known by the cap it reports, and a
null resolver is `none`. A null predicate is one that is false everywhere. -/
structure Builder (Ctx : Type) where
  limit : Option Int := none
  bypassPredicate : Ctx → Bool := fun _ => false
  partitionSpecs : List Partition := []
  pendingRejectDelays : List (String × Int) := []
  partitionResolvers : List (Option (Ctx → Option String)) := []
  maxDelayedThreads : Int := 100

/-- Applies a change to the first partition of this name, and reports if there is none. -/
def updateSpec (name : String) (change : Partition → Partition) :
    List Partition → Option (List Partition)
  | [] => none
  | spec :: rest =>
    if spec.name = name then some (change spec :: rest)
    else (updateSpec name change rest).map (spec :: ·)

namespace Builder

/-- `Partition`: a name that is declared already gets the new percentage. -/
def partition (b : Builder Ctx) (name : String) (percent : Percent) : Builder Ctx :=
  { b with
    partitionSpecs := (updateSpec name ({ · with percent }) b.partitionSpecs).getD
      (b.partitionSpecs ++ [⟨name, percent, 0⟩]) }

def partitionRejectDelay (b : Builder Ctx) (name : String) (delay : Int) : Builder Ctx :=
  { b with pendingRejectDelays := b.pendingRejectDelays ++ [(name, delay)] }

def partitionResolver (b : Builder Ctx) (resolver : Option (Ctx → Option String)) : Builder Ctx :=
  { b with partitionResolvers := b.partitionResolvers ++ [resolver] }

variable (strCat : Percent → String)

/-- The loop of per-partition checks. -/
def checkSpecs : List Partition → Except String Unit
  | [] => .ok ()
  | spec :: rest =>
    if spec.name = "" then .error "Partition name must not be empty"
    else if spec.name = unknownPartitionName then
      .error ("Partition name \"unknown\" is reserved for the synthetic " ++
        "fallback used when no resolver matches")
    else if spec.percent.outOfRange then
      .error ("Partition \"" ++ spec.name ++ "\" percentage must be in [0, 1]; got " ++
        strCat spec.percent)
    else checkSpecs rest

/-- Resolves the pending delays, in the order in which they were set. -/
def applyDelays : List (String × Int) → List Partition → Except String (List Partition)
  | [], specs => .ok specs
  | (name, delay) :: rest, specs =>
    match updateSpec name ({ · with rejectDelay := delay }) specs with
    | none => .error ("PartitionRejectDelay names undeclared partition \"" ++ name ++ "\"")
    | some specs => applyDelays rest specs

/-- All resolvers, if none is null. -/
def requireResolvers : Nat → List (Option (Ctx → Option String)) →
    Except String (List (Ctx → Option String))
  | _, [] => .ok []
  | i, none :: _ => .error ("PartitionResolver at index " ++ toString i ++ " is null")
  | i, some resolver :: rest =>
    match requireResolvers (i + 1) rest with
    | .error message => .error message
    | .ok resolvers => .ok (resolver :: resolvers)

/-- `Build`: the runtime table and the cap of the wrapped algorithm. `strCat` formats a
number in a message. -/
def build (b : Builder Ctx) (nanToInt : Int) : Except String (Config Ctx × Int) :=
  match b.limit with
  | none => .error "AbstractPartitionedLimiter requires Limit()"
  | some limit =>
    if b.partitionSpecs = [] then
      .error "AbstractPartitionedLimiter requires at least one Partition()"
    else if b.partitionResolvers.isEmpty then
      .error "AbstractPartitionedLimiter requires at least one PartitionResolver()"
    else if b.maxDelayedThreads < 0 then
      .error "AbstractPartitionedLimiter MaxDelayedThreads must be non-negative"
    else
      match checkSpecs strCat b.partitionSpecs with
      | .error message => .error message
      | .ok () =>
        let sum := b.partitionSpecs.foldl (fun sum spec => sum.add spec.percent) (.rat 0)
        if sum.exceeds (1 + 1 / 10 ^ 9) then
          .error ("Sum of partition percentages must be <= 1.0; got " ++ strCat sum)
        else
          match applyDelays b.pendingRejectDelays b.partitionSpecs with
          | .error message => .error message
          | .ok specs =>
            match requireResolvers 0 b.partitionResolvers with
            | .error message => .error message
            | .ok resolvers => .ok (.build specs resolvers b.maxDelayedThreads nanToInt, limit)
end Builder

theorem updateSpec_percents {name : String} {delay : Int} {specs specs' : List Partition}
    (updated : updateSpec name ({ · with rejectDelay := delay }) specs = some specs') :
    specs'.map Partition.percent = specs.map Partition.percent := by
  induction specs generalizing specs' with
  | nil => contradiction
  | cons spec rest ih =>
    rw [updateSpec] at updated
    split at updated
    · cases updated
      rfl
    · obtain ⟨tail, later, rfl⟩ := Option.map_eq_some_iff.mp updated
      rw [List.map_cons, List.map_cons, ih later]

/-- A delay changes no percentage. -/
theorem Builder.applyDelays_percents {pending : List (String × Int)} {specs specs' : List Partition}
    (applied : applyDelays pending specs = .ok specs') :
    specs'.map Partition.percent = specs.map Partition.percent := by
  induction pending generalizing specs with
  | nil =>
    cases applied
    rfl
  | cons setting rest ih =>
    rw [applyDelays] at applied
    split at applied
    · contradiction
    · rename_i updated
      rw [ih applied, updateSpec_percents updated]

namespace Builder
variable {strCat : Percent → String} {b : Builder Ctx} {nanToInt cap : Int} {config : Config Ctx}

def sum (b : Builder Ctx) : Percent :=
  b.partitionSpecs.foldl (fun sum spec => sum.add spec.percent) (.rat 0)

/-- What `Build` has checked, and what it has worked out on the way, when it succeeds. -/
structure Accepted (strCat : Percent → String) (b : Builder Ctx) (specs : List Partition)
    (resolvers : List (Ctx → Option String)) : Prop where
  declared : b.partitionSpecs ≠ []
  budget : 0 ≤ b.maxDelayedThreads
  checked : checkSpecs strCat b.partitionSpecs = .ok ()
  summed : b.sum.exceeds (1 + 1 / 10 ^ 9) = false
  applied : applyDelays b.pendingRejectDelays b.partitionSpecs = .ok specs
  resolved : requireResolvers 0 b.partitionResolvers = .ok resolvers

theorem build_accepted (built : b.build strCat nanToInt = .ok (config, cap)) :
    ∃ specs resolvers, Accepted strCat b specs resolvers ∧ b.limit = some cap ∧
      config = .build specs resolvers b.maxDelayedThreads nanToInt := by
  rw [build] at built
  split at built
  · contradiction
  rename_i limit atLimit
  split at built
  · contradiction
  rename_i declared
  split at built
  · contradiction
  split at built
  · contradiction
  rename_i budget
  split at built
  · contradiction
  rename_i checked
  dsimp only at built
  split at built
  · contradiction
  rename_i summed
  split at built
  · contradiction
  rename_i specs applied
  split at built
  · contradiction
  rename_i resolvers resolved
  cases built
  exact ⟨specs, resolvers, ⟨declared, Int.not_lt.mp budget, checked, Bool.eq_false_iff.mpr summed,
    applied, resolved⟩, atLimit, rfl⟩

theorem checkSpecs_ok {specs : List Partition} (checked : checkSpecs strCat specs = .ok ())
    {spec : Partition} (member : spec ∈ specs) :
    spec.name ≠ "" ∧ spec.name ≠ unknownPartitionName ∧ spec.percent.outOfRange = false := by
  induction specs with
  | nil => contradiction
  | cons first rest ih =>
    rw [checkSpecs] at checked
    split at checked
    · contradiction
    rename_i named
    split at checked
    · contradiction
    rename_i unreserved
    split at checked
    · contradiction
    rename_i within
    rcases List.mem_cons.mp member with rfl | later
    · exact ⟨named, unreserved, Bool.eq_false_iff.mpr within⟩
    · exact ih checked later

/-- What an accepted builder has declared is what the table has, with one partition more. -/
theorem build_ok (built : b.build strCat nanToInt = .ok (config, cap)) :
    ∃ specs resolvers, specs.map Partition.percent = b.partitionSpecs.map Partition.percent ∧
      b.limit = some cap ∧ config = .build specs resolvers b.maxDelayedThreads nanToInt := by
  obtain ⟨specs, resolvers, accepted, limit, table⟩ := build_accepted built
  exact ⟨specs, resolvers, applyDelays_percents accepted.applied, limit, table⟩
end Builder
end Limen.AbstractPartitionedLimiter
