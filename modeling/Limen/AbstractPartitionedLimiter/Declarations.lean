import Limen.AbstractPartitionedLimiter.Builder
import Limen.Transition

/-! The table that `Build` makes of the calls on its builder. Setters may come in any order and
repeat each other, and a `Build` that fails has resolved some of the delays already; the
delays are all resolved again by the next one. -/
namespace Limen.AbstractPartitionedLimiter
open Transition
variable {Ctx : Type}

/-! ### Names and last values -/

/-- What was last entered under a key. -/
def lastValue {α : Type} (default : α) (entries : List (String × α)) (name : String) : α :=
  (about name entries).getLast?.getD default

theorem lastValue_concat {α : Type} (default : α) (entries : List (String × α)) (name other : String)
    (value : α) : lastValue default (entries ++ [(name, value)]) other =
      if other = name then value else lastValue default entries other := by
  rw [lastValue, about_append, about_single]
  by_cases here : name = other
  · simp [here]
  · simp [here, Ne.symm here, lastValue]

theorem lastValue_cons {α : Type} (default : α) (entries : List (String × α)) (name : String)
    (value : α) (other : String) : lastValue default ((name, value) :: entries) other =
      lastValue (if other = name then value else default) entries other := by
  have split : (name, value) :: entries = [(name, value)] ++ entries := rfl
  rw [lastValue, lastValue, split, about_append, about_single]
  by_cases here : name = other
  · cases about other entries <;> simp [here, List.getLast?_cons]
  · simp [here, Ne.symm here]

theorem lastValue_default {α : Type} {default other : α} {entries : List (String × α)} {name : String}
    (same : about name entries = [] → default = other) :
    lastValue default entries name = lastValue other entries name := by
  rw [lastValue, lastValue]
  cases none : about name entries with
  | nil => exact same none
  | cons first rest => rw [List.getLast?_cons, Option.getD_some, Option.getD_some]

/-- Adding a name to a list adds it to the distinct names, unless it is there already. -/
theorem eraseDups_concat (names : List String) (name : String) :
    (names ++ [name]).eraseDups = names.eraseDups ++ if name ∈ names then [] else [name] := by
  rw [List.eraseDups_append]
  by_cases present : name ∈ names <;> simp [List.removeAll, present, List.eraseDups_cons]

theorem nodup_eraseDups (names : List String) : names.eraseDups.Nodup := by
  induction names using List.reverseRecOn with
  | nil => simp
  | append_singleton names last ih =>
    rw [eraseDups_concat]
    by_cases present : last ∈ names
    · rw [if_pos present, List.append_nil]
      exact ih
    · rw [if_neg present, List.nodup_append]
      refine ⟨ih, by simp, ?_⟩
      rintro name member _ single rfl
      obtain rfl := List.mem_singleton.mp single
      exact present (List.mem_eraseDups.mp member)

/-! ### The calls on a builder -/

/-- A setter or an attempt to build. `Id`, `MeterProvider` and `SleepFor` set what is not part
of the table; they are all `unrelated`. -/
inductive Builder.Call (Ctx : Type) where
  | unrelated
  | limit (limit : Option Int)
  | bypassPredicate (predicate : Ctx → Bool)
  | partition (name : String) (percent : Percent)
  | partitionRejectDelay (name : String) (delay : Int)
  | partitionResolver (resolver : Option (Ctx → Option String))
  | maxDelayedThreads (max : Int)
  | build

namespace Builder

/-- What the loop over the pending delays has stored when it ends, be it at an undeclared
name. -/
def storeDelays : List (String × Int) → List Partition → List Partition
  | [], specs => specs
  | (name, delay) :: rest, specs =>
    match updateSpec name ({ · with rejectDelay := delay }) specs with
    | none => specs
    | some specs => storeDelays rest specs

variable (strCat : Percent → String) (nanToInt : Int)

/-- `Build` gets as far as the delays: the checks before them pass. -/
def reachesDelays (b : Builder Ctx) : Bool :=
  b.limit.isSome && !b.partitionSpecs.isEmpty && !b.partitionResolvers.isEmpty &&
    decide (0 ≤ b.maxDelayedThreads) && (checkSpecs strCat b.partitionSpecs).isOk &&
    !b.sum.exceeds (1 + 1 / 10 ^ 9)

/-- What a `Build` that fails leaves of the builder. -/
def afterFailure (b : Builder Ctx) : Builder Ctx :=
  if b.reachesDelays strCat then
    { b with partitionSpecs := storeDelays b.pendingRejectDelays b.partitionSpecs }
  else b

/-- A call on the builder. After a `Build` that succeeds there are no more. -/
def step (b : Builder Ctx) : Call Ctx → Option (Builder Ctx)
  | .unrelated => some b
  | .limit limit => some { b with limit }
  | .bypassPredicate predicate => some { b with bypassPredicate := predicate }
  | .partition name percent => some (b.partition name percent)
  | .partitionRejectDelay name delay => some (b.partitionRejectDelay name delay)
  | .partitionResolver resolver => some (b.partitionResolver resolver)
  | .maxDelayedThreads max => some { b with maxDelayedThreads := max }
  | .build => if (b.build strCat nanToInt).isOk then none else some (b.afterFailure strCat)

namespace Call

def isSetter : Call Ctx → Bool
  | .build => false
  | _ => true

def declaration : Call Ctx → Option (String × Percent)
  | .partition name percent => some (name, percent)
  | _ => none

def delaySetting : Call Ctx → Option (String × Int)
  | .partitionRejectDelay name delay => some (name, delay)
  | _ => none

def resolver : Call Ctx → Option (Option (Ctx → Option String))
  | .partitionResolver resolver => some resolver
  | _ => none
end Call

/-- The `Partition` calls, in order. -/
def declarations (calls : List (Call Ctx)) : List (String × Percent) :=
  calls.filterMap Call.declaration

/-- The `PartitionRejectDelay` calls, in order. -/
def delaySettings (calls : List (Call Ctx)) : List (String × Int) :=
  calls.filterMap Call.delaySetting

/-- The distinct names in the order of their first declaration. -/
def declaredNames (calls : List (Call Ctx)) : List String :=
  ((declarations calls).map Prod.fst).eraseDups

theorem filterMap_concat {α : Type} (f : Call Ctx → Option α) (calls : List (Call Ctx))
    (call : Call Ctx) : (calls ++ [call]).filterMap f = calls.filterMap f ++ (f call).toList := by
  rw [List.filterMap_append, List.filterMap_cons, List.filterMap_nil]
  cases f call <;> rfl

/-! ### Tables over a list of names -/

/-- The partition of a name, given the percentages and the delays of all. -/
def entry (percent : String → Percent) (delay : String → Int) (name : String) : Partition :=
  ⟨name, percent name, delay name⟩

section Entries
variable {names : List String} {percent : String → Percent} {delay other : String → Int}

/-- On distinct names, the first partition of a name is the only one. -/
theorem updateSpec_map {f : String → Partition} (named : ∀ name, (f name).name = name)
    (nodup : names.Nodup) (name : String) (change : Partition → Partition) :
    updateSpec name change (names.map f) =
      if name ∈ names then some (names.map (Function.update f name (change (f name)))) else none := by
  induction names with
  | nil => simp [updateSpec]
  | cons first rest ih =>
    obtain ⟨absent, distinct⟩ := List.nodup_cons.mp nodup
    rw [List.map_cons, updateSpec, named]
    by_cases here : first = name
    · subst here
      have others : rest.map (Function.update f first (change (f first))) = rest.map f := by
        apply List.map_congr_left
        intro n member
        have different : n ≠ first := by
          rintro rfl
          exact absent member
        exact Function.update_of_ne different _ _
      simp [others]
    · rw [if_neg here, ih distinct]
      by_cases later : name ∈ rest
      · simp [later, here]
      · simp [later, Ne.symm here]

theorem updateSpec_delay (nodup : names.Nodup) (name : String) (value : Int) :
    updateSpec name ({ · with rejectDelay := value }) (names.map (entry percent delay)) =
      if name ∈ names then some (names.map (entry percent (Function.update delay name value)))
      else none := by
  have table : Function.update (entry percent delay) name
      { entry percent delay name with rejectDelay := value } =
        entry percent (Function.update delay name value) := by
    funext n
    by_cases here : n = name
    · subst here
      simp [entry]
    · simp [entry, here]
  rw [updateSpec_map (fun _ => rfl) nodup, table]

/-- The delays that are still to be applied make up for a difference in those already stored. -/
theorem applyDelays_congr (nodup : names.Nodup) {pending : List (String × Int)}
    (same : ∀ name, about name pending = [] → delay name = other name) :
    applyDelays pending (names.map (entry percent delay)) =
      applyDelays pending (names.map (entry percent other)) := by
  induction pending generalizing delay other with
  | nil =>
    obtain rfl : delay = other := funext fun name => same name rfl
    rfl
  | cons setting rest ih =>
    obtain ⟨name, value⟩ := setting
    rw [applyDelays, applyDelays, updateSpec_delay nodup, updateSpec_delay nodup]
    by_cases known : name ∈ names
    · rw [if_pos known, if_pos known]
      apply ih
      intro n none
      by_cases here : n = name
      · rw [here, Function.update_self, Function.update_self]
      · rw [Function.update_of_ne here, Function.update_of_ne here]
        refine same n ?_
        rw [← List.singleton_append, about_append, about_single, if_neg (Ne.symm here), none]
        rfl
    · rw [if_neg known, if_neg known]

theorem applyDelays_ok (nodup : names.Nodup) {pending : List (String × Int)} {specs : List Partition}
    (applied : applyDelays pending (names.map (entry percent delay)) = .ok specs) :
    specs = names.map (entry percent fun name => lastValue (delay name) pending name) := by
  induction pending generalizing delay with
  | nil =>
    cases applied
    rfl
  | cons setting rest ih =>
    obtain ⟨name, value⟩ := setting
    rw [applyDelays, updateSpec_delay nodup] at applied
    by_cases known : name ∈ names
    · rw [if_pos known] at applied
      rw [ih applied]
      congr 2
      funext n
      rw [lastValue_cons, Function.update_apply]
    · rw [if_neg known] at applied
      contradiction

theorem storeDelays_map (nodup : names.Nodup) (pending : List (String × Int)) :
    ∃ stored, storeDelays pending (names.map (entry percent delay)) =
        names.map (entry percent stored) ∧
      ∀ name, about name pending = [] → stored name = delay name := by
  induction pending generalizing delay with
  | nil => exact ⟨delay, rfl, fun _ _ => rfl⟩
  | cons setting rest ih =>
    obtain ⟨name, value⟩ := setting
    rw [storeDelays, updateSpec_delay nodup]
    by_cases known : name ∈ names
    · rw [if_pos known]
      obtain ⟨stored, table, untouched⟩ := @ih (Function.update delay name value)
      refine ⟨stored, table, ?_⟩
      intro n none
      rw [← List.singleton_append, about_append, about_single] at none
      by_cases here : name = n
      · simp [here] at none
      · rw [if_neg here] at none
        rw [untouched n none, Function.update_of_ne (Ne.symm here)]
    · rw [if_neg known]
      exact ⟨delay, rfl, fun _ _ => rfl⟩

theorem checkSpecs_entry (strCat : Percent → String) (names : List String) :
    checkSpecs strCat (names.map (entry percent delay)) =
      checkSpecs strCat (names.map (entry percent other)) := by
  induction names with
  | nil => rfl
  | cons name rest ih =>
    rw [List.map_cons, List.map_cons, checkSpecs, checkSpecs, ih]
    rfl
end Entries

/-! ### What a builder holds -/

def lastPercent (calls : List (Call Ctx)) : String → Percent :=
  lastValue (.rat 0) (declarations calls)

def lastDelay (calls : List (Call Ctx)) : String → Int := lastValue 0 (delaySettings calls)

/-- The builder after these calls, but for the delays that failed builds may have stored. -/
structure Holds (calls : List (Call Ctx)) (b : Builder Ctx) : Prop where
  specs : ∃ delay, b.partitionSpecs = (declaredNames calls).map (entry (lastPercent calls) delay) ∧
    ∀ name, about name (delaySettings calls) = [] → delay name = 0
  pending : b.pendingRejectDelays = delaySettings calls
  resolvers : b.partitionResolvers = calls.filterMap Call.resolver

variable {strCat : Percent → String} {nanToInt : Int} {calls : List (Call Ctx)} {call : Call Ctx}
  {b b' : Builder Ctx}

theorem declarations_concat (calls : List (Call Ctx)) (call : Call Ctx) :
    declarations (calls ++ [call]) = declarations calls ++ call.declaration.toList :=
  filterMap_concat _ calls call

theorem delaySettings_concat (calls : List (Call Ctx)) (call : Call Ctx) :
    delaySettings (calls ++ [call]) = delaySettings calls ++ call.delaySetting.toList :=
  filterMap_concat _ calls call

/-- A name without a delay had none before the last call. -/
theorem unset_of_concat {name : String} (none : about name (delaySettings (calls ++ [call])) = []) :
    about name (delaySettings calls) = [] := by
  rw [delaySettings_concat, about_append, List.append_eq_nil_iff] at none
  exact none.1

/-- A call that declares nothing adds its delay and its resolver, if it has one. -/
theorem Holds.undeclared (holds : Holds calls b) (noDeclaration : call.declaration = none)
    (specs : b'.partitionSpecs = b.partitionSpecs)
    (pending : b'.pendingRejectDelays = b.pendingRejectDelays ++ call.delaySetting.toList)
    (resolvers : b'.partitionResolvers = b.partitionResolvers ++ call.resolver.toList) :
    Holds (calls ++ [call]) b' := by
  obtain ⟨delay, table, unset⟩ := holds.specs
  constructor
  · rw [specs, declaredNames, lastPercent, declarations_concat, noDeclaration, Option.toList_none,
      List.append_nil]
    exact ⟨delay, table, fun name none => unset name (unset_of_concat none)⟩
  · rw [pending, holds.pending, delaySettings_concat]
  · rw [resolvers, holds.resolvers, filterMap_concat]

theorem Holds.partition (holds : Holds calls b) (name : String) (percent : Percent) :
    Holds (calls ++ [.partition name percent]) (b.partition name percent) := by
  obtain ⟨delay, table, unset⟩ := holds.specs
  have declarations' : declarations (calls ++ [.partition name percent]) =
      declarations calls ++ [(name, percent)] := declarations_concat calls _
  have delays' : delaySettings (calls ++ [.partition name percent]) = delaySettings calls := by
    rw [delaySettings_concat]
    exact List.append_nil _
  have percents : lastPercent (calls ++ [.partition name percent]) =
      Function.update (lastPercent calls) name percent := by
    funext n
    rw [lastPercent, declarations', lastValue_concat, Function.update_apply]
    rfl
  have nodup : (declaredNames calls).Nodup := nodup_eraseDups _
  constructor
  · rw [delays', declaredNames, declarations', List.map_append, List.map_singleton, eraseDups_concat,
      percents, Builder.partition, table, updateSpec_map (fun _ => rfl) nodup]
    by_cases known : name ∈ declaredNames calls
    · -- A name that is known keeps its place and its delay.
      refine ⟨delay, ?_, unset⟩
      rw [if_pos known, if_pos (List.mem_eraseDups.mp known), List.append_nil, Option.getD_some]
      apply List.map_congr_left
      intro n _
      by_cases here : n = name
      · subst here
        simp [entry]
      · simp [entry, here]
    · refine ⟨Function.update delay name 0, ?_, ?_⟩
      · rw [if_neg known, if_neg (mt List.mem_eraseDups.mpr known), Option.getD_none, List.map_append]
        have earlier : (declaredNames calls).map (entry (lastPercent calls) delay) =
            (declaredNames calls).map (entry (Function.update (lastPercent calls) name percent)
              (Function.update delay name 0)) := by
          apply List.map_congr_left
          intro n member
          have here : n ≠ name := by
            rintro rfl
            exact known member
          simp [entry, here]
        rw [earlier]
        simp [entry, declaredNames]
      · intro n none
        by_cases here : n = name
        · rw [here, Function.update_self]
        · rw [Function.update_of_ne here]
          exact unset n none
  · rw [delays']
    exact holds.pending
  · simp [Builder.partition, holds.resolvers, Call.resolver]

/-- What a failed `Build` stores, it stores for names with a delay to come. -/
theorem Holds.afterFailure (holds : Holds calls b) :
    Holds (calls ++ [.build]) (b.afterFailure strCat) := by
  have same : Holds (calls ++ [.build]) b :=
    holds.undeclared rfl rfl (List.append_nil _).symm (List.append_nil _).symm
  rw [Builder.afterFailure]
  split
  · obtain ⟨delay, table, unset⟩ := same.specs
    obtain ⟨stored, table', untouched⟩ :=
      @storeDelays_map _ (lastPercent (calls ++ [.build])) delay (nodup_eraseDups _)
        (delaySettings (calls ++ [.build]))
    refine ⟨⟨stored, ?_, ?_⟩, same.pending, same.resolvers⟩
    · rw [same.pending, table]
      exact table'
    · intro name none
      rw [untouched name none, unset name none]
  · exact same

/-- Every call keeps the account of the builder. -/
theorem Holds.step (holds : Holds calls b) (stepped : b.step strCat nanToInt call = some b') :
    Holds (calls ++ [call]) b' := by
  cases call with
  | unrelated | limit limit | bypassPredicate predicate | maxDelayedThreads max =>
    cases stepped
    exact holds.undeclared rfl rfl (List.append_nil _).symm (List.append_nil _).symm
  | partition name percent =>
    cases stepped
    exact holds.partition name percent
  | partitionRejectDelay name delay =>
    cases stepped
    exact holds.undeclared rfl rfl rfl (List.append_nil _).symm
  | partitionResolver resolver =>
    cases stepped
    exact holds.undeclared rfl rfl (List.append_nil _).symm rfl
  | build =>
    rw [Builder.step] at stepped
    split at stepped
    · contradiction
    · cases stepped
      exact holds.afterFailure

theorem holds_of_run (ran : run (step strCat nanToInt) {} calls = some b) : Holds calls b :=
  history ⟨⟨fun _ => 0, rfl, fun _ _ => rfl⟩, rfl, rfl⟩
    (fun _ holds stepped => holds.step stepped) ran

/-! ### Failed builds -/

theorem filterMap_setters {α : Type} {f : Call Ctx → Option α} (none : f .build = none)
    (calls : List (Call Ctx)) : (calls.filter Call.isSetter).filterMap f = calls.filterMap f := by
  induction calls with
  | nil => rfl
  | cons call rest ih =>
    cases call with
    | build => rw [List.filter_cons_of_neg (by simp [Call.isSetter]), ih, List.filterMap_cons, none]
    | _ => rw [List.filter_cons_of_pos rfl, List.filterMap_cons, List.filterMap_cons, ih]

theorem declarations_setters (calls : List (Call Ctx)) :
    declarations (calls.filter Call.isSetter) = declarations calls := filterMap_setters rfl calls

theorem delaySettings_setters (calls : List (Call Ctx)) :
    delaySettings (calls.filter Call.isSetter) = delaySettings calls := filterMap_setters rfl calls

/-- A setter acts alike on two builders that differ in their partitions. -/
theorem step_setter {other : Builder Ctx} (setter : call.isSetter = true)
    (same : { other with partitionSpecs := b.partitionSpecs } = b)
    (stepped : b.step strCat nanToInt call = some b') :
    ∃ other', other.step strCat nanToInt call = some other' ∧
      { other' with partitionSpecs := b'.partitionSpecs } = b' := by
  obtain ⟨limit, predicate, specs, pending, resolvers, max⟩ := b
  cases same
  cases call with
  | build => contradiction
  | _ =>
    cases stepped
    exact ⟨_, rfl, rfl⟩

/-- But for the delays in its partitions, the builder is the one that the setters make. -/
theorem run_setters (ran : run (step strCat nanToInt) {} calls = some b) :
    ∃ other, run (step strCat nanToInt) {} (calls.filter Call.isSetter) = some other ∧
      { other with partitionSpecs := b.partitionSpecs } = b := by
  refine history (P := fun calls b => ∃ other, run (step strCat nanToInt) {}
    (calls.filter Call.isSetter) = some other ∧ { other with partitionSpecs := b.partitionSpecs } = b)
    ⟨{}, rfl, rfl⟩ ?_ ran
  rintro calls b call b' - ⟨other, alone, same⟩ stepped
  rw [List.filter_append]
  by_cases setter : call.isSetter
  · obtain ⟨other', stepped', same'⟩ := step_setter setter same stepped
    refine ⟨other', ?_, same'⟩
    rw [List.filter_cons_of_pos setter, List.filter_nil, run_append, alone, Option.bind_some,
      run_single, stepped']
  · obtain rfl : call = .build := by
      cases call with
      | build => rfl
      | _ => exact absurd rfl setter
    refine ⟨other, ?_, ?_⟩
    · rw [List.filter_cons_of_neg setter, List.filter_nil, List.append_nil]
      exact alone
    · rw [step] at stepped
      split at stepped
      · contradiction
      · cases stepped
        rw [Builder.afterFailure]
        split
        · rw [← same]
        · exact same

/-- `Build` reads the partitions in four places. -/
theorem build_congr {specs : List Partition} (empty : specs = [] ↔ b.partitionSpecs = [])
    (checked : checkSpecs strCat specs = checkSpecs strCat b.partitionSpecs)
    (summed : { b with partitionSpecs := specs }.sum = b.sum)
    (applied : applyDelays b.pendingRejectDelays specs =
      applyDelays b.pendingRejectDelays b.partitionSpecs) :
    { b with partitionSpecs := specs }.build strCat nanToInt = b.build strCat nanToInt := by
  rw [sum, sum] at summed
  simp only [build, empty, checked, summed, applied]

/-- A failed `Build` changes nothing that a later one makes. -/
theorem build_setters (ran : run (step strCat nanToInt) {} calls = some b) :
    ∃ other, run (step strCat nanToInt) {} (calls.filter Call.isSetter) = some other ∧
      other.build strCat nanToInt = b.build strCat nanToInt := by
  obtain ⟨other, alone, same⟩ := run_setters ran
  obtain ⟨delay, table, unset⟩ := (holds_of_run ran).specs
  obtain ⟨delay', table', unset'⟩ := (holds_of_run alone).specs
  rw [declaredNames, lastPercent, declarations_setters] at table'
  rw [delaySettings_setters] at unset'
  have pending : other.pendingRejectDelays = delaySettings calls := by
    rw [(holds_of_run alone).pending, delaySettings_setters]
  refine ⟨other, alone, ?_⟩
  rw [← same]
  refine (build_congr ?_ ?_ ?_ ?_).symm
  · rw [table, table', List.map_eq_nil_iff, List.map_eq_nil_iff]
    rfl
  · rw [table, table']
    exact checkSpecs_entry strCat _
  · rw [sum, sum, table, table', List.foldl_map, List.foldl_map]
    rfl
  · rw [table, table', pending]
    refine applyDelays_congr (nodup_eraseDups _) fun name none => ?_
    rw [unset name none, unset' name none]
end Builder

/-! ### The name map -/

theorem indexByName_concat (specs : List Partition) (last : Partition) :
    indexByName (specs ++ [last]) =
      Function.update (indexByName specs) last.name (some specs.length) := by
  rw [indexByName, List.zipIdx_append, List.foldl_append, Nat.zero_add]
  rfl

/-- With distinct names, a name is entered at the index of its partition and there only. -/
theorem indexByName_iff {specs : List Partition} (nodup : (specs.map Partition.name).Nodup)
    {name : String} {index : Nat} :
    indexByName specs name = some index ↔ specs[index]?.map Partition.name = some name := by
  induction specs using List.reverseRecOn with
  | nil => simp [indexByName]
  | append_singleton specs last ih =>
    rw [List.map_append, List.nodup_append] at nodup
    obtain ⟨distinct, _, apart⟩ := nodup
    rw [indexByName_concat, Function.update_apply]
    rcases Nat.lt_or_ge index specs.length with before | after
    · rw [List.getElem?_append_left before]
      split
      · rename_i here
        constructor
        · intro same
          have := Option.some.inj same
          omega
        · intro there
          rw [← List.getElem?_map] at there
          exact absurd here (apart _ (List.mem_of_getElem? there) _ (by simp))
      · exact ih distinct
    · rw [List.getElem?_append_right after]
      split
      · rename_i here
        subst here
        constructor
        · intro same
          obtain rfl := Option.some.inj same
          simp
        · intro there
          obtain ⟨partition, found, _⟩ := Option.map_eq_some_iff.mp there
          obtain ⟨bound, _⟩ := List.getElem?_eq_some_iff.mp found
          rw [List.length_singleton] at bound
          rw [Option.some_inj]
          omega
      · rename_i here
        constructor
        · intro earlier
          have := indexByName_lt earlier
          omega
        · intro there
          obtain ⟨partition, found, named⟩ := Option.map_eq_some_iff.mp there
          obtain rfl := List.mem_singleton.mp (List.mem_of_getElem? found)
          exact absurd named.symm here

/-- The first result of the resolvers that names a partition, or else the synthetic one. -/
def Config.firstNamed (config : Config Ctx) (context : Ctx) : String :=
  ((config.resolvers.filterMap (· context)).find?
    (· ∈ config.partitions.map Partition.name)).getD unknownPartitionName

theorem Config.resolve_named {config : Config Ctx}
    (configured : ∀ name, name ∈ config.partitions.map Partition.name ↔
      (config.partitionIndexByName name).isSome)
    (unknown : config.partitionIndexByName unknownPartitionName = some config.unknownPartitionIndex)
    (context : Ctx) (resolvers : List (Ctx → Option String)) :
    config.partitionIndexByName (((resolvers.filterMap (· context)).find?
        (· ∈ config.partitions.map Partition.name)).getD unknownPartitionName) =
      some (config.resolve context resolvers) := by
  induction resolvers with
  | nil => exact unknown
  | cons resolver rest ih =>
    rw [resolve, List.filterMap_cons]
    cases result : resolver context with
    | none => exact ih
    | some name =>
      dsimp only
      rw [List.find?_cons]
      cases found : config.partitionIndexByName name with
      | none =>
        have absent : name ∉ config.partitions.map Partition.name := by
          rw [configured, found]
          simp
        rw [decide_eq_false absent]
        exact ih
      | some index =>
        have present : name ∈ config.partitions.map Partition.name := by
          rw [configured, found]
          rfl
        rw [decide_eq_true present]
        exact found

/-! ### The table -/

namespace Builder

theorem requireResolvers_ok {index : Nat} {resolvers : List (Option (Ctx → Option String))}
    {required : List (Ctx → Option String)}
    (resolved : requireResolvers index resolvers = .ok required) : required.map some = resolvers := by
  induction resolvers generalizing index required with
  | nil =>
    cases resolved
    rfl
  | cons resolver rest ih =>
    cases resolver with
    | none => contradiction
    | some resolver =>
      rw [requireResolvers] at resolved
      split at resolved
      · contradiction
      · rename_i later
        cases resolved
        rw [List.map_cons, ih later]

/-- The table is the one that the calls declare, and it is what decides where a call goes. -/
structure Declared (calls : List (Call Ctx)) (config : Config Ctx) : Prop where
  partitions : config.partitions =
    (declaredNames calls).map (entry (lastPercent calls) (lastDelay calls)) ++
      [⟨unknownPartitionName, .rat 0, 0⟩]
  distinct : (config.partitions.map Partition.name).Nodup
  indexed : ∀ name index, config.partitionIndexByName name = some index ↔
    config.partitions[index]?.map Partition.name = some name
  unknown : config.unknownPartitionIndex = (declaredNames calls).length
  resolvers : config.resolvers.map some = calls.filterMap Call.resolver
  routed : ∀ context, config.resolvePartition context < config.partitions.length ∧
    config.partitionIndexByName (config.firstNamed context) = some (config.resolvePartition context)

theorem Accepted.declared_build {specs : List Partition} {resolvers : List (Ctx → Option String)}
    (holds : Holds calls b) (accepted : Accepted strCat b specs resolvers) (max : Int) :
    Declared calls (.build specs resolvers max nanToInt) := by
  obtain ⟨delay, table, unset⟩ := holds.specs
  have applied := accepted.applied
  rw [table, holds.pending] at applied
  have resolved : specs =
      (declaredNames calls).map (entry (lastPercent calls) (lastDelay calls)) := by
    rw [applyDelays_ok (nodup_eraseDups _) applied]
    congr 2
    funext name
    exact lastValue_default (unset name)
  have names : specs.map Partition.name = declaredNames calls := by
    rw [resolved, List.map_map]
    exact List.map_id _
  have reserved : unknownPartitionName ∉ declaredNames calls := by
    intro member
    have declared : entry (lastPercent calls) delay unknownPartitionName ∈ b.partitionSpecs := by
      rw [table]
      exact List.mem_map_of_mem member
    exact (checkSpecs_ok accepted.checked declared).2.1 rfl
  have made : (Config.build specs resolvers max nanToInt).partitions =
      specs ++ [⟨unknownPartitionName, .rat 0, 0⟩] := rfl
  have distinct :
      ((Config.build specs resolvers max nanToInt).partitions.map Partition.name).Nodup := by
    rw [made, List.map_append, List.map_singleton, names, List.nodup_append]
    refine ⟨nodup_eraseDups _, by simp, ?_⟩
    rintro name member _ single rfl
    obtain rfl := List.mem_singleton.mp single
    exact reserved member
  have indexed (name : String) (index : Nat) :
      (Config.build specs resolvers max nanToInt).partitionIndexByName name = some index ↔
        (Config.build specs resolvers max nanToInt).partitions[index]?.map Partition.name =
          some name := by
    rw [← indexByName_iff distinct, made, indexByName_concat]
    rfl
  constructor
  · rw [made, resolved]
  · exact distinct
  · exact indexed
  · rw [← names, List.length_map]
    rfl
  · rw [← holds.resolvers]
    exact requireResolvers_ok accepted.resolved
  · intro context
    refine ⟨Config.resolvePartition_lt _ context, Config.resolve_named ?_ ?_ context _⟩
    · intro name
      rw [List.mem_iff_getElem?, Option.isSome_iff_exists]
      apply exists_congr
      intro index
      rw [indexed, List.getElem?_map]
    · rw [indexed, made]
      simp [Config.build]
end Builder

open Builder in
/-- Whatever the order of the calls on a builder, and however often it failed to build: the table
is the declared one, and it is the table that the setters make without the failed builds. -/
theorem declared_table {calls : List (Builder.Call Ctx)} {strCat : Percent → String}
    {nanToInt cap : Int} {b : Builder Ctx} {config : Config Ctx}
    (ran : run (Builder.step strCat nanToInt) {} calls = some b)
    (built : b.build strCat nanToInt = .ok (config, cap)) :
    Declared calls config ∧ ∃ other,
      run (Builder.step strCat nanToInt) {} (calls.filter Call.isSetter) = some other ∧
        other.build strCat nanToInt = .ok (config, cap) := by
  constructor
  · obtain ⟨specs, resolvers, accepted, _, rfl⟩ := build_accepted built
    exact accepted.declared_build (holds_of_run ran) _
  · obtain ⟨other, alone, same⟩ := build_setters ran
    exact ⟨other, alone, same.trans built⟩

/-- A delay before its declaration, a percentage that is corrected, and a build that fails after
it has stored two delays. -/
def goldBronzeSilver : List (Builder.Call String) :=
  [.limit (some 10), .partitionRejectDelay "gold" 5, .build, .partition "gold" (.rat (1 / 4)),
    .partition "bronze" (.rat (1 / 4)), .partition "gold" (.rat (1 / 2)),
    .partitionRejectDelay "gold" 7, .partitionRejectDelay "silver" 3,
    .partitionResolver (some fun context => some context), .build, .partition "silver" (.rat (1 / 4))]

theorem goldBronzeSilver_table : ∃ b config cap,
    run (Builder.step (fun _ => "") 0) {} goldBronzeSilver = some b ∧
      b.build (fun _ => "") 0 = .ok (config, cap) ∧ config.partitions =
        [⟨"gold", .rat (1 / 2), 7⟩, ⟨"bronze", .rat (1 / 4), 0⟩, ⟨"silver", .rat (1 / 4), 3⟩,
          ⟨unknownPartitionName, .rat 0, 0⟩] := by
  have accepted : (run (Builder.step (fun _ => "") 0) {} goldBronzeSilver).any
      (fun b => (b.build (fun _ => "") 0).isOk) = true := by
    decide +kernel
  obtain ⟨b, ran, ok⟩ := (Option.any_eq_true _ _).mp accepted
  cases built : b.build (fun _ => "") 0 with
  | error message =>
    rw [built] at ok
    contradiction
  | ok result =>
    refine ⟨b, result.1, result.2, ran, built, ?_⟩
    rw [(declared_table ran built).1.partitions]
    decide +kernel
end Limen.AbstractPartitionedLimiter
