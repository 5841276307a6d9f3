import Limen.SlotGuard.Ownership

/-! Whole programs over guards. The fate of a slot is read off the program text alone,
by following the address that owns it; the code calls `OnSlotComplete` accordingly. -/
namespace Limen.SlotGuard
open Transition
variable {L : Type}

inductive ProgramOp (L : Type) where
  | make (dst : Nat) (slot : Slot L)
  | guard (op : GuardOp)
  deriving DecidableEq, Repr

/-- The objects, the slots created so far and the `OnSlotComplete` calls made so far. -/
structure Program (L : Type) where
  heap : Heap L
  created : List (Slot L)
  calls : List (Completion L)

def Program.start : Program L := ⟨fun _ => none, [], []⟩

def Program.step (p : Program L) : ProgramOp L → Option (Program L)
  | .make dst slot =>
    (p.heap.make dst p.created.length slot).map fun heap =>
      ⟨heap, p.created ++ [slot], p.calls⟩
  | .guard op =>
    (p.heap.apply op).map fun (heap, call) => ⟨heap, p.created, p.calls ++ call.toList⟩

/-- The status with which the slot owned by `addr` is completed: that of the first
explicit completion made on its owner, `ignored` if the owner is destroyed or
overwritten before that, and none if neither happens. -/
def fate (addr : Nat) : List (ProgramOp L) → Option CompletionStatus
  | [] => none
  | .make _ _ :: rest => fate addr rest
  | .guard (.moveConstruct dst src) :: rest => fate (if src = addr then dst else addr) rest
  | .guard (.moveAssign dst src) :: rest =>
    if dst = src then fate addr rest
    else if dst = addr then some .ignored
    else fate (if src = addr then dst else addr) rest
  | .guard (.complete a status) :: rest => if a = addr then some status else fate addr rest
  | .guard (.destroy a) :: rest => if a = addr then some .ignored else fate addr rest

/-- The number of slots a program text creates. -/
def makes : List (ProgramOp L) → Nat
  | [] => 0
  | .make _ _ :: rest => makes rest + 1
  | .guard _ :: rest => makes rest

def callsFor (p : Program L) (id : Nat) : List (Completion L) :=
  p.calls.filter fun call => call.id = id

/-- Owners are unique, and nothing refers to a slot that does not exist yet. -/
structure Program.Valid (p : Program L) : Prop where
  exclusive : p.heap.owners.Exclusive
  owned : ∀ id slot, p.heap.owners.Holds id slot → id < p.created.length
  called : ∀ call ∈ p.calls, call.id < p.created.length

theorem start_valid : (Program.start : Program L).Valid where
  exclusive := by
    rintro a b owned other ha
    contradiction
  owned := by
    rintro id slot ⟨a, ha⟩
    contradiction
  called := by simp [Program.start]

theorem make_step {p q : Program L} {dst : Nat} {slot : Slot L} (valid : p.Valid)
    (stepped : p.step (.make dst slot) = some q) :
    p.heap.owners dst = none ∧
      q.heap.owners = Function.update p.heap.owners dst (some (p.created.length, slot)) ∧
      q.created = p.created ++ [slot] ∧ q.calls = p.calls ∧ q.Valid := by
  simp only [Program.step, Option.map_eq_some_iff] at stepped
  obtain ⟨heap, made, rfl⟩ := stepped
  obtain ⟨vacant, after⟩ := Heap.make_owners made
  refine ⟨vacant, after, rfl, rfl, ?_, ?_, ?_⟩
  · refine Heap.make_exclusive valid.exclusive ?_ made
    intro s held
    have bound := valid.owned _ _ held
    omega
  · intro id s held
    simp only [List.length_append, List.length_singleton]
    rcases (Heap.make_holds made id s).mp held with held | ⟨rfl, rfl⟩
    · have bound := valid.owned _ _ held
      omega
    · omega
  · intro call member
    have bound := valid.called call member
    simp only [List.length_append, List.length_singleton]
    omega

theorem guard_step {p q : Program L} {op : GuardOp} (valid : p.Valid)
    (stepped : p.step (.guard op) = some q) :
    q.heap.owners = p.heap.owners.after op ∧ q.created = p.created ∧
      q.calls = p.calls ++ (p.heap.owners.call op).toList ∧ q.Valid := by
  simp only [Program.step, Option.map_eq_some_iff] at stepped
  obtain ⟨⟨heap, call⟩, applied, rfl⟩ := stepped
  obtain ⟨after, rfl⟩ := Heap.apply_owners applied
  refine ⟨after, rfl, rfl, Heap.apply_exclusive valid.exclusive applied, ?_, ?_⟩
  · intro id slot held
    rcases Heap.apply_holds valid.exclusive applied with ⟨_, same⟩ | ⟨c, _, _, same⟩
    · exact valid.owned id slot ((same id slot).mp held)
    · exact valid.owned id slot ((same id slot).mp held).1
  · intro call member
    rcases List.mem_append.mp member with old | new
    · exact valid.called call old
    · rcases Heap.apply_holds valid.exclusive applied with ⟨silent, _⟩ | ⟨c, called, held, _⟩
      · simp [silent] at new
      · simp only [called, Option.toList_some, List.mem_singleton] at new
        exact new ▸ valid.owned _ _ held

theorem valid_step {p q : Program L} {op : ProgramOp L} (valid : p.Valid)
    (stepped : p.step op = some q) : q.Valid := by
  cases op with
  | make dst slot => exact (make_step valid stepped).2.2.2.2
  | guard op => exact (guard_step valid stepped).2.2.2

theorem calls_elsewhere {p q : Program L} {id : Nat} {call : Completion L}
    (calls : q.calls = p.calls ++ [call]) (different : call.id ≠ id) :
    callsFor q id = callsFor p id := by
  simp [callsFor, calls, List.filter_append, different]

/-- Removing the entry at `addr` completes the slot `addr` owned and no other. -/
theorem callsFor_completion {p q : Program L} {addr a id : Nat} {slot : Slot L}
    {status : CompletionStatus} (valid : p.Valid)
    (owned : p.heap.owners addr = some (id, slot))
    (calls : q.calls = p.calls ++ (p.heap.owners.completion a status).toList) :
    callsFor q id = callsFor p id ++ if a = addr then [⟨id, slot, status⟩] else [] := by
  by_cases here : a = addr
  · subst here
    simp [callsFor, calls, Owners.completion, owned, List.filter_append]
  · rw [if_neg here, List.append_nil]
    cases present : p.heap.owners a with
    | none => simp [callsFor, calls, Owners.completion, present]
    | some other =>
      have called : q.calls = p.calls ++ [⟨other.1, other.2, status⟩] := by
        simpa [Owners.completion, present] using calls
      exact calls_elsewhere called fun same => here (valid.exclusive present owned same)

theorem not_held_of_cleared {o : Owners L} (exclusive : o.Exclusive) {addr id : Nat}
    {slot : Slot L} (owned : o addr = some (id, slot)) (s : Slot L) :
    ¬ (o.clear addr).Holds id s := fun held =>
  ((Owners.holds_clear exclusive addr id s).mp held).2 _ owned rfl

/-- One operation either passes the slot on to the address that `fate` follows next,
or completes it with the status that `fate` reads off. -/
theorem fate_step {p q : Program L} {op : ProgramOp L} {addr id : Nat} {slot : Slot L}
    (valid : p.Valid) (owned : p.heap.owners addr = some (id, slot))
    (stepped : p.step op = some q) :
    (∃ next, q.heap.owners next = some (id, slot) ∧ callsFor q id = callsFor p id ∧
        ∀ rest, fate addr (op :: rest) = fate next rest) ∨
      ∃ status, (∀ s, ¬ q.heap.owners.Holds id s) ∧
        callsFor q id = callsFor p id ++ [⟨id, slot, status⟩] ∧
        ∀ rest, fate addr (op :: rest) = some status := by
  cases op with
  | make dst made =>
    obtain ⟨vacant, after, _, calls, _⟩ := make_step valid stepped
    refine .inl ⟨addr, ?_, by simp only [callsFor, calls], fun rest => rfl⟩
    rw [after, Function.update_apply, if_neg, owned]
    rintro rfl
    rw [vacant] at owned
    contradiction
  | guard op =>
    obtain ⟨after, _, calls, _⟩ := guard_step valid stepped
    cases op with
    | moveConstruct dst src =>
      simp only [Owners.call, Option.toList_none, List.append_nil] at calls
      have vacant : p.heap.owners dst = none := by
        simp only [Program.step, Heap.apply, Option.map_eq_some_iff] at stepped
        obtain ⟨_, applied, _⟩ := stepped
        split at applied
        · rename_i target _
          simp only [Heap.owners, target, Option.bind_none]
        · contradiction
      have elsewhere : addr ≠ dst := by
        rintro rfl
        rw [vacant] at owned
        contradiction
      refine .inl ⟨if src = addr then dst else addr, ?_, by simp only [callsFor, calls],
        fun rest => rfl⟩
      rw [after, Owners.after, Owners.move_apply]
      by_cases source : src = addr
      · subst source
        simp [Ne.symm elsewhere, owned]
      · simp [source, Ne.symm source, elsewhere, owned]
    | moveAssign dst src =>
      by_cases same : dst = src
      · simp only [Owners.after, Owners.call, if_pos same, Option.toList_none,
          List.append_nil] at after calls
        exact .inl ⟨addr, by rw [after, owned], by simp only [callsFor, calls],
          fun rest => by simp only [fate, if_pos same]⟩
      · simp only [Owners.after, Owners.call, if_neg same] at after calls
        have changed := callsFor_completion valid owned calls
        by_cases target : dst = addr
        · subst target
          refine .inr ⟨.ignored, ?_, by rw [changed, if_pos rfl], fun rest => by simp [fate, same]⟩
          intro s held
          rw [after, Owners.holds_move same] at held
          exact not_held_of_cleared valid.exclusive owned s held
        · refine .inl ⟨if src = addr then dst else addr, ?_,
            by rw [changed, if_neg target, List.append_nil],
            fun rest => by simp [fate, same, target]⟩
          rw [after, Owners.move_apply]
          by_cases source : src = addr
          · subst source
            simp [same, owned]
          · simp [source, Ne.symm source, Ne.symm target, owned]
    | complete a status =>
      have changed := callsFor_completion valid owned calls
      by_cases here : a = addr
      · subst here
        refine .inr ⟨status, ?_, by rw [changed, if_pos rfl], fun rest => by simp [fate]⟩
        intro s held
        rw [after] at held
        exact not_held_of_cleared valid.exclusive owned s held
      · refine .inl ⟨addr, ?_, by rw [changed, if_neg here, List.append_nil],
          fun rest => by simp [fate, here]⟩
        rw [after, Owners.after, Owners.clear_apply, if_neg (Ne.symm here), owned]
    | destroy a =>
      have changed := callsFor_completion valid owned calls
      by_cases here : a = addr
      · subst here
        refine .inr ⟨.ignored, ?_, by rw [changed, if_pos rfl], fun rest => by simp [fate]⟩
        intro s held
        rw [after] at held
        exact not_held_of_cleared valid.exclusive owned s held
      · refine .inl ⟨addr, ?_, by rw [changed, if_neg here, List.append_nil],
          fun rest => by simp [fate, here]⟩
        rw [after, Owners.after, Owners.clear_apply, if_neg (Ne.symm here), owned]

/-- A slot without an owner stays so, and is not completed again. -/
theorem unowned_step {p q : Program L} {op : ProgramOp L} {id : Nat} (valid : p.Valid)
    (created : id < p.created.length) (unowned : ∀ s, ¬ p.heap.owners.Holds id s)
    (stepped : p.step op = some q) :
    id < q.created.length ∧ (∀ s, ¬ q.heap.owners.Holds id s) ∧
      callsFor q id = callsFor p id := by
  cases op with
  | make dst made =>
    simp only [Program.step, Option.map_eq_some_iff] at stepped
    obtain ⟨heap, made, rfl⟩ := stepped
    refine ⟨by simp only [List.length_append]; omega, ?_, rfl⟩
    intro s held
    rcases (Heap.make_holds made id s).mp held with held | ⟨rfl, _⟩
    · exact unowned s held
    · omega
  | guard op =>
    simp only [Program.step, Option.map_eq_some_iff] at stepped
    obtain ⟨⟨heap, call⟩, applied, rfl⟩ := stepped
    rcases Heap.apply_holds valid.exclusive applied with ⟨rfl, same⟩ | ⟨c, rfl, held, same⟩
    · exact ⟨created, fun s h => unowned s ((same id s).mp h), by simp [callsFor]⟩
    · refine ⟨created, fun s h => unowned s ((same id s).mp h).1, ?_⟩
      exact calls_elsewhere rfl fun equal => unowned c.slot (equal ▸ held)

theorem unowned_run {p q : Program L} {ops : List (ProgramOp L)} {id : Nat} (valid : p.Valid)
    (created : id < p.created.length) (unowned : ∀ s, ¬ p.heap.owners.Holds id s)
    (ran : run Program.step p ops = some q) : callsFor q id = callsFor p id := by
  induction ops generalizing p with
  | nil =>
    cases ran
    rfl
  | cons op ops ih =>
    obtain ⟨middle, first, rest⟩ := run_cons_eq_some.mp ran
    obtain ⟨stillCreated, stillUnowned, same⟩ := unowned_step valid created unowned first
    rw [ih (valid_step valid first) stillCreated stillUnowned rest, same]

theorem fate_run {p q : Program L} {ops : List (ProgramOp L)} {addr id : Nat} {slot : Slot L}
    (valid : p.Valid) (owned : p.heap.owners addr = some (id, slot))
    (ran : run Program.step p ops = some q) :
    (fate addr ops = none ∧ q.heap.owners.Holds id slot) ∨
      ∃ status, fate addr ops = some status ∧
        callsFor q id = callsFor p id ++ [⟨id, slot, status⟩] := by
  induction ops generalizing p addr with
  | nil =>
    cases ran
    exact .inl ⟨rfl, addr, owned⟩
  | cons op ops ih =>
    obtain ⟨middle, first, rest⟩ := run_cons_eq_some.mp ran
    have created : id < p.created.length := valid.owned id slot ⟨addr, owned⟩
    rcases fate_step valid owned first with
      ⟨next, passed, same, follows⟩ | ⟨status, gone, completed, follows⟩
    · rw [follows, ← same]
      exact ih (valid_step valid first) passed rest
    · refine .inr ⟨status, follows ops, ?_⟩
      have stays : id < middle.created.length := by
        cases op with
        | make dst made =>
          rw [(make_step valid first).2.2.1, List.length_append]
          omega
        | guard op => rwa [(guard_step valid first).2.1]
      rw [unowned_run (valid_step valid first) stays gone rest, completed]

theorem created_run {p q : Program L} {ops : List (ProgramOp L)} (valid : p.Valid)
    (ran : run Program.step p ops = some q) :
    q.Valid ∧ q.created.length = p.created.length + makes ops := by
  induction ops generalizing p with
  | nil =>
    cases ran
    exact ⟨valid, rfl⟩
  | cons op ops ih =>
    obtain ⟨middle, first, rest⟩ := run_cons_eq_some.mp ran
    obtain ⟨finally_, counted⟩ := ih (valid_step valid first) rest
    refine ⟨finally_, counted.trans ?_⟩
    cases op with
    | make dst made =>
      rw [(make_step valid first).2.2.1, List.length_append, List.length_singleton, makes]
      omega
    | guard op => rw [(guard_step valid first).2.1, makes]

/-- However guards are moved, overwritten, completed and destroyed, once every object
is gone each created slot has been completed exactly once, with its own fields and
with the status its owners' history prescribes, and nothing else has been completed. -/
theorem completed_exactly_once {program : List (ProgramOp L)} {p : Program L}
    (ran : run Program.step Program.start program = some p)
    (destroyed : ∀ addr, p.heap addr = none) :
    (∀ call ∈ p.calls, call.id < makes program) ∧
      ∀ before dst slot after, program = before ++ .make dst slot :: after →
        ∃ status, fate dst after = some status ∧
          callsFor p (makes before) = [⟨makes before, slot, status⟩] := by
  constructor
  · intro call member
    obtain ⟨valid, counted⟩ := created_run start_valid ran
    have bound := valid.called call member
    simpa only [counted, Program.start, List.length_nil, Nat.zero_add] using bound
  · rintro before dst slot after rfl
    obtain ⟨atMake, toMake, fromMake⟩ := run_append_eq_some.mp ran
    obtain ⟨made, makeStep, rest⟩ := run_cons_eq_some.mp fromMake
    obtain ⟨valid, counted⟩ := created_run start_valid toMake
    simp only [Program.start, List.length_nil, Nat.zero_add] at counted
    obtain ⟨_, owners, _, calls, madeValid⟩ := make_step valid makeStep
    have owned : made.heap.owners dst = some (makes before, slot) := by
      rw [owners, Function.update_self, counted]
    have fresh : callsFor made (makes before) = [] := by
      simp only [callsFor, calls, List.filter_eq_nil_iff, decide_eq_true_eq]
      intro call member same
      have bound := valid.called call member
      omega
    rcases fate_run madeValid owned rest with ⟨_, addr, held⟩ | ⟨status, fated, completed⟩
    · simp [Heap.owners, destroyed] at held
    · exact ⟨status, fated, by rw [completed, fresh, List.nil_append]⟩

/-- A guard moved, completed through its new owner, and overwritten by a second one. -/
def relay : List (ProgramOp Unit) :=
  [.make 0 ⟨(), 5, 1, false, -1⟩, .guard (.moveConstruct 1 0), .guard (.complete 0 .success),
    .guard (.complete 1 .dropped), .make 2 ⟨(), 6, 2, false, 0⟩, .guard (.moveAssign 1 2),
    .guard (.moveAssign 1 1), .guard (.destroy 0), .guard (.destroy 1), .guard (.destroy 2)]

theorem relay_completed_exactly_once : ∃ p, run Program.step Program.start relay = some p ∧
    (∀ addr, p.heap addr = none) ∧
    callsFor p 0 = [⟨0, ⟨(), 5, 1, false, -1⟩, .dropped⟩] ∧
    callsFor p 1 = [⟨1, ⟨(), 6, 2, false, 0⟩, .ignored⟩] := by
  obtain ⟨p, ran, gone⟩ : ∃ p, run Program.step Program.start relay = some p ∧
      ∀ addr, p.heap addr = none := by
    refine ⟨_, rfl, ?_⟩
    intro addr
    simp only [Heap.move, Function.update_apply, Program.start]
    split_ifs <;> rfl
  have exact := (completed_exactly_once ran gone).2
  obtain ⟨first, fated, called⟩ := exact [] 0 _ _ rfl
  obtain ⟨second, fated', called'⟩ := exact (relay.take 4) 2 ⟨(), 6, 2, false, 0⟩ (relay.drop 5) rfl
  cases fated
  cases fated'
  exact ⟨p, ran, gone, called, called'⟩
end Limen.SlotGuard
