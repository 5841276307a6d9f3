import Limen.SlotGuard

/-! Which address still has to complete which slot. Moves carry an entry, completion,
overwriting and destruction remove one, and exactly the removals reach the limiter. -/
namespace Limen
variable {L : Type}

abbrev Owners (L : Type) := Nat → Option (Nat × Slot L)

namespace Owners

def clear (o : Owners L) (addr : Nat) : Owners L := Function.update o addr none

def move (o : Owners L) (dst src : Nat) : Owners L :=
  Function.update (Function.update o dst (o src)) src none

/-- The completion that removing the entry at `addr` causes. -/
def completion (o : Owners L) (addr : Nat) (status : CompletionStatus) :
    Option (Completion L) :=
  (o addr).map fun owned => ⟨owned.1, owned.2, status⟩

def after (o : Owners L) : GuardOp → Owners L
  | .moveConstruct dst src => o.move dst src
  | .moveAssign dst src => if dst = src then o else o.move dst src
  | .complete addr _ | .destroy addr => o.clear addr

def call (o : Owners L) : GuardOp → Option (Completion L)
  | .moveConstruct _ _ => none
  | .moveAssign dst src => if dst = src then none else o.completion dst .ignored
  | .complete addr status => o.completion addr status
  | .destroy addr => o.completion addr .ignored

/-- No slot has two owners. -/
def Exclusive (o : Owners L) : Prop :=
  ∀ ⦃a b owned other⦄, o a = some owned → o b = some other → owned.1 = other.1 → a = b

def Holds (o : Owners L) (id : Nat) (slot : Slot L) : Prop := ∃ addr, o addr = some (id, slot)

theorem clear_apply (o : Owners L) (addr a : Nat) :
    o.clear addr a = if a = addr then none else o a := by
  simp [clear, Function.update_apply]

theorem move_apply (o : Owners L) (dst src a : Nat) :
    o.move dst src a = if a = src then none else if a = dst then o src else o a := by
  simp [move, Function.update_apply]

theorem exclusive_clear {o : Owners L} (exclusive : o.Exclusive) (addr : Nat) :
    (o.clear addr).Exclusive := by
  intro a b owned other ha hb same
  simp only [clear_apply] at ha hb
  split at ha
  · contradiction
  split at hb
  · contradiction
  exact exclusive ha hb same

theorem exclusive_move {o : Owners L} (exclusive : o.Exclusive) (dst src : Nat) :
    (o.move dst src).Exclusive := by
  intro a b owned other ha hb same
  simp only [move_apply] at ha hb
  split at ha
  · contradiction
  split at hb
  · contradiction
  split at ha <;> split at hb
  · omega
  · exact absurd (exclusive ha hb same).symm ‹_›
  · exact absurd (exclusive ha hb same) ‹_›
  · exact exclusive ha hb same

theorem exclusive_after {o : Owners L} (exclusive : o.Exclusive) (op : GuardOp) :
    (o.after op).Exclusive := by
  cases op with
  | moveConstruct dst src => exact exclusive_move exclusive dst src
  | moveAssign dst src =>
    simp only [after]
    split
    · exact exclusive
    · exact exclusive_move exclusive dst src
  | complete addr status => exact exclusive_clear exclusive addr
  | destroy addr => exact exclusive_clear exclusive addr

theorem holds_clear {o : Owners L} (exclusive : o.Exclusive) (addr id : Nat) (slot : Slot L) :
    (o.clear addr).Holds id slot ↔
      o.Holds id slot ∧ ∀ owned, o addr = some owned → id ≠ owned.1 := by
  constructor
  · rintro ⟨a, ha⟩
    rw [clear_apply] at ha
    split at ha
    · contradiction
    · refine ⟨⟨a, ha⟩, ?_⟩
      intro owned atAddr same
      exact absurd (exclusive ha atAddr same) ‹_›
  · rintro ⟨⟨a, ha⟩, other⟩
    refine ⟨a, ?_⟩
    rw [clear_apply, if_neg]
    · exact ha
    · rintro rfl
      exact other _ ha rfl

/-- Moving over `dst` keeps every entry except the one `dst` had. -/
theorem holds_move {o : Owners L} {dst src : Nat} (distinct : dst ≠ src) (id : Nat)
    (slot : Slot L) : (o.move dst src).Holds id slot ↔ (o.clear dst).Holds id slot := by
  constructor
  · rintro ⟨a, ha⟩
    rw [move_apply] at ha
    split at ha
    · contradiction
    · split at ha
      · exact ⟨src, by rw [clear_apply, if_neg (Ne.symm distinct), ha]⟩
      · exact ⟨a, by rw [clear_apply, if_neg ‹_›, ha]⟩
  · rintro ⟨a, ha⟩
    rw [clear_apply] at ha
    split at ha
    · contradiction
    · by_cases moved : a = src
      · subst moved
        exact ⟨dst, by rw [move_apply, if_neg distinct, if_pos rfl, ha]⟩
      · exact ⟨a, by rw [move_apply, if_neg moved, if_neg ‹_›, ha]⟩
end Owners

namespace Heap

def owners (h : Heap L) : Owners L := fun addr => (h addr).bind SlotGuard.pending

theorem owners_update (h : Heap L) (addr : Nat) (object : Option (SlotGuard L)) :
    owners (Function.update h addr object) =
      Function.update h.owners addr (object.bind SlotGuard.pending) := by
  funext a
  simp only [owners, Function.update_apply]
  split <;> rfl

theorem owners_move (h : Heap L) (dst src : Nat) {g : SlotGuard L} (present : h src = some g) :
    (h.move dst src g).owners = h.owners.move dst src := by
  have source : h.owners src = g.pending := by simp only [owners, present, Option.bind_some]
  simp only [Heap.move, owners_update, Option.bind_some, SlotGuard.pending_movedFrom, Owners.move,
    source]

theorem notify_owners (h : Heap L) {addr : Nat} {g : SlotGuard L} (present : h addr = some g)
    (status : CompletionStatus) : g.notify status = h.owners.completion addr status := by
  rw [SlotGuard.notify_eq, Owners.completion, owners, present, Option.bind_some]

theorem make_owners {h h' : Heap L} {dst id : Nat} {slot : Slot L}
    (made : h.make dst id slot = some h') :
    h.owners dst = none ∧ h'.owners = Function.update h.owners dst (some (id, slot)) := by
  unfold make at made
  split at made
  · rename_i empty
    cases made
    exact ⟨by simp only [owners, empty, Option.bind_none], by rw [owners_update]; rfl⟩
  · contradiction

/-- Every guard operation acts on the ownership map alone. -/
theorem apply_owners {h h' : Heap L} {op : GuardOp} {call : Option (Completion L)}
    (applied : h.apply op = some (h', call)) :
    h'.owners = h.owners.after op ∧ call = h.owners.call op := by
  cases op with
  | moveConstruct dst src =>
    simp only [apply] at applied
    split at applied
    · rename_i other _ source
      cases applied
      exact ⟨owners_move h dst src source, rfl⟩
    · contradiction
  | moveAssign dst src =>
    simp only [apply] at applied
    split at applied
    · rename_i g other target source
      split at applied
      · cases applied
        simp only [Owners.after, Owners.call, if_pos ‹dst = src›, and_self]
      · cases applied
        simp only [Owners.after, Owners.call, if_neg ‹¬ dst = src›]
        exact ⟨owners_move h dst src source, notify_owners h target .ignored⟩
    · contradiction
  | complete addr status =>
    simp only [apply, Option.map_eq_some_iff, Prod.mk.injEq] at applied
    obtain ⟨g, present, rfl, rfl⟩ := applied
    constructor
    · rw [owners_update, Option.bind_some, SlotGuard.pending_complete]
      rfl
    · rw [SlotGuard.complete_snd]
      exact notify_owners h present status
  | destroy addr =>
    simp only [apply, Option.map_eq_some_iff, Prod.mk.injEq] at applied
    obtain ⟨g, present, rfl, rfl⟩ := applied
    exact ⟨by rw [owners_update]; rfl, notify_owners h present .ignored⟩

/-- One guard operation either completes nothing and keeps every pending slot, or
completes one pending slot with its own fields and keeps all others. -/
theorem apply_holds {h h' : Heap L} {op : GuardOp} {call : Option (Completion L)}
    (exclusive : h.owners.Exclusive) (applied : h.apply op = some (h', call)) :
    (call = none ∧ ∀ id slot, h'.owners.Holds id slot ↔ h.owners.Holds id slot) ∨
      ∃ c, call = some c ∧ h.owners.Holds c.id c.slot ∧
        ∀ id slot, h'.owners.Holds id slot ↔ h.owners.Holds id slot ∧ id ≠ c.id := by
  obtain ⟨after, called⟩ := apply_owners applied
  have cleared (addr : Nat) (status : CompletionStatus) :
      (h.owners.completion addr status = none ∧
        ∀ id slot, (h.owners.clear addr).Holds id slot ↔ h.owners.Holds id slot) ∨
      ∃ c, h.owners.completion addr status = some c ∧ h.owners.Holds c.id c.slot ∧
        ∀ id slot, (h.owners.clear addr).Holds id slot ↔ h.owners.Holds id slot ∧ id ≠ c.id := by
    simp only [Owners.holds_clear exclusive, Owners.completion]
    cases present : h.owners addr with
    | none => exact .inl ⟨rfl, fun id slot => by simp⟩
    | some owned => exact .inr ⟨_, rfl, ⟨addr, present⟩, fun id slot => by simp⟩
  rw [after, called]
  cases op with
  | moveConstruct dst src =>
    simp only [apply] at applied
    split at applied
    · rename_i other target source
      have distinct : dst ≠ src := by
        rintro rfl
        rw [target] at source
        contradiction
      have vacant : h.owners dst = none := by simp only [owners, target, Option.bind_none]
      refine .inl ⟨rfl, ?_⟩
      intro id slot
      rw [Owners.after, Owners.holds_move distinct, Owners.holds_clear exclusive]
      simp [vacant]
    · contradiction
  | moveAssign dst src =>
    simp only [Owners.after, Owners.call]
    by_cases same : dst = src
    · simp [same]
    · simpa only [if_neg same, Owners.holds_move same] using cleared dst .ignored
  | complete addr status => exact cleared addr status
  | destroy addr => exact cleared addr .ignored

theorem apply_exclusive {h h' : Heap L} {op : GuardOp} {call : Option (Completion L)}
    (exclusive : h.owners.Exclusive) (applied : h.apply op = some (h', call)) :
    h'.owners.Exclusive :=
  (apply_owners applied).1 ▸ Owners.exclusive_after exclusive op

theorem make_holds {h h' : Heap L} {dst id : Nat} {slot : Slot L}
    (made : h.make dst id slot = some h') (other : Nat) (s : Slot L) :
    h'.owners.Holds other s ↔ h.owners.Holds other s ∨ (other = id ∧ s = slot) := by
  obtain ⟨vacant, after⟩ := make_owners made
  rw [after]
  constructor
  · rintro ⟨a, ha⟩
    rw [Function.update_apply] at ha
    split at ha
    · cases ha
      exact .inr ⟨rfl, rfl⟩
    · exact .inl ⟨a, ha⟩
  · rintro (⟨a, ha⟩ | ⟨rfl, rfl⟩)
    · refine ⟨a, ?_⟩
      rw [Function.update_apply, if_neg, ha]
      rintro rfl
      rw [vacant] at ha
      contradiction
    · exact ⟨dst, Function.update_self ..⟩

theorem make_exclusive {h h' : Heap L} {dst id : Nat} {slot : Slot L}
    (exclusive : h.owners.Exclusive) (fresh : ∀ s, ¬ h.owners.Holds id s)
    (made : h.make dst id slot = some h') : h'.owners.Exclusive := by
  obtain ⟨vacant, after⟩ := make_owners made
  rw [after]
  intro a b owned other ha hb same
  rw [Function.update_apply] at ha hb
  split at ha <;> split at hb
  · rename_i left right
    exact left.trans right.symm
  · cases ha
    obtain ⟨otherId, otherSlot⟩ := other
    obtain rfl : id = otherId := same
    exact absurd ⟨b, hb⟩ (fresh otherSlot)
  · cases hb
    obtain ⟨ownedId, ownedSlot⟩ := owned
    obtain rfl : ownedId = id := same
    exact absurd ⟨a, ha⟩ (fresh ownedSlot)
  · exact exclusive ha hb same

/-- The guards still have to complete exactly the slots that `held` records. -/
structure Agrees (h : Heap L) (held : Nat → Option (Slot L)) : Prop where
  exclusive : h.owners.Exclusive
  holds : ∀ id slot, h.owners.Holds id slot ↔ held id = some slot

theorem agrees_construct {h h' : Heap L} {held held' : Nat → Option (Slot L)} {dst id : Nat}
    {made : Option (Slot L)} (agrees : h.Agrees held) (free : held id = none)
    (constructed : h.construct dst id made = some h')
    (same : ∀ other, other ≠ id → held' other = held other) (new : held' id = made) :
    h'.Agrees held' := by
  cases made with
  | none =>
    cases constructed
    refine ⟨agrees.exclusive, ?_⟩
    intro other slot
    rw [agrees.holds]
    by_cases here : other = id
    · rw [here, free, new]
    · rw [same other here]
  | some slot =>
    refine ⟨make_exclusive agrees.exclusive ?_ constructed, ?_⟩
    · intro s held
      rw [agrees.holds, free] at held
      contradiction
    · intro other s
      rw [make_holds constructed, agrees.holds]
      by_cases here : other = id
      · simp [here, free, new, eq_comm]
      · simp [here, same other here]

/-- A guard operation completes nothing, or one slot on record. -/
theorem agrees_apply {h h' : Heap L} {held : Nat → Option (Slot L)} {op : GuardOp}
    {completion : Option (Completion L)} (agrees : h.Agrees held)
    (applied : h.apply op = some (h', completion)) :
    (completion = none ∧ h'.Agrees held) ∨
      ∃ call, completion = some call ∧ held call.id = some call.slot ∧
        ∀ held', (∀ other, other ≠ call.id → held' other = held other) → held' call.id = none →
          h'.Agrees held' := by
  have exclusive := apply_exclusive agrees.exclusive applied
  rcases apply_holds agrees.exclusive applied with ⟨silent, same⟩ | ⟨call, called, held_, same⟩
  · refine .inl ⟨silent, exclusive, ?_⟩
    intro id slot
    rw [same, agrees.holds]
  · refine .inr ⟨call, called, (agrees.holds _ _).mp held_, ?_⟩
    intro held' others gone
    refine ⟨exclusive, ?_⟩
    intro id slot
    rw [same, agrees.holds]
    by_cases here : id = call.id
    · simp [here, gone]
    · simp [here, others id here]
end Heap
end Limen
