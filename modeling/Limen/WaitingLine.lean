import Mathlib.Data.List.Nodup

/-! The journal of a waiting line: who joins, who is served and who gives up. -/
namespace WaitingLine
variable {α : Type*} [DecidableEq α]

inductive Turn (α : Type*) where
  | pushed (a : α)
  | handed (a : α)
  | timedOut (a : α)
  deriving DecidableEq, Repr

def Turn.pushed? : Turn α → Option α
  | .pushed a => some a
  | _ => none

omit [DecidableEq α] in
/-- Those who joined, in the order in which they did. -/
def pushes (journal : List (Turn α)) : List α := journal.filterMap Turn.pushed?

def Turn.handed? : Turn α → Option α
  | .handed a => some a
  | _ => none

omit [DecidableEq α] in
/-- Those who were served, in the order in which they were. -/
def deliveries (journal : List (Turn α)) : List α := journal.filterMap Turn.handed?

def Left (journal : List (Turn α)) (a : α) : Prop :=
  .handed a ∈ journal ∨ .timedOut a ∈ journal

instance (journal : List (Turn α)) (a : α) : Decidable (Left journal a) :=
  inferInstanceAs (Decidable (_ ∨ _))

/-- Those who joined and have not left. -/
def waiting (journal : List (Turn α)) : List α :=
  (pushes journal).filter fun a => ¬ Left journal a

omit [DecidableEq α] in
@[simp] theorem pushes_append (journal more : List (Turn α)) :
    pushes (journal ++ more) = pushes journal ++ pushes more := by simp [pushes]

omit [DecidableEq α] in
@[simp] theorem deliveries_append (journal more : List (Turn α)) :
    deliveries (journal ++ more) = deliveries journal ++ deliveries more := by simp [deliveries]

omit [DecidableEq α] in
theorem left_append {journal more : List (Turn α)} {a : α} :
    Left (journal ++ more) a ↔ Left journal a ∨ Left more a := by
  simp only [Left, List.mem_append]
  tauto

section Single
omit [DecidableEq α]

@[simp] theorem pushes_pushed (a : α) : pushes [.pushed a] = [a] := rfl

@[simp] theorem pushes_timedOut (a : α) : pushes [.timedOut a] = [] := rfl

@[simp] theorem pushes_handed (served : List α) : pushes (served.map .handed) = [] := by
  simp [pushes, List.filterMap_map, Function.comp_def, Turn.pushed?]

@[simp] theorem deliveries_handed (served : List α) : deliveries (served.map .handed) = served := by
  simp [deliveries, List.filterMap_map, Function.comp_def, Turn.handed?]

@[simp] theorem left_pushed (a b : α) : ¬ Left [.pushed a] b := by simp [Left]

@[simp] theorem left_timedOut (a b : α) : Left [.timedOut a] b ↔ b = a := by simp [Left]

@[simp] theorem left_handed (served : List α) (b : α) :
    Left (served.map .handed) b ↔ b ∈ served := by simp [Left]
end Single

theorem waiting_pushed {journal : List (Turn α)} {a : α} (fresh : ¬ Left journal a) :
    waiting (journal ++ [.pushed a]) = waiting journal ++ [a] := by
  simp [waiting, left_append, fresh]

/-- Nobody joins by leaving. -/
theorem waiting_left {journal more : List (Turn α)} (leaves : pushes more = []) :
    waiting (journal ++ more) = (waiting journal).filter fun a => ¬ Left more a := by
  rw [waiting, pushes_append, leaves, List.append_nil, waiting, List.filter_filter]
  apply List.filter_congr
  intro a _
  simp only [left_append, not_or, Bool.decide_and, Bool.and_comm]

theorem waiting_timedOut (journal : List (Turn α)) (a : α) :
    waiting (journal ++ [.timedOut a]) = (waiting journal).filter fun b => b ≠ a := by
  simp [waiting_left (pushes_timedOut a)]

theorem waiting_handed (journal : List (Turn α)) (served : List α) :
    waiting (journal ++ served.map .handed) = (waiting journal).filter fun a => a ∉ served := by
  simp [waiting_left (pushes_handed served)]

theorem filter_served {served rest : List α} (nodup : (served ++ rest).Nodup) :
    (served ++ rest).filter (fun a => a ∉ served) = rest := by
  obtain ⟨_, _, apart⟩ := List.nodup_append.mp nodup
  have gone : served.filter (fun a => a ∉ served) = [] := by simp
  have stay : rest.filter (fun a => a ∉ served) = rest := by
    rw [List.filter_eq_self]
    intro a member
    simpa using fun before => apart a before a member rfl
  rw [List.filter_append, gone, stay, List.nil_append]

theorem nodup_waiting {journal : List (Turn α)} (nodup : (pushes journal).Nodup) :
    (waiting journal).Nodup := nodup.filter _

/-- Who joined before the one in front has left. -/
theorem left_of_front {journal : List (Turn α)} (nodup : (pushes journal).Nodup) {a b : α}
    {rest : List α} (front : waiting journal = b :: rest) (order : [a, b].Sublist (pushes journal)) :
    Left journal a := by
  by_contra stays
  have present : ¬ Left journal b := by
    have member : b ∈ waiting journal := by simp [front]
    simpa using (List.mem_filter.mp member).2
  have kept : [a, b].Sublist (waiting journal) := by
    have filtered := order.filter fun c => ¬ Left journal c
    simpa [stays, present, waiting] using filtered
  rw [front] at kept
  have tail : (b :: rest).Nodup := front ▸ nodup_waiting nodup
  cases kept with
  | cons _ later => exact (List.nodup_cons.mp tail).1 (later.subset (by simp))
  | cons_cons _ later => exact (List.nodup_cons.mp tail).1 (later.subset (by simp))

/-- A line is served from the front: when anyone is handed something, whoever joined before
them was handed something or gave up before that. -/
theorem served_in_order {journal : List (Turn α)} {served rest : List α}
    (nodup : (pushes journal).Nodup) (line : waiting journal = served ++ rest) {before after : List α}
    {a b : α} (split : served = before ++ b :: after)
    (order : [a, b].Sublist (pushes (journal ++ before.map .handed))) :
    Left (journal ++ before.map .handed) a := by
  have same : pushes (journal ++ before.map Turn.handed) = pushes journal := by simp
  have whole : waiting journal = before ++ (b :: after ++ rest) := by simp [line, split]
  have front : waiting (journal ++ before.map .handed) = b :: after ++ rest := by
    rw [waiting_handed, whole]
    exact filter_served (whole ▸ nodup_waiting nodup)
  exact left_of_front (same ▸ nodup) front order

/-- A line is served from the back: whoever is handed something is the last who joined of
those who have not left. -/
theorem served_from_back {journal : List (Turn α)} {served rest : List α}
    (nodup : (pushes journal).Nodup) (line : waiting journal = (served ++ rest).reverse)
    {before after : List α} {b : α} (split : served = before ++ b :: after) :
    (waiting (journal ++ before.map .handed)).getLast? = some b := by
  have whole : waiting journal = (b :: after ++ rest).reverse ++ before.reverse := by
    simp [line, split]
  have stay : waiting (journal ++ before.map .handed) = (b :: after ++ rest).reverse := by
    have apart := List.nodup_reverse.mpr (nodup_waiting nodup)
    rw [whole, List.reverse_append, List.reverse_reverse, List.reverse_reverse] at apart
    rw [waiting_handed, whole, ← List.reverse_append, List.filter_reverse, filter_served apart]
  rw [stay, List.getLast?_reverse]
  rfl
end WaitingLine
