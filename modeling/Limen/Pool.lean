import Mathlib.Data.Set.Card
import Mathlib.Algebra.BigOperators.Intervals
import Mathlib.Algebra.BigOperators.Ring.Finset

/-! Counting the members of an indexed pool while one of them changes. -/
namespace Pool
variable {α : Type*} {l : List α} {i j : Nat} {a b : α}

theorem getElem?_modify_self (f : α → α) (present : l[i]? = some a) :
    (l.modify i f)[i]? = some (f a) := by
  rw [List.getElem?_modify_eq, present]
  rfl

theorem getElem?_modify_other (f : α → α) (other : j ≠ i) : (l.modify i f)[j]? = l[j]? :=
  List.getElem?_modify_ne f l (Ne.symm other)

theorem getElem?_modify_cases {f : α → α} (present : l[i]? = some a)
    (found : (l.modify i f)[j]? = some b) : (j = i ∧ b = f a) ∨ (j ≠ i ∧ l[j]? = some b) := by
  by_cases here : j = i
  · subst here
    rw [getElem?_modify_self f present, Option.some.injEq] at found
    exact .inl ⟨rfl, found.symm⟩
  · rw [getElem?_modify_other f here] at found
    exact .inr ⟨here, found⟩

/-- What holds of a member holds of it afterwards, if the change keeps it. -/
theorem modify_keeps {P : α → Prop} {f : α → α} (present : l[i]? = some a) (found : l[j]? = some b)
    (holds : P b) (keeps : P a → P (f a)) : ∃ b', (l.modify i f)[j]? = some b' ∧ P b' := by
  by_cases here : j = i
  · subst here
    obtain rfl : a = b := Option.some.inj (present.symm.trans found)
    exact ⟨f a, getElem?_modify_self f present, keeps holds⟩
  · exact ⟨b, (getElem?_modify_other f here).trans found, holds⟩

theorem getElem?_concat_eq_some :
    (l ++ [a])[j]? = some b ↔ l[j]? = some b ∨ (j = l.length ∧ b = a) := by
  rcases Nat.lt_trichotomy j l.length with before | rfl | after
  · rw [List.getElem?_append_left before]
    have different : j ≠ l.length := Nat.ne_of_lt before
    simp [different]
  · simp [eq_comm]
  · have different : j ≠ l.length := Nat.ne_of_gt after
    have beyond : (l ++ [a])[j]? = none := by
      rw [List.getElem?_eq_none_iff, List.length_append, List.length_singleton]
      exact after
    rw [beyond, List.getElem?_eq_none (Nat.le_of_lt after)]
    simp [different]

theorem modify_of_fixed {f : α → α} (present : l[i]? = some a) (fixed : f a = a) :
    l.modify i f = l := by
  apply List.ext_getElem?
  intro j
  by_cases here : j = i
  · rw [here, getElem?_modify_self f present, fixed, present]
  · rw [getElem?_modify_other f here]

theorem modify_concat (f : α → α) : (l ++ [a]).modify l.length f = l ++ [f a] := by
  induction l with
  | nil => rfl
  | cons head tail ih => simpa using ih

theorem filter_concat_of_pos {p : α → Bool} (selected : p a = true) :
    (l ++ [a]).filter p = l.filter p ++ [a] := by
  rw [List.filter_append, List.filter_cons_of_pos selected, List.filter_nil]

theorem filter_concat_of_neg {p : α → Bool} (skipped : p a = false) :
    (l ++ [a]).filter p = l.filter p := by
  rw [List.filter_append, List.filter_cons_of_neg (by simpa using skipped), List.filter_nil,
    List.append_nil]

/-- Changing one member changes a count by what that member counted before and after. -/
theorem countP_modify (p : α → Bool) (f : α → α) (present : l[i]? = some a) :
    (l.modify i f).countP p + (if p a then 1 else 0) =
      l.countP p + (if p (f a) then 1 else 0) := by
  induction l generalizing i with
  | nil => simp at present
  | cons head tail ih =>
    cases i with
    | zero =>
      obtain rfl : head = a := by simpa using present
      simp only [List.modify_zero_cons, List.countP_cons]
      omega
    | succ i =>
      have rest := ih (i := i) (by simpa using present)
      simp only [List.modify_succ_cons, List.countP_cons]
      omega

theorem countP_concat (p : α → Bool) (l : List α) (a : α) :
    (l ++ [a]).countP p = l.countP p + (if p a then 1 else 0) := by
  rw [List.countP_append, List.countP_singleton]

/-- Two classes that share no member and make up a third one. -/
theorem countP_add {p q both : α → Bool}
    (apart : ∀ b ∈ l, (both b).toNat = (p b).toNat + (q b).toNat) :
    l.countP both = l.countP p + l.countP q := by
  induction l with
  | nil => rfl
  | cons head tail ih =>
    have here := apart head List.mem_cons_self
    have rest := ih fun b member => apart b (List.mem_cons_of_mem _ member)
    simp only [List.countP_cons, rest]
    cases inBoth : both head <;> cases inP : p head <;> cases inQ : q head <;>
      simp [inBoth, inP, inQ] at here ⊢ <;> omega

/-- A member that only the wider class counts makes the counts differ. -/
theorem countP_lt {p q : α → Bool} (wider : ∀ b ∈ l, p b → q b) (present : l[i]? = some a)
    (outside : p a = false) (inside : q a = true) : l.countP p < l.countP q := by
  induction l generalizing i with
  | nil => simp at present
  | cons head tail ih =>
    have rest (b : α) (member : b ∈ tail) : p b → q b := wider b (List.mem_cons_of_mem _ member)
    cases i with
    | zero =>
      obtain rfl : head = a := by simpa using present
      have tails : tail.countP p ≤ tail.countP q := List.countP_mono_left rest
      simp only [List.countP_cons, outside, inside, if_true]
      simp only [Bool.false_eq_true, if_false]
      omega
    | succ i =>
      have tails := ih rest (by simpa using present)
      have here := wider head List.mem_cons_self
      simp only [List.countP_cons]
      by_cases counted : p head
      · simp only [counted, here counted, if_true]
        omega
      · simp only [counted, Bool.false_eq_true, if_false]
        omega

theorem unique_of_countP_le_one {p : α → Bool} (atMost : l.countP p ≤ 1) (found : l[i]? = some a)
    (found' : l[j]? = some b) (counted : p a = true) (counted' : p b = true) : i = j := by
  induction l generalizing i j with
  | nil => simp at found
  | cons head tail ih =>
    have later {k : Nat} {d : α} (there : tail[k]? = some d) (counts : p d = true) :
        0 < tail.countP p := List.countP_pos_iff.mpr ⟨d, List.mem_of_getElem? there, counts⟩
    rw [List.countP_cons] at atMost
    cases i with
    | zero =>
      cases j with
      | zero => rfl
      | succ j =>
        obtain rfl : head = a := by simpa using found
        have more := later (by simpa using found') counted'
        rw [if_pos counted] at atMost
        omega
    | succ i =>
      cases j with
      | zero =>
        obtain rfl : head = b := by simpa using found'
        have more := later (by simpa using found) counted
        rw [if_pos counted'] at atMost
        omega
      | succ j =>
        have same := ih (by omega) (i := i) (j := j) (by simpa using found) (by simpa using found')
        rw [same]

/-- The place of a position among the members that are selected. -/
def rank (p : α → Bool) (l : List α) (i : Nat) : Nat := (l.take i).countP p

theorem rank_concat (p : α → Bool) (a : α) (within : j ≤ l.length) :
    rank p (l ++ [a]) j = rank p l j := by
  rw [rank, List.take_append_of_le_length within, rank]

theorem rank_modify (p : α → Bool) (f : α → α) (present : l[i]? = some a) (same : p (f a) = p a)
    (j : Nat) : rank p (l.modify i f) j = rank p l j := by
  rw [rank, rank, List.take_modify]
  by_cases inside : i < j
  · have still : (l.take j)[i]? = some a := by rw [List.getElem?_take_of_lt inside, present]
    have recount := countP_modify p f still
    rw [same] at recount
    exact Nat.add_right_cancel recount
  · have beyond : (l.take j).length ≤ i :=
      (List.length_take_le j l).trans (Nat.not_lt.mp inside)
    rw [List.modify_eq_self beyond]

theorem getElem?_filter_rank {p : α → Bool} (present : l[i]? = some a) (selected : p a = true) :
    (l.filter p)[rank p l i]? = some a := by
  induction l generalizing i with
  | nil => simp at present
  | cons head tail ih =>
    cases i with
    | zero =>
      obtain rfl : head = a := by simpa using present
      simp [rank, selected]
    | succ i =>
      have rest := ih (i := i) (by simpa using present)
      rw [rank] at rest ⊢
      rw [List.take_succ_cons, List.countP_cons, List.filter_cons]
      split
      · rw [List.getElem?_cons_succ, rest]
      · rw [Nat.add_zero, rest]

theorem filter_modify_selected {p : α → Bool} {f : α → α} (present : l[i]? = some a)
    (before : p a = true) (after : p (f a) = true) :
    (l.modify i f).filter p = (l.filter p).modify (rank p l i) f := by
  induction l generalizing i with
  | nil => simp at present
  | cons head tail ih =>
    cases i with
    | zero =>
      obtain rfl : head = a := by simpa using present
      simp [rank, before, after]
    | succ i =>
      have rest := ih (i := i) (by simpa using present)
      rw [rank] at rest ⊢
      rw [List.modify_succ_cons, List.take_succ_cons, List.countP_cons, List.filter_cons,
        List.filter_cons, rest]
      split
      · rw [List.modify_succ_cons]
      · rw [Nat.add_zero]

theorem filter_modify_other {p : α → Bool} {f : α → α} (present : l[i]? = some a)
    (before : p a = false) (after : p (f a) = false) :
    (l.modify i f).filter p = l.filter p := by
  induction l generalizing i with
  | nil => simp at present
  | cons head tail ih =>
    cases i with
    | zero =>
      obtain rfl : head = a := by simpa using present
      simp [before, after]
    | succ i =>
      have rest := ih (i := i) (by simpa using present)
      rw [List.modify_succ_cons, List.filter_cons, List.filter_cons, rest]

theorem map_modify {β : Type*} {g : α → β} {f : α → α} {f' : β → β} (present : l[i]? = some a)
    (commutes : g (f a) = f' (g a)) : (l.modify i f).map g = (l.map g).modify i f' := by
  apply List.ext_getElem?
  intro j
  have there : (l.map g)[i]? = some (g a) := by rw [List.getElem?_map, present, Option.map_some]
  rw [List.getElem?_map]
  by_cases here : j = i
  · rw [here, getElem?_modify_self f present, getElem?_modify_self f' there, ← commutes,
      Option.map_some]
  · rw [getElem?_modify_other f here, getElem?_modify_other f' here, List.getElem?_map]

/-- What the members add up to, in whatever order they do: one member can be taken last. -/
theorem foldl_modify {β : Type*} {f : β → α → β} [RightCommutative f] (present : l[i]? = some a)
    (g : α → α) (b : β) :
    ∃ rest, l.foldl f b = f rest a ∧ (l.modify i g).foldl f b = f rest (g a) := by
  induction l generalizing i b with
  | nil => simp at present
  | cons head tail ih =>
    cases i with
    | zero =>
      obtain rfl : head = a := by simpa using present
      have last (x : α) : (x :: tail).foldl f b = f (tail.foldl f b) x := by
        rw [(List.perm_append_singleton x tail).symm.foldl_eq, List.foldl_concat]
      exact ⟨tail.foldl f b, last head, last (g head)⟩
    | succ i => exact ih (i := i) (by simpa using present) (f b head)

theorem sum_map_le {need need' : α → Nat} {d : Nat} (disturbed : ∀ b ∈ l, need' b ≤ need b + d) :
    (l.map need').sum ≤ (l.map need).sum + d * l.length := by
  induction l with
  | nil => simp
  | cons head tail ih =>
    have here := disturbed head List.mem_cons_self
    have rest := ih fun b member => disturbed b (List.mem_cons_of_mem _ member)
    simp only [List.map_cons, List.sum_cons, List.length_cons, Nat.mul_succ]
    omega

/-- What the members need, when one of them moves and the move disturbs each of the others by
no more than `d`. -/
theorem sum_modify_le {need need' : α → Nat} {f : α → α} {d : Nat}
    (disturbed : ∀ b ∈ l, need' b ≤ need b + d) (present : l[i]? = some a) :
    ((l.modify i f).map need').sum + need a ≤
      (l.map need).sum + need' (f a) + d * (l.length - 1) := by
  induction l generalizing i with
  | nil => simp at present
  | cons head tail ih =>
    have later (b : α) (member : b ∈ tail) := disturbed b (List.mem_cons_of_mem _ member)
    cases i with
    | zero =>
      obtain rfl : head = a := by simpa using present
      have others := sum_map_le later
      simp only [List.modify_zero_cons, List.map_cons, List.sum_cons, List.length_cons,
        Nat.add_sub_cancel]
      omega
    | succ i =>
      have found : tail[i]? = some a := by simpa using present
      have here := disturbed head List.mem_cons_self
      have rest := ih later found
      have positive : 0 < tail.length := by
        have inside := (List.getElem?_eq_some_iff.mp found).1
        omega
      have count : d * tail.length = d * (tail.length - 1) + d := by
        rw [← Nat.mul_succ, Nat.succ_eq_add_one, Nat.sub_add_cancel positive]
      simp only [List.modify_succ_cons, List.map_cons, List.sum_cons, List.length_cons,
        Nat.add_sub_cancel]
      omega

/-- What the members need, when one of them moves and leaves the others alone. -/
theorem sum_modify_alone_le {need : α → Nat} {f : α → α} (present : l[i]? = some a) :
    ((l.modify i f).map need).sum + need a ≤ (l.map need).sum + need (f a) := by
  have total : ((l.modify i f).map need).sum + need a ≤
      (l.map need).sum + need (f a) + 0 * (l.length - 1) :=
    sum_modify_le (fun _ _ => Nat.le_refl _) present
  omega

/-- Members counted by a class number below `n`, class by class. -/
theorem sum_countP_class (n : Nat) (p : α → Bool) (cls : α → Nat)
    (bounded : ∀ x ∈ l, p x → cls x < n) :
    ∑ k ∈ Finset.range n, l.countP (fun x => p x && cls x == k) = l.countP p := by
  induction l with
  | nil => simp
  | cons head tail ih =>
    simp only [List.countP_cons, Finset.sum_add_distrib,
      ih fun x member => bounded x (List.mem_cons_of_mem _ member)]
    congr 1
    by_cases counted : p head
    · have small := bounded head List.mem_cons_self counted
      simp [counted, Finset.sum_ite_eq, small]
    · simp [counted]

/-- A sum over the positions is one over the members. -/
theorem sum_range_getElem? {M : Type*} [AddCommMonoid M] (f : Option α → M) (l : List α) :
    ∑ k ∈ Finset.range l.length, f l[k]? = (l.map fun a => f (some a)).sum := by
  induction l using List.reverseRecOn with
  | nil => simp
  | append_singleton l last ih =>
    rw [List.length_append, List.length_singleton, Finset.sum_range_succ, List.map_append,
      List.sum_append, ← ih]
    congr 1
    · apply Finset.sum_congr rfl
      intro k small
      rw [List.getElem?_append_left (Finset.mem_range.mp small)]
    · simp

/-- The positions of the members that are counted are as many as the count says. -/
theorem ncard_positions (p : α → Bool) (l : List α) :
    {i : Nat | ∃ a, l[i]? = some a ∧ p a}.ncard = l.countP p := by
  induction l using List.reverseRecOn with
  | nil => simp
  | append_singleton l last ih =>
    have finite : {i : Nat | ∃ a, l[i]? = some a ∧ p a}.Finite := by
      refine (Set.finite_lt_nat l.length).subset ?_
      rintro i ⟨a, found, _⟩
      exact (List.getElem?_eq_some_iff.mp found).1
    have outside : l.length ∉ {i : Nat | ∃ a, l[i]? = some a ∧ p a} := by
      rintro ⟨a, found, _⟩
      simp at found
    rw [countP_concat, ← ih]
    by_cases counted : p last
    · rw [if_pos counted, ← Set.ncard_insert_of_notMem outside finite]
      congr 1
      ext i
      simp only [Set.mem_ofPred_eq, Set.mem_insert_iff, getElem?_concat_eq_some]
      constructor
      · rintro ⟨a, found | ⟨here, _⟩, counts⟩
        · exact .inr ⟨a, found, counts⟩
        · exact .inl here
      · rintro (here | ⟨a, found, counts⟩)
        · exact ⟨last, .inr ⟨here, rfl⟩, counted⟩
        · exact ⟨a, .inl found, counts⟩
    · rw [if_neg counted, Nat.add_zero]
      congr 1
      ext i
      simp only [Set.mem_ofPred_eq, getElem?_concat_eq_some]
      constructor
      · rintro ⟨a, found | ⟨_, rfl⟩, counts⟩
        · exact ⟨a, found, counts⟩
        · exact absurd counts counted
      · rintro ⟨a, found, counts⟩
        exact ⟨a, .inl found, counts⟩
end Pool
