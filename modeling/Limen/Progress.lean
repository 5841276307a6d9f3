import Limen.Transition

/-! Runs that spend a potential. What a step counts for is drawn from the potential or granted by
its event, so that a run counts for no more than the potential it starts with and what its
events grant. -/
namespace Transition
variable {S E : Type*} {step : S → E → Option S} {s t : S} {es : List E}

theorem countP_le {admits : S → E → Prop} (potential : S → Nat) {counted arrives retries : E → Bool}
    {grant price : Nat}
    (spends : ∀ {s e t}, admits s e → step s e = some t → (counted e).toNat + potential t ≤
      potential s + (grant * (arrives e).toNat + price * (retries e).toNat))
    (ran : run step s es = some t) (along : Along step admits s es) :
    es.countP counted + potential t ≤
      potential s + (grant * es.countP arrives + price * es.countP retries) := by
  have head (p : E → Bool) (e : E) (es : List E) :
      (e :: es).countP p = (p e).toNat + es.countP p := by
    rw [List.countP_cons, Nat.add_comm]
    cases p e <;> rfl
  induction es generalizing s with
  | nil =>
    cases ran
    simp
  | cons e es ih =>
    obtain ⟨middle, first, rest⟩ := run_cons_eq_some.mp ran
    have here := spends along.1 first
    have later := ih rest (along.2 middle first)
    rw [head, head, head, Nat.mul_add, Nat.mul_add]
    omega

/-- A run whose events grant something only when a call arrives. -/
theorem countP_granted_le {admits : S → E → Prop} (potential : S → Nat) {counted arrives : E → Bool}
    {grant : Nat}
    (spends : ∀ {s e t}, admits s e → step s e = some t →
      (counted e).toNat + potential t ≤ potential s + grant * (arrives e).toNat)
    (ran : run step s es = some t) (along : Along step admits s es) :
    es.countP counted + potential t ≤ potential s + grant * es.countP arrives := by
  have spent : es.countP counted + potential t ≤
      potential s + (grant * es.countP arrives + 0 * es.countP arrives) :=
    countP_le potential (fun here stepped => by simpa using spends here stepped) ran along
  simpa using spent

/-- Where each state that is not final has a step which lowers the potential, a run of such
steps leads to a final one. -/
theorem exists_completion (potential : S → Nat) {final : S → Prop} {chosen : E → Prop}
    (onward : ∀ {s}, ¬ final s →
      ∃ e t, step s e = some t ∧ chosen e ∧ potential t < potential s) (s : S) :
    ∃ es t, run step s es = some t ∧ final t ∧ ∀ e ∈ es, chosen e := by
  induction lower : potential s using Nat.strongRecOn generalizing s with
  | ind n ih =>
    subst lower
    by_cases done : final s
    · exact ⟨[], s, rfl, done, by simp⟩
    · obtain ⟨e, middle, first, here, lower⟩ := onward done
      obtain ⟨es, t, rest, ended, later⟩ := ih _ lower middle rfl
      exact ⟨e :: es, t, run_cons_eq_some.mpr ⟨middle, first, rest⟩, ended,
        List.forall_mem_cons.mpr ⟨here, later⟩⟩
end Transition
