import Limen.Transition
import Mathlib.Logic.Relation

/-! Numbered tokens that change hands. A token is issued once, lies at one place at a time
and is redeemed once. -/
namespace Custody
open Transition (about)
variable {P T R : Type*}

structure Ledger (P T R : Type*) where
  held : P → Option T
  issued : Nat
  redeemed : List (Nat × R)

/-- Tokens are issued in the order of their numbers and move to free places only. -/
inductive Step [DecidableEq P] (number : T → Nat) : Ledger P T R → Ledger P T R → Prop
  | issue {l : Ledger P T R} {place : P} {token : T} (free : l.held place = none)
      (next : number token = l.issued) :
      Step number l ⟨Function.update l.held place (some token), l.issued + 1, l.redeemed⟩
  | move {l : Ledger P T R} {source target : P} {token : T} (held : l.held source = some token)
      (free : l.held target = none) :
      Step number l ⟨Function.update (Function.update l.held source none) target (some token),
        l.issued, l.redeemed⟩
  | redeem {l : Ledger P T R} {place : P} {token : T} (held : l.held place = some token)
      (receipt : R) :
      Step number l ⟨Function.update l.held place none, l.issued,
        l.redeemed ++ [(number token, receipt)]⟩

abbrev Steps [DecidableEq P] (number : T → Nat) : Ledger P T R → Ledger P T R → Prop :=
  Relation.ReflTransGen (Step number)

structure Sound (number : T → Nat) (l : Ledger P T R) : Prop where
  exclusive : ∀ {p q t u}, l.held p = some t → l.held q = some u → number t = number u → p = q
  outstanding : ∀ {p t}, l.held p = some t → number t < l.issued ∧ about (number t) l.redeemed = []
  accounted : ∀ n < l.issued,
    (∃ p t, l.held p = some t ∧ number t = n) ∨ ∃ receipt, about n l.redeemed = [receipt]
  unissued : ∀ n, l.issued ≤ n → about n l.redeemed = []

theorem empty_sound (number : T → Nat) : Sound number (⟨fun _ => none, 0, []⟩ : Ledger P T R) where
  exclusive := by simp
  outstanding := by simp
  accounted := by simp
  unissued _ _ := rfl

variable {number : T → Nat} {l l' : Ledger P T R}

section Steps
variable [DecidableEq P]

theorem Sound.issue (sound : Sound number l) {place : P} {token : T} (free : l.held place = none)
    (next : number token = l.issued) :
    Sound number ⟨Function.update l.held place (some token), l.issued + 1, l.redeemed⟩ := by
  have cases {p : P} {t : T} (held : Function.update l.held place (some token) p = some t) :
      (p = place ∧ t = token) ∨ (p ≠ place ∧ l.held p = some t) := by
    rw [Function.update_apply] at held
    split at held
    · rename_i here
      exact .inl ⟨here, (Option.some.inj held).symm⟩
    · rename_i other
      exact .inr ⟨other, held⟩
  have old {p : P} {t : T} (held : l.held p = some t) : number t ≠ number token := by
    have below := (sound.outstanding held).1
    omega
  constructor
  · intro p q t u heldP heldQ same
    rcases cases heldP with ⟨rfl, rfl⟩ | ⟨_, beforeP⟩ <;>
      rcases cases heldQ with ⟨rfl, rfl⟩ | ⟨_, beforeQ⟩
    · rfl
    · exact absurd same.symm (old beforeQ)
    · exact absurd same (old beforeP)
    · exact sound.exclusive beforeP beforeQ same
  · intro p t held
    rcases cases held with ⟨_, rfl⟩ | ⟨_, held⟩
    · exact ⟨by dsimp only; omega, sound.unissued _ (Nat.le_of_eq next.symm)⟩
    · obtain ⟨below, pending⟩ := sound.outstanding held
      exact ⟨Nat.lt_succ_of_lt below, pending⟩
  · intro n below
    rcases Nat.lt_succ_iff_lt_or_eq.mp below with before | rfl
    · refine (sound.accounted n before).imp_left ?_
      rintro ⟨p, t, held, numbered⟩
      refine ⟨p, t, ?_, numbered⟩
      dsimp only
      rw [Function.update_of_ne, held]
      rintro rfl
      rw [free] at held
      contradiction
    · exact .inl ⟨place, token, Function.update_self .., next⟩
  · intro n beyond
    exact sound.unissued n (Nat.le_of_succ_le beyond)

theorem Sound.move (sound : Sound number l) {source target : P} {token : T}
    (held : l.held source = some token) (free : l.held target = none) :
    Sound number ⟨Function.update (Function.update l.held source none) target (some token),
      l.issued, l.redeemed⟩ := by
  have cases {p : P} {t : T}
      (there : Function.update (Function.update l.held source none) target (some token) p =
        some t) : (p = target ∧ t = token) ∨ (p ≠ source ∧ l.held p = some t) := by
    simp only [Function.update_apply] at there
    split at there
    · rename_i here
      exact .inl ⟨here, (Option.some.inj there).symm⟩
    · split at there
      · contradiction
      · rename_i other
        exact .inr ⟨other, there⟩
  constructor
  · intro p q t u heldP heldQ same
    rcases cases heldP with ⟨rfl, rfl⟩ | ⟨leftP, beforeP⟩ <;>
      rcases cases heldQ with ⟨rfl, rfl⟩ | ⟨leftQ, beforeQ⟩
    · rfl
    · exact absurd (sound.exclusive beforeQ held same.symm) leftQ
    · exact absurd (sound.exclusive beforeP held same) leftP
    · exact sound.exclusive beforeP beforeQ same
  · intro p t there
    rcases cases there with ⟨_, rfl⟩ | ⟨_, before⟩
    · exact sound.outstanding held
    · exact sound.outstanding before
  · intro n below
    refine (sound.accounted n below).imp_left ?_
    rintro ⟨p, t, before, numbered⟩
    by_cases here : p = source
    · obtain rfl : t = token := by simpa [here, held] using before.symm
      exact ⟨target, t, Function.update_self .., numbered⟩
    · refine ⟨p, t, ?_, numbered⟩
      have other : p ≠ target := by
        rintro rfl
        rw [free] at before
        contradiction
      dsimp only
      rw [Function.update_of_ne other, Function.update_of_ne here, before]
  · exact sound.unissued

theorem Sound.redeem (sound : Sound number l) {place : P} {token : T}
    (held : l.held place = some token) (receipt : R) :
    Sound number ⟨Function.update l.held place none, l.issued,
      l.redeemed ++ [(number token, receipt)]⟩ := by
  have before {p : P} {t : T} (there : Function.update l.held place none p = some t) :
      p ≠ place ∧ l.held p = some t := by
    rw [Function.update_apply] at there
    split at there
    · contradiction
    · exact ⟨‹_›, there⟩
  have log (n : Nat) : about n (l.redeemed ++ [(number token, receipt)]) =
      about n l.redeemed ++ if number token = n then [receipt] else [] := by
    rw [Transition.about_append, Transition.about_single]
  constructor
  · intro p q t u heldP heldQ same
    exact sound.exclusive (before heldP).2 (before heldQ).2 same
  · intro p t there
    obtain ⟨other, held'⟩ := before there
    obtain ⟨below, pending⟩ := sound.outstanding held'
    refine ⟨below, ?_⟩
    rw [log, pending, if_neg]
    · rfl
    · intro same
      exact other (sound.exclusive held' held same.symm)
  · intro n below
    dsimp only
    rw [log]
    by_cases here : number token = n
    · obtain ⟨_, pending⟩ := sound.outstanding held
      rw [here] at pending
      exact .inr ⟨receipt, by rw [pending, if_pos here]; rfl⟩
    · rw [if_neg here, List.append_nil]
      refine (sound.accounted n below).imp_left ?_
      rintro ⟨p, t, there, numbered⟩
      refine ⟨p, t, ?_, numbered⟩
      rw [Function.update_of_ne, there]
      rintro rfl
      obtain rfl : token = t := by simpa [held] using there
      exact here numbered
  · intro n beyond
    have below := (sound.outstanding held).1
    dsimp only at beyond ⊢
    rw [log, sound.unissued n beyond, if_neg (by omega)]
    rfl

theorem Sound.step (sound : Sound number l) (step : Step number l l') : Sound number l' := by
  cases step with
  | issue free next => exact sound.issue free next
  | move held free => exact sound.move held free
  | redeem held receipt => exact sound.redeem held receipt

theorem Sound.steps (sound : Sound number l) (steps : Steps number l l') : Sound number l' := by
  induction steps with
  | refl => exact sound
  | tail _ step ih => exact ih.step step

end Steps

/-- Every token issued is at one place and not redeemed, or nowhere and redeemed once. -/
theorem Sound.custody (sound : Sound number l) {n : Nat} (issued : n < l.issued) :
    ((∃! p, ∃ t, l.held p = some t ∧ number t = n) ∧ about n l.redeemed = []) ∨
      ((∀ p t, l.held p = some t → number t ≠ n) ∧ ∃ receipt, about n l.redeemed = [receipt]) := by
  by_cases there : ∃ p t, l.held p = some t ∧ number t = n
  · obtain ⟨p, t, held, numbered⟩ := there
    refine .inl ⟨⟨p, ⟨t, held, numbered⟩, ?_⟩, numbered ▸ (sound.outstanding held).2⟩
    rintro q ⟨u, held', numbered'⟩
    exact sound.exclusive held' held (numbered'.trans numbered.symm)
  · have redeemed := (sound.accounted n issued).resolve_left there
    exact .inr ⟨fun p t held numbered => there ⟨p, t, held, numbered⟩, redeemed⟩
end Custody
