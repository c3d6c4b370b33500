import Mathlib.Tactic
import Mathlib.Order.WellFoundedSet

/-!
# The depth of a relation

`Within r n a` says that every chain of `r` that starts at `a` has fewer than `n` links. On a
finite type there is such a bound if and only if no element of a cycle can be reached from
`a` (`Depth.exists_within_iff`).
-/

namespace Depth

variable {α : Type*} {r : α → α → Prop}

/-- Every chain from `a` has fewer than `n` links. -/
def Within (r : α → α → Prop) : ℕ → α → Prop
  | 0, _ => False
  | n + 1, a => ∀ b, r a b → Within r n b

theorem Within.mono {n m : ℕ} {a : α} (h : Within r n a) (hnm : n ≤ m) :
  Within r m a
  := by
  induction n generalizing m a with
  | zero => exact h.elim
  | succ n ih =>
      obtain ⟨m, rfl⟩ := Nat.exists_eq_add_of_le' (Nat.one_le_of_lt hnm)
      intro b hb
      apply ih (h b hb) (Nat.le_of_succ_le_succ hnm)

/-- Along a chain the bound gets smaller. -/
theorem Within.of_transGen {n : ℕ} {a b : α} (h : Within r n a) (hab : Relation.TransGen r a b) :
  ∃ m < n, Within r m b
  := by
  have hlink : ∀ {n a b}, Within r n a → r a b → ∃ m < n, Within r m b := by
    intro n a b h hab
    cases n with
    | zero => exact h.elim
    | succ n => exact ⟨n, Nat.lt_succ_self n, h b hab⟩
  induction hab with
  | single hab => apply hlink h hab
  | tail _ hbc ih =>
      obtain ⟨m, hm, hb⟩ := ih
      obtain ⟨k, hk, hc⟩ := hlink hb hbc
      exact ⟨k, hk.trans hm, hc⟩

theorem Within.not_cycle {n : ℕ} {a : α} (h : Within r n a) :
  ¬ Relation.TransGen r a a
  := by
  intro hcycle
  induction n using Nat.strong_induction_on with
  | _ n ih =>
      obtain ⟨m, hm, ha⟩ := h.of_transGen hcycle
      apply ih m hm ha

/-- If the elements next to `a` have bounds, `a` has one. -/
theorem exists_within_of_forall [Finite α] {a : α} (h : ∀ b, r a b → ∃ n, Within r n b) :
  ∃ n, Within r n a
  := by
  have hbound : ∀ b, ∃ n, r a b → Within r n b := by
    intro b
    by_cases hb : r a b
    · obtain ⟨n, hn⟩ := h b hb
      exact ⟨n, fun _ => hn⟩
    · exact ⟨0, fun hb' => absurd hb' hb⟩
  choose bound hbound using hbound
  obtain ⟨n, hn⟩ := Finite.exists_le bound
  use n + 1
  intro b hb
  apply (hbound b hb).mono (hn b)

/-- The chains from `a` are bounded if and only if none leads to a cycle. -/
theorem exists_within_iff [Finite α] (a : α) :
  (∃ n, Within r n a) ↔ ∀ b, Relation.ReflTransGen r a b → ¬ Relation.TransGen r b b
  := by
  constructor
  · rintro ⟨n, hn⟩ b hab
    obtain rfl | hab := Relation.reflTransGen_iff_eq_or_transGen.mp hab
    · apply hn.not_cycle
    · obtain ⟨m, -, hb⟩ := hn.of_transGen hab
      apply hb.not_cycle
  · intro h
    -- the chains inside of what is reachable from `a`
    let below : α → α → Prop := fun c b => Relation.ReflTransGen r a b ∧ Relation.TransGen r b c
    have htrans : IsTrans α below :=
      ⟨fun _ _ _ hcb hdc => ⟨hdc.1, hdc.2.trans hcb.2⟩⟩
    have hirrefl : Std.Irrefl below := ⟨fun b hb => h b hb.1 hb.2⟩
    have hwf : WellFounded below := Finite.wellFounded_of_trans_of_irrefl below
    have hall : ∀ b, Relation.ReflTransGen r a b → ∃ n, Within r n b := by
      intro b
      induction b using hwf.induction with
      | _ b ih =>
          intro hab
          apply exists_within_of_forall
          intro c hbc
          apply ih c ⟨hab, .single hbc⟩ (hab.tail hbc)
    apply hall a .refl

end Depth
