/-
Yfs.Lib.Exclusive — one token, one registered owner.

A resource that is handed around is represented by TOKENS: the places
where the right to it can be (with a holder, cached, in a message on its
way). `Exclusive tok owner held` says that at most one token exists, and
that the register that guards the resource names its owner whenever it
exists.

Every step of a protocol does one of these things to the tokens, and there
is one rule for each: nothing new appears (`sub`), a token moves to
another place of the same owner (`move`), a token is given up and the
register may change (`retire`), a token is made when the register names
nobody (`mint`), and the register changes in a way that still names the
owners (`register`).
-/
import Mathlib

namespace Yfs

/-- At most one token, and `held` names its owner. -/
structure Exclusive {τ κ : Type*} (tok : τ → Prop) (owner : τ → κ) (held : κ → Prop) : Prop where
  unique : ∀ x y, tok x → tok y → x = y
  held : ∀ x, tok x → held (owner x)

namespace Exclusive

variable {τ κ : Type*} {tok tok' : τ → Prop} {owner : τ → κ} {held held' : κ → Prop}

theorem sub (h : Exclusive tok owner held) (hsub : ∀ z, tok' z → tok z) :
    Exclusive tok' owner held :=
  ⟨fun x y hx hy => h.unique x y (hsub x hx) (hsub y hy), fun x hx => h.held x (hsub x hx)⟩

theorem move (h : Exclusive tok owner held) {x y : τ} (hx : tok x) (hown : owner y = owner x)
    (hnew : ∀ z, tok' z → z = y ∨ (tok z ∧ z ≠ x)) : Exclusive tok' owner held := by
  have honly : ∀ z, tok' z → z = y := by
    intro z hz
    rcases hnew z hz with rfl | ⟨hz', hne⟩
    · rfl
    · exact absurd (h.unique z x hz' hx) hne
  refine ⟨fun u v hu hv => (honly u hu).trans (honly v hv).symm, fun z hz => ?_⟩
  rw [honly z hz, hown]
  exact h.held x hx

theorem retire (h : Exclusive tok owner held) {x : τ} (hx : tok x)
    (hold : ∀ z, tok' z → tok z ∧ z ≠ x) : Exclusive tok' owner held' := by
  have hnone : ∀ z, ¬ tok' z := fun z hz => (hold z hz).2 (h.unique z x (hold z hz).1 hx)
  exact ⟨fun u _ hu _ => absurd hu (hnone u), fun z hz => absurd hz (hnone z)⟩

theorem mint (h : Exclusive tok owner held) (hfree : ∀ c, ¬ held c) {y : τ}
    (hy : held' (owner y)) (hnew : ∀ z, tok' z → z = y ∨ tok z) : Exclusive tok' owner held' := by
  have honly : ∀ z, tok' z → z = y := fun z hz =>
    (hnew z hz).resolve_right fun hz' => hfree _ (h.held z hz')
  refine ⟨fun u v hu hv => (honly u hu).trans (honly v hv).symm, fun z hz => ?_⟩
  rw [honly z hz]
  exact hy

theorem register (h : Exclusive tok owner held)
    (hheld : ∀ z, tok z → held (owner z) → held' (owner z)) : Exclusive tok owner held' :=
  ⟨h.unique, fun z hz => hheld z hz (h.held z hz)⟩

end Exclusive

end Yfs
