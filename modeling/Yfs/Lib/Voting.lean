/-
Yfs.Lib.Voting — one decision by voting in numbered ballots.

Acceptors `α` vote for values `V` in ballots `β`. A ballot has at most
one value, and a value is proposed in a ballot only with the backing of a
quorum: whatever a member of the quorum voted for in an earlier ballot,
some proposal from that ballot on, and before this one, carries the SAME
value as the new proposal. That is all a proposer can know, and it is
enough: once a quorum has voted for a value, every later ballot proposes
that value (`Lawful.safe`), so two chosen values are equal
(`Lawful.agreement`).

Ballots need not be well-ordered. The induction runs over the ballots
that were used, which are finitely many.
-/
import Mathlib

namespace Yfs.Voting

variable {α β V : Type*} [LinearOrder β]

structure History (α β V : Type*) where
  vote : α → β → V → Prop
  proposal : β → V → Prop

/-- Every vote of a member of `Q` before ballot `b` is covered by a proposal
before `b` with value `v`. -/
def Backed (h : History α β V) (Q : Set α) (b : β) (v : V) : Prop :=
  ∀ a ∈ Q, ∀ b' v', h.vote a b' v' → b' < b → ∃ c, b' ≤ c ∧ c < b ∧ h.proposal c v

def Chosen (h : History α β V) (quorum : Set α → Prop) (b : β) (v : V) : Prop :=
  ∃ Q, quorum Q ∧ ∀ a ∈ Q, h.vote a b v

structure Lawful (h : History α β V) (quorum : Set α → Prop) : Prop where
  finite : {b | ∃ v, h.proposal b v}.Finite
  votes : ∀ a b v, h.vote a b v → h.proposal b v
  unique : ∀ b v v', h.proposal b v → h.proposal b v' → v = v'
  meet : ∀ Q Q', quorum Q → quorum Q' → ∃ a, a ∈ Q ∧ a ∈ Q'
  backed : ∀ b v, h.proposal b v → ∃ Q, quorum Q ∧ Backed h Q b v

variable {h : History α β V} {quorum : Set α → Prop}

/-- Once a value is chosen, no later ballot proposes another one. -/
theorem Lawful.safe (hl : Lawful h quorum) {b : β} {v : V} (hc : Chosen h quorum b v) {b' : β}
    {v' : V} (hp : h.proposal b' v') (hle : b ≤ b') : v' = v := by
  obtain ⟨Q, hQ, hvote⟩ := hc
  have hwf : {b | ∃ v, h.proposal b v}.WellFoundedOn (· < ·) := hl.finite.wellFoundedOn
  -- induction on the ballot of the proposal, over the ballots in use
  refine hwf.induction (P := fun b' => ∀ v', h.proposal b' v' → b ≤ b' → v' = v) ⟨v', hp⟩ ?_ v' hp
    hle
  intro b' _ ih v' hp hle
  rcases eq_or_lt_of_le hle with rfl | hlt
  · obtain ⟨a, ha, _⟩ := hl.meet Q Q hQ hQ
    exact hl.unique b v' v hp (hl.votes a b v (hvote a ha))
  · obtain ⟨Q', hQ', hback⟩ := hl.backed b' v' hp
    obtain ⟨a, ha, ha'⟩ := hl.meet Q Q' hQ hQ'
    obtain ⟨c, hbc, hcb, hpc⟩ := hback a ha' b v (hvote a ha) hlt
    exact ih c ⟨v', hpc⟩ hcb v' hpc hbc

/-- **Agreement**: at most one value is chosen. -/
theorem Lawful.agreement (hl : Lawful h quorum) {b b' : β} {v v' : V}
    (hc : Chosen h quorum b v) (hc' : Chosen h quorum b' v') : v = v' := by
  have hproposed : ∀ {b v}, Chosen h quorum b v → h.proposal b v := by
    rintro b v ⟨Q, hQ, hvote⟩
    obtain ⟨a, ha, _⟩ := hl.meet Q Q hQ hQ
    exact hl.votes a b v (hvote a ha)
  rcases le_total b b' with hle | hle
  · exact (hl.safe hc (hproposed hc') hle).symm
  · exact hl.safe hc' (hproposed hc) hle

end Yfs.Voting
