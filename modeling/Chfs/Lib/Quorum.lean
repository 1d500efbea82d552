import Mathlib.Data.Fintype.Card

namespace Chfs.Lib.Quorum

variable {ι : Type*} [Fintype ι]

def Majority (S : Finset ι) : Prop := Fintype.card ι < 2 * S.card

/-- Two strict majorities share a participant. -/
theorem Majority.meet [DecidableEq ι] {S T : Finset ι} (hS : Majority S) (hT : Majority T) :
    ∃ i, i ∈ S ∧ i ∈ T := by
  by_contra hne
  have hd : Disjoint S T := Finset.disjoint_left.mpr fun i hi hj => hne ⟨i, hi, hj⟩
  have hc : (S ∪ T).card = S.card + T.card := Finset.card_union_of_disjoint hd
  have hle : (S ∪ T).card ≤ Fintype.card ι := Finset.card_le_univ _
  unfold Majority at hS hT
  omega

theorem Majority.mono {S T : Finset ι} (hS : Majority S) (h : S ⊆ T) : Majority T := by
  have hle : S.card ≤ T.card := Finset.card_le_card h
  unfold Majority at hS ⊢
  omega

end Chfs.Lib.Quorum
