import Chfs.Lib.Quorum
import Chfs.Raft.FullLog

namespace Chfs.Raft.Counting

open Protocol Node FullLog

variable {n : ℕ} {Command St : Type}

/-- The nodes that are known to have accepted entry `N` in term `T`. -/
def ackers (matchIndex : Fin n → ℤ) (acc : Fin n → ℤ → ℕ) (T N : ℤ) : Finset (Fin n) :=
  Finset.univ.filter fun j => N ≤ matchIndex j ∧ N ≤ acc j T

/-- No entry is counted for more nodes than have accepted it. -/
structure Counted (nd : RaftNode n Command St) (len : ℕ) (acc : Fin n → ℤ → ℕ) : Prop where
  length : (nd.matchCount.length : ℤ) = len - nd.commitIndex
  count : ∀ (p : ℕ) x, nd.matchCount[p]? = some x →
    x ≤ (ackers nd.matchIndex acc nd.currentTerm (nd.commitIndex + p + 1)).card

theorem ackers_mono {f f' : Fin n → ℤ} {acc acc' : Fin n → ℤ → ℕ} {T N : ℤ} (hf : ∀ j, f j ≤ f' j)
    (ha : ∀ j, acc j T ≤ acc' j T) : (ackers f acc T N).card ≤ (ackers f' acc' T N).card := by
  apply Finset.card_le_card
  intro j hj
  simp only [ackers, Finset.mem_filter, Finset.mem_univ, true_and] at hj ⊢
  have h1 := hf j
  have h2 := ha j
  omega

theorem Counted.mono {nd : RaftNode n Command St} {len : ℕ} {acc acc' : Fin n → ℤ → ℕ}
    (h : Counted nd len acc) (ha : ∀ j T, acc j T ≤ acc' j T) : Counted nd len acc' :=
  ⟨h.length, fun p x hx => (h.count p x hx).trans (ackers_mono (fun _ => le_refl _) fun j => ha j _)⟩

theorem Counted.congr {nd nd' : RaftNode n Command St} {len : ℕ}
    {acc : Fin n → ℤ → ℕ} (h : Counted nd len acc)
    (h1 : nd'.matchCount = nd.matchCount) (h2 : nd'.commitIndex = nd.commitIndex)
    (h3 : ∀ j, nd.matchIndex j ≤ nd'.matchIndex j) (h4 : nd'.currentTerm = nd.currentTerm) :
    Counted nd' len acc := by
  refine ⟨by rw [h1, h2, h.length], fun p x hx => ?_⟩
  rw [h2, h4]
  exact (h.count p x (h1 ▸ hx)).trans (ackers_mono h3 fun _ => le_refl _)

theorem ackers_subset_update {f : Fin n → ℤ} {acc acc' : Fin n → ℤ → ℕ} {T N M : ℤ} {j : Fin n}
    (hN : N ≤ M) (ha : ∀ j, acc j T ≤ acc' j T) :
    ackers f acc T N ⊆ ackers (Function.update f j M) acc' T N := by
  intro i hi
  simp only [ackers, Finset.mem_filter, Finset.mem_univ, true_and] at hi ⊢
  have h2 := ha i
  by_cases hij : i = j
  · subst hij
    rw [Function.update_self]
    omega
  · rw [Function.update_of_ne hij]
    omega

theorem ackers_update {f : Fin n → ℤ} {acc : Fin n → ℤ → ℕ} {T N M : ℤ} {j : Fin n} (h1 : f j < N)
    (h2 : N ≤ M) (h3 : N ≤ acc j T) :
    (ackers f acc T N).card + 1 ≤ (ackers (Function.update f j M) acc T N).card := by
  have hj : j ∉ ackers f acc T N := by
    simp only [ackers, Finset.mem_filter, Finset.mem_univ, true_and]
    omega
  rw [← Finset.card_insert_of_notMem hj]
  apply Finset.card_le_card
  intro i hi
  obtain rfl | hi := Finset.mem_insert.mp hi
  · simp only [ackers, Finset.mem_filter, Finset.mem_univ, true_and, Function.update_self]
    exact ⟨h2, h3⟩
  · simp only [ackers, Finset.mem_filter, Finset.mem_univ, true_and] at hi ⊢
    have hij : i ≠ j := by
      rintro rfl
      omega
    rwa [Function.update_of_ne hij]

/-- The counting loop, given bounds `f` that leave room for one more count on
the stretch still to be visited. -/
theorem countMatches_spec {nd : RaftNode n Command St} {tmp : ℤ} (f : ℕ → ℕ) :
    ∀ (k : ℕ) (counts counts' : List ℕ) (ci : ℤ), countMatches nd tmp k counts = some (ci, counts') →
    (∀ p x, counts[p]? = some x → x ≤ f p ∧ (tmp < p → (p : ℤ) ≤ tmp + k → x + 1 ≤ f p)) →
    (ci = nd.commitIndex ∧ counts'.length = counts.length ∧
      ∀ p x, counts'[p]? = some x → x ≤ f p) ∨
    ∃ i : ℕ, ci = nd.commitIndex + (i + 1) ∧ n / 2 < f i ∧ counts'.length + (i + 1) = counts.length ∧
      (∀ p x, counts'[p]? = some x → x ≤ f (p + (i + 1))) ∧ ∃ front e, nd.log.head? = some front ∧
      Node.at? nd.log (nd.commitIndex + i + 1 - front.index) = some e ∧ e.term = nd.currentTerm := by
  intro k
  induction k with
  | zero =>
    intro counts counts' ci h hf
    simp only [countMatches, Option.some.injEq, Prod.mk.injEq] at h
    obtain ⟨rfl, rfl⟩ := h
    exact Or.inl ⟨rfl, rfl, fun p x hx => (hf p x hx).1⟩
  | succ k ih =>
    intro counts counts' ci h hf
    simp only [countMatches] at h
    obtain ⟨x, hx, h⟩ := Option.bind_eq_some_iff.mp h
    obtain ⟨i, hi, hxi⟩ := at?_eq_some hx
    have hlt : i < counts.length := (List.getElem?_eq_some_iff.mp hxi).1
    have hroom : x + 1 ≤ f i := (hf i x hxi).2 (by omega) (by push_cast; omega)
    have hto : (tmp + (k + 1)).toNat = i := by omega
    rw [hto] at h
    have hset : ∀ p y, (counts.set i (x + 1))[p]? = some y →
        y ≤ f p ∧ (tmp < p → (p : ℤ) ≤ tmp + k → y + 1 ≤ f p) := by
      intro p y hy
      by_cases hp : p = i
      · subst hp
        rw [List.getElem?_set_self hlt, Option.some.injEq] at hy
        subst hy
        exact ⟨hroom, fun _ hle => absurd hle (by omega)⟩
      · rw [List.getElem?_set_ne (fun heq => hp heq.symm)] at hy
        obtain ⟨h1, h2⟩ := hf p y hy
        exact ⟨h1, fun ha hb => h2 ha (by push_cast; omega)⟩
    have hlen : (counts.set i (x + 1)).length = counts.length := List.length_set
    have hnext : countMatches nd tmp k (counts.set i (x + 1)) = some (ci, counts') →
        _ := fun hc => ih _ _ _ hc hset
    rw [hlen] at hnext
    split at h
    case isTrue hmaj =>
      obtain ⟨front, hfront, h⟩ := Option.bind_eq_some_iff.mp h
      obtain ⟨e, he, h⟩ := Option.bind_eq_some_iff.mp h
      split at h
      case isTrue hterm =>
        simp only [Option.some.injEq, Prod.mk.injEq] at h
        obtain ⟨rfl, rfl⟩ := h
        have hi1 : (tmp + (k + 1) + 1).toNat = i + 1 := by omega
        refine Or.inr ⟨i, by omega, lt_of_lt_of_le hmaj hroom, ?_, ?_, front, e, hfront, ?_, hterm⟩
        · rw [List.length_drop, hi1, hlen]
          omega
        · intro p y hy
          rw [hi1, List.getElem?_drop, Nat.add_comm (i + 1) p] at hy
          exact (hset _ y hy).1
        · rw [← hi]
          exact he
      case isFalse => exact hnext h
    case isFalse => exact hnext h

end Chfs.Raft.Counting
