import Mathlib.Data.List.Infix
import Mathlib.Data.Int.Order.Basic

namespace Chfs.Lib.LeaderLog

variable {E : Type*} (term : E → ℤ)

/-- The term of the `k`-th entry, counting from one; before the first entry
it is zero. -/
def termAt (l : List E) : ℕ → ℤ
  | 0 => 0
  | k + 1 => (l[k]?.map term).getD 0

/-- The logs recorded for the leaders of the terms. -/
abbrev Leads (E : Type*) := ℤ → Option (List E)

/-- Every entry of the log lies, with all entries below it, on the log of the
leader of its term. -/
def Valid (lead : Leads E) (l : List E) : Prop :=
  ∀ k e, l[k]? = some e → ∃ m, lead (term e) = some m ∧ l.take (k + 1) <+: m

def Grows (lead lead' : Leads E) : Prop :=
  ∀ T m, lead T = some m → ∃ m', lead' T = some m' ∧ m <+: m'

variable {term} {lead lead' : Leads E} {l l' : List E}

theorem Grows.refl : Grows lead lead := fun _ m h => ⟨m, h, List.prefix_refl m⟩

theorem Valid.mono (h : Valid term lead l) (hg : Grows lead lead') : Valid term lead' l := by
  intro k e he
  obtain ⟨m, hm, hp⟩ := h k e he
  obtain ⟨m', hm', hp'⟩ := hg _ m hm
  exact ⟨m', hm', hp.trans hp'⟩

theorem valid_nil : Valid term lead [] := by
  intro k e he
  simp at he

theorem Valid.restrict (h : Valid term lead l) (hp : l' <+: l) : Valid term lead l' := by
  intro k e he
  have hk : k < l'.length := (List.getElem?_eq_some_iff.mp he).1
  have hl : l[k]? = some e := by
    obtain ⟨r, rfl⟩ := hp
    rw [List.getElem?_append_left hk, he]
  obtain ⟨m, hm, ht⟩ := h k e hl
  have he' : l'.take (k + 1) = l.take (k + 1) := by
    obtain ⟨r, rfl⟩ := hp
    rw [List.take_append_of_le_length (by omega)]
  exact ⟨m, hm, he' ▸ ht⟩

/-- Log matching: an entry of the same term at the same place forces equal
logs up to that place. -/
theorem Valid.take_eq (h : Valid term lead l) (h' : Valid term lead l') {k : ℕ} {e e' : E}
    (he : l[k]? = some e) (he' : l'[k]? = some e') (ht : term e = term e') :
    l.take (k + 1) = l'.take (k + 1) := by
  obtain ⟨m, hm, hp⟩ := h k e he
  obtain ⟨m', hm', hp'⟩ := h' k e' he'
  rw [ht, hm'] at hm
  cases hm
  have hk : k < l.length := (List.getElem?_eq_some_iff.mp he).1
  have hk' : k < l'.length := (List.getElem?_eq_some_iff.mp he').1
  apply List.IsPrefix.eq_of_length (List.prefix_of_prefix_length_le hp hp' ?_)
  · simp only [List.length_take]
    omega
  · simp only [List.length_take]
    omega

theorem termAt_succ {k : ℕ} {e : E} (he : l[k]? = some e) : termAt term l (k + 1) = term e := by
  simp [termAt, he]

theorem termAt_restrict (hp : l' <+: l) {k : ℕ} (hk : k ≤ l'.length) :
    termAt term l' k = termAt term l k := by
  cases k with
  | zero => rfl
  | succ k =>
    obtain ⟨r, rfl⟩ := hp
    simp only [termAt]
    rw [List.getElem?_append_left (by omega)]

/-- The consistency check of a replication message compares one term; by log
matching it decides about the whole prefix. -/
theorem Valid.take_eq_of_termAt (h : Valid term lead l) (h' : Valid term lead l') {k : ℕ}
    (hk : k ≤ l.length) (hk' : k ≤ l'.length) (ht : termAt term l k = termAt term l' k) :
    l.take k = l'.take k := by
  cases k with
  | zero => simp
  | succ k =>
    have he : l[k]? = some l[k] := List.getElem?_eq_getElem (by omega)
    have he' : l'[k]? = some l'[k] := List.getElem?_eq_getElem (by omega)
    rw [termAt_succ he, termAt_succ he'] at ht
    exact h.take_eq h' he he' ht

theorem grows_update_none [DecidableEq ℤ] {T : ℤ} (hT : lead T = none) :
    Grows lead (Function.update lead T (some l)) := by
  intro T' m hm
  have hne : T' ≠ T := fun h => by rw [h, hT] at hm; cases hm
  exact ⟨m, by rw [Function.update_of_ne hne, hm], List.prefix_refl m⟩

theorem grows_update_append {T : ℤ} {e : E} (hT : lead T = some l) :
    Grows lead (Function.update lead T (some (l ++ [e]))) := by
  intro T' m hm
  by_cases h : T' = T
  · subst h
    rw [hT] at hm
    cases hm
    exact ⟨l ++ [e], by simp, List.prefix_append l [e]⟩
  · exact ⟨m, by rw [Function.update_of_ne h, hm], List.prefix_refl m⟩

theorem Valid.append (h : Valid term lead l) {e : E} (hT : lead (term e) = some l) :
    Valid term (Function.update lead (term e) (some (l ++ [e]))) (l ++ [e]) := by
  intro k f hf
  by_cases hk : k < l.length
  · rw [List.getElem?_append_left hk] at hf
    obtain ⟨m, hm, hp⟩ := (h.mono (grows_update_append (e := e) hT)) k f hf
    refine ⟨m, hm, ?_⟩
    rwa [List.take_append_of_le_length (by omega)]
  · have hkl : k = l.length := by
      have := (List.getElem?_eq_some_iff.mp hf).1
      simp only [List.length_append, List.length_singleton] at this
      omega
    subst hkl
    have hfe : f = e := by
      rw [List.getElem?_append_right (le_refl _)] at hf
      simpa using hf.symm
    subst hfe
    exact ⟨l ++ [f], by simp, List.take_prefix _ _⟩

/-- The terms of a valid log do not decrease, provided leaders' logs hold no
later terms. -/
theorem Valid.term_le (h : Valid term lead l) (hl : ∀ T m, lead T = some m → ∀ e ∈ m, term e ≤ T)
    {j k : ℕ} {e f : E} (he : l[j]? = some e) (hf : l[k]? = some f) (hjk : j ≤ k) :
    term e ≤ term f := by
  obtain ⟨m, hm, hp⟩ := h k f hf
  have hmem : e ∈ l.take (k + 1) := by
    apply List.mem_of_getElem? (i := j)
    rw [List.getElem?_take, if_pos (by omega), he]
  exact hl _ m hm e (hp.subset hmem)

end Chfs.Lib.LeaderLog
