import Chfs.Lib.Ballot

namespace Chfs.Lib.Ballot

open Quorum LeaderLog

variable {ι E : Type*} [Fintype ι] [DecidableEq ι] {term : E → ℤ} {a a' : State ι E}

/-- What participant `v` accepted before term `t` is kept by a candidate of
`t` with the log `F`. -/
def Vouches (term : E → ℤ) (a : State ι E) (v : ι) (F : List E) (t : ℤ) : Prop :=
  ∀ T k m, T < t → Created term a.lead T k m → k < a.acc v T →
    Keeps a.lead T (m.take (k + 1)) F t

omit [DecidableEq ι] in
theorem Inv.vouches_self (h : Inv term a) (i : ι) : Vouches term a i (a.log i) (a.cur i) :=
  fun T k m _ hc hk => h.keeps i T k m hc hk

omit [DecidableEq ι] in
theorem Inv.vouches (h : Inv term a) (hpos : ∀ T m, a.lead T = some m → 0 < T) {v : ι}
    {G : List E} (hG : Valid term a.lead G) (hGt : ∀ e ∈ G, term e ≤ a.cur v)
    (hup : termAt term (a.log v) (a.log v).length < termAt term G G.length ∨
      termAt term (a.log v) (a.log v).length = termAt term G G.length ∧
        (a.log v).length ≤ G.length) : Vouches term a v G (a.cur v) :=
  fun T k m _ hc hk =>
    h.keeps_of_upToDate hpos hc (h.valid v) hG hGt (h.keeps v T k m hc hk) hup

omit [Fintype ι] in
theorem Vouches.accept {v i : ι} {F : List E} {t : ℤ} (h : Vouches term a v F t) (ht : t ≤ a.cur v)
    (x : ℕ) : Vouches term (a.accept i x) v F t := by
  intro T k m hT hc hk
  refine h T k m hT hc ?_
  rw [accept_acc, if_neg] at hk
  · exact hk
  · rintro ⟨rfl, rfl⟩
    exact absurd hT (not_lt.mpr ht)

omit [Fintype ι] [DecidableEq ι] in
theorem Vouches.win {v i : ι} {F : List E} {t : ℤ} (h : Vouches term a v F t)
    (hT : a.lead (a.cur i) = none) (hlog : Valid term a.lead (a.log i)) :
    Vouches term (a.win i) v F t :=
  fun T k m hlt hc hk => (h T k m hlt (created_win hT hlog hc) hk).win hT

theorem Vouches.extend (hinv : Inv term a) {v i : ι} {F : List E} {t : ℤ} {e : E}
    (h : Vouches term a v F t) (hl : a.lead (a.cur i) = some (a.log i)) (he : term e = a.cur i) :
    Vouches term (a.extend i e) v F t := by
  intro T k m hT hc hk
  obtain ⟨rfl, rfl, rfl⟩ | ⟨m', hc', heq⟩ := created_extend hl hc
  · have hk' : (a.log i).length < a.acc v (a.cur i) := hk
    obtain ⟨_, m', hm', hlen⟩ := hinv.accLe v _ (Nat.zero_lt_of_lt hk')
    rw [hl] at hm'
    cases hm'
    exact absurd hk' (Nat.not_lt.mpr hlen)
  · rw [heq]
    exact (h T k m' hT hc' hk).extend hl he (fun f hf => hinv.created_le hc' hf) id

structure Evolves (term : E → ℤ) (a a' : State ι E) : Prop where
  created : ∀ T k m, Created term a.lead T k m →
    ∃ m', Created term a'.lead T k m' ∧ m'.take (k + 1) = m.take (k + 1)
  acc : ∀ i T, a.acc i T ≤ a'.acc i T

omit [Fintype ι] [DecidableEq ι] in
theorem evolves_of_eq (hl : a'.lead = a.lead) (ha : a'.acc = a.acc) : Evolves term a a' :=
  ⟨fun _ _ m hc => ⟨m, hl ▸ hc, rfl⟩, fun i T => by rw [ha]⟩

omit [Fintype ι] [DecidableEq ι] in
theorem Evolves.trans {b : State ι E} (h : Evolves term a a') (h' : Evolves term a' b) :
    Evolves term a b := by
  refine ⟨fun T k m hc => ?_, fun i T => (h.acc i T).trans (h'.acc i T)⟩
  obtain ⟨m', hc', he'⟩ := h.created T k m hc
  obtain ⟨m'', hc'', he''⟩ := h'.created T k m' hc'
  exact ⟨m'', hc'', he''.trans he'⟩

omit [Fintype ι] in
theorem evolves_accept (i : ι) (x : ℕ) : Evolves term a (a.accept i x) :=
  ⟨fun _ _ m hc => ⟨m, hc, rfl⟩, fun j T => acc_le_accept i j x T⟩

omit [Fintype ι] [DecidableEq ι] in
theorem evolves_of_grows (hg : Grows a.lead a'.lead) (ha : a'.acc = a.acc) : Evolves term a a' := by
  refine ⟨fun T k m hc => ?_, fun i T => by rw [ha]⟩
  obtain ⟨hm, e, he, hte⟩ := hc
  obtain ⟨m', hm', r, rfl⟩ := hg T m hm
  have hk : k < m.length := (List.getElem?_eq_some_iff.mp he).1
  refine ⟨m ++ r, ⟨hm', e, ?_, hte⟩, List.take_append_of_le_length (by omega)⟩
  rw [List.getElem?_append_left hk, he]

omit [DecidableEq ι] in
theorem Chosen.evolves {T : ℤ} {k : ℕ} {m : List E} (h : Chosen term a T k m)
    (he : Evolves term a a') : ∃ m', Chosen term a' T k m' ∧ m'.take (k + 1) = m.take (k + 1) := by
  obtain ⟨hc, Q, hQ, hq⟩ := h
  obtain ⟨m', hc', heq⟩ := he.created T k m hc
  exact ⟨m', ⟨hc', Q, hQ, fun i hi => (hq i hi).trans_le (he.acc i T)⟩, heq⟩

/-- `P` lies below a place chosen in a term up to `t`. -/
def Committed (term : E → ℤ) (a : State ι E) (t : ℤ) (P : List E) : Prop :=
  P = [] ∨ ∃ T k m, T ≤ t ∧ Chosen term a T k m ∧ P <+: m.take (k + 1)

section Committed

variable {t t' : ℤ} {P P' : List E}

omit [DecidableEq ι] in
theorem Committed.evolves (h : Committed term a t P) (he : Evolves term a a') (ht : t ≤ t') :
    Committed term a' t' P := by
  obtain h | ⟨T, k, m, hT, hc, hp⟩ := h
  · exact Or.inl h
  · obtain ⟨m', hc', heq⟩ := hc.evolves he
    exact Or.inr ⟨T, k, m', hT.trans ht, hc', heq ▸ hp⟩

omit [DecidableEq ι] in
theorem Committed.restrict (h : Committed term a t P) (hp : P' <+: P) (ht : t ≤ t') :
    Committed term a t' P' := by
  obtain rfl | ⟨T, k, m, hT, hc, hm⟩ := h
  · exact Or.inl (List.prefix_nil.mp hp)
  · exact Or.inr ⟨T, k, m, hT.trans ht, hc, hp.trans hm⟩

theorem Committed.onLead (h : Committed term a t P) (hinv : Inv term a) (ht : t ≤ t') {m : List E}
    (hm : a.lead t' = some m) : P <+: m := by
  obtain rfl | ⟨T, k, m', hT, hc, hp⟩ := h
  · exact List.nil_prefix
  · exact hp.trans (hinv.chosen_lead hc (hT.trans ht) hm)

/-- Committed prefixes lie on one log. -/
theorem Committed.comparable (h : Committed term a t P) (hinv : Inv term a)
    (h' : Committed term a t' P') : P <+: P' ∨ P' <+: P := by
  obtain rfl | ⟨T, k, m, _, hc, hp⟩ := h
  · exact Or.inl List.nil_prefix
  obtain rfl | ⟨T', k', m', _, hc', hp'⟩ := h'
  · exact Or.inr List.nil_prefix
  obtain ⟨l, hl, hl'⟩ := hinv.chosen_comparable hc hc'
  exact List.prefix_or_prefix_of_prefix (hp.trans hl) (hp'.trans hl')

end Committed

end Chfs.Lib.Ballot
