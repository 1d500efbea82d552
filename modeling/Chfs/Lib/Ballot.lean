import Chfs.Lib.Quorum
import Chfs.Lib.LeaderLog

/-! Agreement of logs that are accepted term by term. Nothing here knows how
votes or logs travel: a participant raises its term, a majority makes a leader,
the leader extends its log, and participants adopt and accept prefixes of it. -/

namespace Chfs.Lib.Ballot

open Quorum LeaderLog

variable {ι E : Type*} [Fintype ι] [DecidableEq ι] (term : E → ℤ)

/-- `acc i T` is the length of the longest prefix of the log of the leader of
`T` that participant `i` has held while its own term was `T`. -/
structure State (ι E : Type*) where
  cur : ι → ℤ
  log : ι → List E
  lead : Leads E
  acc : ι → ℤ → ℕ

/-- The log `F` of a participant in term `t` still has the prefix `P` accepted
in term `T`, unless a later leader does not have it either. -/
def Keeps (lead : Leads E) (T : ℤ) (P F : List E) (t : ℤ) : Prop :=
  P <+: F ∨ ∃ T' m', T < T' ∧ T' ≤ t ∧ lead T' = some m' ∧ ¬ P <+: m'

/-- Place `k` of the log `m` of the leader of `T` was created in `T`. -/
def Created (lead : Leads E) (T : ℤ) (k : ℕ) (m : List E) : Prop :=
  lead T = some m ∧ ∃ e, m[k]? = some e ∧ term e = T

/-- A majority has left term `T` without accepting place `k`. -/
def Blocked (a : State ι E) (T : ℤ) (k : ℕ) : Prop :=
  ∃ Q : Finset ι, Majority Q ∧ ∀ i ∈ Q, T < a.cur i ∧ a.acc i T ≤ k

/-- A majority has accepted place `k` of the leader of `T`. -/
def Chosen (a : State ι E) (T : ℤ) (k : ℕ) (m : List E) : Prop :=
  Created term a.lead T k m ∧ ∃ Q : Finset ι, Majority Q ∧ ∀ i ∈ Q, k < a.acc i T

structure Inv (a : State ι E) : Prop where
  valid : ∀ i, Valid term a.lead (a.log i)
  leadValid : ∀ T m, a.lead T = some m → Valid term a.lead m
  leadTerm : ∀ T m, a.lead T = some m → ∀ e ∈ m, term e ≤ T
  logTerm : ∀ i, ∀ e ∈ a.log i, term e ≤ a.cur i
  accLe : ∀ i T, 0 < a.acc i T → T ≤ a.cur i ∧ ∃ m, a.lead T = some m ∧ a.acc i T ≤ m.length
  keeps : ∀ i T k m, Created term a.lead T k m → k < a.acc i T →
    Keeps a.lead T (m.take (k + 1)) (a.log i) (a.cur i)
  elected : ∀ T m, a.lead T = some m → ∃ Q : Finset ι, Majority Q ∧ ∀ i ∈ Q, T ≤ a.cur i
  safe : ∀ T k m T' m', Created term a.lead T k m → T < T' → a.lead T' = some m' →
    m.take (k + 1) <+: m' ∨ Blocked a T k

variable {term} {a : State ι E}

omit [Fintype ι] [DecidableEq ι] in
theorem Keeps.mono {lead : Leads E} {T : ℤ} {P F : List E} {t t' : ℤ} (h : Keeps lead T P F t)
    (ht : t ≤ t') : Keeps lead T P F t' := by
  obtain h | ⟨T', m', h1, h2, h3, h4⟩ := h
  · exact Or.inl h
  · exact Or.inr ⟨T', m', h1, h2.trans ht, h3, h4⟩

omit [DecidableEq ι] in
theorem Inv.created_le (h : Inv term a) {T : ℤ} {k : ℕ} {m : List E}
    (hc : Created term a.lead T k m) {e : E} (he : e ∈ m.take (k + 1)) : term e ≤ T :=
  h.leadTerm T m hc.1 e ((List.take_prefix _ _).subset he)

/-- A place accepted by a majority is on the log of every later leader. -/
theorem Inv.chosen_lead (h : Inv term a) {T T' : ℤ} {k : ℕ} {m m' : List E}
    (hc : Chosen term a T k m) (hT : T ≤ T') (hm' : a.lead T' = some m') :
    m.take (k + 1) <+: m' := by
  obtain rfl | hlt := hT.eq_or_lt
  · rw [hc.1.1] at hm'
    cases hm'
    exact List.take_prefix _ _
  · obtain hp | ⟨Q, hQ, hq⟩ := h.safe T k m T' m' hc.1 hlt hm'
    · exact hp
    · obtain ⟨_, Q', hQ', hq'⟩ := hc
      obtain ⟨i, hi, hi'⟩ := hQ.meet hQ'
      have h1 := (hq i hi).2
      have h2 := hq' i hi'
      omega

theorem Inv.chosen_comparable (h : Inv term a) {T T' : ℤ} {k k' : ℕ} {m m' : List E}
    (hc : Chosen term a T k m) (hc' : Chosen term a T' k' m') :
    ∃ l, m.take (k + 1) <+: l ∧ m'.take (k' + 1) <+: l := by
  obtain hT | hT := le_total T T'
  · exact ⟨m', h.chosen_lead hc hT hc'.1.1, List.take_prefix _ _⟩
  · exact ⟨m, List.take_prefix _ _, h.chosen_lead hc' hT hc.1.1⟩

theorem Inv.chosen_held (h : Inv term a) {T : ℤ} {k : ℕ} {m : List E}
    (hc : Chosen term a T k m) {i : ι} (hi : k < a.acc i T) : m.take (k + 1) <+: a.log i := by
  obtain hp | ⟨T', m', h1, _, h3, h4⟩ := h.keeps i T k m hc.1 hi
  · exact hp
  · exact absurd (h.chosen_lead hc h1.le h3) h4

def State.raise (a : State ι E) (i : ι) (t : ℤ) : State ι E :=
  { a with cur := Function.update a.cur i t }

omit [Fintype ι] in
theorem raise_le (i : ι) (t : ℤ) (ht : a.cur i ≤ t) (j : ι) : a.cur j ≤ (a.raise i t).cur j := by
  by_cases hj : j = i
  · subst hj
    simpa [State.raise] using ht
  · simp [State.raise, hj]

theorem Blocked.raise {T : ℤ} {k : ℕ} (hb : Blocked a T k) (i : ι) (t : ℤ) (ht : a.cur i ≤ t) :
    Blocked (a.raise i t) T k := by
  obtain ⟨Q, hQ, hq⟩ := hb
  exact ⟨Q, hQ, fun j hj => ⟨(hq j hj).1.trans_le (raise_le i t ht j), (hq j hj).2⟩⟩

theorem Inv.raise (h : Inv term a) (i : ι) (t : ℤ) (ht : a.cur i ≤ t) :
    Inv term (a.raise i t) where
  valid := h.valid
  leadValid := h.leadValid
  leadTerm := h.leadTerm
  logTerm j e he := (h.logTerm j e he).trans (raise_le i t ht j)
  accLe j T hj := ⟨(h.accLe j T hj).1.trans (raise_le i t ht j), (h.accLe j T hj).2⟩
  keeps j T k m hc hk := (h.keeps j T k m hc hk).mono (raise_le i t ht j)
  elected T m hm := by
    obtain ⟨Q, hQ, hq⟩ := h.elected T m hm
    exact ⟨Q, hQ, fun j hj => (hq j hj).trans (raise_le i t ht j)⟩
  safe T k m T' m' hc hT hm' := (h.safe T k m T' m' hc hT hm').imp_right (·.raise i t ht)

def State.adopt (a : State ι E) (i : ι) (l : List E) : State ι E :=
  { a with log := Function.update a.log i l }

theorem Inv.adopt (h : Inv term a) (i : ι) (l m : List E) (hm : a.lead (a.cur i) = some m)
    (hl : l <+: m) (hk : ∀ P, P <+: a.log i → P <+: m → P <+: l) : Inv term (a.adopt i l) where
  valid j := by
    by_cases hj : j = i
    · subst hj
      simpa [State.adopt] using (h.leadValid _ m hm).restrict hl
    · simpa [State.adopt, hj] using h.valid j
  leadValid := h.leadValid
  leadTerm := h.leadTerm
  logTerm j e he := by
    by_cases hj : j = i
    · subst hj
      have he' : e ∈ l := by simpa [State.adopt] using he
      exact h.leadTerm _ m hm e (hl.subset he')
    · exact h.logTerm j e (by simpa [State.adopt, hj] using he)
  accLe := h.accLe
  keeps j T k m' hc hj := by
    have hc' : Created term a.lead T k m' := hc
    have hj' : k < a.acc j T := hj
    by_cases hji : j = i
    · subst hji
      have hTle : T ≤ a.cur j := (h.accLe j T (by omega)).1
      simp only [State.adopt, Function.update_self]
      obtain hp | hp := h.keeps j T k m' hc hj
      · by_cases hpm : m'.take (k + 1) <+: m
        · exact Or.inl (hk _ hp hpm)
        · -- the current leader does not have the prefix, so it is a later one
          have hne : T ≠ a.cur j := by
            intro hT
            rw [← hT, hc'.1] at hm
            cases hm
            exact hpm (List.take_prefix _ _)
          exact Or.inr ⟨a.cur j, m, lt_of_le_of_ne hTle hne, le_refl _, hm, hpm⟩
      · exact Or.inr hp
    · simpa [State.adopt, hji] using h.keeps j T k m' hc hj
  elected := h.elected
  safe := h.safe

def State.accept (a : State ι E) (i : ι) (x : ℕ) : State ι E :=
  { a with
    acc := Function.update a.acc i
      (Function.update (a.acc i) (a.cur i) (max (a.acc i (a.cur i)) x)) }

omit [Fintype ι] in
theorem accept_acc (i j : ι) (x : ℕ) (T : ℤ) : (a.accept i x).acc j T =
    if j = i ∧ T = a.cur i then max (a.acc i T) x else a.acc j T := by
  by_cases hj : j = i
  · subst hj
    by_cases hT : T = a.cur j
    · subst hT
      simp [State.accept]
    · simp [State.accept, hT]
  · simp [State.accept, hj]

omit [Fintype ι] in
theorem acc_le_accept (i j : ι) (x : ℕ) (T : ℤ) : a.acc j T ≤ (a.accept i x).acc j T := by
  rw [accept_acc]
  split
  case isTrue hc => rw [hc.1]; exact le_max_left _ _
  case isFalse => exact le_refl _

theorem Blocked.accept {T : ℤ} {k : ℕ} (hb : Blocked a T k) (i : ι) (x : ℕ) :
    Blocked (a.accept i x) T k := by
  obtain ⟨Q, hQ, hq⟩ := hb
  refine ⟨Q, hQ, fun j hj => ⟨(hq j hj).1, ?_⟩⟩
  have hlt := (hq j hj).1
  rw [accept_acc, if_neg]
  · exact (hq j hj).2
  · rintro ⟨rfl, rfl⟩
    exact lt_irrefl _ hlt

theorem Inv.accept (h : Inv term a) (i : ι) (x : ℕ) (m : List E) (hm : a.lead (a.cur i) = some m)
    (hx : x ≤ m.length) (hp : m.take x <+: a.log i) : Inv term (a.accept i x) where
  valid := h.valid
  leadValid := h.leadValid
  leadTerm := h.leadTerm
  logTerm := h.logTerm
  accLe j T hj := by
    rw [accept_acc] at hj ⊢
    split
    case isTrue hc =>
      obtain ⟨rfl, rfl⟩ := hc
      refine ⟨le_refl _, m, hm, max_le ?_ hx⟩
      by_cases h0 : 0 < a.acc j (a.cur j)
      · obtain ⟨_, m', hm', hl⟩ := h.accLe j _ h0
        rw [hm] at hm'
        cases hm'
        exact hl
      · omega
    case isFalse hc =>
      rw [if_neg hc] at hj
      exact h.accLe j T hj
  keeps j T k m' hc hj := by
    by_cases hold : k < a.acc j T
    · exact h.keeps j T k m' hc hold
    · rw [accept_acc] at hj
      split at hj
      case isTrue hji =>
        obtain ⟨rfl, rfl⟩ := hji
        have hcl : a.lead (a.cur j) = some m' := hc.1
        rw [hm] at hcl
        cases hcl
        refine Or.inl (List.IsPrefix.trans ?_ hp)
        have hkx : k + 1 ≤ x := by omega
        exact List.take_prefix_take_left hkx
      case isFalse => exact absurd hj hold
  elected := h.elected
  safe T k m T' m' hc hT hm' := (h.safe T k m T' m' hc hT hm').imp_right (·.accept i x)

def State.win (a : State ι E) (i : ι) : State ι E :=
  { a with lead := Function.update a.lead (a.cur i) (some (a.log i)) }

omit [Fintype ι] [DecidableEq ι] in
theorem created_win {i : ι} (hT : a.lead (a.cur i) = none) (hlog : Valid term a.lead (a.log i))
    {T : ℤ} {k : ℕ} {m : List E} (hc : Created term (a.win i).lead T k m) :
    Created term a.lead T k m := by
  obtain ⟨hm, e, he, hte⟩ := hc
  by_cases h : T = a.cur i
  · -- no entry of the new leader's term exists yet
    subst h
    simp only [State.win, Function.update_self, Option.some.injEq] at hm
    subst hm
    obtain ⟨m', hm', _⟩ := hlog k e he
    rw [hte, hT] at hm'
    cases hm'
  · refine ⟨?_, e, he, hte⟩
    simpa [State.win, h] using hm

omit [Fintype ι] [DecidableEq ι] in
theorem Keeps.win {i : ι} (hT : a.lead (a.cur i) = none) {T : ℤ} {P F : List E} {t : ℤ}
    (h : Keeps a.lead T P F t) : Keeps (a.win i).lead T P F t := by
  obtain h | ⟨T', m', h1, h2, h3, h4⟩ := h
  · exact Or.inl h
  · refine Or.inr ⟨T', m', h1, h2, ?_, h4⟩
    have hne : T' ≠ a.cur i := by
      rintro rfl
      rw [hT] at h3
      cases h3
    simpa [State.win, hne] using h3

omit [DecidableEq ι] in
theorem Inv.win (h : Inv term a) (i : ι) (hT : a.lead (a.cur i) = none) (Q : Finset ι)
    (hQ : Majority Q) (hcur : ∀ v ∈ Q, a.cur i ≤ a.cur v)
    (hvote : ∀ v ∈ Q, ∀ T k m, T < a.cur i → Created term a.lead T k m → k < a.acc v T →
      Keeps a.lead T (m.take (k + 1)) (a.log i) (a.cur i)) : Inv term (a.win i) := by
  have hg : Grows a.lead (a.win i).lead := grows_update_none hT
  refine ⟨fun j => (h.valid j).mono hg, ?_, ?_, h.logTerm, ?_, ?_, ?_, ?_⟩
  · intro T m hm
    by_cases hTi : T = a.cur i
    · subst hTi
      simp only [State.win, Function.update_self, Option.some.injEq] at hm
      exact hm ▸ (h.valid i).mono hg
    · exact (h.leadValid T m (by simpa [State.win, hTi] using hm)).mono hg
  · intro T m hm
    by_cases hTi : T = a.cur i
    · subst hTi
      simp only [State.win, Function.update_self, Option.some.injEq] at hm
      exact hm ▸ h.logTerm i
    · exact h.leadTerm T m (by simpa [State.win, hTi] using hm)
  · intro j T hj
    obtain ⟨hc, m, hm, hl⟩ := h.accLe j T hj
    have hne : T ≠ a.cur i := by
      rintro rfl
      rw [hT] at hm
      cases hm
    exact ⟨hc, m, by simpa [State.win, hne] using hm, hl⟩
  · intro j T k m hc hj
    exact (h.keeps j T k m (created_win hT (h.valid i) hc) hj).win hT
  · intro T m hm
    by_cases hTi : T = a.cur i
    · subst hTi
      exact ⟨Q, hQ, hcur⟩
    · exact h.elected T m (by simpa [State.win, hTi] using hm)
  · intro T k m T' m' hc hTT hm'
    have hc' := created_win hT (h.valid i) hc
    by_cases hTi : T' = a.cur i
    · subst hTi
      simp only [State.win, Function.update_self, Option.some.injEq] at hm'
      subst hm'
      by_cases hlater : ∃ T'' m'', T < T'' ∧ a.lead T'' = some m'' ∧ ¬ m.take (k + 1) <+: m''
      · -- a leader in between already lacks the prefix
        obtain ⟨T'', m'', h1, h2, h3⟩ := hlater
        exact (h.safe T k m T'' m'' hc' h1 h2).imp_left (absurd · h3)
      · by_cases hv : ∃ v ∈ Q, k < a.acc v T
        · obtain ⟨v, hv, hk⟩ := hv
          obtain hp | ⟨T'', m'', h1, _, h3, h4⟩ := hvote v hv T k m hTT hc' hk
          · exact Or.inl hp
          · exact absurd ⟨T'', m'', h1, h3, h4⟩ hlater
        · refine Or.inr ⟨Q, hQ, fun v hvQ => ⟨hTT.trans_le (hcur v hvQ), ?_⟩⟩
          by_contra hlt
          exact hv ⟨v, hvQ, by simpa [State.win] using hlt⟩
    · exact h.safe T k m T' m' hc' hTT (by simpa [State.win, hTi] using hm')

def State.extend (a : State ι E) (i : ι) (e : E) : State ι E :=
  { a with
    log := Function.update a.log i (a.log i ++ [e])
    lead := Function.update a.lead (a.cur i) (some (a.log i ++ [e])) }

omit [Fintype ι] in
theorem created_extend {i : ι} {e : E} (hl : a.lead (a.cur i) = some (a.log i)) {T : ℤ} {k : ℕ}
    {m : List E} (hc : Created term (a.extend i e).lead T k m) :
    (T = a.cur i ∧ k = (a.log i).length ∧ m = a.log i ++ [e]) ∨
      ∃ m', Created term a.lead T k m' ∧ m.take (k + 1) = m'.take (k + 1) := by
  obtain ⟨hm, f, hf, hte⟩ := hc
  by_cases h : T = a.cur i
  · subst h
    simp only [State.extend, Function.update_self, Option.some.injEq] at hm
    subst hm
    by_cases hk : k < (a.log i).length
    · refine Or.inr ⟨a.log i, ⟨hl, f, ?_, hte⟩, List.take_append_of_le_length (by omega)⟩
      rwa [List.getElem?_append_left hk] at hf
    · have hlen := (List.getElem?_eq_some_iff.mp hf).1
      simp only [List.length_append, List.length_singleton] at hlen
      exact Or.inl ⟨rfl, by omega, rfl⟩
  · refine Or.inr ⟨m, ⟨?_, f, hf, hte⟩, rfl⟩
    simpa [State.extend, h] using hm

omit [Fintype ι] in
/-- Extending a leader's log by an entry of its own term cannot make it catch
up with a prefix of earlier terms. -/
theorem Keeps.extend {i : ι} {e : E} (hl : a.lead (a.cur i) = some (a.log i))
    (he : term e = a.cur i) {T : ℤ} {P F F' : List E} {t : ℤ} (hP : ∀ f ∈ P, term f ≤ T)
    (hF : P <+: F → P <+: F') (h : Keeps a.lead T P F t) : Keeps (a.extend i e).lead T P F' t := by
  obtain h | ⟨T', m', h1, h2, h3, h4⟩ := h
  · exact Or.inl (hF h)
  · by_cases hT : T' = a.cur i
    · subst hT
      rw [hl] at h3
      cases h3
      refine Or.inr ⟨a.cur i, a.log i ++ [e], h1, h2, by simp [State.extend], ?_⟩
      intro hp
      obtain heq | hp := List.prefix_concat_iff.mp hp
      · have hlt := hP e (by rw [heq]; simp)
        omega
      · exact h4 hp
    · exact Or.inr ⟨T', m', h1, h2, by simpa [State.extend, hT] using h3, h4⟩

theorem Inv.extend (h : Inv term a) (i : ι) (e : E) (hl : a.lead (a.cur i) = some (a.log i))
    (he : term e = a.cur i) : Inv term (a.extend i e) := by
  have hg : Grows a.lead (a.extend i e).lead := grows_update_append hl
  have hv : Valid term (a.extend i e).lead (a.log i ++ [e]) := by
    have := (h.valid i).append (e := e) (he ▸ hl)
    rwa [he] at this
  have hlog : ∀ j, a.log j <+: (a.extend i e).log j := by
    intro j
    by_cases hj : j = i
    · subst hj
      simp [State.extend]
    · simp [State.extend, hj]
  refine ⟨?_, ?_, ?_, ?_, ?_, ?_, ?_, ?_⟩
  · intro j
    by_cases hj : j = i
    · subst hj
      simpa [State.extend] using hv
    · simpa [State.extend, hj] using (h.valid j).mono hg
  · intro T m hm
    by_cases hT : T = a.cur i
    · subst hT
      simp only [State.extend, Function.update_self, Option.some.injEq] at hm
      exact hm ▸ hv
    · exact (h.leadValid T m (by simpa [State.extend, hT] using hm)).mono hg
  · intro T m hm
    by_cases hT : T = a.cur i
    · subst hT
      simp only [State.extend, Function.update_self, Option.some.injEq] at hm
      subst hm
      intro f hf
      obtain hf | hf := List.mem_append.mp hf
      · exact h.logTerm i f hf
      · rw [List.mem_singleton.mp hf, he]
    · exact h.leadTerm T m (by simpa [State.extend, hT] using hm)
  · intro j f hf
    by_cases hj : j = i
    · subst hj
      simp only [State.extend, Function.update_self, List.mem_append, List.mem_singleton] at hf
      obtain hf | rfl := hf
      · exact h.logTerm j f hf
      · exact he.le
    · exact h.logTerm j f (by simpa [State.extend, hj] using hf)
  · intro j T hj
    obtain ⟨hc, m, hm, hlen⟩ := h.accLe j T hj
    obtain ⟨m', hm', hp⟩ := hg T m hm
    exact ⟨hc, m', hm', hlen.trans hp.length_le⟩
  · intro j T k m hc hj
    obtain ⟨rfl, rfl, rfl⟩ | ⟨m', hc', heq⟩ := created_extend hl hc
    · obtain ⟨_, m', hm', hlen⟩ := h.accLe j _ (by exact Nat.lt_of_le_of_lt (Nat.zero_le _) hj)
      have hm : a.lead (a.cur i) = some m' := hm'
      rw [hl] at hm
      cases hm
      exact absurd hj (Nat.not_lt.mpr hlen)
    · rw [heq]
      refine (h.keeps j T k m' hc' hj).extend hl he ?_ (·.trans (hlog j))
      exact fun f hf => h.created_le hc' hf
  · intro T m hm
    by_cases hT : T = a.cur i
    · exact hT ▸ h.elected _ _ hl
    · exact h.elected T m (by simpa [State.extend, hT] using hm)
  · intro T k m T' m' hc hTT hm'
    have hold : ∃ m₀, a.lead T' = some m₀ ∧ m₀ <+: m' := by
      by_cases hT : T' = a.cur i
      · subst hT
        simp only [State.extend, Function.update_self, Option.some.injEq] at hm'
        exact ⟨a.log i, hl, hm' ▸ List.prefix_append _ _⟩
      · exact ⟨m', by simpa [State.extend, hT] using hm', List.prefix_refl _⟩
    obtain ⟨m₀, hm₀, hp₀⟩ := hold
    obtain ⟨rfl, rfl, rfl⟩ | ⟨m₁, hc', heq⟩ := created_extend hl hc
    · -- the majority that elected the later leader has left this term
      obtain ⟨Q, hQ, hq⟩ := h.elected T' m₀ hm₀
      refine Or.inr ⟨Q, hQ, fun v hv => ⟨hTT.trans_le (hq v hv), ?_⟩⟩
      by_cases h0 : 0 < a.acc v (a.cur i)
      · obtain ⟨_, m₁, hm₁, hlen⟩ := h.accLe v _ h0
        rw [hl] at hm₁
        cases hm₁
        exact hlen
      · have h0' : a.acc v (a.cur i) = 0 := by omega
        simp [State.extend, h0']
    · rw [heq]
      obtain hp | hb := h.safe T k m₁ T' m₀ hc' hTT hm₀
      · exact Or.inl (hp.trans hp₀)
      · exact Or.inr hb

omit [DecidableEq ι] in
/-- A later candidate whose log is at least as up to date as the voter's keeps
what the voter kept. -/
theorem Inv.keeps_of_upToDate (h : Inv term a) (hpos : ∀ T m, a.lead T = some m → 0 < T)
    {T t : ℤ} {k : ℕ} {m F G : List E} (hc : Created term a.lead T k m)
    (hF : Valid term a.lead F) (hG : Valid term a.lead G) (hGt : ∀ e ∈ G, term e ≤ t)
    (hk : Keeps a.lead T (m.take (k + 1)) F t)
    (hup : termAt term F F.length < termAt term G G.length ∨
      termAt term F F.length = termAt term G G.length ∧ F.length ≤ G.length) :
    Keeps a.lead T (m.take (k + 1)) G t := by
  obtain hp | hp := hk
  swap
  · exact Or.inr hp
  by_cases hlater : ∃ T' m', T < T' ∧ T' ≤ t ∧ a.lead T' = some m' ∧ ¬ m.take (k + 1) <+: m'
  · exact Or.inr hlater
  left
  obtain ⟨hm, e, he, hte⟩ := hc
  have hkm : k < m.length := (List.getElem?_eq_some_iff.mp he).1
  have hPlen : (m.take (k + 1)).length = k + 1 := by
    rw [List.length_take]
    omega
  have hFlen : k + 1 ≤ F.length := hPlen ▸ hp.length_le
  have heF : F[k]? = some e := by
    obtain ⟨r, rfl⟩ := hp
    rw [List.getElem?_append_left (by omega), List.getElem?_take, if_pos (by omega), he]
  obtain ⟨p, hFp⟩ : ∃ p, F.length = p + 1 := ⟨F.length - 1, by omega⟩
  have hlast : F[p]? = some F[p] := List.getElem?_eq_getElem (by omega)
  have hTF : T ≤ term F[p] := hte ▸ hF.term_le h.leadTerm heF hlast (by omega)
  have hTpos : 0 < T := hpos T m hm
  rw [hFp, termAt_succ hlast] at hup
  obtain ⟨q, hGq⟩ : ∃ q, G.length = q + 1 := by
    refine ⟨G.length - 1, ?_⟩
    by_contra hne
    have hG0 : G.length = 0 := by omega
    simp only [hG0, termAt] at hup
    omega
  have hlastG : G[q]? = some G[q] := List.getElem?_eq_getElem (by omega)
  rw [hGq, termAt_succ hlastG] at hup
  obtain ⟨m', hm', hpG⟩ := hG q _ hlastG
  rw [List.take_of_length_le (by omega)] at hpG
  by_cases hTt : term G[q] = T
  · -- both logs end on the log of the leader of `T`
    rw [hTt, hm] at hm'
    cases hm'
    exact List.prefix_of_prefix_length_le (List.take_prefix _ _) hpG (by omega)
  · have hlt : T < term G[q] := by omega
    have hPm : m.take (k + 1) <+: m' := by
      by_contra hn
      exact hlater ⟨term G[q], m', hlt, hGt _ (List.getElem_mem _), hm', hn⟩
    refine List.prefix_of_prefix_length_le hPm hpG ?_
    by_contra hlen
    have hq : G[q] ∈ m.take (k + 1) := by
      have hGP : G <+: m.take (k + 1) := List.prefix_of_prefix_length_le hpG hPm (by omega)
      exact hGP.subset (List.getElem_mem _)
    have hle := h.created_le ⟨hm, e, he, hte⟩ hq
    omega

end Chfs.Lib.Ballot
