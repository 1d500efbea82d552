import Chfs.Lib.LeaderLog
import Chfs.Raft.Node

/-! The log vector of a node holds the entries behind its snapshot; its front
entry stands for the last entry inside. What a node holds altogether is the
list `covered ++ log.tail`, with entry `k` at place `k - 1`. -/

namespace Chfs.Raft.FullLog

open Protocol Node Lib.LeaderLog

variable {Command : Type}

abbrev Log (Command : Type) := List (RaftLogEntry Command)

abbrev entryTerm (l : Log Command) (k : ℕ) : ℤ := termAt RaftLogEntry.term l k

def Indexed (l : Log Command) : Prop := ∀ (k : ℕ) e, l[k]? = some e → e.index = k + 1

structure LogRep (covered log : Log Command) : Prop where
  front : ∃ f tl, log = f :: tl ∧ f.index = covered.length ∧ f.term = entryTerm covered covered.length
  indexed : Indexed (covered ++ log.tail)

theorem Indexed.restrict {l l' : Log Command} (h : Indexed l) (hp : l' <+: l) : Indexed l' := by
  intro k e he
  have hk : k < l'.length := (List.getElem?_eq_some_iff.mp he).1
  obtain ⟨r, rfl⟩ := hp
  exact h k e (by rw [List.getElem?_append_left hk, he])

theorem entryTerm_append {l r : Log Command} {k : ℕ} (hk : k ≤ l.length) :
    entryTerm (l ++ r) k = entryTerm l k :=
  (termAt_restrict (List.prefix_append l r) hk).symm

theorem entryTerm_take {l : Log Command} {k m : ℕ} (hk : k ≤ m) (hm : m ≤ l.length) :
    entryTerm (l.take m) k = entryTerm l k :=
  termAt_restrict (List.take_prefix m l) (by rw [List.length_take]; omega)

section

variable {covered log : Log Command}

theorem LogRep.length (h : LogRep covered log) :
    (covered ++ log.tail).length + 1 = covered.length + log.length := by
  obtain ⟨f, tl, rfl, _, _⟩ := h.front
  simp only [List.tail_cons, List.length_append, List.length_cons]
  omega

theorem LogRep.head (h : LogRep covered log) {f : RaftLogEntry Command} (hf : log.head? = some f) :
    f.index = covered.length ∧ f.term = entryTerm (covered ++ log.tail) covered.length := by
  obtain ⟨g, tl, rfl, hi, ht⟩ := h.front
  simp only [List.head?_cons, Option.some.injEq] at hf
  subst hf
  exact ⟨hi, by rw [ht, entryTerm_append (le_refl _)]⟩

theorem LogRep.getElem (h : LogRep covered log) {k : ℕ} {e : RaftLogEntry Command}
    (he : log[k]? = some e) : covered.length + k ≤ (covered ++ log.tail).length ∧
      e.index = covered.length + k ∧ e.term = entryTerm (covered ++ log.tail) (covered.length + k) ∧
      (0 < k → (covered ++ log.tail)[covered.length + k - 1]? = some e) := by
  obtain ⟨f, tl, rfl, hi, ht⟩ := h.front
  have hlen := h.length
  cases k with
  | zero =>
    simp only [List.getElem?_cons_zero, Option.some.injEq] at he
    subst he
    refine ⟨by simp, by simpa using hi, ?_, fun h0 => absurd h0 (lt_irrefl 0)⟩
    rw [Nat.add_zero, entryTerm_append (le_refl _), ht]
  | succ k =>
    simp only [List.getElem?_cons_succ] at he
    have hk : k < tl.length := (List.getElem?_eq_some_iff.mp he).1
    have hfull : (covered ++ (f :: tl).tail)[covered.length + k]? = some e := by
      rw [List.tail_cons, List.getElem?_append_right (by omega)]
      simpa using he
    refine ⟨?_, ?_, ?_, fun _ => ?_⟩
    · simp only [List.tail_cons, List.length_append]
      omega
    · have := h.indexed _ e hfull
      push_cast at this ⊢
      omega
    · rw [show covered.length + (k + 1) = covered.length + k + 1 by omega]
      exact (termAt_succ hfull).symm
    · rwa [show covered.length + (k + 1) - 1 = covered.length + k by omega]

theorem LogRep.last (h : LogRep covered log) {b : RaftLogEntry Command}
    (hb : log.getLast? = some b) : b.index = (covered ++ log.tail).length ∧
      b.term = entryTerm (covered ++ log.tail) (covered ++ log.tail).length := by
  obtain ⟨f, tl, hlog, _, _⟩ := h.front
  have hlen := h.length
  have hpos : 0 < log.length := by rw [hlog]; simp
  have hget : log[log.length - 1]? = some b := by rw [← List.getLast?_eq_getElem?, hb]
  obtain ⟨_, hi, ht, _⟩ := h.getElem hget
  have heq : covered.length + (log.length - 1) = (covered ++ log.tail).length := by omega
  rw [heq] at ht
  exact ⟨by rw [hi]; omega, ht⟩

theorem at?_eq_some {α : Type} {v : List α} {i : ℤ} {x : α} (h : at? v i = some x) :
    ∃ k : ℕ, i = k ∧ v[k]? = some x := by
  unfold at? at h
  split at h
  case isTrue h0 => exact ⟨i.toNat, by omega, h⟩
  case isFalse => cases h

theorem at?_natCast {α : Type} (v : List α) (k : ℕ) : at? v (k : ℤ) = v[k]? := by
  simp [at?]

theorem LogRep.at? (h : LogRep covered log) {i : ℤ} {e : RaftLogEntry Command}
    (he : Node.at? log (i - covered.length) = some e) : ∃ m : ℕ, i = m ∧ covered.length ≤ m ∧
      m ≤ (covered ++ log.tail).length ∧ e.index = m ∧
      e.term = entryTerm (covered ++ log.tail) m ∧
      (covered.length < m → (covered ++ log.tail)[m - 1]? = some e) := by
  obtain ⟨k, hk, hget⟩ := at?_eq_some he
  obtain ⟨h1, h2, h3, h4⟩ := h.getElem hget
  exact ⟨covered.length + k, by push_cast; omega, by omega, h1, by push_cast; omega, h3,
    fun hlt => h4 (by omega)⟩

theorem LogRep.holds (h : LogRep covered log) {i t : ℤ} {b : Bool} (hh : holds? log i t = some b) :
    ((covered ++ log.tail).length < i ∧ b = false) ∨ ∃ m : ℕ, i = m ∧ covered.length ≤ m ∧
      m ≤ (covered ++ log.tail).length ∧ b = decide (t = entryTerm (covered ++ log.tail) m) := by
  unfold holds? at hh
  obtain ⟨f, hf, hh⟩ := Option.bind_eq_some_iff.mp hh
  obtain ⟨l, hl, hh⟩ := Option.bind_eq_some_iff.mp hh
  rw [(h.head hf).1, (h.last hl).1] at hh
  split at hh
  case isTrue =>
    obtain ⟨e, he, rfl⟩ := Option.map_eq_some_iff.mp hh
    obtain ⟨m, h1, h2, h3, _, h5, _⟩ := h.at? he
    exact Or.inr ⟨m, h1, h2, h3, by rw [h5]⟩
  case isFalse hi =>
    simp only [Option.some.injEq] at hh
    exact Or.inl ⟨by omega, hh.symm⟩

theorem LogRep.drop_succ (h : LogRep covered log) (k : ℕ) :
    log.drop (k + 1) = (covered ++ log.tail).drop (covered.length + k) := by
  obtain ⟨f, tl, rfl, _, _⟩ := h.front
  simp

theorem LogRep.mem (h : LogRep covered log) {e : RaftLogEntry Command}
    (he : e ∈ log) : ∃ m : ℕ, e.index = m ∧ m ≤ (covered ++ log.tail).length ∧
      e.term = entryTerm (covered ++ log.tail) m := by
  obtain ⟨k, hk⟩ := List.mem_iff_getElem?.mp he
  obtain ⟨h1, h2, h3, _⟩ := h.getElem hk
  exact ⟨covered.length + k, by push_cast; exact h2, h1, h3⟩

theorem LogRep.mem_tail (h : LogRep covered log)
    {e : RaftLogEntry Command} (he : e ∈ log.tail) :
    ∃ m : ℕ, e.index = m + 1 ∧ (covered ++ log.tail)[m]? = some e := by
  obtain ⟨k, hk⟩ := List.mem_iff_getElem?.mp he
  have hfull : (covered ++ log.tail)[covered.length + k]? = some e := by
    rw [List.getElem?_append_right (by omega)]
    simpa using hk
  exact ⟨covered.length + k, h.indexed _ e hfull, hfull⟩

theorem LogRep.at?_of_le (h : LogRep covered log) {k : ℕ}
    (h1 : covered.length < k) (h2 : k ≤ (covered ++ log.tail).length) :
    ∃ e, Node.at? log ((k : ℤ) - covered.length) = some e ∧
      (covered ++ log.tail)[k - 1]? = some e := by
  have hlen := h.length
  obtain ⟨e, hget⟩ : ∃ e, log[k - covered.length]? = some e :=
    ⟨_, List.getElem?_eq_getElem (by omega)⟩
  obtain ⟨_, _, _, h4⟩ := h.getElem hget
  refine ⟨e, ?_, ?_⟩
  · rw [show (k : ℤ) - covered.length = ((k - covered.length : ℕ) : ℤ) by omega, at?_natCast]
    exact hget
  · rw [← h4 (by omega)]
    congr 1
    omega

theorem LogRep.holds_eq (h : LogRep covered log) {m : ℕ} (h1 : covered.length ≤ m)
    (h2 : m ≤ (covered ++ log.tail).length) (t : ℤ) :
    holds? log m t = some (decide (t = entryTerm (covered ++ log.tail) m)) := by
  have hlen := h.length
  obtain ⟨f, hf⟩ : ∃ f, log.head? = some f := by
    obtain ⟨f, tl, rfl, _⟩ := h.front
    exact ⟨f, rfl⟩
  obtain ⟨b, hb⟩ : ∃ b, log.getLast? = some b := by
    obtain ⟨f, tl, rfl, _⟩ := h.front
    exact ⟨_, List.getLast?_cons⟩
  obtain ⟨e, he⟩ : ∃ e, log[m - covered.length]? = some e :=
    ⟨_, List.getElem?_eq_getElem (by omega)⟩
  have hle : (m : ℤ) ≤ b.index := by
    rw [(h.last hb).1]
    exact_mod_cast h2
  have hat : Node.at? log ((m : ℤ) - f.index) = some e := by
    rw [(h.head hf).1, show (m : ℤ) - covered.length = ((m - covered.length : ℕ) : ℤ) by omega,
      at?_natCast, he]
  have ht := (h.getElem he).2.2.1
  rw [show covered.length + (m - covered.length) = m by omega] at ht
  simp only [holds?, hf, hb, Option.bind_eq_bind, Option.bind_some, if_pos hle, hat, Option.map_some, ht]

theorem LogRep.drop (h : LogRep covered log) {m : ℕ} (h1 : covered.length ≤ m)
    (h2 : m ≤ (covered ++ log.tail).length) :
    LogRep ((covered ++ log.tail).take m) (log.drop (m - covered.length)) ∧
      (covered ++ log.tail).take m ++ (log.drop (m - covered.length)).tail = covered ++ log.tail := by
  obtain ⟨f, tl, rfl, hi, ht⟩ := h.front
  have hlen := h.length
  simp only [List.tail_cons, List.length_cons, List.length_append] at hlen h2 ⊢
  have htail : ((f :: tl).drop (m - covered.length)).tail = tl.drop (m - covered.length) := by
    rw [List.tail_drop]
    simp
  have hfull : (covered ++ tl).take m ++ tl.drop (m - covered.length) = covered ++ tl := by
    rw [List.take_append, List.take_of_length_le h1, List.append_assoc, List.take_append_drop]
  have hk : m - covered.length < (f :: tl).length := by
    simp only [List.length_cons]
    omega
  have hget : (f :: tl)[m - covered.length]? = some (f :: tl)[m - covered.length] :=
    List.getElem?_eq_getElem hk
  obtain ⟨_, g2, g3, _⟩ := h.getElem hget
  have hm : covered.length + (m - covered.length) = m := by omega
  have hlm : ((covered ++ tl).take m).length = m := by
    rw [List.length_take, List.length_append]
    omega
  refine ⟨⟨⟨(f :: tl)[m - covered.length], (f :: tl).drop (m - covered.length + 1),
    List.drop_eq_getElem_cons hk, ?_, ?_⟩, ?_⟩, by rw [htail, hfull]⟩
  · rw [hlm, g2]
    omega
  · rw [g3, hm, hlm, entryTerm_take (le_refl _) (by rw [List.length_append]; omega), List.tail_cons]
  · rw [htail, hfull]
    exact h.indexed

theorem LogRep.splice (h : LogRep covered log) {m : ℕ} (h1 : covered.length ≤ m)
    (h2 : m ≤ (covered ++ log.tail).length) (entries : Log Command)
    (hidx : Indexed ((covered ++ log.tail).take m ++ entries)) :
    LogRep covered (log.take (m + 1 - covered.length) ++ entries) ∧
      covered ++ (log.take (m + 1 - covered.length) ++ entries).tail =
        (covered ++ log.tail).take m ++ entries := by
  obtain ⟨f, tl, rfl, hi, ht⟩ := h.front
  simp only [List.tail_cons] at h2 hidx ⊢
  have hk : m + 1 - covered.length = (m - covered.length) + 1 := by omega
  have htake : (f :: tl).take (m + 1 - covered.length) = f :: tl.take (m - covered.length) := by
    rw [hk, List.take_succ_cons]
  have hfull : covered ++ (tl.take (m - covered.length) ++ entries) =
      (covered ++ tl).take m ++ entries := by
    rw [List.take_append, List.take_of_length_le h1, List.append_assoc]
  rw [htake, List.cons_append, List.tail_cons, hfull]
  refine ⟨⟨⟨f, _, rfl, hi, ht⟩, ?_⟩, rfl⟩
  rwa [List.tail_cons, hfull]

theorem LogRep.append (h : LogRep covered log) (e : RaftLogEntry Command)
    (he : e.index = (covered ++ log.tail).length + 1) : LogRep covered (log ++ [e]) ∧
      covered ++ (log ++ [e]).tail = (covered ++ log.tail) ++ [e] := by
  obtain ⟨f, tl, rfl, hi, ht⟩ := h.front
  simp only [List.tail_cons] at he ⊢
  refine ⟨⟨⟨f, tl ++ [e], rfl, hi, ht⟩, ?_⟩, by simp⟩
  intro k g hg
  simp only [List.cons_append, List.tail_cons, ← List.append_assoc] at hg
  by_cases hk : k < (covered ++ tl).length
  · rw [List.getElem?_append_left hk] at hg
    exact h.indexed k g hg
  · have hlt := (List.getElem?_eq_some_iff.mp hg).1
    simp only [List.length_append, List.length_singleton] at hlt hk he
    have hke : k = (covered ++ tl).length := by rw [List.length_append]; omega
    subst hke
    rw [List.getElem?_concat_length] at hg
    cases hg
    rw [he, List.length_append]

end

theorem logRep_singleton {held : Log Command} {b : ℕ} (hb : b ≤ held.length) (hidx : Indexed held)
    (junk : Command) : LogRep (held.take b) [⟨b, entryTerm held b, junk⟩] := by
  have hl : (held.take b).length = b := by rw [List.length_take]; omega
  refine ⟨⟨_, [], rfl, by rw [hl], ?_⟩, ?_⟩
  · rw [hl, entryTerm_take (le_refl _) hb]
  · simpa using hidx.restrict (List.take_prefix b held)

theorem logRep_init (cmd : Command) : LogRep [] [(⟨0, 0, cmd⟩ : RaftLogEntry Command)] := by
  refine ⟨⟨_, [], rfl, rfl, rfl⟩, ?_⟩
  intro k e he
  simp at he

end Chfs.Raft.FullLog
