import Chfs.Raft.FullLog
import Chfs.Raft.Handlers

namespace Chfs.Raft.Splicing

open Protocol Node Handlers FullLog

variable {n : ℕ} {Command St : Type}

def Numbered (start : ℤ) (l : Log Command) : Prop :=
  ∀ (k : ℕ) e, l[k]? = some e → e.index = start + k

/-- The log vector of a node has no gaps. -/
def Contiguous (log : Log Command) : Prop := ∃ front ∈ log.head?, Numbered front.index log

/-- Only a conflict between the message and the log costs entries of the log,
and a message without news changes nothing. -/
structure RemovesConflicts (log log' : Log Command) (prevLogIndex : ℤ) (entries : Log Command) :
    Prop where
  unchanged : (∀ x ∈ entries, ∃ e ∈ log, e.index = x.index ∧ e.term = x.term) → log' = log
  removed : ∀ e ∈ log, e ∉ log' → ∃ x ∈ entries, prevLogIndex < x.index ∧ x.index ≤ e.index ∧
    ∃ e' ∈ log, e'.index = x.index ∧ e'.term ≠ x.term

def behind (log : Log Command) (prevLogIndex : ℤ) : Log Command :=
  log.filter fun e => prevLogIndex < e.index

/-- A message that carries entries repeats what the log has behind
`prevLogIndex`, up to the end of the log or up to an entry of another term. -/
def Repeats (tail entries : Log Command) : Prop :=
  entries = [] ∨ tail <+: entries ∨ ∃ m e x, tail[m]? = some e ∧ entries[m]? = some x ∧
    e.term ≠ x.term ∧ tail.take m = entries.take m

theorem exists_mismatch {α : Type} {l r : List α} (h : ¬ l <+: r) :
    ∃ m a, l[m]? = some a ∧ r[m]? ≠ some a ∧ l.take m = r.take m := by
  induction l generalizing r with
  | nil => exact absurd List.nil_prefix h
  | cons a l ih =>
    by_cases ha : r.head? = some a
    · obtain ⟨tl, rfl⟩ := List.head?_eq_some_iff.mp ha
      obtain ⟨m, b, hl, hr, htake⟩ := ih fun hp => h (List.cons_prefix_cons.mpr ⟨rfl, hp⟩)
      exact ⟨m + 1, b, hl, hr, by rw [List.take_succ_cons, List.take_succ_cons, htake]⟩
    · exact ⟨0, a, rfl, by rwa [← List.head?_eq_getElem?], rfl⟩

section Numbered

variable {start : ℤ} {l : Log Command} (h : Numbered start l)
include h

theorem Numbered.mem {e : RaftLogEntry Command} (he : e ∈ l) :
    ∃ k : ℕ, l[k]? = some e ∧ e.index = start + k := by
  obtain ⟨k, hk⟩ := List.mem_iff_getElem?.mp he
  exact ⟨k, hk, h k e hk⟩

theorem Numbered.getElem?_of_mem {e : RaftLogEntry Command} (he : e ∈ l) {m : ℕ}
    (hm : e.index = start + m) : l[m]? = some e := by
  obtain ⟨k, hk, hidx⟩ := h.mem he
  obtain rfl : k = m := by omega
  exact hk

theorem Numbered.drop (m : ℕ) : Numbered (start + m) (l.drop m) := by
  intro k e he
  rw [List.getElem?_drop] at he
  rw [h _ e he]
  push_cast
  omega

theorem Numbered.behind_eq {prevLogIndex : ℤ} (hle : start ≤ prevLogIndex) :
    behind l prevLogIndex = l.drop (prevLogIndex + 1 - start).toNat := by
  have hsplit := List.take_append_drop (prevLogIndex + 1 - start).toNat l
  have htake : (l.take (prevLogIndex + 1 - start).toNat).filter (prevLogIndex < ·.index) = [] := by
    apply List.filter_eq_nil_iff.mpr
    intro e he
    obtain ⟨k, hk⟩ := List.mem_iff_getElem?.mp he
    have hlt : k < (prevLogIndex + 1 - start).toNat := by
      have := (List.getElem?_eq_some_iff.mp hk).1
      rw [List.length_take] at this
      omega
    rw [List.getElem?_take_of_lt hlt] at hk
    have := h k e hk
    simp only [decide_eq_true_eq]
    omega
  have hdrop : (l.drop (prevLogIndex + 1 - start).toNat).filter (prevLogIndex < ·.index) =
      l.drop (prevLogIndex + 1 - start).toNat := by
    apply List.filter_eq_self.mpr
    intro e he
    obtain ⟨k, hk, hidx⟩ := (h.drop _).mem he
    simp only [decide_eq_true_eq]
    omega
  unfold behind
  conv_lhs => rw [← hsplit]
  rw [List.filter_append, htake, hdrop, List.nil_append]

end Numbered

section Splice

variable {pre tail entries : Log Command} {p : ℤ} (hpre : ∀ e ∈ pre, e.index ≤ p)
  (htail : Numbered (p + 1) tail) (hentries : Numbered (p + 1) entries)
include hpre htail hentries

theorem removesConflicts_of_repeats (hne : entries ≠ []) (h : Repeats tail entries) :
    RemovesConflicts (pre ++ tail) (pre ++ entries) p entries := by
  obtain rfl | ⟨rest, rfl⟩ | ⟨m, e, x, he, hx, hterm, htake⟩ := h
  · exact absurd rfl hne
  · constructor
    case unchanged =>
      intro hall
      cases rest with
      | nil => rw [List.append_nil]
      | cons x rest =>
        -- an entry behind the end of the log is in no log
        have hx : (tail ++ x :: rest)[tail.length]? = some x := by simp
        obtain ⟨e, he, hidx, -⟩ := hall x (List.mem_of_getElem? hx)
        have hxi := hentries _ x hx
        obtain he | he := List.mem_append.mp he
        · have := hpre e he
          omega
        · obtain ⟨k, hk, hek⟩ := htail.mem he
          have := (List.getElem?_eq_some_iff.mp hk).1
          omega
    case removed =>
      intro e he hgone
      refine absurd ?_ hgone
      obtain he | he := List.mem_append.mp he
      · exact List.mem_append_left _ he
      · exact List.mem_append_right _ (List.mem_append_left _ he)
  · have hei := htail m e he
    have hxi := hentries m x hx
    constructor
    case unchanged =>
      intro hall
      obtain ⟨e', he', hidx, ht⟩ := hall x (List.mem_of_getElem? hx)
      obtain he' | he' := List.mem_append.mp he'
      · have := hpre e' he'
        omega
      · have hget := htail.getElem?_of_mem he' (hidx.trans hxi)
        rw [he, Option.some.injEq] at hget
        exact absurd (hget ▸ ht) hterm
    case removed =>
      intro e₀ he₀ hgone
      obtain he₀ | he₀ := List.mem_append.mp he₀
      · exact absurd (List.mem_append_left _ he₀) hgone
      · obtain ⟨k, hk, hidx⟩ := htail.mem he₀
        have hmk : m ≤ k := by
          by_contra hlt
          rw [← List.getElem?_take_of_lt (Nat.lt_of_not_le hlt), htake] at hk
          exact hgone (List.mem_append_right _ (List.mem_of_mem_take (List.mem_of_getElem? hk)))
        exact ⟨x, List.mem_of_getElem? hx, by omega, by omega, e,
          List.mem_append_right _ (List.mem_of_getElem? he), by omega, hterm⟩

theorem repeats_of_removesConflicts
    (h : RemovesConflicts (pre ++ tail) (pre ++ entries) p entries) : Repeats tail entries := by
  by_cases hprefix : tail <+: entries
  · exact Or.inr (Or.inl hprefix)
  · obtain ⟨m, e, he, hne, htake⟩ := exists_mismatch hprefix
    have hei := htail m e he
    have hgone : e ∉ pre ++ entries := by
      intro hmem
      obtain hmem | hmem := List.mem_append.mp hmem
      · have := hpre e hmem
        omega
      · exact hne (hentries.getElem?_of_mem hmem hei)
    obtain ⟨x, hx, hlo, hhi, e', he', hidx, hterm⟩ :=
      h.removed e (List.mem_append_right _ (List.mem_of_getElem? he)) hgone
    obtain ⟨q, hq, hxi⟩ := hentries.mem hx
    have he'q : tail[q]? = some e' := by
      obtain he' | he' := List.mem_append.mp he'
      · have := hpre e' he'
        omega
      · exact htail.getElem?_of_mem he' (hidx.trans hxi)
    obtain hlt | rfl : q < m ∨ q = m := by omega
    · rw [← List.getElem?_take_of_lt hlt, htake, List.getElem?_take_of_lt hlt, hq,
        Option.some.injEq] at he'q
      exact absurd (he'q ▸ rfl) hterm
    · exact Or.inr (Or.inr ⟨q, e', x, he'q, hq, hterm, htake⟩)

end Splice

theorem holds?_true {log : Log Command} {index term : ℤ} (h : holds? log index term = some true) :
    ∃ front back e, log.head? = some front ∧ log.getLast? = some back ∧ index ≤ back.index ∧
      at? log (index - front.index) = some e ∧ e.term = term := by
  obtain ⟨front, hf, h⟩ := Option.bind_eq_some_iff.mp h
  obtain ⟨back, hb, h⟩ := Option.bind_eq_some_iff.mp h
  split at h
  case isTrue hle =>
    obtain ⟨e, he, ht⟩ := Option.map_eq_some_iff.mp h
    exact ⟨front, back, e, hf, hb, hle, he, (of_decide_eq_true ht).symm⟩
  case isFalse => cases h

section Contiguous

variable {log log' entries : Log Command} {back : RaftLogEntry Command}

theorem Contiguous.ends (h : Contiguous log) : ∃ front back, log.head? = some front ∧
    log.getLast? = some back ∧ Numbered front.index log ∧ log.length = back.index - front.index + 1 := by
  obtain ⟨front, hf, hnum⟩ := h
  obtain ⟨tl, rfl⟩ := List.head?_eq_some_iff.mp hf
  obtain ⟨back, hb⟩ : ∃ back, (front :: tl).getLast? = some back := ⟨_, List.getLast?_cons⟩
  have hget := hb
  rw [List.getLast?_eq_getElem?] at hget
  have hidx := hnum _ back hget
  rw [List.length_cons] at hidx ⊢
  exact ⟨front, back, rfl, hb, hnum, by push_cast; omega⟩

theorem contiguous_singleton (e : RaftLogEntry Command) : Contiguous [e] := by
  refine ⟨e, rfl, fun k e' he => ?_⟩
  obtain ⟨rfl, rfl⟩ : k = 0 ∧ e = e' := by simpa [List.getElem?_singleton] using he
  simp

theorem Numbered.append {start : ℤ} (h : Numbered start log)
    (h' : Numbered (start + log.length) log') : Numbered start (log ++ log') := by
  intro k e he
  by_cases hk : k < log.length
  · rw [List.getElem?_append_left hk] at he
    exact h k e he
  · rw [List.getElem?_append_right (by omega)] at he
    have := h' _ e he
    omega

theorem Numbered.take {start : ℤ} (h : Numbered start log) (m : ℕ) : Numbered start (log.take m) := by
  intro k e he
  have hk := (List.getElem?_eq_some_iff.mp he).1
  rw [List.length_take] at hk
  rw [List.getElem?_take_of_lt (by omega)] at he
  exact h k e he

theorem Contiguous.append (h : Contiguous log) (hb : log.getLast? = some back)
    (hnum : Numbered (back.index + 1) entries) : Contiguous (log ++ entries) := by
  obtain ⟨front, back', hf, hb', hlog, hlen⟩ := h.ends
  obtain rfl : back' = back := Option.some.inj (hb'.symm.trans hb)
  obtain ⟨tl, rfl⟩ := List.head?_eq_some_iff.mp hf
  refine ⟨front, rfl, hlog.append ?_⟩
  rwa [hlen, show front.index + (back'.index - front.index + 1) = back'.index + 1 by ring]

theorem Contiguous.drop (h : Contiguous log) {m : ℕ} (hm : m < log.length) :
    Contiguous (log.drop m) := by
  obtain ⟨front, back, -, -, hnum, -⟩ := h.ends
  refine ⟨log[m], by rw [List.head?_drop, List.getElem?_eq_getElem hm]; rfl, ?_⟩
  rw [hnum m _ (List.getElem?_eq_getElem hm)]
  exact hnum.drop m

theorem contiguous_splice {prevLogIndex : ℤ} {ops : List (StorageOp Command)} (h : Contiguous log)
    (hprev : ∃ t, holds? log prevLogIndex t = some true) (hnum : Numbered (prevLogIndex + 1) entries)
    (hs : spliceEntries log prevLogIndex entries = some (log', ops)) : Contiguous log' := by
  obtain ⟨-, rfl⟩ | ⟨front, back, hf, hb, -, rfl⟩ := spliceEntries_cases hs
  · exact h
  · obtain ⟨t, hprev⟩ := hprev
    obtain ⟨front', back', e, hf', hb', hle, he, -⟩ := holds?_true hprev
    obtain ⟨front'', back'', hf'', hb'', hlog, hlen⟩ := h.ends
    obtain rfl : front' = front := Option.some.inj (hf'.symm.trans hf)
    obtain rfl : front'' = front' := Option.some.inj (hf''.symm.trans hf)
    obtain rfl : back' = back := Option.some.inj (hb'.symm.trans hb)
    obtain rfl : back'' = back' := Option.some.inj (hb''.symm.trans hb)
    obtain ⟨k, hk, hget⟩ := at?_eq_some he
    have hlt := (List.getElem?_eq_some_iff.mp hget).1
    split
    case isTrue =>
      have hcut : (prevLogIndex + 1 - front''.index).toNat = k + 1 := by omega
      rw [hcut]
      refine ⟨front'', ?_, (hlog.take _).append ?_⟩
      · obtain ⟨tl, rfl⟩ := List.head?_eq_some_iff.mp hf
        rfl
      · rw [List.length_take, Nat.min_eq_left hlt]
        rwa [show front''.index + ((k + 1 : ℕ) : ℤ) = prevLogIndex + 1 by push_cast; omega]
    case isFalse hge =>
      obtain rfl : prevLogIndex = back''.index := by omega
      exact h.append hb hnum

end Contiguous

theorem appendEntries_log {nd : RaftNode n Command St} {args : AppendEntriesArgs Command}
    (hlog : Contiguous nd.log) (hterm : args.term = nd.currentTerm)
    (hprev : holds? nd.log args.prevLogIndex args.prevLogTerm = some true) :
    ∃ out pre, appendEntries nd args = some out ∧ (∀ e ∈ pre, e.index ≤ args.prevLogIndex) ∧
      Numbered (args.prevLogIndex + 1) (behind nd.log args.prevLogIndex) ∧
      nd.log = pre ++ behind nd.log args.prevLogIndex ∧
      out.node.log = if args.entries.isEmpty then nd.log else pre ++ args.entries := by
  obtain ⟨front, hf, hnum⟩ := hlog
  obtain ⟨front', back, e, hf', hb, hle, he, -⟩ := holds?_true hprev
  obtain rfl : front' = front := Option.some.inj (hf'.symm.trans hf)
  obtain ⟨k, hk, hget⟩ := at?_eq_some he
  have hcut : (args.prevLogIndex + 1 - front'.index).toNat = k + 1 := by omega
  have hbehind : behind nd.log args.prevLogIndex = _ := hnum.behind_eq (by omega)
  have hback : back.index = front'.index + ((nd.log.length - 1 : ℕ) : ℤ) := by
    rw [List.getLast?_eq_getElem?] at hb
    exact hnum _ back hb
  have hlen := (List.getElem?_eq_some_iff.mp hget).1
  have hout : ∃ out, appendEntries nd args = some out ∧ out.node.log =
      if args.entries.isEmpty then nd.log
      else nd.log.take (args.prevLogIndex + 1 - front'.index).toNat ++ args.entries := by
    have hj := joins_ite_candidate nd (t := args.term) (by omega)
    unfold appendEntries
    rw [if_neg (by omega)]
    simp only
    generalize (if args.term > nd.currentTerm ∨ nd.role = .candidate
      then nd.becomeFollower args.term else nd) = nd₁ at hj ⊢
    rw [hj.log, hprev, Option.bind_eq_bind, Option.bind_some]
    simp only [if_true]
    unfold spliceEntries
    by_cases hempty : args.entries.isEmpty
    · simp only [hempty, if_true, Option.bind_eq_bind, Option.bind_some, hb]
      exact ⟨_, rfl, rfl⟩
    · simp only [hempty, Bool.false_eq_true, if_false, hf', hb, Option.bind_eq_bind, Option.bind_some]
      obtain ⟨last, hlast⟩ : ∃ last, ((if args.prevLogIndex < back.index
          then nd.log.take (args.prevLogIndex + 1 - front'.index).toNat else nd.log) ++
          args.entries).getLast? = some last := by
        rw [List.getLast?_append_of_ne_nil _ (by simpa using hempty)]
        exact ⟨_, List.getLast?_eq_some_getLast (by simpa using hempty)⟩
      rw [hlast]
      refine ⟨_, rfl, ?_⟩
      simp only
      split
      case isTrue => rfl
      case isFalse hge => rw [List.take_of_length_le (by omega)]
  obtain ⟨out, hout, hlog'⟩ := hout
  refine ⟨out, nd.log.take (args.prevLogIndex + 1 - front'.index).toNat, hout, ?_, ?_, ?_, hlog'⟩
  · intro e he
    obtain ⟨q, hq⟩ := List.mem_iff_getElem?.mp he
    have hlt := (List.getElem?_eq_some_iff.mp hq).1
    rw [List.length_take] at hlt
    rw [List.getElem?_take_of_lt (by omega)] at hq
    have := hnum q e hq
    omega
  · rw [hbehind]
    have := hnum.drop (args.prevLogIndex + 1 - front'.index).toNat
    rwa [show front'.index + ((args.prevLogIndex + 1 - front'.index).toNat : ℤ) =
      args.prevLogIndex + 1 by omega] at this
  · rw [hbehind, List.take_append_drop]

/-- A follower loses entries to conflicts only exactly when the message reaches
to the end of the log, to a conflict, or carries nothing. -/
theorem appendEntries_removesConflicts_iff (nd : RaftNode n Command St)
    (args : AppendEntriesArgs Command) (hlog : Contiguous nd.log) (hterm : args.term = nd.currentTerm)
    (hprev : holds? nd.log args.prevLogIndex args.prevLogTerm = some true)
    (hentries : Numbered (args.prevLogIndex + 1) args.entries) :
    ∃ out, appendEntries nd args = some out ∧
      (RemovesConflicts nd.log out.node.log args.prevLogIndex args.entries ↔
        Repeats (behind nd.log args.prevLogIndex) args.entries) := by
  obtain ⟨out, pre, hout, hpre, htail, hsplit, hlog'⟩ := appendEntries_log hlog hterm hprev
  refine ⟨out, hout, ?_⟩
  rw [hlog']
  by_cases hempty : args.entries = []
  · rw [if_pos (by simp [hempty])]
    constructor
    · exact fun _ => Or.inl hempty
    · exact fun _ => ⟨fun _ => rfl, fun e he hgone => absurd he hgone⟩
  · rw [if_neg (by simpa using hempty)]
    generalize behind nd.log args.prevLogIndex = tail at htail hsplit ⊢
    rw [hsplit]
    constructor
    · exact repeats_of_removesConflicts hpre htail hentries
    · exact removesConflicts_of_repeats hpre htail hentries hempty

def follower : RaftNode 3 ListCommand ListStateMachine :=
  { RaftNode.create 1 with
    currentTerm := 1
    log := [⟨0, 0, ⟨0⟩⟩, ⟨1, 1, ⟨5⟩⟩, ⟨2, 1, ⟨6⟩⟩] }

def batch (entries : Log ListCommand) : AppendEntriesArgs ListCommand :=
  ⟨1, 0, 0, 0, entries, 0⟩

theorem follower_contiguous : Contiguous follower.log := by
  refine ⟨⟨0, 0, ⟨0⟩⟩, rfl, fun k e he => ?_⟩
  match k, he with
  | 0, he | 1, he | 2, he => cases he; rfl

theorem numbered_batch : Numbered 1 [(⟨1, 1, ⟨5⟩⟩ : RaftLogEntry ListCommand), ⟨2, 1, ⟨6⟩⟩] ∧
    Numbered 1 [(⟨1, 1, ⟨5⟩⟩ : RaftLogEntry ListCommand)] := by
  constructor
  · intro k e he
    match k, he with
    | 0, he | 1, he => cases he; rfl
  · intro k e he
    match k, he with
    | 0, he => cases he; rfl

theorem appendEntries_removesConflicts_repeated : ∃ out,
    appendEntries follower (batch [⟨1, 1, ⟨5⟩⟩, ⟨2, 1, ⟨6⟩⟩]) = some out ∧
      RemovesConflicts follower.log out.node.log 0 [⟨1, 1, ⟨5⟩⟩, ⟨2, 1, ⟨6⟩⟩] := by
  obtain ⟨out, hout, hiff⟩ := appendEntries_removesConflicts_iff follower
    (batch [⟨1, 1, ⟨5⟩⟩, ⟨2, 1, ⟨6⟩⟩]) follower_contiguous rfl rfl numbered_batch.1
  exact ⟨out, hout, hiff.mpr (Or.inr (Or.inl (List.prefix_refl _)))⟩

/-- The first message of the leader, delivered again, costs the follower its
second entry. -/
theorem not_removesConflicts_late : ¬ ∀ (nd : RaftNode 3 ListCommand ListStateMachine)
    (args : AppendEntriesArgs ListCommand) (out : Outcome 3 ListCommand ListStateMachine
      AppendEntriesReply), Contiguous nd.log → args.term = nd.currentTerm →
    holds? nd.log args.prevLogIndex args.prevLogTerm = some true →
    Numbered (args.prevLogIndex + 1) args.entries → appendEntries nd args = some out →
    RemovesConflicts nd.log out.node.log args.prevLogIndex args.entries := by
  intro hall
  have h := hall follower (batch [⟨1, 1, ⟨5⟩⟩]) _ follower_contiguous rfl rfl numbered_batch.2 rfl
  have hlog := h.unchanged fun x hx => ⟨x, by
    obtain rfl := List.mem_singleton.mp hx
    decide, rfl, rfl⟩
  exact absurd hlog (by decide)

end Chfs.Raft.Splicing
