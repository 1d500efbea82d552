import Chfs.Raft.FullLog
import Chfs.Raft.Handlers

namespace Chfs.Raft.Replication

open Protocol Node Handlers FullLog Lib.LeaderLog

variable {n : ℕ} {Command St : Type} {covered log held : Log Command}

def AppendFits (held : Log Command) (args : AppendEntriesArgs Command) : Prop :=
  ∃ prev : ℕ, args.prevLogIndex = prev ∧ prev ≤ held.length ∧
    args.prevLogTerm = entryTerm held prev ∧ args.entries <+: held.drop prev

def SnapshotFits (held : Log Command) (args : InstallSnapshotArgs) : Prop :=
  ∃ b : ℕ, args.lastIncludedIndex = b ∧ b ≤ held.length ∧ args.lastIncludedTerm = entryTerm held b

def MessageFits (held : Log Command) (t commitIndex : ℤ) (covers : ℕ) : Message Command → Prop
  | .append args => args.term = t ∧ args.leaderCommit = commitIndex ∧ AppendFits held args
  | .snapshot args => args.term = t ∧ args.lastIncludedIndex = covers ∧ SnapshotFits held args

theorem covered_le (covered log : Log Command) :
    covered.length ≤ (covered ++ log.tail).length := by
  rw [List.length_append]
  omega

section Messages

variable {nd : RaftNode n Command St} (h : LogRep covered nd.log) {i : Fin n} {m : Message Command}
include h

theorem commitMessage_fits (hm : commitMessage nd i = some (some m)) : i ≠ nd.myId ∧
    MessageFits (covered ++ nd.log.tail) nd.currentTerm nd.commitIndex covered.length m := by
  obtain ⟨front, hf, hm⟩ := Option.bind_eq_some_iff.mp hm
  obtain ⟨back, hb, hm⟩ := Option.bind_eq_some_iff.mp hm
  obtain ⟨hfi, hft⟩ := h.head hf
  obtain ⟨hbi, _⟩ := h.last hb
  split at hm
  case isTrue => cases hm
  case isFalse hne =>
    refine ⟨hne, ?_⟩
    split at hm
    case isTrue hle =>
      split at hm
      case isTrue hgt =>
        obtain ⟨prev, hp, hm⟩ := Option.bind_eq_some_iff.mp hm
        cases hm
        rw [hfi] at hp hgt
        obtain ⟨k, hk, h1, h2, _, h4, _⟩ := h.at? hp
        refine ⟨rfl, rfl, k, hk, h2, h4, ?_⟩
        obtain ⟨j, rfl⟩ : ∃ j, k = covered.length + j := ⟨k - covered.length, by omega⟩
        rw [hfi, show (nd.nextIndex i - (covered.length : ℤ)).toNat = j + 1 by push_cast at hk; omega,
          h.drop_succ]
        exact List.take_prefix _ _
      case isFalse =>
        cases hm
        exact ⟨rfl, hfi, covered.length, hfi, covered_le _ _, hft⟩
    case isFalse => cases hm

theorem pingMessage_fits (hm : pingMessage nd i = some (some m)) : i ≠ nd.myId ∧
    MessageFits (covered ++ nd.log.tail) nd.currentTerm nd.commitIndex covered.length m := by
  obtain ⟨front, hf, hm⟩ := Option.bind_eq_some_iff.mp hm
  obtain ⟨hfi, _⟩ := h.head hf
  split at hm
  case isTrue => cases hm
  case isFalse hne =>
    obtain ⟨prev, hp, hm⟩ := Option.bind_eq_some_iff.mp hm
    cases hm
    rw [hfi] at hp
    obtain ⟨k, hk, _, h2, _, h4, _⟩ := h.at? hp
    exact ⟨hne, rfl, rfl, k, by rw [hfi, hk], h2, h4, List.nil_prefix⟩

end Messages

/-- The follower's entries after the consistency check has succeeded: its old
ones, or the leader's up to the end of the message. -/
theorem spliceEntries_full {lead : Leads (RaftLogEntry Command)} (h : LogRep covered log)
    (hv : Valid RaftLogEntry.term lead (covered ++ log.tail))
    (hheld : Valid RaftLogEntry.term lead held) (hidx : Indexed held)
    {args : AppendEntriesArgs Command} (hfit : AppendFits held args)
    (hold : holds? log args.prevLogIndex args.prevLogTerm = some true) {log' : Log Command}
    {ops : List (StorageOp Command)}
    (hs : spliceEntries log args.prevLogIndex args.entries = some (log', ops)) :
    LogRep covered log' ∧ ∃ prev : ℕ, args.prevLogIndex = prev ∧ covered.length ≤ prev ∧
      prev + args.entries.length ≤ held.length ∧ prev ≤ (covered ++ log.tail).length ∧
      held.take prev <+: covered ++ log.tail ∧
      ((args.entries = [] ∧ log' = log) ∨
        args.entries ≠ [] ∧ covered ++ log'.tail = held.take (prev + args.entries.length)) := by
  obtain ⟨prev, hp, hpl, hpt, hent⟩ := hfit
  have hlen : prev + args.entries.length ≤ held.length := by
    have := hent.length_le
    rw [List.length_drop] at this
    omega
  obtain ⟨_, hb⟩ | ⟨m, hm, h1, h2, hb⟩ := h.holds hold
  · cases hb
  have hpm : m = prev := by omega
  subst hpm
  have htake : (covered ++ log.tail).take m = held.take m :=
    hv.take_eq_of_termAt hheld h2 hpl ((of_decide_eq_true hb.symm).symm.trans hpt)
  have hpre : held.take m <+: covered ++ log.tail := htake ▸ List.take_prefix _ _
  have hjoin : held.take m ++ args.entries = held.take (m + args.entries.length) := by
    rw [List.take_add, List.prefix_iff_eq_take.mp hent]
    simp
  obtain ⟨he, rfl⟩ | ⟨front, back, hf, hbk, hne, hlog⟩ := spliceEntries_cases hs
  · exact ⟨h, m, hp, h1, hlen, h2, hpre, Or.inl ⟨he, rfl⟩⟩
  · have hkept : (if args.prevLogIndex < back.index
        then log.take (args.prevLogIndex + 1 - front.index).toNat else log) =
          log.take (m + 1 - covered.length) := by
      rw [(h.head hf).1, (h.last hbk).1, hp]
      split
      case isTrue =>
        congr 1
        omega
      case isFalse hge =>
        have hll := h.length
        rw [List.take_of_length_le (by omega)]
    have hi : Indexed ((covered ++ log.tail).take m ++ args.entries) := by
      rw [htake, hjoin]
      exact hidx.restrict (List.take_prefix _ _)
    obtain ⟨hr, hfull⟩ := h.splice h1 h2 args.entries hi
    rw [hkept] at hlog
    rw [hlog]
    exact ⟨hr, m, hp, h1, hlen, h2, hpre, Or.inr ⟨hne, by rw [hfull, htake, hjoin]⟩⟩

/-- A snapshot either covers a part of the entries held, which all stay, or
replaces them. -/
theorem installSnapshot_full {lead : Leads (RaftLogEntry Command)} (h : LogRep covered log)
    (hv : Valid RaftLogEntry.term lead (covered ++ log.tail))
    (hheld : Valid RaftLogEntry.term lead held) (hidx : Indexed held) {index term : ℤ} {b : ℕ}
    (hb : index = b) (hbl : b ≤ held.length) (hbt : term = entryTerm held b) {hit : Bool}
    (hold : holds? log index term = some hit) {front : RaftLogEntry Command}
    (hf : log.head? = some front) {junk : Command} {log' : Log Command}
    (hlog : log' = if hit then log.drop (index - front.index).toNat else [⟨index, term, junk⟩]) :
    LogRep (held.take b) log' ∧ ((held.take b <+: covered ++ log.tail ∧
        held.take b ++ log'.tail = covered ++ log.tail) ∨
      (¬ held.take b <+: covered ++ log.tail ∧ held.take b ++ log'.tail = held.take b)) := by
  have hlb : (held.take b).length = b := by
    rw [List.length_take]
    omega
  have hmiss : hit = false → ¬ held.take b <+: covered ++ log.tail := by
    intro hhit hpre
    have hle := hpre.length_le
    obtain ⟨hlt, _⟩ | ⟨m, hm, _, _, hd⟩ := h.holds hold
    · omega
    · have hmb : m = b := by omega
      subst hmb
      have ht : entryTerm (covered ++ log.tail) m = entryTerm held m :=
        (termAt_restrict hpre (by omega)).symm.trans (termAt_restrict (List.take_prefix _ _) (by omega))
      rw [hhit, ht, hbt] at hd
      simp at hd
  cases hit with
  | false =>
    simp only [Bool.false_eq_true, if_false] at hlog
    subst hlog
    subst hb
    rw [hbt]
    exact ⟨logRep_singleton hbl hidx junk, Or.inr ⟨hmiss rfl, by simp⟩⟩
  | true =>
    obtain ⟨_, hd⟩ | ⟨m, hm, h1, h2, hd⟩ := h.holds hold
    · cases hd
    have hmb : m = b := by omega
    subst hmb
    have htake : (covered ++ log.tail).take m = held.take m :=
      hv.take_eq_of_termAt hheld h2 hbl ((of_decide_eq_true hd.symm).symm.trans hbt)
    obtain ⟨hr, hfull⟩ := h.drop h1 h2
    have hk : (index - front.index).toNat = m - covered.length := by
      rw [(h.head hf).1, hm]
      omega
    simp only [if_true, hk] at hlog
    subst hlog
    rw [htake] at hr hfull
    exact ⟨hr, Or.inl ⟨htake ▸ List.take_prefix _ _, hfull⟩⟩

theorem saveSnapshot_full [ChfsStateMachine Command St] {nd : RaftNode n Command St}
    (h : LogRep covered nd.log) {out : Outcome n Command St Bool} (hs : saveSnapshot nd = some out)
    {front : RaftLogEntry Command} (hf : out.node.log.head? = some front) :
    LogRep ((covered ++ nd.log.tail).take front.index.toNat) out.node.log ∧
      (covered ++ nd.log.tail).take front.index.toNat ++ out.node.log.tail =
        covered ++ nd.log.tail := by
  obtain ⟨fr, back, lastLog, log, hfr, hb, hcase, hout⟩ := saveSnapshot_cases hs
  obtain ⟨_, hat, hlog⟩ | ⟨_, hlast, hlog⟩ := hcase
  · rw [(h.head hfr).1] at hat
    obtain ⟨m, hm, h1, h2, _⟩ := h.at? hat
    have hk : (nd.lastApplied - fr.index).toNat = m - covered.length := by
      rw [(h.head hfr).1, hm]
      omega
    obtain ⟨hr, hfull⟩ := h.drop h1 h2
    rw [hk] at hlog
    have hne : log.isEmpty = false := by
      rw [hlog, List.isEmpty_eq_false_iff, Ne, List.drop_eq_nil_iff]
      have := h.length
      omega
    have hnew : out.node.log = nd.log.drop (m - covered.length) := by
      rw [hout, hne]
      simpa using hlog
    have hfi : front.index.toNat = m := by
      have hlm : ((covered ++ nd.log.tail).take m).length = m := by
        rw [List.length_take]
        omega
      have := (hr.head (hnew ▸ hf)).1
      omega
    rw [hnew, hfi]
    exact ⟨hr, hfull⟩
  · subst hlog
    have hnew : out.node.log = [back] := by rw [hout, ← hlast]; rfl
    rw [hnew] at hf ⊢
    simp only [List.head?_cons, Option.some.injEq] at hf
    subst hf
    obtain ⟨hi, ht⟩ := h.last hb
    rw [hi, Int.toNat_natCast, List.take_length]
    refine ⟨⟨⟨back, [], rfl, hi, ht⟩, by simpa using h.indexed⟩, by simp⟩

end Chfs.Raft.Replication
