import Chfs.Raft.Node

namespace Chfs.Raft.Handlers

open Protocol Node

variable {n : ℕ} {Command St : Type} {nd nd' : RaftNode n Command St}

/-- A node meets a message of term `t`, not earlier than its own. -/
inductive Joins (nd : RaftNode n Command St) (t : ℤ) : RaftNode n Command St → Prop
  | stay : nd.currentTerm = t → Joins nd t nd
  | later : nd.currentTerm < t → Joins nd t (nd.becomeFollower t)
  | yield : nd.currentTerm = t → nd.role = .candidate → Joins nd t (nd.becomeFollower t)

section Joins

variable {t : ℤ} (h : Joins nd t nd')
include h

theorem Joins.myId : nd'.myId = nd.myId := by cases h <;> rfl

theorem Joins.log : nd'.log = nd.log := by cases h <;> rfl

theorem Joins.snapshot : nd'.snapshot = nd.snapshot := by cases h <;> rfl

theorem Joins.commitIndex : nd'.commitIndex = nd.commitIndex := by cases h <;> rfl

theorem Joins.lastApplied : nd'.lastApplied = nd.lastApplied := by cases h <;> rfl

theorem Joins.term : nd'.currentTerm = t := by
  cases h with
  | stay ht => exact ht
  | later | yield => rfl

theorem Joins.term_le : nd.currentTerm ≤ t := by
  cases h with
  | stay ht | yield ht => exact ht.le
  | later ht => exact ht.le

theorem Joins.eq_of_role (hr : nd'.role ≠ .follower) : nd' = nd ∧ nd.currentTerm = t := by
  cases h with
  | stay ht => exact ⟨rfl, ht⟩
  | later | yield => exact absurd rfl hr

end Joins

theorem joins_ite (nd : RaftNode n Command St) {t : ℤ} (ht : nd.currentTerm ≤ t) :
    Joins nd t (if t > nd.currentTerm then nd.becomeFollower t else nd) := by
  by_cases hlt : t > nd.currentTerm
  · rw [if_pos hlt]
    exact .later hlt
  · rw [if_neg hlt]
    exact .stay (by omega)

theorem joins_ite_candidate (nd : RaftNode n Command St) {t : ℤ} (ht : nd.currentTerm ≤ t) :
    Joins nd t (if t > nd.currentTerm ∨ nd.role = .candidate then nd.becomeFollower t else nd) := by
  by_cases hlt : t > nd.currentTerm
  · rw [if_pos (Or.inl hlt)]
    exact .later hlt
  · by_cases hr : nd.role = .candidate
    · rw [if_pos (Or.inr hr)]
      exact .yield (by omega) hr
    · rw [if_neg (by simp [hlt, hr])]
      exact .stay (by omega)

theorem newCommand_cases {cmd : Command} {out : Outcome n Command St (ℤ × ℤ)}
    (h : newCommand nd cmd = some out) :
    ∃ back, nd.log.getLast? = some back ∧ out.node = { nd with
      log := nd.log ++ [⟨back.index + 1, nd.currentTerm, cmd⟩]
      nextIndex := Function.update nd.nextIndex nd.myId (back.index + 1 + 1)
      matchIndex := Function.update nd.matchIndex nd.myId (back.index + 1)
      matchCount := nd.matchCount ++ [1] } := by
  obtain ⟨back, hb, h⟩ := Option.bind_eq_some_iff.mp h
  obtain ⟨k, hk, h⟩ := Option.bind_eq_some_iff.mp h
  unfold succInt? at hk
  split at hk
  case isTrue =>
    cases hk
    cases h
    exact ⟨back, hb, rfl⟩
  case isFalse => cases hk

theorem saveSnapshot_cases [ChfsStateMachine Command St] {out : Outcome n Command St Bool}
    (h : saveSnapshot nd = some out) : ∃ front back lastLog log, nd.log.head? = some front ∧
      nd.log.getLast? = some back ∧
      ((nd.lastApplied ≤ back.index ∧ at? nd.log (nd.lastApplied - front.index) = some lastLog ∧
          log = nd.log.drop (nd.lastApplied - front.index).toNat) ∨
        (back.index < nd.lastApplied ∧ lastLog = back ∧ log = [])) ∧
      out.node = { nd with
        snapshot := ChfsStateMachine.snapshot nd.state
        log := if log.isEmpty then [lastLog] else log } := by
  obtain ⟨front, hf, h⟩ := Option.bind_eq_some_iff.mp h
  obtain ⟨back, hb, h⟩ := Option.bind_eq_some_iff.mp h
  simp only at h
  split at h
  case isTrue hle =>
    obtain ⟨⟨lastLog, log⟩, hl, h⟩ := Option.bind_eq_some_iff.mp h
    obtain ⟨e, he, heq⟩ := Option.map_eq_some_iff.mp hl
    cases heq
    cases h
    exact ⟨front, back, lastLog, _, hf, hb, Or.inl ⟨hle, he, rfl⟩, rfl⟩
  case isFalse hle =>
    obtain ⟨⟨lastLog, log⟩, hl, h⟩ := Option.bind_eq_some_iff.mp h
    cases hl
    cases h
    exact ⟨front, back, back, [], hf, hb, Or.inr ⟨by omega, rfl, rfl⟩, rfl⟩

theorem requestVote_cases {args : RequestVoteArgs} {out : Outcome n Command St RequestVoteReply}
    (h : requestVote nd args = some out) : (out.node = nd ∧ out.reply.voteGranted = false) ∨
      ∃ nd₁ back, Joins nd args.term nd₁ ∧ (nd.currentTerm = args.term → nd₁ = nd) ∧
        nd.log.getLast? = some back ∧ ((out.node = nd₁ ∧ out.reply.voteGranted = false) ∨
        ((nd₁.votedFor = -1 ∨ nd₁.votedFor = args.candidateId) ∧
          (args.lastLogTerm > back.term ∨
            args.lastLogTerm = back.term ∧ args.lastLogIndex ≥ back.index) ∧
          out.node = { nd₁ with votedFor := args.candidateId } ∧
          out.reply.voteGranted = true)) := by
  unfold requestVote at h
  split at h
  case isTrue =>
    cases h
    exact Or.inl ⟨rfl, rfl⟩
  case isFalse hle =>
    have hj := joins_ite nd (t := args.term) (by omega)
    have hstay : nd.currentTerm = args.term →
        (if args.term > nd.currentTerm then nd.becomeFollower args.term else nd) = nd := by
      intro heq
      rw [if_neg (by omega)]
    generalize (if args.term > nd.currentTerm then nd.becomeFollower args.term else nd) = nd₁
      at h hj hstay
    obtain ⟨back, hb, h⟩ := Option.bind_eq_some_iff.mp h
    refine Or.inr ⟨nd₁, back, hj, hstay, by rw [← hj.log, hb], ?_⟩
    split at h
    case isTrue hc =>
      cases h
      exact Or.inr ⟨hc.1, hc.2, rfl, rfl⟩
    case isFalse =>
      cases h
      exact Or.inl ⟨rfl, rfl⟩

theorem becomeLeader_cases (h : becomeLeader nd = some nd') :
    ∃ back, nd.log.getLast? = some back ∧ nd' = { nd with
      role := .leader
      leaderId := (nd.myId : ℕ)
      nextIndex := fun _ => back.index + 1
      matchIndex := Function.update (fun _ => 0) nd.myId back.index
      matchCount := if back.index - nd.commitIndex < 0 then nd.matchCount
        else List.replicate (back.index - nd.commitIndex).toNat 0 } := by
  obtain ⟨back, hb, h⟩ := Option.bind_eq_some_iff.mp h
  cases h
  exact ⟨back, hb, rfl⟩

theorem handleRequestVoteReply_cases {target : Fin n} {arg : RequestVoteArgs}
    {reply : RequestVoteReply} {out : Outcome n Command St Unit}
    (h : handleRequestVoteReply nd target arg reply = some out) :
    (nd.currentTerm < reply.term ∧ out.node = nd.becomeFollower reply.term) ∨
    out.node = nd ∨
    (reply.term ≤ nd.currentTerm ∧ nd.role = .candidate ∧ reply.voteGranted = true ∧
      nd.votesFrom target = false ∧ ∃ nd₁, nd₁ = { nd with
        votesGot := nd.votesGot + 1
        votesFrom := Function.update nd.votesFrom target true } ∧
      ((nd.votesGot + 1 ≤ n / 2 ∧ out.node = nd₁) ∨
        (n / 2 < nd.votesGot + 1 ∧ becomeLeader nd₁ = some out.node))) := by
  unfold handleRequestVoteReply at h
  by_cases hlt : reply.term > nd.currentTerm
  · simp only [hlt, if_true] at h
    simp only [RaftNode.becomeFollower, reduceCtorEq, false_and, if_false, Option.some.injEq] at h
    subst h
    exact Or.inl ⟨hlt, rfl⟩
  · simp only [hlt, if_false] at h
    split at h
    case isTrue hc =>
      obtain ⟨hr, hg, hf⟩ := hc
      refine Or.inr (Or.inr ⟨by omega, hr, hg, by simpa using hf, _, rfl, ?_⟩)
      split at h
      case isTrue hgt =>
        obtain ⟨nd₂, h2, h⟩ := Option.bind_eq_some_iff.mp h
        cases h
        exact Or.inr ⟨hgt, h2⟩
      case isFalse hgt =>
        cases h
        exact Or.inl ⟨by omega, rfl⟩
    case isFalse =>
      cases h
      exact Or.inr (Or.inl rfl)

theorem appendEntries_cases {args : AppendEntriesArgs Command}
    {out : Outcome n Command St AppendEntriesReply} (h : appendEntries nd args = some out) :
    (args.term < nd.currentTerm ∧ out.node = nd ∧ out.reply.success = false) ∨
    ∃ nd₁, Joins nd args.term nd₁ ∧
      ((holds? nd.log args.prevLogIndex args.prevLogTerm = some false ∧ out.node = nd₁ ∧
          out.reply.success = false) ∨
        (holds? nd.log args.prevLogIndex args.prevLogTerm = some true ∧ ∃ log ops back,
          spliceEntries nd.log args.prevLogIndex args.entries = some (log, ops) ∧
          log.getLast? = some back ∧ out.node = { nd₁ with
            log := log
            commitIndex := if args.leaderCommit > nd.commitIndex
              then min args.leaderCommit back.index else nd.commitIndex })) := by
  unfold appendEntries at h
  split at h
  case isTrue hlt =>
    cases h
    exact Or.inl ⟨hlt, rfl, rfl⟩
  case isFalse hle =>
    have hj := joins_ite_candidate nd (t := args.term) (by omega)
    refine Or.inr ⟨_, hj, ?_⟩
    obtain ⟨b, hb, h⟩ := Option.bind_eq_some_iff.mp h
    rw [hj.log] at hb
    cases b with
    | false =>
      cases h
      exact Or.inl ⟨hb, rfl, rfl⟩
    | true =>
      simp only [if_true] at h
      obtain ⟨⟨log, ops⟩, hs, h⟩ := Option.bind_eq_some_iff.mp h
      obtain ⟨back, hback, h⟩ := Option.bind_eq_some_iff.mp h
      rw [hj.log] at hs
      rw [hj.commitIndex] at h
      cases h
      exact Or.inr ⟨hb, log, ops, back, hs, hback, rfl⟩

theorem spliceEntries_cases {log log' entries : List (RaftLogEntry Command)} {prevLogIndex : ℤ}
    {ops : List (StorageOp Command)} (h : spliceEntries log prevLogIndex entries = some (log', ops)) :
    (entries = [] ∧ log' = log) ∨ ∃ front back, log.head? = some front ∧
      log.getLast? = some back ∧ entries ≠ [] ∧
      log' = (if prevLogIndex < back.index then log.take (prevLogIndex + 1 - front.index).toNat
        else log) ++ entries := by
  unfold spliceEntries at h
  split at h
  case isTrue he =>
    cases h
    exact Or.inl ⟨by simpa using he, rfl⟩
  case isFalse he =>
    obtain ⟨front, hf, h⟩ := Option.bind_eq_some_iff.mp h
    obtain ⟨back, hb, h⟩ := Option.bind_eq_some_iff.mp h
    cases h
    exact Or.inr ⟨front, back, hf, hb, by simpa using he, rfl⟩

theorem handleAppendEntriesReply_cases {nodeId : Fin n} {arg : AppendEntriesArgs Command}
    {reply : AppendEntriesReply} {out : Outcome n Command St Unit}
    (h : handleAppendEntriesReply nd nodeId arg reply = some out) :
    (nd.currentTerm < reply.term ∧ out.node = nd.becomeFollower arg.term) ∨
    (reply.term ≤ nd.currentTerm ∧ nd.role = .leader ∧ reply.success = true ∧ ∃ matched tmp
        commitIndex matchCount, matched = max (nd.matchIndex nodeId) (arg.prevLogIndex + arg.entries.length) ∧
        tmp = max (nd.matchIndex nodeId - nd.commitIndex) 0 - 1 ∧
        countMatches nd tmp (matched - nd.commitIndex - 1 - tmp).toNat nd.matchCount =
          some (commitIndex, matchCount) ∧ out.node = { nd with
            matchIndex := Function.update nd.matchIndex nodeId matched
            nextIndex := Function.update nd.nextIndex nodeId (matched + 1)
            commitIndex := commitIndex
            matchCount := matchCount }) ∨
    ∃ next, out.node = { nd with nextIndex := next } := by
  unfold handleAppendEntriesReply at h
  split at h
  case isTrue hlt =>
    cases h
    exact Or.inl ⟨hlt, rfl⟩
  case isFalse hle =>
    split at h
    case isTrue hr =>
      split at h
      case isTrue hs =>
        obtain ⟨⟨k, cs⟩, hc, h⟩ := Option.bind_eq_some_iff.mp h
        cases h
        exact Or.inr (Or.inl ⟨by omega, hr, hs, _, _, k, cs, rfl, rfl, hc, rfl⟩)
      case isFalse =>
        cases h
        exact Or.inr (Or.inr ⟨_, rfl⟩)
    case isFalse =>
      cases h
      exact Or.inr (Or.inr ⟨nd.nextIndex, rfl⟩)

theorem installSnapshot_cases [ChfsStateMachine Command St] {arg : InstallSnapshotArgs}
    {junk : Command} {out : Outcome n Command St InstallSnapshotReply}
    (h : installSnapshot nd arg junk = some out) :
    (arg.term < nd.currentTerm ∧ out.node = nd) ∨
    ∃ nd₁ front hit, Joins nd arg.term nd₁ ∧ nd.log.head? = some front ∧
      holds? nd.log arg.lastIncludedIndex arg.lastIncludedTerm = some hit ∧ out.node = { nd₁ with
        log := if hit then nd.log.drop (arg.lastIncludedIndex - front.index).toNat
          else [⟨arg.lastIncludedIndex, arg.lastIncludedTerm, junk⟩]
        snapshot := arg.snapshot
        state := ChfsStateMachine.applySnapshot nd₁.state arg.snapshot
        lastApplied := arg.lastIncludedIndex
        commitIndex := max nd.commitIndex arg.lastIncludedIndex } := by
  unfold installSnapshot at h
  split at h
  case isTrue hlt =>
    cases h
    exact Or.inl ⟨hlt, rfl⟩
  case isFalse hle =>
    have hj := joins_ite_candidate nd (t := arg.term) (by omega)
    obtain ⟨front, hf, h⟩ := Option.bind_eq_some_iff.mp h
    obtain ⟨hit, hh, h⟩ := Option.bind_eq_some_iff.mp h
    rw [hj.log] at hf hh
    rw [hj.log, hj.commitIndex] at h
    cases h
    exact Or.inr ⟨_, front, hit, hj, hf, hh, rfl⟩

theorem handleInstallSnapshotReply_cases (nd : RaftNode n Command St) (nodeId : Fin n)
    (arg : InstallSnapshotArgs) (reply : InstallSnapshotReply) :
    (nd.currentTerm < reply.term ∧
      (handleInstallSnapshotReply nd nodeId arg reply).node = nd.becomeFollower reply.term) ∨
    (handleInstallSnapshotReply nd nodeId arg reply).node = nd ∨
    ∃ next, (handleInstallSnapshotReply nd nodeId arg reply).node = { nd with
      matchIndex := Function.update nd.matchIndex nodeId
        (max (nd.matchIndex nodeId) arg.lastIncludedIndex)
      nextIndex := next } := by
  unfold handleInstallSnapshotReply
  split
  case isTrue hlt => exact Or.inl ⟨hlt, rfl⟩
  case isFalse =>
    split
    case isTrue => exact Or.inr (Or.inl rfl)
    case isFalse => exact Or.inr (Or.inr ⟨_, rfl⟩)

theorem runBackgroundElection_cases {out : Outcome n Command St (Option RequestVoteArgs)}
    (h : runBackgroundElection nd = some out) : (nd.role = .leader ∧ out.node = nd ∧ out.reply = none) ∨
      ∃ back, nd.log.getLast? = some back ∧ out.node = { nd with
          role := .candidate
          currentTerm := nd.currentTerm + 1
          votedFor := (nd.myId : ℕ)
          votesGot := 1
          votesFrom := Function.update (fun _ => false) nd.myId true
          leaderId := -1 } ∧
        out.reply = some ⟨nd.currentTerm + 1, (nd.myId : ℕ), back.index, back.term⟩ := by
  unfold runBackgroundElection at h
  split at h
  case isTrue hr =>
    cases h
    exact Or.inl ⟨hr, rfl, rfl⟩
  case isFalse =>
    obtain ⟨t, ht, h⟩ := Option.bind_eq_some_iff.mp h
    obtain ⟨back, hb, h⟩ := Option.bind_eq_some_iff.mp h
    unfold succInt? at ht
    split at ht
    case isTrue =>
      cases ht
      cases h
      exact Or.inr ⟨back, hb, rfl, rfl⟩
    case isFalse => cases ht

theorem mem_broadcast {msg : Fin n → Option (Option (Message Command))} {is : List (Fin n)}
    {ms : List (Fin n × Message Command)} (h : broadcast msg is = some ms)
    {m : Fin n × Message Command} (hm : m ∈ ms) : msg m.1 = some (some m.2) := by
  induction is generalizing ms with
  | nil =>
    cases h
    cases hm
  | cons i is ih =>
    obtain ⟨r, hr, h⟩ := Option.bind_eq_some_iff.mp h
    obtain ⟨rest, hrest, h⟩ := Option.bind_eq_some_iff.mp h
    cases h
    obtain hm | hm := List.mem_append.mp hm
    · obtain ⟨x, hx, rfl⟩ := List.mem_map.mp hm
      rw [hr, Option.mem_toList.mp hx]
    · exact ih hrest hm

theorem runBackgroundApply_cases [ChfsStateMachine Command St]
    {out : RaftNode n Command St × List (RaftLogEntry Command)}
    (h : runBackgroundApply nd = some out) : out = (nd, []) ∨ ∃ front back,
      nd.log.head? = some front ∧ nd.log.getLast? = some back ∧ nd.lastApplied < nd.commitIndex ∧
      front.index ≤ nd.lastApplied + 1 ∧ nd.commitIndex ≤ back.index ∧
      out.2 = (nd.log.drop (nd.lastApplied + 1 - front.index).toNat).take
        (nd.commitIndex - nd.lastApplied).toNat ∧
      ∃ state, out.1 = { nd with state := state, lastApplied := nd.commitIndex } := by
  obtain ⟨front, hf, h⟩ := Option.bind_eq_some_iff.mp h
  obtain ⟨back, hb, h⟩ := Option.bind_eq_some_iff.mp h
  split at h
  case isTrue hlt =>
    split at h
    case isTrue hc =>
      cases h
      exact Or.inr ⟨front, back, hf, hb, hlt, hc.1, hc.2, rfl, _, rfl⟩
    case isFalse => cases h
  case isFalse =>
    cases h
    exact Or.inl rfl

end Chfs.Raft.Handlers
