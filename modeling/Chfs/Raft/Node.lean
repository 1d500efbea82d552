import Chfs.Raft.Protocol

/-! `RaftNode` (`rsm/raft/node.h`): every locked handler body and every
iteration of a background loop as a function on the fields of the node. A
result of `none` is undefined behaviour of the C++ code: a subscript outside a
vector or an `int` overflow. -/

namespace Chfs.Raft.Node

open Protocol

instance neZero_three : NeZero 3 := ⟨by decide⟩

inductive RaftRole
  | follower
  | candidate
  | leader
  deriving DecidableEq, Repr

inductive StorageOp (Command : Type)
  | updateMeta (currentTerm votedFor : ℤ)
  | updateSnapshot (snapshot : List UInt8)
  | updateLogs (log : List (RaftLogEntry Command))
  | updateLogsWithRange (log : List (RaftLogEntry Command)) (startIndex endIndex : ℤ)

/-- The fields of `RaftNode` in a cluster of `n` nodes. Vectors with one slot
per node are functions; clocks, locks and RPC clients are left out. -/
structure RaftNode (n : ℕ) (Command St : Type) where
  myId : Fin n
  role : RaftRole
  currentTerm : ℤ
  leaderId : ℤ
  votedFor : ℤ
  commitIndex : ℤ
  lastApplied : ℤ
  votesGot : ℕ
  votesFrom : Fin n → Bool
  nextIndex : Fin n → ℤ
  matchIndex : Fin n → ℤ
  matchCount : List ℕ
  log : List (RaftLogEntry Command)
  snapshot : List UInt8
  state : St

structure Outcome (n : ℕ) (Command St Reply : Type) where
  node : RaftNode n Command St
  reply : Reply
  stored : List (StorageOp Command)

def at? {α : Type} (v : List α) (i : ℤ) : Option α := if 0 ≤ i then v[i.toNat]? else none

def succInt? (x : ℤ) : Option ℤ := if x < 2147483647 then some (x + 1) else none

variable {n : ℕ} {Command St : Type}

def RaftNode.becomeFollower (nd : RaftNode n Command St) (t : ℤ) : RaftNode n Command St :=
  { nd with role := .follower, currentTerm := t, leaderId := -1, votedFor := -1 }

section Constructor

variable [ChfsCommand Command] [ChfsStateMachine Command St]

/-- The constructor after `restore()`: the persistent fields are given, the
others get their start values. -/
def RaftNode.recover (id : Fin n) (currentTerm votedFor : ℤ) (log : List (RaftLogEntry Command))
    (snapshot : List UInt8) : Option (RaftNode n Command St) := do
  let front ← log.head?
  some
    { myId := id, role := .follower, currentTerm := currentTerm, leaderId := -1
      votedFor := votedFor, commitIndex := front.index, lastApplied := front.index
      votesGot := 0, votesFrom := fun _ => false, nextIndex := fun _ => 1
      matchIndex := fun _ => 0, matchCount := [], log := log, snapshot := snapshot
      state := if snapshot.isEmpty then ChfsStateMachine.create
        else ChfsStateMachine.applySnapshot ChfsStateMachine.create snapshot }

def RaftNode.create (id : Fin n) : RaftNode n Command St :=
  { myId := id, role := .follower, currentTerm := 0, leaderId := -1, votedFor := -1
    commitIndex := 0, lastApplied := 0, votesGot := 0, votesFrom := fun _ => false
    nextIndex := fun _ => 1, matchIndex := fun _ => 0, matchCount := []
    log := [⟨0, 0, ChfsCommand.ofInt 0⟩], snapshot := [], state := ChfsStateMachine.create }

end Constructor

/-- The locked part of `new_command`; the role was tested before, without the
lock. -/
def newCommand (nd : RaftNode n Command St) (cmd : Command) :
    Option (Outcome n Command St (ℤ × ℤ)) := do
  let back ← nd.log.getLast?
  let nxtIndex ← succInt? back.index
  let log := nd.log ++ [⟨nxtIndex, nd.currentTerm, cmd⟩]
  some
    { node := { nd with
        log := log
        nextIndex := Function.update nd.nextIndex nd.myId (nxtIndex + 1)
        matchIndex := Function.update nd.matchIndex nd.myId nxtIndex
        matchCount := nd.matchCount ++ [1] }
      reply := (nd.currentTerm, nxtIndex)
      stored := [.updateLogsWithRange log (log.length - 1) log.length] }

def saveSnapshot [ChfsStateMachine Command St] (nd : RaftNode n Command St) :
    Option (Outcome n Command St Bool) := do
  let snapshot := ChfsStateMachine.snapshot nd.state
  let front ← nd.log.head?
  let back ← nd.log.getLast?
  let (lastLog, log) ←
    if nd.lastApplied ≤ back.index then
      (at? nd.log (nd.lastApplied - front.index)).map fun lastLog =>
        (lastLog, nd.log.drop (nd.lastApplied - front.index).toNat)
    else some (back, [])
  let log := if log.isEmpty then [lastLog] else log
  some ⟨{ nd with snapshot := snapshot, log := log }, true, [.updateSnapshot snapshot, .updateLogs log]⟩

def requestVote (nd : RaftNode n Command St) (args : RequestVoteArgs) :
    Option (Outcome n Command St RequestVoteReply) :=
  if args.term < nd.currentTerm then
    some ⟨nd, ⟨nd.currentTerm, false⟩, [.updateMeta nd.currentTerm nd.votedFor]⟩
  else do
    let nd := if args.term > nd.currentTerm then nd.becomeFollower args.term else nd
    let back ← nd.log.getLast?
    if (nd.votedFor = -1 ∨ nd.votedFor = args.candidateId) ∧
        (args.lastLogTerm > back.term ∨
          args.lastLogTerm = back.term ∧ args.lastLogIndex ≥ back.index) then
      some ⟨{ nd with votedFor := args.candidateId }, ⟨nd.currentTerm, true⟩,
        [.updateMeta nd.currentTerm args.candidateId]⟩
    else
      some ⟨nd, ⟨nd.currentTerm, false⟩, [.updateMeta nd.currentTerm nd.votedFor]⟩

/-- The end of `handle_request_vote_reply` for a candidate with enough votes.
A negative length makes `matchCount.assign` throw inside the task of the reply,
after everything else has been set. -/
def becomeLeader (nd : RaftNode n Command St) : Option (RaftNode n Command St) := do
  let back ← nd.log.getLast?
  some { nd with
    role := .leader
    leaderId := (nd.myId : ℕ)
    nextIndex := fun _ => back.index + 1
    matchIndex := Function.update (fun _ => 0) nd.myId back.index
    matchCount := if back.index - nd.commitIndex < 0 then nd.matchCount
      else List.replicate (back.index - nd.commitIndex).toNat 0 }

/-- `handle_request_vote_reply`. The term of the request is not looked at. -/
def handleRequestVoteReply (nd : RaftNode n Command St) (target : Fin n) (_arg : RequestVoteArgs)
    (reply : RequestVoteReply) : Option (Outcome n Command St Unit) := do
  let later := reply.term > nd.currentTerm
  let stored := if later then [.updateMeta reply.term (-1)] else []
  let nd := if later then nd.becomeFollower reply.term else nd
  if nd.role = .candidate ∧ reply.voteGranted ∧ !nd.votesFrom target then
    let nd := { nd with
      votesGot := nd.votesGot + 1
      votesFrom := Function.update nd.votesFrom target true }
    let nd ← if nd.votesGot > n / 2 then becomeLeader nd else some nd
    some ⟨nd, (), stored⟩
  else some ⟨nd, (), stored⟩

/-- `args.prevLogIndex <= log.back().index && args.prevLogTerm ==
log[args.prevLogIndex - log.front().index].term`, which `install_snapshot` asks
about its last included entry. -/
def holds? (log : List (RaftLogEntry Command)) (index term : ℤ) : Option Bool := do
  let front ← log.head?
  let back ← log.getLast?
  if index ≤ back.index then (at? log (index - front.index)).map fun e => decide (term = e.term)
  else some false

def spliceEntries (log : List (RaftLogEntry Command)) (prevLogIndex : ℤ)
    (entries : List (RaftLogEntry Command)) :
    Option (List (RaftLogEntry Command) × List (StorageOp Command)) := do
  if entries.isEmpty then some (log, []) else
    let front ← log.head?
    let back ← log.getLast?
    let kept := if prevLogIndex < back.index then log.take (prevLogIndex + 1 - front.index).toNat
      else log
    let log := kept ++ entries
    some (log, [.updateLogsWithRange log kept.length log.length])

def appendEntries (nd : RaftNode n Command St) (args : AppendEntriesArgs Command) :
    Option (Outcome n Command St AppendEntriesReply) :=
  if args.term < nd.currentTerm then some ⟨nd, ⟨nd.currentTerm, false⟩, []⟩
  else do
    let down := args.term > nd.currentTerm ∨ nd.role = .candidate
    let stored := if down then [.updateMeta args.term (-1)] else []
    let nd := if down then nd.becomeFollower args.term else nd
    if ← holds? nd.log args.prevLogIndex args.prevLogTerm then
      let (log, ops) ← spliceEntries nd.log args.prevLogIndex args.entries
      let back ← log.getLast?
      let commitIndex := if args.leaderCommit > nd.commitIndex then min args.leaderCommit back.index
        else nd.commitIndex
      some ⟨{ nd with log := log, commitIndex := commitIndex }, ⟨nd.currentTerm, true⟩, stored ++ ops⟩
    else some ⟨nd, ⟨nd.currentTerm, false⟩, stored⟩

def countMatches (nd : RaftNode n Command St) (tmp : ℤ) : ℕ → List ℕ → Option (ℤ × List ℕ)
  | 0, counts => some (nd.commitIndex, counts)
  | k + 1, counts => do
    let i := tmp + (k + 1)
    let c ← at? counts i
    let counts := counts.set i.toNat (c + 1)
    if c + 1 > n / 2 then
      let front ← nd.log.head?
      let e ← at? nd.log (nd.commitIndex + i + 1 - front.index)
      if e.term = nd.currentTerm then some (nd.commitIndex + (i + 1), counts.drop (i + 1).toNat)
      else countMatches nd tmp k counts
    else countMatches nd tmp k counts

/-- `handle_append_entries_reply`. A reply of a later term makes the node
return to the term of its own request. -/
def handleAppendEntriesReply (nd : RaftNode n Command St) (nodeId : Fin n)
    (arg : AppendEntriesArgs Command) (reply : AppendEntriesReply) :
    Option (Outcome n Command St Unit) :=
  if reply.term > nd.currentTerm then
    some ⟨nd.becomeFollower arg.term, (), [.updateMeta arg.term (-1)]⟩
  else if nd.role = .leader then
    if reply.success then do
      let matched := max (nd.matchIndex nodeId) (arg.prevLogIndex + arg.entries.length)
      let tmp := max (nd.matchIndex nodeId - nd.commitIndex) 0 - 1
      let (commitIndex, matchCount) ← countMatches nd tmp
        (matched - nd.commitIndex - 1 - tmp).toNat nd.matchCount
      some
        ⟨{ nd with
            matchIndex := Function.update nd.matchIndex nodeId matched
            nextIndex := Function.update nd.nextIndex nodeId (matched + 1)
            commitIndex := commitIndex
            matchCount := matchCount }, (), []⟩
    else
      let next := min (nd.nextIndex nodeId) arg.prevLogIndex
      some ⟨{ nd with nextIndex := Function.update nd.nextIndex nodeId next }, (), []⟩
  else some ⟨nd, (), []⟩

/-- `install_snapshot`. The entry that stands for the snapshot has a default
constructed command, whose value `junk` is indeterminate. -/
def installSnapshot [ChfsStateMachine Command St] (nd : RaftNode n Command St)
    (arg : InstallSnapshotArgs) (junk : Command) : Option (Outcome n Command St InstallSnapshotReply) :=
  if arg.term < nd.currentTerm then some ⟨nd, ⟨nd.currentTerm⟩, []⟩
  else do
    let reply : InstallSnapshotReply := ⟨nd.currentTerm⟩
    let down := arg.term > nd.currentTerm ∨ nd.role = .candidate
    let stored := if down then [.updateMeta arg.term (-1)] else []
    let nd := if down then nd.becomeFollower arg.term else nd
    let front ← nd.log.head?
    let hit ← holds? nd.log arg.lastIncludedIndex arg.lastIncludedTerm
    let log := if hit then nd.log.drop (arg.lastIncludedIndex - front.index).toNat
      else [⟨arg.lastIncludedIndex, arg.lastIncludedTerm, junk⟩]
    some
      ⟨{ nd with
          log := log
          snapshot := arg.snapshot
          state := ChfsStateMachine.applySnapshot nd.state arg.snapshot
          lastApplied := arg.lastIncludedIndex
          commitIndex := max nd.commitIndex arg.lastIncludedIndex },
        reply, stored ++ [.updateLogs log, .updateSnapshot arg.snapshot]⟩

def handleInstallSnapshotReply (nd : RaftNode n Command St) (nodeId : Fin n)
    (arg : InstallSnapshotArgs) (reply : InstallSnapshotReply) : Outcome n Command St Unit :=
  if reply.term > nd.currentTerm then
    ⟨nd.becomeFollower reply.term, (), [.updateMeta reply.term (-1)]⟩
  else if nd.role ≠ .leader then ⟨nd, (), []⟩
  else
    let matched := max (nd.matchIndex nodeId) arg.lastIncludedIndex
    ⟨{ nd with
        matchIndex := Function.update nd.matchIndex nodeId matched
        nextIndex := Function.update nd.nextIndex nodeId (matched + 1) }, (), []⟩

/-- One iteration of `run_background_election` whose timer has expired: the
new state and the vote request sent to every other node. -/
def runBackgroundElection (nd : RaftNode n Command St) :
    Option (Outcome n Command St (Option RequestVoteArgs)) :=
  if nd.role = .leader then some ⟨nd, none, []⟩
  else do
    let currentTerm ← succInt? nd.currentTerm
    let back ← nd.log.getLast?
    some
      ⟨{ nd with
          role := .candidate
          currentTerm := currentTerm
          votedFor := (nd.myId : ℕ)
          votesGot := 1
          votesFrom := Function.update (fun _ => false) nd.myId true
          leaderId := -1 },
        some ⟨currentTerm, (nd.myId : ℕ), back.index, back.term⟩,
        [.updateMeta currentTerm (nd.myId : ℕ)]⟩

inductive Message (Command : Type)
  | append (args : AppendEntriesArgs Command)
  | snapshot (args : InstallSnapshotArgs)

def broadcast (msg : Fin n → Option (Option (Message Command))) :
    List (Fin n) → Option (List (Fin n × Message Command))
  | [] => some []
  | i :: is => do
    let m ← msg i
    let rest ← broadcast msg is
    some (m.toList.map (fun r => (i, r)) ++ rest)

def commitMessage (nd : RaftNode n Command St) (i : Fin n) : Option (Option (Message Command)) := do
  let front ← nd.log.head?
  let back ← nd.log.getLast?
  if i = nd.myId then some none
  else if nd.nextIndex i ≤ back.index then
    if nd.nextIndex i > front.index then do
      let prevLogIndex := nd.nextIndex i - 1
      let prev ← at? nd.log (prevLogIndex - front.index)
      let entries := (nd.log.drop (nd.nextIndex i - front.index).toNat).take
        (back.index + 1 - nd.nextIndex i).toNat
      some (some (.append ⟨nd.currentTerm, (nd.myId : ℕ), prevLogIndex, prev.term, entries, nd.commitIndex⟩))
    else
      some (some (.snapshot ⟨nd.currentTerm, (nd.myId : ℕ), front.index, front.term, nd.snapshot⟩))
  else some none

def runBackgroundCommit (nd : RaftNode n Command St) : Option (List (Fin n × Message Command)) :=
  if nd.role = .leader then broadcast (commitMessage nd) (List.finRange n) else some []

def pingMessage (nd : RaftNode n Command St) (i : Fin n) : Option (Option (Message Command)) := do
  let front ← nd.log.head?
  if i = nd.myId then some none
  else do
    let prevLogIndex := max (nd.nextIndex i - 1) front.index
    let prev ← at? nd.log (prevLogIndex - front.index)
    some (some (.append ⟨nd.currentTerm, (nd.myId : ℕ), prevLogIndex, prev.term, [], nd.commitIndex⟩))

def runBackgroundPing (nd : RaftNode n Command St) : Option (List (Fin n × Message Command)) :=
  if nd.role = .leader then broadcast (pingMessage nd) (List.finRange n) else some []

/-- One iteration of `run_background_apply`: the new state and the entries it
applied. -/
def runBackgroundApply [ChfsStateMachine Command St] (nd : RaftNode n Command St) :
    Option (RaftNode n Command St × List (RaftLogEntry Command)) := do
  let front ← nd.log.head?
  let back ← nd.log.getLast?
  if nd.commitIndex > nd.lastApplied then
    if front.index ≤ nd.lastApplied + 1 ∧ nd.commitIndex ≤ back.index then
      let logsToApply := (nd.log.drop (nd.lastApplied + 1 - front.index).toNat).take
        (nd.commitIndex - nd.lastApplied).toNat
      let state := logsToApply.foldl (fun s e => ChfsStateMachine.applyLog s e.cmd) nd.state
      some ({ nd with state := state, lastApplied := nd.commitIndex }, logsToApply)
    else none
  else some (nd, [])

end Chfs.Raft.Node
