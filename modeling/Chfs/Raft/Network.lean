import Chfs.Lib.Run
import Chfs.Raft.Node

/-! A cluster of Raft nodes. A step is one locked handler body, one iteration
of a background loop, the loss of a message or the restart of a node; RPCs stay
in flight for any time and are answered in any order. -/

namespace Chfs.Raft.Network

open Protocol Node Lib.Run

/-- An RPC from `src` to `dst` that is on its way to be executed, or whose
reply is on its way back. `held` is history: the entries the sender held, in
its log or inside its snapshot, when it built the message. -/
inductive Packet (n : ℕ) (Command : Type)
  | voteRequest (src dst : Fin n) (args : RequestVoteArgs)
  | voteReply (src dst : Fin n) (args : RequestVoteArgs) (reply : RequestVoteReply)
  | appendRequest (src dst : Fin n) (args : AppendEntriesArgs Command)
      (held : List (RaftLogEntry Command))
  | appendReply (src dst : Fin n) (args : AppendEntriesArgs Command) (reply : AppendEntriesReply)
  | snapshotRequest (src dst : Fin n) (args : InstallSnapshotArgs)
      (held : List (RaftLogEntry Command))
  | snapshotReply (src dst : Fin n) (args : InstallSnapshotArgs) (reply : InstallSnapshotReply)

/-- `pending` holds the calls of `new_command` between the unlocked role test
and the locked append. The last four fields are history and are read by no
step: the entries a node's snapshot covers, the votes each node has given
(voter, term, candidate), the elections won, and the entries applied. -/
structure Cluster (n : ℕ) (Command St : Type) where
  nodes : Fin n → RaftNode n Command St
  net : List (Packet n Command)
  pending : List (Fin n × Command)
  covered : Fin n → List (RaftLogEntry Command)
  votes : List (Fin n × ℤ × ℤ)
  wins : List (Fin n × ℤ)
  applied : List (Fin n × RaftLogEntry Command)

inductive Action (n : ℕ) (Command : Type)
  | election (i : Fin n)
  | deliver (k : ℕ) (junk : Command)
  | drop (k : ℕ)
  | commandTest (i : Fin n) (cmd : Command)
  | commandAppend (k : ℕ)
  | commit (i : Fin n)
  | ping (i : Fin n)
  | apply (i : Fin n)
  | snapshot (i : Fin n)
  | restart (i : Fin n)

variable {n : ℕ} {Command St : Type}

/-- Everything a node holds, in its log or inside its snapshot: entry `k` is
at place `k - 1`. -/
def Cluster.full (c : Cluster n Command St) (i : Fin n) : List (RaftLogEntry Command) :=
  c.covered i ++ (c.nodes i).log.tail

def Cluster.setNode (c : Cluster n Command St) (i : Fin n) (nd : RaftNode n Command St) :
    Cluster n Command St :=
  { c with nodes := Function.update c.nodes i nd }

def Cluster.send (c : Cluster n Command St) (ps : List (Packet n Command)) :
    Cluster n Command St :=
  { c with net := c.net ++ ps }

def packet (i : Fin n) (held : List (RaftLogEntry Command)) :
    Fin n × Message Command → Packet n Command
  | (j, .append args) => .appendRequest i j args held
  | (j, .snapshot args) => .snapshotRequest i j args held

section Step

variable [ChfsCommand Command] [ChfsStateMachine Command St]

def init (n : ℕ) (Command St : Type) [ChfsCommand Command] [ChfsStateMachine Command St] :
    Cluster n Command St where
  nodes i := RaftNode.create i
  net := []
  pending := []
  covered _ := []
  votes := []
  wins := []
  applied := []

def Cluster.handle (c : Cluster n Command St) (junk : Command) :
    Packet n Command → Option (Cluster n Command St)
  | .voteRequest s d args => do
    let out ← requestVote (c.nodes d) args
    some { (c.setNode d out.node).send [.voteReply s d args out.reply] with
      votes := if out.reply.voteGranted then (d, args.term, args.candidateId) :: c.votes
        else c.votes }
  | .voteReply s d args reply => do
    let out ← handleRequestVoteReply (c.nodes s) d args reply
    some { c.setNode s out.node with
      wins := if (c.nodes s).role ≠ .leader ∧ out.node.role = .leader
        then (s, out.node.currentTerm) :: c.wins else c.wins }
  | .appendRequest s d args _ => do
    let out ← appendEntries (c.nodes d) args
    some ((c.setNode d out.node).send [.appendReply s d args out.reply])
  | .appendReply s d args reply => do
    let out ← handleAppendEntriesReply (c.nodes s) d args reply
    some (c.setNode s out.node)
  | .snapshotRequest s d args held => do
    let out ← installSnapshot (c.nodes d) args junk
    some { (c.setNode d out.node).send [.snapshotReply s d args out.reply] with
      covered := if args.term < (c.nodes d).currentTerm then c.covered
        else Function.update c.covered d (held.take args.lastIncludedIndex.toNat) }
  | .snapshotReply s d args reply =>
    some (c.setNode s (handleInstallSnapshotReply (c.nodes s) d args reply).node)

def Cluster.step (c : Cluster n Command St) : Action n Command → Option (Cluster n Command St)
  | .election i => do
    let out ← runBackgroundElection (c.nodes i)
    match out.reply with
    | none => some (c.setNode i out.node)
    | some args =>
      some { (c.setNode i out.node).send
          (((List.finRange n).filter (· ≠ i)).map fun j => .voteRequest i j args) with
        votes := (i, args.term, args.candidateId) :: c.votes }
  | .deliver k junk => do
    let p ← c.net[k]?
    { c with net := c.net.eraseIdx k }.handle junk p
  | .drop k => some { c with net := c.net.eraseIdx k }
  | .commandTest i cmd =>
    some (if (c.nodes i).role = .leader then { c with pending := (i, cmd) :: c.pending } else c)
  | .commandAppend k => do
    let call ← c.pending[k]?
    let out ← newCommand (c.nodes call.1) call.2
    some { c.setNode call.1 out.node with pending := c.pending.eraseIdx k }
  | .commit i => do
    let msgs ← runBackgroundCommit (c.nodes i)
    some (c.send (msgs.map (packet i (c.full i))))
  | .ping i => do
    let msgs ← runBackgroundPing (c.nodes i)
    some (c.send (msgs.map (packet i (c.full i))))
  | .apply i => do
    let out ← runBackgroundApply (c.nodes i)
    some { c.setNode i out.1 with applied := out.2.map (fun e => (i, e)) ++ c.applied }
  | .snapshot i => do
    let out ← saveSnapshot (c.nodes i)
    let front ← out.node.log.head?
    some { c.setNode i out.node with
      covered := Function.update c.covered i ((c.full i).take front.index.toNat) }
  | .restart i => do
    let nd := c.nodes i
    let nd' ← RaftNode.recover i nd.currentTerm nd.votedFor nd.log nd.snapshot
    some { c.setNode i nd' with pending := c.pending.filter (·.1 ≠ i) }

/-- The states of all runs, or of the runs whose steps satisfy `ok`. -/
abbrev Reachable (ok : Cluster n Command St → Action n Command → Prop) (c : Cluster n Command St) :
    Prop :=
  Reach Cluster.step ok (init n Command St) c

end Step

def OnDeliver (P : Cluster n Command St → Packet n Command → Prop) (c : Cluster n Command St) :
    Action n Command → Prop
  | .deliver k _ => ∀ p ∈ c.net[k]?, P c p
  | _ => True

instance (P : Cluster n Command St → Packet n Command → Prop) [∀ c p, Decidable (P c p)]
    (c : Cluster n Command St) (a : Action n Command) : Decidable (OnDeliver P c a) :=
  match a with
  | .deliver k _ => inferInstanceAs (Decidable (∀ p ∈ c.net[k]?, P c p))
  | .election _ | .drop _ | .commandTest _ _ | .commandAppend _ | .commit _ | .ping _ | .apply _
  | .snapshot _ | .restart _ => .isTrue trivial

/-! What keeps a step away from the places where the code departs from the
protocol. -/

/-- A vote that is counted answers a request of the candidate's current term. -/
def FreshVote (c : Cluster n Command St) : Packet n Command → Prop
  | .voteReply s d args reply =>
    (c.nodes s).role = .candidate → reply.term ≤ (c.nodes s).currentTerm → reply.voteGranted →
      (c.nodes s).votesFrom d = false → args.term = (c.nodes s).currentTerm
  | _ => True

/-- No candidate receives a leader's message of its own term, which would make
it forget its vote within the term. -/
def KeepsVote (c : Cluster n Command St) : Packet n Command → Prop
  | .appendRequest _ d args _ => ¬ ((c.nodes d).role = .candidate ∧ args.term = (c.nodes d).currentTerm)
  | .snapshotRequest _ d args _ =>
    ¬ ((c.nodes d).role = .candidate ∧ args.term = (c.nodes d).currentTerm)
  | _ => True

/-- No reply to an append of a later term, after which the node would return
to the term of its request. -/
def KeepsTerm (c : Cluster n Command St) : Packet n Command → Prop
  | .appendReply s _ _ reply => reply.term ≤ (c.nodes s).currentTerm
  | _ => True

/-- The locked append of `new_command` finds the node still a leader. -/
def LeaderAppends (c : Cluster n Command St) : Action n Command → Prop
  | .commandAppend k => ∀ call ∈ c.pending[k]?, (c.nodes call.1).role = .leader
  | _ => True

/-- A heartbeat does not move the commit index past the entry it has checked. -/
def CommitsChecked (c : Cluster n Command St) : Packet n Command → Prop
  | .appendRequest _ d args _ =>
    args.entries.isEmpty → (c.nodes d).currentTerm ≤ args.term →
      holds? (c.nodes d).log args.prevLogIndex args.prevLogTerm = some true →
      (c.nodes d).commitIndex < args.leaderCommit →
      ∀ back ∈ (c.nodes d).log.getLast?, min args.leaderCommit back.index ≤ args.prevLogIndex
  | _ => True

def agrees (log : List (RaftLogEntry Command)) (prevLogIndex : ℤ)
    (entries : List (RaftLogEntry Command)) : Bool :=
  entries.zipIdx.all fun x => holds? log (prevLogIndex + 1 + x.2) x.1.term == some true

/-- A message whose entries are all in the log reaches to the end of the log:
no acknowledged entry is cut off by a late message. -/
def KeepsTail (c : Cluster n Command St) : Packet n Command → Prop
  | .appendRequest _ d args _ =>
    ¬ args.entries.isEmpty → (c.nodes d).currentTerm ≤ args.term →
      holds? (c.nodes d).log args.prevLogIndex args.prevLogTerm = some true →
      agrees (c.nodes d).log args.prevLogIndex args.entries →
      ∀ back ∈ (c.nodes d).log.getLast?, back.index ≤ args.prevLogIndex + args.entries.length
  | _ => True

/-- An acknowledgement that a leader counts answers a request of its term. -/
def FreshAck (c : Cluster n Command St) : Packet n Command → Prop
  | .appendReply s _ args reply =>
    (c.nodes s).role = .leader → reply.term ≤ (c.nodes s).currentTerm → reply.success →
      args.term = (c.nodes s).currentTerm
  | _ => True

/-- A candidate that wins has nothing committed beyond the end of its log, so
that its counts can be set up. -/
def CountsFit (c : Cluster n Command St) : Packet n Command → Prop
  | .voteReply s d _ reply =>
    (c.nodes s).role = .candidate → reply.term ≤ (c.nodes s).currentTerm → reply.voteGranted →
      (c.nodes s).votesFrom d = false → n / 2 < (c.nodes s).votesGot + 1 →
      ∀ back ∈ (c.nodes s).log.getLast?, (c.nodes s).commitIndex ≤ back.index
  | _ => True

instance (c : Cluster n Command St) (p : Packet n Command) : Decidable (FreshVote c p) :=
  match p with
  | .voteReply s d args reply => inferInstanceAs (Decidable
    ((c.nodes s).role = .candidate → reply.term ≤ (c.nodes s).currentTerm → reply.voteGranted →
      (c.nodes s).votesFrom d = false → args.term = (c.nodes s).currentTerm))
  | .voteRequest _ _ _ | .appendRequest _ _ _ _ | .appendReply _ _ _ _ | .snapshotRequest _ _ _ _ | .snapshotReply _ _ _ _ =>
    .isTrue trivial

instance (c : Cluster n Command St) (p : Packet n Command) : Decidable (CountsFit c p) :=
  match p with
  | .voteReply s d _ reply => inferInstanceAs (Decidable
    ((c.nodes s).role = .candidate → reply.term ≤ (c.nodes s).currentTerm → reply.voteGranted →
      (c.nodes s).votesFrom d = false → n / 2 < (c.nodes s).votesGot + 1 →
      ∀ back ∈ (c.nodes s).log.getLast?, (c.nodes s).commitIndex ≤ back.index))
  | .voteRequest _ _ _ | .appendRequest _ _ _ _ | .appendReply _ _ _ _ | .snapshotRequest _ _ _ _ | .snapshotReply _ _ _ _ =>
    .isTrue trivial

instance (c : Cluster n Command St) (p : Packet n Command) : Decidable (KeepsVote c p) :=
  match p with
  | .appendRequest _ d args _ => inferInstanceAs (Decidable
    (¬ ((c.nodes d).role = .candidate ∧ args.term = (c.nodes d).currentTerm)))
  | .snapshotRequest _ d args _ => inferInstanceAs (Decidable
    (¬ ((c.nodes d).role = .candidate ∧ args.term = (c.nodes d).currentTerm)))
  | .voteRequest _ _ _ | .voteReply _ _ _ _ | .appendReply _ _ _ _ | .snapshotReply _ _ _ _ =>
    .isTrue trivial

instance (c : Cluster n Command St) (p : Packet n Command) : Decidable (KeepsTerm c p) :=
  match p with
  | .appendReply s _ _ reply => inferInstanceAs (Decidable (reply.term ≤ (c.nodes s).currentTerm))
  | .voteRequest _ _ _ | .voteReply _ _ _ _ | .appendRequest _ _ _ _ | .snapshotRequest _ _ _ _ | .snapshotReply _ _ _ _ =>
    .isTrue trivial

instance (c : Cluster n Command St) (p : Packet n Command) : Decidable (CommitsChecked c p) :=
  match p with
  | .appendRequest _ d args _ => inferInstanceAs (Decidable
    (args.entries.isEmpty → (c.nodes d).currentTerm ≤ args.term →
      holds? (c.nodes d).log args.prevLogIndex args.prevLogTerm = some true →
      (c.nodes d).commitIndex < args.leaderCommit →
      ∀ back ∈ (c.nodes d).log.getLast?, min args.leaderCommit back.index ≤ args.prevLogIndex))
  | .voteRequest _ _ _ | .voteReply _ _ _ _ | .appendReply _ _ _ _ | .snapshotRequest _ _ _ _ | .snapshotReply _ _ _ _ =>
    .isTrue trivial

instance (c : Cluster n Command St) (p : Packet n Command) : Decidable (KeepsTail c p) :=
  match p with
  | .appendRequest _ d args _ => inferInstanceAs (Decidable
    (¬ args.entries.isEmpty → (c.nodes d).currentTerm ≤ args.term →
      holds? (c.nodes d).log args.prevLogIndex args.prevLogTerm = some true →
      agrees (c.nodes d).log args.prevLogIndex args.entries →
      ∀ back ∈ (c.nodes d).log.getLast?, back.index ≤ args.prevLogIndex + args.entries.length))
  | .voteRequest _ _ _ | .voteReply _ _ _ _ | .appendReply _ _ _ _ | .snapshotRequest _ _ _ _ | .snapshotReply _ _ _ _ =>
    .isTrue trivial

instance (c : Cluster n Command St) (p : Packet n Command) : Decidable (FreshAck c p) :=
  match p with
  | .appendReply s _ args reply => inferInstanceAs (Decidable
    ((c.nodes s).role = .leader → reply.term ≤ (c.nodes s).currentTerm → reply.success →
      args.term = (c.nodes s).currentTerm))
  | .voteRequest _ _ _ | .voteReply _ _ _ _ | .appendRequest _ _ _ _ | .snapshotRequest _ _ _ _ | .snapshotReply _ _ _ _ =>
    .isTrue trivial

instance (c : Cluster n Command St) (a : Action n Command) : Decidable (LeaderAppends c a) :=
  match a with
  | .commandAppend k => inferInstanceAs
    (Decidable (∀ call ∈ c.pending[k]?, (c.nodes call.1).role = .leader))
  | .election _ | .drop _ | .deliver _ _ | .commandTest _ _ | .commit _ | .ping _ | .apply _
  | .snapshot _ | .restart _ => .isTrue trivial

end Chfs.Raft.Network
