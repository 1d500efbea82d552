import Mathlib.Data.Int.Order.Basic
import Mathlib.Data.Nat.Digits.Defs

/-! The data of the replicated state machine and of the RPCs between its
nodes (`rsm/state_machine.h`, `rsm/list_state_machine.h`, `rsm/raft/protocol.h`). -/

namespace Chfs.Raft.Protocol

/-- `ChfsCommand`. `deserialize` updates the receiver, and `ofInt` is the
converting constructor the node uses for the entry at index 0. -/
class ChfsCommand (Command : Type) where
  ofInt : ℤ → Command
  size : Command → ℕ
  serialize : Command → ℤ → List UInt8
  deserialize : Command → List UInt8 → ℤ → Command

class ChfsStateMachine (Command : outParam Type) (St : Type) where
  create : St
  applyLog : St → Command → St
  snapshot : St → List UInt8
  applySnapshot : St → List UInt8 → St

def intByte (x : ℤ) (i : ℕ) : UInt8 := UInt8.ofNat ((x / 2 ^ (8 * (3 - i))) % 256).toNat

/-- The `int` with the given four bytes, most significant first: the value is
converted to the signed type. -/
def intOfBytes (a b c d : UInt8) : ℤ :=
  let u : ℤ := a.toNat * 2 ^ 24 + b.toNat * 2 ^ 16 + c.toNat * 2 ^ 8 + d.toNat
  if u < 2 ^ 31 then u else u - 2 ^ 32

structure ListCommand where
  value : ℤ
  deriving DecidableEq, Repr

instance : ChfsCommand ListCommand where
  ofInt v := ⟨v⟩
  size _ := 4
  serialize cmd sz := if sz ≠ 4 then [] else
    [intByte cmd.value 0, intByte cmd.value 1, intByte cmd.value 2, intByte cmd.value 3]
  deserialize cmd data sz := if sz ≠ 4 then cmd else
    ⟨intOfBytes (data.getD 0 0) (data.getD 1 0) (data.getD 2 0) (data.getD 3 0)⟩

structure ListStateMachine where
  store : List ℤ
  numAppendLogs : ℕ
  deriving DecidableEq, Repr

def printNat (k : ℕ) : List UInt8 :=
  if k = 0 then [48] else (Nat.digits 10 k).reverse.map fun d => UInt8.ofNat (48 + d)

def printInt (x : ℤ) : List UInt8 :=
  if x < 0 then 45 :: printNat x.natAbs else printNat x.natAbs

/-- `istream >> int`: skip blanks, an optional sign, then digits. The value is
0 where no number can be read. -/
def readDigits (acc : ℕ) : List UInt8 → ℕ × List UInt8
  | [] => (acc, [])
  | b :: bs => if 48 ≤ b ∧ b ≤ 57 then readDigits (10 * acc + (b.toNat - 48)) bs else (acc, b :: bs)

def readInt (bs : List UInt8) : ℤ × List UInt8 :=
  match bs.dropWhile (· == 32) with
  | 45 :: rest => ((-((readDigits 0 rest).1 : ℤ)), (readDigits 0 rest).2)
  | rest => (((readDigits 0 rest).1 : ℤ), (readDigits 0 rest).2)

def readInts : ℕ → List UInt8 → List ℤ
  | 0, _ => []
  | k + 1, bs => (readInt bs).1 :: readInts k (readInt bs).2

instance : ChfsStateMachine ListCommand ListStateMachine where
  create := ⟨[0], 0⟩
  applyLog s cmd := ⟨s.store ++ [cmd.value], s.numAppendLogs + 1⟩
  snapshot s := printInt s.store.length ++ s.store.flatMap fun v => 32 :: printInt v
  applySnapshot s bs := ⟨readInts (readInt bs).1.toNat (readInt bs).2, s.numAppendLogs⟩

structure RaftLogEntry (Command : Type) where
  index : ℤ
  term : ℤ
  cmd : Command
  deriving DecidableEq, Repr

structure RequestVoteArgs where
  term : ℤ
  candidateId : ℤ
  lastLogIndex : ℤ
  lastLogTerm : ℤ
  deriving DecidableEq, Repr

structure RequestVoteReply where
  term : ℤ
  voteGranted : Bool
  deriving DecidableEq, Repr

structure AppendEntriesArgs (Command : Type) where
  term : ℤ
  leaderId : ℤ
  prevLogIndex : ℤ
  prevLogTerm : ℤ
  entries : List (RaftLogEntry Command)
  leaderCommit : ℤ
  deriving DecidableEq, Repr

structure AppendEntriesReply where
  term : ℤ
  success : Bool
  deriving DecidableEq, Repr

structure InstallSnapshotArgs where
  term : ℤ
  leaderId : ℤ
  lastIncludedIndex : ℤ
  lastIncludedTerm : ℤ
  snapshot : List UInt8
  deriving DecidableEq, Repr

structure InstallSnapshotReply where
  term : ℤ
  deriving DecidableEq, Repr

structure RpcAppendEntriesArgs where
  term : ℤ
  leaderId : ℤ
  prevLogIndex : ℤ
  prevLogTerm : ℤ
  cmds : List (List UInt8)
  indexs : List ℤ
  terms : List ℤ
  leaderCommit : ℤ
  deriving DecidableEq, Repr

variable {Command : Type} [ChfsCommand Command]

def transformAppendEntriesArgs (arg : AppendEntriesArgs Command) : RpcAppendEntriesArgs where
  term := arg.term
  leaderId := arg.leaderId
  prevLogIndex := arg.prevLogIndex
  prevLogTerm := arg.prevLogTerm
  cmds := arg.entries.map fun e => ChfsCommand.serialize e.cmd (ChfsCommand.size e.cmd)
  indexs := arg.entries.map (·.index)
  terms := arg.entries.map (·.term)
  leaderCommit := arg.leaderCommit

/-- The received commands start from a default-constructed one. -/
def transformRpcAppendEntriesArgs (fresh : Command) (arg : RpcAppendEntriesArgs) :
    AppendEntriesArgs Command where
  term := arg.term
  leaderId := arg.leaderId
  prevLogIndex := arg.prevLogIndex
  prevLogTerm := arg.prevLogTerm
  entries := (arg.cmds.zip (arg.indexs.zip arg.terms)).map fun x =>
    ⟨x.2.1, x.2.2, ChfsCommand.deserialize fresh x.1 x.1.length⟩
  leaderCommit := arg.leaderCommit

/-- A message arrives as it was sent whenever commands survive their own
encoding. -/
theorem transform_roundtrip (fresh : Command) (arg : AppendEntriesArgs Command)
    (hcodec : ∀ e ∈ arg.entries, ChfsCommand.deserialize fresh
      (ChfsCommand.serialize e.cmd (ChfsCommand.size e.cmd))
      (ChfsCommand.serialize e.cmd (ChfsCommand.size e.cmd)).length = e.cmd) :
    transformRpcAppendEntriesArgs fresh (transformAppendEntriesArgs arg) = arg := by
  cases arg with
  | mk term leaderId prevLogIndex prevLogTerm entries leaderCommit =>
    simp only [transformRpcAppendEntriesArgs, transformAppendEntriesArgs,
      AppendEntriesArgs.mk.injEq, true_and, and_true]
    rw [List.zip_map', List.zip_map', List.map_map]
    conv_rhs => rw [← List.map_id entries]
    apply List.map_congr_left
    intro e he
    simp only [Function.comp_apply, id_eq]
    rw [hcodec e he]

end Chfs.Raft.Protocol
