import Chfs.Raft.FullLog
import Chfs.Raft.Handlers

namespace Chfs.Raft.Definedness

open Protocol Node FullLog

variable {n : ℕ} {Command St : Type}

def Majority (nd : RaftNode n Command St) (i : ℤ) : Prop := ∃ c ∈ at? nd.matchCount i, n / 2 < c + 1

def Commits (nd : RaftNode n Command St) (i : ℤ) : Prop :=
  Majority nd i ∧ ∃ front ∈ nd.log.head?, ∃ e ∈ at? nd.log (nd.commitIndex + i + 1 - front.index),
    e.term = nd.currentTerm

section Log

variable {log : List (RaftLogEntry Command)} {front back : RaftLogEntry Command} {index term : ℤ}

end Log

section Handlers

variable {nd : RaftNode n Command St} (hne : nd.log ≠ [])
include hne

end Handlers

section Counting

variable {nd : RaftNode n Command St} {front : RaftLogEntry Command}

end Counting

end Chfs.Raft.Definedness
