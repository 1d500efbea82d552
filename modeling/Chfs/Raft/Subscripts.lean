import Chfs.Raft.Disks
import Chfs.Raft.Splicing

namespace Chfs.Raft.Subscripts

open Protocol Node Handlers Network FullLog Splicing Lib.Run
open Persistence (Event handle)
open Disks (event received step_event)

variable {n : ℕ} {Command St : Type}

/-- The subscript `index - log.front().index`, which is evaluated if the log
reaches to `index`. -/
def lookup (log : Log Command) (index : ℤ) : Option ℤ := do
  let front ← log.head?
  let back ← log.getLast?
  if index ≤ back.index then some (index - front.index) else none

def subscript (nd : RaftNode n Command St) (term index : ℤ) : Option ℤ :=
  if term < nd.currentTerm then none else lookup nd.log index

/-- The subscript that the delivery of the packet evaluates lies in the log. -/
def InRange (c : Cluster n Command St) : Packet n Command → Prop
  | .appendRequest _ d args _ => ∀ i ∈ subscript (c.nodes d) args.term args.prevLogIndex,
    0 ≤ i ∧ i < (c.nodes d).log.length
  | .snapshotRequest _ d args _ => ∀ i ∈ subscript (c.nodes d) args.term args.lastIncludedIndex,
    0 ≤ i ∧ i < (c.nodes d).log.length
  | _ => True

instance (nd : RaftNode n Command St) (term index : ℤ) :
    Decidable (∀ i ∈ subscript nd term index, 0 ≤ i ∧ i < nd.log.length) :=
  match subscript nd term index with
  | some i => decidable_of_iff (0 ≤ i ∧ i < nd.log.length) (by simp)
  | none => .isTrue (by simp)

instance (c : Cluster n Command St) (p : Packet n Command) : Decidable (InRange c p) :=
  match p with
  | .appendRequest _ d args _ => inferInstanceAs
    (Decidable (∀ i ∈ subscript (c.nodes d) args.term args.prevLogIndex, 0 ≤ i ∧ i < (c.nodes d).log.length))
  | .snapshotRequest _ d args _ => inferInstanceAs
    (Decidable (∀ i ∈ subscript (c.nodes d) args.term args.lastIncludedIndex, 0 ≤ i ∧ i < (c.nodes d).log.length))
  | .voteRequest _ _ _ | .voteReply _ _ _ _ | .appendReply _ _ _ _ | .snapshotReply _ _ _ _ => .isTrue trivial

/-- A message that is not of an earlier term names no entry below the front of
the receiver's log. -/
def PastFront (c : Cluster n Command St) : Packet n Command → Prop
  | .appendRequest _ d args _ => (c.nodes d).currentTerm ≤ args.term →
    ∀ front ∈ (c.nodes d).log.head?, front.index ≤ args.prevLogIndex
  | .snapshotRequest _ d args _ => (c.nodes d).currentTerm ≤ args.term →
    ∀ front ∈ (c.nodes d).log.head?, front.index ≤ args.lastIncludedIndex
  | _ => True

theorem subscript_inRange_iff {nd : RaftNode n Command St} (h : Contiguous nd.log) (term index : ℤ) :
    (∀ i ∈ subscript nd term index, 0 ≤ i ∧ i < nd.log.length) ↔
      (nd.currentTerm ≤ term → ∀ front ∈ nd.log.head?, front.index ≤ index) := by
  obtain ⟨front, back, hf, hb, -, hlen⟩ := h.ends
  have hpos : 0 < nd.log.length := by
    obtain ⟨tl, htl⟩ := List.head?_eq_some_iff.mp hf
    rw [htl]
    exact Nat.succ_pos _
  unfold subscript lookup
  rw [hf, hb]
  simp only [Option.bind_eq_bind, Option.bind_some, Option.mem_def, Option.some.injEq, forall_eq']
  split
  case isTrue hlt =>
    refine iff_of_true (fun i hi => by cases hi) fun hle => absurd hlt (not_lt.mpr hle)
  case isFalse hle =>
    split
    case isTrue hin =>
      simp only [Option.some.injEq, forall_eq']
      constructor
      · intro hi _
        omega
      · intro hi
        have := hi (not_lt.mp hle)
        omega
    case isFalse hout =>
      refine iff_of_true (fun i hi => by cases hi) fun _ => ?_
      omega

section Node

variable [ChfsStateMachine Command St] {nd nd' : RaftNode n Command St}

def Follows : Event n Command → Prop
  | .appendEntries args => Numbered (args.prevLogIndex + 1) args.entries
  | _ => True

theorem contiguous_saveSnapshot {out : Outcome n Command St Bool} (hlog : Contiguous nd.log)
    (h : saveSnapshot nd = some out) : Contiguous out.node.log := by
  obtain ⟨front, back, lastLog, log, hf, hb, hcase, hnd⟩ := saveSnapshot_cases h
  rw [hnd]
  obtain ⟨-, hat, rfl⟩ | ⟨-, rfl, rfl⟩ := hcase
  · obtain ⟨k, hk, hget⟩ := at?_eq_some hat
    have hlt := (List.getElem?_eq_some_iff.mp hget).1
    simp only
    rw [show (nd.lastApplied - front.index).toNat = k by omega, if_neg (by simpa using hlt)]
    exact hlog.drop hlt
  · exact contiguous_singleton _

theorem contiguous_installSnapshot {arg : InstallSnapshotArgs} {junk : Command}
    {out : Outcome n Command St InstallSnapshotReply} (hlog : Contiguous nd.log)
    (h : installSnapshot nd arg junk = some out) : Contiguous out.node.log := by
  obtain ⟨-, hnd⟩ | ⟨nd₁, front, hit, -, hf, hhit, hnd⟩ := installSnapshot_cases h
  · rwa [hnd]
  · rw [hnd]
    cases hit with
    | false => exact contiguous_singleton _
    | true =>
      obtain ⟨front', back, e, hf', -, -, he, -⟩ := holds?_true hhit
      obtain rfl : front' = front := Option.some.inj (hf'.symm.trans hf)
      obtain ⟨k, hk, hget⟩ := at?_eq_some he
      simp only [if_true]
      rw [hk]
      exact hlog.drop (List.getElem?_eq_some_iff.mp hget).1

theorem contiguous_handle {e : Event n Command} {ops : List (StorageOp Command)}
    (hlog : Contiguous nd.log) (he : Follows e) (h : handle nd e = some (nd', ops)) :
    Contiguous nd'.log := by
  cases e with
  | requestVote args =>
    obtain ⟨out, ho, heq⟩ := Option.map_eq_some_iff.mp h
    cases heq
    obtain ⟨hnd, -⟩ | ⟨nd₁, back, hj, -, -, ⟨hnd, -⟩ | ⟨-, -, hnd, -⟩⟩ := requestVote_cases ho
    · rwa [hnd]
    · rwa [hnd, hj.log]
    · rw [hnd]
      exact hj.log ▸ hlog
  | requestVoteReply target arg reply =>
    obtain ⟨out, ho, heq⟩ := Option.map_eq_some_iff.mp h
    cases heq
    obtain ⟨-, hnd⟩ | hnd | ⟨-, -, -, -, nd₁, rfl, ⟨-, hnd⟩ | ⟨-, hlead⟩⟩ :=
      handleRequestVoteReply_cases ho
    · rw [hnd]
      exact hlog
    · rwa [hnd]
    · rw [hnd]
      exact hlog
    · obtain ⟨back, -, hnd⟩ := becomeLeader_cases hlead
      rw [hnd]
      exact hlog
  | appendEntries args =>
    obtain ⟨out, ho, heq⟩ := Option.map_eq_some_iff.mp h
    cases heq
    obtain ⟨-, hnd, -⟩ | ⟨nd₁, hj, ⟨-, hnd, -⟩ | ⟨hprev, log, ops, back, hs, -, hnd⟩⟩ :=
      appendEntries_cases ho
    · rwa [hnd]
    · rwa [hnd, hj.log]
    · rw [hnd]
      exact contiguous_splice hlog ⟨_, hprev⟩ he hs
  | appendEntriesReply nodeId arg reply =>
    obtain ⟨out, ho, heq⟩ := Option.map_eq_some_iff.mp h
    cases heq
    obtain ⟨-, hnd⟩ | ⟨-, -, -, _, _, _, _, -, -, -, hnd⟩ | ⟨_, hnd⟩ :=
      handleAppendEntriesReply_cases ho
    all_goals
      rw [hnd]
      exact hlog
  | installSnapshot arg junk =>
    obtain ⟨out, ho, heq⟩ := Option.map_eq_some_iff.mp h
    cases heq
    exact contiguous_installSnapshot hlog ho
  | installSnapshotReply nodeId arg reply =>
    cases h
    obtain ⟨-, hnd⟩ | hnd | ⟨_, hnd⟩ := handleInstallSnapshotReply_cases nd nodeId arg reply
    all_goals
      rw [hnd]
      exact hlog
  | newCommand cmd =>
    obtain ⟨out, ho, heq⟩ := Option.map_eq_some_iff.mp h
    cases heq
    obtain ⟨back, hb, hnd⟩ := newCommand_cases ho
    rw [hnd]
    refine hlog.append hb fun k e hk => ?_
    obtain ⟨rfl, rfl⟩ : k = 0 ∧ _ = e := by simpa [List.getElem?_singleton] using hk
    simp
  | saveSnapshot =>
    obtain ⟨out, ho, heq⟩ := Option.map_eq_some_iff.mp h
    cases heq
    exact contiguous_saveSnapshot hlog ho
  | election =>
    obtain ⟨out, ho, heq⟩ := Option.map_eq_some_iff.mp h
    cases heq
    obtain ⟨-, hnd, -⟩ | ⟨back, -, hnd, -⟩ := runBackgroundElection_cases ho
    · rwa [hnd]
    · rw [hnd]
      exact hlog
  | apply =>
    obtain ⟨out, ho, heq⟩ := Option.map_eq_some_iff.mp h
    cases heq
    obtain rfl | ⟨_, _, _, _, _, _, _, _, _, hst⟩ := runBackgroundApply_cases ho
    · exact hlog
    · rw [hst]
      exact hlog

end Node

section Messages

variable {nd : RaftNode n Command St} {i : Fin n} {args : AppendEntriesArgs Command}

theorem commitMessage_numbered (hlog : Contiguous nd.log)
    (hm : commitMessage nd i = some (some (.append args))) :
    Numbered (args.prevLogIndex + 1) args.entries := by
  obtain ⟨front, back, hf, hb, hnum, -⟩ := hlog.ends
  unfold commitMessage at hm
  rw [hf, hb] at hm
  simp only [Option.bind_eq_bind, Option.bind_some] at hm
  split at hm
  case isTrue => cases hm
  case isFalse =>
    split at hm
    case isTrue =>
      split at hm
      case isTrue hgt =>
        obtain ⟨prev, -, hm⟩ := Option.bind_eq_some_iff.mp hm
        cases hm
        have h := (hnum.drop (nd.nextIndex i - front.index).toNat).take
          (back.index + 1 - nd.nextIndex i).toNat
        rwa [show front.index + ((nd.nextIndex i - front.index).toNat : ℤ) =
          nd.nextIndex i - 1 + 1 by omega] at h
      case isFalse => cases hm
    case isFalse => cases hm

theorem pingMessage_numbered (hm : pingMessage nd i = some (some (.append args))) :
    Numbered (args.prevLogIndex + 1) args.entries := by
  obtain ⟨front, -, hm⟩ := Option.bind_eq_some_iff.mp hm
  split at hm
  case isTrue => cases hm
  case isFalse =>
    obtain ⟨prev, -, hm⟩ := Option.bind_eq_some_iff.mp hm
    cases hm
    exact fun k e he => by cases he

end Messages

section Cluster

variable {c c' : Cluster n Command St}

theorem packet_inj {i s d : Fin n} {held held' : Log Command} {m : Fin n × Message Command}
    {m' : Message Command} (h : packet i held m = packet s held' (d, m')) : i = s ∧ m = (d, m') := by
  obtain ⟨j, m⟩ := m
  cases m with
  | append =>
    cases m' with
    | append =>
      cases h
      exact ⟨rfl, rfl⟩
    | snapshot => cases h
  | snapshot =>
    cases m' with
    | append => cases h
    | snapshot =>
      cases h
      exact ⟨rfl, rfl⟩

theorem packet_of_step [ChfsStateMachine Command St] {a : Action n Command} (hs : c.step a = some c')
    {s d : Fin n} {m : Message Command} {held : Log Command} (hp : packet s held (d, m) ∈ c'.net) :
    packet s held (d, m) ∈ c.net ∨ commitMessage (c.nodes s) d = some (some m) ∨
      pingMessage (c.nodes s) d = some (some m) := by
  cases a with
  | election i =>
    obtain ⟨out, -, hs⟩ := Option.bind_eq_some_iff.mp hs
    split at hs
    · cases hs
      exact Or.inl hp
    · cases hs
      obtain hp | hp := List.mem_append.mp hp
      · exact Or.inl hp
      · obtain ⟨j, -, hj⟩ := List.mem_map.mp hp
        cases m <;> cases hj
  | deliver k junk =>
    obtain ⟨p, -, hs⟩ := Option.bind_eq_some_iff.mp hs
    refine Or.inl (List.mem_of_mem_eraseIdx (i := k) ?_)
    cases p with
    | snapshotReply =>
      cases hs
      exact hp
    | voteReply | appendReply =>
      obtain ⟨out, -, hs⟩ := Option.bind_eq_some_iff.mp hs
      cases hs
      exact hp
    | voteRequest | appendRequest | snapshotRequest =>
      obtain ⟨out, -, hs⟩ := Option.bind_eq_some_iff.mp hs
      cases hs
      -- the reply is no message of a leader
      obtain hp | hp := List.mem_append.mp hp
      · exact hp
      · cases m <;> cases List.mem_singleton.mp hp
  | drop k =>
    cases hs
    exact Or.inl (List.mem_of_mem_eraseIdx hp)
  | commandTest i cmd =>
    cases hs
    split at hp
    · exact Or.inl hp
    · exact Or.inl hp
  | commandAppend k =>
    obtain ⟨call, -, hs⟩ := Option.bind_eq_some_iff.mp hs
    obtain ⟨out, -, hs⟩ := Option.bind_eq_some_iff.mp hs
    cases hs
    exact Or.inl hp
  | commit i =>
    obtain ⟨ms, hms, hs⟩ := Option.bind_eq_some_iff.mp hs
    cases hs
    obtain hp | hp := List.mem_append.mp hp
    · exact Or.inl hp
    · obtain ⟨x, hx, heq⟩ := List.mem_map.mp hp
      obtain ⟨rfl, rfl⟩ := packet_inj heq
      unfold runBackgroundCommit at hms
      split at hms
      · exact Or.inr (Or.inl (mem_broadcast hms hx))
      · cases hms
        cases hx
  | ping i =>
    obtain ⟨ms, hms, hs⟩ := Option.bind_eq_some_iff.mp hs
    cases hs
    obtain hp | hp := List.mem_append.mp hp
    · exact Or.inl hp
    · obtain ⟨x, hx, heq⟩ := List.mem_map.mp hp
      obtain ⟨rfl, rfl⟩ := packet_inj heq
      unfold runBackgroundPing at hms
      split at hms
      · exact Or.inr (Or.inr (mem_broadcast hms hx))
      · cases hms
        cases hx
  | apply i =>
    obtain ⟨out, -, hs⟩ := Option.bind_eq_some_iff.mp hs
    cases hs
    exact Or.inl hp
  | snapshot i =>
    obtain ⟨out, -, hs⟩ := Option.bind_eq_some_iff.mp hs
    obtain ⟨front, -, hs⟩ := Option.bind_eq_some_iff.mp hs
    cases hs
    exact Or.inl hp
  | restart i =>
    obtain ⟨nd, -, hs⟩ := Option.bind_eq_some_iff.mp hs
    cases hs
    exact Or.inl hp

structure LogsInv (c : Cluster n Command St) : Prop where
  logs : ∀ i, Contiguous (c.nodes i).log
  messages : ∀ s d args held, .appendRequest s d args held ∈ c.net →
    Numbered (args.prevLogIndex + 1) args.entries

theorem LogsInv.follows (h : LogsInv c) {a : Action n Command} {i : Fin n} {e : Event n Command}
    (he : event c a = some (i, e)) : Follows e := by
  cases e with
  | appendEntries args =>
    cases a with
    | deliver k junk =>
      obtain ⟨p, hp, hrec⟩ := Option.map_eq_some_iff.mp he
      cases p with
      | appendRequest s d args' held =>
        cases hrec
        exact h.messages s _ _ held (List.mem_of_getElem? hp)
      | _ => cases hrec
    | commandAppend k =>
      obtain ⟨call, -, hrec⟩ := Option.map_eq_some_iff.mp he
      cases hrec
    | _ => cases he
  | _ => trivial

theorem LogsInv.step [ChfsStateMachine Command St] (h : LogsInv c) {a : Action n Command}
    (hs : c.step a = some c') : LogsInv c' := by
  constructor
  case logs =>
    by_cases hr : ∃ i, a = .restart i
    · obtain ⟨i, rfl⟩ := hr
      obtain ⟨nd, hnd, hs⟩ := Option.bind_eq_some_iff.mp hs
      obtain ⟨front, -, hnd⟩ := Option.bind_eq_some_iff.mp hnd
      cases hnd
      cases hs
      intro j
      by_cases hj : j = i
      · subst hj
        simp only [Cluster.setNode, Function.update_self]
        exact h.logs j
      · simp only [Cluster.setNode, Function.update_of_ne hj]
        exact h.logs j
    · obtain ⟨-, hn⟩ | ⟨i, e, nd, ops, he, hh, hn⟩ := step_event (fun i heq => hr ⟨i, heq⟩) hs
      · exact hn ▸ h.logs
      · intro j
        rw [hn]
        by_cases hj : j = i
        · subst hj
          rw [Function.update_self]
          exact contiguous_handle (h.logs j) (h.follows he) hh
        · rw [Function.update_of_ne hj]
          exact h.logs j
  case messages =>
    intro s d args held hp
    obtain hp | hm | hm := packet_of_step (m := .append args) hs hp
    · exact h.messages s d args held hp
    · exact commitMessage_numbered (h.logs s) hm
    · exact pingMessage_numbered hm

/-- A step of the cluster, or the network delivers a packet once more. -/
inductive Turn (n : ℕ) (Command : Type)
  | act (a : Action n Command)
  | again (k : ℕ)

def turn [ChfsStateMachine Command St] (c : Cluster n Command St) : Turn n Command → Option (Cluster n Command St)
  | .act a => c.step a
  | .again k => (c.net[k]?).map fun p => c.send [p]

theorem LogsInv.turn [ChfsStateMachine Command St] (h : LogsInv c) {x : Turn n Command}
    (hs : turn c x = some c') : LogsInv c' := by
  cases x with
  | act a => exact h.step hs
  | again k =>
    obtain ⟨p, hk, hs⟩ := Option.map_eq_some_iff.mp hs
    subst hs
    refine ⟨h.logs, fun s d args held hp => ?_⟩
    obtain hp | hp := List.mem_append.mp hp
    · exact h.messages s d args held hp
    · rw [← List.mem_singleton.mp hp] at hk
      exact h.messages s d args held (List.mem_of_getElem? hk)

end Cluster

section Runs

variable [ChfsCommand Command] [ChfsStateMachine Command St] {c : Cluster n Command St}

theorem logsInv_init : LogsInv (init n Command St) where
  logs _ := contiguous_singleton _
  messages _ _ _ _ hp := absurd hp List.not_mem_nil

theorem logsInv_of_reach {ok : Cluster n Command St → Turn n Command → Prop}
    (h : Reach turn ok (init n Command St) c) : LogsInv c :=
  h.invariant logsInv_init fun _ _ _ hi _ hs => hi.turn hs

/-- In every run, whatever is repeated or comes late, a delivery reads inside
the log exactly when the front of the log has not moved past the message. -/
theorem inRange_iff_pastFront (h : Reach turn (fun _ _ => True) (init n Command St) c)
    (p : Packet n Command) : InRange c p ↔ PastFront c p := by
  have hlogs := (logsInv_of_reach h).logs
  cases p with
  | appendRequest s d args held => exact subscript_inRange_iff (hlogs d) args.term args.prevLogIndex
  | snapshotRequest s d args held =>
    exact subscript_inRange_iff (hlogs d) args.term args.lastIncludedIndex
  | _ => exact Iff.rfl

end Runs

def lateCopyRun : List (Turn 3 ListCommand) :=
  [.act (.election 0), .act (.deliver 0 ⟨0⟩), .act (.deliver 1 ⟨0⟩), .act (.commandTest 0 ⟨7⟩),
    .act (.commandAppend 0), .act (.commit 0), .act (.commit 0), .act (.deliver 1 ⟨0⟩),
    .act (.deliver 4 ⟨0⟩), .act (.ping 0), .act (.deliver 4 ⟨0⟩), .act (.apply 1), .act (.snapshot 1)]

theorem inRange_of_pastFront_other : ∃ c : Cluster 3 ListCommand ListStateMachine,
    Reach turn (fun _ _ => True) (init 3 ListCommand ListStateMachine) c ∧
      InRange c (.appendRequest 0 2 ⟨1, 0, 0, 0, [⟨1, 1, ⟨7⟩⟩], 0⟩ [⟨1, 1, ⟨7⟩⟩]) := by
  obtain ⟨c, hc⟩ : ∃ c, exec turn (init 3 ListCommand ListStateMachine) lateCopyRun = some c :=
    Option.isSome_iff_exists.mp (by decide +kernel)
  have hlog : (exec turn (init 3 ListCommand ListStateMachine) lateCopyRun).map
      (fun c => (c.nodes 2).log) = some [⟨0, 0, ⟨0⟩⟩] := by decide +kernel
  rw [hc, Option.map_some, Option.some.injEq] at hlog
  refine ⟨c, reach_of_exec hc, (inRange_iff_pastFront (reach_of_exec hc) _).mpr ?_⟩
  intro _ front hf
  rw [hlog] at hf
  cases hf
  decide

/-- The copy makes node 1 read its log at -1. -/
theorem not_inRange_lateCopyRun : ¬ ∀ (c : Cluster 3 ListCommand ListStateMachine)
    (p : Packet 3 ListCommand), Reach turn (fun _ _ => True) (init 3 ListCommand ListStateMachine) c →
      p ∈ c.net → InRange c p := by
  intro hall
  obtain ⟨c, hc⟩ : ∃ c, exec turn (init 3 ListCommand ListStateMachine) lateCopyRun = some c :=
    Option.isSome_iff_exists.mp (by decide +kernel)
  have hval : (exec turn (init 3 ListCommand ListStateMachine) lateCopyRun).map
      (fun c => c.net.all fun p => decide (InRange c p)) = some false := by
    decide +kernel
  rw [hc, Option.map_some, Option.some.injEq, List.all_eq_false] at hval
  obtain ⟨p, hp, hout⟩ := hval
  exact hout (decide_eq_true (hall c p (reach_of_exec hc) hp))

end Chfs.Raft.Subscripts
