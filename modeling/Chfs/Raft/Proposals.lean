import Chfs.Raft.Commands
import Chfs.Raft.StateMachineSafety
import Chfs.Raft.Subscripts

namespace Chfs.Raft.Proposals

open Protocol Node Handlers Network FullLog Splicing Subscripts Commands StateMachineSafety Lib.Run
open Persistence (Event handle)
open Disks (event received step_event)

variable {n : ℕ} {Command St : Type}

def brought (nd : RaftNode n Command St) : Event n Command → List (RaftLogEntry Command)
  | .appendEntries args => args.entries
  | .newCommand cmd => ((newCommand nd cmd).map fun out => ⟨out.reply.2, out.reply.1, cmd⟩).toList
  | _ => []

/-- The front entry, whose command may be anything, is not applied. -/
def FrontApplied (nd : RaftNode n Command St) : Prop :=
  ∀ front ∈ nd.log.head?, front.index ≤ nd.lastApplied

section Node

variable [ChfsStateMachine Command St] {nd nd' : RaftNode n Command St}

theorem mem_tail_drop {α : Type} {l : List α} {x : α} {k : ℕ} (h : x ∈ (l.drop k).tail) : x ∈ l.tail := by
  rw [List.tail_drop, show k + 1 = 1 + k by omega, ← List.drop_drop, List.drop_one] at h
  exact List.mem_of_mem_drop h

theorem mem_tail_splice {log log' entries : Log Command} {prevLogIndex prevLogTerm : ℤ}
    {ops : List (StorageOp Command)} (hlog : Contiguous log)
    (hprev : holds? log prevLogIndex prevLogTerm = some true)
    (hs : spliceEntries log prevLogIndex entries = some (log', ops)) {x : RaftLogEntry Command}
    (hx : x ∈ log'.tail) : x ∈ log.tail ∨ x ∈ entries := by
  obtain ⟨-, rfl⟩ | ⟨front, back, hf, hb, -, rfl⟩ := spliceEntries_cases hs
  · exact Or.inl hx
  · obtain ⟨tl, rfl⟩ := List.head?_eq_some_iff.mp hf
    obtain ⟨front', back', e, hf', -, -, he, -⟩ := holds?_true hprev
    obtain rfl : front = front' := Option.some.inj hf'
    obtain ⟨k, hk, -⟩ := at?_eq_some he
    split at hx
    case isTrue =>
      rw [show (prevLogIndex + 1 - front.index).toNat = k + 1 by omega, List.take_succ_cons,
        List.cons_append, List.tail_cons] at hx
      exact (List.mem_append.mp hx).imp_left List.mem_of_mem_take
    case isFalse =>
      rw [List.cons_append, List.tail_cons] at hx
      exact List.mem_append.mp hx

/-- Nothing but what it brings comes behind the front of a log. -/
theorem mem_tail_handle {e : Event n Command} {ops : List (StorageOp Command)} (hlog : Contiguous nd.log)
    (h : handle nd e = some (nd', ops)) {x : RaftLogEntry Command} (hx : x ∈ nd'.log.tail) :
    x ∈ nd.log.tail ∨ x ∈ brought nd e := by
  cases e with
  | requestVote args =>
    obtain ⟨out, ho, heq⟩ := Option.map_eq_some_iff.mp h
    cases heq
    obtain ⟨hnd, -⟩ | ⟨nd₁, back, hj, -, -, ⟨hnd, -⟩ | ⟨-, -, hnd, -⟩⟩ := requestVote_cases ho
    · exact Or.inl (hnd ▸ hx)
    · rw [hnd, hj.log] at hx
      exact Or.inl hx
    · rw [hnd] at hx
      exact Or.inl (hj.log ▸ hx)
  | requestVoteReply target arg reply =>
    obtain ⟨out, ho, heq⟩ := Option.map_eq_some_iff.mp h
    cases heq
    obtain ⟨-, hnd⟩ | hnd | ⟨-, -, -, -, nd₁, rfl, ⟨-, hnd⟩ | ⟨-, hlead⟩⟩ := handleRequestVoteReply_cases ho
    · rw [hnd] at hx
      exact Or.inl hx
    · exact Or.inl (hnd ▸ hx)
    · rw [hnd] at hx
      exact Or.inl hx
    · obtain ⟨back, -, hnd⟩ := becomeLeader_cases hlead
      rw [hnd] at hx
      exact Or.inl hx
  | appendEntries args =>
    obtain ⟨out, ho, heq⟩ := Option.map_eq_some_iff.mp h
    cases heq
    obtain ⟨-, hnd, -⟩ | ⟨nd₁, hj, ⟨-, hnd, -⟩ | ⟨hprev, log, ops, back, hs, -, hnd⟩⟩ := appendEntries_cases ho
    · exact Or.inl (hnd ▸ hx)
    · rw [hnd, hj.log] at hx
      exact Or.inl hx
    · rw [hnd] at hx
      exact mem_tail_splice hlog hprev hs hx
  | appendEntriesReply nodeId arg reply =>
    obtain ⟨out, ho, heq⟩ := Option.map_eq_some_iff.mp h
    cases heq
    obtain ⟨-, hnd⟩ | ⟨-, -, -, _, _, _, _, -, -, -, hnd⟩ | ⟨_, hnd⟩ := handleAppendEntriesReply_cases ho
    all_goals
      rw [hnd] at hx
      exact Or.inl hx
  | installSnapshot arg junk =>
    obtain ⟨out, ho, heq⟩ := Option.map_eq_some_iff.mp h
    cases heq
    obtain ⟨-, hnd⟩ | ⟨nd₁, front, hit, -, -, -, hnd⟩ := installSnapshot_cases ho
    · exact Or.inl (hnd ▸ hx)
    · rw [hnd] at hx
      cases hit with
      | false => cases hx
      | true => exact Or.inl (mem_tail_drop hx)
  | installSnapshotReply nodeId arg reply =>
    cases h
    obtain ⟨-, hnd⟩ | hnd | ⟨_, hnd⟩ := handleInstallSnapshotReply_cases nd nodeId arg reply
    all_goals
      rw [hnd] at hx
      exact Or.inl hx
  | newCommand cmd =>
    obtain ⟨out, ho, heq⟩ := Option.map_eq_some_iff.mp h
    cases heq
    rw [brought, ho]
    obtain ⟨back, hb, ho⟩ := Option.bind_eq_some_iff.mp ho
    obtain ⟨_, -, ho⟩ := Option.bind_eq_some_iff.mp ho
    cases ho
    rw [List.tail_append_of_ne_nil (List.ne_nil_of_mem (List.mem_of_getLast? hb))] at hx
    exact (List.mem_append.mp hx).imp_right fun hx => by simpa using hx
  | saveSnapshot =>
    obtain ⟨out, ho, heq⟩ := Option.map_eq_some_iff.mp h
    cases heq
    obtain ⟨_, _, lastLog, log, -, -, ⟨-, -, rfl⟩ | ⟨-, -, rfl⟩, hnd⟩ := saveSnapshot_cases ho
    · rw [hnd] at hx
      simp only at hx
      split at hx
      case isTrue => cases hx
      case isFalse => exact Or.inl (mem_tail_drop hx)
    · rw [hnd] at hx
      cases hx
  | election =>
    obtain ⟨out, ho, heq⟩ := Option.map_eq_some_iff.mp h
    cases heq
    obtain ⟨-, hnd, -⟩ | ⟨back, -, hnd, -⟩ := runBackgroundElection_cases ho
    · exact Or.inl (hnd ▸ hx)
    · rw [hnd] at hx
      exact Or.inl hx
  | apply =>
    obtain ⟨out, ho, heq⟩ := Option.map_eq_some_iff.mp h
    cases heq
    obtain rfl | ⟨_, _, _, _, _, _, _, _, _, hst⟩ := runBackgroundApply_cases ho
    · exact Or.inl hx
    · rw [hst] at hx
      exact Or.inl hx

theorem head_splice {log log' entries : Log Command} {prevLogIndex prevLogTerm : ℤ}
    {ops : List (StorageOp Command)} (hprev : holds? log prevLogIndex prevLogTerm = some true)
    (hs : spliceEntries log prevLogIndex entries = some (log', ops)) : log'.head? = log.head? := by
  obtain ⟨-, rfl⟩ | ⟨front, back, hf, hb, -, rfl⟩ := spliceEntries_cases hs
  · rfl
  · obtain ⟨tl, rfl⟩ := List.head?_eq_some_iff.mp hf
    obtain ⟨front', back', e, hf', -, -, he, -⟩ := holds?_true hprev
    obtain rfl : front = front' := Option.some.inj hf'
    obtain ⟨k, hk, -⟩ := at?_eq_some he
    split
    case isTrue =>
      rw [show (prevLogIndex + 1 - front.index).toNat = k + 1 by omega]
      rfl
    case isFalse => rfl

theorem frontApplied_saveSnapshot {out : Outcome n Command St Bool} (hlog : Contiguous nd.log)
    (h : saveSnapshot nd = some out) : FrontApplied out.node := by
  obtain ⟨front, back, lastLog, log, hf, hb, hcase, hnd⟩ := saveSnapshot_cases h
  obtain ⟨front', back', hf', hb', hnum, hlen⟩ := hlog.ends
  obtain rfl : front' = front := Option.some.inj (hf'.symm.trans hf)
  obtain rfl : back' = back := Option.some.inj (hb'.symm.trans hb)
  intro e he
  rw [hnd] at he ⊢
  obtain ⟨-, hat, rfl⟩ | ⟨hlt, rfl, rfl⟩ := hcase
  · obtain ⟨k, hk, hget⟩ := at?_eq_some hat
    have hidx := hnum k lastLog hget
    rw [show (nd.lastApplied - front'.index).toNat = k by omega] at he
    simp only at he ⊢
    split at he
    case isTrue =>
      cases he
      omega
    case isFalse =>
      rw [List.head?_drop, hget] at he
      cases he
      omega
  · cases he
    exact hlt.le

theorem frontApplied_installSnapshot {arg : InstallSnapshotArgs} {junk : Command}
    {out : Outcome n Command St InstallSnapshotReply} (hlog : Contiguous nd.log) (hfront : FrontApplied nd)
    (h : installSnapshot nd arg junk = some out) : FrontApplied out.node := by
  obtain ⟨-, hnd⟩ | ⟨nd₁, front, hit, -, hf, hhit, hnd⟩ := installSnapshot_cases h
  · rwa [hnd]
  · intro e he
    rw [hnd] at he ⊢
    cases hit with
    | false =>
      cases he
      exact le_refl _
    | true =>
      obtain ⟨front', back, last, hf', -, -, hat, -⟩ := holds?_true hhit
      obtain rfl : front' = front := Option.some.inj (hf'.symm.trans hf)
      obtain ⟨f, -, hf'', -, hnum, -⟩ := hlog.ends
      obtain rfl : f = front' := Option.some.inj (hf''.symm.trans hf)
      obtain ⟨k, hk, hget⟩ := at?_eq_some hat
      simp only [if_true, List.head?_drop, hk, Int.toNat_natCast, hget] at he
      cases he
      have hidx := hnum k e hget
      simp only
      omega

/-- A node that moves its front has applied what it moves over. -/
theorem frontApplied_handle {e : Event n Command} {ops : List (StorageOp Command)} (hlog : Contiguous nd.log)
    (hfront : FrontApplied nd) (h : handle nd e = some (nd', ops)) : FrontApplied nd' := by
  cases e with
  | requestVote args =>
    obtain ⟨out, ho, heq⟩ := Option.map_eq_some_iff.mp h
    cases heq
    obtain ⟨hnd, -⟩ | ⟨nd₁, back, hj, -, -, ⟨hnd, -⟩ | ⟨-, -, hnd, -⟩⟩ := requestVote_cases ho
    · rwa [hnd]
    · intro f hf
      rw [hnd, hj.log] at hf
      rw [hnd, hj.lastApplied]
      exact hfront f hf
    · intro f hf
      rw [hnd] at hf ⊢
      exact hj.lastApplied ▸ hfront f (hj.log ▸ hf)
  | requestVoteReply target arg reply =>
    obtain ⟨out, ho, heq⟩ := Option.map_eq_some_iff.mp h
    cases heq
    obtain ⟨-, hnd⟩ | hnd | ⟨-, -, -, -, nd₁, rfl, ⟨-, hnd⟩ | ⟨-, hlead⟩⟩ := handleRequestVoteReply_cases ho
    · rw [hnd]
      exact hfront
    · rwa [hnd]
    · rw [hnd]
      exact hfront
    · obtain ⟨back, -, hnd⟩ := becomeLeader_cases hlead
      rw [hnd]
      exact hfront
  | appendEntries args =>
    obtain ⟨out, ho, heq⟩ := Option.map_eq_some_iff.mp h
    cases heq
    obtain ⟨-, hnd, -⟩ | ⟨nd₁, hj, ⟨-, hnd, -⟩ | ⟨hprev, log, ops, back, hs, -, hnd⟩⟩ := appendEntries_cases ho
    · rwa [hnd]
    · intro f hf
      rw [hnd, hj.log] at hf
      rw [hnd, hj.lastApplied]
      exact hfront f hf
    · intro f hf
      rw [hnd] at hf ⊢
      exact hj.lastApplied ▸ hfront f (head_splice hprev hs ▸ hf)
  | appendEntriesReply nodeId arg reply =>
    obtain ⟨out, ho, heq⟩ := Option.map_eq_some_iff.mp h
    cases heq
    obtain ⟨-, hnd⟩ | ⟨-, -, -, _, _, _, _, -, -, -, hnd⟩ | ⟨_, hnd⟩ := handleAppendEntriesReply_cases ho
    all_goals
      rw [hnd]
      exact hfront
  | installSnapshot arg junk =>
    obtain ⟨out, ho, heq⟩ := Option.map_eq_some_iff.mp h
    cases heq
    exact frontApplied_installSnapshot hlog hfront ho
  | installSnapshotReply nodeId arg reply =>
    cases h
    obtain ⟨-, hnd⟩ | hnd | ⟨_, hnd⟩ := handleInstallSnapshotReply_cases nd nodeId arg reply
    all_goals
      rw [hnd]
      exact hfront
  | newCommand cmd =>
    obtain ⟨out, ho, heq⟩ := Option.map_eq_some_iff.mp h
    cases heq
    obtain ⟨back, hb, hnd⟩ := newCommand_cases ho
    intro f hf
    rw [hnd] at hf ⊢
    rw [List.head?_append_of_ne_nil _ (List.ne_nil_of_mem (List.mem_of_getLast? hb))] at hf
    exact hfront f hf
  | saveSnapshot =>
    obtain ⟨out, ho, heq⟩ := Option.map_eq_some_iff.mp h
    cases heq
    exact frontApplied_saveSnapshot hlog ho
  | election =>
    obtain ⟨out, ho, heq⟩ := Option.map_eq_some_iff.mp h
    cases heq
    obtain ⟨-, hnd, -⟩ | ⟨back, -, hnd, -⟩ := runBackgroundElection_cases ho
    · rwa [hnd]
    · rw [hnd]
      exact hfront
  | apply =>
    obtain ⟨out, ho, heq⟩ := Option.map_eq_some_iff.mp h
    cases heq
    obtain rfl | ⟨_, _, _, _, hlt, _, _, _, _, hst⟩ := runBackgroundApply_cases ho
    · exact hfront
    · intro f hf
      rw [hst] at hf ⊢
      exact (hfront f hf).trans hlt.le

theorem mem_tail_apply (hfront : FrontApplied nd) {out : RaftNode n Command St × Log Command}
    (h : runBackgroundApply nd = some out) {e : RaftLogEntry Command} (he : e ∈ out.2) : e ∈ nd.log.tail := by
  obtain rfl | ⟨front, back, hf, -, -, -, -, hout, -⟩ := runBackgroundApply_cases h
  · cases he
  · have hle := hfront front hf
    rw [hout, show (nd.lastApplied + 1 - front.index).toNat = (nd.lastApplied - front.index).toNat + 1 by omega,
      ← List.drop_drop, List.drop_one] at he
    exact mem_tail_drop (List.mem_of_mem_take he)

end Node

section Messages

variable {nd : RaftNode n Command St}

theorem mem_tail_commitMessage {i : Fin n} {args : AppendEntriesArgs Command}
    (hm : commitMessage nd i = some (some (.append args))) {e : RaftLogEntry Command} (he : e ∈ args.entries) :
    e ∈ nd.log.tail := by
  obtain ⟨front, -, hm⟩ := Option.bind_eq_some_iff.mp hm
  obtain ⟨back, -, hm⟩ := Option.bind_eq_some_iff.mp hm
  split at hm
  case isTrue => cases hm
  case isFalse =>
    split at hm
    case isFalse => cases hm
    case isTrue =>
      split at hm
      case isFalse => cases hm
      case isTrue hgt =>
        obtain ⟨prev, -, hm⟩ := Option.bind_eq_some_iff.mp hm
        cases hm
        have he' := List.mem_of_mem_take he
        rw [show (nd.nextIndex i - front.index).toNat = (nd.nextIndex i - front.index - 1).toNat + 1 by omega,
          ← List.drop_drop, List.drop_one] at he'
        exact mem_tail_drop he'

theorem pingMessage_entries {i : Fin n} {args : AppendEntriesArgs Command}
    (hm : pingMessage nd i = some (some (.append args))) : args.entries = [] := by
  obtain ⟨front, -, hm⟩ := Option.bind_eq_some_iff.mp hm
  split at hm
  case isTrue => cases hm
  case isFalse =>
    obtain ⟨prev, -, hm⟩ := Option.bind_eq_some_iff.mp hm
    cases hm
    rfl

end Messages

section Cluster

variable {c c' : Cluster n Command St} {e : RaftLogEntry Command}

/-- An entry that a node can send or apply, that is on its way, or that has
been applied. -/
def Present (c : Cluster n Command St) (e : RaftLogEntry Command) : Prop :=
  (∃ i, e ∈ (c.nodes i).log.tail) ∨
    (∃ s d args held, .appendRequest s d args held ∈ c.net ∧ e ∈ args.entries) ∨ ∃ i, (i, e) ∈ c.applied

def created (c : Cluster n Command St) : Action n Command → Option (RaftLogEntry Command)
  | .commandAppend k => do
    let call ← c.pending[k]?
    let out ← newCommand (c.nodes call.1) call.2
    some ⟨out.reply.2, out.reply.1, call.2⟩
  | _ => none

variable {a : Action n Command}

theorem present_brought {i : Fin n} {ev : Event n Command} (hev : event c a = some (i, ev))
    (he : e ∈ brought (c.nodes i) ev) : Present c e ∨ created c a = some e := by
  cases a with
  | deliver k junk =>
    obtain ⟨p, hp, hrec⟩ := Option.map_eq_some_iff.mp hev
    cases p with
    | appendRequest s d args held =>
      cases hrec
      exact Or.inl (Or.inr (Or.inl ⟨s, _, args, held, List.mem_of_getElem? hp, he⟩))
    | voteRequest | voteReply | appendReply | snapshotRequest | snapshotReply =>
      cases hrec
      cases he
  | commandAppend k =>
    obtain ⟨call, hcall, hrec⟩ := Option.map_eq_some_iff.mp hev
    cases hrec
    obtain ⟨out, hout, rfl⟩ := Option.map_eq_some_iff.mp (Option.mem_toList.mp he)
    refine Or.inr ?_
    rw [created, hcall, Option.bind_eq_bind, Option.bind_some, hout]
    rfl
  | election | apply | snapshot =>
    cases hev
    cases he
  | drop | commandTest | commit | ping | restart => cases hev

variable [ChfsStateMachine Command St]

theorem mem_applied_step (hs : c.step a = some c') {i : Fin n} (h : (i, e) ∈ c'.applied) :
    (i, e) ∈ c.applied ∨ ∃ out, runBackgroundApply (c.nodes i) = some out ∧ e ∈ out.2 := by
  cases a with
  | election i =>
    obtain ⟨out, -, hs⟩ := Option.bind_eq_some_iff.mp hs
    refine Or.inl ?_
    split at hs <;> cases hs <;> exact h
  | deliver k junk =>
    obtain ⟨p, -, hs⟩ := Option.bind_eq_some_iff.mp hs
    refine Or.inl ?_
    cases p with
    | snapshotReply =>
      cases hs
      exact h
    | voteRequest | voteReply | appendRequest | appendReply | snapshotRequest =>
      obtain ⟨out, -, hs⟩ := Option.bind_eq_some_iff.mp hs
      cases hs
      exact h
  | drop k =>
    cases hs
    exact Or.inl h
  | commandTest i cmd =>
    cases hs
    split at h <;> exact Or.inl h
  | commandAppend k =>
    obtain ⟨call, -, hs⟩ := Option.bind_eq_some_iff.mp hs
    obtain ⟨out, -, hs⟩ := Option.bind_eq_some_iff.mp hs
    cases hs
    exact Or.inl h
  | commit i | ping i | restart i =>
    obtain ⟨out, -, hs⟩ := Option.bind_eq_some_iff.mp hs
    cases hs
    exact Or.inl h
  | snapshot i =>
    obtain ⟨out, -, hs⟩ := Option.bind_eq_some_iff.mp hs
    obtain ⟨front, -, hs⟩ := Option.bind_eq_some_iff.mp hs
    cases hs
    exact Or.inl h
  | apply j =>
    obtain ⟨out, hout, hs⟩ := Option.bind_eq_some_iff.mp hs
    cases hs
    obtain h | h := List.mem_append.mp h
    · obtain ⟨x, hx, heq⟩ := List.mem_map.mp h
      cases heq
      exact Or.inr ⟨out, hout, hx⟩
    · exact Or.inl h

/-- No step shows an entry that was not there, except the one it creates. -/
theorem present_step (hlogs : LogsInv c) (hfront : ∀ i, FrontApplied (c.nodes i)) (hs : c.step a = some c')
    (h : Present c' e) : Present c e ∨ created c a = some e := by
  obtain ⟨i, hi⟩ | ⟨s, d, args, held, hp, he⟩ | ⟨i, hi⟩ := h
  · by_cases hr : ∃ j, a = .restart j
    · obtain ⟨j, rfl⟩ := hr
      obtain ⟨nd, hnd, hs⟩ := Option.bind_eq_some_iff.mp hs
      obtain ⟨front, -, hnd⟩ := Option.bind_eq_some_iff.mp hnd
      cases hnd
      cases hs
      refine Or.inl (Or.inl ⟨i, ?_⟩)
      by_cases hj : i = j
      · subst hj
        simpa only [Cluster.setNode, Function.update_self] using hi
      · simpa only [Cluster.setNode, Function.update_of_ne hj] using hi
    · obtain ⟨-, hn⟩ | ⟨j, ev, nd, ops, hev, hh, hn⟩ := step_event (fun j heq => hr ⟨j, heq⟩) hs
      · exact Or.inl (Or.inl ⟨i, hn ▸ hi⟩)
      · rw [hn] at hi
        by_cases hj : i = j
        · subst hj
          rw [Function.update_self] at hi
          obtain hi | hi := mem_tail_handle (hlogs.logs i) hh hi
          · exact Or.inl (Or.inl ⟨i, hi⟩)
          · exact present_brought hev hi
        · rw [Function.update_of_ne hj] at hi
          exact Or.inl (Or.inl ⟨i, hi⟩)
  · obtain hp | hm | hm := packet_of_step (m := .append args) hs hp
    · exact Or.inl (Or.inr (Or.inl ⟨s, d, args, held, hp, he⟩))
    · exact Or.inl (Or.inl ⟨s, mem_tail_commitMessage hm he⟩)
    · rw [pingMessage_entries hm] at he
      cases he
  · obtain hi | ⟨out, hout, he⟩ := mem_applied_step hs hi
    · exact Or.inl (Or.inr (Or.inr ⟨i, hi⟩))
    · exact Or.inl (Or.inl ⟨i, mem_tail_apply (hfront i) hout he⟩)

theorem frontApplied_step (hlogs : LogsInv c) (hfront : ∀ i, FrontApplied (c.nodes i)) (hs : c.step a = some c')
    (i : Fin n) : FrontApplied (c'.nodes i) := by
  by_cases hr : ∃ j, a = .restart j
  · obtain ⟨j, rfl⟩ := hr
    obtain ⟨nd, hnd, hs⟩ := Option.bind_eq_some_iff.mp hs
    obtain ⟨front, hf, hnd⟩ := Option.bind_eq_some_iff.mp hnd
    cases hnd
    cases hs
    by_cases hj : i = j
    · subst hj
      simp only [Cluster.setNode, Function.update_self]
      intro f hf'
      cases hf.symm.trans hf'
      exact le_refl _
    · simp only [Cluster.setNode, Function.update_of_ne hj]
      exact hfront i
  · obtain ⟨-, hn⟩ | ⟨j, ev, nd, ops, -, hh, hn⟩ := step_event (fun j heq => hr ⟨j, heq⟩) hs
    · exact hn ▸ hfront i
    · rw [hn]
      by_cases hj : i = j
      · subst hj
        rw [Function.update_self]
        exact frontApplied_handle (hlogs.logs i) (hfront i) hh
      · rw [Function.update_of_ne hj]
        exact hfront i

end Cluster

section Runs

variable [ChfsCommand Command] [ChfsStateMachine Command St]

/-- The runs of a cluster whose network may deliver a packet any number of
times. -/
abbrev Run (xs : List (Turn n Command)) (c : Cluster n Command St) : Prop :=
  Path (fun s x t => turn s x = some t) (init n Command St) xs c

def Tested (St : Type) [ChfsStateMachine Command St] (xs : List (Turn n Command)) (i : Fin n) (cmd : Command) :
    Prop :=
  ∃ ys zs, ∃ s : Cluster n Command St, xs = ys ++ .act (.commandTest i cmd) :: zs ∧ Run ys s ∧
    (s.nodes i).role = .leader ∧ .act (.restart i) ∉ zs

/-- In state `s`, after the turns `ys`, a call has the turn to append the entry
and answers with its term and index. -/
structure Proposes (ys : List (Turn n Command)) (s : Cluster n Command St) (k : ℕ) (e : RaftLogEntry Command) :
    Prop where
  run : Run ys s
  call : ∃ i, s.pending[k]? = some (i, e.cmd) ∧ Tested St ys i e.cmd ∧
    ∃ out ∈ newCommand (s.nodes i) e.cmd, out.reply = (e.term, e.index)

variable {c : Cluster n Command St} {xs : List (Turn n Command)}

theorem Tested.snoc {i : Fin n} {cmd : Command} (h : Tested St xs i cmd) {x : Turn n Command}
    (hx : x ≠ .act (.restart i)) : Tested St (xs ++ [x]) i cmd := by
  obtain ⟨ys, zs, s, rfl, hrun, hr, hzs⟩ := h
  refine ⟨ys, zs ++ [x], s, by simp, hrun, hr, fun hmem => ?_⟩
  obtain hmem | hmem := List.mem_append.mp hmem
  · exact hzs hmem
  · exact hx (List.mem_singleton.mp hmem).symm

theorem tested_of_run (h : Run xs c) : ∀ call ∈ c.pending, Tested St xs call.1 call.2 := by
  induction h with
  | nil =>
    intro call hcall
    exact absurd hcall List.not_mem_nil
  | @snoc s t xs x hrun hs ih =>
    intro call hcall
    cases x with
    | act a =>
      obtain ⟨hmem, hne⟩ | ⟨rfl, hr⟩ := mem_pending_step hs hcall
      · refine (ih call hmem).snoc fun heq => ?_
        cases heq
        exact hne rfl
      · exact ⟨xs, [], s, rfl, hrun, hr, List.not_mem_nil⟩
    | again k =>
      obtain ⟨p, -, hs⟩ := Option.map_eq_some_iff.mp hs
      subst hs
      exact (ih call hcall).snoc nofun

theorem inv_of_run (h : Run xs c) : LogsInv c ∧ ∀ i, FrontApplied (c.nodes i) := by
  refine h.invariant (I := fun _ c => LogsInv c ∧ ∀ i, FrontApplied (c.nodes i)) ⟨logsInv_init, fun i => ?_⟩
    fun _ s x t hinv hs => ⟨hinv.1.turn hs, ?_⟩
  · rintro f ⟨⟩
    exact le_refl _
  · cases x with
    | act a => exact frontApplied_step hinv.1 hinv.2 hs
    | again k =>
      obtain ⟨p, -, rfl⟩ := Option.map_eq_some_iff.mp hs
      exact hinv.2

theorem not_present_init (e : RaftLogEntry Command) : ¬ Present (init n Command St) e := by
  rintro (⟨i, hi⟩ | ⟨s, d, args, held, hp, -⟩ | ⟨i, hi⟩)
  · exact List.not_mem_nil hi
  · exact List.not_mem_nil hp
  · exact List.not_mem_nil hi

/-- In every run, whatever is lost, delayed or repeated, an entry that is in a
log, on its way or applied is the one that a call of `new_command`, which has
been submitted to a leader, has answered for. -/
theorem proposes_of_present (h : Run xs c) {e : RaftLogEntry Command} (he : Present c e) :
    ∃ ys k zs, ∃ s : Cluster n Command St, xs = ys ++ .act (.commandAppend k) :: zs ∧ Proposes ys s k e := by
  induction h with
  | nil => exact absurd he (not_present_init e)
  | @snoc s t xs x hrun hs ih =>
    have hold : Present s e → ∃ ys k zs, ∃ u : Cluster n Command St,
        xs ++ [x] = ys ++ .act (.commandAppend k) :: zs ∧ Proposes ys u k e := by
      intro hp
      obtain ⟨ys, k, zs, u, rfl, hu⟩ := ih hp
      exact ⟨ys, k, zs ++ [x], u, by simp, hu⟩
    obtain ⟨hlogs, hfront⟩ := inv_of_run hrun
    cases x with
    | again k =>
      obtain ⟨p, hk, rfl⟩ := Option.map_eq_some_iff.mp hs
      refine hold (he.imp_right (Or.imp_left ?_))
      rintro ⟨src, d, args, held, hp, hmem⟩
      obtain hp | hp := List.mem_append.mp hp
      · exact ⟨src, d, args, held, hp, hmem⟩
      · rw [← List.mem_singleton.mp hp] at hk
        exact ⟨src, d, args, held, List.mem_of_getElem? hk, hmem⟩
    | act a =>
      obtain hp | hc := present_step hlogs hfront hs he
      · exact hold hp
      · cases a with
        | commandAppend k =>
          obtain ⟨call, hcall, hc⟩ := Option.bind_eq_some_iff.mp hc
          obtain ⟨out, hout, hc⟩ := Option.bind_eq_some_iff.mp hc
          cases hc
          have htest := tested_of_run hrun call (List.mem_of_getElem? hcall)
          exact ⟨xs, k, [], s, rfl, hrun, call.1, hcall, htest, out, hout, rfl⟩
        | _ => cases hc

end Runs

/-- Node 1 has applied both commands of node 0; a packet is repeated. -/
theorem proposes_applyRun : ∃ xs, ∃ c : Cluster 3 ListCommand ListStateMachine, Run xs c ∧
    (1, ⟨2, 1, ⟨8⟩⟩) ∈ c.applied ∧ ∃ ys k zs, ∃ s : Cluster 3 ListCommand ListStateMachine,
      xs = ys ++ .act (.commandAppend k) :: zs ∧ Proposes ys s k ⟨2, 1, ⟨8⟩⟩ := by
  obtain ⟨c, hc⟩ : ∃ c, execOk turn (fun _ _ => true) (init 3 ListCommand ListStateMachine)
      (applyRun.map .act ++ [.again 0]) = some c := Option.isSome_iff_exists.mp (by decide +kernel)
  have hrun : Run _ c := Path.nil.execOk (fun _ _ _ _ hs => hs) hc
  have happ : (execOk turn (fun _ _ => true) (init 3 ListCommand ListStateMachine)
      (applyRun.map .act ++ [.again 0])).map (fun c => decide ((1, ⟨2, 1, ⟨8⟩⟩) ∈ c.applied)) = some true := by
    decide +kernel
  rw [hc] at happ
  simp only [Option.map_some, Option.some.injEq, decide_eq_true_eq] at happ
  exact ⟨_, c, hrun, happ, proposes_of_present hrun (Or.inr (Or.inr ⟨1, happ⟩))⟩

end Chfs.Raft.Proposals
