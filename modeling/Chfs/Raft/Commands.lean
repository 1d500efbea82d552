import Chfs.Raft.Disks

namespace Chfs.Raft.Commands

open Protocol Node Handlers Network Lib.Run
open Persistence (Event handle)
open Disks (event adopts step_event)

variable {n : ℕ} {Command St : Type}

def told : Event n Command → Option ℤ
  | .appendEntriesReply _ _ reply => some reply.term
  | e => adopts e

/-- No later term is shown to a node one of whose calls of `new_command` has
tested the role and has not appended its entry yet. -/
def Undisturbed (c : Cluster n Command St) (a : Action n Command) : Prop :=
  ∀ x ∈ event c a, (∀ t ∈ told x.2, t ≤ (c.nodes x.1).currentTerm) ∨ ∀ call ∈ c.pending, call.1 ≠ x.1

instance (c : Cluster n Command St) (a : Action n Command) : Decidable (Undisturbed c a) :=
  inferInstanceAs (Decidable (∀ x ∈ event c a,
    (∀ t ∈ told x.2, t ≤ (c.nodes x.1).currentTerm) ∨ ∀ call ∈ c.pending, call.1 ≠ x.1))

/-- An append of `new_command` creates an entry of the term its node leads. -/
def LeaderCreates (c : Cluster n Command St) : Action n Command → Prop
  | .commandAppend k => ∀ call ∈ c.pending[k]?, ∀ out ∈ newCommand (c.nodes call.1) call.2,
    ∃ e, out.node.log = (c.nodes call.1).log ++ [e] ∧ out.reply = (e.term, e.index) ∧
      (c.nodes call.1).role = .leader ∧ (c.nodes call.1).currentTerm = e.term
  | _ => True

theorem joins_leader {nd nd' : RaftNode n Command St} {t : ℤ} (hr : nd.role = .leader)
    (ht : t ≤ nd.currentTerm) (h : Joins nd t nd') : nd' = nd := by
  cases h with
  | stay => rfl
  | later hlt => exact absurd hlt (not_lt.mpr ht)
  | yield _ hc =>
    rw [hr] at hc
    cases hc

section Step

variable [ChfsStateMachine Command St] {nd nd' : RaftNode n Command St} {c c' : Cluster n Command St}
  {a : Action n Command}

theorem leader_handle {e : Event n Command} {ops : List (StorageOp Command)} (hr : nd.role = .leader)
    (hle : ∀ t ∈ told e, t ≤ nd.currentTerm) (h : handle nd e = some (nd', ops)) :
    nd'.role = .leader := by
  cases e with
  | requestVote args =>
    obtain ⟨out, ho, heq⟩ := Option.map_eq_some_iff.mp h
    cases heq
    obtain ⟨hnd, -⟩ | ⟨nd₁, back, hj, -, -, ⟨hnd, -⟩ | ⟨-, -, hnd, -⟩⟩ := requestVote_cases ho
    · rwa [hnd]
    · rwa [hnd, joins_leader hr (hle _ rfl) hj]
    · rwa [hnd, joins_leader hr (hle _ rfl) hj]
  | requestVoteReply target arg reply =>
    obtain ⟨out, ho, heq⟩ := Option.map_eq_some_iff.mp h
    cases heq
    obtain ⟨hlt, -⟩ | hnd | ⟨-, hc, -⟩ := handleRequestVoteReply_cases ho
    · exact absurd hlt (not_lt.mpr (hle _ rfl))
    · rwa [hnd]
    · rw [hr] at hc
      cases hc
  | appendEntries args =>
    obtain ⟨out, ho, heq⟩ := Option.map_eq_some_iff.mp h
    cases heq
    obtain ⟨-, hnd, -⟩ | ⟨nd₁, hj, ⟨-, hnd, -⟩ | ⟨-, log, ops, back, -, -, hnd⟩⟩ :=
      appendEntries_cases ho
    · rwa [hnd]
    · rwa [hnd, joins_leader hr (hle _ rfl) hj]
    · rwa [hnd, joins_leader hr (hle _ rfl) hj]
  | appendEntriesReply nodeId arg reply =>
    obtain ⟨out, ho, heq⟩ := Option.map_eq_some_iff.mp h
    cases heq
    obtain ⟨hlt, -⟩ | ⟨-, -, -, _, _, _, _, -, -, -, hnd⟩ | ⟨_, hnd⟩ :=
      handleAppendEntriesReply_cases ho
    · exact absurd hlt (not_lt.mpr (hle _ rfl))
    · rwa [hnd]
    · rwa [hnd]
  | installSnapshot arg junk =>
    obtain ⟨out, ho, heq⟩ := Option.map_eq_some_iff.mp h
    cases heq
    obtain ⟨-, hnd⟩ | ⟨nd₁, front, hit, hj, -, -, hnd⟩ := installSnapshot_cases ho
    · rwa [hnd]
    · rwa [hnd, joins_leader hr (hle _ rfl) hj]
  | installSnapshotReply nodeId arg reply =>
    cases h
    obtain ⟨hlt, -⟩ | hnd | ⟨_, hnd⟩ := handleInstallSnapshotReply_cases nd nodeId arg reply
    · exact absurd hlt (not_lt.mpr (hle _ rfl))
    · rwa [hnd]
    · rwa [hnd]
  | newCommand cmd =>
    obtain ⟨out, ho, heq⟩ := Option.map_eq_some_iff.mp h
    cases heq
    obtain ⟨back, -, hnd⟩ := newCommand_cases ho
    rwa [hnd]
  | saveSnapshot =>
    obtain ⟨out, ho, heq⟩ := Option.map_eq_some_iff.mp h
    cases heq
    obtain ⟨_, _, _, _, -, -, -, hnd⟩ := saveSnapshot_cases ho
    rwa [hnd]
  | election =>
    obtain ⟨out, ho, heq⟩ := Option.map_eq_some_iff.mp h
    cases heq
    rw [runBackgroundElection, if_pos hr] at ho
    cases ho
    exact hr
  | apply =>
    obtain ⟨out, ho, heq⟩ := Option.map_eq_some_iff.mp h
    cases heq
    obtain rfl | ⟨_, _, _, _, _, _, _, _, _, hst⟩ := runBackgroundApply_cases ho
    · exact hr
    · rwa [hst]

theorem mem_pending_step (hs : c.step a = some c') {call : Fin n × Command} (h : call ∈ c'.pending) :
    (call ∈ c.pending ∧ a ≠ .restart call.1) ∨
      (a = .commandTest call.1 call.2 ∧ (c.nodes call.1).role = .leader) := by
  cases a with
  | election i =>
    obtain ⟨out, -, hs⟩ := Option.bind_eq_some_iff.mp hs
    refine Or.inl ⟨?_, nofun⟩
    split at hs <;> cases hs <;> exact h
  | deliver k junk =>
    obtain ⟨p, -, hs⟩ := Option.bind_eq_some_iff.mp hs
    refine Or.inl ⟨?_, nofun⟩
    cases p with
    | snapshotReply =>
      cases hs
      exact h
    | voteRequest | voteReply | appendRequest | appendReply | snapshotRequest =>
      obtain ⟨out, -, hs⟩ := Option.bind_eq_some_iff.mp hs
      cases hs
      exact h
  | drop k =>
    cases hs
    exact Or.inl ⟨h, nofun⟩
  | commandTest i cmd =>
    cases hs
    split at h
    case isTrue hr =>
      obtain rfl | h := List.mem_cons.mp h
      · exact Or.inr ⟨rfl, hr⟩
      · exact Or.inl ⟨h, nofun⟩
    case isFalse => exact Or.inl ⟨h, nofun⟩
  | commandAppend k =>
    obtain ⟨call', -, hs⟩ := Option.bind_eq_some_iff.mp hs
    obtain ⟨out, -, hs⟩ := Option.bind_eq_some_iff.mp hs
    cases hs
    exact Or.inl ⟨List.mem_of_mem_eraseIdx h, nofun⟩
  | commit i | ping i | apply i =>
    obtain ⟨out, -, hs⟩ := Option.bind_eq_some_iff.mp hs
    cases hs
    exact Or.inl ⟨h, nofun⟩
  | snapshot i =>
    obtain ⟨out, -, hs⟩ := Option.bind_eq_some_iff.mp hs
    obtain ⟨front, -, hs⟩ := Option.bind_eq_some_iff.mp hs
    cases hs
    exact Or.inl ⟨h, nofun⟩
  | restart i =>
    obtain ⟨nd, -, hs⟩ := Option.bind_eq_some_iff.mp hs
    cases hs
    obtain ⟨hmem, hne⟩ := List.mem_filter.mp h
    refine Or.inl ⟨hmem, ?_⟩
    rintro ⟨⟩
    simp at hne

theorem pending_leader_step (h : ∀ call ∈ c.pending, (c.nodes call.1).role = .leader)
    (ha : Undisturbed c a) (hs : c.step a = some c') :
    ∀ call ∈ c'.pending, (c'.nodes call.1).role = .leader := by
  intro call hcall
  by_cases hres : ∃ i, a = .restart i
  · obtain ⟨i, rfl⟩ := hres
    obtain ⟨hmem, hne⟩ | ⟨⟨⟩, -⟩ := mem_pending_step hs hcall
    obtain ⟨nd, -, hs⟩ := Option.bind_eq_some_iff.mp hs
    cases hs
    have hi : call.1 ≠ i := fun heq => hne (heq ▸ rfl)
    simp only [Cluster.setNode, Function.update_of_ne hi]
    exact h call hmem
  · obtain ⟨-, hn⟩ | ⟨i, e, nd, ops, he, hh, hn⟩ := step_event (fun i heq => hres ⟨i, heq⟩) hs
    · rw [hn]
      obtain ⟨hmem, -⟩ | ⟨-, hr⟩ := mem_pending_step hs hcall
      · exact h call hmem
      · exact hr
    · have hmem : call ∈ c.pending := by
        obtain ⟨hmem, -⟩ | ⟨rfl, -⟩ := mem_pending_step hs hcall
        · exact hmem
        · cases he
      rw [hn]
      by_cases hi : call.1 = i
      · rw [hi, Function.update_self]
        obtain hle | hnone := ha _ he
        · exact leader_handle (hi ▸ h call hmem) hle hh
        · exact absurd hi (hnone call hmem)
      · rw [Function.update_of_ne hi]
        exact h call hmem

end Step

section Runs

variable [ChfsCommand Command] [ChfsStateMachine Command St] {c : Cluster n Command St}

/-- In a run in which no waiting call is overtaken by a later term, only the
leader of a term creates its entries. -/
theorem leaderCreates_of_undisturbed (h : Reachable Undisturbed c) (a : Action n Command) :
    LeaderCreates c a := by
  have hlead : ∀ call ∈ c.pending, (c.nodes call.1).role = .leader :=
    h.invariant (I := fun c => ∀ call ∈ c.pending, (c.nodes call.1).role = .leader)
      (fun call hcall => absurd hcall List.not_mem_nil)
      fun _ _ _ hi ha hs => pending_leader_step hi ha hs
  cases a with
  | commandAppend k =>
    intro call hcall out hout
    obtain ⟨back, hb, hout⟩ := Option.bind_eq_some_iff.mp hout
    obtain ⟨nxt, -, hout⟩ := Option.bind_eq_some_iff.mp hout
    cases hout
    exact ⟨_, rfl, rfl, hlead call (List.mem_of_getElem? hcall), rfl⟩
  | _ => trivial

end Runs

def waitingRun : List (Action 3 ListCommand) :=
  [.election 0, .deliver 0 ⟨0⟩, .deliver 1 ⟨0⟩, .commandTest 0 ⟨7⟩]

theorem leaderCreates_waitingRun : ∃ c : Cluster 3 ListCommand ListStateMachine,
    Reachable Undisturbed c ∧ LeaderCreates c (.commandAppend 0) := by
  obtain ⟨c, hc⟩ : ∃ c, execOk Cluster.step (fun c a => decide (Undisturbed c a))
      (init 3 ListCommand ListStateMachine) waitingRun = some c :=
    Option.isSome_iff_exists.mp (by decide +kernel)
  have hr : Reachable Undisturbed c := reach_of_execOk (fun s a h => of_decide_eq_true h) hc
  exact ⟨c, hr, leaderCreates_of_undisturbed hr _⟩

def overtakenRun : List (Action 3 ListCommand) := waitingRun ++ [.election 1, .deliver 1 ⟨0⟩]

theorem not_leaderCreates_overtakenRun : ¬ ∀ (c : Cluster 3 ListCommand ListStateMachine)
    (a : Action 3 ListCommand), Reachable (fun _ _ => True) c → LeaderCreates c a := by
  intro hall
  obtain ⟨c, hc⟩ : ∃ c, exec Cluster.step (init 3 ListCommand ListStateMachine) overtakenRun = some c :=
    Option.isSome_iff_exists.mp (by decide +kernel)
  have hval : (exec Cluster.step (init 3 ListCommand ListStateMachine) overtakenRun).map (fun c =>
      (c.pending[0]?, (c.nodes 0).role, (newCommand (c.nodes 0) ⟨7⟩).isSome)) =
      some (some (0, ⟨7⟩), .follower, true) := by decide +kernel
  rw [hc, Option.map_some, Option.some.injEq, Prod.mk.injEq, Prod.mk.injEq] at hval
  obtain ⟨hp, hrole, hout⟩ := hval
  obtain ⟨out, hout⟩ := Option.isSome_iff_exists.mp hout
  obtain ⟨e, -, -, hlead, -⟩ := hall c (.commandAppend 0) (reach_of_exec hc) _ hp out hout
  rw [hrole] at hlead
  cases hlead

end Chfs.Raft.Commands
