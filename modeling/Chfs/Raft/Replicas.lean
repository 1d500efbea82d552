import Chfs.Raft.Snapshots
import Chfs.Raft.StateMachineSafety

namespace Chfs.Raft.Replicas

open Protocol Node Handlers Network FullLog Replication Election Matching LogSafety Counting Acceptance
  StateMachineSafety Snapshots
open Lib.Run Lib.Quorum Lib.LeaderLog Lib.Ballot

variable {n : ℕ}

def storeOf (l : Log ListCommand) : List ℤ :=
  (ChfsStateMachine.create : ListStateMachine).store ++ l.map (·.cmd.value)

/-- The store of a node has the entries up to `lastApplied`, and its snapshot
those that it covers. -/
structure NodeStores (nd : RaftNode n ListCommand ListStateMachine) (covered : Log ListCommand) : Prop where
  state : nd.state.store = storeOf ((covered ++ nd.log.tail).take nd.lastApplied.toNat)
  snapshot : snapshotStore nd.snapshot = storeOf covered

def PacketStores : Packet n ListCommand → Prop
  | .snapshotRequest _ _ args held =>
    snapshotStore args.snapshot = storeOf (held.take args.lastIncludedIndex.toNat)
  | _ => True

structure Stores (c : Cluster n ListCommand ListStateMachine) : Prop where
  nodes : ∀ i, NodeStores (c.nodes i) (c.covered i)
  packets : ∀ p ∈ c.net, PacketStores p

/-- The snapshot that a node installs has been taken: a leader that has not
compacted its log yet sends an empty one. -/
def Compacted (_ : Cluster n ListCommand ListStateMachine) : Packet n ListCommand → Prop
  | .snapshotRequest _ _ args _ => ¬ args.snapshot.isEmpty
  | _ => True

instance (c : Cluster n ListCommand ListStateMachine) (p : Packet n ListCommand) : Decidable (Compacted c p) :=
  match p with
  | .snapshotRequest _ _ args _ => inferInstanceAs (Decidable (¬ args.snapshot.isEmpty))
  | .voteRequest _ _ _ | .voteReply _ _ _ _ | .appendRequest _ _ _ _ | .appendReply _ _ _ _
  | .snapshotReply _ _ _ _ => .isTrue trivial

/-- The steps of a run in which, besides, no empty snapshot is installed. -/
def StoresKept (c : Cluster n ListCommand ListStateMachine) (a : Action n ListCommand) : Prop :=
  CommitsKept c a ∧ OnDeliver Compacted c a

instance (c : Cluster n ListCommand ListStateMachine) (a : Action n ListCommand) : Decidable (StoresKept c a) :=
  inferInstanceAs (Decidable (_ ∧ _))

section Settled

variable {a : State (Fin n) (RaftLogEntry ListCommand)} {nd nd' : RaftNode n ListCommand ListStateMachine}
  {covered covered' : Log ListCommand}

/-- Two nodes hold the same entries as far as both have committed them. -/
theorem take_eq_of_settled (hinv : Inv RaftLogEntry.term a) (h : NodeSettled a nd covered)
    (h' : NodeSettled a nd' covered') {m : ℤ} (hm : m ≤ nd.commitIndex) (hm' : m ≤ nd'.commitIndex) :
    (covered ++ nd.log.tail).take m.toNat = (covered' ++ nd'.log.tail).take m.toNat := by
  have h1 := h.commit
  have h2 := h'.commit
  have hlen : m.toNat ≤ ((covered ++ nd.log.tail).take nd.commitIndex.toNat).length := by
    rw [List.length_take]
    omega
  have hlen' : m.toNat ≤ ((covered' ++ nd'.log.tail).take nd'.commitIndex.toNat).length := by
    rw [List.length_take]
    omega
  have heq : ((covered ++ nd.log.tail).take nd.commitIndex.toNat).take m.toNat =
      ((covered' ++ nd'.log.tail).take nd'.commitIndex.toNat).take m.toNat := by
    obtain ⟨r, hr⟩ | ⟨r, hr⟩ := h.chosen.comparable hinv h'.chosen
    · rw [← hr, List.take_append_of_le_length hlen]
    · rw [← hr, List.take_append_of_le_length hlen']
  rw [List.take_take, List.take_take] at heq
  rwa [Nat.min_eq_left (by omega), Nat.min_eq_left (by omega)] at heq

theorem NodeStores.frame (h : NodeStores nd covered) (hinv : Inv RaftLogEntry.term a)
    (hs : NodeSettled a nd covered) (hs' : NodeSettled a nd' covered) (hst : nd'.state = nd.state)
    (hla : nd'.lastApplied = nd.lastApplied) (hsnap : nd'.snapshot = nd.snapshot) : NodeStores nd' covered := by
  refine ⟨?_, hsnap ▸ h.snapshot⟩
  rw [hst, h.state, hla, take_eq_of_settled hinv hs hs' hs.applied (hla ▸ hs'.applied)]

end Settled

section Node

variable {nd : RaftNode n ListCommand ListStateMachine} {covered : Log ListCommand}

theorem storeOf_append (l r : Log ListCommand) : storeOf (l ++ r) = storeOf l ++ r.map (·.cmd.value) := by
  unfold storeOf
  rw [List.map_append, List.append_assoc]

theorem joins_state {nd' : RaftNode n ListCommand ListStateMachine} {t : ℤ} (h : Joins nd t nd') :
    nd'.state = nd.state := by cases h <;> rfl

theorem nodeStores_apply (hrep : LogRep covered nd.log) (hfront : covered.length ≤ nd.lastApplied)
    (h : NodeStores nd covered) {out : RaftNode n ListCommand ListStateMachine × Log ListCommand}
    (hout : runBackgroundApply nd = some out) : NodeStores out.1 covered := by
  obtain ⟨front, hf, hout⟩ := Option.bind_eq_some_iff.mp hout
  obtain ⟨back, hb, hout⟩ := Option.bind_eq_some_iff.mp hout
  split at hout
  case isTrue hlt =>
    split at hout
    case isTrue hc =>
      cases hout
      refine ⟨?_, h.snapshot⟩
      obtain ⟨k, hk⟩ : ∃ k : ℕ, nd.lastApplied = covered.length + k :=
        ⟨(nd.lastApplied - covered.length).toNat, by omega⟩
      simp only
      rw [foldl_applyLog, h.state, ← storeOf_append, (hrep.head hf).1,
        show (nd.lastApplied + 1 - (covered.length : ℤ)).toNat = k + 1 by omega, hrep.drop_succ,
        show covered.length + k = nd.lastApplied.toNat by omega, ← List.take_add]
      congr 2
      omega
    case isFalse => cases hout
  case isFalse =>
    cases hout
    exact h

/-- A snapshot covers exactly what has been applied. -/
theorem saveSnapshot_front (hrep : LogRep covered nd.log) (hle : nd.lastApplied ≤ (covered ++ nd.log.tail).length)
    {out : Outcome n ListCommand ListStateMachine Bool} (hout : saveSnapshot nd = some out)
    {front : RaftLogEntry ListCommand} (hf : out.node.log.head? = some front) : front.index = nd.lastApplied := by
  obtain ⟨fr, back, lastLog, log, hfr, hb, ⟨-, hat, hlog⟩ | ⟨hlt, -, -⟩, hnd⟩ := saveSnapshot_cases hout
  · rw [(hrep.head hfr).1] at hat hlog
    obtain ⟨m, hm, h1, -, hidx, -⟩ := hrep.at? hat
    obtain ⟨k, hk, hget⟩ := at?_eq_some hat
    have hhead : log.head? = some lastLog := by rw [hlog, List.head?_drop, hk, Int.toNat_natCast, hget]
    have hne : ¬ log.isEmpty := by
      intro hnil
      rw [List.isEmpty_iff.mp hnil] at hhead
      cases hhead
    rw [hnd] at hf
    simp only [if_neg hne] at hf
    cases hhead.symm.trans hf
    exact hidx.trans hm.symm
  · rw [(hrep.last hb).1] at hlt
    omega

theorem nodeStores_saveSnapshot (hrep : LogRep covered nd.log)
    (hle : nd.lastApplied ≤ (covered ++ nd.log.tail).length) (h : NodeStores nd covered)
    {out : Outcome n ListCommand ListStateMachine Bool} (hout : saveSnapshot nd = some out)
    {front : RaftLogEntry ListCommand} (hf : out.node.log.head? = some front) :
    NodeStores out.node ((covered ++ nd.log.tail).take front.index.toNat) := by
  obtain ⟨-, hfull⟩ := saveSnapshot_full hrep hout hf
  have hidx := saveSnapshot_front hrep hle hout hf
  obtain ⟨_, _, lastLog, log, -, -, -, hnd⟩ := saveSnapshot_cases hout
  have hst : out.node.state = nd.state ∧ out.node.lastApplied = nd.lastApplied ∧
      out.node.snapshot = ChfsStateMachine.snapshot nd.state := by rw [hnd]; exact ⟨rfl, rfl, rfl⟩
  refine ⟨?_, ?_⟩
  · rw [hfull, hst.1, hst.2.1, h.state]
  · rw [hst.2.2, snapshotStore, if_neg (by simpa using snapshot_ne_nil nd.state), applySnapshot_snapshot,
      h.state, hidx]

theorem nodeStores_recover (hrep : LogRep covered nd.log) (h : NodeStores nd covered) {i : Fin n}
    {nd' : RaftNode n ListCommand ListStateMachine}
    (hr : RaftNode.recover i nd.currentTerm nd.votedFor nd.log nd.snapshot = some nd') :
    NodeStores nd' covered := by
  obtain ⟨front, hf, hr⟩ := Option.bind_eq_some_iff.mp hr
  cases hr
  refine ⟨?_, h.snapshot⟩
  simp only
  rw [(hrep.head hf).1, Int.toNat_natCast, List.take_left, ← h.snapshot, snapshotStore]
  split <;> rfl

theorem nodeStores_installSnapshot {held : Log ListCommand} {args : InstallSnapshotArgs}
    (hp : snapshotStore args.snapshot = storeOf (held.take args.lastIncludedIndex.toNat))
    (hfit : SnapshotFits held args) (hne : ¬ args.snapshot.isEmpty) {nd' : RaftNode n ListCommand ListStateMachine}
    (hstate : nd'.state = ChfsStateMachine.applySnapshot nd.state args.snapshot)
    (hsnap : nd'.snapshot = args.snapshot) (hla : nd'.lastApplied = args.lastIncludedIndex) :
    NodeStores nd' (held.take args.lastIncludedIndex.toNat) := by
  obtain ⟨b, hb, hbl, -⟩ := hfit
  refine ⟨?_, hsnap ▸ hp⟩
  have hlen : (held.take args.lastIncludedIndex.toNat).length = args.lastIncludedIndex.toNat := by
    rw [List.length_take]
    omega
  rw [hla, List.take_append_of_le_length (by rw [hlen]), List.take_of_length_le (by rw [hlen]), ← hp,
    snapshotStore, if_neg hne, hstate]
  rfl

end Node

section Step

variable {c c' : Cluster n ListCommand ListStateMachine} {lead : Leads (RaftLogEntry ListCommand)}
  {acc : Fin n → ℤ → ℕ} {a : State (Fin n) (RaftLogEntry ListCommand)} {i : Fin n}
  {nd : RaftNode n ListCommand ListStateMachine}

theorem Stores.move (h : Stores c) (cov : Log ListCommand) (hnd : NodeStores nd cov)
    (hn : c'.nodes = Function.update c.nodes i nd) (hc : c'.covered = Function.update c.covered i cov)
    (hp : ∀ p ∈ c'.net, p ∈ c.net ∨ PacketStores p) : Stores c' := by
  refine ⟨fun j => ?_, fun p hpn => (hp p hpn).elim (h.packets p) id⟩
  rw [hn, hc]
  by_cases hj : j = i
  · subst hj
    simpa using hnd
  · simpa [hj] using h.nodes j

theorem Stores.net (h : Stores c) (hn : c'.nodes = c.nodes) (hc : c'.covered = c.covered)
    (hp : ∀ p ∈ c'.net, p ∈ c.net ∨ PacketStores p) : Stores c' :=
  ⟨hn ▸ hc ▸ h.nodes, fun p hpn => (hp p hpn).elim (h.packets p) id⟩

theorem Stores.frame (h : Stores c) (hinv : Inv RaftLogEntry.term a) (hs : Settled a c) (hs' : Settled a c')
    (hst : nd.state = (c.nodes i).state) (hla : nd.lastApplied = (c.nodes i).lastApplied)
    (hsnap : nd.snapshot = (c.nodes i).snapshot) (hn : c'.nodes = Function.update c.nodes i nd)
    (hc : c'.covered = c.covered) (hp : ∀ p ∈ c'.net, p ∈ c.net ∨ PacketStores p) : Stores c' := by
  have hs'' := hs'.nodes i
  rw [hn, hc, Function.update_self] at hs''
  exact h.move _ ((h.nodes i).frame hinv (hs.nodes i) hs'' hst hla hsnap) hn
    (by rw [hc, Function.update_eq_self]) hp

theorem packetStores_packet (hrep : LogRep (c.covered i) (c.nodes i).log) (h : Stores c)
    {m : Fin n × Message ListCommand} (hm : commitMessage (c.nodes i) m.1 = some (some m.2) ∨
      pingMessage (c.nodes i) m.1 = some (some m.2)) : PacketStores (packet i (c.full i) m) := by
  obtain ⟨j, args | args⟩ := m
  · trivial
  obtain hm | hm := hm
  · obtain ⟨front, hf, hm⟩ := Option.bind_eq_some_iff.mp hm
    obtain ⟨back, hb, hm⟩ := Option.bind_eq_some_iff.mp hm
    split at hm
    case isTrue => cases hm
    case isFalse =>
      split at hm
      case isTrue =>
        split at hm
        case isTrue =>
          obtain ⟨prev, -, hm⟩ := Option.bind_eq_some_iff.mp hm
          cases hm
        case isFalse =>
          cases hm
          change snapshotStore (c.nodes i).snapshot = storeOf ((c.full i).take front.index.toNat)
          rw [(hrep.head hf).1, Int.toNat_natCast, Cluster.full, List.take_left]
          exact (h.nodes i).snapshot
      case isFalse => cases hm
  · obtain ⟨front, -, hm⟩ := Option.bind_eq_some_iff.mp hm
    split at hm
    case isTrue => cases hm
    case isFalse =>
      obtain ⟨prev, -, hm⟩ := Option.bind_eq_some_iff.mp hm
      cases hm

theorem mem_runBackground {nd : RaftNode n ListCommand ListStateMachine}
    {ms : List (Fin n × Message ListCommand)} {m : Fin n × Message ListCommand}
    (hms : runBackgroundCommit nd = some ms ∨ runBackgroundPing nd = some ms) (hm : m ∈ ms) :
    commitMessage nd m.1 = some (some m.2) ∨ pingMessage nd m.1 = some (some m.2) := by
  obtain hms | hms := hms
  · unfold runBackgroundCommit at hms
    split at hms
    case isTrue => exact Or.inl (mem_broadcast hms hm)
    case isFalse =>
      cases hms
      cases hm
  · unfold runBackgroundPing at hms
    split at hms
    case isTrue => exact Or.inr (mem_broadcast hms hm)
    case isFalse =>
      cases hms
      cases hm

theorem Stores.handle {k : ℕ} {junk : ListCommand} (hacc : AccInv c lead acc) (h : Stores c)
    (hinv : Inv RaftLogEntry.term a) (hs : Settled a c) (hs' : Settled a c') {p : Packet n ListCommand}
    (hp : p ∈ c.net) (hne : Compacted c p)
    (hstep : { c with net := c.net.eraseIdx k }.handle junk p = some c') : Stores c' := by
  have hpk := h.packets p hp
  have hheld := hacc.logs.packets p hp
  have hold : ∀ q ∈ c.net.eraseIdx k, q ∈ c.net ∨ PacketStores q :=
    fun q hq => Or.inl (List.mem_of_mem_eraseIdx hq)
  have hsend : ∀ {r : Packet n ListCommand}, PacketStores r → ∀ q ∈ c.net.eraseIdx k ++ [r],
      q ∈ c.net ∨ PacketStores q := by
    intro r hr q hq
    obtain hq | hq := List.mem_append.mp hq
    · exact hold q hq
    · rw [List.mem_singleton.mp hq]
      exact Or.inr hr
  cases p with
  | voteRequest s d args =>
    obtain ⟨out, hout, hstep⟩ := Option.bind_eq_some_iff.mp hstep
    cases hstep
    obtain ⟨hnd, -⟩ | ⟨nd₁, _, hj, -, -, ⟨hnd, -⟩ | ⟨-, -, hnd, -⟩⟩ := requestVote_cases hout
    · exact h.frame hinv hs hs' (by rw [hnd]) (by rw [hnd]) (by rw [hnd]) rfl rfl (hsend trivial)
    · have hst : nd₁.state = (c.nodes d).state := joins_state hj
      exact h.frame hinv hs hs' (by rw [hnd]; exact hst) (by rw [hnd]; exact hj.lastApplied)
        (by rw [hnd]; exact hj.snapshot) rfl rfl (hsend trivial)
    · have hst : nd₁.state = (c.nodes d).state := joins_state hj
      exact h.frame hinv hs hs' (by rw [hnd]; exact hst) (by rw [hnd]; exact hj.lastApplied)
        (by rw [hnd]; exact hj.snapshot) rfl rfl (hsend trivial)
  | voteReply s d args reply =>
    obtain ⟨out, hout, hstep⟩ := Option.bind_eq_some_iff.mp hstep
    cases hstep
    have hframe : out.node.state = (c.nodes s).state ∧ out.node.lastApplied = (c.nodes s).lastApplied ∧
        out.node.snapshot = (c.nodes s).snapshot := by
      obtain ⟨-, hnd⟩ | hnd | ⟨-, -, -, -, nd₁, rfl, ⟨-, hnd⟩ | ⟨-, hlead⟩⟩ :=
        handleRequestVoteReply_cases hout
      · rw [hnd]
        exact ⟨rfl, rfl, rfl⟩
      · rw [hnd]
        exact ⟨rfl, rfl, rfl⟩
      · rw [hnd]
        exact ⟨rfl, rfl, rfl⟩
      · obtain ⟨_, -, hnd⟩ := becomeLeader_cases hlead
        rw [hnd]
        exact ⟨rfl, rfl, rfl⟩
    exact h.frame hinv hs hs' hframe.1 hframe.2.1 hframe.2.2 rfl rfl hold
  | appendRequest s d args held =>
    obtain ⟨out, hout, hstep⟩ := Option.bind_eq_some_iff.mp hstep
    cases hstep
    have hframe : out.node.state = (c.nodes d).state ∧ out.node.lastApplied = (c.nodes d).lastApplied ∧
        out.node.snapshot = (c.nodes d).snapshot := by
      obtain ⟨-, hnd, -⟩ | ⟨nd₁, hj, ⟨-, hnd, -⟩ | ⟨-, log, ops, back, -, -, hnd⟩⟩ := appendEntries_cases hout
      · rw [hnd]
        exact ⟨rfl, rfl, rfl⟩
      · rw [hnd]
        exact ⟨joins_state hj, hj.lastApplied, hj.snapshot⟩
      · have hst : nd₁.state = (c.nodes d).state := joins_state hj
        rw [hnd]
        exact ⟨hst, hj.lastApplied, hj.snapshot⟩
    exact h.frame hinv hs hs' hframe.1 hframe.2.1 hframe.2.2 rfl rfl (hsend trivial)
  | appendReply s d args reply =>
    obtain ⟨out, hout, hstep⟩ := Option.bind_eq_some_iff.mp hstep
    cases hstep
    have hframe : out.node.state = (c.nodes s).state ∧ out.node.lastApplied = (c.nodes s).lastApplied ∧
        out.node.snapshot = (c.nodes s).snapshot := by
      obtain ⟨-, hnd⟩ | ⟨-, -, -, _, _, _, _, -, -, -, hnd⟩ | ⟨next, hnd⟩ := handleAppendEntriesReply_cases hout
      all_goals
        rw [hnd]
        exact ⟨rfl, rfl, rfl⟩
    exact h.frame hinv hs hs' hframe.1 hframe.2.1 hframe.2.2 rfl rfl hold
  | snapshotRequest s d args held =>
    obtain ⟨out, hout, hstep⟩ := Option.bind_eq_some_iff.mp hstep
    cases hstep
    by_cases hlt : args.term < (c.nodes d).currentTerm
    · have hnd : out.node = c.nodes d := by
        obtain ⟨-, hnd⟩ | ⟨_, _, _, hj, -⟩ := installSnapshot_cases hout
        · exact hnd
        · exact absurd hlt (not_lt.mpr hj.term_le)
      exact h.frame hinv hs hs' (by rw [hnd]) (by rw [hnd]) (by rw [hnd]) rfl (if_pos hlt) (hsend trivial)
    · obtain ⟨hlt', -⟩ | ⟨nd₁, front, hit, hj, -, -, hnd⟩ := installSnapshot_cases hout
      · exact absurd hlt' hlt
      · have hst : nd₁.state = (c.nodes d).state := joins_state hj
        have hstate : out.node.state = ChfsStateMachine.applySnapshot (c.nodes d).state args.snapshot := by
          rw [hnd, ← hst]
        have hnode : NodeStores out.node (held.take args.lastIncludedIndex.toNat) :=
          nodeStores_installSnapshot hpk hheld.2 hne hstate (by rw [hnd]) (by rw [hnd])
        exact h.move _ hnode rfl (if_neg hlt) (hsend trivial)
  | snapshotReply s d args reply =>
    cases hstep
    have hframe : (handleInstallSnapshotReply (c.nodes s) d args reply).node.state = (c.nodes s).state ∧
        (handleInstallSnapshotReply (c.nodes s) d args reply).node.lastApplied = (c.nodes s).lastApplied ∧
        (handleInstallSnapshotReply (c.nodes s) d args reply).node.snapshot = (c.nodes s).snapshot := by
      obtain ⟨-, hnd⟩ | hnd | ⟨_, hnd⟩ := handleInstallSnapshotReply_cases (c.nodes s) d args reply
      all_goals
        rw [hnd]
        exact ⟨rfl, rfl, rfl⟩
    exact h.frame hinv hs hs' hframe.1 hframe.2.1 hframe.2.2 rfl rfl hold

theorem Stores.step (hacc : AccInv c lead acc) (h : Stores c) (hinv : Inv RaftLogEntry.term a)
    (hs : Settled a c) (hs' : Settled a c') {x : Action n ListCommand} (ha : OnDeliver Compacted c x)
    (hstep : c.step x = some c') : Stores c' := by
  have hrep := fun i => hacc.logs.rep i
  have hfront := fun i => (hs.nodes i).front
  have hlast : ∀ i, (c.nodes i).lastApplied ≤ (c.covered i ++ (c.nodes i).log.tail).length :=
    fun i => (hs.nodes i).applied.trans (hs.nodes i).commit
  cases x with
  | election i =>
    obtain ⟨out, hout, hstep⟩ := Option.bind_eq_some_iff.mp hstep
    obtain ⟨_, hnd, hrep⟩ | ⟨back, _, hnd, hrep⟩ := runBackgroundElection_cases hout
    · rw [hrep] at hstep
      cases hstep
      exact h.frame hinv hs hs' (by rw [hnd]) (by rw [hnd]) (by rw [hnd]) rfl rfl fun p hp => Or.inl hp
    · rw [hrep] at hstep
      cases hstep
      refine h.frame hinv hs hs' (by rw [hnd]) (by rw [hnd]) (by rw [hnd]) rfl rfl fun p hp => ?_
      obtain hp | hp := List.mem_append.mp hp
      · exact Or.inl hp
      · obtain ⟨j, -, rfl⟩ := List.mem_map.mp hp
        exact Or.inr trivial
  | deliver k junk =>
    obtain ⟨p, hk, hstep⟩ := Option.bind_eq_some_iff.mp hstep
    exact h.handle hacc hinv hs hs' (List.mem_of_getElem? hk) (ha p hk) hstep
  | drop k =>
    cases hstep
    exact h.net rfl rfl fun p hp => Or.inl (List.mem_of_mem_eraseIdx hp)
  | commandTest i cmd =>
    cases hstep
    split
    case isTrue => exact h.net rfl rfl fun p hp => Or.inl hp
    case isFalse => exact h
  | commandAppend k =>
    obtain ⟨call, -, hstep⟩ := Option.bind_eq_some_iff.mp hstep
    obtain ⟨out, hout, hstep⟩ := Option.bind_eq_some_iff.mp hstep
    cases hstep
    obtain ⟨back, -, hnd⟩ := newCommand_cases hout
    exact h.frame hinv hs hs' (by rw [hnd]) (by rw [hnd]) (by rw [hnd]) rfl rfl fun p hp => Or.inl hp
  | commit i =>
    obtain ⟨ms, hms, hstep⟩ := Option.bind_eq_some_iff.mp hstep
    cases hstep
    refine h.net rfl rfl fun p hp => ?_
    obtain hp | hp := List.mem_append.mp hp
    · exact Or.inl hp
    · obtain ⟨m, hm, rfl⟩ := List.mem_map.mp hp
      exact Or.inr (packetStores_packet (hrep i) h (mem_runBackground (Or.inl hms) hm))
  | ping i =>
    obtain ⟨ms, hms, hstep⟩ := Option.bind_eq_some_iff.mp hstep
    cases hstep
    refine h.net rfl rfl fun p hp => ?_
    obtain hp | hp := List.mem_append.mp hp
    · exact Or.inl hp
    · obtain ⟨m, hm, rfl⟩ := List.mem_map.mp hp
      exact Or.inr (packetStores_packet (hrep i) h (mem_runBackground (Or.inr hms) hm))
  | apply i =>
    obtain ⟨out, hout, hstep⟩ := Option.bind_eq_some_iff.mp hstep
    cases hstep
    exact h.move _ (nodeStores_apply (hrep i) (hfront i) (h.nodes i) hout) rfl
      (Function.update_eq_self _ _).symm fun p hp => Or.inl hp
  | snapshot i =>
    obtain ⟨out, hout, hstep⟩ := Option.bind_eq_some_iff.mp hstep
    obtain ⟨front, hf, hstep⟩ := Option.bind_eq_some_iff.mp hstep
    cases hstep
    exact h.move _ (nodeStores_saveSnapshot (hrep i) (hlast i) (h.nodes i) hout hf) rfl rfl
      fun p hp => Or.inl hp
  | restart i =>
    obtain ⟨nd, hnd, hstep⟩ := Option.bind_eq_some_iff.mp hstep
    cases hstep
    exact h.move _ (nodeStores_recover (hrep i) (h.nodes i) hnd) rfl (Function.update_eq_self _ _).symm
      fun p hp => Or.inl hp

end Step

section Run

variable {c : Cluster n ListCommand ListStateMachine}

theorem stores_init : Stores (init n ListCommand ListStateMachine) where
  nodes _ := ⟨rfl, rfl⟩
  packets _ hp := absurd hp List.not_mem_nil

theorem stores_of_reachable (h : Reachable StoresKept c) :
    ∃ lead acc, AccInv c lead acc ∧ Settled (ballot c lead acc) c ∧ Stores c := by
  obtain ⟨g, hg⟩ := h.invariant_ghost
    (I := fun c (g : Leads (RaftLogEntry ListCommand) × (Fin n → ℤ → ℕ)) =>
      AccInv c g.1 g.2 ∧ Settled (ballot c g.1 g.2) c ∧ Stores c) (fun _ => none, fun _ _ => 0)
    ⟨accInv_init, settled_init, stores_init⟩ fun s x t g ⟨hacc, hset, hst⟩ ha hstep => by
      obtain ⟨lead', acc', hacc', hev⟩ := hacc.step (acksKept_of_commitsKept hacc hset ha.1) hstep
      have hset' := (Settled.step hacc hset ha.1 hstep).evolves hev
      exact ⟨(lead', acc'), hacc', hset', hst.step hacc hacc'.ballot (hset.evolves hev) hset' ha.2 hstep⟩
  exact ⟨g.1, g.2, hg⟩

/-- In every run the store of a node is the part of every other node's store
that stands for the entries it has applied itself. -/
theorem stores_prefix_of_reachable (h : Reachable StoresKept c) {i j : Fin n}
    (hle : (c.nodes i).lastApplied ≤ (c.nodes j).lastApplied) :
    ((c.nodes i).state.store.length : ℤ) = (c.nodes i).lastApplied + 1 ∧
      (c.nodes i).state.store <+: (c.nodes j).state.store := by
  obtain ⟨lead, acc, hacc, hset, hst⟩ := stores_of_reachable h
  have hi := hset.nodes i
  have hj := hset.nodes j
  have hfront := hi.front
  have htake := take_eq_of_settled hacc.ballot hi hj hi.applied (hle.trans hj.applied)
  rw [(hst.nodes i).state, (hst.nodes j).state]
  constructor
  · have hcommit := hi.applied.trans hi.commit
    rw [storeOf, List.length_append, List.length_map, List.length_take, Nat.min_eq_left (by omega)]
    change ((1 + (c.nodes i).lastApplied.toNat : ℕ) : ℤ) = _
    omega
  · rw [htake, storeOf, storeOf, List.prefix_append_right_inj]
    exact (List.take_prefix_take_left (by omega)).map _

/-- A leader holds everything that any node of its own or an earlier term has
committed, as it is there. -/
theorem leaderComplete_of_reachable {Command St : Type} [ChfsCommand Command]
    [ChfsStateMachine Command St] {c : Cluster n Command St} (h : Reachable CommitsKept c) {i j : Fin n}
    (hj : (c.nodes j).role = .leader) (ht : (c.nodes i).currentTerm ≤ (c.nodes j).currentTerm) :
    (c.nodes i).commitIndex ≤ (c.full i).length ∧
      (c.full i).take (c.nodes i).commitIndex.toNat <+: c.full j := by
  obtain ⟨lead, acc, hacc, hset⟩ := settled_of_reachable h
  have hlead := (hacc.logs.leader j hj).2
  exact ⟨(hset.nodes i).commit, (hset.nodes i).chosen.onLead hacc.ballot ht hlead⟩

end Run

def installedRun : List (Action 3 ListCommand) :=
  applyRun ++ [.snapshot 0, .commit 0, .deliver 4 ⟨0⟩, .restart 1]

theorem stores_prefix_installedRun : ∃ c : Cluster 3 ListCommand ListStateMachine,
    Reachable StoresKept c ∧ (c.nodes 1).state.store = [0] ∧ (c.nodes 2).state.store = [0, 7, 8] ∧
      (((c.nodes 1).state.store.length : ℤ) = (c.nodes 1).lastApplied + 1 ∧
        (c.nodes 1).state.store <+: (c.nodes 2).state.store) := by
  obtain ⟨c, hc⟩ : ∃ c, execOk Cluster.step (fun c x => decide (StoresKept c x))
      (init 3 ListCommand ListStateMachine) installedRun = some c :=
    Option.isSome_iff_exists.mp (by decide +kernel)
  have hr : Reachable StoresKept c := reach_of_execOk (fun s x h => of_decide_eq_true h) hc
  have hval : (execOk Cluster.step (fun c x => decide (StoresKept c x))
      (init 3 ListCommand ListStateMachine) installedRun).map (fun c =>
        ((c.nodes 1).state.store, (c.nodes 2).state.store, (c.nodes 1).lastApplied,
          (c.nodes 2).lastApplied)) = some ([0], [0, 7, 8], 0, 2) := by
    decide +kernel
  rw [hc] at hval
  simp only [Option.map_some, Option.some.injEq, Prod.mk.injEq] at hval
  obtain ⟨h1, h2, h3, h4⟩ := hval
  exact ⟨c, hr, h1, h2, stores_prefix_of_reachable hr (by rw [h3, h4]; decide)⟩

/-- A refusal from before node 0 lost and won back its leadership sends its
next index for node 1 to 0. -/
def emptySnapshotRun : List (Action 3 ListCommand) :=
  [.election 0, .deliver 0 ⟨0⟩, .deliver 1 ⟨0⟩, .ping 0, .election 1, .deliver 1 ⟨0⟩, .deliver 2 ⟨0⟩,
    .election 0, .deliver 6 ⟨0⟩, .deliver 6 ⟨0⟩, .deliver 3 ⟨0⟩, .commit 0, .deliver 5 ⟨0⟩]

/-- The empty snapshot that node 1 then gets takes its first entry away. -/
theorem not_stores_prefix_emptySnapshotRun : ¬ ∀ c : Cluster 3 ListCommand ListStateMachine,
    Reachable CommitsKept c → ∀ i, ((c.nodes i).state.store.length : ℤ) = (c.nodes i).lastApplied + 1 := by
  intro hall
  obtain ⟨c, hc⟩ : ∃ c, execOk Cluster.step (fun c x => decide (CommitsKept c x))
      (init 3 ListCommand ListStateMachine) emptySnapshotRun = some c :=
    Option.isSome_iff_exists.mp (by decide +kernel)
  have hr : Reachable CommitsKept c := reach_of_execOk (fun s x h => of_decide_eq_true h) hc
  have hval : (execOk Cluster.step (fun c x => decide (CommitsKept c x))
      (init 3 ListCommand ListStateMachine) emptySnapshotRun).map (fun c =>
        ((c.nodes 1).state.store, (c.nodes 1).lastApplied)) = some ([], 0) := by
    decide +kernel
  rw [hc] at hval
  simp only [Option.map_some, Option.some.injEq, Prod.mk.injEq] at hval
  have h1 := hall c hr 1
  rw [hval.1, hval.2] at h1
  cases h1

def takeoverRun : List (Action 3 ListCommand) := applyRun ++ [.election 1, .deliver 4 ⟨0⟩, .deliver 5 ⟨0⟩]

theorem leaderComplete_takeoverRun : ∃ c : Cluster 3 ListCommand ListStateMachine,
    Reachable CommitsKept c ∧ (c.nodes 0).commitIndex = 2 ∧
      ((c.nodes 0).commitIndex ≤ (c.full 0).length ∧
        (c.full 0).take (c.nodes 0).commitIndex.toNat <+: c.full 1) := by
  obtain ⟨c, hc⟩ : ∃ c, execOk Cluster.step (fun c x => decide (CommitsKept c x))
      (init 3 ListCommand ListStateMachine) takeoverRun = some c :=
    Option.isSome_iff_exists.mp (by decide +kernel)
  have hr : Reachable CommitsKept c := reach_of_execOk (fun s x h => of_decide_eq_true h) hc
  have hval : (execOk Cluster.step (fun c x => decide (CommitsKept c x))
      (init 3 ListCommand ListStateMachine) takeoverRun).map (fun c =>
        ((c.nodes 0).commitIndex, (c.nodes 1).role, (c.nodes 0).currentTerm, (c.nodes 1).currentTerm)) =
          some (2, .leader, 2, 2) := by
    decide +kernel
  rw [hc] at hval
  simp only [Option.map_some, Option.some.injEq, Prod.mk.injEq] at hval
  obtain ⟨h1, h2, h3, h4⟩ := hval
  exact ⟨c, hr, h1, leaderComplete_of_reachable hr h2 (by rw [h3, h4])⟩

end Chfs.Raft.Replicas
