import Chfs.Raft.Disks

namespace Chfs.Raft.Terms

open Lib.Run Block.Manager Protocol Node Handlers Network Storage Disks
open Persistence (Event handle construct Machine)

variable {n : ℕ} {Command St : Type}

section Bounds

/-- The `int`s of an event that reach the term or the vote. -/
def Bounded : Event n Command → Prop
  | .requestVote args => InInt args.term ∧ InInt args.candidateId
  | .requestVoteReply _ _ reply => InInt reply.term
  | .appendEntries args => InInt args.term
  | .appendEntriesReply _ arg _ => InInt arg.term
  | .installSnapshot arg _ => InInt arg.term
  | .installSnapshotReply _ _ reply => InInt reply.term
  | .newCommand _ | .saveSnapshot | .election | .apply => True

variable {nd nd' : RaftNode n Command St}

theorem Bounded.adopts {e : Event n Command} (h : Bounded e) {t : ℤ} (ht : adopts e = some t) :
    InInt t := by
  cases e with
  | requestVote args =>
    cases ht
    exact h.1
  | requestVoteReply | appendEntries | installSnapshot | installSnapshotReply =>
    cases ht
    exact h
  | appendEntriesReply | newCommand | saveSnapshot | election | apply => cases ht

theorem moves_inInt {e : Event n Command} (h : Moves nd nd' e) (he : Bounded e)
    (ht : InInt nd.currentTerm) (hv : InInt nd.votedFor) (hid : InInt (nd.myId : ℕ)) :
    InInt nd'.currentTerm ∧ InInt nd'.votedFor := by
  constructor
  · obtain heq | ⟨t, hadopts, -, heq⟩ | ⟨nodeId, arg, reply, rfl, -, heq⟩ | ⟨hlt, heq⟩ := h.term
    · exact heq ▸ ht
    · exact heq ▸ he.adopts hadopts
    · exact heq ▸ he
    · obtain ⟨hlo, -⟩ := ht
      exact ⟨by omega, by omega⟩
  · obtain heq | heq | heq | ⟨args, rfl, heq⟩ := h.vote
    · exact heq ▸ hv
    · exact heq ▸ Persistence.inInt_neg_one
    · exact heq ▸ hid
    · exact heq ▸ he.2

theorem requestVote_reply_term {args : RequestVoteArgs} {out : Outcome n Command St RequestVoteReply}
    (h : requestVote nd args = some out) : out.reply.term = out.node.currentTerm := by
  unfold requestVote at h
  split at h
  case isTrue =>
    cases h
    rfl
  case isFalse =>
    simp only at h
    generalize (if args.term > nd.currentTerm then nd.becomeFollower args.term else nd) = nd₁ at h
    obtain ⟨back, -, h⟩ := Option.bind_eq_some_iff.mp h
    split at h
    · cases h
      rfl
    · cases h
      rfl

theorem installSnapshot_reply_term [ChfsStateMachine Command St] {arg : InstallSnapshotArgs}
    {junk : Command} {out : Outcome n Command St InstallSnapshotReply}
    (h : installSnapshot nd arg junk = some out) : out.reply.term = nd.currentTerm := by
  unfold installSnapshot at h
  split at h
  case isTrue =>
    cases h
    rfl
  case isFalse =>
    obtain ⟨front, -, h⟩ := Option.bind_eq_some_iff.mp h
    obtain ⟨hit, -, h⟩ := Option.bind_eq_some_iff.mp h
    cases h
    rfl

theorem commitMessage_bounded {i : Fin n} {m : Message Command}
    (h : commitMessage nd i = some (some m)) (ht : InInt nd.currentTerm) (junk : Command) (j : Fin n)
    (held : List (RaftLogEntry Command)) : Bounded (received junk (packet j held (i, m))).2 := by
  obtain ⟨front, -, h⟩ := Option.bind_eq_some_iff.mp h
  obtain ⟨back, -, h⟩ := Option.bind_eq_some_iff.mp h
  split at h
  · cases h
  · split at h
    · split at h
      · obtain ⟨prev, -, h⟩ := Option.bind_eq_some_iff.mp h
        cases h
        exact ht
      · cases h
        exact ht
    · cases h

theorem pingMessage_bounded {i : Fin n} {m : Message Command}
    (h : pingMessage nd i = some (some m)) (ht : InInt nd.currentTerm) (junk : Command) (j : Fin n)
    (held : List (RaftLogEntry Command)) : Bounded (received junk (packet j held (i, m))).2 := by
  obtain ⟨front, -, h⟩ := Option.bind_eq_some_iff.mp h
  split at h
  · cases h
  · obtain ⟨prev, -, h⟩ := Option.bind_eq_some_iff.mp h
    cases h
    exact ht

end Bounds

section Net

variable [ChfsStateMachine Command St] {c c' : Cluster n Command St}

def NetBounded (net : List (Packet n Command)) : Prop :=
  ∀ p ∈ net, ∀ junk, Bounded (received junk p).2

theorem NetBounded.append {net ps : List (Packet n Command)} (h : NetBounded net)
    (hps : NetBounded ps) : NetBounded (net ++ ps) := by
  intro p hp junk
  obtain hp | hp := List.mem_append.mp hp
  · exact h p hp junk
  · exact hps p hp junk

theorem NetBounded.single {p : Packet n Command} (h : ∀ junk, Bounded (received junk p).2) :
    NetBounded [p] := by
  intro q hq junk
  obtain rfl := List.mem_singleton.mp hq
  exact h junk

variable (hnet : NetBounded c.net) (ht : ∀ i, InInt (c.nodes i).currentTerm)
include hnet ht

theorem handle_netBounded {junk : Command} {p : Packet n Command} (hp : Bounded (received junk p).2)
    (hs : c.handle junk p = some c') (ht' : ∀ i, InInt (c'.nodes i).currentTerm) :
    NetBounded c'.net := by
  cases p with
  | voteRequest s d args =>
    obtain ⟨out, ho, hs⟩ := Option.bind_eq_some_iff.mp hs
    cases hs
    refine hnet.append (.single fun junk => ?_)
    have hd := ht' d
    simp only [Cluster.setNode, Cluster.send, Function.update_self] at hd
    simp only [received, Bounded]
    rw [requestVote_reply_term ho]
    exact hd
  | voteReply s d args reply =>
    obtain ⟨out, ho, hs⟩ := Option.bind_eq_some_iff.mp hs
    cases hs
    exact hnet
  | appendRequest s d args held =>
    obtain ⟨out, ho, hs⟩ := Option.bind_eq_some_iff.mp hs
    cases hs
    exact hnet.append (.single fun junk => hp)
  | appendReply s d args reply =>
    obtain ⟨out, ho, hs⟩ := Option.bind_eq_some_iff.mp hs
    cases hs
    exact hnet
  | snapshotRequest s d args held =>
    obtain ⟨out, ho, hs⟩ := Option.bind_eq_some_iff.mp hs
    cases hs
    refine hnet.append (.single fun junk => ?_)
    simp only [received, Bounded]
    rw [installSnapshot_reply_term ho]
    exact ht d
  | snapshotReply s d args reply =>
    cases hs
    exact hnet

theorem step_netBounded {a : Action n Command} (hs : c.step a = some c')
    (ht' : ∀ i, InInt (c'.nodes i).currentTerm) (hv' : ∀ i, InInt (c'.nodes i).votedFor) :
    NetBounded c'.net := by
  cases a with
  | election i =>
    obtain ⟨out, ho, hs⟩ := Option.bind_eq_some_iff.mp hs
    obtain ⟨-, -, hrep⟩ | ⟨back, -, hnd, hrep⟩ := runBackgroundElection_cases ho
    · rw [hrep] at hs
      cases hs
      exact hnet
    · rw [hrep] at hs
      cases hs
      refine hnet.append fun p hp junk => ?_
      obtain ⟨j, -, rfl⟩ := List.mem_map.mp hp
      have h1 := ht' i
      have h2 := hv' i
      simp only [Cluster.setNode, Cluster.send, Function.update_self, hnd] at h1 h2
      exact ⟨h1, h2⟩
  | deliver k junk =>
    obtain ⟨p, hk, hs⟩ := Option.bind_eq_some_iff.mp hs
    have hrest : NetBounded (c.net.eraseIdx k) := fun q hq => hnet q (List.mem_of_mem_eraseIdx hq)
    exact handle_netBounded (c := { c with net := c.net.eraseIdx k }) hrest ht
      (hnet p (List.mem_of_getElem? hk) junk) hs ht'
  | drop k =>
    cases hs
    exact fun q hq => hnet q (List.mem_of_mem_eraseIdx hq)
  | commandTest i cmd =>
    cases hs
    split
    · exact hnet
    · exact hnet
  | commandAppend k =>
    obtain ⟨call, -, hs⟩ := Option.bind_eq_some_iff.mp hs
    obtain ⟨out, -, hs⟩ := Option.bind_eq_some_iff.mp hs
    cases hs
    exact hnet
  | commit i =>
    obtain ⟨ms, hms, hs⟩ := Option.bind_eq_some_iff.mp hs
    cases hs
    refine hnet.append fun p hp junk => ?_
    obtain ⟨m, hm, rfl⟩ := List.mem_map.mp hp
    unfold runBackgroundCommit at hms
    split at hms
    · exact commitMessage_bounded (mem_broadcast hms hm) (ht i) junk i _
    · cases hms
      cases hm
  | ping i =>
    obtain ⟨ms, hms, hs⟩ := Option.bind_eq_some_iff.mp hs
    cases hs
    refine hnet.append fun p hp junk => ?_
    obtain ⟨m, hm, rfl⟩ := List.mem_map.mp hp
    unfold runBackgroundPing at hms
    split at hms
    · exact pingMessage_bounded (mem_broadcast hms hm) (ht i) junk i _
    · cases hms
      cases hm
  | apply i =>
    obtain ⟨out, -, hs⟩ := Option.bind_eq_some_iff.mp hs
    cases hs
    exact hnet
  | snapshot i =>
    obtain ⟨out, -, hs⟩ := Option.bind_eq_some_iff.mp hs
    obtain ⟨front, -, hs⟩ := Option.bind_eq_some_iff.mp hs
    cases hs
    exact hnet
  | restart i =>
    obtain ⟨nd, -, hs⟩ := Option.bind_eq_some_iff.mp hs
    cases hs
    exact hnet

end Net

structure NodeKept (i : Fin n) (nd : RaftNode n Command St) (st : RaftLog Command) : Prop where
  device : OnDevice st
  storedTerm : st.currentTerm = nd.currentTerm
  storedVote : st.votedFor = nd.votedFor
  myId : nd.myId = i
  term : InInt nd.currentTerm
  vote : InInt nd.votedFor

structure Kept (d : DiskCluster n Command St) : Prop where
  nodes : ∀ i, NodeKept i (d.cluster.nodes i) (d.storage i)
  net : NetBounded d.cluster.net

theorem NodeKept.diskTerm {i : Fin n} {nd : RaftNode n Command St} {st : RaftLog Command}
    (h : NodeKept i nd st) : diskTerm st.bm = nd.currentTerm := by
  unfold Disks.diskTerm
  rw [h.device.words (h.storedTerm ▸ h.term) (h.storedVote ▸ h.vote), metadataBuf_eq,
    List.getD_cons_succ, List.getD_cons_zero, h.storedTerm]

theorem Kept.bounded {d : DiskCluster n Command St} (h : Kept d) {a : Action n Command} {i : Fin n}
    {e : Event n Command} (he : event d.cluster a = some (i, e)) : Bounded e := by
  cases a with
  | election i =>
    cases he
    trivial
  | deliver k junk =>
    obtain ⟨p, hp, heq⟩ := Option.map_eq_some_iff.mp he
    have hb := h.net p (List.mem_of_getElem? hp) junk
    rw [heq] at hb
    exact hb
  | commandAppend k =>
    obtain ⟨call, -, heq⟩ := Option.map_eq_some_iff.mp he
    cases heq
    trivial
  | apply i =>
    cases he
    trivial
  | snapshot i =>
    cases he
    trivial
  | drop | commandTest | commit | ping | restart => cases he

/-- No node is at an earlier term, in memory or on its device. -/
def NotBack (d d' : DiskCluster n Command St) : Prop :=
  ∀ i, (d.cluster.nodes i).currentTerm ≤ (d'.cluster.nodes i).currentTerm ∧
    diskTerm (d.storage i).bm ≤ diskTerm (d'.storage i).bm

/-- A reply to `append_entries` that has seen a later term does not find the
node beyond the term of its request. -/
def TermForward (c : Cluster n Command St) : Packet n Command → Prop
  | .appendReply s _ args reply => (c.nodes s).currentTerm < reply.term →
    (c.nodes s).currentTerm ≤ args.term
  | _ => True

instance (c : Cluster n Command St) (p : Packet n Command) : Decidable (TermForward c p) :=
  match p with
  | .appendReply s _ args reply => inferInstanceAs (Decidable ((c.nodes s).currentTerm < reply.term →
    (c.nodes s).currentTerm ≤ args.term))
  | .voteRequest _ _ _ | .voteReply _ _ _ _ | .appendRequest _ _ _ _ | .snapshotRequest _ _ _ _
  | .snapshotReply _ _ _ _ => .isTrue trivial

def Forward (d : DiskCluster n Command St) (x : Action n Command × Command) : Prop :=
  OnDeliver TermForward d.cluster x.1

instance (d : DiskCluster n Command St) (x : Action n Command × Command) : Decidable (Forward d x) :=
  inferInstanceAs (Decidable (OnDeliver TermForward d.cluster x.1))

theorem moves_forward {nd nd' : RaftNode n Command St} {e : Event n Command} (h : Moves nd nd' e)
    (he : ∀ nodeId arg reply, e = .appendEntriesReply nodeId arg reply →
      nd.currentTerm < reply.term → nd.currentTerm ≤ arg.term) :
    nd.currentTerm ≤ nd'.currentTerm := by
  obtain heq | ⟨t, -, hle, heq⟩ | ⟨nodeId, arg, reply, rfl, hlt, heq⟩ | ⟨-, heq⟩ := h.term
  · exact heq.ge
  · exact heq ▸ hle
  · exact heq ▸ he nodeId arg reply rfl hlt
  · omega

theorem event_appendEntriesReply {c : Cluster n Command St} {a : Action n Command} {i nodeId : Fin n}
    {arg : AppendEntriesArgs Command} {reply : AppendEntriesReply}
    (h : event c a = some (i, .appendEntriesReply nodeId arg reply)) :
    ∃ k junk, a = .deliver k junk ∧ c.net[k]? = some (.appendReply i nodeId arg reply) := by
  cases a with
  | deliver k junk =>
    obtain ⟨p, hp, heq⟩ := Option.map_eq_some_iff.mp h
    cases p with
    | appendReply s d args reply =>
      cases heq
      exact ⟨k, junk, rfl, hp⟩
    | voteRequest | voteReply | appendRequest | snapshotRequest | snapshotReply => cases heq
  | commandAppend k =>
    obtain ⟨call, -, heq⟩ := Option.map_eq_some_iff.mp h
    cases heq
  | election | apply | snapshot | drop | commandTest | commit | ping | restart => cases h

section Run

variable [ChfsCommand Command] [ChfsStateMachine Command St] {d d' : DiskCluster n Command St}

/-- The two kinds of steps: one node restarts from its device, or the cluster
moves and the node that has moved makes its storage calls. -/
theorem step_cases {a : Action n Command} {fresh : Command} (h : d.step (a, fresh) = some d') :
    (∃ i m, a = .restart i ∧ construct i (d.storage i).bm fresh = some m ∧
      d'.cluster = { d.cluster.setNode i m.node with
        pending := d.cluster.pending.filter (·.1 ≠ i) } ∧
      d'.storage = Function.update d.storage i m.storage) ∨
    ((∀ i, a ≠ .restart i) ∧ d.cluster.step a = some d'.cluster ∧
      ((event d.cluster a = none ∧ d'.cluster.nodes = d.cluster.nodes ∧ d'.storage = d.storage) ∨
        ∃ i e nd ops st, event d.cluster a = some (i, e) ∧
          handle (d.cluster.nodes i) e = some (nd, ops) ∧ (d.storage i).updates ops = some st ∧
          d'.cluster.nodes = Function.update d.cluster.nodes i nd ∧
          d'.storage = Function.update d.storage i st)) := by
  by_cases ha : ∃ i, a = .restart i
  · obtain ⟨i, rfl⟩ := ha
    obtain ⟨m, hm, h⟩ := Option.bind_eq_some_iff.mp h
    cases h
    exact Or.inl ⟨i, m, rfl, hm, rfl, rfl⟩
  · have hne : ∀ i, a ≠ .restart i := fun i hi => ha ⟨i, hi⟩
    have h : ((d.cluster.step a).bind fun c => (d.store a).bind fun storage => some ⟨c, storage⟩) =
        some d' := by
      cases a with
      | restart i => exact absurd rfl (hne i)
      | _ => exact h
    obtain ⟨c, hc, h⟩ := Option.bind_eq_some_iff.mp h
    obtain ⟨storage, hst, h⟩ := Option.bind_eq_some_iff.mp h
    cases h
    refine Or.inr ⟨hne, hc, ?_⟩
    obtain ⟨he, hn⟩ | ⟨i, e, nd, ops, he, hh, hn⟩ := step_event hne hc
    · refine Or.inl ⟨he, hn, ?_⟩
      rw [DiskCluster.store, he] at hst
      cases hst
      rfl
    · rw [DiskCluster.store, he] at hst
      simp only at hst
      rw [hh, Option.bind_eq_bind, Option.bind_some] at hst
      obtain ⟨st, hup, hst⟩ := Option.bind_eq_some_iff.mp hst
      cases hst
      exact Or.inr ⟨i, e, nd, ops, st, he, hh, hup, hn, rfl⟩

theorem NodeKept.restart {i : Fin n} {nd : RaftNode n Command St} {st : RaftLog Command}
    (h : NodeKept i nd st) {fresh : Command} {m : Machine n Command St}
    (hm : construct i st.bm fresh = some m) : NodeKept i m.node m.storage ∧
      m.node.currentTerm = nd.currentTerm ∧ m.node.votedFor = nd.votedFor ∧
      m.node.role = .follower := by
  obtain ⟨hd, h1, h2, h3, h4, h5, h6⟩ := construct_onDevice h.device
    (h.storedTerm ▸ h.term) (h.storedVote ▸ h.vote) hm
  have ht := h3.trans h.storedTerm
  have hv := h4.trans h.storedVote
  exact ⟨⟨hd, h1.trans h3.symm, h2.trans h4.symm, h5, ht ▸ h.term, hv ▸ h.vote⟩, ht, hv, h6⟩

theorem NodeKept.handle (hn : n ≤ 2147483648) {i : Fin n} {nd nd' : RaftNode n Command St}
    {st st' : RaftLog Command} (h : NodeKept i nd st) {e : Event n Command} (he : Bounded e)
    {ops : List (StorageOp Command)} (hh : handle nd e = some (nd', ops))
    (hup : st.updates ops = some st') : NodeKept i nd' st' := by
  have hmoves := handle_moves hh
  obtain ⟨hd, hmeta⟩ := updates_onDevice h.device hup
  rw [h.storedTerm, h.storedVote, handle_meta hh, Prod.mk.injEq] at hmeta
  have hid : InInt (nd.myId : ℕ) := by
    have hlt := nd.myId.isLt
    exact ⟨by omega, by omega⟩
  obtain ⟨h1, h2⟩ := moves_inInt hmoves he h.term h.vote hid
  exact ⟨hd, hmeta.1, hmeta.2, hmoves.myId.trans h.myId, h1, h2⟩

theorem Kept.step (hn : n ≤ 2147483648) (h : Kept d) {x : Action n Command × Command}
    (hs : d.step x = some d') : Kept d' := by
  obtain ⟨a, fresh⟩ := x
  obtain ⟨i, m, rfl, hm, hc, hst⟩ | ⟨-, hc, hcase⟩ := step_cases hs
  · refine ⟨fun j => ?_, hc ▸ h.net⟩
    rw [hc, hst]
    simp only [Cluster.setNode]
    by_cases hj : j = i
    · subst hj
      rw [Function.update_self, Function.update_self]
      exact ((h.nodes j).restart hm).1
    · rw [Function.update_of_ne hj, Function.update_of_ne hj]
      exact h.nodes j
  · have hnodes : ∀ j, NodeKept j (d'.cluster.nodes j) (d'.storage j) := by
      intro j
      obtain ⟨-, hnodes, hst⟩ | ⟨i, e, nd, ops, st, he, hh, hup, hnodes, hst⟩ := hcase
      · rw [hnodes, hst]
        exact h.nodes j
      · rw [hnodes, hst]
        by_cases hj : j = i
        · subst hj
          rw [Function.update_self, Function.update_self]
          exact (h.nodes j).handle hn (h.bounded he) hh hup
        · rw [Function.update_of_ne hj, Function.update_of_ne hj]
          exact h.nodes j
    exact ⟨hnodes, step_netBounded h.net (fun j => (h.nodes j).term) hc (fun j => (hnodes j).term)
      fun j => (hnodes j).vote⟩

theorem kept_of_start (h : Start d) : Kept d := by
  have hnode : ∀ i, d.cluster.nodes i = RaftNode.create i := by
    intro i
    rw [h.cluster]
    rfl
  have hzero : InInt 0 := ⟨by decide, by decide⟩
  refine ⟨fun i => ?_, ?_⟩
  · obtain ⟨fresh, hc⟩ := h.storage i
    obtain ⟨hd, h1, h2⟩ := construct_zeroed_onDevice hc
    rw [hnode i]
    exact ⟨hd, h1, h2, rfl, hzero, Persistence.inInt_neg_one⟩
  · rw [h.cluster]
    exact fun p hp => absurd hp List.not_mem_nil

theorem kept_of_reach (hn : n ≤ 2147483648) {ok : DiskCluster n Command St → Action n Command × Command → Prop}
    {d₀ : DiskCluster n Command St} (h₀ : Start d₀) (h : Reach DiskCluster.step ok d₀ d) : Kept d :=
  h.invariant (kept_of_start h₀) fun _ _ _ hd _ hs => hd.step hn hs

theorem terms_le_of_forward {x : Action n Command × Command} (h : Kept d) (hs : d.step x = some d')
    (hx : Forward d x) (i : Fin n) :
    (d.cluster.nodes i).currentTerm ≤ (d'.cluster.nodes i).currentTerm := by
  obtain ⟨a, fresh⟩ := x
  obtain ⟨j, m, rfl, hm, hc, -⟩ | ⟨-, -, ⟨-, hnodes, -⟩ | ⟨j, e, nd, ops, st, he, hh, -, hnodes, -⟩⟩ :=
    step_cases hs
  · rw [hc]
    simp only [Cluster.setNode]
    by_cases hi : i = j
    · subst hi
      rw [Function.update_self]
      exact ((h.nodes i).restart hm).2.1.ge
    · rw [Function.update_of_ne hi]
  · rw [hnodes]
  · rw [hnodes]
    by_cases hi : i = j
    · subst hi
      rw [Function.update_self]
      refine moves_forward (handle_moves hh) fun nodeId arg reply heq hlt => ?_
      subst heq
      obtain ⟨k, junk, rfl, hk⟩ := event_appendEntriesReply he
      exact hx _ hk hlt
    · rw [Function.update_of_ne hi]

theorem forward_of_terms_le {x : Action n Command × Command} (hs : d.step x = some d')
    (hle : ∀ i, (d.cluster.nodes i).currentTerm ≤ (d'.cluster.nodes i).currentTerm) : Forward d x := by
  obtain ⟨a, fresh⟩ := x
  cases a with
  | deliver k junk =>
    intro p hp
    cases p with
    | appendReply s t args reply =>
      intro hlt
      obtain ⟨c, hc, hs⟩ := Option.bind_eq_some_iff.mp hs
      obtain ⟨storage, -, hs⟩ := Option.bind_eq_some_iff.mp hs
      cases hs
      obtain ⟨p', hp', hc⟩ := Option.bind_eq_some_iff.mp hc
      cases (Option.mem_def.mp hp).symm.trans hp'
      obtain ⟨out, hout, hc⟩ := Option.bind_eq_some_iff.mp hc
      cases hc
      rw [handleAppendEntriesReply, if_pos hlt] at hout
      cases hout
      have hs := hle s
      simp only [Cluster.setNode, Function.update_self] at hs
      exact hs
    | voteRequest | voteReply | appendRequest | snapshotRequest | snapshotReply => trivial
  | election | drop | commandTest | commandAppend | commit | ping | apply | snapshot | restart =>
    trivial

/-- Whatever has happened before, a step keeps all terms from going back exactly
when it delivers no reply that takes its node back, and so does a run of such
steps. -/
theorem notBack_of_forward (hn : n ≤ 2147483648) {d₀ : DiskCluster n Command St} (h₀ : Start d₀)
    (h : Reach DiskCluster.step (fun _ _ => True) d₀ d) :
    (∀ x d', d.step x = some d' → (NotBack d d' ↔ Forward d x)) ∧
      ∀ d', Reach DiskCluster.step Forward d d' → NotBack d d' := by
  have hkept := kept_of_reach hn h₀ h
  have hstep : ∀ (e e' : DiskCluster n Command St) x, Kept e → e.step x = some e' →
      (NotBack e e' ↔ Forward e x) := by
    intro e e' x he hs
    have he' := he.step hn hs
    constructor
    · exact fun hback => forward_of_terms_le hs fun i => (hback i).1
    · intro hx i
      rw [(he.nodes i).diskTerm, (he'.nodes i).diskTerm]
      exact ⟨terms_le_of_forward he hs hx i, terms_le_of_forward he hs hx i⟩
  refine ⟨fun x d' hs => hstep d d' x hkept hs, fun d' hreach => ?_⟩
  have hrun : Kept d' ∧ NotBack d d' := by
    have hrefl : NotBack d d := fun i => ⟨le_refl _, le_refl _⟩
    refine hreach.invariant (I := fun e => Kept e ∧ NotBack d e) ⟨hkept, hrefl⟩ ?_
    intro e x e' ⟨he, hback⟩ hx hs
    have hnext := (hstep e e' x he hs).mpr hx
    exact ⟨he.step hn hs, fun i =>
      ⟨(hback i).1.trans (hnext i).1, (hback i).2.trans (hnext i).2⟩⟩
  exact hrun.2

end Run

def booted (n : ℕ) : DiskCluster n ListCommand ListStateMachine where
  cluster := init n ListCommand ListStateMachine
  storage i := ((construct i (BlockManager.zeroed _ _ _) (⟨0⟩ : ListCommand)).map
    fun m : Machine n ListCommand ListStateMachine => m.storage).getD
      (RaftLog.create (BlockManager.zeroed _ _ _))

theorem start_booted (n : ℕ) : Start (booted n) := by
  refine ⟨rfl, fun i => ⟨⟨0⟩, ?_⟩⟩
  obtain ⟨st, hc, -⟩ := Persistence.construct_zeroed ListStateMachine i (⟨0⟩ : ListCommand)
  simp only [booted]
  rw [hc]
  rfl

def wonRun : List (Action 3 ListCommand × ListCommand) :=
  ([.election 0, .deliver 0 ⟨0⟩, .deliver 1 ⟨0⟩] : List (Action 3 ListCommand)).map fun a => (a, ⟨0⟩)

def forwardRun : List (Action 3 ListCommand × ListCommand) :=
  ([.ping 0, .election 1, .deliver 1 ⟨0⟩, .deliver 4 ⟨0⟩, .deliver 2 ⟨0⟩, .restart 0] :
    List (Action 3 ListCommand)).map fun a => (a, ⟨0⟩)

theorem notBack_of_forward_won : ∃ d d' : DiskCluster 3 ListCommand ListStateMachine,
    exec DiskCluster.step (booted 3) wonRun = some d ∧ Reach DiskCluster.step Forward d d' ∧
      ((d.cluster.nodes 0).currentTerm, (d'.cluster.nodes 0).currentTerm) = (1, 2) ∧ NotBack d d' := by
  have hval : (exec DiskCluster.step (booted 3) wonRun).bind (fun d =>
      (execOk DiskCluster.step (fun d x => decide (Forward d x)) d forwardRun).map fun d' =>
        ((d.cluster.nodes 0).currentTerm, (d'.cluster.nodes 0).currentTerm)) = some (1, 2) := by
    decide +kernel
  obtain ⟨d, hd, hval⟩ := Option.bind_eq_some_iff.mp hval
  obtain ⟨d', hd', hterms⟩ := Option.map_eq_some_iff.mp hval
  have hreach : Reach DiskCluster.step Forward d d' := reach_of_execOk (fun _ _ h => of_decide_eq_true h) hd'
  exact ⟨d, d', hd, hreach, hterms,
    (notBack_of_forward (by decide) (start_booted 3) (reach_of_exec hd)).2 d' hreach⟩

/-- Node 0 pings node 1 in term 1; node 1 has gone on to term 3 when it
answers, and node 0 is in term 2 when the answer arrives. -/
def lateAnswerRun : List (Action 3 ListCommand × ListCommand) :=
  ([.election 0, .deliver 0 ⟨0⟩, .deliver 1 ⟨0⟩, .ping 0, .election 1, .election 1, .deliver 1 ⟨0⟩,
    .deliver 2 ⟨0⟩] : List (Action 3 ListCommand)).map fun a => (a, ⟨0⟩)

theorem not_notBack_lateAnswerRun : ¬ ∀ (d₀ d d' : DiskCluster 3 ListCommand ListStateMachine) x,
    Start d₀ → Reach DiskCluster.step (fun _ _ => True) d₀ d → d.step x = some d' →
      NotBack d d' := by
  intro hall
  obtain ⟨d, hd⟩ : ∃ d, exec DiskCluster.step (booted 3) lateAnswerRun = some d :=
    Option.isSome_iff_exists.mp (by decide +kernel)
  have hval : (exec DiskCluster.step (booted 3) lateAnswerRun).bind (fun d =>
      (d.step (.deliver 5 ⟨0⟩, ⟨0⟩)).map fun d' => ((d.cluster.nodes 0).currentTerm,
        (d'.cluster.nodes 0).currentTerm)) = some (2, 1) := by
    decide +kernel
  rw [hd, Option.bind_some, Option.map_eq_some_iff] at hval
  obtain ⟨d', hs, heq⟩ := hval
  rw [Prod.mk.injEq] at heq
  have hback := (hall _ _ _ _ (start_booted 3) (reach_of_exec hd) hs 0).1
  rw [heq.1, heq.2] at hback
  exact absurd hback (by decide)

end Chfs.Raft.Terms
