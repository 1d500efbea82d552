import Chfs.Raft.Network
import Chfs.Raft.Persistence

namespace Chfs.Raft.Disks

open Lib.Run Block.Manager Protocol Node Handlers Network Storage
open Persistence (Event handle construct Machine)

variable {n : ℕ} {Command St : Type}

structure DiskCluster (n : ℕ) (Command St : Type) where
  cluster : Cluster n Command St
  storage : Fin n → RaftLog Command

def received (junk : Command) : Packet n Command → Fin n × Event n Command
  | .voteRequest _ d args => (d, .requestVote args)
  | .voteReply s d args reply => (s, .requestVoteReply d args reply)
  | .appendRequest _ d args _ => (d, .appendEntries args)
  | .appendReply s d args reply => (s, .appendEntriesReply d args reply)
  | .snapshotRequest _ d args _ => (d, .installSnapshot args junk)
  | .snapshotReply s d args reply => (s, .installSnapshotReply d args reply)

/-- The handler an action runs. The background loops that only send change no
field. -/
def event (c : Cluster n Command St) : Action n Command → Option (Fin n × Event n Command)
  | .election i => some (i, .election)
  | .deliver k junk => (c.net[k]?).map (received junk)
  | .commandAppend k => (c.pending[k]?).map fun call => (call.1, .newCommand call.2)
  | .apply i => some (i, .apply)
  | .snapshot i => some (i, .saveSnapshot)
  | .drop _ | .commandTest _ _ | .commit _ | .ping _ | .restart _ => none

section System

variable [ChfsCommand Command] [ChfsStateMachine Command St]

def DiskCluster.store (d : DiskCluster n Command St) (a : Action n Command) : Option (Fin n → RaftLog Command) :=
  match event d.cluster a with
  | none => some d.storage
  | some (i, e) => do
    let (_, ops) ← handle (d.cluster.nodes i) e
    let st ← (d.storage i).updates ops
    some (Function.update d.storage i st)

/-- A step of the cluster with its storage calls; `fresh` is the value of
default constructed commands in a restart. -/
def DiskCluster.step (d : DiskCluster n Command St) :
    Action n Command × Command → Option (DiskCluster n Command St)
  | (.restart i, fresh) => do
    let m : Machine n Command St ← construct i (d.storage i).bm fresh
    some ⟨{ d.cluster.setNode i m.node with
      pending := d.cluster.pending.filter (·.1 ≠ i) }, Function.update d.storage i m.storage⟩
  | (a, _) => do
    let c ← d.cluster.step a
    let storage ← d.store a
    some ⟨c, storage⟩

structure Start (d : DiskCluster n Command St) : Prop where
  cluster : d.cluster = init n Command St
  storage : ∀ i, ∃ fresh, construct i (BlockManager.zeroed _ _ _) fresh =
    some (⟨d.cluster.nodes i, d.storage i⟩ : Machine n Command St)

end System

def diskTerm (bm : Device) : ℤ := (u8ToInt (bm.blocks metadataBlockId)).getD 1 0

section Storage

def assignMeta (p : ℤ × ℤ) : StorageOp Command → ℤ × ℤ
  | .updateMeta currentTerm votedFor => (currentTerm, votedFor)
  | _ => p

structure OnDevice (st : RaftLog Command) : Prop where
  works : st.bm.maybeFailed = false
  has : st.hasLogPersisted = 1
  metadata : st.bm.blocks metadataBlockId = intToU8 st.metadataBuf
  count : InInt st.logCount
  size : InInt st.snapshotSz

structure SameMeta (st st' : RaftLog Command) : Prop where
  works : st.bm.maybeFailed = false → st'.bm.maybeFailed = false
  term : st'.currentTerm = st.currentTerm
  vote : st'.votedFor = st.votedFor
  count : InInt st.logCount → InInt st'.logCount
  size : InInt st.snapshotSz → InInt st'.snapshotSz

variable {st st' st'' : RaftLog Command}

theorem SameMeta.trans (h : SameMeta st st') (h' : SameMeta st' st'') : SameMeta st st'' :=
  ⟨h'.works ∘ h.works, h'.term.trans h.term, h'.vote.trans h.vote, h'.count ∘ h.count,
    h'.size ∘ h.size⟩

theorem sizeInt_inInt (k : ℕ) : InInt (sizeInt k) := by
  unfold InInt sizeInt
  have h1 := Int.le_bmod (x := k) (m := 2 ^ 32) (by decide)
  have h2 := Int.bmod_lt (x := k) (m := 2 ^ 32) (by decide)
  omega

theorem write_sameMeta {id : ℕ} {buf : List UInt8} (h : st.write id buf = some st') :
    SameMeta st st' := by
  obtain ⟨out, hout, rfl⟩ := Option.map_eq_some_iff.mp h
  refine ⟨fun hw => ?_, rfl, rfl, fun hc => hc, fun hs => hs⟩
  unfold writeBlock at hout
  split at hout
  case isTrue =>
    cases hout
    exact hw
  case isFalse =>
    split at hout
    case isTrue =>
      cases hout
      exact hw
    case isFalse => cases hout

theorem saveMetadata_onDevice (hw : st.bm.maybeFailed = false) (hc : InInt st.logCount)
    (hs : InInt st.snapshotSz) (h : st.saveMetadata = some st') : OnDevice st' ∧ SameMeta st st' := by
  have hlen : (intToU8 { st with hasLogPersisted := 1 }.metadataBuf).length = diskBlockSize := by
    rw [length_intToU8, RaftLog.metadataBuf]
    simp only [List.length_set, List.length_replicate]
    rfl
  unfold RaftLog.saveMetadata RaftLog.write at h
  simp only at h
  rw [writeBlock_apply hw (by decide) hlen] at h
  cases h
  refine ⟨⟨hw, rfl, ?_, hc, hs⟩, fun _ => hw, rfl, rfl, fun hc => hc, fun hs => hs⟩
  rw [setBlock_blocks, Function.update_self]
  rfl

theorem saveSnapshot_sameMeta (h : st.saveSnapshot = some st') : SameMeta st st' := by
  rw [RaftLog.saveSnapshot, Option.bind_eq_bind, Option.bind_eq_some_iff] at h
  obtain ⟨buf, -, h⟩ := h
  have hw := write_sameMeta h
  refine ⟨hw.works, hw.term, hw.vote, hw.count, fun _ => hw.size ?_⟩
  simp only
  exact sizeInt_inInt _

theorem OnDevice.words (hst : OnDevice st) (ht : InInt st.currentTerm) (hv : InInt st.votedFor) :
    u8ToInt (st.bm.blocks metadataBlockId) = st.metadataBuf := by
  rw [hst.metadata]
  apply u8ToInt_intToU8
  intro x hx
  rw [metadataBuf_eq] at hx
  simp only [List.mem_cons] at hx
  obtain rfl | rfl | rfl | rfl | rfl | hx := hx
  · rw [hst.has]
    exact ⟨by decide, by decide⟩
  · exact ht
  · exact hv
  · exact hst.count
  · exact hst.size
  · rw [List.eq_of_mem_replicate hx]
    exact ⟨by decide, by decide⟩

variable [ChfsCommand Command]

theorem saveEntries_sameMeta {k : ℕ} {i : ℤ} (h : st.saveEntries k i = some st') :
    SameMeta st st' := by
  induction k generalizing st i with
  | zero =>
    cases h
    exact ⟨id, rfl, rfl, id, id⟩
  | succ k ih =>
    obtain ⟨e, -, h⟩ := Option.bind_eq_some_iff.mp h
    obtain ⟨buf, -, h⟩ := Option.bind_eq_some_iff.mp h
    obtain ⟨st₁, hw, h⟩ := Option.bind_eq_some_iff.mp h
    exact (write_sameMeta hw).trans (ih h)

theorem saveLogs_sameMeta {log : List (RaftLogEntry Command)} {k : ℕ} {i : ℤ}
    (h : { st with log := log, hasLogPersisted := 1, logCount := sizeInt log.length }.saveEntries k i =
      some st') : SameMeta st st' := by
  have he := saveEntries_sameMeta h
  refine ⟨he.works, he.term, he.vote, fun _ => he.count ?_, he.size⟩
  simp only
  exact sizeInt_inInt _

theorem update_onDevice {op : StorageOp Command} (hst : OnDevice st) (h : st.update op = some st') :
    OnDevice st' ∧ (st'.currentTerm, st'.votedFor) = assignMeta (st.currentTerm, st.votedFor) op := by
  have hlast : ∀ {st₁ : RaftLog Command}, SameMeta st st₁ → st₁.saveMetadata = some st' →
      OnDevice st' ∧ (st'.currentTerm, st'.votedFor) = (st.currentTerm, st.votedFor) := by
    intro st₁ hs h
    obtain ⟨hd, hm⟩ := saveMetadata_onDevice (hs.works hst.works) (hs.count hst.count)
      (hs.size hst.size) h
    exact ⟨hd, by rw [hm.term, hm.vote, hs.term, hs.vote]⟩
  cases op with
  | updateMeta currentTerm votedFor =>
    rw [RaftLog.update] at h
    have hw : { st with currentTerm := currentTerm, votedFor := votedFor }.bm.maybeFailed = false :=
      hst.works
    obtain ⟨hd, hm⟩ := saveMetadata_onDevice hw hst.count hst.size h
    exact ⟨hd, by rw [hm.term, hm.vote]; rfl⟩
  | updateSnapshot snapshot =>
    rw [RaftLog.update, Option.bind_eq_bind, Option.bind_eq_some_iff] at h
    obtain ⟨st₁, h1, h⟩ := h
    have hs := saveSnapshot_sameMeta h1
    exact hlast ⟨hs.works, hs.term, hs.vote, hs.count, hs.size⟩ h
  | updateLogs log =>
    rw [RaftLog.update, Option.bind_eq_bind, Option.bind_eq_some_iff] at h
    obtain ⟨st₁, h1, h⟩ := h
    rw [RaftLog.saveLogs] at h1
    exact hlast (saveLogs_sameMeta h1) h
  | updateLogsWithRange log startIndex endIndex =>
    rw [RaftLog.update, Option.bind_eq_bind, Option.bind_eq_some_iff] at h
    obtain ⟨st₁, h1, h⟩ := h
    rw [RaftLog.saveLogsWithRange] at h1
    exact hlast (saveLogs_sameMeta h1) h

theorem updates_onDevice {ops : List (StorageOp Command)} (hst : OnDevice st)
    (h : st.updates ops = some st') : OnDevice st' ∧
      (st'.currentTerm, st'.votedFor) = ops.foldl assignMeta (st.currentTerm, st.votedFor) := by
  induction ops generalizing st with
  | nil =>
    cases h
    exact ⟨hst, rfl⟩
  | cons op ops ih =>
    obtain ⟨st₁, h1, h⟩ := Option.bind_eq_some_iff.mp h
    obtain ⟨hst₁, hmeta⟩ := update_onDevice hst h1
    obtain ⟨hst', hmeta'⟩ := ih hst₁ h
    exact ⟨hst', by rw [hmeta', hmeta, List.foldl_cons]⟩

end Storage

section Node

variable {nd nd' : RaftNode n Command St}

theorem spliceEntries_meta {log log' entries : List (RaftLogEntry Command)} {prevLogIndex : ℤ}
    {ops : List (StorageOp Command)} (h : spliceEntries log prevLogIndex entries = some (log', ops))
    (p : ℤ × ℤ) : ops.foldl assignMeta p = p := by
  unfold spliceEntries at h
  split at h
  case isTrue =>
    cases h
    rfl
  case isFalse =>
    obtain ⟨front, -, h⟩ := Option.bind_eq_some_iff.mp h
    obtain ⟨back, -, h⟩ := Option.bind_eq_some_iff.mp h
    cases h
    rfl

theorem joined_meta (nd : RaftNode n Command St) (t : ℤ) (down : Prop) [Decidable down] :
    (if down then [.updateMeta t (-1)] else [] : List (StorageOp Command)).foldl assignMeta
      (nd.currentTerm, nd.votedFor) =
      ((if down then nd.becomeFollower t else nd).currentTerm,
        (if down then nd.becomeFollower t else nd).votedFor) := by
  by_cases hd : down
  · rw [if_pos hd, if_pos hd]
    rfl
  · rw [if_neg hd, if_neg hd]
    rfl

def adopts : Event n Command → Option ℤ
  | .requestVote args => some args.term
  | .requestVoteReply _ _ reply => some reply.term
  | .appendEntries args => some args.term
  | .installSnapshot arg _ => some arg.term
  | .installSnapshotReply _ _ reply => some reply.term
  | _ => none

/-- What an event does to term and vote. A reply to `append_entries` that has
seen a later term takes the node to the term of its own request. -/
structure Moves (nd nd' : RaftNode n Command St) (e : Event n Command) : Prop where
  myId : nd'.myId = nd.myId
  term : nd'.currentTerm = nd.currentTerm ∨
    (∃ t, adopts e = some t ∧ nd.currentTerm ≤ t ∧ nd'.currentTerm = t) ∨
    (∃ nodeId arg reply, e = .appendEntriesReply nodeId arg reply ∧
      nd.currentTerm < reply.term ∧ nd'.currentTerm = arg.term) ∨
    (nd.currentTerm < 2147483647 ∧ nd'.currentTerm = nd.currentTerm + 1)
  vote : nd'.votedFor = nd.votedFor ∨ nd'.votedFor = -1 ∨ nd'.votedFor = (nd.myId : ℕ) ∨
    ∃ args, e = .requestVote args ∧ nd'.votedFor = args.candidateId

theorem moves_refl {e : Event n Command} (hid : nd'.myId = nd.myId)
    (ht : nd'.currentTerm = nd.currentTerm) (hv : nd'.votedFor = nd.votedFor) : Moves nd nd' e :=
  ⟨hid, Or.inl ht, Or.inl hv⟩

theorem moves_joins {e : Event n Command} {nd₁ : RaftNode n Command St} {t : ℤ}
    (hj : Joins nd t nd₁) (he : adopts e = some t) (hid : nd'.myId = nd₁.myId)
    (ht : nd'.currentTerm = nd₁.currentTerm) (hv : nd'.votedFor = nd₁.votedFor) : Moves nd nd' e := by
  refine ⟨hid.trans hj.myId, Or.inr (Or.inl ⟨t, he, hj.term_le, ht.trans hj.term⟩), ?_⟩
  rw [hv]
  cases hj with
  | stay => exact Or.inl rfl
  | later | yield => exact Or.inr (Or.inl rfl)

variable [ChfsStateMachine Command St]

/-- The storage calls of a handler carry the term and the vote it ends with. -/
def CarriesMeta {α : Type} (nd : RaftNode n Command St) (out : Outcome n Command St α) : Prop :=
  out.stored.foldl assignMeta (nd.currentTerm, nd.votedFor) = (out.node.currentTerm, out.node.votedFor)

omit [ChfsStateMachine Command St] in
theorem requestVote_meta {args : RequestVoteArgs} {out : Outcome n Command St RequestVoteReply}
    (ho : requestVote nd args = some out) : CarriesMeta nd out := by
  unfold requestVote at ho
  split at ho
  case isTrue =>
    cases ho
    rfl
  case isFalse =>
    simp only at ho
    generalize (if args.term > nd.currentTerm then nd.becomeFollower args.term else nd) = nd₁ at ho
    obtain ⟨back, -, ho⟩ := Option.bind_eq_some_iff.mp ho
    split at ho
    · cases ho
      rfl
    · cases ho
      rfl

omit [ChfsStateMachine Command St] in
theorem handleRequestVoteReply_meta {target : Fin n} {arg : RequestVoteArgs} {reply : RequestVoteReply}
    {out : Outcome n Command St Unit} (ho : handleRequestVoteReply nd target arg reply = some out) :
    CarriesMeta nd out := by
  unfold handleRequestVoteReply at ho
  have hm := joined_meta nd reply.term (reply.term > nd.currentTerm)
  simp only at ho
  generalize (if reply.term > nd.currentTerm then nd.becomeFollower reply.term else nd) = nd₁ at ho hm
  split at ho
  · split at ho
    · obtain ⟨nd₂, h2, ho⟩ := Option.bind_eq_some_iff.mp ho
      cases ho
      obtain ⟨back, -, rfl⟩ := becomeLeader_cases h2
      exact hm
    · cases ho
      exact hm
  · cases ho
    exact hm

omit [ChfsStateMachine Command St] in
theorem appendEntries_meta {args : AppendEntriesArgs Command} {out : Outcome n Command St AppendEntriesReply}
    (ho : appendEntries nd args = some out) : CarriesMeta nd out := by
  unfold appendEntries at ho
  split at ho
  case isTrue =>
    cases ho
    rfl
  case isFalse =>
    have hm := joined_meta nd args.term (args.term > nd.currentTerm ∨ nd.role = .candidate)
    simp only at ho
    generalize (if args.term > nd.currentTerm ∨ nd.role = .candidate
      then nd.becomeFollower args.term else nd) = nd₁ at ho hm
    obtain ⟨b, -, ho⟩ := Option.bind_eq_some_iff.mp ho
    cases b with
    | false =>
      cases ho
      exact hm
    | true =>
      simp only [if_true] at ho
      obtain ⟨⟨log, ops⟩, hs, ho⟩ := Option.bind_eq_some_iff.mp ho
      obtain ⟨back, -, ho⟩ := Option.bind_eq_some_iff.mp ho
      cases ho
      rw [CarriesMeta, List.foldl_append, hm]
      exact spliceEntries_meta hs _

omit [ChfsStateMachine Command St] in
theorem handleAppendEntriesReply_meta {nodeId : Fin n} {arg : AppendEntriesArgs Command}
    {reply : AppendEntriesReply} {out : Outcome n Command St Unit}
    (ho : handleAppendEntriesReply nd nodeId arg reply = some out) : CarriesMeta nd out := by
  unfold handleAppendEntriesReply at ho
  split at ho
  · cases ho
    rfl
  · split at ho
    · split at ho
      · obtain ⟨⟨k, cs⟩, -, ho⟩ := Option.bind_eq_some_iff.mp ho
        cases ho
        rfl
      · cases ho
        rfl
    · cases ho
      rfl

theorem installSnapshot_meta {arg : InstallSnapshotArgs} {junk : Command}
    {out : Outcome n Command St InstallSnapshotReply} (ho : installSnapshot nd arg junk = some out) :
    CarriesMeta nd out := by
  unfold installSnapshot at ho
  split at ho
  case isTrue =>
    cases ho
    rfl
  case isFalse =>
    have hm := joined_meta nd arg.term (arg.term > nd.currentTerm ∨ nd.role = .candidate)
    simp only at ho
    generalize (if arg.term > nd.currentTerm ∨ nd.role = .candidate
      then nd.becomeFollower arg.term else nd) = nd₁ at ho hm
    obtain ⟨front, -, ho⟩ := Option.bind_eq_some_iff.mp ho
    obtain ⟨hit, -, ho⟩ := Option.bind_eq_some_iff.mp ho
    cases ho
    rw [CarriesMeta, List.foldl_append, hm]
    rfl

omit [ChfsStateMachine Command St] in
theorem handleInstallSnapshotReply_meta (nodeId : Fin n) (arg : InstallSnapshotArgs) (reply : InstallSnapshotReply) :
    CarriesMeta nd (handleInstallSnapshotReply nd nodeId arg reply) := by
  unfold CarriesMeta handleInstallSnapshotReply
  split
  · rfl
  · split <;> rfl

omit [ChfsStateMachine Command St] in
theorem newCommand_meta {cmd : Command} {out : Outcome n Command St (ℤ × ℤ)} (ho : newCommand nd cmd = some out) :
    CarriesMeta nd out := by
  obtain ⟨back, -, ho⟩ := Option.bind_eq_some_iff.mp ho
  obtain ⟨k, -, ho⟩ := Option.bind_eq_some_iff.mp ho
  cases ho
  rfl

theorem saveSnapshot_meta {out : Outcome n Command St Bool} (ho : Node.saveSnapshot nd = some out) :
    CarriesMeta nd out := by
  obtain ⟨front, -, ho⟩ := Option.bind_eq_some_iff.mp ho
  obtain ⟨back, -, ho⟩ := Option.bind_eq_some_iff.mp ho
  simp only at ho
  split at ho
  · obtain ⟨⟨lastLog, log⟩, -, ho⟩ := Option.bind_eq_some_iff.mp ho
    cases ho
    rfl
  · obtain ⟨⟨lastLog, log⟩, -, ho⟩ := Option.bind_eq_some_iff.mp ho
    cases ho
    rfl

omit [ChfsStateMachine Command St] in
theorem runBackgroundElection_meta {out : Outcome n Command St (Option RequestVoteArgs)}
    (ho : runBackgroundElection nd = some out) : CarriesMeta nd out := by
  unfold runBackgroundElection at ho
  split at ho
  · cases ho
    rfl
  · obtain ⟨t, -, ho⟩ := Option.bind_eq_some_iff.mp ho
    obtain ⟨back, -, ho⟩ := Option.bind_eq_some_iff.mp ho
    cases ho
    rfl

omit [ChfsStateMachine Command St] in
theorem meta_of_map {α : Type} {x : Option (Outcome n Command St α)} {ops : List (StorageOp Command)}
    (hx : ∀ out, x = some out → CarriesMeta nd out)
    (h : (x.map fun out => (out.node, out.stored)) = some (nd', ops)) :
    ops.foldl assignMeta (nd.currentTerm, nd.votedFor) = (nd'.currentTerm, nd'.votedFor) := by
  obtain ⟨out, ho, heq⟩ := Option.map_eq_some_iff.mp h
  cases heq
  exact hx out ho

theorem handle_meta {e : Event n Command} {ops : List (StorageOp Command)}
    (h : handle nd e = some (nd', ops)) :
    ops.foldl assignMeta (nd.currentTerm, nd.votedFor) = (nd'.currentTerm, nd'.votedFor) := by
  cases e with
  | requestVote args => exact meta_of_map (fun _ => requestVote_meta) h
  | requestVoteReply target arg reply => exact meta_of_map (fun _ => handleRequestVoteReply_meta) h
  | appendEntries args => exact meta_of_map (fun _ => appendEntries_meta) h
  | appendEntriesReply nodeId arg reply => exact meta_of_map (fun _ => handleAppendEntriesReply_meta) h
  | installSnapshot arg junk => exact meta_of_map (fun _ => installSnapshot_meta) h
  | installSnapshotReply nodeId arg reply =>
    cases h
    exact handleInstallSnapshotReply_meta nodeId arg reply
  | newCommand cmd => exact meta_of_map (fun _ => newCommand_meta) h
  | saveSnapshot => exact meta_of_map (fun _ => saveSnapshot_meta) h
  | election => exact meta_of_map (fun _ => runBackgroundElection_meta) h
  | apply =>
    obtain ⟨out, ho, heq⟩ := Option.map_eq_some_iff.mp h
    cases heq
    obtain rfl | ⟨_, _, _, _, _, _, _, _, _, hst⟩ := runBackgroundApply_cases ho
    · rfl
    · rw [hst]
      rfl

theorem handle_moves {e : Event n Command} {ops : List (StorageOp Command)}
    (h : handle nd e = some (nd', ops)) : Moves nd nd' e := by
  cases e with
  | requestVote args =>
    obtain ⟨out, ho, heq⟩ := Option.map_eq_some_iff.mp h
    cases heq
    obtain ⟨hnd, -⟩ | ⟨nd₁, back, hj, -, -, ⟨hnd, -⟩ | ⟨-, -, hnd, -⟩⟩ := requestVote_cases ho
    · rw [hnd]
      exact moves_refl rfl rfl rfl
    · rw [hnd]
      exact moves_joins hj rfl rfl rfl rfl
    · have hm := moves_joins (e := .requestVote args) hj rfl rfl rfl rfl
      rw [hnd]
      exact ⟨hm.myId, hm.term, Or.inr (Or.inr (Or.inr ⟨args, rfl, rfl⟩))⟩
  | requestVoteReply target arg reply =>
    obtain ⟨out, ho, heq⟩ := Option.map_eq_some_iff.mp h
    cases heq
    obtain ⟨hlt, hnd⟩ | hnd | ⟨-, -, -, -, nd₁, rfl, ⟨-, hnd⟩ | ⟨-, hlead⟩⟩ :=
      handleRequestVoteReply_cases ho
    · rw [hnd]
      exact moves_joins (.later hlt) rfl rfl rfl rfl
    · rw [hnd]
      exact moves_refl rfl rfl rfl
    · rw [hnd]
      exact moves_refl rfl rfl rfl
    · obtain ⟨back, -, hnd⟩ := becomeLeader_cases hlead
      rw [hnd]
      exact moves_refl rfl rfl rfl
  | appendEntries args =>
    obtain ⟨out, ho, heq⟩ := Option.map_eq_some_iff.mp h
    cases heq
    obtain ⟨-, hnd, -⟩ | ⟨nd₁, hj, ⟨-, hnd, -⟩ | ⟨-, log, ops, back, -, -, hnd⟩⟩ :=
      appendEntries_cases ho
    · rw [hnd]
      exact moves_refl rfl rfl rfl
    · rw [hnd]
      exact moves_joins hj rfl rfl rfl rfl
    · rw [hnd]
      exact moves_joins hj rfl rfl rfl rfl
  | appendEntriesReply nodeId arg reply =>
    obtain ⟨out, ho, heq⟩ := Option.map_eq_some_iff.mp h
    cases heq
    obtain ⟨hlt, hnd⟩ | ⟨-, -, -, _, _, _, _, -, -, -, hnd⟩ | ⟨_, hnd⟩ :=
      handleAppendEntriesReply_cases ho
    · rw [hnd]
      exact ⟨rfl, Or.inr (Or.inr (Or.inl ⟨nodeId, arg, reply, rfl, hlt, rfl⟩)), Or.inr (Or.inl rfl)⟩
    · rw [hnd]
      exact moves_refl rfl rfl rfl
    · rw [hnd]
      exact moves_refl rfl rfl rfl
  | installSnapshot arg junk =>
    obtain ⟨out, ho, heq⟩ := Option.map_eq_some_iff.mp h
    cases heq
    obtain ⟨-, hnd⟩ | ⟨nd₁, front, hit, hj, -, -, hnd⟩ := installSnapshot_cases ho
    · rw [hnd]
      exact moves_refl rfl rfl rfl
    · rw [hnd]
      exact moves_joins hj rfl rfl rfl rfl
  | installSnapshotReply nodeId arg reply =>
    cases h
    obtain ⟨hlt, hnd⟩ | hnd | ⟨_, hnd⟩ := handleInstallSnapshotReply_cases nd nodeId arg reply
    · rw [hnd]
      exact moves_joins (.later hlt) rfl rfl rfl rfl
    · rw [hnd]
      exact moves_refl rfl rfl rfl
    · rw [hnd]
      exact moves_refl rfl rfl rfl
  | newCommand cmd =>
    obtain ⟨out, ho, heq⟩ := Option.map_eq_some_iff.mp h
    cases heq
    obtain ⟨back, -, hnd⟩ := newCommand_cases ho
    rw [hnd]
    exact moves_refl rfl rfl rfl
  | saveSnapshot =>
    obtain ⟨out, ho, heq⟩ := Option.map_eq_some_iff.mp h
    cases heq
    obtain ⟨_, _, _, _, -, -, -, hnd⟩ := saveSnapshot_cases ho
    rw [hnd]
    exact moves_refl rfl rfl rfl
  | election =>
    obtain ⟨out, ho, heq⟩ := Option.map_eq_some_iff.mp h
    cases heq
    unfold runBackgroundElection at ho
    split at ho
    case isTrue =>
      cases ho
      exact moves_refl rfl rfl rfl
    case isFalse =>
      obtain ⟨t, ht, ho⟩ := Option.bind_eq_some_iff.mp ho
      obtain ⟨back, -, ho⟩ := Option.bind_eq_some_iff.mp ho
      unfold succInt? at ht
      split at ht
      case isTrue hlt =>
        cases ht
        cases ho
        exact ⟨rfl, Or.inr (Or.inr (Or.inr ⟨hlt, rfl⟩)), Or.inr (Or.inr (Or.inl rfl))⟩
      case isFalse => cases ht
  | apply =>
    obtain ⟨out, ho, heq⟩ := Option.map_eq_some_iff.mp h
    cases heq
    obtain rfl | ⟨_, _, _, _, _, _, _, _, _, hst⟩ := runBackgroundApply_cases ho
    · exact moves_refl rfl rfl rfl
    · rw [hst]
      exact moves_refl rfl rfl rfl

end Node

section Cluster

variable [ChfsStateMachine Command St] {c c' : Cluster n Command St}

theorem handle_received {junk : Command} {p : Packet n Command} (h : c.handle junk p = some c') :
    ∃ nd ops, handle (c.nodes (received junk p).1) (received junk p).2 = some (nd, ops) ∧
      c'.nodes = Function.update c.nodes (received junk p).1 nd := by
  cases p with
  | snapshotReply s d args reply =>
    cases h
    exact ⟨_, _, rfl, rfl⟩
  | voteRequest | voteReply | appendRequest | appendReply | snapshotRequest =>
    obtain ⟨out, ho, h⟩ := Option.bind_eq_some_iff.mp h
    cases h
    refine ⟨out.node, out.stored, ?_, rfl⟩
    simp only [received, handle]
    rw [ho]
    rfl

theorem step_event {a : Action n Command} (ha : ∀ i, a ≠ .restart i) (h : c.step a = some c') :
    (event c a = none ∧ c'.nodes = c.nodes) ∨ ∃ i e nd ops, event c a = some (i, e) ∧
      handle (c.nodes i) e = some (nd, ops) ∧ c'.nodes = Function.update c.nodes i nd := by
  cases a with
  | election i =>
    obtain ⟨out, ho, h⟩ := Option.bind_eq_some_iff.mp h
    refine Or.inr ⟨i, .election, out.node, out.stored, rfl, by rw [handle, ho]; rfl, ?_⟩
    split at h <;> cases h <;> rfl
  | deliver k junk =>
    obtain ⟨p, hp, h⟩ := Option.bind_eq_some_iff.mp h
    obtain ⟨nd, ops, hh, hn⟩ := handle_received h
    exact Or.inr ⟨_, _, nd, ops, by rw [event, hp]; rfl, hh, hn⟩
  | drop k =>
    cases h
    exact Or.inl ⟨rfl, rfl⟩
  | commandTest i cmd =>
    cases h
    refine Or.inl ⟨rfl, ?_⟩
    split <;> rfl
  | commandAppend k =>
    obtain ⟨call, hc, h⟩ := Option.bind_eq_some_iff.mp h
    obtain ⟨out, ho, h⟩ := Option.bind_eq_some_iff.mp h
    cases h
    exact Or.inr ⟨call.1, .newCommand call.2, out.node, out.stored, by rw [event, hc]; rfl,
      by rw [handle, ho]; rfl, rfl⟩
  | commit i =>
    obtain ⟨ms, -, h⟩ := Option.bind_eq_some_iff.mp h
    cases h
    exact Or.inl ⟨rfl, rfl⟩
  | ping i =>
    obtain ⟨ms, -, h⟩ := Option.bind_eq_some_iff.mp h
    cases h
    exact Or.inl ⟨rfl, rfl⟩
  | apply i =>
    obtain ⟨out, ho, h⟩ := Option.bind_eq_some_iff.mp h
    cases h
    exact Or.inr ⟨i, .apply, out.1, [], rfl, by rw [handle, ho]; rfl, rfl⟩
  | snapshot i =>
    obtain ⟨out, ho, h⟩ := Option.bind_eq_some_iff.mp h
    obtain ⟨front, -, h⟩ := Option.bind_eq_some_iff.mp h
    cases h
    exact Or.inr ⟨i, .saveSnapshot, out.node, out.stored, rfl, by rw [handle, ho]; rfl, rfl⟩
  | restart i => exact absurd rfl (ha i)

end Cluster

section Restart

variable [ChfsCommand Command] [ChfsStateMachine Command St] {m : Machine n Command St}

theorem construct_onDevice {st : RaftLog Command} (hst : OnDevice st) (ht : InInt st.currentTerm)
    (hv : InInt st.votedFor) {id : Fin n} {fresh : Command} (h : construct id st.bm fresh = some m) :
    OnDevice m.storage ∧ m.storage.currentTerm = st.currentTerm ∧
      m.storage.votedFor = st.votedFor ∧ m.node.currentTerm = st.currentTerm ∧
      m.node.votedFor = st.votedFor ∧ m.node.myId = id ∧ m.node.role = .follower := by
  have hread : readBlock metadataBlockId st.bm = _ := readBlock_apply st.bm (by decide)
  obtain ⟨⟨restored, st'⟩, hrest, h⟩ := Option.bind_eq_some_iff.mp h
  unfold RaftLog.restore at hrest
  simp only [RaftLog.create] at hrest
  rw [hread, Option.bind_eq_bind, Option.bind_some] at hrest
  simp only [Except.toOption] at hrest
  rw [Option.bind_eq_bind, Option.bind_some, hst.words ht hv, metadataBuf_eq, hst.has] at hrest
  simp only [List.getD_cons_zero, List.getD_cons_succ] at hrest
  rw [if_neg (by decide)] at hrest
  obtain ⟨ssbuf, -, hrest⟩ := Option.bind_eq_some_iff.mp hrest
  obtain ⟨ssbuf', -, hrest⟩ := Option.bind_eq_some_iff.mp hrest
  split at hrest
  case isTrue => cases hrest
  case isFalse =>
    obtain ⟨log, -, hrest⟩ := Option.bind_eq_some_iff.mp hrest
    cases hrest
    simp only [if_true] at h
    obtain ⟨nd, hnd, h⟩ := Option.bind_eq_some_iff.mp h
    cases h
    obtain ⟨front, -, hnd⟩ := Option.bind_eq_some_iff.mp hnd
    cases hnd
    refine ⟨⟨hst.works, rfl, ?_, hst.count, hst.size⟩, rfl, rfl, rfl, rfl, rfl, rfl⟩
    rw [hst.metadata, metadataBuf_eq, metadataBuf_eq, hst.has]

theorem construct_zeroed_onDevice {id : Fin n} {fresh : Command}
    (h : construct id (BlockManager.zeroed _ _ _) fresh = some m) : OnDevice m.storage ∧
      m.storage.currentTerm = 0 ∧ m.storage.votedFor = -1 := by
  unfold construct at h
  rw [restore_zeroed, Option.bind_eq_bind, Option.bind_some] at h
  simp only [Bool.false_eq_true, if_false] at h
  obtain ⟨st', hs, h⟩ := Option.bind_eq_some_iff.mp h
  cases h
  rw [RaftLog.saveAll, Option.bind_eq_bind, Option.bind_eq_some_iff] at hs
  obtain ⟨st₁, h1, hs⟩ := hs
  obtain ⟨st₂, h2, h3⟩ := Option.bind_eq_some_iff.mp hs
  rw [RaftLog.saveLogs] at h2
  have hm := (saveSnapshot_sameMeta h1).trans (saveLogs_sameMeta h2)
  have hzero : InInt 0 := ⟨by decide, by decide⟩
  obtain ⟨hd, hm'⟩ := saveMetadata_onDevice (hm.works rfl) (hm.count hzero) (hm.size hzero) h3
  exact ⟨hd, hm'.term.trans hm.term, hm'.vote.trans hm.vote⟩

end Restart

end Chfs.Raft.Disks
