import Chfs.Lib.Run
import Chfs.Raft.Definedness
import Chfs.Raft.Storage

namespace Chfs.Raft.Persistence

open Lib.Run Block.Manager Protocol Node FullLog Handlers Definedness Storage

inductive Event (n : ℕ) (Command : Type)
  | requestVote (args : RequestVoteArgs)
  | requestVoteReply (target : Fin n) (arg : RequestVoteArgs) (reply : RequestVoteReply)
  | appendEntries (args : AppendEntriesArgs Command)
  | appendEntriesReply (nodeId : Fin n) (arg : AppendEntriesArgs Command) (reply : AppendEntriesReply)
  | installSnapshot (arg : InstallSnapshotArgs) (junk : Command)
  | installSnapshotReply (nodeId : Fin n) (arg : InstallSnapshotArgs) (reply : InstallSnapshotReply)
  | newCommand (cmd : Command)
  | saveSnapshot
  | election
  | apply

/-- A restart leaves the value `fresh` of default constructed commands open. -/
inductive Action (n : ℕ) (Command : Type)
  | event (e : Event n Command)
  | restart (fresh : Command)

variable {n : ℕ} {Command St : Type} [ChfsCommand Command] [ChfsStateMachine Command St]

def saved (nd : RaftNode n Command St) : Saved Command :=
  ⟨nd.currentTerm, nd.votedFor, nd.log, nd.snapshot⟩

def handle (nd : RaftNode n Command St) :
    Event n Command → Option (RaftNode n Command St × List (StorageOp Command))
  | .requestVote args => (requestVote nd args).map fun out => (out.node, out.stored)
  | .requestVoteReply target arg reply =>
    (handleRequestVoteReply nd target arg reply).map fun out => (out.node, out.stored)
  | .appendEntries args => (appendEntries nd args).map fun out => (out.node, out.stored)
  | .appendEntriesReply nodeId arg reply =>
    (handleAppendEntriesReply nd nodeId arg reply).map fun out => (out.node, out.stored)
  | .installSnapshot arg junk => (installSnapshot nd arg junk).map fun out => (out.node, out.stored)
  | .installSnapshotReply nodeId arg reply =>
    let out := handleInstallSnapshotReply nd nodeId arg reply
    some (out.node, out.stored)
  | .newCommand cmd => (newCommand nd cmd).map fun out => (out.node, out.stored)
  | .saveSnapshot => (Node.saveSnapshot nd).map fun out => (out.node, out.stored)
  | .election => (runBackgroundElection nd).map fun out => (out.node, out.stored)
  | .apply => (runBackgroundApply nd).map fun out => (out.1, [])

structure Machine (n : ℕ) (Command St : Type) where
  node : RaftNode n Command St
  storage : RaftLog Command

def construct (id : Fin n) (bm : Device) (fresh : Command) : Option (Machine n Command St) := do
  let (restored, st) ← (RaftLog.create bm).restore fresh
  if restored then
    let nd ← RaftNode.recover id st.currentTerm st.votedFor st.log st.snapshot
    some ⟨nd, st⟩
  else
    let nd : RaftNode n Command St := RaftNode.create id
    let st ← { st with
      currentTerm := nd.currentTerm, votedFor := nd.votedFor, log := nd.log
      snapshot := nd.snapshot }.saveAll
    some ⟨nd, st⟩

def Machine.step (m : Machine n Command St) : Action n Command → Option (Machine n Command St)
  | .event e => do
    let (nd, ops) ← handle m.node e
    let st ← m.storage.updates ops
    some ⟨nd, st⟩
  | .restart fresh => construct m.node.myId m.storage.bm fresh

/-- The node alone, as if its persistent fields were never lost. -/
def nodeStep (nd : RaftNode n Command St) : Action n Command → Option (RaftNode n Command St)
  | .event e => (handle nd e).map (·.1)
  | .restart _ => RaftNode.recover nd.myId nd.currentTerm nd.votedFor nd.log nd.snapshot

/-- The `int`s of an event that reach the persistent fields. -/
def Event.Typed : Event n ListCommand → Prop
  | .requestVote args => InInt args.term ∧ InInt args.candidateId
  | .requestVoteReply _ _ reply => InInt reply.term
  | .appendEntries args => InInt args.term ∧ ∀ e ∈ args.entries, EntryFits e
  | .appendEntriesReply _ arg _ => InInt arg.term
  | .installSnapshot arg junk => InInt arg.term ∧ InInt arg.lastIncludedIndex ∧
    InInt arg.lastIncludedTerm ∧ InInt junk.value
  | .installSnapshotReply _ _ reply => InInt reply.term
  | .newCommand cmd => InInt cmd.value
  | .saveSnapshot | .election | .apply => True

def Action.Typed : Action n ListCommand → Prop
  | .event e => e.Typed
  | .restart _ => True

instance (a : Action n ListCommand) : Decidable a.Typed :=
  match a with
  | .event (.requestVote _) | .event (.appendEntries _) | .event (.installSnapshot ..) =>
    inferInstanceAs (Decidable (_ ∧ _))
  | .event (.requestVoteReply _ _ reply) | .event (.installSnapshotReply _ _ reply) =>
    inferInstanceAs (Decidable (InInt reply.term))
  | .event (.appendEntriesReply _ arg _) => inferInstanceAs (Decidable (InInt arg.term))
  | .event (.newCommand cmd) => inferInstanceAs (Decidable (InInt cmd.value))
  | .event .saveSnapshot | .event .election | .event .apply | .restart _ => .isTrue trivial

/-- A step within the device: the log and the snapshot it leaves have room. -/
def WithinDevice [ChfsStateMachine ListCommand St] (nd : RaftNode n ListCommand St)
    (a : Action n ListCommand) : Prop :=
  a.Typed ∧ ∀ nd' ∈ nodeStep nd a, (saved nd').Room

instance [ChfsStateMachine ListCommand St] (nd : RaftNode n ListCommand St) (a : Action n ListCommand) :
    Decidable (WithinDevice nd a) := inferInstanceAs (Decidable (_ ∧ _))

theorem inInt_neg_one : InInt (-1) := ⟨by decide, by decide⟩

theorem succInt_inInt {x y : ℤ} (h : succInt? x = some y) (hx : InInt x) : InInt y := by
  unfold succInt? at h
  split at h
  case isTrue hlt =>
    cases h
    obtain ⟨hlo, hhi⟩ := hx
    exact ⟨by omega, by omega⟩
  case isFalse => cases h

/-- The calls of a handler store exactly what it has changed. -/
structure Keeps (nd nd' : RaftNode n ListCommand St) (ops : List (StorageOp ListCommand)) : Prop where
  stores : ∀ op ∈ ops, Stores (saved nd) (saved nd') op
  assigns : ops.foldl Saved.assign (saved nd) = saved nd'
  typed : (saved nd).Typed → (saved nd').Typed
  nonempty : nd.log ≠ [] → nd'.log ≠ []
  myId : nd'.myId = nd.myId

section Keeps

variable {nd nd' : RaftNode n ListCommand St}

theorem keeps_nil (h : saved nd' = saved nd) (hid : nd'.myId = nd.myId) : Keeps nd nd' [] where
  stores _ hop := absurd hop List.not_mem_nil
  assigns := h.symm
  typed ht := h ▸ ht
  nonempty hne := by
    have hlog : nd'.log = nd.log := congrArg Saved.log h
    rw [hlog]
    exact hne
  myId := hid

theorem keeps_meta {t v : ℤ} (ht : t = nd'.currentTerm) (hv : v = nd'.votedFor)
    (hlog : nd'.log = nd.log) (hsnap : nd'.snapshot = nd.snapshot) (hid : nd'.myId = nd.myId)
    (hint : (saved nd).Typed → InInt t ∧ InInt v) : Keeps nd nd' [.updateMeta t v] where
  stores op hop := by
    obtain rfl := List.mem_singleton.mp hop
    exact ⟨ht, hv⟩
  assigns := by
    rw [List.foldl_cons, List.foldl_nil]
    simp only [saved, Saved.assign]
    rw [ht, hv, hlog, hsnap]
  typed hty := by
    obtain ⟨h1, h2⟩ := hint hty
    constructor
    case term => exact (ht ▸ h1 : InInt nd'.currentTerm)
    case vote => exact (hv ▸ h2 : InInt nd'.votedFor)
    case entries =>
      intro e he
      rw [show (saved nd').log = nd.log from hlog] at he
      exact hty.entries e he
  nonempty hne := hlog ▸ hne
  myId := hid

theorem requestVote_keeps {args : RequestVoteArgs} {out : Outcome n ListCommand St RequestVoteReply}
    (h : requestVote nd args = some out) (hterm : InInt args.term) (hcand : InInt args.candidateId) :
    Keeps nd out.node out.stored := by
  unfold requestVote at h
  split at h
  case isTrue =>
    cases h
    exact keeps_meta rfl rfl rfl rfl rfl fun ht => ⟨ht.term, ht.vote⟩
  case isFalse hle =>
    have hj := joins_ite nd (t := args.term) (by omega)
    have hvote : (saved nd).Typed → InInt (if args.term > nd.currentTerm
        then nd.becomeFollower args.term else nd).votedFor := by
      intro ht
      split
      · exact inInt_neg_one
      · exact ht.vote
    generalize (if args.term > nd.currentTerm then nd.becomeFollower args.term else nd) = nd₁
      at h hj hvote
    obtain ⟨back, hb, h⟩ := Option.bind_eq_some_iff.mp h
    split at h
    case isTrue =>
      cases h
      exact keeps_meta rfl rfl hj.log hj.snapshot hj.myId fun _ => ⟨hj.term ▸ hterm, hcand⟩
    case isFalse =>
      cases h
      exact keeps_meta rfl rfl hj.log hj.snapshot hj.myId fun ht => ⟨hj.term ▸ hterm, hvote ht⟩

theorem becomeFollower_keeps (nd : RaftNode n ListCommand St) {t : ℤ} (ht : InInt t) :
    Keeps nd (nd.becomeFollower t) [.updateMeta t (-1)] :=
  keeps_meta rfl rfl rfl rfl rfl fun _ => ⟨ht, inInt_neg_one⟩

theorem handleRequestVoteReply_keeps {target : Fin n} {arg : RequestVoteArgs}
    {reply : RequestVoteReply} {out : Outcome n ListCommand St Unit}
    (h : handleRequestVoteReply nd target arg reply = some out) (hterm : InInt reply.term) :
    Keeps nd out.node out.stored := by
  unfold handleRequestVoteReply at h
  by_cases hlt : reply.term > nd.currentTerm
  · simp only [hlt, if_true] at h
    simp only [RaftNode.becomeFollower, reduceCtorEq, false_and, if_false, Option.some.injEq] at h
    subst h
    exact becomeFollower_keeps nd hterm
  · simp only [hlt, if_false] at h
    split at h
    case isTrue hc =>
      split at h
      case isTrue =>
        obtain ⟨nd₂, h2, h⟩ := Option.bind_eq_some_iff.mp h
        cases h
        obtain ⟨back, -, rfl⟩ := becomeLeader_cases h2
        exact keeps_nil rfl rfl
      case isFalse =>
        cases h
        exact keeps_nil rfl rfl
    case isFalse =>
      cases h
      exact keeps_nil rfl rfl

theorem handleAppendEntriesReply_keeps {nodeId : Fin n} {arg : AppendEntriesArgs ListCommand}
    {reply : AppendEntriesReply} {out : Outcome n ListCommand St Unit}
    (h : handleAppendEntriesReply nd nodeId arg reply = some out) (hterm : InInt arg.term) :
    Keeps nd out.node out.stored := by
  unfold handleAppendEntriesReply at h
  split at h
  case isTrue =>
    cases h
    exact becomeFollower_keeps nd hterm
  case isFalse =>
    split at h
    case isTrue =>
      split at h
      case isTrue =>
        obtain ⟨⟨k, cs⟩, -, h⟩ := Option.bind_eq_some_iff.mp h
        cases h
        exact keeps_nil rfl rfl
      case isFalse =>
        cases h
        exact keeps_nil rfl rfl
    case isFalse =>
      cases h
      exact keeps_nil rfl rfl

theorem handleInstallSnapshotReply_keeps {nodeId : Fin n} {arg : InstallSnapshotArgs}
    {reply : InstallSnapshotReply} (hterm : InInt reply.term) :
    Keeps nd (handleInstallSnapshotReply nd nodeId arg reply).node
      (handleInstallSnapshotReply nd nodeId arg reply).stored := by
  unfold handleInstallSnapshotReply
  split
  case isTrue => exact becomeFollower_keeps nd hterm
  case isFalse =>
    split
    case isTrue => exact keeps_nil rfl rfl
    case isFalse => exact keeps_nil rfl rfl

theorem runBackgroundElection_keeps {out : Outcome n ListCommand St (Option RequestVoteArgs)}
    (h : runBackgroundElection nd = some out) (hid : InInt (nd.myId : ℕ)) :
    Keeps nd out.node out.stored := by
  unfold runBackgroundElection at h
  split at h
  case isTrue =>
    cases h
    exact keeps_nil rfl rfl
  case isFalse =>
    obtain ⟨t, ht, h⟩ := Option.bind_eq_some_iff.mp h
    obtain ⟨back, -, h⟩ := Option.bind_eq_some_iff.mp h
    cases h
    refine keeps_meta rfl rfl rfl rfl rfl fun hty => ⟨succInt_inInt ht hty.term, hid⟩

theorem runBackgroundApply_keeps [ChfsStateMachine ListCommand St]
    {out : RaftNode n ListCommand St × List (RaftLogEntry ListCommand)}
    (h : runBackgroundApply nd = some out) : Keeps nd out.1 [] := by
  obtain rfl | ⟨front, back, -, -, -, -, -, -, state, hst⟩ := runBackgroundApply_cases h
  · exact keeps_nil rfl rfl
  · rw [hst]
    exact keeps_nil rfl rfl

theorem newCommand_keeps {cmd : ListCommand} {out : Outcome n ListCommand St (ℤ × ℤ)}
    (h : newCommand nd cmd = some out) (hcmd : InInt cmd.value) : Keeps nd out.node out.stored := by
  obtain ⟨back, hb, h⟩ := Option.bind_eq_some_iff.mp h
  obtain ⟨nxtIndex, hs, h⟩ := Option.bind_eq_some_iff.mp h
  cases h
  constructor
  case stores =>
    intro op hop
    obtain rfl := List.mem_singleton.mp hop
    refine ⟨rfl, rfl, nd.log.length, ?_, ?_, ?_⟩
    · rw [List.length_append, List.length_singleton]
      omega
    · rw [List.length_append]
      omega
    · rw [List.take_left]
      exact List.take_length.symm
  case assigns => rfl
  case typed =>
    intro ht
    refine ⟨ht.term, ht.vote, fun e he => ?_⟩
    obtain he | he := List.mem_append.mp he
    · exact ht.entries e he
    · obtain rfl := List.mem_singleton.mp he
      exact ⟨succInt_inInt hs (ht.entries back (List.mem_of_getLast? hb)).1, ht.term, hcmd⟩
  case nonempty => exact fun _ => List.append_ne_nil_of_right_ne_nil _ (List.cons_ne_nil _ _)
  case myId => rfl

theorem saveSnapshot_keeps [ChfsStateMachine ListCommand St] {out : Outcome n ListCommand St Bool}
    (h : Node.saveSnapshot nd = some out) : Keeps nd out.node out.stored := by
  have hstored : out.stored = [.updateSnapshot out.node.snapshot, .updateLogs out.node.log] := by
    obtain ⟨front, hf, h⟩ := Option.bind_eq_some_iff.mp h
    obtain ⟨back, hb, h⟩ := Option.bind_eq_some_iff.mp h
    simp only at h
    split at h
    case isTrue =>
      obtain ⟨⟨lastLog, log⟩, -, h⟩ := Option.bind_eq_some_iff.mp h
      cases h
      rfl
    case isFalse =>
      obtain ⟨⟨lastLog, log⟩, -, h⟩ := Option.bind_eq_some_iff.mp h
      cases h
      rfl
  obtain ⟨front, back, lastLog, log, hf, hb, hlog, hnode⟩ := saveSnapshot_cases h
  have hmem : lastLog ∈ nd.log ∧ ∀ e ∈ log, e ∈ nd.log := by
    obtain ⟨-, hat, rfl⟩ | ⟨-, rfl, rfl⟩ := hlog
    · obtain ⟨k, -, hget⟩ := at?_eq_some hat
      exact ⟨List.mem_of_getElem? hget, fun e he => List.mem_of_mem_drop he⟩
    · exact ⟨List.mem_of_getLast? hb, fun e he => absurd he List.not_mem_nil⟩
  rw [hstored]
  constructor
  case stores =>
    intro op hop
    obtain rfl | rfl : op = _ ∨ op = _ := by simpa using hop
    · rfl
    · rfl
  case assigns => rw [hnode]; rfl
  case typed =>
    intro ht
    rw [hnode]
    refine ⟨ht.term, ht.vote, fun e he => ?_⟩
    simp only [saved] at he
    split at he
    · obtain rfl := List.mem_singleton.mp he
      exact ht.entries _ hmem.1
    · exact ht.entries e (hmem.2 e he)
  case nonempty =>
    intro _
    rw [hnode]
    simp only
    split
    case isTrue => exact List.cons_ne_nil _ _
    case isFalse hne =>
      intro heq
      exact hne (by rw [heq]; rfl)
  case myId => rw [hnode]

theorem joined_saved (nd : RaftNode n ListCommand St) {t : ℤ} (down : Prop) [Decidable down] (ht : InInt t) :
    (if down then [StorageOp.updateMeta t (-1)] else []).foldl Saved.assign (saved nd) =
      saved (if down then nd.becomeFollower t else nd) ∧
    ((saved nd).Typed → (saved (if down then nd.becomeFollower t else nd)).Typed) ∧
    ∀ op ∈ (if down then [StorageOp.updateMeta t (-1)] else [] : List (StorageOp ListCommand)),
      op = .updateMeta (if down then nd.becomeFollower t else nd).currentTerm
        (if down then nd.becomeFollower t else nd).votedFor := by
  by_cases hd : down
  · simp only [hd, if_true]
    have hk := becomeFollower_keeps nd ht
    exact ⟨hk.assigns, hk.typed, fun op hop => List.mem_singleton.mp hop⟩
  · simp only [hd, if_false]
    exact ⟨rfl, id, fun op hop => absurd hop List.not_mem_nil⟩

theorem spliceEntries_stores {log log' entries : List (RaftLogEntry ListCommand)} {prevLogIndex : ℤ}
    {ops : List (StorageOp ListCommand)} {p q : Saved ListCommand} (hp : p.log = log)
    (hq : q.log = log') (h : spliceEntries log prevLogIndex entries = some (log', ops)) :
    (∀ op ∈ ops, Stores p q op) ∧ ops.foldl Saved.assign p = { p with log := log' } ∧
      (∀ e ∈ log', e ∈ log ∨ e ∈ entries) ∧ (log ≠ [] → log' ≠ []) := by
  subst hp hq
  unfold spliceEntries at h
  split at h
  case isTrue he =>
    obtain ⟨hlog, rfl⟩ : p.log = q.log ∧ [] = ops := by simpa using h
    refine ⟨fun op hop => absurd hop List.not_mem_nil, ?_, fun e he => Or.inl (hlog ▸ he), ?_⟩
    · rw [← hlog]
      rfl
    · rw [hlog]
      exact id
  case isFalse he =>
    obtain ⟨front, hf, h⟩ := Option.bind_eq_some_iff.mp h
    obtain ⟨back, hb, h⟩ := Option.bind_eq_some_iff.mp h
    have hkept : ∃ k, (if prevLogIndex < back.index then
        p.log.take (prevLogIndex + 1 - front.index).toNat else p.log) = p.log.take k := by
      split
      · exact ⟨_, rfl⟩
      · exact ⟨p.log.length, List.take_length.symm⟩
    obtain ⟨k, hk⟩ := hkept
    rw [hk] at h
    rw [Option.some.injEq, Prod.mk.injEq] at h
    obtain ⟨hlog, rfl⟩ := h
    refine ⟨fun op hop => ?_, ?_, fun e he => ?_, fun _ => ?_⟩
    · obtain rfl := List.mem_singleton.mp hop
      refine ⟨hlog, rfl, (p.log.take k).length, rfl, ?_, ?_⟩
      · rw [List.length_append]
        omega
      · rw [List.take_left, List.length_take, List.take_eq_take_min]
    · rw [← hlog]
      rfl
    · rw [← hlog] at he
      obtain he | he := List.mem_append.mp he
      · exact Or.inl (List.mem_of_mem_take he)
      · exact Or.inr he
    · rw [← hlog]
      exact List.append_ne_nil_of_right_ne_nil _ (by simpa using he)

theorem stores_congr {p p' q : Saved ListCommand} {op : StorageOp ListCommand}
    (hp : p.log = p'.log) (h : Stores p q op) : Stores p' q op := by
  cases op with
  | updateMeta | updateSnapshot | updateLogs => exact h
  | updateLogsWithRange =>
    obtain ⟨h1, h2, start, h3, h4, h5⟩ := h
    exact ⟨h1, h2, start, h3, h4, hp ▸ h5⟩

theorem dropped_or_fresh {log : List (RaftLogEntry ListCommand)} {front : RaftLogEntry ListCommand}
    {index term : ℤ} {hit : Bool} (hf : log.head? = some front) (hh : holds? log index term = some hit)
    (junk : ListCommand) :
    (∀ e ∈ (if hit then log.drop (index - front.index).toNat else [⟨index, term, junk⟩]),
      e ∈ log ∨ e = ⟨index, term, junk⟩) ∧
    (if hit then log.drop (index - front.index).toNat else [⟨index, term, junk⟩]) ≠ [] := by
  cases hit with
  | false => exact ⟨fun e he => Or.inr (List.mem_singleton.mp he), List.cons_ne_nil _ _⟩
  | true =>
    refine ⟨fun e he => Or.inl (List.mem_of_mem_drop he), ?_⟩
    obtain ⟨front', hf', hh⟩ := Option.bind_eq_some_iff.mp hh
    obtain ⟨back, -, hh⟩ := Option.bind_eq_some_iff.mp hh
    cases hf.symm.trans hf'
    split at hh
    case isTrue =>
      obtain ⟨e, he, -⟩ := Option.map_eq_some_iff.mp hh
      obtain ⟨k, hk, hget⟩ := at?_eq_some he
      have hlt := (List.getElem?_eq_some_iff.mp hget).1
      rw [if_pos rfl, hk, Int.toNat_natCast]
      intro hnil
      rw [List.drop_eq_nil_iff] at hnil
      omega
    case isFalse => cases hh

theorem appendEntries_keeps {args : AppendEntriesArgs ListCommand}
    {out : Outcome n ListCommand St AppendEntriesReply} (h : appendEntries nd args = some out)
    (hterm : InInt args.term) (hentries : ∀ e ∈ args.entries, EntryFits e) :
    Keeps nd out.node out.stored := by
  unfold appendEntries at h
  split at h
  case isTrue =>
    cases h
    exact keeps_nil rfl rfl
  case isFalse hle =>
    have hj := joins_ite_candidate nd (t := args.term) (by omega)
    obtain ⟨hassign, htyped, hmeta⟩ := joined_saved nd
      (args.term > nd.currentTerm ∨ nd.role = .candidate) hterm
    simp only at h
    generalize (if args.term > nd.currentTerm ∨ nd.role = .candidate
      then nd.becomeFollower args.term else nd) = nd₁ at h hj hassign htyped hmeta
    generalize (if args.term > nd.currentTerm ∨ nd.role = .candidate
      then [StorageOp.updateMeta args.term (-1)] else []) = stored at h hassign hmeta
    obtain ⟨b, hb, h⟩ := Option.bind_eq_some_iff.mp h
    cases b with
    | false =>
      cases h
      refine ⟨fun op hop => ?_, hassign, htyped, fun hne => hj.log ▸ hne, hj.myId⟩
      rw [hmeta op hop]
      exact ⟨rfl, rfl⟩
    | true =>
      simp only [if_true] at h
      obtain ⟨⟨log, ops⟩, hs, h⟩ := Option.bind_eq_some_iff.mp h
      obtain ⟨back, hback, h⟩ := Option.bind_eq_some_iff.mp h
      cases h
      obtain ⟨hstores, hassign', hmem, hne⟩ := spliceEntries_stores
        (q := saved { nd₁ with log := log }) (p := saved nd₁) rfl rfl hs
      constructor
      case stores =>
        intro op hop
        obtain hop | hop := List.mem_append.mp hop
        · rw [hmeta op hop]
          exact ⟨rfl, rfl⟩
        · exact stores_congr hj.log (hstores op hop)
      case assigns =>
        rw [List.foldl_append, hassign, hassign']
        rfl
      case typed =>
        intro ht
        refine ⟨(htyped ht).term, (htyped ht).vote, fun e he => ?_⟩
        obtain he | he := hmem e he
        · exact (htyped ht).entries e he
        · exact hentries e he
      case nonempty => 
        intro h0
        rw [← hj.log] at h0
        exact hne h0
      case myId => exact hj.myId

theorem installSnapshot_keeps [ChfsStateMachine ListCommand St] {arg : InstallSnapshotArgs}
    {junk : ListCommand} {out : Outcome n ListCommand St InstallSnapshotReply}
    (h : installSnapshot nd arg junk = some out) (hterm : InInt arg.term)
    (hindex : InInt arg.lastIncludedIndex) (hlast : InInt arg.lastIncludedTerm)
    (hjunk : InInt junk.value) : Keeps nd out.node out.stored := by
  unfold installSnapshot at h
  split at h
  case isTrue =>
    cases h
    exact keeps_nil rfl rfl
  case isFalse hle =>
    have hj := joins_ite_candidate nd (t := arg.term) (by omega)
    obtain ⟨hassign, htyped, hmeta⟩ := joined_saved nd
      (arg.term > nd.currentTerm ∨ nd.role = .candidate) hterm
    simp only at h
    generalize (if arg.term > nd.currentTerm ∨ nd.role = .candidate
      then nd.becomeFollower arg.term else nd) = nd₁ at h hj hassign htyped hmeta
    generalize (if arg.term > nd.currentTerm ∨ nd.role = .candidate
      then [StorageOp.updateMeta arg.term (-1)] else []) = stored at h hassign hmeta
    obtain ⟨front, hf, h⟩ := Option.bind_eq_some_iff.mp h
    obtain ⟨hit, hh, h⟩ := Option.bind_eq_some_iff.mp h
    have hlog := dropped_or_fresh hf hh junk
    cases h
    constructor
    case stores =>
      intro op hop
      obtain hop | hop := List.mem_append.mp hop
      · rw [hmeta op hop]
        exact ⟨rfl, rfl⟩
      · obtain rfl | rfl : op = _ ∨ op = _ := by simpa using hop
        · rfl
        · rfl
    case assigns =>
      rw [List.foldl_append, hassign]
      rfl
    case typed =>
      intro ht
      refine ⟨(htyped ht).term, (htyped ht).vote, fun e he => ?_⟩
      obtain he | rfl := hlog.1 e he
      · exact (htyped ht).entries e he
      · exact ⟨hindex, hlast, hjunk⟩
    case nonempty => exact fun _ => hlog.2
    case myId => exact hj.myId

theorem handle_keeps [ChfsStateMachine ListCommand St] {e : Event n ListCommand}
    {ops : List (StorageOp ListCommand)} (h : handle nd e = some (nd', ops)) (he : e.Typed)
    (hid : InInt (nd.myId : ℕ)) : Keeps nd nd' ops := by
  cases e with
  | requestVote args =>
    obtain ⟨out, ho, heq⟩ := Option.map_eq_some_iff.mp h
    cases heq
    exact requestVote_keeps ho he.1 he.2
  | requestVoteReply target arg reply =>
    obtain ⟨out, ho, heq⟩ := Option.map_eq_some_iff.mp h
    cases heq
    exact handleRequestVoteReply_keeps ho he
  | appendEntries args =>
    obtain ⟨out, ho, heq⟩ := Option.map_eq_some_iff.mp h
    cases heq
    exact appendEntries_keeps ho he.1 he.2
  | appendEntriesReply nodeId arg reply =>
    obtain ⟨out, ho, heq⟩ := Option.map_eq_some_iff.mp h
    cases heq
    exact handleAppendEntriesReply_keeps ho he
  | installSnapshot arg junk =>
    obtain ⟨out, ho, heq⟩ := Option.map_eq_some_iff.mp h
    cases heq
    exact installSnapshot_keeps ho he.1 he.2.1 he.2.2.1 he.2.2.2
  | installSnapshotReply nodeId arg reply =>
    cases h
    exact handleInstallSnapshotReply_keeps he
  | newCommand cmd =>
    obtain ⟨out, ho, heq⟩ := Option.map_eq_some_iff.mp h
    cases heq
    exact newCommand_keeps ho he
  | saveSnapshot =>
    obtain ⟨out, ho, heq⟩ := Option.map_eq_some_iff.mp h
    cases heq
    exact saveSnapshot_keeps ho
  | election =>
    obtain ⟨out, ho, heq⟩ := Option.map_eq_some_iff.mp h
    cases heq
    exact runBackgroundElection_keeps ho hid
  | apply =>
    obtain ⟨out, ho, heq⟩ := Option.map_eq_some_iff.mp h
    cases heq
    exact runBackgroundApply_keeps ho

end Keeps

/-- The storage of the node and its device agree with the node. -/
structure InStep (m : Machine n ListCommand St) : Prop where
  persisted : Persisted m.storage
  saved : m.storage.saved = saved m.node
  nonempty : m.node.log ≠ []

section Machine

variable [ChfsStateMachine ListCommand St] {m : Machine n ListCommand St}

theorem recover_saved {id : Fin n} {t v : ℤ} {log : List (RaftLogEntry ListCommand)}
    {snapshot : List UInt8} {nd : RaftNode n ListCommand St}
    (h : RaftNode.recover id t v log snapshot = some nd) : saved nd = ⟨t, v, log, snapshot⟩ := by
  obtain ⟨front, -, h⟩ := Option.bind_eq_some_iff.mp h
  cases h
  rfl

theorem construct_of_inStep (hm : InStep m) (fresh : ListCommand) :
    construct m.node.myId m.storage.bm fresh =
      (nodeStep m.node (.restart fresh)).map fun nd => (⟨nd, m.storage⟩ : Machine n ListCommand St) := by
  have hsaved := hm.saved
  unfold RaftLog.saved Persistence.saved at hsaved
  simp only [Saved.mk.injEq] at hsaved
  obtain ⟨h1, h2, h3, h4⟩ := hsaved
  unfold construct nodeStep
  rw [restore_of_persisted hm.persisted fresh, Option.bind_eq_bind, Option.bind_some]
  simp only [if_true]
  rw [h1, h2, h3, h4, Option.bind_eq_bind, Option.map_eq_bind]
  rfl

theorem step_of_nodeStep (hn : n ≤ 2147483648) (hm : InStep m) {a : Action n ListCommand}
    (ha : WithinDevice m.node a) {nd : RaftNode n ListCommand St} (h : nodeStep m.node a = some nd) :
    ∃ st, m.step a = some ⟨nd, st⟩ ∧ InStep ⟨nd, st⟩ := by
  have hroom := ha.2 nd h
  cases a with
  | event e =>
    obtain ⟨⟨nd', ops⟩, hh, heq⟩ := Option.map_eq_some_iff.mp h
    cases heq
    have hid : InInt (m.node.myId : ℕ) := by
      have hlt := m.node.myId.isLt
      exact ⟨by omega, by omega⟩
    have hk := handle_keeps hh ha.1 hid
    have htyped : (saved m.node).Typed := hm.saved ▸ hm.persisted.fits.toTyped
    obtain ⟨st, hs, hst, hsaved⟩ := updates_spec hm.persisted (p := saved m.node) (q := saved nd')
      (Or.inl (congrArg Saved.log hm.saved)) ⟨hk.typed htyped, hroom⟩ hk.stores
    refine ⟨st, ?_, hst, ?_, hk.nonempty hm.nonempty⟩
    · rw [Machine.step, hh, Option.bind_eq_bind, Option.bind_some]
      simp only
      rw [hs, Option.bind_eq_bind, Option.bind_some]
    · rw [hsaved, hm.saved, hk.assigns]
  | restart fresh =>
    refine ⟨m.storage, ?_, hm.persisted, ?_, ?_⟩
    · rw [Machine.step, construct_of_inStep hm fresh, h]
      rfl
    · rw [hm.saved, recover_saved h]
      rfl
    · have hlog : nd.log = m.node.log := congrArg Saved.log (recover_saved h)
      rw [hlog]
      exact hm.nonempty

theorem construct_zeroed (St : Type) [ChfsStateMachine ListCommand St] (id : Fin n) (fresh : ListCommand) :
    ∃ st, construct id (BlockManager.zeroed _ _ _) fresh =
        some (⟨RaftNode.create id, st⟩ : Machine n ListCommand St) ∧
      InStep (⟨RaftNode.create id, st⟩ : Machine n ListCommand St) := by
  have hfits : Saved.Fits ⟨0, -1, [⟨0, 0, ⟨0⟩⟩], []⟩ := by
    refine ⟨⟨⟨by decide, by decide⟩, inInt_neg_one, fun e he => ?_⟩, ⟨by decide, by decide⟩⟩
    obtain rfl := List.mem_singleton.mp he
    exact ⟨⟨by decide, by decide⟩, ⟨by decide, by decide⟩, ⟨by decide, by decide⟩⟩
  obtain ⟨st, hs, hst, hsaved⟩ := saveAll_spec
    { RaftLog.create (BlockManager.zeroed _ _ _) with
      currentTerm := 0, votedFor := -1, log := [⟨0, 0, ⟨0⟩⟩], snapshot := [] } rfl hfits
  refine ⟨st, ?_, hst, hsaved, List.cons_ne_nil _ _⟩
  unfold construct
  rw [restore_zeroed, Option.bind_eq_bind, Option.bind_some]
  simp only [Bool.false_eq_true, if_false, RaftNode.create, ChfsCommand.ofInt]
  rw [hs, Option.bind_eq_bind, Option.bind_some]

end Machine

section Defined

variable {Command : Type} [ChfsStateMachine Command St] {nd : RaftNode n Command St}

end Defined

section Runs

variable [ChfsStateMachine ListCommand St] {m₀ m : Machine n ListCommand St}

end Runs

section Samples

def lateCopyRun : List (Action 3 ListCommand) :=
  [.event (.appendEntries ⟨1, 0, 0, 0, [⟨1, 1, ⟨7⟩⟩], 0⟩), .event (.appendEntries ⟨1, 0, 1, 1, [⟨2, 1, ⟨8⟩⟩], 2⟩),
    .event .apply, .event .saveSnapshot]

end Samples

end Chfs.Raft.Persistence
