import Chfs.Raft.Counting
import Chfs.Raft.Subscripts

namespace Chfs.Raft.Progress

open Protocol Node Handlers Network FullLog Splicing Counting Subscripts Lib.Run
open Persistence (Event handle)
open Disks (event received step_event)

variable {n : ℕ} {Command St : Type} {nd nd' : RaftNode n Command St}

/-- `log.front().index <= lastApplied <= commitIndex <= log.back().index`, on a
log with consecutive indices. -/
structure Ordered (nd : RaftNode n Command St) : Prop where
  contiguous : Contiguous nd.log
  front : ∀ front ∈ nd.log.head?, front.index ≤ nd.lastApplied
  applied : nd.lastApplied ≤ nd.commitIndex
  back : ∀ back ∈ nd.log.getLast?, nd.commitIndex ≤ back.index

structure Advances (nd nd' : RaftNode n Command St) : Prop where
  commitIndex : nd.commitIndex ≤ nd'.commitIndex
  lastApplied : nd.lastApplied ≤ nd'.lastApplied

/-- An accepted message with entries reaches to the commit index, and a snapshot
to the last applied entry; one that replaces the log reaches to the commit
index. -/
def Reaches (nd : RaftNode n Command St) : Event n Command → Prop
  | .appendEntries args => nd.currentTerm ≤ args.term → ¬ args.entries.isEmpty →
    holds? nd.log args.prevLogIndex args.prevLogTerm = some true →
      nd.commitIndex ≤ args.prevLogIndex + args.entries.length
  | .installSnapshot arg _ => nd.currentTerm ≤ arg.term → nd.lastApplied ≤ arg.lastIncludedIndex ∧
    (holds? nd.log arg.lastIncludedIndex arg.lastIncludedTerm = some false →
      nd.commitIndex ≤ arg.lastIncludedIndex)
  | _ => True

theorem Advances.refl : Advances nd nd := ⟨le_refl _, le_refl _⟩

theorem Ordered.congr (h : Ordered nd) (hl : nd'.log = nd.log) (hc : nd'.commitIndex = nd.commitIndex)
    (ha : nd'.lastApplied = nd.lastApplied) : Ordered nd' ∧ Advances nd nd' :=
  ⟨⟨hl ▸ h.contiguous, by rw [hl, ha]; exact h.front, by rw [ha, hc]; exact h.applied,
    by rw [hl, hc]; exact h.back⟩, hc.ge, ha.ge⟩

section Logs

variable {log log' entries : Log Command}

theorem splice_ends {prevLogIndex t : ℤ} {ops : List (StorageOp Command)} {back : RaftLogEntry Command}
    (hprev : holds? log prevLogIndex t = some true) (hnum : Numbered (prevLogIndex + 1) entries)
    (hs : spliceEntries log prevLogIndex entries = some (log', ops)) (hb : log'.getLast? = some back) :
    log'.head? = log.head? ∧ (entries = [] ∧ log' = log ∨
      entries ≠ [] ∧ back.index = prevLogIndex + entries.length) := by
  obtain ⟨rfl, rfl⟩ | ⟨front, last, hf, hl, hne, rfl⟩ := spliceEntries_cases hs
  · exact ⟨rfl, Or.inl ⟨rfl, rfl⟩⟩
  · obtain ⟨front', -, e, hf', -, -, he, -⟩ := holds?_true hprev
    obtain rfl : front' = front := Option.some.inj (hf'.symm.trans hf)
    obtain ⟨k, hk, hget⟩ := at?_eq_some he
    obtain ⟨tl, rfl⟩ := List.head?_eq_some_iff.mp hf
    refine ⟨?_, Or.inr ⟨hne, ?_⟩⟩
    · split
      · rw [show (prevLogIndex + 1 - front'.index).toNat = k + 1 by omega]
        rfl
      · rfl
    · rw [List.getLast?_append_of_ne_nil _ hne, List.getLast?_eq_getElem?] at hb
      have := hnum _ back hb
      have := List.length_pos_iff.mpr hne
      omega

end Logs

theorem appendEntries_progress (h : Ordered nd) {args : AppendEntriesArgs Command}
    {out : Outcome n Command St AppendEntriesReply}
    (hnum : Numbered (args.prevLogIndex + 1) args.entries) (ho : appendEntries nd args = some out) :
    Reaches nd (.appendEntries args) ↔ Ordered out.node ∧ Advances nd out.node := by
  obtain ⟨hlt, hnd, -⟩ | ⟨nd₁, hj, ⟨hprev, hnd, -⟩ | ⟨hprev, log, ops, back, hs, hb, hnd⟩⟩ :=
    appendEntries_cases ho
  · rw [hnd]
    exact iff_of_true (fun hle => absurd hlt (not_lt.mpr hle)) ⟨h, .refl⟩
  · rw [hnd]
    refine iff_of_true (fun _ _ hh => ?_) (h.congr hj.log hj.commitIndex hj.lastApplied)
    rw [hprev] at hh
    cases hh
  · have hcont := contiguous_splice h.contiguous ⟨_, hprev⟩ hnum hs
    obtain ⟨hhead, hend⟩ := splice_ends hprev hnum hs hb
    have happlied := h.applied
    -- the new commit index is the old one or lies within the new log
    obtain ⟨ci, hci⟩ : ∃ ci, ci = if args.leaderCommit > nd.commitIndex
      then min args.leaderCommit back.index else nd.commitIndex := ⟨_, rfl⟩
    have hout : out.node.log = log ∧ out.node.commitIndex = ci ∧
        out.node.lastApplied = nd.lastApplied := by
      rw [hnd, hci]
      exact ⟨rfl, rfl, hj.lastApplied⟩
    have hgood : nd.commitIndex ≤ back.index ↔ nd.commitIndex ≤ ci ∧ ci ≤ back.index := by
      split at hci <;> omega
    constructor
    · intro hreach
      have hback : nd.commitIndex ≤ back.index := by
        obtain ⟨-, rfl⟩ | ⟨hne, hidx⟩ := hend
        · exact h.back back hb
        · rw [hidx]
          exact hreach hj.term_le (by simpa using hne) hprev
      obtain ⟨hge, hle⟩ := hgood.mp hback
      refine ⟨⟨hout.1 ▸ hcont, ?_, ?_, ?_⟩, ?_, ?_⟩
      · rw [hout.1, hout.2.2, hhead]
        exact h.front
      · rw [hout.2.1, hout.2.2]
        omega
      · rw [hout.1, hout.2.1, hb]
        rintro b ⟨⟩
        exact hle
      · rwa [hout.2.1]
      · exact hout.2.2.ge
    · rintro ⟨hord, hadv⟩ - hne -
      obtain ⟨hnil, -⟩ | ⟨-, hidx⟩ := hend
      · rw [hnil] at hne
        exact absurd rfl hne
      · have hle := hord.back back (hout.1 ▸ hb)
        have hge := hadv.commitIndex
        rw [← hidx]
        exact hge.trans hle

theorem installSnapshot_progress [ChfsStateMachine Command St] (h : Ordered nd)
    {arg : InstallSnapshotArgs} {junk : Command} {out : Outcome n Command St InstallSnapshotReply}
    (ho : installSnapshot nd arg junk = some out) :
    Reaches nd (.installSnapshot arg junk) ↔ Ordered out.node ∧ Advances nd out.node := by
  have hcont := contiguous_installSnapshot h.contiguous ho
  obtain ⟨hlt, hnd⟩ | ⟨nd₁, front, hit, hj, hf, hhit, hnd⟩ := installSnapshot_cases ho
  · rw [hnd]
    exact iff_of_true (fun hle => absurd hlt (not_lt.mpr hle)) ⟨h, .refl⟩
  · have happlied := h.applied
    have hout : out.node.commitIndex = max nd.commitIndex arg.lastIncludedIndex ∧
        out.node.lastApplied = arg.lastIncludedIndex := by
      rw [hnd]
      exact ⟨rfl, rfl⟩
    -- where the new log begins and ends
    have hends : ∃ front' back', out.node.log.head? = some front' ∧
        out.node.log.getLast? = some back' ∧ front'.index = arg.lastIncludedIndex ∧
        (hit = false → back'.index = arg.lastIncludedIndex) ∧
        (hit = true → arg.lastIncludedIndex ≤ back'.index ∧ nd.commitIndex ≤ back'.index) := by
      cases hit with
      | false =>
        rw [hnd]
        exact ⟨_, _, rfl, rfl, rfl, fun _ => rfl, nofun⟩
      | true =>
        obtain ⟨front', back, e, hf', hb, hle, he, -⟩ := holds?_true hhit
        obtain rfl : front' = front := Option.some.inj (hf'.symm.trans hf)
        obtain ⟨k, hk, hget⟩ := at?_eq_some he
        obtain ⟨_, _, hf₀, -, hnum, -⟩ := h.contiguous.ends
        obtain rfl := Option.some.inj (hf₀.symm.trans hf)
        have hlen := (List.getElem?_eq_some_iff.mp hget).1
        have hidx := hnum k e hget
        rw [hnd]
        simp only [if_true]
        refine ⟨e, back, ?_, ?_, by omega, nofun, fun _ => ⟨hle, h.back back hb⟩⟩
        · rw [List.head?_drop, hk, Int.toNat_natCast, hget]
        · rw [List.getLast?_drop, if_neg (by omega), hb]
    obtain ⟨front', back', hf', hb', hfi, hmiss, hhit'⟩ := hends
    constructor
    · intro hreach
      obtain ⟨hla, hci⟩ := hreach hj.term_le
      have hback : nd.commitIndex ≤ back'.index ∧ arg.lastIncludedIndex ≤ back'.index := by
        cases hit with
        | false =>
          rw [hmiss rfl]
          exact ⟨hci hhit, le_refl _⟩
        | true => exact ⟨(hhit' rfl).2, (hhit' rfl).1⟩
      refine ⟨⟨hcont, ?_, ?_, ?_⟩, ?_, ?_⟩
      · rw [hf', hout.2]
        rintro f ⟨⟩
        exact hfi.le
      · rw [hout.1, hout.2]
        exact le_max_right _ _
      · rw [hb', hout.1]
        rintro b ⟨⟩
        exact max_le hback.1 hback.2
      · rw [hout.1]
        exact le_max_left _ _
      · rwa [hout.2]
    · rintro ⟨hord, hadv⟩ -
      refine ⟨hout.2 ▸ hadv.lastApplied, fun hfalse => ?_⟩
      obtain rfl : hit = false := Option.some.inj (hhit.symm.trans hfalse)
      have hle := hord.back back' hb'
      rw [hout.1, hmiss rfl] at hle
      exact (le_max_left _ _).trans hle

theorem handleAppendEntriesReply_progress (h : Ordered nd) {nodeId : Fin n}
    {arg : AppendEntriesArgs Command} {reply : AppendEntriesReply} {out : Outcome n Command St Unit}
    (ho : handleAppendEntriesReply nd nodeId arg reply = some out) :
    Ordered out.node ∧ Advances nd out.node := by
  obtain ⟨-, hnd⟩ | ⟨-, -, -, matched, tmp, ci, counts, -, -, hc, hnd⟩ | ⟨_, hnd⟩ :=
    handleAppendEntriesReply_cases ho
  · rw [hnd]
    exact h.congr rfl rfl rfl
  · obtain ⟨rfl, -, -⟩ | ⟨i, rfl, -, -, -, front, e, hf, he, -⟩ :=
      countMatches_spec (fun p => nd.matchCount.getD p 0 + 1) _ _ _ _ hc (fun p x hx => by
        rw [List.getD_eq_getElem?_getD, hx]
        exact ⟨Nat.le_succ _, fun _ _ => le_refl _⟩)
    · rw [hnd]
      exact h.congr rfl rfl rfl
    · obtain ⟨front', back, hf', hb, -, hlen⟩ := h.contiguous.ends
      obtain rfl : front' = front := Option.some.inj (hf'.symm.trans hf)
      obtain ⟨k, hk, hget⟩ := at?_eq_some he
      have hlt := (List.getElem?_eq_some_iff.mp hget).1
      have happlied := h.applied
      rw [hnd]
      refine ⟨⟨h.contiguous, h.front, ?_, ?_⟩, ?_, le_refl _⟩
      · simp only
        omega
      · rw [hb]
        rintro b ⟨⟩
        simp only
        omega
      · simp only
        omega
  · rw [hnd]
    exact h.congr rfl rfl rfl

theorem saveSnapshot_progress [ChfsStateMachine Command St] (h : Ordered nd)
    {out : Outcome n Command St Bool} (ho : saveSnapshot nd = some out) :
    Ordered out.node ∧ Advances nd out.node := by
  have hcont := contiguous_saveSnapshot h.contiguous ho
  obtain ⟨front, back, lastLog, log, hf, hb, ⟨-, hat, rfl⟩ | ⟨hlt, -⟩, hnd⟩ := saveSnapshot_cases ho
  · obtain ⟨k, hk, hget⟩ := at?_eq_some hat
    obtain ⟨front', _, hf', -, hnum, -⟩ := h.contiguous.ends
    obtain rfl : front' = front := Option.some.inj (hf'.symm.trans hf)
    have hlen := (List.getElem?_eq_some_iff.mp hget).1
    have hidx := hnum k lastLog hget
    have hlog : out.node.log = nd.log.drop k := by
      rw [hnd]
      simp only
      rw [show (nd.lastApplied - front'.index).toNat = k by omega, if_neg (by simpa using hlen)]
    have hrest : out.node.lastApplied = nd.lastApplied ∧ out.node.commitIndex = nd.commitIndex := by
      rw [hnd]
      exact ⟨rfl, rfl⟩
    refine ⟨⟨hcont, ?_, ?_, ?_⟩, hrest.2.ge, hrest.1.ge⟩
    · rw [hlog, List.head?_drop, hget, hrest.1]
      rintro f ⟨⟩
      omega
    · rw [hrest.1, hrest.2]
      exact h.applied
    · rw [hlog, List.getLast?_drop, if_neg (by omega), hrest.2]
      exact h.back
  · have := h.back back hb
    have := h.applied
    omega

theorem runBackgroundApply_progress [ChfsStateMachine Command St] (h : Ordered nd)
    {out : RaftNode n Command St × Log Command} (ho : runBackgroundApply nd = some out) :
    Ordered out.1 ∧ Advances nd out.1 := by
  obtain rfl | ⟨front, back, hf, hb, hlt, -, -, -, state, hnd⟩ := runBackgroundApply_cases ho
  · exact ⟨h, .refl⟩
  · have hfront := h.front front hf
    rw [hnd]
    refine ⟨⟨h.contiguous, ?_, le_refl _, h.back⟩, le_refl _, hlt.le⟩
    rw [hf]
    rintro f ⟨⟩
    exact hfront.trans hlt.le

theorem newCommand_progress (h : Ordered nd) {cmd : Command} {out : Outcome n Command St (ℤ × ℤ)}
    (hcont : Contiguous out.node.log) (ho : newCommand nd cmd = some out) :
    Ordered out.node ∧ Advances nd out.node := by
  obtain ⟨back, hb, hnd⟩ := newCommand_cases ho
  have hle := h.back back hb
  obtain ⟨front, -, hf, -, -⟩ := h.contiguous.ends
  obtain ⟨tl, htl⟩ := List.head?_eq_some_iff.mp hf
  rw [hnd] at hcont ⊢
  refine ⟨⟨hcont, ?_, h.applied, ?_⟩, le_refl _, le_refl _⟩
  · have hfront := h.front
    rw [htl] at hfront ⊢
    exact hfront
  · rw [List.getLast?_append_of_ne_nil _ (List.cons_ne_nil _ _), List.getLast?_singleton]
    rintro b ⟨⟩
    simp only
    omega

/-- A handler keeps the order and moves no index back exactly when it reaches
far enough. -/
theorem handle_progress [ChfsStateMachine Command St] (h : Ordered nd) {e : Event n Command}
    {ops : List (StorageOp Command)} (he : Follows e) (hh : handle nd e = some (nd', ops)) :
    Reaches nd e ↔ Ordered nd' ∧ Advances nd nd' := by
  have hcont := contiguous_handle h.contiguous he hh
  cases e with
  | appendEntries args =>
    obtain ⟨out, ho, heq⟩ := Option.map_eq_some_iff.mp hh
    cases heq
    exact appendEntries_progress h he ho
  | installSnapshot arg junk =>
    obtain ⟨out, ho, heq⟩ := Option.map_eq_some_iff.mp hh
    cases heq
    exact installSnapshot_progress h ho
  | requestVote args =>
    obtain ⟨out, ho, heq⟩ := Option.map_eq_some_iff.mp hh
    cases heq
    refine iff_of_true trivial ?_
    obtain ⟨hnd, -⟩ | ⟨nd₁, back, hj, -, -, ⟨hnd, -⟩ | ⟨-, -, hnd, -⟩⟩ := requestVote_cases ho
    · rw [hnd]
      exact ⟨h, .refl⟩
    · rw [hnd]
      exact h.congr hj.log hj.commitIndex hj.lastApplied
    · rw [hnd]
      exact h.congr hj.log hj.commitIndex hj.lastApplied
  | requestVoteReply target arg reply =>
    obtain ⟨out, ho, heq⟩ := Option.map_eq_some_iff.mp hh
    cases heq
    refine iff_of_true trivial ?_
    obtain ⟨-, hnd⟩ | hnd | ⟨-, -, -, -, nd₁, rfl, ⟨-, hnd⟩ | ⟨-, hlead⟩⟩ :=
      handleRequestVoteReply_cases ho
    · rw [hnd]
      exact h.congr rfl rfl rfl
    · rw [hnd]
      exact ⟨h, .refl⟩
    · rw [hnd]
      exact h.congr rfl rfl rfl
    · obtain ⟨back, -, hnd⟩ := becomeLeader_cases hlead
      rw [hnd]
      exact h.congr rfl rfl rfl
  | appendEntriesReply nodeId arg reply =>
    obtain ⟨out, ho, heq⟩ := Option.map_eq_some_iff.mp hh
    cases heq
    exact iff_of_true trivial (handleAppendEntriesReply_progress h ho)
  | installSnapshotReply nodeId arg reply =>
    cases hh
    refine iff_of_true trivial ?_
    obtain ⟨-, hnd⟩ | hnd | ⟨_, hnd⟩ := handleInstallSnapshotReply_cases nd nodeId arg reply
    all_goals
      rw [hnd]
      exact h.congr rfl rfl rfl
  | newCommand cmd =>
    obtain ⟨out, ho, heq⟩ := Option.map_eq_some_iff.mp hh
    cases heq
    exact iff_of_true trivial (newCommand_progress h hcont ho)
  | saveSnapshot =>
    obtain ⟨out, ho, heq⟩ := Option.map_eq_some_iff.mp hh
    cases heq
    exact iff_of_true trivial (saveSnapshot_progress h ho)
  | election =>
    obtain ⟨out, ho, heq⟩ := Option.map_eq_some_iff.mp hh
    cases heq
    refine iff_of_true trivial ?_
    obtain ⟨-, hnd, -⟩ | ⟨back, -, hnd, -⟩ := runBackgroundElection_cases ho
    · rw [hnd]
      exact ⟨h, .refl⟩
    · rw [hnd]
      exact h.congr rfl rfl rfl
  | apply =>
    obtain ⟨out, ho, heq⟩ := Option.map_eq_some_iff.mp hh
    cases heq
    exact iff_of_true trivial (runBackgroundApply_progress h ho)

section Runs

variable [ChfsStateMachine Command St] {c c' : Cluster n Command St}

def StepReaches (c : Cluster n Command St) : Turn n Command → Prop
  | .act a => ∀ i e, event c a = some (i, e) → Reaches (c.nodes i) e
  | .again _ => True

instance (nd : RaftNode n Command St) (e : Event n Command) : Decidable (Reaches nd e) :=
  match e with
  | .appendEntries args => inferInstanceAs (Decidable (nd.currentTerm ≤ args.term →
    ¬ args.entries.isEmpty → holds? nd.log args.prevLogIndex args.prevLogTerm = some true →
      nd.commitIndex ≤ args.prevLogIndex + args.entries.length))
  | .installSnapshot arg _ => inferInstanceAs (Decidable (nd.currentTerm ≤ arg.term →
    nd.lastApplied ≤ arg.lastIncludedIndex ∧
      (holds? nd.log arg.lastIncludedIndex arg.lastIncludedTerm = some false →
        nd.commitIndex ≤ arg.lastIncludedIndex)))
  | .requestVote _ | .requestVoteReply _ _ _ | .appendEntriesReply _ _ _ | .installSnapshotReply _ _ _
  | .newCommand _ | .saveSnapshot | .election | .apply => .isTrue trivial

instance (c : Cluster n Command St) (x : Turn n Command) : Decidable (StepReaches c x) :=
  match x with
  | .act a => decidable_of_iff (∀ x ∈ event c a, Reaches (c.nodes x.1) x.2)
    ⟨fun h i e he => h (i, e) he, fun h x hx => h x.1 x.2 hx⟩
  | .again _ => .isTrue trivial

/-- Every node is in order, and no index of a node moves back but in a restart
of that node. -/
structure Progresses (c : Cluster n Command St) (x : Turn n Command) (c' : Cluster n Command St) :
    Prop where
  ordered : ∀ i, Ordered (c'.nodes i)
  advances : ∀ i, x ≠ .act (.restart i) → Advances (c.nodes i) (c'.nodes i)

theorem ordered_recover {i : Fin n} {nd nd' : RaftNode n Command St} (h : Ordered nd)
    (hr : RaftNode.recover i nd.currentTerm nd.votedFor nd.log nd.snapshot = some nd') : Ordered nd' := by
  obtain ⟨front, hf, hr⟩ := Option.bind_eq_some_iff.mp hr
  cases hr
  have hfront := h.front front hf
  have happlied := h.applied
  refine ⟨h.contiguous, ?_, le_refl _, fun back hb => ?_⟩
  · rw [hf]
    rintro f ⟨⟩
    exact le_refl _
  · exact (hfront.trans happlied).trans (h.back back hb)

theorem turn_progress {x : Turn n Command} (hlogs : LogsInv c) (h : ∀ i, Ordered (c.nodes i))
    (hs : turn c x = some c') : StepReaches c x ↔ Progresses c x c' := by
  have hsame : c'.nodes = c.nodes → Progresses c x c' := fun hn =>
    ⟨hn ▸ h, fun i _ => hn ▸ Advances.refl⟩
  cases x with
  | again k =>
    obtain ⟨p, -, rfl⟩ := Option.map_eq_some_iff.mp hs
    exact iff_of_true trivial (hsame rfl)
  | act a =>
    by_cases hr : ∃ i, a = .restart i
    · obtain ⟨i, rfl⟩ := hr
      refine iff_of_true (by rintro j e ⟨⟩) ?_
      obtain ⟨nd, hnd, hs⟩ := Option.bind_eq_some_iff.mp hs
      cases hs
      refine ⟨fun j => ?_, fun j hj => ?_⟩
      · by_cases hj : j = i
        · subst hj
          simp only [Cluster.setNode, Function.update_self]
          exact ordered_recover (h j) hnd
        · simp only [Cluster.setNode, Function.update_of_ne hj]
          exact h j
      · have hne : j ≠ i := fun heq => hj (heq ▸ rfl)
        simp only [Cluster.setNode, Function.update_of_ne hne]
        exact .refl
    · obtain ⟨he, hn⟩ | ⟨i, e, nd, ops, he, hh, hn⟩ := step_event (fun i heq => hr ⟨i, heq⟩) hs
      · refine iff_of_true (fun i e hsome => ?_) (hsame hn)
        rw [he] at hsome
        cases hsome
      · have hnode := handle_progress (h i) (hlogs.follows he) hh
        constructor
        · intro hreach
          obtain ⟨hord, hadv⟩ := hnode.mp (hreach i e he)
          refine ⟨fun j => ?_, fun j _ => ?_⟩
          · rw [hn]
            by_cases hj : j = i
            · subst hj
              rwa [Function.update_self]
            · rw [Function.update_of_ne hj]
              exact h j
          · rw [hn]
            by_cases hj : j = i
            · subst hj
              rwa [Function.update_self]
            · rw [Function.update_of_ne hj]
              exact .refl
        · intro hprog j e' he'
          rw [he] at he'
          cases he'
          have hord := hprog.ordered i
          have hadv := hprog.advances i fun heq => hr ⟨i, by cases heq; rfl⟩
          rw [hn, Function.update_self] at hord hadv
          exact hnode.mpr ⟨hord, hadv⟩

variable [ChfsCommand Command]

theorem ordered_create (i : Fin n) : Ordered (RaftNode.create i : RaftNode n Command St) := by
  refine ⟨contiguous_singleton _, ?_, le_refl _, ?_⟩
  · rintro f ⟨⟩
    exact le_refl _
  · rintro b ⟨⟩
    exact le_refl _

/-- Along a run whose messages reach far enough the indices stay in order; the
first message that does not breaks the order or moves an index back. -/
theorem progresses_iff_stepReaches (h : Reach turn StepReaches (init n Command St) c) :
    (∀ i, Ordered (c.nodes i)) ∧ ∀ x c', turn c x = some c' → (StepReaches c x ↔ Progresses c x c') := by
  have hord : ∀ i, Ordered (c.nodes i) := by
    refine (h.invariant (I := fun c => LogsInv c ∧ ∀ i, Ordered (c.nodes i))
      ⟨logsInv_init, ordered_create⟩ fun s a t hi ha hs => ?_).2
    exact ⟨hi.1.turn hs, ((turn_progress hi.1 hi.2 hs).mp ha).ordered⟩
  exact ⟨hord, fun x c' hs => turn_progress (logsInv_of_reach h) hord hs⟩

end Runs

theorem progresses_lateCopyRun : ∃ c : Cluster 3 ListCommand ListStateMachine,
    Reach turn StepReaches (init 3 ListCommand ListStateMachine) c ∧ (c.nodes 1).lastApplied = 1 ∧
      ∀ i, Ordered (c.nodes i) := by
  obtain ⟨c, hc⟩ : ∃ c, execOk turn (fun c x => decide (StepReaches c x))
      (init 3 ListCommand ListStateMachine) lateCopyRun = some c :=
    Option.isSome_iff_exists.mp (by decide +kernel)
  have hval : (execOk turn (fun c x => decide (StepReaches c x))
      (init 3 ListCommand ListStateMachine) lateCopyRun).map (fun c => (c.nodes 1).lastApplied) =
      some 1 := by decide +kernel
  rw [hc, Option.map_some, Option.some.injEq] at hval
  have hr : Reach turn StepReaches (init 3 ListCommand ListStateMachine) c :=
    reach_of_execOk (fun s a h => of_decide_eq_true h) hc
  exact ⟨c, hr, hval, (progresses_iff_stepReaches hr).1⟩

def shortMessageRun : List (Turn 3 ListCommand) :=
  [.act (.election 0), .act (.deliver 0 ⟨0⟩), .act (.deliver 1 ⟨0⟩), .act (.commandTest 0 ⟨7⟩),
    .act (.commandAppend 0), .act (.commit 0), .act (.commandTest 0 ⟨8⟩), .act (.commandAppend 0),
    .act (.commit 0), .act (.deliver 3 ⟨0⟩), .act (.deliver 4 ⟨0⟩), .act (.ping 0),
    .act (.deliver 4 ⟨0⟩), .act (.deliver 1 ⟨0⟩)]

/-- Its log then ends before its commit index. -/
theorem not_ordered_shortMessageRun : ¬ ∀ c : Cluster 3 ListCommand ListStateMachine,
    Reach turn (fun _ _ => True) (init 3 ListCommand ListStateMachine) c →
      ∀ i, Ordered (c.nodes i) := by
  intro hall
  obtain ⟨c, hc⟩ : ∃ c, exec turn (init 3 ListCommand ListStateMachine) shortMessageRun = some c :=
    Option.isSome_iff_exists.mp (by decide +kernel)
  have hval : (exec turn (init 3 ListCommand ListStateMachine) shortMessageRun).map
      (fun c => ((c.nodes 1).commitIndex, (c.nodes 1).log.getLast?)) =
      some (2, some ⟨1, 1, ⟨7⟩⟩) := by decide +kernel
  rw [hc, Option.map_some, Option.some.injEq, Prod.mk.injEq] at hval
  have hback := (hall c (reach_of_exec hc) 1).back _ hval.2
  rw [hval.1] at hback
  exact absurd hback (by decide)

end Chfs.Raft.Progress
