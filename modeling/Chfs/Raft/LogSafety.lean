import Chfs.Raft.Matching

namespace Chfs.Raft.LogSafety

open Protocol Node Handlers Network FullLog Replication Election Matching Lib.Run Lib.LeaderLog

variable {n : ℕ} {Command St : Type} {c c' : Cluster n Command St}

section Run

variable [ChfsStateMachine Command St]

def WonOnce (c : Cluster n Command St) : Prop := (c.wins.map Prod.snd).Nodup

instance (c : Cluster n Command St) : Decidable (WonOnce c) := inferInstanceAs (Decidable (List.Nodup _))

/-- A step after which each term is still won at most once, and in which
`new_command` appends at a leader only. -/
def TermsWonOnce (c : Cluster n Command St) (a : Action n Command) : Prop :=
  LeaderAppends c a ∧ ∀ c' ∈ c.step a, WonOnce c'

instance (c : Cluster n Command St) (a : Action n Command) : Decidable (TermsWonOnce c a) :=
  inferInstanceAs (Decidable (_ ∧ _))

variable [ChfsCommand Command]

theorem logInv_of_wonOnce (h : Reachable TermsWonOnce c) : ∃ lead, LogInv c lead :=
  h.invariant_ghost (I := LogInv) (fun _ => none) logInv_init
    fun _ _ t _ hc ha hs => hc.step ha.1 hs (ha.2 t hs)

/-- An index and a term determine everything below them that two logs retain. -/
def LogsMatch (log log' : Log Command) : Prop :=
  ∀ e ∈ log, ∀ e' ∈ log', e.index = e'.index → e.term = e'.term →
    ∀ f ∈ log, ∀ f' ∈ log', f.index = f'.index → f.index < e.index → f.term = f'.term ∧
      (f ∈ log.tail → f' ∈ log'.tail → f.cmd = f'.cmd)

theorem logsMatch_of_wonOnce (h : Reachable TermsWonOnce c) (i j : Fin n) :
    LogsMatch (c.nodes i).log (c.nodes j).log := by
  obtain ⟨lead, hinv⟩ := logInv_of_wonOnce h
  intro e he e' he' hidx hterm f hf f' hf' hff hlt
  obtain ⟨m, hm, hml, hmt⟩ := (hinv.rep i).mem he
  obtain ⟨m', hm', hml', hmt'⟩ := (hinv.rep j).mem he'
  have hmm : m' = m := by omega
  subst hmm
  have htake : (c.full i).take m' = (c.full j).take m' :=
    (hinv.valid i).take_eq_of_termAt (hinv.valid j) hml hml'
      (hmt.symm.trans (hterm.trans hmt'))
  constructor
  · obtain ⟨k, hk, hkl, hkt⟩ := (hinv.rep i).mem hf
    obtain ⟨k', hk', hkl', hkt'⟩ := (hinv.rep j).mem hf'
    have hkk : k' = k := by omega
    subst hkk
    calc f.term = entryTerm (c.full i) k' := hkt
      _ = entryTerm ((c.full i).take m') k' := (entryTerm_take (by omega) hml).symm
      _ = entryTerm ((c.full j).take m') k' := by rw [htake]
      _ = entryTerm (c.full j) k' := entryTerm_take (by omega) hml'
      _ = f'.term := hkt'.symm
  · intro hft hft'
    obtain ⟨k, hk, hget⟩ := (hinv.rep i).mem_tail hft
    obtain ⟨k', hk', hget'⟩ := (hinv.rep j).mem_tail hft'
    have hkk : k' = k := by omega
    subst hkk
    have hkm : k' < m' := by omega
    have h1 : ((c.full i).take m')[k']? = some f := by
      rw [List.getElem?_take, if_pos hkm]
      exact hget
    have h2 : ((c.full j).take m')[k']? = some f' := by
      rw [List.getElem?_take, if_pos hkm]
      exact hget'
    rw [htake, h2] at h1
    cases h1
    rfl

end Run

def replicationRun : List (Action 3 ListCommand) :=
  [.election 0, .deliver 0 ⟨0⟩, .deliver 1 ⟨0⟩, .commandTest 0 ⟨7⟩, .commandAppend 0,
    .commandTest 0 ⟨8⟩, .commandAppend 0, .commit 0, .deliver 1 ⟨0⟩]

theorem logsMatch_replicationRun : ∃ c : Cluster 3 ListCommand ListStateMachine,
    Reachable TermsWonOnce c ∧ (c.nodes 0).log = [⟨0, 0, ⟨0⟩⟩, ⟨1, 1, ⟨7⟩⟩, ⟨2, 1, ⟨8⟩⟩] ∧
      (c.nodes 1).log = [⟨0, 0, ⟨0⟩⟩, ⟨1, 1, ⟨7⟩⟩, ⟨2, 1, ⟨8⟩⟩] ∧
      LogsMatch (c.nodes 0).log (c.nodes 1).log := by
  obtain ⟨c, hc⟩ : ∃ c, execOk Cluster.step (fun c a => decide (TermsWonOnce c a))
      (init 3 ListCommand ListStateMachine) replicationRun = some c :=
    Option.isSome_iff_exists.mp (by decide +kernel)
  have hr : Reachable TermsWonOnce c := reach_of_execOk (fun s a h => of_decide_eq_true h) hc
  have hlogs : (execOk Cluster.step (fun c a => decide (TermsWonOnce c a))
      (init 3 ListCommand ListStateMachine) replicationRun).map
        (fun c => ((c.nodes 0).log, (c.nodes 1).log)) =
      some ([⟨0, 0, ⟨0⟩⟩, ⟨1, 1, ⟨7⟩⟩, ⟨2, 1, ⟨8⟩⟩], [⟨0, 0, ⟨0⟩⟩, ⟨1, 1, ⟨7⟩⟩, ⟨2, 1, ⟨8⟩⟩]) := by
    decide +kernel
  rw [hc] at hlogs
  simp only [Option.map_some, Option.some.injEq, Prod.mk.injEq] at hlogs
  exact ⟨c, hr, hlogs.1, hlogs.2, logsMatch_of_wonOnce hr 0 1⟩

section Run

variable [ChfsStateMachine Command St]

/-- The steps of a run in which elections are safe and only leaders append. -/
def LeadersKept (c : Cluster n Command St) (a : Action n Command) : Prop :=
  VotesKept c a ∧ LeaderAppends c a

instance (c : Cluster n Command St) (a : Action n Command) : Decidable (LeadersKept c a) :=
  inferInstanceAs (Decidable (_ ∧ _))

/-- Where a message raises the commit index, the follower's entries up to it
are those the leader held when it built the message. -/
def CommitsVerified (c : Cluster n Command St) : Packet n Command → Prop
  | .appendRequest _ d args held => ∀ out, appendEntries (c.nodes d) args = some out →
    (c.nodes d).commitIndex < out.node.commitIndex → ∀ front ∈ out.node.log.head?, ∀ k : ℤ,
      front.index < k → k ≤ out.node.commitIndex →
        ∃ e e', at? out.node.log (k - front.index) = some e ∧ at? held (k - 1) = some e' ∧
          e.term = e'.term ∧ e.cmd = e'.cmd
  | _ => True

omit [ChfsStateMachine Command St] in
theorem commitsVerified {lead : Leads (RaftLogEntry Command)} (h : LogInv c lead)
    {p : Packet n Command} (hp : PacketHeld c.wins lead p) (hk : CommitsChecked c p) :
    CommitsVerified c p := by
  cases p with
  | appendRequest s d args held =>
    intro out hout hlt front hfront k hk1 hk2
    obtain ⟨hs, hfit⟩ := hp
    obtain ⟨_, hnd, _⟩ | ⟨nd, hj, ⟨_, hnd, _⟩ | ⟨hold, log, ops, back, hsp, hback, hnd⟩⟩ :=
      appendEntries_cases hout
    · rw [hnd] at hlt
      exact absurd hlt (lt_irrefl _)
    · rw [hnd, hj.commitIndex] at hlt
      exact absurd hlt (lt_irrefl _)
    obtain ⟨hrep, prev, hprev, _, hlen, hpl, hpre, hcase⟩ :=
      spliceEntries_full (h.rep d) (h.valid d) hs.valid hs.indexed hfit hold hsp
    have hlog : out.node.log = log := by rw [hnd]
    have hci : out.node.commitIndex = if args.leaderCommit > (c.nodes d).commitIndex
        then min args.leaderCommit back.index else (c.nodes d).commitIndex := by rw [hnd]
    rw [hlog] at hfront ⊢
    have hgt : args.leaderCommit > (c.nodes d).commitIndex := by
      by_contra hle
      rw [if_neg hle] at hci
      omega
    rw [if_pos hgt] at hci
    have hfi := (hrep.head hfront).1
    have hbi := (hrep.last hback).1
    -- up to the new commit index the follower holds the leader's entries
    obtain ⟨q, hq1, hq2, hq3⟩ : ∃ q : ℕ, out.node.commitIndex ≤ q ∧ q ≤ held.length ∧
        held.take q <+: c.covered d ++ log.tail := by
      obtain ⟨he, rfl⟩ | ⟨_, heq⟩ := hcase
      · refine ⟨prev, ?_, by omega, hpre⟩
        rw [hci, ← hprev]
        exact hk (by simp [he]) hj.term_le hold hgt back hback
      · refine ⟨prev + args.entries.length, ?_, hlen, by rw [heq]⟩
        rw [heq, List.length_take] at hbi
        omega
    obtain ⟨m, rfl⟩ : ∃ m : ℕ, k = m := ⟨k.toNat, by omega⟩
    have hle := hq3.length_le
    rw [List.length_take] at hle
    obtain ⟨e, he, hfe⟩ := hrep.at?_of_le (k := m) (by omega) (by omega)
    refine ⟨e, e, by rw [hfi, he], ?_, rfl, rfl⟩
    rw [show (m : ℤ) - 1 = ((m - 1 : ℕ) : ℤ) by omega, at?_natCast]
    obtain ⟨r, hr⟩ := hq3
    rw [← hr, List.getElem?_append_left (by rw [List.length_take]; omega), List.getElem?_take,
      if_pos (by omega)] at hfe
    exact hfe
  | _ => trivial

variable [ChfsCommand Command]

theorem leadersKept_inv (h : Reachable LeadersKept c) : VoteInv c ∧ ∃ lead, LogInv c lead := by
  refine h.invariant (I := fun c => VoteInv c ∧ ∃ lead, LogInv c lead)
    ⟨voteInv_init, _, logInv_init⟩ fun s a t hs ha hst => ?_
  obtain ⟨hv, lead, hl⟩ := hs
  have hv' := hv.step ha.1 hst
  exact ⟨hv', hl.step ha.2 hst hv'.nodup⟩

/-- A follower commits what the leader verified, in every run in which the
commit index is not moved past the checked entry. -/
theorem commitsVerified_of_checked (h : Reachable LeadersKept c) {a : Action n Command}
    (ha : OnDeliver CommitsChecked c a) : OnDeliver CommitsVerified c a := by
  obtain ⟨_, lead, hinv⟩ := leadersKept_inv h
  cases a with
  | deliver k junk =>
    exact fun p hp => commitsVerified hinv (hinv.packets p (List.mem_of_getElem? hp)) (ha p hp)
  | _ => trivial

end Run

/-- The commit index that a message makes its receiver move to, with the old
one, the receiver's log and the entries the sender held. -/
def commitOnDelivery (c : Cluster n Command St) (k : ℕ) : Option (ℤ × ℤ × Log Command × Log Command) :=
  c.net[k]?.bind fun
    | .appendRequest _ d args held => (appendEntries (c.nodes d) args).map fun out =>
      ((c.nodes d).commitIndex, out.node.commitIndex, out.node.log, held)
    | _ => none

theorem entry_of_commitsVerified {k : ℕ} {junk : Command} {ci ci' : ℤ} {log held : Log Command}
    (h : OnDeliver CommitsVerified c (.deliver k junk))
    (hd : commitOnDelivery c k = some (ci, ci', log, held)) (hlt : ci < ci')
    {front : RaftLogEntry Command} (hf : log.head? = some front) (i : ℤ) (hi : front.index < i)
    (hi' : i ≤ ci') : ∃ e e', at? log (i - front.index) = some e ∧ at? held (i - 1) = some e' ∧
      e.term = e'.term ∧ e.cmd = e'.cmd := by
  obtain ⟨p, hp, hd⟩ := Option.bind_eq_some_iff.mp hd
  cases p with
  | appendRequest s d args held' =>
    obtain ⟨out, hout, hd⟩ := Option.map_eq_some_iff.mp hd
    cases hd
    exact h _ hp out hout hlt front hf i hi hi'
  | _ => cases hd

def heartbeatRun : List (Action 3 ListCommand) :=
  replicationRun ++ [.deliver 2 ⟨0⟩, .ping 0]

theorem commitsVerified_heartbeatRun : ∃ c : Cluster 3 ListCommand ListStateMachine,
    Reachable LeadersKept c ∧ commitOnDelivery c 2 = some (0, 2,
      [⟨0, 0, ⟨0⟩⟩, ⟨1, 1, ⟨7⟩⟩, ⟨2, 1, ⟨8⟩⟩], [⟨1, 1, ⟨7⟩⟩, ⟨2, 1, ⟨8⟩⟩]) ∧
      OnDeliver CommitsVerified c (.deliver 2 ⟨0⟩) := by
  obtain ⟨c, hc⟩ : ∃ c, execOk Cluster.step (fun c a => decide (LeadersKept c a))
      (init 3 ListCommand ListStateMachine) heartbeatRun = some c :=
    Option.isSome_iff_exists.mp (by decide +kernel)
  have hr : Reachable LeadersKept c := reach_of_execOk (fun s a h => of_decide_eq_true h) hc
  have hval : (execOk Cluster.step (fun c a => decide (LeadersKept c a))
      (init 3 ListCommand ListStateMachine) heartbeatRun).bind (fun c => commitOnDelivery c 2) =
      some (0, 2, [⟨0, 0, ⟨0⟩⟩, ⟨1, 1, ⟨7⟩⟩, ⟨2, 1, ⟨8⟩⟩], [⟨1, 1, ⟨7⟩⟩, ⟨2, 1, ⟨8⟩⟩]) := by
    decide +kernel
  have hchk : (execOk Cluster.step (fun c a => decide (LeadersKept c a))
      (init 3 ListCommand ListStateMachine) heartbeatRun).map
        (fun c => decide (OnDeliver CommitsChecked c (.deliver 2 ⟨0⟩))) = some true := by
    decide +kernel
  rw [hc] at hval hchk
  simp only [Option.map_some, Option.some.injEq, decide_eq_true_eq] at hchk
  exact ⟨c, hr, hval, commitsVerified_of_checked hr hchk⟩

/-- Node 0 keeps an entry of term 1 that no one else has while node 1 commits
another one in term 2; the next heartbeat reaches node 0. -/
def divergentTailRun : List (Action 3 ListCommand) :=
  [.election 0, .deliver 0 ⟨0⟩, .deliver 1 ⟨0⟩, .commandTest 0 ⟨7⟩, .commandAppend 0, .election 1,
    .deliver 2 ⟨0⟩, .deliver 2 ⟨0⟩, .commandTest 1 ⟨8⟩, .commandAppend 0, .commit 1,
    .deliver 3 ⟨0⟩, .deliver 3 ⟨0⟩, .apply 1, .ping 1]

theorem not_commitsVerified_divergentTailRun :
    ¬ ∀ (c : Cluster 3 ListCommand ListStateMachine) (a : Action 3 ListCommand),
      Reachable (fun _ _ => True) c → OnDeliver CommitsVerified c a := by
  intro hall
  obtain ⟨c, hc⟩ : ∃ c, exec Cluster.step (init 3 ListCommand ListStateMachine) divergentTailRun =
      some c := Option.isSome_iff_exists.mp (by decide +kernel)
  have hval : (exec Cluster.step (init 3 ListCommand ListStateMachine) divergentTailRun).bind
      (fun c => commitOnDelivery c 3) =
        some (0, 1, [⟨0, 0, ⟨0⟩⟩, ⟨1, 1, ⟨7⟩⟩], [⟨1, 2, ⟨8⟩⟩]) := by
    decide +kernel
  rw [hc, Option.bind_some] at hval
  obtain ⟨e, e', he, he', ht, _⟩ := entry_of_commitsVerified
    (hall c (.deliver 3 ⟨0⟩) (reach_of_exec hc)) hval (by decide) rfl 1 (by decide) (by decide)
  cases he
  cases he'
  exact absurd ht (by decide)

end Chfs.Raft.LogSafety
