import Chfs.Raft.AcceptanceSteps

namespace Chfs.Raft.Acceptance

open Protocol Node Handlers Network FullLog Replication Election Matching LogSafety Counting
open Lib.Run Lib.Quorum Lib.LeaderLog Lib.Ballot

variable {n : ℕ} {Command St : Type} {c c' : Cluster n Command St}
  {lead : Leads (RaftLogEntry Command)} {acc : Fin n → ℤ → ℕ}

/-- The steps of a run in which, besides, no acknowledged entry is cut off, no
acknowledgement of an earlier term is counted, and winners can count. -/
def AcksKept (c : Cluster n Command St) (a : Action n Command) : Prop :=
  LeadersKept c a ∧ OnDeliver KeepsTail c a ∧ OnDeliver FreshAck c a ∧ OnDeliver CountsFit c a

instance (c : Cluster n Command St) (a : Action n Command) : Decidable (AcksKept c a) :=
  inferInstanceAs (Decidable (_ ∧ _ ∧ _ ∧ _))

def Continues (c : Cluster n Command St) (lead : Leads (RaftLogEntry Command)) (acc : Fin n → ℤ → ℕ)
    (c' : Cluster n Command St) : Prop :=
  ∃ lead' acc', AccInv c' lead' acc' ∧
    Evolves RaftLogEntry.term (ballot c lead acc) (ballot c' lead' acc')

theorem AccInv.continues (h : AccInv c' lead acc) : Continues c lead acc c' :=
  ⟨lead, acc, h, evolves_of_eq rfl rfl⟩

section Handle

variable [ChfsStateMachine Command St] {s d : Fin n} {junk : Command}

theorem AccInv.handleVoteRequest (h : AccInv c lead acc) {args : RequestVoteArgs}
    (hv : PacketVoted c.votes (.voteRequest s d args : Packet n Command))
    (hp : PacketBacked c acc (.voteRequest s d args))
    (hs : c.handle junk (.voteRequest s d args) = some c') : Continues c lead acc c' := by
  have hv' := h.votes.handleVoteRequest hv hs
  have hl' := h.logs.handle (by trivial) hs (by simp)
  obtain ⟨out, hout, hs⟩ := Option.bind_eq_some_iff.mp hs
  simp only [Option.some.injEq] at hs
  have hn : c'.nodes = Function.update c.nodes d out.node := by rw [← hs]; rfl
  have hc : c'.covered = c.covered := by rw [← hs]; rfl
  have hnet : ∀ p ∈ c'.net, p ∈ c.net ∨ PacketBacked c' acc p := by
    have hnew : c'.net = c.net ++ [.voteReply s d args out.reply] := by rw [← hs]; rfl
    rw [hnew]
    exact mem_send trivial
  have hvotes : c'.votes = if out.reply.voteGranted then (d, args.term, args.candidateId) :: c.votes
      else c.votes := by rw [← hs]
  obtain ⟨hnd, hg⟩ | ⟨nd₁, back, hj, hst, hb, hcase⟩ := requestVote_cases hout
  · rw [hg] at hvotes
    exact (h.refuse (Quiet.steady (hnd ▸ .refl)) (Or.inl hnd) (by rw [hnd]) (by rw [hnd]) hn hc
      (by simpa using hvotes) hv' hl' hnet).continues
  have hq := Quiet.steady (quiet_requestVote hj hst)
  have hcount : nd₁.role = .leader → Counted nd₁ (c.full d).length acc := by
    intro hr
    obtain ⟨heq, _⟩ := hj.eq_of_role (by rw [hr]; decide)
    rw [heq] at hr ⊢
    exact h.counted d hr
  obtain ⟨hnd, hg⟩ | ⟨_, hup, hnd, hg⟩ := hcase
  · rw [hg] at hvotes
    rw [hnd] at hn
    exact (h.quiet hq hn (full_setNode hn hc hj.log) hv' hl' (by simpa using hvotes)
      (hj.commitIndex ▸ h.commitNonneg d) hnet hcount).continues
  · rw [hg, if_pos rfl] at hvotes
    rw [hnd] at hn
    exact (h.grant hp hv hq hj.term hj.log hj.commitIndex hcount hb hup hn hc hv' hl' hvotes
      hnet).continues

omit [ChfsStateMachine Command St] in
theorem becomesLeader {nd : RaftNode n Command St} {args : RequestVoteArgs}
    {reply : RequestVoteReply} {out : Outcome n Command St Unit} (hr : nd.role = .candidate)
    (hrole : out.node.role = .leader) (hout : handleRequestVoteReply nd d args reply = some out) :
    reply.term ≤ nd.currentTerm ∧ reply.voteGranted = true ∧ nd.votesFrom d = false ∧
      n / 2 < nd.votesGot + 1 ∧ ∃ back, nd.log.getLast? = some back ∧
      out.node.commitIndex = nd.commitIndex ∧
      out.node.matchCount = if back.index - nd.commitIndex < 0 then nd.matchCount
        else List.replicate (back.index - nd.commitIndex).toNat 0 := by
  obtain ⟨_, hnd⟩ | hnd | ⟨hle, _, hg, hf, nd₁, hnd₁, hcase⟩ := handleRequestVoteReply_cases hout
  · rw [hnd] at hrole
    cases hrole
  · rw [hnd, hr] at hrole
    cases hrole
  · obtain ⟨_, hnd⟩ | ⟨hmaj, hlead⟩ := hcase
    · rw [hnd, hnd₁, hr] at hrole
      cases hrole
    · obtain ⟨back, hb, hnd⟩ := becomeLeader_cases hlead
      rw [hnd₁] at hb
      exact ⟨hle, hg, hf, hmaj, back, hb, by rw [hnd, hnd₁], by rw [hnd, hnd₁]⟩

theorem AccInv.handleVoteReply (h : AccInv c lead acc) {args : RequestVoteArgs}
    {reply : RequestVoteReply} (hk : CountsFit c (.voteReply s d args reply))
    (hs : c.handle junk (.voteReply s d args reply) = some c') (hv' : VoteInv c') :
    Continues c lead acc c' := by
  have hlog := h.logs.handleVoteReply hs hv'.nodup
  obtain ⟨out, hout, hs⟩ := Option.bind_eq_some_iff.mp hs
  simp only [Option.some.injEq] at hs
  have hn : c'.nodes = Function.update c.nodes s out.node := by rw [← hs]; rfl
  have hnet : c'.net = c.net := by rw [← hs]; rfl
  have hvotes : c'.votes = c.votes := by rw [← hs]; rfl
  have hself : c'.nodes s = out.node := by simp [hn]
  obtain ⟨hw, hf, hl⟩ | ⟨hr, hrole, ht, hw, hf, hl⟩ := hlog
  · have hquiet : Steady (c.nodes s) out.node → out.node.commitIndex = (c.nodes s).commitIndex →
        (out.node.role = .leader → Counted out.node (c.full s).length acc) →
        Continues c lead acc c' := by
      intro hst hci hcount
      exact (h.quiet hst hn hf hv' hl hvotes (hci ▸ h.commitNonneg s)
        (fun p hp => Or.inl (hnet ▸ hp)) hcount).continues
    obtain ⟨hlt, hnd⟩ | hnd | ⟨_, hr, _, _, nd₁, hnd₁, hcase⟩ := handleRequestVoteReply_cases hout
    · refine hquiet (Quiet.steady (hnd ▸ quiet_becomeFollower hlt)) (by rw [hnd]; rfl) fun hr => ?_
      rw [hnd] at hr
      cases hr
    · refine hquiet (Quiet.steady (hnd ▸ .refl)) (by rw [hnd]) fun hr => ?_
      rw [hnd] at hr ⊢
      exact h.counted s hr
    · obtain ⟨_, hnd⟩ | ⟨_, hlead⟩ := hcase
      · have hrole : out.node.role = .candidate := by rw [hnd, hnd₁, hr]
        refine hquiet ⟨by rw [hnd, hnd₁], fun _ => ⟨hr, by rw [hnd, hnd₁]⟩⟩ (by rw [hnd, hnd₁])
          fun hr' => ?_
        rw [hrole] at hr'
        cases hr'
      · -- a winner would have been recorded
        obtain ⟨_, _, hnd⟩ := becomeLeader_cases hlead
        have hrec : c'.wins = (s, out.node.currentTerm) :: c.wins := by
          rw [← hs]
          exact if_pos ⟨by rw [hr]; decide, by rw [hnd]⟩
        rw [hw] at hrec
        exact absurd hrec.symm (List.cons_ne_self _ _)
  · rw [hself] at hrole ht
    obtain ⟨hle, hg, hfrom, hmaj, back, hb, hci, hmc⟩ := becomesLeader hr hrole hout
    have hfit := hk hr hle hg hfrom hmaj back hb
    rw [if_neg (by omega)] at hmc
    have hbi := ((h.logs.rep s).last hb).1
    have hcount : Counted out.node (c.full s).length acc := by
      refine ⟨?_, fun p x hx => ?_⟩
      · rw [hmc, hci, List.length_replicate]
        have hfl : (c.full s).length = (c.covered s ++ (c.nodes s).log.tail).length := rfl
        omega
      · rw [hmc] at hx
        have hx0 := List.eq_of_mem_replicate (List.mem_of_getElem? hx)
        omega
    have hinv := h.win hr hrole ht hci hn hf hw hvotes (by rw [hnet]; exact List.Subset.refl _) hv' hl
      hcount
    refine ⟨_, acc, hinv, evolves_of_grows (grows_update_none ?_) rfl⟩
    have hnd := hv'.nodup
    rw [hw, List.map_cons, List.nodup_cons] at hnd
    exact h.logs.fresh _ hnd.1

theorem AccInv.handleAppendReply (h : AccInv c lead acc) {args : AppendEntriesArgs Command}
    {reply : AppendEntriesReply} (hp : PacketBacked c acc (.appendReply s d args reply))
    (hk : KeepsTerm c (.appendReply s d args reply : Packet n Command))
    (hfresh : FreshAck c (.appendReply s d args reply))
    (hs : c.handle junk (.appendReply s d args reply) = some c') (hv' : VoteInv c')
    (hl' : LogInv c' lead) : AccInv c' lead acc := by
  obtain ⟨out, hout, hs⟩ := Option.bind_eq_some_iff.mp hs
  cases hs
  have hq := Quiet.steady (quiet_handleAppendEntriesReply hout hk)
  obtain ⟨hlt, _⟩ | ⟨hle, hr, hok, matched, tmp, ci, cs, hma, htmp, hcm, hnd⟩ | ⟨next, hnd⟩ :=
    handleAppendEntriesReply_cases hout
  · have hk' : reply.term ≤ (c.nodes s).currentTerm := hk
    exact absurd hlt (by omega)
  · obtain ⟨hcount, hcase⟩ := h.count out.node hp hr hok (hfresh hr hle hok) hma htmp hcm
      (by rw [hnd]) (by rw [hnd]) (by rw [hnd]) (by rw [hnd])
    have hlog : out.node.log = (c.nodes s).log := by rw [hnd]
    refine h.quiet hq rfl (full_setNode rfl rfl hlog) hv' hl' rfl ?_ (fun p hpn => Or.inl hpn)
      fun _ => hcount
    have hci : out.node.commitIndex = ci := by rw [hnd]
    have h0 := h.commitNonneg s
    obtain hcase | ⟨k, _, hlt, _⟩ := hcase <;> omega
  · have hlog : out.node.log = (c.nodes s).log := by rw [hnd]
    refine h.quiet hq rfl (full_setNode rfl rfl hlog) hv' hl' rfl ?_ (fun p hpn => Or.inl hpn)
      fun hr => ?_
    · rw [hnd]
      exact h.commitNonneg s
    · rw [hnd] at hr ⊢
      exact (h.counted s hr).congr rfl rfl (fun _ => le_refl _) rfl

theorem AccInv.handleSnapshotReply (h : AccInv c lead acc) {args : InstallSnapshotArgs}
    {reply : InstallSnapshotReply} (hs : c.handle junk (.snapshotReply s d args reply) = some c')
    (hv' : VoteInv c') (hl' : LogInv c' lead) : AccInv c' lead acc := by
  cases hs
  have hq := Quiet.steady (quiet_handleInstallSnapshotReply (c.nodes s) d args reply)
  have hlogci : (handleInstallSnapshotReply (c.nodes s) d args reply).node.log = (c.nodes s).log ∧
      (handleInstallSnapshotReply (c.nodes s) d args reply).node.commitIndex =
        (c.nodes s).commitIndex := by
    obtain ⟨_, hnd⟩ | hnd | ⟨_, hnd⟩ := handleInstallSnapshotReply_cases (c.nodes s) d args reply <;>
      rw [hnd] <;> exact ⟨rfl, rfl⟩
  refine h.quiet hq rfl (full_setNode rfl rfl hlogci.1) hv' hl' rfl (hlogci.2 ▸ h.commitNonneg s)
    (fun p hpn => Or.inl hpn) fun hr => ?_
  obtain ⟨_, hnd⟩ | hnd | ⟨_, hnd⟩ := handleInstallSnapshotReply_cases (c.nodes s) d args reply
  · rw [hnd] at hr
    cases hr
  · rw [hnd] at hr ⊢
    exact h.counted s hr
  · rw [hnd] at hr ⊢
    refine (h.counted s hr).congr rfl rfl (fun j => ?_) rfl
    by_cases hj : j = d
    · subst hj
      simp
    · simp [hj]

theorem AccInv.handle (h : AccInv c lead acc) {p : Packet n Command}
    (hpv : PacketVoted c.votes p) (hph : PacketHeld c.wins lead p) (hpb : PacketBacked c acc p)
    (h2 : KeepsVote c p) (h3 : KeepsTerm c p) (h6 : KeepsTail c p) (h7 : FreshAck c p)
    (h8 : CountsFit c p)
    (hs : c.handle junk p = some c') (hv' : VoteInv c') : Continues c lead acc c' := by
  have hl' := h.logs.handle hph hs
  cases p with
  | voteRequest s d args => exact h.handleVoteRequest hpv hpb hs
  | voteReply s d args reply => exact h.handleVoteReply h8 hs hv'
  | appendRequest s d args held =>
    obtain ⟨out, hout, hs⟩ := Option.bind_eq_some_iff.mp hs
    simp only [Option.some.injEq] at hs
    have hn : c'.nodes = Function.update c.nodes d out.node := by rw [← hs]; rfl
    obtain ⟨acc', hinv⟩ := h.appendEntries hph.1 hph.2 h2 h6 hout hn (by rw [← hs]; rfl)
      (by rw [← hs]; rfl) (by rw [← hs]; rfl) hv' (hl' (by simp))
    exact ⟨lead, acc', hinv⟩
  | appendReply s d args reply =>
    exact (h.handleAppendReply hpb h3 h7 hs hv' (hl' (by simp))).continues
  | snapshotRequest s d args held =>
    obtain ⟨out, hout, hs⟩ := Option.bind_eq_some_iff.mp hs
    simp only [Option.some.injEq] at hs
    have hn : c'.nodes = Function.update c.nodes d out.node := by rw [← hs]; rfl
    obtain ⟨acc', hinv⟩ := h.installSnapshot hph.1 hph.2 h2 hout hn (by rw [← hs])
      (by rw [← hs]; rfl) (by rw [← hs]; rfl) hv' (hl' (by simp))
    exact ⟨lead, acc', hinv⟩
  | snapshotReply s d args reply =>
    exact (h.handleSnapshotReply hs hv' (hl' (by simp))).continues

omit [ChfsStateMachine Command St] in
theorem AccInv.erase (h : AccInv c lead acc) (k : ℕ) :
    AccInv { c with net := c.net.eraseIdx k } lead acc :=
  h.net rfl rfl (h.votes.net rfl rfl rfl fun _ hp => Or.inl (List.mem_of_mem_eraseIdx hp))
    (h.logs.erase k) rfl fun _ hp => Or.inl (List.mem_of_mem_eraseIdx hp)

theorem AccInv.election (h : AccInv c lead acc) {i : Fin n} (hs : c.step (.election i) = some c')
    (hv' : VoteInv c') (hl' : LogInv c' lead) : AccInv c' lead acc := by
  obtain ⟨out, hout, hs⟩ := Option.bind_eq_some_iff.mp hs
  obtain ⟨_, hnd, hrep⟩ | ⟨back, hb, hnd, hrep⟩ := runBackgroundElection_cases hout
  · rw [hrep] at hs
    simp only [Option.some.injEq, hnd, Cluster.setNode, Function.update_eq_self] at hs
    exact hs ▸ h
  · rw [hrep] at hs
    simp only [Option.some.injEq] at hs
    have hn : c'.nodes = Function.update c.nodes i out.node := by rw [← hs]; rfl
    have hc : c'.covered = c.covered := by rw [← hs]; rfl
    have hlog : out.node.log = (c.nodes i).log := by rw [hnd]
    have hf := full_setNode hn hc hlog
    have hself : c'.nodes i = out.node := by simp [hn]
    have hterm : out.node.currentTerm = (c.nodes i).currentTerm + 1 := by rw [hnd]
    refine h.stand hn hc hlog hv' hl' (by rw [hnd]) hterm (by rw [hnd]) ?_ ?_
    · rw [← hs, hterm, h.logs.myId i]
    · intro p hpn
      rw [← hs] at hpn
      obtain hpn | hpn := List.mem_append.mp hpn
      · exact Or.inl hpn
      · obtain ⟨j, _, rfl⟩ := List.mem_map.mp hpn
        refine Or.inr ⟨by rw [hself, hterm], fun _ _ => ?_⟩
        rw [hf]
        exact (h.logs.rep i).last hb

theorem AccInv.commandTest (h : AccInv c lead acc) {i : Fin n} {cmd : Command}
    (hs : c.step (.commandTest i cmd) = some c') (hv' : VoteInv c') (hl' : LogInv c' lead) : AccInv c' lead acc := by
  simp only [Cluster.step, Option.some.injEq] at hs
  have hn : c'.nodes = c.nodes := by rw [← hs]; split <;> rfl
  have hc : c'.covered = c.covered := by rw [← hs]; split <;> rfl
  have hnet : c'.net = c.net := by rw [← hs]; split <;> rfl
  have hf : c'.full = c.full := by
    funext j
    rw [Cluster.full, Cluster.full, hn, hc]
  exact h.net hn hf hv' hl' (by rw [← hs]; split <;> rfl) fun p hpn => Or.inl (hnet ▸ hpn)

omit [ChfsStateMachine Command St] in
theorem AccInv.sends (h : AccInv c lead acc) {i : Fin n} {ms : List (Fin n × Message Command)}
    (hs : { c with net := c.net ++ ms.map (packet i (c.full i)) } = c')
    (hv' : VoteInv c') (hl' : LogInv c' lead) : AccInv c' lead acc := by
  subst hs
  refine h.net rfl rfl hv' hl' rfl fun p hpn => ?_
  obtain hpn | hpn := List.mem_append.mp hpn
  · exact Or.inl hpn
  · obtain ⟨⟨j, args | args⟩, _, rfl⟩ := List.mem_map.mp hpn <;> exact Or.inr trivial

theorem AccInv.apply (h : AccInv c lead acc) {i : Fin n} (hs : c.step (.apply i) = some c')
    (hv' : VoteInv c') (hl' : LogInv c' lead) : AccInv c' lead acc := by
  obtain ⟨out, hout, hs⟩ := Option.bind_eq_some_iff.mp hs
  simp only [Option.some.injEq] at hs
  have hn : c'.nodes = Function.update c.nodes i out.1 := by rw [← hs]; rfl
  have hnet : c'.net = c.net := by rw [← hs]; rfl
  obtain ⟨state, la, hnd⟩ : ∃ state la, out.1 = { c.nodes i with state := state, lastApplied := la } := by
    obtain rfl | ⟨_, _, _, _, _, _, _, _, state, hnd⟩ := runBackgroundApply_cases hout
    · exact ⟨_, _, rfl⟩
    · exact ⟨_, _, hnd⟩
  refine h.quiet (Quiet.steady (quiet_runBackgroundApply hout)) hn
    (full_setNode hn (by rw [← hs]; rfl) (by rw [hnd])) hv' hl' (by rw [← hs]; rfl)
    (by rw [hnd]; exact h.commitNonneg i) (fun p hpn => Or.inl (hnet ▸ hpn)) fun hr => ?_
  rw [hnd] at hr ⊢
  exact (h.counted i hr).congr rfl rfl (fun _ => le_refl _) rfl

theorem AccInv.snapshot (h : AccInv c lead acc) {i : Fin n} (hs : c.step (.snapshot i) = some c')
    (hv' : VoteInv c') (hl' : LogInv c' lead) : AccInv c' lead acc := by
  obtain ⟨out, hout, hs⟩ := Option.bind_eq_some_iff.mp hs
  obtain ⟨front, hf, hs⟩ := Option.bind_eq_some_iff.mp hs
  simp only [Option.some.injEq] at hs
  have hn : c'.nodes = Function.update c.nodes i out.node := by rw [← hs]; rfl
  have hfull : c'.full = c.full := by
    funext j
    by_cases hj : j = i
    · subst hj
      have heq := (saveSnapshot_full (h.logs.rep j) hout hf).2
      rw [← hs]
      simpa [Cluster.full, Cluster.setNode] using heq
    · rw [← hs]
      simp [Cluster.full, Cluster.setNode, hj]
  obtain ⟨_, _, _, _, _, _, _, hnd⟩ := saveSnapshot_cases hout
  refine h.quiet (Quiet.steady (quiet_saveSnapshot hout)) hn hfull hv' hl' (by rw [← hs]; rfl)
    (by rw [hnd]; exact h.commitNonneg i) (fun p hpn => Or.inl ?_) fun hr => ?_
  · rw [← hs] at hpn
    exact hpn
  · rw [hnd] at hr ⊢
    exact (h.counted i hr).congr rfl rfl (fun _ => le_refl _) rfl

theorem AccInv.restart (h : AccInv c lead acc) {i : Fin n} (hs : c.step (.restart i) = some c')
    (hv' : VoteInv c') (hl' : LogInv c' lead) : AccInv c' lead acc := by
  obtain ⟨nd, hnd, hs⟩ := Option.bind_eq_some_iff.mp hs
  simp only [Option.some.injEq] at hs
  have hn : c'.nodes = Function.update c.nodes i nd := by rw [← hs]; rfl
  have hid : RaftNode.recover (c.nodes i).myId (c.nodes i).currentTerm (c.nodes i).votedFor
      (c.nodes i).log (c.nodes i).snapshot = some nd := by rw [h.logs.myId i, hnd]
  have hq := Quiet.steady (quiet_recover hid)
  obtain ⟨front, hfront, hnd⟩ := Option.bind_eq_some_iff.mp hnd
  simp only [Option.some.injEq] at hnd
  have hnet : c'.net = c.net := by rw [← hs]; rfl
  refine h.quiet hq hn (full_setNode hn (by rw [← hs]; rfl) (by rw [← hnd])) hv' hl'
    (by rw [← hs]; rfl) ?_ (fun p hpn => Or.inl (hnet ▸ hpn)) fun hr => ?_
  · have := ((h.logs.rep i).head hfront).1
    rw [← hnd]
    simp only
    omega
  · rw [← hnd] at hr
    cases hr

theorem AccInv.step (h : AccInv c lead acc) {a : Action n Command} (ha : AcksKept c a)
    (hs : c.step a = some c') : Continues c lead acc c' := by
  have hv' := h.votes.step ha.1.1 hs
  have hl' : Silent c a → LogInv c' lead := fun hsil => h.logs.silent hsil hs
  cases a with
  | election i => exact (h.election hs hv' (hl' trivial)).continues
  | deliver k junk =>
    obtain ⟨p, hk, hs⟩ := Option.bind_eq_some_iff.mp hs
    obtain ⟨⟨⟨_, h2, h3⟩, _⟩, h6, h7, h8⟩ := ha
    have hmem := List.mem_of_getElem? hk
    exact (h.erase k).handle (h.votes.packets p hmem) (h.logs.packets p hmem) (h.packets p hmem)
      (h2 p hk) (h3 p hk) (h6 p hk) (h7 p hk) (h8 p hk) hs hv'
  | drop k =>
    cases hs
    exact (h.erase k).continues
  | commandTest i cmd => exact (h.commandTest hs hv' (hl' trivial)).continues
  | commandAppend k =>
    obtain ⟨call, hk, hs⟩ := Option.bind_eq_some_iff.mp hs
    obtain ⟨out, hout, hs⟩ := Option.bind_eq_some_iff.mp hs
    simp only [Option.some.injEq] at hs
    have hn : c'.nodes = Function.update c.nodes call.1 out.node := by rw [← hs]; rfl
    exact h.command (ha.1.2 call hk) hout hn (by rw [← hs]; rfl) (by rw [← hs]; rfl)
      (by rw [← hs]; rfl) (by rw [← hs]; rfl) hv'
  | commit i | ping i =>
    obtain ⟨ms, _, hs⟩ := Option.bind_eq_some_iff.mp hs
    exact (h.sends (Option.some.inj hs) hv' (hl' trivial)).continues
  | apply i => exact (h.apply hs hv' (hl' trivial)).continues
  | snapshot i => exact (h.snapshot hs hv' (hl' trivial)).continues
  | restart i => exact (h.restart hs hv' (hl' trivial)).continues

end Handle

section Run

/-- The entry `N` of node `s` is of its current term, and a majority of the
nodes hold it in their log or inside their snapshot. -/
def HeldByMajority (c : Cluster n Command St) (s : Fin n) (N : ℤ) : Prop :=
  ∃ e, at? (c.full s) (N - 1) = some e ∧ e.term = (c.nodes s).currentTerm ∧
    ∃ Q : Finset (Fin n), Majority Q ∧ ∀ j ∈ Q, at? (c.full j) (N - 1) = some e

/-- Where a reply raises the commit index of a leader, a majority holds the
committed entry. -/
def CommitsReplicated (c : Cluster n Command St) : Packet n Command → Prop
  | .appendReply s d args reply => ∀ out, handleAppendEntriesReply (c.nodes s) d args reply = some out →
    (c.nodes s).role = .leader → (c.nodes s).commitIndex < out.node.commitIndex →
      HeldByMajority c s out.node.commitIndex
  | _ => True

theorem AccInv.chosen (h : AccInv c lead acc) {s : Fin n} (hr : (c.nodes s).role = .leader) {k : ℕ}
    {e : RaftLogEntry Command} (he : (c.full s)[k]? = some e)
    (het : e.term = (c.nodes s).currentTerm)
    (hQ : Majority (Finset.univ.filter fun j => k < acc j (c.nodes s).currentTerm)) :
    Chosen RaftLogEntry.term (Acceptance.ballot c lead acc) (c.nodes s).currentTerm k (c.full s) :=
  ⟨⟨(h.logs.leader s hr).2, e, he, het⟩, _, hQ, fun _ hi => (Finset.mem_filter.mp hi).2⟩

theorem AccInv.commitsReplicated (h : AccInv c lead acc) {p : Packet n Command}
    (hp : PacketBacked c acc p) (hk : FreshAck c p) : CommitsReplicated c p := by
  cases p with
  | appendReply s d args reply =>
    intro out hout hr hlt
    obtain ⟨_, hnd⟩ | ⟨hle, _, hok, matched, tmp, ci, cs, hma, htmp, hcm, hnd⟩ | ⟨next, hnd⟩ :=
      handleAppendEntriesReply_cases hout
    · rw [hnd] at hlt
      exact absurd hlt (lt_irrefl _)
    · obtain ⟨_, hcase⟩ := h.count out.node hp hr hok (hk hr hle hok) hma htmp hcm (by rw [hnd])
        (by rw [hnd]) (by rw [hnd]) (by rw [hnd])
      have hci : out.node.commitIndex = ci := by rw [hnd]
      obtain hcase | ⟨k, hck, _, e, he, het, hQ⟩ := hcase
      · rw [hci, hcase] at hlt
        exact absurd hlt (lt_irrefl _)
      · have hat : ∀ j, at? (c.full j) (out.node.commitIndex - 1) = (c.full j)[k]? := by
          intro j
          rw [hci, hck, add_sub_cancel_right, at?_natCast]
        have hch := h.chosen hr he het hQ
        refine ⟨e, by rw [hat, he], het, _, hQ, fun j hj => ?_⟩
        -- whoever accepted a chosen entry still holds it
        obtain ⟨r, hfull⟩ := h.ballot.chosen_held hch (Finset.mem_filter.mp hj).2
        have hkl : k < (c.full s).length := (List.getElem?_eq_some_iff.mp he).1
        have hfj : (c.full s).take (k + 1) ++ r = c.full j := hfull
        rw [hat, ← hfj, List.getElem?_append_left (by rw [List.length_take]; omega),
          List.getElem?_take, if_pos (by omega), he]
    · rw [hnd] at hlt
      exact absurd hlt (lt_irrefl _)
  | _ => trivial

variable [ChfsStateMachine Command St] [ChfsCommand Command]

theorem accInv_of_reachable (h : Reachable AcksKept c) : ∃ lead acc, AccInv c lead acc := by
  obtain ⟨g, hg⟩ := h.invariant_ghost (I := fun c (g : Leads (RaftLogEntry Command) × (Fin n → ℤ → ℕ)) =>
    AccInv c g.1 g.2) (fun _ => none, fun _ _ => 0) accInv_init fun s a t g hs ha hst => by
      obtain ⟨lead', acc', hinv, _⟩ := hs.step ha hst
      exact ⟨(lead', acc'), hinv⟩
  exact ⟨g.1, g.2, hg⟩

/-- A leader commits only what a majority holds, in every run in which
acknowledgements stay true and are counted in their own term. -/
theorem commitsReplicated_of_acksKept (h : Reachable AcksKept c) {a : Action n Command}
    (ha : OnDeliver FreshAck c a) : OnDeliver CommitsReplicated c a := by
  obtain ⟨lead, acc, hinv⟩ := accInv_of_reachable h
  cases a with
  | deliver k junk =>
    exact fun p hp => hinv.commitsReplicated (hinv.packets p (List.mem_of_getElem? hp)) (ha p hp)
  | _ => trivial

end Run

/-- The commit index that an acknowledgement makes its receiver move to, with
the receiver and its old commit index. -/
def commitOnReply (c : Cluster n Command St) (k : ℕ) : Option (Fin n × RaftRole × ℤ × ℤ) :=
  c.net[k]?.bind fun
    | .appendReply s d args reply => (handleAppendEntriesReply (c.nodes s) d args reply).map fun out =>
      (s, (c.nodes s).role, (c.nodes s).commitIndex, out.node.commitIndex)
    | _ => none

theorem heldByMajority_of_commitsReplicated {k : ℕ} {junk : Command} {s : Fin n} {ci ci' : ℤ}
    (h : OnDeliver CommitsReplicated c (.deliver k junk))
    (hd : commitOnReply c k = some (s, .leader, ci, ci')) (hlt : ci < ci') : HeldByMajority c s ci' := by
  obtain ⟨p, hp, hd⟩ := Option.bind_eq_some_iff.mp hd
  cases p with
  | appendReply s' d args reply =>
    obtain ⟨out, hout, hd⟩ := Option.map_eq_some_iff.mp hd
    simp only [Prod.mk.injEq] at hd
    obtain ⟨rfl, hr, rfl, rfl⟩ := hd
    exact h _ hp out hout hr hlt
  | _ => cases hd

theorem commitsReplicated_replicationRun : ∃ c : Cluster 3 ListCommand ListStateMachine,
    Reachable AcksKept c ∧ commitOnReply c 2 = some (0, .leader, 0, 2) ∧
      OnDeliver CommitsReplicated c (.deliver 2 ⟨0⟩) := by
  obtain ⟨c, hc⟩ : ∃ c, execOk Cluster.step (fun c a => decide (AcksKept c a))
      (init 3 ListCommand ListStateMachine) replicationRun = some c :=
    Option.isSome_iff_exists.mp (by decide +kernel)
  have hr : Reachable AcksKept c := reach_of_execOk (fun s a h => of_decide_eq_true h) hc
  have hval : (execOk Cluster.step (fun c a => decide (AcksKept c a))
      (init 3 ListCommand ListStateMachine) replicationRun).bind (fun c => commitOnReply c 2) =
      some (0, .leader, 0, 2) := by
    decide +kernel
  have hchk : (execOk Cluster.step (fun c a => decide (AcksKept c a))
      (init 3 ListCommand ListStateMachine) replicationRun).map
        (fun c => decide (OnDeliver FreshAck c (.deliver 2 ⟨0⟩))) = some true := by
    decide +kernel
  rw [hc] at hval hchk
  simp only [Option.map_some, Option.some.injEq, decide_eq_true_eq] at hchk
  exact ⟨c, hr, hval, commitsReplicated_of_acksKept hr hchk⟩

/-- The message with one command arrives after the message with both and cuts
off the second command, which has been acknowledged. -/
def lateMessageRun : List (Action 3 ListCommand) :=
  [.election 0, .deliver 0 ⟨0⟩, .deliver 1 ⟨0⟩, .commandTest 0 ⟨7⟩, .commandAppend 0, .commit 0,
    .commandTest 0 ⟨8⟩, .commandAppend 0, .commit 0, .deliver 3 ⟨0⟩, .deliver 1 ⟨0⟩]

theorem not_commitsReplicated_lateMessageRun :
    ¬ ∀ (c : Cluster 3 ListCommand ListStateMachine) (a : Action 3 ListCommand),
      Reachable (fun _ _ => True) c → OnDeliver CommitsReplicated c a := by
  intro hall
  obtain ⟨c, hc⟩ : ∃ c, exec Cluster.step (init 3 ListCommand ListStateMachine) lateMessageRun =
      some c := Option.isSome_iff_exists.mp (by decide +kernel)
  have hval : (exec Cluster.step (init 3 ListCommand ListStateMachine) lateMessageRun).bind
      (fun c => commitOnReply c 3) = some (0, .leader, 0, 2) := by
    decide +kernel
  have hfull : (exec Cluster.step (init 3 ListCommand ListStateMachine) lateMessageRun).map
      (fun c => (at? (c.full 1) 1, at? (c.full 2) 1)) = some (none, none) := by
    decide +kernel
  rw [hc] at hval hfull
  simp only [Option.map_some, Option.some.injEq, Prod.mk.injEq] at hfull
  obtain ⟨e, _, _, Q, hQ, hq⟩ := heldByMajority_of_commitsReplicated
    (hall c (.deliver 3 ⟨0⟩) (reach_of_exec hc)) hval (by decide)
  have hsub : Q ⊆ {0} := by
    intro j hj
    have hje := hq j hj
    have hnodes : ∀ j : Fin 3, j = 0 ∨ j = 1 ∨ j = 2 := by decide
    obtain rfl | rfl | rfl := hnodes j
    · simp
    · exact absurd (hfull.1.symm.trans hje) (by simp)
    · exact absurd (hfull.2.symm.trans hje) (by simp)
  have hcard := Finset.card_le_card hsub
  unfold Majority at hQ
  simp only [Fintype.card_fin, Finset.card_singleton] at hQ hcard
  omega

end Chfs.Raft.Acceptance
