import Chfs.Lib.Quorum
import Chfs.Raft.Handlers
import Chfs.Raft.Network

namespace Chfs.Raft.Election

open Protocol Node Handlers Network Lib.Run Lib.Quorum

variable {n : ℕ} {Command St : Type} {c c' : Cluster n Command St}

/-- A change of a node that gives no vote, counts none and wins no term. -/
structure Quiet (nd nd' : RaftNode n Command St) : Prop where
  myId : nd'.myId = nd.myId
  term : nd.currentTerm ≤ nd'.currentTerm
  vote : nd'.currentTerm = nd.currentTerm → nd'.votedFor = nd.votedFor
  role : nd'.role ≠ .follower → nd'.currentTerm = nd.currentTerm ∧ nd'.role = nd.role ∧
    nd'.votesGot = nd.votesGot ∧ nd'.votesFrom = nd.votesFrom

structure Calm (nd nd' : RaftNode n Command St) : Prop where
  myId : nd'.myId = nd.myId
  role : nd'.role ≠ .follower → nd'.currentTerm = nd.currentTerm ∧ nd'.role = nd.role ∧
    nd'.votesGot = nd.votesGot ∧ nd'.votesFrom = nd.votesFrom

section Quiet

variable {nd nd' : RaftNode n Command St}

theorem Quiet.calm (h : Quiet nd nd') : Calm nd nd' := ⟨h.myId, h.role⟩

theorem calm_becomeFollower (t : ℤ) : Calm nd (nd.becomeFollower t) := ⟨rfl, fun h => absurd rfl h⟩

theorem calm_of_joins {t : ℤ} (h : Joins nd t nd') : Calm nd nd' := by
  cases h with
  | stay => exact ⟨rfl, fun _ => ⟨rfl, rfl, rfl, rfl⟩⟩
  | later | yield => exact calm_becomeFollower t

theorem calm_appendEntries {args : AppendEntriesArgs Command}
    {out : Outcome n Command St AppendEntriesReply} (h : appendEntries nd args = some out) :
    Calm nd out.node := by
  obtain ⟨_, hout, _⟩ | ⟨nd₁, hj, ⟨_, hout, _⟩ | ⟨_, log, _, back, _, _, hout⟩⟩ :=
    appendEntries_cases h
  · rw [hout]
    exact ⟨rfl, fun _ => ⟨rfl, rfl, rfl, rfl⟩⟩
  · rw [hout]
    exact calm_of_joins hj
  · have hc := calm_of_joins hj
    rw [hout]
    exact ⟨hc.myId, hc.role⟩

theorem calm_handleAppendEntriesReply {nodeId : Fin n} {arg : AppendEntriesArgs Command}
    {reply : AppendEntriesReply} {out : Outcome n Command St Unit}
    (h : handleAppendEntriesReply nd nodeId arg reply = some out) : Calm nd out.node := by
  obtain ⟨_, hout⟩ | ⟨_, _, _, _, _, _, _, _, _, _, hout⟩ | ⟨_, hout⟩ :=
    handleAppendEntriesReply_cases h
  · rw [hout]
    exact calm_becomeFollower _
  · rw [hout]
    exact ⟨rfl, fun _ => ⟨rfl, rfl, rfl, rfl⟩⟩
  · rw [hout]
    exact ⟨rfl, fun _ => ⟨rfl, rfl, rfl, rfl⟩⟩

theorem calm_installSnapshot [ChfsStateMachine Command St] {arg : InstallSnapshotArgs}
    {junk : Command} {out : Outcome n Command St InstallSnapshotReply}
    (h : installSnapshot nd arg junk = some out) : Calm nd out.node := by
  obtain ⟨_, hout⟩ | ⟨nd₁, _, _, hj, _, _, hout⟩ := installSnapshot_cases h
  · rw [hout]
    exact ⟨rfl, fun _ => ⟨rfl, rfl, rfl, rfl⟩⟩
  · have hc := calm_of_joins hj
    rw [hout]
    exact ⟨hc.myId, hc.role⟩

theorem Quiet.refl : Quiet nd nd := ⟨rfl, le_refl _, fun _ => rfl, fun _ => ⟨rfl, rfl, rfl, rfl⟩⟩

theorem quiet_becomeFollower {t : ℤ} (ht : nd.currentTerm < t) : Quiet nd (nd.becomeFollower t) :=
  ⟨rfl, ht.le, fun h => absurd h ht.ne', fun h => absurd rfl h⟩

theorem quiet_of_joins {t : ℤ} (h : Joins nd t nd')
    (hk : ¬ (nd.role = .candidate ∧ t = nd.currentTerm)) : Quiet nd nd' := by
  cases h with
  | stay => exact .refl
  | later ht => exact quiet_becomeFollower ht
  | yield ht hr => exact absurd ⟨hr, ht.symm⟩ hk

theorem quiet_requestVote {args : RequestVoteArgs} {nd₁ : RaftNode n Command St}
    (h : Joins nd args.term nd₁) (hs : nd.currentTerm = args.term → nd₁ = nd) : Quiet nd nd₁ := by
  cases h with
  | stay => exact .refl
  | later ht => exact quiet_becomeFollower ht
  | yield ht => exact (hs ht) ▸ .refl

theorem quiet_newCommand {cmd : Command} {out : Outcome n Command St (ℤ × ℤ)}
    (h : newCommand nd cmd = some out) : Quiet nd out.node := by
  obtain ⟨back, _, hout⟩ := newCommand_cases h
  rw [hout]
  exact ⟨rfl, le_refl _, fun _ => rfl, fun _ => ⟨rfl, rfl, rfl, rfl⟩⟩

theorem quiet_appendEntries {args : AppendEntriesArgs Command}
    {out : Outcome n Command St AppendEntriesReply} (h : appendEntries nd args = some out)
    (hk : ¬ (nd.role = .candidate ∧ args.term = nd.currentTerm)) : Quiet nd out.node := by
  obtain ⟨_, hout, _⟩ | ⟨nd₁, hj, ⟨_, hout, _⟩ | ⟨_, log, _, back, _, _, hout⟩⟩ :=
    appendEntries_cases h
  · exact hout ▸ .refl
  · exact hout ▸ quiet_of_joins hj hk
  · have hq := quiet_of_joins hj hk
    exact hout ▸ ⟨hq.myId, hq.term, hq.vote, hq.role⟩

theorem quiet_handleAppendEntriesReply {nodeId : Fin n} {arg : AppendEntriesArgs Command}
    {reply : AppendEntriesReply} {out : Outcome n Command St Unit}
    (h : handleAppendEntriesReply nd nodeId arg reply = some out)
    (hk : reply.term ≤ nd.currentTerm) : Quiet nd out.node := by
  obtain ⟨hlt, _⟩ | ⟨_, _, _, _, _, _, _, _, _, _, hout⟩ | ⟨_, hout⟩ :=
    handleAppendEntriesReply_cases h
  · exact absurd hlt (by omega)
  · exact hout ▸ ⟨rfl, le_refl _, fun _ => rfl, fun _ => ⟨rfl, rfl, rfl, rfl⟩⟩
  · exact hout ▸ ⟨rfl, le_refl _, fun _ => rfl, fun _ => ⟨rfl, rfl, rfl, rfl⟩⟩

theorem quiet_installSnapshot [ChfsStateMachine Command St] {arg : InstallSnapshotArgs}
    {junk : Command} {out : Outcome n Command St InstallSnapshotReply}
    (h : installSnapshot nd arg junk = some out)
    (hk : ¬ (nd.role = .candidate ∧ arg.term = nd.currentTerm)) : Quiet nd out.node := by
  obtain ⟨_, hout⟩ | ⟨nd₁, _, _, hj, _, _, hout⟩ := installSnapshot_cases h
  · exact hout ▸ .refl
  · have hq := quiet_of_joins hj hk
    exact hout ▸ ⟨hq.myId, hq.term, hq.vote, hq.role⟩

theorem quiet_handleInstallSnapshotReply (nd : RaftNode n Command St) (nodeId : Fin n)
    (arg : InstallSnapshotArgs) (reply : InstallSnapshotReply) :
    Quiet nd (handleInstallSnapshotReply nd nodeId arg reply).node := by
  obtain ⟨hlt, hout⟩ | hout | ⟨_, hout⟩ := handleInstallSnapshotReply_cases nd nodeId arg reply
  · exact hout ▸ quiet_becomeFollower hlt
  · rw [hout]
    exact .refl
  · exact hout ▸ ⟨rfl, le_refl _, fun _ => rfl, fun _ => ⟨rfl, rfl, rfl, rfl⟩⟩

theorem quiet_runBackgroundApply [ChfsStateMachine Command St]
    {out : RaftNode n Command St × List (RaftLogEntry Command)}
    (h : runBackgroundApply nd = some out) : Quiet nd out.1 := by
  obtain rfl | ⟨_, _, _, _, _, _, _, _, _, hout⟩ := runBackgroundApply_cases h
  · exact .refl
  · exact hout ▸ ⟨rfl, le_refl _, fun _ => rfl, fun _ => ⟨rfl, rfl, rfl, rfl⟩⟩

theorem quiet_saveSnapshot [ChfsStateMachine Command St] {out : Outcome n Command St Bool}
    (h : saveSnapshot nd = some out) : Quiet nd out.node := by
  obtain ⟨_, _, _, _, _, _, _, hout⟩ := saveSnapshot_cases h
  exact hout ▸ ⟨rfl, le_refl _, fun _ => rfl, fun _ => ⟨rfl, rfl, rfl, rfl⟩⟩

theorem quiet_recover [ChfsStateMachine Command St]
    (h : RaftNode.recover nd.myId nd.currentTerm nd.votedFor nd.log nd.snapshot = some nd') :
    Quiet nd nd' := by
  obtain ⟨front, _, h⟩ := Option.bind_eq_some_iff.mp h
  cases h
  exact ⟨rfl, le_refl _, fun _ => rfl, fun h => absurd rfl h⟩

end Quiet

def PacketVoted (votes : List (Fin n × ℤ × ℤ)) : Packet n Command → Prop
  | .voteRequest s _ args => args.candidateId = (s : ℕ)
  | .voteReply s d args reply => reply.voteGranted → (d, args.term, ((s : ℕ) : ℤ)) ∈ votes
  | _ => True

structure VoteInv (c : Cluster n Command St) : Prop where
  myId : ∀ i, (c.nodes i).myId = i
  packets : ∀ p ∈ c.net, PacketVoted c.votes p
  voter : ∀ v T x, (v, T, x) ∈ c.votes → 0 ≤ x ∧ T ≤ (c.nodes v).currentTerm ∧
    (T = (c.nodes v).currentTerm → (c.nodes v).votedFor = x)
  unique : ∀ v T x y, (v, T, x) ∈ c.votes → (v, T, y) ∈ c.votes → x = y
  votesFrom : ∀ i j, (c.nodes i).role = .candidate → (c.nodes i).votesFrom j = true →
    (j, (c.nodes i).currentTerm, ((i : ℕ) : ℤ)) ∈ c.votes
  votesGot : ∀ i, (c.nodes i).role = .candidate →
    (c.nodes i).votesGot = (Finset.univ.filter fun j => (c.nodes i).votesFrom j = true).card
  leader : ∀ i, (c.nodes i).role = .leader → (i, (c.nodes i).currentTerm) ∈ c.wins
  won : ∀ i T, (i, T) ∈ c.wins → (∃ Q : Finset (Fin n), Majority Q ∧
    ∀ j ∈ Q, (j, T, ((i : ℕ) : ℤ)) ∈ c.votes) ∧ T ≤ (c.nodes i).currentTerm ∧
    ((c.nodes i).role = .candidate → T < (c.nodes i).currentTerm)
  nodup : (c.wins.map Prod.snd).Nodup

theorem PacketVoted.mono {votes votes' : List (Fin n × ℤ × ℤ)} {p : Packet n Command}
    (h : PacketVoted votes p) (hv : votes ⊆ votes') : PacketVoted votes' p := by
  cases p with
  | voteReply s d args reply => exact fun hg => hv (h hg)
  | _ => exact h

theorem VoteInv.winner_unique (h : VoteInv c) {i j : Fin n} {T : ℤ} (hi : (i, T) ∈ c.wins)
    (hj : (j, T) ∈ c.wins) : i = j := by
  obtain ⟨⟨Q, hQ, hq⟩, _⟩ := h.won i T hi
  obtain ⟨⟨Q', hQ', hq'⟩, _⟩ := h.won j T hj
  obtain ⟨v, hv, hv'⟩ := hQ.meet hQ'
  have heq := h.unique v T _ _ (hq v hv) (hq' v hv')
  exact Fin.ext (by exact_mod_cast heq)

theorem voteInv_init [ChfsCommand Command] [ChfsStateMachine Command St] :
    VoteInv (init n Command St) where
  myId _ := rfl
  packets p hp := absurd hp (List.not_mem_nil)
  voter v T x h := absurd h (List.not_mem_nil)
  unique v T x y h := absurd h (List.not_mem_nil)
  votesFrom i j h := by cases h
  votesGot i h := by cases h
  leader i h := by cases h
  won i T h := absurd h (List.not_mem_nil)
  nodup := List.nodup_nil

theorem VoteInv.quiet (h : VoteInv c) {i : Fin n} {nd : RaftNode n Command St}
    (hq : Quiet (c.nodes i) nd) (hn : c'.nodes = Function.update c.nodes i nd)
    (hv : c'.votes = c.votes) (hw : c'.wins = c.wins)
    (hp : ∀ p ∈ c'.net, p ∈ c.net ∨ PacketVoted c.votes p) : VoteInv c' := by
  have hmove : ∀ j, Quiet (c.nodes j) (c'.nodes j) := by
    intro j
    rw [hn]
    by_cases hj : j = i
    · subst hj
      simpa using hq
    · simpa [hj] using Quiet.refl
  refine ⟨fun j => (hmove j).myId.trans (h.myId j), ?_, ?_, ?_, ?_, ?_, ?_, ?_, hw ▸ h.nodup⟩
  · intro p hpn
    rw [hv]
    exact (hp p hpn).elim (h.packets p) id
  · intro v T x hx
    obtain ⟨h0, hle, hvf⟩ := h.voter v T x (hv ▸ hx)
    have hm := hmove v
    refine ⟨h0, hle.trans hm.term, fun hT => ?_⟩
    have heq : (c'.nodes v).currentTerm = (c.nodes v).currentTerm := le_antisymm (hT ▸ hle) hm.term
    rw [hm.vote heq]
    exact hvf (hT.trans heq)
  · rw [hv]
    exact h.unique
  · intro k j hr hj
    obtain ⟨ht, hr', _, hf⟩ := (hmove k).role (by rw [hr]; decide)
    rw [hv, ht]
    exact h.votesFrom k j (hr' ▸ hr) (hf ▸ hj)
  · intro k hr
    obtain ⟨_, hr', hg, hf⟩ := (hmove k).role (by rw [hr]; decide)
    rw [hg, hf]
    exact h.votesGot k (hr' ▸ hr)
  · intro k hr
    obtain ⟨ht, hr', _, _⟩ := (hmove k).role (by rw [hr]; decide)
    rw [hw, ht]
    exact h.leader k (hr' ▸ hr)
  · intro k T hk
    obtain ⟨hQ, hle, hc⟩ := h.won k T (hw ▸ hk)
    rw [hv]
    refine ⟨hQ, hle.trans (hmove k).term, fun hr => ?_⟩
    obtain ⟨ht, hr', _, _⟩ := (hmove k).role (by rw [hr]; decide)
    rw [ht]
    exact hc (hr' ▸ hr)

theorem VoteInv.vote (h : VoteInv c) {d : Fin n} {x : ℤ} (hx : 0 ≤ x)
    (hvf : (c.nodes d).votedFor = -1 ∨ (c.nodes d).votedFor = x)
    (hn : c'.nodes = Function.update c.nodes d { c.nodes d with votedFor := x })
    (hv : c'.votes = (d, (c.nodes d).currentTerm, x) :: c.votes) (hw : c'.wins = c.wins)
    (hp : ∀ p ∈ c'.net, p ∈ c.net ∨ PacketVoted c'.votes p) : VoteInv c' := by
  have hsub : c.votes ⊆ c'.votes := hv ▸ List.subset_cons_self _ _
  have hold : ∀ y, (d, (c.nodes d).currentTerm, y) ∈ c.votes → y = x := by
    intro y hy
    obtain ⟨h0, _, hvy⟩ := h.voter _ _ _ hy
    have := hvy rfl
    omega
  have hterm : ∀ j, (c'.nodes j).currentTerm = (c.nodes j).currentTerm := by
    intro j
    by_cases hj : j = d
    · subst hj
      simp [hn]
    · simp [hn, hj]
  have hrole : ∀ j, (c'.nodes j).role = (c.nodes j).role ∧
      (c'.nodes j).votesFrom = (c.nodes j).votesFrom ∧
      (c'.nodes j).votesGot = (c.nodes j).votesGot ∧ (c'.nodes j).myId = (c.nodes j).myId := by
    intro j
    by_cases hj : j = d
    · subst hj
      simp [hn]
    · simp [hn, hj]
  refine ⟨fun j => (hrole j).2.2.2.trans (h.myId j), ?_, ?_, ?_, ?_, ?_, ?_, ?_, hw ▸ h.nodup⟩
  · exact fun p hpn => (hp p hpn).elim (fun hm => (h.packets p hm).mono hsub) id
  · intro v T y hy
    rw [hv, List.mem_cons] at hy
    rw [hterm v]
    by_cases hvd : v = d
    · subst hvd
      have hself : (c'.nodes v).votedFor = x := by simp [hn]
      obtain hy | hy := hy
      · cases hy
        exact ⟨hx, le_refl _, fun _ => hself⟩
      · obtain ⟨h0, hle, _⟩ := h.voter v T y hy
        refine ⟨h0, hle, fun hT => ?_⟩
        rw [hself, hold y (hT ▸ hy)]
    · obtain hy | hy := hy
      · cases hy
        exact absurd rfl hvd
      · simpa [hn, hvd] using h.voter v T y hy
  · intro v T y z hy hz
    rw [hv, List.mem_cons] at hy hz
    obtain hy | hy := hy
    · cases hy
      obtain hz | hz := hz
      · cases hz
        rfl
      · exact (hold z hz).symm
    · obtain hz | hz := hz
      · cases hz
        exact hold y hy
      · exact h.unique v T y z hy hz
  · intro i j hr hj
    rw [hterm]
    rw [(hrole i).1] at hr
    rw [(hrole i).2.1] at hj
    exact hsub (h.votesFrom i j hr hj)
  · intro i hr
    rw [(hrole i).1] at hr
    rw [(hrole i).2.1, (hrole i).2.2.1]
    exact h.votesGot i hr
  · intro i hr
    rw [(hrole i).1] at hr
    rw [hw, hterm]
    exact h.leader i hr
  · intro i T hi
    rw [(hrole i).1, hterm]
    obtain ⟨⟨Q, hQ, hq⟩, hle⟩ := h.won i T (hw ▸ hi)
    exact ⟨⟨Q, hQ, fun j hj => hsub (hq j hj)⟩, hle⟩

theorem VoteInv.own (h : VoteInv c) {i : Fin n} (nd : RaftNode n Command St)
    (hid : nd.myId = (c.nodes i).myId) (ht : nd.currentTerm = (c.nodes i).currentTerm)
    (hvf : nd.votedFor = (c.nodes i).votedFor)
    (hfrom : nd.role = .candidate → ∀ j, nd.votesFrom j = true →
      (j, nd.currentTerm, ((i : ℕ) : ℤ)) ∈ c.votes)
    (hgot : nd.role = .candidate →
      nd.votesGot = (Finset.univ.filter fun j => nd.votesFrom j = true).card)
    (hlead : nd.role = .leader → (i, nd.currentTerm) ∈ c'.wins)
    (hwins : c'.wins = c.wins ∧ (nd.role = .candidate → (i, nd.currentTerm) ∉ c.wins) ∨
      c'.wins = (i, nd.currentTerm) :: c.wins ∧ nd.role = .leader ∧
        nd.currentTerm ∉ c.wins.map Prod.snd ∧ ∃ Q : Finset (Fin n), Majority Q ∧
        ∀ j ∈ Q, (j, nd.currentTerm, ((i : ℕ) : ℤ)) ∈ c.votes)
    (hn : c'.nodes = Function.update c.nodes i nd) (hv : c'.votes = c.votes)
    (hp : c'.net ⊆ c.net) : VoteInv c' := by
  have hself : c'.nodes i = nd := by simp [hn]
  have hother : ∀ j, j ≠ i → c'.nodes j = c.nodes j := fun j hj => by simp [hn, hj]
  have hterm : ∀ j, (c'.nodes j).currentTerm = (c.nodes j).currentTerm := by
    intro j
    by_cases hj : j = i
    · rw [hj, hself, ht]
    · rw [hother j hj]
  have hwsub : c.wins ⊆ c'.wins := by
    obtain ⟨hw, _⟩ | ⟨hw, _⟩ := hwins
    · rw [hw]
      exact List.Subset.refl _
    · rw [hw]
      exact List.subset_cons_self _ _
  refine ⟨?_, ?_, ?_, hv ▸ h.unique, ?_, ?_, ?_, ?_, ?_⟩
  · intro j
    by_cases hj : j = i
    · rw [hj, hself, hid, h.myId]
    · rw [hother j hj, h.myId]
  · intro p hpn
    rw [hv]
    exact h.packets p (hp hpn)
  · intro v T x hx
    rw [hterm]
    obtain ⟨h0, hle, hvx⟩ := h.voter v T x (hv ▸ hx)
    refine ⟨h0, hle, ?_⟩
    by_cases hvi : v = i
    · rw [hvi, hself, hvf]
      exact hvi ▸ hvx
    · rw [hother v hvi]
      exact hvx
  · intro k j hr hj
    rw [hv]
    by_cases hk : k = i
    · subst hk
      rw [hself] at hr hj ⊢
      exact hfrom hr j hj
    · rw [hother k hk] at hr hj ⊢
      exact h.votesFrom k j hr hj
  · intro k hr
    by_cases hk : k = i
    · subst hk
      rw [hself] at hr ⊢
      exact hgot hr
    · rw [hother k hk] at hr ⊢
      exact h.votesGot k hr
  · intro k hr
    by_cases hk : k = i
    · subst hk
      rw [hself] at hr ⊢
      exact hlead hr
    · rw [hother k hk] at hr ⊢
      exact hwsub (h.leader k hr)
  · intro k T hk
    rw [hv]
    obtain ⟨hw, hnot⟩ | ⟨hw, hl, hfresh, hQ⟩ := hwins
    · rw [hw] at hk
      obtain ⟨hQ, hle, hc⟩ := h.won k T hk
      rw [hterm]
      refine ⟨hQ, hle, fun hr => ?_⟩
      by_cases hki : k = i
      · subst hki
        rw [hself] at hr
        refine lt_of_le_of_ne hle fun heq => hnot hr ?_
        rw [ht, ← heq]
        exact hk
      · rw [hother k hki] at hr
        exact hc hr
    · rw [hw, List.mem_cons] at hk
      obtain hk | hk := hk
      · cases hk
        rw [hself]
        exact ⟨hQ, le_refl _, fun hr => by rw [hl] at hr; cases hr⟩
      · obtain ⟨hQ', hle, hc⟩ := h.won k T hk
        rw [hterm]
        refine ⟨hQ', hle, fun hr => ?_⟩
        by_cases hki : k = i
        · subst hki
          rw [hself, hl] at hr
          cases hr
        · rw [hother k hki] at hr
          exact hc hr
  · obtain ⟨hw, _⟩ | ⟨hw, _, hfresh, _⟩ := hwins
    · rw [hw]
      exact h.nodup
    · rw [hw, List.map_cons, List.nodup_cons]
      exact ⟨hfresh, h.nodup⟩

theorem VoteInv.net (h : VoteInv c) (hn : c'.nodes = c.nodes) (hv : c'.votes = c.votes)
    (hw : c'.wins = c.wins) (hp : ∀ p ∈ c'.net, p ∈ c.net ∨ PacketVoted c.votes p) :
    VoteInv c' where
  myId := hn ▸ h.myId
  packets p hpn := hv ▸ (hp p hpn).elim (h.packets p) id
  voter := hv ▸ hn ▸ h.voter
  unique := hv ▸ h.unique
  votesFrom := hv ▸ hn ▸ h.votesFrom
  votesGot := hn ▸ h.votesGot
  leader := hw ▸ hn ▸ h.leader
  won := hv ▸ hw ▸ hn ▸ h.won
  nodup := hw ▸ h.nodup

theorem VoteInv.stand (h : VoteInv c) {i : Fin n} (nd : RaftNode n Command St)
    (hid : nd.myId = i) (ht : nd.currentTerm = (c.nodes i).currentTerm + 1)
    (hvf : nd.votedFor = (i : ℕ)) (hr : nd.role = .candidate) (hg : nd.votesGot = 1)
    (hf : nd.votesFrom = Function.update (fun _ => false) i true)
    (hn : c'.nodes = Function.update c.nodes i nd)
    (hv : c'.votes = (i, nd.currentTerm, ((i : ℕ) : ℤ)) :: c.votes) (hw : c'.wins = c.wins)
    (hp : ∀ p ∈ c'.net, p ∈ c.net ∨ PacketVoted c'.votes p) : VoteInv c' := by
  -- the node learns of the term, votes for itself, and only then counts its vote
  have h₁ : VoteInv (c.setNode i ((c.nodes i).becomeFollower nd.currentTerm)) :=
    h.quiet (quiet_becomeFollower (by omega)) rfl rfl rfl fun p hpn => Or.inl hpn
  obtain ⟨nd₂, hnd₂⟩ : ∃ nd₂ : RaftNode n Command St, nd₂ =
    { (c.nodes i).becomeFollower nd.currentTerm with votedFor := (i : ℕ) } := ⟨_, rfl⟩
  have h₂ : VoteInv { c' with nodes := Function.update c.nodes i nd₂ } := by
    refine h₁.vote (d := i) (x := (i : ℕ)) (by omega) (Or.inl ?_) ?_ ?_ hw hp
    · simp [Cluster.setNode, RaftNode.becomeFollower]
    · simp [Cluster.setNode, hnd₂]
    · simpa [Cluster.setNode, RaftNode.becomeFollower] using hv
  refine h₂.own (i := i) nd ?_ ?_ ?_ ?_ ?_ ?_ ?_ (by simp [hn]) rfl
    (List.Subset.refl _)
  · simp [hnd₂, RaftNode.becomeFollower, h.myId i, hid]
  · simp [hnd₂, RaftNode.becomeFollower]
  · simp [hnd₂, hvf]
  · intro _ j hj
    have hji : j = i := by
      by_contra hne
      simp [hf, hne] at hj
    subst hji
    simp [hv]
  · intro _
    have hone : (Finset.univ.filter fun j => nd.votesFrom j = true) = {i} := by
      ext j
      by_cases hj : j = i
      · simp [hf, hj]
      · simp [hf, hj]
    rw [hg, hone, Finset.card_singleton]
  · intro hl
    rw [hr] at hl
    cases hl
  · refine Or.inl ⟨rfl, fun _ hmem => ?_⟩
    have hmem' : (i, nd.currentTerm) ∈ c.wins := hw ▸ hmem
    have := (h.won _ _ hmem').2.1
    omega

theorem VoteInv.count (h : VoteInv c) {s d : Fin n} {nd nd₁ : RaftNode n Command St}
    (hr : (c.nodes s).role = .candidate) (hf : (c.nodes s).votesFrom d = false)
    (hvote : (d, (c.nodes s).currentTerm, ((s : ℕ) : ℤ)) ∈ c.votes)
    (hnd₁ : nd₁ = { c.nodes s with
      votesGot := (c.nodes s).votesGot + 1
      votesFrom := Function.update (c.nodes s).votesFrom d true })
    (hcase : ((c.nodes s).votesGot + 1 ≤ n / 2 ∧ nd = nd₁) ∨
      (n / 2 < (c.nodes s).votesGot + 1 ∧ becomeLeader nd₁ = some nd))
    (hn : c'.nodes = Function.update c.nodes s nd) (hv : c'.votes = c.votes)
    (hw : c'.wins = if nd.role = .leader then (s, nd.currentTerm) :: c.wins else c.wins)
    (hp : c'.net ⊆ c.net) : VoteInv c' := by
  have hfrom : ∀ j, nd₁.votesFrom j = true →
      (j, (c.nodes s).currentTerm, ((s : ℕ) : ℤ)) ∈ c.votes := by
    intro j hj
    by_cases hjd : j = d
    · exact hjd ▸ hvote
    · exact h.votesFrom s j hr (by simpa [hnd₁, hjd] using hj)
  have hgot : nd₁.votesGot = (Finset.univ.filter fun j => nd₁.votesFrom j = true).card := by
    have hins : (Finset.univ.filter fun j => nd₁.votesFrom j = true) =
        insert d (Finset.univ.filter fun j => (c.nodes s).votesFrom j = true) := by
      ext j
      by_cases hjd : j = d
      · simp [hnd₁, hjd]
      · simp [hnd₁, hjd]
    rw [hins, Finset.card_insert_of_notMem (by simp [hf]), ← h.votesGot s hr, hnd₁]
  have hnot : (s, (c.nodes s).currentTerm) ∉ c.wins :=
    fun hm => lt_irrefl _ ((h.won _ _ hm).2.2 hr)
  obtain ⟨_, rfl⟩ | ⟨hmaj, hlead⟩ := hcase
  · have hrole : nd.role = .candidate := by rw [hnd₁, hr]
    have hterm : nd.currentTerm = (c.nodes s).currentTerm := by rw [hnd₁]
    rw [hrole, if_neg (by decide)] at hw
    refine h.own nd (by rw [hnd₁]) hterm (by rw [hnd₁]) (fun _ j hj => hterm ▸ hfrom j hj)
      (fun _ => hgot) (fun hl => by rw [hrole] at hl; cases hl)
      (Or.inl ⟨hw, fun _ => hterm ▸ hnot⟩) hn hv hp
  · obtain ⟨back, _, hnd⟩ := becomeLeader_cases hlead
    have hrole : nd.role = .leader := by rw [hnd]
    have hQ : Majority (Finset.univ.filter fun j => nd₁.votesFrom j = true) := by
      have hg1 : nd₁.votesGot = (c.nodes s).votesGot + 1 := by rw [hnd₁]
      unfold Majority
      rw [← hgot, hg1, Fintype.card_fin]
      omega
    have hterm : nd.currentTerm = (c.nodes s).currentTerm := by rw [hnd, hnd₁]
    rw [if_pos hrole] at hw
    refine h.own nd (by rw [hnd, hnd₁]) hterm (by rw [hnd, hnd₁])
      (fun hc => by rw [hrole] at hc; cases hc) (fun hc => by rw [hrole] at hc; cases hc)
      (fun _ => by rw [hw]; exact List.mem_cons_self) ?_ hn hv hp
    have hq : ∀ j ∈ Finset.univ.filter (fun j => nd₁.votesFrom j = true),
        (j, nd.currentTerm, ((s : ℕ) : ℤ)) ∈ c.votes :=
      fun j hj => hterm ▸ hfrom j (Finset.mem_filter.mp hj).2
    refine Or.inr ⟨hw, hrole, ?_, _, hQ, hq⟩
    -- an earlier winner of the term would share a voter with this one
    intro hmem
    obtain ⟨⟨j, T⟩, hj, hT⟩ := List.mem_map.mp hmem
    simp only at hT
    subst hT
    obtain ⟨⟨Q', hQ', hq'⟩, _⟩ := h.won j _ hj
    obtain ⟨v, hv1, hv2⟩ := hQ.meet hQ'
    have heq := h.unique v _ _ _ (hq v hv1) (hq' v hv2)
    have hsj : s = j := Fin.ext (by exact_mod_cast heq)
    subst hsj
    exact hnot (hterm ▸ hj)

section Run

variable [ChfsStateMachine Command St]

theorem VoteInv.handleVoteRequest (h : VoteInv c) {s d : Fin n} {args : RequestVoteArgs}
    {junk : Command} (hp : PacketVoted c.votes (.voteRequest s d args : Packet n Command))
    (hs : c.handle junk (.voteRequest s d args) = some c') : VoteInv c' := by
  obtain ⟨out, hout, hs⟩ := Option.bind_eq_some_iff.mp hs
  cases hs
  have hcand : args.candidateId = (s : ℕ) := hp
  have hquiet : Quiet (c.nodes d) out.node → out.reply.voteGranted = false →
      VoteInv { (c.setNode d out.node).send [.voteReply s d args out.reply] with
        votes := if out.reply.voteGranted then (d, args.term, args.candidateId) :: c.votes
          else c.votes } := by
    intro hq hg
    refine h.quiet hq rfl (if_neg (by simp [hg])) rfl fun p hpn => ?_
    obtain hpn | hpn := List.mem_append.mp hpn
    · exact Or.inl hpn
    · rw [List.mem_singleton.mp hpn]
      exact Or.inr fun hg' => by simp [hg] at hg'
  obtain ⟨hnd, hg⟩ | ⟨nd₁, back, hj, hst, _, ⟨hnd, hg⟩ | ⟨hvf, _, hnd, hg⟩⟩ := requestVote_cases hout
  · exact hquiet (hnd ▸ .refl) hg
  · exact hquiet (hnd ▸ quiet_requestVote hj hst) hg
  · have h₁ : VoteInv (c.setNode d nd₁) :=
      h.quiet (quiet_requestVote hj hst) rfl rfl rfl fun p hpn => Or.inl hpn
    refine h₁.vote (d := d) (x := args.candidateId) (by omega) ?_ ?_ ?_ rfl ?_
    · simpa [Cluster.setNode] using hvf
    · simp [Cluster.setNode, Cluster.send, hnd]
    · simp [Cluster.setNode, hg, hj.term]
    · intro p hpn
      obtain hpn | hpn := List.mem_append.mp hpn
      · exact Or.inl hpn
      · rw [List.mem_singleton.mp hpn]
        exact Or.inr fun _ => by simp [hg, hcand]

/-- All that a step can do to votes and candidacies. -/
inductive Ballots (c : Cluster n Command St) (a : Action n Command) (c' : Cluster n Command St) : Prop
  | still : c'.nodes = c.nodes → c'.votes = c.votes → c'.wins = c.wins →
      (∀ p ∈ c'.net, p ∈ c.net ∨ PacketVoted c.votes p) → Ballots c a c'
  | calm (i : Fin n) (nd : RaftNode n Command St) : Calm (c.nodes i) nd →
      (OnDeliver KeepsVote c a → OnDeliver KeepsTerm c a → Quiet (c.nodes i) nd) →
      c'.nodes = Function.update c.nodes i nd → c'.votes = c.votes → c'.wins = c.wins →
      (∀ p ∈ c'.net, p ∈ c.net ∨ PacketVoted c.votes p) → Ballots c a c'
  | grant (s d : Fin n) (args : RequestVoteArgs) (nd : RaftNode n Command St) :
      .voteRequest s d args ∈ c.net → Quiet (c.nodes d) nd → nd.currentTerm = args.term →
      nd.votedFor = -1 ∨ nd.votedFor = args.candidateId →
      c'.nodes = Function.update c.nodes d { nd with votedFor := args.candidateId } →
      c'.votes = (d, args.term, args.candidateId) :: c.votes → c'.wins = c.wins →
      (∀ p ∈ c'.net, p ∈ c.net ∨ ∃ reply, p = .voteReply s d args reply) → Ballots c a c'
  | stand (i : Fin n) (args : RequestVoteArgs) (nd : RaftNode n Command St) :
      nd.myId = (c.nodes i).myId → nd.currentTerm = (c.nodes i).currentTerm + 1 →
      nd.votedFor = ((c.nodes i).myId : ℕ) → nd.role = .candidate → nd.votesGot = 1 →
      nd.votesFrom = Function.update (fun _ => false) (c.nodes i).myId true →
      args.term = nd.currentTerm → args.candidateId = ((c.nodes i).myId : ℕ) →
      c'.nodes = Function.update c.nodes i nd →
      c'.votes = (i, args.term, args.candidateId) :: c.votes → c'.wins = c.wins →
      (∀ p ∈ c'.net, p ∈ c.net ∨ ∃ j, p = .voteRequest i j args) → Ballots c a c'
  | count (s d : Fin n) (args : RequestVoteArgs) (reply : RequestVoteReply)
      (nd nd₁ : RaftNode n Command St) : .voteReply s d args reply ∈ c.net →
      reply.voteGranted → (c.nodes s).role = .candidate → (c.nodes s).votesFrom d = false →
      (OnDeliver FreshVote c a → args.term = (c.nodes s).currentTerm) →
      nd₁ = { c.nodes s with
        votesGot := (c.nodes s).votesGot + 1
        votesFrom := Function.update (c.nodes s).votesFrom d true } →
      ((c.nodes s).votesGot + 1 ≤ n / 2 ∧ nd = nd₁) ∨
        (n / 2 < (c.nodes s).votesGot + 1 ∧ becomeLeader nd₁ = some nd) →
      c'.nodes = Function.update c.nodes s nd → c'.votes = c.votes →
      (c'.wins = if nd.role = .leader then (s, nd.currentTerm) :: c.wins else c.wins) →
      c'.net ⊆ c.net → Ballots c a c'

theorem deliver_ballots {k : ℕ} {junk : Command} {p : Packet n Command} (hk : c.net[k]? = some p)
    (hs : { c with net := c.net.eraseIdx k }.handle junk p = some c') :
    Ballots c (.deliver k junk) c' := by
  have hmem : p ∈ c.net := List.mem_of_getElem? hk
  have hnet : ∀ q ∈ c.net.eraseIdx k, q ∈ c.net := fun q hq => List.mem_of_mem_eraseIdx hq
  have hnew : ∀ (q : Packet n Command), PacketVoted c.votes q →
      ∀ r ∈ c.net.eraseIdx k ++ [q], r ∈ c.net ∨ PacketVoted c.votes r := by
    intro q hq r hr
    obtain hr | hr := List.mem_append.mp hr
    · exact Or.inl (hnet r hr)
    · rw [List.mem_singleton.mp hr]
      exact Or.inr hq
  cases p with
  | voteRequest s d args =>
    obtain ⟨out, hout, hs⟩ := Option.bind_eq_some_iff.mp hs
    obtain rfl := Option.some.inj hs
    have hcalm : Quiet (c.nodes d) out.node → out.reply.voteGranted = false →
        Ballots c (.deliver k junk) { (({ c with net := c.net.eraseIdx k } :
          Cluster n Command St).setNode d out.node).send [.voteReply s d args out.reply] with
          votes := if out.reply.voteGranted then (d, args.term, args.candidateId) :: c.votes
            else c.votes } := by
      intro hq hg
      refine .calm d out.node hq.calm (fun _ _ => hq) rfl (if_neg (by simp [hg])) rfl (hnew _ ?_)
      exact fun hg' => by simp [hg] at hg'
    obtain ⟨hnd, hg⟩ | ⟨nd₁, back, hj, hst, _, ⟨hnd, hg⟩ | ⟨hvf, _, hnd, hg⟩⟩ := requestVote_cases hout
    · exact hcalm (hnd ▸ .refl) hg
    · exact hcalm (hnd ▸ quiet_requestVote hj hst) hg
    · refine .grant s d args nd₁ hmem (quiet_requestVote hj hst) hj.term hvf ?_ (if_pos hg) rfl ?_
      · simp [Cluster.setNode, Cluster.send, hnd]
      · intro q hq
        obtain hq | hq := List.mem_append.mp hq
        · exact Or.inl (hnet q hq)
        · exact Or.inr ⟨_, List.mem_singleton.mp hq⟩
  | voteReply s d args reply =>
    obtain ⟨out, hout, hs⟩ := Option.bind_eq_some_iff.mp hs
    obtain rfl := Option.some.inj hs
    have hcalm : Quiet (c.nodes s) out.node → Ballots c (.deliver k junk)
        { ({ c with net := c.net.eraseIdx k } : Cluster n Command St).setNode s out.node with
          wins := if (c.nodes s).role ≠ .leader ∧ out.node.role = .leader
            then (s, out.node.currentTerm) :: c.wins else c.wins } := by
      intro hq
      refine .calm s out.node hq.calm (fun _ _ => hq) rfl rfl ?_ fun q hq => Or.inl (hnet q hq)
      exact if_neg fun hc => hc.1 ((hq.role (by rw [hc.2]; decide)).2.1 ▸ hc.2)
    obtain ⟨hlt, hnd⟩ | hnd | ⟨hle, hr, hg, hf, nd₁, hnd₁, hcase⟩ := handleRequestVoteReply_cases hout
    · exact hcalm (hnd ▸ quiet_becomeFollower hlt)
    · exact hcalm (hnd ▸ .refl)
    · refine .count s d args reply out.node nd₁ hmem hg hr hf ?_ hnd₁ hcase rfl rfl ?_ hnet
      · exact fun hfresh => hfresh _ hk hr hle hg hf
      · have hne : (c.nodes s).role ≠ .leader := by
          rw [hr]
          decide
        simp only [hne, ne_eq, not_false_iff, true_and]
  | appendRequest s d args held =>
    obtain ⟨out, hout, hs⟩ := Option.bind_eq_some_iff.mp hs
    cases hs
    exact .calm d out.node (calm_appendEntries hout) (fun hv _ => quiet_appendEntries hout (hv _ hk))
      rfl rfl rfl (hnew _ trivial)
  | appendReply s d args reply =>
    obtain ⟨out, hout, hs⟩ := Option.bind_eq_some_iff.mp hs
    cases hs
    exact .calm s out.node (calm_handleAppendEntriesReply hout)
      (fun _ ht => quiet_handleAppendEntriesReply hout (ht _ hk)) rfl rfl rfl
      fun q hq => Or.inl (hnet q hq)
  | snapshotRequest s d args held =>
    obtain ⟨out, hout, hs⟩ := Option.bind_eq_some_iff.mp hs
    cases hs
    exact .calm d out.node (calm_installSnapshot hout)
      (fun hv _ => quiet_installSnapshot hout (hv _ hk)) rfl rfl rfl (hnew _ trivial)
  | snapshotReply s d args reply =>
    cases hs
    have hq := quiet_handleInstallSnapshotReply (c.nodes s) d args reply
    exact .calm s _ hq.calm (fun _ _ => hq) rfl rfl rfl fun q hq => Or.inl (hnet q hq)

omit [ChfsStateMachine Command St] in
theorem packetVoted_packet (votes : List (Fin n × ℤ × ℤ)) (i : Fin n)
    (held : List (RaftLogEntry Command)) (m : Fin n × Message Command) :
    PacketVoted votes (packet i held m) := by
  obtain ⟨j, args | args⟩ := m <;> exact trivial

theorem step_ballots (hid : ∀ i, (c.nodes i).myId = i) {a : Action n Command}
    (hs : c.step a = some c') : Ballots c a c' := by
  have hsend : ∀ (i : Fin n) ms, ∀ p ∈ c.net ++ List.map (packet i (c.full i)) ms,
      p ∈ c.net ∨ PacketVoted c.votes p := by
    intro i ms p hpn
    obtain hpn | hpn := List.mem_append.mp hpn
    · exact Or.inl hpn
    · obtain ⟨m, _, rfl⟩ := List.mem_map.mp hpn
      exact Or.inr (packetVoted_packet _ _ _ m)
  have hquiet : ∀ {i : Fin n} {nd : RaftNode n Command St}, Quiet (c.nodes i) nd →
      c'.nodes = Function.update c.nodes i nd → c'.votes = c.votes → c'.wins = c.wins →
      c'.net = c.net → Ballots c a c' := fun hq hn hv hw hp =>
    .calm _ _ hq.calm (fun _ _ => hq) hn hv hw fun p hpn => Or.inl (hp ▸ hpn)
  cases a with
  | election i =>
    obtain ⟨out, hout, hs⟩ := Option.bind_eq_some_iff.mp hs
    obtain ⟨_, hnd, hrep⟩ | ⟨back, _, hnd, hrep⟩ := runBackgroundElection_cases hout
    · rw [hrep] at hs
      cases hs
      exact hquiet (i := i) (hnd ▸ .refl) rfl rfl rfl rfl
    · rw [hrep] at hs
      cases hs
      refine .stand i _ out.node ?_ ?_ ?_ ?_ ?_ ?_ ?_ rfl rfl rfl rfl ?_
      · rw [hnd]
      · rw [hnd]
      · rw [hnd]
      · rw [hnd]
      · rw [hnd]
      · rw [hnd]
      · rw [hnd]
      · intro p hpn
        obtain hpn | hpn := List.mem_append.mp hpn
        · exact Or.inl hpn
        · obtain ⟨j, _, rfl⟩ := List.mem_map.mp hpn
          exact Or.inr ⟨j, rfl⟩
  | deliver k junk =>
    obtain ⟨p, hk, hs⟩ := Option.bind_eq_some_iff.mp hs
    exact deliver_ballots hk hs
  | drop k =>
    cases hs
    exact .still rfl rfl rfl fun p hpn => Or.inl (List.mem_of_mem_eraseIdx hpn)
  | commandTest i cmd =>
    cases hs
    split
    case isTrue => exact .still rfl rfl rfl fun p hpn => Or.inl hpn
    case isFalse => exact .still rfl rfl rfl fun p hpn => Or.inl hpn
  | commandAppend k =>
    obtain ⟨call, _, hs⟩ := Option.bind_eq_some_iff.mp hs
    obtain ⟨out, hout, hs⟩ := Option.bind_eq_some_iff.mp hs
    cases hs
    exact hquiet (quiet_newCommand hout) rfl rfl rfl rfl
  | commit i =>
    obtain ⟨ms, _, hs⟩ := Option.bind_eq_some_iff.mp hs
    cases hs
    exact .still rfl rfl rfl (hsend i ms)
  | ping i =>
    obtain ⟨ms, _, hs⟩ := Option.bind_eq_some_iff.mp hs
    cases hs
    exact .still rfl rfl rfl (hsend i ms)
  | apply i =>
    obtain ⟨out, hout, hs⟩ := Option.bind_eq_some_iff.mp hs
    cases hs
    exact hquiet (quiet_runBackgroundApply hout) rfl rfl rfl rfl
  | snapshot i =>
    obtain ⟨out, hout, hs⟩ := Option.bind_eq_some_iff.mp hs
    obtain ⟨front, _, hs⟩ := Option.bind_eq_some_iff.mp hs
    cases hs
    exact hquiet (quiet_saveSnapshot hout) rfl rfl rfl rfl
  | restart i =>
    obtain ⟨nd, hnd, hs⟩ := Option.bind_eq_some_iff.mp hs
    cases hs
    have hnd' : RaftNode.recover (c.nodes i).myId (c.nodes i).currentTerm (c.nodes i).votedFor
        (c.nodes i).log (c.nodes i).snapshot = some nd := by rw [hid i, hnd]
    exact hquiet (quiet_recover hnd') rfl rfl rfl rfl

/-- The steps of a run in which votes are counted in their own term, kept
within a term, and terms do not move back. -/
def VotesKept (c : Cluster n Command St) (a : Action n Command) : Prop :=
  OnDeliver FreshVote c a ∧ OnDeliver KeepsVote c a ∧ OnDeliver KeepsTerm c a

instance (c : Cluster n Command St) (a : Action n Command) : Decidable (VotesKept c a) :=
  inferInstanceAs (Decidable (_ ∧ _ ∧ _))

theorem VoteInv.step (h : VoteInv c) {a : Action n Command} (ha : VotesKept c a)
    (hs : c.step a = some c') : VoteInv c' := by
  obtain ⟨h1, h2, h3⟩ := ha
  cases step_ballots h.myId hs with
  | still hn hv hw hp => exact h.net hn hv hw hp
  | calm i nd _ hq hn hv hw hp => exact h.quiet (hq h2 h3) hn hv hw hp
  | grant s d args nd hreq hq ht hvf hn hv hw hp =>
    have hcand : args.candidateId = (s : ℕ) := h.packets _ hreq
    have h₁ : VoteInv (c.setNode d nd) := h.quiet hq rfl rfl rfl fun p hpn => Or.inl hpn
    refine h₁.vote (d := d) (x := args.candidateId) (by omega) ?_ ?_ ?_ hw ?_
    · simpa [Cluster.setNode] using hvf
    · simp [Cluster.setNode, hn]
    · simp [Cluster.setNode, hv, ht]
    · intro p hpn
      obtain hpn | ⟨reply, rfl⟩ := hp p hpn
      · exact Or.inl hpn
      · exact Or.inr fun _ => by simp [hv, hcand]
  | stand i args nd hid ht hvf hr hg hf hterm hcand hn hv hw hp =>
    rw [h.myId] at hid hvf hf hcand
    refine h.stand (i := i) nd hid ht hvf hr hg hf hn ?_ hw ?_
    · rw [hv, hterm, hcand]
    · intro p hpn
      obtain hpn | ⟨j, rfl⟩ := hp p hpn
      · exact Or.inl hpn
      · exact Or.inr hcand
  | count s d args reply nd nd₁ hmem hg hr hf hfresh hnd₁ hcase hn hv hw hp =>
    exact h.count hr hf (hfresh h1 ▸ h.packets _ hmem hg) hnd₁ hcase hn hv hw hp

theorem wins_step {a : Action n Command} (hs : c.step a = some c') : c.wins ⊆ c'.wins := by
  cases a with
  | deliver k junk =>
    obtain ⟨p, _, hs⟩ := Option.bind_eq_some_iff.mp hs
    cases p with
    | voteReply s d args reply =>
      obtain ⟨out, _, hs⟩ := Option.bind_eq_some_iff.mp hs
      cases hs
      simp only
      split
      · exact List.subset_cons_self _ _
      · exact List.Subset.refl _
    | snapshotReply =>
      cases hs
      exact List.Subset.refl _
    | _ =>
      obtain ⟨out, _, hs⟩ := Option.bind_eq_some_iff.mp hs
      cases hs
      exact List.Subset.refl _
  | election i =>
    obtain ⟨out, _, hs⟩ := Option.bind_eq_some_iff.mp hs
    split at hs <;> cases hs <;> exact List.Subset.refl _
  | commandTest i cmd =>
    cases hs
    split <;> exact List.Subset.refl _
  | drop k =>
    cases hs
    exact List.Subset.refl _
  | commandAppend k =>
    obtain ⟨call, _, hs⟩ := Option.bind_eq_some_iff.mp hs
    obtain ⟨out, _, hs⟩ := Option.bind_eq_some_iff.mp hs
    cases hs
    exact List.Subset.refl _
  | snapshot i =>
    obtain ⟨out, _, hs⟩ := Option.bind_eq_some_iff.mp hs
    obtain ⟨front, _, hs⟩ := Option.bind_eq_some_iff.mp hs
    cases hs
    exact List.Subset.refl _
  | _ =>
    obtain ⟨out, _, hs⟩ := Option.bind_eq_some_iff.mp hs
    cases hs
    exact List.Subset.refl _

variable [ChfsCommand Command]

theorem voteInv_of_reachable (h : Reachable VotesKept c) : VoteInv c :=
  h.invariant voteInv_init fun _ _ _ hc ha hs => hc.step ha hs

/-- No term has one leader now and another one later. -/
def OneLeader (c c' : Cluster n Command St) : Prop :=
  ∀ i j T, (c.nodes i).role = .leader → (c.nodes i).currentTerm = T →
    (c'.nodes j).role = .leader → (c'.nodes j).currentTerm = T → i = j

theorem oneLeader_of_votesKept (h : Reachable VotesKept c)
    (h' : Reach Cluster.step VotesKept c c') : OneLeader c c' := by
  have hw : c.wins ⊆ c'.wins :=
    h'.invariant (I := fun x => c.wins ⊆ x.wins) (List.Subset.refl _)
      fun _ _ _ hsub _ hs => List.Subset.trans hsub (wins_step hs)
  have hc := voteInv_of_reachable h
  have hc' := voteInv_of_reachable (h.trans h')
  intro i j T hi hiT hj hjT
  have hwi : (i, T) ∈ c.wins := hiT ▸ hc.leader i hi
  have hwj : (j, T) ∈ c'.wins := hjT ▸ hc'.leader j hj
  exact hc'.winner_unique (hw hwi) hwj

end Run

def electionRun : List (Action 3 ListCommand) := [.election 0, .deliver 0 ⟨0⟩, .deliver 1 ⟨0⟩]

theorem oneLeader_electionRun : ∃ c : Cluster 3 ListCommand ListStateMachine,
    Reachable VotesKept c ∧ (c.nodes 0).role = .leader ∧ (c.nodes 0).currentTerm = 1 ∧
      OneLeader c c := by
  obtain ⟨c, hc⟩ : ∃ c, execOk Cluster.step (fun c a => decide (VotesKept c a))
      (init 3 ListCommand ListStateMachine) electionRun = some c :=
    Option.isSome_iff_exists.mp (by decide +kernel)
  have hr : Reachable VotesKept c := reach_of_execOk (fun s a h => of_decide_eq_true h) hc
  have hrole : (execOk Cluster.step (fun c a => decide (VotesKept c a))
      (init 3 ListCommand ListStateMachine) electionRun).map
        (fun c => ((c.nodes 0).role, (c.nodes 0).currentTerm)) = some (.leader, 1) := by
    decide +kernel
  rw [hc] at hrole
  simp only [Option.map_some, Option.some.injEq, Prod.mk.injEq] at hrole
  exact ⟨c, hr, hrole.1, hrole.2, oneLeader_of_votesKept hr .refl⟩

def staleVoteRun : List (Action 3 ListCommand) :=
  [.election 0, .deliver 0 ⟨0⟩, .election 0, .election 1, .deliver 5 ⟨0⟩, .deliver 5 ⟨0⟩,
    .deliver 1 ⟨0⟩]

theorem not_oneLeader_staleVoteRun : ¬ ∀ c c' : Cluster 3 ListCommand ListStateMachine,
    Reachable (fun _ _ => True) c → Reach Cluster.step (fun _ _ => True) c c' →
      OneLeader c c' := by
  intro hall
  obtain ⟨c, hc⟩ : ∃ c, exec Cluster.step (init 3 ListCommand ListStateMachine) staleVoteRun =
      some c := Option.isSome_iff_exists.mp (by decide +kernel)
  have hrole : (exec Cluster.step (init 3 ListCommand ListStateMachine) staleVoteRun).map
      (fun c => ((c.nodes 0).role, (c.nodes 0).currentTerm, (c.nodes 1).role,
        (c.nodes 1).currentTerm)) = some (.leader, 2, .leader, 2) := by
    decide +kernel
  rw [hc] at hrole
  simp only [Option.map_some, Option.some.injEq, Prod.mk.injEq] at hrole
  obtain ⟨h0, t0, h1, t1⟩ := hrole
  have h01 := hall c c (reach_of_exec hc) .refl 0 1 2 h0 t0 h1 t1
  exact absurd h01 (by decide)

end Chfs.Raft.Election
