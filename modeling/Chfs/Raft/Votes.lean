import Chfs.Raft.Election
import Chfs.Raft.Terms

namespace Chfs.Raft.Votes

open Protocol Node Handlers Network Election Disks Terms Lib.Run Lib.Quorum

variable {n : ℕ} {Command St : Type} {c c' : Cluster n Command St}

def NamesSender (net : List (Packet n Command)) : Prop :=
  ∀ (s d : Fin n) (args : RequestVoteArgs), .voteRequest s d args ∈ net → args.candidateId = (s : ℕ)

/-- Every node remembers the vote of its current term. -/
structure Cast (c : Cluster n Command St) : Prop where
  myId : ∀ i, (c.nodes i).myId = i
  requests : NamesSender c.net
  voter : ∀ v T x, (v, T, x) ∈ c.votes → 0 ≤ x ∧ T ≤ (c.nodes v).currentTerm ∧
    (T = (c.nodes v).currentTerm → (c.nodes v).votedFor = x)
  unique : ∀ v T x y, (v, T, x) ∈ c.votes → (v, T, y) ∈ c.votes → x = y

structure Remembers (nd nd' : RaftNode n Command St) : Prop where
  myId : nd'.myId = nd.myId
  term : nd.currentTerm ≤ nd'.currentTerm
  vote : nd'.currentTerm = nd.currentTerm → nd'.votedFor = nd.votedFor

theorem Cast.keep (h : Cast c) (hmove : ∀ j, Remembers (c.nodes j) (c'.nodes j))
    (hv : c'.votes = c.votes)
    (hp : NamesSender c'.net) : Cast c' where
  myId j := (hmove j).myId.trans (h.myId j)
  requests := hp
  voter v T x hx := by
    obtain ⟨h0, hle, hvf⟩ := h.voter v T x (hv ▸ hx)
    have hm := hmove v
    refine ⟨h0, hle.trans hm.term, fun hT => ?_⟩
    have heq : (c'.nodes v).currentTerm = (c.nodes v).currentTerm := le_antisymm (hT ▸ hle) hm.term
    rw [hm.vote heq]
    exact hvf (hT.trans heq)
  unique := hv ▸ h.unique

theorem Cast.keep_node (h : Cast c) {i : Fin n} {nd : RaftNode n Command St}
    (hr : Remembers (c.nodes i) nd) (hn : c'.nodes = Function.update c.nodes i nd)
    (hv : c'.votes = c.votes)
    (hp : NamesSender c'.net) : Cast c' := by
  refine h.keep (fun j => ?_) hv hp
  rw [hn]
  by_cases hj : j = i
  · subst hj
    rw [Function.update_self]
    exact hr
  · rw [Function.update_of_ne hj]
    exact ⟨rfl, le_refl _, fun _ => rfl⟩

theorem Cast.give (h : Cast c) {d : Fin n} {x : ℤ} (nd : RaftNode n Command St) (hx : 0 ≤ x)
    (hid : nd.myId = d) (ht : (c.nodes d).currentTerm ≤ nd.currentTerm) (hnd : nd.votedFor = x)
    (hvf : nd.currentTerm = (c.nodes d).currentTerm →
      (c.nodes d).votedFor = -1 ∨ (c.nodes d).votedFor = x)
    (hn : c'.nodes = Function.update c.nodes d nd)
    (hv : c'.votes = (d, nd.currentTerm, x) :: c.votes)
    (hp : NamesSender c'.net) : Cast c' := by
  have hold : ∀ y, (d, nd.currentTerm, y) ∈ c.votes → y = x := by
    intro y hy
    obtain ⟨h0, hle, hvy⟩ := h.voter _ _ _ hy
    have heq := le_antisymm hle ht
    have hy := hvy heq
    obtain hneg | hsame := hvf heq
    · omega
    · rw [← hy, hsame]
  have hself : c'.nodes d = nd := by rw [hn, Function.update_self]
  have hother : ∀ j, j ≠ d → c'.nodes j = c.nodes j := by
    intro j hj
    rw [hn, Function.update_of_ne hj]
  refine ⟨fun j => ?_, hp, fun v T y hy => ?_, fun v T y z hy hz => ?_⟩
  · by_cases hj : j = d
    · rw [hj, hself, hid]
    · rw [hother j hj, h.myId]
  · rw [hv, List.mem_cons] at hy
    by_cases hvd : v = d
    · subst hvd
      rw [hself, hnd]
      obtain hy | hy := hy
      · cases hy
        exact ⟨hx, le_refl _, fun _ => rfl⟩
      · obtain ⟨h0, hle, -⟩ := h.voter v T y hy
        exact ⟨h0, hle.trans ht, fun hT => (hold y (hT ▸ hy)).symm⟩
    · obtain hy | hy := hy
      · cases hy
        exact absurd rfl hvd
      · rw [hother v hvd]
        exact h.voter v T y hy
  · rw [hv, List.mem_cons] at hy hz
    obtain hy | hy := hy
    · cases hy
      obtain hz | hz := hz
      · cases hz
        rfl
      · exact (hold z hz).symm
    · obtain hz | hz := hz
      · cases hz
        exact hold y hy
      · exact h.unique v T y z hy hz

theorem Cast.step [ChfsStateMachine Command St] (h : Cast c) {a : Action n Command}
    (h1 : OnDeliver KeepsVote c a) (h2 : OnDeliver KeepsTerm c a) (hs : c.step a = some c') :
    Cast c' := by
  have hreq : ∀ {votes : List (Fin n × ℤ × ℤ)},
      (∀ p ∈ c'.net, p ∈ c.net ∨ PacketVoted votes p) → NamesSender c'.net := by
    intro votes hp s d args hmem
    obtain hmem | hnew := hp _ hmem
    · exact h.requests s d args hmem
    · exact hnew
  cases step_ballots h.myId hs with
  | still hn hv hw hp =>
    exact h.keep (fun j => hn ▸ ⟨rfl, le_refl _, fun _ => rfl⟩) hv (hreq hp)
  | calm i nd _ hq hn hv hw hp =>
    have hq := hq h1 h2
    exact h.keep_node ⟨hq.myId, hq.term, hq.vote⟩ hn hv (hreq hp)
  | grant s d args nd hmem hq ht hvf hn hv hw hp =>
    have hcand : args.candidateId = (s : ℕ) := h.requests s d args hmem
    refine h.give { nd with votedFor := args.candidateId } (x := args.candidateId)
      (by omega) (hq.myId.trans (h.myId d)) hq.term rfl (fun heq => ?_) hn (by rw [hv, ← ht])
      fun s' d' args' hmem' => ?_
    · rw [← hq.vote heq]
      exact hvf
    · obtain hmem' | ⟨reply, heq⟩ := hp _ hmem'
      · exact h.requests s' d' args' hmem'
      · cases heq
  | stand i args nd hid ht hvf hr hg hf hterm hcand hn hv hw hp =>
    rw [h.myId] at hid hvf hcand
    refine h.give nd (by omega) hid (by omega) hvf (fun heq => by omega) hn
      (by rw [hv, hterm, hcand]) fun s' d' args' hmem' => ?_
    obtain hmem' | ⟨j, heq⟩ := hp _ hmem'
    · exact h.requests s' d' args' hmem'
    · cases heq
      exact hcand
  | count s d args reply nd nd₁ hmem hg hr hf hfresh hnd₁ hcase hn hv hw hp =>
    have hsame : nd.myId = (c.nodes s).myId ∧ nd.currentTerm = (c.nodes s).currentTerm ∧
        nd.votedFor = (c.nodes s).votedFor := by
      subst hnd₁
      obtain ⟨-, rfl⟩ | ⟨-, hlead⟩ := hcase
      · exact ⟨rfl, rfl, rfl⟩
      · obtain ⟨back, -, rfl⟩ := becomeLeader_cases hlead
        exact ⟨rfl, rfl, rfl⟩
    exact h.keep_node ⟨hsame.1, hsame.2.1.ge, fun _ => hsame.2.2⟩ hn hv
      fun s' d' args' hmem' => h.requests s' d' args' (hp hmem')

section Disks

variable [ChfsCommand Command] [ChfsStateMachine Command St] {d d' : DiskCluster n Command St}

/-- No candidate hears from a leader of its own term, and no node from a reply
to `append_entries` with a later term: it would forget its vote. -/
def VotesHeld (d : DiskCluster n Command St) (x : Action n Command × Command) : Prop :=
  OnDeliver KeepsVote d.cluster x.1 ∧ OnDeliver KeepsTerm d.cluster x.1

instance (d : DiskCluster n Command St) (x : Action n Command × Command) : Decidable (VotesHeld d x) :=
  inferInstanceAs (Decidable (_ ∧ _))

theorem cast_step {x : Action n Command × Command} (hk : Kept d) (h : Cast d.cluster)
    (hx : VotesHeld d x) (hs : d.step x = some d') : Cast d'.cluster := by
  obtain ⟨a, fresh⟩ := x
  obtain ⟨i, m, rfl, hm, hc, -⟩ | ⟨-, hc, -⟩ := step_cases hs
  · obtain ⟨hkept, ht, hv, -⟩ := (hk.nodes i).restart hm
    rw [hc]
    exact h.keep_node (i := i) ⟨by rw [hkept.myId, h.myId], ht.ge, fun _ => hv⟩ rfl rfl h.requests
  · exact h.step hx.1 hx.2 hc

/-- The candidates a node has voted for in a term. -/
def candidates (c : Cluster n Command St) (v : Fin n) (T : ℤ) : Set ℤ := {x | (v, T, x) ∈ c.votes}

theorem candidates_subsingleton (hn : n ≤ 2147483648) {d₀ : DiskCluster n Command St} (h₀ : Start d₀)
    (h : Reach DiskCluster.step VotesHeld d₀ d) (v : Fin n) (T : ℤ) :
    (candidates d.cluster v T).Subsingleton := by
  have hcast : Cast d₀.cluster := by
    rw [h₀.cluster]
    exact ⟨fun _ => rfl, fun _ _ _ hp => absurd hp List.not_mem_nil,
      fun _ _ _ hx => absurd hx List.not_mem_nil, fun _ _ _ _ hx => absurd hx List.not_mem_nil⟩
  have hrun : Kept d ∧ Cast d.cluster :=
    h.invariant (I := fun d => Kept d ∧ Cast d.cluster) ⟨kept_of_start h₀, hcast⟩
      fun _ _ _ hd hx hs => ⟨hd.1.step hn hs, cast_step hd.1 hd.2 hx hs⟩
  exact fun x hx y hy => hrun.2.unique v T x y hx hy

end Disks

def restartedRun : List (Action 3 ListCommand × ListCommand) :=
  ([.election 0, .deliver 0 ⟨0⟩, .deliver 1 ⟨0⟩, .ping 0, .deliver 1 ⟨0⟩, .restart 1, .election 1,
    .deliver 3 ⟨0⟩] : List (Action 3 ListCommand)).map fun a => (a, ⟨0⟩)

theorem candidates_subsingleton_restartedRun : ∃ d : DiskCluster 3 ListCommand ListStateMachine,
    Reach DiskCluster.step VotesHeld (booted 3) d ∧ (0 : ℤ) ∈ candidates d.cluster 1 1 ∧
      (1 : ℤ) ∈ candidates d.cluster 1 2 ∧ (1 : ℤ) ∈ candidates d.cluster 0 2 ∧
      ∀ v T, (candidates d.cluster v T).Subsingleton := by
  have hval : (execOk DiskCluster.step (fun d x => decide (VotesHeld d x)) (booted 3) restartedRun).map
      (fun d => d.cluster.votes) = some [(0, 2, 1), (1, 2, 1), (1, 1, 0), (0, 1, 0)] := by
    decide +kernel
  obtain ⟨d, hd, hvotes⟩ := Option.map_eq_some_iff.mp hval
  have hreach : Reach DiskCluster.step VotesHeld (booted 3) d :=
    reach_of_execOk (fun _ _ h => of_decide_eq_true h) hd
  refine ⟨d, hreach, ?_, ?_, ?_, fun v T => candidates_subsingleton (by decide) (start_booted 3) hreach v T⟩
  all_goals
    change (_, _, _) ∈ d.cluster.votes
    rw [hvotes]
    decide

/-- Nodes 0 and 1 stand in term 1. Node 0 wins with the vote of node 2, its
heartbeat makes node 1 forget its own vote, and the vote request of node 0
reaches node 1 only then. -/
def forgottenVoteRun : List (Action 3 ListCommand × ListCommand) :=
  ([.election 0, .election 1, .deliver 1 ⟨0⟩, .deliver 3 ⟨0⟩, .ping 0, .deliver 3 ⟨0⟩,
    .deliver 0 ⟨0⟩] : List (Action 3 ListCommand)).map fun a => (a, ⟨0⟩)

theorem not_subsingleton_forgottenVoteRun :
    ¬ ∀ (d₀ d : DiskCluster 3 ListCommand ListStateMachine) (v : Fin 3) (T : ℤ), Start d₀ →
      Reach DiskCluster.step (fun _ _ => True) d₀ d → (candidates d.cluster v T).Subsingleton := by
  intro hall
  obtain ⟨d, hd⟩ : ∃ d, exec DiskCluster.step (booted 3) forgottenVoteRun = some d :=
    Option.isSome_iff_exists.mp (by decide +kernel)
  have hvotes : (exec DiskCluster.step (booted 3) forgottenVoteRun).map (fun d =>
      (decide (((1 : Fin 3), (1 : ℤ), (1 : ℤ)) ∈ d.cluster.votes),
        decide (((1 : Fin 3), (1 : ℤ), (0 : ℤ)) ∈ d.cluster.votes))) = some (true, true) := by
    decide +kernel
  rw [hd, Option.map_some, Option.some.injEq, Prod.mk.injEq] at hvotes
  have h1 : ((1 : Fin 3), (1 : ℤ), (1 : ℤ)) ∈ d.cluster.votes := of_decide_eq_true hvotes.1
  have h0 : ((1 : Fin 3), (1 : ℤ), (0 : ℤ)) ∈ d.cluster.votes := of_decide_eq_true hvotes.2
  have heq := hall _ d 1 1 (start_booted 3) (reach_of_exec hd) h1 h0
  exact absurd heq (by decide)

/-- A candidate has counted nothing but votes of its term. -/
structure Counted (c : Cluster n Command St) : Prop where
  myId : ∀ i, (c.nodes i).myId = i
  packets : ∀ p ∈ c.net, PacketVoted c.votes p
  own : ∀ i, (c.nodes i).role = .candidate → (c.nodes i).votesFrom i = true
  votesFrom : ∀ i j, (c.nodes i).role = .candidate → (c.nodes i).votesFrom j = true →
    (j, (c.nodes i).currentTerm, ((i : ℕ) : ℤ)) ∈ c.votes
  votesGot : ∀ i, (c.nodes i).role = .candidate →
    (c.nodes i).votesGot = (Finset.univ.filter fun j => (c.nodes i).votesFrom j = true).card

/-- Node `i` has a majority of the votes of term `T`, its own among them. -/
def Elected (c : Cluster n Command St) (i : Fin n) (T : ℤ) : Prop :=
  ∃ Q : Finset (Fin n), Majority Q ∧ i ∈ Q ∧ ∀ j ∈ Q, (j, T, ((i : ℕ) : ℤ)) ∈ c.votes

theorem Elected.mono {i : Fin n} {T : ℤ} (h : Elected c i T) (hv : c.votes ⊆ c'.votes) :
    Elected c' i T := by
  obtain ⟨Q, hQ, hi, hq⟩ := h
  exact ⟨Q, hQ, hi, fun j hj => hv (hq j hj)⟩

theorem Counted.of_nodes (h : Counted c) (hv : c.votes ⊆ c'.votes)
    (hp : ∀ p ∈ c'.net, PacketVoted c'.votes p)
    (hnode : ∀ j, Calm (c.nodes j) (c'.nodes j) ∨ ((c'.nodes j).myId = j ∧
      ((c'.nodes j).role = .candidate → (c'.nodes j).votesFrom j = true ∧
        (∀ k, (c'.nodes j).votesFrom k = true →
          (k, (c'.nodes j).currentTerm, ((j : ℕ) : ℤ)) ∈ c'.votes) ∧
        (c'.nodes j).votesGot =
          (Finset.univ.filter fun k => (c'.nodes j).votesFrom k = true).card))) : Counted c' := by
  have hcand : ∀ {j}, Calm (c.nodes j) (c'.nodes j) → (c'.nodes j).role = .candidate →
      (c.nodes j).role = .candidate ∧ (c'.nodes j).currentTerm = (c.nodes j).currentTerm ∧
        (c'.nodes j).votesGot = (c.nodes j).votesGot ∧
        (c'.nodes j).votesFrom = (c.nodes j).votesFrom := by
    intro j hc hr
    obtain ⟨ht, hr', hg, hf⟩ := hc.role (by rw [hr]; decide)
    exact ⟨hr' ▸ hr, ht, hg, hf⟩
  refine ⟨fun j => ?_, hp, fun j hr => ?_, fun j k hr hk => ?_, fun j hr => ?_⟩
  · obtain hc | hc := hnode j
    · exact hc.myId.trans (h.myId j)
    · exact hc.1
  · obtain hc | hc := hnode j
    · obtain ⟨hr', -, -, hf⟩ := hcand hc hr
      rw [hf]
      exact h.own j hr'
    · exact (hc.2 hr).1
  · obtain hc | hc := hnode j
    · obtain ⟨hr', ht, -, hf⟩ := hcand hc hr
      rw [ht]
      exact hv (h.votesFrom j k hr' (hf ▸ hk))
    · exact (hc.2 hr).2.1 k hk
  · obtain hc | hc := hnode j
    · obtain ⟨hr', -, hg, hf⟩ := hcand hc hr
      rw [hg, hf]
      exact h.votesGot j hr'
    · exact (hc.2 hr).2.2

theorem Counted.add (h : Counted c) {s d : Fin n} {nd₁ : RaftNode n Command St}
    (hr : (c.nodes s).role = .candidate) (hf : (c.nodes s).votesFrom d = false)
    (hvote : (d, (c.nodes s).currentTerm, ((s : ℕ) : ℤ)) ∈ c.votes)
    (hnd₁ : nd₁ = { c.nodes s with
      votesGot := (c.nodes s).votesGot + 1
      votesFrom := Function.update (c.nodes s).votesFrom d true }) :
    nd₁.votesFrom s = true ∧
      (∀ j, nd₁.votesFrom j = true → (j, (c.nodes s).currentTerm, ((s : ℕ) : ℤ)) ∈ c.votes) ∧
      nd₁.votesGot = (Finset.univ.filter fun j => nd₁.votesFrom j = true).card := by
  refine ⟨?_, fun j hj => ?_, ?_⟩
  · by_cases hsd : s = d
    · simp [hnd₁, hsd]
    · simpa [hnd₁, hsd] using h.own s hr
  · by_cases hjd : j = d
    · exact hjd ▸ hvote
    · exact h.votesFrom s j hr (by simpa [hnd₁, hjd] using hj)
  · have hins : (Finset.univ.filter fun j => nd₁.votesFrom j = true) =
        insert d (Finset.univ.filter fun j => (c.nodes s).votesFrom j = true) := by
      ext j
      by_cases hjd : j = d
      · simp [hnd₁, hjd]
      · simp [hnd₁, hjd]
    rw [hins, Finset.card_insert_of_notMem (by simp [hf]), ← h.votesGot s hr, hnd₁]

section Run

variable [ChfsStateMachine Command St] {a : Action n Command}

theorem Counted.step (h : Counted c) (ha : OnDeliver FreshVote c a) (hs : c.step a = some c') :
    Counted c' := by
  have hothers : ∀ {i : Fin n} {nd : RaftNode n Command St},
      c'.nodes = Function.update c.nodes i nd → ∀ j, j ≠ i → Calm (c.nodes j) (c'.nodes j) := by
    intro i nd hn j hj
    rw [hn, Function.update_of_ne hj]
    exact Quiet.refl.calm
  cases step_ballots h.myId hs with
  | still hn hv hw hp =>
    refine h.of_nodes (hv ▸ List.Subset.refl _) (fun p hpn => ?_) fun j => Or.inl ?_
    · exact hv ▸ (hp p hpn).elim (h.packets p) id
    · rw [hn]
      exact Quiet.refl.calm
  | calm i nd hc _ hn hv hw hp =>
    refine h.of_nodes (hv ▸ List.Subset.refl _) (fun p hpn => ?_) fun j => Or.inl ?_
    · exact hv ▸ (hp p hpn).elim (h.packets p) id
    · by_cases hj : j = i
      · subst hj
        rw [hn, Function.update_self]
        exact hc
      · exact hothers hn j hj
  | grant s d args nd hmem hq ht hvf hn hv hw hp =>
    have hcand : args.candidateId = (s : ℕ) := h.packets _ hmem
    refine h.of_nodes (hv ▸ List.subset_cons_self _ _) (fun p hpn => ?_) fun j => Or.inl ?_
    · obtain hpn | ⟨reply, rfl⟩ := hp p hpn
      · exact (h.packets p hpn).mono (hv ▸ List.subset_cons_self _ _)
      · intro _
        rw [hv, hcand]
        exact List.mem_cons_self
    · by_cases hj : j = d
      · subst hj
        rw [hn, Function.update_self]
        exact ⟨hq.myId, hq.role⟩
      · exact hothers hn j hj
  | stand i args nd hid ht hvf hr hg hf hterm hcand hn hv hw hp =>
    rw [h.myId] at hid hf hcand
    have hself : c'.nodes i = nd := by rw [hn, Function.update_self]
    refine h.of_nodes (hv ▸ List.subset_cons_self _ _) (fun p hpn => ?_) fun j => ?_
    · obtain hpn | ⟨j, rfl⟩ := hp p hpn
      · exact (h.packets p hpn).mono (hv ▸ List.subset_cons_self _ _)
      · exact hcand
    · by_cases hj : j = i
      · subst hj
        rw [hself]
        refine Or.inr ⟨hid, fun _ => ⟨by simp [hf], fun k hk => ?_, ?_⟩⟩
        · have hkj : k = j := by
            by_contra hne
            simp [hf, hne] at hk
          rw [hkj, hv, hterm, hcand]
          exact List.mem_cons_self
        · have hone : (Finset.univ.filter fun k => nd.votesFrom k = true) = {j} := by
            ext k
            by_cases hk : k = j
            · simp [hf, hk]
            · simp [hf, hk]
          rw [hg, hone, Finset.card_singleton]
      · exact Or.inl (hothers hn j hj)
  | count s d args reply nd nd₁ hmem hg hr hf hfresh hnd₁ hcase hn hv hw hp =>
    have hvote : (d, (c.nodes s).currentTerm, ((s : ℕ) : ℤ)) ∈ c.votes :=
      hfresh ha ▸ h.packets _ hmem hg
    obtain ⟨h1, h2, h3⟩ := h.add hr hf hvote hnd₁
    have hself : c'.nodes s = nd := by rw [hn, Function.update_self]
    refine h.of_nodes (hv ▸ List.Subset.refl _) (fun p hpn => hv ▸ h.packets p (hp hpn)) fun j => ?_
    by_cases hj : j = s
    · subst hj
      rw [hself]
      obtain ⟨-, rfl⟩ | ⟨-, hlead⟩ := hcase
      · have ht : nd.currentTerm = (c.nodes j).currentTerm := by rw [hnd₁]
        refine Or.inr ⟨by rw [hnd₁]; exact h.myId j, fun _ => ⟨h1, fun k hk => ?_, h3⟩⟩
        rw [hv, ht]
        exact h2 k hk
      · obtain ⟨back, -, rfl⟩ := becomeLeader_cases hlead
        exact Or.inr ⟨by rw [hnd₁]; exact h.myId j, fun hc => by cases hc⟩
    · exact Or.inl (hothers hn j hj)

theorem Counted.elected (h : Counted c) (ha : OnDeliver FreshVote c a) (hs : c.step a = some c')
    {i : Fin n} (hi : (c.nodes i).role ≠ .leader) (hi' : (c'.nodes i).role = .leader) :
    Elected c' i (c'.nodes i).currentTerm := by
  have hcalm : Calm (c.nodes i) (c'.nodes i) → False := by
    intro hc
    exact hi ((hc.role (by rw [hi']; decide)).2.1 ▸ hi')
  have hothers : ∀ {j : Fin n} {nd : RaftNode n Command St},
      c'.nodes = Function.update c.nodes j nd → i = j := by
    intro j nd hn
    by_contra hne
    refine hcalm ?_
    rw [hn, Function.update_of_ne hne]
    exact Quiet.refl.calm
  cases step_ballots h.myId hs with
  | still hn hv hw hp => exact (hi (hn ▸ hi')).elim
  | calm j nd hc _ hn hv hw hp =>
    obtain rfl := hothers hn
    exact (hcalm (by rw [hn, Function.update_self]; exact hc)).elim
  | grant s d args nd hmem hq ht hvf hn hv hw hp =>
    obtain rfl := hothers hn
    exact (hcalm (by rw [hn, Function.update_self]; exact ⟨hq.myId, hq.role⟩)).elim
  | stand j args nd hid ht hvf hr hg hf hterm hcand hn hv hw hp =>
    obtain rfl := hothers hn
    rw [hn, Function.update_self, hr] at hi'
    cases hi'
  | count s d args reply nd nd₁ hmem hg hr hf hfresh hnd₁ hcase hn hv hw hp =>
    obtain rfl := hothers hn
    have hvote : (d, (c.nodes i).currentTerm, ((i : ℕ) : ℤ)) ∈ c.votes :=
      hfresh ha ▸ h.packets _ hmem hg
    obtain ⟨h1, h2, h3⟩ := h.add hr hf hvote hnd₁
    have hself : c'.nodes i = nd := by rw [hn, Function.update_self]
    rw [hself] at hi' ⊢
    obtain ⟨-, rfl⟩ | ⟨hmaj, hlead⟩ := hcase
    · rw [hnd₁, hr] at hi'
      cases hi'
    · obtain ⟨back, -, hnd⟩ := becomeLeader_cases hlead
      have hterm : nd.currentTerm = (c.nodes i).currentTerm := by rw [hnd, hnd₁]
      refine ⟨Finset.univ.filter fun j => nd₁.votesFrom j = true, ?_, by simpa using h1, ?_⟩
      · have hg1 : nd₁.votesGot = (c.nodes i).votesGot + 1 := by rw [hnd₁]
        unfold Majority
        rw [← h3, hg1, Fintype.card_fin]
        omega
      · intro j hj
        rw [hv, hterm]
        exact h2 j (Finset.mem_filter.mp hj).2

variable [ChfsCommand Command]

theorem counted_init : Counted (init n Command St) where
  myId _ := rfl
  packets p hp := absurd hp List.not_mem_nil
  own i hr := by cases hr
  votesFrom i j hr := by cases hr
  votesGot i hr := by cases hr

/-- In a run that counts no late votes, a node becomes leader only with the
votes of a majority for its term. -/
theorem elected_of_freshVotes (h : Reachable (OnDeliver FreshVote) c) (ha : OnDeliver FreshVote c a)
    (hs : c.step a = some c') {i : Fin n} (hi : (c.nodes i).role ≠ .leader)
    (hi' : (c'.nodes i).role = .leader) : Elected c' i (c'.nodes i).currentTerm := by
  have hc : Counted c := h.invariant counted_init fun _ _ _ hc ha hs => hc.step ha hs
  exact hc.elected ha hs hi hi'

end Run

theorem elected_of_freshVotes_first : ∃ c c' : Cluster 3 ListCommand ListStateMachine,
    Reachable (OnDeliver FreshVote) c ∧ c.step (.deliver 1 ⟨0⟩) = some c' ∧
      (c'.nodes 0).role = .leader ∧ Elected c' 0 (c'.nodes 0).currentTerm := by
  obtain ⟨c, hc⟩ : ∃ c, execOk Cluster.step (fun c a => decide (OnDeliver FreshVote c a))
      (init 3 ListCommand ListStateMachine) [.election 0, .deliver 0 ⟨0⟩] = some c :=
    Option.isSome_iff_exists.mp (by decide +kernel)
  have hval : (execOk Cluster.step (fun c a => decide (OnDeliver FreshVote c a))
      (init 3 ListCommand ListStateMachine) [.election 0, .deliver 0 ⟨0⟩]).bind (fun c =>
        (c.step (.deliver 1 ⟨0⟩)).map fun c' => (decide (OnDeliver FreshVote c (.deliver 1 ⟨0⟩)),
          (c.nodes 0).role, (c'.nodes 0).role)) = some (true, .candidate, .leader) := by
    decide +kernel
  rw [hc, Option.bind_some, Option.map_eq_some_iff] at hval
  obtain ⟨c', hs, hval⟩ := hval
  simp only [Prod.mk.injEq] at hval
  obtain ⟨hfresh, hr, hr'⟩ := hval
  have hreach : Reachable (OnDeliver FreshVote) c :=
    reach_of_execOk (fun s a h => of_decide_eq_true h) hc
  exact ⟨c, c', hreach, hs, hr', elected_of_freshVotes hreach (of_decide_eq_true hfresh) hs
    (by rw [hr]; decide) hr'⟩

/-- The vote of node 1 for term 1 makes node 0 leader of term 2. -/
theorem not_elected_staleVoteRun : ¬ ∀ (c c' : Cluster 3 ListCommand ListStateMachine)
    (a : Action 3 ListCommand) (i : Fin 3), Reachable (fun _ _ => True) c → c.step a = some c' →
      (c.nodes i).role ≠ .leader → (c'.nodes i).role = .leader →
      Elected c' i (c'.nodes i).currentTerm := by
  intro hall
  obtain ⟨c, hc⟩ : ∃ c, exec Cluster.step (init 3 ListCommand ListStateMachine)
      [.election 0, .deliver 0 ⟨0⟩, .election 0] = some c :=
    Option.isSome_iff_exists.mp (by decide +kernel)
  have hval : (exec Cluster.step (init 3 ListCommand ListStateMachine)
      [.election 0, .deliver 0 ⟨0⟩, .election 0]).bind (fun c =>
        (c.step (.deliver 1 ⟨0⟩)).map fun c' => ((c.nodes 0).role, (c'.nodes 0).role,
          (c'.nodes 0).currentTerm, decide (c'.votes = [(0, 2, 0), (1, 1, 0), (0, 1, 0)]))) =
      some (.candidate, .leader, 2, true) := by
    decide +kernel
  rw [hc, Option.bind_some, Option.map_eq_some_iff] at hval
  obtain ⟨c', hs, hval⟩ := hval
  simp only [Prod.mk.injEq] at hval
  obtain ⟨hr, hr', ht, hv⟩ := hval
  have hv : c'.votes = [(0, 2, 0), (1, 1, 0), (0, 1, 0)] := of_decide_eq_true hv
  obtain ⟨Q, hQ, -, hq⟩ := hall c c' _ 0 (reach_of_exec hc) hs (by rw [hr]; decide) hr'
  rw [ht, hv] at hq
  -- only node 0 has given a vote of term 2
  have hsub : Q ⊆ {0} := by
    intro j hj
    have := hq j hj
    simp only [List.mem_cons, Prod.mk.injEq, List.not_mem_nil, or_false] at this
    obtain ⟨rfl, -⟩ | ⟨-, hbad, -⟩ | ⟨-, hbad, -⟩ := this
    · exact Finset.mem_singleton_self _
    · cases hbad
    · cases hbad
  have hcard := Finset.card_le_card hsub
  unfold Majority at hQ
  rw [Finset.card_singleton] at hcard
  rw [Fintype.card_fin] at hQ
  omega

end Chfs.Raft.Votes
