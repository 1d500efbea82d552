import Chfs.Lib.Commit
import Chfs.Raft.Counting
import Chfs.Raft.LogSafety

namespace Chfs.Raft.Acceptance

open Protocol Node Handlers Network FullLog Replication Election Matching LogSafety Counting
open Lib.Run Lib.Quorum Lib.LeaderLog Lib.Ballot

variable {n : ℕ} {Command St : Type} {c c' : Cluster n Command St}
  {lead lead' : Leads (RaftLogEntry Command)} {acc acc' : Fin n → ℤ → ℕ}

/-- What the cluster is as a system of participants. -/
def ballot (c : Cluster n Command St) (lead : Leads (RaftLogEntry Command)) (acc : Fin n → ℤ → ℕ) :
    State (Fin n) (RaftLogEntry Command) where
  cur i := (c.nodes i).currentTerm
  log := c.full
  lead := lead
  acc := acc

/-- A vote request describes the log of a candidate that still runs, and an
acknowledgement is backed by what its sender has accepted. -/
def PacketBacked (c : Cluster n Command St) (acc : Fin n → ℤ → ℕ) : Packet n Command → Prop
  | .voteRequest s _ args => args.term ≤ (c.nodes s).currentTerm ∧
    ((c.nodes s).role = .candidate → args.term = (c.nodes s).currentTerm →
      args.lastLogIndex = (c.full s).length ∧
        args.lastLogTerm = entryTerm (c.full s) (c.full s).length)
  | .appendReply _ d args reply => reply.success = true →
    args.prevLogIndex + args.entries.length ≤ acc d args.term
  | _ => True

structure AccInv (c : Cluster n Command St) (lead : Leads (RaftLogEntry Command))
    (acc : Fin n → ℤ → ℕ) : Prop where
  votes : VoteInv c
  logs : LogInv c lead
  ballot : Inv RaftLogEntry.term (ballot c lead acc)
  termNonneg : ∀ i, 0 ≤ (c.nodes i).currentTerm
  candidatePos : ∀ i, (c.nodes i).role = .candidate → 0 < (c.nodes i).currentTerm
  leadPos : ∀ T m, lead T = some m → 0 < T
  commitNonneg : ∀ i, 0 ≤ (c.nodes i).commitIndex
  voteTerm : ∀ v T (s : Fin n), (v, T, ((s : ℕ) : ℤ)) ∈ c.votes → T ≤ (c.nodes s).currentTerm
  vouch : ∀ i, (c.nodes i).role = .candidate → ∀ v,
    (v, (c.nodes i).currentTerm, ((i : ℕ) : ℤ)) ∈ c.votes →
      Vouches RaftLogEntry.term (Acceptance.ballot c lead acc) v (c.full i) (c.nodes i).currentTerm
  packets : ∀ p ∈ c.net, PacketBacked c acc p
  counted : ∀ i, (c.nodes i).role = .leader → Counted (c.nodes i) (c.full i).length acc

/-- What every step does to a node: a candidate either keeps running with its
log, or runs in a new term. -/
structure Proceeds (c c' : Cluster n Command St) (j : Fin n) : Prop where
  term : (c.nodes j).currentTerm ≤ (c'.nodes j).currentTerm
  commit : 0 ≤ (c'.nodes j).commitIndex
  candidate : (c'.nodes j).role = .candidate →
    ((c.nodes j).role = .candidate ∧ (c'.nodes j).currentTerm = (c.nodes j).currentTerm ∧
      c'.full j = c.full j) ∨ (c.nodes j).currentTerm < (c'.nodes j).currentTerm

theorem accInv_init [ChfsCommand Command] [ChfsStateMachine Command St] :
    AccInv (init n Command St) (fun _ => none) (fun _ _ => 0) where
  votes := voteInv_init
  logs := logInv_init
  ballot := by
    refine ⟨fun i => valid_nil, ?_, ?_, ?_, ?_, ?_, ?_, ?_⟩
    · exact fun T m hm => by cases hm
    · exact fun T m hm => by cases hm
    · exact fun i e he => absurd he (List.not_mem_nil)
    · exact fun i T h0 => absurd h0 (lt_irrefl _)
    · exact fun i T k m hc => by cases hc.1
    · exact fun T m hm => by cases hm
    · exact fun T k m T' m' hc => by cases hc.1
  termNonneg _ := le_refl _
  candidatePos i h := by cases h
  leadPos T m h := by cases h
  commitNonneg _ := le_refl _
  voteTerm v T s h := absurd h (List.not_mem_nil)
  vouch i h := by cases h
  packets p hp := absurd hp (List.not_mem_nil)
  counted i h := by cases h

theorem PacketBacked.proceeds {p : Packet n Command} (h : PacketBacked c acc p)
    (hnode : ∀ j, Proceeds c c' j) (hacc : ∀ j T, acc j T ≤ acc' j T) : PacketBacked c' acc' p := by
  cases p with
  | voteRequest s d args =>
    have hs := hnode s
    refine ⟨h.1.trans hs.term, fun hr ht => ?_⟩
    obtain ⟨hr', ht', hf⟩ | hlt := hs.candidate hr
    · rw [hf]
      exact h.2 hr' (ht.trans ht')
    · exact absurd h.1 (by omega)
  | appendReply s d args reply =>
    intro hok
    have h1 := h hok
    have h2 := hacc d args.term
    omega
  | _ => trivial

/-- One lemma for all steps: what remains to be shown about a step once its
effect on votes, logs and the participants is known. -/
theorem AccInv.proceeds (h : AccInv c lead acc) (hv : VoteInv c') (hl : LogInv c' lead')
    (hb : Inv RaftLogEntry.term (Acceptance.ballot c' lead' acc')) (hnode : ∀ j, Proceeds c c' j)
    (hpos : ∀ T m, lead' T = some m → 0 < T) (hacc : ∀ j T, acc j T ≤ acc' j T)
    (hvouch : ∀ v F t, t ≤ (c.nodes v).currentTerm →
      Vouches RaftLogEntry.term (Acceptance.ballot c lead acc) v F t →
      Vouches RaftLogEntry.term (Acceptance.ballot c' lead' acc') v F t)
    (hvotes : ∀ v T (s : Fin n), (v, T, ((s : ℕ) : ℤ)) ∈ c'.votes → (v, T, ((s : ℕ) : ℤ)) ∈ c.votes ∨
      (T ≤ (c'.nodes s).currentTerm ∧ ((c'.nodes s).role = .candidate →
        T = (c'.nodes s).currentTerm →
        Vouches RaftLogEntry.term (Acceptance.ballot c' lead' acc') v (c'.full s) T)))
    (hp : ∀ p ∈ c'.net, p ∈ c.net ∨ PacketBacked c' acc' p)
    (hcount : ∀ i, (c'.nodes i).role = .leader → Counted (c'.nodes i) (c'.full i).length acc') :
    AccInv c' lead' acc' where
  votes := hv
  logs := hl
  ballot := hb
  termNonneg i := (h.termNonneg i).trans (hnode i).term
  candidatePos i hr := by
    obtain ⟨hr', ht, _⟩ | hlt := (hnode i).candidate hr
    · rw [ht]
      exact h.candidatePos i hr'
    · exact (h.termNonneg i).trans_lt hlt
  leadPos := hpos
  commitNonneg i := (hnode i).commit
  voteTerm v T s hm := by
    obtain hm | ⟨hT, _⟩ := hvotes v T s hm
    · exact (h.voteTerm v T s hm).trans (hnode s).term
    · exact hT
  vouch i hr v hm := by
    obtain hm | ⟨_, hnew⟩ := hvotes v _ i hm
    · obtain ⟨hr', ht, hf⟩ | hlt := (hnode i).candidate hr
      · rw [ht] at hm ⊢
        rw [hf]
        exact hvouch v _ _ (h.votes.voter v _ _ hm).2.1 (h.vouch i hr' v hm)
      · exact absurd (h.voteTerm v _ i hm) (by omega)
    · exact hnew hr rfl
  packets p hpn := (hp p hpn).elim (fun hm => (h.packets p hm).proceeds hnode hacc) id
  counted := hcount

section Quiet

variable {i : Fin n} {nd : RaftNode n Command St}

theorem ballot_raise (hn : c'.nodes = Function.update c.nodes i nd) (hf : c'.full = c.full) :
    Acceptance.ballot c' lead acc = (Acceptance.ballot c lead acc).raise i nd.currentTerm := by
  have hcur : (fun j => (c'.nodes j).currentTerm) =
      Function.update (fun j => (c.nodes j).currentTerm) i nd.currentTerm := by
    funext j
    by_cases hj : j = i
    · subst hj
      simp [hn]
    · simp [hn, hj]
  simp only [Acceptance.ballot, State.raise, hcur, hf]

structure Steady (nd nd' : RaftNode n Command St) : Prop where
  term : nd.currentTerm ≤ nd'.currentTerm
  candidate : nd'.role = .candidate → nd.role = .candidate ∧ nd'.currentTerm = nd.currentTerm

theorem Quiet.steady {nd' : RaftNode n Command St} (h : Quiet nd nd') : Steady nd nd' := by
  refine ⟨h.term, fun hr => ?_⟩
  obtain ⟨ht, hr', _⟩ := h.role (by rw [hr]; decide)
  exact ⟨hr' ▸ hr, ht⟩

theorem Steady.proceeds (hq : Steady (c.nodes i) nd) (hn : c'.nodes = Function.update c.nodes i nd)
    (hf : ∀ j, (c'.nodes j).role = .candidate → c'.full j = c.full j)
    (hc0 : ∀ j, 0 ≤ (c.nodes j).commitIndex) (hc : 0 ≤ nd.commitIndex) :
    ∀ j, Proceeds c c' j := by
  intro j
  by_cases hj : j = i
  · subst hj
    have hself : c'.nodes j = nd := by simp [hn]
    refine ⟨hself ▸ hq.term, hself ▸ hc, fun hr => Or.inl ?_⟩
    obtain ⟨hr', ht⟩ := hq.candidate (hself ▸ hr)
    exact ⟨hr', hself ▸ ht, hf j hr⟩
  · have hother : c'.nodes j = c.nodes j := by simp [hn, hj]
    exact ⟨by rw [hother], hother ▸ hc0 j, fun hr => Or.inl ⟨hother ▸ hr, by rw [hother], hf j hr⟩⟩

theorem AccInv.quiet (h : AccInv c lead acc) (hq : Steady (c.nodes i) nd)
    (hn : c'.nodes = Function.update c.nodes i nd) (hf : c'.full = c.full) (hv : VoteInv c')
    (hl : LogInv c' lead) (hvotes : c'.votes = c.votes) (hc : 0 ≤ nd.commitIndex)
    (hp : ∀ p ∈ c'.net, p ∈ c.net ∨ PacketBacked c' acc p)
    (hcount : nd.role = .leader → Counted nd (c.full i).length acc) : AccInv c' lead acc := by
  refine h.proceeds hv hl ?_ (hq.proceeds hn (fun j _ => by rw [hf]) h.commitNonneg hc) h.leadPos
    (fun _ _ => le_refl _) (fun v F t _ hvo => hvo) (fun v T s hm => Or.inl (hvotes ▸ hm)) hp ?_
  · rw [ballot_raise hn hf]
    exact h.ballot.raise i _ hq.term
  · intro j hr
    by_cases hj : j = i
    · subst hj
      have hself : c'.nodes j = nd := by simp [hn]
      rw [hself, hf]
      exact hcount (hself ▸ hr)
    · have hother : c'.nodes j = c.nodes j := by simp [hn, hj]
      rw [hother, hf]
      exact h.counted j (hother ▸ hr)

theorem AccInv.net (h : AccInv c lead acc) (hn : c'.nodes = c.nodes) (hf : c'.full = c.full)
    (hv : VoteInv c') (hl : LogInv c' lead) (hvotes : c'.votes = c.votes)
    (hp : ∀ p ∈ c'.net, p ∈ c.net ∨ PacketBacked c' acc p) : AccInv c' lead acc := by
  have hb : Acceptance.ballot c' lead acc = Acceptance.ballot c lead acc := by
    simp only [Acceptance.ballot, hn, hf]
  refine h.proceeds hv hl (hb ▸ h.ballot) (fun j => ?_) h.leadPos (fun _ _ => le_refl _)
    (fun v F t _ hvo => hb ▸ hvo) (fun v T s hm => Or.inl (hvotes ▸ hm)) hp
    (fun j hr => by rw [hn, hf]; exact h.counted j (hn ▸ hr))
  exact ⟨by rw [hn], hn ▸ h.commitNonneg j, fun hr => Or.inl ⟨hn ▸ hr, by rw [hn], by rw [hf]⟩⟩

end Quiet

section Steps

variable {i d s : Fin n}

theorem full_setNode {nd : RaftNode n Command St} (hn : c'.nodes = Function.update c.nodes i nd)
    (hc : c'.covered = c.covered) (hlog : nd.log = (c.nodes i).log) : c'.full = c.full := by
  funext j
  by_cases hj : j = i
  · subst hj
    simp [Cluster.full, hn, hc, hlog]
  · simp [Cluster.full, hn, hc, hj]

theorem AccInv.stand (h : AccInv c lead acc) {nd : RaftNode n Command St}
    (hn : c'.nodes = Function.update c.nodes i nd) (hc : c'.covered = c.covered)
    (hlog : nd.log = (c.nodes i).log) (hv : VoteInv c') (hl : LogInv c' lead)
    (hr : nd.role = .candidate) (ht : nd.currentTerm = (c.nodes i).currentTerm + 1)
    (hci : nd.commitIndex = (c.nodes i).commitIndex)
    (hvotes : c'.votes = (i, nd.currentTerm, ((i : ℕ) : ℤ)) :: c.votes)
    (hp : ∀ p ∈ c'.net, p ∈ c.net ∨ PacketBacked c' acc p) : AccInv c' lead acc := by
  have hf := full_setNode hn hc hlog
  have hself : c'.nodes i = nd := by simp [hn]
  have hother : ∀ j, j ≠ i → c'.nodes j = c.nodes j := fun j hj => by simp [hn, hj]
  have hb : Inv RaftLogEntry.term (Acceptance.ballot c' lead acc) := by
    rw [ballot_raise hn hf]
    exact h.ballot.raise i _ (show (c.nodes i).currentTerm ≤ nd.currentTerm by omega)
  refine h.proceeds hv hl hb (fun j => ?_) h.leadPos (fun _ _ => le_refl _) (fun v F t _ hvo => hvo)
    (fun v T s hm => ?_) hp (fun j hrj => ?_)
  · by_cases hj : j = i
    · subst hj
      exact ⟨by rw [hself]; omega, by rw [hself, hci]; exact h.commitNonneg j,
        fun _ => Or.inr (by rw [hself]; omega)⟩
    · exact ⟨by rw [hother j hj], by rw [hother j hj]; exact h.commitNonneg j,
        fun hrj => Or.inl ⟨hother j hj ▸ hrj, by rw [hother j hj], by rw [hf]⟩⟩
  · rw [hvotes, List.mem_cons] at hm
    obtain hm | hm := hm
    · simp only [Prod.mk.injEq, Nat.cast_inj] at hm
      obtain ⟨rfl, rfl, hsv⟩ := hm
      obtain rfl : s = v := Fin.ext hsv
      refine Or.inr ⟨by rw [hself], fun _ hT => ?_⟩
      rw [hT]
      exact hb.vouches_self s
    · exact Or.inl hm
  · have hj : j ≠ i := by
      rintro rfl
      rw [hself, hr] at hrj
      cases hrj
    rw [hother j hj] at hrj ⊢
    rw [hf]
    exact h.counted j hrj

theorem AccInv.grant (h : AccInv c lead acc) {args : RequestVoteArgs} {nd : RaftNode n Command St}
    {back : RaftLogEntry Command} (hreq : PacketBacked c acc (.voteRequest s d args))
    (hcand : args.candidateId = (s : ℕ)) (hq : Steady (c.nodes d) nd)
    (ht : nd.currentTerm = args.term) (hlog : nd.log = (c.nodes d).log)
    (hci : nd.commitIndex = (c.nodes d).commitIndex)
    (hmatch : nd.role = .leader → Counted nd (c.full d).length acc)
    (hb : (c.nodes d).log.getLast? = some back)
    (hup : args.lastLogTerm > back.term ∨
      args.lastLogTerm = back.term ∧ args.lastLogIndex ≥ back.index)
    (hn : c'.nodes = Function.update c.nodes d { nd with votedFor := args.candidateId })
    (hc : c'.covered = c.covered) (hv : VoteInv c') (hl : LogInv c' lead)
    (hvotes : c'.votes = (d, args.term, args.candidateId) :: c.votes)
    (hp : ∀ p ∈ c'.net, p ∈ c.net ∨ PacketBacked c' acc p) : AccInv c' lead acc := by
  have hf : c'.full = c.full := full_setNode hn hc hlog
  have hself : (c'.nodes d).currentTerm = args.term := by simp [hn, ht]
  have hother : ∀ j, j ≠ d → c'.nodes j = c.nodes j := fun j hj => by simp [hn, hj]
  have hbal : Inv RaftLogEntry.term (Acceptance.ballot c' lead acc) := by
    rw [ballot_raise hn hf]
    exact h.ballot.raise d _ hq.term
  have hst : Steady (c.nodes d) { nd with votedFor := args.candidateId } := ⟨hq.term, hq.candidate⟩
  have hnode := hst.proceeds hn (fun j _ => by rw [hf]) h.commitNonneg (hci ▸ h.commitNonneg d)
  refine h.proceeds hv hl hbal hnode h.leadPos (fun _ _ => le_refl _) (fun v F t _ hvo => hvo)
    (fun v T x hm => ?_) hp (fun j hrj => ?_)
  · rw [hvotes, List.mem_cons] at hm
    obtain hm | hm := hm
    swap
    · exact Or.inl hm
    simp only [Prod.mk.injEq] at hm
    obtain ⟨rfl, rfl, hx⟩ := hm
    obtain rfl : x = s := Fin.ext (by rw [hcand] at hx; exact_mod_cast hx)
    refine Or.inr ⟨hreq.1.trans (hnode x).term, fun hr hT => ?_⟩
    -- the candidate still runs, so the request describes its log
    obtain ⟨hr', ht', _⟩ | hlt := (hnode x).candidate hr
    · obtain ⟨hli, hlt⟩ := hreq.2 hr' (hT.trans ht')
      obtain ⟨hbi, hbt⟩ := (h.logs.rep v).last hb
      have hcur : (Acceptance.ballot c' lead acc).cur v = args.term := hself
      rw [← hcur]
      refine hbal.vouches h.leadPos (hl.valid x) (fun e he => ?_) ?_
      · rw [hcur, hT]
        exact hbal.logTerm x e he
      · rw [hli, hlt, hbi, hbt] at hup
        simp only [Acceptance.ballot, hf]
        obtain hup | ⟨hup1, hup2⟩ := hup
        · exact Or.inl hup
        · exact Or.inr ⟨hup1.symm, by exact_mod_cast hup2⟩
    · exact absurd hreq.1 (by omega)
  · by_cases hj : j = d
    · subst hj
      have hnj : c'.nodes j = { nd with votedFor := args.candidateId } := by simp [hn]
      rw [hnj] at hrj ⊢
      rw [hf]
      exact (hmatch hrj).congr rfl rfl (fun _ => le_refl _) rfl
    · rw [hother j hj] at hrj ⊢
      rw [hf]
      exact h.counted j hrj

end Steps

end Chfs.Raft.Acceptance
