import Chfs.Raft.Acceptance

namespace Chfs.Raft.Acceptance

open Protocol Node Handlers Network FullLog Replication Election Matching LogSafety Counting
open Lib.Run Lib.Quorum Lib.LeaderLog Lib.Ballot

variable {n : ℕ} {Command St : Type} {c c' : Cluster n Command St}
  {lead : Leads (RaftLogEntry Command)} {acc : Fin n → ℤ → ℕ} {i d s : Fin n}
  {nd : RaftNode n Command St}

theorem AccInv.win (h : AccInv c lead acc) (hr : (c.nodes s).role = .candidate)
    (hrole : nd.role = .leader) (ht : nd.currentTerm = (c.nodes s).currentTerm)
    (hci : nd.commitIndex = (c.nodes s).commitIndex)
    (hn : c'.nodes = Function.update c.nodes s nd) (hf : c'.full = c.full)
    (hw : c'.wins = (s, (c.nodes s).currentTerm) :: c.wins) (hvotes : c'.votes = c.votes)
    (hp : c'.net ⊆ c.net) (hv : VoteInv c')
    (hl : LogInv c' (Function.update lead (c.nodes s).currentTerm (some (c.full s))))
    (hcount : Counted nd (c.full s).length acc) :
    AccInv c' (Function.update lead (c.nodes s).currentTerm (some (c.full s))) acc := by
  have hself : c'.nodes s = nd := by simp [hn]
  have hother : ∀ j, j ≠ s → c'.nodes j = c.nodes j := fun j hj => by simp [hn, hj]
  have hnone : lead (c.nodes s).currentTerm = none := by
    have hnd := hv.nodup
    rw [hw, List.map_cons, List.nodup_cons] at hnd
    exact h.logs.fresh _ hnd.1
  have hbal : Acceptance.ballot c' (Function.update lead (c.nodes s).currentTerm (some (c.full s))) acc
      = (Acceptance.ballot c lead acc).win s := by
    have hcur : (fun j => (c'.nodes j).currentTerm) = fun j => (c.nodes j).currentTerm := by
      funext j
      by_cases hj : j = s
      · rw [hj, hself, ht]
      · rw [hother j hj]
    simp only [Acceptance.ballot, State.win, hcur, hf]
  obtain ⟨⟨Q, hQ, hq⟩, _⟩ := hv.won s (c.nodes s).currentTerm (hw ▸ List.mem_cons_self)
  rw [hvotes] at hq
  refine h.proceeds hv hl ?_ (fun j => ?_) (fun T m hm => ?_) (fun _ _ => le_refl _)
    (fun v F t _ hvo => ?_) (fun v T x hm => Or.inl (hvotes ▸ hm)) (fun p hpn => Or.inl (hp hpn))
    (fun j hrj => ?_)
  · rw [hbal]
    refine h.ballot.win s hnone Q hQ (fun v hvQ => (h.votes.voter v _ _ (hq v hvQ)).2.1) ?_
    exact fun v hvQ => h.vouch s hr v (hq v hvQ)
  · by_cases hj : j = s
    · subst hj
      refine ⟨by rw [hself, ht], by rw [hself, hci]; exact h.commitNonneg j, fun hrj => ?_⟩
      rw [hself, hrole] at hrj
      cases hrj
    · exact ⟨by rw [hother j hj], by rw [hother j hj]; exact h.commitNonneg j,
        fun hrj => Or.inl ⟨hother j hj ▸ hrj, by rw [hother j hj], by rw [hf]⟩⟩
  · by_cases hT : T = (c.nodes s).currentTerm
    · rw [hT]
      exact h.candidatePos s hr
    · rw [Function.update_of_ne hT] at hm
      exact h.leadPos T m hm
  · rw [hbal]
    exact hvo.win hnone (h.logs.valid s)
  · rw [hf]
    by_cases hj : j = s
    · rw [hj, hself]
      exact hcount
    · rw [hother j hj] at hrj ⊢
      exact h.counted j hrj

theorem AccInv.command (h : AccInv c lead acc) {cmd : Command} {out : Outcome n Command St (ℤ × ℤ)}
    (hr : (c.nodes i).role = .leader) (hout : newCommand (c.nodes i) cmd = some out)
    (hn : c'.nodes = Function.update c.nodes i out.node) (hc : c'.covered = c.covered)
    (hw : c'.wins = c.wins) (hp : c'.net = c.net) (hvotes : c'.votes = c.votes) (hv : VoteInv c') :
    ∃ lead' acc', AccInv c' lead' acc' ∧ Evolves RaftLogEntry.term (Acceptance.ballot c lead acc)
      (Acceptance.ballot c' lead' acc') := by
  obtain ⟨e, het, hfi, hfo, hl⟩ := h.logs.newCommand hr hout hn hc hw hp
  obtain ⟨back, hb, hnode⟩ := newCommand_cases hout
  have hself : c'.nodes i = out.node := by simp [hn]
  have hother : ∀ j, j ≠ i → c'.nodes j = c.nodes j := fun j hj => by simp [hn, hj]
  have hterm : out.node.currentTerm = (c.nodes i).currentTerm := by rw [hnode]
  have hlead := (h.logs.leader i hr).2
  have hbi := ((h.logs.rep i).last hb).1
  obtain ⟨a₁, ha₁⟩ : ∃ a₁, a₁ = (Acceptance.ballot c lead acc).extend i e := ⟨_, rfl⟩
  obtain ⟨a₂, ha₂⟩ : ∃ a₂, a₂ = a₁.accept i ((c.full i).length + 1) := ⟨_, rfl⟩
  have hcur : (fun j => (c'.nodes j).currentTerm) = fun j => (c.nodes j).currentTerm := by
    funext j
    by_cases hj : j = i
    · rw [hj, hself, hterm]
    · rw [hother j hj]
  have hfull : c'.full = Function.update c.full i (c.full i ++ [e]) := by
    funext j
    by_cases hj : j = i
    · subst hj
      simp [hfi]
    · simp [hfo j hj, hj]
  have hbal : Acceptance.ballot c'
      (Function.update lead (c.nodes i).currentTerm (some (c.full i ++ [e]))) a₂.acc = a₂ := by
    simp only [Acceptance.ballot, hcur, hfull, ha₂, ha₁, State.extend, State.accept]
  have hacc : ∀ j T, acc j T ≤ a₂.acc j T := by
    intro j T
    rw [ha₂]
    exact (le_of_eq (by rw [ha₁]; rfl)).trans (acc_le_accept i j _ T)
  have hacci : (c.full i).length + 1 ≤ a₂.acc i (c.nodes i).currentTerm := by
    rw [ha₂, accept_acc, if_pos ⟨rfl, by rw [ha₁]; rfl⟩]
    exact le_max_right _ _
  have hinv₁ : Inv RaftLogEntry.term a₁ := ha₁ ▸ h.ballot.extend i e hlead het
  have hinv₂ : Inv RaftLogEntry.term a₂ := by
    rw [ha₂]
    refine hinv₁.accept i _ (c.full i ++ [e]) ?_ (by simp) ?_
    · rw [ha₁]
      simp [State.extend, Acceptance.ballot]
    · have hlog : a₁.log i = c.full i ++ [e] := by
        rw [ha₁]
        simp [State.extend, Acceptance.ballot]
      rw [hlog]
      exact List.take_prefix _ _
  refine ⟨_, a₂.acc, h.proceeds hv hl ?_ (fun j => ?_) (fun T m hm => ?_) hacc (fun v F t ht hvo => ?_)
    (fun v T x hm => Or.inl (hvotes ▸ hm)) (fun p hpn => Or.inl (hp ▸ hpn)) (fun j hrj => ?_), ?_⟩
  · rw [hbal]
    exact hinv₂
  · by_cases hj : j = i
    · subst hj
      refine ⟨by rw [hself, hterm], by rw [hself, hnode]; exact h.commitNonneg j, fun hrj => ?_⟩
      rw [hself, hnode, hr] at hrj
      cases hrj
    · exact ⟨by rw [hother j hj], by rw [hother j hj]; exact h.commitNonneg j,
        fun hrj => Or.inl ⟨hother j hj ▸ hrj, by rw [hother j hj], hfo j hj⟩⟩
  · by_cases hT : T = (c.nodes i).currentTerm
    · rw [hT]
      exact h.leadPos _ _ hlead
    · rw [Function.update_of_ne hT] at hm
      exact h.leadPos T m hm
  · rw [hbal, ha₂]
    refine Vouches.accept ?_ (by rw [ha₁]; exact ht) _
    rw [ha₁]
    exact hvo.extend h.ballot hlead het
  · by_cases hj : j = i
    · subst hj
      rw [hself, hfi]
      obtain ⟨hlen, hcnt⟩ := h.counted j hr
      have hsum : out.node.matchCount = (c.nodes j).matchCount ++ [1] := by rw [hnode]
      have hci : out.node.commitIndex = (c.nodes j).commitIndex := by rw [hnode]
      have hmi : out.node.matchIndex =
          Function.update (c.nodes j).matchIndex j (back.index + 1) := by rw [hnode, h.logs.myId j]
      have hfl : (c.full j).length = (c.covered j ++ (c.nodes j).log.tail).length := rfl
      refine ⟨?_, fun p x hx => ?_⟩
      · rw [hsum, hci, List.length_append, List.length_append, List.length_singleton,
          List.length_singleton]
        push_cast
        omega
      · rw [hsum] at hx
        rw [hci, hmi, hterm]
        have hplt := (List.getElem?_eq_some_iff.mp hx).1
        rw [List.length_append, List.length_singleton] at hplt
        by_cases hpl : p < (c.nodes j).matchCount.length
        · rw [List.getElem?_append_left hpl] at hx
          refine (hcnt p x hx).trans (Finset.card_le_card (ackers_subset_update ?_ fun k => hacc k _))
          omega
        · have hpe : p = (c.nodes j).matchCount.length := by omega
          subst hpe
          rw [List.getElem?_concat_length, Option.some.injEq] at hx
          subst hx
          refine Finset.card_pos.mpr ⟨j, ?_⟩
          simp only [ackers, Finset.mem_filter, Finset.mem_univ, true_and, Function.update_self]
          omega
    · rw [hother j hj] at hrj ⊢
      rw [hfo j hj]
      exact (h.counted j hrj).mono hacc
  · rw [hbal, ha₂]
    refine Evolves.trans ?_ (evolves_accept i _)
    rw [ha₁]
    exact evolves_of_grows (grows_update_append hlead) rfl

section Tail

variable {covered log held : Log Command}

theorem agrees_of_le (h : LogRep covered log) {prev : ℕ} (entries : Log Command)
    (h1 : covered.length ≤ prev) (hent : entries <+: held.drop prev)
    (hlen : prev + entries.length ≤ held.length)
    (hpre : held.take (prev + entries.length) <+: covered ++ log.tail) :
    agrees log prev entries = true := by
  have hle := hpre.length_le
  rw [List.length_take] at hle
  rw [agrees, List.all_eq_true]
  intro x hx
  obtain ⟨ht, hxe⟩ := List.mem_zipIdx' hx
  have hfull : (covered ++ log.tail)[prev + x.2]? = some x.1 := by
    obtain ⟨r, hr⟩ := hpre
    rw [← hr, List.getElem?_append_left (by rw [List.length_take]; omega), List.getElem?_take,
      if_pos (by omega), ← List.getElem?_drop]
    obtain ⟨r', hr'⟩ := hent
    rw [← hr', List.getElem?_append_left ht, hxe]
    exact List.getElem?_eq_getElem ht
  have hterm : entryTerm (covered ++ log.tail) (prev + 1 + x.2) = x.1.term := by
    rw [show prev + 1 + x.2 = prev + x.2 + 1 by omega]
    exact termAt_succ hfull
  rw [show (prev : ℤ) + 1 + x.2 = ((prev + 1 + x.2 : ℕ) : ℤ) by push_cast; rfl,
    h.holds_eq (by omega) (by omega), hterm]
  simp

end Tail

theorem joins_follower (h : LogInv c lead) {t : ℤ} {held : Log Command}
    (hs : Sent c.wins lead s d t held) {nd : RaftNode n Command St} (hj : Joins (c.nodes d) t nd)
    (hk : ¬ ((c.nodes d).role = .candidate ∧ t = (c.nodes d).currentTerm)) :
    nd.role = .follower := by
  by_contra hr
  obtain ⟨rfl, ht⟩ := hj.eq_of_role hr
  cases hrole : (c.nodes d).role with
  | follower => exact hr hrole
  | candidate => exact hk ⟨hrole, ht.symm⟩
  | leader => exact h.not_leader hs ht hrole

/-- A follower takes over entries of its leader, up to the end of `l`, and has
then accepted its first `x` entries. -/
theorem AccInv.adopt (h : AccInv c lead acc) (hq : Steady (c.nodes d) nd) (hr : nd.role = .follower)
    (hci : 0 ≤ nd.commitIndex) {m l : Log Command} (hm : lead nd.currentTerm = some m) {x : ℕ}
    (hx : x ≤ m.length) (hxl : m.take x <+: l)
    (hl : l = c.full d ∨ (l <+: m ∧ ∀ P, P <+: c.full d → P <+: m → P <+: l))
    (hn : c'.nodes = Function.update c.nodes d nd) (hfd : c'.full d = l)
    (hfo : ∀ j, j ≠ d → c'.full j = c.full j) (hvotes : c'.votes = c.votes) (hv : VoteInv c')
    (hlog : LogInv c' lead) : ∃ acc', (∀ j T, acc j T ≤ acc' j T) ∧ x ≤ acc' d nd.currentTerm ∧
      Evolves RaftLogEntry.term (Acceptance.ballot c lead acc) (Acceptance.ballot c' lead acc') ∧
      ((∀ p ∈ c'.net, p ∈ c.net ∨ PacketBacked c' acc' p) → AccInv c' lead acc') := by
  have hself : c'.nodes d = nd := by simp [hn]
  have hother : ∀ j, j ≠ d → c'.nodes j = c.nodes j := fun j hj => by simp [hn, hj]
  obtain ⟨a₁, ha₁⟩ : ∃ a₁, a₁ = (Acceptance.ballot c lead acc).raise d nd.currentTerm := ⟨_, rfl⟩
  obtain ⟨a₂, ha₂⟩ : ∃ a₂, a₂ = a₁.adopt d l := ⟨_, rfl⟩
  obtain ⟨a₃, ha₃⟩ : ∃ a₃, a₃ = a₂.accept d x := ⟨_, rfl⟩
  have hcur₁ : a₁.cur d = nd.currentTerm := by simp [ha₁, State.raise]
  have hcur₂ : a₂.cur d = nd.currentTerm := by rw [ha₂]; exact hcur₁
  have hinv₁ : Inv RaftLogEntry.term a₁ := ha₁ ▸ h.ballot.raise d _ hq.term
  have hinv₂ : Inv RaftLogEntry.term a₂ := by
    obtain rfl | ⟨hl1, hl2⟩ := hl
    · have heq : a₂ = a₁ := by
        rw [ha₂, ha₁]
        simp [State.adopt, State.raise, Acceptance.ballot]
      exact heq ▸ hinv₁
    · rw [ha₂]
      refine hinv₁.adopt d l m ?_ hl1 fun P hP => hl2 P (by rw [ha₁] at hP; exact hP)
      rw [hcur₁, ha₁]
      exact hm
  have hinv₃ : Inv RaftLogEntry.term a₃ := by
    rw [ha₃]
    refine hinv₂.accept d x m ?_ hx ?_
    · rw [hcur₂, ha₂, ha₁]
      exact hm
    · rw [ha₂]
      simpa [State.adopt] using hxl
  have hbal : Acceptance.ballot c' lead a₃.acc = a₃ := by
    have hcur : (fun j => (c'.nodes j).currentTerm) =
        Function.update (fun j => (c.nodes j).currentTerm) d nd.currentTerm := by
      funext j
      by_cases hj : j = d
      · subst hj
        simp [hself]
      · simp [hother j hj, hj]
    have hfull : c'.full = Function.update c.full d l := by
      funext j
      by_cases hj : j = d
      · subst hj
        simp [hfd]
      · simp [hfo j hj, hj]
    rw [ha₃, ha₂, ha₁]
    simp only [Acceptance.ballot, hcur, hfull, State.raise, State.adopt, State.accept]
  have hacc : ∀ j T, acc j T ≤ a₃.acc j T := by
    intro j T
    rw [ha₃]
    refine (le_of_eq ?_).trans (acc_le_accept d j x T)
    rw [ha₂, ha₁]
    rfl
  have hev : Evolves RaftLogEntry.term (Acceptance.ballot c lead acc) a₃ := by
    rw [ha₃]
    refine Evolves.trans ?_ (evolves_accept d x)
    exact evolves_of_eq (by rw [ha₂, ha₁]; rfl) (by rw [ha₂, ha₁]; rfl)
  refine ⟨a₃.acc, hacc, ?_, hbal.symm ▸ hev, fun hp => h.proceeds hv hlog (hbal.symm ▸ hinv₃)
    (hq.proceeds hn (fun j hrj => ?_) h.commitNonneg hci) h.leadPos hacc
    (fun v F t ht hvo => ?_) (fun v T x hmem => Or.inl (hvotes ▸ hmem)) hp (fun j hrj => ?_)⟩
  · rw [ha₃, accept_acc, if_pos ⟨rfl, hcur₂.symm⟩]
    exact le_max_right _ _
  · have hj : j ≠ d := by
      rintro rfl
      rw [hself, hr] at hrj
      cases hrj
    exact hfo j hj
  · rw [hbal, ha₃]
    refine Vouches.accept (a := a₂) ?_ ?_ x
    · rw [ha₂, ha₁]
      exact hvo
    · refine ht.trans ?_
      rw [ha₂, ha₁]
      exact raise_le d _ hq.term v
  · have hj : j ≠ d := by
      rintro rfl
      rw [hself, hr] at hrj
      cases hrj
    rw [hother j hj] at hrj ⊢
    rw [hfo j hj]
    exact (h.counted j hrj).mono hacc

theorem AccInv.refuse (h : AccInv c lead acc) (hq : Steady (c.nodes d) nd)
    (hnd : nd = c.nodes d ∨ nd.role = .follower) (hlog : nd.log = (c.nodes d).log)
    (hci : nd.commitIndex = (c.nodes d).commitIndex)
    (hn : c'.nodes = Function.update c.nodes d nd) (hc : c'.covered = c.covered)
    (hvotes : c'.votes = c.votes) (hv : VoteInv c') (hl : LogInv c' lead)
    (hp : ∀ p ∈ c'.net, p ∈ c.net ∨ PacketBacked c' acc p) : AccInv c' lead acc := by
  refine h.quiet hq hn (full_setNode hn hc hlog) hv hl hvotes (hci ▸ h.commitNonneg d) hp ?_
  intro hr
  obtain rfl | hf := hnd
  · exact h.counted d hr
  · rw [hf] at hr
    cases hr

/-- A message of the leader gives up nothing that the follower shares with the
leader's log `m`. -/
theorem keepsTail_common (h : LogInv c lead) {args : AppendEntriesArgs Command} {held m : Log Command}
    (hfit : AppendFits held args) (hheld : held <+: m)
    (ht : KeepsTail c (.appendRequest s d args held)) (hle : (c.nodes d).currentTerm ≤ args.term)
    (hold : holds? (c.nodes d).log args.prevLogIndex args.prevLogTerm = some true)
    (hne : args.entries ≠ []) {prev : ℕ} (hprev : args.prevLogIndex = prev)
    (hcov : (c.covered d).length ≤ prev) (hlen : prev + args.entries.length ≤ held.length)
    {P : Log Command} (hP : P <+: c.full d) (hPm : P <+: m) :
    P <+: held.take (prev + args.entries.length) := by
  have hqm : held.take (prev + args.entries.length) <+: m := (List.take_prefix _ _).trans hheld
  have hql : (held.take (prev + args.entries.length)).length = prev + args.entries.length := by
    rw [List.length_take]
    omega
  by_cases hPl : P.length ≤ prev + args.entries.length
  · exact List.prefix_of_prefix_length_le hPm hqm (by omega)
  · -- the follower has all entries of the message, so the message reaches its end
    have hqP := List.prefix_of_prefix_length_le hqm hPm (by omega)
    obtain ⟨_, hprev', _, _, hent⟩ := hfit
    have hag := agrees_of_le (h.rep d) args.entries hcov
      (by rw [hprev, Nat.cast_inj] at hprev'; exact hprev' ▸ hent) hlen (hqP.trans hP)
    obtain ⟨b, hb⟩ : ∃ b, (c.nodes d).log.getLast? = some b := by
      obtain ⟨f, tl, hftl, _⟩ := (h.rep d).front
      exact ⟨_, by rw [hftl]; exact List.getLast?_cons⟩
    have hend := ht (by simpa using hne) hle hold (hprev ▸ hag) b hb
    have hbi := ((h.rep d).last hb).1
    have hPf : P.length ≤ (c.covered d ++ (c.nodes d).log.tail).length := hP.length_le
    omega

theorem AccInv.appendEntries (h : AccInv c lead acc) {args : AppendEntriesArgs Command}
    {held : Log Command} (hs : Sent c.wins lead s d args.term held) (hfit : AppendFits held args)
    (hk : KeepsVote c (.appendRequest s d args held)) (ht : KeepsTail c (.appendRequest s d args held))
    {out : Outcome n Command St AppendEntriesReply}
    (hout : Node.appendEntries (c.nodes d) args = some out)
    (hn : c'.nodes = Function.update c.nodes d out.node) (hc : c'.covered = c.covered)
    (hvotes : c'.votes = c.votes) (hp : c'.net = c.net ++ [.appendReply s d args out.reply])
    (hv : VoteInv c') (hl : LogInv c' lead) : ∃ acc', AccInv c' lead acc' ∧
      Evolves RaftLogEntry.term (Acceptance.ballot c lead acc) (Acceptance.ballot c' lead acc') := by
  have hquiet := Quiet.steady (quiet_appendEntries hout hk)
  have hsent : ∀ acc'' : Fin n → ℤ → ℕ, PacketBacked c' acc'' (.appendReply s d args out.reply) →
      ∀ p ∈ c'.net, p ∈ c.net ∨ PacketBacked c' acc'' p := by
    intro acc'' hb
    rw [hp]
    exact mem_send hb
  obtain ⟨_, hnd, hfail⟩ | ⟨nd, hj, ⟨_, hnd, hfail⟩ | ⟨hold, log, ops, back, hsp, hback, hnd⟩⟩ :=
    appendEntries_cases hout
  · exact ⟨acc, h.refuse hquiet (Or.inl hnd) (by rw [hnd]) (by rw [hnd]) hn hc hvotes hv hl
      (hsent _ fun hok => by rw [hfail] at hok; cases hok), evolves_of_eq rfl rfl⟩
  · exact ⟨acc, h.refuse hquiet (Or.inr (hnd ▸ joins_follower h.logs hs hj hk)) (by rw [hnd, hj.log])
      (by rw [hnd, hj.commitIndex]) hn hc hvotes hv hl
      (hsent _ fun hok => by rw [hfail] at hok; cases hok), evolves_of_eq rfl rfl⟩
  obtain ⟨hrep, prev, hprev, hcov, hlen, _, hpre, hcase⟩ :=
    spliceEntries_full (h.logs.rep d) (h.logs.valid d) hs.valid hs.indexed hfit hold hsp
  obtain ⟨m, hm, hheld⟩ := hs.onLead
  have hterm : out.node.currentTerm = args.term := by rw [hnd]; exact hj.term
  have hfol := joins_follower h.logs hs hj hk
  have hrole : out.node.role = .follower := by rw [hnd, hfol]
  have hlog : out.node.log = log := by rw [hnd]
  have hfd : c'.full d = c.covered d ++ log.tail := by
    rw [Cluster.full, hc, hn, Function.update_self, hlog]
  have hfo : ∀ j, j ≠ d → c'.full j = c.full j := fun j hj => by
    simp [Cluster.full, hn, hc, hj]
  have hci : 0 ≤ out.node.commitIndex := by
    have h0 := h.commitNonneg d
    have hb0 := (hrep.last hback).1
    rw [hnd]
    simp only
    split <;> omega
  have htake : ∀ q, q ≤ held.length → m.take q = held.take q := by
    intro q hq
    obtain ⟨r, rfl⟩ := hheld
    exact List.take_append_of_le_length hq
  have hx : m.take (prev + args.entries.length) <+: c.covered d ++ log.tail := by
    rw [htake _ hlen]
    obtain ⟨he, rfl⟩ | ⟨_, heq⟩ := hcase
    · simpa [he] using hpre
    · rw [heq]
  have hl' : c.covered d ++ log.tail = c.full d ∨ (c.covered d ++ log.tail <+: m ∧
      ∀ P, P <+: c.full d → P <+: m → P <+: c.covered d ++ log.tail) := by
    obtain ⟨_, rfl⟩ | ⟨hne, heq⟩ := hcase
    · exact Or.inl rfl
    · rw [heq]
      exact Or.inr ⟨(List.take_prefix _ _).trans hheld, fun P hP hPm => keepsTail_common h.logs hfit hheld
        ht hj.term_le hold hne hprev hcov hlen hP hPm⟩
  obtain ⟨acc', _, hle, hev, hinv⟩ := h.adopt hquiet hrole hci (hterm ▸ hm)
    (by have := hheld.length_le; omega) hx hl' hn hfd hfo hvotes hv hl
  refine ⟨acc', hinv (hsent _ fun _ => ?_), hev⟩
  rw [hterm] at hle
  rw [hprev]
  exact_mod_cast hle

/-- The entries that two prefixes of a leader's log have in common survive a
snapshot that the follower does not hold yet. -/
theorem take_of_not_take {m l held P : Log Command} {b : ℕ} (hb : b ≤ held.length)
    (hheld : held <+: m) (hnot : ¬ held.take b <+: l) (hP : P <+: l) (hPm : P <+: m) :
    P <+: held.take b := by
  have hbm : held.take b <+: m := (List.take_prefix _ _).trans hheld
  have hbl : (held.take b).length = b := by
    rw [List.length_take]
    omega
  by_cases hPl : P.length ≤ b
  · exact List.prefix_of_prefix_length_le hPm hbm (by omega)
  · exact absurd ((List.prefix_of_prefix_length_le hbm hPm (by omega)).trans hP) hnot

theorem AccInv.installSnapshot [ChfsStateMachine Command St] (h : AccInv c lead acc)
    {args : InstallSnapshotArgs} {junk : Command} {held : Log Command}
    (hs : Sent c.wins lead s d args.term held) (hfit : SnapshotFits held args)
    (hk : KeepsVote c (.snapshotRequest s d args held))
    {out : Outcome n Command St InstallSnapshotReply}
    (hout : Node.installSnapshot (c.nodes d) args junk = some out)
    (hn : c'.nodes = Function.update c.nodes d out.node)
    (hc : c'.covered = if args.term < (c.nodes d).currentTerm then c.covered
      else Function.update c.covered d (held.take args.lastIncludedIndex.toNat))
    (hvotes : c'.votes = c.votes) (hp : c'.net = c.net ++ [.snapshotReply s d args out.reply])
    (hv : VoteInv c') (hl : LogInv c' lead) : ∃ acc', AccInv c' lead acc' ∧
      Evolves RaftLogEntry.term (Acceptance.ballot c lead acc) (Acceptance.ballot c' lead acc') := by
  have hquiet := Quiet.steady (quiet_installSnapshot hout hk)
  have hsent : ∀ acc'' : Fin n → ℤ → ℕ, ∀ p ∈ c'.net, p ∈ c.net ∨ PacketBacked c' acc'' p := by
    intro acc''
    rw [hp]
    exact mem_send trivial
  obtain ⟨hlt, hnd⟩ | ⟨nd, front, hit, hj, hf, hold, hnd⟩ := installSnapshot_cases hout
  · rw [if_pos hlt] at hc
    exact ⟨acc, h.refuse hquiet (Or.inl hnd) (by rw [hnd]) (by rw [hnd]) hn hc hvotes hv hl (hsent _),
      evolves_of_eq rfl rfl⟩
  have hle := hj.term_le
  rw [if_neg (by omega)] at hc
  obtain ⟨b, hb, hbl, hbt⟩ := hfit
  rw [hb, Int.toNat_natCast] at hc
  have hlog : out.node.log = if hit then
      (c.nodes d).log.drop (args.lastIncludedIndex - front.index).toNat
      else [⟨args.lastIncludedIndex, args.lastIncludedTerm, junk⟩] := by rw [hnd]
  obtain ⟨hrep, hcase⟩ := installSnapshot_full (h.logs.rep d) (h.logs.valid d) hs.valid hs.indexed
    hb hbl hbt hold hf hlog
  obtain ⟨m, hm, hheld⟩ := hs.onLead
  have hterm : out.node.currentTerm = args.term := by rw [hnd]; exact hj.term
  have hfol := joins_follower h.logs hs hj hk
  have hrole : out.node.role = .follower := by rw [hnd, hfol]
  have hfd : c'.full d = held.take b ++ out.node.log.tail := by
    rw [Cluster.full, hc, hn, Function.update_self, Function.update_self]
  have hfo : ∀ j, j ≠ d → c'.full j = c.full j := fun j hj => by
    simp [Cluster.full, hn, hc, hj]
  have hci : 0 ≤ out.node.commitIndex := by
    rw [hnd]
    exact (h.commitNonneg d).trans (le_max_left _ _)
  have hl' : held.take b ++ out.node.log.tail = c.full d ∨
      (held.take b ++ out.node.log.tail <+: m ∧
        ∀ P, P <+: c.full d → P <+: m → P <+: held.take b ++ out.node.log.tail) := by
    obtain ⟨_, heq⟩ | ⟨hnot, heq⟩ := hcase
    · exact Or.inl heq
    · rw [heq]
      exact Or.inr ⟨(List.take_prefix _ _).trans hheld,
        fun P hP hPm => take_of_not_take hbl hheld hnot hP hPm⟩
  obtain ⟨acc', _, _, hev, hinv⟩ := h.adopt hquiet hrole hci (hterm ▸ hm) (Nat.zero_le _)
    (by simp) hl' hn hfd hfo hvotes hv hl
  exact ⟨acc', hinv (hsent _), hev⟩

/-- What the counting loop finds out from one more acknowledgement. -/
theorem AccInv.count (h : AccInv c lead acc) (nd : RaftNode n Command St) {args : AppendEntriesArgs Command}
    {reply : AppendEntriesReply} (hp : PacketBacked c acc (.appendReply s d args reply))
    (hr : (c.nodes s).role = .leader) (hok : reply.success = true)
    (hfresh : args.term = (c.nodes s).currentTerm) {matched tmp ci : ℤ} {cs : List ℕ}
    (hmatched : matched = max ((c.nodes s).matchIndex d) (args.prevLogIndex + args.entries.length))
    (htmp : tmp = max ((c.nodes s).matchIndex d - (c.nodes s).commitIndex) 0 - 1)
    (hcm : countMatches (c.nodes s) tmp (matched - (c.nodes s).commitIndex - 1 - tmp).toNat
      (c.nodes s).matchCount = some (ci, cs))
    (hnd : nd.matchIndex = Function.update (c.nodes s).matchIndex d matched)
    (hndc : nd.commitIndex = ci) (hndm : nd.matchCount = cs)
    (hndt : nd.currentTerm = (c.nodes s).currentTerm) :
    Counted nd (c.full s).length acc ∧ (ci = (c.nodes s).commitIndex ∨
      ∃ k : ℕ, ci = k + 1 ∧ (c.nodes s).commitIndex < ci ∧
        ∃ e, (c.full s)[k]? = some e ∧ e.term = (c.nodes s).currentTerm ∧
          Majority (Finset.univ.filter fun j => k < acc j (c.nodes s).currentTerm)) := by
  obtain ⟨hlen, hcnt⟩ := h.counted s hr
  have hack := hp hok
  rw [hfresh] at hack
  obtain ⟨f, hf⟩ : ∃ f : ℕ → ℕ, ∀ p, f p = (ackers (Function.update (c.nodes s).matchIndex d matched)
      acc (c.nodes s).currentTerm ((c.nodes s).commitIndex + p + 1)).card := ⟨_, fun _ => rfl⟩
  have hbound : ∀ p x, (c.nodes s).matchCount[p]? = some x → x ≤ f p ∧ (tmp < p →
      (p : ℤ) ≤ tmp + (matched - (c.nodes s).commitIndex - 1 - tmp).toNat → x + 1 ≤ f p) := by
    intro p x hx
    have hxp := hcnt p x hx
    rw [hf]
    refine ⟨hxp.trans (ackers_mono (fun j => ?_) fun _ => le_refl _), fun h1 h2 => ?_⟩
    · by_cases hj : j = d
      · subst hj
        rw [Function.update_self, hmatched]
        exact le_max_left _ _
      · rw [Function.update_of_ne hj]
    · refine (Nat.add_le_add_right hxp 1).trans (ackers_update ?_ ?_ ?_)
      · omega
      · omega
      · omega
  obtain ⟨hci, hcl, hcs⟩ | ⟨i, hci, hmaj, hcl, hcs, front, e, hfront, he, het⟩ :=
    countMatches_spec f _ _ _ _ hcm hbound
  · refine ⟨⟨by rw [hndm, hndc, hcl, hci, hlen], fun p x hx => ?_⟩, Or.inl hci⟩
    rw [hndc, hci, hndt, hnd, ← hf]
    exact hcs p x (hndm ▸ hx)
  · have hc0 := h.commitNonneg s
    refine ⟨⟨by rw [hndm, hndc, hci]; omega, fun p x hx => ?_⟩, Or.inr ?_⟩
    · have hx' := hcs p x (hndm ▸ hx)
      rw [hf] at hx'
      rw [hndc, hci, hndt, hnd]
      refine hx'.trans (le_of_eq ?_)
      congr 2
      push_cast
      ring
    · obtain ⟨k, hk⟩ : ∃ k : ℕ, (c.nodes s).commitIndex + i = k :=
        ⟨((c.nodes s).commitIndex + i).toNat, by omega⟩
      rw [((h.logs.rep s).head hfront).1] at he
      obtain ⟨q, hq, _, hqf, _, hqt, _⟩ := (h.logs.rep s).at? he
      obtain rfl : q = k + 1 := by omega
      obtain ⟨g, hget⟩ : ∃ g, (c.full s)[k]? = some g := ⟨_, List.getElem?_eq_getElem hqf⟩
      refine ⟨k, by omega, by omega, g, hget, ?_, ?_⟩
      · rw [← het, hqt]
        exact (termAt_succ hget).symm
      · have hQ : Majority (ackers (Function.update (c.nodes s).matchIndex d matched) acc
            (c.nodes s).currentTerm ((c.nodes s).commitIndex + i + 1)) := by
          rw [hf] at hmaj
          unfold Majority
          rw [Fintype.card_fin]
          omega
        refine hQ.mono fun j hj => ?_
        simp only [ackers, Finset.mem_filter, Finset.mem_univ, true_and] at hj ⊢
        omega

end Chfs.Raft.Acceptance
