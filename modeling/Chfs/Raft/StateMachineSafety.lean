import Chfs.Raft.Commitment

namespace Chfs.Raft.StateMachineSafety

open Protocol Node Handlers Network FullLog Replication Election Matching LogSafety Counting Acceptance
open Lib.Run Lib.Quorum Lib.LeaderLog Lib.Ballot

variable {n : ℕ} {Command St : Type} {c c' : Cluster n Command St}
  {lead : Leads (RaftLogEntry Command)} {acc : Fin n → ℤ → ℕ}
  {a a' : State (Fin n) (RaftLogEntry Command)}

/-- What a node has committed is committed in the cluster, and it has applied
and compacted no more. -/
structure NodeSettled (a : State (Fin n) (RaftLogEntry Command)) (nd : RaftNode n Command St)
    (covered : Log Command) : Prop where
  front : covered.length ≤ nd.lastApplied
  applied : nd.lastApplied ≤ nd.commitIndex
  commit : nd.commitIndex ≤ (covered ++ nd.log.tail).length
  chosen : Committed RaftLogEntry.term a nd.currentTerm
    ((covered ++ nd.log.tail).take nd.commitIndex.toNat)

def PacketSettled (a : State (Fin n) (RaftLogEntry Command)) : Packet n Command → Prop
  | .appendRequest _ _ args held =>
    Committed RaftLogEntry.term a args.term (held.take args.leaderCommit.toNat)
  | .snapshotRequest _ _ args held =>
    Committed RaftLogEntry.term a args.term (held.take args.lastIncludedIndex.toNat)
  | _ => True

def EntrySettled (a : State (Fin n) (RaftLogEntry Command)) (e : RaftLogEntry Command) : Prop :=
  ∃ t P, ∃ k : ℕ, Committed RaftLogEntry.term a t P ∧ P[k]? = some e ∧ e.index = k + 1

structure Settled (a : State (Fin n) (RaftLogEntry Command)) (c : Cluster n Command St) : Prop where
  nodes : ∀ i, NodeSettled a (c.nodes i) (c.covered i)
  packets : ∀ p ∈ c.net, PacketSettled a p
  applied : ∀ x ∈ c.applied, EntrySettled a x.2

theorem Settled.evolves (h : Settled a c) (he : Evolves RaftLogEntry.term a a') : Settled a' c := by
  refine ⟨fun i => ?_, fun p hp => ?_, fun x hx => ?_⟩
  · obtain ⟨h1, h2, h3, h4⟩ := h.nodes i
    exact ⟨h1, h2, h3, h4.evolves he (le_refl _)⟩
  · have hpk := h.packets p hp
    cases p with
    | appendRequest s d args held => exact Committed.evolves hpk he (le_refl _)
    | snapshotRequest s d args held => exact Committed.evolves hpk he (le_refl _)
    | _ => trivial
  · obtain ⟨t, P, k, hc, hget, hidx⟩ := h.applied x hx
    exact ⟨t, P, k, hc.evolves he (le_refl _), hget, hidx⟩

theorem EntrySettled.unique (hinv : Inv RaftLogEntry.term a) {e e' : RaftLogEntry Command}
    (h : EntrySettled a e) (h' : EntrySettled a e') (hidx : e.index = e'.index) : e = e' := by
  obtain ⟨t, P, k, hc, hget, hk⟩ := h
  obtain ⟨t', P', k', hc', hget', hk'⟩ := h'
  obtain rfl : k' = k := by omega
  have hP := (List.getElem?_eq_some_iff.mp hget).1
  have hP' := (List.getElem?_eq_some_iff.mp hget').1
  obtain ⟨r, rfl⟩ | ⟨r, rfl⟩ := hc.comparable hinv hc'
  · rw [List.getElem?_append_left hP, hget] at hget'
    exact Option.some.inj hget'
  · rw [List.getElem?_append_left hP', hget'] at hget
    exact (Option.some.inj hget).symm

theorem NodeSettled.frame {nd nd' : RaftNode n Command St} {covered : Log Command}
    (h : NodeSettled a nd covered) (hlog : nd'.log = nd.log) (hci : nd'.commitIndex = nd.commitIndex)
    (hla : nd'.lastApplied = nd.lastApplied) (ht : nd.currentTerm ≤ nd'.currentTerm) :
    NodeSettled a nd' covered := by
  refine ⟨hla ▸ h.front, hla ▸ hci ▸ h.applied, ?_, ?_⟩
  · rw [hci, hlog]
    exact h.commit
  · rw [hci, hlog]
    exact h.chosen.restrict (List.prefix_refl _) ht

theorem Settled.move (h : Settled a c) {i : Fin n} {nd : RaftNode n Command St} (cov : Log Command)
    (hnd : NodeSettled a nd cov) (hn : c'.nodes = Function.update c.nodes i nd)
    (hc : c'.covered = Function.update c.covered i cov) (ha : c'.applied = c.applied)
    (hp : ∀ p ∈ c'.net, p ∈ c.net ∨ PacketSettled a p) : Settled a c' := by
  refine ⟨fun j => ?_, fun p hpn => (hp p hpn).elim (h.packets p) id, ha ▸ h.applied⟩
  rw [hn, hc]
  by_cases hj : j = i
  · subst hj
    simpa using hnd
  · simpa [hj] using h.nodes j

theorem Settled.frame (h : Settled a c) {i : Fin n} {nd : RaftNode n Command St}
    (hlog : nd.log = (c.nodes i).log) (hci : nd.commitIndex = (c.nodes i).commitIndex)
    (hla : nd.lastApplied = (c.nodes i).lastApplied)
    (ht : (c.nodes i).currentTerm ≤ nd.currentTerm) (hn : c'.nodes = Function.update c.nodes i nd)
    (hc : c'.covered = c.covered) (ha : c'.applied = c.applied)
    (hp : ∀ p ∈ c'.net, p ∈ c.net ∨ PacketSettled a p) : Settled a c' :=
  h.move _ ((h.nodes i).frame hlog hci hla ht) hn (by rw [hc, Function.update_eq_self]) ha hp

theorem Settled.net (h : Settled a c) (hn : c'.nodes = c.nodes) (hc : c'.covered = c.covered)
    (ha : c'.applied = c.applied) (hp : ∀ p ∈ c'.net, p ∈ c.net ∨ PacketSettled a p) : Settled a c' :=
  ⟨hn ▸ hc ▸ h.nodes, fun p hpn => (hp p hpn).elim (h.packets p) id, ha ▸ h.applied⟩

theorem take_eq_of_le {l l' : Log Command} {k : ℕ} (h : l.take k <+: l') (hk : k ≤ l.length) :
    l'.take k = l.take k := by
  obtain ⟨r, rfl⟩ := h
  rw [List.take_append_of_le_length (by rw [List.length_take]; omega), List.take_take, Nat.min_self]

theorem nodeSettled_appendEntries (hacc : AccInv c lead acc) (h : Settled (ballot c lead acc) c)
    {s d : Fin n} {args : AppendEntriesArgs Command} {held : Log Command}
    (hs : Sent c.wins lead s d args.term held) (hfit : AppendFits held args)
    (hp : PacketSettled (ballot c lead acc) (.appendRequest s d args held))
    (ht : KeepsTail c (.appendRequest s d args held))
    (hk : CommitsChecked c (.appendRequest s d args held))
    {out : Outcome n Command St AppendEntriesReply}
    (hout : appendEntries (c.nodes d) args = some out) :
    NodeSettled (ballot c lead acc) out.node (c.covered d) := by
  have hd := h.nodes d
  obtain ⟨_, hnd, _⟩ | ⟨nd, hj, ⟨_, hnd, _⟩ | ⟨hold, log, ops, back, hsp, hback, hnd⟩⟩ :=
    appendEntries_cases hout
  · exact hnd ▸ hd
  · exact hnd ▸ hd.frame hj.log hj.commitIndex hj.lastApplied (hj.term.symm ▸ hj.term_le)
  obtain ⟨hrep, prev, hprev, hcov, hlen, hpl, hpre, hcase⟩ :=
    spliceEntries_full (hacc.logs.rep d) (hacc.logs.valid d) hs.valid hs.indexed hfit hold hsp
  obtain ⟨m, hm, hheld⟩ := hs.onLead
  have hlog : out.node.log = log := by rw [hnd]
  have hterm : out.node.currentTerm = args.term := by rw [hnd]; exact hj.term
  have hla : out.node.lastApplied = (c.nodes d).lastApplied := by rw [hnd]; exact hj.lastApplied
  have hci : out.node.commitIndex = if args.leaderCommit > (c.nodes d).commitIndex
      then min args.leaderCommit back.index else (c.nodes d).commitIndex := by rw [hnd]
  have hbi := (hrep.last hback).1
  have hfront := hd.front
  have happ := hd.applied
  obtain ⟨k, hk0⟩ : ∃ k : ℕ, (c.nodes d).commitIndex = k := ⟨(c.nodes d).commitIndex.toNat, by omega⟩
  have hkl : k ≤ (c.covered d ++ (c.nodes d).log.tail).length := by have := hd.commit; omega
  have hchosen := hd.chosen
  rw [hk0, Int.toNat_natCast] at hchosen
  have hlead : (c.full d).take k <+: m := hchosen.onLead hacc.ballot hj.term_le hm
  -- what was committed is still there
  have hkeep : (c.full d).take k <+: c.covered d ++ log.tail := by
    obtain ⟨_, rfl⟩ | ⟨hne, heq⟩ := hcase
    · exact List.take_prefix _ _
    · rw [heq]
      exact keepsTail_common hacc.logs hfit hheld ht hj.term_le hold hne hprev hcov hlen
        (List.take_prefix _ _) hlead
  have hkl' : k ≤ (c.covered d ++ log.tail).length := by
    have hle := hkeep.length_le
    rw [List.length_take] at hle
    have hfl : (c.full d).length = (c.covered d ++ (c.nodes d).log.tail).length := rfl
    omega
  have hsame : (c.covered d ++ log.tail).take k = (c.full d).take k := take_eq_of_le hkeep hkl
  by_cases hgt : args.leaderCommit > (c.nodes d).commitIndex
  · rw [if_pos hgt] at hci
    refine ⟨hla ▸ hfront, by omega, by rw [hlog]; omega, ?_⟩
    rw [hlog, hterm]
    refine Committed.restrict (P := held.take args.leaderCommit.toNat) hp ?_ (le_refl _)
    obtain ⟨q, hq⟩ : ∃ q : ℕ, out.node.commitIndex = q := ⟨out.node.commitIndex.toNat, by omega⟩
    rw [hq, Int.toNat_natCast]
    have hql : q ≤ args.leaderCommit.toNat := by omega
    obtain ⟨he, rfl⟩ | ⟨_, heq⟩ := hcase
    · have hqp : q ≤ prev := by
        have := hk (by simp [he]) hj.term_le hold hgt back hback
        omega
      obtain ⟨r, hr⟩ := hpre
      rw [← hr, List.take_append_of_le_length (by rw [List.length_take]; omega), List.take_take,
        Nat.min_eq_left hqp]
      exact List.take_prefix_take_left hql
    · rw [heq, List.take_take]
      exact List.take_prefix_take_left (by omega)
  · rw [if_neg hgt, hk0] at hci
    refine ⟨hla ▸ hfront, by omega, by rw [hlog, hci]; exact_mod_cast hkl', ?_⟩
    rw [hlog, hterm, hci, Int.toNat_natCast, hsame]
    exact hchosen.restrict (List.prefix_refl _) hj.term_le

theorem nodeSettled_installSnapshot [ChfsStateMachine Command St] (hacc : AccInv c lead acc)
    (h : Settled (ballot c lead acc) c) {s d : Fin n} {args : InstallSnapshotArgs} {junk : Command}
    {held : Log Command} (hs : Sent c.wins lead s d args.term held) (hfit : SnapshotFits held args)
    (hp : PacketSettled (ballot c lead acc) (.snapshotRequest s d args held))
    {out : Outcome n Command St InstallSnapshotReply}
    (hout : installSnapshot (c.nodes d) args junk = some out) :
    NodeSettled (ballot c lead acc) out.node (if args.term < (c.nodes d).currentTerm then c.covered d
      else held.take args.lastIncludedIndex.toNat) := by
  have hd := h.nodes d
  obtain ⟨hlt, hnd⟩ | ⟨nd, front, hit, hj, hf, hold, hnd⟩ := installSnapshot_cases hout
  · rw [if_pos hlt]
    exact hnd ▸ hd
  have hle := hj.term_le
  rw [if_neg (by omega)]
  obtain ⟨b, hb, hbl, hbt⟩ := hfit
  have hlog : out.node.log = if hit then
      (c.nodes d).log.drop (args.lastIncludedIndex - front.index).toNat
      else [⟨args.lastIncludedIndex, args.lastIncludedTerm, junk⟩] := by rw [hnd]
  obtain ⟨_, hcase⟩ := installSnapshot_full (hacc.logs.rep d) (hacc.logs.valid d) hs.valid hs.indexed
    hb hbl hbt hold hf hlog
  have hp' : Committed RaftLogEntry.term (ballot c lead acc) args.term
    (held.take args.lastIncludedIndex.toNat) := hp
  rw [hb, Int.toNat_natCast] at hp' ⊢
  obtain ⟨m, hm, hheld⟩ := hs.onLead
  have hterm : out.node.currentTerm = args.term := by rw [hnd]; exact hj.term
  have hla : out.node.lastApplied = b := by rw [hnd, hb]
  have hci : out.node.commitIndex = max (c.nodes d).commitIndex b := by rw [hnd, hb]
  have hlb : (held.take b).length = b := by
    rw [List.length_take]
    omega
  have hfront := hd.front
  have happ := hd.applied
  obtain ⟨k, hk0⟩ : ∃ k : ℕ, (c.nodes d).commitIndex = k := ⟨(c.nodes d).commitIndex.toNat, by omega⟩
  have hkl : k ≤ (c.full d).length := by
    have := hd.commit
    have hfl : (c.full d).length = (c.covered d ++ (c.nodes d).log.tail).length := rfl
    omega
  have hchosen := hd.chosen
  rw [hk0, Int.toNat_natCast] at hchosen
  have hmax : (max (k : ℤ) b).toNat = max k b := by omega
  obtain ⟨hpre, heq⟩ | ⟨hnot, heq⟩ := hcase
  · have hbf : b ≤ (c.full d).length := hlb ▸ hpre.length_le
    refine ⟨by omega, by omega, ?_, ?_⟩
    · rw [heq, hci, hk0]
      have hfl : (c.full d).length = (c.covered d ++ (c.nodes d).log.tail).length := rfl
      omega
    · rw [heq, hterm, hci, hk0, hmax]
      obtain hkb | hkb := Nat.le_total b k
      · rw [Nat.max_eq_left hkb]
        exact hchosen.restrict (List.prefix_refl _) hle
      · rw [Nat.max_eq_right hkb, take_eq_of_le hpre hbl]
        exact hp'
  · have hlead : (c.full d).take k <+: m := hchosen.onLead hacc.ballot hle hm
    have hkb : k ≤ b := by
      have hle : ((c.full d).take k).length ≤ (held.take b).length :=
        (take_of_not_take hbl hheld hnot (List.take_prefix _ _) hlead).length_le
      rw [List.length_take, hlb] at hle
      omega
    refine ⟨by omega, by omega, by rw [heq, hlb]; omega, ?_⟩
    rw [heq, hterm, hci, hk0, hmax, Nat.max_eq_right hkb, List.take_take, Nat.min_self]
    exact hp'

/-- The steps of a run in which, besides, no heartbeat moves the commit index
past the entry it has checked. -/
def CommitsKept (c : Cluster n Command St) (a : Action n Command) : Prop :=
  LeadersKept c a ∧ OnDeliver KeepsTail c a ∧ OnDeliver FreshAck c a ∧ OnDeliver CommitsChecked c a

instance (c : Cluster n Command St) (a : Action n Command) : Decidable (CommitsKept c a) :=
  inferInstanceAs (Decidable (_ ∧ _ ∧ _ ∧ _))

/-- Nothing is ever committed beyond the end of a log. -/
theorem acksKept_of_commitsKept (hacc : AccInv c lead acc) (h : Settled (ballot c lead acc) c)
    {x : Action n Command} (ha : CommitsKept c x) : AcksKept c x := by
  refine ⟨ha.1, ha.2.1, ha.2.2.1, ?_⟩
  cases x with
  | deliver k junk =>
    intro p hp
    cases p with
    | voteReply s d args reply =>
      intro _ _ _ _ _ back hb
      rw [((hacc.logs.rep s).last hb).1]
      exact (h.nodes s).commit
    | _ => trivial
  | _ => trivial

section Handle

variable [ChfsStateMachine Command St] {junk : Command}

theorem Settled.handle (hacc : AccInv c lead acc) (h : Settled (ballot c lead acc) c)
    {p : Packet n Command} (hph : PacketHeld c.wins lead p) (hpb : PacketBacked c acc p)
    (hps : PacketSettled (ballot c lead acc) p) (h3 : KeepsTerm c p) (h4 : CommitsChecked c p)
    (h6 : KeepsTail c p) (h7 : FreshAck c p) (hs : c.handle junk p = some c') :
    Settled (ballot c lead acc) c' := by
  cases p with
  | voteRequest s d args =>
    obtain ⟨out, hout, hs⟩ := Option.bind_eq_some_iff.mp hs
    cases hs
    obtain ⟨hnd, _⟩ | ⟨nd₁, _, hj, _, _, ⟨hnd, _⟩ | ⟨_, _, hnd, _⟩⟩ := requestVote_cases hout
    · exact h.frame (by rw [hnd]) (by rw [hnd]) (by rw [hnd]) (by rw [hnd]) rfl rfl rfl (mem_send trivial)
    · exact h.frame (hnd ▸ hj.log) (hnd ▸ hj.commitIndex) (hnd ▸ hj.lastApplied)
        (hnd ▸ hj.term.symm ▸ hj.term_le) rfl rfl rfl (mem_send trivial)
    · exact h.frame (hnd ▸ hj.log) (hnd ▸ hj.commitIndex) (hnd ▸ hj.lastApplied)
        (hnd ▸ hj.term.symm ▸ hj.term_le) rfl rfl rfl (mem_send trivial)
  | voteReply s d args reply =>
    obtain ⟨out, hout, hs⟩ := Option.bind_eq_some_iff.mp hs
    cases hs
    have hframe : out.node.log = (c.nodes s).log ∧ out.node.commitIndex = (c.nodes s).commitIndex ∧
        out.node.lastApplied = (c.nodes s).lastApplied ∧
        (c.nodes s).currentTerm ≤ out.node.currentTerm := by
      obtain ⟨hlt, hnd⟩ | hnd | ⟨_, _, _, _, nd₁, hnd₁, ⟨_, hnd⟩ | ⟨_, hlead⟩⟩ :=
        handleRequestVoteReply_cases hout
      · rw [hnd]
        exact ⟨rfl, rfl, rfl, hlt.le⟩
      · rw [hnd]
        exact ⟨rfl, rfl, rfl, le_refl _⟩
      · rw [hnd, hnd₁]
        exact ⟨rfl, rfl, rfl, le_refl _⟩
      · obtain ⟨_, _, hnd⟩ := becomeLeader_cases hlead
        rw [hnd, hnd₁]
        exact ⟨rfl, rfl, rfl, le_refl _⟩
    exact h.frame hframe.1 hframe.2.1 hframe.2.2.1 hframe.2.2.2 rfl rfl rfl fun p hp => Or.inl hp
  | appendRequest s d args held =>
    obtain ⟨out, hout, hs⟩ := Option.bind_eq_some_iff.mp hs
    cases hs
    exact h.move _ (nodeSettled_appendEntries hacc h hph.1 hph.2 hps h6 h4 hout) rfl
      (Function.update_eq_self _ _).symm rfl (mem_send trivial)
  | appendReply s d args reply =>
    obtain ⟨out, hout, hs⟩ := Option.bind_eq_some_iff.mp hs
    cases hs
    obtain ⟨hlt, _⟩ | ⟨hle, hr, hok, matched, tmp, ci, cs, hma, htmp, hcm, hnd⟩ | ⟨next, hnd⟩ :=
      handleAppendEntriesReply_cases hout
    · have hk : reply.term ≤ (c.nodes s).currentTerm := h3
      exact absurd hlt (by omega)
    · obtain ⟨_, hcase⟩ := hacc.count out.node hpb hr hok (h7 hr hle hok) hma htmp hcm (by rw [hnd])
        (by rw [hnd]) (by rw [hnd]) (by rw [hnd])
      have hci : out.node.commitIndex = ci := by rw [hnd]
      obtain hcase | ⟨k, hck, hlt, e, he, het, hQ⟩ := hcase
      · exact h.frame (by rw [hnd]) (hci.trans hcase) (by rw [hnd]) (by rw [hnd]) rfl rfl rfl
          fun p hp => Or.inl hp
      · have hd := h.nodes s
        have happ := hd.applied
        have hkl : k < (c.covered s ++ (c.nodes s).log.tail).length :=
          (List.getElem?_eq_some_iff.mp he).1
        have hsettled : NodeSettled (ballot c lead acc) out.node (c.covered s) := by
          rw [hnd]
          refine ⟨hd.front, by simp only; omega, by simp only; omega, Or.inr ?_⟩
          simp only
          rw [hck, show ((k : ℤ) + 1).toNat = k + 1 by omega]
          exact ⟨_, k, c.full s, le_refl _, hacc.chosen hr he het hQ, List.prefix_refl _⟩
        exact h.move _ hsettled rfl (Function.update_eq_self _ _).symm rfl fun p hp => Or.inl hp
    · exact h.frame (by rw [hnd]) (by rw [hnd]) (by rw [hnd]) (by rw [hnd]) rfl rfl rfl
        fun p hp => Or.inl hp
  | snapshotRequest s d args held =>
    obtain ⟨out, hout, hs⟩ := Option.bind_eq_some_iff.mp hs
    cases hs
    refine h.move _ (nodeSettled_installSnapshot hacc h hph.1 hph.2 hps hout) rfl ?_ rfl
      (mem_send trivial)
    simp only
    split
    · exact (Function.update_eq_self _ _).symm
    · rfl
  | snapshotReply s d args reply =>
    cases hs
    have hframe := handleInstallSnapshotReply_cases (c.nodes s) d args reply
    obtain ⟨hlt, hnd⟩ | hnd | ⟨_, hnd⟩ := hframe
    · exact h.frame (by rw [hnd]; rfl) (by rw [hnd]; rfl) (by rw [hnd]; rfl)
        (by rw [hnd]; exact hlt.le) rfl rfl rfl fun p hp => Or.inl hp
    · exact h.frame (by rw [hnd]) (by rw [hnd]) (by rw [hnd]) (by rw [hnd]) rfl rfl rfl
        fun p hp => Or.inl hp
    · exact h.frame (by rw [hnd]) (by rw [hnd]) (by rw [hnd]) (by rw [hnd]) rfl rfl rfl
        fun p hp => Or.inl hp

/-- What a node applies lies on what it has committed. -/
theorem entrySettled_apply (hacc : AccInv c lead acc) (h : Settled (ballot c lead acc) c) {i : Fin n}
    {out : RaftNode n Command St × List (RaftLogEntry Command)}
    (hout : runBackgroundApply (c.nodes i) = some out) :
    NodeSettled (ballot c lead acc) out.1 (c.covered i) ∧
      ∀ e ∈ out.2, EntrySettled (ballot c lead acc) e := by
  have hd := h.nodes i
  obtain rfl | ⟨front, back, hf, _, hlt, _, _, happ, state, hnd⟩ := runBackgroundApply_cases hout
  · exact ⟨hd, fun e he => absurd he (List.not_mem_nil)⟩
  have hfront := hd.front
  refine ⟨?_, fun e he => ?_⟩
  · rw [hnd]
    exact ⟨by simp only; omega, le_refl _, hd.commit, hd.chosen⟩
  rw [happ] at he
  obtain ⟨y, hy⟩ := List.mem_iff_getElem?.mp he
  have hylt : y < ((c.nodes i).commitIndex - (c.nodes i).lastApplied).toNat := by
    have := (List.getElem?_eq_some_iff.mp hy).1
    rw [List.length_take] at this
    omega
  rw [List.getElem?_take, if_pos hylt, List.getElem?_drop] at hy
  rw [((hacc.logs.rep i).head hf).1] at hy
  obtain ⟨_, hidx, _, hget⟩ := (hacc.logs.rep i).getElem hy
  have hpos : 0 < ((c.nodes i).lastApplied + 1 - ((c.covered i).length : ℤ)).toNat + y := by omega
  refine ⟨_, _, (c.covered i).length + (((c.nodes i).lastApplied + 1 -
    ((c.covered i).length : ℤ)).toNat + y) - 1, hd.chosen, ?_, by omega⟩
  rw [List.getElem?_take, if_pos (by omega)]
  exact hget hpos

theorem nodeSettled_saveSnapshot (hacc : AccInv c lead acc) (h : Settled (ballot c lead acc) c)
    {i : Fin n} {out : Outcome n Command St Bool} (hout : saveSnapshot (c.nodes i) = some out)
    {front : RaftLogEntry Command} (hf : out.node.log.head? = some front) :
    NodeSettled (ballot c lead acc) out.node ((c.full i).take front.index.toNat) := by
  have hd := h.nodes i
  obtain ⟨hrep, hfull⟩ := saveSnapshot_full (hacc.logs.rep i) hout hf
  have hfi := (hrep.head hf).1
  obtain ⟨fr, back, lastLog, log, hfr, hb, hcase, hnd⟩ := saveSnapshot_cases hout
  have hbi := ((hacc.logs.rep i).last hb).1
  have hcommit := hd.commit
  have happ := hd.applied
  have hla : front.index ≤ (c.nodes i).lastApplied := by
    obtain ⟨_, hat, hlog⟩ | ⟨hlt, _, _⟩ := hcase
    · obtain ⟨k, hk, hget⟩ := at?_eq_some hat
      have hdrop : (log.head? : Option (RaftLogEntry Command)) = some lastLog := by
        rw [hlog, List.head?_drop, hk, Int.toNat_natCast, hget]
      obtain ⟨g, tl, rfl⟩ : ∃ g tl, log = g :: tl := by
        cases log with
        | nil => cases hdrop
        | cons g tl => exact ⟨g, tl, rfl⟩
      rw [hnd] at hf
      simp only [List.isEmpty_cons, Bool.false_eq_true, if_false] at hf
      rw [hdrop] at hf
      cases hf
      have := ((hacc.logs.rep i).getElem hget).2.1
      rw [((hacc.logs.rep i).head hfr).1] at hk
      omega
    · omega
  have hfull' : (c.full i).take front.index.toNat ++ out.node.log.tail =
      c.covered i ++ (c.nodes i).log.tail := hfull
  have hci : out.node.commitIndex = (c.nodes i).commitIndex := by rw [hnd]
  have hlast : out.node.lastApplied = (c.nodes i).lastApplied := by rw [hnd]
  have hterm : out.node.currentTerm = (c.nodes i).currentTerm := by rw [hnd]
  refine ⟨?_, by omega, by rw [hfull', hci]; exact hcommit, ?_⟩
  · rw [hlast, List.length_take]
    have hfront := hd.front
    omega
  · rw [hfull', hci, hterm]
    exact hd.chosen

omit [ChfsStateMachine Command St] in
theorem packetSettled_packet (h : Settled a c) {i : Fin n} {m : Fin n × Message Command}
    (hfit : MessageFits (c.full i) (c.nodes i).currentTerm (c.nodes i).commitIndex
      (c.covered i).length m.2) : PacketSettled a (packet i (c.full i) m) := by
  have hd := h.nodes i
  obtain ⟨j, args | args⟩ := m
  · obtain ⟨ht, hci, _⟩ := hfit
    show Committed RaftLogEntry.term a args.term ((c.full i).take args.leaderCommit.toNat)
    rw [ht, hci]
    exact hd.chosen
  · obtain ⟨ht, hci, _⟩ := hfit
    show Committed RaftLogEntry.term a args.term ((c.full i).take args.lastIncludedIndex.toNat)
    rw [ht, hci]
    refine hd.chosen.restrict (List.take_prefix_take_left ?_) (le_refl _)
    have h1 := hd.front
    have h2 := hd.applied
    omega

theorem Settled.step (hacc : AccInv c lead acc) (h : Settled (ballot c lead acc) c)
    {x : Action n Command} (ha : CommitsKept c x) (hs : c.step x = some c') :
    Settled (ballot c lead acc) c' := by
  have hsend : ∀ (i : Fin n) ms, runBackgroundCommit (c.nodes i) = some ms ∨
      runBackgroundPing (c.nodes i) = some ms → ∀ p ∈ c.net ++ List.map (packet i (c.full i)) ms,
      p ∈ c.net ∨ PacketSettled (ballot c lead acc) p := by
    intro i ms hms p hpn
    obtain hpn | hpn := List.mem_append.mp hpn
    · exact Or.inl hpn
    · obtain ⟨m, hm, rfl⟩ := List.mem_map.mp hpn
      exact Or.inr (packetSettled_packet h (packetHeld_broadcast hacc.logs hms hm).2.2)
  cases x with
  | election i =>
    obtain ⟨out, hout, hs⟩ := Option.bind_eq_some_iff.mp hs
    obtain ⟨_, hnd, hrep⟩ | ⟨back, _, hnd, hrep⟩ := runBackgroundElection_cases hout
    · rw [hrep] at hs
      cases hs
      exact h.frame (by rw [hnd]) (by rw [hnd]) (by rw [hnd]) (by rw [hnd]) rfl rfl rfl
        fun p hp => Or.inl hp
    · rw [hrep] at hs
      cases hs
      refine h.frame (by rw [hnd]) (by rw [hnd]) (by rw [hnd]) (by rw [hnd]; simp) rfl rfl rfl
        fun p hpn => ?_
      obtain hpn | hpn := List.mem_append.mp hpn
      · exact Or.inl hpn
      · obtain ⟨j, _, rfl⟩ := List.mem_map.mp hpn
        exact Or.inr trivial
  | deliver k junk =>
    obtain ⟨p, hk, hs⟩ := Option.bind_eq_some_iff.mp hs
    obtain ⟨⟨⟨_, _, h3⟩, _⟩, h6, h7, h4⟩ := ha
    have hmem := List.mem_of_getElem? hk
    have herase : Settled (ballot c lead acc) { c with net := c.net.eraseIdx k } :=
      h.net rfl rfl rfl fun p hp => Or.inl (List.mem_of_mem_eraseIdx hp)
    have hset := Settled.handle (hacc.erase k) herase (hacc.logs.packets p hmem)
      (hacc.packets p hmem) (h.packets p hmem) (h3 p hk) (h4 p hk) (h6 p hk) (h7 p hk) hs
    exact hset
  | drop k =>
    cases hs
    exact h.net rfl rfl rfl fun p hp => Or.inl (List.mem_of_mem_eraseIdx hp)
  | commandTest i cmd =>
    cases hs
    split
    case isTrue => exact h.net rfl rfl rfl fun p hp => Or.inl hp
    case isFalse => exact h
  | commandAppend k =>
    obtain ⟨call, _, hs⟩ := Option.bind_eq_some_iff.mp hs
    obtain ⟨out, hout, hs⟩ := Option.bind_eq_some_iff.mp hs
    cases hs
    obtain ⟨back, _, hnd⟩ := newCommand_cases hout
    have hd := h.nodes call.1
    obtain ⟨f, tl, hftl, _⟩ := (hacc.logs.rep call.1).front
    have hsettled : NodeSettled (ballot c lead acc) out.node (c.covered call.1) := by
      have hcommit := hd.commit
      have hchosen := hd.chosen
      rw [hnd]
      rw [hftl] at hcommit hchosen ⊢
      simp only [List.cons_append, List.tail_cons] at hcommit hchosen ⊢
      refine ⟨hd.front, hd.applied, ?_, ?_⟩
      · simp only [List.tail_cons, List.length_append] at hcommit ⊢
        omega
      · simp only [List.tail_cons]
        rw [← List.append_assoc, List.take_append_of_le_length (by omega)]
        exact hchosen
    exact h.move _ hsettled rfl (Function.update_eq_self _ _).symm rfl fun p hp => Or.inl hp
  | commit i =>
    obtain ⟨ms, hms, hs⟩ := Option.bind_eq_some_iff.mp hs
    cases hs
    exact h.net rfl rfl rfl (hsend i ms (Or.inl hms))
  | ping i =>
    obtain ⟨ms, hms, hs⟩ := Option.bind_eq_some_iff.mp hs
    cases hs
    exact h.net rfl rfl rfl (hsend i ms (Or.inr hms))
  | apply i =>
    obtain ⟨out, hout, hs⟩ := Option.bind_eq_some_iff.mp hs
    cases hs
    obtain ⟨hnd, hnew⟩ := entrySettled_apply hacc h hout
    have hmoved : Settled (ballot c lead acc) (c.setNode i out.1) :=
      h.move _ hnd rfl (Function.update_eq_self _ _).symm rfl fun p hp => Or.inl hp
    refine ⟨hmoved.nodes, hmoved.packets, fun y hy => ?_⟩
    obtain hy | hy := List.mem_append.mp hy
    · obtain ⟨e, he, rfl⟩ := List.mem_map.mp hy
      exact hnew e he
    · exact h.applied y hy
  | snapshot i =>
    obtain ⟨out, hout, hs⟩ := Option.bind_eq_some_iff.mp hs
    obtain ⟨front, hf, hs⟩ := Option.bind_eq_some_iff.mp hs
    cases hs
    exact h.move _ (nodeSettled_saveSnapshot hacc h hout hf) rfl rfl rfl fun p hp => Or.inl hp
  | restart i =>
    obtain ⟨nd, hnd, hs⟩ := Option.bind_eq_some_iff.mp hs
    cases hs
    obtain ⟨front, hf, hnd⟩ := Option.bind_eq_some_iff.mp hnd
    cases hnd
    have hd := h.nodes i
    have hfi := ((hacc.logs.rep i).head hf).1
    refine h.move (i := i) (c.covered i) ⟨by simp only; omega, le_refl _, ?_, ?_⟩ rfl
      (Function.update_eq_self _ _).symm rfl fun p hp => Or.inl hp
    · simp only [List.length_append]
      omega
    · refine hd.chosen.restrict (List.take_prefix_take_left ?_) (le_refl _)
      have h1 := hd.front
      have h2 := hd.applied
      simp only
      omega

end Handle

section Run

variable [ChfsStateMachine Command St] [ChfsCommand Command]

theorem settled_init : Settled a (init n Command St) where
  nodes _ := ⟨le_refl _, le_refl _, le_refl _, Or.inl rfl⟩
  packets _ hp := absurd hp (List.not_mem_nil)
  applied _ hx := absurd hx (List.not_mem_nil)

theorem settled_of_reachable (h : Reachable CommitsKept c) :
    ∃ lead acc, AccInv c lead acc ∧ Settled (ballot c lead acc) c := by
  obtain ⟨g, hg⟩ := h.invariant_ghost
    (I := fun c (g : Leads (RaftLogEntry Command) × (Fin n → ℤ → ℕ)) =>
      AccInv c g.1 g.2 ∧ Settled (ballot c g.1 g.2) c) (fun _ => none, fun _ _ => 0)
    ⟨accInv_init, settled_init⟩ fun s x t g hs ha hst => by
      obtain ⟨lead', acc', hinv, hev⟩ := hs.1.step (acksKept_of_commitsKept hs.1 hs.2 ha) hst
      exact ⟨(lead', acc'), hinv, (Settled.step hs.1 hs.2 ha hst).evolves hev⟩
  exact ⟨g.1, g.2, hg⟩

/-- No index has two commands applied to it. -/
def AppliedAgree (c : Cluster n Command St) : Prop :=
  ∀ i j e e', (i, e) ∈ c.applied → (j, e') ∈ c.applied → e.index = e'.index → e.cmd = e'.cmd

theorem appliedAgree_of_commitsKept (h : Reachable CommitsKept c) : AppliedAgree c := by
  obtain ⟨lead, acc, hacc, hset⟩ := settled_of_reachable h
  intro i j e e' hi hj hidx
  have heq : e = e' := (hset.applied _ hi).unique hacc.ballot (hset.applied _ hj) hidx
  rw [heq]

end Run

def applyRun : List (Action 3 ListCommand) := heartbeatRun ++ [.deliver 2 ⟨0⟩, .apply 0, .apply 1]

theorem appliedAgree_applyRun : ∃ c : Cluster 3 ListCommand ListStateMachine,
    Reachable CommitsKept c ∧ c.applied = [(1, ⟨1, 1, ⟨7⟩⟩), (1, ⟨2, 1, ⟨8⟩⟩), (0, ⟨1, 1, ⟨7⟩⟩),
      (0, ⟨2, 1, ⟨8⟩⟩)] ∧ AppliedAgree c := by
  obtain ⟨c, hc⟩ : ∃ c, execOk Cluster.step (fun c x => decide (CommitsKept c x))
      (init 3 ListCommand ListStateMachine) applyRun = some c :=
    Option.isSome_iff_exists.mp (by decide +kernel)
  have hr : Reachable CommitsKept c := reach_of_execOk (fun s x h => of_decide_eq_true h) hc
  have happ : (execOk Cluster.step (fun c x => decide (CommitsKept c x))
      (init 3 ListCommand ListStateMachine) applyRun).map (fun c => c.applied) = some
        [(1, ⟨1, 1, ⟨7⟩⟩), (1, ⟨2, 1, ⟨8⟩⟩), (0, ⟨1, 1, ⟨7⟩⟩), (0, ⟨2, 1, ⟨8⟩⟩)] := by
    decide +kernel
  rw [hc] at happ
  simp only [Option.map_some, Option.some.injEq] at happ
  exact ⟨c, hr, happ, appliedAgree_of_commitsKept hr⟩

def divergentApplyRun : List (Action 3 ListCommand) := divergentTailRun ++ [.deliver 3 ⟨0⟩, .apply 0]

theorem not_appliedAgree_divergentApplyRun : ¬ ∀ c : Cluster 3 ListCommand ListStateMachine,
    Reachable (fun _ _ => True) c → AppliedAgree c := by
  intro hall
  obtain ⟨c, hc⟩ : ∃ c, exec Cluster.step (init 3 ListCommand ListStateMachine) divergentApplyRun =
      some c := Option.isSome_iff_exists.mp (by decide +kernel)
  have happ : (exec Cluster.step (init 3 ListCommand ListStateMachine) divergentApplyRun).map
      (fun c => c.applied) = some [(0, ⟨1, 1, ⟨7⟩⟩), (1, ⟨1, 2, ⟨8⟩⟩)] := by
    decide +kernel
  rw [hc] at happ
  simp only [Option.map_some, Option.some.injEq] at happ
  have hagree := hall c (reach_of_exec hc) 0 1 ⟨1, 1, ⟨7⟩⟩ ⟨1, 2, ⟨8⟩⟩ (by rw [happ]; decide)
    (by rw [happ]; decide) rfl
  exact absurd hagree (by decide)

end Chfs.Raft.StateMachineSafety
