import Chfs.Raft.Election
import Chfs.Raft.Replication

namespace Chfs.Raft.Matching

open Protocol Node Handlers Network FullLog Replication Lib.Run Lib.LeaderLog

variable {n : ℕ} {Command St : Type} {c c' : Cluster n Command St}
  {lead lead' : Leads (RaftLogEntry Command)}

/-- A message that node `s` sent to `d` as leader of term `t`. -/
structure Sent (wins : List (Fin n × ℤ)) (lead : Leads (RaftLogEntry Command)) (s d : Fin n) (t : ℤ)
    (held : Log Command) : Prop where
  ne : s ≠ d
  won : (s, t) ∈ wins
  indexed : Indexed held
  valid : Valid RaftLogEntry.term lead held
  onLead : ∃ m, lead t = some m ∧ held <+: m

def PacketHeld (wins : List (Fin n × ℤ)) (lead : Leads (RaftLogEntry Command)) :
    Packet n Command → Prop
  | .appendRequest s d args held => Sent wins lead s d args.term held ∧ AppendFits held args
  | .snapshotRequest s d args held => Sent wins lead s d args.term held ∧ SnapshotFits held args
  | _ => True

structure LogInv (c : Cluster n Command St) (lead : Leads (RaftLogEntry Command)) : Prop where
  myId : ∀ i, (c.nodes i).myId = i
  rep : ∀ i, LogRep (c.covered i) (c.nodes i).log
  valid : ∀ i, Valid RaftLogEntry.term lead (c.full i)
  leader : ∀ i, (c.nodes i).role = .leader → (i, (c.nodes i).currentTerm) ∈ c.wins ∧
    lead (c.nodes i).currentTerm = some (c.full i)
  fresh : ∀ T, T ∉ c.wins.map Prod.snd → lead T = none
  nodup : (c.wins.map Prod.snd).Nodup
  packets : ∀ p ∈ c.net, PacketHeld c.wins lead p

theorem PacketHeld.mono {wins wins' : List (Fin n × ℤ)} {p : Packet n Command}
    (h : PacketHeld wins lead p) (hw : wins ⊆ wins') (hg : Grows lead lead') :
    PacketHeld wins' lead' p := by
  have hsent : ∀ s d t held, Sent wins lead s d t held → Sent wins' lead' s d t held := by
    intro s d t held hs
    obtain ⟨m, hm, hp⟩ := hs.onLead
    obtain ⟨m', hm', hp'⟩ := hg t m hm
    exact ⟨hs.ne, hw hs.won, hs.indexed, hs.valid.mono hg, m', hm', hp.trans hp'⟩
  cases p with
  | appendRequest s d args held => exact ⟨hsent _ _ _ _ h.1, h.2⟩
  | snapshotRequest s d args held => exact ⟨hsent _ _ _ _ h.1, h.2⟩
  | _ => trivial

theorem winner_unique {wins : List (Fin n × ℤ)} (h : (wins.map Prod.snd).Nodup) {i j : Fin n} {T : ℤ}
    (hi : (i, T) ∈ wins) (hj : (j, T) ∈ wins) : i = j := by
  have := List.inj_on_of_nodup_map h hi hj rfl
  exact congrArg Prod.fst this

theorem LogInv.not_leader (h : LogInv c lead) {s d : Fin n} {t : ℤ} {held : Log Command}
    (hs : Sent c.wins lead s d t held) (ht : (c.nodes d).currentTerm = t) :
    (c.nodes d).role ≠ .leader := by
  intro hr
  have hd := (h.leader d hr).1
  rw [ht] at hd
  exact hs.ne (winner_unique h.nodup hs.won hd)

theorem logInv_init [ChfsCommand Command] [ChfsStateMachine Command St] :
    LogInv (init n Command St) (fun _ => none) where
  myId _ := rfl
  rep _ := logRep_init _
  valid _ := valid_nil
  leader i h := by cases h
  fresh _ _ := rfl
  nodup := List.nodup_nil
  packets p hp := absurd hp (List.not_mem_nil)

theorem LogInv.move (h : LogInv c lead) {i : Fin n} (nd : RaftNode n Command St) (cov : Log Command)
    (hid : nd.myId = (c.nodes i).myId) (hrep : LogRep cov nd.log)
    (hval : Valid RaftLogEntry.term lead (cov ++ nd.log.tail))
    (hlead : nd.role = .leader → (c.nodes i).role = .leader ∧
      nd.currentTerm = (c.nodes i).currentTerm ∧ cov ++ nd.log.tail = c.full i)
    (hn : c'.nodes = Function.update c.nodes i nd) (hc : c'.covered = Function.update c.covered i cov)
    (hw : c'.wins = c.wins) (hp : ∀ p ∈ c'.net, p ∈ c.net ∨ PacketHeld c.wins lead p) :
    LogInv c' lead := by
  have hself : c'.nodes i = nd ∧ c'.covered i = cov := by simp [hn, hc]
  have hother : ∀ j, j ≠ i → c'.nodes j = c.nodes j ∧ c'.covered j = c.covered j :=
    fun j hj => by simp [hn, hc, hj]
  have hfull : ∀ j, j ≠ i → c'.full j = c.full j := fun j hj => by
    rw [Cluster.full, Cluster.full, (hother j hj).1, (hother j hj).2]
  have hfulli : c'.full i = cov ++ nd.log.tail := by rw [Cluster.full, hself.1, hself.2]
  refine ⟨?_, ?_, ?_, ?_, hw ▸ h.fresh, hw ▸ h.nodup, ?_⟩
  · intro j
    by_cases hj : j = i
    · rw [hj, hself.1, hid, h.myId]
    · rw [(hother j hj).1, h.myId]
  · intro j
    by_cases hj : j = i
    · rw [hj, hself.1, hself.2]
      exact hrep
    · rw [(hother j hj).1, (hother j hj).2]
      exact h.rep j
  · intro j
    by_cases hj : j = i
    · rw [hj, hfulli]
      exact hval
    · rw [hfull j hj]
      exact h.valid j
  · intro j hr
    by_cases hj : j = i
    · subst hj
      rw [hself.1] at hr ⊢
      obtain ⟨hr', ht, hf⟩ := hlead hr
      rw [hfulli, ht, hf, hw]
      exact h.leader j hr'
    · rw [(hother j hj).1] at hr ⊢
      rw [hfull j hj, hw]
      exact h.leader j hr
  · intro p hpn
    rw [hw]
    exact (hp p hpn).elim (h.packets p) id

theorem LogInv.quiet (h : LogInv c lead) {i : Fin n} (nd : RaftNode n Command St)
    (hid : nd.myId = (c.nodes i).myId) (hlog : nd.log = (c.nodes i).log)
    (hlead : nd.role = .leader → (c.nodes i).role = .leader ∧
      nd.currentTerm = (c.nodes i).currentTerm)
    (hn : c'.nodes = Function.update c.nodes i nd) (hc : c'.covered = c.covered)
    (hw : c'.wins = c.wins) (hp : ∀ p ∈ c'.net, p ∈ c.net ∨ PacketHeld c.wins lead p) :
    LogInv c' lead := by
  refine h.move nd (c.covered i) hid (hlog ▸ h.rep i) (hlog ▸ h.valid i) (fun hr => ?_) hn ?_ hw hp
  · exact ⟨(hlead hr).1, (hlead hr).2, by rw [hlog]; rfl⟩
  · rw [hc, Function.update_eq_self]

theorem LogInv.net (h : LogInv c lead) (hn : c'.nodes = c.nodes) (hc : c'.covered = c.covered)
    (hw : c'.wins = c.wins) (hp : ∀ p ∈ c'.net, p ∈ c.net ∨ PacketHeld c.wins lead p) :
    LogInv c' lead := by
  have hfull : c'.full = c.full := by
    funext i
    rw [Cluster.full, Cluster.full, hn, hc]
  exact ⟨hn ▸ h.myId, hn ▸ hc ▸ h.rep, hfull ▸ h.valid, by rw [hfull, hn, hw]; exact h.leader,
    hw ▸ h.fresh, hw ▸ h.nodup, fun p hpn => hw ▸ (hp p hpn).elim (h.packets p) id⟩

theorem LogInv.win (h : LogInv c lead) {i : Fin n} (nd : RaftNode n Command St)
    (hid : nd.myId = (c.nodes i).myId) (hlog : nd.log = (c.nodes i).log)
    (hn : c'.nodes = Function.update c.nodes i nd) (hc : c'.covered = c.covered)
    (hw : c'.wins = (i, nd.currentTerm) :: c.wins) (hnd : (c'.wins.map Prod.snd).Nodup)
    (hp : c'.net ⊆ c.net) :
    LogInv c' (Function.update lead nd.currentTerm (some (c.full i))) := by
  have hself : c'.nodes i = nd := by simp [hn]
  have hother : ∀ j, j ≠ i → c'.nodes j = c.nodes j := fun j hj => by simp [hn, hj]
  have hlogs : ∀ j, (c'.nodes j).log = (c.nodes j).log := by
    intro j
    by_cases hj : j = i
    · rw [hj, hself, hlog]
    · rw [hother j hj]
  have hfull : c'.full = c.full := by
    funext j
    rw [Cluster.full, Cluster.full, hlogs, hc]
  have hfresh : nd.currentTerm ∉ c.wins.map Prod.snd := by
    rw [hw, List.map_cons, List.nodup_cons] at hnd
    exact hnd.1
  have hg : Grows lead (Function.update lead nd.currentTerm (some (c.full i))) :=
    grows_update_none (h.fresh _ hfresh)
  have hsub : c.wins ⊆ c'.wins := hw ▸ List.subset_cons_self _ _
  refine ⟨?_, ?_, ?_, ?_, ?_, hnd, fun p hpn => (h.packets p (hp hpn)).mono hsub hg⟩
  · intro j
    by_cases hj : j = i
    · rw [hj, hself, hid, h.myId]
    · rw [hother j hj, h.myId]
  · intro j
    rw [hlogs, hc]
    exact h.rep j
  · intro j
    rw [hfull]
    exact (h.valid j).mono hg
  · intro j hr
    rw [hfull]
    by_cases hj : j = i
    · subst hj
      rw [hself, hw]
      exact ⟨List.mem_cons_self, by simp⟩
    · rw [hother j hj] at hr ⊢
      obtain ⟨h1, h2⟩ := h.leader j hr
      have hne : (c.nodes j).currentTerm ≠ nd.currentTerm := by
        intro heq
        exact hfresh (heq ▸ List.mem_map_of_mem h1)
      exact ⟨hsub h1, by rw [Function.update_of_ne hne, h2]⟩
  · intro T hT
    rw [hw, List.map_cons, List.mem_cons, not_or] at hT
    rw [Function.update_of_ne hT.1]
    exact h.fresh T hT.2

theorem LogInv.newCommand (h : LogInv c lead) {i : Fin n} {cmd : Command}
    {out : Outcome n Command St (ℤ × ℤ)} (hr : (c.nodes i).role = .leader)
    (hout : newCommand (c.nodes i) cmd = some out) (hn : c'.nodes = Function.update c.nodes i out.node)
    (hc : c'.covered = c.covered) (hw : c'.wins = c.wins) (hp : c'.net = c.net) :
    ∃ e : RaftLogEntry Command, e.term = (c.nodes i).currentTerm ∧ c'.full i = c.full i ++ [e] ∧
      (∀ j, j ≠ i → c'.full j = c.full j) ∧
      LogInv c' (Function.update lead (c.nodes i).currentTerm (some (c.full i ++ [e]))) := by
  obtain ⟨back, hb, hnode⟩ := newCommand_cases hout
  have hself : c'.nodes i = out.node := by simp [hn]
  have hother : ∀ j, j ≠ i → c'.nodes j = c.nodes j := fun j hj => by simp [hn, hj]
  have hfull : ∀ j, j ≠ i → c'.full j = c.full j := fun j hj => by
    rw [Cluster.full, Cluster.full, hother j hj, hc]
  obtain ⟨e, he⟩ : ∃ e : RaftLogEntry Command, e = ⟨back.index + 1, (c.nodes i).currentTerm, cmd⟩ :=
    ⟨_, rfl⟩
  have hlog : (c'.nodes i).log = (c.nodes i).log ++ [e] := by rw [hself, hnode, he]
  obtain ⟨hrep, hf⟩ := (h.rep i).append e (by rw [he, ((h.rep i).last hb).1])
  have hfulli : c'.full i = c.full i ++ [e] := by rw [Cluster.full, hlog, hc, hf]; rfl
  have het : e.term = (c.nodes i).currentTerm := by rw [he]
  have hl := (h.leader i hr).2
  rw [← het] at hl
  have hg : Grows lead (Function.update lead e.term (some (c.full i ++ [e]))) :=
    grows_update_append hl
  refine ⟨e, het, hfulli, hfull, ?_⟩
  rw [← het]
  refine ⟨?_, ?_, ?_, ?_, ?_, hw ▸ h.nodup, ?_⟩
  · intro j
    by_cases hj : j = i
    · rw [hj, hself, hnode, h.myId]
    · rw [hother j hj, h.myId]
  · intro j
    by_cases hj : j = i
    · rw [hj, hlog, hc]
      exact hrep
    · rw [hother j hj, hc]
      exact h.rep j
  · intro j
    by_cases hj : j = i
    · rw [hj, hfulli]
      exact (h.valid i).append hl
    · rw [hfull j hj]
      exact (h.valid j).mono hg
  · intro j hrj
    rw [hw]
    by_cases hj : j = i
    · subst hj
      rw [hfulli, hself, hnode, het, Function.update_self]
      exact ⟨(h.leader j hr).1, rfl⟩
    · rw [hother j hj] at hrj ⊢
      obtain ⟨h1, h2⟩ := h.leader j hrj
      have hne : (c.nodes j).currentTerm ≠ e.term := by
        intro heq
        rw [heq, het] at h1
        exact hj (winner_unique h.nodup h1 (h.leader i hr).1)
      rw [hfull j hj, Function.update_of_ne hne]
      exact ⟨h1, h2⟩
  · intro T hT
    rw [hw] at hT
    have hne : T ≠ e.term := by
      intro heq
      rw [heq, het] at hT
      exact hT (List.mem_map_of_mem (h.leader i hr).1)
    rw [Function.update_of_ne hne]
    exact h.fresh T hT
  · intro p hpn
    rw [hw]
    exact (h.packets p (hp ▸ hpn)).mono (List.Subset.refl _) hg

theorem mem_send {net : List (Packet n Command)} {q : Packet n Command}
    {P : Packet n Command → Prop} (hq : P q) : ∀ p ∈ net ++ [q], p ∈ net ∨ P p := by
  intro p hp
  obtain hp | hp := List.mem_append.mp hp
  · exact Or.inl hp
  · rw [List.mem_singleton.mp hp]
    exact Or.inr hq

theorem LogInv.joins_not_leader (h : LogInv c lead) {s d : Fin n} {t : ℤ} {held : Log Command}
    (hs : Sent c.wins lead s d t held) {nd : RaftNode n Command St} (hj : Joins (c.nodes d) t nd) :
    nd.role ≠ .leader := by
  intro hr
  obtain ⟨hnd, ht⟩ := hj.eq_of_role (by rw [hr]; decide)
  exact h.not_leader hs ht (hnd ▸ hr)

theorem LogInv.appendEntries (h : LogInv c lead) {s d : Fin n} {args : AppendEntriesArgs Command}
    {held : Log Command} (hs : Sent c.wins lead s d args.term held) (hfit : AppendFits held args)
    {out : Outcome n Command St AppendEntriesReply}
    (hout : Node.appendEntries (c.nodes d) args = some out)
    (hn : c'.nodes = Function.update c.nodes d out.node) (hc : c'.covered = c.covered)
    (hw : c'.wins = c.wins) (hp : ∀ p ∈ c'.net, p ∈ c.net ∨ PacketHeld c.wins lead p) :
    LogInv c' lead := by
  obtain ⟨_, hnd, _⟩ | ⟨nd, hj, ⟨_, hnd, _⟩ | ⟨hold, log, ops, back, hsp, _, hnd⟩⟩ :=
    appendEntries_cases hout
  · exact h.quiet out.node (by rw [hnd]) (by rw [hnd]) (fun hr => ⟨hnd ▸ hr, by rw [hnd]⟩) hn hc hw hp
  · refine h.quiet out.node (by rw [hnd, hj.myId]) (by rw [hnd, hj.log]) (fun hr => ?_) hn hc hw hp
    exact absurd (hnd ▸ hr) (h.joins_not_leader hs hj)
  · obtain ⟨hrep, prev, _, _, _, _, _, hcase⟩ :=
      spliceEntries_full (h.rep d) (h.valid d) hs.valid hs.indexed hfit hold hsp
    have hlog : out.node.log = log := by rw [hnd]
    refine h.move out.node (c.covered d) ?_ (hlog ▸ hrep) ?_ (fun hr => ?_) hn ?_ hw hp
    · rw [hnd]
      exact hj.myId
    · obtain ⟨_, heq⟩ | ⟨_, heq⟩ := hcase
      · rw [hlog, heq]
        exact h.valid d
      · rw [hlog, heq]
        exact hs.valid.restrict (List.take_prefix _ _)
    · have hr' : nd.role = .leader := by rwa [hnd] at hr
      exact absurd hr' (h.joins_not_leader hs hj)
    · rw [hc, Function.update_eq_self]

theorem packetHeld_packet (h : LogInv c lead) {i : Fin n} (hr : (c.nodes i).role = .leader)
    {m : Fin n × Message Command} (hne : m.1 ≠ (c.nodes i).myId)
    (hfit : MessageFits (c.full i) (c.nodes i).currentTerm (c.nodes i).commitIndex
      (c.covered i).length m.2) : PacketHeld c.wins lead (packet i (c.full i) m) := by
  obtain ⟨hwon, hlead⟩ := h.leader i hr
  have hsent : Sent c.wins lead i m.1 (c.nodes i).currentTerm (c.full i) :=
    ⟨fun heq => hne (by rw [h.myId, heq]), hwon, (h.rep i).indexed, h.valid i, c.full i, hlead,
      List.prefix_refl _⟩
  obtain ⟨j, args | args⟩ := m
  · exact ⟨hfit.1 ▸ hsent, hfit.2.2⟩
  · exact ⟨hfit.1 ▸ hsent, hfit.2.2⟩

theorem packetHeld_broadcast (h : LogInv c lead) {i : Fin n} {ms : List (Fin n × Message Command)}
    (hms : runBackgroundCommit (c.nodes i) = some ms ∨ runBackgroundPing (c.nodes i) = some ms)
    {m : Fin n × Message Command} (hm : m ∈ ms) : (c.nodes i).role = .leader ∧
      m.1 ≠ (c.nodes i).myId ∧ MessageFits (c.full i) (c.nodes i).currentTerm
        (c.nodes i).commitIndex (c.covered i).length m.2 := by
  unfold runBackgroundCommit runBackgroundPing at hms
  by_cases hr : (c.nodes i).role = .leader
  · simp only [hr, if_true] at hms
    obtain hms | hms := hms
    · exact ⟨hr, commitMessage_fits (h.rep i) (mem_broadcast hms hm)⟩
    · exact ⟨hr, pingMessage_fits (h.rep i) (mem_broadcast hms hm)⟩
  · simp only [hr, if_false, Option.some.injEq, or_self] at hms
    subst hms
    cases hm

theorem LogInv.broadcast (h : LogInv c lead) {i : Fin n} {ms : List (Fin n × Message Command)}
    (hms : runBackgroundCommit (c.nodes i) = some ms ∨ runBackgroundPing (c.nodes i) = some ms) :
    LogInv (c.send (ms.map (packet i (c.full i)))) lead := by
  refine h.net rfl rfl rfl fun p hp => ?_
  obtain hp | hp := List.mem_append.mp hp
  · exact Or.inl hp
  · obtain ⟨m, hm, rfl⟩ := List.mem_map.mp hp
    obtain ⟨hr, hne, hfit⟩ := packetHeld_broadcast h hms hm
    exact Or.inr (packetHeld_packet h hr hne hfit)

variable [ChfsStateMachine Command St]

theorem LogInv.installSnapshot (h : LogInv c lead) {s d : Fin n} {args : InstallSnapshotArgs}
    {junk : Command} {held : Log Command} (hs : Sent c.wins lead s d args.term held)
    (hfit : SnapshotFits held args) {out : Outcome n Command St InstallSnapshotReply}
    (hout : Node.installSnapshot (c.nodes d) args junk = some out)
    (hn : c'.nodes = Function.update c.nodes d out.node)
    (hc : c'.covered = if args.term < (c.nodes d).currentTerm then c.covered
      else Function.update c.covered d (held.take args.lastIncludedIndex.toNat))
    (hw : c'.wins = c.wins) (hp : ∀ p ∈ c'.net, p ∈ c.net ∨ PacketHeld c.wins lead p) :
    LogInv c' lead := by
  obtain ⟨hlt, hnd⟩ | ⟨nd, front, hit, hj, hf, hold, hnd⟩ := installSnapshot_cases hout
  · rw [if_pos hlt] at hc
    exact h.quiet out.node (by rw [hnd]) (by rw [hnd]) (fun hr => ⟨hnd ▸ hr, by rw [hnd]⟩) hn hc hw hp
  · have hle := hj.term_le
    rw [if_neg (by omega)] at hc
    obtain ⟨b, hb, hbl, hbt⟩ := hfit
    have hlog : out.node.log = if hit then
        (c.nodes d).log.drop (args.lastIncludedIndex - front.index).toNat
        else [⟨args.lastIncludedIndex, args.lastIncludedTerm, junk⟩] := by rw [hnd]
    obtain ⟨hrep, hcase⟩ :=
      installSnapshot_full (h.rep d) (h.valid d) hs.valid hs.indexed hb hbl hbt hold hf hlog
    rw [hb, Int.toNat_natCast] at hc
    refine h.move out.node (held.take b) ?_ hrep ?_ (fun hr => ?_) hn hc hw hp
    · rw [hnd]
      exact hj.myId
    · obtain ⟨_, heq⟩ | ⟨_, heq⟩ := hcase
      · rw [heq]
        exact h.valid d
      · rw [heq]
        exact hs.valid.restrict (List.take_prefix _ _)
    · have hr' : nd.role = .leader := by rwa [hnd] at hr
      exact absurd hr' (h.joins_not_leader hs hj)

theorem LogInv.handleVoteReply (h : LogInv c lead) {s d : Fin n} {args : RequestVoteArgs}
    {reply : RequestVoteReply} {junk : Command}
    (hs : c.handle junk (.voteReply s d args reply) = some c')
    (hnd : (c'.wins.map Prod.snd).Nodup) :
    (c'.wins = c.wins ∧ c'.full = c.full ∧ LogInv c' lead) ∨
    ((c.nodes s).role = .candidate ∧ (c'.nodes s).role = .leader ∧
      (c'.nodes s).currentTerm = (c.nodes s).currentTerm ∧
      c'.wins = (s, (c.nodes s).currentTerm) :: c.wins ∧ c'.full = c.full ∧
      LogInv c' (Function.update lead (c.nodes s).currentTerm (some (c.full s)))) := by
  obtain ⟨out, hout, hs⟩ := Option.bind_eq_some_iff.mp hs
  cases hs
  have hfull : out.node.log = (c.nodes s).log → ∀ w, Cluster.full
      { c.setNode s out.node with wins := w } = c.full := by
    intro hlog w
    funext j
    by_cases hj : j = s
    · subst hj
      simp [Cluster.full, Cluster.setNode, hlog]
    · simp [Cluster.full, Cluster.setNode, hj]
  have hquiet : out.node.myId = (c.nodes s).myId → out.node.log = (c.nodes s).log →
      (out.node.role = .leader → (c.nodes s).role = .leader ∧
        out.node.currentTerm = (c.nodes s).currentTerm) →
      (if (c.nodes s).role ≠ .leader ∧ out.node.role = .leader
        then (s, out.node.currentTerm) :: c.wins else c.wins) = c.wins ∧ LogInv
        { c.setNode s out.node with wins := if (c.nodes s).role ≠ .leader ∧ out.node.role = .leader
            then (s, out.node.currentTerm) :: c.wins else c.wins } lead := by
    intro hid hlog hlead
    have hif : ¬ ((c.nodes s).role ≠ .leader ∧ out.node.role = .leader) :=
      fun hc => hc.1 (hlead hc.2).1
    exact ⟨if_neg hif, h.quiet out.node hid hlog hlead rfl rfl (if_neg hif) fun p hpn => Or.inl hpn⟩
  obtain ⟨_, hnode⟩ | hnode | ⟨_, hr, _, _, nd₁, hnd₁, hcase⟩ := handleRequestVoteReply_cases hout
  · have hlog : out.node.log = (c.nodes s).log := by rw [hnode]; rfl
    obtain ⟨hw, hinv⟩ := hquiet (by rw [hnode]; rfl) hlog (fun hl => by rw [hnode] at hl; cases hl)
    exact Or.inl ⟨hw, hfull hlog _, hinv⟩
  · have hlog : out.node.log = (c.nodes s).log := by rw [hnode]
    obtain ⟨hw, hinv⟩ := hquiet (by rw [hnode]) hlog (fun hl => ⟨hnode ▸ hl, by rw [hnode]⟩)
    exact Or.inl ⟨hw, hfull hlog _, hinv⟩
  · obtain ⟨_, hnode⟩ | ⟨_, hlead⟩ := hcase
    · have hlog : out.node.log = (c.nodes s).log := by rw [hnode, hnd₁]
      have hrole : out.node.role = .candidate := by rw [hnode, hnd₁, hr]
      obtain ⟨hw, hinv⟩ := hquiet (by rw [hnode, hnd₁]) hlog
        (fun hl => by rw [hrole] at hl; cases hl)
      exact Or.inl ⟨hw, hfull hlog _, hinv⟩
    · obtain ⟨back, _, hnode⟩ := becomeLeader_cases hlead
      have hlog : out.node.log = (c.nodes s).log := by rw [hnode, hnd₁]
      have hrole : out.node.role = .leader := by rw [hnode]
      have hterm : out.node.currentTerm = (c.nodes s).currentTerm := by rw [hnode, hnd₁]
      have hif : (c.nodes s).role ≠ .leader ∧ out.node.role = .leader := ⟨by rw [hr]; decide, hrole⟩
      have hinv : LogInv { c.setNode s out.node with
          wins := if (c.nodes s).role ≠ .leader ∧ out.node.role = .leader
            then (s, out.node.currentTerm) :: c.wins else c.wins } _ :=
        h.win out.node (by rw [hnode, hnd₁]) hlog rfl rfl (if_pos hif) hnd (List.Subset.refl _)
      refine Or.inr ⟨hr, by simp [Cluster.setNode, hrole], by simp [Cluster.setNode, hterm], ?_,
        hfull hlog _, ?_⟩
      · rw [← hterm]
        exact if_pos hif
      · rw [← hterm]
        exact hinv

/-- Everything but a vote reply keeps the record of leaders' logs. -/
theorem LogInv.handle (h : LogInv c lead) {p : Packet n Command} {junk : Command}
    (hp : PacketHeld c.wins lead p) (hs : c.handle junk p = some c')
    (hne : ∀ s d args reply, p ≠ .voteReply s d args reply) : LogInv c' lead := by
  cases p with
  | voteReply s d args reply => exact absurd rfl (hne s d args reply)
  | voteRequest s d args =>
    obtain ⟨out, hout, hs⟩ := Option.bind_eq_some_iff.mp hs
    cases hs
    obtain ⟨hnd, _⟩ | ⟨nd₁, _, hj, _, _, ⟨hnd, _⟩ | ⟨_, _, hnd, _⟩⟩ := requestVote_cases hout
    · exact h.quiet out.node (by rw [hnd]) (by rw [hnd]) (fun hr => ⟨hnd ▸ hr, by rw [hnd]⟩)
        rfl rfl rfl (mem_send trivial)
    · refine h.quiet out.node (by rw [hnd, hj.myId]) (by rw [hnd, hj.log]) (fun hr => ?_)
        rfl rfl rfl (mem_send trivial)
      obtain ⟨heq, _⟩ := hj.eq_of_role (by rw [← hnd, hr]; decide)
      rw [hnd, heq] at hr ⊢
      exact ⟨hr, rfl⟩
    · refine h.quiet out.node (by rw [hnd]; exact hj.myId) (by rw [hnd]; exact hj.log) (fun hr => ?_)
        rfl rfl rfl (mem_send trivial)
      have hr' : nd₁.role = .leader := by rwa [hnd] at hr
      obtain ⟨heq, _⟩ := hj.eq_of_role (by rw [hr']; decide)
      rw [hnd, heq]
      exact ⟨heq ▸ hr', rfl⟩
  | appendRequest s d args held =>
    obtain ⟨out, hout, hs⟩ := Option.bind_eq_some_iff.mp hs
    cases hs
    exact h.appendEntries hp.1 hp.2 hout rfl rfl rfl (mem_send trivial)
  | appendReply s d args reply =>
    obtain ⟨out, hout, hs⟩ := Option.bind_eq_some_iff.mp hs
    cases hs
    obtain ⟨_, hnd⟩ | ⟨_, _, _, _, _, _, _, _, _, _, hnd⟩ | ⟨_, hnd⟩ :=
      handleAppendEntriesReply_cases hout
    · exact h.quiet out.node (by rw [hnd]; rfl) (by rw [hnd]; rfl) (fun hr => by rw [hnd] at hr; cases hr)
        rfl rfl rfl fun p hpn => Or.inl hpn
    · exact h.quiet out.node (by rw [hnd]) (by rw [hnd]) (fun hr => by rw [hnd] at hr ⊢; exact ⟨hr, rfl⟩)
        rfl rfl rfl fun p hpn => Or.inl hpn
    · exact h.quiet out.node (by rw [hnd]) (by rw [hnd]) (fun hr => by rw [hnd] at hr ⊢; exact ⟨hr, rfl⟩)
        rfl rfl rfl fun p hpn => Or.inl hpn
  | snapshotRequest s d args held =>
    obtain ⟨out, hout, hs⟩ := Option.bind_eq_some_iff.mp hs
    cases hs
    exact h.installSnapshot hp.1 hp.2 hout rfl rfl rfl (mem_send trivial)
  | snapshotReply s d args reply =>
    cases hs
    obtain ⟨_, hnd⟩ | hnd | ⟨_, hnd⟩ := handleInstallSnapshotReply_cases (c.nodes s) d args reply
    · exact h.quiet _ (by rw [hnd]; rfl) (by rw [hnd]; rfl) (fun hr => by rw [hnd] at hr; cases hr)
        rfl rfl rfl fun p hpn => Or.inl hpn
    · exact h.quiet _ (by rw [hnd]) (by rw [hnd]) (fun hr => by rw [hnd] at hr ⊢; exact ⟨hr, rfl⟩)
        rfl rfl rfl fun p hpn => Or.inl hpn
    · exact h.quiet _ (by rw [hnd]) (by rw [hnd]) (fun hr => by rw [hnd] at hr ⊢; exact ⟨hr, rfl⟩)
        rfl rfl rfl fun p hpn => Or.inl hpn

def Silent (c : Cluster n Command St) : Action n Command → Prop
  | .deliver k _ => ∀ p ∈ c.net[k]?, ∀ s d args reply, p ≠ .voteReply s d args reply
  | .commandAppend _ => False
  | _ => True

omit [ChfsStateMachine Command St] in
theorem LogInv.erase (h : LogInv c lead) (k : ℕ) : LogInv { c with net := c.net.eraseIdx k } lead :=
  h.net rfl rfl rfl fun _ hp => Or.inl (List.mem_of_mem_eraseIdx hp)

theorem LogInv.silent (h : LogInv c lead) {a : Action n Command} (ha : Silent c a)
    (hs : c.step a = some c') : LogInv c' lead := by
  cases a with
  | election i =>
    obtain ⟨out, hout, hs⟩ := Option.bind_eq_some_iff.mp hs
    obtain ⟨_, hnd, hrep⟩ | ⟨back, _, hnd, hrep⟩ := runBackgroundElection_cases hout
    · rw [hrep] at hs
      cases hs
      exact h.quiet out.node (by rw [hnd]) (by rw [hnd]) (fun hr => ⟨hnd ▸ hr, by rw [hnd]⟩)
        rfl rfl rfl fun p hpn => Or.inl hpn
    · rw [hrep] at hs
      cases hs
      refine h.quiet out.node (by rw [hnd]) (by rw [hnd]) (fun hr => by rw [hnd] at hr; cases hr)
        rfl rfl rfl fun p hpn => ?_
      obtain hpn | hpn := List.mem_append.mp hpn
      · exact Or.inl hpn
      · obtain ⟨j, _, rfl⟩ := List.mem_map.mp hpn
        exact Or.inr trivial
  | deliver k junk =>
    obtain ⟨p, hk, hs⟩ := Option.bind_eq_some_iff.mp hs
    exact (h.erase k).handle (h.packets p (List.mem_of_getElem? hk)) hs (ha p hk)
  | drop k =>
    cases hs
    exact h.erase k
  | commandTest i cmd =>
    cases hs
    split
    case isTrue => exact h.net rfl rfl rfl fun p hpn => Or.inl hpn
    case isFalse => exact h
  | commandAppend k => exact absurd ha id
  | commit i =>
    obtain ⟨ms, hms, hs⟩ := Option.bind_eq_some_iff.mp hs
    cases hs
    exact h.broadcast (Or.inl hms)
  | ping i =>
    obtain ⟨ms, hms, hs⟩ := Option.bind_eq_some_iff.mp hs
    cases hs
    exact h.broadcast (Or.inr hms)
  | apply i =>
    obtain ⟨out, hout, hs⟩ := Option.bind_eq_some_iff.mp hs
    cases hs
    obtain rfl | ⟨_, _, _, _, _, _, _, _, _, hnd⟩ := runBackgroundApply_cases hout
    · exact h.quiet _ rfl rfl (fun hr => ⟨hr, rfl⟩) rfl rfl rfl fun p hpn => Or.inl hpn
    · exact h.quiet out.1 (by rw [hnd]) (by rw [hnd]) (fun hr => by rw [hnd] at hr ⊢; exact ⟨hr, rfl⟩)
        rfl rfl rfl fun p hpn => Or.inl hpn
  | snapshot i =>
    obtain ⟨out, hout, hs⟩ := Option.bind_eq_some_iff.mp hs
    obtain ⟨front, hf, hs⟩ := Option.bind_eq_some_iff.mp hs
    cases hs
    obtain ⟨hrep, hfull⟩ := saveSnapshot_full (h.rep i) hout hf
    obtain ⟨_, _, _, _, _, _, _, hnd⟩ := saveSnapshot_cases hout
    refine h.move out.node _ (by rw [hnd]) hrep (by rw [hfull]; exact h.valid i) (fun hr => ?_)
      rfl rfl rfl fun p hpn => Or.inl hpn
    exact ⟨by rwa [hnd] at hr, by rw [hnd], hfull⟩
  | restart i =>
    obtain ⟨nd, hnd, hs⟩ := Option.bind_eq_some_iff.mp hs
    cases hs
    obtain ⟨front, _, hnd⟩ := Option.bind_eq_some_iff.mp hnd
    cases hnd
    exact h.quiet (i := i) _ (by exact (h.myId i).symm) (by rfl) (fun hr => by cases hr) rfl rfl rfl
      fun p hpn => Or.inl hpn

theorem LogInv.step (h : LogInv c lead) {a : Action n Command} (ha : LeaderAppends c a)
    (hs : c.step a = some c') (hnd : (c'.wins.map Prod.snd).Nodup) : ∃ lead', LogInv c' lead' := by
  cases a with
  | deliver k junk =>
    obtain ⟨p, hk, hs'⟩ := Option.bind_eq_some_iff.mp hs
    cases p with
    | voteReply s d args reply =>
      obtain ⟨_, _, hinv⟩ | ⟨_, _, _, _, _, hinv⟩ := (h.erase k).handleVoteReply hs' hnd
      · exact ⟨_, hinv⟩
      · exact ⟨_, hinv⟩
    | _ => exact ⟨lead, h.silent (by simp [Silent, hk]) hs⟩
  | commandAppend k =>
    obtain ⟨call, hk, hs⟩ := Option.bind_eq_some_iff.mp hs
    obtain ⟨out, hout, hs⟩ := Option.bind_eq_some_iff.mp hs
    simp only [Option.some.injEq] at hs
    have hn : c'.nodes = Function.update c.nodes call.1 out.node := by rw [← hs]; rfl
    obtain ⟨e, _, _, _, hinv⟩ := h.newCommand (ha call hk) hout hn (by rw [← hs]; rfl)
      (by rw [← hs]; rfl) (by rw [← hs]; rfl)
    exact ⟨_, hinv⟩
  | _ => exact ⟨lead, h.silent (by trivial) hs⟩

end Chfs.Raft.Matching
