import Chfs.Raft.Progress
import Mathlib.Data.Int.ConditionallyCompleteOrder

namespace Chfs.Raft.CommitRule

open Protocol Node Handlers Network FullLog Splicing Counting Subscripts Progress Lib.Run
open Persistence (Event handle)

variable {n : ℕ} {Command St : Type} {nd nd' : RaftNode n Command St}

def supporters (matchIndex : Fin n → ℤ) (N : ℤ) : Finset (Fin n) :=
  Finset.univ.filter fun j => N ≤ matchIndex j

def Majority (nd : RaftNode n Command St) (N : ℤ) : Prop :=
  (∃ e ∈ nd.log, e.index = N ∧ e.term = nd.currentTerm) ∧ n < 2 * (supporters nd.matchIndex N).card

/-- The commit index that the rule demands of a leader that began with `c₀`. -/
def FollowsRule (c₀ : ℤ) (nd : RaftNode n Command St) : Prop :=
  IsGreatest ({c₀} ∪ {N | Majority nd N}) nd.commitIndex

def loopRange (nd : RaftNode n Command St) (nodeId : Fin n) (arg : AppendEntriesArgs Command) : Set ℤ :=
  Set.Ioc (max (nd.matchIndex nodeId - nd.commitIndex) 0 - 1)
    (max (nd.matchIndex nodeId) (arg.prevLogIndex + arg.entries.length) - nd.commitIndex - 1)

/-- What a leader may do without leaving its role: replies acknowledge entries
of its log, snapshots it has sent cover committed entries only. -/
def Permitted (nd : RaftNode n Command St) : Event n Command → Prop
  | .newCommand _ | .saveSnapshot | .apply => True
  | .appendEntriesReply _ arg reply => reply.term ≤ nd.currentTerm ∧ (reply.success →
    ∀ back ∈ nd.log.getLast?, arg.prevLogIndex + arg.entries.length ≤ back.index)
  | .installSnapshotReply _ arg reply => reply.term ≤ nd.currentTerm ∧
    arg.lastIncludedIndex ≤ nd.commitIndex
  | _ => False

instance (nd : RaftNode n Command St) (e : Event n Command) : Decidable (Permitted nd e) :=
  match e with
  | .newCommand _ | .saveSnapshot | .apply => .isTrue trivial
  | .appendEntriesReply _ arg reply => inferInstanceAs (Decidable (reply.term ≤ nd.currentTerm ∧
    (reply.success → ∀ back ∈ nd.log.getLast?, arg.prevLogIndex + arg.entries.length ≤ back.index)))
  | .installSnapshotReply _ arg reply => inferInstanceAs (Decidable
    (reply.term ≤ nd.currentTerm ∧ arg.lastIncludedIndex ≤ nd.commitIndex))
  | .requestVote _ | .requestVoteReply _ _ _ | .appendEntries _ | .installSnapshot _ _
  | .election => .isFalse id

/-- A candidate whose indices are in order and whose log has no uncommitted
entry of the term it stands for. -/
structure Fresh (cand : RaftNode n Command St) : Prop where
  ordered : Ordered cand
  noOwn : ∀ e ∈ cand.log, cand.commitIndex < e.index → e.term ≠ cand.currentTerm

section Loop

variable {tmp : ℤ} {terms : ℕ → ℤ} {front : RaftLogEntry Command}

def bump (tmp : ℤ) (k : ℕ) (p : ℕ) : ℕ := if tmp < p ∧ p ≤ tmp + k then 1 else 0

def Commits (nd : RaftNode n Command St) (terms : ℕ → ℤ) (counts : List ℕ) (p : ℕ) : Prop :=
  terms p = nd.currentTerm ∧ ∀ x ∈ counts[p]?, n / 2 < x + 1

/-- What the counting loop computes: it stops at the highest slot that gets a
majority, and otherwise counts the acknowledgement in all slots. -/
theorem countMatches_exact (hf : nd.log.head? = some front) (htmp : -1 ≤ tmp) :
    ∀ (k : ℕ) (counts : List ℕ), tmp + k < counts.length →
    (∀ p < counts.length, ∃ e, at? nd.log (nd.commitIndex + p + 1 - front.index) = some e ∧
      e.term = terms p) →
    ∃ ci counts', countMatches nd tmp k counts = some (ci, counts') ∧
      ((ci = nd.commitIndex ∧ (∀ p, counts'[p]? = counts[p]?.map (· + bump tmp k p)) ∧
          ∀ p : ℕ, tmp < p → p ≤ tmp + k → ¬ Commits nd terms counts p) ∨
        ∃ i : ℕ, tmp < i ∧ i ≤ tmp + k ∧ ci = nd.commitIndex + (i + 1) ∧ Commits nd terms counts i ∧
          (∀ p, counts'[p]? = counts[p + (i + 1)]?.map (· + bump tmp k (p + (i + 1)))) ∧
          ∀ p : ℕ, i < p → p ≤ tmp + k → ¬ Commits nd terms counts p) := by
  intro k
  induction k with
  | zero =>
    intro counts _ _
    refine ⟨_, _, rfl, Or.inl ⟨rfl, fun p => ?_, fun p h1 h2 => ?_⟩⟩
    · have hb : bump tmp 0 p = 0 := if_neg (by omega)
      simp [hb]
    · omega
  | succ k ih =>
    intro counts hlen hlog
    obtain ⟨i, hi⟩ : ∃ i : ℕ, tmp + (k + 1) = i := ⟨(tmp + (k + 1)).toNat, by omega⟩
    have hlt : i < counts.length := by omega
    obtain ⟨x, hx⟩ : ∃ x, counts[i]? = some x := ⟨_, List.getElem?_eq_getElem hlt⟩
    obtain ⟨e, he, hterm⟩ := hlog i hlt
    have hset : ∀ p, p ≠ i → (counts.set i (x + 1))[p]? = counts[p]? := fun p hp =>
      List.getElem?_set_ne hp.symm
    have hself : (counts.set i (x + 1))[i]? = some (x + 1) := List.getElem?_set_self hlt
    have hsame : ∀ p, p ≠ i →
        (Commits nd terms (counts.set i (x + 1)) p ↔ Commits nd terms counts p) := by
      intro p hp
      rw [Commits, Commits, hset p hp]
    -- slot `i` is the first one that is visited
    have hrest : ¬ Commits nd terms counts i →
        countMatches nd tmp (k + 1) counts = countMatches nd tmp k (counts.set i (x + 1)) := by
      intro hno
      rw [countMatches]
      simp only [hi, at?_natCast, hx, Option.bind_eq_bind, Option.bind_some, Int.toNat_natCast]
      split
      case isTrue hmaj =>
        have hne : e.term ≠ nd.currentTerm := fun heq => hno ⟨hterm ▸ heq, by
          rw [hx]
          rintro y ⟨⟩
          exact hmaj⟩
        rw [hf, Option.bind_some, he, Option.bind_some, if_neg hne]
      case isFalse => rfl
    by_cases hc : Commits nd terms counts i
    · refine ⟨nd.commitIndex + (i + 1), (counts.set i (x + 1)).drop (i + 1), ?_, Or.inr
        ⟨i, by omega, by push_cast; omega, rfl, hc, fun p => ?_, fun p h1 h2 => ?_⟩⟩
      · rw [countMatches]
        simp only [hi, at?_natCast, hx, Option.bind_eq_bind, Option.bind_some, Int.toNat_natCast]
        rw [if_pos (hc.2 x hx), hf, Option.bind_some, he, Option.bind_some, if_pos (hterm.trans hc.1)]
        rfl
      · have hb : bump tmp (k + 1) (p + (i + 1)) = 0 := if_neg (by push_cast; omega)
        rw [List.getElem?_drop, Nat.add_comm (i + 1) p, hset _ (by omega), hb]
        simp
      · push_cast at h2
        omega
    · obtain ⟨ci, counts', hrun, hres⟩ := ih (counts.set i (x + 1)) (by rw [List.length_set]; omega)
        (by rw [List.length_set]; exact hlog)
      refine ⟨ci, counts', (hrest hc).trans hrun, ?_⟩
      have hbump : ∀ p, p ≠ i → bump tmp (k + 1) p = bump tmp k p := by
        intro p hp
        unfold bump
        congr 1
        push_cast
        exact propext ⟨fun h => ⟨h.1, by omega⟩, fun h => ⟨h.1, by omega⟩⟩
      obtain ⟨rfl, hcounts, hnone⟩ | ⟨j, hj1, hj2, rfl, hj, hcounts, hnone⟩ := hres
      · refine Or.inl ⟨rfl, fun p => ?_, fun p h1 h2 => ?_⟩
        · by_cases hp : p = i
          · subst hp
            have hb : bump tmp k p = 0 := if_neg (by omega)
            have hb' : bump tmp (k + 1) p = 1 := if_pos ⟨by omega, by push_cast; omega⟩
            rw [hcounts, hself, hx, hb, hb']
            rfl
          · rw [hcounts, hset p hp, hbump p hp]
        · by_cases hp : p = i
          · exact hp ▸ hc
          · exact (hsame p hp).not.mp (hnone p h1 (by push_cast at h2; omega))
      · refine Or.inr ⟨j, hj1, by push_cast; omega, rfl, (hsame j (by omega)).mp hj, fun p => ?_,
          fun p h1 h2 => ?_⟩
        · by_cases hp : p + (j + 1) = i
          · have hb : bump tmp k (p + (j + 1)) = 0 := if_neg (by push_cast at hi ⊢; omega)
            have hb' : bump tmp (k + 1) (p + (j + 1)) = 1 :=
              if_pos ⟨by push_cast; omega, by push_cast; omega⟩
            rw [hcounts, hb, hb', hp, hself, hx]
            rfl
          · rw [hcounts, hset _ hp, hbump _ hp]
        · by_cases hp : p = i
          · exact hp ▸ hc
          · exact (hsame p hp).not.mp (hnone p h1 (by push_cast at h2; omega))

end Loop

section Supporters

variable {f : Fin n → ℤ} {i j : Fin n} {M N : ℤ}

theorem card_erase_supporters_update (hle : f j ≤ M) (i : Fin n) :
    ((supporters (Function.update f j M) N).erase i).card =
      ((supporters f N).erase i).card + if j ≠ i ∧ f j < N ∧ N ≤ M then 1 else 0 := by
  have hother : ∀ k, k ≠ j →
      (k ∈ (supporters (Function.update f j M) N).erase i ↔ k ∈ (supporters f N).erase i) := by
    intro k hk
    simp [supporters, Function.update_of_ne hk]
  split
  case isTrue h =>
    obtain ⟨hji, hlt, hNM⟩ := h
    have hnot : j ∉ (supporters f N).erase i := by simp [supporters, hlt]
    rw [← Finset.card_insert_of_notMem hnot]
    congr 1
    ext k
    by_cases hk : k = j
    · subst hk
      simp [supporters, hji, hNM]
    · rw [hother k hk, Finset.mem_insert, or_iff_right hk]
  case isFalse h =>
    rw [Nat.add_zero]
    congr 1
    ext k
    by_cases hk : k = j
    · subst hk
      simp only [supporters, Finset.mem_erase, Finset.mem_filter, Finset.mem_univ, true_and,
        Function.update_self]
      refine and_congr_right fun hki => ⟨fun hN => ?_, fun hN => hN.trans hle⟩
      by_contra hlt
      exact h ⟨hki, not_le.mp hlt, hN⟩
    · exact hother k hk

theorem supporters_mono {g : Fin n → ℤ} (h : ∀ j, f j ≤ g j) : supporters f N ⊆ supporters g N := by
  intro j hj
  simp only [supporters, Finset.mem_filter, Finset.mem_univ, true_and] at hj ⊢
  exact hj.trans (h j)

theorem card_erase_supporters (h : N ≤ f i) :
    ((supporters f N).erase i).card + 1 = (supporters f N).card :=
  Finset.card_erase_add_one (by simpa [supporters] using h)

theorem le_update {g : Fin n → ℤ} (h : g j ≤ M) (k : Fin n) : g k ≤ Function.update g j M k := by
  by_cases hk : k = j
  · subst hk
    rwa [Function.update_self]
  · rw [Function.update_of_ne hk]

end Supporters

/-- A leader that began with commit index `c₀` and a log up to `b₀`. The slot
of entry `N` counts the other nodes that have it, and the leader itself if it
has created the entry. -/
structure LeadInv (c₀ b₀ : ℤ) (nd : RaftNode n Command St) : Prop where
  role : nd.role = .leader
  ordered : Ordered nd
  since : c₀ ≤ nd.commitIndex
  reach : ∀ back ∈ nd.log.getLast?, b₀ ≤ back.index
  own : ∀ back ∈ nd.log.getLast?, nd.matchIndex nd.myId = back.index
  within : ∀ back ∈ nd.log.getLast?, ∀ j, nd.matchIndex j ≤ back.index
  length : ∀ back ∈ nd.log.getLast?, (nd.matchCount.length : ℤ) = back.index - nd.commitIndex
  terms : ∀ e ∈ nd.log, c₀ < e.index → (e.term = nd.currentTerm ↔ b₀ < e.index)
  count : ∀ (p : ℕ) x, nd.matchCount[p]? = some x →
    x = ((supporters nd.matchIndex (nd.commitIndex + p + 1)).erase nd.myId).card +
      if b₀ < nd.commitIndex + p + 1 then 1 else 0
  small : ∀ (p : ℕ) x, nd.matchCount[p]? = some x → b₀ < nd.commitIndex + p + 1 → x ≤ n / 2
  top : nd.commitIndex = c₀ ∨ Majority nd nd.commitIndex

section Invariant

variable {c₀ b₀ : ℤ}

theorem LeadInv.followsRule (h : LeadInv c₀ b₀ nd) : FollowsRule c₀ nd := by
  constructor
  · exact h.top
  · rintro N (rfl | ⟨⟨e, he, rfl, hterm⟩, hmaj⟩)
    · exact h.since
    · by_contra hlt
      rw [not_le] at hlt
      have hsince := h.since
      obtain ⟨front, back, hf, hb, hnum, hlen⟩ := h.ordered.contiguous.ends
      obtain ⟨k, hk, hidx⟩ := hnum.mem he
      have hkl := (List.getElem?_eq_some_iff.mp hk).1
      have hown := h.own back hb
      have hcount := h.length back hb
      have hb₀ := (h.terms e he (by omega)).mp hterm
      -- the slot of the entry has counted all its supporters
      obtain ⟨p, hp⟩ : ∃ p : ℕ, e.index = nd.commitIndex + p + 1 :=
        ⟨(e.index - nd.commitIndex - 1).toNat, by omega⟩
      obtain ⟨x, hx⟩ : ∃ x, nd.matchCount[p]? = some x := ⟨_, List.getElem?_eq_getElem (by omega)⟩
      have hsmall := h.small p x hx (hp ▸ hb₀)
      have hxc := h.count p x hx
      rw [← hp, if_pos hb₀, card_erase_supporters (by omega)] at hxc
      omega

theorem leadInv_of_becomeLeader {cand : RaftNode n Command St} (hfresh : Fresh cand)
    (hpos : 0 ≤ cand.commitIndex) (h : becomeLeader cand = some nd) :
    ∃ b₀, LeadInv nd.commitIndex b₀ nd := by
  obtain ⟨back, hb, hnd⟩ := becomeLeader_cases h
  have hle := hfresh.ordered.back back hb
  obtain ⟨front, back', hf, hb', hnum, hlen⟩ := hfresh.ordered.contiguous.ends
  obtain rfl : back' = back := Option.some.inj (hb'.symm.trans hb)
  have hlog : nd.log = cand.log := by rw [hnd]
  have hci : nd.commitIndex = cand.commitIndex := by rw [hnd]
  have hmi : nd.matchIndex = Function.update (fun _ => 0) nd.myId back'.index := by rw [hnd]
  have hmc : nd.matchCount = List.replicate (back'.index - cand.commitIndex).toNat 0 := by
    rw [hnd]
    exact if_neg (by omega)
  have hother : ∀ j, j ≠ nd.myId → nd.matchIndex j = 0 := fun j hj => by
    rw [hmi, Function.update_of_ne hj]
  have hown : nd.matchIndex nd.myId = back'.index := by rw [hmi, Function.update_self]
  have hlast : ∀ b ∈ nd.log.getLast?, b = back' := fun b hb' =>
    Option.some.inj ((hlog ▸ hb').symm.trans hb)
  have hord : Ordered nd := (hfresh.ordered.congr hlog hci (by rw [hnd])).1
  refine ⟨back'.index, ⟨by rw [hnd], hord, le_refl _, ?_, ?_, ?_, ?_, ?_, ?_, ?_, Or.inl rfl⟩⟩
  · intro b hb
    rw [hlast b hb]
  · intro b hb
    rw [hlast b hb, hown]
  · intro b hb j
    rw [hlast b hb]
    by_cases hj : j = nd.myId
    · rw [hj, hown]
    · rw [hother j hj]
      omega
  · intro b hb
    rw [hlast b hb, hmc, hci, List.length_replicate]
    omega
  · -- every entry of the log is inherited
    rw [hlog, hci]
    intro e he hlt
    obtain ⟨k, hk, hidx⟩ := hnum.mem he
    have hkl := (List.getElem?_eq_some_iff.mp hk).1
    have hterm : nd.currentTerm = cand.currentTerm := by rw [hnd]
    rw [hterm]
    exact iff_of_false (hfresh.noOwn e he hlt) (by omega)
  · intro p x hx
    rw [hmc] at hx
    obtain ⟨hp, rfl⟩ := List.getElem?_eq_some_iff.mp hx
    rw [List.length_replicate] at hp
    rw [List.getElem_replicate, hci, if_neg (by omega), Nat.add_zero, eq_comm, Finset.card_eq_zero]
    ext j
    simp only [supporters, Finset.mem_erase, Finset.mem_filter, Finset.mem_univ, true_and,
      Finset.notMem_empty, iff_false, not_and]
    intro hj
    rw [hother j hj]
    omega
  · intro p x hx hlt
    rw [hmc] at hx
    obtain ⟨hp, rfl⟩ := List.getElem?_eq_some_iff.mp hx
    rw [List.length_replicate] at hp
    omega

theorem LeadInv.shrink (h : LeadInv c₀ b₀ nd) (hord : Ordered nd') (hrole : nd'.role = nd.role)
    (hid : nd'.myId = nd.myId) (hterm : nd'.currentTerm = nd.currentTerm)
    (hci : nd'.commitIndex = nd.commitIndex) (hmi : nd'.matchIndex = nd.matchIndex)
    (hmc : nd'.matchCount = nd.matchCount) (hlast : nd'.log.getLast? = nd.log.getLast?)
    (hsub : ∀ e ∈ nd'.log, e ∈ nd.log)
    (hkeep : ∀ e ∈ nd.log, e.index = nd.commitIndex → e ∈ nd'.log) : LeadInv c₀ b₀ nd' := by
  refine ⟨hrole.trans h.role, hord, hci ▸ h.since, hlast ▸ h.reach, ?_, ?_, ?_, ?_, ?_, ?_, ?_⟩
  · rw [hlast, hmi, hid]
    exact h.own
  · rw [hlast, hmi]
    exact h.within
  · rw [hlast, hmc, hci]
    exact h.length
  · intro e he
    rw [hterm]
    exact h.terms e (hsub e he)
  · rw [hmc, hmi, hci, hid]
    exact h.count
  · rw [hmc, hci]
    exact h.small
  · rw [hci]
    obtain htop | ⟨⟨e, he, hidx, ht⟩, hcard⟩ := h.top
    · exact Or.inl htop
    · exact Or.inr ⟨⟨e, hkeep e he hidx, hidx, ht.trans hterm.symm⟩, hmi ▸ hcard⟩

theorem LeadInv.newCommand (h : LeadInv c₀ b₀ nd) (hn : 2 ≤ n) {cmd : Command}
    {out : Outcome n Command St (ℤ × ℤ)} (hord : Ordered out.node)
    (ho : newCommand nd cmd = some out) : LeadInv c₀ b₀ out.node := by
  obtain ⟨back, hb, hnd⟩ := newCommand_cases ho
  have hle := h.ordered.back back hb
  have hsince := h.since
  have hreach := h.reach back hb
  have hwithin := h.within back hb
  have hlen := h.length back hb
  obtain ⟨e, he⟩ : ∃ e : RaftLogEntry Command, e = ⟨back.index + 1, nd.currentTerm, cmd⟩ := ⟨_, rfl⟩
  rw [← he] at hnd
  have hei : e.index = back.index + 1 := by rw [he]
  have hlast : out.node.log.getLast? = some e := by rw [hnd, List.getLast?_concat]
  have hmono : ∀ j, nd.matchIndex j ≤ out.node.matchIndex j := fun j => by
    rw [hnd]
    exact le_update ((hwithin _).trans (by omega)) j
  refine ⟨by rw [hnd]; exact h.role, hord, by rw [hnd]; exact h.since, ?_, ?_, ?_, ?_, ?_, ?_, ?_, ?_⟩
  · rw [hlast]
    rintro b ⟨⟩
    omega
  · rw [hlast]
    rintro b ⟨⟩
    rw [hnd, hei]
    exact Function.update_self ..
  · rw [hlast]
    rintro b ⟨⟩ j
    rw [hnd, hei]
    by_cases hj : j = nd.myId
    · subst hj
      exact (Function.update_self ..).le
    · exact (Function.update_of_ne hj ..).le.trans ((hwithin j).trans (by omega))
  · rw [hlast]
    rintro b ⟨⟩
    rw [hnd, hei]
    simp only [List.length_append, List.length_singleton]
    omega
  · rw [hnd]
    intro e' he' hlt
    obtain he' | he' := List.mem_append.mp he'
    · exact h.terms e' he' hlt
    · obtain rfl := List.mem_singleton.mp he'
      exact iff_of_true (by rw [he]) (by omega)
  · -- the other nodes have not moved, and none of them has the new entry
    intro p x hx
    have hothers : ∀ N, ((supporters out.node.matchIndex N).erase out.node.myId).card =
        ((supporters nd.matchIndex N).erase nd.myId).card := by
      intro N
      rw [hnd]
      simp only
      rw [card_erase_supporters_update ((hwithin _).trans (by omega)), if_neg (fun hc => hc.1 rfl),
        Nat.add_zero]
    have hci : out.node.commitIndex = nd.commitIndex := by rw [hnd]
    rw [hothers, hci]
    have hmc : out.node.matchCount = nd.matchCount ++ [1] := by rw [hnd]
    rw [hmc] at hx
    by_cases hp : p < nd.matchCount.length
    · rw [List.getElem?_append_left hp] at hx
      exact h.count p x hx
    · have hpl := (List.getElem?_eq_some_iff.mp hx).1
      rw [List.length_append, List.length_singleton] at hpl
      obtain rfl : p = nd.matchCount.length := by omega
      rw [List.getElem?_concat_length, Option.some.injEq] at hx
      have hnone : (supporters nd.matchIndex (nd.commitIndex + nd.matchCount.length + 1)).erase nd.myId = ∅ := by
        ext j
        simp only [supporters, Finset.mem_erase, Finset.mem_filter, Finset.mem_univ, true_and,
          Finset.notMem_empty, iff_false, not_and]
        intro _ hj
        have := hwithin j
        omega
      rw [hnone, Finset.card_empty, if_pos (by omega), ← hx]
  · intro p x hx hlt
    have hmc : out.node.matchCount = nd.matchCount ++ [1] := by rw [hnd]
    have hci : out.node.commitIndex = nd.commitIndex := by rw [hnd]
    rw [hmc] at hx
    rw [hci] at hlt
    by_cases hp : p < nd.matchCount.length
    · rw [List.getElem?_append_left hp] at hx
      exact h.small p x hx hlt
    · have hpl := (List.getElem?_eq_some_iff.mp hx).1
      rw [List.length_append, List.length_singleton] at hpl
      obtain rfl : p = nd.matchCount.length := by omega
      rw [List.getElem?_concat_length, Option.some.injEq] at hx
      omega
  · obtain htop | ⟨⟨e', he', hidx, ht⟩, hcard⟩ := h.top
    · exact Or.inl (by rw [hnd]; exact htop)
    · refine Or.inr ⟨⟨e', ?_, ?_, ?_⟩, ?_⟩
      · rw [hnd]
        exact List.mem_append_left _ he'
      · rw [hnd]
        exact hidx
      · rw [hnd]
        exact ht
      · have hci : out.node.commitIndex = nd.commitIndex := by rw [hnd]
        rw [hci]
        exact hcard.trans_le (Nat.mul_le_mul_left 2 (Finset.card_le_card (supporters_mono hmono)))

theorem LeadInv.installSnapshotReply (h : LeadInv c₀ b₀ nd) {nodeId : Fin n}
    {arg : InstallSnapshotArgs} {reply : InstallSnapshotReply}
    (hp : Permitted nd (.installSnapshotReply nodeId arg reply))
    (hord : Ordered (handleInstallSnapshotReply nd nodeId arg reply).node) :
    LeadInv c₀ b₀ (handleInstallSnapshotReply nd nodeId arg reply).node := by
  obtain ⟨hterm, hincl⟩ := hp
  generalize hout : (handleInstallSnapshotReply nd nodeId arg reply).node = nd' at hord ⊢
  obtain ⟨hlt, -⟩ | hnd | ⟨next, hnd⟩ := handleInstallSnapshotReply_cases nd nodeId arg reply
  · exact absurd hlt (not_lt.mpr hterm)
  · rw [hout] at hnd
    rwa [hnd]
  · rw [hout] at hnd
    have hmi : nd'.matchIndex = Function.update nd.matchIndex nodeId
        (max (nd.matchIndex nodeId) arg.lastIncludedIndex) := by rw [hnd]
    have hci : nd'.commitIndex = nd.commitIndex := by rw [hnd]
    have hid : nd'.myId = nd.myId := by rw [hnd]
    have hlog : nd'.log = nd.log := by rw [hnd]
    have hmc : nd'.matchCount = nd.matchCount := by rw [hnd]
    have hmono : ∀ j, nd.matchIndex j ≤ nd'.matchIndex j := fun j => by
      rw [hmi]
      exact le_update (le_max_left _ _) j
    -- nothing beyond the commit index is acknowledged
    have hwithin : ∀ back ∈ nd.log.getLast?, ∀ j, nd'.matchIndex j ≤ back.index := by
      intro back hb j
      have hle := h.ordered.back back hb
      have hw := h.within back hb
      rw [hmi]
      by_cases hj : j = nodeId
      · rw [hj, Function.update_self]
        exact max_le (hw nodeId) (hincl.trans hle)
      · rw [Function.update_of_ne hj]
        exact hw j
    refine ⟨by rw [hnd]; exact h.role, hord, hci ▸ h.since, hlog ▸ h.reach, ?_, hlog ▸ hwithin, ?_, ?_,
      ?_, ?_, ?_⟩
    · intro back hb
      rw [hlog] at hb
      rw [hid]
      exact le_antisymm (hwithin back hb nd.myId) ((h.own back hb).ge.trans (hmono nd.myId))
    · rw [hlog, hmc, hci]
      exact h.length
    · rw [hlog, hnd]
      exact h.terms
    · intro p x hx
      rw [hmc] at hx
      rw [hid, hmi, hci, card_erase_supporters_update (le_max_left _ _), if_neg (by omega), Nat.add_zero]
      exact h.count p x hx
    · rw [hmc, hci]
      exact h.small
    · rw [hci]
      obtain htop | ⟨⟨e, he, hidx, ht⟩, hcard⟩ := h.top
      · exact Or.inl htop
      · refine Or.inr ⟨⟨e, hlog ▸ he, hidx, by rw [hnd]; exact ht⟩, ?_⟩
        exact hcard.trans_le (Nat.mul_le_mul_left 2 (Finset.card_le_card (supporters_mono hmono)))

theorem LeadInv.loopRange (h : LeadInv c₀ b₀ nd) {nodeId : Fin n} {arg : AppendEntriesArgs Command}
    (hack : ∀ back ∈ nd.log.getLast?, arg.prevLogIndex + arg.entries.length ≤ back.index) {i : ℤ}
    (hi : i ∈ loopRange nd nodeId arg) : 0 ≤ i ∧ i < nd.matchCount.length := by
  obtain ⟨front, back, -, hb, -, -⟩ := h.ordered.contiguous.ends
  have hlen := h.length back hb
  have hw := h.within back hb nodeId
  have ha := hack back hb
  obtain ⟨hlo, hhi⟩ := hi
  omega

theorem length_of_getElem? {l l' : List ℕ} {d : ℕ} {g : ℕ → ℕ → ℕ}
    (h : ∀ p, l'[p]? = l[p + d]?.map (g p)) : l'.length = l.length - d := by
  have hiff : ∀ p, l'.length ≤ p ↔ l.length ≤ p + d := by
    intro p
    rw [← List.getElem?_eq_none_iff, h, Option.map_eq_none_iff, List.getElem?_eq_none_iff]
  have h1 := hiff l'.length
  have h2 := hiff (l.length - d)
  omega

/-- The counts after an acknowledgement, seen from the commit index `d` entries
further on. -/
theorem LeadInv.acknowledge (h : LeadInv c₀ b₀ nd) {nodeId : Fin n} {m : ℤ} {d : ℕ} (hord : Ordered nd')
    (hle : nd.matchIndex nodeId ≤ m) (hm : ∀ back ∈ nd.log.getLast?, m ≤ back.index)
    (hrole : nd'.role = nd.role) (hid : nd'.myId = nd.myId) (hterm : nd'.currentTerm = nd.currentTerm)
    (hlog : nd'.log = nd.log) (hmi : nd'.matchIndex = Function.update nd.matchIndex nodeId m)
    (hci : nd'.commitIndex = nd.commitIndex + d) (hd : d ≤ nd.matchCount.length)
    (hmc : ∀ p : ℕ, nd'.matchCount[p]? = nd.matchCount[p + d]?.map (· +
      if nd.matchIndex nodeId < nd'.commitIndex + p + 1 ∧ nd'.commitIndex + p + 1 ≤ m then 1 else 0))
    (hsmall : ∀ (p : ℕ) x, nd'.matchCount[p]? = some x → b₀ < nd'.commitIndex + p + 1 → x ≤ n / 2)
    (htop : nd'.commitIndex = c₀ ∨ Majority nd' nd'.commitIndex) : LeadInv c₀ b₀ nd' := by
  obtain ⟨front, back, hf, hb, -, -⟩ := h.ordered.contiguous.ends
  have hmb := hm back hb
  have hlen := h.length back hb
  have hlast : ∀ b ∈ nd'.log.getLast?, b = back := fun b hb' =>
    Option.some.inj ((hlog ▸ hb').symm.trans hb)
  have hwithin : ∀ j, nd'.matchIndex j ≤ back.index := by
    intro j
    rw [hmi]
    by_cases hj : j = nodeId
    · rw [hj, Function.update_self]
      exact hmb
    · rw [Function.update_of_ne hj]
      exact h.within back hb j
  refine ⟨hrole.trans h.role, hord, ?_, hlog ▸ h.reach, ?_, ?_, ?_, ?_, ?_, hsmall, htop⟩
  · have := h.since
    omega
  · intro b hb'
    rw [hlast b hb', hid]
    refine le_antisymm (hwithin nd.myId) ?_
    rw [hmi, ← h.own back hb]
    exact le_update hle nd.myId
  · intro b hb' j
    rw [hlast b hb']
    exact hwithin j
  · intro b hb'
    rw [hlast b hb', length_of_getElem? hmc, hci]
    omega
  · rw [hlog, hterm]
    exact h.terms
  · intro p x hx
    rw [hmc] at hx
    obtain ⟨y, hy, rfl⟩ := Option.map_eq_some_iff.mp hx
    have hshift : nd.commitIndex + ((p + d : ℕ) : ℤ) + 1 = nd'.commitIndex + p + 1 := by
      rw [hci]
      push_cast
      ring
    have hcount := h.count _ y hy
    rw [hshift] at hcount
    have hbump : (if nodeId ≠ nd.myId ∧ nd.matchIndex nodeId < nd'.commitIndex + p + 1 ∧
        nd'.commitIndex + p + 1 ≤ m then 1 else 0) =
        if nd.matchIndex nodeId < nd'.commitIndex + p + 1 ∧ nd'.commitIndex + p + 1 ≤ m then 1 else 0 := by
      congr 1
      refine propext ⟨fun hx => hx.2, fun hx => ⟨?_, hx⟩⟩
      -- the leader itself has acknowledged the whole log
      rintro rfl
      have := h.own back hb
      omega
    rw [hid, hmi, card_erase_supporters_update hle, hbump, hcount]
    ring

def slotTerm (nd : RaftNode n Command St) (front : RaftLogEntry Command) (p : ℕ) : ℤ :=
  ((at? nd.log (nd.commitIndex + p + 1 - front.index)).map (·.term)).getD 0

theorem LeadInv.slot (h : LeadInv c₀ b₀ nd) (hf : nd.log.head? = some front) {p : ℕ}
    (hp : p < nd.matchCount.length) :
    ∃ e ∈ nd.log, e.index = nd.commitIndex + p + 1 ∧
      at? nd.log (nd.commitIndex + p + 1 - front.index) = some e ∧ e.term = slotTerm nd front p ∧
      (slotTerm nd front p = nd.currentTerm ↔ b₀ < nd.commitIndex + p + 1) := by
  obtain ⟨front', back, hf', hb, hnum, hlen⟩ := h.ordered.contiguous.ends
  obtain rfl : front' = front := Option.some.inj (hf'.symm.trans hf)
  have hcl := h.length back hb
  have hsince := h.since
  have hfront := h.ordered.front front' hf
  have happlied := h.ordered.applied
  obtain ⟨q, hq⟩ : ∃ q : ℕ, nd.commitIndex + p + 1 - front'.index = q :=
    ⟨(nd.commitIndex + p + 1 - front'.index).toNat, by omega⟩
  have hget : nd.log[q]? = some nd.log[q] := List.getElem?_eq_getElem (by omega)
  have hmem := List.mem_of_getElem? hget
  have hidx : nd.log[q].index = nd.commitIndex + p + 1 := by
    have := hnum q _ hget
    omega
  have hat : at? nd.log (nd.commitIndex + p + 1 - front'.index) = some nd.log[q] := by
    rw [hq, at?_natCast, hget]
  have hterm : nd.log[q].term = slotTerm nd front' p := by
    rw [slotTerm, hat, Option.map_some, Option.getD_some]
  refine ⟨_, hmem, hidx, hat, hterm, ?_⟩
  rw [← hterm, h.terms _ hmem (by omega), hidx]

theorem LeadInv.small_bump (h : LeadInv c₀ b₀ nd) {terms : ℕ → ℤ} {tmp : ℤ} {k p y : ℕ}
    (hnew : terms p = nd.currentTerm ↔ b₀ < nd.commitIndex + p + 1) (hy : nd.matchCount[p]? = some y)
    (hlt : b₀ < nd.commitIndex + p + 1)
    (hno : tmp < p → p ≤ tmp + k → ¬ Commits nd terms nd.matchCount p) : y + bump tmp k p ≤ n / 2 := by
  have hold := h.small p y hy hlt
  unfold bump
  split
  case isTrue hin =>
    have hnot := hno hin.1 hin.2
    rw [Commits, hy] at hnot
    by_contra hgt
    exact hnot ⟨hnew.mpr hlt, by rintro z ⟨⟩; omega⟩
  case isFalse => omega

theorem LeadInv.card_supporters (h : LeadInv c₀ b₀ nd) {nodeId : Fin n} {m : ℤ} {i x : ℕ}
    (hle : nd.matchIndex nodeId ≤ m) (hm : ∀ back ∈ nd.log.getLast?, m ≤ back.index)
    (hx : nd.matchCount[i]? = some x) (hb₀ : b₀ < nd.commitIndex + i + 1)
    (hlt : nd.matchIndex nodeId < nd.commitIndex + i + 1) (hi : nd.commitIndex + i + 1 ≤ m) :
    (supporters (Function.update nd.matchIndex nodeId m) (nd.commitIndex + i + 1)).card = x + 1 := by
  obtain ⟨front, back, -, hb, -, -⟩ := h.ordered.contiguous.ends
  have hmb := hm back hb
  have hown := h.own back hb
  have hcount := h.count i x hx
  rw [if_pos hb₀] at hcount
  have hmy : nd.commitIndex + i + 1 ≤ Function.update nd.matchIndex nodeId m nd.myId := by
    have hup : nd.matchIndex nd.myId ≤ Function.update nd.matchIndex nodeId m nd.myId := le_update hle nd.myId
    omega
  have hne : nodeId ≠ nd.myId := by
    rintro rfl
    omega
  rw [← card_erase_supporters hmy, card_erase_supporters_update hle, if_pos ⟨hne, hlt, hi⟩, hcount]

theorem LeadInv.appendEntriesReply (h : LeadInv c₀ b₀ nd) {nodeId : Fin n}
    {arg : AppendEntriesArgs Command} {reply : AppendEntriesReply} (hsucc : reply.success = true)
    (hp : Permitted nd (.appendEntriesReply nodeId arg reply)) :
    ∃ out, handleAppendEntriesReply nd nodeId arg reply = some out ∧ LeadInv c₀ b₀ out.node := by
  obtain ⟨hterm, hack⟩ := hp
  obtain ⟨front, back, hf, hb, -, -⟩ := h.ordered.contiguous.ends
  have ha := hack hsucc back hb
  have hcl := h.length back hb
  have hwn := h.within back hb nodeId
  obtain ⟨m, hm⟩ : ∃ m, m = max (nd.matchIndex nodeId) (arg.prevLogIndex + arg.entries.length) := ⟨_, rfl⟩
  obtain ⟨tmp, htmp⟩ : ∃ tmp, tmp = max (nd.matchIndex nodeId - nd.commitIndex) 0 - 1 := ⟨_, rfl⟩
  obtain ⟨k, hk⟩ : ∃ k, k = (m - nd.commitIndex - 1 - tmp).toNat := ⟨_, rfl⟩
  have hmle : nd.matchIndex nodeId ≤ m := by omega
  have hmb : ∀ b ∈ nd.log.getLast?, m ≤ b.index := fun b hb' => by
    obtain rfl : b = back := Option.some.inj (hb'.symm.trans hb)
    omega
  have hbump : ∀ p : ℕ, bump tmp k p =
      if nd.matchIndex nodeId < nd.commitIndex + p + 1 ∧ nd.commitIndex + p + 1 ≤ m then 1 else 0 := by
    intro p
    unfold bump
    congr 1
    exact propext ⟨fun hx => ⟨by omega, by omega⟩, fun hx => ⟨by omega, by omega⟩⟩
  have htmp0 : -1 ≤ tmp := by omega
  obtain ⟨ci, counts, hrun, hres⟩ := countMatches_exact hf htmp0 k nd.matchCount (by omega)
    (fun p hp => (h.slot hf hp).imp fun e he => ⟨he.2.2.1, he.2.2.2.1⟩)
  obtain ⟨nd₁, hnd₁⟩ : ∃ nd₁ : RaftNode n Command St, nd₁ = { nd with
      matchIndex := Function.update nd.matchIndex nodeId m
      nextIndex := Function.update nd.nextIndex nodeId (m + 1)
      commitIndex := ci
      matchCount := counts } := ⟨_, rfl⟩
  have hhandle : handleAppendEntriesReply nd nodeId arg reply = some ⟨nd₁, (), []⟩ := by
    unfold handleAppendEntriesReply
    rw [if_neg (not_lt.mpr hterm), if_pos h.role, if_pos hsucc]
    simp only [← hm, ← htmp, ← hk, hrun, Option.bind_eq_bind, Option.bind_some, hnd₁]
  have hord := (handleAppendEntriesReply_progress h.ordered hhandle).1
  have hci₁ : nd₁.commitIndex = ci := by rw [hnd₁]
  have hmc₁ : nd₁.matchCount = counts := by rw [hnd₁]
  have hmi₁ : nd₁.matchIndex = Function.update nd.matchIndex nodeId m := by rw [hnd₁]
  refine ⟨_, hhandle, ?_⟩
  obtain ⟨rfl, hcounts, hnone⟩ | ⟨i, hi1, hi2, rfl, hcommit, hcounts, hnone⟩ := hres
  · refine h.acknowledge (d := 0) hord hmle hmb (by rw [hnd₁]) (by rw [hnd₁]) (by rw [hnd₁])
      (by rw [hnd₁]) hmi₁ (by rw [hci₁]; simp) (Nat.zero_le _) (fun p => ?_) (fun p x hx hlt => ?_) ?_
    · rw [hmc₁, hcounts, hci₁, hbump]
      rfl
    · rw [hmc₁, hcounts] at hx
      rw [hci₁] at hlt
      obtain ⟨y, hy, rfl⟩ := Option.map_eq_some_iff.mp hx
      obtain ⟨-, -, -, -, -, hnew⟩ := h.slot hf (List.getElem?_eq_some_iff.mp hy).1
      exact h.small_bump hnew hy hlt (hnone p)
    · rw [hci₁]
      obtain htop | ⟨⟨e, he, hidx, ht⟩, hcard⟩ := h.top
      · exact Or.inl htop
      · refine Or.inr ⟨⟨e, by rw [hnd₁]; exact he, hidx, by rw [hnd₁]; exact ht⟩, ?_⟩
        refine hcard.trans_le (Nat.mul_le_mul_left 2 (Finset.card_le_card (supporters_mono fun j => ?_)))
        rw [hmi₁]
        exact le_update hmle j
  · have hil : i < nd.matchCount.length := by omega
    obtain ⟨x, hx⟩ : ∃ x, nd.matchCount[i]? = some x := ⟨_, List.getElem?_eq_getElem hil⟩
    obtain ⟨e, he, hidx, -, het, hnewi⟩ := h.slot hf hil
    refine h.acknowledge (d := i + 1) hord hmle hmb (by rw [hnd₁]) (by rw [hnd₁]) (by rw [hnd₁])
      (by rw [hnd₁]) hmi₁ (by rw [hci₁]; push_cast; rfl) hil (fun p => ?_) (fun p z hz hlt => ?_) ?_
    · rw [hmc₁, hcounts, hci₁, hbump,
        show nd.commitIndex + ((p + (i + 1) : ℕ) : ℤ) + 1 = nd.commitIndex + (i + 1) + p + 1 by
          push_cast; ring]
    · rw [hmc₁, hcounts] at hz
      rw [hci₁] at hlt
      obtain ⟨y, hy, rfl⟩ := Option.map_eq_some_iff.mp hz
      obtain ⟨-, -, -, -, -, hnew⟩ := h.slot hf (List.getElem?_eq_some_iff.mp hy).1
      exact h.small_bump hnew hy (by push_cast; omega) fun _ => hnone (p + (i + 1)) (by omega)
    · have hmaj := hcommit.2 x hx
      have hN : nd.commitIndex + ((i : ℤ) + 1) = nd.commitIndex + i + 1 := by ring
      have hcard := h.card_supporters hmle hmb hx (hnewi.mp hcommit.1) (by omega) (by omega)
      rw [hci₁, hN]
      refine Or.inr ⟨⟨e, by rw [hnd₁]; exact he, hidx, ?_⟩, ?_⟩
      · rw [hnd₁]
        exact het.trans hcommit.1
      · rw [hmi₁, hcard]
        omega

def leadStep [ChfsStateMachine Command St] (nd : RaftNode n Command St) (e : Event n Command) :
    Option (RaftNode n Command St) :=
  (handle nd e).map (·.1)

theorem LeadInv.step [ChfsStateMachine Command St] (h : LeadInv c₀ b₀ nd) (hn : 2 ≤ n)
    {e : Event n Command} (hp : Permitted nd e) (hs : leadStep nd e = some nd') : LeadInv c₀ b₀ nd' := by
  obtain ⟨⟨nd₁, ops⟩, hh, rfl⟩ := Option.map_eq_some_iff.mp hs
  have hord : Follows e → Reaches nd e → Ordered nd₁ := fun hf hr =>
    ((handle_progress h.ordered hf hh).mp hr).1
  cases e with
  | newCommand cmd =>
    obtain ⟨out, ho, heq⟩ := Option.map_eq_some_iff.mp hh
    cases heq
    exact h.newCommand hn (hord trivial trivial) ho
  | saveSnapshot =>
    obtain ⟨out, ho, heq⟩ := Option.map_eq_some_iff.mp hh
    cases heq
    obtain ⟨front, back, lastLog, log, hf, hb, ⟨-, hat, rfl⟩ | ⟨hlt, -⟩, hnd⟩ := saveSnapshot_cases ho
    · obtain ⟨k, hk, hget⟩ := at?_eq_some hat
      obtain ⟨front', _, hf', -, hnum, -⟩ := h.ordered.contiguous.ends
      obtain rfl : front' = front := Option.some.inj (hf'.symm.trans hf)
      have hlen := (List.getElem?_eq_some_iff.mp hget).1
      have happlied := h.ordered.applied
      have hlog : out.node.log = nd.log.drop k := by
        rw [hnd]
        simp only
        rw [show (nd.lastApplied - front'.index).toNat = k by omega, if_neg (by simpa using hlen)]
      refine h.shrink (hord trivial trivial) (by rw [hnd]) (by rw [hnd]) (by rw [hnd]) (by rw [hnd])
        (by rw [hnd]) (by rw [hnd]) ?_ (fun e he => ?_) fun e he hidx => ?_
      · rw [hlog, List.getLast?_drop, if_neg (by omega)]
      · rw [hlog] at he
        exact List.mem_of_mem_drop he
      · -- the entry at the commit index is not before the last applied one
        obtain ⟨q, hq, heq⟩ := hnum.mem he
        rw [hlog]
        refine List.mem_of_getElem? (i := q - k) ?_
        rw [List.getElem?_drop, show k + (q - k) = q by omega, hq]
    · have := h.ordered.back back hb
      have := h.ordered.applied
      omega
  | apply =>
    obtain ⟨out, ho, heq⟩ := Option.map_eq_some_iff.mp hh
    cases heq
    have hord' := hord trivial trivial
    obtain rfl | ⟨_, _, _, _, _, _, _, _, state, hnd⟩ := runBackgroundApply_cases ho
    · exact h
    · exact h.shrink hord' (by rw [hnd]) (by rw [hnd]) (by rw [hnd]) (by rw [hnd]) (by rw [hnd])
        (by rw [hnd]) (by rw [hnd]) (by rw [hnd]; exact fun e he => he) (by rw [hnd]; exact fun e he _ => he)
  | appendEntriesReply nodeId arg reply =>
    obtain ⟨out, ho, heq⟩ := Option.map_eq_some_iff.mp hh
    cases heq
    cases hsucc : reply.success with
    | true =>
      obtain ⟨out', ho', hinv⟩ := h.appendEntriesReply hsucc hp
      obtain rfl : out' = out := Option.some.inj (ho'.symm.trans ho)
      exact hinv
    | false =>
      have hord' := hord trivial trivial
      unfold handleAppendEntriesReply at ho
      rw [if_neg (not_lt.mpr hp.1), if_pos h.role, if_neg (by simp [hsucc])] at ho
      cases ho
      exact h.shrink hord' rfl rfl rfl rfl rfl rfl rfl (fun e he => he) fun e he _ => he
  | installSnapshotReply nodeId arg reply =>
    cases hh
    exact h.installSnapshotReply hp (hord trivial trivial)
  | requestVote | requestVoteReply | appendEntries | installSnapshot | election => exact hp.elim

end Invariant

section Fronts

theorem commitMessage_snapshot {i : Fin n} {args : InstallSnapshotArgs}
    (hm : commitMessage nd i = some (some (.snapshot args))) :
    ∃ front, nd.log.head? = some front ∧ args.lastIncludedIndex = front.index := by
  obtain ⟨front, hf, hm⟩ := Option.bind_eq_some_iff.mp hm
  obtain ⟨back, -, hm⟩ := Option.bind_eq_some_iff.mp hm
  refine ⟨front, hf, ?_⟩
  split at hm
  case isTrue => cases hm
  case isFalse =>
    split at hm
    case isTrue =>
      split at hm
      case isTrue =>
        obtain ⟨prev, -, hm⟩ := Option.bind_eq_some_iff.mp hm
        cases hm
      case isFalse =>
        cases hm
        rfl
    case isFalse => cases hm

variable [ChfsStateMachine Command St] {c c' : Cluster n Command St}

/-- The front entry of a log stays, is replaced by a later one, or stands for a
snapshot that was received. -/
theorem front_handle {e : Event n Command} {ops : List (StorageOp Command)} (he : Follows e)
    (h : handle nd e = some (nd', ops)) {front : RaftLogEntry Command} (hf : nd'.log.head? = some front) :
    front ∈ nd.log ∨ ∃ arg junk, e = .installSnapshot arg junk ∧ front.index = arg.lastIncludedIndex := by
  have hsame : nd'.log = nd.log → front ∈ nd.log := fun hl => List.mem_of_mem_head? (hl ▸ hf)
  cases e with
  | requestVote args =>
    obtain ⟨out, ho, heq⟩ := Option.map_eq_some_iff.mp h
    cases heq
    refine Or.inl (hsame ?_)
    obtain ⟨hnd, -⟩ | ⟨nd₁, back, hj, -, -, ⟨hnd, -⟩ | ⟨-, -, hnd, -⟩⟩ := requestVote_cases ho
    · rw [hnd]
    · rw [hnd, hj.log]
    · rw [hnd]
      exact hj.log
  | requestVoteReply target arg reply =>
    obtain ⟨out, ho, heq⟩ := Option.map_eq_some_iff.mp h
    cases heq
    refine Or.inl (hsame ?_)
    obtain ⟨-, hnd⟩ | hnd | ⟨-, -, -, -, nd₁, rfl, ⟨-, hnd⟩ | ⟨-, hlead⟩⟩ :=
      handleRequestVoteReply_cases ho
    · rw [hnd]
      rfl
    · rw [hnd]
    · rw [hnd]
    · obtain ⟨back, -, hnd⟩ := becomeLeader_cases hlead
      rw [hnd]
  | appendEntries args =>
    obtain ⟨out, ho, heq⟩ := Option.map_eq_some_iff.mp h
    cases heq
    obtain ⟨-, hnd, -⟩ | ⟨nd₁, hj, ⟨-, hnd, -⟩ | ⟨hprev, log, ops, back, hs, hb, hnd⟩⟩ :=
      appendEntries_cases ho
    · exact Or.inl (hsame (by rw [hnd]))
    · exact Or.inl (hsame (by rw [hnd, hj.log]))
    · have hlog : out.node.log = log := by rw [hnd]
      rw [hlog, (splice_ends hprev he hs hb).1] at hf
      exact Or.inl (List.mem_of_mem_head? hf)
  | appendEntriesReply nodeId arg reply =>
    obtain ⟨out, ho, heq⟩ := Option.map_eq_some_iff.mp h
    cases heq
    refine Or.inl (hsame ?_)
    obtain ⟨-, hnd⟩ | ⟨-, -, -, _, _, _, _, -, -, -, hnd⟩ | ⟨_, hnd⟩ :=
      handleAppendEntriesReply_cases ho
    · rw [hnd]
      rfl
    · rw [hnd]
    · rw [hnd]
  | installSnapshot arg junk =>
    obtain ⟨out, ho, heq⟩ := Option.map_eq_some_iff.mp h
    cases heq
    obtain ⟨-, hnd⟩ | ⟨nd₁, front', hit, -, -, -, hnd⟩ := installSnapshot_cases ho
    · exact Or.inl (hsame (by rw [hnd]))
    · rw [hnd] at hf
      cases hit with
      | false =>
        cases hf
        exact Or.inr ⟨arg, junk, rfl, rfl⟩
      | true => exact Or.inl (List.mem_of_mem_drop (List.mem_of_mem_head? hf))
  | installSnapshotReply nodeId arg reply =>
    cases h
    refine Or.inl (hsame ?_)
    obtain ⟨-, hnd⟩ | hnd | ⟨_, hnd⟩ := handleInstallSnapshotReply_cases nd nodeId arg reply
    · rw [hnd]
      rfl
    · rw [hnd]
    · rw [hnd]
  | newCommand cmd =>
    obtain ⟨out, ho, heq⟩ := Option.map_eq_some_iff.mp h
    cases heq
    obtain ⟨back, hb, hnd⟩ := newCommand_cases ho
    rw [hnd] at hf
    cases hlog : nd.log with
    | nil =>
      rw [hlog] at hb
      cases hb
    | cons x tl =>
      simp only [hlog, List.cons_append, List.head?_cons, Option.some.injEq] at hf
      exact Or.inl (hf ▸ List.mem_cons_self)
  | saveSnapshot =>
    obtain ⟨out, ho, heq⟩ := Option.map_eq_some_iff.mp h
    cases heq
    obtain ⟨front', back, lastLog, log, -, hb, hcase, hnd⟩ := saveSnapshot_cases ho
    rw [hnd] at hf
    refine Or.inl ?_
    obtain ⟨-, hat, rfl⟩ | ⟨-, rfl, rfl⟩ := hcase
    · split at hf
      · cases hf
        obtain ⟨k, -, hget⟩ := at?_eq_some hat
        exact List.mem_of_getElem? hget
      · exact List.mem_of_mem_drop (List.mem_of_mem_head? hf)
    · cases hf
      exact List.mem_of_getLast? hb
  | election =>
    obtain ⟨out, ho, heq⟩ := Option.map_eq_some_iff.mp h
    cases heq
    obtain ⟨-, hnd, -⟩ | ⟨back, -, hnd, -⟩ := runBackgroundElection_cases ho
    · exact Or.inl (hsame (by rw [hnd]))
    · exact Or.inl (hsame (by rw [hnd]))
  | apply =>
    obtain ⟨out, ho, heq⟩ := Option.map_eq_some_iff.mp h
    cases heq
    obtain rfl | ⟨_, _, _, _, _, _, _, _, _, hst⟩ := runBackgroundApply_cases ho
    · exact Or.inl (hsame rfl)
    · exact Or.inl (hsame (by rw [hst]))

structure Nonneg (c : Cluster n Command St) : Prop where
  fronts : ∀ i, ∀ front ∈ (c.nodes i).log.head?, 0 ≤ front.index
  snapshots : ∀ s d args held, .snapshotRequest s d args held ∈ c.net → 0 ≤ args.lastIncludedIndex

theorem Nonneg.step (h : Nonneg c) (hlogs : LogsInv c) {a : Action n Command} (hs : c.step a = some c') :
    Nonneg c' := by
  constructor
  case fronts =>
    by_cases hr : ∃ i, a = .restart i
    · obtain ⟨i, rfl⟩ := hr
      obtain ⟨nd, hnd, hs⟩ := Option.bind_eq_some_iff.mp hs
      obtain ⟨front, -, hnd⟩ := Option.bind_eq_some_iff.mp hnd
      cases hnd
      cases hs
      intro j
      by_cases hj : j = i
      · subst hj
        simp only [Cluster.setNode, Function.update_self]
        exact h.fronts j
      · simp only [Cluster.setNode, Function.update_of_ne hj]
        exact h.fronts j
    · obtain ⟨-, hn⟩ | ⟨i, e, nd, ops, he, hh, hn⟩ := Disks.step_event (fun i heq => hr ⟨i, heq⟩) hs
      · exact hn ▸ h.fronts
      · intro j front hf
        rw [hn] at hf
        by_cases hj : j = i
        · subst hj
          rw [Function.update_self] at hf
          obtain hmem | ⟨arg, junk, rfl, hidx⟩ := front_handle (hlogs.follows he) hh hf
          · obtain ⟨front', -, hf', -, hnum, -⟩ := (hlogs.logs j).ends
            obtain ⟨k, -, hidx⟩ := hnum.mem hmem
            have := h.fronts j front' hf'
            omega
          · rw [hidx]
            cases a with
            | deliver k junk' =>
              obtain ⟨p, hp, hrec⟩ := Option.map_eq_some_iff.mp he
              cases p with
              | snapshotRequest s d args' held =>
                cases hrec
                exact h.snapshots s _ _ held (List.mem_of_getElem? hp)
              | _ => cases hrec
            | commandAppend k =>
              obtain ⟨call, -, hrec⟩ := Option.map_eq_some_iff.mp he
              cases hrec
            | _ => cases he
        · rw [Function.update_of_ne hj] at hf
          exact h.fronts j front hf
  case snapshots =>
    intro s d args held hp
    obtain hp | hm | hm := packet_of_step (m := .snapshot args) hs hp
    · exact h.snapshots s d args held hp
    · obtain ⟨front, hf, hidx⟩ := commitMessage_snapshot hm
      rw [hidx]
      exact h.fronts s front hf
    · obtain ⟨front, -, hm⟩ := Option.bind_eq_some_iff.mp hm
      split at hm
      · cases hm
      · obtain ⟨prev, -, hm⟩ := Option.bind_eq_some_iff.mp hm
        cases hm

end Fronts

section Elections

variable [ChfsCommand Command] [ChfsStateMachine Command St] {c : Cluster n Command St}

theorem nonneg_of_reachable {ok : Cluster n Command St → Action n Command → Prop}
    (h : Reachable ok c) : Nonneg c := by
  refine (h.invariant (I := fun c => LogsInv c ∧ Nonneg c) ⟨logsInv_init, ?_, ?_⟩
    fun s a t hi _ hs => ⟨hi.1.step hs, hi.2.step hi.1 hs⟩).2
  · rintro i front ⟨⟩
    exact le_refl _
  · exact fun _ _ _ _ hp => absurd hp List.not_mem_nil

/-- A leader that had no uncommitted entry of its term when it was elected
commits by the rule of the protocol, and its loop reads inside of
`matchCount`, whatever it is asked and answered. -/
theorem followsRule_of_fresh (hn : 2 ≤ n) (hc : Reachable (fun _ _ => True) c) {i target : Fin n}
    {arg : RequestVoteArgs} {reply : RequestVoteReply} {out : Outcome n Command St Unit}
    (hel : handleRequestVoteReply (c.nodes i) target arg reply = some out)
    (hcand : (c.nodes i).role ≠ .leader) (hlead : out.node.role = .leader) (hfresh : Fresh (c.nodes i))
    {nd : RaftNode n Command St} (hrun : Reach leadStep Permitted out.node nd) :
    FollowsRule out.node.commitIndex nd ∧
      (∀ back ∈ nd.log.getLast?, (nd.matchCount.length : ℤ) = back.index - nd.commitIndex) ∧
      ∀ nodeId arg reply, Permitted nd (.appendEntriesReply nodeId arg reply) → reply.success →
        (∀ i ∈ loopRange nd nodeId arg, 0 ≤ i ∧ i < nd.matchCount.length) ∧
          (handleAppendEntriesReply nd nodeId arg reply).isSome := by
  obtain ⟨-, hnd⟩ | hnd | ⟨-, -, -, -, nd₁, hnd₁, ⟨-, hnd⟩ | ⟨-, hbl⟩⟩ := handleRequestVoteReply_cases hel
  · rw [hnd] at hlead
    cases hlead
  · exact absurd (hnd ▸ hlead) hcand
  · rw [hnd, hnd₁] at hlead
    exact absurd hlead hcand
  · have hpos : 0 ≤ (c.nodes i).commitIndex := by
      obtain ⟨front, -, hf, -⟩ := hfresh.ordered.contiguous.ends
      have h0 := (nonneg_of_reachable hc).fronts i front hf
      have h1 := hfresh.ordered.front front hf
      have h2 := hfresh.ordered.applied
      omega
    have hfresh₁ : Fresh nd₁ := by
      refine ⟨(hfresh.ordered.congr ?_ ?_ ?_).1, ?_⟩
      · rw [hnd₁]
      · rw [hnd₁]
      · rw [hnd₁]
      · rw [hnd₁]
        exact hfresh.noOwn
    obtain ⟨b₀, hinv₀⟩ := leadInv_of_becomeLeader hfresh₁ (by rw [hnd₁]; exact hpos) hbl
    have hinv : LeadInv out.node.commitIndex b₀ nd :=
      hrun.invariant hinv₀ fun s e t hi hp hs => hi.step hn hp hs
    refine ⟨hinv.followsRule, hinv.length, fun nodeId arg reply hp hsucc => ⟨fun k hk => ?_, ?_⟩⟩
    · exact hinv.loopRange (hp.2 hsucc) hk
    · obtain ⟨out', ho, -⟩ := hinv.appendEntriesReply hsucc hp
      rw [ho]
      rfl

end Elections

def ledRun (as : List (Action 3 ListCommand)) (k : ℕ) (es : List (Event 3 ListCommand)) :
    Option (Cluster 3 ListCommand ListStateMachine × Fin 3 ×
      Outcome 3 ListCommand ListStateMachine Unit × RaftNode 3 ListCommand ListStateMachine) := do
  let c ← exec Cluster.step (init 3 ListCommand ListStateMachine) as
  let p ← c.net[k]?
  match p with
  | .voteReply i target arg reply => do
    let out ← handleRequestVoteReply (c.nodes i) target arg reply
    let nd ← execOk leadStep (fun nd e => decide (Permitted nd e)) out.node es
    some (c, i, out, nd)
  | _ => none

theorem ledRun_spec {as : List (Action 3 ListCommand)} {k : ℕ} {es : List (Event 3 ListCommand)}
    {c : Cluster 3 ListCommand ListStateMachine} {i : Fin 3}
    {out : Outcome 3 ListCommand ListStateMachine Unit} {nd : RaftNode 3 ListCommand ListStateMachine}
    (h : ledRun as k es = some (c, i, out, nd)) : Reachable (fun _ _ => True) c ∧
      (∃ target arg reply, .voteReply i target arg reply ∈ c.net ∧
        handleRequestVoteReply (c.nodes i) target arg reply = some out) ∧
      Reach leadStep Permitted out.node nd := by
  obtain ⟨c', hc, h⟩ := Option.bind_eq_some_iff.mp h
  obtain ⟨p, hp, h⟩ := Option.bind_eq_some_iff.mp h
  cases p with
  | voteReply j target arg reply =>
    obtain ⟨out', ho, h⟩ := Option.bind_eq_some_iff.mp h
    obtain ⟨nd', hn, h⟩ := Option.bind_eq_some_iff.mp h
    cases h
    exact ⟨reach_of_exec hc, ⟨target, arg, reply, List.mem_of_getElem? hp, ho⟩,
      reach_of_execOk (fun s a h => of_decide_eq_true h) hn⟩
  | _ => cases h

def firstEvents : List (Event 3 ListCommand) :=
  [.newCommand ⟨7⟩, .appendEntriesReply 1 ⟨1, 0, 0, 0, [⟨1, 1, ⟨7⟩⟩], 0⟩ ⟨1, true⟩, .apply, .saveSnapshot]

theorem followsRule_firstEvents : ∃ (out : Outcome 3 ListCommand ListStateMachine Unit)
    (nd : RaftNode 3 ListCommand ListStateMachine), Reach leadStep Permitted out.node nd ∧
      nd.commitIndex = 1 ∧ FollowsRule 0 nd := by
  obtain ⟨⟨c, i, out, nd⟩, hrun⟩ : ∃ x, ledRun [.election 0, .deliver 0 ⟨0⟩] 1 firstEvents = some x :=
    Option.isSome_iff_exists.mp (by decide +kernel)
  obtain ⟨hc, ⟨target, arg, reply, -, hel⟩, hlead⟩ := ledRun_spec hrun
  have hcand : (ledRun [.election 0, .deliver 0 ⟨0⟩] 1 firstEvents).map (fun x =>
      ((x.1.nodes x.2.1).role, (x.1.nodes x.2.1).log, (x.1.nodes x.2.1).commitIndex,
        (x.1.nodes x.2.1).lastApplied)) = some (.candidate, [⟨0, 0, ⟨0⟩⟩], 0, 0) := by decide +kernel
  have hled : (ledRun [.election 0, .deliver 0 ⟨0⟩] 1 firstEvents).map (fun x =>
      (x.2.2.1.node.role, x.2.2.1.node.commitIndex, x.2.2.2.commitIndex)) = some (.leader, 0, 1) := by
    decide +kernel
  rw [hrun] at hcand hled
  simp only [Option.map_some, Option.some.injEq, Prod.mk.injEq] at hcand hled
  obtain ⟨hrole, hlog, hci, hla⟩ := hcand
  obtain ⟨hrole', hci', hfin⟩ := hled
  have hord : Ordered (c.nodes i) := (Ordered.congr (ordered_create 0) hlog hci hla).1
  have hfresh : Fresh (c.nodes i) := by
    refine ⟨hord, fun e he hlt => ?_⟩
    rw [hlog] at he
    obtain rfl := List.mem_singleton.mp he
    rw [hci] at hlt
    exact absurd hlt (by decide)
  have hrule := (followsRule_of_fresh (by decide) hc hel (by rw [hrole]; decide) hrole' hfresh hlead).1
  rw [hci'] at hrule
  exact ⟨out, nd, hlead, hfin, hrule⟩

def againRun : List (Action 3 ListCommand) :=
  [.election 0, .deliver 0 ⟨0⟩, .deliver 1 ⟨0⟩, .ping 0, .election 1, .deliver 3 ⟨0⟩, .election 0,
    .deliver 5 ⟨0⟩, .deliver 6 ⟨0⟩, .commandTest 0 ⟨7⟩, .commandAppend 0, .election 2, .election 2,
    .election 2, .election 2, .deliver 2 ⟨0⟩, .deliver 13 ⟨0⟩, .election 0, .election 0, .deliver 15 ⟨0⟩]

def againEvents : List (Event 3 ListCommand) :=
  [.appendEntriesReply 1 ⟨3, 0, 0, 0, [⟨1, 3, ⟨7⟩⟩], 0⟩ ⟨3, true⟩]

/-- The entry of term 3 is on two of three nodes and its leader does not commit
it: the count of an inherited entry does not include the leader. -/
theorem not_followsRule_againRun : ¬ ∀ (c : Cluster 3 ListCommand ListStateMachine) (i target : Fin 3)
    (arg : RequestVoteArgs) (reply : RequestVoteReply) (out : Outcome 3 ListCommand ListStateMachine Unit)
    (nd : RaftNode 3 ListCommand ListStateMachine), Reachable (fun _ _ => True) c →
    .voteReply i target arg reply ∈ c.net →
    handleRequestVoteReply (c.nodes i) target arg reply = some out →
    (c.nodes i).role ≠ .leader → out.node.role = .leader → Reach leadStep Permitted out.node nd →
    FollowsRule out.node.commitIndex nd := by
  intro hall
  obtain ⟨⟨c, i, out, nd⟩, hrun⟩ : ∃ x, ledRun againRun 16 againEvents = some x :=
    Option.isSome_iff_exists.mp (by decide +kernel)
  obtain ⟨hc, ⟨target, arg, reply, hp, hel⟩, hlead⟩ := ledRun_spec hrun
  have hroles : (ledRun againRun 16 againEvents).map (fun x =>
      ((x.1.nodes x.2.1).role, x.2.2.1.node.role)) = some (.candidate, .leader) := by decide +kernel
  have hled : (ledRun againRun 16 againEvents).map (fun x => (x.2.2.2.commitIndex, x.2.2.2.currentTerm,
      x.2.2.2.log)) = some (0, 3, [⟨0, 0, ⟨0⟩⟩, ⟨1, 3, ⟨7⟩⟩]) := by decide +kernel
  have hacks : (ledRun againRun 16 againEvents).map (fun x => (supporters x.2.2.2.matchIndex 1).card) =
      some 2 := by decide +kernel
  rw [hrun] at hroles hled hacks
  simp only [Option.map_some, Option.some.injEq, Prod.mk.injEq] at hroles hled hacks
  obtain ⟨hci, hterm, hlog⟩ := hled
  have hrule := hall c i target arg reply out nd hc hp hel (by rw [hroles.1]; decide) hroles.2 hlead
  have hmaj : Majority nd 1 := by
    refine ⟨⟨⟨1, 3, ⟨7⟩⟩, by rw [hlog]; decide, rfl, hterm.symm⟩, ?_⟩
    rw [hacks]
    decide
  have hle := hrule.2 (Or.inr hmaj)
  rw [hci] at hle
  exact absurd hle (by decide)

end Chfs.Raft.CommitRule
