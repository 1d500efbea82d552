import Mathlib.Data.Nat.Digits.Lemmas
import Chfs.Raft.Progress

namespace Chfs.Raft.Snapshots

open Protocol Node Handlers Storage FullLog Splicing Subscripts Progress
open Persistence (Machine Event InStep)

section Text

def decimals (k : ℕ) : List ℕ := if k = 0 then [0] else (Nat.digits 10 k).reverse

theorem printNat_eq (k : ℕ) : printNat k = (decimals k).map fun d => UInt8.ofNat (48 + d) := by
  unfold printNat decimals
  split
  · rfl
  · rfl

theorem decimals_lt {k d : ℕ} (h : d ∈ decimals k) : d < 10 := by
  unfold decimals at h
  split at h
  case isTrue =>
    obtain rfl := List.mem_singleton.mp h
    decide
  case isFalse => exact Nat.digits_lt_base (by decide) (List.mem_reverse.mp h)

theorem decimals_ne_nil (k : ℕ) : decimals k ≠ [] := by
  unfold decimals
  split
  case isTrue => exact List.cons_ne_nil _ _
  case isFalse hk =>
    rw [Ne, List.reverse_eq_nil_iff, Nat.digits_eq_nil_iff_eq_zero]
    exact hk

theorem foldl_decimals (k : ℕ) : (decimals k).foldl (fun a d => 10 * a + d) 0 = k := by
  unfold decimals
  split
  case isTrue hk => exact hk.symm
  case isFalse =>
    have hfun : (fun d a => 10 * a + d : ℕ → ℕ → ℕ) = fun d a => d + 10 * a := by
      funext d a
      omega
    rw [List.foldl_reverse, hfun]
    have h := Nat.ofDigits_digits 10 k
    rwa [Nat.ofDigits_eq_foldr] at h

def EndsNumber (rest : List UInt8) : Prop := ∀ b ∈ rest.head?, ¬ (48 ≤ b ∧ b ≤ 57)

theorem readDigits_append {ds : List ℕ} (hd : ∀ d ∈ ds, d < 10) (acc : ℕ) {rest : List UInt8}
    (hrest : EndsNumber rest) : readDigits acc (ds.map (fun d => UInt8.ofNat (48 + d)) ++ rest) =
      (ds.foldl (fun a d => 10 * a + d) acc, rest) := by
  induction ds generalizing acc with
  | nil =>
    cases rest with
    | nil => rfl
    | cons b bs =>
      have hb := hrest b rfl
      rw [List.map_nil, List.nil_append, readDigits, if_neg hb, List.foldl_nil]
  | cons d ds ih =>
    have hlt := hd d List.mem_cons_self
    have hdigit : ∀ d < 10, (48 ≤ UInt8.ofNat (48 + d) ∧ UInt8.ofNat (48 + d) ≤ 57) ∧
        (UInt8.ofNat (48 + d)).toNat - 48 = d := by decide
    rw [List.map_cons, List.cons_append, readDigits, if_pos (hdigit d hlt).1, (hdigit d hlt).2,
      ih fun x hx => hd x (List.mem_cons_of_mem _ hx)]
    rfl

theorem printNat_head (k : ℕ) : ∃ b bs, printNat k = b :: bs ∧ 48 ≤ b ∧ b ≤ 57 := by
  obtain ⟨d, ds, hds⟩ := List.exists_cons_of_ne_nil (decimals_ne_nil k)
  have hlt : d < 10 := decimals_lt (hds ▸ List.mem_cons_self)
  have hdigit : ∀ d < 10, 48 ≤ UInt8.ofNat (48 + d) ∧ UInt8.ofNat (48 + d) ≤ 57 := by decide
  exact ⟨_, _, by rw [printNat_eq, hds, List.map_cons], hdigit d hlt⟩

theorem readDigits_printNat (k : ℕ) {rest : List UInt8} (hrest : EndsNumber rest) :
    readDigits 0 (printNat k ++ rest) = (k, rest) := by
  rw [printNat_eq, readDigits_append (fun d hd => decimals_lt hd) 0 hrest, foldl_decimals]

theorem readInt_printInt (x : ℤ) (blanks : List UInt8) {rest : List UInt8} (hb : ∀ b ∈ blanks, b = 32)
    (hrest : EndsNumber rest) : readInt (blanks ++ printInt x ++ rest) = (x, rest) := by
  have hskip : ∀ b bs, b ≠ 32 → (blanks ++ b :: bs).dropWhile (· == 32) = b :: bs := by
    intro b bs hne
    rw [List.dropWhile_append_of_pos (fun a ha => by simp [hb a ha]), List.dropWhile_cons_of_neg (by simpa using hne)]
  obtain ⟨b, bs, hnat, hdigit, -⟩ := printNat_head x.natAbs
  have hne32 : b ≠ 32 := by
    rintro rfl
    exact absurd hdigit (by decide)
  have hne45 : b ≠ 45 := by
    rintro rfl
    exact absurd hdigit (by decide)
  have hread := readDigits_printNat x.natAbs hrest
  unfold printInt
  split
  case isTrue hneg =>
    rw [List.append_assoc, List.cons_append, readInt, hskip 45 _ (by decide)]
    simp only [hread]
    rw [show -(x.natAbs : ℤ) = x by omega]
  case isFalse hpos =>
    rw [hnat, List.append_assoc, List.cons_append, readInt, hskip b _ hne32]
    rw [hnat, List.cons_append] at hread
    split
    case h_1 rest' heq => exact absurd (List.cons.inj heq).1 hne45
    case h_2 =>
      rw [hread]
      simp only [Prod.mk.injEq, and_true]
      omega

theorem endsNumber_flatMap (vs : List ℤ) : EndsNumber (vs.flatMap fun v => 32 :: printInt v) := by
  cases vs with
  | nil => exact fun b hb => by cases hb
  | cons v vs =>
    rintro b ⟨⟩
    decide

theorem readInts_flatMap (vs : List ℤ) :
    readInts vs.length (vs.flatMap fun v => 32 :: printInt v) = vs := by
  induction vs with
  | nil => rfl
  | cons v vs ih =>
    have hread := readInt_printInt v [32] (fun b hb => List.mem_singleton.mp hb)
      (endsNumber_flatMap vs)
    rw [List.flatMap_cons, List.length_cons, readInts]
    simp only [List.cons_append, List.nil_append] at hread ⊢
    rw [hread, ih]

theorem applySnapshot_snapshot (s s' : ListStateMachine) :
    (ChfsStateMachine.applySnapshot s' (ChfsStateMachine.snapshot s)).store = s.store := by
  have hread := readInt_printInt s.store.length [] (fun b hb => absurd hb List.not_mem_nil)
    (endsNumber_flatMap s.store)
  rw [List.nil_append] at hread
  simp only [ChfsStateMachine.applySnapshot, ChfsStateMachine.snapshot]
  rw [hread, Int.toNat_natCast, readInts_flatMap]

theorem snapshot_ne_nil (s : ListStateMachine) : ChfsStateMachine.snapshot s ≠ [] := by
  obtain ⟨b, bs, hnat, -⟩ := printNat_head s.store.length
  have hpos : ¬ (s.store.length : ℤ) < 0 := by omega
  simp only [ChfsStateMachine.snapshot, printInt, if_neg hpos, Int.natAbs_natCast, hnat]
  exact List.cons_ne_nil _ _

end Text

section Entries

variable {Command : Type} {l : Log Command} {start lo mid hi : ℤ}

def between (log : Log Command) (lo hi : ℤ) : Log Command :=
  log.filter fun e => lo < e.index ∧ e.index ≤ hi

theorem between_eq_behind (log : Log Command) (lo hi : ℤ) :
    between log lo hi = (behind log lo).filter fun e => e.index ≤ hi := by
  unfold between behind
  rw [List.filter_filter]
  congr 1
  funext e
  rw [Bool.decide_and, Bool.and_comm]

theorem filter_le_eq_take (h : Numbered start l) :
    (l.filter fun e => e.index ≤ hi) = l.take (hi + 1 - start).toNat := by
  have hsplit := List.take_append_drop (hi + 1 - start).toNat l
  have htake : ((l.take (hi + 1 - start).toNat).filter fun e => e.index ≤ hi) =
      l.take (hi + 1 - start).toNat := by
    apply List.filter_eq_self.mpr
    intro e he
    obtain ⟨k, hk⟩ := List.mem_iff_getElem?.mp he
    have hlt := (List.getElem?_eq_some_iff.mp hk).1
    rw [List.length_take] at hlt
    rw [List.getElem?_take_of_lt (by omega)] at hk
    have := h k e hk
    simp only [decide_eq_true_eq]
    omega
  have hdrop : ((l.drop (hi + 1 - start).toNat).filter fun e => e.index ≤ hi) = [] := by
    apply List.filter_eq_nil_iff.mpr
    intro e he
    obtain ⟨k, hk, hidx⟩ := (h.drop _).mem he
    have hlt := (List.getElem?_eq_some_iff.mp hk).1
    simp only [decide_eq_true_eq]
    omega
  conv_lhs => rw [← hsplit]
  rw [List.filter_append, htake, hdrop, List.append_nil]

theorem Numbered.between_eq (h : Numbered start l) (hlo : start ≤ lo) (hle : lo ≤ hi) :
    between l lo hi = (l.drop (lo + 1 - start).toNat).take (hi - lo).toNat := by
  have hnum := h.drop (lo + 1 - start).toNat
  rw [show start + ((lo + 1 - start).toNat : ℤ) = lo + 1 by omega] at hnum
  rw [between_eq_behind, h.behind_eq hlo, filter_le_eq_take hnum,
    show (hi + 1 - (lo + 1)).toNat = (hi - lo).toNat by omega]

theorem between_empty (log : Log Command) (hle : hi ≤ lo) : between log lo hi = [] := by
  apply List.filter_eq_nil_iff.mpr
  intro e _
  simp only [decide_eq_true_eq]
  omega

theorem between_append (h : Numbered start l) (hlo : start ≤ lo) (h1 : lo ≤ mid) (h2 : mid ≤ hi) :
    between l lo mid ++ between l mid hi = between l lo hi := by
  rw [Numbered.between_eq h hlo h1, Numbered.between_eq h (by omega) h2,
    Numbered.between_eq h hlo (by omega),
    show (hi - lo).toNat = (mid - lo).toNat + (hi - mid).toNat by omega, List.take_add, List.drop_drop,
    show (mid + 1 - start).toNat = (lo + 1 - start).toNat + (mid - lo).toNat by omega]

end Entries

variable {n : ℕ}

/-- The store that a snapshot stands for. -/
def snapshotStore (snapshot : List UInt8) : List ℤ :=
  if snapshot.isEmpty then (ChfsStateMachine.create : ListStateMachine).store
  else (ChfsStateMachine.applySnapshot (ChfsStateMachine.create : ListStateMachine) snapshot).store

/-- The store holds what the snapshot covers and the applied entries behind it. -/
def StoreIs (nd : RaftNode n ListCommand ListStateMachine) : Prop :=
  ∀ front ∈ nd.log.head?, nd.state.store = snapshotStore nd.snapshot ++
    (between nd.log front.index nd.lastApplied).map (·.cmd.value)

/-- An iteration of `run_background_apply` that finds the commit index `N`. -/
def applyTo (nd : RaftNode n ListCommand ListStateMachine) (N : ℤ) :
    Option (RaftNode n ListCommand ListStateMachine) :=
  (runBackgroundApply { nd with commitIndex := N }).map (·.1)

section Apply

variable {nd : RaftNode n ListCommand ListStateMachine} {front back : RaftLogEntry ListCommand}

theorem foldl_applyLog (es : Log ListCommand) (s : ListStateMachine) :
    (es.foldl (fun s e => ChfsStateMachine.applyLog s e.cmd) s).store =
      s.store ++ es.map (·.cmd.value) := by
  induction es generalizing s with
  | nil => simp
  | cons e es ih =>
    rw [List.foldl_cons, ih]
    simp [ChfsStateMachine.applyLog]

theorem applyTo_spec (hlog : Contiguous nd.log) (hf : nd.log.head? = some front)
    (hb : nd.log.getLast? = some back) (hfront : front.index ≤ nd.lastApplied) {N : ℤ}
    (hN : N ≤ back.index) : ∃ nd', applyTo nd N = some nd' ∧ nd'.log = nd.log ∧
      nd'.lastApplied = max nd.lastApplied N ∧
      nd'.state.store = nd.state.store ++ (between nd.log nd.lastApplied N).map (·.cmd.value) := by
  obtain ⟨front', -, hf', -, hnum, -⟩ := hlog.ends
  obtain rfl : front' = front := Option.some.inj (hf'.symm.trans hf)
  unfold applyTo runBackgroundApply
  simp only [hf, hb, Option.bind_eq_bind, Option.bind_some]
  split
  case isTrue hlt =>
    rw [if_pos ⟨by omega, hN⟩]
    refine ⟨_, rfl, rfl, (max_eq_right hlt.le).symm, ?_⟩
    rw [foldl_applyLog, Numbered.between_eq hnum hfront hlt.le]
  case isFalse hle =>
    refine ⟨_, rfl, rfl, (max_eq_left (not_lt.mp hle)).symm, ?_⟩
    rw [between_empty _ (not_lt.mp hle)]
    simp

/-- However the entries are split over the iterations, the store gets all of
them up to the last commit index. -/
theorem foldlM_applyTo (Ns : List ℤ) (hlog : Contiguous nd.log) (hf : nd.log.head? = some front)
    (hb : nd.log.getLast? = some back) (hfront : front.index ≤ nd.lastApplied)
    (hN : ∀ N ∈ Ns, N ≤ back.index) : ∃ nd', Ns.foldlM applyTo nd = some nd' ∧
      nd'.state.store = nd.state.store ++
        (between nd.log nd.lastApplied (Ns.foldl max nd.lastApplied)).map (·.cmd.value) := by
  induction Ns generalizing nd with
  | nil =>
    refine ⟨nd, rfl, ?_⟩
    rw [List.foldl_nil, between_empty _ (le_refl _)]
    simp
  | cons N Ns ih =>
    obtain ⟨nd₁, h1, hlog₁, hla₁, hst₁⟩ := applyTo_spec hlog hf hb hfront (hN N List.mem_cons_self)
    have hge : nd.lastApplied ≤ nd₁.lastApplied := hla₁ ▸ le_max_left _ _
    have hlog' : Contiguous nd₁.log := hlog₁ ▸ hlog
    obtain ⟨nd₂, h2, hst₂⟩ := ih hlog' (hlog₁ ▸ hf) (hlog₁ ▸ hb) (hfront.trans hge)
      fun x hx => hN x (List.mem_cons_of_mem _ hx)
    refine ⟨nd₂, ?_, ?_⟩
    · rw [List.foldlM_cons, h1, Option.bind_eq_bind, Option.bind_some, h2]
    · obtain ⟨front', -, hf', -, hnum, -⟩ := hlog.ends
      obtain rfl : front' = front := Option.some.inj (hf'.symm.trans hf)
      have hmono : ∀ (l : List ℤ) (x : ℤ), x ≤ l.foldl max x := by
        intro l
        induction l with
        | nil => exact fun x => le_refl x
        | cons y l ihl => exact fun x => (le_max_left x y).trans (ihl _)
      have hbetween : between nd.log nd.lastApplied N = between nd.log nd.lastApplied nd₁.lastApplied := by
        rw [hla₁]
        obtain hle | hle := le_total nd.lastApplied N
        · rw [max_eq_right hle]
        · rw [max_eq_left hle, between_empty _ hle, between_empty _ (le_refl _)]
      rw [hst₂, hst₁, hlog₁, List.foldl_cons, ← hla₁, hbetween, List.append_assoc, ← List.map_append,
        between_append hnum hfront hge (hmono _ _)]

end Apply

section Restart

variable {nd : RaftNode n ListCommand ListStateMachine}

/-- `save_snapshot` cuts the log at the last applied entry. -/
theorem saveSnapshot_eq (hord : Ordered nd) : ∃ out, ∃ k : ℕ, ∃ front,
    saveSnapshot nd = some out ∧ nd.log.head? = some front ∧ front.index + k = nd.lastApplied ∧
      k < nd.log.length ∧ out.node = { nd with
        snapshot := ChfsStateMachine.snapshot nd.state, log := nd.log.drop k } := by
  obtain ⟨front, back, hf, hb, hnum, hlen⟩ := hord.contiguous.ends
  have h1 := hord.front front hf
  have h2 := hord.applied
  have h3 := hord.back back hb
  obtain ⟨k, hk⟩ : ∃ k : ℕ, nd.lastApplied - front.index = k :=
    ⟨(nd.lastApplied - front.index).toNat, by omega⟩
  have hlt : k < nd.log.length := by omega
  have hne : ¬ (nd.log.drop k).isEmpty := by simpa using hlt
  unfold saveSnapshot
  simp only [hf, hb, Option.bind_eq_bind, Option.bind_some, if_pos (h2.trans h3), hk, at?_natCast,
    List.getElem?_eq_getElem hlt, Option.map_some, Int.toNat_natCast]
  refine ⟨_, k, front, rfl, rfl, by omega, hlt, ?_⟩
  simp only
  rw [if_neg hne]

theorem saveSnapshot_store (hord : Ordered nd) : ∃ out,
    saveSnapshot nd = some out ∧ Ordered out.node ∧ StoreIs out.node ∧
      (∀ front ∈ out.node.log.head?, front.index = nd.lastApplied) ∧
      out.node.log.getLast? = nd.log.getLast? ∧
      behind out.node.log nd.lastApplied = behind nd.log nd.lastApplied ∧
      out.node.lastApplied = nd.lastApplied ∧ out.node.state = nd.state ∧ out.node.myId = nd.myId ∧
      out.node.log.length ≤ nd.log.length ∧
      out.node.snapshot = ChfsStateMachine.snapshot nd.state := by
  obtain ⟨out, k, front, hs, hf, hk, hlt, hnd⟩ := saveSnapshot_eq hord
  obtain ⟨front', -, hf', -, hnum, -⟩ := hord.contiguous.ends
  obtain rfl : front' = front := Option.some.inj (hf'.symm.trans hf)
  have hlog : out.node.log = nd.log.drop k := by rw [hnd]
  have hhead : ∀ front ∈ out.node.log.head?, front.index = nd.lastApplied := by
    intro e he
    rw [hlog, List.head?_drop] at he
    have := hnum k e he
    omega
  refine ⟨out, hs, (saveSnapshot_progress hord hs).1, ?_, hhead, ?_, ?_, by rw [hnd], by rw [hnd],
    by rw [hnd], by rw [hlog, List.length_drop]; omega, by rw [hnd]⟩
  · intro e he
    have hempty : between out.node.log e.index out.node.lastApplied = [] := by
      apply between_empty
      rw [hhead e he, hnd]
    rw [hempty, List.map_nil, List.append_nil, snapshotStore, hnd, if_neg]
    · exact (applySnapshot_snapshot nd.state _).symm
    · simpa using snapshot_ne_nil nd.state
  · rw [hlog, List.getLast?_drop, if_neg (by omega)]
  · have hdrop := hnum.drop k
    rw [hlog, hdrop.behind_eq (by omega), hnum.behind_eq (by omega), List.drop_drop]
    congr 1
    omega

/-- A node that takes a snapshot and is restarted from its device computes the
same stores as the node that goes on. -/
theorem saveSnapshot_restart {m : Machine n ListCommand ListStateMachine} (hm : InStep m)
    (hord : Ordered m.node)
    (hlen : (ChfsStateMachine.snapshot m.node.state).length ≤ diskBlockSize) (fresh : ListCommand) :
    ∃ m' m'' : Machine n ListCommand ListStateMachine,
      m.step (.event .saveSnapshot) = some m' ∧ Ordered m'.node ∧ StoreIs m'.node ∧
      (∀ front ∈ m'.node.log.head?, front.index = m.node.lastApplied) ∧
      m'.node.log.getLast? = m.node.log.getLast? ∧
      behind m'.node.log m.node.lastApplied = behind m.node.log m.node.lastApplied ∧
      m'.step (.restart fresh) = some m'' ∧
      ∀ Ns Ns' : List ℤ, (∀ N ∈ Ns ++ Ns', ∀ back ∈ m.node.log.getLast?, N ≤ back.index) →
        Ns.foldl max m.node.lastApplied = Ns'.foldl max m.node.lastApplied →
        ∃ nd nd'', Ns.foldlM applyTo m.node = some nd ∧ Ns'.foldlM applyTo m''.node = some nd'' ∧
          nd''.state.store = nd.state.store := by
  obtain ⟨out, hs, hord', hstore', hhead, hlast, hbehind, hla, hstate, hid, hlogle, hsnap⟩ :=
    saveSnapshot_store hord
  have hkeeps := Persistence.saveSnapshot_keeps hs
  have htyped : (Persistence.saved m.node).Typed := hm.saved ▸ hm.persisted.fits.toTyped
  have hroom : (Persistence.saved out.node).Room := by
    have hfits : (Persistence.saved m.node).Fits := hm.saved ▸ hm.persisted.fits
    refine ⟨?_, by rw [Persistence.saved, hsnap]; exact hlen⟩
    have := hfits.log
    simp only [Persistence.saved] at this ⊢
    omega
  obtain ⟨st, hup, hst, hsaved⟩ := updates_spec hm.persisted (p := Persistence.saved m.node)
    (q := Persistence.saved out.node) (Or.inl (congrArg Saved.log hm.saved))
    ⟨hkeeps.typed htyped, hroom⟩ hkeeps.stores
  have hm' : InStep (⟨out.node, st⟩ : Machine n ListCommand ListStateMachine) :=
    ⟨hst, by rw [hsaved, hm.saved, hkeeps.assigns], hkeeps.nonempty hm.nonempty⟩
  obtain ⟨front, back, hf, hb, hnum, -⟩ := hord'.contiguous.ends
  obtain ⟨front₀, -, hf₀, -, hnum₀, -⟩ := hord.contiguous.ends
  have hfi := hhead front hf
  have hfi₀ := hord.front front₀ hf₀
  obtain ⟨nd'', hrec⟩ : ∃ nd'' : RaftNode n ListCommand ListStateMachine,
      RaftNode.recover out.node.myId out.node.currentTerm out.node.votedFor out.node.log
        out.node.snapshot = some nd'' := by
    unfold RaftNode.recover
    rw [hf]
    exact ⟨_, rfl⟩
  have hnd'' : nd''.log = out.node.log ∧ nd''.lastApplied = m.node.lastApplied ∧
      nd''.state.store = m.node.state.store := by
    unfold RaftNode.recover at hrec
    rw [hf, Option.bind_eq_bind, Option.bind_some] at hrec
    cases hrec
    refine ⟨rfl, hfi, ?_⟩
    simp only
    rw [hsnap, if_neg (by simpa using snapshot_ne_nil m.node.state)]
    exact applySnapshot_snapshot m.node.state _
  refine ⟨⟨out.node, st⟩, ⟨nd'', st⟩, ?_, hord', hstore', hhead, hlast, hbehind, ?_, ?_⟩
  · rw [Machine.step, Persistence.handle, hs]
    simp only [Option.map_some, Option.bind_eq_bind, Option.bind_some]
    rw [hup, Option.bind_some]
  · rw [Machine.step, Persistence.construct_of_inStep hm' fresh, Persistence.nodeStep, hrec]
    rfl
  · intro Ns Ns' hle hmax
    obtain ⟨nd₁, h1, hst1⟩ := foldlM_applyTo Ns hord.contiguous hf₀ (hlast ▸ hb) hfi₀
      fun N hN => hle N (List.mem_append_left _ hN) back (hlast ▸ hb)
    have hlog'' : Contiguous nd''.log := hnd''.1 ▸ hord'.contiguous
    obtain ⟨nd₂, h2, hst2⟩ := foldlM_applyTo Ns' hlog'' (hnd''.1 ▸ hf) (hnd''.1 ▸ hb)
      (by rw [hnd''.2.1]; exact hfi.le)
      fun N hN => hle N (List.mem_append_right _ hN) back (hlast ▸ hb)
    refine ⟨nd₁, nd₂, h1, h2, ?_⟩
    rw [hst1, hst2, hnd''.1, hnd''.2.1, hnd''.2.2, between_eq_behind, hbehind, ← between_eq_behind, hmax]

end Restart

/-- A leader that has applied its first command takes a snapshot and is
restarted. -/
theorem saveSnapshot_restart_leader : ∃ m m' m'' : Machine 3 ListCommand ListStateMachine,
    m.node.state.store = [0, -7] ∧ StoreIs m.node ∧ m.step (.event .saveSnapshot) = some m' ∧
      StoreIs m'.node ∧ m'.step (.restart ⟨0⟩) = some m'' ∧
      ∃ nd nd'', [1].foldlM applyTo m.node = some nd ∧ [1].foldlM applyTo m''.node = some nd'' ∧
        nd''.state.store = nd.state.store := by
  obtain ⟨st₀, -, h0⟩ := Persistence.construct_zeroed ListStateMachine (0 : Fin 3) ⟨0⟩
  have hstep : ∀ {nd : RaftNode 3 ListCommand ListStateMachine} {st} (e : Event 3 ListCommand) {nd'},
      InStep ⟨nd, st⟩ → e.Typed → Persistence.nodeStep nd (.event e) = some nd' →
      (Persistence.saved nd').Room → ∃ st', InStep ⟨nd', st'⟩ := by
    intro nd st e nd' hm he hnd hroom
    obtain ⟨st', -, hm'⟩ := Persistence.step_of_nodeStep (m := ⟨nd, st⟩) (by decide) hm
      (a := .event e) ⟨he, fun nd₁ hnd₁ => by cases hnd.symm.trans hnd₁; exact hroom⟩ hnd
    exact ⟨st', hm'⟩
  obtain ⟨st₁, h1⟩ := hstep .election h0 trivial rfl ⟨by decide, by decide⟩
  obtain ⟨st₂, h2⟩ := hstep (.requestVoteReply 1 ⟨1, 0, 0, 0⟩ ⟨1, true⟩) h1 ⟨by decide, by decide⟩ rfl
    ⟨by decide, by decide⟩
  obtain ⟨st₃, h3⟩ := hstep (.newCommand ⟨-7⟩) h2 ⟨by decide, by decide⟩ rfl ⟨by decide, by decide⟩
  obtain ⟨st₄, h4⟩ := hstep (.appendEntriesReply 1 ⟨1, 0, 0, 0, [⟨1, 1, ⟨-7⟩⟩], 0⟩ ⟨1, true⟩) h3
    ⟨by decide, by decide⟩ rfl ⟨by decide, by decide⟩
  obtain ⟨st₅, h5⟩ := hstep .apply h4 trivial rfl ⟨by decide, by decide⟩
  obtain ⟨nd, st, hm, hlog, hci, hla, hstate, hsnap⟩ : ∃ nd st,
      InStep (⟨nd, st⟩ : Machine 3 ListCommand ListStateMachine) ∧
      nd.log = [⟨0, 0, ⟨0⟩⟩, ⟨1, 1, ⟨-7⟩⟩] ∧ nd.commitIndex = 1 ∧ nd.lastApplied = 1 ∧
      nd.state = ⟨[0, -7], 1⟩ ∧ nd.snapshot = [] := ⟨_, st₅, h5, rfl, rfl, rfl, rfl, rfl⟩
  have hord : Ordered nd := by
    refine ⟨⟨⟨0, 0, ⟨0⟩⟩, by rw [hlog]; rfl, fun k e he => ?_⟩, ?_, by rw [hci, hla], ?_⟩
    · rw [hlog] at he
      match k, he with
      | 0, he | 1, he => cases he; rfl
    · rw [hlog, hla]
      rintro f ⟨⟩
      decide
    · rw [hlog, hci]
      rintro b ⟨⟩
      decide
  have hstore : StoreIs nd := by
    rw [StoreIs, hlog, hla, hstate, hsnap]
    rintro f ⟨⟩
    decide
  obtain ⟨m', m'', hs, -, hstore', -, -, -, hr, happ⟩ := saveSnapshot_restart hm hord
    (by rw [hstate]; decide) ⟨0⟩
  obtain ⟨nd₁, nd₂, h6, h7, hst⟩ := happ [1] [1] (fun N hN b hb => by
    rw [hlog] at hb
    cases hb
    obtain rfl | rfl : N = 1 ∨ N = 1 := by simpa using hN
    · decide
    · decide) rfl
  exact ⟨⟨nd, st⟩, m', m'', by rw [hstate], hstore, hs, hstore', hr, nd₁, nd₂, h6, h7, hst⟩

end Chfs.Raft.Snapshots
