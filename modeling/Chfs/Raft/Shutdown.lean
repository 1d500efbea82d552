import Chfs.Lib.Run
import Chfs.Raft.Node

namespace Chfs.Raft.Shutdown

open Lib.Run Protocol Node

inductive Worker
  | election
  | ping
  | commit
  | apply
  deriving DecidableEq, Repr

/-- Where a loop is: before `is_stopped()`, before `lock.lock()`, between lock
and unlock, asleep, or out of the function. -/
inductive Pc
  | test
  | acquire
  | work
  | sleep
  | returned
  deriving DecidableEq, Repr

/-- Who holds `mtx`: `stop`, a loop, or one of the other threads (`start` and
the handlers of requests and replies). -/
inductive Holder
  | stop
  | worker (w : Worker)
  | other
  deriving DecidableEq, Repr

/-- Where `stop` is; `left` are the threads it still has to join. -/
inductive StopPc
  | called
  | locked
  | joining (left : List Worker)
  | done
  deriving DecidableEq, Repr

structure Process (n : ℕ) (Command St : Type) where
  node : RaftNode n Command St
  stopped : Bool
  mtx : Option Holder
  pc : Worker → Pc
  stopPc : StopPc

inductive Event (n : ℕ) (Command St : Type)
  | worker (w : Worker) (expired : Bool)
  | stop
  | other (nd : RaftNode n Command St)

variable {n : ℕ} {Command St : Type}

def started (nd : RaftNode n Command St) : Process n Command St where
  node := nd
  stopped := false
  mtx := some .other
  pc _ := .test
  stopPc := .called

def Process.goto (c : Process n Command St) (w : Worker) (p : Pc) : Process n Command St :=
  { c with pc := Function.update c.pc w p }

section Steps

variable [ChfsStateMachine Command St]

/-- The body of a loop; `expired` is whether the election timer has run out.
`none` where the body is undefined. -/
def work (nd : RaftNode n Command St) (expired : Bool) : Worker → Option (RaftNode n Command St)
  | .election => if expired then (runBackgroundElection nd).map Outcome.node else some nd
  | .ping => (runBackgroundPing nd).map fun _ => nd
  | .commit => (runBackgroundCommit nd).map fun _ => nd
  | .apply => (runBackgroundApply nd).map Prod.fst

def Process.advance (c : Process n Command St) (w : Worker) (expired : Bool) :
    Option (Process n Command St) :=
  match c.pc w with
  | .test => some (c.goto w (if c.stopped then .returned else .acquire))
  | .acquire => if c.mtx = none then some { c.goto w .work with mtx := some (.worker w) } else none
  | .work =>
    -- a follower tests once more under the lock, and its return releases it
    if w = .election ∧ c.node.role = .follower ∧ c.stopped then
      some { c.goto w .returned with mtx := none }
    else (work c.node expired w).map fun nd => { c.goto w .sleep with node := nd, mtx := none }
  | .sleep => some (c.goto w .test)
  | .returned => none

def Process.stopNext (c : Process n Command St) : Option (Process n Command St) :=
  match c.stopPc with
  | .called => if c.mtx = none then some { c with mtx := some .stop, stopPc := .locked } else none
  | .locked => some { c with stopped := true, stopPc := .joining [.election, .ping, .commit, .apply] }
  | .joining (w :: left) => if c.pc w = .returned then some { c with stopPc := .joining left } else none
  | .joining [] => some { c with mtx := none, stopPc := .done }
  | .done => none

def Process.step (c : Process n Command St) : Event n Command St → Option (Process n Command St)
  | .worker w expired => c.advance w expired
  | .stop => c.stopNext
  | .other nd =>
    if c.mtx = none then some { c with mtx := some .other }
    else if c.mtx = some .other then some { c with node := nd, mtx := none }
    else none

end Steps

def Process.joins (c : Process n Command St) : Option Worker :=
  match c.stopPc with
  | .joining (w :: _) => some w
  | _ => none

/-- `stop` holds the lock and waits for a thread that waits for the lock. -/
def Deadlocked (c : Process n Command St) : Prop :=
  c.mtx = some .stop ∧ ∃ w ∈ c.joins, c.pc w = .acquire

instance (c : Process n Command St) : Decidable (Deadlocked c) :=
  inferInstanceAs (Decidable (_ ∧ ∃ w ∈ c.joins, _))

/-- When `stop` stores `stopped`, no thread has tested it and not yet locked. -/
def Clear (c : Process n Command St) : Event n Command St → Prop
  | .stop => c.stopPc = .locked → ∀ w, c.pc w ≠ .acquire
  | _ => True

structure LockInv (c : Process n Command St) : Prop where
  held : c.stopPc ≠ .called → c.stopPc ≠ .done → c.mtx = some .stop
  working : ∀ w, c.pc w = .work → c.mtx = some (.worker w)
  stored : ∀ left, c.stopPc = .joining left → c.stopped = true

variable [ChfsStateMachine Command St] {c c' : Process n Command St} {w : Worker}

theorem advance_cases {expired : Bool} (h : c.advance w expired = some c') :
    (c.pc w = .test ∧ c' = c.goto w (if c.stopped then .returned else .acquire)) ∨
    (c.pc w = .acquire ∧ c.mtx = none ∧ c' = { c.goto w .work with mtx := some (.worker w) }) ∨
    (c.pc w = .work ∧ ∃ nd p, p ≠ .work ∧ p ≠ .acquire ∧
      c' = { c.goto w p with node := nd, mtx := none }) ∨
    (c.pc w = .sleep ∧ c' = c.goto w .test) := by
  unfold Process.advance at h
  split at h
  case h_1 hpc => exact Or.inl ⟨hpc, (Option.some.inj h).symm⟩
  case h_2 hpc =>
    split at h
    · exact Or.inr (Or.inl ⟨hpc, by assumption, (Option.some.inj h).symm⟩)
    · cases h
  case h_3 hpc =>
    refine Or.inr (Or.inr (Or.inl ⟨hpc, ?_⟩))
    split at h
    · exact ⟨c.node, .returned, by decide, by decide, (Option.some.inj h).symm⟩
    · obtain ⟨nd, -, rfl⟩ := Option.map_eq_some_iff.mp h
      exact ⟨nd, .sleep, by decide, by decide, rfl⟩
  case h_4 hpc => exact Or.inr (Or.inr (Or.inr ⟨hpc, (Option.some.inj h).symm⟩))
  case h_5 => cases h

omit [ChfsStateMachine Command St] in
theorem stopNext_cases (h : c.stopNext = some c') :
    (c.stopPc = .called ∧ c.mtx = none ∧ c' = { c with mtx := some .stop, stopPc := .locked }) ∨
    (c.stopPc = .locked ∧ c' = { c with
      stopped := true
      stopPc := .joining [.election, .ping, .commit, .apply] }) ∨
    (∃ w left, c.stopPc = .joining (w :: left) ∧ c.pc w = .returned ∧
      c' = { c with stopPc := .joining left }) ∨
    (c.stopPc = .joining [] ∧ c' = { c with mtx := none, stopPc := .done }) := by
  unfold Process.stopNext at h
  split at h
  case h_1 hpc =>
    split at h
    · exact Or.inl ⟨hpc, by assumption, (Option.some.inj h).symm⟩
    · cases h
  case h_2 hpc => exact Or.inr (Or.inl ⟨hpc, (Option.some.inj h).symm⟩)
  case h_3 w left hpc =>
    split at h
    · exact Or.inr (Or.inr (Or.inl ⟨w, left, hpc, by assumption, (Option.some.inj h).symm⟩))
    · cases h
  case h_4 hpc => exact Or.inr (Or.inr (Or.inr ⟨hpc, (Option.some.inj h).symm⟩))
  case h_5 => cases h

theorem other_cases {nd : RaftNode n Command St} (h : c.step (.other nd) = some c') :
    (c.mtx = none ∨ c.mtx = some .other) ∧ ∃ nd' m, c' = { c with node := nd', mtx := m } := by
  simp only [Process.step] at h
  split at h
  case isTrue hm => exact ⟨Or.inl hm, c.node, some .other, (Option.some.inj h).symm⟩
  case isFalse =>
    split at h
    case isTrue hm => exact ⟨Or.inr hm, nd, none, (Option.some.inj h).symm⟩
    case isFalse => cases h

omit [ChfsStateMachine Command St] in
@[simp]
theorem goto_pc_self (p : Pc) : (c.goto w p).pc w = p := Function.update_self ..

omit [ChfsStateMachine Command St] in
theorem goto_pc_of_ne {v : Worker} (h : v ≠ w) (p : Pc) : (c.goto w p).pc v = c.pc v :=
  Function.update_of_ne h ..

theorem lockInv_advance {expired : Bool} (hc : LockInv c) (h : c.advance w expired = some c') :
    LockInv c' := by
  obtain ⟨hpc, rfl⟩ | ⟨hpc, hfree, rfl⟩ | ⟨hpc, nd, p, hp, -, rfl⟩ | ⟨hpc, rfl⟩ := advance_cases h
  · refine ⟨hc.held, fun v hv => ?_, hc.stored⟩
    obtain rfl | hne := eq_or_ne v w
    · rw [goto_pc_self] at hv
      split at hv <;> cases hv
    · rw [goto_pc_of_ne hne] at hv
      exact hc.working v hv
  · refine ⟨fun h1 h2 => ?_, fun v hv => ?_, hc.stored⟩
    · cases hfree.symm.trans (hc.held h1 h2)
    · obtain rfl | hne := eq_or_ne v w
      · rfl
      · cases hfree.symm.trans (hc.working v ((goto_pc_of_ne hne _).symm.trans hv))
  · have hmtx := hc.working w hpc
    refine ⟨fun h1 h2 => ?_, fun v hv => ?_, hc.stored⟩
    · cases hmtx.symm.trans (hc.held h1 h2)
    · obtain rfl | hne := eq_or_ne v w
      · exact absurd ((goto_pc_self p).symm.trans hv) hp
      · have hv' := hc.working v ((goto_pc_of_ne hne _).symm.trans hv)
        rw [hmtx, Option.some.injEq, Holder.worker.injEq] at hv'
        exact absurd hv'.symm hne
  · refine ⟨hc.held, fun v hv => ?_, hc.stored⟩
    obtain rfl | hne := eq_or_ne v w
    · rw [goto_pc_self] at hv
      cases hv
    · rw [goto_pc_of_ne hne] at hv
      exact hc.working v hv

omit [ChfsStateMachine Command St] in
theorem lockInv_stopNext (hc : LockInv c) (h : c.stopNext = some c') : LockInv c' := by
  obtain ⟨hpc, hfree, rfl⟩ | ⟨hpc, rfl⟩ | ⟨w, left, hpc, -, rfl⟩ | ⟨hpc, rfl⟩ := stopNext_cases h
  · refine ⟨fun _ _ => rfl, fun v hv => ?_, nofun⟩
    cases hfree.symm.trans (hc.working v hv)
  · have hmtx := hc.held (by rw [hpc]; decide) (by rw [hpc]; decide)
    exact ⟨fun _ _ => hmtx, hc.working, fun _ _ => rfl⟩
  · have hmtx := hc.held (by rw [hpc]; nofun) (by rw [hpc]; nofun)
    exact ⟨fun _ _ => hmtx, hc.working, fun _ _ => hc.stored _ hpc⟩
  · have hmtx := hc.held (by rw [hpc]; decide) (by rw [hpc]; decide)
    refine ⟨fun _ h => absurd rfl h, fun v hv => ?_, nofun⟩
    cases hmtx.symm.trans (hc.working v hv)

theorem lockInv_step {a : Event n Command St} (hc : LockInv c) (h : c.step a = some c') :
    LockInv c' := by
  cases a with
  | worker w expired => exact lockInv_advance hc h
  | stop => exact lockInv_stopNext hc h
  | other nd =>
    obtain ⟨hm, nd', m, rfl⟩ := other_cases h
    refine ⟨fun h1 h2 => ?_, fun v hv => ?_, hc.stored⟩
    · have hstop := hc.held h1 h2
      obtain hm | hm := hm <;> cases hm.symm.trans hstop
    · have hv' := hc.working v hv
      obtain hm | hm := hm <;> cases hm.symm.trans hv'

omit [ChfsStateMachine Command St] in
theorem lockInv_started (nd : RaftNode n Command St) : LockInv (started nd) where
  held h := absurd rfl h
  working w h := by cases h
  stored left h := by cases h

def NoneWaits (c : Process n Command St) : Prop :=
  ∀ left, c.stopPc = .joining left → ∀ w, c.pc w ≠ .acquire

theorem noneWaits_step {a : Event n Command St} (hlock : LockInv c) (hc : NoneWaits c)
    (hclear : Clear c a) (h : c.step a = some c') : NoneWaits c' := by
  intro left hleft v hv
  cases a with
  | worker w expired =>
    obtain ⟨hpc, rfl⟩ | ⟨hpc, -, rfl⟩ | ⟨hpc, nd, p, -, hp, rfl⟩ | ⟨hpc, rfl⟩ := advance_cases h
    · obtain rfl | hne := eq_or_ne v w
      · -- the test comes after the store
        rw [goto_pc_self, if_pos (hlock.stored left hleft)] at hv
        cases hv
      · exact hc left hleft v ((goto_pc_of_ne hne _).symm.trans hv)
    · exact hc left hleft w hpc
    · obtain rfl | hne := eq_or_ne v w
      · exact hp ((goto_pc_self p).symm.trans hv)
      · exact hc left hleft v ((goto_pc_of_ne hne _).symm.trans hv)
    · obtain rfl | hne := eq_or_ne v w
      · rw [goto_pc_self] at hv
        cases hv
      · exact hc left hleft v ((goto_pc_of_ne hne _).symm.trans hv)
  | stop =>
    obtain ⟨-, -, rfl⟩ | ⟨hpc, rfl⟩ | ⟨w, left', hpc, -, rfl⟩ | ⟨-, rfl⟩ := stopNext_cases h
    · cases hleft
    · exact hclear hpc v hv
    · exact hc _ hpc v hv
    · cases hleft
  | other nd =>
    obtain ⟨-, nd', m, rfl⟩ := other_cases h
    exact hc left hleft v hv

omit [ChfsStateMachine Command St] in
theorem not_deadlocked_of_noneWaits (hc : NoneWaits c) : ¬ Deadlocked c := by
  rintro ⟨-, w, hw, hpc⟩
  unfold Process.joins at hw
  split at hw
  case h_1 left hstop => exact hc _ hstop w hpc
  case h_2 => cases hw

omit [ChfsStateMachine Command St] in
theorem goto_of_pc {p : Pc} (h : c.pc w = p) : c.goto w p = c := by
  unfold Process.goto
  rw [← h, Function.update_eq_self]

theorem reach_returned (hst : c.stopped = true) (h1 : c.pc w ≠ .acquire) (h2 : c.pc w ≠ .work) :
    Reach Process.step (fun _ _ => True) c (c.goto w .returned) := by
  have htest : ∀ d : Process n Command St, d.stopped = true → d.pc w = .test →
      d.step (.worker w false) = some (d.goto w .returned) := by
    intro d hd hpc
    simp only [Process.step, Process.advance]
    rw [hpc, hd]
    rfl
  cases hpc : c.pc w with
  | acquire => exact absurd hpc h1
  | work => exact absurd hpc h2
  | returned =>
    rw [goto_of_pc hpc]
    exact .refl
  | test => exact Reach.refl.tail trivial (htest c hst hpc)
  | sleep =>
    have hwake : c.step (.worker w false) = some (c.goto w .test) := by
      simp only [Process.step, Process.advance]
      rw [hpc]
    have hback : (c.goto w .test).goto w .returned = c.goto w .returned := by
      unfold Process.goto
      rw [Function.update_idem]
    have hlast := htest (c.goto w .test) hst (goto_pc_self _)
    rw [hback] at hlast
    exact (Reach.refl.tail trivial hwake).tail trivial hlast

/-- With a waiting thread among those to be joined, `stop` gets stuck at the
first of them. -/
theorem reach_deadlocked (left : List Worker) (hstop : c.stopPc = .joining left)
    (hst : c.stopped = true) (hmtx : c.mtx = some .stop) (hwork : ∀ v, c.pc v ≠ .work)
    (hw : w ∈ left) (hpc : c.pc w = .acquire) :
    ∃ d, Reach Process.step (fun _ _ => True) c d ∧ Deadlocked d := by
  induction left generalizing c with
  | nil => cases hw
  | cons v left ih =>
    by_cases hv : c.pc v = .acquire
    · refine ⟨c, .refl, hmtx, v, ?_, hv⟩
      rw [Process.joins, hstop]
      rfl
    · have hne : w ≠ v := fun heq => hv (heq ▸ hpc)
      have hjoin : (c.goto v .returned).step .stop =
          some { c.goto v .returned with stopPc := .joining left } := by
        have heq : (c.goto v .returned).stopPc = .joining (v :: left) := hstop
        rw [Process.step, Process.stopNext, heq]
        exact if_pos (goto_pc_self _)
      obtain ⟨d, hd, hdead⟩ := ih (c := { c.goto v .returned with stopPc := .joining left }) rfl hst hmtx
        (by
          intro u hu
          obtain rfl | hne := eq_or_ne u v
          · cases (goto_pc_self _).symm.trans hu
          · exact hwork u ((goto_pc_of_ne hne _).symm.trans hu))
        (List.mem_of_ne_of_mem hne hw) ((goto_pc_of_ne hne _).trans hpc)
      exact ⟨d, ((reach_returned hst hv (hwork v)).tail trivial hjoin).trans hd, hdead⟩

/-- A run never gets stuck if `stop` finds no thread between its test and the
lock when it stores `stopped`; wherever it finds one, the run can get stuck. -/
theorem not_deadlocked_of_clear (nd : RaftNode n Command St) :
    (∀ c, Reach Process.step Clear (started nd) c → ¬ Deadlocked c) ∧
    ∀ c c', Reach Process.step (fun _ _ => True) (started nd) c → c.step .stop = some c' →
      ¬ Clear c .stop → ∃ d, Reach Process.step (fun _ _ => True) c' d ∧ Deadlocked d := by
  constructor
  · intro c hc
    have hinv : LockInv c ∧ NoneWaits c := by
      apply hc.invariant (I := fun c => LockInv c ∧ NoneWaits c)
      · exact ⟨lockInv_started nd, nofun⟩
      · rintro s a t ⟨hlock, hnone⟩ hclear hs
        exact ⟨lockInv_step hlock hs, noneWaits_step hlock hnone hclear hs⟩
    exact not_deadlocked_of_noneWaits hinv.2
  · intro c c' hc hs hnot
    have hinv : LockInv c := by
      apply hc.invariant (lockInv_started nd)
      intro s a t hlock _ hs
      exact lockInv_step hlock hs
    have hlocked : c.stopPc = .locked ∧ ∃ w, c.pc w = .acquire := by
      by_contra hcon
      refine hnot fun hlocked w hw => hcon ⟨hlocked, w, hw⟩
    obtain ⟨hlocked, w, hw⟩ := hlocked
    have hmtx : c.mtx = some .stop := hinv.held (by rw [hlocked]; decide) (by rw [hlocked]; decide)
    have hwork : ∀ v, c.pc v ≠ .work := by
      intro v hv
      cases hmtx.symm.trans (hinv.working v hv)
    rw [Process.step, Process.stopNext, hlocked] at hs
    cases hs
    exact reach_deadlocked [.election, .ping, .commit, .apply] rfl rfl hmtx hwork
      (by cases w <;> decide) hw

abbrev aloneNode : RaftNode 3 ListCommand ListStateMachine := RaftNode.create 0

def quietStop : List (Event 3 ListCommand ListStateMachine) :=
  [.other aloneNode, .stop, .stop, .worker .election false, .stop, .worker .apply false,
    .worker .ping false, .stop, .worker .commit false, .stop]

/-- `start` returns, the election loop tests, and `stop` locks before it does. -/
def lateStop : List (Event 3 ListCommand ListStateMachine) :=
  [.other aloneNode, .worker .election false, .stop, .stop]

def clears (c : Process n Command St) : Event n Command St → Bool
  | .stop => c.stopPc != .locked || [.election, .ping, .commit, .apply].all fun w => c.pc w != .acquire
  | _ => true

omit [ChfsStateMachine Command St] in
theorem clear_of_clears (c : Process n Command St) (a : Event n Command St) (h : clears c a = true) :
    Clear c a := by
  cases a with
  | worker | other => trivial
  | stop =>
    intro hlocked w
    simp only [clears, hlocked, bne_self_eq_false, Bool.false_or, List.all_eq_true] at h
    exact bne_iff_ne.mp (h w (by cases w <;> decide))

theorem not_deadlocked_quietStop : ∃ c, Reach Process.step Clear (started aloneNode) c ∧
    c.stopPc = .joining [.apply] ∧ ¬ Deadlocked c := by
  have h : (execOk Process.step clears (started aloneNode) quietStop).any
      (fun c => c.stopPc = .joining [.apply]) = true := by
    decide
  obtain ⟨c, hc, hpc⟩ := (Option.any_eq_true _ _).mp h
  have hreach := reach_of_execOk clear_of_clears hc
  exact ⟨c, hreach, of_decide_eq_true hpc, (not_deadlocked_of_clear aloneNode).1 c hreach⟩

theorem deadlocked_lateStop : ∃ c, Reach Process.step (fun _ _ => True) (started aloneNode) c ∧
    Deadlocked c := by
  have h : (exec Process.step (started aloneNode) lateStop).any (fun c => Deadlocked c) = true := by
    decide
  obtain ⟨c, hc, hdead⟩ := (Option.any_eq_true _ _).mp h
  exact ⟨c, reach_of_exec hc, of_decide_eq_true hdead⟩

end Chfs.Raft.Shutdown
