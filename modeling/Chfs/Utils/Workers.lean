import Chfs.Lib.Run
import Mathlib.Algebra.BigOperators.Group.Finset.Piecewise
import Mathlib.Algebra.Order.BigOperators.Group.Finset
import Mathlib.Data.Fintype.Card

/-! `ThreadPool` (`utils/thread_pool.h`): workers take tasks from a queue under
a condition variable. Each critical section of `queue_mutex` is one step. -/

namespace Chfs.Utils.Workers

open Lib.Run

/-- Where a worker is: before it locks and tests the predicate of
`condition.wait`, asleep in that call, in `task()`, or out of its loop. -/
inductive Pc (τ : Type)
  | ready
  | asleep
  | running (task : τ)
  | returned

/-- Where `~ThreadPool` is: not called, between the critical section and
`notify_all`, before the join of the worker with a given number, or at its end. -/
inductive Destructor
  | notCalled
  | stopped
  | joining (i : ℕ)
  | done
  deriving DecidableEq

/-- `notifies` counts the calls of `enqueue` between the critical section and
`notify_one`. The last three fields are history: the tasks in the order in which
they were accepted, popped and ended. -/
structure ThreadPool (k : ℕ) (τ : Type) where
  stop : Bool
  tasks : List τ
  workers : Fin k → Pc τ
  notifies : ℕ
  destructor : Destructor
  accepted : List τ
  popped : List τ
  ended : List τ

/-- `loop w` is the next step of a worker, `destroy` the next one of the
destructor. A worker may wake up from `wait` for no reason. -/
inductive Event (k : ℕ) (τ : Type)
  | enqueue (task : τ)
  | notifyOne (w : Option (Fin k))
  | spurious (w : Fin k)
  | loop (w : Fin k)
  | destroy

variable {k : ℕ} {τ : Type}

def Pc.isAsleep : Pc τ → Bool
  | .asleep => true
  | _ => false

def Pc.isReturned : Pc τ → Bool
  | .returned => true
  | _ => false

def Pc.notified : Pc τ → Pc τ
  | .asleep => .ready
  | pc => pc

def create (k : ℕ) (τ : Type) : ThreadPool k τ where
  stop := false
  tasks := []
  workers _ := .ready
  notifies := 0
  destructor := .notCalled
  accepted := []
  popped := []
  ended := []

def ThreadPool.goto (c : ThreadPool k τ) (w : Fin k) (pc : Pc τ) : ThreadPool k τ :=
  { c with workers := Function.update c.workers w pc }

/-- `enqueue` up to its `notify_one`. It throws on a stopped pool. -/
def ThreadPool.enqueue (c : ThreadPool k τ) (task : τ) : Option (ThreadPool k τ) :=
  if c.stop then none
  else some { c with
    tasks := c.tasks ++ [task], notifies := c.notifies + 1, accepted := c.accepted ++ [task] }

/-- `notify_one` wakes a sleeping worker, if there is one. -/
def ThreadPool.notifyOne (c : ThreadPool k τ) : Option (Fin k) → Option (ThreadPool k τ)
  | some w =>
    if 0 < c.notifies ∧ (c.workers w).isAsleep then
      some { c.goto w .ready with notifies := c.notifies - 1 }
    else none
  | none =>
    if 0 < c.notifies ∧ ∀ w, (c.workers w).isAsleep = false then
      some { c with notifies := c.notifies - 1 }
    else none

def ThreadPool.loop (c : ThreadPool k τ) (w : Fin k) : Option (ThreadPool k τ) :=
  match c.workers w with
  | .ready =>
    match c.tasks with
    | task :: rest => some { c.goto w (.running task) with tasks := rest, popped := c.popped ++ [task] }
    | [] => some (c.goto w (if c.stop then .returned else .asleep))
  | .running task => some { c.goto w .ready with ended := c.ended ++ [task] }
  | .asleep | .returned => none

def ThreadPool.destroy (c : ThreadPool k τ) : Option (ThreadPool k τ) :=
  match c.destructor with
  | .notCalled => some { c with stop := true, destructor := .stopped }
  | .stopped => some { c with workers := fun w => (c.workers w).notified, destructor := .joining 0 }
  | .joining i =>
    if h : i < k then
      if (c.workers ⟨i, h⟩).isReturned then some { c with destructor := .joining (i + 1) } else none
    else some { c with destructor := .done }
  | .done => none

def step (c : ThreadPool k τ) : Event k τ → Option (ThreadPool k τ)
  | .enqueue task => c.enqueue task
  | .notifyOne w => c.notifyOne w
  | .spurious w => if (c.workers w).isAsleep then some (c.goto w .ready) else none
  | .loop w => c.loop w
  | .destroy => c.destroy

def Pc.task : Pc τ → Multiset τ
  | .running task => {task}
  | _ => 0

def Pc.looks : Pc τ → ℕ
  | .ready => 1
  | _ => 0

def Pc.work : Pc τ → ℕ
  | .ready => 1
  | .running _ => 2
  | .asleep | .returned => 0

def Destructor.work (k : ℕ) : Destructor → ℕ
  | .notCalled => 2 * k + 4
  | .stopped => 2 * k + 3
  | .joining i => k - i + 1
  | .done => 0

def ThreadPool.work (c : ThreadPool k τ) : ℕ :=
  2 * c.tasks.length + 2 * c.notifies + ∑ w, (c.workers w).work + c.destructor.work k

/-- What holds in every state of a pool. -/
structure Inv (c : ThreadPool k τ) : Prop where
  order : c.accepted = c.popped ++ c.tasks
  once : (c.ended : Multiset τ) + ∑ w, (c.workers w).task = c.popped
  awake : ∀ w, c.workers w = .asleep → c.tasks.length ≤ c.notifies + ∑ w, (c.workers w).looks
  called : c.stop = true ↔ c.destructor ≠ .notCalled
  woken : ∀ w, c.workers w = .asleep → c.stop = true → c.destructor = .stopped
  drained : ∀ w, c.workers w = .returned → c.stop = true ∧ c.tasks = []
  joined : ∀ i, c.destructor = .joining i → ∀ w : Fin k, w < i → c.workers w = .returned
  gone : c.destructor = .done → ∀ w, c.workers w = .returned

section Steps

variable {c c' : ThreadPool k τ} {w v : Fin k} {pc x : Pc τ}

theorem sum_goto {M : Type} [AddCommMonoid M] (f : Pc τ → M) (g : Fin k → Pc τ) (w : Fin k) (pc : Pc τ) :
    ∑ v, f (Function.update g w pc v) + f (g w) = ∑ v, f (g v) + f pc := by
  have hupd : (fun v => f (Function.update g w pc v)) = Function.update (f ∘ g) w (f pc) :=
    Function.comp_update f g w pc
  rw [hupd, Finset.sum_update_of_mem (Finset.mem_univ w), add_assoc, add_comm (f pc)]
  exact congrArg (· + f pc) (Finset.sum_eq_sum_sdiff_singleton_add (Finset.mem_univ w) fun v => f (g v)).symm

theorem of_goto {g : Fin k → Pc τ} (h : Function.update g w pc v = x) (hne : pc ≠ x) : v ≠ w ∧ g v = x := by
  by_cases hv : v = w
  · rw [hv, Function.update_self] at h
    exact absurd h hne
  · rw [Function.update_of_ne hv] at h
    exact ⟨hv, h⟩

theorem isAsleep_iff : pc.isAsleep = true ↔ pc = .asleep := by
  cases pc <;> simp [Pc.isAsleep]

theorem notified_eq (h : pc.notified = x) : pc = x ∨ pc = .asleep ∧ x = .ready := by
  cases pc with
  | asleep => exact Or.inr ⟨rfl, h.symm⟩
  | ready | running | returned => exact Or.inl h

theorem loop_cases (h : c.loop w = some c') :
    (∃ task rest, c.workers w = .ready ∧ c.tasks = task :: rest ∧
      c' = { c.goto w (.running task) with tasks := rest, popped := c.popped ++ [task] }) ∨
    (c.workers w = .ready ∧ c.tasks = [] ∧ c' = c.goto w (if c.stop then .returned else .asleep)) ∨
    (∃ task, c.workers w = .running task ∧ c' = { c.goto w .ready with ended := c.ended ++ [task] }) := by
  unfold ThreadPool.loop at h
  split at h
  case h_1 hpc =>
    split at h
    case h_1 task rest htasks => exact Or.inl ⟨task, rest, hpc, htasks, (Option.some.inj h).symm⟩
    case h_2 htasks => exact Or.inr (Or.inl ⟨hpc, htasks, (Option.some.inj h).symm⟩)
  case h_2 task hpc => exact Or.inr (Or.inr ⟨task, hpc, (Option.some.inj h).symm⟩)
  case h_3 => cases h
  case h_4 => cases h

theorem notifyOne_cases {o : Option (Fin k)} (h : c.notifyOne o = some c') : 0 < c.notifies ∧
    ((∃ w, c.workers w = .asleep ∧ c' = { c.goto w .ready with notifies := c.notifies - 1 }) ∨
      ((∀ w, c.workers w ≠ .asleep) ∧ c' = { c with notifies := c.notifies - 1 })) := by
  unfold ThreadPool.notifyOne at h
  split at h
  case h_1 w =>
    split at h
    case isTrue hw => exact ⟨hw.1, Or.inl ⟨w, isAsleep_iff.mp hw.2, (Option.some.inj h).symm⟩⟩
    case isFalse => cases h
  case h_2 =>
    split at h
    case isTrue hw =>
      refine ⟨hw.1, Or.inr ⟨fun w hs => ?_, (Option.some.inj h).symm⟩⟩
      rw [← isAsleep_iff, hw.2 w] at hs
      cases hs
    case isFalse => cases h

theorem destroy_cases (h : c.destroy = some c') :
    (c.destructor = .notCalled ∧ c' = { c with stop := true, destructor := .stopped }) ∨
    (c.destructor = .stopped ∧
      c' = { c with workers := fun w => (c.workers w).notified, destructor := .joining 0 }) ∨
    (∃ w : Fin k, c.destructor = .joining w ∧ c.workers w = .returned ∧
      c' = { c with destructor := .joining (w + 1) }) ∨
    (∃ i, k ≤ i ∧ c.destructor = .joining i ∧ c' = { c with destructor := .done }) := by
  unfold ThreadPool.destroy at h
  split at h
  case h_1 hd => exact Or.inl ⟨hd, (Option.some.inj h).symm⟩
  case h_2 hd => exact Or.inr (Or.inl ⟨hd, (Option.some.inj h).symm⟩)
  case h_3 i hd =>
    split at h
    case isTrue hi =>
      split at h
      case isTrue hr =>
        refine Or.inr (Or.inr (Or.inl ⟨⟨i, hi⟩, hd, ?_, (Option.some.inj h).symm⟩))
        generalize c.workers ⟨i, hi⟩ = pc at hr
        cases pc with
        | returned => rfl
        | ready | asleep | running => cases hr
      case isFalse => cases h
    case isFalse hi => exact Or.inr (Or.inr (Or.inr ⟨i, by omega, hd, (Option.some.inj h).symm⟩))
  case h_4 => cases h

end Steps

section Invariant

variable {c c' : ThreadPool k τ} {w : Fin k}

theorem inv_create : Inv (create k τ) where
  order := rfl
  once := by simp [create, Pc.task]
  awake _ h := nomatch h
  called := by simp [create]
  woken _ h := nomatch h
  drained _ h := nomatch h
  joined _ h := nomatch h
  gone h := nomatch h

theorem Inv.enqueue (h : Inv c) {task : τ} (hs : c.enqueue task = some c') : Inv c' := by
  unfold ThreadPool.enqueue at hs
  split at hs
  case isTrue => cases hs
  case isFalse hstop =>
    obtain rfl := Option.some.inj hs
    constructor
    case order => exact (congrArg (· ++ [task]) h.order).trans (List.append_assoc ..)
    case awake =>
      intro w hw
      have := h.awake w hw
      simp only [List.length_append, List.length_singleton]
      omega
    case drained => exact fun w hw => absurd (h.drained w hw).1 hstop
    case once => exact h.once
    case called => exact h.called
    case woken => exact h.woken
    case joined => exact h.joined
    case gone => exact h.gone

theorem Inv.wake (h : Inv c) (hw : c.workers w = .asleep) (m : ℕ) (hm : c.notifies ≤ m + 1) :
    Inv { c.goto w .ready with notifies := m } where
  order := h.order
  once := by
    have hsum := sum_goto Pc.task c.workers w .ready
    rw [hw] at hsum
    change _ + 0 = _ + 0 at hsum
    rw [add_zero, add_zero] at hsum
    exact (congrArg ((c.ended : Multiset τ) + ·) hsum).trans h.once
  awake v _ := by
    have hsum := sum_goto Pc.looks c.workers w .ready
    have := h.awake w hw
    rw [hw] at hsum
    change _ + 0 = _ + 1 at hsum
    change c.tasks.length ≤ m + ∑ v, (Function.update c.workers w .ready v).looks
    omega
  called := h.called
  woken v hv := h.woken v (of_goto hv nofun).2
  drained v hv := h.drained v (of_goto hv nofun).2
  joined i hi v hv := by
    have hvw : v ≠ w := by
      rintro rfl
      cases hw.symm.trans (h.joined i hi v hv)
    exact (Function.update_of_ne hvw ..).trans (h.joined i hi v hv)
  gone hd := by cases hw.symm.trans (h.gone hd w)

theorem Inv.notifyOne (h : Inv c) {o : Option (Fin k)} (hs : c.notifyOne o = some c') : Inv c' := by
  obtain ⟨hpos, ⟨w, hw, rfl⟩ | ⟨hnone, rfl⟩⟩ := notifyOne_cases hs
  · exact h.wake hw _ (by omega)
  · exact ⟨h.order, h.once, fun v hv => absurd hv (hnone v), h.called, h.woken, h.drained, h.joined, h.gone⟩

theorem Inv.pop (h : Inv c) (hw : c.workers w = .ready) {task : τ} {rest : List τ} (ht : c.tasks = task :: rest) :
    Inv { c.goto w (.running task) with tasks := rest, popped := c.popped ++ [task] } where
  order := by
    have horder := h.order
    rw [ht] at horder
    exact horder.trans (List.append_cons ..)
  once := by
    have hsum := sum_goto Pc.task c.workers w (.running task)
    rw [hw] at hsum
    change _ + 0 = _ + ({task} : Multiset τ) at hsum
    rw [add_zero] at hsum
    change (c.ended : Multiset τ) + ∑ v, (Function.update c.workers w (.running task) v).task = _
    rw [hsum, ← add_assoc, h.once, ← Multiset.coe_add, Multiset.coe_singleton]
  awake v hv := by
    have hlen := h.awake v (of_goto hv nofun).2
    have hsum := sum_goto Pc.looks c.workers w (.running task)
    rw [hw] at hsum
    change _ + 1 = _ + 0 at hsum
    rw [ht, List.length_cons] at hlen
    change rest.length ≤ c.notifies + ∑ v, (Function.update c.workers w (.running task) v).looks
    omega
  called := h.called
  woken v hv := h.woken v (of_goto hv nofun).2
  drained v hv := by
    have hnil := (h.drained v (of_goto hv nofun).2).2
    rw [ht] at hnil
    cases hnil
  joined i hi v hv := by
    have hnil := (h.drained v (h.joined i hi v hv)).2
    rw [ht] at hnil
    cases hnil
  gone hd := by cases hw.symm.trans (h.gone hd w)

theorem Inv.rest (h : Inv c) (hw : c.workers w = .ready) (ht : c.tasks = []) :
    Inv (c.goto w (if c.stop then .returned else .asleep)) where
  order := h.order
  once := by
    have hsum := sum_goto Pc.task c.workers w (if c.stop then .returned else .asleep)
    have hzero : (if c.stop then Pc.returned else .asleep : Pc τ).task = 0 := by split <;> rfl
    rw [hw, hzero] at hsum
    change _ + 0 = _ + 0 at hsum
    rw [add_zero, add_zero] at hsum
    exact (congrArg ((c.ended : Multiset τ) + ·) hsum).trans h.once
  awake _ _ := by
    change c.tasks.length ≤ _
    rw [ht]
    exact Nat.zero_le _
  called := h.called
  woken v hv hstop := by
    change c.stop = true at hstop
    rw [hstop, if_pos rfl] at hv
    exact h.woken v (of_goto hv nofun).2 hstop
  drained v hv := by
    refine ⟨?_, ht⟩
    by_contra hstop
    change ¬ c.stop = true at hstop
    rw [if_neg hstop] at hv
    exact hstop (h.drained v (of_goto hv nofun).2).1
  joined i hi v hv := by
    have hvw : v ≠ w := by
      rintro rfl
      cases hw.symm.trans (h.joined i hi v hv)
    exact (Function.update_of_ne hvw ..).trans (h.joined i hi v hv)
  gone hd := by cases hw.symm.trans (h.gone hd w)

theorem Inv.finish (h : Inv c) {task : τ} (hw : c.workers w = .running task) :
    Inv { c.goto w .ready with ended := c.ended ++ [task] } where
  order := h.order
  once := by
    have hsum := sum_goto Pc.task c.workers w .ready
    rw [hw] at hsum
    change _ + ({task} : Multiset τ) = _ + 0 at hsum
    rw [add_zero] at hsum
    have honce := h.once
    rw [← hsum, add_comm _ ({task} : Multiset τ), ← add_assoc] at honce
    change ((c.ended ++ [task] : List τ) : Multiset τ) + _ = _
    rw [← Multiset.coe_add, Multiset.coe_singleton]
    exact honce
  awake v hv := by
    have hlen := h.awake v (of_goto hv nofun).2
    have hsum := sum_goto Pc.looks c.workers w .ready
    rw [hw] at hsum
    change _ + 0 = _ + 1 at hsum
    change c.tasks.length ≤ c.notifies + ∑ v, (Function.update c.workers w .ready v).looks
    omega
  called := h.called
  woken v hv := h.woken v (of_goto hv nofun).2
  drained v hv := h.drained v (of_goto hv nofun).2
  joined i hi v hv := by
    have hvw : v ≠ w := by
      rintro rfl
      cases hw.symm.trans (h.joined i hi v hv)
    exact (Function.update_of_ne hvw ..).trans (h.joined i hi v hv)
  gone hd := by cases hw.symm.trans (h.gone hd w)

theorem Inv.loop (h : Inv c) (hs : c.loop w = some c') : Inv c' := by
  obtain ⟨task, rest, hw, ht, rfl⟩ | ⟨hw, ht, rfl⟩ | ⟨task, hw, rfl⟩ := loop_cases hs
  · exact h.pop hw ht
  · exact h.rest hw ht
  · exact h.finish hw

theorem Inv.destroy (h : Inv c) (hs : c.destroy = some c') : Inv c' := by
  obtain ⟨hd, rfl⟩ | ⟨hd, rfl⟩ | ⟨w, hd, hw, rfl⟩ | ⟨i, hi, hd, rfl⟩ := destroy_cases hs
  · -- from now on no worker goes to sleep
    refine ⟨h.order, h.once, h.awake, ?_, fun _ _ _ => rfl, ?_, (fun _ hj => nomatch hj), fun hj => nomatch hj⟩
    · simp
    · exact fun w hw => ⟨rfl, (h.drained w hw).2⟩
  · -- all sleeping workers are woken
    have hstop : c.stop = true := h.called.mpr (by rw [hd]; nofun)
    have hnot : ∀ w, (c.workers w).notified ≠ .asleep := by
      intro w hw
      obtain hw' | ⟨-, hr⟩ := notified_eq hw
      · rw [hw'] at hw
        cases hw
      · cases hr
    refine ⟨h.order, ?_, fun w hw => absurd hw (hnot w), ?_, fun w hw => absurd hw (hnot w), ?_, ?_, fun hj => nomatch hj⟩
    · have htask : ∀ pc : Pc τ, pc.notified.task = pc.task := by
        intro pc
        cases pc <;> rfl
      simp only [htask]
      exact h.once
    · simp [hstop]
    · intro w hw
      obtain hw' | ⟨-, hr⟩ := notified_eq hw
      · exact h.drained w hw'
      · cases hr
    · intro i hi w hw
      cases hi
      exact absurd hw (Nat.not_lt_zero _)
  · refine ⟨h.order, h.once, h.awake, ?_, ?_, h.drained, ?_, fun hj => nomatch hj⟩
    · have hstop : c.stop = true := h.called.mpr (by rw [hd]; nofun)
      simp [hstop]
    · intro v hv hstop
      cases hd.symm.trans (h.woken v hv hstop)
    · intro i hi v hv
      cases hi
      obtain hlt | heq := Nat.lt_succ_iff_lt_or_eq.mp hv
      · exact h.joined _ hd v hlt
      · rw [Fin.ext heq]
        exact hw
  · refine ⟨h.order, h.once, h.awake, ?_, ?_, h.drained, (fun _ hj => nomatch hj), ?_⟩
    · have hstop : c.stop = true := h.called.mpr (by rw [hd]; nofun)
      simp [hstop]
    · intro v hv hstop
      cases hd.symm.trans (h.woken v hv hstop)
    · exact fun _ v => h.joined i hd v (lt_of_lt_of_le v.isLt hi)

theorem Inv.step (h : Inv c) {e : Event k τ} (hs : step c e = some c') : Inv c' := by
  cases e with
  | enqueue task => exact h.enqueue hs
  | notifyOne o => exact h.notifyOne hs
  | loop w => exact h.loop hs
  | destroy => exact h.destroy hs
  | spurious w =>
    unfold Workers.step at hs
    simp only at hs
    split at hs
    case isTrue hw =>
      obtain rfl := Option.some.inj hs
      exact h.wake (isAsleep_iff.mp hw) c.notifies (Nat.le_succ _)
    case isFalse => cases hs

end Invariant

section Runs

variable {c c' : ThreadPool k τ} {w : Fin k} {e : Event k τ}

/-- The steps of the pool itself: no caller comes with a new task, and nobody
wakes up for no reason. -/
def Event.own : Event k τ → Bool
  | .enqueue _ | .spurious _ => false
  | .notifyOne _ | .loop _ | .destroy => true

theorem work_goto (c : ThreadPool k τ) (w : Fin k) (pc : Pc τ) :
    ∑ v, ((c.goto w pc).workers v).work + (c.workers w).work = ∑ v, (c.workers v).work + pc.work :=
  sum_goto Pc.work c.workers w pc

theorem work_notified (g : Fin k → Pc τ) : ∑ w, (g w).notified.work ≤ ∑ w, (g w).work + k := by
  have hle : ∀ w, (g w).notified.work ≤ (g w).work + 1 := by
    intro w
    cases g w <;> simp [Pc.notified, Pc.work]
  refine (Finset.sum_le_sum fun w _ => hle w).trans (le_of_eq ?_)
  rw [Finset.sum_add_distrib, ← Finset.card_eq_sum_ones, Finset.card_univ, Fintype.card_fin]

theorem work_lt (he : e.own = true) (hs : step c e = some c') : c'.work < c.work := by
  cases e with
  | enqueue | spurious => cases he
  | notifyOne o =>
    obtain ⟨hpos, ⟨w, hw, rfl⟩ | ⟨-, rfl⟩⟩ := notifyOne_cases hs
    · have hsum := work_goto c w .ready
      rw [hw] at hsum
      change _ + 0 = _ + 1 at hsum
      change 2 * c.tasks.length + 2 * (c.notifies - 1) + ∑ v, ((c.goto w .ready).workers v).work +
        c.destructor.work k < c.work
      unfold ThreadPool.work
      omega
    · simp only [ThreadPool.work]
      omega
  | loop w =>
    obtain ⟨task, rest, hw, ht, rfl⟩ | ⟨hw, ht, rfl⟩ | ⟨task, hw, rfl⟩ := loop_cases hs
    · have hsum := work_goto c w (.running task)
      rw [hw] at hsum
      change _ + 1 = _ + 2 at hsum
      change 2 * rest.length + 2 * c.notifies + ∑ v, ((c.goto w (.running task)).workers v).work +
        c.destructor.work k < c.work
      unfold ThreadPool.work
      rw [ht, List.length_cons]
      omega
    · have hsum := work_goto c w (if c.stop then .returned else .asleep)
      have hzero : (if c.stop then Pc.returned else .asleep : Pc τ).work = 0 := by split <;> rfl
      rw [hw, hzero] at hsum
      change _ + 1 = _ + 0 at hsum
      change 2 * c.tasks.length + 2 * c.notifies +
        ∑ v, ((c.goto w (if c.stop then .returned else .asleep)).workers v).work + c.destructor.work k < c.work
      unfold ThreadPool.work
      omega
    · have hsum := work_goto c w .ready
      rw [hw] at hsum
      change _ + 2 = _ + 1 at hsum
      change 2 * c.tasks.length + 2 * c.notifies + ∑ v, ((c.goto w .ready).workers v).work +
        c.destructor.work k < c.work
      unfold ThreadPool.work
      omega
  | destroy =>
    obtain ⟨hd, rfl⟩ | ⟨hd, rfl⟩ | ⟨w, hd, hw, rfl⟩ | ⟨i, hi, hd, rfl⟩ := destroy_cases hs
    · simp only [ThreadPool.work, hd, Destructor.work]
      omega
    · have hle := work_notified c.workers
      simp only [ThreadPool.work, hd, Destructor.work]
      omega
    · have := w.isLt
      simp only [ThreadPool.work, hd, Destructor.work]
      omega
    · simp only [ThreadPool.work, hd, Destructor.work]
      omega

/-- Whoever could make a step of the pool has nothing left to do: no worker, no
notification, and no destructor that has been called. -/
structure Idle (c : ThreadPool k τ) : Prop where
  loop : ∀ w, c.loop w = none
  notifyOne : ∀ o, c.notifyOne o = none
  destroy : c.destructor ≠ .notCalled → c.destroy = none

theorem loop_eq_none (h : c.loop w = none) : c.workers w = .asleep ∨ c.workers w = .returned := by
  unfold ThreadPool.loop at h
  split at h
  case h_1 => split at h <;> cases h
  case h_2 => cases h
  case h_3 hw => exact Or.inl hw
  case h_4 hw => exact Or.inr hw

theorem Idle.notifies (h : Idle c) : c.notifies = 0 := by
  by_contra hne
  have hpos : 0 < c.notifies := Nat.pos_of_ne_zero hne
  by_cases hall : ∀ w, (c.workers w).isAsleep = false
  · have hnone := h.notifyOne none
    rw [ThreadPool.notifyOne, if_pos ⟨hpos, hall⟩] at hnone
    cases hnone
  · push Not at hall
    obtain ⟨w, hw⟩ := hall
    have hnone := h.notifyOne (some w)
    rw [ThreadPool.notifyOne, if_pos ⟨hpos, by simpa using hw⟩] at hnone
    cases hnone

/-- A pool that has come to rest has done all its tasks. -/
theorem Idle.finished (hk : 0 < k) (h : Inv c) (hidle : Idle c) : c.tasks = [] ∧ c.ended.Perm c.accepted := by
  have hpc : ∀ w, c.workers w = .asleep ∨ c.workers w = .returned := fun w => loop_eq_none (hidle.loop w)
  have hlooks : ∑ w, (c.workers w).looks = 0 := by
    refine Finset.sum_eq_zero fun w _ => ?_
    obtain hw | hw := hpc w <;> rw [hw] <;> rfl
  have htasks : c.tasks = [] := by
    obtain hw | hw := hpc ⟨0, hk⟩
    · have hlen := h.awake _ hw
      rw [hlooks, hidle.notifies] at hlen
      exact List.length_eq_zero_iff.mp (Nat.le_zero.mp hlen)
    · exact (h.drained _ hw).2
  refine ⟨htasks, ?_⟩
  have htask : ∑ w, (c.workers w).task = 0 := by
    refine Finset.sum_eq_zero fun w _ => ?_
    obtain hw | hw := hpc w <;> rw [hw] <;> rfl
  have honce := h.once
  rw [htask, add_zero] at honce
  have horder := h.order
  rw [htasks, List.append_nil] at horder
  rw [horder]
  exact Multiset.coe_eq_coe.mp honce

theorem Idle.done (h : Inv c) (hidle : Idle c) (hd : c.destructor ≠ .notCalled) : c.destructor = .done := by
  have hnone := hidle.destroy hd
  unfold ThreadPool.destroy at hnone
  split at hnone
  case h_1 hcalled => exact absurd hcalled hd
  case h_2 => cases hnone
  case h_3 i hi =>
    split at hnone
    case isTrue hlt =>
      split at hnone
      case isTrue => cases hnone
      case isFalse hret =>
        obtain hw | hw := loop_eq_none (hidle.loop ⟨i, hlt⟩)
        · cases hi.symm.trans (h.woken _ hw (h.called.mpr hd))
        · rw [hw] at hret
          exact absurd rfl hret
    case isFalse => cases hnone
  case h_4 hdone => exact hdone

theorem inv_of_reach (h : Reach step (fun _ _ => True) (create k τ) c) : Inv c :=
  h.invariant inv_create fun _ _ _ hs _ hstep => hs.step hstep

/-- In every run, tasks are taken in the order in which they were accepted, each
by one worker and once; and when the destructor has returned, all of them have
ended. -/
theorem exactlyOnce_of_reach (hk : 0 < k) (h : Reach step (fun _ _ => True) (create k τ) c) :
    c.accepted = c.popped ++ c.tasks ∧ (c.ended : Multiset τ) + ∑ w, (c.workers w).task = c.popped ∧
      (c.destructor = .done → c.ended.Perm c.accepted) := by
  have hinv := inv_of_reach h
  refine ⟨hinv.order, hinv.once, fun hd => ?_⟩
  have hret := hinv.gone hd
  have htask : ∑ w, (c.workers w).task = 0 := by
    refine Finset.sum_eq_zero fun w _ => ?_
    rw [hret w]
    rfl
  have honce := hinv.once
  have horder := hinv.order
  rw [htask, add_zero] at honce
  rw [(hinv.drained _ (hret ⟨0, hk⟩)).2, List.append_nil] at horder
  rw [horder]
  exact Multiset.coe_eq_coe.mp honce

def drainRun : List (Event 2 ℕ) :=
  let w : Fin 2 := ⟨0, Nat.zero_lt_two⟩
  let w' : Fin 2 := ⟨1, Nat.one_lt_two⟩
  [.notifyOne none, .loop w, .loop w, .loop w, .loop w', .destroy, .destroy, .loop w, .loop w', .destroy, .destroy,
    .destroy]

theorem exactlyOnce_drained : ∃ c : ThreadPool 2 ℕ, Reach step (fun _ _ => True) (create 2 ℕ) c ∧
    c.ended = [7] ∧ c.ended.Perm c.accepted := by
  have hrun : (exec step (create 2 ℕ) (.enqueue 7 :: drainRun)).map (fun c => (c.destructor, c.ended)) =
      some (.done, [7]) := by decide
  obtain ⟨c, hc, heq⟩ := Option.map_eq_some_iff.mp hrun
  obtain ⟨hd, hended⟩ := Prod.mk.inj heq
  have hreach := reach_of_exec hc
  exact ⟨c, hreach, hended, (exactlyOnce_of_reach (by decide) hreach).2.2 hd⟩

/-- From every reachable state the pool takes a bounded number of steps until a
caller comes again, and then has done all tasks: no wake-up is lost, and a
destructor that has been called returns. -/
theorem settles_of_reach (hk : 0 < k) (h : Reach step (fun _ _ => True) (create k τ) c) {es : List (Event k τ)}
    (hown : ∀ e ∈ es, e.own = true) (hrun : exec step c es = some c') :
    es.length ≤ c.work ∧ (Idle c' → c'.tasks = [] ∧ c'.ended.Perm c'.accepted ∧
      (c'.destructor ≠ .notCalled → c'.destructor = .done)) := by
  have hdec : ∀ (s : ThreadPool k τ) e t, True → e.own = true → step s e = some t → True ∧ t.work < s.work :=
    fun s e t _ he hs => ⟨trivial, work_lt he hs⟩
  have hlen := length_exec_le hdec trivial hown hrun
  refine ⟨by omega, fun hidle => ?_⟩
  have hinv := inv_of_reach (h.trans (reach_of_exec hrun))
  obtain ⟨htasks, hperm⟩ := hidle.finished hk hinv
  exact ⟨htasks, hperm, hidle.done hinv⟩

theorem notifyOne_eq_none (h : c.notifies = 0) (o : Option (Fin k)) : c.notifyOne o = none := by
  cases o <;> simp [ThreadPool.notifyOne, h]

theorem settles_drained : ∃ c c' : ThreadPool 2 ℕ, Reach step (fun _ _ => True) (create 2 ℕ) c ∧
    exec step c drainRun = some c' ∧ drainRun.length ≤ c.work ∧ c'.ended.Perm c'.accepted ∧
      c'.destructor = .done := by
  have hrun : ((exec step (create 2 ℕ) [.enqueue 7]).bind fun c => (exec step c drainRun).map fun c' =>
      (decide (∀ w, (c'.loop w).isNone = true), c'.notifies, c'.destroy.isNone, c'.destructor)) =
      some (true, 0, true, .done) := by decide
  obtain ⟨c, hc, hrun⟩ := Option.bind_eq_some_iff.mp hrun
  obtain ⟨c', hc', heq⟩ := Option.map_eq_some_iff.mp hrun
  simp only [Prod.mk.injEq, decide_eq_true_eq, Option.isNone_iff_eq_none] at heq
  obtain ⟨hloop, hnotifies, hdestroy, hd⟩ := heq
  have hreach := reach_of_exec hc
  obtain ⟨hlen, hrest⟩ := settles_of_reach (by decide) hreach (by decide) hc'
  obtain ⟨-, hperm, hdone⟩ := hrest ⟨hloop, notifyOne_eq_none hnotifies, fun _ => hdestroy⟩
  exact ⟨c, c', hreach, hc', hlen, hperm, hdone (by rw [hd]; decide)⟩

end Runs

end Chfs.Utils.Workers
