import Mathlib.Data.List.Sort

namespace Chfs.Lib.Sorting

variable {α K : Type} [LinearOrder K] (key : α → K)

/-- One pass of an exchange sort: `x` is at the place to be filled, and is
exchanged with every later element that is smaller. -/
def sweep (x : α) : List α → α × List α
  | [] => (x, [])
  | y :: ys =>
    if key y < key x then
      let out := sweep y ys
      (out.1, x :: out.2)
    else
      let out := sweep x ys
      (out.1, y :: out.2)

def exchangeSort : ℕ → List α → List α
  | 0, l => l
  | _ + 1, [] => []
  | n + 1, x :: xs =>
    let out := sweep key x xs
    out.1 :: exchangeSort n out.2

/-- The run of elements with the key of `x`, each compared with the one before
it, and the rest of the list. -/
def takeRun (x : α) : List α → List α × List α
  | [] => ([x], [])
  | y :: ys =>
    if key x = key y then
      let out := takeRun y ys
      (x :: out.1, out.2)
    else ([x], y :: ys)

def SortedBy (l : List α) : Prop := l.Pairwise fun a b => key a ≤ key b

variable {key} {x : α} {l : List α}

theorem sweep_perm : ((sweep key x l).1 :: (sweep key x l).2).Perm (x :: l) := by
  induction l generalizing x with
  | nil => exact .refl _
  | cons y ys ih =>
    rw [sweep]
    split
    · exact (List.Perm.swap x _ _).trans (ih.cons x)
    · exact (List.Perm.swap y _ _).trans ((ih.cons y).trans (.swap x y ys))

theorem length_sweep : (sweep key x l).2.length = l.length :=
  Nat.succ.inj (sweep_perm : ((sweep key x l).1 :: (sweep key x l).2).Perm (x :: l)).length_eq

theorem sweep_le : key (sweep key x l).1 ≤ key x ∧ ∀ y ∈ (sweep key x l).2, key (sweep key x l).1 ≤ key y := by
  induction l generalizing x with
  | nil => exact ⟨le_refl _, fun y hy => by cases hy⟩
  | cons y ys ih =>
    rw [sweep]
    split
    case isTrue hlt =>
      obtain ⟨hle, hrest⟩ := ih (x := y)
      refine ⟨hle.trans hlt.le, fun z hz => ?_⟩
      obtain rfl | hz := List.mem_cons.mp hz
      · exact hle.trans hlt.le
      · exact hrest z hz
    case isFalse hnot =>
      obtain ⟨hle, hrest⟩ := ih (x := x)
      refine ⟨hle, fun z hz => ?_⟩
      obtain rfl | hz := List.mem_cons.mp hz
      · exact hle.trans (not_lt.mp hnot)
      · exact hrest z hz

theorem exchangeSort_perm (n : ℕ) (l : List α) : (exchangeSort key n l).Perm l := by
  induction n generalizing l with
  | zero => rw [exchangeSort]
  | succ n ih =>
    cases l with
    | nil => rw [exchangeSort]
    | cons x xs =>
      rw [exchangeSort]
      exact ((ih _).cons _).trans sweep_perm

theorem exchangeSort_sorted {n : ℕ} (hn : l.length ≤ n) : SortedBy key (exchangeSort key n l) := by
  induction n generalizing l with
  | zero =>
    rw [List.length_eq_zero_iff.mp (by omega : l.length = 0), exchangeSort]
    exact .nil
  | succ n ih =>
    cases l with
    | nil =>
      rw [exchangeSort]
      exact .nil
    | cons x xs =>
      rw [exchangeSort]
      refine .cons (fun y hy => ?_) (ih ?_)
      · exact sweep_le.2 y ((exchangeSort_perm n _).mem_iff.mp hy)
      · rw [length_sweep]
        exact Nat.le_of_succ_le_succ hn

theorem takeRun_append (key : α → K) (x : α) (l : List α) : (takeRun key x l).1 ++ (takeRun key x l).2 = x :: l := by
  induction l generalizing x with
  | nil => rfl
  | cons y ys ih =>
    rw [takeRun]
    split
    · exact congrArg (x :: ·) (ih y)
    · rfl

theorem takeRun_ne_nil (key : α → K) (x : α) (l : List α) : (takeRun key x l).1 ≠ [] := by
  cases l with
  | nil => exact List.cons_ne_nil _ _
  | cons y ys =>
    rw [takeRun]
    split <;> exact List.cons_ne_nil _ _

theorem key_of_mem_takeRun {y : α} (h : y ∈ (takeRun key x l).1) : key y = key x := by
  induction l generalizing x with
  | nil => rw [List.mem_singleton.mp h]
  | cons z zs ih =>
    rw [takeRun] at h
    split at h
    case isTrue heq =>
      obtain rfl | h := List.mem_cons.mp h
      · rfl
      · exact (ih h).trans heq.symm
    case isFalse => rw [List.mem_singleton.mp h]

theorem lt_of_mem_takeRun (hs : SortedBy key (x :: l)) {y : α} (h : y ∈ (takeRun key x l).2) :
    key x < key y := by
  induction l generalizing x with
  | nil => cases h
  | cons z zs ih =>
    obtain ⟨hx, htail⟩ := List.pairwise_cons.mp hs
    rw [takeRun] at h
    split at h
    case isTrue heq =>
      rw [heq]
      exact ih htail h
    case isFalse hne =>
      have hlt : key x < key z := lt_of_le_of_ne (hx z List.mem_cons_self) hne
      obtain rfl | h := List.mem_cons.mp h
      · exact hlt
      · exact hlt.trans_le ((List.pairwise_cons.mp htail).1 y h)

theorem takeRun_sorted (hs : SortedBy key (x :: l)) : SortedBy key (takeRun key x l).2 := by
  have happ := takeRun_append key x l
  rw [SortedBy, ← happ] at hs
  exact (List.pairwise_append.mp hs).2.1

end Chfs.Lib.Sorting
