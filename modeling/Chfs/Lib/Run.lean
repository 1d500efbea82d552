import Mathlib.Data.List.Induction

namespace Chfs.Lib.Run

variable {σ α : Type*}

/-- The states a partial step function reaches from `s₀` by steps that all
satisfy `ok`. A step without a result (undefined behaviour of the modelled
code) is not taken. -/
inductive Reach (step : σ → α → Option σ) (ok : σ → α → Prop) (s₀ : σ) : σ → Prop
  | refl : Reach step ok s₀ s₀
  | tail {s t : σ} {a : α} : Reach step ok s₀ s → ok s a → step s a = some t →
      Reach step ok s₀ t

variable {step : σ → α → Option σ} {ok ok' : σ → α → Prop} {s₀ s t : σ}

theorem Reach.trans (h : Reach step ok s₀ s) (h' : Reach step ok s t) : Reach step ok s₀ t := by
  induction h' with
  | refl => exact h
  | tail _ ha hs ih => exact ih.tail ha hs

theorem Reach.mono (hok : ∀ s a, ok s a → ok' s a) (h : Reach step ok s₀ s) :
    Reach step ok' s₀ s := by
  induction h with
  | refl => exact .refl
  | tail _ ha hs ih => exact ih.tail (hok _ _ ha) hs

/-- What holds initially and is kept by every allowed step holds in every
reachable state. -/
theorem Reach.invariant {I : σ → Prop} (h : Reach step ok s₀ s) (h₀ : I s₀)
    (hstep : ∀ s a t, I s → ok s a → step s a = some t → I t) : I s := by
  induction h with
  | refl => exact h₀
  | tail _ ha hs ih => exact hstep _ _ _ ih ha hs

/-- The same for an invariant that speaks about auxiliary data which the
steps may update. -/
theorem Reach.invariant_ghost {γ : Type*} {I : σ → γ → Prop} (h : Reach step ok s₀ s)
    (g₀ : γ) (h₀ : I s₀ g₀)
    (hstep : ∀ s a t g, I s g → ok s a → step s a = some t → ∃ g', I t g') : ∃ g, I s g := by
  induction h with
  | refl => exact ⟨g₀, h₀⟩
  | tail _ ha hs ih =>
    obtain ⟨g, hg⟩ := ih
    exact hstep _ _ _ g hg ha hs

def exec (step : σ → α → Option σ) : σ → List α → Option σ
  | s, [] => some s
  | s, a :: as => (step s a).bind fun t => exec step t as

theorem reach_of_exec {as : List α} (h : exec step s as = some t) :
    Reach step (fun _ _ => True) s t := by
  induction as generalizing s with
  | nil =>
    simp only [exec, Option.some.injEq] at h
    exact h ▸ .refl
  | cons a as ih =>
    obtain ⟨u, hu, ht⟩ := Option.bind_eq_some_iff.mp h
    exact (Reach.refl.tail trivial hu).trans (ih ht)

theorem length_exec_le {I : σ → Prop} {m : σ → ℕ} {own : α → Prop} {as : List α}
    (hstep : ∀ s a t, I s → own a → step s a = some t → I t ∧ m t < m s) (hs : I s)
    (hown : ∀ a ∈ as, own a) (h : exec step s as = some t) : as.length + m t ≤ m s := by
  induction as generalizing s with
  | nil =>
    simp only [exec, Option.some.injEq] at h
    rw [h, List.length_nil]
    omega
  | cons a as ih =>
    obtain ⟨u, hu, ht⟩ := Option.bind_eq_some_iff.mp h
    obtain ⟨hI, hlt⟩ := hstep s a u hs (hown a List.mem_cons_self) hu
    have hle := ih hI (fun b hb => hown b (List.mem_cons_of_mem a hb)) ht
    rw [List.length_cons]
    omega

def execOk (step : σ → α → Option σ) (allowed : σ → α → Bool) : σ → List α → Option σ
  | s, [] => some s
  | s, a :: as => if allowed s a then (step s a).bind fun t => execOk step allowed t as else none

theorem reach_of_execOk {allowed : σ → α → Bool} (hok : ∀ s a, allowed s a = true → ok s a)
    {as : List α} (h : execOk step allowed s as = some t) : Reach step ok s t := by
  induction as generalizing s with
  | nil =>
    simp only [execOk, Option.some.injEq] at h
    exact h ▸ .refl
  | cons a as ih =>
    simp only [execOk] at h
    split at h
    case isTrue ha =>
      obtain ⟨u, hu, ht⟩ := Option.bind_eq_some_iff.mp h
      exact (Reach.refl.tail (hok s a ha) hu).trans (ih ht)
    case isFalse => cases h

/-- A run together with what its steps report. -/
inductive Path {ε : Type*} (rel : σ → ε → σ → Prop) (s₀ : σ) : List ε → σ → Prop
  | nil : Path rel s₀ [] s₀
  | snoc {s t : σ} {es : List ε} {e : ε} : Path rel s₀ es s → rel s e t → Path rel s₀ (es ++ [e]) t

theorem Path.invariant {ε : Type*} {rel : σ → ε → σ → Prop} {I : List ε → σ → Prop} {es : List ε}
    (h : Path rel s₀ es s) (h₀ : I [] s₀) (hstep : ∀ es s e t, I es s → rel s e t → I (es ++ [e]) t) :
    I es s := by
  induction h with
  | nil => exact h₀
  | snoc _ hs ih => exact hstep _ _ _ _ ih hs

theorem Path.execOk {rel : σ → α → σ → Prop} {allowed : σ → α → Bool} {as bs : List α} (h : Path rel s₀ as s)
    (hrel : ∀ s a t, allowed s a = true → step s a = some t → rel s a t)
    (hrun : Run.execOk step allowed s bs = some t) : Path rel s₀ (as ++ bs) t := by
  induction bs generalizing as s with
  | nil =>
    rw [Run.execOk, Option.some.injEq] at hrun
    rw [List.append_nil]
    exact hrun ▸ h
  | cons b bs ih =>
    rw [Run.execOk] at hrun
    split at hrun
    case isTrue hb =>
      obtain ⟨u, hu, hrest⟩ := Option.bind_eq_some_iff.mp hrun
      rw [List.append_cons]
      exact ih (h.snoc (hrel s b u hb hu)) hrest
    case isFalse => cases hrun

theorem Path.last {ε : Type*} {rel : σ → ε → σ → Prop} {es : List ε} {e : ε} (h : Path rel s₀ (es ++ [e]) s) :
    ∃ t, Path rel s₀ es t ∧ rel t e s := by
  generalize heq : es ++ [e] = l at h
  cases h with
  | nil => simp at heq
  | snoc hpath hs =>
    obtain ⟨rfl, hlast⟩ := List.append_inj' heq rfl
    cases hlast
    exact ⟨_, hpath, hs⟩

theorem Path.split {ε : Type*} {rel : σ → ε → σ → Prop} {es es' : List ε} (h : Path rel s₀ (es ++ es') s) :
    ∃ t, Path rel s₀ es t ∧ Path rel t es' s := by
  induction es' using List.reverseRecOn generalizing s with
  | nil => exact ⟨s, List.append_nil es ▸ h, .nil⟩
  | append_singleton es' e ih =>
    rw [← List.append_assoc] at h
    obtain ⟨u, hpath, hs⟩ := h.last
    obtain ⟨t, h1, h2⟩ := ih hpath
    exact ⟨t, h1, h2.snoc hs⟩

end Chfs.Lib.Run
