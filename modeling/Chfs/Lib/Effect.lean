import Mathlib.Data.List.Basic

namespace Chfs.Lib.Effect

/-- A program over a state `σ` that may refuse with an error, keeping what it
has done to the state so far. No result at all stands for undefined behaviour
or a failed assertion of the modelled code. -/
def Op (σ ε α : Type) : Type := σ → Option (Except ε α × σ)

variable {σ ε α β : Type} {s t : σ}

instance : Monad (Op σ ε) where
  pure a := fun s => some (.ok a, s)
  bind x f := fun s => (x s).bind fun out =>
    match out with
    | (.ok a, t) => f a t
    | (.error e, t) => some (.error e, t)

def refuse (e : ε) : Op σ ε α := fun s => some (.error e, s)

def undefined : Op σ ε α := fun _ => none

def require (p : Prop) [Decidable p] : Op σ ε Unit := if p then pure () else undefined

def ignore (x : Op σ ε α) : Op σ ε Unit := fun s => (x s).map fun out => (.ok (), out.2)

def attempt (x : Op σ ε α) : Op σ ε (Except ε α) := fun s => (x s).map fun out => (.ok out.1, out.2)

/-- The weakest precondition: the program ends, and in a result and a state
that satisfy `Q`. -/
def wp (x : Op σ ε α) (Q : Except ε α → σ → Prop) (s : σ) : Prop :=
  ∃ r t, x s = some (r, t) ∧ Q r t

variable {x : Op σ ε α} {f : α → Op σ ε β} {Q R : Except ε α → σ → Prop} {e : ε}

@[simp]
theorem wp_pure (a : α) : wp (pure a : Op σ ε α) Q s ↔ Q (.ok a) s := by
  constructor
  · rintro ⟨r, t, h, hq⟩
    cases h
    exact hq
  · exact fun h => ⟨_, _, rfl, h⟩

@[simp]
theorem wp_refuse : wp (refuse e : Op σ ε α) Q s ↔ Q (.error e) s := by
  constructor
  · rintro ⟨r, t, h, hq⟩
    cases h
    exact hq
  · exact fun h => ⟨_, _, rfl, h⟩

theorem wp.mono (h : wp x Q s) (hqr : ∀ r t, Q r t → R r t) : wp x R s := by
  obtain ⟨r, t, hx, hq⟩ := h
  exact ⟨r, t, hx, hqr r t hq⟩

theorem wp.of_eq {r : Except ε α} (h : wp x Q s) (hx : x s = some (r, t)) : Q r t := by
  obtain ⟨r', t', hx', hq⟩ := h
  cases hx.symm.trans hx'
  exact hq

theorem bind_ok {a : α} (hx : x s = some (.ok a, t)) : (x >>= f) s = f a t := by
  change (x s).bind _ = _
  rw [hx]
  rfl

theorem bind_error (hx : x s = some (.error e, t)) : (x >>= f) s = some (.error e, t) := by
  change (x s).bind _ = _
  rw [hx]
  rfl

theorem bind_none (hx : x s = none) : (x >>= f) s = none := by
  change (x s).bind _ = _
  rw [hx]
  rfl

theorem bind_eq_ok {b : β} {u : σ} (h : (x >>= f) s = some (.ok b, u)) :
    ∃ a t, x s = some (.ok a, t) ∧ f a t = some (.ok b, u) := by
  change (x s).bind _ = _ at h
  obtain ⟨⟨r, t⟩, hx, hf⟩ := Option.bind_eq_some_iff.mp h
  cases r with
  | error e => cases hf
  | ok a => exact ⟨a, t, hx, hf⟩

theorem wp.bind {R : Except ε β → σ → Prop} (h : wp x Q s)
    (hok : ∀ a t, Q (.ok a) t → wp (f a) R t) (herr : ∀ e t, Q (.error e) t → R (.error e) t) :
    wp (x >>= f) R s := by
  obtain ⟨r, t, hx, hq⟩ := h
  cases r with
  | ok a =>
    obtain ⟨r', t', hf, hr⟩ := hok a t hq
    exact ⟨r', t', (bind_ok hx).trans hf, hr⟩
  | error e => exact ⟨.error e, t, bind_error hx, herr e t hq⟩

theorem wp_bind_ok {R : Except ε β → σ → Prop} {a : α} (hx : x s = some (.ok a, t))
    (h : wp (f a) R t) : wp (x >>= f) R s := by
  obtain ⟨r, u, hf, hr⟩ := h
  exact ⟨r, u, (bind_ok hx).trans hf, hr⟩

/-- Partial correctness: if the program ends, then without an error and in a
state that satisfies `Q`. -/
def safe (x : Op σ ε α) (Q : α → σ → Prop) (s : σ) : Prop :=
  ∀ r t, x s = some (r, t) → ∃ a, r = .ok a ∧ Q a t

theorem safe_pure {Q : α → σ → Prop} {a : α} (h : Q a s) : safe (pure a : Op σ ε α) Q s := by
  rintro r t hx
  cases hx
  exact ⟨a, rfl, h⟩

theorem safe_undefined {Q : α → σ → Prop} : safe (undefined : Op σ ε α) Q s := nofun

theorem safe.bind {Q : α → σ → Prop} {R : β → σ → Prop} (h : safe x Q s)
    (hf : ∀ a t, Q a t → safe (f a) R t) : safe (x >>= f) R s := by
  intro r u hx
  change (x s).bind _ = _ at hx
  obtain ⟨⟨r', t⟩, hs, hrest⟩ := Option.bind_eq_some_iff.mp hx
  obtain ⟨a, rfl, hq⟩ := h r' t hs
  exact hf a t hq r u hrest

/-- If the program ends, with or without an error, then in a state that
satisfies `I`. -/
def ends (x : Op σ ε α) (I : σ → Prop) (s : σ) : Prop := ∀ r t, x s = some (r, t) → I t

variable {I J : σ → Prop}

theorem ends_pure {a : α} (h : I s) : ends (pure a : Op σ ε α) I s := by
  rintro r t hx
  cases hx
  exact h

theorem ends_refuse (h : I s) : ends (refuse e : Op σ ε α) I s := by
  rintro r t hx
  cases hx
  exact h

theorem ends_undefined : ends (undefined : Op σ ε α) I s := nofun

theorem ends.bind (h : ends x J s) (hf : ∀ a t, x s = some (.ok a, t) → J t → ends (f a) I t)
    (herr : ∀ t, J t → I t) : ends (x >>= f) I s := by
  intro r u hx
  change (x s).bind _ = _ at hx
  obtain ⟨⟨r', t⟩, hs, hrest⟩ := Option.bind_eq_some_iff.mp hx
  have ht := h r' t hs
  cases r' with
  | ok a => exact hf a t hs ht r u hrest
  | error e =>
    cases hrest
    exact herr _ ht

theorem require_of {p : Prop} [Decidable p] (hp : p) :
    (require p : Op σ ε Unit) = pure () := if_pos hp

theorem of_require {p : Prop} [Decidable p] {r : Except ε Unit} (h : require p s = some (r, t)) : p ∧ t = s := by
  unfold require at h
  split at h
  case isTrue hp =>
    cases h
    exact ⟨hp, rfl⟩
  case isFalse => cases h

@[simp]
theorem pure_apply (a : α) : (pure a : Op σ ε α) s = some (.ok a, s) := rfl

@[simp]
theorem refuse_apply : (refuse e : Op σ ε α) s = some (.error e, s) := rfl

theorem ignore_apply {r : Except ε α} (hx : x s = some (r, t)) : ignore x s = some (.ok (), t) := by
  unfold ignore
  rw [hx]
  rfl

theorem attempt_apply {r : Except ε α} (hx : x s = some (r, t)) : attempt x s = some (.ok r, t) := by
  unfold attempt
  rw [hx]
  rfl

theorem attempt_none (hx : x s = none) : attempt x s = none := by
  unfold attempt
  rw [hx]
  rfl

theorem ends.attempt (h : ends x I s) : ends (attempt x) I s := by
  intro r t hx
  unfold Effect.attempt at hx
  obtain ⟨⟨r', t'⟩, hs, heq⟩ := Option.map_eq_some_iff.mp hx
  cases heq
  exact h r' t' hs

def outcome {γ : Type} (φ : Except ε α → γ) (x : Op σ ε α) : Op σ ε γ :=
  fun s => (x s).map fun out => (.ok (φ out.1), out.2)

theorem outcome_apply {γ : Type} {φ : Except ε α → γ} {r : Except ε α} (hx : x s = some (r, t)) :
    outcome φ x s = some (.ok (φ r), t) := by
  unfold outcome
  rw [hx]
  rfl

theorem attempt_bind_pure {γ : Type} {k : Except ε α → Op σ ε γ} {φ : Except ε α → γ} (s : σ)
    (hk : ∀ r, k r = pure (φ r)) : (attempt x >>= k) s = outcome φ x s := by
  obtain rfl : k = fun r => pure (φ r) := funext hk
  cases hx : x s with
  | none =>
    change ((x s).map _).bind _ = (x s).map _
    rw [hx]
    rfl
  | some out => rw [bind_ok (attempt_apply hx), outcome_apply hx, pure_apply]

theorem attempt_bind {γ : Type} {k : Except ε α → Op σ ε γ} {φ : Except ε β → γ} (s : σ)
    (hok : ∀ a t, x s = some (.ok a, t) → k (.ok a) t = outcome φ (f a) t)
    (herr : ∀ e, k (.error e) = pure (φ (.error e))) : (attempt x >>= k) s = outcome φ (x >>= f) s := by
  cases hx : x s with
  | none =>
    change ((x s).map _).bind _ = ((x s).bind _).map _
    rw [hx]
    rfl
  | some out =>
    obtain ⟨r, t⟩ := out
    rw [bind_ok (attempt_apply hx)]
    cases r with
    | ok a =>
      rw [hok a t hx, outcome, outcome, bind_ok hx]
    | error e =>
      rw [herr, outcome_apply (bind_error hx)]
      rfl

def onPart {τ : Type} (get : τ → σ) (put : τ → σ → τ) (x : Op σ ε α) : Op τ ε α :=
  fun u => (x (get u)).map fun out => (out.1, put u out.2)

theorem onPart_apply {τ : Type} {get : τ → σ} {put : τ → σ → τ} {u : τ} {r : Except ε α}
    (hx : x (get u) = some (r, t)) : onPart get put x u = some (r, put u t) := by
  unfold onPart
  rw [hx]
  rfl

theorem onPart_eq_some {τ : Type} {get : τ → σ} {put : τ → σ → τ} {u v : τ} {r : Except ε α} :
    onPart get put x u = some (r, v) ↔ ∃ t, x (get u) = some (r, t) ∧ v = put u t := by
  unfold onPart
  rw [Option.map_eq_some_iff]
  constructor
  · rintro ⟨⟨r', t⟩, hx, heq⟩
    cases heq
    exact ⟨t, hx, rfl⟩
  · rintro ⟨t, hx, rfl⟩
    exact ⟨(r, t), hx, rfl⟩

end Chfs.Lib.Effect
