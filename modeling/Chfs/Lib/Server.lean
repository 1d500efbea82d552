import Mathlib.Data.List.Basic

namespace Chfs.Lib.Server

variable {σ τ α β : Type*}

/-- The answers to a list of requests, and the state after them. A request
without an answer leaves the program undefined. -/
def answers (serve : σ → α → Option (β × σ)) : σ → List α → Option (List β × σ)
  | s, [] => some ([], s)
  | s, q :: qs => do
    let out ← serve s q
    let rest ← answers serve out.2 qs
    some (out.1 :: rest.1, rest.2)

def specAnswers (spec : τ → α → β × τ) : τ → List α → List β × τ
  | x, [] => ([], x)
  | x, q :: qs =>
    let rest := specAnswers spec (spec x q).2 qs
    ((spec x q).1 :: rest.1, rest.2)

variable {serve : σ → α → Option (β × σ)} {spec : τ → α → β × τ}

/-- A server whose requests are answered as in the specification, from related
states to related states, answers every list of them so. -/
theorem answers_of_related {R : σ → τ → Prop} {ok : α → Prop} {s : σ} {x : τ} {qs : List α}
    (hstep : ∀ s x q, R s x → ok q → ∃ t, serve s q = some ((spec x q).1, t) ∧ R t (spec x q).2)
    (hqs : ∀ q ∈ qs, ok q) (h : R s x) :
    ∃ t, answers serve s qs = some ((specAnswers spec x qs).1, t) ∧ R t (specAnswers spec x qs).2 := by
  induction qs generalizing s x with
  | nil => exact ⟨s, rfl, h⟩
  | cons q qs ih =>
    obtain ⟨t, ht, hR⟩ := hstep s x q h (hqs q List.mem_cons_self)
    obtain ⟨u, hu, hR'⟩ := ih (fun q' hq' => hqs q' (List.mem_cons_of_mem q hq')) hR
    refine ⟨u, ?_, hR'⟩
    rw [answers, ht, Option.bind_eq_bind, Option.bind_some, hu]
    rfl

/-- The answers to a list of requests are possible in a specification that leaves
a choice. -/
inductive Conforms (spec : τ → α → β → τ → Prop) : τ → List α → List β → τ → Prop
  | nil {x : τ} : Conforms spec x [] [] x
  | cons {x y z : τ} {q : α} {r : β} {qs : List α} {rs : List β} : spec x q r y →
      Conforms spec y qs rs z → Conforms spec x (q :: qs) (r :: rs) z

theorem answers_conform {choice : τ → α → β → τ → Prop} {R : σ → τ → Prop} {ok : α → Prop} {s : σ} {x : τ}
    {qs : List α} (hstep : ∀ s x q, R s x → ok q → ∃ r t y, serve s q = some (r, t) ∧ choice x q r y ∧ R t y)
    (hqs : ∀ q ∈ qs, ok q) (h : R s x) :
    ∃ rs t y, answers serve s qs = some (rs, t) ∧ Conforms choice x qs rs y ∧ R t y := by
  induction qs generalizing s x with
  | nil => exact ⟨[], s, x, rfl, .nil, h⟩
  | cons q qs ih =>
    obtain ⟨r, t, y, ht, hspec, hR⟩ := hstep s x q h (hqs q List.mem_cons_self)
    obtain ⟨rs, u, z, hu, hconf, hR'⟩ := ih (fun q' hq' => hqs q' (List.mem_cons_of_mem q hq')) hR
    refine ⟨r :: rs, u, z, ?_, .cons hspec hconf, hR'⟩
    rw [answers, ht, Option.bind_eq_bind, Option.bind_some, hu]
    rfl

/-- The answers are the same, or there are none, and the states after them are
related. -/
abbrev Alike (R : σ → τ → Prop) : Option (β × σ) → Option (β × τ) → Prop :=
  Option.Rel fun out out' => out.1 = out'.1 ∧ R out.2 out'.2

/-- Each request of a list may be made in the state the ones before it lead to. -/
def Admitted (spec : τ → α → Option (β × τ)) (ok : τ → α → Prop) : τ → List α → Prop
  | _, [] => True
  | x, q :: qs => ok x q ∧ ∀ out ∈ spec x q, Admitted spec ok out.2 qs

instance decidableAdmitted {spec : τ → α → Option (β × τ)} {ok : τ → α → Prop} [∀ x q, Decidable (ok x q)] :
    (x : τ) → (qs : List α) → Decidable (Admitted spec ok x qs)
  | _, [] => .isTrue trivial
  | x, q :: qs =>
    have (out : β × τ) : Decidable (Admitted spec ok out.2 qs) := decidableAdmitted out.2 qs
    inferInstanceAs (Decidable (ok x q ∧ ∀ out ∈ spec x q, Admitted spec ok out.2 qs))

theorem rel_bind {γ δ : Type*} {r : α → β → Prop} {r' : γ → δ → Prop} {o : Option α} {o' : Option β}
    {f : α → Option γ} {g : β → Option δ} (h : Option.Rel r o o')
    (hf : ∀ a, ∀ b ∈ o', r a b → Option.Rel r' (f a) (g b)) : Option.Rel r' (o.bind f) (o'.bind g) := by
  cases h with
  | none => exact .none
  | some hab => exact hf _ _ rfl hab

theorem answers_alike {spec : τ → α → Option (β × τ)} {R : σ → τ → Prop} {ok : τ → α → Prop} {s : σ} {x : τ}
    {qs : List α} (hstep : ∀ s x q, R s x → ok x q → Alike R (serve s q) (spec x q)) (h : R s x)
    (hqs : Admitted spec ok x qs) : Alike R (answers serve s qs) (answers spec x qs) := by
  induction qs generalizing s x with
  | nil => exact .some ⟨rfl, h⟩
  | cons q qs ih =>
    refine rel_bind (hstep s x q h hqs.1) fun out out' hmem hout => ?_
    refine rel_bind (ih hout.2 (hqs.2 out' hmem)) fun rest rest' _ hrest => ?_
    rw [hout.1, hrest.1]
    exact .some ⟨rfl, hrest.2⟩

end Chfs.Lib.Server
