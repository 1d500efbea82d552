import Mathlib.Data.List.Nodup
import Mathlib.Data.Set.Insert
import Mathlib.Logic.Function.Basic

namespace Chfs.Lib.Tree

structure Entry (ν ι : Type) where
  name : ν
  id : ι
  deriving DecidableEq, Repr

variable {ν ι : Type} {live : Set ι} {dirs : ι → List (Entry ν ι)} {p q root : ι} {n : ν} {e : Entry ν ι}

/-- Entries refer to nodes that exist. Names are unique in a list, and no two
entries refer to the same node. -/
structure Linked (live : Set ι) (dirs : ι → List (Entry ν ι)) : Prop where
  dead : ∀ p, p ∉ live → dirs p = []
  target : ∀ p, ∀ e ∈ dirs p, e.id ∈ live
  names : ∀ p, ((dirs p).map Entry.name).Nodup
  once : ∀ p q, ∀ e ∈ dirs p, ∀ e' ∈ dirs q, e.id = e'.id → p = q ∧ e = e'
  irrefl : ∀ p, ∀ e ∈ dirs p, e.id ≠ p

theorem Linked.nodup (h : Linked live dirs) (p : ι) : (dirs p).Nodup := (h.names p).of_map _

theorem Linked.nodup_ids (h : Linked live dirs) (p : ι) : ((dirs p).map Entry.id).Nodup :=
  (h.nodup p).map_on fun e he e' he' heq => (h.once p p e he e' he' heq).2

theorem linked_empty : Linked (∅ : Set ι) fun _ => ([] : List (Entry ν ι)) where
  dead _ _ := rfl
  target _ _ he := absurd he List.not_mem_nil
  names _ := List.nodup_nil
  once _ _ _ he := absurd he List.not_mem_nil
  irrefl _ _ he := absurd he List.not_mem_nil

theorem Linked.grow (h : Linked live dirs) (q : ι) : Linked (insert q live) dirs where
  dead p hp := h.dead p fun hin => hp (Set.mem_insert_of_mem q hin)
  target p e he := Set.mem_insert_of_mem q (h.target p e he)
  names := h.names
  once := h.once
  irrefl := h.irrefl

inductive Reaches (dirs : ι → List (Entry ν ι)) (root : ι) : ι → Prop
  | root : Reaches dirs root root
  | entry {p : ι} {e : Entry ν ι} : Reaches dirs root p → e ∈ dirs p → Reaches dirs root e.id

/-- All nodes can be reached from the root, which no entry refers to. -/
structure Rooted (live : Set ι) (dirs : ι → List (Entry ν ι)) (root : ι) : Prop where
  linked : Linked live dirs
  root_mem : root ∈ live
  reaches : ∀ q ∈ live, Reaches dirs root q
  unnamed : ∀ p, ∀ e ∈ dirs p, e.id ≠ root

theorem Rooted.exists_entry (h : Rooted live dirs root) (hq : q ∈ live) (hne : q ≠ root) :
    ∃ p e, Reaches dirs root p ∧ e ∈ dirs p ∧ e.id = q := by
  have hr := h.reaches q hq
  cases hr with
  | root => exact absurd rfl hne
  | entry hp he => exact ⟨_, _, hp, he, rfl⟩

section Find

variable [DecidableEq ν]

def find (l : List (Entry ν ι)) (n : ν) : Option (Entry ν ι) := l.find? (·.name = n)

theorem find_eq_some {l : List (Entry ν ι)} (h : find l n = some e) : e ∈ l ∧ e.name = n := by
  have hname := List.find?_some h
  exact ⟨List.mem_of_find?_eq_some h, by simpa using hname⟩

theorem find_eq_none {l : List (Entry ν ι)} : find l n = none ↔ ∀ e ∈ l, e.name ≠ n := by
  unfold find
  rw [List.find?_eq_none]
  simp

end Find

variable [DecidableEq ι]

def link (dirs : ι → List (Entry ν ι)) (p : ι) (e : Entry ν ι) : ι → List (Entry ν ι) :=
  Function.update dirs p (dirs p ++ [e])

theorem mem_link : e ∈ link dirs p ⟨n, q⟩ root ↔ e ∈ dirs root ∨ (root = p ∧ e = ⟨n, q⟩) := by
  unfold link
  by_cases hp : root = p
  · rw [hp, Function.update_self, List.mem_append, List.mem_singleton]
    simp
  · rw [Function.update_of_ne hp]
    simp [hp]

theorem Linked.link (h : Linked live dirs) (hp : p ∈ live) (hq : q ∉ live)
    (hn : ∀ e ∈ dirs p, e.name ≠ n) : Linked (insert q live) (link dirs p ⟨n, q⟩) := by
  have hpq : q ≠ p := fun heq => hq (heq ▸ hp)
  have hnot : ∀ x, ∀ e ∈ dirs x, e.id ≠ q := fun x e he heq => hq (heq ▸ h.target x e he)
  constructor
  case dead =>
    intro x hx
    rw [Set.mem_insert_iff, not_or] at hx
    unfold Tree.link
    rw [Function.update_of_ne (fun heq : x = p => hx.2 (heq ▸ hp)), h.dead x hx.2]
  case target =>
    intro x e he
    obtain he | ⟨-, rfl⟩ := mem_link.mp he
    · exact Set.mem_insert_of_mem q (h.target x e he)
    · exact Set.mem_insert q live
  case names =>
    intro x
    unfold Tree.link
    by_cases hx : x = p
    · rw [hx, Function.update_self, List.map_append, List.nodup_append]
      refine ⟨h.names p, List.nodup_singleton _, ?_⟩
      rintro _ hmem m hm rfl
      obtain ⟨e, he, heq⟩ := List.mem_map.mp hmem
      exact hn e he (heq.trans (List.mem_singleton.mp hm))
    · rw [Function.update_of_ne hx]
      exact h.names x
  case once =>
    intro x y e he e' he' heq
    obtain hin | ⟨rfl, rfl⟩ := mem_link.mp he
    · obtain hin' | ⟨rfl, rfl⟩ := mem_link.mp he'
      · exact h.once x y e hin e' hin' heq
      · exact absurd heq (hnot x e hin)
    · obtain hin' | ⟨rfl, rfl⟩ := mem_link.mp he'
      · exact absurd heq.symm (hnot y e' hin')
      · exact ⟨rfl, rfl⟩
  case irrefl =>
    intro x e he
    obtain he | ⟨rfl, rfl⟩ := mem_link.mp he
    · exact h.irrefl x e he
    · exact hpq

theorem Rooted.link (h : Rooted live dirs root) (hp : p ∈ live) (hq : q ∉ live)
    (hn : ∀ e ∈ dirs p, e.name ≠ n) : Rooted (insert q live) (link dirs p ⟨n, q⟩) root := by
  have hkeep : ∀ x, Reaches dirs root x → Reaches (Tree.link dirs p ⟨n, q⟩) root x := by
    intro x hx
    induction hx with
    | root => exact .root
    | entry _ he ih => exact ih.entry (mem_link.mpr (Or.inl he))
  constructor
  case linked => exact h.linked.link hp hq hn
  case root_mem => exact Set.mem_insert_of_mem q h.root_mem
  case reaches =>
    intro x hx
    obtain rfl | hx := hx
    · exact .entry (e := ⟨n, x⟩) (hkeep p (h.reaches p hp)) (mem_link.mpr (Or.inr ⟨rfl, rfl⟩))
    · exact hkeep x (h.reaches x hx)
  case unnamed =>
    intro x e he
    obtain he | ⟨-, rfl⟩ := mem_link.mp he
    · exact h.unnamed x e he
    · exact fun heq : q = root => hq (heq ▸ h.root_mem)

variable [DecidableEq ν]

/-- An entry is removed, and with it the list of the node it refers to. -/
def cut (dirs : ι → List (Entry ν ι)) (p : ι) (n : ν) : ι → List (Entry ν ι) :=
  match find (dirs p) n with
  | none => dirs
  | some e => Function.update (Function.update dirs p ((dirs p).erase e)) e.id []

theorem mem_cut (h : Linked live dirs) (he : find (dirs p) n = some e) {e' : Entry ν ι} :
    e' ∈ cut dirs p n q ↔ q ≠ e.id ∧ e' ≠ e ∧ e' ∈ dirs q := by
  have hmem := (find_eq_some he).1
  unfold cut
  rw [he]
  simp only
  by_cases hq : q = e.id
  · rw [hq, Function.update_self]
    simp
  · rw [Function.update_of_ne hq]
    by_cases hp : q = p
    · rw [hp, Function.update_self, (h.nodup p).mem_erase_iff]
      simp [h.irrefl p e hmem |>.symm]
    · rw [Function.update_of_ne hp]
      refine ⟨fun hin => ⟨hq, ?_, hin⟩, fun hin => hin.2.2⟩
      rintro rfl
      exact hp (h.once q p e' hin e' hmem rfl).1

theorem Linked.filter_eq_erase (h : Linked live dirs) (he : e ∈ dirs p) :
    (dirs p).filter (fun e' => e'.id ≠ e.id) = (dirs p).erase e := by
  rw [(h.nodup p).erase_eq_filter]
  apply List.filter_congr
  intro e' he'
  rw [bne, Bool.eq_iff_iff]
  simp only [decide_eq_true_eq, Bool.not_eq_true', beq_eq_false_iff_ne]
  exact ⟨fun hne heq => hne (heq ▸ rfl), fun hne heq => hne (h.once p p e' he' e he heq).2⟩

theorem Linked.exists_findIdx (h : Linked live dirs) (he : e ∈ dirs p) :
    ∃ i, (dirs p).findIdx? (fun e' => e'.id = e.id) = some i ∧ (dirs p).eraseIdx i = (dirs p).erase e := by
  have hany : (dirs p).any (fun e' => e'.id = e.id) = true :=
    List.any_eq_true.mpr ⟨e, he, decide_eq_true rfl⟩
  obtain ⟨i, hi⟩ := Option.isSome_iff_exists.mp (List.findIdx?_isSome.trans hany)
  obtain ⟨hlt, heq, -⟩ := List.findIdx?_eq_some_iff_getElem.mp hi
  have hget : (dirs p)[i] = e :=
    (h.once p p _ (List.getElem_mem hlt) e he (of_decide_eq_true heq)).2
  refine ⟨i, hi, ?_⟩
  rw [← hget, (h.nodup p).erase_getElem i hlt]

theorem Linked.cut (h : Linked live dirs) (he : find (dirs p) n = some e) :
    Linked (live \ {e.id}) (cut dirs p n) := by
  have hmem := (find_eq_some he).1
  constructor
  case dead =>
    intro x hx
    rw [List.eq_nil_iff_forall_not_mem]
    intro e' he'
    obtain ⟨hne, -, he'⟩ := (mem_cut h he).mp he'
    have hlive : x ∉ live := fun hin => hx ⟨hin, hne⟩
    rw [h.dead x hlive] at he'
    exact List.not_mem_nil he'
  case target =>
    intro x e' he'
    obtain ⟨-, hne, he'⟩ := (mem_cut h he).mp he'
    exact ⟨h.target x e' he', fun heq => hne (h.once x p e' he' e hmem heq).2⟩
  case names =>
    intro x
    unfold Tree.cut
    rw [he]
    simp only
    by_cases hx : x = e.id
    · rw [hx, Function.update_self]
      exact List.nodup_nil
    · rw [Function.update_of_ne hx]
      by_cases hp : x = p
      · rw [hp, Function.update_self]
        exact (h.names p).sublist (List.erase_sublist.map _)
      · rw [Function.update_of_ne hp]
        exact h.names x
  case once =>
    intro x y e₁ he₁ e₂ he₂ heq
    exact h.once x y e₁ ((mem_cut h he).mp he₁).2.2 e₂ ((mem_cut h he).mp he₂).2.2 heq
  case irrefl =>
    intro x e' he'
    exact h.irrefl x e' ((mem_cut h he).mp he').2.2

theorem Rooted.cut (h : Rooted live dirs root) (he : find (dirs p) n = some e) (hempty : dirs e.id = []) :
    Rooted (live \ {e.id}) (cut dirs p n) root := by
  have hmem := (find_eq_some he).1
  -- no way from the root leads through the node
  have hkeep : ∀ x, Reaches dirs root x → x ≠ e.id → Reaches (Tree.cut dirs p n) root x := by
    intro x hx
    induction hx with
    | root => exact fun _ => .root
    | entry hx he' ih =>
      intro hne
      rename_i x e'
      have hx' : x ≠ e.id := by
        rintro rfl
        rw [hempty] at he'
        exact List.not_mem_nil he'
      exact (ih hx').entry ((mem_cut h.linked he).mpr ⟨hx', fun heq => hne (heq ▸ rfl), he'⟩)
  constructor
  case linked => exact h.linked.cut he
  case root_mem => exact ⟨h.root_mem, fun heq => h.unnamed p e hmem heq.symm⟩
  case reaches => exact fun x hx => hkeep x (h.reaches x hx.1) hx.2
  case unnamed => exact fun x e' he' => h.unnamed x e' ((mem_cut h.linked he).mp he').2.2

end Chfs.Lib.Tree
