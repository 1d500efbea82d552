import Mathlib.Data.List.Nodup
import Mathlib.Data.Set.Basic

namespace Chfs.Lib.Ledger

variable {ι κ : Type*}

/-- Every resource in use is in one place of one of the accounts `ids`, and the
others are in none. -/
structure Balanced (ids : Set ι) (accounts : ι → List κ) (used : κ → Prop) : Prop where
  listed : ∀ id ∈ ids, ∀ k ∈ accounts id, used k
  covered : ∀ k, used k → ∃ id ∈ ids, k ∈ accounts id
  nodup : ∀ id ∈ ids, (accounts id).Nodup
  owner : ∀ id ∈ ids, ∀ id' ∈ ids, ∀ k, k ∈ accounts id → k ∈ accounts id' → id = id'

variable {ids : Set ι} {accounts accounts' : ι → List κ} {used used' : κ → Prop} {id : ι} {k : κ}

theorem balanced_empty (hused : ∀ k, ¬ used k) (hnil : ∀ id ∈ ids, accounts id = []) :
    Balanced ids accounts used where
  listed id hid k hk := by
    rw [hnil id hid] at hk
    cases hk
  covered k hk := absurd hk (hused k)
  nodup id hid := by
    rw [hnil id hid]
    exact List.nodup_nil
  owner id hid _ _ k hk := by
    rw [hnil id hid] at hk
    cases hk

theorem Balanced.congr (h : Balanced ids accounts used) (heq : ∀ id ∈ ids, accounts' id = accounts id)
    (hused : ∀ k, used' k ↔ used k) : Balanced ids accounts' used' where
  listed id hid k hk := (hused k).mpr (h.listed id hid k (heq id hid ▸ hk))
  covered k hk := by
    obtain ⟨id, hid, hmem⟩ := h.covered k ((hused k).mp hk)
    exact ⟨id, hid, (heq id hid).symm ▸ hmem⟩
  nodup id hid := (heq id hid).symm ▸ h.nodup id hid
  owner id hid id' hid' k hk hk' := h.owner id hid id' hid' k (heq id hid ▸ hk) (heq id' hid' ▸ hk')

theorem balanced_univ (hnil : ∀ id, id ∉ ids → accounts id = []) :
    Balanced Set.univ accounts used ↔ Balanced ids accounts used := by
  have hmem : ∀ {id k}, k ∈ accounts id → id ∈ ids := by
    intro id k hk
    by_contra hid
    rw [hnil id hid] at hk
    cases hk
  constructor
  · intro h
    refine ⟨fun id _ => h.listed id trivial, fun k hk => ?_, fun id _ => h.nodup id trivial,
      fun id _ id' _ => h.owner id trivial id' trivial⟩
    obtain ⟨id, -, hk⟩ := h.covered k hk
    exact ⟨id, hmem hk, hk⟩
  · intro h
    refine ⟨fun id _ k hk => h.listed id (hmem hk) k hk, fun k hk => ?_, fun id _ => ?_,
      fun id _ id' _ k hk hk' => h.owner id (hmem hk) id' (hmem hk') k hk hk'⟩
    · obtain ⟨id, -, hk⟩ := h.covered k hk
      exact ⟨id, trivial, hk⟩
    · by_cases hid : id ∈ ids
      · exact h.nodup id hid
      · rw [hnil id hid]
        exact List.nodup_nil

theorem Balanced.place (h : Balanced ids accounts used) {id' : ι} (hid : id ∈ ids) (hid' : id' ∈ ids) {i j : ℕ}
    (hi : (accounts id)[i]? = some k) (hj : (accounts id')[j]? = some k) : id = id' ∧ i = j := by
  have heq := h.owner id hid id' hid' k (List.mem_of_getElem? hi) (List.mem_of_getElem? hj)
  subst heq
  refine ⟨rfl, ?_⟩
  obtain ⟨h1, h2⟩ := List.getElem?_eq_some_iff.mp hi
  obtain ⟨h3, h4⟩ := List.getElem?_eq_some_iff.mp hj
  exact (h.nodup id hid).getElem_inj_iff.mp (h2.trans h4.symm)

section Update

variable [DecidableEq ι]

theorem Balanced.add (h : Balanced ids accounts used) (hid : id ∈ ids) (hk : ¬ used k) :
    Balanced ids (Function.update accounts id (accounts id ++ [k])) fun x => used x ∨ x = k := by
  have hmem : ∀ id' x, x ∈ Function.update accounts id (accounts id ++ [k]) id' ↔
      x ∈ accounts id' ∨ (id' = id ∧ x = k) := by
    intro id' x
    by_cases heq : id' = id
    · rw [heq, Function.update_self, List.mem_append, List.mem_singleton]
      simp
    · rw [Function.update_of_ne heq]
      simp [heq]
  refine ⟨fun id' hid' x hx => ?_, fun x hx => ?_, fun id' hid' => ?_, fun a ha b hb x hxa hxb => ?_⟩
  · obtain hx | ⟨-, rfl⟩ := (hmem id' x).mp hx
    · exact Or.inl (h.listed id' hid' x hx)
    · exact Or.inr rfl
  · obtain hx | rfl := hx
    · obtain ⟨id', hid', hx⟩ := h.covered x hx
      exact ⟨id', hid', (hmem id' x).mpr (Or.inl hx)⟩
    · exact ⟨id, hid, (hmem id x).mpr (Or.inr ⟨rfl, rfl⟩)⟩
  · by_cases heq : id' = id
    · rw [heq, Function.update_self]
      refine List.Nodup.append (h.nodup id hid) (List.nodup_singleton k) fun x hx hx' => ?_
      rw [List.mem_singleton.mp hx'] at hx
      exact hk (h.listed id hid k hx)
    · rw [Function.update_of_ne heq]
      exact h.nodup id' hid'
  · obtain hina | ⟨ha', hxk⟩ := (hmem a x).mp hxa
    · obtain hinb | ⟨-, hxk⟩ := (hmem b x).mp hxb
      · exact h.owner a ha b hb x hina hinb
      · exact absurd (hxk ▸ h.listed a ha x hina) hk
    · obtain hinb | ⟨hb', -⟩ := (hmem b x).mp hxb
      · exact absurd (hxk ▸ h.listed b hb x hinb) hk
      · exact ha'.trans hb'.symm

theorem Balanced.remove (h : Balanced ids accounts used) (hid : id ∈ ids) {pos : ℕ}
    (hpos : (accounts id)[pos]? = some k) :
    Balanced ids (Function.update accounts id ((accounts id).eraseIdx pos)) fun x => used x ∧ x ≠ k := by
  classical
  obtain ⟨hlt, hget⟩ := List.getElem?_eq_some_iff.mp hpos
  have hkm : k ∈ accounts id := List.mem_of_getElem? hpos
  have hmem : ∀ id' ∈ ids, ∀ x, x ∈ Function.update accounts id ((accounts id).eraseIdx pos) id' ↔
      x ∈ accounts id' ∧ x ≠ k := by
    intro id' hid' x
    by_cases heq : id' = id
    · rw [heq, Function.update_self, ← (h.nodup id hid).erase_getElem pos hlt, hget,
        (h.nodup id hid).mem_erase_iff, and_comm]
    · rw [Function.update_of_ne heq]
      refine ⟨fun hx => ⟨hx, ?_⟩, fun hx => hx.1⟩
      rintro rfl
      exact heq (h.owner id' hid' id hid x hx hkm)
  refine ⟨fun id' hid' x hx => ?_, fun x hx => ?_, fun id' hid' => ?_, fun a ha b hb x hxa hxb => ?_⟩
  · obtain ⟨hx, hne⟩ := (hmem id' hid' x).mp hx
    exact ⟨h.listed id' hid' x hx, hne⟩
  · obtain ⟨id', hid', hx'⟩ := h.covered x hx.1
    exact ⟨id', hid', (hmem id' hid' x).mpr ⟨hx', hx.2⟩⟩
  · by_cases heq : id' = id
    · rw [heq, Function.update_self]
      exact (h.nodup id hid).eraseIdx pos
    · rw [Function.update_of_ne heq]
      exact h.nodup id' hid'
  · exact h.owner a ha b hb x ((hmem a ha x).mp hxa).1 ((hmem b hb x).mp hxb).1

end Update

end Chfs.Lib.Ledger
