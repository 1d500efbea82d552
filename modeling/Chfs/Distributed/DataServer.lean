import Chfs.Block.Allocator
import Chfs.Lib.Run

/-! `DataServer` (`distributed/dataserver.cc`): blocks with a version each. The
versions are the bytes of block 0; an odd one stands for an allocated block. -/

namespace Chfs.Distributed.DataServer

open Lib.Effect Lib.Bytes Lib.Run Block.Manager Block.Allocator

abbrev Server : Type := BlockManager 4096 4096 0

/-- `initialize`, on a file that does not exist yet. -/
def initializeServer : Bm 4096 4096 0 BlockAllocator := BlockAllocator.create 0 true

def versionAt (buffer : List UInt8) (blockId : ℕ) : UInt8 := buffer.getD blockId 0

def isAllocated (buffer : List UInt8) (blockId : ℕ) : Bool := (versionAt buffer blockId).toNat % 2 = 1

def bump (buffer : List UInt8) (blockId : ℕ) : List UInt8 :=
  buffer.set blockId (versionAt buffer blockId + 1)

def readData (blockId offset len version : ℕ) : Bm 4096 4096 0 (List UInt8) := do
  if 4096 ≤ blockId then pure [] else
    let mapBuffer ← readBlock 0
    if !isAllocated mapBuffer blockId then pure []
    else if (versionAt mapBuffer blockId).toNat ≠ version then pure []
    else
      let buffer ← readBlock blockId
      require (offset + len ≤ 4096)
      pure (slice buffer offset len)

def writeData (blockId offset : ℕ) (buffer : List UInt8) : Bm 4096 4096 0 Bool := do
  if 4096 ≤ blockId ∨ blockId = 0 ∨ 4096 < offset + buffer.length then pure false else
    let mapBuffer ← readBlock 0
    if !isAllocated mapBuffer blockId then pure false
    else
      writePartialBlock blockId buffer offset
      pure true

def findFree (buffer : List UInt8) : ℕ → ℕ → Option ℕ
  | 0, _ => none
  | k + 1, i => if isAllocated buffer i then findFree buffer k (i + 1) else some i

def allocBlock : Bm 4096 4096 0 (ℕ × ℕ) := do
  let buffer ← readBlock 0
  match findFree buffer 4095 1 with
  | none => pure (0, 0)
  | some res =>
    ignore (writeBlock 0 (bump buffer res))
    ignore (writeBlock res (List.replicate 4096 0))
    pure (res, (versionAt (bump buffer res) res).toNat)

/-- `free_block`. The bound lets the id 4096 pass, for which there is no byte. -/
def freeBlock (blockId : ℕ) : Bm 4096 4096 0 Bool := do
  if blockId = 0 ∨ 4096 < blockId then pure false else
    let buffer ← readBlock 0
    require (blockId < 4096)
    if !isAllocated buffer blockId then pure false
    else
      ignore (writeBlock 0 (bump buffer blockId))
      pure true

def version (s : Server) (b : ℕ) : UInt8 := versionAt (s.blocks 0) b

def allocated (s : Server) (b : ℕ) : Bool := isAllocated (s.blocks 0) b

section Spec

variable {s t : Server} {b i j k : ℕ} {buffer : List UInt8}

theorem length_bump (buffer : List UInt8) (b : ℕ) : (bump buffer b).length = buffer.length :=
  List.length_set

theorem versionAt_bump (hb : b < buffer.length) :
    versionAt (bump buffer b) j = if j = b then versionAt buffer b + 1 else versionAt buffer j := by
  unfold versionAt bump
  rw [List.getD_eq_getElem?_getD, List.getElem?_set]
  by_cases hj : j = b
  · rw [if_pos hj.symm, if_pos hb, if_pos hj, Option.getD_some]
    rfl
  · rw [if_neg (Ne.symm hj), if_neg hj, List.getD_eq_getElem?_getD]

theorem findFree_some (h : findFree buffer k i = some j) :
    i ≤ j ∧ j < i + k ∧ isAllocated buffer j = false ∧ ∀ m, i ≤ m → m < j → isAllocated buffer m = true := by
  induction k generalizing i with
  | zero => cases h
  | succ k ih =>
    rw [findFree] at h
    split at h
    case isTrue ha =>
      obtain ⟨h1, h2, h3, h4⟩ := ih h
      refine ⟨by omega, by omega, h3, fun m hm hlt => ?_⟩
      by_cases hmi : m = i
      · exact hmi ▸ ha
      · exact h4 m (by omega) hlt
    case isFalse ha =>
      cases h
      exact ⟨Nat.le_refl _, by omega, by simpa [allocated] using ha, fun m hm hlt => by omega⟩

theorem findFree_none (h : findFree buffer k i = none) {m : ℕ} (hm : i ≤ m) (hlt : m < i + k) :
    isAllocated buffer m = true := by
  induction k generalizing i with
  | zero => omega
  | succ k ih =>
    rw [findFree] at h
    split at h
    case isTrue ha =>
      by_cases hmi : m = i
      · exact hmi ▸ ha
      · exact ih h (by omega) (by omega)
    case isFalse => cases h

/-- The server after block `b` has changed hands. -/
def changed (s : Server) (b : ℕ) : Server :=
  s.setBlock 0 (bump (s.blocks 0) b) (by rw [length_bump, s.length_blocks])

theorem version_changed (hb : b < 4096) :
    version (changed s b) j = if j = b then version s b + 1 else version s j := by
  unfold version changed
  rw [setBlock_blocks, Function.update_self, versionAt_bump (by rw [s.length_blocks]; exact hb)]

def handedOut (s : Server) (b : ℕ) : Server :=
  (changed s b).setBlock b (List.replicate 4096 0) List.length_replicate

theorem version_handedOut (hb : 1 ≤ b) : version (handedOut s b) j = version (changed s b) j := by
  unfold version handedOut
  rw [setBlock_blocks, Function.update_of_ne (by omega)]

theorem allocBlock_eq (hs : s.maybeFailed = false) : allocBlock s =
    match findFree (s.blocks 0) 4095 1 with
    | none => some (.ok (0, 0), s)
    | some b => some (.ok (b, (version s b + 1).toNat), handedOut s b) := by
  unfold allocBlock
  rw [bind_ok (readBlock_apply s (by decide))]
  cases hfree : findFree (s.blocks 0) 4095 1 with
  | none => rfl
  | some b =>
    obtain ⟨h1, h2, -⟩ := findFree_some hfree
    have hlen : (bump (s.blocks 0) b).length = 4096 := by rw [length_bump, s.length_blocks]
    have hv : versionAt (bump (s.blocks 0) b) b = version s b + 1 := by
      rw [versionAt_bump (by rw [s.length_blocks]; omega), if_pos rfl]
      rfl
    have hw : (s.setBlock 0 (bump (s.blocks 0) b) hlen).maybeFailed = false := hs
    simp only
    rw [bind_ok (ignore_apply (writeBlock_apply hs (by decide) hlen)),
      bind_ok (ignore_apply (writeBlock_apply hw (by omega) List.length_replicate)), pure_apply, hv]
    rfl

theorem allocBlock_cases (hs : s.maybeFailed = false) {r : Except ErrorType (ℕ × ℕ)}
    (h : allocBlock s = some (r, t)) :
    (r = .ok (0, 0) ∧ t = s ∧ ∀ j, 1 ≤ j → j < 4096 → allocated s j = true) ∨
    ∃ b, r = .ok (b, (version s b + 1).toNat) ∧ 1 ≤ b ∧ b < 4096 ∧ allocated s b = false ∧
      (∀ j, 1 ≤ j → j < b → allocated s j = true) ∧ t = handedOut s b := by
  rw [allocBlock_eq hs] at h
  cases hfree : findFree (s.blocks 0) 4095 1 with
  | none =>
    rw [hfree] at h
    cases h
    exact Or.inl ⟨rfl, rfl, fun j h1 h2 => findFree_none hfree h1 (by omega)⟩
  | some b =>
    rw [hfree] at h
    cases h
    obtain ⟨h1, h2, h3, h4⟩ := findFree_some hfree
    exact Or.inr ⟨b, rfl, h1, by omega, h3, h4, rfl⟩

theorem freeBlock_eq (hs : s.maybeFailed = false) : freeBlock b s =
    if b = 0 ∨ 4096 < b then some (.ok false, s)
    else if b = 4096 then none
    else if allocated s b = true then some (.ok true, changed s b) else some (.ok false, s) := by
  unfold freeBlock
  split
  case isTrue => rfl
  case isFalse hb =>
    rw [bind_ok (readBlock_apply s (by decide))]
    by_cases heq : b = 4096
    · rw [if_pos heq, require, if_neg (by omega)]
      rfl
    · rw [if_neg heq, require_of (by omega), bind_ok (pure_apply ())]
      by_cases ha : allocated s b = true
      · have hlen : (bump (s.blocks 0) b).length = 4096 := by rw [length_bump, s.length_blocks]
        rw [if_pos ha, if_neg (by simpa [allocated] using ha),
          bind_ok (ignore_apply (writeBlock_apply hs (by decide) hlen)), pure_apply]
        rfl
      · rw [if_neg ha, if_pos (by simpa [allocated] using ha), pure_apply]

theorem freeBlock_cases (hs : s.maybeFailed = false) {r : Except ErrorType Bool}
    (h : freeBlock b s = some (r, t)) :
    (r = .ok false ∧ t = s ∧ (b = 0 ∨ 4096 < b ∨ allocated s b = false)) ∨
    (r = .ok true ∧ 1 ≤ b ∧ b < 4096 ∧ allocated s b = true ∧ t = changed s b) := by
  rw [freeBlock_eq hs] at h
  split at h
  case isTrue hb =>
    cases h
    exact Or.inl ⟨rfl, rfl, by omega⟩
  case isFalse hb =>
    split at h
    case isTrue => cases h
    case isFalse hne =>
      split at h
      case isTrue ha =>
        cases h
        exact Or.inr ⟨rfl, by omega, by omega, ha, rfl⟩
      case isFalse ha =>
        cases h
        exact Or.inl ⟨rfl, rfl, Or.inr (Or.inr (by simpa using ha))⟩

/-- `write_data` writes to the block if it is allocated, whatever its version. -/
theorem writeData_cases (hs : s.maybeFailed = false) {r : Except ErrorType Bool} {offset : ℕ}
    (h : writeData b offset buffer s = some (r, t)) :
    (r = .ok false ∧ t = s ∧
      (4096 ≤ b ∨ b = 0 ∨ 4096 < offset + buffer.length ∨ allocated s b = false)) ∨
    (r = .ok true ∧ 1 ≤ b ∧ b < 4096 ∧ offset + buffer.length ≤ 4096 ∧ allocated s b = true ∧
      t.maybeFailed = false ∧ t.blocks = Function.update s.blocks b (splice (s.blocks b) offset buffer)) := by
  unfold writeData at h
  split at h
  case isTrue hb =>
    cases h
    exact Or.inl ⟨rfl, rfl, by omega⟩
  case isFalse hb =>
    rw [bind_ok (readBlock_apply s (by decide))] at h
    split at h
    case isTrue ha =>
      cases h
      exact Or.inl ⟨rfl, rfl, Or.inr (Or.inr (Or.inr (by simpa [allocated] using ha)))⟩
    case isFalse ha =>
      obtain ⟨u, hu, hw, hblocks⟩ := writePartialBlock_blocks hs (by omega : b < 4096 + 0)
        (by omega : offset + buffer.length ≤ 4096)
      rw [bind_ok hu, pure_apply] at h
      cases h
      exact Or.inr ⟨rfl, by omega, by omega, by omega, by simpa [allocated] using ha, hw, hblocks⟩

theorem version_writeData (hs : s.maybeFailed = false) {r : Except ErrorType Bool} {offset : ℕ}
    (h : writeData b offset buffer s = some (r, t)) (j : ℕ) : version t j = version s j := by
  obtain ⟨-, rfl, -⟩ | ⟨-, h1, -, -, -, -, hblocks⟩ := writeData_cases hs h
  · rfl
  · unfold version
    rw [hblocks, Function.update_of_ne (by omega)]

theorem writeData_ok (hs : s.maybeFailed = false) {offset : ℕ} (hb : 1 ≤ b) (hlt : b < 4096)
    (hle : offset + buffer.length ≤ 4096) (ha : allocated s b = true) :
    ∃ t, writeData b offset buffer s = some (.ok true, t) ∧ t.maybeFailed = false ∧
      t.blocks = Function.update s.blocks b (splice (s.blocks b) offset buffer) := by
  obtain ⟨t, ht, hw, hblocks⟩ := writePartialBlock_blocks hs (by omega : b < 4096 + 0) hle
  refine ⟨t, ?_, hw, hblocks⟩
  unfold writeData
  rw [if_neg (by omega), bind_ok (readBlock_apply s (by decide)), if_neg (by simpa [allocated] using ha),
    bind_ok ht, pure_apply]

theorem writeData_refused {offset : ℕ} (ha : allocated s b = false) :
    writeData b offset buffer s = some (.ok false, s) := by
  unfold writeData
  split
  case isTrue => rfl
  case isFalse =>
    rw [bind_ok (readBlock_apply s (by decide)), if_pos (by simpa [allocated] using ha), pure_apply]

end Spec

end Chfs.Distributed.DataServer
