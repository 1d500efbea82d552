import Chfs.Fs.Writing

namespace Chfs.Distributed.BlockMap

open Lib.Bytes Fs Fs.Inode Fs.Operations Fs.Files

structure BlockInfo where
  blockId : ℕ
  machineId : ℕ
  version : ℕ
  deriving DecidableEq, Repr

def blockCnt (inode : List UInt8) : ℕ := calculateBlockSz (getSize inode) 4096

def mixedId (info : BlockInfo) : ℕ := info.machineId * 2 ^ 32 + info.version

/-- Entry `i` as `get_block_map` returns it. -/
def infoAt (inode : List UInt8) (i : ℕ) : BlockInfo :=
  ⟨getBlock inode (2 * i), getBlock inode (2 * i + 1) / 2 ^ 32, getBlock inode (2 * i + 1) % 32⟩

def record (inode : List UInt8) (info : BlockInfo) (now : ℕ) : List UInt8 :=
  let cnt := blockCnt inode
  let inode := setBlockDirect inode (2 * cnt) info.blockId
  let inode := setBlockDirect inode (2 * cnt + 1) (mixedId info)
  setAllTime (setSize inode (getSize inode + 4096)) now

def findBlock (inode : List UInt8) (blockId machineId : ℕ) : ℕ → ℕ → Option ℕ
  | 0, _ => none
  | k + 1, i =>
    if getBlock inode (2 * i) = blockId ∧ getBlock inode (2 * i + 1) / 2 ^ 32 = machineId then some i
    else findBlock inode blockId machineId k (i + 1)

/-- The loop of `free_block` that moves the entries `i, i + 1, ..` down by one. -/
def moveDown (inode : List UInt8) : ℕ → ℕ → List UInt8
  | 0, _ => inode
  | k + 1, i =>
    let inode := setBlockDirect inode (2 * i - 2) (getBlock inode (2 * i))
    moveDown (setBlockDirect inode (2 * i - 1) (getBlock inode (2 * i + 1))) k (i + 1)

def dropEntry (inode : List UInt8) (pos now : ℕ) : List UInt8 :=
  let cnt := blockCnt inode
  let inode := setBlockDirect (setBlockDirect inode (2 * pos + 1) 0) (2 * pos) 0
  let inode := moveDown inode (cnt - (pos + 1)) (pos + 1)
  setAllTime (setSize inode ((getSize inode + (2 ^ 64 - 4096)) % 2 ^ 64)) now

structure Fits (info : BlockInfo) : Prop where
  blockId : info.blockId < 2 ^ 64
  machineId : info.machineId < 2 ^ 32
  version : info.version < 2 ^ 32

/-- The inode holds the entries `l`. -/
structure Maps (inode : List UInt8) (l : List BlockInfo) : Prop where
  shape : Shape 4096 inode
  size : getSize inode = l.length * 4096
  le : l.length ≤ 253
  fits : ∀ info ∈ l, Fits info
  entry : ∀ (i : ℕ) (info : BlockInfo), l[i]? = some info →
    getBlock inode (2 * i) = info.blockId ∧ getBlock inode (2 * i + 1) = mixedId info
  first : l = [] → getBlock inode 0 = invalidBlockId

theorem blockSize : BlockSize 4096 := ⟨by decide, by decide⟩

section Slots

variable {inode : List UInt8} {info : BlockInfo} {i j v : ℕ}

theorem mixedId_lt (h : Fits info) : mixedId info < 2 ^ 64 := by
  have h1 := h.machineId
  have h2 := h.version
  unfold mixedId
  omega

theorem getBlock_lt (inode : List UInt8) (j : ℕ) : getBlock inode j < 2 ^ 64 := getField_lt _ _ _

theorem setSlot_spec (hs : Shape 4096 inode) (hi : i ≤ 505) (hv : v < 2 ^ 64) :
    Shape 4096 (setBlockDirect inode i v) ∧ getSize (setBlockDirect inode i v) = getSize inode ∧
    ∀ j, getBlock (setBlockDirect inode i v) j = if j = i then v else getBlock inode j :=
  ⟨hs.setBlockDirect blockSize hi, hs.getSize_setBlockDirect blockSize hi,
    fun _ => hs.getBlock_setBlockDirect blockSize hi hv⟩

theorem stamp_spec (hs : Shape 4096 inode) (hv : v < 2 ^ 64) (now : ℕ) :
    Shape 4096 (setAllTime (setSize inode v) now) ∧ getSize (setAllTime (setSize inode v) now) = v ∧
    ∀ j, getBlock (setAllTime (setSize inode v) now) j = getBlock inode j := by
  obtain ⟨h1, h2, h3⟩ := hs.setSize blockSize hv
  obtain ⟨h4, h5, h6⟩ := h1.setAllTime blockSize (v := now)
  exact ⟨h4, h5.trans h2, fun j => (h6 j).trans (h3 j)⟩

theorem moveDown_spec {k : ℕ} (hs : Shape 4096 inode) (hi : 1 ≤ i) (hk : i + k ≤ 253) :
    Shape 4096 (moveDown inode k i) ∧ getSize (moveDown inode k i) = getSize inode ∧
    ∀ j, getBlock (moveDown inode k i) j =
      if 2 * i - 2 ≤ j ∧ j < 2 * (i + k) - 2 then getBlock inode (j + 2) else getBlock inode j := by
  induction k generalizing inode i with
  | zero =>
    refine ⟨hs, rfl, fun j => ?_⟩
    rw [if_neg (by omega)]
    rfl
  | succ k ih =>
    obtain ⟨hs₁, hsize₁, hget₁⟩ := setSlot_spec hs (by omega : 2 * i - 2 ≤ 505) (getBlock_lt inode (2 * i))
    obtain ⟨hs₂, hsize₂, hget₂⟩ := setSlot_spec hs₁ (by omega : 2 * i - 1 ≤ 505)
      (getBlock_lt (setBlockDirect inode (2 * i - 2) (getBlock inode (2 * i))) (2 * i + 1))
    obtain ⟨h1, h2, h3⟩ := ih hs₂ (by omega : 1 ≤ i + 1) (by omega)
    refine ⟨h1, h2.trans (hsize₂.trans hsize₁), fun j => (h3 j).trans ?_⟩
    rw [hget₂, hget₂, hget₁, hget₁, hget₁, if_neg (by omega : ¬ 2 * i + 1 = 2 * i - 2)]
    by_cases hin : 2 * (i + 1) - 2 ≤ j ∧ j < 2 * (i + 1 + k) - 2
    · rw [if_pos hin, if_neg (by omega), if_neg (by omega), if_pos (by omega)]
    · rw [if_neg hin]
      by_cases h1 : j = 2 * i - 1
      · rw [if_pos h1, if_pos (by omega), h1]
        congr 1
        omega
      · rw [if_neg h1]
        by_cases h2 : j = 2 * i - 2
        · rw [if_pos h2, if_pos (by omega), h2]
          congr 1
          omega
        · rw [if_neg h2, if_neg (by omega)]

end Slots

section Maps

variable {inode : List UInt8} {l : List BlockInfo} {info : BlockInfo} {i pos : ℕ}

theorem Maps.blockCnt (h : Maps inode l) : blockCnt inode = l.length := by
  unfold BlockMap.blockCnt calculateBlockSz
  rw [h.size, if_neg (by omega)]
  omega

/-- The entries as they are read back: five bits of the version are left. -/
theorem Maps.infoAt (h : Maps inode l) (hi : l[i]? = some info) :
    infoAt inode i = { info with version := info.version % 32 } := by
  obtain ⟨h1, h2⟩ := h.entry i info hi
  have hfits := h.fits info (List.mem_of_getElem? hi)
  have hv := hfits.version
  unfold BlockMap.infoAt
  rw [h1, h2, mixedId]
  congr 1 <;> omega

theorem Maps.record (h : Maps inode l) (hle : l.length < 253) (hfits : Fits info) (now : ℕ) :
    Maps (record inode info now) (l ++ [info]) := by
  obtain ⟨hs₁, hsize₁, hget₁⟩ := setSlot_spec h.shape (by omega : 2 * l.length ≤ 505) hfits.blockId
  obtain ⟨hs₂, hsize₂, hget₂⟩ := setSlot_spec hs₁ (by omega : 2 * l.length + 1 ≤ 505) (mixedId_lt hfits)
  unfold BlockMap.record
  rw [h.blockCnt]
  simp only
  rw [hsize₂, hsize₁, h.size]
  obtain ⟨h1, h2, h3⟩ := stamp_spec hs₂ (by omega : l.length * 4096 + 4096 < 2 ^ 64) now
  refine ⟨h1, ?_, ?_, fun x hx => ?_, fun i x hi => ?_, fun hnil => ?_⟩
  · rw [h2, List.length_append, List.length_singleton, Nat.add_mul]
  · rw [List.length_append, List.length_singleton]
    omega
  · obtain hx | hx := List.mem_append.mp hx
    · exact h.fits x hx
    · rw [List.mem_singleton.mp hx]
      exact hfits
  · rw [h3, h3, hget₂, hget₂, hget₁, hget₁]
    obtain hlt | rfl | hgt := Nat.lt_trichotomy i l.length
    · rw [List.getElem?_append_left hlt] at hi
      rw [if_neg (by omega), if_neg (by omega), if_neg (by omega), if_neg (by omega)]
      exact h.entry i x hi
    · rw [List.getElem?_concat_length, Option.some.injEq] at hi
      rw [← hi, if_neg (by omega), if_pos rfl, if_pos rfl]
      exact ⟨rfl, rfl⟩
    · rw [List.getElem?_eq_none (by rw [List.length_append, List.length_singleton]; omega)] at hi
      cases hi
  · cases (List.append_eq_nil_iff.mp hnil).2

theorem Maps.dropEntry (h : Maps inode l) (hpos : pos < l.length) (now : ℕ) :
    Maps (dropEntry inode pos now) (l.eraseIdx pos) := by
  have hle := h.le
  obtain ⟨hs₁, hsize₁, hget₁⟩ := setSlot_spec h.shape (by omega : 2 * pos + 1 ≤ 505) (v := 0) (by decide)
  obtain ⟨hs₂, hsize₂, hget₂⟩ := setSlot_spec hs₁ (by omega : 2 * pos ≤ 505) (v := 0) (by decide)
  obtain ⟨hs₃, hsize₃, hget₃⟩ := moveDown_spec hs₂ (by omega : 1 ≤ pos + 1)
    (by omega : pos + 1 + (l.length - (pos + 1)) ≤ 253)
  unfold BlockMap.dropEntry
  rw [h.blockCnt]
  simp only
  rw [hsize₃, hsize₂, hsize₁, h.size]
  obtain ⟨h1, h2, h3⟩ := stamp_spec hs₃
    (Nat.mod_lt _ (by decide) : (l.length * 4096 + (2 ^ 64 - 4096)) % 2 ^ 64 < 2 ^ 64) now
  refine ⟨h1, ?_, ?_, fun x hx => ?_, fun i x hi => ?_, fun hnil => ?_⟩
  · rw [h2, List.length_eraseIdx_of_lt hpos]
    omega
  · rw [List.length_eraseIdx_of_lt hpos]
    omega
  · exact h.fits x (List.mem_of_mem_eraseIdx hx)
  · rw [h3, h3, hget₃, hget₃, hget₂, hget₂, hget₂, hget₂, hget₁, hget₁, hget₁, hget₁]
    rw [List.getElem?_eraseIdx] at hi
    split at hi
    case isTrue hlt =>
      rw [if_neg (by omega), if_neg (by omega), if_neg (by omega), if_neg (by omega),
        if_neg (by omega), if_neg (by omega)]
      exact h.entry i x hi
    case isFalse hge =>
      have hbound := (List.getElem?_eq_some_iff.mp hi).1
      rw [if_pos (by omega), if_neg (by omega), if_neg (by omega), if_pos (by omega),
        if_neg (by omega), if_neg (by omega)]
      exact h.entry (i + 1) x hi
  · have hone := congrArg List.length hnil
    rw [List.length_eraseIdx_of_lt hpos, List.length_nil] at hone
    obtain rfl : pos = 0 := by omega
    rw [h3, hget₃, if_neg (by omega), hget₂]
    rfl

theorem Maps.findBlock (h : Maps inode l) (b m k : ℕ) (hk : i + k = l.length) :
    findBlock inode b m k i =
      ((l.drop i).findIdx? fun info => info.blockId = b ∧ info.machineId = m).map (i + ·) := by
  induction k generalizing i with
  | zero =>
    rw [List.drop_of_length_le (by omega)]
    rfl
  | succ k ih =>
    have hi : i < l.length := by omega
    obtain ⟨h1, h2⟩ := h.entry i _ (List.getElem?_eq_getElem hi)
    have hv := (h.fits _ (List.getElem_mem hi)).version
    have hm : mixedId l[i] / 2 ^ 32 = l[i].machineId := by
      unfold mixedId
      omega
    rw [BlockMap.findBlock, h1, h2, hm, List.drop_eq_getElem_cons hi, List.findIdx?_cons]
    by_cases heq : l[i].blockId = b ∧ l[i].machineId = m
    · rw [if_pos heq, if_pos (by simpa using heq)]
      rfl
    · rw [if_neg heq, if_neg (by simpa using heq), ih (by omega), Option.map_map]
      congr 1
      funext j
      simp only [Function.comp]
      omega

end Maps

end Chfs.Distributed.BlockMap
