import Chfs.Block.Manager

namespace Chfs.Block.Address

open Lib.Effect Lib.Bytes Manager

variable {sz cnt logCnt : ℕ}

def offsetOf (sz id : ℕ) : ℕ := id * sz % 2 ^ 32

def byteAt (bm : BlockManager sz cnt logCnt) (a : ℕ) : UInt8 := (bm.blocks (a / sz)).getD (a % sz) 0

def bytesFrom (bm : BlockManager sz cnt logCnt) (off : ℕ) : List UInt8 :=
  (List.range sz).map fun i => byteAt bm (off + i)

def setBytes (bm : BlockManager sz cnt logCnt) (off : ℕ) (data : List UInt8) : BlockManager sz cnt logCnt where
  blocks b := (List.range sz).map fun i =>
    if off ≤ b * sz + i ∧ b * sz + i < off + data.length then data.getD (b * sz + i - off) 0
    else (bm.blocks b).getD i 0
  maybeFailed := bm.maybeFailed
  writeFailCnt := bm.writeFailCnt
  length_blocks b := by rw [List.length_map, List.length_range]

def readBlock (id : ℕ) : Bm sz cnt logCnt (List UInt8) := fun bm =>
  if offsetOf sz id + sz ≤ (cnt + logCnt) * sz then some (.ok (bytesFrom bm (offsetOf sz id)), bm) else none

def writeBlock (id : ℕ) (data : List UInt8) : Bm sz cnt logCnt Unit := fun bm =>
  if bm.fails id then some (.error .invalid, { bm with writeFailCnt := 0 })
  else if offsetOf sz id + sz ≤ (cnt + logCnt) * sz ∧ data.length = sz then
    some (.ok (), { setBytes bm (offsetOf sz id) data with
      writeFailCnt := if bm.maybeFailed = true ∧ id < cnt then (bm.writeFailCnt + 1) % 2 ^ 32
        else bm.writeFailCnt })
  else none

variable {bm t : BlockManager sz cnt logCnt} {id off : ℕ} {data : List UInt8}

theorem length_bytesFrom : (bytesFrom bm off).length = sz := by
  rw [bytesFrom, List.length_map, List.length_range]

theorem getElem?_bytesFrom {i : ℕ} (hi : i < sz) : (bytesFrom bm off)[i]? = some (byteAt bm (off + i)) := by
  rw [bytesFrom, List.getElem?_map, List.getElem?_range hi]
  rfl

theorem byteAt_block {b i : ℕ} (hi : i < sz) : byteAt bm (b * sz + i) = (bm.blocks b).getD i 0 := by
  rw [byteAt, Nat.mul_comm, Nat.mul_add_div (Nat.lt_of_le_of_lt (Nat.zero_le i) hi), Nat.div_eq_of_lt hi, Nat.add_zero,
    Nat.mul_add_mod, Nat.mod_eq_of_lt hi]

theorem bytesFrom_block (b : ℕ) : bytesFrom bm (b * sz) = bm.blocks b := by
  apply List.ext_getElem?
  intro i
  by_cases hi : i < sz
  · rw [getElem?_bytesFrom hi, byteAt_block hi, List.getD_eq_getElem?_getD,
      List.getElem?_eq_getElem (by rw [bm.length_blocks]; exact hi)]
    rfl
  · rw [List.getElem?_eq_none (by rw [length_bytesFrom]; omega),
      List.getElem?_eq_none (by rw [bm.length_blocks]; omega)]

theorem setBytes_block (b : ℕ) (h : data.length = sz) : setBytes bm (b * sz) data = bm.setBlock b data h := by
  have hblocks : (setBytes bm (b * sz) data).blocks = (bm.setBlock b data h).blocks := by
    funext c
    apply List.ext_getElem?
    intro i
    by_cases hi : i < sz
    · rw [setBlock_blocks, setBytes, List.getElem?_map, List.getElem?_range hi, Option.map_some]
      by_cases hcb : c = b
      · rw [hcb, Function.update_self, if_pos ⟨Nat.le_add_right _ _, by omega⟩, Nat.add_sub_cancel_left,
          List.getD_eq_getElem?_getD, List.getElem?_eq_getElem (by rw [h]; exact hi)]
        rfl
      · have hout : ¬ (b * sz ≤ c * sz + i ∧ c * sz + i < b * sz + data.length) := by
          rw [h, ← Nat.succ_mul]
          rintro ⟨hle, hlt⟩
          obtain hlow | hhigh := Nat.lt_or_gt_of_ne hcb
          · have := Nat.mul_le_mul_right sz hlow
            rw [Nat.succ_mul] at this
            omega
          · have := Nat.mul_le_mul_right sz hhigh
            omega
        rw [Function.update_of_ne hcb, if_neg hout, List.getD_eq_getElem?_getD,
          List.getElem?_eq_getElem (by rw [bm.length_blocks]; exact hi)]
        rfl
    · rw [List.getElem?_eq_none (by rw [(setBytes bm _ data).length_blocks]; omega),
        List.getElem?_eq_none (by rw [(bm.setBlock b data h).length_blocks]; omega)]
  unfold BlockManager.setBlock at hblocks ⊢
  unfold setBytes at hblocks ⊢
  rw [BlockManager.mk.injEq]
  exact ⟨hblocks, rfl, rfl⟩

section Small

variable (hsmall : (cnt + logCnt) * sz < 2 ^ 32) (hsz : 0 < sz) (hid : id < cnt + logCnt)
include hsmall hsz hid

theorem offsetOf_eq : offsetOf sz id = id * sz :=
  Nat.mod_eq_of_lt (Nat.lt_trans (Nat.mul_lt_mul_of_pos_right hid hsz) hsmall)

omit hsmall hsz in
theorem block_le : id * sz + sz ≤ (cnt + logCnt) * sz := by
  rw [← Nat.succ_mul]
  exact Nat.mul_le_mul_right _ hid

theorem readBlock_eq : readBlock id bm = Manager.readBlock id bm := by
  rw [readBlock, offsetOf_eq hsmall hsz hid, if_pos (block_le hid), bytesFrom_block, readBlock_apply bm hid]

theorem writeBlock_eq : writeBlock id data bm = Manager.writeBlock id data bm := by
  unfold writeBlock Manager.writeBlock
  by_cases hf : bm.fails id
  · rw [if_pos hf, if_pos hf]
  · rw [if_neg hf, if_neg hf, offsetOf_eq hsmall hsz hid]
    by_cases hlen : data.length = sz
    · rw [if_pos ⟨block_le hid, hlen⟩, dif_pos ⟨hid, hlen⟩, setBytes_block id hlen]
    · rw [if_neg fun h => hlen h.2, dif_neg fun h => hlen h.2]

end Small

theorem writeBlock_ok (hbm : bm.maybeFailed = false) {r : Except ErrorType Unit}
    (hrun : writeBlock id data bm = some (r, t)) : r = .ok () ∧ t.maybeFailed = false := by
  unfold writeBlock at hrun
  rw [if_neg (not_fails hbm id)] at hrun
  split at hrun
  case isTrue =>
    cases hrun
    exact ⟨rfl, hbm⟩
  case isFalse => cases hrun

/-- The index before the first entry of a table that begins with block 1, as 64
bits have it, leads to the last word of block 0. -/
theorem offset_before {per : ℕ} (hper : 0 < per) (hlt : 8 * per < 2 ^ 32) :
    offsetOf (8 * per) ((1 + (2 ^ 64 - 1) / per) % 2 ^ 64) + 8 * ((2 ^ 64 - 1) % per) = 8 * (per - 1) := by
  have hdm := Nat.div_add_mod (2 ^ 64 - 1) per
  have hmod := Nat.mod_lt (2 ^ 64 - 1) hper
  generalize (2 ^ 64 - 1) / per = q at hdm
  generalize (2 ^ 64 - 1) % per = r at hdm hmod
  have hoff : offsetOf (8 * per) ((1 + q) % 2 ^ 64) = 8 * (per - 1 - r) := by
    have hprod : (1 + q) * (8 * per) = 8 * (per - 1 - r) + 2 ^ 32 * 2 ^ 35 := by
      calc (1 + q) * (8 * per) = 8 * per + 8 * (per * q) := by
            rw [Nat.add_mul, Nat.one_mul, Nat.mul_left_comm, Nat.mul_comm q]
        _ = 8 * (per - 1 - r) + 2 ^ 32 * 2 ^ 35 := by omega
    rw [offsetOf, Nat.mul_mod, Nat.mod_mod_of_dvd _ (by decide : 2 ^ 32 ∣ 2 ^ 64), ← Nat.mul_mod, hprod,
      Nat.add_mul_mod_self_left]
    exact Nat.mod_eq_of_lt (by omega)
  omega

end Chfs.Block.Address
