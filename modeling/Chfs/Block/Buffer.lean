import Chfs.Block.Manager
import Mathlib.Tactic.Linarith

/-! The bytes under `BlockManager` (`block/manager.cc`): one buffer, in which a
block is found by an offset of the 32-bit type `usize`. -/

namespace Chfs.Block.Buffer

open Lib.Effect Lib.Bytes Manager

structure Memory (sz cnt : ℕ) where
  blockData : List UInt8
  maybeFailed : Bool
  writeFailCnt : ℕ
  length_blockData : blockData.length = cnt * sz

variable {sz cnt : ℕ}

/-- The constructor, on a buffer that may hold anything. Its size is computed in
64 bits, where the product of two numbers of type `usize` fits. -/
def create (blockData : List UInt8) (h : blockData.length = cnt * sz) : Option (Memory sz cnt) :=
  if 0 < cnt * sz then some ⟨blockData, false, 0, h⟩ else none

abbrev Mm (sz cnt : ℕ) (α : Type) : Type := Op (Memory sz cnt) ErrorType α

def blockOffset (sz id : ℕ) : ℕ := id * sz % 2 ^ 32

def memcpy (offset : ℕ) (data : List UInt8) : Mm sz cnt Unit := fun m =>
  if h : offset + data.length ≤ cnt * sz then
    some (.ok (), { m with
      blockData := splice m.blockData offset data
      length_blockData := by rw [length_splice (by rw [m.length_blockData]; exact h), m.length_blockData] })
  else none

def maybeFail (id : ℕ) : Mm sz cnt Unit := fun m =>
  if m.maybeFailed = true ∧ id < cnt ∧ 3 ≤ m.writeFailCnt then
    some (.error .invalid, { m with writeFailCnt := 0 })
  else some (.ok (), m)

def countWrite (always : Bool) (id : ℕ) : Mm sz cnt Unit := fun m =>
  some (.ok (), { m with
    writeFailCnt := if always = true ∨ (m.maybeFailed = true ∧ id < cnt) then
      (m.writeFailCnt + 1) % 2 ^ 32 else m.writeFailCnt })

def writeBlock (id : ℕ) (data : List UInt8) : Mm sz cnt Unit := do
  maybeFail id
  require (data.length = sz)
  memcpy (blockOffset sz id) data
  countWrite false id

def writePartialBlock (id : ℕ) (data : List UInt8) (offset : ℕ) : Mm sz cnt Unit := do
  maybeFail id
  memcpy (blockOffset sz id + offset) data
  countWrite true id

def readBlock (id : ℕ) : Mm sz cnt (List UInt8) := fun m =>
  if blockOffset sz id + sz ≤ cnt * sz then
    some (.ok (slice m.blockData (blockOffset sz id) sz), m)
  else none

def zeroBlock (id : ℕ) : Mm sz cnt Unit := memcpy (blockOffset sz id) (List.replicate sz 0)

inductive Write
  | block (id : ℕ) (data : List UInt8)
  | part (id : ℕ) (data : List UInt8) (offset : ℕ)
  | zero (id : ℕ)
  deriving DecidableEq, Repr

def Write.blockId : Write → ℕ
  | .block id _ => id
  | .part id _ _ => id
  | .zero id => id

def Write.apply : Write → Mm sz cnt Unit
  | .block id data => writeBlock id data
  | .part id data offset => writePartialBlock id data offset
  | .zero id => zeroBlock id

/-- The same call on a device kept block by block. -/
def Write.applyBlocks : Write → Bm sz cnt 0 Unit
  | .block id data => Manager.writeBlock id data
  | .part id data offset => Manager.writePartialBlock id data offset
  | .zero id => Manager.zeroBlock id

def Write.onBlock (sz : ℕ) (content : List UInt8) : Write → List UInt8
  | .block _ data => data
  | .part _ data offset => splice content offset data
  | .zero _ => List.replicate sz 0

def Write.Inside (sz cnt : ℕ) (w : Write) : Prop :=
  w.blockId < cnt ∧ match w with
    | .block _ data => data.length = sz
    | .part _ data offset => offset + data.length ≤ sz
    | .zero _ => True

def runWrites : List Write → Mm sz cnt Unit
  | [] => pure ()
  | w :: ws => do
    w.apply
    runWrites ws

/-- After any calls a block has the content that the calls on this block give it. -/
def IsArray (sz cnt : ℕ) : Prop :=
  ∀ (blockData : List UInt8) (h : blockData.length = cnt * sz) (m : Memory sz cnt),
    create blockData h = some m → ∀ ws : List Write, (∀ w ∈ ws, w.Inside sz cnt) →
    ∃ t, runWrites ws m = some (.ok (), t) ∧ ∀ i < cnt, readBlock i t =
      some (.ok ((ws.filter (·.blockId = i)).foldl (Write.onBlock sz)
        (slice m.blockData (blockOffset sz i) sz)), t)

/-- A buffer and the blocks in it. -/
structure Same (m : Memory sz cnt) (bm : BlockManager sz cnt 0) : Prop where
  maybeFailed : m.maybeFailed = bm.maybeFailed
  writeFailCnt : m.writeFailCnt = bm.writeFailCnt
  blocks : ∀ i < cnt, slice m.blockData (i * sz) sz = bm.blocks i

section Fits

variable (hfits : (cnt - 1) * sz < 2 ^ 32) {m : Memory sz cnt} {bm : BlockManager sz cnt 0}
include hfits

theorem blockOffset_eq {i : ℕ} (hi : i < cnt) : blockOffset sz i = i * sz := by
  apply Nat.mod_eq_of_lt
  have := Nat.mul_le_mul_right sz (by omega : i ≤ cnt - 1)
  omega

omit hfits in
theorem end_le (sz : ℕ) {i : ℕ} (hi : i < cnt) : i * sz + sz ≤ cnt * sz := by
  rw [← Nat.succ_mul]
  exact Nat.mul_le_mul_right sz hi

omit hfits in
theorem apart (sz : ℕ) {i j : ℕ} (h : i ≠ j) : i * sz + sz ≤ j * sz ∨ j * sz + sz ≤ i * sz := by
  obtain hlt | hlt := Nat.lt_or_gt_of_ne h
  · exact Or.inl (end_le sz hlt)
  · exact Or.inr (end_le sz hlt)

theorem memcpy_blocks {id offset : ℕ} {data : List UInt8} (hid : id < cnt)
    (hin : offset + data.length ≤ sz) : ∃ t, memcpy (blockOffset sz id + offset) data m = some (.ok (), t) ∧
      t.maybeFailed = m.maybeFailed ∧ t.writeFailCnt = m.writeFailCnt ∧
      ∀ i < cnt, slice t.blockData (i * sz) sz =
        if i = id then splice (slice m.blockData (id * sz) sz) offset data
        else slice m.blockData (i * sz) sz := by
  have hend := end_le sz hid
  have hlen := m.length_blockData
  have hfit : id * sz + offset + data.length ≤ m.blockData.length := by omega
  unfold memcpy
  rw [blockOffset_eq hfits hid, dif_pos (by omega)]
  refine ⟨_, rfl, rfl, rfl, fun i hi => ?_⟩
  simp only
  split
  case isTrue heq =>
    subst heq
    apply List.ext_getElem?
    intro k
    rw [getElem?_slice, getElem?_splice hfit,
      getElem?_splice (by rw [length_slice (by omega)]; exact hin), getElem?_slice]
    by_cases hk : offset ≤ k ∧ k < offset + data.length
    · rw [if_pos hk, if_pos (by omega), if_pos (by omega)]
      congr 1
      omega
    · rw [if_neg hk]
      split
      · rw [if_neg (by omega)]
      · rfl
  case isFalse hne =>
    have hap := apart sz hne
    exact slice_splice_of_disjoint hfit (by omega)

theorem memcpy_same {id : ℕ} (offset : ℕ) (data : List UInt8) {content : List UInt8} (hid : id < cnt)
    (hin : offset + data.length ≤ sz) (h : Same m bm) (hlen : content.length = sz)
    (hcontent : splice (bm.blocks id) offset data = content) :
    ∃ t, memcpy (blockOffset sz id + offset) data m = some (.ok (), t) ∧ Same t (bm.setBlock id content hlen) := by
  obtain ⟨t, ht, h1, h2, hb⟩ := memcpy_blocks hfits (m := m) hid hin
  refine ⟨t, ht, h1.trans h.maybeFailed, h2.trans h.writeFailCnt, fun i hi => ?_⟩
  rw [hb i hi, setBlock_blocks]
  split
  case isTrue heq => rw [heq, Function.update_self, h.blocks id hid, hcontent]
  case isFalse hne => rw [Function.update_of_ne hne, h.blocks i hi]

omit hfits in
theorem splice_all {l data : List UInt8} (h : l.length = data.length) : splice l 0 data = data := by
  rw [splice, List.take_zero, List.nil_append, Nat.zero_add, List.drop_of_length_le (by omega),
    List.append_nil]

omit hfits in
theorem maybeFail_same {id : ℕ} (h : Same m bm) : maybeFail id m =
    if bm.fails id then some (.error .invalid, { m with writeFailCnt := 0 }) else some (.ok (), m) := by
  unfold maybeFail BlockManager.fails
  rw [h.maybeFailed, h.writeFailCnt]
  rfl

theorem zeroBlock_same {id : ℕ} (hid : id < cnt) (h : Same m bm) :
    ∃ r t u, zeroBlock id m = some (r, t) ∧ Manager.zeroBlock id bm = some (r, u) ∧ Same t u := by
  obtain ⟨t, ht, hs⟩ := memcpy_same hfits 0 (List.replicate sz 0) hid
    (by rw [List.length_replicate]; omega) h List.length_replicate
    (splice_all (by rw [bm.length_blocks, List.length_replicate]))
  exact ⟨_, t, _, ht, Manager.zeroBlock_apply hid, hs⟩

theorem writeBlock_same {id : ℕ} {data : List UInt8} (hid : id < cnt) (hlen : data.length = sz)
    (h : Same m bm) :
    ∃ r t u, writeBlock id data m = some (r, t) ∧ Manager.writeBlock id data bm = some (r, u) ∧ Same t u := by
  unfold writeBlock Manager.writeBlock
  by_cases hfail : bm.fails id
  · rw [bind_error (maybeFail_same h |>.trans (if_pos hfail)), if_pos hfail]
    exact ⟨_, _, _, rfl, rfl, h.maybeFailed, rfl, h.blocks⟩
  · have hm := (maybeFail_same h).trans (if_neg hfail)
    obtain ⟨t, ht, hs⟩ := memcpy_same hfits 0 data hid (by omega) h hlen
      (splice_all (by rw [bm.length_blocks, hlen]))
    rw [Nat.add_zero] at ht
    rw [bind_ok hm, require_of hlen, bind_ok (pure_apply ()), bind_ok ht, if_neg hfail,
      dif_pos ⟨by omega, hlen⟩]
    refine ⟨_, _, _, rfl, rfl, hs.maybeFailed, ?_, hs.blocks⟩
    simp only [Bool.false_eq_true, false_or]
    rw [hs.maybeFailed, hs.writeFailCnt]
    rfl

theorem writePartialBlock_same {id offset : ℕ} {data : List UInt8} (hid : id < cnt)
    (hin : offset + data.length ≤ sz) (h : Same m bm) :
    ∃ r t u, writePartialBlock id data offset m = some (r, t) ∧
      Manager.writePartialBlock id data offset bm = some (r, u) ∧ Same t u := by
  unfold writePartialBlock Manager.writePartialBlock
  by_cases hfail : bm.fails id
  · rw [bind_error (maybeFail_same h |>.trans (if_pos hfail)), if_pos hfail]
    exact ⟨_, _, _, rfl, rfl, h.maybeFailed, rfl, h.blocks⟩
  · have hm := (maybeFail_same h).trans (if_neg hfail)
    have hlen : (splice (bm.blocks id) offset data).length = sz := by
      rw [length_splice (by rw [bm.length_blocks]; exact hin), bm.length_blocks]
    obtain ⟨t, ht, hs⟩ := memcpy_same hfits offset data hid hin h hlen rfl
    rw [bind_ok hm, bind_ok ht, if_neg hfail, dif_pos ⟨by omega, hin⟩]
    refine ⟨_, _, _, rfl, rfl, hs.maybeFailed, ?_, hs.blocks⟩
    simp only [true_or, if_true]
    rw [hs.writeFailCnt]
    rfl

theorem apply_same {w : Write} (hw : w.Inside sz cnt) (h : Same m bm) :
    ∃ r t u, w.apply m = some (r, t) ∧ w.applyBlocks bm = some (r, u) ∧ Same t u := by
  obtain ⟨hid, hin⟩ := hw
  cases w with
  | block id data => exact writeBlock_same hfits hid hin h
  | part id data offset => exact writePartialBlock_same hfits hid hin h
  | zero id => exact zeroBlock_same hfits hid h

end Fits

theorem applyBlocks_spec {w : Write} {bm : BlockManager sz cnt 0} (hw : w.Inside sz cnt)
    (hbm : bm.maybeFailed = false) : ∃ u, w.applyBlocks bm = some (.ok (), u) ∧ u.maybeFailed = false ∧
      u.blocks = Function.update bm.blocks w.blockId (w.onBlock sz (bm.blocks w.blockId)) := by
  obtain ⟨hid, hin⟩ := hw
  cases w with
  | block id data => exact ⟨_, Manager.writeBlock_apply hbm hid hin, hbm, rfl⟩
  | part id data offset => exact Manager.writePartialBlock_blocks hbm hid hin
  | zero id => exact ⟨_, Manager.zeroBlock_apply hid, hbm, rfl⟩

theorem runWrites_same (hfits : (cnt - 1) * sz < 2 ^ 32) {ws : List Write} {m : Memory sz cnt}
    {bm : BlockManager sz cnt 0} (hws : ∀ w ∈ ws, w.Inside sz cnt) (h : Same m bm)
    (hbm : bm.maybeFailed = false) : ∃ t u, runWrites ws m = some (.ok (), t) ∧ Same t u ∧
      ∀ i, u.blocks i = (ws.filter (·.blockId = i)).foldl (Write.onBlock sz) (bm.blocks i) := by
  induction ws generalizing m bm with
  | nil => exact ⟨m, bm, rfl, h, fun _ => rfl⟩
  | cons w ws ih =>
    have hw := hws w List.mem_cons_self
    obtain ⟨r, t, u, ht, hu, hs⟩ := apply_same hfits hw h
    obtain ⟨u', hu', hworks, hblocks⟩ := applyBlocks_spec hw hbm
    cases hu.symm.trans hu'
    obtain ⟨t', v, ht', hs', hv⟩ := ih (fun w' hw' => hws w' (List.mem_cons_of_mem w hw')) hs hworks
    refine ⟨t', v, ?_, hs', fun i => ?_⟩
    · rw [runWrites, bind_ok ht, ht']
    · rw [hv, hblocks]
      by_cases hi : w.blockId = i
      · rw [List.filter_cons_of_pos (by simpa using hi), List.foldl_cons, ← hi, Function.update_self]
      · rw [List.filter_cons_of_neg (by simpa using hi), Function.update_of_ne (Ne.symm hi)]

theorem isArray_of_fits (hfits : (cnt - 1) * sz < 2 ^ 32) : IsArray sz cnt := by
  intro blockData hlen m hm ws hws
  have hm0 : m.maybeFailed = false := by
    unfold create at hm
    split at hm
    · cases hm
      rfl
    · cases hm
  -- the blocks as they are in the buffer of the constructor
  let bm : BlockManager sz cnt 0 :=
    { blocks := fun i => if i < cnt then slice m.blockData (i * sz) sz else List.replicate sz 0
      maybeFailed := m.maybeFailed
      writeFailCnt := m.writeFailCnt
      length_blocks := fun i => by
        split
        case isTrue hi => exact length_slice (by rw [m.length_blockData]; exact end_le sz hi)
        case isFalse => exact List.length_replicate }
  have hsame : Same m bm := ⟨rfl, rfl, fun i hi => (if_pos hi).symm⟩
  obtain ⟨t, u, ht, hs, hblocks⟩ := runWrites_same hfits hws hsame hm0
  refine ⟨t, ht, fun i hi => ?_⟩
  unfold readBlock
  rw [blockOffset_eq hfits hi, if_pos (end_le sz hi), hs.blocks i hi, hblocks]
  simp only [bm, if_pos hi]

/-- The first block whose offset does not fit lies over block 0. -/
theorem exists_overlap (hsz : sz < 2 ^ 32) (h : 2 ^ 32 ≤ (cnt - 1) * sz) :
    ∃ j < cnt, j ≠ 0 ∧ blockOffset sz j < sz := by
  have hpos : 0 < sz := by
    apply Nat.pos_of_ne_zero
    rintro rfl
    omega
  -- the offset is rounded up to a multiple of the block size
  have hdm := Nat.div_add_mod' (2 ^ 32 + sz - 1) sz
  have hmod := Nat.mod_lt (2 ^ 32 + sz - 1) hpos
  generalize (2 ^ 32 + sz - 1) / sz = j at hdm
  have hj : j ≤ cnt - 1 := by
    by_contra hlt
    have := Nat.mul_le_mul_right sz (by omega : cnt - 1 + 1 ≤ j)
    rw [Nat.succ_mul] at this
    omega
  have hj0 : j ≠ 0 := by
    rintro rfl
    omega
  refine ⟨j, by omega, hj0, ?_⟩
  unfold blockOffset
  generalize j * sz = x at hdm
  omega

theorem memcpy_apply (m : Memory sz cnt) (offset : ℕ) (data : List UInt8)
    (h : offset + data.length ≤ cnt * sz) : ∃ t, memcpy offset data m = some (.ok (), t) ∧
      t.blockData = splice m.blockData offset data ∧ t.maybeFailed = m.maybeFailed :=
  ⟨_, dif_pos h, rfl, rfl⟩

theorem zero_then_write {m : Memory sz cnt} {j : ℕ} {data : List UInt8}
    (hend : blockOffset sz j + sz ≤ cnt * sz) (hlen : data.length = sz) (hm : m.maybeFailed = false) :
    ∃ t, runWrites [.zero 0, .block j data] m = some (.ok (), t) ∧
      t.blockData = splice (splice m.blockData 0 (List.replicate sz 0)) (blockOffset sz j) data := by
  have hoff0 : blockOffset sz 0 = 0 := by rw [blockOffset, Nat.zero_mul, Nat.zero_mod]
  obtain ⟨t, ht, htd, htf⟩ := memcpy_apply m 0 (List.replicate sz 0)
    (by rw [List.length_replicate]; omega)
  obtain ⟨u, hu, hud, huf⟩ := memcpy_apply t (blockOffset sz j) data (by omega)
  have hmf : maybeFail j t = some (.ok (), t) := by
    unfold maybeFail
    rw [htf, hm]
    rfl
  have hw : writeBlock j data t = countWrite false j u := by
    unfold writeBlock
    rw [bind_ok hmf, require_of hlen, bind_ok (pure_apply ()), bind_ok hu]
  have hrun : runWrites [.zero 0, .block j data] m = countWrite false j u := by
    rw [runWrites, Write.apply, zeroBlock, hoff0, bind_ok ht, runWrites, Write.apply, runWrites,
      bind_ok (hw.trans rfl)]
    rfl
  exact ⟨_, hrun, hud.trans (by rw [htd])⟩

theorem not_isArray (hsz : sz < 2 ^ 32) (h : 2 ^ 32 ≤ (cnt - 1) * sz) : ¬ IsArray sz cnt := by
  intro harr
  obtain ⟨j, hj, hj0, hover⟩ := exists_overlap hsz h
  have hcnt : 0 < cnt := by omega
  have hone : sz ≤ cnt * sz := Nat.le_mul_of_pos_left sz hcnt
  have hend := end_le sz hj
  have hoff : blockOffset sz j ≤ j * sz := Nat.mod_le _ _
  have hlen : (List.replicate (cnt * sz) (0 : UInt8)).length = cnt * sz := List.length_replicate
  obtain ⟨t, ht, hread⟩ := harr (List.replicate (cnt * sz) 0) hlen ⟨_, false, 0, hlen⟩
    (if_pos (by omega)) [.zero 0, .block j (List.replicate sz 1)] (by
      intro w hw
      obtain rfl | hw := List.mem_cons.mp hw
      · exact ⟨hcnt, trivial⟩
      · obtain rfl := List.mem_singleton.mp hw
        exact ⟨hj, List.length_replicate⟩)
  obtain ⟨u, hu, hdata⟩ := zero_then_write (by omega : blockOffset sz j + sz ≤ cnt * sz)
    (List.length_replicate (a := (1 : UInt8))) (rfl : (Memory.mk _ false 0 hlen).maybeFailed = false)
  cases ht.symm.trans hu
  have hzero := hread 0 hcnt
  have hoff0 : blockOffset sz 0 = 0 := by rw [blockOffset, Nat.zero_mul, Nat.zero_mod]
  rw [readBlock, hoff0, if_pos (by omega), Option.some.injEq, Prod.mk.injEq, Except.ok.injEq, hdata] at hzero
  -- block 0 was cleared, and holds a byte of what was written to block `j`
  have hcontent : ([Write.zero 0, .block j (List.replicate sz 1)].filter (·.blockId = 0)) = [.zero 0] := by
    simp [Write.blockId, hj0]
  rw [hcontent] at hzero
  have hbyte := congrArg (fun l => l[blockOffset sz j]?) hzero.1
  have hspliced : (splice (List.replicate (cnt * sz) (0 : UInt8)) 0 (List.replicate sz 0)).length =
      cnt * sz := by
    rw [length_splice, List.length_replicate]
    rw [List.length_replicate, List.length_replicate]
    omega
  simp only [List.foldl_cons, List.foldl_nil, Write.onBlock] at hbyte
  rw [getElem?_slice, if_pos hover, Nat.zero_add, getElem?_splice, if_pos, Nat.sub_self,
    List.getElem?_replicate_of_lt (by omega), List.getElem?_replicate_of_lt hover] at hbyte
  · exact absurd hbyte (by decide)
  · rw [List.length_replicate]
    omega
  · rw [List.length_replicate, hspliced]
    omega

/-- A device is an array of blocks exactly where the offset of its last block
fits in 32 bits. -/
theorem isArray_iff (hsz : sz < 2 ^ 32) : IsArray sz cnt ↔ (cnt - 1) * sz < 2 ^ 32 := by
  constructor
  · intro harr
    by_contra h
    exact not_isArray hsz (by omega) harr
  · exact isArray_of_fits

theorem isArray_iff_largest : 4096 < 2 ^ 32 ∧ (IsArray 4096 1048576 ↔ (1048576 - 1) * 4096 < 2 ^ 32) :=
  ⟨by decide, isArray_iff (by decide)⟩

/-- One block more than 4 GiB of 4096-byte blocks. -/
theorem not_isArray_wrapped : 0 < 1048577 * 4096 ∧ ¬ IsArray 4096 1048577 :=
  ⟨by decide, not_isArray (by decide) (by decide)⟩

end Chfs.Block.Buffer
