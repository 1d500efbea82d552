import Chfs.Block.Manager

/-! `CommitLog` (`distributed/commit_log.cc`). The log lies behind the blocks of
the device: a superblock with the bitmap of the log area and one entry for each
transaction, and blocks that hold the records of a transaction or the new state
of one block. -/

namespace Chfs.Distributed.Logging

open Lib.Effect Lib.Bytes Block.Manager

def logBlockCnt : ℕ := 1024

def bitmapBytes : ℕ := 128

def bytesPerTxEntry : ℕ := 4

def bytesPerLogEntry : ℕ := 10

def operationOffset : ℕ := 4096 - 100

def kMaxLogSize : ℕ := 128

structure BlockOperation where
  blockId : UInt64
  newBlockState : List UInt8
  length_state : newBlockState.length = 4096

theorem length_zeros : (List.replicate 4096 (0 : UInt8)).length = 4096 := List.length_replicate

structure ServerOperation where
  type : UInt8
  parent : UInt64
  name : List UInt8
  deriving DecidableEq

/-- A device of `cnt` blocks with its log, and the members of `CommitLog` that
are not locks. The calls are made one after another. -/
structure CommitLog (cnt : ℕ) where
  isCheckpointEnabled : Bool
  bm : BlockManager 4096 cnt logBlockCnt
  maxTxnId : ℕ
  logEntriesNum : ℕ
  recoverOperations : List ServerOperation

variable {cnt : ℕ} {α : Type}

abbrev Cm (cnt : ℕ) (α : Type) : Type := Op (CommitLog cnt) ErrorType α

def create (bm : BlockManager 4096 cnt logBlockCnt) (isCheckpointEnabled : Bool) : CommitLog cnt where
  isCheckpointEnabled := isCheckpointEnabled
  bm := bm
  maxTxnId := 0
  logEntriesNum := 0
  recoverOperations := []

def onBm (x : Bm 4096 cnt logBlockCnt α) : Cm cnt α :=
  onPart CommitLog.bm (fun cl bm => { cl with bm := bm }) x

def readLog (i : ℕ) : Cm cnt (List UInt8) := onBm (readBlock (i + cnt))

def writeLog (i : ℕ) (buffer : List UInt8) : Cm cnt Unit := ignore (onBm (writeBlock (i + cnt) buffer))

def member (f : CommitLog cnt → α) : Cm cnt α := fun cl => some (.ok (f cl), cl)

def assign (f : CommitLog cnt → CommitLog cnt) : Cm cnt Unit := fun cl => some (.ok (), f cl)

def ofOption : Option α → Cm cnt α
  | some a => pure a
  | none => undefined

/-- The loop over the bits `j, j - 1, ..`: the first one that is clear, 8 if
there is none. The first bit of the first byte is passed over. -/
def freeIdx (i : ℕ) (curMap : UInt8) : ℕ → ℕ
  | 0 => 8
  | j + 1 =>
    if i = 0 ∧ j = 7 then freeIdx i curMap j
    else if curMap.toNat.testBit j = false then j
    else freeIdx i curMap j

def findFrom (data : List UInt8) : ℕ → ℕ → ℕ × List UInt8
  | 0, _ => (0, data)
  | k + 1, i =>
    let curMap := data.getD i 0
    let free := freeIdx i curMap 8
    if free = 8 then findFrom data k (i + 1)
    else
      let data := data.set i (curMap ||| UInt8.ofNat (2 ^ free))
      let freeLogblockId := i * 8 + (7 - free)
      if freeLogblockId = 0 then findFrom data k (i + 1) else (freeLogblockId, data)

def findFreeLogBlock (data : List UInt8) : Option (ℕ × List UInt8) :=
  let out := findFrom data bitmapBytes 0
  if 0 < out.1 then some out else none

def txnOffset (txnId : ℕ) : ℕ := bitmapBytes + txnId * bytesPerTxEntry

def operationBytes (operation : ServerOperation) : List UInt8 :=
  operation.type :: (leBytes 8 operation.parent.toNat ++ operation.name ++ [0])

def setOperation (txnBlockId : ℕ) (operation : ServerOperation) : Cm cnt Unit := do
  require (operationOffset + (operationBytes operation).length ≤ 4096)
  writeLog txnBlockId (splice (List.replicate 4096 0) operationOffset (operationBytes operation))

def getOperation (txnBlockId : ℕ) : Cm cnt ServerOperation := do
  let buffer ← readLog txnBlockId
  let rest := buffer.drop (operationOffset + 9)
  -- the loop over the name ends at a zero byte
  require (0 ∈ rest)
  pure ⟨buffer.getD operationOffset 0, UInt64.ofNat (getField buffer (operationOffset + 1) 8),
    rest.takeWhile (· ≠ 0)⟩

def allocTxn (operation : ServerOperation) : Cm cnt ℕ := do
  let buffer ← readLog 0
  let (freeLogblockId, buffer) ← ofOption (findFreeLogBlock buffer)
  let txnId ← member CommitLog.maxTxnId
  assign fun cl => { cl with maxTxnId := cl.maxTxnId + 1 }
  let startOffset := txnOffset txnId
  require (startOffset + 2 < 4096)
  writeLog 0 (splice buffer startOffset
    [UInt8.ofNat (freeLogblockId / 256), UInt8.ofNat (freeLogblockId % 256), 0])
  setOperation freeLogblockId operation
  pure txnId

def txnInfo (buffer : List UInt8) (txnId : ℕ) : ℕ × ℕ :=
  ((buffer.getD (txnOffset txnId) 0).toNat * 256 + (buffer.getD (txnOffset txnId + 1) 0).toNat,
    (buffer.getD (txnOffset txnId + 2) 0).toNat)

def getTxnInfo (txnId : ℕ) : Cm cnt (ℕ × ℕ) := do
  let buffer ← readLog 0
  require (txnOffset txnId + 2 < 4096)
  pure (txnInfo buffer txnId)

def findFreeLogBlocks : ℕ → List UInt8 → Option (List ℕ × List UInt8)
  | 0, data => some ([], data)
  | k + 1, data => do
    let (freeLogblockId, data) ← findFreeLogBlock data
    let (rest, data) ← findFreeLogBlocks k data
    some (freeLogblockId :: rest, data)

def allocLog (txnId logCnt : ℕ) : Cm cnt (ℕ × ℕ × List ℕ) := do
  let buffer ← readLog 0
  let (freeLogblocks, buffer) ← ofOption (findFreeLogBlocks logCnt buffer)
  require (txnOffset txnId + 2 < 4096)
  let (logBlockId, logCount) := txnInfo buffer txnId
  writeLog 0 (buffer.set (txnOffset txnId + 2) (UInt8.ofNat (logCount + logCnt)))
  assign fun cl => { cl with logEntriesNum := cl.logEntriesNum + logCnt }
  pure (logBlockId, logCount, freeLogblocks)

def recordBytes (blockId : UInt64) (logBlock : ℕ) : List UInt8 :=
  leBytes 8 blockId.toNat ++ [UInt8.ofNat (logBlock % 256), UInt8.ofNat (logBlock / 256)]

def appendRecords (idx : ℕ) (txnBuffer : List UInt8) : List (BlockOperation × ℕ) → Cm cnt (List UInt8)
  | [] => pure txnBuffer
  | (op, logBlock) :: ops => do
    let logOffset := idx * bytesPerLogEntry
    require (logOffset + bytesPerLogEntry ≤ 4096)
    writeLog logBlock op.newBlockState
    appendRecords (idx + 1) (splice txnBuffer logOffset (recordBytes op.blockId logBlock)) ops

def zeroLog : ℕ → ℕ → Cm cnt Unit
  | 0, _ => pure ()
  | k + 1, i => do
    writeLog i (List.replicate 4096 0)
    zeroLog k (i + 1)

def checkpoint : Cm cnt Unit := do
  zeroLog logBlockCnt 0
  assign fun cl => { cl with maxTxnId := 0, logEntriesNum := 0 }

def appendLog (txnId : ℕ) (ops : List BlockOperation) : Cm cnt Unit := do
  let (txnBlockId, logIdx, logBlocks) ← allocLog txnId ops.length
  let txnBuffer ← readLog txnBlockId
  let txnBuffer ← appendRecords logIdx txnBuffer (ops.zip logBlocks)
  writeLog txnBlockId txnBuffer
  if ← member (fun cl => decide (kMaxLogSize ≤ cl.logEntriesNum) && cl.isCheckpointEnabled) then
    checkpoint

def commitLog (txnId : ℕ) : Cm cnt Unit := do
  let buffer ← readLog 0
  require (txnOffset txnId + 3 < 4096)
  writeLog 0 (buffer.set (txnOffset txnId + 3) 1)

structure Write where
  blockId : ℕ
  data : List UInt8
  deriving DecidableEq

/-- The loop of `recover_tx` over the records `i, i + 1, ..`; its value is the
list of the writes it makes. Of the number of the log block, only the low byte
is kept. -/
def recoverRecords (buffer : List UInt8) : ℕ → ℕ → Cm cnt (List Write)
  | 0, _ => pure []
  | k + 1, i => do
    let logOffset := i * bytesPerLogEntry
    require (logOffset + bytesPerLogEntry ≤ 4096)
    let opBlockId := getField buffer logOffset 8
    let logBlockId := (buffer.getD (logOffset + 8) 0).toNat
    let stateData ← readLog logBlockId
    ignore (onBm (writeBlock opBlockId stateData))
    let rest ← recoverRecords buffer k (i + 1)
    pure (⟨opBlockId, stateData⟩ :: rest)

def recoverTx (txnBlockId logCnt : ℕ) : Cm cnt (List Write) := do
  let buffer ← readLog txnBlockId
  recoverRecords buffer logCnt 0

/-- The loop of `recover` over the entries `txnId, txnId + 1, ..` of the
superblock. What it takes for the mark of the commit is the number of records.
Its value is the list of the writes with the transactions they are made for. -/
def recoverFrom (buffer : List UInt8) : ℕ → ℕ → Cm cnt (List (ℕ × Write))
  | 0, _ => undefined
  | k + 1, txnId => do
    require (txnOffset txnId + 2 < 4096)
    let (logBlockId, logCount) := txnInfo buffer txnId
    if logBlockId = 0 then
      assign fun cl => { cl with maxTxnId := txnId }
      pure []
    else
      let hasCommit := buffer.getD (txnOffset txnId + 2) 0
      if hasCommit = 0 then
        let operation ← getOperation logBlockId
        assign fun cl => { cl with recoverOperations := cl.recoverOperations ++ [operation] }
        recoverFrom buffer k (txnId + 1)
      else
        let writes ← recoverTx logBlockId logCount
        let rest ← recoverFrom buffer k (txnId + 1)
        pure (writes.map (fun w => (txnId, w)) ++ rest)

def recover : Cm cnt (List (ℕ × Write)) := do
  assign fun cl => { cl with recoverOperations := [] }
  let buffer ← readLog 0
  recoverFrom buffer logBlockCnt 0

@[simp]
theorem member_apply (f : CommitLog cnt → α) (cl : CommitLog cnt) : member f cl = some (.ok (f cl), cl) := rfl

@[simp]
theorem assign_apply (f : CommitLog cnt → CommitLog cnt) (cl : CommitLog cnt) :
    assign f cl = some (.ok (), f cl) := rfl

theorem ofOption_eq_ok {o : Option α} {a : α} {cl cl' : CommitLog cnt}
    (h : ofOption o cl = some (.ok a, cl')) : o = some a ∧ cl' = cl := by
  cases o with
  | none => cases h
  | some a' =>
    cases h
    exact ⟨rfl, rfl⟩

section Area

variable (cl : CommitLog cnt) (i : ℕ)

def CommitLog.log : List UInt8 := cl.bm.blocks (i + cnt)

def CommitLog.setLog (data : List UInt8) (h : data.length = 4096) : CommitLog cnt :=
  { cl with bm := cl.bm.setBlock (i + cnt) data h }

theorem length_log : (cl.log i).length = 4096 := cl.bm.length_blocks _

variable {cl i} {data : List UInt8}

@[simp]
theorem log_setLog (h : data.length = 4096) (j : ℕ) :
    (cl.setLog i data h).log j = if j = i then data else cl.log j := by
  unfold CommitLog.log CommitLog.setLog
  rw [setBlock_blocks, Function.update_apply]
  congr 1
  rw [Nat.add_right_cancel_iff]

/-- Only the log area and the members have changed. -/
structure Frame (cl cl' : CommitLog cnt) : Prop where
  enabled : cl'.isCheckpointEnabled = cl.isCheckpointEnabled
  failed : cl'.bm.maybeFailed = cl.bm.maybeFailed
  home : ∀ id < cnt, cl'.bm.blocks id = cl.bm.blocks id

theorem Frame.refl (cl : CommitLog cnt) : Frame cl cl := ⟨rfl, rfl, fun _ _ => rfl⟩

theorem Frame.trans {cl cl' cl'' : CommitLog cnt} (h : Frame cl cl') (h' : Frame cl' cl'') :
    Frame cl cl'' :=
  ⟨h'.enabled.trans h.enabled, h'.failed.trans h.failed,
    fun id hid => (h'.home id hid).trans (h.home id hid)⟩

theorem frame_setLog (h : data.length = 4096) : Frame cl (cl.setLog i data h) where
  enabled := rfl
  failed := rfl
  home id hid := by
    rw [CommitLog.setLog, setBlock_blocks, Function.update_of_ne (by omega)]

theorem readLog_apply (hi : i < logBlockCnt) : readLog i cl = some (.ok (cl.log i), cl) := by
  have hr : readBlock (i + cnt) cl.bm = some (.ok (cl.log i), cl.bm) := readBlock_apply cl.bm (by omega)
  rw [readLog, onBm, onPart_apply hr]

/-- Simulated failures do not reach the log area. -/
theorem writeLog_apply (hi : i < logBlockCnt) (h : data.length = 4096) :
    writeLog i data cl = some (.ok (), cl.setLog i data h) := by
  have hout : ¬ i + cnt < cnt := by omega
  have hw : writeBlock (i + cnt) data cl.bm = some (.ok (), cl.bm.setBlock (i + cnt) data h) := by
    unfold writeBlock
    rw [if_neg (fun hf => hout hf.2.1), dif_pos ⟨by omega, h⟩, if_neg (fun hf => hout hf.2)]
    rfl
  exact ignore_apply (onPart_apply hw)

end Area

section Bitmap

def marked (data : List UInt8) (b : ℕ) : Bool := (data.getD (b / 8) 0).toNat.testBit (7 - b % 8)

def mark (data : List UInt8) (b : ℕ) : List UInt8 :=
  data.set (b / 8) (data.getD (b / 8) 0 ||| UInt8.ofNat (2 ^ (7 - b % 8)))

variable {data : List UInt8} {b c i k : ℕ}

@[simp]
theorem length_mark (data : List UInt8) (b : ℕ) : (mark data b).length = data.length := List.length_set

theorem getD_mark_of_ne (h : c ≠ b / 8) : (mark data b).getD c 0 = data.getD c 0 := by
  rw [mark, List.getD_eq_getElem?_getD, List.getElem?_set_ne h.symm, List.getD_eq_getElem?_getD]

theorem testBit_or_pow (x : UInt8) {j : ℕ} (hj : j < 8) (k : ℕ) :
    (x ||| UInt8.ofNat (2 ^ j)).toNat.testBit k = (x.toNat.testBit k || decide (j = k)) := by
  have hpow : (UInt8.ofNat (2 ^ j)).toNat = 2 ^ j := by
    rw [UInt8.toNat_ofNat', Nat.mod_eq_of_lt]
    exact Nat.pow_lt_pow_right (by decide) hj
  rw [UInt8.toNat_or, Nat.testBit_or, hpow, Nat.testBit_two_pow]

theorem marked_mark (hb : b / 8 < data.length) :
    marked (mark data b) c = (marked data c || decide (b = c)) := by
  unfold marked
  by_cases hc : c / 8 = b / 8
  · have heq : (mark data b).getD (b / 8) 0 = data.getD (b / 8) 0 ||| UInt8.ofNat (2 ^ (7 - b % 8)) := by
      rw [mark, List.getD_eq_getElem?_getD, List.getElem?_set_self hb, Option.getD_some]
    rw [hc, heq, testBit_or_pow _ (by omega)]
    congr 1
    exact decide_eq_decide.mpr (by omega)
  · rw [getD_mark_of_ne hc, decide_eq_false (by omega), Bool.or_false]

def Passed (i : ℕ) (curMap : UInt8) (j : ℕ) : Prop := (i = 0 ∧ j = 7) ∨ curMap.toNat.testBit j = true

theorem freeIdx_succ (i : ℕ) (curMap : UInt8) (j : ℕ) : (Passed i curMap j ∧
    freeIdx i curMap (j + 1) = freeIdx i curMap j) ∨ (¬ Passed i curMap j ∧ freeIdx i curMap (j + 1) = j) := by
  rw [freeIdx]
  split
  case isTrue h => exact Or.inl ⟨Or.inl h, rfl⟩
  case isFalse h =>
    split
    case isTrue hbit =>
      refine Or.inr ⟨?_, rfl⟩
      rintro (h' | h')
      · exact h h'
      · cases hbit.symm.trans h'
    case isFalse hbit => exact Or.inl ⟨Or.inr (Bool.of_not_eq_false hbit), rfl⟩

theorem freeIdx_spec (i : ℕ) (curMap : UInt8) (j : ℕ) :
    (freeIdx i curMap j = 8 ∧ ∀ k < j, Passed i curMap k) ∨
    (freeIdx i curMap j < j ∧ ¬ Passed i curMap (freeIdx i curMap j) ∧
      ∀ k < j, freeIdx i curMap j < k → Passed i curMap k) := by
  induction j with
  | zero => exact Or.inl ⟨rfl, by omega⟩
  | succ j ih =>
    obtain ⟨hpass, heq⟩ | ⟨hstop, heq⟩ := freeIdx_succ i curMap j
    · rw [heq]
      obtain ⟨h8, hall⟩ | ⟨hlt, hstop, hall⟩ := ih
      · refine Or.inl ⟨h8, fun k hk => ?_⟩
        obtain hlt | rfl := Nat.lt_succ_iff_lt_or_eq.mp hk
        · exact hall k hlt
        · exact hpass
      · refine Or.inr ⟨by omega, hstop, fun k hk hgt => ?_⟩
        obtain hlt | rfl := Nat.lt_succ_iff_lt_or_eq.mp hk
        · exact hall k hlt hgt
        · exact hpass
    · rw [heq]
      exact Or.inr ⟨Nat.lt_succ_self j, hstop, by omega⟩

theorem passed_iff (b : ℕ) : Passed (b / 8) (data.getD (b / 8) 0) (7 - b % 8) ↔ b = 0 ∨ marked data b = true := by
  unfold Passed marked
  exact or_congr_left (by omega)

theorem findFrom_spec (k i : ℕ) : (findFrom data k i = (0, data) ∧
      ∀ b, i * 8 ≤ b → b < (i + k) * 8 → b = 0 ∨ marked data b = true) ∨
    ∃ b, i * 8 ≤ b ∧ b < (i + k) * 8 ∧ b ≠ 0 ∧ marked data b = false ∧
      (∀ c, i * 8 ≤ c → c < b → c = 0 ∨ marked data c = true) ∧ findFrom data k i = (b, mark data b) := by
  induction k generalizing i with
  | zero => exact Or.inl ⟨rfl, by omega⟩
  | succ k ih =>
    rw [findFrom]
    simp only
    have hbit : ∀ c, i * 8 ≤ c → c < (i + 1) * 8 → c / 8 = i := by omega
    obtain ⟨h8, hall⟩ | ⟨hlt, hstop, hall⟩ := freeIdx_spec i (data.getD i 0) 8
    · have hbyte : ∀ c, i * 8 ≤ c → c < (i + 1) * 8 → c = 0 ∨ marked data c = true := by
        intro c hc hc'
        rw [← passed_iff, hbit c hc hc']
        exact hall _ (by omega)
      rw [if_pos h8]
      obtain ⟨heq, hrest⟩ | ⟨b, hb, hb', hne, hclear, hrest, heq⟩ := ih (i + 1)
      · refine Or.inl ⟨heq, fun c hc hc' => ?_⟩
        obtain h | h := Nat.lt_or_ge c ((i + 1) * 8)
        · exact hbyte c hc h
        · exact hrest c h (by omega)
      · refine Or.inr ⟨b, by omega, by omega, hne, hclear, fun c hc hc' => ?_, heq⟩
        obtain h | h := Nat.lt_or_ge c ((i + 1) * 8)
        · exact hbyte c hc h
        · exact hrest c h hc'
    · obtain ⟨free, hfree⟩ : ∃ free, freeIdx i (data.getD i 0) 8 = free := ⟨_, rfl⟩
      rw [hfree] at hlt hstop hall ⊢
      obtain ⟨b, hb⟩ : ∃ b, b = i * 8 + (7 - free) := ⟨_, rfl⟩
      have hdiv : b / 8 = i := by omega
      have hmod : 7 - b % 8 = free := by omega
      have hnot : ¬ (b = 0 ∨ marked data b = true) := by
        rw [← passed_iff, hdiv, hmod]
        exact hstop
      have hne : b ≠ 0 := fun h => hnot (Or.inl h)
      rw [if_neg (by omega), ← hb, if_neg hne]
      refine Or.inr ⟨b, by omega, by omega, hne, Bool.of_not_eq_true fun h => hnot (Or.inr h), ?_, ?_⟩
      · intro c hc hc'
        rw [← passed_iff, hbit c hc (by omega)]
        exact hall _ (by omega) (by omega)
      · rw [mark, hdiv, hmod]

theorem findFreeLogBlock_spec (data : List UInt8) :
    (findFreeLogBlock data = none ∧ ∀ b, 0 < b → b < logBlockCnt → marked data b = true) ∨
    ∃ b, 0 < b ∧ b < logBlockCnt ∧ marked data b = false ∧ (∀ c, 0 < c → c < b → marked data c = true) ∧
      findFreeLogBlock data = some (b, mark data b) := by
  unfold findFreeLogBlock
  obtain ⟨heq, hall⟩ | ⟨b, -, hb, hne, hclear, hall, heq⟩ := @findFrom_spec data bitmapBytes 0
  · refine Or.inl ⟨by rw [heq]; rfl, fun b hpos hb => ?_⟩
    exact (hall b (Nat.zero_le _) hb).resolve_left (by omega)
  · refine Or.inr ⟨b, by omega, hb, hclear, fun c hpos hc => ?_, ?_⟩
    · exact (hall c (by omega) hc).resolve_left (by omega)
    · rw [heq]
      exact if_pos (by simp only; omega)

end Bitmap

section Calls

variable {cl : CommitLog cnt} {operation : ServerOperation} {data : List UInt8} {b t : ℕ}

theorem length_operationBytes (operation : ServerOperation) :
    (operationBytes operation).length = operation.name.length + 10 := by
  simp only [operationBytes, List.length_cons, List.length_append, length_leBytes, List.length_nil]
  omega

def operationBlock (operation : ServerOperation) : List UInt8 :=
  splice (List.replicate 4096 0) operationOffset (operationBytes operation)

theorem length_operationBlock (hname : operation.name.length ≤ 90) :
    (operationBlock operation).length = 4096 := by
  rw [operationBlock, length_splice, List.length_replicate]
  rw [List.length_replicate, length_operationBytes, operationOffset]
  omega

theorem setOperation_apply (hb : b < logBlockCnt) (hname : operation.name.length ≤ 90) :
    setOperation b operation cl = some (.ok (), cl.setLog b _ (length_operationBlock hname)) := by
  have hroom : operationOffset + (operationBytes operation).length ≤ 4096 := by
    rw [length_operationBytes, operationOffset]
    omega
  rw [setOperation, require_of hroom, bind_ok (pure_apply ())]
  exact writeLog_apply hb (length_operationBlock hname)

def entryBytes (b : ℕ) : List UInt8 := [UInt8.ofNat (b / 256), UInt8.ofNat (b % 256), 0]

theorem length_entry (hdata : data.length = 4096) (ht : txnOffset t + 2 < 4096) (b : ℕ) :
    (splice data (txnOffset t) (entryBytes b)).length = 4096 := by
  have hlen : (entryBytes b).length = 3 := rfl
  rw [length_splice (by omega), hdata]

theorem allocTxn_apply (hfind : findFreeLogBlock (cl.log 0) = some (b, data)) (hb : b < logBlockCnt)
    (hdata : data.length = 4096) (ht : txnOffset cl.maxTxnId + 2 < 4096)
    (hname : operation.name.length ≤ 90) : allocTxn operation cl = some (.ok cl.maxTxnId,
      (({ cl with maxTxnId := cl.maxTxnId + 1 } : CommitLog cnt).setLog 0 _
        (length_entry hdata ht b)).setLog b _ (length_operationBlock hname)) := by
  unfold allocTxn
  rw [bind_ok (readLog_apply (by decide)), hfind, ofOption, bind_ok (pure_apply _)]
  simp only
  rw [bind_ok (member_apply _ _), bind_ok (assign_apply _ _), require_of ht, bind_ok (pure_apply ()),
    ← entryBytes, bind_ok (writeLog_apply (by decide) (length_entry hdata ht b)),
    bind_ok (setOperation_apply hb hname), pure_apply]

/-- A name that does not fit overflows the buffer. -/
theorem allocTxn_long (hfind : findFreeLogBlock (cl.log 0) = some (b, data)) (hdata : data.length = 4096)
    (ht : txnOffset cl.maxTxnId + 2 < 4096) (hname : ¬ operation.name.length ≤ 90) :
    allocTxn operation cl = none := by
  have hlong : ¬ operationOffset + (operationBytes operation).length ≤ 4096 := by
    rw [length_operationBytes]
    unfold operationOffset
    omega
  unfold allocTxn
  rw [bind_ok (readLog_apply (by decide)), hfind, ofOption, bind_ok (pure_apply _)]
  simp only
  rw [bind_ok (member_apply _ _), bind_ok (assign_apply _ _), require_of ht, bind_ok (pure_apply ()),
    ← entryBytes, bind_ok (writeLog_apply (by decide) (length_entry hdata ht b)), setOperation, require, if_neg hlong]
  rfl

theorem length_countByte (hdata : data.length = 4096) (i : ℕ) (x : UInt8) : (data.set i x).length = 4096 :=
  List.length_set.trans hdata

def CommitLog.counted (cl : CommitLog cnt) (t n : ℕ) (hdata : data.length = 4096) : CommitLog cnt :=
  { cl.setLog 0 _ (length_countByte hdata (txnOffset t + 2) (UInt8.ofNat ((txnInfo data t).2 + n))) with
    logEntriesNum := cl.logEntriesNum + n }

theorem log_counted (hdata : data.length = 4096) (n j : ℕ) : (cl.counted t n hdata).log j = if j = 0
    then data.set (txnOffset t + 2) (UInt8.ofNat ((txnInfo data t).2 + n)) else cl.log j :=
  log_setLog (length_countByte hdata _ _) j

theorem frame_counted (hdata : data.length = 4096) (n : ℕ) : Frame cl (cl.counted t n hdata) :=
  ⟨rfl, rfl, (frame_setLog (length_countByte hdata _ _)).home⟩

theorem allocLog_apply {n : ℕ} {bs : List ℕ} (hfind : findFreeLogBlocks n (cl.log 0) = some (bs, data))
    (hdata : data.length = 4096) (ht : txnOffset t + 2 < 4096) : allocLog t n cl =
      some (.ok ((txnInfo data t).1, (txnInfo data t).2, bs), cl.counted t n hdata) := by
  unfold allocLog
  rw [bind_ok (readLog_apply (by decide)), hfind, ofOption, bind_ok (pure_apply _)]
  simp only
  rw [require_of ht, bind_ok (pure_apply ()), bind_ok (writeLog_apply (by decide) (length_countByte hdata _ _)),
    bind_ok (assign_apply _ _), pure_apply]
  rfl

theorem commitLog_apply (ht : txnOffset t + 3 < 4096) : commitLog t cl =
    some (.ok (), cl.setLog 0 _ (length_countByte (length_log cl 0) (txnOffset t + 3) 1)) := by
  unfold commitLog
  rw [bind_ok (readLog_apply (by decide)), require_of ht, bind_ok (pure_apply ()),
    writeLog_apply (by decide) (length_countByte (length_log cl 0) _ _)]

theorem length_recordBytes (blockId : UInt64) (b : ℕ) : (recordBytes blockId b).length = 10 := by
  rw [recordBytes, List.length_append, length_leBytes]
  rfl

/-- What the loop over the operations does: it stores the new states in their
log blocks and the records in the buffer, from record `idx` on. -/
structure Appended (cl : CommitLog cnt) (idx : ℕ) (buffer : List UInt8) (ops : List (BlockOperation × ℕ))
    (buffer' : List UInt8) (cl' : CommitLog cnt) : Prop where
  frame : Frame cl cl'
  txns : cl'.maxTxnId = cl.maxTxnId
  entries : cl'.logEntriesNum = cl.logEntriesNum
  length : buffer'.length = 4096
  states : (ops.map Prod.snd).Nodup → ∀ o ∈ ops, cl'.log o.2 = o.1.newBlockState
  others : ∀ j, j ∉ ops.map Prod.snd → cl'.log j = cl.log j
  records : ∀ i o, ops[i]? = some o → slice buffer' ((idx + i) * 10) 10 =
    recordBytes o.1.blockId o.2
  rest : ∀ off k, off + k ≤ idx * 10 ∨ (idx + ops.length) * 10 ≤ off →
    slice buffer' off k = slice buffer off k

theorem appendRecords_spec (cl : CommitLog cnt) (ops : List (BlockOperation × ℕ)) (idx : ℕ) {buffer : List UInt8}
    (hbuf : buffer.length = 4096) (hlt : ∀ o ∈ ops, o.2 < logBlockCnt)
    (hroom : (idx + ops.length) * 10 ≤ 4096) : ∃ buffer' cl',
      appendRecords idx buffer ops cl = some (.ok buffer', cl') ∧ Appended cl idx buffer ops buffer' cl' := by
  induction ops generalizing cl idx buffer with
  | nil =>
    refine ⟨buffer, cl, rfl, ?_⟩
    exact ⟨.refl cl, rfl, rfl, hbuf, nofun, fun _ _ => rfl, nofun, fun _ _ _ => rfl⟩
  | cons o ops ih =>
    obtain ⟨op, b⟩ := o
    have hb : b < logBlockCnt := hlt (op, b) List.mem_cons_self
    rw [List.length_cons] at hroom
    have hoff : idx * 10 + (recordBytes op.blockId b).length ≤ buffer.length := by
      rw [length_recordBytes, hbuf]
      omega
    have hlen : (splice buffer (idx * 10) (recordBytes op.blockId b)).length = 4096 := by
      rw [length_splice hoff, hbuf]
    obtain ⟨buffer', cl', hrun, h⟩ := ih (cl.setLog b _ op.length_state) (idx + 1) hlen
      (fun o ho => hlt o (List.mem_cons_of_mem _ ho)) (by omega)
    refine ⟨buffer', cl', ?_, ?_⟩
    · rw [appendRecords]
      rw [require_of (by unfold bytesPerLogEntry; omega), bind_ok (pure_apply ()),
        bind_ok (writeLog_apply hb op.length_state)]
      exact hrun
    · constructor
      case frame => exact (frame_setLog op.length_state).trans h.frame
      case txns => exact h.txns
      case entries => exact h.entries
      case length => exact h.length
      case states =>
        intro hnd o ho
        rw [List.map_cons, List.nodup_cons] at hnd
        obtain rfl | ho := List.mem_cons.mp ho
        · rw [h.others _ hnd.1, log_setLog, if_pos rfl]
        · exact h.states hnd.2 o ho
      case others =>
        intro j hj
        rw [List.map_cons, List.mem_cons, not_or] at hj
        rw [h.others j hj.2, log_setLog, if_neg hj.1]
      case records =>
        intro i o ho
        cases i with
        | zero =>
          rw [List.getElem?_cons_zero, Option.some.injEq] at ho
          rw [← ho, Nat.add_zero, h.rest _ _ (Or.inl (by omega))]
          have hself := slice_splice_self hoff
          rw [length_recordBytes] at hself
          exact hself
        | succ i =>
          rw [List.getElem?_cons_succ] at ho
          rw [← h.records i o ho, Nat.add_right_comm, Nat.add_assoc idx i 1]
      case rest =>
        intro off k hk
        rw [List.length_cons] at hk
        rw [h.rest off k (by omega), slice_splice_of_disjoint hoff (by rw [length_recordBytes]; omega)]

theorem appendLog_spec {ops : List BlockOperation} {bs : List ℕ}
    (hfind : findFreeLogBlocks ops.length (cl.log 0) = some (bs, data)) (hdata : data.length = 4096)
    (hbs : ∀ b ∈ bs, b < logBlockCnt) (ht : txnOffset t + 2 < 4096)
    (hblock : (txnInfo data t).1 < logBlockCnt)
    (hroom : ((txnInfo data t).2 + ops.length) * 10 ≤ 4096) : ∃ buffer cl',
      ∃ h : Appended (cl.counted t ops.length hdata) (txnInfo data t).2
        ((cl.counted t ops.length hdata).log (txnInfo data t).1) (ops.zip bs) buffer cl',
      appendLog t ops cl = (if decide (kMaxLogSize ≤ cl.logEntriesNum + ops.length) &&
        cl.isCheckpointEnabled then checkpoint else pure ()) (cl'.setLog (txnInfo data t).1 buffer h.length) := by
  have hmem : ∀ o ∈ ops.zip bs, o.2 < logBlockCnt := fun o ho => hbs _ (List.of_mem_zip ho).2
  have hroom' : ((txnInfo data t).2 + (ops.zip bs).length) * 10 ≤ 4096 := by
    rw [List.length_zip]
    omega
  obtain ⟨buffer, cl', hrun, h⟩ := appendRecords_spec (cl.counted t ops.length hdata) (ops.zip bs)
    (txnInfo data t).2 (length_log _ (txnInfo data t).1) hmem hroom'
  refine ⟨buffer, cl', h, ?_⟩
  have hentries : cl'.logEntriesNum = cl.logEntriesNum + ops.length := h.entries
  have henabled : cl'.isCheckpointEnabled = cl.isCheckpointEnabled := h.frame.enabled
  unfold appendLog
  rw [bind_ok (allocLog_apply hfind hdata ht)]
  simp only
  rw [bind_ok (readLog_apply hblock), bind_ok hrun, bind_ok (writeLog_apply hblock h.length),
    bind_ok (member_apply _ _), CommitLog.setLog]
  simp only
  rw [hentries, henabled]

theorem zeroLog_apply (cl : CommitLog cnt) (k i : ℕ) (hk : i + k ≤ logBlockCnt) : ∃ cl',
    zeroLog k i cl = some (.ok (), cl') ∧ Frame cl cl' ∧
      ∀ j, cl'.log j = if i ≤ j ∧ j < i + k then List.replicate 4096 0 else cl.log j := by
  induction k generalizing cl i with
  | zero => exact ⟨cl, rfl, .refl cl, fun j => (if_neg (by omega)).symm⟩
  | succ k ih =>
    obtain ⟨cl', hrun, hframe, hlog⟩ := ih (cl.setLog i _ List.length_replicate) (i + 1) (by omega)
    refine ⟨cl', ?_, (frame_setLog _).trans hframe, fun j => ?_⟩
    · rw [zeroLog, bind_ok (writeLog_apply (by omega) List.length_replicate), hrun]
    · rw [hlog j, log_setLog]
      split
      · rw [if_pos (by omega)]
      · split
        · rw [if_pos (by omega)]
        · rw [if_neg (by omega)]

theorem checkpoint_apply (cl : CommitLog cnt) : ∃ cl', checkpoint cl = some (.ok (), cl') ∧ Frame cl cl' ∧
    cl'.maxTxnId = 0 ∧ cl'.logEntriesNum = 0 ∧ ∀ j < logBlockCnt, cl'.log j = List.replicate 4096 0 := by
  obtain ⟨cl', hrun, hframe, hlog⟩ := zeroLog_apply cl logBlockCnt 0 (Nat.le_of_eq (Nat.zero_add _))
  refine ⟨{ cl' with maxTxnId := 0, logEntriesNum := 0 }, ?_, ⟨hframe.enabled, hframe.failed, hframe.home⟩,
    rfl, rfl, fun j hj => ?_⟩
  · rw [checkpoint, bind_ok hrun, assign_apply]
  · have heq := hlog j
    rw [if_pos (by omega)] at heq
    exact heq

end Calls

end Chfs.Distributed.Logging
