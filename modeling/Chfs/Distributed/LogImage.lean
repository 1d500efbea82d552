import Chfs.Distributed.Logging
import Chfs.Lib.Run

namespace Chfs.Distributed.LogImage

open Lib.Effect Lib.Bytes Lib.Run Block.Manager Logging

/-- A transaction: its operation, its block, its records with the log blocks of
the new states, and whether it has been committed. -/
structure Tx where
  operation : ServerOperation
  block : ℕ
  records : List (BlockOperation × ℕ)
  committed : Bool

/-- The transactions in the order of their ids and the number of log blocks in
use. -/
structure LogState where
  used : ℕ
  txs : List Tx

inductive Call
  | allocTxn (operation : ServerOperation)
  | appendLog (txnId : ℕ) (ops : List BlockOperation)
  | commitLog (txnId : ℕ)

variable {cnt : ℕ}

def call (cl : CommitLog cnt) : Call → Option (CommitLog cnt)
  | .allocTxn operation => (allocTxn operation cl).map Prod.snd
  | .appendLog txnId ops => (appendLog txnId ops cl).map Prod.snd
  | .commitLog txnId => (commitLog txnId cl).map Prod.snd

def LogState.place (a : LogState) (ops : List BlockOperation) : List (BlockOperation × ℕ) :=
  ops.zip (List.range' (a.used + 1) ops.length)

def LogState.next (a : LogState) : Call → LogState
  | .allocTxn operation => ⟨a.used + 1, a.txs ++ [⟨operation, a.used + 1, [], false⟩]⟩
  | .appendLog txnId ops => ⟨a.used + ops.length,
      a.txs.modify txnId fun tx => { tx with records := tx.records ++ a.place ops }⟩
  | .commitLog txnId => ⟨a.used, a.txs.modify txnId fun tx => { tx with committed := true }⟩

/-- The calls that fit: the transaction is there, the blocks of the operations
are blocks of the device, the superblock has an entry, the log area the blocks
and the block of the transaction the bytes. -/
def LogState.Fits (a : LogState) (cnt : ℕ) : Call → Prop
  | .allocTxn operation => a.used < 1023 ∧ a.txs.length < 992 ∧ operation.name.length ≤ 90
  | .appendLog txnId ops => a.used + ops.length ≤ 1023 ∧ (∀ op ∈ ops, op.blockId.toNat < cnt) ∧
    ∃ tx, a.txs[txnId]? = some tx ∧ (tx.records.length % 256 + ops.length) * 10 ≤ 4096
  | .commitLog txnId => txnId < a.txs.length

def Tx.entry (tx : Tx) : List UInt8 :=
  [UInt8.ofNat (tx.block / 256), UInt8.ofNat (tx.block % 256), UInt8.ofNat tx.records.length,
    if tx.committed then 1 else 0]

/-- The blocks of different transactions differ, and differ from the blocks of
records. -/
structure LogState.Apart (a : LogState) : Prop where
  used : a.used ≤ 1023
  slots : a.txs.length ≤ 992
  txns : a.txs.length ≤ a.used
  fewer : ∀ tx ∈ a.txs, tx.records.length + tx.block ≤ a.used
  block : ∀ tx ∈ a.txs, 0 < tx.block ∧ tx.block ≤ a.used
  record : ∀ tx ∈ a.txs, ∀ o ∈ tx.records, 0 < o.2 ∧ o.2 ≤ a.used
  inj : ∀ (t t' : ℕ) (tx tx' : Tx), a.txs[t]? = some tx → a.txs[t']? = some tx' → tx.block = tx'.block → t = t'
  disjoint : ∀ tx ∈ a.txs, ∀ tx' ∈ a.txs, ∀ o ∈ tx'.records, o.2 ≠ tx.block

/-- The log area holds the transactions. The record table of a transaction is
right as long as the one byte that counts the records has not run over. -/
structure Holds (cl : CommitLog cnt) (a : LogState) : Prop where
  apart : a.Apart
  txns : cl.maxTxnId = a.txs.length
  bitmap : ∀ b, 0 < b → b < logBlockCnt → marked (cl.log 0) b = decide (b ≤ a.used)
  entry : ∀ (t : ℕ) (tx : Tx), a.txs[t]? = some tx → ∀ j < 4, (cl.log 0)[txnOffset t + j]? = tx.entry[j]?
  rest : ∀ i, txnOffset a.txs.length ≤ i → i < 4096 → (cl.log 0)[i]? = some 0
  name : ∀ tx ∈ a.txs, tx.operation.name.length ≤ 90
  home : ∀ tx ∈ a.txs, ∀ o ∈ tx.records, o.1.blockId.toNat < cnt
  operation : ∀ tx ∈ a.txs, tx.records.length ≤ 255 →
    slice (cl.log tx.block) operationOffset 100 = slice (operationBlock tx.operation) operationOffset 100
  record : ∀ tx ∈ a.txs, tx.records.length ≤ 255 → ∀ (i : ℕ) (o : BlockOperation × ℕ), tx.records[i]? = some o →
    slice (cl.log tx.block) (i * 10) 10 = recordBytes o.1.blockId o.2
  state : ∀ tx ∈ a.txs, ∀ o ∈ tx.records, cl.log o.2 = o.1.newBlockState

section Sequential

variable {data : List UInt8} {used : ℕ}

/-- Blocks 1 to `used` are taken. -/
def Sequential (data : List UInt8) (used : ℕ) : Prop :=
  ∀ b, 0 < b → b < logBlockCnt → marked data b = decide (b ≤ used)

theorem findFreeLogBlock_sequential (hlen : data.length = 4096) (h : Sequential data used) (hu : used < 1023) :
    findFreeLogBlock data = some (used + 1, mark data (used + 1)) ∧
      Sequential (mark data (used + 1)) (used + 1) := by
  have hnext : marked data (used + 1) = false := by
    rw [h _ (by omega) (by unfold logBlockCnt; omega), decide_eq_false (by omega)]
  constructor
  · obtain ⟨-, hall⟩ | ⟨b, hpos, hb, hclear, hall, heq⟩ := findFreeLogBlock_spec data
    · have htrue := hall (used + 1) (by omega) (by unfold logBlockCnt; omega)
      cases hnext.symm.trans htrue
    · obtain rfl : b = used + 1 := by
        rw [h b hpos hb, decide_eq_false_iff_not] at hclear
        by_contra hne
        have htrue := hall (used + 1) (by omega) (by omega)
        cases hnext.symm.trans htrue
      exact heq
  · intro b hpos hb
    rw [marked_mark (by omega), h b hpos hb, ← Bool.decide_or]
    exact decide_eq_decide.mpr (by omega)

theorem getElem?_mark {b i : ℕ} (hb : b < logBlockCnt) (hi : bitmapBytes ≤ i) :
    (mark data b)[i]? = data[i]? := by
  unfold logBlockCnt at hb
  unfold bitmapBytes at hi
  exact List.getElem?_set_ne (by omega)

theorem findFreeLogBlocks_sequential (n : ℕ) (hlen : data.length = 4096) (h : Sequential data used)
    (hu : used + n ≤ 1023) : ∃ data', findFreeLogBlocks n data = some (List.range' (used + 1) n, data') ∧
      data'.length = 4096 ∧ Sequential data' (used + n) ∧ ∀ i, bitmapBytes ≤ i → data'[i]? = data[i]? := by
  induction n generalizing data used with
  | zero => exact ⟨data, rfl, hlen, h, fun _ _ => rfl⟩
  | succ n ih =>
    obtain ⟨hfind, hseq⟩ := findFreeLogBlock_sequential hlen h (by omega)
    obtain ⟨data', hrest, hlen', hseq', hkeep⟩ := ih (by rw [length_mark, hlen]) hseq (by omega)
    refine ⟨data', ?_, hlen', ?_, fun i hi => ?_⟩
    · rw [findFreeLogBlocks, hfind, Option.bind_eq_bind, Option.bind_some]
      simp only
      rw [hrest]
      rfl
    · rw [show used + (n + 1) = used + 1 + n by omega]
      exact hseq'
    · rw [hkeep i hi, getElem?_mark (by unfold logBlockCnt; omega) hi]

theorem Sequential.congr {data' : List UInt8} (h : Sequential data used)
    (hsame : ∀ i, i < bitmapBytes → data'[i]? = data[i]?) : Sequential data' used := by
  intro b hpos hb
  unfold logBlockCnt at hb
  rw [← h b hpos hb, marked, marked, List.getD_eq_getElem?_getD, List.getD_eq_getElem?_getD,
    hsame _ (by unfold bitmapBytes; omega)]

end Sequential

section Transactions

variable {a : LogState} {t : ℕ} {ops : List BlockOperation} {operation : ServerOperation}

theorem mem_place {o : BlockOperation × ℕ} (ho : o ∈ a.place ops) :
    o.1 ∈ ops ∧ a.used < o.2 ∧ o.2 ≤ a.used + ops.length := by
  obtain ⟨h1, h2⟩ := List.of_mem_zip ho
  rw [List.mem_range'_1] at h2
  exact ⟨h1, by omega, by omega⟩

theorem length_place (a : LogState) (ops : List BlockOperation) : (a.place ops).length = ops.length := by
  rw [LogState.place, List.length_zip, List.length_range', Nat.min_self]

theorem modify_cases {f : Tx → Tx} {u : ℕ} {tx : Tx} (h : (a.txs.modify t f)[u]? = some tx) :
    ∃ tx₀, a.txs[u]? = some tx₀ ∧ ((u = t ∧ tx = f tx₀) ∨ (u ≠ t ∧ tx = tx₀)) := by
  rw [List.getElem?_modify, Option.map_eq_map, Option.map_eq_some_iff] at h
  obtain ⟨tx₀, h0, hf⟩ := h
  refine ⟨tx₀, h0, ?_⟩
  by_cases heq : t = u
  · exact Or.inl ⟨heq.symm, by rw [if_pos heq] at hf; exact hf.symm⟩
  · exact Or.inr ⟨fun h => heq h.symm, by rw [if_neg heq] at hf; exact hf.symm⟩

theorem getElem?_snoc {l : List Tx} {x tx : Tx} {u : ℕ} (h : (l ++ [x])[u]? = some tx) :
    l[u]? = some tx ∨ (u = l.length ∧ tx = x) := by
  obtain hlt | hge := Nat.lt_or_ge u l.length
  · rw [List.getElem?_append_left hlt] at h
    exact Or.inl h
  · rw [List.getElem?_append_right hge, List.getElem?_singleton] at h
    split at h
    · exact Or.inr ⟨by omega, (Option.some.inj h).symm⟩
    · cases h

theorem apart_allocTxn (h : a.Apart) (hu : a.used < 1023) (ht : a.txs.length < 992) :
    (a.next (.allocTxn operation)).Apart := by
  have hmem : ∀ tx ∈ (a.next (.allocTxn operation)).txs, tx ∈ a.txs ∨ tx = ⟨operation, a.used + 1, [], false⟩ := by
    intro tx htx
    exact (List.mem_append.mp htx).imp id List.mem_singleton.mp
  constructor
  case used => exact Nat.succ_le_of_lt hu
  case slots =>
    rw [LogState.next, List.length_append]
    exact ht
  case txns =>
    rw [LogState.next, List.length_append]
    exact Nat.succ_le_succ h.txns
  case fewer =>
    intro tx htx
    obtain htx | rfl := hmem tx htx
    · exact Nat.le_succ_of_le (h.fewer tx htx)
    · exact Nat.le_of_eq (Nat.zero_add _)
  case block =>
    intro tx htx
    obtain htx | rfl := hmem tx htx
    · exact ⟨(h.block tx htx).1, Nat.le_succ_of_le (h.block tx htx).2⟩
    · exact ⟨Nat.succ_pos _, Nat.le_refl _⟩
  case record =>
    intro tx htx o ho
    obtain htx | rfl := hmem tx htx
    · exact ⟨(h.record tx htx o ho).1, Nat.le_succ_of_le (h.record tx htx o ho).2⟩
    · cases ho
  case inj =>
    intro u v tx tx' hu hv heq
    obtain hu | ⟨rfl, rfl⟩ := getElem?_snoc hu
    · obtain hv | ⟨rfl, rfl⟩ := getElem?_snoc hv
      · exact h.inj u v tx tx' hu hv heq
      · have := (h.block tx (List.mem_of_getElem? hu)).2
        simp only at heq
        omega
    · obtain hv | ⟨rfl, rfl⟩ := getElem?_snoc hv
      · have := (h.block tx' (List.mem_of_getElem? hv)).2
        simp only at heq
        omega
      · rfl
  case disjoint =>
    intro tx htx tx' htx' o ho heq
    obtain htx' | rfl := hmem tx' htx'
    · obtain htx | rfl := hmem tx htx
      · exact h.disjoint tx htx tx' htx' o ho heq
      · have := (h.record tx' htx' o ho).2
        simp only at heq
        omega
    · cases ho

theorem apart_modify (h : a.Apart) {f : Tx → Tx} {n : ℕ} (hn : a.used + n ≤ 1023)
    (hblock : ∀ tx, (f tx).block = tx.block) (hlen : ∀ tx, (f tx).records.length ≤ tx.records.length + n)
    (hrec : ∀ tx, ∀ o ∈ (f tx).records, o ∈ tx.records ∨
      (a.used < o.2 ∧ o.2 ≤ a.used + n)) : LogState.Apart ⟨a.used + n, a.txs.modify t f⟩ := by
  have hold : ∀ tx ∈ a.txs.modify t f, ∃ tx₀ ∈ a.txs, tx.block = tx₀.block ∧
      (∀ o ∈ tx.records, o ∈ tx₀.records ∨ (a.used < o.2 ∧ o.2 ≤ a.used + n)) ∧
      tx.records.length ≤ tx₀.records.length + n := by
    intro tx htx
    obtain ⟨u, hu⟩ := List.mem_iff_getElem?.mp htx
    obtain ⟨tx₀, h0, ⟨-, rfl⟩ | ⟨-, rfl⟩⟩ := modify_cases hu
    · exact ⟨tx₀, List.mem_of_getElem? h0, hblock tx₀, hrec tx₀, hlen tx₀⟩
    · exact ⟨tx, List.mem_of_getElem? h0, rfl, fun o ho => Or.inl ho, Nat.le_add_right _ _⟩
  have hrange : ∀ tx ∈ a.txs.modify t f, ∀ o ∈ tx.records, 0 < o.2 ∧ o.2 ≤ a.used + n := by
    intro tx htx o ho
    obtain ⟨tx₀, h0, -, hrec, -⟩ := hold tx htx
    obtain ho | ho := hrec o ho
    · have := h.record tx₀ h0 o ho
      omega
    · omega
  constructor
  case used => exact hn
  case slots =>
    simp only [List.length_modify]
    exact h.slots
  case txns =>
    simp only [List.length_modify]
    exact Nat.le_add_right_of_le h.txns
  case fewer =>
    intro tx htx
    obtain ⟨tx₀, h0, heq, -, hle⟩ := hold tx htx
    have := h.fewer tx₀ h0
    rw [heq]
    simp only
    omega
  case block =>
    intro tx htx
    obtain ⟨tx₀, h0, heq, -⟩ := hold tx htx
    have := h.block tx₀ h0
    rw [heq]
    simp only
    omega
  case record => exact hrange
  case inj =>
    intro u v tx tx' hu hv heq
    obtain ⟨tx₀, hu0, hu⟩ := modify_cases hu
    obtain ⟨tx₁, hv0, hv⟩ := modify_cases hv
    have hb0 : tx.block = tx₀.block := by
      obtain ⟨-, rfl⟩ | ⟨-, rfl⟩ := hu
      · exact hblock tx₀
      · rfl
    have hb1 : tx'.block = tx₁.block := by
      obtain ⟨-, rfl⟩ | ⟨-, rfl⟩ := hv
      · exact hblock tx₁
      · rfl
    exact h.inj u v tx₀ tx₁ hu0 hv0 (hb0.symm.trans (heq.trans hb1))
  case disjoint =>
    intro tx htx tx' htx' o ho
    obtain ⟨tx₀, h0, heq, -⟩ := hold tx htx
    obtain ⟨tx₁, h1, -, hrec, -⟩ := hold tx' htx'
    rw [heq]
    obtain ho | ho := hrec o ho
    · exact h.disjoint tx₀ h0 tx₁ h1 o ho
    · have := (h.block tx₀ h0).2
      omega

theorem apart_appendLog (h : a.Apart) (hu : a.used + ops.length ≤ 1023) :
    (a.next (.appendLog t ops)).Apart := by
  apply apart_modify h hu
  · exact fun _ => rfl
  · intro tx
    apply Nat.le_of_eq
    rw [List.length_append, length_place]
  · intro tx o ho
    obtain ho | ho := List.mem_append.mp ho
    · exact Or.inl ho
    · exact Or.inr (mem_place ho).2

theorem apart_commitLog (h : a.Apart) : (a.next (.commitLog t)).Apart := by
  apply apart_modify h (n := 0) h.used
  · exact fun _ => rfl
  · exact fun _ => Nat.le_refl _
  · exact fun tx o ho => Or.inl ho

end Transactions

section Steps

variable {cl : CommitLog cnt} {a : LogState} {t : ℕ} {ops : List BlockOperation} {operation : ServerOperation}

theorem txnOffset_eq (t : ℕ) : txnOffset t = 128 + t * 4 := rfl

theorem txnInfo_eq {data : List UInt8} {tx : Tx} (hblock : tx.block < logBlockCnt)
    (h : ∀ j < 4, data[txnOffset t + j]? = tx.entry[j]?) :
    txnInfo data t = (tx.block, tx.records.length % 256) := by
  unfold logBlockCnt at hblock
  have h0 : data[txnOffset t]? = some (UInt8.ofNat (tx.block / 256)) := h 0 (by decide)
  have h1 : data[txnOffset t + 1]? = some (UInt8.ofNat (tx.block % 256)) := h 1 (by decide)
  have h2 : data[txnOffset t + 2]? = some (UInt8.ofNat tx.records.length) := h 2 (by decide)
  unfold txnInfo
  simp only [List.getD_eq_getElem?_getD, h0, h1, h2, Option.getD_some, UInt8.toNat_ofNat', Nat.reducePow]
  have hval : tx.block / 256 % 256 * 256 + tx.block % 256 % 256 = tx.block := by omega
  rw [hval]

theorem txnInfo_replicate (k t : ℕ) : txnInfo (List.replicate k 0) t = (0, 0) := by
  have hzero : ∀ i, (List.replicate k (0 : UInt8)).getD i 0 = 0 := by
    intro i
    rw [List.getD_eq_getElem?_getD, List.getElem?_replicate]
    split <;> rfl
  rw [Logging.txnInfo, hzero, hzero, hzero]
  rfl

theorem Holds.block_lt (h : Holds cl a) {tx : Tx} (htx : tx ∈ a.txs) : tx.block < logBlockCnt := by
  have hb := (h.apart.block tx htx).2
  have hu := h.apart.used
  unfold logBlockCnt
  omega

theorem Holds.txnInfo (h : Holds cl a) {tx : Tx} (ht : a.txs[t]? = some tx) :
    txnInfo (cl.log 0) t = (tx.block, tx.records.length % 256) :=
  txnInfo_eq (h.block_lt (List.mem_of_getElem? ht)) (h.entry t tx ht)

/-- The log area is as a new file has it, or a checkpoint. -/
def FreshLog (bm : BlockManager 4096 cnt logBlockCnt) : Prop :=
  ∀ i < logBlockCnt, bm.blocks (i + cnt) = List.replicate 4096 0

theorem holds_empty (htxns : cl.maxTxnId = 0) (hlog : cl.log 0 = List.replicate 4096 0) : Holds cl ⟨0, []⟩ := by
  constructor
  case apart =>
    exact ⟨Nat.zero_le _, Nat.zero_le _, Nat.le_refl _, nofun, nofun, nofun, nofun, nofun⟩
  case txns => exact htxns
  case bitmap =>
    intro b hpos hb
    rw [hlog, marked, List.getD_eq_getElem?_getD, List.getElem?_replicate, decide_eq_false (by simp only; omega)]
    split
    · exact Nat.zero_testBit _
    · exact Nat.zero_testBit _
  case entry => exact nofun
  case rest =>
    intro i _ hi
    rw [hlog, List.getElem?_replicate, if_pos hi]
  all_goals exact nofun

theorem holds_create {bm : BlockManager 4096 cnt logBlockCnt} (enabled : Bool) (hbm : FreshLog bm) :
    Holds (create bm enabled) ⟨0, []⟩ := holds_empty rfl (hbm 0 (by decide))

/-- Blocks of transactions and records that are there already are not touched by
a call that writes the superblock and blocks not yet in use. -/
theorem Holds.keep (h : Holds cl a) {cl' : CommitLog cnt} (hlog : ∀ j, 0 < j → j ≤ a.used → cl'.log j = cl.log j)
    {tx : Tx} (htx : tx ∈ a.txs) :
    cl'.log tx.block = cl.log tx.block ∧ ∀ o ∈ tx.records, cl'.log o.2 = cl.log o.2 := by
  constructor
  · exact hlog _ (h.apart.block tx htx).1 (h.apart.block tx htx).2
  · exact fun o ho => hlog _ (h.apart.record tx htx o ho).1 (h.apart.record tx htx o ho).2

theorem holds_allocTxn (h : Holds cl a) (hfits : a.Fits cnt (.allocTxn operation)) : ∃ cl',
    allocTxn operation cl = some (.ok cl.maxTxnId, cl') ∧ Holds cl' (a.next (.allocTxn operation)) ∧
      Frame cl cl' ∧ cl'.logEntriesNum = cl.logEntriesNum := by
  obtain ⟨hu, hslots, hname⟩ := hfits
  obtain ⟨hfind, hseq⟩ := findFreeLogBlock_sequential (length_log cl 0) h.bitmap hu
  have hdata : (mark (cl.log 0) (a.used + 1)).length = 4096 := by
    rw [length_mark, length_log]
  have hb : a.used + 1 < logBlockCnt := by
    unfold logBlockCnt
    omega
  have ht : txnOffset cl.maxTxnId + 2 < 4096 := by
    rw [h.txns, txnOffset_eq]
    omega
  obtain ⟨super, hsuper⟩ : ∃ super, super =
      splice (mark (cl.log 0) (a.used + 1)) (txnOffset a.txs.length) (entryBytes (a.used + 1)) := ⟨_, rfl⟩
  obtain ⟨cl', hcl', hrun⟩ : ∃ cl' : CommitLog cnt, cl' = (({ cl with maxTxnId := cl.maxTxnId + 1 } :
      CommitLog cnt).setLog 0 _ (length_entry hdata ht (a.used + 1))).setLog (a.used + 1) _
        (length_operationBlock hname) ∧ allocTxn operation cl = some (.ok cl.maxTxnId, cl') :=
    ⟨_, rfl, allocTxn_apply hfind hb hdata ht hname⟩
  have hzero : cl'.log 0 = super := by
    rw [hcl', log_setLog, if_neg (by omega), log_setLog, if_pos rfl, hsuper, h.txns]
  have hnew : cl'.log (a.used + 1) = operationBlock operation := by
    rw [hcl', log_setLog, if_pos rfl]
  have hold : ∀ j, 0 < j → j ≤ a.used → cl'.log j = cl.log j := by
    intro j hpos hj
    rw [hcl', log_setLog, if_neg (by omega), log_setLog, if_neg (by omega)]
    rfl
  have hmem : ∀ tx ∈ (a.next (.allocTxn operation)).txs, tx ∈ a.txs ∨ tx = ⟨operation, a.used + 1, [], false⟩ := by
    intro tx htx
    exact (List.mem_append.mp htx).imp id List.mem_singleton.mp
  have hbytes : ∀ i, bitmapBytes ≤ i → super[i]? =
      if txnOffset a.txs.length ≤ i ∧ i < txnOffset a.txs.length + 3
      then (entryBytes (a.used + 1))[i - txnOffset a.txs.length]? else (cl.log 0)[i]? := by
    intro i hi
    have hroom : txnOffset a.txs.length + (entryBytes (a.used + 1)).length ≤
        (mark (cl.log 0) (a.used + 1)).length := by
      rw [hdata, txnOffset_eq]
      exact (by omega : 128 + a.txs.length * 4 + 3 ≤ 4096)
    rw [hsuper, getElem?_splice hroom, getElem?_mark hb hi]
    rfl
  refine ⟨cl', hrun, ?_, ?_, by rw [hcl']; rfl⟩
  · constructor
    case apart => exact apart_allocTxn h.apart hu hslots
    case txns =>
      rw [hcl', LogState.next, List.length_append, ← h.txns]
      rfl
    case bitmap =>
      rw [hzero]
      refine hseq.congr fun i hi => ?_
      unfold bitmapBytes at hi
      rw [hsuper, getElem?_splice (by rw [hdata, txnOffset_eq]; exact (by omega : 128 + a.txs.length * 4 + 3 ≤ 4096)),
        if_neg (by rw [txnOffset_eq]; omega)]
    case entry =>
      intro u tx hu j hj
      rw [hzero, hbytes _ (by rw [txnOffset_eq]; unfold bitmapBytes; omega)]
      obtain hu | ⟨rfl, rfl⟩ := getElem?_snoc hu
      · have hlt := (List.getElem?_eq_some_iff.mp hu).1
        rw [if_neg (by rw [txnOffset_eq, txnOffset_eq]; omega)]
        exact h.entry u tx hu j hj
      · by_cases hlast : j = 3
        · rw [if_neg (by omega), hlast, h.rest _ (by omega) (by rw [txnOffset_eq]; omega)]
          rfl
        · rw [if_pos (by omega), Nat.add_sub_cancel_left]
          obtain rfl | rfl | rfl : j = 0 ∨ j = 1 ∨ j = 2 := by omega
          all_goals rfl
    case rest =>
      intro i hi hlt
      rw [LogState.next, List.length_append, txnOffset_eq] at hi
      simp only [List.length_singleton] at hi
      rw [hzero, hbytes i (by unfold bitmapBytes; omega), if_neg (by rw [txnOffset_eq]; omega)]
      exact h.rest i (by rw [txnOffset_eq]; omega) hlt
    case name =>
      intro tx htx
      obtain htx | rfl := hmem tx htx
      · exact h.name tx htx
      · exact hname
    case home =>
      intro tx htx o ho
      obtain htx | rfl := hmem tx htx
      · exact h.home tx htx o ho
      · cases ho
    case operation =>
      intro tx htx hle
      obtain htx | rfl := hmem tx htx
      · rw [(h.keep hold htx).1]
        exact h.operation tx htx hle
      · simp only
        rw [hnew]
    case record =>
      intro tx htx hle i o ho
      obtain htx | rfl := hmem tx htx
      · rw [(h.keep hold htx).1]
        exact h.record tx htx hle i o ho
      · cases ho
    case state =>
      intro tx htx o ho
      obtain htx | rfl := hmem tx htx
      · rw [(h.keep hold htx).2 o ho]
        exact h.state tx htx o ho
      · cases ho
  · rw [hcl']
    exact ⟨rfl, rfl, fun id hid => by rw [(frame_setLog _).home id hid, (frame_setLog _).home id hid]⟩

theorem holds_commitLog (h : Holds cl a) (ht : t < a.txs.length) : ∃ cl',
    commitLog t cl = some (.ok (), cl') ∧ Holds cl' (a.next (.commitLog t)) ∧ Frame cl cl' ∧
      cl'.logEntriesNum = cl.logEntriesNum := by
  have hslots := h.apart.slots
  have hoff : txnOffset t + 3 < 4096 := by
    rw [txnOffset_eq]
    omega
  obtain ⟨cl', hcl', hrun⟩ : ∃ cl' : CommitLog cnt, cl' = cl.setLog 0 _
      (length_countByte (length_log cl 0) (txnOffset t + 3) 1) ∧ commitLog t cl = some (.ok (), cl') :=
    ⟨_, rfl, commitLog_apply hoff⟩
  have hzero : cl'.log 0 = (cl.log 0).set (txnOffset t + 3) 1 := by
    rw [hcl', log_setLog, if_pos rfl]
  have hold : ∀ j, 0 < j → j ≤ a.used → cl'.log j = cl.log j := by
    intro j hpos hj
    rw [hcl', log_setLog, if_neg (by omega)]
  have hmem : ∀ tx ∈ (a.next (.commitLog t)).txs, ∃ tx₀ ∈ a.txs, tx.operation = tx₀.operation ∧
      tx.block = tx₀.block ∧ tx.records = tx₀.records := by
    intro tx htx
    obtain ⟨u, hu⟩ := List.mem_iff_getElem?.mp htx
    obtain ⟨tx₀, h0, ⟨-, rfl⟩ | ⟨-, rfl⟩⟩ := modify_cases hu
    · exact ⟨tx₀, List.mem_of_getElem? h0, rfl, rfl, rfl⟩
    · exact ⟨tx, List.mem_of_getElem? h0, rfl, rfl, rfl⟩
  refine ⟨cl', hrun, ?_, hcl' ▸ frame_setLog _, by rw [hcl']; rfl⟩
  constructor
  case apart => exact apart_commitLog h.apart
  case txns =>
    rw [hcl', LogState.next, List.length_modify, ← h.txns]
    rfl
  case bitmap =>
    rw [hzero]
    refine Sequential.congr h.bitmap fun i hi => ?_
    rw [List.getElem?_set_ne (by rw [txnOffset_eq]; unfold bitmapBytes at hi; omega)]
  case entry =>
    intro u tx hu j hj
    obtain ⟨tx₀, h0, ⟨rfl, rfl⟩ | ⟨hne, rfl⟩⟩ := modify_cases hu
    · rw [hzero]
      by_cases hlast : j = 3
      · rw [hlast, List.getElem?_set_self (by rw [length_log]; exact hoff)]
        rfl
      · rw [List.getElem?_set_ne (by omega), h.entry u tx₀ h0 j hj]
        obtain rfl | rfl | rfl : j = 0 ∨ j = 1 ∨ j = 2 := by omega
        all_goals rfl
    · rw [hzero, List.getElem?_set_ne (by rw [txnOffset_eq, txnOffset_eq]; omega)]
      exact h.entry u tx h0 j hj
  case rest =>
    intro i hi hlt
    rw [LogState.next, List.length_modify] at hi
    rw [hzero, List.getElem?_set_ne (by rw [txnOffset_eq] at hi ⊢; omega)]
    exact h.rest i hi hlt
  all_goals intro tx htx
  all_goals obtain ⟨tx₀, h0, hop, hblk, hrec⟩ := hmem tx htx
  case name => exact hop ▸ h.name tx₀ h0
  case home => exact hrec ▸ h.home tx₀ h0
  case operation =>
    rw [hop, hblk, hrec, (h.keep hold h0).1]
    exact h.operation tx₀ h0
  case record =>
    rw [hblk, hrec, (h.keep hold h0).1]
    exact h.record tx₀ h0
  case state =>
    intro o ho
    rw [hrec] at ho
    rw [(h.keep hold h0).2 o ho]
    exact h.state tx₀ h0 o ho

def Quiet (cl : CommitLog cnt) : Call → Prop
  | .appendLog _ ops => cl.isCheckpointEnabled = false ∨ cl.logEntriesNum + ops.length < kMaxLogSize
  | _ => True

theorem ofNat_mod_add (k n : ℕ) : UInt8.ofNat (k % 256 + n) = UInt8.ofNat (k + n) := by
  rw [← UInt8.toNat_inj, UInt8.toNat_ofNat', UInt8.toNat_ofNat']
  omega

/-- The log area after `append_log`: the count of the transaction, its records
and the new states. -/
structure Extended (cl : CommitLog cnt) (a : LogState) (t : ℕ) (tx : Tx) (ops : List BlockOperation)
    (cl' : CommitLog cnt) : Prop where
  frame : Frame cl cl'
  txns : cl'.maxTxnId = cl.maxTxnId
  entries : cl'.logEntriesNum = cl.logEntriesNum + ops.length
  bitmap : Sequential (cl'.log 0) (a.used + ops.length)
  count : (cl'.log 0)[txnOffset t + 2]? = some (UInt8.ofNat (tx.records.length + ops.length))
  bytes : ∀ i, bitmapBytes ≤ i → i ≠ txnOffset t + 2 → (cl'.log 0)[i]? = (cl.log 0)[i]?
  others : ∀ j, 0 < j → j ≤ a.used → j ≠ tx.block → cl'.log j = cl.log j
  states : ∀ o ∈ a.place ops, cl'.log o.2 = o.1.newBlockState
  records : ∀ i o, (a.place ops)[i]? = some o →
    slice (cl'.log tx.block) ((tx.records.length % 256 + i) * 10) 10 = recordBytes o.1.blockId o.2
  rest : ∀ off k, off + k ≤ tx.records.length % 256 * 10 ∨
      (tx.records.length % 256 + ops.length) * 10 ≤ off →
    slice (cl'.log tx.block) off k = slice (cl.log tx.block) off k

theorem Holds.finds (h : Holds cl a) {tx : Tx} (htx : a.txs[t]? = some tx) {n : ℕ} (hu : a.used + n ≤ 1023) :
    ∃ super, findFreeLogBlocks n (cl.log 0) = some (List.range' (a.used + 1) n, super) ∧ super.length = 4096 ∧
      Sequential super (a.used + n) ∧ (∀ i, bitmapBytes ≤ i → super[i]? = (cl.log 0)[i]?) ∧
      Logging.txnInfo super t = (tx.block, tx.records.length % 256) ∧
      (∀ b ∈ List.range' (a.used + 1) n, b < logBlockCnt) ∧ txnOffset t + 2 < 4096 := by
  have hslot := (List.getElem?_eq_some_iff.mp htx).1
  have hslots := h.apart.slots
  obtain ⟨super, hfind, hlen, hseq, hkeep⟩ := findFreeLogBlocks_sequential n (length_log cl 0) h.bitmap hu
  refine ⟨super, hfind, hlen, hseq, hkeep, ?_, fun b hb => ?_, ?_⟩
  · apply txnInfo_eq (h.block_lt (List.mem_of_getElem? htx))
    intro j hj
    rw [hkeep _ (by rw [txnOffset_eq]; unfold bitmapBytes; omega)]
    exact h.entry t tx htx j hj
  · rw [List.mem_range'_1] at hb
    unfold logBlockCnt
    omega
  · rw [txnOffset_eq]
    omega

theorem appendLog_extended (h : Holds cl a) {tx : Tx} (htx : a.txs[t]? = some tx)
    (hu : a.used + ops.length ≤ 1023) (hroom : (tx.records.length % 256 + ops.length) * 10 ≤ 4096)
    (hquiet : Quiet cl (.appendLog t ops)) :
    ∃ cl', appendLog t ops cl = some (.ok (), cl') ∧ Extended cl a t tx ops cl' := by
  have hmem := List.mem_of_getElem? htx
  obtain ⟨hpos, hle⟩ := h.apart.block tx hmem
  have hblock := h.block_lt hmem
  obtain ⟨super, hfind, hlen, hseq, hkeep, hinfo, hbs, hoff⟩ := h.finds htx hu
  have hspec := appendLog_spec hfind hlen hbs hoff (by rw [hinfo]; exact hblock) (by rw [hinfo]; exact hroom)
  rw [hinfo] at hspec
  obtain ⟨buffer, cl₁, happ, hrun⟩ := hspec
  simp only at happ hrun
  have hquiet' : (decide (kMaxLogSize ≤ cl.logEntriesNum + ops.length) && cl.isCheckpointEnabled) = false := by
    obtain hoff | hlt := hquiet
    · rw [hoff, Bool.and_false]
    · rw [decide_eq_false (by omega), Bool.false_and]
  rw [hquiet', if_neg (by decide), pure_apply] at hrun
  have hsnd : (ops.zip (List.range' (a.used + 1) ops.length)).map Prod.snd =
      List.range' (a.used + 1) ops.length := List.map_snd_zip (Nat.le_of_eq List.length_range')
  have hother : ∀ j, j ≤ a.used → cl₁.log j = (cl.counted t ops.length hlen).log j := by
    intro j hj
    apply happ.others
    rw [hsnd, List.mem_range'_1]
    omega
  have hsuper : (cl₁.setLog tx.block buffer happ.length).log 0 =
      super.set (txnOffset t + 2) (UInt8.ofNat (tx.records.length + ops.length)) := by
    rw [log_setLog, if_neg (by omega), hother 0 (Nat.zero_le _), log_counted, if_pos rfl, hinfo, ofNat_mod_add]
  refine ⟨_, hrun, ?_⟩
  constructor
  case frame =>
    exact ((frame_counted hlen ops.length).trans happ.frame).trans (frame_setLog happ.length)
  case txns => exact happ.txns
  case entries => exact happ.entries
  case bitmap =>
    rw [hsuper]
    refine hseq.congr fun i hi => ?_
    rw [List.getElem?_set_ne (by rw [txnOffset_eq]; unfold bitmapBytes at hi; omega)]
  case count => rw [hsuper, List.getElem?_set_self (by rw [hlen]; exact hoff)]
  case bytes =>
    intro i hi hne
    rw [hsuper, List.getElem?_set_ne (Ne.symm hne), hkeep i hi]
  case others =>
    intro j hj hj' hne
    rw [log_setLog, if_neg hne, hother j hj', log_counted, if_neg (by omega)]
  case states =>
    intro o ho
    have hgt := (mem_place ho).2.1
    rw [log_setLog, if_neg (by omega)]
    exact happ.states (by rw [hsnd]; exact List.nodup_range') o ho
  case records =>
    intro i o ho
    rw [log_setLog, if_pos rfl]
    exact happ.records i o ho
  case rest =>
    intro off k hk
    rw [log_setLog, if_pos rfl, happ.rest off k, log_counted, if_neg (by omega)]
    rw [List.length_zip, List.length_range', Nat.min_self]
    exact hk

theorem holds_appendLog (h : Holds cl a) (hfits : a.Fits cnt (.appendLog t ops))
    (hquiet : Quiet cl (.appendLog t ops)) : ∃ cl', appendLog t ops cl = some (.ok (), cl') ∧
      Holds cl' (a.next (.appendLog t ops)) ∧ Frame cl cl' ∧
      cl'.logEntriesNum = cl.logEntriesNum + ops.length := by
  obtain ⟨hu, hhome, tx, htx, hroom⟩ := hfits
  obtain ⟨cl', hrun, hext⟩ := appendLog_extended h htx hu hroom hquiet
  have hmemtx := List.mem_of_getElem? htx
  -- a transaction after the call is the one that was extended, or an old one with another block
  have hmem : ∀ u tx', (a.next (.appendLog t ops)).txs[u]? = some tx' →
      (u = t ∧ tx' = { tx with records := tx.records ++ a.place ops }) ∨
      (u ≠ t ∧ a.txs[u]? = some tx' ∧ tx'.block ≠ tx.block) := by
    intro u tx' hu'
    obtain ⟨tx₀, h0, ⟨rfl, rfl⟩ | ⟨hne, rfl⟩⟩ := modify_cases hu'
    · cases htx.symm.trans h0
      exact Or.inl ⟨rfl, rfl⟩
    · exact Or.inr ⟨hne, h0, fun heq => hne (h.apart.inj u t tx' tx h0 htx heq)⟩
  have hlog : ∀ tx' ∈ a.txs, tx'.block ≠ tx.block → cl'.log tx'.block = cl.log tx'.block := by
    intro tx' htx' hne
    exact hext.others _ (h.apart.block tx' htx').1 (h.apart.block tx' htx').2 hne
  have hstate : ∀ tx' ∈ a.txs, ∀ o ∈ tx'.records, cl'.log o.2 = o.1.newBlockState := by
    intro tx' htx' o ho
    rw [hext.others _ (h.apart.record tx' htx' o ho).1 (h.apart.record tx' htx' o ho).2
      (h.apart.disjoint tx hmemtx tx' htx' o ho)]
    exact h.state tx' htx' o ho
  have hlen : (tx.records ++ a.place ops).length = tx.records.length + ops.length := by
    rw [List.length_append, length_place]
  refine ⟨cl', hrun, ?_, hext.frame, hext.entries⟩
  constructor
  case apart => exact apart_appendLog h.apart hu
  case txns =>
    rw [hext.txns, h.txns, LogState.next, List.length_modify]
  case bitmap => exact hext.bitmap
  case entry =>
    intro u tx' hu' j hj
    have hback : bitmapBytes ≤ txnOffset u + j := by
      rw [txnOffset_eq]
      unfold bitmapBytes
      omega
    obtain ⟨rfl, rfl⟩ | ⟨hne, h0, -⟩ := hmem u tx' hu'
    · by_cases hj2 : j = 2
      · rw [hj2, hext.count, ← hlen]
        rfl
      · rw [hext.bytes _ hback (by omega), h.entry u tx htx j hj]
        obtain rfl | rfl | rfl : j = 0 ∨ j = 1 ∨ j = 3 := by omega
        all_goals rfl
    · rw [hext.bytes _ hback (by rw [txnOffset_eq, txnOffset_eq]; omega)]
      exact h.entry u tx' h0 j hj
  case rest =>
    intro i hi hlt
    have ht := (List.getElem?_eq_some_iff.mp htx).1
    rw [LogState.next, List.length_modify] at hi
    rw [hext.bytes i (by rw [txnOffset_eq] at hi; unfold bitmapBytes; omega)
      (by rw [txnOffset_eq] at hi ⊢; omega)]
    exact h.rest i hi hlt
  all_goals intro tx' htx'
  all_goals obtain ⟨u, hu'⟩ := List.mem_iff_getElem?.mp htx'
  all_goals obtain ⟨-, rfl⟩ | ⟨-, h0, hne⟩ := hmem u tx' hu'
  case name.inl => exact h.name tx hmemtx
  case name.inr => exact h.name tx' (List.mem_of_getElem? h0)
  case home.inl =>
    intro o ho
    obtain ho | ho := List.mem_append.mp ho
    · exact h.home tx hmemtx o ho
    · exact hhome _ (mem_place ho).1
  case home.inr => exact h.home tx' (List.mem_of_getElem? h0)
  case operation.inl =>
    intro hle
    simp only at hle ⊢
    rw [hlen] at hle
    rw [hext.rest _ _ (Or.inr (by unfold operationOffset; omega))]
    exact h.operation tx hmemtx (by omega)
  case operation.inr =>
    rw [hlog tx' (List.mem_of_getElem? h0) hne]
    exact h.operation tx' (List.mem_of_getElem? h0)
  case record.inl =>
    intro hle i o ho
    simp only at hle ho ⊢
    rw [hlen] at hle
    have hmod : tx.records.length % 256 = tx.records.length := Nat.mod_eq_of_lt (by omega)
    obtain hi | hi := Nat.lt_or_ge i tx.records.length
    · rw [List.getElem?_append_left hi] at ho
      rw [hext.rest _ _ (Or.inl (by omega))]
      exact h.record tx hmemtx (by omega) i o ho
    · rw [List.getElem?_append_right hi] at ho
      rw [← hext.records _ o ho, hmod, Nat.add_sub_cancel' hi]
  case record.inr =>
    rw [hlog tx' (List.mem_of_getElem? h0) hne]
    exact h.record tx' (List.mem_of_getElem? h0)
  case state.inl =>
    intro o ho
    obtain ho | ho := List.mem_append.mp ho
    · exact hstate tx hmemtx o ho
    · exact hext.states o ho
  case state.inr => exact hstate tx' (List.mem_of_getElem? h0)

end Steps

section Runs

/-- Each call fits in the log that the calls before it have left. -/
def Accepted (cnt : ℕ) : LogState → List Call → Prop
  | _, [] => True
  | a, c :: cs => a.Fits cnt c ∧ Accepted cnt (a.next c) cs

def recorded (t : ℕ) : List Call → List BlockOperation
  | [] => []
  | .appendLog u ops :: cs => if u = t then ops ++ recorded t cs else recorded t cs
  | _ :: cs => recorded t cs

def appended : List Call → ℕ
  | [] => 0
  | .appendLog _ ops :: cs => ops.length + appended cs
  | _ :: cs => appended cs

def after (cs : List Call) : LogState := cs.foldl LogState.next ⟨0, []⟩

variable {cl : CommitLog cnt} {a : LogState} {cs : List Call}

theorem holds_calls (h : Holds cl a) (hcs : Accepted cnt a cs)
    (hquiet : cl.isCheckpointEnabled = false ∨ cl.logEntriesNum + appended cs < kMaxLogSize) :
    ∃ cl', exec call cl cs = some cl' ∧ Holds cl' (cs.foldl LogState.next a) ∧ Frame cl cl' := by
  induction cs generalizing cl a with
  | nil => exact ⟨cl, rfl, h, .refl cl⟩
  | cons c cs ih =>
    obtain ⟨hfits, hcs⟩ := hcs
    obtain ⟨cl₁, hrun, hholds, hframe, hentries⟩ : ∃ cl₁, call cl c = some cl₁ ∧ Holds cl₁ (a.next c) ∧
        Frame cl cl₁ ∧ (cl.isCheckpointEnabled = false ∨ cl₁.logEntriesNum + appended cs < kMaxLogSize) := by
      cases c with
      | allocTxn operation =>
        obtain ⟨cl₁, hrun, hholds, hframe, heq⟩ := holds_allocTxn h hfits
        exact ⟨cl₁, by rw [call, hrun]; rfl, hholds, hframe, heq ▸ hquiet⟩
      | appendLog t ops =>
        have hnow : Quiet cl (.appendLog t ops) := by
          refine hquiet.imp_right fun hlt => ?_
          rw [appended] at hlt
          omega
        obtain ⟨cl₁, hrun, hholds, hframe, heq⟩ := holds_appendLog h hfits hnow
        refine ⟨cl₁, by rw [call, hrun]; rfl, hholds, hframe, hquiet.imp_right fun hlt => ?_⟩
        rw [appended] at hlt
        omega
      | commitLog t =>
        obtain ⟨cl₁, hrun, hholds, hframe, heq⟩ := holds_commitLog h hfits
        exact ⟨cl₁, by rw [call, hrun]; rfl, hholds, hframe, heq ▸ hquiet⟩
    rw [← hframe.enabled] at hentries
    obtain ⟨cl', hrest, hholds', hframe'⟩ := ih hholds hcs hentries
    refine ⟨cl', ?_, hholds', hframe.trans hframe'⟩
    rw [exec, hrun, Option.bind_some, hrest]

theorem foldl_next_tx (hcs : Accepted cnt a cs) (t : ℕ) {tx : Tx}
    (htx : (cs.foldl LogState.next a).txs[t]? = some tx) :
    (tx.records.map Prod.fst = ((a.txs[t]?).elim [] fun tx₀ => tx₀.records.map Prod.fst) ++ recorded t cs) ∧
    (tx.committed = true ↔ ((a.txs[t]?).elim False fun tx₀ => tx₀.committed = true) ∨
      Call.commitLog t ∈ cs) := by
  induction cs generalizing a with
  | nil =>
    rw [List.foldl_nil] at htx
    rw [htx]
    simp [recorded]
  | cons c cs ih =>
    obtain ⟨hfits, hcs⟩ := hcs
    obtain ⟨hrec, hcom⟩ := ih hcs htx
    rw [hrec, hcom]
    cases c with
    | allocTxn operation =>
      have hnew : ∀ {β : Type} (f : Tx → β) (d : β), f ⟨operation, a.used + 1, [], false⟩ = d →
          ((a.next (.allocTxn operation)).txs[t]?).elim d f = (a.txs[t]?).elim d f := by
        intro β f d hd
        simp only [LogState.next]
        obtain hlt | hge := Nat.lt_or_ge t a.txs.length
        · rw [List.getElem?_append_left hlt]
        · rw [List.getElem?_append_right hge, List.getElem?_eq_none hge, List.getElem?_singleton]
          split
          · exact hd
          · rfl
      rw [hnew _ [] rfl, hnew _ False (by simp)]
      simp [recorded]
    | appendLog u ops =>
      obtain ⟨-, -, tx₀, h0, -⟩ := hfits
      simp only [LogState.next, List.getElem?_modify, Option.map_eq_map, recorded]
      by_cases hut : u = t
      · rw [← hut, h0]
        simp [LogState.place, List.map_fst_zip]
      · simp [hut]
    | commitLog u =>
      have hlt : u < a.txs.length := hfits
      simp only [LogState.next, List.getElem?_modify, Option.map_eq_map, recorded]
      by_cases hut : u = t
      · rw [← hut, List.getElem?_eq_getElem hlt]
        simp
      · simp [hut, Ne.symm hut]

theorem length_le_foldl (a : LogState) (cs : List Call) :
    a.txs.length ≤ (cs.foldl LogState.next a).txs.length := by
  induction cs generalizing a with
  | nil => exact Nat.le_refl _
  | cons c cs ih =>
    refine Nat.le_trans ?_ (ih (a.next c))
    cases c with
    | allocTxn operation =>
      rw [LogState.next, List.length_append]
      exact Nat.le_succ _
    | appendLog t ops => exact Nat.le_of_eq (List.length_modify ..).symm
    | commitLog t => exact Nat.le_of_eq (List.length_modify ..).symm

theorem exists_tx_of_recorded (hcs : Accepted cnt a cs) {t : ℕ} (hne : recorded t cs ≠ []) :
    t < (cs.foldl LogState.next a).txs.length := by
  induction cs generalizing a with
  | nil => exact absurd rfl hne
  | cons c cs ih =>
    obtain ⟨hfits, hcs⟩ := hcs
    rw [List.foldl_cons]
    cases c with
    | allocTxn | commitLog => exact ih hcs hne
    | appendLog u ops =>
      rw [recorded] at hne
      split at hne
      case isTrue heq =>
        obtain ⟨-, -, tx, htx, -⟩ := hfits
        have hlt := (List.getElem?_eq_some_iff.mp htx).1
        have hle := length_le_foldl (a.next (.appendLog u ops)) cs
        rw [LogState.next, List.length_modify] at hle
        exact heq ▸ Nat.lt_of_lt_of_le hlt hle
      case isFalse => exact ih hcs hne

end Runs

end Chfs.Distributed.LogImage
