import Chfs.Distributed.LoggedNames
import Chfs.Distributed.Requests
import Mathlib.Order.Interval.Finset.Nat
import Mathlib.Data.Finset.Card

namespace Chfs.Distributed.LogRoom

open Lib.Effect Lib.Bytes Lib.Run Block.Manager Fs.Inode Fs.Operations Logging LogImage LoggedNames
open Requests (operation layout)
open Fs.Directory (readDirectory)

variable {cnt : ℕ}

section Marks

variable {data : List UInt8} {b n : ℕ}

def marks (data : List UInt8) : Finset ℕ := (Finset.Ico 1 1024).filter fun b => marked data b = true

theorem mem_marks : b ∈ marks data ↔ (1 ≤ b ∧ b < 1024) ∧ marked data b = true := by
  rw [marks, Finset.mem_filter, Finset.mem_Ico]

theorem card_marks_mark (hlen : data.length = 4096) (hb : 0 < b) (hlt : b < logBlockCnt)
    (hclear : marked data b = false) : (marks (mark data b)).card = (marks data).card + 1 := by
  unfold logBlockCnt at hlt
  have hinsert : marks (mark data b) = insert b (marks data) := by
    ext c
    rw [Finset.mem_insert, mem_marks, mem_marks, marked_mark (by omega), Bool.or_eq_true, decide_eq_true_iff]
    constructor
    · rintro ⟨hc, h | rfl⟩
      · exact Or.inr ⟨hc, h⟩
      · exact Or.inl rfl
    · rintro (rfl | ⟨hc, h⟩)
      · exact ⟨⟨by omega, by omega⟩, Or.inr rfl⟩
      · exact ⟨hc, Or.inl h⟩
  rw [hinsert, Finset.card_insert_of_notMem]
  rw [mem_marks, hclear]
  exact fun h => Bool.noConfusion h.2

theorem findFreeLogBlock_of_marks (hlen : data.length = 4096) (hfree : (marks data).card < 1023) : ∃ b,
    findFreeLogBlock data = some (b, mark data b) ∧ 0 < b ∧ b < logBlockCnt ∧
      (marks (mark data b)).card = (marks data).card + 1 := by
  obtain ⟨-, hall⟩ | ⟨b, hpos, hb, hclear, -, heq⟩ := findFreeLogBlock_spec data
  · have hfull : marks data = Finset.Ico 1 1024 := by
      rw [marks, Finset.filter_true_of_mem]
      intro b hb
      rw [Finset.mem_Ico] at hb
      exact hall b (by omega) (by unfold logBlockCnt; omega)
    rw [hfull, Nat.card_Ico] at hfree
    omega
  · exact ⟨b, heq, hpos, hb, card_marks_mark hlen hpos hb hclear⟩

theorem findFreeLogBlocks_of_marks (hlen : data.length = 4096) (hfree : (marks data).card + n ≤ 1023) :
    ∃ bs data', findFreeLogBlocks n data = some (bs, data') ∧ data'.length = 4096 ∧
      (∀ b ∈ bs, 0 < b ∧ b < logBlockCnt) ∧ (marks data').card = (marks data).card + n ∧
      ∀ i, bitmapBytes ≤ i → data'[i]? = data[i]? := by
  induction n generalizing data with
  | zero => exact ⟨[], data, rfl, hlen, nofun, rfl, fun _ _ => rfl⟩
  | succ n ih =>
    obtain ⟨b, hfind, hpos, hb, hcard⟩ := findFreeLogBlock_of_marks hlen (by omega)
    have hlen₁ : (mark data b).length = 4096 := by
      rw [length_mark, hlen]
    obtain ⟨bs, data', hrest, hlen', hbs, hcard', hkeep⟩ := ih hlen₁ (by omega)
    refine ⟨b :: bs, data', ?_, hlen', ?_, by omega, fun i hi => ?_⟩
    · rw [findFreeLogBlocks, hfind, Option.bind_eq_bind, Option.bind_some]
      simp only
      rw [hrest]
      rfl
    · exact List.forall_mem_cons.mpr ⟨⟨hpos, hb⟩, hbs⟩
    · rw [hkeep i hi, getElem?_mark hb hi]

theorem marks_congr {data' : List UInt8} (h : ∀ i, i < bitmapBytes → data'[i]? = data[i]?) :
    marks data' = marks data := by
  ext b
  rw [mem_marks, mem_marks]
  refine and_congr_right fun hb => ?_
  rw [marked, marked, List.getD_eq_getElem?_getD, List.getD_eq_getElem?_getD,
    h _ (by unfold bitmapBytes; omega)]

theorem marks_set {i : ℕ} (hi : bitmapBytes ≤ i) (x : UInt8) : marks (data.set i x) = marks data := by
  apply marks_congr
  intro j hj
  rw [List.getElem?_set_ne (by omega)]

theorem marks_replicate (k : ℕ) : marks (List.replicate k 0) = ∅ := by
  ext b
  rw [mem_marks, marked, List.getD_eq_getElem?_getD, List.getElem?_replicate]
  split <;> simp

/-- Ten bytes written over the front of the bitmap mark at most eighty blocks. -/
theorem card_marks_of_tail {data' : List UInt8} (h : ∀ i, 10 ≤ i → data'[i]? = data[i]?) :
    (marks data').card ≤ (marks data).card + 80 := by
  have hsub : marks data' ⊆ marks data ∪ Finset.range 80 := by
    intro b hb
    rw [mem_marks] at hb
    rw [Finset.mem_union, Finset.mem_range, mem_marks]
    by_cases hlt : b < 80
    · exact Or.inr hlt
    · refine Or.inl ⟨hb.1, ?_⟩
      have hsame := hb.2
      rw [marked, List.getD_eq_getElem?_getD, h _ (by omega), ← List.getD_eq_getElem?_getD] at hsame
      exact hsame
  refine (Finset.card_le_card hsub).trans ((Finset.card_union_le _ _).trans ?_)
  rw [Finset.card_range]

end Marks

section Entries

variable {data data' : List UInt8} {t b k : ℕ}

theorem bitmapBytes_le (t i : ℕ) : bitmapBytes ≤ txnOffset t + i := by
  unfold txnOffset
  omega

theorem txnInfo_congr (h : ∀ i, bitmapBytes ≤ i → data'[i]? = data[i]?) : txnInfo data' t = txnInfo data t := by
  unfold txnInfo
  simp only [List.getD_eq_getElem?_getD]
  have hle : bitmapBytes ≤ txnOffset t := Nat.le_add_right _ _
  rw [h _ hle, h _ (by omega), h _ (by omega)]

theorem txnInfo_set (hlen : data.length = 4096) (ht : txnOffset t + 2 < 4096)
    (h : txnInfo data t = (b, k)) (n : ℕ) :
    txnInfo (data.set (txnOffset t + 2) (UInt8.ofNat n)) t = (b, n % 256) := by
  unfold txnInfo at h ⊢
  rw [Prod.mk.injEq] at h
  simp only [List.getD_eq_getElem?_getD] at h ⊢
  rw [List.getElem?_set_ne (by omega), List.getElem?_set_ne (by omega), List.getElem?_set_self (by omega), h.1,
    Option.getD_some, UInt8.toNat_ofNat']

theorem txnInfo_entry (hlen : data.length = 4096) (ht : txnOffset t + 2 < 4096) (hb : b < logBlockCnt) :
    txnInfo (splice data (txnOffset t) (entryBytes b)) t = (b, 0) := by
  have hbytes : ∀ j < 3, (splice data (txnOffset t) (entryBytes b))[txnOffset t + j]? = (entryBytes b)[j]? := by
    intro j hj
    have hthree : (entryBytes b).length = 3 := rfl
    rw [getElem?_splice (by omega), if_pos (by omega), Nat.add_sub_cancel_left]
  unfold logBlockCnt at hb
  unfold txnInfo
  simp only [List.getD_eq_getElem?_getD]
  have h0 : (splice data (txnOffset t) (entryBytes b))[txnOffset t]? = some (UInt8.ofNat (b / 256)) :=
    hbytes 0 (by decide)
  have h1 : (splice data (txnOffset t) (entryBytes b))[txnOffset t + 1]? = some (UInt8.ofNat (b % 256)) :=
    hbytes 1 (by decide)
  have h2 : (splice data (txnOffset t) (entryBytes b))[txnOffset t + 2]? = some 0 := hbytes 2 (by decide)
  rw [h0, h1, h2, Option.getD_some, Option.getD_some, Option.getD_some, UInt8.toNat_ofNat', UInt8.toNat_ofNat']
  have hval : b / 256 % 2 ^ 8 * 256 + b % 256 % 2 ^ 8 = b := by omega
  rw [hval]
  rfl

end Entries

section Room

variable {cl : CommitLog cnt} {t : ℕ} {ops : List BlockOperation}

/-- Between requests: no checkpoint is due, and the marked blocks are those
handed out since the last one, and at most eighty others. -/
structure Room (cl : CommitLog cnt) : Prop where
  enabled : cl.isCheckpointEnabled = true
  entries : cl.logEntriesNum < kMaxLogSize
  marks : (marks (cl.log 0)).card ≤ cl.maxTxnId + cl.logEntriesNum + 80

/-- After a request has allocated its transaction. -/
structure Began (cl : CommitLog cnt) (t : ℕ) : Prop extends Room cl where
  few : cl.maxTxnId + cl.logEntriesNum ≤ 938
  txn : t < 992
  entry : ∃ b, 0 < b ∧ b < logBlockCnt ∧ txnInfo (cl.log 0) t = (b, 0)

/-- After its first records have been appended. If that brought about a
checkpoint, the entry of the transaction is gone. -/
structure Logged (cl : CommitLog cnt) (t : ℕ) : Prop extends Room cl where
  few : cl.maxTxnId + cl.logEntriesNum ≤ 942
  txn : t < 992
  entry : (∃ b, 0 < b ∧ b < logBlockCnt ∧ txnInfo (cl.log 0) t = (b, 4)) ∨
    (txnInfo (cl.log 0) t = (0, 0) ∧ LogRoom.marks (cl.log 0) = ∅ ∧ cl.logEntriesNum = 0)

structure Emptied (cl : CommitLog cnt) : Prop where
  enabled : cl.isCheckpointEnabled = true
  txns : cl.maxTxnId = 0
  entries : cl.logEntriesNum = 0
  super : cl.log 0 = List.replicate 4096 0

theorem Emptied.room (h : Emptied cl) : Room cl where
  enabled := h.enabled
  entries := by
    rw [h.entries]
    decide
  marks := by
    rw [h.super, marks_replicate, Finset.card_empty]
    exact Nat.zero_le _

theorem Emptied.txnInfo (h : Emptied cl) (t : ℕ) : txnInfo (cl.log 0) t = (0, 0) := by
  rw [h.super, txnInfo_replicate]

theorem finds_txn (ht : t < 992) : txnOffset t + 3 < 4096 := by
  rw [txnOffset_eq]
  omega

theorem append_proper {b k : ℕ} (h : Room cl) (ht : t < 992) (hpos : 0 < b) (hb : b < logBlockCnt)
    (hinfo : txnInfo (cl.log 0) t = (b, k)) (hk : k + ops.length ≤ 255)
    (hfree : (LogRoom.marks (cl.log 0)).card + ops.length ≤ 1023) : Finds cl (.appendLog t ops) ∧ ∃ cl',
      call cl (.appendLog t ops) = some cl' ∧ (Emptied cl' ∨ (Room cl' ∧ cl'.maxTxnId = cl.maxTxnId ∧
        cl'.logEntriesNum = cl.logEntriesNum + ops.length ∧ txnInfo (cl'.log 0) t = (b, k + ops.length))) := by
  have hoff := finds_txn ht
  have hin : txnOffset t + 2 < 4096 := by omega
  obtain ⟨bs, data, hfind, hlen, hbs, hcard, hkeep⟩ := findFreeLogBlocks_of_marks (length_log cl 0) hfree
  have hinfo' : txnInfo data t = (b, k) := (txnInfo_congr hkeep).trans hinfo
  refine ⟨⟨by rw [hfind]; rfl, hoff⟩, ?_⟩
  have hspec := appendLog_spec hfind hlen (fun b hb => (hbs b hb).2) hin (by rw [hinfo']; exact hb)
    (by rw [hinfo']; simp only; omega)
  rw [hinfo'] at hspec
  obtain ⟨buffer, cl₁, happ, hrun⟩ := hspec
  simp only at happ hrun
  have hsuper : (cl₁.setLog b buffer happ.length).log 0 =
      data.set (txnOffset t + 2) (UInt8.ofNat (k + ops.length)) := by
    have hnot : 0 ∉ (ops.zip bs).map Prod.snd := by
      intro hmem
      obtain ⟨o, ho, heq⟩ := List.mem_map.mp hmem
      have := (hbs o.2 (List.of_mem_zip ho).2).1
      omega
    rw [log_setLog, if_neg (by omega), happ.others 0 hnot, log_counted, if_pos rfl, hinfo']
  rw [h.enabled, Bool.and_true] at hrun
  split at hrun
  case isTrue =>
    obtain ⟨cl', hcheck, hframe, htxns, hentries, hlog⟩ := checkpoint_apply (cl₁.setLog b buffer happ.length)
    refine ⟨cl', by rw [call, hrun, hcheck]; rfl, Or.inl ⟨?_, htxns, hentries, hlog 0 (by decide)⟩⟩
    rw [hframe.enabled]
    exact happ.frame.enabled.trans h.enabled
  case isFalse hnot =>
    refine ⟨cl₁.setLog b buffer happ.length, by rw [call, hrun]; rfl,
      Or.inr ⟨⟨?_, ?_, ?_⟩, happ.txns, happ.entries, ?_⟩⟩
    · exact happ.frame.enabled.trans h.enabled
    · change cl₁.logEntriesNum < _
      rw [happ.entries]
      simp only [decide_eq_true_eq, not_le] at hnot
      exact hnot
    · change (LogRoom.marks _).card ≤ cl₁.maxTxnId + cl₁.logEntriesNum + 80
      rw [hsuper, marks_set (bitmapBytes_le t 2), hcard, happ.txns, happ.entries]
      have := h.marks
      change _ ≤ cl.maxTxnId + (cl.logEntriesNum + ops.length) + 80
      omega
    · rw [hsuper, txnInfo_set hlen (by omega) hinfo', Nat.mod_eq_of_lt (by omega)]

theorem Began.append (h : Began cl t) (hops : ops.length = 4) : Finds cl (.appendLog t ops) ∧
    ∃ cl', call cl (.appendLog t ops) = some cl' ∧ Logged cl' t := by
  obtain ⟨b, hpos, hb, hinfo⟩ := h.entry
  have hmarks := h.marks
  have hfew := h.few
  have hk : 0 + ops.length ≤ 255 := by omega
  obtain ⟨hfinds, cl', hcall, hout⟩ := append_proper h.toRoom h.txn hpos hb hinfo hk (by omega)
  refine ⟨hfinds, cl', hcall, ?_⟩
  obtain hempty | ⟨hroom, htxns, hentries, hinfo'⟩ := hout
  · refine ⟨hempty.room, ?_, h.txn, Or.inr ⟨hempty.txnInfo t, ?_, hempty.entries⟩⟩
    · rw [hempty.txns, hempty.entries]
      exact Nat.zero_le _
    · rw [hempty.super, marks_replicate]
  · rw [hops, Nat.zero_add] at hinfo'
    exact ⟨hroom, by omega, h.txn, Or.inl ⟨b, hpos, hb, hinfo'⟩⟩

/-- A record appended after a checkpoint inside the request goes to the front of
the superblock. -/
theorem append_super (h : Room cl) (ht : t < 992) (hinfo : txnInfo (cl.log 0) t = (0, 0))
    (hempty : LogRoom.marks (cl.log 0) = ∅) (hentries : cl.logEntriesNum = 0) (hops : ops.length = 1) :
    Finds cl (.appendLog t ops) ∧ ∃ cl', call cl (.appendLog t ops) = some cl' ∧ Room cl' := by
  have hoff := finds_txn ht
  have hin : txnOffset t + 2 < 4096 := by omega
  have hfree : (LogRoom.marks (cl.log 0)).card + ops.length ≤ 1023 := by
    rw [hempty, hops]
    decide
  obtain ⟨bs, data, hfind, hlen, hbs, hcard, hkeep⟩ := findFreeLogBlocks_of_marks (length_log cl 0) hfree
  have hinfo' : txnInfo data t = (0, 0) := (txnInfo_congr hkeep).trans hinfo
  refine ⟨⟨by rw [hfind]; rfl, hoff⟩, ?_⟩
  have hspec := appendLog_spec hfind hlen (fun b hb => (hbs b hb).2) hin (by rw [hinfo']; decide)
    (by rw [hinfo', hops]; decide)
  rw [hinfo'] at hspec
  obtain ⟨buffer, cl₁, happ, hrun⟩ := hspec
  simp only at happ hrun
  have hnone : ¬ (decide (kMaxLogSize ≤ cl.logEntriesNum + ops.length) && cl.isCheckpointEnabled) = true := by
    rw [hentries, hops, Bool.and_eq_true, decide_eq_true_eq]
    exact fun hdue => absurd hdue.1 (by decide)
  rw [if_neg hnone] at hrun
  have hone : (ops.zip bs).length ≤ 1 := by
    rw [List.length_zip]
    omega
  -- the record changes ten bytes of the bitmap
  have hrest : ∀ i, 10 ≤ i → buffer[i]? = ((cl.counted t ops.length hlen).log 0)[i]? := by
    intro i hi
    have hslice := congrArg (·[0]?) (happ.rest i 1 (Or.inr (by omega)))
    simp only [getElem?_slice, if_pos Nat.one_pos, Nat.add_zero] at hslice
    exact hslice
  have hcounted : LogRoom.marks ((cl.counted t ops.length hlen).log 0) = LogRoom.marks data := by
    rw [log_counted, if_pos rfl, marks_set (bitmapBytes_le t 2)]
  refine ⟨cl₁.setLog 0 buffer happ.length, by rw [call, hrun]; rfl, ?_, ?_, ?_⟩
  · exact happ.frame.enabled.trans h.enabled
  · change cl₁.logEntriesNum < _
    rw [happ.entries]
    change cl.logEntriesNum + _ < _
    rw [hentries, hops]
    decide
  · rw [log_setLog, if_pos rfl]
    change _ ≤ cl₁.maxTxnId + cl₁.logEntriesNum + 80
    have hle := card_marks_of_tail hrest
    rw [hcounted, hcard, hempty, Finset.card_empty] at hle
    rw [happ.entries]
    change _ ≤ cl₁.maxTxnId + (cl.logEntriesNum + ops.length) + 80
    omega

theorem Logged.append (h : Logged cl t) (hops : ops.length = 1) : Finds cl (.appendLog t ops) ∧
    ∃ cl', call cl (.appendLog t ops) = some cl' ∧ Room cl' := by
  have hmarks := h.marks
  have hfew := h.few
  obtain ⟨b, hpos, hb, hinfo⟩ | ⟨hinfo, hempty, hentries⟩ := h.entry
  · have hk : 4 + ops.length ≤ 255 := by omega
    obtain ⟨hfinds, cl', hcall, hout⟩ := append_proper h.toRoom h.txn hpos hb hinfo hk (by omega)
    refine ⟨hfinds, cl', hcall, ?_⟩
    obtain hempty | ⟨hroom, -⟩ := hout
    · exact hempty.room
    · exact hroom
  · exact append_super h.toRoom h.txn hinfo hempty hentries hops

theorem Room.commit (h : Room cl) (ht : t < 992) : Finds cl (.commitLog t) ∧
    ∃ cl', call cl (.commitLog t) = some cl' ∧ Room cl' := by
  have hoff := finds_txn ht
  refine ⟨hoff, cl.setLog 0 _ (length_countByte (length_log cl 0) (txnOffset t + 3) 1),
    by rw [call, commitLog_apply hoff]; rfl, h.enabled, h.entries, ?_⟩
  rw [log_setLog, if_pos rfl, marks_set (bitmapBytes_le t 3)]
  exact h.marks

theorem allocTxn_entry (hfree : (LogRoom.marks (cl.log 0)).card < 1023) (ht : cl.maxTxnId < 992)
    (operation : ServerOperation) : Finds cl (.allocTxn operation) ∧
      if operation.name.length ≤ 90 then ∃ cl', call cl (.allocTxn operation) = some cl' ∧ Frame cl cl' ∧
        cl'.maxTxnId = cl.maxTxnId + 1 ∧ cl'.logEntriesNum = cl.logEntriesNum ∧
        (LogRoom.marks (cl'.log 0)).card = (LogRoom.marks (cl.log 0)).card + 1 ∧
        ∃ b, 0 < b ∧ b < logBlockCnt ∧ Logging.txnInfo (cl'.log 0) cl.maxTxnId = (b, 0)
      else call cl (.allocTxn operation) = none := by
  have hoff := finds_txn ht
  have hin : txnOffset cl.maxTxnId + 2 < 4096 := by omega
  obtain ⟨b, hfind, hpos, hb, hcard⟩ := findFreeLogBlock_of_marks (length_log cl 0) hfree
  have hlen : (mark (cl.log 0) b).length = 4096 := by
    rw [length_mark, length_log]
  refine ⟨⟨by rw [hfind]; rfl, hoff⟩, ?_⟩
  split
  case isFalse hname =>
    rw [call, allocTxn_long hfind hlen hin hname]
    rfl
  case isTrue hname =>
    let cl₁ : CommitLog cnt := ({ cl with maxTxnId := cl.maxTxnId + 1 } : CommitLog cnt).setLog 0 _
      (length_entry hlen hin b)
    have hsuper : (cl₁.setLog b _ (length_operationBlock hname)).log 0 =
        splice (mark (cl.log 0) b) (txnOffset cl.maxTxnId) (entryBytes b) := by
      rw [log_setLog, if_neg (by omega), log_setLog, if_pos rfl]
    have hmarks : LogRoom.marks (splice (mark (cl.log 0) b) (txnOffset cl.maxTxnId) (entryBytes b)) =
        LogRoom.marks (mark (cl.log 0) b) := by
      apply marks_congr
      intro i hi
      have hthree : (entryBytes b).length = 3 := rfl
      have hle := bitmapBytes_le cl.maxTxnId 0
      rw [getElem?_splice (by omega), if_neg (by omega)]
    refine ⟨cl₁.setLog b _ (length_operationBlock hname), ?_, ?_, rfl, rfl, ?_, b, hpos, hb, ?_⟩
    · rw [call, allocTxn_apply hfind hb hlen hin hname]
      rfl
    · have hframe : Frame cl cl₁ := ⟨rfl, rfl, (frame_setLog (length_entry hlen hin b)).home⟩
      exact hframe.trans (frame_setLog _)
    · rw [hsuper, hmarks, hcard]
    · rw [hsuper, txnInfo_entry hlen hin hb]

theorem Room.begin (h : Room cl) (hfew : cl.maxTxnId + cl.logEntriesNum ≤ 937) (operation : ServerOperation) :
    Finds cl (.allocTxn operation) ∧
      ∀ cl', call cl (.allocTxn operation) = some cl' → Began cl' cl.maxTxnId := by
  have hmarks := h.marks
  have hfree : (LogRoom.marks (cl.log 0)).card < 1023 := by omega
  obtain ⟨hfinds, hcall⟩ := allocTxn_entry hfree (by omega) operation
  refine ⟨hfinds, fun cl' hcl' => ?_⟩
  split at hcall
  case isFalse => cases hcall.symm.trans hcl'
  case isTrue =>
    obtain ⟨u, hu, hframe, htxns, hentries, hcard, hentry⟩ := hcall
    cases hu.symm.trans hcl'
    refine ⟨⟨hframe.enabled.trans h.enabled, ?_, by omega⟩, by omega, by omega, hentry⟩
    rw [hentries]
    exact h.entries

end Room

section Requests

variable {α : Type} {cl cl' cl'' : CommitLog cnt} {t : ℕ}

structure SameLog (cl cl' : CommitLog cnt) : Prop where
  enabled : cl'.isCheckpointEnabled = cl.isCheckpointEnabled
  txns : cl'.maxTxnId = cl.maxTxnId
  entries : cl'.logEntriesNum = cl.logEntriesNum
  super : cl'.log 0 = cl.log 0

theorem SameLog.refl (cl : CommitLog cnt) : SameLog cl cl := ⟨rfl, rfl, rfl, rfl⟩

theorem SameLog.trans (h : SameLog cl cl') (h' : SameLog cl' cl'') : SameLog cl cl'' :=
  ⟨h'.enabled.trans h.enabled, h'.txns.trans h.txns, h'.entries.trans h.entries, h'.super.trans h.super⟩

theorem sameLog_withHome (cl : CommitLog cnt) (s : BlockManager 4096 cnt 0) : SameLog cl (withHome cl s) where
  enabled := rfl
  txns := rfl
  entries := rfl
  super := if_neg (by omega)

theorem Room.of_same (h : Room cl) (hs : SameLog cl cl') : Room cl' where
  enabled := hs.enabled.trans h.enabled
  entries := hs.entries.symm ▸ h.entries
  marks := by
    rw [hs.super, hs.txns, hs.entries]
    exact h.marks

theorem Began.of_same (h : Began cl t) (hs : SameLog cl cl') : Began cl' t where
  toRoom := h.toRoom.of_same hs
  few := by
    rw [hs.txns, hs.entries]
    exact h.few
  txn := h.txn
  entry := hs.super.symm ▸ h.entry

theorem Logged.of_same (h : Logged cl t) (hs : SameLog cl cl') : Logged cl' t where
  toRoom := h.toRoom.of_same hs
  few := by
    rw [hs.txns, hs.entries]
    exact h.few
  txn := h.txn
  entry := by
    rw [hs.super, hs.entries]
    exact h.entry

theorem safe_onHome (x : Bm 4096 cnt 0 α) : safe (onHome x) (fun _ => SameLog cl) cl := by
  intro r u hx
  obtain ⟨out, -, heq⟩ := Option.map_eq_some_iff.mp hx
  cases heq
  exact ⟨_, rfl, sameLog_withHome cl _⟩

theorem safe_unwrap (r : Except ErrorType α) : safe (unwrap r) (fun _ => SameLog cl) cl := by
  cases r with
  | ok a => exact safe_pure (.refl cl)
  | error e => exact safe_undefined

theorem safe_image (id : ℕ) : safe (image id) (fun _ => SameLog cl) cl := by
  intro r u hx
  rw [image] at hx
  split at hx
  · cases hx
    exact ⟨_, rfl, .refl cl⟩
  · cases hx

theorem safe_parentOps (fo : FileOperation) (parent : ℕ) :
    safe (parentOps fo parent) (fun ops cl' => ops.length = 1 ∧ SameLog cl cl') cl := by
  refine (safe_onHome _).bind fun r u₁ h₁ => ?_
  refine (safe_unwrap r).bind fun _ u₂ h₂ => ?_
  refine (safe_image _).bind fun _ u₃ h₃ => ?_
  exact safe_pure ⟨rfl, (h₁.trans h₂).trans h₃⟩

theorem safe_inodeOps (fo : FileOperation) (inodeId : ℕ) :
    safe (inodeOps fo inodeId) (fun ops cl' => ops.length = 4 ∧ SameLog cl cl') cl := by
  refine (safe_image _).bind fun _ u₁ h₁ => ?_
  refine (safe_image _).bind fun _ u₂ h₂ => ?_
  refine (safe_image _).bind fun _ u₃ h₃ => ?_
  refine (safe_onHome _).bind fun r u₄ h₄ => ?_
  refine (safe_unwrap r).bind fun _ u₅ h₅ => ?_
  refine (safe_image _).bind fun _ u₆ h₆ => ?_
  exact safe_pure ⟨rfl, ((((h₁.trans h₂).trans h₃).trans h₄).trans h₅).trans h₆⟩

theorem safe_issue {c : Call} {Q : CommitLog cnt → Prop} (hfinds : Finds cl c)
    (hcall : ∀ cl', call cl c = some cl' → Q cl') : safe (issue c) (fun _ => Q) cl := by
  intro r u hx
  rw [issue, if_pos hfinds] at hx
  obtain ⟨u, hu, heq⟩ := Option.map_eq_some_iff.mp hx
  cases heq
  exact ⟨(), rfl, hcall u hu⟩

theorem safe_issue_of {c : Call} {Q : CommitLog cnt → Prop}
    (h : Finds cl c ∧ ∃ cl', call cl c = some cl' ∧ Q cl') : safe (issue c) (fun _ => Q) cl := by
  obtain ⟨hfinds, u, hcall, hq⟩ := h
  refine safe_issue hfinds fun u' hu' => ?_
  cases hcall.symm.trans hu'
  exact hq

theorem safe_begin (h : Room cl) (hfew : cl.maxTxnId + cl.logEntriesNum ≤ 937) (operation : ServerOperation) :
    safe (begin operation) (fun t cl' => Began cl' t) cl := by
  obtain ⟨hfinds, hcall⟩ := h.begin hfew operation
  have hread : safe (fun cl => some (.ok cl.maxTxnId, cl) : Sv cnt ℕ) (fun t u => t = cl.maxTxnId ∧ u = cl) cl := by
    intro r u hx
    cases hx
    exact ⟨_, rfl, rfl, rfl⟩
  refine hread.bind fun t u hu => ?_
  obtain ⟨rfl, rfl⟩ := hu
  exact (safe_issue hfinds hcall).bind fun _ _ hq => safe_pure hq

theorem safe_finish (h : Logged cl t) (fo : FileOperation) (parent : ℕ) (content : List UInt8) (now : ℕ) :
    safe (finish fo t parent content now) (fun _ => Room) cl := by
  refine (safe_onHome _).bind fun writeDirRes u₁ h₁ => ?_
  refine (safe_parentOps fo parent).bind fun ops u₂ h₂ => ?_
  refine (safe_issue_of ((h.of_same (h₁.trans h₂.2)).append h₂.1)).bind fun _ u₃ h₃ => ?_
  cases writeDirRes with
  | error e => exact safe_pure h₃
  | ok _ => exact (safe_issue_of (h₃.commit h.txn)).bind fun _ _ hroom => safe_pure hroom

theorem safe_mknode (h : Room cl) (hfew : cl.maxTxnId + cl.logEntriesNum ≤ 937) (fo : FileOperation)
    (type : UInt8) (parent : UInt64) (name : List UInt8) (now now' : ℕ) :
    safe (mknode fo type parent name now now') (fun _ => Room) cl := by
  refine (safe_begin h hfew _).bind fun t u₁ h₁ => ?_
  refine (safe_onHome _).bind fun r u₂ h₂ => ?_
  refine (safe_unwrap r).bind fun dirContent u₃ h₃ => ?_
  have hbegan := h₁.of_same (h₂.trans h₃)
  split
  · exact safe_pure hbegan.toRoom
  · refine (safe_onHome _).bind fun inodeRes u₄ h₄ => ?_
    cases inodeRes with
    | error e => exact safe_pure (hbegan.of_same h₄).toRoom
    | ok newInodeId =>
      refine (safe_inodeOps fo newInodeId).bind fun ops u₅ h₅ => ?_
      refine (safe_issue_of ((hbegan.of_same (h₄.trans h₅.2)).append h₅.1)).bind fun _ u₆ h₆ => ?_
      refine (safe_finish h₆ fo _ _ now').bind fun done u₇ h₇ => ?_
      split
      · exact safe_pure h₇
      · exact safe_pure h₇

theorem safe_unlink (h : Room cl) (hfew : cl.maxTxnId + cl.logEntriesNum ≤ 937) (fo : FileOperation)
    (parent : UInt64) (name : List UInt8) (now : ℕ) :
    safe (unlink fo parent name now) (fun _ => Room) cl := by
  refine (safe_begin h hfew _).bind fun t u₁ h₁ => ?_
  refine (safe_onHome _).bind fun r u₂ h₂ => ?_
  refine (safe_unwrap r).bind fun dirContent u₃ h₃ => ?_
  refine (safe_onHome _).bind fun r' u₄ h₄ => ?_
  refine (safe_unwrap r').bind fun inodeId u₅ h₅ => ?_
  have hbegan := h₁.of_same (((h₂.trans h₃).trans h₄).trans h₅)
  split
  · exact safe_pure hbegan.toRoom
  · refine (safe_onHome _).bind fun removeRes u₆ h₆ => ?_
    cases removeRes with
    | error e => exact safe_pure (hbegan.of_same h₆).toRoom
    | ok _ =>
      refine (safe_inodeOps fo inodeId).bind fun ops u₇ h₇ => ?_
      refine (safe_issue_of ((hbegan.of_same (h₆.trans h₇.2)).append h₇.1)).bind fun _ u₈ h₈ => ?_
      cases dirContent.findIdx? (·.id = inodeId) with
      | none => exact safe_undefined
      | some contentPos => exact safe_finish h₈ fo _ _ now

/-- A request that finds the log not too full leaves it so that no checkpoint is
due. -/
theorem safe_serve (h : Room cl) (hfew : cl.maxTxnId + cl.logEntriesNum ≤ 937) (fo : FileOperation)
    (q : Request) : safe (serve fo q) (fun _ => Room) cl := by
  cases q with
  | mknode type parent name now now' =>
    exact (safe_mknode h hfew fo type parent name now now').bind fun _ _ hroom => safe_pure hroom
  | unlink parent name now =>
    exact (safe_unlink h hfew fo parent name now).bind fun _ _ hroom => safe_pure hroom

end Requests

section Missing

variable {s s' : BlockManager 4096 4096 0} {cl : CommitLog 4096}

structure EmptyRoot (s : BlockManager 4096 4096 0) : Prop where
  pos : operation.inodeManager.entry s 1 ≠ invalidBlockId
  lt : operation.inodeManager.entry s 1 < 4096
  size : getSize (s.blocks (operation.inodeManager.entry s 1)) = 0

theorem EmptyRoot.congr (h : EmptyRoot s) (hblocks : ∀ id < 4096, s'.blocks id = s.blocks id) : EmptyRoot s' := by
  have hentry : operation.inodeManager.entry s' 1 = operation.inodeManager.entry s 1 := by
    unfold InodeManager.entry
    rw [hblocks _ (by decide)]
  refine ⟨hentry ▸ h.pos, hentry ▸ h.lt, ?_⟩
  rw [hentry, hblocks _ h.lt]
  exact h.size

theorem EmptyRoot.readFile (h : EmptyRoot s) : operation.readFile 1 s = some (.ok [], s) := by
  have hinode : operation.inodeManager.readInode 1 s = some (.ok (operation.inodeManager.entry s 1,
      s.blocks (operation.inodeManager.entry s 1)), s) := by
    rw [readInode_apply layout.inodes (Nat.le_refl 1), if_neg, if_pos h.lt]
    exact not_or.mpr ⟨by decide, h.pos⟩
  rw [FileOperation.readFile, bind_ok hinode]
  simp only
  rw [h.size]
  rfl

theorem EmptyRoot.readdir (h : EmptyRoot s) : Names.readdir operation 1 s = some (.ok [], s) := by
  rw [Names.readdir, bind_ok (attempt_apply h.readFile)]
  rfl

theorem EmptyRoot.lookup (h : EmptyRoot s) (name : List UInt8) :
    Names.lookup operation 1 name s = some (.ok 0, s) := by
  have hlook : Fs.Directory.lookup operation 1 (Names.cStr name) s = some (.error .notExist, s) := by
    have hread : readDirectory operation 1 s = some (.ok [], s) := by
      rw [readDirectory, bind_ok h.readFile]
      rfl
    rw [Fs.Directory.lookup, bind_ok hread]
    rfl
  rw [Names.lookup, bind_ok (attempt_apply hlook)]
  rfl

theorem withHome_home (cl : CommitLog cnt) : withHome cl (home cl) = cl := by
  unfold withHome home
  simp only [ite_self]

def missing : Request := .unlink 1 [120] 0

structure Idle (cl : CommitLog 4096) : Prop where
  root : EmptyRoot (home cl)
  entries : cl.logEntriesNum = 0
  marks : (marks (cl.log 0)).card = cl.maxTxnId

theorem serve_missing {cl' : CommitLog 4096} (hroot : EmptyRoot (home cl'))
    (hissue : begin ⟨0, 1, [120]⟩ cl = some (.ok cl.maxTxnId, cl')) :
    serve operation missing cl = some (.ok (), cl') := by
  have hread : onHome (Names.readdir operation 1) cl' = some (.ok (.ok []), cl') := by
    rw [onHome, hroot.readdir, Option.map_some, withHome_home]
  have hlook : onHome (Names.lookup operation 1 [120]) cl' = some (.ok (.ok 0), cl') := by
    rw [onHome, hroot.lookup, Option.map_some, withHome_home]
  have hunlink : LoggedNames.unlink operation 1 [120] 0 cl = some (.ok false, cl') := by
    have hone : (1 : UInt64).toNat = 1 := rfl
    rw [LoggedNames.unlink, bind_ok hissue, hone, bind_ok hread, unwrap, bind_ok (pure_apply _), bind_ok hlook, unwrap,
      bind_ok (pure_apply _), if_pos rfl, pure_apply]
  change (LoggedNames.unlink operation 1 [120] 0 >>= _) cl = _
  rw [bind_ok hunlink]
  rfl

theorem begin_apply {cl' : CommitLog cnt} {cl : CommitLog cnt} {operation : ServerOperation}
    (hfinds : Finds cl (.allocTxn operation)) (hcall : call cl (.allocTxn operation) = some cl') :
    begin operation cl = some (.ok cl.maxTxnId, cl') := by
  have hissue : issue (.allocTxn operation) cl = some (.ok (), cl') := by
    rw [issue, if_pos hfinds, hcall]
    rfl
  change (issue (.allocTxn operation) >>= _) cl = _
  rw [bind_ok hissue]
  rfl

theorem Idle.step (h : Idle cl) (ht : cl.maxTxnId < 992) : ∃ cl', step operation cl missing = some cl' ∧
    Idle cl' ∧ cl'.maxTxnId = cl.maxTxnId + 1 := by
  have hfree : (LogRoom.marks (cl.log 0)).card < 1023 := by
    rw [h.marks]
    omega
  obtain ⟨hfinds, hcall⟩ := allocTxn_entry hfree ht ⟨0, 1, [120]⟩
  rw [if_pos (by decide)] at hcall
  obtain ⟨cl', hcl', hframe, htxns, hentries, hcard, -⟩ := hcall
  have hroot : EmptyRoot (home cl') := h.root.congr hframe.home
  refine ⟨cl', ?_, ⟨hroot, hentries.trans h.entries, ?_⟩, htxns⟩
  · rw [LoggedNames.step, serve_missing hroot (begin_apply hfinds hcl')]
  · rw [hcard, h.marks, htxns]

theorem Idle.exec (h : Idle cl) (k : ℕ) (hk : cl.maxTxnId + k ≤ 992) : ∃ cl',
    exec (LoggedNames.step operation) cl (List.replicate k missing) = some cl' ∧
      cl'.maxTxnId = cl.maxTxnId + k := by
  induction k generalizing cl with
  | zero => exact ⟨cl, rfl, rfl⟩
  | succ k ih =>
    obtain ⟨cl₁, hstep, hidle, htxns⟩ := h.step (by omega)
    obtain ⟨cl', hexec, htxns'⟩ := ih hidle (by omega)
    refine ⟨cl', ?_, by omega⟩
    rw [List.replicate_succ, Lib.Run.exec, hstep, Option.bind_some, hexec]

theorem serve_full (ht : cl.maxTxnId = 992) :
    serve operation missing cl = some (.error (.allocTxn ⟨0, 1, [120]⟩), cl) := by
  have hfull : ¬ Finds cl (.allocTxn ⟨0, 1, [120]⟩) := by
    rintro ⟨-, hoff⟩
    rw [ht] at hoff
    exact absurd hoff (by decide)
  have hissue : issue (.allocTxn ⟨0, 1, [120]⟩) cl = some (.error (.allocTxn ⟨0, 1, [120]⟩), cl) := if_neg hfull
  have hbegin : begin ⟨0, 1, [120]⟩ cl = some (.error (.allocTxn ⟨0, 1, [120]⟩), cl) := by
    change (issue (.allocTxn ⟨0, 1, [120]⟩) >>= _) cl = _
    rw [bind_error hissue]
  have hunlink : LoggedNames.unlink operation 1 [120] 0 cl = some (.error (.allocTxn ⟨0, 1, [120]⟩), cl) := by
    rw [LoggedNames.unlink, bind_error hbegin]
  change (LoggedNames.unlink operation 1 [120] 0 >>= _) cl = _
  rw [bind_error hunlink]

def newServer : Bm 4096 4096 0 Unit := do
  let fo ← FileOperation.create 4096
  let root ← fo.allocInode 2 0
  require (root = 1)

def withLog (s : BlockManager 4096 4096 0) : BlockManager 4096 4096 logBlockCnt where
  blocks id := if id < 4096 then s.blocks id else List.replicate 4096 0
  maybeFailed := s.maybeFailed
  writeFailCnt := s.writeFailCnt
  length_blocks := by
    intro id
    split
    · exact s.length_blocks id
    · exact List.length_replicate

theorem freshLog_withLog (s : BlockManager 4096 4096 0) : FreshLog (withLog s) := by
  intro i hi
  unfold withLog
  simp only
  rw [if_neg (by omega)]

theorem exists_newServer : ∃ s, newServer (BlockManager.zeroed 4096 4096 0) = some (.ok (), s) ∧ EmptyRoot s := by
  have hrun : (newServer (BlockManager.zeroed 4096 4096 0)).map (fun out =>
      (out.1.toOption, operation.inodeManager.entry out.2 1, getSize (out.2.blocks 67))) =
      some (some (), 67, 0) := by
    decide +kernel
  obtain ⟨⟨r, s⟩, hs, hout⟩ := Option.map_eq_some_iff.mp hrun
  simp only [Prod.mk.injEq] at hout
  obtain ⟨hr, hentry, hsize⟩ := hout
  cases r with
  | error => cases hr
  | ok =>
    refine ⟨s, hs, ?_, ?_, ?_⟩
    · rw [hentry]
      decide
    · rw [hentry]
      decide
    · rw [hentry, hsize]

theorem idle_create {s : BlockManager 4096 4096 0} (h : EmptyRoot s) : Idle (create (withLog s) true) where
  root := h.congr fun _ hid => if_pos hid
  entries := rfl
  marks := by
    have hsuper : (create (withLog s) true).log 0 = List.replicate 4096 0 := freshLog_withLog s 0 (by decide)
    rw [hsuper, marks_replicate]
    rfl

end Missing

section Run

variable {bm : BlockManager 4096 cnt logBlockCnt} {cl : CommitLog cnt}

/-- Few transactions have been allocated since the last checkpoint, and few
records logged. -/
def Few (cl : CommitLog cnt) (_ : Request) : Prop := cl.maxTxnId + cl.logEntriesNum ≤ 937

instance (cl : CommitLog cnt) (q : Request) : Decidable (Few cl q) := inferInstanceAs (Decidable (_ ≤ _))

theorem room_create (hbm : FreshLog bm) : Room (create bm true) := by
  have hempty : Emptied (create bm true) := ⟨rfl, rfl, rfl, hbm 0 (by decide)⟩
  exact hempty.room

/-- In a run whose requests all come to a log that is not too full, no call of
the log lacks a block, and every entry is inside the superblock. -/
theorem serve_finds (fo : FileOperation) (hbm : FreshLog bm)
    (hreach : Reach (step fo) Few (create bm true) cl) {q : Request} (hq : Few cl q) (c : Call)
    (cl' : CommitLog cnt) : serve fo q cl ≠ some (.error c, cl') := by
  have hroom : Room cl := by
    refine hreach.invariant (room_create hbm) fun u q u' hu hq hstep => ?_
    unfold step at hstep
    split at hstep
    case h_1 a u'' hrun =>
      cases hstep
      obtain ⟨-, -, hroom⟩ := safe_serve hu hq fo q _ _ hrun
      exact hroom
    case h_2 => cases hstep
  intro hrun
  obtain ⟨a, ha, -⟩ := safe_serve hroom hq fo q _ _ hrun
  cases ha

def madeRun : List Request := [.mknode 1 1 [120] 6 7, .unlink 1 [121] 8]

theorem serve_finds_madeRun : ∃ s cl, newServer (BlockManager.zeroed 4096 4096 0) = some (.ok (), s) ∧
    Reach (step operation) Few (create (withLog s) true) cl ∧ cl.maxTxnId = 2 ∧ cl.logEntriesNum = 5 ∧
    ∀ c cl', serve operation (.unlink 1 [120] 9) cl ≠ some (.error c, cl') := by
  have hval : ((newServer (BlockManager.zeroed 4096 4096 0)).bind fun out =>
      (execOk (step operation) (fun cl q => decide (Few cl q)) (create (withLog out.2) true) madeRun).map fun cl =>
        (out.1.toOption, cl.maxTxnId, cl.logEntriesNum)) = some (some (), 2, 5) := by
    decide +kernel
  obtain ⟨⟨r, s⟩, hs, hval⟩ := Option.bind_eq_some_iff.mp hval
  obtain ⟨cl, hcl, hnums⟩ := Option.map_eq_some_iff.mp hval
  simp only [Prod.mk.injEq] at hnums
  obtain ⟨hr, htxns, hentries⟩ := hnums
  cases r with
  | error => cases hr
  | ok =>
    have hreach := reach_of_execOk (fun _ _ h => of_decide_eq_true h) hcl
    have hfew : Few cl (.unlink 1 [120] 9) := by
      unfold Few
      rw [htxns, hentries]
      decide
    exact ⟨s, cl, hs, hreach, htxns, hentries, serve_finds operation (freshLog_withLog s) hreach hfew⟩

/-- The 993rd request fails. -/
theorem not_serve_finds : ∃ s cl, newServer (BlockManager.zeroed 4096 4096 0) = some (.ok (), s) ∧
    FreshLog (withLog s) ∧
    exec (step operation) (create (withLog s) true) (List.replicate 992 missing) = some cl ∧
    ¬ ∀ c cl', serve operation missing cl ≠ some (.error c, cl') := by
  obtain ⟨s, hs, hroot⟩ := exists_newServer
  obtain ⟨cl, hexec, htxns⟩ := (idle_create hroot).exec 992 (Nat.le_of_eq (Nat.zero_add 992))
  refine ⟨s, cl, hs, freshLog_withLog s, hexec, fun hall => ?_⟩
  exact hall _ _ (serve_full htxns)

end Run

end Chfs.Distributed.LogRoom
