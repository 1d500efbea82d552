import Chfs.Distributed.InFlight
import Chfs.Distributed.LogRoom
import Mathlib.Algebra.BigOperators.Group.Finset.Piecewise

namespace Chfs.Distributed.LogRecords

open Lib.Effect Lib.Bytes Lib.Run Block.Manager Logging LogImage Redo InFlight
open LogRoom (txnInfo_entry txnInfo_set bitmapBytes_le)

variable {cnt : ℕ} {cl cl' : CommitLog cnt} {t : ℕ} {ops : List BlockOperation}

section Append

variable {data data' : List UInt8} {n : ℕ} {bs : List ℕ}

theorem findFreeLogBlocks_spec (hlen : data.length = 4096) (hfind : findFreeLogBlocks n data = some (bs, data')) :
    data'.length = 4096 ∧ bs.length = n ∧ (∀ b ∈ bs, 0 < b ∧ b < logBlockCnt ∧ marked data b = false) ∧
      (∀ c, marked data c = true → marked data' c = true) ∧ ∀ i, bitmapBytes ≤ i → data'[i]? = data[i]? := by
  induction n generalizing data bs with
  | zero =>
    cases hfind
    exact ⟨hlen, rfl, nofun, fun _ h => h, fun _ _ => rfl⟩
  | succ n ih =>
    rw [findFreeLogBlocks, Option.bind_eq_bind] at hfind
    obtain ⟨⟨b, data₁⟩, hb, hrest⟩ := Option.bind_eq_some_iff.mp hfind
    obtain ⟨⟨bs', data₂⟩, hbs, heq⟩ := Option.bind_eq_some_iff.mp hrest
    cases heq
    obtain ⟨hnone, -⟩ | ⟨c, hpos, hc, hclear, -, hsome⟩ := findFreeLogBlock_spec data
    · cases hnone.symm.trans hb
    · cases hsome.symm.trans hb
      have hin : b / 8 < data.length := by
        unfold logBlockCnt at hc
        omega
      have hkeep : ∀ x, marked data x = true → marked (mark data b) x = true := by
        intro x hx
        rw [marked_mark hin, hx, Bool.true_or]
      obtain ⟨hlen', hnum, hall, hmark, hbytes⟩ := ih (by rw [length_mark, hlen]) hbs
      refine ⟨hlen', congrArg (· + 1) hnum, List.forall_mem_cons.mpr ⟨⟨hpos, hc, hclear⟩, fun x hx => ?_⟩,
        fun x hx => hmark x (hkeep x hx), fun i hi => (hbytes i hi).trans (getElem?_mark hc hi)⟩
      obtain ⟨h0, h1, h2⟩ := hall x hx
      refine ⟨h0, h1, ?_⟩
      cases hold : marked data x with
      | false => rfl
      | true => exact absurd ((hkeep x hold).symm.trans h2) (by decide)

theorem marked_set {i b : ℕ} {x : UInt8} (hi : bitmapBytes ≤ i) (hb : b < logBlockCnt) :
    marked (data.set i x) b = marked data b := by
  unfold bitmapBytes at hi
  unfold logBlockCnt at hb
  rw [marked, marked, List.getD_eq_getElem?_getD, List.getElem?_set_ne (by omega), List.getD_eq_getElem?_getD]

theorem txnInfo_of_bytes (h : ∀ j < 3, data'[txnOffset t + j]? = data[txnOffset t + j]?) :
    txnInfo data' t = txnInfo data t := by
  unfold txnInfo
  simp only [List.getD_eq_getElem?_getD]
  have h0 := h 0 (by decide)
  rw [Nat.add_zero] at h0
  rw [h0, h 1 (by decide), h 2 (by decide)]

/-- What `append_log` has done to a transaction with a block: the log area is
empty if there was a checkpoint; otherwise the count of the transaction has
grown, and its block has changed at the new records only. -/
structure Outcome (cl : CommitLog cnt) (t n : ℕ) (cl' : CommitLog cnt) : Prop where
  enabled : cl'.isCheckpointEnabled = cl.isCheckpointEnabled
  due : Due cl n → cl'.maxTxnId = 0 ∧ cl'.logEntriesNum = 0 ∧ cl'.log 0 = List.replicate 4096 0
  txns : ¬ Due cl n → cl'.maxTxnId = cl.maxTxnId
  entries : ¬ Due cl n → cl'.logEntriesNum = cl.logEntriesNum + n
  count : ¬ Due cl n → (cl'.log 0)[txnOffset t + 2]? = some (UInt8.ofNat ((txnInfo (cl.log 0) t).2 + n))
  bytes : ¬ Due cl n → ∀ i, bitmapBytes ≤ i → i ≠ txnOffset t + 2 → (cl'.log 0)[i]? = (cl.log 0)[i]?
  marks : ¬ Due cl n → ∀ b < logBlockCnt, marked (cl.log 0) b = true → marked (cl'.log 0) b = true
  block : ¬ Due cl n → ∀ off k,
    ((txnInfo (cl.log 0) t).2 + n) * 10 ≤ off →
      slice (cl'.log (txnInfo (cl.log 0) t).1) off k = slice (cl.log (txnInfo (cl.log 0) t).1) off k

theorem appendLog_outcome (hpos : 0 < (txnInfo (cl.log 0) t).1) (hlt : (txnInfo (cl.log 0) t).1 < logBlockCnt)
    (hrun : appendLog t ops cl = some (.ok (), cl')) : Outcome cl t ops.length cl' := by
  have hstart := hrun
  unfold appendLog at hstart
  obtain ⟨out, cl₁, halloc, hstart₁⟩ := bind_eq_ok hstart
  have halloc₁ := halloc
  unfold allocLog at halloc₁
  rw [bind_ok (readLog_apply (by decide))] at halloc₁
  obtain ⟨⟨bs, data⟩, cl₂, hfound, hrest⟩ := bind_eq_ok halloc₁
  obtain ⟨_, cl₃, hrequire, -⟩ := bind_eq_ok hrest
  have hoff := (of_require hrequire).1
  have hfind := (ofOption_eq_ok hfound).1
  obtain ⟨hlen, hnum, hbs, hmarks, hkeep⟩ := findFreeLogBlocks_spec (length_log cl 0) hfind
  have hinfo : txnInfo data t = txnInfo (cl.log 0) t :=
    txnInfo_of_bytes fun j _ => hkeep _ (by rw [txnOffset_eq]; unfold bitmapBytes; omega)
  cases halloc.symm.trans (allocLog_apply hfind hlen hoff)
  obtain ⟨buffer, cl₄, -, hstart₂⟩ := bind_eq_ok hstart₁
  obtain ⟨buffer', cl₅, hrecords, -⟩ := bind_eq_ok hstart₂
  have hcount : (txnInfo data t).2 < 256 := UInt8.toNat_lt _
  have hroom := room_of_appendRecords (by omega) hrecords
  rw [List.length_zip, hnum, Nat.min_self] at hroom
  have hspec := appendLog_spec hfind hlen (fun b hb => (hbs b hb).2.1) hoff (by rw [hinfo]; exact hlt) hroom
  rw [hinfo, hrun] at hspec
  obtain ⟨txnBuffer, cl₆, happ, hspec⟩ := hspec
  have hzero : cl₆.log 0 = (cl.counted t ops.length hlen).log 0 := by
    apply happ.others
    intro hmem
    obtain ⟨o, ho, heq⟩ := List.mem_map.mp hmem
    have := (hbs o.2 (List.of_mem_zip ho).2).1
    omega
  have hsuper : (cl₆.setLog (txnInfo (cl.log 0) t).1 txnBuffer happ.length).log 0 =
      data.set (txnOffset t + 2) (UInt8.ofNat ((txnInfo (cl.log 0) t).2 + ops.length)) := by
    rw [log_setLog, if_neg (by omega), hzero, log_counted, if_pos rfl, hinfo]
  by_cases hdue : Due cl ops.length
  · rw [decide_eq_true hdue.1, hdue.2, Bool.and_self, if_pos rfl] at hspec
    obtain ⟨cl₇, hcheck, hframe, htxns, hentries, hlog⟩ :=
      checkpoint_apply (cl₆.setLog (txnInfo (cl.log 0) t).1 txnBuffer happ.length)
    cases hspec.trans hcheck
    refine ⟨?_, fun _ => ⟨htxns, hentries, hlog 0 (by decide)⟩, ?_, ?_, ?_, ?_, ?_, ?_⟩
    · exact hframe.enabled.trans happ.frame.enabled
    all_goals exact fun hnot => absurd hdue hnot
  · have hnot : ¬ (decide (kMaxLogSize ≤ cl.logEntriesNum + ops.length) && cl.isCheckpointEnabled) = true := by
      rw [Bool.and_eq_true, decide_eq_true_iff]
      exact hdue
    rw [if_neg hnot] at hspec
    cases hspec
    constructor
    case enabled => exact happ.frame.enabled
    case due => exact fun h => absurd h hdue
    case txns => exact fun _ => happ.txns
    case entries => exact fun _ => happ.entries
    case count =>
      intro _
      rw [hsuper, List.getElem?_set_self (by rw [hlen]; exact hoff)]
    case bytes =>
      intro _ i hi hne
      rw [hsuper, List.getElem?_set_ne (Ne.symm hne), hkeep i hi]
    case marks =>
      intro _ b hb hmark
      rw [hsuper, marked_set (by rw [txnOffset_eq]; unfold bitmapBytes; omega) hb]
      exact hmarks b hmark
    case block =>
      intro _ off k hle
      rw [log_setLog, if_pos rfl, happ.rest off k (Or.inr ?_), log_counted, if_neg (Nat.ne_of_gt hpos)]
      rw [List.length_zip, hnum, Nat.min_self]
      exact hle

theorem Outcome.txnInfo (h : Outcome cl t n cl') (hnot : ¬ Due cl n) : txnInfo (cl'.log 0) t =
    ((txnInfo (cl.log 0) t).1, ((txnInfo (cl.log 0) t).2 + n) % 256) := by
  have hcount := h.count hnot
  have hle := bitmapBytes_le t
  have hfirst := h.bytes hnot _ (hle 0) (by omega)
  rw [Nat.add_zero] at hfirst
  unfold Logging.txnInfo at hcount ⊢
  simp only [List.getD_eq_getElem?_getD] at hcount ⊢
  rw [hfirst, h.bytes hnot _ (hle 1) (by omega), hcount, Option.getD_some,
    UInt8.toNat_ofNat']

theorem Outcome.txnInfo_of_ne (h : Outcome cl t n cl') (hnot : ¬ Due cl n) {u : ℕ} (hu : u ≠ t) :
    Logging.txnInfo (cl'.log 0) u = Logging.txnInfo (cl.log 0) u := by
  apply txnInfo_of_bytes
  intro j hj
  apply h.bytes hnot _ (bitmapBytes_le u j)
  rw [txnOffset_eq, txnOffset_eq]
  omega

theorem length_of_findFree {b : ℕ} (hfind : findFreeLogBlock (cl.log 0) = some (b, data)) : data.length = 4096 := by
  obtain ⟨hnone, -⟩ | ⟨c, -, -, -, -, hsome⟩ := findFreeLogBlock_spec (cl.log 0)
  · cases hnone.symm.trans hfind
  · cases hsome.symm.trans hfind
    rw [length_mark, length_log]

/-- What `alloc_txn` has done: the next entry names a block that was free, and
this block holds the operation. -/
structure Began (cl : CommitLog cnt) (operation : ServerOperation) (b : ℕ) (cl' : CommitLog cnt) : Prop where
  offset : txnOffset cl.maxTxnId + 2 < 4096
  pos : 0 < b
  lt : b < logBlockCnt
  enabled : cl'.isCheckpointEnabled = cl.isCheckpointEnabled
  txns : cl'.maxTxnId = cl.maxTxnId + 1
  entries : cl'.logEntriesNum = cl.logEntriesNum
  entry : txnInfo (cl'.log 0) cl.maxTxnId = (b, 0)
  others : ∀ u, u ≠ cl.maxTxnId → txnInfo (cl'.log 0) u = txnInfo (cl.log 0) u
  block : cl'.log b = operationBlock operation

theorem began_of_find {b : ℕ} {operation : ServerOperation} (hfind : findFreeLogBlock (cl.log 0) = some (b, data))
    (hoff : txnOffset cl.maxTxnId + 2 < 4096) (hname : operation.name.length ≤ 90) :
    ∃ cl', allocTxn operation cl = some (.ok cl.maxTxnId, cl') ∧ Began cl operation b cl' := by
  obtain ⟨hnone, -⟩ | ⟨c, hpos, hc, -, -, hsome⟩ := findFreeLogBlock_spec (cl.log 0)
  · cases hnone.symm.trans hfind
  · cases hsome.symm.trans hfind
    have hlen : (mark (cl.log 0) b).length = 4096 := by rw [length_mark, length_log]
    refine ⟨_, allocTxn_apply hfind hc hlen hoff hname, ?_⟩
    have hsuper : ((({ cl with maxTxnId := cl.maxTxnId + 1 } : CommitLog cnt).setLog 0 _
        (length_entry hlen hoff b)).setLog b _ (length_operationBlock hname)).log 0 =
        splice (mark (cl.log 0) b) (txnOffset cl.maxTxnId) (entryBytes b) := by
      rw [log_setLog, if_neg (by omega), log_setLog, if_pos rfl]
    refine ⟨hoff, hpos, hc, rfl, rfl, rfl, ?_, ?_, ?_⟩
    · rw [hsuper, txnInfo_entry hlen hoff hc]
    · intro u hu
      rw [hsuper]
      apply txnInfo_of_bytes
      intro j hj
      have hthree : (entryBytes b).length = 3 := rfl
      have hout : txnOffset u + j < txnOffset cl.maxTxnId ∨ txnOffset cl.maxTxnId + 3 ≤ txnOffset u + j := by
        rw [txnOffset_eq, txnOffset_eq]
        omega
      rw [getElem?_splice (by omega), if_neg (by omega), getElem?_mark hc (bitmapBytes_le u j)]
    · rw [log_setLog, if_pos rfl]

theorem began_of_allocTxn {operation : ServerOperation} {id : ℕ}
    (hrun : allocTxn operation cl = some (.ok id, cl')) : ∃ b, Began cl operation b cl' := by
  have hstart := hrun
  unfold allocTxn at hstart
  rw [bind_ok (readLog_apply (by decide))] at hstart
  obtain ⟨⟨b, data⟩, cl₁, hfind, hstart₁⟩ := bind_eq_ok hstart
  obtain ⟨hfound, rfl⟩ := ofOption_eq_ok hfind
  obtain ⟨m, cl₂, htxn, hstart₂⟩ := bind_eq_ok hstart₁
  cases htxn
  obtain ⟨_, cl₃, -, hstart₃⟩ := bind_eq_ok hstart₂
  obtain ⟨_, cl₄, hoff, -⟩ := bind_eq_ok hstart₃
  have hin := (of_require hoff).1
  by_cases hname : operation.name.length ≤ 90
  · obtain ⟨cl₅, hrun₅, hbegan⟩ := began_of_find hfound hin hname
    cases hrun.symm.trans hrun₅
    exact ⟨b, hbegan⟩
  · cases hrun.symm.trans (allocTxn_long hfound (length_of_findFree hfound) hin hname)

end Append

section Count

def recordCount (buffer : List UInt8) (t : ℕ) : ℕ := if (txnInfo buffer t).1 = 0 then 0 else (txnInfo buffer t).2

/-- The number of records of the entries in the superblock. -/
def diskRecords (buffer : List UInt8) : ℕ := ∑ t ∈ Finset.range 992, recordCount buffer t

def getLogEntryNum : Cm cnt ℕ := member CommitLog.logEntriesNum

/-- The calls, and a restart of the server with `recover`. -/
inductive LogAct
  | alloc (operation : ServerOperation)
  | append (txnId : ℕ) (ops : List BlockOperation)
  | commit (txnId : ℕ)
  | checkpoint
  | restart (isCheckpointEnabled : Bool)

def ended {α : Type} : Option (Except ErrorType α × CommitLog cnt) → Option (CommitLog cnt)
  | some (.ok _, cl) => some cl
  | _ => none

def logStep (cl : CommitLog cnt) : LogAct → Option (CommitLog cnt)
  | .alloc operation => ended (allocTxn operation cl)
  | .append txnId ops => ended (appendLog txnId ops cl)
  | .commit txnId => ended (commitLog txnId cl)
  | .checkpoint => ended (checkpoint cl)
  | .restart isCheckpointEnabled => ended (recover (create cl.bm isCheckpointEnabled))

/-- A record is appended to a transaction with an entry, whose count does not run
over unless the log is emptied; the server is restarted without records in the
log. -/
def Counted (cl : CommitLog cnt) : LogAct → Prop
  | .append txnId ops => txnId < cl.maxTxnId ∧
      ((txnInfo (cl.log 0) txnId).2 + ops.length ≤ 255 ∨ Due cl ops.length)
  | .restart _ => cl.logEntriesNum = 0
  | _ => True

/-- The entries in use come first, and the counter is the number of their
records. -/
structure Counts (cl : CommitLog cnt) : Prop where
  slots : cl.maxTxnId ≤ 992
  block : ∀ t < cl.maxTxnId, 0 < (txnInfo (cl.log 0) t).1 ∧ (txnInfo (cl.log 0) t).1 < logBlockCnt
  rest : ∀ t, cl.maxTxnId ≤ t → t < 992 → (txnInfo (cl.log 0) t).1 = 0
  sum : diskRecords (cl.log 0) = cl.logEntriesNum

theorem ended_eq_some {α : Type} {out : Option (Except ErrorType α × CommitLog cnt)} (h : ended out = some cl) :
    ∃ a, out = some (.ok a, cl) := by
  unfold ended at h
  split at h
  case h_1 a cl' =>
    cases h
    exact ⟨a, rfl⟩
  case h_2 => cases h

theorem counts_empty (htxns : cl.maxTxnId = 0) (hentries : cl.logEntriesNum = 0)
    (hlog : cl.log 0 = List.replicate 4096 0) : Counts cl where
  slots := by omega
  block t ht := by omega
  rest t _ _ := by rw [hlog, txnInfo_replicate]
  sum := by
    rw [hlog, hentries]
    apply Finset.sum_eq_zero
    intro t _
    rw [recordCount, txnInfo_replicate, if_pos rfl]

theorem diskRecords_add {data data' : List UInt8} {n : ℕ} (ht : t < 992)
    (h : ∀ u < 992, recordCount data' u = recordCount data u + if u = t then n else 0) :
    diskRecords data' = diskRecords data + n := by
  unfold diskRecords
  rw [Finset.sum_congr rfl fun u hu => h u (Finset.mem_range.mp hu), Finset.sum_add_distrib, Finset.sum_ite_eq',
    if_pos (Finset.mem_range.mpr ht)]

theorem Counts.append (h : Counts cl) (hcounted : Counted cl (.append t ops))
    (hrun : appendLog t ops cl = some (.ok (), cl')) : Counts cl' := by
  obtain ⟨ht, hcount⟩ := hcounted
  obtain ⟨hpos, hlt⟩ := h.block t ht
  have hslots := h.slots
  have hout := appendLog_outcome hpos hlt hrun
  by_cases hdue : Due cl ops.length
  · obtain ⟨htxns, hentries, hlog⟩ := hout.due hdue
    exact counts_empty htxns hentries hlog
  · have hfew := hcount.resolve_right hdue
    have hbytes := hout.bytes hdue
    have hinfo : ∀ u, txnInfo (cl'.log 0) u =
        ((txnInfo (cl.log 0) u).1, (txnInfo (cl.log 0) u).2 + if u = t then ops.length else 0) := by
      intro u
      by_cases hu : u = t
      · rw [if_pos hu, hu, hout.txnInfo hdue, Nat.mod_eq_of_lt (by omega)]
      · rw [if_neg hu, Nat.add_zero]
        exact hout.txnInfo_of_ne hdue hu
    have hblock : ∀ u, (txnInfo (cl'.log 0) u).1 = (txnInfo (cl.log 0) u).1 := fun u => by rw [hinfo]
    constructor
    case slots => exact (hout.txns hdue).symm ▸ h.slots
    case block =>
      intro u hu
      rw [hblock]
      exact h.block u (hout.txns hdue ▸ hu)
    case rest =>
      intro u hu hlt'
      rw [hblock]
      exact h.rest u (hout.txns hdue ▸ hu) hlt'
    case sum =>
      rw [hout.entries hdue, ← h.sum]
      apply diskRecords_add (by omega : t < 992)
      intro u hu
      rw [recordCount, recordCount, hinfo]
      simp only
      split
      case isTrue hz =>
        rw [if_neg]
        rintro rfl
        omega
      case isFalse => rfl

theorem Counts.alloc (h : Counts cl) {operation : ServerOperation} {id : ℕ}
    (hrun : allocTxn operation cl = some (.ok id, cl')) : Counts cl' := by
  obtain ⟨b, hb⟩ := began_of_allocTxn hrun
  have hoff := hb.offset
  rw [txnOffset_eq] at hoff
  constructor
  case slots =>
    rw [hb.txns]
    omega
  case block =>
    intro u hu
    rw [hb.txns] at hu
    obtain hlt | rfl := Nat.lt_succ_iff_lt_or_eq.mp hu
    · rw [hb.others u (Nat.ne_of_lt hlt)]
      exact h.block u hlt
    · rw [hb.entry]
      exact ⟨hb.pos, hb.lt⟩
  case rest =>
    intro u hu hlt
    rw [hb.txns] at hu
    rw [hb.others u (by omega)]
    exact h.rest u (by omega) hlt
  case sum =>
    rw [hb.entries, ← h.sum]
    apply Finset.sum_congr rfl
    intro u hu
    by_cases heq : u = cl.maxTxnId
    · -- a new entry has no records, and the slot had none
      rw [heq, recordCount, recordCount, hb.entry, h.rest _ (Nat.le_refl _) (by omega), if_pos rfl]
      exact ite_self 0
    · rw [recordCount, recordCount, hb.others u heq]

theorem Counts.commit (h : Counts cl) (hrun : commitLog t cl = some (.ok (), cl')) : Counts cl' := by
  have hstart := hrun
  unfold commitLog at hstart
  obtain ⟨buffer, cl₁, -, hstart₁⟩ := bind_eq_ok hstart
  obtain ⟨_, cl₂, hoff, -⟩ := bind_eq_ok hstart₁
  cases hrun.symm.trans (commitLog_apply (of_require hoff).1)
  have hinfo : ∀ u, txnInfo ((cl.setLog 0 _ (length_countByte (length_log cl 0) (txnOffset t + 3) 1)).log 0) u =
      txnInfo (cl.log 0) u := by
    intro u
    rw [log_setLog, if_pos rfl]
    apply txnInfo_of_bytes
    intro j hj
    rw [List.getElem?_set_ne]
    rw [txnOffset_eq, txnOffset_eq]
    omega
  constructor
  case slots => exact h.slots
  case block =>
    intro u hu
    rw [hinfo]
    exact h.block u hu
  case rest =>
    intro u hu hlt
    rw [hinfo]
    exact h.rest u hu hlt
  case sum =>
    refine Eq.trans ?_ h.sum
    apply Finset.sum_congr rfl
    intro u _
    rw [recordCount, recordCount, hinfo]

theorem recoverFrom_idle {buffer : List UInt8} (hall : ∀ u, (txnInfo buffer u).1 ≠ 0 →
      (txnInfo buffer u).1 < logBlockCnt ∧ (txnInfo buffer u).2 = 0) {k m : ℕ} {ws : List (ℕ × Write)}
    (hrun : recoverFrom buffer k m cl = some (.ok ws, cl')) : cl'.bm = cl.bm ∧
      cl'.logEntriesNum = cl.logEntriesNum ∧ m ≤ cl'.maxTxnId ∧ cl'.maxTxnId < 992 ∧
      (txnInfo buffer cl'.maxTxnId).1 = 0 ∧ ∀ u, m ≤ u → u < cl'.maxTxnId → (txnInfo buffer u).1 ≠ 0 := by
  induction k generalizing m cl ws with
  | zero => cases hrun
  | succ k ih =>
    rw [recoverFrom] at hrun
    obtain ⟨_, cl₁, hoff, hrun₁⟩ := bind_eq_ok hrun
    obtain ⟨hin, rfl⟩ := of_require hoff
    simp only at hrun₁
    split at hrun₁
    case isTrue hzero =>
      cases hrun₁
      rw [txnOffset_eq] at hin
      exact ⟨rfl, rfl, Nat.le_refl m, by simp only; omega, hzero, fun u hle hlt => by simp only at hlt; omega⟩
    case isFalse hne =>
      obtain ⟨hlt, hcount⟩ := hall m hne
      have hbyte : buffer.getD (txnOffset m + 2) 0 = 0 := UInt8.toNat_inj.mp hcount
      rw [if_pos hbyte] at hrun₁
      obtain ⟨operation, cl₂, hget, hrun₂⟩ := bind_eq_ok hrun₁
      unfold getOperation at hget
      rw [bind_ok (readLog_apply hlt)] at hget
      obtain ⟨_, cl₃, hname, hget₁⟩ := bind_eq_ok hget
      obtain ⟨-, rfl⟩ := of_require hname
      cases hget₁
      rw [bind_ok (assign_apply _ _)] at hrun₂
      obtain ⟨hbm, hentries, hle, hfew, hzero, hblocks⟩ := ih hrun₂
      refine ⟨hbm, hentries, by omega, hfew, hzero, fun u hu hlt' => ?_⟩
      obtain rfl | hgt := Nat.eq_or_lt_of_le hu
      · exact hne
      · exact hblocks u hgt hlt'

theorem Counts.restart (h : Counts cl) (hnone : cl.logEntriesNum = 0) {enabled : Bool} {ws : List (ℕ × Write)}
    (hrun : recover (create cl.bm enabled) = some (.ok ws, cl')) : Counts cl' := by
  have hzero : ∀ u < 992, recordCount (cl.log 0) u = 0 := by
    intro u hu
    exact Finset.sum_eq_zero_iff.mp (h.sum.trans hnone) u (Finset.mem_range.mpr hu)
  unfold recover at hrun
  rw [bind_ok (assign_apply _ _), bind_ok (readLog_apply (by decide))] at hrun
  have hidle : ∀ u, (txnInfo (cl.log 0) u).1 ≠ 0 →
      (txnInfo (cl.log 0) u).1 < logBlockCnt ∧ (txnInfo (cl.log 0) u).2 = 0 := by
    intro u hne
    obtain hlt | hge := Nat.lt_or_ge u cl.maxTxnId
    · have hcount := hzero u (Nat.lt_of_lt_of_le hlt h.slots)
      rw [recordCount, if_neg hne] at hcount
      exact ⟨(h.block u hlt).2, hcount⟩
    · obtain hlt | hout := Nat.lt_or_ge u 992
      · exact absurd (h.rest u hge hlt) hne
      · -- behind the superblock the entries read as zero
        refine absurd ?_ hne
        have hlen := length_log cl 0
        have hoff : 4096 ≤ txnOffset u := by
          rw [txnOffset_eq]
          omega
        rw [txnInfo, List.getD_eq_getElem?_getD, List.getD_eq_getElem?_getD, List.getElem?_eq_none (by omega),
          List.getElem?_eq_none (by omega)]
        rfl
  obtain ⟨hbm, hentries, -, hfew, hfirst, hblocks⟩ := recoverFrom_idle hidle hrun
  have hlog : cl'.log 0 = cl.log 0 := congrArg (fun bm => bm.blocks (0 + cnt)) hbm
  have hmax : cl'.maxTxnId = cl.maxTxnId := by
    obtain hlt | heq | hgt := Nat.lt_trichotomy cl'.maxTxnId cl.maxTxnId
    · have hpos := (h.block _ hlt).1
      omega
    · exact heq
    · exact absurd (h.rest _ (Nat.le_refl _) (by omega)) (hblocks _ (Nat.zero_le _) hgt)
  constructor
  case slots => omega
  case block =>
    rw [hmax, hlog]
    exact h.block
  case rest =>
    rw [hmax, hlog]
    exact h.rest
  case sum =>
    rw [hlog, h.sum, hentries, hnone]
    rfl

theorem Counts.step (h : Counts cl) {act : LogAct} (hcounted : Counted cl act) (hstep : logStep cl act = some cl') :
    Counts cl' := by
  cases act with
  | alloc operation =>
    obtain ⟨id, hrun⟩ := ended_eq_some hstep
    exact h.alloc hrun
  | append t ops =>
    obtain ⟨_, hrun⟩ := ended_eq_some hstep
    exact h.append hcounted hrun
  | commit t =>
    obtain ⟨_, hrun⟩ := ended_eq_some hstep
    exact h.commit hrun
  | checkpoint =>
    obtain ⟨cl₁, hrun, -, htxns, hentries, hlog⟩ := checkpoint_apply cl
    rw [logStep, hrun] at hstep
    cases hstep
    exact counts_empty htxns hentries (hlog 0 (by decide))
  | restart enabled =>
    obtain ⟨ws, hrun⟩ := ended_eq_some hstep
    exact h.restart hcounted hrun

theorem getLogEntryNum_eq {bm : BlockManager 4096 cnt logBlockCnt} {enabled : Bool} (hbm : FreshLog bm)
    (hreach : Reach logStep Counted (create bm enabled) cl) :
    getLogEntryNum cl = some (.ok (diskRecords (cl.log 0)), cl) := by
  have hcounts : Counts cl := by
    refine hreach.invariant (I := Counts) ?_ fun _ _ _ h hcounted hstep => h.step hcounted hstep
    exact counts_empty rfl rfl (hbm 0 (by decide))
  rw [hcounts.sum]
  rfl

theorem exists_recorded : ∃ cl, exec logStep (create (BlockManager.zeroed 4096 16 logBlockCnt) true)
      [.alloc anOperation, .append 0 [zeroOp]] = some cl ∧
    Reach logStep Counted (create (BlockManager.zeroed 4096 16 logBlockCnt) true) cl ∧
    Holds cl (after oneUncommitted) ∧ cl.bm.maybeFailed = false ∧ cl.logEntriesNum = 1 := by
  have haccepted := accepted_oneCommitted
  obtain ⟨cl₁, halloc, hholds₁, hframe₁, hentries₁⟩ :=
    holds_allocTxn (holds_create true (freshLog_zeroed 16)) haccepted.1
  have hnone : cl₁.logEntriesNum = 0 := hentries₁
  obtain ⟨cl₂, happend, hholds₂, hframe₂, hentries₂⟩ := holds_appendLog hholds₁ haccepted.2.1
    (Or.inr (by rw [hnone]; decide))
  have hstep₁ : logStep (create (BlockManager.zeroed 4096 16 logBlockCnt) true) (.alloc anOperation) = some cl₁ := by
    rw [logStep, halloc]
    rfl
  have hstep₂ : logStep cl₁ (.append 0 [zeroOp]) = some cl₂ := by
    rw [logStep, happend]
    rfl
  have hcounted : Counted cl₁ (.append 0 [zeroOp]) := by
    rw [Counted, hholds₁.txns, hholds₁.txnInfo (rfl : _ = some (⟨anOperation, 1, [], false⟩ : Tx))]
    exact ⟨by decide, Or.inl (by decide)⟩
  refine ⟨cl₂, ?_, ?_, hholds₂, hframe₂.failed.trans hframe₁.failed, ?_⟩
  · rw [exec, hstep₁, Option.bind_some, exec, hstep₂, Option.bind_some, exec]
  · exact (Reach.refl.tail trivial hstep₁).tail hcounted hstep₂
  · rw [hentries₂, hnone]
    rfl

theorem getLogEntryNum_recorded : ∃ cl, exec logStep (create (BlockManager.zeroed 4096 16 logBlockCnt) true)
      [.alloc anOperation, .append 0 [zeroOp]] = some cl ∧ cl.logEntriesNum = 1 ∧
    getLogEntryNum cl = some (.ok (diskRecords (cl.log 0)), cl) := by
  obtain ⟨cl, hexec, hreach, -, -, hone⟩ := exists_recorded
  exact ⟨cl, hexec, hone, getLogEntryNum_eq (freshLog_zeroed 16) hreach⟩

theorem onBm_entries {α : Type} {x : Bm 4096 cnt logBlockCnt α} {r : Except ErrorType α}
    (hrun : onBm x cl = some (r, cl')) : cl'.logEntriesNum = cl.logEntriesNum := by
  obtain ⟨bm, -, rfl⟩ := onPart_eq_some.mp hrun
  rfl

theorem recoverRecords_entries {buffer : List UInt8} {k i : ℕ} {ws : List Write}
    (hrun : recoverRecords buffer k i cl = some (.ok ws, cl')) : cl'.logEntriesNum = cl.logEntriesNum := by
  induction k generalizing i cl ws with
  | zero =>
    cases hrun
    rfl
  | succ k ih =>
    rw [recoverRecords] at hrun
    obtain ⟨_, cl₁, hroom, hrun₁⟩ := bind_eq_ok hrun
    obtain ⟨-, rfl⟩ := of_require hroom
    obtain ⟨state, cl₂, hread, hrun₂⟩ := bind_eq_ok hrun₁
    obtain ⟨_, cl₃, hwrite, hrun₃⟩ := bind_eq_ok hrun₂
    obtain ⟨⟨r, cl₄⟩, hwrite₁, heq⟩ := Option.map_eq_some_iff.mp hwrite
    cases heq
    obtain ⟨rest, cl₅, hrest, hend⟩ := bind_eq_ok hrun₃
    cases hend
    rw [ih hrest, onBm_entries hwrite₁, onBm_entries hread]

theorem recoverFrom_entries {buffer : List UInt8} {k m : ℕ} {ws : List (ℕ × Write)}
    (hrun : recoverFrom buffer k m cl = some (.ok ws, cl')) : cl'.logEntriesNum = cl.logEntriesNum := by
  induction k generalizing m cl ws with
  | zero => cases hrun
  | succ k ih =>
    rw [recoverFrom] at hrun
    obtain ⟨_, cl₁, hoff, hrun₁⟩ := bind_eq_ok hrun
    obtain ⟨-, rfl⟩ := of_require hoff
    simp only at hrun₁
    split at hrun₁
    case isTrue =>
      cases hrun₁
      rfl
    case isFalse =>
      split at hrun₁
      case isTrue =>
        obtain ⟨operation, cl₂, hget, hrun₂⟩ := bind_eq_ok hrun₁
        obtain ⟨data, cl₃, hread, hget₁⟩ := bind_eq_ok hget
        obtain ⟨_, cl₄, hname, hget₂⟩ := bind_eq_ok hget₁
        obtain ⟨-, rfl⟩ := of_require hname
        cases hget₂
        have hsame := onBm_entries hread
        exact (ih hrun₂).trans hsame
      case isFalse =>
        obtain ⟨writes, cl₂, htx, hrun₂⟩ := bind_eq_ok hrun₁
        obtain ⟨rest, cl₃, hrest, hend⟩ := bind_eq_ok hrun₂
        cases hend
        obtain ⟨data, cl₄, hread, htx₁⟩ := bind_eq_ok htx
        rw [ih hrest, recoverRecords_entries htx₁, onBm_entries hread]

/-- The server is restarted while the log has a record. -/
theorem not_getLogEntryNum_restarted : ∃ cl, exec logStep (create (BlockManager.zeroed 4096 16 logBlockCnt) true)
      [.alloc anOperation, .append 0 [zeroOp], .restart true] = some cl ∧
    getLogEntryNum cl = some (.ok 0, cl) ∧ diskRecords (cl.log 0) = 1 := by
  obtain ⟨cl, hexec, hreach, hholds, hworks, hone⟩ := exists_recorded
  have hcounts : Counts cl := hreach.invariant (I := Counts) (counts_empty rfl rfl rfl)
    fun _ _ _ h hcounted hstep => h.step hcounted hstep
  obtain ⟨cl', hrun, hblocks⟩ := recover_spec hholds (by decide) hworks true
  have hentries : cl'.logEntriesNum = 0 := by
    have hrun₁ := hrun
    unfold recover at hrun₁
    rw [bind_ok (assign_apply _ _), bind_ok (readLog_apply (by decide))] at hrun₁
    exact recoverFrom_entries hrun₁
  have hlog : cl'.log 0 = cl.log 0 := congrFun hblocks 16
  refine ⟨cl', ?_, ?_, ?_⟩
  · obtain ⟨cl₁, h₁, hrest⟩ := Option.bind_eq_some_iff.mp hexec
    obtain ⟨cl₂, h₂, hend⟩ := Option.bind_eq_some_iff.mp hrest
    cases hend
    rw [exec, h₁, Option.bind_some, exec, h₂, Option.bind_some, exec, logStep, hrun]
    rfl
  · rw [getLogEntryNum, member_apply, hentries]
  · rw [hlog, hcounts.sum, hone]

end Count

section Operation

variable {operation : ServerOperation} {b : ℕ}

def appendAll (t : ℕ) : List (List BlockOperation) → Cm cnt Unit
  | [] => pure ()
  | ops :: opss => do
    appendLog t ops
    appendAll t opss

/-- The transaction is allocated without an access behind its block, and after
the appends its operation is read back without one. -/
def ReadsBack (cl : CommitLog cnt) (operation : ServerOperation) (opss : List (List BlockOperation)) : Prop :=
  ∃ id cl₁, allocTxn operation cl = some (.ok id, cl₁) ∧
    ∀ cl₂, appendAll id opss cl₁ = some (.ok (), cl₂) →
      getOperation (txnInfo (cl₁.log 0) id).1 cl₂ = some (.ok operation, cl₂)

/-- Every append puts its records in front of the operation and is not followed
by a checkpoint. The transaction has `k` records according to its entry, the
log has `entries`. -/
def Below (isCheckpointEnabled : Bool) : ℕ → ℕ → List (List BlockOperation) → Prop
  | _, _, [] => True
  | k, entries, ops :: opss => (k + ops.length) * bytesPerLogEntry ≤ operationOffset ∧
      ¬ (kMaxLogSize ≤ entries + ops.length ∧ isCheckpointEnabled = true) ∧
      Below isCheckpointEnabled ((k + ops.length) % 256) (entries + ops.length) opss

theorem drop_operationBlock (hname : operation.name.length ≤ 90) :
    (operationBlock operation).drop operationOffset =
      operation.type :: (leBytes 8 operation.parent.toNat ++ (operation.name ++ 0 ::
        List.replicate (90 - operation.name.length) 0)) := by
  have hfront : (List.replicate 4096 (0 : UInt8)).take operationOffset = List.replicate operationOffset 0 := by
    rw [List.take_replicate]
    rfl
  rw [operationBlock, splice, hfront, List.append_assoc,
    List.drop_append_of_le_length (Nat.le_of_eq List.length_replicate.symm), List.drop_eq_nil_of_le
    (Nat.le_of_eq List.length_replicate), List.nil_append, List.drop_replicate, length_operationBytes]
  rw [operationBytes, List.cons_append, List.append_assoc, List.append_assoc, List.singleton_append]
  have hrest : 4096 - (operationOffset + (operation.name.length + 10)) = 90 - operation.name.length := by
    unfold operationOffset
    omega
  rw [hrest]

theorem getOperation_of_slice (hb : b < logBlockCnt) (hname : operation.name.length ≤ 90)
    (hnul : 0 ∉ operation.name)
    (hslice : slice (cl.log b) operationOffset 100 = slice (operationBlock operation) operationOffset 100) :
    getOperation b cl = some (.ok operation, cl) := by
  have hall : ∀ l : List UInt8, l.length = 4096 → slice l operationOffset 100 = l.drop operationOffset := by
    intro l hl
    rw [slice, List.take_of_length_le]
    rw [List.length_drop, hl]
    decide
  rw [hall _ (length_log cl b), hall _ (length_operationBlock hname), drop_operationBlock hname] at hslice
  have hrest : (cl.log b).drop (operationOffset + 9) =
      operation.name ++ 0 :: List.replicate (90 - operation.name.length) 0 := by
    rw [← List.drop_drop, hslice, List.drop_succ_cons,
      List.drop_append_of_le_length (Nat.le_of_eq (length_leBytes _ _).symm),
      List.drop_eq_nil_of_le (Nat.le_of_eq (length_leBytes _ _)), List.nil_append]
  have hparent : getField (cl.log b) (operationOffset + 1) 8 = operation.parent.toNat := by
    rw [getField, slice, ← List.drop_drop, hslice, List.drop_succ_cons, List.drop_zero,
      List.take_append_of_le_length (Nat.le_of_eq (length_leBytes _ _).symm),
      List.take_of_length_le (Nat.le_of_eq (length_leBytes _ _))]
    exact leVal_leBytes operation.parent.toNat_lt
  have htype : (cl.log b).getD operationOffset 0 = operation.type := by
    rw [List.getD_eq_getElem?_getD, ← List.head?_drop, hslice]
    rfl
  have htake : (operation.name ++ 0 :: List.replicate (90 - operation.name.length) 0).takeWhile (· ≠ 0) =
      operation.name := by
    rw [List.takeWhile_append_of_pos, List.takeWhile_cons_of_neg (by decide), List.append_nil]
    intro x hx
    rw [decide_eq_true_iff]
    rintro rfl
    exact hnul hx
  rw [getOperation, bind_ok (readLog_apply hb), hrest,
    require_of (List.mem_append_right _ List.mem_cons_self), bind_ok (pure_apply ()), pure_apply, htype, hparent,
    htake, UInt64.ofNat_toNat]

theorem appendAll_keeps {k : ℕ} {opss : List (List BlockOperation)} (hpos : 0 < b) (hb : b < logBlockCnt)
    (hinfo : txnInfo (cl.log 0) t = (b, k)) (hbelow : Below cl.isCheckpointEnabled k cl.logEntriesNum opss)
    (hrun : appendAll t opss cl = some (.ok (), cl')) :
    slice (cl'.log b) operationOffset 100 = slice (cl.log b) operationOffset 100 := by
  induction opss generalizing cl k with
  | nil =>
    cases hrun
    rfl
  | cons ops opss ih =>
    obtain ⟨hroom, hcalm, hrest⟩ := hbelow
    rw [appendAll] at hrun
    obtain ⟨_, cl₁, happend, hrun₁⟩ := bind_eq_ok hrun
    have hout := appendLog_outcome (by rw [hinfo]; exact hpos) (by rw [hinfo]; exact hb) happend
    have hentry := hout.txnInfo hcalm
    have hblock := hout.block hcalm operationOffset 100
    rw [hinfo] at hentry hblock
    rw [← hout.enabled, ← hout.entries hcalm] at hrest
    rw [ih hentry hrest hrun₁, hblock hroom]

theorem readsBack_iff {data : List UInt8} {opss : List (List BlockOperation)}
    (hfind : findFreeLogBlock (cl.log 0) = some (b, data)) (hoff : txnOffset cl.maxTxnId + 2 < 4096)
    (hnul : 0 ∉ operation.name) (hbelow : Below cl.isCheckpointEnabled 0 cl.logEntriesNum opss) :
    ReadsBack cl operation opss ↔ operation.name.length ≤ 90 := by
  constructor
  · rintro ⟨id, cl₁, hrun, -⟩
    by_contra hname
    cases hrun.symm.trans (allocTxn_long hfind (length_of_findFree hfind) hoff hname)
  · intro hname
    obtain ⟨cl₁, hrun, hbegan⟩ := began_of_find hfind hoff hname
    refine ⟨_, cl₁, hrun, fun cl₂ happend => ?_⟩
    rw [hbegan.entry]
    apply getOperation_of_slice hbegan.lt hname hnul
    rw [← hbegan.enabled, ← hbegan.entries] at hbelow
    rw [appendAll_keeps hbegan.pos hbegan.lt hbegan.entry hbelow happend, hbegan.block]

theorem finds_zeroed : ∃ data, findFreeLogBlock
    ((create (BlockManager.zeroed 4096 16 logBlockCnt) true).log 0) = some (1, data) := by
  have hbitmap := (holds_create true (freshLog_zeroed 16)).bitmap
  exact ⟨_, (findFreeLogBlock_sequential (length_log _ 0) hbitmap (by decide)).1⟩

theorem readsBack_recorded :
    ReadsBack (create (BlockManager.zeroed 4096 16 logBlockCnt) true) anOperation [[zeroOp]] := by
  obtain ⟨data, hfind⟩ := finds_zeroed
  have hbelow : Below true 0 0 [[zeroOp]] := ⟨by decide, by decide, trivial⟩
  exact (readsBack_iff hfind (by decide) (by decide) hbelow).mpr (by decide)

/-- A name of 91 bytes overflows the block. -/
theorem not_readsBack_long :
    ¬ ReadsBack (create (BlockManager.zeroed 4096 16 logBlockCnt) true) ⟨1, 1, List.replicate 91 97⟩ [] := by
  rintro ⟨id, cl, hrun, -⟩
  obtain ⟨data, hfind⟩ := finds_zeroed
  cases hrun.symm.trans (allocTxn_long hfind (length_of_findFree hfind) (by decide) (by decide))

end Operation

end Chfs.Distributed.LogRecords
