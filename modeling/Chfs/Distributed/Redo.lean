import Chfs.Distributed.LogImage

namespace Chfs.Distributed.Redo

open Lib.Effect Lib.Bytes Lib.Run Block.Manager Logging LogImage

variable {cnt : ℕ} {cl : CommitLog cnt} {a : LogState}

def toWrite (op : BlockOperation) : Write := ⟨op.blockId.toNat, op.newBlockState⟩

def applyWrites (blocks : ℕ → List UInt8) (ws : List Write) : ℕ → List UInt8 :=
  ws.foldl (fun f w => Function.update f w.blockId w.data) blocks

/-- A program that has made the given writes and no others. -/
structure Wrote (cl : CommitLog cnt) (ws : List Write) (cl' : CommitLog cnt) : Prop where
  works : cl'.bm.maybeFailed = false
  blocks : cl'.bm.blocks = applyWrites cl.bm.blocks ws
  log : ∀ j, cl'.log j = cl.log j
  operations : cl'.recoverOperations = cl.recoverOperations

theorem applyWrites_append (blocks : ℕ → List UInt8) (ws ws' : List Write) :
    applyWrites blocks (ws ++ ws') = applyWrites (applyWrites blocks ws) ws' := List.foldl_append

theorem wrote_one (hcl : cl.bm.maybeFailed = false) {id : ℕ} {data : List UInt8} (hid : id < cnt)
    (hdata : data.length = 4096) : ∃ cl', ignore (onBm (writeBlock id data)) cl = some (.ok (), cl') ∧
      Wrote cl [⟨id, data⟩] cl' := by
  have hw := writeBlock_apply hcl (Nat.lt_add_right logBlockCnt hid) hdata
  refine ⟨_, ignore_apply (onPart_apply hw), hcl, rfl, fun j => ?_, rfl⟩
  exact Function.update_of_ne (by omega) ..

theorem recordBytes_fields {buffer : List UInt8} {i : ℕ} {op : BlockOperation} {b : ℕ}
    (h : slice buffer (i * 10) 10 = recordBytes op.blockId b) :
    getField buffer (i * 10) 8 = op.blockId.toNat ∧ (buffer.getD (i * 10 + 8) 0).toNat = b % 256 := by
  have hbytes : ∀ j < 10, buffer[i * 10 + j]? = (recordBytes op.blockId b)[j]? := by
    intro j hj
    rw [← h, getElem?_slice, if_pos hj]
  constructor
  · have hslice : slice buffer (i * 10) 8 = leBytes 8 op.blockId.toNat := by
      apply List.ext_getElem?
      intro j
      rw [getElem?_slice]
      split
      · rw [hbytes j (by omega), recordBytes, List.getElem?_append_left (by rw [length_leBytes]; assumption)]
      · rw [List.getElem?_eq_none (by rw [length_leBytes]; omega)]
    rw [getField, hslice, leVal_leBytes]
    exact op.blockId.toNat_lt
  · rw [List.getD_eq_getElem?_getD, hbytes 8 (by decide), recordBytes,
      List.getElem?_append_right (Nat.le_of_eq (length_leBytes _ _)), length_leBytes]
    simp only [Nat.sub_self, List.getElem?_cons_zero, Option.getD_some, UInt8.toNat_ofNat']
    omega

/-- The writes of `recover_tx`: each record is read back from the log block that
the low byte of its number names. -/
def redone (cl : CommitLog cnt) (records : List (BlockOperation × ℕ)) : List Write :=
  records.map fun o => ⟨o.1.blockId.toNat, cl.log (o.2 % 256)⟩

theorem recoverRecords_spec (cl : CommitLog cnt) {buffer : List UInt8} (records : List (BlockOperation × ℕ))
    (i : ℕ) (hcl : cl.bm.maybeFailed = false) (hroom : (i + records.length) * 10 ≤ 4096)
    (hrec : ∀ (j : ℕ) (o : BlockOperation × ℕ), records[j]? = some o →
      slice buffer ((i + j) * 10) 10 = recordBytes o.1.blockId o.2 ∧ o.1.blockId.toNat < cnt) :
    ∃ cl', recoverRecords buffer records.length i cl = some (.ok (redone cl records), cl') ∧
      Wrote cl (redone cl records) cl' := by
  induction records generalizing cl i with
  | nil => exact ⟨cl, rfl, hcl, rfl, fun _ => rfl, rfl⟩
  | cons o records ih =>
    rw [List.length_cons] at hroom
    obtain ⟨hslice, hhome⟩ := hrec 0 o rfl
    obtain ⟨hblock, hlow⟩ : getField buffer (i * bytesPerLogEntry) 8 = o.1.blockId.toNat ∧
        (buffer.getD (i * bytesPerLogEntry + 8) 0).toNat = o.2 % 256 := recordBytes_fields hslice
    have hsmall : o.2 % 256 < logBlockCnt := by
      unfold logBlockCnt
      omega
    obtain ⟨cl₁, hone, hwrote⟩ := wrote_one hcl hhome (length_log cl (o.2 % 256))
    have hsame : redone cl₁ records = redone cl records := by
      unfold redone
      simp only [hwrote.log]
    obtain ⟨cl', hrun, hrest⟩ := ih cl₁ (i + 1) hwrote.works (by omega) (by
      intro j o' ho'
      rw [Nat.add_assoc, Nat.add_comm 1 j]
      exact hrec (j + 1) o' ho')
    refine ⟨cl', ?_, hrest.works, ?_, fun j => (hrest.log j).trans (hwrote.log j),
      hrest.operations.trans hwrote.operations⟩
    · rw [List.length_cons, recoverRecords]
      simp only
      rw [require_of (by unfold bytesPerLogEntry; omega), bind_ok (pure_apply ()), hlow, hblock,
        bind_ok (readLog_apply hsmall),
        bind_ok hone, bind_ok hrun, pure_apply, hsame]
      rfl
    · rw [hrest.blocks, hwrote.blocks, hsame, ← applyWrites_append]
      rfl

theorem length_recoverRecords {buffer : List UInt8} {k i : ℕ} {ws : List Write} {cl' : CommitLog cnt}
    (h : recoverRecords buffer k i cl = some (.ok ws, cl')) : ws.length = k := by
  induction k generalizing i cl ws with
  | zero =>
    cases h
    rfl
  | succ k ih =>
    obtain ⟨-, cl₁, -, h⟩ := bind_eq_ok h
    obtain ⟨data, cl₂, -, h⟩ := bind_eq_ok h
    obtain ⟨-, cl₃, -, h⟩ := bind_eq_ok h
    obtain ⟨rest, cl₄, hrest, h⟩ := bind_eq_ok h
    cases h
    rw [List.length_cons, ih hrest]

section Transaction

variable {t : ℕ} {tx : Tx}

theorem recoverTx_spec {cl₀ : CommitLog cnt} (h : Holds cl₀ a) (hlog : ∀ j, cl.log j = cl₀.log j)
    (hcl : cl.bm.maybeFailed = false) (htx : tx ∈ a.txs) (hlen : tx.records.length ≤ 255) :
    ∃ cl', recoverTx tx.block tx.records.length cl =
      some (.ok (redone cl tx.records), cl') ∧ Wrote cl (redone cl tx.records) cl' := by
  obtain ⟨cl', hrun, hwrote⟩ := @recoverRecords_spec _ cl (cl.log tx.block) tx.records 0 hcl (by omega) (by
    intro j o ho
    rw [Nat.zero_add, hlog]
    exact ⟨h.record tx htx hlen j o ho, h.home tx htx o (List.mem_of_getElem? ho)⟩)
  refine ⟨cl', ?_, hwrote⟩
  rw [recoverTx, bind_ok (readLog_apply (h.block_lt htx)), hrun]

/-- `recover_tx` on transaction `t`, with what its entry says, makes the writes
of the given operations, in order. -/
def Redoes (cl : CommitLog cnt) (t : ℕ) (ops : List BlockOperation) : Prop :=
  ∃ info cl', getTxnInfo t cl = some (.ok info, cl) ∧
    recoverTx info.1 info.2 cl = some (.ok (ops.map toWrite), cl') ∧ Wrote cl (ops.map toWrite) cl'

theorem getTxnInfo_eq (h : Holds cl a) (ht : a.txs[t]? = some tx) :
    getTxnInfo t cl = some (.ok (tx.block, tx.records.length % 256), cl) := by
  have hlt := (List.getElem?_eq_some_iff.mp ht).1
  have hslots := h.apart.slots
  rw [getTxnInfo, bind_ok (readLog_apply (by decide)), require_of (by rw [txnOffset_eq]; omega),
    bind_ok (pure_apply ()), h.txnInfo ht, pure_apply]

/-- A transaction is redone exactly if its number of records fits in a byte and
each new state is found where the low byte of its log block points to. -/
theorem redoes_iff (h : Holds cl a) (hcl : cl.bm.maybeFailed = false) (ht : a.txs[t]? = some tx) :
    Redoes cl t (tx.records.map Prod.fst) ↔ tx.records.length ≤ 255 ∧
      ∀ o ∈ tx.records, o.2 < 256 ∨ cl.log (o.2 % 256) = o.1.newBlockState := by
  have hmem := List.mem_of_getElem? ht
  have hinfo := getTxnInfo_eq h ht
  have hwrites : redone cl tx.records = (tx.records.map Prod.fst).map toWrite ↔
      ∀ o ∈ tx.records, o.2 < 256 ∨ cl.log (o.2 % 256) = o.1.newBlockState := by
    rw [List.map_map, redone, List.map_inj_left]
    refine forall₂_congr fun o ho => ?_
    have hstate := h.state tx hmem o ho
    constructor
    · intro heq
      exact Or.inr (congrArg Write.data heq)
    · rintro (hlt | heq)
      · rw [Nat.mod_eq_of_lt hlt, hstate]
        rfl
      · rw [heq]
        rfl
  constructor
  · rintro ⟨info, cl', hget, hrun, -⟩
    cases hinfo.symm.trans hget
    simp only at hrun
    have hlen : tx.records.length ≤ 255 := by
      unfold recoverTx at hrun
      obtain ⟨buffer, cl₁, -, hrun⟩ := bind_eq_ok hrun
      have heq := length_recoverRecords hrun
      rw [List.length_map, List.length_map] at heq
      omega
    rw [Nat.mod_eq_of_lt (by omega)] at hrun
    obtain ⟨cl₂, hrun', -⟩ := recoverTx_spec h (fun _ => rfl) hcl hmem hlen
    have heq := hrun'.symm.trans hrun
    rw [Option.some.injEq, Prod.mk.injEq, Except.ok.injEq] at heq
    exact ⟨hlen, hwrites.mp heq.1⟩
  · rintro ⟨hlen, hall⟩
    obtain ⟨cl', hrun, hwrote⟩ := recoverTx_spec h (fun _ => rfl) hcl hmem hlen
    rw [hwrites.mpr hall] at hrun hwrote
    refine ⟨_, cl', hinfo, ?_, hwrote⟩
    simp only
    rw [Nat.mod_eq_of_lt (by omega), hrun]

end Transaction

section Recover

def redoneFrom (t : ℕ) : List Tx → List (ℕ × Write)
  | [] => []
  | tx :: txs => tx.records.map (fun o => (t, toWrite o.1)) ++ redoneFrom (t + 1) txs

/-- The writes made for a transaction. -/
def writesOf (t : ℕ) (trace : List (ℕ × Write)) : List Write :=
  (trace.filter fun w => w.1 = t).map Prod.snd

theorem writesOf_append (t : ℕ) (l r : List (ℕ × Write)) :
    writesOf t (l ++ r) = writesOf t l ++ writesOf t r := by
  rw [writesOf, List.filter_append, List.map_append]
  rfl

theorem writesOf_redoneFrom (u t : ℕ) (txs : List Tx) : writesOf u (redoneFrom t txs) =
    if t ≤ u then (txs[u - t]?).elim [] fun tx => (tx.records.map Prod.fst).map toWrite else [] := by
  induction txs generalizing t with
  | nil =>
    rw [redoneFrom]
    split <;> rfl
  | cons tx txs ih =>
    rw [redoneFrom, writesOf_append, ih (t + 1)]
    obtain rfl | hne := eq_or_ne t u
    · have hall : writesOf t (tx.records.map fun o => (t, toWrite o.1)) =
          (tx.records.map Prod.fst).map toWrite := by
        have hself : (tx.records.map fun o => (t, toWrite o.1)).filter (fun w => w.1 = t) =
            tx.records.map fun o => (t, toWrite o.1) := by
          apply List.filter_eq_self.mpr
          intro w hw
          obtain ⟨o, -, rfl⟩ := List.mem_map.mp hw
          exact decide_eq_true rfl
        rw [writesOf, hself, List.map_map, List.map_map]
        rfl
      rw [hall, if_neg (by omega), if_pos (Nat.le_refl t), Nat.sub_self, List.append_nil]
      rfl
    · have hnone : writesOf u (tx.records.map fun o => (t, toWrite o.1)) = [] := by
        have hnil : (tx.records.map fun o => (t, toWrite o.1)).filter (fun w => w.1 = u) = [] := by
          apply List.filter_eq_nil_iff.mpr
          intro w hw
          obtain ⟨o, -, rfl⟩ := List.mem_map.mp hw
          exact fun heq => hne (of_decide_eq_true heq)
        rw [writesOf, hnil]
        rfl
      rw [hnone, List.nil_append]
      obtain hlt | hgt := Nat.lt_or_gt_of_ne hne
      · rw [if_pos (by omega), if_pos (by omega), show u - t = u - (t + 1) + 1 by omega,
          List.getElem?_cons_succ]
      · rw [if_neg (by omega), if_neg (by omega)]

theorem getOperation_apply {cl₀ : CommitLog cnt} (h : Holds cl₀ a) (hlog : ∀ j, cl.log j = cl₀.log j) {tx : Tx}
    (htx : tx ∈ a.txs) (hlen : tx.records.length ≤ 255) :
    ∃ operation, getOperation tx.block cl = some (.ok operation, cl) := by
  have hname := h.name tx htx
  obtain ⟨i, hi⟩ : ∃ i, i = tx.operation.name.length + 9 := ⟨_, rfl⟩
  have hbytes : (operationBytes tx.operation)[i]? = some 0 := by
    have hfront : (leBytes 8 tx.operation.parent.toNat ++ tx.operation.name).length = i - 1 := by
      rw [List.length_append, length_leBytes]
      omega
    rw [operationBytes, show i = i - 1 + 1 by omega, List.getElem?_cons_succ,
      List.getElem?_append_right (Nat.le_of_eq hfront), hfront, Nat.sub_self]
    rfl
  have hzero : (cl.log tx.block)[operationOffset + i]? = some 0 := by
    have hsame : (slice (cl.log tx.block) operationOffset 100)[i]? =
        (slice (operationBlock tx.operation) operationOffset 100)[i]? := by
      rw [hlog, h.operation tx htx hlen]
    have hroom : operationOffset + (operationBytes tx.operation).length ≤ (List.replicate 4096 (0 : UInt8)).length := by
      rw [length_operationBytes, List.length_replicate]
      unfold operationOffset
      omega
    rw [getElem?_slice, getElem?_slice, if_pos (by omega), if_pos (by omega), operationBlock,
      getElem?_splice hroom, length_operationBytes, Nat.add_sub_cancel_left, hbytes, if_pos (by omega)] at hsame
    exact hsame
  have hmem : (0 : UInt8) ∈ (cl.log tx.block).drop (operationOffset + 9) := by
    have hat : ((cl.log tx.block).drop (operationOffset + 9))[tx.operation.name.length]? = some 0 := by
      rw [List.getElem?_drop, ← hzero, hi]
      congr 1
      omega
    exact List.mem_of_getElem? hat
  rw [getOperation, bind_ok (readLog_apply (h.block_lt htx)), require_of hmem, bind_ok (pure_apply ()),
    pure_apply]
  exact ⟨_, rfl⟩

/-- All log blocks of records are below 256, so every record is read back from
its own log block. -/
theorem redone_eq {cl₀ : CommitLog cnt} (h : Holds cl₀ a) (hlog : ∀ j, cl.log j = cl₀.log j) {tx : Tx}
    (htx : tx ∈ a.txs) (hu : a.used < 256) : redone cl tx.records = tx.records.map fun o => toWrite o.1 := by
  unfold redone
  rw [List.map_inj_left]
  intro o ho
  have hle := (h.apart.record tx htx o ho).2
  rw [Nat.mod_eq_of_lt (by omega), hlog, h.state tx htx o ho]
  rfl

theorem recoverFrom_spec {cl₀ : CommitLog cnt} (h : Holds cl₀ a) (hu : a.used < 256)
    (hrecords : ∀ tx ∈ a.txs, tx.records.length ≤ 255) (hslots : a.txs.length < 992) (cl : CommitLog cnt)
    (txs : List Tx) (t k : ℕ) (ht : t + txs.length = a.txs.length) (hdrop : a.txs.drop t = txs)
    (hk : txs.length < k) (hlog : ∀ j, cl.log j = cl₀.log j) (hcl : cl.bm.maybeFailed = false) :
    ∃ cl', recoverFrom (cl₀.log 0) k t cl = some (.ok (redoneFrom t txs), cl') ∧
      cl'.bm.blocks = applyWrites cl.bm.blocks ((redoneFrom t txs).map Prod.snd) := by
  induction txs generalizing cl t k with
  | nil =>
    obtain ⟨k, rfl⟩ := Nat.exists_eq_add_one.mpr (by omega : 0 < k)
    rw [List.length_nil, Nat.add_zero] at ht
    have hbyte : ∀ j < 3, (cl₀.log 0).getD (txnOffset t + j) 0 = 0 := by
      intro j hj
      rw [List.getD_eq_getElem?_getD, h.rest _ (by rw [ht]; omega) (by rw [txnOffset_eq]; omega), Option.getD_some]
    have hinfo : txnInfo (cl₀.log 0) t = (0, 0) := by
      rw [txnInfo, hbyte 1 (by decide), hbyte 2 (by decide)]
      exact congrArg (fun x : UInt8 => (x.toNat * 256 + 0, 0)) (hbyte 0 (by decide))
    rw [recoverFrom, require_of (by rw [txnOffset_eq]; omega), bind_ok (pure_apply ()), hinfo]
    simp only
    rw [if_pos trivial, bind_ok (assign_apply _ _), pure_apply]
    exact ⟨_, rfl, rfl⟩
  | cons tx txs ih =>
    obtain ⟨k, rfl⟩ := Nat.exists_eq_add_one.mpr (by omega : 0 < k)
    rw [List.length_cons] at ht hk
    have htx : a.txs[t]? = some tx := by
      rw [← List.head?_drop, hdrop, List.head?_cons]
    have hdrop' : a.txs.drop (t + 1) = txs := by
      rw [← List.tail_drop, hdrop, List.tail_cons]
    have hmem := List.mem_of_getElem? htx
    have hlen := hrecords tx hmem
    have hcount : (cl₀.log 0).getD (txnOffset t + 2) 0 = UInt8.ofNat tx.records.length := by
      rw [List.getD_eq_getElem?_getD, h.entry t tx htx 2 (by decide)]
      rfl
    have hcommit : (cl₀.log 0).getD (txnOffset t + 2) 0 = 0 ↔ tx.records.length = 0 := by
      rw [hcount, ← UInt8.toNat_inj, UInt8.toNat_ofNat', Nat.mod_eq_of_lt (by omega)]
      exact Iff.rfl
    rw [recoverFrom, require_of (by rw [txnOffset_eq]; omega), bind_ok (pure_apply ()), h.txnInfo htx]
    simp only
    rw [if_neg (Nat.ne_of_gt (h.apart.block tx hmem).1), Nat.mod_eq_of_lt (by omega)]
    split
    case isTrue hzero =>
      have hnil := List.eq_nil_of_length_eq_zero (hcommit.mp hzero)
      obtain ⟨operation, hop⟩ := getOperation_apply h hlog hmem hlen
      obtain ⟨cl', hrun, hblocks⟩ := ih { cl with recoverOperations := cl.recoverOperations ++ [operation] }
        (t + 1) k (by omega) hdrop' (by omega) hlog hcl
      refine ⟨cl', ?_, ?_⟩
      · rw [bind_ok hop, bind_ok (assign_apply _ _), hrun, redoneFrom, hnil]
        rfl
      · rw [hblocks, redoneFrom, hnil]
        rfl
    case isFalse =>
      obtain ⟨cl₁, htxrun, hwrote⟩ := recoverTx_spec h hlog hcl hmem hlen
      rw [redone_eq h hlog hmem hu] at htxrun hwrote
      obtain ⟨cl', hrun, hblocks⟩ := ih cl₁ (t + 1) k (by omega) hdrop' (by omega)
        (fun j => (hwrote.log j).trans (hlog j)) hwrote.works
      refine ⟨cl', ?_, ?_⟩
      · rw [bind_ok htxrun, bind_ok hrun, pure_apply, List.map_map]
        rfl
      · rw [hblocks, hwrote.blocks, ← applyWrites_append, redoneFrom, List.map_append, List.map_map]
        rfl

theorem recover_spec {cl₀ : CommitLog cnt} (h : Holds cl₀ a) (hu : a.used < 256)
    (hcl : cl₀.bm.maybeFailed = false) (enabled : Bool) : ∃ cl',
      recover (create cl₀.bm enabled) = some (.ok (redoneFrom 0 a.txs), cl') ∧
      cl'.bm.blocks = applyWrites cl₀.bm.blocks ((redoneFrom 0 a.txs).map Prod.snd) := by
  have hrecords : ∀ tx ∈ a.txs, tx.records.length ≤ 255 := by
    intro tx htx
    have := h.apart.fewer tx htx
    omega
  have htxns := h.apart.txns
  obtain ⟨cl', hrun, hblocks⟩ := recoverFrom_spec h hu hrecords (by omega) (create cl₀.bm enabled) a.txs 0
    logBlockCnt (Nat.zero_add _) List.drop_zero (by unfold logBlockCnt; omega) (fun _ => rfl) hcl
  refine ⟨cl', ?_, hblocks⟩
  rw [recover, bind_ok (assign_apply _ _), bind_ok (readLog_apply (by decide))]
  exact hrun

end Recover

section Runs

variable {bm : BlockManager 4096 cnt logBlockCnt} {enabled : Bool} {cs : List Call}

theorem recorded_eq (hcs : Accepted cnt ⟨0, []⟩ cs) {t : ℕ} {tx : Tx} (htx : (after cs).txs[t]? = some tx) :
    tx.records.map Prod.fst = recorded t cs ∧ (tx.committed = true ↔ Call.commitLog t ∈ cs) := by
  obtain ⟨hrec, hcom⟩ := foldl_next_tx hcs t htx
  exact ⟨hrec, hcom.trans (or_iff_right not_false)⟩

/-- `recover_tx` makes exactly the writes that were logged for a transaction if
and only if these are at most 255 and each new state lies in a log block below
256, or the log block with the same low byte holds the same bytes. -/
theorem recoverTx_redoes_iff (hbm : FreshLog bm) (hworks : bm.maybeFailed = false)
    (hcs : Accepted cnt ⟨0, []⟩ cs) (hquiet : enabled = false ∨ appended cs < kMaxLogSize) :
    ∃ cl, exec call (create bm enabled) cs = some cl ∧
      ∀ (t : ℕ) (tx : Tx), (after cs).txs[t]? = some tx → (Redoes cl t (recorded t cs) ↔
        (recorded t cs).length ≤ 255 ∧
          ∀ o ∈ tx.records, o.2 < 256 ∨ cl.log (o.2 % 256) = o.1.newBlockState) := by
  obtain ⟨cl, hrun, hholds, hframe⟩ := holds_calls (holds_create enabled hbm) hcs
    (hquiet.imp id fun h => (Nat.zero_add (appended cs)).symm ▸ h)
  refine ⟨cl, hrun, fun t tx htx => ?_⟩
  have hiff := redoes_iff hholds (hframe.failed.trans hworks) htx
  rw [(recorded_eq hcs htx).1] at hiff
  rw [hiff, ← (recorded_eq hcs htx).1, List.length_map]

/-- What recovery owes a transaction: its writes if it was committed, otherwise
none, and its operation if there are writes to be made up for. -/
def Honours (cs : List Call) (trace : List (ℕ × Write)) (operations : List ServerOperation) (t : ℕ)
    (tx : Tx) : Prop :=
  (Call.commitLog t ∈ cs → writesOf t trace = (recorded t cs).map toWrite) ∧
  (Call.commitLog t ∉ cs → writesOf t trace = [] ∧ (recorded t cs ≠ [] → tx.operation ∈ operations))

theorem writesOf_recover (hcs : Accepted cnt ⟨0, []⟩ cs) {t : ℕ} {tx : Tx}
    (htx : (after cs).txs[t]? = some tx) :
    writesOf t (redoneFrom 0 (after cs).txs) = (recorded t cs).map toWrite := by
  rw [writesOf_redoneFrom, if_pos (Nat.zero_le _), Nat.sub_zero, htx, ← (recorded_eq hcs htx).1]
  rfl

theorem Honours.committed (hcs : Accepted cnt ⟨0, []⟩ cs) {operations : List ServerOperation} {t : ℕ} {tx : Tx}
    (htx : (after cs).txs[t]? = some tx) (h : Honours cs (redoneFrom 0 (after cs).txs) operations t tx)
    (hne : recorded t cs ≠ []) : Call.commitLog t ∈ cs := by
  by_contra hnot
  have hnil := (h.2 hnot).1
  rw [writesOf_recover hcs htx, List.map_eq_nil_iff] at hnil
  exact hne hnil

/-- Recovery after a crash honours the commit marks exactly if every transaction
with a record was committed. -/
theorem recover_honours_iff (hbm : FreshLog bm) (hworks : bm.maybeFailed = false)
    (hcs : Accepted cnt ⟨0, []⟩ cs) (hquiet : enabled = false ∨ appended cs < kMaxLogSize)
    (hsmall : (after cs).used < 256) : ∃ cl trace cl', exec call (create bm enabled) cs = some cl ∧
      recover (create cl.bm enabled) = some (.ok trace, cl') ∧
      cl'.bm.blocks = applyWrites cl.bm.blocks (trace.map Prod.snd) ∧
      ((∀ (t : ℕ) (tx : Tx), (after cs).txs[t]? = some tx → Honours cs trace cl'.recoverOperations t tx) ↔
        ∀ t, recorded t cs ≠ [] → Call.commitLog t ∈ cs) := by
  obtain ⟨cl, hrun, hholds, hframe⟩ := holds_calls (holds_create enabled hbm) hcs
    (hquiet.imp id fun h => (Nat.zero_add (appended cs)).symm ▸ h)
  obtain ⟨cl', hrec, hblocks⟩ := recover_spec hholds hsmall (hframe.failed.trans hworks) enabled
  refine ⟨cl, _, cl', hrun, hrec, hblocks, ?_⟩
  constructor
  · intro h t hne
    have hlt := exists_tx_of_recorded hcs hne
    have htx := List.getElem?_eq_getElem hlt
    exact (h t _ htx).committed hcs htx hne
  · intro h t tx htx
    refine ⟨fun _ => writesOf_recover hcs htx, fun hnot => ?_⟩
    have hnil : recorded t cs = [] := by
      by_contra hne
      exact hnot (h t hne)
    have hwrites := writesOf_recover hcs htx
    rw [hnil] at hwrites
    exact ⟨hwrites, fun hne => absurd hnil hne⟩

theorem freshLog_zeroed (cnt : ℕ) : FreshLog (BlockManager.zeroed 4096 cnt logBlockCnt) := fun _ _ => rfl

def zeroOp : BlockOperation := ⟨5, List.replicate 4096 0, length_zeros⟩

def anOperation : ServerOperation := ⟨1, 1, [102]⟩

def oneCommitted : List Call := [.allocTxn anOperation, .appendLog 0 [zeroOp], .commitLog 0]

theorem accepted_oneCommitted : Accepted 16 ⟨0, []⟩ oneCommitted := by
  refine ⟨⟨by decide, by decide, by decide⟩, ⟨by decide, ?_, _, rfl, by decide⟩, Nat.one_pos, trivial⟩
  intro op hop
  cases List.mem_singleton.mp hop
  decide

theorem redoes_oneCommitted : ∃ cl, exec call (create (BlockManager.zeroed 4096 16 logBlockCnt) true)
    oneCommitted = some cl ∧ Redoes cl 0 [zeroOp] := by
  obtain ⟨cl, hrun, hiff⟩ := recoverTx_redoes_iff (freshLog_zeroed 16) rfl accepted_oneCommitted
    (Or.inr (by decide) : true = false ∨ _)
  refine ⟨cl, hrun, (hiff 0 _ rfl).mpr ⟨by decide, fun o ho => ?_⟩⟩
  cases List.mem_singleton.mp ho
  exact Or.inl (by decide)

theorem honours_oneCommitted : ∃ cl trace cl',
    exec call (create (BlockManager.zeroed 4096 16 logBlockCnt) true) oneCommitted = some cl ∧
      recover (create cl.bm true) = some (.ok trace, cl') ∧
      ∀ (t : ℕ) (tx : Tx), (after oneCommitted).txs[t]? = some tx →
        Honours oneCommitted trace cl'.recoverOperations t tx := by
  obtain ⟨cl, trace, cl', hrun, hrec, -, hiff⟩ := recover_honours_iff (freshLog_zeroed 16) rfl
    accepted_oneCommitted (Or.inr (by decide) : true = false ∨ _) (by decide)
  refine ⟨cl, trace, cl', hrun, hrec, hiff.mpr fun t hne => ?_⟩
  obtain rfl : t = 0 := by
    by_contra ht
    apply hne
    simp [oneCommitted, recorded, Ne.symm ht]
  exact List.mem_cons_of_mem _ (List.mem_cons_of_mem _ List.mem_cons_self)

def oneUncommitted : List Call := [.allocTxn anOperation, .appendLog 0 [zeroOp]]

theorem not_honours_oneUncommitted : ∃ cl trace cl',
    exec call (create (BlockManager.zeroed 4096 16 logBlockCnt) true) oneUncommitted = some cl ∧
      recover (create cl.bm true) = some (.ok trace, cl') ∧ writesOf 0 trace = [⟨5, List.replicate 4096 0⟩] ∧
      ¬ ∀ (t : ℕ) (tx : Tx), (after oneUncommitted).txs[t]? = some tx →
        Honours oneUncommitted trace cl'.recoverOperations t tx := by
  have hcs : Accepted 16 ⟨0, []⟩ oneUncommitted := ⟨accepted_oneCommitted.1, accepted_oneCommitted.2.1, trivial⟩
  obtain ⟨cl, hrun, hholds, hframe⟩ := holds_calls (holds_create true (freshLog_zeroed 16)) hcs
    (Or.inr (by decide))
  obtain ⟨cl', hrec, -⟩ := recover_spec hholds (by decide) hframe.failed true
  refine ⟨cl, _, cl', hrun, hrec, writesOf_recover hcs rfl, fun h => ?_⟩
  have hmem := (h 0 _ rfl).committed hcs rfl (by decide)
  simp [oneUncommitted] at hmem

def longRun : List Call := [.allocTxn anOperation, .appendLog 0 (List.replicate 200 zeroOp),
  .allocTxn anOperation, .appendLog 1 (List.replicate 60 zeroOp), .commitLog 1]

theorem not_redoes_longRun : Accepted 16 ⟨0, []⟩ longRun ∧ ∃ cl,
    exec call (create (BlockManager.zeroed 4096 16 logBlockCnt) false) longRun = some cl ∧
      ¬ Redoes cl 1 (recorded 1 longRun) := by
  have hhome : ∀ n, ∀ op ∈ List.replicate n zeroOp, op.blockId.toNat < 16 := by
    intro n op hop
    rw [List.eq_of_mem_replicate hop]
    decide
  obtain ⟨tx, htx, hblock, hrecords⟩ : ∃ tx, (after longRun).txs[1]? = some tx ∧ tx.block = 202 ∧
      tx.records = (List.replicate 60 zeroOp).zip (List.range' 203 60) := by
    refine ⟨_, rfl, ?_, ?_⟩
    all_goals simp only [List.length_replicate, LogState.place, LogState.next, List.nil_append]
  have hcs : Accepted 16 ⟨0, []⟩ longRun := by
    refine ⟨⟨by decide, by decide, by decide⟩, ⟨?_, hhome 200, _, rfl, ?_⟩, ⟨?_, (by decide : 1 < 992), by decide⟩,
      ⟨?_, hhome 60, _, rfl, ?_⟩, Nat.one_lt_two, trivial⟩
    all_goals simp only [LogState.next, List.length_replicate, List.length_nil]
    all_goals decide
  obtain ⟨cl, hrun, hholds, hframe⟩ := holds_calls (holds_create false (freshLog_zeroed 16)) hcs (Or.inl rfl)
  refine ⟨hcs, cl, hrun, fun h => ?_⟩
  rw [← (recorded_eq hcs htx).1, redoes_iff hholds hframe.failed htx] at h
  have hmem : (zeroOp, 256) ∈ tx.records := by
    have hat : tx.records[53]? = some (zeroOp, 256) := by
      rw [hrecords, List.getElem?_zip_eq_some]
      exact ⟨by rw [List.getElem?_replicate, if_pos (by decide)], List.getElem?_range' (by decide)⟩
    exact List.mem_of_getElem? hat
  obtain hlt | hsame := h.2 _ hmem
  · exact absurd hlt (by decide)
  · -- the superblock, whose bitmap is not empty
    have hmarked : marked (cl.log 0) 1 = decide (1 ≤ (after longRun).used) :=
      hholds.bitmap 1 (by decide) (by decide)
    have hzero : cl.log 0 = List.replicate 4096 0 := hsame
    rw [hzero, marked, List.getD_eq_getElem?_getD, List.getElem?_replicate, if_pos (by decide)] at hmarked
    have hone : 1 ≤ (after longRun).used := by
      have hle := (hholds.apart.block tx (List.mem_of_getElem? htx)).2
      rw [hblock] at hle
      exact Nat.le_trans (by decide) hle
    rw [decide_eq_true hone] at hmarked
    exact absurd hmarked (by decide)

end Runs

end Chfs.Distributed.Redo
