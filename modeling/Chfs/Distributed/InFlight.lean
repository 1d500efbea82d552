import Chfs.Distributed.Redo

namespace Chfs.Distributed.InFlight

open Lib.Effect Lib.Bytes Lib.Run Block.Manager Logging LogImage Redo

variable {cnt : ℕ}

/-- A transaction with its id, what it has appended before a checkpoint, and
what since. -/
structure Txn where
  id : ℕ
  early : List BlockOperation
  late : List BlockOperation
  committed : Bool

/-- The log, and the transactions that have begun. Those that were committed
before a checkpoint are done. -/
structure World (cnt : ℕ) where
  log : CommitLog cnt
  txns : List Txn

inductive Act
  | alloc (operation : ServerOperation)
  | append (k : ℕ) (ops : List BlockOperation)
  | commit (k : ℕ)
  | checkpoint

/-- What a checkpoint makes of the transactions. -/
def pass (txns : List Txn) : List Txn :=
  (txns.filter fun x => !x.committed).map fun x => { x with early := x.early ++ x.late, late := [] }

def Due (cl : CommitLog cnt) (n : ℕ) : Prop := kMaxLogSize ≤ cl.logEntriesNum + n ∧ cl.isCheckpointEnabled = true

instance (cl : CommitLog cnt) (n : ℕ) : Decidable (Due cl n) := inferInstanceAs (Decidable (_ ∧ _))

def step (w : World cnt) : Act → Option (World cnt)
  | .alloc operation =>
    match allocTxn operation w.log with
    | some (.ok id, cl) => some ⟨cl, w.txns ++ [⟨id, [], [], false⟩]⟩
    | _ => none
  | .append k ops =>
    match w.txns[k]? with
    | some x =>
      if x.committed = false ∧ ∀ op ∈ ops, op.blockId.toNat < cnt then
        let txns := w.txns.set k { x with late := x.late ++ ops }
        match appendLog x.id ops w.log with
        | some (.ok _, cl) => some ⟨cl, if Due w.log ops.length then pass txns else txns⟩
        | _ => none
      else none
    | none => none
  | .commit k =>
    match w.txns[k]? with
    | some x =>
      if x.committed = false then
        match commitLog x.id w.log with
        | some (.ok _, cl) => some ⟨cl, w.txns.set k { x with committed := true }⟩
        | _ => none
      else none
    | none => none
  | .checkpoint =>
    match checkpoint w.log with
    | some (.ok _, cl) => some ⟨cl, pass w.txns⟩
    | _ => none

def recordBlock (buffer : List UInt8) (i : ℕ) : ℕ :=
  (buffer.getD (i * 10 + 8) 0).toNat + 256 * (buffer.getD (i * 10 + 9) 0).toNat

def txnBlocks (cl : CommitLog cnt) (t : ℕ) : List ℕ :=
  let (block, count) := txnInfo (cl.log 0) t
  block :: (List.range count).map (recordBlock (cl.log block))

def World.blocks (w : World cnt) : List ℕ := w.txns.flatMap fun x => txnBlocks w.log x.id

/-- `recover` makes all writes of a transaction. -/
def Recovers (cl : CommitLog cnt) (x : Txn) : Prop :=
  ∃ trace cl', recover cl = some (.ok trace, cl') ∧ writesOf x.id trace = (x.early ++ x.late).map toWrite

/-- The log area is well formed, and a transaction that went on after a
checkpoint is redone. -/
structure WellFormed (w : World cnt) : Prop where
  entry : ∀ x ∈ w.txns, x.committed = false → 0 < (txnInfo (w.log.log 0) x.id).1
  distinct : w.blocks.Nodup
  inside : ∀ b ∈ w.blocks, 0 < b ∧ b < logBlockCnt
  bitmap : ∀ b, 0 < b → b < logBlockCnt → (marked (w.log.log 0) b = true ↔ b ∈ w.blocks)
  redone : ∀ x ∈ w.txns, x.committed = true → x.early ≠ [] → x.late ≠ [] → Recovers w.log x

/-- No checkpoint falls into a transaction. -/
def Calm (w : World cnt) : Act → Prop
  | .append _ ops => ¬ Due w.log ops.length
  | .checkpoint => ∀ x ∈ w.txns, x.committed = true
  | _ => True

section Blocks

variable {a : LogState} {t : ℕ}

def Tx.blocks (tx : Tx) : List ℕ := tx.block :: tx.records.map Prod.snd

def blocksOf (a : LogState) : List ℕ := a.txs.flatMap Tx.blocks

/-- The blocks in use are handed out without a gap. -/
def Dense (a : LogState) : Prop := (blocksOf a).Perm (List.range' 1 a.used)

theorem flatMap_modify_perm {α β : Type} {g : α → List β} {f : α → α} {l : List α} {x : α} {r : List β}
    (hx : l[t]? = some x) (hf : g (f x) = g x ++ r) : ((l.modify t f).flatMap g).Perm (l.flatMap g ++ r) := by
  induction l generalizing t with
  | nil => cases hx
  | cons y l ih =>
    cases t with
    | zero =>
      rw [List.getElem?_cons_zero, Option.some.injEq] at hx
      rw [List.modify_zero_cons, List.flatMap_cons, List.flatMap_cons, hx, hf, List.append_assoc, List.append_assoc]
      exact List.perm_append_comm.append_left _
    | succ t =>
      rw [List.getElem?_cons_succ] at hx
      rw [List.modify_succ_cons, List.flatMap_cons, List.flatMap_cons, List.append_assoc]
      exact (ih hx).append_left _

theorem map_place (a : LogState) (ops : List BlockOperation) : (a.place ops).map Prod.fst = ops :=
  List.map_fst_zip (Nat.le_of_eq List.length_range'.symm)

theorem dense_allocTxn (h : Dense a) (operation : ServerOperation) : Dense (a.next (.allocTxn operation)) := by
  unfold Dense blocksOf LogState.next
  rw [List.flatMap_append, List.range'_concat]
  refine h.append ?_
  simp [Tx.blocks, Nat.add_comm]

theorem dense_appendLog (h : Dense a) {tx : Tx} (ht : a.txs[t]? = some tx) (ops : List BlockOperation) :
    Dense (a.next (.appendLog t ops)) := by
  unfold Dense blocksOf LogState.next
  have hplace : (a.place ops).map Prod.snd = List.range' (a.used + 1) ops.length := by
    exact List.map_snd_zip (Nat.le_of_eq List.length_range')
  refine (flatMap_modify_perm ht (r := List.range' (a.used + 1) ops.length) ?_).trans ?_
  · rw [Tx.blocks, Tx.blocks, List.map_append, hplace]
    rfl
  · rw [← List.range'_append_1, Nat.add_comm 1 a.used]
    exact h.append_right _

theorem dense_commitLog (h : Dense a) {tx : Tx} (ht : a.txs[t]? = some tx) : Dense (a.next (.commitLog t)) := by
  refine (flatMap_modify_perm ht (r := []) ?_).trans ?_
  · exact (List.append_nil _).symm
  · rw [List.append_nil]
    exact h

end Blocks

theorem recordBlock_eq {buffer : List UInt8} {i b : ℕ} {blockId : UInt64}
    (h : slice buffer (i * 10) 10 = recordBytes blockId b) (hb : b < 1024) : recordBlock buffer i = b := by
  have hbytes : ∀ j < 10, buffer[i * 10 + j]? = (recordBytes blockId b)[j]? := by
    intro j hj
    rw [← h, getElem?_slice, if_pos hj]
  have hlow : buffer[i * 10 + 8]? = some (UInt8.ofNat (b % 256)) := hbytes 8 (by decide)
  have hhigh : buffer[i * 10 + 9]? = some (UInt8.ofNat (b / 256)) := hbytes 9 (by decide)
  rw [recordBlock, List.getD_eq_getElem?_getD, List.getD_eq_getElem?_getD, hlow, hhigh, Option.getD_some,
    Option.getD_some, UInt8.toNat_ofNat', UInt8.toNat_ofNat']
  omega

section Calls

variable {cl cl' : CommitLog cnt} {a : LogState} {t id : ℕ} {operation : ServerOperation} {ops : List BlockOperation}

theorem used_lt_of_find {data : List UInt8} {used : ℕ} {out : ℕ × List UInt8} (h : Sequential data used)
    (hfind : findFreeLogBlock data = some out) : used < 1023 := by
  obtain ⟨hnone, -⟩ | ⟨b, hpos, hb, hclear, -⟩ := findFreeLogBlock_spec data
  · cases hnone.symm.trans hfind
  · rw [h b hpos hb, decide_eq_false_iff_not] at hclear
    unfold logBlockCnt at hb
    omega

theorem fits_of_allocTxn (h : Holds cl a) (hrun : allocTxn operation cl = some (.ok id, cl')) :
    a.Fits cnt (.allocTxn operation) := by
  unfold allocTxn at hrun
  rw [bind_ok (readLog_apply (by decide))] at hrun
  obtain ⟨⟨b, data⟩, cl₁, hfind, hrun₁⟩ := bind_eq_ok hrun
  obtain ⟨t, cl₂, htxn, hrun₂⟩ := bind_eq_ok hrun₁
  cases htxn
  obtain ⟨_, cl₃, -, hrun₃⟩ := bind_eq_ok hrun₂
  obtain ⟨_, cl₄, hoff, hrun₄⟩ := bind_eq_ok hrun₃
  obtain ⟨_, cl₅, -, hrun₅⟩ := bind_eq_ok hrun₄
  obtain ⟨_, cl₆, hset, -⟩ := bind_eq_ok hrun₅
  obtain ⟨_, cl₇, hname, -⟩ := bind_eq_ok hset
  obtain ⟨hfound, hsame⟩ := ofOption_eq_ok hfind
  have hin := (of_require hoff).1
  have hlen := (of_require hname).1
  rw [hsame, h.txns, txnOffset_eq] at hin
  rw [length_operationBytes, operationOffset] at hlen
  exact ⟨used_lt_of_find h.bitmap hfound, by omega, by omega⟩

theorem used_le_of_finds {data : List UInt8} {used n : ℕ} {out : List ℕ × List UInt8} (hlen : data.length = 4096)
    (h : Sequential data used) (hu : used ≤ 1023) (hfind : findFreeLogBlocks n data = some out) :
    used + n ≤ 1023 := by
  induction n generalizing data used out with
  | zero => exact hu
  | succ n ih =>
    rw [findFreeLogBlocks, Option.bind_eq_bind] at hfind
    obtain ⟨⟨b, data'⟩, hb, hrest⟩ := Option.bind_eq_some_iff.mp hfind
    have hlt := used_lt_of_find h hb
    obtain ⟨hfirst, hseq⟩ := findFreeLogBlock_sequential hlen h hlt
    cases hfirst.symm.trans hb
    obtain ⟨out', hout', -⟩ := Option.bind_eq_some_iff.mp hrest
    have hle := ih (by rw [length_mark, hlen]) hseq hlt hout'
    omega

/-- All records are inside the buffer. -/
theorem room_of_appendRecords {idx : ℕ} {buffer buffer' : List UInt8} {ops : List (BlockOperation × ℕ)}
    (hidx : idx * 10 ≤ 4096) (hrun : appendRecords idx buffer ops cl = some (.ok buffer', cl')) :
    (idx + ops.length) * 10 ≤ 4096 := by
  induction ops generalizing idx buffer cl with
  | nil => exact hidx
  | cons o ops ih =>
    rw [appendRecords] at hrun
    obtain ⟨_, cl₁, hroom, hrun₁⟩ := bind_eq_ok hrun
    obtain ⟨_, cl₂, -, hrun₂⟩ := bind_eq_ok hrun₁
    have hle := (of_require hroom).1
    unfold bytesPerLogEntry at hle
    have hrest := ih (by omega) hrun₂
    rw [List.length_cons]
    omega

theorem fits_of_appendLog (h : Holds cl a) {tx : Tx} (ht : a.txs[t]? = some tx)
    (hfew : tx.records.length ≤ 255) (hhome : ∀ op ∈ ops, op.blockId.toNat < cnt)
    (hrun : appendLog t ops cl = some (.ok (), cl')) : a.Fits cnt (.appendLog t ops) := by
  unfold appendLog at hrun
  obtain ⟨out, cl₁, halloc, hrun₁⟩ := bind_eq_ok hrun
  have halloc₁ := halloc
  unfold allocLog at halloc₁
  rw [bind_ok (readLog_apply (by decide))] at halloc₁
  obtain ⟨found, cl₂, hfound, -⟩ := bind_eq_ok halloc₁
  have hu := used_le_of_finds (length_log cl 0) h.bitmap h.apart.used (ofOption_eq_ok hfound).1
  obtain ⟨super, hfind, hlen, -, -, hinfo, -, hoff⟩ := h.finds ht hu
  cases halloc.symm.trans (allocLog_apply hfind hlen hoff)
  obtain ⟨buffer, cl₃, -, hrun₂⟩ := bind_eq_ok hrun₁
  obtain ⟨buffer', cl₄, hrecords, -⟩ := bind_eq_ok hrun₂
  rw [hinfo, Nat.mod_eq_of_lt (by omega)] at hrecords
  have hroom := room_of_appendRecords (by omega) hrecords
  rw [List.length_zip, List.length_range', Nat.min_self] at hroom
  refine ⟨hu, hhome, tx, ht, ?_⟩
  rw [Nat.mod_eq_of_lt (by omega)]
  exact hroom

theorem appendLog_due (h : Holds cl a) (hfits : a.Fits cnt (.appendLog t ops)) (hdue : Due cl ops.length) :
    ∃ cl', appendLog t ops cl = some (.ok (), cl') ∧ cl'.log 0 = List.replicate 4096 0 := by
  obtain ⟨hu, -, tx, htx, hroom⟩ := hfits
  obtain ⟨super, hfind, hlen, -, -, hinfo, hbs, hoff⟩ := h.finds htx hu
  have hblock := h.block_lt (List.mem_of_getElem? htx)
  obtain ⟨buffer, cl₁, happ, hrun⟩ := appendLog_spec hfind hlen hbs hoff (by rw [hinfo]; exact hblock)
    (by rw [hinfo]; exact hroom)
  rw [decide_eq_true hdue.1, hdue.2, Bool.and_self, if_pos rfl] at hrun
  obtain ⟨cl', hcheck, -, -, -, hlog⟩ := checkpoint_apply (cl₁.setLog (txnInfo super t).1 buffer happ.length)
  exact ⟨cl', hrun.trans hcheck, hlog 0 (by decide)⟩

theorem holds_checkpoint (cl : CommitLog cnt) : ∃ cl', checkpoint cl = some (.ok (), cl') ∧ Holds cl' ⟨0, []⟩ ∧
    Frame cl cl' ∧ cl'.logEntriesNum = 0 := by
  obtain ⟨cl', hrun, hframe, htxns, hentries, hlog⟩ := checkpoint_apply cl
  exact ⟨cl', hrun, holds_empty htxns (hlog 0 (by decide)), hframe, hentries⟩

end Calls

section Runs

variable {w w' : World cnt} {a : LogState} {tx : Tx} {k : ℕ}

def asTxn (k : ℕ) (tx : Tx) : Txn := ⟨k, [], tx.records.map Prod.fst, tx.committed⟩

/-- The transactions that have begun are those of the log. -/
structure Tracks (w : World cnt) (a : LogState) : Prop where
  holds : Holds w.log a
  enabled : w.log.isCheckpointEnabled = true
  entries : w.log.logEntriesNum < kMaxLogSize
  few : ∀ tx ∈ a.txs, tx.records.length ≤ w.log.logEntriesNum
  dense : Dense a
  txns : ∀ k, w.txns[k]? = (a.txs[k]?).map (asTxn k)

theorem Tracks.exists_tx (h : Tracks w a) {x : Txn} (hx : w.txns[k]? = some x) :
    ∃ tx, a.txs[k]? = some tx ∧ x = asTxn k tx := by
  rw [h.txns, Option.map_eq_some_iff] at hx
  obtain ⟨tx, htx, heq⟩ := hx
  exact ⟨tx, htx, heq.symm⟩

theorem Tracks.length (h : Tracks w a) : w.txns.length = a.txs.length := by
  apply Nat.le_antisymm
  · rw [← List.getElem?_eq_none_iff, h.txns, List.getElem?_eq_none (Nat.le_refl _)]
    rfl
  · rw [← List.getElem?_eq_none_iff]
    have hnone := h.txns w.txns.length
    rw [List.getElem?_eq_none (Nat.le_refl _)] at hnone
    exact Option.map_eq_none_iff.mp hnone.symm

theorem Tracks.alloc (h : Tracks w a) {operation : ServerOperation} (hstep : step w (.alloc operation) = some w') :
    Tracks w' (a.next (.allocTxn operation)) := by
  rw [step] at hstep
  split at hstep
  case h_2 => cases hstep
  case h_1 id cl hrun =>
    cases hstep
    obtain ⟨cl', hrun', hholds, hframe, hentries⟩ := holds_allocTxn h.holds (fits_of_allocTxn h.holds hrun)
    cases hrun.symm.trans hrun'
    constructor
    case holds => exact hholds
    case enabled => exact hframe.enabled.trans h.enabled
    case entries => exact hentries ▸ h.entries
    case few =>
      intro tx htx
      rw [hentries]
      obtain htx | htx := List.mem_append.mp htx
      · exact h.few tx htx
      · rw [List.mem_singleton.mp htx]
        exact Nat.zero_le _
    case dense => exact dense_allocTxn h.dense operation
    case txns =>
      intro k
      change (w.txns ++ _)[k]? = ((a.txs ++ _)[k]?).map _
      obtain hlt | hge := Nat.lt_or_ge k a.txs.length
      · rw [List.getElem?_append_left (h.length ▸ hlt), List.getElem?_append_left hlt, h.txns]
      · rw [List.getElem?_append_right (h.length ▸ hge), List.getElem?_append_right hge, h.length,
          List.getElem?_singleton, List.getElem?_singleton, h.holds.txns]
        split
        case isTrue heq =>
          obtain rfl : k = a.txs.length := by omega
          rfl
        case isFalse => rfl

theorem Tracks.set (h : Tracks w a) (htx : a.txs[k]? = some tx) {f : Tx → Tx} (x : Txn) (hx : x = asTxn k (f tx))
    (j : ℕ) : (w.txns.set k x)[j]? = ((a.txs.modify k f)[j]?).map (asTxn j) := by
  have hlt := (List.getElem?_eq_some_iff.mp htx).1
  rw [List.getElem?_modify]
  obtain rfl | hne := eq_or_ne k j
  · rw [List.getElem?_set_self (h.length ▸ hlt), htx, hx]
    simp
  · rw [List.getElem?_set_ne hne, h.txns]
    simp [hne]

theorem Tracks.append (h : Tracks w a) {ops : List BlockOperation} (hcalm : ¬ Due w.log ops.length)
    (hstep : step w (.append k ops) = some w') : Tracks w' (a.next (.appendLog k ops)) := by
  have hlt : w.log.logEntriesNum + ops.length < kMaxLogSize := by
    apply Nat.lt_of_not_le
    exact fun hdue => hcalm ⟨hdue, h.enabled⟩
  rw [step] at hstep
  split at hstep
  case h_2 => cases hstep
  case h_1 x hx =>
    obtain ⟨tx, htx, rfl⟩ := h.exists_tx hx
    split at hstep
    case isFalse => cases hstep
    case isTrue hlive =>
      simp only at hstep
      split at hstep
      case h_2 => cases hstep
      case h_1 cl hrun =>
        cases hstep
        have hrecords := h.few tx (List.mem_of_getElem? htx)
        unfold kMaxLogSize at hlt
        have hfits := fits_of_appendLog h.holds htx (by omega) hlive.2 hrun
        obtain ⟨cl', hrun', hholds, hframe, hentries⟩ := holds_appendLog h.holds hfits (Or.inr hlt)
        cases hrun.symm.trans hrun'
        constructor
        case holds => exact hholds
        case enabled => exact hframe.enabled.trans h.enabled
        case entries => exact hentries ▸ hlt
        case few =>
          intro tx' htx'
          obtain ⟨j, hj⟩ := List.getElem?_of_mem htx'
          obtain ⟨tx₀, htx₀, ⟨-, rfl⟩ | ⟨-, rfl⟩⟩ := modify_cases hj
          · have hle := h.few tx₀ (List.mem_of_getElem? htx₀)
            simp only [List.length_append, length_place]
            omega
          · exact Nat.le_trans (h.few tx' (List.mem_of_getElem? htx₀)) (hentries ▸ Nat.le_add_right _ _)
        case dense => exact dense_appendLog h.dense htx ops
        case txns =>
          refine h.set htx _ ?_
          simp only [asTxn, List.map_append, map_place]

theorem Tracks.commit (h : Tracks w a) (hstep : step w (.commit k) = some w') :
    Tracks w' (a.next (.commitLog k)) := by
  rw [step] at hstep
  split at hstep
  case h_2 => cases hstep
  case h_1 x hx =>
    obtain ⟨tx, htx, rfl⟩ := h.exists_tx hx
    split at hstep
    case isFalse => cases hstep
    case isTrue hlive =>
      split at hstep
      case h_2 => cases hstep
      case h_1 cl hrun =>
        cases hstep
        obtain ⟨cl', hrun', hholds, hframe, hentries⟩ :=
          holds_commitLog h.holds (List.getElem?_eq_some_iff.mp htx).1
        cases hrun.symm.trans hrun'
        constructor
        case holds => exact hholds
        case enabled => exact hframe.enabled.trans h.enabled
        case entries => exact hentries ▸ h.entries
        case few =>
          intro tx' htx'
          obtain ⟨j, hj⟩ := List.getElem?_of_mem htx'
          rw [hentries]
          obtain ⟨tx₀, htx₀, ⟨-, rfl⟩ | ⟨-, rfl⟩⟩ := modify_cases hj
          · exact h.few tx₀ (List.mem_of_getElem? htx₀)
          · exact h.few tx' (List.mem_of_getElem? htx₀)
        case dense => exact dense_commitLog h.dense htx
        case txns => exact h.set htx _ rfl

theorem Tracks.checkpoint (h : Tracks w a) (hcalm : ∀ x ∈ w.txns, x.committed = true)
    (hstep : step w .checkpoint = some w') : Tracks w' ⟨0, []⟩ := by
  obtain ⟨cl', hrun, hholds, hframe, hentries⟩ := holds_checkpoint w.log
  rw [step, hrun] at hstep
  cases hstep
  constructor
  case holds => exact hholds
  case enabled => exact hframe.enabled.trans h.enabled
  case entries =>
    rw [hentries]
    decide
  case few => exact nofun
  case dense => exact List.Perm.refl _
  case txns =>
    intro k
    have hnone : w.txns.filter (fun x => !x.committed) = [] := by
      rw [List.filter_eq_nil_iff]
      intro x hx
      rw [hcalm x hx]
      decide
    rw [pass, hnone]
    rfl

theorem Tracks.next (h : Tracks w a) {act : Act} (hcalm : Calm w act) (hstep : step w act = some w') :
    ∃ a', Tracks w' a' := by
  cases act with
  | alloc operation => exact ⟨_, h.alloc hstep⟩
  | append k ops => exact ⟨_, h.append hcalm hstep⟩
  | commit k => exact ⟨_, h.commit hstep⟩
  | checkpoint => exact ⟨_, h.checkpoint hcalm hstep⟩

theorem tracks_create {bm : BlockManager 4096 cnt logBlockCnt} (hbm : FreshLog bm) :
    Tracks ⟨create bm true, []⟩ ⟨0, []⟩ where
  holds := holds_create true hbm
  enabled := rfl
  entries := (by decide : 0 < kMaxLogSize)
  few := nofun
  dense := List.Perm.refl _
  txns _ := rfl

theorem Tracks.txnBlocks (h : Tracks w a) (htx : a.txs[k]? = some tx) : txnBlocks w.log k = Tx.blocks tx := by
  have hmem := List.mem_of_getElem? htx
  have hfew := h.few tx hmem
  have hentries := h.entries
  unfold kMaxLogSize at hentries
  have hinfo := h.holds.txnInfo htx
  rw [Nat.mod_eq_of_lt (by omega)] at hinfo
  rw [InFlight.txnBlocks, hinfo, Tx.blocks]
  simp only [List.cons.injEq, true_and]
  apply List.ext_getElem?
  intro i
  rw [List.getElem?_map, List.getElem?_map]
  obtain hlt | hge := Nat.lt_or_ge i tx.records.length
  · have hrec := h.holds.record tx hmem (by omega) i _ (List.getElem?_eq_getElem hlt)
    have hle := (h.holds.apart.record tx hmem _ (List.getElem_mem hlt)).2
    have hused := h.holds.apart.used
    rw [List.getElem?_range hlt, List.getElem?_eq_getElem hlt, Option.map_some, Option.map_some,
      recordBlock_eq hrec (by omega)]
  · rw [List.getElem?_eq_none (by rw [List.length_range]; exact hge), List.getElem?_eq_none hge]
    rfl

theorem Tracks.blocks (h : Tracks w a) : w.blocks = blocksOf a := by
  have hmap : (w.txns.map fun x => InFlight.txnBlocks w.log x.id) = a.txs.map Tx.blocks := by
    apply List.ext_getElem?
    intro k
    rw [List.getElem?_map, List.getElem?_map, h.txns]
    cases htx : a.txs[k]? with
    | none => rfl
    | some tx => exact congrArg some (h.txnBlocks htx)
  rw [World.blocks, blocksOf, List.flatMap_def, List.flatMap_def, hmap]

theorem Tracks.mem_blocks (h : Tracks w a) (b : ℕ) : b ∈ w.blocks ↔ 0 < b ∧ b ≤ a.used := by
  rw [h.blocks, h.dense.mem_iff, List.mem_range'_1]
  omega

theorem Tracks.wellFormed (h : Tracks w a) : WellFormed w where
  entry x hx _ := by
    obtain ⟨k, hk⟩ := List.getElem?_of_mem hx
    obtain ⟨tx, htx, rfl⟩ := h.exists_tx hk
    rw [asTxn, h.holds.txnInfo htx]
    exact (h.holds.apart.block tx (List.mem_of_getElem? htx)).1
  distinct := by
    rw [h.blocks]
    exact h.dense.nodup_iff.mpr List.nodup_range'
  inside b hb := by
    have hused := h.holds.apart.used
    rw [h.mem_blocks] at hb
    unfold logBlockCnt
    omega
  bitmap b hpos hb := by
    rw [h.holds.bitmap b hpos hb, h.mem_blocks, decide_eq_true_iff]
    exact ⟨fun hle => ⟨hpos, hle⟩, And.right⟩
  redone x hx _ hearly := by
    obtain ⟨k, hk⟩ := List.getElem?_of_mem hx
    obtain ⟨tx, -, rfl⟩ := h.exists_tx hk
    exact absurd rfl hearly

theorem not_wellFormed_of_empty {x : Txn} (hx : x ∈ w.txns) (hlive : x.committed = false)
    (hlog : w.log.log 0 = List.replicate 4096 0) : ¬ WellFormed w := by
  intro h
  have hpos := h.entry x hx hlive
  rw [hlog, txnInfo_replicate] at hpos
  exact absurd hpos (by decide)

theorem mem_pass {txns : List Txn} {x : Txn} (hx : x ∈ txns) (hlive : x.committed = false) :
    { x with early := x.early ++ x.late, late := [] } ∈ pass txns := by
  refine List.mem_map.mpr ⟨x, List.mem_filter.mpr ⟨hx, ?_⟩, rfl⟩
  rw [hlive]
  rfl

/-- A step leaves the log area well formed exactly if no checkpoint falls into a
transaction. -/
theorem Tracks.step_iff (h : Tracks w a) {act : Act} (hstep : step w act = some w') : WellFormed w' ↔ Calm w act := by
  constructor
  case mpr =>
    intro hcalm
    obtain ⟨a', ha'⟩ := h.next hcalm hstep
    exact ha'.wellFormed
  case mp =>
    intro hw
    cases act with
    | alloc | commit => trivial
    | checkpoint =>
      intro x hx
      obtain ⟨cl', hrun, -, -, -, hlog⟩ := checkpoint_apply w.log
      rw [step, hrun] at hstep
      cases hstep
      cases hlive : x.committed with
      | true => rfl
      | false =>
        exact absurd hw (not_wellFormed_of_empty (mem_pass hx hlive) hlive (hlog 0 (by decide)))
    | append k ops =>
      intro hdue
      rw [step] at hstep
      split at hstep
      case h_2 => cases hstep
      case h_1 x hx =>
        obtain ⟨tx, htx, rfl⟩ := h.exists_tx hx
        split at hstep
        case isFalse => cases hstep
        case isTrue hlive =>
          simp only at hstep
          split at hstep
          case h_2 => cases hstep
          case h_1 cl hrun =>
            cases hstep
            have hfew := h.few tx (List.mem_of_getElem? htx)
            have hentries := h.entries
            unfold kMaxLogSize at hentries
            have hfits := fits_of_appendLog h.holds htx (by omega) hlive.2 hrun
            obtain ⟨cl', hrun', hlog⟩ := appendLog_due h.holds hfits hdue
            cases hrun.symm.trans hrun'
            refine absurd hw (not_wellFormed_of_empty (mem_pass (List.mem_set ?_ _) hlive.1) hlive.1 hlog)
            rw [h.length]
            exact (List.getElem?_eq_some_iff.mp htx).1

theorem wellFormed_iff_calm {bm : BlockManager 4096 cnt logBlockCnt} (hbm : FreshLog bm)
    (hreach : Reach step Calm ⟨create bm true, []⟩ w) :
    WellFormed w ∧ ∀ act w', step w act = some w' → (WellFormed w' ↔ Calm w act) := by
  obtain ⟨a, ha⟩ : ∃ a, Tracks w a := by
    refine hreach.invariant (I := fun w => ∃ a, Tracks w a) ⟨_, tracks_create hbm⟩ ?_
    rintro u act u' ⟨a, ha⟩ hcalm hstep
    exact ha.next hcalm hstep
  exact ⟨ha.wellFormed, fun _ _ hstep => ha.step_iff hstep⟩

def zeroBlock : BlockOperation := ⟨0, List.replicate 4096 0, length_zeros⟩

def newLog : World 1 := ⟨create (BlockManager.zeroed 4096 1 logBlockCnt) true, []⟩

theorem freshLog_newLog : FreshLog (BlockManager.zeroed 4096 1 logBlockCnt) := fun _ _ => rfl

theorem exists_begun : ∃ w, step newLog (.alloc ⟨1, 1, [97]⟩) = some w ∧
    Tracks w ⟨1, [⟨⟨1, 1, [97]⟩, 1, [], false⟩]⟩ ∧ w.log.logEntriesNum = 0 := by
  have h := tracks_create freshLog_newLog
  obtain ⟨cl, hrun, -, -, hentries⟩ := @holds_allocTxn _ _ _ ⟨1, 1, [97]⟩ h.holds
    ⟨by decide, by decide, by decide⟩
  have hstep : step newLog (.alloc ⟨1, 1, [97]⟩) = some ⟨cl, [⟨0, [], [], false⟩]⟩ := by
    rw [step, newLog, hrun]
    rfl
  exact ⟨_, hstep, h.alloc hstep, hentries⟩

theorem wellFormed_begun : ∃ w, Reach step Calm newLog w ∧ w.txns.length = 1 ∧ WellFormed w := by
  obtain ⟨w, hstep, h, -⟩ := exists_begun
  have hcalm : Calm newLog (.alloc ⟨1, 1, [97]⟩) := trivial
  have hreach : Reach step Calm newLog w := Reach.refl.tail hcalm hstep
  exact ⟨w, hreach, h.length, (wellFormed_iff_calm freshLog_newLog hreach).1⟩

/-- The transaction appends 128 records at once, and its entry is gone. -/
theorem not_wellFormed_long : ∃ w, exec step newLog
    [.alloc ⟨1, 1, [97]⟩, .append 0 (List.replicate 128 zeroBlock)] = some w ∧ ¬ WellFormed w := by
  obtain ⟨w, hstep, h, hentries⟩ := exists_begun
  have hlen : (List.replicate 128 zeroBlock).length = 128 := List.length_replicate
  have hhome : ∀ op ∈ List.replicate 128 zeroBlock, op.blockId.toNat < 1 := by
    intro op hop
    rw [List.eq_of_mem_replicate hop]
    decide
  have hdue : Due w.log (List.replicate 128 zeroBlock).length := by
    refine ⟨?_, h.enabled⟩
    rw [hentries, hlen]
    decide
  have hfits : (⟨1, [⟨⟨1, 1, [97]⟩, 1, [], false⟩]⟩ : LogState).Fits 1
      (.appendLog 0 (List.replicate 128 zeroBlock)) := by
    refine ⟨?_, hhome, _, rfl, ?_⟩
    · rw [hlen]
      decide
    · rw [hlen]
      decide
  obtain ⟨cl, hrun, hlog⟩ := appendLog_due h.holds hfits hdue
  have hx : w.txns[0]? = some ⟨0, [], [], false⟩ := h.txns 0
  have hstep' : step w (.append 0 (List.replicate 128 zeroBlock)) =
      some ⟨cl, pass (w.txns.set 0 ⟨0, [], List.replicate 128 zeroBlock, false⟩)⟩ := by
    rw [step, hx]
    simp only
    rw [if_pos ⟨trivial, hhome⟩, hrun, if_pos hdue]
    rfl
  refine ⟨_, ?_, fun hw => (h.step_iff hstep').mp hw hdue⟩
  rw [exec, hstep, Option.bind_some, exec, hstep', Option.bind_some, exec]

end Runs

end Chfs.Distributed.InFlight
