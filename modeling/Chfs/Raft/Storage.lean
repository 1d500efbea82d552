import Chfs.Block.Manager
import Chfs.Raft.Node

/-! `RaftLog` (`rsm/raft/log.h`): the persistent fields of a node on a block
device. -/

namespace Chfs.Raft.Storage

open Lib.Effect Block.Manager Protocol Node

def diskBlockSize : ℕ := 4096

def defaultBlockCnt : ℕ := 4096

def metadataBlockId : ℕ := 1

def snapshotBlockId : ℕ := 2

def logStartBlockId : ℕ := 3

abbrev Device : Type := BlockManager diskBlockSize defaultBlockCnt 0

def sizeInt (k : ℕ) : ℤ := (k : ℤ).bmod (2 ^ 32)

structure RaftLog (Command : Type) where
  bm : Device
  hasLogPersisted : ℤ
  currentTerm : ℤ
  votedFor : ℤ
  logCount : ℤ
  log : List (RaftLogEntry Command)
  snapshotSz : ℤ
  snapshot : List UInt8

def u8ToInt : List UInt8 → List ℤ
  | a :: b :: c :: d :: rest => intOfBytes a b c d :: u8ToInt rest
  | _ => []

def intToU8 (vec : List ℤ) : List UInt8 :=
  vec.flatMap fun tmp => [intByte tmp 0, intByte tmp 1, intByte tmp 2, intByte tmp 3]

variable {Command : Type}

/-- The constructor. The `int` members are indeterminate until `restore` sets
them. -/
def RaftLog.create (bm : Device) : RaftLog Command where
  bm := bm
  hasLogPersisted := 0
  currentTerm := 0
  votedFor := 0
  logCount := 0
  log := []
  snapshotSz := 0
  snapshot := []

/-- `bm_->write_block(..)`, whose result is not looked at. -/
def RaftLog.write (st : RaftLog Command) (id : ℕ) (buf : List UInt8) : Option (RaftLog Command) :=
  (writeBlock id buf st.bm).map fun out => { st with bm := out.2 }

def RaftLog.metadataBuf (st : RaftLog Command) : List ℤ :=
  (((((List.replicate (diskBlockSize / 4) 0).set 0 st.hasLogPersisted).set 1 st.currentTerm).set 2
    st.votedFor).set 3 st.logCount).set 4 st.snapshotSz

def RaftLog.saveMetadata (st : RaftLog Command) : Option (RaftLog Command) :=
  let st := { st with hasLogPersisted := 1 }
  st.write metadataBlockId (intToU8 st.metadataBuf)

def overlay (data buf : List UInt8) : Option (List UInt8) :=
  if data.length ≤ buf.length then some (data ++ buf.drop data.length) else none

def RaftLog.saveSnapshot (st : RaftLog Command) : Option (RaftLog Command) := do
  let st := { st with hasLogPersisted := 1, snapshotSz := sizeInt st.snapshot.length }
  let ssbuf ← overlay (st.snapshot.take st.snapshotSz.toNat) (List.replicate diskBlockSize 0)
  st.write snapshotBlockId ssbuf

section Log

variable [ChfsCommand Command]

/-- The block of one log entry: its command in front, index and term in the
words 1000 and 1001. -/
def logBuf (e : RaftLogEntry Command) : Option (List UInt8) :=
  overlay (ChfsCommand.serialize e.cmd (ChfsCommand.size e.cmd))
    (intToU8 (((List.replicate (diskBlockSize / 4) 0).set 1000 e.index).set 1001 e.term))

def RaftLog.saveEntries : ℕ → ℤ → RaftLog Command → Option (RaftLog Command)
  | 0, _, st => some st
  | k + 1, i, st => do
    let e ← at? st.log i
    let buf ← logBuf e
    let st ← st.write (logStartBlockId + i.toNat) buf
    st.saveEntries k (i + 1)

def RaftLog.saveLogs (st : RaftLog Command) : Option (RaftLog Command) :=
  let st := { st with hasLogPersisted := 1, logCount := sizeInt st.log.length }
  st.saveEntries st.logCount.toNat 0

def RaftLog.saveLogsWithRange (st : RaftLog Command) (startIndex endIndex : ℤ) :
    Option (RaftLog Command) :=
  let st := { st with hasLogPersisted := 1, logCount := sizeInt st.log.length }
  let endIndex := if endIndex = -1 then st.logCount else endIndex
  let endIndex := min endIndex st.logCount
  st.saveEntries (endIndex - startIndex).toNat startIndex

def RaftLog.saveAll (st : RaftLog Command) : Option (RaftLog Command) := do
  let st ← st.saveSnapshot
  let st ← st.saveLogs
  st.saveMetadata

def RaftLog.update (st : RaftLog Command) : StorageOp Command → Option (RaftLog Command)
  | .updateMeta currentTerm votedFor =>
    { st with currentTerm := currentTerm, votedFor := votedFor }.saveMetadata
  | .updateSnapshot snapshot => do
    let st ← { st with snapshot := snapshot }.saveSnapshot
    st.saveMetadata
  | .updateLogs log => do
    let st ← { st with log := log }.saveLogs
    st.saveMetadata
  | .updateLogsWithRange log startIndex endIndex => do
    let st ← { st with log := log }.saveLogsWithRange startIndex endIndex
    st.saveMetadata

/-- An entry read back; `fresh` is the default constructed command, whose value
is indeterminate. -/
def readEntry (fresh : Command) (logbuf : List UInt8) : RaftLogEntry Command where
  index := (u8ToInt logbuf).getD 1000 0
  term := (u8ToInt logbuf).getD 1001 0
  cmd := ChfsCommand.deserialize fresh logbuf (ChfsCommand.size fresh)

def restoreEntries (fresh : Command) (bm : Device) : ℕ → ℕ → Option (List (RaftLogEntry Command))
  | 0, _ => some []
  | k + 1, i => do
    let (logbuf, _) ← readBlock (logStartBlockId + i) bm
    let logbuf ← logbuf.toOption
    let rest ← restoreEntries fresh bm k (i + 1)
    some (readEntry fresh logbuf :: rest)

def RaftLog.restore (fresh : Command) (st : RaftLog Command) : Option (Bool × RaftLog Command) := do
  let (buffer, _) ← readBlock metadataBlockId st.bm
  let intbuf := u8ToInt (← buffer.toOption)
  let st := { st with
    hasLogPersisted := intbuf.getD 0 0
    currentTerm := intbuf.getD 1 0
    votedFor := intbuf.getD 2 0
    logCount := intbuf.getD 3 0
    snapshotSz := intbuf.getD 4 0 }
  if st.hasLogPersisted = 0 then some (false, st) else
    let (ssbuf, _) ← readBlock snapshotBlockId st.bm
    let ssbuf ← ssbuf.toOption
    if ssbuf.length < st.snapshotSz.toNat then none else
      let log ← restoreEntries fresh st.bm st.logCount.toNat 0
      some (true, { st with snapshot := ssbuf.take st.snapshotSz.toNat, log := log })

end Log

def InInt (x : ℤ) : Prop := -2147483648 ≤ x ∧ x < 2147483648

instance (x : ℤ) : Decidable (InInt x) := inferInstanceAs (Decidable (_ ∧ _))

theorem intByte_toNat (x : ℤ) (i : ℕ) :
    ((intByte x i).toNat : ℤ) = x / 2 ^ (8 * (3 - i)) % 256 := by
  unfold intByte
  have h0 := Int.emod_nonneg (x / 2 ^ (8 * (3 - i))) (by decide : (256 : ℤ) ≠ 0)
  have h1 := Int.emod_lt_of_pos (x / 2 ^ (8 * (3 - i))) (by decide : (0 : ℤ) < 256)
  rw [UInt8.toNat_ofNat']
  omega

theorem intOfBytes_intByte {x : ℤ} (h : InInt x) :
    intOfBytes (intByte x 0) (intByte x 1) (intByte x 2) (intByte x 3) = x := by
  obtain ⟨hlo, hhi⟩ := h
  unfold intOfBytes
  simp only [intByte_toNat]
  norm_num
  split <;> omega

theorem u8ToInt_intToU8 {vec : List ℤ} (h : ∀ x ∈ vec, InInt x) : u8ToInt (intToU8 vec) = vec := by
  induction vec with
  | nil => rfl
  | cons x vec ih =>
    have hvec : intToU8 (x :: vec) =
        intByte x 0 :: intByte x 1 :: intByte x 2 :: intByte x 3 :: intToU8 vec := rfl
    rw [hvec, u8ToInt, intOfBytes_intByte (h x List.mem_cons_self),
      ih fun y hy => h y (List.mem_cons_of_mem x hy)]

theorem intToU8_replicate (k : ℕ) : intToU8 (List.replicate k 0) = List.replicate (4 * k) 0 := by
  induction k with
  | zero => rfl
  | succ k ih =>
    rw [List.replicate_succ, show 4 * (k + 1) = 4 * k + 1 + 1 + 1 + 1 from rfl]
    simp only [List.replicate_succ]
    rw [← ih]
    rfl

theorem length_intToU8 (vec : List ℤ) : (intToU8 vec).length = 4 * vec.length := by
  simp [intToU8, List.length_flatMap, Nat.mul_comm]

/-- The fields that survive a restart. -/
structure Saved (Command : Type) where
  currentTerm : ℤ
  votedFor : ℤ
  log : List (RaftLogEntry Command)
  snapshot : List UInt8

def RaftLog.saved {Command : Type} (st : RaftLog Command) : Saved Command :=
  ⟨st.currentTerm, st.votedFor, st.log, st.snapshot⟩

def EntryFits (e : RaftLogEntry ListCommand) : Prop :=
  InInt e.index ∧ InInt e.term ∧ InInt e.cmd.value

instance (e : RaftLogEntry ListCommand) : Decidable (EntryFits e) := inferInstanceAs (Decidable (_ ∧ _))

structure Saved.Typed (p : Saved ListCommand) : Prop where
  term : InInt p.currentTerm
  vote : InInt p.votedFor
  entries : ∀ e ∈ p.log, EntryFits e

structure Saved.Room (p : Saved Command) : Prop where
  log : logStartBlockId + p.log.length ≤ defaultBlockCnt
  snapshot : p.snapshot.length ≤ diskBlockSize

instance (p : Saved Command) : Decidable p.Room :=
  decidable_of_iff (logStartBlockId + p.log.length ≤ defaultBlockCnt ∧ p.snapshot.length ≤ diskBlockSize)
    ⟨fun h => ⟨h.1, h.2⟩, fun h => ⟨h.log, h.snapshot⟩⟩

structure Saved.Fits (p : Saved ListCommand) : Prop extends p.Typed, p.Room

theorem sizeInt_of_le {k : ℕ} (h : k ≤ diskBlockSize) : sizeInt k = k := by
  unfold sizeInt
  unfold diskBlockSize at h
  rw [Int.bmod_def]
  omega

theorem sizeInt_log {log : List (RaftLogEntry ListCommand)}
    (h : logStartBlockId + log.length ≤ defaultBlockCnt) : sizeInt log.length = log.length := by
  apply sizeInt_of_le
  unfold logStartBlockId defaultBlockCnt at h
  unfold diskBlockSize
  omega

def logWords (e : RaftLogEntry ListCommand) : List ℤ :=
  ((e.cmd.value :: List.replicate 1023 0).set 1000 e.index).set 1001 e.term

theorem length_logWords (e : RaftLogEntry ListCommand) : (logWords e).length = 1024 := by
  rw [logWords, List.length_set, List.length_set, List.length_cons, List.length_replicate]

theorem getD_logWords (e : RaftLogEntry ListCommand) :
    (logWords e).getD 1000 0 = e.index ∧ (logWords e).getD 1001 0 = e.term := by
  have hlen : (e.cmd.value :: List.replicate 1023 0).length = 1024 := by
    rw [List.length_cons, List.length_replicate]
  unfold logWords
  constructor
  · rw [List.getD_eq_getElem?_getD, List.getElem?_set_ne (by decide),
      List.getElem?_set_self (by rw [hlen]; decide), Option.getD_some]
  · rw [List.getD_eq_getElem?_getD, List.getElem?_set_self (by rw [List.length_set, hlen]; decide),
      Option.getD_some]

theorem logBuf_eq (e : RaftLogEntry ListCommand) : logBuf e = some (intToU8 (logWords e)) := by
  have hwords : ((List.replicate (diskBlockSize / 4) (0 : ℤ)).set 1000 e.index).set 1001 e.term =
      0 :: ((List.replicate 1023 0).set 999 e.index).set 1000 e.term := rfl
  unfold logBuf overlay
  rw [if_pos, hwords]
  · rfl
  · rw [length_intToU8, List.length_set, List.length_set, List.length_replicate]
    exact (by decide : 4 ≤ 4 * (diskBlockSize / 4))

theorem mem_logWords {e : RaftLogEntry ListCommand} {x : ℤ} (h : x ∈ logWords e) :
    x = e.cmd.value ∨ x = 0 ∨ x = e.index ∨ x = e.term := by
  obtain h | h := List.mem_or_eq_of_mem_set h
  · obtain h | h := List.mem_or_eq_of_mem_set h
    · obtain h | h := List.mem_cons.mp h
      · exact Or.inl h
      · exact Or.inr (Or.inl (List.eq_of_mem_replicate h))
    · exact Or.inr (Or.inr (Or.inl h))
  · exact Or.inr (Or.inr (Or.inr h))

theorem readEntry_logBuf {e : RaftLogEntry ListCommand} (he : EntryFits e) {buf : List UInt8}
    (h : logBuf e = some buf) (fresh : ListCommand) : readEntry fresh buf = e := by
  obtain ⟨hi, ht, hv⟩ := he
  cases (logBuf_eq e).symm.trans h
  have hwords : u8ToInt (intToU8 (logWords e)) = logWords e := by
    apply u8ToInt_intToU8
    intro x hx
    obtain rfl | rfl | rfl | rfl := mem_logWords hx
    · exact hv
    · exact ⟨by decide, by decide⟩
    · exact hi
    · exact ht
  have hcmd : ChfsCommand.deserialize fresh (intToU8 (logWords e)) (ChfsCommand.size fresh) =
      e.cmd := by
    change ListCommand.mk (intOfBytes (intByte e.cmd.value 0) (intByte e.cmd.value 1)
      (intByte e.cmd.value 2) (intByte e.cmd.value 3)) = e.cmd
    rw [intOfBytes_intByte hv]
  unfold readEntry
  rw [hwords, hcmd, (getD_logWords e).1, (getD_logWords e).2]

structure HoldsLog (st : RaftLog ListCommand) : Prop where
  count : st.logCount = st.log.length
  entries : ∀ (i : ℕ) (e : RaftLogEntry ListCommand), st.log[i]? = some e →
    logBuf e = some (st.bm.blocks (logStartBlockId + i))

structure HoldsSnapshot (st : RaftLog ListCommand) : Prop where
  size : st.snapshotSz = st.snapshot.length
  image : ∃ pad, st.bm.blocks snapshotBlockId = st.snapshot ++ pad

/-- The device holds the members of the `RaftLog`. -/
structure Persisted (st : RaftLog ListCommand) : Prop where
  works : st.bm.maybeFailed = false
  has : st.hasLogPersisted = 1
  metadata : st.bm.blocks metadataBlockId = intToU8 st.metadataBuf
  log : HoldsLog st
  snapshot : HoldsSnapshot st
  fits : st.saved.Fits

section Write

variable (st : RaftLog ListCommand) (hst : st.bm.maybeFailed = false)
include hst

theorem write_eq (id : ℕ) {buf : List UInt8} (hid : id < defaultBlockCnt)
    (hbuf : buf.length = diskBlockSize) :
    st.write id buf = some { st with bm := st.bm.setBlock id buf hbuf } := by
  unfold RaftLog.write
  rw [writeBlock_apply hst hid hbuf]
  rfl

theorem saveEntries_spec (k i : ℕ) (hk : i + k ≤ st.log.length)
    (hlog : logStartBlockId + st.log.length ≤ defaultBlockCnt) :
    ∃ bm, st.saveEntries k i = some { st with bm := bm } ∧ bm.maybeFailed = false ∧
      (∀ (j : ℕ) (e : RaftLogEntry ListCommand), i ≤ j → j < i + k → st.log[j]? = some e →
        logBuf e = some (bm.blocks (logStartBlockId + j))) ∧
      ∀ b, b < logStartBlockId + i → bm.blocks b = st.bm.blocks b := by
  induction k generalizing st i with
  | zero => exact ⟨st.bm, rfl, hst, by omega, fun _ _ => rfl⟩
  | succ k ih =>
    have hi : i < st.log.length := by omega
    have hat : at? st.log i = some st.log[i] := by
      simp [at?]
    have hlen : (intToU8 (logWords st.log[i])).length = diskBlockSize := by
      rw [length_intToU8, length_logWords]
      rfl
    have hw := write_eq st hst (logStartBlockId + i) (by omega) hlen
    obtain ⟨bm, hs, hwork, hentries, hframe⟩ :=
      ih { st with bm := st.bm.setBlock (logStartBlockId + i) _ hlen } hst (i + 1)
        (by simp only; omega) hlog
    refine ⟨bm, ?_, hwork, ?_, ?_⟩
    · rw [RaftLog.saveEntries, hat, Option.bind_eq_bind, Option.bind_some, logBuf_eq,
        Option.bind_eq_bind, Option.bind_some, Int.toNat_natCast, hw, Option.bind_eq_bind,
        Option.bind_some]
      exact hs
    · intro j e hij hjk he
      obtain rfl | hlt := hij.eq_or_lt
      · rw [List.getElem?_eq_getElem hi, Option.some.injEq] at he
        rw [hframe _ (by omega), setBlock_blocks, Function.update_self, ← he, logBuf_eq]
      · exact hentries j e hlt (by omega) he
    · intro b hb
      rw [hframe b (by omega), setBlock_blocks, Function.update_of_ne (by omega)]

theorem saveMetadata_spec (hlog : HoldsLog st) (hsnap : HoldsSnapshot st) (hfits : st.saved.Fits) :
    ∃ st', st.saveMetadata = some st' ∧ Persisted st' ∧ st'.saved = st.saved := by
  have hlen : (intToU8 { st with hasLogPersisted := 1 }.metadataBuf).length = diskBlockSize := by
    rw [length_intToU8, RaftLog.metadataBuf]
    simp only [List.length_set, List.length_replicate]
    rfl
  have hw := write_eq { st with hasLogPersisted := 1 } hst metadataBlockId (by decide) hlen
  refine ⟨_, hw, ?_, rfl⟩
  constructor
  case works => exact hst
  case has => rfl
  case metadata => rw [setBlock_blocks, Function.update_self]; rfl
  case log =>
    refine ⟨hlog.count, fun i e he => ?_⟩
    rw [setBlock_blocks, Function.update_of_ne (by simp only [logStartBlockId, metadataBlockId]; omega)]
    exact hlog.entries i e he
  case snapshot =>
    refine ⟨hsnap.size, ?_⟩
    rw [setBlock_blocks, Function.update_of_ne (by decide)]
    exact hsnap.image
  case fits => exact hfits

theorem saveSnapshot_spec (hlen : st.snapshot.length ≤ diskBlockSize) :
    ∃ st', st.saveSnapshot = some st' ∧ st'.bm.maybeFailed = false ∧ HoldsSnapshot st' ∧
      (HoldsLog st → HoldsLog st') ∧ st'.saved = st.saved := by
  have hsize : sizeInt st.snapshot.length = st.snapshot.length := sizeInt_of_le hlen
  have hbuf : (st.snapshot ++ List.replicate (diskBlockSize - st.snapshot.length) 0).length =
      diskBlockSize := by
    rw [List.length_append, List.length_replicate]
    omega
  have hover : overlay (st.snapshot.take (sizeInt st.snapshot.length).toNat)
      (List.replicate diskBlockSize 0) =
      some (st.snapshot ++ List.replicate (diskBlockSize - st.snapshot.length) 0) := by
    unfold overlay
    rw [hsize, Int.toNat_natCast, List.take_length, List.length_replicate, if_pos hlen,
      List.drop_replicate]
  have hw := write_eq
    { st with hasLogPersisted := 1, snapshotSz := sizeInt st.snapshot.length } hst
    snapshotBlockId (by decide) hbuf
  unfold RaftLog.saveSnapshot
  simp only
  rw [hover, Option.bind_eq_bind, Option.bind_some]
  refine ⟨_, hw, hst, ?_, fun hlog => ⟨hlog.count, fun i e he => ?_⟩, rfl⟩
  · constructor
    case size =>
      simp only
      exact hsize
    case image =>
      rw [setBlock_blocks, Function.update_self]
      exact ⟨_, rfl⟩
  · rw [setBlock_blocks, Function.update_of_ne (by simp only [logStartBlockId, snapshotBlockId]; omega)]
    exact hlog.entries i e he

/-- Writing the entries from `start` on completes a log whose first entries are
on the device already. -/
theorem saveFrom_spec (start : ℕ) (hstart : start ≤ st.log.length)
    (hlog : logStartBlockId + st.log.length ≤ defaultBlockCnt)
    (hkept : ∀ (i : ℕ) (e : RaftLogEntry ListCommand), i < start → st.log[i]? = some e →
      logBuf e = some (st.bm.blocks (logStartBlockId + i))) :
    ∃ st', { st with hasLogPersisted := 1, logCount := sizeInt st.log.length }.saveEntries
        (st.log.length - start) start = some st' ∧
      st'.bm.maybeFailed = false ∧ HoldsLog st' ∧ (HoldsSnapshot st → HoldsSnapshot st') ∧
      st'.saved = st.saved := by
  obtain ⟨bm, hs, hwork, hentries, hframe⟩ := saveEntries_spec
    { st with hasLogPersisted := 1, logCount := sizeInt st.log.length } hst
    (st.log.length - start) start (by simp only; omega) hlog
  have hsize := sizeInt_log hlog
  refine ⟨_, hs, hwork, ?_, fun hsnap => ⟨hsnap.size, ?_⟩, rfl⟩
  · constructor
    case count =>
      simp only
      exact hsize
    case entries =>
      intro i e he
      have hi := (List.getElem?_eq_some_iff.mp he).1
      by_cases hlt : i < start
      · rw [hframe _ (by omega)]
        exact hkept i e hlt he
      · exact hentries i e (by omega) (by simp only at hi ⊢; omega) he
  · rw [hframe _ (by simp only [logStartBlockId, snapshotBlockId]; omega)]
    exact hsnap.image

theorem saveLogs_spec (hlog : logStartBlockId + st.log.length ≤ defaultBlockCnt) :
    ∃ st', st.saveLogs = some st' ∧ st'.bm.maybeFailed = false ∧ HoldsLog st' ∧
      (HoldsSnapshot st → HoldsSnapshot st') ∧ st'.saved = st.saved := by
  obtain ⟨st', hs, h⟩ := saveFrom_spec st hst 0 (Nat.zero_le _) hlog (by omega)
  refine ⟨st', ?_, h⟩
  unfold RaftLog.saveLogs
  simp only
  rw [sizeInt_log hlog, Int.toNat_natCast, ← sizeInt_log hlog]
  exact hs

theorem saveAll_spec (hfits : st.saved.Fits) :
    ∃ st', st.saveAll = some st' ∧ Persisted st' ∧ st'.saved = st.saved := by
  obtain ⟨st₁, h1, hwork, hsnap, -, hsaved⟩ := saveSnapshot_spec st hst hfits.snapshot
  rw [← hsaved] at hfits
  obtain ⟨st₂, h2, hwork, hlog, hkeep, hsaved'⟩ := saveLogs_spec st₁ hwork hfits.log
  rw [← hsaved'] at hfits
  obtain ⟨st', h3, hst', hsaved''⟩ := saveMetadata_spec st₂ hwork hlog (hkeep hsnap) hfits
  refine ⟨st', ?_, hst', hsaved''.trans (hsaved'.trans hsaved)⟩
  rw [RaftLog.saveAll, h1, Option.bind_eq_bind, Option.bind_some, h2, Option.bind_some, h3]

end Write

/-- What a call of the node stores, given the saved fields before and after the
handler that makes it. -/
def Stores (p q : Saved ListCommand) : StorageOp ListCommand → Prop
  | .updateMeta currentTerm votedFor => currentTerm = q.currentTerm ∧ votedFor = q.votedFor
  | .updateSnapshot snapshot => snapshot = q.snapshot
  | .updateLogs log => log = q.log
  | .updateLogsWithRange log startIndex endIndex => log = q.log ∧ endIndex = log.length ∧
    ∃ start : ℕ, startIndex = start ∧ start ≤ log.length ∧ log.take start = p.log.take start

def Saved.assign (p : Saved Command) : StorageOp Command → Saved Command
  | .updateMeta currentTerm votedFor =>
    { p with currentTerm := currentTerm, votedFor := votedFor }
  | .updateSnapshot snapshot => { p with snapshot := snapshot }
  | .updateLogs log => { p with log := log }
  | .updateLogsWithRange log _ _ => { p with log := log }

theorem update_spec {st : RaftLog ListCommand} (hst : Persisted st) {p q : Saved ListCommand}
    (hlog : st.log = p.log ∨ st.log = q.log) (hq : q.Fits) {op : StorageOp ListCommand}
    (hop : Stores p q op) : ∃ st', st.update op = some st' ∧ Persisted st' ∧
      st'.saved = st.saved.assign op := by
  cases op with
  | updateMeta currentTerm votedFor =>
    obtain ⟨rfl, rfl⟩ := hop
    obtain ⟨st', hs, hst', hsaved⟩ := saveMetadata_spec
      { st with currentTerm := q.currentTerm, votedFor := q.votedFor } hst.works
      ⟨hst.log.count, hst.log.entries⟩ ⟨hst.snapshot.size, hst.snapshot.image⟩
      ⟨⟨hq.term, hq.vote, hst.fits.entries⟩, ⟨hst.fits.log, hst.fits.snapshot⟩⟩
    exact ⟨st', hs, hst', hsaved⟩
  | updateSnapshot snapshot =>
    obtain rfl : snapshot = q.snapshot := hop
    obtain ⟨st₁, h1, hwork, hsnap, hkeep, hsaved⟩ := saveSnapshot_spec
      { st with snapshot := q.snapshot } hst.works hq.snapshot
    have hfits : st₁.saved.Fits := by
      rw [hsaved]
      exact ⟨⟨hst.fits.term, hst.fits.vote, hst.fits.entries⟩, ⟨hst.fits.log, hq.snapshot⟩⟩
    obtain ⟨st', h2, hst', hsaved'⟩ := saveMetadata_spec st₁ hwork
      (hkeep ⟨hst.log.count, hst.log.entries⟩) hsnap hfits
    refine ⟨st', ?_, hst', hsaved'.trans hsaved⟩
    rw [RaftLog.update, h1, Option.bind_eq_bind, Option.bind_some, h2]
  | updateLogs log =>
    obtain rfl : log = q.log := hop
    obtain ⟨st₁, h1, hwork, hlog₁, hkeep, hsaved⟩ := saveLogs_spec
      { st with log := q.log } hst.works hq.log
    have hfits : st₁.saved.Fits := by
      rw [hsaved]
      exact ⟨⟨hst.fits.term, hst.fits.vote, hq.entries⟩, ⟨hq.log, hst.fits.snapshot⟩⟩
    obtain ⟨st', h2, hst', hsaved'⟩ := saveMetadata_spec st₁ hwork hlog₁
      (hkeep ⟨hst.snapshot.size, hst.snapshot.image⟩) hfits
    refine ⟨st', ?_, hst', hsaved'.trans hsaved⟩
    rw [RaftLog.update, h1, Option.bind_eq_bind, Option.bind_some, h2]
  | updateLogsWithRange log startIndex endIndex =>
    obtain ⟨rfl, rfl, start, rfl, hstart, htake⟩ := hop
    -- entries below `start` are on the device whether or not the log was stored before
    have hkept : ∀ (i : ℕ) (e : RaftLogEntry ListCommand), i < start → q.log[i]? = some e →
        logBuf e = some (st.bm.blocks (logStartBlockId + i)) := by
      intro i e hi he
      apply hst.log.entries i e
      obtain hp | hq := hlog
      · rw [hp, ← List.getElem?_take_of_lt hi, ← htake, List.getElem?_take_of_lt hi, he]
      · rw [hq, he]
    obtain ⟨st₁, h1, hwork, hlog₁, hkeep, hsaved⟩ := saveFrom_spec
      { st with log := q.log } hst.works start hstart hq.log hkept
    have hfits : st₁.saved.Fits := by
      rw [hsaved]
      exact ⟨⟨hst.fits.term, hst.fits.vote, hq.entries⟩, ⟨hq.log, hst.fits.snapshot⟩⟩
    obtain ⟨st', h2, hst', hsaved'⟩ := saveMetadata_spec st₁ hwork hlog₁
      (hkeep ⟨hst.snapshot.size, hst.snapshot.image⟩) hfits
    refine ⟨st', ?_, hst', hsaved'.trans hsaved⟩
    have hs : { st with log := q.log }.saveLogsWithRange start q.log.length = some st₁ := by
      have hcnt : ((q.log.length : ℤ) - start).toNat = q.log.length - start := by omega
      unfold RaftLog.saveLogsWithRange
      simp only
      rw [if_neg (by omega), sizeInt_log hq.log, min_self, hcnt, ← sizeInt_log hq.log]
      exact h1
    rw [RaftLog.update, hs, Option.bind_eq_bind, Option.bind_some, h2]

def RaftLog.updates [ChfsCommand Command] :
    List (StorageOp Command) → RaftLog Command → Option (RaftLog Command)
  | [], st => some st
  | op :: ops, st => (st.update op).bind (RaftLog.updates ops)

theorem updates_spec {st : RaftLog ListCommand} (hst : Persisted st) {p q : Saved ListCommand}
    (hlog : st.log = p.log ∨ st.log = q.log) (hq : q.Fits) {ops : List (StorageOp ListCommand)}
    (hops : ∀ op ∈ ops, Stores p q op) : ∃ st', st.updates ops = some st' ∧ Persisted st' ∧
      st'.saved = ops.foldl Saved.assign st.saved := by
  induction ops generalizing st with
  | nil => exact ⟨st, rfl, hst, rfl⟩
  | cons op ops ih =>
    have hop := hops op List.mem_cons_self
    obtain ⟨st₁, h1, hst₁, hsaved⟩ := update_spec hst hlog hq hop
    have hlog₁ : st₁.log = p.log ∨ st₁.log = q.log := by
      have heq : st₁.log = (st.saved.assign op).log := congrArg Saved.log hsaved
      cases op with
      | updateMeta | updateSnapshot => exact heq ▸ hlog
      | updateLogs => exact Or.inr (heq.trans hop)
      | updateLogsWithRange => exact Or.inr (heq.trans hop.1)
    obtain ⟨st', h2, hst', hsaved'⟩ := ih hst₁ hlog₁ fun o ho => hops o (List.mem_cons_of_mem op ho)
    refine ⟨st', ?_, hst', ?_⟩
    · rw [RaftLog.updates, h1, Option.bind_some, h2]
    · rw [hsaved', hsaved, List.foldl_cons]

theorem restoreEntries_spec {st : RaftLog ListCommand} (hst : Persisted st) (fresh : ListCommand)
    (k i : ℕ) (hk : i + k = st.log.length) :
    restoreEntries fresh st.bm k i = some (st.log.drop i) := by
  induction k generalizing i with
  | zero =>
    rw [restoreEntries, List.drop_of_length_le (by omega)]
  | succ k ih =>
    have hi : i < st.log.length := by omega
    have hlog := hst.fits.log
    have hread : readBlock (logStartBlockId + i) st.bm = _ := readBlock_apply st.bm
      (by change logStartBlockId + st.log.length ≤ _ at hlog; omega)
    rw [restoreEntries, hread, Option.bind_eq_bind, Option.bind_some]
    simp only [Except.toOption]
    rw [Option.bind_eq_bind, Option.bind_some, ih (i + 1) (by omega), Option.bind_eq_bind,
      Option.bind_some, readEntry_logBuf (hst.fits.entries _ (List.getElem_mem hi))
        (hst.log.entries i _ (List.getElem?_eq_getElem hi)), List.getElem_cons_drop]

theorem metadataBuf_eq (st : RaftLog Command) : st.metadataBuf =
    st.hasLogPersisted :: st.currentTerm :: st.votedFor :: st.logCount :: st.snapshotSz ::
      List.replicate 1019 0 := rfl

theorem metadataBuf_inInt {st : RaftLog ListCommand} (hst : Persisted st) :
    ∀ x ∈ st.metadataBuf, InInt x := by
  have hlog := hst.fits.log
  have hsnap := hst.fits.snapshot
  unfold RaftLog.saved logStartBlockId defaultBlockCnt at hlog
  unfold RaftLog.saved diskBlockSize at hsnap
  simp only at hlog hsnap
  intro x hx
  rw [metadataBuf_eq] at hx
  simp only [List.mem_cons] at hx
  obtain rfl | rfl | rfl | rfl | rfl | hx := hx
  · rw [hst.has]
    exact ⟨by decide, by decide⟩
  · exact hst.fits.term
  · exact hst.fits.vote
  · rw [hst.log.count]
    exact ⟨by omega, by omega⟩
  · rw [hst.snapshot.size]
    exact ⟨by omega, by omega⟩
  · rw [List.eq_of_mem_replicate hx]
    exact ⟨by decide, by decide⟩

theorem restore_of_persisted {st : RaftLog ListCommand} (hst : Persisted st) (fresh : ListCommand) :
    (RaftLog.create st.bm).restore fresh = some (true, st) := by
  have hmeta : readBlock metadataBlockId st.bm = _ := readBlock_apply st.bm (by decide)
  have hsnap : readBlock snapshotBlockId st.bm = _ := readBlock_apply st.bm (by decide)
  rw [hst.metadata] at hmeta
  obtain ⟨pad, hpad⟩ := hst.snapshot.image
  have hlen : st.snapshot.length ≤ (st.bm.blocks snapshotBlockId).length := by
    rw [hpad, List.length_append]
    omega
  have hentries := restoreEntries_spec hst fresh st.log.length 0 (by omega)
  unfold RaftLog.restore
  simp only [RaftLog.create]
  rw [hmeta, Option.bind_eq_bind, Option.bind_some]
  simp only [Except.toOption]
  rw [Option.bind_eq_bind, Option.bind_some, u8ToInt_intToU8 (metadataBuf_inInt hst), metadataBuf_eq]
  simp only [List.getD_cons_zero, List.getD_cons_succ]
  rw [if_neg (by rw [hst.has]; decide), hsnap, Option.bind_eq_bind, Option.bind_some]
  simp only [Option.bind_some]
  rw [if_neg (by rw [hst.snapshot.size]; omega), hst.log.count, Int.toNat_natCast, hentries,
    Option.bind_some, List.drop_zero, hpad, hst.snapshot.size, Int.toNat_natCast, List.take_left,
    ← hst.snapshot.size, ← hst.log.count]

theorem restore_zeroed [ChfsCommand Command] (fresh : Command) :
    (RaftLog.create (BlockManager.zeroed _ _ _)).restore fresh =
      some (false, RaftLog.create (BlockManager.zeroed _ _ _)) := by
  have hread : readBlock metadataBlockId
      (BlockManager.zeroed diskBlockSize defaultBlockCnt 0) =
      some (.ok (intToU8 (List.replicate 1024 0)), BlockManager.zeroed _ _ _) := by
    rw [readBlock_apply _ (by decide), intToU8_replicate]
    rfl
  have hwords : u8ToInt (intToU8 (List.replicate 1024 0)) = List.replicate 1024 0 := by
    apply u8ToInt_intToU8
    intro x hx
    rw [List.eq_of_mem_replicate hx]
    exact ⟨by decide, by decide⟩
  unfold RaftLog.restore
  simp only [RaftLog.create]
  rw [hread, Option.bind_eq_bind, Option.bind_some]
  simp only [Except.toOption]
  rw [Option.bind_eq_bind, Option.bind_some, hwords]
  rfl

end Chfs.Raft.Storage
