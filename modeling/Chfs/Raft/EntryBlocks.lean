import Chfs.Raft.Storage

namespace Chfs.Raft.EntryBlocks

open Block.Manager Protocol Node Storage

variable {Command : Type} [ChfsCommand Command]

/-- Commands of constant size `s`, read back from the bytes they are written as. -/
structure Codec (Command : Type) [ChfsCommand Command] (s : ℕ) : Prop where
  size : ∀ c : Command, ChfsCommand.size c = s
  length : ∀ c : Command, (ChfsCommand.serialize c s).length = s
  read : ∀ (fresh c : Command) (data : List UInt8), ChfsCommand.serialize c s <+: data →
    ChfsCommand.deserialize fresh data s = c

/-- The bytes of the command that reach the words of index and term, if any,
are the bytes of these. -/
def Agrees (s : ℕ) (e : RaftLogEntry Command) : Prop :=
  ((ChfsCommand.serialize e.cmd s).drop 4000).take 8 <+: intToU8 [e.index, e.term]

section Words

theorem intOfBytes_cases (a b c d : UInt8) : InInt (intOfBytes a b c d) ∧ ∃ w : ℤ, (w = 0 ∨ w = 1) ∧
    intOfBytes a b c d =
      a.toNat * 16777216 + b.toNat * 65536 + c.toNat * 256 + d.toNat - w * 4294967296 := by
  have ha := a.toNat_lt
  have hb := b.toNat_lt
  have hc := c.toNat_lt
  have hd := d.toNat_lt
  obtain ⟨x, hx⟩ : ∃ x, x = intOfBytes a b c d := ⟨_, rfl⟩
  rw [← hx]
  unfold intOfBytes at hx
  norm_num at hx
  split at hx
  · exact ⟨⟨by omega, by omega⟩, 0, Or.inl rfl, by omega⟩
  · exact ⟨⟨by omega, by omega⟩, 1, Or.inr rfl, by omega⟩

theorem intToU8_intOfBytes (a b c d : UInt8) : intToU8 [intOfBytes a b c d] = [a, b, c, d] := by
  have ha := a.toNat_lt
  have hb := b.toNat_lt
  have hc := c.toNat_lt
  have hd := d.toNat_lt
  obtain ⟨-, w, hw, hx⟩ := intOfBytes_cases a b c d
  generalize intOfBytes a b c d = x at hx
  have h0 := intByte_toNat x 0
  have h1 := intByte_toNat x 1
  have h2 := intByte_toNat x 2
  have h3 := intByte_toNat x 3
  norm_num at h0 h1 h2 h3
  simp only [intToU8, List.flatMap_cons, List.flatMap_nil, List.append_nil, List.cons.injEq, and_true,
    ← UInt8.toNat_inj]
  omega

theorem intOfBytes_eq_iff {x : ℤ} (hx : InInt x) (a b c d : UInt8) :
    intOfBytes a b c d = x ↔ [a, b, c, d] = intToU8 [x] := by
  constructor
  · rintro rfl
    exact (intToU8_intOfBytes a b c d).symm
  · intro h
    simp only [intToU8, List.flatMap_cons, List.flatMap_nil, List.append_nil, List.cons.injEq,
      and_true] at h
    obtain ⟨rfl, rfl, rfl, rfl⟩ := h
    exact intOfBytes_intByte hx

theorem getD_u8ToInt (k : ℕ) {l : List UInt8} {a b c d : UInt8} {rest : List UInt8}
    (h : l.drop (4 * k) = a :: b :: c :: d :: rest) : (u8ToInt l).getD k 0 = intOfBytes a b c d := by
  induction k generalizing l with
  | zero =>
    rw [Nat.mul_zero, List.drop_zero] at h
    rw [h, u8ToInt, List.getD_cons_zero]
  | succ k ih =>
    have hlen : 4 * (k + 1) < l.length := by
      by_contra hle
      rw [List.drop_of_length_le (not_lt.mp hle)] at h
      cases h
    obtain ⟨x, y, z, w, l', rfl⟩ : ∃ x y z w l', l = x :: y :: z :: w :: l' := by
      obtain _ | ⟨x, _ | ⟨y, _ | ⟨z, _ | ⟨w, l'⟩⟩⟩⟩ := l
      case cons.cons.cons.cons => exact ⟨x, y, z, w, l', rfl⟩
      all_goals
        simp only [List.length_nil, List.length_cons] at hlen
        omega
    rw [u8ToInt, List.getD_cons_succ]
    apply ih
    rw [← h, show 4 * (k + 1) = 4 * k + 1 + 1 + 1 + 1 by ring]
    simp only [List.drop_succ_cons]

theorem intToU8_append (l r : List ℤ) : intToU8 (l ++ r) = intToU8 l ++ intToU8 r :=
  List.flatMap_append

theorem set_replicate (k r : ℕ) (x y : ℤ) : ((List.replicate (k + (r + 2)) 0).set k x).set (k + 1) y =
    List.replicate k 0 ++ x :: y :: List.replicate r 0 := by
  rw [List.replicate_add, List.set_append_right _ _ (by rw [List.length_replicate]), List.length_replicate,
    Nat.sub_self, List.set_append_right _ _ (by rw [List.length_replicate]; omega), List.length_replicate,
    Nat.add_sub_cancel_left]
  rfl

end Words

section Overlay

variable (data head pad : List UInt8)

theorem take_overlay_eq_iff : (data ++ (head ++ pad).drop data.length).take head.length = head ↔
    data.take head.length <+: head := by
  obtain hle | hlt := Nat.le_total head.length data.length
  · rw [List.take_append_of_le_length hle]
    constructor
    · intro h
      exact ⟨[], (List.append_nil _).trans h⟩
    · intro h
      exact h.eq_of_length (by rw [List.length_take, Nat.min_eq_left hle])
  · rw [List.take_of_length_le hlt, List.drop_append_of_le_length hlt, ← List.append_assoc,
      List.take_append_of_le_length (by rw [List.length_append, List.length_drop]; omega),
      List.take_of_length_le (by rw [List.length_append, List.length_drop]; omega),
      List.prefix_iff_eq_take]
    constructor
    · intro h
      rw [← h, List.take_left]
    · intro h
      rw [h, List.length_take, Nat.min_eq_left hlt, List.take_append_drop]

end Overlay

variable {s : ℕ} (hc : Codec Command s) (hs : s < diskBlockSize)
include hc hs

theorem logBuf_spec (e : RaftLogEntry Command) : ∃ buf, logBuf e = some buf ∧
    buf.length = diskBlockSize ∧ ChfsCommand.serialize e.cmd s <+: buf ∧
    ∃ pad, buf.drop 4000 = (ChfsCommand.serialize e.cmd s).drop 4000 ++
      (intToU8 [e.index, e.term] ++ pad).drop ((ChfsCommand.serialize e.cmd s).drop 4000).length := by
  have hlen := hc.length e.cmd
  obtain ⟨blk, hblk⟩ : ∃ blk, blk =
      intToU8 (((List.replicate (diskBlockSize / 4) 0).set 1000 e.index).set 1001 e.term) := ⟨_, rfl⟩
  have hsize : blk.length = diskBlockSize := by
    rw [hblk, length_intToU8, List.length_set, List.length_set, List.length_replicate]
    rfl
  obtain ⟨zeros, pad, hzeros, hparts⟩ : ∃ zeros pad : List UInt8, zeros.length = 4000 ∧
      blk = zeros ++ (intToU8 [e.index, e.term] ++ pad) := by
    have hwords : intToU8 (e.index :: e.term :: List.replicate 22 0) = _ :=
      intToU8_append [e.index, e.term] (List.replicate 22 0)
    refine ⟨intToU8 (List.replicate 1000 0), intToU8 (List.replicate 22 0), ?_, ?_⟩
    · rw [length_intToU8, List.length_replicate]
    · rw [hblk, show diskBlockSize / 4 = 1000 + (22 + 2) from rfl, set_replicate, intToU8_append, hwords]
  have hover : logBuf e = some (ChfsCommand.serialize e.cmd s ++ blk.drop s) := by
    unfold logBuf overlay
    rw [hc.size, ← hblk, if_pos (by rw [hlen, hsize]; omega), hlen]
  refine ⟨_, hover, ?_, List.prefix_append _ _, pad, ?_⟩
  · rw [List.length_append, List.length_drop, hlen, hsize]
    omega
  · have htail : (blk.drop s).drop (4000 - s) =
        (intToU8 [e.index, e.term] ++ pad).drop (s - 4000) := by
      rw [List.drop_drop, hparts]
      obtain hle | hle := Nat.le_total s 4000
      · rw [show s + (4000 - s) = 4000 by omega, show s - 4000 = 0 by omega, List.drop_zero,
          List.drop_left' hzeros]
      · rw [show s + (4000 - s) = 4000 + (s - 4000) by omega, ← List.drop_drop,
          List.drop_left' hzeros]
    rw [List.drop_append, List.length_drop, hlen, htail]

/-- An entry survives the way through its block exactly if its command does not
write over its index and term, or writes the same bytes. -/
theorem readEntry_logBuf_iff {e : RaftLogEntry Command} (hi : InInt e.index) (ht : InInt e.term)
    {buf : List UInt8} (hbuf : logBuf e = some buf) (fresh : Command) :
    readEntry fresh buf = e ↔ Agrees s e := by
  obtain ⟨buf', hbuf', hlen, hpre, pad, hdrop⟩ := logBuf_spec hc hs e
  obtain rfl : buf' = buf := Option.some.inj (hbuf'.symm.trans hbuf)
  have hcmd : ChfsCommand.deserialize fresh buf' (ChfsCommand.size fresh) = e.cmd := by
    rw [hc.size]
    exact hc.read fresh e.cmd buf' hpre
  have htail : (buf'.drop 4000).length = 96 := by
    rw [List.length_drop, hlen]
    rfl
  obtain ⟨a0, a1, a2, a3, a4, a5, a6, a7, rest, hbytes⟩ : ∃ a0 a1 a2 a3 a4 a5 a6 a7 rest,
      buf'.drop 4000 = a0 :: a1 :: a2 :: a3 :: a4 :: a5 :: a6 :: a7 :: rest := by
    generalize buf'.drop 4000 = l at htail
    obtain _ | ⟨a0, _ | ⟨a1, _ | ⟨a2, _ | ⟨a3, _ | ⟨a4, _ | ⟨a5, _ | ⟨a6, _ | ⟨a7, l'⟩⟩⟩⟩⟩⟩⟩⟩ := l
    case cons.cons.cons.cons.cons.cons.cons.cons => exact ⟨a0, a1, a2, a3, a4, a5, a6, a7, l', rfl⟩
    all_goals
      simp only [List.length_nil, List.length_cons] at htail
      omega
  have hindex := getD_u8ToInt 1000 hbytes
  have hterm : (u8ToInt buf').getD 1001 0 = intOfBytes a4 a5 a6 a7 := by
    apply getD_u8ToInt 1001
    rw [show 4 * 1001 = 4000 + 4 from rfl, ← List.drop_drop, hbytes]
    rfl
  have hread : readEntry fresh buf' = ⟨intOfBytes a0 a1 a2 a3, intOfBytes a4 a5 a6 a7, e.cmd⟩ := by
    unfold readEntry
    rw [hindex, hterm, hcmd]
  have height : (intToU8 [e.index, e.term]).length = 8 := length_intToU8 _
  have hsplit : intToU8 [e.index, e.term] = intToU8 [e.index] ++ intToU8 [e.term] :=
    intToU8_append [e.index] [e.term]
  have hwords : [a0, a1, a2, a3] ++ [a4, a5, a6, a7] = intToU8 [e.index] ++ intToU8 [e.term] ↔
      intOfBytes a0 a1 a2 a3 = e.index ∧ intOfBytes a4 a5 a6 a7 = e.term := by
    rw [intOfBytes_eq_iff hi, intOfBytes_eq_iff ht]
    constructor
    · intro h
      exact List.append_inj h (by rw [length_intToU8]; rfl)
    · rintro ⟨h1, h2⟩
      rw [h1, h2]
  have htake : (buf'.drop 4000).take 8 = [a0, a1, a2, a3] ++ [a4, a5, a6, a7] := by
    rw [hbytes]
    rfl
  have hover := take_overlay_eq_iff ((ChfsCommand.serialize e.cmd s).drop 4000)
    (intToU8 [e.index, e.term]) pad
  rw [← hdrop, height, htake, hsplit, hwords] at hover
  rw [Agrees, hsplit, ← hover, hread]
  generalize intOfBytes a0 a1 a2 a3 = index
  generalize intOfBytes a4 a5 a6 a7 = term
  constructor
  · intro h
    exact ⟨congrArg RaftLogEntry.index h, congrArg RaftLogEntry.term h⟩
  · rintro ⟨h1, h2⟩
    rw [h1, h2]

section Device

omit hc hs

omit [ChfsCommand Command] in
theorem write_of_works (st : RaftLog Command) (hst : st.bm.maybeFailed = false) (id : ℕ)
    {buf : List UInt8} (hid : id < defaultBlockCnt) (hbuf : buf.length = diskBlockSize) :
    st.write id buf = some { st with bm := st.bm.setBlock id buf hbuf } := by
  unfold RaftLog.write
  rw [writeBlock_apply hst hid hbuf]
  rfl

theorem restoreEntries_eq (fresh : Command) (bm : Device) (k i : ℕ)
    (hk : logStartBlockId + i + k ≤ defaultBlockCnt) : restoreEntries fresh bm k i =
      some ((List.range' i k).map fun j => readEntry fresh (bm.blocks (logStartBlockId + j))) := by
  induction k generalizing i with
  | zero => rfl
  | succ k ih =>
    have hread : readBlock (logStartBlockId + i) bm = _ := readBlock_apply bm (by omega)
    rw [restoreEntries, hread, Option.bind_eq_bind, Option.bind_some]
    simp only [Except.toOption]
    rw [Option.bind_eq_bind, Option.bind_some, ih (i + 1) (by omega), Option.bind_eq_bind,
      Option.bind_some, List.range'_succ, List.map_cons]

theorem snapshot_of_restore {fresh : Command} {bm : Device} {st : RaftLog Command}
    (h : (RaftLog.create bm).restore fresh = some (true, st)) :
    st.snapshot.length ≤ diskBlockSize := by
  have hmeta : readBlock metadataBlockId bm = _ := readBlock_apply bm (by decide)
  have hsnap : readBlock snapshotBlockId bm = _ := readBlock_apply bm (by decide)
  unfold RaftLog.restore at h
  simp only [RaftLog.create] at h
  rw [hmeta, Option.bind_eq_bind, Option.bind_some] at h
  simp only [Except.toOption] at h
  rw [Option.bind_eq_bind, Option.bind_some] at h
  split at h
  · cases h
  · rw [hsnap, Option.bind_eq_bind, Option.bind_some] at h
    simp only [Option.bind_some] at h
    split at h
    · cases h
    · obtain ⟨log, -, hst⟩ := Option.bind_eq_some_iff.mp h
      cases hst
      exact (List.length_take_le' _ _).trans (bm.length_blocks _).le

theorem restore_of_metadata (fresh : Command) {bm : Device} {st : RaftLog Command} {n m : ℕ}
    (hmeta : bm.blocks metadataBlockId = intToU8 st.metadataBuf) (hhas : st.hasLogPersisted = 1)
    (hterm : InInt st.currentTerm) (hvote : InInt st.votedFor) (hcount : st.logCount = n)
    (hn : logStartBlockId + n ≤ defaultBlockCnt) (hsize : st.snapshotSz = m)
    (hm : m ≤ diskBlockSize) : ∃ st', (RaftLog.create bm).restore fresh = some (true, st') ∧
      st'.snapshot = (bm.blocks snapshotBlockId).take m ∧
      st'.log = (List.range' 0 n).map fun j => readEntry fresh (bm.blocks (logStartBlockId + j)) := by
  have hread : readBlock metadataBlockId bm = _ := readBlock_apply bm (by decide)
  have hsnap : readBlock snapshotBlockId bm = _ := readBlock_apply bm (by decide)
  have hwords : u8ToInt (bm.blocks metadataBlockId) = st.metadataBuf := by
    rw [hmeta]
    apply u8ToInt_intToU8
    intro x hx
    unfold logStartBlockId defaultBlockCnt at hn
    unfold diskBlockSize at hm
    rw [metadataBuf_eq, hhas, hcount, hsize] at hx
    simp only [List.mem_cons] at hx
    obtain rfl | rfl | rfl | rfl | rfl | hx := hx
    · exact ⟨by decide, by decide⟩
    · exact hterm
    · exact hvote
    · exact ⟨by omega, by omega⟩
    · exact ⟨by omega, by omega⟩
    · rw [List.eq_of_mem_replicate hx]
      exact ⟨by decide, by decide⟩
  unfold RaftLog.restore
  simp only [RaftLog.create]
  rw [hread, Option.bind_eq_bind, Option.bind_some]
  simp only [Except.toOption]
  rw [Option.bind_eq_bind, Option.bind_some, hwords, metadataBuf_eq]
  simp only [List.getD_cons_zero, List.getD_cons_succ]
  rw [if_neg (by rw [hhas]; decide), hsnap, Option.bind_eq_bind, Option.bind_some]
  simp only [Option.bind_some]
  rw [hcount, hsize, Int.toNat_natCast, Int.toNat_natCast,
    if_neg (by rw [bm.length_blocks]; omega), restoreEntries_eq fresh bm n 0 (by omega),
    Option.bind_some]
  exact ⟨_, rfl, rfl, rfl⟩

end Device

theorem saveEntries_blocks (st : RaftLog Command) (hst : st.bm.maybeFailed = false) (k i : ℕ)
    (hk : i + k ≤ st.log.length) (hlog : logStartBlockId + (i + k) ≤ defaultBlockCnt) :
    ∃ bm, st.saveEntries k i = some { st with bm := bm } ∧ bm.maybeFailed = false ∧
      (∀ (j : ℕ) (e : RaftLogEntry Command), i ≤ j → j < i + k → st.log[j]? = some e →
        logBuf e = some (bm.blocks (logStartBlockId + j))) ∧
      ∀ b, b < logStartBlockId + i → bm.blocks b = st.bm.blocks b := by
  induction k generalizing st i with
  | zero => exact ⟨st.bm, rfl, hst, by omega, fun _ _ => rfl⟩
  | succ k ih =>
    have hi : i < st.log.length := by omega
    have hat : at? st.log i = some st.log[i] := by
      simp [at?]
    obtain ⟨buf, hbuf, hlen, -, -⟩ := logBuf_spec hc hs st.log[i]
    have hw := write_of_works st hst (logStartBlockId + i) (by omega) hlen
    obtain ⟨bm, hsave, hwork, hentries, hframe⟩ :=
      ih { st with bm := st.bm.setBlock (logStartBlockId + i) _ hlen } hst (i + 1)
        (by simp only; omega) (by omega)
    refine ⟨bm, ?_, hwork, ?_, ?_⟩
    · rw [RaftLog.saveEntries, hat, Option.bind_eq_bind, Option.bind_some, hbuf,
        Option.bind_eq_bind, Option.bind_some, Int.toNat_natCast, hw, Option.bind_eq_bind,
        Option.bind_some]
      exact hsave
    · intro j e hij hjk he
      obtain rfl | hlt := hij.eq_or_lt
      · rw [List.getElem?_eq_getElem hi, Option.some.injEq] at he
        rw [hframe _ (by omega), setBlock_blocks, Function.update_self, ← he, hbuf]
      · exact hentries j e hlt (by omega) he
    · intro b hb
      rw [hframe b (by omega), setBlock_blocks, Function.update_of_ne (by omega)]

/-- A log on a device that works and has room for it, in the range of the types
of its fields. -/
structure Storable (st : RaftLog Command) : Prop where
  works : st.bm.maybeFailed = false
  room : logStartBlockId + st.log.length ≤ defaultBlockCnt
  term : InInt st.currentTerm
  vote : InInt st.votedFor
  entries : ∀ e ∈ st.log, InInt e.index ∧ InInt e.term

omit hc hs [ChfsCommand Command] in
theorem Storable.count {st : RaftLog Command} (h : Storable st) :
    sizeInt st.log.length = st.log.length := by
  have hroom := h.room
  unfold logStartBlockId defaultBlockCnt at hroom
  exact sizeInt_of_le (by unfold diskBlockSize; omega)

/-- What `saveAll` leaves on the device and `restore` reads from there, for a
snapshot that fits in a block. -/
theorem saveAll_restore (fresh : Command) {st : RaftLog Command} (h : Storable st)
    (hsnap : st.snapshot.length ≤ diskBlockSize) : ∃ st₁ st₂, st.saveAll = some st₁ ∧
      (RaftLog.create st₁.bm).restore fresh = some (true, st₂) ∧ st₂.snapshot = st.snapshot ∧
      st₂.log.length = st.log.length ∧ ∀ (i : ℕ) (e : RaftLogEntry Command), st.log[i]? = some e →
        ∃ buf, logBuf e = some buf ∧ st₂.log[i]? = some (readEntry fresh buf) := by
  have hroom := h.room
  have hsize : sizeInt st.snapshot.length = st.snapshot.length := sizeInt_of_le hsnap
  have hbuf : (st.snapshot ++ List.replicate (diskBlockSize - st.snapshot.length) 0).length =
      diskBlockSize := by
    rw [List.length_append, List.length_replicate]
    omega
  have hover : overlay (st.snapshot.take (sizeInt st.snapshot.length).toNat)
      (List.replicate diskBlockSize 0) =
      some (st.snapshot ++ List.replicate (diskBlockSize - st.snapshot.length) 0) := by
    unfold overlay
    rw [hsize, Int.toNat_natCast, List.take_length, List.length_replicate, if_pos hsnap,
      List.drop_replicate]
  have h1 : st.saveSnapshot = some { st with
      hasLogPersisted := 1
      snapshotSz := st.snapshot.length
      bm := st.bm.setBlock snapshotBlockId _ hbuf } := by
    unfold RaftLog.saveSnapshot
    simp only
    rw [hover, Option.bind_eq_bind, Option.bind_some, hsize,
      write_of_works { st with hasLogPersisted := 1, snapshotSz := st.snapshot.length } h.works
        snapshotBlockId (by decide) hbuf]
  obtain ⟨bm, h2, hworks, hentries, hframe⟩ := saveEntries_blocks hc hs
    { st with
      hasLogPersisted := 1
      snapshotSz := st.snapshot.length
      logCount := st.log.length
      bm := st.bm.setBlock snapshotBlockId _ hbuf } h.works st.log.length 0 (by simp)
    (by rw [Nat.zero_add]; exact hroom)
  obtain ⟨st', hst'⟩ : ∃ st' : RaftLog Command, st' = { st with
      hasLogPersisted := 1
      snapshotSz := st.snapshot.length
      logCount := st.log.length
      bm := bm } := ⟨_, rfl⟩
  have hmeta : (intToU8 st'.metadataBuf).length = diskBlockSize := by
    rw [length_intToU8, RaftLog.metadataBuf]
    simp only [List.length_set, List.length_replicate]
    rfl
  have h3 : st'.saveMetadata = some { st' with bm := bm.setBlock metadataBlockId _ hmeta } := by
    rw [hst'] at hmeta ⊢
    exact write_of_works _ hworks metadataBlockId (by decide) hmeta
  have hall : st.saveAll = some { st' with bm := bm.setBlock metadataBlockId _ hmeta } := by
    rw [RaftLog.saveAll, h1, Option.bind_eq_bind, Option.bind_some, RaftLog.saveLogs]
    simp only
    rw [h.count, Int.toNat_natCast]
    simp only [Nat.cast_zero] at h2
    rw [h2, Option.bind_some, ← hst', h3]
  have hwords : (bm.setBlock metadataBlockId _ hmeta).blocks metadataBlockId =
      intToU8 st'.metadataBuf := by
    rw [setBlock_blocks, Function.update_self]
  obtain ⟨st₂, hrestore, hsnapshot, hlog⟩ := restore_of_metadata fresh hwords (by rw [hst'])
    (by rw [hst']; exact h.term) (by rw [hst']; exact h.vote) (by rw [hst']) hroom (by rw [hst']) hsnap
  refine ⟨_, st₂, hall, hrestore, ?_, ?_, ?_⟩
  · rw [hsnapshot, setBlock_blocks, Function.update_of_ne (by decide), hframe _ (by decide),
      setBlock_blocks, Function.update_self, List.take_left]
  · rw [hlog, List.length_map, List.length_range']
  · intro i e he
    have hi := (List.getElem?_eq_some_iff.mp he).1
    refine ⟨_, hentries i e (Nat.zero_le i) (by omega) he, ?_⟩
    rw [hlog, List.getElem?_map, List.getElem?_range' hi, Option.map_some, setBlock_blocks,
      Function.update_of_ne (by simp only [logStartBlockId, metadataBlockId]; omega), Nat.zero_add,
      Nat.one_mul]

theorem saveLogsWithRange_blocks {st : RaftLog Command} (h : Storable st) (start : ℕ)
    (hstart : start ≤ st.log.length) (endIndex : ℤ) : ∃ st₁,
      st.saveLogsWithRange start endIndex = some st₁ ∧
      ∀ (i : ℕ) (e : RaftLogEntry Command), start ≤ i → (endIndex = -1 ∨ (i : ℤ) < endIndex) →
        st.log[i]? = some e → logBuf e = some (st₁.bm.blocks (logStartBlockId + i)) := by
  have hroom := h.room
  obtain ⟨stop, hstop⟩ : ∃ stop : ℤ, stop =
      min (if endIndex = -1 then (st.log.length : ℤ) else endIndex) st.log.length := ⟨_, rfl⟩
  have hle : stop ≤ st.log.length := hstop ▸ min_le_right _ _
  obtain ⟨bm, hsave, -, hentries, -⟩ := saveEntries_blocks hc hs
    { st with hasLogPersisted := 1, logCount := st.log.length } h.works (stop - start).toNat start
    (by simp only; omega) (by omega)
  refine ⟨{ st with hasLogPersisted := 1, logCount := st.log.length, bm := bm }, ?_,
    fun i e hi hend he => hentries i e hi ?_ he⟩
  · unfold RaftLog.saveLogsWithRange
    simp only
    rw [h.count, ← hstop, hsave]
  · have hlt := (List.getElem?_eq_some_iff.mp he).1
    have : (i : ℤ) < stop := by
      rw [hstop, lt_min_iff]
      refine ⟨?_, by omega⟩
      obtain rfl | hend := hend
      · rw [if_pos rfl]
        omega
      · split <;> omega
    omega

/-- Every entry and the snapshot come back from the device: what `saveAll` wrote
is read by `restore`, and what `saveLogsWithRange` wrote for an entry of the
range is decoded to the entry. -/
structure Decoded (fresh : Command) (st : RaftLog Command) (start : ℕ) (endIndex : ℤ) : Prop where
  all : ∃ st₁ st₂, st.saveAll = some st₁ ∧
    (RaftLog.create st₁.bm).restore fresh = some (true, st₂) ∧ st₂.log = st.log ∧
    st₂.snapshot = st.snapshot
  range : ∃ st₁, st.saveLogsWithRange start endIndex = some st₁ ∧
    ∀ (i : ℕ) (e : RaftLogEntry Command), start ≤ i → (endIndex = -1 ∨ (i : ℤ) < endIndex) →
      st.log[i]? = some e → readEntry fresh (st₁.bm.blocks (logStartBlockId + i)) = e

theorem readEntry_stored_iff (fresh : Command) {st : RaftLog Command} (h : Storable st) {i : ℕ}
    {e : RaftLogEntry Command} (he : st.log[i]? = some e) {buf : List UInt8} (hbuf : logBuf e = some buf) :
    readEntry fresh buf = e ↔ Agrees s e := by
  obtain ⟨hindex, hterm⟩ := h.entries e (List.mem_of_getElem? he)
  exact readEntry_logBuf_iff hc hs hindex hterm hbuf fresh

theorem Decoded.agrees {fresh : Command} {st : RaftLog Command} (h : Storable st) {start : ℕ}
    {endIndex : ℤ} (hd : Decoded fresh st start endIndex) :
    (∀ e ∈ st.log, Agrees s e) ∧ st.snapshot.length ≤ diskBlockSize := by
  obtain ⟨⟨st₁, st₂, hsave, hrestore, hlog, hsnapshot⟩, -⟩ := hd
  have hsnap : st.snapshot.length ≤ diskBlockSize := hsnapshot ▸ snapshot_of_restore hrestore
  refine ⟨fun e he => ?_, hsnap⟩
  obtain ⟨st₁', st₂', hsave', hrestore', -, -, hentries⟩ := saveAll_restore hc hs fresh h hsnap
  cases hsave.symm.trans hsave'
  cases hrestore.symm.trans hrestore'
  obtain ⟨i, hi⟩ := List.mem_iff_getElem?.mp he
  obtain ⟨buf, hbuf, hread⟩ := hentries i e hi
  rw [hlog, hi] at hread
  exact (readEntry_stored_iff hc hs fresh h hi hbuf).mp (Option.some.inj hread).symm

/-- The device gives everything back exactly if no command writes over the index
and the term behind it with other bytes and the snapshot fits in its block. -/
theorem decoded_iff_agrees (fresh : Command) {st : RaftLog Command} (h : Storable st) {start : ℕ}
    (hstart : start ≤ st.log.length) (endIndex : ℤ) : Decoded fresh st start endIndex ↔
      (∀ e ∈ st.log, Agrees s e) ∧ st.snapshot.length ≤ diskBlockSize := by
  refine ⟨Decoded.agrees hc hs h, ?_⟩
  rintro ⟨hagrees, hsnap⟩
  have hread : ∀ (i : ℕ) (e : RaftLogEntry Command), st.log[i]? = some e → ∀ buf,
      logBuf e = some buf → readEntry fresh buf = e := by
    intro i e he buf hbuf
    exact (readEntry_stored_iff hc hs fresh h he hbuf).mpr (hagrees e (List.mem_of_getElem? he))
  constructor
  case all =>
    obtain ⟨st₁, st₂, hsave, hrestore, hsnapshot, hlen, hentries⟩ :=
      saveAll_restore hc hs fresh h hsnap
    refine ⟨st₁, st₂, hsave, hrestore, ?_, hsnapshot⟩
    apply List.ext_getElem?
    intro i
    obtain hlt | hle := Nat.lt_or_ge i st.log.length
    · have hi := List.getElem?_eq_getElem hlt
      obtain ⟨buf, hbuf, hsome⟩ := hentries i _ hi
      rw [hsome, hi, hread i _ hi buf hbuf]
    · rw [List.getElem?_eq_none hle, List.getElem?_eq_none (hlen ▸ hle)]
  case range =>
    obtain ⟨st₁, hsave, hblocks⟩ := saveLogsWithRange_blocks hc hs h start hstart endIndex
    exact ⟨st₁, hsave, fun i e hi hend he => hread i e he _ (hblocks i e hi hend he)⟩

omit hc hs

structure RunCommand (k : ℕ) where
  byte : UInt8
  deriving DecidableEq

instance (k : ℕ) : ChfsCommand (RunCommand k) where
  ofInt x := ⟨intByte x 3⟩
  size _ := k + 1
  serialize c sz := List.replicate sz.toNat c.byte
  deserialize _ data _ := ⟨data.headD 0⟩

theorem codec_runCommand (k : ℕ) : Codec (RunCommand k) (k + 1) where
  size _ := rfl
  length c := List.length_replicate
  read := by
    rintro fresh c data ⟨pad, rfl⟩
    rfl

def oneEntry (k : ℕ) (byte : UInt8) : RaftLog (RunCommand k) :=
  { (RaftLog.create (BlockManager.zeroed _ _ _) : RaftLog (RunCommand k)) with
    log := [⟨1, 1, ⟨byte⟩⟩] }

theorem storable_oneEntry (k : ℕ) (byte : UInt8) : Storable (oneEntry k byte) where
  works := rfl
  room := (by decide : logStartBlockId + 1 ≤ defaultBlockCnt)
  term := ⟨(by decide : (-2147483648 : ℤ) ≤ 0), (by decide : (0 : ℤ) < 2147483648)⟩
  vote := ⟨(by decide : (-2147483648 : ℤ) ≤ 0), (by decide : (0 : ℤ) < 2147483648)⟩
  entries := by
    intro e he
    have hone : InInt 1 := ⟨by decide, by decide⟩
    cases List.mem_singleton.mp he
    exact ⟨hone, hone⟩

theorem decoded_oneEntry : Decoded ⟨0⟩ (oneEntry 7 255) 0 (-1) := by
  refine (decoded_iff_agrees (codec_runCommand 7) (by decide) ⟨0⟩ (storable_oneEntry 7 255)
    (Nat.zero_le _) (-1)).mpr ⟨?_, Nat.zero_le _⟩
  intro e he
  cases List.mem_singleton.mp he
  exact List.nil_prefix

/-- A command of 4004 bytes takes the place of the index. -/
theorem not_decoded_oneEntry : Codec (RunCommand 4003) 4004 ∧ 4004 < diskBlockSize ∧
    Storable (oneEntry 4003 255) ∧ ¬ Decoded ⟨0⟩ (oneEntry 4003 255) 0 (-1) := by
  refine ⟨codec_runCommand 4003, by decide, storable_oneEntry 4003 255, fun hd => ?_⟩
  have h := (hd.agrees (codec_runCommand 4003) (by decide) (storable_oneEntry 4003 255)).1 _
    List.mem_cons_self
  have hdrop : ((List.replicate 4004 (255 : UInt8)).drop 4000).take 8 = [255, 255, 255, 255] := by
    rw [List.drop_replicate, List.take_replicate]
    rfl
  have hpre : [255, 255, 255, 255] <+: intToU8 [1, 1] := hdrop ▸ h
  exact absurd hpre (by decide)

end Chfs.Raft.EntryBlocks
