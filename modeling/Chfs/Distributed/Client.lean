import Chfs.Distributed.Ownership
import Mathlib.Data.Finset.Card

/-! `ChfsClient` (`distributed/client.cc`): reading and writing regular files. -/

namespace Chfs.Distributed.Client

open Lib.Effect Lib.Bytes Lib.Run Lib.Ledger Block.Manager Fs.Operations Fs.Files BlockMap DataServer Requests
  Listing Ownership

variable {logCnt : ℕ}

def readBlocks (ms : MetadataServer) (size : ℕ) : List BlockInfo → ℕ → ℕ → Cl logCnt (List UInt8 × ℕ)
  | [], _, readSz => pure ([], readSz)
  | info :: rest, offset, readSz => do
    if size ≤ readSz then pure ([], readSz)
    else if 4096 ≤ offset then readBlocks ms size rest (offset - 4096) readSz
    else
      let readLen := min (4096 - offset) (size - readSz)
      require (1 ≤ info.machineId ∧ info.machineId ≤ ms.numDataServers)
      let readResp ← call info.machineId (readData info.blockId offset readLen info.version)
      if readResp.length ≠ readLen then refuse .done
      else
        let (more, readSz) ← readBlocks ms size rest 0 (readSz + readLen)
        pure (readResp ++ more, readSz)

def readFile (ms : MetadataServer) (id offset size : ℕ) : Cl logCnt (List UInt8) := do
  let blockMap ← ms.getBlockMap id
  let (ret, readSz) ← readBlocks ms size blockMap offset 0
  if readSz ≠ size then refuse .done else pure ret

/-- The loop of `write_file` that asks for `k` more blocks. The random numbers
of the metadata server are those of `gen` from `i` on. -/
def allocateBlocks (ms : MetadataServer) (gen : ℕ → ℕ) (id now : ℕ) : ℕ → ℕ → Cl logCnt (List BlockInfo)
  | 0, _ => pure []
  | k + 1, i => do
    let info ← ms.allocateBlock id (gen i) now
    let rest ← allocateBlocks ms gen id now k (i + 1)
    pure (info :: rest)

def writeBlocks (ms : MetadataServer) : List BlockInfo → ℕ → List UInt8 → Cl logCnt (List UInt8)
  | [], _, data => pure data
  | info :: rest, offset, data => do
    if data = [] then pure []
    else if 4096 ≤ offset then writeBlocks ms rest (offset - 4096) data
    else
      let writeLen := min (4096 - offset) (data.length % 2 ^ 32)
      require (1 ≤ info.machineId ∧ info.machineId ≤ ms.numDataServers)
      if ← call info.machineId (writeData info.blockId offset (data.take writeLen)) then
        writeBlocks ms rest 0 (data.drop writeLen)
      else refuse .badResponse

def writeFile (ms : MetadataServer) (gen : ℕ → ℕ) (now id offset : ℕ) (data : List UInt8) :
    Cl logCnt Unit := do
  let blockMap ← ms.getBlockMap id
  let originSize := blockMap.length * 4096
  let more ← allocateBlocks ms gen id now (calculateBlockSz (offset + data.length - originSize) 4096) 0
  let left ← writeBlocks ms (blockMap ++ more) offset data
  if left = [] then pure () else refuse .badResponse

def content (c : Cluster logCnt) (l : List BlockInfo) : List UInt8 :=
  l.flatMap fun info => (c.servers info.machineId).blocks info.blockId

section Content

variable {ms : MetadataServer} {c c' : Cluster logCnt} {l : List BlockInfo} {info : BlockInfo}

@[simp]
theorem content_cons : content c (info :: l) =
    (c.servers info.machineId).blocks info.blockId ++ content c l := List.flatMap_cons

theorem content_append (l l' : List BlockInfo) : content c (l ++ l') = content c l ++ content c l' :=
  List.flatMap_append

theorem length_content (c : Cluster logCnt) (l : List BlockInfo) : (content c l).length = l.length * 4096 := by
  induction l with
  | nil => rfl
  | cons info l ih =>
    rw [content_cons, List.length_append, ih, (c.servers info.machineId).length_blocks, List.length_cons]
    omega

theorem content_congr (h : ∀ info ∈ l, (c'.servers info.machineId).blocks info.blockId =
    (c.servers info.machineId).blocks info.blockId) : content c' l = content c l := by
  induction l with
  | nil => rfl
  | cons info l ih =>
    rw [content_cons, content_cons, h info List.mem_cons_self,
      ih fun info hinfo => h info (List.mem_cons_of_mem _ hinfo)]

theorem readBlocks_spec (hl : ∀ info ∈ l, InUse ms c.servers (pair info) ∧
    (version (c.servers info.machineId) info.blockId).toNat = info.version) (size offset readSz : ℕ) :
    readBlocks ms size l offset readSz c = some (.ok (slice (content c l) offset (size - readSz),
      readSz + (slice (content c l) offset (size - readSz)).length), c) := by
  induction l generalizing offset readSz with
  | nil =>
    rw [readBlocks, pure_apply]
    simp [slice, content]
  | cons info l ih =>
    obtain ⟨hused, hv⟩ := hl info List.mem_cons_self
    obtain ⟨hm, hb, ha⟩ := inUse_pair.mp hused
    have hrest := ih fun info hinfo => hl info (List.mem_cons_of_mem _ hinfo)
    have hlen := (c.servers info.machineId).length_blocks info.blockId
    rw [readBlocks, content_cons]
    by_cases hdone : size ≤ readSz
    · rw [if_pos hdone, pure_apply, Nat.sub_eq_zero_of_le hdone]
      rfl
    rw [if_neg hdone]
    by_cases hskip : 4096 ≤ offset
    · rw [if_pos hskip, hrest, slice_append_right (by omega), hlen]
    rw [if_neg hskip, require_of hm, bind_ok (pure_apply ())]
    have hread : call info.machineId (readData info.blockId offset
        (min (4096 - offset) (size - readSz)) info.version) c =
        some (.ok (slice ((c.servers info.machineId).blocks info.blockId) offset
          (min (4096 - offset) (size - readSz))), c) := by
      apply call_self
      rw [Versions.readData_eq hb.2, if_pos ⟨ha, hv⟩, if_pos (by omega)]
    have hcut : (slice ((c.servers info.machineId).blocks info.blockId) offset
        (min (4096 - offset) (size - readSz))).length = min (4096 - offset) (size - readSz) :=
      length_slice (by omega)
    rw [bind_ok hread, if_neg (by rw [hcut]; exact fun h => h rfl), bind_ok (hrest _ _)]
    simp only [pure_apply]
    have hleft : size - (readSz + min (4096 - offset) (size - readSz)) = size - readSz - (4096 - offset) := by
      omega
    rw [slice_append_left (by omega : offset ≤ ((c.servers info.machineId).blocks info.blockId).length),
      List.length_append, hlen, hcut, hleft, Nat.add_assoc]

theorem take_min_length (data : List UInt8) (k : ℕ) : data.take (min k data.length) = data.take k := by
  rw [← List.take_take, List.take_length]

theorem drop_min_length (data : List UInt8) (k : ℕ) : data.drop (min k data.length) = data.drop k := by
  obtain hle | hge := Nat.le_total k data.length
  · rw [Nat.min_eq_left hle]
  · rw [Nat.min_eq_right hge, List.drop_length, List.drop_of_length_le hge]

/-- What a list of blocks gives a client: they are in use, and no two are the
same. -/
structure Writable (ms : MetadataServer) (c : Cluster logCnt) (l : List BlockInfo) : Prop where
  works : ∀ m, (c.servers m).maybeFailed = false
  used : ∀ info ∈ l, InUse ms c.servers (pair info)
  nodup : (l.map pair).Nodup

theorem call_writeData {offset : ℕ} {buffer : List UInt8} (hworks : ∀ m, (c.servers m).maybeFailed = false)
    (hused : InUse ms c.servers (pair info)) (hfit : offset + buffer.length ≤ 4096) : ∃ s : Server,
      call info.machineId (writeData info.blockId offset buffer) c =
        some (.ok true, { c with servers := Function.update c.servers info.machineId s }) ∧
      s.maybeFailed = false ∧
      (∀ m b, version (Function.update c.servers info.machineId s m) b = version (c.servers m) b) ∧
      ∀ m b, (Function.update c.servers info.machineId s m).blocks b = if (m, b) = pair info then
        splice ((c.servers info.machineId).blocks info.blockId) offset buffer else (c.servers m).blocks b := by
  obtain ⟨-, hb, ha⟩ := inUse_pair.mp hused
  obtain ⟨s, hwrite, hs, hblocks⟩ := writeData_ok (hworks info.machineId) hb.1 hb.2 hfit ha
  refine ⟨s, call_apply hwrite, hs, fun m b => ?_, fun m b => ?_⟩
  · by_cases heq : m = info.machineId
    · rw [heq, Function.update_self, version_writeData (hworks _) hwrite]
    · rw [Function.update_of_ne heq]
  · by_cases heq : m = info.machineId
    · rw [heq, Function.update_self, hblocks]
      by_cases hb' : b = info.blockId
      · rw [hb', Function.update_self]
        exact (if_pos rfl).symm
      · rw [Function.update_of_ne hb', if_neg (by simp [pair, hb'])]
    · rw [Function.update_of_ne heq, if_neg (by simp [pair, heq])]

theorem writeBlocks_spec (hl : Writable ms c l) (offset : ℕ) (data : List UInt8)
    (hle : offset + data.length ≤ l.length * 4096) (hlt : data.length < 2 ^ 32) :
    ∃ c', writeBlocks ms l offset data c = some (.ok [], c') ∧ c'.device = c.device ∧
      (∀ m, (c'.servers m).maybeFailed = false) ∧ content c' l = splice (content c l) offset data ∧
      ∀ m b, (m, b) ∉ l.map pair → (c'.servers m).blocks b = (c.servers m).blocks b := by
  induction l generalizing c offset data with
  | nil =>
    rw [List.length_nil, Nat.zero_mul] at hle
    have hnil : data = [] := List.eq_nil_of_length_eq_zero (by omega)
    exact ⟨c, by rw [writeBlocks, hnil, pure_apply], rfl, hl.works, by simp [hnil, content, splice],
      fun _ _ _ => rfl⟩
  | cons info l ih =>
    obtain ⟨hm, hb, ha⟩ := inUse_pair.mp (hl.used info List.mem_cons_self)
    obtain ⟨hnot, hnodup⟩ := List.nodup_cons.mp hl.nodup
    have hlen := (c.servers info.machineId).length_blocks info.blockId
    have htail : Writable ms c l :=
      ⟨hl.works, fun info hinfo => hl.used info (List.mem_cons_of_mem _ hinfo), hnodup⟩
    rw [List.length_cons] at hle
    rw [writeBlocks]
    by_cases hdone : data = []
    · rw [if_pos hdone, pure_apply]
      refine ⟨c, rfl, rfl, hl.works, ?_, fun _ _ _ => rfl⟩
      rw [hdone]
      simp [splice]
    rw [if_neg hdone]
    by_cases hskip : 4096 ≤ offset
    · rw [if_pos hskip]
      obtain ⟨c', hrun, hdev, hworks, hcontent, hframe⟩ := ih htail (offset - 4096) data (by omega) hlt
      refine ⟨c', hrun, hdev, hworks, ?_, fun m b hmb => hframe m b fun h => hmb (List.mem_cons_of_mem _ h)⟩
      rw [content_cons, content_cons, hcontent, hframe _ _ hnot, splice_append_right (by omega), hlen]
    rw [if_neg hskip, require_of hm, bind_ok (pure_apply ()), Nat.mod_eq_of_lt hlt]
    rw [take_min_length, drop_min_length]
    have hfit : offset + (data.take (4096 - offset)).length ≤ 4096 := by
      rw [List.length_take]
      omega
    obtain ⟨s, hwrite, hs, hversion, hblocks⟩ := call_writeData hl.works (hl.used info List.mem_cons_self) hfit
    rw [bind_ok hwrite, if_pos rfl]
    have htail' : Writable ms { c with servers := Function.update c.servers info.machineId s } l := by
      refine ⟨fun m => ?_, fun info' hinfo' => ?_, hnodup⟩
      · by_cases heq : m = info.machineId
        · simp only [heq, Function.update_self, hs]
        · simp only [Function.update_of_ne heq, hl.works m]
      · obtain ⟨h1, h2, h3⟩ := inUse_pair.mp (htail.used info' hinfo')
        refine ⟨h1, h2, ?_⟩
        rw [Versions.allocated_iff] at h3 ⊢
        rw [← hversion] at h3
        exact h3
    -- the other blocks are as before
    have hother : ∀ m b, (m, b) ≠ pair info →
        (Function.update c.servers info.machineId s m).blocks b = (c.servers m).blocks b :=
      fun m b hne => (hblocks m b).trans (if_neg hne)
    have hsame : content { c with servers := Function.update c.servers info.machineId s } l = content c l := by
      refine content_congr fun info' hinfo' => hother _ _ fun heq => hnot ?_
      exact heq ▸ List.mem_map_of_mem hinfo'
    obtain ⟨c', hrun, hdev, hworks, hcontent, hframe⟩ := ih htail' 0 (data.drop (4096 - offset))
      (by rw [List.length_drop]; omega) (by rw [List.length_drop]; omega)
    refine ⟨c', hrun, hdev, hworks, ?_, fun m b hmb => ?_⟩
    · have hhead : (c'.servers info.machineId).blocks info.blockId =
          splice ((c.servers info.machineId).blocks info.blockId) offset (data.take (4096 - offset)) := by
        rw [hframe _ _ hnot]
        exact (hblocks _ _).trans (if_pos rfl)
      rw [content_cons, content_cons, hhead, hcontent, hsame, splice_append_left (by omega), hlen]
    · rw [List.map_cons, List.mem_cons, not_or] at hmb
      exact (hframe m b hmb.2).trans (hother m b hmb.1)

end Content

section Write

variable {ms : MetadataServer} {ids : Set ℕ} {bid : ℕ → ℕ} {ls : ℕ → List BlockInfo}
  {c c' : Cluster logCnt} {id : ℕ}

theorem blocks_granted (m b m' b' : ℕ) (hb' : 1 ≤ b') :
    ((granted c m b).servers m').blocks b' =
      if (m', b') = (m, b) then List.replicate 4096 0 else (c.servers m').blocks b' := by
  rw [servers_granted]
  by_cases hm : m' = m
  · rw [hm, Function.update_self]
    unfold handedOut changed
    rw [setBlock_blocks, setBlock_blocks]
    by_cases hb : b' = b
    · rw [hb, Function.update_self, if_pos rfl]
    · rw [Function.update_of_ne hb, Function.update_of_ne (by omega), if_neg (by simp [hb])]
  · rw [Function.update_of_ne hm, if_neg (by simp [hm])]

theorem content_granted {m b : ℕ} (h : Owns ms c.servers ids ls) (hid : id ∈ ids)
    (hfree : allocated (c.servers m) b = false) : content (granted c m b) (ls id) = content c (ls id) := by
  refine content_congr fun info hinfo => ?_
  obtain ⟨-, hb, ha⟩ := inUse_pair.mp (h.balanced.listed id hid _ (List.mem_map_of_mem hinfo))
  rw [blocks_granted _ _ _ _ hb.1, if_neg]
  intro heq
  cases heq
  rw [hfree] at ha
  cases ha

theorem content_written (b : ℕ) (inode : List UInt8) (hlen : inode.length = 4096) (l : List BlockInfo) :
    content (written c b inode hlen) l = content c l := rfl

/-- Between the two states a block is handed out once at most. -/
def Bumped (c c' : Cluster logCnt) : Prop := ∀ m b,
  version (c'.servers m) b = version (c.servers m) b ∨
  (allocated (c.servers m) b = false ∧ version (c'.servers m) b = version (c.servers m) b + 1)

theorem Bumped.trans {c'' : Cluster logCnt} (h : Bumped c c') (h' : Bumped c' c'') : Bumped c c'' := by
  intro m b
  obtain hsame | ⟨hfree, hnext⟩ := h m b
  · have hmid : allocated (c'.servers m) b = allocated (c.servers m) b := by
      rw [Bool.eq_iff_iff, Versions.allocated_iff, Versions.allocated_iff, hsame]
    have hlast := h' m b
    rwa [hsame, hmid] at hlast
  · -- once handed out, it is not free
    have hused : allocated (c'.servers m) b = true := by
      have heven : ¬ (version (c.servers m) b).toNat % 2 = 1 := by
        rw [← Versions.allocated_iff, hfree]
        decide
      have hval : (version (c.servers m) b + 1).toNat = ((version (c.servers m) b).toNat + 1) % 256 :=
        UInt8.toNat_add _ _
      rw [Versions.allocated_iff, hnext, hval]
      omega
    obtain hsame | ⟨hfree', -⟩ := h' m b
    · exact Or.inr ⟨hfree, hsame.trans hnext⟩
    · rw [hused] at hfree'
      cases hfree'

theorem bumped_granted {m b : ℕ} (hb : 1 ≤ b) (hlt : b < 4096) (hfree : allocated (c.servers m) b = false) :
    Bumped c (granted c m b) := by
  intro m' b'
  rw [version_granted hb hlt]
  split
  case isTrue heq =>
    cases heq
    exact Or.inr ⟨hfree, rfl⟩
  case isFalse => exact Or.inl rfl

theorem allocateBlocks_spec (hl : Lists c ids bid ls) (ho : Owns ms c.servers ids ls) (hid : id ∈ ids)
    {gen : ℕ → ℕ} {now k i : ℕ} {r : Except ErrorType (List BlockInfo)}
    (h : allocateBlocks ms gen id now k i c = some (r, c')) :
    ∃ news, r = .ok news ∧ news.length = k ∧ Lists c' ids bid (Function.update ls id (ls id ++ news)) ∧
      Owns ms c'.servers ids (Function.update ls id (ls id ++ news)) ∧
      content c' (ls id ++ news) = content c (ls id) ++ List.replicate (k * 4096) 0 ∧ Bumped c c' ∧
      (∀ id' ∈ ids, id' ≠ id → content c' (ls id') = content c (ls id')) ∧
      c'.device.blocks 0 = c.device.blocks 0 := by
  induction k generalizing c c' ls i r with
  | zero =>
    cases h
    refine ⟨[], rfl, rfl, ?_, ?_, by simp, fun _ _ => Or.inl rfl, fun _ _ _ => rfl, rfl⟩
    · rwa [List.append_nil, Function.update_eq_self]
    · rwa [List.append_nil, Function.update_eq_self]
  | succ k ih =>
    rw [allocateBlocks] at h
    cases hrun : ms.allocateBlock id (gen i) now c with
    | none =>
      change (Option.bind _ _) = _ at h
      rw [hrun] at h
      cases h
    | some out =>
      obtain ⟨r', c₁⟩ := out
      obtain ⟨m, b, h1, h2, h3, h4, hfree, -, rfl, -, inode, hlen, hm, rfl⟩ :=
        allocateBlock_cases hl.works hl.located hid (hl.maps id hid) hrun
      rw [bind_ok hrun] at h
      have hserved : Lists (granted c m b) ids bid ls := hl.serve (hl.works m)
      have hl₁ := hserved.write hid hlen hm
      have ho₁ := ho.grant hid ⟨h1, h2⟩ ⟨h3, h4⟩ hfree
      generalize hinfo : (⟨b, m, (version (c.servers m) b + 1).toNat⟩ : BlockInfo) = info at h hl₁ ho₁
      cases hrest : allocateBlocks ms gen id now k (i + 1) (written (granted c m b) (bid id) inode hlen) with
      | none =>
        change (Option.bind _ _) = _ at h
        rw [hrest] at h
        cases h
      | some out =>
        obtain ⟨r'', c₂⟩ := out
        obtain ⟨news, rfl, hnews, hl₂, ho₂, hcontent, hbumped, hothers, hsuper⟩ := ih hl₁ ho₁ hrest
        rw [bind_ok hrest, pure_apply] at h
        cases h
        rw [Function.update_self, Function.update_idem, List.append_assoc, List.singleton_append] at hl₂ ho₂
        rw [Function.update_self, List.append_assoc, List.singleton_append, content_written,
          content_append (ls id) [info], content_granted ho hid hfree] at hcontent
        have hfirst : Bumped c (written (granted c m b) (bid id) inode hlen) := bumped_granted h3 h4 hfree
        refine ⟨info :: news, rfl, by rw [List.length_cons, hnews], hl₂, ho₂, ?_, hfirst.trans hbumped,
          fun id' hid' hne => ?_, hsuper.trans ?_⟩
        · have hzero : content (granted c m b) [info] = List.replicate 4096 0 := by
            rw [content_cons, ← hinfo]
            simp only
            rw [blocks_granted _ _ _ _ h3, if_pos rfl]
            exact List.append_nil _
          rw [hcontent, hzero, List.append_assoc, List.replicate_append_replicate, Nat.succ_mul, Nat.add_comm]
        · have hsame := hothers id' hid' hne
          rw [Function.update_of_ne hne, content_written, content_granted ho hid' hfree] at hsame
          exact hsame
        · have hpos := (hl.located.data id hid).1
          have hstart := dataStart_pos layout
          exact Function.update_of_ne (by omega) _ _

theorem content_trimmed (l : List BlockInfo) : content c (l.map trimmed) = content c l := by
  induction l with
  | nil => rfl
  | cons info l ih =>
    rw [List.map_cons, content_cons, content_cons, ih]
    rfl

theorem content_trimmed_append (l l' : List BlockInfo) :
    content c (l.map trimmed ++ l') = content c (l ++ l') := by
  rw [content_append, content_trimmed, content_append]

theorem map_pair_trimmed (l : List BlockInfo) : (l.map trimmed).map pair = l.map pair := by
  rw [List.map_map]
  rfl

/-- What a call of `write_file` leaves: the file has grown by the blocks `news`,
which are empty, and the data is written over its bytes. -/
structure Written (ms : MetadataServer) (ids : Set ℕ) (bid : ℕ → ℕ) (ls : ℕ → List BlockInfo)
    (c c' : Cluster logCnt) (id offset : ℕ) (data : List UInt8) (news : List BlockInfo) : Prop where
  lists : Lists c' ids bid (Function.update ls id (ls id ++ news))
  owns : Owns ms c'.servers ids (Function.update ls id (ls id ++ news))
  room : offset + data.length ≤ (ls id ++ news).length * 4096
  bytes : content c' (ls id ++ news) =
    splice (content c (ls id) ++ List.replicate (news.length * 4096) 0) offset data
  bumped : Bumped c c'
  others : ∀ id' ∈ ids, id' ≠ id → content c' (ls id') = content c (ls id')
  super : c'.device.blocks 0 = c.device.blocks 0

theorem writeFile_written (hl : Lists c ids bid ls) (ho : Owns ms c.servers ids ls) (hid : id ∈ ids)
    {gen : ℕ → ℕ} {now offset : ℕ} {data : List UInt8} {c₁ : Cluster logCnt} {news : List BlockInfo}
    (hrun : allocateBlocks ms gen id now
      (calculateBlockSz (offset + data.length - (ls id).length * 4096) 4096) 0 c = some (.ok news, c₁)) :
    ∃ c', writeFile ms gen now id offset data c = some (.ok (), c') ∧ c'.device = c₁.device ∧
      (∀ m b, version (c'.servers m) b = version (c₁.servers m) b) ∧
      Written ms ids bid ls c c' id offset data news := by
  obtain ⟨_, heq, hnews, hl₁, ho₁, hcontent₁, hbumped, hothers₁, hsuper⟩ := allocateBlocks_spec hl ho hid hrun
  cases heq
  have hroom : offset + data.length ≤ (ls id ++ news).length * 4096 := by
    have hspec := (calculateBlockSz_spec (n := offset + data.length - (ls id).length * 4096)
      (by decide : 0 < 4096)).1
    rw [← hnews] at hspec
    rw [List.length_append]
    omega
  have hmine : Function.update ls id (ls id ++ news) id = ls id ++ news := Function.update_self _ _ _
  have hpairs : ((ls id).map trimmed ++ news).map pair = (ls id ++ news).map pair := by
    rw [List.map_append, map_pair_trimmed, List.map_append]
  have hle := (hl₁.maps id hid).le
  rw [hmine] at hle
  have hwritable : Writable ms c₁ ((ls id).map trimmed ++ news) := by
    refine ⟨hl₁.works, fun info hinfo => ?_, ?_⟩
    · refine ho₁.balanced.listed id hid _ ?_
      simp only [hmine, ← hpairs]
      exact List.mem_map_of_mem hinfo
    · have hnodup := ho₁.balanced.nodup id hid
      simp only [hmine] at hnodup
      rwa [hpairs]
  obtain ⟨c', hwrite, hdev, hworks, hcontent₂, hframe⟩ := writeBlocks_spec hwritable offset data
    (by rw [List.length_append, List.length_map, ← List.length_append]; exact hroom) (by omega)
  -- the blocks of the other files and the versions are not written
  have hversion : ∀ m b, DataServer.version (c'.servers m) b = DataServer.version (c₁.servers m) b := by
    intro m b
    unfold DataServer.version
    rw [hframe m 0]
    intro hmem
    rw [hpairs] at hmem
    have hused := ho₁.balanced.listed id hid (m, 0)
    simp only [hmine] at hused
    exact Nat.not_succ_le_zero 0 (hused hmem).2.1.1
  refine ⟨c', ?_, hdev, hversion, ?_⟩
  · unfold writeFile
    rw [bind_ok (getBlockMap_eq hl.located hid (hl.maps id hid)), List.length_map, bind_ok hrun,
      bind_ok hwrite, if_pos rfl, pure_apply]
  constructor
  case lists => exact ⟨hworks, hdev ▸ hl₁.located, hdev ▸ hl₁.maps⟩
  case owns => exact ho₁.congr fun m b _ => hversion m b
  case room => exact hroom
  case bytes =>
    rw [content_trimmed_append, content_trimmed_append, hcontent₁, ← hnews] at hcontent₂
    exact hcontent₂
  case bumped =>
    intro m b
    rw [hversion]
    exact hbumped m b
  case others =>
    intro id' hid' hne
    rw [← hothers₁ id' hid' hne]
    refine content_congr fun info hinfo => hframe _ _ fun hmem => hne ?_
    rw [hpairs] at hmem
    apply ho₁.balanced.owner id' hid' id hid (pair info)
    · simp only [Function.update_of_ne hne]
      exact List.mem_map_of_mem hinfo
    · simp only [hmine]
      exact hmem
  case super => rw [hdev, hsuper]

theorem writeFile_of_allocate (hl : Lists c ids bid ls) (ho : Owns ms c.servers ids ls) (hid : id ∈ ids)
    {gen : ℕ → ℕ} {now offset : ℕ} {data : List UInt8} {c₁ : Cluster logCnt}
    {r : Except ErrorType (List BlockInfo)}
    (hrun : allocateBlocks ms gen id now
      (calculateBlockSz (offset + data.length - (ls id).length * 4096) 4096) 0 c = some (r, c₁)) :
    ∃ news c', writeFile ms gen now id offset data c = some (.ok (), c') ∧
      Written ms ids bid ls c c' id offset data news := by
  obtain ⟨news, rfl, -⟩ := allocateBlocks_spec hl ho hid hrun
  obtain ⟨c', hwrite, -, -, hwritten⟩ := writeFile_written hl ho hid hrun
  exact ⟨news, c', hwrite, hwritten⟩

theorem writeFile_spec (hl : Lists c ids bid ls) (ho : Owns ms c.servers ids ls) (hid : id ∈ ids)
    {gen : ℕ → ℕ} {now offset : ℕ} {data : List UInt8} {r : Except ErrorType Unit}
    (h : writeFile ms gen now id offset data c = some (r, c')) :
    ∃ news, r = .ok () ∧ Written ms ids bid ls c c' id offset data news := by
  cases hrun : allocateBlocks ms gen id now
      (calculateBlockSz (offset + data.length - (ls id).length * 4096) 4096) 0 c with
  | none =>
    unfold writeFile at h
    rw [bind_ok (getBlockMap_eq hl.located hid (hl.maps id hid)), List.length_map] at h
    change (Option.bind _ _) = _ at h
    rw [hrun] at h
    cases h
  | some out =>
    obtain ⟨news, c'', hwrite, hwritten⟩ := writeFile_of_allocate hl ho hid hrun
    cases hwrite.symm.trans h
    exact ⟨news, rfl, hwritten⟩

theorem allocateBlocks_total (hl : Lists c ids bid ls) (ho : Owns ms c.servers ids ls) (hid : id ∈ ids)
    (gen : ℕ → ℕ) (now k i : ℕ) (hle : (ls id).length + k ≤ 253) {m : ℕ} (h1 : 1 ≤ m)
    (h2 : m ≤ ms.numDataServers) {free : Finset ℕ} (hcard : k ≤ free.card)
    (hfree : ∀ b ∈ free, (1 ≤ b ∧ b < 4096) ∧ allocated (c.servers m) b = false) :
    ∃ news c', allocateBlocks ms gen id now k i c = some (.ok news, c') := by
  induction k generalizing c ls i free with
  | zero => exact ⟨[], c, rfl⟩
  | succ k ih =>
    obtain ⟨b, hb⟩ := Finset.card_pos.mp (by omega : 0 < free.card)
    obtain ⟨hbound, hnot⟩ := hfree b hb
    obtain ⟨info, c₁, hrun⟩ := allocateBlock_total hl.works hl.located hid (hl.maps id hid) (by omega)
      h1 h2 hbound.1 hbound.2 hnot (gen i) now
    obtain ⟨m', b', hm1, hm2, h3, h4, hfree', -, hr, -, inode, hlen, hm, rfl⟩ :=
      allocateBlock_cases hl.works hl.located hid (hl.maps id hid) hrun
    have hserved : Lists (granted c m' b') ids bid ls := hl.serve (hl.works m')
    have hrest : ∀ b ∈ free.erase b', (1 ≤ b ∧ b < 4096) ∧
        allocated ((written (granted c m' b') (bid id) inode hlen).servers m) b = false := by
      intro x hx
      obtain ⟨hne, hx⟩ := Finset.mem_erase.mp hx
      refine ⟨(hfree x hx).1, ?_⟩
      rw [← Bool.not_eq_true, Versions.allocated_iff, servers_written, version_granted h3 h4,
        if_neg (by simp [hne]), ← Versions.allocated_iff, (hfree x hx).2]
      decide
    have hcard' : k ≤ (free.erase b').card := by
      have := Finset.pred_card_le_card_erase (s := free) (a := b')
      omega
    obtain ⟨news, c', hnews⟩ := ih (hserved.write hid hlen hm) (ho.grant hid ⟨hm1, hm2⟩ ⟨h3, h4⟩ hfree')
      (i + 1) (by rw [Function.update_self, List.length_append, List.length_singleton]; omega) hcard' hrest
    refine ⟨info :: news, c', ?_⟩
    rw [allocateBlocks, bind_ok hrun, bind_ok hnews, pure_apply]

/-- `write_file` succeeds if the file stays within 253 blocks and some data
server has room for what it needs. -/
theorem writeFile_total (hl : Lists c ids bid ls) (ho : Owns ms c.servers ids ls) (hid : id ∈ ids)
    (gen : ℕ → ℕ) (now offset : ℕ) (data : List UInt8) (hle : offset + data.length ≤ 253 * 4096) {m : ℕ}
    (h1 : 1 ≤ m) (h2 : m ≤ ms.numDataServers) (free : Finset ℕ)
    (hcard : calculateBlockSz (offset + data.length - (ls id).length * 4096) 4096 ≤ free.card)
    (hfree : ∀ b ∈ free, (1 ≤ b ∧ b < 4096) ∧ allocated (c.servers m) b = false) :
    ∃ c', writeFile ms gen now id offset data c = some (.ok (), c') := by
  have hlen := (hl.maps id hid).le
  have hcnt : (ls id).length + calculateBlockSz (offset + data.length - (ls id).length * 4096) 4096 ≤ 253 := by
    unfold calculateBlockSz
    split <;> omega
  obtain ⟨news, c₁, hrun⟩ := allocateBlocks_total hl ho hid gen now _ 0 hcnt h1 h2 hcard hfree
  obtain ⟨news, c', hwrite, -⟩ := writeFile_of_allocate hl ho hid hrun
  exact ⟨c', hwrite⟩

end Write

structure WriteCall where
  id : ℕ
  offset : ℕ
  data : List UInt8
  deriving DecidableEq, Repr

/-- A client writes to the regular files `ids`; the calls are reported with their
results. -/
inductive Writes (ms : MetadataServer) (ids : Set ℕ) :
    Cluster logCnt → WriteCall × Except ErrorType Unit → Cluster logCnt → Prop
  | writeFile {c c' : Cluster logCnt} {w : WriteCall} {gen : ℕ → ℕ} {now : ℕ} {r : Except ErrorType Unit} :
      w.id ∈ ids → writeFile ms gen now w.id w.offset w.data c = some (r, c') → Writes ms ids c (w, r) c'

def applyWrites (id n : ℕ) (ws : List WriteCall) : List UInt8 :=
  ws.foldl (fun bytes w => if w.id = id then splice bytes w.offset w.data else bytes) (List.replicate n 0)

/-- The writes to `id` lie within the first `n` bytes. -/
def Within (id n : ℕ) (ws : List WriteCall) : Prop := ∀ w ∈ ws, w.id = id → w.offset + w.data.length ≤ n

section Run

variable {ms : MetadataServer} {ids : Set ℕ} {bid : ℕ → ℕ} {c c₀ : Cluster logCnt} {id n : ℕ}
  {ws : List WriteCall} {w : WriteCall} {es : List (WriteCall × Except ErrorType Unit)}

theorem applyWrites_snoc : applyWrites id n (ws ++ [w]) =
    if w.id = id then splice (applyWrites id n ws) w.offset w.data else applyWrites id n ws :=
  List.foldl_concat _ _ _ _

theorem Within.of_snoc (h : Within id n (ws ++ [w])) : Within id n ws ∧
    (w.id = id → w.offset + w.data.length ≤ n) :=
  ⟨fun w hw => h w (List.mem_append_left _ hw), h w (by simp)⟩

theorem length_applyWrites (h : Within id n ws) : (applyWrites id n ws).length = n := by
  induction ws using List.reverseRecOn with
  | nil => exact List.length_replicate
  | append_singleton ws w ih =>
    obtain ⟨hws, hw⟩ := h.of_snoc
    rw [applyWrites_snoc]
    split
    case isTrue heq => rw [length_splice (by rw [ih hws]; exact hw heq), ih hws]
    case isFalse => exact ih hws

theorem applyWrites_add (h : Within id n ws) (k : ℕ) :
    applyWrites id (n + k) ws = applyWrites id n ws ++ List.replicate k 0 := by
  induction ws using List.reverseRecOn with
  | nil => exact List.replicate_add _ _ _
  | append_singleton ws w ih =>
    obtain ⟨hws, hw⟩ := h.of_snoc
    rw [applyWrites_snoc, applyWrites_snoc, ih hws]
    split
    case isTrue heq =>
      have hle := hw heq
      have hlen := length_applyWrites hws
      rw [splice_append_left (by omega), List.take_of_length_le (by omega), List.drop_of_length_le (by omega)]
      rfl
    case isFalse => rfl

/-- The files hold the arrays that the writes have produced. -/
structure Holds (ms : MetadataServer) (ids : Set ℕ) (bid : ℕ → ℕ) (c₀ c : Cluster logCnt)
    (ls : ℕ → List BlockInfo) (ws : List WriteCall) : Prop where
  lists : Lists c ids bid ls
  owns : Owns ms c.servers ids ls
  bumped : Bumped c₀ c
  bytes : ∀ id ∈ ids, Within id ((ls id).length * 4096) ws ∧
    content c (ls id) = applyWrites id ((ls id).length * 4096) ws

theorem holds_of_path (h₀ : Start c₀ ids bid) (hunused : Unused ms c₀) (h : Path (Writes ms ids) c₀ es c) :
    (∀ e ∈ es, e.2 = .ok ()) ∧ ∃ ls, Holds ms ids bid c₀ c ls (es.map Prod.fst) := by
  refine h.invariant (I := fun es c => (∀ e ∈ es, e.2 = .ok ()) ∧
    ∃ ls, Holds ms ids bid c₀ c ls (es.map Prod.fst)) ?_ ?_
  · refine ⟨fun e he => absurd he List.not_mem_nil, fun _ => [], ⟨h₀.works, h₀.located, h₀.empty⟩,
      owns_of_unused hunused, fun _ _ => Or.inl rfl, fun id _ => ⟨?_, ?_⟩⟩
    · intro w hw
      cases hw
    · rw [List.length_nil, Nat.zero_mul]
      rfl
  · rintro es c e c' ⟨hok, ls, hl, ho, hbumped, hfiles⟩ hs
    cases hs with
    | @writeFile _ w _ _ _ hid hrun =>
      obtain ⟨news, rfl, hw⟩ := writeFile_spec hl ho hid hrun
      refine ⟨fun e he => ?_, _, hw.lists, hw.owns, hbumped.trans hw.bumped, fun id hid' => ?_⟩
      · obtain he | he := List.mem_append.mp he
        · exact hok e he
        · rw [List.mem_singleton.mp he]
      · obtain ⟨hwithin, hbytes⟩ := hfiles id hid'
        rw [List.map_append, List.map_singleton, applyWrites_snoc]
        by_cases heq : w.id = id
        · subst heq
          rw [Function.update_self, if_pos rfl, hw.bytes, hbytes, List.length_append, Nat.add_mul,
            applyWrites_add hwithin]
          refine ⟨fun w' hw' heq' => ?_, rfl⟩
          obtain hw' | hw' := List.mem_append.mp hw'
          · exact (hwithin w' hw' heq').trans (Nat.le_add_right _ _)
          · rw [List.mem_singleton.mp hw', ← Nat.add_mul, ← List.length_append]
            exact hw.room
        · rw [Function.update_of_ne (Ne.symm heq), if_neg heq, hw.others id hid' (Ne.symm heq)]
          refine ⟨fun w' hw' heq' => ?_, hbytes⟩
          obtain hw' | hw' := List.mem_append.mp hw'
          · exact hwithin w' hw' heq'
          · rw [List.mem_singleton.mp hw'] at heq'
            exact absurd heq' heq

def VersionsSmall (ms : MetadataServer) (c : Cluster logCnt) : Prop :=
  ∀ m b, 1 ≤ m → m ≤ ms.numDataServers → 1 ≤ b → b < 4096 → (version (c.servers m) b).toNat < 32

theorem readFile_eq_content {ls : ℕ → List BlockInfo} (hl : Lists c ids bid ls) (ho : Owns ms c.servers ids ls)
    (hver : VersionsSmall ms c) (hid : id ∈ ids) (offset size : ℕ) :
    ms.getBlockMap id c = some (.ok (ls id), c) ∧ readFile ms id offset size c =
      if offset + size ≤ (ls id).length * 4096 ∨ size = 0 then
        some (.ok (slice (content c (ls id)) offset size), c)
      else some (.error .done, c) := by
  have hused : ∀ info ∈ ls id, InUse ms c.servers (pair info) := fun info hinfo =>
    ho.balanced.listed id hid _ (List.mem_map_of_mem hinfo)
  have hwhole : (ls id).map trimmed = ls id := by
    refine (List.map_congr_left fun info hinfo => ?_).trans (List.map_id _)
    obtain ⟨hm, hb, -⟩ := inUse_pair.mp (hused info hinfo)
    have hlt := hver _ _ hm.1 hm.2 hb.1 hb.2
    rw [ho.version id hid info hinfo] at hlt
    unfold trimmed
    rw [Nat.mod_eq_of_lt hlt]
    rfl
  have hmap : ms.getBlockMap id c = some (.ok ((ls id).map trimmed), c) :=
    getBlockMap_eq hl.located hid (hl.maps id hid)
  rw [hwhole] at hmap
  refine ⟨hmap, ?_⟩
  have hread := readBlocks_spec (fun info hinfo => ⟨hused info hinfo, ho.version id hid info hinfo⟩)
    size offset 0
  rw [Nat.sub_zero, Nat.zero_add] at hread
  unfold readFile
  rw [bind_ok hmap, bind_ok hread]
  simp only
  have hcut : (slice (content c (ls id)) offset size).length = min size ((ls id).length * 4096 - offset) := by
    rw [slice, List.length_take, List.length_drop, length_content]
  rw [hcut]
  by_cases hin : offset + size ≤ (ls id).length * 4096 ∨ size = 0
  · rw [if_pos hin, if_neg (by omega), pure_apply]
  · rw [if_neg hin, if_pos (by omega), refuse_apply]

/-- Every write succeeds, and lies in the file from then on. `read_file` reads from
the array with the length of the file, and refuses to read beyond it. One more
write succeeds if it stays within 253 blocks and some data server has room. -/
theorem readFile_eq_applyWrites (h₀ : Start c₀ ids bid) (hunused : Unused ms c₀)
    (h : Path (Writes ms ids) c₀ es c) (hver : VersionsSmall ms c) (hid : id ∈ ids) :
    (∀ e ∈ es, e.2 = .ok ()) ∧ ∃ blockMap, ms.getBlockMap id c = some (.ok blockMap, c) ∧
      Within id (blockMap.length * 4096) (es.map Prod.fst) ∧
      (∀ offset size, readFile ms id offset size c =
        if offset + size ≤ blockMap.length * 4096 ∨ size = 0 then
          some (.ok (slice (applyWrites id (blockMap.length * 4096) (es.map Prod.fst)) offset size), c)
        else some (.error .done, c)) ∧
      ∀ (gen : ℕ → ℕ) (now offset : ℕ) (data : List UInt8) (m : ℕ) (free : Finset ℕ),
        offset + data.length ≤ 253 * 4096 → (1 ≤ m ∧ m ≤ ms.numDataServers) →
        calculateBlockSz (offset + data.length - blockMap.length * 4096) 4096 ≤ free.card →
        (∀ b ∈ free, (1 ≤ b ∧ b < 4096) ∧ allocated (c.servers m) b = false) →
          ∃ c', writeFile ms gen now id offset data c = some (.ok (), c') := by
  obtain ⟨hok, ls, hl, ho, -, hfiles⟩ := holds_of_path h₀ hunused h
  obtain ⟨hwithin, hbytes⟩ := hfiles id hid
  refine ⟨hok, ls id, (readFile_eq_content hl ho hver hid 0 0).1, hwithin, fun offset size => ?_, ?_⟩
  · rw [(readFile_eq_content hl ho hver hid offset size).2, hbytes]
  · intro gen now offset data m free hle hm hcard hfree
    exact writeFile_total hl ho hid gen now offset data hle hm.1 hm.2 free hcard hfree

end Run

/-- A write over the boundary between two blocks. -/
theorem readFile_eq_applyWrites_boundary : ∃ (c₀ c : Cluster 0) (bid : ℕ → ℕ),
    sampleFiles (BlockManager.zeroed 4096 4096 0) = some (.ok (), c₀.device) ∧ Start c₀ {2, 3} bid ∧
    Path (Writes single {2, 3}) c₀ [(⟨2, 4095, [1, 2]⟩, .ok ())] c ∧
    readFile single 2 4094 4 c = some (.ok [0, 1, 2, 0], c) := by
  obtain ⟨d, a, server, bid, hfiles, -, h₀, hv⟩ := exists_start
  have hfree : ∀ b, 1 ≤ b → b < 4096 → allocated server b = false := by
    intro b h1 h2
    rw [← Bool.not_eq_true, Versions.allocated_iff, hv b h1 h2]
    decide
  have hunused : Unused single (⟨d, fun _ => server⟩ : Cluster 0) := by
    rintro p ⟨-, hb, hused⟩
    rw [hfree p.2 hb.1 hb.2] at hused
    cases hused
  have hl := lists_of_path h₀ (.nil : Path (Step single {2, 3}) _ [] _)
  obtain ⟨c, hwrite⟩ := writeFile_total hl (owns_of_unused hunused) (Or.inl rfl : 2 ∈ ({2, 3} : Set ℕ))
    (fun _ => 1) 0 4095 [1, 2] (by decide) (Nat.le_refl 1) single_pos {1, 2} (by decide) (by
      intro b hb
      have hbound : 1 ≤ b ∧ b < 4096 := by
        simp at hb
        omega
      exact ⟨hbound, hfree b hbound.1 hbound.2⟩)
  have hpath : Path (Writes single {2, 3}) (⟨d, fun _ => server⟩ : Cluster 0) [(⟨2, 4095, [1, 2]⟩, .ok ())] c :=
    Path.nil.snoc (.writeFile (Or.inl rfl) hwrite)
  obtain ⟨-, ls, hholds⟩ := holds_of_path h₀ hunused hpath
  have hsmall : VersionsSmall single c := by
    intro m b _ _ h3 h4
    have hzero : version ((⟨d, fun _ => server⟩ : Cluster 0).servers m) b = 0 := hv b h3 h4
    obtain hsame | ⟨-, hnext⟩ := hholds.bumped m b
    · rw [hsame, hzero]
      decide
    · rw [hnext, hzero]
      decide
  obtain ⟨-, blockMap, -, hwithin, hread, -⟩ := readFile_eq_applyWrites h₀ hunused hpath hsmall
    (Or.inl rfl : 2 ∈ ({2, 3} : Set ℕ))
  refine ⟨_, c, bid, hfiles, h₀, hpath, ?_⟩
  -- the file has at least two blocks, of which the first two have the bytes
  have hlen : 4095 + 2 ≤ blockMap.length * 4096 := hwithin _ (List.mem_singleton.mpr rfl) rfl
  have htwo : Within 2 8192 [⟨2, 4095, [1, 2]⟩] := by
    intro w hw _
    rw [List.mem_singleton.mp hw]
    decide
  have hmore : blockMap.length * 4096 = 8192 + (blockMap.length * 4096 - 8192) := by omega
  have hbytes : slice (applyWrites 2 (blockMap.length * 4096) [⟨2, 4095, [1, 2]⟩]) 4094 4 = [0, 1, 2, 0] := by
    rw [hmore, applyWrites_add htwo, slice_append_left (by rw [length_applyWrites htwo]; decide),
      length_applyWrites htwo]
    have hfirst : slice (applyWrites 2 8192 [⟨2, 4095, [1, 2]⟩]) 4094 4 = [0, 1, 2, 0] := by decide +kernel
    exact (congrArg₂ List.append hfirst List.take_zero).trans (List.append_nil _)
  rw [hread, if_pos (Or.inl (by omega))]
  simp only [List.map_cons, List.map_nil]
  rw [hbytes]

end Chfs.Distributed.Client
