import Chfs.Distributed.DataServer
import Chfs.Distributed.BlockMap
import Chfs.Fs.Contents
import Mathlib.Data.Set.Basic

/-! The requests about the blocks of regular files
(`distributed/metadata_server.cc`). The metadata server keeps the block maps on
its device and calls the data servers. -/

namespace Chfs.Distributed.Requests

open Lib.Effect Lib.Bytes Block.Manager Fs.Inode Fs.Operations Fs.Files BlockMap DataServer

structure Cluster (logCnt : ℕ) where
  device : BlockManager 4096 4096 logCnt
  servers : ℕ → Server

variable {logCnt : ℕ} {α : Type}

abbrev Cl (logCnt : ℕ) (α : Type) : Type := Op (Cluster logCnt) ErrorType α

def onDevice (x : Bm 4096 4096 logCnt α) : Cl logCnt α :=
  onPart Cluster.device (fun c d => { c with device := d }) x

def call (m : ℕ) (x : Bm 4096 4096 0 α) : Cl logCnt α :=
  onPart (fun c => c.servers m) (fun c s => { c with servers := Function.update c.servers m s }) x

def operation : FileOperation := FileOperation.fields 4096 4096 4096

/-- Of the server, the number of data servers that are registered. -/
structure MetadataServer where
  numDataServers : ℕ
  lt : numDataServers < 2 ^ 32
  deriving DecidableEq

def MetadataServer.curId (ms : MetadataServer) (generatedId tryOffset : ℕ) : ℕ :=
  if (generatedId + tryOffset) % ms.numDataServers = 0 then ms.numDataServers
  else (generatedId + tryOffset) % ms.numDataServers

/-- The loop of `allocate_block`, for one round over the data servers. If all of
them are full it does not end. -/
def MetadataServer.probe (ms : MetadataServer) (generatedId : ℕ) : ℕ → ℕ → Cl logCnt BlockInfo
  | 0, _ => undefined
  | k + 1, tryOffset => do
    let (blockId, version) ← call (ms.curId generatedId tryOffset) allocBlock
    if blockId = 0 then ms.probe generatedId k (tryOffset + 1)
    else pure ⟨blockId, ms.curId generatedId tryOffset, version⟩

/-- `allocate_block`; `generatedId` is the random number. -/
def MetadataServer.allocateBlock (ms : MetadataServer) (id generatedId now : ℕ) : Cl logCnt BlockInfo := do
  match ← onDevice (attempt (operation.inodeManager.readInode id)) with
  | .error _ => pure ⟨0, 0, 0⟩
  | .ok (bid, inode) =>
    let info ← ms.probe generatedId ms.numDataServers 0
    require (blockCnt inode < 253)
    match ← onDevice (attempt (writeBlock bid (record inode info now))) with
    | .error _ => pure ⟨0, 0, 0⟩
    | .ok _ => pure info

def MetadataServer.freeBlock (ms : MetadataServer) (id blockId machineId now : ℕ) : Cl logCnt Bool := do
  match ← onDevice (attempt (operation.inodeManager.readInode id)) with
  | .error _ => pure false
  | .ok (bid, inode) =>
    require (blockCnt inode ≤ 253)
    match findBlock inode blockId machineId (blockCnt inode) 0 with
    | none => pure false
    | some pos =>
      require (1 ≤ machineId ∧ machineId ≤ ms.numDataServers)
      if ← call machineId (DataServer.freeBlock blockId) then
        match ← onDevice (attempt (writeBlock bid (dropEntry inode pos now))) with
        | .error _ => pure false
        | .ok _ => pure true
      else pure false

def MetadataServer.getBlockMap (_ms : MetadataServer) (id : ℕ) : Cl logCnt (List BlockInfo) := do
  match ← onDevice (attempt (operation.inodeManager.readInode id)) with
  | .error _ => pure []
  | .ok (_, inode) =>
    require (blockCnt inode ≤ 253)
    pure ((List.range (blockCnt inode)).map (infoAt inode))

theorem dimensions : Fs.Contents.Dimensions 4096 4096 4096 :=
  ⟨by decide, by decide, by decide, by decide, by decide⟩

theorem layout : Layout operation 4096 4096 := dimensions.layout

structure Located (d : BlockManager 4096 4096 logCnt) (ids : Set ℕ) (bid : ℕ → ℕ) : Prop where
  works : d.maybeFailed = false
  lt : ∀ id ∈ ids, 1 ≤ id ∧ id < operation.inodeManager.maxInodeSupported - 1
  entry : ∀ id ∈ ids, operation.inodeManager.entry d id = bid id
  data : ∀ id ∈ ids, dataStart operation ≤ bid id ∧ bid id < 4096
  distinct : ∀ id ∈ ids, ∀ id' ∈ ids, bid id = bid id' → id = id'

section Device

variable {d : BlockManager 4096 4096 logCnt} {ids : Set ℕ} {bid : ℕ → ℕ} {id : ℕ}

theorem Located.readInode (h : Located d ids bid) (hid : id ∈ ids) :
    operation.inodeManager.readInode id d = some (.ok (bid id, d.blocks (bid id)), d) := by
  obtain ⟨h1, h2⟩ := h.lt id hid
  obtain ⟨h3, h4⟩ := h.data id hid
  have hpos := dataStart_pos layout
  rw [readInode_apply layout.inodes h1, h.entry id hid, if_neg, if_pos (by omega)]
  unfold invalidBlockId
  omega

theorem Located.write (h : Located d ids bid) (hid : id ∈ ids) {inode : List UInt8}
    (hlen : inode.length = 4096) : Located (d.setBlock (bid id) inode hlen) ids bid where
  works := h.works
  lt := h.lt
  entry := by
    intro id' hid'
    rw [← h.entry id' hid']
    have hlt := h.lt id' hid'
    refine (layout.entry_congr ⟨hlt.1, by omega⟩ fun b _ hb => ?_).1
    have hge := (h.data id hid).1
    unfold dataStart at hge
    rw [setBlock_blocks, Function.update_of_ne (by omega)]
  data := h.data
  distinct := h.distinct

end Device

section Calls

variable {ms : MetadataServer} {c c' : Cluster logCnt} {ids : Set ℕ} {bid : ℕ → ℕ} {id : ℕ}
  {l : List BlockInfo}

theorem onDevice_readInode (h : Located c.device ids bid) (hid : id ∈ ids) :
    onDevice (attempt (operation.inodeManager.readInode id)) c =
      some (.ok (.ok (bid id, c.device.blocks (bid id))), c) :=
  onPart_apply (attempt_apply (h.readInode hid))

theorem onDevice_write (h : Located c.device ids bid) (hid : id ∈ ids) {inode : List UInt8}
    (hlen : inode.length = 4096) : onDevice (attempt (writeBlock (bid id) inode)) c =
      some (.ok (.ok ()), { c with device := c.device.setBlock (bid id) inode hlen }) :=
  onPart_apply (attempt_apply (writeBlock_apply h.works (by have := (h.data id hid).2; omega) hlen))

theorem call_apply {m : ℕ} {x : Bm 4096 4096 0 α} {r : Except ErrorType α} {s : Server}
    (h : x (c.servers m) = some (r, s)) :
    call m x c = some (r, { c with servers := Function.update c.servers m s }) :=
  onPart_apply h

theorem call_self {m : ℕ} {x : Bm 4096 4096 0 α} {r : Except ErrorType α}
    (h : x (c.servers m) = some (r, c.servers m)) : call m x c = some (r, c) := by
  rw [call_apply h, Function.update_eq_self]

def trimmed (info : BlockInfo) : BlockInfo := { info with version := info.version % 32 }

theorem getBlockMap_eq (h : Located c.device ids bid) (hid : id ∈ ids)
    (hm : Maps (c.device.blocks (bid id)) l) :
    ms.getBlockMap id c = some (.ok (l.map trimmed), c) := by
  unfold MetadataServer.getBlockMap
  rw [bind_ok (onDevice_readInode h hid)]
  simp only
  rw [hm.blockCnt, require_of hm.le, bind_ok (pure_apply ()), pure_apply]
  congr 3
  apply List.ext_getElem?
  intro i
  rw [List.getElem?_map, List.getElem?_map]
  by_cases hi : i < l.length
  · rw [List.getElem?_range hi, List.getElem?_eq_getElem hi, Option.map_some, Option.map_some,
      hm.infoAt (List.getElem?_eq_getElem hi)]
    rfl
  · rw [List.getElem?_eq_none (by rwa [List.length_range, ← Nat.not_lt]),
      List.getElem?_eq_none (by rwa [← Nat.not_lt])]
    rfl

theorem curId_mem (hn : 0 < ms.numDataServers) (g i : ℕ) :
    1 ≤ ms.curId g i ∧ ms.curId g i ≤ ms.numDataServers := by
  have hlt := Nat.mod_lt (g + i) hn
  unfold MetadataServer.curId
  split <;> omega

def granted (c : Cluster logCnt) (m b : ℕ) : Cluster logCnt :=
  { c with servers := Function.update c.servers m (handedOut (c.servers m) b) }

theorem servers_granted (m b : ℕ) : (granted c m b).servers =
    Function.update c.servers m (handedOut (c.servers m) b) := rfl

theorem call_full {m : ℕ} (hw : (c.servers m).maybeFailed = false)
    (h : findFree ((c.servers m).blocks 0) 4095 1 = none) :
    call m allocBlock c = some (.ok (0, 0), c) := by
  apply call_self
  rw [allocBlock_eq hw, h]

theorem call_free {m b : ℕ} (hw : (c.servers m).maybeFailed = false)
    (h : findFree ((c.servers m).blocks 0) 4095 1 = some b) :
    call m allocBlock c = some (.ok (b, (version (c.servers m) b + 1).toNat), granted c m b) := by
  apply call_apply
  rw [allocBlock_eq hw, h]

theorem probe_cases (hw : ∀ m, (c.servers m).maybeFailed = false) {g k i : ℕ}
    (hk : k ≤ ms.numDataServers) {r : Except ErrorType BlockInfo}
    (h : ms.probe g k i c = some (r, c')) :
    ∃ m b, 1 ≤ m ∧ m ≤ ms.numDataServers ∧ 1 ≤ b ∧ b < 4096 ∧ allocated (c.servers m) b = false ∧
      allocBlock (c.servers m) = some (.ok (b, (version (c.servers m) b + 1).toNat), handedOut (c.servers m) b) ∧
      r = .ok ⟨b, m, (version (c.servers m) b + 1).toNat⟩ ∧ c' = granted c m b := by
  induction k generalizing i with
  | zero => cases h
  | succ k ih =>
    obtain ⟨h1, h2⟩ := curId_mem (by omega : 0 < ms.numDataServers) g i
    rw [MetadataServer.probe] at h
    cases hfree : findFree ((c.servers (ms.curId g i)).blocks 0) 4095 1 with
    | none =>
      rw [bind_ok (call_full (hw _) hfree)] at h
      exact ih (by omega) h
    | some b =>
      obtain ⟨hb1, hb2, hb3, -⟩ := findFree_some hfree
      have halloc := allocBlock_eq (hw (ms.curId g i))
      rw [hfree] at halloc
      rw [bind_ok (call_free (hw _) hfree)] at h
      simp only at h
      rw [if_neg (by omega), pure_apply] at h
      cases h
      exact ⟨_, b, h1, h2, hb1, by omega, hb3, halloc, rfl, rfl⟩

theorem probe_none (hw : ∀ m, (c.servers m).maybeFailed = false) {g k i : ℕ}
    (h : ms.probe g k i c = none) {j : ℕ} (hj : j < k) :
    findFree ((c.servers (ms.curId g (i + j))).blocks 0) 4095 1 = none := by
  induction k generalizing i j with
  | zero => omega
  | succ k ih =>
    rw [MetadataServer.probe] at h
    cases hfree : findFree ((c.servers (ms.curId g i)).blocks 0) 4095 1 with
    | none =>
      rw [bind_ok (call_full (hw _) hfree)] at h
      cases j with
      | zero => exact hfree
      | succ j =>
        rw [← Nat.add_assoc, Nat.add_right_comm]
        exact ih h (by omega)
    | some b =>
      have hb := (findFree_some hfree).1
      rw [bind_ok (call_free (hw _) hfree)] at h
      simp only at h
      rw [if_neg (by omega), pure_apply] at h
      cases h

theorem exists_curId {m : ℕ} (h1 : 1 ≤ m) (h2 : m ≤ ms.numDataServers) (g : ℕ) :
    ∃ j < ms.numDataServers, ms.curId g j = m := by
  have hn : 0 < ms.numDataServers := by omega
  have hg := Nat.mod_lt g hn
  refine ⟨(m + (ms.numDataServers - g % ms.numDataServers)) % ms.numDataServers, Nat.mod_lt _ hn, ?_⟩
  have hmod : (g + (m + (ms.numDataServers - g % ms.numDataServers)) % ms.numDataServers) %
      ms.numDataServers = m % ms.numDataServers := by
    rw [Nat.add_mod_mod, ← Nat.mod_add_mod]
    have heq : g % ms.numDataServers + (m + (ms.numDataServers - g % ms.numDataServers)) =
        m + ms.numDataServers := by omega
    rw [heq, Nat.add_mod_right]
  unfold MetadataServer.curId
  rw [hmod]
  obtain heq | hlt := Nat.eq_or_lt_of_le h2
  · rw [heq, Nat.mod_self, if_pos rfl]
  · rw [Nat.mod_eq_of_lt hlt, if_neg (by omega)]

def written (c : Cluster logCnt) (b : ℕ) (inode : List UInt8) (hlen : inode.length = 4096) :
    Cluster logCnt :=
  { c with device := c.device.setBlock b inode hlen }

@[simp]
theorem servers_written {b : ℕ} {inode : List UInt8} (hlen : inode.length = 4096) :
    (written c b inode hlen).servers = c.servers := rfl

theorem fits_granted {m b : ℕ} {v : UInt8} (hm : m ≤ ms.numDataServers) (hb : b < 4096) : Fits ⟨b, m, v.toNat⟩ where
  blockId := lt_trans hb (by decide)
  machineId := lt_of_le_of_lt hm ms.lt
  version := lt_trans v.toNat_lt (by decide)

/-- What `allocate_block` does: a block of some data server is handed out and
added to the block map. -/
theorem allocateBlock_cases (hw : ∀ m, (c.servers m).maybeFailed = false)
    (hl : Located c.device ids bid) (hid : id ∈ ids) (hm : Maps (c.device.blocks (bid id)) l) {g now : ℕ}
    {r : Except ErrorType BlockInfo}
    (h : ms.allocateBlock id g now c = some (r, c')) :
    ∃ m b, 1 ≤ m ∧ m ≤ ms.numDataServers ∧ 1 ≤ b ∧ b < 4096 ∧ allocated (c.servers m) b = false ∧
      allocBlock (c.servers m) = some (.ok (b, (version (c.servers m) b + 1).toNat), handedOut (c.servers m) b) ∧
      r = .ok ⟨b, m, (version (c.servers m) b + 1).toNat⟩ ∧ l.length < 253 ∧ ∃ inode hlen,
      Maps inode (l ++ [⟨b, m, (version (c.servers m) b + 1).toNat⟩]) ∧
      c' = written (granted c m b) (bid id) inode hlen := by
  unfold MetadataServer.allocateBlock at h
  rw [bind_ok (onDevice_readInode hl hid)] at h
  simp only at h
  cases hp : ms.probe g ms.numDataServers 0 c with
  | none =>
    change (Option.bind _ _) = _ at h
    rw [hp] at h
    cases h
  | some out =>
    obtain ⟨r', c₁⟩ := out
    obtain ⟨m, b, h1, h2, h3, h4, h5, h6, rfl, rfl⟩ := probe_cases hw (Nat.le_refl _) hp
    rw [bind_ok hp, hm.blockCnt] at h
    by_cases hlt : l.length < 253
    · have hmaps := hm.record hlt (fits_granted h2 h4 (v := version (c.servers m) b + 1)) now
      rw [require_of hlt, bind_ok (pure_apply ()),
        bind_ok (onDevice_write (c := granted c m b) hl hid hmaps.shape.length)] at h
      simp only [pure_apply] at h
      cases h
      exact ⟨m, b, h1, h2, h3, h4, h5, h6, rfl, hlt, _, _, hmaps, rfl⟩
    · rw [require, if_neg hlt] at h
      cases h

theorem allocateBlock_total (hw : ∀ m, (c.servers m).maybeFailed = false)
    (hl : Located c.device ids bid) (hid : id ∈ ids) (hm : Maps (c.device.blocks (bid id)) l)
    (hlt : l.length < 253) {m b : ℕ} (h1 : 1 ≤ m) (h2 : m ≤ ms.numDataServers) (hb : 1 ≤ b) (hb' : b < 4096)
    (hfree : allocated (c.servers m) b = false) (g now : ℕ) :
    ∃ info c', ms.allocateBlock id g now c = some (.ok info, c') := by
  unfold MetadataServer.allocateBlock
  rw [bind_ok (onDevice_readInode hl hid)]
  simp only
  cases hp : ms.probe g ms.numDataServers 0 c with
  | none =>
    obtain ⟨j, hj, hcur⟩ := exists_curId h1 h2 g
    have hfull := probe_none hw hp hj
    rw [Nat.zero_add, hcur] at hfull
    have hall : allocated (c.servers m) b = true := findFree_none hfull hb (by omega)
    rw [hfree] at hall
    cases hall
  | some out =>
    obtain ⟨r, c₁⟩ := out
    obtain ⟨m, b, -, h2, -, h4, -, -, rfl, rfl⟩ := probe_cases hw (Nat.le_refl _) hp
    have hmaps := hm.record hlt (fits_granted h2 h4 (v := version (c.servers m) b + 1)) now
    rw [bind_ok hp, hm.blockCnt, require_of hlt, bind_ok (pure_apply ()),
      bind_ok (onDevice_write (c := granted c m b) hl hid hmaps.shape.length)]
    exact ⟨_, _, rfl⟩

def released (c : Cluster logCnt) (m b : ℕ) : Cluster logCnt :=
  { c with servers := Function.update c.servers m (changed (c.servers m) b) }

theorem servers_released (m b : ℕ) : (released c m b).servers =
    Function.update c.servers m (changed (c.servers m) b) := rfl

def placeOf (l : List BlockInfo) (b m : ℕ) : Option ℕ :=
  l.findIdx? fun info => info.blockId = b ∧ info.machineId = m

theorem placeOf_eq {inode : List UInt8} (hm : Maps inode l) (b m : ℕ) :
    findBlock inode b m l.length 0 = placeOf l b m := by
  rw [hm.findBlock b m l.length (Nat.zero_add _)]
  simp [placeOf]

/-- What `free_block` does: it refuses, or the block is freed and the first
entry for it taken out of the block map. -/
theorem freeBlock_cases (hw : ∀ m, (c.servers m).maybeFailed = false) (hl : Located c.device ids bid)
    (hid : id ∈ ids) (hm : Maps (c.device.blocks (bid id)) l) {b m now : ℕ} {r : Except ErrorType Bool}
    (h : ms.freeBlock id b m now c = some (r, c')) :
    (r = .ok false ∧ c' = c ∧ (placeOf l b m = none ∨ b = 0 ∨ 4096 < b ∨ allocated (c.servers m) b = false)) ∨
    (r = .ok true ∧ 1 ≤ m ∧ m ≤ ms.numDataServers ∧ 1 ≤ b ∧ b < 4096 ∧ allocated (c.servers m) b = true ∧
      ∃ pos inode hlen, placeOf l b m = some pos ∧ Maps inode (l.eraseIdx pos) ∧
        c' = written (released c m b) (bid id) inode hlen) := by
  unfold MetadataServer.freeBlock at h
  rw [bind_ok (onDevice_readInode hl hid)] at h
  simp only at h
  rw [hm.blockCnt, require_of hm.le, bind_ok (pure_apply ()), placeOf_eq hm] at h
  cases hplace : placeOf l b m with
  | none =>
    rw [hplace] at h
    cases h
    exact Or.inl ⟨rfl, rfl, Or.inl rfl⟩
  | some pos =>
    rw [hplace] at h
    simp only at h
    by_cases hmac : 1 ≤ m ∧ m ≤ ms.numDataServers
    case neg =>
      rw [require, if_neg hmac] at h
      cases h
    rw [require_of hmac, bind_ok (pure_apply ())] at h
    cases hcall : DataServer.freeBlock b (c.servers m) with
    | none =>
      have hnone : call m (DataServer.freeBlock b) c = none := by
        change Option.map _ (DataServer.freeBlock b (c.servers m)) = none
        rw [hcall]
        rfl
      change (Option.bind _ _) = _ at h
      rw [hnone] at h
      cases h
    | some out =>
      obtain ⟨r', s⟩ := out
      obtain ⟨rfl, rfl, hwhy⟩ | ⟨rfl, h1, h2, h3, rfl⟩ := DataServer.freeBlock_cases (hw m) hcall
      · rw [bind_ok (call_self hcall), if_neg (by decide)] at h
        cases h
        exact Or.inl ⟨rfl, rfl, Or.inr hwhy⟩
      · have hpos : pos < l.length := (List.findIdx?_eq_some_iff_getElem.mp hplace).1
        have hmaps := hm.dropEntry hpos now
        have hcall' : call m (DataServer.freeBlock b) c = some (.ok true, released c m b) := call_apply hcall
        rw [bind_ok hcall', if_pos rfl,
          bind_ok (onDevice_write (c := released c m b) hl hid hmaps.shape.length)] at h
        simp only [pure_apply] at h
        cases h
        exact Or.inr ⟨rfl, hmac.1, hmac.2, h1, h2, h3, pos, _, _, rfl, hmaps, rfl⟩

theorem freeBlock_total (hl : Located c.device ids bid) (hw : ∀ m, (c.servers m).maybeFailed = false)
    (hid : id ∈ ids) (hm : Maps (c.device.blocks (bid id)) l) {b m pos : ℕ}
    (hplace : placeOf l b m = some pos) (h1 : 1 ≤ m) (h2 : m ≤ ms.numDataServers) (hb : 1 ≤ b)
    (hb' : b < 4096) (ha : allocated (c.servers m) b = true) (now : ℕ) :
    ∃ c', ms.freeBlock id b m now c = some (.ok true, c') := by
  have hpos : pos < l.length := (List.findIdx?_eq_some_iff_getElem.mp hplace).1
  have hmaps := hm.dropEntry hpos now
  have hcall : call m (DataServer.freeBlock b) c = some (.ok true, released c m b) := by
    apply call_apply
    rw [freeBlock_eq (hw m), if_neg (by omega), if_neg (by omega), if_pos ha]
  unfold MetadataServer.freeBlock
  rw [bind_ok (onDevice_readInode hl hid)]
  simp only
  rw [hm.blockCnt, require_of hm.le, bind_ok (pure_apply ()), placeOf_eq hm, hplace]
  simp only
  rw [require_of ⟨h1, h2⟩, bind_ok (pure_apply ()), bind_ok hcall, if_pos rfl,
    bind_ok (onDevice_write (c := released c m b) hl hid hmaps.shape.length)]
  exact ⟨_, rfl⟩

end Calls

end Chfs.Distributed.Requests
