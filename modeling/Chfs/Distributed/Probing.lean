import Chfs.Distributed.Requests
import Chfs.Distributed.Listing

namespace Chfs.Distributed.Probing

open Lib.Effect Lib.Bytes Block.Manager Fs.Inode Fs.Operations BlockMap Requests
open DataServer (Server version allocated allocBlock findFree bump versionAt)

variable {logCnt : ℕ} {α : Type}

inductive Mutex
  | inode (id : ℕ)
  | mac (id : ℕ)
  deriving DecidableEq, Repr

structure State (logCnt : ℕ) where
  cluster : Cluster logCnt
  held : Mutex → Bool

abbrev St (logCnt : ℕ) (α : Type) : Type := Op (State logCnt) ErrorType α

def onCluster (x : Cl logCnt α) : St logCnt α :=
  onPart State.cluster (fun u c => { u with cluster := c }) x

def lock (x : Mutex) : St logCnt Unit := fun u =>
  if u.held x then none else some (.ok (), { u with held := Function.update u.held x true })

def unlock (x : Mutex) : St logCnt Unit := fun u =>
  some (.ok (), { u with held := Function.update u.held x false })

def curId (ms : MetadataServer) (generatedId tryOffset : ℕ) : ℕ :=
  let curId := (generatedId + tryOffset) % 2 ^ 32 % ms.numDataServers
  if curId = 0 then ms.numDataServers else curId

/-- The loop, without a result where it has not ended after `fuel` iterations. The
counter of the tries is an `int`, and there is no remainder by 0. -/
def probe (ms : MetadataServer) (generatedId : ℕ) : ℕ → ℕ → St logCnt BlockInfo
  | 0, _ => undefined
  | fuel + 1, tryOffset => do
    require (tryOffset < 2 ^ 31)
    require (ms.numDataServers ≠ 0)
    let m := curId ms generatedId tryOffset
    lock (.mac m)
    let (blockId, version) ← onCluster (call m allocBlock)
    unlock (.mac m)
    if blockId = 0 then probe ms generatedId fuel (tryOffset + 1) else pure ⟨blockId, m, version⟩

def allocateBlock (ms : MetadataServer) (id generatedId now fuel : ℕ) : St logCnt BlockInfo := do
  lock (.inode id)
  match ← onCluster (onDevice (attempt (operation.inodeManager.readInode id))) with
  | .error _ =>
    unlock (.inode id)
    pure ⟨0, 0, 0⟩
  | .ok (bid, inode) =>
    let info ← probe ms generatedId fuel 0
    if info.blockId = 0 ∨ info.machineId = 0 then
      unlock (.inode id)
      pure ⟨0, 0, 0⟩
    else
      require (blockCnt inode < 253)
      let writeRes ← onCluster (onDevice (attempt (writeBlock bid (record inode info now))))
      unlock (.inode id)
      match writeRes with
      | .error _ => pure ⟨0, 0, 0⟩
      | .ok _ => pure info

def idle (c : Cluster logCnt) : State logCnt := ⟨c, fun _ => false⟩

def Registered (ms : MetadataServer) (m : ℕ) : Prop := 1 ≤ m ∧ m ≤ ms.numDataServers

def HasFree (s : Server) : Prop := ∃ b, 1 ≤ b ∧ b < 4096 ∧ allocated s b = false

/-- The request ends without a mutex held; and where the loop is reached, with a
free block of a data server that has one, or with no block if none has. -/
def Settles (ms : MetadataServer) (id generatedId now : ℕ) (c : Cluster logCnt) : Prop :=
  ∃ fuel info t, allocateBlock ms id generatedId now fuel (idle c) = some (.ok info, t) ∧
    t.held = (fun _ => false) ∧
    ((∃ out d, operation.inodeManager.readInode id c.device = some (.ok out, d)) →
      ((∃ m, Registered ms m ∧ HasFree (c.servers m)) → Registered ms info.machineId ∧ 1 ≤ info.blockId ∧
        info.blockId < 4096 ∧ allocated (c.servers info.machineId) info.blockId = false) ∧
      ((∀ m, Registered ms m → ¬ HasFree (c.servers m)) → info = ⟨0, 0, 0⟩))

/-- The loop is not reached, or it asks a data server with a free block before
its counter overflows and the block can be added to the inode. -/
def Granting (ms : MetadataServer) (id generatedId : ℕ) (c : Cluster logCnt) : Prop :=
  (∃ e d, operation.inodeManager.readInode id c.device = some (.error e, d)) ∨
  ∃ bid inode d, operation.inodeManager.readInode id c.device = some (.ok (bid, inode), d) ∧
    blockCnt inode < 253 ∧ ¬ c.device.fails bid ∧ ms.numDataServers ≠ 0 ∧
    ∃ i < 2 ^ 31, HasFree (c.servers (curId ms generatedId i))

section Steps

variable {ms : MetadataServer} {c c' : Cluster logCnt} {u v : State logCnt} {x : Mutex} {s : Server}
  {g i j k m b : ℕ}

theorem hasFree_iff : HasFree s ↔ findFree (s.blocks 0) 4095 1 ≠ none := by
  constructor
  · rintro ⟨b, h1, hlt, hfree⟩ hnone
    have hused : allocated s b = true := DataServer.findFree_none hnone h1 (by omega)
    rw [hfree] at hused
    cases hused
  · intro hne
    obtain ⟨b, hb⟩ := Option.ne_none_iff_exists'.mp hne
    obtain ⟨h1, h2, h3, -⟩ := DataServer.findFree_some hb
    exact ⟨b, h1, by omega, h3⟩

theorem allocBlock_answer (h : findFree (s.blocks 0) 4095 1 = some b) :
    ∃ v t, allocBlock s = some (.ok (b, v), t) := by
  obtain ⟨-, hlt, -⟩ := DataServer.findFree_some h
  have hlen : (bump (s.blocks 0) b).length = 4096 := by rw [DataServer.length_bump, s.length_blocks]
  obtain ⟨r, t, hw, -⟩ := writeBlock_cases s (by decide : 0 < 4096 + 0) hlen
  have hzero : (List.replicate 4096 (0 : UInt8)).length = 4096 := List.length_replicate
  obtain ⟨r', t', hw', -⟩ := writeBlock_cases t (by omega : b < 4096 + 0) hzero
  refine ⟨(versionAt (bump (s.blocks 0) b) b).toNat, t', ?_⟩
  unfold allocBlock
  rw [bind_ok (readBlock_apply s (by decide)), h]
  simp only
  rw [bind_ok (ignore_apply hw), bind_ok (ignore_apply hw'), pure_apply]

theorem onCluster_apply {y : Cl logCnt α} {r : Except ErrorType α} (h : y u.cluster = some (r, c')) :
    onCluster y u = some (r, { u with cluster := c' }) := onPart_apply h

theorem onCluster_none {y : Bm 4096 4096 logCnt α} (h : y u.cluster.device = none) :
    onCluster (onDevice (attempt y)) u = none := by
  change Option.map _ (Option.map _ (Option.map _ (y u.cluster.device))) = none
  rw [h]
  rfl

theorem bind_none {β : Type} {y : St logCnt α} {f : α → St logCnt β} (h : y u = none) : (y >>= f) u = none := by
  change (y u).bind _ = none
  rw [h]
  rfl

theorem lock_apply (h : u.held x = false) :
    lock x u = some (.ok (), { u with held := Function.update u.held x true }) := by
  unfold lock
  rw [h]
  rfl

theorem unlock_apply : unlock x u = some (.ok (), { u with held := Function.update u.held x false }) := rfl

theorem update_held (h : u.held x = false) :
    Function.update (Function.update u.held x true) x false = u.held := by
  rw [Function.update_idem, ← h, Function.update_eq_self]

theorem allocBlock_full (h : findFree (s.blocks 0) 4095 1 = none) : allocBlock s = some (.ok (0, 0), s) := by
  unfold allocBlock
  rw [bind_ok (readBlock_apply s (by decide)), h]
  rfl

def answered (c : Cluster logCnt) (m : ℕ) (t : Server) : Cluster logCnt :=
  { c with servers := Function.update c.servers m t }

theorem probe_step {v : ℕ} {t : Server} (hn : ms.numDataServers ≠ 0) (hi : i < 2 ^ 31)
    (hheld : ∀ m, u.held (.mac m) = false)
    (halloc : allocBlock (u.cluster.servers (curId ms g i)) = some (.ok (b, v), t)) :
    probe ms g (k + 1) i u = if b = 0 then probe ms g k (i + 1) ⟨answered u.cluster (curId ms g i) t, u.held⟩
      else some (.ok ⟨b, curId ms g i, v⟩, ⟨answered u.cluster (curId ms g i) t, u.held⟩) := by
  have hcall : onCluster (call (curId ms g i) allocBlock)
      ⟨u.cluster, Function.update u.held (.mac (curId ms g i)) true⟩ = some (.ok (b, v),
        ⟨answered u.cluster (curId ms g i) t, Function.update u.held (.mac (curId ms g i)) true⟩) :=
    onCluster_apply (call_apply halloc)
  rw [probe, require_of hi, bind_ok (pure_apply ()), require_of hn, bind_ok (pure_apply ())]
  simp only
  rw [bind_ok (lock_apply (hheld _)), bind_ok hcall, bind_ok unlock_apply]
  simp only [update_held (hheld _)]
  split
  · rfl
  · rfl

theorem probe_full (hn : ms.numDataServers ≠ 0) (hi : i < 2 ^ 31) (hheld : ∀ m, u.held (.mac m) = false)
    (hfull : findFree ((u.cluster.servers (curId ms g i)).blocks 0) 4095 1 = none) :
    probe ms g (k + 1) i u = probe ms g k (i + 1) u := by
  rw [probe_step hn hi hheld (allocBlock_full hfull), if_pos rfl, answered, Function.update_eq_self]

/-- The loop ends at the first try that meets a data server with a free block. -/
theorem probe_ends (hn : ms.numDataServers ≠ 0) (hheld : ∀ m, u.held (.mac m) = false)
    (hj : HasFree (u.cluster.servers (curId ms g (i + j)))) (hlt : i + j < 2 ^ 31) (hk : j < k) :
    ∃ b v i' c', probe ms g k i u = some (.ok ⟨b, curId ms g i', v⟩, ⟨c', u.held⟩) ∧
      c'.device = u.cluster.device ∧ 1 ≤ b ∧ b < 4096 ∧
      allocated (u.cluster.servers (curId ms g i')) b = false := by
  induction k generalizing i j with
  | zero => omega
  | succ k ih =>
    cases hfree : findFree ((u.cluster.servers (curId ms g i)).blocks 0) 4095 1 with
    | some b =>
      obtain ⟨h1, h2, h3, -⟩ := DataServer.findFree_some hfree
      obtain ⟨v, t, halloc⟩ := allocBlock_answer hfree
      have hstep := probe_step (k := k) hn (by omega) hheld halloc
      rw [if_neg (Nat.ne_of_gt h1)] at hstep
      exact ⟨b, v, i, _, hstep, rfl, h1, by omega, h3⟩
    | none =>
      rw [probe_full hn (by omega) hheld hfree]
      cases j with
      | zero => exact absurd hfree (hasFree_iff.mp hj)
      | succ j =>
        rw [← Nat.add_assoc, Nat.add_right_comm] at hj
        exact ih hj (by omega) (by omega)

theorem probe_asked {r : Except ErrorType BlockInfo} (hheld : ∀ m, u.held (.mac m) = false)
    (h : probe ms g k i u = some (r, v)) : ms.numDataServers ≠ 0 ∧
      ∃ j < k, i + j < 2 ^ 31 ∧ HasFree (u.cluster.servers (curId ms g (i + j))) := by
  induction k generalizing i with
  | zero => cases h
  | succ k ih =>
    by_cases hi : i < 2 ^ 31
    case neg =>
      rw [probe, require, if_neg hi] at h
      cases h
    by_cases hn : ms.numDataServers ≠ 0
    case neg =>
      rw [probe, require_of hi, bind_ok (pure_apply ()), require, if_neg hn] at h
      cases h
    cases hfree : findFree ((u.cluster.servers (curId ms g i)).blocks 0) 4095 1 with
    | some b =>
      have hhas := hasFree_iff.mpr (by rw [hfree]; exact Option.some_ne_none b)
      exact ⟨hn, 0, Nat.succ_pos k, hi, hhas⟩
    | none =>
      rw [probe_full hn hi hheld hfree] at h
      obtain ⟨-, j, hj, hlt, hhas⟩ := ih h
      rw [Nat.add_right_comm, Nat.add_assoc] at hlt hhas
      exact ⟨hn, j + 1, Nat.succ_lt_succ hj, hlt, hhas⟩

theorem curId_registered (hn : ms.numDataServers ≠ 0) (g i : ℕ) : Registered ms (curId ms g i) := by
  have hlt := Nat.mod_lt ((g + i) % 2 ^ 32) (Nat.pos_of_ne_zero hn)
  unfold Registered curId
  simp only
  split <;> omega

theorem asked_iff (hn : ms.numDataServers ≤ 2 ^ 31) (hg : g ≤ ms.numDataServers) :
    (ms.numDataServers ≠ 0 ∧ ∃ i < 2 ^ 31, HasFree (c.servers (curId ms g i))) ↔
      ∃ m, Registered ms m ∧ HasFree (c.servers m) := by
  constructor
  · rintro ⟨hne, i, -, hfree⟩
    exact ⟨_, curId_registered hne g i, hfree⟩
  · rintro ⟨m, ⟨h1, h2⟩, hfree⟩
    obtain ⟨i, hi, hcur⟩ := exists_curId h1 h2 g
    have heq : curId ms g i = m := by
      rw [← hcur, curId, MetadataServer.curId, Nat.mod_eq_of_lt (by omega : g + i < 2 ^ 32)]
    exact ⟨by omega, i, by omega, heq ▸ hfree⟩

theorem probe_round (hn : ms.numDataServers ≤ 2 ^ 31) (hg : g ≤ ms.numDataServers)
    (hk : i + k ≤ ms.numDataServers) (hheld : ∀ m, u.held (.mac m) = false) :
    probe ms g k i u = (ms.probe g k i u.cluster).map fun out => (out.1, ⟨out.2, u.held⟩) := by
  induction k generalizing i with
  | zero => rfl
  | succ k ih =>
    have hcur : curId ms g i = ms.curId g i := by
      rw [curId, MetadataServer.curId, Nat.mod_eq_of_lt (by omega : g + i < 2 ^ 32)]
    cases hfree : findFree ((u.cluster.servers (curId ms g i)).blocks 0) 4095 1 with
    | none =>
      have halloc := allocBlock_full hfree
      rw [hcur] at halloc
      rw [probe_full (by omega) (by omega) hheld hfree, ih (by omega), MetadataServer.probe,
        bind_ok (call_self halloc)]
      rfl
    | some b =>
      obtain ⟨hb, -⟩ := DataServer.findFree_some hfree
      obtain ⟨v, t, halloc⟩ := allocBlock_answer hfree
      rw [probe_step (by omega) (by omega) hheld halloc, if_neg (Nat.ne_of_gt hb), hcur]
      rw [hcur] at halloc
      rw [MetadataServer.probe, bind_ok (call_apply halloc)]
      simp only [if_neg (Nat.ne_of_gt hb), pure_apply, Option.map_some]
      rfl

end Steps

section Inode

variable {sz cnt : ℕ} {im : InodeManager} {bm t : BlockManager sz cnt logCnt} {id : ℕ}

theorem get_reads {r : Except ErrorType ℕ} (h : im.get id bm = some (r, t)) : t = bm ∧ ∃ w, r = .ok w := by
  have hread : ∀ {b : ℕ} {f : List UInt8 → ℕ},
      ((readBlock b >>= fun buffer => pure (f buffer)) : Bm sz cnt logCnt ℕ) bm = some (r, t) →
      t = bm ∧ ∃ w, r = .ok w := by
    intro b f h
    by_cases hb : b < cnt + logCnt
    · rw [bind_ok (readBlock_apply bm hb), pure_apply] at h
      cases h
      exact ⟨rfl, _, rfl⟩
    · change (readBlock b bm).bind _ = _ at h
      rw [readBlock, if_neg hb] at h
      cases h
  unfold InodeManager.get at h
  split at h
  · exact hread h
  · exact hread h

theorem readInode_reads {r : Except ErrorType (ℕ × List UInt8)} (h : im.readInode id bm = some (r, t)) :
    t = bm ∧ ∀ bid inode, r = .ok (bid, inode) → bid < cnt + logCnt ∧ inode = bm.blocks bid := by
  unfold InodeManager.readInode at h
  split at h
  case isTrue =>
    cases h
    exact ⟨rfl, nofun⟩
  case isFalse =>
    change (im.get id bm).bind _ = _ at h
    obtain ⟨⟨r', t'⟩, hget, h⟩ := Option.bind_eq_some_iff.mp h
    obtain ⟨rfl, blockId, rfl⟩ := get_reads hget
    simp only at h
    split at h
    case isTrue =>
      cases h
      exact ⟨rfl, nofun⟩
    case isFalse =>
      by_cases hb : blockId < cnt + logCnt
      · rw [bind_ok (readBlock_apply t' hb), pure_apply] at h
        cases h
        refine ⟨rfl, fun bid inode heq => ?_⟩
        cases heq
        exact ⟨hb, rfl⟩
      · change (readBlock blockId t').bind _ = _ at h
        rw [readBlock, if_neg hb] at h
        cases h

theorem length_record {inode : List UInt8} (hlen : inode.length = 4096) (hroom : blockCnt inode < 253)
    (info : BlockInfo) (now : ℕ) : (record inode info now).length = 4096 := by
  unfold record setAllTime setSize setBlockDirect sizeofInode sizeofBlockId
  simp only
  have h1 : ∀ {buf : List UInt8} {off k v : ℕ}, buf.length = 4096 → off + k ≤ 4096 →
      (setField buf off k v).length = 4096 := fun hbuf hle => (length_setField (by rw [hbuf]; exact hle)).trans hbuf
  refine h1 (h1 (h1 (h1 (h1 (h1 hlen ?_) ?_) ?_) ?_) ?_) ?_ <;> omega

end Inode

section Requests

variable {ms : MetadataServer} {c : Cluster logCnt} {id g now : ℕ}

def locked (id : ℕ) : Mutex → Bool := Function.update (fun _ => false) (.inode id) true

theorem locked_mac (id m : ℕ) : locked id (.mac m) = false :=
  Function.update_of_ne (fun h => by cases h) _ _

theorem unlock_locked (c : Cluster logCnt) : unlock (.inode id) ⟨c, locked id⟩ = some (.ok (), idle c) := by
  rw [unlock_apply, locked, Function.update_idem, Function.update_eq_self_iff.mpr rfl]
  rfl

theorem lock_idle (c : Cluster logCnt) : lock (.inode id) (idle c) = some (.ok (), ⟨c, locked id⟩) := rfl

theorem onCluster_readInode {r : Except ErrorType (ℕ × List UInt8)} {d : BlockManager 4096 4096 logCnt}
    (h : operation.inodeManager.readInode id c.device = some (r, d)) :
    onCluster (onDevice (attempt (operation.inodeManager.readInode id))) ⟨c, locked id⟩ =
      some (.ok r, ⟨c, locked id⟩) := by
  obtain ⟨rfl, -⟩ := readInode_reads h
  exact onCluster_apply (onPart_apply (attempt_apply h))

theorem allocateBlock_error {fuel : ℕ} {e : ErrorType} {d : BlockManager 4096 4096 logCnt}
    (h : operation.inodeManager.readInode id c.device = some (.error e, d)) :
    allocateBlock ms id g now fuel (idle c) = some (.ok ⟨0, 0, 0⟩, idle c) := by
  rw [allocateBlock, bind_ok (lock_idle c), bind_ok (onCluster_readInode h)]
  simp only
  rw [bind_ok (unlock_locked c), pure_apply]

variable {bid : ℕ} {inode : List UInt8} {d : BlockManager 4096 4096 logCnt}
  (hread : operation.inodeManager.readInode id c.device = some (.ok (bid, inode), d))
include hread

theorem allocateBlock_readable (fuel : ℕ) : allocateBlock ms id g now fuel (idle c) =
    (do
      let info ← probe ms g fuel 0
      if info.blockId = 0 ∨ info.machineId = 0 then
        unlock (.inode id)
        pure ⟨0, 0, 0⟩
      else
        require (blockCnt inode < 253)
        let writeRes ← onCluster (onDevice (attempt (writeBlock bid (record inode info now))))
        unlock (.inode id)
        match writeRes with
        | .error _ => pure ⟨0, 0, 0⟩
        | .ok _ => pure info : St logCnt BlockInfo) ⟨c, locked id⟩ := by
  rw [allocateBlock, bind_ok (lock_idle c), bind_ok (onCluster_readInode hread)]

theorem allocateBlock_probed (now : ℕ) {fuel : ℕ} {info : BlockInfo} {c' : Cluster logCnt}
    (hprobe : probe ms g fuel 0 ⟨c, locked id⟩ = some (.ok info, ⟨c', locked id⟩)) (hdevice : c'.device = c.device)
    (hb : info.blockId ≠ 0) (hm : info.machineId ≠ 0) :
    (blockCnt inode < 253 → ∃ u, allocateBlock ms id g now fuel (idle c) =
      some (.ok (if c.device.fails bid then ⟨0, 0, 0⟩ else info), idle u)) ∧
    (¬ blockCnt inode < 253 → allocateBlock ms id g now fuel (idle c) = none) := by
  obtain ⟨rfl, hok⟩ := readInode_reads hread
  obtain ⟨hbid, rfl⟩ := hok bid inode rfl
  rw [allocateBlock_readable hread, bind_ok hprobe, if_neg (not_or.mpr ⟨hb, hm⟩)]
  constructor
  · intro hroom
    have hlen := length_record (c.device.length_blocks bid) hroom info now
    rw [require_of hroom, bind_ok (pure_apply ())]
    by_cases hfails : c.device.fails bid
    · have hwrite : onCluster (onDevice (attempt (writeBlock bid (record (c.device.blocks bid) info now))))
          ⟨c', locked id⟩ = some (.ok (.error .invalid),
            ⟨{ c' with device := { c.device with writeFailCnt := 0 } }, locked id⟩) := by
        apply onCluster_apply (u := ⟨c', locked id⟩)
        apply onPart_apply
        apply attempt_apply
        rw [hdevice]
        exact if_pos hfails
      rw [bind_ok hwrite, bind_ok (unlock_locked _), if_pos hfails]
      exact ⟨_, rfl⟩
    · obtain ⟨r, t, hw, -, -⟩ := writeBlock_cases c.device hbid hlen
      have hr : r = .ok () := by
        unfold writeBlock at hw
        rw [if_neg hfails, dif_pos ⟨hbid, hlen⟩] at hw
        cases hw
        rfl
      subst hr
      have hwrite : onCluster (onDevice (attempt (writeBlock bid (record (c.device.blocks bid) info now))))
          ⟨c', locked id⟩ = some (.ok (.ok ()), ⟨{ c' with device := t }, locked id⟩) := by
        apply onCluster_apply (u := ⟨c', locked id⟩)
        apply onPart_apply
        apply attempt_apply
        rw [hdevice]
        exact hw
      rw [bind_ok hwrite, bind_ok (unlock_locked _), if_neg hfails]
      exact ⟨_, rfl⟩
  · intro hfull
    rw [require, if_neg hfull]
    rfl

end Requests

section Settles

variable {ms : MetadataServer} {c : Cluster logCnt} {id g now : ℕ}

theorem settles_of_granting (h : Granting ms id g c) : Settles ms id g now c := by
  obtain ⟨e, d, hread⟩ | ⟨bid, inode, d, hread, hroom, hfails, hn, i, hi, hfree⟩ := h
  · refine ⟨0, _, _, allocateBlock_error hread, rfl, ?_⟩
    rintro ⟨out, d', hread'⟩
    cases hread.symm.trans hread'
  · obtain ⟨b, v, i', c', hprobe, hdevice, h1, h2, h3⟩ := probe_ends (u := ⟨c, locked id⟩) (i := 0) (j := i)
      (k := i + 1) hn (locked_mac id) (by rw [Nat.zero_add]; exact hfree) (by omega) (Nat.lt_succ_self i)
    have hreg := curId_registered hn g i'
    obtain ⟨u, hrun⟩ := (allocateBlock_probed hread now hprobe hdevice (Nat.ne_of_gt h1)
      (Nat.ne_of_gt hreg.1)).1 hroom
    rw [if_neg hfails] at hrun
    refine ⟨i + 1, _, _, hrun, rfl, fun _ => ⟨fun _ => ⟨hreg, h1, h2, h3⟩, fun hnone => ?_⟩⟩
    exact absurd hfree (hnone _ (curId_registered hn g i))

theorem granting_of_settles (h : Settles ms id g now c) : Granting ms id g c := by
  obtain ⟨fuel, info, t, hrun, -, hanswer⟩ := h
  cases hread : operation.inodeManager.readInode id c.device with
  | none =>
    rw [allocateBlock, bind_ok (lock_idle c), bind_none (onCluster_none hread)] at hrun
    cases hrun
  | some out =>
    obtain ⟨r, d⟩ := out
    cases r with
    | error e => exact Or.inl ⟨e, d, hread⟩
    | ok out =>
      obtain ⟨bid, inode⟩ := out
      have hloop := hrun
      rw [allocateBlock_readable hread] at hloop
      change (probe ms g fuel 0 ⟨c, locked id⟩).bind _ = _ at hloop
      obtain ⟨⟨r, u⟩, hprobe, -⟩ := Option.bind_eq_some_iff.mp hloop
      obtain ⟨hn, j, hj, hlt, hfree⟩ := probe_asked (locked_mac id) hprobe
      obtain ⟨b, v, i', c', hprobe', hdevice, h1, -, -⟩ := probe_ends hn (locked_mac id) hfree hlt hj
      have hreg := curId_registered hn g i'
      obtain ⟨hwith, hwithout⟩ := allocateBlock_probed hread now hprobe' hdevice (Nat.ne_of_gt h1)
        (Nat.ne_of_gt hreg.1)
      by_cases hroom : blockCnt inode < 253
      case neg =>
        cases (hwithout hroom).symm.trans hrun
      rw [Nat.zero_add] at hlt hfree
      refine Or.inr ⟨bid, inode, d, hread, hroom, fun hfails => ?_, hn, j, hlt, hfree⟩
      obtain ⟨w, hw⟩ := hwith hroom
      rw [if_pos hfails] at hw
      cases hw.symm.trans hrun
      obtain ⟨⟨hzero, -⟩, -⟩ := (hanswer ⟨_, d, hread⟩).1 ⟨_, curId_registered hn g j, hfree⟩
      cases hzero

/-- The request settles exactly in these states. With at most `2 ^ 31` data servers
all of them are asked, and a round is the loop of the requests without mutexes. -/
theorem settles_iff_granting : (Settles ms id g now c ↔ Granting ms id g c) ∧
    (ms.numDataServers ≤ 2 ^ 31 → g ≤ ms.numDataServers →
      ((ms.numDataServers ≠ 0 ∧ ∃ i < 2 ^ 31, HasFree (c.servers (curId ms g i))) ↔
        ∃ m, Registered ms m ∧ HasFree (c.servers m)) ∧
      ∀ (i k : ℕ) (u : State logCnt), i + k ≤ ms.numDataServers → (∀ m, u.held (.mac m) = false) →
        probe ms g k i u = (ms.probe g k i u.cluster).map fun out => (out.1, ⟨out.2, u.held⟩)) :=
  ⟨⟨granting_of_settles, settles_of_granting⟩,
    fun hn hg => ⟨asked_iff hn hg, fun _ _ _ hk hheld => probe_round hn hg hk hheld⟩⟩

theorem allocateBlock_never {out : ℕ × List UInt8} {d : BlockManager 4096 4096 logCnt}
    (hread : operation.inodeManager.readInode id c.device = some (.ok out, d))
    (hfull : ∀ m, Registered ms m → ¬ HasFree (c.servers m)) (fuel : ℕ) :
    allocateBlock ms id g now fuel (idle c) = none := by
  obtain ⟨bid, inode⟩ := out
  rw [allocateBlock_readable hread]
  cases hprobe : probe ms g fuel 0 ⟨c, locked id⟩ with
  | none => exact bind_none hprobe
  | some out =>
    obtain ⟨hn, j, -, -, hfree⟩ := probe_asked (locked_mac id) hprobe
    exact absurd hfree (hfull _ (curId_registered hn g _))

def fullServer : Server := (BlockManager.zeroed 4096 4096 0).setBlock 0 (List.replicate 4096 1) List.length_replicate

theorem not_hasFree_fullServer : ¬ HasFree fullServer := by
  rintro ⟨b, -, hlt, hfree⟩
  have hused : allocated fullServer b = true := by
    rw [Versions.allocated_iff, version, versionAt, fullServer, setBlock_blocks, Function.update_self,
      List.getD_eq_getElem?_getD, List.getElem?_replicate_of_lt hlt]
    decide
  rw [hfree] at hused
  cases hused

/-- One data server that is full, and none at all. -/
theorem not_settles_full : ∃ c : Cluster 0, (∀ m, ¬ HasFree (c.servers m)) ∧
    (∃ out, operation.inodeManager.readInode 2 c.device = some (.ok out, c.device)) ∧
    (∀ fuel, allocateBlock ⟨1, by decide⟩ 2 1 0 fuel (idle c) = none) ∧
    ¬ Settles ⟨1, by decide⟩ 2 1 0 c ∧ ¬ Settles ⟨0, by decide⟩ 2 1 0 c := by
  obtain ⟨d, a, s, bid, -, -, hstart, -⟩ := Listing.exists_start
  have hread := hstart.located.readInode (by simp : (2 : ℕ) ∈ ({2, 3} : Set ℕ))
  have hnever : ∀ ms : MetadataServer, ∀ fuel,
      allocateBlock ms 2 1 0 fuel (idle (⟨d, fun _ => fullServer⟩ : Cluster 0)) = none :=
    fun ms => allocateBlock_never hread fun m _ => not_hasFree_fullServer
  have hnot : ∀ ms : MetadataServer, ¬ Settles ms 2 1 0 (⟨d, fun _ => fullServer⟩ : Cluster 0) := by
    rintro ms ⟨fuel, info, t, hrun, -⟩
    cases (hnever ms fuel).symm.trans hrun
  exact ⟨⟨d, fun _ => fullServer⟩, fun m => not_hasFree_fullServer, ⟨_, hread⟩, hnever _, hnot _, hnot _⟩

end Settles

end Chfs.Distributed.Probing
