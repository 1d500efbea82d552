import Chfs.Distributed.Listing
import Chfs.Lib.Ledger
import Mathlib.Logic.Relation

namespace Chfs.Distributed.Ownership

open Lib.Effect Lib.Bytes Lib.Run Lib.Ledger Block.Manager Fs.Inode Fs.Operations BlockMap DataServer
  Requests Listing

variable {logCnt : ℕ}

def pair (info : BlockInfo) : ℕ × ℕ := (info.machineId, info.blockId)

def InUse (ms : MetadataServer) (servers : ℕ → Server) (p : ℕ × ℕ) : Prop :=
  (1 ≤ p.1 ∧ p.1 ≤ ms.numDataServers) ∧ (1 ≤ p.2 ∧ p.2 < 4096) ∧ allocated (servers p.1) p.2 = true

theorem inUse_pair {ms : MetadataServer} {servers : ℕ → Server} {info : BlockInfo} :
    InUse ms servers (pair info) ↔ (1 ≤ info.machineId ∧ info.machineId ≤ ms.numDataServers) ∧
      (1 ≤ info.blockId ∧ info.blockId < 4096) ∧ allocated (servers info.machineId) info.blockId = true :=
  Iff.rfl

/-- The lists own the allocated blocks, at their present versions. -/
structure Owns (ms : MetadataServer) (servers : ℕ → Server) (ids : Set ℕ) (ls : ℕ → List BlockInfo) :
    Prop where
  balanced : Balanced ids (fun id => (ls id).map pair) (InUse ms servers)
  version : ∀ id ∈ ids, ∀ info ∈ ls id,
    (version (servers info.machineId) info.blockId).toNat = info.version

section Owns

variable {ms : MetadataServer} {c : Cluster logCnt} {ids : Set ℕ} {ls : ℕ → List BlockInfo} {id m b : ℕ}

theorem version_granted (hb : 1 ≤ b) (hlt : b < 4096) (m' b' : ℕ) :
    DataServer.version ((granted c m b).servers m') b' =
      if (m', b') = (m, b) then DataServer.version (c.servers m) b + 1
      else DataServer.version (c.servers m') b' := by
  rw [servers_granted]
  by_cases hm : m' = m
  · rw [hm, Function.update_self, version_handedOut hb, version_changed hlt]
    exact if_congr (by simp) rfl rfl
  · rw [Function.update_of_ne hm, if_neg (by simp [hm])]

theorem version_released (hlt : b < 4096) (m' b' : ℕ) :
    DataServer.version ((released c m b).servers m') b' =
      if (m', b') = (m, b) then DataServer.version (c.servers m) b + 1
      else DataServer.version (c.servers m') b' := by
  rw [servers_released]
  by_cases hm : m' = m
  · rw [hm, Function.update_self, version_changed hlt]
    exact if_congr (by simp) rfl rfl
  · rw [Function.update_of_ne hm, if_neg (by simp [hm])]

theorem inUse_of_version {servers servers' : ℕ → Server} {p : ℕ × ℕ}
    (hv : ∀ m' b', DataServer.version (servers' m') b' =
      if (m', b') = p then DataServer.version (servers p.1) p.2 + 1 else DataServer.version (servers m') b')
    (hm : 1 ≤ p.1 ∧ p.1 ≤ ms.numDataServers) (hb : 1 ≤ p.2 ∧ p.2 < 4096) (q : ℕ × ℕ) :
    InUse ms servers' q ↔
      (InUse ms servers q ∧ q ≠ p) ∨ (q = p ∧ ¬ allocated (servers p.1) p.2 = true) := by
  unfold InUse
  rw [Versions.allocated_iff, Versions.allocated_iff, Versions.allocated_iff, hv q.1 q.2]
  by_cases heq : q = p
  · have hodd : (DataServer.version (servers p.1) p.2 + 1).toNat =
        ((DataServer.version (servers p.1) p.2).toNat + 1) % 256 := UInt8.toNat_add _ _
    rw [heq, if_pos rfl, hodd]
    simp only [hm, hb, true_and, ne_eq, not_true_eq_false, and_false, false_or]
    omega
  · rw [if_neg heq]
    simp [heq]

theorem Owns.grant (h : Owns ms c.servers ids ls) (hid : id ∈ ids)
    (hm : 1 ≤ m ∧ m ≤ ms.numDataServers) (hb : 1 ≤ b ∧ b < 4096) (hfree : allocated (c.servers m) b = false) :
    Owns ms (granted c m b).servers ids (Function.update ls id
      (ls id ++ [⟨b, m, (DataServer.version (c.servers m) b + 1).toNat⟩])) := by
  have hnot : ¬ InUse ms c.servers (m, b) := by
    rintro ⟨-, -, hused⟩
    rw [hfree] at hused
    cases hused
  constructor
  case balanced =>
    refine (h.balanced.add hid hnot).congr (fun id' _ => ?_) fun q => ?_
    · by_cases heq : id' = id
      · rw [heq, Function.update_self, Function.update_self, List.map_append]
        rfl
      · rw [Function.update_of_ne heq, Function.update_of_ne heq]
    · rw [inUse_of_version (version_granted hb.1 hb.2) hm hb, hfree]
      by_cases hq : q = (m, b)
      · simp [hq]
      · simp [hq]
  case version =>
    intro id' hid' info hinfo
    rw [version_granted hb.1 hb.2]
    have hold : ∀ id' ∈ ids, ∀ info ∈ ls id', (info.machineId, info.blockId) ≠ (m, b) := by
      rintro id' hid' info hinfo heq
      exact hnot (heq ▸ h.balanced.listed id' hid' _ (List.mem_map_of_mem hinfo))
    by_cases heq : id' = id
    · rw [heq, Function.update_self, List.mem_append, List.mem_singleton] at hinfo
      obtain hinfo | rfl := hinfo
      · rw [if_neg (hold id hid info hinfo)]
        exact h.version id hid info hinfo
      · rw [if_pos rfl]
    · rw [Function.update_of_ne heq] at hinfo
      rw [if_neg (hold id' hid' info hinfo)]
      exact h.version id' hid' info hinfo

theorem Owns.release (h : Owns ms c.servers ids ls) (hid : id ∈ ids) {pos : ℕ} {info : BlockInfo}
    (hpos : (ls id)[pos]? = some info) (hb : info.blockId = b) (hm : info.machineId = m) :
    Owns ms (released c m b).servers ids (Function.update ls id ((ls id).eraseIdx pos)) := by
  have hplace : ((ls id).map pair)[pos]? = some (m, b) := by
    rw [List.getElem?_map, hpos, ← hb, ← hm]
    rfl
  obtain ⟨h1, h2, hused⟩ := h.balanced.listed id hid _ (List.mem_of_getElem? hplace)
  have hlt : b < 4096 := h2.2
  have hrest := h.balanced.remove hid hplace
  have hmap : ∀ id', (Function.update ls id ((ls id).eraseIdx pos) id').map pair =
      Function.update (fun id => (ls id).map pair) id (((ls id).map pair).eraseIdx pos) id' := by
    intro id'
    by_cases heq : id' = id
    · rw [heq, Function.update_self, Function.update_self, List.eraseIdx_eq_take_drop_succ,
        List.eraseIdx_eq_take_drop_succ, List.map_append, List.map_take, List.map_drop]
    · rw [Function.update_of_ne heq, Function.update_of_ne heq]
  constructor
  case balanced =>
    refine hrest.congr (fun id' _ => hmap id') fun q => ?_
    rw [inUse_of_version (version_released hlt) h1 h2, hused]
    simp
  case version =>
    intro id' hid' info' hinfo'
    have hne : pair info' ≠ (m, b) := by
      refine (hrest.listed id' hid' (pair info') ?_).2
      rw [← hmap]
      exact List.mem_map_of_mem hinfo'
    rw [version_released hlt, if_neg (by exact hne)]
    apply h.version id' hid'
    by_cases heq : id' = id
    · rw [heq, Function.update_self] at hinfo'
      exact heq ▸ List.mem_of_mem_eraseIdx hinfo'
    · rwa [Function.update_of_ne heq] at hinfo'

theorem Owns.congr {servers servers' : ℕ → Server} (h : Owns ms servers ids ls)
    (hv : ∀ m' b', 1 ≤ b' → DataServer.version (servers' m') b' = DataServer.version (servers m') b') :
    Owns ms servers' ids ls where
  balanced := by
    refine h.balanced.congr (fun _ _ => rfl) fun p => ?_
    refine and_congr_right fun _ => and_congr_right fun hb => ?_
    rw [Versions.allocated_iff, Versions.allocated_iff, hv p.1 p.2 hb.1]
  version := by
    intro id hid info hinfo
    have hused := h.balanced.listed id hid _ (List.mem_map_of_mem hinfo)
    rw [hv info.machineId info.blockId hused.2.1.1]
    exact h.version id hid info hinfo

/-- The blocks that are owned after a request are those of the next lists. -/
theorem Owns.step {bid : ℕ → ℕ} {c' : Cluster logCnt} {e : Event} (h : Owns ms c.servers ids ls)
    (hl : Lists c ids bid ls) (hs : Step ms ids c e c') :
    Owns ms c'.servers ids fun id => next id (ls id) e := by
  cases hs with
  | @allocateBlock _ id g now info hid hrun =>
    obtain ⟨m, b, h1, h2, h3, h4, h5, -, hr, -, inode, hlen, -, rfl⟩ :=
      allocateBlock_cases hl.works hl.located hid (hl.maps id hid) hrun
    cases hr
    rw [next_allocated, servers_written]
    exact h.grant hid ⟨h1, h2⟩ ⟨h3, h4⟩ h5
  | @freeBlock _ id b m now hid hrun =>
    obtain ⟨hr, -⟩ | ⟨-, h1, h2, h3, h4, h5, pos, inode, hlen, hplace, -, rfl⟩ :=
      Requests.freeBlock_cases hl.works hl.located hid (hl.maps id hid) hrun
    · cases hr
    · obtain ⟨hpos, hat, -⟩ := List.findIdx?_eq_some_iff_getElem.mp hplace
      obtain ⟨hb, hm⟩ := of_decide_eq_true hat
      rw [next_freed hplace, servers_written]
      exact h.release hid (List.getElem?_eq_getElem hpos) hb hm
  | @refused _ id b m now hid hrun =>
    obtain ⟨-, rfl, -⟩ | ⟨hr, -⟩ := Requests.freeBlock_cases hl.works hl.located hid (hl.maps id hid) hrun
    · exact h
    · cases hr
  | @getBlockMap _ id l hid hrun =>
    rw [getBlockMap_eq hl.located hid (hl.maps id hid)] at hrun
    cases hrun
    exact h
  | @writeData _ m b offset buffer done _ _ hrun =>
    obtain ⟨s, hw, rfl⟩ := onPart_eq_some.mp hrun
    refine h.congr fun m' b' hb' => ?_
    by_cases hm : m' = m
    · simp only [hm, Function.update_self]
      exact version_writeData (hl.works m) hw b'
    · simp only [Function.update_of_ne hm]

end Owns

section Unused

variable {ms : MetadataServer} {c c₀ : Cluster logCnt} {ids : Set ℕ} {bid : ℕ → ℕ} {es : List Event}

def Unused (ms : MetadataServer) (c : Cluster logCnt) : Prop := ∀ p, ¬ InUse ms c.servers p

theorem owns_of_unused (h : Unused ms c) : Owns ms c.servers ids fun _ => [] where
  balanced := balanced_empty h fun _ _ => rfl
  version := by
    intro id _ info hinfo
    cases hinfo

theorem owns_of_path (h₀ : Start c₀ ids bid) (hunused : Unused ms c₀) (h : Path (Step ms ids) c₀ es c) :
    Owns ms c.servers ids fun id => listing id es := by
  have hinv : Lists c ids bid (fun id => listing id es) ∧ Owns ms c.servers ids fun id => listing id es := by
    refine h.invariant (I := fun es c => Lists c ids bid (fun id => listing id es) ∧
      Owns ms c.servers ids fun id => listing id es)
      ⟨⟨h₀.works, h₀.located, h₀.empty⟩, owns_of_unused hunused⟩ ?_
    rintro es c e c' ⟨hl, ho⟩ hs
    rw [listing_snoc_fun]
    exact ⟨hl.step hs, ho.step hl hs⟩
  exact hinv.2

end Unused

/-- How far a request is that holds the lock of its inode. It has a copy of the
inode and of its block id. -/
inductive Request
  | allocating (bid : ℕ) (inode : List UInt8) (generatedId tryOffset : ℕ)
  | granted (bid : ℕ) (inode : List UInt8) (info : BlockInfo)
  | freeing (bid : ℕ) (inode : List UInt8) (blockId machineId pos : ℕ)
  | freed (bid : ℕ) (inode : List UInt8) (pos : ℕ)
  | finished

/-- A cluster and, for every inode, the request that holds `inode_mtx[id]`. -/
structure System (logCnt : ℕ) where
  cluster : Cluster logCnt
  holder : ℕ → Option Request

def System.move (s : System logCnt) (id : ℕ) (c : Cluster logCnt) (r : Option Request) : System logCnt :=
  ⟨c, Function.update s.holder id r⟩

/-- The steps of `allocate_block` and `free_block`. A call to a data server is
one step, since it is made under `mac_mtx`. -/
inductive Moves (ms : MetadataServer) (ids : Set ℕ) : System logCnt → System logCnt → Prop
  | lockAllocate {s : System logCnt} {id bid g : ℕ} {inode : List UInt8} : id ∈ ids → s.holder id = none →
      operation.inodeManager.readInode id s.cluster.device = some (.ok (bid, inode), s.cluster.device) →
      Moves ms ids s (s.move id s.cluster (some (.allocating bid inode g 0)))
  | lockFree {s : System logCnt} {id bid b m pos : ℕ} {inode : List UInt8} : id ∈ ids → s.holder id = none →
      operation.inodeManager.readInode id s.cluster.device = some (.ok (bid, inode), s.cluster.device) →
      findBlock inode b m (blockCnt inode) 0 = some pos →
      Moves ms ids s (s.move id s.cluster (some (.freeing bid inode b m pos)))
  | notFound {s : System logCnt} {id bid b m : ℕ} {inode : List UInt8} : id ∈ ids → s.holder id = none →
      operation.inodeManager.readInode id s.cluster.device = some (.ok (bid, inode), s.cluster.device) →
      findBlock inode b m (blockCnt inode) 0 = none →
      Moves ms ids s (s.move id s.cluster (some .finished))
  | callAlloc {s : System logCnt} {c : Cluster logCnt} {id bid g i b v : ℕ} {inode : List UInt8} :
      s.holder id = some (.allocating bid inode g i) → 0 < ms.numDataServers →
      call (ms.curId g i) allocBlock s.cluster = some (.ok (b, v), c) → b ≠ 0 →
      Moves ms ids s (s.move id c (some (.granted bid inode ⟨b, ms.curId g i, v⟩)))
  | callFull {s : System logCnt} {c : Cluster logCnt} {id bid g i v : ℕ} {inode : List UInt8} :
      s.holder id = some (.allocating bid inode g i) → 0 < ms.numDataServers →
      call (ms.curId g i) allocBlock s.cluster = some (.ok (0, v), c) →
      Moves ms ids s (s.move id c (some (.allocating bid inode g (i + 1))))
  | callFree {s : System logCnt} {c : Cluster logCnt} {id bid b m pos : ℕ} {inode : List UInt8} :
      s.holder id = some (.freeing bid inode b m pos) → 1 ≤ m → m ≤ ms.numDataServers →
      call m (DataServer.freeBlock b) s.cluster = some (.ok true, c) →
      Moves ms ids s (s.move id c (some (.freed bid inode pos)))
  | callRefused {s : System logCnt} {c : Cluster logCnt} {id bid b m pos : ℕ} {inode : List UInt8} :
      s.holder id = some (.freeing bid inode b m pos) → 1 ≤ m → m ≤ ms.numDataServers →
      call m (DataServer.freeBlock b) s.cluster = some (.ok false, c) →
      Moves ms ids s (s.move id c (some .finished))
  | writeAllocated {s : System logCnt} {c : Cluster logCnt} {id bid now : ℕ} {inode : List UInt8}
      {info : BlockInfo} {r : Except ErrorType Unit} :
      s.holder id = some (.granted bid inode info) → blockCnt inode < 253 →
      onDevice (attempt (writeBlock bid (record inode info now))) s.cluster = some (.ok r, c) →
      Moves ms ids s (s.move id c (some .finished))
  | writeFreed {s : System logCnt} {c : Cluster logCnt} {id bid pos now : ℕ} {inode : List UInt8}
      {r : Except ErrorType Unit} : s.holder id = some (.freed bid inode pos) →
      onDevice (attempt (writeBlock bid (dropEntry inode pos now))) s.cluster = some (.ok r, c) →
      Moves ms ids s (s.move id c (some .finished))
  | unlock {s : System logCnt} {id : ℕ} : s.holder id = some .finished →
      Moves ms ids s (s.move id s.cluster none)

/-- The inode as it is stored lists `l`. The blocks that belong to the file are
those of `l'`: the two differ while a request is between its call and its
write. -/
def Agrees (bid : ℕ) (inode : List UInt8) (l l' : List BlockInfo) : Option Request → Prop
  | some (.allocating bid' inode' _ _) => bid' = bid ∧ inode' = inode ∧ l' = l
  | some (.granted bid' inode' info) => bid' = bid ∧ inode' = inode ∧ Fits info ∧ l' = l ++ [info]
  | some (.freeing bid' inode' b m pos) => bid' = bid ∧ inode' = inode ∧ placeOf l b m = some pos ∧ l' = l
  | some (.freed bid' inode' pos) => bid' = bid ∧ inode' = inode ∧ pos < l.length ∧ l' = l.eraseIdx pos
  | _ => l' = l

structure Consistent (ms : MetadataServer) (ids : Set ℕ) (bid : ℕ → ℕ) (s : System logCnt)
    (ls ls' : ℕ → List BlockInfo) : Prop where
  lists : Lists s.cluster ids bid ls
  owns : Owns ms s.cluster.servers ids ls'
  busy : ∀ id, s.holder id ≠ none → id ∈ ids
  agrees : ∀ id ∈ ids, Agrees (bid id) (s.cluster.device.blocks (bid id)) (ls id) (ls' id) (s.holder id)

section Moves

variable {ms : MetadataServer} {ids : Set ℕ} {bid : ℕ → ℕ} {s t : System logCnt} {c₀ : Cluster logCnt}
  {ls ls' : ℕ → List BlockInfo} {id : ℕ} {r : Option Request}

theorem Consistent.move (h : Consistent ms ids bid s ls ls') (hid : id ∈ ids) {c : Cluster logCnt}
    {l l' : List BlockInfo} (hlists : Lists c ids bid (Function.update ls id l))
    (howns : Owns ms c.servers ids (Function.update ls' id l'))
    (hframe : ∀ id' ∈ ids, id' ≠ id → c.device.blocks (bid id') = s.cluster.device.blocks (bid id'))
    (hr : Agrees (bid id) (c.device.blocks (bid id)) l l' r) :
    Consistent ms ids bid (s.move id c r) (Function.update ls id l) (Function.update ls' id l') where
  lists := hlists
  owns := howns
  busy := by
    intro id' hne
    by_cases heq : id' = id
    · exact heq ▸ hid
    · refine h.busy id' ?_
      change Function.update s.holder id r id' ≠ none at hne
      rwa [Function.update_of_ne heq] at hne
  agrees := by
    intro id' hid'
    change Agrees _ (c.device.blocks (bid id')) _ _ (Function.update s.holder id r id')
    by_cases heq : id' = id
    · rw [heq, Function.update_self, Function.update_self, Function.update_self]
      exact hr
    · rw [Function.update_of_ne heq, Function.update_of_ne heq, Function.update_of_ne heq,
        hframe id' hid' heq]
      exact h.agrees id' hid'

theorem Consistent.stay (h : Consistent ms ids bid s ls ls') (hid : id ∈ ids)
    (hr : Agrees (bid id) (s.cluster.device.blocks (bid id)) (ls id) (ls' id) r) :
    Consistent ms ids bid (s.move id s.cluster r) ls ls' := by
  have hlists : Lists s.cluster ids bid (Function.update ls id (ls id)) := by
    rw [Function.update_eq_self]
    exact h.lists
  have howns : Owns ms s.cluster.servers ids (Function.update ls' id (ls' id)) := by
    rw [Function.update_eq_self]
    exact h.owns
  have hmove := h.move hid hlists howns (fun _ _ _ => rfl) hr
  rwa [Function.update_eq_self, Function.update_eq_self] at hmove

theorem Consistent.write (h : Consistent ms ids bid s ls ls') (hid : id ∈ ids) {inode : List UInt8}
    (hlen : inode.length = 4096) (hm : Maps inode (ls' id)) :
    Consistent ms ids bid (s.move id (written s.cluster (bid id) inode hlen) (some .finished))
      (Function.update ls id (ls' id)) ls' := by
  have howns : Owns ms s.cluster.servers ids (Function.update ls' id (ls' id)) := by
    rw [Function.update_eq_self]
    exact h.owns
  have hframe : ∀ id' ∈ ids, id' ≠ id → (written s.cluster (bid id) inode hlen).device.blocks (bid id') =
      s.cluster.device.blocks (bid id') := by
    intro id' hid' hne
    exact Function.update_of_ne (fun heq => hne (h.lists.located.distinct id' hid' id hid heq)) _ _
  have hmove := h.move (r := some .finished) hid (h.lists.write hid hlen hm) howns hframe rfl
  rwa [Function.update_eq_self] at hmove

theorem Consistent.agrees_of (h : Consistent ms ids bid s ls ls') {q : Request} (hq : s.holder id = some q) :
    id ∈ ids ∧ Agrees (bid id) (s.cluster.device.blocks (bid id)) (ls id) (ls' id) (some q) := by
  have hid : id ∈ ids := h.busy id (by simp [hq])
  exact ⟨hid, hq ▸ h.agrees id hid⟩

theorem Consistent.step (h : Consistent ms ids bid s ls ls') (hs : Moves ms ids s t) :
    ∃ ls ls', Consistent ms ids bid t ls ls' := by
  -- the inode that a request reads
  have hread : ∀ {id bid' : ℕ} {inode : List UInt8}, id ∈ ids →
      operation.inodeManager.readInode id s.cluster.device = some (.ok (bid', inode), s.cluster.device) →
      bid' = bid id ∧ inode = s.cluster.device.blocks (bid id) := by
    intro id bid' inode hid hrun
    rw [h.lists.located.readInode hid] at hrun
    cases hrun
    exact ⟨rfl, rfl⟩
  have hquiet : ∀ {id : ℕ}, id ∈ ids → s.holder id = none → ls' id = ls id := by
    intro id hid hnone
    have := h.agrees id hid
    rw [hnone] at this
    exact this
  cases hs with
  | @lockAllocate id bid' g inode hid hnone hrun =>
    obtain ⟨rfl, rfl⟩ := hread hid hrun
    exact ⟨ls, ls', h.stay hid ⟨rfl, rfl, hquiet hid hnone⟩⟩
  | @lockFree id bid' b m pos inode hid hnone hrun hfind =>
    obtain ⟨rfl, rfl⟩ := hread hid hrun
    rw [(h.lists.maps id hid).blockCnt, placeOf_eq (h.lists.maps id hid)] at hfind
    exact ⟨ls, ls', h.stay hid ⟨rfl, rfl, hfind, hquiet hid hnone⟩⟩
  | @notFound id bid' b m inode hid hnone hrun hfind =>
    exact ⟨ls, ls', h.stay hid (hquiet hid hnone)⟩
  | @callAlloc c id bid' g i b v inode hq hn hrun hb =>
    obtain ⟨hid, rfl, rfl, heq⟩ := h.agrees_of hq
    obtain ⟨server, hcall, rfl⟩ := onPart_eq_some.mp hrun
    obtain ⟨hr, -⟩ | ⟨b', hr, h1, h2, hfree, -, rfl⟩ := allocBlock_cases (h.lists.works _) hcall
    · cases hr
      exact absurd rfl hb
    · obtain ⟨rfl, rfl⟩ := Prod.mk.inj (Except.ok.inj hr)
      have hm := curId_mem hn g i
      have howns := h.owns.grant hid hm ⟨h1, h2⟩ hfree
      have hserved : Lists (granted s.cluster (ms.curId g i) b) ids bid (Function.update ls id (ls id)) := by
        rw [Function.update_eq_self]
        exact h.lists.serve (h.lists.works _)
      refine ⟨_, _, h.move hid hserved howns (fun _ _ _ => rfl) ⟨rfl, rfl, fits_granted hm.2 h2, ?_⟩⟩
      rw [heq]
  | @callFull c id bid' g i v inode hq hn hrun =>
    obtain ⟨hid, rfl, rfl, heq⟩ := h.agrees_of hq
    obtain ⟨server, hcall, rfl⟩ := onPart_eq_some.mp hrun
    obtain ⟨-, rfl, -⟩ | ⟨b', hr, h1, -⟩ := allocBlock_cases (h.lists.works _) hcall
    · have hstay := h.stay (r := some (.allocating (bid id) _ g (i + 1))) hid ⟨rfl, rfl, heq⟩
      rw [Function.update_eq_self]
      exact ⟨ls, ls', hstay⟩
    · have hzero := (Prod.mk.inj (Except.ok.inj hr)).1
      omega
  | @callFree c id bid' b m pos inode hq h1 h2 hrun =>
    obtain ⟨hid, rfl, rfl, hplace, heq⟩ := h.agrees_of hq
    obtain ⟨server, hcall, rfl⟩ := onPart_eq_some.mp hrun
    obtain ⟨hr, -⟩ | ⟨-, h3, h4, h5, rfl⟩ := DataServer.freeBlock_cases (h.lists.works _) hcall
    · cases hr
    · obtain ⟨hpos, hat, -⟩ := List.findIdx?_eq_some_iff_getElem.mp hplace
      obtain ⟨hb, hm⟩ := of_decide_eq_true hat
      have hget : (ls' id)[pos]? = some (ls id)[pos] := by
        rw [heq]
        exact List.getElem?_eq_getElem hpos
      have howns := h.owns.release hid hget hb hm
      have hserved : Lists (released s.cluster m b) ids bid (Function.update ls id (ls id)) := by
        rw [Function.update_eq_self]
        exact h.lists.serve (h.lists.works _)
      refine ⟨_, _, h.move hid hserved howns (fun _ _ _ => rfl) ⟨rfl, rfl, hpos, ?_⟩⟩
      rw [heq]
  | @callRefused c id bid' b m pos inode hq h1 h2 hrun =>
    obtain ⟨hid, rfl, rfl, hplace, heq⟩ := h.agrees_of hq
    obtain ⟨server, hcall, rfl⟩ := onPart_eq_some.mp hrun
    obtain ⟨-, rfl, -⟩ | ⟨hr, -⟩ := DataServer.freeBlock_cases (h.lists.works _) hcall
    · have hstay := h.stay (r := some .finished) hid heq
      rw [Function.update_eq_self]
      exact ⟨ls, ls', hstay⟩
    · cases hr
  | @writeAllocated c id bid' now inode info r hq hlt hrun =>
    obtain ⟨hid, rfl, rfl, hfits, heq⟩ := h.agrees_of hq
    have hmaps := h.lists.maps id hid
    rw [hmaps.blockCnt] at hlt
    have hnew := hmaps.record hlt hfits now
    rw [onDevice_write h.lists.located hid hnew.shape.length] at hrun
    cases hrun
    exact ⟨_, _, h.write hid _ (heq ▸ hnew)⟩
  | @writeFreed c id bid' pos now inode r hq hrun =>
    obtain ⟨hid, rfl, rfl, hpos, heq⟩ := h.agrees_of hq
    have hnew := (h.lists.maps id hid).dropEntry hpos now
    rw [onDevice_write h.lists.located hid hnew.shape.length] at hrun
    cases hrun
    exact ⟨_, _, h.write hid _ (heq ▸ hnew)⟩
  | @unlock id hq =>
    obtain ⟨hid, heq⟩ := h.agrees_of hq
    exact ⟨ls, ls', h.stay hid heq⟩

theorem consistent_of_reachable (h₀ : Start c₀ ids bid) (hfree : Unused ms c₀)
    (h : Relation.ReflTransGen (Moves ms ids) ⟨c₀, fun _ => none⟩ s) :
    ∃ ls ls', Consistent ms ids bid s ls ls' := by
  induction h with
  | refl =>
    refine ⟨fun _ => [], fun _ => [], ⟨h₀.works, h₀.located, h₀.empty⟩, owns_of_unused hfree, ?_,
      fun _ _ => rfl⟩
    intro id hne
    exact absurd rfl hne
  | tail _ hs ih =>
    obtain ⟨ls, ls', hc⟩ := ih
    exact hc.step hs

/-- When no request is under way, every allocated block is in one place of one
block map, and no other block in any. -/
theorem balanced_of_quiet (h₀ : Start c₀ ids bid) (hfree : Unused ms c₀)
    (h : Relation.ReflTransGen (Moves ms ids) ⟨c₀, fun _ => none⟩ s) (hquiet : ∀ id, s.holder id = none) :
    ∃ maps : ℕ → List BlockInfo,
      (∀ id ∈ ids, ms.getBlockMap id s.cluster = some (.ok (maps id), s.cluster)) ∧
      Balanced ids (fun id => (maps id).map pair) (InUse ms s.cluster.servers) := by
  obtain ⟨ls, ls', hc⟩ := consistent_of_reachable h₀ hfree h
  refine ⟨fun id => (ls id).map trimmed, fun id hid => ?_, ?_⟩
  · exact getBlockMap_eq hc.lists.located hid (hc.lists.maps id hid)
  · refine hc.owns.balanced.congr (fun id hid => ?_) fun _ => Iff.rfl
    have heq := hc.agrees id hid
    rw [hquiet id] at heq
    rw [show ls' id = ls id from heq, List.map_map]
    rfl

end Moves

theorem moves_allocate {ids : Set ℕ} {bid : ℕ → ℕ} {s : System 0} {id b : ℕ} {l : List BlockInfo} (hid : id ∈ ids)
    (hl : Located s.cluster.device ids bid) (hm : Maps (s.cluster.device.blocks (bid id)) l) (hle : l.length < 253)
    (hholder : s.holder id = some (.allocating (bid id) (s.cluster.device.blocks (bid id)) 1 0))
    (hw : (s.cluster.servers 1).maybeFailed = false)
    (hfree : findFree ((s.cluster.servers 1).blocks 0) 4095 1 = some b) :
    ∃ t : System 0, Relation.ReflTransGen (Moves single ids) s t ∧ t.holder = Function.update s.holder id none ∧
      t.cluster.servers = (granted s.cluster 1 b).servers ∧ Located t.cluster.device ids bid ∧
      ∀ id' ∈ ids, id' ≠ id → t.cluster.device.blocks (bid id') = s.cluster.device.blocks (bid id') := by
  obtain ⟨hb, hlt, -⟩ := findFree_some hfree
  have hmaps := hm.record hle
    (fits_granted single_pos (by omega : b < 4096) (v := version (s.cluster.servers 1) b + 1)) 0
  have hcnt : blockCnt (s.cluster.device.blocks (bid id)) < 253 := by
    rw [hm.blockCnt]
    exact hle
  have hrun := ((Relation.ReflTransGen.single (r := Moves single ids)
    (.callAlloc hholder (by decide) (call_free hw hfree) (by omega))).tail
    (.writeAllocated (Function.update_self ..) hcnt (onDevice_write (c := granted s.cluster 1 b) hl hid
      hmaps.shape.length))).tail (.unlock (Function.update_self ..))
  refine ⟨_, hrun, ?_, rfl, hl.write hid hmaps.shape.length, fun id' hid' hne => ?_⟩
  · simp only [System.move, Function.update_idem]
  · exact Function.update_of_ne (fun heq => hne (hl.distinct id' hid' id hid heq)) ..

/-- Both files get a block, and one request comes whole between the steps of the
other. -/
theorem balanced_of_quiet_two : ∃ (c₀ : Cluster 0) (s : System 0) (bid : ℕ → ℕ),
    sampleFiles (BlockManager.zeroed 4096 4096 0) = some (.ok (), c₀.device) ∧ Start c₀ {2, 3} bid ∧
    Relation.ReflTransGen (Moves single {2, 3}) ⟨c₀, fun _ => none⟩ s ∧
    (InUse single s.cluster.servers (1, 1) ∧ InUse single s.cluster.servers (1, 2)) ∧
    ∃ maps : ℕ → List BlockInfo,
      (∀ id ∈ ({2, 3} : Set ℕ), single.getBlockMap id s.cluster = some (.ok (maps id), s.cluster)) ∧
      Balanced {2, 3} (fun id => (maps id).map pair) (InUse single s.cluster.servers) := by
  obtain ⟨d, a, server, bid, hfiles, -, h₀, hv⟩ := exists_start
  let c₀ : Cluster 0 := ⟨d, fun _ => server⟩
  have hver : ∀ m b, 1 ≤ b → b < 4096 → version (c₀.servers m) b = 0 := fun _ b hb hlt => hv b hb hlt
  have hunused : Unused single c₀ := by
    rintro p ⟨-, hb, hused⟩
    rw [Versions.allocated_iff, hver _ p.2 hb.1 hb.2] at hused
    cases hused
  have h2 : (2 : ℕ) ∈ ({2, 3} : Set ℕ) := Or.inl rfl
  have h3 : (3 : ℕ) ∈ ({2, 3} : Set ℕ) := Or.inr rfl
  -- block 1 is handed out first, then block 2
  have hver₁ : ∀ b, 1 ≤ b → b < 4096 → version ((granted c₀ 1 1).servers 1) b = if b = 1 then 1 else 0 := by
    intro b hb hlt
    rw [version_granted (Nat.le_refl 1) (by decide), hver 1 1 (Nat.le_refl 1) (by decide), hver 1 b hb hlt]
    exact if_congr (by simp) rfl rfl
  have hfirst : findFree ((c₀.servers 1).blocks 0) 4095 1 = some 1 := by
    have hnot : ¬ allocated (c₀.servers 1) 1 = true := by
      rw [Versions.allocated_iff, hver 1 1 (Nat.le_refl 1) (by decide)]
      decide
    rw [findFree, if_neg (by exact hnot)]
  have hsecond : findFree (((granted c₀ 1 1).servers 1).blocks 0) 4095 1 = some 2 := by
    have hused : allocated ((granted c₀ 1 1).servers 1) 1 = true := by
      rw [Versions.allocated_iff, hver₁ 1 (Nat.le_refl 1) (by decide)]
      decide
    have hnot : ¬ allocated ((granted c₀ 1 1).servers 1) 2 = true := by
      rw [Versions.allocated_iff, hver₁ 2 (by decide) (by decide)]
      decide
    rw [findFree, if_pos (by exact hused), findFree, if_neg (by exact hnot)]
  let s₁ := (⟨c₀, fun _ => none⟩ : System 0).move 3 c₀ (some (.allocating (bid 3) (d.blocks (bid 3)) 1 0))
  let s₂ := s₁.move 2 c₀ (some (.allocating (bid 2) (d.blocks (bid 2)) 1 0))
  have hlock₃ : Moves single {2, 3} ⟨c₀, fun _ => none⟩ s₁ := .lockAllocate h3 rfl (h₀.located.readInode h3)
  have hlock₂ : Moves single {2, 3} s₁ s₂ := .lockAllocate h2 rfl (h₀.located.readInode h2)
  obtain ⟨t₁, hrun₁, hholder₁, hservers₁, hl₁, hsame₁⟩ := moves_allocate (s := s₂) h2 h₀.located (h₀.empty 2 h2)
    (by decide) rfl (h₀.works 1) hfirst
  have hservers : t₁.cluster.servers = (granted c₀ 1 1).servers := hservers₁
  have hinode : t₁.cluster.device.blocks (bid 3) = d.blocks (bid 3) := hsame₁ 3 h3 (by decide)
  obtain ⟨t₂, hrun₂, hholder₂, hservers₂, -⟩ := moves_allocate (s := t₁) (b := 2) h3 hl₁
    (hinode ▸ h₀.empty 3 h3) (by decide) (by rw [hholder₁, hinode]; rfl) (by rw [hservers]; exact h₀.works 1)
    (by rw [hservers]; exact hsecond)
  have hrun : Relation.ReflTransGen (Moves single {2, 3}) ⟨c₀, fun _ => none⟩ t₂ :=
    (((Relation.ReflTransGen.single hlock₃).tail hlock₂).trans hrun₁).trans hrun₂
  have hused : ∀ b, 1 ≤ b → b ≤ 2 → InUse single t₂.cluster.servers (1, b) := by
    intro b hb hle
    refine ⟨⟨Nat.le_refl 1, Nat.le_refl 1⟩, ⟨hb, by omega⟩, ?_⟩
    rw [hservers₂, Versions.allocated_iff, version_granted (by decide) (by decide), hservers, hver₁ 2 (by decide)
      (by decide), hver₁ b hb (by omega)]
    obtain rfl | rfl : b = 1 ∨ b = 2 := by omega
    all_goals decide
  refine ⟨c₀, t₂, bid, hfiles, h₀, hrun, ⟨hused 1 (by decide) (by decide), hused 2 (by decide) (by decide)⟩,
    balanced_of_quiet h₀ hunused hrun fun id => ?_⟩
  rw [hholder₂, hholder₁]
  simp +contextual [s₂, s₁, System.move, Function.update_apply]

end Chfs.Distributed.Ownership
