import Chfs.Distributed.CatalogRuns
import Chfs.Distributed.Client
import Chfs.Distributed.Mounts

namespace Chfs.Distributed.MountedFiles

open Lib.Effect Lib.Bytes Lib.Ledger Lib.Server Block.Manager Fs.Inode Fs.Operations Fs.Files Fs.Storage BlockMap
  DataServer Requests Listing Ownership Client Catalogs CatalogRuns Mounts
open Fs.Volumes (Node put IsFile IsDirectory)

variable {logCnt : ℕ}

def freeData (ms : MetadataServer) (servers : ℕ → Server) : Finset (ℕ × ℕ) :=
  (Finset.Icc 1 ms.numDataServers ×ˢ Finset.Ico 1 4096).filter fun p => allocated (servers p.1) p.2 = false

/-- The bytes of the files are on the data servers, where nothing else is
allocated. -/
structure Mirrors (ms : MetadataServer) (c : Cluster logCnt) (x : Catalog) (m : Mount) : Prop where
  disk : m.disk = x.disk
  contents : ∀ id, m.contents id = content c (x.maps id)
  room : (freeData ms c.servers).card = m.room
  owns : Owns ms c.servers Set.univ x.maps
  small : ∀ p b, (1 ≤ p ∧ p ≤ ms.numDataServers) → (1 ≤ b ∧ b < 4096) →
    (version (c.servers p) b).toNat < if allocated (c.servers p) b then 32 else 31

section Free

variable {ms : MetadataServer} {c c' : Cluster logCnt} {servers : ℕ → Server} {generatedId : ℕ} {p : ℕ × ℕ}

theorem mem_freeData : p ∈ freeData ms servers ↔ (1 ≤ p.1 ∧ p.1 ≤ ms.numDataServers) ∧ (1 ≤ p.2 ∧ p.2 < 4096) ∧
    allocated (servers p.1) p.2 = false := by
  unfold freeData
  rw [Finset.mem_filter, Finset.mem_product, Finset.mem_Icc, Finset.mem_Ico, and_assoc]

theorem mem_freeData_of_chosen (h : chosen ms servers generatedId = some p) : p ∈ freeData ms servers := by
  obtain ⟨hm, hfree⟩ := chosen_eq_some h
  obtain ⟨hb, hlt, hfree, -⟩ := findFree_some hfree
  exact mem_freeData.mpr ⟨hm, ⟨hb, by omega⟩, hfree⟩

theorem freeData_of_chosen_none (h : chosen ms servers generatedId = none) : freeData ms servers = ∅ := by
  refine Finset.eq_empty_of_forall_notMem fun p hp => ?_
  obtain ⟨hm, hb, hfree⟩ := mem_freeData.mp hp
  obtain ⟨j, hj, hcur⟩ := exists_curId hm.1 hm.2 generatedId
  have hnone := List.findSome?_eq_none_iff.mp h j (List.mem_range.mpr hj)
  rw [Option.map_eq_none_iff, hcur] at hnone
  have hall : allocated (servers p.1) p.2 = true := findFree_none hnone hb.1 (by omega)
  rw [hfree] at hall
  cases hall

theorem freeData_congr (h : ∀ m b, version (c'.servers m) b = version (c.servers m) b) :
    freeData ms c'.servers = freeData ms c.servers := by
  ext p
  rw [mem_freeData, mem_freeData, ← Bool.not_eq_true, ← Bool.not_eq_true, Versions.allocated_iff,
    Versions.allocated_iff, h]

theorem freeData_granted (hp : p ∈ freeData ms c.servers) :
    freeData ms (granted c p.1 p.2).servers = (freeData ms c.servers).erase p := by
  obtain ⟨-, hb, hfree⟩ := mem_freeData.mp hp
  ext q
  rw [Finset.mem_erase, mem_freeData, mem_freeData, ← Bool.not_eq_true, ← Bool.not_eq_true, Versions.allocated_iff,
    Versions.allocated_iff, version_granted hb.1 hb.2]
  rw [← Bool.not_eq_true, Versions.allocated_iff] at hfree
  by_cases heq : q = p
  · have hval : (version (c.servers p.1) p.2 + 1).toNat = ((version (c.servers p.1) p.2).toNat + 1) % 256 :=
      UInt8.toNat_add _ _
    rw [heq, if_pos rfl, hval]
    simp only [ne_eq, not_true_eq_false, false_and, iff_false]
    omega
  · rw [if_neg heq]
    simp only [ne_eq, heq, not_false_eq_true, true_and]

theorem card_granted (hp : p ∈ freeData ms c.servers) :
    (freeData ms (granted c p.1 p.2).servers).card + 1 = (freeData ms c.servers).card := by
  rw [freeData_granted hp, Finset.card_erase_add_one hp]

theorem card_of_unused (h : Unused ms c) : (freeData ms c.servers).card = ms.numDataServers * 4095 := by
  unfold freeData
  rw [Finset.filter_true_of_mem, Finset.card_product, Nat.card_Icc, Nat.card_Ico]
  · rfl
  · intro p hp
    rw [Finset.mem_product, Finset.mem_Icc, Finset.mem_Ico] at hp
    rw [← Bool.not_eq_true]
    exact fun hused => h p ⟨hp.1, hp.2, hused⟩

end Free

section Files

variable {ms : MetadataServer} {others : Set ℕ} {raw : ℕ → List UInt8} {c : Cluster logCnt}
  {files : ℕ → Option File} {x : Catalog} {m : Mount} {id now : ℕ}

def inodeOf (files : ℕ → Option File) (id : ℕ) : ℕ := ((files id).map File.inode).getD 0

theorem lists_of_keeps (h : Keeps others raw c files x) (hw : WellFormed ms x) :
    Lists c {i | IsFile x.disk.volume i} (inodeOf files) x.maps := by
  have hfile : ∀ i ∈ {i | IsFile x.disk.volume i}, ∃ b, files i = some ⟨b, [], invalidBlockId, []⟩ ∧
      inodeOf files i = b ∧ Mapped (c.device.blocks b) (x.maps i) := by
    rintro i ⟨content, time, hv⟩
    obtain ⟨b, hf, -, hmapped⟩ := h.exists_mapped hw hv
    exact ⟨b, hf, by rw [inodeOf, hf]; rfl, hmapped⟩
  refine ⟨h.servers ▸ hw.works, ⟨h.stores.inv.works, ?_, ?_, ?_, ?_⟩, ?_⟩
  · intro i hi
    obtain ⟨b, hf, -⟩ := hfile i hi
    exact ⟨(h.stores.inv.valid i _ hf).1, h.stores.bound i _ hf⟩
  · intro i hi
    obtain ⟨b, hf, hb, -⟩ := hfile i hi
    rw [h.stores.inv.entry i (h.stores.inv.valid i _ hf), hf, hb]
    rfl
  · intro i hi
    obtain ⟨b, hf, hb, -⟩ := hfile i hi
    obtain ⟨h1, h2, -⟩ := h.stores.inv.data i _ hf b List.mem_cons_self
    exact hb ▸ ⟨h1, h2⟩
  · intro i hi j hj heq
    obtain ⟨b, hf, hb, -⟩ := hfile i hi
    obtain ⟨b', hf', hb', -⟩ := hfile j hj
    by_contra hne
    rw [hb, hb'] at heq
    exact h.stores.inv.disjoint i j _ _ hf hf' hne List.mem_cons_self (heq ▸ List.mem_cons_self)
  · intro i hi
    obtain ⟨b, -, hb, hmapped⟩ := hfile i hi
    exact hb ▸ hmapped.maps

theorem owns_univ {ids : Set ℕ} {ls : ℕ → List BlockInfo} (hnil : ∀ i, i ∉ ids → ls i = []) {servers : ℕ → Server} :
    Owns ms servers Set.univ ls ↔ Owns ms servers ids ls := by
  have hbalanced : Balanced Set.univ (fun i => (ls i).map pair) (InUse ms servers) ↔
      Balanced ids (fun i => (ls i).map pair) (InUse ms servers) :=
    balanced_univ fun i hi => congrArg (List.map pair) (hnil i hi)
  constructor
  · exact fun h => ⟨hbalanced.mp h.balanced, fun i _ => h.version i trivial⟩
  · refine fun h => ⟨hbalanced.mpr h.balanced, fun i _ info hinfo => ?_⟩
    by_cases hi : i ∈ ids
    · exact h.version i hi info hinfo
    · rw [hnil i hi] at hinfo
      cases hinfo

theorem grown_grown (y : Fs.Volumes.Disk) (id k now : ℕ) :
    grown (grown y id 1 now) id k now = grown y id (k + 1) now := by
  unfold grown
  rw [if_neg Nat.one_ne_zero, if_neg (Nat.succ_ne_zero k)]
  split
  case isTrue => rfl
  case isFalse =>
    unfold put
    simp only [Function.update_idem]

theorem of_reply {α : Type} {call : Cl logCnt α} {reply : α → Reply} (hinj : Function.Injective reply) {a : α}
    {c' : Cluster logCnt} (h : (call >>= fun a => pure (reply a) : Cl logCnt Reply) c = some (.ok (reply a), c')) :
    call c = some (.ok a, c') := by
  obtain ⟨b, t, hrun, heq⟩ := bind_eq_ok h
  rw [pure_apply, Option.some.injEq, Prod.mk.injEq, Except.ok.injEq] at heq
  rw [hrun, hinj heq.1, heq.2]

theorem none_of_reply {α : Type} {call : Cl logCnt α} {reply : α → Reply}
    (h : (call >>= fun a => pure (reply a) : Cl logCnt Reply) c = none) : call c = none := by
  cases hrun : call c with
  | none => rfl
  | some out =>
    obtain ⟨r | a, t⟩ := out
    · rw [bind_error hrun] at h
      cases h
    · rw [bind_ok hrun] at h
      cases h

/-- `write_file` gets the blocks it asks for, or waits for ever. -/
theorem allocateBlocks_keeps (h : Keeps others raw c files x) (hw : WellFormed ms x) (hfile : IsFile x.disk.volume id)
    (gen : ℕ → ℕ) (hnow : now < 2 ^ 63) (k i : ℕ) (hlen : (x.maps id).length + k ≤ 252) :
    if k ≤ (freeData ms c.servers).card then ∃ news c' others' raw' files' y,
      allocateBlocks ms gen id now k i c = some (.ok news, c') ∧ Keeps others' raw' c' files' y ∧ WellFormed ms y ∧
      y.disk = grown x.disk id k now ∧ y.maps = Function.update x.maps id (x.maps id ++ news) ∧
      (freeData ms c'.servers).card + k = (freeData ms c.servers).card
    else allocateBlocks ms gen id now k i c = none := by
  induction k generalizing c x others raw files i with
  | zero =>
    rw [if_pos (Nat.zero_le _)]
    refine ⟨[], c, others, raw, files, x, rfl, h, hw, rfl, ?_, rfl⟩
    rw [List.append_nil, Function.update_eq_self]
  | succ k ih =>
    obtain ⟨content, time, hv⟩ := hfile
    have hid : id ≠ 0 := by
      have := h.stores.id_pos hv
      omega
    have hdir := not_isDirectory ⟨content, time, hv⟩
    have hans := allocateBlock_answers h hw hid hdir (by omega) hnow (gen i)
    have hact : act ms (idLimit operation) x (.allocateBlock id (gen i) now) = addBlock ms x id (gen i) now := rfl
    unfold addBlock at hans hact
    rw [hv] at hans hact
    simp only at hans hact
    rw [allocateBlocks]
    cases hchosen : chosen ms x.servers (gen i) with
    | none =>
      rw [hchosen] at hans
      have hrun : ms.allocateBlock id (gen i) now c = none := none_of_reply hans
      rw [← h.servers] at hchosen
      rw [freeData_of_chosen_none hchosen, Finset.card_empty, if_neg (Nat.not_succ_le_zero k)]
      exact bind_none hrun
    | some p =>
      rw [hchosen] at hans hact
      obtain ⟨c₁, others₁, raw₁, files₁, hserve, h₁⟩ := hans
      have hrun : ms.allocateBlock id (gen i) now c = some (.ok _, c₁) :=
        of_reply (fun _ _ heq => Reply.info.inj heq) hserve
      have hw₁ := act_wellFormed hact hw ⟨hid, hdir, by omega, hnow⟩
      rw [← h.servers] at hchosen
      have hcard := card_granted (mem_freeData_of_chosen hchosen)
      have hservers : c₁.servers = (granted c p.1 p.2).servers := by
        rw [h₁.servers, servers_granted, h.servers]
        rfl
      rw [← hservers] at hcard
      have hmaps := Function.update_self id (x.maps id ++
        [⟨p.2, p.1, (version (x.servers p.1) p.2 + 1).toNat⟩]) x.maps
      have hrest := ih h₁ hw₁ ⟨[], now, Function.update_self ..⟩ (i + 1) (by
        simp only [Catalog.remap]
        rw [hmaps, List.length_append, List.length_singleton]
        omega)
      split at hrest
      case isTrue hle =>
        obtain ⟨news, c', others', raw', files', y, hblocks, h', hw', hdisk, hmaps', hcard'⟩ := hrest
        rw [if_pos (by omega)]
        refine ⟨⟨p.2, p.1, (version (x.servers p.1) p.2 + 1).toNat⟩ :: news, c', others', raw', files', y, ?_, h', hw',
          ?_, ?_, by omega⟩
        · rw [bind_ok hrun, bind_ok hblocks]
          rfl
        · rw [hdisk, ← grown_grown]
          rfl
        · rw [hmaps']
          simp only [Catalog.remap]
          rw [hmaps, Function.update_idem, List.append_assoc, List.singleton_append]
      case isFalse hgt =>
        rw [if_neg (by omega), bind_ok hrun]
        exact bind_none hrest

theorem Mirrors.owns_files (hm : Mirrors ms c x m) (hw : WellFormed ms x) :
    Owns ms c.servers {i | IsFile x.disk.volume i} x.maps :=
  (owns_univ fun _ hi => hw.maps_nil hi).mp hm.owns

theorem Mirrors.length_contents (hm : Mirrors ms c x m) (id : ℕ) :
    (m.contents id).length = (x.maps id).length * 4096 := by
  rw [hm.contents, length_content]

theorem readFile_mirrors (h : Keeps others raw c files x) (hw : WellFormed ms x) (hm : Mirrors ms c x m)
    (hfile : IsFile x.disk.volume id) (offset size : ℕ) : Client.readFile ms id offset size c =
      if offset + size ≤ (m.contents id).length ∨ size = 0 then
        some (.ok (slice (m.contents id) offset size), c)
      else some (.error .done, c) := by
  have hsmall : VersionsSmall ms c := by
    intro p b h1 h2 h3 h4
    have hlt := hm.small p b ⟨h1, h2⟩ ⟨h3, h4⟩
    split at hlt <;> omega
  obtain ⟨-, hread⟩ := readFile_eq_content (lists_of_keeps h hw) (hm.owns_files hw) hsmall hfile offset size
  rw [hread, hm.length_contents, hm.contents]

theorem small_of_bumped {c' : Cluster logCnt} (hb : Bumped c c') {p b : ℕ}
    (h : (version (c.servers p) b).toNat < if allocated (c.servers p) b then 32 else 31) :
    (version (c'.servers p) b).toNat < if allocated (c'.servers p) b then 32 else 31 := by
  obtain hsame | ⟨hfree, hnext⟩ := hb p b
  · have hiff : allocated (c'.servers p) b = allocated (c.servers p) b := by
      rw [Bool.eq_iff_iff, Versions.allocated_iff, Versions.allocated_iff, hsame]
    rw [hsame, hiff]
    exact h
  · rw [hfree, if_neg (by decide)] at h
    have hval : (version (c.servers p) b + 1).toNat = ((version (c.servers p) b).toNat + 1) % 256 :=
      UInt8.toNat_add _ _
    have hused : allocated (c'.servers p) b = true := by
      rw [← Bool.not_eq_true, Versions.allocated_iff] at hfree
      rw [Versions.allocated_iff, hnext, hval]
      omega
    rw [hnext, hval, hused, if_pos rfl]
    omega

/-- `write_file` changes the bytes of the file, or waits for ever. -/
theorem writeFile_mirrors (h : Keeps others raw c files x) (hw : WellFormed ms x) (hm : Mirrors ms c x m)
    (hfile : IsFile x.disk.volume id) {off : ℕ} {data : List UInt8} (hfit : off + data.length ≤ 252 * 4096)
    (hnow : now < 2 ^ 63) (gen : ℕ → ℕ) : match Mounts.writeFile m id data off now with
      | some (_, m') => ∃ c' others' raw' files' y, Client.writeFile ms gen now id off data c = some (.ok (), c') ∧
          Keeps others' raw' c' files' y ∧ WellFormed ms y ∧ Mirrors ms c' y m' ∧
          c'.device.blocks 0 = c.device.blocks 0
      | none => Client.writeFile ms gen now id off data c = none := by
  have hl := lists_of_keeps h hw
  have hcnt : blocksMissing (m.contents id).length off data.length =
      calculateBlockSz (off + data.length - (x.maps id).length * 4096) 4096 := by
    rw [hm.length_contents]
    rfl
  have hlen : (x.maps id).length + calculateBlockSz (off + data.length - (x.maps id).length * 4096) 4096 ≤ 252 := by
    have hshort := hw.short id
    unfold calculateBlockSz
    split <;> omega
  have hblocks := allocateBlocks_keeps h hw hfile gen hnow _ 0 hlen
  unfold Mounts.writeFile
  simp only
  rw [hcnt, ← hm.room]
  split at hblocks
  case isFalse hfew =>
    rw [if_neg hfew]
    simp only
    unfold Client.writeFile
    rw [bind_ok (getBlockMap_eq hl.located hfile (hl.maps id hfile)), List.length_map]
    exact bind_none hblocks
  case isTrue henough =>
    rw [if_pos henough]
    obtain ⟨news, c₁, others', raw', files', y, hrun, h', hw', hdisk, hmaps, hcard⟩ := hblocks
    obtain ⟨_, heq, hnews, -⟩ := allocateBlocks_spec hl (hm.owns_files hw) hfile hrun
    cases heq
    obtain ⟨c', hwrite, hdev, hversion, hwritten⟩ := writeFile_written hl (hm.owns_files hw) hfile hrun
    rw [← hnews]
    have hc : c' = { c₁ with servers := c'.servers } := by
      rw [← hdev]
    refine ⟨c', others', raw', files', { y with servers := c'.servers }, hwrite, hc ▸ h'.withServers c'.servers,
      ⟨hw'.tree, hw'.empty, hw'.mapped, hw'.short, hw'.placed, hwritten.lists.works⟩, ?_, hwritten.super⟩
    constructor
    case disk =>
      simp only
      rw [hdisk, hm.disk, hnews]
    case contents =>
      intro i
      simp only
      rw [hmaps]
      by_cases hi : i = id
      · rw [hi, Function.update_self, Function.update_self, hwritten.bytes, hm.contents]
      · rw [Function.update_of_ne hi, Function.update_of_ne hi, hm.contents]
        by_cases hf : IsFile x.disk.volume i
        · exact (hwritten.others i hf hi).symm
        · rw [hw.maps_nil hf]
          rfl
    case room =>
      simp only
      rw [freeData_congr hversion, hnews]
      omega
    case owns =>
      simp only
      rw [hmaps]
      refine (owns_univ fun i hi => ?_).mpr hwritten.owns
      have hne : i ≠ id := fun heq => hi (heq ▸ hfile)
      rw [Function.update_of_ne hne]
      exact hw.maps_nil hi
    case small => exact fun p b hp hb => small_of_bumped hwritten.bumped (hm.small p b hp hb)

end Files

end Chfs.Distributed.MountedFiles
