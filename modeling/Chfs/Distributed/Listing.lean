import Chfs.Distributed.Requests
import Chfs.Distributed.Versions

namespace Chfs.Distributed.Listing

open Lib.Effect Lib.Bytes Lib.Run Block.Manager Block.Allocator Fs.Inode Fs.Operations Fs.Files
open BlockMap DataServer Requests

variable {logCnt : ℕ}

inductive Event
  | allocated (id : ℕ) (info : BlockInfo)
  | freed (id blockId machineId : ℕ)
  | refused (id blockId machineId : ℕ)
  | mapped (id : ℕ) (l : List BlockInfo)
  | wrote (machineId blockId offset : ℕ) (buffer : List UInt8) (done : Bool)

/-- The requests on the regular files `ids`, and the `write_data` requests of
the clients to the data servers. -/
inductive Step (ms : MetadataServer) (ids : Set ℕ) : Cluster logCnt → Event → Cluster logCnt → Prop
  | allocateBlock {c c' : Cluster logCnt} {id generatedId now : ℕ} {info : BlockInfo} : id ∈ ids →
      ms.allocateBlock id generatedId now c = some (.ok info, c') → Step ms ids c (.allocated id info) c'
  | freeBlock {c c' : Cluster logCnt} {id b m now : ℕ} : id ∈ ids →
      ms.freeBlock id b m now c = some (.ok true, c') → Step ms ids c (.freed id b m) c'
  | refused {c c' : Cluster logCnt} {id b m now : ℕ} : id ∈ ids →
      ms.freeBlock id b m now c = some (.ok false, c') → Step ms ids c (.refused id b m) c'
  | getBlockMap {c c' : Cluster logCnt} {id : ℕ} {l : List BlockInfo} : id ∈ ids →
      ms.getBlockMap id c = some (.ok l, c') → Step ms ids c (.mapped id l) c'
  | writeData {c c' : Cluster logCnt} {m b offset : ℕ} {buffer : List UInt8} {done : Bool} :
      1 ≤ m → m ≤ ms.numDataServers → call m (writeData b offset buffer) c = some (.ok done, c') →
      Step ms ids c (.wrote m b offset buffer done) c'

/-- The list of the allocations for a file: what has been allocated is appended,
and what is freed deleted at its first place. -/
def next (id : ℕ) (l : List BlockInfo) : Event → List BlockInfo
  | .allocated id' info => if id' = id then l ++ [info] else l
  | .freed id' b m =>
    if id' = id then l.eraseP fun info => info.blockId = b ∧ info.machineId = m else l
  | _ => l

def listing (id : ℕ) (es : List Event) : List BlockInfo := es.foldl (next id) []

/-- The regular files `ids` exist and have no blocks. Nothing is said about
what the data servers hold. -/
structure Start (c : Cluster logCnt) (ids : Set ℕ) (bid : ℕ → ℕ) : Prop where
  works : ∀ m, (c.servers m).maybeFailed = false
  located : Located c.device ids bid
  empty : ∀ id ∈ ids, Maps (c.device.blocks (bid id)) []

/-- The block maps of the files `ids` are the given lists. -/
structure Lists (c : Cluster logCnt) (ids : Set ℕ) (bid : ℕ → ℕ) (ls : ℕ → List BlockInfo) : Prop where
  works : ∀ m, (c.servers m).maybeFailed = false
  located : Located c.device ids bid
  maps : ∀ id ∈ ids, Maps (c.device.blocks (bid id)) (ls id)

section Run

variable {ms : MetadataServer} {ids : Set ℕ} {bid : ℕ → ℕ} {ls : ℕ → List BlockInfo}
  {c c' c₀ : Cluster logCnt} {e : Event} {es : List Event} {id : ℕ}

theorem listing_snoc : listing id (es ++ [e]) = next id (listing id es) e :=
  List.foldl_concat _ _ _ _

theorem listing_snoc_fun : (fun id => listing id (es ++ [e])) = fun id => next id (listing id es) e := by
  funext id
  exact listing_snoc

theorem Lists.write (h : Lists c ids bid ls) (hid : id ∈ ids) {inode : List UInt8}
    (hlen : inode.length = 4096) {l : List BlockInfo} (hm : Maps inode l) :
    Lists (written c (bid id) inode hlen) ids bid (Function.update ls id l) where
  works := h.works
  located := h.located.write hid hlen
  maps := by
    intro id' hid'
    change Maps (Function.update c.device.blocks (bid id) inode (bid id')) _
    by_cases heq : id' = id
    · rw [heq, Function.update_self, Function.update_self]
      exact hm
    · rw [Function.update_of_ne fun hb => heq (h.located.distinct id' hid' id hid hb),
        Function.update_of_ne heq]
      exact h.maps id' hid'

theorem Lists.serve (h : Lists c ids bid ls) {m : ℕ} {s : Server} (hs : s.maybeFailed = false) :
    Lists { c with servers := Function.update c.servers m s } ids bid ls where
  works := by
    intro m'
    by_cases heq : m' = m
    · rw [heq]
      change (Function.update c.servers m s m).maybeFailed = false
      rw [Function.update_self, hs]
    · change (Function.update c.servers m s m').maybeFailed = false
      rw [Function.update_of_ne heq]
      exact h.works m'
  located := h.located
  maps := h.maps

theorem eraseP_eq {l : List BlockInfo} {b m pos : ℕ} (h : placeOf l b m = some pos) :
    l.eraseP (fun info => info.blockId = b ∧ info.machineId = m) = l.eraseIdx pos := by
  rw [List.eraseP_eq_eraseIdx]
  unfold placeOf at h
  rw [h]

theorem next_allocated (id : ℕ) (info : BlockInfo) : (fun id' => next id' (ls id') (.allocated id info)) =
    Function.update ls id (ls id ++ [info]) := by
  funext id'
  by_cases hid : id' = id
  · rw [hid, Function.update_self, next, if_pos rfl]
  · rw [Function.update_of_ne hid, next, if_neg (Ne.symm hid)]

theorem next_freed {b m pos : ℕ} (h : placeOf (ls id) b m = some pos) :
    (fun id' => next id' (ls id') (.freed id b m)) = Function.update ls id ((ls id).eraseIdx pos) := by
  funext id'
  by_cases hid : id' = id
  · rw [hid, Function.update_self, next, if_pos rfl, eraseP_eq h]
  · rw [Function.update_of_ne hid, next, if_neg (Ne.symm hid)]

theorem Lists.step (h : Lists c ids bid ls) (hs : Step ms ids c e c') :
    Lists c' ids bid fun id => next id (ls id) e := by
  cases hs with
  | @allocateBlock _ id g now info hid hrun =>
    obtain ⟨m, b, h1, h2, h3, h4, h5, -, hr, hlt, inode, hlen, hm, rfl⟩ :=
      allocateBlock_cases h.works h.located hid (h.maps id hid) hrun
    cases hr
    rw [next_allocated]
    have hserved : Lists (granted c m b) ids bid ls := h.serve (h.works m)
    exact hserved.write hid hlen hm
  | @freeBlock _ id b m now hid hrun =>
    obtain ⟨hr, -⟩ | ⟨-, h1, h2, h3, h4, h5, pos, inode, hlen, hplace, hm, rfl⟩ :=
      Requests.freeBlock_cases h.works h.located hid (h.maps id hid) hrun
    · cases hr
    · rw [next_freed hplace]
      have hserved : Lists (released c m b) ids bid ls := h.serve (h.works m)
      exact hserved.write hid hlen hm
  | @refused _ id b m now hid hrun =>
    obtain ⟨-, rfl, -⟩ | ⟨hr, -⟩ :=
      Requests.freeBlock_cases h.works h.located hid (h.maps id hid) hrun
    · exact h
    · cases hr
  | @getBlockMap _ id l hid hrun =>
    rw [getBlockMap_eq h.located hid (h.maps id hid)] at hrun
    cases hrun
    exact h
  | @writeData _ m b offset buffer done _ _ hrun =>
    obtain ⟨s, hw, rfl⟩ := onPart_eq_some.mp hrun
    obtain ⟨-, rfl, -⟩ | ⟨-, -, -, -, -, hs, -⟩ := writeData_cases (h.works m) hw
    · exact h.serve (h.works m)
    · exact h.serve hs

theorem lists_of_path (h₀ : Start c₀ ids bid) (h : Path (Step ms ids) c₀ es c) :
    Lists c ids bid fun id => listing id es := by
  refine h.invariant (I := fun es c => Lists c ids bid fun id => listing id es)
    ⟨h₀.works, h₀.located, h₀.empty⟩ fun es c e c' hI hs => ?_
  rw [listing_snoc_fun]
  exact hI.step hs

/-- What `get_block_map` returns is the list of the allocations if all versions
are below 32. -/
theorem getBlockMap_iff (h₀ : Start c₀ ids bid) (h : Path (Step ms ids) c₀ es c) (hid : id ∈ ids) :
    ms.getBlockMap id c = some (.ok (listing id es), c) ↔ ∀ info ∈ listing id es, info.version < 32 := by
  have hl := lists_of_path h₀ h
  rw [getBlockMap_eq hl.located hid (hl.maps id hid)]
  constructor
  · intro heq info hinfo
    have hmap : (listing id es).map trimmed = listing id es :=
      Except.ok.inj (Prod.mk.inj (Option.some.inj heq)).1
    rw [← hmap] at hinfo
    obtain ⟨info', -, rfl⟩ := List.mem_map.mp hinfo
    exact Nat.mod_lt _ (by decide)
  · intro hlt
    have hmap : (listing id es).map trimmed = listing id es := by
      refine (List.map_congr_left fun info hinfo => ?_).trans (List.map_id _)
      unfold trimmed
      rw [Nat.mod_eq_of_lt (hlt info hinfo)]
      rfl
    rw [hmap]

def single : MetadataServer := ⟨1, by decide⟩

theorem single_pos : 1 ≤ single.numDataServers := Nat.le_refl 1

theorem allocate_one (h : Lists c ids bid ls) (hid : id ∈ ids) (hnil : ls id = [])
    (hfree : allocated (c.servers 1) 1 = false) : ∃ c',
      Step single ids c (.allocated id ⟨1, 1, (version (c.servers 1) 1 + 1).toNat⟩) c' ∧
      version (c'.servers 1) 1 = version (c.servers 1) 1 + 1 := by
  have hmaps : Maps (c.device.blocks (bid id)) [] := hnil ▸ h.maps id hid
  obtain ⟨info, c', hrun⟩ := allocateBlock_total h.works h.located hid hmaps (by decide)
    (Nat.le_refl 1) single_pos (Nat.le_refl 1) (by decide) hfree 1 0
  obtain ⟨m, b, h1, h2, h3, h4, -, h6, hr, -, inode, hlen, -, rfl⟩ :=
    allocateBlock_cases h.works h.located hid hmaps hrun
  obtain rfl : m = 1 := Nat.le_antisymm h2 h1
  obtain rfl : b = 1 := by
    rw [allocBlock_eq (h.works 1), findFree, if_neg (by simpa [allocated] using hfree)] at h6
    exact (Prod.mk.inj (Except.ok.inj (Prod.mk.inj (Option.some.inj h6)).1)).1.symm
  cases hr
  refine ⟨_, .allocateBlock hid hrun, ?_⟩
  rw [servers_written, servers_granted, Function.update_self, version_handedOut (Nat.le_refl 1),
    version_changed (by decide), if_pos rfl]

theorem free_one (h : Lists c ids bid ls) (hid : id ∈ ids) {v : ℕ} (hone : ls id = [⟨1, 1, v⟩])
    (ha : allocated (c.servers 1) 1 = true) : ∃ c', Step single ids c (.freed id 1 1) c' ∧
      version (c'.servers 1) 1 = version (c.servers 1) 1 + 1 := by
  have hmaps : Maps (c.device.blocks (bid id)) [⟨1, 1, v⟩] := hone ▸ h.maps id hid
  obtain ⟨c', hrun⟩ := freeBlock_total h.located h.works hid hmaps (b := 1) (m := 1) rfl
    (Nat.le_refl 1) single_pos (Nat.le_refl 1) (by decide) ha 0
  obtain ⟨hr, -⟩ | ⟨-, -, -, -, -, -, pos, inode, hlen, -, -, rfl⟩ :=
    Requests.freeBlock_cases h.works h.located hid hmaps hrun
  · cases hr
  refine ⟨_, .freeBlock hid hrun, ?_⟩
  rw [servers_written, servers_released, Function.update_self, version_changed (by decide), if_pos rfl]

theorem exists_rounds (h₀ : Start c₀ ids bid) (hid : id ∈ ids) (hv : version (c₀.servers 1) 1 = 0)
    (k : ℕ) : ∃ es c, Path (Step single ids) c₀ es c ∧
      listing id es = [⟨1, 1, (2 * k + 1) % 256⟩] ∧ (version (c.servers 1) 1).toNat = (2 * k + 1) % 256 := by
  induction k with
  | zero =>
    have hfree : ¬ allocated (c₀.servers 1) 1 = true := by
      rw [Versions.allocated_iff, hv]
      decide
    have hl := lists_of_path h₀ (.nil : Path (Step single ids) c₀ [] c₀)
    obtain ⟨c, hs, hver⟩ := allocate_one hl hid rfl (by simpa using hfree)
    refine ⟨_, c, Path.nil.snoc hs, ?_, ?_⟩
    · rw [listing_snoc, hv, next, if_pos rfl]
      rfl
    · rw [hver, hv]
      rfl
  | succ k ih =>
    obtain ⟨es, c, hpath, hlist, hver⟩ := ih
    have hodd : allocated (c.servers 1) 1 = true := by
      rw [Versions.allocated_iff, hver]
      omega
    obtain ⟨c₁, hs₁, hver₁⟩ := free_one (lists_of_path h₀ hpath) hid hlist hodd
    have hlist₁ : listing id (es ++ [.freed id 1 1]) = [] := by
      rw [listing_snoc, hlist, next, if_pos rfl]
      rfl
    have hnat₁ : (version (c₁.servers 1) 1).toNat = (2 * k + 2) % 256 := by
      rw [hver₁, UInt8.toNat_add, hver]
      change (_ + 1) % 256 = _
      omega
    have heven : ¬ allocated (c₁.servers 1) 1 = true := by
      rw [Versions.allocated_iff, hnat₁]
      omega
    obtain ⟨c₂, hs₂, hver₂⟩ := allocate_one (lists_of_path h₀ (hpath.snoc hs₁)) hid hlist₁
      (by simpa using heven)
    have hnat₂ : (version (c₁.servers 1) 1 + 1).toNat = (2 * (k + 1) + 1) % 256 := by
      rw [UInt8.toNat_add, hnat₁]
      change (_ + 1) % 256 = _
      omega
    refine ⟨_, c₂, (hpath.snoc hs₁).snoc hs₂, ?_, ?_⟩
    · rw [listing_snoc, hlist₁, next, if_pos rfl, hnat₂]
      rfl
    · rw [hver₂, hnat₂]

end Run

def sampleFiles : Bm 4096 4096 0 Unit := do
  let fo ← FileOperation.create 4096
  let root ← fo.allocInode 2 0
  let f ← fo.allocInode 1 0
  fo.writeFile root [102, 58, 50] 0
  let g ← fo.allocInode 1 0
  fo.writeFile root [102, 58, 50, 47, 103, 58, 51] 0
  require (root = 1 ∧ f = 2 ∧ g = 3)

def emptyFile (d : BlockManager 4096 4096 0) (id : ℕ) : List ℕ :=
  let b := operation.inodeManager.entry d id
  [b, getBlockSize (d.blocks b), getNblocks (d.blocks b), getSize (d.blocks b), getBlock (d.blocks b) 0]

theorem exists_start : ∃ (d : BlockManager 4096 4096 0) (a : BlockAllocator) (s : Server) (bid : ℕ → ℕ),
    sampleFiles (BlockManager.zeroed 4096 4096 0) = some (.ok (), d) ∧
    initializeServer (BlockManager.zeroed 4096 4096 0) = some (.ok a, s) ∧
    Start ⟨d, fun _ => s⟩ {2, 3} bid ∧ ∀ b, 1 ≤ b → b < 4096 → version s b = 0 := by
  have hfiles : (sampleFiles (BlockManager.zeroed 4096 4096 0)).map (fun out =>
      (out.1.toOption.isSome, out.2.maybeFailed, emptyFile out.2 2, emptyFile out.2 3)) =
      some (true, false, [68, 4096, 506, 0, 0], [70, 4096, 506, 0, 0]) := by
    decide +kernel
  have hinit : (initializeServer (BlockManager.zeroed 4096 4096 0)).map (fun out =>
      (out.1.toOption.isSome, out.2.maybeFailed, ((out.2.blocks 0).drop 1).all (· = 0))) =
      some (true, false, true) := by
    decide +kernel
  obtain ⟨⟨r, d⟩, hrun, hout⟩ := Option.map_eq_some_iff.mp hfiles
  obtain ⟨⟨r', s⟩, hrun', hout'⟩ := Option.map_eq_some_iff.mp hinit
  simp only [Prod.mk.injEq] at hout hout'
  obtain ⟨hr, hw, hf, hg⟩ := hout
  obtain ⟨hr', hw', hzero⟩ := hout'
  -- what is read off the device, for either file
  have hfile : ∀ id ∈ ({2, 3} : Set ℕ), emptyFile d id = [2 * id + 64, 4096, 506, 0, 0] := by
    rintro id (rfl | rfl)
    · exact hf
    · exact hg
  have hentry : ∀ id ∈ ({2, 3} : Set ℕ), operation.inodeManager.entry d id = 2 * id + 64 :=
    fun id hid => (List.cons.inj (hfile id hid)).1
  cases r with
  | error => cases hr
  | ok =>
    cases r' with
    | error => cases hr'
    | ok a =>
      refine ⟨d, a, s, fun id => 2 * id + 64, hrun, hrun', ⟨fun _ => hw', ⟨hw, ?_, hentry, ?_, ?_⟩, ?_⟩, ?_⟩
      · rintro id (rfl | rfl) <;> decide
      · rintro id (rfl | rfl) <;> decide
      · intro id _ id' _ heq
        omega
      · intro id hid
        have hshape := hfile id hid
        unfold emptyFile at hshape
        simp only [hentry id hid, List.cons.injEq] at hshape
        obtain ⟨-, hsize, hnum, hempty, hslot, -⟩ := hshape
        exact ⟨⟨d.length_blocks _, hsize, hnum⟩, hempty, by decide, fun _ h => (by cases h),
          fun _ _ h => (by cases h), fun _ => hslot⟩
      · intro b hb hlt
        have hmem : versionAt (s.blocks 0) b ∈ (s.blocks 0).drop 1 := by
          apply List.mem_of_getElem? (i := b - 1)
          rw [List.getElem?_drop, versionAt, List.getD_eq_getElem?_getD, Nat.add_sub_cancel' hb,
            List.getElem?_eq_getElem (by rw [s.length_blocks]; exact hlt)]
          rfl
        have hall := List.all_eq_true.mp hzero _ hmem
        exact of_decide_eq_true hall

/-- Block 1 is allocated to the file for the first time. -/
theorem getBlockMap_iff_first : ∃ (c₀ c : Cluster 0) (bid : ℕ → ℕ) (es : List Event),
    sampleFiles (BlockManager.zeroed 4096 4096 0) = some (.ok (), c₀.device) ∧ Start c₀ {2, 3} bid ∧
    Path (Step single {2, 3}) c₀ es c ∧ listing 2 es = [⟨1, 1, 1⟩] ∧
    single.getBlockMap 2 c = some (.ok [⟨1, 1, 1⟩], c) := by
  obtain ⟨d, a, s, bid, hfiles, -, h₀, hv⟩ := exists_start
  obtain ⟨es, c, hpath, hlist, -⟩ := exists_rounds h₀ (Or.inl rfl) (hv 1 (Nat.le_refl 1) (by decide)) 0
  refine ⟨_, c, bid, es, hfiles, h₀, hpath, hlist, ?_⟩
  have hiff := getBlockMap_iff h₀ hpath (Or.inl rfl : 2 ∈ ({2, 3} : Set ℕ))
  rw [hlist] at hiff
  exact hiff.mpr (by decide)

/-- Block 1 is allocated to the file for the 17th time: its version is 33, and
1 in the block map. -/
theorem getBlockMap_trimmed : ∃ (c₀ c : Cluster 0) (bid : ℕ → ℕ) (es : List Event),
    sampleFiles (BlockManager.zeroed 4096 4096 0) = some (.ok (), c₀.device) ∧
    (∀ m, ∃ a, initializeServer (BlockManager.zeroed 4096 4096 0) = some (.ok a, c₀.servers m)) ∧
    Start c₀ {2, 3} bid ∧ Path (Step single {2, 3}) c₀ es c ∧ listing 2 es = [⟨1, 1, 33⟩] ∧
    single.getBlockMap 2 c = some (.ok [⟨1, 1, 1⟩], c) ∧
    ¬ single.getBlockMap 2 c = some (.ok (listing 2 es), c) := by
  obtain ⟨d, a, s, bid, hfiles, hinit, h₀, hv⟩ := exists_start
  obtain ⟨es, c, hpath, hlist, -⟩ := exists_rounds h₀ (Or.inl rfl) (hv 1 (Nat.le_refl 1) (by decide)) 16
  have hl := lists_of_path h₀ hpath
  have hmap : single.getBlockMap 2 c = some (.ok ((listing 2 es).map trimmed), c) :=
    getBlockMap_eq hl.located (Or.inl rfl) (hl.maps 2 (Or.inl rfl))
  rw [hlist] at hmap
  refine ⟨_, c, bid, es, hfiles, fun _ => ⟨a, hinit⟩, h₀, hpath, hlist, hmap, ?_⟩
  rw [hmap, hlist]
  intro heq
  cases heq

end Chfs.Distributed.Listing
