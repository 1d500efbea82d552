import Chfs.Distributed.Listing

namespace Chfs.Distributed.Capacity

open Lib.Effect Lib.Run Block.Manager Fs.Inode Fs.Operations Fs.Files BlockMap DataServer Requests Listing

variable {logCnt : ℕ}

inductive Request
  | allocateBlock (id : ℕ)
  | freeBlock (id blockId machineId : ℕ)
  | getBlockMap (id : ℕ)
  deriving DecidableEq

def Request.id : Request → ℕ
  | .allocateBlock id | .freeBlock id _ _ | .getBlockMap id => id

def findIndices (inode : List UInt8) (blockId machineId : ℕ) : ℕ → ℕ → List ℕ
  | 0, _ => []
  | k + 1, i =>
    (2 * i) :: (2 * i + 1) ::
      if getBlock inode (2 * i) = blockId ∧ getBlock inode (2 * i + 1) / 2 ^ 32 = machineId then []
      else findIndices inode blockId machineId k (i + 1)

def moveIndices : ℕ → ℕ → List ℕ
  | 0, _ => []
  | k + 1, i => (2 * i - 2) :: (2 * i) :: (2 * i - 1) :: (2 * i + 1) :: moveIndices k (i + 1)

/-- All subscripts of a request, if no call fails before. -/
def indices (inode : List UInt8) : Request → List ℕ
  | .allocateBlock _ => [2 * blockCnt inode, 2 * blockCnt inode + 1]
  | .freeBlock _ blockId machineId =>
    findIndices inode blockId machineId (blockCnt inode) 0 ++
      match findBlock inode blockId machineId (blockCnt inode) 0 with
      | none => []
      | some pos => (2 * pos) :: (2 * pos + 1) :: moveIndices (blockCnt inode - (pos + 1)) (pos + 1)
  | .getBlockMap _ => (List.range (blockCnt inode)).flatMap fun i => [2 * i, 2 * i + 1]

/-- No subscript leaves the inode, and a block for which there is no room is
refused. -/
def Contained (ms : MetadataServer) (c : Cluster logCnt) (req : Request) : Prop :=
  ∀ b inode, operation.inodeManager.readInode req.id c.device = some (.ok (b, inode), c.device) →
    (∀ j ∈ indices inode req, j < getNblocks inode) ∧
    (req = .allocateBlock req.id → getNblocks inode < 2 * blockCnt inode + 2 →
      ∀ generatedId now, ms.allocateBlock req.id generatedId now c = some (.ok ⟨0, 0, 0⟩, c))

/-- There is room for two more slots. -/
def Roomy (l : List BlockInfo) : Request → Prop
  | .allocateBlock _ => l.length < 253
  | _ => True

section Indices

variable {inode : List UInt8} {b m k i j : ℕ}

theorem mem_findIndices (h : j ∈ findIndices inode b m k i) : j < 2 * (i + k) := by
  induction k generalizing i with
  | zero => cases h
  | succ k ih =>
    rw [findIndices, List.mem_cons, List.mem_cons] at h
    obtain rfl | rfl | h := h
    · omega
    · omega
    · split at h
      case isTrue => cases h
      case isFalse =>
        have hlt := ih h
        omega

theorem mem_moveIndices (h : j ∈ moveIndices k i) : j < 2 * (i + k) := by
  induction k generalizing i with
  | zero => cases h
  | succ k ih =>
    rw [moveIndices, List.mem_cons, List.mem_cons, List.mem_cons, List.mem_cons] at h
    obtain rfl | rfl | rfl | rfl | h := h
    · omega
    · omega
    · omega
    · omega
    · have hlt := ih h
      omega

theorem findBlock_lt {pos : ℕ} (h : findBlock inode b m k i = some pos) : pos < i + k := by
  induction k generalizing i with
  | zero => cases h
  | succ k ih =>
    rw [findBlock] at h
    split at h
    case isTrue =>
      cases h
      omega
    case isFalse =>
      have hlt := ih h
      omega

theorem mem_indices {req : Request} (h : j ∈ indices inode req) (hreq : req ≠ .allocateBlock req.id) :
    j < 2 * blockCnt inode := by
  cases req with
  | allocateBlock id => exact absurd rfl hreq
  | freeBlock id b m =>
    rw [indices, List.mem_append] at h
    obtain h | h := h
    · have hlt := mem_findIndices h
      omega
    · split at h
      case h_1 => cases h
      case h_2 pos hpos =>
        have hlt := findBlock_lt hpos
        rw [List.mem_cons, List.mem_cons] at h
        obtain rfl | rfl | h := h
        · omega
        · omega
        · have hmove := mem_moveIndices h
          omega
  | getBlockMap id =>
    rw [indices, List.mem_flatMap] at h
    obtain ⟨i, hi, hj⟩ := h
    rw [List.mem_range] at hi
    rw [List.mem_cons, List.mem_singleton] at hj
    omega

end Indices

section Run

variable {ms : MetadataServer} {ids : Set ℕ} {bid : ℕ → ℕ} {c c₀ : Cluster logCnt} {es : List Event}
  {req : Request} {l : List BlockInfo}

theorem contained_iff_of_maps (hl : Located c.device ids bid) (hid : req.id ∈ ids)
    (hm : Maps (c.device.blocks (bid req.id)) l) : Contained ms c req ↔ Roomy l req := by
  have hread := hl.readInode hid
  have hnum : getNblocks (c.device.blocks (bid req.id)) = 506 := hm.shape.nblocks
  have hcnt := hm.blockCnt
  have hle := hm.le
  generalize c.device.blocks (bid req.id) = inode at hread hnum hcnt
  constructor
  · intro h
    obtain ⟨hin, -⟩ := h _ _ hread
    cases req with
    | allocateBlock id =>
      have hlast := hin (2 * blockCnt inode) List.mem_cons_self
      rw [hnum, hcnt] at hlast
      change l.length < 253
      omega
    | freeBlock | getBlockMap => trivial
  · intro hroomy b inode' hread'
    cases hread.symm.trans hread'
    rw [hnum]
    by_cases hreq : req = .allocateBlock req.id
    · rw [hreq] at hroomy
      have hlt : l.length < 253 := hroomy
      constructor
      · intro j hj
        rw [hreq, indices, hcnt, List.mem_cons, List.mem_singleton] at hj
        omega
      · intro _ hfull
        rw [hcnt] at hfull
        omega
    · constructor
      · intro j hj
        have hlt := mem_indices hj hreq
        rw [hcnt] at hlt
        omega
      · exact fun h => absurd h hreq

theorem contained_iff_roomy (h₀ : Start c₀ ids bid) (h : Path (Step ms ids) c₀ es c) (hid : req.id ∈ ids) :
    Contained ms c req ↔ Roomy (listing req.id es) req := by
  have hl := lists_of_path h₀ h
  exact contained_iff_of_maps hl.located hid (hl.maps req.id hid)

theorem exists_filled {id : ℕ} (h₀ : Start c₀ ids bid) (hid : id ∈ ids)
    (hv : ∀ b, 1 ≤ b → b < 4096 → version (c₀.servers 1) b = 0) (k : ℕ) (hk : k ≤ 253) :
    ∃ es c, Path (Step single ids) c₀ es c ∧ (listing id es).length = k ∧
      ∀ b, k < b → b < 4096 → version (c.servers 1) b = 0 := by
  induction k with
  | zero => exact ⟨[], c₀, .nil, rfl, hv⟩
  | succ k ih =>
    obtain ⟨es, c, hpath, hlen, hver⟩ := ih (by omega)
    have hl := lists_of_path h₀ hpath
    have hfree : ∀ b, k < b → b < 4096 → allocated (c.servers 1) b = false := by
      intro b hb hlt
      rw [← Bool.not_eq_true, Versions.allocated_iff, hver b hb hlt]
      decide
    obtain ⟨info, c', hrun⟩ := allocateBlock_total hl.works hl.located hid (hl.maps id hid) (by omega)
      (Nat.le_refl 1) single_pos (by omega) (by omega : k + 1 < 4096) (hfree (k + 1) (by omega) (by omega)) 1 0
    obtain ⟨m, b, h1, h2, h3, h4, h5, h6, hr, -, inode, hlen', -, hc'⟩ :=
      allocateBlock_cases hl.works hl.located hid (hl.maps id hid) hrun
    obtain rfl : m = 1 := Nat.le_antisymm h2 h1
    -- the data server hands out its first free block
    have hle : b ≤ k + 1 := by
      rw [allocBlock_eq (hl.works 1)] at h6
      cases hfind : findFree ((c.servers 1).blocks 0) 4095 1 with
      | none =>
        rw [hfind] at h6
        simp only [Option.some.injEq, Prod.mk.injEq, Except.ok.injEq] at h6
        omega
      | some b' =>
        rw [hfind] at h6
        simp only [Option.some.injEq, Prod.mk.injEq, Except.ok.injEq] at h6
        obtain ⟨⟨rfl, -⟩, -⟩ := h6
        by_contra hgt
        have hused := (findFree_some hfind).2.2.2 (k + 1) (by omega) (by omega)
        have hnot := hfree (k + 1) (by omega) (by omega)
        unfold allocated at hnot
        cases hused.symm.trans hnot
    refine ⟨es ++ [.allocated id info], c', hpath.snoc (.allocateBlock hid hrun), ?_, fun b' hb' hlt' => ?_⟩
    · rw [listing_snoc, next, if_pos rfl, List.length_append, List.length_singleton, hlen]
    · rw [hc', servers_written, servers_granted, Function.update_self, version_handedOut h3, version_changed h4,
        if_neg (by omega)]
      exact hver b' (by omega) hlt'

/-- A second block for a file. -/
theorem contained_iff_second : ∃ (c₀ c : Cluster 0) (bid : ℕ → ℕ) (es : List Event),
    sampleFiles (BlockManager.zeroed 4096 4096 0) = some (.ok (), c₀.device) ∧ Start c₀ {2, 3} bid ∧
    Path (Step single {2, 3}) c₀ es c ∧ (listing 2 es).length = 1 ∧ Contained single c (.allocateBlock 2) := by
  obtain ⟨d, a, s, bid, hfiles, -, h₀, hv⟩ := exists_start
  obtain ⟨es, c, hpath, hlen, -⟩ := exists_filled h₀ (Or.inl rfl : 2 ∈ ({2, 3} : Set ℕ)) hv 1 (by decide)
  refine ⟨_, c, bid, es, hfiles, h₀, hpath, hlen, ?_⟩
  have hid : (Request.allocateBlock 2).id ∈ ({2, 3} : Set ℕ) := Or.inl rfl
  apply (contained_iff_roomy h₀ hpath hid).mpr
  change (listing 2 es).length < 253
  omega

/-- The 254th block of a file. -/
theorem not_contained_full : ∃ (c₀ c : Cluster 0) (bid : ℕ → ℕ) (es : List Event),
    sampleFiles (BlockManager.zeroed 4096 4096 0) = some (.ok (), c₀.device) ∧
    (∀ m, ∃ a, initializeServer (BlockManager.zeroed 4096 4096 0) = some (.ok a, c₀.servers m)) ∧
    Start c₀ {2, 3} bid ∧ Path (Step single {2, 3}) c₀ es c ∧
    ¬ Contained single c (.allocateBlock 2) := by
  obtain ⟨d, a, s, bid, hfiles, hinit, h₀, hv⟩ := exists_start
  obtain ⟨es, c, hpath, hlen, -⟩ := exists_filled h₀ (Or.inl rfl : 2 ∈ ({2, 3} : Set ℕ)) hv 253 (by decide)
  refine ⟨_, c, bid, es, hfiles, fun _ => ⟨a, hinit⟩, h₀, hpath, fun h => ?_⟩
  have hl := lists_of_path h₀ hpath
  have hid : (Request.allocateBlock 2).id ∈ ({2, 3} : Set ℕ) := Or.inl rfl
  have hroomy := (contained_iff_of_maps hl.located hid (hl.maps 2 hid)).mp h
  change (listing 2 es).length < 253 at hroomy
  omega

end Run

end Chfs.Distributed.Capacity
