import Chfs.Distributed.BlockStore

namespace Chfs.Distributed.Bounds

open Lib.Effect Lib.Bytes Lib.Run Block.Manager Block.Allocator
open DataServer (Server versionAt isAllocated bump version allocated changed initializeServer allocBlock handedOut)

/-- A use of block 0 as the version map, or of a block as data. -/
inductive Access
  | map
  | block (blockId : ℕ)
  deriving DecidableEq, Repr

/-- A handler, which keeps a record of its accesses. -/
abbrev Tm (α : Type) : Type := Op (Server × List Access) ErrorType α

def touch {α : Type} (a : Access) (x : Bm 4096 4096 0 α) : Tm α := fun u =>
  (x u.1).map fun out => (out.1, out.2, u.2 ++ [a])

/-- `memcpy` out of a buffer. No byte is read where `len` is 0. -/
def copyOut (buffer : List UInt8) (offset len : ℕ) : Tm (List UInt8) := do
  require (len = 0 ∨ offset + len ≤ buffer.length)
  pure (slice buffer offset len)

def readData (blockId offset len version : ℕ) : Tm (List UInt8) := do
  if 4096 ≤ blockId then pure [] else
    let mapBuffer ← touch .map (readBlock 0)
    require (blockId < mapBuffer.length)
    if !isAllocated mapBuffer blockId then pure []
    else if (versionAt mapBuffer blockId).toNat ≠ version then pure []
    else
      let buffer ← touch (.block blockId) (readBlock blockId)
      copyOut buffer offset len

def writeData (blockId offset : ℕ) (buffer : List UInt8) : Tm Bool := do
  if 4096 ≤ blockId ∨ blockId = 0 ∨ 4096 < offset + buffer.length then pure false else
    let mapBuffer ← touch .map (readBlock 0)
    require (blockId < mapBuffer.length)
    if !isAllocated mapBuffer blockId then pure false
    else
      match ← attempt (touch (.block blockId) (writePartialBlock blockId buffer offset)) with
      | .error _ => pure false
      | .ok _ => pure true

def freeBlock (blockId : ℕ) : Tm Bool := do
  if blockId = 0 ∨ 4096 < blockId then pure false else
    let buffer ← touch .map (readBlock 0)
    require (blockId < buffer.length)
    if !isAllocated buffer blockId then pure false
    else
      ignore (touch .map (writeBlock 0 (bump buffer blockId)))
      pure true

inductive Request
  | readData (blockId offset len version : ℕ)
  | writeData (blockId offset : ℕ) (buffer : List UInt8)
  | freeBlock (blockId : ℕ)
  deriving DecidableEq, Repr

inductive Answer
  | data (content : List UInt8)
  | success (ok : Bool)
  deriving DecidableEq, Repr

namespace Request

def blockId : Request → ℕ
  | readData b _ _ _ | writeData b _ _ | freeBlock b => b

def Inside : Request → Prop
  | readData b offset len _ => 1 ≤ b ∧ b < 4096 ∧ offset + len ≤ 4096
  | writeData b offset buffer => 1 ≤ b ∧ b < 4096 ∧ offset + buffer.length ≤ 4096
  | freeBlock b => 1 ≤ b ∧ b < 4096

def rejection : Request → Answer
  | readData .. => .data []
  | writeData .. | freeBlock _ => .success false

/-- Not a read of block 0 with its version, not a read beyond the end of a block
with the version the block has, and not the one id behind the last block. -/
def Guarded (s : Server) : Request → Prop
  | readData b offset len v => ¬ (b = 0 ∧ v = 1) ∧
    ¬ (1 ≤ b ∧ b < 4096 ∧ allocated s b = true ∧ (version s b).toNat = v ∧ 0 < len ∧ 4096 < offset + len)
  | writeData .. => True
  | freeBlock b => b ≠ 4096

end Request

def handle : Request → Tm Answer
  | .readData b offset len v => do return .data (← readData b offset len v)
  | .writeData b offset buffer => do return .success (← writeData b offset buffer)
  | .freeBlock b => do return .success (← freeBlock b)

/-- The request ends, touches the version map and its own data block only, changes
nothing else, and is rejected without a change where it is not inside a data block. -/
def Contained (s : Server) (q : Request) : Prop :=
  ∃ r t log, handle q (s, []) = some (.ok r, t, log) ∧
    (∀ a ∈ log, a = .map ∨ (a = .block q.blockId ∧ 1 ≤ q.blockId ∧ q.blockId < 4096)) ∧
    (∀ b, b ≠ 0 → b ≠ q.blockId → t.blocks b = s.blocks b) ∧
    (∀ i, i ≠ q.blockId → version t i = version s i) ∧ (¬ q.Inside → r = q.rejection ∧ t = s)

inductive Event
  | request (q : Request)
  | allocBlock
  | restart

def step (s : Server) : Event → Option Server
  | .request q => (handle q (s, [])).map (·.2.1)
  | .allocBlock => (allocBlock s).map (·.2)
  | .restart => (BlockStore.restart s).map (·.2)

section Handlers

variable {s t : Server} {b offset len v : ℕ} {buffer : List UInt8} {log : List Access} {q : Request}

theorem touch_apply {α : Type} {a : Access} {x : Bm 4096 4096 0 α} {r : Except ErrorType α}
    (h : x s = some (r, t)) : touch a x (s, log) = some (r, t, log ++ [a]) := by
  unfold touch
  rw [h]
  rfl

theorem readData_eq (b offset len v : ℕ) (s : Server) : readData b offset len v (s, []) =
    if 4096 ≤ b then some (.ok [], s, [])
    else if allocated s b = true ∧ (version s b).toNat = v then
      if len = 0 ∨ offset + len ≤ 4096 then some (.ok (slice (s.blocks b) offset len), s, [.map, .block b]) else none
    else some (.ok [], s, [.map]) := by
  unfold readData
  split
  case isTrue => rfl
  case isFalse hb =>
    rw [bind_ok (touch_apply (readBlock_apply s (by decide))), require_of (by rw [s.length_blocks]; omega),
      bind_ok (pure_apply ())]
    by_cases ha : allocated s b = true
    · rw [if_neg (by simpa [allocated] using ha)]
      by_cases hv : (versionAt (s.blocks 0) b).toNat = v
      · rw [if_neg (not_not.mpr hv), if_pos ⟨ha, hv⟩, bind_ok (touch_apply (readBlock_apply s (by omega))),
          copyOut, s.length_blocks]
        split
        case isTrue hle => rw [require_of hle, bind_ok (pure_apply ()), pure_apply]; rfl
        case isFalse hgt =>
          rw [require, if_neg hgt]
          rfl
      · rw [if_pos hv, if_neg fun h => hv h.2]
        rfl
    · rw [if_pos (by simpa [allocated] using ha), if_neg fun h => ha h.1]
      rfl

theorem freeBlock_eq (hs : s.maybeFailed = false) (b : ℕ) : freeBlock b (s, []) =
    if b = 0 ∨ 4096 < b then some (.ok false, s, [])
    else if b = 4096 then none
    else if allocated s b = true then some (.ok true, changed s b, [.map, .map])
    else some (.ok false, s, [.map]) := by
  unfold freeBlock
  split
  case isTrue => rfl
  case isFalse hb =>
    rw [bind_ok (touch_apply (readBlock_apply s (by decide))), s.length_blocks]
    by_cases heq : b = 4096
    · rw [if_pos heq, require, if_neg (by omega)]
      rfl
    · rw [if_neg heq, require_of (by omega), bind_ok (pure_apply ())]
      by_cases ha : allocated s b = true
      · have hlen : (bump (s.blocks 0) b).length = 4096 := by rw [DataServer.length_bump, s.length_blocks]
        rw [if_pos ha, if_neg (by simpa [allocated] using ha),
          bind_ok (ignore_apply (touch_apply (writeBlock_apply hs (by decide) hlen))), pure_apply]
        rfl
      · rw [if_neg ha, if_pos (by simpa [allocated] using ha)]
        rfl

theorem writeData_cases (hs : s.maybeFailed = false) (b offset : ℕ) (buffer : List UInt8) :
    (∃ log, writeData b offset buffer (s, []) = some (.ok false, s, log) ∧ ∀ a ∈ log, a = .map) ∨
    ∃ t, writeData b offset buffer (s, []) = some (.ok true, t, [.map, .block b]) ∧ t.maybeFailed = false ∧
      1 ≤ b ∧ b < 4096 ∧ offset + buffer.length ≤ 4096 ∧
      t.blocks = Function.update s.blocks b (splice (s.blocks b) offset buffer) := by
  unfold writeData
  split
  case isTrue => exact Or.inl ⟨[], rfl, fun a ha => absurd ha List.not_mem_nil⟩
  case isFalse hb =>
    rw [bind_ok (touch_apply (readBlock_apply s (by decide))), require_of (by rw [s.length_blocks]; omega),
      bind_ok (pure_apply ())]
    split
    case isTrue => exact Or.inl ⟨[.map], rfl, fun a ha => List.mem_singleton.mp ha⟩
    case isFalse =>
      obtain ⟨t, ht, hw, hblocks⟩ := writePartialBlock_blocks hs (by omega : b < 4096 + 0)
        (by omega : offset + buffer.length ≤ 4096)
      refine Or.inr ⟨t, ?_, hw, by omega, by omega, by omega, hblocks⟩
      rw [bind_ok (attempt_apply (touch_apply ht))]
      rfl

/-- Without the record, and where the copy has a place in the buffer, these are
the handlers of the other modules. -/
theorem readData_erase (h : len ≠ 0 ∨ offset ≤ 4096) : (readData b offset len v (s, [])).map
    (fun out => (out.1, out.2.1)) = DataServer.readData b offset len v s := by
  rw [readData_eq]
  by_cases hb : 4096 ≤ b
  · rw [if_pos hb, DataServer.readData, if_pos hb]
    rfl
  · rw [if_neg hb, Versions.readData_eq (by omega)]
    split
    · rw [if_congr (by omega : (len = 0 ∨ offset + len ≤ 4096) ↔ offset + len ≤ 4096) rfl rfl]
      split
      · rfl
      · rfl
    · rfl

theorem freeBlock_erase (hs : s.maybeFailed = false) :
    (freeBlock b (s, [])).map (fun out => (out.1, out.2.1)) = DataServer.freeBlock b s := by
  rw [freeBlock_eq hs, DataServer.freeBlock_eq hs]
  split
  · rfl
  · split
    · rfl
    · split
      · rfl
      · rfl

theorem writeData_erase (hs : s.maybeFailed = false) :
    (writeData b offset buffer (s, [])).map (fun out => (out.1, out.2.1)) =
      DataServer.writeData b offset buffer s := by
  unfold writeData DataServer.writeData
  split
  case isTrue => rfl
  case isFalse hb =>
    rw [bind_ok (touch_apply (readBlock_apply s (by decide))), require_of (by rw [s.length_blocks]; omega),
      bind_ok (pure_apply ()), bind_ok (readBlock_apply s (by decide))]
    split
    case isTrue => rfl
    case isFalse =>
      obtain ⟨t, ht, -, -⟩ := writePartialBlock_blocks hs (by omega : b < 4096 + 0)
        (by omega : offset + buffer.length ≤ 4096)
      rw [bind_ok (attempt_apply (touch_apply ht)), bind_ok ht]
      rfl

end Handlers

section Runs

variable {s s₀ t : Server} {a : BlockAllocator} {q : Request}

/-- What every reachable server satisfies: block 0 counts as allocated. -/
structure Inv (s : Server) : Prop where
  works : s.maybeFailed = false
  first : version s 0 = 1

theorem inv_initial (h : initializeServer (BlockManager.zeroed 4096 4096 0) = some (.ok a, s)) : Inv s := by
  obtain ⟨t, ht, hworks, hblock⟩ : ∃ t : Server, BlockAllocator.create 0 true (BlockManager.zeroed 4096 4096 0) =
      some (.ok (BlockAllocator.fields 4096 4096 0), t) ∧ t.maybeFailed = false ∧
      t.blocks 0 = Bitmap.set (List.replicate 4096 0) 0 := BlockStore.create_zero rfl (by decide) (by decide)
  cases h.symm.trans ht
  refine ⟨hworks, ?_⟩
  rw [version, hblock, versionAt, Bitmap.set, Nat.zero_div, List.getD_eq_getElem?_getD,
    List.getElem?_set_self (by rw [List.length_replicate]; decide)]
  decide

theorem Inv.changed {b : ℕ} (h : Inv s) (hb : 1 ≤ b) (hlt : b < 4096) : Inv (changed s b) :=
  ⟨h.works, by rw [DataServer.version_changed hlt, if_neg (by omega), h.first]⟩

theorem handle_inv {r : Except ErrorType Answer} {log : List Access} (h : Inv s)
    (hrun : handle q (s, []) = some (r, t, log)) : Inv t := by
  have hends : ∀ {α : Type} {x : Tm α} {f : α → Answer}, ends x (fun u => Inv u.1) (s, []) →
      ends (do return f (← x)) (fun u => Inv u.1) (s, []) := by
    intro α x f hx
    exact hx.bind (fun a u _ hu => ends_pure hu) fun u hu => hu
  cases q with
  | readData b offset len v =>
    refine hends (x := readData b offset len v) (f := .data) ?_ r (t, log) hrun
    intro r u hread
    rw [readData_eq] at hread
    split at hread
    · cases hread
      exact h
    · split at hread
      · split at hread
        · cases hread
          exact h
        · cases hread
      · cases hread
        exact h
  | writeData b offset buffer =>
    refine hends (x := writeData b offset buffer) (f := .success) ?_ r (t, log) hrun
    intro r u hwrite
    obtain ⟨log', hrej, -⟩ | ⟨t', hok, hworks, h1, -, -, hblocks⟩ := writeData_cases h.works b offset buffer
    · cases hwrite.symm.trans hrej
      exact h
    · cases hwrite.symm.trans hok
      refine ⟨hworks, ?_⟩
      rw [version, hblocks, Function.update_of_ne (by omega)]
      exact h.first
  | freeBlock b =>
    refine hends (x := freeBlock b) (f := .success) ?_ r (t, log) hrun
    intro r u hfree
    rw [freeBlock_eq h.works] at hfree
    split at hfree
    case isTrue =>
      cases hfree
      exact h
    case isFalse hb =>
      split at hfree
      case isTrue => cases hfree
      case isFalse hne =>
        split at hfree
        case isTrue =>
          cases hfree
          exact h.changed (by omega) (by omega)
        case isFalse =>
          cases hfree
          exact h

theorem step_inv {e : Event} (h : Inv s) (hstep : step s e = some t) : Inv t := by
  cases e with
  | request q =>
    obtain ⟨⟨r, t', log⟩, hrun, rfl⟩ := Option.map_eq_some_iff.mp hstep
    exact handle_inv h hrun
  | allocBlock =>
    obtain ⟨⟨r, t'⟩, hrun, rfl⟩ := Option.map_eq_some_iff.mp hstep
    obtain ⟨-, rfl, -⟩ | ⟨b, -, h1, hlt, -, -, rfl⟩ := DataServer.allocBlock_cases h.works hrun
    · exact h
    · exact ⟨h.works, (DataServer.version_handedOut h1).trans (h.changed h1 hlt).first⟩
  | restart =>
    have hrestart : step s .restart = some { s with maybeFailed := false, writeFailCnt := 0 } := rfl
    cases hrestart.symm.trans hstep
    exact ⟨rfl, h.first⟩

theorem reach_inv (hinit : initializeServer (BlockManager.zeroed 4096 4096 0) = some (.ok a, s₀))
    (hr : Reach step (fun _ _ => True) s₀ s) : Inv s :=
  hr.invariant (inv_initial hinit) fun _ _ _ hI _ hstep => step_inv hI hstep

theorem contained_readData (h : Inv s) (b offset len v : ℕ) :
    Contained s (.readData b offset len v) ↔ (Request.readData b offset len v).Guarded s := by
  have hfirst : allocated s 0 = true := by
    rw [Versions.allocated_iff, h.first]
    decide
  have hzero : (version s 0).toNat = 1 := by
    rw [h.first]
    rfl
  have hrun : ∀ {c log}, readData b offset len v (s, []) = some (.ok c, s, log) →
      handle (.readData b offset len v) (s, []) = some (.ok (.data c), s, log) := fun hread => bind_ok hread
  have hread := readData_eq b offset len v s
  have hreject : ∀ {log}, readData b offset len v (s, []) = some (.ok [], s, log) → (∀ a ∈ log, a = .map) →
      Contained s (.readData b offset len v) := fun hread hlog =>
    ⟨_, s, _, hrun hread, fun a ha => Or.inl (hlog a ha), fun _ _ _ => rfl, fun _ _ => rfl, fun _ => ⟨rfl, rfl⟩⟩
  split at hread
  case isTrue hb =>
    refine iff_of_true (hreject hread nofun) ⟨?_, ?_⟩
    · omega
    · omega
  case isFalse hb =>
    split at hread
    case isTrue hv =>
      split at hread
      case isTrue hle =>
        by_cases hb0 : b = 0
        · subst hb0
          refine iff_of_false ?_ fun hg => hg.1 ⟨rfl, hv.2.symm.trans hzero⟩
          rintro ⟨r, t, log, hhandle, hlog, -⟩
          cases (hrun hread).symm.trans hhandle
          obtain hmap | ⟨-, hpos, -⟩ := hlog (.block 0) (by simp)
          · cases hmap
          · cases hpos
        · refine iff_of_true ⟨_, s, _, hrun hread, ?_, fun _ _ _ => rfl, fun _ _ => rfl, ?_⟩ ⟨?_, ?_⟩
          · intro a ha
            simp only [List.mem_cons, List.not_mem_nil, or_false] at ha
            exact ha.imp_right fun ha => ⟨ha, by exact Nat.pos_of_ne_zero hb0, by exact Nat.lt_of_not_le hb⟩
          · intro hout
            obtain rfl : len = 0 := by
              by_contra hlen
              exact hout ⟨by omega, by omega, by omega⟩
            exact ⟨congrArg Answer.data (List.take_zero ..), rfl⟩
          · omega
          · omega
      case isFalse hgt =>
        refine iff_of_false ?_ ?_
        · rintro ⟨r, t, log, hhandle, -⟩
          change (readData b offset len v (s, [])).bind _ = _ at hhandle
          rw [hread] at hhandle
          cases hhandle
        · rintro ⟨hg0, hg⟩
          by_cases hb0 : b = 0
          · subst hb0
            exact hg0 ⟨rfl, hv.2.symm.trans hzero⟩
          · exact hg ⟨by omega, by omega, hv.1, hv.2, by omega, by omega⟩
    case isFalse hv =>
      refine iff_of_true (hreject hread fun a ha => List.mem_singleton.mp ha) ⟨?_, ?_⟩
      · rintro ⟨rfl, rfl⟩
        exact hv ⟨hfirst, hzero⟩
      · rintro ⟨-, -, ha, hver, -⟩
        exact hv ⟨ha, hver⟩

theorem contained_writeData (h : Inv s) (b offset : ℕ) (buffer : List UInt8) :
    Contained s (.writeData b offset buffer) := by
  obtain ⟨log, hrej, hlog⟩ | ⟨t, hok, -, h1, hlt, hle, hblocks⟩ := writeData_cases h.works b offset buffer
  · exact ⟨.success false, s, log, bind_ok hrej, fun a ha => Or.inl (hlog a ha), fun _ _ _ => rfl,
      fun _ _ => rfl, fun _ => ⟨rfl, rfl⟩⟩
  · refine ⟨.success true, t, _, bind_ok hok, ?_, ?_, ?_, fun hout => absurd ⟨h1, hlt, hle⟩ hout⟩
    · intro a ha
      simp only [List.mem_cons, List.not_mem_nil, or_false] at ha
      exact ha.imp_right fun ha => ⟨ha, h1, hlt⟩
    · intro j _ hj
      rw [hblocks, Function.update_of_ne (by exact hj)]
    · intro i _
      rw [version, hblocks, Function.update_of_ne (by omega)]
      rfl

theorem contained_freeBlock (h : Inv s) (b : ℕ) : Contained s (.freeBlock b) ↔ b ≠ 4096 := by
  have hfree := freeBlock_eq h.works b
  have hreject : ∀ {log}, freeBlock b (s, []) = some (.ok false, s, log) → (∀ a ∈ log, a = .map) →
      Contained s (.freeBlock b) := fun hfree hlog =>
    ⟨.success false, s, _, bind_ok hfree, fun a ha => Or.inl (hlog a ha), fun _ _ _ => rfl, fun _ _ => rfl,
      fun _ => ⟨rfl, rfl⟩⟩
  split at hfree
  case isTrue hb => exact iff_of_true (hreject hfree nofun) (by omega)
  case isFalse hb =>
    split at hfree
    case isTrue heq =>
      refine iff_of_false ?_ (not_not.mpr heq)
      rintro ⟨r, t, log, hhandle, -⟩
      change (freeBlock b (s, [])).bind _ = _ at hhandle
      rw [hfree] at hhandle
      cases hhandle
    case isFalse hne =>
      split at hfree
      case isFalse => exact iff_of_true (hreject hfree fun a ha => List.mem_singleton.mp ha) hne
      case isTrue =>
        refine iff_of_true ⟨.success true, changed s b, _, bind_ok hfree, ?_, ?_, ?_, ?_⟩ hne
        · intro a ha
          simp only [List.mem_cons, List.not_mem_nil, or_false, or_self] at ha
          exact Or.inl ha
        · intro j hj _
          rw [changed, setBlock_blocks, Function.update_of_ne hj]
        · intro i hi
          rw [DataServer.version_changed (by omega), if_neg (by exact hi)]
        · exact fun hout => absurd ⟨by omega, by omega⟩ hout

/-- A request to a reachable server stays within bounds exactly if it is guarded. -/
theorem contained_iff_guarded (hinit : initializeServer (BlockManager.zeroed 4096 4096 0) = some (.ok a, s₀))
    (hr : Reach step (fun _ _ => True) s₀ s) (q : Request) : Contained s q ↔ q.Guarded s := by
  have h := reach_inv hinit hr
  cases q with
  | readData b offset len v => exact contained_readData h b offset len v
  | writeData b offset buffer => exact iff_of_true (contained_writeData h b offset buffer) trivial
  | freeBlock b => exact contained_freeBlock h b

theorem exists_first : ∃ (a : BlockAllocator) (s₀ : Server),
    initializeServer (BlockManager.zeroed 4096 4096 0) = some (.ok a, s₀) ∧
    Reach step (fun _ _ => True) s₀ (handedOut s₀ 1) ∧ allocated (handedOut s₀ 1) 1 = true ∧
    (version (handedOut s₀ 1) 1).toNat = 1 := by
  obtain ⟨a, s₀, hinit, hs, halloc, ha⟩ := Versions.exists_first
  have hstep : step s₀ .allocBlock = some (handedOut s₀ 1) := by
    rw [step, halloc]
    rfl
  refine ⟨a, s₀, hinit, Reach.refl.tail trivial hstep, ha, ?_⟩
  obtain ⟨hr, -⟩ | ⟨b, hr, -⟩ := DataServer.allocBlock_cases hs halloc
  · cases hr
  · simp only [Except.ok.injEq, Prod.mk.injEq] at hr
    obtain ⟨rfl, hver⟩ := hr
    rw [DataServer.version_handedOut (Nat.le_refl 1), DataServer.version_changed (by decide), if_pos rfl, ← hver]

/-- A new server, after its first allocation. -/
theorem contained_iff_guarded_first : ∃ (a : BlockAllocator) (s₀ : Server),
    initializeServer (BlockManager.zeroed 4096 4096 0) = some (.ok a, s₀) ∧
    Reach step (fun _ _ => True) s₀ (handedOut s₀ 1) ∧ ∀ q : Request,
      (Contained (handedOut s₀ 1) q ↔ q.Guarded (handedOut s₀ 1)) := by
  obtain ⟨a, s₀, hinit, hr, -⟩ := exists_first
  exact ⟨a, s₀, hinit, hr, contained_iff_guarded hinit hr⟩

/-- The version map is read as a data block, and the ends of the version map and
of a block are passed. -/
theorem not_contained_first : ∃ (a : BlockAllocator) (s₀ : Server),
    initializeServer (BlockManager.zeroed 4096 4096 0) = some (.ok a, s₀) ∧
    Reach step (fun _ _ => True) s₀ (handedOut s₀ 1) ∧ ¬ Contained s₀ (.readData 0 0 1 1) ∧
    ¬ Contained s₀ (.freeBlock 4096) ∧ ¬ Contained (handedOut s₀ 1) (.readData 1 4096 1 1) := by
  obtain ⟨a, s₀, hinit, hr, ha, hver⟩ := exists_first
  refine ⟨a, s₀, hinit, hr, ?_, ?_, ?_⟩
  · rw [contained_readData (inv_initial hinit)]
    exact fun hg => hg.1 ⟨rfl, rfl⟩
  · rw [contained_freeBlock (inv_initial hinit)]
    exact not_not.mpr rfl
  · rw [contained_readData (reach_inv hinit hr)]
    exact fun hg => hg.2 ⟨Nat.le_refl 1, by decide, ha, hver, Nat.one_pos, by decide⟩

end Runs

end Chfs.Distributed.Bounds
