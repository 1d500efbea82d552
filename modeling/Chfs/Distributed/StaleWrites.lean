import Chfs.Distributed.Ownership

namespace Chfs.Distributed.StaleWrites

open Lib.Effect Lib.Bytes Lib.Run Lib.Ledger Block.Manager BlockMap DataServer Requests Listing Ownership
open Versions (Serves allocs frees)

variable {logCnt : ℕ}

def onServer (m : ℕ) : Listing.Event → Option Versions.Event
  | .allocated _ info => if info.machineId = m then some (.allocated info.blockId info.version) else none
  | .freed _ b m' => if m' = m then some (.freed b) else none
  | .wrote m' _ _ _ _ => if m' = m then some .none else none
  | _ => none

/-- The allocation at place `k` of the run has produced the entry `info`, and a
client holds it as `info'`: from the answer to `alloc_block`, or from a block map
it has asked for before the block was freed. -/
inductive Learnt (es : List Listing.Event) (k id : ℕ) (info : BlockInfo) : BlockInfo → Prop
  | allocate : es[k]? = some (.allocated id info) → Learnt es k id info info
  | map {j : ℕ} {l : List BlockInfo} : es[k]? = some (.allocated id info) → k < j →
      es[j]? = some (.mapped id l) → trimmed info ∈ l →
      (∀ i, k < i → i < j → ∀ id', es[i]? ≠ some (.freed id' info.blockId info.machineId)) →
      Learnt es k id info (trimmed info)

section Server

variable {ms : MetadataServer} {ids : Set ℕ} {bid : ℕ → ℕ} {ls : ℕ → List BlockInfo}
  {c c' c₀ : Cluster logCnt} {e : Listing.Event} {es : List Listing.Event} {m : ℕ}

theorem step_onServer (h : Lists c ids bid ls) (hs : Step ms ids c e c') (m : ℕ) :
    (∃ e', onServer m e = some e' ∧ Serves (c.servers m) e' (c'.servers m)) ∨
    (onServer m e = none ∧ c'.servers m = c.servers m) := by
  cases hs with
  | @allocateBlock _ id g now info hid hrun =>
    obtain ⟨m', b, -, -, -, -, -, halloc, hr, -, inode, hlen, -, rfl⟩ :=
      allocateBlock_cases h.works h.located hid (h.maps id hid) hrun
    cases hr
    rw [servers_written, servers_granted]
    by_cases hm : m' = m
    · subst hm
      rw [Function.update_self]
      exact Or.inl ⟨_, if_pos rfl, .allocBlock halloc⟩
    · rw [Function.update_of_ne (Ne.symm hm)]
      exact Or.inr ⟨if_neg hm, rfl⟩
  | @freeBlock _ id b m' now hid hrun =>
    obtain ⟨hr, -⟩ | ⟨-, -, -, h3, h4, h5, pos, inode, hlen, -, -, rfl⟩ :=
      Requests.freeBlock_cases h.works h.located hid (h.maps id hid) hrun
    · cases hr
    rw [servers_written, servers_released]
    by_cases hm : m' = m
    · subst hm
      rw [Function.update_self]
      refine Or.inl ⟨_, if_pos rfl, .freeBlock ?_⟩
      rw [freeBlock_eq (h.works m'), if_neg (by omega), if_neg (by omega), if_pos h5]
    · rw [Function.update_of_ne (Ne.symm hm)]
      exact Or.inr ⟨if_neg hm, rfl⟩
  | @refused _ id b m' now hid hrun =>
    obtain ⟨-, rfl, -⟩ | ⟨hr, -⟩ := Requests.freeBlock_cases h.works h.located hid (h.maps id hid) hrun
    · exact Or.inr ⟨rfl, rfl⟩
    · cases hr
  | @getBlockMap _ id l hid hrun =>
    rw [getBlockMap_eq h.located hid (h.maps id hid)] at hrun
    cases hrun
    exact Or.inr ⟨rfl, rfl⟩
  | @writeData _ m' b offset buffer done _ _ hrun =>
    obtain ⟨s, hw, rfl⟩ := onPart_eq_some.mp hrun
    by_cases hm : m' = m
    · subst hm
      refine Or.inl ⟨_, if_pos rfl, ?_⟩
      simp only [Function.update_self]
      exact .writeData hw
    · exact Or.inr ⟨if_neg hm, Function.update_of_ne (Ne.symm hm) _ _⟩

theorem path_onServer (h₀ : Lists c₀ ids bid ls) (h : Path (Step ms ids) c₀ es c) (m : ℕ) :
    Path Serves (c₀.servers m) (es.filterMap (onServer m)) (c.servers m) := by
  have hinv : (∃ ls, Lists c ids bid ls) ∧
      Path Serves (c₀.servers m) (es.filterMap (onServer m)) (c.servers m) := by
    refine h.invariant (I := fun es c => (∃ ls, Lists c ids bid ls) ∧
      Path Serves (c₀.servers m) (es.filterMap (onServer m)) (c.servers m)) ⟨⟨ls, h₀⟩, .nil⟩ ?_
    rintro es c e c' ⟨⟨ls, hl⟩, hpath⟩ hs
    refine ⟨⟨_, hl.step hs⟩, ?_⟩
    rw [List.filterMap_append]
    obtain ⟨e', he, hserve⟩ | ⟨he, hsame⟩ := step_onServer hl hs m
    · have hone : [e].filterMap (onServer m) = [e'] := by simp [he]
      rw [hone]
      exact hpath.snoc hserve
    · have hnil : [e].filterMap (onServer m) = [] := by simp [he]
      rw [hnil, List.append_nil, hsame]
      exact hpath
  exact hinv.2

theorem frees_pos_iff {b : ℕ} : 0 < frees b (es.filterMap (onServer m)) ↔ ∃ id, .freed id b m ∈ es := by
  unfold frees
  rw [List.countP_pos_iff]
  constructor
  · rintro ⟨e', he', hfree⟩
    obtain ⟨e, he, heq⟩ := List.mem_filterMap.mp he'
    cases e with
    | freed id b' m' =>
      simp only [onServer, Option.ite_none_right_eq_some, Option.some.injEq] at heq
      obtain ⟨rfl, rfl⟩ := heq
      rw [Versions.Event.frees, decide_eq_true_eq] at hfree
      exact ⟨id, hfree ▸ he⟩
    | allocated id info =>
      simp only [onServer, Option.ite_none_right_eq_some, Option.some.injEq] at heq
      obtain ⟨-, rfl⟩ := heq
      cases hfree
    | wrote m' b' offset buffer done =>
      simp only [onServer, Option.ite_none_right_eq_some, Option.some.injEq] at heq
      obtain ⟨-, rfl⟩ := heq
      cases hfree
    | refused | mapped => cases heq
  · rintro ⟨id, he⟩
    refine ⟨.freed b, List.mem_filterMap.mpr ⟨_, he, if_pos rfl⟩, decide_eq_true rfl⟩

end Server

section Write

variable {ms : MetadataServer} {ids : Set ℕ} {bid : ℕ → ℕ} {c c' c₀ : Cluster logCnt}
  {es : List Listing.Event} {k id : ℕ} {info info' : BlockInfo}

theorem Learnt.allocated (h : Learnt es k id info info') : es[k]? = some (.allocated id info) ∧
    info'.blockId = info.blockId ∧ info'.machineId = info.machineId := by
  cases h with
  | allocate h => exact ⟨h, rfl, rfl⟩
  | map h => exact ⟨h, rfl, rfl⟩

/-- The block of an entry is allocated as long as it has been allocated as often
as freed since. -/
theorem allocated_since (h₀ : Start c₀ ids bid) (h : Path (Step ms ids) c₀ es c)
    (hk : es[k]? = some (.allocated id info)) :
    (1 ≤ info.blockId ∧ info.blockId < 4096) ∧ (c.servers info.machineId).maybeFailed = false ∧
    (allocated (c.servers info.machineId) info.blockId = true ↔
      allocs info.blockId ((es.drop (k + 1)).filterMap (onServer info.machineId)) =
        frees info.blockId ((es.drop (k + 1)).filterMap (onServer info.machineId))) := by
  have hsplit : es = es.take k ++ [.allocated id info] ++ es.drop (k + 1) := by
    obtain ⟨hlt, hget⟩ := List.getElem?_eq_some_iff.mp hk
    rw [List.append_assoc, List.singleton_append, ← hget, ← List.drop_eq_getElem_cons hlt,
      List.take_append_drop]
  rw [hsplit] at h
  obtain ⟨c₂, h₂, hlater⟩ := h.split
  obtain ⟨c₁, h₁, hs⟩ := h₂.last
  have hl₁ := lists_of_path h₀ h₁
  have hl₂ := hl₁.step hs
  cases hs with
  | allocateBlock hid hrun =>
    obtain ⟨m, b, -, -, h3, h4, hfree, -, hr, -, inode, hlen, -, rfl⟩ :=
      allocateBlock_cases hl₁.works hl₁.located hid (hl₁.maps id hid) hrun
    cases hr
    have heven : ¬ (version (c₁.servers m) b).toNat % 2 = 1 := by
      rw [← Versions.allocated_iff, hfree]
      decide
    have hver : (version ((written (granted c₁ m b) (bid id) inode hlen).servers m) b).toNat =
        ((version (c₁.servers m) b).toNat + 1) % 256 := by
      rw [servers_written, version_granted h3 h4, if_pos rfl, UInt8.toNat_add]
      rfl
    have hodd : allocated ((written (granted c₁ m b) (bid id) inode hlen).servers m) b = true := by
      rw [Versions.allocated_iff, hver]
      omega
    have hpath := path_onServer hl₂ hlater m
    obtain ⟨hw, hfinal, hturn⟩ := Versions.version_of_path (hl₂.works m) h3 hodd hpath
    refine ⟨⟨h3, h4⟩, hw, ?_⟩
    change allocated (c.servers m) b = true ↔ _
    rw [Versions.allocated_iff, hfinal, hver]
    change _ ↔ allocs b ((es.drop (k + 1)).filterMap (onServer m)) =
      frees b ((es.drop (k + 1)).filterMap (onServer m))
    omega

theorem refused_iff (h₀ : Start c₀ ids bid) (h : Path (Step ms ids) c₀ es c)
    (hlearnt : Learnt es k id info info') {offset : ℕ} {buffer : List UInt8} {done : Bool}
    (hwrite : call info'.machineId (writeData info'.blockId offset buffer) c = some (.ok done, c')) :
    ((∃ id', .freed id' info'.blockId info'.machineId ∈ es.drop (k + 1)) → done = false ∧ c' = c) ↔
      (frees info'.blockId ((es.drop (k + 1)).filterMap (onServer info'.machineId)) = 0 ∨
        allocs info'.blockId ((es.drop (k + 1)).filterMap (onServer info'.machineId)) ≠
          frees info'.blockId ((es.drop (k + 1)).filterMap (onServer info'.machineId)) ∨
        4096 < offset + buffer.length) := by
  obtain ⟨hk, hb, hm⟩ := hlearnt.allocated
  obtain ⟨⟨h1, h2⟩, hw, hiff⟩ := allocated_since h₀ h hk
  rw [hb, hm] at hwrite ⊢
  obtain ⟨s, hrun, rfl⟩ := onPart_eq_some.mp hwrite
  rw [← frees_pos_iff]
  obtain ⟨hdone, rfl, hwhy⟩ | ⟨hdone, -, -, hle, ha, -⟩ := writeData_cases hw hrun
  · cases hdone
    rw [Function.update_eq_self]
    refine ⟨fun _ => ?_, fun _ _ => ⟨rfl, rfl⟩⟩
    obtain hwhy | hwhy | hwhy | hwhy := hwhy
    · omega
    · omega
    · exact Or.inr (Or.inr hwhy)
    · refine Or.inr (Or.inl fun heq => ?_)
      rw [← hiff, hwhy] at heq
      cases heq
  · cases hdone
    constructor
    · intro hp
      by_contra hcond
      have hpos : 0 < frees info.blockId ((es.drop (k + 1)).filterMap (onServer info.machineId)) := by
        by_contra hzero
        exact hcond (Or.inl (Nat.eq_zero_of_not_pos hzero))
      cases (hp hpos).1
    · rintro (hzero | hne | hlong) hpos
      · omega
      · exact absurd (hiff.mp ha) hne
      · omega

theorem traced_of_path (h₀ : Start c₀ ids bid) (hunused : Unused ms c₀) (h : Path (Step ms ids) c₀ es c)
    (hid : id ∈ ids) (hinfo : info ∈ listing id es) : ∃ k : ℕ, es[k]? = some (.allocated id info) ∧
      ∀ i : ℕ, k < i → ∀ id', es[i]? ≠ some (.freed id' info.blockId info.machineId) := by
  induction h generalizing id info with
  | nil => cases hinfo
  | @snoc c c' es e hpath hs ih =>
    have howns := owns_of_path h₀ hunused hpath
    have hl := lists_of_path h₀ hpath
    rw [listing_snoc] at hinfo
    -- an entry that was there before, and whose block is not freed now
    have hold : info ∈ listing id es → (∀ id', e ≠ .freed id' info.blockId info.machineId) →
        ∃ k : ℕ, (es ++ [e])[k]? = some (.allocated id info) ∧
          ∀ i : ℕ, k < i → ∀ id', (es ++ [e])[i]? ≠ some (.freed id' info.blockId info.machineId) := by
      intro hmem hne
      obtain ⟨k, hk, hsince⟩ := ih hid hmem
      have hlt := (List.getElem?_eq_some_iff.mp hk).1
      refine ⟨k, by rw [List.getElem?_append_left hlt, hk], fun i hi id' heq => ?_⟩
      rw [List.getElem?_append] at heq
      split at heq
      case isTrue => exact hsince i hi id' heq
      case isFalse =>
        exact hne id' (List.mem_singleton.mp (List.mem_of_getElem? heq)).symm
    cases hs with
    | @allocateBlock _ id' g now info' hid' hrun =>
      rw [next] at hinfo
      split at hinfo
      case isTrue heq =>
        obtain hinfo | hinfo := List.mem_append.mp hinfo
        · exact hold hinfo (fun _ h => by cases h)
        · obtain rfl := List.mem_singleton.mp hinfo
          refine ⟨es.length, by rw [List.getElem?_concat_length, heq], fun i hi id'' heq' => ?_⟩
          rw [List.getElem?_eq_none (by rw [List.length_append, List.length_singleton]; omega)] at heq'
          cases heq'
      case isFalse => exact hold hinfo (fun _ h => by cases h)
    | @freeBlock _ id' b m now hid' hrun =>
      refine hold ?_ ?_
      · rw [next] at hinfo
        split at hinfo
        · exact List.mem_of_mem_eraseP hinfo
        · exact hinfo
      · -- the block has gone out of use, and what is listed is in use
        intro id'' heq
        cases heq
        have hstep := howns.step hl (.freeBlock hid' hrun)
        have hused := hstep.balanced.listed id hid _ (List.mem_map_of_mem hinfo)
        obtain ⟨hr, -⟩ | ⟨-, -, -, -, h4, h5, pos, inode, hlen, -, -, rfl⟩ :=
          Requests.freeBlock_cases hl.works hl.located hid' (hl.maps id' hid') hrun
        · cases hr
        · have hlater := hused.2.2
          rw [Versions.allocated_iff] at hlater h5
          rw [servers_written] at hlater
          have hver : version ((released c info.machineId info.blockId).servers info.machineId) info.blockId =
              version (c.servers info.machineId) info.blockId + 1 := by
            rw [version_released h4, if_pos rfl]
          change (version ((released c info.machineId info.blockId).servers info.machineId)
            info.blockId).toNat % 2 = 1 at hlater
          rw [hver, UInt8.toNat_add] at hlater
          change (_ + 1) % 256 % 2 = 1 at hlater
          omega
    | refused | getBlockMap | writeData => exact hold hinfo (fun _ h => by cases h)

theorem learnt_of_mapped (h₀ : Start c₀ ids bid) (hunused : Unused ms c₀) (h : Path (Step ms ids) c₀ es c)
    {j : ℕ} {l : List BlockInfo} (hj : es[j]? = some (.mapped id l)) (hinfo : info' ∈ l) :
    ∃ k info, Learnt es k id info info' := by
  obtain ⟨hlt, hget⟩ := List.getElem?_eq_some_iff.mp hj
  have hsplit : es = es.take j ++ [.mapped id l] ++ es.drop (j + 1) := by
    rw [List.append_assoc, List.singleton_append, ← hget, ← List.drop_eq_getElem_cons hlt,
      List.take_append_drop]
  rw [hsplit] at h
  obtain ⟨c₂, h₂, -⟩ := h.split
  obtain ⟨c₁, h₁, hs⟩ := h₂.last
  have hl := lists_of_path h₀ h₁
  cases hs with
  | getBlockMap hid hrun =>
    rw [getBlockMap_eq hl.located hid (hl.maps id hid)] at hrun
    cases hrun
    obtain ⟨info, hmem, rfl⟩ := List.mem_map.mp hinfo
    obtain ⟨k, hk, hsince⟩ := traced_of_path h₀ hunused h₁ hid hmem
    have hkj : k < j := by
      have hlen := (List.getElem?_eq_some_iff.mp hk).1
      rw [List.length_take] at hlen
      omega
    rw [List.getElem?_take_of_lt hkj] at hk
    refine ⟨k, info, .map hk hkj hj hinfo fun i hi hij id' heq => ?_⟩
    refine hsince i hi id' ?_
    rw [List.getElem?_take_of_lt hij, heq]

/-- A write from an entry whose block has been freed since: it is turned away
unless the block has been allocated again, in which case it goes through. What a
client finds in a block map is such an entry. -/
theorem writeData_stale_iff (h₀ : Start c₀ ids bid) (h : Path (Step ms ids) c₀ es c)
    (hlearnt : Learnt es k id info info') {offset : ℕ} {buffer : List UInt8} {done : Bool}
    (hwrite : call info'.machineId (writeData info'.blockId offset buffer) c = some (.ok done, c')) :
    (((∃ id', .freed id' info'.blockId info'.machineId ∈ es.drop (k + 1)) → done = false ∧ c' = c) ↔
      (frees info'.blockId ((es.drop (k + 1)).filterMap (onServer info'.machineId)) = 0 ∨
        allocs info'.blockId ((es.drop (k + 1)).filterMap (onServer info'.machineId)) ≠
          frees info'.blockId ((es.drop (k + 1)).filterMap (onServer info'.machineId)) ∨
        4096 < offset + buffer.length)) ∧
    (Unused ms c₀ → ∀ (j id : ℕ) (l : List BlockInfo), es[j]? = some (.mapped id l) →
      ∀ entry ∈ l, ∃ k info, Learnt es k id info entry) :=
  ⟨refused_iff h₀ h hlearnt hwrite, fun hunused _ _ _ hj _ hentry => learnt_of_mapped h₀ hunused h hj hentry⟩

end Write

theorem exists_freed : ∃ (c₀ c : Cluster 0) (bid : ℕ → ℕ),
    sampleFiles (BlockManager.zeroed 4096 4096 0) = some (.ok (), c₀.device) ∧ Start c₀ {2, 3} bid ∧
    Path (Step single {2, 3}) c₀ [.allocated 2 ⟨1, 1, 1⟩, .freed 2 1 1] c ∧ version (c.servers 1) 1 = 2 := by
  obtain ⟨d, a, server, bid, hfiles, -, h₀, hv⟩ := exists_start
  have hv₀ : version server 1 = 0 := hv 1 (Nat.le_refl 1) (by decide)
  have hfree : allocated server 1 = false := by
    rw [← Bool.not_eq_true, Versions.allocated_iff, hv₀]
    decide
  have hl₀ := lists_of_path h₀ (.nil : Path (Step single {2, 3}) _ [] _)
  obtain ⟨c₁, hs₁, hv₁⟩ := allocate_one hl₀ (Or.inl rfl : 2 ∈ ({2, 3} : Set ℕ)) rfl hfree
  simp only [hv₀] at hs₁ hv₁
  have hused : allocated (c₁.servers 1) 1 = true := by
    rw [Versions.allocated_iff, hv₁]
    decide
  obtain ⟨c₂, hs₂, hv₂⟩ := free_one (hl₀.step hs₁) (Or.inl rfl : 2 ∈ ({2, 3} : Set ℕ)) rfl hused
  refine ⟨⟨d, fun _ => server⟩, c₂, bid, hfiles, h₀, (Path.nil.snoc hs₁).snoc hs₂, ?_⟩
  rw [hv₂, hv₁]
  rfl

theorem exists_reuse : ∃ (c₀ c : Cluster 0) (bid : ℕ → ℕ),
    sampleFiles (BlockManager.zeroed 4096 4096 0) = some (.ok (), c₀.device) ∧ Start c₀ {2, 3} bid ∧
    Path (Step single {2, 3}) c₀ [.allocated 2 ⟨1, 1, 1⟩, .freed 2 1 1, .allocated 3 ⟨1, 1, 3⟩] c ∧
    version (c.servers 1) 1 = 3 := by
  obtain ⟨c₀, c, bid, hfiles, h₀, hpath, hv⟩ := exists_freed
  have hfree : allocated (c.servers 1) 1 = false := by
    rw [← Bool.not_eq_true, Versions.allocated_iff, hv]
    decide
  obtain ⟨c', hs, hv'⟩ := allocate_one (lists_of_path h₀ hpath) (Or.inr rfl : 3 ∈ ({2, 3} : Set ℕ)) rfl hfree
  rw [hv] at hs hv'
  exact ⟨c₀, c', bid, hfiles, h₀, hpath.snoc hs, hv'⟩

/-- A client that still holds the first entry writes over the block of `g`. -/
theorem writeData_reused : ∃ (c₀ c c' : Cluster 0) (bid : ℕ → ℕ) (es : List Listing.Event),
    sampleFiles (BlockManager.zeroed 4096 4096 0) = some (.ok (), c₀.device) ∧ Start c₀ {2, 3} bid ∧
    Path (Step single {2, 3}) c₀ es c ∧ listing 3 es = [⟨1, 1, 3⟩] ∧ Learnt es 0 2 ⟨1, 1, 1⟩ ⟨1, 1, 1⟩ ∧
    .freed 2 1 1 ∈ es.drop 1 ∧ call 1 (writeData 1 0 [120]) c = some (.ok true, c') ∧
    ((c'.servers 1).blocks 1)[0]? = some 120 := by
  obtain ⟨c₀, c, bid, hfiles, h₀, hpath, hv⟩ := exists_reuse
  have ha : allocated (c.servers 1) 1 = true := by
    rw [Versions.allocated_iff, hv]
    decide
  obtain ⟨s, hrun, -, hblocks⟩ := writeData_ok ((lists_of_path h₀ hpath).works 1) (Nat.le_refl 1) (by decide)
    (by decide : 0 + [(120 : UInt8)].length ≤ 4096) ha
  refine ⟨c₀, c, _, bid, _, hfiles, h₀, hpath, rfl, .allocate rfl, by simp, call_apply hrun, ?_⟩
  simp only [Function.update_self, hblocks]
  rfl

/-- While the block stays free the write is turned away. -/
theorem writeData_stale_freed : ∃ (c₀ c c' : Cluster 0) (bid : ℕ → ℕ) (es : List Listing.Event) (done : Bool),
    sampleFiles (BlockManager.zeroed 4096 4096 0) = some (.ok (), c₀.device) ∧ Start c₀ {2, 3} bid ∧
    Path (Step single {2, 3}) c₀ es c ∧ Learnt es 0 2 ⟨1, 1, 1⟩ ⟨1, 1, 1⟩ ∧ .freed 2 1 1 ∈ es.drop 1 ∧
    call 1 (writeData 1 0 [120]) c = some (.ok done, c') ∧ done = false ∧ c' = c := by
  obtain ⟨c₀, c, bid, hfiles, h₀, hpath, hv⟩ := exists_freed
  have hfree : allocated (c.servers 1) 1 = false := by
    rw [← Bool.not_eq_true, Versions.allocated_iff, hv]
    decide
  have hwrite := call_self (writeData_refused hfree : writeData 1 0 [120] (c.servers 1) = _)
  have hlearnt : Learnt [.allocated 2 ⟨1, 1, 1⟩, .freed 2 1 1] 0 2 ⟨1, 1, 1⟩ ⟨1, 1, 1⟩ := .allocate rfl
  refine ⟨c₀, c, c, bid, _, false, hfiles, h₀, hpath, hlearnt, by simp, hwrite, ?_⟩
  exact (writeData_stale_iff h₀ hpath hlearnt hwrite).1.mpr (Or.inr (Or.inl (by decide))) ⟨2, by simp⟩

end Chfs.Distributed.StaleWrites
