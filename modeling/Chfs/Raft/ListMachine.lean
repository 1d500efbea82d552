import Chfs.Raft.Snapshots

namespace Chfs.Raft.ListMachine

open Protocol Snapshots

structure ListCommand where
  value : Int32
  deriving DecidableEq, Repr

structure ListStateMachine where
  store : List Int32
  numAppendLogs : ℕ
  deriving DecidableEq, Repr

/-- A `stringstream` that is read. A flag is set at the end of the text and where
no number can be read. -/
structure Stream where
  text : List UInt8
  good : Bool
  deriving DecidableEq, Repr

def isSpace (b : UInt8) : Bool := b = 32 ∨ (9 ≤ b ∧ b ≤ 13)

def sign : List UInt8 → Bool × List UInt8
  | 45 :: rest => (true, rest)
  | 43 :: rest => (false, rest)
  | text => (false, text)

/-- `ss >> x`, without a value where `x` is left as it was. -/
def extract (ss : Stream) : Option Int32 × Stream :=
  let text := ss.text.dropWhile isSpace
  if ss.good ∧ text ≠ [] then
    let digits := (sign text).2
    let (k, rest) := readDigits 0 digits
    let x : ℤ := if (sign text).1 then -k else k
    if rest.length = digits.length then (some 0, ⟨rest, false⟩)
    else if x < -2 ^ 31 then (some Int32.minValue, ⟨rest, false⟩)
    else if 2 ^ 31 ≤ x then (some Int32.maxValue, ⟨rest, false⟩)
    else (some (Int32.ofInt x), ⟨rest, rest ≠ []⟩)
  else (none, ⟨text, false⟩)

/-- The loop over `k` elements. There is no result where one has no value. -/
def extractInts : ℕ → Stream → Option (List Int32)
  | 0, _ => some []
  | k + 1, ss => do
    let temp ← (extract ss).1
    let store ← extractInts k (extract ss).2
    some (temp :: store)

namespace ListStateMachine

def snapshot (m : ListStateMachine) : List UInt8 :=
  printInt (Int32.ofNat m.store.length).toInt ++ m.store.flatMap fun value => 32 :: printInt value.toInt

def applyLog (m : ListStateMachine) (cmd : ListCommand) : ListStateMachine :=
  ⟨m.store ++ [cmd.value], m.numAppendLogs + 1⟩

def applySnapshot (m : ListStateMachine) (snapshot : List UInt8) : Option ListStateMachine := do
  let size ← (extract ⟨snapshot, true⟩).1
  let store ← extractInts size.toInt.toNat (extract ⟨snapshot, true⟩).2
  some { m with store := store }

end ListStateMachine

open ListStateMachine

variable {m m' : ListStateMachine} {s : List Int32} {x : Int32} {rest : List UInt8}

theorem sign_printInt (x : Int32) (rest : List UInt8) : sign (printInt x.toInt ++ rest) =
    (decide (x.toInt < 0), printNat x.toInt.natAbs ++ rest) := by
  obtain ⟨b, bs, hnat, hdigit, -⟩ := printNat_head x.toInt.natAbs
  unfold printInt
  split
  case isTrue hneg => rw [List.cons_append, sign, decide_eq_true hneg]
  case isFalse hpos =>
    rw [hnat, List.cons_append, decide_eq_false hpos]
    unfold sign
    split
    case h_1 heq =>
      obtain ⟨rfl, -⟩ := List.cons.inj heq
      exact absurd hdigit (by decide)
    case h_2 heq =>
      obtain ⟨rfl, -⟩ := List.cons.inj heq
      exact absurd hdigit (by decide)
    case h_3 => rfl

theorem dropWhile_printInt (x : Int32) (rest : List UInt8) {blanks : List UInt8}
    (hb : ∀ b ∈ blanks, isSpace b = true) :
    (blanks ++ (printInt x.toInt ++ rest)).dropWhile isSpace = printInt x.toInt ++ rest := by
  obtain ⟨b, bs, hnat, hdigit, -⟩ := printNat_head x.toInt.natAbs
  rw [List.dropWhile_append_of_pos hb]
  unfold printInt
  split
  · exact List.dropWhile_cons_of_neg (by decide)
  · rw [hnat, List.cons_append]
    apply List.dropWhile_cons_of_neg
    unfold isSpace
    simp only [decide_eq_true_eq, not_or, not_and]
    constructor
    · rintro rfl
      exact absurd hdigit (by decide)
    · intro _ hle
      exact absurd (UInt8.le_trans hdigit hle) (by decide : ¬ (48 : UInt8) ≤ 13)

theorem extract_printInt (x : Int32) (blanks : List UInt8) (hb : ∀ b ∈ blanks, isSpace b = true)
    (hrest : EndsNumber rest) : extract ⟨blanks ++ (printInt x.toInt ++ rest), true⟩ =
      (some x, ⟨rest, rest ≠ []⟩) := by
  obtain ⟨b, bs, hnat, -⟩ := printNat_head x.toInt.natAbs
  have hne : printInt x.toInt ++ rest ≠ [] := by
    unfold printInt
    split
    · exact List.cons_ne_nil _ _
    · rw [hnat]
      exact List.cons_ne_nil _ _
  have hlong : rest.length ≠ (printNat x.toInt.natAbs ++ rest).length := by
    rw [hnat, List.length_append, List.length_cons]
    omega
  have hx : (if decide (x.toInt < 0) = true then -(x.toInt.natAbs : ℤ) else x.toInt.natAbs) = x.toInt := by
    simp only [decide_eq_true_eq]
    split
    · omega
    · omega
  have hlow := x.le_toInt
  have hhigh := x.toInt_lt
  unfold extract
  simp only [dropWhile_printInt x rest hb, sign_printInt, readDigits_printNat _ hrest, hx]
  rw [if_pos ⟨trivial, hne⟩, if_neg hlong, if_neg (by omega), if_neg (by omega), Int32.ofInt_toInt]

theorem endsNumber_store (s : List Int32) : EndsNumber (s.flatMap fun v => 32 :: printInt v.toInt) := by
  have h := endsNumber_flatMap (s.map Int32.toInt)
  rwa [List.flatMap_map] at h

theorem extractInts_take {k : ℕ} (hk : k ≤ s.length) :
    extractInts k ⟨s.flatMap fun v => 32 :: printInt v.toInt,
      (s.flatMap fun v => 32 :: printInt v.toInt) ≠ []⟩ = some (s.take k) := by
  induction k generalizing s with
  | zero => rfl
  | succ k ih =>
    cases s with
    | nil => cases hk
    | cons v s =>
      have hspace : ∀ b ∈ [(32 : UInt8)], isSpace b = true := by
        intro b hb
        rw [List.mem_singleton.mp hb]
        rfl
      have hread := extract_printInt v [32] hspace (endsNumber_store s)
      rw [List.singleton_append] at hread
      rw [List.flatMap_cons, List.cons_append, decide_eq_true (List.cons_ne_nil _ _), extractInts, hread,
        ih (Nat.le_of_succ_le_succ hk)]
      rfl

def intSize (s : List Int32) : ℕ := (Int32.ofNat s.length).toInt.toNat

theorem intSize_le (s : List Int32) : intSize s ≤ s.length := by
  unfold intSize
  rw [Int32.toInt_ofNat', Int.bmod_def, Int32.size]
  split
  · omega
  · omega

theorem intSize_eq_iff : intSize s = s.length ↔ s.length < 2 ^ 31 := by
  have hlt := (Int32.ofNat s.length).toInt_lt
  unfold intSize
  constructor
  · omega
  · intro h
    rw [Int32.toInt_ofNat_of_lt h, Int.toNat_natCast]

/-- A snapshot brings back as many elements as the `int` counts. -/
theorem applySnapshot_snapshot (m m' : ListStateMachine) :
    m'.applySnapshot m.snapshot = some { m' with store := m.store.take (intSize m.store) } := by
  have hread := extract_printInt (Int32.ofNat m.store.length) [] nofun (endsNumber_store m.store)
  rw [List.nil_append] at hread
  rw [applySnapshot, snapshot, hread, Option.bind_eq_bind, Option.bind_some]
  rw [← intSize, extractInts_take (intSize_le m.store)]
  rfl

def RoundTrips (s : List Int32) : Prop :=
  ∀ m m' : ListStateMachine, m.store = s → ∃ t, m'.applySnapshot m.snapshot = some t ∧ t.store = s ∧
    ∀ cmds : List ListCommand, (cmds.foldl applyLog t).store = (cmds.foldl applyLog m).store

theorem store_foldl_applyLog (m : ListStateMachine) (cmds : List ListCommand) :
    (cmds.foldl applyLog m).store = m.store ++ cmds.map (·.value) := by
  induction cmds generalizing m with
  | nil => exact (List.append_nil _).symm
  | cons cmd cmds ih =>
    rw [List.foldl_cons, ih, applyLog, List.append_assoc, List.singleton_append, List.map_cons]

/-- Exactly the lists whose size fits into an `int`. -/
theorem roundTrips_iff_fits : RoundTrips s ↔ s.length < 2 ^ 31 := by
  rw [← intSize_eq_iff]
  constructor
  · intro h
    obtain ⟨t, ht, hstore, -⟩ := h ⟨s, 0⟩ ⟨[], 0⟩ rfl
    rw [applySnapshot_snapshot, Option.some.injEq] at ht
    subst ht
    have hlen : min (intSize s) s.length = s.length := by
      rw [← List.length_take]
      exact congrArg List.length hstore
    have hle := intSize_le s
    omega
  · rintro h m m' rfl
    refine ⟨_, applySnapshot_snapshot m m', ?_, ?_⟩
    · rw [h, List.take_length]
    · intro cmds
      rw [store_foldl_applyLog, store_foldl_applyLog, h, List.take_length]

/-- One element more than an `int` counts: the size is negative and nothing is read. -/
theorem not_roundTrips_wrapped : ¬ RoundTrips (List.replicate (2 ^ 31) 7) := by
  intro h
  obtain ⟨t, ht, hstore, -⟩ := h ⟨List.replicate (2 ^ 31) 7, 0⟩ ⟨[], 0⟩ rfl
  have hsize : intSize (List.replicate (2 ^ 31) 7) = 0 := by
    unfold intSize
    rw [List.length_replicate]
    decide
  rw [applySnapshot_snapshot, Option.some.injEq] at ht
  subst ht
  have hlen := congrArg List.length hstore
  rw [hsize, List.take_zero, List.length_replicate] at hlen
  simp at hlen

section Unbounded

def unbounded (m : ListStateMachine) : Protocol.ListStateMachine :=
  ⟨m.store.map Int32.toInt, m.numAppendLogs⟩

theorem unbounded_applyLog (m : ListStateMachine) (cmd : ListCommand) :
    unbounded (m.applyLog cmd) = ChfsStateMachine.applyLog (unbounded m) ⟨cmd.value.toInt⟩ := by
  simp only [unbounded, applyLog, List.map_append, List.map_cons, List.map_nil]
  rfl

theorem unbounded_snapshot (h : m.store.length < 2 ^ 31) :
    m.snapshot = ChfsStateMachine.snapshot (unbounded m) := by
  rw [snapshot, Int32.toInt_ofNat_of_lt h]
  simp only [ChfsStateMachine.snapshot, unbounded, List.length_map, List.flatMap_map]

theorem unbounded_applySnapshot (h : m.store.length < 2 ^ 31) :
    (m'.applySnapshot m.snapshot).map unbounded =
      some (ChfsStateMachine.applySnapshot (unbounded m') (ChfsStateMachine.snapshot (unbounded m))) := by
  have hstore := Snapshots.applySnapshot_snapshot (unbounded m) (unbounded m')
  rw [applySnapshot_snapshot, intSize_eq_iff.mpr h, List.take_length, Option.map_some, Option.some.injEq]
  simp only [ChfsStateMachine.applySnapshot] at hstore ⊢
  rw [hstore]
  rfl

end Unbounded

end Chfs.Raft.ListMachine
