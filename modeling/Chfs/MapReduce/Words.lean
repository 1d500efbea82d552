import Chfs.Lib.Sorting
import Mathlib.Data.Char
import Mathlib.Data.List.Lex
import Mathlib.Data.List.TakeWhile
import Mathlib.Algebra.BigOperators.Group.List.Basic
import Mathlib.Algebra.GroupWithZero.Nat

/-! Counting words (`map_reduce/basic_mr.cc`), and the text in which key/value
lists are kept in files (`map_reduce/mr_worker.cc`). -/

namespace Chfs.MapReduce.Words

open Lib.Sorting

/-- A `std::string` of ASCII characters, compared by their codes. -/
abbrev Text : Type := List Char

structure KeyVal where
  key : Text
  val : Text
  deriving DecidableEq, Repr

def wordEntry (word : Text) : List KeyVal := if word = [] then [] else [⟨word, ['1']⟩]

def mapFrom (curWord : Text) : Text → List KeyVal
  | [] => wordEntry curWord
  | c :: cs => if !c.isAlpha then wordEntry curWord ++ mapFrom [] cs else mapFrom (curWord ++ [c]) cs

def mapContent (content : Text) : List KeyVal := mapFrom [] content

/-- `std::stoi`, for a text without spaces and signs. It throws where there is no
digit and where the number is not an `int`. -/
def stoi (value : Text) : Option ℕ :=
  let digits := value.takeWhile Char.isDigit
  if digits = [] then none
  else if Nat.ofDigitChars 10 digits 0 < 2 ^ 31 then some (Nat.ofDigitChars 10 digits 0)
  else none

/-- The sum in an `int`, undefined on overflow. -/
def sumValues : ℕ → List Text → Option ℕ
  | cnt, [] => some cnt
  | cnt, value :: values => do
    let n ← stoi value
    if cnt + n < 2 ^ 31 then sumValues (cnt + n) values else none

def reduceValues (values : List Text) : Option Text := (sumValues 0 values).map (Nat.toDigits 10)

def reduceRuns : ℕ → List KeyVal → Option (List KeyVal)
  | 0, _ => some []
  | _ + 1, [] => some []
  | fuel + 1, kv :: kvs => do
    let run := takeRun KeyVal.key kv kvs
    let res ← reduceValues (run.1.map KeyVal.val)
    let rest ← reduceRuns fuel run.2
    some (⟨kv.key, res⟩ :: rest)

def render (kvs : List KeyVal) : Text := kvs.flatMap fun kv => kv.key ++ ' ' :: kv.val ++ ['\n']

def entry (key val : Text) : List KeyVal := if key ≠ [] ∧ val ≠ [] then [⟨key, val⟩] else []

def parseFrom (key val : Text) : Text → List KeyVal
  | [] => entry key val
  | c :: cs =>
    let ends := c = '\n' ∨ c = '\x00'
    let found := if ends then entry key val else []
    let key := if ends then [] else key
    let val := if ends then [] else val
    found ++ parseFrom (if c.isAlpha then key ++ [c] else key) (if c.isDigit then val ++ [c] else val) cs

def parse (content : Text) : List KeyVal := parseFrom [] [] content

def num (val : Text) : ℕ := Nat.ofDigitChars 10 val 0

structure KeyVal.Good (kv : KeyVal) : Prop where
  key_ne : kv.key ≠ []
  key_alpha : ∀ c ∈ kv.key, c.isAlpha = true
  val_ne : kv.val ≠ []
  val_digit : ∀ c ∈ kv.val, c.isDigit = true
  pos : 0 < num kv.val

/-- An entry that is read back from its line. -/
structure KeyVal.Readable (kv : KeyVal) : Prop where
  key_ne : kv.key ≠ []
  key_alpha : ∀ c ∈ kv.key, c.isAlpha = true
  val_ne : kv.val ≠ []
  val_digit : ∀ c ∈ kv.val, c.isDigit = true

theorem KeyVal.Good.readable {kv : KeyVal} (h : kv.Good) : kv.Readable :=
  ⟨h.key_ne, h.key_alpha, h.val_ne, h.val_digit⟩

section Text

theorem mapFrom_good {curWord content : Text} (hcur : ∀ c ∈ curWord, c.isAlpha = true) {kv : KeyVal}
    (h : kv ∈ mapFrom curWord content) : kv.Good := by
  have hentry : ∀ {word : Text}, (∀ c ∈ word, c.isAlpha = true) → kv ∈ wordEntry word → kv.Good := by
    intro word hword h
    unfold wordEntry at h
    split at h
    case isTrue => cases h
    case isFalse hne =>
      rw [List.mem_singleton.mp h]
      exact ⟨hne, hword, List.cons_ne_nil _ _, fun c hc => List.mem_singleton.mp hc ▸ rfl, Nat.one_pos⟩
  induction content generalizing curWord with
  | nil => exact hentry hcur h
  | cons c cs ih =>
    rw [mapFrom] at h
    split at h
    case isTrue =>
      obtain h | h := List.mem_append.mp h
      · exact hentry hcur h
      · exact ih (fun c hc => by cases hc) h
    case isFalse hc =>
      refine ih (fun c' hc' => ?_) h
      obtain hc' | hc' := List.mem_append.mp hc'
      · exact hcur c' hc'
      · rw [List.mem_singleton.mp hc']
        simpa using hc

theorem mapContent_good {content : Text} {kv : KeyVal} (h : kv ∈ mapContent content) : kv.Good :=
  mapFrom_good (fun c hc => by cases hc) h

theorem mapFrom_zeros (curWord content : Text) (k : ℕ) :
    mapFrom curWord (content ++ List.replicate k '\x00') = mapFrom curWord content := by
  induction content generalizing curWord with
  | nil =>
    induction k generalizing curWord with
    | zero => rfl
    | succ k ih =>
      rw [List.nil_append] at ih ⊢
      change wordEntry curWord ++ mapFrom [] (List.replicate k '\x00') = wordEntry curWord
      rw [ih []]
      exact List.append_nil _
  | cons c cs ih => rw [List.cons_append, mapFrom, mapFrom, ih, ih]

theorem code_of_isAlpha {c : Char} (h : c.isAlpha = true) :
    (65 ≤ c.toNat ∧ c.toNat ≤ 90) ∨ (97 ≤ c.toNat ∧ c.toNat ≤ 122) := by
  change (decide ('A'.val ≤ c.val ∧ c.val ≤ 'Z'.val) ||
    (decide ('a'.val ≤ c.val) && decide (c.val ≤ 'z'.val))) = true at h
  simp only [Bool.or_eq_true, Bool.and_eq_true, decide_eq_true_eq, UInt32.le_iff_toNat_le] at h
  exact h

theorem isDigit_of_isAlpha {c : Char} (h : c.isAlpha = true) : c.isDigit = false := by
  have hcode := code_of_isAlpha h
  change (decide (48 ≤ c.toNat) && decide (c.toNat ≤ 57)) = false
  simp only [Bool.and_eq_false_iff, decide_eq_false_iff_not]
  omega

theorem not_end_of_isAlpha {c : Char} (h : c.isAlpha = true) : ¬ (c = '\n' ∨ c = '\x00') := by
  rintro (rfl | rfl)
  · exact absurd h (by decide)
  · exact absurd h (by decide)

theorem not_end_of_isDigit {c : Char} (h : c.isDigit = true) : ¬ (c = '\n' ∨ c = '\x00') := by
  rintro (rfl | rfl)
  · exact absurd h (by decide)
  · exact absurd h (by decide)

theorem isAlpha_of_isDigit {c : Char} (h : c.isDigit = true) : c.isAlpha = false := by
  by_contra hne
  rw [isDigit_of_isAlpha (by simpa using hne)] at h
  cases h

theorem parseFrom_alpha {w : Text} (hw : ∀ c ∈ w, c.isAlpha = true) (key val rest : Text) :
    parseFrom key val (w ++ rest) = parseFrom (key ++ w) val rest := by
  induction w generalizing key with
  | nil => rw [List.nil_append, List.append_nil]
  | cons c cs ih =>
    have hc := hw c List.mem_cons_self
    rw [List.cons_append, parseFrom]
    simp only [not_end_of_isAlpha hc, if_false, hc, if_true, isDigit_of_isAlpha hc, List.nil_append,
      Bool.false_eq_true]
    rw [ih (fun c' hc' => hw c' (List.mem_cons_of_mem c hc')), List.append_assoc]
    rfl

theorem parseFrom_digit {v : Text} (hv : ∀ c ∈ v, c.isDigit = true) (key val rest : Text) :
    parseFrom key val (v ++ rest) = parseFrom key (val ++ v) rest := by
  induction v generalizing val with
  | nil => rw [List.nil_append, List.append_nil]
  | cons c cs ih =>
    have hc := hv c List.mem_cons_self
    rw [List.cons_append, parseFrom]
    simp only [not_end_of_isDigit hc, if_false, hc, if_true, isAlpha_of_isDigit hc, List.nil_append,
      Bool.false_eq_true]
    rw [ih (fun c' hc' => hv c' (List.mem_cons_of_mem c hc')), List.append_assoc]
    rfl

theorem parseFrom_line {kv : KeyVal} (h : kv.Readable) (rest : Text) :
    parseFrom [] [] (kv.key ++ ' ' :: kv.val ++ ['\n'] ++ rest) = kv :: parseFrom [] [] rest := by
  rw [List.append_assoc, List.append_assoc, parseFrom_alpha h.key_alpha, List.nil_append, List.cons_append,
    parseFrom]
  simp only [show ¬ (' ' = '\n' ∨ ' ' = '\x00') by decide, if_false, List.nil_append,
    show Char.isAlpha ' ' = false by decide, show Char.isDigit ' ' = false by decide, Bool.false_eq_true]
  rw [parseFrom_digit h.val_digit, List.nil_append, List.cons_append, List.nil_append, parseFrom]
  simp [entry, h.key_ne, h.val_ne, show Char.isAlpha '\n' = false by decide,
    show Char.isDigit '\n' = false by decide]

theorem parseFrom_zeros (k : ℕ) : parseFrom [] [] (List.replicate k '\x00') = [] := by
  induction k with
  | zero => rfl
  | succ k ih =>
    rw [List.replicate_succ, parseFrom]
    simpa [entry, show Char.isAlpha '\x00' = false by decide, show Char.isDigit '\x00' = false by decide] using ih

/-- A file that is padded with zeros is read back as it was written. -/
theorem parse_render {kvs : List KeyVal} (h : ∀ kv ∈ kvs, kv.Readable) (k : ℕ) :
    parse (render kvs ++ List.replicate k '\x00') = kvs := by
  unfold parse
  induction kvs with
  | nil => exact parseFrom_zeros k
  | cons kv kvs ih =>
    rw [render, List.flatMap_cons, List.append_assoc, parseFrom_line (h kv List.mem_cons_self)]
    exact congrArg (kv :: ·) (ih fun kv' hkv' => h kv' (List.mem_cons_of_mem kv hkv'))

theorem parseFrom_readable {key val content : Text} (hkey : ∀ c ∈ key, c.isAlpha = true)
    (hval : ∀ c ∈ val, c.isDigit = true) {kv : KeyVal} (h : kv ∈ parseFrom key val content) : kv.Readable := by
  have hentry : ∀ {key val : Text}, (∀ c ∈ key, c.isAlpha = true) → (∀ c ∈ val, c.isDigit = true) →
      kv ∈ entry key val → kv.Readable := by
    intro key val hkey hval h
    unfold entry at h
    split at h
    case isTrue hne =>
      rw [List.mem_singleton.mp h]
      exact ⟨hne.1, hkey, hne.2, hval⟩
    case isFalse => cases h
  have hsnoc : ∀ {p : Char → Bool} {w : Text} {c : Char}, (∀ c ∈ w, p c = true) →
      ∀ x ∈ (if p c = true then w ++ [c] else w), p x = true := by
    intro p w c hw x hx
    split at hx
    case isTrue hc =>
      obtain hx | hx := List.mem_append.mp hx
      · exact hw x hx
      · exact List.mem_singleton.mp hx ▸ hc
    case isFalse => exact hw x hx
  induction content generalizing key val with
  | nil => exact hentry hkey hval h
  | cons c cs ih =>
    rw [parseFrom] at h
    by_cases hend : c = '\n' ∨ c = '\x00'
    · simp only [hend, if_true] at h
      obtain h | h := List.mem_append.mp h
      · exact hentry hkey hval h
      · refine ih (hsnoc ?_) (hsnoc ?_) h
        · exact fun c hc => by cases hc
        · exact fun c hc => by cases hc
    · simp only [hend, if_false, List.nil_append] at h
      exact ih (hsnoc hkey) (hsnoc hval) h

theorem parse_readable {content : Text} {kv : KeyVal} (h : kv ∈ parse content) : kv.Readable :=
  parseFrom_readable (fun c hc => by cases hc) (fun c hc => by cases hc) h

end Text

def total (kvs : List KeyVal) (w : Text) : ℕ := (kvs.map fun kv => if kv.key = w then num kv.val else 0).sum

/-- The words with a count, in their order and each once. -/
structure IsTally (count : Text → ℕ) (kvs : List KeyVal) : Prop where
  sorted : (kvs.map KeyVal.key).Pairwise (· < ·)
  mem_iff : ∀ w, w ∈ kvs.map KeyVal.key ↔ 0 < count w
  val : ∀ kv ∈ kvs, kv.val = Nat.toDigits 10 (count kv.key)

section Total

variable {kvs kvs' : List KeyVal} {w : Text} {count : Text → ℕ}

@[simp]
theorem total_nil : total [] w = 0 := rfl

@[simp]
theorem total_append : total (kvs ++ kvs') w = total kvs w + total kvs' w := by
  simp [total]

theorem total_flatMap {ι : Type} (l : List ι) (f : ι → List KeyVal) :
    total (l.flatMap f) w = (l.map fun i => total (f i) w).sum := by
  induction l with
  | nil => rfl
  | cons i l ih => rw [List.flatMap_cons, total_append, ih, List.map_cons, List.sum_cons]

theorem total_perm (h : kvs.Perm kvs') : total kvs w = total kvs' w := (h.map _).sum_eq

theorem total_eq_zero (h : ∀ kv ∈ kvs, kv.key ≠ w) : total kvs w = 0 := by
  rw [total, List.sum_eq_zero]
  intro n hn
  obtain ⟨kv, hkv, rfl⟩ := List.mem_map.mp hn
  exact if_neg (h kv hkv)

theorem total_of_key (h : ∀ kv ∈ kvs, kv.key = w) : total kvs w = (kvs.map fun kv => num kv.val).sum := by
  rw [total]
  congr 1
  exact List.map_congr_left fun kv hkv => if_pos (h kv hkv)

theorem total_pos_iff (h : ∀ kv ∈ kvs, kv.Good) : 0 < total kvs w ↔ w ∈ kvs.map KeyVal.key := by
  constructor
  · intro hpos
    by_contra hno
    rw [total_eq_zero fun kv hkv heq => hno (List.mem_map.mpr ⟨kv, hkv, heq⟩)] at hpos
    exact absurd hpos (Nat.lt_irrefl 0)
  · intro hmem
    obtain ⟨kv, hkv, rfl⟩ := List.mem_map.mp hmem
    refine List.sum_pos_iff_exists_pos_nat.mpr ⟨_, List.mem_map.mpr ⟨kv, hkv, rfl⟩, ?_⟩
    rw [if_pos rfl]
    exact (h kv hkv).pos

theorem IsTally.eq_map (h : IsTally count kvs) :
    kvs = (kvs.map KeyVal.key).map fun w => ⟨w, Nat.toDigits 10 (count w)⟩ := by
  rw [List.map_map]
  conv_lhs => rw [← List.map_id kvs]
  refine List.map_congr_left fun kv hkv => ?_
  change kv = ⟨kv.key, Nat.toDigits 10 (count kv.key)⟩
  rw [← h.val kv hkv]

theorem IsTally.unique (h : IsTally count kvs) (h' : IsTally count kvs') : kvs = kvs' := by
  have hkeys : kvs.map KeyVal.key = kvs'.map KeyVal.key :=
    h.sorted.eq_of_mem_iff h'.sorted fun w => (h.mem_iff w).trans (h'.mem_iff w).symm
  rw [h.eq_map, h'.eq_map, hkeys]

theorem IsTally.total_eq (h : IsTally count kvs) (w : Text) : total kvs w = count w := by
  have hgen : ∀ ks : List Text, ks.Nodup →
      total (ks.map fun w => ⟨w, Nat.toDigits 10 (count w)⟩) w = if w ∈ ks then count w else 0 := by
    intro ks hks
    induction ks with
    | nil => rfl
    | cons k ks ih =>
      obtain ⟨hk, hks⟩ := List.nodup_cons.mp hks
      have hcons : total ((k :: ks).map fun w => ⟨w, Nat.toDigits 10 (count w)⟩) w =
          (if k = w then num (Nat.toDigits 10 (count k)) else 0) +
            total (ks.map fun w => ⟨w, Nat.toDigits 10 (count w)⟩) w := rfl
      rw [hcons, ih hks, num, Nat.ofDigitChars_ten_toDigits]
      by_cases hkw : k = w
      · subst hkw
        simp [hk]
      · simp [hkw, Ne.symm hkw]
  rw [h.eq_map, hgen _ h.sorted.nodup]
  split
  case isTrue => rfl
  case isFalse hno =>
    have := (not_congr (h.mem_iff w)).mp hno
    omega

theorem IsTally.good (h : IsTally count kvs)
    (hcount : ∀ w, 0 < count w → w ≠ [] ∧ ∀ c ∈ w, c.isAlpha = true) {kv : KeyVal} (hkv : kv ∈ kvs) :
    kv.Good := by
  have hpos := (h.mem_iff kv.key).mp (List.mem_map.mpr ⟨kv, hkv, rfl⟩)
  have hval := h.val kv hkv
  refine ⟨(hcount _ hpos).1, (hcount _ hpos).2, ?_, fun c hc => ?_, ?_⟩
  · rw [hval]
    exact Nat.toDigits_ne_nil
  · rw [hval] at hc
    exact Nat.isDigit_of_mem_toDigits (by decide) (by decide) hc
  · rw [hval, num, Nat.ofDigitChars_ten_toDigits]
    exact hpos

end Total

section Reduce

variable {kvs : List KeyVal}

theorem stoi_eq {val : Text} (hne : val ≠ []) (hdigit : ∀ c ∈ val, c.isDigit = true)
    (hlt : num val < 2 ^ 31) : stoi val = some (num val) := by
  have htake : val.takeWhile Char.isDigit = val := List.takeWhile_eq_self_iff.mpr hdigit
  unfold stoi
  rw [htake]
  simp only [hne, if_false]
  exact if_pos hlt

theorem sumValues_eq (cnt : ℕ) (h : ∀ kv ∈ kvs, kv.Good)
    (hlt : cnt + (kvs.map fun kv => num kv.val).sum < 2 ^ 31) :
    sumValues cnt (kvs.map KeyVal.val) = some (cnt + (kvs.map fun kv => num kv.val).sum) := by
  induction kvs generalizing cnt with
  | nil => rfl
  | cons kv kvs ih =>
    have hkv := h kv List.mem_cons_self
    have hcons : ((kv :: kvs).map fun kv => num kv.val).sum =
        num kv.val + (kvs.map fun kv => num kv.val).sum := List.sum_cons
    rw [hcons] at hlt ⊢
    rw [List.map_cons, sumValues, stoi_eq hkv.val_ne hkv.val_digit (by omega), Option.bind_eq_bind,
      Option.bind_some, if_pos (by omega), ih _ (fun kv' hkv' => h kv' (List.mem_cons_of_mem kv hkv')) (by omega),
      Nat.add_assoc]

theorem reduceRuns_spec {fuel : ℕ} (hfuel : kvs.length ≤ fuel) (hs : SortedBy KeyVal.key kvs)
    (hgood : ∀ kv ∈ kvs, kv.Good) (hlt : ∀ w, total kvs w < 2 ^ 31) :
    ∃ res, reduceRuns fuel kvs = some res ∧ IsTally (total kvs) res := by
  induction fuel generalizing kvs with
  | zero =>
    rw [List.length_eq_zero_iff.mp (by omega : kvs.length = 0)]
    exact ⟨[], rfl, .nil, fun w => by simp, fun kv hkv => by cases hkv⟩
  | succ fuel ih =>
    cases kvs with
    | nil => exact ⟨[], rfl, .nil, fun w => by simp, fun kv hkv => by cases hkv⟩
    | cons kv kvs =>
      have happ := takeRun_append KeyVal.key kv kvs
      have hlen : (takeRun KeyVal.key kv kvs).2.length ≤ fuel := by
        have hsum := congrArg List.length happ
        have hpos := List.length_pos_iff.mpr (takeRun_ne_nil KeyVal.key kv kvs)
        rw [List.length_append, List.length_cons] at hsum
        rw [List.length_cons] at hfuel
        omega
      have hrun : ∀ x ∈ (takeRun KeyVal.key kv kvs).1, x.key = kv.key := fun x hx => key_of_mem_takeRun hx
      have hrest : ∀ x ∈ (takeRun KeyVal.key kv kvs).2, kv.key < x.key := fun x hx => lt_of_mem_takeRun hs hx
      have hsorted := takeRun_sorted hs
      rw [reduceRuns]
      generalize (takeRun KeyVal.key kv kvs).1 = run at happ hrun
      generalize (takeRun KeyVal.key kv kvs).2 = rest at happ hlen hrest hsorted
      rw [← happ] at hgood hlt ⊢
      simp only [total_append] at hlt
      obtain ⟨res, hres, htally⟩ := ih hlen hsorted (fun x hx => hgood x (List.mem_append_right run hx))
        fun w => by have := hlt w; omega
      -- the total of the key is the sum over its run
      have htotal : total (run ++ rest) kv.key = (run.map fun kv => num kv.val).sum := by
        rw [total_append, total_of_key hrun, total_eq_zero fun x hx => (hrest x hx).ne', Nat.add_zero]
      have hother : ∀ w, kv.key ≠ w → total (run ++ rest) w = total rest w := by
        intro w hw
        rw [total_append, total_eq_zero fun x hx => (hrun x hx).trans_ne hw, Nat.zero_add]
      have hsum := sumValues_eq 0 (fun x hx => hgood x (List.mem_append_left rest hx)) (by
        rw [Nat.zero_add, ← htotal, total_append]
        exact hlt kv.key)
      rw [Nat.zero_add, ← htotal] at hsum
      have hpos : 0 < total (run ++ rest) kv.key := by
        have hkv : kv ∈ run ++ rest := happ ▸ List.mem_cons_self
        exact (total_pos_iff hgood).mpr (List.mem_map.mpr ⟨kv, hkv, rfl⟩)
      refine ⟨⟨kv.key, Nat.toDigits 10 (total (run ++ rest) kv.key)⟩ :: res, ?_, ?_, fun w => ?_, fun x hx => ?_⟩
      · simp only [reduceValues, hsum, Option.map_some, Option.bind_eq_bind, Option.bind_some, hres]
      · refine .cons (fun w hw => ?_) htally.sorted
        obtain ⟨x, hx, rfl⟩ := List.mem_map.mp
          ((total_pos_iff fun x hx => hgood x (List.mem_append_right run hx)).mp ((htally.mem_iff w).mp hw))
        exact hrest x hx
      · rw [List.map_cons, List.mem_cons, htally.mem_iff]
        by_cases hw : kv.key = w
        · subst hw
          exact ⟨fun _ => hpos, fun _ => Or.inl rfl⟩
        · rw [hother w hw]
          exact ⟨fun h => h.resolve_left (Ne.symm hw), Or.inr⟩
      · obtain rfl | hx := List.mem_cons.mp hx
        · rfl
        · have hkey := (htally.mem_iff x.key).mp (List.mem_map.mpr ⟨x, hx, rfl⟩)
          have hne : kv.key ≠ x.key := by
            intro heq
            rw [← heq, total_eq_zero fun y hy => (hrest y hy).ne'] at hkey
            exact absurd hkey (Nat.lt_irrefl 0)
          rw [hother _ hne]
          exact htally.val x hx

theorem reduceRuns_readable {fuel : ℕ} {res : List KeyVal} (hkvs : ∀ kv ∈ kvs, kv.Readable)
    (h : reduceRuns fuel kvs = some res) : ∀ kv ∈ res, kv.Readable := by
  induction fuel generalizing kvs res with
  | zero =>
    cases h
    exact fun kv hkv => by cases hkv
  | succ fuel ih =>
    cases kvs with
    | nil =>
      cases h
      exact fun kv hkv => by cases hkv
    | cons kv kvs =>
      have happ := takeRun_append KeyVal.key kv kvs
      rw [reduceRuns] at h
      obtain ⟨val, hval, h⟩ := Option.bind_eq_some_iff.mp h
      obtain ⟨rest, hrest, h⟩ := Option.bind_eq_some_iff.mp h
      obtain ⟨n, -, rfl⟩ := Option.map_eq_some_iff.mp hval
      cases h
      intro x hx
      obtain rfl | hx := List.mem_cons.mp hx
      · have hhead := hkvs kv List.mem_cons_self
        exact ⟨hhead.key_ne, hhead.key_alpha, Nat.toDigits_ne_nil,
          fun c hc => Nat.isDigit_of_mem_toDigits (by decide) (by decide) hc⟩
      · refine ih (fun y hy => hkvs y ?_) hrest x hx
        rw [← happ]
        exact List.mem_append_right _ hy

/-- Whatever sorts the entries, reducing them gives the tally of their totals. -/
theorem reduceRuns_of_sorted {kvs' : List KeyVal} (hperm : kvs'.Perm kvs) (hs : SortedBy KeyVal.key kvs')
    (hgood : ∀ kv ∈ kvs, kv.Good) (hlt : ∀ w, total kvs w < 2 ^ 31) :
    ∃ res, reduceRuns kvs'.length kvs' = some res ∧ IsTally (total kvs) res := by
  have htotal : total kvs' = total kvs := funext fun w => total_perm hperm
  obtain ⟨res, hres, htally⟩ := reduceRuns_spec (Nat.le_refl _) hs
    (fun kv hkv => hgood kv (hperm.mem_iff.mp hkv)) (by rw [htotal]; exact hlt)
  exact ⟨res, hres, htotal ▸ htally⟩

end Reduce

end Chfs.MapReduce.Words
