import EarlyEscape.Ref.Basic
import Mathlib.Data.List.Sort
import Mathlib.Logic.Function.Iterate

/-!
# The bits of a mask

A loop over a mask isolates the lowest bit of a word with `word &&& -word`, hands it to its body
and goes on with `word &&& (word - 1)`.  Both words are computed with wrap-around.  Read bit by bit
they are what the loop needs at every width, also where the only bit left is the top one and the
word is its own negative: a bit of the negated word differs from that of the word exactly if the
word has a lower bit.

## Main definitions

* `BitMask.IsLowest` : the position of the lowest bit of a word.

## Main results

* `BitMask.getLsbD_lowestBit`, `BitMask.getLsbD_clearLowestBit` : the two words, bit by bit.
* `BitMask.IsLowest.positions_eq` : one pass takes the first position from those that are left.
* `BitMask.forBits_eq`, `BitMask.forIn_eq_forIn_toList` : a loop over a mask is the loop over the
  list of its bits, whatever its body does and wherever it is left.
* `BitMask.iterate_clearLowestBit_eq_zero_iff` : after how many passes nothing is left.
* `BitMask.loop_enumerates_bits` : what is enumerated, when the loop ends, and what its body sees.
-/

universe u v

namespace EarlyEscape

namespace BitMask

variable {w : Nat}

/-! ### One pass -/

section Pass

variable {word : BitVec w} {i j : Nat}

/-- The position holds the lowest bit of the word. -/
structure IsLowest (word : BitVec w) (i : Nat) : Prop where
  bit : word.getLsbD i = true
  clear : ∀ j < i, word.getLsbD j = false

theorem exists_isLowest (h : word ≠ 0) : ∃ i, IsLowest word i := by
  have hex : ∃ i, word.getLsbD i = true := by
    by_contra hnone
    simp only [not_exists, Bool.not_eq_true] at hnone
    exact h (BitVec.eq_of_getLsbD_eq fun i _ => by simpa using hnone i)
  exact ⟨Nat.find hex, Nat.find_spec hex, fun j hj => by simpa using Nat.find_min hex hj⟩

theorem IsLowest.lt (h : IsLowest word i) : i < w := BitVec.lt_of_getLsbD h.bit

theorem IsLowest.le (h : IsLowest word i) (hj : word.getLsbD j = true) : i ≤ j := by
  by_contra hlt
  exact Bool.false_ne_true ((h.clear j (Nat.lt_of_not_le hlt)).symm.trans hj)

theorem IsLowest.unique (hi : IsLowest word i) (hj : IsLowest word j) : i = j :=
  Nat.le_antisymm (hi.le hj.bit) (hj.le hi.bit)

/-- Where the word has a bit, the negated word has one exactly at the lowest position. -/
theorem getLsbD_neg_of_getLsbD (h : word.getLsbD i = true) :
    (-word).getLsbD i = true ↔ IsLowest word i := by
  have hneg : (-word).getLsbD i = true ↔ ∀ j < i, word.getLsbD j = false := by
    rw [BitVec.getLsbD_neg, h]
    simp [BitVec.lt_of_getLsbD h]
  exact hneg.trans ⟨fun hclear => ⟨h, hclear⟩, fun hlow => hlow.clear⟩

theorem getLsbD_lowestBit : (lowestBit word).getLsbD i = true ↔ IsLowest word i := by
  rw [lowestBit, BitVec.getLsbD_and, Bool.and_eq_true]
  constructor
  · rintro ⟨hbit, hneg⟩
    exact (getLsbD_neg_of_getLsbD hbit).mp hneg
  · intro h
    exact ⟨h.bit, (getLsbD_neg_of_getLsbD h.bit).mpr h⟩

theorem getLsbD_clearLowestBit :
    (clearLowestBit word).getLsbD i = true ↔ word.getLsbD i = true ∧ ¬ IsLowest word i := by
  have hsub : word - 1 = ~~~(-word) := (BitVec.not_neg word).symm
  rw [clearLowestBit, hsub, BitVec.getLsbD_and, Bool.and_eq_true]
  refine and_congr_right fun h => ?_
  rw [← getLsbD_neg_of_getLsbD h]
  simp only [BitVec.getLsbD_not, BitVec.lt_of_getLsbD h, decide_true, Bool.true_and,
    Bool.not_eq_true', Bool.not_eq_true]

theorem IsLowest.lowestBit_eq (h : IsLowest word i) : lowestBit word = BitVec.twoPow w i := by
  refine BitVec.eq_of_getLsbD_eq fun j _ => ?_
  rw [Bool.eq_iff_iff, getLsbD_lowestBit, BitVec.getLsbD_twoPow]
  simp only [h.lt, decide_true, Bool.true_and, decide_eq_true_eq]
  exact ⟨h.unique, fun heq => heq ▸ h⟩

@[simp] theorem mem_positions {m : BitMask w} {i : Nat} :
    i ∈ m.positions ↔ m.bits.getLsbD i = true := by
  simp only [positions, List.mem_filter, List.mem_range, and_iff_right_iff_imp]
  exact BitVec.lt_of_getLsbD

theorem sortedLT_positions (m : BitMask w) : m.positions.SortedLT :=
  (List.pairwise_lt_range.filter _).sortedLT

@[simp] theorem positions_zero : positions (⟨0#w⟩ : BitMask w) = [] := by
  simp [positions]

/-- One pass takes the first position from those that are left. -/
theorem IsLowest.positions_eq (h : IsLowest word i) :
    positions ⟨word⟩ = i :: positions ⟨clearLowestBit word⟩ := by
  have hfirst : ∀ j ∈ positions ⟨clearLowestBit word⟩, i < j := fun j hj => by
    obtain ⟨hbit, hlow⟩ := getLsbD_clearLowestBit.mp (mem_positions.mp hj)
    exact Nat.lt_of_le_of_ne (h.le hbit) fun heq => hlow (heq ▸ h)
  have hsorted : (i :: positions ⟨clearLowestBit word⟩).SortedLT :=
    (List.pairwise_cons.mpr ⟨hfirst, (sortedLT_positions _).pairwise⟩).sortedLT
  -- both lists ascend, so it is enough that they have the same positions
  refine (sortedLT_positions _).eq_of_mem_iff hsorted fun j => ?_
  simp only [List.mem_cons, mem_positions, getLsbD_clearLowestBit]
  constructor
  · intro hj
    rcases eq_or_ne j i with heq | hne
    · exact .inl heq
    · exact .inr ⟨hj, fun hlow => hne (hlow.unique h)⟩
  · rintro (rfl | hj)
    · exact h.bit
    · exact hj.1

theorem IsLowest.size_eq (h : IsLowest word i) :
    size ⟨word⟩ = size ⟨clearLowestBit word⟩ + 1 := by
  rw [← length_positions, h.positions_eq, List.length_cons, length_positions]

end Pass

/-! ### The whole loop -/

section Loop

variable {μ : Type u → Type v} [Monad μ] {β : Type u}

/-- The loop over the bits of a word is the loop over the list of its bits. -/
theorem forBits_eq (word : BitVec w) (init : β) (body : BitVec w → β → μ (ForInStep β)) :
    forBits word init body =
      forIn ((positions ⟨word⟩).map (BitVec.twoPow w)) init body := by
  fun_induction forBits word init body with
  | case1 => simp
  | case2 word init h ih =>
    obtain ⟨i, hi⟩ := exists_isLowest h
    rw [hi.positions_eq, List.map_cons, List.forIn_cons, hi.lowestBit_eq]
    refine bind_congr fun step => ?_
    cases step with
    | done b => rfl
    | yield b => exact ih b

theorem toList_eq (m : BitMask w) : m.toList = m.positions.map (BitVec.twoPow w) := by
  change (Id.run (forBits m.bits #[] fun flag flags =>
    pure (ForInStep.yield (flags.push flag)))).toList = _
  rw [forBits_eq, List.forIn_pure_yield_eq_foldl]
  simp

/-- A loop over the set is the loop over the list of its bits, whatever the body does with them and
wherever it leaves the loop. -/
theorem forIn_eq_forIn_toList (m : BitMask w) (init : β) (body : BitVec w → β → μ (ForInStep β)) :
    forIn m init body = forIn m.toList init body := by
  rw [toList_eq]
  exact forBits_eq m.bits init body

end Loop

/-- A loop that collects what it is handed and leaves with the `n`-th element has collected the
first `n`. -/
theorem toList_forIn_push {α : Type u} {n : Nat} (l : List α) (taken : Array α)
    (h : taken.size < n) :
    (Id.run (forIn l taken fun x taken =>
      if (taken.push x).size = n then pure (.done (taken.push x))
      else pure (.yield (taken.push x)))).toList = taken.toList ++ l.take (n - taken.size) := by
  induction l generalizing taken with
  | nil => simp
  | cons x l ih =>
    obtain ⟨k, hk⟩ : ∃ k, n - taken.size = k + 1 := ⟨n - taken.size - 1, by omega⟩
    rw [List.forIn_cons, hk, List.take_succ_cons]
    split
    · next hlast =>
      have hzero : k = 0 := by
        rw [Array.size_push] at hlast
        omega
      simp [hzero]
    · next hlast =>
      have hmore : (taken.push x).size < n := by
        rw [Array.size_push] at hlast ⊢
        omega
      have hleft : n - (taken.size + 1) = k := by omega
      simpa [hleft] using ih (taken.push x) hmore

theorem take_eq (m : BitMask w) (n : Nat) : m.take n = m.toList.take n := by
  simp only [take, forIn_eq_forIn_toList]
  split
  · next hzero => simp [hzero]
  · next hne => exact toList_forIn_push m.toList #[] (Nat.pos_of_ne_zero hne)

@[simp] theorem length_toList (m : BitMask w) : m.toList.length = m.size := by
  simp [toList_eq]

/-! ### The end of the loop -/

theorem size_eq_zero_iff {word : BitVec w} : size ⟨word⟩ = 0 ↔ word = 0 := by
  refine ⟨fun hsize => ?_, fun h => ?_⟩
  · by_contra h
    obtain ⟨i, hi⟩ := exists_isLowest h
    exact Nat.succ_ne_zero _ (hi.size_eq.symm.trans hsize)
  · rw [← length_positions, h]
    simp

/-- No bit is left after as many passes as the word has bits, and one is left before. -/
theorem iterate_clearLowestBit_eq_zero_iff (word : BitVec w) (k : Nat) :
    clearLowestBit^[k] word = 0 ↔ size ⟨word⟩ ≤ k := by
  induction k generalizing word with
  | zero => rw [Function.iterate_zero_apply, Nat.le_zero, size_eq_zero_iff]
  | succ k ih =>
    rw [Function.iterate_succ_apply, ih]
    by_cases h : word = 0
    · have hclear : clearLowestBit word = word := by simp [clearLowestBit, h]
      rw [hclear, size_eq_zero_iff.mpr h]
      simp
    · obtain ⟨i, hi⟩ := exists_isLowest h
      rw [hi.size_eq]
      omega

/-! ### The flags -/

theorem twoPow_lt_twoPow {i j : Nat} (hij : i < j) (hj : j < w) :
    BitVec.twoPow w i < BitVec.twoPow w j := by
  have hlt : ∀ k < w, 2 ^ k % 2 ^ w = 2 ^ k := fun k hk =>
    Nat.mod_eq_of_lt (Nat.pow_lt_pow_right Nat.one_lt_two hk)
  rw [BitVec.lt_def, BitVec.toNat_twoPow, BitVec.toNat_twoPow, hlt i (hij.trans hj), hlt j hj]
  exact Nat.pow_lt_pow_right Nat.one_lt_two hij

theorem toList_ascending (m : BitMask w) : m.toList.Pairwise (· < ·) := by
  rw [toList_eq, List.pairwise_map]
  refine (sortedLT_positions m).pairwise.imp_of_mem fun _ hj hij => twoPow_lt_twoPow hij ?_
  exact BitVec.lt_of_getLsbD (mem_positions.mp hj)

theorem exists_of_mem_toList {m : BitMask w} {flag : BitVec w} (h : flag ∈ m.toList) :
    ∃ i < w, flag = BitVec.twoPow w i := by
  rw [toList_eq] at h
  obtain ⟨i, hi, rfl⟩ := List.mem_map.mp h
  exact ⟨i, BitVec.lt_of_getLsbD (mem_positions.mp hi), rfl⟩

theorem meets_twoPow {m : BitMask w} {i : Nat} :
    m.meets (BitVec.twoPow w i) = m.bits.getLsbD i := by
  rw [meets, BitVec.and_twoPow]
  cases h : m.bits.getLsbD i with
  | false => simp
  | true =>
    have hne : BitVec.twoPow w i ≠ 0 := fun hzero => by
      have hbit := congrArg (·.getLsbD i) hzero
      simp [BitVec.lt_of_getLsbD h] at hbit
    simpa using hne

theorem twoPow_mem_toList {m : BitMask w} {i : Nat} (hi : i < w) :
    BitVec.twoPow w i ∈ m.toList ↔ m.meets (BitVec.twoPow w i) = true := by
  rw [toList_eq, meets_twoPow, ← mem_positions, List.mem_map]
  refine ⟨?_, fun h => ⟨i, h, rfl⟩⟩
  rintro ⟨j, hj, heq⟩
  have hbit := congrArg (·.getLsbD i) heq
  simp only [BitVec.getLsbD_twoPow, hi, decide_true, Bool.true_and, Bool.and_eq_true,
    decide_eq_true_eq] at hbit
  exact hbit.2 ▸ hj

/-- Every bit of the set is listed once, and no other bit is listed. -/
theorem count_toList (m : BitMask w) (i : Fin w) :
    m.toList.count (BitVec.twoPow w i) = (m.meets (BitVec.twoPow w i)).toNat := by
  have hnodup : m.toList.Nodup := (toList_ascending m).imp fun h => BitVec.ne_of_lt h
  rw [hnodup.count]
  cases h : m.meets (BitVec.twoPow w i) <;> simp [twoPow_mem_toList i.isLt, h]

theorem bits_ofList (flags : List (BitVec w)) :
    (ofList flags).bits = flags.foldl (· ||| ·) 0 :=
  (List.foldl_hom bits fun _ _ => rfl).symm

theorem getLsbD_foldl_or (flags : List (BitVec w)) (word : BitVec w) (i : Nat) :
    (flags.foldl (· ||| ·) word).getLsbD i = (word.getLsbD i || flags.any (·.getLsbD i)) := by
  induction flags generalizing word with
  | nil => simp
  | cons flag flags ih => simp [ih, Bool.or_assoc]

theorem foldl_or_toList (m : BitMask w) : m.toList.foldl (· ||| ·) 0 = m.bits := by
  refine BitVec.eq_of_getLsbD_eq fun i hi => ?_
  rw [getLsbD_foldl_or, toList_eq, Bool.eq_iff_iff]
  simp only [BitVec.ofNat_eq_ofNat, BitVec.getLsbD_zero, Bool.false_or, List.any_map,
    Function.comp_def, List.any_eq_true, mem_positions, BitVec.getLsbD_twoPow, Bool.and_eq_true,
    decide_eq_true_eq]
  constructor
  · rintro ⟨j, hj, -, rfl⟩
    exact hj
  · intro hbit
    exact ⟨i, hbit, hi, rfl⟩

theorem ofList_toList (m : BitMask w) : ofList m.toList = m :=
  BitMask.ext ((bits_ofList _).trans (foldl_or_toList m))

/-! ### Loops that map the flags -/

/-- The set of the images of some flags, built up flag by flag. -/
theorem ofList_filterMap (f : BitVec w → Option (BitVec w)) (flags : List (BitVec w)) :
    ofList (flags.filterMap f) =
      flags.foldl (fun m flag => (f flag).elim m m.enable) empty := by
  rw [ofList, List.foldl_filterMap]
  congr
  funext m flag
  cases f flag <;> rfl

/-- A projection is a loop over the indirections that adds the image of each. -/
theorem project_eq_loop (r : Ref) (type : Option ClassId) (f : BitVec 8 → Option (BitVec 8)) :
    r.project type f = Id.run do
      let mut ind : Indirections := .empty
      for i in r.ind do
        ind := (f i).elim ind ind.enable
      return if ind.isEmpty then none else some { r with type, ind } := by
  simp only [Ref.project, forIn_eq_forIn_toList, List.forIn_pure_yield_eq_foldl, ofList_filterMap]
  rfl

/-- A loop over a mask enumerates the bits of its word. -/
theorem loop_enumerates_bits (m : BitMask w) :
    -- the flags are single bits in ascending order, and together they are the word
    m.toList.Pairwise (· < ·) ∧
    (∀ flag ∈ m.toList, ∃ i < w, flag = BitVec.twoPow w i) ∧
    m.toList.foldl (· ||| ·) 0 = m.bits ∧
    ofList m.toList = m ∧
    m.toList.length = m.size ∧
    -- the loop ends after as many passes as the set has bits, or where its body leaves it
    (∀ k, clearLowestBit^[k] m.bits = 0 ↔ m.size ≤ k) ∧
    (∀ n, m.take n = m.toList.take n) ∧
    -- the body is run once with each of the bits and with nothing else
    (∀ i : Fin w, m.toList.count (BitVec.twoPow w i) = (m.meets (BitVec.twoPow w i)).toNat) ∧
    (∀ (μ : Type → Type) [Monad μ] (β : Type) (init : β) (body : BitVec w → β → μ (ForInStep β)),
      forIn m init body = forIn m.toList init body) ∧
    ∀ (r : Ref) (type : Option ClassId) (f : BitVec 8 → Option (BitVec 8)),
      r.project type f = Id.run do
        let mut ind : Indirections := .empty
        for i in r.ind do
          ind := (f i).elim ind ind.enable
        return if ind.isEmpty then none else some { r with type, ind } :=
  ⟨toList_ascending m, fun _ => exists_of_mem_toList, foldl_or_toList m, ofList_toList m,
    length_toList m, iterate_clearLowestBit_eq_zero_iff m.bits, take_eq m, count_toList m,
    fun _ _ _ => forIn_eq_forIn_toList m, project_eq_loop⟩

/-- The top bit, whose word is its own negative, is handed out like the others. -/
theorem loop_enumerates_bits_top :
    (0x8000000000000000 : BitVec 64) ∈ (⟨0x8000000000000021⟩ : BitMask 64).toList ∧
      ∃ i < 64, (0x8000000000000000 : BitVec 64) = BitVec.twoPow 64 i := by
  have hmem : (0x8000000000000000 : BitVec 64) ∈
      (⟨0x8000000000000021⟩ : BitMask 64).toList := by decide +kernel
  exact ⟨hmem, (loop_enumerates_bits _).2.1 _ hmem⟩

end BitMask

end EarlyEscape
