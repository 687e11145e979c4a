/-!
# Bit masks

A `BitMask w` is a set of flags kept in a word of `w` bits.  A flag is itself a word, usually with
a single bit; a word with several bits stands for all of them at once.

## Main definitions

* `BitMask.enable`, `BitMask.disable`, `BitMask.union` : change the set.
* `BitMask.meets` : does the set share a bit with the given flags?
* `BitMask.lowestBit`, `BitMask.clearLowestBit` : the lowest bit of a word, and all the others.
* `BitMask.forBits` : the loop over the bits of a word, lowest first, which its body may leave.
* `BitMask.toList`, `BitMask.take` : the single bits of the set, lowest first, and the first few.
-/

universe u v

namespace EarlyEscape

/-- A set of flags in a word of `w` bits. -/
@[ext]
structure BitMask (w : Nat) where
  /-- The word itself. -/
  bits : BitVec w
deriving DecidableEq, Repr

namespace BitMask

variable {w : Nat}

/-- The set without flags. -/
def empty : BitMask w := ⟨0⟩

instance : Inhabited (BitMask w) := ⟨empty⟩

/-- Adds the given flags. -/
def enable (m : BitMask w) (flag : BitVec w) : BitMask w := ⟨m.bits ||| flag⟩

/-- Removes the given flags. -/
def disable (m : BitMask w) (flag : BitVec w) : BitMask w := ⟨m.bits &&& ~~~flag⟩

/-- Adds or removes the given flags. -/
def set (m : BitMask w) (flag : BitVec w) (value : Bool) : BitMask w :=
  if value then m.enable flag else m.disable flag

/-- The set of all the given flags. -/
def ofList (flags : List (BitVec w)) : BitMask w := flags.foldl enable empty

/-- Whether at least one of the given flags is in the set. -/
def meets (m : BitMask w) (flag : BitVec w) : Bool := m.bits &&& flag != 0

/-- Whether no flag is in the set. -/
def isEmpty (m : BitMask w) : Bool := m.bits == 0

/-- Whether the set consists of exactly the given flags. -/
def isOnly (m : BitMask w) (flag : BitVec w) : Bool := m.bits == flag

/-- The flags of either set. -/
def union (m n : BitMask w) : BitMask w := ⟨m.bits ||| n.bits⟩

/-- The positions of the bits of the set, lowest first. -/
def positions (m : BitMask w) : List Nat := (List.range w).filter m.bits.getLsbD

/-- The number of bits in the set. -/
def size (m : BitMask w) : Nat := (List.range w).countP m.bits.getLsbD

@[simp] theorem length_positions (m : BitMask w) : m.positions.length = m.size := by
  simp [positions, size, List.countP_eq_length_filter]

/-! ### The loop over the bits -/

/-- The lowest bit of a word.  The negated word agrees with it up to that bit and differs from it in
every higher one. -/
def lowestBit (word : BitVec w) : BitVec w := word &&& -word

/-- The word without its lowest bit.  Subtracting one borrows from that bit and from none above. -/
def clearLowestBit (word : BitVec w) : BitVec w := word &&& (word - 1)

theorem clearLowestBit_lt {word : BitVec w} (h : word ≠ 0) :
    (clearLowestBit word).toNat < word.toNat := by
  have hpos : 0 < word.toNat := Nat.pos_of_ne_zero fun hzero => h (BitVec.eq_of_toNat_eq hzero)
  have hone : (1 : BitVec w).toNat = 1 := Nat.mod_eq_of_lt (Nat.lt_of_le_of_lt hpos word.isLt)
  have hsub : (word - 1).toNat = word.toNat - 1 := by
    rw [BitVec.toNat_sub_of_le (BitVec.le_def.mpr (hone ▸ hpos)), hone]
  calc (clearLowestBit word).toNat
      = word.toNat &&& (word - 1).toNat := BitVec.toNat_and ..
    _ ≤ (word - 1).toNat := Nat.and_le_right
    _ < word.toNat := by omega

/-- Hands the bits of the word to the body one after the other, lowest first, until none is left or
the body is done. -/
def forBits {μ : Type u → Type v} [Monad μ] {β : Type u} (word : BitVec w) (init : β)
    (body : BitVec w → β → μ (ForInStep β)) : μ β :=
  if _ : word = 0 then pure init
  else do
    match ← body (lowestBit word) init with
    | .done b => pure b
    | .yield b => forBits (clearLowestBit word) b body
termination_by word.toNat
decreasing_by exact clearLowestBit_lt ‹_›

instance {μ : Type u → Type v} [Monad μ] : ForIn μ (BitMask w) (BitVec w) where
  forIn m := forBits m.bits

/-- The single bits of the set, lowest first. -/
def toList (m : BitMask w) : List (BitVec w) := Id.run do
  let mut flags := #[]
  for flag in m do
    flags := flags.push flag
  return flags.toList

/-- The first `n` bits of the set: the loop is left after the `n`-th, and not begun for none. -/
def take (m : BitMask w) (n : Nat) : List (BitVec w) := Id.run do
  if n = 0 then return []
  let mut flags := #[]
  for flag in m do
    flags := flags.push flag
    if flags.size = n then break
  return flags.toList

theorem isEmpty_iff {m : BitMask w} : m.isEmpty = true ↔ m = empty := by
  cases m
  simp [isEmpty, empty]

end BitMask

end EarlyEscape
