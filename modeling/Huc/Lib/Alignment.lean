import Mathlib.Data.BitVec

set_option relaxedAutoImplicit false
set_option autoImplicit false

/-!
# Alignment

The least multiple of an alignment that is not below a given address or size, the usual way to
compute it for a power of two on machine words, and the offsets that the members of a structure
get when each is placed at the first address after the previous one that its alignment allows.

## Main definitions

* `Alignment.alignUp` — the least multiple not below a number.
* `Alignment.offsets`, `Alignment.structSize` — the layout of a structure.

## Main results

* `Alignment.and_sub_two_pow` — clearing the low bits of a number.
* `Alignment.toNat_add_and_not` — aligning a word with a mask.
-/

namespace Alignment

/-! ## Aligned numbers -/

/-- The least multiple of `a` that is not below `n`. -/
def alignUp (n a : ℕ) : ℕ := (n + a - 1) / a * a

/-- Aligning does not go down. -/
lemma le_alignUp {n a : ℕ} (ha : 0 < a) : n ≤ alignUp n a := by
  have hdiv := Nat.div_add_mod' (n + a - 1) a
  have hmod := Nat.mod_lt (n + a - 1) ha
  rw [alignUp]
  omega

/-- Clearing the low bits of a number rounds it down to a multiple of a power of two. -/
lemma and_sub_two_pow {w k x : ℕ} (hk : k ≤ w) (hx : x < 2 ^ w) :
    x &&& (2 ^ w - 2 ^ k) = x / 2 ^ k * 2 ^ k := by
  apply Nat.eq_of_testBit_eq
  intro i
  have hpos := Nat.two_pow_pos k
  have hle : 2 ^ k ≤ 2 ^ w := Nat.pow_le_pow_right Nat.two_pos hk
  have hmask : (2 ^ w - 2 ^ k).testBit i = (decide (i < w) && !decide (i < k)) := by
    rw [show 2 ^ w - 2 ^ k = 2 ^ w - (2 ^ k - 1 + 1) by omega,
      Nat.testBit_two_pow_sub_succ (by omega), Nat.testBit_two_pow_sub_one]
  rw [Nat.testBit_and, hmask, Nat.testBit_mul_two_pow, Nat.testBit_div_two_pow]
  rcases Nat.lt_or_ge i k with hlt | hge
  · simp [hlt, Nat.not_le.mpr hlt]
  · rcases Nat.lt_or_ge i w with hiw | hiw
    · simp [hge, hiw, Nat.not_lt.mpr hge, Nat.sub_add_cancel hge]
    · have hbit : x.testBit i = false :=
        Nat.testBit_lt_two_pow (hx.trans_le (Nat.pow_le_pow_right Nat.two_pos hiw))
      simp [hge, hbit, Nat.sub_add_cancel hge]

/-- **Aligning a word with a mask**: adding one less than a power of two and clearing the low bits
aligns, if the sum does not overflow. -/
theorem toNat_add_and_not {w k : ℕ} {sz ones : BitVec w} (hk : k ≤ w)
    (hones : ones.toNat = 2 ^ k - 1) (hlt : sz.toNat + (2 ^ k - 1) < 2 ^ w) :
    ((sz + ones) &&& ~~~ones).toNat = alignUp sz.toNat (2 ^ k) := by
  have hpos := Nat.two_pow_pos k
  have hnot : (~~~ones).toNat = 2 ^ w - 2 ^ k := by
    rw [BitVec.toNat_not, hones]
    omega
  rw [BitVec.toNat_and, hnot, BitVec.toNat_add, hones, Nat.mod_eq_of_lt hlt,
    and_sub_two_pow hk hlt, alignUp, Nat.add_sub_assoc hpos]

/-! ## Structures -/

/-- The offsets of members, given by their sizes and alignments, from the position `pos` on. -/
def offsets : ℕ → List (ℕ × ℕ) → List ℕ
  | _, [] => []
  | pos, (size, align) :: ms => alignUp pos align :: offsets (alignUp pos align + size) ms

/-- The end of the last member. -/
def endOffset : ℕ → List (ℕ × ℕ) → ℕ
  | pos, [] => pos
  | pos, (size, align) :: ms => endOffset (alignUp pos align + size) ms

/-- The size of a structure: its end, aligned as its members are. -/
def structSize (ms : List (ℕ × ℕ)) : ℕ :=
  alignUp (endOffset 0 ms) ((ms.map Prod.snd).foldr max 1)

end Alignment
