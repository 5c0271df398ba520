import Mathlib.Data.Finset.Card
import Mathlib.Data.Set.Function
import Mathlib.Order.Interval.Finset.Nat
import Mathlib.Tactic

set_option relaxedAutoImplicit false
set_option autoImplicit false

/-!
# Filling an array block by block

An array is a function from positions. A loop that stores the values `f 0, …, f (n - 1)` at the
positions from `a` on fills a range and nothing else; a loop over blocks of equal length that fills
each of them fills the whole. A map that takes each block onto a block, and each block is taken, is
a permutation of all positions.

## Main definitions

* `Blocks.fill`, `Blocks.fillBlocks` — the two loops.
* `Blocks.block` — the positions of a block.

## Main results

* `Blocks.fill_of_lt`, `Blocks.fill_of_not_mem`, `Blocks.fillBlocks_apply` — what is stored.
* `Blocks.bijOn_of_surjOn` — a map of finitely many positions onto themselves is a permutation.
* `Blocks.bijOn_of_blocks` — a map that permutes blocks is a permutation.
-/

namespace Blocks

open Set

variable {α : Type*}

/-! ## The loops -/

/-- Store `f 0, …, f (n - 1)` from position `a` on. -/
def fill (m : ℕ → α) (a n : ℕ) (f : ℕ → α) : ℕ → α :=
  (List.range n).foldl (fun m i => Function.update m (a + i) (f i)) m

/-- Fill the first `n` blocks of length `K`, the `j`-th with `f j`. -/
def fillBlocks (m : ℕ → α) (K n : ℕ) (f : ℕ → ℕ → α) : ℕ → α :=
  (List.range n).foldl (fun m j => fill m (j * K) K (f j)) m

/-- One more store. -/
lemma fill_succ (m : ℕ → α) (a n : ℕ) (f : ℕ → α) :
    fill m a (n + 1) f = Function.update (fill m a n f) (a + n) (f n) := by
  rw [fill, List.range_succ, List.foldl_append]
  rfl

/-- One more block. -/
lemma fillBlocks_succ (m : ℕ → α) (K n : ℕ) (f : ℕ → ℕ → α) :
    fillBlocks m K (n + 1) f = fill (fillBlocks m K n f) (n * K) K (f n) := by
  rw [fillBlocks, List.range_succ, List.foldl_append]
  rfl

/-- A position in the range holds what has been stored there. -/
lemma fill_of_lt {m : ℕ → α} {a n i : ℕ} {f : ℕ → α} (h : i < n) : fill m a n f (a + i) = f i := by
  induction n with
  | zero => exact absurd h (Nat.not_lt_zero i)
  | succ n ih =>
    rw [fill_succ]
    rcases Nat.lt_succ_iff_lt_or_eq.mp h with hlt | rfl
    · rw [Function.update_of_ne (by omega), ih hlt]
    · rw [Function.update_self]

/-- A position outside of the range is left alone. -/
lemma fill_of_not_mem {m : ℕ → α} {a n x : ℕ} {f : ℕ → α} (h : ¬(a ≤ x ∧ x < a + n)) :
    fill m a n f x = m x := by
  induction n with
  | zero => rfl
  | succ n ih => rw [fill_succ, Function.update_of_ne (by omega), ih (by omega)]

/-- What a position holds afterwards depends on what it held before only. -/
lemma fill_congr {m m' : ℕ → α} {a n x : ℕ} {f : ℕ → α} (h : m x = m' x) :
    fill m a n f x = fill m' a n f x := by
  induction n with
  | zero => exact h
  | succ n ih =>
    rw [fill_succ, fill_succ, Function.update_apply, Function.update_apply, ih]

/-- The same for blocks. -/
lemma fillBlocks_congr {m m' : ℕ → α} {K n x : ℕ} {f : ℕ → ℕ → α} (h : m x = m' x) :
    fillBlocks m K n f x = fillBlocks m' K n f x := by
  induction n with
  | zero => exact h
  | succ n ih =>
    rw [fillBlocks_succ, fillBlocks_succ]
    exact fill_congr ih

/-- One of the first `n` blocks ends before they do. -/
lemma end_le (K : ℕ) {j n : ℕ} (h : j < n) : j * K + K ≤ n * K := by
  rw [← Nat.succ_mul]
  exact Nat.mul_le_mul_right K h

/-- **Position `i` of block `j`** holds what has been stored there. -/
lemma fillBlocks_apply {m : ℕ → α} {K n j i : ℕ} {f : ℕ → ℕ → α} (hj : j < n) (hi : i < K) :
    fillBlocks m K n f (j * K + i) = f j i := by
  induction n with
  | zero => exact absurd hj (Nat.not_lt_zero j)
  | succ n ih =>
    rw [fillBlocks_succ]
    rcases Nat.lt_succ_iff_lt_or_eq.mp hj with hlt | rfl
    · have hend := end_le K hlt
      rw [fill_of_not_mem (by omega), ih hlt]
    · exact fill_of_lt hi

/-! ## Permutations of blocks -/

/-- The positions of block `g`. -/
def block (K g : ℕ) : Set ℕ := Ico (g * K) (g * K + K)

/-- A position is in the block that its quotient names. -/
lemma mem_block_div {K : ℕ} (hK : 0 < K) (x : ℕ) : x ∈ block K (x / K) := by
  have hdiv := Nat.div_add_mod' x K
  have hmod := Nat.mod_lt x hK
  exact ⟨by omega, by omega⟩

/-- The first `n` blocks are the first `n * K` positions. -/
lemma lt_of_mem_block {K g n x : ℕ} (hg : g < n) (hx : x ∈ block K g) : x < n * K :=
  hx.2.trans_le (end_le K hg)

/-- The values that a function takes on a block. -/
lemma image_block {f : ℕ → α} {K g : ℕ} :
    f '' block K g = {y | ∃ i < K, f (g * K + i) = y} := by
  ext y
  constructor
  · rintro ⟨x, ⟨hle, hlt⟩, rfl⟩
    exact ⟨x - g * K, by omega, by rw [Nat.add_sub_cancel' hle]⟩
  · rintro ⟨i, hi, rfl⟩
    exact ⟨g * K + i, ⟨by omega, by omega⟩, rfl⟩

/-- **Onto is one-to-one** on the positions below `n`. -/
theorem bijOn_of_surjOn {f : ℕ → ℕ} {n : ℕ} (hmaps : MapsTo f (Iio n) (Iio n))
    (hsurj : SurjOn f (Iio n) (Iio n)) : BijOn f (Iio n) (Iio n) := by
  refine ⟨hmaps, ?_, hsurj⟩
  rw [← Finset.coe_range] at hmaps hsurj ⊢
  exact Finset.injOn_of_surjOn_of_card_le f hmaps hsurj le_rfl

/-- **A map that permutes blocks** is a permutation of the positions, if every block is taken onto a
block and every block is reached. -/
theorem bijOn_of_blocks {f : ℕ → ℕ} {K n : ℕ} (hK : 0 < K)
    (hmaps : ∀ g < n, ∃ h < n, f '' block K g = block K h)
    (hsurj : ∀ h < n, ∃ g < n, f '' block K g = block K h) :
    BijOn f (Iio (n * K)) (Iio (n * K)) := by
  refine bijOn_of_surjOn ?_ ?_
  · intro x hx
    obtain ⟨h, hh, himage⟩ := hmaps (x / K) (Nat.div_lt_of_lt_mul (Nat.mul_comm n K ▸ hx))
    exact lt_of_mem_block hh (himage ▸ mem_image_of_mem f (mem_block_div hK x))
  · intro y hy
    obtain ⟨g, hg, himage⟩ := hsurj (y / K) (Nat.div_lt_of_lt_mul (Nat.mul_comm n K ▸ hy))
    have hmem := mem_block_div hK y
    rw [← himage] at hmem
    obtain ⟨x, hx, rfl⟩ := hmem
    exact ⟨x, lt_of_mem_block hg hx, rfl⟩

end Blocks
