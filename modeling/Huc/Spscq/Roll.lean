import Huc.Spscq.Cover

set_option relaxedAutoImplicit false
set_option autoImplicit false

/-!
# The rolling batches

`roll` of `guestend/simplified-spscq/cover.cpp` lets batches of `b` slots follow one another over
`L` slots, from every offset below `b` on, and adds up the cache lines that they cover. The rate of
these per slot is compared, in `double`, with the prediction of a batch divided by `b`; where the
prediction falls short by more than 0.01, the program ends with `-1`.

It never does, as long as `L` is large enough for the batch that reaches over its end: this one adds
less than `(Bmax - 1) / K + 2` lines to what the slots before `L` account for, and the roundings are
far smaller than what is then left of the tolerance.

## Main definitions

* `Huc.rollMisses`, `Huc.rollDiff`, `Huc.roll` — the loops of `roll`.

## Main results

* `Huc.rollMisses_spec` — a bound for the lines of the batches.
* `Huc.rollDiff_ge` — the prediction is not too small.
* `Huc.roll_eq_zero` — `roll` finds no wrong upper bound.
-/

namespace Huc

open Rounding

/-! ## The loops -/

/-- The inner loop: `misses` after the batches from `cur` on; `none` for an overflow or too little
fuel. -/
def rollMisses (fuel : ℕ) (b L K : ℤ) : ℕ → ℤ → ℤ → Option ℤ
  | 0, _, _ => none
  | n + 1, cur, misses =>
    if cur < L then
      (coveredCachelines fuel cur b L K).bind fun lines =>
        (checkedInt (misses + lines)).bind fun misses =>
          (checkedInt (cur + b)).bind fun cur => rollMisses fuel b L K n cur misses
    else some misses

/-- `diff` in `roll`. -/
def rollDiff (fuel : ℕ) (L K b ofs : ℤ) : Option ℚ :=
  (rollMisses fuel b L K fuel ofs 0).bind fun (misses : ℤ) =>
    (checkedInt (b - 1)).map fun (n : ℤ) =>
      let rate := double (double misses / double L)
      let predict := double (double n / double K)
      let predict := double (⌈predict⌉ + 1)
      let predict := double (predict / double b)
      double (predict - rate)

/-- The loop of `roll` over the batches and offsets that are left: what it returns, `total_error`
and `cases`. -/
def rollLoop (fuel : ℕ) (L K : ℤ) : List (ℤ × ℤ) → ℚ → ℤ → Option (ℤ × ℚ × ℤ)
  | [], totalError, cases => some (0, totalError, cases)
  | (b, ofs) :: rest, totalError, cases =>
    (rollDiff fuel L K b ofs).bind fun diff =>
      let totalError := double (totalError + |diff|)
      (checkedInt (cases + 1)).bind fun cases =>
        if diff < double (-(1 / 100)) then some (-1, totalError, cases)
        else rollLoop fuel L K rest totalError cases

/-- All batches `1, …, Bmax`, each with all offsets `0, …, b - 1`. -/
def rollCases (Bmax : ℕ) : List (ℤ × ℤ) :=
  (List.range Bmax).flatMap fun (b : ℕ) =>
    (List.range (b + 1)).map fun (ofs : ℕ) => ((b : ℤ) + 1, (ofs : ℤ))

/-- `roll`, where `L` is 4096, `Bmax` is 64 and `K` is 8. -/
def roll (fuel L Bmax K : ℕ) : Option (ℤ × ℚ × ℤ) := rollLoop fuel L K (rollCases Bmax) 0 0

/-! ## The lines of all batches -/

/-- The arguments are not negative, `K` and `b` not zero, and nothing overflows. -/
structure RollArgs (b L K : ℤ) : Prop where
  b_pos : 1 ≤ b
  L_nonneg : 0 ≤ L
  K_pos : 1 ≤ K
  batch_lt : L + b < 2 ^ 31
  last_lt : L + K < 2 ^ 31

section Lines

variable {b L K : ℤ}

/-- The prediction for a batch is at most its length. -/
lemma ceil_sub_one_le (h : RollArgs b L K) :
    0 ≤ ⌈((b - 1 : ℤ) : ℚ) / K⌉ ∧ ⌈((b - 1 : ℤ) : ℚ) / K⌉ + 1 ≤ b := by
  have hb := h.b_pos
  have hK : (1 : ℚ) ≤ K := by exact_mod_cast h.K_pos
  have hnum : (0 : ℚ) ≤ (b - 1 : ℤ) := Int.cast_nonneg (by omega)
  have hlow : 0 ≤ ⌈((b - 1 : ℤ) : ℚ) / K⌉ := Int.ceil_nonneg (div_nonneg hnum (by linarith))
  have hhigh : ⌈((b - 1 : ℤ) : ℚ) / K⌉ ≤ b - 1 := Int.ceil_le.mpr (div_le_self hnum hK)
  exact ⟨hlow, by omega⟩

/-- One batch covers no more lines than predicted. -/
lemma coveredCachelines_le (h : RollArgs b L K) {cur : ℤ} (hcur : 0 ≤ cur) (hlt : cur < L)
    {fuel : ℕ} (hfuel : L + K + 1 < fuel) :
    ∃ lines, coveredCachelines fuel cur b L K = some lines ∧ 0 ≤ lines ∧
      lines ≤ ⌈((b - 1 : ℤ) : ℚ) / K⌉ + 1 := by
  have hb := h.b_pos
  have hK := h.K_pos
  have hbatch := h.batch_lt
  have hargs : CoverArgs cur b L K :=
    ⟨hcur, hb, h.L_nonneg, hK, by omega, h.last_lt⟩
  refine ⟨_, coveredCachelines_eq_card hargs hfuel, Int.natCast_nonneg _, ?_⟩
  have hmono : cur / K ≤ (cur + b - 1) / K := Int.ediv_le_ediv (by omega) (by omega)
  have hcard : ((linesOf cur b K ∩ Finset.Icc (cur / K) (L / K)).card : ℤ) ≤
      (cur + b - 1) / K - cur / K + 1 := by
    have hle := Finset.card_le_card
      (Finset.inter_subset_left : linesOf cur b K ∩ Finset.Icc (cur / K) (L / K) ⊆ _)
    rw [linesOf, image_ediv_Ico (by omega) (by omega), Int.card_Icc] at hle
    rw [linesOf, image_ediv_Ico (by omega) (by omega)]
    omega
  have hceil := (ceil_div_mem cur (b - 1) (show 0 < K by omega)).1
  rw [← add_sub_assoc] at hceil
  omega

/-- **The lines of the batches from `cur` on**: with `c + 1` lines predicted for each, `b` times
their number is at most `c + 1` times the number of slots up to the end of the last batch.

**Proof sketch.** Induction on the fuel. No more lines have been counted than there are slots before
`cur`, so that the count does not overflow. -/
lemma rollMisses_spec (h : RollArgs b L K) {fuel : ℕ} (hfuel : L + K + 1 < fuel) {n : ℕ}
    {cur misses : ℤ} (hcur : 0 ≤ cur) (hmisses : 0 ≤ misses) (hle : misses ≤ cur)
    (hn : L - cur < n) (hn' : 0 < n) (hcurL : cur ≤ L + b) :
    ∃ m, rollMisses fuel b L K n cur misses = some m ∧ misses ≤ m ∧
      (m - misses) * b ≤ (⌈((b - 1 : ℤ) : ℚ) / K⌉ + 1) * max 0 (L - cur + b - 1) := by
  have hb := h.b_pos
  have hbatch := h.batch_lt
  obtain ⟨hlow, hhigh⟩ := ceil_sub_one_le h
  induction n generalizing cur misses with
  | zero => exact absurd hn' (lt_irrefl 0)
  | succ n ih =>
    by_cases hlt : cur < L
    · obtain ⟨lines, hlines, hpos, hlines_le⟩ := coveredCachelines_le h hcur hlt hfuel
      generalize ⌈((b - 1 : ℤ) : ℚ) / K⌉ + 1 = c at ih hlow hhigh hlines_le ⊢
      obtain ⟨m, hm, hmle, hbound⟩ := ih (show 0 ≤ cur + b by omega)
        (show 0 ≤ misses + lines by omega) (by omega) (by push_cast at hn; omega) (by omega)
        (by omega)
      refine ⟨m, ?_, by omega, ?_⟩
      · rw [rollMisses, if_pos hlt, hlines, Option.bind_some,
          checkedInt_of_lt (by omega) (by omega), Option.bind_some,
          checkedInt_of_lt (by omega) (by omega), Option.bind_some, hm]
      · have hmax : max 0 (L - (cur + b) + b - 1) = L - cur - 1 := by omega
        have hmax' : max 0 (L - cur + b - 1) = L - cur - 1 + b := by omega
        rw [hmax] at hbound
        rw [hmax']
        calc (m - misses) * b = (m - (misses + lines)) * b + lines * b := by ring
          _ ≤ c * (L - cur - 1) + c * b :=
              add_le_add hbound (mul_le_mul_of_nonneg_right hlines_le (by omega))
          _ = c * (L - cur - 1 + b) := by ring
    · refine ⟨misses, ?_, le_rfl, ?_⟩
      · rw [rollMisses, if_neg hlt]
      · rw [sub_self, zero_mul]
        exact mul_nonneg (by omega) (le_max_left _ _)

end Lines

/-! ## The difference -/

/-- The largest batch is small enough for `L`: the lines that the last batch adds are less than one
per 101 slots. -/
def RollFits (b L K : ℤ) : Prop := 101 * (b - 1 + 2 * K) ≤ L * K

section Difference

variable {b L K : ℤ}

/-- **The exact rate** exceeds the exact prediction by less than 1 in 101.

**Proof sketch.** The slots up to the end of the last batch are at most `L + b - 1`. -/
lemma rate_le (h : RollArgs b L K) (hfits : RollFits b L K) {m : ℤ}
    (hm : m * b ≤ (⌈((b - 1 : ℤ) : ℚ) / K⌉ + 1) * (L + b - 1)) :
    (m : ℚ) / L ≤ ((⌈((b - 1 : ℤ) : ℚ) / K⌉ + 1 : ℤ) : ℚ) / b + 1 / 101 := by
  have hb : (1 : ℚ) ≤ b := by exact_mod_cast h.b_pos
  have hK : (1 : ℚ) ≤ K := by exact_mod_cast h.K_pos
  have hfits' : 101 * ((b : ℚ) - 1 + 2 * K) ≤ L * K := by exact_mod_cast hfits
  have hL : (0 : ℚ) < L := by
    by_contra hneg
    nlinarith [mul_nonneg (sub_nonneg.mpr hK) (neg_nonneg.mpr (not_lt.mp hneg))]
  have hceil : ((⌈((b - 1 : ℤ) : ℚ) / K⌉ + 1 : ℤ) : ℚ) ≤ ((b : ℚ) - 1 + 2 * K) / K := by
    have hlt := Int.ceil_lt_add_one (((b - 1 : ℤ) : ℚ) / K)
    have hsplit : ((b : ℚ) - 1 + 2 * K) / K = ((b - 1 : ℤ) : ℚ) / K + 2 := by
      push_cast
      field_simp
    rw [hsplit]
    push_cast at hlt ⊢
    linarith
  have hpos : (0 : ℚ) ≤ (⌈((b - 1 : ℤ) : ℚ) / K⌉ + 1 : ℤ) := by
    have := (ceil_sub_one_le h).1
    exact_mod_cast (by omega : (0 : ℤ) ≤ ⌈((b - 1 : ℤ) : ℚ) / K⌉ + 1)
  have hm' : (m : ℚ) * b ≤ ((⌈((b - 1 : ℤ) : ℚ) / K⌉ + 1 : ℤ) : ℚ) * (L + b - 1) := by
    exact_mod_cast hm
  generalize ((⌈((b - 1 : ℤ) : ℚ) / K⌉ + 1 : ℤ) : ℚ) = c at hceil hpos hm' ⊢
  have hsmall : c ≤ L / 101 := by
    refine hceil.trans ?_
    rw [div_le_div_iff₀ (by linarith) (by norm_num)]
    linarith
  rw [div_le_iff₀ hL]
  have hrest : c * (b - 1) ≤ L / 101 * b := by
    calc c * (b - 1) ≤ c * b := mul_le_mul_of_nonneg_left (by linarith) hpos
      _ ≤ L / 101 * b := mul_le_mul_of_nonneg_right hsmall (by linarith)
  have hb' : (0 : ℚ) < b := by linarith
  have hsum : (c / b + 1 / 101) * L = (c * L + L / 101 * b) / b := by
    field_simp
  rw [hsum, le_div_iff₀ hb']
  calc (m : ℚ) * b ≤ c * (L + b - 1) := hm'
    _ = c * L + c * (b - 1) := by ring
    _ ≤ c * L + L / 101 * b := by linarith

/-- **What is computed** for a batch and an offset: the counts are exact, and each of the two
quotients and their difference is rounded once.

**Proof sketch.** The number of misses is a small integer (`rollMisses_spec`), and integers below
`2 ^ 31` are exact as doubles. So is the quotient under the ceiling, since rounding moves it over no
integer (`ceil_roundTo_div`). -/
lemma rollDiff_eq (h : RollArgs b L K) {ofs : ℤ} (hofs : 0 ≤ ofs) (hlt : ofs < b) {fuel : ℕ}
    (hfuel : L + K + 1 < fuel) :
    ∃ m : ℤ, 0 ≤ m ∧ m * b ≤ (⌈((b - 1 : ℤ) : ℚ) / K⌉ + 1) * (L + b - 1) ∧
      rollDiff fuel L K b ofs = some
        (double (double (((⌈((b - 1 : ℤ) : ℚ) / K⌉ + 1 : ℤ) : ℚ) / b) - double ((m : ℚ) / L))) := by
  have hb := h.b_pos
  have hK := h.K_pos
  have hL := h.L_nonneg
  have hbatch := h.batch_lt
  have hlast := h.last_lt
  obtain ⟨hlow, hhigh⟩ := ceil_sub_one_le h
  obtain ⟨m, hm, hmpos, hbound⟩ := rollMisses_spec h hfuel hofs le_rfl hofs (n := fuel) (by omega)
    (by omega) (by omega)
  have hle : m * b ≤ (⌈((b - 1 : ℤ) : ℚ) / K⌉ + 1) * (L + b - 1) := by
    rw [sub_zero] at hbound
    exact hbound.trans (mul_le_mul_of_nonneg_left (by omega) (by omega))
  have hmlt : m ≤ L + b - 1 := by
    have hprod : m * b ≤ (L + b - 1) * b := by
      calc m * b ≤ (⌈((b - 1 : ℤ) : ℚ) / K⌉ + 1) * (L + b - 1) := hle
        _ ≤ b * (L + b - 1) := mul_le_mul_of_nonneg_right hhigh (by omega)
        _ = (L + b - 1) * b := mul_comm _ _
    exact le_of_mul_le_mul_right hprod (by omega)
  have hexact : ∀ z : ℤ, 0 ≤ z → z < 2 ^ 31 → double z = z := fun z hz hz' => double_intCast hz hz'
  have hceil : ⌈double (double (b - 1 : ℤ) / double K)⌉ = ⌈((b - 1 : ℤ) : ℚ) / K⌉ := by
    rw [hexact _ (by omega) (by omega), hexact K (by omega) (by omega)]
    exact ceil_roundTo_div (by omega) (by omega) (by omega)
  have hone : ((⌈((b - 1 : ℤ) : ℚ) / K⌉ : ℤ) : ℚ) + 1 =
      ((⌈((b - 1 : ℤ) : ℚ) / K⌉ + 1 : ℤ) : ℚ) := by
    push_cast
    rfl
  refine ⟨m, hmpos, hle, ?_⟩
  rw [rollDiff, hm, Option.bind_some, checkedInt_of_lt (by omega) (by omega), Option.map_some]
  simp only [hceil]
  rw [hone, hexact m hmpos (by omega), hexact L hL (by omega), hexact b (by omega) (by omega),
    hexact (⌈((b - 1 : ℤ) : ℚ) / K⌉ + 1) (by omega) (by omega)]

/-- **Roundings do not use up the tolerance**: three of them change the difference of numbers below
3 by less than what -1/101 is above -1/100. -/
lemma tolerance_le {x y : ℚ} (hx : 0 ≤ x) (hx' : x ≤ 1) (hy : 0 ≤ y) (hle : y ≤ x + 1 / 101) :
    double (-(1 / 100)) ≤ double (double x - double y) := by
  have hdiff := (abs_le.mp (abs_roundTo_sub_roundTo_le 53 x y)).1
  have htol := (abs_le.mp (abs_roundTo_sub_le 53 (-(1 / 100)))).2
  rw [abs_of_nonneg hx, abs_of_nonneg hy] at hdiff
  rw [abs_neg, abs_of_nonneg (by norm_num)] at htol
  unfold double
  norm_num at hdiff htol ⊢
  linarith

/-- **The prediction is not too small**: `diff` is computed, and it is not below the tolerance. -/
lemma rollDiff_ge (h : RollArgs b L K) (hfits : RollFits b L K) {ofs : ℤ} (hofs : 0 ≤ ofs)
    (hlt : ofs < b) {fuel : ℕ} (hfuel : L + K + 1 < fuel) :
    ∃ d, rollDiff fuel L K b ofs = some d ∧ double (-(1 / 100)) ≤ d := by
  have hb := h.b_pos
  have hL := h.L_nonneg
  obtain ⟨hlow, hhigh⟩ := ceil_sub_one_le h
  obtain ⟨m, hmpos, hle, hdiff⟩ := rollDiff_eq h hofs hlt hfuel
  refine ⟨_, hdiff, tolerance_le ?_ ?_ ?_ (rate_le h hfits hle)⟩
  · exact div_nonneg (Int.cast_nonneg (by omega)) (Int.cast_nonneg (by omega))
  · rw [div_le_one (Int.cast_pos.mpr (by omega))]
    exact Int.cast_le.mpr hhigh
  · exact div_nonneg (Int.cast_nonneg hmpos) (Int.cast_nonneg hL)

end Difference

/-! ## All batches -/

/-- A loop over cases whose difference is within the tolerance goes through all of them. -/
lemma rollLoop_eq {fuel : ℕ} {L K : ℤ} {l : List (ℤ × ℤ)} {totalError : ℚ} {cases : ℤ}
    (h : ∀ c ∈ l, ∃ d, rollDiff fuel L K c.1 c.2 = some d ∧ double (-(1 / 100)) ≤ d)
    (hpos : 0 ≤ cases) (hlt : cases + l.length < 2 ^ 31) :
    ∃ t, rollLoop fuel L K l totalError cases = some (0, t, cases + l.length) := by
  induction l generalizing totalError cases with
  | nil => exact ⟨totalError, by simp [rollLoop]⟩
  | cons c l ih =>
    obtain ⟨b, ofs⟩ := c
    obtain ⟨⟨d, hdiff, hd⟩, hrest⟩ := List.forall_mem_cons.mp h
    rw [List.length_cons, Nat.cast_succ] at hlt ⊢
    obtain ⟨t, ht⟩ := @ih (double (totalError + |d|)) (cases + 1) hrest (by omega) (by omega)
    refine ⟨t, ?_⟩
    simp only [rollLoop, hdiff, Option.bind_some,
      checkedInt_of_lt (show 0 ≤ cases + 1 by omega) (by omega), if_neg (not_lt.mpr hd)]
    rw [ht]
    congr 3
    omega

/-- The number of cases. -/
lemma length_rollCases (Bmax : ℕ) : (rollCases Bmax).length = Bmax * (Bmax + 1) / 2 := by
  have htwice : 2 * (rollCases Bmax).length = Bmax * (Bmax + 1) := by
    induction Bmax with
    | zero => rfl
    | succ n ih =>
      have hsnoc : (rollCases (n + 1)).length = (rollCases n).length + (n + 1) := by
        simp [rollCases, List.range_succ, List.flatMap_append]
      rw [hsnoc, mul_add, ih]
      ring
  omega

/-- **`roll` finds no wrong upper bound**, for any line size `K`, any largest batch and any number
of slots that is large enough for it, as long as nothing overflows. -/
theorem roll_eq_zero {L Bmax K : ℕ} (hK : 1 ≤ K) (hfits : 101 * (Bmax + 2 * K) ≤ L * K)
    (hbatch : L + Bmax < 2 ^ 31) (hlast : L + K < 2 ^ 31)
    (hcount : Bmax * (Bmax + 1) / 2 < 2 ^ 31) :
    ∃ n, ∀ fuel ≥ n, ∃ totalError : ℚ,
      roll fuel L Bmax K = some (0, totalError, ((Bmax * (Bmax + 1) / 2 : ℕ) : ℤ)) := by
  refine ⟨L + K + 2, fun fuel hfuel => ?_⟩
  have hcases : ∀ c ∈ rollCases Bmax,
      ∃ d, rollDiff fuel L K c.1 c.2 = some d ∧ double (-(1 / 100)) ≤ d := by
    intro c hc
    simp only [rollCases, List.mem_flatMap, List.mem_map, List.mem_range] at hc
    obtain ⟨b, hb, ofs, hofs, rfl⟩ := hc
    have h : RollArgs (b + 1) L K := ⟨by omega, by omega, by omega, by omega, by omega⟩
    have hfits' : RollFits (b + 1) L K := by
      have hcast : (101 : ℤ) * (Bmax + 2 * K) ≤ L * K := by exact_mod_cast hfits
      rw [RollFits]
      omega
    exact rollDiff_ge h hfits' (by omega) (by omega) (by omega)
  have hlen := length_rollCases Bmax
  obtain ⟨t, ht⟩ := @rollLoop_eq fuel L K _ 0 0 hcases le_rfl (by omega)
  exact ⟨t, by rw [roll, ht, hlen, zero_add]⟩

/-- With the numbers of the source `roll` returns 0 after 2080 cases. -/
theorem roll_eq_zero_4096 :
    ∃ n, ∀ fuel ≥ n, ∃ totalError, roll fuel 4096 64 8 = some (0, totalError, 2080) :=
  roll_eq_zero (by decide) (by decide) (by decide) (by decide) (by decide)

end Huc
