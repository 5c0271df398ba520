import Huc.Lib.Rounding
import Mathlib.Algebra.Order.Interval.Finset.SuccPred

set_option relaxedAutoImplicit false
set_option autoImplicit false

/-!
# The cache lines of a batch

`guestend/simplified-spscq/cover.cpp` checks a formula by trying it out: `covered_cachelines` counts
the cache lines that a batch of slots touches, by going through all lines and all their slots, and
`cover` compares the count with a prediction for all batches of up to 256 slots in lines of 8. The
prediction is computed in `double`. The formula is proved here for all lines and batches.

An `int` is an integer together with a check for overflow, and a loop that does not end has no
result, so that both show up as `none`.

## Main definitions

* `Huc.coveredCachelines`, `Huc.predictLines`, `Huc.cover` — the functions.
* `Huc.linesOf` — the cache lines of a batch.

## Main results

* `Huc.coveredCachelines_eq_card` — the lines of the batch are counted, up to the last one.
* `Huc.predictLines_eq` — the prediction is computed exactly.
* `Huc.coveredCachelines_formula` — the number of lines, and how far the prediction is from it.
* `Huc.cover_eq_zero` — `cover` finds no wrong formula.
-/

namespace Huc

open Rounding

/-! ## The functions -/

/-- The result of an operation on `int`; `none` for an overflow. -/
def checkedInt (x : ℤ) : Option ℤ := if -2 ^ 31 ≤ x ∧ x < 2 ^ 31 then some x else none

/-- `x / y`. -/
def divInt (x y : ℤ) : Option ℤ := if y = 0 then none else checkedInt (x.tdiv y)

/-- `s >= first && s < first + b`. -/
def slotCovered (first b s : ℤ) : Option Bool :=
  if first ≤ s then (checkedInt (first + b)).map fun stop => decide (s < stop) else some false

/-- The loop over the slots of the line from `k` on, with the next slot `s`. -/
def scanLine (first b K k : ℤ) : ℕ → ℤ → ℤ → Option ℤ
  | 0, _, _ => none
  | fuel + 1, s, lines =>
    (checkedInt (k + K)).bind fun stop =>
      if s < stop then
        (slotCovered first b s).bind fun covered =>
          if covered then checkedInt (lines + 1)
          else (checkedInt (s + 1)).bind fun s => scanLine first b K k fuel s lines
      else some lines

/-- The loop over the lines, the next one from `k` on. -/
def countLines (first b L K : ℤ) : ℕ → ℤ → ℤ → Option ℤ
  | 0, _, _ => none
  | fuel + 1, k, lines =>
    if k ≤ L then
      (scanLine first b K k fuel k lines).bind fun lines =>
        (checkedInt (k + K)).bind fun k => countLines first b L K fuel k lines
    else some lines

/-- `covered_cachelines`. -/
def coveredCachelines (fuel : ℕ) (first b L K : ℤ) : Option ℤ :=
  (divInt first K).bind fun q =>
    (checkedInt (q * K)).bind fun fk => countLines first b L K fuel fk 0

/-- The result of an operation on `double`, away from overflow and underflow. -/
def double (x : ℚ) : ℚ := roundTo 53 x

/-- `static_cast<int>` of a `double`. -/
def truncate (x : ℚ) : ℤ := x.num.tdiv x.den

/-- The prediction in `cover`. -/
def predictLines (b K : ℤ) : Option ℤ :=
  (checkedInt (b - 1)).bind fun n =>
    checkedInt (truncate (double (⌈double (double n / double K)⌉ + 1)))

/-- `diff`. -/
def coverDiff (fuel : ℕ) (Bmax K b ofs : ℤ) : Option ℤ :=
  (coveredCachelines fuel ofs b Bmax K).bind fun lines =>
    (predictLines b K).bind fun predict => checkedInt (predict - lines)

/-- The loop of `cover` over the batches and offsets that are left: what it returns, and
`total_error`. -/
def coverLoop (fuel : ℕ) (Bmax K : ℤ) : List (ℤ × ℤ) → ℤ → Option (ℤ × ℤ)
  | [], totalError => some (0, totalError)
  | (b, ofs) :: rest, totalError =>
    (coverDiff fuel Bmax K b ofs).bind fun diff =>
      (checkedInt (totalError + diff.natAbs)).bind fun totalError =>
        if diff < 0 ∨ diff > 1 then some (-1, totalError)
        else coverLoop fuel Bmax K rest totalError

/-- All batches `1, …, Bmax`, each with all offsets `0, …, K - 1`. -/
def coverCases (Bmax K : ℕ) : List (ℤ × ℤ) :=
  (List.range Bmax).flatMap fun (b : ℕ) =>
    (List.range K).map fun (ofs : ℕ) => ((b : ℤ) + 1, (ofs : ℤ))

/-- `cover`, where `Bmax` is 256 and `K` is 8. -/
def cover (fuel Bmax K : ℕ) : Option (ℤ × ℤ) := coverLoop fuel Bmax K (coverCases Bmax K) 0

/-! ## The lines of a batch -/

/-- The cache lines of the slots of a batch. -/
noncomputable def linesOf (first b K : ℤ) : Finset ℤ := (Finset.Ico first (first + b)).image (· / K)

/-- The arguments are not negative, `K` and `b` not zero, and nothing overflows. -/
structure CoverArgs (first b L K : ℤ) : Prop where
  first_nonneg : 0 ≤ first
  b_pos : 1 ≤ b
  L_nonneg : 0 ≤ L
  K_pos : 1 ≤ K
  batch_lt : first + b < 2 ^ 31
  last_lt : L + K < 2 ^ 31

/-- No overflow. -/
lemma checkedInt_of_lt {x : ℤ} (h : 0 ≤ x) (hlt : x < 2 ^ 31) : checkedInt x = some x :=
  if_pos ⟨by omega, hlt⟩

section Scan

variable {first b L K : ℤ}

/-- A line and a batch have a slot in common exactly if the line is one of the batch's. -/
lemma mem_linesOf (hK : 0 < K) (i : ℤ) :
    i ∈ linesOf first b K ↔ max (i * K) first < min (i * K + K) (first + b) := by
  rw [linesOf, Finset.mem_image, max_comm]
  constructor
  · rintro ⟨s, hs, rfl⟩
    rw [Finset.mem_Ico] at hs
    have hle := Int.ediv_mul_le s hK.ne'
    have hlt := Int.lt_ediv_add_one_mul_self s hK
    rw [add_mul, one_mul] at hlt
    omega
  · intro h
    refine ⟨max first (i * K), Finset.mem_Ico.mpr ⟨by omega, by omega⟩, max_mul_ediv hK ?_⟩
    rw [add_mul, one_mul]
    omega

/-- The test of the inner loop. -/
lemma slotCovered_eq (h : CoverArgs first b L K) (s : ℤ) :
    slotCovered first b s = some (decide (first ≤ s ∧ s < first + b)) := by
  have hb := h.b_pos
  have hfirst := h.first_nonneg
  unfold slotCovered
  split_ifs with hle
  · rw [checkedInt_of_lt (by omega) h.batch_lt, Option.map_some]
    simp [hle]
  · simp [hle]

/-- **The inner loop** counts the line if it finds a slot of the batch from `s` on.

**Proof sketch.** Induction on the number of slots left. -/
lemma scanLine_eq (h : CoverArgs first b L K) {k lines : ℤ} (hk : 0 ≤ k) (hkL : k ≤ L)
    (hlines : 0 ≤ lines) (hle : lines ≤ k) {n fuel : ℕ} {s : ℤ} (hs : k ≤ s) (hn : s + n = k + K)
    (hfuel : n < fuel) :
    scanLine first b K k fuel s lines =
      some (if max s first < min (k + K) (first + b) then lines + 1 else lines) := by
  have hlast := h.last_lt
  have hK := h.K_pos
  induction n generalizing s fuel with
  | zero =>
    obtain ⟨fuel, rfl⟩ := Nat.exists_eq_add_of_lt hfuel
    rw [scanLine, checkedInt_of_lt (by omega) (by omega), Option.bind_some, if_neg (by omega),
      if_neg (by omega)]
  | succ n ih =>
    cases fuel with
    | zero => exact absurd hfuel (Nat.not_lt_zero _)
    | succ fuel =>
      rw [scanLine, checkedInt_of_lt (by omega) (by omega), Option.bind_some, if_pos (by omega),
        slotCovered_eq h, Option.bind_some]
      by_cases hcov : first ≤ s ∧ s < first + b
      · rw [if_pos (decide_eq_true hcov), checkedInt_of_lt (by omega) (by omega), if_pos (by omega)]
      · have hrest := ih (show k ≤ s + 1 by omega) (by omega) (Nat.lt_of_succ_lt_succ hfuel)
        rw [if_neg (by simpa using hcov), checkedInt_of_lt (by omega) (by omega), Option.bind_some,
          hrest]
        have hiff : max (s + 1) first < min (k + K) (first + b) ↔
            max s first < min (k + K) (first + b) := by omega
        simp only [hiff]

/-- The members from `i` on are `i`, if it is one, and those after it. -/
lemma card_inter_Icc_of_le (lines : Finset ℤ) {i last : ℤ} (h : i ≤ last) :
    ((lines ∩ Finset.Icc i last).card : ℤ) =
      (if i ∈ lines then 1 else 0) + (lines ∩ Finset.Icc (i + 1) last).card := by
  rw [← Finset.insert_Icc_add_one_left_eq_Icc h]
  split_ifs with hmem
  · have hnew : i ∉ lines ∩ Finset.Icc (i + 1) last := by simp
    rw [Finset.inter_insert_of_mem hmem, Finset.card_insert_of_notMem hnew]
    push_cast
    ring
  · rw [Finset.inter_insert_of_notMem hmem, zero_add]

/-- No line is left. -/
lemma countLines_of_lt (hK : 1 ≤ K) {i : ℤ} (hi : L / K < i) (fuel : ℕ) (lines : ℤ) :
    countLines first b L K (fuel + 1) (i * K) lines =
      some (lines + (linesOf first b K ∩ Finset.Icc i (L / K)).card) := by
  have hL : ¬i * K ≤ L := not_le.mpr ((Int.ediv_lt_iff_lt_mul (by omega)).mp hi)
  rw [countLines, if_neg hL, Finset.Icc_eq_empty (not_le.mpr hi), Finset.inter_empty,
    Finset.card_empty, Nat.cast_zero, add_zero]

/-- **The outer loop** counts the lines of the batch from line `i` on, up to that of slot `L`.

**Proof sketch.** Induction on the number of lines left; no more lines have been counted than there
are below `i`, so that the count does not overflow. -/
lemma countLines_eq (h : CoverArgs first b L K) {n fuel : ℕ} {i lines : ℤ} (hlines : 0 ≤ lines)
    (hle : lines ≤ i) (hn : L / K < i + n) (hfuel : n + K < fuel) :
    countLines first b L K fuel (i * K) lines =
      some (lines + (linesOf first b K ∩ Finset.Icc i (L / K)).card) := by
  have hlast := h.last_lt
  have hK := h.K_pos
  induction n generalizing i lines fuel with
  | zero =>
    obtain ⟨fuel, rfl⟩ := Nat.exists_eq_succ_of_ne_zero (show fuel ≠ 0 by omega)
    exact countLines_of_lt h.K_pos (by omega) fuel lines
  | succ n ih =>
    obtain ⟨fuel, rfl⟩ := Nat.exists_eq_succ_of_ne_zero (show fuel ≠ 0 by omega)
    by_cases hmore : i ≤ L / K
    · have hiL : i * K ≤ L := (Int.le_ediv_iff_mul_le (by omega)).mp hmore
      have hi : i ≤ i * K := le_mul_of_one_le_right (by omega) hK
      obtain ⟨m, hm⟩ := Int.eq_ofNat_of_zero_le (show 0 ≤ K by omega)
      have hscan := @scanLine_eq first b L K h (i * K) lines (by omega) hiL hlines (by omega) m fuel
        (i * K) le_rfl (by omega) (by omega)
      simp only [← mem_linesOf (show 0 < K by omega)] at hscan
      rw [countLines, if_pos hiL, hscan, Option.bind_some, checkedInt_of_lt (by omega) (by omega),
        Option.bind_some, card_inter_Icc_of_le _ hmore, ← add_one_mul]
      split_ifs
      · rw [ih (by omega) (by omega) (by omega) (by omega), add_assoc]
      · rw [ih hlines (by omega) (by omega) (by omega), zero_add]
    · exact countLines_of_lt h.K_pos (by omega) fuel lines

/-- **`covered_cachelines`** returns the number of lines of the batch up to the line of slot `L`. -/
theorem coveredCachelines_eq_card (h : CoverArgs first b L K) {fuel : ℕ}
    (hfuel : L + K + 1 < fuel) :
    coveredCachelines fuel first b L K =
      some ((linesOf first b K ∩ Finset.Icc (first / K) (L / K)).card : ℤ) := by
  have hK := h.K_pos
  have hb := h.b_pos
  have hL := h.L_nonneg
  have hbatch := h.batch_lt
  have hfirst := Int.ediv_nonneg h.first_nonneg (show 0 ≤ K by omega)
  have hle := Int.ediv_mul_le first (show K ≠ 0 by omega)
  have hquot := Int.ediv_le_self K h.first_nonneg
  have hlast := Int.ediv_le_self K h.L_nonneg
  have hstart : 0 ≤ first / K * K := mul_nonneg hfirst (by omega)
  obtain ⟨n, hn⟩ := Int.eq_ofNat_of_zero_le (show 0 ≤ L + 1 by omega)
  rw [coveredCachelines, divInt, if_neg (by omega), Int.tdiv_eq_ediv_of_nonneg h.first_nonneg,
    checkedInt_of_lt hfirst (by omega), Option.bind_some, checkedInt_of_lt hstart (by omega),
    Option.bind_some,
    countLines_eq h le_rfl hfirst (show L / K < first / K + n by omega) (by omega), zero_add]

/-- **The lines of a batch** whose last line begins at `L` or before, counted by a formula. -/
lemma coveredCachelines_eq (h : CoverArgs first b L K) (hL : (first + b - 1) / K * K ≤ L) {fuel : ℕ}
    (hfuel : L + K + 1 < fuel) :
    coveredCachelines fuel first b L K = some ((first + b - 1) / K - first / K + 1) := by
  have hK := h.K_pos
  have hb := h.b_pos
  have hle : (first + b - 1) / K ≤ L / K := (Int.le_ediv_iff_mul_le (by omega)).mpr hL
  have hmono : first / K ≤ (first + b - 1) / K := Int.ediv_le_ediv (by omega) (by omega)
  have hsub : linesOf first b K ⊆ Finset.Icc (first / K) (L / K) := by
    rw [linesOf, image_ediv_Ico (by omega) (by omega)]
    exact Finset.Icc_subset_Icc le_rfl hle
  rw [coveredCachelines_eq_card h hfuel, Finset.inter_eq_left.mpr hsub, linesOf,
    image_ediv_Ico (by omega) (by omega), Int.card_Icc, Int.toNat_of_nonneg (by omega)]
  congr 1
  ring

end Scan

/-! ## The prediction -/

/-- An `int` that is not negative is a `double`. -/
lemma double_intCast {z : ℤ} (h : 0 ≤ z) (hlt : z < 2 ^ 31) : double z = z := by
  apply roundTo_intCast
  rw [abs_of_nonneg h]
  omega

/-- An integer is truncated to itself. -/
lemma truncate_intCast (z : ℤ) : truncate z = z := by
  rw [truncate, Rat.num_intCast, Rat.den_intCast, Nat.cast_one, Int.tdiv_one]

/-- **The prediction is computed exactly**, although the quotient is rounded. -/
lemma predictLines_eq {b K : ℤ} (hb : 1 ≤ b) (hb' : b < 2 ^ 31) (hK : 1 ≤ K) (hK' : K < 2 ^ 31) :
    predictLines b K = some (⌈((b - 1 : ℤ) : ℚ) / K⌉ + 1) := by
  have hceil : ⌈double (double (b - 1 : ℤ) / double K)⌉ = ⌈((b - 1 : ℤ) : ℚ) / K⌉ := by
    rw [double_intCast (by omega) (by omega), double_intCast (by omega) hK']
    exact ceil_roundTo_div (by omega) (by omega) (by omega)
  have hnum : (0 : ℚ) ≤ (b - 1 : ℤ) := Int.cast_nonneg (by omega)
  have hden : (1 : ℚ) ≤ K := by exact_mod_cast hK
  have hlow : 0 ≤ ⌈((b - 1 : ℤ) : ℚ) / K⌉ := Int.ceil_nonneg (div_nonneg hnum (by linarith))
  have hhigh : ⌈((b - 1 : ℤ) : ℚ) / K⌉ ≤ b - 1 := Int.ceil_le.mpr (div_le_self hnum hden)
  rw [predictLines, checkedInt_of_lt (by omega) (by omega), Option.bind_some, hceil]
  generalize ⌈((b - 1 : ℤ) : ℚ) / K⌉ = c at hlow hhigh ⊢
  have hsum : (c : ℚ) + 1 = (c + 1 : ℤ) := by push_cast; rfl
  rw [hsum, double_intCast (by omega) (by omega), truncate_intCast,
    checkedInt_of_lt (by omega) (by omega)]

/-! ## The formula -/

section Formula

variable {first b L K : ℤ}

/-- **The prediction is the number of lines or one more**, and `cover` finds this difference. -/
lemma coverDiff_eq (h : CoverArgs first b L K) (hL : (first + b - 1) / K * K ≤ L) {fuel : ℕ}
    (hfuel : L + K + 1 < fuel) :
    ∃ d, (d = 0 ∨ d = 1) ∧
      predictLines b K = some ((first + b - 1) / K - first / K + 1 + d) ∧
      coverDiff fuel L K b first = some d := by
  have hK := h.K_pos
  have hb := h.b_pos
  have hfirst := h.first_nonneg
  have hL' := h.L_nonneg
  have hbatch := h.batch_lt
  have hlast := h.last_lt
  have hpredict := @predictLines_eq b K hb (by omega) hK (by omega)
  obtain ⟨hlow, hhigh⟩ := ceil_div_mem first (b - 1) (show 0 < K by omega)
  rw [← add_sub_assoc] at hlow hhigh
  generalize ⌈((b - 1 : ℤ) : ℚ) / K⌉ = c at hpredict hlow hhigh
  have hsum : c + 1 = (first + b - 1) / K - first / K + 1 +
      (c - ((first + b - 1) / K - first / K)) := by ring
  refine ⟨c - ((first + b - 1) / K - first / K), by omega, hpredict.trans (congrArg some hsum), ?_⟩
  rw [coverDiff, coveredCachelines_eq h hL hfuel, Option.bind_some, hpredict, Option.bind_some,
    add_sub_add_right_eq_sub, checkedInt_of_lt (by omega) (by omega)]

/-- **The number of cache lines of a batch** of `b` slots from `first` on, for lines of `K` slots,
where `L` is not before the last of these lines and neither `first + b` nor `L + K` overflows:
`covered_cachelines` returns, and counts `(first + b - 1) / K - first / K + 1` lines; the prediction
in `cover` is that number or one more.

**Proof sketch.** The inner loop counts a line exactly if it has a slot of the batch. The lines of
the batch are the quotients of an interval, and these are an interval. Its length is the prediction
or one less, since the batch may or may not begin late enough in its first line to need one more. -/
theorem coveredCachelines_formula (hK : 1 ≤ K) (hfirst : 0 ≤ first) (hb : 1 ≤ b)
    (hL : (first + b - 1) / K * K ≤ L) (hbatch : first + b < 2 ^ 31) (hlast : L + K < 2 ^ 31) :
    ∃ n, ∀ fuel ≥ n,
      coveredCachelines fuel first b L K = some ((first + b - 1) / K - first / K + 1) ∧
      ∃ d, (d = 0 ∨ d = 1) ∧
        predictLines b K = some ((first + b - 1) / K - first / K + 1 + d) ∧
        coverDiff fuel L K b first = some d := by
  have hquot := Int.ediv_nonneg (show 0 ≤ first + b - 1 by omega) (show 0 ≤ K by omega)
  have hL' : 0 ≤ L := (mul_nonneg hquot (by omega)).trans hL
  have h : CoverArgs first b L K := ⟨hfirst, hb, hL', hK, hbatch, hlast⟩
  refine ⟨(L + K + 2).toNat, fun fuel hfuel => ?_⟩
  have hfuel' : L + K + 1 < fuel := by omega
  exact ⟨coveredCachelines_eq h hL hfuel', coverDiff_eq h hL hfuel'⟩

end Formula

/-- A batch of 10 slots from slot 6 on touches two lines of 8, as predicted; there `L` is 8. -/
theorem coveredCachelines_formula_ten :
    ∃ n, ∀ fuel ≥ n, coveredCachelines fuel 6 10 8 8 = some 2 ∧
      ∃ d, (d = 0 ∨ d = 1) ∧ predictLines 10 8 = some (2 + d) ∧ coverDiff fuel 8 8 10 6 = some d :=
  coveredCachelines_formula (by decide) (by decide) (by decide) (by decide) (by decide) (by decide)

/-! ## All batches -/

/-- A loop over cases whose difference is 0 or 1 goes through all of them. -/
lemma coverLoop_eq {fuel : ℕ} {Bmax K totalError : ℤ} {cases : List (ℤ × ℤ)}
    (h : ∀ c ∈ cases, ∃ d, (d = 0 ∨ d = 1) ∧ coverDiff fuel Bmax K c.1 c.2 = some d)
    (hpos : 0 ≤ totalError) (hlt : totalError + cases.length < 2 ^ 31) :
    ∃ t, coverLoop fuel Bmax K cases totalError = some (0, t) ∧ totalError ≤ t ∧
      t ≤ totalError + cases.length := by
  induction cases generalizing totalError with
  | nil => exact ⟨totalError, rfl, le_rfl, by simp⟩
  | cons c cases ih =>
    obtain ⟨b, ofs⟩ := c
    obtain ⟨⟨d, hd, hdiff⟩, hrest⟩ := List.forall_mem_cons.mp h
    rw [List.length_cons, Nat.cast_succ] at hlt ⊢
    obtain ⟨t, ht, hle, hge⟩ := @ih (totalError + d.natAbs) hrest (by omega) (by omega)
    refine ⟨t, ?_, by omega, by omega⟩
    rw [coverLoop, hdiff, Option.bind_some, checkedInt_of_lt (by omega) (by omega),
      Option.bind_some, if_neg (by omega), ht]

/-- The number of cases. -/
lemma length_coverCases (Bmax K : ℕ) : (coverCases Bmax K).length = Bmax * K := by
  simp [coverCases, List.length_flatMap]

/-- The cases are the batches up to the largest one, with the offsets inside a line. -/
lemma mem_coverCases {Bmax K : ℕ} {b ofs : ℤ} :
    (b, ofs) ∈ coverCases Bmax K ↔ (1 ≤ b ∧ b ≤ Bmax) ∧ 0 ≤ ofs ∧ ofs < K := by
  simp only [coverCases, List.mem_flatMap, List.mem_map, List.mem_range, Prod.mk.injEq]
  constructor
  · rintro ⟨m, hm, i, hi, rfl, rfl⟩
    omega
  · rintro ⟨⟨hb, hb'⟩, hofs, hofs'⟩
    exact ⟨(b - 1).toNat, by omega, ofs.toNat, by omega, by omega, by omega⟩

/-- **Every case meets the conditions of the formula**, if the largest batch is a multiple of the
line size. -/
lemma coverArgs_of_mem {Bmax K : ℕ} (hK : 1 ≤ K) (hdvd : K ∣ Bmax) (hlast : Bmax + K < 2 ^ 31)
    {b ofs : ℤ} (hc : (b, ofs) ∈ coverCases Bmax K) :
    CoverArgs ofs b Bmax K ∧ (ofs + b - 1) / K * K ≤ Bmax := by
  obtain ⟨⟨hb, hb'⟩, hofs, hofs'⟩ := mem_coverCases.mp hc
  obtain ⟨m, rfl⟩ := hdvd
  refine ⟨⟨hofs, hb, by omega, by omega, by omega, by omega⟩, ?_⟩
  have hquot : (ofs + b - 1) / K < m + 1 := by
    rw [Int.ediv_lt_iff_lt_mul (by omega), add_mul, one_mul, mul_comm]
    push_cast at hb'
    omega
  calc (ofs + b - 1) / K * K ≤ m * K := mul_le_mul_of_nonneg_right (by omega) (by omega)
    _ = (K * m : ℕ) := by rw [mul_comm, Nat.cast_mul]

/-- **`cover` finds no wrong formula**, for any line size and any multiple of it as the largest
batch, as long as its counters do not overflow: in each case the prediction is the number of lines
counted or one more, and `cover` returns 0. -/
theorem cover_eq_zero {Bmax K : ℕ} (hK : 1 ≤ K) (hdvd : K ∣ Bmax) (hlast : Bmax + K < 2 ^ 31)
    (hcount : Bmax * K < 2 ^ 31) :
    ∃ n, ∀ fuel ≥ n,
      (∀ b ofs : ℤ, 1 ≤ b → b ≤ Bmax → 0 ≤ ofs → ofs < K →
        ∃ lines d, coveredCachelines fuel ofs b Bmax K = some lines ∧ (d = 0 ∨ d = 1) ∧
          predictLines b K = some (lines + d)) ∧
      ∃ totalError, cover fuel Bmax K = some (0, totalError) ∧
        0 ≤ totalError ∧ totalError ≤ Bmax * K := by
  refine ⟨Bmax + K + 2, fun fuel hfuel => ⟨fun b ofs hb hb' hofs hofs' => ?_, ?_⟩⟩
  · obtain ⟨h, hL⟩ :=
      coverArgs_of_mem hK hdvd hlast (mem_coverCases.mpr ⟨⟨hb, hb'⟩, hofs, hofs'⟩)
    obtain ⟨d, hd, hpredict, -⟩ := @coverDiff_eq _ _ _ _ h hL fuel (by omega)
    exact ⟨_, d, coveredCachelines_eq h hL (by omega), hd, hpredict⟩
  · have hcases : ∀ c ∈ coverCases Bmax K,
        ∃ d, (d = 0 ∨ d = 1) ∧ coverDiff fuel Bmax K c.1 c.2 = some d := by
      rintro ⟨b, ofs⟩ hc
      obtain ⟨h, hL⟩ := coverArgs_of_mem hK hdvd hlast hc
      obtain ⟨d, hd, -, hdiff⟩ := @coverDiff_eq _ _ _ _ h hL fuel (by omega)
      exact ⟨d, hd, hdiff⟩
    have hlen := length_coverCases Bmax K
    obtain ⟨t, ht, hpos, hle⟩ := @coverLoop_eq fuel Bmax K 0 _ hcases le_rfl (by omega)
    exact ⟨t, ht, hpos, by rw [hlen] at hle; push_cast at hle; omega⟩

/-- With the numbers of the source `cover` returns 0, and of the 10 slots from slot 6 on it counts
as many lines as predicted, or one fewer. -/
theorem cover_eq_zero_256 :
    ∃ n, ∀ fuel ≥ n,
      (∃ lines d, coveredCachelines fuel 6 10 (256 : ℕ) (8 : ℕ) = some lines ∧
        (d = 0 ∨ d = 1) ∧ predictLines 10 (8 : ℕ) = some (lines + d)) ∧
      ∃ totalError, cover fuel (256 : ℕ) (8 : ℕ) = some (0, totalError) ∧
        0 ≤ totalError ∧ totalError ≤ (256 : ℕ) * (8 : ℕ) := by
  obtain ⟨n, hn⟩ := @cover_eq_zero 256 8 (by decide) (by decide) (by decide) (by decide)
  refine ⟨n, fun fuel hfuel => ⟨?_, (hn fuel hfuel).2⟩⟩
  exact (hn fuel hfuel).1 10 6 (by decide) (by decide) (by decide) (by decide)

end Huc
