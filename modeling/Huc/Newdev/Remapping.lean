import Huc.Affinity.Binding
import Huc.Newdev.Basic

set_option relaxedAutoImplicit false
set_option autoImplicit false

/-!
# Hyperthread remapping

With `hyperthreading_remapping` on, `newdev` moves a request for a single CPU: an even one to the
lower half of the host's CPUs, an odd one to the upper half, so that two vCPUs that the guest takes
for hyperthreads of one core end up on two cores. The function that does so, `map_hyperthread`,
rewrites the set in place, and the loop over the vCPUs goes on testing the vCPUs that are left in
the set rewritten: if the new CPU is the number of one of them, that vCPU is bound too.

## Main results

* `Huc.mapHyperthread_twoPow` — what becomes of a set with one CPU.
* `Huc.setaffinityLoop_twoPow` — the calls made for a request with one CPU.
* `Huc.remappedCpu_inj` — different CPUs are moved to different ones.
* `Huc.remap_alone_iff` — the requests that affect the requested vCPU only.
-/

namespace Huc

/-! ## Sets with one CPU -/

/-- The CPU of a set with one CPU. -/
lemma cpus_twoPow {i : ℕ} (h : i < 64) : cpus (BitVec.twoPow 64 i) = {i} := by
  ext j
  rw [mem_cpus, Finset.mem_singleton, BitVec.getLsbD_twoPow]
  simp only [h, decide_true, Bool.true_and, decide_eq_true_eq]
  exact eq_comm

/-- Membership in a set with one CPU. -/
lemma getLsbD_twoPow_iff {i : ℕ} (h : i < 64) (j : ℕ) :
    (BitVec.twoPow 64 i).getLsbD j = true ↔ j = i := by
  rw [← mem_cpus, cpus_twoPow h, Finset.mem_singleton]

/-- The count over a set with one CPU. -/
lemma countSet_twoPow {i : ℕ} (h : i < 64) (k : ℕ) :
    countSet (BitVec.twoPow 64 i) k = if i < k then (1, i) else (0, 0) := by
  induction k with
  | zero => rfl
  | succ k ih =>
    rw [countSet, ih]
    by_cases hk : k = i
    · rw [if_pos ((getLsbD_twoPow_iff h k).mpr hk), if_neg (by omega), if_pos (by omega), hk]
    · rw [if_neg (fun hbit => hk ((getLsbD_twoPow_iff h k).mp hbit))]
      by_cases hlt : i < k
      · rw [if_pos hlt, if_pos (by omega)]
      · rw [if_neg hlt, if_neg (by omega)]

/-- **What becomes of a set with one CPU.** -/
lemma mapHyperthread_twoPow (nprocs : ℕ) {i : ℕ} (h : i < 64) :
    (mapHyperthread nprocs (BitVec.twoPow 64 i)).1 = BitVec.twoPow 64 (remappedCpu nprocs i) := by
  rw [mapHyperthread, countSet_twoPow h, if_pos h]
  rfl

/-! ## Where the CPUs go -/

/-- A CPU of the host is moved to a CPU of the host, or of the set at least. -/
lemma remappedCpu_lt {nprocs i : ℕ} (hN : nprocs ≤ 64) (hi : i < nprocs) :
    remappedCpu nprocs i < 64 := by
  rw [remappedCpu]
  split_ifs <;> omega

/-- **Different CPUs are moved to different ones**, if their number is even. -/
lemma remappedCpu_inj {nprocs i j : ℕ} (hN : nprocs % 2 = 0) (hi : i < nprocs) (hj : j < nprocs)
    (h : remappedCpu nprocs i = remappedCpu nprocs j) : i = j := by
  simp only [remappedCpu] at h
  split_ifs at h <;> omega

/-! ## The loop over the vCPUs -/

/-- The loop makes no call exactly if no vCPU that is left is in the set. -/
lemma setaffinityLoop_eq_nil_iff (nprocs : ℕ) (remapping : Bool) (is : List ℕ)
    (set : BitVec 64) :
    setaffinityLoop nprocs remapping is set = [] ↔ ∀ i ∈ is, set.getLsbD i = false := by
  induction is with
  | nil => simp [setaffinityLoop]
  | cons i is ih =>
    rw [setaffinityLoop, List.forall_mem_cons]
    by_cases h : set.getLsbD i = true
    · simp [h]
    · rw [if_neg h, ih]
      simp [Bool.eq_false_iff.mpr h]

/-- vCPUs outside the set are passed over. -/
lemma setaffinityLoop_append (nprocs : ℕ) (remapping : Bool) {is : List ℕ} (js : List ℕ)
    {set : BitVec 64} (h : ∀ i ∈ is, set.getLsbD i = false) :
    setaffinityLoop nprocs remapping (is ++ js) set = setaffinityLoop nprocs remapping js set := by
  induction is with
  | nil => rfl
  | cons i is ih =>
    obtain ⟨hi, his⟩ := List.forall_mem_cons.mp h
    rw [List.cons_append, setaffinityLoop, if_neg (by simp [hi]), ih his]

/-- **The calls for a request with one CPU**: the vCPU of that number is bound to the CPU it is
moved to, and the loop goes on with that CPU in the set. -/
lemma setaffinityLoop_twoPow (nprocs : ℕ) {n i : ℕ} (hi : i < n) (h64 : i < 64) :
    setaffinityLoop nprocs true (List.range n) (BitVec.twoPow 64 i) =
      .schedSetaffinity i (BitVec.twoPow 64 (remappedCpu nprocs i)) ::
        setaffinityLoop nprocs true (List.range' (i + 1) (n - (i + 1)))
          (BitVec.twoPow 64 (remappedCpu nprocs i)) := by
  have hsplit : List.range n = List.range i ++ (i :: List.range' (i + 1) (n - (i + 1))) := by
    have happ := @List.range'_append_1 0 i (n - (i + 1) + 1)
    rw [Nat.zero_add, show i + (n - (i + 1) + 1) = n by omega] at happ
    rw [← List.range'_succ, List.range_eq_range', List.range_eq_range', happ]
  have hbefore : ∀ j ∈ List.range i, (BitVec.twoPow 64 i).getLsbD j = false := by
    intro j hj
    rw [Bool.eq_false_iff]
    intro hbit
    rw [getLsbD_twoPow_iff h64] at hbit
    exact absurd hbit (List.mem_range.mp hj).ne
  rw [hsplit, setaffinityLoop_append nprocs true _ hbefore, setaffinityLoop,
    if_pos ((getLsbD_twoPow_iff h64 i).mpr rfl), if_pos rfl, mapHyperthread_twoPow nprocs h64]

/-- What the request for CPU `i` should do: one call, for vCPU `i`, with the CPU that `i` is moved
to, which is no other CPU's if there is an even number of them. -/
def RemapsAlone (env : NewdevEnv) (effects : List Effect) (i : ℕ) : Prop :=
  (∃ set, effects = [.schedSetaffinity i set] ∧ cpus set = {remappedCpu env.nprocs i}) ∧
    (env.nprocs % 2 = 0 → ∀ j < env.nprocs, j ≠ i →
      remappedCpu env.nprocs j ≠ remappedCpu env.nprocs i)

/-- **The requests that affect the requested vCPU only**: in `newdev` with the remapping on, for any
number of vCPUs and up to 64 host CPUs, a write to word 3 with the single CPU `i`, the number of a
vCPU and of a host CPU, leads to exactly one call of `sched_setaffinity`, for vCPU `i` with the CPU
that `i` is moved to (and no other `i` is moved there), if and only if `i` is even, or the upper CPU
it is moved to is not above `i`, or is not the number of a vCPU.

**Proof sketch.** The loop passes the vCPUs below `i`, binds vCPU `i`, and tests the vCPUs above it
in the set that has been rewritten. -/
theorem remap_alone_iff (env : NewdevEnv) {s : NewdevState}
    (hht : s.hyperthreadingRemapping = true) (hN : env.nprocs ≤ 64) {i : ℕ} (hi : i < env.nVCPU)
    (hiN : i < env.nprocs) {addr : BitVec 64} (hidx : bufIndex addr = 3) :
    RemapsAlone env (newdevBufmmioWrite env s addr (BitVec.twoPow 64 i) 4).2 i ↔
      i % 2 = 0 ∨ env.nprocs / 2 + i / 2 ≤ i ∨ env.nVCPU ≤ env.nprocs / 2 + i / 2 := by
  have hcond : (i % 2 = 0 ∨ env.nprocs / 2 + i / 2 ≤ i ∨ env.nVCPU ≤ env.nprocs / 2 + i / 2) ↔
      remappedCpu env.nprocs i ≤ i ∨ env.nVCPU ≤ remappedCpu env.nprocs i := by
    rw [remappedCpu]
    split_ifs <;> omega
  have hlt := remappedCpu_lt hN hiN
  have hcalls : (newdevBufmmioWrite env s addr (BitVec.twoPow 64 i) 4).2 =
      .schedSetaffinity i (BitVec.twoPow 64 (remappedCpu env.nprocs i)) ::
        setaffinityLoop env.nprocs true (List.range' (i + 1) (env.nVCPU - (i + 1)))
          (BitVec.twoPow 64 (remappedCpu env.nprocs i)) := by
    rw [newdevBufmmioWrite, if_neg (not_lt.mpr (bufOffset_add_le addr)), hidx]
    simp only [hht]
    exact setaffinityLoop_twoPow env.nprocs hi (by omega)
  have hinj : env.nprocs % 2 = 0 → ∀ j < env.nprocs, j ≠ i →
      remappedCpu env.nprocs j ≠ remappedCpu env.nprocs i :=
    fun heven j hj hne heq => hne (remappedCpu_inj heven hj hiN heq)
  have hrest : setaffinityLoop env.nprocs true (List.range' (i + 1) (env.nVCPU - (i + 1)))
        (BitVec.twoPow 64 (remappedCpu env.nprocs i)) = [] ↔
      remappedCpu env.nprocs i ≤ i ∨ env.nVCPU ≤ remappedCpu env.nprocs i := by
    rw [setaffinityLoop_eq_nil_iff]
    constructor
    · intro h
      by_contra hcon
      have hmem : remappedCpu env.nprocs i ∈ List.range' (i + 1) (env.nVCPU - (i + 1)) := by
        rw [List.mem_range'_1]
        omega
      have hbit := (getLsbD_twoPow_iff hlt _).mpr rfl
      rw [h _ hmem] at hbit
      exact Bool.false_ne_true hbit
    · intro h j hj
      rw [List.mem_range'_1] at hj
      rw [Bool.eq_false_iff]
      intro hbit
      rw [getLsbD_twoPow_iff hlt] at hbit
      omega
  rw [hcond, ← hrest, RemapsAlone, hcalls]
  constructor
  · rintro ⟨⟨set, heq, -⟩, -⟩
    exact (List.cons.inj heq).2
  · intro hnil
    exact ⟨⟨_, by rw [hnil], cpus_twoPow hlt⟩, hinj⟩

/-- A `newdev` with the remapping on. -/
def remappingState : NewdevState := ⟨fun _ => 0, fun _ => 0, 0, false, true, 3, 4⟩

/-- On four CPUs a request for CPU 2 binds vCPU 2 to CPU 1. -/
theorem remap_alone_two :
    RemapsAlone ⟨⟨4, 0⟩, 4⟩
      (newdevBufmmioWrite ⟨⟨4, 0⟩, 4⟩ remappingState 12#64 (BitVec.twoPow 64 2) 4).2 2 :=
  (@remap_alone_iff ⟨⟨4, 0⟩, 4⟩ remappingState rfl (by decide) 2 (by decide) (by decide) 12#64
    (by decide)).mpr (by decide)

/-- **A second vCPU is bound**: on four CPUs a request for CPU 1 binds vCPU 1 to CPU 2, and then,
with CPU 2 in the set, vCPU 2 to CPU 1. -/
theorem remap_two_calls :
    (newdevBufmmioWrite ⟨⟨4, 0⟩, 4⟩ remappingState 12#64 (BitVec.twoPow 64 1) 4).2 =
        [.schedSetaffinity 1 (BitVec.twoPow 64 2), .schedSetaffinity 2 (BitVec.twoPow 64 1)] ∧
      ¬RemapsAlone ⟨⟨4, 0⟩, 4⟩
        (newdevBufmmioWrite ⟨⟨4, 0⟩, 4⟩ remappingState 12#64 (BitVec.twoPow 64 1) 4).2 1 := by
  have hcalls : (newdevBufmmioWrite ⟨⟨4, 0⟩, 4⟩ remappingState 12#64 (BitVec.twoPow 64 1) 4).2 =
      [.schedSetaffinity 1 (BitVec.twoPow 64 2), .schedSetaffinity 2 (BitVec.twoPow 64 1)] := by
    decide
  refine ⟨hcalls, ?_⟩
  rintro ⟨⟨set, heq, -⟩, -⟩
  rw [hcalls] at heq
  simp at heq

end Huc
