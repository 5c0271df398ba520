import Huc.Device.Interrupt
import Huc.Guest.Basic

set_option relaxedAutoImplicit false
set_option autoImplicit false

/-!
# BAR1 as a memory

BAR1 is registered with `HUCDEV_BUF_SIZE * sizeof(uint32_t)` bytes, the size of the buffer. The
callbacks test the offset against that size too, but only after they have cut it down with
`HUCDEV_BUF_MASK`, which is as wide as the number of words. So the guest sees the lowest quarter of
the buffer four times, the control words included.

## Main definitions

* `Huc.FaithfulAt` — a write to BAR1 behaves as a write to memory.
* `Huc.Inert` — a write to a word has no effect and finds its value there already.

## Main results

* `Huc.faithfulAt_iff` — when a write to BAR1 behaves as a write to memory, by the words decoded.
* `Huc.window_faithful_iff` — the same for the offsets of the registered window.
-/

namespace Huc

/-! ## Words decoded -/

/-- What a read returns, by the word decoded. -/
lemma hucdevBufmmioRead_eq (s : HucState) (addr : BitVec 64) :
    hucdevBufmmioRead s addr 4 =
      (if bufIndex addr = 0 then s.irqStatus else s.buf.word (4 * bufIndex addr)).setWidth 64 := by
  rw [hucdevBufmmioRead, if_neg (not_lt.mpr (bufOffset_add_le addr))]
  split_ifs
  · rfl
  · rfl

/-- A word widened to the width of an access is determined by it. -/
lemma setWidth_inj {v w : Word} : v.setWidth 64 = w.setWidth 64 ↔ v = w := by
  constructor
  · intro h
    have h := congrArg (fun x : BitVec 64 => x.setWidth 32) h
    simpa using h
  · rintro rfl
    rfl

/-- A raise of bits that are set already, with the line in step, changes nothing. -/
lemma hucdevRaiseIrq_eq_self {s : HucState} {v : Word} (hv : s.irqStatus ||| v = s.irqStatus)
    (hline : s.irqStatus ≠ 0#32 → s.irqLine = true) : hucdevRaiseIrq s v = s := by
  have hif : (if s.irqStatus ≠ 0#32 then true else s.irqLine) = s.irqLine := by
    split_ifs with h0
    · exact (hline h0).symm
    · rfl
  simp only [hucdevRaiseIrq, hv, hif]

/-- A lower of bits that are clear already, with the line in step, changes nothing. -/
lemma hucdevLowerIrq_eq_self {s : HucState} {v : Word} (hv : s.irqStatus &&& ~~~v = s.irqStatus)
    (hline : s.irqStatus = 0#32 → s.irqLine = false) : hucdevLowerIrq s v = s := by
  have hif : (if s.irqStatus = 0#32 then false else s.irqLine) = s.irqLine := by
    split_ifs with h0
    · exact (hline h0).symm
    · rfl
  simp only [hucdevLowerIrq, hv, hif]

/-! ## Faithful writes -/

/-- The write of `v` at `a` behaves as a write to memory as far as `a` and `b` tell: `a` reads `v`,
`b` reads what it did, and nothing else happens. -/
structure FaithfulAt (env : HostEnv) (s : HucState) (a b : BitVec 64) (v : Word) : Prop where
  readBack : hucdevBufmmioRead (hucdevBufmmioWrite env s a (v.setWidth 64) 4).1 a 4 = v.setWidth 64
  frame : hucdevBufmmioRead (hucdevBufmmioWrite env s a (v.setWidth 64) 4).1 b 4 =
    hucdevBufmmioRead s b 4
  irqStatus : (hucdevBufmmioWrite env s a (v.setWidth 64) 4).1.irqStatus = s.irqStatus
  irqLine : (hucdevBufmmioWrite env s a (v.setWidth 64) 4).1.irqLine = s.irqLine
  connectFd : (hucdevBufmmioWrite env s a (v.setWidth 64) 4).1.connectFd = s.connectFd
  effects : (hucdevBufmmioWrite env s a (v.setWidth 64) 4).2 = []

/-- The word reads `v` already, and a write of `v` to it has no effect in this state. -/
def Inert (env : HostEnv) (s : HucState) (index : ℕ) (v : Word) : Prop :=
  match index with
  | 0 => s.irqStatus = v ∧ (v ≠ 0#32 → s.irqLine = true)
  | 1 => s.buf.word 4 = v ∧ s.irqStatus &&& v = 0#32 ∧ (s.irqStatus = 0#32 → s.irqLine = false)
  | 2 => False
  | 3 => s.buf.word 12 = v ∧ ∀ i < env.nVCPU, v.getLsbD i = false
  | index => s.buf.word (4 * index) = v

section Faithful

variable {env : HostEnv} {s : HucState} {a b : BitVec 64} {v : Word}

/-- The value written, as the device narrows it. -/
lemma setWidth_setWidth_val (v : Word) : (v.setWidth 64).setWidth 32 = v := by
  simp

/-- The vCPUs that the value written addresses. -/
lemma getLsbD_setWidth_val (v : Word) (i : ℕ) : (v.setWidth 64).getLsbD i = v.getLsbD i := by
  rw [BitVec.getLsbD_setWidth]
  by_cases hi : i < 64
  · simp [hi]
  · simp [hi, BitVec.getLsbD_of_ge v i (by omega)]

/-- A write that changes nothing and finds its value there is faithful. -/
lemma faithfulAt_of_unchanged
    (hwrite : hucdevBufmmioWrite env s a (v.setWidth 64) 4 = (s, []))
    (hread : hucdevBufmmioRead s a 4 = v.setWidth 64) : FaithfulAt env s a b v := by
  constructor <;> rw [hwrite]
  exact hread

/-- A write to word 0 raises. -/
lemma faithfulAt_zero_iff (hi : bufIndex a = 0) : FaithfulAt env s a b v ↔ Inert env s 0 v := by
  have hwrite : hucdevBufmmioWrite env s a (v.setWidth 64) 4 = (hucdevRaiseIrq s v, []) := by
    rw [bufmmioWrite_zero hi, setWidth_setWidth_val]
  constructor
  · intro h
    have hback := h.readBack
    have hline := h.irqLine
    have hstatus := h.irqStatus
    rw [hwrite] at hback hline hstatus
    rw [hucdevBufmmioRead_eq, if_pos hi, hstatus, setWidth_inj] at hback
    refine ⟨hback, fun hv => ?_⟩
    have hraised : s.irqStatus ||| v ≠ 0#32 := by
      rw [hback, BitVec.or_self]
      exact hv
    rw [← hline, hucdevRaiseIrq, if_pos hraised]
  · rintro ⟨hstatus, hline⟩
    apply faithfulAt_of_unchanged
    · rw [hwrite, hucdevRaiseIrq_eq_self]
      · rw [hstatus, BitVec.or_self]
      · rw [hstatus]
        exact hline
    · rw [hucdevBufmmioRead_eq, if_pos hi, hstatus]

/-- A write to word 1 lowers.

**Proof sketch.** The write lowers the bits of the value and leaves the word as it is. So reading
the word back gives the value only if it was there, and the status and the line stay as they are
exactly if no bit of the value is raised and the line is not high over an empty status. -/
lemma faithfulAt_one_iff (hi : bufIndex a = 1) : FaithfulAt env s a b v ↔ Inert env s 1 v := by
  have hwrite : hucdevBufmmioWrite env s a (v.setWidth 64) 4 = (hucdevLowerIrq s v, []) := by
    rw [bufmmioWrite_one hi, setWidth_setWidth_val]
  have hread : ∀ t : HucState, hucdevBufmmioRead t a 4 = (t.buf.word 4).setWidth 64 := by
    intro t
    rw [hucdevBufmmioRead_eq, hi]
    rfl
  have hkept : s.irqStatus &&& ~~~v = s.irqStatus ↔ s.irqStatus &&& v = 0#32 := by
    simp only [BitVec.eq_of_getLsbD_eq_iff, BitVec.getLsbD_and, BitVec.getLsbD_not,
      BitVec.getLsbD_zero]
    apply forall₂_congr
    intro i hi
    cases s.irqStatus.getLsbD i <;> simp [hi]
  constructor
  · intro h
    have hback := h.readBack
    have hline := h.irqLine
    have hstatus := h.irqStatus
    rw [hwrite] at hback hline hstatus
    rw [hread, setWidth_inj] at hback
    refine ⟨hback, hkept.mp hstatus, fun hzero => ?_⟩
    have hlowered : s.irqStatus &&& ~~~v = 0#32 := hstatus.trans hzero
    rw [← hline, hucdevLowerIrq, if_pos hlowered]
  · rintro ⟨hword, hmask, hline⟩
    apply faithfulAt_of_unchanged
    · rw [hwrite, hucdevLowerIrq_eq_self (hkept.mpr hmask) hline]
    · rw [hread, hword]

/-- A write to word 2 is the doorbell. -/
lemma not_faithfulAt_two (hi : bufIndex a = 2) : ¬FaithfulAt env s a b v := by
  intro h
  have heff := h.effects
  rw [bufmmioWrite_two hi] at heff
  exact List.cons_ne_nil _ _ heff

/-- A write to word 3 binds vCPUs and stores nothing. -/
lemma faithfulAt_three_iff (hi : bufIndex a = 3) : FaithfulAt env s a b v ↔ Inert env s 3 v := by
  have hwrite : hucdevBufmmioWrite env s a (v.setWidth 64) 4 =
      (s, bindVCPUs env.nVCPU (fun i => (v.setWidth 64).getLsbD i) (v.setWidth 64)) :=
    bufmmioWrite_three hi
  have hread : hucdevBufmmioRead s a 4 = (s.buf.word 12).setWidth 64 := by
    rw [hucdevBufmmioRead_eq, hi]
    rfl
  have hnone : bindVCPUs env.nVCPU (fun i => (v.setWidth 64).getLsbD i) (v.setWidth 64) = [] ↔
      ∀ i < env.nVCPU, v.getLsbD i = false := by
    simp only [bindVCPUs, List.map_eq_nil_iff, List.filter_eq_nil_iff, List.mem_range,
      getLsbD_setWidth_val, Bool.not_eq_true]
  constructor
  · intro h
    have hback := h.readBack
    have heff := h.effects
    rw [hwrite] at hback heff
    rw [hread, setWidth_inj] at hback
    exact ⟨hback, hnone.mp heff⟩
  · rintro ⟨hword, hbits⟩
    apply faithfulAt_of_unchanged
    · rw [hwrite, hnone.mpr hbits]
    · rw [hread, hword]

/-- A write to a word of the buffer stores the value there.

**Proof sketch.** The write stores the value in the word, and the only other word that can change is
a word at the same index. So the read of `b` changes exactly if both are the same word and it held
another value. -/
lemma faithfulAt_iff_of_four_le (hi : 4 ≤ bufIndex a) :
    FaithfulAt env s a b v ↔ bufIndex a ≠ bufIndex b ∨ Inert env s (bufIndex a) v := by
  have hwrite : hucdevBufmmioWrite env s a (v.setWidth 64) 4 =
      ({ s with buf := s.buf.write (4 * bufIndex a) (leBytes v) }, []) := by
    rw [bufmmioWrite_of_four_le hi, setWidth_setWidth_val]
  have hinert : Inert env s (bufIndex a) v ↔ s.buf.word (4 * bufIndex a) = v := by
    obtain ⟨k, hk⟩ := Nat.exists_eq_add_of_le' hi
    rw [hk]
    rfl
  rw [hinert]
  constructor
  · intro h
    by_cases hab : bufIndex a = bufIndex b
    · right
      have hframe := h.frame
      rw [hwrite, hucdevBufmmioRead_eq, hucdevBufmmioRead_eq, ← hab, if_neg (by omega),
        if_neg (by omega), setWidth_inj, ByteMem.word_write_self] at hframe
      exact hframe.symm
    · exact Or.inl hab
  · intro h
    refine ⟨?_, ?_, ?_, ?_, ?_, ?_⟩ <;> rw [hwrite]
    · rw [hucdevBufmmioRead_eq, if_neg (by omega), ByteMem.word_write_self]
    · rw [hucdevBufmmioRead_eq, hucdevBufmmioRead_eq, setWidth_inj]
      by_cases hb0 : bufIndex b = 0
      · rw [if_pos hb0, if_pos hb0]
      · rw [if_neg hb0, if_neg hb0]
        by_cases hab : bufIndex a = bufIndex b
        · rw [← hab, ByteMem.word_write_self]
          exact (h.resolve_left (not_not.mpr hab)).symm
        · apply ByteMem.word_write_of_disjoint
          simp only [length_leBytes]
          omega

end Faithful

/-- **When a write to BAR1 is faithful**, by the words decoded: it decodes to a word of the buffer
and the other access to another word, or it is inert. -/
lemma faithfulAt_iff {env : HostEnv} {s : HucState} {a b : BitVec 64} {v : Word} :
    FaithfulAt env s a b v ↔
      (4 ≤ bufIndex a ∧ bufIndex a ≠ bufIndex b) ∨ Inert env s (bufIndex a) v := by
  by_cases hi : 4 ≤ bufIndex a
  · rw [faithfulAt_iff_of_four_le hi]
    simp only [hi, true_and]
  · simp only [hi, false_and, false_or]
    have hcases : bufIndex a = 0 ∨ bufIndex a = 1 ∨ bufIndex a = 2 ∨ bufIndex a = 3 := by omega
    rcases hcases with h | h | h | h <;> rw [h]
    · exact faithfulAt_zero_iff h
    · exact faithfulAt_one_iff h
    · exact iff_of_false (not_faithfulAt_two h) id
    · exact faithfulAt_three_iff h

/-- The word decoded for an offset of the window. -/
lemma bufIndex_ofNat {a : ℕ} (h : a < bufBytes) :
    bufIndex (BitVec.ofNat 64 a) = a % 65536 / 4 := by
  simp only [bufBytes] at h
  rw [bufIndex, bufOffset_ofNat (by omega), Nat.shiftRight_eq_div_pow]

/-- **When BAR1 is a faithful memory over its registered size**: for every state of the device,
every number of vCPUs, all word-aligned offsets `a` and `b` of the window and every value `v`, after
a write of `v` at `a` a read at `a` returns `v`, a read at `b` returns what it did before, and
interrupt state, affinities and socket are untouched, if and only if `a` stays above the control
words after the mask and differs from `b` there, or the word that `a` decodes to reads `v` already
and the write has no effect on it.

**Proof sketch.** By cases on the word decoded. The two accesses collide exactly if the mask makes
their offsets equal, and below 16 the write goes to a control word. -/
theorem window_faithful_iff (env : HostEnv) (s : HucState) {a b : ℕ} (ha4 : a % 4 = 0)
    (hb4 : b % 4 = 0) (ha : a < bufBytes) (hb : b < bufBytes) (v : Word) :
    FaithfulAt env s (BitVec.ofNat 64 a) (BitVec.ofNat 64 b) v ↔
      (16 ≤ a % 65536 ∧ a % 65536 ≠ b % 65536) ∨ Inert env s (a % 65536 / 4) v := by
  rw [faithfulAt_iff, bufIndex_ofNat ha, bufIndex_ofNat hb]
  have hge : 4 ≤ a % 65536 / 4 ↔ 16 ≤ a % 65536 := by omega
  have hne : a % 65536 / 4 ≠ b % 65536 / 4 ↔ a % 65536 ≠ b % 65536 := by omega
  rw [hge, hne]

/-- Two offsets above 65536 that the mask does not take to one word. -/
theorem window_faithful_two :
    FaithfulAt ⟨2, 0⟩ restState (BitVec.ofNat 64 65556) (BitVec.ofNat 64 131096) 0x95#32 :=
  (window_faithful_iff ⟨2, 0⟩ restState (by decide) (by decide) (by decide) (by decide)
    0x95#32).mpr (Or.inl (by decide))

/-- **The window repeats itself**: a write at offset 65552 changes what a read at 16 returns, and a
write at offset 65536 raises an interrupt. -/
theorem window_aliased :
    hucdevBufmmioRead restState 16#64 4 = 0#64 ∧
      hucdevBufmmioRead (hucdevBufmmioWrite ⟨2, 0⟩ restState 65552#64 0x95#64 4).1 16#64 4 =
        0x95#64 ∧
      ¬FaithfulAt ⟨2, 0⟩ restState 65552#64 16#64 0x95#32 ∧
      (hucdevBufmmioWrite ⟨2, 0⟩ restState 65536#64 0x95#64 4).1.irqStatus = 0x95#32 ∧
      ¬FaithfulAt ⟨2, 0⟩ restState 65536#64 16#64 0x95#32 := by
  refine ⟨by decide, by decide, ?_, by decide, ?_⟩
  · intro h
    exact absurd h.frame (by decide)
  · intro h
    exact absurd h.irqStatus (by decide)

end Huc
