import Huc.Lib.Transition
import Huc.Device.Basic

set_option relaxedAutoImplicit false
set_option autoImplicit false

/-!
# The interrupt state of the device

Five entry points of `hucdev.c` raise or lower interrupts: the registers at BAR0 offsets 8 and 12,
the BAR1 words 0 and 1, and the two injection messages. Each of them changes the line only on one
side (`hucdev_raise_irq` never lowers it, `hucdev_lower_irq` never raises it), so that the line is
right only because it was right before. Here every bit of `irq_status` is shown to be a set/reset
latch over the whole history of operations, and the line to be the disjunction of these bits.

## Main definitions

* `Huc.DeviceOp`, `Huc.deviceStep`, `Huc.deviceEffects` — one operation on the device.
* `Huc.Access`, `Huc.accessStep` — an operation or a read of BAR0.
* `Huc.DeviceOp.raisedBy`, `Huc.DeviceOp.loweredBy` — the bits an operation raises or lowers.
* `Huc.LineInv` — the line is high exactly while some bit is set.

## Main results

* `Huc.deviceStep_irq` — the effect of one operation on status and line.
* `Huc.irqStatus_latched` — status and line after any run.
-/

namespace Huc

open Transition

/-! ## Raising and lowering -/

/-- The line is high exactly while some bit of the status is set. -/
def LineInv (s : HucState) : Prop := s.irqLine = true ↔ s.irqStatus ≠ 0#32

/-- Raising keeps the line in step with the status. -/
lemma LineInv.raise {s : HucState} (h : LineInv s) (v : Word) : LineInv (hucdevRaiseIrq s v) := by
  simp only [LineInv, hucdevRaiseIrq] at h ⊢
  by_cases h0 : s.irqStatus ||| v = 0#32
  · -- nothing was raised into an empty status, so the line was low already
    have hs : s.irqStatus = 0#32 := (BitVec.or_eq_zero_iff.mp h0).1
    simp only [h0, ne_eq, not_true_eq_false, if_false, iff_false]
    intro hline
    exact h.mp hline hs
  · simp only [ne_eq, h0, not_false_eq_true, if_true]

/-- Lowering keeps the line in step with the status. -/
lemma LineInv.lower {s : HucState} (h : LineInv s) (v : Word) : LineInv (hucdevLowerIrq s v) := by
  simp only [LineInv, hucdevLowerIrq] at h ⊢
  by_cases h0 : s.irqStatus &&& ~~~v = 0#32
  · simp [h0]
  · -- some bit survives, so there was one before and the line was high
    have hs : s.irqStatus ≠ 0#32 := by
      intro hs
      exact h0 (by rw [hs, BitVec.zero_and])
    simp only [h0, if_false, ne_eq, not_false_eq_true, iff_true]
    exact h.mpr hs

/-! ## Operations -/

/-- An operation on the device: a BAR0 write, a BAR1 read or write, or a message of the host. -/
inductive DeviceOp
  | ioWrite (addr val : BitVec 64)
  | bufRead (addr : BitVec 64)
  | bufWrite (addr val : BitVec 64)
  | message (m : HucMsg)

/-- The device after an operation; `none` if it aborts. A read has no effect on the device. -/
def deviceStep (env : HostEnv) (s : HucState) : DeviceOp → Option HucState
  | .ioWrite addr val => hucdevIoWrite s addr val
  | .bufRead _ => some s
  | .bufWrite addr val => some (hucdevBufmmioWrite env s addr val 4).1
  | .message m => some (receive env s m).1

/-- What an operation on the device asks of its environment. -/
def deviceEffects (env : HostEnv) (s : HucState) : DeviceOp → List Effect
  | .ioWrite _ _ => []
  | .bufRead _ => []
  | .bufWrite addr val => (hucdevBufmmioWrite env s addr val 4).2
  | .message m => (receive env s m).2

/-- A read of BAR0, or any other operation on the device. -/
inductive Access
  | ioRead (addr : BitVec 64)
  | op (op : DeviceOp)

/-- The device after an access; a read of BAR0 has no effect on it. -/
def accessStep (env : HostEnv) (s : HucState) : Access → Option HucState
  | .ioRead _ => some s
  | .op op => deviceStep env s op

namespace DeviceOp

/-- BAR0 is only written at the implemented registers, the offsets 0 to 15. -/
def Implemented : DeviceOp → Prop
  | ioWrite addr _ => addr.toNat ≤ 15
  | _ => True

/-- The bits an operation includes in a raise. -/
def raisedBy : DeviceOp → Word
  | ioWrite addr val => if addr = 8#64 then val.setWidth 32 else 0#32
  | bufRead _ => 0#32
  | bufWrite addr val => if bufIndex addr = 0 then val.setWidth 32 else 0#32
  | message m =>
    if m.type = MsgType.programInjection.code then 1#32
    else if m.type = MsgType.programInjectionAffinity.code then 3#32
    else 0#32

/-- The bits an operation includes in a lower. -/
def loweredBy : DeviceOp → Word
  | ioWrite addr val => if addr = 12#64 then val.setWidth 32 else 0#32
  | bufRead _ => 0#32
  | bufWrite addr val => if bufIndex addr = 1 then val.setWidth 32 else 0#32
  | message _ => 0#32

/-- No operation raises and lowers. -/
lemma raisedBy_eq_zero_or_loweredBy_eq_zero (op : DeviceOp) :
    op.raisedBy = 0#32 ∨ op.loweredBy = 0#32 := by
  cases op with
  | ioWrite addr val =>
    by_cases h : addr = 8#64
    · right
      simp [loweredBy, h]
    · left
      simp [raisedBy, h]
  | bufRead addr => exact Or.inl rfl
  | bufWrite addr val =>
    by_cases h : bufIndex addr = 0
    · right
      simp [loweredBy, h]
    · left
      simp [raisedBy, h]
  | message m => exact Or.inr rfl

end DeviceOp

/-! ## The effect of one operation -/

/-- What an operation may do to the interrupt state: set the bits `r`, clear the bits `l`, and
keep the line in step. -/
def IrqUpdate (s t : HucState) (r l : Word) : Prop :=
  t.irqStatus = (s.irqStatus ||| r) &&& ~~~l ∧ (LineInv s → LineInv t)

/-- A raise sets its bits. -/
lemma irqUpdate_raise (s : HucState) (v : Word) : IrqUpdate s (hucdevRaiseIrq s v) v 0#32 :=
  ⟨by rw [BitVec.not_zero, BitVec.and_allOnes]; rfl, fun h => h.raise v⟩

/-- A lower clears its bits. -/
lemma irqUpdate_lower (s : HucState) (v : Word) : IrqUpdate s (hucdevLowerIrq s v) 0#32 v :=
  ⟨by rw [BitVec.or_zero]; rfl, fun h => h.lower v⟩

/-- An operation that touches neither the status nor the line. -/
lemma irqUpdate_of_eq {s t : HucState} (h₁ : t.irqStatus = s.irqStatus)
    (h₂ : t.irqLine = s.irqLine) : IrqUpdate s t 0#32 0#32 :=
  ⟨by rw [BitVec.or_zero, BitVec.not_zero, BitVec.and_allOnes, h₁], fun h => by
    rw [LineInv, h₁, h₂]
    exact h⟩

/-- An implemented BAR0 write does not abort and updates the interrupt state as decoded. -/
lemma hucdevIoWrite_irq (s : HucState) {addr : BitVec 64} (val : BitVec 64)
    (h : addr.toNat ≤ 15) :
    ∃ t, hucdevIoWrite s addr val = some t ∧
      IrqUpdate s t (DeviceOp.ioWrite addr val).raisedBy (DeviceOp.ioWrite addr val).loweredBy := by
  obtain ⟨h92, h4⟩ := regOffset_named h
  have h256 : addr.toNat < 256 := by omega
  have h8 : regOffset addr = 8 ↔ addr = 8#64 := regOffset_eq_iff h256 (by norm_num)
  have h12 : regOffset addr = 12 ↔ addr = 12#64 := regOffset_eq_iff h256 (by norm_num)
  simp only [hucdevIoWrite, h92, h4, dif_pos, if_true, h8, h12]
  by_cases ha8 : addr = 8#64
  · subst ha8
    exact ⟨_, rfl, irqUpdate_raise s _⟩
  · by_cases ha12 : addr = 12#64
    · subst ha12
      exact ⟨_, rfl, irqUpdate_lower s _⟩
    · simp only [if_neg ha8, if_neg ha12, DeviceOp.raisedBy, DeviceOp.loweredBy]
      exact ⟨_, rfl, irqUpdate_of_eq rfl rfl⟩

/-- A BAR1 write updates the interrupt state as decoded. -/
lemma hucdevBufmmioWrite_irq (env : HostEnv) (s : HucState) (addr val : BitVec 64) :
    IrqUpdate s (hucdevBufmmioWrite env s addr val 4).1
      (DeviceOp.bufWrite addr val).raisedBy (DeviceOp.bufWrite addr val).loweredBy := by
  rw [hucdevBufmmioWrite, if_neg (not_lt.mpr (bufOffset_add_le addr))]
  simp only [DeviceOp.raisedBy, DeviceOp.loweredBy]
  rcases hi : bufIndex addr with _ | _ | _ | _ | i
  · exact irqUpdate_raise s _
  · exact irqUpdate_lower s _
  · exact irqUpdate_of_eq rfl rfl
  · exact irqUpdate_of_eq rfl rfl
  · exact irqUpdate_of_eq rfl rfl

/-- A message raises the cause of its type, if it is an injection.

**Proof sketch.** The type found in the buffer is the message's. The two injection types raise
their own code; the affinity patch before the raise and every other branch leave status and line
alone. -/
lemma receive_irq (env : HostEnv) (s : HucState) (m : HucMsg) :
    IrqUpdate s (receive env s m).1
      (DeviceOp.message m).raisedBy (DeviceOp.message m).loweredBy := by
  simp only [receive, dispatch, type_store, DeviceOp.raisedBy, DeviceOp.loweredBy]
  rcases ht : MsgType.ofCode? m.type with _ | t
  · have hne : ∀ t : MsgType, m.type ≠ t.code := by
      intro t hmt
      rw [hmt, MsgType.ofCode?_code] at ht
      exact Option.some_ne_none t ht
    simp only [if_neg (hne _)]
    exact irqUpdate_of_eq rfl rfl
  · rw [MsgType.ofCode?_eq_some.mp ht]
    cases t with
    | programInjection => exact irqUpdate_raise (s.store m) 1#32
    | programInjectionAffinity => exact irqUpdate_raise { s.store m with buf := _ } 3#32
    | _ => exact irqUpdate_of_eq rfl rfl

/-- **The effect of one operation**: an operation on implemented registers does not abort, sets
the bits it raises, clears the bits it lowers and keeps the line in step with the status. -/
lemma deviceStep_irq (env : HostEnv) (s : HucState) (op : DeviceOp) (h : op.Implemented) :
    ∃ t, deviceStep env s op = some t ∧ IrqUpdate s t op.raisedBy op.loweredBy := by
  cases op with
  | ioWrite addr val => exact hucdevIoWrite_irq s val h
  | bufRead addr => exact ⟨s, rfl, irqUpdate_of_eq rfl rfl⟩
  | bufWrite addr val => exact ⟨_, rfl, hucdevBufmmioWrite_irq env s addr val⟩
  | message m => exact ⟨_, rfl, receive_irq env s m⟩

/-! ## Whole runs -/

/-- A run on implemented registers does not abort; it keeps the line in step, and each bit of
the status evolves as a latch.

**Proof sketch.** Induction on the operations with `deviceStep_irq`. -/
lemma run_deviceStep_irq (env : HostEnv) (ops : List DeviceOp) (hops : ∀ op ∈ ops, op.Implemented)
    (s : HucState) (hs : LineInv s) :
    ∃ t, run (deviceStep env) s ops = some t ∧ LineInv t ∧
      ∀ i < 32, t.irqStatus.getLsbD i = latch (fun op => op.raisedBy.getLsbD i)
        (fun op => op.loweredBy.getLsbD i) (s.irqStatus.getLsbD i) ops := by
  induction ops generalizing s with
  | nil => exact ⟨s, rfl, hs, fun i _ => rfl⟩
  | cons op ops ih =>
    obtain ⟨u, hsu, hstatus, hline⟩ := deviceStep_irq env s op (hops op List.mem_cons_self)
    obtain ⟨t, hut, ht, hbits⟩ := ih (fun o ho => hops o (List.mem_cons_of_mem op ho)) u (hline hs)
    refine ⟨t, run_cons.mpr ⟨u, hsu, hut⟩, ht, ?_⟩
    intro i hi
    rw [hbits i hi, hstatus]
    simp [latch, hi]

/-- **Interrupt state over whole runs.** From an idle device, after any run of BAR0 writes at the
implemented registers, BAR1 reads and writes, and messages: the line is high exactly if the
status is not zero, and a bit of the status is set exactly if some operation of the run included
it in a raise and no later one included it in a lower.

**Proof sketch.** `run_deviceStep_irq` makes each bit a latch that starts off; since no operation
raises and lowers, `Transition.latch_iff` reads the latch off the history. -/
theorem irqStatus_latched (env : HostEnv) (s : HucState) (hstatus : s.irqStatus = 0#32)
    (hline : s.irqLine = false) (ops : List DeviceOp) (hops : ∀ op ∈ ops, op.Implemented) :
    ∃ t, run (deviceStep env) s ops = some t ∧
      (t.irqLine = true ↔ t.irqStatus ≠ 0#32) ∧
      ∀ i, t.irqStatus.getLsbD i = true ↔
        ∃ before op after, ops = before ++ op :: after ∧ op.raisedBy.getLsbD i = true ∧
          ∀ op' ∈ after, op'.loweredBy.getLsbD i = false := by
  have hs : LineInv s := by simp [LineInv, hstatus, hline]
  obtain ⟨t, hrun, ht, hbits⟩ := run_deviceStep_irq env ops hops s hs
  refine ⟨t, hrun, ht, ?_⟩
  intro i
  have hex : ∀ op ∈ ops, op.raisedBy.getLsbD i = true → op.loweredBy.getLsbD i = false := by
    intro op _ hr
    rcases op.raisedBy_eq_zero_or_loweredBy_eq_zero with h | h
    · simp [h] at hr
    · simp [h]
  by_cases hi : i < 32
  · rw [hbits i hi, hstatus, BitVec.getLsbD_zero, latch_iff hex]
    rfl
  · -- there is no such bit, neither in the status nor in an operand
    have hzero : ∀ w : Word, w.getLsbD i = false := fun w => BitVec.getLsbD_of_ge w i (by omega)
    simp [hzero]

/-- A device at rest, for closed examples. -/
def restState : HucState := ⟨fun _ => 0, fun _ => 0, 0, false, false, 3, 4⟩

/-- The causes 1 and 3 share a bit: raising both and lowering 1 leaves bit 1 and a high line. -/
theorem irqStatus_latched_rest :
    ∃ t, run (deviceStep ⟨2, 0⟩) restState
        [.ioWrite 8#64 1#64, .bufWrite 0#64 3#64, .bufRead 16#64, .bufWrite 4#64 1#64] = some t ∧
      (t.irqLine = true ↔ t.irqStatus ≠ 0#32) ∧
      ∀ i, t.irqStatus.getLsbD i = true ↔
        ∃ before op after,
          [DeviceOp.ioWrite 8#64 1#64, .bufWrite 0#64 3#64, .bufRead 16#64, .bufWrite 4#64 1#64] =
            before ++ op :: after ∧ op.raisedBy.getLsbD i = true ∧
          ∀ op' ∈ after, op'.loweredBy.getLsbD i = false :=
  irqStatus_latched ⟨2, 0⟩ restState rfl rfl _ (by
    intro op hop
    fin_cases hop
    · exact (by decide : (8#64).toNat ≤ 15)
    · trivial
    · trivial
    · trivial)

end Huc
