import Huc.Device.Basic

set_option relaxedAutoImplicit false
set_option autoImplicit false

/-!
# The device `newdev`

The predecessor of `hucdev`, added to QEMU by `0001-Add-newdev-for-hyperupcall.patch`. It has the
same windows, the same layout of the buffer and the same messages, and still the hyperthread
remapping that `hucdev.c` has taken out: with `hyperthreading_remapping` on, an affinity request for
a single CPU is bound to another one. The constants `NEWDEV_REG_MASK`, `NEWDEV_BUF_MASK`,
`NEWDEV_BUF_SIZE` and `NEWDEV_REG_END` have the values of their `HUCDEV_` counterparts, so that the
decoders are those of `Huc.Device.Basic`.

## Main definitions

* `Huc.NewdevState` — the device's state.
* `Huc.newdevIoRead`, `Huc.newdevIoWrite` — the BAR0 callbacks.
* `Huc.mapHyperthread` — `map_hyperthread`.
* `Huc.newdevBufmmioRead`, `Huc.setaffinityLoop`, `Huc.newdevBufmmioWrite` — the BAR1 callbacks.
* `Huc.newdevDispatch`, `Huc.newdevReceive` — the message switch.

## Main results

* `Huc.setaffinityLoop_of_not_remapping` — without the remapping the loop over the vCPUs is the one
  of `hucdev`.
* `Huc.newdevDispatch_effects` — a message makes both devices ask the same of their environment.
-/

namespace Huc

/-! ## State -/

/-- What `newdev` finds around it: besides what `hucdev` does, the number of host CPUs that
`get_nprocs` returns. -/
structure NewdevEnv extends HostEnv where
  nprocs : ℕ

/-- `NewdevState`. The field `irqLine` is the level last given to `pci_set_irq`. -/
structure NewdevState where
  ioregs : Fin regCount → Word
  buf : ByteMem
  irqStatus : Word
  irqLine : Bool
  hyperthreadingRemapping : Bool
  listenFd : ℤ
  connectFd : ℤ

/-- `newdev_raise_irq`. -/
def newdevRaiseIrq (s : NewdevState) (v : Word) : NewdevState :=
  let status := s.irqStatus ||| v
  { s with irqStatus := status, irqLine := if status ≠ 0#32 then true else s.irqLine }

/-- `newdev_lower_irq`. -/
def newdevLowerIrq (s : NewdevState) (v : Word) : NewdevState :=
  let status := s.irqStatus &&& ~~~v
  { s with irqStatus := status, irqLine := if status = 0#32 then false else s.irqLine }

/-- The header in the buffer: `(struct bpf_injection_msg_header*) newdev->buf + 4`. -/
def NewdevState.header (s : NewdevState) : HucMsgHeader :=
  .ofBytes (s.buf headerOffset) (s.buf (headerOffset + 1)) (s.buf (headerOffset + 2))
    (s.buf (headerOffset + 3))

/-- The payload in the buffer, as long as the header says. -/
def NewdevState.payload (s : NewdevState) : List Byte :=
  s.buf.read payloadOffset s.header.payloadLen.toNat

/-! ## Registers and reads -/

/-- `newdev_io_read`; `none` when `DBG` reads past the end of `regnames`. -/
def newdevIoRead (s : NewdevState) (addr : BitVec 64) : Option (BitVec 64) :=
  let addr := regOffset addr
  if h : addr < 92 then
    -- the name of the register is printed, without the `assert` of `newdev_io_write`
    if addr >>> 2 < 4 then
      if addr = 0 then some (s.irqStatus.setWidth 64)
      else some ((s.ioregs ⟨addr >>> 2, shiftRight_lt_regCount h⟩).setWidth 64)
    else none
  else some 0

/-- `newdev_io_write`; `none` when `assert(index < ARRAY_SIZE(regnames))` fails. -/
def newdevIoWrite (s : NewdevState) (addr val : BitVec 64) : Option NewdevState :=
  let addr := regOffset addr
  if h : addr < 92 then
    if addr >>> 2 < 4 then
      -- `case NEWDEV_REG_RAISE_IRQ` has no `break` and falls through to the next case
      if addr = 8 then some (newdevLowerIrq (newdevRaiseIrq s (val.setWidth 32)) (val.setWidth 32))
      else if addr = 12 then some (newdevLowerIrq s (val.setWidth 32))
      else
        some { s with
          ioregs := Function.update s.ioregs ⟨addr >>> 2, shiftRight_lt_regCount h⟩
            (val.setWidth 32) }
    else none
  else some s

/-- `newdev_bufmmio_read`. -/
def newdevBufmmioRead (s : NewdevState) (addr : BitVec 64) (size : ℕ) : BitVec 64 :=
  if bufOffset addr + size > bufBytes then 0
  else if bufIndex addr = 0 then s.irqStatus.setWidth 64
  else (s.buf.word (4 * bufIndex addr)).setWidth 64

/-! ## Hyperthread remapping -/

/-- The loop of `map_hyperthread` over the CPUs below `k`: the variables `setCount` and `settedCpu`,
the latter zero where the code leaves it uninitialised. -/
def countSet (set : BitVec 64) : ℕ → ℕ × ℕ
  | 0 => (0, 0)
  | k + 1 =>
    let r := countSet set k
    if set.getLsbD k then (r.1 + 1, k) else r

/-- Where `map_hyperthread` moves a CPU: the even ones to the lower half of the host's CPUs, the odd
ones to the upper half. -/
def remappedCpu (nprocs settedCpu : ℕ) : ℕ :=
  if settedCpu % 2 = 0 then settedCpu / 2 else nprocs / 2 + settedCpu / 2

/-- `map_hyperthread`: the set as it leaves it, and the value it returns. `CPU_SET_S` has no effect
past the end of the set. -/
def mapHyperthread (nprocs : ℕ) (set : BitVec 64) : BitVec 64 × ℤ :=
  let r := countSet set 64
  if r.1 = 1 then (BitVec.twoPow 64 (remappedCpu nprocs r.2), remappedCpu nprocs r.2)
  else (set, -1)

/-! ## BAR1 writes -/

/-- The loop over the vCPUs for a write to word 3, for the vCPUs that are left. A remapping changes
the set that the later vCPUs are tested in. -/
def setaffinityLoop (nprocs : ℕ) (remapping : Bool) : List ℕ → BitVec 64 → List Effect
  | [], _ => []
  | i :: is, set =>
    if set.getLsbD i then
      let set := if remapping then (mapHyperthread nprocs set).1 else set
      .schedSetaffinity i set :: setaffinityLoop nprocs remapping is set
    else setaffinityLoop nprocs remapping is set

/-- `newdev_bufmmio_write`. -/
def newdevBufmmioWrite (env : NewdevEnv) (s : NewdevState) (addr val : BitVec 64) (size : ℕ) :
    NewdevState × List Effect :=
  if bufOffset addr + size > bufBytes then (s, [])
  else
    match bufIndex addr with
    | 0 => (newdevRaiseIrq s (val.setWidth 32), [])
    | 1 => (newdevLowerIrq s (val.setWidth 32), [])
    | 2 =>
      -- the doorbell sends the stored message back and clears its own word
      ({ s with buf := s.buf.write 8 (leBytes 0#32) },
        [.send s.connectFd (s.buf.read headerOffset 4), .send s.connectFd s.payload])
    | 3 =>
      (s, setaffinityLoop env.nprocs s.hyperthreadingRemapping (List.range env.nVCPU) val)
    | index => ({ s with buf := s.buf.write (4 * index) (leBytes (val.setWidth 32)) }, [])

/-- Without the remapping the loop binds the vCPUs in the set to the set. -/
lemma setaffinityLoop_of_not_remapping (nprocs : ℕ) (is : List ℕ) (set : BitVec 64) :
    setaffinityLoop nprocs false is set =
      (is.filter fun i => set.getLsbD i).map fun i => .schedSetaffinity i set := by
  induction is with
  | nil => rfl
  | cons i is ih =>
    rw [setaffinityLoop]
    by_cases h : set.getLsbD i = true
    · rw [if_pos h, List.filter_cons_of_pos h, List.map_cons]
      exact congrArg _ ih
    · rw [if_neg h, List.filter_cons_of_neg h, ih]

/-! ## Messages -/

/-- The switch of `connected_handle_read` on the type of the stored header. -/
def newdevDispatch (env : NewdevEnv) (s : NewdevState) : NewdevState × List Effect :=
  match MsgType.ofCode? s.header.type with
  | some .programInjection => (newdevRaiseIrq s MsgType.programInjection.irq, [])
  | some .programInjectionAffinity =>
    -- `myaffinityinfo->n_vCPU` is the second 16-bit field of the payload
    let count : BitVec 16 := BitVec.ofNat 16 env.nVCPU
    let s := { s with
      buf := s.buf.write (payloadOffset + 2) [count.extractLsb' 0 8, count.extractLsb' 8 8] }
    (newdevRaiseIrq s MsgType.programInjectionAffinity.irq, [])
  | some .reset => (s, bindVCPUs env.nVCPU (fun _ => true) 0xFFFFFFFF#64)
  | some .pinOnSame => (s, bindVCPUs env.nVCPU (fun _ => true) (env.cpuAlloc ||| 1#64))
  | some .htRemapping =>
    ({ s with hyperthreadingRemapping := !s.hyperthreadingRemapping }, [])
  | _ => (s, [])

/-- The device after a message has been stored in the buffer and before it is dispatched. -/
def NewdevState.store (s : NewdevState) (m : HucMsg) : NewdevState :=
  { s with buf := (s.buf.write headerOffset m.header.bytes).write payloadOffset m.payload }

/-- `connected_handle_read` for one fully received message. -/
def newdevReceive (env : NewdevEnv) (s : NewdevState) (m : HucMsg) : NewdevState × List Effect :=
  newdevDispatch env (s.store m)

/-- **The calls a message leads to** are those of `hucdev` for a message of the same type. -/
lemma newdevDispatch_effects (env : NewdevEnv) {s : NewdevState} {t : HucState}
    (h : s.header.type = t.header.type) :
    (newdevDispatch env s).2 = (dispatch env.toHostEnv t).2 := by
  rw [newdevDispatch, dispatch, h]
  rcases MsgType.ofCode? t.header.type with _ | type
  · rfl
  · cases type <;> rfl

/-- The header of a stored message. -/
@[simp] lemma header_newdevStore (s : NewdevState) (m : HucMsg) : (s.store m).header = m.header :=
  header_store ⟨s.ioregs, s.buf, s.irqStatus, s.irqLine, s.hyperthreadingRemapping, s.listenFd,
    s.connectFd⟩ m

end Huc
