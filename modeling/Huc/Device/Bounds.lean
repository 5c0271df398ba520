import Huc.Device.Interrupt

set_option relaxedAutoImplicit false
set_option autoImplicit false

/-!
# The device under a hostile guest

The guest chooses every offset and value of its accesses to the two windows, and can rewrite the
header in the buffer before it rings the doorbell. What keeps the device inside its memory differs
from path to path: the limit of 92 bytes for the registers, the mask of 16 bits for the buffer, and
the 16 bits of the length field for the socket calls.

Here every access to `ioregs` and `buf`, every range given to `recv` or `send`, and the assertion
of `hucdev_io_write` are checked explicitly, and the checked device is compared with the device. All
memory accesses are in bounds. The assertion is not: the register file has 23 words, but
the table of names the assertion looks at has 4 entries, so a write to any other register aborts.

## Main definitions

* `Huc.DeviceFault` — an abort or an access out of bounds.
* `Huc.BarOp`, `Huc.barStep` — an access of the guest or an event of the connection.
* `Huc.checkedStep` — the same with every access checked.

## Main results

* `Huc.checkedStep_eq` — the checked device is the device, and fails only at the assertion.
* `Huc.checkedRun_ok_iff` — the runs that do not fail.
* `Huc.checkedRun_ioWrite` — a write that aborts.
-/

namespace Huc

/-! ## Operations -/

/-- An access of four bytes by the guest, or a call of `handle_acceptfd` for the bytes of `k`. -/
inductive BarOp
  | ioRead (addr : BitVec 64)
  | ioWrite (addr val : BitVec 64)
  | bufRead (addr : BitVec 64)
  | bufWrite (addr val : BitVec 64)
  | acceptfd (k : Socket)

/-- The device after an operation; `none` if it aborts. -/
def barStep (env : HostEnv) (s : HucState) : BarOp → Option HucState
  | .ioRead _ => some s
  | .ioWrite addr val => hucdevIoWrite s addr val
  | .bufRead _ => some s
  | .bufWrite addr val => some (hucdevBufmmioWrite env s addr val 4).1
  | .acceptfd k => some (handleAcceptfd env s k).state

/-- The access is to a word inside the window as it is registered. -/
def BarOp.InBar : BarOp → Prop
  | .ioRead addr => addr.toNat < 256 ∧ addr.toNat % 4 = 0
  | .ioWrite addr _ => addr.toNat < 256 ∧ addr.toNat % 4 = 0
  | .bufRead addr => addr.toNat < bufBytes ∧ addr.toNat % 4 = 0
  | .bufWrite addr _ => addr.toNat < bufBytes ∧ addr.toNat % 4 = 0
  | .acceptfd _ => True

/-- The access is a write to one of the registers 4 to 22. -/
def BarOp.Unnamed : BarOp → Prop
  | .ioWrite addr _ => 16 ≤ addr.toNat ∧ addr.toNat < 92
  | _ => False

/-! ## Checked accesses -/

/-- What the device must not do. -/
inductive DeviceFault
  /-- The assertion of `hucdev_io_write` fails. -/
  | assertion
  /-- `ioregs` is indexed out of bounds. -/
  | ioregs (index : ℕ)
  /-- `buf` is indexed out of bounds. -/
  | buf (index : ℕ)
  /-- A range of bytes leaves the allocation of `buf`. -/
  | range (start len : ℕ)
  deriving DecidableEq

/-- The computation fails with a fault unless a condition holds. -/
def check (p : Prop) [Decidable p] (fault : DeviceFault) : Except DeviceFault Unit :=
  if p then .ok () else .error fault

/-- A condition that holds does not stop the computation. -/
lemma check_bind {α : Type} {p : Prop} [Decidable p] (hp : p) (fault : DeviceFault)
    (next : Unit → Except DeviceFault α) : (check p fault >>= next) = next () := by
  rw [check, if_pos hp]
  rfl

/-- A condition that fails stops the computation. -/
lemma check_bind_error {α : Type} {p : Prop} [Decidable p] (hp : ¬p) (fault : DeviceFault)
    (next : Unit → Except DeviceFault α) : (check p fault >>= next) = .error fault := by
  rw [check, if_neg hp]
  rfl

/-- `hucdev->ioregs[index]`. -/
def HucState.loadIoreg (s : HucState) (index : ℕ) : Except DeviceFault Word :=
  if h : index < regCount then .ok (s.ioregs ⟨index, h⟩) else .error (.ioregs index)

/-- `hucdev->ioregs[index] = v`. -/
def HucState.storeIoreg (s : HucState) (index : ℕ) (v : Word) : Except DeviceFault HucState :=
  if h : index < regCount then
    .ok { s with ioregs := Function.update s.ioregs ⟨index, h⟩ v }
  else .error (.ioregs index)

/-- `hucdev->buf[index]` is inside the 65536 words. -/
def checkBuf (index : ℕ) : Except DeviceFault Unit := check (index < 65536) (.buf index)

/-- The `len` bytes from byte `start` of `buf` on are inside the allocation. -/
def checkRange (start len : ℕ) : Except DeviceFault Unit :=
  check (start + len ≤ bufBytes) (.range start len)

/-- `hucdev_io_read` with its accesses checked. -/
def checkedIoRead (s : HucState) (addr : BitVec 64) : Except DeviceFault (BitVec 64) :=
  let addr := regOffset addr
  if addr < 92 then
    if addr = 0 then .ok (s.irqStatus.setWidth 64)
    else do
      let v ← s.loadIoreg (addr >>> 2)
      .ok (v.setWidth 64)
  else .ok 0

/-- `hucdev_io_write` with its accesses checked. -/
def checkedIoWrite (s : HucState) (addr val : BitVec 64) : Except DeviceFault HucState :=
  let addr := regOffset addr
  if addr < 92 then do
    check (addr >>> 2 < 4) .assertion
    if addr = 8 then .ok (hucdevRaiseIrq s (val.setWidth 32))
    else if addr = 12 then .ok (hucdevLowerIrq s (val.setWidth 32))
    else s.storeIoreg (addr >>> 2) (val.setWidth 32)
  else .ok s

/-- `hucdev_bufmmio_read` with its accesses checked. -/
def checkedBufmmioRead (s : HucState) (addr : BitVec 64) (size : ℕ) :
    Except DeviceFault (BitVec 64) :=
  if bufOffset addr + size > bufBytes then .ok 0
  else if bufIndex addr = 0 then .ok (s.irqStatus.setWidth 64)
  else do
    checkBuf (bufIndex addr)
    .ok ((s.buf.word (4 * bufIndex addr)).setWidth 64)

/-- `hucdev_bufmmio_write` with its accesses checked: the doorbell sends the header and the payload,
as long as the header says. -/
def checkedBufmmioWrite (env : HostEnv) (s : HucState) (addr val : BitVec 64) (size : ℕ) :
    Except DeviceFault (HucState × List Effect) :=
  if bufOffset addr + size > bufBytes then .ok (s, [])
  else
    match bufIndex addr with
    | 0 => .ok (hucdevRaiseIrq s (val.setWidth 32), [])
    | 1 => .ok (hucdevLowerIrq s (val.setWidth 32), [])
    | 2 => do
      checkRange headerOffset 4
      checkRange payloadOffset s.header.payloadLen.toNat
      checkBuf 2
      .ok ({ s with buf := s.buf.write 8 (leBytes 0#32) },
        [.send s.connectFd (s.buf.read headerOffset 4), .send s.connectFd s.payload])
    | 3 => .ok (s, bindVCPUs env.nVCPU (fun i => val.getLsbD i) val)
    | index => do
      checkBuf index
      .ok ({ s with buf := s.buf.write (4 * index) (leBytes (val.setWidth 32)) }, [])

/-- The switch of `handle_acceptfd` with its accesses checked: it reads the type in the header, and
for an affinity message it accesses the first four bytes of the payload. -/
def checkedDispatch (env : HostEnv) (s : HucState) :
    Except DeviceFault (HucState × List Effect) := do
  checkRange headerOffset 4
  if s.header.type = MsgType.programInjectionAffinity.code then
    checkRange payloadOffset 4
  .ok (dispatch env s)

/-- `handle_acceptfd` with its accesses checked: a range is checked in the length that `recv` is
asked for. -/
def checkedAcceptfd (env : HostEnv) (s : HucState) (k : Socket) :
    Except DeviceFault Accepted := do
  checkRange headerOffset 4
  let hdr := k.recv 4
  if hdr.1 = [] then
    .ok
      { state := { s with connectFd := -1 }
        sock := hdr.2
        effects := [.setFdHandler s.connectFd none, .setFdHandler s.listenFd (some .listenfd)]
        dispatched := none }
  else
    let s := { s with buf := s.buf.write headerOffset hdr.1 }
    checkRange payloadOffset s.header.payloadLen.toNat
    let pay := hdr.2.recv s.header.payloadLen.toNat
    let s := { s with buf := s.buf.write payloadOffset pay.1 }
    let r ← checkedDispatch env s
    .ok
      { state := r.1
        sock := pay.2
        effects := r.2
        dispatched := some (s.header.type, s.payload) }

/-- The device after an operation, with every access checked. -/
def checkedStep (env : HostEnv) (s : HucState) : BarOp → Except DeviceFault HucState
  | .ioRead addr => do
    let _ ← checkedIoRead s addr
    .ok s
  | .ioWrite addr val => checkedIoWrite s addr val
  | .bufRead addr => do
    let _ ← checkedBufmmioRead s addr 4
    .ok s
  | .bufWrite addr val => do
    let r ← checkedBufmmioWrite env s addr val 4
    .ok r.1
  | .acceptfd k => do
    let r ← checkedAcceptfd env s k
    .ok r.state

/-! ## The accesses are in bounds -/

/-- The mask keeps the buffer index far below the length of the buffer. -/
lemma bufIndex_lt (addr : BitVec 64) : bufIndex addr < 65536 := by
  rw [bufIndex, bufOffset_eq, Nat.shiftRight_eq_div_pow]
  omega

/-- Four bytes at the header or at the payload are inside the allocation. -/
lemma headerOffset_add_le : headerOffset + 4 ≤ bufBytes ∧ payloadOffset + 4 ≤ bufBytes := by
  decide

/-- A payload of any length that the header can hold is inside the allocation. -/
lemma payloadOffset_add_le (n : BitVec 16) : payloadOffset + n.toNat ≤ bufBytes := by
  have hn := n.isLt
  simp only [payloadOffset, bufBytes]
  omega

/-- A read of a register never fails. -/
lemma checkedIoRead_eq (s : HucState) (addr : BitVec 64) :
    checkedIoRead s addr = .ok (hucdevIoRead s addr) := by
  unfold checkedIoRead hucdevIoRead
  by_cases h : regOffset addr < 92
  · simp only [h, if_true, dif_pos, HucState.loadIoreg, shiftRight_lt_regCount h]
    split_ifs <;> rfl
  · simp only [h, if_false, dif_neg, not_false_eq_true]

/-- **A write to a register** fails only at the assertion. -/
lemma checkedIoWrite_eq (s : HucState) (addr val : BitVec 64) :
    checkedIoWrite s addr val =
      (hucdevIoWrite s addr val).elim (.error .assertion) Except.ok := by
  unfold checkedIoWrite hucdevIoWrite
  by_cases h : regOffset addr < 92
  · simp only [h, if_true, dif_pos]
    by_cases h4 : regOffset addr >>> 2 < 4
    · rw [check_bind h4, if_pos h4]
      simp only [HucState.storeIoreg, dif_pos (shiftRight_lt_regCount h)]
      split_ifs <;> rfl
    · rw [check_bind_error h4, if_neg h4]
      rfl
  · simp only [h, if_false, dif_neg, not_false_eq_true]
    rfl

/-- A read of the buffer never fails. -/
lemma checkedBufmmioRead_eq (s : HucState) (addr : BitVec 64) (size : ℕ) :
    checkedBufmmioRead s addr size = .ok (hucdevBufmmioRead s addr size) := by
  unfold checkedBufmmioRead hucdevBufmmioRead
  rw [checkBuf, check_bind (bufIndex_lt addr)]
  split_ifs <;> rfl

/-- **A write to the buffer window** never fails, whatever length the guest has left in the
header. -/
lemma checkedBufmmioWrite_eq (env : HostEnv) (s : HucState) (addr val : BitVec 64) (size : ℕ) :
    checkedBufmmioWrite env s addr val size = .ok (hucdevBufmmioWrite env s addr val size) := by
  have hlt := bufIndex_lt addr
  unfold checkedBufmmioWrite hucdevBufmmioWrite
  by_cases hout : bufOffset addr + size > bufBytes
  · rw [if_pos hout, if_pos hout]
  · rw [if_neg hout, if_neg hout]
    rcases hi : bufIndex addr with _ | _ | _ | _ | i
    · rfl
    · rfl
    · simp only [checkRange, checkBuf]
      rw [check_bind headerOffset_add_le.1, check_bind (payloadOffset_add_le _),
        check_bind (by decide)]
    · rfl
    · simp only [checkBuf]
      rw [check_bind (by omega)]

/-- The switch never fails. -/
lemma checkedDispatch_eq (env : HostEnv) (s : HucState) :
    checkedDispatch env s = .ok (dispatch env s) := by
  simp only [checkedDispatch, checkRange]
  rw [check_bind headerOffset_add_le.1]
  split_ifs
  · exact check_bind headerOffset_add_le.2 _ _
  · rfl

/-- **A message** never leaves the buffer, whatever its type and its length. -/
lemma checkedAcceptfd_eq (env : HostEnv) (s : HucState) (k : Socket) :
    checkedAcceptfd env s k = .ok (handleAcceptfd env s k) := by
  simp only [checkedAcceptfd, checkRange, handleAcceptfd]
  rw [check_bind headerOffset_add_le.1]
  split_ifs
  · rfl
  · rw [check_bind (payloadOffset_add_le _), checkedDispatch_eq]
    rfl

/-- **The checked device is the device**: an operation has the same outcome with its accesses
checked, and where it fails it fails at the assertion. -/
theorem checkedStep_eq (env : HostEnv) (s : HucState) (op : BarOp) :
    checkedStep env s op = (barStep env s op).elim (.error .assertion) Except.ok := by
  cases op with
  | ioRead addr =>
    simp only [checkedStep, checkedIoRead_eq]
    rfl
  | ioWrite addr val => exact checkedIoWrite_eq s addr val
  | bufRead addr =>
    simp only [checkedStep, checkedBufmmioRead_eq]
    rfl
  | bufWrite addr val =>
    simp only [checkedStep, checkedBufmmioWrite_eq]
    rfl
  | acceptfd k =>
    simp only [checkedStep, checkedAcceptfd_eq]
    rfl

/-! ## Runs -/

/-- An operation inside the windows succeeds exactly if it is not a write to an unnamed register.

**Proof sketch.** Only a write to BAR0 can fail, and does so for the offsets from 16 on that are
below 92. -/
lemma barStep_isSome_iff (env : HostEnv) (s : HucState) {op : BarOp} (hop : op.InBar) :
    (∃ t, barStep env s op = some t) ↔ ¬op.Unnamed := by
  cases op with
  | ioWrite addr val =>
    have hoff := regOffset_of_lt hop.1
    simp only [barStep, BarOp.Unnamed, hucdevIoWrite, hoff]
    by_cases h92 : addr.toNat < 92
    · by_cases h4 : addr.toNat >>> 2 < 4
      · have h16 : addr.toNat < 16 := by
          rw [Nat.shiftRight_eq_div_pow] at h4
          omega
        simp only [h92, h4, dif_pos, if_true, and_true, not_le.mpr h16, not_false_eq_true, iff_true]
        split_ifs
        · exact ⟨_, rfl⟩
        · exact ⟨_, rfl⟩
        · exact ⟨_, rfl⟩
      · have h16 : 16 ≤ addr.toNat := by
          rw [Nat.shiftRight_eq_div_pow] at h4
          omega
        simp [h92, h4, h16]
    · simp [h92]
  | ioRead addr => exact ⟨fun _ => id, fun _ => ⟨s, rfl⟩⟩
  | bufRead addr => exact ⟨fun _ => id, fun _ => ⟨s, rfl⟩⟩
  | bufWrite addr val => exact ⟨fun _ => id, fun _ => ⟨_, rfl⟩⟩
  | acceptfd k => exact ⟨fun _ => id, fun _ => ⟨_, rfl⟩⟩

/-- **What a guest can do to the device**: in every run of accesses inside the windows and of
messages no access is out of bounds and no assertion fails, if and only if no access is a write to
one of the registers 4 to 22.

**Proof sketch.** Induction on the run; each operation is that of the device (`checkedStep_eq`),
which aborts only for such a write. -/
theorem checkedRun_ok_iff (env : HostEnv) (s : HucState) (ops : List BarOp)
    (hops : ∀ op ∈ ops, op.InBar) :
    (∃ t, ops.foldlM (checkedStep env) s = .ok t) ↔ ∀ op ∈ ops, ¬op.Unnamed := by
  induction ops generalizing s with
  | nil => exact ⟨fun _ op hop => absurd hop List.not_mem_nil, fun _ => ⟨s, rfl⟩⟩
  | cons op ops ih =>
    have hhead := barStep_isSome_iff env s (hops op List.mem_cons_self)
    have htail : ∀ op' ∈ ops, op'.InBar := fun op' hop' => hops op' (List.mem_cons_of_mem op hop')
    rw [List.foldlM_cons, checkedStep_eq, List.forall_mem_cons, ← hhead]
    cases hstep : barStep env s op with
    | none =>
      constructor
      · rintro ⟨t, ht⟩
        exact absurd ht (by simp [Option.elim, bind, Except.bind])
      · rintro ⟨⟨t, ht⟩, -⟩
        exact absurd ht (by simp)
    | some t =>
      have hrest := ih t htail
      constructor
      · intro h
        exact ⟨⟨t, rfl⟩, hrest.mp h⟩
      · rintro ⟨-, h⟩
        exact hrest.mpr h

/-- **The assertion is all that can fail**: no run leaves `ioregs` or `buf`. -/
theorem fault_eq_assertion {env : HostEnv} {s : HucState} {ops : List BarOp} {fault : DeviceFault}
    (h : ops.foldlM (checkedStep env) s = .error fault) : fault = .assertion := by
  induction ops generalizing s with
  | nil => exact absurd h (by simp [pure, Except.pure])
  | cons op ops ih =>
    rw [List.foldlM_cons, checkedStep_eq] at h
    cases hstep : barStep env s op with
    | none =>
      rw [hstep] at h
      exact (Except.error.inj h).symm
    | some t =>
      rw [hstep] at h
      exact ih h

/-- The guest rewrites the header in the buffer to the greatest length and rings the doorbell. -/
theorem checkedRun_ok_iff_doorbell :
    ∃ t, [BarOp.ioWrite 8#64 1#64, .bufWrite 16#64 0xFFFF0101#64, .bufWrite 8#64 1#64].foldlM
      (checkedStep ⟨2, 0⟩) restState = .ok t := by
  refine (checkedRun_ok_iff ⟨2, 0⟩ restState _ ?_).mpr ?_
  · intro op hop
    fin_cases hop <;> exact ⟨by decide, by decide⟩
  · intro op hop
    fin_cases hop
    · exact fun h => absurd h.1 (by decide)
    · exact id
    · exact id

/-- **An abort**: a write of the guest to register 4, at offset 16 of BAR0. -/
theorem checkedRun_ioWrite :
    (BarOp.ioWrite 16#64 0#64).InBar ∧
      [BarOp.ioWrite 16#64 0#64].foldlM (checkedStep ⟨2, 0⟩) restState = .error .assertion :=
  ⟨⟨by decide, by decide⟩, rfl⟩

end Huc
