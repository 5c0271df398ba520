import Huc.Device.Basic

set_option relaxedAutoImplicit false
set_option autoImplicit false

/-!
# The guest's driver and daemon

The guest side of the channel. The driver of `guestend/driver/huc-driver.c` handles the device's
interrupt and serves reads of the character device, one word of BAR1 at a time; its variable `flag`
says what a read will find: nothing (0), payload (1) or a header (2). The daemon of
`guestend/daemon.c` calls `recv_bytecode` in a loop, which seeks to the header, reads it, seeks to
the payload and reads it word by word.

## Main definitions

* `Huc.Driver`, `Huc.hucRead` — the driver's variables and its `read` operation.
* `Huc.irqStatusRead`, `Huc.irqWake`, `Huc.irqAck` — the three accesses of the interrupt handler.
* `Huc.hucIoctl` — its `ioctl` operation.
* `Huc.Recv`, `Huc.recvStep` — the next system call of `recv_bytecode`.

## Main results

* `Huc.bufmmioRead_word` — what a read inside the decoded window returns.
* `Huc.bufmmioRead_window` — what the first read past it returns.
* `Huc.hucRead_four` — a read of an aligned word, when there is something to read.
* `Huc.recvStep_readHeader`, `Huc.recvStep_seekPayload`, `Huc.recvStep_readPayload` — what each
  system call of `recv_bytecode` does.

## Design

The wait in `huc_read` is a step that is not enabled while `flag` is zero. The daemon handles no
signals, so the wait is left only when the flag is set. The handler's check that a shared interrupt
comes from this device is left out: all interrupts here do.
-/

namespace Huc

/-! ## The window of BAR1 -/

/-- The offset decoded for an address given as a number. -/
lemma bufOffset_ofNat {a : ℕ} (h : a < 2 ^ 64) : bufOffset (BitVec.ofNat 64 a) = a % 65536 := by
  rw [bufOffset_eq, BitVec.toNat_ofNat, Nat.mod_eq_of_lt h]

/-- A read never fails: the mask is narrower than the buffer. -/
lemma bufmmioRead_eq (s : HucState) {a : ℕ} (h : a < 2 ^ 64) :
    (hucdevBufmmioRead s (BitVec.ofNat 64 a) 4).setWidth 32 =
      if a % 65536 / 4 = 0 then s.irqStatus else s.buf.word (4 * (a % 65536 / 4)) := by
  have hlt : ¬bufOffset (BitVec.ofNat 64 a) + 4 > bufBytes := by
    rw [bufOffset_ofNat h]
    simp only [bufBytes]
    omega
  have hidx : bufIndex (BitVec.ofNat 64 a) = a % 65536 / 4 := by
    rw [bufIndex, bufOffset_ofNat h, Nat.shiftRight_eq_div_pow]
  rw [hucdevBufmmioRead, if_neg hlt, hidx]
  split_ifs
  · exact BitVec.setWidth_setWidth_of_le _ (by omega)
  · exact BitVec.setWidth_setWidth_of_le _ (by omega)

/-- **A read inside the window**, above the status word, returns the word of the buffer. -/
lemma bufmmioRead_word (s : HucState) {a : ℕ} (h4 : a % 4 = 0) (hge : 4 ≤ a) (hlt : a < 65536) :
    (hucdevBufmmioRead s (BitVec.ofNat 64 a) 4).setWidth 32 = s.buf.word a := by
  rw [bufmmioRead_eq s (by omega), Nat.mod_eq_of_lt hlt, if_neg (by omega)]
  congr 1
  omega

/-- **The first read past the window** returns the interrupt status, as a read at zero does. -/
lemma bufmmioRead_window (s : HucState) {a : ℕ} (h : a = 0 ∨ a = 65536) :
    (hucdevBufmmioRead s (BitVec.ofNat 64 a) 4).setWidth 32 = s.irqStatus := by
  rcases h with rfl | rfl
  · rw [bufmmioRead_eq s (by norm_num), if_pos (by norm_num)]
  · rw [bufmmioRead_eq s (by norm_num), if_pos (by norm_num)]

/-- The word at the header is the header. -/
lemma ofWord_read_header (dev : HucState) :
    HucMsgHeader.ofWord ((hucdevBufmmioRead dev (BitVec.ofNat 64 16) 4).setWidth 32) =
      dev.header := by
  rw [bufmmioRead_word dev rfl (by omega) (by omega), ByteMem.word, HucMsgHeader.ofWord_leWord]
  rfl

/-! ## The driver's read -/

/-- The static variables of the driver. -/
structure Driver where
  flag : ℕ
  payloadLeft : ℤ
  deriving DecidableEq

/-- A length, a `size_t`, returned as an `ssize_t`. -/
def ssize (len : ℕ) : ℤ := (len : ℤ).bmod (2 ^ 64)

/-- A length of four bytes is returned as it is. -/
@[simp] lemma ssize_four : ssize 4 = 4 := rfl

/-- The one length that is returned as the value of `-EFAULT`. -/
lemma ssize_eq_fault_iff {len : ℕ} (h : len < 2 ^ 64) : ssize len = -14 ↔ len = 2 ^ 64 - 14 := by
  unfold ssize
  rw [Int.bmod_def]
  split_ifs
  · omega
  · omega

/-- The outcome of a read that does not block: the driver's variables, the file offset, the return
value, and the word copied to the user. -/
structure ReadResult where
  drv : Driver
  off : ℕ
  ret : ℤ
  copied : Option Word

/-- What a read does to the driver's variables, for the word `kbuf` it has fetched. -/
def Driver.account (drv : Driver) (kbuf : Word) (len : ℕ) : Driver :=
  if drv.flag = 2 then
    { flag := 1, payloadLeft := (HucMsgHeader.ofWord kbuf).payloadLen.toNat }
  else if drv.flag = 1 then
    -- an `int` minus a `size_t`, converted back to `int`
    let left := (drv.payloadLeft - len).bmod (2 ^ 32)
    { flag := if left ≤ 0 then 0 else drv.flag, payloadLeft := left }
  else drv

/-- `huc_read` for `len` bytes at the file offset `off`; `none` while it waits, and `copyOk` when
`copy_to_user` succeeds. -/
def hucRead (dev : HucState) (drv : Driver) (len off : ℕ) (copyOk : Bool) : Option ReadResult :=
  if drv.flag < 1 then none
  else if off % 4 ≠ 0 ∨ len = 0 then some ⟨drv, off, 0, none⟩
  else
    let kbuf : Word := (hucdevBufmmioRead dev (BitVec.ofNat 64 off) 4).setWidth 32
    let drv := drv.account kbuf len
    if copyOk then some ⟨drv, off + 4, ssize len, some kbuf⟩
    else some ⟨drv, off, -14, none⟩

/-- **A read of one aligned word** waits for the flag and then returns the word. -/
lemma hucRead_four (dev : HucState) (drv : Driver) {off : ℕ} (h4 : off % 4 = 0) :
    hucRead dev drv 4 off true =
      if drv.flag < 1 then none
      else some ⟨drv.account ((hucdevBufmmioRead dev (BitVec.ofNat 64 off) 4).setWidth 32) 4,
        off + 4, 4, some ((hucdevBufmmioRead dev (BitVec.ofNat 64 off) 4).setWidth 32)⟩ := by
  simp [hucRead, h4]

/-- A read of a header takes the payload's length from it. -/
lemma account_header {drv : Driver} (h : drv.flag = 2) (kbuf : Word) (len : ℕ) :
    drv.account kbuf len = ⟨1, (HucMsgHeader.ofWord kbuf).payloadLen.toNat⟩ :=
  if_pos h

/-- What the header read leaves in the driver: the payload phase, with the length of the payload. -/
lemma account_read_header (dev : HucState) {drv : Driver} (h : drv.flag = 2) :
    drv.account ((hucdevBufmmioRead dev (BitVec.ofNat 64 16) 4).setWidth 32) 4 =
      ⟨1, dev.header.payloadLen.toNat⟩ := by
  rw [account_header h, ofWord_read_header]

/-- A read of four bytes of a payload counts them, and clears the flag with the last ones. -/
lemma account_payload {left : ℤ} (hpos : 0 < left) (hle : left ≤ 65535) (kbuf : Word) :
    Driver.account ⟨1, left⟩ kbuf 4 = ⟨if 0 < left - 4 then 1 else 0, left - 4⟩ := by
  have hmod : (left - 4).bmod (2 ^ 32) = left - 4 := Int.bmod_eq_of_le (by omega) (by omega)
  have hdrv : Driver.account ⟨1, left⟩ kbuf 4 =
      ⟨if (left - 4).bmod (2 ^ 32) ≤ 0 then 0 else 1, (left - 4).bmod (2 ^ 32)⟩ := rfl
  rw [hdrv, hmod]
  by_cases hl : 0 < left - 4
  · rw [if_pos hl, if_neg (by omega)]
  · rw [if_neg hl, if_pos (by omega)]

/-! ## The interrupt handler -/

/-- The next access of `irq_handler`. -/
inductive IrqPc
  /-- No instance is running. -/
  | idle
  /-- The switch on the status `v` read, with the wake-up. -/
  | wake (v : Word)
  /-- The acknowledgement of `v`. -/
  | ack (v : Word)
  deriving DecidableEq

/-- `ioread32(bufmmio + HUCDEV_REG_STATUS_IRQ)`. -/
def irqStatusRead (dev : HucState) : Word := (hucdevBufmmioRead dev 0#64 4).setWidth 32

/-- The switch of `irq_handler`, which matches whole status values. -/
def irqWake (drv : Driver) (v : Word) : Driver :=
  if v = MsgType.programInjection.irq then { drv with flag := 2 }
  else if v = MsgType.programInjectionAffinity.irq then { drv with flag := 2 }
  else if v = 22#32 then { drv with flag := 1 }
  else drv

/-- `iowrite32(irq_status, bufmmio + HUCDEV_REG_LOWER_IRQ)`. -/
def irqAck (env : HostEnv) (dev : HucState) (v : Word) : HucState :=
  (hucdevBufmmioWrite env dev 4#64 (v.setWidth 64) 4).1

/-- The handler reads the status. -/
@[simp] lemma irqStatusRead_eq (dev : HucState) : irqStatusRead dev = dev.irqStatus :=
  bufmmioRead_window dev (Or.inl rfl)

/-- The acknowledgement lowers the value read. -/
@[simp] lemma irqAck_eq (env : HostEnv) (dev : HucState) (v : Word) :
    irqAck env dev v = hucdevLowerIrq dev v := by
  have hv : (v.setWidth 64).setWidth 32 = v := by
    rw [BitVec.setWidth_setWidth_of_le _ (by omega), BitVec.setWidth_eq]
  rw [irqAck, bufmmioWrite_one (show bufIndex 4#64 = 1 by decide), hv]

/-! ## The driver's ioctl -/

/-- `IOCTL_SCHED_SETAFFINITY`. -/
def ioctlSchedSetaffinity : ℕ := 13

/-- `IOCTL_PROGRAM_INJECTION_RESULT_READY`. -/
def ioctlProgramInjectionResultReady : ℕ := 14

/-- The outcome of an `ioctl`: the return value, the device, and what the device asks of its
environment. -/
structure IoctlResult where
  ret : ℤ
  dev : HucState
  effects : List Effect

/-- `huc_ioctl`, for an argument that points to the start of the user memory `arg`, and `copyOk`
when `copy_from_user` succeeds. The affinity is copied as an `int` and written as one word. -/
def hucIoctl (env : HostEnv) (dev : HucState) (cmd : ℕ) (arg : ByteMem) (copyOk : Bool) :
    IoctlResult :=
  if cmd = ioctlProgramInjectionResultReady then
    let r := hucdevBufmmioWrite env dev 8#64 1#64 4
    ⟨0, r.1, r.2⟩
  else if cmd = ioctlSchedSetaffinity then
    if copyOk then
      let requestedCpu : Word := arg.word 0
      let r := hucdevBufmmioWrite env dev 12#64 (requestedCpu.setWidth 64) 4
      ⟨0, r.1, r.2⟩
    else ⟨-13, dev, []⟩
  else ⟨0, dev, []⟩

/-- **The affinity command** reaches the device as a write of its first word. -/
lemma hucIoctl_setaffinity (env : HostEnv) (dev : HucState) (arg : ByteMem) :
    hucIoctl env dev ioctlSchedSetaffinity arg true =
      ⟨0, dev, bindVCPUs env.nVCPU (fun i => ((arg.word 0).setWidth 64).getLsbD i)
        ((arg.word 0).setWidth 64)⟩ :=
  rfl

/-! ## The daemon -/

/-- The next system call of `recv_bytecode`, with its local variables. -/
inductive RecvPc
  /-- `lseek(fd, 16, SEEK_SET)`. -/
  | seekHeader
  /-- The read of the header. -/
  | readHeader
  /-- `lseek(fd, 20, SEEK_SET)`, with the header read. -/
  | seekPayload (h : HucMsgHeader)
  /-- A read of the payload, with what has been read so far. -/
  | readPayload (h : HucMsgHeader) (payload : List Byte) (payloadLeft : ℤ)
  deriving DecidableEq

/-- Where the daemon is, and the offset of its file descriptor. -/
structure Recv where
  pc : RecvPc
  off : ℕ
  deriving DecidableEq

/-- The driver's and the daemon's variables after a system call, and the message that
`recv_bytecode` returns with it, if it does. -/
structure RecvResult where
  drv : Driver
  recv : Recv
  returned : Option (HucMsgHeader × List Byte)

/-- The next system call of `recv_bytecode`, all of them and `malloc` succeeding. The payload
returned is the block of `payload_len` bytes; the last word may reach past its end. After a return
the main loop calls `recv_bytecode` again. -/
def recvStep (dev : HucState) (drv : Driver) (r : Recv) : Option RecvResult :=
  match r.pc with
  | .seekHeader => some ⟨drv, ⟨.readHeader, 16⟩, none⟩
  | .readHeader =>
    (hucRead dev drv 4 r.off true).map fun res =>
      ⟨res.drv, ⟨.seekPayload (.ofWord (res.copied.getD 0#32)), res.off⟩, none⟩
  | .seekPayload h =>
    if 0 < h.payloadLen.toNat then
      some ⟨drv, ⟨.readPayload h [] h.payloadLen.toNat, 20⟩, none⟩
    else some ⟨drv, ⟨.seekHeader, 20⟩, some (h, [])⟩
  | .readPayload h payload payloadLeft =>
    (hucRead dev drv 4 r.off true).map fun res =>
      let payload := payload ++ leBytes (res.copied.getD 0#32)
      let payloadLeft := payloadLeft - res.ret
      if 0 < payloadLeft then ⟨res.drv, ⟨.readPayload h payload payloadLeft, res.off⟩, none⟩
      else ⟨res.drv, ⟨.seekHeader, res.off⟩, some (h, payload.take h.payloadLen.toNat)⟩

section Calls

variable {dev : HucState} {drv : Driver} {h : HucMsgHeader}

/-- The read of the header waits for the flag and then gives the header. -/
lemma recvStep_readHeader :
    recvStep dev drv ⟨.readHeader, 16⟩ = if drv.flag < 1 then none
      else some ⟨drv.account ((hucdevBufmmioRead dev (BitVec.ofNat 64 16) 4).setWidth 32) 4,
        ⟨.seekPayload dev.header, 20⟩, none⟩ := by
  have hread := hucRead_four dev drv (show 16 % 4 = 0 from rfl)
  by_cases hf : drv.flag < 1
  · simp [recvStep, hread, hf]
  · simp [recvStep, hread, hf, ofWord_read_header]

/-- The seek to the payload starts the loop, or is the last system call. -/
lemma recvStep_seekPayload (off : ℕ) :
    recvStep dev drv ⟨.seekPayload h, off⟩ = some (if 0 < h.payloadLen.toNat then
        ⟨drv, ⟨.readPayload h [] h.payloadLen.toNat, 20⟩, none⟩
      else ⟨drv, ⟨.seekHeader, 20⟩, some (h, [])⟩) := by
  by_cases hn : 0 < h.payloadLen.toNat
  · simp [recvStep, hn]
  · simp [recvStep, hn]

/-- **A read of the payload** waits for the flag and then adds a word; it is the last system call if
no byte is left. -/
lemma recvStep_readPayload {payload : List Byte} {left : ℤ} {off : ℕ} (h4 : off % 4 = 0)
    {kbuf : Word} (hk : (hucdevBufmmioRead dev (BitVec.ofNat 64 off) 4).setWidth 32 = kbuf) :
    recvStep dev drv ⟨.readPayload h payload left, off⟩ = if drv.flag < 1 then none
      else some (if 0 < left - 4 then
          ⟨drv.account kbuf 4,
            ⟨.readPayload h (payload ++ leBytes kbuf) (left - 4), off + 4⟩, none⟩
        else ⟨drv.account kbuf 4, ⟨.seekHeader, off + 4⟩,
          some (h, (payload ++ leBytes kbuf).take h.payloadLen.toNat)⟩) := by
  have hread := hucRead_four dev drv h4
  rw [hk] at hread
  by_cases hf : drv.flag < 1
  · simp [recvStep, hread, hf]
  · simp [recvStep, hread, hf]

end Calls

end Huc
