import Huc.Device.Interrupt
import Huc.Guest.Basic

set_option relaxedAutoImplicit false
set_option autoImplicit false

/-!
# Receiving one message

One call of `recv_bytecode` without an interrupt in between. The driver and the daemon both count
the bytes of the payload that are left: the driver in `payload_left` of `huc-driver.c`, to know when
to put its `flag` back to zero, and the daemon in its local `payload_left`, to know when to return.

For a payload that is not empty the two agree before every read, and the flag falls with the last
one. An empty payload is the exception: the driver leaves its payload phase only through a payload
read, and the daemon makes none.

## Main definitions

* `Huc.recvBytecode` — the system calls of `recv_bytecode` up to its return.
* `Huc.ReadCall`, `Huc.InStep` — the calls of `huc_read` among them, and how the two sides agree.

## Main results

* `Huc.recvBytecode_payload` — the loop over the payload.
* `Huc.recvBytecode_header` — the receipt of an announced message.
* `Huc.recvBytecode_again` — the receipt after an empty message.
* `Huc.recvBytecode_inStep` — the driver and the daemon stay in step inside one message.
-/

namespace Huc

/-- The system call is a read. -/
def RecvPc.reads : RecvPc → Bool
  | .readHeader => true
  | .readPayload _ _ _ => true
  | _ => false

/-- A call of `huc_read`: where the daemon makes it, and the driver's variables around it. -/
structure ReadCall where
  pc : RecvPc
  before : Driver
  after : Driver

/-- The end of `recv_bytecode`: the calls of `huc_read`, the driver's variables, the file offset,
and the message returned. -/
structure RecvOutcome where
  calls : List ReadCall
  drv : Driver
  off : ℕ
  header : HucMsgHeader
  payload : List Byte

/-- `recv_bytecode` from some system call on, with no interrupt until it returns; `none` when a read
blocks, or the fuel does not suffice. -/
def recvBytecode (dev : HucState) : ℕ → Driver → Recv → Option RecvOutcome
  | 0, _, _ => none
  | fuel + 1, drv, r =>
    (recvStep dev drv r).bind fun res =>
      let calls : List ReadCall := if r.pc.reads then [⟨r.pc, drv, res.drv⟩] else []
      match res.returned with
      | some (h, p) => some ⟨calls, res.drv, res.recv.off, h, p⟩
      | none => (recvBytecode dev fuel res.drv res.recv).map fun out =>
          { out with calls := calls ++ out.calls }

/-- Before the call, a payload read, the daemon and the driver expect the same number of bytes, and
there are some. -/
def ReadCall.Agrees (c : ReadCall) : Prop :=
  ∃ h payload left, c.pc = .readPayload h payload left ∧ c.before.payloadLeft = left ∧ 0 < left

/-- The last of the calls clears the flag, and no call before it does. -/
def ClearsAtEnd (calls : List ReadCall) : Prop :=
  ∀ i (hi : i < calls.length), calls[i].after.flag = 0 ↔ i + 1 = calls.length

/-- **The two sides stay in step** over the calls for a message with a payload of `n` bytes. -/
structure InStep (n : ℕ) (calls : List ReadCall) : Prop where
  count : calls.length = 1 + (n + 3) / 4
  ready : ∀ c ∈ calls, 1 ≤ c.before.flag
  agrees : ∀ c ∈ calls.tail, c.Agrees
  clears : 0 < n → ClearsAtEnd calls

/-- A call before the last one does not clear the flag. -/
lemma ClearsAtEnd.cons {c : ReadCall} {calls : List ReadCall} (hc : c.after.flag ≠ 0)
    (h : ClearsAtEnd calls) (hne : calls ≠ []) : ClearsAtEnd (c :: calls) := by
  intro i hi
  have hpos := List.length_pos_iff.mpr hne
  cases i with
  | zero =>
    rw [List.getElem_cons_zero, List.length_cons]
    constructor
    · intro hzero
      exact absurd hzero hc
    · intro hlen
      omega
  | succ i =>
    rw [List.getElem_cons_succ, h i (by simpa using hi), List.length_cons]
    omega

/-- The only call clears the flag. -/
lemma clearsAtEnd_singleton {c : ReadCall} (hc : c.after.flag = 0) : ClearsAtEnd [c] := by
  intro i hi
  obtain rfl : i = 0 := by simpa using hi
  simp [hc]

/-- `recv_bytecode` starts anew after it has returned. -/
lemma recvStep_returned {dev : HucState} {drv : Driver} {r : Recv} {res : RecvResult}
    {m : HucMsgHeader × List Byte} (h : recvStep dev drv r = some res)
    (hm : res.returned = some m) :
    res.recv.pc = .seekHeader := by
  unfold recvStep at h
  cases hpc : r.pc with
  | seekHeader =>
    simp only [hpc, Option.some.injEq] at h
    subst h
    contradiction
  | readHeader =>
    simp only [hpc] at h
    obtain ⟨x, -, rfl⟩ := Option.map_eq_some_iff.mp h
    contradiction
  | seekPayload hd =>
    simp only [hpc] at h
    split_ifs at h <;> obtain rfl := Option.some.inj h
    · contradiction
    · rfl
  | readPayload hd payload left =>
    simp only [hpc] at h
    obtain ⟨x, -, rfl⟩ := Option.map_eq_some_iff.mp h
    split_ifs at hm ⊢
    rfl

/-! ## The system calls -/

section Calls

variable {dev : HucState} {drv : Driver} {fuel : ℕ}

/-- The seek to the header. -/
lemma recvBytecode_seekHeader (off : ℕ) :
    recvBytecode dev (fuel + 1) drv ⟨.seekHeader, off⟩ =
      recvBytecode dev fuel drv ⟨.readHeader, 16⟩ := by
  simp [recvBytecode, recvStep, RecvPc.reads]

/-- The read of the header, when there is something to read. -/
lemma recvBytecode_readHeader (h : 1 ≤ drv.flag) :
    recvBytecode dev (fuel + 1) drv ⟨.readHeader, 16⟩ =
      (recvBytecode dev fuel
        (drv.account ((hucdevBufmmioRead dev (BitVec.ofNat 64 16) 4).setWidth 32) 4)
        ⟨.seekPayload dev.header, 20⟩).map fun out =>
          { out with calls := ⟨.readHeader, drv,
            drv.account ((hucdevBufmmioRead dev (BitVec.ofNat 64 16) 4).setWidth 32) 4⟩ ::
              out.calls } := by
  have hstep := @recvStep_readHeader dev drv
  rw [if_neg (by omega)] at hstep
  simp [recvBytecode, RecvPc.reads, hstep]

/-- The seek to a payload that is not empty. -/
lemma recvBytecode_seekPayload {h : HucMsgHeader} (off : ℕ) (hn : 0 < h.payloadLen.toNat) :
    recvBytecode dev (fuel + 1) drv ⟨.seekPayload h, off⟩ =
      recvBytecode dev fuel drv ⟨.readPayload h [] h.payloadLen.toNat, 20⟩ := by
  simp [recvBytecode, recvStep_seekPayload, RecvPc.reads, hn]

/-- The seek to an empty payload is the last system call. -/
lemma recvBytecode_seekPayload_empty {h : HucMsgHeader} (off : ℕ) (hn : h.payloadLen.toNat = 0) :
    recvBytecode dev (fuel + 1) drv ⟨.seekPayload h, off⟩ = some ⟨[], drv, 20, h, []⟩ := by
  simp [recvBytecode, recvStep_seekPayload, RecvPc.reads, hn]

/-- A read of the payload, when there is something to read. -/
lemma recvBytecode_readPayload {h : HucMsgHeader} {payload : List Byte} {left : ℤ} {off : ℕ}
    (hflag : 1 ≤ drv.flag) (h4 : off % 4 = 0) {kbuf : Word}
    (hk : (hucdevBufmmioRead dev (BitVec.ofNat 64 off) 4).setWidth 32 = kbuf) :
    recvBytecode dev (fuel + 1) drv ⟨.readPayload h payload left, off⟩ =
      if 0 < left - 4 then
        (recvBytecode dev fuel (drv.account kbuf 4)
          ⟨.readPayload h (payload ++ leBytes kbuf) (left - 4), off + 4⟩).map fun out =>
            { out with
              calls := ⟨.readPayload h payload left, drv, drv.account kbuf 4⟩ :: out.calls }
      else some ⟨[⟨.readPayload h payload left, drv, drv.account kbuf 4⟩], drv.account kbuf 4,
        off + 4, h, (payload ++ leBytes kbuf).take h.payloadLen.toNat⟩ := by
  have hstep := @recvStep_readPayload dev drv h payload left off h4 kbuf hk
  rw [if_neg (by omega)] at hstep
  by_cases hl : 4 < left
  · simp [recvBytecode, RecvPc.reads, hstep, hl]
  · simp [recvBytecode, RecvPc.reads, hstep, hl]

end Calls

/-! ## Whole receipts -/

/-- **The loop over the payload**, with as many bytes left for the driver as for the daemon: it ends
after one read for every four bytes, and the two agree before each.

**Proof sketch.** Induction on the number of words left. A read takes four bytes off both counters;
the daemon stops when its counter is no longer positive, and then the driver clears the flag. -/
lemma recvBytecode_payload (dev : HucState) (h : HucMsgHeader) {k left : ℕ} (hpos : 0 < left)
    (hle : left ≤ 65535) (hk : (left + 3) / 4 = k) (payload : List Byte) {off : ℕ}
    (h4 : off % 4 = 0) :
    ∃ out, (∀ fuel, k ≤ fuel →
        recvBytecode dev fuel ⟨1, left⟩ ⟨.readPayload h payload left, off⟩ = some out) ∧
      out.header = h ∧ out.drv.flag = 0 ∧ out.calls.length = k ∧
      (∀ c ∈ out.calls, 1 ≤ c.before.flag ∧ c.Agrees) ∧ ClearsAtEnd out.calls := by
  induction k generalizing left payload off with
  | zero => omega
  | succ k ih =>
    obtain ⟨kbuf, hkbuf⟩ :
      ∃ kbuf, (hucdevBufmmioRead dev (BitVec.ofNat 64 off) 4).setWidth 32 = kbuf := ⟨_, rfl⟩
    have hdrv := account_payload (show (0 : ℤ) < left by omega) (by omega) kbuf
    have hcall : ∀ d, (⟨.readPayload h payload left, ⟨1, left⟩, d⟩ : ReadCall).Agrees :=
      fun d => ⟨h, payload, left, rfl, rfl, by omega⟩
    by_cases hmore : 4 < left
    · have hcast : (left : ℤ) - 4 = (left - 4 : ℕ) := by omega
      have hif : (0 : ℤ) < left - 4 := by omega
      rw [if_pos hif, hcast] at hdrv
      obtain ⟨out, hout, hhead, hflag, hlen, hcalls, hclear⟩ :=
        @ih (left - 4) (by omega) (by omega) (by omega) (payload ++ leBytes kbuf) (off + 4)
          (by omega)
      refine ⟨{ out with calls := ⟨.readPayload h payload left, ⟨1, left⟩, ⟨1, (left - 4 : ℕ)⟩⟩ ::
        out.calls }, ?_, hhead, hflag, by simp [hlen], ?_, ?_⟩
      · intro fuel hfuel
        obtain ⟨fuel, rfl⟩ := Nat.exists_eq_add_of_le' (show 1 ≤ fuel by omega)
        rw [recvBytecode_readPayload le_rfl h4 hkbuf, if_pos hif, hdrv, hcast,
          hout fuel (by omega)]
        rfl
      · intro c hc
        rcases List.mem_cons.mp hc with rfl | hc
        · exact ⟨le_rfl, hcall _⟩
        · exact hcalls c hc
      · apply hclear.cons one_ne_zero
        apply List.ne_nil_of_length_pos
        omega
    · have hif : ¬(0 : ℤ) < left - 4 := by omega
      rw [if_neg hif] at hdrv
      refine ⟨⟨[⟨.readPayload h payload left, ⟨1, left⟩, ⟨0, left - 4⟩⟩], ⟨0, left - 4⟩, off + 4, h,
        (payload ++ leBytes kbuf).take h.payloadLen.toNat⟩, ?_, rfl, rfl, ?_, ?_, ?_⟩
      · intro fuel hfuel
        obtain ⟨fuel, rfl⟩ := Nat.exists_eq_add_of_le' (show 1 ≤ fuel by omega)
        rw [recvBytecode_readPayload le_rfl h4 hkbuf, if_neg hif, hdrv]
      · rw [List.length_singleton]
        omega
      · intro c hc
        rw [List.mem_singleton.mp hc]
        exact ⟨le_rfl, hcall _⟩
      · exact clearsAtEnd_singleton rfl

/-- **The receipt of an announced message**: one read for the header and one for every four bytes of
the payload.

**Proof sketch.** The seek and the read of the header are two calls, after which the driver has the
length of the payload to count down; the rest is the receipt of a payload
(`recvBytecode_payload`). -/
lemma recvBytecode_header (dev : HucState) {drv : Driver} (h : drv.flag = 2) (off : ℕ)
    (hn : 0 < dev.header.payloadLen.toNat) :
    ∃ out, (∀ fuel, 3 + (dev.header.payloadLen.toNat + 3) / 4 ≤ fuel →
        recvBytecode dev fuel drv ⟨.seekHeader, off⟩ = some out) ∧
      out.header = dev.header ∧ out.drv.flag = 0 ∧
      InStep dev.header.payloadLen.toNat out.calls := by
  obtain ⟨out, hout, hhead, hflag, hlen, hcalls, hclear⟩ :=
    recvBytecode_payload dev dev.header hn (Nat.le_of_lt_succ (BitVec.isLt _)) rfl []
      (show 20 % 4 = 0 from rfl)
  refine ⟨{ out with calls := ⟨.readHeader, drv, ⟨1, dev.header.payloadLen.toNat⟩⟩ :: out.calls },
    ?_, hhead, hflag, ?_⟩
  · intro fuel hfuel
    obtain ⟨fuel, rfl⟩ := Nat.exists_eq_add_of_le' (show 3 ≤ fuel by omega)
    rw [recvBytecode_seekHeader, recvBytecode_readHeader (by omega), account_read_header dev h,
      recvBytecode_seekPayload _ hn, hout fuel (by omega)]
    rfl
  · constructor
    · rw [List.length_cons, hlen]
      omega
    · intro c hc
      rcases List.mem_cons.mp hc with rfl | hc
      · rw [h]
        omega
      · exact (hcalls c hc).1
    · intro c hc
      exact (hcalls c hc).2
    · intro _
      apply hclear.cons one_ne_zero
      apply List.ne_nil_of_length_pos
      omega

/-- **The receipt of an empty message**: the header is read and returned, and the driver stays in
its payload phase. -/
lemma recvBytecode_header_empty (dev : HucState) {drv : Driver} (h : drv.flag = 2) (off : ℕ)
    (hn : dev.header.payloadLen.toNat = 0) :
    ∀ fuel, 3 ≤ fuel → recvBytecode dev fuel drv ⟨.seekHeader, off⟩ =
      some ⟨[⟨.readHeader, drv, ⟨1, 0⟩⟩], ⟨1, 0⟩, 20, dev.header, []⟩ := by
  intro fuel hfuel
  obtain ⟨fuel, rfl⟩ := Nat.exists_eq_add_of_le' hfuel
  rw [recvBytecode_seekHeader, recvBytecode_readHeader (by omega), account_read_header dev h,
    recvBytecode_seekPayload_empty _ hn, hn]
  rfl

/-- **The receipt after an empty message**: with the driver still in its payload phase, the next
call does not wait but returns the same header again, and only then is the flag cleared. -/
lemma recvBytecode_again (dev : HucState) (off : ℕ) (hn : dev.header.payloadLen.toNat = 0) :
    ∀ fuel, 3 ≤ fuel → recvBytecode dev fuel ⟨1, 0⟩ ⟨.seekHeader, off⟩ =
      some ⟨[⟨.readHeader, ⟨1, 0⟩, ⟨0, -4⟩⟩], ⟨0, -4⟩, 20, dev.header, []⟩ := by
  intro fuel hfuel
  obtain ⟨fuel, rfl⟩ := Nat.exists_eq_add_of_le' hfuel
  have haccount : ∀ kbuf, Driver.account ⟨1, 0⟩ kbuf 4 = ⟨0, -4⟩ := fun _ => rfl
  rw [recvBytecode_seekHeader, recvBytecode_readHeader le_rfl, haccount,
    recvBytecode_seekPayload_empty _ hn]
  rfl

/-- **The driver and the daemon stay in step inside one message**: from a driver that announces a
header, and with no further interrupt, `recv_bytecode` returns after one read for the header and
one for every four bytes of the payload. No read blocks; before each payload read both sides expect
the same positive number of bytes; and the last read of a payload, and none before it, clears the
flag. -/
theorem recvBytecode_inStep (dev : HucState) (drv : Driver) (h : drv.flag = 2) (off : ℕ) :
    ∃ out, (∀ fuel, 3 + (dev.header.payloadLen.toNat + 3) / 4 ≤ fuel →
        recvBytecode dev fuel drv ⟨.seekHeader, off⟩ = some out) ∧
      out.header = dev.header ∧ InStep dev.header.payloadLen.toNat out.calls := by
  rcases Nat.eq_zero_or_pos dev.header.payloadLen.toNat with hn | hn
  · refine ⟨_, fun fuel hfuel => recvBytecode_header_empty dev h off hn fuel (by omega), rfl, ?_⟩
    constructor
    · simp [hn]
    · intro c hc
      rw [List.mem_singleton.mp hc, h]
      omega
    · intro c hc
      exact absurd hc List.not_mem_nil
    · intro hpos
      omega
  · obtain ⟨out, hout, hhead, -, hstep⟩ := recvBytecode_header dev h off hn
    exact ⟨out, hout, hhead, hstep⟩

/-- A payload of seven bytes takes two reads. -/
theorem recvBytecode_inStep_seven :
    ∃ out, recvBytecode (restState.store (injectMsg (List.replicate 7 0x95#8) (by decide))) 5 ⟨2, 0⟩
        ⟨.seekHeader, 0⟩ = some out ∧
      out.calls.length = 3 ∧ InStep 7 out.calls := by
  obtain ⟨out, hout, -, hstep⟩ := recvBytecode_inStep
    (restState.store (injectMsg (List.replicate 7 0x95#8) (by decide))) ⟨2, 0⟩ rfl 0
  rw [header_store] at hout hstep
  exact ⟨out, hout 5 (by decide), hstep.count, hstep⟩

end Huc
