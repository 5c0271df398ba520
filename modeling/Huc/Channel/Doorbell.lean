import Huc.Channel.Basic

set_option relaxedAutoImplicit false
set_option autoImplicit false

/-!
# The doorbell

A guest write to word 2 of BAR1 makes the device send the message in its buffer back to the host.
`handle_acceptfd` stores header and payload at byte offsets 16 and 20; the doorbell finds the header
through a pointer to structs, `(struct huc_msg_header *) hucdev->buf + 4`, and the payload through a
pointer to words, and the buffer is never cleared. What it sends is nevertheless the last message
stored, whatever was stored before it and whatever the guest has done to the control words since.

## Main definitions

* `Huc.Access.Permitted` — the accesses that leave the stored message alone, and new messages.
* `Huc.lastMessage` — the message stored last.

## Main results

* `Huc.accessStep_holds` — the buffer keeps the message.
* `Huc.doorbell_returns` — what the doorbell sends.
-/

namespace Huc

open Transition

/-! ## Accesses -/

namespace Access

/-- The message received, if it is one. -/
def message? : Access → Option HucMsg
  | op (.message m) => some m
  | _ => none

/-- BAR0 is accessed at the offsets 0 to 15, and BAR1 written at the control words. -/
def Permitted : Access → Prop
  | ioRead addr => addr.toNat ≤ 15
  | op (.ioWrite addr _) => addr.toNat ≤ 15
  | op (.bufWrite addr _) => bufIndex addr ≤ 3
  | _ => True

end Access

/-- The message stored last. -/
def lastMessage (as : List Access) : Option HucMsg := (as.filterMap Access.message?).getLast?

/-- The message stored last is the last access, if that is a message, or the one before. -/
lemma lastMessage_concat (as : List Access) (a : Access) :
    lastMessage (as ++ [a]) = a.message?.or (lastMessage as) := by
  rw [lastMessage, List.filterMap_append]
  cases ha : a.message? with
  | none => simp [ha, lastMessage]
  | some m => simp [ha]

/-! ## What the buffer holds -/

section Steps

variable {env : HostEnv} {s : HucState}

/-- A write to a control word leaves the buffer above them, and the connection. -/
lemma bufWrite_frame {addr : BitVec 64} (val : BitVec 64) (h : bufIndex addr ≤ 3) :
    (∀ x, headerOffset ≤ x → (hucdevBufmmioWrite env s addr val 4).1.buf x = s.buf x) ∧
      (hucdevBufmmioWrite env s addr val 4).1.connectFd = s.connectFd := by
  rw [hucdevBufmmioWrite, if_neg (not_lt.mpr (bufOffset_add_le addr))]
  rcases hi : bufIndex addr with _ | _ | _ | _ | i
  · exact ⟨fun _ _ => rfl, rfl⟩
  · exact ⟨fun _ _ => rfl, rfl⟩
  · refine ⟨fun x hx => ?_, rfl⟩
    simp only [headerOffset] at hx
    apply ByteMem.write_apply_of_ge
    rw [length_leBytes]
    omega
  · exact ⟨fun _ _ => rfl, rfl⟩
  · omega

/-- A permitted BAR0 write leaves the buffer and the connection. -/
lemma ioWrite_frame {addr : BitVec 64} (val : BitVec 64) (h : addr.toNat ≤ 15) :
    ∃ t, hucdevIoWrite s addr val = some t ∧ t.buf = s.buf ∧ t.connectFd = s.connectFd := by
  obtain ⟨h92, h4⟩ := regOffset_named h
  rw [hucdevIoWrite, dif_pos h92, if_pos h4]
  split_ifs
  · exact ⟨_, rfl, rfl, rfl⟩
  · exact ⟨_, rfl, rfl, rfl⟩
  · exact ⟨_, rfl, rfl, rfl⟩

/-- A received message leaves the connection. -/
lemma receive_connectFd (m : HucMsg) : (receive env s m).1.connectFd = s.connectFd := by
  rw [receive, dispatch]
  split <;> rfl

/-- **The buffer keeps the message** through every permitted access but the next message. -/
lemma accessStep_holds {a : Access} (ha : a.Permitted) :
    ∃ t, accessStep env s a = some t ∧ t.connectFd = s.connectFd ∧
      (∀ m, a.message? = some m → Holds env t m) ∧
      (a.message? = none → ∀ m, Holds env s m → Holds env t m) := by
  cases a with
  | ioRead addr => exact ⟨s, rfl, rfl, by simp [Access.message?], fun _ m hm => hm⟩
  | op op =>
    cases op with
    | ioWrite addr val =>
      obtain ⟨t, ht, hbuf, hfd⟩ := @ioWrite_frame s addr val ha
      exact ⟨t, ht, hfd, by simp [Access.message?], fun _ m hm => hm.of_buf_eq hbuf⟩
    | bufRead addr => exact ⟨s, rfl, rfl, by simp [Access.message?], fun _ m hm => hm⟩
    | bufWrite addr val =>
      obtain ⟨hbuf, hfd⟩ := @bufWrite_frame env s addr val ha
      exact ⟨_, rfl, hfd, by simp [Access.message?], fun _ m hm => hm.of_buf_above hbuf⟩
    | message m =>
      refine ⟨_, rfl, receive_connectFd m, ?_, by simp [Access.message?]⟩
      intro m' hm'
      obtain rfl : m = m' := Option.some.inj hm'
      exact holds_receive env s m

end Steps

/-- After a run the buffer holds the message stored last, and the connection is the same.

**Proof sketch.** Induction on the accesses from the end, with `accessStep_holds`. -/
lemma run_accessStep_holds (env : HostEnv) (s : HucState) {as : List Access}
    (has : ∀ a ∈ as, a.Permitted) :
    ∃ t, run (accessStep env) s as = some t ∧ t.connectFd = s.connectFd ∧
      ∀ m, lastMessage as = some m → Holds env t m := by
  induction as using List.reverseRecOn with
  | nil => exact ⟨s, rfl, rfl, by simp [lastMessage]⟩
  | append_singleton as a ih =>
    obtain ⟨t, hrun, hfd, hlast⟩ := ih fun b hb => has b (List.mem_append_left [a] hb)
    obtain ⟨u, hstep, hfd', hnew, hold⟩ :=
      @accessStep_holds env t a (has a (List.mem_append_right as List.mem_cons_self))
    refine ⟨u, run_trans hrun (by rw [run_singleton, hstep]), hfd'.trans hfd, ?_⟩
    intro m hm
    rw [lastMessage_concat] at hm
    cases hmsg : a.message? with
    | none =>
      rw [hmsg, Option.none_or] at hm
      exact hold hmsg m (hlast m hm)
    | some m' =>
      rw [hmsg, Option.some_or] at hm
      exact hnew m (hmsg.trans hm)

/-! ## The doorbell -/

/-- The bytes of the header in the buffer. -/
lemma read_headerOffset (s : HucState) : s.buf.read headerOffset 4 = s.header.bytes := by
  have hlow : ∀ b₂ b₃ : Byte, (b₃ ++ b₂).extractLsb' 0 8 = b₂ := fun _ _ =>
    BitVec.extractLsb'_append_eq_right
  have hhigh : ∀ b₂ b₃ : Byte, (b₃ ++ b₂).extractLsb' 8 8 = b₃ := fun _ _ =>
    BitVec.extractLsb'_append_eq_left
  simp only [HucMsgHeader.bytes, HucState.header, HucMsgHeader.ofBytes, hlow, hhigh]
  simp [ByteMem.read, List.range_succ]

/-- **The doorbell returns the stored message**: from any state of the device and for any number of
vCPUs, after every run of fully received messages, accesses to the registers of BAR0, reads of BAR1
and writes to its control words, a write to word 2 sends on the connection the header of the message
stored last and then its payload, for an affinity message with the vCPU count in the bytes 2 and 3,
and nothing else.

**Proof sketch.** The buffer holds that message (`run_accessStep_holds`); the doorbell reads the
header where it was stored, and from it the length of the payload. -/
theorem doorbell_returns (env : HostEnv) (s : HucState) {as : List Access}
    (has : ∀ a ∈ as, a.Permitted) {m : HucMsg} (hm : lastMessage as = some m) {addr : BitVec 64}
    (hidx : bufIndex addr = 2) (val : BitVec 64) :
    ∃ t, run (accessStep env) s as = some t ∧ t.connectFd = s.connectFd ∧
      (hucdevBufmmioWrite env t addr val 4).2 =
        [.send s.connectFd m.header.bytes, .send s.connectFd (m.delivered env)] := by
  obtain ⟨t, hrun, hfd, hlast⟩ := run_accessStep_holds env s has
  have hholds := hlast m hm
  have hpayload : t.payload = m.delivered env := by
    rw [HucState.payload, hholds.header, HucMsg.toNat_payloadLen, hholds.payload]
  refine ⟨t, hrun, hfd, ?_⟩
  rw [bufmmioWrite_two hidx]
  simp only [read_headerOffset, hholds.header, hpayload, hfd]

/-- An affinity message of three bytes. -/
def affinityMsg : HucMsg :=
  ⟨defaultVersion, MsgType.programInjectionAffinity.code, [7, 8, 9], by decide⟩

/-- After a longer message the doorbell sends the three bytes of the affinity message, the last one
of them from the vCPU count. -/
theorem doorbell_returns_three :
    ∃ t, run (accessStep ⟨2, 0⟩) restState
        [.op (.message (injectMsg (List.replicate 9 0x95#8) (by decide))),
          .op (.message affinityMsg), .ioRead 0#64, .op (.bufWrite 4#64 3#64)] = some t ∧
      (hucdevBufmmioWrite ⟨2, 0⟩ t 8#64 1#64 4).2 = [.send 4 [1, 3, 3, 0], .send 4 [7, 8, 2]] := by
  obtain ⟨t, hrun, -, hsend⟩ := @doorbell_returns ⟨2, 0⟩ restState
    [.op (.message (injectMsg (List.replicate 9 0x95#8) (by decide))),
      .op (.message affinityMsg), .ioRead 0#64, .op (.bufWrite 4#64 3#64)] (by
      intro a ha
      fin_cases ha
      · trivial
      · trivial
      · exact (by decide : (0#64).toNat ≤ 15)
      · exact (by decide : bufIndex 4#64 ≤ 3)) affinityMsg rfl 8#64 (by decide) 1#64
  exact ⟨t, hrun, hsend⟩

end Huc
