import Huc.Channel.Basic

set_option relaxedAutoImplicit false
set_option autoImplicit false

/-!
# Lost notifications

A message is announced by its cause in the interrupt status, carried on by the handler as the flag
of the driver, and consumed when the daemon reads the header. Two of these hand-overs can lose it.
The handler acknowledges by value after it has woken the reader, so its acknowledgement also clears
the cause of a message stored in between. And the flag says "header" to whichever read comes next,
also to a read of the payload of an earlier message.

In runs that avoid both, a message whose header has not been read is always still announced
somewhere (`Huc.Announced`), so the system cannot be idle.

## Main definitions

* `Huc.Idle` — nothing is announced and the daemon waits for a header.
* `Huc.Undisturbed` — the condition on messages and wake-ups.
* `Huc.Announced`, `Huc.NotifyInv` — the invariant.

## Main results

* `Huc.header_seen_of_idle` — in an idle state the last message has been seen.
* `Huc.notification_lost` — a run in which the acknowledgement loses a message.
-/

namespace Huc

open Transition

/-! ## Where a message is announced -/

/-- The causes 1 and 3 of the injection messages have bit 0 in common. -/
def Injection (v : Word) : Prop := v.getLsbD 0 = true

instance (v : Word) : Decidable (Injection v) := inferInstanceAs (Decidable (_ = _))

/-- The daemon reads no payload before its next header. -/
def RecvPc.TowardsHeader : RecvPc → Prop
  | .seekHeader => True
  | .readHeader => True
  | .seekPayload h => h.payloadLen.toNat = 0
  | .readPayload _ _ _ => False

/-- Nothing is announced and the daemon is blocked in the read of a header. -/
def Idle (c : Channel) : Prop :=
  c.dev.irqStatus = 0#32 ∧ c.irq = .idle ∧ c.drv.flag = 0 ∧ c.recv.pc = .readHeader

instance (c : Channel) : Decidable (Idle c) := inferInstanceAs (Decidable (_ ∧ _))

/-- An unread message is announced: by the flag to a daemon on its way to a header, by a handler
that will set it, or by a status that the handler will read. -/
def Announced (c : Channel) : Prop :=
  (c.recv.pc.TowardsHeader ∧ 1 ≤ c.drv.flag) ∨
    match c.irq with
    | .idle => Injection c.dev.irqStatus
    | .wake v => Injection v ∨ Injection c.dev.irqStatus
    | .ack v => ¬Injection v ∧ Injection c.dev.irqStatus

/-- The condition: no message is stored between the wake-up for an injection and its
acknowledgement, unless the daemon still has that wake-up before it; and no wake-up for an injection
comes while the daemon is reading a payload. -/
def Undisturbed (c : Channel) : ChannelAct → Prop
  | .host _ => ∀ v, c.irq = .ack v → Injection v → c.recv.pc.TowardsHeader ∧ 1 ≤ c.drv.flag
  | .irqWake => ∀ v, c.irq = .wake v → Injection v → c.recv.pc.TowardsHeader
  | _ => True

/-- The value that a running handler has read is below 4. -/
def IrqPc.Small : IrqPc → Prop
  | .idle => True
  | .wake v => v.toNat < 4
  | .ack v => v.toNat < 4

/-- **The invariant**: only the causes 1 and 3 occur, and a message whose header has not been read
is announced. -/
structure NotifyInv (c : Channel) : Prop where
  status_lt : c.dev.irqStatus.toNat < 4
  irq_small : c.irq.Small
  off_eq : c.recv.pc = .readHeader → c.recv.off = 16
  announced : c.seen ≠ c.stored.length → Announced c

/-! ## Bits of the status -/

/-- The status values below 4 with bit 0 are the ones the handler's switch knows. -/
lemma eq_of_injection {v : Word} (hlt : v.toNat < 4) (h : Injection v) : v = 1#32 ∨ v = 3#32 := by
  have hcases : v.toNat = 0 ∨ v.toNat = 1 ∨ v.toNat = 2 ∨ v.toNat = 3 := by omega
  have hv : v = BitVec.ofNat 32 v.toNat := by simp
  unfold Injection at h
  rcases hcases with hn | hn | hn | hn
  · rw [hv, hn] at h
    exact absurd h (by decide)
  · exact Or.inl (by rw [hv, hn])
  · rw [hv, hn] at h
    exact absurd h (by decide)
  · exact Or.inr (by rw [hv, hn])

/-- The wake-up for an injection sets the flag. -/
lemma flag_irqWake {v : Word} (hlt : v.toNat < 4) (h : Injection v) (drv : Driver) :
    (irqWake drv v).flag = 2 := by
  rcases eq_of_injection hlt h with rfl | rfl
  · rfl
  · rfl

/-- No wake-up clears the flag. -/
lemma one_le_flag_irqWake {drv : Driver} (h : 1 ≤ drv.flag) (v : Word) :
    1 ≤ (irqWake drv v).flag := by
  unfold irqWake
  split_ifs
  · exact one_le_two
  · exact one_le_two
  · exact le_rfl
  · exact h

/-- An injection message raises cause 1 or 3. -/
lemma raisedBy_of_injects {m : HucMsg} (h : m.Injects) :
    (DeviceOp.message m).raisedBy = 1#32 ∨ (DeviceOp.message m).raisedBy = 3#32 := by
  rcases h with h | h
  · exact Or.inl (if_pos h)
  · have hne : m.type ≠ MsgType.programInjection.code := by rw [h]; decide
    exact Or.inr ((if_neg hne).trans (if_pos h))

/-- A received injection message is announced by the status, which stays below 4. -/
lemma receive_injection (env : HostEnv) {dev : HucState} {m : HucMsg} (h : m.Injects)
    (hlt : dev.irqStatus.toNat < 4) :
    (receive env dev m).1.irqStatus.toNat < 4 ∧ Injection (receive env dev m).1.irqStatus := by
  rw [receive_irqStatus]
  have hor : ∀ w : Word, w.toNat < 4 → (dev.irqStatus ||| w).toNat < 4 := by
    intro w hw
    rw [BitVec.toNat_or]
    exact @Nat.or_lt_two_pow _ _ 2 hlt hw
  rcases raisedBy_of_injects h with hr | hr
  · rw [hr]
    refine ⟨hor _ (by decide), ?_⟩
    rw [Injection, BitVec.getLsbD_or]
    simp
  · rw [hr]
    refine ⟨hor _ (by decide), ?_⟩
    rw [Injection, BitVec.getLsbD_or]
    simp

/-- An acknowledgement keeps the status below 4, and keeps an injection it does not acknowledge. -/
lemma lowerIrq_injection {dev : HucState} (v : Word) (hlt : dev.irqStatus.toNat < 4) :
    (hucdevLowerIrq dev v).irqStatus.toNat < 4 ∧
      (¬Injection v → Injection dev.irqStatus → Injection (hucdevLowerIrq dev v).irqStatus) := by
  constructor
  · show (dev.irqStatus &&& ~~~v).toNat < 4
    rw [BitVec.toNat_and]
    exact lt_of_le_of_lt Nat.and_le_left hlt
  · intro hv hs
    show (dev.irqStatus &&& ~~~v).getLsbD 0 = true
    unfold Injection at hv hs
    rw [Bool.not_eq_true] at hv
    rw [BitVec.getLsbD_and, BitVec.getLsbD_not, hs, hv]
    decide

/-! ## The steps -/

section Steps

variable {env : HostEnv} {c c' : Channel}

/-- A message is announced when it is stored. -/
lemma notifyInv_host {m : HucMsg} (h : NotifyInv c) (hg : Undisturbed c (.host m))
    (hstep : channelStep env c (.host m) = some c') : NotifyInv c' := by
  obtain ⟨hm, rfl⟩ := step_host hstep
  obtain ⟨hlt, hinj⟩ := receive_injection env hm h.status_lt
  refine ⟨hlt, h.irq_small, h.off_eq, ?_⟩
  intro _
  unfold Announced
  cases hi : c.irq with
  | idle => exact Or.inr hinj
  | wake v => exact Or.inr (Or.inr hinj)
  | ack v =>
    by_cases hv : Injection v
    · exact Or.inl (hg v hi hv)
    · exact Or.inr ⟨hv, hinj⟩

/-- The handler takes the announcement over from the status. -/
lemma notifyInv_irqRead (h : NotifyInv c) (hstep : channelStep env c .irqRead = some c') :
    NotifyInv c' := by
  obtain ⟨hidle, -, rfl⟩ := step_irqRead hstep
  refine ⟨h.status_lt, h.status_lt, h.off_eq, ?_⟩
  intro hne
  have hann := h.announced hne
  unfold Announced at hann ⊢
  rw [hidle] at hann
  rcases hann with hflag | hs
  · exact Or.inl hflag
  · exact Or.inr (Or.inl hs)

/-- The handler hands the announcement to a daemon on its way to a header. -/
lemma notifyInv_irqWake (h : NotifyInv c) (hg : Undisturbed c .irqWake)
    (hstep : channelStep env c .irqWake = some c') : NotifyInv c' := by
  obtain ⟨v, hi, rfl⟩ := step_irqWake hstep
  have hv : v.toNat < 4 := by
    have := h.irq_small
    rwa [hi] at this
  refine ⟨h.status_lt, hv, h.off_eq, ?_⟩
  intro hne
  have hann := h.announced hne
  unfold Announced at hann ⊢
  simp only [hi] at hann
  by_cases hinj : Injection v
  · exact Or.inl ⟨hg v hi hinj, by rw [flag_irqWake hv hinj]; omega⟩
  · rcases hann with ⟨hto, hflag⟩ | hv' | hs
    · exact Or.inl ⟨hto, one_le_flag_irqWake hflag v⟩
    · exact absurd hv' hinj
    · exact Or.inr ⟨hinj, hs⟩

/-- The acknowledgement clears no announcement but the one handed over. -/
lemma notifyInv_irqAck (h : NotifyInv c) (hstep : channelStep env c .irqAck = some c') :
    NotifyInv c' := by
  obtain ⟨v, hi, rfl⟩ := step_irqAck hstep
  obtain ⟨hlt, hkeep⟩ := lowerIrq_injection v h.status_lt
  refine ⟨hlt, trivial, h.off_eq, ?_⟩
  intro hne
  have hann := h.announced hne
  unfold Announced at hann ⊢
  simp only [hi] at hann
  rcases hann with hflag | ⟨hv, hs⟩
  · exact Or.inl hflag
  · exact Or.inr (hkeep hv hs)

/-- The daemon comes to the read of a header only from the seek before it. -/
lemma daemonCall_pc_ne (h : daemonCall c = some c') (hpc : c.recv.pc ≠ .seekHeader) :
    c'.recv.pc ≠ .readHeader := by
  obtain ⟨r, hr, rfl⟩ := Option.map_eq_some_iff.mp h
  have hpc' : r.recv.pc ≠ .readHeader := by
    unfold recvStep at hr
    cases hp : c.recv.pc with
    | seekHeader => exact absurd hp hpc
    | readHeader =>
      simp only [hp] at hr
      obtain ⟨res, -, rfl⟩ := Option.map_eq_some_iff.mp hr
      simp
    | seekPayload hd =>
      simp only [hp] at hr
      split_ifs at hr <;> obtain rfl := Option.some.inj hr <;> simp
    | readPayload hd payload left =>
      simp only [hp] at hr
      obtain ⟨res, -, rfl⟩ := Option.map_eq_some_iff.mp hr
      split_ifs <;> simp
  rcases hret : r.returned with _ | ⟨hd, p⟩
  · exact hpc'
  · exact hpc'

/-- The daemon consumes the announcement only with the read of a header.

**Proof sketch.** The daemon changes neither the status nor the handler, so that what these announce
is announced still. It changes the flag only with a read, and what the flag announces only with the
read of the header, which is when it has seen the message stored last. -/
lemma notifyInv_daemon (h : NotifyInv c) (hstep : channelStep env c .daemon = some c') :
    NotifyInv c' := by
  have hcall : daemonCall c = some c' := hstep
  obtain ⟨hdev, hirq, hstored, hseen⟩ := daemonCall_frame hcall
  have hlt : c'.dev.irqStatus.toNat < 4 := hdev.symm ▸ h.status_lt
  have hsmall : c'.irq.Small := hirq.symm ▸ h.irq_small
  -- what the status and the handler announce, they announce still
  have hkeep : c'.recv.pc.TowardsHeader → c'.drv.flag = c.drv.flag → Announced c →
      Announced c' := by
    intro hto hflag hann
    unfold Announced at hann ⊢
    rw [hdev, hirq, hflag]
    rcases hann with ⟨-, hf⟩ | hrest
    · exact Or.inl ⟨hto, hf⟩
    · exact Or.inr hrest
  have hmid : ¬c.recv.pc.TowardsHeader → Announced c → Announced c' := by
    intro hto hann
    unfold Announced at hann ⊢
    rw [hdev, hirq]
    rcases hann with ⟨hcon, -⟩ | hrest
    · exact absurd hcon hto
    · exact Or.inr hrest
  -- away from the header no header is about to be read, and what has been seen stays
  have hloop : c.recv.pc ≠ .seekHeader → c.recv.pc ≠ .readHeader → (Announced c → Announced c') →
      NotifyInv c' := by
    intro hseek hread hann
    have hne' := daemonCall_pc_ne hcall hseek
    refine ⟨hlt, hsmall, fun hcon => absurd hcon hne', ?_⟩
    intro hne
    rw [hseen hread, hstored] at hne
    exact hann (h.announced hne)
  cases hpc : c.recv.pc with
  | seekHeader =>
    rw [daemonCall_seekHeader hpc] at hcall
    obtain rfl := Option.some.inj hcall
    exact ⟨hlt, hsmall, fun _ => rfl, fun hne => hkeep trivial rfl (h.announced hne)⟩
  | readHeader =>
    have hr : c.recv = ⟨.readHeader, 16⟩ := by
      rw [← hpc, ← h.off_eq hpc]
    rw [daemonCall_readHeader hr] at hcall
    split_ifs at hcall
    obtain rfl := Option.some.inj hcall
    exact ⟨hlt, hsmall, fun hcon => by simp at hcon, fun hne => absurd rfl hne⟩
  | seekPayload hd =>
    refine hloop (by rw [hpc]; simp) (by rw [hpc]; simp) ?_
    by_cases hn : 0 < hd.payloadLen.toNat
    · exact hmid (by rw [hpc]; exact hn.ne')
    · rw [daemonCall_seekPayload hpc, if_neg hn] at hcall
      obtain rfl := Option.some.inj hcall
      exact hkeep trivial rfl
  | readPayload hd payload left =>
    exact hloop (by rw [hpc]; simp) (by rw [hpc]; simp) (hmid (by rw [hpc]; exact not_false))

/-- Every step that meets the condition keeps the invariant. -/
lemma channelStep_notifyInv {a : ChannelAct} (h : NotifyInv c) (hg : Undisturbed c a)
    (hstep : channelStep env c a = some c') : NotifyInv c' := by
  cases a with
  | host m => exact notifyInv_host h hg hstep
  | irqRead => exact notifyInv_irqRead h hstep
  | irqWake => exact notifyInv_irqWake h hg hstep
  | irqAck => exact notifyInv_irqAck h hstep
  | daemon => exact notifyInv_daemon h hstep

end Steps

/-! ## Idle states -/

/-- Nothing is announced in an idle state. -/
lemma not_announced_of_idle {c : Channel} (h : Idle c) : ¬Announced c := by
  obtain ⟨hstatus, hirq, hflag, -⟩ := h
  unfold Announced
  simp only [hirq, hflag]
  rintro (⟨-, hcon⟩ | hcon)
  · omega
  · rw [hstatus] at hcon
    exact absurd hcon (by decide)

/-- **No notification is lost in undisturbed runs**: in every idle state they reach, the daemon has
read a header since the last message was stored.

**Proof sketch.** The invariant holds along the run; an unread message would be announced, and an
idle state announces nothing. -/
theorem header_seen_of_idle (env : HostEnv) {dev : HucState} (hstatus : dev.irqStatus = 0#32)
    {acts : List ChannelAct} {c : Channel}
    (hg : Along (channelStep env) Undisturbed (Channel.start dev) acts)
    (hrun : run (channelStep env) (Channel.start dev) acts = some c) (hidle : Idle c) :
    c.seen = c.stored.length := by
  have hstart : NotifyInv (Channel.start dev) :=
    { status_lt := by
        show dev.irqStatus.toNat < 4
        rw [hstatus]
        decide
      irq_small := trivial
      off_eq := fun hcon => by simp [Channel.start] at hcon
      announced := fun hne => absurd rfl hne }
  have hinv : NotifyInv c :=
    invariant_of_run_along (fun _ _ _ => channelStep_notifyInv) hstart hg hrun
  by_contra hne
  exact not_announced_of_idle hidle (hinv.announced hne)

/-- A small injection message, for closed examples. -/
def smallMsg (b : Byte) : HucMsg :=
  ⟨defaultVersion, MsgType.programInjection.code, [b, b, b, b], by simp⟩

/-- One message is announced, read and acknowledged. -/
def oneTransfer : List ChannelAct :=
  [.host (smallMsg 1#8), .irqRead, .irqWake, .daemon, .daemon, .irqAck, .daemon, .daemon, .daemon]

/-- After one transfer the channel is idle and the message has been seen. -/
theorem header_seen_of_idle_one :
    ∃ c, run (channelStep ⟨2, 0⟩) (Channel.start restState) oneTransfer = some c ∧ Idle c ∧
      c.stored = [smallMsg 1#8] ∧ c.seen = c.stored.length := by
  have hg : Along (channelStep ⟨2, 0⟩) Undisturbed (Channel.start restState) oneTransfer := by
    refine Along.cons (fun v hi => by simp [Channel.start] at hi) rfl ?_
    refine Along.cons trivial rfl (Along.cons (fun _ _ _ => trivial) rfl ?_)
    exact Along.cons trivial rfl (Along.cons trivial rfl (Along.cons trivial rfl
      (Along.cons trivial rfl (Along.cons trivial rfl (Along.cons trivial rfl trivial)))))
  have hidle : ∃ c, run (channelStep ⟨2, 0⟩) (Channel.start restState) oneTransfer = some c ∧
      Idle c ∧ c.stored = [smallMsg 1#8] := by
    refine ⟨(run (channelStep ⟨2, 0⟩) (Channel.start restState) oneTransfer).get
      (by decide +kernel), (Option.some_get _).symm, ?_⟩
    decide +kernel
  obtain ⟨c, hrun, hi, hstored⟩ := hidle
  exact ⟨c, hrun, hi, hstored, header_seen_of_idle ⟨2, 0⟩ rfl hg hrun hi⟩

/-- A second message is stored after the daemon has read the first one and before the handler
acknowledges it. -/
def lateAck : List ChannelAct :=
  [.host (smallMsg 1#8), .irqRead, .irqWake, .daemon, .daemon, .daemon, .daemon, .daemon,
    .host (smallMsg 2#8), .irqAck]

/-- **A notification is lost**: the acknowledgement of the first message clears the cause of the
second, and the channel is idle with the second message unread. -/
theorem notification_lost :
    ∃ c, run (channelStep ⟨2, 0⟩) (Channel.start restState) lateAck = some c ∧ Idle c ∧
      c.stored = [smallMsg 1#8, smallMsg 2#8] ∧ c.seen = 1 := by
  refine ⟨(run (channelStep ⟨2, 0⟩) (Channel.start restState) lateAck).get (by decide +kernel),
    (Option.some_get _).symm, ?_⟩
  decide +kernel

end Huc
