import Huc.Device.Interrupt
import Huc.Newdev.Basic

set_option relaxedAutoImplicit false
set_option autoImplicit false

/-!
# From `newdev` to `hucdev`

`hucdev.c` is `newdev` written anew. The two devices are put side by side here: both are given the
same accesses, and what they answer and ask of their environment is recorded. With the remapping
off they do the same on every access but one. In `newdev_io_write` the case of the register that
raises interrupts has no `break`, so that whatever is raised is lowered at once; `hucdev_io_write`
has the `break`.

## Main definitions

* `Huc.Reply`, `Huc.hucReply`, `Huc.newdevReply` — the value read and the calls made.
* `Huc.newdevStep` — one access to `newdev`.
* `Huc.Both`, `Huc.bothStep` — the two devices side by side.
* `Huc.Both.Same` — they have answered alike, and have the same registers, buffer and interrupt.

## Main results

* `Huc.newdevIoRead_eq`, `Huc.newdevIoWrite_eq`, `Huc.newdevBufmmioWrite_eq`,
  `Huc.newdevReceive_eq` — the callbacks of `newdev` on a state of `hucdev`.
* `Huc.rewrite_faithful_iff` — the runs along which the devices cannot be told apart.
* `Huc.along_harmless_iff` — the same by the accesses alone, for a line that starts in step.
-/

namespace Huc

open Transition

/-! ## One access -/

/-- The value that an access returns, if it is a read, and the calls it makes. -/
structure Reply where
  read : Option (BitVec 64)
  effects : List Effect
  deriving DecidableEq

/-- The reply of `hucdev`. -/
def hucReply (env : HostEnv) (s : HucState) : Access → Reply
  | .ioRead addr => ⟨some (hucdevIoRead s addr), []⟩
  | .op (.bufRead addr) => ⟨some (hucdevBufmmioRead s addr 4), []⟩
  | .op op => ⟨none, deviceEffects env s op⟩

/-- `newdev` after an access; `none` if it aborts or reads out of bounds. -/
def newdevStep (env : NewdevEnv) (s : NewdevState) : Access → Option NewdevState
  | .ioRead addr => (newdevIoRead s addr).map fun _ => s
  | .op (.ioWrite addr val) => newdevIoWrite s addr val
  | .op (.bufRead _) => some s
  | .op (.bufWrite addr val) => some (newdevBufmmioWrite env s addr val 4).1
  | .op (.message m) => some (newdevReceive env s m).1

/-- The reply of `newdev`. -/
def newdevReply (env : NewdevEnv) (s : NewdevState) : Access → Reply
  | .ioRead addr => ⟨newdevIoRead s addr, []⟩
  | .op (.ioWrite _ _) => ⟨none, []⟩
  | .op (.bufRead addr) => ⟨some (newdevBufmmioRead s addr 4), []⟩
  | .op (.bufWrite addr val) => ⟨none, (newdevBufmmioWrite env s addr val 4).2⟩
  | .op (.message m) => ⟨none, (newdevReceive env s m).2⟩

/-- BAR0 is accessed at the offsets 0 to 15, and the message does not switch the remapping. -/
def Access.Common : Access → Prop
  | .ioRead addr => addr.toNat ≤ 15
  | .op (.ioWrite addr _) => addr.toNat ≤ 15
  | .op (.message m) => m.type ≠ MsgType.htRemapping.code
  | _ => True

/-- An access that both devices are compared on. -/
abbrev CommonAccess := {a : Access // a.Common}

/-! ## The callbacks on the same state -/

/-- The state of `hucdev` as one of `newdev`. -/
def HucState.toNewdev (s : HucState) : NewdevState :=
  ⟨s.ioregs, s.buf, s.irqStatus, s.irqLine, s.hyperthreadingRemapping, s.listenFd, s.connectFd⟩

section Callbacks

variable {env : NewdevEnv} {s : HucState}

/-- **A BAR0 read** is the same. -/
lemma newdevIoRead_eq {addr : BitVec 64} (h : addr.toNat ≤ 15) :
    newdevIoRead s.toNewdev addr = some (hucdevIoRead s addr) := by
  obtain ⟨h92, h4⟩ := regOffset_named h
  rw [newdevIoRead, hucdevIoRead, dif_pos h92, dif_pos h92, if_pos h4]
  split_ifs <;> rfl

/-- **A BAR0 write** is the same, but that `newdev` lowers what it has raised. -/
lemma newdevIoWrite_eq {addr : BitVec 64} (val : BitVec 64) (h : addr.toNat ≤ 15) :
    ∃ t, hucdevIoWrite s addr val = some t ∧ newdevIoWrite s.toNewdev addr val =
      some (if addr = 8#64 then hucdevLowerIrq t (val.setWidth 32) else t).toNewdev := by
  obtain ⟨h92, h4⟩ := regOffset_named h
  have h8 : regOffset addr = 8 ↔ addr = 8#64 :=
    regOffset_eq_iff (show addr.toNat < 256 by omega) (by norm_num)
  rw [hucdevIoWrite, newdevIoWrite, dif_pos h92, dif_pos h92, if_pos h4, if_pos h4]
  by_cases hraise : addr = 8#64
  · rw [if_pos (h8.mpr hraise), if_pos (h8.mpr hraise)]
    exact ⟨_, rfl, by rw [if_pos hraise]; rfl⟩
  · have hne : ¬regOffset addr = 8 := fun hcon => hraise (h8.mp hcon)
    rw [if_neg hne, if_neg hne]
    split_ifs
    · exact ⟨_, rfl, rfl⟩
    · exact ⟨_, rfl, rfl⟩

/-- **A BAR1 write** is the same while the remapping is off. -/
lemma newdevBufmmioWrite_eq (h : s.hyperthreadingRemapping = false) (addr val : BitVec 64) :
    newdevBufmmioWrite env s.toNewdev addr val 4 =
      ((hucdevBufmmioWrite env.toHostEnv s addr val 4).1.toNewdev,
        (hucdevBufmmioWrite env.toHostEnv s addr val 4).2) := by
  have hht : s.toNewdev.hyperthreadingRemapping = false := h
  have hle := not_lt.mpr (bufOffset_add_le addr)
  rw [newdevBufmmioWrite, if_neg hle, hucdevBufmmioWrite, if_neg hle]
  rcases bufIndex addr with _ | _ | _ | _ | i
  · rfl
  · rfl
  · rfl
  · simp only [hht, setaffinityLoop_of_not_remapping]
    rfl
  · rfl

/-- **A message** is the same. -/
lemma newdevReceive_eq (m : HucMsg) :
    newdevReceive env s.toNewdev m =
      ((receive env.toHostEnv s m).1.toNewdev, (receive env.toHostEnv s m).2) := by
  have hstore : s.toNewdev.store m = (s.store m).toNewdev := rfl
  have htype : (s.store m).toNewdev.header.type = (s.store m).header.type := rfl
  rw [newdevReceive, receive, hstore, newdevDispatch, dispatch, htype]
  rcases MsgType.ofCode? (s.store m).header.type with _ | t
  · rfl
  · cases t <;> rfl

/-- **The replies** are the same while the remapping is off. -/
lemma newdevReply_eq (h : s.hyperthreadingRemapping = false) {a : Access} (ha : a.Common) :
    newdevReply env s.toNewdev a = hucReply env.toHostEnv s a := by
  cases a with
  | ioRead addr => rw [newdevReply, newdevIoRead_eq ha, hucReply]
  | op op =>
    cases op with
    | ioWrite addr val => rfl
    | bufRead addr => rfl
    | bufWrite addr val =>
      rw [newdevReply, newdevBufmmioWrite_eq h]
      rfl
    | message m =>
      rw [newdevReply, newdevReceive_eq]
      rfl

end Callbacks

/-! ## The two devices side by side -/

/-- The two devices, and what they have replied so far. -/
structure Both where
  huc : HucState
  newdev : NewdevState
  hucReplies : List Reply
  newdevReplies : List Reply

/-- The same state in both devices. -/
def Both.start (s : HucState) : Both := ⟨s, s.toNewdev, [], []⟩

/-- The same access to both devices; `none` if one of them aborts. -/
def bothStep (env : NewdevEnv) (b : Both) (a : CommonAccess) : Option Both :=
  (accessStep env.toHostEnv b.huc a.1).bind fun huc =>
    (newdevStep env b.newdev a.1).map fun newdev =>
      { huc := huc
        newdev := newdev
        hucReplies := b.hucReplies ++ [hucReply env.toHostEnv b.huc a.1]
        newdevReplies := b.newdevReplies ++ [newdevReply env b.newdev a.1] }

/-- **The devices cannot be told apart**: the values read, the bytes sent and the affinities set so
far are the same, and so are the interrupt, the registers and the buffer. -/
structure Both.Same (b : Both) : Prop where
  replies : b.hucReplies = b.newdevReplies
  irqStatus : b.huc.irqStatus = b.newdev.irqStatus
  irqLine : b.huc.irqLine = b.newdev.irqLine
  ioregs : b.huc.ioregs = b.newdev.ioregs
  buf : b.huc.buf = b.newdev.buf

/-- The access raises nothing through BAR0; and when it raises zero there, the line is not left high
over an empty status. -/
def Harmless (b : Both) (a : CommonAccess) : Prop :=
  ∀ val, a.1 = .op (.ioWrite 8#64 val) →
    val.setWidth 32 = 0#32 ∧ (b.huc.irqStatus = 0#32 → b.huc.irqLine = false)

/-- Everything about the devices is the same, and the remapping is off. -/
structure Both.Alike (b : Both) : Prop where
  newdev : b.newdev = b.huc.toNewdev
  replies : b.newdevReplies = b.hucReplies
  remapping : b.huc.hyperthreadingRemapping = false

/-- Devices that are alike cannot be told apart. -/
lemma Both.Alike.same {b : Both} (h : b.Alike) : b.Same := by
  have hnewdev := h.newdev
  exact ⟨h.replies.symm, by rw [hnewdev]; rfl, by rw [hnewdev]; rfl, by rw [hnewdev]; rfl,
    by rw [hnewdev]; rfl⟩

/-- What `newdev` makes of the state after an access: it lowers what has been raised by BAR0. -/
def fallThrough (a : Access) (s : HucState) : HucState :=
  match a with
  | .op (.ioWrite addr val) => if addr = 8#64 then hucdevLowerIrq s (val.setWidth 32) else s
  | _ => s

section Steps

variable {env : NewdevEnv} {s : HucState}

/-- **One access to both devices**, from the same state.

**Proof sketch.** By the access, with the lemma about its callback. None of them switches the
remapping, since the message that does so is excluded. -/
lemma newdevStep_eq (h : s.hyperthreadingRemapping = false) (a : CommonAccess) :
    ∃ t, accessStep env.toHostEnv s a.1 = some t ∧
      newdevStep env s.toNewdev a.1 = some (fallThrough a.1 t).toNewdev ∧
      t.hyperthreadingRemapping = false := by
  obtain ⟨a, ha⟩ := a
  cases a with
  | ioRead addr => exact ⟨s, rfl, by rw [newdevStep, newdevIoRead_eq ha]; rfl, h⟩
  | op op =>
    cases op with
    | ioWrite addr val =>
      obtain ⟨t, ht, hnewdev⟩ := @newdevIoWrite_eq s addr val ha
      refine ⟨t, ht, hnewdev, ?_⟩
      rw [hucdevIoWrite] at ht
      split_ifs at ht <;> obtain rfl := Option.some.inj ht <;> exact h
    | bufRead addr => exact ⟨s, rfl, rfl, h⟩
    | bufWrite addr val =>
      refine ⟨_, rfl, by rw [newdevStep, newdevBufmmioWrite_eq h]; rfl, ?_⟩
      rw [hucdevBufmmioWrite, if_neg (not_lt.mpr (bufOffset_add_le addr))]
      rcases bufIndex addr with _ | _ | _ | _ | i <;> exact h
    | message m =>
      refine ⟨_, rfl, by rw [newdevStep, newdevReceive_eq]; rfl, ?_⟩
      rw [receive, dispatch, type_store]
      rcases ht : MsgType.ofCode? m.type with _ | t
      · exact h
      · cases t with
        | htRemapping => exact absurd (MsgType.ofCode?_eq_some.mp ht) ha
        | _ => exact h

/-- Lowering what has just been raised changes nothing only if nothing is raised.

**Proof sketch.** A bit of `v` is raised and then lowered, so the status is the same only if `v` is
zero. With zero the raise leaves the line and the lowering of zero clears it if the status is
empty. -/
lemma lower_raise_iff (s : HucState) (v : Word) :
    (hucdevRaiseIrq s v).irqStatus = (hucdevLowerIrq (hucdevRaiseIrq s v) v).irqStatus ∧
        (hucdevRaiseIrq s v).irqLine = (hucdevLowerIrq (hucdevRaiseIrq s v) v).irqLine ↔
      v = 0#32 ∧ (s.irqStatus = 0#32 → s.irqLine = false) := by
  have hstatus : s.irqStatus ||| v = (s.irqStatus ||| v) &&& ~~~v ↔ v = 0#32 := by
    constructor
    · intro h
      ext i hi
      have hbit := congrArg (fun x : Word => x.getLsbD i) h
      simp only [BitVec.getLsbD_or, BitVec.getLsbD_and, BitVec.getLsbD_not, hi, decide_true,
        Bool.true_and] at hbit
      cases hv : v.getLsbD i with
      | false => simpa [BitVec.getLsbD_eq_getElem hi] using hv
      | true => simp [hv] at hbit
    · rintro rfl
      rw [BitVec.not_zero, BitVec.and_allOnes]
  simp only [hucdevRaiseIrq, hucdevLowerIrq, hstatus]
  refine and_congr_right ?_
  rintro rfl
  have hkeep : s.irqStatus &&& ~~~0#32 = s.irqStatus := by
    rw [BitVec.not_zero, BitVec.and_allOnes]
  simp only [BitVec.or_zero, hkeep]
  by_cases h0 : s.irqStatus = 0#32
  · simp [h0]
  · simp [h0]

/-- The access is harmless exactly if falling through changes nothing.

**Proof sketch.** For a write to the register that raises, this is `lower_raise_iff`. Any other
access does not fall through, and is harmless. -/
lemma harmless_iff {b : Both} {a : CommonAccess} {t : HucState}
    (h : accessStep env.toHostEnv b.huc a.1 = some t) :
    Harmless b a ↔ t.irqStatus = (fallThrough a.1 t).irqStatus ∧
      t.irqLine = (fallThrough a.1 t).irqLine := by
  by_cases hraise : ∃ val, a.1 = .op (.ioWrite 8#64 val)
  · obtain ⟨val, ha⟩ := hraise
    rw [ha] at h
    obtain rfl : hucdevRaiseIrq b.huc (val.setWidth 32) = t := Option.some.inj h
    have hfall : ∀ u, fallThrough a.1 u = hucdevLowerIrq u (val.setWidth 32) := by
      intro u
      rw [ha]
      rfl
    rw [hfall, lower_raise_iff]
    constructor
    · intro hharm
      exact hharm val ha
    · intro hzero val' ha'
      rw [ha] at ha'
      obtain rfl : val = val' := by simpa using ha'
      exact hzero
  · have hfall : fallThrough a.1 t = t := by
      unfold fallThrough
      split
      · rename_i addr val ha
        rw [if_neg]
        rintro rfl
        exact hraise ⟨val, ha⟩
      · rfl
    rw [hfall]
    exact iff_of_true (fun val ha => absurd ⟨val, ha⟩ hraise) ⟨rfl, rfl⟩

/-- Lowering that changes neither status nor line changes nothing. -/
lemma fallThrough_eq_self {a : Access} {t : HucState}
    (hstatus : t.irqStatus = (fallThrough a t).irqStatus)
    (hline : t.irqLine = (fallThrough a t).irqLine) : fallThrough a t = t := by
  have hself : fallThrough a t = { t with
      irqStatus := (fallThrough a t).irqStatus, irqLine := (fallThrough a t).irqLine } := by
    unfold fallThrough
    split
    · split_ifs
      · rfl
      · rfl
    · rfl
  rw [hself, ← hstatus, ← hline]

/-- **One access to both devices**, from devices that are alike: they are alike after it or can be
told apart, according to whether the access is harmless. -/
lemma bothStep_alike {b : Both} (hb : b.Alike) (a : CommonAccess) :
    ∃ c, bothStep env b a = some c ∧ (Harmless b a → c.Alike) ∧ (c.Same → Harmless b a) := by
  obtain ⟨t, ht, hnewdev, hremap⟩ := @newdevStep_eq env b.huc hb.remapping a
  rw [← hb.newdev] at hnewdev
  have hreply : newdevReply env b.newdev a.1 = hucReply env.toHostEnv b.huc a.1 := by
    rw [hb.newdev]
    exact newdevReply_eq hb.remapping a.2
  refine ⟨_, by rw [bothStep, ht, Option.bind_some, hnewdev, Option.map_some], ?_, ?_⟩
  · intro hharm
    obtain ⟨hstatus, hline⟩ := (harmless_iff ht).mp hharm
    refine ⟨?_, ?_, hremap⟩
    · rw [fallThrough_eq_self hstatus hline]
    · rw [hb.replies, hreply]
  · intro hsame
    exact (harmless_iff ht).mpr ⟨hsame.irqStatus, hsame.irqLine⟩

end Steps

/-! ## All accesses -/

/-- No access makes a device abort.

**Proof sketch.** Only accesses to BAR0 can fail, and they do not at the offsets 0 to 15; for
`newdev` this is read off the lemmas about a state of `hucdev`. -/
lemma bothStep_enabled (env : NewdevEnv) (b : Both) (a : CommonAccess) :
    ∃ c, bothStep env b a = some c := by
  obtain ⟨t, ht⟩ : ∃ t, accessStep env.toHostEnv b.huc a.1 = some t := by
    obtain ⟨a, ha⟩ := a
    cases a with
    | ioRead addr => exact ⟨_, rfl⟩
    | op op =>
      cases op with
      | ioWrite addr val =>
        obtain ⟨t, ht, -⟩ := @newdevIoWrite_eq b.huc addr val ha
        exact ⟨t, ht⟩
      | _ => exact ⟨_, rfl⟩
  obtain ⟨u, hu⟩ : ∃ u, newdevStep env b.newdev a.1 = some u := by
    obtain ⟨a, ha⟩ := a
    -- every state of `newdev` is one of `hucdev`
    let s : HucState := ⟨b.newdev.ioregs, b.newdev.buf, b.newdev.irqStatus, b.newdev.irqLine,
      b.newdev.hyperthreadingRemapping, b.newdev.listenFd, b.newdev.connectFd⟩
    have hs : b.newdev = s.toNewdev := rfl
    cases a with
    | ioRead addr => exact ⟨_, by rw [newdevStep, hs, newdevIoRead_eq ha]; rfl⟩
    | op op =>
      cases op with
      | ioWrite addr val =>
        obtain ⟨t, -, hu⟩ := @newdevIoWrite_eq s addr val ha
        exact ⟨_, hu⟩
      | _ => exact ⟨_, rfl⟩
  exact ⟨_, by rw [bothStep, ht, Option.bind_some, hu, Option.map_some]⟩

/-- **The runs along which the devices cannot be told apart**: for any number of vCPUs, host CPUs
and content of the memory of `CPU_ALLOC`, from the same state with the remapping off, and for all
accesses to the offsets 0 to 15 of BAR0 and to BAR1 and all messages but `HT_REMAPPING`, after each
of them the two devices have returned the same values, sent the same bytes and made the same calls
of `sched_setaffinity`, and have the same status, interrupt line, registers and buffer, if and only
if no value but zero is ever written to the register of BAR0 that raises interrupts, nor zero while
the line is high over an empty status.

**Proof sketch.** A harmless access leads from devices that are alike to devices that are alike; any
other one is undone by `newdev` at once. -/
theorem rewrite_faithful_iff (env : NewdevEnv) {s : HucState}
    (h : s.hyperthreadingRemapping = false) (as : List CommonAccess) :
    ∃ u, run (bothStep env) (Both.start s) as = some u ∧
      (Always (bothStep env) Both.Same (Both.start s) as ↔
        Along (bothStep env) Harmless (Both.start s) as) := by
  obtain ⟨u, hrun⟩ := exists_run_of_enabled (bothStep_enabled env) (Both.start s) as
  refine ⟨u, hrun, always_iff_along (I := Both.Alike) ?_ (fun _ hb => hb.same) ?_
    ⟨rfl, rfl, h⟩ hrun⟩
  · intro b a c hb hharm hstep
    obtain ⟨c', hc', halike, -⟩ := @bothStep_alike env b hb a
    obtain rfl := Option.some.inj (hc'.symm.trans hstep)
    exact halike hharm
  · intro b a c hb hstep hsame
    obtain ⟨c', hc', -, hharm⟩ := @bothStep_alike env b hb a
    obtain rfl := Option.some.inj (hc'.symm.trans hstep)
    exact hharm hsame

/-- An access keeps the line of `hucdev` in step with its status. -/
lemma accessStep_lineInv {env : HostEnv} {s t : HucState} (h : LineInv s) {a : Access}
    (ha : a.Common) (hstep : accessStep env s a = some t) : LineInv t := by
  cases a with
  | ioRead addr =>
    obtain rfl := Option.some.inj hstep
    exact h
  | op op =>
    have himpl : op.Implemented := by
      cases op with
      | ioWrite addr val => exact ha
      | _ => trivial
    obtain ⟨u, hu, hirq⟩ := deviceStep_irq env s op himpl
    obtain rfl : u = t := Option.some.inj (hu.symm.trans hstep)
    exact hirq.2 h

/-- **With the line in step** at the start, all accesses are harmless exactly if nothing but zero is
raised by BAR0. -/
theorem along_harmless_iff (env : NewdevEnv) {b : Both} (h : LineInv b.huc)
    (as : List CommonAccess) :
    Along (bothStep env) Harmless b as ↔
      ∀ a ∈ as, ∀ val, a.1 = .op (.ioWrite 8#64 val) → val.setWidth 32 = 0#32 := by
  induction as generalizing b with
  | nil => simp [Along]
  | cons a as ih =>
    obtain ⟨c, hc⟩ := bothStep_enabled env b a
    have hinv : LineInv c.huc := by
      obtain ⟨t, ht, hrest⟩ := Option.bind_eq_some_iff.mp hc
      obtain ⟨u, -, rfl⟩ := Option.map_eq_some_iff.mp hrest
      exact accessStep_lineInv h a.2 ht
    rw [along_cons hc, ih hinv, List.forall_mem_cons]
    refine and_congr_left fun _ => ⟨fun hharm val ha => (hharm val ha).1, fun hzero val ha => ?_⟩
    refine ⟨hzero val ha, fun h0 => ?_⟩
    rw [Bool.eq_false_iff]
    intro hline
    exact h.mp hline h0

/-- The guest asks for the vCPUs, the host tool pins them, the guest raises zero and lowers the
interrupt by BAR0 and reads two registers back, and the host tool resets the affinities. -/
def commonRun : List CommonAccess :=
  [⟨.op (.bufWrite 0#64 5#64), trivial⟩,
    ⟨.op (.message ⟨1#8, MsgType.pinOnSame.code, [], by decide⟩),
      show MsgType.pinOnSame.code ≠ MsgType.htRemapping.code by decide⟩,
    ⟨.op (.ioWrite 8#64 0#64), Nat.le_of_ble_eq_true rfl⟩,
    ⟨.op (.ioWrite 12#64 1#64), Nat.le_of_ble_eq_true rfl⟩,
    ⟨.ioRead 0#64, Nat.le_of_ble_eq_true rfl⟩, ⟨.op (.bufRead 0#64), trivial⟩,
    ⟨.op (.message ⟨1#8, MsgType.reset.code, [], by decide⟩),
      show MsgType.reset.code ≠ MsgType.htRemapping.code by decide⟩]

/-- The devices cannot be told apart along it: `newdev` reads the status 4 back, and sets the
affinities as `hucdev` does. -/
theorem rewrite_faithful_four :
    ∃ u, run (bothStep ⟨⟨2, 0⟩, 4⟩) (Both.start restState) commonRun = some u ∧
      Always (bothStep ⟨⟨2, 0⟩, 4⟩) Both.Same (Both.start restState) commonRun ∧
      u.newdevReplies = [⟨none, []⟩,
        ⟨none, [.schedSetaffinity 0 1#64, .schedSetaffinity 1 1#64]⟩, ⟨none, []⟩, ⟨none, []⟩,
        ⟨some 4#64, []⟩, ⟨some 4#64, []⟩,
        ⟨none, [.schedSetaffinity 0 0xFFFFFFFF#64, .schedSetaffinity 1 0xFFFFFFFF#64]⟩] := by
  obtain ⟨u, hrun, hiff⟩ := @rewrite_faithful_iff ⟨⟨2, 0⟩, 4⟩ restState rfl commonRun
  refine ⟨u, hrun, hiff.mpr ?_, ?_⟩
  · rw [along_harmless_iff _ (by simp [LineInv, Both.start, restState])]
    intro a ha val hop
    rw [commonRun, List.mem_cons, List.mem_cons, List.mem_cons, List.mem_cons, List.mem_cons,
      List.mem_cons, List.mem_singleton] at ha
    rcases ha with rfl | rfl | rfl | rfl | rfl | rfl | rfl
    · simp at hop
    · simp at hop
    · obtain rfl : 0#64 = val := by simpa using hop
      rfl
    · simp at hop
    · simp at hop
    · simp at hop
    · simp at hop
  · have hvals : (run (bothStep ⟨⟨2, 0⟩, 4⟩) (Both.start restState) commonRun).map
        Both.newdevReplies = some _ := rfl
    rw [hrun] at hvals
    exact (Option.some.inj hvals).trans (by decide +kernel)

/-- **A raise by BAR0**: `hucdev` has the status 1 and the line high after it, `newdev` the status 0
and the line low. -/
theorem rewrite_raise_undone :
    ∃ a : CommonAccess, a.1 = .op (.ioWrite 8#64 1#64) ∧
      ∃ u, run (bothStep ⟨⟨2, 0⟩, 4⟩) (Both.start restState) [a] = some u ∧
        u.huc.irqStatus = 1#32 ∧ u.huc.irqLine = true ∧
        u.newdev.irqStatus = 0#32 ∧ u.newdev.irqLine = false ∧ ¬u.Same := by
  refine ⟨⟨_, Nat.le_of_ble_eq_true rfl⟩, rfl, _, rfl, rfl, rfl, rfl, rfl, fun hsame => ?_⟩
  have hline : true = false := hsame.irqLine
  exact Bool.noConfusion hline

end Huc
