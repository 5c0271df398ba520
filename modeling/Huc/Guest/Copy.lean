import Huc.Device.Interrupt
import Huc.Guest.Basic
import Huc.Lib.Transition

set_option relaxedAutoImplicit false
set_option autoImplicit false

/-!
# What a read copies

A successful `huc_read` copies one word to the user, whatever the length asked for. The payload loop
of `recv_bytecode` asks for four bytes at a time, and its buffer has as many bytes as the payload:
the last word reaches past the end of it, unless the payload consists of whole words.

A `huc_read` that cannot copy returns `-EFAULT`, but only after it has accounted for the word: the
header is taken as read, or the payload as shorter, while the file offset stays.

## Main definitions

* `Huc.loopStep` — the payload loop, with any state of device and driver at each call.
* `Huc.copiedIndices` — where in the payload buffer a call copies to.

## Main results

* `Huc.loopStep_inLoop` — how far the loop has come.
* `Huc.copies_inside_iff` — the payloads for which the loop stays inside its buffer.
* `Huc.fault_unchanged_iff` — the faulting reads that change nothing.
-/

namespace Huc

open Transition

/-! ## The payload loop -/

/-- A system call of `recv_bytecode` that does not end it, for a state of the device and the
driver. -/
def loopStep (r : Recv) (e : HucState × Driver) : Option Recv :=
  (recvStep e.1 e.2 r).bind fun res => if res.returned.isSome then none else some res.recv

/-- The indices of the payload buffer that a call of `huc_read` in the loop copies to. -/
def copiedIndices (r : Recv) (e : HucState × Driver) : List ℕ :=
  match r.pc with
  | .readPayload _ payload _ =>
    match (hucRead e.1 e.2 4 r.off true).bind ReadResult.copied with
    | some w => List.range' payload.length (leBytes w).length
    | none => []
  | _ => []

/-- How far the loop over the payload of a message with header `h` has come. -/
inductive InLoop (h : HucMsgHeader) : Recv → Prop
  | seek (off : ℕ) : InLoop h ⟨.seekPayload h, off⟩
  | read (payload : List Byte) (off : ℕ) (hwords : payload.length % 4 = 0)
      (hlt : payload.length < h.payloadLen.toNat) (hoff : off % 4 = 0) :
      InLoop h ⟨.readPayload h payload (h.payloadLen.toNat - payload.length), off⟩

section Loop

variable {h : HucMsgHeader} {e : HucState × Driver}

/-- The next iteration of the loop, when there is something to read. -/
lemma loopStep_readPayload {payload : List Byte} {left : ℤ} {off : ℕ} (hflag : 1 ≤ e.2.flag)
    (h4 : off % 4 = 0) {kbuf : Word}
    (hk : (hucdevBufmmioRead e.1 (BitVec.ofNat 64 off) 4).setWidth 32 = kbuf) :
    loopStep ⟨.readPayload h payload left, off⟩ e =
      if 0 < left - 4 then some ⟨.readPayload h (payload ++ leBytes kbuf) (left - 4), off + 4⟩
      else none := by
  have hrecv := @recvStep_readPayload e.1 e.2 h payload left off h4 kbuf hk
  rw [if_neg (by omega)] at hrecv
  by_cases hl : 4 < left
  · simp [loopStep, hrecv, hl]
  · simp [loopStep, hrecv, hl]

/-- **One step of the loop**: the payload read so far consists of whole words and is not complete.

**Proof sketch.** The seek starts the loop for a payload that is not empty; an iteration adds a word
and goes on if some bytes are left. -/
lemma loopStep_inLoop {r r' : Recv} (hr : InLoop h r) (hstep : loopStep r e = some r') :
    InLoop h r' := by
  cases hr with
  | seek off =>
    by_cases hn : 0 < h.payloadLen.toNat
    · simp only [loopStep, recvStep_seekPayload, if_pos hn, Option.bind_some, Option.isSome_none,
        Bool.false_eq_true, if_false, Option.some.injEq] at hstep
      obtain rfl := hstep
      have hstart := InLoop.read [] 20 rfl hn rfl
      simpa using hstart
    · simp [loopStep, recvStep_seekPayload, hn] at hstep
  | read payload off hwords hlt hoff =>
    by_cases hflag : 1 ≤ e.2.flag
    · rw [loopStep_readPayload hflag hoff rfl] at hstep
      split_ifs at hstep with hl
      obtain rfl := Option.some.inj hstep
      have hlen : (payload ++ leBytes ((hucdevBufmmioRead e.1 (BitVec.ofNat 64 off) 4).setWidth
          32)).length = payload.length + 4 := by simp
      have hnext := @InLoop.read h (payload ++ leBytes ((hucdevBufmmioRead e.1
        (BitVec.ofNat 64 off) 4).setWidth 32)) (off + 4) (by omega) (by omega) (by omega)
      rw [hlen] at hnext
      have hleft : (h.payloadLen.toNat : ℤ) - payload.length - 4 =
          h.payloadLen.toNat - (payload.length + 4 : ℕ) := by
        push_cast
        ring
      rw [hleft]
      exact hnext
    · rw [loopStep, recvStep_readPayload hoff rfl, if_pos (by omega)] at hstep
      contradiction

/-- A call in the loop copies a whole word behind what has been read. -/
lemma mem_copiedIndices {r : Recv} (hr : InLoop h r) {k : ℕ} (hk : k ∈ copiedIndices r e) :
    ∃ m, m % 4 = 0 ∧ m < h.payloadLen.toNat ∧ m ≤ k ∧ k < m + 4 := by
  cases hr with
  | seek off => exact absurd hk List.not_mem_nil
  | read payload off hwords hlt hoff =>
    simp only [copiedIndices] at hk
    split at hk
    · rw [List.mem_range'_1, length_leBytes] at hk
      exact ⟨payload.length, hwords, hlt, hk.1, hk.2⟩
    · exact absurd hk List.not_mem_nil

/-- With something to read at every call, the loop comes to each of its words. -/
lemma exists_run_loopStep (h : HucMsgHeader) (off k : ℕ) (hk : 4 * k < h.payloadLen.toNat)
    (he : e.2.flag = 1) :
    ∃ es payload, payload.length = 4 * k ∧ run loopStep ⟨.seekPayload h, off⟩ es =
      some ⟨.readPayload h payload (h.payloadLen.toNat - (4 * k : ℕ)), 20 + 4 * k⟩ := by
  induction k with
  | zero =>
    refine ⟨[e], [], rfl, ?_⟩
    have hn : 0 < h.payloadLen.toNat := by omega
    simp [loopStep, recvStep_seekPayload, hn]
  | succ k ih =>
    obtain ⟨es, payload, hlen, hrun⟩ := ih (by omega)
    refine ⟨es ++ [e], payload ++ leBytes ((hucdevBufmmioRead e.1
      (BitVec.ofNat 64 (20 + 4 * k)) 4).setWidth 32), by simp [hlen]; omega, ?_⟩
    apply run_trans hrun
    rw [run_singleton, loopStep_readPayload (by omega) (by omega) rfl, if_pos (by omega)]
    have hleft : (h.payloadLen.toNat : ℤ) - (4 * k : ℕ) - 4 =
        h.payloadLen.toNat - (4 * (k + 1) : ℕ) := by
      push_cast
      ring
    rw [hleft, show 20 + 4 * k + 4 = 20 + 4 * (k + 1) by omega]

end Loop

/-- **When the payload loop stays inside its buffer**: for every header, whatever device and driver
do between the calls, every byte that a call of `huc_read` in the loop copies lands at an index
below the payload's length, if and only if that length is a multiple of four.

**Proof sketch.** What has been read consists of whole words, so that for whole words another word
fits. Otherwise the undisturbed loop comes to a last word that does not. -/
theorem copies_inside_iff (h : HucMsgHeader) (off : ℕ) :
    (∀ es r e, run loopStep ⟨.seekPayload h, off⟩ es = some r →
      ∀ k ∈ copiedIndices r e, k < h.payloadLen.toNat) ↔ h.payloadLen.toNat % 4 = 0 := by
  constructor
  · intro hinside
    by_contra hrest
    obtain ⟨es, payload, hlen, hrun⟩ := @exists_run_loopStep (restState, ⟨1, 1⟩) h off
      (h.payloadLen.toNat / 4) (by omega) rfl
    have hread := hucRead_four restState ⟨1, 1⟩
      (show (20 + 4 * (h.payloadLen.toNat / 4)) % 4 = 0 by omega)
    rw [if_neg (by decide)] at hread
    have hlast := hinside es _ (restState, ⟨1, 1⟩) hrun (payload.length + 3) (by
      simp [copiedIndices, hread, List.mem_range'_1])
    omega
  · intro hwords es r e hrun k hk
    obtain ⟨m, hm, hlt, -, hkm⟩ := mem_copiedIndices
      (invariant_of_run (fun _ _ _ hr hstep => loopStep_inLoop hr hstep) (InLoop.seek off) hrun) hk
    omega

/-- **A payload of one byte**: the single read of the loop copies to the indices 0 to 3. -/
theorem copies_past_end :
    ∃ es r, run loopStep ⟨.seekPayload ⟨1, 1, 1⟩, 20⟩ es = some r ∧
      copiedIndices r (restState, ⟨1, 1⟩) = [0, 1, 2, 3] ∧
      ¬∀ k ∈ copiedIndices r (restState, ⟨1, 1⟩), k < (1#16).toNat := by
  refine ⟨[(restState, ⟨1, 1⟩)], ⟨.readPayload ⟨1, 1, 1⟩ [] 1, 20⟩, by rfl, by rfl, ?_⟩
  intro hinside
  exact absurd (hinside 3 (by
    rw [show copiedIndices ⟨.readPayload ⟨1, 1, 1⟩ [] 1, 20⟩ (restState, ⟨1, 1⟩) = [0, 1, 2, 3] from
      rfl]
    simp)) (by decide)

/-! ## Faulting reads -/

/-- Accounting for a read of a payload leaves the variables as they are only if the length is a
multiple of the range of an `int`. -/
lemma account_eq_self_iff {drv : Driver} (hflag : drv.flag = 1 ∨ drv.flag = 2)
    (hlow : -2 ^ 31 ≤ drv.payloadLeft) (hhigh : drv.payloadLeft < 2 ^ 31) (kbuf : Word) (len : ℕ) :
    drv.account kbuf len = drv ↔ drv.flag = 1 ∧ len % 2 ^ 32 = 0 ∧ 0 < drv.payloadLeft := by
  obtain ⟨flag, left⟩ := drv
  simp only at hflag hlow hhigh ⊢
  rcases hflag with rfl | rfl
  · have haccount : Driver.account ⟨1, left⟩ kbuf len =
        ⟨if (left - len).bmod (2 ^ 32) ≤ 0 then 0 else 1, (left - len).bmod (2 ^ 32)⟩ := rfl
    have hleft : (left - len).bmod (2 ^ 32) = left ↔ len % 2 ^ 32 = 0 := by
      rw [Int.bmod_def]
      split_ifs <;> omega
    rw [haccount, Driver.mk.injEq, hleft]
    constructor
    · rintro ⟨hflag, hlen⟩
      rw [hleft.mpr hlen] at hflag
      split_ifs at hflag
      exact ⟨rfl, hlen, by omega⟩
    · rintro ⟨-, hlen, hpos⟩
      rw [hleft.mpr hlen, if_neg (by omega)]
      exact ⟨rfl, hlen⟩
  · rw [account_header rfl]
    simp

/-- **The faulting reads that change nothing**: for every state of the driver with something to
read, every file offset and every length, a read that returns `-EFAULT` leaves `flag`,
`payload_left` and the file offset as they were, so that the same read repeated has the outcome it
would have had, if and only if the copy succeeds and the length is not the one that is returned as
the value of `-EFAULT`, or the read ends before the copy (a misaligned offset, or no length), or it
is a payload read with bytes left whose length vanishes in an `int`.

**Proof sketch.** The copy comes after the accounting, and only the offset waits for it. A
successful copy moves the offset, whatever it returns. -/
theorem fault_unchanged_iff (dev : HucState) {drv : Driver} (hflag : drv.flag = 1 ∨ drv.flag = 2)
    (hlow : -2 ^ 31 ≤ drv.payloadLeft) (hhigh : drv.payloadLeft < 2 ^ 31) {len : ℕ}
    (hsize : len < 2 ^ 64) (off : ℕ) (copyOk : Bool) :
    (∀ res, hucRead dev drv len off copyOk = some res → res.ret = -14 →
      res.drv = drv ∧ res.off = off ∧
        hucRead dev res.drv len res.off true = hucRead dev drv len off true) ↔
      (copyOk = true ∧ len ≠ 2 ^ 64 - 14) ∨ off % 4 ≠ 0 ∨ len = 0 ∨
        (drv.flag = 1 ∧ len % 2 ^ 32 = 0 ∧ 0 < drv.payloadLeft) := by
  have hready : ¬drv.flag < 1 := by omega
  by_cases hend : off % 4 ≠ 0 ∨ len = 0
  · have hread : hucRead dev drv len off copyOk = some ⟨drv, off, 0, none⟩ := by
      rw [hucRead, if_neg hready, if_pos hend]
    refine iff_of_true ?_ (by tauto)
    intro res hres hret
    obtain rfl := Option.some.inj (hread.symm.trans hres)
    simp only at hret
    omega
  · obtain ⟨kbuf, hkbuf⟩ :
      ∃ kbuf, (hucdevBufmmioRead dev (BitVec.ofNat 64 off) 4).setWidth 32 = kbuf := ⟨_, rfl⟩
    have hread : hucRead dev drv len off copyOk =
        if copyOk then some ⟨drv.account kbuf len, off + 4, ssize len, some kbuf⟩
        else some ⟨drv.account kbuf len, off, -14, none⟩ := by
      rw [hucRead, if_neg hready, if_neg hend, hkbuf]
    obtain ⟨hoff, hlen⟩ := not_or.mp hend
    cases hcopy : copyOk with
    | true =>
      rw [hcopy, if_pos rfl] at hread
      constructor
      · intro h
        refine Or.inl ⟨rfl, fun heq => ?_⟩
        have hkept := h _ hread
        simp only [ssize_eq_fault_iff hsize] at hkept
        obtain ⟨-, hmoved, -⟩ := hkept heq
        omega
      · intro hcond res hres hret
        obtain rfl := Option.some.inj (hread.symm.trans hres)
        simp only [ssize_eq_fault_iff hsize] at hret
        -- this length is neither zero nor a multiple of the range of an `int`
        omega
    | false =>
      rw [hcopy, if_neg Bool.false_ne_true] at hread
      rw [← account_eq_self_iff hflag hlow hhigh kbuf len, hread]
      simp only [hoff, hlen, Bool.false_eq_true, false_and, false_or]
      constructor
      · intro h
        exact (h _ rfl rfl).1
      · rintro haccount res hres -
        obtain rfl := Option.some.inj hres
        simp only [haccount, and_self]

/-- A read of four bytes of a payload of eight changes nothing by failing if the copy succeeds, and
does otherwise. -/
theorem fault_unchanged_four :
    (∀ res, hucRead restState ⟨1, 8⟩ 4 20 true = some res → res.ret = -14 →
      res.drv = ⟨1, 8⟩ ∧ res.off = 20 ∧
        hucRead restState res.drv 4 res.off true = hucRead restState ⟨1, 8⟩ 4 20 true) ∧
      ¬∀ res, hucRead restState ⟨1, 8⟩ 4 20 false = some res → res.ret = -14 →
        res.drv = ⟨1, 8⟩ ∧ res.off = 20 ∧
          hucRead restState res.drv 4 res.off true = hucRead restState ⟨1, 8⟩ 4 20 true := by
  have hexact (copyOk : Bool) := @fault_unchanged_iff restState ⟨1, 8⟩ (Or.inl rfl) (by decide)
    (by decide) 4 (by decide) 20 copyOk
  exact ⟨(hexact true).mpr (Or.inl ⟨rfl, by decide⟩), fun h => by simpa using (hexact false).mp h⟩

/-- **A header lost**: a faulting read of the header leaves the driver in its payload phase, and a
faulting read of the last word of a payload leaves it with nothing to read. -/
theorem fault_loses_word :
    hucRead restState ⟨2, 0⟩ 4 16 false = some ⟨⟨1, 0⟩, 16, -14, none⟩ ∧
      hucRead restState ⟨1, 4⟩ 4 20 false = some ⟨⟨0, 0⟩, 20, -14, none⟩ ∧
      ¬∀ res, hucRead restState ⟨2, 0⟩ 4 16 false = some res → res.ret = -14 →
        res.drv = ⟨2, 0⟩ ∧ res.off = 16 ∧
          hucRead restState res.drv 4 res.off true = hucRead restState ⟨2, 0⟩ 4 16 true := by
  refine ⟨rfl, rfl, ?_⟩
  intro h
  exact absurd (h ⟨⟨1, 0⟩, 16, -14, none⟩ rfl rfl).1 (by decide)

end Huc
