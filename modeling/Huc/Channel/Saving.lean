import Huc.Channel.Basic
import Huc.Guest.Loader

set_option relaxedAutoImplicit false
set_option autoImplicit false

/-!
# Failing calls in the main loop

The main loop of `guestend/daemon.c` with every outcome of the calls it makes. All returns of
`recv_bytecode` give the same struct, with as much in it as there was time for, and the loop goes on
with it by the type byte it finds there. The result of `save_bytecode` is dropped: the fork follows
in any case, and the child loads what `/tmp/bytecode` then holds.

## Main definitions

* `Huc.RecvCalls.recvBytecode`, `Huc.SaveCalls.saveBytecode` — the two functions, by the outcomes of
  their calls.
* `Huc.Iteration`, `Huc.mainRound` — one round of the main loop.
* `Huc.OnlyComplete` — a child finds the message's payload, and after a failure there is none.

## Main results

* `Huc.shown_of_holds` — what the device file shows is the message that the buffer holds.
* `Huc.recvBytecode_complete`, `Huc.saveBytecode_complete` — the two functions with no call failing.
* `Huc.Iteration.sound_of_four` — a round with no call failing.
* `Huc.onlyComplete_iff` — the rounds in which only complete programs are loaded.
* `Huc.run_mainStep_of_mainRound` — the children are those of the model without failing calls.

## Design

The device file is a memory that stays as it is during a round. A read delivers up to as many bytes
as were asked for, from the file offset on. Blocks of `malloc` and variables that are not
initialised hold any bytes. A pointer that was never set is null or points to some such block, which
`free` accepts.
-/

namespace Huc

open Transition

/-! ## The device file -/

/-- The bytes that reads of the character device deliver, by the file offset. -/
def deviceFile (dev : HucState) : ByteMem := fun off =>
  ((hucdevBufmmioRead dev (BitVec.ofNat 64 (4 * (off / 4))) 4).setWidth 32).extractLsb'
    (8 * (off % 4)) 8

/-- A read of an aligned word delivers four bytes of the file. -/
lemma read_deviceFile (dev : HucState) {off : ℕ} (h4 : off % 4 = 0) :
    (deviceFile dev).read off 4 =
      leBytes ((hucdevBufmmioRead dev (BitVec.ofNat 64 off) 4).setWidth 32) := by
  obtain ⟨q, rfl⟩ := Nat.dvd_of_mod_eq_zero h4
  have hbyte : ∀ i < 4, deviceFile dev (4 * q + i) =
      ((hucdevBufmmioRead dev (BitVec.ofNat 64 (4 * q)) 4).setWidth 32).extractLsb' (8 * i) 8 := by
    intro i hi
    rw [deviceFile, show (4 * q + i) / 4 = q by omega, show (4 * q + i) % 4 = i by omega]
  simp only [ByteMem.read, List.range_succ, List.range_zero, List.nil_append, List.cons_append,
    List.map_cons, List.map_nil, hbyte 0 (by omega), hbyte 1 (by omega), hbyte 2 (by omega),
    hbyte 3 (by omega)]
  rfl

/-- Inside the window the file shows the buffer. -/
lemma deviceFile_eq_buf (dev : HucState) {off : ℕ} (h4 : 4 ≤ off) (hlt : off < 65536) :
    deviceFile dev off = dev.buf off := by
  have hword : (hucdevBufmmioRead dev (BitVec.ofNat 64 (4 * (off / 4))) 4).setWidth 32 =
      dev.buf.word (4 * (off / 4)) :=
    bufmmioRead_word dev (by omega) (by omega) (by omega)
  have hread := read_deviceFile dev (show 4 * (off / 4) % 4 = 0 by omega)
  rw [hword, ByteMem.leBytes_word] at hread
  have hlen : off % 4 < ((deviceFile dev).read (4 * (off / 4)) 4).length := by
    rw [ByteMem.length_read]
    omega
  have hbyte := ByteMem.getElem_read (deviceFile dev) (4 * (off / 4)) 4 (off % 4) hlen
  simp only [hread, ByteMem.getElem_read, Nat.div_add_mod] at hbyte
  exact hbyte.symm

/-- The header in the file. -/
def shownHeader (file : ByteMem) : HucMsgHeader := .ofWord (file.word headerOffset)

/-- The payload in the file, as long as the header there says. -/
def shownPayload (file : ByteMem) : List Byte :=
  file.read payloadOffset (shownHeader file).payloadLen.toNat

/-- **What the device file shows** is the message that the buffer holds, if that fits the window. -/
lemma shown_of_holds {env : HostEnv} {dev : HucState} {m : HucMsg} (h : Holds env dev m)
    (hlen : m.payload.length ≤ windowBytes) :
    shownHeader (deviceFile dev) = m.header ∧ shownPayload (deviceFile dev) = m.delivered env := by
  have hheader : shownHeader (deviceFile dev) = m.header := by
    rw [← h.header, ← ofWord_read_header dev, shownHeader]
    congr 1
    apply leBytes_inj.mp
    rw [ByteMem.leBytes_word]
    exact read_deviceFile dev rfl
  refine ⟨hheader, ?_⟩
  rw [shownPayload, hheader, HucMsg.toNat_payloadLen, ← h.payload]
  apply List.map_congr_left
  intro i hi
  rw [List.mem_range] at hi
  simp only [windowBytes, payloadOffset] at hlen ⊢
  exact deviceFile_eq_buf dev (by omega) (by omega)

/-! ## Receiving and saving -/

/-- `struct bpf_injection_msg_t`, with the memory behind the pointer; `none` for the null
pointer. -/
structure BpfInjectionMsg where
  header : HucMsgHeader
  payload : Option ByteMem

/-- The header variable after a read has delivered the first `k` bytes of the header in the file. -/
def readHeader (header : HucMsgHeader) (file : ByteMem) (k : ℕ) : HucMsgHeader :=
  let var : ByteMem := fun x => header.bytes.getD x 0
  .ofWord ((var.write 0 (file.read headerOffset (min k 4))).word 0)

/-- The payload loop, for the results of its reads in turn: each fails or delivers up to four bytes.
It ends when no byte is left, or with a failure; `none` when it waits for another read. -/
def readPayload (file : ByteMem) : List (Option ℕ) → ByteMem → ℕ → ℤ → Option ByteMem
  | [], payload, _, payloadLeft => if payloadLeft > 0 then none else some payload
  | r :: reads, payload, offset, payloadLeft =>
    if payloadLeft > 0 then
      match r with
      | none => some payload
      | some k =>
        let len := min k 4
        readPayload file reads (payload.write offset (file.read (payloadOffset + offset) len))
          (offset + len) (payloadLeft - len)
    else some payload

/-- A read of the payload loop fails. -/
def ReadFails : List (Option ℕ) → ℤ → Prop
  | [], _ => False
  | none :: _, payloadLeft => payloadLeft > 0
  | some k :: reads, payloadLeft => payloadLeft > 0 ∧ ReadFails reads (payloadLeft - min k 4)

instance decidableReadFails :
    (reads : List (Option ℕ)) → (payloadLeft : ℤ) → Decidable (ReadFails reads payloadLeft)
  | [], _ => inferInstanceAs (Decidable False)
  | none :: _, payloadLeft => inferInstanceAs (Decidable (payloadLeft > 0))
  | some k :: reads, payloadLeft =>
    have := decidableReadFails reads (payloadLeft - min k 4)
    inferInstanceAs (Decidable (_ ∧ _))

/-- The outcomes of the calls in `recv_bytecode`: whether `lseek` succeeds, how much `read`
delivers, and what the block of `malloc` holds. -/
structure RecvCalls where
  seekHeader : Bool
  readHeader : Option ℕ
  malloc : Option ByteMem
  seekPayload : Bool
  readPayload : List (Option ℕ)

namespace RecvCalls

/-- `recv_bytecode`, with the variable `mymsg` as it is before; `none` when a read never returns. -/
def recvBytecode (c : RecvCalls) (file : ByteMem) (mymsg : BpfInjectionMsg) :
    Option BpfInjectionMsg :=
  if c.seekHeader then
    match c.readHeader with
    | none => some mymsg
    | some k =>
      let header := Huc.readHeader mymsg.header file k
      match c.malloc with
      | none => some ⟨header, none⟩
      | some heap =>
        if c.seekPayload then
          (Huc.readPayload file c.readPayload heap 0 header.payloadLen.toNat).map fun payload =>
            ⟨header, some payload⟩
        else some ⟨header, some heap⟩
  else some mymsg

/-- The header in the struct when `recv_bytecode` returns. -/
def header (c : RecvCalls) (file : ByteMem) (before : HucMsgHeader) : HucMsgHeader :=
  if c.seekHeader then
    match c.readHeader with
    | none => before
    | some k => Huc.readHeader before file k
  else before

/-- A call of `recv_bytecode` fails, for a payload of `len` bytes. -/
def Fails (c : RecvCalls) (len : ℕ) : Prop :=
  c.seekHeader = false ∨ c.readHeader = none ∨ c.malloc = none ∨ c.seekPayload = false ∨
    ReadFails c.readPayload len

instance (c : RecvCalls) (len : ℕ) : Decidable (c.Fails len) :=
  inferInstanceAs (Decidable (_ ∨ _))

end RecvCalls

/-- The outcomes of the calls in `save_bytecode`: whether `fopen` and `fclose` succeed, how many
bytes `fwrite` takes, and how many of these reach the file although a call has failed. -/
structure SaveCalls where
  fopen : Bool
  fwrite : ℕ
  fclose : Bool
  kept : ℕ

namespace SaveCalls

/-- `save_bytecode`: the result, and the file after it; `none` when `fwrite` takes bytes from the
null pointer. Opening truncates the file. -/
def saveBytecode (c : SaveCalls) (saved : Option (List Byte)) (buf : Option ByteMem) (len : ℕ) :
    Option (ℤ × Option (List Byte)) :=
  if c.fopen then
    let taken := min c.fwrite len
    (if taken = 0 then some [] else buf.map fun m => m.read 0 taken).map fun data =>
      if taken ≠ len then (1, some (data.take c.kept))
      else if c.fclose then (0, some data)
      else (1, some (data.take c.kept))
  else some (1, saved)

/-- A call of `save_bytecode` fails, for `len` bytes. -/
def Fails (c : SaveCalls) (len : ℕ) : Prop := c.fopen = false ∨ c.fwrite < len ∨ c.fclose = false

instance (c : SaveCalls) (len : ℕ) : Decidable (c.Fails len) :=
  inferInstanceAs (Decidable (_ ∨ _))

end SaveCalls

/-! ## The main loop -/

/-- What the parent's rounds change: `/tmp/bytecode`, if it exists, and the children. -/
structure Daemon where
  saved : Option (List Byte)
  main : MainState

/-- A round of the main loop: the message in the device file, the variable `mymsg` of
`recv_bytecode` before it is set, and the outcomes of the calls. -/
structure Iteration where
  file : ByteMem
  mymsg : BpfInjectionMsg
  recv : RecvCalls
  save : SaveCalls
  fork : ForkOutcome

/-- One round of the main loop, in the parent. -/
def mainRound (s : Daemon) (i : Iteration) : Option Daemon :=
  (i.recv.recvBytecode i.file i.mymsg).bind fun mymsg =>
    if mymsg.header.type = MsgType.programInjection.code then
      (i.save.saveBytecode s.saved mymsg.payload mymsg.header.payloadLen.toNat).bind fun r =>
        (s.main.injected i.fork).map fun main => ⟨r.2, main⟩
    else some s

namespace Iteration

/-- The header that the main loop goes by. -/
def header (i : Iteration) : HucMsgHeader := i.recv.header i.file i.mymsg.header

/-- The main loop takes the message for an injection. -/
def Injects (i : Iteration) : Prop := i.header.type = MsgType.programInjection.code

/-- One of the calls that the round makes to receive and to save fails. -/
def Fails (i : Iteration) : Prop :=
  i.recv.Fails i.header.payloadLen.toNat ∨ i.Injects ∧ i.save.Fails i.header.payloadLen.toNat

instance (i : Iteration) : Decidable i.Injects := inferInstanceAs (Decidable (_ = _))

instance (i : Iteration) : Decidable i.Fails := inferInstanceAs (Decidable (_ ∨ _))

/-- No loader can come of the round, or nothing fails and the header read leaves the length of the
message in the struct. -/
def Sound (i : Iteration) : Prop :=
  ¬i.Injects ∨ i.fork = .failed ∨
    (¬i.Fails ∧ i.header.payloadLen = (shownHeader i.file).payloadLen)

end Iteration

/-- **Only complete programs are loaded** in a round: if a child is forked, `/tmp/bytecode` holds
the payload of the message; and if a call fails, none is forked and none killed. -/
def OnlyComplete (s : Daemon) (i : Iteration) (t : Daemon) : Prop :=
  (t.main.forked ≠ s.main.forked → t.saved = some (shownPayload i.file)) ∧
    (i.Fails → t.main.forked = s.main.forked ∧ t.main.killed = s.main.killed)

/-! ## Complete calls -/

/-- All four bytes of the header replace the variable. -/
lemma readHeader_four (header : HucMsgHeader) (file : ByteMem) :
    readHeader header file 4 = shownHeader file := by
  rw [readHeader, Nat.min_self, ← ByteMem.leBytes_word, ByteMem.word_write_self]
  rfl

/-- A round in which nothing fails and the header is read whole is sound. -/
lemma Iteration.sound_of_four {i : Iteration} (hfails : ¬i.Fails)
    (hread : i.recv.readHeader = some 4) : i.Sound := by
  have hseek : i.recv.seekHeader = true := by
    rw [← Bool.not_eq_false]
    exact fun hseek => hfails (Or.inl (Or.inl hseek))
  have hheader : i.header = shownHeader i.file := by
    simp only [Iteration.header, RecvCalls.header, hseek, hread, if_true]
    exact readHeader_four i.mymsg.header i.file
  exact Or.inr (Or.inr ⟨hfails, by rw [hheader]⟩)

/-- **The payload loop without a failing read** copies the payload.

**Proof sketch.** Induction on the reads: what has been copied are the bytes before `offset`, and
`payload_left` are missing. -/
lemma readPayload_complete {file : ByteMem} {reads : List (Option ℕ)} {payload buf : ByteMem}
    {offset len : ℕ} (hbytes : ∀ j < offset, payload j = file (payloadOffset + j))
    (hfails : ¬ReadFails reads ((len : ℤ) - offset))
    (hread : readPayload file reads payload offset ((len : ℤ) - offset) = some buf) :
    ∀ j < len, buf j = file (payloadOffset + j) := by
  induction reads generalizing payload offset with
  | nil =>
    simp only [readPayload] at hread
    split_ifs at hread with hleft
    obtain rfl := Option.some.inj hread
    intro j hj
    exact hbytes j (by omega)
  | cons r reads ih =>
    simp only [readPayload] at hread
    split_ifs at hread with hleft
    · cases r with
      | none => exact absurd hleft hfails
      | some k =>
        have hoff : (len : ℤ) - offset - (min k 4 : ℕ) = len - (offset + min k 4 : ℕ) := by
          push_cast
          ring
        simp only [hoff] at hread
        refine ih ?_ ?_ hread
        · intro j hj
          rcases Nat.lt_or_ge j offset with hlt | hge
          · rw [ByteMem.write_apply_of_lt _ _ hlt]
            exact hbytes j hlt
          · obtain ⟨d, rfl⟩ := Nat.exists_eq_add_of_le hge
            have hd : d < (file.read (payloadOffset + offset) (min k 4)).length := by
              rw [ByteMem.length_read]
              omega
            rw [ByteMem.write_apply_of_mem _ _ _ _ hd, ByteMem.getElem_read, Nat.add_assoc]
        · intro hrest
          refine hfails ⟨hleft, ?_⟩
          rw [← hoff] at hrest
          exact_mod_cast hrest
    · obtain rfl := Option.some.inj hread
      intro j hj
      exact hbytes j (by omega)

section Calls

variable {c : RecvCalls} {file : ByteMem} {before mymsg : BpfInjectionMsg}

/-- Whatever happens, the struct returned has the header that was read.

**Proof sketch.** By the calls in their order: whichever of them fails, the header is the one before
or the one read so far, as `RecvCalls.header` says. -/
lemma recvBytecode_header_eq (h : c.recvBytecode file before = some mymsg) :
    mymsg.header = c.header file before.header := by
  unfold RecvCalls.recvBytecode at h
  by_cases hseek : c.seekHeader
  · simp only [hseek, if_true] at h
    cases hr : c.readHeader with
    | none =>
      simp only [hr, Option.some.injEq] at h
      simp [RecvCalls.header, hseek, hr, ← h]
    | some k =>
      have hheader : c.header file before.header = readHeader before.header file k := by
        simp [RecvCalls.header, hseek, hr]
      rw [hheader]
      cases hm : c.malloc with
      | none =>
        simp only [hr, hm, Option.some.injEq] at h
        rw [← h]
      | some heap =>
        simp only [hr, hm] at h
        by_cases hseek' : c.seekPayload
        · rw [if_pos hseek'] at h
          obtain ⟨payload, -, rfl⟩ := Option.map_eq_some_iff.mp h
          rfl
        · rw [if_neg hseek'] at h
          rw [← Option.some.inj h]
  · rw [if_neg hseek] at h
    rw [← Option.some.inj h, RecvCalls.header, if_neg hseek]

/-- **`recv_bytecode` with no call failing** returns the payload in the file, as far as the header
that was read says. -/
lemma recvBytecode_complete (h : c.recvBytecode file before = some mymsg)
    (hfails : ¬c.Fails mymsg.header.payloadLen.toNat) :
    ∃ payload, mymsg.payload = some payload ∧
      payload.read 0 mymsg.header.payloadLen.toNat =
        file.read payloadOffset mymsg.header.payloadLen.toNat := by
  simp only [RecvCalls.Fails, not_or, Bool.not_eq_false] at hfails
  obtain ⟨hseek, hread, hmalloc, hseek', hreads⟩ := hfails
  obtain ⟨k, hk⟩ := Option.ne_none_iff_exists'.mp hread
  obtain ⟨heap, hheap⟩ := Option.ne_none_iff_exists'.mp hmalloc
  simp only [RecvCalls.recvBytecode, hseek, hk, hheap, hseek', if_true] at h
  obtain ⟨payload, hpayload, rfl⟩ := Option.map_eq_some_iff.mp h
  refine ⟨payload, rfl, ?_⟩
  have hbytes := @readPayload_complete file c.readPayload heap payload 0
    (readHeader before.header file k).payloadLen.toNat (fun j hj => absurd hj (Nat.not_lt_zero j))
    (by simpa using hreads) (by simpa using hpayload)
  apply List.map_congr_left
  intro j hj
  rw [Nat.zero_add]
  exact hbytes j (List.mem_range.mp hj)

/-- **`save_bytecode` with no call failing** leaves the bytes in the file. -/
lemma saveBytecode_complete {c : SaveCalls} {saved : Option (List Byte)} {payload : ByteMem}
    {len : ℕ} (hfails : ¬c.Fails len) :
    c.saveBytecode saved (some payload) len = some (0, some (payload.read 0 len)) := by
  simp only [SaveCalls.Fails, not_or, Bool.not_eq_false, not_lt] at hfails
  obtain ⟨hopen, hwrite, hclose⟩ := hfails
  rw [SaveCalls.saveBytecode, if_pos hopen]
  simp only [Nat.min_eq_right hwrite, hclose, if_true, ne_eq, not_true_eq_false, if_false]
  by_cases hlen : len = 0
  · simp [hlen, ByteMem.read]
  · simp [hlen]

end Calls

/-! ## One round -/

section Round

variable {s t : Daemon} {i : Iteration}

/-- **What a round does**: nothing, if the type is another one; otherwise `/tmp/bytecode` is
whatever `save_bytecode` leaves, and the fork follows. -/
lemma mainRound_cases (h : mainRound s i = some t) :
    (¬i.Injects ∧ t = s) ∨
    (i.Injects ∧ ∃ mymsg r, i.recv.recvBytecode i.file i.mymsg = some mymsg ∧
      mymsg.header = i.header ∧
      i.save.saveBytecode s.saved mymsg.payload i.header.payloadLen.toNat = some r ∧
      t.saved = r.2 ∧ s.main.injected i.fork = some t.main) := by
  obtain ⟨mymsg, hrecv, hrest⟩ := Option.bind_eq_some_iff.mp h
  have hheader : mymsg.header = i.header := recvBytecode_header_eq hrecv
  rw [hheader] at hrest
  split_ifs at hrest with htype
  · obtain ⟨r, hsave, hfork⟩ := Option.bind_eq_some_iff.mp hrest
    obtain ⟨main, hmain, rfl⟩ := Option.map_eq_some_iff.mp hfork
    exact Or.inr ⟨htype, mymsg, r, hrecv, hheader, hsave, rfl, hmain⟩
  · exact Or.inl ⟨htype, (Option.some.inj hrest).symm⟩

/-- **A round is a step of the loop over types and forks**, whatever else happens in it. -/
lemma mainStep_of_mainRound (h : mainRound s i = some t) :
    mainStep s.main ⟨i.header.type, i.fork⟩ = some t.main := by
  rcases mainRound_cases h with ⟨hinj, rfl⟩ | ⟨hinj, _, _, -, -, -, -, hfork⟩
  · exact if_neg hinj
  · exact (if_pos hinj).trans hfork

/-- A fork that succeeds adds a child. -/
lemma forked_injected {m m' : MainState} {pid : ℤ} (h : m.injected (.child pid) = some m') :
    m'.forked = m.forked ++ [pid] := by
  simp only [MainState.injected] at h
  split_ifs at h
  · rw [← Option.some.inj h]
  · rw [← Option.some.inj h]

/-- A fork that fails adds none and kills none. -/
lemma injected_failed {m m' : MainState} (h : m.injected .failed = some m') :
    m'.forked = m.forked ∧ m'.killed = m.killed := by
  obtain rfl := Option.some.inj h
  exact ⟨rfl, rfl⟩

/-- **The rounds in which only complete programs are loaded.**

**Proof sketch.** A round that takes the message for an injection forks whatever has happened
before. If nothing has, `/tmp/bytecode` holds as many bytes of the payload as the struct says. -/
lemma onlyComplete_step_iff (h : mainRound s i = some t) : OnlyComplete s i t ↔ i.Sound := by
  rcases mainRound_cases h with ⟨hinj, rfl⟩ | ⟨hinj, mymsg, r, hrecv, hheader, hsave, hsaved, hfork⟩
  · exact iff_of_true ⟨fun hne => absurd rfl hne, fun _ => ⟨rfl, rfl⟩⟩ (Or.inl hinj)
  · cases hf : i.fork with
    | failed =>
      rw [hf] at hfork
      obtain ⟨hforked, hkilled⟩ := injected_failed hfork
      exact iff_of_true ⟨fun hne => absurd hforked hne, fun _ => ⟨hforked, hkilled⟩⟩
        (Or.inr (Or.inl hf))
    | child pid =>
      rw [hf] at hfork
      have hforked : t.main.forked ≠ s.main.forked := by
        rw [forked_injected hfork]
        simp
      have hcomplete : ¬i.Fails →
          t.saved = some (i.file.read payloadOffset i.header.payloadLen.toNat) := by
        intro hfails
        obtain ⟨hrecvOk, hsaveOk⟩ := not_or.mp hfails
        rw [← hheader] at hrecvOk
        obtain ⟨payload, hpayload, hbytes⟩ := recvBytecode_complete hrecv hrecvOk
        rw [hpayload, saveBytecode_complete fun hfail => hsaveOk ⟨hinj, hfail⟩] at hsave
        rw [hsaved, ← Option.some.inj hsave, ← hheader, hbytes]
      have hsound : i.Sound ↔
          ¬i.Fails ∧ i.header.payloadLen = (shownHeader i.file).payloadLen := by
        simp [Iteration.Sound, hinj, hf]
      rw [hsound]
      constructor
      · rintro ⟨hfile, hquiet⟩
        have hfails : ¬i.Fails := fun hfail => hforked (hquiet hfail).1
        refine ⟨hfails, ?_⟩
        have heq := (hcomplete hfails).symm.trans (hfile hforked)
        have hlen := congrArg List.length (Option.some.inj heq)
        rw [shownPayload, ByteMem.length_read, ByteMem.length_read] at hlen
        exact BitVec.eq_of_toNat_eq hlen
      · rintro ⟨hfails, hlen⟩
        refine ⟨fun _ => ?_, fun hfail => absurd hfail hfails⟩
        rw [hcomplete hfails, hlen]
        rfl

end Round

/-! ## All rounds -/

/-- **The runs in which only complete programs are loaded**: for all messages and all outcomes of
`lseek`, `read`, `malloc`, `fopen`, `fwrite`, `fclose` and `fork`, in every round a child that is
forked finds in `/tmp/bytecode` exactly the payload of the message just received, and after a
failure no child is forked and none killed, if and only if in every round

* the type byte left in the struct is not `PROGRAM_INJECTION`, or
* `fork` fails, or
* no call fails, and the header read leaves the length of the message in the struct. -/
theorem onlyComplete_iff {s u : Daemon} {is : List Iteration}
    (hrun : run mainRound s is = some u) :
    Along mainRound (fun t i => ∀ t', mainRound t i = some t' → OnlyComplete t i t') s is ↔
      ∀ i ∈ is, i.Sound := by
  induction is generalizing s with
  | nil => simp [Along]
  | cons i is ih =>
    obtain ⟨t, hst, hrest⟩ := run_cons.mp hrun
    have hfirst : (∀ t', mainRound s i = some t' → OnlyComplete s i t') ↔ i.Sound := by
      constructor
      · intro hall
        exact (onlyComplete_step_iff hst).mp (hall t hst)
      · intro hsound t' hst'
        exact (onlyComplete_step_iff hst').mpr hsound
    rw [along_cons hst, ih hrest, hfirst, List.forall_mem_cons]

/-- **The children of a run** are those of the loop over types and forks, so that what holds of its
runs holds whatever calls fail. -/
theorem run_mainStep_of_mainRound {s u : Daemon} {is : List Iteration}
    (hrun : run mainRound s is = some u) :
    run mainStep s.main (is.map fun i => ⟨i.header.type, i.fork⟩) = some u.main :=
  run_image Daemon.main (fun i : Iteration => (⟨i.header.type, i.fork⟩ : MainMsg))
    (fun _ _ _ hstep => mainStep_of_mainRound hstep) hrun

/-- A round for the program `p` in which reading goes well. -/
def programRound (p : List Byte) (reads : List (Option ℕ)) (save : SaveCalls) (pid : ℤ) :
    Iteration where
  file := ByteMem.write (fun _ => 0) headerOffset
    (HucMsgHeader.bytes ⟨defaultVersion, MsgType.programInjection.code, BitVec.ofNat 16 p.length⟩ ++
      p)
  mymsg := ⟨⟨0, 0, 0⟩, none⟩
  recv := ⟨true, some 4, some fun _ => 0, true, reads⟩
  save := save
  fork := .child pid

/-- Two programs, the second read in parts: each is complete when it is loaded. -/
theorem onlyComplete_two :
    ∃ u, run mainRound ⟨none, .start⟩
        [programRound [1, 2] [some 4] ⟨true, 2, true, 0⟩ 100,
          programRound [3, 4, 5] [some 1, some 4] ⟨true, 3, true, 0⟩ 101] = some u ∧
      u.saved = some [3, 4, 5] ∧
      Along mainRound (fun t i => ∀ t', mainRound t i = some t' → OnlyComplete t i t')
        ⟨none, .start⟩
        [programRound [1, 2] [some 4] ⟨true, 2, true, 0⟩ 100,
          programRound [3, 4, 5] [some 1, some 4] ⟨true, 3, true, 0⟩ 101] := by
  refine ⟨⟨some [3, 4, 5], ⟨101, [100, 101], [100]⟩⟩, by rfl, rfl, ?_⟩
  refine (@onlyComplete_iff _ ⟨some [3, 4, 5], ⟨101, [100, 101], [100]⟩⟩ _ (by rfl)).mpr ?_
  intro i hi
  simp only [List.mem_cons, List.not_mem_nil, or_false] at hi
  rcases hi with rfl | rfl
  · exact Iteration.sound_of_four (by decide) rfl
  · exact Iteration.sound_of_four (by decide) rfl

/-- **A program loaded twice**: `/tmp/bytecode` cannot be opened for the second program, and a new
child loads the first one again, after which the old child is killed. -/
theorem onlyComplete_fopen_fails :
    ∃ t u, run mainRound ⟨none, .start⟩ [programRound [1, 2] [some 4] ⟨true, 2, true, 0⟩ 100] =
        some t ∧
      mainRound t (programRound [3, 4, 5] [some 4] ⟨false, 0, true, 0⟩ 101) = some u ∧
      u.saved = some [1, 2] ∧ u.main.running = [101] ∧
      ¬OnlyComplete t (programRound [3, 4, 5] [some 4] ⟨false, 0, true, 0⟩ 101) u := by
  refine ⟨⟨some [1, 2], ⟨100, [100], []⟩⟩, ⟨some [1, 2], ⟨101, [100, 101], [100]⟩⟩, by rfl, by rfl,
    rfl, by rfl, ?_⟩
  rintro ⟨hfile, -⟩
  exact absurd (hfile (by decide)) (by decide)

end Huc
