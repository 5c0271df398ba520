import Huc.Message

set_option relaxedAutoImplicit false
set_option autoImplicit false

/-!
# Preparing an injection message

The host's tools load a program with `prepare_huc_message` of `hostend/huc_msg.h`, or its older form
`prepare_bpf_injection_message`, and send what it returns. The type starts out as
`PROGRAM_INJECTION`, and becomes `ERROR` only if `fread` delivers fewer bytes than the length field
says. Two failures pass by this test: `fopen` and `malloc` return early or skip it. And the length
field has 16 bits, so that of a longer file only the length modulo 65536 is asked for, delivered and
compared.

## Main definitions

* `Huc.HucMsgT.Complete` — a message is the whole file, or an error.
* `Huc.prepareBpfInjectionMessage` — the older form.

## Main results

* `Huc.prepare_complete_iff` — when `prepare_huc_message` returns such a message.
* `Huc.prepareBpfInjectionMessage_eq` — the older form differs only where `malloc` fails.
-/

namespace Huc

/-- The type of an injection message says whether the message carries the whole file: its length is
the file's and its payload points to the file's content, or the type is `ERROR`. -/
def HucMsgT.Complete (msg : HucMsgT) (content : List Byte) : Prop :=
  if msg.header.type = MsgType.programInjection.code then
    msg.header.payloadLen.toNat = content.length ∧ msg.payload = some content
  else msg.header.type = MsgType.error.code

/-- `prepare_bpf_injection_message` of `hostend/bpf_injection_msg.h`: the result of `malloc` is not
tested, and `none` stands for the `fread` into the null pointer that follows. -/
def prepareBpfInjectionMessage (f : FileOutcome) : Option HucMsgT :=
  let header : HucMsgHeader := ⟨defaultVersion, MsgType.programInjection.code, f.junkLen⟩
  if f.fopenOk then
    let header := { header with payloadLen := BitVec.ofNat 16 f.content.length }
    if f.mallocOk then
      let len := min f.freadLen header.payloadLen.toNat
      if len ≠ header.payloadLen.toNat then
        some ⟨{ header with type := MsgType.error.code }, none⟩
      else some ⟨header, some (f.content.take len)⟩
    else if header.payloadLen.toNat = 0 then some ⟨header, none⟩
    else none
  else some ⟨header, none⟩

/-- **The older form** returns the same message, unless `malloc` fails with something to read. -/
lemma prepareBpfInjectionMessage_eq (f : FileOutcome) :
    prepareBpfInjectionMessage f =
      if f.fopenOk = true ∧ f.mallocOk = false ∧ f.content.length % 65536 ≠ 0 then none
      else some (prepareHucMessage f) := by
  simp only [prepareBpfInjectionMessage, prepareHucMessage, BitVec.toNat_ofNat]
  cases f.fopenOk with
  | false => simp
  | true =>
    cases f.mallocOk with
    | false =>
      by_cases h0 : f.content.length % 65536 = 0
      · simp [h0]
      · simp [h0]
    | true =>
      by_cases hlen : min f.freadLen (f.content.length % 65536) = f.content.length % 65536
      · simp [hlen]
      · simp [hlen]

section Cases

variable {f : FileOutcome}

/-- A file that cannot be opened leaves the type as it is and the payload unset. -/
lemma prepareHucMessage_fopen (h : f.fopenOk = false) :
    prepareHucMessage f = ⟨⟨defaultVersion, MsgType.programInjection.code, f.junkLen⟩, none⟩ := by
  simp [prepareHucMessage, h]

/-- So does a failed allocation. -/
lemma prepareHucMessage_malloc (h : f.fopenOk = true) (h' : f.mallocOk = false) :
    prepareHucMessage f = ⟨⟨defaultVersion, MsgType.programInjection.code,
      BitVec.ofNat 16 f.content.length⟩, none⟩ := by
  simp [prepareHucMessage, h, h']

/-- A short `fread` is an error. -/
lemma prepareHucMessage_short (h : f.fopenOk = true) (h' : f.mallocOk = true)
    (hshort : f.freadLen < f.content.length % 65536) :
    prepareHucMessage f = ⟨⟨defaultVersion, MsgType.error.code,
      BitVec.ofNat 16 f.content.length⟩, none⟩ := by
  simp [prepareHucMessage, h, h', hshort]

/-- An `fread` of the length asked for gives the file up to that length. -/
lemma prepareHucMessage_full (h : f.fopenOk = true) (h' : f.mallocOk = true)
    (hfull : f.content.length % 65536 ≤ f.freadLen) :
    prepareHucMessage f = ⟨⟨defaultVersion, MsgType.programInjection.code,
      BitVec.ofNat 16 f.content.length⟩, some (f.content.take (f.content.length % 65536))⟩ := by
  have hmin := Nat.min_eq_right hfull
  simp [prepareHucMessage, h, h', hmin]

end Cases

/-- **When `prepare_huc_message` returns the whole file or an error**: for every file and every
outcome of `fopen`, `malloc` and `fread`, if and only if `fopen` and `malloc` succeed, and the file
has fewer than 65536 bytes or `fread` delivers fewer than its length modulo 65536.

**Proof sketch.** By the outcomes. With everything delivered that was asked for, the message holds
the length and the bytes modulo 65536. -/
theorem prepare_complete_iff (f : FileOutcome) :
    (prepareHucMessage f).Complete f.content ↔
      f.fopenOk = true ∧ f.mallocOk = true ∧
        (f.content.length < 65536 ∨ f.freadLen < f.content.length % 65536) := by
  have hcodes : MsgType.error.code ≠ MsgType.programInjection.code := by decide
  cases hopen : f.fopenOk with
  | false => simp [prepareHucMessage_fopen hopen, HucMsgT.Complete]
  | true =>
    cases halloc : f.mallocOk with
    | false => simp [prepareHucMessage_malloc hopen halloc, HucMsgT.Complete]
    | true =>
      rcases Nat.lt_or_ge f.freadLen (f.content.length % 65536) with hshort | hfull
      · rw [prepareHucMessage_short hopen halloc hshort, HucMsgT.Complete, if_neg hcodes]
        exact iff_of_true rfl ⟨rfl, rfl, Or.inr hshort⟩
      · rw [prepareHucMessage_full hopen halloc hfull, HucMsgT.Complete, if_pos rfl,
          BitVec.toNat_ofNat]
        constructor
        · rintro ⟨hlen, -⟩
          have hlt := Nat.mod_lt f.content.length (show 0 < 65536 by omega)
          exact ⟨rfl, rfl, Or.inl (by omega)⟩
        · rintro ⟨-, -, hlt | hshort⟩
          · have hmod : f.content.length % 65536 = f.content.length := Nat.mod_eq_of_lt hlt
            rw [hmod, List.take_length]
            exact ⟨rfl, rfl⟩
          · omega

/-- A readable file that is too long becomes an injection message all the same. -/
lemma prepareHucMessage_long {p : List Byte} (hp : 65536 ≤ p.length) :
    (prepareHucMessage (.readable p)).header.type = MsgType.programInjection.code ∧
      (prepareHucMessage (.readable p)).header.payloadLen = BitVec.ofNat 16 p.length ∧
      ¬(prepareHucMessage (.readable p)).Complete p := by
  have hmsg := @prepareHucMessage_full (.readable p) rfl rfl (Nat.mod_le p.length 65536)
  rw [hmsg]
  refine ⟨rfl, rfl, ?_⟩
  rw [HucMsgT.Complete, if_pos rfl, BitVec.toNat_ofNat]
  rintro ⟨hlen, -⟩
  have hlt := Nat.mod_lt p.length (show 0 < 65536 by omega)
  omega

/-- **A file that cannot be opened, and one that is too long**: both become injection messages, the
one without a payload, the other with one byte of 65537. -/
theorem prepare_incomplete :
    (prepareHucMessage ⟨[7], false, true, 0, 0⟩).header.type = MsgType.programInjection.code ∧
      ¬(prepareHucMessage ⟨[7], false, true, 0, 0⟩).Complete [7] ∧
      (prepareHucMessage (.readable (List.replicate 65537 7))).header.type =
        MsgType.programInjection.code ∧
      (prepareHucMessage (.readable (List.replicate 65537 7))).header.payloadLen = 1 ∧
      ¬(prepareHucMessage (.readable (List.replicate 65537 7))).Complete
        (List.replicate 65537 7) := by
  have hopen : prepareHucMessage ⟨[7], false, true, 0, 0⟩ =
      ⟨⟨defaultVersion, MsgType.programInjection.code, 0⟩, none⟩ := prepareHucMessage_fopen rfl
  have hlength : (List.replicate 65537 (7 : Byte)).length = 65537 := List.length_replicate
  obtain ⟨htype, hlen, hlong⟩ := @prepareHucMessage_long (List.replicate 65537 7) (by omega)
  rw [hlength] at hlen
  rw [hopen]
  refine ⟨rfl, ?_, htype, hlen, hlong⟩
  rintro ⟨-, hpayload⟩
  exact Option.some_ne_none _ hpayload.symm

end Huc
