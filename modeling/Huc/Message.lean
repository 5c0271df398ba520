import Huc.Lib.ByteMemory

set_option relaxedAutoImplicit false
set_option autoImplicit false

/-!
# Messages of the host–guest channel

The message format of `huc_msg.h`, which the host tools, the device, the driver and the daemon
share: a four-byte header (version, type, 16-bit payload length) followed by the payload. The
copies of the header file in `hostend/`, `qemu-patch/` and `guestend/driver/`, and the struct
`bpf_injection_msg_header` of `guestend/bpf_injection_msg.h`, have the same layout, so one
definition serves all parties. Fields wider than a byte are little-endian, as on the x86 host
and guest.

## Main definitions

* `Huc.MsgType` — the message types and their codes.
* `Huc.HucMsgHeader` — the header, with its byte layout.
* `Huc.HucMsg` — a well-formed message: its payload is as long as its header says.
* `Huc.prepareHucMessage` — `prepare_huc_message` of `hostend/huc_msg.h`.

## Main results

* `Huc.HucMsgHeader.ofBytes_bytes`, `Huc.HucMsgHeader.ofWord_leWord` — the header is decoded
  from its bytes, one by one or as a word.
* `Huc.prepareHucMessage_readable` — a readable file of at most 65535 bytes becomes the
  injection message that carries it.
-/

namespace Huc

/-! ## Types -/

/-- The message types of `huc_msg.h`. -/
inductive MsgType
  | programInjection
  | programInjectionResult
  | programInjectionAffinity
  | programInjectionAffinityResult
  | shutdownRequest
  | error
  | reset
  | pinOnSame
  | htRemapping
  deriving DecidableEq, Repr

namespace MsgType

/-- The code of a message type in the header's `type` byte. -/
def code : MsgType → Byte
  | programInjection => 1
  | programInjectionResult => 2
  | programInjectionAffinity => 3
  | programInjectionAffinityResult => 4
  | shutdownRequest => 15
  | error => 16
  | reset => 17
  | pinOnSame => 18
  | htRemapping => 19

/-- The code as an interrupt cause, the argument of `hucdev_raise_irq`. -/
def irq (t : MsgType) : Word := t.code.setWidth 32

/-- The types in the order of their codes. -/
def all : List MsgType :=
  [programInjection, programInjectionResult, programInjectionAffinity,
    programInjectionAffinityResult, shutdownRequest, error, reset, pinOnSame, htRemapping]

/-- The type with a given code, if there is one. -/
def ofCode? (b : Byte) : Option MsgType := all.find? fun t => t.code = b

/-- Decoding a code gives its type back. -/
@[simp] lemma ofCode?_code (t : MsgType) : ofCode? t.code = some t := by
  cases t <;> rfl

/-- A byte decodes to a type only if it is that type's code. -/
lemma ofCode?_eq_some {b : Byte} {t : MsgType} : ofCode? b = some t ↔ b = t.code := by
  constructor
  · intro h
    have := List.find?_some h
    simp only [decide_eq_true_eq] at this
    exact this.symm
  · rintro rfl
    exact ofCode?_code t

end MsgType

/-! ## Headers -/

/-- `DEFAULT_VERSION`. -/
def defaultVersion : Byte := 1

/-- `struct huc_msg_header`. -/
structure HucMsgHeader where
  version : Byte
  type : Byte
  payloadLen : BitVec 16
  deriving DecidableEq, Repr

namespace HucMsgHeader

/-- The header as it is sent: version, type, and the length with its low byte first. -/
def bytes (h : HucMsgHeader) : List Byte :=
  [h.version, h.type, h.payloadLen.extractLsb' 0 8, h.payloadLen.extractLsb' 8 8]

/-- The header whose four bytes in memory order are given. -/
def ofBytes (b₀ b₁ b₂ b₃ : Byte) : HucMsgHeader := ⟨b₀, b₁, b₃ ++ b₂⟩

/-- `memcpy(&myheader, &kbuf, sizeof(kbuf))`: the header stored in a word. -/
def ofWord (w : Word) : HucMsgHeader :=
  ofBytes (w.extractLsb' 0 8) (w.extractLsb' 8 8) (w.extractLsb' 16 8) (w.extractLsb' 24 8)

/-- A header has four bytes. -/
@[simp] lemma length_bytes (h : HucMsgHeader) : h.bytes.length = 4 := rfl

/-- Decoding the bytes of a header gives it back. -/
@[simp] lemma ofBytes_bytes (h : HucMsgHeader) :
    ofBytes h.version h.type (h.payloadLen.extractLsb' 0 8) (h.payloadLen.extractLsb' 8 8) = h := by
  have hlen : h.payloadLen.extractLsb' 8 8 ++ h.payloadLen.extractLsb' 0 8 = h.payloadLen :=
    @BitVec.extractLsb'_append_extractLsb' 8 8 h.payloadLen
  rw [ofBytes, hlen]

/-- The header in a word is the header of the word's bytes. -/
@[simp] lemma ofWord_leWord (b₀ b₁ b₂ b₃ : Byte) :
    ofWord (leWord b₀ b₁ b₂ b₃) = ofBytes b₀ b₁ b₂ b₃ := by
  have h := leBytes_leWord b₀ b₁ b₂ b₃
  simp only [leBytes, List.cons.injEq, and_true] at h
  obtain ⟨h₀, h₁, h₂, h₃⟩ := h
  rw [ofWord, h₀, h₁, h₂, h₃]

end HucMsgHeader

/-! ## Messages -/

/-- A well-formed message: the payload has at most 65535 bytes, so that its length fits the
header's 16-bit field. -/
@[ext] structure HucMsg where
  version : Byte
  type : Byte
  payload : List Byte
  length_lt : payload.length < 2 ^ 16
  deriving DecidableEq

namespace HucMsg

/-- The header of a message. -/
def header (m : HucMsg) : HucMsgHeader := ⟨m.version, m.type, BitVec.ofNat 16 m.payload.length⟩

/-- The bytes of a message on the wire: header, then payload. -/
def wire (m : HucMsg) : List Byte := m.header.bytes ++ m.payload

/-- The header's length field is the length of the payload. -/
@[simp] lemma toNat_payloadLen (m : HucMsg) : m.header.payloadLen.toNat = m.payload.length := by
  simp only [header, BitVec.toNat_ofNat]
  exact Nat.mod_eq_of_lt m.length_lt

/-- The message is as long as its header and payload. -/
@[simp] lemma length_wire (m : HucMsg) : m.wire.length = 4 + m.payload.length := by
  simp [wire]

end HucMsg

/-! ## The host's message -/

/-- `struct huc_msg_t` as `prepare_huc_message` returns it: the pointer `payload` is `none` when
it does not point to a readable block. -/
structure HucMsgT where
  header : HucMsgHeader
  payload : Option (List Byte)
  deriving DecidableEq

/-- A message seen as the struct the host program holds. -/
def HucMsg.raw (m : HucMsg) : HucMsgT := ⟨m.header, some m.payload⟩

/-- What the C library answers when a bytecode file is loaded: whether `fopen` and `malloc`
succeed, how many bytes `fread` delivers, and what the uninitialised length field holds. -/
structure FileOutcome where
  content : List Byte
  fopenOk : Bool
  mallocOk : Bool
  freadLen : ℕ
  junkLen : BitVec 16

/-- A readable file: every call succeeds and `fread` delivers everything asked for. -/
def FileOutcome.readable (p : List Byte) : FileOutcome := ⟨p, true, true, p.length, 0⟩

/-- `prepare_huc_message` of `hostend/huc_msg.h`. The length is narrowed to 16 bits before it is
used to allocate and to read; a failed `fopen` or `malloc` returns without touching the type. -/
def prepareHucMessage (f : FileOutcome) : HucMsgT :=
  let header : HucMsgHeader := ⟨defaultVersion, MsgType.programInjection.code, f.junkLen⟩
  if f.fopenOk then
    let header := { header with payloadLen := BitVec.ofNat 16 f.content.length }
    if f.mallocOk then
      let len := min f.freadLen header.payloadLen.toNat
      if len ≠ header.payloadLen.toNat then
        ⟨{ header with type := MsgType.error.code }, none⟩
      else ⟨header, some (f.content.take len)⟩
    else ⟨header, none⟩
  else ⟨header, none⟩

/-- The message that injects the program `p`. -/
def injectMsg (p : List Byte) (h : p.length < 2 ^ 16) : HucMsg :=
  ⟨defaultVersion, MsgType.programInjection.code, p, h⟩

/-- A readable file of at most 65535 bytes becomes the injection message that carries it. -/
lemma prepareHucMessage_readable (p : List Byte) (h : p.length < 2 ^ 16) :
    prepareHucMessage (.readable p) = (injectMsg p h).raw := by
  have hlen : p.length % 65536 = p.length := Nat.mod_eq_of_lt h
  simp [prepareHucMessage, FileOutcome.readable, HucMsg.raw, injectMsg, HucMsg.header, hlen]

end Huc
