import Huc.Device.Interrupt

set_option relaxedAutoImplicit false
set_option autoImplicit false

/-!
# Framing of the message stream

`handle_acceptfd` takes a message off the connection with two calls of `recv`, one for the header
and one for the payload. It does not repeat a call that returns fewer bytes than asked for, and
it enters the switch whatever the second call returned. TCP may cut the stream anywhere, so the
messages the device dispatches are those that were sent only if no call comes back short. This
file makes that exact.

## Main definitions

* `Huc.dispatches` — the pairs of type and payload the device dispatches on until the peer closes.
* `Huc.NoShortRecv` — every header and every payload is waiting in full when it is asked for.

## Main results

* `Huc.length_stream_le_of_dispatches` — a dispatch takes at most a header and its own payload
  off the stream.
* `Huc.dispatches_eq_iff` — the dispatched pairs are the sent messages exactly if no call of
  `recv` is short and no incomplete message follows.

## Design

The stream ends with the peer's close, as the host tools end it; `Huc.Socket.stream` holds all
that was sent before. The number of calls is bounded by the number of bytes, since each call but
the last takes at least one byte off the stream.
-/

namespace Huc

/-! ## Repeated calls of the handler -/

/-- The pairs dispatched by at most `fuel` calls of `handle_acceptfd`, up to the call that finds
the connection closed. -/
def serve (env : HostEnv) : ℕ → HucState → Socket → List (Byte × List Byte)
  | 0, _, _ => []
  | fuel + 1, s, k =>
    let r := handleAcceptfd env s k
    match r.dispatched with
    | none => []
    | some d => d :: serve env fuel r.state r.sock

/-- The pairs of type and payload on which the device dispatches until the peer closes. -/
def dispatches (env : HostEnv) (s : HucState) (k : Socket) : List (Byte × List Byte) :=
  serve env (k.stream.length + 1) s k

/-! ## One call -/

/-- At the end of the stream the handler closes the connection. -/
lemma handleAcceptfd_of_stream_eq_nil (env : HostEnv) (s : HucState) {k : Socket}
    (h : k.stream = []) : (handleAcceptfd env s k).dispatched = none := by
  simp [handleAcceptfd, Socket.recv, h]

/-- **What one call takes off the stream.** Before the end of the stream the handler dispatches,
and takes at least one byte and at most what its two calls of `recv` were allowed to return.

**Proof sketch.** The header `recv` returns `min 4 (seg 0 + 1)` bytes or all there are, at least
one. The payload `recv` is asked for the length found in the buffer, which is the length of the
payload the switch sees: the second store does not touch the header. -/
lemma handleAcceptfd_of_stream_ne_nil (env : HostEnv) (s : HucState) {k : Socket}
    (h : k.stream ≠ []) :
    ∃ d, (handleAcceptfd env s k).dispatched = some d ∧
      (handleAcceptfd env s k).sock.stream.length < k.stream.length ∧
      k.stream.length ≤ (handleAcceptfd env s k).sock.stream.length +
        min 4 (k.seg 0 + 1) + min d.2.length (k.seg 1 + 1) := by
  have hpos : 0 < k.stream.length := List.length_pos_iff.mpr h
  have hne : (k.recv 4).1 ≠ [] := by
    rw [← List.length_pos_iff]
    simp only [Socket.recv, List.length_take]
    omega
  simp only [handleAcceptfd, if_neg hne]
  refine ⟨_, rfl, ?_, ?_⟩
  · simp only [Socket.recv, List.length_drop]
    omega
  · simp only [HucState.payload, ByteMem.length_read]
    rw [header_write_of_le { s with buf := s.buf.write headerOffset (k.recv 4).1 } _ le_rfl]
    simp only [Socket.recv, List.length_drop, Nat.zero_add]
    omega

/-! ## All calls -/

/-- Fuel beyond the length of the stream changes nothing. -/
lemma serve_eq_dispatches (env : HostEnv) (fuel : ℕ) (s : HucState) (k : Socket)
    (h : k.stream.length < fuel) : serve env fuel s k = dispatches env s k := by
  induction fuel using Nat.strong_induction_on generalizing s k with
  | _ fuel ih =>
    obtain ⟨f, rfl⟩ : ∃ f, fuel = f + 1 := ⟨fuel - 1, by omega⟩
    rw [dispatches]
    by_cases hk : k.stream = []
    · simp only [serve, handleAcceptfd_of_stream_eq_nil env s hk]
    · obtain ⟨d, hd, hlt, -⟩ := handleAcceptfd_of_stream_ne_nil env s hk
      have h₁ := ih f (by omega) (handleAcceptfd env s k).state (handleAcceptfd env s k).sock
        (by omega)
      have h₂ := ih k.stream.length (by omega) (handleAcceptfd env s k).state
        (handleAcceptfd env s k).sock hlt
      simp only [serve, hd]
      exact congrArg (d :: ·) (h₁.trans h₂.symm)

/-- At the end of the stream nothing is dispatched. -/
lemma dispatches_of_stream_eq_nil (env : HostEnv) (s : HucState) {k : Socket}
    (h : k.stream = []) : dispatches env s k = [] := by
  simp only [dispatches, serve, handleAcceptfd_of_stream_eq_nil env s h]

/-- Before its end, the stream gives one dispatch and then what is left gives the others. -/
lemma dispatches_of_stream_ne_nil (env : HostEnv) (s : HucState) {k : Socket} (h : k.stream ≠ []) :
    ∃ d, (handleAcceptfd env s k).dispatched = some d ∧
      dispatches env s k =
        d :: dispatches env (handleAcceptfd env s k).state (handleAcceptfd env s k).sock := by
  obtain ⟨d, hd, hlt, -⟩ := handleAcceptfd_of_stream_ne_nil env s h
  refine ⟨d, hd, ?_⟩
  rw [dispatches, serve]
  simp only [hd]
  rw [serve_eq_dispatches env _ _ _ hlt]

/-- **The stream is no longer than what was dispatched**: every dispatch takes at most a header
and a payload of the dispatched length off the stream.

**Proof sketch.** Induction on the length of the stream, one call at a time. -/
lemma length_stream_le_of_dispatches (env : HostEnv) (s : HucState) (k : Socket) :
    k.stream.length ≤ ((dispatches env s k).map fun d => 4 + d.2.length).sum := by
  induction hn : k.stream.length using Nat.strong_induction_on generalizing s k with
  | _ n ih =>
    subst hn
    by_cases hk : k.stream = []
    · simp [hk]
    · obtain ⟨d, hd, hlt, hle⟩ := handleAcceptfd_of_stream_ne_nil env s hk
      obtain ⟨d', hd', hcons⟩ := dispatches_of_stream_ne_nil env s hk
      obtain rfl : d = d' := Option.some.inj (hd.symm.trans hd')
      have hrest := ih _ hlt (handleAcceptfd env s k).state (handleAcceptfd env s k).sock rfl
      rw [hcons, List.map_cons, List.sum_cons]
      omega

/-! ## Exactness -/

/-- The pair a message should be dispatched as. -/
def HucMsg.pair (m : HucMsg) : Byte × List Byte := (m.type, m.payload)

/-- No call of `recv` is short: the call for each header finds four bytes waiting, and the call
for each payload the whole payload. -/
def NoShortRecv (seg : ℕ → ℕ) (ms : List HucMsg) : Prop :=
  ∀ j (h : j < ms.length), 4 ≤ seg (2 * j) + 1 ∧ ms[j].payload.length ≤ seg (2 * j + 1) + 1

/-- The condition on a list of messages is one on the first and one on the rest, which uses the
calls from the third on. -/
lemma noShortRecv_cons (seg : ℕ → ℕ) (m : HucMsg) (ms : List HucMsg) :
    NoShortRecv seg (m :: ms) ↔
      (4 ≤ seg 0 + 1 ∧ m.payload.length ≤ seg 1 + 1) ∧ NoShortRecv (fun i => seg (i + 2)) ms := by
  constructor
  · intro h
    refine ⟨h 0 (by simp), ?_⟩
    intro j hj
    exact h (j + 1) (by simpa using hj)
  · rintro ⟨h₀, h⟩ j hj
    cases j with
    | zero => exact h₀
    | succ j => exact h j (by simpa using hj)

/-- Unsegmented messages are dispatched as sent. -/
lemma dispatches_of_noShortRecv (env : HostEnv) (s : HucState) (ms : List HucMsg) (seg : ℕ → ℕ)
    (h : NoShortRecv seg ms) :
    dispatches env s ⟨ms.flatMap HucMsg.wire, seg⟩ = ms.map HucMsg.pair := by
  induction ms generalizing s seg with
  | nil => exact dispatches_of_stream_eq_nil env s rfl
  | cons m ms ih =>
    obtain ⟨⟨h₀, h₁⟩, hrest⟩ := (noShortRecv_cons seg m ms).mp h
    have hne : m.wire ++ ms.flatMap HucMsg.wire ≠ [] := by simp [HucMsg.wire, HucMsgHeader.bytes]
    have hacc := handleAcceptfd_wire env s m (ms.flatMap HucMsg.wire) seg h₀ h₁
    obtain ⟨d, hd, hcons⟩ := dispatches_of_stream_ne_nil env s
      (k := ⟨m.wire ++ ms.flatMap HucMsg.wire, seg⟩) hne
    rw [hacc] at hd hcons
    obtain rfl : m.pair = d := Option.some.inj hd
    rw [List.flatMap_cons, hcons, ih _ _ hrest, List.map_cons]

/-- Messages followed by further bytes are dispatched as the messages alone only if no call of
`recv` was short and there are no further bytes.

**Proof sketch.** Induction on the messages. If none is left, a further byte would be dispatched.
Otherwise the first call dispatches the first message; the stream behind it is no longer than the
remaining messages (`length_stream_le_of_dispatches`), so the call took a whole header and a whole
payload off the stream. Both calls of `recv` were then full, the call was that of
`handleAcceptfd_wire`, and the induction hypothesis applies to what is left. -/
lemma noShortRecv_of_dispatches (env : HostEnv) (s : HucState) (ms : List HucMsg)
    (rest : List Byte) (seg : ℕ → ℕ)
    (h : dispatches env s ⟨ms.flatMap HucMsg.wire ++ rest, seg⟩ = ms.map HucMsg.pair) :
    NoShortRecv seg ms ∧ rest = [] := by
  induction ms generalizing s seg with
  | nil =>
    refine ⟨fun j hj => absurd hj (Nat.not_lt_zero j), ?_⟩
    by_contra hrest
    obtain ⟨d, -, hcons⟩ := dispatches_of_stream_ne_nil env s (k := ⟨rest, seg⟩) hrest
    rw [List.flatMap_nil, List.nil_append, hcons] at h
    exact List.cons_ne_nil _ _ h
  | cons m ms ih =>
    rw [List.flatMap_cons, List.append_assoc] at h
    set tail := ms.flatMap HucMsg.wire ++ rest with htail
    have hne : m.wire ++ tail ≠ [] := by simp [HucMsg.wire, HucMsgHeader.bytes]
    obtain ⟨d, hd, hlt, hle⟩ :=
      handleAcceptfd_of_stream_ne_nil env s (k := ⟨m.wire ++ tail, seg⟩) hne
    obtain ⟨d', hd', hcons⟩ := dispatches_of_stream_ne_nil env s (k := ⟨m.wire ++ tail, seg⟩) hne
    obtain rfl : d = d' := Option.some.inj (hd.symm.trans hd')
    rw [hcons, List.map_cons, List.cons.injEq] at h
    obtain ⟨rfl, hms⟩ := h
    have hbound := length_stream_le_of_dispatches env
      (handleAcceptfd env s ⟨m.wire ++ tail, seg⟩).state
      (handleAcceptfd env s ⟨m.wire ++ tail, seg⟩).sock
    have hsum : ((ms.map HucMsg.pair).map fun d => 4 + d.2.length).sum =
        (ms.flatMap HucMsg.wire).length := by
      simp [List.length_flatMap, HucMsg.pair, Function.comp_def]
    rw [hms, hsum] at hbound
    have hlen : (m.wire ++ tail).length =
        4 + m.payload.length + ((ms.flatMap HucMsg.wire).length + rest.length) := by
      rw [htail, List.length_append, List.length_append, HucMsg.length_wire]
    have hpair : m.pair.2.length = m.payload.length := rfl
    simp only [hlen, hpair] at hle
    have h₀ : 4 ≤ seg 0 + 1 := by omega
    have h₁ : m.payload.length ≤ seg 1 + 1 := by omega
    rw [handleAcceptfd_wire env s m tail seg h₀ h₁] at hms
    obtain ⟨hno, hrest⟩ := ih _ _ hms
    exact ⟨(noShortRecv_cons seg m ms).mpr ⟨⟨h₀, h₁⟩, hno⟩, hrest⟩

/-- **Framing is exact just when no `recv` is short.** Whatever the device held before, the pairs
it dispatches on are those of the messages sent, and none for bytes behind them, exactly if the
call for each header found it waiting in full, the call for each payload too, and the peer did
not close inside a further message. -/
theorem dispatches_eq_iff (env : HostEnv) (s : HucState) (ms : List HucMsg) (rest : List Byte)
    (seg : ℕ → ℕ) :
    dispatches env s ⟨ms.flatMap HucMsg.wire ++ rest, seg⟩ = ms.map HucMsg.pair ↔
      NoShortRecv seg ms ∧ rest = [] := by
  constructor
  · exact noShortRecv_of_dispatches env s ms rest seg
  · rintro ⟨h, rfl⟩
    rw [List.append_nil]
    exact dispatches_of_noShortRecv env s ms seg h

/-- A program of two bytes, for closed examples. -/
def twoByteMsg : HucMsg := injectMsg [7, 9] (by decide)

/-- A two-byte payload whose bytes arrive one by one is dispatched with a stale second byte, and
what is left of it is dispatched as a second message; a peer that closes after the first payload
byte has the incomplete message dispatched, with an interrupt. -/
theorem dispatches_short_recv :
    dispatches ⟨2, 0⟩ restState
        ⟨[twoByteMsg].flatMap HucMsg.wire, fun i => if i = 0 then 3 else 0⟩ =
        [(1, [7, 0]), (1, [7, 0])] ∧
      dispatches ⟨2, 0⟩ restState
        ⟨[twoByteMsg].flatMap HucMsg.wire, fun i => if i = 0 then 3 else 0⟩ ≠
        [twoByteMsg].map HucMsg.pair ∧
      dispatches ⟨2, 0⟩ restState ⟨twoByteMsg.wire.take 5, fun _ => 3⟩ = [(1, [7, 0])] ∧
      (handleAcceptfd ⟨2, 0⟩ restState ⟨twoByteMsg.wire.take 5, fun _ => 3⟩).state.irqLine =
        true := by
  decide

end Huc
