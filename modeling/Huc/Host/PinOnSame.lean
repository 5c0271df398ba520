import Huc.Message

set_option relaxedAutoImplicit false
set_option autoImplicit false

/-!
# The tool `pinonsame`

The tool of `hostend/pinonsame.c` puts all vCPUs on one CPU for a part of a test's duration: it
sends `PIN_ON_SAME`, sleeps for a percentage of the duration, and sends `RESET`. The time to sleep
is a product of the two arguments in 64-bit arithmetic, of which the duration may be negative; and
when `nanosleep` fails, for that reason or because of a signal, the tool returns at once.

## Main definitions

* `Huc.serialTime` — the time to sleep.
* `Huc.PinOnSame`, `Huc.pinonsame` — the arguments and outcomes of `main`, and what it does.

## Main results

* `Huc.nanosleep_split`, `Huc.serialTime_nonneg_iff` — when the sleep succeeds.
* `Huc.pinonsame_reset_iff` — when a `RESET` follows `PIN_ON_SAME`.

## Design

`send` and the two allocations of the payload are taken to succeed: a tool that is killed does not
return.
-/

namespace Huc

/-! ## Time -/

/-- `ONE_SECOND_IN_NANOSECOND`. -/
def oneSecondInNanosecond : BitVec 64 := 1000000000#64

/-- `ONE_SECOND_IN_NANOSECOND * test_duration_sec * atoi(argv[1])`, with wraparound. -/
def serialProduct (percentage duration : BitVec 32) : BitVec 64 :=
  oneSecondInNanosecond * duration.signExtend 64 * percentage.signExtend 64

/-- `serial_time`. -/
def serialTime (percentage duration : BitVec 32) : BitVec 64 :=
  (serialProduct percentage duration).sdiv 100#64

/-- `nanosleep`: it fails for an invalid time (`EINVAL`) or when it is interrupted (`EINTR`). -/
def nanosleep (tvSec tvNsec : BitVec 64) (interrupted : Bool) : ℤ :=
  if tvSec.toInt < 0 ∨ tvNsec.toInt < 0 ∨ 999999999 < tvNsec.toInt then -1
  else if interrupted then -1 else 0

/-- A negative dividend gives the negated quotient and remainder of its absolute value. -/
lemma tdiv_tmod_of_neg {a d : ℤ} (ha : a < 0) :
    a.tdiv d = -(-a / d) ∧ a.tmod d = -(-a % d) := by
  have hneg : -(-a) = a := neg_neg a
  constructor
  · rw [← Int.tdiv_eq_ediv_of_nonneg (show 0 ≤ -a by omega), ← Int.neg_tdiv, hneg]
  · rw [← Int.tmod_eq_emod_of_nonneg (show 0 ≤ -a by omega), ← Int.neg_tmod, hneg]

/-- **A time in nanoseconds, split into seconds and nanoseconds, is valid** exactly if it is not
negative. -/
lemma nanosleep_split (t : BitVec 64) (interrupted : Bool) :
    nanosleep (t.sdiv oneSecondInNanosecond) (t.srem oneSecondInNanosecond) interrupted = 0 ↔
      0 ≤ t.toInt ∧ interrupted = false := by
  have hsecond : oneSecondInNanosecond.toInt = 1000000000 := by decide
  have hsec : (t.sdiv oneSecondInNanosecond).toInt = t.toInt.tdiv 1000000000 := by
    rw [BitVec.toInt_sdiv_of_ne_or_ne _ _ (Or.inr (by decide)), hsecond]
  have hnsec : (t.srem oneSecondInNanosecond).toInt = t.toInt.tmod 1000000000 := by
    rw [BitVec.toInt_srem, hsecond]
  rw [nanosleep, hsec, hnsec]
  rcases lt_or_ge t.toInt 0 with hneg | hpos
  · -- one of the two parts is negative, even if the other is zero
    obtain ⟨hq, hr⟩ := @tdiv_tmod_of_neg t.toInt 1000000000 hneg
    rw [hq, hr, if_pos (by omega)]
    exact iff_of_false (by decide) (fun h => absurd h.1 (by omega))
  · rw [Int.tdiv_eq_ediv_of_nonneg hpos, Int.tmod_eq_emod_of_nonneg hpos, if_neg (by omega)]
    cases interrupted <;> simp [hpos]

/-- The time is not negative exactly if the product is above -100: the quotient truncates. -/
lemma serialTime_nonneg_iff (percentage duration : BitVec 32) :
    0 ≤ (serialTime percentage duration).toInt ↔
      -100 < (serialProduct percentage duration).toInt := by
  have hundred : (100#64).toInt = 100 := by decide
  rw [serialTime, BitVec.toInt_sdiv_of_ne_or_ne _ _ (Or.inr (by decide)), hundred]
  rcases lt_or_ge (serialProduct percentage duration).toInt 0 with hneg | hpos
  · rw [(tdiv_tmod_of_neg hneg).1]
    omega
  · rw [Int.tdiv_eq_ediv_of_nonneg hpos]
    omega

/-! ## The tool -/

/-- The message that is sent first. -/
def pinMsg : HucMsg := ⟨defaultVersion, MsgType.pinOnSame.code, [0, 0, 0, 0], by decide⟩

/-- The message that is sent last. -/
def resetMsg : HucMsg := ⟨defaultVersion, MsgType.reset.code, [7, 7, 7, 7], by decide⟩

/-- The arguments of `main`, and the outcomes of the calls it makes. -/
structure PinOnSame where
  argc : ℕ
  percentage : BitVec 32
  duration : BitVec 32
  socketOk : Bool
  hostKnown : Bool
  connectOk : Bool
  interrupted : Bool

/-- How a program ends. -/
inductive Ending
  | returned (code : ℤ)
  | exited (code : ℤ)
  deriving DecidableEq

/-- The messages that `main` has sent, and how it has ended. -/
structure Execution where
  sent : List HucMsg
  ending : Ending
  deriving DecidableEq

/-- `main` of `pinonsame.c`. -/
def pinonsame (p : PinOnSame) : Execution :=
  if p.argc ≠ 3 then ⟨[], .returned (-1)⟩
  else if p.percentage.toInt ≤ 0 then ⟨[], .returned 0⟩
  else if !p.socketOk then ⟨[], .exited 1⟩
  else if !p.hostKnown then ⟨[], .exited 1⟩
  else if !p.connectOk then ⟨[], .exited 1⟩
  else
    let serialTime := serialTime p.percentage p.duration
    let tvSec := serialTime.sdiv oneSecondInNanosecond
    let tvNsec := serialTime.srem oneSecondInNanosecond
    if nanosleep tvSec tvNsec p.interrupted < 0 then ⟨[pinMsg], .returned (-1)⟩
    else ⟨[pinMsg, resetMsg], .returned 0⟩

/-- If the program returns, every `PIN_ON_SAME` it has sent has been followed by a `RESET`. -/
def Execution.Resets (e : Execution) : Prop :=
  (∃ code, e.ending = .returned code) →
    ∀ before m after, e.sent = before ++ m :: after → m.type = MsgType.pinOnSame.code →
      ∃ m' ∈ after, m'.type = MsgType.reset.code

namespace PinOnSame

/-- The tool comes to send a message. -/
def Sends (p : PinOnSame) : Prop :=
  p.argc = 3 ∧ 0 < p.percentage.toInt ∧ p.socketOk = true ∧ p.hostKnown = true ∧
    p.connectOk = true

end PinOnSame

/-- A tool that sends something sends `PIN_ON_SAME`, and `RESET` too if the sleep succeeds. -/
lemma pinonsame_of_sends {p : PinOnSame} (h : p.Sends) :
    pinonsame p =
      if -100 < (serialProduct p.percentage p.duration).toInt ∧ p.interrupted = false then
        ⟨[pinMsg, resetMsg], .returned 0⟩
      else ⟨[pinMsg], .returned (-1)⟩ := by
  obtain ⟨hargc, hpos, hsocket, hhost, hconnect⟩ := h
  have hsleep := nanosleep_split (serialTime p.percentage p.duration) p.interrupted
  rw [serialTime_nonneg_iff] at hsleep
  have hzero : ∀ tvSec tvNsec interrupted,
      nanosleep tvSec tvNsec interrupted < 0 ↔ ¬nanosleep tvSec tvNsec interrupted = 0 := by
    intro tvSec tvNsec interrupted
    rw [nanosleep]
    split_ifs <;> decide
  rw [pinonsame, if_neg (not_not.mpr hargc), if_neg (by omega)]
  simp only [hsocket, hhost, hconnect, Bool.not_true, Bool.false_eq_true, if_false, hzero, hsleep]
  split_ifs <;> simp_all

/-- A tool that does not come to send anything sends nothing. -/
lemma sent_of_not_sends {p : PinOnSame} (h : ¬p.Sends) : (pinonsame p).sent = [] := by
  unfold pinonsame
  split_ifs with hargc hpos hsocket hhost hconnect
  · rfl
  · rfl
  · rfl
  · rfl
  · rfl
  all_goals
    simp only [Bool.not_eq_true', Bool.not_eq_false] at hsocket hhost hconnect
    exact absurd ⟨not_not.mp hargc, by omega, hsocket, hhost, hconnect⟩ h

/-- **When a `RESET` follows `PIN_ON_SAME`**: for all arguments and all outcomes of the calls, an
execution of `main` that sends `PIN_ON_SAME` and returns has sent `RESET` after it, if and only if
the tool sends nothing at all, or the product of a second, the duration and the percentage, with
wraparound, is above -100 and the sleep is not interrupted.

**Proof sketch.** The tool returns between the two messages exactly if `nanosleep` fails: on a
negative time, or on a signal. -/
theorem pinonsame_reset_iff (p : PinOnSame) :
    (pinonsame p).Resets ↔
      (p.Sends → -100 < (serialProduct p.percentage p.duration).toInt ∧ p.interrupted = false) := by
  by_cases hsends : p.Sends
  · rw [pinonsame_of_sends hsends]
    simp only [hsends, true_implies]
    split_ifs with hslept
    · refine iff_of_true ?_ hslept
      rintro - before m after hsplit hm
      rcases before with _ | ⟨m', _ | ⟨m'', before⟩⟩
      · obtain ⟨-, rfl⟩ := List.cons.inj hsplit
        exact ⟨resetMsg, List.mem_singleton.mpr rfl, rfl⟩
      · obtain ⟨-, htail⟩ := List.cons.inj hsplit
        obtain ⟨rfl, -⟩ := List.cons.inj htail
        exact absurd hm (by decide)
      · simp at hsplit
    · refine iff_of_false ?_ hslept
      intro hresets
      obtain ⟨m', hm', -⟩ := hresets ⟨-1, rfl⟩ [] pinMsg [] rfl rfl
      exact absurd hm' List.not_mem_nil
  · refine iff_of_true ?_ (fun hcon => absurd hcon hsends)
    rintro - before m after hsplit -
    rw [sent_of_not_sends hsends] at hsplit
    simp at hsplit

/-- **No reset**: with a percentage of 50 and a duration of -1 the tool returns after `PIN_ON_SAME`,
and so it does when the sleep is interrupted. -/
theorem pinonsame_no_reset :
    pinonsame ⟨3, 50#32, (-1 : BitVec 32), true, true, true, false⟩ = ⟨[pinMsg], .returned (-1)⟩ ∧
      pinonsame ⟨3, 50#32, 10#32, true, true, true, true⟩ = ⟨[pinMsg], .returned (-1)⟩ ∧
      ¬(pinonsame ⟨3, 50#32, (-1 : BitVec 32), true, true, true, false⟩).Resets := by
  have hrun : pinonsame ⟨3, 50#32, (-1 : BitVec 32), true, true, true, false⟩ =
      ⟨[pinMsg], .returned (-1)⟩ := by
    decide
  refine ⟨hrun, by decide, ?_⟩
  rw [hrun]
  intro hresets
  obtain ⟨m', hm', -⟩ := hresets ⟨-1, rfl⟩ [] pinMsg [] rfl rfl
  exact absurd hm' List.not_mem_nil

end Huc
