import Mathlib.Tactic
import Mathlib.Data.BitVec

set_option relaxedAutoImplicit false
set_option autoImplicit false

/-!
# Byte-addressed memory with little-endian words

A memory is a function from byte addresses to bytes. A transfer of a byte list into it
(`ByteMem.write`) replaces the addressed range and nothing else; `ByteMem.word` reads the four
bytes at an address as a little-endian 32-bit word, as a little-endian machine does.

## Main definitions

* `ByteMem.write`, `ByteMem.read` — store and load a range of bytes.
* `ByteMem.word`, `leBytes` — load a word, and the bytes of a word in memory order.
* `ByteMem.half`, `ByteMem.dword`, `leBytes16`, `leBytes64` — the same for half words and double
  words.
* `ByteMem.writeHalves` — store a table of half words.

## Main results

* `ByteMem.read_write_self`, `ByteMem.write_apply_of_lt`, `ByteMem.write_apply_of_ge` — a store
  is read back exactly and changes no other byte.
* `ByteMem.leBytes_word` — the bytes of a loaded word are the bytes in memory.
* `ByteMem.word_write_self`, `ByteMem.word_write_of_disjoint` — a stored word is loaded again, and
  a store changes no word outside its range.
* `ByteMem.dword_write_self`, `ByteMem.dword_write_of_disjoint`, `ByteMem.half_write_of_disjoint` —
  the same for double words and half words.
* `ByteMem.half_writeHalves` — the entries of a stored table.
-/

/-- A byte. -/
abbrev Byte := BitVec 8

/-- A 32-bit machine word. -/
abbrev Word := BitVec 32

/-! ## Words as bytes -/

/-- The word whose bytes in memory order are `b₀, b₁, b₂, b₃`. -/
def leWord (b₀ b₁ b₂ b₃ : Byte) : Word := b₃ ++ b₂ ++ b₁ ++ b₀

/-- The bytes of a word in memory order, the least significant first. -/
def leBytes (w : Word) : List Byte :=
  [w.extractLsb' 0 8, w.extractLsb' 8 8, w.extractLsb' 16 8, w.extractLsb' 24 8]

/-- A word has four bytes. -/
@[simp] lemma length_leBytes (w : Word) : (leBytes w).length = 4 := rfl

/-- Splitting a word into bytes undoes joining them. -/
@[simp] lemma leBytes_leWord (b₀ b₁ b₂ b₃ : Byte) :
    leBytes (leWord b₀ b₁ b₂ b₃) = [b₀, b₁, b₂, b₃] := by
  have h₀ : (leWord b₀ b₁ b₂ b₃).extractLsb' 0 8 = b₀ := BitVec.extractLsb'_append_eq_right
  have h₁ : (leWord b₀ b₁ b₂ b₃).extractLsb' 8 8 = b₁ := by
    rw [leWord, BitVec.extractLsb'_append_eq_of_le le_rfl]
    exact BitVec.extractLsb'_append_eq_right
  have h₂ : (leWord b₀ b₁ b₂ b₃).extractLsb' 16 8 = b₂ := by
    rw [leWord, BitVec.extractLsb'_append_eq_of_le (by omega),
      BitVec.extractLsb'_append_eq_of_le (by omega)]
    exact BitVec.extractLsb'_append_eq_right
  have h₃ : (leWord b₀ b₁ b₂ b₃).extractLsb' 24 8 = b₃ := by
    rw [leWord, BitVec.extractLsb'_append_eq_of_le (by omega),
      BitVec.extractLsb'_append_eq_of_le (by omega)]
    exact BitVec.extractLsb'_append_eq_left
  rw [leBytes, h₀, h₁, h₂, h₃]

/-- Joining the four lowest bytes of a number gives its lowest word. -/
lemma leWord_extractLsb' {w : ℕ} (v : BitVec w) :
    leWord (v.extractLsb' 0 8) (v.extractLsb' 8 8) (v.extractLsb' 16 8) (v.extractLsb' 24 8) =
      v.extractLsb' 0 32 := by
  have h₁ : v.extractLsb' 24 8 ++ v.extractLsb' 16 8 = v.extractLsb' 16 16 :=
    BitVec.extractLsb'_append_extractLsb'_eq_extractLsb' rfl
  have h₂ : v.extractLsb' 16 16 ++ v.extractLsb' 8 8 = v.extractLsb' 8 24 :=
    BitVec.extractLsb'_append_extractLsb'_eq_extractLsb' rfl
  have h₃ : v.extractLsb' 8 24 ++ v.extractLsb' 0 8 = v.extractLsb' 0 32 :=
    BitVec.extractLsb'_append_extractLsb'_eq_extractLsb' rfl
  rw [leWord, h₁, h₂, h₃]

/-- A word is determined by its bytes. -/
lemma leBytes_inj {v w : Word} : leBytes v = leBytes w ↔ v = w := by
  constructor
  · intro h
    simp only [leBytes, List.cons.injEq, and_true] at h
    obtain ⟨h₀, h₁, h₂, h₃⟩ := h
    have hword := leWord_extractLsb' v
    rw [h₀, h₁, h₂, h₃, leWord_extractLsb'] at hword
    simpa using hword.symm
  · rintro rfl
    rfl

/-- The bytes of a double word in memory order. -/
def leBytes64 (v : BitVec 64) : List Byte :=
  leBytes (v.extractLsb' 0 32) ++ leBytes (v.extractLsb' 32 32)

/-- A double word has eight bytes. -/
@[simp] lemma length_leBytes64 (v : BitVec 64) : (leBytes64 v).length = 8 := rfl

/-- The bytes of a half word in memory order. -/
def leBytes16 (v : BitVec 16) : List Byte := [v.extractLsb' 0 8, v.extractLsb' 8 8]

/-- A half word has two bytes. -/
@[simp] lemma length_leBytes16 (v : BitVec 16) : (leBytes16 v).length = 2 := rfl

/-! ## Ranges of bytes -/

/-- A byte-addressed memory. -/
abbrev ByteMem := ℕ → Byte

namespace ByteMem

/-- Store the bytes `bs` from address `a` on. -/
def write (m : ByteMem) (a : ℕ) (bs : List Byte) : ByteMem := fun x =>
  if a ≤ x then (bs[x - a]?).getD (m x) else m x

/-- Load the `n` bytes from address `a` on. -/
def read (m : ByteMem) (a n : ℕ) : List Byte := (List.range n).map fun i => m (a + i)

/-- Load the little-endian word at address `a`. -/
def word (m : ByteMem) (a : ℕ) : Word := leWord (m a) (m (a + 1)) (m (a + 2)) (m (a + 3))

/-- A load of `n` bytes gives `n` bytes. -/
@[simp] lemma length_read (m : ByteMem) (a n : ℕ) : (m.read a n).length = n := by
  simp [read]

/-- Byte `i` of a load is the byte at that distance from its address. -/
@[simp] lemma getElem_read (m : ByteMem) (a n i : ℕ) (h : i < (m.read a n).length) :
    (m.read a n)[i] = m (a + i) := by
  simp [read]

/-- A load depends on the bytes from its address on only. -/
lemma read_congr {m m' : ByteMem} {a : ℕ} (h : ∀ x, a ≤ x → m x = m' x) (n : ℕ) :
    m.read a n = m'.read a n := by
  apply List.map_congr_left
  intro i _
  exact h (a + i) (Nat.le_add_right a i)

/-- A store changes no byte below its address. -/
lemma write_apply_of_lt (m : ByteMem) {a x : ℕ} (bs : List Byte) (h : x < a) :
    m.write a bs x = m x := by
  rw [write, if_neg (by omega)]

/-- A store changes no byte past its end. -/
lemma write_apply_of_ge (m : ByteMem) {a x : ℕ} (bs : List Byte) (h : a + bs.length ≤ x) :
    m.write a bs x = m x := by
  rw [write, if_pos (by omega), List.getElem?_eq_none (by omega), Option.getD_none]

/-- Inside its range a store puts the bytes stored. -/
lemma write_apply_of_mem (m : ByteMem) (a i : ℕ) (bs : List Byte) (h : i < bs.length) :
    m.write a bs (a + i) = bs[i] := by
  rw [write, if_pos (by omega), Nat.add_sub_cancel_left, List.getElem?_eq_getElem h,
    Option.getD_some]

/-- **A store is read back exactly.** -/
lemma read_write_self (m : ByteMem) (a : ℕ) (bs : List Byte) :
    (m.write a bs).read a bs.length = bs := by
  apply List.ext_getElem
  · simp
  · intro i h₁ h₂
    rw [getElem_read, write_apply_of_mem _ _ _ _ h₂]

/-- The bytes of a loaded word are a load of four bytes. -/
@[simp] lemma leBytes_word (m : ByteMem) (a : ℕ) : leBytes (m.word a) = m.read a 4 := by
  simp [word, read, List.range_succ]

/-- **A stored word is loaded again.** -/
@[simp] lemma word_write_self (m : ByteMem) (a : ℕ) (w : Word) :
    (m.write a (leBytes w)).word a = w := by
  apply leBytes_inj.mp
  rw [leBytes_word]
  exact read_write_self m a (leBytes w)

/-- **A store changes no word outside its range.** -/
lemma word_write_of_disjoint (m : ByteMem) {a b : ℕ} (bs : List Byte)
    (h : b + 4 ≤ a ∨ a + bs.length ≤ b) : (m.write a bs).word b = m.word b := by
  have hbyte : ∀ i < 4, m.write a bs (b + i) = m (b + i) := by
    intro i hi
    rcases h with hlt | hge
    · exact write_apply_of_lt m bs (by omega)
    · exact write_apply_of_ge m bs (by omega)
  rw [word, hbyte 1 (by omega), hbyte 2 (by omega), hbyte 3 (by omega),
    show m.write a bs b = m b from hbyte 0 (by omega)]
  rfl

/-! ## Half words and double words -/

/-- Load the little-endian half word at address `a`. -/
def half (m : ByteMem) (a : ℕ) : BitVec 16 := m (a + 1) ++ m a

/-- Load the little-endian double word at address `a`. -/
def dword (m : ByteMem) (a : ℕ) : BitVec 64 := m.word (a + 4) ++ m.word a

/-- A store is a store of its first part and one of the rest. -/
lemma write_append (m : ByteMem) (a : ℕ) (bs cs : List Byte) :
    m.write a (bs ++ cs) = (m.write a bs).write (a + bs.length) cs := by
  funext x
  rcases Nat.lt_or_ge x (a + bs.length) with hlt | hge
  · rw [write_apply_of_lt _ _ hlt]
    rcases Nat.lt_or_ge x a with hxa | hax
    · rw [write_apply_of_lt _ _ hxa, write_apply_of_lt _ _ hxa]
    · rw [write, write, if_pos hax, if_pos hax, List.getElem?_append_left (by omega)]
  · have hsub : x - a - bs.length = x - (a + bs.length) := by omega
    rw [write, write, if_pos (by omega), if_pos hge, List.getElem?_append_right (by omega), hsub,
      write_apply_of_ge _ _ hge]

/-- **A stored double word is loaded again.** -/
@[simp] lemma dword_write_self (m : ByteMem) (a : ℕ) (v : BitVec 64) :
    (m.write a (leBytes64 v)).dword a = v := by
  have hlow : (m.write a (leBytes64 v)).word a = v.extractLsb' 0 32 := by
    rw [leBytes64, write_append, word_write_of_disjoint _ _ (Or.inl (by rw [length_leBytes])),
      word_write_self]
  have hhigh : (m.write a (leBytes64 v)).word (a + 4) = v.extractLsb' 32 32 := by
    rw [leBytes64, write_append]
    exact word_write_self _ _ _
  have hsplit : v.extractLsb' 32 32 ++ v.extractLsb' 0 32 = v.extractLsb' 0 64 :=
    BitVec.extractLsb'_append_extractLsb'_eq_extractLsb' rfl
  rw [dword, hlow, hhigh, hsplit, BitVec.extractLsb'_eq_self]

/-- **A store changes no double word outside its range.** -/
lemma dword_write_of_disjoint (m : ByteMem) {a b : ℕ} (bs : List Byte)
    (h : b + 8 ≤ a ∨ a + bs.length ≤ b) : (m.write a bs).dword b = m.dword b := by
  rw [dword, dword, word_write_of_disjoint _ _ (by omega), word_write_of_disjoint _ _ (by omega)]

/-- **A store changes no half word outside its range.** -/
lemma half_write_of_disjoint (m : ByteMem) {a b : ℕ} (bs : List Byte)
    (h : b + 2 ≤ a ∨ a + bs.length ≤ b) : (m.write a bs).half b = m.half b := by
  have hbyte : ∀ i < 2, m.write a bs (b + i) = m (b + i) := by
    intro i hi
    rcases h with hlt | hge
    · exact write_apply_of_lt m bs (by omega)
    · exact write_apply_of_ge m bs (by omega)
  rw [half, half, hbyte 1 (by omega), show m.write a bs b = m b from hbyte 0 (by omega)]

/-- **A stored half word is loaded again.** -/
@[simp] lemma half_write_self (m : ByteMem) (a : ℕ) (v : BitVec 16) :
    (m.write a (leBytes16 v)).half a = v := by
  have hlow : m.write a (leBytes16 v) a = v.extractLsb' 0 8 :=
    write_apply_of_mem m a 0 (leBytes16 v) (by rw [length_leBytes16]; omega)
  have hhigh : m.write a (leBytes16 v) (a + 1) = v.extractLsb' 8 8 :=
    write_apply_of_mem m a 1 (leBytes16 v) (by rw [length_leBytes16]; omega)
  have hsplit : v.extractLsb' 8 8 ++ v.extractLsb' 0 8 = v.extractLsb' 0 16 :=
    BitVec.extractLsb'_append_extractLsb'_eq_extractLsb' rfl
  rw [half, hlow, hhigh, hsplit, BitVec.extractLsb'_eq_self]

/-! ## What a load depends on -/

/-- A word depends on its four bytes. -/
lemma word_congr {m m' : ByteMem} {a : ℕ} (h : ∀ x, a ≤ x → x < a + 4 → m x = m' x) :
    m.word a = m'.word a := by
  rw [word, word, h a (by omega) (by omega), h (a + 1) (by omega) (by omega),
    h (a + 2) (by omega) (by omega), h (a + 3) (by omega) (by omega)]

/-- A double word depends on its eight bytes. -/
lemma dword_congr {m m' : ByteMem} {a : ℕ} (h : ∀ x, a ≤ x → x < a + 8 → m x = m' x) :
    m.dword a = m'.dword a := by
  rw [dword, dword, word_congr fun x hx hx' => h x (by omega) (by omega),
    word_congr fun x hx hx' => h x (by omega) (by omega)]

/-- A half word depends on its two bytes. -/
lemma half_congr {m m' : ByteMem} {a : ℕ} (h : ∀ x, a ≤ x → x < a + 2 → m x = m' x) :
    m.half a = m'.half a := by
  rw [half, half, h a (by omega) (by omega), h (a + 1) (by omega) (by omega)]

/-! ## Zeroed memory and tables -/

/-- A byte that has been zeroed. -/
lemma write_replicate_apply (m : ByteMem) {a n x : ℕ} (hle : a ≤ x) (hlt : x < a + n) :
    m.write a (List.replicate n 0#8) x = 0#8 := by
  obtain ⟨i, rfl⟩ := Nat.exists_eq_add_of_le hle
  rw [write_apply_of_mem _ _ _ _ (by rw [List.length_replicate]; omega), List.getElem_replicate]

/-- A word that has been zeroed. -/
lemma word_write_replicate (m : ByteMem) {a n b : ℕ} (hle : a ≤ b) (hlt : b + 4 ≤ a + n) :
    (m.write a (List.replicate n 0#8)).word b = 0#32 := by
  have hzero : ∀ i < 4, m.write a (List.replicate n 0#8) (b + i) = 0#8 := fun i hi =>
    write_replicate_apply m (by omega) (by omega)
  rw [word, hzero 1 (by omega), hzero 2 (by omega), hzero 3 (by omega),
    show m.write a (List.replicate n 0#8) b = 0#8 from hzero 0 (by omega)]
  rfl

/-- A half word that has been zeroed. -/
lemma half_write_replicate (m : ByteMem) {a n b : ℕ} (hle : a ≤ b) (hlt : b + 2 ≤ a + n) :
    (m.write a (List.replicate n 0#8)).half b = 0#16 := by
  have hzero : ∀ i < 2, m.write a (List.replicate n 0#8) (b + i) = 0#8 := fun i hi =>
    write_replicate_apply m (by omega) (by omega)
  rw [half, hzero 1 (by omega), show m.write a (List.replicate n 0#8) b = 0#8 from
    hzero 0 (by omega)]
  rfl

/-- Store the table `f 0, …, f (n - 1)` from address `a` on. -/
def writeHalves (m : ByteMem) (a n : ℕ) (f : ℕ → BitVec 16) : ByteMem :=
  (List.range n).foldl (fun m i => m.write (a + 2 * i) (leBytes16 (f i))) m

/-- One more entry. -/
lemma writeHalves_succ (m : ByteMem) (a n : ℕ) (f : ℕ → BitVec 16) :
    m.writeHalves a (n + 1) f = (m.writeHalves a n f).write (a + 2 * n) (leBytes16 (f n)) := by
  rw [writeHalves, List.range_succ, List.foldl_append]
  rfl

/-- A table changes no byte outside its range. -/
lemma writeHalves_apply_of_outside (m : ByteMem) {a n x : ℕ} (f : ℕ → BitVec 16)
    (h : x < a ∨ a + 2 * n ≤ x) : m.writeHalves a n f x = m x := by
  induction n with
  | zero => rfl
  | succ n ih =>
    rw [writeHalves_succ]
    rcases h with hlt | hge
    · rw [write_apply_of_lt _ _ (by omega), ih (by omega)]
    · rw [write_apply_of_ge _ _ (by rw [length_leBytes16]; omega), ih (by omega)]

/-- **The entries of a stored table.** -/
lemma half_writeHalves (m : ByteMem) {a n i : ℕ} (f : ℕ → BitVec 16) (h : i < n) :
    (m.writeHalves a n f).half (a + 2 * i) = f i := by
  induction n with
  | zero => exact absurd h (Nat.not_lt_zero i)
  | succ n ih =>
    rw [writeHalves_succ]
    rcases Nat.lt_succ_iff_lt_or_eq.mp h with hlt | rfl
    · rw [half_write_of_disjoint _ _ (Or.inl (by omega)), ih hlt]
    · rw [half_write_self]

end ByteMem
