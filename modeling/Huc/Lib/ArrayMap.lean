import Mathlib.Tactic
import Mathlib.Algebra.BigOperators.Intervals

set_option relaxedAutoImplicit false
set_option autoImplicit false

/-!
# Fixed-size arrays with checked access

An array of `n` entries accessed by arbitrary natural numbers: a lookup or an update with a key
past the end fails and changes nothing. This is the behaviour of an array map of the BPF
subsystem, where all entries exist from the start and none can be deleted.

## Main definitions

* `ArrayMap` — an array of `n` entries.
* `ArrayMap.lookup`, `ArrayMap.update` — checked access.
* `ArrayMap.slot` — an entry, with a default past the end.
* `ArrayMap.set` — an update that leaves the array as it is when it fails.

## Main results

* `ArrayMap.slot_set` — what an update does to every entry.
* `ArrayMap.ext_slot` — an array is determined by its entries.
* `ArrayMap.count_set` — how an update changes the number of entries with a given value.
-/

/-- An array of `n` entries. -/
structure ArrayMap (n : ℕ) (α : Type*) where
  entries : Fin n → α

namespace ArrayMap

variable {n : ℕ} {α : Type*}

/-- The array with one value everywhere. -/
def const (n : ℕ) (v : α) : ArrayMap n α := ⟨fun _ => v⟩

/-- The entry at a key, if there is one. -/
def lookup (m : ArrayMap n α) (k : ℕ) : Option α :=
  if h : k < n then some (m.entries ⟨k, h⟩) else none

/-- The array with a new entry at a key, if there is such an entry. -/
def update (m : ArrayMap n α) (k : ℕ) (v : α) : Option (ArrayMap n α) :=
  if h : k < n then some ⟨Function.update m.entries ⟨k, h⟩ v⟩ else none

/-- The array after an attempt to update it. -/
def set (m : ArrayMap n α) (k : ℕ) (v : α) : ArrayMap n α := (m.update k v).getD m

/-- The entry at a key, or the default. -/
def slot [Inhabited α] (m : ArrayMap n α) (k : ℕ) : α := (m.lookup k).getD default

/-- A lookup past the end fails. -/
lemma lookup_of_ge (m : ArrayMap n α) {k : ℕ} (h : n ≤ k) : m.lookup k = none :=
  dif_neg (by omega)

/-- An update in range. -/
lemma set_of_lt (m : ArrayMap n α) {k : ℕ} (v : α) (h : k < n) :
    m.set k v = ⟨Function.update m.entries ⟨k, h⟩ v⟩ := by
  simp only [set, update, dif_pos h, Option.getD_some]

/-- An update past the end changes nothing. -/
lemma set_of_ge (m : ArrayMap n α) {k : ℕ} (v : α) (h : n ≤ k) : m.set k v = m := by
  simp only [set, update, dif_neg (show ¬k < n by omega), Option.getD_none]

section Slot

variable [Inhabited α]

/-- An entry in range. -/
lemma slot_of_lt (m : ArrayMap n α) {k : ℕ} (h : k < n) : m.slot k = m.entries ⟨k, h⟩ := by
  simp only [slot, lookup, dif_pos h, Option.getD_some]

/-- A lookup of a key in range succeeds. -/
lemma lookup_of_lt (m : ArrayMap n α) {k : ℕ} (h : k < n) : m.lookup k = some (m.slot k) := by
  rw [slot_of_lt m h, lookup, dif_pos h]

/-- Every entry of a constant array. -/
@[simp] lemma slot_const (v : α) {k : ℕ} (h : k < n) : (const n v).slot k = v := by
  simp [slot, lookup, const, h]

/-- **The entries after an update**: the addressed one is new, the others are unchanged. -/
lemma slot_set (m : ArrayMap n α) {k : ℕ} (v : α) (h : k < n) (i : ℕ) :
    (m.set k v).slot i = if i = k then v else m.slot i := by
  by_cases hi : i < n
  · rw [slot_of_lt _ hi, slot_of_lt _ hi, set_of_lt m v h]
    simp only [Function.update_apply, Fin.mk.injEq]
  · rw [if_neg (by omega), slot, slot, lookup_of_ge _ (by omega), lookup_of_ge _ (by omega)]

/-- The updated entry. -/
@[simp] lemma slot_set_self (m : ArrayMap n α) {k : ℕ} (v : α) (h : k < n) :
    (m.set k v).slot k = v := by
  rw [slot_set m v h, if_pos rfl]

/-- The other entries, whether or not the update succeeds. -/
lemma slot_set_of_ne (m : ArrayMap n α) {k i : ℕ} (v : α) (h : i ≠ k) :
    (m.set k v).slot i = m.slot i := by
  by_cases hk : k < n
  · rw [slot_set m v hk, if_neg h]
  · rw [set_of_ge m v (by omega)]

/-- An array is determined by its entries. -/
lemma ext_slot {m m' : ArrayMap n α} (h : ∀ i < n, m.slot i = m'.slot i) : m = m' := by
  obtain ⟨e⟩ := m
  obtain ⟨e'⟩ := m'
  congr
  funext i
  have hi := h i i.isLt
  rwa [slot_of_lt _ i.isLt, slot_of_lt _ i.isLt] at hi

variable [DecidableEq α]

/-- The number of keys from `1` on whose entry is `v`: key `0` is left to a counter. -/
def count (m : ArrayMap n α) (v : α) : ℕ := ((Finset.Ico 1 n).filter fun i => m.slot i = v).card

/-- An entry that holds `v` is counted. -/
lemma exists_slot_of_count_pos {m : ArrayMap n α} {v : α} (h : 0 < m.count v) :
    ∃ i, 1 ≤ i ∧ i < n ∧ m.slot i = v := by
  obtain ⟨i, hi⟩ := Finset.card_pos.mp h
  rw [Finset.mem_filter, Finset.mem_Ico] at hi
  exact ⟨i, hi.1.1, hi.1.2, hi.2⟩

/-- **An update moves one entry** from its old value to the new one.

**Proof sketch.** Write both numbers as sums over the keys and take the updated key out. -/
lemma count_set (m : ArrayMap n α) {k : ℕ} (x v : α) (h₁ : 1 ≤ k) (h : k < n) :
    (m.set k x).count v + (if m.slot k = v then 1 else 0) =
      m.count v + (if x = v then 1 else 0) := by
  have hk : k ∈ Finset.Ico 1 n := Finset.mem_Ico.mpr ⟨h₁, h⟩
  simp only [count, Finset.card_filter]
  rw [← Finset.add_sum_erase _ _ hk, ← Finset.add_sum_erase _ _ hk]
  have hrest : ∑ i ∈ (Finset.Ico 1 n).erase k, (if (m.set k x).slot i = v then 1 else 0) =
      ∑ i ∈ (Finset.Ico 1 n).erase k, (if m.slot i = v then 1 else 0) :=
    Finset.sum_congr rfl fun i hi => by rw [slot_set_of_ne m x (Finset.ne_of_mem_erase hi)]
  rw [hrest, slot_set_self m x h]
  omega

/-- An update of key `0` moves no counted entry. -/
lemma count_set_zero (m : ArrayMap n α) (x v : α) : (m.set 0 x).count v = m.count v := by
  simp only [count]
  congr 1
  refine Finset.filter_congr fun i hi => ?_
  rw [Finset.mem_Ico] at hi
  rw [slot_set_of_ne m x (by omega)]

end Slot

end ArrayMap
