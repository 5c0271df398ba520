import Mathlib.Tactic

set_option relaxedAutoImplicit false
set_option autoImplicit false

/-!
# Store buffers

The memory of a machine with total store order, seen from the variables that one thread alone
writes. A store of the owner enters a first-in first-out buffer and reaches memory later, when it is
the oldest one. The owner's loads take its own stores into account (`Part.view`); all other threads
load from memory (`Part.mem`).

A thread that reads the variables twice may find two different contents, but only ones that the
owner has gone through, in the owner's order. These are the *versions*: the contents that memory
passes through while the buffer drains. An invariant of the shared variables is a property of all
versions, each taken together with the stores that are still to come after it.

## Main definitions

* `StoreBuffer.Part` — the memory part of an owner and its buffer.
* `StoreBuffer.Part.view` — what the owner sees.
* `StoreBuffer.Part.Versions` — a property of all contents on the way from memory to the view.

## Main results

* `StoreBuffer.Part.view_flush` — a store that reaches memory does not change what the owner sees.
* `StoreBuffer.Part.Versions.flush`, `StoreBuffer.Part.Versions.store` — the versions after a step.
-/

namespace StoreBuffer

variable {σ κ : Type*}

/-- The variables of one owner: their content in memory, and the owner's stores that have not
reached memory, the oldest first. -/
structure Part (σ κ : Type*) where
  mem : σ
  buf : List κ

namespace Part

/-- Without stores on the way. -/
def ofMem (m : σ) : Part σ κ := ⟨m, []⟩

variable (apply : σ → κ → σ)

/-- What the owner sees: memory with its own stores. -/
def view (p : Part σ κ) : σ := p.buf.foldl apply p.mem

/-- A store of the owner. -/
def store (p : Part σ κ) (x : κ) : Part σ κ := { p with buf := p.buf ++ [x] }

/-- The oldest store reaches memory. -/
def flush (p : Part σ κ) : Option (Part σ κ) :=
  match p.buf with
  | [] => none
  | x :: buf => some ⟨apply p.mem x, buf⟩

/-- Every content on the way from memory to the owner's view has the property, together with the
stores that come after it. -/
def Versions (P : List κ → σ → Prop) (p : Part σ κ) : Prop :=
  ∀ pre post, p.buf = pre ++ post → P post (pre.foldl apply p.mem)

variable {apply} {p p' : Part σ κ}

/-! ## The owner's view -/

/-- Without pending stores the owner sees memory. -/
@[simp] lemma view_ofMem (m : σ) : (Part.ofMem m : Part σ κ).view apply = m := rfl

/-- The owner sees its store at once. -/
@[simp] lemma view_store (p : Part σ κ) (x : κ) :
    (p.store x).view apply = apply (p.view apply) x := by
  rw [Part.view, Part.store, List.foldl_append, Part.view]
  rfl

/-- A store does not change memory. -/
@[simp] lemma mem_store (p : Part σ κ) (x : κ) : (p.store x).mem = p.mem := rfl

/-- A store is the last one in the buffer. -/
@[simp] lemma buf_store (p : Part σ κ) (x : κ) : (p.store x).buf = p.buf ++ [x] := rfl

/-- **What a flush does**: the first store of the buffer is applied to memory. -/
lemma flush_eq_some (h : p.flush apply = some p') :
    ∃ x, p.buf = x :: p'.buf ∧ p'.mem = apply p.mem x := by
  unfold Part.flush at h
  split at h
  · exact absurd h (by simp)
  · rename_i x buf hbuf
    obtain rfl := Option.some.inj h
    exact ⟨x, hbuf, rfl⟩

/-- **A store that reaches memory does not change what the owner sees.** -/
lemma view_flush (h : p.flush apply = some p') : p'.view apply = p.view apply := by
  obtain ⟨x, hbuf, hmem⟩ := flush_eq_some h
  rw [Part.view, Part.view, hbuf, List.foldl_cons, hmem]

/-! ## Versions -/

namespace Versions

variable {P Q : List κ → σ → Prop}

/-- Without pending stores memory is the only version. -/
lemma ofMem {m : σ} (h : P [] m) : (Part.ofMem m : Part σ κ).Versions apply P := by
  intro pre post hsplit
  obtain ⟨rfl, rfl⟩ := List.append_eq_nil_iff.mp hsplit.symm
  exact h

/-- Memory is a version, with the whole buffer still to come. -/
lemma mem (h : p.Versions apply P) : P p.buf p.mem := h [] p.buf rfl

/-- What the owner sees is a version, with nothing still to come. -/
lemma view (h : p.Versions apply P) : P [] (p.view apply) := h p.buf [] (List.append_nil _).symm

/-- A property of the versions may be weakened. -/
lemma imp (h : p.Versions apply P) (hPQ : ∀ post v, P post v → Q post v) :
    p.Versions apply Q :=
  fun pre post hsplit => hPQ post _ (h pre post hsplit)

/-- **The versions after a flush** are those before it without the first. -/
lemma flush (h : p.Versions apply P) (hflush : p.flush apply = some p') :
    p'.Versions apply P := by
  obtain ⟨x, hbuf, hmem⟩ := flush_eq_some hflush
  intro pre post hsplit
  rw [hmem]
  exact h (x :: pre) post (by rw [hbuf, hsplit, List.cons_append])

/-- **The versions after a store** are those before it, with one more store to come, and the
owner's new view. -/
lemma store (h : p.Versions apply P) {x : κ} (hold : ∀ post v, P post v → Q (post ++ [x]) v)
    (hnew : Q [] (apply (p.view apply) x)) : (p.store x).Versions apply Q := by
  intro pre post hsplit
  rcases List.eq_nil_or_concat post with rfl | ⟨post, y, rfl⟩
  · obtain rfl : pre = p.buf ++ [x] := by rw [← buf_store, hsplit, List.append_nil]
    rw [List.foldl_append]
    exact hnew
  · rw [buf_store, List.concat_eq_append, ← List.append_assoc] at hsplit
    obtain ⟨hbuf, hxy⟩ := List.append_inj' hsplit rfl
    obtain rfl : x = y := by simpa using hxy
    rw [List.concat_eq_append]
    exact hold post _ (h pre post hbuf)

end Versions

end Part

end StoreBuffer
