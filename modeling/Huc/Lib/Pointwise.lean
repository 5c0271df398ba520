import Mathlib.Tactic

set_option relaxedAutoImplicit false
set_option autoImplicit false

/-!
# Commands on independent cells

A family of cells is changed by commands. A command touches some of the cells, and the new content
of a cell it touches depends on the old content of that cell only. Then the cells do not influence
each other: after any sequence of commands a cell holds what the commands that touch it make of it,
and commands that touch no cell in common commute.

## Main definitions

* `Pointwise.step` — the effect of a command.

## Main results

* `Pointwise.foldl_step_filter` — a cell depends on the commands that touch it only.
* `Pointwise.step_comm` — commands on disjoint cells commute.
* `Pointwise.foldl_step_overwrite` — a cell that is only overwritten holds what was written last.
-/

namespace Pointwise

variable {ι σ κ : Type*} {touches : κ → ι → Prop} [∀ c i, Decidable (touches c i)]
  {change : κ → ι → σ → σ}

/-- The cells after a command. -/
def step (touches : κ → ι → Prop) [∀ c i, Decidable (touches c i)] (change : κ → ι → σ → σ)
    (cells : ι → σ) (c : κ) : ι → σ :=
  fun i => if touches c i then change c i (cells i) else cells i

/-- A command changes a cell it touches. -/
lemma step_of_touches {c : κ} {i : ι} (h : touches c i) (cells : ι → σ) :
    step touches change cells c i = change c i (cells i) :=
  if_pos h

/-- A command leaves a cell it does not touch. -/
lemma step_of_not_touches {c : κ} {i : ι} (h : ¬touches c i) (cells : ι → σ) :
    step touches change cells c i = cells i :=
  if_neg h

/-- Commands change a cell in the same way whatever the other cells hold. -/
lemma foldl_step_congr (cs : List κ) {cells cells' : ι → σ} {i : ι} (h : cells i = cells' i) :
    cs.foldl (step touches change) cells i = cs.foldl (step touches change) cells' i := by
  induction cs generalizing cells cells' with
  | nil => exact h
  | cons c cs ih =>
    apply ih
    unfold step
    rw [h]

/-- **Locality**: a cell holds what the commands that touch it make of it, whatever the others do.

**Proof sketch.** Induction on the commands. One that does not touch the cell can be left out, since
the later ones see the same content of this cell. -/
theorem foldl_step_filter (cs : List κ) (cells : ι → σ) (i : ι) :
    cs.foldl (step touches change) cells i =
      (cs.filter fun c => touches c i).foldl (step touches change) cells i := by
  induction cs generalizing cells with
  | nil => rfl
  | cons c cs ih =>
    rw [List.foldl_cons, ih]
    by_cases h : touches c i
    · rw [List.filter_cons_of_pos (by simpa using h), List.foldl_cons]
    · rw [List.filter_cons_of_neg (by simpa using h)]
      apply foldl_step_congr
      exact step_of_not_touches h cells

/-- **Commands that touch no common cell commute.** -/
theorem step_comm {c d : κ} (h : ∀ i, ¬(touches c i ∧ touches d i)) (cells : ι → σ) :
    step touches change (step touches change cells c) d =
      step touches change (step touches change cells d) c := by
  funext i
  by_cases hc : touches c i
  · have hd : ¬touches d i := fun hd => h i ⟨hc, hd⟩
    rw [step_of_not_touches hd, step_of_touches hc, step_of_touches hc, step_of_not_touches hd]
  · rw [step_of_not_touches hc]
    unfold step
    rw [if_neg hc]

/-- **Overwriting**: a cell whose new content never depends on the old one holds, after any sequence
of commands, what the last command that writes to it has written.

**Proof sketch.** Induction on the commands from the end: the last one either writes to the cell, or
leaves what the ones before it have written. -/
theorem foldl_step_overwrite {i : ι} {write : κ → Option σ}
    (hwrite : ∀ c x, (if touches c i then change c i x else x) = (write c).getD x) (cs : List κ)
    (cells : ι → σ) :
    cs.foldl (step touches change) cells i = (cs.filterMap write).getLast?.getD (cells i) := by
  induction cs using List.reverseRecOn with
  | nil => rfl
  | append_singleton cs c ih =>
    rw [List.foldl_append, List.foldl_cons, List.foldl_nil, step, hwrite, ih, List.filterMap_append]
    cases hc : write c with
    | none => simp [hc]
    | some x => simp [hc]

end Pointwise
