import Mathlib.Tactic.Common

/-! # A text terminal

A grid of cells with a cursor that is always inside: characters wrap at the right edge, and
the grid is scrolled by one row at the bottom. What a cell holds is left open.
-/

/-- A terminal with so many columns and rows. -/
structure Terminal (C : Type*) (cols rows : Nat) where
  x : Fin cols
  y : Fin rows
  cell : Fin cols → Fin rows → C

namespace Terminal

/-- What a terminal is sent. -/
inductive Key (C : Type*) where
  | newline
  | return
  | backspace
  | tab
  | glyph (c : C)

variable {C : Type*} {cols rows : Nat} (blank : C)

/-- All cells are the same, and the cursor is in the corner. -/
def clear (c : C) (hcols : 0 < cols) (hrows : 0 < rows) : Terminal C cols rows :=
  ⟨⟨0, hcols⟩, ⟨0, hrows⟩, fun _ _ => c⟩

variable (t : Terminal C cols rows)

/-- Another character in the cell where the cursor stands. -/
def write (c : C) : Terminal C cols rows :=
  { t with cell := fun i j => if i = t.x ∧ j = t.y then c else t.cell i j }

/-- All rows move up by one. -/
def scroll : Terminal C cols rows :=
  { t with cell := fun i j => if h : j.val + 1 < rows then t.cell i ⟨j.val + 1, h⟩ else blank }

/-- To the beginning of the row. -/
def carriageReturn : Terminal C cols rows := { t with x := ⟨0, t.x.pos⟩ }

/-- To the next row, which is a new one at the bottom. -/
def lineFeed : Terminal C cols rows :=
  if h : t.y.val + 1 < rows then { t with y := ⟨t.y.val + 1, h⟩ } else t.scroll blank

/-- To the next column, or to the next row. -/
def advance : Terminal C cols rows :=
  if h : t.x.val + 1 < cols then { t with x := ⟨t.x.val + 1, h⟩ }
  else t.carriageReturn.lineFeed blank

/-- One column back, which is emptied. -/
def backspace : Terminal C cols rows :=
  if 0 < t.x.val then
    { t with x := ⟨t.x.val - 1, Nat.lt_of_le_of_lt (Nat.sub_le _ _) t.x.isLt⟩ }.write blank
  else t

/-- The tab stop behind a column. -/
def tabStop (x : Nat) : Nat := (x / 8 + 1) * 8

/-- The cells from the cursor up to a column are emptied. -/
def wipe (stop : Nat) : Terminal C cols rows :=
  { t with cell := fun i j =>
      if (t.x.val ≤ i.val ∧ i.val < stop) ∧ j = t.y then blank else t.cell i j }

/-- To the next tab stop, over empty cells, or to the next row. -/
def tab : Terminal C cols rows :=
  let wiped := t.wipe blank (tabStop t.x.val)
  if h : tabStop t.x.val < cols then { wiped with x := ⟨tabStop t.x.val, h⟩ }
  else wiped.carriageReturn.lineFeed blank

/-- One key. -/
def step : Key C → Terminal C cols rows
  | .newline => t.carriageReturn.lineFeed blank
  | .return => t.carriageReturn
  | .backspace => t.backspace blank
  | .tab => t.tab blank
  | .glyph c => (t.write c).advance blank

variable {t}

/-- Nothing is emptied up to the cursor itself. -/
theorem wipe_here {stop : Fin cols} (h : stop = t.x) :
    ({ t.wipe blank stop.val with x := stop } : Terminal C cols rows) = t := by
  subst h
  have hcell : ∀ i j, (if (t.x.val ≤ i.val ∧ i.val < t.x.val) ∧ j = t.y then blank
      else t.cell i j) = t.cell i j := fun i j => if_neg fun h => by omega
  simp only [wipe, hcell]

/-- A row is emptied cell by cell. -/
theorem wipe_next {stop : Nat} (hstop : t.x.val < stop) (h : t.x.val + 1 < cols) :
    ({ t.write blank with x := ⟨t.x.val + 1, h⟩ } : Terminal C cols rows).wipe blank stop =
      { t.wipe blank stop with x := ⟨t.x.val + 1, h⟩ } := by
  unfold wipe write
  simp only [Terminal.mk.injEq, true_and]
  funext i j
  by_cases hj : j = t.y
  · by_cases hi : i = t.x
    · subst hi
      simp [hj, hstop]
    · have hne : i.val ≠ t.x.val := fun h => hi (Fin.ext h)
      have hle : t.x.val + 1 ≤ i.val ↔ t.x.val ≤ i.val := by omega
      simp only [hj, hi, hle, and_true, if_false]
  · simp only [hj, and_false, if_false]

end Terminal
