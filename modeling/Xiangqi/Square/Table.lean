import Xiangqi.Square

/-!
# A value for every square

`Table α` holds one value per square, computed once when the table is made. `get_ofFn` says that
looking a square up gives what the tabulated function gives, so a table may stand wherever its
function does.

Model of the arrays over all squares that are computed once.

Out of scope: when that is done (`init_all_tables_once`, or on the first use). A table is a
constant, so it makes no difference to any answer.
-/

namespace Xiangqi

/-- One value per square. -/
structure Square.Table (α : Type) where
  cells : Vector α 90

namespace Square.Table

variable {α : Type}

/-- Tabulate a function on squares. -/
def ofFn (f : Square → α) : Table α :=
  ⟨Vector.ofFn fun i => f (Square.ofFin i)⟩

/-- The value at a square. -/
def get (t : Table α) (s : Square) : α :=
  have := s.index_lt
  t.cells[s.index]

@[simp] theorem get_ofFn (f : Square → α) (s : Square) : (ofFn f).get s = f s := by
  simp [ofFn, get, Square.ofFin]

end Square.Table

end Xiangqi
