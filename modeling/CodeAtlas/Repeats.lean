/-!
# Lists without repeats

A repeat is an item that equals the one before it.
-/

namespace CodeAtlas

def withoutRepeats {α : Type} [DecidableEq α] : List α → List α
  | x :: y :: rest => if x = y then withoutRepeats (y :: rest) else x :: withoutRepeats (y :: rest)
  | xs => xs

end CodeAtlas
