/-!
# Looking up a name

A list is searched from the front for the first item with a given key.  The key
of an item may be missing, which is a fault, but only for the items that the
search comes to.
-/

namespace MiniGoc

/-- The first item whose key passes a test. -/
def lookup? {α κ ε : Type} (key : α → Except ε κ) (wanted : κ → Bool) :
    List α → Except ε (Option α)
  | [] => .ok none
  | x :: xs => do
      let k ← key x
      if wanted k then return some x else lookup? key wanted xs

end MiniGoc
