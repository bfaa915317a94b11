/-!
# Readers

A reader reads something off the front of a text and leaves the rest, or it refuses the text.
Readers are put together to longer ones. Each takes as much as it can, and no reader takes back
what one before it has read.
-/

namespace Wordcode.Text

/-- What is left of a text and what was read, if the text is not refused. -/
abbrev Reader (α : Type) := List Char → Option (List Char × α)

namespace Reader

variable {α β : Type}

/-- The characters with a property, as far as they go; there may be none. -/
def run (p : Char → Bool) : Reader (List Char) := fun s => some (s.dropWhile p, s.takeWhile p)

/-- The characters with a property, as far as they go, and at least one. -/
def run1 (p : Char → Bool) : Reader (List Char) := fun s =>
  match s.takeWhile p with
  | [] => none
  | c :: taken => some (s.dropWhile p, c :: taken)

def char (c : Char) : Reader Char
  | [] => none
  | d :: s => if d = c then some (s, d) else none

/-- Nothing is read off a text that the reader refuses. -/
def optional (r : Reader α) : Reader (Option α) := fun s =>
  match r s with
  | none => some (s, none)
  | some (rest, a) => some (rest, some a)

/-- One reader and then another one on what is left. -/
def both (r : Reader α) (q : Reader β) : Reader (α × β) := fun s =>
  (r s).bind fun (mid, a) => (q mid).map fun (rest, b) => (rest, a, b)

/-- Both readers; what the second one has read counts. -/
def second (r : Reader α) (q : Reader β) : Reader β := fun s =>
  (both r q s).map fun (rest, _, b) => (rest, b)

/-- Both readers; what the first one has read counts. -/
def first (r : Reader α) (q : Reader β) : Reader α := fun s =>
  (both r q s).map fun (rest, a, _) => (rest, a)

/-- Texts off which not everything is read are refused. -/
def whole (r : Reader α) : Reader α := fun s =>
  (r s).filter fun (rest, _) => rest.isEmpty

end Reader

end Wordcode.Text
