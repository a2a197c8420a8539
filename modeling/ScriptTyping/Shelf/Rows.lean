/-!
# Rows and stretches

A row is a list in storage, and a stretch is a part of it that someone owns: from where, how long,
and how far it may grow in its place. Several stretches can lie in one row and overlap. Whoever
writes in place is then seen through all of them.

**Growth.** A stretch that has room for one more is lengthened in its place. One that has not moves
to a new row, and leaves the old one as it is.
-/

namespace ScriptTyping

/-- A part of a row. -/
structure Stretch where
  row : Nat
  first : Nat
  length : Nat
  room : Nat
deriving DecidableEq, Inhabited

namespace Stretch

/-- The two halves of a stretch. The left one has no room to grow, for the right one follows. -/
def halves (s : Stretch) : Stretch × Stretch :=
  let half := s.length / 2
  (⟨s.row, s.first, half, half⟩, ⟨s.row, s.first + half, s.length - half, s.room - half⟩)

/-- The sizes in which room comes beyond 16. -/
def sizes : List Nat := [17, 19, 21, 23, 27, 31, 35, 39, 43, 47, 55, 63, 71]

/-- The room that a full stretch gets when it moves: twice as much, or the next size above. -/
def moreRoom (room : Nat) : Nat :=
  if room ≤ 8 then 2 * room else (sizes.find? (2 * room ≤ ·)).getD (2 * room)

end Stretch

/-- Rows, each known by its number. -/
abbrev Rows (β : Type) := Array (List β)

namespace Rows

variable {β : Type}

/-- What stands in a stretch. -/
def read (rows : Rows β) (s : Stretch) : List β :=
  ((rows.getD s.row []).drop s.first).take s.length

/-- Write in place, from the start of a stretch on. -/
def overwrite (rows : Rows β) (s : Stretch) (xs : List β) : Rows β :=
  let row := rows.getD s.row []
  rows.setIfInBounds s.row (row.take s.first ++ xs ++ row.drop (s.first + xs.length))

/-- A new row with some room. -/
def place (rows : Rows β) (xs : List β) (room : Nat) : Stretch × Rows β :=
  (⟨rows.size, 0, xs.length, room⟩, rows.push xs)

/-- A new row that is just long enough. -/
def add (rows : Rows β) (xs : List β) : Stretch × Rows β := rows.place xs xs.length

/-- Replace what stands in a stretch by one item more. -/
def lengthen (rows : Rows β) (s : Stretch) (xs : List β) : Stretch × Rows β :=
  if s.length < s.room then ({ s with length := xs.length }, rows.overwrite s xs)
  else rows.place xs (Stretch.moreRoom s.room)

/-- Replace what stands in a stretch by one item less. -/
def shorten (rows : Rows β) (s : Stretch) (xs : List β) : Stretch × Rows β :=
  ({ s with length := xs.length }, rows.overwrite s xs)

end Rows

end ScriptTyping
