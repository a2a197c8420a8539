import ScriptTyping.Dict
import ScriptTyping.Shelf.Rows

/-!
# Maps in pages

A `Shelf` holds maps whose entries stand in pages of limited length. A leaf is a page of entries. A
branch is a page of links, each with the least key that the linked page had when the branch was
last changed there. A map that is made from another keeps the pages that it does not change, so one
page can belong to several maps.

**Editing.** Many changes to a map are made in one editing. Its first change leaves the map as it
was and goes to a new one, with new pages on the way to the entry. Every later change is made where
the entry stands: if the page belongs to other maps too, they show it. To take out a key that is
not there is no change, but it counts as the first one: what follows is made in the map itself.

**Division.** A page that became too long is divided into two new ones, which lie in its row. Whoever
holds the long page keeps it, and sees what is later written in place into the two.

The size of a map is counted along with the changes that were made to it, so it does not show what
was put into or taken out of its pages for another map.
-/

namespace ScriptTyping

/-- A page: where its entries stand, or its links to other pages. -/
inductive Page where
  | leaf (s : Stretch)
  | branch (s : Stretch)
deriving Inhabited

/-- A map: its size, and the page that it starts from. -/
structure PagedMap where
  size : Int
  root : Option Nat
deriving Inhabited

def PagedMap.empty : PagedMap := ⟨0, none⟩

/-- Pages and maps, each known by its number, and the rows in which the pages stand. -/
structure Shelf (α : Type) where
  entryRows : Rows (String × α)
  linkRows : Rows (String × Nat)
  pages : Array Page
  maps : Array PagedMap

namespace Shelf

variable {α : Type}

/-- The length up to which a page may grow. -/
def capacity : Nat := 32

/-- A shelf that holds only the empty map, as number 0. -/
def start : Shelf α := ⟨#[], #[], #[], #[.empty]⟩

/-! ## Looking at maps -/

def map (s : Shelf α) (n : Nat) : PagedMap := s.maps.getD n .empty

def page (s : Shelf α) (n : Nat) : Page := s.pages.getD n default

/-- How deep pages can be linked. -/
def depth (s : Shelf α) : Nat := s.pages.size

/-- The place of the link for a key: the last whose key is not above it, or the first one. -/
def linkFor (key : String) (links : List (String × Nat)) : Nat :=
  (links.takeWhile fun l => !(key < l.1)).length - 1

/-- The entries of a page and of those below it. -/
def entriesAt (s : Shelf α) : Nat → Nat → Dict α
  | depth, n =>
    match s.page n, depth with
    | .leaf st, _ => s.entryRows.read st
    | .branch _, 0 => []
    | .branch st, depth + 1 => (s.linkRows.read st).flatMap fun l => s.entriesAt depth l.2

/-- The value that a page, or one below it, has for a key. -/
def getAt? (s : Shelf α) (key : String) : Nat → Nat → Option α
  | depth, n =>
    match s.page n, depth with
    | .leaf st, _ => Dict.get? (s.entryRows.read st) key
    | .branch _, 0 => none
    | .branch st, depth + 1 =>
      let links := s.linkRows.read st
      (links[linkFor key links]?).bind fun l => s.getAt? key depth l.2

def entries (s : Shelf α) (n : Nat) : Dict α :=
  match (s.map n).root with
  | none => []
  | some r => s.entriesAt s.depth r

/-- The value that a map has for a key. -/
def get? (s : Shelf α) (n : Nat) (key : String) : Option α :=
  (s.map n).root.bind (s.getAt? key s.depth)

def mapValues (f : α → α) (s : Shelf α) : Shelf α :=
  { s with entryRows := s.entryRows.map fun row => row.map fun e => (e.1, f e.2) }

/-! ## Changing pages -/

def addPage (s : Shelf α) (p : Page) : Nat × Shelf α :=
  (s.pages.size, { s with pages := s.pages.push p })

/-- The least key of a page, as far as its own row shows it. -/
def leastKey (s : Shelf α) (n : Nat) : String :=
  match s.page n with
  | .leaf st => ((s.entryRows.read st).head?.map Prod.fst).getD ""
  | .branch st => ((s.linkRows.read st).head?.map Prod.fst).getD ""

def linkTo (s : Shelf α) (n : Nat) : String × Nat := (s.leastKey n, n)

/-- What a page became: one page or two. -/
structure Written (α : Type) where
  shelf : Shelf α
  page : Nat
  rest : Option Nat

/-- Note where a changed page stands. In place it stays the page that it was, and else it is a new
one. A page that is too long is divided. -/
def settle (s : Shelf α) (inPlace : Bool) (n : Nat) (make : Stretch → Page) (st : Stretch) : Written α :=
  let s := if inPlace then { s with pages := s.pages.setIfInBounds n (make st) } else s
  if st.length ≤ capacity then
    if inPlace then ⟨s, n, none⟩ else
      let (p, s) := s.addPage (make st)
      ⟨s, p, none⟩
  else
    let (left, right) := st.halves
    let (p, s) := s.addPage (make left)
    let (q, s) := s.addPage (make right)
    ⟨s, p, some q⟩

/-- Replace the entries of a leaf. There is one more if `grown`. -/
def writeEntries (s : Shelf α) (inPlace grown : Bool) (n : Nat) (st : Stretch) (es : Dict α) : Written α :=
  let (st, rows) :=
    if !inPlace then s.entryRows.add es
    else if grown then s.entryRows.lengthen st es
    else s.entryRows.shorten st es
  settle { s with entryRows := rows } inPlace n .leaf st

/-- Replace the links of a branch. -/
def writeLinks (s : Shelf α) (inPlace : Bool) (n : Nat) (st : Stretch) (ls : List (String × Nat)) :
    Written α :=
  let (st, rows) := if inPlace then s.linkRows.shorten st ls else s.linkRows.add ls
  settle { s with linkRows := rows } inPlace n .branch st

/-- Replace the links of a branch, and put in one behind the link in some place. -/
def insertLink (s : Shelf α) (inPlace : Bool) (n : Nat) (st : Stretch) (ls : List (String × Nat))
    (i : Nat) (l : String × Nat) : Written α :=
  let longer := ls.take (i + 1) ++ l :: ls.drop (i + 1)
  let (st, rows) :=
    if inPlace then Rows.lengthen (s.linkRows.overwrite st ls) st longer else s.linkRows.add longer
  settle { s with linkRows := rows } inPlace n .branch st

/-- Put a value under a key, below some page. The last component says whether the key is new. -/
def setAt (inPlace : Bool) (key : String) (value : α) : Nat → Shelf α → Nat → Written α × Bool
  | depth, s, n =>
    match s.page n, depth with
    | .leaf st, _ =>
      let es := s.entryRows.read st
      let grown := (Dict.get? es key).isNone
      (s.writeEntries inPlace grown n st (Dict.insert es key value), grown)
    | .branch _, 0 => (⟨s, n, none⟩, false)
    | .branch st, depth + 1 =>
      let links := s.linkRows.read st
      let i := linkFor key links
      let (w, grown) := setAt inPlace key value depth s ((links[i]?.map Prod.snd).getD 0)
      let s := w.shelf
      let links := links.set i (s.linkTo w.page)
      match w.rest with
      | none => (s.writeLinks inPlace n st links, grown)
      | some q => (s.insertLink inPlace n st links i (s.linkTo q), grown)

/-- Take a key out below some page. Gives no page where nothing is left, and nothing at all if the
key is not there. -/
def eraseAt (inPlace : Bool) (key : String) : Nat → Shelf α → Nat → Option (Shelf α × Option Nat)
  | depth, s, n =>
    match s.page n, depth with
    | .leaf st, _ =>
      let es := s.entryRows.read st
      if (Dict.get? es key).isNone then none
      else if es.length = 1 then some (s, none)
      else
        let w := s.writeEntries inPlace false n st (Dict.erase es key)
        some (w.shelf, some w.page)
    | .branch _, 0 => none
    | .branch st, depth + 1 =>
      let links := s.linkRows.read st
      let i := linkFor key links
      match eraseAt inPlace key depth s ((links[i]?.map Prod.snd).getD 0) with
      | none => none
      | some (s, none) =>
        if links.length = 1 then some (s, none)
        else
          let w := s.writeLinks inPlace n st (links.eraseIdx i)
          some (w.shelf, some w.page)
      | some (s, some p) =>
        let w := s.writeLinks inPlace n st (links.set i (s.linkTo p))
        some (w.shelf, some w.page)

end Shelf

/-! ## Editing -/

/-- An editing under way: the map that is edited, and whether changes are made in place. -/
structure Editing (α : Type) where
  shelf : Shelf α
  map : Nat
  inPlace : Bool

namespace Editing

variable {α : Type}

def start (s : Shelf α) (n : Nat) : Editing α := ⟨s, n, false⟩

/-- Write down the edited map, and go on in place. -/
def write (e : Editing α) (s : Shelf α) (m : PagedMap) : Editing α :=
  if e.inPlace then ⟨{ s with maps := s.maps.setIfInBounds e.map m }, e.map, true⟩
  else ⟨{ s with maps := s.maps.push m }, s.maps.size, true⟩

def set (e : Editing α) (key : String) (value : α) : Editing α :=
  let m := e.shelf.map e.map
  match m.root with
  | none =>
    let (st, rows) := e.shelf.entryRows.add [(key, value)]
    let (p, s) := Shelf.addPage { e.shelf with entryRows := rows } (.leaf st)
    e.write s ⟨1, some p⟩
  | some r =>
    let (w, grown) := Shelf.setAt e.inPlace key value e.shelf.depth e.shelf r
    let size := if grown then m.size + 1 else m.size
    match w.rest with
    | none => e.write w.shelf ⟨size, some w.page⟩
    | some q =>
      let s := w.shelf
      let (st, rows) := s.linkRows.add [s.linkTo w.page, s.linkTo q]
      let (p, s) := Shelf.addPage { s with linkRows := rows } (.branch st)
      e.write s ⟨size, some p⟩

def erase (e : Editing α) (key : String) : Editing α :=
  let m := e.shelf.map e.map
  match m.root.bind (Shelf.eraseAt e.inPlace key e.shelf.depth e.shelf) with
  | none => { e with inPlace := true }
  | some (s, root) => e.write s ⟨m.size - 1, root⟩

/-- Put in values, then take out keys. -/
def run (e : Editing α) (values : List (String × α)) (keys : List String) : Editing α :=
  keys.foldl erase (values.foldl (fun e v => e.set v.1 v.2) e)

end Editing

namespace Shelf

variable {α : Type}

/-- Change each value of a map, in one editing. An empty map stays as it is. -/
def mapMap (s : Shelf α) (n : Nat) (f : α → α) : Editing α :=
  if (s.map n).size = 0 then .start s n else
    (Editing.start s n).run ((s.entries n).map fun e => (e.1, f e.2)) []

end Shelf

end ScriptTyping
