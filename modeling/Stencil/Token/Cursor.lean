/-
A place in a source from which one reads by hand: looking ahead, stepping over units, reading one
token at a time. A step goes on counting columns and offsets behind the end of the source.
-/
import Stencil.Token.Scan

namespace Stencil

/-- A source and a place in it. -/
structure Cursor where
  source : Text
  place : Location
deriving DecidableEq, Repr

namespace Cursor

def ofSource (source : Text) : Cursor := ⟨source, .origin⟩

/-- The text from the place on. -/
def rest (c : Cursor) : Text := c.source.drop c.place.offset

def isAtEnd (c : Cursor) : Bool := c.source.length ≤ c.place.offset

/-- The unit so many units ahead of the place, or behind it; outside of the source there is none. -/
def peek (c : Cursor) (ahead : Int) : Option CodeUnit :=
  let i := (c.place.offset : Int) + ahead
  if i < 0 then none else c.source[i.toNat]?

/-- The text from the place up to so many units ahead; an end before the source counts from the end of
the source. -/
def peekText (c : Cursor) (count : Int) : Text :=
  let stop := (c.place.offset : Int) + count
  let stop := if stop < 0 then stop + c.source.length else stop
  c.rest.take (stop - c.place.offset).toNat

def startsWith (c : Cursor) (t : Text) : Bool := Text.startsWith c.rest t

/-- One unit further; there is none behind the end, but the place moves all the same. -/
def advance (c : Cursor) : Option CodeUnit × Cursor :=
  match c.rest with
  | u :: _ => (some u, { c with place := c.place.next u })
  | [] => (none, { c with place := { c.place with
      column := c.place.column + 1, offset := c.place.offset + 1 } })

/-- So many units further, but not behind the end. -/
def advanceBy (c : Cursor) (count : Int) : Text × Cursor :=
  let t := c.rest.take count.toNat
  (t, { c with place := c.place.after t })

/-- The token at the place, after a token of a given kind. A string that is not closed is read to the
end of the source; a unit that begins no token is not read. -/
def next (c : Cursor) (previous : Option TokenKind) (filename : Option Text) :
    Except Diagnostic Token × Cursor :=
  match Lexeme.read (previous.any Scan.isDot) c.rest with
  | .ok l =>
    let stop := c.place.after l.written
    (.ok ⟨l.kind, l.value, ⟨c.place, stop⟩⟩, { c with place := stop })
  | .error f =>
    (.error (Scan.faultDiagnostic filename c.place f),
      match f with
      | .unterminated => { c with place := c.place.after c.rest }
      | .unexpected _ => c)

end Cursor
end Stencil
