/-
One token of an expression at the head of a text. A lexeme carries the text it is written as, which is
never empty; `read_written` says that this text is what the source begins with.
-/
import Stencil.Text.Class
import Stencil.Token.Basic

namespace Stencil

/-- A token as it is written: its kind, its value and its text. -/
structure Lexeme where
  kind : TokenKind
  value : Text
  written : Text
  written_ne : written ≠ []

namespace Lexeme

/-- Why no token can be read. -/
inductive Fault
  | unterminated
  | unexpected (c : Option CodeUnit)
deriving DecidableEq, Repr

/-- What a backslash and a unit stand for; an unknown pair stands for itself. -/
def unescape (c : CodeUnit) : Text :=
  if c = Text.unit 'n' then [Text.unit '\n']
  else if c = Text.unit 'r' then [Text.unit '\r']
  else if c = Text.unit 't' then [Text.unit '\t']
  else if c = Text.backslash || c = Text.doubleQuote || c = Text.singleQuote then [c]
  else [Text.backslash, c]

/-- The value of a string up to its closing quote, and the text up to and with that quote. -/
def quotedRest (quote : CodeUnit) : Text → Option (Text × Text)
  | [] => none
  | c :: t =>
    if c = quote then some ([], [c])
    else if c = Text.backslash then
      match t with
      | [] => none
      | e :: t => (quotedRest quote t).map fun (v, w) => (unescape e ++ v, c :: e :: w)
    else (quotedRest quote t).map fun (v, w) => (c :: v, c :: w)

/-- A number that begins with the digit `c`. A fraction is read unless a dot came before, so that
`row.0.1` has two indices. -/
def number (afterDot : Bool) (c : CodeUnit) (t : Text) : Lexeme :=
  let whole := c :: t.takeWhile Text.isDigit
  let integer : Lexeme := ⟨.integer, whole, whole, by simp [whole]⟩
  match t.dropWhile Text.isDigit with
  | p :: d :: r =>
    if !afterDot && p = Text.unit '.' && Text.isDigit d then
      let text := whole ++ p :: d :: r.takeWhile Text.isDigit
      ⟨.float, text, text, by simp [text]⟩
    else integer
  | _ => integer

/-- A name or keyword that begins with `c`. -/
def word (c : CodeUnit) (t : Text) : Lexeme :=
  let name := c :: t.takeWhile Text.isNamePart
  let kind := match Keyword.ofText? name with
    | some k => .keyword k
    | none => .name
  ⟨kind, name, name, by simp [name]⟩

/-- The token at the head of a text. -/
def read (afterDot : Bool) : Text → Except Fault Lexeme
  | [] => .error (.unexpected none)
  | c :: t =>
    if c = Text.doubleQuote || c = Text.singleQuote then
      match quotedRest c t with
      | some (v, w) => .ok ⟨.string, v, c :: w, by simp⟩
      | none => .error .unterminated
    else if Text.isDigit c then .ok (number afterDot c t)
    else if Text.isNameStart c then .ok (word c t)
    else match Symbol.leading? (c :: t) with
      | some s => .ok ⟨.symbol s, s.text, s.text, s.text_ne_nil⟩
      | none => .error (.unexpected (some c))

/-! ## The text of a lexeme is what the source begins with -/

theorem quotedRest_append {q : CodeUnit} {t v w : Text} (h : quotedRest q t = some (v, w)) :
    ∃ rest, t = w ++ rest := by
  fun_induction quotedRest q t generalizing v w with
  | case1 => cases h
  | case2 t => cases h; exact ⟨t, rfl⟩
  | case3 => cases h
  | case4 _ e t ih =>
    simp only [Option.map_eq_some_iff, Prod.mk.injEq] at h
    obtain ⟨⟨v', w'⟩, h', rfl, rfl⟩ := h
    obtain ⟨rest, rfl⟩ := ih h'
    exact ⟨rest, rfl⟩
  | case5 c t hc hb ih =>
    simp only [Option.map_eq_some_iff, Prod.mk.injEq] at h
    obtain ⟨⟨v', w'⟩, h', rfl, rfl⟩ := h
    obtain ⟨rest, rfl⟩ := ih h'
    exact ⟨rest, rfl⟩

theorem number_written (afterDot : Bool) (c : CodeUnit) (t : Text) :
    ∃ rest, c :: t = (number afterDot c t).written ++ rest := by
  have hw : t.takeWhile Text.isDigit ++ t.dropWhile Text.isDigit = t := List.takeWhile_append_dropWhile
  unfold number
  simp only
  split
  · rename_i p d r hr
    split
    · refine ⟨r.dropWhile Text.isDigit, ?_⟩
      simp only [List.cons_append, List.append_assoc, List.takeWhile_append_dropWhile]
      rw [← hr, hw]
    · exact ⟨_, congrArg (c :: ·) hw.symm⟩
  · exact ⟨_, congrArg (c :: ·) hw.symm⟩

theorem read_written {afterDot : Bool} {t : Text} {l : Lexeme} (h : read afterDot t = .ok l) :
    ∃ rest, t = l.written ++ rest := by
  cases t with
  | nil => cases h
  | cons c t =>
    rw [read] at h
    split at h
    · split at h
      · rename_i v w hq
        cases h
        obtain ⟨rest, rfl⟩ := quotedRest_append hq
        exact ⟨rest, rfl⟩
      · cases h
    · split at h
      · cases h; exact number_written afterDot c t
      · split at h
        · cases h
          exact ⟨t.dropWhile Text.isNamePart,
            congrArg (c :: ·) List.takeWhile_append_dropWhile.symm⟩
        · split at h
          · rename_i s hs
            cases h
            exact Text.startsWith_iff.1 (Symbol.startsWith_of_leading? hs)
          · cases h

end Lexeme
end Stencil
