/-
The tokens of a source. A scan moves in steps from one state to the next; a state is what is being
read, outside of tags, inside one, or a bare expression, together with the place and the text that is
left. Every step leaves a shorter text (`next_shorter`), so `tokens` comes to an end.
-/
import Stencil.Diagnostic.Basic
import Stencil.Token.Lexeme
import Stencil.Token.Raw

namespace Stencil

/-- The tags whose contents are tokens. -/
inductive Tag
  | interpolation | block
deriving DecidableEq, Repr

namespace Tag

def start (d : Delimiters) : Tag → Text
  | interpolation => d.variableStart
  | block => d.blockStart

def close (d : Delimiters) : Tag → Text
  | interpolation => d.variableEnd
  | block => d.blockEnd

def beginKind : Tag → TokenKind
  | interpolation => .variableBegin
  | block => .blockBegin

def endKind : Tag → TokenKind
  | interpolation => .variableEnd
  | block => .blockEnd

/-- The name of the tag in messages. -/
def construct : Tag → Text
  | interpolation => "variable tag"
  | block => "block tag"

end Tag

namespace Scan

/-- What is being read. -/
inductive Mode
  /-- Text outside of tags. -/
  | outside
  /-- A tag, with the place where it was opened and the closers that are awaited. -/
  | inside (tag : Tag) (opened : Location) (closers : List Symbol) (afterDot : Bool)
  /-- An expression without a tag around it. -/
  | bare (afterDot : Bool)
deriving DecidableEq, Repr

/-- What is being read, where, and the text from there on. -/
structure State where
  mode : Mode
  place : Location
  rest : Text
deriving DecidableEq, Repr

/-- The tokens of one step and the state after it; there is none behind the last token. -/
structure Step where
  tokens : List Token
  next : Option State
deriving DecidableEq, Repr

/-! ## One step -/

/-- A tag or comment that the source does not close. -/
def unclosed (filename : Option Text) (construct expected : Text) (place : Location) : Diagnostic :=
  .report .unclosedTag [("construct", .string construct), ("expected", .string (TokenKind.quoted expected))]
    place filename

/-- The diagnostic of a text at which no token can be read. -/
def faultDiagnostic (filename : Option Text) (place : Location) : Lexeme.Fault → Diagnostic
  | .unterminated => .report .unterminatedString [] place filename
  | .unexpected c =>
    .report .unexpectedCharacter [("char", .string (TokenKind.quoted c.toList))] place filename

/-- The token with a given text, and the state behind it. -/
def take (kind : TokenKind) (value written : Text) (mode : Mode) (place : Location) (rest : Text) :
    Step :=
  let stop := place.after written
  ⟨[⟨kind, value, ⟨place, stop⟩⟩], some ⟨mode, stop, rest.drop written.length⟩⟩

/-- The awaited closers after a token: an opening bracket awaits its closer, the closer awaited last
is met, and every other token changes nothing. -/
def trackBrackets (closers : List Symbol) : TokenKind → List Symbol
  | .symbol s =>
    match s.closer? with
    | some c => c :: closers
    | none => if closers.head? = some s then closers.tail else closers
  | _ => closers

def isDot (k : TokenKind) : Bool := k == .symbol .dot

/-- A text as the token of literal data; an empty text is none. -/
def dataTokens (place : Location) (text : Text) : List Token :=
  if text = [] then [] else [⟨.data, text, ⟨place, place.after text⟩⟩]

/-- The step from a start delimiter on. -/
def openerStep (d : Delimiters) (filename : Option Text) (place : Location) (rest : Text) :
    Option Delimiters.Opener → Except Diagnostic Step
  | none => .ok ⟨[Token.atEnd place], none⟩
  | some .comment =>
    match Text.splitAtFirst d.commentEnd (rest.drop d.commentStart.length) with
    | some (_, after) => .ok ⟨[], some ⟨.outside, place.upTo rest after, after⟩⟩
    | none => .error (unclosed filename "comment" d.commentEnd place)
  | some .block =>
    match d.afterWordTag Delimiters.rawWord rest with
    | some inner =>
      match d.splitRaw inner with
      | some (body, after) =>
        .ok ⟨dataTokens (place.upTo rest inner) body, some ⟨.outside, place.upTo rest after, after⟩⟩
      | none =>
        .error (unclosed filename "raw block" (d.blockStart ++ " endraw " ++ d.blockEnd) place)
    | none => .ok (take .blockBegin d.blockStart d.blockStart (.inside .block place [] false) place rest)
  | some .interpolation =>
    .ok (take .variableBegin d.variableStart d.variableStart (.inside .interpolation place [] false) place
      rest)

/-- The next token of an expression and the state behind it. -/
def lexemeStep (filename : Option Text) (mode : TokenKind → Mode) (afterDot : Bool)
    (place : Location) (rest : Text) : Except Diagnostic Step :=
  match Lexeme.read afterDot rest with
  | .ok l => .ok (take l.kind l.value l.written (mode l.kind) place rest)
  | .error f => .error (faultDiagnostic filename place f)

/-- The step from a state. -/
def State.step (d : Delimiters) (filename : Option Text) (s : State) : Except Diagnostic Step :=
  match s.mode with
  | .outside =>
    let (data, rest) := d.splitData s.rest
    let place := s.place.after data
    (openerStep d filename place rest (d.opener? rest)).map fun r =>
      { r with tokens := dataTokens s.place data ++ r.tokens }
  | .inside tag opened closers afterDot =>
    let place := s.place.after (s.rest.takeWhile Text.isSpacing)
    let rest := s.rest.dropWhile Text.isSpacing
    if rest = [] then .error (unclosed filename tag.construct (tag.close d) opened)
    else if closers = [] ∧ Text.startsWith rest (tag.close d) then
      .ok (take tag.endKind (tag.close d) (tag.close d) .outside place rest)
    else
      lexemeStep filename (fun k => .inside tag opened (trackBrackets closers k) (isDot k)) afterDot
        place rest
  | .bare afterDot =>
    let place := s.place.after (s.rest.takeWhile Text.isSpacing)
    let rest := s.rest.dropWhile Text.isSpacing
    if rest = [] then .ok ⟨[Token.atEnd place], none⟩
    else lexemeStep filename (fun k => .bare (isDot k)) afterDot place rest

/-! ## Every step leaves a shorter text -/

theorem length_dropWhile_le (p : CodeUnit → Bool) (t : Text) : (t.dropWhile p).length ≤ t.length := by
  have := congrArg List.length (List.takeWhile_append_dropWhile (p := p) (l := t))
  simp only [List.length_append] at this
  omega

theorem take_shorter {kind : TokenKind} {value written : Text} {mode : Mode} {place : Location}
    {rest r : Text} {s : State} (hne : written ≠ []) (hr : rest = written ++ r)
    (h : (take kind value written mode place rest).next = some s) : s.rest.length < rest.length := by
  simp only [take, Option.some.injEq] at h
  subst h hr
  have := List.length_pos_iff.2 hne
  simp only [List.drop_left', List.length_append]
  omega

theorem lexemeStep_shorter {filename : Option Text} {mode : TokenKind → Mode} {afterDot : Bool}
    {place : Location} {rest : Text} {r : Step} {s : State}
    (h : lexemeStep filename mode afterDot place rest = .ok r) (hs : r.next = some s) :
    s.rest.length < rest.length := by
  unfold lexemeStep at h
  split at h
  · rename_i l hl
    cases h
    obtain ⟨u, hu⟩ := Lexeme.read_written hl
    exact take_shorter l.written_ne hu hs
  · cases h

theorem openerStep_shorter {d : Delimiters} (hd : d.Sound) {filename : Option Text}
    {place : Location} {rest : Text} {r : Step} {s : State}
    (h : openerStep d filename place rest (d.opener? rest) = .ok r) (hs : r.next = some s) :
    s.rest.length < rest.length := by
  cases ho : d.opener? rest with
  | none => rw [ho] at h; cases h; cases hs
  | some o =>
    obtain ⟨u, hu⟩ := Text.startsWith_iff.1 (Delimiters.startsWith_of_opener? ho)
    have hne := Delimiters.start_ne_nil hd o
    have hpos := List.length_pos_iff.2 hne
    rw [ho] at h
    cases o with
    | interpolation => cases h; exact take_shorter hne hu hs
    | comment =>
      simp only [openerStep] at h
      split at h
      · rename_i b a hb
        cases h
        cases hs
        have h1 := congrArg List.length (Text.splitAtFirst_eq hb)
        have h2 := congrArg List.length hu
        simp only [Delimiters.start, List.length_append, List.length_drop] at h1 h2 hpos ⊢
        omega
      · cases h
    | block =>
      simp only [openerStep] at h
      split at h
      · rename_i inner hi
        obtain ⟨w, hw⟩ := Delimiters.afterWordTag_append hi
        split at h
        · rename_i body a hb
          cases h
          cases hs
          obtain ⟨v, hv⟩ := Delimiters.splitRaw_append hb
          have h1 := congrArg List.length hw
          have h2 := congrArg List.length hv
          simp only [Delimiters.start, List.length_append] at h1 h2 hpos ⊢
          omega
        · cases h
      · cases h; exact take_shorter hne hu hs

theorem next_shorter {d : Delimiters} (hd : d.Sound) {filename : Option Text} {s s' : State} {r : Step}
    (h : s.step d filename = .ok r) (hs : r.next = some s') : s'.rest.length < s.rest.length := by
  unfold State.step at h
  have hsp := length_dropWhile_le Text.isSpacing s.rest
  split at h
  · have happ := congrArg List.length (d.splitData_append s.rest)
    simp only [List.length_append] at happ
    simp only at h
    cases ho : openerStep d filename (s.place.after (d.splitData s.rest).1) (d.splitData s.rest).2
        (d.opener? (d.splitData s.rest).2) with
    | error e => rw [ho] at h; cases h
    | ok r' =>
      rw [ho] at h
      cases h
      have := openerStep_shorter hd ho hs
      omega
  · rename_i tag opened closers afterDot _
    simp only at h
    split at h
    · cases h
    · split at h
      · rename_i hc
        cases h
        obtain ⟨u, hu⟩ := Text.startsWith_iff.1 hc.2
        have hne : tag.close d ≠ [] := by
          cases tag
          · exact hd.ne_nil .variableEnd
          · exact hd.ne_nil .blockEnd
        have := take_shorter hne hu hs
        omega
      · have := lexemeStep_shorter h hs
        omega
  · simp only at h
    split at h
    · cases h; cases hs
    · have := lexemeStep_shorter h hs
      omega

/-! ## All steps -/

/-- The tokens from a state on. -/
def tokensFrom (d : Delimiters) (hd : d.Sound) (filename : Option Text) (s : State) :
    Except Diagnostic (List Token) :=
  match _h : s.step d filename with
  | .error e => .error e
  | .ok r =>
    match _hn : r.next with
    | none => .ok r.tokens
    | some s' => (tokensFrom d hd filename s').map (r.tokens ++ ·)
termination_by s.rest.length
decreasing_by exact next_shorter hd _h _hn

/-- The tokens of a template; the last one is the end of the source. -/
def template (d : Delimiters) (hd : d.Sound) (filename : Option Text) (source : Text) :
    Except Diagnostic (List Token) :=
  tokensFrom d hd filename ⟨.outside, .origin, source⟩

/-- The tokens of an expression that stands alone; the last one is the end of the source. -/
def expression (d : Delimiters) (hd : d.Sound) (filename : Option Text) (source : Text) :
    Except Diagnostic (List Token) :=
  tokensFrom d hd filename ⟨.bare false, .origin, source⟩

end Scan
end Stencil
