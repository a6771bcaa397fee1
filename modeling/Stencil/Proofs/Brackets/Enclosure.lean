/-
How a rule is read between the brackets around it. An enclosure fixes the stream and the position at which a
rule begins; the closers that are awaited there enclose all that the rule reads. Two readers agree in an
enclosure when they have one outcome, no awaited closer of the enclosure is given up on the way to it, and a
mistake that they report blames no bracket (`Diagnostic.BlamesNoBracket`).

`Enclosure.Below` is what a rule may ask of the rules inside it: they agree wherever it calls them, which is at
the level of its entry, or right behind the bracket that it begins with (`Enclosure.Calls`).
-/
import Stencil.Proofs.Brackets.Awaited
import Stencil.Proofs.Leaves.Inside
import Stencil.Proofs.Writing.Position

namespace Stencil

/-! ## Mistakes that blame a bracket -/

/-- If a token has not met an expectation, it ends no tag at which a closing bracket was expected. -/
def Diagnostic.BlamesNoBracket (s : Stream) (d : Diagnostic) : Prop :=
  d.id = .unexpectedToken → ∃ pos kinds text, d = s.unexpected pos kinds text ∧
    (Stream.endsTag (s.get pos).kind = true → ∀ k ∈ kinds, Stream.unclosedHint? k = none)

/-- If the failure is a mistake in the template, it blames no bracket. -/
def Failure.BlamesNoBracket (s : Stream) : Failure → Prop
  | .reported d => d.BlamesNoBracket s
  | .fault _ => True

theorem TokenKind.unclosedHint?_eq_none {k : TokenKind} (h : k.isBracket = false) :
    Stream.unclosedHint? k = none := by
  unfold Stream.unclosedHint?
  split <;> first | rfl | cases h

theorem TokenKind.not_isBracket_of_isKeyword {k : TokenKind} (h : k.isKeyword = true) : k.isBracket = false := by
  cases k <;> first | rfl | cases h

/-! ## Where rules begin and end -/

namespace Rule

/-- The places at which the rule is called: the rule for a subscript at its dot or bracket, the rule for further
branches at the word that ends a branch; what ends a body are keywords. -/
def Fits (s : Stream) (pos : Nat) : {p : Phrase} → Rule p → Prop
  | _, .subscript _ => (s.get pos).kind = .symbol .dot ∨ (s.get pos).kind = .symbol .openBracket
  | _, .branches => (s.get pos).kind ∈ Grammar.branchEnds
  | _, .statements ends _ => ∀ k ∈ ends, k.isKeyword = true
  | _, _ => True

/-- What a rule leaves behind: the word that ends a body, unless it is read over. -/
def Leaves (s : Stream) (q : Nat) : {p : Phrase} → Rule p → Prop
  | _, .statements ends dropEnd => dropEnd = false → (s.get q).kind ∈ ends
  | _, _ => True

end Rule

/-! ## Enclosures -/

/-- What stays the same while one rule is read. -/
structure Enclosure where
  stream : Stream
  /-- The position at which the rule begins. -/
  entry : Nat
  closed : ∀ i, Stream.endsTag (stream.get i).kind = true → stream.awaited i = []

namespace Enclosure

variable {α β : Type} (c : Enclosure)

/-- A position from the entry on at which some closers are awaited before those of the enclosure. -/
structure At (closers : List Symbol) (pos : Nat) : Prop where
  le : c.entry ≤ pos
  awaited : c.stream.awaited pos = closers ++ c.stream.awaited c.entry

/-- On the way from one position to another the closers of the enclosure stay awaited. -/
def Keeps (pos q : Nat) : Prop :=
  pos ≤ q ∧ ∀ i, pos < i → i ≤ q → c.stream.awaited c.entry <:+ c.stream.awaited i

/-- Two readers have one outcome at a position, which keeps the closers of the enclosure: a value that satisfies
`good` together with its end, or a failure that blames no bracket. -/
def Agrees (x y : Parser α) (pos : Nat) (good : α → Nat → Prop) : Prop :=
  x c.stream pos = y c.stream pos ∧ c.Keeps pos (x c.stream pos).pos ∧
    match x c.stream pos with
    | .ok a q => good a q
    | .fail e _ => e.BlamesNoBracket c.stream

/-- Two readers agree, and end at the level of the entry. -/
def Levels (x y : Parser α) (pos : Nat) : Prop := c.Agrees x y pos fun _ q => c.At [] q

/-- The enclosure of a rule that begins at a position. -/
def enter (pos : Nat) : Enclosure := { c with entry := pos }

/-- Where a rule calls others: at the level of its entry, or right behind the bracket that it begins with. -/
def Calls (pos : Nat) : Prop :=
  c.At [] pos ∨ pos = c.entry + 1 ∧ ∃ o x, Symbol.Pairs o x ∧ (c.stream.get c.entry).kind = .symbol o

/-- A rule agrees under two grammars, and ends at the level of its entry. -/
def Reads (g g' : Grammar) {p : Phrase} (r : Rule p) (pos : Nat) : Prop :=
  (c.enter pos).Agrees (g r) (g' r) pos fun _ q => (c.enter pos).At [] q ∧ r.Leaves c.stream q

/-- The rules that a rule calls agree. -/
def Below (g g' : Grammar) : Prop :=
  ∀ ⦃p : Phrase⦄ (r : Rule p) (pos : Nat), c.Calls pos → r.Fits c.stream pos → c.Reads g g' r pos

variable {c} {x y : Parser α} {f f' : α → Parser β} {pos : Nat} {closers : List Symbol} {good : β → Nat → Prop}

/-! ## Positions -/

theorem at_entry : c.At [] c.entry := ⟨Nat.le_refl _, rfl⟩

theorem At.suffix (h : c.At closers pos) : c.stream.awaited c.entry <:+ c.stream.awaited pos :=
  ⟨closers, h.awaited.symm⟩

theorem At.succ (h : c.At closers pos) (hk : (c.stream.get pos).kind.isBracket = false) : c.At closers (pos + 1) :=
  ⟨Nat.le_succ_of_le h.le, (Stream.awaited_plain hk).trans h.awaited⟩

theorem at_opened {o x : Symbol} (hp : o.Pairs x) (hk : (c.stream.get c.entry).kind = .symbol o) :
    c.At [x] (c.entry + 1) :=
  ⟨Nat.le_succ _, Stream.awaited_opens hp hk⟩

theorem At.closed {o x : Symbol} (h : c.At [x] pos) (hp : o.Pairs x) (hk : (c.stream.get pos).kind = .symbol x) :
    c.At [] (pos + 1) :=
  ⟨Nat.le_succ_of_le h.le, Stream.awaited_closes hp hk h.awaited⟩

/-- Where a closer is awaited, no tag ends. -/
theorem At.not_endsTag {x : Symbol} (h : c.At (x :: closers) pos) :
    Stream.endsTag (c.stream.get pos).kind ≠ true := by
  intro hend
  have := h.awaited
  rw [c.closed pos hend] at this
  cases this

theorem Keeps.refl (pos : Nat) : c.Keeps pos pos := ⟨Nat.le_refl _, fun _ hlt hle => absurd hlt (Nat.not_lt.2 hle)⟩

theorem Keeps.succ (h : c.stream.awaited c.entry <:+ c.stream.awaited (pos + 1)) : c.Keeps pos (pos + 1) := by
  refine ⟨Nat.le_succ _, fun i hlt hle => ?_⟩
  obtain rfl : i = pos + 1 := Nat.le_antisymm hle hlt
  exact h

theorem Keeps.trans {q r : Nat} (h : c.Keeps pos q) (h' : c.Keeps q r) : c.Keeps pos r := by
  refine ⟨Nat.le_trans h.1 h'.1, fun i hlt hle => ?_⟩
  rcases Nat.lt_or_ge q i with hi | hi
  · exact h'.2 i hi hle
  · exact h.2 i hlt hi

/-! ## Putting readers together -/

namespace Agrees

theorem mono {P Q : α → Nat → Prop} (h : c.Agrees x y pos P) (hPQ : ∀ a q, P a q → Q a q) :
    c.Agrees x y pos Q := by
  refine ⟨h.1, h.2.1, ?_⟩
  have h2 := h.2.2
  cases hx : x c.stream pos with
  | ok a q => rw [hx] at h2; exact hPQ a q h2
  | fail e q => rw [hx] at h2; exact h2

/-- A reader may be replaced by one with the same outcome. -/
theorem congr {x' y' : Parser α} {P : α → Nat → Prop} (h : c.Agrees x y pos P)
    (hx : x' c.stream pos = x c.stream pos) (hy : y' c.stream pos = y c.stream pos) :
    c.Agrees x' y' pos P := by
  unfold Agrees at h ⊢
  rwa [hx, hy]

theorem bind {P : α → Nat → Prop} (h : c.Agrees x y pos P)
    (k : ∀ a q, P a q → c.Agrees (f a) (f' a) q good) : c.Agrees (x >>= f) (y >>= f') pos good := by
  have hb (z : Parser α) (w : α → Parser β) : (z >>= w) c.stream pos =
      match z c.stream pos with | .ok a q => w a c.stream q | .fail e q => .fail e q := rfl
  unfold Agrees at h ⊢
  rw [hb, hb, ← h.1]
  cases hx : x c.stream pos with
  | ok a q =>
    rw [hx] at h
    obtain ⟨heq, hkeeps, hgood⟩ := k a q h.2.2
    exact ⟨heq, h.2.1.trans hkeeps, hgood⟩
  | fail e q => rw [hx] at h; exact ⟨rfl, h.2⟩

theorem pure {a : β} (h : good a pos) : c.Agrees (Pure.pure a) (Pure.pure a) pos good := ⟨rfl, .refl pos, h⟩

theorem ite {b : Prop} [Decidable b] {z w : Parser α} {P : α → Nat → Prop}
    (ht : b → c.Agrees x y pos P) (he : ¬b → c.Agrees z w pos P) :
    c.Agrees (if b then x else z) (if b then y else w) pos P := by
  by_cases hb : b
  · rw [if_pos hb, if_pos hb]; exact ht hb
  · rw [if_neg hb, if_neg hb]; exact he hb

/-! ## Looking and moving -/

theorem current {f f' : Token → Parser β}
    (k : c.Agrees (f (c.stream.get pos)) (f' (c.stream.get pos)) pos good) :
    c.Agrees (Parser.current >>= f) (Parser.current >>= f') pos good := k

theorem next {f f' : Token → Parser β}
    (k : c.Agrees (f (c.stream.get (pos + 1))) (f' (c.stream.get (pos + 1))) pos good) :
    c.Agrees (Parser.peek 1 >>= f) (Parser.peek 1 >>= f') pos good := by
  rw [← Stream.ahead_one] at k
  exact k

theorem previousEnd {f f' : Location → Parser β} (k : ∀ l, c.Agrees (f l) (f' l) pos good) :
    c.Agrees (Parser.previousEnd >>= f) (Parser.previousEnd >>= f') pos good :=
  k (c.stream.endBefore pos)

theorem checked {ks : List TokenKind} {f f' : Bool → Parser β}
    (k : ∀ b, (b = true ↔ (c.stream.get pos).kind ∈ ks) → c.Agrees (f b) (f' b) pos good) :
    c.Agrees (Parser.check ks >>= f) (Parser.check ks >>= f') pos good :=
  k (ks.contains (c.stream.get pos).kind) List.contains_iff_mem

theorem check {ks : List TokenKind} {z z' w w' : Parser β}
    (ht : (c.stream.get pos).kind ∈ ks → c.Agrees z z' pos good)
    (he : (c.stream.get pos).kind ∉ ks → c.Agrees w w' pos good) :
    c.Agrees (Parser.check ks >>= fun b => if b = true then z else w)
      (Parser.check ks >>= fun b => if b = true then z' else w') pos good :=
  checked fun _ hb => ite (fun h => ht (hb.1 h)) fun h => he fun h' => h (hb.2 h')

/-- A move over a token that is no bracket stays between the brackets that are open. -/
theorem move (h : c.At closers pos) (hk : (c.stream.get pos).kind.isBracket = false) :
    c.Agrees Parser.advance Parser.advance pos fun t q =>
      t = c.stream.get pos ∧ c.At closers q ∧ (t.kind ≠ .eof → q = pos + 1) := by
  have hx : Parser.advance c.stream pos =
    .ok (c.stream.get pos) (if (c.stream.get pos).kind = .eof then pos else pos + 1) := rfl
  unfold Agrees
  rw [hx]
  by_cases heof : (c.stream.get pos).kind = .eof
  · rw [if_pos heof]
    exact ⟨rfl, .refl pos, rfl, h, fun hne => absurd heof hne⟩
  · rw [if_neg heof]
    exact ⟨rfl, .succ (h.succ hk).suffix, rfl, h.succ hk, fun _ => rfl⟩

theorem advance {f f' : Token → Parser β} (h : c.At closers pos) (hk : (c.stream.get pos).kind.isBracket = false)
    (k : ∀ q, c.At closers q → c.Agrees (f (c.stream.get pos)) (f' (c.stream.get pos)) q good) :
    c.Agrees (Parser.advance >>= f) (Parser.advance >>= f') pos good := by
  refine (move h hk).bind ?_
  rintro _ q ⟨rfl, hq, -⟩
  exact k q hq

/-- Moving over one of the kinds that have been looked for. -/
theorem advance_of_mem {ks : List TokenKind} {f f' : Token → Parser β} (h : c.At closers pos)
    (hk : (c.stream.get pos).kind ∈ ks) (hks : ∀ k ∈ ks, k.isBracket = false)
    (k : ∀ q, c.At closers q → c.Agrees (f (c.stream.get pos)) (f' (c.stream.get pos)) q good) :
    c.Agrees (Parser.advance >>= f) (Parser.advance >>= f') pos good :=
  advance h (hks _ hk) k

/-- Moving over two tokens of which the first one is not the last of the source. -/
theorem skip_two {f f' : Token → Parser β} (h : c.At closers pos) (hk : (c.stream.get pos).kind.isBracket = false)
    (heof : (c.stream.get pos).kind ≠ .eof) (hk' : (c.stream.get (pos + 1)).kind.isBracket = false)
    (k : ∀ t q, c.At closers q → c.Agrees (f t) (f' t) q good) :
    c.Agrees (Parser.skip 2 >>= f) (Parser.skip 2 >>= f') pos good := by
  have hskip : c.Agrees (Parser.skip 2) (Parser.skip 2) pos fun _ q => c.At closers q := by
    refine (move h hk).bind ?_
    rintro _ q ⟨rfl, hq, hmove⟩
    obtain rfl := hmove heof
    exact (move hq hk').mono fun _ _ h => h.2.1
  exact hskip.bind k

/-- A move over the bracket that a rule begins with. -/
theorem move_opening {o x : Symbol} (hp : o.Pairs x) (hk : (c.stream.get c.entry).kind = .symbol o) :
    c.Agrees Parser.advance Parser.advance c.entry fun t q => t = c.stream.get c.entry ∧ q = c.entry + 1 := by
  have hx : Parser.advance c.stream c.entry = .ok (c.stream.get c.entry) (c.entry + 1) :=
    Parser.advance_eq_ok (by rw [hk]; nofun)
  unfold Agrees
  rw [hx]
  exact ⟨rfl, .succ (at_opened hp hk).suffix, rfl, rfl⟩

/-- A move over the closer that is awaited. -/
theorem move_closing {o x : Symbol} (h : c.At [x] pos) (hp : o.Pairs x) (hk : (c.stream.get pos).kind = .symbol x) :
    c.Agrees Parser.advance Parser.advance pos fun _ q => c.At [] q := by
  have hx : Parser.advance c.stream pos = .ok (c.stream.get pos) (pos + 1) :=
    Parser.advance_eq_ok (by rw [hk]; nofun)
  unfold Agrees
  rw [hx]
  exact ⟨rfl, .succ (h.closed hp hk).suffix, h.closed hp hk⟩

/-! ## Failing -/

theorem unexpected {ks : List TokenKind} {t : Option Text}
    (h : Stream.endsTag (c.stream.get pos).kind = true → ∀ k ∈ ks, Stream.unclosedHint? k = none) :
    c.Agrees (Parser.unexpected ks t) (Parser.unexpected ks t) pos good :=
  ⟨rfl, .refl pos, fun _ => ⟨pos, ks, t, rfl, h⟩⟩

theorem report {id : ErrorId} {ctx : MessageContext} {l : Location} (hid : id ≠ .unexpectedToken) :
    c.Agrees (Parser.report id ctx l) (Parser.report id ctx l) pos good :=
  ⟨rfl, .refl pos, fun h => absurd h hid⟩

theorem fault {e : Fault} : c.Agrees (Parser.faultWith e) (Parser.faultWith e) pos good := ⟨rfl, .refl pos, trivial⟩

/-- A token of an expected kind is moved over; any other one is a mistake. -/
theorem expecting (kind : TokenKind) {P : Token → Nat → Prop}
    (hk : (c.stream.get pos).kind = kind → c.Agrees Parser.advance Parser.advance pos P)
    (hne : Stream.endsTag (c.stream.get pos).kind = true → Stream.unclosedHint? kind = none) :
    c.Agrees (Parser.expect kind) (Parser.expect kind) pos P := by
  by_cases h : (c.stream.get pos).kind = kind
  · exact (hk h).congr (if_pos h) (if_pos h)
  · have hx : c.Agrees (Parser.unexpected [kind] none) (Parser.unexpected [kind] none) pos P :=
      unexpected fun hend k hk => by rw [List.mem_singleton.1 hk, hne hend]
    exact hx.congr (if_neg h) (if_neg h)

theorem expect {kind : TokenKind} {f f' : Token → Parser β} (h : c.At closers pos) (hkind : kind.isBracket = false)
    (k : ∀ q, c.At closers q → (c.stream.get pos).kind = kind →
      c.Agrees (f (c.stream.get pos)) (f' (c.stream.get pos)) q good) :
    c.Agrees (Parser.expect kind >>= f) (Parser.expect kind >>= f') pos good := by
  have hx : c.Agrees (Parser.expect kind) (Parser.expect kind) pos fun t q =>
      t = c.stream.get pos ∧ c.At closers q ∧ (c.stream.get pos).kind = kind :=
    expecting _ (fun hk => (move h (hk ▸ hkind)).mono fun _ _ ht => ⟨ht.1, ht.2.1, hk⟩)
      fun _ => TokenKind.unclosedHint?_eq_none hkind
  refine hx.bind ?_
  rintro _ q ⟨rfl, hq, hk⟩
  exact k q hq hk

/-- The bracket that a rule begins with is expected. -/
theorem expect_opening {o x : Symbol} {f f' : Token → Parser β} (hp : o.Pairs x)
    (k : (c.stream.get c.entry).kind = .symbol o →
      c.Agrees (f (c.stream.get c.entry)) (f' (c.stream.get c.entry)) (c.entry + 1) good) :
    c.Agrees (Parser.expectSymbol o >>= f) (Parser.expectSymbol o >>= f') c.entry good := by
  have hx : c.Agrees (Parser.expectSymbol o) (Parser.expectSymbol o) c.entry fun t q =>
      t = c.stream.get c.entry ∧ q = c.entry + 1 ∧ (c.stream.get c.entry).kind = .symbol o :=
    expecting _ (fun hk => (move_opening hp hk).mono fun _ _ ht => ⟨ht.1, ht.2, hk⟩) fun _ => by cases hp <;> rfl
  refine hx.bind ?_
  rintro _ _ ⟨rfl, rfl, hk⟩
  exact k hk

/-- The closer that is awaited is expected: no tag ends where it is missing. -/
theorem expect_closing {o x : Symbol} {f f' : Token → Parser β} (h : c.At [x] pos) (hp : o.Pairs x)
    (k : ∀ t q, c.At [] q → c.Agrees (f t) (f' t) q good) :
    c.Agrees (Parser.expectSymbol x >>= f) (Parser.expectSymbol x >>= f') pos good :=
  (expecting (.symbol x) (fun hk => move_closing h hp hk) fun hend => absurd hend h.not_endsTag).bind k

end Agrees

/-! ## Calling a rule -/

/-- What agrees in the enclosure of a rule agrees in the enclosure of the rule that calls it. -/
theorem Agrees.leave {P : α → Nat → Prop} (h : (c.enter pos).Agrees x y pos P) (hpos : c.At closers pos) :
    c.Agrees x y pos P :=
  ⟨h.1, ⟨h.2.1.1, fun i hlt hle => hpos.suffix.trans (h.2.1.2 i hlt hle)⟩, h.2.2⟩

section

variable {g g' : Grammar} {p : Phrase}

theorem Reads.leave {r : Rule p} (h : c.Reads g g' r pos) (hpos : c.At closers pos) :
    c.Agrees (g r) (g' r) pos fun _ q => c.At closers q ∧ r.Leaves c.stream q :=
  (Agrees.leave h hpos).mono fun _ _ hq =>
    ⟨⟨Nat.le_trans hpos.le hq.1.le, hq.1.awaited.trans hpos.awaited⟩, hq.2⟩

theorem Below.rule (h : c.Below g g') (r : Rule p) (hpos : c.At [] pos) (hf : r.Fits c.stream pos) :
    c.Agrees (g r) (g' r) pos fun _ q => c.At [] q ∧ r.Leaves c.stream q :=
  (h r pos (.inl hpos) hf).leave hpos

/-- A rule at the level of the entry that may be called anywhere. -/
theorem Below.plain (h : c.Below g g') (r : Rule p) (hpos : c.At [] pos) (hf : r.Fits c.stream pos) :
    c.Levels (g r) (g' r) pos :=
  (h.rule r hpos hf).mono fun _ _ hq => hq.1

/-- The rule for what stands in the bracket that the entry opens. -/
theorem Below.inside (h : c.Below g g') (r : Rule p) {o x : Symbol} (hp : o.Pairs x)
    (hk : (c.stream.get c.entry).kind = .symbol o) (hf : r.Fits c.stream (c.entry + 1)) :
    c.Agrees (g r) (g' r) (c.entry + 1) fun _ q => c.At [x] q :=
  ((h r _ (.inr ⟨rfl, o, x, hp, hk⟩) hf).leave (at_opened hp hk)).mono fun _ _ hq => hq.1

end

end Enclosure
end Stencil
