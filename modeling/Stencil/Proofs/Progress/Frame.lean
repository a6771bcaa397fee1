/-
How a rule is compared under two grammars. A frame fixes what stays the same while one rule is read:
the stream, the index of an end token, the position the rule begins at. Two readers agree in a frame
when they have one outcome, the outcome lies between the entry of the frame and its end token, and a
failure is one that the rule answers for (`Failure.Due`): never a depth, and a fault only if the stream
itself is at fault.

`Frame.Below` is what a rule may ask of the rules inside it: they agree wherever they begin further on
or, at the same place, belong to a tighter level of the grammar.
-/
import Stencil.Environment.Read

namespace Stencil

/-! ## Tokens outside of tags -/

namespace TokenKind

/-- The kind stands outside of tags, or begins one. -/
def opensPiece : TokenKind → Bool
  | data | variableBegin | blockBegin | eof => true
  | _ => false

/-- Behind the kind the source goes on outside of tags. -/
def endsPiece : TokenKind → Bool
  | data | variableEnd | blockEnd => true
  | _ => false

end TokenKind

/-! ## Failures and what they are due to -/

/-- The diagnostic is of the class for its mistake, which is one of the category. -/
def Diagnostic.Of (d : Diagnostic) (category : Category) : Prop :=
  d.kind = classOf d.id ∧ d.id.category = category

/-- The place in a stream that a fault comes from. -/
def Fault.Cause (s : Stream) : Fault → Prop
  | .strayToken k => k.opensPiece = false ∧
      ∃ i, (s.get i).kind.endsPiece = true ∧ (s.get (i + 1)).kind = k
  | .numeral t => ∃ i, (s.get i).kind = .integer ∧ (s.get i).value = t ∧ Constant.ofInteger? t = none
  | .emptyStream | .subscriptStart _ | .depth => False

/-- The failure is a mistake in the template, or a fault that the stream is the cause of when the rule
began at an admitted place. -/
def Failure.Due (s : Stream) (admitted : Prop) : Failure → Prop
  | .reported d => d.Of .parse
  | .fault f => f ≠ .depth ∧ (admitted → f.Cause s)

theorem Failure.Due.mono {s : Stream} {e : Failure} {a b : Prop} (h : e.Due s a) (hab : b → a) :
    e.Due s b := by
  cases e with
  | reported d => exact h
  | fault f => exact ⟨h.1, fun hb => h.2 (hab hb)⟩

/-! ## Levels of the grammar -/

namespace BinaryOp

/-- How tight the operands of an operator are read, counted from the tightest. -/
def rank : BinaryOp → Nat
  | .or => 13 | .and => 12 | .add => 10 | .sub => 9 | .concat => 8 | .mul => 7 | .div => 6
  | .floordiv => 5 | .mod => 4 | .pow => 3

end BinaryOp

namespace Rule

/-- The level of a rule. A rule that has read no token yet leaves it to rules of lower rank. -/
@[simp] def rank : {p : Phrase} → Rule p → Nat
  | _, .primary _ => 1
  | _, .unary => 2
  | _, .binary op => op.rank
  | _, .compare => 11
  | _, .cond => 14
  | _, .expression _ => 15
  | _, .tuple _ | _, .listItems _ | _, .dictItems _ | _, .subscriptItem | _, .argumentsRest _ _
  | _, .printItems _ => 16
  | _, .subscriptItems _ | _, .statement => 17
  | _, .call _ | _, .filterChain _ | _, .template => 1
  | _, .suffixes _ => 2
  | _, _ => 0

/-- The number of tokens that a rule reads at least, if it succeeds, from a token of kind `k` on. -/
@[simp] def least (k : TokenKind) : {p : Phrase} → Rule p → Nat
  | _, .condRest _ | _, .binaryRest _ _ | _, .compareRest | _, .tuple _ | _, .listItems _
  | _, .dictItems _ | _, .subscriptItems _ | _, .suffixes _ | _, .argumentsRest _ _
  | _, .filterRest _ | _, .statement | _, .content _ _ | _, .branches | _, .nameItems _
  | _, .printItems _ | _, .signatureRest _ | _, .template => 0
  | _, .filter _ => if k = .symbol .pipe then 1 else 0
  | _, _ => 1

/-- The rule reads statements, which extensions may add to. -/
def isStatement : {p : Phrase} → Rule p → Bool
  | .splice, _ | .body, _ | .template, _ | .branches, _ => true
  | _, .loop | _, .conditional | _, .block | _, .define | _, .callBlock | _, .filterBlock => true
  | _, _ => false

/-- The places at which a rule is meant to begin: the rule for a subscript at its dot or bracket, the
rules for bodies outside of tags. -/
def Admits (s : Stream) (pos : Nat) : {p : Phrase} → Rule p → Prop
  | _, .subscript _ => (s.get pos).kind = .symbol .dot ∨ (s.get pos).kind = .symbol .openBracket
  | _, .content _ _ | _, .template => (s.get pos).kind.opensPiece = true ∨
      ∃ i, pos = i + 1 ∧ (s.get i).kind.endsPiece = true
  | _, _ => True

end Rule

/-! ## Frames -/

/-- What stays the same while one rule is read. -/
structure Frame where
  stream : Stream
  /-- The index of an end token, behind which nothing is read. -/
  finish : Nat
  /-- The position at which the rule begins. -/
  entry : Nat
  /-- Whether the rule is meant to begin there. -/
  admitted : Prop
  /-- Whether the extensions keep to what is asked of rules. -/
  orderly : Prop
  closed : (stream.get finish).kind = .eof

namespace Frame

variable {α β : Type} (c : Frame)

/-- A position between the entry and the end token. -/
def Within (pos : Nat) : Prop := c.entry ≤ pos ∧ pos ≤ c.finish

/-- Two readers have one outcome at a position: a value that satisfies `good` together with its end, or
a failure inside of the frame that the rule answers for. -/
def Agrees (x y : Parser α) (pos : Nat) (good : α → Nat → Prop) : Prop :=
  x c.stream pos = y c.stream pos ∧
    match x c.stream pos with
    | .ok a p => good a p
    | .fail e p => c.Within p ∧ e.Due c.stream c.admitted

/-- Two readers agree, and read so many tokens at least. -/
def Gains (x y : Parser α) (pos n : Nat) : Prop :=
  c.Agrees x y pos fun _ p => pos + n ≤ p ∧ c.Within p

/-- The frame of a rule that begins at a position. -/
def enter (pos : Nat) (admitted : Prop) : Frame := { c with entry := pos, admitted }

/-- A rule agrees under two grammars, and reads as many tokens as it has to. -/
def Reads (g g' : Grammar) {p : Phrase} (r : Rule p) (pos : Nat) : Prop :=
  (c.enter pos (r.Admits c.stream pos)).Gains (g r) (g' r) pos (r.least (c.stream.get pos).kind)

/-- The rules that a rule of some rank may turn to agree: further on all of them, at the entry those of
lower rank. -/
structure Below (g g' : Grammar) (rank : Nat) : Prop where
  entry_le : c.entry ≤ c.finish
  reads : ∀ ⦃p : Phrase⦄ (r : Rule p) (pos : Nat), c.Within pos → (c.entry < pos ∨ r.rank < rank) →
    (r.isStatement = true → c.orderly) → c.Reads g g' r pos

variable {c}
variable {x y : Parser α} {f f' : α → Parser β} {pos : Nat} {good : β → Nat → Prop}

theorem within_succ (h : c.Within pos) (hk : (c.stream.get pos).kind ≠ .eof) : c.Within (pos + 1) := by
  have : pos ≠ c.finish := by rintro rfl; exact hk c.closed
  unfold Within at h ⊢
  omega

theorem Within.of_le {p : Nat} (h : c.Within pos) (hp : pos ≤ p) (hf : p ≤ c.finish) : c.Within p :=
  ⟨Nat.le_trans h.1 hp, hf⟩

/-! ## Putting readers together -/

namespace Agrees

theorem mono {P Q : α → Nat → Prop} (h : c.Agrees x y pos P) (hPQ : ∀ a p, P a p → Q a p) :
    c.Agrees x y pos Q := by
  unfold Agrees at h ⊢
  refine ⟨h.1, ?_⟩
  cases hx : x c.stream pos with
  | ok a p => rw [hx] at h; exact hPQ a p h.2
  | fail e p => rw [hx] at h; exact h.2

/-- A reader may be replaced by one with the same outcome. -/
theorem congr {x' y' : Parser α} {P : α → Nat → Prop} (h : c.Agrees x y pos P)
    (hx : x' c.stream pos = x c.stream pos) (hy : y' c.stream pos = y c.stream pos) :
    c.Agrees x' y' pos P := by
  unfold Agrees at h ⊢
  rwa [hx, hy]

theorem bind {P : α → Nat → Prop} (h : c.Agrees x y pos P)
    (k : ∀ a p, P a p → c.Agrees (f a) (f' a) p good) : c.Agrees (x >>= f) (y >>= f') pos good := by
  have hb (z : Parser α) (w : α → Parser β) : (z >>= w) c.stream pos =
      match z c.stream pos with | .ok a p => w a c.stream p | .fail e p => .fail e p := rfl
  unfold Agrees at h ⊢
  rw [hb, hb, ← h.1]
  cases hx : x c.stream pos with
  | ok a p => rw [hx] at h; exact k a p h.2
  | fail e p => rw [hx] at h; exact ⟨rfl, h.2⟩

theorem pure {a : β} (h : good a pos) : c.Agrees (Pure.pure a) (Pure.pure a) pos good := ⟨rfl, h⟩

theorem ite {b : Prop} [Decidable b] {z w : Parser α} {P : α → Nat → Prop}
    (ht : b → c.Agrees x y pos P) (he : ¬b → c.Agrees z w pos P) :
    c.Agrees (if b then x else z) (if b then y else w) pos P := by
  by_cases hb : b
  · rw [if_pos hb, if_pos hb]; exact ht hb
  · rw [if_neg hb, if_neg hb]; exact he hb

/-- What agrees in the frame of a rule inside agrees in the frame of the rule that turns to it. -/
theorem leave {q : Nat} {a : Prop} {P : α → Nat → Prop} (h : (c.enter q a).Agrees x y pos P)
    (hq : c.entry ≤ q) (ha : c.admitted → a) : c.Agrees x y pos P := by
  unfold Agrees at h ⊢
  refine ⟨h.1, ?_⟩
  cases hx : x c.stream pos with
  | ok b p => have h2 := h.2; rw [show x (c.enter q a).stream pos = _ from hx] at h2; exact h2
  | fail e p =>
    have h2 := h.2
    rw [show x (c.enter q a).stream pos = _ from hx] at h2
    exact ⟨⟨Nat.le_trans hq h2.1.1, h2.1.2⟩, h2.2.mono ha⟩

/-! ## Looking and moving -/

theorem current {f f' : Token → Parser β}
    (k : c.Agrees (f (c.stream.get pos)) (f' (c.stream.get pos)) pos good) :
    c.Agrees (Parser.current >>= f) (Parser.current >>= f') pos good := k

theorem peek {f f' : Token → Parser β} {offset : Int} (k : ∀ t, c.Agrees (f t) (f' t) pos good) :
    c.Agrees (Parser.peek offset >>= f) (Parser.peek offset >>= f') pos good :=
  k (c.stream.ahead pos offset)

theorem previousEnd {f f' : Location → Parser β} (k : ∀ l, c.Agrees (f l) (f' l) pos good) :
    c.Agrees (Parser.previousEnd >>= f) (Parser.previousEnd >>= f') pos good :=
  k (c.stream.endBefore pos)

theorem checked {ks : List TokenKind} {f f' : Bool → Parser β}
    (k : ∀ b, (b = true ↔ (c.stream.get pos).kind ∈ ks) → c.Agrees (f b) (f' b) pos good) :
    c.Agrees (Parser.check ks >>= f) (Parser.check ks >>= f') pos good :=
  k (ks.contains (c.stream.get pos).kind) List.contains_iff_mem

theorem check {ks : List TokenKind} {z z' w w' : Parser β}
    (ht : (c.stream.get pos).kind ∈ ks → c.Agrees z z' pos good)
    (he : (c.stream.get pos).kind ∉ ks → c.Agrees w w' pos good) :
    c.Agrees (Parser.check ks >>= fun b => if b = true then z else w)
      (Parser.check ks >>= fun b => if b = true then z' else w') pos good :=
  checked fun _ hb => ite (fun h => ht (hb.1 h)) fun h => he fun h' => h (hb.2 h')

theorem advance {f f' : Token → Parser β} (h : c.Within pos) (hk : (c.stream.get pos).kind ≠ .eof)
    (k : c.Within (pos + 1) → c.Agrees (f (c.stream.get pos)) (f' (c.stream.get pos)) (pos + 1) good) :
    c.Agrees (Parser.advance >>= f) (Parser.advance >>= f') pos good := by
  have hb (w : Token → Parser β) : (Parser.advance >>= w) c.stream pos =
      w (c.stream.get pos) c.stream (if (c.stream.get pos).kind = .eof then pos else pos + 1) := rfl
  have hf := k (within_succ h hk)
  unfold Agrees at hf ⊢
  rw [hb, hb, if_neg hk]
  exact hf

/-- Wherever it stands, a move stays inside of the frame. -/
theorem move (h : c.Within pos) : c.Agrees Parser.advance Parser.advance pos fun t p =>
    t = c.stream.get pos ∧ pos ≤ p ∧ c.Within p ∧ (t.kind ≠ .eof → p = pos + 1) := by
  refine ⟨rfl, rfl, ?_⟩
  split
  · rename_i hk
    exact ⟨Nat.le_refl _, h, fun hn => absurd hk hn⟩
  · rename_i hk
    exact ⟨Nat.le_succ _, within_succ h hk, fun _ => rfl⟩

/-- Moving over one of the kinds that have been looked for. -/
theorem advance_of_mem {ks : List TokenKind} {f f' : Token → Parser β} (h : c.Within pos)
    (hk : (c.stream.get pos).kind ∈ ks) (hks : ks.contains .eof = false)
    (k : c.Within (pos + 1) → c.Agrees (f (c.stream.get pos)) (f' (c.stream.get pos)) (pos + 1) good) :
    c.Agrees (Parser.advance >>= f) (Parser.advance >>= f') pos good := by
  refine advance h (fun he => ?_) k
  rw [← he, List.contains_iff_mem.2 hk] at hks
  cases hks

/-! ## Failing -/

theorem unexpected {ks : List TokenKind} {t : Option Text} (h : c.Within pos) :
    c.Agrees (Parser.unexpected ks t) (Parser.unexpected ks t) pos good :=
  ⟨rfl, h, rfl, rfl⟩

theorem report {id : ErrorId} {ctx : MessageContext} {l : Location} (h : c.Within pos)
    (hid : id.category = .parse) :
    c.Agrees (Parser.report id ctx l) (Parser.report id ctx l) pos good :=
  ⟨rfl, h, rfl, hid⟩

theorem fault {e : Fault} (h : c.Within pos) (hd : e ≠ .depth) (ha : c.admitted → e.Cause c.stream) :
    c.Agrees (Parser.faultWith e) (Parser.faultWith e) pos good := ⟨rfl, h, hd, ha⟩

theorem expect {kind : TokenKind} {f f' : Token → Parser β} (h : c.Within pos) (hne : kind ≠ .eof)
    (k : (c.stream.get pos).kind = kind → c.Within (pos + 1) →
      c.Agrees (f (c.stream.get pos)) (f' (c.stream.get pos)) (pos + 1) good) :
    c.Agrees (Parser.expect kind >>= f) (Parser.expect kind >>= f') pos good := by
  have hx : c.Agrees (Parser.expect kind) (Parser.expect kind) pos fun t p =>
      t = c.stream.get pos ∧ (c.stream.get pos).kind = kind ∧ p = pos + 1 := by
    unfold Agrees Parser.expect
    split
    · rename_i hk
      refine ⟨rfl, rfl, hk, if_neg ?_⟩
      rw [hk]; exact hne
    · exact ⟨rfl, h, rfl, rfl⟩
  refine hx.bind ?_
  rintro _ _ ⟨rfl, hk, rfl⟩
  exact k hk (within_succ h (by rw [hk]; exact hne))

end Agrees

/-! ## Turning to a rule inside -/

theorem Gains.bind {n : Nat} (h : c.Gains x y pos n)
    (k : ∀ a p, pos + n ≤ p → c.Within p → c.Agrees (f a) (f' a) p good) :
    c.Agrees (x >>= f) (y >>= f') pos good :=
  Agrees.bind h fun a p hp => k a p hp.1 hp.2

theorem Gains.of_ok {n p : Nat} {a : α} (h : c.Gains x y pos n) (hx : x c.stream pos = .ok a p) :
    pos + n ≤ p ∧ c.Within p := by
  have h2 := h.2
  rw [hx] at h2
  exact h2

theorem Gains.of_fail {n p : Nat} {e : Failure} (h : c.Gains x y pos n) (hx : x c.stream pos = .fail e p) :
    c.Within p ∧ e.Due c.stream c.admitted := by
  have h2 := h.2
  rw [hx] at h2
  exact h2

/-- A reader behind others gains what it reads itself and what they have read. -/
theorem Gains.since {n m p : Nat} (h : c.Gains x y pos n) (hle : p + m ≤ pos + n) :
    c.Agrees x y pos fun _ q => p + m ≤ q ∧ c.Within q :=
  h.mono fun _ _ hq => ⟨Nat.le_trans hle hq.1, hq.2⟩

theorem Below.within {g g' : Grammar} {rank : Nat} (h : c.Below g g' rank) : c.Within c.entry :=
  ⟨Nat.le_refl _, h.entry_le⟩

theorem Below.rule {g g' : Grammar} {rank : Nat} (h : c.Below g g' rank) {p : Phrase} (r : Rule p)
    (hw : c.Within pos) (hr : c.entry < pos ∨ r.rank < rank)
    (ho : r.isStatement = true → c.orderly) (ha : c.admitted → r.Admits c.stream pos) :
    c.Gains (g r) (g' r) pos (r.least (c.stream.get pos).kind) :=
  ((h.reads r pos hw hr ho).leave hw.1 ha).mono fun _ _ hq =>
    ⟨hq.1, hw.of_le (Nat.le_trans (Nat.le_add_right ..) hq.1) hq.2.2⟩

/-- A rule that reads no statements and may begin where it does. -/
theorem Below.plain {g g' : Grammar} {rank : Nat} (h : c.Below g g' rank) {p : Phrase} (r : Rule p)
    (hw : c.Within pos) (hr : c.entry < pos ∨ r.rank < rank) (hs : r.isStatement = false)
    (ha : r.Admits c.stream pos) : c.Gains (g r) (g' r) pos (r.least (c.stream.get pos).kind) :=
  h.rule r hw hr (by rw [hs]; nofun) fun _ => ha

end Frame
end Stencil
