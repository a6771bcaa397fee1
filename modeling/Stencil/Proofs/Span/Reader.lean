/-
What reading yields. `Parser.Yields` says of a reader that its value is good, or that the mistake it
reports is reported at the start of a token. `Grammar.Places` says of a grammar that what a rule reads
from a position on stands in the edges from there up to where it ends, together with what has been read
before and is handed to the rule (`Rule.Given`).
-/
import Stencil.Proofs.Span.Edge

namespace Stencil

/-! ## Where mistakes are reported -/

/-- The mistake is reported at the start of a token, with the name of the template. -/
def Diagnostic.AtToken (s : Stream) (d : Diagnostic) : Prop :=
  (∃ l, d.location = some l ∧ s.Starts l) ∧ d.filename = s.filename

/-- If the failure is a mistake in the template, it is reported at a token. -/
def Failure.AtToken (s : Stream) : Failure → Prop
  | .reported d => d.AtToken s
  | .fault _ => True

/-! ## Readers -/

/-- The value of a reader is good together with the position behind it, and a mistake is reported at a
token. -/
def Parser.Yields {α : Type} (s : Stream) (x : Parser α) (pos : Nat) (good : α → Nat → Prop) : Prop :=
  match x s pos with
  | .ok a q => good a q
  | .fail e _ => e.AtToken s

namespace Parser.Yields

variable {α β : Type} {s : Stream} {x y : Parser α} {f : α → Parser β} {pos : Nat}
  {P Q : α → Nat → Prop} {good : β → Nat → Prop}

theorem of_ok (h : x.Yields s pos P) {a : α} {q : Nat} (hx : x s pos = .ok a q) : P a q := by
  unfold Yields at h
  rwa [hx] at h

theorem of_fail (h : x.Yields s pos P) {e : Failure} {q : Nat} (hx : x s pos = .fail e q) : e.AtToken s := by
  unfold Yields at h
  rwa [hx] at h

theorem mono (h : x.Yields s pos P) (hPQ : ∀ a q, P a q → Q a q) : x.Yields s pos Q := by
  unfold Yields at h ⊢
  cases hx : x s pos with
  | ok a q => rw [hx] at h; exact hPQ a q h
  | fail e q => rw [hx] at h; exact h

theorem bind (h : x.Yields s pos P) (k : ∀ a q, P a q → (f a).Yields s q good) :
    (x >>= f).Yields s pos good := by
  have hb : (x >>= f) s pos = match x s pos with | .ok a q => f a s q | .fail e q => .fail e q := rfl
  unfold Yields at h ⊢
  rw [hb]
  cases hx : x s pos with
  | ok a q => rw [hx] at h; exact k a q h
  | fail e q => rw [hx] at h; exact h

theorem pure {a : β} (h : good a pos) : (Pure.pure a : Parser β).Yields s pos good := h

theorem ite {b : Prop} [Decidable b] (ht : b → x.Yields s pos P) (he : ¬b → y.Yields s pos P) :
    (if b then x else y).Yields s pos P := by
  by_cases hb : b
  · rw [if_pos hb]; exact ht hb
  · rw [if_neg hb]; exact he hb

/-! ## Looking and moving -/

theorem current {f : Token → Parser β} (k : (f (s.get pos)).Yields s pos good) :
    (Parser.current >>= f).Yields s pos good := k

theorem peek {f : Token → Parser β} {offset : Int} (k : ∀ t, (f t).Yields s pos good) :
    (Parser.peek offset >>= f).Yields s pos good := k (s.ahead pos offset)

theorem previousEnd {f : Location → Parser β} (h : 0 < pos)
    (k : (f (s.edge (2 * pos - 1))).Yields s pos good) : (Parser.previousEnd >>= f).Yields s pos good := by
  show (f (s.endBefore pos)).Yields s pos good
  rwa [Stream.endBefore_eq h]

theorem checked {ks : List TokenKind} {f : Bool → Parser β}
    (k : ∀ b, (b = true ↔ (s.get pos).kind ∈ ks) → (f b).Yields s pos good) :
    (Parser.check ks >>= f).Yields s pos good := k _ List.contains_iff_mem

theorem check {ks : List TokenKind} {z w : Parser β} (ht : (s.get pos).kind ∈ ks → z.Yields s pos good)
    (he : (s.get pos).kind ∉ ks → w.Yields s pos good) :
    (Parser.check ks >>= fun b => if b = true then z else w).Yields s pos good :=
  checked fun _ hb => ite (fun h => ht (hb.1 h)) fun h => he fun h' => h (hb.2 h')

/-- A move leads behind the current token, or nowhere at the end of the source. -/
theorem move : Parser.advance.Yields s pos fun t q =>
    t = s.get pos ∧ pos ≤ q ∧ (t.kind ≠ .eof → q = pos + 1) := by
  refine ⟨rfl, ?_⟩
  by_cases hk : (s.get pos).kind = .eof
  · rw [if_pos hk]
    exact ⟨Nat.le_refl _, fun hn => absurd hk hn⟩
  · rw [if_neg hk]
    exact ⟨Nat.le_succ _, fun _ => rfl⟩

theorem advance {f : Token → Parser β} (hk : (s.get pos).kind ≠ .eof)
    (k : (f (s.get pos)).Yields s (pos + 1) good) : (Parser.advance >>= f).Yields s pos good := by
  refine move.bind ?_
  rintro _ q ⟨rfl, -, hq⟩
  rwa [hq hk]

/-- Moving over one of the kinds that have been looked for. -/
theorem advance_of_mem {ks : List TokenKind} {f : Token → Parser β} (hk : (s.get pos).kind ∈ ks)
    (hks : ks.contains .eof = false) (k : (f (s.get pos)).Yields s (pos + 1) good) :
    (Parser.advance >>= f).Yields s pos good := by
  refine advance (fun he => ?_) k
  rw [← he, List.contains_iff_mem.2 hk] at hks
  cases hks

/-! ## Failing -/

theorem unexpected {ks : List TokenKind} {t : Option Text} : (Parser.unexpected ks t).Yields s pos P :=
  ⟨⟨_, rfl, pos, rfl⟩, rfl⟩

theorem report {id : ErrorId} {ctx : MessageContext} {l : Location} (hl : s.Starts l) :
    (Parser.report id ctx l).Yields s pos P := ⟨⟨l, rfl, hl⟩, rfl⟩

theorem fault {e : Fault} : (Parser.faultWith e : Parser α).Yields s pos P := trivial

theorem expect {kind : TokenKind} {f : Token → Parser β} (hne : kind ≠ .eof)
    (k : (s.get pos).kind = kind → (f (s.get pos)).Yields s (pos + 1) good) :
    (Parser.expect kind >>= f).Yields s pos good := by
  have hx : (Parser.expect kind).Yields s pos fun t q =>
      t = s.get pos ∧ (s.get pos).kind = kind ∧ q = pos + 1 := by
    by_cases hk : (s.get pos).kind = kind
    · unfold Yields Parser.expect
      rw [if_pos hk]
      exact ⟨rfl, hk, if_neg (hk ▸ hne)⟩
    · unfold Yields Parser.expect
      rw [if_neg hk]
      exact ⟨⟨_, rfl, pos, rfl⟩, rfl⟩
  refine hx.bind ?_
  rintro _ _ ⟨rfl, hk, rfl⟩
  exact k hk

end Parser.Yields

/-! ## Trees of every sort -/

/-- The branches behind the first one stand in a range of edges, each in what is left of it. -/
def Branches.Placed (s : Stream) (b : Nat) (elseBody : List Stmt) : (a : Nat) → List Branch → Prop
  | a, [] => Node.AllPlaced s a b (Node.ofStmts elseBody)
  | a, br :: brs => ∃ x, a ≤ x ∧ br.start = s.edge x ∧ br.test.Placed s x b ∧
      Node.AllPlaced s x b (Node.ofStmts br.body) ∧ Placed s b elseBody x brs

/-- The tree stands in a range of edges. A template reaches from the origin to the edge behind. -/
def Phrase.Placed (s : Stream) (a b : Nat) : (p : Phrase) → p.Tree → Prop
  | .expr, (e : Expr) => e.Placed s a b
  | .exprs, (es : List Expr) => Expr.Row s a b es
  | .pairs, (ps : List Pair) => Node.AllPlaced s a b (ps.map .pair)
  | .operands, (os : List Operand) => Node.AllPlaced s a b (os.map .operand)
  | .arguments, (args : Arguments) => Node.AllPlaced s a b (Node.ofArguments args)
  | .signature, (sig : Signature) => Node.AllPlaced s a b (Node.ofSignature sig)
  | .stmt, (st : Stmt) => (Node.stmt st).Placed s a b
  | .splice, (sp : Splice) => Node.AllPlaced s a b (Node.ofStmts sp.toList)
  | .body, (ss : List Stmt) => Node.AllPlaced s a b (Node.ofStmts ss)
  | .branches, (bs : Branches) => Branches.Placed s b bs.elseBody a bs.elifs
  | .names, _ => True
  | .template, (t : Template) => Node.AllPlaced s a b (Node.ofStmts t.body) ∧ t.span = ⟨.origin, s.edge (b + 1)⟩

/-! ## Rules -/

namespace Rule

/-- How far a tree may reach behind the last token of its rule: the empty tuple stands where the next
token begins. -/
def slack : {p : Phrase} → Rule p → Nat
  | _, .tuple _ => 1
  | .stmt, _ | .splice, _ => 1
  | _, _ => 0

/-- What a rule at a position takes over from others stands before it. -/
def Given (s : Stream) (a pos : Nat) : {p : Phrase} → Rule p → Prop
  | _, .condRest e | _, .binaryRest _ e | _, .suffixes e | _, .subscript e | _, .call e | _, .filter e
  | _, .filterRest e | _, .test e => e.Placed s a (2 * pos)
  | _, .filterChain input | _, .singleFilter input => ∀ e, input = some e → e.Placed s a (2 * pos)
  | _, .assign target => target.Placed s a (2 * pos + 1)
  | _, .argumentsRest opened args =>
    s.Starts opened ∧ Node.AllPlaced s a (2 * pos) (Node.ofArguments args)
  | _, .signatureRest sofar => Node.AllPlaced s a (2 * pos) (Node.ofSignature sofar)
  | _, .content _ pending => Expr.Row s a (2 * pos) pending
  | _, _ => True

/-- A rule may end at a position; a body begins behind the end of a tag. -/
@[reducible] def Reaches (pos q : Nat) : {p : Phrase} → Rule p → Prop
  | _, .statements _ _ => pos < q
  | _, _ => pos ≤ q

theorem Reaches.le {pos q : Nat} {p : Phrase} {r : Rule p} (h : r.Reaches pos q) : pos ≤ q := by
  cases r <;> first | exact h | exact Nat.le_of_lt h

/-- A tree that a rule has read from a position up to another one. -/
def Result (s : Stream) (a pos : Nat) {p : Phrase} (r : Rule p) (t : p.Tree) (q : Nat) : Prop :=
  r.Reaches pos q ∧ p.Placed s a (2 * q + r.slack) t

end Rule

/-- The trees that a grammar reads stand where they were read. -/
def Grammar.Places (s : Stream) (g : Grammar) : Prop :=
  ∀ ⦃p : Phrase⦄ (r : Rule p) ⦃a pos : Nat⦄, a ≤ 2 * pos → r.Given s a pos →
    (g r).Yields s pos (r.Result s a pos)

/-- A rule leaves the rest to one that begins further on. -/
theorem Grammar.Places.further {s : Stream} {g : Grammar} (h : g.Places s) {p : Phrase} (r : Rule p) {r' : Rule p}
    {a pos q : Nat} (hq : pos ≤ q) (ha : a ≤ 2 * pos) (hr : r.Given s a q)
    (hs : r.slack = r'.slack) (hr' : ∀ n, r'.Reaches pos n = (pos ≤ n)) :
    (g r).Yields s q (r'.Result s a pos) := by
  refine (h r (by omega) hr).mono ?_
  rintro t n ⟨hn, ht⟩
  exact ⟨(hr' n).mpr (Nat.le_trans hq hn.le), hs ▸ ht⟩

end Stencil
