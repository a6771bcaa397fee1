/-
Two streams read side by side. Up to a horizon the right stream has the tokens of the left one at moved places, so
many positions further on, and the token behind the horizon is told apart from a few kinds as on the left; what else
stands there, and behind, is left open. A reader on the right carries on a reader on the left (`Parallel.Carries`) if
it comes to the moved outcome at the shifted position whenever the left one does not end behind the horizon. Readers
never go back, so a sequence is carried on if its parts are (`Carries.bind`), and one token ahead is all that any
reader looks at (`Carries.pair`).
-/
import Stencil.Proofs.Derivation.Composition
import Stencil.Proofs.Moved.Tree
import Stencil.Proofs.Span.Edge

namespace Stencil

/-- The kinds at which a rule asks for the kind of the token behind, and the one it asks for: `not in`, and the name of
an argument. -/
def Grammar.lookahead : List (TokenKind × TokenKind) :=
  [(.keyword .notOp, .keyword .inOp), (.name, .symbol .assign)]

/-- Two streams of which one has the tokens of the other at moved places and shifted positions, up to a horizon. -/
structure Parallel where
  left : Stream
  right : Stream
  move : Location → Location
  /-- How many positions further on the tokens stand on the right. -/
  offset : Nat
  /-- The position on the left up to which the tokens are compared. -/
  horizon : Nat
  /-- A template begins at the origin, wherever its tokens are moved to. -/
  move_origin : move .origin = .origin
  /-- Before the first token both have read up to the same place. -/
  start : right.endBefore offset = move (left.endBefore 0)
  same : ∀ i ≤ horizon, right.get (i + offset) = (left.get i).mapPlaces move
  /-- What stands behind most tokens is never looked at. -/
  next : ∀ i ≤ horizon, ∀ k k', (k, k') ∈ Grammar.lookahead → (left.get i).kind = k →
    ((right.get (i + offset + 1)).kind = k' ↔ (left.get (i + 1)).kind = k')

namespace Parallel

variable {α β : Type} (m : Parallel)

/-- The second outcome is the first one at moved places. -/
def Carried (mv : α → α) : Reply α → Reply α → Prop
  | .ok a q, r => r = .ok (mv a) (q + m.offset)
  | .fail e q, r => ∃ e', r = .fail e' (q + m.offset) ∧ e.Moves m.move m.left.filename m.right.filename e'

/-- The reader on the left does not go back, and if it does not end behind the horizon, the reader on the right
comes to the moved outcome. -/
def Carries (mv : α → α) (x y : Parser α) (pos : Nat) : Prop :=
  pos ≤ (x m.left pos).pos ∧
    ((x m.left pos).pos ≤ m.horizon → m.Carried mv (x m.left pos) (y m.right (pos + m.offset)))

variable {m}
variable {mv : α → α} {mv' : β → β} {x y : Parser α} {f f' : α → Parser β} {pos : Nat}

theorem Carries.of_ok (h : m.Carries mv x y pos) {a : α} {q : Nat} (hx : x m.left pos = .ok a q) :
    pos ≤ q ∧ (q ≤ m.horizon → y m.right (pos + m.offset) = .ok (mv a) (q + m.offset)) := by
  unfold Carries at h
  rw [hx] at h
  exact h

theorem Carries.of_fail (h : m.Carries mv x y pos) {e : Failure} {q : Nat} (hx : x m.left pos = .fail e q) :
    pos ≤ q ∧ (q ≤ m.horizon → ∃ e', y m.right (pos + m.offset) = .fail e' (q + m.offset) ∧
      e.Moves m.move m.left.filename m.right.filename e') := by
  unfold Carries at h
  rw [hx] at h
  exact h

namespace Carries

/-! ## Putting readers together -/

theorem pure {a b : α} (h : b = mv a) : m.Carries mv (Pure.pure a) (Pure.pure b) pos :=
  ⟨Nat.le_refl pos, fun _ => congrArg (Reply.ok · (pos + m.offset)) h⟩

theorem bind (h : m.Carries mv x y pos) (k : ∀ a q, m.Carries mv' (f a) (f' (mv a)) q) :
    m.Carries mv' (x >>= f) (y >>= f') pos := by
  unfold Carries
  cases hx : x m.left pos with
  | ok a q =>
    obtain ⟨hle, hok⟩ := h.of_ok hx
    obtain ⟨hle', hcarried⟩ := k a q
    rw [Parser.bind_ok hx f]
    refine ⟨Nat.le_trans hle hle', fun hend => ?_⟩
    rw [Parser.bind_ok (hok (Nat.le_trans hle' hend)) f']
    exact hcarried hend
  | fail e q =>
    -- the second reader does not begin on either side
    obtain ⟨hle, hfail⟩ := h.of_fail hx
    rw [Parser.bind_eq_fail.2 (.inl hx)]
    refine ⟨hle, fun hend => ?_⟩
    obtain ⟨e', hy, hmoves⟩ := hfail hend
    exact ⟨e', Parser.bind_eq_fail.2 (.inl hy), hmoves⟩

theorem ite {b b' : Prop} [Decidable b] [Decidable b'] {z w : Parser α} (hb : b' ↔ b)
    (ht : b → m.Carries mv x y pos) (he : ¬b → m.Carries mv z w pos) :
    m.Carries mv (if b then x else z) (if b' then y else w) pos := by
  by_cases h : b
  · rw [if_pos h, if_pos (hb.2 h)]
    exact ht h
  · rw [if_neg h, if_neg fun h' => h (hb.1 h')]
    exact he h

/-- A reader on the left that begins behind the horizon only has to end there. -/
theorem of_within (hle : pos ≤ (x m.left pos).pos)
    (h : pos ≤ m.horizon → (x m.left pos).pos ≤ m.horizon →
      m.Carried mv (x m.left pos) (y m.right (pos + m.offset))) :
    m.Carries mv x y pos :=
  ⟨hle, fun hend => h (Nat.le_trans hle hend) hend⟩

/-! ## Looking and moving -/

section

variable {g g' : Token → Parser β}

theorem current (k : m.Carries mv' (g (m.left.get pos)) (g' ((m.left.get pos).mapPlaces m.move)) pos) :
    m.Carries mv' (Parser.current >>= g) (Parser.current >>= g') pos := by
  refine of_within k.1 fun hpos hend => ?_
  show m.Carried mv' _ (g' (m.right.get (pos + m.offset)) m.right (pos + m.offset))
  rw [m.same pos hpos]
  exact k.2 hend

/-- The current token and the kind of the one behind it are asked for. -/
theorem pair {k k' : TokenKind} (hk : (k, k') ∈ Grammar.lookahead) {z z' w w' : Parser β}
    (ht : (m.left.get pos).kind = k → m.Carries mv' z z' pos) (he : m.Carries mv' w w' pos) :
    m.Carries mv'
      (Parser.peek 1 >>= fun next => if (m.left.get pos).kind = k ∧ next.kind = k' then z else w)
      (Parser.peek 1 >>= fun next => if (m.left.get pos).kind = k ∧ next.kind = k' then z' else w') pos := by
  have hpeek (s : Stream) (i : Nat) (x y : Parser β) :
      (Parser.peek 1 >>= fun next => if (m.left.get pos).kind = k ∧ next.kind = k' then x else y) s i =
        (if (m.left.get pos).kind = k ∧ (s.get (i + 1)).kind = k' then x else y) s i := by
    rw [Parser.peek_bind, Stream.ahead_one]
  by_cases hhere : (m.left.get pos).kind = k
  · have hz := ht hhere
    unfold Carries
    rw [hpeek, hpeek]
    by_cases hnext : (m.left.get (pos + 1)).kind = k'
    · rw [if_pos ⟨hhere, hnext⟩]
      refine of_within hz.1 fun hpos hend => ?_
      rw [if_pos ⟨hhere, (m.next pos hpos k k' hk hhere).2 hnext⟩]
      exact hz.2 hend
    · rw [if_neg fun h => hnext h.2]
      refine of_within he.1 fun hpos hend => ?_
      rw [if_neg fun h => hnext ((m.next pos hpos k k' hk hhere).1 h.2)]
      exact he.2 hend
  · unfold Carries
    rw [hpeek, hpeek, if_neg fun h => hhere h.1, if_neg fun h => hhere h.1]
    exact he

end

theorem previousEnd : m.Carries m.move Parser.previousEnd Parser.previousEnd pos := by
  have hend (s : Stream) (i : Nat) : s.endBefore (i + 1) = (s.get i).span.finish := by
    have hedge : 2 * (i + 1) - 1 = 2 * i + 1 := by omega
    rw [Stream.endBefore_eq (Nat.succ_pos i), hedge, Stream.edge_finish]
  refine of_within (Nat.le_refl pos) fun hpos _ => ?_
  show Reply.ok (m.right.endBefore (pos + m.offset)) _ = .ok (m.move (m.left.endBefore pos)) _
  cases pos with
  | zero => rw [Nat.zero_add, m.start]
  | succ i =>
    have hshift : i + 1 + m.offset = i + m.offset + 1 := by omega
    rw [hshift, hend, hend, m.same i (by omega)]
    rfl

/-- Two readers of which the current token decides, whatever its place. -/
theorem look {b : Token → Prop} [DecidablePred b] (hb : ∀ t : Token, b (t.mapPlaces m.move) ↔ b t)
    {z z' w w' : Parser β} (ht : m.Carries mv' z z' pos) (he : m.Carries mv' w w' pos) :
    m.Carries mv' (fun s i => if b (s.get i) then z s i else w s i)
      (fun s i => if b (s.get i) then z' s i else w' s i) pos := by
  unfold Carries
  by_cases h : b (m.left.get pos)
  · simp only [if_pos h]
    refine ⟨ht.1, fun hend => ?_⟩
    rw [m.same pos (Nat.le_trans ht.1 hend), if_pos ((hb _).2 h)]
    exact ht.2 hend
  · simp only [if_neg h]
    refine ⟨he.1, fun hend => ?_⟩
    rw [m.same pos (Nat.le_trans he.1 hend), if_neg (mt (hb _).1 h)]
    exact he.2 hend

theorem checked {ks : List TokenKind} : m.Carries id (Parser.check ks) (Parser.check ks) pos := by
  refine of_within (Nat.le_refl pos) fun hpos _ => ?_
  show Reply.ok (ks.contains (m.right.get (pos + m.offset)).kind) _ = .ok (ks.contains (m.left.get pos).kind) _
  rw [m.same pos hpos]
  rfl

theorem check {ks : List TokenKind} {z z' w w' : Parser β} (ht : m.Carries mv' z z' pos)
    (he : m.Carries mv' w w' pos) :
    m.Carries mv' (Parser.check ks >>= fun b => if b = true then z else w)
      (Parser.check ks >>= fun b => if b = true then z' else w') pos := by
  have hlook (z w : Parser β) : (Parser.check ks >>= fun b => if b = true then z else w) =
      fun s i => if ks.contains (s.get i).kind = true then z s i else w s i := by
    funext s i
    rw [Parser.check_bind]
    split <;> rfl
  rw [hlook, hlook]
  exact look (b := fun t => ks.contains t.kind = true) (fun _ => Iff.rfl) ht he

theorem checkName {name : Text} : m.Carries id (Parser.checkName name) (Parser.checkName name) pos := by
  refine of_within (Nat.le_refl pos) fun hpos _ => ?_
  show Parser.checkName name m.right (pos + m.offset) = _
  unfold Parser.checkName
  simp only [m.same pos hpos]
  rfl

theorem advance : m.Carries (Token.mapPlaces m.move) Parser.advance Parser.advance pos := by
  refine of_within ?_ fun hpos _ => ?_
  · show pos ≤ if (m.left.get pos).kind = .eof then pos else pos + 1
    split <;> omega
  · show m.Carried _ (.ok _ _) (Parser.advance m.right (pos + m.offset))
    unfold Parser.advance Carried
    simp only [m.same pos hpos, Token.kind_mapPlaces]
    by_cases hk : (m.left.get pos).kind = .eof
    · rw [if_pos hk, if_pos hk]
    · rw [if_neg hk, if_neg hk, Nat.add_right_comm]

/-- Both go on behind a token that is not the end. -/
theorem past {k : TokenKind} {z z' : Parser β} (hk : (m.left.get pos).kind = k) (hend : k ≠ .eof)
    (hz : m.Carries mv' z z' (pos + 1)) :
    m.Carries mv' (Parser.advance >>= fun _ => z) (Parser.advance >>= fun _ => z') pos := by
  have hleft : (Parser.advance >>= fun _ => z) m.left pos = z m.left (pos + 1) :=
    Parser.advance_bind (by rw [hk]; exact hend) _
  unfold Carries
  rw [hleft]
  refine ⟨by have := hz.1; omega, fun hle => ?_⟩
  have hright : (Parser.advance >>= fun _ => z') m.right (pos + m.offset) = z' m.right (pos + 1 + m.offset) := by
    rw [Nat.add_right_comm]
    refine Parser.advance_bind ?_ _
    rw [m.same pos (by have := hz.1; omega), Token.kind_mapPlaces, hk]
    exact hend
  rw [hright]
  exact hz.2 hle

theorem skip_two : m.Carries (Token.mapPlaces m.move) (Parser.skip 2) (Parser.skip 2) pos :=
  advance.bind fun _ _ => advance

/-! ## Failing -/

theorem unexpected {ks : List TokenKind} {t : Option Text} :
    m.Carries mv (Parser.unexpected ks t) (Parser.unexpected ks t) pos := by
  refine of_within (Nat.le_refl pos) fun hpos _ => ?_
  refine ⟨.reported (m.right.unexpected (pos + m.offset) ks t), rfl, ?_⟩
  unfold Stream.unexpected
  simp only [m.same pos hpos]
  exact ⟨_, _, _, _, _, rfl, rfl⟩

theorem report {id : ErrorId} {context : MessageContext} {place : Location} :
    m.Carries mv (Parser.report id context place) (Parser.report id context (m.move place)) pos :=
  ⟨Nat.le_refl pos, fun _ => ⟨_, rfl, Diagnostic.report_moves id context place⟩⟩

theorem fault {e : Fault} : m.Carries mv (Parser.faultWith e) (Parser.faultWith e) pos :=
  ⟨Nat.le_refl pos, fun _ => ⟨_, rfl, rfl⟩⟩

theorem expect {kind : TokenKind} :
    m.Carries (Token.mapPlaces m.move) (Parser.expect kind) (Parser.expect kind) pos :=
  look (b := fun t => t.kind = kind) (fun _ => Iff.rfl) advance unexpected

theorem expectName {name : Text} :
    m.Carries (Token.mapPlaces m.move) (Parser.expectName name) (Parser.expectName name) pos :=
  look (b := fun t => t.kind = .name ∧ t.value = name) (fun _ => Iff.rfl) advance unexpected

end Carries
end Parallel

/-! ## Rules -/

section

variable (f : Location → Location)

@[simp] def Splice.mapPlaces : Splice → Splice
  | .one s => .one (s.mapPlaces f)
  | .many ss => .many (ss.map (Stmt.mapPlaces f))

@[simp] def Branch.mapPlaces (b : Branch) : Branch :=
  ⟨f b.start, b.test.mapPlaces f, b.body.map (Stmt.mapPlaces f)⟩

@[simp] def Branches.mapPlaces (b : Branches) : Branches :=
  ⟨b.elifs.map (Branch.mapPlaces f), b.elseBody.map (Stmt.mapPlaces f)⟩

/-- The tree with its places moved. -/
@[simp] def Phrase.mapPlaces : (p : Phrase) → p.Tree → p.Tree
  | .expr => Expr.mapPlaces f
  | .exprs => List.map (Expr.mapPlaces f)
  | .pairs => List.map (Pair.mapPlaces f)
  | .operands => List.map (Operand.mapPlaces f)
  | .arguments => Arguments.mapPlaces f
  | .signature => Signature.mapPlaces f
  | .stmt => Stmt.mapPlaces f
  | .splice => Splice.mapPlaces f
  | .body => List.map (Stmt.mapPlaces f)
  | .branches => Branches.mapPlaces f
  | .names => id
  | .template => Template.mapPlaces f

/-- The rule for what has been read so far at moved places. -/
@[simp] def Rule.mapPlaces : {p : Phrase} → Rule p → Rule p
  | _, .condRest value => .condRest (value.mapPlaces f)
  | _, .binaryRest op left => .binaryRest op (left.mapPlaces f)
  | _, .suffixes e => .suffixes (e.mapPlaces f)
  | _, .subscript object => .subscript (object.mapPlaces f)
  | _, .call callee => .call (callee.mapPlaces f)
  | _, .argumentsRest opened args => .argumentsRest (f opened) (args.mapPlaces f)
  | _, .filter input => .filter (input.mapPlaces f)
  | _, .filterChain input => .filterChain (input.map (Expr.mapPlaces f))
  | _, .filterRest e => .filterRest (e.mapPlaces f)
  | _, .singleFilter input => .singleFilter (input.map (Expr.mapPlaces f))
  | _, .test subject => .test (subject.mapPlaces f)
  | _, .content ends pending => .content ends (pending.map (Expr.mapPlaces f))
  | _, .assign target => .assign (target.mapPlaces f)
  | _, .signatureRest sofar => .signatureRest (sofar.mapPlaces f)
  | _, r => r

end

theorem Phrase.mapPlaces_id (p : Phrase) (t : p.Tree) : p.mapPlaces id t = t := by
  have hpairs (ps : List Pair) : ps.map (Pair.mapPlaces id) = ps := List.map_id'' Pair.mapPlaces_id ps
  have hoperands (os : List Operand) : os.map (Operand.mapPlaces id) = os := List.map_id'' Operand.mapPlaces_id os
  have hstmts (ss : List Stmt) : ss.map (Stmt.mapPlaces id) = ss := List.map_id'' Stmt.mapPlaces_id ss
  have hbranches (bs : List Branch) : bs.map (Branch.mapPlaces id) = bs := by
    refine List.map_id'' (fun b => ?_) bs
    rw [Branch.mapPlaces, Expr.mapPlaces_id, hstmts]
    rfl
  cases p
  case splice => cases t <;> simp [Stmt.mapPlaces_id, hstmts]
  case signature => exact Signature.mapPlaces_id t
  case template => exact Template.mapPlaces_id t
  all_goals simp [Expr.mapPlaces_id, Expr.map_mapPlaces_id, hpairs, hoperands, Arguments.mapPlaces_id,
    Stmt.mapPlaces_id, hstmts, hbranches]

theorem Rule.mapPlaces_id {p : Phrase} (r : Rule p) : r.mapPlaces id = r := by
  have hoption (o : Option Expr) : o.map (Expr.mapPlaces id) = o := by cases o <;> simp [Expr.mapPlaces_id]
  cases r
  case signatureRest sofar => exact congrArg Rule.signatureRest (Signature.mapPlaces_id sofar)
  all_goals simp [Expr.mapPlaces_id, Expr.map_mapPlaces_id, hoption, Arguments.mapPlaces_id]

/-- Nothing is moved or shifted and the file is the same, and so is the outcome. -/
theorem Parallel.Carried.eq_of_fixed {m : Parallel} (hmove : m.move = id) (hoffset : m.offset = 0)
    (hfile : m.right.filename = m.left.filename) {p : Phrase} {x y : Reply p.Tree}
    (h : m.Carried (p.mapPlaces m.move) x y) : y = x := by
  rw [hmove] at h
  cases x with
  | ok t q =>
    rw [Carried, Phrase.mapPlaces_id, hoffset] at h
    exact h
  | fail e q =>
    obtain ⟨e', rfl, hmoves⟩ := h
    rw [hfile] at hmoves
    rw [hmoves.eq_of_fixed fun l => by rw [hmove]; rfl, hoffset]
    rfl

/-- Where the statement of a tag is read: behind the begin of a block tag. -/
def Phrase.Entered (s : Stream) (pos : Nat) : Phrase → Prop
  | .splice => ∃ i, pos = i + 1 ∧ (s.get i).kind = .blockBegin
  | _ => True

/-- A grammar on the right carries on the rules that a grammar reads on the left. -/
def Parallel.CarriesRules (m : Parallel) (g g' : Grammar) : Prop :=
  ∀ ⦃p : Phrase⦄ (r : Rule p) ⦃pos : Nat⦄, p.Entered m.left pos →
    m.Carries (p.mapPlaces m.move) (g r) (g' (r.mapPlaces m.move)) pos

theorem Parallel.CarriesRules.rule {m : Parallel} {g g' : Grammar} (h : m.CarriesRules g g') (p : Phrase) {pos : Nat}
    (hp : p.Entered m.left pos) {r r' : Rule p} (hr : r' = r.mapPlaces m.move) :
    m.Carries (p.mapPlaces m.move) (g r) (g' r') pos := by
  rw [hr]
  exact h r hp

end Stencil
