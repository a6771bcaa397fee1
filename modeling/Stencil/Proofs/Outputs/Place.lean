/-
Where the pieces of outputs begin. What stands in a tag begins with a token behind the one that opens the tag
(`Stream.Begins`), and no two tokens begin at one place; so a piece tells the position that it comes from
(`Stream.Piece.unique`), and nothing that is printed is a piece (`Stream.Prints.not_piece`).
-/
import Stencil.Proofs.Outputs.Gathering

namespace Stencil

open Stencil.Grammar

/-! ## Scanned streams -/

/-- Tokens stand one behind the other, only the end token is empty, and it is the last one. -/
structure Stream.Scanned (s : Stream) : Prop where
  edge_le : ∀ m n, m ≤ n → (s.edge m).offset ≤ (s.edge n).offset
  nonempty : ∀ i, (s.get i).kind ≠ .eof → (s.get i).span.start.offset < (s.get i).span.finish.offset
  eof_of_le : ∀ i j, i ≤ j → (s.get i).kind = .eof → (s.get j).kind = .eof
  data : ∀ i, (s.get i).kind = .data → (s.get i).value ≠ []

namespace Scan.Layout

variable {d : Delimiters} {z : Zone} {l : Location} {text : Text} {ts : List Token}

theorem data_ne_nil (h : Layout d z l text ts) : ∀ t ∈ ts, t.kind = .data → t.value ≠ [] := by
  induction h with
  | finish l =>
    intro t ht hk
    rw [List.mem_singleton.1 ht] at hk
    cases hk
  | token _ hw hv _ _ ih =>
    refine List.forall_mem_cons.2 ⟨fun hk => ?_, ih⟩
    rw [hk] at hv
    rw [show _ = _ from hv]
    exact hw
  | spacing _ _ _ ih => exact ih
  | comment _ _ _ _ ih => exact ih
  | raw _ _ _ _ _ ih =>
    refine List.forall_mem_append.2 ⟨fun t ht _ => ?_, ih⟩
    obtain ⟨hne, rfl⟩ := mem_dataTokens.1 ht
    exact hne

theorem scanned {s : Stream} (h : Layout d z .origin text s.tokens.toList) : s.Scanned where
  edge_le _ _ hmn := h.edge_le hmn
  nonempty i hi := (h.ordered.2 _ (s.get_mem i)).2 hi
  eof_of_le i j hij hi := by
    obtain ⟨-, hclose⟩ := h.closes
    exact (hclose j).2 (Nat.le_trans ((hclose i).1 hi) hij)
  data i := h.data_ne_nil _ (s.get_mem i)

end Scan.Layout

namespace TokenKind

/-- The kinds of tokens that open something: data, an interpolation or a tag. -/
def isOpener : TokenKind → Bool
  | data | variableBegin | blockBegin => true
  | _ => false

theorem not_isOpener_of_inExpression {k : TokenKind} (h : k.inExpression = true) : k.isOpener = false := by
  cases k <;> first | rfl | cases h

end TokenKind

namespace Stream

/-- The last token up to a position that opens something. -/
structure Opened (s : Stream) (i k : Nat) : Prop where
  le : i ≤ k
  opener : (s.get i).kind.isOpener = true
  last : ∀ l, i < l → l ≤ k → (s.get l).kind.isOpener = false

/-- The expression begins with a token, and the token at a position is the last one before it that opens
something. -/
structure Begins (s : Stream) (i k : Nat) (e : Expr) : Prop where
  opened : s.Opened i k
  kind : (s.get k).kind ≠ .eof
  start : e.span.start = (s.get k).span.start

variable {s : Stream} {i j k l q b : Nat} {e : Expr} {es : List Expr} {g : List Nat}

namespace Scanned

theorem start_lt (h : s.Scanned) (hij : i < j) (hi : (s.get i).kind ≠ .eof) :
    (s.get i).span.start.offset < (s.get j).span.start.offset := by
  have hlong := h.nonempty i hi
  have hnext := h.edge_le (2 * i + 1) (2 * j) (by omega)
  rw [edge_finish, edge_start] at hnext
  exact Nat.lt_of_lt_of_le hlong hnext

/-- Different tokens before the end begin at different places. -/
theorem start_injective (h : s.Scanned) (hi : (s.get i).kind ≠ .eof) (hj : (s.get j).kind ≠ .eof)
    (hstart : (s.get i).span.start = (s.get j).span.start) : i = j := by
  rcases Nat.lt_trichotomy i j with hlt | heq | hlt
  · exact absurd (congrArg Location.offset hstart) (Nat.ne_of_lt (h.start_lt hlt hi))
  · exact heq
  · exact absurd (congrArg Location.offset hstart) (Nat.ne_of_gt (h.start_lt hlt hj))

/-- An expression begins with one of the tokens that it stands among, or where the token behind them begins. -/
theorem begins (h : s.Scanned) (he : e.Placed s (2 * j) (2 * q + 1)) (hq : (s.get q).kind ≠ .eof) :
    ∃ k, j ≤ k ∧ k ≤ q ∧ e.span.start = (s.get k).span.start := by
  obtain ⟨x, y, hx, hxy, hy, hspan, -⟩ := he.edges
  obtain ⟨k, hk⟩ := he.2
  have hlow := h.edge_le (2 * j) x hx
  have hhigh := h.edge_le x (2 * q) (by omega)
  have hedge : s.edge x = (s.get k).span.start := by rw [← hk, hspan]
  rw [edge_start, hedge] at hlow hhigh
  -- a token before the range begins before it, and one behind the range begins behind it
  refine ⟨k, ?_, ?_, hk⟩
  · by_contra hlt
    have hkind : (s.get k).kind ≠ .eof := fun heof => hq (h.eof_of_le k q (by omega) heof)
    have := h.start_lt (Nat.lt_of_not_le hlt) hkind
    omega
  · by_contra hlt
    have := h.start_lt (Nat.lt_of_not_le hlt) hq
    omega

end Scanned

theorem Opened.unique (h : s.Opened i k) (h' : s.Opened j k) : i = j := by
  rcases Nat.lt_trichotomy i j with hlt | heq | hlt
  · exact absurd h'.opener (by rw [h.last j hlt h'.le]; exact Bool.false_ne_true)
  · exact heq
  · exact absurd h.opener (by rw [h'.last i hlt h.le]; exact Bool.false_ne_true)

/-- An expression has been opened by one token. -/
theorem Begins.unique (h : s.Begins i k e) (h' : s.Begins j l e) (hs : s.Scanned) : i = j := by
  obtain rfl : k = l := hs.start_injective h.kind h'.kind (h.start.symm.trans h'.start)
  exact h.opened.unique h'.opened

/-! ## Pieces and prints -/

/-- What stands in a tag has been opened by the token that opens the tag, and does not begin with data. -/
theorem begins_inside (hs : s.Scanned) (hi : (s.get i).kind.isOpener = true)
    (hin : ∀ l, i < l → l < q → (s.get l).kind.inExpression = true) (hq : (s.get q).kind.isOpener = false)
    (heof : (s.get q).kind ≠ .eof) (he : e.Placed s (2 * (i + 1)) (2 * q + 1)) :
    ∃ k, s.Begins i k e ∧ (s.get k).kind ≠ .data := by
  obtain ⟨k, hik, hkq, hstart⟩ := hs.begins he heof
  have hkind : (s.get k).kind ≠ .eof := fun hk => heof (hs.eof_of_le k q hkq hk)
  have hlast : ∀ l, i < l → l ≤ k → (s.get l).kind.isOpener = false := by
    intro l hil hlk
    rcases Nat.lt_or_eq_of_le (Nat.le_trans hlk hkq) with hlt | rfl
    · exact TokenKind.not_isOpener_of_inExpression (hin l hil hlt)
    · exact hq
  refine ⟨k, ⟨⟨Nat.le_of_lt hik, hi, hlast⟩, hkind, hstart⟩, fun hdata => ?_⟩
  have hopener := hlast k hik (Nat.le_refl k)
  rw [hdata] at hopener
  cases hopener

theorem Piece.isPiece (h : s.Piece i e) : (s.get i).kind.isPiece = true := by
  cases h with
  | data hk => rw [hk]; rfl
  | interpolation hk => rw [hk]; rfl

/-- A piece has been opened by the token at its position; only data begins with it. -/
theorem Piece.begins (h : s.Piece i e) (hs : s.Scanned) :
    ∃ k, s.Begins i k e ∧ ((s.get k).kind = .data ↔ (s.get i).kind = .data) := by
  cases h with
  | data hk =>
    have hopened : s.Opened i i :=
      ⟨Nat.le_refl i, by rw [hk]; rfl, fun l hl hl' => absurd hl (Nat.not_lt.2 hl')⟩
    exact ⟨i, ⟨hopened, by rw [hk]; decide, rfl⟩, Iff.rfl⟩
  | @interpolation _ q hk h hp hq =>
    have hin := h.isInside (opens_succ hk (by decide)) rfl
    obtain ⟨k, hbegins, hdata⟩ := begins_inside hs (by rw [hk]; rfl) hin.2 (by rw [hq]; rfl)
      (by rw [hq]; decide) hp
    exact ⟨k, hbegins, iff_of_false hdata (by rw [hk]; decide)⟩

/-- A piece comes from one position. -/
theorem Piece.unique (h : s.Piece i e) (h' : s.Piece j e) (hs : s.Scanned) : i = j := by
  obtain ⟨k, hbegins, -⟩ := h.begins hs
  obtain ⟨l, hbegins', -⟩ := h'.begins hs
  exact hbegins.unique hbegins' hs

theorem printItems_ends : ∀ {es : List Expr} {first : Bool} {b : Nat},
    Derives s (.printItems first) b es q → (s.get q).kind ∈ printEnds
  | [], _, _, h => by
    cases h with
    | printEnd hk => exact hk
  | _ :: _, _, _, h => by
    cases h with
    | printMore _ _ _ hr => exact printItems_ends hr

/-- What is printed has been opened by the begin of its tag. -/
theorem Prints.begins (h : s.Prints es b q) (he : e ∈ es) (hs : s.Scanned) :
    ∃ i k, s.Begins i k e ∧ (s.get i).kind = .blockBegin ∧ (s.get k).kind ≠ .data := by
  obtain ⟨i, rfl, hbegin⟩ := h.opened
  have hin := h.derives.inside_behind (fun ho _ => ho) rfl h.word rfl (by decide)
  have hend : (s.get q).kind.isOpener = false ∧ (s.get q).kind ≠ .eof := by
    have hmem := printItems_ends h.derives
    generalize (s.get q).kind = k at hmem ⊢
    simp only [printEnds, List.mem_cons, List.not_mem_nil, or_false] at hmem
    rcases hmem with rfl | rfl | rfl <;> exact ⟨rfl, by decide⟩
  have hplaced : e.Placed s (2 * (i + 1)) (2 * q + 1) := (h.row.of_mem he).mono (by omega) (by omega)
  obtain ⟨k, hbegins, hdata⟩ := begins_inside hs (by rw [hbegin]; rfl) hin.2 hend.1 hend.2 hplaced
  exact ⟨i, k, hbegins, hbegin, hdata⟩

theorem Prints.not_piece (h : s.Prints es b q) (he : e ∈ es) (hs : s.Scanned) : ¬s.Piece i e := by
  intro hpiece
  obtain ⟨j, k, hbegins, hk, -⟩ := h.begins he hs
  obtain ⟨l, hbegins', -⟩ := hpiece.begins hs
  have hkind := hpiece.isPiece
  rw [← hbegins.unique hbegins' hs, hk] at hkind
  cases hkind

end Stream
end Stencil
