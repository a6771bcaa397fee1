/-
Streams of scanned tokens, as far as readings depend on them: the end token stands last and nowhere else
(`Stream.Closes`), and every token before it begins in front of the next one. What is read from a source is read
from such a stream.
-/
import Stencil.Proofs.Derivation.Composition
import Stencil.Proofs.Derivation.Suffix
import Stencil.Proofs.Span.Reading

namespace Stencil

/-- What is read by a rule for expressions is derived from the tokens, and stands where they stand. -/
def Stream.reads (s : Stream) : Reading := fun _ r pos t q =>
  Derives s r pos t q ∧ (r.Given s (2 * pos) pos → r.Result s (2 * pos) pos t q)

/-- The token at the position is the end token, and no other token is. -/
def Stream.Closes (s : Stream) (n : Nat) : Prop :=
  n + 1 = s.tokens.size ∧ ∀ i, (s.get i).kind = .eof ↔ n ≤ i

/-- Only the last token of a layout is an end token. -/
theorem Scan.Layout.dropLast_kind {d : Delimiters} {z : Zone} {l : Location} {text : Text} {ts : List Token}
    (h : Layout d z l text ts) : ∀ t ∈ ts.dropLast, t.kind ≠ .eof := by
  have cons {t : Token} {ts : List Token} (ht : t.kind ≠ .eof) (h : ∀ t ∈ ts.dropLast, t.kind ≠ .eof) :
      ∀ u ∈ (t :: ts).dropLast, u.kind ≠ .eof := by
    cases ts with
    | nil => nofun
    | cons u us =>
      rw [List.dropLast_cons_cons]
      exact List.forall_mem_cons.2 ⟨ht, h⟩
  induction h with
  | finish => nofun
  | @token z z' l w rest t ts hz _ _ _ _ ih =>
    refine cons (fun hk => ?_) ih
    rw [hk] at hz
    rcases z with - | ⟨tag⟩ | -
    · cases hz
    · cases tag <;> cases hz
    · cases hz
  | spacing _ _ _ ih => exact ih
  | comment _ _ _ _ ih => exact ih
  | raw _ _ _ _ _ ih =>
    unfold dataTokens
    split
    · exact ih
    · exact cons nofun ih

section

variable {s : Stream} {d : Delimiters} {z : Scan.Zone} {source : Text}

theorem Scan.Layout.closes (h : Layout d z .origin source s.tokens.toList) : s.Closes (s.tokens.size - 1) := by
  have hsize := s.ne_empty
  have hlast : s.last.kind = .eof := by
    obtain ⟨l, hl, -⟩ := h.getLast?
    have hback : s.tokens[s.tokens.size - 1]? = some (Token.atEnd l) := by
      rw [← hl, Array.getLast?_toList, Array.back?]
    rw [← s.get_last, Stream.get, hback]
    rfl
  refine ⟨by omega, fun i => ⟨fun hi => ?_, fun hi => ?_⟩⟩
  · by_contra hlt
    have hi' : i < s.tokens.toList.dropLast.length := by
      rw [List.length_dropLast, Array.length_toList]
      omega
    refine h.dropLast_kind _ (List.getElem_mem hi') ?_
    rw [List.getElem_dropLast, Array.getElem_toList, ← hi, Stream.get, Array.getElem?_eq_getElem (by omega)]
    rfl
  · rcases Nat.eq_or_lt_of_le hi with rfl | hlt
    · rw [s.get_last, hlast]
    · rw [s.get_of_size_le (by omega), hlast]

end

namespace Environment

variable {env : Environment} {filename : Option Text} {source : Text}

/-- What is read from a source is read from the stream of its tokens, which lay the source out. -/
theorem readTokens_ok {α : Type} {p : Parser α} {scan : Except Diagnostic (List Token)}
    (hscan : Scan.Faithful source filename scan) {a : α} (h : env.readTokens filename p scan = .ok a) :
    ∃ (s : Stream) (d : Delimiters) (z : Scan.Zone), scan = .ok s.tokens.toList ∧
      Scan.Layout d z .origin source s.tokens.toList ∧ ∃ q, p s 0 = .ok a q := by
  cases scan with
  | error e => cases h
  | ok ts =>
    obtain ⟨d, z, hlayout⟩ := hscan.layout ts rfl
    obtain ⟨s, rfl, -, hok, -⟩ := env.readTokens_eq filename p hlayout.ne_nil
    exact ⟨s, d, z, rfl, hlayout, hok a h⟩

/-- The expression that is read from a source is a tuple behind which the source ends. -/
theorem readExpression_reads {e : Expr} (h : env.readExpression filename source = .ok e) :
    ∃ (s : Stream) (n : Nat), env.expressionTokens filename source = .ok s.tokens.toList ∧ s.Closes n ∧
      ∃ q, env.grammar (.tuple (.expression true)) s 0 = .ok e q ∧ (s.get q).kind = .eof := by
  obtain ⟨s, d, z, hts, hlayout, q, hq⟩ := readTokens_ok expressionTokens_faithful h
  refine ⟨s, _, hts, hlayout.closes, ?_⟩
  unfold Grammar.wholeExpression at hq
  obtain ⟨e', p, he, hq⟩ := Parser.bind_eq_ok.1 hq
  by_cases hend : (s.get p).kind = .eof
  · obtain ⟨t, q', -, hpure⟩ := Parser.bind_eq_ok.1 hq
    obtain ⟨rfl, -⟩ := Parser.pure_eq_ok.1 hpure
    exact ⟨p, he, hend⟩
  · have hfail : Parser.expect .eof s p = Parser.unexpected [.eof] none s p := if_neg hend
    obtain ⟨t, q', hexpect, -⟩ := Parser.bind_eq_ok.1 hq
    rw [hfail] at hexpect
    exact (Parser.unexpected_ne_ok.1 hexpect).elim

/-- The expression that is read from a source is derived from all tokens before the end token. -/
theorem readExpression_derives {e : Expr} (h : env.readExpression filename source = .ok e) :
    ∃ (s : Stream) (n : Nat), env.expressionTokens filename source = .ok s.tokens.toList ∧ s.Closes n ∧
      ∃ q, Derives s (.tuple (.expression true)) 0 e q ∧ (s.get q).kind = .eof := by
  obtain ⟨s, n, hts, hcloses, q, he, hend⟩ := readExpression_reads h
  exact ⟨s, n, hts, hcloses, q, Grammar.ofExtensions_sound _ s rfl he, hend⟩

/-- The template that is read from a source is composed of expressions that are derived from its tokens, and that
stand where these stand. -/
theorem readTemplate_composes (hb : env.IsBuiltin) {doc : Document} (h : env.readTemplate filename source = .ok doc) :
    ∃ (s : Stream) (d : Delimiters) (z : Scan.Zone), env.tokens filename source = .ok s.tokens.toList ∧
      Scan.Layout d z .origin source s.tokens.toList ∧ ∃ q, Composes s s.reads .template 0 doc.template q := by
  unfold readTemplate at h
  cases hx : env.readTokens filename (env.grammar .template) (env.tokens filename source) with
  | error e => rw [hx] at h; cases h
  | ok t =>
    rw [hx] at h
    cases h
    obtain ⟨s, d, z, hts, hlayout, q, hq⟩ := readTokens_ok tokens_faithful hx
    refine ⟨s, d, z, hts, hlayout, q, ?_⟩
    have hq : Grammar.run (Extension.find? env.extensions) (Grammar.depth s) .template s 0 = .ok t q := hq
    refine (Grammar.run_keepsTo hb.findsBuiltin (fun n p hp r pos t q h => ⟨?_, fun hg => ?_⟩) _).2 rfl hq
    · exact Grammar.run_sound _ s n hp h
    · exact (Grammar.run_places (hb.placesTags s) n r (Nat.le_refl _) hg).of_ok h

end Environment
end Stencil
