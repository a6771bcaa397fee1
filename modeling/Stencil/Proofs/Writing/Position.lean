/-
Reading from a known place. The lemmas say what looking, moving and expecting come to before the reader
that follows, by the kind of the current token; `Stream.At` says which tokens a stream holds from a
position on.
-/
import Stencil.Proofs.Progress.Run

namespace Stencil

namespace Stream

/-- From the position on the stream holds these tokens and no others. -/
def At (s : Stream) (pos : Nat) (ts : List Token) : Prop := s.tokens.toList.drop pos = ts

variable {s : Stream} {pos : Nat} {t : Token} {ts us : List Token}

theorem At.get (h : s.At pos (t :: ts)) : s.get pos = t := by
  have hget : s.tokens[pos]? = some t := by
    rw [← Array.getElem?_toList, ← Nat.add_zero pos, ← List.getElem?_drop, h]
    rfl
  rw [Stream.get, hget]
  rfl

theorem At.kind (h : s.At pos (t :: ts)) : (s.get pos).kind = t.kind := by rw [h.get]

theorem At.append (h : s.At pos (ts ++ us)) : s.At (pos + ts.length) us := by
  unfold At at h ⊢
  rw [← List.drop_drop, h, List.drop_left]

theorem At.next (h : s.At pos (t :: ts)) : s.At (pos + 1) ts := @At.append s pos [t] ts h

theorem ahead_one : s.ahead pos 1 = s.get (pos + 1) := by
  unfold ahead
  rw [if_neg (by omega)]
  rfl

/-- Tokens between an opening and a closing one. -/
theorem At.between {o c : Token} (h : s.At pos (o :: ts ++ [c] ++ us)) :
    (s.get pos).kind = o.kind ∧ s.At (pos + 1) (ts ++ c :: us) ∧
      (s.get (pos + 1 + ts.length)).kind = c.kind ∧ s.At (pos + 1 + ts.length + 1) us ∧
      pos + (o :: ts ++ [c]).length = pos + 1 + ts.length + 1 := by
  simp only [List.cons_append, List.append_assoc, List.nil_append] at h
  refine ⟨h.kind, h.next, h.next.append.kind, h.next.append.next, ?_⟩
  simp only [List.length_append, List.length_cons, List.length_nil]
  omega

end Stream

namespace Parser

variable {α β : Type} {s : Stream} {pos : Nat} {k : TokenKind} {ks : List TokenKind}

theorem bind_ok {x : Parser α} {a : α} {q : Nat} (h : x s pos = .ok a q) (f : α → Parser β) :
    (x >>= f) s pos = f a s q := by
  show Parser.bind x f s pos = _
  unfold Parser.bind
  rw [h]

theorem current_bind (f : Token → Parser β) : (current >>= f) s pos = f (s.get pos) s pos := rfl

theorem peek_bind (offset : Int) (f : Token → Parser β) :
    (peek offset >>= f) s pos = f (s.ahead pos offset) s pos := rfl

theorem previousEnd_bind (f : Location → Parser β) :
    (previousEnd >>= f) s pos = f (s.endBefore pos) s pos := rfl

theorem advance_eq_ok (hk : (s.get pos).kind ≠ .eof) : advance s pos = .ok (s.get pos) (pos + 1) := by
  rw [advance]
  simp only [if_neg hk]

theorem advance_bind (hk : (s.get pos).kind ≠ .eof) (f : Token → Parser β) :
    (advance >>= f) s pos = f (s.get pos) s (pos + 1) := bind_ok (advance_eq_ok hk) f

theorem skip_two_bind (hk : (s.get pos).kind ≠ .eof) (hk' : (s.get (pos + 1)).kind ≠ .eof)
    (f : Token → Parser β) : (skip 2 >>= f) s pos = f (s.get (pos + 1)) s (pos + 2) := by
  refine bind_ok ?_ f
  show (advance >>= fun _ => advance) s pos = _
  rw [advance_bind hk]
  exact advance_eq_ok hk'

theorem expect_bind (hk : (s.get pos).kind = k) (hne : k ≠ .eof) (f : Token → Parser β) :
    (expect k >>= f) s pos = f (s.get pos) s (pos + 1) := by
  refine bind_ok ?_ f
  rw [expect, if_pos hk]
  exact advance_eq_ok (by rw [hk]; exact hne)

theorem check_bind (f : Bool → Parser β) :
    (check ks >>= f) s pos = f (ks.contains (s.get pos).kind) s pos := rfl

/-- The current token is one of the kinds. -/
theorem check_yes (hk : (s.get pos).kind ∈ ks) (x y : Parser β) :
    (check ks >>= fun b => if b = true then x else y) s pos = x s pos := by
  rw [check_bind, if_pos (List.contains_iff_mem.2 hk)]

/-- The current token is none of the kinds. -/
theorem check_no (hk : (s.get pos).kind ∉ ks) (x y : Parser β) :
    (check ks >>= fun b => if b = true then x else y) s pos = y s pos := by
  rw [check_bind, if_neg fun hc => hk (List.contains_iff_mem.1 hc)]

end Parser

/-- The grammar reads every rule of a stream in one step; the rules for statements only if `statements`
says so. -/
def Grammar.Solves (g : Grammar) (find : Text → Option Extension) (s : Stream) (statements : Prop) : Prop :=
  ∀ ⦃p : Phrase⦄ (r : Rule p) (pos : Nat), (r.isStatement = true → statements) →
    g r s pos = step find g r s pos

end Stencil
