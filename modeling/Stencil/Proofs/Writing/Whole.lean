/-
What is written is read: the lemmas for the ways to write a form, put together by induction on what is
written.
-/
import Stencil.Proofs.Writing.Parts

namespace Stencil

open Stencil.Parser

variable {g : Grammar} {find : Text → Option Extension} {s : Stream} {statements : Prop}
variable {f : Form} {ts : List Token}

theorem Written.read (hg : g.Solves find s statements) (h : Written f ts) : f.Read g s ts := by
  induction h with
  | tighter h ih => exact ih.tighter hg h.opens
  | parens ho hc h ih => exact .parens hg ho hc h.opens ih
  | cond hi he ha ht hb iha iht ihb => exact .cond hg hi he iha iht ihb
  | binary ht hl hr ihl ihr => exact .binary hg ht ihl ihr
  | compare hos hf ho ihf iho => exact .compare hg hos ihf ho iho
  | unary ht h ih => exact .unary hg ht ih
  | noOperand =>
    intro pos t rest hat ht
    exact ⟨[], rfl, hg.compareRest_eq_nil (by rw [hat.kind]; exact ht)⟩
  | operand ht h ho ih iho => exact .operand hg ht ih ho iho
  | name ht hv hn => exact .name hg ht hv hn
  | const h => exact .const hg h
  | emptyTuple ho hc => exact .emptyTuple hg ho hc
  | oneTuple ho hm hc h ih => exact .oneTuple hg ho hm hc h.opens ih
  | tuple ho hc hes h ih => exact .tuple hg ho hc hes ih
  | list ho hc h ih => exact .list hg ho hc ih
  | dict ho hc h ih => exact .dict hg ho hc ih
  | subscript ho hc he hi ih ihi => exact .subscriptList hg ho hc (.inl rfl) ih (.lastItem hi.opens ihi)
  | subscripts ho hc his he hi ih ihi => exact .subscriptList hg ho hc (.inr ⟨his, _, rfl⟩) ih ihi
  | call he ha ih iha => exact .call hg ha.opens ih iha
  | filter hp hn hv he ha ih iha => exact .filter hg hp hn hv ha.opens ih iha
  | test hi hn hv he ha ih iha => exact .test hg hi hn hv ha.opens ih iha
  | arguments ho hc h ih => exact .arguments hg ho hc ih
  | unbounded => rfl
  | bound h ih => exact fun pos t rest hat ht => ih.closed hg hat ht
  | noStep =>
    intro pos t rest hat ht
    refine ⟨none, rfl, check_no ?_ _ _⟩
    rw [Stream.At.kind hat, List.mem_singleton]
    intro hk
    rw [hk] at ht
    exact absurd ht (by decide)
  | step hc h ih => exact .step hg hc h.opens ih
  | slice hc ha hb hs iha ihb ihs => exact .slice hg hc ha.opens hb.opens iha ihb hs ihs
  | expr h ih => exact .expr hg ih
  | pair hc hk hv ihk ihv => exact .pair hg hc ihk ihv
  | index h ih => exact .index hg h.opens ih
  | positional h ih => exact .positional hg h.opens ih
  | keyword hn hv ha h ih => exact .keyword hg hn hv ha ih
  | spread ht h ih => exact .spread hg ht ih
  | keywordSpread ht h ih => exact .keywordSpread hg ht ih
  | noItem => exact .noItem
  | lastItem h ih => exact .lastItem h.opens ih
  | moreItems hm hx h ihx ih => exact .moreItems hm hx.opens ihx ih

/-! ## Expressions that stand alone -/

namespace Stream

/-- The stream holds the tokens and its end, nothing else. -/
def Holds (s : Stream) (ts : List Token) : Prop := ∃ t, t.kind = .eof ∧ s.tokens.toList = ts ++ [t]

theorem Holds.at (h : s.Holds ts) : ∃ t, t.kind = .eof ∧ s.At 0 (ts ++ [t]) := h

theorem Holds.get_length (h : s.Holds ts) : (s.get ts.length).kind = .eof := by
  obtain ⟨t, ht, hat⟩ := h.at
  have hend := hat.append.kind
  rwa [Nat.zero_add, ht] at hend

theorem Holds.last (h : s.Holds ts) : s.last.kind = .eof := by
  have hsize : s.tokens.size - 1 = ts.length := by
    obtain ⟨t, -, htokens⟩ := h
    rw [← Array.length_toList, htokens, List.length_append, List.length_singleton, Nat.add_sub_cancel]
  rw [← s.get_last, hsize, h.get_length]

end Stream

/-- The grammar of a language reads its rules in one step; those for statements if the extensions are
orderly. -/
theorem Grammar.ofExtensions_solves (hlast : s.last.kind = .eof) :
    (Grammar.ofExtensions find).Solves find s (Grammar.OrderlyTags find) :=
  fun _ r pos hx => Grammar.ofExtensions_eq_step hlast r pos hx

/-- The end is expected where it stands, and it is not read over. -/
theorem Parser.expect_end {α : Type} {pos : Nat} (hk : (s.get pos).kind = .eof) (f : Token → Parser α) :
    (expect .eof >>= f) s pos = f (s.get pos) s pos := by
  refine bind_ok ?_ f
  rw [expect, if_pos hk, advance]
  simp only [if_pos hk]

/-- Tokens that write an expression are read as it, up to spans, and to the last one. -/
theorem Written.expression (hg : g.Solves find s statements) {e : Expr} (hw : Written (.at .cond e) ts)
    (h : s.Holds ts) : ∃ e', e'.bare = e.bare ∧ g (.expression true) s 0 = .ok e' ts.length ∧
      g.wholeExpression s 0 = .ok e' ts.length := by
  obtain ⟨t, ht, hat⟩ := h.at
  obtain ⟨e', he', hread⟩ := (hw.read hg).closed hg hat (by rw [ht]; decide)
  rw [Nat.zero_add] at hread
  have hend := h.get_length
  have htuple := hg.tuple_of_expr (hw.opens.get hat) hread (by rw [hend]; nofun)
  refine ⟨e', he', (hg.expression_true 0).trans hread, ?_⟩
  unfold Grammar.wholeExpression
  rw [bind_ok htuple]
  exact expect_end hend _

end Stencil
