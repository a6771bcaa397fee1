/-
The integers that runs of digits write. Up to the greatest safe integer rounding changes none, and no greater one is
rounded to a safe one (`isSafeInteger_ofNat`); so the constant of a run of digits is the exact integer, however many
digits there are (`ofInteger?_exact`), and that is what stands in the tree wherever an integer token is read, as an
expression or as the index behind a dot (`integers_exact`).
-/
import Mathlib.Data.Nat.Digits.Defs
import Stencil.Proofs.Leaves.Inside
import Stencil.Proofs.Number.Natural
import Stencil.Proofs.Words.Template

namespace Stencil

/-! ## The integer that digits write -/

namespace Text

/-- The natural number that decimal digits write. -/
def decimal (t : Text) : Nat := Nat.ofDigits 10 (t.reverse.map fun c => c.toNat - 48)

theorem decimal_snoc (t : Text) (c : CodeUnit) : decimal (t ++ [c]) = c.toNat - 48 + 10 * decimal t := by
  rw [decimal, List.reverse_append, List.reverse_singleton, List.singleton_append, List.map_cons, Nat.ofDigits_cons]
  rfl

theorem value_eq_decimal {t : Text} (h : t.all isDigit = true) : value 10 t = decimal t := by
  induction t using List.reverseRecOn with
  | nil => rfl
  | append_singleton t c ih =>
    rw [List.all_append, List.all_cons, List.all_nil, Bool.and_true, Bool.and_eq_true] at h
    have hdigit : digitValue? c = some (c.toNat - 48) := if_pos h.2
    rw [value_snoc, decimal_snoc, ih h.1, hdigit, Option.getD_some, Nat.add_comm, Nat.mul_comm]

end Text

/-! ## Constants of digits -/

namespace Constant

/-- The constant is exactly a natural number: a number where every integer is one of its own, and an integer of any
size beyond. -/
def Exact (n : Nat) : Constant → Prop
  | number x => n ≤ 2 ^ 53 - 1 ∧ x.toInt? = some (n : Int)
  | bigint i => 2 ^ 53 - 1 < n ∧ i = n
  | _ => False

theorem Exact.inj {n m : Nat} {c : Constant} (h : c.Exact n) (h' : c.Exact m) : n = m := by
  cases c with
  | number x => exact Int.ofNat_inj.1 (Option.some.inj (h.2.symm.trans h'.2))
  | bigint i => exact Int.ofNat_inj.1 (h.2.symm.trans h'.2)
  | text t => exact h.elim
  | bool b => exact h.elim
  | none => exact h.elim

variable {t u : Text}

/-- Digits are a numeral without a fraction. -/
theorem exists_numeral (h : TokenKind.integer.Spells t) :
    ∃ n : Numeral, n.WellFormed ∧ n.text = t ∧ n.toDouble = .ofNat t.decimal := by
  obtain ⟨hne, hdigits⟩ := h
  refine ⟨⟨t, [], Option.none⟩, ⟨List.all_eq_true.1 hdigits, List.forall_mem_nil _, hne⟩, ?_, ?_⟩
  · simp only [Numeral.text, Numeral.fractionText, Numeral.exponentText, if_true, List.append_nil]
  · rw [Numeral.toDouble, List.append_nil, Text.value_eq_decimal hdigits, Double.ofDecimal_eq, Double.ofNat_eq]
    simp

theorem read_digits (h : TokenKind.integer.Spells t) : Double.read t = .ofNat t.decimal := by
  obtain ⟨n, hn, htext, hvalue⟩ := exists_numeral h
  rw [← htext, Numeral.read_text hn, hvalue, htext]

theorem integer?_digits (h : TokenKind.integer.Spells t) : t.integer? = some (t.decimal : Int) := by
  obtain ⟨n, hn, htext, -⟩ := exists_numeral h
  have hbased : Text.basedNatural? t = Option.none := htext ▸ Numeral.basedNatural?_text hn
  obtain ⟨hne, hdigits⟩ := h
  obtain ⟨c, u, rfl⟩ := List.exists_cons_of_ne_nil hne
  have hall : (c :: u).all (Text.isDigitOf 10) = true :=
    List.all_eq_true.2 fun d hd => Text.isDigitOf_ten (List.all_eq_true.1 hdigits d hd)
  have hc : Text.isDigit c = true := List.all_eq_true.1 hdigits c List.mem_cons_self
  unfold Text.integer?
  simp only [Text.trim_digits hdigits, hbased, Text.takeSign_digits hc, Text.value?]
  rw [if_neg hne, if_pos ⟨hne, hall⟩, Text.value_eq_decimal hdigits]
  rfl

/-- The constant of digits is exactly the number that they write. -/
theorem ofInteger?_exact (h : TokenKind.integer.Spells t) : ∃ c, ofInteger? t = some c ∧ c.Exact t.decimal := by
  unfold ofInteger?
  simp only [read_digits h, Double.isSafeInteger_ofNat, decide_eq_true_eq, integer?_digits h, Option.map_some]
  by_cases hsafe : t.decimal ≤ 2 ^ 53 - 1
  · rw [if_pos hsafe]
    obtain ⟨-, -, -, -, -, hvalue⟩ := Double.ofNat_canonical (n := t.decimal) (by omega)
    exact ⟨_, rfl, hsafe, hvalue⟩
  · rw [if_neg hsafe]
    exact ⟨_, rfl, not_le.1 hsafe, rfl⟩

/-- Digits have equal constants just if they write the same number. -/
theorem ofInteger?_eq_iff (h : TokenKind.integer.Spells t) (h' : TokenKind.integer.Spells u) :
    ofInteger? t = ofInteger? u ↔ t.decimal = u.decimal := by
  constructor
  · intro heq
    obtain ⟨c, hc, hexact⟩ := ofInteger?_exact h
    obtain ⟨c', hc', hexact'⟩ := ofInteger?_exact h'
    obtain rfl := Option.some.inj (hc.symm.trans (heq.trans hc'))
    exact hexact.inj hexact'
  · intro heq
    unfold ofInteger?
    simp only [read_digits h, read_digits h', integer?_digits h, integer?_digits h', heq]

end Constant

/-! ## Integer tokens -/

section

open Stencil.Parser

variable {s : Stream} {pos : Nat} {c : Constant}

/-- An integer token is an expression by itself. -/
theorem Grammar.atom_integer (g : Grammar) (hk : (s.get pos).kind = .integer)
    (hc : Constant.ofInteger? (s.get pos).value = some c) :
    Grammar.atom g s pos = .ok (.const c (s.get pos).span) (pos + 1) := by
  unfold Grammar.atom
  rw [current_bind]
  simp only [hk]
  rw [advance_bind (by rw [hk]; nofun), Grammar.integer]
  simp only [hc]
  rfl

/-- Behind a dot an integer token is an index. -/
theorem Grammar.subscript_integer (g : Grammar) (object : Expr) (hdot : (s.get pos).kind = .symbol .dot)
    (hk : (s.get (pos + 1)).kind = .integer) (hc : Constant.ofInteger? (s.get (pos + 1)).value = some c) :
    Grammar.subscript g object s pos = .ok (.subscript object (.const c (s.get (pos + 1)).span) .load
      ⟨object.span.start, s.endBefore (pos + 2)⟩) (pos + 2) := by
  have hindex : Grammar.dotIndex s (pos + 1) = .ok (.const c (s.get (pos + 1)).span) (pos + 2) := by
    unfold Grammar.dotIndex
    rw [current_bind]
    simp only [hk, Grammar.integer, hc]
    have hpure : (pure (.const c (s.get (pos + 1)).span) : Parser Expr) s (pos + 1) =
      .ok (.const c (s.get (pos + 1)).span) (pos + 1) := rfl
    exact (bind_ok hpure _).trans (advance_bind (by rw [hk]; nofun) _)
  unfold Grammar.subscript
  rw [advance_bind (by rw [hdot]; nofun)]
  simp only [hdot]
  exact bind_ok hindex _

/-- What an integer token becomes is the constant of its text. -/
theorem Stream.Becomes.integer {l : Leaf} (h : s.Becomes pos l) (hk : (s.get pos).kind = .integer) :
    ∃ c, l = .const c (s.get pos).span ∧ Constant.ofInteger? (s.get pos).value = some c := by
  have hdenotes {c : Constant} (hc : (s.get pos).Denotes c) : Constant.ofInteger? (s.get pos).value = some c := by
    unfold Token.Denotes at hc
    rwa [hk] at hc
  cases h with
  | const _ hc => exact ⟨_, rfl, hdenotes hc⟩
  | index _ _ hc => exact ⟨_, rfl, hdenotes hc⟩
  | name _ hname => rw [hk] at hname; cases hname
  | «attribute» _ hname => rw [hk] at hname; cases hname
  | filter _ hname => rw [hk] at hname; cases hname
  | test _ hname => rw [hk] at hname; cases hname
  | key _ hname => rw [hk] at hname; cases hname

end

namespace Environment

variable {env : Environment} {filename : Option Text} {source : Text}

/-- The tokens of an expression that stands alone are spelled as their kinds want it, the end token apart. -/
theorem expressionTokens_spells {ts : List Token} (h : env.expressionTokens filename source = .ok ts) :
    ∀ t ∈ ts, t.kind ≠ .eof → t.kind.Spells t.value := by
  obtain ⟨inner, e, rfl, hinner, he⟩ := Scan.tokensFrom_continues env.isSound h
  intro t ht hk
  rcases List.mem_append.1 ht with ht | ht
  · exact hinner.spells t.content (List.mem_map_of_mem ht)
  · rw [List.mem_singleton.1 ht] at hk
    exact absurd he hk

/-- The integer tokens of an expression that stands alone are leaves of it. -/
theorem exists_integer_leaf {e : Expr} (h : env.readExpression filename source = .ok e) :
    ∃ s : Stream, env.expressionTokens filename source = .ok s.tokens.toList ∧
      ∀ i, (s.get i).kind = .integer →
        ∃ c, Leaf.const c (s.get i).span ∈ e.leaves ∧ c.Exact (s.get i).value.decimal := by
  obtain ⟨s, n, hts, hcloses, q, he, hend⟩ := readExpression_derives h
  refine ⟨s, hts, fun i hk => ?_⟩
  have hi : i < n := Nat.lt_of_not_le fun hle => by
    rw [(hcloses.2 i).2 hle] at hk
    cases hk
  have hbears : s.Bears 0 q e.leaves := he.bears Stream.opens_zero 0 .nil
  obtain ⟨l, hl, hbecomes⟩ := hbears.exists_leaf (Nat.zero_le i) (hcloses.eq_end he hend ▸ hi) (by rw [hk]; rfl)
  obtain ⟨c, rfl, hc⟩ := hbecomes.integer hk
  have hsize := hcloses.1
  have hmem : s.get i ∈ s.tokens.toList := by
    rw [s.toList_eq_map_get]
    exact List.mem_map_of_mem (List.mem_range'_1.2 ⟨Nat.zero_le i, by omega⟩)
  have hspells : (s.get i).kind.Spells (s.get i).value :=
    expressionTokens_spells hts _ hmem (by rw [hk]; nofun)
  rw [hk] at hspells
  obtain ⟨c', hc', hexact⟩ := Constant.ofInteger?_exact hspells
  obtain rfl := Option.some.inj (hc.symm.trans hc')
  exact ⟨c, hl, hexact⟩

/-- Integer tokens keep their exact values. At every position of every stream of tokens a token of digits is read as
one constant, which is exactly the number that the digits write, be it an expression, which suffixes may follow, or
the index behind a dot; digits have equal constants just if they write the same number; and each integer token of an
expression that stands alone is a leaf of it with its exact value. -/
theorem integers_exact (env : Environment) :
    (∀ (s : Stream) pos, (s.get pos).kind = .integer → TokenKind.integer.Spells (s.get pos).value →
      ∃ c, Constant.ofInteger? (s.get pos).value = some c ∧ c.Exact (s.get pos).value.decimal ∧
        env.grammar (.primary false) s pos = .ok (.const c (s.get pos).span) (pos + 1) ∧
        (∀ g : Grammar, Grammar.primary g true s pos = g (.suffixes (.const c (s.get pos).span)) s (pos + 1)) ∧
        ∀ object p, pos = p + 1 → (s.get p).kind = .symbol .dot →
          env.grammar (.subscript object) s p = .ok (.subscript object (.const c (s.get pos).span) .load
            ⟨object.span.start, s.endBefore (pos + 1)⟩) (pos + 1)) ∧
    (∀ t u, TokenKind.integer.Spells t → TokenKind.integer.Spells u →
      (Constant.ofInteger? t = Constant.ofInteger? u ↔ t.decimal = u.decimal)) ∧
    ∀ filename source e, env.readExpression filename source = .ok e →
      ∃ s : Stream, env.expressionTokens filename source = .ok s.tokens.toList ∧
        ∀ i, (s.get i).kind = .integer →
          ∃ c, Leaf.const c (s.get i).span ∈ e.leaves ∧ c.Exact (s.get i).value.decimal := by
  refine ⟨fun s pos hk hspells => ?_, fun t u => Constant.ofInteger?_eq_iff, fun _ _ _ => exists_integer_leaf⟩
  obtain ⟨c, hc, hexact⟩ := Constant.ofInteger?_exact hspells
  obtain ⟨n, hn⟩ : ∃ n, Grammar.depth s = n + 1 := ⟨64 * (s.tokens.size + 4) - 1, by unfold Grammar.depth; omega⟩
  refine ⟨c, hc, hexact, ?_, fun g => Parser.bind_ok (Grammar.atom_integer g hk hc) _, ?_⟩
  · show Grammar.run _ (Grammar.depth s) (.primary false) s pos = _
    rw [hn]
    exact Parser.bind_ok (Grammar.atom_integer _ hk hc) _
  · rintro object p rfl hdot
    show Grammar.run _ (Grammar.depth s) (.subscript object) s p = _
    rw [hn]
    exact Grammar.subscript_integer _ object hdot hk hc

/-- The first integer that is not safe, with zeros before it, as an index and as an expression. -/
theorem integers_exact_unsafe :
    let source : Text := "a.009007199254740992 + 9007199254740991"
    ∃ e, standard.readExpression none source = .ok e ∧
      e.leaves = [.name "a" ⟨⟨1, 1, 0⟩, ⟨1, 2, 1⟩⟩, .const (.bigint 9007199254740992) ⟨⟨1, 3, 2⟩, ⟨1, 21, 20⟩⟩,
        .const (.number (.ofNat 9007199254740991)) ⟨⟨1, 24, 23⟩, ⟨1, 40, 39⟩⟩] ∧
      ∃ s : Stream, standard.expressionTokens none source = .ok s.tokens.toList ∧
        ∀ i, (s.get i).kind = .integer →
          ∃ c, Leaf.const c (s.get i).span ∈ e.leaves ∧ c.Exact (s.get i).value.decimal := by
  intro source
  have hread := standard.readExpression_of_counted none source (fun
    | .ok e => decide (e.leaves = [.name "a" ⟨⟨1, 1, 0⟩, ⟨1, 2, 1⟩⟩,
        .const (.bigint 9007199254740992) ⟨⟨1, 3, 2⟩, ⟨1, 21, 20⟩⟩,
        .const (.number (.ofNat 9007199254740991)) ⟨⟨1, 24, 23⟩, ⟨1, 40, 39⟩⟩])
    | .error _ => false) (by decide +kernel)
  clear_value source
  cases he : standard.readExpression none source with
  | error e => rw [he] at hread; cases hread
  | ok e =>
    rw [he] at hread
    exact ⟨e, rfl, of_decide_eq_true hread, (integers_exact standard).2.2 none source e he⟩

end Environment
end Stencil
