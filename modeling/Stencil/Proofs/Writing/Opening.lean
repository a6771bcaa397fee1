/-
How what is written begins. The first token tells an expression from the end of the list it stands in,
and a name from the key of an argument, which an equals sign follows.
-/
import Stencil.Proofs.Writing.Level

namespace Stencil

namespace TokenKind

/-- An expression may begin with the token. -/
def opensExpr : TokenKind → Bool
  | name | string | integer | float => true
  | symbol x => x == .openParen || x == .openBracket || x == .openBrace || x == .minus || x == .plus
  | keyword k => k == .notOp
  | _ => false

/-- An item may begin with the token: besides expressions slices begin with colons, arguments with
stars. -/
def opensItem (k : TokenKind) : Bool :=
  k.opensExpr || k == .symbol .colon || k == .symbol .star || k == .symbol .doubleStar

end TokenKind

/-- The tokens begin as an expression of the level. -/
def Level.Opens (l : Level) (ts : List Token) : Prop :=
  ∃ t us, ts = t :: us ∧ t.kind.opensExpr = true ∧ (l = .primary → Grammar.unaryOp? t.kind = none) ∧
    (t.kind = .name → ∀ u ∈ us.head?, u.kind ≠ .symbol .assign)

/-- The tokens begin as the form does. -/
def Form.Opens (ts : List Token) : Form → Prop
  | .at l _ => l.Opens ts
  | .operands os => os ≠ [] → ∃ t us, ts = t :: us ∧ t.kind.looseness = 11
  | .arguments _ => ∃ t us, ts = t :: us ∧ t.kind = .symbol .openParen
  | .item _ => ∃ t us, ts = t :: us ∧ t.kind.opensItem = true
  | .bound (some _) => Level.cond.Opens ts
  | _ => True

namespace Level.Opens

variable {l : Level} {t : Token} {ts us : List Token}

/-- What an expression begins with stays, when tokens follow that are no equals sign. -/
theorem append (h : l.Opens ts) (hu : ∀ u ∈ us.head?, u.kind ≠ .symbol .assign) (m : Level)
    (hm : m = .primary → l = .primary) : m.Opens (ts ++ us) := by
  obtain ⟨t, rest, rfl, hopen, hunary, hassign⟩ := h
  refine ⟨t, rest ++ us, rfl, hopen, fun h => hunary (hm h), fun hname u hmem => ?_⟩
  cases rest with
  | nil => exact hu u hmem
  | cons v rest => exact hassign hname u hmem

/-- An expression in brackets begins with a bracket. -/
theorem bracket {x : Symbol} (ht : t.kind = .symbol x) (hx : (TokenKind.symbol x).opensExpr = true)
    (hu : Grammar.unaryOp? (.symbol x) = none) (us : List Token) : l.Opens (t :: us) := by
  refine ⟨t, us, rfl, ?_, fun _ => ?_, fun hname => ?_⟩
  · rw [ht]; exact hx
  · rw [ht]; exact hu
  · rw [ht] at hname; cases hname

theorem opensItem (h : l.Opens ts) : ∃ t us, ts = t :: us ∧ t.kind.opensItem = true := by
  obtain ⟨t, us, rfl, hopen, -⟩ := h
  refine ⟨t, us, rfl, ?_⟩
  rw [TokenKind.opensItem, hopen]
  rfl

end Level.Opens

theorem Token.Denotes.opens {t : Token} {c : Constant} (h : t.Denotes c) :
    t.kind.opensExpr = true ∧ Grammar.unaryOp? t.kind = none := by
  unfold Denotes at h
  split at h <;> rename_i hk <;> first | exact h.elim | (rw [hk]; exact ⟨rfl, rfl⟩)

theorem CompareOp.looseness_of_kinds {op : CompareOp} {ts : List Token} (h : ts.map (·.kind) = op.kinds) :
    ∃ t us, ts = t :: us ∧ t.kind.looseness = 11 := by
  cases ts with
  | nil => cases op <;> cases h
  | cons t us =>
    refine ⟨t, us, rfl, ?_⟩
    have hk := congrArg List.head? h
    rw [List.map_cons, List.head?_cons] at hk
    cases op <;> rw [Option.some.inj hk] <;> rfl

/-- What is written begins as its form does. -/
theorem Written.opens {f : Form} {ts : List Token} (h : Written f ts) : f.Opens ts := by
  have isNotAssign {t : Token} {k : TokenKind} (ht : t.kind = k) (hk : k ≠ .symbol .assign) (us : List Token) :
      ∀ u ∈ (t :: us).head?, u.kind ≠ .symbol .assign := by
    rintro u hu
    rw [List.head?_cons, Option.mem_some] at hu
    rw [← hu, ht]
    exact hk
  induction h with
  | @tighter l e ts h ih =>
    obtain ⟨t, us, hts, hopen, hunary, hassign⟩ := ih
    refine ⟨t, us, hts, hopen, fun hl => hunary ?_, hassign⟩
    rw [hl]
    rfl
  | parens ho hc h ih => exact .bracket ho rfl rfl _
  | cond hi he ha ht hb iha iht ihb =>
    rw [List.append_assoc]
    exact iha.append (isNotAssign hi nofun _) .cond nofun
  | @binary op _ _ _ _ _ _ ht hl hr ihl ihr =>
    exact ihl.append (isNotAssign ht (by cases op <;> nofun) _) (.binary op) nofun
  | compare hos hf ho ihf iho =>
    obtain ⟨t, us, rfl, ht⟩ := iho hos
    refine ihf.append (isNotAssign rfl (fun hk => ?_) _) .compare nofun
    rw [hk] at ht
    cases ht
  | @unary op e ts t s ht h ih =>
    refine ⟨t, ts, rfl, ?_, nofun, fun hname => ?_⟩
    · rw [ht]; cases op <;> rfl
    · rw [ht] at hname; cases op <;> cases hname
  | noOperand => exact fun h => absurd rfl h
  | @operand op e os opTokens ts us s ht h ho ih iho =>
    obtain ⟨t, vs, rfl, hloose⟩ := CompareOp.looseness_of_kinds ht
    exact fun _ => ⟨t, vs ++ ts ++ us, by simp only [List.cons_append], hloose⟩
  | name ht hv hn => exact ⟨_, [], rfl, by rw [ht]; rfl, fun _ => by rw [ht]; rfl, fun _ => nofun⟩
  | const h => exact ⟨_, [], rfl, h.opens.1, fun _ => h.opens.2, fun _ => nofun⟩
  | emptyTuple ho hc => exact .bracket ho rfl rfl _
  | oneTuple ho hm hc h ih => exact .bracket ho rfl rfl _
  | tuple ho hc hes h ih => exact .bracket ho rfl rfl _
  | list ho hc h ih => exact .bracket ho rfl rfl _
  | dict ho hc h ih => exact .bracket ho rfl rfl _
  | subscript ho hc he hi ih _ =>
    rw [List.append_assoc]
    exact ih.append (isNotAssign ho nofun _) .primary fun _ => rfl
  | subscripts ho hc his he hi ih _ =>
    rw [List.append_assoc]
    exact ih.append (isNotAssign ho nofun _) .primary fun _ => rfl
  | call he ha ih iha =>
    obtain ⟨t, us, rfl, ht⟩ := iha
    exact ih.append (isNotAssign ht nofun _) .primary fun _ => rfl
  | filter hp hn hv he ha ih _ => exact ih.append (isNotAssign hp nofun _) .primary fun _ => rfl
  | test hi hn hv he ha ih _ => exact ih.append (isNotAssign hi nofun _) .primary fun _ => rfl
  | arguments ho hc h ih => exact ⟨_, _, rfl, ho⟩
  | bound h ih => exact ih
  | @slice start _ _ _ _ _ _ _ hc ha hb hs iha _ _ =>
    rw [List.append_assoc]
    cases start with
    | none => cases ha; exact ⟨_, _, rfl, by rw [hc]; rfl⟩
    | some e => exact (iha.append (isNotAssign hc nofun _) .cond nofun).opensItem
  | expr h ih => exact ih.opensItem
  | index h ih => exact ih.opensItem
  | pair hc hk hv ihk _ => exact (ihk.append (isNotAssign hc nofun _) .cond nofun).opensItem
  | positional h ih => exact ih.opensItem
  | keyword hn hv ha h ih => exact ⟨_, _, rfl, by rw [hn]; rfl⟩
  | spread ht h ih => exact ⟨_, _, rfl, by rw [ht]; rfl⟩
  | keywordSpread ht h ih => exact ⟨_, _, rfl, by rw [ht]; rfl⟩
  | unbounded | noStep | step | noItem | lastItem | moreItems => trivial

end Stencil
