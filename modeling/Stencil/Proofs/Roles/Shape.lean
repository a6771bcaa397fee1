/-
What is read has the shape of what can be written. `Rule.Shapes` says what shape a rule gives to what it reads,
if what it has been handed has a shape; it holds of every derivation (`Derives.shapes`, `Composes.shapes`).
-/
import Stencil.Proofs.Derivation.Composition
import Stencil.Proofs.Writing.Template

namespace Stencil

open Grammar

/-! ## Lists and parts -/

section

variable {e : Expr} {p : Place}

theorem Expr.allShaped_iff {es : List Expr} : Expr.AllShaped p es ↔ ∀ e ∈ es, e.Shaped p := by
  induction es with
  | nil => exact iff_of_true trivial (List.forall_mem_nil _)
  | cons e es ih => rw [Expr.AllShaped, ih, List.forall_mem_cons]

theorem Expr.allTargets_iff {ts : List Expr} : Expr.AllTargets ts ↔ ∀ t ∈ ts, t.IsTarget := by
  induction ts with
  | nil => exact iff_of_true trivial (List.forall_mem_nil _)
  | cons t ts ih => rw [Expr.AllTargets, ih, List.forall_mem_cons]

theorem Pair.allShaped_iff {ps : List Pair} : Pair.AllShaped ps ↔ ∀ q ∈ ps, q.Shaped := by
  induction ps with
  | nil => exact iff_of_true trivial (List.forall_mem_nil _)
  | cons q ps ih => rw [Pair.AllShaped, ih, List.forall_mem_cons]

theorem Operand.allShaped_iff {os : List Operand} : Operand.AllShaped os ↔ ∀ o ∈ os, o.Shaped := by
  induction os with
  | nil => exact iff_of_true trivial (List.forall_mem_nil _)
  | cons o os ih => rw [Operand.AllShaped, ih, List.forall_mem_cons]

theorem KeywordArg.allShaped_iff {ks : List KeywordArg} : KeywordArg.AllShaped ks ↔ ∀ k ∈ ks, k.Shaped := by
  induction ks with
  | nil => exact iff_of_true trivial (List.forall_mem_nil _)
  | cons k ks ih => rw [KeywordArg.AllShaped, ih, List.forall_mem_cons]

theorem Stmt.allShaped_iff {ss : List Stmt} : Stmt.AllShaped ss ↔ ∀ st ∈ ss, st.Shaped := by
  induction ss with
  | nil => exact iff_of_true trivial (List.forall_mem_nil _)
  | cons st ss ih => rw [Stmt.AllShaped, ih, List.forall_mem_cons]

theorem Expr.OptionShaped.of {o : Option Expr} (h : ∀ e, o = some e → e.Shaped .alone) : Expr.OptionShaped o := by
  cases o with
  | none => trivial
  | some e => exact h e rfl

/-- What may stand alone may stand everywhere. -/
theorem Expr.Shaped.anywhere (h : e.Shaped .alone) : e.Shaped p := by
  cases e with
  | tuple items u s =>
    obtain ⟨hu, hitems | ⟨hp, -⟩⟩ := h
    · exact ⟨hu, .inl hitems⟩
    · cases hp
  | slice => exact absurd rfl h.1
  | _ => exact h

mutual

/-- An expression that stands alone is a target when it is written to. -/
theorem Expr.Shaped.toTarget : ∀ {e t : Expr}, e.Shaped .alone → e.toTarget .store = some t → t.IsTarget
  | .name n u s, t, _, ht => by
    rw [Expr.toTarget] at ht
    by_cases hn : canBind n = true
    · rw [if_pos hn] at ht
      cases ht
      exact ⟨rfl, hn⟩
    · rw [if_neg hn] at ht
      cases ht
  | .tuple items u s, t, h, ht => by
    rw [Expr.toTarget] at ht
    obtain ⟨ts, hts, rfl⟩ := Option.map_eq_some_iff.1 ht
    obtain ⟨-, hitems | ⟨hp, -⟩⟩ := h
    · exact ⟨rfl, Expr.AllShaped.toTargets hitems hts⟩
    · cases hp
  | .subscript o i u s, t, h, ht => by
    rw [Expr.toTarget] at ht
    cases ht
    exact ⟨rfl, h.2⟩

theorem Expr.AllShaped.toTargets : ∀ {es ts : List Expr}, Expr.AllShaped .alone es →
    Expr.toTargets .store es = some ts → Expr.AllTargets ts
  | [], ts, _, hts => by
    rw [Expr.toTargets] at hts
    cases hts
    trivial
  | e :: es, ts, h, hts => by
    rw [Expr.toTargets] at hts
    cases ht : e.toTarget .store with
    | none => rw [ht] at hts; cases hts
    | some t =>
      rw [ht] at hts
      obtain ⟨us, hus, rfl⟩ := Option.map_eq_some_iff.1 hts
      exact ⟨Expr.Shaped.toTarget h.1 ht, Expr.AllShaped.toTargets h.2 hus⟩

end

end

/-! ## Rules -/

/-- An expression made from another one by filters has the same kind of shape. -/
def Expr.Extends (e t : Expr) : Prop := (e.Shaped .alone → t.Shaped .alone) ∧ (e.IsFilters → t.IsFilters)

/-- The shape of what a rule reads, if what it has been handed has a shape; a filter without an input begins the
chain of a filter block. -/
def Rule.Shapes : {p : Phrase} → Rule p → p.Tree → Prop
  | _, .condRest v, (e : Expr) | _, .binaryRest _ v, (e : Expr) | _, .suffixes v, (e : Expr)
  | _, .subscript v, (e : Expr) | _, .call v, (e : Expr) | _, .filter v, (e : Expr) | _, .test v, (e : Expr) =>
    v.Shaped .alone → e.Shaped .alone
  | _, .filterRest v, (e : Expr) | _, .filterChain (some v), (e : Expr) | _, .singleFilter (some v), (e : Expr) =>
    v.Extends e
  | _, .filterChain none, (e : Expr) | _, .singleFilter none, (e : Expr) => e.IsFilters
  | _, .subscriptItem, (e : Expr) => e.Shaped .subscript
  | _, .subscriptItems _, (es : List Expr) => Expr.AllShaped .subscript es
  | _, .argumentsRest _ args, (args' : Arguments) => args.Shaped → args'.Shaped
  | .expr, _, (e : Expr) => e.Shaped .alone
  | .exprs, _, (es : List Expr) => Expr.AllShaped .alone es
  | .pairs, _, (ps : List Pair) => Pair.AllShaped ps
  | .operands, _, (os : List Operand) => Operand.AllShaped os
  | .arguments, _, (args : Arguments) => args.Shaped
  | _, .content _ pending, (ss : List Stmt) => (∀ e ∈ pending, e.Shaped .alone) → Stmt.AllShaped ss
  | _, .assign target, (st : Stmt) => target.Shaped .alone → st.Shaped
  | _, .signatureRest sofar, (sig : Signature) => sofar.Shaped → sig.Shaped
  | .stmt, _, (st : Stmt) => st.Shaped
  | .splice, _, (sp : Splice) => Stmt.AllShaped sp.toList
  | .body, _, (ss : List Stmt) => Stmt.AllShaped ss
  | .branches, _, (bs : Branches) =>
    Stmt.AllShaped bs.elseBody ∧ ∀ b ∈ bs.elifs, b.test.Shaped .alone ∧ Stmt.AllShaped b.body
  | .signature, _, (sig : Signature) => sig.Shaped
  | .names, _, (ns : List ImportName) => ∀ n ∈ ns, n.Shaped
  | .template, _, (t : Template) => Stmt.AllShaped t.body

/-! ## Parts of expressions -/

section

variable {e : Expr}

/-- One of several subscripts may also be the only one. -/
theorem Expr.Shaped.index (h : e.Shaped .subscript) : e.Shaped .index := by
  cases e with
  | tuple items u s =>
    obtain ⟨hu, hitems | ⟨hp, -⟩⟩ := h
    · exact ⟨hu, .inl hitems⟩
    · cases hp
  | slice => exact ⟨nofun, h.2⟩
  | _ => exact h

theorem Token.literal?_shaped {t : Token} (h : t.literal? = some e) : e.Shaped .alone := by
  have hinteger {c : Constant} (hc : Constant.ofInteger? t.value = some c) : c.IsLiteral := by
    cases c with
    | number => exact .inl ⟨_, hc⟩
    | bigint => exact ⟨_, hc⟩
    | _ => trivial
  unfold Token.literal? at h
  split at h
  · cases h
    unfold nameExpr
    split
    · rename_i c hc
      unfold Constant.ofName? at hc
      split at hc
      · cases hc; trivial
      split at hc
      · cases hc; trivial
      split at hc
      · cases hc; trivial
      · cases hc
    · rename_i hn
      exact ⟨rfl, hn⟩
  · obtain ⟨c, hc, rfl⟩ := Option.map_eq_some_iff.1 h
    exact hinteger hc
  · cases h
    exact .inr ⟨_, rfl⟩
  · cases h
    trivial
  · cases h

/-- What stands behind a dot is a literal, or a text. -/
theorem Token.attribute?_shaped {t : Token} (h : t.attribute? = some e) : e.Shaped .alone := by
  unfold Token.attribute? at h
  split at h
  · cases h
    trivial
  · rename_i hk
    refine Token.literal?_shaped (t := t) ?_
    unfold Token.literal?
    rw [hk]
    exact h
  · cases h

theorem withParens_shaped (h : e.Shaped .alone) (span : Span) : (withParens e span).Shaped .alone := by
  cases e <;> exact h

theorem bracketed_shaped {es : List Expr} (h : Expr.AllShaped .subscript es) (opened : Token) (stop : Location) :
    (bracketed opened stop es).Shaped .index := by
  match es, h with
  | [], _ => exact ⟨rfl, .inl trivial⟩
  | [_], h => exact h.1.index
  | _ :: _ :: es, h => exact ⟨rfl, .inr ⟨rfl, Nat.le_add_left 2 es.length, h⟩⟩

theorem testExpr_shaped {args : Arguments} (h : e.Shaped .alone) (hargs : args.Shaped) (negated : Bool)
    (start : Location) (name : Text) (stop : Location) : (testExpr negated start e name args stop).Shaped .alone := by
  cases negated <;> exact ⟨h, hargs⟩

theorem suffixRule?_shapes {k : TokenKind} {r : Rule .expr} (hr : suffixRule? e k = some r) {e' : Expr}
    (h : r.Shapes e') : e.Shaped .alone → e'.Shaped .alone := by
  unfold suffixRule? at hr
  split at hr <;> cases hr <;> exact h

theorem TupleItem.rule_shapes {item : TupleItem} (h : item.rule.Shapes e) : e.Shaped .alone := by
  cases item <;> exact h

theorem Arguments.shaped_empty : Arguments.empty.Shaped := ⟨trivial, trivial, trivial, trivial⟩

theorem Arguments.shaped_one (h : e.Shaped .alone) : (Arguments.mk [e] [] none none).Shaped :=
  ⟨⟨h, trivial⟩, trivial, trivial, trivial⟩

theorem operandRule_shapes {op : BinaryOp} (h : (operandRule op).Shapes e) : e.Shaped .alone := by
  cases op <;> exact h

end

/-! ## Derivations -/

theorem Derives.shapes {s : Stream} {p : Phrase} {r : Rule p} {pos q : Nat} {t : p.Tree} (h : Derives s r pos t q) :
    r.Shapes t := by
  induction h with
  | conditional _ ih => exact ih
  | unconditional _ ih => exact ih
  | cond _ _ ihv ihr => exact ihr ihv
  | condEnd => exact id
  | condMore _ _ _ _ _ iht iho ihr => exact fun hv => ihr ⟨iht, hv, iho⟩
  | binary _ _ ihl ihr => exact ihr (operandRule_shapes ihl)
  | binaryEnd => exact id
  | binaryMore _ _ _ ih ihr => exact fun hl => ihr ⟨hl, operandRule_shapes ih⟩
  | compareOne _ _ ih _ => exact ih
  | compareMany _ _ hos ih ihr => exact ⟨ih, hos, ihr⟩
  | operandEnd => trivial
  | operandMore _ _ _ ih ihr => exact ⟨ih, ihr⟩
  | unaryEnd _ _ ih => exact ih
  | unaryMore _ _ ih => exact ih
  | suffixed _ _ ih ihs => exact ihs ih
  | literal h => exact Token.literal?_shaped h
  | parens _ _ _ ih => exact withParens_shaped ih _
  | bracket _ _ ih => exact ih
  | brace _ _ ih => exact ih
  | tupleNone => exact ⟨rfl, .inl trivial⟩
  | tupleOne _ _ _ ih => exact TupleItem.rule_shapes ih
  | tupleMany _ _ _ _ ih ihr => exact ⟨rfl, .inl ⟨TupleItem.rule_shapes ih, ihr⟩⟩
  | tupleEnd => trivial
  | tupleLast _ _ _ _ ih => exact ⟨TupleItem.rule_shapes ih, trivial⟩
  | tupleMore _ _ _ _ _ ih ihr => exact ⟨TupleItem.rule_shapes ih, ihr⟩
  | list _ _ _ ih => exact ih
  | listEnd => trivial
  | listMore _ _ _ ih ihr => exact ⟨ih, ihr⟩
  | dict _ _ _ ih => exact ih
  | dictEnd => trivial
  | dictMore _ _ _ _ _ ihk ihv ihr => exact ⟨⟨ihk, ihv⟩, ihr⟩
  | printEnd => trivial
  | printMore _ _ _ _ ih ihr => exact ⟨ih, ihr⟩
  | suffixEnd => exact id
  | suffixMore hk _ _ ih ihs => exact fun he => ihs (suffixRule?_shapes hk ih he)
  | dot _ h => exact fun ho => ⟨rfl, ho, (Token.attribute?_shaped h).anywhere⟩
  | index _ _ _ ih => exact fun ho => ⟨rfl, ho, bracketed_shaped ih _ _⟩
  | indexEnd => trivial
  | indexMore _ _ _ _ ih ihr => exact ⟨ih, ihr⟩
  | plain _ _ ih => exact Expr.Shaped.anywhere ih
  | slice _ _ _ _ _ _ _ _ ihstart ihstop ihstep => exact ⟨nofun, .of ihstart, .of ihstop, .of ihstep⟩
  | call _ ih => exact fun hc => ⟨hc, ih⟩
  | arguments _ _ _ ih => exact ih Arguments.shaped_empty
  | argumentEnd => exact id
  | positional _ _ _ ih ihr =>
    rintro ⟨hes, hrest⟩
    refine ihr ⟨Expr.allShaped_iff.2 (List.forall_mem_append.2 ⟨Expr.allShaped_iff.1 hes, ?_⟩), hrest⟩
    exact List.forall_mem_singleton.2 ih
  | keyword _ _ _ _ _ ih ihr =>
    rintro ⟨hes, hks, hrest⟩
    refine ihr ⟨hes, KeywordArg.allShaped_iff.2 (List.forall_mem_append.2 ⟨KeywordArg.allShaped_iff.1 hks, ?_⟩), hrest⟩
    exact List.forall_mem_singleton.2 ih
  | spread _ _ _ _ ih ihr => exact fun ⟨hes, hks, _, ho⟩ => ihr ⟨hes, hks, ih, ho⟩
  | keywordSpread _ _ _ _ ih ihr => exact fun ⟨hes, hks, ho, _⟩ => ihr ⟨hes, hks, ho, ih⟩
  | filterNone => exact id
  | filterSome _ _ ih => exact ih.1
  | @filterChain input _ _ _ _ _ _ _ ih ihr =>
    -- a chain without an input belongs to a filter block, and so do the filters that are added to it
    cases input with
    | none => exact ihr.2 ih
    | some v => exact ⟨ihr.1 ∘ ih.1, ihr.2 ∘ ih.2⟩
  | filterEnd => exact ⟨id, id⟩
  | filterMore _ _ _ ih ihr => exact ⟨ihr.1 ∘ ih.1, ihr.2 ∘ ih.2⟩
  | @singleFilter input pos args q _ _ h' ih =>
    have hargs : args.Shaped := by
      by_cases hopen : (s.get (pos + 1)).kind = .symbol .openParen
      · exact ih hopen
      · obtain ⟨rfl, -⟩ := h' hopen
        exact Arguments.shaped_empty
    cases input with
    | none => exact hargs
    | some v => exact ⟨fun hv => ⟨nofun, hv, hargs⟩, fun hv => ⟨hv, hargs⟩⟩
  | testPlain => exact fun he => testExpr_shaped he Arguments.shaped_empty _ _ _ _
  | testParens _ _ _ _ ih => exact fun he => testExpr_shaped he ih _ _ _ _
  | testArgument _ _ _ _ ih => exact fun he => testExpr_shaped he (Arguments.shaped_one ih) _ _ _ _

/-! ## Statements -/

section

variable {ss ss' : List Stmt} {es : List Expr}

theorem Stmt.AllShaped.append (h : Stmt.AllShaped ss) (h' : Stmt.AllShaped ss') : Stmt.AllShaped (ss ++ ss') :=
  Stmt.allShaped_iff.2 (List.forall_mem_append.2 ⟨Stmt.allShaped_iff.1 h, Stmt.allShaped_iff.1 h'⟩)

theorem output_shaped (h : ∀ e ∈ es, e.Shaped .alone) : Stmt.AllShaped (output es) := by
  cases es with
  | nil => trivial
  | cons e es => exact ⟨h, trivial⟩

theorem Token.pieces_shaped (t : Token) : ∀ e ∈ t.pieces, e.Shaped .alone := by
  unfold pieces
  split
  · exact List.forall_mem_nil _
  · exact List.forall_mem_singleton.2 trivial

/-- Each branch is a conditional in the else body of the one before it. -/
theorem nestBranches_shaped {bs : Branches} (h : Rule.branches.Shapes bs) (stop : Location) :
    Stmt.AllShaped (nestBranches stop bs) := by
  obtain ⟨elifs, elseBody⟩ := bs
  obtain ⟨helse, helifs⟩ := h
  unfold nestBranches
  simp only at helse helifs ⊢
  induction elifs with
  | nil => exact helse
  | cons b bs ih =>
    obtain ⟨⟨htest, hbody⟩, hrest⟩ := List.forall_mem_cons.1 helifs
    exact ⟨⟨htest, hbody, ih hrest⟩, trivial⟩

theorem Stream.Imports.shaped {s : Stream} {pos q : Nat} {n : ImportName} (h : s.Imports pos n q) : n.Shaped := by
  cases h with
  | plain hb hp _ => exact ⟨hb.2, hp, nofun⟩
  | renamed hb hp _ hb' => exact ⟨hb.2, hp, fun _ ha => Option.some.inj ha ▸ hb'.2⟩

theorem Stream.HeadsLoop.shaped {s : Stream} {reads : Reading} {pos q : Nat} {t iter : Expr} {test : Option Expr}
    (hreads : ∀ ⦃p : Phrase⦄ ⦃r : Rule p⦄ ⦃pos t q⦄, reads r pos t q → r.Shapes t)
    (h : s.HeadsLoop reads pos t iter test q) :
    t.IsTarget ∧ iter.Shaped .alone ∧ ∀ e ∈ test, e.Shaped .alone := by
  obtain ⟨_, ht, hs, _, hi, hf, _⟩ := h
  exact ⟨Expr.Shaped.toTarget (hreads ht) hs, hreads hi, fun e he => hreads (hf e he).2⟩

end

/-- What is composed of shaped expressions is shaped. -/
theorem Composes.shapes {s : Stream} {reads : Reading}
    (hreads : ∀ ⦃p : Phrase⦄ ⦃r : Rule p⦄ ⦃pos t q⦄, reads r pos t q → r.Shapes t) {p : Phrase} {r : Rule p}
    {pos q : Nat} {t : p.Tree} (h : Composes s reads r pos t q) : r.Shapes t := by
  induction h with
  | @keyword pos k r st q _ hr _ ih =>
    have hst : st.Shaped := by
      cases k <;> simp only [statementRule?, Option.some.injEq, reduceCtorEq] at hr <;> subst hr <;> exact ih
    exact ⟨hst, trivial⟩
  | simple h => exact ⟨hreads h, trivial⟩
  | assignment h _ ih => exact ⟨ih (hreads h), trivial⟩
  | doStatement _ h => exact ⟨hreads h, trivial⟩
  | breakLoop => exact ⟨trivial, trivial⟩
  | continueLoop => exact ⟨trivial, trivial⟩
  | assign _ ht h => exact fun htarget => ⟨Expr.Shaped.toTarget htarget ht, hreads h⟩
  | statements _ _ _ _ ih => exact ih (List.forall_mem_nil _)
  | data _ _ ih => exact fun hp => ih (List.forall_mem_append.2 ⟨hp, Token.pieces_shaped _⟩)
  | interpolation _ h _ _ ih =>
    exact fun hp => ih (List.forall_mem_append.2 ⟨hp, List.forall_mem_singleton.2 (hreads h)⟩)
  | endTag => exact output_shaped
  | tag _ _ _ _ _ ih ihr => exact fun hp => ((output_shaped hp).append ih).append (ihr (List.forall_mem_nil _))
  | sourceEnd => exact output_shaped
  | template _ ih => exact ih (List.forall_mem_nil _)
  | loop hh _ _ ih =>
    obtain ⟨ht, hi, hf⟩ := hh.shaped hreads
    exact ⟨ht, hi, hf, ih, trivial⟩
  | loopElse hh _ _ _ ih ihe =>
    obtain ⟨ht, hi, hf⟩ := hh.shaped hreads
    exact ⟨ht, hi, hf, ih, ihe⟩
  | conditional _ ht _ _ ih ihr => exact ⟨hreads ht, ih, nestBranches_shaped ihr _⟩
  | elifBranch _ ht _ _ ih ihr => exact ⟨ihr.1, List.forall_mem_cons.2 ⟨⟨hreads ht, ih⟩, ihr.2⟩⟩
  | elseBranch _ _ ih => exact ⟨ih, List.forall_mem_nil _⟩
  | noBranch => exact ⟨trivial, List.forall_mem_nil _⟩
  | block _ _ _ ih => exact ih
  | extend _ h =>
    have he := hreads h
    exact he
  | embed _ h =>
    have he := hreads h
    exact he
  | importAs _ h _ hb => exact ⟨hreads h, hb.2⟩
  | importNames _ h _ _ _ ih => exact ⟨hreads h, ih⟩
  | nameNone => exact List.forall_mem_nil _
  | nameLast _ hn _ => exact List.forall_mem_singleton.2 hn.shaped
  | nameMore _ hn _ _ ih => exact List.forall_mem_cons.2 ⟨hn.shaped, ih⟩
  | print _ h => exact Expr.allShaped_iff.1 (hreads h)
  | signature _ _ _ ih => exact ih ⟨List.forall_mem_nil _, Nat.le_refl 0, List.forall_mem_nil _⟩
  | signatureEnd => exact id
  | required _ hb _ _ ih =>
    intro h
    refine ih ⟨List.forall_mem_append.2 ⟨h.bindable, List.forall_mem_singleton.2 hb.2⟩, Nat.zero_le _, List.forall_mem_nil _⟩
  | optional _ hb _ he _ ih =>
    intro h
    refine ih ⟨List.forall_mem_append.2 ⟨h.bindable, List.forall_mem_singleton.2 hb.2⟩, ?_, ?_⟩
    · have hsuffix := h.suffix
      simp only [List.length_append, List.length_singleton]
      exact Nat.succ_le_succ hsuffix
    · exact List.forall_mem_append.2 ⟨h.defaults, List.forall_mem_singleton.2 (hreads he)⟩
  | define _ hb _ _ ihs ih => exact ⟨hb.2, ihs, ih⟩
  | @callBlock pos sig p callee args span p' body q _ _ hs' he _ ihs ih =>
    have hsig : sig.Shaped := by
      by_cases hopen : (s.get (pos + 1)).kind = .symbol .openParen
      · exact ihs hopen
      · obtain ⟨rfl, -⟩ := hs' hopen
        exact ⟨List.forall_mem_nil _, Nat.le_refl 0, List.forall_mem_nil _⟩
    exact ⟨hsig, hreads he, ⟨callee, args, span, rfl⟩, ih⟩
  | filterBlock _ he _ ih => exact ⟨hreads he, ih⟩

end Stencil
