/-
What is read bears its leaves. A rule adds the leaves of what it reads to those that it has been handed
(`Rule.leaves`), one for each name and literal that it reads over, in their order; this holds of every derivation
(`Derives.bears`).
-/
import Stencil.Proofs.Derivation.Suffix
import Stencil.Proofs.Leaves.Basic

namespace Stencil

open Stencil.Grammar Stencil.Stream

/-! ## Rules -/

namespace Rule

/-- The leaves of what a rule has been handed. -/
def leaves : {p : Phrase} → Rule p → List Leaf
  | _, .condRest e | _, .binaryRest _ e | _, .suffixes e | _, .subscript e | _, .call e | _, .filter e
  | _, .filterRest e | _, .test e => e.leaves
  | _, .filterChain input | _, .singleFilter input => Expr.optionLeaves input
  | _, .argumentsRest _ args => args.leaves
  | _, _ => []

/-- What may stand before a rule. A rule that goes on with what it has been handed asks for nothing. -/
def Follows (s : Stream) (pos : Nat) : {p : Phrase} → Rule p → Prop
  | _, .condRest _ | _, .binaryRest _ _ | _, .compareRest | _, .tupleRest _ | _, .suffixes _ | _, .subscript _
  | _, .call _ | _, .arguments | _, .filter _ | _, .filterRest _ | _, .test _ => True
  | _, .listItems first | _, .dictItems first | _, .subscriptItems first | _, .printItems first =>
    first = true → s.Opens pos
  | _, .argumentsRest _ args => noneRead args = true → s.Opens pos
  | _, .filterChain _ | _, .singleFilter _ => s.NamesFilter pos
  | _, _ => s.Opens pos

end Rule

/-! ## Leaves of parts -/

section

variable {s : Stream} {pos p a : Nat} {e : Expr} {ls : List Leaf}

theorem suffixRule?_leaves {k : TokenKind} {r : Rule .expr} (h : suffixRule? e k = some r) (s : Stream) (pos : Nat) :
    r.leaves = e.leaves ∧ r.Follows s pos := by
  unfold suffixRule? at h
  split at h <;> cases h <;> exact ⟨rfl, trivial⟩

theorem withParens_leaves (span : Span) : (withParens e span).leaves = e.leaves := by
  cases e <;> rfl

theorem bracketed_leaves (opened : Token) (stop : Location) (es : List Expr) :
    (bracketed opened stop es).leaves = Expr.allLeaves es := by
  match es with
  | [] => rfl
  | [e] => exact (Expr.allLeaves_one e).symm
  | _ :: _ :: _ => rfl

/-- A part that is not there bears nothing. -/
theorem Stream.Bears.option {o : Option Expr} (h : ∀ e, o = some e → s.Bears pos p e.leaves) (h' : o = none → p = pos) :
    s.Bears pos p (Expr.optionLeaves o) := by
  cases o with
  | none =>
    rw [h' rfl]
    exact .nil
  | some e => exact h e rfl

/-! ## Tokens that are read -/

/-- An item of a list begins where the list does, or behind a comma. -/
theorem Stream.Enters.bears {first : Bool} (hp : s.Enters first pos p) (h : s.Bears a pos ls)
    (ho : first = true → s.Opens pos) : s.Bears a p ls ∧ s.Opens p := by
  cases first with
  | true =>
    cases (show pos = p from hp)
    exact ⟨h, ho rfl⟩
  | false =>
    obtain ⟨hcomma, rfl⟩ := hp
    exact ⟨h.mark hcomma rfl, opens_succ hcomma (by decide)⟩

theorem operatorKind_marks (op : BinaryOp) :
    ((operatorKind op).inExpression && !(operatorKind op).isOperand) = true ∧ operatorKind op ∉ binding := by
  cases op <;> exact ⟨rfl, by decide⟩

theorem Stream.Compares.bears {op : CompareOp} (hc : s.Compares pos op p) (h : s.Bears a pos ls) :
    s.Bears a p ls ∧ s.Opens p := by
  cases hc with
  | one hop =>
    generalize hk : (s.get pos).kind = k at hop
    have hmarks : (k.inExpression && !k.isOperand) = true ∧ k ∉ binding := by
      unfold comparison? at hop
      split at hop <;> first | exact ⟨rfl, by decide⟩ | cases hop
    exact ⟨h.mark hk hmarks.1, opens_succ hk hmarks.2⟩
  | notIn hnot hin => exact ⟨(h.mark hnot rfl).mark hin rfl, opens_succ hin (by decide)⟩

/-- What stands before an operand binds it no closer than an operator does. -/
theorem unaryOp?_bears {op : UnaryOp} (hop : unaryOp? (s.get pos).kind = some op) (ho : s.Opens pos)
    (h : s.Bears a pos ls) : s.Bears a (pos + 1) ls ∧ s.Opens (pos + 1) := by
  generalize hk : (s.get pos).kind = k at hop
  unfold unaryOp? at hop
  split at hop
  · exact ⟨h.mark hk rfl, opens_succ_not hk ho⟩
  · exact ⟨h.mark hk rfl, opens_succ hk (by decide)⟩
  · exact ⟨h.mark hk rfl, opens_succ hk (by decide)⟩
  · cases hop

theorem Stream.Tests.bears {negated : Bool} (ht : s.Tests pos negated p) (h : s.Bears a pos ls) :
    s.Bears a p ls ∧ s.NamesTest p := by
  cases ht with
  | plain hi => exact ⟨h.mark hi rfl, .inl ⟨pos, rfl, hi⟩⟩
  | negated hi hn => exact ⟨(h.mark hi rfl).mark hn rfl, .inr ⟨pos + 1, rfl, hn, pos, rfl, hi⟩⟩

/-- A name or a literal is one leaf. -/
theorem Token.literal?_bears (h : (s.get pos).literal? = some e) (ho : s.Opens pos) :
    s.Bears pos (pos + 1) e.leaves := by
  have hconst {c : Constant} (hk : (s.get pos).kind.isOperand = true) (hc : (s.get pos).Denotes c) :
      s.Bears pos (pos + 1) (Expr.const c (s.get pos).span).leaves := .operand hk (.const ho hc)
  unfold Token.literal? at h
  unfold Token.Denotes at hconst
  generalize hk : (s.get pos).kind = k at h hconst
  split at h
  · cases h
    unfold nameExpr
    split
    · rename_i c hc
      exact hconst rfl hc
    · rename_i hn
      exact .operand (by rw [hk]; rfl) (.name ho hk hn)
  · obtain ⟨c, hc, rfl⟩ := Option.map_eq_some_iff.1 h
    exact hconst rfl hc
  · cases h
    exact hconst rfl rfl
  · cases h
    exact hconst rfl rfl
  · cases h

theorem Token.attribute?_bears (h : (s.get pos).attribute? = some e) (hd : s.Behind pos (.symbol .dot)) :
    s.Bears pos (pos + 1) e.leaves := by
  unfold Token.attribute? at h
  generalize hk : (s.get pos).kind = k at h
  split at h
  · cases h
    exact .operand (by rw [hk]; rfl) (.attribute hd hk)
  · obtain ⟨c, hc, rfl⟩ := Option.map_eq_some_iff.1 h
    have hdenotes : (s.get pos).Denotes c := by
      unfold Token.Denotes
      rw [hk]
      exact hc
    exact .operand (by rw [hk]; rfl) (.index hd hk hdenotes)
  · cases h

/-! ## Expressions that rules put together -/

/-- The name of a test and its arguments behind the subject. -/
theorem testExpr_bears {negated : Bool} {args : Arguments} {q : Nat} (start stop : Location)
    (h : s.Bears a pos e.leaves) (ht : s.Tests pos negated p) (hk : (s.get p).kind = .name)
    (hargs : s.Bears (p + 1) q args.leaves) :
    s.Bears a q (testExpr negated start e (s.get p).value args stop).leaves := by
  have hleaves : (testExpr negated start e (s.get p).value args stop).leaves =
      e.leaves ++ [.test (s.get p).value] ++ args.leaves := by cases negated <;> rfl
  obtain ⟨hsubject, hnames⟩ := ht.bears h
  rw [hleaves]
  exact (hsubject.append (.operand (by rw [hk]; rfl) (.test hnames hk))).append hargs

/-- The segments of a slice, of which the last one may be missing together with its colon. -/
theorem Stream.Bears.slice {q r b : Nat} {start stop step : Option Expr}
    (hstart : s.Bears a p (Expr.optionLeaves start)) (hc : (s.get p).kind = .symbol .colon)
    (hstop : s.Bears (p + 1) q (Expr.optionLeaves stop))
    (hr : r = q ∧ step = none ∨ (s.get q).kind = .symbol .colon ∧ r = q + 1)
    (hstep : ∀ e, step = some e → s.Opens r → s.Bears r b e.leaves) (hstep' : step = none → b = r) :
    s.Bears a b (Expr.optionLeaves start ++ Expr.optionLeaves stop ++ Expr.optionLeaves step) := by
  have hbounds := (hstart.mark hc rfl).append hstop
  rcases hr with ⟨rfl, rfl⟩ | ⟨hcolon, rfl⟩
  · obtain rfl := hstep' rfl
    exact hbounds.append .nil
  · have hopens : s.Opens (q + 1) := opens_succ hcolon (by decide)
    exact (hbounds.mark hcolon rfl).append (.option (fun e he => hstep e he hopens) hstep')

end

/-! ## Derivations -/

/-- Where it may stand, the rule adds the leaves of what it reads to those of what it has been handed. -/
def Adds (s : Stream) {ph : Phrase} (r : Rule ph) (pos : Nat) (t : ph.Tree) (q : Nat) : Prop :=
  r.Follows s pos → ∀ a, s.Bears a pos r.leaves → s.Bears a q (ph.leaves t)

/-- What a rule reads by itself is borne behind anything. -/
theorem Adds.behind {s : Stream} {ph : Phrase} {r : Rule ph} {pos q a : Nat} {t : ph.Tree} {ls : List Leaf}
    (h : Adds s r pos t q) (hr : r.leaves = []) (hf : r.Follows s pos) (ha : s.Bears a pos ls) :
    s.Bears a q (ls ++ ph.leaves t) := ha.append (h hf pos (by rw [hr]; exact .nil))

/-- An item of a tuple stands where any operand may. -/
theorem Adds.item {s : Stream} {item : TupleItem} {pos q a : Nat} {e : Expr} (h : Adds s item.rule pos e q)
    (ho : s.Opens pos) (ha : s.Bears a pos []) : s.Bears a q e.leaves := by
  cases item <;> exact h ho a ha

/-- A rule bears the leaves of what it reads behind those of what it has been handed. -/
theorem Derives.bears {s : Stream} {ph : Phrase} {r : Rule ph} {pos q : Nat} {t : ph.Tree}
    (h : Derives s r pos t q) : Adds s r pos t q := by
  induction h with
  | conditional _ ih | unconditional _ ih | bracket _ _ ih | brace _ _ ih | unaryEnd _ _ ih | plain _ _ ih => exact ih
  | condEnd | binaryEnd | operandEnd | tupleNone | printEnd | suffixEnd | indexEnd | filterNone | filterEnd =>
    exact fun _ _ ha => ha
  | cond _ _ ihv ihr | suffixed _ _ ihv ihr | filterChain _ _ ihv ihr =>
    exact fun hf a ha => ihr trivial a (ihv hf a ha)
  -- operators
  | condMore hi _ he _ _ iht iho ihr =>
    intro _ a ha
    have htest := iht.behind rfl (opens_succ hi (by decide)) (ha.mark hi rfl)
    exact ihr trivial a (iho.behind rfl (opens_succ he (by decide)) (htest.mark he rfl))
  | @binary op _ _ _ _ _ _ _ ihl ihr =>
    intro ho a ha
    exact ihr trivial a (ihl (by cases op <;> exact ho) a (by cases op <;> exact ha))
  | @binaryMore op _ _ _ _ _ _ hk _ _ ih ihr =>
    intro _ a ha
    obtain ⟨hmark, hbinding⟩ := operatorKind_marks op
    have ho := opens_succ hk hbinding
    exact ihr trivial a (ih.behind (by cases op <;> rfl) (by cases op <;> exact ho) (ha.mark hk hmark))
  | compareOne _ _ ih ihr =>
    intro ho a ha
    have hnone := ihr.behind rfl trivial (ih ho a ha)
    rwa [show Phrase.operands.leaves [] = [] from rfl, List.append_nil] at hnone
  | compareMany _ _ _ ih ihr => exact fun ho a ha => ihr.behind rfl trivial (ih ho a ha)
  | operandMore hc _ _ ih ihr =>
    intro _ a ha
    obtain ⟨hop, ho⟩ := hc.bears ha
    exact ihr.behind rfl trivial (ih.behind rfl ho hop)
  | unaryMore hk _ ih =>
    intro ho a ha
    obtain ⟨hop, ho⟩ := unaryOp?_bears hk ho ha
    exact ih ho a hop
  -- primary expressions
  | literal h => exact fun ho a ha => ha.append (Token.literal?_bears h ho)
  | parens hopen _ hclose ih =>
    intro _ a ha
    have hinner := ih (opens_succ hopen (by decide)) a (ha.mark hopen rfl)
    show s.Bears a _ (withParens ..).leaves
    rw [withParens_leaves]
    exact hinner.mark hclose rfl
  | tupleOne _ _ _ ih => exact fun ho _ ha => ih.item ho ha
  | tupleMany _ _ _ _ ih ihr => exact fun ho _ ha => ihr.behind rfl trivial (ih.item ho ha)
  | tupleEnd hc _ => exact fun _ _ ha => ha.mark hc rfl
  | tupleLast hc _ _ _ ih =>
    intro _ a ha
    have hitem := ih.item (opens_succ hc (by decide)) (ha.mark hc rfl)
    show s.Bears a _ (Expr.allLeaves [_])
    rw [Expr.allLeaves_one]
    exact hitem
  | tupleMore hc _ _ _ _ ih ihr =>
    intro _ a ha
    exact ihr.behind rfl trivial (ih.item (opens_succ hc (by decide)) (ha.mark hc rfl))
  -- items between brackets
  | list hopen _ hclose ih | dict hopen _ hclose ih | «arguments» hopen _ hclose ih =>
    intro _ a ha
    exact (ih (fun _ => opens_succ hopen (by decide)) a (ha.mark hopen rfl)).mark hclose rfl
  | listEnd hp _ | dictEnd hp _ => exact fun ho _ ha => hp.elim (fun h => h ▸ ha) fun hp => (hp.bears ha ho).1
  | listMore hp _ _ ih ihr | printMore _ hp _ _ ih ihr | indexMore _ hp _ _ ih ihr =>
    intro ho a ha
    obtain ⟨ha, ho⟩ := hp.bears ha ho
    exact ihr.behind rfl nofun (ih ho a ha)
  | dictMore hp _ hc _ _ ihk ihv ihr =>
    intro ho a ha
    obtain ⟨ha, ho⟩ := hp.bears ha ho
    have hvalue := ihv.behind rfl (opens_succ hc (by decide)) ((ihk ho a ha).mark hc rfl)
    exact ihr.behind rfl nofun hvalue
  -- subscripts
  | @suffixMore _ pos _ _ _ _ _ hk _ _ ih ihs =>
    intro _ a ha
    obtain ⟨hleaves, hfollows⟩ := suffixRule?_leaves hk s pos
    exact ihs trivial a (ih hfollows a (hleaves ▸ ha))
  | dot hk h =>
    intro _ a ha
    exact (ha.mark hk rfl).append (Token.attribute?_bears h (behind_succ.2 hk))
  | @index object _ _ _ ho _ hc ih =>
    intro _ a ha
    have hitems := ih.behind rfl (fun _ => opens_succ ho (by decide)) (ha.mark ho rfl)
    show s.Bears a _ (object.leaves ++ (bracketed ..).leaves)
    rw [bracketed_leaves]
    exact hitems.mark hc rfl
  | slice _ hstart' hc _ hstop' hr _ hstep' ihstart ihstop ihstep =>
    intro ho a ha
    have hcolon := opens_succ hc (by decide)
    exact .slice (ha.append (.option (fun e he => ihstart e he ho _ .nil) hstart')) hc
      (.option (fun e he => ihstop e he hcolon _ .nil) hstop') hr (fun e he ho => ihstep e he ho _ .nil) hstep'
  -- arguments
  | call _ ih => exact fun _ a ha => ih.behind rfl trivial ha
  | argumentEnd hp _ => exact fun _ _ ha => hp.elim (fun h => h ▸ ha) fun hp => (hp.2.bears ha nofun).1
  | @positional opened es pos p e q args r hp _ _ ih ihr =>
    intro ho a ha
    obtain ⟨ha, ho⟩ := hp.bears ha ho
    refine ihr (fun h => by cases es <;> cases h) a ?_
    rw [Rule.leaves, Arguments.leaves_positional]
    exact ih.behind rfl ho ha
  | @keyword opened es ks pos p e q args r hp hk hassign _ _ ih ihr =>
    intro ho a ha
    obtain ⟨ha, ho⟩ := hp.bears ha ho
    refine ihr (fun h => by cases es <;> cases ks <;> cases h) a ?_
    have hkey := (ha.append (.operand (by rw [hk]; rfl) (.key ho hk hassign))).mark hassign rfl
    rw [Rule.leaves, Arguments.leaves_keyword, ← List.singleton_append, ← List.append_assoc]
    exact ih.behind rfl (opens_succ hassign (by decide)) hkey
  | @spread opened es ks pos p e q args r hp hk _ _ ih ihr =>
    intro ho a ha
    obtain ⟨ha, -⟩ := hp.bears ha ho
    refine ihr (fun h => by cases es <;> cases ks <;> cases h) a ?_
    rw [Rule.leaves, Arguments.leaves_spread]
    exact ih.behind rfl (opens_succ hk (by decide)) (ha.mark hk rfl)
  | @keywordSpread opened es ks o pos p e q args r hp hk _ _ ih ihr =>
    intro ho a ha
    obtain ⟨ha, -⟩ := hp.bears ha ho
    refine ihr (fun h => by cases es <;> cases ks <;> cases o <;> cases h) a ?_
    rw [Rule.leaves, Arguments.leaves_keywordSpread]
    exact ih.behind rfl (opens_succ hk (by decide)) (ha.mark hk rfl)
  -- filters and tests
  | filterSome hk _ ih => exact fun _ a ha => ih (.inl (behind_succ.2 hk)) a (ha.mark hk rfl)
  | filterMore hk _ _ ih ihr =>
    intro _ a ha
    exact ihr trivial a (ih (.inl (behind_succ.2 hk)) a (ha.mark hk rfl))
  | @singleFilter _ pos _ _ hk _ h' ih =>
    intro hf a ha
    have hname := ha.append (.operand (by rw [hk]; rfl) (.filter hf hk))
    by_cases hopen : (s.get (pos + 1)).kind = .symbol .openParen
    · exact (ih hopen).behind rfl trivial hname
    · obtain ⟨rfl, rfl⟩ := h' hopen
      exact hname.append .nil
  | testPlain hi hk _ => exact fun _ _ ha => testExpr_bears _ _ ha hi hk .nil
  | testParens hi hk _ _ ih => exact fun _ _ ha => testExpr_bears _ _ ha hi hk (ih trivial _ .nil)
  | testArgument hi hk _ _ ih =>
    intro _ a ha
    refine testExpr_bears _ _ ha hi hk ?_
    rw [← List.nil_append [_], Arguments.leaves_positional]
    exact ih (opens_succ hk (by decide)) _ .nil

end Stencil
