/-
The shapes of expressions that stand by themselves, and that each of them can be written. A slice stands
only in an index: as the whole of it, or as an item of a tuple of two or more.
-/
import Stencil.Proofs.Writing.Whole

namespace Stencil

/-! ## Shapes -/

/-- A number is one that some digits denote; every other constant has a name or is a text. -/
def Constant.IsLiteral : Constant → Prop
  | .number x => (∃ t, ofInteger? t = some (.number x)) ∨ ∃ t, ofFraction t = .number x
  | .bigint i => ∃ t, ofInteger? t = some (.bigint i)
  | _ => True

/-- Where an expression stands. -/
inductive Place
  | alone
  /-- One of several subscripts between brackets. -/
  | subscript
  /-- All that stands between brackets. -/
  | index
deriving DecidableEq, Repr

mutual

/-- The expression has the shape of one that is read at a place. -/
def Expr.Shaped : Place → Expr → Prop
  | _, .const c _ => c.IsLiteral
  | _, .name n u _ => u = .load ∧ Constant.ofName? n = none
  | p, .tuple items u _ =>
    u = .load ∧ (Expr.AllShaped .alone items ∨ p = .index ∧ 2 ≤ items.length ∧ Expr.AllShaped .subscript items)
  | _, .list items _ => Expr.AllShaped .alone items
  | _, .dict items _ => Pair.AllShaped items
  | _, .binary _ left right _ => left.Shaped .alone ∧ right.Shaped .alone
  | _, .unary _ operand _ => operand.Shaped .alone
  | _, .compare first operands _ => first.Shaped .alone ∧ operands ≠ [] ∧ Operand.AllShaped operands
  | _, .cond test whenTrue whenFalse _ => test.Shaped .alone ∧ whenTrue.Shaped .alone ∧ whenFalse.Shaped .alone
  | _, .subscript object index u _ => u = .load ∧ object.Shaped .alone ∧ index.Shaped .index
  | p, .slice start stop step _ =>
    p ≠ .alone ∧ Expr.OptionShaped start ∧ Expr.OptionShaped stop ∧ Expr.OptionShaped step
  | _, .call callee args _ => callee.Shaped .alone ∧ args.Shaped
  | _, .filter input _ args _ => input ≠ none ∧ Expr.OptionShaped input ∧ args.Shaped
  | _, .test subject _ args _ => subject.Shaped .alone ∧ args.Shaped

def Expr.AllShaped : Place → List Expr → Prop
  | _, [] => True
  | p, e :: es => e.Shaped p ∧ Expr.AllShaped p es

def Expr.OptionShaped : Option Expr → Prop
  | none => True
  | some e => e.Shaped .alone

def Pair.Shaped : Pair → Prop
  | .mk key value _ => key.Shaped .alone ∧ value.Shaped .alone

def Pair.AllShaped : List Pair → Prop
  | [] => True
  | p :: ps => p.Shaped ∧ Pair.AllShaped ps

def Operand.Shaped : Operand → Prop
  | .mk _ e _ => e.Shaped .alone

def Operand.AllShaped : List Operand → Prop
  | [] => True
  | o :: os => o.Shaped ∧ Operand.AllShaped os

def KeywordArg.Shaped : KeywordArg → Prop
  | .mk _ value _ => value.Shaped .alone

def KeywordArg.AllShaped : List KeywordArg → Prop
  | [] => True
  | k :: ks => k.Shaped ∧ KeywordArg.AllShaped ks

def Arguments.Shaped : Arguments → Prop
  | .mk positional keywords spread keywordSpread =>
    Expr.AllShaped .alone positional ∧ KeywordArg.AllShaped keywords ∧ Expr.OptionShaped spread
      ∧ Expr.OptionShaped keywordSpread

end

/-! ## Levels -/

/-- The level of a rank. -/
def Level.ofRank : Nat → Level
  | 14 => cond | 13 => binary .or | 12 => binary .and | 11 => compare | 10 => binary .add
  | 9 => binary .sub | 8 => binary .concat | 7 => binary .mul | 6 => binary .div
  | 5 => binary .floordiv | 4 => binary .mod | 3 => binary .pow | 2 => unary | _ => primary

theorem Level.ofRank_rank (l : Level) : ofRank l.rank = l := by
  cases l with
  | binary op => cases op <;> rfl
  | _ => rfl

theorem Level.rank_tighter (l : Level) : l.rank ≤ primary.rank ∨ l.tighter.rank + 1 = l.rank := by
  cases l with
  | binary op => right; cases op <;> rfl
  | primary => left; exact Nat.le_refl _
  | _ => right; rfl

/-- What is written at a level is written at every looser one, without parentheses. -/
theorem Written.loosen {l m : Level} {e : Expr} {ts : List Token} (h : Written (.at l e) ts)
    (hlm : l.rank ≤ m.rank) : Written (.at m e) ts := by
  induction hn : m.rank - l.rank generalizing m with
  | zero =>
    have heq : m = l := by rw [← m.ofRank_rank, ← l.ofRank_rank, show m.rank = l.rank by omega]
    rw [heq]
    exact h
  | succ n ih =>
    have hl : Level.primary.rank ≤ l.rank := by cases l with
      | binary op => cases op <;> decide
      | _ => decide
    have htighter : m.tighter.rank + 1 = m.rank := m.rank_tighter.resolve_left (by omega)
    exact .tighter (ih (by omega) (by omega))

theorem Level.rank_le_cond (l : Level) : l.rank ≤ cond.rank := by
  cases l with
  | binary op => cases op <;> decide
  | _ => decide

theorem Level.primary_rank_le (l : Level) : primary.rank ≤ l.rank := by
  cases l with
  | binary op => cases op <;> decide
  | _ => decide

/-! ## Every shape can be written -/

/-- Some token of a kind. -/
def Token.of (k : TokenKind) : Token := ⟨k, [], .none⟩

theorem Written.enclose {l : Level} {e : Expr} {ts : List Token} (h : Written (.at l e) ts) :
    ∃ us, Written (.at .primary e) us :=
  ⟨_, .parens (o := .of (.symbol .openParen)) (c := .of (.symbol .closeParen)) rfl rfl
    (h.loosen l.rank_le_cond)⟩

theorem Constant.IsLiteral.denoted {c : Constant} (h : c.IsLiteral) : ∃ t : Token, t.Denotes c := by
  cases c with
  | text t => exact ⟨⟨.string, t, .none⟩, rfl⟩
  | number x =>
    obtain ⟨t, ht⟩ | ⟨t, ht⟩ := h
    · exact ⟨⟨.integer, t, .none⟩, ht⟩
    · exact ⟨⟨.float, t, .none⟩, ht⟩
  | bigint i =>
    obtain ⟨t, ht⟩ := h
    exact ⟨⟨.integer, t, .none⟩, ht⟩
  | bool b =>
    cases b with
    | true => exact ⟨⟨.name, Text.ofString "true", .none⟩, by show ofName? _ = _; decide⟩
    | false => exact ⟨⟨.name, Text.ofString "false", .none⟩, by show ofName? _ = _; decide⟩
  | none => exact ⟨⟨.name, Text.ofString "none", .none⟩, by show ofName? _ = _; decide⟩

theorem Written.exists_items {xs : List Item} (h : ∀ x ∈ xs, ∃ ts, Written (.item x) ts) :
    ∃ ts, Written (.items xs) ts := by
  induction xs with
  | nil => exact ⟨[], .noItem⟩
  | cons x xs ih =>
    obtain ⟨ts, hx⟩ := h x (.head _)
    obtain ⟨us, hxs⟩ := ih fun y hy => h y (.tail _ hy)
    cases xs with
    | nil => exact ⟨ts, .lastItem hx⟩
    | cons y ys => exact ⟨_, .moreItems (m := .of (.symbol .comma)) rfl hx hxs⟩

/-- The expression can be written at a place. -/
def Expr.Writable (e : Expr) : Place → Prop
  | .alone => ∃ ts, Written (.at .primary e) ts
  | .subscript => ∃ ts, Written (.item (.subscript e)) ts
  | .index => ∃ is ts, e.IsIndexOf is ∧ Written (.items (is.map .subscript)) ts

/-- What can be written alone can be written everywhere. -/
theorem Written.writable {l : Level} {e : Expr} {ts : List Token} (h : Written (.at l e) ts) (p : Place) :
    e.Writable p := by
  have hitem : Written (.item (.subscript e)) ts := .index (h.loosen l.rank_le_cond)
  cases p with
  | alone => exact h.enclose
  | subscript => exact ⟨ts, hitem⟩
  | index => exact ⟨[e], ts, .inl rfl, .lastItem hitem⟩

/-- Arguments whose expressions can be written can be written. -/
theorem Written.exists_arguments {args : Arguments}
    (h : ∀ a ∈ args.toList, ∃ ts, Written (.item (.argument a)) ts) : ∃ ts, Written (.arguments args) ts := by
  have hitems : ∀ x ∈ args.toList.map Item.argument, ∃ ts, Written (.item x) ts := by
    intro x hx
    obtain ⟨a, ha, rfl⟩ := List.mem_map.1 hx
    exact h a ha
  obtain ⟨ts, hts⟩ := exists_items hitems
  exact ⟨_, .arguments (o := .of (.symbol .openParen)) (c := .of (.symbol .closeParen)) rfl rfl hts⟩

theorem Written.exists_list {es : List Expr} (h : ∀ e ∈ es, e.Writable .alone) :
    ∃ ts, Written (.items (es.map .expr)) ts := by
  refine exists_items fun x hx => ?_
  obtain ⟨e, he, rfl⟩ := List.mem_map.1 hx
  obtain ⟨ts, hts⟩ := h e he
  exact ⟨ts, .expr (hts.loosen (Level.rank_le_cond _))⟩

/-- A tuple is written in parentheses; one item has a comma behind it. -/
theorem Written.exists_tuple {es : List Expr} (s : Span) (h : ∀ e ∈ es, e.Writable .alone) :
    ∃ ts, Written (.at .primary (.tuple es .load s)) ts := by
  match es with
  | [] => exact ⟨_, .emptyTuple (o := .of (.symbol .openParen)) (c := .of (.symbol .closeParen)) rfl rfl⟩
  | [e] =>
    obtain ⟨ts, hts⟩ := h e (.head _)
    exact ⟨_, .oneTuple (o := .of (.symbol .openParen)) (m := .of (.symbol .comma))
      (c := .of (.symbol .closeParen)) rfl rfl rfl (hts.loosen (Level.rank_le_cond _))⟩
  | e :: f :: fs =>
    obtain ⟨ts, hts⟩ := exists_list h
    exact ⟨_, .tuple (o := .of (.symbol .openParen)) (c := .of (.symbol .closeParen)) rfl rfl
      (Nat.le_add_left ..) hts⟩

/-- An object with an index behind it. -/
theorem Written.exists_subscript {e i : Expr} (s : Span) (he : e.Writable .alone) (hi : i.Writable .index) :
    ∃ ts, Written (.at .primary (.subscript e i .load s)) ts := by
  obtain ⟨ts, hts⟩ := he
  obtain ⟨is, us, hindex, hus⟩ := hi
  rcases hindex with rfl | ⟨hlen, u, rfl⟩
  · cases hus with
    | lastItem hus =>
      exact ⟨_, .subscript (o := .of (.symbol .openBracket)) (c := .of (.symbol .closeBracket)) rfl rfl hts hus⟩
  · exact ⟨_, .subscripts (o := .of (.symbol .openBracket)) (c := .of (.symbol .closeBracket)) rfl rfl hlen hts hus⟩

theorem Written.exists_operand {op : CompareOp} {e : Expr} {os : List Operand} (s : Span)
    (he : e.Writable .alone) (hos : ∃ ts, Written (.operands os) ts) :
    ∃ ts, Written (.operands (.mk op e s :: os)) ts := by
  obtain ⟨ts, hts⟩ := he
  obtain ⟨us, hus⟩ := hos
  have hop : (op.kinds.map Token.of).map (·.kind) = op.kinds := by
    rw [List.map_map]
    exact List.map_id _
  exact ⟨_, .operand hop (hts.loosen (Level.primary_rank_le _)) hus⟩

mutual

theorem Expr.Shaped.writable : ∀ {p : Place} {e : Expr}, e.Shaped p → e.Writable p
  | p, .const c s, h => by
    obtain ⟨t, ht⟩ := Constant.IsLiteral.denoted h
    exact (Written.const ht).writable p
  | p, .name n u s, h => by
    obtain ⟨rfl, hn⟩ := h
    exact (Written.name (t := ⟨.name, n, .none⟩) rfl rfl hn).writable p
  | p, .tuple items u s, h => by
    obtain ⟨rfl, halone | ⟨rfl, hlen, hitems⟩⟩ := h
    · obtain ⟨ts, hts⟩ := Written.exists_tuple s (Expr.AllShaped.writable halone)
      exact hts.writable p
    · have hwritable : ∀ x ∈ items.map Item.subscript, ∃ ts, Written (.item x) ts := by
        intro x hx
        obtain ⟨e, he, rfl⟩ := List.mem_map.1 hx
        exact Expr.AllShaped.writable hitems e he
      obtain ⟨ts, hts⟩ := Written.exists_items hwritable
      exact ⟨items, ts, .inr ⟨hlen, s, rfl⟩, hts⟩
  | p, .list items s, h => by
    obtain ⟨ts, hts⟩ := Written.exists_list (Expr.AllShaped.writable h)
    exact (Written.list (o := .of (.symbol .openBracket)) (c := .of (.symbol .closeBracket)) rfl rfl hts).writable p
  | p, .dict items s, h => by
    have hwritable : ∀ x ∈ items.map Item.pair, ∃ ts, Written (.item x) ts := by
      intro x hx
      obtain ⟨q, hq, rfl⟩ := List.mem_map.1 hx
      exact Pair.AllShaped.writable h q hq
    obtain ⟨ts, hts⟩ := Written.exists_items hwritable
    exact (Written.dict (o := .of (.symbol .openBrace)) (c := .of (.symbol .closeBrace)) rfl rfl hts).writable p
  | p, .binary op left right s, h => by
    obtain ⟨hl, hr⟩ := h
    obtain ⟨ts, hts⟩ := hl.writable
    obtain ⟨us, hus⟩ := hr.writable
    exact (Written.binary (t := .of op.kind) rfl (hts.loosen (Level.primary_rank_le _))
      (hus.loosen (Level.primary_rank_le _))).writable p
  | p, .unary op operand s, h => by
    obtain ⟨ts, hts⟩ := Expr.Shaped.writable (p := .alone) h
    exact (Written.unary (t := .of op.kind) rfl (hts.loosen (Level.primary_rank_le _))).writable p
  | p, .compare first operands s, h => by
    obtain ⟨hfirst, hne, hoperands⟩ := h
    obtain ⟨ts, hts⟩ := hfirst.writable
    obtain ⟨us, hus⟩ := Operand.AllShaped.writable hoperands
    exact (Written.compare hne (hts.loosen (Level.primary_rank_le _)) hus).writable p
  | p, .cond test whenTrue whenFalse s, h => by
    obtain ⟨htest, htrue, hfalse⟩ := h
    obtain ⟨ts, hts⟩ := htrue.writable
    obtain ⟨us, hus⟩ := htest.writable
    obtain ⟨vs, hvs⟩ := hfalse.writable
    exact (Written.cond (i := .of (.keyword .ifTag)) (e := .of (.keyword .elseTag)) rfl rfl
      (hts.loosen (Level.primary_rank_le _)) (hus.loosen (Level.primary_rank_le _))
      (hvs.loosen (Level.primary_rank_le _))).writable p
  | p, .subscript object index u s, h => by
    obtain ⟨rfl, hobject, hindex⟩ := h
    obtain ⟨ts, hts⟩ := Written.exists_subscript s hobject.writable hindex.writable
    exact hts.writable p
  | p, .slice start stop step s, h => by
    obtain ⟨hp, hstart, hstop, hstep⟩ := h
    obtain ⟨ts, hts⟩ := Expr.OptionShaped.writable hstart
    obtain ⟨us, hus⟩ := Expr.OptionShaped.writable hstop
    obtain ⟨vs, hvs⟩ := Expr.OptionShaped.writable hstep
    have hslice := Written.slice (s := s) (c := .of (.symbol .colon)) rfl hts hus
      (.step (c := .of (.symbol .colon)) rfl hvs)
    cases p with
    | alone => exact absurd rfl hp
    | subscript => exact ⟨_, hslice⟩
    | index => exact ⟨[_], _, .inl rfl, .lastItem hslice⟩
  | p, .call callee args s, h => by
    obtain ⟨hcallee, hargs⟩ := h
    obtain ⟨ts, hts⟩ := hcallee.writable
    obtain ⟨us, hus⟩ := hargs.writable
    exact (Written.call hts hus).writable p
  | p, .filter none name args s, h => absurd rfl h.1
  | p, .filter (some input) name args s, h => by
    obtain ⟨-, hinput, hargs⟩ := h
    obtain ⟨ts, hts⟩ := Expr.Shaped.writable (p := .alone) hinput
    obtain ⟨us, hus⟩ := hargs.writable
    exact (Written.filter (p := .of (.symbol .pipe)) (n := ⟨.name, name, .none⟩) rfl rfl rfl hts hus).writable p
  | p, .test subject name args s, h => by
    obtain ⟨hsubject, hargs⟩ := h
    obtain ⟨ts, hts⟩ := hsubject.writable
    obtain ⟨us, hus⟩ := hargs.writable
    exact (Written.test (i := .of (.keyword .isOp)) (n := ⟨.name, name, .none⟩) rfl rfl rfl hts hus).writable p

theorem Expr.AllShaped.writable : ∀ {p : Place} {es : List Expr}, Expr.AllShaped p es → ∀ e ∈ es, e.Writable p
  | _, [], _ => nofun
  | _, e :: es, h => by
    intro e' he'
    have hhead := Expr.Shaped.writable h.1
    rcases List.mem_cons.1 he' with rfl | he'
    · exact hhead
    · exact Expr.AllShaped.writable h.2 e' he'

theorem Expr.OptionShaped.writable : ∀ {o : Option Expr}, Expr.OptionShaped o → ∃ ts, Written (.bound o) ts
  | none, _ => ⟨[], .unbounded⟩
  | some e, h => by
    obtain ⟨ts, hts⟩ := Expr.Shaped.writable (p := .alone) h
    exact ⟨ts, .bound (hts.loosen (Level.rank_le_cond _))⟩

theorem Pair.Shaped.writable : ∀ {q : Pair}, q.Shaped → ∃ ts, Written (.item (.pair q)) ts
  | .mk key value s, h => by
    obtain ⟨hkey, hvalue⟩ := h
    obtain ⟨ts, hts⟩ := hkey.writable
    obtain ⟨us, hus⟩ := hvalue.writable
    exact ⟨_, .pair (c := .of (.symbol .colon)) rfl (hts.loosen (Level.rank_le_cond _))
      (hus.loosen (Level.rank_le_cond _))⟩

theorem Pair.AllShaped.writable : ∀ {qs : List Pair}, Pair.AllShaped qs →
    ∀ q ∈ qs, ∃ ts, Written (.item (.pair q)) ts
  | [], _ => nofun
  | q :: qs, h => by
    intro q' hq'
    have hhead := Pair.Shaped.writable h.1
    rcases List.mem_cons.1 hq' with rfl | hq'
    · exact hhead
    · exact Pair.AllShaped.writable h.2 q' hq'

theorem Operand.AllShaped.writable : ∀ {os : List Operand}, Operand.AllShaped os → ∃ ts, Written (.operands os) ts
  | [], _ => ⟨[], .noOperand⟩
  | .mk op e s :: os, h => by
    obtain ⟨he, hos⟩ := h
    exact Written.exists_operand s (Expr.Shaped.writable (p := .alone) he) (Operand.AllShaped.writable hos)

theorem KeywordArg.AllShaped.writable : ∀ {ks : List KeywordArg}, KeywordArg.AllShaped ks →
    ∀ k ∈ ks, ∃ ts, Written (.item (.argument (.keyword k))) ts
  | [], _ => nofun
  | .mk key value s :: ks, h => by
    intro k hk
    obtain ⟨hvalue, hks⟩ := h
    rcases List.mem_cons.1 hk with rfl | hk
    · obtain ⟨ts, hts⟩ := Expr.Shaped.writable (p := .alone) hvalue
      exact ⟨_, .keyword (n := ⟨.name, key, .none⟩) (a := .of (.symbol .assign)) rfl rfl rfl
        (hts.loosen (Level.rank_le_cond _))⟩
    · exact KeywordArg.AllShaped.writable hks k hk

theorem Arguments.Shaped.writable : ∀ {args : Arguments}, args.Shaped → ∃ ts, Written (.arguments args) ts
  | .mk positional keywords spread keywordSpread, h => by
    obtain ⟨hpositional, hkeywords, hspread, hkeywordSpread⟩ := h
    have hp := Expr.AllShaped.writable hpositional
    have hk := KeywordArg.AllShaped.writable hkeywords
    have hs := Expr.OptionShaped.writable hspread
    have hd := Expr.OptionShaped.writable hkeywordSpread
    refine Written.exists_arguments fun a ha => ?_
    simp only [Arguments.toList, List.mem_append, List.mem_map, Option.mem_toList] at ha
    rcases ha with ((⟨e, he, rfl⟩ | ⟨k, hk', rfl⟩) | ⟨e, rfl, rfl⟩) | ⟨e, rfl, rfl⟩
    · obtain ⟨ts, hts⟩ := hp e he
      exact ⟨ts, .positional (hts.loosen (Level.rank_le_cond _))⟩
    · exact hk k hk'
    · obtain ⟨ts, hts⟩ := hs
      cases hts with
      | bound hts => exact ⟨_, .spread (t := .of (.symbol .star)) rfl hts⟩
    · obtain ⟨ts, hts⟩ := hd
      cases hts with
      | bound hts => exact ⟨_, .keywordSpread (t := .of (.symbol .doubleStar)) rfl hts⟩

end

end Stencil
