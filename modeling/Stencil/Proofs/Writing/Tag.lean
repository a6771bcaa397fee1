/-
The parts of tags, read from the tokens that write them: expressions in parentheses, lists of them,
imported names, parameters and filters.
-/
import Stencil.Proofs.Writing.Shape
import Stencil.Proofs.Writing.Statement

namespace Stencil

open Stencil.Parser

variable {g : Grammar} {find : Text → Option Extension} {s : Stream} {statements : Prop}
variable {ts us : List Token} {t : Token} {rest : List Token} {e : Expr} {pos start stop : Nat}

/-! ## Expressions in parentheses -/

/-- The level of the items of a tuple. -/
def TupleItem.level : TupleItem → Level
  | .primary => .primary
  | .expression true => .cond
  | .expression false => .binary .or

theorem Grammar.Solves.tupleItem_eq (hg : g.Solves find s statements) (item : TupleItem) :
    Grammar.tupleItem g item s pos = g item.level.rule s pos := by
  match item with
  | .primary => rfl
  | .expression true => exact hg (.expression true) pos nofun
  | .expression false => exact hg (.expression false) pos nofun

namespace Enclosed

theorem opens (h : Enclosed e ts) (hat : s.At pos (ts ++ us)) : (s.get pos).kind = .symbol .openParen := by
  obtain ⟨-, o, vs, rfl, ho⟩ := h
  exact hat.kind.trans ho

theorem level (hg : g.Solves find s statements) (h : Enclosed e ts) (l : Level)
    (hat : s.At pos (ts ++ t :: rest)) (ht : l.rank < t.kind.looseness) :
    g.Yields s l.rule pos (pos + ts.length) e :=
  ((h.1.loosen l.primary_rank_le).read hg).closed hg hat ht

theorem expression (hg : g.Solves find s statements) (h : Enclosed e ts) (hat : s.At pos (ts ++ t :: rest))
    (ht : 14 < t.kind.looseness) : g.Yields s (.expression true) pos (pos + ts.length) e := by
  obtain ⟨e', he', hread⟩ := h.level hg .cond hat ht
  exact ⟨e', he', (hg.expression_true pos).trans hread⟩

theorem tuple (hg : g.Solves find s statements) (h : Enclosed e ts) (item : TupleItem)
    (hat : s.At pos (ts ++ t :: rest)) (ht : item.level.rank < t.kind.looseness)
    (hcomma : t.kind ≠ .symbol .comma) : g.Yields s (.tuple item) pos (pos + ts.length) e := by
  obtain ⟨e', he', hread⟩ := h.level hg item.level hat ht
  have hopen : (s.get pos).kind.opensItem = true := by
    rw [h.opens hat]
    rfl
  refine ⟨e', he', hg.tuple_of_item hopen ((hg.tupleItem_eq item).trans hread) ?_⟩
  rwa [hat.append.kind]

end Enclosed

/-! ## Printed expressions -/

theorem Separated.items {es : List Expr} (h : Separated Enclosed es ts) : Written (.items (es.map .expr)) ts := by
  induction h with
  | nil => exact .noItem
  | last h => exact .lastItem (.expr (h.1.loosen (Level.rank_le_cond _)))
  | more hm hx h ih => exact .moreItems hm (.expr (hx.1.loosen (Level.rank_le_cond _))) ih

theorem Items.Read.printItems (hg : g.Solves find s statements) {es : List Expr}
    (h : Items.Read g s (es.map .expr) pos stop) (hstop : (s.get stop).kind = .blockEnd) :
    ∃ es', es'.map Expr.bare = es.map Expr.bare ∧ g (.printItems true) s pos = .ok es' stop := by
  refine collect (fun first => g (.printItems first)) (fun first => ?_) ?_ h
  · rw [hg (.printItems first) stop nofun]
    exact check_yes (by rw [hstop]; decide) _ _
  · rintro first start pos m e es henter hopen ⟨e', he', hread⟩ hloop
    refine ⟨e', he', ?_⟩
    rw [hg (.printItems first) start nofun]
    show Grammar.printItems g first s start = _
    unfold Grammar.printItems
    extract_lets rest
    refine (check_no (henter.not_mem hopen rfl (by decide)) _ _).trans ?_
    refine (henter.comma (rest ())).trans ?_
    show (g (.expression true) >>= _) s pos = _
    rw [bind_ok ((hg.expression_true pos).trans hread), bind_ok hloop]
    rfl

theorem Separated.printItems (hg : g.Solves find s statements) {es : List Expr} (h : Separated Enclosed es ts)
    (hat : s.At pos (ts ++ t :: rest)) (ht : t.kind = .blockEnd) :
    ∃ es', es'.map Expr.bare = es.map Expr.bare ∧ g (.printItems true) s pos = .ok es' (pos + ts.length) := by
  have hends : ∀ x ∈ es.map Item.expr, x.EndsBefore t.kind := by
    intro x hx
    obtain ⟨e, -, rfl⟩ := List.mem_map.1 hx
    rw [ht]
    rfl
  exact (h.items.read hg pos t rest hat hends).printItems hg (hat.append.kind.trans ht)

/-! ## Imported names -/

theorem Grammar.checkName_bind {α : Type} (name : Text) (f : Bool → Parser α) :
    (checkName name >>= f) s pos = f ((s.get pos).kind == .name && (s.get pos).value == name) s pos := rfl

/-- A name that can be bound. -/
theorem Grammar.bindable_bind {α : Type} (hk : (s.get pos).kind = .name) (hb : canBind (s.get pos).value = true)
    (f : Token → Parser α) : (bindable >>= f) s pos = f (s.get pos) s (pos + 1) := by
  refine bind_ok ?_ f
  unfold bindable
  rw [expect_bind hk nofun, if_pos hb]
  rfl

theorem Grammar.localName?_eq_none (hk : (s.get pos).kind ≠ .name) : localName? s pos = .ok none pos := by
  unfold localName?
  rw [checkName_bind, if_neg (by simp [hk])]
  rfl

theorem Grammar.localName?_eq_some (hk : (s.get pos).kind = .name)
    (hv : (s.get pos).value = Text.ofString "as") (hk' : (s.get (pos + 1)).kind = .name)
    (hb : canBind (s.get (pos + 1)).value = true) :
    localName? s pos = .ok (some (s.get (pos + 1)).value) (pos + 2) := by
  have has : ((s.get pos).kind == .name && (s.get pos).value == Text.ofString "as") = true := by
    rw [hk, hv]
    decide
  unfold localName?
  rw [checkName_bind]
  refine (congrFun (congrFun (if_pos has) s) pos).trans ?_
  rw [advance_bind (by rw [hk]; nofun), bindable_bind hk' hb]
  rfl

/-- An imported name is a public name that can be bound, and behind it stands its name in the template. -/
theorem ImportName.Spelled.parts {x : ImportName} (h : x.Spelled ts) (hat : s.At pos (ts ++ t :: rest))
    (ht : t.kind ≠ .name) : (s.get pos).kind = .name ∧ (s.get pos).value = x.name ∧ canBind x.name = true ∧
      x.name.startsWith "__" = false ∧ Grammar.localName? s (pos + 1) = .ok x.localName (pos + ts.length) := by
  cases h with
  | plain hn hv hb hp =>
    refine ⟨hat.kind.trans hn, hat.get ▸ hv, hb, hp, Grammar.localName?_eq_none ?_⟩
    rw [hat.next.kind]
    exact ht
  | @renamed x y n a m hn hv hb hp ha has hm hmv hmb =>
    have hname := hat.next.next
    refine ⟨hat.kind.trans hn, hat.get ▸ hv, hb, hp, ?_⟩
    have hlocal := Grammar.localName?_eq_some (hat.next.kind.trans ha) (hat.next.get ▸ has)
      (hname.kind.trans hm) (by rw [hname.get, hmv]; exact hmb)
    rw [hname.get, hmv] at hlocal
    exact hlocal

theorem Separated.nameItems (hg : g.Solves find s statements) {x : ImportName} {xs : List ImportName}
    (h : Separated ImportName.Spelled (x :: xs) ts) (hat : s.At pos (ts ++ t :: rest)) (ht : t.kind = .blockEnd)
    {first : Bool} (henter : s.Enters first start pos) :
    g (.nameItems first) s start = .ok (x :: xs) (pos + ts.length) := by
  -- one name, and what the loop does behind it
  have step {x : ImportName} {xs : List ImportName} {ts : List Token} {t : Token} {rest : List Token}
      {first : Bool} {start pos stop : Nat} (henter : s.Enters first start pos) (hx : x.Spelled ts)
      (hat : s.At pos (ts ++ t :: rest)) (ht : t.kind ≠ .name)
      (hloop : (do
        if ← checkSymbol .comma then
          let rest ← g (.nameItems false)
          return x :: rest
        else
          return [x] : Parser (List ImportName)) s (pos + ts.length) = .ok xs stop) :
      g (.nameItems first) s start = .ok xs stop := by
    obtain ⟨hname, hvalue, hbind, hpublic, hlocal⟩ := hx.parts hat ht
    rw [hg (.nameItems first) start nofun]
    show Grammar.nameItems g first s start = _
    unfold Grammar.nameItems
    refine (henter.comma _).trans ?_
    refine (check_yes (List.mem_singleton.2 hname) _ _).trans ?_
    rw [current_bind]
    have hensure : Grammar.ensurePublic (s.get pos) s pos = .ok () pos := by
      unfold Grammar.ensurePublic
      rw [hvalue, hpublic]
      rfl
    rw [bind_ok hensure, Grammar.bindable_bind hname (by rw [hvalue]; exact hbind), bind_ok hlocal, hvalue]
    exact hloop
  induction xs generalizing x ts pos start first with
  | nil =>
    cases h with
    | last hx =>
      refine step henter hx hat (by rw [ht]; nofun) ?_
      refine check_no ?_ _ _
      rw [hat.append.kind, ht]
      decide
  | cons y ys ih =>
    cases h with
    | @more _ _ _ us vs m hm hx h =>
      have hstop : pos + (us ++ m :: vs).length = pos + us.length + 1 + vs.length := by
        simp only [List.length_append, List.length_cons]; omega
      simp only [List.append_assoc, List.cons_append] at hat
      have hcomma : (s.get (pos + us.length)).kind = .symbol .comma := hat.append.kind.trans hm
      rw [hstop]
      refine step henter hx hat (by rw [hm]; nofun) ?_
      refine (check_yes (List.mem_singleton.2 hcomma) _ _).trans ?_
      have henter' : s.Enters false (pos + us.length) (pos + us.length + 1) := ⟨hcomma, rfl⟩
      rw [bind_ok (ih h hat.append.next henter')]
      rfl

/-! ## Parameters -/

namespace Signature

/-- The signature with one more parameter, which may have a default. -/
def add (g : Signature) (x : Param × Option Expr) : Signature :=
  ⟨g.params ++ [x.1], g.defaults ++ x.2.toList⟩

/-- The parameters may follow the signature: behind a default every one has a default. -/
def AllowsAll : Signature → List (Param × Option Expr) → Prop
  | _, [] => True
  | g, x :: xs => (x.2 = none → g.defaults = []) ∧ (g.add x).AllowsAll xs

theorem allowsAll_given (rest : List (Param × Expr)) (g : Signature) :
    g.AllowsAll (rest.map fun x => (x.1, some x.2)) ∧
      (rest.map fun x => (x.1, some x.2)).foldl add g =
        ⟨g.params ++ rest.map (·.1), g.defaults ++ rest.map (·.2)⟩ := by
  induction rest generalizing g with
  | nil => exact ⟨trivial, by simp only [List.map_nil, List.append_nil, List.foldl_nil]⟩
  | cons x xs ih =>
    obtain ⟨hall, hfold⟩ := ih (g.add (x.1, some x.2))
    refine ⟨⟨nofun, hall⟩, ?_⟩
    rw [List.map_cons, List.foldl_cons, hfold]
    simp only [add, Option.toList_some, List.append_assoc, List.singleton_append, List.map_cons]

/-- Parameters without defaults and behind them those with defaults are allowed, and one by one they make
the signature. -/
theorem allowsAll_parameters (plain : List Param) (rest : List (Param × Expr)) (before : List Param) :
    AllowsAll ⟨before, []⟩ (items plain rest) ∧ (items plain rest).foldl add ⟨before, []⟩ =
      ⟨before ++ plain ++ rest.map (·.1), rest.map (·.2)⟩ := by
  unfold items
  induction plain generalizing before with
  | nil => simpa only [List.map_nil, List.nil_append, List.append_nil] using allowsAll_given rest ⟨before, []⟩
  | cons p ps ih =>
    obtain ⟨hall, hfold⟩ := ih (before ++ [p])
    refine ⟨⟨fun _ => rfl, hall⟩, ?_⟩
    rw [List.map_cons, List.cons_append, List.foldl_cons]
    refine hfold.trans ?_
    rw [List.append_assoc before]
    rfl

theorem bare_eq_iff {g g' : Signature} : g'.bare = g.bare ↔
    g'.params.map Param.bare = g.params.map Param.bare ∧ g'.defaults.map Expr.bare = g.defaults.map Expr.bare := by
  simp only [bare, Signature.mk.injEq]

end Signature

/-- The loop comes to a parameter. -/
theorem Grammar.Solves.signatureRest_eq (hg : g.Solves find s statements) {acc : Signature}
    (henter : s.Enters acc.params.isEmpty start pos) (hk : (s.get pos).kind = .name) :
    g (.signatureRest acc) s start =
      (Grammar.bindable >>= fun token => Grammar.default? g token acc.defaults >>= fun defaults =>
        g (.signatureRest ⟨acc.params ++ [⟨token.value, token.span⟩], defaults⟩)) s pos := by
  have hopen : (s.get pos).kind.opensItem = true := by rw [hk]; rfl
  rw [hg (.signatureRest acc) start nofun]
  show Grammar.signatureRest g acc s start = _
  unfold Grammar.signatureRest
  exact (check_no (henter.not_mem hopen rfl (by decide)) _ _).trans (henter.comma _)

/-- One parameter is read, and the loop goes on behind it. -/
theorem Param.Spelled.read (hg : g.Solves find s statements) {x : Param × Option Expr} {sofar : Signature}
    (h : Param.Spelled x ts) (hallow : x.2 = none → sofar.defaults = [])
    (henter : s.Enters sofar.params.isEmpty start pos) (hat : s.At pos (ts ++ t :: rest))
    (ht : t.kind.closesItem = true) :
    ∃ x', (x'.1.bare, x'.2.map Expr.bare) = (x.1.bare, x.2.map Expr.bare) ∧
      g (.signatureRest sofar) s start = g (.signatureRest (sofar.add x')) s (pos + ts.length) := by
  have hassign : t.kind ≠ .symbol .assign := by
    intro hk
    rw [hk] at ht
    cases ht
  -- behind the comma stands a name that can be bound, and behind that perhaps a default
  have hfirst : ∀ ds q, (s.get pos).kind = .name → canBind (s.get pos).value = true →
      Grammar.default? g (s.get pos) sofar.defaults s (pos + 1) = .ok ds q →
      g (.signatureRest sofar) s start =
        g (.signatureRest ⟨sofar.params ++ [⟨(s.get pos).value, (s.get pos).span⟩], ds⟩) s q := by
    intro ds q hname hbind hdefault
    rw [hg.signatureRest_eq henter hname, Grammar.bindable_bind hname hbind]
    exact bind_ok hdefault _
  cases h with
  | @plain p n hn hv hb =>
    have hnone : Grammar.default? g (s.get pos) sofar.defaults s (pos + 1) = .ok [] (pos + 1) := by
      unfold Grammar.default?
      refine (check_no ?_ _ _).trans ?_
      · rw [hat.next.kind, List.mem_singleton]
        exact hassign
      · rw [hallow rfl]
        rfl
    refine ⟨(⟨p.name, n.span⟩, none), rfl, ?_⟩
    rw [hfirst [] (pos + 1) (hat.kind.trans hn) (by rw [hat.get, hv]; exact hb) hnone, hat.get, hv]
    simp only [Signature.add, Option.toList_none, hallow rfl, List.append_nil, List.length_singleton]
  | @default p e n a us hn hv hb ha he =>
    have hstop : pos + (n :: a :: us).length = pos + 1 + 1 + us.length := by
      simp only [List.length_cons]; omega
    have heq : (s.get (pos + 1)).kind = .symbol .assign := hat.next.kind.trans ha
    obtain ⟨e', he', hread⟩ := he.expression hg hat.next.next (TokenKind.looseness_of_closesItem ht)
    have hsome : Grammar.default? g (s.get pos) sofar.defaults s (pos + 1) =
        .ok (sofar.defaults ++ [e']) (pos + 1 + 1 + us.length) := by
      unfold Grammar.default?
      refine (check_yes (List.mem_singleton.2 heq) _ _).trans ?_
      rw [advance_bind (by rw [heq]; nofun), bind_ok hread]
      rfl
    refine ⟨(⟨p.name, n.span⟩, some e'), by rw [Option.map_some, Option.map_some, he']; rfl, ?_⟩
    rw [hstop, hfirst _ _ (hat.kind.trans hn) (by rw [hat.get, hv]; exact hb) hsome, hat.get, hv]
    rfl

namespace Signature

theorem add_bare {g g' : Signature} {x x' : Param × Option Expr} (hg : g'.bare = g.bare)
    (hx : (x'.1.bare, x'.2.map Expr.bare) = (x.1.bare, x.2.map Expr.bare)) : (g'.add x').bare = (g.add x).bare := by
  obtain ⟨hp, hd⟩ := bare_eq_iff.1 hg
  obtain ⟨hx1, hx2⟩ := Prod.mk.inj hx
  refine bare_eq_iff.2 ⟨?_, ?_⟩
  · simp only [add, List.map_append, List.map_cons, List.map_nil, hp, hx1]
  · simp only [add, List.map_append, hd, ← Option.toList_map, hx2]

theorem defaults_eq_nil {g g' : Signature} (hg : g'.bare = g.bare) (h : g.defaults = []) : g'.defaults = [] := by
  have hd := (bare_eq_iff.1 hg).2
  rw [h, List.map_nil] at hd
  exact List.map_eq_nil_iff.1 hd

end Signature

/-- The parameters up to the closing parenthesis are read, after those that have been read before. -/
theorem Separated.signatureRest (hg : g.Solves find s statements) {xs : List (Param × Option Expr)}
    {acc acc' : Signature} (h : Separated Param.Spelled xs ts) (hacc : acc'.bare = acc.bare)
    (hall : acc.AllowsAll xs) (henter : xs ≠ [] → s.Enters acc'.params.isEmpty start pos)
    (hend : xs = [] → start = pos) (hat : s.At pos (ts ++ t :: rest)) (ht : t.kind = .symbol .closeParen) :
    ∃ sig, sig.bare = (xs.foldl Signature.add acc).bare ∧
      g (.signatureRest acc') s start = .ok sig (pos + ts.length) := by
  have hclose {acc : Signature} {q : Nat} (hk : (s.get q).kind = .symbol .closeParen) :
      g (.signatureRest acc) s q = .ok acc q := by
    rw [hg (.signatureRest acc) q nofun]
    exact check_yes (List.mem_singleton.2 hk) _ _
  induction h generalizing acc acc' start pos with
  | nil =>
    cases hend rfl
    exact ⟨acc', hacc, hclose (hat.kind.trans ht)⟩
  | last hx =>
    obtain ⟨x', hx', hread⟩ := hx.read hg (fun h => Signature.defaults_eq_nil hacc (hall.1 h)) (henter nofun) hat
      (by rw [ht]; rfl)
    refine ⟨acc'.add x', Signature.add_bare hacc hx', ?_⟩
    rw [hread]
    exact hclose (hat.append.kind.trans ht)
  | @more x y xs us vs m hm hx h ih =>
    have hstop : pos + (us ++ m :: vs).length = pos + us.length + 1 + vs.length := by
      simp only [List.length_append, List.length_cons]; omega
    simp only [List.append_assoc, List.cons_append] at hat
    obtain ⟨x', hx', hread⟩ := hx.read hg (fun h => Signature.defaults_eq_nil hacc (hall.1 h)) (henter nofun) hat
      (by rw [hm]; rfl)
    have henter' : s.Enters (acc'.add x').params.isEmpty (pos + us.length) (pos + us.length + 1) := by
      rw [show (acc'.add x').params.isEmpty = false by simp [Signature.add]]
      exact ⟨hat.append.kind.trans hm, rfl⟩
    obtain ⟨sig, hsig, hrest⟩ := ih (Signature.add_bare hacc hx') hall.2 (fun _ => henter') nofun hat.append.next
    rw [hstop]
    exact ⟨sig, hsig, hread.trans hrest⟩

theorem Signature.Spelled.read (hg : g.Solves find s statements) {sig : Signature} (h : sig.Spelled ts)
    (hat : s.At pos (ts ++ rest)) :
    (s.get pos).kind = .symbol .openParen ∧
      ∃ sig', sig'.bare = sig.bare ∧ g .signature s pos = .ok sig' (pos + ts.length) := by
  obtain @⟨plain, given, us, o, c, ho, hc, h⟩ := h
  obtain ⟨hopen, hinner, hclose, -, hstop⟩ := hat.between
  obtain ⟨hall, hfold⟩ := Signature.allowsAll_parameters plain given []
  obtain ⟨sig', hsig, hread⟩ := h.signatureRest hg rfl hall (fun _ => rfl) (fun _ => rfl) hinner hc
  rw [hfold] at hsig
  refine ⟨hopen.trans ho, sig', hsig, ?_⟩
  rw [hstop, hg .signature pos nofun]
  refine (expect_bind (hopen.trans ho) nofun _).trans ?_
  rw [bind_ok hread]
  exact expect_bind (hclose.trans hc) nofun _

/-! ## Filters -/

/-- The filters of a block are read one by one, and the loop goes on behind them. -/
theorem Expr.SpelledFilters.read (hg : g.Solves find s statements) (h : e.SpelledFilters ts)
    (hat : s.At pos (ts ++ rest)) :
    ∃ e', e'.bare = e.bare ∧ g (.filterChain none) s pos = g (.filterRest e') s (pos + ts.length) := by
  induction h generalizing pos rest with
  | @first name args us n span hn hv ha =>
    have hstop : pos + (n :: us).length = pos + 1 + us.length := by rw [List.length_cons]; omega
    rw [List.cons_append] at hat
    obtain ⟨args', hargs, hread⟩ := ha.read hg _ _ hat.next
    obtain ⟨u, hfilter⟩ := hg.singleFilter_eq_ok none (hat.kind.trans hn) (ha.opens.get_arguments hat.next) hread
    rw [hat.get, hv] at hfilter
    refine ⟨.filter none name args' u, by simp only [Expr.bare, Expr.bareOption, hargs], ?_⟩
    rw [hstop, hg (.filterChain none) pos (by rintro ⟨⟩)]
    exact bind_ok hfilter _
  | @next f name args us vs p n span hp hn hv h ha ih =>
    have hstop : pos + (us ++ p :: n :: vs).length = pos + us.length + 1 + 1 + vs.length := by
      simp only [List.length_append, List.length_cons]; omega
    simp only [List.append_assoc, List.cons_append] at hat
    have hbar : (s.get (pos + us.length)).kind = .symbol .pipe := hat.append.kind.trans hp
    have hname := hat.append.next
    obtain ⟨f', hf', hchain⟩ := ih hat
    obtain ⟨args', hargs, hread⟩ := ha.read hg _ _ hname.next
    obtain ⟨u, hfilter⟩ := hg.singleFilter_eq_ok (some f') (hname.kind.trans hn)
      (ha.opens.get_arguments hname.next) hread
    rw [hname.get, hv] at hfilter
    refine ⟨.filter (some f') name args' u, by simp only [Expr.bare, Expr.bareOption, hf', hargs], ?_⟩
    rw [hstop, hchain, hg (.filterRest f') _ (by rintro ⟨⟩)]
    refine (check_yes (List.mem_singleton.2 hbar) _ _).trans ?_
    rw [advance_bind (by rw [hbar]; decide)]
    exact bind_ok hfilter _

theorem Grammar.Solves.filterRest_eq_ok (hg : g.Solves find s statements)
    (hk : (s.get pos).kind ≠ .symbol .pipe) : g (.filterRest e) s pos = .ok e pos := by
  rw [hg (.filterRest e) pos nofun]
  exact check_no (fun h => hk (List.mem_singleton.1 h)) _ _

/-! ## The filter of a loop -/

/-- The filter of a loop is read by every grammar that reads its expression. -/
theorem Expr.SpelledTest.read (hg : g.Solves find s statements) {o : Option Expr} (h : Expr.SpelledTest o ts)
    (hat : s.At pos (ts ++ t :: rest)) (ht : t.kind = .blockEnd) :
    ∃ o', o'.map Expr.bare = o.map Expr.bare ∧ ∀ g' : Grammar,
      (∀ e q, g (.expression true) s (pos + 1) = .ok e q → g' (.expression true) s (pos + 1) = .ok e q) →
        Grammar.loopTest g' s pos = .ok o' (pos + ts.length) := by
  unfold Grammar.loopTest
  cases h with
  | absent =>
    refine ⟨none, rfl, fun g' _ => check_no ?_ _ _⟩
    rw [Stream.At.kind hat, ht]
    decide
  | @present e i us hi h =>
    have hif : (s.get pos).kind = .keyword .ifTag := hat.kind.trans hi
    obtain ⟨e', he', hread⟩ := h.expression hg hat.next (by rw [ht]; decide)
    refine ⟨some e', by rw [Option.map_some, Option.map_some, he'], fun g' hg' => ?_⟩
    rw [List.length_cons, Nat.add_comm us.length, ← Nat.add_assoc]
    refine (check_yes (List.mem_singleton.2 hif) _ _).trans ?_
    rw [advance_bind (by rw [hif]; nofun)]
    exact bind_ok (hg' _ _ hread) _

end Stencil
