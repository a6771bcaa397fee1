/-
Lists of items. `Items.Read` says of consecutive places of a stream that the items of a list are read
there one after another, with commas between them; each loop of the grammar that reads items then reads
the whole list. The loops differ in what an item is, and in what they do with it.
-/
import Stencil.Proofs.Writing.Opening

namespace Stencil

open Stencil.Parser

/-! ## Arguments one by one -/

namespace Arguments

/-- The arguments with one more. -/
def add : Arguments → Argument → Arguments
  | .mk positional keywords spread keywordSpread, .positional e =>
    .mk (positional ++ [e]) keywords spread keywordSpread
  | .mk positional keywords spread keywordSpread, .keyword k =>
    .mk positional (keywords ++ [k]) spread keywordSpread
  | .mk positional keywords _ keywordSpread, .spread e => .mk positional keywords (some e) keywordSpread
  | .mk positional keywords spread _, .keywordSpread e => .mk positional keywords spread (some e)

/-- The argument may follow these. -/
def Allows : Arguments → Argument → Prop
  | .mk _ keywords spread keywordSpread, .positional _ =>
    keywords = [] ∧ spread = none ∧ keywordSpread = none
  | .mk _ _ spread keywordSpread, .keyword _ | .mk _ _ spread keywordSpread, .spread _ =>
    spread = none ∧ keywordSpread = none
  | .mk _ _ _ keywordSpread, .keywordSpread _ => keywordSpread = none

/-- The arguments may follow these in their order. -/
def AllowsAll : Arguments → List Argument → Prop
  | _, [] => True
  | acc, a :: as => acc.Allows a ∧ (acc.add a).AllowsAll as

theorem allowsAll_append {acc : Arguments} {as bs : List Argument} :
    acc.AllowsAll (as ++ bs) ↔ acc.AllowsAll as ∧ (as.foldl add acc).AllowsAll bs := by
  induction as generalizing acc with
  | nil => exact ⟨fun h => ⟨trivial, h⟩, fun h => h.2⟩
  | cons a as ih =>
    rw [List.cons_append, AllowsAll, AllowsAll, ih, List.foldl_cons, and_assoc]

theorem positional_in_order (es before : List Expr) :
    AllowsAll (.mk before [] none none) (es.map .positional) ∧
      (es.map Argument.positional).foldl add (.mk before [] none none) = .mk (before ++ es) [] none none := by
  induction es generalizing before with
  | nil => rw [List.append_nil]; exact ⟨trivial, rfl⟩
  | cons e es ih =>
    obtain ⟨hall, hfold⟩ := ih (before ++ [e])
    rw [List.append_assoc] at hfold
    exact ⟨⟨⟨rfl, rfl, rfl⟩, hall⟩, hfold⟩

theorem keywords_in_order (positional : List Expr) (ks before : List KeywordArg) :
    AllowsAll (.mk positional before none none) (ks.map .keyword) ∧
      (ks.map Argument.keyword).foldl add (.mk positional before none none) =
        .mk positional (before ++ ks) none none := by
  induction ks generalizing before with
  | nil => rw [List.append_nil]; exact ⟨trivial, rfl⟩
  | cons k ks ih =>
    obtain ⟨hall, hfold⟩ := ih (before ++ [k])
    rw [List.append_assoc] at hfold
    exact ⟨⟨⟨rfl, rfl⟩, hall⟩, hfold⟩

/-- The order in which arguments are written is allowed, and one by one they are the arguments again. -/
theorem toList_in_order (args : Arguments) :
    empty.AllowsAll args.toList ∧ args.toList.foldl add empty = args := by
  obtain ⟨positional, keywords, spread, keywordSpread⟩ := args
  obtain ⟨hp, hpf⟩ := positional_in_order positional []
  obtain ⟨hk, hkf⟩ := keywords_in_order positional keywords []
  unfold toList
  simp only [allowsAll_append, List.foldl_append]
  unfold empty
  rw [hpf, List.nil_append, hkf, List.nil_append]
  cases spread <;> cases keywordSpread <;> exact ⟨⟨⟨⟨hp, hk⟩, by simp [AllowsAll, Allows]⟩,
    by simp [AllowsAll, Allows, add]⟩, rfl⟩

/-! ## Arguments up to spans -/

theorem bare_eq_iff {p p' : List Expr} {k k' : List KeywordArg} {s s' d d' : Option Expr} :
    bare (.mk p k s d) = bare (.mk p' k' s' d') ↔ p.map Expr.bare = p'.map Expr.bare ∧
      k.map KeywordArg.bare = k'.map KeywordArg.bare ∧ s.map Expr.bare = s'.map Expr.bare ∧
      d.map Expr.bare = d'.map Expr.bare := by
  simp only [bare, Arguments.mk.injEq, Expr.bares_eq_map, KeywordArg.bares_eq_map, Expr.bareOption_eq_map]

theorem add_bare {acc acc' : Arguments} (h : acc'.bare = acc.bare) (a : Argument) :
    (acc'.add a).bare = (acc.add a).bare := by
  obtain ⟨p, k, s, d⟩ := acc
  obtain ⟨p', k', s', d'⟩ := acc'
  obtain ⟨hp, hk, hs, hd⟩ := bare_eq_iff.1 h
  cases a <;> refine bare_eq_iff.2 ⟨?_, ?_, ?_, ?_⟩ <;> simp only [List.map_append, hp, hk, hs, hd]

theorem allows_bare {acc acc' : Arguments} (h : acc'.bare = acc.bare) {a : Argument} (ha : acc.Allows a) :
    acc'.Allows a := by
  obtain ⟨p, k, s, d⟩ := acc
  obtain ⟨p', k', s', d'⟩ := acc'
  obtain ⟨-, hk, hs, hd⟩ := bare_eq_iff.1 h
  have hk' : k = [] → k' = [] := by rintro rfl; simpa using hk
  have hs' : s = none → s' = none := by rintro rfl; simpa using hs
  have hd' : d = none → d' = none := by rintro rfl; simpa using hd
  cases a with
  | positional e => exact ⟨hk' ha.1, hs' ha.2.1, hd' ha.2.2⟩
  | keyword x => exact ⟨hs' ha.1, hd' ha.2⟩
  | spread e => exact ⟨hs' ha.1, hd' ha.2⟩
  | keywordSpread e => exact hd' ha

/-- Behind an argument some have been read. -/
theorem noneRead_add {acc acc' : Arguments} {a : Argument} (h : acc'.bare = (acc.add a).bare) :
    Grammar.noneRead acc' = false := by
  obtain ⟨p, k, s, d⟩ := acc
  unfold Grammar.noneRead
  split
  · cases a <;> simp [add, bare_eq_iff] at h
  · rfl

end Arguments

/-! ## Lists of items -/

/-- The rule reads the expression, up to spans, from one position up to another. -/
def Grammar.Yields (g : Grammar) (s : Stream) (r : Rule .expr) (pos stop : Nat) (e : Expr) : Prop :=
  ∃ e', e'.bare = e.bare ∧ g r s pos = .ok e' stop

section

variable (g : Grammar) (s : Stream)

/-- The item is read from one position up to another. -/
def Item.Read (pos stop : Nat) : Item → Prop
  | .expr e => g.Yields s .cond pos stop e
  | .pair (.mk key value _) =>
    ∃ m, g.Yields s .cond pos m key ∧ (s.get m).kind = .symbol .colon ∧ g.Yields s .cond (m + 1) stop value
  | .subscript e => g.Yields s .subscriptItem pos stop e
  | .argument a => ∀ opened (acc : Arguments), acc.Allows a →
    ∃ acc', acc'.bare = (acc.add a).bare ∧ Grammar.argument g opened acc s pos = .ok acc' stop

/-- The items are read one after another, and a comma stands between any two. -/
def Items.Read : List Item → Nat → Nat → Prop
  | [], pos, stop => stop = pos
  | [x], pos, stop => (s.get pos).kind.opensItem = true ∧ x.Read g s pos stop
  | x :: y :: xs, pos, stop => (s.get pos).kind.opensItem = true ∧
    ∃ m, x.Read g s pos m ∧ (s.get m).kind = .symbol .comma ∧ Items.Read (y :: xs) (m + 1) stop

end

variable {g : Grammar} {find : Text → Option Extension} {s : Stream} {statements : Prop} {pos stop : Nat}

/-- A loop over items comes to an item: the first one where it starts, another one behind a comma. -/
def Stream.Enters (s : Stream) (first : Bool) (start pos : Nat) : Prop :=
  if first then start = pos else (s.get start).kind = .symbol .comma ∧ start + 1 = pos

/-- A loop that collects items one by one collects all items of a list. -/
theorem Items.Read.collect {β : Type} {bare : β → β} {item : β → Item} (loop : Bool → Parser (List β))
    (hend : ∀ first, loop first s stop = .ok [] stop)
    (hstep : ∀ first start pos m x bs, s.Enters first start pos → (s.get pos).kind.opensItem = true →
      (item x).Read g s pos m → loop false s m = .ok bs stop →
      ∃ x', bare x' = bare x ∧ loop first s start = .ok (x' :: bs) stop)
    {bs : List β} (h : Items.Read g s (bs.map item) pos stop) :
    ∃ bs', bs'.map bare = bs.map bare ∧ loop true s pos = .ok bs' stop := by
  have go (x : β) (xs : List β) : ∀ first start pos, s.Enters first start pos →
      Items.Read g s ((x :: xs).map item) pos stop →
      ∃ bs', bs'.map bare = (x :: xs).map bare ∧ loop first s start = .ok bs' stop := by
    induction xs generalizing x with
    | nil =>
      intro first start pos henter h
      obtain ⟨x', hx', hloop⟩ := hstep first start pos stop x [] henter h.1 h.2 (hend false)
      exact ⟨[x'], by rw [List.map_cons, hx']; rfl, hloop⟩
    | cons y ys ih =>
      intro first start pos henter h
      obtain ⟨hopen, m, hread, hcomma, hrest⟩ := h
      obtain ⟨bs, hbs, hloop⟩ := ih y false m (m + 1) ⟨hcomma, rfl⟩ hrest
      obtain ⟨x', hx', hloop⟩ := hstep first start pos m x bs henter hopen hread hloop
      exact ⟨x' :: bs, by rw [List.map_cons, hx', hbs]; rfl, hloop⟩
  cases bs with
  | nil =>
    cases (show stop = pos from h)
    exact ⟨[], rfl, hend true⟩
  | cons x xs => exact go x xs true pos pos rfl h

/-! ## The loops of the grammar -/

theorem TokenKind.opensItem_ne {k : TokenKind} (h : k.opensItem = true) {ks : List TokenKind}
    (hks : ks.all (fun k => !k.opensItem) = true) : k ∉ ks := by
  intro hmem
  have := List.all_eq_true.1 hks k hmem
  rw [h] at this
  cases this

/-- Behind the comma that a loop expects of every item but the first one. -/
theorem Stream.Enters.comma {α : Type} {first : Bool} {start : Nat} (h : s.Enters first start pos)
    (x : Parser α) : (if (!first) = true then do let _ ← expectSymbol .comma; x else x) s start = x s pos := by
  cases first with
  | true =>
    cases (show start = pos from h)
    rfl
  | false =>
    obtain ⟨hcomma, rfl⟩ := h
    exact expect_bind hcomma nofun _

theorem Stream.Enters.not_mem {first : Bool} {start : Nat} (h : s.Enters first start pos)
    (hopen : (s.get pos).kind.opensItem = true) {ks : List TokenKind}
    (hks : ks.all (fun k => !k.opensItem) = true) (hcomma : TokenKind.symbol .comma ∉ ks) :
    (s.get start).kind ∉ ks := by
  cases first with
  | true =>
    cases (show start = pos from h)
    exact TokenKind.opensItem_ne hopen hks
  | false =>
    rw [h.1]
    exact hcomma

theorem Grammar.Solves.expression_true (hg : g.Solves find s statements) (pos : Nat) :
    g (.expression true) s pos = g .cond s pos := hg (.expression true) pos nofun

theorem Items.Read.listItems (hg : g.Solves find s statements) {es : List Expr}
    (h : Items.Read g s (es.map .expr) pos stop) (hstop : (s.get stop).kind = .symbol .closeBracket) :
    ∃ es', es'.map Expr.bare = es.map Expr.bare ∧ g (.listItems true) s pos = .ok es' stop := by
  refine collect (fun first => g (.listItems first)) (fun first => ?_) ?_ h
  · rw [hg (.listItems first) stop nofun]
    exact check_yes (List.mem_singleton.2 hstop) _ _
  · rintro first start pos m e es henter hopen ⟨e', he', hread⟩ hloop
    refine ⟨e', he', ?_⟩
    rw [hg (.listItems first) start nofun]
    show Grammar.listItems g first s start = _
    unfold Grammar.listItems
    extract_lets rest
    refine (check_no (henter.not_mem hopen rfl (by decide)) _ _).trans ?_
    refine (henter.comma (rest ())).trans ?_
    refine (check_no (TokenKind.opensItem_ne hopen rfl) _ _).trans ?_
    rw [bind_ok ((hg.expression_true pos).trans hread), bind_ok hloop]
    rfl

theorem Items.Read.dictItems (hg : g.Solves find s statements) {ps : List Pair}
    (h : Items.Read g s (ps.map .pair) pos stop) (hstop : (s.get stop).kind = .symbol .closeBrace) :
    ∃ ps', ps'.map Pair.bare = ps.map Pair.bare ∧ g (.dictItems true) s pos = .ok ps' stop := by
  refine collect (fun first => g (.dictItems first)) (fun first => ?_) ?_ h
  · rw [hg (.dictItems first) stop nofun]
    exact check_yes (List.mem_singleton.2 hstop) _ _
  · rintro first start pos m ⟨key, value, span⟩ ps henter hopen hread hloop
    obtain ⟨n, ⟨key', hkey, hreadKey⟩, hcolon, value', hvalue, hreadValue⟩ := hread
    refine ⟨.mk key' value' ⟨key'.span.start, value'.span.finish⟩, by rw [Pair.bare, Pair.bare, hkey, hvalue], ?_⟩
    rw [hg (.dictItems first) start nofun]
    show Grammar.dictItems g first s start = _
    unfold Grammar.dictItems
    extract_lets rest
    refine (check_no (henter.not_mem hopen rfl (by decide)) _ _).trans ?_
    refine (henter.comma (rest ())).trans ?_
    refine (check_no (TokenKind.opensItem_ne hopen rfl) _ _).trans ?_
    rw [bind_ok ((hg.expression_true pos).trans hreadKey)]
    refine (expect_bind hcolon nofun _).trans ?_
    rw [bind_ok ((hg.expression_true (n + 1)).trans hreadValue), bind_ok hloop]
    rfl

/-- The loop comes to a subscript. -/
theorem Grammar.Solves.subscriptItems_eq (hg : g.Solves find s statements) {first : Bool} {start : Nat}
    (henter : s.Enters first start pos) (hopen : (s.get pos).kind.opensItem = true) :
    g (.subscriptItems first) s start = (g .subscriptItem >>= fun e => g (.subscriptItems false) >>= fun es =>
      (pure (e :: es) : Parser (List Expr))) s pos := by
  rw [hg (.subscriptItems first) start nofun]
  show Grammar.subscriptItems g first s start = _
  unfold Grammar.subscriptItems
  extract_lets rest
  exact (check_no (henter.not_mem hopen rfl (by decide)) _ _).trans (henter.comma (rest ()))

theorem Items.Read.subscriptItems (hg : g.Solves find s statements) {es : List Expr}
    (h : Items.Read g s (es.map .subscript) pos stop)
    (hstop : (s.get stop).kind = .symbol .closeBracket) :
    ∃ es', es'.map Expr.bare = es.map Expr.bare ∧ g (.subscriptItems true) s pos = .ok es' stop := by
  refine collect (fun first => g (.subscriptItems first)) (fun first => ?_) ?_ h
  · rw [hg (.subscriptItems first) stop nofun]
    exact check_yes (List.mem_singleton.2 hstop) _ _
  · rintro first start pos m e es henter hopen ⟨e', he', hread⟩ hloop
    refine ⟨e', he', ?_⟩
    rw [hg.subscriptItems_eq henter hopen, bind_ok hread, bind_ok hloop]
    rfl

/-- An item of a tuple that no comma follows, or what is left of the tuple behind its comma. -/
theorem Items.Read.tupleRest (hg : g.Solves find s statements) {e : Expr} {es : List Expr} {start : Nat}
    (h : Items.Read g s ((e :: es).map .expr) pos stop) (hcomma : (s.get start).kind = .symbol .comma)
    (hpos : start + 1 = pos) (hstop : (s.get stop).kind ≠ .symbol .comma) :
    ∃ es', es'.map Expr.bare = (e :: es).map Expr.bare ∧
      g (.tupleRest (.expression true)) s start = .ok es' stop := by
  subst hpos
  induction es generalizing e start with
  | nil =>
    obtain ⟨hopen, e', he', hread⟩ := h
    refine ⟨[e'], by rw [List.map_cons, he']; rfl, ?_⟩
    rw [hg (.tupleRest (.expression true)) start nofun]
    refine (expect_bind hcomma nofun _).trans ?_
    refine (check_no (TokenKind.opensItem_ne hopen rfl) _ _).trans ?_
    show (g (.expression true) >>= _) s (start + 1) = _
    rw [bind_ok ((hg.expression_true (start + 1)).trans hread)]
    exact check_no (fun hk => hstop (List.mem_singleton.1 hk)) _ _
  | cons f fs ih =>
    obtain ⟨hopen, m, ⟨e', he', hread⟩, hcomma', hrest⟩ := h
    obtain ⟨es', hes', hloop⟩ := ih hcomma' hrest
    refine ⟨e' :: es', by rw [List.map_cons, he', hes']; rfl, ?_⟩
    rw [hg (.tupleRest (.expression true)) start nofun]
    refine (expect_bind hcomma nofun _).trans ?_
    refine (check_no (TokenKind.opensItem_ne hopen rfl) _ _).trans ?_
    show (g (.expression true) >>= _) s (start + 1) = _
    rw [bind_ok ((hg.expression_true (start + 1)).trans hread)]
    refine (check_yes (List.mem_singleton.2 hcomma') _ _).trans ?_
    rw [bind_ok hloop]
    rfl

/-- The loop comes to an argument, and goes on behind it. -/
theorem Grammar.Solves.argumentsRest_eq (hg : g.Solves find s statements) (opened : Location) {acc : Arguments}
    {start : Nat} (henter : s.Enters (Grammar.noneRead acc) start pos)
    (hopen : (s.get pos).kind.opensItem = true) : g (.argumentsRest opened acc) s start =
      (Grammar.argument g opened acc >>= fun args => g (.argumentsRest opened args)) s pos := by
  rw [hg (.argumentsRest opened acc) start nofun]
  show Grammar.argumentsRest g opened acc s start = _
  unfold Grammar.argumentsRest
  extract_lets rest
  refine (check_no (henter.not_mem hopen rfl (by decide)) _ _).trans ?_
  refine (henter.comma (rest ())).trans ?_
  show (check [.symbol .closeParen] >>= _) s pos = _
  have hparen : (s.get pos).kind ∉ [TokenKind.symbol .closeParen] := TokenKind.opensItem_ne hopen rfl
  rw [check_bind, if_neg (by simp [hparen])]

/-- The arguments up to the closing parenthesis are read, after those that have been read before. -/
theorem Items.Read.argumentsRest (hg : g.Solves find s statements) (opened : Location) (start : Nat)
    {as : List Argument} {acc acc' : Arguments} (hacc : acc'.bare = acc.bare) (hall : acc.AllowsAll as)
    (henter : as ≠ [] → s.Enters (Grammar.noneRead acc') start pos) (hend : as = [] → start = stop)
    (h : Items.Read g s (as.map .argument) pos stop) (hstop : (s.get stop).kind = .symbol .closeParen) :
    ∃ args, args.bare = (as.foldl Arguments.add acc).bare ∧
      g (.argumentsRest opened acc') s start = .ok args stop := by
  induction as generalizing acc acc' start pos with
  | nil =>
    cases hend rfl
    refine ⟨acc', hacc, ?_⟩
    rw [hg (.argumentsRest opened acc') _ nofun]
    exact check_yes (List.mem_singleton.2 hstop) _ _
  | cons a as ih =>
    obtain ⟨hallows, hall⟩ := hall
    have henter := henter nofun
    -- one argument, and the loop from behind it on
    have step (m : Nat) (hopen : (s.get pos).kind.opensItem = true) (hread : (Item.argument a).Read g s pos m)
        (hrest : ∀ acc'', acc''.bare = (acc.add a).bare → ∃ args,
          args.bare = ((a :: as).foldl Arguments.add acc).bare ∧
            g (.argumentsRest opened acc'') s m = .ok args stop) :
        ∃ args, args.bare = ((a :: as).foldl Arguments.add acc).bare ∧
          g (.argumentsRest opened acc') s start = .ok args stop := by
      obtain ⟨acc'', hacc'', hargument⟩ := hread opened acc' (Arguments.allows_bare hacc hallows)
      obtain ⟨args, hargs, hloop⟩ := hrest acc'' (hacc''.trans (Arguments.add_bare hacc a))
      exact ⟨args, hargs, by rw [hg.argumentsRest_eq opened henter hopen, bind_ok hargument, hloop]⟩
    cases as with
    | nil => exact step stop h.1 h.2 fun acc'' hacc'' => ih stop hacc'' hall nofun (fun _ => rfl) rfl
    | cons b bs =>
      obtain ⟨hopen, m, hread, hcomma, hrest⟩ := h
      refine step m hopen hread fun acc'' hacc'' => ih m hacc'' hall (fun _ => ?_) nofun hrest
      rw [Arguments.noneRead_add hacc'']
      exact ⟨hcomma, rfl⟩

/-- The arguments in their parentheses. -/
theorem Items.Read.arguments (hg : g.Solves find s statements) {args : Arguments}
    (hopened : (s.get pos).kind = .symbol .openParen)
    (h : Items.Read g s (args.toList.map .argument) (pos + 1) stop)
    (hstop : (s.get stop).kind = .symbol .closeParen) :
    ∃ args', args'.bare = args.bare ∧ g .arguments s pos = .ok args' (stop + 1) := by
  obtain ⟨hall, hfold⟩ := args.toList_in_order
  have hend (hnil : args.toList = []) : pos + 1 = stop := by
    rw [hnil] at h
    exact Eq.symm h
  obtain ⟨args', hargs, hread⟩ := h.argumentsRest hg (s.get pos).span.start (pos + 1) rfl hall
    (fun _ => rfl) hend hstop
  rw [hfold] at hargs
  refine ⟨args', hargs, ?_⟩
  rw [hg .arguments pos nofun]
  refine (expect_bind hopened nofun _).trans ?_
  rw [bind_ok hread]
  exact expect_bind hstop nofun _

end Stencil
