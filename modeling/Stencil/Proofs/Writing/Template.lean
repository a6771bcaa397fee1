/-
The shapes of statements, that each of them can be written, and that templates are recovered from the tokens
that write them.
-/
import Stencil.Proofs.Progress.Termination
import Stencil.Proofs.Writing.Block
import Stencil.Proofs.Writing.Recovery

namespace Stencil

/-! ## Shapes -/

mutual

/-- The expression is a target as it is written to: a name that can be bound, a subscript, or a tuple of
targets. -/
def Expr.IsTarget : Expr → Prop
  | .name n u _ => u = .store ∧ canBind n = true
  | .tuple items u _ => u = .store ∧ Expr.AllTargets items
  | .subscript object index u _ => u = .store ∧ object.Shaped .alone ∧ index.Shaped .index
  | _ => False

def Expr.AllTargets : List Expr → Prop
  | [] => True
  | e :: es => e.IsTarget ∧ Expr.AllTargets es

end

/-- The expression is a chain of filters of which the first has no input. -/
def Expr.IsFilters : Expr → Prop
  | .filter none _ args _ => args.Shaped
  | .filter (some f) _ args _ => f.IsFilters ∧ args.Shaped
  | _ => False

/-- Parameters can be bound, and defaults belong to the last of them. -/
structure Signature.Shaped (g : Signature) : Prop where
  bindable : ∀ p ∈ g.params, canBind p.name = true
  suffix : g.defaults.length ≤ g.params.length
  defaults : ∀ e ∈ g.defaults, e.Shaped .alone

/-- An imported name is public, and it and its name in the template can be bound. -/
structure ImportName.Shaped (n : ImportName) : Prop where
  bindable : canBind n.name = true
  isPublic : n.name.startsWith "__" = false
  localBindable : ∀ a ∈ n.localName, canBind a = true

mutual

/-- The statement has the shape of one that is read. -/
def Stmt.Shaped : Stmt → Prop
  | .output nodes _ => ∀ e ∈ nodes, e.Shaped .alone
  | .assign target value _ => target.IsTarget ∧ value.Shaped .alone
  | .loop target iter body elseBody test _ =>
    target.IsTarget ∧ iter.Shaped .alone ∧ (∀ e ∈ test, e.Shaped .alone) ∧ Stmt.AllShaped body
      ∧ Stmt.AllShaped elseBody
  | .branch test body elseBody _ => test.Shaped .alone ∧ Stmt.AllShaped body ∧ Stmt.AllShaped elseBody
  | .block _ body _ => Stmt.AllShaped body
  | .extend template _ => template.Shaped .alone
  | .embed template _ => template.Shaped .alone
  | .importAs template target _ => template.Shaped .alone ∧ canBind target = true
  | .importNames template names _ => template.Shaped .alone ∧ ∀ n ∈ names, n.Shaped
  | .define name signature body _ => canBind name = true ∧ signature.Shaped ∧ Stmt.AllShaped body
  | .callBlock signature call body _ =>
    signature.Shaped ∧ call.Shaped .alone ∧ (∃ callee args s, call = .call callee args s)
      ∧ Stmt.AllShaped body
  | .filterBlock filter body _ => filter.IsFilters ∧ Stmt.AllShaped body
  | .expr node _ => node.Shaped .alone
  | .breakLoop _ | .continueLoop _ => True

def Stmt.AllShaped : List Stmt → Prop
  | [] => True
  | x :: xs => x.Shaped ∧ Stmt.AllShaped xs

end

/-! ## Every shape can be written -/

theorem Expr.Shaped.enclosed {e : Expr} (h : e.Shaped .alone) : ∃ ts, Enclosed e ts := by
  obtain ⟨ts, hts⟩ := h.writable
  exact ⟨_, .parens (o := .of (.symbol .openParen)) (c := .of (.symbol .closeParen)) rfl rfl
    (hts.loosen (Level.rank_le_cond _)), _, _, rfl, rfl⟩

mutual

/-- A target is what some expression becomes when it is written to. -/
theorem Expr.IsTarget.stored : ∀ {t : Expr}, t.IsTarget →
    ∃ e : Expr, e.Shaped .alone ∧ e.toTarget .store = some t
  | .name n u s, h => by
    obtain ⟨rfl, hn⟩ := h
    exact ⟨.name n .load s, ⟨rfl, Option.isNone_iff_eq_none.1 hn⟩, if_pos hn⟩
  | .tuple items u s, h => by
    obtain ⟨rfl, hitems⟩ := h
    obtain ⟨es, hes, hstored⟩ := Expr.AllTargets.stored hitems
    refine ⟨.tuple es .load s, ⟨rfl, .inl hes⟩, ?_⟩
    rw [Expr.toTarget, hstored]
    rfl
  | .subscript object index u s, h => by
    obtain ⟨rfl, hobject, hindex⟩ := h
    exact ⟨.subscript object index .load s, ⟨rfl, hobject, hindex⟩, rfl⟩

theorem Expr.AllTargets.stored : ∀ {ts : List Expr}, Expr.AllTargets ts →
    ∃ es, Expr.AllShaped .alone es ∧ Expr.toTargets .store es = some ts
  | [], _ => ⟨[], trivial, rfl⟩
  | t :: ts, h => by
    obtain ⟨e, he, hstored⟩ := Expr.IsTarget.stored h.1
    obtain ⟨es, hes, hstoreds⟩ := Expr.AllTargets.stored h.2
    refine ⟨e :: es, ⟨he, hes⟩, ?_⟩
    rw [Expr.toTargets, hstored, hstoreds]
    rfl

end

theorem Separated.exists_of_all {α : Type} {P : α → List Token → Prop} {xs : List α}
    (h : ∀ x ∈ xs, ∃ ts, P x ts) : ∃ ts, Separated P xs ts := by
  induction xs with
  | nil => exact ⟨[], .nil⟩
  | cons x xs ih =>
    obtain ⟨ts, hx⟩ := h x (.head _)
    obtain ⟨us, hxs⟩ := ih fun y hy => h y (.tail _ hy)
    cases xs with
    | nil => exact ⟨ts, .last hx⟩
    | cons y ys => exact ⟨_, .more (m := .of (.symbol .comma)) rfl hx hxs⟩

/-- The last parameters go with the defaults, in their order. -/
theorem Signature.exists_parts {g : Signature} (h : g.defaults.length ≤ g.params.length) :
    ∃ (plain : List Param) (rest : List (Param × Expr)), g = ⟨plain ++ rest.map (·.1), rest.map (·.2)⟩ := by
  obtain ⟨params, defaults⟩ := g
  simp only at h
  let plain := params.take (params.length - defaults.length)
  let last := params.drop (params.length - defaults.length)
  have hlength : last.length = defaults.length := by
    rw [List.length_drop]
    omega
  refine ⟨plain, last.zip defaults, ?_⟩
  rw [List.map_fst_zip (Nat.le_of_eq hlength), List.map_snd_zip (Nat.le_of_eq hlength.symm),
    List.take_append_drop]

theorem Signature.Shaped.spelled {g : Signature} (h : g.Shaped) : ∃ ts, g.Spelled ts := by
  obtain ⟨plain, rest, rfl⟩ := exists_parts h.suffix
  have hitems : ∀ x ∈ items plain rest, ∃ ts, Param.Spelled x ts := by
    intro x hx
    rcases List.mem_append.1 hx with hx | hx
    · obtain ⟨p, hp, rfl⟩ := List.mem_map.1 hx
      exact ⟨_, .plain (n := ⟨.name, p.name, .none⟩) rfl rfl (h.bindable p (List.mem_append_left _ hp))⟩
    · obtain ⟨y, hy, rfl⟩ := List.mem_map.1 hx
      obtain ⟨ts, hts⟩ := (h.defaults y.2 (List.mem_map_of_mem hy)).enclosed
      exact ⟨_, .default (n := ⟨.name, y.1.name, .none⟩) (a := .of (.symbol .assign)) rfl rfl
        (h.bindable y.1 (List.mem_append_right _ (List.mem_map_of_mem hy))) rfl hts⟩
  obtain ⟨ts, hts⟩ := Separated.exists_of_all hitems
  exact ⟨_, .mk (o := .of (.symbol .openParen)) (c := .of (.symbol .closeParen)) rfl rfl hts⟩

theorem ImportName.Shaped.spelled {n : ImportName} (h : n.Shaped) : ∃ ts, n.Spelled ts := by
  obtain ⟨name, localName⟩ := n
  cases localName with
  | none => exact ⟨_, .plain (n := ⟨.name, name, .none⟩) rfl rfl h.bindable h.isPublic⟩
  | some a =>
    exact ⟨_, .renamed (n := ⟨.name, name, .none⟩) (a := ⟨.name, Text.ofString "as", .none⟩)
      (m := ⟨.name, a, .none⟩) rfl rfl h.bindable h.isPublic rfl rfl rfl rfl (h.localBindable a rfl)⟩

theorem Expr.IsFilters.spelled : ∀ {f : Expr}, f.IsFilters → ∃ ts, f.SpelledFilters ts
  | .filter none n args s, h => by
    obtain ⟨ts, hts⟩ := Arguments.Shaped.writable h
    exact ⟨_, .first (n := ⟨.name, n, .none⟩) rfl rfl hts⟩
  | .filter (some f) n args s, h => by
    obtain ⟨ts, hts⟩ := Expr.IsFilters.spelled h.1
    obtain ⟨us, hus⟩ := h.2.writable
    exact ⟨_, .next (p := .of (.symbol .pipe)) (n := ⟨.name, n, .none⟩) rfl rfl rfl hts hus⟩

theorem Expr.SpelledTest.exists_of_shaped {o : Option Expr} (h : ∀ e ∈ o, e.Shaped .alone) :
    ∃ ts, Expr.SpelledTest o ts := by
  cases o with
  | none => exact ⟨[], .absent⟩
  | some e =>
    obtain ⟨ts, hts⟩ := (h e rfl).enclosed
    exact ⟨_, .present (i := .of (.keyword .ifTag)) rfl hts⟩

theorem Spelled.exists_inside {xs : List Stmt} (h : ∃ ts, Spelled (.body xs) ts) :
    ∃ ts, Spelled (.inside xs) ts := by
  obtain ⟨ts, hts⟩ := h
  exact ⟨_, .inside (e := .of .blockEnd) (b := .of .blockBegin) rfl rfl hts⟩

theorem Spelled.exists_otherwise (k : Keyword) {xs : List Stmt} (h : ∃ ts, Spelled (.body xs) ts) :
    ∃ ts, Spelled (.otherwise k xs) ts := by
  cases xs with
  | nil => exact ⟨_, .noElse (w := .of (.keyword k)) rfl⟩
  | cons x xs =>
    obtain ⟨ts, hts⟩ := exists_inside h
    exact ⟨_, .orElse (e := .of (.keyword .elseTag)) (w := .of (.keyword k)) nofun rfl rfl hts⟩

mutual

theorem Stmt.Shaped.spelled : ∀ {x : Stmt}, x.Shaped → ∃ ts, Spelled (.stmt x) ts
  | .output nodes s, h => by
    obtain ⟨ts, hts⟩ := Separated.exists_of_all fun e he => (h e he).enclosed
    exact ⟨_, .print (t := .of (.keyword .printTag)) rfl hts⟩
  | .assign target value s, h => by
    obtain ⟨e, he, hstored⟩ := h.1.stored
    obtain ⟨ts, hts⟩ := he.enclosed
    obtain ⟨us, hus⟩ := h.2.enclosed
    exact ⟨_, .assign (m := .of (.symbol .assign)) rfl hstored hts hus⟩
  | .loop target iter body elseBody test s, h => by
    obtain ⟨htarget, hiter, htest, hbody, helse⟩ := h
    obtain ⟨e, he, hstored⟩ := htarget.stored
    obtain ⟨ts, hts⟩ := he.enclosed
    obtain ⟨us, hus⟩ := hiter.enclosed
    obtain ⟨vs, hvs⟩ := Expr.SpelledTest.exists_of_shaped htest
    obtain ⟨ws, hws⟩ := Spelled.exists_inside (Stmt.AllShaped.spelled hbody)
    obtain ⟨zs, hzs⟩ := Spelled.exists_otherwise .endFor (Stmt.AllShaped.spelled helse)
    exact ⟨_, .loop (t := .of (.keyword .forTag)) (i := .of (.keyword .inOp)) rfl rfl hstored hts hus hvs hws hzs⟩
  | .branch test body elseBody s, h => by
    obtain ⟨htest, hbody, helse⟩ := h
    obtain ⟨ts, hts⟩ := htest.enclosed
    obtain ⟨us, hus⟩ := Spelled.exists_inside (Stmt.AllShaped.spelled hbody)
    obtain ⟨vs, hvs⟩ := Spelled.exists_otherwise .endIf (Stmt.AllShaped.spelled helse)
    exact ⟨_, .branch (t := .of (.keyword .ifTag)) rfl hts hus hvs⟩
  | .block name body s, h => by
    obtain ⟨ts, hts⟩ := Spelled.exists_inside (Stmt.AllShaped.spelled h)
    exact ⟨_, .block (t := .of (.keyword .blockTag)) (n := ⟨.name, name, .none⟩)
      (w := .of (.keyword .endBlock)) rfl rfl rfl rfl hts⟩
  | .extend template s, h => by
    obtain ⟨ts, hts⟩ := Expr.Shaped.enclosed h
    exact ⟨_, .extend (t := .of (.keyword .extendsTag)) rfl hts⟩
  | .embed template s, h => by
    obtain ⟨ts, hts⟩ := Expr.Shaped.enclosed h
    exact ⟨_, .embed (t := .of (.keyword .includeTag)) rfl hts⟩
  | .importAs template target s, h => by
    obtain ⟨ts, hts⟩ := h.1.enclosed
    exact ⟨_, .importAs (t := .of (.keyword .importTag)) (a := ⟨.name, Text.ofString "as", .none⟩)
      (n := ⟨.name, target, .none⟩) rfl rfl rfl rfl rfl h.2 hts⟩
  | .importNames template names s, h => by
    obtain ⟨ts, hts⟩ := h.1.enclosed
    obtain ⟨us, hus⟩ := Separated.exists_of_all fun n hn => (h.2 n hn).spelled
    exact ⟨_, .importNames (t := .of (.keyword .fromTag)) (i := .of (.keyword .importTag)) rfl rfl hts hus⟩
  | .define name signature body s, h => by
    obtain ⟨hname, hsignature, hbody⟩ := h
    obtain ⟨ts, hts⟩ := hsignature.spelled
    obtain ⟨us, hus⟩ := Spelled.exists_inside (Stmt.AllShaped.spelled hbody)
    exact ⟨_, .define (t := .of (.keyword .macroTag)) (n := ⟨.name, name, .none⟩)
      (w := .of (.keyword .endMacro)) rfl rfl rfl hname rfl hts hus⟩
  | .callBlock signature call body s, h => by
    obtain ⟨hsignature, hcall, ⟨callee, args, s', rfl⟩, hbody⟩ := h
    obtain ⟨ts, hts⟩ := hsignature.spelled
    obtain ⟨us, hus⟩ := hcall.enclosed
    obtain ⟨vs, hvs⟩ := Spelled.exists_inside (Stmt.AllShaped.spelled hbody)
    exact ⟨_, .callBlock (t := .of (.keyword .callTag)) (w := .of (.keyword .endCall)) rfl rfl hts hus hvs⟩
  | .filterBlock filter body s, h => by
    obtain ⟨hfilter, hbody⟩ := h
    obtain ⟨ts, hts⟩ := hfilter.spelled
    obtain ⟨us, hus⟩ := Spelled.exists_inside (Stmt.AllShaped.spelled hbody)
    exact ⟨_, .filterBlock (t := .of (.keyword .filterTag)) (w := .of (.keyword .endFilter)) rfl rfl hts hus⟩
  | .expr node s, h => by
    obtain ⟨ts, hts⟩ := Expr.Shaped.enclosed h
    exact ⟨_, .expr hts⟩
  | .breakLoop s, _ => ⟨_, .breakLoop (t := ⟨.name, Text.ofString "break", .none⟩) rfl rfl⟩
  | .continueLoop s, _ => ⟨_, .continueLoop (t := ⟨.name, Text.ofString "continue", .none⟩) rfl rfl⟩

theorem Stmt.AllShaped.spelled : ∀ {xs : List Stmt}, Stmt.AllShaped xs → ∃ ts, Spelled (.body xs) ts
  | [], _ => ⟨[], .empty⟩
  | x :: xs, h => by
    obtain ⟨ts, hts⟩ := Stmt.Shaped.spelled h.1
    obtain ⟨us, hus⟩ := Stmt.AllShaped.spelled h.2
    exact ⟨_, .more (b := .of .blockBegin) (e := .of .blockEnd) rfl rfl hts hus⟩

end

/-! ## Tags of extensions -/

namespace Extension

/-- Without a fault no tag is claimed twice. -/
theorem nodup_of_claimFault? {claimed claims : List (Text × Text)} (h : claimFault? claimed claims = none) :
    (claims.map (·.1)).Nodup ∧ ∀ tag ∈ claims.map (·.1), claimed.lookup tag = none := by
  induction claims generalizing claimed with
  | nil => exact ⟨.nil, nofun⟩
  | cons claim claims ih =>
    obtain ⟨tag, owner⟩ := claim
    rw [claimFault?] at h
    split at h
    · cases h
    · cases hlookup : claimed.lookup tag with
      | some first => rw [hlookup] at h; cases h
      | none =>
        rw [hlookup] at h
        obtain ⟨hnodup, hfresh⟩ := ih h
        rw [List.map_cons, List.nodup_cons]
        -- a tag that was claimed before would be found among the claims
        have hne : ∀ t ∈ claims.map (·.1), t ≠ tag := by
          rintro t ht rfl
          have := hfresh t ht
          rw [List.lookup_cons, beq_self_eq_true] at this
          cases this
        refine ⟨⟨fun hmem => hne tag hmem rfl, hnodup⟩, ?_⟩
        intro t ht
        rcases List.mem_cons.1 ht with rfl | ht
        · exact hlookup
        · have := hfresh t ht
          rwa [List.lookup_cons, beq_false_of_ne (hne t ht)] at this

/-- Tags that are claimed once are all in the table. -/
theorem table_eq {xs : List Extension} (h : fault? xs = none) :
    table xs = (xs.flatMap fun x => x.tags.map fun t => (t, x)) ∧ ((table xs).map (·.1)).Nodup := by
  have hfold (acc ys : List (Text × Extension)) (hnodup : ((acc ++ ys).map (·.1)).Nodup) :
      ys.foldl (fun acc y => if acc.any (·.1 == y.1) then acc else acc ++ [y]) acc = acc ++ ys := by
    induction ys generalizing acc with
    | nil => rw [List.append_nil]; rfl
    | cons y ys ih =>
      obtain ⟨t, x⟩ := y
      have hnew : acc.any (·.1 == t) = false := by
        rw [List.any_eq_false]
        intro z hz heq
        rw [List.map_append, List.nodup_append] at hnodup
        exact hnodup.2.2 z.1 (List.mem_map_of_mem hz) t (.head _) (eq_of_beq heq)
      rw [List.foldl_cons]
      simp only [hnew, Bool.false_eq_true, if_false]
      rw [ih _ (by rw [List.append_assoc]; exact hnodup), List.append_assoc]
      rfl
  have hclaims : (xs.flatMap fun x => x.tags.map fun t => (t, x)).map (·.1) = (claims xs).map (·.1) := by
    simp only [claims, List.map_flatMap, List.map_map, Function.comp_def]
  have hnodup := (nodup_of_claimFault? h).1
  rw [← hclaims] at hnodup
  have htable : table xs = xs.flatMap fun x => x.tags.map fun t => (t, x) := hfold [] _ hnodup
  rw [htable]
  exact ⟨rfl, hnodup⟩

theorem find?_of_nodup {claims : List (Text × Extension)} (hnodup : (claims.map (·.1)).Nodup) {tag : Text}
    {x : Extension} (h : (tag, x) ∈ claims) : claims.find? (·.1 == tag) = some (tag, x) := by
  induction claims with
  | nil => cases h
  | cons claim claims ih =>
    rw [List.map_cons, List.nodup_cons] at hnodup
    rcases List.mem_cons.1 h with rfl | h
    · exact List.find?_cons_of_pos (beq_self_eq_true _)
    · have hne : claim.1 ≠ tag := by
        rintro rfl
        exact hnodup.1 (List.mem_map.2 ⟨_, h, rfl⟩)
      rw [List.find?_cons_of_neg (by rw [beq_false_of_ne hne]; nofun), ih hnodup.2 h]

/-- An extension is found by each of its tags. -/
theorem find?_of_mem {xs : List Extension} (h : fault? xs = none) {x : Extension} (hx : x ∈ xs) {tag : Text}
    (ht : tag ∈ x.tags) : find? xs tag = some x := by
  obtain ⟨htable, hnodup⟩ := table_eq h
  have hmem : (tag, x) ∈ table xs := by
    rw [htable]
    exact List.mem_flatMap.2 ⟨x, hx, List.mem_map.2 ⟨tag, ht, rfl⟩⟩
  rw [find?, find?_of_nodup hnodup hmem, Option.map_some]

end Extension

/-! ## Templates -/

/-- At the end of the stream a body is over. -/
theorem Grammar.Gives.contentLast {find : Text → Option Extension} {s : Stream} {pos : Nat}
    (hk : (s.get pos).kind = .eof) : Gives find s (.content none []) pos [] pos := by
  intro n hn
  obtain ⟨n, rfl⟩ : ∃ k, n = k + 1 := ⟨n - 1, by omega⟩
  show (Parser.current >>= fun token => _) s pos = _
  rw [Parser.current_bind]
  simp only [hk]
  rfl

theorem Spelled.template {find : Text → Option Extension} {s : Stream} {xs : List Stmt} {ts : List Token}
    (h : Spelled (.body xs) ts) (hs : s.Holds ts)
    (hloops : Stmt.AnyHasLoopControl xs → find (Text.ofString "break") = some Extension.loopControls ∧
      find (Text.ofString "continue") = some Extension.loopControls) :
    ∃ t : Template, t.body.map Stmt.bare = xs.map Stmt.bare ∧
      Grammar.ofExtensions find .template s 0 = .ok t ts.length := by
  obtain ⟨t, -, hat⟩ := hs.at
  have hend : Grammar.Gives find s (.content none []) (0 + ts.length) [] ts.length := by
    rw [Nat.zero_add]
    exact .contentLast hs.get_length
  obtain ⟨xs', hxs', hbody⟩ := h.read hs.last hloops none 0 [t] _ (List.nil_subset _) hat nofun hend
  refine ⟨⟨xs', ⟨.origin, (s.get ts.length).span.finish⟩⟩, hxs', ?_⟩
  have htemplate : Grammar.Gives find s .template 0 ⟨xs', ⟨.origin, (s.get ts.length).span.finish⟩⟩ ts.length := by
    intro n hn
    obtain ⟨n, rfl⟩ : ∃ k, n = k + 1 := ⟨n - 1, by omega⟩
    exact Parser.bind_ok (hbody n (by change _ + 1 < _ at hn; show _ + 0 < _; omega)) _
  exact htemplate.grammar

/-- Every list of statements of documented shapes can be written, and whatever tokens write it, the grammar of
every environment reads it from them, up to spans, and to the last of them. Only statements for loops ask for the
extension that has their tags. -/
theorem Environment.template_recovered (env : Environment) {body : List Stmt} (hbody : Stmt.AllShaped body)
    (hloops : Stmt.AnyHasLoopControl body → Extension.loopControls ∈ env.extensions) :
    (∃ ts, Spelled (.body body) ts) ∧ ∀ ts s, Spelled (.body body) ts → Stream.Holds s ts →
      ∃ t : Template, t.body.map Stmt.bare = body.map Stmt.bare ∧
        env.grammar .template s 0 = .ok t ts.length := by
  constructor
  · exact hbody.spelled
  · intro ts s h hs
    exact h.template hs fun hcontrol => ⟨Extension.find?_of_mem env.unclaimed (hloops hcontrol) (.head _),
      Extension.find?_of_mem env.unclaimed (hloops hcontrol) (.tail _ (.head _))⟩

/-- A loop that is left at once. -/
theorem Environment.template_recovered_loop :
    let x := Text.ofString "x"
    let xs := Text.ofString "xs"
    let enclosed (n : Text) : List Token := [.of (.symbol .openParen), .named n, .of (.symbol .closeParen)]
    let opened : List Token :=
      .of .blockBegin :: .of (.keyword .forTag) :: enclosed x ++ .of (.keyword .inOp) :: enclosed xs
    let inner : List Token := [.of .blockEnd, .of .blockBegin, .named (Text.ofString "break"), .of .blockEnd]
    let closed : List Token := [.of .blockBegin, .of (.keyword .endFor), .of .blockEnd]
    ∃ t : Template, t.body.map Stmt.bare =
        [.loop (.name x .store .none) (.name xs .load .none) [.breakLoop .none] [] none .none] ∧
      Environment.withLoopControls.grammar .template (Stream.holding (opened ++ inner ++ closed)) 0 = .ok t 16 := by
  intro x xs enclosed opened inner closed
  have hname (n : Text) (h : Constant.ofName? n = none) : Enclosed (.name n .load .none) (enclosed n) :=
    ⟨.parens (o := .of (.symbol .openParen)) (c := .of (.symbol .closeParen)) rfl rfl
      ((Written.name (t := .named n) rfl rfl h).loosen (Level.rank_le_cond _)), _, _, rfl, rfl⟩
  have hbreak : Spelled (.body [.breakLoop .none]) [_, _, _] :=
    .more (b := .of .blockBegin) (e := .of .blockEnd) rfl rfl
      (.breakLoop (t := .named (Text.ofString "break")) rfl rfl) .empty
  have hloop :
      Spelled (.stmt (.loop (.name x .store .none) (.name xs .load .none) [.breakLoop .none] [] none .none)) _ :=
    .loop (t := .of (.keyword .forTag)) (i := .of (.keyword .inOp)) rfl rfl rfl (hname x (by decide))
      (hname xs (by decide)) .absent (.inside (e := .of .blockEnd) (b := .of .blockBegin) rfl rfl hbreak)
      (.noElse (w := .of (.keyword .endFor)) rfl)
  have hbody := Spelled.more (b := .of .blockBegin) (e := .of .blockEnd) rfl rfl hloop .empty
  have hshaped : Stmt.AllShaped
      [.loop (.name x .store .none) (.name xs .load .none) [.breakLoop .none] [] none .none] :=
    ⟨⟨⟨rfl, by decide⟩, ⟨rfl, by decide⟩, nofun, ⟨trivial, trivial⟩, trivial⟩, trivial⟩
  exact (Environment.withLoopControls.template_recovered hshaped fun _ => .head _).2 _ _ hbody (Stream.holding_holds _)

end Stencil
