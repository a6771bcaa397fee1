/-
The parameters of a macro or call block. Whatever parameters stand between the parentheses, they are read just if their
names can be bound and no one without a default stands behind one with a default; the defaults are then those of the
last parameters (`signature_exact`).
-/
import Stencil.Proofs.Context.Elsewhere
import Stencil.Proofs.Lists.Basic
import Stencil.Proofs.Writing.Tag

namespace Stencil

open Stencil.Parser

/-! ## Parameters in their order -/

namespace Signature

variable {acc : Signature} {xs : List (Param × Option Expr)} {x : Param × Option Expr}

/-- No parameter without a default stands behind one with a default. -/
def InOrder (xs : List (Param × Option Expr)) : Prop := xs.Pairwise fun x y => x.2.isSome → y.2.isSome

theorem params_foldl_add : (xs.foldl add acc).params = acc.params ++ xs.map (·.1) := by
  induction xs generalizing acc with
  | nil => exact (List.append_nil _).symm
  | cons x xs ih => rw [List.foldl_cons, ih, add, List.append_assoc]; rfl

theorem defaults_foldl_add : (xs.foldl add acc).defaults = acc.defaults ++ xs.filterMap (·.2) := by
  induction xs generalizing acc with
  | nil => exact (List.append_nil _).symm
  | cons x xs ih =>
    obtain ⟨p, o⟩ := x
    rw [List.foldl_cons, ih, add, List.append_assoc]
    cases o <;> rfl

theorem foldl_add_empty : xs.foldl add ⟨[], []⟩ = ⟨xs.map (·.1), xs.filterMap (·.2)⟩ := by
  have hp := @params_foldl_add ⟨[], []⟩ xs
  have hd := @defaults_foldl_add ⟨[], []⟩ xs
  rw [List.nil_append] at hp hd
  rw [← hp, ← hd]

theorem inOrder_cons : InOrder (x :: xs) ↔ (x.2.isSome → ∀ y ∈ xs, y.2.isSome) ∧ InOrder xs := by
  rw [InOrder, List.pairwise_cons]
  exact and_congr_left' ⟨fun h hx y hy => h y hy hx, fun h y hy hx => h hx y hy⟩

/-- Parameters may follow a signature just if they are in order, and all have defaults if one there has. -/
theorem allowsAll_iff : acc.AllowsAll xs ↔ (acc.defaults ≠ [] → ∀ x ∈ xs, x.2.isSome) ∧ InOrder xs := by
  induction xs generalizing acc with
  | nil => exact ⟨fun _ => ⟨nofun, .nil⟩, fun _ => trivial⟩
  | cons x xs ih =>
    obtain ⟨p, o⟩ := x
    rw [AllowsAll, ih, inOrder_cons, List.forall_mem_cons]
    cases o with
    | none =>
      by_cases hd : acc.defaults = [] <;> simp [add, hd]
    | some e => simp [add]; tauto

/-- Parameters are in order just if those without defaults stand before those with defaults. -/
theorem inOrder_iff : InOrder xs ↔ ∃ plain given, xs = items plain given := by
  constructor
  · intro h
    induction xs with
    | nil => exact ⟨[], [], rfl⟩
    | cons x xs ih =>
      obtain ⟨p, o⟩ := x
      obtain ⟨hx, h⟩ := List.pairwise_cons.1 h
      obtain ⟨plain, given, rfl⟩ := ih h
      cases o with
      | none => exact ⟨p :: plain, given, rfl⟩
      | some e =>
        cases plain with
        | nil => exact ⟨[], (p, e) :: given, rfl⟩
        | cons p' plain => exact absurd (hx _ (.head _) rfl) nofun
  · rintro ⟨plain, given, rfl⟩
    exact (allowsAll_iff.1 (allowsAll_parameters plain given []).1).2

/-- The defaults of parameters in order are those of the last ones. -/
theorem InOrder.aligned (h : InOrder xs) {i : Nat} (hi : i < (xs.filterMap (·.2)).length) :
    ∃ p, xs[(xs.map (·.1)).length - (xs.filterMap (·.2)).length + i]? = some (p, some (xs.filterMap (·.2))[i]) := by
  obtain ⟨plain, given, rfl⟩ := inOrder_iff.1 h
  have hgiven : (items plain given).filterMap (·.2) = given.map (·.2) := by
    have hnone : (plain.map fun p => (p, (none : Option Expr))).filterMap (·.2) = [] := by
      rw [List.filterMap_map]
      exact List.filterMap_eq_nil_iff.2 fun _ _ => rfl
    have hsome : (given.map fun x => (x.1, some x.2)).filterMap (·.2) = given.map (·.2) := by
      rw [List.filterMap_map]
      exact congrFun List.filterMap_eq_map given
    rw [items, List.filterMap_append, hnone, hsome, List.nil_append]
  simp only [hgiven] at hi ⊢
  have hindex : ((items plain given).map (·.1)).length - (given.map (·.2)).length + i = plain.length + i := by
    simp only [items, List.length_map, List.length_append]
    omega
  rw [List.length_map] at hi
  refine ⟨given[i].1, ?_⟩
  rw [hindex]
  unfold items
  rw [List.getElem?_append_right (by simp), List.length_map, Nat.add_sub_cancel_left,
    List.getElem?_map, List.getElem?_eq_getElem hi, List.getElem_map]
  rfl

end Signature

/-! ## Parameters in place -/

/-- The parameter stands from one position up to another: a name, and the default behind it if there is one. -/
inductive Param.Stands (g : Grammar) (s : Stream) (pos : Nat) : Param × Option Expr → Nat → Prop
  | plain (hk : (s.get pos).kind = .name) :
      Stands g s pos (⟨(s.get pos).value, (s.get pos).span⟩, none) (pos + 1)
  | default {e q} (hk : (s.get pos).kind = .name) (ha : (s.get (pos + 1)).kind = .symbol .assign)
      (h : g (.expression true) s (pos + 2) = .ok e q) :
      Stands g s pos (⟨(s.get pos).value, (s.get pos).span⟩, some e) q

/-- A parameter that lacks a default is reported by its name where it stands. -/
def Stream.undefaulted (s : Stream) (p : Param) : Failure :=
  .reported (.report .parameterOrder [("name", .string p.name)] p.span.start s.filename)

namespace Grammar

variable {g : Grammar} {find : Text → Option Extension} {s : Stream} {statements : Prop}
variable {acc : Signature} {x : Param × Option Expr} {start pos q : Nat}

theorem bindable_refuses (hk : (s.get pos).kind = .name) (hb : canBind (s.get pos).value ≠ true) :
    ∃ e p, bindable s pos = .fail e p := by
  unfold bindable
  rw [expect_bind hk nofun, if_neg hb]
  exact ⟨_, _, rfl⟩

/-- The default of a parameter is read if there is one; if there is none, no parameter before it may have one. -/
theorem default?_eq (acc : Signature) (h : Param.Stands g s pos x q) (hq : (s.get q).kind ≠ .symbol .assign) :
    default? g (s.get pos) acc.defaults s (pos + 1) =
      if x.2 = none → acc.defaults = [] then .ok (acc.add x).defaults q
      else .fail (s.undefaulted x.1) (pos + 1) := by
  unfold default?
  cases h with
  | plain hk =>
    refine (check_no (fun ha => hq (List.mem_singleton.1 ha)) _ _).trans ?_
    by_cases hd : acc.defaults = []
    · rw [if_pos (List.isEmpty_iff.2 hd), if_pos fun _ => hd]
      simp only [Signature.add, Option.toList_none, List.append_nil]
      rfl
    · rw [if_neg (mt List.isEmpty_iff.1 hd), if_neg fun h => hd (h rfl)]
      rfl
  | default hk ha h =>
    refine Eq.trans ?_ (if_pos fun hnone => absurd hnone (Option.some_ne_none _)).symm
    refine (check_yes (List.mem_singleton.2 ha) _ _).trans ?_
    rw [advance_bind (by rw [ha]; decide), bind_ok h]
    rfl

theorem name_of_stands (h : Param.Stands g s pos x q) :
    (s.get pos).kind = .name ∧ x.1 = ⟨(s.get pos).value, (s.get pos).span⟩ := by
  cases h with
  | plain hk => exact ⟨hk, rfl⟩
  | default hk => exact ⟨hk, rfl⟩

/-- A parameter whose name can be bound is added to those before it, or missed a default. -/
theorem signatureRest_of_stands (hg : g.Solves find s statements) (henter : s.Enters acc.params.isEmpty start pos)
    (h : Param.Stands g s pos x q) (hq : (s.get q).kind ≠ .symbol .assign) (hb : canBind x.1.name = true) :
    g (.signatureRest acc) s start = if x.2 = none → acc.defaults = [] then g (.signatureRest (acc.add x)) s q
      else .fail (s.undefaulted x.1) (pos + 1) := by
  obtain ⟨hk, hx⟩ := name_of_stands h
  have hdefault := default?_eq acc h hq
  rw [hg.signatureRest_eq henter hk]
  rw [hx] at hb
  refine (bindable_bind hk hb _).trans ?_
  by_cases hallow : x.2 = none → acc.defaults = []
  · rw [if_pos hallow] at hdefault ⊢
    rw [bind_ok hdefault, ← hx]
    rfl
  · rw [if_neg hallow] at hdefault ⊢
    exact bind_eq_fail.2 (.inl hdefault)

/-- The parameters up to the closing parenthesis: all of them are added if their names can be bound and they may follow
those before; otherwise they are refused, and the first of them that lacks a default is reported if all names can be
bound. -/
theorem signatureRest_of_listed (acc : Signature) (hg : g.Solves find s statements) {xs : List (Param × Option Expr)}
    (h : s.Listed (Param.Stands g s) acc.params.isEmpty xs start q)
    (hclose : (s.get q).kind = .symbol .closeParen) :
    ((∀ x ∈ xs, canBind x.1.name = true) ∧ acc.AllowsAll xs →
      g (.signatureRest acc) s start = .ok (xs.foldl Signature.add acc) q) ∧
    (¬((∀ x ∈ xs, canBind x.1.name = true) ∧ acc.AllowsAll xs) →
      ∃ e p, g (.signatureRest acc) s start = .fail e p ∧ ((∀ x ∈ xs, canBind x.1.name = true) →
        ∃ before x after, xs = before ++ x :: after ∧ acc.AllowsAll before ∧ x.2 = none ∧
          (before.foldl Signature.add acc).defaults ≠ [] ∧ e = s.undefaulted x.1)) := by
  generalize hfirst : acc.params.isEmpty = first at h
  induction h generalizing acc with
  | @nil first pos =>
    refine ⟨fun _ => ?_, fun h => absurd ⟨nofun, trivial⟩ h⟩
    rw [hg (.signatureRest acc) pos nofun]
    exact check_yes (List.mem_singleton.2 hclose) _ _
  | @cons first start pos x m xs stop hp hx hxs ih =>
    have hassign : (s.get m).kind ≠ .symbol .assign :=
      hxs.behind (P := (· ≠ .symbol .assign)) nofun (by rw [hclose]; nofun)
    by_cases hb : canBind x.1.name = true
    · have hstep := signatureRest_of_stands hg (hfirst ▸ hp) hx hassign hb
      rw [hstep, List.forall_mem_cons, and_iff_right hb]
      by_cases hallow : x.2 = none → acc.defaults = []
      · rw [if_pos hallow, Signature.AllowsAll, and_iff_right hallow]
        obtain ⟨hread, hrefused⟩ := ih (acc.add x) hclose (by simp [Signature.add])
        refine ⟨hread, fun h => ?_⟩
        obtain ⟨e, p, hfail, hfirst⟩ := hrefused h
        refine ⟨e, p, hfail, fun hall => ?_⟩
        obtain ⟨before, y, after, rfl, hbefore, hy⟩ := hfirst hall
        exact ⟨x :: before, y, after, rfl, ⟨hallow, hbefore⟩, hy⟩
      · rw [if_neg hallow]
        refine ⟨fun h => absurd h.2.1 hallow, fun _ => ⟨_, _, rfl, fun _ => ⟨[], x, xs, rfl, trivial, ?_⟩⟩⟩
        obtain ⟨hnone, hdefaults⟩ := Classical.not_imp.1 hallow
        exact ⟨hnone, hdefaults, rfl⟩
    · obtain ⟨hk, hname⟩ := name_of_stands hx
      refine ⟨fun h => absurd (h.1 x (.head _)) hb, fun _ => ?_⟩
      obtain ⟨e, p, hfail⟩ := bindable_refuses hk (by rwa [hname] at hb)
      refine ⟨e, p, ?_, fun h => absurd (h x (.head _)) hb⟩
      rw [hg.signatureRest_eq (hfirst ▸ hp) hk]
      exact bind_eq_fail.2 (.inl hfail)

end Grammar

/-! ## The parameters of a macro or call block -/

/-- Parameters between parentheses, with commas between them, are read just if their names can be bound and no one
without a default stands behind one with a default. What is read are the names in their order, in a place where they
are parameters, and the defaults of the last of them. If only the order is broken, the first parameter is reported
that lacks a default. -/
theorem Environment.signature_exact (env : Environment) {s : Stream} (hlast : s.last.kind = .eof) {pos q : Nat}
    {items : List (Param × Option Expr)} (hopen : (s.get pos).kind = .symbol .openParen)
    (hitems : s.Listed (Param.Stands env.grammar s) true items (pos + 1) q)
    (hclose : (s.get q).kind = .symbol .closeParen) :
    (∀ sig r, env.grammar .signature s pos = .ok sig r ↔
      ((∀ x ∈ items, canBind x.1.name = true) ∧ Signature.InOrder items) ∧
        sig = ⟨items.map (·.1), items.filterMap (·.2)⟩ ∧ r = q + 1) ∧
    (∀ sig r, env.grammar .signature s pos = .ok sig r →
      sig.params.map Param.expr = items.map (fun x => .name x.1.name .param x.1.span) ∧
      ∀ i (hi : i < sig.defaults.length), ∃ p, sig.params[sig.params.length - sig.defaults.length + i]? = some p ∧
        items[sig.params.length - sig.defaults.length + i]? = some (p, some sig.defaults[i])) ∧
    ((∀ x ∈ items, canBind x.1.name = true) → ¬Signature.InOrder items →
      ∃ before x after p, items = before ++ x :: after ∧ Signature.InOrder before ∧ (∃ y ∈ before, y.2.isSome) ∧
        x.2 = none ∧ env.grammar .signature s pos =
          .fail (.reported (.report .parameterOrder [("name", .string x.1.name)] x.1.span.start s.filename)) p) := by
  have hg : env.grammar.Solves (Extension.find? env.extensions) s _ := Grammar.ofExtensions_solves hlast
  have hstep : env.grammar .signature s pos = (env.grammar (.signatureRest ⟨[], []⟩) >>= fun sig => do
      let _ ← expectSymbol .closeParen
      return sig) s (pos + 1) := (hg .signature pos nofun).trans (expect_bind hopen nofun _)
  have hallows {xs : List (Param × Option Expr)} : Signature.AllowsAll ⟨[], []⟩ xs ↔ Signature.InOrder xs :=
    Signature.allowsAll_iff.trans (and_iff_right fun h => absurd rfl h)
  obtain ⟨hread, hrefused⟩ := Grammar.signatureRest_of_listed ⟨[], []⟩ hg hitems hclose
  rw [hallows] at hread hrefused
  have hexact (sig : Signature) (r : Nat) : env.grammar .signature s pos = .ok sig r ↔
      ((∀ x ∈ items, canBind x.1.name = true) ∧ Signature.InOrder items) ∧
        sig = ⟨items.map (·.1), items.filterMap (·.2)⟩ ∧ r = q + 1 := by
    by_cases hall : (∀ x ∈ items, canBind x.1.name = true) ∧ Signature.InOrder items
    · rw [and_iff_right hall, hstep, bind_ok (hread hall), Signature.foldl_add_empty]
      refine (iff_of_eq (congrArg (· = _) (expect_bind hclose nofun _))).trans ?_
      rw [pure_eq_ok, @eq_comm _ sig, @eq_comm _ r]
    · obtain ⟨e, p, hfail, -⟩ := hrefused hall
      rw [hstep, bind_eq_fail.2 (.inl hfail)]
      exact iff_of_false nofun fun h => hall h.1
  refine ⟨hexact, fun sig r h => ?_, fun hbind horder => ?_⟩
  · obtain ⟨⟨-, horder⟩, rfl, -⟩ := (hexact sig r).1 h
    refine ⟨by simp [Param.expr], fun i hi => ?_⟩
    obtain ⟨p, hp⟩ := horder.aligned hi
    refine ⟨p, ?_, hp⟩
    rw [List.getElem?_map, hp]
    rfl
  · obtain ⟨e, p, hfail, hfirst⟩ := hrefused fun h => horder h.2
    obtain ⟨before, x, after, rfl, hbefore, hnone, hdefaults, rfl⟩ := hfirst hbind
    refine ⟨before, x, after, p, rfl, hallows.1 hbefore, ?_, hnone, ?_⟩
    · rw [Signature.defaults_foldl_add, List.nil_append] at hdefaults
      obtain ⟨e, he⟩ := List.exists_mem_of_ne_nil _ hdefaults
      obtain ⟨y, hy, hye⟩ := List.mem_filterMap.1 he
      exact ⟨y, hy, Option.isSome_iff_exists.2 ⟨e, hye⟩⟩
    · rw [hstep]
      exact bind_eq_fail.2 (.inl hfail)

/-- A parameter without a default is read before one with a default, and reported behind it. -/
theorem Environment.signature_exact_default :
    let word (n : String) := Token.named (Text.ofString n)
    let sign (x : Symbol) := Token.of (.symbol x)
    let ordered := Stream.holding [sign .openParen, word "a", sign .comma, word "b", sign .assign, word "c",
      sign .closeParen]
    let disordered := Stream.holding [sign .openParen, word "b", sign .assign, word "c", sign .comma, word "a",
      sign .closeParen]
    (∃ sig, standard.grammar .signature ordered 0 = .ok sig 7 ∧
      sig.params.map (·.name) = [Text.ofString "a", Text.ofString "b"] ∧ sig.defaults.length = 1) ∧
    ∃ p, standard.grammar .signature disordered 0 = .fail (.reported (.report .parameterOrder
      [("name", .string "a")] (disordered.get 5).span.start disordered.filename)) p := by
  intro word sign ordered disordered
  constructor
  · obtain ⟨e, he⟩ : ∃ e, standard.grammar (.expression true) ordered 5 = .ok e 6 :=
      Reply.exists_ok_of_meets (by decide +kernel)
    have hexact := (@signature_exact standard ordered (Stream.holding_holds _).last 0 6 _ rfl
      (.cons rfl (.plain rfl) (.cons ⟨rfl, rfl⟩ (.default rfl rfl he) .nil)) rfl).1
    refine ⟨_, (hexact _ _).2 ⟨⟨?_, ?_⟩, rfl, rfl⟩, rfl, rfl⟩
    · exact List.forall_mem_cons.2 ⟨rfl, List.forall_mem_singleton.2 rfl⟩
    · exact Signature.inOrder_cons.2 ⟨nofun, Signature.inOrder_cons.2 ⟨fun _ => nofun, .nil⟩⟩
  · obtain ⟨e, he⟩ : ∃ e, standard.grammar (.expression true) disordered 3 = .ok e 4 :=
      Reply.exists_ok_of_meets (by decide +kernel)
    obtain ⟨before, x, after, p, hsplit, -, ⟨y, hy, -⟩, hnone, hfail⟩ :=
      (@signature_exact standard disordered (Stream.holding_holds _).last 0 6 _ rfl
        (.cons rfl (.default rfl rfl he) (.cons ⟨rfl, rfl⟩ (.plain rfl) .nil)) rfl).2.2
      (List.forall_mem_cons.2 ⟨rfl, List.forall_mem_singleton.2 rfl⟩)
      fun h => absurd ((Signature.inOrder_cons.1 h).1 rfl _ (.head _)) nofun
    refine ⟨p, ?_⟩
    obtain _ | ⟨z, _ | ⟨z', zs⟩⟩ := before
    · cases hy
    · cases hsplit
      exact hfail
    · simp at hsplit

end Stencil
