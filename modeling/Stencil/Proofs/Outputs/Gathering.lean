/-
Outputs gather what stands between tags. `Rule.Gathers` says of every rule for statements how the pieces of the
tokens that it reads are gathered in the outputs of what it gives; it holds of all that is composed
(`Composes.gathers`). What a rule for expressions reads has no pieces.
-/
import Stencil.Proofs.Leaves.Inside
import Stencil.Proofs.Outputs.Basic

namespace Stencil

open Stencil.Grammar Stencil.Stream Node

/-! ## Expressions and lists -/

section

variable {s : Stream} {pos p q a b : Nat}

/-- There are no pieces inside of tags. -/
theorem Stream.Inside.encloses (h : s.Inside a b) : s.Encloses a b [] :=
  .quiet h.1 fun i hi hi' => TokenKind.not_isPiece_of_inExpression (h.2 i hi hi')

/-- What is read behind a token that does not bind what follows it has no pieces. -/
theorem Derives.behind {ph : Phrase} {r : Rule ph} {t : ph.Tree} {k : TokenKind} (h : Derives s r (pos + 1) t q)
    (hf : s.Opens (pos + 1) → r.Follows s (pos + 1)) (hr : r.leaves = []) (hk : (s.get pos).kind = k)
    (hin : k.inExpression = true) (hb : k ∉ binding) : s.Encloses pos q [] :=
  (h.inside_behind hf hr hk hin hb).encloses

end

/-! ## Rules -/

/-- The outputs of branches: those of the bodies, and those of the last one. -/
def Branches.outputs (bs : Branches) : List (List Expr) :=
  bs.elifs.flatMap (fun b => bodyOutputs b.body) ++ bodyOutputs bs.elseBody

theorem nestBranches_outputs (stop : Location) (bs : Branches) : bodyOutputs (nestBranches stop bs) = bs.outputs := by
  obtain ⟨elifs, elseBody⟩ := bs
  unfold nestBranches Branches.outputs
  simp only
  induction elifs with
  | nil => rfl
  | cons b bs ih =>
    rw [List.foldr_cons, bodyOutputs_one, stmt_outputs, branchStmt, Stmt.inner, bodyOutputs_append, ih,
      List.flatMap_cons, List.append_assoc]
    rfl

/-- How a body gathers its pieces. What is pending goes into its first output; where it ends before the end of the
source, a tag has begun behind the last piece. -/
def Rule.GathersBody (s : Stream) (pos : Nat) (ss : List Stmt) (q : Nat) : Rule .body → Prop
  | .content ends pending => ∀ a, s.Pending a pos pending → s.Gathers a q (bodyOutputs ss) ∧
      ((s.get q).kind = .eof ∨ s.Sealed a q ∧ (s.get q).kind ∈ ends.getD [])
  | .statements ends _ => ends.all TokenKind.isKeyword = true → s.Encloses pos q (bodyOutputs ss)

/-- How a rule gathers the pieces that it reads in the outputs of what it gives. -/
def Rule.Gathers (s : Stream) (pos q : Nat) : {p : Phrase} → Rule p → p.Tree → Prop
  | .stmt, r, (st : Stmt) => (r = .print → s.Behind pos .blockBegin) → s.Encloses pos q (Node.stmt st).outputs
  | .splice, _, (sp : Splice) => s.Behind pos .blockBegin → s.Encloses pos q (bodyOutputs sp.toList)
  | .body, r, (ss : List Stmt) => r.GathersBody s pos ss q
  | .branches, _, (bs : Branches) => (s.get pos).kind ∈ branchEnds → s.Encloses pos q bs.outputs
  | .names, _, _ | .signature, _, _ => s.Encloses pos q []
  | .template, _, (t : Template) => s.Gathers pos q (bodyOutputs t.body) ∧ (s.get q).kind = .eof
  | _, _, _ => True

section

variable {s : Stream} {a b pos q : Nat}

/-- A statement that is no output itself has the outputs of the statements in it. -/
theorem Stream.Encloses.stmt {st : Stmt} (h : s.Encloses a b (bodyOutputs st.inner))
    (ho : (Node.stmt st).output? = none) : s.Encloses a b (Node.stmt st).outputs := by
  rw [stmt_outputs, ho]
  exact h

theorem Stream.Encloses.single {st : Stmt} (h : s.Encloses a b (Node.stmt st).outputs) :
    s.Encloses a b (bodyOutputs (Splice.one st).toList) := by
  rw [Splice.toList, bodyOutputs_one]
  exact h

/-- A body that ends with a word is enclosed: it has not come to the end of the source. -/
theorem Rule.GathersBody.encloses {ends : List TokenKind} {ss : List Stmt}
    (h : (Rule.content (some ends) []).GathersBody s pos ss q) (he : (s.get q).kind ∈ ends)
    (hends : ends.all TokenKind.isKeyword = true) :
    s.Encloses pos q (bodyOutputs ss) ∧ ∃ k, (s.get q).kind = .keyword k := by
  have hword := List.all_eq_true.1 hends _ he
  obtain ⟨hgathers, hend⟩ := h pos .nil
  generalize hk : (s.get q).kind = k at hword hend
  cases k with
  | keyword k =>
    rcases hend with heof | ⟨hsealed, -⟩
    · cases heof
    · exact ⟨⟨hgathers, hsealed⟩, k, rfl⟩
  | _ => cases hword

end

/-- What is composed gathers its pieces, if data is never empty. -/
theorem Composes.gathers {s : Stream} (hdata : ∀ i, (s.get i).kind = .data → (s.get i).value ≠ []) {p : Phrase}
    {r : Rule p} {pos q : Nat} {t : p.Tree} (h : Composes s s.reads r pos t q) : r.Gathers s pos q t := by
  induction h with
  | keyword _ _ _ ih => exact fun hbegin => .single (ih fun _ => hbegin)
  | simple h _ =>
    rintro ⟨i, rfl, hbegin⟩
    exact .single (.stmt (h.1.isInside (opens_succ hbegin (by decide)) rfl).encloses rfl)
  | assignment h _ ih =>
    rintro ⟨i, rfl, hbegin⟩
    exact .single ((h.1.isInside (opens_succ hbegin (by decide)) rfl).encloses.append (ih nofun))
  | doStatement hk h => exact fun _ => .single (.stmt (h.1.behind id rfl hk rfl (by decide)) rfl)
  | breakLoop hk => exact fun _ => .single (.stmt (.one hk rfl) rfl)
  | continueLoop hk => exact fun _ => .single (.stmt (.one hk rfl) rfl)
  | assign ha _ h => exact fun _ => .stmt (h.1.behind id rfl ha rfl (by decide)) rfl
  | @statements ends dropEnd pos p body q hc hb _ he ih =>
    intro hends
    have hcontent : (Rule.content (some ends) []).GathersBody s (p + 1) body q := ih
    obtain ⟨hbody, k, hk⟩ := hcontent.encloses he hends
    have hcolon : s.Encloses pos p [] := by
      rcases hc with rfl | ⟨hcolon, rfl⟩
      · exact .nil
      · exact .one hcolon rfl
    have hwhole : s.Encloses pos q (bodyOutputs body) := hcolon.append (.cons hb rfl hbody)
    cases dropEnd with
    | false => exact hwhole
    | true =>
      rw [if_pos rfl, Stream.next_of_ne (by rw [hk]; exact TokenKind.noConfusion)]
      exact hwhole.snoc hk rfl
  | data hk _ ih => exact fun a ha => ih a (ha.data hk (hdata _ hk))
  | interpolation hk h hv _ ih =>
    intro a ha
    have hin := h.1.isInside (opens_succ hk (by decide)) rfl
    exact ih a (ha.interpolation hk h.1 (h.2 trivial).2 hv hin.1 hin.2)
  | endTag hk he =>
    intro a ha
    have hdone := ha.encloses hk
    exact ⟨hdone.gathers, .inr ⟨hdone.isSealed, he⟩⟩
  | @tag ends pending pos splice p rest q hk _ _ hb _ ih ihr =>
    intro a ha
    -- the pending pieces end at the begin of the tag, and the statement at its end
    have hdone := ha.encloses hk
    have hstatement : s.Encloses (pos + 1) (p + 1) (bodyOutputs splice.toList) :=
      (ih (behind_succ.2 hk)).snoc hb rfl
    have hbefore := hdone.append hstatement
    obtain ⟨hrest, hend⟩ := ihr (p + 1) .nil
    rw [bodyOutputs_append, bodyOutputs_append]
    refine ⟨hbefore.gathers.append hbefore.isSealed hrest, hend.imp_right fun ⟨hsealed, he⟩ => ⟨?_, he⟩⟩
    exact hbefore.isSealed.append hsealed hbefore.le hrest.le
  | sourceEnd hk => exact fun a ha => ⟨ha.gathers, .inl hk⟩
  | template _ ih =>
    obtain ⟨hgathers, hend⟩ := ih _ .nil
    exact ⟨hgathers, hend.resolve_right fun h => List.not_mem_nil h.2⟩
  | loop hh _ he ih =>
    refine fun _ => .stmt ?_ rfl
    rw [Stmt.inner, List.append_nil]
    exact (hh.isInside.encloses.append (ih rfl)).snoc he rfl
  | loopElse hh _ he _ ih ihe =>
    refine fun _ => .stmt ?_ rfl
    rw [Stmt.inner, bodyOutputs_append]
    exact (hh.isInside.encloses.append (ih rfl)).append (.cons he rfl (ihe rfl))
  | conditional hk ht hb _ ih ihr =>
    refine fun _ => .stmt ?_ rfl
    rw [branchStmt, Stmt.inner, bodyOutputs_append, nestBranches_outputs]
    exact ((ht.1.behind id rfl hk rfl (by decide)).append (ih rfl)).append (ihr hb.ends_mem)
  | elifBranch hk ht hb _ ih ihr =>
    intro _
    unfold Branches.outputs
    rw [List.flatMap_cons, List.append_assoc]
    exact (ht.1.behind id rfl hk rfl (by decide)).append ((ih rfl).append (ihr hb.ends_mem))
  | elseBranch hk _ ih => exact fun _ => .cons hk rfl (ih rfl)
  | noBranch hi he =>
    intro hmem
    simp only [branchEnds, List.mem_cons, List.not_mem_nil, or_false, hi, he, false_or] at hmem
    rw [Stream.next_of_ne (by rw [hmem]; exact TokenKind.noConfusion)]
    exact .one hmem rfl
  | block hk hn _ ih => exact fun _ => .stmt (.cons hk rfl (.cons hn rfl (ih rfl))) rfl
  | extend hk h => exact fun _ => .stmt (h.1.behind id rfl hk rfl (by decide)) rfl
  | embed hk h => exact fun _ => .stmt (h.1.behind id rfl hk rfl (by decide)) rfl
  | importAs hk h ha hb =>
    exact fun _ => .stmt (((h.1.behind id rfl hk rfl (by decide)).snoc ha.1 rfl).further hb.isInside.encloses) rfl
  | importNames hk h hi _ hq ih =>
    have hnames := ((h.1.behind id rfl hk rfl (by decide)).snoc hi rfl).further ih
    rcases hq with rfl | ⟨hcomma, rfl⟩
    · exact fun _ => .stmt hnames rfl
    · exact fun _ => .stmt (hnames.snoc hcomma rfl) rfl
  | nameNone hp _ => exact hp.isInside.encloses
  | nameLast hp hn _ => exact (hp.isInside.append hn.isInside).encloses
  | nameMore hp hn _ _ ih => exact (hp.isInside.append hn.isInside).encloses.further ih
  | @print pos es q hk h =>
    -- an output that no piece stands in
    intro hbegin
    show s.Encloses pos q (Node.stmt (.output es _)).outputs
    rw [output_outputs]
    exact .print (h.1.behind (fun ho _ => ho) rfl hk rfl (by decide)) (.print ⟨hk, hbegin rfl, h.1, (h.2 trivial).2⟩)
  | signature ho _ hc ih => exact (Stream.Encloses.cons ho rfl ih).snoc hc rfl
  | signatureEnd => exact .nil
  | required hp hb _ _ ih => exact (hp.isInside.append hb.isInside).encloses.further ih
  | optional hp hb hd he _ ih =>
    exact ((hp.isInside.append hb.isInside).encloses.further (he.1.behind id rfl hd rfl (by decide))).further ih
  | define hk hb _ _ ihs ih =>
    exact fun _ => .stmt (.cons hk rfl (hb.isInside.encloses.append (Stream.Encloses.append ihs (ih rfl)))) rfl
  | @callBlock pos sig p callee args span p' body q hk hs hs' he _ ihs ih =>
    -- the call stands behind the signature, or behind the word if there is none
    have hsig : s.Encloses pos p [] ∧ s.Opens p := by
      by_cases hopen : (s.get (pos + 1)).kind = .symbol .openParen
      · refine ⟨.cons hk rfl (ihs hopen), ?_⟩
        cases hs hopen with
        | signature _ _ hc => exact opens_succ hc (by decide)
      · obtain ⟨-, rfl⟩ := hs' hopen
        exact ⟨.one hk rfl, opens_succ hk (by decide)⟩
    have hcall := (he.1.isInside hsig.2 rfl).encloses
    exact fun _ => .stmt (hsig.1.append (hcall.append (ih rfl))) rfl
  | filterBlock hk he _ ih =>
    have hfilter := he.1.isInside (.inr (behind_succ.2 hk)) rfl
    exact fun _ => .stmt (.cons hk rfl (hfilter.encloses.append (ih rfl))) rfl

end Stencil
