/-
Bodies elsewhere. A body that is read before one of the words that end it is read wherever its tokens stand before
any of these words, with the same statements up to spans: statements of the library do not come to the word, and at
the end of a body it is only asked whether the word is one of those (`Grammar.content_meets`). Statements of other
extensions may read a body alike everywhere for reasons of their own; `Environment.Body` says that they do.
-/
import Stencil.Proofs.Context.Edge
import Stencil.Proofs.Context.Elsewhere
import Stencil.Proofs.Writing.Body

namespace Stencil

open Stencil.Parser Grammar Parallel

variable {find : Text → Option Extension} {m : Parallel} {ends : List TokenKind} {n : Nat}

/-! ## Coming to the word -/

/-- Behind the horizon one of the words that end a body stands on both sides. -/
structure Parallel.Closing (m : Parallel) (ends : List TokenKind) : Prop where
  words : ends ⊆ TokenKind.closers
  left : (m.left.get (m.horizon + 1)).kind ∈ ends
  right : (m.right.get (m.horizon + 1 + m.offset)).kind ∈ ends

/-- Where a word stands that ends a body, no token of another kind can be expected. -/
theorem Parallel.Closing.expect_ne (hm : m.Closing ends) {α : Type} (k : TokenKind) (hk : k ∉ TokenKind.closers)
    (hne : k ≠ .eof) {f : Token → Parser α} (a : α) (q : Nat) :
    (expect k >>= f) m.left (m.horizon + 1) ≠ .ok a q := by
  intro hok
  obtain ⟨rfl, -⟩ := (expect_eq_ok hne).1 hok
  exact hk (hm.words hm.left)

/-- No body begins with a word that ends one. -/
theorem Parallel.Closing.content_ne (hm : m.Closing ends) (g : Grammar) (ends' : Option (List TokenKind))
    (pending : List Expr) (xs : List Stmt) (q : Nat) :
    content g ends' pending m.left (m.horizon + 1) ≠ .ok xs q := by
  intro hok
  unfold content at hok
  rw [current_bind] at hok
  have hword := hm.words hm.left
  generalize (m.left.get (m.horizon + 1)).kind = k at hok hword
  split at hok
  case h_5 => exact faultWith_ne_ok.1 hok
  all_goals exact absurd hword (by decide)

/-- A body is read alike up to the word that ends it. -/
theorem Grammar.content_meets (hx : FindsBuiltin find) (hm : m.Closing ends) (pending : List Expr) (pos : Nat) :
    m.Meets (List.map (Stmt.mapPlaces m.move)) (run find n (.content (some ends) pending))
      (run find n (.content (some ends) (pending.map (Expr.mapPlaces m.move)))) pos := by
  induction n generalizing pending pos with
  | zero => exact .fail fun _ _ => faultWith_ne_ok.1
  | succ n ih =>
    rcases Nat.lt_or_ge m.horizon pos with hlt | hle
    · intro xs q hok
      have hpos := ((run_carries_all hx (n + 1) (.content (some ends) pending)).of_ok hok).1
      refine ⟨hpos, fun hq => ?_⟩
      obtain rfl : pos = m.horizon + 1 := by omega
      exact absurd hok (hm.content_ne _ _ _ _ _)
    · show m.Meets _ (content (run find n) (some ends) pending)
        (content (run find n) (some ends) (pending.map (Expr.mapPlaces m.move))) pos
      unfold content
      refine .here hle ?_
      simp only [Token.kind_mapPlaces, Token.value_mapPlaces, Token.span_mapPlaces]
      generalize hk : (m.left.get pos).kind = k
      split
      case h_1 =>
        refine .past hk nofun ?_
        have hnext (piece : List Expr) := ih (pending ++ piece) (pos + 1)
        simp only [List.map_append] at hnext
        split <;> rename_i hv
        · simpa [hv] using hnext []
        · simpa [hv] using hnext [.const (.text (m.left.get pos).value) (m.left.get pos).span]
      case h_2 =>
        refine .past hk nofun ?_
        refine .within (run_carries_all hx n (.tuple (.expression true)))
          (fun _ => hm.expect_ne .variableEnd (by decide) nofun) fun e _ => .expect nofun fun _ => ?_
        have hnode := ih (pending ++ [e])
        rw [List.map_append] at hnode
        exact hnode _
      case h_3 =>
        refine .past hk nofun (.alike (fun hedge => ?_) fun ended _ _ => .ite Iff.rfl (fun _ => ?_) fun _ => ?_)
        · rw [hedge]
          exact (List.contains_iff_mem.2 hm.right).trans (List.contains_iff_mem.2 hm.left).symm
        · exact .pure (output_mapPlaces ..)
        · refine .within (run_carries_all hx n .statement)
            (fun _ => hm.expect_ne .blockEnd (by decide) nofun) fun splice _ => .expect nofun fun _ => ?_
          refine (ih [] _).bind fun rest _ => .pure ?_
          simp only [List.map_append, ← output_mapPlaces, ← toList_mapPlaces]
          rfl
      case h_4 => exact .pure (output_mapPlaces ..)
      case h_5 => exact .fail fun _ _ => faultWith_ne_ok.1

/-! ## Bodies that are read alike everywhere -/

/-- Wherever the tokens stand between the end of a tag and one that begins with the token and one of the words, they
are a body of these statements, up to spans. -/
def Environment.Body (env : Environment) (ends : List TokenKind) (ts : List Token) (opening : Token) (xs : List Stmt) :
    Prop :=
  ∀ ⦃s : Stream⦄ ⦃pos : Nat⦄ ⦃w : Token⦄, s.last.kind = .eof → s.Shows pos (ts ++ [opening, w]) → w.kind ∈ ends →
    ∃ xs', xs'.map Stmt.bare = xs.map Stmt.bare ∧
      Gives (Extension.find? env.extensions) s (.content (some ends) []) pos xs' (pos + ts.length + 1)

variable {env : Environment} {alone : Stream} {ts : List Token} {o w : Token} {xs : List Stmt}

/-- Tokens before a tag that ends a body run in parallel with the same tokens before another one. -/
theorem Parallel.exists_closing {s : Stream} {pos : Nat} {w' : Token} (hends : ends ⊆ TokenKind.closers)
    (ho : o.kind = .blockBegin) (hw : w.kind ∈ ends) (halone : alone.Holds (ts ++ [o, w])) (hw' : w'.kind ∈ ends)
    (hs : s.Shows pos (ts ++ [o, w'])) :
    ∃ m : Parallel, m.left = alone ∧ m.right = s.placeless ∧ m.offset = pos ∧ m.horizon = ts.length ∧
      m.Closing ends := by
  have hopening : alone.get ts.length = o := by
    rw [halone.get (by simp), List.getElem_append_right (Nat.le_refl _)]
    simp
  have hword : alone.get (ts.length + 1) = w := by
    rw [halone.get (by simp), List.getElem_append_right (by omega)]
    simp
  obtain ⟨hbody, htag⟩ := Stream.shows_append.1 hs
  rw [Stream.shows_cons, Stream.shows_singleton] at htag
  have hcontent : ∀ i ≤ ts.length, (s.get (i + pos)).content = (alone.get i).content := by
    have hfront : ts ++ [o] <+: ts ++ [o, w] := ⟨[w], by simp⟩
    intro i hi
    exact halone.content hfront (Stream.shows_append.2 ⟨hbody, Stream.shows_singleton.2 htag.1⟩) i
      (by rw [List.length_append, List.length_singleton]; omega)
  refine ⟨alone.showing s pos ts.length hcontent (by rw [hopening, ho]; nofun) (by rw [hopening, ho]; nofun),
    rfl, rfl, rfl, rfl, hends, ?_, ?_⟩
  · show (alone.get (ts.length + 1)).kind ∈ ends
    rwa [hword]
  · show (s.placeless.get (ts.length + 1 + pos)).kind ∈ ends
    have hindex : ts.length + 1 + pos = pos + ts.length + 1 := by omega
    rwa [Stream.get_placeless, Token.kind_mapPlaces, hindex, Stream.kind_of_content htag.2]

/-- With the extensions of the library a body that is read before one of the words is read alike everywhere. -/
theorem Environment.IsBuiltin.body (hb : env.IsBuiltin) (hends : ends ⊆ TokenKind.closers) (ho : o.kind = .blockBegin)
    (hw : w.kind ∈ ends) (halone : alone.Holds (ts ++ [o, w]))
    (hread : env.grammar (.content (some ends) []) alone 0 = .ok xs (ts.length + 1)) : env.Body ends ts o xs := by
  intro s pos w' hlast hs hw'
  obtain ⟨m, rfl, hright, rfl, hhorizon, hm⟩ := Parallel.exists_closing hends ho hw halone hw' hs
  -- the stream is longer than the tokens alone, and so its depth is deep enough for these
  have hlt : m.offset + ts.length + 1 < s.tokens.size - 1 := by
    have htag := (Stream.shows_append.1 hs).2
    rw [Stream.shows_cons, Stream.shows_singleton] at htag
    refine Stream.lt_last hlast ?_
    rw [Stream.kind_of_content htag.2]
    intro heof
    rw [heof] at hw'
    exact absurd (hends hw') (by decide)
  have hsize : m.left.tokens.size = ts.length + 3 := by rw [halone.size]; simp
  have hdeep : run (Extension.find? env.extensions) (depth s) (.content (some ends) []) m.left 0 =
      .ok xs (ts.length + 1) := by
    refine Eq.trans ((settles hb.orderlyTags halone.last _ (by omega)).deep _ ?_) hread
    have := Frame.rank_lt (.content (some ends) [])
    unfold depth
    omega
  have hplaceless := (content_meets hb.findsBuiltin hm [] 0 hdeep).2 (Nat.le_of_eq (by rw [hhorizon]))
  rw [hright] at hplaceless
  obtain ⟨xs', hxs', hplaces⟩ : ∃ xs', run (Extension.find? env.extensions) (depth s) (.content (some ends) []) s
      (0 + m.offset) = _ ∧ _ := run_of_placeless hb.findsBuiltin hplaceless
  have hindex : ts.length + 1 + m.offset = m.offset + ts.length + 1 := by omega
  rw [Nat.zero_add, hindex] at hxs'
  refine ⟨xs', ?_, .of_orderly hb.orderlyTags hlast (by omega) hxs'⟩
  have hbare (move : Location → Location) (ys : List Stmt) :
      (ys.map (Stmt.mapPlaces move)).map Stmt.bare = ys.map Stmt.bare := by
    rw [List.map_map]
    exact List.map_congr_left fun y _ => Stmt.bare_mapPlaces _ y
  rw [← hbare (fun _ => .origin) xs', ← hbare m.move xs]
  exact congrArg (List.map Stmt.bare) hplaces

/-! ## From tag to tag -/

/-- The tokens are consumed as a body of these statements, up to a tag that begins with the token and one of the words.
Statements of foreign extensions may look at whatever stands around them; then the tokens are so wherever they stand. -/
inductive Environment.ReadsBody (env : Environment) (ends : List TokenKind) (ts : List Token) (opening : Token)
    (xs : List Stmt) : Prop
  | alone {s : Stream} {w : Token} (hb : env.IsBuiltin) (hw : w.kind ∈ ends) (hs : s.Holds (ts ++ [opening, w]))
      (h : env.grammar (.content (some ends) []) s 0 = .ok xs (ts.length + 1))
  | everywhere (h : env.Body ends ts opening xs)

theorem Environment.ReadsBody.body (h : env.ReadsBody ends ts o xs) (hends : ends ⊆ TokenKind.closers)
    (ho : o.kind = .blockBegin) : env.Body ends ts o xs := by
  cases h with
  | alone hb hw hs h => exact hb.body hends ho hw hs h
  | everywhere h => exact h

/-- Whether tokens are consumed as a body can be evaluated. -/
theorem Environment.ReadsBody.of_check (hb : env.IsBuiltin) (hw : w.kind ∈ ends)
    (h : (env.grammar (.content (some ends) []) (Stream.holding (ts ++ [o, w])) 0).meets
      (fun _ q => q == ts.length + 1) = true) : ∃ xs, env.ReadsBody ends ts o xs := by
  obtain ⟨xs, q, hread, hq⟩ := Reply.exists_of_meets h
  rw [beq_iff_eq.1 hq] at hread
  exact ⟨xs, .alone hb hw (Stream.holding_holds _) hread⟩

/-- A body that is read alike everywhere, from the end of the tag before it on. -/
theorem Environment.Body.statements {s : Stream} {pos : Nat} {e : Token} (h : env.Body ends ts o xs)
    (hends : ends ⊆ TokenKind.closers) (hlast : s.last.kind = .eof) (he : e.kind = .blockEnd)
    (hs : s.Shows pos (e :: ts ++ [o, w])) (hw : w.kind ∈ ends) :
    ∃ xs', xs'.map Stmt.bare = xs.map Stmt.bare ∧
      Gives (Extension.find? env.extensions) s (.statements ends false) pos xs' (pos + ts.length + 2) ∧
      Gives (Extension.find? env.extensions) s (.statements ends true) pos xs' (pos + ts.length + 3) := by
  rw [List.cons_append, Stream.shows_cons] at hs
  obtain ⟨xs', hxs', hbody⟩ := h hlast hs.2 hw
  have hword : (s.get (pos + 1 + ts.length + 1)).kind ∈ ends := by
    have htag := (Stream.shows_append.1 hs.2).2
    rw [Stream.shows_cons, Stream.shows_singleton] at htag
    rwa [Stream.kind_of_content htag.2]
  have hend : (s.get pos).kind = .blockEnd := (Stream.kind_of_content hs.1).trans he
  have hpos : pos < s.tokens.size - 1 := Stream.lt_last hlast (by rw [hend]; nofun)
  have hstop : pos + 1 + ts.length + 1 = pos + ts.length + 2 := by omega
  rw [hstop] at hbody hword
  exact ⟨xs', hxs', Gives.statements hends hpos hend hbody hword⟩

end Stencil
