/-
The same tokens elsewhere. What a rule reads of tokens in one stream it reads of them in every stream that shows
them, wherever they stand there and whatever follows the token behind them: the same tree up to spans. For expressions
this holds under all extensions, for statements under those of the library.
-/
import Stencil.Proofs.Alone.Agreement
import Stencil.Proofs.Context.Depth
import Stencil.Proofs.Parallel.Placeless
import Stencil.Proofs.Writing.Recovery

namespace Stencil

/-! ## Tokens that a stream shows -/

namespace Stream

variable {s : Stream} {pos : Nat} {t : Token} {ts us : List Token}

/-- From the position on the stream has tokens of these kinds and values, wherever they are placed. -/
def Shows (s : Stream) (pos : Nat) (ts : List Token) : Prop :=
  ∀ (i : Nat) (hi : i < ts.length), (s.get (pos + i)).content = ts[i].content

theorem shows_append : s.Shows pos (ts ++ us) ↔ s.Shows pos ts ∧ s.Shows (pos + ts.length) us := by
  constructor
  · refine fun h => ⟨fun i hi => ?_, fun i hi => ?_⟩
    · have hget := h i (by rw [List.length_append]; omega)
      rwa [List.getElem_append_left hi] at hget
    · have hget := h (ts.length + i) (by rw [List.length_append]; omega)
      rw [List.getElem_append_right (Nat.le_add_right ..)] at hget
      simpa only [Nat.add_assoc, Nat.add_sub_cancel_left] using hget
  · rintro ⟨hts, hus⟩ i hi
    rw [List.length_append] at hi
    by_cases hlt : i < ts.length
    · rw [List.getElem_append_left hlt]
      exact hts i hlt
    · have hget := hus (i - ts.length) (by omega)
      have hindex : pos + ts.length + (i - ts.length) = pos + i := by omega
      rw [hindex] at hget
      rwa [List.getElem_append_right (Nat.le_of_not_lt hlt)]

theorem shows_singleton : s.Shows pos [t] ↔ (s.get pos).content = t.content := by
  constructor
  · exact fun h => h 0 Nat.one_pos
  · rintro h (_ | i) hi
    · exact h
    · exact absurd hi (by simp)

theorem shows_cons : s.Shows pos (t :: ts) ↔ (s.get pos).content = t.content ∧ s.Shows (pos + 1) ts := by
  rw [← List.singleton_append, shows_append, shows_singleton]
  rfl

theorem kind_of_content {u : Token} (h : u.content = t.content) : u.kind = t.kind := congrArg Prod.fst h

theorem Holds.shows (h : s.Holds ts) : s.Shows 0 ts := fun i hi => by rw [Nat.zero_add, h.get hi]

/-- Where a stream shows tokens that another one begins with, it has the contents of that one. -/
theorem Holds.content {s' : Stream} (h : s.Holds us) (hts : ts <+: us) (hs : s'.Shows pos ts) :
    ∀ i < ts.length, (s'.get (i + pos)).content = (s.get i).content := by
  intro i hi
  rw [h.get (Nat.lt_of_lt_of_le hi hts.length_le), ← hts.getElem hi, Nat.add_comm]
  exact hs i hi

/-- Behind tokens that it holds a stream is at its end. -/
theorem Holds.eof (h : s.Holds ts) {i : Nat} (hi : ts.length ≤ i) : (s.get i).kind = .eof := by
  rcases Nat.eq_or_lt_of_le hi with rfl | hlt
  · exact h.get_length
  · rw [s.get_of_size_le (by rw [h.size]; omega), h.last]

/-! ## Streams beside each other -/

theorem endBefore_placeless (s : Stream) (pos : Nat) : s.placeless.endBefore pos = .origin := by
  cases pos with
  | zero =>
    show (s.placeless.get 0).span.finish = _
    rw [get_placeless]
    rfl
  | succ i =>
    have hedge : 2 * (i + 1) - 1 = 2 * i + 1 := by omega
    rw [endBefore_eq (Nat.succ_pos i), hedge, edge_finish, get_placeless]
    rfl

/-- A stream beside another one, without places, that shows its tokens from a position on. -/
def elsewhere (s s' : Stream) (offset horizon : Nat)
    (hsame : ∀ i ≤ horizon, (s'.get (i + offset)).content = (s.get i).content)
    (hnext : ∀ i ≤ horizon, ∀ k k', (k, k') ∈ Grammar.lookahead → (s.get i).kind = k →
      ((s'.get (i + offset + 1)).kind = k' ↔ (s.get (i + 1)).kind = k')) : Parallel where
  left := s
  right := s'.placeless
  move := fun _ => .origin
  offset := offset
  horizon := horizon
  move_origin := rfl
  start := s'.endBefore_placeless offset
  same i hi := by
    rw [get_placeless]
    exact congrArg Token.ofContent (hsame i hi)
  next i hi k k' hk hi' := by
    rw [get_placeless, Token.kind_mapPlaces]
    exact hnext i hi k k' hk hi'

/-- A stream that shows the tokens up to one behind which no rule looks. -/
def showing (s s' : Stream) (offset horizon : Nat)
    (hsame : ∀ i ≤ horizon, (s'.get (i + offset)).content = (s.get i).content)
    (hname : (s.get horizon).kind ≠ .name) (hnot : (s.get horizon).kind ≠ .keyword .notOp) : Parallel :=
  s.elsewhere s' offset horizon hsame fun i hi k k' hk hi' => by
    rcases Nat.lt_or_eq_of_le hi with hlt | rfl
    · have hcontent := hsame (i + 1) hlt
      rw [Nat.add_right_comm] at hcontent
      rw [kind_of_content hcontent]
    · rw [hi'] at hname hnot
      simp [Grammar.lookahead, hname, hnot] at hk

end Stream

/-! ## Replies that are evaluated -/

/-- The reading succeeds, and what it gives and where it ends pass the check. -/
def Reply.meets {α : Type} (check : α → Nat → Bool) : Reply α → Bool
  | .ok a q => check a q
  | .fail _ _ => false

theorem Reply.exists_of_meets {α : Type} {check : α → Nat → Bool} {x : Reply α} (h : x.meets check = true) :
    ∃ a q, x = .ok a q ∧ check a q = true := by
  cases x with
  | ok a q => exact ⟨a, q, rfl, h⟩
  | fail e pos => cases h

theorem Reply.exists_ok_of_meets {α : Type} {x : Reply α} {q : Nat} (h : x.meets (fun _ p => p == q) = true) :
    ∃ a, x = .ok a q := by
  obtain ⟨a, p, rfl, hp⟩ := exists_of_meets h
  exact ⟨a, beq_iff_eq.1 hp ▸ rfl⟩

/-! ## Reading -/

namespace Grammar

variable {find find' : Text → Option Extension} {s s' : Stream} {p : Phrase} {r : Rule p} {pos q n : Nat}

/-- What is read without places is read with places. -/
theorem run_of_placeless (hx : FindsBuiltin find) {t : p.Tree}
    (h : run find n (r.mapPlaces fun _ => .origin) s.placeless pos = .ok t q) :
    ∃ t', run find n r s pos = .ok t' q ∧ p.mapPlaces (fun _ => .origin) t' = t := by
  cases hr : run find n r s pos with
  | ok t' q' =>
    have hright : run find n (r.mapPlaces fun _ => .origin) s.placeless pos = .ok _ q' :=
      ((run_carries_all (m := s.besidePlaceless q') hx n r).of_ok hr).2 (Nat.le_refl _)
    obtain ⟨ht, rfl⟩ := Reply.ok.inj (hright.symm.trans h)
    exact ⟨t', rfl, ht⟩
  | fail e q' =>
    obtain ⟨e', hright, -⟩ := ((run_carries_all (m := s.besidePlaceless q') hx n r).of_fail hr).2 (Nat.le_refl _)
    change run find n (r.mapPlaces fun _ => .origin) s.placeless pos = .fail e' q' at hright
    rw [h] at hright
    cases hright

/-- What is read of some tokens is read of them elsewhere, at the same depth. -/
theorem run_elsewhere (hx : FindsBuiltin find) {offset horizon : Nat}
    (hsame : ∀ i ≤ horizon, (s'.get (i + offset)).content = (s.get i).content)
    (hname : (s.get horizon).kind ≠ .name) (hnot : (s.get horizon).kind ≠ .keyword .notOp)
    {t : p.Tree} (h : run find n r s pos = .ok t q) (hq : q ≤ horizon) :
    ∃ t', run find n r s' (pos + offset) = .ok t' (q + offset) ∧
      p.mapPlaces (fun _ => .origin) t' = p.mapPlaces (fun _ => .origin) t := by
  have hplaceless : run find n (r.mapPlaces fun _ => .origin) s'.placeless (pos + offset) = .ok _ (q + offset) :=
    ((run_carries_all (m := s.showing s' offset horizon hsame hname hnot) hx n r).of_ok h).2 hq
  exact run_of_placeless hx hplaceless

theorem findsBuiltin_none : FindsBuiltin fun _ => none := nofun

/-- What is read of an expression is given wherever a stream shows its tokens, under all extensions. -/
theorem gives_elsewhere {r : Rule .expr} {offset horizon : Nat}
    (hsame : ∀ i ≤ horizon, (s'.get (i + offset)).content = (s.get i).content)
    (hname : (s.get horizon).kind ≠ .name) (hnot : (s.get horizon).kind ≠ .keyword .notOp)
    (hlast : s'.last.kind = .eof) {e : Expr} (h : ofExtensions find r s pos = .ok e q) (hq : q ≤ horizon) :
    ∃ e', Gives find' s' r (pos + offset) e' (q + offset) ∧ e'.bare = e.bare := by
  have hrun : run (fun _ => none) (depth s) r s pos = .ok e q :=
    run_refines find _ (Nat.le_refl _) rfl r h
  obtain ⟨e', he', hplaces⟩ := run_elsewhere findsBuiltin_none hsame hname hnot hrun hq
  refine ⟨e', .of_run hlast rfl he', ?_⟩
  rw [← e'.bare_mapPlaces fun _ => .origin, ← e.bare_mapPlaces fun _ => .origin]
  exact congrArg Expr.bare hplaces

/-- What the grammar reads with orderly extensions is given. -/
theorem Gives.of_orderly (hx : OrderlyTags find) (hlast : s.last.kind = .eof) (hpos : pos < s.tokens.size) {t : p.Tree}
    (h : ofExtensions find r s pos = .ok t q) : Gives find s r pos t q := fun n hn =>
  ((settles hx hlast r hpos).deep n hn).trans h

/-! ## Tokens that stand alone -/

/-- Alone before a token the tokens are read by the rule, which gives the expression and ends behind the last of
them. -/
def Consumes (g : Grammar) (r : Rule .expr) (ts : List Token) (behind : Token) (e : Expr) : Prop :=
  ∃ s : Stream, s.Holds (ts ++ [behind]) ∧ g r s 0 = .ok e ts.length

variable {ts : List Token} {t : Token} {e : Expr}

/-- Whether tokens are consumed alone can be evaluated. -/
theorem Consumes.of_check {g : Grammar} {r : Rule .expr}
    (h : (g r (Stream.holding (ts ++ [t])) 0).meets (fun _ q => q == ts.length) = true) : ∃ e, g.Consumes r ts t e := by
  obtain ⟨e, q, hread, hq⟩ := Reply.exists_of_meets h
  rw [beq_iff_eq.1 hq] at hread
  exact ⟨e, _, Stream.holding_holds _, hread⟩

/-- What is consumed alone is given wherever a stream shows it before the same token. -/
theorem Consumes.gives {r : Rule .expr} (h : (ofExtensions find).Consumes r ts t e) (hname : t.kind ≠ .name)
    (hnot : t.kind ≠ .keyword .notOp) (hlast : s.last.kind = .eof) (hs : s.Shows pos (ts ++ [t])) :
    ∃ e', Gives find' s r pos e' (pos + ts.length) ∧ e'.bare = e.bare := by
  obtain ⟨alone, halone, hread⟩ := h
  have hbehind : alone.get ts.length = t := by
    rw [halone.get (by simp), List.getElem_concat_length rfl]
  have hcontent : ∀ i ≤ ts.length, (s.get (i + pos)).content = (alone.get i).content := fun i hi =>
    halone.content (List.prefix_refl _) hs i (by rw [List.length_append, List.length_singleton]; omega)
  obtain ⟨e', hgives, he'⟩ := gives_elsewhere hcontent (by rw [hbehind]; exact hname)
    (by rw [hbehind]; exact hnot) hlast hread (Nat.le_refl _)
  rw [Nat.zero_add, Nat.add_comm] at hgives
  exact ⟨e', hgives, he'⟩

end Grammar
end Stencil
