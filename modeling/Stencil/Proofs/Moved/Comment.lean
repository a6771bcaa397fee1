/-
Scanning is compositional across a comment. What stands before the comment is scanned as if nothing came behind, and
what stands behind it as if nothing came before, at its moved places: no part of a scan looks back, or beyond a
construct that has ended.
-/
import Stencil.Proofs.Moved.Scan
import Stencil.Proofs.Span.Reading
import Stencil.Proofs.Words.Followed

namespace Stencil

namespace Scan

variable {filename : Option Text} {a c : Text} {ts : List Token}

/-- The scan goes on behind the comment, from the place there on. -/
theorem tokensFrom_comment (hd : Delimiters.standard.Sound) (hc : ¬("#\x7d" : Text) <:+: c) (l : Location) (b : Text) :
    tokensFrom .standard hd filename ⟨.outside, l, "\x7b#" ++ c ++ "#\x7d" ++ b⟩ =
      tokensFrom .standard hd filename ⟨.outside, l.after ("\x7b#" ++ c ++ "#\x7d"), b⟩ := by
  rw [tokensFrom_of_next hd (step_comment filename hc l b)]
  cases tokensFrom .standard hd filename ⟨.outside, l.after ("\x7b#" ++ c ++ "#\x7d"), b⟩ <;> rfl

/-- Before the comment the tokens are those of the text there, and behind it those of the text there as if it stood
behind what has been read. -/
theorem tokensFrom_across_comment (hd : Delimiters.standard.Sound)
    (ha : tokensFrom .standard hd filename ⟨.outside, .origin, a⟩ = .ok ts)
    (hend : a.getLast? ≠ some (Text.unit '\x7b')) (hc : ¬("#\x7d" : Text) <:+: c) (b : Text) :
    ∃ us, ts = us ++ [Token.atEnd (Location.origin.after a)] ∧
      tokensFrom .standard hd filename ⟨.outside, .origin, a ++ ("\x7b#" ++ c ++ "#\x7d") ++ b⟩ =
        (tokensFrom .standard hd filename ((⟨.outside, .origin, b⟩ : State).mapPlaces
          (Location.behind (a ++ ("\x7b#" ++ c ++ "#\x7d"))))).map (us ++ ·) := by
  have hopen : (Delimiters.standard.opener? (Text.unit '\x7b' :: ("#" ++ (c ++ ("#\x7d" ++ b))))).isSome = true := rfl
  obtain ⟨us, hts, hfollowed⟩ := tokensFrom_followed (s := ⟨.outside, .origin, a⟩) hd rfl hend hopen ha
  have hsplit : a ++ ("\x7b#" ++ c ++ "#\x7d") ++ b = a ++ Text.unit '\x7b' :: ("#" ++ (c ++ ("#\x7d" ++ b))) := by
    simp only [List.append_assoc]
    rfl
  have hcomment : Text.unit '\x7b' :: ("#" ++ (c ++ ("#\x7d" ++ b))) = "\x7b#" ++ c ++ "#\x7d" ++ b := by
    simp only [List.append_assoc]
    rfl
  have hmoved : (⟨.outside, .origin, b⟩ : State).mapPlaces (Location.behind (a ++ ("\x7b#" ++ c ++ "#\x7d"))) =
      ⟨.outside, (Location.origin.after a).after ("\x7b#" ++ c ++ "#\x7d"), b⟩ := by
    rw [← Location.after_append, ← Location.behind_origin]
    rfl
  refine ⟨us, hts, ?_⟩
  rw [hmoved, ← tokensFrom_comment hd hc, ← hcomment, hsplit]
  exact hfollowed

end Scan

/-- What two texts with a comment between them are scanned as. Under the standard delimiters let the first text be
one that is scanned, and that does not end in a brace. Then the whole is scanned if and only if the second text is, as
the tokens of the first one before its end, and those of the second one with all places moved; or else with the
mistake of the second one, at its moved place. -/
theorem Environment.tokens_across_comment (filename : Option Text) {a c : Text} (b : Text) {ts : List Token}
    (ha : standard.tokens filename a = .ok ts) (hend : a.getLast? ≠ some (Text.unit '\x7b'))
    (hc : ¬("#\x7d" : Text) <:+: c) :
    let before := a ++ ("\x7b#" ++ c ++ "#\x7d")
    ∃ us, ts = us ++ [Token.atEnd (Location.origin.after a)] ∧
      match standard.tokens filename b, standard.tokens filename (before ++ b) with
      | .ok vs, .ok ws => ws = us ++ vs.map (Token.mapPlaces (Location.behind before))
      | .error e, .error e' => e'.kind = e.kind ∧ e'.id = e.id ∧ e'.context = e.context ∧
          e'.location = e.location.map (Location.behind before)
      | .ok _, .error _ | .error _, .ok _ => False := by
  intro before
  have hd : Delimiters.standard.Sound := standard.isSound
  obtain ⟨us, hts, hwhole⟩ := Scan.tokensFrom_across_comment hd ha hend hc b
  have hmoves : Scan.Moves (Location.behind before) filename (List.map (Token.mapPlaces (Location.behind before)))
      (standard.tokens filename b) _ :=
    Scan.tokensFrom_moves hd (Location.behind_shift before) (s := ⟨.outside, .origin, b⟩) Nat.one_pos
  change standard.tokens filename (before ++ b) = _ at hwhole
  refine ⟨us, hts, ?_⟩
  rw [hwhole]
  generalize Scan.tokensFrom .standard hd filename _ = moved at hmoves
  cases hb : standard.tokens filename b with
  | ok vs =>
    rw [hb, Scan.Moves] at hmoves
    rw [hmoves]
    exact rfl
  | error e =>
    rw [hb] at hmoves
    obtain ⟨e', rfl, he⟩ := hmoves
    obtain ⟨hkind, hid, hcontext, hlocation, -⟩ := he.fields
    exact ⟨hkind, hid, hcontext, hlocation⟩

/-- A string behind the comment that is not closed: its place moves by a line, and by a column for every unit of the
line that the comment stands on. -/
theorem Environment.tokens_across_comment_unclosed :
    let a : Text := "x\n\x7b\x7b y \x7d\x7d"
    let c : Text := " % "
    let b : Text := "\x7b\x7b 'w"
    (∃ ts, standard.tokens none a = .ok ts) ∧ a.getLast? ≠ some (Text.unit '\x7b') ∧ ¬("#\x7d" : Text) <:+: c ∧
      ∃ e e', standard.tokens none b = .error e ∧
        standard.tokens none (a ++ ("\x7b#" ++ c ++ "#\x7d") ++ b) = .error e' ∧ e'.id = e.id ∧
          e.location = some ⟨1, 4, 3⟩ ∧ e'.location = some ⟨2, 18, 19⟩ := by
  intro a c b
  have hfirst := standard.tokens_of_counted none a (·.toOption.isSome) (by decide +kernel)
  have hsecond := standard.tokens_of_counted none b (fun result =>
    decide ((result.mapError Diagnostic.location).map List.length = .error (some ⟨1, 4, 3⟩))) (by decide +kernel)
  have hend : a.getLast? ≠ some (Text.unit '\x7b') := by decide
  have hc : ¬("#\x7d" : Text) <:+: c := by decide
  have hmoved : Location.behind (a ++ ("\x7b#" ++ c ++ "#\x7d")) ⟨1, 4, 3⟩ = ⟨2, 18, 19⟩ := by decide
  clear_value a c b
  cases ha : standard.tokens none a with
  | error e => rw [ha] at hfirst; cases hfirst
  | ok ts =>
    cases hb : standard.tokens none b with
    | ok vs => rw [hb] at hsecond; cases of_decide_eq_true hsecond
    | error e =>
      rw [hb] at hsecond
      have hlocation : e.location = some ⟨1, 4, 3⟩ := Except.error.inj (of_decide_eq_true hsecond)
      obtain ⟨us, -, hwhole⟩ := tokens_across_comment none b ha hend hc
      rw [hb] at hwhole
      cases hall : standard.tokens none (a ++ ("\x7b#" ++ c ++ "#\x7d") ++ b) with
      | ok ws => rw [hall] at hwhole; exact hwhole.elim
      | error e' =>
        rw [hall] at hwhole
        obtain ⟨-, hid, -, hlocation'⟩ := hwhole
        rw [hlocation, Option.map_some, hmoved] at hlocation'
        exact ⟨⟨ts, rfl⟩, hend, hc, e, e', rfl, rfl, hid, hlocation, hlocation'⟩

end Stencil
