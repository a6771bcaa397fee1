/-
How far a scan gets. From every state the place and the text that is left point to one end of the
source, a step moves the place strictly forward (`step_forward`), and the last step leaves the end token
at the end of the source. So a scan is over after as many steps as the source has units, and one more.
-/
import Stencil.Token.Cursor

namespace Stencil

theorem Location.offset_upTo {l : Location} {t w rest : Text} (h : t = w ++ rest) :
    (l.upTo t rest).offset + rest.length = l.offset + t.length := by
  subst h
  rw [upTo_append, offset_after, List.length_append]
  omega

theorem Location.offset_le_after (l : Location) (w : Text) : l.offset ≤ (l.after w).offset := by
  rw [offset_after]
  exact Nat.le_add_right ..

theorem Location.offset_lt_after (l : Location) {w : Text} (hw : w ≠ []) : l.offset < (l.after w).offset := by
  have := List.length_pos_iff.2 hw
  rw [offset_after]
  omega

namespace Scan

/-! ## The end of the source -/

/-- What a step leaves ends at an offset: the text that is left there, or the end token, which is the
last one. -/
def Step.EndsAt (r : Step) (stop : Nat) : Prop :=
  match r.next with
  | some s => s.place.offset + s.rest.length = stop
  | none => ∃ l, r.tokens.getLast? = some (Token.atEnd l) ∧ l.offset = stop

variable {d : Delimiters} {filename : Option Text} {place : Location} {rest : Text} {r : Step}

theorem take_endsAt {kind : TokenKind} {value written : Text} {mode : Mode} (h : written <+: rest) :
    (take kind value written mode place rest).EndsAt (place.offset + rest.length) := by
  obtain ⟨u, rfl⟩ := h
  show (place.after written).offset + ((written ++ u).drop written.length).length = _
  rw [Location.offset_after, List.drop_left, List.length_append]
  omega

theorem lexemeStep_endsAt {mode : TokenKind → Mode} {afterDot : Bool}
    (h : lexemeStep filename mode afterDot place rest = .ok r) :
    r.EndsAt (place.offset + rest.length) := by
  unfold lexemeStep at h
  split at h
  · rename_i l hl
    cases h
    obtain ⟨u, hu⟩ := Lexeme.read_written hl
    exact take_endsAt ⟨u, hu.symm⟩
  · cases h

theorem openerStep_endsAt (hrest : d.opener? rest = none → rest = [])
    (h : openerStep d filename place rest (d.opener? rest) = .ok r) :
    r.EndsAt (place.offset + rest.length) := by
  cases ho : d.opener? rest with
  | none =>
    rw [ho] at h
    cases h
    rw [hrest ho]
    exact ⟨place, rfl, rfl⟩
  | some o =>
    obtain ⟨u, hu⟩ := Text.startsWith_iff.1 (Delimiters.startsWith_of_opener? ho)
    rw [ho] at h
    cases o with
    | interpolation => cases h; exact take_endsAt ⟨u, hu.symm⟩
    | comment =>
      simp only [openerStep] at h
      split at h
      · rename_i body after hb
        cases h
        have hcut : (d.start .comment ++ u).drop d.commentStart.length = u := List.drop_left
        rw [hu, hcut] at hb
        refine Location.offset_upTo (w := d.commentStart ++ body ++ d.commentEnd) ?_
        rw [hu, Text.splitAtFirst_eq hb]
        simp only [Delimiters.start, List.append_assoc]
      · cases h
    | block =>
      simp only [openerStep] at h
      split at h
      · rename_i inner hi
        obtain ⟨w, hw⟩ := Delimiters.afterWordTag_append hi
        split at h
        · rename_i body after hb
          cases h
          obtain ⟨v, hv⟩ := Delimiters.splitRaw_append hb
          refine Location.offset_upTo (w := d.blockStart ++ w ++ (body ++ v)) ?_
          rw [hw, hv]
          simp only [List.append_assoc]
        · cases h
      · cases h; exact take_endsAt ⟨u, hu.symm⟩

/-! ## Steps and cursors move forward -/

theorem opener?_splitData (d : Delimiters) (t : Text) :
    (d.splitData t).2 = [] ∨ (d.opener? (d.splitData t).2).isSome := by
  induction t with
  | nil => exact .inl rfl
  | cons c t ih =>
    rw [Delimiters.splitData]
    split
    · rename_i h; exact .inr h
    · exact ih

theorem endsAt_skip {s : State} (h : r.EndsAt ((s.place.after (s.rest.takeWhile Text.isSpacing)).offset +
    (s.rest.dropWhile Text.isSpacing).length)) : r.EndsAt (s.place.offset + s.rest.length) := by
  rw [Location.offset_after, Nat.add_assoc, ← List.length_append, List.takeWhile_append_dropWhile] at h
  exact h

theorem step_endsAt {s : State} (h : s.step d filename = .ok r) :
    r.EndsAt (s.place.offset + s.rest.length) := by
  unfold State.step at h
  split at h
  · simp only at h
    cases ho : openerStep d filename (s.place.after (d.splitData s.rest).1) (d.splitData s.rest).2
        (d.opener? (d.splitData s.rest).2) with
    | error e => rw [ho] at h; cases h
    | ok r' =>
      rw [ho] at h
      cases h
      have hnone : d.opener? (d.splitData s.rest).2 = none → (d.splitData s.rest).2 = [] := by
        intro hn
        rcases opener?_splitData d s.rest with hs | hs
        · exact hs
        · rw [hn] at hs; cases hs
      have hends := openerStep_endsAt hnone ho
      rw [Location.offset_after, Nat.add_assoc, ← List.length_append, d.splitData_append] at hends
      unfold Step.EndsAt at hends ⊢
      cases hn : r'.next with
      | some s' => simpa only [hn] using hends
      | none =>
        simp only [hn] at hends
        obtain ⟨l, hl, hoff⟩ := hends
        refine ⟨l, ?_, hoff⟩
        rw [List.getLast?_append, hl]
        rfl
  · simp only at h
    split at h
    · cases h
    · refine endsAt_skip ?_
      split at h
      · rename_i hc
        cases h
        obtain ⟨u, hu⟩ := Text.startsWith_iff.1 hc.2
        exact take_endsAt ⟨u, hu.symm⟩
      · exact lexemeStep_endsAt h
  · simp only at h
    refine endsAt_skip ?_
    split at h
    · rename_i hrest
      cases h
      rw [hrest]
      exact ⟨_, rfl, rfl⟩
    · exact lexemeStep_endsAt h

/-- A step moves the place strictly forward, and the source still ends where it did. -/
theorem step_forward (hd : d.Sound) {s s' : State} (h : s.step d filename = .ok r)
    (hs : r.next = some s') :
    s.place.offset < s'.place.offset ∧ s'.place.offset + s'.rest.length = s.place.offset + s.rest.length := by
  have hends := step_endsAt h
  have hshort := next_shorter hd h hs
  unfold Step.EndsAt at hends
  rw [hs] at hends
  exact ⟨by omega, hends⟩

/-! ## Counting steps -/

/-- The tokens from a state on, if so many steps lead to the last of them. -/
def tokensWithin (d : Delimiters) (filename : Option Text) : Nat → State →
    Option (Except Diagnostic (List Token))
  | 0, _ => none
  | n + 1, s =>
    match s.step d filename with
    | .error e => some (.error e)
    | .ok r =>
      match r.next with
      | none => some (.ok r.tokens)
      | some s' => (tokensWithin d filename n s').map (·.map (r.tokens ++ ·))

/-- The tokens from a state on, by its step. -/
theorem tokensFrom_eq (hd : d.Sound) (s : State) :
    tokensFrom d hd filename s =
      match s.step d filename with
      | .error e => .error e
      | .ok r =>
        match r.next with
        | none => .ok r.tokens
        | some s' => (tokensFrom d hd filename s').map (r.tokens ++ ·) := by
  conv => lhs; rw [tokensFrom]
  split
  · rename_i e he
    rw [he]
  · rename_i r hr
    rw [hr]
    split
    · rename_i hn
      simp only [hn]
    · rename_i s' hn
      simp only [hn]

/-- A scan is over after one step more than the text that is left has units. -/
theorem tokensWithin_eq_some (hd : d.Sound) {n : Nat} {s : State} (h : s.rest.length < n) :
    tokensWithin d filename n s = some (tokensFrom d hd filename s) := by
  induction n generalizing s with
  | zero => omega
  | succ n ih =>
    rw [tokensFrom_eq, tokensWithin]
    split
    · rfl
    · rename_i r hr
      split
      · rfl
      · rename_i s' hn
        have hshort := next_shorter hd hr hn
        rw [ih (s := s') (by omega)]
        rfl

/-- What so many steps lead to is what the scan gives. -/
theorem tokensFrom_of_within (hd : d.Sound) {n : Nat} {s : State} {x : Except Diagnostic (List Token)}
    (hn : s.rest.length < n) (h : tokensWithin d filename n s = some x) : tokensFrom d hd filename s = x :=
  Option.some.inj ((tokensWithin_eq_some hd hn).symm.trans h)

end Scan

namespace Cursor

/-- A token that is read moves the cursor strictly forward, but not behind the end of the source. -/
theorem next_forward {c c' : Cursor} {previous : Option TokenKind} {filename : Option Text} {t : Token}
    (h : c.next previous filename = (.ok t, c')) :
    t.span = ⟨c.place, c'.place⟩ ∧ c.place.offset < c'.place.offset ∧
      c'.place.offset ≤ c.source.length ∧ c'.source = c.source := by
  unfold next at h
  split at h
  · rename_i l hl
    cases h
    obtain ⟨u, hu⟩ := Lexeme.read_written hl
    have hne := List.length_pos_iff.2 l.written_ne
    have hlen := congrArg List.length hu
    rw [rest, List.length_drop, List.length_append] at hlen
    refine ⟨rfl, ?_, ?_, rfl⟩
    · rw [Location.offset_after]; omega
    · rw [Location.offset_after]; omega
  · cases h

end Cursor
end Stencil
