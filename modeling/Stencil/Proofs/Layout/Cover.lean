/-
Scanning loses and invents nothing. The tokens of a source stand in it one behind the other, each where
its text is written, and whatever no token covers is a gap: white space between the begin and the end of
a tag, a comment, or one of the two tags of a raw block (`tokens_cover`).
-/
import Stencil.Environment.Read
import Stencil.Proofs.Layout.Basic

namespace Stencil

/-! ## Stretches of a source -/

namespace Text

/-- The units from one offset up to another. -/
def slice (t : Text) (a b : Nat) : Text := (t.drop a).take (b - a)

/-- A text ends a source and begins at an offset of it. -/
def Ends (source text : Text) (n : Nat) : Prop := ∃ before, source = before ++ text ∧ before.length = n

variable {source w rest : Text} {n : Nat}

theorem Ends.drop (h : source.Ends rest n) : source.drop n = rest := by
  obtain ⟨before, rfl, rfl⟩ := h
  exact List.drop_left

theorem Ends.length (h : source.Ends rest n) : n + rest.length = source.length := by
  obtain ⟨before, rfl, rfl⟩ := h
  rw [List.length_append]

theorem Ends.append (h : source.Ends rest n) (x : Text) : (source ++ x).Ends (rest ++ x) n := by
  obtain ⟨before, rfl, rfl⟩ := h
  exact ⟨before, List.append_assoc .., rfl⟩

theorem Ends.behind (h : source.Ends (w ++ rest) n) : source.Ends rest (n + w.length) := by
  obtain ⟨before, rfl, rfl⟩ := h
  exact ⟨before ++ w, (List.append_assoc ..).symm, List.length_append⟩

theorem Ends.slice (h : source.Ends (w ++ rest) n) : source.slice n (n + w.length) = w := by
  unfold Text.slice
  rw [h.drop, Nat.add_sub_cancel_left, List.take_left]

theorem Ends.after {l : Location} (h : source.Ends (w ++ rest) l.offset) : source.Ends rest (l.after w).offset := by
  rw [Location.offset_after]
  exact h.behind

theorem Ends.slice_after {l : Location} (h : source.Ends (w ++ rest) l.offset) :
    source.slice l.offset (l.after w).offset = w := by
  rw [Location.offset_after]
  exact h.slice

end Text

/-- The unit at an offset belongs to the span. -/
def Span.Covers (s : Span) (i : Nat) : Prop := s.start.offset ≤ i ∧ i < s.finish.offset

/-! ## Gaps -/

namespace Scan

/-- No token has a unit between two offsets. -/
def Free (ts : List Token) (p q : Nat) : Prop :=
  ∀ t ∈ ts, t.span.finish.offset ≤ p ∨ q ≤ t.span.start.offset

/-- The offsets of a raw block: of its first tag, of the data behind it, of its last tag and of the end. -/
structure RawBlock (d : Delimiters) (source : Text) (ts : List Token) (a b c e : Nat) : Prop where
  opens : d.opener? (source.drop a) = some .block
  begins : d.WordTag Delimiters.rawWord (source.slice a b)
  between : b ≤ c
  data : b < c → ∃ t ∈ ts, t.kind = .data ∧ t.span.start.offset = b ∧ t.span.finish.offset = c
  ends : d.WordTag Delimiters.endRawWord (source.slice c e)
  first : ∀ k, b ≤ k → k < c → ∀ v, d.WordTag Delimiters.endRawWord v → ¬v <+: source.drop k

/-- What may stand between tokens. -/
inductive Gap (d : Delimiters) (source : Text) (ts : List Token) : (p q : Nat) → Prop
  /-- White space between the begin of a tag and its end. -/
  | spacing {p q : Nat} {tag : Tag} {before inner after : List Token} {b e : Token}
      (hts : ts = before ++ b :: (inner ++ e :: after)) (hb : b.kind = tag.beginKind)
      (hinner : ∀ t ∈ inner, t.kind.inExpression = true) (he : e.kind = tag.endKind)
      (hp : b.span.finish.offset ≤ p) (hq : q ≤ e.span.start.offset)
      (hw : (source.slice p q).all Text.isSpacing = true) : Gap d source ts p q
  /-- A comment, up to the first closing delimiter behind its opening one. -/
  | comment {p q : Nat} {body : Text} (ho : d.opener? (source.drop p) = some .comment)
      (hw : source.slice p q = d.commentStart ++ body ++ d.commentEnd)
      (hfirst : ∀ k < body.length, ¬d.commentEnd <+: source.drop (p + d.commentStart.length + k)) :
      Gap d source ts p q
  | rawBegin {p q c e : Nat} (h : RawBlock d source ts p q c e) : Gap d source ts p q
  | rawEnd {a b p q : Nat} (h : RawBlock d source ts a b p q) : Gap d source ts p q

variable {d : Delimiters} {source text : Text} {z z' : Zone} {l : Location} {ts us : List Token}

theorem RawBlock.behind {a b c e : Nat} (h : RawBlock d source ts a b c e) :
    RawBlock d source (us ++ ts) a b c e where
  opens := h.opens
  begins := h.begins
  between := h.between
  data hbc := by
    obtain ⟨t, ht, hdata⟩ := h.data hbc
    exact ⟨t, List.mem_append_right _ ht, hdata⟩
  ends := h.ends
  first := h.first

/-- A gap among tokens is one with other tokens before them. -/
theorem Gap.behind {p q : Nat} (h : Gap d source ts p q) : Gap d source (us ++ ts) p q := by
  cases h with
  | spacing hts hb hinner he hp hq hw =>
    subst hts
    exact .spacing (List.append_assoc ..).symm hb hinner he hp hq hw
  | comment ho hw hfirst => exact .comment ho hw hfirst
  | rawBegin h => exact .rawBegin h.behind
  | rawEnd h => exact .rawEnd h.behind

theorem Free.behind {p q : Nat} (h : Free ts p q) (hus : ∀ t ∈ us, t.span.finish.offset ≤ p) :
    Free (us ++ ts) p q := by
  intro t ht
  rcases List.mem_append.1 ht with ht | ht
  · exact .inl (hus t ht)
  · exact h t ht

/-! ## The order of tokens -/

theorem Layout.offset_le (h : Layout d z l text ts) : ∀ t ∈ ts, l.offset ≤ t.span.start.offset := by
  have further {w : Text} {us : List Token} {l : Location}
      (h : ∀ t ∈ us, (l.after w).offset ≤ t.span.start.offset) : ∀ t ∈ us, l.offset ≤ t.span.start.offset :=
    fun t ht => Nat.le_trans (l.offset_le_after w) (h t ht)
  induction h with
  | finish l =>
    intro t ht
    rw [List.mem_singleton.1 ht]
    exact Nat.le_refl _
  | token _ _ _ hs _ ih =>
    exact List.forall_mem_cons.2 ⟨Nat.le_of_eq (by rw [hs]), further ih⟩
  | spacing _ _ _ ih => exact further ih
  | comment _ _ _ _ ih => exact further ih
  | @raw l w _ _ _ _ _ _ _ _ _ ih =>
    refine List.forall_mem_append.2 ⟨fun t ht => ?_, further ih⟩
    rw [(mem_dataTokens.1 ht).2]
    exact l.offset_le_after w

/-- A token ends before the next one begins, and only the end token is empty. -/
theorem Layout.ordered (h : Layout d z l text ts) :
    ts.Pairwise (fun t u => t.span.finish.offset ≤ u.span.start.offset) ∧
      ∀ t ∈ ts, t.span.start.offset ≤ t.span.finish.offset ∧
        (t.kind ≠ .eof → t.span.start.offset < t.span.finish.offset) := by
  induction h with
  | finish l =>
    refine ⟨List.pairwise_singleton .., fun t ht => ?_⟩
    rw [List.mem_singleton.1 ht]
    exact ⟨Nat.le_refl _, fun hk => absurd rfl hk⟩
  | @token _ _ l _ _ _ _ hz hw hv hs h ih =>
    refine ⟨List.pairwise_cons.2 ⟨fun u hu => ?_, ih.1⟩, List.forall_mem_cons.2 ⟨?_, ih.2⟩⟩
    · rw [hs]
      exact h.offset_le u hu
    · rw [hs]
      exact ⟨l.offset_le_after _, fun _ => l.offset_lt_after hw⟩
  | spacing _ _ _ ih => exact ih
  | comment _ _ _ _ ih => exact ih
  | @raw l w body v rest us _ _ _ _ h ih =>
    unfold dataTokens
    split
    · exact ih
    · rename_i hbody
      refine ⟨List.pairwise_cons.2 ⟨fun u hu => ?_, ih.1⟩, List.forall_mem_cons.2 ⟨?_, ih.2⟩⟩
      · refine Nat.le_trans ?_ (h.offset_le u hu)
        rw [Location.after_append, Location.after_append]
        exact Location.offset_le_after _ v
      · exact ⟨Location.offset_le_after _ body, fun _ => Location.offset_lt_after _ hbody⟩

theorem Layout.getLast? (h : Layout d z l text ts) :
    ∃ e, ts.getLast? = some (Token.atEnd e) ∧ e.offset = l.offset + text.length := by
  have further {w rest : Text} {l : Location} {us : List Token} (vs : List Token)
      (h : ∃ e, us.getLast? = some (Token.atEnd e) ∧ e.offset = (l.after w).offset + rest.length) :
      ∃ e, (vs ++ us).getLast? = some (Token.atEnd e) ∧ e.offset = l.offset + (w ++ rest).length := by
    obtain ⟨e, he, hoff⟩ := h
    refine ⟨e, by rw [List.getLast?_append, he]; rfl, ?_⟩
    rw [hoff, Location.offset_after, List.length_append, Nat.add_assoc]
  induction h with
  | finish l => exact ⟨l, rfl, rfl⟩
  | token _ _ _ _ _ ih => exact further [_] ih
  | spacing _ _ _ ih => exact further [] ih
  | comment _ _ _ _ ih => exact further [] ih
  | raw _ _ _ _ _ ih => exact further _ ih

/-! ## The texts of tokens -/

/-- Every token but the last one is written where it stands. -/
theorem Layout.writes (h : Layout d z l text ts) (hs : source.Ends text l.offset) :
    ∀ t ∈ ts, t.kind.Writes t.value (source.slice t.span.start.offset t.span.finish.offset) := by
  induction h with
  | finish l =>
    intro t ht
    rw [List.mem_singleton.1 ht]
    show [] = source.slice l.offset l.offset
    rw [Text.slice, Nat.sub_self, List.take_zero]
  | token hz hw hv hspan h ih =>
    refine List.forall_mem_cons.2 ⟨?_, ih hs.after⟩
    rw [hspan, hs.slice_after]
    exact hv
  | spacing _ _ _ ih => exact ih hs.after
  | comment _ _ _ _ ih => exact ih hs.after
  | raw _ _ _ _ _ ih =>
    refine List.forall_mem_append.2 ⟨fun t ht => ?_, ih hs.after⟩
    rw [(mem_dataTokens.1 ht).2]
    rw [List.append_assoc] at hs
    have hbody := hs.after
    rw [List.append_assoc] at hbody
    exact hbody.slice_after.symm

/-! ## Whatever no token covers is a gap -/

/-- White space up to an offset, before the end of the tag that is open. -/
def Loose (ts : List Token) (q : Nat) : Zone → Prop
  | .outside => False
  | .inside tag => ∃ inner e after, ts = inner ++ e :: after ∧
      (∀ t ∈ inner, t.kind.inExpression = true) ∧ e.kind = tag.endKind ∧ q ≤ e.span.start.offset
  | .bare => True

theorem Zone.behind_eq_inside {k : TokenKind} {tag : Tag} (h : z.behind k = some (.inside tag)) :
    z = .outside ∧ k = tag.beginKind ∨ z = .inside tag ∧ k.inExpression = true := by
  cases z with
  | outside => cases k <;> cases h <;> exact .inl ⟨rfl, rfl⟩
  | inside tag' =>
    simp only [Zone.behind] at h
    split at h
    · cases h
    · split at h
      · rename_i hk
        cases h
        exact .inr ⟨rfl, hk⟩
      · cases h
  | bare =>
    simp only [Zone.behind] at h
    split at h <;> cases h

theorem Zone.behind_eq_outside {k : TokenKind} (h : z.behind k = some .outside) :
    z = .outside ∨ ∃ tag, z = .inside tag ∧ k = tag.endKind := by
  cases z with
  | outside => exact .inl rfl
  | inside tag =>
    simp only [Zone.behind] at h
    split at h
    · rename_i hk
      exact .inr ⟨tag, rfl, hk⟩
    · split at h <;> cases h
  | bare =>
    simp only [Zone.behind] at h
    split at h <;> cases h

theorem Zone.behind_eq_bare {k : TokenKind} (h : z.behind k = some .bare) : z = .bare := by
  cases z with
  | outside => cases k <;> cases h
  | inside tag =>
    simp only [Zone.behind] at h
    split at h
    · cases h
    · split at h <;> cases h
  | bare => rfl

/-- A tag that is open is closed by one of the tokens. -/
theorem Layout.loose (h : Layout d z l text ts) (hz : z ≠ .outside) : Loose ts l.offset z := by
  have further {w : Text} {l : Location} {us : List Token} {z : Zone} (h : Loose us (l.after w).offset z) :
      Loose us l.offset z := by
    cases z with
    | outside => exact h
    | inside tag =>
      obtain ⟨inner, e, after, hts, hinner, he, hq⟩ := h
      exact ⟨inner, e, after, hts, hinner, he, Nat.le_trans (l.offset_le_after w) hq⟩
    | bare => trivial
  induction h with
  | @finish z l hend =>
    cases z with
    | outside => exact absurd rfl hz
    | inside tag => cases hend
    | bare => trivial
  | @token z z' l w rest t us hstep hw hv hs h ih =>
    cases z' with
    | outside =>
      rcases Zone.behind_eq_outside hstep with rfl | ⟨tag, rfl, hk⟩
      · exact absurd rfl hz
      · exact ⟨[], t, us, rfl, nofun, hk, Nat.le_of_eq (by rw [hs])⟩
    | inside tag =>
      rcases Zone.behind_eq_inside hstep with ⟨rfl, -⟩ | ⟨rfl, hk⟩
      · exact absurd rfl hz
      · obtain ⟨inner, e, after, rfl, hinner, he, hq⟩ := further (ih nofun)
        exact ⟨t :: inner, e, after, rfl, List.forall_mem_cons.2 ⟨hk, hinner⟩, he, hq⟩
    | bare =>
      rw [Zone.behind_eq_bare hstep]
      trivial
  | spacing _ _ _ ih => exact further (ih hz)
  | comment => exact absurd rfl hz
  | raw => exact absurd rfl hz

/-- White space behind a token that is before the end of a tag is a gap if the token begins the tag, and else
was before the end of the tag already. -/
theorem Loose.behind_token {t : Token} {p q : Nat} (h : Loose us q z') (hstep : z.behind t.kind = some z')
    (hp : t.span.finish.offset ≤ p) (hw : (source.slice p q).all Text.isSpacing = true) :
    Gap d source (t :: us) p q ∨ Loose (t :: us) q z := by
  cases z' with
  | outside => exact h.elim
  | inside tag =>
    obtain ⟨inner, e, after, rfl, hinner, he, hq⟩ := h
    rcases Zone.behind_eq_inside hstep with ⟨rfl, hk⟩ | ⟨rfl, hk⟩
    · exact .inl (.spacing (List.nil_append _).symm hk hinner he hp hq hw)
    · exact .inr ⟨t :: inner, e, after, rfl, List.forall_mem_cons.2 ⟨hk, hinner⟩, he, hq⟩
  | bare =>
    rw [Zone.behind_eq_bare hstep]
    exact .inr trivial

/-- A comment stands where the text begins that it is a part of. -/
theorem Gap.of_comment {w body rest : Text} (hs : source.Ends (w ++ rest) l.offset)
    (ho : d.opener? (w ++ rest) = some .comment) (hw : w = d.commentStart ++ body ++ d.commentEnd)
    (hfirst : ∀ k < body.length, ¬d.commentEnd <+: (body ++ d.commentEnd ++ rest).drop k) :
    Gap d source ts l.offset (l.after w).offset := by
  refine .comment (by rw [hs.drop]; exact ho) (by rw [hs.slice_after]; exact hw) fun k hk => ?_
  have hdrop : source.drop (l.offset + d.commentStart.length + k) = (body ++ d.commentEnd ++ rest).drop k := by
    rw [Nat.add_assoc, ← List.drop_drop, hs.drop, hw]
    simp only [List.append_assoc]
    rw [← List.drop_drop, List.drop_left]
  rw [hdrop]
  exact hfirst k hk

/-- A raw block stands where the text begins that it is a part of. -/
theorem RawBlock.of_written {w body v rest : Text} (hs : source.Ends (w ++ (body ++ v) ++ rest) l.offset)
    (ho : d.opener? (w ++ (body ++ v) ++ rest) = some .block) (hw : d.WordTag Delimiters.rawWord w)
    (hv : d.WordTag Delimiters.endRawWord v)
    (hfirst : ∀ k < body.length, ∀ v', d.WordTag Delimiters.endRawWord v' → ¬v' <+: (body ++ v ++ rest).drop k) :
    RawBlock d source (dataTokens (l.after w) body ++ ts) l.offset (l.after w).offset
      ((l.after w).after body).offset (((l.after w).after body).after v).offset := by
  have hassoc : source.Ends (w ++ (body ++ (v ++ rest))) l.offset := by
    rw [← List.append_assoc body, ← List.append_assoc w]
    exact hs
  refine ⟨by rw [hs.drop]; exact ho, by rw [hassoc.slice_after]; exact hw, Location.offset_le_after .., fun hlt => ?_,
    by rw [hassoc.after.after.slice_after]; exact hv, fun k hk hlt v' hv' => ?_⟩
  · have hbody : body ≠ [] := by
      rintro rfl
      exact absurd hlt (Nat.lt_irrefl _)
    exact ⟨_, List.mem_append_left _ (mem_dataTokens.2 ⟨hbody, rfl⟩), rfl, rfl, rfl⟩
  · have hdrop : source.drop k = (body ++ v ++ rest).drop (k - (l.after w).offset) := by
      rw [List.append_assoc, ← hassoc.after.drop, List.drop_drop]
      congr 1
      omega
    rw [hdrop]
    rw [Location.offset_after (t := body)] at hlt
    exact hfirst _ (by omega) v' hv'

/-- The unit at an offset is covered by a token, lies in a gap, or is white space of the zone. -/
def Filled (d : Delimiters) (source : Text) (z : Zone) (l : Location) (ts : List Token) (i : Nat) : Prop :=
  (∃ t ∈ ts, t.span.Covers i) ∨ ∃ p q, l.offset ≤ p ∧ p ≤ i ∧ i < q ∧ Free ts p q ∧
    (Gap d source ts p q ∨ Loose ts q z ∧ (source.slice p q).all Text.isSpacing = true)

/-- What is filled further on is filled here, also with other tokens before. -/
theorem Filled.behind {l' : Location} {i : Nat} (us : List Token) (h : Filled d source z' l' ts i)
    (hl : l.offset ≤ l'.offset) (hus : ∀ t ∈ us, t.span.finish.offset ≤ l'.offset)
    (hloose : ∀ p q, l'.offset ≤ p → Loose ts q z' → (source.slice p q).all Text.isSpacing = true →
      Gap d source (us ++ ts) p q ∨ Loose (us ++ ts) q z) : Filled d source z l (us ++ ts) i := by
  rcases h with ⟨t, ht, hcovers⟩ | ⟨p, q, hp, hpi, hiq, hfree, h⟩
  · exact .inl ⟨t, List.mem_append_right _ ht, hcovers⟩
  · refine .inr ⟨p, q, Nat.le_trans hl hp, hpi, hiq, hfree.behind fun t ht => Nat.le_trans (hus t ht) hp, ?_⟩
    rcases h with hgap | ⟨hl, hw⟩
    · exact .inl hgap.behind
    · rcases hloose p q hp hl hw with hgap | hl
      · exact .inl hgap
      · exact .inr ⟨hl, hw⟩

/-- Every unit of a raw block is data or belongs to one of its tags. -/
theorem RawBlock.filled {a b c e i : Nat} (h : RawBlock d source ts a b c e) (hl : l.offset ≤ a) (hab : a ≤ b)
    (hfree : Free ts a b) (hfree' : Free ts c e) (hi : a ≤ i) (hie : i < e) : Filled d source z l ts i := by
  rcases Nat.lt_or_ge i b with hib | hib
  · exact .inr ⟨a, b, hl, hi, hib, hfree, .inl (.rawBegin h)⟩
  rcases Nat.lt_or_ge i c with hic | hic
  · obtain ⟨t, ht, -, hstart, hfinish⟩ := h.data (Nat.lt_of_le_of_lt hib hic)
    exact .inl ⟨t, ht, by rw [hstart]; exact hib, by rw [hfinish]; exact hic⟩
  · have hle : l.offset ≤ c := Nat.le_trans (Nat.le_trans hl hab) h.between
    exact .inr ⟨c, e, hle, hic, hie, hfree', .inl (.rawEnd h)⟩

theorem Layout.filled (h : Layout d z l text ts) (hs : source.Ends text l.offset) {i : Nat}
    (hi : l.offset ≤ i) (hlen : i < source.length) : Filled d source z l ts i := by
  induction h with
  | finish l =>
    have := hs.length
    rw [List.length_nil] at this
    omega
  | @token z z' l w rest t us hstep hw hv hspan h ih =>
    rcases Nat.lt_or_ge i (l.after w).offset with hlt | hge
    · exact .inl ⟨t, List.mem_cons_self .., by rw [hspan]; exact ⟨hi, hlt⟩⟩
    · have hfinish : t.span.finish.offset = (l.after w).offset := by rw [hspan]
      refine (ih hs.after hge).behind [t] (l.offset_le_after w) (fun u hu => ?_) fun p q hp hloose hspaces => ?_
      · exact Nat.le_of_eq (by rw [List.mem_singleton.1 hu, hfinish])
      · exact hloose.behind_token hstep (by rw [hfinish]; exact hp) hspaces
  | @spacing z l w rest us hz hw h ih =>
    rcases Nat.lt_or_ge i (l.after w).offset with hlt | hge
    · refine .inr ⟨l.offset, (l.after w).offset, Nat.le_refl _, hi, hlt, ?_, .inr ⟨h.loose hz, ?_⟩⟩
      · exact fun t ht => .inr (h.offset_le t ht)
      · rw [hs.slice_after]
        exact hw
    · exact (ih hs.after hge).behind [] (l.offset_le_after w) nofun fun p q _ hloose _ => .inr hloose
  | @comment l w body rest us ho hw hfirst h ih =>
    rcases Nat.lt_or_ge i (l.after w).offset with hlt | hge
    · exact .inr ⟨_, _, Nat.le_refl _, hi, hlt, fun t ht => .inr (h.offset_le t ht), .inl (.of_comment hs ho hw hfirst)⟩
    · exact (ih hs.after hge).behind [] (l.offset_le_after w) nofun fun p q _ hloose _ => .inr hloose
  | @raw l w body v rest us ho hw hv hfirst h ih =>
    have hwhole : l.after (w ++ (body ++ v)) = ((l.after w).after body).after v := by
      rw [Location.after_append, Location.after_append]
    have hle := l.offset_le_after w
    have hle' := (l.after w).offset_le_after body
    have hle'' := ((l.after w).after body).offset_le_after v
    have hspan : ∀ t ∈ dataTokens (l.after w) body, t.span = ⟨l.after w, (l.after w).after body⟩ := by
      intro t ht
      rw [(mem_dataTokens.1 ht).2]
    have hafter : ∀ t ∈ us, (((l.after w).after body).after v).offset ≤ t.span.start.offset := by
      intro t ht
      rw [← hwhole]
      exact h.offset_le t ht
    rcases Nat.lt_or_ge i (((l.after w).after body).after v).offset with hlt | hge
    · refine (RawBlock.of_written hs ho hw hv hfirst).filled (Nat.le_refl _) hle (fun t ht => ?_) (fun t ht => ?_) hi hlt
      · rcases List.mem_append.1 ht with ht | ht
        · exact .inr (Nat.le_of_eq (by rw [hspan t ht]))
        · exact .inr (Nat.le_trans (Nat.le_trans hle' hle'') (hafter t ht))
      · rcases List.mem_append.1 ht with ht | ht
        · exact .inl (Nat.le_of_eq (by rw [hspan t ht]))
        · exact .inr (hafter t ht)
    · refine (ih hs.after (by rw [hwhole]; exact hge)).behind _ ?_ (fun t ht => ?_) fun p q _ hloose _ => hloose.elim
      · rw [hwhole]
        omega
      · rw [hspan t ht, hwhole]
        exact hle''

end Scan

/-! ## The tokens of a template -/

/-- The tokens of a template stand in its source one behind the other, the last of them being the end of
the source; each is written where it stands; and a unit that belongs to none of them lies in a gap. -/
theorem Environment.tokens_cover (env : Environment) {filename : Option Text} {source : Text}
    {ts : List Token} (h : env.tokens filename source = .ok ts) :
    (ts.Pairwise (fun t u => t.span.finish.offset ≤ u.span.start.offset) ∧
      ∀ t ∈ ts, t.span.start.offset ≤ t.span.finish.offset ∧
        (t.kind ≠ .eof → t.span.start.offset < t.span.finish.offset)) ∧
    (∃ l, ts.getLast? = some (Token.atEnd l) ∧ l.offset = source.length) ∧
    (∀ t ∈ ts, t.kind.Writes t.value (source.slice t.span.start.offset t.span.finish.offset)) ∧
    ∀ i < source.length, (∃ t ∈ ts, t.span.Covers i) ∨ ∃ p q, p ≤ i ∧ i < q ∧ Scan.Free ts p q ∧
      Scan.Gap env.delimiters source ts p q := by
  have hlayout : Scan.Layout env.delimiters .outside .origin source ts := Scan.tokensFrom_layout env.isSound h
  have hs : source.Ends source Location.origin.offset := ⟨[], rfl, rfl⟩
  refine ⟨hlayout.ordered, ?_, hlayout.writes hs, fun i hi => ?_⟩
  · obtain ⟨l, hl, hoff⟩ := hlayout.getLast?
    exact ⟨l, hl, hoff.trans (Nat.zero_add _)⟩
  · rcases hlayout.filled hs (Nat.zero_le i) hi with hcovers | ⟨p, q, -, hp, hq, hfree, hgap | ⟨hloose, -⟩⟩
    · exact .inl hcovers
    · exact .inr ⟨p, q, hp, hq, hfree, hgap⟩
    · exact hloose.elim

/-- A comment, the tags of a raw block and white space inside of a tag are the gaps of a source. -/
theorem Environment.tokens_cover_gaps :
    let source : Text := "\x7b# a #\x7d\x7b% raw %\x7d\x7b\x7b\x7b% endraw %\x7d\x7b\x7b '\\x' \x7d\x7d"
    ∃ ts, Environment.standard.tokens none source = .ok ts ∧
      ts.map (·.kind) = [.data, .variableBegin, .string, .variableEnd, .eof] ∧
      ts.map (·.span.start.offset) = [16, 30, 33, 38, 40] ∧
      ∀ i < source.length, (∃ t ∈ ts, t.span.Covers i) ∨ ∃ p q, p ≤ i ∧ i < q ∧ Scan.Free ts p q ∧
        Scan.Gap Environment.standard.delimiters source ts p q := by
  intro source
  have hread : (Scan.tokensWithin Environment.standard.delimiters none (source.length + 1)
      ⟨.outside, .origin, source⟩).any (fun scan => scan.toOption.any fun ts =>
        decide (ts.map (·.kind) = [.data, .variableBegin, .string, .variableEnd, .eof] ∧
          ts.map (·.span.start.offset) = [16, 30, 33, 38, 40])) = true := by decide +kernel
  clear_value source
  obtain ⟨scan, hscan, hread⟩ := (Option.any_eq_true ..).1 hread
  cases scan with
  | error e => cases hread
  | ok ts =>
    obtain ⟨hkinds, hstarts⟩ := of_decide_eq_true hread
    have h : Environment.standard.tokens none source = .ok ts :=
      Scan.tokensFrom_of_within Environment.standard.isSound (Nat.lt_succ_self _) hscan
    exact ⟨ts, h, hkinds, hstarts, (Environment.standard.tokens_cover h).2.2.2⟩

end Stencil
