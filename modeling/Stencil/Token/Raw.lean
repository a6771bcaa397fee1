/-
Raw blocks: the tags around them and the text between. A raw tag is the block delimiters around one
word, with blanks between, of which the closing delimiter may begin with some; the block ends at the
earliest tag with the word `endraw`.
-/
import Stencil.Delimiters
import Stencil.Text.Blank

namespace Stencil.Delimiters

open Text

/-- What follows `close`, before which blanks may stand; of several readings the one with most
blanks. -/
def afterBlanks (close : Text) : Text → Option Text
  | [] => after? close []
  | c :: t =>
    match if isBlank c then afterBlanks close t else none with
    | some r => some r
    | none => after? close (c :: t)

/-- What follows a block tag that holds `word` alone, if one stands at the head of the text. -/
def afterWordTag (d : Delimiters) (word t : Text) : Option Text :=
  match after? d.blockStart t with
  | none => none
  | some t =>
    match after? word (t.dropWhile isBlank) with
    | none => none
    | some t => afterBlanks d.blockEnd t

/-- The word of the tag that begins a raw block. -/
def rawWord : Text := "raw"

/-- The word of the tag that ends a raw block. -/
def endRawWord : Text := "endraw"

/-- The text before the first tag that ends a raw block, and the text behind that tag. -/
def splitRaw (d : Delimiters) : Text → Option (Text × Text)
  | [] => (d.afterWordTag endRawWord []).map fun r => ([], r)
  | c :: t =>
    match d.afterWordTag endRawWord (c :: t) with
    | some r => some ([], r)
    | none => (d.splitRaw t).map fun (b, r) => (c :: b, r)

/-! ## Nothing but a beginning is consumed -/

theorem afterBlanks_append {close t r : Text} (h : afterBlanks close t = some r) :
    ∃ w, t = w ++ r := by
  induction t with
  | nil => exact ⟨close, after?_eq_some.1 h⟩
  | cons c t ih =>
    rw [afterBlanks] at h
    split at h
    · rename_i r' hr
      cases h
      split at hr
      · obtain ⟨w, rfl⟩ := ih hr; exact ⟨c :: w, rfl⟩
      · cases hr
    · exact ⟨close, after?_eq_some.1 h⟩

theorem afterWordTag_append {d : Delimiters} {word t r : Text} (h : d.afterWordTag word t = some r) :
    ∃ w, t = d.blockStart ++ w ++ r := by
  unfold afterWordTag at h
  split at h
  · cases h
  · rename_i u hu
    split at h
    · cases h
    · rename_i v hv
      obtain ⟨w, rfl⟩ := afterBlanks_append h
      have hd : u = u.takeWhile isBlank ++ u.dropWhile isBlank := List.takeWhile_append_dropWhile.symm
      refine ⟨u.takeWhile isBlank ++ word ++ w, ?_⟩
      rw [after?_eq_some.1 hu]
      conv => lhs; rw [hd, after?_eq_some.1 hv]
      simp

theorem splitRaw_append {d : Delimiters} {t b r : Text} (h : d.splitRaw t = some (b, r)) :
    ∃ w, t = b ++ w ++ r := by
  induction t generalizing b with
  | nil =>
    simp only [splitRaw, Option.map_eq_some_iff, Prod.mk.injEq] at h
    obtain ⟨a, ha, rfl, rfl⟩ := h
    obtain ⟨w, hw⟩ := afterWordTag_append ha
    exact ⟨d.blockStart ++ w, by simpa using hw⟩
  | cons c t ih =>
    rw [splitRaw] at h
    split at h
    · rename_i r' hr
      cases h
      obtain ⟨w, hw⟩ := afterWordTag_append hr
      exact ⟨d.blockStart ++ w, by simpa using hw⟩
    · simp only [Option.map_eq_some_iff, Prod.mk.injEq] at h
      obtain ⟨⟨b', r'⟩, ha, rfl, rfl⟩ := h
      obtain ⟨w, rfl⟩ := ih ha
      exact ⟨w, by simp⟩

end Stencil.Delimiters
