/-
Looking for one text in another: what follows a given beginning, the first occurrence, splitting and
joining. The main statements say that the pieces put together again are the whole.
-/
import Stencil.Text.Unit

namespace Stencil.Text

/-- What follows `lead` at the head of a text, if the text begins with it. -/
def after? : (lead : Text) → Text → Option Text
  | [], t => some t
  | _ :: _, [] => none
  | a :: l, b :: t => if a = b then after? l t else none

def startsWith (t lead : Text) : Bool := (after? lead t).isSome

theorem after?_eq_some {lead t rest : Text} : after? lead t = some rest ↔ t = lead ++ rest := by
  induction lead generalizing t with
  | nil => simp [after?, eq_comm]
  | cons a l ih =>
    cases t with
    | nil => simp [after?]
    | cons b t =>
      by_cases h : a = b
      · subst h; simp [after?, ih]
      · simp [after?, h, Ne.symm h]

theorem startsWith_iff {t lead : Text} : startsWith t lead = true ↔ ∃ rest, t = lead ++ rest := by
  simp [startsWith, Option.isSome_iff_exists, after?_eq_some]

theorem startsWith_iff_isPrefix {t lead : Text} : startsWith t lead = true ↔ lead <+: t :=
  startsWith_iff.trans (exists_congr fun _ => eq_comm)

/-- The text before the first occurrence of `mark`, and the text after that occurrence. -/
def splitAtFirst (mark : Text) : Text → Option (Text × Text)
  | [] => (after? mark []).map fun r => ([], r)
  | c :: t =>
    match after? mark (c :: t) with
    | some r => some ([], r)
    | none => (splitAtFirst mark t).map fun (b, r) => (c :: b, r)

theorem splitAtFirst_eq {mark t b r : Text} (h : splitAtFirst mark t = some (b, r)) :
    t = b ++ mark ++ r := by
  induction t generalizing b with
  | nil =>
    simp only [splitAtFirst, Option.map_eq_some_iff, Prod.mk.injEq] at h
    obtain ⟨a, ha, rfl, rfl⟩ := h
    simpa using after?_eq_some.1 ha
  | cons c t ih =>
    rw [splitAtFirst] at h
    split at h
    · rename_i r' hr
      cases h
      simpa using after?_eq_some.1 hr
    · simp only [Option.map_eq_some_iff, Prod.mk.injEq] at h
      obtain ⟨⟨b', r'⟩, ha, rfl, rfl⟩ := h
      have := ih ha
      simp [this]

/-- The pieces of a text between the units `mark`; there is always one more piece than marks. -/
def splitOn (mark : CodeUnit) : Text → List Text
  | [] => [[]]
  | c :: t =>
    match splitOn mark t with
    | [] => [[c]]
    | p :: ps => if c = mark then [] :: p :: ps else (c :: p) :: ps

/-- The texts written one after another with `mark` between them. -/
def join (mark : Text) : List Text → Text
  | [] => []
  | [t] => t
  | t :: u :: ts => t ++ mark ++ join mark (u :: ts)

def lines (ts : List Text) : Text := join [unit '\n'] ts

/-- The text without the units at its end that satisfy `p`. -/
def dropEndWhile (p : CodeUnit → Bool) (t : Text) : Text := (t.reverse.dropWhile p).reverse

theorem splitOn_ne_nil (mark : CodeUnit) (t : Text) : splitOn mark t ≠ [] := by
  cases t with
  | nil => simp [splitOn]
  | cons c t => simp only [splitOn]; split <;> (try split) <;> simp

/-- Splitting loses nothing. -/
theorem join_splitOn (mark : CodeUnit) (t : Text) : join [mark] (splitOn mark t) = t := by
  induction t with
  | nil => rfl
  | cons c t ih =>
    simp only [splitOn]
    split
    · rename_i h; exact absurd h (splitOn_ne_nil mark t)
    · rename_i p ps h
      rw [h] at ih
      split
      · rename_i hc; subst hc; simp [join, ih]
      · cases ps with
        | nil => simpa [join] using ih
        | cons q ps => simp [join, ← ih]

end Stencil.Text
