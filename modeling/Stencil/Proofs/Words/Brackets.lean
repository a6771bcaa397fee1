/-
The brackets of a tag. `Tracks` is the rule by which they are followed: an opening bracket puts its closer
on a stack, the closer on top of the stack takes it off, and any other closer changes nothing. The closers
that a scan awaits are this stack (`foldl_tracks`).
-/
import Stencil.Token.Scan

namespace Stencil

/-- The three pairs of brackets. -/
inductive Symbol.Pairs : Symbol → Symbol → Prop
  | parens : Pairs openParen closeParen
  | brackets : Pairs openBracket closeBracket
  | braces : Pairs openBrace closeBrace

namespace Symbol

theorem closer?_eq_some_iff {o c : Symbol} : o.closer? = some c ↔ Pairs o c := by
  constructor
  · intro h
    cases o <;> cases h
    · exact .parens
    · exact .brackets
    · exact .braces
  · intro h
    cases h <;> rfl

theorem Pairs.closer?_right {o c : Symbol} (h : Pairs o c) : c.closer? = none := by cases h <;> rfl

end Symbol

namespace Scan

/-- Following brackets through kinds of tokens leads from one stack of closers to another. -/
inductive Tracks : List Symbol → List TokenKind → List Symbol → Prop
  | done (σ : List Symbol) : Tracks σ [] σ
  | opens {o c : Symbol} {σ τ : List Symbol} {ks : List TokenKind} (hp : o.Pairs c)
      (h : Tracks (c :: σ) ks τ) : Tracks σ (.symbol o :: ks) τ
  | closes {o c : Symbol} {σ τ : List Symbol} {ks : List TokenKind} (hp : o.Pairs c)
      (h : Tracks σ ks τ) : Tracks (c :: σ) (.symbol c :: ks) τ
  | ignores {k : TokenKind} {σ τ : List Symbol} {ks : List TokenKind}
      (hopen : ∀ o c, Symbol.Pairs o c → k ≠ .symbol o) (htop : ∀ c, σ.head? = some c → k ≠ .symbol c)
      (h : Tracks σ ks τ) : Tracks σ (k :: ks) τ

/-- The stack holds closers only. -/
def Closers (σ : List Symbol) : Prop := ∀ c ∈ σ, ∃ o, Symbol.Pairs o c

theorem Closers.nil : Closers [] := nofun

variable {σ : List Symbol} {k : TokenKind}

theorem trackBrackets_opens {o c : Symbol} (hp : o.Pairs c) (σ : List Symbol) :
    trackBrackets σ (.symbol o) = c :: σ := by
  simp only [trackBrackets, Symbol.closer?_eq_some_iff.2 hp]

theorem trackBrackets_closes {o c : Symbol} (hp : o.Pairs c) (σ : List Symbol) :
    trackBrackets (c :: σ) (.symbol c) = σ := by
  simp only [trackBrackets, hp.closer?_right, List.head?_cons, if_true, List.tail_cons]

theorem trackBrackets_ignores (hopen : ∀ o c, Symbol.Pairs o c → k ≠ .symbol o)
    (htop : ∀ c, σ.head? = some c → k ≠ .symbol c) : trackBrackets σ k = σ := by
  cases k with
  | symbol s =>
    cases hs : s.closer? with
    | some c => exact absurd rfl (hopen s c (Symbol.closer?_eq_some_iff.1 hs))
    | none =>
      simp only [trackBrackets, hs]
      rw [if_neg]
      exact fun h => htop s h rfl
  | _ => rfl

/-- A token opens a bracket, closes the one that was opened last, or changes nothing. -/
theorem trackBrackets_cases (hσ : Closers σ) (k : TokenKind) :
    (∃ o c, Symbol.Pairs o c ∧ k = .symbol o ∧ trackBrackets σ k = c :: σ) ∨
    (∃ o c τ, Symbol.Pairs o c ∧ k = .symbol c ∧ σ = c :: τ ∧ trackBrackets σ k = τ) ∨
    ((∀ o c, Symbol.Pairs o c → k ≠ .symbol o) ∧ (∀ c, σ.head? = some c → k ≠ .symbol c) ∧
      trackBrackets σ k = σ) := by
  by_cases hopen : ∃ o c, Symbol.Pairs o c ∧ k = .symbol o
  · obtain ⟨o, c, hp, rfl⟩ := hopen
    exact .inl ⟨o, c, hp, rfl, trackBrackets_opens hp σ⟩
  · have hopen (o c : Symbol) (hp : Symbol.Pairs o c) : k ≠ .symbol o := fun hk => hopen ⟨o, c, hp, hk⟩
    by_cases htop : ∃ c, σ.head? = some c ∧ k = .symbol c
    · obtain ⟨c, hc, rfl⟩ := htop
      obtain ⟨τ, rfl⟩ := List.head?_eq_some_iff.1 hc
      obtain ⟨o, hp⟩ := hσ c List.mem_cons_self
      exact .inr (.inl ⟨o, c, τ, hp, rfl, rfl, trackBrackets_closes hp τ⟩)
    · have htop (c : Symbol) (hc : σ.head? = some c) : k ≠ .symbol c := fun hk => htop ⟨c, hc, hk⟩
      exact .inr (.inr ⟨hopen, htop, trackBrackets_ignores hopen htop⟩)

theorem Closers.trackBrackets (hσ : Closers σ) (k : TokenKind) : Closers (trackBrackets σ k) := by
  rcases trackBrackets_cases hσ k with ⟨o, c, hp, -, h⟩ | ⟨o, c, τ, -, -, rfl, h⟩ | ⟨-, -, h⟩
  · rw [h]
    exact List.forall_mem_cons.2 ⟨⟨o, hp⟩, hσ⟩
  · rw [h]
    exact fun a ha => hσ a (List.mem_cons_of_mem c ha)
  · rwa [h]

/-- The awaited closers are the stack of the rule. -/
theorem foldl_tracks (hσ : Closers σ) (ks : List TokenKind) : Tracks σ ks (ks.foldl trackBrackets σ) := by
  induction ks generalizing σ with
  | nil => exact .done σ
  | cons k ks ih =>
    have hrest := ih (hσ.trackBrackets k)
    rw [List.foldl_cons]
    rcases trackBrackets_cases hσ k with ⟨o, c, hp, rfl, h⟩ | ⟨o, c, τ, hp, rfl, rfl, h⟩ | ⟨hopen, htop, h⟩
    · rw [h] at hrest ⊢
      exact .opens hp hrest
    · rw [h] at hrest ⊢
      exact .closes hp hrest
    · rw [h] at hrest ⊢
      exact .ignores hopen htop hrest

/-- Following brackets through kinds has one outcome, the stack of closers that runs. -/
theorem Tracks.foldl {τ : List Symbol} {ks : List TokenKind} (h : Tracks σ ks τ) : ks.foldl trackBrackets σ = τ := by
  induction h with
  | done => rfl
  | opens hp _ ih => rw [List.foldl_cons, trackBrackets_opens hp, ih]
  | closes hp _ ih => rw [List.foldl_cons, trackBrackets_closes hp, ih]
  | ignores hopen htop _ ih => rw [List.foldl_cons, trackBrackets_ignores hopen htop, ih]

theorem tracks_nil_iff {τ : List Symbol} {ks : List TokenKind} : Tracks [] ks τ ↔ ks.foldl trackBrackets [] = τ :=
  ⟨Tracks.foldl, fun h => h ▸ foldl_tracks .nil ks⟩

/-! ## Properly matched brackets -/

/-- Every bracket among the kinds is closed by its own closer, behind what stands between them. -/
inductive Matched : List TokenKind → Prop
  | nil : Matched []
  | plain {k : TokenKind} {ks : List TokenKind} (hk : ∀ o c, Symbol.Pairs o c → k ≠ .symbol o ∧ k ≠ .symbol c)
      (h : Matched ks) : Matched (k :: ks)
  | pair {o c : Symbol} {ks ks' : List TokenKind} (hp : o.Pairs c) (h : Matched ks) (h' : Matched ks') :
      Matched (.symbol o :: (ks ++ .symbol c :: ks'))

/-- Properly matched brackets leave the awaited closers as they were. -/
theorem Matched.foldl_trackBrackets {ks : List TokenKind} (h : Matched ks) (hσ : Closers σ) :
    ks.foldl trackBrackets σ = σ := by
  induction h generalizing σ with
  | nil => rfl
  | plain hk _ ih =>
    have hsame : trackBrackets σ _ = σ := trackBrackets_ignores (fun o c hp => (hk o c hp).1) fun c hc => by
      obtain ⟨o, hp⟩ := hσ c (List.mem_of_mem_head? hc)
      exact (hk o c hp).2
    rw [List.foldl_cons, hsame]
    exact ih hσ
  | @pair o c ks ks' hp _ _ ih ih' =>
    rw [List.foldl_cons, trackBrackets_opens hp, List.foldl_append, ih (List.forall_mem_cons.2 ⟨⟨o, hp⟩, hσ⟩),
      List.foldl_cons, trackBrackets_closes hp]
    exact ih' hσ

end Scan
end Stencil
