/-
The same tokens read twice: alone, where the source ends behind them, and in a tag, where the tag ends
behind them. A reader agrees on both streams if it has one value and stops at the same token, or fails on
both (`Twin.Agrees`). Only a tuple may come late: alone it fails where the tokens end with a comma or are
missing, because only the end of a tag may stand there.
-/
import Stencil.Proofs.Layout.Written
import Stencil.Proofs.Span.Edge
import Stencil.Proofs.Writing.Position

namespace Stencil

/-- Two streams of the same tokens: alone, and behind the begin of a tag. -/
structure Twin where
  alone : Stream
  tagged : Stream
  /-- The number of tokens, behind which the source ends, or the tag. -/
  count : Nat
  same : ∀ p < count, tagged.get (p + 1) = alone.get p
  inner : ∀ p < count, (alone.get p).kind.inExpression = true
  alone_end : ∀ p, count ≤ p → (alone.get p).kind = .eof
  tagged_begin : (tagged.get 0).kind = .variableBegin
  tagged_end : (tagged.get (count + 1)).kind = .variableEnd
  tagged_behind : ∀ p, count + 2 ≤ p → (tagged.get p).kind = .eof

namespace Twin

variable {α β : Type} (m : Twin)

/-- The tokens end with a comma. -/
def Comma : Prop := ∃ i, m.count = i + 1 ∧ (m.alone.get i).kind = .symbol .comma

/-- A comma that ends the tokens is not read over. -/
def Clear (p q : Nat) : Prop := m.Comma → p < m.count → q < m.count

/-- Two outcomes of readers that begin at a token are one: a value and a position, not behind a last comma, or
failures. If `late` says so, the reader in the tag may also have gone on to its end where the one alone
fails. -/
def Match (late : Prop) (p : Nat) (good : α → Nat → Prop) : Reply α → Reply α → Prop
  | .ok a q, .ok b r => b = a ∧ r = q + 1 ∧ q ≤ m.count ∧ m.Clear p q ∧ good a q
  | .fail _ _, .fail _ _ => True
  | .fail _ _, .ok _ r => late ∧ r = m.count + 1
  | .ok _ _, .fail _ _ => False

/-- Two readers that begin at a token have one outcome on the streams. -/
def Agrees (late : Prop) (x y : Parser α) (p : Nat) (good : α → Nat → Prop) : Prop :=
  m.Match late p good (x m.alone p) (y m.tagged (p + 1))

/-- A reader at the end of the tag fails or stays there, and stays only if `late` says so. -/
def Stays (late : Prop) (y : Parser α) : Prop :=
  match y m.tagged (m.count + 1) with
  | .ok _ r => late ∧ r = m.count + 1
  | .fail _ _ => True

variable {m}
variable {late late' : Prop} {x y : Parser α} {f f' : α → Parser β} {p : Nat} {P : α → Nat → Prop}
  {good : β → Nat → Prop}

theorem lt_of_kind (h : (m.alone.get p).kind ≠ .eof) : p < m.count := by
  rcases Nat.lt_or_ge p m.count with hp | hp
  · exact hp
  · exact absurd (m.alone_end p hp) h

theorem clear_succ (h : (m.alone.get p).kind ≠ .symbol .comma) : m.Clear p (p + 1) := by
  rintro ⟨i, hi, hcomma⟩ hp
  have hne : p ≠ i := by
    rintro rfl
    exact h hcomma
  omega

/-- An outcome from a token on, of which less is asked, or which is said to be one from another token on. -/
theorem Match.mono {q : Nat} {Q : α → Nat → Prop} {a b : Reply α} (h : m.Match late q P a b) (hlate : late → late')
    (hPQ : ∀ a r, r ≤ m.count → P a r → m.Clear q r → m.Clear p r ∧ Q a r) : m.Match late' p Q a b := by
  cases a with
  | ok a i =>
    cases b with
    | ok b j =>
      obtain ⟨hb, hj, hi, hclear, ha⟩ := h
      exact ⟨hb, hj, hi, hPQ a i hi ha hclear⟩
    | fail e j => exact h
  | fail e i =>
    cases b with
    | ok b j => exact ⟨hlate h.1, h.2⟩
    | fail e j => trivial

/-- What is read from a later token on is read from an earlier one on, if no last comma is between them. -/
theorem Match.since {q : Nat} {a b : Reply α} (h : m.Match late q P a b) (hclear : m.Clear p q) :
    m.Match late p P a b :=
  h.mono id fun _ _ _ ha hq => ⟨fun hcomma hp => hq hcomma (hclear hcomma hp), ha⟩

/-! ## Putting readers together -/

namespace Agrees

theorem mono {Q : α → Nat → Prop} (h : m.Agrees late x y p P) (hlate : late → late')
    (hPQ : ∀ a q, q ≤ m.count → P a q → Q a q) : m.Agrees late' x y p Q :=
  Match.mono h hlate fun a q hq ha hclear => ⟨hclear, hPQ a q hq ha⟩

/-- A sequence agrees if its parts do; where the first part is late, the second is at the end of the tag. -/
theorem bind_late (h : m.Agrees late' x y p P)
    (k : ∀ a q, q ≤ m.count → P a q → m.Agrees late (f a) (f' a) q good)
    (hlate : late' → ∀ b, m.Stays late (f' b)) : m.Agrees late (x >>= f) (y >>= f') p good := by
  have hbind (z : Parser α) (w : α → Parser β) (s : Stream) (i : Nat) : (z >>= w) s i =
      match z s i with | .ok a q => w a s q | .fail e q => .fail e q := rfl
  unfold Agrees at h ⊢
  rw [hbind, hbind]
  cases hx : x m.alone p with
  | ok a q =>
    cases hy : y m.tagged (p + 1) with
    | ok b r =>
      rw [hx, hy] at h
      obtain ⟨rfl, rfl, hq, hclear, ha⟩ := h
      exact Match.since (k b q hq ha) hclear
    | fail e r => rw [hx, hy] at h; exact h.elim
  | fail e q =>
    cases hy : y m.tagged (p + 1) with
    | ok b r =>
      rw [hx, hy] at h
      obtain ⟨hl, rfl⟩ := h
      have hstays := hlate hl b
      unfold Stays at hstays
      simp only
      cases hf : f' b m.tagged (m.count + 1) with
      | ok c r => rw [hf] at hstays; exact hstays
      | fail e r => trivial
    | fail e r => trivial

theorem bind (h : m.Agrees False x y p P)
    (k : ∀ a q, q ≤ m.count → P a q → m.Agrees late (f a) (f' a) q good) :
    m.Agrees late (x >>= f) (y >>= f') p good := h.bind_late k False.elim

theorem pure {a : β} (hp : p ≤ m.count) (h : good a p) :
    m.Agrees late (Pure.pure a) (Pure.pure a) p good := ⟨rfl, rfl, hp, fun _ => id, h⟩

theorem ite {b b' : Prop} [Decidable b] [Decidable b'] {z w : Parser α} (hb : b ↔ b')
    (ht : b → m.Agrees late x y p P) (he : ¬b → m.Agrees late z w p P) :
    m.Agrees late (if b then x else z) (if b' then y else w) p P := by
  by_cases h : b
  · rw [if_pos h, if_pos (hb.1 h)]; exact ht h
  · rw [if_neg h, if_neg fun h' => h (hb.2 h')]; exact he h

/-- Alone nothing can be read behind the tokens. -/
theorem alone_fails (h : m.Agrees late x y m.count fun _ q => m.count < q) :
    ∃ e q, x m.alone m.count = .fail e q := by
  unfold Agrees at h
  cases hx : x m.alone m.count with
  | ok a q =>
    cases hy : y m.tagged (m.count + 1) with
    | ok b r =>
      rw [hx, hy] at h
      exact absurd h.2.2.2.2 (Nat.not_lt.2 h.2.2.1)
    | fail e r => rw [hx, hy] at h; exact h.elim
  | fail e q => exact ⟨e, q, rfl⟩

/-! ## Looking and moving -/

/-- The current token is the same, or the end of the source and the end of the tag. -/
theorem current {f f' : Token → Parser β} (hp : p ≤ m.count)
    (k : p < m.count → m.Agrees late (f (m.alone.get p)) (f' (m.alone.get p)) p good)
    (hend : p = m.count → ∀ t t', t.kind = .eof → t'.kind = .variableEnd → m.Agrees late (f t) (f' t') p good) :
    m.Agrees late (Parser.current >>= f) (Parser.current >>= f') p good := by
  show m.Agrees late (f (m.alone.get p)) (f' (m.tagged.get (p + 1))) p good
  rcases Nat.lt_or_eq_of_le hp with hlt | rfl
  · rw [m.same p hlt]
    exact k hlt
  · exact hend rfl _ _ (m.alone_end _ (Nat.le_refl _)) m.tagged_end

/-- The token behind the current one: of the kinds that stand in expressions it is one in both streams. -/
theorem peek {f f' : Token → Parser β} (k : ∀ t', (∀ kind, kind.inExpression = true →
    (((m.alone.get (p + 1)).kind = kind ↔ t'.kind = kind) ∧ ((m.alone.get (p + 1)).kind = kind → p + 1 < m.count))) →
      m.Agrees late (f (m.alone.get (p + 1))) (f' t') p good) :
    m.Agrees late (Parser.peek 1 >>= f) (Parser.peek 1 >>= f') p good := by
  refine k (m.tagged.get (p + 1 + 1)) fun kind hkind => ?_
  have hnot {kind' : TokenKind} (hk : kind'.inExpression = false) : kind' ≠ kind := by
    rintro rfl
    rw [hkind] at hk
    cases hk
  rcases Nat.lt_or_ge (p + 1) m.count with hlt | hge
  · rw [m.same _ hlt]
    exact ⟨Iff.rfl, fun _ => hlt⟩
  · have halone : (m.alone.get (p + 1)).kind ≠ kind := by
      rw [m.alone_end _ hge]
      exact hnot rfl
    have htagged : (m.tagged.get (p + 1 + 1)).kind ≠ kind := by
      rcases Nat.eq_or_lt_of_le hge with heq | hlt
      · rw [← heq, m.tagged_end]
        exact hnot rfl
      · rw [m.tagged_behind _ (by omega)]
        exact hnot rfl
    exact ⟨⟨fun h => absurd h halone, fun h => absurd h htagged⟩, fun h => absurd h halone⟩

theorem previousEnd {f f' : Location → Parser β} (h : 0 < p) (hp : p ≤ m.count)
    (k : ∀ l, m.Agrees late (f l) (f' l) p good) :
    m.Agrees late (Parser.previousEnd >>= f) (Parser.previousEnd >>= f') p good := by
  show m.Agrees late (f (m.alone.endBefore p)) (f' (m.tagged.endBefore (p + 1))) p good
  obtain ⟨i, rfl⟩ : ∃ i, p = i + 1 := ⟨p - 1, by omega⟩
  have hfinish (s : Stream) (j : Nat) : s.endBefore (j + 1) = (s.get j).span.finish := by
    have hedge : 2 * (j + 1) - 1 = 2 * j + 1 := by omega
    rw [Stream.endBefore_eq (Nat.succ_pos j), hedge, Stream.edge_finish]
  rw [hfinish, hfinish, m.same i hp]
  exact k _

/-- Kinds that may stand in expressions are looked for. -/
theorem checked {ks : List TokenKind} {f f' : Bool → Parser β} (hp : p ≤ m.count)
    (hks : ks.all TokenKind.inExpression = true)
    (k : ∀ b, (b = true → (m.alone.get p).kind ∈ ks ∧ p < m.count) → m.Agrees late (f b) (f' b) p good) :
    m.Agrees late (Parser.check ks >>= f) (Parser.check ks >>= f') p good := by
  show m.Agrees late (f (ks.contains (m.alone.get p).kind)) (f' (ks.contains (m.tagged.get (p + 1)).kind)) p good
  rcases Nat.lt_or_eq_of_le hp with hlt | rfl
  · rw [m.same p hlt]
    exact k _ fun hb => ⟨List.contains_iff_mem.1 hb, hlt⟩
  · have hnot {kind : TokenKind} (hk : kind.inExpression = false) : ks.contains kind = false := by
      rw [Bool.eq_false_iff]
      intro hmem
      rw [List.all_eq_true.1 hks kind (List.contains_iff_mem.1 hmem)] at hk
      cases hk
    rw [m.alone_end _ (Nat.le_refl _), m.tagged_end, hnot rfl, hnot rfl]
    exact k false nofun

theorem check {ks : List TokenKind} {z z' w w' : Parser β} (hp : p ≤ m.count)
    (hks : ks.all TokenKind.inExpression = true)
    (ht : (m.alone.get p).kind ∈ ks → p < m.count → m.Agrees late z z' p good)
    (he : m.Agrees late w w' p good) :
    m.Agrees late (Parser.check ks >>= fun b => if b = true then z else w)
      (Parser.check ks >>= fun b => if b = true then z' else w') p good :=
  checked hp hks fun _ hb => ite Iff.rfl (fun h => ht (hb h).1 (hb h).2) fun _ => he

theorem advance {f f' : Token → Parser β} (hp : p < m.count) (hcomma : (m.alone.get p).kind ≠ .symbol .comma)
    (k : m.Agrees late (f (m.alone.get p)) (f' (m.alone.get p)) (p + 1) good) :
    m.Agrees late (Parser.advance >>= f) (Parser.advance >>= f') p good := by
  have hk : (m.alone.get p).kind ≠ .eof := by
    intro hk
    have := m.inner p hp
    rw [hk] at this
    cases this
  unfold Agrees
  rw [Parser.advance_bind hk, Parser.advance_bind (by rw [m.same p hp]; exact hk), m.same p hp]
  exact Match.since k (clear_succ hcomma)

/-- Moving over one of the kinds that have been looked for. -/
theorem advance_of_mem {ks : List TokenKind} {f f' : Token → Parser β} (hk : (m.alone.get p).kind ∈ ks)
    (hp : p < m.count) (hks : ks.contains (.symbol .comma) = false)
    (k : m.Agrees late (f (m.alone.get p)) (f' (m.alone.get p)) (p + 1) good) :
    m.Agrees late (Parser.advance >>= f) (Parser.advance >>= f') p good := by
  refine advance hp (fun hcomma => ?_) k
  rw [← hcomma, List.contains_iff_mem.2 hk] at hks
  cases hks

/-! ## Failing -/

theorem fails (hx : ∃ e q, x m.alone p = .fail e q) (hy : ∃ e q, y m.tagged (p + 1) = .fail e q) :
    m.Agrees late x y p P := by
  obtain ⟨e, q, hx⟩ := hx
  obtain ⟨e', q', hy⟩ := hy
  unfold Agrees
  rw [hx, hy]
  trivial

theorem report {id id' : ErrorId} {c c' : MessageContext} {l l' : Location} :
    m.Agrees late (Parser.report id c l) (Parser.report id' c' l') p P := trivial

theorem fault {e e' : Fault} : m.Agrees late (Parser.faultWith e : Parser α) (Parser.faultWith e') p P := trivial

/-- A token of a kind is expected, and what is read behind it has one outcome. -/
theorem expectThen {kind : TokenKind} {f f' : Token → Parser β} (hp : p ≤ m.count) (hkind : kind.inExpression = true)
    (k : (m.alone.get p).kind = kind → p < m.count → m.Match late p good (f (m.alone.get p) m.alone (p + 1))
      (f' (m.alone.get p) m.tagged (p + 1 + 1))) :
    m.Agrees late (Parser.expect kind >>= f) (Parser.expect kind >>= f') p good := by
  have hne : kind ≠ .eof := by
    rintro rfl
    cases hkind
  have hother (w : Token → Parser β) (s : Stream) (i : Nat) (h : (s.get i).kind ≠ kind) :
      ∃ e q, (Parser.expect kind >>= w) s i = .fail e q := ⟨_, _, Parser.bind_eq_fail.2 (.inl (if_neg h))⟩
  by_cases hk : (m.alone.get p).kind = kind
  · have hlt : p < m.count := by
      refine lt_of_kind ?_
      rw [hk]
      exact hne
    unfold Agrees
    rw [Parser.expect_bind hk hne f, Parser.expect_bind (by rw [m.same p hlt]; exact hk) hne f', m.same p hlt]
    exact k hk hlt
  · refine fails (hother f _ _ hk) (hother f' _ _ ?_)
    rcases Nat.lt_or_eq_of_le hp with hlt | rfl
    · rw [m.same p hlt]
      exact hk
    · rw [m.tagged_end]
      rintro rfl
      cases hkind

theorem expect {kind : TokenKind} {f f' : Token → Parser β} (hp : p ≤ m.count) (hkind : kind.inExpression = true)
    (hcomma : kind ≠ .symbol .comma)
    (k : p < m.count → m.Agrees late (f (m.alone.get p)) (f' (m.alone.get p)) (p + 1) good) :
    m.Agrees late (Parser.expect kind >>= f) (Parser.expect kind >>= f') p good :=
  expectThen hp hkind fun hk hlt => Match.since (k hlt) (clear_succ (by rw [hk]; exact hcomma))

/-- A comma is expected that does not end the tokens, as what is read behind it says. -/
theorem comma {f f' : Token → Parser β} (hp : p ≤ m.count)
    (k : (m.alone.get p).kind = .symbol .comma → p < m.count → m.Agrees late (f (m.alone.get p)) (f' (m.alone.get p))
      (p + 1) fun a q => good a q ∧ (q = m.count → p + 1 < q)) :
    m.Agrees late (Parser.expectSymbol .comma >>= f) (Parser.expectSymbol .comma >>= f') p good := by
  refine expectThen hp rfl fun hk hlt => Match.mono (k hk hlt) id fun a q hq ha hclear => ⟨fun hcomma _ => ?_, ha.1⟩
  -- behind a last comma nothing more can be read, which what is read there says of itself
  rcases Nat.lt_or_eq_of_le hlt with hbefore | hlast
  · exact hclear hcomma hbefore
  · have := ha.2
    omega

end Agrees

/-! ## The end of the tag -/

theorem Stays.fail {e : Failure} {q : Nat} (h : y m.tagged (m.count + 1) = .fail e q) : m.Stays late y := by
  unfold Stays
  rw [h]
  trivial

/-- No symbol stands at the end of the tag. -/
theorem Stays.expectSymbol {s : Symbol} {f : Token → Parser β} : m.Stays late (Parser.expectSymbol s >>= f) := by
  have hfail : ∃ e q, Parser.expectSymbol s m.tagged (m.count + 1) = .fail e q :=
    ⟨_, _, if_neg (by rw [m.tagged_end]; nofun)⟩
  obtain ⟨e, q, h⟩ := hfail
  exact .fail (Parser.bind_eq_fail.2 (.inl h))

end Twin

/-! ## Rules for expressions -/

namespace Rule

/-- The rule reads an expression or a part of one. -/
def isExpression : {p : Phrase} → Rule p → Bool
  | _, .expression _ | _, .cond | _, .condRest _ | _, .binary _ | _, .binaryRest _ _ | _, .compare
  | _, .compareRest | _, .unary | _, .primary _ | _, .tuple _ | _, .tupleRest _ | _, .list | _, .listItems _
  | _, .dict | _, .dictItems _ | _, .suffixes _ | _, .subscript _ | _, .subscriptItems _ | _, .subscriptItem
  | _, .call _ | _, .arguments | _, .argumentsRest _ _ | _, .filter _ | _, .filterChain _ | _, .filterRest _
  | _, .singleFilter _ | _, .test _ => true
  | _, _ => false

/-- The rule may come from one position to another: most rules read one token at least, and a tuple needs one
behind it. -/
@[reducible] def Moves (m : Twin) (p q : Nat) : {ph : Phrase} → Rule ph → Prop
  | _, .condRest _ | _, .binaryRest _ _ | _, .compareRest | _, .listItems _ | _, .dictItems _
  | _, .subscriptItems _ | _, .suffixes _ | _, .argumentsRest _ _ | _, .filter _ | _, .filterRest _ => p ≤ q
  | _, .tuple _ => p ≤ q ∧ p < m.count
  | _, _ => p < q

/-- Where a rule may fail alone and come to the end of the tag: a tuple without items, or one that ends with
a comma. -/
def Late (m : Twin) (p : Nat) : {ph : Phrase} → Rule ph → Prop
  | _, .tuple _ => p = m.count ∨ m.Comma
  | _, .tupleRest _ => m.Comma
  | _, _ => False

end Rule

/-- The rules for expressions agree on both streams. -/
def Twin.Mirrors (m : Twin) (g : Grammar) : Prop :=
  ∀ ⦃ph : Phrase⦄ (r : Rule ph) ⦃p : Nat⦄, p ≤ m.count → r.isExpression = true →
    m.Agrees (r.Late m p) (g r) (g r) p fun _ q => r.Moves m p q

end Stencil
