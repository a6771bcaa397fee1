/-
What has been read decides the outcome. A rule that ends at a position, with a tree or a mistake, has looked at the
tokens up to there and at one more, the kind of the token behind (`run_eq_of_agrees`), and never goes back. Only the
bound on the depth depends on the whole stream: it is deep enough for the stream cut off behind those tokens.
-/
import Stencil.Proofs.Parallel.Run

namespace Stencil

namespace Stream

/-- The two streams have the same tokens up to a position, and behind it a token of the same kind, unless the one at
it is an end token. -/
structure Agrees (s s' : Stream) (horizon : Nat) : Prop where
  filename : s'.filename = s.filename
  same : ∀ i ≤ horizon, s'.get i = s.get i
  next : ∀ i ≤ horizon, (s.get i).kind ≠ .eof → (s'.get (i + 1)).kind = (s.get (i + 1)).kind

/-- Two streams that agree, side by side. -/
def Agrees.beside {s s' : Stream} {horizon : Nat} (h : s.Agrees s' horizon) : Parallel where
  left := s
  right := s'
  move := id
  offset := 0
  horizon := horizon
  move_origin := rfl
  start := by
    show (s'.get 0).span.finish = (s.get 0).span.finish
    rw [h.same 0 (Nat.zero_le _)]
  same := h.same
  next i hi k k' hk hi' := by
    have hne : (s.get i).kind ≠ .eof := by
      rw [hi']
      rintro rfl
      simp [Grammar.lookahead] at hk
    rw [Nat.add_zero, h.next i hi hne]

theorem Agrees.refl (s : Stream) (horizon : Nat) : s.Agrees s horizon := ⟨rfl, fun _ _ => rfl, fun _ _ _ => rfl⟩

/-- Two streams that a stream agrees with agree. -/
theorem Agrees.of_both {s s' s'' : Stream} {horizon : Nat} (h : s.Agrees s' horizon) (h' : s.Agrees s'' horizon) :
    s'.Agrees s'' horizon where
  filename := h'.filename.trans h.filename.symm
  same i hi := (h'.same i hi).trans (h.same i hi).symm
  next i hi hk := by
    have hk' : (s.get i).kind ≠ .eof := by rw [← h.same i hi]; exact hk
    exact (h'.next i hi hk').trans (h.next i hi hk').symm

theorem get_eq_of_getElem?_eq {s s' : Stream} {i : Nat} (hi : i < s.tokens.size)
    (h : s'.tokens[i]? = s.tokens[i]?) : s'.get i = s.get i := by
  unfold get
  rw [h, Array.getElem?_eq_getElem hi]
  rfl

/-- Behind a token that is not the end another one stands. -/
theorem succ_lt_size {s : Stream} (hlast : s.last.kind = .eof) {i : Nat} (hi : i < s.tokens.size)
    (hk : (s.get i).kind ≠ .eof) : i + 1 < s.tokens.size := by
  refine Nat.lt_of_not_le fun hle => hk ?_
  have hend : i = s.tokens.size - 1 := by omega
  rw [hend, get_last, hlast]

/-- The first tokens of a stream and an end token behind them. -/
def upTo (s : Stream) (k : Nat) : Stream where
  tokens := (s.tokens.toList.take k ++ [Token.atEnd .origin]).toArray
  ne_empty := by simp
  filename := s.filename
  delimiters := s.delimiters

theorem last_upTo (s : Stream) (k : Nat) : (s.upTo k).last.kind = .eof := by
  unfold last upTo
  simp [Token.atEnd]

theorem size_upTo (s : Stream) (k : Nat) : (s.upTo k).tokens.size = min k s.tokens.size + 1 := by
  unfold upTo
  simp

theorem getElem?_upTo (s : Stream) {k i : Nat} (hk : i < k) (hi : i < s.tokens.size) :
    (s.upTo k).tokens[i]? = s.tokens[i]? := by
  unfold upTo
  rw [List.getElem?_toArray, List.getElem?_append_left (by simp; omega), List.getElem?_take_of_lt hk,
    Array.getElem?_toList]

end Stream

namespace Grammar

variable {find : Text → Option Extension} {p : Phrase} {pos : Nat} {s s' : Stream}

/-- At every depth a rule has the same outcome on two streams that agree up to where it ends. -/
theorem run_eq_of_agrees (hx : FindsBuiltin find) (n : Nat) (r : Rule p) {horizon : Nat} (h : s.Agrees s' horizon)
    (hend : (run find n r s pos).pos ≤ horizon) : run find n r s' pos = run find n r s pos := by
  have hcarried : h.beside.Carried (p.mapPlaces id) (run find n r s pos) (run find n (r.mapPlaces id) s' pos) :=
    (run_carries_all (m := h.beside) hx n r).2 hend
  rw [Rule.mapPlaces_id] at hcarried
  exact hcarried.eq_of_fixed rfl rfl h.filename

/-- A stream that ends in its end token and has the tokens of another one up to where a rule ends on that, and one more
as far as the other has it, agrees with it so far. -/
theorem agrees_of_getElem? {horizon : Nat} (hlast : s.last.kind = .eof) (hhorizon : horizon < s.tokens.size)
    (hfile : s'.filename = s.filename)
    (hsame : ∀ i ≤ horizon + 1, i < s.tokens.size → s'.tokens[i]? = s.tokens[i]?) : s.Agrees s' horizon where
  filename := hfile
  same i hi := Stream.get_eq_of_getElem?_eq (by omega) (hsame i (by omega) (by omega))
  next i hi hk := by
    have hsucc : i + 1 < s.tokens.size := Stream.succ_lt_size hlast (by omega) hk
    rw [Stream.get_eq_of_getElem?_eq hsucc (hsame (i + 1) (by omega) hsucc)]

/-- A rule ends before the end of the stream, or at it. -/
theorem ofExtensions_pos_lt (hx : OrderlyTags find) (hlast : s.last.kind = .eof) (r : Rule p)
    (hpos : pos < s.tokens.size) :
    pos ≤ (ofExtensions find r s pos).pos ∧ (ofExtensions find r s pos).pos < s.tokens.size := by
  have hsettles := settles hx hlast r hpos
  cases hr : ofExtensions find r s pos with
  | ok t q =>
    obtain ⟨hle, hend⟩ := hsettles.advances t q hr
    exact ⟨by show pos ≤ q; omega, by show q < _; omega⟩
  | fail e q =>
    obtain ⟨-, hle, hend⟩ := hsettles.fails e q hr
    exact ⟨hle, by show q < _; omega⟩

/-- The outcome of a rule is that on every stream that agrees up to where the rule ends, at any depth that is enough
for the tokens up to there and two more: these are all that is left of the stream when it is cut off. -/
theorem run_eq_ofExtensions (hb : FindsBuiltin find) (hx : OrderlyTags find) (hlast : s.last.kind = .eof) (r : Rule p)
    (hpos : pos < s.tokens.size) (h : s.Agrees s' (ofExtensions find r s pos).pos) {n : Nat}
    (hn : 32 * ((ofExtensions find r s pos).pos + 2) + 32 ≤ n) :
    run find n r s' pos = ofExtensions find r s pos := by
  obtain ⟨hle, hlt⟩ := ofExtensions_pos_lt hx hlast r hpos
  generalize hq : (ofExtensions find r s pos).pos = q at hle hlt hn h
  -- the stream cut off behind the tokens that are looked at: all three streams agree up to there
  have hcut : s.Agrees (s.upTo (q + 2)) q :=
    agrees_of_getElem? hlast hlt rfl fun i hi hi' => s.getElem?_upTo (by omega) hi'
  have hsettles : Settles find (s.upTo (q + 2)) ((s.upTo (q + 2)).tokens.size - 1) r pos :=
    settles hx (s.last_upTo (q + 2)) r (by rw [Stream.size_upTo]; omega)
  have hsize := s.size_upTo (q + 2)
  have hrank := Frame.rank_lt r
  have hwhole : run find (depth s) r (s.upTo (q + 2)) pos = ofExtensions find r s pos :=
    run_eq_of_agrees hb (depth s) r hcut (Nat.le_of_eq hq)
  -- the rule settles on it, so that every depth that is enough for it gives one outcome
  have hdepth : run find n r (s.upTo (q + 2)) pos = run find (depth s) r (s.upTo (q + 2)) pos := by
    rw [hsettles.deep n (by omega), hsettles.deep (depth s) (by unfold depth; omega)]
  have hend : (run find n r (s.upTo (q + 2)) pos).pos ≤ q := Nat.le_of_eq (by rw [hdepth, hwhole, hq])
  rw [run_eq_of_agrees hb n r (hcut.of_both h) hend, hdepth, hwhole]

end Grammar

/-- What has been read decides the outcome. Under built-in extensions, let a rule be read on a stream that ends in its
end token; any stream with the tokens of that one up to the position where the rule ends, and with the next one too if
there is one, has the same outcome, be it a tree or a mistake, at the same position. This holds of templates from the
first token on, and of every rule at every place. No rule goes back. -/
theorem Environment.read_tokens_decide (env : Environment) (hb : env.IsBuiltin) :
    (∀ s s' : Stream, s.last.kind = .eof → s'.filename = s.filename → ∀ ⦃p : Phrase⦄ (r : Rule p),
      ∀ pos < s.tokens.size, (env.grammar r s pos).pos + 2 ≤ s'.tokens.size →
        (∀ i ≤ (env.grammar r s pos).pos + 1, i < s.tokens.size → s'.tokens[i]? = s.tokens[i]?) →
          env.grammar r s' pos = env.grammar r s pos) ∧
    ∀ (s : Stream) ⦃p : Phrase⦄ (r : Rule p) (pos : Nat), pos ≤ (env.grammar r s pos).pos := by
  constructor
  · intro s s' hlast hfile p r pos hpos hsize hsame
    obtain ⟨-, hlt⟩ := Grammar.ofExtensions_pos_lt hb.orderlyTags hlast r hpos
    have hagrees := Grammar.agrees_of_getElem? hlast hlt hfile hsame
    refine Grammar.run_eq_ofExtensions hb.findsBuiltin hb.orderlyTags hlast r hpos hagrees ?_
    change (Grammar.ofExtensions _ r s pos).pos + 2 ≤ _ at hsize
    unfold Grammar.depth
    omega
  · intro s p r pos
    exact (Grammar.run_carries_all (m := (Stream.Agrees.refl s 0).beside) hb.findsBuiltin (Grammar.depth s) r).1

/-- An interpolation of two names with tokens behind it. -/
def Stream.twoNames (behind : List Token) : Stream where
  tokens := (⟨.variableBegin, "\x7b\x7b", .none⟩ :: ⟨.name, "a", .none⟩ :: ⟨.name, "b", .none⟩ ::
    ⟨.variableEnd, "\x7d\x7d", .none⟩ :: behind).toArray
  ne_empty := by simp
  filename := none
  delimiters := .standard

/-- The second name is a mistake, whether or not the stream ends behind the tag. -/
theorem Environment.read_tokens_decide_two_names :
    let s := Stream.twoNames [Token.atEnd .origin]
    let s' := Stream.twoNames []
    withLoopControls.IsBuiltin ∧ s.last.kind = .eof ∧
      ∃ d, withLoopControls.grammar .template s 0 = .fail (.reported d) 2 ∧
        withLoopControls.grammar .template s' 0 = .fail (.reported d) 2 := by
  intro s s'
  have hb := withLoopControls_isBuiltin
  have hread : (match withLoopControls.grammar .template s 0 with
      | .fail (.reported _) q => decide (q = 2)
      | .fail (.fault _) _ => false
      | .ok _ _ => false) = true := by decide +kernel
  cases hreply : withLoopControls.grammar .template s 0 with
  | ok t q => rw [hreply] at hread; cases hread
  | fail e q =>
    rw [hreply] at hread
    cases e with
    | fault f => cases hread
    | reported d =>
      obtain rfl : q = 2 := of_decide_eq_true hread
      refine ⟨hb, rfl, d, rfl, ?_⟩
      have hshared : ∀ i ≤ 3, s'.tokens[i]? = s.tokens[i]? := by decide
      rw [← hreply]
      refine (withLoopControls.read_tokens_decide hb).1 s s' rfl rfl .template 0 (by decide) ?_ fun i hi _ => ?_
      · rw [hreply]
        exact Nat.le_refl 4
      · rw [hreply] at hi
        exact hshared i hi

end Stencil
