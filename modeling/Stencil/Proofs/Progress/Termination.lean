/-
Scanning and reading come to an end. For the scan the measure is the text that is left. For the grammar
it is the tokens that are left together with the level of a rule (`Grammar.Settles`), for any stream that
ends in its end token, provided that extensions are orderly, as those of the library are.
-/
import Stencil.Proofs.Progress.Run
import Stencil.Proofs.Progress.Scan

namespace Stencil

/-! ## The extensions of an environment -/

theorem Extension.mem_of_table {xs : List Extension} {tx : Text × Extension} (h : tx ∈ table xs) :
    tx.2 ∈ xs := by
  have hfold (acc ys : List (Text × Extension)) (hacc : ∀ y ∈ acc, y.2 ∈ xs) (hys : ∀ y ∈ ys, y.2 ∈ xs) :
      ∀ y ∈ ys.foldl (fun acc y => if acc.any (·.1 == y.1) then acc else acc ++ [y]) acc, y.2 ∈ xs := by
    induction ys generalizing acc with
    | nil => exact hacc
    | cons y ys ih =>
      obtain ⟨t, x⟩ := y
      obtain ⟨hy, hys⟩ := List.forall_mem_cons.1 hys
      rw [List.foldl_cons]
      refine ih _ ?_ hys
      simp only
      split
      · exact hacc
      · intro z hz
        rcases List.mem_append.1 hz with hz | hz
        · exact hacc z hz
        · rw [List.mem_singleton.1 hz]; exact hy
  refine hfold [] _ (fun _ hy => absurd hy List.not_mem_nil) ?_ tx h
  intro y hy
  obtain ⟨x, hx, hy⟩ := List.mem_flatMap.1 hy
  obtain ⟨t, -, rfl⟩ := List.mem_map.1 hy
  exact hx

theorem Extension.mem_of_find? {xs : List Extension} {tag : Text} {x : Extension}
    (h : find? xs tag = some x) : x ∈ xs := by
  obtain ⟨tx, htx, rfl⟩ := Option.map_eq_some_iff.1 h
  exact mem_of_table (List.mem_of_find?_eq_some htx)

/-- All extensions of the environment come with the library. -/
def Environment.IsBuiltin (env : Environment) : Prop := ∀ x ∈ env.extensions, x ∈ Extension.builtin

theorem Environment.IsBuiltin.orderlyTags {env : Environment} (h : env.IsBuiltin) :
    Grammar.OrderlyTags (Extension.find? env.extensions) := by
  intro name x hx
  have hmem := h x (Extension.mem_of_find? hx)
  rcases List.mem_cons.1 hmem with rfl | hmem
  · exact Extension.doStatement_orderly
  · rw [List.mem_singleton.1 hmem]
    exact Extension.loopControls_orderly

/-! ## Reading -/

/-- Reading a rule from a position on comes to an end, not behind the end token at `finish`. -/
structure Grammar.Settles (find : Text → Option Extension) (s : Stream) (finish : Nat) {p : Phrase}
    (r : Rule p) (pos : Nat) : Prop where
  /-- Above a bound the depth makes no difference. -/
  deep : ∀ n, 32 * (finish - pos) + r.rank < n → run find n r s pos = ofExtensions find r s pos
  /-- The rule is read in one step, for which only rules matter that begin further on or, at the same
  place, belong to a tighter level. -/
  descends : ∀ g, Alike s pos finish r.rank (ofExtensions find) g →
    step find g r s pos = ofExtensions find r s pos
  /-- A rule that succeeds has read as many tokens as it has to, and never the end token. -/
  advances : ∀ t q, ofExtensions find r s pos = .ok t q → pos + r.least (s.get pos).kind ≤ q ∧ q ≤ finish
  /-- A rule that fails does so at a place it has reached, and not for its depth. -/
  fails : ∀ e q, ofExtensions find r s pos = .fail e q → e ≠ .fault .depth ∧ pos ≤ q ∧ q ≤ finish

/-- Reading comes to an end in front of every end token ahead, be it the last token of the stream or not. -/
theorem Grammar.settles_to {find : Text → Option Extension} (hx : OrderlyTags find) {s : Stream} {finish : Nat}
    (hend : (s.get finish).kind = .eof) (hfinish : finish < s.tokens.size) {p : Phrase} (r : Rule p) {pos : Nat}
    (hpos : pos ≤ finish) : Settles find s finish r pos := by
  let c : Frame := ⟨s, finish, pos, r.Admits s pos, True, hend⟩
  have hdepth : c.Shallow := by
    show 32 * (finish - pos) + 32 ≤ 64 * (s.tokens.size + 4)
    omega
  have hstart : c.Within pos := ⟨Nat.le_refl _, hpos⟩
  have hknows : c.Knows find := fun _ => hx
  have hreads := ofExtensions_reads hknows hdepth r hstart (weight_lt_depth hdepth r hstart.1) fun _ => trivial
  refine ⟨?_, ?_, ?_, ?_⟩
  · intro n hn
    exact (ofExtensions_reads hknows hdepth r hstart hn fun _ => trivial).1.symm
  · intro g hg
    exact step_eq_of_alike hknows hdepth hstart.2 r (fun _ => trivial) hg
  · intro t q hq
    obtain ⟨hle, -, hfin⟩ := hreads.of_ok hq
    exact ⟨hle, hfin⟩
  · intro e q hq
    obtain ⟨hwithin, hdue⟩ := hreads.of_fail hq
    refine ⟨?_, hwithin⟩
    rintro rfl
    exact hdue.1 rfl

theorem Grammar.settles {find : Text → Option Extension} (hx : OrderlyTags find) {s : Stream}
    (hlast : s.last.kind = .eof) {p : Phrase} (r : Rule p) {pos : Nat} (hpos : pos < s.tokens.size) :
    Settles find s (s.tokens.size - 1) r pos :=
  settles_to hx (by rw [Stream.get_last, hlast]) (Nat.sub_lt s.ne_empty Nat.one_pos) r (Nat.le_sub_one_of_lt hpos)

/-! ## Environments -/

/-- The standard delimiters with the extension for loops. -/
def Environment.withLoopControls : Environment :=
  ⟨.standard, [Extension.loopControls], Delimiters.standard_fault, by decide⟩

theorem Environment.withLoopControls_isBuiltin : withLoopControls.IsBuiltin := by
  intro x hx
  rw [List.mem_singleton.1 hx]
  exact .tail _ (.head _)

/-- Scanning and reading come to an end under every environment, reading if no foreign extension takes
part in it. Steps of a scan and tokens that are read one by one move strictly forward. -/
theorem Environment.scans_and_readings_end (env : Environment) :
    (∀ filename source,
      Scan.tokensWithin env.delimiters filename (source.length + 1) ⟨.outside, .origin, source⟩
          = some (env.tokens filename source) ∧
        Scan.tokensWithin env.delimiters filename (source.length + 1) ⟨.bare false, .origin, source⟩
          = some (env.expressionTokens filename source)) ∧
    (∀ filename (s s' : Scan.State) r, s.step env.delimiters filename = .ok r → r.next = some s' →
      s.place.offset < s'.place.offset) ∧
    (∀ filename (c c' : Cursor) previous t, c.next previous filename = (.ok t, c') →
      c.place.offset < c'.place.offset) ∧
    (env.IsBuiltin → ∀ s : Stream, s.last.kind = .eof → ∀ ⦃p : Phrase⦄ (r : Rule p),
      ∀ pos < s.tokens.size,
        Grammar.Settles (Extension.find? env.extensions) s (s.tokens.size - 1) r pos) := by
  refine ⟨?_, ?_, ?_, ?_⟩
  · intro filename source
    exact ⟨Scan.tokensWithin_eq_some env.isSound (Nat.lt_succ_self _),
      Scan.tokensWithin_eq_some env.isSound (Nat.lt_succ_self _)⟩
  · intro filename s s' r hr hn
    exact (Scan.step_forward env.isSound hr hn).1
  · intro filename c c' previous t h
    exact (Cursor.next_forward h).2.1
  · intro hb s hlast p r pos hpos
    exact Grammar.settles hb.orderlyTags hlast r hpos

/-- The tokens of a tag for leaving a loop. -/
def Stream.leavingLoop : Stream :=
  ⟨#[⟨.name, "break", ⟨.origin, .origin⟩⟩, Token.atEnd .origin], by decide, none, .standard⟩

theorem Environment.scans_and_readings_end_leavingLoop :
    (∃ r s', (⟨.bare false, .origin, "break"⟩ : Scan.State).step .standard none = .ok r ∧
      r.next = some s' ∧ Location.origin.offset < s'.place.offset) ∧
    (∃ t c', (Cursor.ofSource "break").next none none = (.ok t, c') ∧
      Location.origin.offset < c'.place.offset) ∧
    withLoopControls.IsBuiltin ∧ Stream.leavingLoop.last.kind = .eof ∧
      Grammar.Settles (Extension.find? withLoopControls.extensions) .leavingLoop 1 .statement 0 := by
  obtain ⟨-, hsteps, hnexts, hreads⟩ := scans_and_readings_end withLoopControls
  have hstep : ∃ r s', (⟨.bare false, .origin, "break"⟩ : Scan.State).step .standard none = .ok r ∧
      r.next = some s' := ⟨_, _, rfl, rfl⟩
  have hnext : ∃ t c', (Cursor.ofSource "break").next none none = (.ok t, c') := ⟨_, _, rfl⟩
  have hb := withLoopControls_isBuiltin
  obtain ⟨r, s', hr, hs'⟩ := hstep
  obtain ⟨t, c', hc'⟩ := hnext
  refine ⟨⟨r, s', hr, hs', hsteps none _ s' r hr hs'⟩, ⟨t, c', hc', hnexts none _ c' none t hc'⟩, hb, rfl, ?_⟩
  exact hreads hb .leavingLoop rfl .statement 0 (by decide)

end Stencil
