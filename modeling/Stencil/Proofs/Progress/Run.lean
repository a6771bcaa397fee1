/-
The grammar of a language as a whole. A rule weighs the tokens that are left before the end token
together with its level, and turns only to lighter rules; so a depth above the weight is deep enough
(`run_reads`), and the grammar is the one solution of its own equation (`ofExtensions_unique`).
-/
import Stencil.Proofs.Progress.Statement
import Stencil.Proofs.Progress.Suffix

namespace Stencil

/-- Every extension that is found by a tag is orderly. -/
def Grammar.OrderlyTags (find : Text → Option Extension) : Prop :=
  ∀ ⦃name : Text⦄ ⦃x : Extension⦄, find name = some x → x.Orderly

/-- Two grammars read alike the rules behind a position up to an end token, and at the position those of
lower rank. -/
def Grammar.Alike (s : Stream) (pos finish rank : Nat) (g g' : Grammar) : Prop :=
  ∀ ⦃p : Phrase⦄ (r : Rule p) ⦃pos' : Nat⦄, pos ≤ pos' → pos' ≤ finish → (pos < pos' ∨ r.rank < rank) →
    g r s pos' = g' r s pos'

namespace Frame

/-- The extensions of a language are orderly if the frame says so. -/
def Knows (c : Frame) (find : Text → Option Extension) : Prop := c.orderly → Grammar.OrderlyTags find

/-- The weight of a rule at a position. -/
def weight (c : Frame) {p : Phrase} (r : Rule p) (pos : Nat) : Nat := 32 * (c.finish - pos) + r.rank

/-- The depth of the grammar is enough for every rule in the frame. -/
def Shallow (c : Frame) : Prop := 32 * (c.finish - c.entry) + 32 ≤ Grammar.depth c.stream

theorem rank_lt {p : Phrase} (r : Rule p) : r.rank < 32 := by
  cases r
  case binary op => cases op <;> decide
  all_goals exact Nat.le_of_ble_eq_true rfl

end Frame

namespace Grammar

open Stencil.Frame

variable {c : Frame} {g g' : Grammar} {find : Text → Option Extension} {p : Phrase}

/-! ## One step of the grammar -/

theorem step_gains (r : Rule p) (h : c.Below g g' r.rank) (hx : c.Knows find)
    (ho : r.isStatement = true → c.orderly) (ha : c.admitted → r.Admits c.stream c.entry) :
    c.Gains (step find g r) (step find g' r) c.entry (r.least (c.stream.get c.entry).kind) := by
  cases r with
  | expression conditional => exact expression_gains h conditional
  | cond => exact cond_gains h
  | condRest value => exact condRest_gains h value
  | binary op => exact binary_gains op h
  | binaryRest op left => exact binaryRest_gains h op left
  | compare => exact compare_gains h
  | compareRest => exact compareRest_gains h
  | unary => exact unary_gains h
  | primary withSuffixes => exact primary_gains h withSuffixes
  | tuple item => exact tuple_gains h item
  | tupleRest item => exact tupleRest_gains h item
  | list => exact list_gains h
  | listItems first => exact listItems_gains h first
  | dict => exact dict_gains h
  | dictItems first => exact dictItems_gains h first
  | suffixes e => exact suffixes_gains h e
  | subscript object => exact subscript_gains h object ha
  | subscriptItems first => exact subscriptItems_gains h first
  | subscriptItem => exact subscriptItem_gains h
  | call callee => exact call_gains h callee
  | «arguments» => exact arguments_gains h
  | argumentsRest opened args => exact argumentsRest_gains h opened args
  | filter input => exact filter_gains h input
  | filterChain input => exact filterChain_gains h input
  | filterRest e => exact filterRest_gains h e
  | singleFilter input => exact singleFilter_gains h input
  | test subject => exact test_gains h subject
  | statement => exact statement_gains h (ho rfl) (hx (ho rfl))
  | statements ends dropEnd => exact statements_gains h (ho rfl) ends dropEnd
  | content ends pending => exact content_gains h (ho rfl) ends pending ha
  | assign target => exact assign_gains h target
  | loop => exact loop_gains h (ho rfl)
  | conditional => exact conditional_gains h (ho rfl)
  | branches => exact branches_gains h (ho rfl)
  | block => exact block_gains h (ho rfl)
  | extend => exact extend_gains h
  | embed => exact embed_gains h
  | importAs => exact importAs_gains h
  | importNames => exact importNames_gains h
  | nameItems first => exact nameItems_gains h first
  | print => exact print_gains h
  | printItems first => exact printItems_gains h first
  | signature => exact signature_gains h
  | signatureRest sofar => exact signatureRest_gains h sofar
  | define => exact define_gains h (ho rfl)
  | callBlock => exact callBlock_gains h (ho rfl)
  | filterBlock => exact filterBlock_gains h (ho rfl)
  | template => exact template_gains h (ho rfl) ha

/-! ## Depth -/

/-- Two depths above the weight of a rule are the same to it. -/
theorem run_reads (hx : c.Knows find) {n m : Nat} (r : Rule p) {pos : Nat} (hpos : pos ≤ c.finish)
    (hn : c.weight r pos < n) (hm : c.weight r pos < m) (ho : r.isStatement = true → c.orderly) :
    c.Reads (run find n) (run find m) r pos := by
  induction n generalizing m p pos with
  | zero => omega
  | succ n ih =>
    obtain ⟨m, rfl⟩ : ∃ k, m = k + 1 := ⟨m - 1, by omega⟩
    -- what the rule turns to begins further on or at a tighter level, and weighs less for both reasons
    have below : (c.enter pos (r.Admits c.stream pos)).Below (run find n) (run find m) r.rank := by
      refine ⟨hpos, ?_⟩
      rintro q r' pos' ⟨hle, hfin⟩ hr hs
      have hlighter : c.weight r' pos' < c.weight r pos := by
        have := rank_lt r'
        unfold weight
        change pos ≤ pos' at hle
        change pos' ≤ c.finish at hfin
        change pos < pos' ∨ r'.rank < r.rank at hr
        rcases hr with hr | hr <;> omega
      exact ih r' hfin (by omega) (by omega) hs
    exact step_gains r below hx ho id

/-! ## The grammar and its equation -/

theorem weight_lt_depth (hdepth : c.Shallow) (r : Rule p) {pos : Nat} (hpos : c.entry ≤ pos) :
    c.weight r pos < depth c.stream := by
  have := rank_lt r
  unfold Shallow at hdepth
  unfold weight
  omega

theorem ofExtensions_apply (r : Rule p) (s : Stream) (pos : Nat) :
    ofExtensions find r s pos = run find (depth s) r s pos := rfl

/-- The grammar agrees with every depth above the weight of a rule. -/
theorem ofExtensions_reads (hx : c.Knows find) (hdepth : c.Shallow) {n : Nat} (r : Rule p) {pos : Nat}
    (hw : c.Within pos) (hn : c.weight r pos < n) (ho : r.isStatement = true → c.orderly) :
    c.Reads (ofExtensions find) (run find n) r pos :=
  (run_reads hx r hw.2 (weight_lt_depth hdepth r hw.1) hn ho).congr (ofExtensions_apply ..) rfl

/-- The grammar reads a rule in one step, and any grammar does for that step that reads alike what the
rule may turn to. -/
theorem step_eq_of_alike (hx : c.Knows find) (hdepth : c.Shallow) (hentry : c.entry ≤ c.finish) (r : Rule p)
    (ho : r.isStatement = true → c.orderly)
    (hg : Alike c.stream c.entry c.finish r.rank (ofExtensions find) g) :
    step find g r c.stream c.entry = ofExtensions find r c.stream c.entry := by
  have hstart : c.Within c.entry := ⟨Nat.le_refl _, hentry⟩
  have below : (c.enter c.entry (r.Admits c.stream c.entry)).Below (run find (depth c.stream)) g r.rank := by
    refine ⟨hentry, ?_⟩
    rintro q r' pos hw hr hs
    have h := ofExtensions_reads hx hdepth r' hw (weight_lt_depth hdepth r' hw.1) hs
    exact h.congr (ofExtensions_apply ..).symm (hg r' hw.1 hw.2 hr).symm
  have hdeep : c.weight r c.entry < depth c.stream + 1 :=
    Nat.lt_succ_of_lt (weight_lt_depth hdepth r hstart.1)
  have hstep : step find (run find (depth c.stream)) r c.stream c.entry = step find g r c.stream c.entry :=
    (step_gains r below hx ho id).1
  have hrun : ofExtensions find r c.stream c.entry = run find (depth c.stream + 1) r c.stream c.entry :=
    (ofExtensions_reads hx hdepth r hstart hdeep ho).1
  rw [hrun, ← hstep]
  rfl

end Grammar

/-! ## Streams that end in their end token -/

namespace Stream

theorem get_last (s : Stream) : s.get (s.tokens.size - 1) = s.last := by
  have h : s.tokens.size - 1 < s.tokens.size := Nat.sub_lt s.ne_empty Nat.one_pos
  unfold get last
  rw [Array.getElem?_eq_getElem h, Array.back]
  rfl

theorem get_of_size_le (s : Stream) {pos : Nat} (h : s.tokens.size ≤ pos) : s.get pos = s.last := by
  unfold get
  rw [Array.getElem?_eq_none h]
  rfl

/-- The frame of a rule up to the end token of a stream, or at a position behind it. -/
def frame (s : Stream) (hlast : s.last.kind = .eof) (pos : Nat) (admitted orderly : Prop) : Frame where
  stream := s
  finish := max pos (s.tokens.size - 1)
  entry := pos
  admitted := admitted
  orderly := orderly
  closed := by
    rcases Nat.le_total pos (s.tokens.size - 1) with h | h
    · rw [Nat.max_eq_right h, get_last, hlast]
    · rw [Nat.max_eq_left h]
      rcases Nat.eq_or_lt_of_le h with h | h
      · rw [← h, get_last, hlast]
      · rw [s.get_of_size_le (by omega), hlast]

theorem frame_shallow (s : Stream) (hlast : s.last.kind = .eof) (pos : Nat) (admitted orderly : Prop) :
    (s.frame hlast pos admitted orderly).Shallow := by
  unfold Frame.Shallow frame Grammar.depth
  simp only
  omega

end Stream

/-- Every rule of the grammar is read in one step, at every position. -/
theorem Grammar.ofExtensions_eq_step {find : Text → Option Extension} {s : Stream}
    (hlast : s.last.kind = .eof) {p : Phrase} (r : Rule p) (pos : Nat)
    (hx : r.isStatement = true → OrderlyTags find) :
    ofExtensions find r s pos = step find (ofExtensions find) r s pos :=
  (step_eq_of_alike (c := s.frame hlast pos True (OrderlyTags find)) id
    (s.frame_shallow hlast pos True (OrderlyTags find)) (Nat.le_max_left ..) r hx
    fun _ _ _ _ _ _ => rfl).symm

end Stencil
