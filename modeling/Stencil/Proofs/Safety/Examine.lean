/-
Only mistakes escape from a template. The tokens of a source are pieces, so neither a stray token nor an
integer that writes none can come up while they are read, and what reading ends with is a template or a
mistake of the class that its code asks for (`examine_reports`).
-/
import Stencil.Proofs.Progress.Termination
import Stencil.Proofs.Safety.Pieces

namespace Stencil

/-! ## Streams of pieces -/

namespace Stream

/-- The tokens of the stream are pieces, from outside of tags on. -/
def IsPieces (s : Stream) : Prop := Pieces true s.tokens.toList

variable {s : Stream}

theorem get_eq_or (s : Stream) (i : Nat) : s.tokens.toList[i]? = some (s.get i) ∨ s.get i = s.last := by
  unfold get
  rw [Array.getElem?_toList]
  cases s.tokens[i]? with
  | none => exact .inr rfl
  | some t => exact .inl rfl

theorem IsPieces.last_kind (h : s.IsPieces) : s.last.kind = .eof := by
  obtain ⟨t, ht, heof⟩ := Pieces.getLast? h
  have hback : s.tokens[s.tokens.size - 1]? = some t := by
    rw [← ht, Array.getLast?_toList, Array.back?]
  rw [← s.get_last, get, hback]
  exact heof

theorem IsPieces.opens (h : s.IsPieces) : (s.get 0).kind.opensPiece = true := by
  unfold IsPieces at h
  cases hts : s.tokens.toList with
  | nil => rw [hts] at h; exact h.elim
  | cons t ts =>
    rw [hts] at h
    have hget : s.tokens[0]? = some t := by rw [← Array.getElem?_toList, hts]; rfl
    rw [get, hget]
    exact h.1 rfl

/-- Nothing in the stream is the cause of a fault. -/
theorem IsPieces.no_cause (h : s.IsPieces) (f : Fault) : ¬f.Cause s := by
  have hget (i : Nat) (hne : (s.get i).kind ≠ .eof) : s.tokens.toList[i]? = some (s.get i) := by
    rcases s.get_eq_or i with hi | hi
    · exact hi
    · rw [hi, h.last_kind] at hne
      exact absurd rfl hne
  intro hf
  cases f with
  | strayToken k =>
    obtain ⟨hk, i, hend, rfl⟩ := hf
    have hne : (s.get i).kind ≠ .eof := by intro he; rw [he] at hend; cases hend
    obtain ⟨u, hu, hopen⟩ := (Pieces.of_getElem? h (hget i hne)).2 hend
    have hnext : s.get (i + 1) = u := by
      rw [Array.getElem?_toList] at hu
      rw [get, hu, Option.getD_some]
    rw [hnext, hopen] at hk
    cases hk
  | numeral t =>
    obtain ⟨i, hint, rfl, hnone⟩ := hf
    have hne : (s.get i).kind ≠ .eof := by rw [hint]; nofun
    have hread := (Pieces.of_getElem? h (hget i hne)).1 hint
    rw [hnone] at hread
    cases hread
  | emptyStream => exact hf
  | subscriptStart k => exact hf
  | depth => exact hf

end Stream

/-! ## Mistakes and their codes -/

namespace Diagnostic

theorem eq_reservedImport {id : ErrorId} (h : classOf id = .assertion) : id = .reservedImport := by
  cases id <;> first | rfl | cases h

theorem category?_classOf (id : ErrorId) : (classOf id).category? = some id.category := by
  cases id <;> rfl

namespace Of

variable {d : Diagnostic} {category : Category}

theorem kind_lexer (h : d.Of .lexer) : d.kind = .lexer := by
  have hc := category?_classOf d.id
  rw [← h.1, h.2] at hc
  cases hk : d.kind <;> rw [hk] at hc <;> first | rfl | cases hc

theorem kind_parse (h : d.Of .parse) : DiagnosticClass.parse.includes d.kind = true := by
  have hc := category?_classOf d.id
  rw [← h.1, h.2] at hc
  cases hk : d.kind <;> rw [hk] at hc <;> first | rfl | cases hc

/-- The class of the diagnostic accepts the code of its mistake. -/
theorem makeCode_eq (h : d.Of category) (message : Text) (location : Option Location)
    (context : Option MessageContext) (filename : Option Text) :
    makeCode d.kind d.id.code message location context filename =
      .ok (make d.kind d.id message location context filename) := by
  have hcode : (if d.kind = .assertion then ErrorId.reservedImport.code else d.id.code) = d.id.code := by
    split
    · rename_i hassertion
      rw [h.1] at hassertion
      rw [eq_reservedImport hassertion]
    · rfl
  have hcategory := category?_classOf d.id
  rw [← h.1] at hcategory
  unfold makeCode
  simp only [hcode, ErrorId.ofCode?_code, hcategory, if_true]

end Of
end Diagnostic

/-! ## Reading a source -/

namespace Environment

variable {env : Environment}

theorem tokens_isPieces {filename : Option Text} {source : Text} {ts : List Token}
    (h : env.tokens filename source = .ok ts) : Pieces true ts :=
  Scan.tokensFrom_pieces env.isSound h

/-- A stream of pieces is read as a template, or up to a mistake in its structure. -/
theorem template_reports (hb : env.IsBuiltin) {s : Stream} (hs : s.IsPieces) :
    (∃ t q, env.grammar .template s 0 = .ok t q) ∨
      ∃ d q, env.grammar .template s 0 = .fail (.reported d) q ∧ d.Of .parse := by
  have hadmitted : Rule.template.Admits s 0 := .inl hs.opens
  let c := s.frame hs.last_kind 0 (Rule.template.Admits s 0) True
  have hdepth : c.Shallow := s.frame_shallow hs.last_kind 0 _ _
  have hreads := Grammar.ofExtensions_reads (c := c) (fun _ => hb.orderlyTags) hdepth .template
    ⟨Nat.le_refl _, Nat.zero_le _⟩ (Grammar.weight_lt_depth hdepth .template (Nat.le_refl _)) fun _ => trivial
  cases h : env.grammar .template s 0 with
  | ok t q => exact .inl ⟨t, q, rfl⟩
  | fail e q =>
    obtain ⟨-, hdue⟩ := hreads.of_fail h
    cases e with
    | reported d => exact .inr ⟨d, q, rfl, hdue⟩
    | fault f => exact absurd (hdue.2 hadmitted) (hs.no_cause f)

/-- Reading a source comes to a template, to a mistake in a token, or to a mistake in the structure of the
template; the mistake is of the class that reports such mistakes, and the class accepts its code. -/
theorem examine_reports (hb : env.IsBuiltin) (filename : Option Text) (source : Text) :
    (∃ t, env.examine filename source = .ok (.ok t)) ∨
      ∃ d : Diagnostic, env.examine filename source = .ok (.error d) ∧
        (d.kind = .lexer ∧ env.tokens filename source = .error d ∨
          DiagnosticClass.parse.includes d.kind = true ∧ ∃ ts, env.tokens filename source = .ok ts) ∧
        ∀ message location context filename,
          Diagnostic.makeCode d.kind d.id.code message location context filename =
            .ok (.make d.kind d.id message location context filename) := by
  unfold examine readTemplate readTokens
  cases hts : env.tokens filename source with
  | error d =>
    have hd : d.Of .lexer := Scan.tokensFrom_error env.isSound hts
    exact .inr ⟨d, rfl, .inl ⟨hd.kind_lexer, rfl⟩, hd.makeCode_eq⟩
  | ok ts =>
    have hpieces := tokens_isPieces hts
    have hne : 0 < ts.toArray.size := by
      cases ts with
      | nil => exact hpieces.elim
      | cons t ts => exact Nat.succ_pos _
    have hstream : Stream.ofTokens ts.toArray filename env.delimiters =
        .ok ⟨ts.toArray, hne, filename, env.delimiters⟩ := dif_pos hne
    simp only [hstream]
    rcases template_reports hb (s := ⟨ts.toArray, hne, filename, env.delimiters⟩) hpieces with
      ⟨t, q, h⟩ | ⟨d, q, h, hd⟩
    · rw [h]
      exact .inl ⟨t, rfl⟩
    · rw [h]
      exact .inr ⟨d, rfl, .inr ⟨hd.kind_parse, ts, rfl⟩, hd.makeCode_eq⟩

theorem examine_reports_withLoopControls : withLoopControls.IsBuiltin ∧
    ∃ x, withLoopControls.examine none "\x7b% break %\x7d" = .ok x := by
  refine ⟨withLoopControls_isBuiltin, ?_⟩
  rcases examine_reports withLoopControls_isBuiltin none "\x7b% break %\x7d" with ⟨t, h⟩ | ⟨d, h, -⟩
  · exact ⟨_, h⟩
  · exact ⟨_, h⟩

end Environment
end Stencil
