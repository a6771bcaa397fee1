/-
Tokens and mistakes at moved places. A token that is moved keeps its kind and value; a mistake that is moved keeps
all but the place, which its message ends with (`Diagnostic.Moves`).
-/
import Stencil.Grammar.Stream

namespace Stencil

/-! ## Tokens -/

/-- The stretch between the moved places. -/
def Span.map (f : Location → Location) (s : Span) : Span := ⟨f s.start, f s.finish⟩

section

variable (f : Location → Location)

@[simp] theorem Span.map_mk (a b : Location) : Span.map f ⟨a, b⟩ = ⟨f a, f b⟩ := rfl

@[simp] theorem Span.start_map (s : Span) : (s.map f).start = f s.start := rfl

@[simp] theorem Span.finish_map (s : Span) : (s.map f).finish = f s.finish := rfl

/-- The token at its moved place. -/
def Token.mapPlaces (t : Token) : Token := ⟨t.kind, t.value, t.span.map f⟩

@[simp] theorem Token.kind_mapPlaces (t : Token) : (t.mapPlaces f).kind = t.kind := rfl

@[simp] theorem Token.value_mapPlaces (t : Token) : (t.mapPlaces f).value = t.value := rfl

@[simp] theorem Token.span_mapPlaces (t : Token) : (t.mapPlaces f).span = t.span.map f := rfl

end

/-! ## Mistakes -/

/-- The second diagnostic is the first one at its moved place: the two have one class, mistake, context and text
before the place. Each names its own template. -/
def Diagnostic.Moves (f : Location → Location) (filename filename' : Option Text) (d d' : Diagnostic) : Prop :=
  ∃ kind id text place context, d = .make kind id text (some place) context filename ∧
    d' = .make kind id text (some (f place)) context filename'

variable {f : Location → Location} {filename filename' : Option Text}

theorem Diagnostic.report_moves (id : ErrorId) (context : MessageContext) (place : Location) :
    (Diagnostic.report id context place filename).Moves f filename filename' (.report id context (f place) filename') :=
  ⟨_, _, _, _, _, rfl, rfl⟩

/-- What is said of a mistake, its place apart, is said of the moved one; the place is the moved place. -/
theorem Diagnostic.Moves.fields {d d' : Diagnostic} (h : d.Moves f filename filename' d') :
    d'.kind = d.kind ∧ d'.id = d.id ∧ d'.context = d.context ∧ d'.location = d.location.map f ∧
      d'.filename = filename' := by
  obtain ⟨kind, id, text, place, context, rfl, rfl⟩ := h
  exact ⟨rfl, rfl, rfl, rfl, rfl⟩

theorem Diagnostic.Moves.eq_of_fixed {d d' : Diagnostic} (hf : ∀ l, f l = l)
    (h : d.Moves f filename filename d') : d' = d := by
  obtain ⟨kind, code, text, place, context, rfl, rfl⟩ := h
  rw [hf]

/-- The second failure is the first one at its moved place. -/
def Failure.Moves (f : Location → Location) (filename filename' : Option Text) : Failure → Failure → Prop
  | .reported d, .reported d' => d.Moves f filename filename' d'
  | .fault e, .fault e' => e' = e
  | .reported _, .fault _ | .fault _, .reported _ => False

theorem Failure.Moves.eq_of_fixed {e e' : Failure} (hf : ∀ l, f l = l) (h : e.Moves f filename filename e') :
    e' = e := by
  cases e <;> cases e' <;> simp only [Moves] at h
  · rw [h.eq_of_fixed hf]
  · rw [h]

end Stencil
