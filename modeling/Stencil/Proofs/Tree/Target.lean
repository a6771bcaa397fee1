/-
Targets of expressions. `Expr.Retargeted` says that two expressions differ only in what they are used for: in the
usage of the expression itself and, through tuples at any depth, of the items. What `toTarget` gives is the expression
retargeted, and it gives something just where `canAssign` allows it.
-/
import Stencil.Tree.Target

namespace Stencil.Expr

mutual

/-- The second expression is the first one with a usage put in place of its own and, through tuples, of those of the
items. The object and the index of a subscript are not touched. -/
inductive Retargeted (u : Usage) : Expr → Expr → Prop
  | name (n : Text) (v : Usage) (s : Span) : Retargeted u (.name n v s) (.name n u s)
  | tuple {items items' : List Expr} (v : Usage) (s : Span) (h : AllRetargeted u items items') :
      Retargeted u (.tuple items v s) (.tuple items' u s)
  | subscript (object index : Expr) (v : Usage) (s : Span) :
      Retargeted u (.subscript object index v s) (.subscript object index u s)

/-- The expressions of the second list are those of the first one, retargeted one by one. -/
inductive AllRetargeted (u : Usage) : List Expr → List Expr → Prop
  | nil : AllRetargeted u [] []
  | cons {e t : Expr} {es ts : List Expr} (h : Retargeted u e t) (hs : AllRetargeted u es ts) :
      AllRetargeted u (e :: es) (t :: ts)

end

variable {u : Usage}

mutual

/-- The two recursions decide the same. -/
theorem isSome_toTarget (u : Usage) : ∀ e : Expr, (e.toTarget u).isSome = e.canAssign
  | .name n _ _ => by
    rw [toTarget, canAssign]
    cases canBind n <;> rfl
  | .tuple items _ _ => by rw [toTarget, canAssign, Option.isSome_map, isSome_toTargets u items]
  | .subscript .. => rfl
  | .const .. | .list .. | .dict .. | .binary .. | .unary .. | .compare .. | .cond .. | .slice .. | .call ..
  | .filter .. | .test .. => rfl

theorem isSome_toTargets (u : Usage) : ∀ es : List Expr, (toTargets u es).isSome = canAssignAll es
  | [] => rfl
  | e :: es => by
    rw [toTargets, canAssignAll, ← isSome_toTarget u e, ← isSome_toTargets u es]
    cases e.toTarget u with
    | none => rfl
    | some t => exact Option.isSome_map

end

mutual

theorem retargeted_of_toTarget : ∀ {e t : Expr}, e.toTarget u = some t → e.Retargeted u t
  | .name n v s, t, h => by
    rw [toTarget] at h
    split at h
    · cases h
      exact .name n v s
    · cases h
  | .tuple items v s, t, h => by
    rw [toTarget] at h
    obtain ⟨ts, hts, rfl⟩ := Option.map_eq_some_iff.1 h
    exact .tuple v s (retargeted_of_toTargets hts)
  | .subscript o i v s, t, h => by
    cases h
    exact .subscript o i v s

theorem retargeted_of_toTargets : ∀ {es ts : List Expr}, toTargets u es = some ts → AllRetargeted u es ts
  | [], ts, h => by
    cases h
    exact .nil
  | e :: es, ts, h => by
    rw [toTargets] at h
    cases ht : e.toTarget u with
    | none =>
      rw [ht] at h
      cases h
    | some t =>
      rw [ht] at h
      obtain ⟨us, hus, rfl⟩ := Option.map_eq_some_iff.1 h
      exact .cons (retargeted_of_toTarget ht) (retargeted_of_toTargets hus)

end

mutual

/-- What an expression is used for makes no difference to the targets of it. -/
theorem Retargeted.toTarget_eq (v : Usage) : ∀ {e t : Expr}, e.Retargeted u t → t.toTarget v = e.toTarget v
  | _, _, .name .. => rfl
  | _, _, .tuple _ _ h => by rw [toTarget, toTarget, h.toTargets_eq v]
  | _, _, .subscript .. => rfl

theorem AllRetargeted.toTargets_eq (v : Usage) :
    ∀ {es ts : List Expr}, AllRetargeted u es ts → toTargets v ts = toTargets v es
  | _, _, .nil => rfl
  | _, _, .cons h hs => by rw [toTargets, toTargets, h.toTarget_eq v, hs.toTargets_eq v]

end

/-- An expression has a target just where it may be written to. The target is the expression retargeted, and nothing
else about it has changed; it may be written to itself; and its targets are those of the expression. -/
theorem targets_agree (e : Expr) (u v : Usage) :
    ((e.toTarget u).isSome = true ↔ e.canAssign = true) ∧
      ∀ t, e.toTarget u = some t → e.Retargeted u t ∧ t.canAssign = true ∧ t.toTarget v = e.toTarget v := by
  refine ⟨by rw [isSome_toTarget], fun t ht => ?_⟩
  have hretargeted := retargeted_of_toTarget ht
  have hagain : t.toTarget u = some t := (hretargeted.toTarget_eq u).trans ht
  have hassign : t.canAssign = true := by rw [← isSome_toTarget u, hagain, Option.isSome_some]
  exact ⟨hretargeted, hassign, hretargeted.toTarget_eq v⟩

/-- `a, (b[c], ())`: the names and tuples that are written to are stored, what the subscript reads is still loaded. -/
theorem targets_agree_nested :
    let s : Span := ⟨.origin, .origin⟩
    let e : Expr := .tuple [.name "a" .load s,
      .tuple [.subscript (.name "b" .load s) (.name "c" .load s) .load s, .tuple [] .load s] .load s] .load s
    let t : Expr := .tuple [.name "a" .store s,
      .tuple [.subscript (.name "b" .load s) (.name "c" .load s) .store s, .tuple [] .store s] .store s] .store s
    e.toTarget .store = some t ∧ e.Retargeted .store t ∧ t.canAssign = true ∧
      t.toTarget .param = e.toTarget .param := by
  intro s e t
  have ht : e.toTarget .store = some t := rfl
  exact ⟨ht, (targets_agree e .store .param).2 t ht⟩

end Stencil.Expr
