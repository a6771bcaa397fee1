/-
Arguments as groups: a flag with the argument behind it, a flag alone, or a positional argument. Arguments can be taken
apart just if they are groups written one behind the other (`Arguments.splitFrom_line`, `Arguments.line_of_splitFrom`),
and what counts is the last value of each flag and the order of the positional arguments; so, with no flag given twice,
groups may stand in any order that keeps the positional ones in theirs (`Arguments.order_immaterial`).
-/
import Mathlib.Data.List.Perm.Basic
import Mathlib.Data.List.Nodup
import Stencil.Tool.Arguments

namespace Stencil.Tool

/-- What arguments are made of. -/
inductive Group
  | valued (flag value : Text)
  | alone (flag : Text)
  | positional (argument : Text)
deriving DecidableEq, Repr

namespace Group

/-- The arguments that the group is written as. -/
def words : Group → List Text
  | valued flag value => [flag, value]
  | alone flag => [flag]
  | positional arg => [arg]

/-- What the group says about an option. -/
def option? : Group → Option (Text × OptionValue)
  | valued flag value => some (flag, .text value)
  | alone flag => some (flag, .present)
  | positional _ => none

def positional? : Group → Option Text
  | positional arg => some arg
  | _ => none

/-- The group belongs to a tool with these flags; a positional argument is no flag and does not look like one. -/
def Fits (flags : Flags) : Group → Prop
  | valued flag _ => flag ∈ flags.valued
  | alone flag => flag ∈ flags.alone
  | positional arg => arg ∉ flags.valued ∧ arg ∉ flags.alone ∧ (arg = Text.ofString "-" ∨ ¬Text.ofString "-" <+: arg)

instance (flags : Flags) : (g : Group) → Decidable (g.Fits flags)
  | valued flag _ => inferInstanceAs (Decidable (flag ∈ flags.valued))
  | alone flag => inferInstanceAs (Decidable (flag ∈ flags.alone))
  | positional arg => inferInstanceAs (Decidable (arg ∉ flags.valued ∧ arg ∉ flags.alone ∧
      (arg = Text.ofString "-" ∨ ¬Text.ofString "-" <+: arg)))

/-- The arguments that groups are written as. -/
def line (gs : List Group) : List Text := gs.flatMap words

/-- The options that groups give, those given again included. -/
def options (gs : List Group) : List (Text × OptionValue) := gs.filterMap option?

def positionals (gs : List Group) : List Text := gs.filterMap positional?

/-- The last group with a flag gives it this value. -/
def LastGives (gs : List Group) (flag : Text) (v : OptionValue) : Prop :=
  ∃ before after, options gs = before ++ (flag, v) :: after ∧ ∀ o ∈ after, o.1 ≠ flag

end Group

/-! ## Options one after another -/

section Options

variable {os : List (Text × OptionValue)} {flag : Text} {v : OptionValue}

/-- The options after others have been given. -/
def OptionList.setAll (done : OptionList) (os : List (Text × OptionValue)) : OptionList :=
  os.foldl (fun done o => done.set o.1 o.2) done

/-- Of the values that an option is given the last one counts. -/
theorem OptionList.lookup_setAll (done : OptionList) (os : List (Text × OptionValue)) (flag : Text) :
    (done.setAll os).lookup flag = (os.reverse.lookup flag).or (done.lookup flag) := by
  induction os generalizing done with
  | nil => rfl
  | cons o os ih =>
    show ((done.set o.1 o.2).setAll os).lookup flag = _
    rw [ih, OptionList.lookup_set, List.reverse_cons, List.lookup_append, Option.or_assoc]
    congr 1
    by_cases h : flag = o.1
    · rw [if_pos h, h, List.lookup_cons_self]
      rfl
    · rw [if_neg h, List.lookup_cons, beq_false_of_ne h]
      rfl

/-- A new option comes behind the others. -/
theorem OptionList.set_new {done : OptionList} (h : flag ∉ done.map (·.1)) : done.set flag v = done ++ [(flag, v)] := by
  induction done with
  | nil => rfl
  | cons o done ih =>
    rw [List.map_cons, List.mem_cons, not_or] at h
    rw [OptionList.set, if_neg (Ne.symm h.1), ih h.2]
    rfl

/-- Options that are given once stay as they are given. -/
theorem OptionList.setAll_of_nodup {done : OptionList} (h : ((done ++ os).map (·.1)).Nodup) :
    done.setAll os = done ++ os := by
  induction os generalizing done with
  | nil => exact (List.append_nil _).symm
  | cons o os ih =>
    have hnew : o.1 ∉ done.map (·.1) := by
      intro hmem
      rw [List.map_append, List.nodup_append] at h
      exact h.2.2 _ hmem _ List.mem_cons_self rfl
    show (done.set o.1 o.2).setAll os = _
    rw [OptionList.set_new hnew, ih (by rwa [List.append_assoc]), List.append_assoc]
    rfl

theorem lookup_reverse_eq_some_iff : os.reverse.lookup flag = some v ↔
    ∃ before after, os = before ++ (flag, v) :: after ∧ ∀ o ∈ after, o.1 ≠ flag := by
  rw [List.lookup_eq_some_iff]
  constructor
  · rintro ⟨after, before, hos, hafter⟩
    refine ⟨before.reverse, after.reverse, ?_, fun o ho => ?_⟩
    · rw [← os.reverse_reverse, hos, List.reverse_append, List.reverse_cons, List.append_assoc]
      rfl
    · exact (bne_iff_ne.1 (hafter o (List.mem_reverse.1 ho))).symm
  · rintro ⟨before, after, rfl, hafter⟩
    refine ⟨after.reverse, before.reverse, ?_, fun o ho => ?_⟩
    · rw [List.reverse_append, List.reverse_cons, List.append_assoc]
      rfl
    · exact bne_iff_ne.2 (hafter o (List.mem_reverse.1 ho)).symm

/-- Of an option that is given once any value is the value. -/
theorem lookup_eq_some_iff_mem (h : (os.map (·.1)).Nodup) : os.lookup flag = some v ↔ (flag, v) ∈ os := by
  rw [List.lookup_eq_some_iff, List.mem_iff_append]
  refine exists_congr fun before => exists_congr fun after => and_iff_left_of_imp ?_
  rintro rfl o ho
  rw [List.map_append, List.nodup_append] at h
  exact bne_iff_ne.2 (h.2.2 o.1 (List.mem_map_of_mem ho) flag List.mem_cons_self).symm

theorem lookup_perm {os' : List (Text × OptionValue)} (hnodup : (os.map (·.1)).Nodup) (h : os'.Perm os) (flag : Text) :
    os'.lookup flag = os.lookup flag := by
  have hnodup' : (os'.map (·.1)).Nodup := (h.map _).nodup_iff.2 hnodup
  refine Option.ext fun v => ?_
  rw [lookup_eq_some_iff_mem hnodup', lookup_eq_some_iff_mem hnodup, h.mem_iff]

end Options

/-! ## Taking arguments apart -/

namespace Arguments

variable {flags : Flags} {done a : Arguments} {args : List Text} {arg : Text} {gs gs' : List Group}

theorem isDashed_eq_false_iff : isDashed arg = false ↔ arg = Text.ofString "-" ∨ ¬Text.ofString "-" <+: arg := by
  unfold isDashed
  rw [Bool.and_eq_false_iff, bne_eq_false_iff_eq, ← Text.startsWith_iff_isPrefix, Bool.not_eq_true, or_comm]

/-- Groups are taken apart group by group: a value is never read as a flag, whatever it looks like. -/
theorem splitFrom_line (hdisjoint : flags.valued.Disjoint flags.alone) (hfits : ∀ g ∈ gs, g.Fits flags) :
    splitFrom flags done (Group.line gs) =
      .ok ⟨done.options.setAll (Group.options gs), done.positional ++ Group.positionals gs⟩ := by
  induction gs generalizing done with
  | nil =>
    show Except.ok done = .ok ⟨done.options, done.positional ++ []⟩
    rw [List.append_nil]
  | cons g gs ih =>
    obtain ⟨hg, hgs⟩ := List.forall_mem_cons.1 hfits
    cases g with
    | valued flag value =>
      have hvalued : flags.valued.contains flag = true := List.contains_iff_mem.2 hg
      show splitFrom flags done (flag :: value :: Group.line gs) = _
      rw [splitFrom, if_pos hvalued]
      exact ih hgs
    | alone flag =>
      have hvalued : ¬flags.valued.contains flag = true := fun h => hdisjoint (List.contains_iff_mem.1 h) hg
      have halone : flags.alone.contains flag = true := List.contains_iff_mem.2 hg
      show splitFrom flags done (flag :: Group.line gs) = _
      unfold splitFrom
      rw [if_neg hvalued, if_pos halone]
      exact ih hgs
    | positional arg =>
      obtain ⟨hvalued, halone, hplain⟩ := hg
      show splitFrom flags done (arg :: Group.line gs) = _
      unfold splitFrom
      rw [if_neg (hvalued ∘ List.contains_iff_mem.1), if_neg (halone ∘ List.contains_iff_mem.1),
        isDashed_eq_false_iff.2 hplain, if_neg Bool.false_ne_true, ih hgs, List.append_assoc]
      rfl

/-- Arguments that can be taken apart are groups written one behind the other. -/
theorem line_of_splitFrom (h : splitFrom flags done args = .ok a) :
    ∃ gs, (∀ g ∈ gs, Group.Fits flags g) ∧ Group.line gs = args := by
  have further {g : Group} {rest : List Text} (hg : g.Fits flags)
      (hrest : ∃ gs, (∀ g ∈ gs, Group.Fits flags g) ∧ Group.line gs = rest) :
      ∃ gs, (∀ g ∈ gs, Group.Fits flags g) ∧ Group.line gs = g.words ++ rest := by
    obtain ⟨gs, hgs, rfl⟩ := hrest
    exact ⟨g :: gs, List.forall_mem_cons.2 ⟨hg, hgs⟩, rfl⟩
  fun_induction splitFrom flags done args with
  | case1 => exact ⟨[], nofun, rfl⟩
  | case2 => cases h
  | case3 done flag hvalued value rest ih =>
    exact further (g := .valued flag value) (List.contains_iff_mem.1 hvalued) (ih h)
  | case4 done flag rest hvalued halone ih =>
    exact further (g := .alone flag) (List.contains_iff_mem.1 halone) (ih h)
  | case5 => cases h
  | case6 done arg rest hvalued halone hdashed ih =>
    have hplain := isDashed_eq_false_iff.1 (Bool.eq_false_iff.2 hdashed)
    exact further (g := .positional arg)
      ⟨hvalued ∘ List.contains_iff_mem.2, halone ∘ List.contains_iff_mem.2, hplain⟩ (ih h)

/-- Groups that give no option twice may be written in any order that keeps the positional arguments in theirs: they are
taken apart, each option says what its group says, and the positional arguments are the same. Arguments can be taken
apart just if they are groups written one behind the other, of which the last one with a flag counts. -/
theorem order_immaterial (flags : Flags) (hdisjoint : flags.valued.Disjoint flags.alone) :
    (∀ gs gs' : List Group, (∀ g ∈ gs, g.Fits flags) → ((Group.options gs).map (·.1)).Nodup → gs'.Perm gs →
      Group.positionals gs' = Group.positionals gs →
      split flags (Group.line gs) = .ok ⟨Group.options gs, Group.positionals gs⟩ ∧
      split flags (Group.line gs') = .ok ⟨Group.options gs', Group.positionals gs⟩ ∧
      (∀ flag, (Group.options gs').lookup flag = (Group.options gs).lookup flag) ∧
      ∀ flag v, (Group.options gs).lookup flag = some v ↔ ∃ g ∈ gs, g.option? = some (flag, v)) ∧
    (∀ args, (∃ a, split flags args = .ok a) ↔ ∃ gs : List Group, (∀ g ∈ gs, g.Fits flags) ∧ Group.line gs = args) ∧
    ∀ (gs : List Group) a, (∀ g ∈ gs, g.Fits flags) → split flags (Group.line gs) = .ok a →
      a.positional = Group.positionals gs ∧ ∀ flag v, a.options.lookup flag = some v ↔ Group.LastGives gs flag v := by
  have hsplit {gs : List Group} (hfits : ∀ g ∈ gs, g.Fits flags) :
      split flags (Group.line gs) = .ok ⟨OptionList.setAll [] (Group.options gs), Group.positionals gs⟩ :=
    splitFrom_line hdisjoint hfits
  have honce {gs : List Group} (hfits : ∀ g ∈ gs, g.Fits flags) (hnodup : ((Group.options gs).map (·.1)).Nodup) :
      split flags (Group.line gs) = .ok ⟨Group.options gs, Group.positionals gs⟩ := by
    rw [hsplit hfits, OptionList.setAll_of_nodup hnodup]
    rfl
  refine ⟨fun gs gs' hfits hnodup hperm hpositionals => ?_, fun args => ?_, fun gs a hfits ha => ?_⟩
  · have hoptions : (Group.options gs').Perm (Group.options gs) := hperm.filterMap _
    have hfits' : ∀ g ∈ gs', g.Fits flags := fun g hg => hfits g (hperm.subset hg)
    have hnodup' : ((Group.options gs').map (·.1)).Nodup := (hoptions.map _).nodup_iff.2 hnodup
    refine ⟨honce hfits hnodup, ?_, lookup_perm hnodup hoptions, fun flag v => ?_⟩
    · rw [honce hfits' hnodup', hpositionals]
    · rw [lookup_eq_some_iff_mem hnodup]
      exact List.mem_filterMap
  · constructor
    · rintro ⟨a, ha⟩
      exact line_of_splitFrom ha
    · rintro ⟨gs, hfits, rfl⟩
      exact ⟨_, hsplit hfits⟩
  · obtain rfl := Except.ok.inj ((hsplit hfits).symm.trans ha)
    refine ⟨rfl, fun flag v => ?_⟩
    show (OptionList.setAll [] (Group.options gs)).lookup flag = some v ↔ _
    rw [OptionList.lookup_setAll, List.lookup_nil, Option.or_none]
    exact lookup_reverse_eq_some_iff

/-- A value that looks like a flag, in two orders of the groups, and a flag that is given twice. -/
theorem order_immaterial_verbose :
    let flags := CheckRequest.flags
    flags.valued.Disjoint flags.alone ∧
    split flags ["--format", "--verbose", "-", "--verbose"] =
      .ok ⟨[("--format", .text "--verbose"), ("--verbose", .present)], ["-"]⟩ ∧
    split flags ["--verbose", "-", "--format", "--verbose"] =
      .ok ⟨[("--verbose", .present), ("--format", .text "--verbose")], ["-"]⟩ ∧
    ∃ a, split flags ["--format", "text", "--format", "json"] = .ok a ∧
      a.options.lookup (Text.ofString "--format") = some (.text "json") := by
  intro flags
  have hdisjoint : flags.valued.Disjoint flags.alone :=
    List.disjoint_left.2 (by decide : ∀ flag ∈ flags.valued, flag ∉ flags.alone)
  obtain ⟨horder, hiff, hlast⟩ := order_immaterial flags hdisjoint
  let gs : List Group := [.valued "--format" "--verbose", .positional "-", .alone "--verbose"]
  obtain ⟨hgs, hgs', -, -⟩ := horder gs gs.reverse (by decide) (by decide) (by decide) (by decide)
  let twice : List Group := [.valued "--format" "text", .valued "--format" "json"]
  have htwice : ∀ g ∈ twice, g.Fits flags := by decide
  obtain ⟨a, ha⟩ := (hiff (Group.line twice)).2 ⟨twice, htwice, rfl⟩
  exact ⟨hdisjoint, hgs, hgs', a, ha, ((hlast twice a htwice ha).2 _ _).2 ⟨[_], [], rfl, nofun⟩⟩

end Arguments
end Stencil.Tool
