/-
Configurations and the environments they lead to. A value is read as a configuration just if it writes one down
(`Config.ofJson_eq_ok_iff`): an object with no other members than the delimiters and the extensions, each of which may
be left out. Its environment exists just if no extension is named twice and the delimiters are sound after the standard
ones have been filled in (`Config.environment?_eq_ok_iff`); together this says which values lead to an environment, and
to which one (`Config.environments_exact`).
-/
import Mathlib.Data.List.Nodup
import Stencil.Environment.Config
import Stencil.Proofs.Progress.Termination
import Stencil.Proofs.Writing.Template

namespace Stencil

/-! ## Extensions that come with the library -/

namespace Extension

/-- Tags that are no keywords, and of which none is claimed before, are claimed without a fault. -/
theorem claimFault?_eq_none {claimed claims : List (Text × Text)}
    (hword : ∀ claim ∈ claims, Keyword.ofText? claim.1 = none) (hnodup : (claims.map (·.1)).Nodup)
    (hfresh : ∀ tag ∈ claims.map (·.1), claimed.lookup tag = none) : claimFault? claimed claims = none := by
  induction claims generalizing claimed with
  | nil => rfl
  | cons claim claims ih =>
    obtain ⟨tag, owner⟩ := claim
    rw [List.map_cons, List.nodup_cons] at hnodup
    have hplain : ¬(Keyword.ofText? tag).isSome = true := by
      rw [hword _ List.mem_cons_self]
      exact Bool.false_ne_true
    rw [claimFault?, if_neg hplain, hfresh tag List.mem_cons_self]
    refine ih (fun claim h => hword claim (List.mem_cons_of_mem _ h)) hnodup.2 fun t ht => ?_
    have hne : t ≠ tag := by
      rintro rfl
      exact hnodup.1 ht
    rw [List.lookup_cons, beq_false_of_ne hne]
    exact hfresh t (List.mem_cons_of_mem _ ht)

variable {x y : Extension} {xs : List Extension} {name : Text}

theorem map_fst_claims (xs : List Extension) : (claims xs).map (·.1) = xs.flatMap (·.tags) := by
  simp only [claims, List.map_flatMap, List.map_map, Function.comp_def, List.map_id']

theorem ofName?_eq_some_iff : ofName? name = some x ↔ x ∈ builtin ∧ x.name = name := by
  constructor
  · intro h
    exact ⟨List.mem_of_find?_eq_some h, by simpa using List.find?_some h⟩
  · rintro ⟨hx, rfl⟩
    rcases List.mem_cons.1 hx with rfl | hx
    · rfl
    · rw [List.mem_singleton.1 hx]
      rfl

/-- The tags of an extension of the library are no keywords, and each stands there once. -/
theorem builtin_tags (hx : x ∈ builtin) : (∀ t ∈ x.tags, Keyword.ofText? t = none) ∧ x.tags.Nodup := by
  rcases List.mem_cons.1 hx with rfl | hx
  · decide
  · rw [List.mem_singleton.1 hx]
    decide

/-- Extensions of the library share tags only if they have one name. -/
theorem builtin_disjoint (hx : x ∈ builtin) (hy : y ∈ builtin) : x.tags.Disjoint y.tags ↔ x.name ≠ y.name := by
  have hself {z : Extension} (hz : z.tags ≠ []) : z.tags.Disjoint z.tags ↔ z.name ≠ z.name := by
    obtain ⟨t, ts, hts⟩ := List.exists_cons_of_ne_nil hz
    refine iff_of_false (fun h => ?_) fun h => h rfl
    rw [hts] at h
    exact h List.mem_cons_self List.mem_cons_self
  have hother : (∀ t ∈ doStatement.tags, t ∉ loopControls.tags) ∧ doStatement.name ≠ loopControls.name := by decide
  rcases List.mem_cons.1 hx with rfl | hx <;> rcases List.mem_cons.1 hy with rfl | hy
  · exact hself (by decide)
  · rw [List.mem_singleton.1 hy]
    exact iff_of_true (fun t ht ht' => hother.1 t ht ht') hother.2
  · rw [List.mem_singleton.1 hx]
    exact iff_of_true (fun t ht ht' => hother.1 t ht' ht) hother.2.symm
  · rw [List.mem_singleton.1 hx, List.mem_singleton.1 hy]
    exact hself (by decide)

/-- Extensions of the library can be used together just if none is there twice. -/
theorem fault?_eq_none_iff (h : ∀ x ∈ xs, x ∈ builtin) : fault? xs = none ↔ (xs.map (·.name)).Nodup := by
  have htags : (xs.flatMap (·.tags)).Nodup ↔ (xs.map (·.name)).Nodup := by
    rw [List.nodup_flatMap, and_iff_right fun x hx => (builtin_tags (h x hx)).2, List.Nodup, List.pairwise_map]
    exact List.Pairwise.iff_of_mem fun hx hy => builtin_disjoint (h _ hx) (h _ hy)
  rw [← htags, ← map_fst_claims]
  constructor
  · intro hnone
    exact (nodup_of_claimFault? hnone).1
  · intro hnodup
    refine claimFault?_eq_none (fun claim hclaim => ?_) hnodup fun _ _ => rfl
    obtain ⟨x, hx, hclaim⟩ := List.mem_flatMap.1 hclaim
    obtain ⟨t, ht, rfl⟩ := List.mem_map.1 hclaim
    exact (builtin_tags (h x hx)).1 t ht

end Extension

/-! ## Environments of options -/

theorem EnvironmentFault.message_head (f : EnvironmentFault) : ("Invalid environment: " : Text) <+: f.message := by
  have append {head t : Text} (u : Text) (h : head <+: t) : head <+: t ++ u := h.trans (List.prefix_append t u)
  cases f with
  | emptyDelimiter k => exact append _ (append _ List.prefix_rfl)
  | equalStarts => decide
  | reservedTag x tag => exact append _ (append _ (append _ (append _ (by decide))))
  | claimedTwice tag a b => exact append _ (append _ (append _ (append _ (append _ (by decide)))))

theorem Environment.create?_eq_ok_iff {o : Options} {env : Environment} :
    create? o = .ok env ↔
      env.delimiters = Delimiters.ofFun (fun k => resolve k (o.delimiter k)) ∧ env.extensions = o.extensions := by
  unfold create?
  constructor
  · intro h
    simp only at h
    split at h
    · cases h
    · split at h
      · cases h
      · cases h
        exact ⟨rfl, rfl⟩
  · obtain ⟨d, xs, hd, hx⟩ := env
    rintro ⟨rfl, rfl⟩
    simp only
    split
    · rename_i f hf
      rw [hd] at hf
      cases hf
    · split
      · rename_i f hf
        rw [hx] at hf
        cases hf
      · rfl

/-! ## Values that write a configuration -/

theorem DelimiterName.ofText?_eq_some_iff {t : Text} {k : DelimiterName} : ofText? t = some k ↔ t = k.text := by
  constructor
  · intro h
    have hfound : k.text = t := by simpa using List.find?_some h
    exact hfound.symm
  · rintro rfl
    cases k <;> decide

namespace Config

variable {ms : Json.Members} {js : List Json} {m : Option Json} {j : Json} {c : Config} {names : List Text}
  {chosen : List (DelimiterName × Text)} {env : Environment}

/-- The members that choose delimiters. -/
def delimiterMembers (chosen : List (DelimiterName × Text)) : Json.Members :=
  chosen.map fun (k, t) => (k.text, .string t)

/-- A value writes a configuration down: it is an object that has members for the delimiters and the extensions only.
The one holds texts under names of delimiters, the other names of extensions of the library; what is left out chooses
nothing. -/
structure WrittenBy (c : Config) (j : Json) : Prop where
  object : ∃ ms, j = .object ms ∧ ∀ m ∈ ms, m.1 = delimitersKey ∨ m.1 = extensionsKey
  delimiters : j.get? delimitersKey = none ∧ c.delimiters = [] ∨
    j.get? delimitersKey = some (.object (delimiterMembers c.delimiters))
  extensions : j.get? extensionsKey = none ∧ c.extensions = [] ∨
    j.get? extensionsKey = some (.array (c.extensions.map .string))
  known : ∀ name ∈ c.extensions, ∃ x ∈ Extension.builtin, x.name = name

theorem delimitersOf_members (chosen : List (DelimiterName × Text)) :
    delimitersOf (delimiterMembers chosen) = .ok chosen := by
  induction chosen with
  | nil => rfl
  | cons choice chosen ih =>
    obtain ⟨k, t⟩ := choice
    have hk : DelimiterName.ofText? k.text = some k := DelimiterName.ofText?_eq_some_iff.2 rfl
    show delimitersOf ((k.text, .string t) :: delimiterMembers chosen) = _
    simp only [delimitersOf, hk, ih]
    rfl

theorem eq_members_of_delimitersOf (h : delimitersOf ms = .ok chosen) : ms = delimiterMembers chosen := by
  fun_induction delimitersOf ms generalizing chosen with
  | case1 => cases h; rfl
  | case2 => cases h
  | case3 key ms name t hname ih =>
    cases hrest : delimitersOf ms with
    | error f => rw [hrest] at h; cases h
    | ok rest =>
      rw [hrest] at h
      cases h
      rw [ih hrest, DelimiterName.ofText?_eq_some_iff.1 hname]
      rfl
  | case4 => cases h

theorem readDelimiters_eq_ok_iff :
    readDelimiters m = .ok chosen ↔ m = none ∧ chosen = [] ∨ m = some (.object (delimiterMembers chosen)) := by
  constructor
  · intro h
    unfold readDelimiters at h
    split at h
    · cases h
      exact .inl ⟨rfl, rfl⟩
    · rw [eq_members_of_delimitersOf h]
      exact .inr rfl
    · cases h
  · rintro (⟨rfl, rfl⟩ | rfl)
    · rfl
    · exact delimitersOf_members chosen

theorem texts?_strings (names : List Text) : texts? (names.map .string) = some names := by
  induction names with
  | nil => rfl
  | cons name names ih =>
    rw [List.map_cons, texts?, ih]
    rfl

theorem eq_strings_of_texts? (h : texts? js = some names) : js = names.map .string := by
  fun_induction texts? js generalizing names with
  | case1 => cases h; rfl
  | case2 t js ih =>
    obtain ⟨rest, hrest, rfl⟩ := Option.map_eq_some_iff.1 h
    rw [ih hrest]
    rfl
  | case3 => cases h

theorem find?_unknown_eq_none_iff : (names.find? fun n => (Extension.ofName? n).isNone) = none ↔
    ∀ name ∈ names, ∃ x ∈ Extension.builtin, x.name = name := by
  rw [List.find?_eq_none]
  refine forall₂_congr fun name _ => ?_
  rw [Option.isNone_iff_eq_none, ← ne_eq, Option.ne_none_iff_exists']
  exact exists_congr fun x => Extension.ofName?_eq_some_iff

theorem readExtensions_eq_ok_iff :
    readExtensions m = .ok names ↔ (m = none ∧ names = [] ∨ m = some (.array (names.map .string))) ∧
      ∀ name ∈ names, ∃ x ∈ Extension.builtin, x.name = name := by
  constructor
  · intro h
    unfold readExtensions at h
    split at h
    · cases h
      exact ⟨.inl ⟨rfl, rfl⟩, nofun⟩
    · split at h
      · cases h
      · rename_i hnames
        split at h
        · cases h
        · rename_i hknown
          cases h
          rw [eq_strings_of_texts? hnames]
          exact ⟨.inr rfl, find?_unknown_eq_none_iff.1 hknown⟩
    · cases h
  · rintro ⟨⟨rfl, rfl⟩ | rfl, hknown⟩
    · rfl
    · simp only [readExtensions, texts?_strings, find?_unknown_eq_none_iff.2 hknown]

theorem find?_stray_eq_none_iff : (ms.find? fun m => m.1 != delimitersKey && m.1 != extensionsKey) = none ↔
    ∀ m ∈ ms, m.1 = delimitersKey ∨ m.1 = extensionsKey := by
  rw [List.find?_eq_none]
  refine forall₂_congr fun m _ => ?_
  rw [Bool.and_eq_true, bne_iff_ne, bne_iff_ne]
  exact not_and_or.trans (or_congr not_ne_iff not_ne_iff)

/-- A value is read as a configuration just if it writes the configuration down. -/
theorem ofJson_eq_ok_iff : ofJson j = .ok c ↔ c.WrittenBy j := by
  constructor
  · intro h
    unfold ofJson at h
    split at h
    · rename_i ms
      split at h
      · cases h
      · rename_i hkeys
        cases hd : readDelimiters (Json.Members.get? ms delimitersKey) with
        | error f => rw [hd] at h; cases h
        | ok chosen =>
          cases hx : readExtensions (Json.Members.get? ms extensionsKey) with
          | error f => rw [hd, hx] at h; cases h
          | ok names =>
            rw [hd, hx] at h
            cases h
            obtain ⟨hnames, hknown⟩ := readExtensions_eq_ok_iff.1 hx
            exact ⟨⟨ms, rfl, find?_stray_eq_none_iff.1 hkeys⟩, readDelimiters_eq_ok_iff.1 hd, hnames, hknown⟩
    · cases h
  · rintro ⟨⟨ms, rfl, hkeys⟩, hchosen, hnames, hknown⟩
    have hd : readDelimiters (Json.Members.get? ms delimitersKey) = .ok c.delimiters :=
      readDelimiters_eq_ok_iff.2 hchosen
    have hx : readExtensions (Json.Members.get? ms extensionsKey) = .ok c.extensions :=
      readExtensions_eq_ok_iff.2 ⟨hnames, hknown⟩
    simp only [ofJson, find?_stray_eq_none_iff.2 hkeys, hd, hx]
    rfl

/-! ## Environments of configurations -/

/-- The delimiters of a configuration, with the standard ones in place of those that are not chosen. -/
def filled (c : Config) : Delimiters :=
  .ofFun fun k => (c.delimiters.lookup k).getD (Delimiters.standard.get k)

theorem resolve_options (c : Config) :
    (Delimiters.ofFun fun k => Environment.resolve k (c.options.delimiter k)) = c.filled := by
  unfold filled
  congr 1
  funext k
  simp only [options]
  cases c.delimiters.lookup k <;> rfl

theorem mem_builtin_of_options {x : Extension} (hx : x ∈ c.options.extensions) : x ∈ Extension.builtin := by
  obtain ⟨name, -, hname⟩ := List.mem_filterMap.1 hx
  exact (Extension.ofName?_eq_some_iff.1 hname).1

/-- The extensions that names of extensions lead to have these names, in their order. -/
theorem map_name_options (hknown : ∀ name ∈ c.extensions, ∃ x ∈ Extension.builtin, x.name = name) :
    c.options.extensions.map (·.name) = c.extensions := by
  show (c.extensions.filterMap Extension.ofName?).map (·.name) = c.extensions
  rw [List.map_filterMap]
  conv => rhs; rw [← List.filterMap_some (l := c.extensions)]
  refine List.filterMap_congr fun name hname => ?_
  obtain ⟨x, hx, rfl⟩ := hknown name hname
  rw [Extension.ofName?_eq_some_iff.2 ⟨hx, rfl⟩]
  rfl

theorem environment?_eq_ok_iff :
    environment? (some c) = .ok env ↔ env.delimiters = c.filled ∧ env.extensions = c.options.extensions := by
  rw [← resolve_options]
  exact Environment.create?_eq_ok_iff

/-- A configuration has an environment just if it names no extension twice and its delimiters are sound. -/
theorem exists_environment?_iff (hknown : ∀ name ∈ c.extensions, ∃ x ∈ Extension.builtin, x.name = name) :
    (∃ env, environment? (some c) = .ok env) ↔ c.extensions.Nodup ∧ c.filled.Sound := by
  have hfault : Extension.fault? c.options.extensions = none ↔ c.extensions.Nodup := by
    rw [Extension.fault?_eq_none_iff fun _ => mem_builtin_of_options, map_name_options hknown]
  rw [← hfault, ← Delimiters.fault?_eq_none_iff]
  constructor
  · rintro ⟨env, henv⟩
    obtain ⟨hd, hx⟩ := environment?_eq_ok_iff.1 henv
    exact ⟨hx ▸ env.unclaimed, hd ▸ env.sound⟩
  · rintro ⟨hx, hd⟩
    exact ⟨⟨_, _, hd, hx⟩, environment?_eq_ok_iff.2 ⟨rfl, rfl⟩⟩

theorem environment?_isBuiltin {c : Option Config} (h : environment? c = .ok env) : env.IsBuiltin := by
  cases c with
  | none => cases h; nofun
  | some c =>
    intro x hx
    rw [(environment?_eq_ok_iff.1 h).2] at hx
    exact mem_builtin_of_options hx

/-! ## From values to environments -/

/-- A value leads to an environment just if it writes down a configuration that names no extension twice and whose
delimiters, the standard ones filled in, all have a unit and begin tags in three different ways. The environment has
these delimiters, and these extensions in the order of their names. A value that writes no configuration down is an
invalid configuration, and one whose configuration has no environment asks for an invalid environment. -/
theorem environments_exact (j : Json) :
    ((∃ c env, ofJson j = .ok c ∧ environment? (some c) = .ok env) ↔
      ∃ c : Config, c.WrittenBy j ∧ c.extensions.Nodup ∧ c.filled.Sound) ∧
    (∀ c env, ofJson j = .ok c → environment? (some c) = .ok env →
      c.WrittenBy j ∧ env.delimiters = c.filled ∧ env.extensions.map (·.name) = c.extensions ∧ env.IsBuiltin) ∧
    (∀ f, ofJson j = .error f →
      (¬∃ c : Config, c.WrittenBy j) ∧ ("Invalid configuration: " : Text) <+: f.message) ∧
    ∀ c f, ofJson j = .ok c → environment? (some c) = .error f →
      c.WrittenBy j ∧ ¬(c.extensions.Nodup ∧ c.filled.Sound) ∧ ("Invalid environment: " : Text) <+: f.message := by
  refine ⟨?_, fun c env hc henv => ?_, fun f hf => ⟨?_, f.reason, rfl⟩, fun c f hc hf => ?_⟩
  · constructor
    · rintro ⟨c, env, hc, henv⟩
      have hwritten := ofJson_eq_ok_iff.1 hc
      exact ⟨c, hwritten, (exists_environment?_iff hwritten.known).1 ⟨env, henv⟩⟩
    · rintro ⟨c, hwritten, husable⟩
      obtain ⟨env, henv⟩ := (exists_environment?_iff hwritten.known).2 husable
      exact ⟨c, env, ofJson_eq_ok_iff.2 hwritten, henv⟩
  · have hwritten := ofJson_eq_ok_iff.1 hc
    obtain ⟨hdelimiters, hextensions⟩ := environment?_eq_ok_iff.1 henv
    refine ⟨hwritten, hdelimiters, ?_, environment?_isBuiltin henv⟩
    rw [hextensions, map_name_options hwritten.known]
  · rintro ⟨c, hwritten⟩
    rw [ofJson_eq_ok_iff.2 hwritten] at hf
    cases hf
  · have hwritten := ofJson_eq_ok_iff.1 hc
    refine ⟨hwritten, fun husable => ?_, f.message_head⟩
    obtain ⟨env, henv⟩ := (exists_environment?_iff hwritten.known).2 husable
    rw [henv] at hf
    cases hf

/-- Both extensions and one delimiter, the other members left out. -/
theorem environments_exact_dollar :
    let j : Json := .object [("extensions", .array [.string "loopcontrols", .string "do"]),
      ("delimiters", .object [("variableStart", .string "$\x7b")])]
    ∃ c env, ofJson j = .ok c ∧ environment? (some c) = .ok env ∧
      env.delimiters = { Delimiters.standard with variableStart := "$\x7b" } ∧
      env.extensions.map (·.name) = [Text.ofString "loopcontrols", Text.ofString "do"] := by
  intro j
  obtain ⟨hiff, hvalues, -, -⟩ := environments_exact j
  let c : Config := ⟨[(.variableStart, "$\x7b")], ["loopcontrols", "do"]⟩
  have hc : ofJson j = .ok c := by rfl
  have hwritten : c.WrittenBy j := ofJson_eq_ok_iff.1 hc
  obtain ⟨c', env, hc', henv⟩ :=
    hiff.2 ⟨c, hwritten, by decide, Delimiters.fault?_eq_none_iff.1 (by decide)⟩
  obtain rfl : c = c' := Except.ok.inj (hc.symm.trans hc')
  obtain ⟨-, hdelimiters, hextensions, -⟩ := hvalues c env hc henv
  exact ⟨c, env, hc, henv, hdelimiters, hextensions⟩

end Config
end Stencil
