/-
How the tags of extensions reach them. A block tag that begins with a name that an extension claims is handed over to
the extension (`Grammar.run_content_tag`). Of the tags of an extension, those that are names come to it in this way,
the word of raw blocks apart; no other tag ever does (`Environment.names_reach_extensions`).
-/
import Stencil.Proofs.Parallel.Conservative
import Stencil.Proofs.Progress.Reached
import Stencil.Proofs.Words.Segment
import Stencil.Proofs.Words.Template
import Stencil.Proofs.Writing.Template

namespace Stencil

/-! ## Claims -/

namespace Extension

/-- Without a fault no keyword is claimed. -/
theorem ofText?_of_claimFault? {claimed claims : List (Text × Text)} (h : claimFault? claimed claims = none) :
    ∀ claim ∈ claims, Keyword.ofText? claim.1 = none := by
  induction claims generalizing claimed with
  | nil => nofun
  | cons claim claims ih =>
    obtain ⟨tag, owner⟩ := claim
    rw [claimFault?] at h
    split at h
    · cases h
    · rename_i hword
      refine List.forall_mem_cons.2 ⟨Option.not_isSome_iff_eq_none.1 hword, ?_⟩
      split at h
      · cases h
      · exact ih h

theorem ofText?_of_mem_tags {xs : List Extension} (h : fault? xs = none) {x : Extension} (hx : x ∈ xs) {tag : Text}
    (ht : tag ∈ x.tags) : Keyword.ofText? tag = none := by
  have hclaim : (tag, x.name) ∈ claims xs := List.mem_flatMap.2 ⟨x, hx, List.mem_map_of_mem ht⟩
  exact ofText?_of_claimFault? h _ hclaim

end Extension

/-! ## Tags that are names -/

/-- The text is a letter or `_` with letters, `_` and digits behind it. -/
def Text.IsName (t : Text) : Prop := ∃ c u, t = c :: u ∧ isNameStart c = true ∧ u.all isNamePart = true

theorem TokenKind.spells_name_iff {t : Text} :
    TokenKind.name.Spells t ↔ t.IsName ∧ Keyword.ofText? t = none := by
  rw [Keyword.ofText?_eq_none_iff]
  constructor
  · rintro ⟨c, u, rfl, hc, hu, hword⟩
    exact ⟨⟨c, u, rfl, hc, hu⟩, hword⟩
  · rintro ⟨⟨c, u, rfl, hc, hu⟩, hword⟩
    exact ⟨c, u, rfl, hc, hu, hword⟩

/-- A block tag that holds a text alone. -/
def Text.inBlockTag (t : Text) : Text := "\x7b% " ++ t ++ " %\x7d"

namespace Scan

variable {d : Delimiters} {ts : List Token}

/-- The names in a template are spelled as names are. -/
theorem Word.spells_name (h : Word ts) : ∀ t ∈ ts, t.kind = .name → TokenKind.name.Spells t.value := by
  induction h with
  | finish hk =>
    intro t ht hn
    rw [List.mem_singleton.1 ht, hk] at hn
    cases hn
  | data hk _ _ ih =>
    refine List.forall_mem_cons.2 ⟨fun hn => ?_, ih⟩
    rw [hk] at hn
    cases hn
  | tag tag hb hi he _ ih =>
    refine List.forall_mem_cons.2 ⟨fun hn => ?_, fun t ht hn => ?_⟩
    · rw [hb] at hn
      cases tag <;> cases hn
    · rcases List.mem_append.1 ht with ht | ht
      · exact hn ▸ hi.contents.spells t.content (List.mem_map_of_mem ht)
      · rcases List.mem_cons.1 ht with rfl | ht
        · rw [he] at hn
          cases tag <;> cases hn
        · exact ih t ht hn

/-- A name in a block tag is scanned, the word of raw blocks apart. -/
theorem tokens_of_name {t : Text} (hv : TokenKind.name.Spells t) (hraw : t ≠ Delimiters.rawWord)
    (filename : Option Text) :
    ∃ ts, Environment.standard.tokens filename t.inBlockTag = .ok ts ∧
      ts.map Token.content = [(TokenKind.blockBegin, Delimiters.standard.blockStart), (.name, t),
        (.blockEnd, Delimiters.standard.blockEnd), (.eof, [])] := by
  have hd : Delimiters.standard.Sound := Environment.standard.isSound
  let draft : Lexeme.Draft := ⟨.name, t, .single⟩
  have hname : (Segment.tag .block [draft]).Valid := by
    refine ⟨.cons hv nofun (.nil _), .plain (fun _ _ _ => ⟨nofun, nofun⟩) .nil, fun _ h => hraw ?_⟩
    exact congrArg Prod.snd (List.cons_eq_cons.1 h).1
  have hsource : (Segment.tag .block [draft]).text ++ [] = t.inBlockTag := by
    show Tag.start .standard .block ++ Text.unit ' ' :: (t ++ [Text.unit ' '] ++ [] ++ Tag.close .standard .block) ++
      [] = _
    simp only [List.append_nil, List.append_assoc, Text.inBlockTag]
    rfl
  obtain ⟨l, hpass⟩ : ∃ l, Passes hd filename ⟨.outside, .origin, (Segment.tag .block [draft]).text ++ []⟩
      (Segment.tag .block [draft]).contents ⟨.outside, l, []⟩ := passes_segment filename hd hname nofun .origin
  rw [hsource] at hpass
  exact hpass.tokens_of_end

/-- The word of raw blocks in a block tag begins one, which is not closed. -/
theorem tokens_of_raw (filename : Option Text) :
    Environment.standard.tokens filename (Text.inBlockTag Delimiters.rawWord) =
      .error (unclosed filename "raw block" "\x7b% endraw %\x7d" .origin) := by
  have hd : Delimiters.standard.Sound := Environment.standard.isSound
  have hopen : Delimiters.standard.opener? (Text.inBlockTag Delimiters.rawWord) = some .block := rfl
  have hraw : Delimiters.standard.afterWordTag Delimiters.rawWord (Text.inBlockTag Delimiters.rawWord) = some [] := rfl
  have hbody : Delimiters.standard.splitRaw [] = none := rfl
  have hstep : State.step .standard filename ⟨.outside, .origin, Text.inBlockTag Delimiters.rawWord⟩ =
      .error (unclosed filename "raw block" "\x7b% endraw %\x7d" .origin) := by
    rw [step_opener filename hopen]
    simp only [openerStep, hraw, hbody]
    rfl
  exact Reaches.here.error hd hstep

end Scan

/-! ## Control of extensions -/

namespace Grammar

open Stencil.Parser

variable {find : Text → Option Extension} {x : Extension} {s : Stream} {pos n : Nat} {ends : Option (List TokenKind)}

/-- The rest of a body from the first word of a tag on, which an extension reads: its statements stand behind the
pending pieces, and behind the end of the tag the body goes on. -/
def bodyFromTag (find : Text → Option Extension) (n : Nat) (x : Extension) (ends : Option (List TokenKind))
    (pending : List Expr) : Parser (List Stmt) := do
  let splice ← x.parse (run find n)
  let _ ← expect .blockEnd
  let rest ← run find (n + 1) (.content ends [])
  return output pending ++ splice.toList ++ rest

/-- The rest of a template from the first word of its first tag on, which an extension reads. -/
def templateFromTag (find : Text → Option Extension) (n : Nat) (x : Extension) : Parser Template := do
  let body ← bodyFromTag find n x none []
  let stop := (← current).span.finish
  return ⟨body, ⟨.origin, stop⟩⟩

/-- Where a block tag begins with a name that an extension claims, the extension has control, and the name is
current. -/
theorem run_content_tag (hb : (s.get pos).kind = .blockBegin) (hk : (s.get (pos + 1)).kind = .name)
    (hends : .name ∉ ends.getD []) (hx : find (s.get (pos + 1)).value = some x) (n : Nat) (pending : List Expr) :
    run find (n + 2) (.content ends pending) s pos = bodyFromTag find n x ends pending s (pos + 1) := by
  have hstatement : run find (n + 1) .statement s (pos + 1) = x.parse (run find n) s (pos + 1) := by
    show statement (run find n) find s (pos + 1) = _
    unfold statement
    rw [current_bind]
    simp only [hk, hx]
  show content (run find (n + 1)) ends pending s pos = _
  unfold content
  rw [current_bind]
  simp only [hb]
  rw [advance_bind (by rw [hb]; nofun), check_no (by rw [hk]; exact hends)]
  exact Parser.bind_congr hstatement _

theorem template_tag (hb : (s.get 0).kind = .blockBegin) (hk : (s.get 1).kind = .name)
    (hx : find (s.get 1).value = some x) (hn : n + 3 = depth s) :
    ofExtensions find .template s 0 = templateFromTag find n x s 1 := by
  have hbody : run find (n + 2) (.content none []) s 0 = bodyFromTag find n x none [] s 1 :=
    run_content_tag hb hk List.not_mem_nil hx n []
  show run find (depth s) .template s 0 = _
  rw [← hn]
  exact Parser.bind_congr hbody _

end Grammar

namespace Environment

/-- The tags of the extensions of an environment with the standard delimiters. Each tag of each extension stands in the
table once and leads to its extension, and none is a keyword. In a block tag by itself, a tag that is a name is a
name token, and reading the template comes to the extension with this token current, the word of raw blocks apart:
that one begins a raw block, which is not closed. A tag that is no name is no name token in any template. -/
theorem names_reach_extensions (env : Environment) (hd : env.delimiters = .standard) (filename : Option Text) :
    let find := Extension.find? env.extensions
    Extension.table env.extensions = env.extensions.flatMap (fun x => x.tags.map fun t => (t, x)) ∧
    ((Extension.table env.extensions).map (·.1)).Nodup ∧
    ∀ x ∈ env.extensions, ∀ t ∈ x.tags,
      find t = some x ∧ Keyword.ofText? t = none ∧
      (t.IsName → t ≠ Delimiters.rawWord → ∃ ts s n,
        env.tokens filename t.inBlockTag = .ok ts ∧ Stream.ofTokens ts.toArray filename env.delimiters = .ok s ∧
        ts.map Token.content = [(TokenKind.blockBegin, Delimiters.standard.blockStart), (.name, t),
          (.blockEnd, Delimiters.standard.blockEnd), (.eof, [])] ∧
        (s.get 1).content = (TokenKind.name, t) ∧ n + 3 = Grammar.depth s ∧
        env.grammar .template s 0 = Grammar.templateFromTag find n x s 1) ∧
      (t = Delimiters.rawWord → ∃ e, env.tokens filename t.inBlockTag = .error e ∧
        e.id.code = ("KILN-L003" : Text) ∧ e.location = some .origin) ∧
      (¬t.IsName → ∀ filename source ts, env.tokens filename source = .ok ts →
        ∀ u ∈ ts, u.kind = .name → u.value ≠ t) := by
  intro find
  have htokens : env.tokens = standard.tokens := tokens_eq_of_delimiters hd
  obtain ⟨htable, hnodup⟩ := Extension.table_eq env.unclaimed
  refine ⟨htable, hnodup, fun x hx t ht => ?_⟩
  have hfind : find t = some x := Extension.find?_of_mem env.unclaimed hx ht
  have hword : Keyword.ofText? t = none := Extension.ofText?_of_mem_tags env.unclaimed hx ht
  refine ⟨hfind, hword, fun hname hraw => ?_, fun hraw => ?_, fun hname filename source ts hts u hu hk huv => ?_⟩
  · obtain ⟨ts, hts, hcontents⟩ := Scan.tokens_of_name (TokenKind.spells_name_iff.2 ⟨hname, hword⟩) hraw filename
    obtain ⟨b, us, rfl, hb, hrest⟩ := List.map_eq_cons_iff.1 hcontents
    obtain ⟨u, us, rfl, hu, -⟩ := List.map_eq_cons_iff.1 hrest
    let s : Stream := ⟨(b :: u :: us).toArray, Nat.succ_pos _, filename, env.delimiters⟩
    have hbegin : (s.get 0).kind = .blockBegin := congrArg Prod.fst hb
    obtain ⟨hk, hv⟩ := Prod.mk.inj hu
    have hdepth : Grammar.depth s - 3 + 3 = Grammar.depth s := by
      unfold Grammar.depth
      omega
    refine ⟨_, s, Grammar.depth s - 3, by rw [htokens, hts], rfl, hcontents, hu, hdepth, ?_⟩
    exact Grammar.template_tag hbegin hk (hv ▸ hfind) hdepth
  · subst hraw
    exact ⟨_, by rw [htokens, Scan.tokens_of_raw], rfl, rfl⟩
  · have hspells := (Scan.tokensFrom_continues env.isSound hts : Scan.Word ts).spells_name u hu hk
    rw [huv] at hspells
    exact hname (TokenKind.spells_name_iff.1 hspells).1

/-- A tag that is a name, the word of raw blocks and a tag with a hyphen. -/
theorem names_reach_extensions_mark :
    let x : Extension := ⟨"marker", ["mark", "raw", "my-tag"], fun _ => Parser.faultWith .depth⟩
    let env : Environment := ⟨.standard, [x], Delimiters.standard_fault, by decide⟩
    (∃ ts s n, env.tokens none "\x7b% mark %\x7d" = .ok ts ∧ Stream.ofTokens ts.toArray none env.delimiters = .ok s ∧
      (s.get 1).content = (TokenKind.name, Text.ofString "mark") ∧ n + 3 = Grammar.depth s ∧
      env.grammar .template s 0 = Grammar.templateFromTag (Extension.find? env.extensions) n x s 1) ∧
    (∃ e, env.tokens none "\x7b% raw %\x7d" = .error e ∧ e.id.code = ("KILN-L003" : Text) ∧
      e.location = some .origin) ∧
    ∀ source ts, env.tokens none source = .ok ts → ∀ u ∈ ts, u.kind = .name → u.value ≠ ("my-tag" : Text) := by
  intro x env
  obtain ⟨-, -, htags⟩ := names_reach_extensions env rfl none
  obtain ⟨-, -, hmark, -, -⟩ := htags x List.mem_cons_self "mark" (by decide)
  obtain ⟨-, -, -, hraw, -⟩ := htags x List.mem_cons_self "raw" (by decide)
  obtain ⟨-, -, -, -, hother⟩ := htags x List.mem_cons_self "my-tag" (by decide)
  have hhyphen : ¬Text.IsName "my-tag" := by
    rintro ⟨c, u, h, -, hu⟩
    obtain ⟨-, rfl⟩ := List.cons_eq_cons.1 h
    exact absurd hu (by decide)
  obtain ⟨ts, s, n, hts, hs, -, hreach⟩ := hmark ⟨_, _, rfl, by decide, by decide⟩ (by decide)
  exact ⟨⟨ts, s, n, hts, hs, hreach⟩, hraw rfl, hother hhyphen none⟩

/-- An extension that claims the word of raw blocks, in a template with its tag. -/
theorem raw_reaches_no_extension :
    let x : Extension := ⟨"raw reader", ["raw"], fun _ => Parser.advance >>= fun _ => pure (.many [])⟩
    let env : Environment := ⟨.standard, [x], Delimiters.standard_fault, by decide⟩
    Extension.find? env.extensions "raw" = some x ∧
      env.tokens none "\x7b% raw %\x7d" =
        .error (Scan.unclosed none "raw block" "\x7b% endraw %\x7d" .origin) := by
  intro x env
  exact ⟨Extension.find?_of_mem env.unclaimed List.mem_cons_self List.mem_cons_self, Scan.tokens_of_raw none⟩

end Environment

end Stencil
