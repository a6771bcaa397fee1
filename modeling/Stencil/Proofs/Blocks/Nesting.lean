/-
How the tags of a template nest. `WellNested` is the language of the words that block tags begin with: each
body stands between the two words that belong together, a loop may have one `else`, and a conditional any
number of `elif` and behind them one `else`. `Nests` reads such words and statements side by side, so that it
says which tags a statement comes from and that its body comes from the tags between them.
-/
import Stencil.Tree.Stmt
import Stencil.Token.Basic

namespace Stencil

/-- The word begins a body, parts two bodies or ends one. -/
def Keyword.delimitsBody : Keyword → Bool
  | forTag | endFor | ifTag | elifTag | elseTag | endIf | blockTag | endBlock | macroTag | endMacro
  | callTag | endCall | filterTag | endFilter => true
  | _ => false

def TokenKind.delimitsBody : TokenKind → Bool
  | keyword k => k.delimitsBody
  | _ => false

/-- The words around a body that is not parted. -/
inductive Keyword.Frames : Keyword → Keyword → Prop
  | block : Frames blockTag endBlock
  | define : Frames macroTag endMacro
  | callBlock : Frames callTag endCall
  | filterBlock : Frames filterTag endFilter

/-- The statement has one body, which stands between two words. -/
inductive Stmt.Frames : Stmt → Keyword → Keyword → List Stmt → Prop
  | block (name : Text) (body : List Stmt) (span : Span) : Frames (.block name body span) .blockTag .endBlock body
  | define (name : Text) (signature : Signature) (body : List Stmt) (span : Span) :
      Frames (.define name signature body span) .macroTag .endMacro body
  | callBlock (signature : Signature) (call : Expr) (body : List Stmt) (span : Span) :
      Frames (.callBlock signature call body span) .callTag .endCall body
  | filterBlock (filter : Expr) (body : List Stmt) (span : Span) :
      Frames (.filterBlock filter body span) .filterTag .endFilter body

theorem Stmt.Frames.keywords {st : Stmt} {o c : Keyword} {body : List Stmt} (h : st.Frames o c body) : o.Frames c := by
  cases h
  · exact .block
  · exact .define
  · exact .callBlock
  · exact .filterBlock

/-- The statement has no body. -/
def Stmt.isPlain : Stmt → Bool
  | loop .. | branch .. | block .. | define .. | callBlock .. | filterBlock .. => false
  | _ => true

/-- What a list of words is: all of a body, or the branches behind the first one of a conditional. -/
inductive Part
  | body | branches

/-- The words are those of properly nested tags. -/
inductive WellNested : Part → List TokenKind → Prop
  | nil : WellNested .body []
  | append {ks ks' : List TokenKind} (h : WellNested .body ks) (h' : WellNested .body ks') :
      WellNested .body (ks ++ ks')
  | plain {k : TokenKind} (hk : k.delimitsBody = false) : WellNested .body [k]
  | framed {o c : Keyword} {ks : List TokenKind} (hf : o.Frames c) (h : WellNested .body ks) :
      WellNested .body (.keyword o :: (ks ++ [.keyword c]))
  | loop {ks : List TokenKind} (h : WellNested .body ks) :
      WellNested .body (.keyword .forTag :: (ks ++ [.keyword .endFor]))
  | loopElse {ks es : List TokenKind} (h : WellNested .body ks) (he : WellNested .body es) :
      WellNested .body (.keyword .forTag :: (ks ++ .keyword .elseTag :: (es ++ [.keyword .endFor])))
  | conditional {ks bs : List TokenKind} (h : WellNested .body ks) (hb : WellNested .branches bs) :
      WellNested .body (.keyword .ifTag :: (ks ++ (bs ++ [.keyword .endIf])))
  | noBranch : WellNested .branches []
  | elseBranch {ks : List TokenKind} (h : WellNested .body ks) : WellNested .branches (.keyword .elseTag :: ks)
  | elifBranch {ks bs : List TokenKind} (h : WellNested .body ks) (hb : WellNested .branches bs) :
      WellNested .branches (.keyword .elifTag :: (ks ++ bs))

/-- The statements come from tags that begin with the tokens. An output may come from between tags; every other
statement comes from one tag, or from the tags around its bodies, the first of which begins where it begins. -/
inductive Nests : Part → List Token → List Stmt → Prop
  | nil : Nests .body [] []
  | append {ts ts' : List Token} {ss ss' : List Stmt} (h : Nests .body ts ss) (h' : Nests .body ts' ss') :
      Nests .body (ts ++ ts') (ss ++ ss')
  | output (nodes : List Expr) (span : Span) : Nests .body [] [.output nodes span]
  | plain {t : Token} {st : Stmt} (ht : t.kind.delimitsBody = false) (hst : st.isPlain = true) :
      Nests .body [t] [st]
  | framed {o c : Token} {k k' : Keyword} {ts : List Token} {st : Stmt} {body : List Stmt} (ho : o.kind = .keyword k)
      (hc : c.kind = .keyword k') (hf : st.Frames k k' body) (hs : st.span.start = o.span.start)
      (h : Nests .body ts body) : Nests .body (o :: (ts ++ [c])) [st]
  | loop {o c : Token} {ts : List Token} {target iter : Expr} {body : List Stmt} {test : Option Expr} {span : Span}
      (ho : o.kind = .keyword .forTag) (hc : c.kind = .keyword .endFor) (hs : span.start = o.span.start)
      (h : Nests .body ts body) : Nests .body (o :: (ts ++ [c])) [.loop target iter body [] test span]
  | loopElse {o e c : Token} {ts us : List Token} {target iter : Expr} {body elseBody : List Stmt}
      {test : Option Expr} {span : Span} (ho : o.kind = .keyword .forTag) (he : e.kind = .keyword .elseTag)
      (hc : c.kind = .keyword .endFor) (hs : span.start = o.span.start) (h : Nests .body ts body)
      (h' : Nests .body us elseBody) :
      Nests .body (o :: (ts ++ e :: (us ++ [c]))) [.loop target iter body elseBody test span]
  | conditional {o c : Token} {ts us : List Token} {test : Expr} {body elseBody : List Stmt} {span : Span}
      (ho : o.kind = .keyword .ifTag) (hc : c.kind = .keyword .endIf) (hs : span.start = o.span.start)
      (h : Nests .body ts body) (hb : Nests .branches us elseBody) :
      Nests .body (o :: (ts ++ (us ++ [c]))) [.branch test body elseBody span]
  | noBranch : Nests .branches [] []
  | elseBranch {e : Token} {ts : List Token} {ss : List Stmt} (he : e.kind = .keyword .elseTag)
      (h : Nests .body ts ss) : Nests .branches (e :: ts) ss
  /-- A further branch is a conditional in the else body of the one before it. -/
  | elifBranch {o : Token} {ts us : List Token} {test : Expr} {body elseBody : List Stmt} {span : Span}
      (ho : o.kind = .keyword .elifTag) (hs : span.start = o.span.start) (h : Nests .body ts body)
      (hb : Nests .branches us elseBody) : Nests .branches (o :: (ts ++ us)) [.branch test body elseBody span]

/-- The tags that statements come from are properly nested. -/
theorem Nests.wellNested {p : Part} {ts : List Token} {ss : List Stmt} (h : Nests p ts ss) :
    WellNested p (ts.map Token.kind) := by
  induction h with
  | nil | output => exact .nil
  | append _ _ ih ih' =>
    rw [List.map_append]
    exact .append ih ih'
  | plain ht _ => exact .plain ht
  | framed ho hc hf _ _ ih =>
    simp only [List.map_cons, List.map_append, List.map_nil, ho, hc]
    exact .framed hf.keywords ih
  | loop ho hc _ _ ih =>
    simp only [List.map_cons, List.map_append, List.map_nil, ho, hc]
    exact .loop ih
  | loopElse ho he hc _ _ _ ih ih' =>
    simp only [List.map_cons, List.map_append, List.map_nil, ho, he, hc]
    exact .loopElse ih ih'
  | conditional ho hc _ _ _ ih ihb =>
    simp only [List.map_cons, List.map_append, List.map_nil, ho, hc]
    exact .conditional ih ihb
  | noBranch => exact .noBranch
  | elseBranch he _ ih =>
    rw [List.map_cons, he]
    exact .elseBranch ih
  | elifBranch ho _ _ _ ih ihb =>
    rw [List.map_cons, List.map_append, ho]
    exact .elifBranch ih ihb

end Stencil
