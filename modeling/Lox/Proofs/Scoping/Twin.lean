import Mathlib.Data.List.Forall2
import Lox.Proofs.Scoping.Renaming

/-!
# Twins

Two pieces of code are twins if they differ in the names of local bindings only, each
scope having its own renaming, and if what is known of each reference is the depth that
the scopes around it give. A link says which identities and lines correspond. The
judgement holds the code to the scopes: every variable read is defined where it is found,
`super` has `this` just inside it, and a branch declares nothing. Each piece of code that
scoping accepts is a twin of itself.
-/

set_option autoImplicit false

namespace Lox

/-- Whether the statement stands where a declaration cannot. -/
def Stmt.plain : Stmt → Bool
  | .var .. | .function _ | .class .. => false
  | _ => true

/-- The name of the function or the class that the statement declares. -/
def Stmt.routine? : Stmt → Option String
  | .function f => some f.name.lexeme
  | .class x _ _ => some x.lexeme
  | _ => none

end Lox

namespace Lox.Scoping

/-- A part of a program. -/
inductive Code where
  | expr (e : Expr)
  | exprs (es : List Expr)
  | stmt (s : Stmt)
  | stmts (ss : List Stmt)
  | function (f : Function)
  | functions (fs : List Function)

/-- The scopes behind a declaration of the name. -/
def binding (fs : Frames) (name : String) : Frames := define (declare fs name) name

/-- The scopes behind a statement. -/
def after (fs : Frames) : Stmt → Frames
  | .var x _ => binding fs x.lexeme
  | .function f => binding fs f.name.lexeme
  | .class x _ _ => binding fs x.lexeme
  | _ => fs

theorem after_plain {s : Stmt} (h : s.plain = true) (fs : Frames) : after fs s = fs := by
  cases s with
  | var | function | «class» => cases h
  | _ => rfl

theorem routine?_plain {s : Stmt} (h : s.plain = true) : s.routine? = none := by
  cases s with
  | var | function | «class» => cases h
  | _ => rfl

/-- What is known of the depths of references. -/
abbrev Known := Reference → Option Nat → Prop

/-- How twins may differ: what is known of the references of the first, which identities
and lines the second has for those of the first, and how a scope may rename its names. -/
structure Link where
  known : Known
  id : Nat → Nat → Prop
  line : Nat → Nat → Prop
  renames : Renaming → Prop
  keep : renames .keep

/-- The second has the identities and lines of the first. -/
def Link.same (known : Known) : Link :=
  ⟨known, fun i j => j = i, fun l l' => l' = l, fun _ => True, trivial⟩

/-- The second is the first. -/
def Link.exact (known : Known) : Link :=
  ⟨known, fun i j => j = i, fun l l' => l' = l, fun r => r = .keep, rfl⟩

/-- What the one link allows the other does, as far as references are known. -/
structure Link.Within (link link' : Link) : Prop where
  known (r : Reference) (d : Option Nat) : link.known r d → link'.known r d
  id (r : Reference) (d : Option Nat) (j : Nat) :
    link.known r d → link.id r.id j → link'.id r.id j
  line (l l' : Nat) : link.line l l' → link'.line l l'
  renames (r : Renaming) : link.renames r → link'.renames r

theorem Link.Within.refl (link : Link) : link.Within link :=
  ⟨fun _ _ h => h, fun _ _ _ _ h => h, fun _ _ h => h, fun _ h => h⟩

theorem Link.Within.exact {known known' : Known} (h : ∀ r d, known r d → known' r d) :
    (Link.exact known).Within (.exact known') :=
  ⟨h, fun _ _ _ _ h => h, fun _ _ h => h, fun _ h => h⟩

theorem Link.Within.exact_same (known : Known) : (Link.exact known).Within (.same known) :=
  ⟨fun _ _ h => h, fun _ _ _ _ h => h, fun _ _ h => h, fun _ _ => trivial⟩

/-- Tokens of one kind, the second of them with the name given. -/
structure NameTwin (link : Link) (name : String) (t t' : Token) : Prop where
  kind : t'.kind = t.kind
  lexeme : t'.lexeme = name
  line : link.line t.line t'.line

/-- Tokens that only their lines tell apart. -/
abbrev TokenTwin (link : Link) (t t' : Token) : Prop := NameTwin link t.lexeme t t'

theorem NameTwin.refl {link : Link} {t : Token} (h : link.line t.line t.line) : TokenTwin link t t :=
  ⟨rfl, rfl, h⟩

theorem NameTwin.mono {link link' : Link} (h : link.Within link') {name : String} {t t' : Token}
    (ht : NameTwin link name t t') : NameTwin link' name t t' :=
  { ht with line := h.line _ _ ht.line }

/-- Whether a name that some scope binds is defined in the nearest one. -/
def Defined (fs : Frames) (name : String) : Prop :=
  ∀ d, depth? fs name = some d → ∃ f, fs[d]? = some f ∧ f.lookup name = some true

/-- Whether the scope of `this` is just inside the one of `super`. -/
def SuperInside (fs : Frames) : Prop :=
  ∀ d, depth? fs "super" = some d → ∃ d' f, d = d' + 1 ∧ fs[d']? = some f ∧
    f.lookup "this" = some true

structure RefTwin (link : Link) (rs : List Renaming) (fs : Frames) (r r' : Reference) :
    Prop where
  id : link.id r.id r'.id
  name : NameTwin link (newName rs fs r.name.lexeme) r.name r'.name
  depth : depth? (renamed rs fs) r'.name.lexeme = depth? fs r.name.lexeme
  known : link.known r (depth? fs r.name.lexeme)

theorem RefTwin.mono {link link' : Link} (h : link.Within link') {rs : List Renaming} {fs : Frames}
    {r r' : Reference} (hr : RefTwin link rs fs r r') : RefTwin link' rs fs r r' :=
  { hr with id := h.id _ _ _ hr.known hr.id, name := hr.name.mono h, known := h.known _ _ hr.known }

/-- The names under which a function takes its arguments. -/
def ParamsTwin (link : Link) (r : Renaming) (ps ps' : List Token) : Prop :=
  List.Forall₂ (fun p p' => NameTwin link (r p.lexeme) p p') ps ps'

inductive Twin (link : Link) : List Renaming → Frames → Code → Code → Prop
  | literal {rs : List Renaming} {fs : Frames} {v : Literal} :
      Twin link rs fs (.expr (.literal v)) (.expr (.literal v))
  | grouping {rs : List Renaming} {fs : Frames} {e e' : Expr}
      (he : Twin link rs fs (.expr e) (.expr e')) :
      Twin link rs fs (.expr (.grouping e)) (.expr (.grouping e'))
  | unary {rs : List Renaming} {fs : Frames} {op op' : Token} {e e' : Expr}
      (ho : TokenTwin link op op') (he : Twin link rs fs (.expr e) (.expr e')) :
      Twin link rs fs (.expr (.unary op e)) (.expr (.unary op' e'))
  | binary {rs : List Renaming} {fs : Frames} {op op' : Token} {l l' r r' : Expr}
      (ho : TokenTwin link op op') (hl : Twin link rs fs (.expr l) (.expr l'))
      (hr : Twin link rs fs (.expr r) (.expr r')) :
      Twin link rs fs (.expr (.binary l op r)) (.expr (.binary l' op' r'))
  | logical {rs : List Renaming} {fs : Frames} {op op' : Token} {l l' r r' : Expr}
      (ho : TokenTwin link op op') (hl : Twin link rs fs (.expr l) (.expr l'))
      (hr : Twin link rs fs (.expr r) (.expr r')) :
      Twin link rs fs (.expr (.logical l op r)) (.expr (.logical l' op' r'))
  | var {rs : List Renaming} {fs : Frames} {r r' : Reference} (hr : RefTwin link rs fs r r')
      (hd : Defined fs r.name.lexeme) : Twin link rs fs (.expr (.var r)) (.expr (.var r'))
  | assign {rs : List Renaming} {fs : Frames} {r r' : Reference} {e e' : Expr}
      (hr : RefTwin link rs fs r r') (he : Twin link rs fs (.expr e) (.expr e')) :
      Twin link rs fs (.expr (.assign r e)) (.expr (.assign r' e'))
  | call {rs : List Renaming} {fs : Frames} {f f' : Expr} {paren paren' : Token}
      {es es' : List Expr} (hp : TokenTwin link paren paren')
      (hf : Twin link rs fs (.expr f) (.expr f')) (hes : Twin link rs fs (.exprs es) (.exprs es')) :
      Twin link rs fs (.expr (.call f paren es)) (.expr (.call f' paren' es'))
  | get {rs : List Renaming} {fs : Frames} {e e' : Expr} {name name' : Token}
      (hn : TokenTwin link name name') (he : Twin link rs fs (.expr e) (.expr e')) :
      Twin link rs fs (.expr (.get e name)) (.expr (.get e' name'))
  | set {rs : List Renaming} {fs : Frames} {e e' v v' : Expr} {name name' : Token}
      (hn : TokenTwin link name name') (he : Twin link rs fs (.expr e) (.expr e'))
      (hv : Twin link rs fs (.expr v) (.expr v')) :
      Twin link rs fs (.expr (.set e name v)) (.expr (.set e' name' v'))
  | this {rs : List Renaming} {fs : Frames} {r r' : Reference} (hr : RefTwin link rs fs r r')
      (hd : Defined fs r.name.lexeme) : Twin link rs fs (.expr (.this r)) (.expr (.this r'))
  | super {rs : List Renaming} {fs : Frames} {r r' : Reference} {method method' : Token}
      (hr : RefTwin link rs fs r r') (hn : r.name.lexeme = "super") (hd : Defined fs "super")
      (hs : SuperInside fs) (hm : TokenTwin link method method') :
      Twin link rs fs (.expr (.super r method)) (.expr (.super r' method'))
  | noExprs {rs : List Renaming} {fs : Frames} : Twin link rs fs (.exprs []) (.exprs [])
  | moreExprs {rs : List Renaming} {fs : Frames} {e e' : Expr} {es es' : List Expr}
      (he : Twin link rs fs (.expr e) (.expr e')) (hes : Twin link rs fs (.exprs es) (.exprs es')) :
      Twin link rs fs (.exprs (e :: es)) (.exprs (e' :: es'))
  | expression {rs : List Renaming} {fs : Frames} {e e' : Expr}
      (he : Twin link rs fs (.expr e) (.expr e')) :
      Twin link rs fs (.stmt (.expression e)) (.stmt (.expression e'))
  | print {rs : List Renaming} {fs : Frames} {e e' : Expr}
      (he : Twin link rs fs (.expr e) (.expr e')) :
      Twin link rs fs (.stmt (.print e)) (.stmt (.print e'))
  | bareVar {rs : List Renaming} {fs : Frames} {x x' : Token}
      (hx : NameTwin link (ownName rs x.lexeme) x x') :
      Twin link rs fs (.stmt (.var x none)) (.stmt (.var x' none))
  | varWith {rs : List Renaming} {fs : Frames} {x x' : Token} {e e' : Expr}
      (hx : NameTwin link (ownName rs x.lexeme) x x')
      (he : Twin link rs (declare fs x.lexeme) (.expr e) (.expr e')) :
      Twin link rs fs (.stmt (.var x (some e))) (.stmt (.var x' (some e')))
  | block {rs : List Renaming} {fs : Frames} {ss ss' : List Stmt} {r : Renaming}
      (hr : link.renames r) (hs : Twin link (r :: rs) ([] :: fs) (.stmts ss) (.stmts ss')) :
      Twin link rs fs (.stmt (.block ss)) (.stmt (.block ss'))
  | ifThen {rs : List Renaming} {fs : Frames} {e e' : Expr} {yes yes' : Stmt}
      (he : Twin link rs fs (.expr e) (.expr e')) (hy : Twin link rs fs (.stmt yes) (.stmt yes'))
      (hp : yes.plain = true) :
      Twin link rs fs (.stmt (.if e yes none)) (.stmt (.if e' yes' none))
  | ifElse {rs : List Renaming} {fs : Frames} {e e' : Expr} {yes yes' no no' : Stmt}
      (he : Twin link rs fs (.expr e) (.expr e')) (hy : Twin link rs fs (.stmt yes) (.stmt yes'))
      (hp : yes.plain = true) (hn : Twin link rs fs (.stmt no) (.stmt no'))
      (hq : no.plain = true) :
      Twin link rs fs (.stmt (.if e yes (some no))) (.stmt (.if e' yes' (some no')))
  | while {rs : List Renaming} {fs : Frames} {e e' : Expr} {body body' : Stmt}
      (he : Twin link rs fs (.expr e) (.expr e'))
      (hb : Twin link rs fs (.stmt body) (.stmt body')) (hp : body.plain = true) :
      Twin link rs fs (.stmt (.while e body)) (.stmt (.while e' body'))
  | declared {rs : List Renaming} {fs : Frames} {f f' : Function}
      (hn : ownName rs f.name.lexeme = f.name.lexeme)
      (hf : Twin link rs (binding fs f.name.lexeme) (.function f) (.function f')) :
      Twin link rs fs (.stmt (.function f)) (.stmt (.function f'))
  | bareReturn {rs : List Renaming} {fs : Frames} {t t' : Token} (ht : TokenTwin link t t') :
      Twin link rs fs (.stmt (.return t none)) (.stmt (.return t' none))
  | returnWith {rs : List Renaming} {fs : Frames} {t t' : Token} {e e' : Expr}
      (ht : TokenTwin link t t') (he : Twin link rs fs (.expr e) (.expr e')) :
      Twin link rs fs (.stmt (.return t (some e))) (.stmt (.return t' (some e')))
  | rootClass {rs : List Renaming} {fs : Frames} {x x' : Token} {ms ms' : List Function}
      (hn : ownName rs x.lexeme = x.lexeme) (hx : TokenTwin link x x')
      (hm : Twin link (.keep :: rs) ([("this", true)] :: binding fs x.lexeme)
        (.functions ms) (.functions ms')) :
      Twin link rs fs (.stmt (.class x none ms)) (.stmt (.class x' none ms'))
  | subclass {rs : List Renaming} {fs : Frames} {x x' : Token} {r r' : Reference}
      {ms ms' : List Function} (hn : ownName rs x.lexeme = x.lexeme) (hx : TokenTwin link x x')
      (hr : RefTwin link rs fs r r') (hd : Defined fs r.name.lexeme)
      (hne : r.name.lexeme ≠ x.lexeme) (hne' : r'.name.lexeme ≠ x.lexeme)
      (hm : Twin link (.keep :: .keep :: rs)
        ([("this", true)] :: [("super", true)] :: binding fs x.lexeme)
        (.functions ms) (.functions ms')) :
      Twin link rs fs (.stmt (.class x (some r) ms)) (.stmt (.class x' (some r') ms'))
  | noStmts {rs : List Renaming} {fs : Frames} : Twin link rs fs (.stmts []) (.stmts [])
  | moreStmts {rs : List Renaming} {fs : Frames} {s s' : Stmt} {ss ss' : List Stmt}
      (hs : Twin link rs fs (.stmt s) (.stmt s'))
      (hss : Twin link rs (after fs s) (.stmts ss) (.stmts ss')) :
      Twin link rs fs (.stmts (s :: ss)) (.stmts (s' :: ss'))
  | function {rs : List Renaming} {fs : Frames} {x x' : Token} {ps ps' : List Token}
      {ss ss' : List Stmt} {r : Renaming} (hr : link.renames r) (hx : TokenTwin link x x')
      (hp : ParamsTwin link r ps ps')
      (hs : Twin link (r :: rs) (parameters ([] :: fs) ps).1 (.stmts ss) (.stmts ss')) :
      Twin link rs fs (.function (.mk x ps ss)) (.function (.mk x' ps' ss'))
  | noFunctions {rs : List Renaming} {fs : Frames} :
      Twin link rs fs (.functions []) (.functions [])
  | moreFunctions {rs : List Renaming} {fs : Frames} {f f' : Function} {gs gs' : List Function}
      (hf : Twin link rs fs (.function f) (.function f'))
      (hgs : Twin link rs fs (.functions gs) (.functions gs')) :
      Twin link rs fs (.functions (f :: gs)) (.functions (f' :: gs'))

/-- A link may allow more. -/
theorem Twin.mono {link link' : Link} (h : link.Within link') {rs : List Renaming} {fs : Frames}
    {c c' : Code} (hc : Twin link rs fs c c') : Twin link' rs fs c c' := by
  induction hc with
  | literal => exact .literal
  | grouping _ he => exact .grouping he
  | unary ho _ he => exact .unary (ho.mono h) he
  | binary ho _ _ hl hr => exact .binary (ho.mono h) hl hr
  | logical ho _ _ hl hr => exact .logical (ho.mono h) hl hr
  | var hr hd => exact .var (hr.mono h) hd
  | assign hr _ he => exact .assign (hr.mono h) he
  | call hp _ _ hf hes => exact .call (hp.mono h) hf hes
  | get hn _ he => exact .get (hn.mono h) he
  | set hn _ _ he hv => exact .set (hn.mono h) he hv
  | this hr hd => exact .this (hr.mono h) hd
  | super hr hn hd hs hm => exact .super (hr.mono h) hn hd hs (hm.mono h)
  | noExprs => exact .noExprs
  | moreExprs _ _ he hes => exact .moreExprs he hes
  | expression _ he => exact .expression he
  | print _ he => exact .print he
  | bareVar hx => exact .bareVar (hx.mono h)
  | varWith hx _ he => exact .varWith (hx.mono h) he
  | block hr _ hs => exact .block (h.renames _ hr) hs
  | ifThen _ _ hp he hy => exact .ifThen he hy hp
  | ifElse _ _ hp _ hq he hy hn => exact .ifElse he hy hp hn hq
  | «while» _ _ hp he hb => exact .while he hb hp
  | declared hn _ hf => exact .declared hn hf
  | bareReturn ht => exact .bareReturn (ht.mono h)
  | returnWith ht _ he => exact .returnWith (ht.mono h) he
  | rootClass hn hx _ hm => exact .rootClass hn (hx.mono h) hm
  | subclass hn hx hr hd hne hne' _ hm => exact .subclass hn (hx.mono h) (hr.mono h) hd hne hne' hm
  | noStmts => exact .noStmts
  | moreStmts _ _ hs hss => exact .moreStmts hs hss
  | function hr hx hp _ hs =>
    exact .function (h.renames _ hr) (hx.mono h) (hp.imp fun _ _ hp => hp.mono h) hs
  | noFunctions => exact .noFunctions
  | moreFunctions _ _ hf hgs => exact .moreFunctions hf hgs

/-- What the outside sees of a function. -/
theorem Twin.outline {link : Link} {rs : List Renaming} {fs : Frames} {f f' : Function}
    (h : Twin link rs fs (.function f) (.function f')) :
    TokenTwin link f.name f'.name ∧ f'.params.length = f.params.length := by
  cases h with
  | function hr hx hp hs => exact ⟨hx, hp.length_eq.symm⟩

end Lox.Scoping
