import Lox.Proofs.Grammar.Derivation

/-!
# The dangling else

Whatever the ambiguous grammar derives, the one that attaches each `else` to the nearest
`if` derives too, with another tree. An `else` behind a dangling statement moves inwards
to the `if` that has none.
-/

set_option autoImplicit false

namespace Lox.Grammar

variable {n m k : Nat} {ts us vs : List Token} {ds es : List Diagnostic}

/-- A dangling statement takes the `else` behind it. -/
theorem Derives.attach {s no : Stmt} {d : Bool} {l : Token}
    (h : Derives Complete (.statement true s) ts n m ds) (hl : l.kind = .word .else)
    (hno : Derives Complete (.statement d no) vs m k es) :
    ∃ d' s', Derives Complete (.statement d' s') (ts ++ l :: vs) n k (ds ++ es) := by
  generalize hp : Phrase.statement true s = p at h
  induction h generalizing s with
  | @ifThen w o c e yes t ts us _ _ _ _ _ hw ho he hc hy _ ih =>
    cases hp
    cases t with
    | false =>
      have h := Derives.ifElse hw ho he hc hy rfl hl hno
      exact ⟨_, _, by simpa using h⟩
    | true =>
      obtain ⟨t, yes, hy⟩ := ih hno rfl
      have h := Derives.ifThen hw ho he hc hy
      exact ⟨_, _, by simpa using h⟩
  | ifElse hw ho he hc hy hb hl' hn _ _ ih =>
    cases hp
    obtain ⟨t, no, hn⟩ := ih hno rfl
    have h := Derives.ifElse hw ho he hc hy hb hl' hn
    exact ⟨_, _, by simpa using h⟩
  | whileDo hw ho he hc hb _ ih =>
    cases hp
    obtain ⟨t, body, hb⟩ := ih hno rfl
    have h := Derives.whileDo hw ho he hc hb
    exact ⟨_, _, by simpa using h⟩
  | forDo hw ho hi he hs hn hc hb _ _ _ ih =>
    cases hp
    obtain ⟨t, body, hb⟩ := ih hno rfl
    have h := Derives.forDo hw ho hi he hs hn hc hb
    exact ⟨_, _, by simpa using h⟩
  | _ => cases hp

/-- The tokens derive a phrase of the same sort with each `else` at the nearest `if`. -/
def Phrase.Derivable : Phrase → List Token → Nat → Nat → List Diagnostic → Prop
  | .statement _ _, ts, n, k, ds => ∃ d s, Derives Complete (.statement d s) ts n k ds
  | .declaration _, ts, n, k, ds => ∃ s, Derives Complete (.declaration s) ts n k ds
  | .declarations _, ts, n, k, ds => ∃ ss, Derives Complete (.declarations ss) ts n k ds
  | .function _, ts, n, k, ds => ∃ f, Derives Complete (.function f) ts n k ds
  | .functions _, ts, n, k, ds => ∃ fs, Derives Complete (.functions fs) ts n k ds
  | p, ts, n, k, ds => Derives Complete p ts n k ds

theorem Derives.derivable {p : Phrase} (h : Derives Anything p ts n k ds) :
    p.Derivable ts n k ds := by
  induction h with
  | literal ht => exact .literal ht
  | this ht => exact .this ht
  | var ht => exact .var ht
  | super ht hd hx => exact .super ht hd hx
  | grouping ho _ hc he => exact .grouping ho he hc
  | call _ _ hp hs => exact .call hp hs
  | noSuffix => exact .noSuffix
  | emptyCall ho hc _ hs => exact .emptyCall ho hc hs
  | argumentCall ho _ hc _ ha hs => exact .argumentCall ho ha hc hs
  | property hd hx _ hs => exact .property hd hx hs
  | argument _ he => exact .argument he
  | moreArguments _ hc _ he ha => exact .moreArguments he hc ha
  | operator ho _ he => exact .operator ho he
  | noOperator _ he => exact .noOperator he
  | chain _ _ hl ho => exact .chain hl ho
  | noOperand => exact .noOperand
  | operand ho _ _ hr hs => exact .operand ho hr hs
  | noAssignment _ he => exact .noAssignment he
  | assignVar hx hq _ hv => exact .assignVar hx hq hv
  | assignProperty _ hd hx hq _ ho hv => exact .assignProperty ho hd hx hq hv
  | invalidTarget _ ha hq _ he hv => exact .invalidTarget he ha hq hv
  | noExpression => exact .noExpression
  | someExpression _ he => exact .someExpression he
  | expression _ hs he => exact ⟨_, _, .expression he hs⟩
  | print hw _ hs he => exact ⟨_, _, .print hw he hs⟩
  | returns hw _ hs he => exact ⟨_, _, .returns hw he hs⟩
  | block ho _ hc hs =>
    obtain ⟨ss, hs⟩ := hs
    exact ⟨_, _, .block ho hs hc⟩
  | ifThen hw ho _ hc _ he hy =>
    obtain ⟨d, yes, hy⟩ := hy
    exact ⟨_, _, .ifThen hw ho he hc hy⟩
  | ifElse hw ho _ hc _ _ hl _ he hy hn =>
    obtain ⟨d, yes, hy⟩ := hy
    obtain ⟨d', no, hn⟩ := hn
    cases d with
    | false => exact ⟨_, _, .ifElse hw ho he hc hy rfl hl hn⟩
    | true =>
      obtain ⟨d, yes, hy⟩ := hy.attach hl hn
      have h := Derives.ifThen hw ho he hc hy
      exact ⟨_, _, by simpa using h⟩
  | whileDo hw ho _ hc _ he hb =>
    obtain ⟨d, body, hb⟩ := hb
    exact ⟨_, _, .whileDo hw ho he hc hb⟩
  | forDo hw ho _ _ hs _ hc _ hi he hn hb =>
    obtain ⟨d, body, hb⟩ := hb
    exact ⟨_, _, .forDo hw ho hi he hs hn hc hb⟩
  | noInitializer hs => exact .noInitializer hs
  | variableInitializer _ hs => exact .variableInitializer hs
  | expressionInitializer _ hs he => exact .expressionInitializer he hs
  | bareVariable hw hx hs => exact .bareVariable hw hx hs
  | initialized hw hx hq _ hs he => exact .initialized hw hx hq he hs
  | declaredStatement _ hs =>
    obtain ⟨d, s, hs⟩ := hs
    exact ⟨_, .declaredStatement hs⟩
  | declaredVariable _ hs => exact ⟨_, .declaredVariable hs⟩
  | declaredFunction hw _ hf =>
    obtain ⟨f, hf⟩ := hf
    exact ⟨_, .declaredFunction hw hf⟩
  | declaredClass hw hx _ ho _ hc hr hf =>
    obtain ⟨fs, hf⟩ := hf
    exact ⟨_, .declaredClass hw hx hr ho hf hc⟩
  | noDeclaration => exact ⟨_, .noDeclaration⟩
  | moreDeclarations _ _ hs hss =>
    obtain ⟨s, hs⟩ := hs
    obtain ⟨ss, hss⟩ := hss
    exact ⟨_, .moreDeclarations hs hss⟩
  | noSuperclass => exact .noSuperclass
  | someSuperclass hl hx => exact .someSuperclass hl hx
  | function hx ho _ hc hb _ hd hp hs =>
    obtain ⟨body, hs⟩ := hs
    exact ⟨_, .function hx ho hp hc hb hs hd⟩
  | noFunction => exact ⟨_, .noFunction⟩
  | moreFunctions _ _ hf hfs =>
    obtain ⟨f, hf⟩ := hf
    obtain ⟨fs, hfs⟩ := hfs
    exact ⟨_, .moreFunctions hf hfs⟩
  | noParameter => exact .noParameter
  | someParameter _ hp => exact .someParameter hp
  | parameter hp => exact .parameter hp
  | moreParameters hp hc _ hs => exact .moreParameters hp hc hs

/-- The ambiguous grammar derives no less. -/
theorem Derives.anything {p : Phrase} (h : Derives Complete p ts n k ds) :
    Derives Anything p ts n k ds := by
  induction h with
  | literal ht => exact .literal ht
  | this ht => exact .this ht
  | var ht => exact .var ht
  | super ht hd hx => exact .super ht hd hx
  | grouping ho _ hc he => exact .grouping ho he hc
  | call _ _ hp hs => exact .call hp hs
  | noSuffix => exact .noSuffix
  | emptyCall ho hc _ hs => exact .emptyCall ho hc hs
  | argumentCall ho _ hc _ ha hs => exact .argumentCall ho ha hc hs
  | property hd hx _ hs => exact .property hd hx hs
  | argument _ he => exact .argument he
  | moreArguments _ hc _ he ha => exact .moreArguments he hc ha
  | operator ho _ he => exact .operator ho he
  | noOperator _ he => exact .noOperator he
  | chain _ _ hl ho => exact .chain hl ho
  | noOperand => exact .noOperand
  | operand ho _ _ hr hs => exact .operand ho hr hs
  | noAssignment _ he => exact .noAssignment he
  | assignVar hx hq _ hv => exact .assignVar hx hq hv
  | assignProperty _ hd hx hq _ ho hv => exact .assignProperty ho hd hx hq hv
  | invalidTarget _ ha hq _ he hv => exact .invalidTarget he ha hq hv
  | noExpression => exact .noExpression
  | someExpression _ he => exact .someExpression he
  | expression _ hs he => exact .expression he hs
  | print hw _ hs he => exact .print hw he hs
  | returns hw _ hs he => exact .returns hw he hs
  | block ho _ hc hs => exact .block ho hs hc
  | ifThen hw ho _ hc _ he hy => exact .ifThen hw ho he hc hy
  | ifElse hw ho _ hc _ _ hl _ he hy hn => exact .ifElse hw ho he hc hy trivial hl hn
  | whileDo hw ho _ hc _ he hb => exact .whileDo hw ho he hc hb
  | forDo hw ho _ _ hs _ hc _ hi he hn hb => exact .forDo hw ho hi he hs hn hc hb
  | noInitializer hs => exact .noInitializer hs
  | variableInitializer _ hs => exact .variableInitializer hs
  | expressionInitializer _ hs he => exact .expressionInitializer he hs
  | bareVariable hw hx hs => exact .bareVariable hw hx hs
  | initialized hw hx hq _ hs he => exact .initialized hw hx hq he hs
  | declaredStatement _ hs => exact .declaredStatement hs
  | declaredVariable _ hs => exact .declaredVariable hs
  | declaredFunction hw _ hf => exact .declaredFunction hw hf
  | declaredClass hw hx _ ho _ hc hr hf => exact .declaredClass hw hx hr ho hf hc
  | noDeclaration => exact .noDeclaration
  | moreDeclarations _ _ hs hss => exact .moreDeclarations hs hss
  | noSuperclass => exact .noSuperclass
  | someSuperclass hl hx => exact .someSuperclass hl hx
  | function hx ho _ hc hb _ hd hp hs => exact .function hx ho hp hc hb hs hd
  | noFunction => exact .noFunction
  | moreFunctions _ _ hf hfs => exact .moreFunctions hf hfs
  | noParameter => exact .noParameter
  | someParameter _ hp => exact .someParameter hp
  | parameter hp => exact .parameter hp
  | moreParameters hp hc _ hs => exact .moreParameters hp hc hs

end Lox.Grammar
