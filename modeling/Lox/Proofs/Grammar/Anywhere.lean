import Lox.Proofs.Grammar.Derivation

/-!
# Identities can be counted from anywhere

The references of a tree take the identities that are free where reading comes to them. What
the tokens derive depends on that only in the identities: from any other start they derive a
phrase of the same form.
-/

set_option autoImplicit false

namespace Lox.Grammar

/-- From wherever identities are counted, the tokens derive a phrase of this form without
violations. -/
def Anywhere {α : Type} (phrase : α → Phrase) (ts : List Token) : Prop :=
  ∀ n, ∃ a k, Derives Complete (phrase a) ts n k []

/-- The tokens derive a phrase of the same form from anywhere. What suffixes and operands
stand behind may be anything. -/
def Phrase.Anywhere : Phrase → List Token → Prop
  | .expr l _, ts => Grammar.Anywhere (.expr l) ts
  | .operands c _ _, ts => ∀ l, Grammar.Anywhere (.operands c l) ts
  | .suffixes _ _, ts => ∀ f, Grammar.Anywhere (.suffixes f) ts
  | .arguments count _, ts => Grammar.Anywhere (.arguments count) ts
  | .optional _, ts => Grammar.Anywhere .optional ts
  | .varDeclaration _, ts => Grammar.Anywhere .varDeclaration ts
  | .initializer _, ts => Grammar.Anywhere .initializer ts
  | .statement d _, ts => Grammar.Anywhere (.statement d) ts
  | .declaration _, ts => Grammar.Anywhere .declaration ts
  | .declarations _, ts => Grammar.Anywhere .declarations ts
  | .superclass _, ts => Grammar.Anywhere .superclass ts
  | .parameters count _, ts => Grammar.Anywhere (.parameters count) ts
  | .someParameters _, ts => Grammar.Anywhere .someParameters ts
  | .function _, ts => Grammar.Anywhere .function ts
  | .functions _, ts => Grammar.Anywhere .functions ts

theorem Derives.anywhere {p : Phrase} {ts : List Token} {n k : Nat} {ds : List Diagnostic}
    (h : Derives Complete p ts n k ds) (hds : ds = []) : p.Anywhere ts := by
  induction h with
  | literal ht => exact fun n => ⟨_, _, .literal ht⟩
  | this ht => exact fun n => ⟨_, _, .this ht⟩
  | var ht => exact fun n => ⟨_, _, .var ht⟩
  | super ht hd hx => exact fun n => ⟨_, _, .super ht hd hx⟩
  | grouping ho _ hc ih =>
    intro n
    obtain ⟨e, k, he⟩ := ih hds n
    exact ⟨_, _, .grouping ho he hc⟩
  | call _ _ ihp ihs =>
    obtain ⟨hds, hes⟩ := List.append_eq_nil_iff.1 hds
    intro n
    obtain ⟨p, m, hp⟩ := ihp hds n
    obtain ⟨e, k, hs⟩ := ihs hes p m
    exact ⟨_, _, .call hp hs⟩
  | noSuffix => exact fun f n => ⟨_, _, .noSuffix⟩
  | emptyCall ho hc _ ih =>
    intro f n
    obtain ⟨e, k, hs⟩ := ih hds _ n
    exact ⟨_, _, .emptyCall ho hc hs⟩
  | argumentCall ho _ hc _ iha ihs =>
    obtain ⟨hds, hes⟩ := List.append_eq_nil_iff.1 hds
    intro f n
    obtain ⟨args, m, ha⟩ := iha hds n
    obtain ⟨e, k, hs⟩ := ihs hes _ m
    exact ⟨_, _, .argumentCall ho ha hc hs⟩
  | property hd hx _ ih =>
    intro f n
    obtain ⟨e, k, hs⟩ := ih hds _ n
    exact ⟨_, _, .property hd hx hs⟩
  | @argument count _ ts _ _ ds _ ih =>
    obtain ⟨hbeyond, hds⟩ := List.append_eq_nil_iff.1 hds
    intro n
    obtain ⟨e, k, he⟩ := ih hds n
    have h : Derives Complete (.arguments count [e]) ts n k _ := .argument he
    rw [hbeyond] at h
    exact ⟨_, _, h⟩
  | @moreArguments count _ _ _ _ _ _ _ _ _ _ _ hc _ ihe iha =>
    obtain ⟨hds, hes⟩ := List.append_eq_nil_iff.1 hds
    obtain ⟨hbeyond, hds⟩ := List.append_eq_nil_iff.1 hds
    intro n
    obtain ⟨e, m, he⟩ := ihe hds n
    obtain ⟨args, k, ha⟩ := iha hes m
    have h : Derives Complete (.arguments count (e :: args)) _ n k _ := .moreArguments he hc ha
    rw [hbeyond] at h
    exact ⟨_, _, h⟩
  | operator ho _ ih =>
    intro n
    obtain ⟨e, k, he⟩ := ih hds n
    exact ⟨_, _, .operator ho he⟩
  | noOperator _ ih =>
    intro n
    obtain ⟨e, k, he⟩ := ih hds n
    exact ⟨_, _, .noOperator he⟩
  | chain _ _ ihl iho =>
    obtain ⟨hds, hes⟩ := List.append_eq_nil_iff.1 hds
    intro n
    obtain ⟨l, m, hl⟩ := ihl hds n
    obtain ⟨e, k, ho⟩ := iho hes l m
    exact ⟨_, _, .chain hl ho⟩
  | noOperand => exact fun l n => ⟨_, _, .noOperand⟩
  | operand ho _ _ ihr ihs =>
    obtain ⟨hds, hes⟩ := List.append_eq_nil_iff.1 hds
    intro l n
    obtain ⟨r, m, hr⟩ := ihr hds n
    obtain ⟨e, k, hs⟩ := ihs hes _ m
    exact ⟨_, _, .operand ho hr hs⟩
  | noAssignment _ ih =>
    intro n
    obtain ⟨e, k, he⟩ := ih hds n
    exact ⟨_, _, .noAssignment he⟩
  | assignVar hx hq _ ih =>
    intro n
    obtain ⟨v, k, hv⟩ := ih hds (n + 1)
    exact ⟨_, _, .assignVar hx hq hv⟩
  | assignProperty _ hd hx hq _ iho ihv =>
    obtain ⟨hds, hes⟩ := List.append_eq_nil_iff.1 hds
    intro n
    obtain ⟨o, m, ho⟩ := iho hds n
    obtain ⟨v, k, hv⟩ := ihv hes m
    exact ⟨_, _, .assignProperty ho hd hx hq hv⟩
  | invalidTarget => simp at hds
  | noExpression => exact fun n => ⟨_, _, .noExpression⟩
  | someExpression _ ih =>
    intro n
    obtain ⟨e, k, he⟩ := ih hds n
    exact ⟨_, _, .someExpression he⟩
  | expression _ hs ih =>
    intro n
    obtain ⟨e, k, he⟩ := ih hds n
    exact ⟨_, _, .expression he hs⟩
  | print hw _ hs ih =>
    intro n
    obtain ⟨e, k, he⟩ := ih hds n
    exact ⟨_, _, .print hw he hs⟩
  | returns hw _ hs ih =>
    intro n
    obtain ⟨e, k, he⟩ := ih hds n
    exact ⟨_, _, .returns hw he hs⟩
  | block ho _ hc ih =>
    intro n
    obtain ⟨ss, k, hss⟩ := ih hds n
    exact ⟨_, _, .block ho hss hc⟩
  | ifThen hw ho _ hc _ ihe ihy =>
    obtain ⟨hds, hes⟩ := List.append_eq_nil_iff.1 hds
    intro n
    obtain ⟨e, m, he⟩ := ihe hds n
    obtain ⟨yes, k, hy⟩ := ihy hes m
    exact ⟨_, _, .ifThen hw ho he hc hy⟩
  | ifElse hw ho _ hc _ hb hl _ ihe ihy ihn =>
    obtain ⟨hds, hfs⟩ := List.append_eq_nil_iff.1 hds
    obtain ⟨hds, hes⟩ := List.append_eq_nil_iff.1 hds
    intro n
    obtain ⟨e, m, he⟩ := ihe hds n
    obtain ⟨yes, j, hy⟩ := ihy hes m
    obtain ⟨no, k, hn⟩ := ihn hfs j
    exact ⟨_, _, .ifElse hw ho he hc hy hb hl hn⟩
  | whileDo hw ho _ hc _ ihe ihb =>
    obtain ⟨hds, hes⟩ := List.append_eq_nil_iff.1 hds
    intro n
    obtain ⟨e, m, he⟩ := ihe hds n
    obtain ⟨body, k, hb⟩ := ihb hes m
    exact ⟨_, _, .whileDo hw ho he hc hb⟩
  | forDo hw ho _ _ hs _ hc _ ihi ihe ihn ihb =>
    obtain ⟨hds, hgs⟩ := List.append_eq_nil_iff.1 hds
    obtain ⟨hds, hfs⟩ := List.append_eq_nil_iff.1 hds
    obtain ⟨hds, hes⟩ := List.append_eq_nil_iff.1 hds
    intro n
    obtain ⟨i, m, hi⟩ := ihi hds n
    obtain ⟨condition, j, he⟩ := ihe hes m
    obtain ⟨increment, l, hn⟩ := ihn hfs j
    obtain ⟨body, k, hb⟩ := ihb hgs l
    exact ⟨_, _, .forDo hw ho hi he hs hn hc hb⟩
  | noInitializer hs => exact fun n => ⟨_, _, .noInitializer hs⟩
  | variableInitializer _ ih =>
    intro n
    obtain ⟨s, k, hs⟩ := ih hds n
    exact ⟨_, _, .variableInitializer hs⟩
  | expressionInitializer _ hs ih =>
    intro n
    obtain ⟨e, k, he⟩ := ih hds n
    exact ⟨_, _, .expressionInitializer he hs⟩
  | bareVariable hw hx hs => exact fun n => ⟨_, _, .bareVariable hw hx hs⟩
  | initialized hw hx hq _ hs ih =>
    intro n
    obtain ⟨e, k, he⟩ := ih hds n
    exact ⟨_, _, .initialized hw hx hq he hs⟩
  | declaredStatement _ ih =>
    intro n
    obtain ⟨s, k, hs⟩ := ih hds n
    exact ⟨_, _, .declaredStatement hs⟩
  | declaredVariable _ ih =>
    intro n
    obtain ⟨s, k, hs⟩ := ih hds n
    exact ⟨_, _, .declaredVariable hs⟩
  | declaredFunction hw _ ih =>
    intro n
    obtain ⟨f, k, hf⟩ := ih hds n
    exact ⟨_, _, .declaredFunction hw hf⟩
  | declaredClass hw hx _ ho _ hc ihr ihf =>
    obtain ⟨hds, hes⟩ := List.append_eq_nil_iff.1 hds
    intro n
    obtain ⟨r, m, hr⟩ := ihr hds n
    obtain ⟨fs, k, hf⟩ := ihf hes m
    exact ⟨_, _, .declaredClass hw hx hr ho hf hc⟩
  | noDeclaration => exact fun n => ⟨_, _, .noDeclaration⟩
  | moreDeclarations _ _ ihs ihss =>
    obtain ⟨hds, hes⟩ := List.append_eq_nil_iff.1 hds
    intro n
    obtain ⟨s, m, hs⟩ := ihs hds n
    obtain ⟨ss, k, hss⟩ := ihss hes m
    exact ⟨_, _, .moreDeclarations hs hss⟩
  | noSuperclass => exact fun n => ⟨_, _, .noSuperclass⟩
  | someSuperclass hl hx => exact fun n => ⟨_, _, .someSuperclass hl hx⟩
  | function hx ho _ hc hb _ hd ihp ihs =>
    obtain ⟨hds, hes⟩ := List.append_eq_nil_iff.1 hds
    intro n
    obtain ⟨ps, m, hp⟩ := ihp hds n
    obtain ⟨ss, k, hss⟩ := ihs hes m
    exact ⟨_, _, .function hx ho hp hc hb hss hd⟩
  | noFunction => exact fun n => ⟨_, _, .noFunction⟩
  | moreFunctions _ _ ihf ihfs =>
    obtain ⟨hds, hes⟩ := List.append_eq_nil_iff.1 hds
    intro n
    obtain ⟨f, m, hf⟩ := ihf hds n
    obtain ⟨fs, k, hfs⟩ := ihfs hes m
    exact ⟨_, _, .moreFunctions hf hfs⟩
  | noParameter => exact fun n => ⟨_, _, .noParameter⟩
  | someParameter _ ih =>
    intro n
    obtain ⟨ps, k, hp⟩ := ih hds n
    exact ⟨_, _, .someParameter hp⟩
  | @parameter count p _ hp =>
    intro n
    have h : Derives Complete (.parameters count [p]) [p] n n _ := .parameter hp
    rw [hds] at h
    exact ⟨_, _, h⟩
  | @moreParameters count _ _ _ _ _ _ _ hp hc _ ih =>
    obtain ⟨hbeyond, hds⟩ := List.append_eq_nil_iff.1 hds
    intro n
    obtain ⟨ps, k, hs⟩ := ih hds n
    have h : Derives Complete (.parameters count (_ :: ps)) _ n k _ := .moreParameters hp hc hs
    rw [hbeyond] at h
    exact ⟨_, _, h⟩

end Lox.Grammar
