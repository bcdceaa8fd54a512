import Lox.Proofs.Scoping.Formed

/-!
# Identities of references

No two references of a tree have the same identity, and all identities are from the
range that the derivation takes.
-/

set_option autoImplicit false

namespace Lox.Grammar

/-- The references have different identities from `n` on and below `k`. -/
structure Ranged (n k : Nat) (rs : List Reference) : Prop where
  le : n ≤ k
  nodup : (rs.map (·.id)).Nodup
  mem : ∀ r ∈ rs, n ≤ r.id ∧ r.id < k

namespace Ranged

variable {n m k : Nat} {rs us : List Reference}

theorem nil (h : n ≤ k) : Ranged n k [] := ⟨h, .nil, nofun⟩

theorem single (n : Nat) (t : Token) : Ranged n (n + 1) [⟨n, t⟩] :=
  ⟨Nat.le_succ n, by simp, by simp⟩

theorem append (h : Ranged n m rs) (h' : Ranged m k us) : Ranged n k (rs ++ us) where
  le := Nat.le_trans h.le h'.le
  nodup := by
    rw [List.map_append, List.nodup_append]
    apply And.intro h.nodup
    apply And.intro h'.nodup
    intro i hi j hj
    obtain ⟨r, hr, rfl⟩ := List.mem_map.1 hi
    obtain ⟨u, hu, rfl⟩ := List.mem_map.1 hj
    have hlt := (h.mem r hr).2
    have hge := (h'.mem u hu).1
    omega
  mem r hr := by
    have hnm := h.le
    have hmk := h'.le
    rcases List.mem_append.1 hr with hr | hr
    · have := h.mem r hr
      omega
    · have := h'.mem r hr
      omega

/-- The order of the references does not matter. -/
theorem perm (h : Ranged n k rs) (hp : rs.Perm us) : Ranged n k us where
  le := h.le
  nodup := (hp.map _).nodup_iff.1 h.nodup
  mem r hr := h.mem r (hp.mem_iff.2 hr)

theorem prepend (h : Ranged n m rs) (h' : Ranged m k us) : Ranged n k (us ++ rs) :=
  (h.append h').perm List.perm_append_comm

theorem extend (h : Ranged n m rs) (hk : m ≤ k) : Ranged n k rs := by
  simpa using h.append (.nil hk)

end Ranged

def Phrase.Identified (n k : Nat) : Phrase → Prop
  | .expr _ e => Ranged n k e.references
  | .operands _ first e => ∀ j, Ranged j n first.references → Ranged j k e.references
  | .suffixes first e => ∀ j, Ranged j n first.references → Ranged j k e.references
  | .arguments _ es => Ranged n k (Expr.allReferences es)
  | .optional e => Ranged n k (optionReferences e)
  | .varDeclaration s => Ranged n k s.references
  | .initializer s => Ranged n k (Stmt.optionReferences s)
  | .statement _ s => Ranged n k s.references
  | .declaration s => Ranged n k s.references
  | .declarations ss => Ranged n k (Stmt.allReferences ss)
  | .superclass r => Ranged n k r.toList
  | .parameters _ _ => n ≤ k
  | .someParameters _ => n ≤ k
  | .function f => Ranged n k f.references
  | .functions fs => Ranged n k (Function.allReferences fs)

variable {before : Bool → Prop} {p : Phrase} {ts : List Token} {n k : Nat} {ds : List Diagnostic}

theorem references_join (c : Chain) (l : Expr) (op : Token) (r : Expr) :
    (c.join l op r).references = l.references ++ r.references := by
  cases c <;> rfl

theorem references_forLoop {i : Option Stmt} {condition increment : Option Expr} {body : Stmt} :
    ((Stmt.optionReferences i ++ optionReferences condition) ++
      (optionReferences increment ++ body.references)).Perm
      (forLoop i condition increment body).references := by
  have hcondition : (condition.getD (.literal (.bool true))).references =
      optionReferences condition := by
    cases condition <;> rfl
  unfold forLoop
  cases increment with
  | none =>
    cases i <;> simp [Stmt.references, Stmt.allReferences, Stmt.optionReferences,
      optionReferences, hcondition]
  | some e =>
    have hswap : (e.references ++ body.references).Perm (body.references ++ e.references) :=
      List.perm_append_comm
    cases i with
    | none =>
      simp only [Stmt.references, Stmt.allReferences, hcondition, Stmt.optionReferences,
        optionReferences, List.nil_append, List.append_nil]
      exact hswap.append_left _
    | some s =>
      simp only [Stmt.references, Stmt.allReferences, hcondition, Stmt.optionReferences,
        optionReferences, List.append_nil, List.append_assoc]
      exact (hswap.append_left _).append_left _

theorem Derives.identified (h : Derives before p ts n k ds) : p.Identified n k := by
  induction h with
  | literal ht => exact .nil (Nat.le_refl _)
  | this ht => exact .single _ _
  | var ht => exact .single _ _
  | super ht hd hx => exact .single _ _
  | grouping ho he hc ih => exact ih
  | call hp hs ihp ihs => exact ihs _ ihp
  | noSuffix => exact fun j hf => hf
  | emptyCall ho hc hs ih => exact fun j hf => ih j (hf.append (.nil (Nat.le_refl _)))
  | argumentCall ho ha hc hs iha ihs => exact fun j hf => ihs j (hf.append iha)
  | property hd hx hs ih => exact ih
  | argument he ih => exact ih.append (.nil (Nat.le_refl _))
  | moreArguments he hc ha ihe iha => exact ihe.append iha
  | operator ho he ih => exact ih
  | noOperator he ih => exact ih
  | chain hl ho ihl iho => exact iho _ ihl
  | noOperand => exact fun j hf => hf
  | operand ho hr hs ihr ihs =>
    intro j hf
    apply ihs
    rw [references_join]
    exact hf.append ihr
  | noAssignment he ih => exact ih
  | assignVar hx hq hv ih => exact (Ranged.nil (Nat.le_succ _)).append (ih.append (.single _ _))
  | assignProperty ho hd hx hq hv iho ihv => exact iho.prepend ihv
  | invalidTarget he ha hq hv ihe ihv => exact ihe.extend ihv.le
  | noExpression => exact .nil (Nat.le_refl _)
  | someExpression he ih => exact ih
  | expression he hs ih => exact ih
  | print hw he hs ih => exact ih
  | returns hw he hs ih => exact ih
  | block ho hs hc ih => exact ih
  | ifThen hw ho he hc hy ihe ihy => exact (ihe.append ihy).append (.nil (Nat.le_refl _))
  | ifElse hw ho he hc hy hb hl hn ihe ihy ihn => exact (ihe.append ihy).append ihn
  | whileDo hw ho he hc hb ihe ihb => exact ihe.append ihb
  | forDo hw ho hi he hs hn hc hb ihi ihe ihn ihb =>
    exact ((ihi.append ihe).append (ihn.append ihb)).perm references_forLoop
  | noInitializer hs => exact .nil (Nat.le_refl _)
  | variableInitializer hs ih => exact ih
  | expressionInitializer he hs ih => exact ih
  | bareVariable hw hx hs => exact .nil (Nat.le_refl _)
  | initialized hw hx hq he hs ih => exact ih
  | declaredStatement hs ih => exact ih
  | declaredVariable hs ih => exact ih
  | declaredFunction hw hf ih => exact ih
  | declaredClass hw hx hr ho hf hc ihr ihf => exact ihr.append ihf
  | noDeclaration => exact .nil (Nat.le_refl _)
  | moreDeclarations hs hss ihs ihss => exact ihs.append ihss
  | noSuperclass => exact .nil (Nat.le_refl _)
  | someSuperclass hl hx => exact .single _ _
  | function hx ho hp hc hb hs hd ihp ihs => exact (Ranged.nil ihp).append ihs
  | noFunction => exact .nil (Nat.le_refl _)
  | moreFunctions hf hfs ihf ihfs => exact ihf.append ihfs
  | noParameter => exact Nat.le_refl _
  | someParameter hp ih => exact ih
  | parameter hp => exact Nat.le_refl _
  | moreParameters hp hc hs ih => exact ih

end Lox.Grammar
