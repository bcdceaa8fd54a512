import Lox.Proofs.Frame.Evaluation

/-!
# What a call leaves alone

A call leaves alone what cannot be reached from its callee, its arguments or the global scope.
The scope of its parameters is made for it, so that on a sane machine nothing refers to it yet.
-/

set_option autoImplicit false

namespace Lox

variable {m m' : Machine} {vs : List Value}

/-- What is not reached from some values is apart. -/
theorem Machine.apart_unreached (h : ∀ code ∈ m.hosts, Simulation.Sealed code) (vs : List Value) :
    m.Apart (m.Unreached vs) where
  global hd := hd.2 .global
  outside {x y} hx hxy hy := by
    have hreached : m.Reaches vs x := by
      by_contra hnot
      exact hx ⟨hxy.has, hnot⟩
    exact hy.2 (hreached.step hxy)
  has hd := hd.1
  hosts := h

theorem Machine.apart_value {v : Value} (hv : v ∈ vs) : v.Apart (m.Unreached vs) :=
  fun _ hx hd => hd.2 (.value hv hx)

/-- The closure that a call of the value runs, if it runs one. -/
def Value.code? : Value → Option Closure
  | .function _ f => some f
  | .class c => c.initializer?
  | _ => none

theorem Value.arity?_of_code {f : Value} {code : Closure} (h : f.code? = some code) :
    f.arity? = some code.arity := by
  cases f with
  | function id g =>
    cases h
    rfl
  | «class» c =>
    have hi : c.initializer? = some code := h
    simp [arity?, Class.arity, hi]
  | _ => cases h

namespace Evaluation

open Run

/-- The callee comes to the value `f`, and the arguments to `vs` on machine `m'`. -/
inductive Calls (n scope : Nat) (callee : Expr) (es : List Expr) (m : Machine) (f : Value)
    (vs : List Value) (m' : Machine) : Prop
  | intro {m₁ : Machine} (hf : evaluate n scope callee m = .ok f m₁)
      (hvs : arguments (evaluate n scope) es m₁ = .ok vs m')

theorem checkArity_ok {f : Value} {vs : List Value} (hf : f.arity? = some vs.length)
    (paren : Token) (m : Machine) : checkArity f vs paren m = .ok () m := by
  unfold checkArity
  simp only [hf, ↓reduceIte]
  rfl

section Calls

variable {n scope : Nat} {callee : Expr} {es : List Expr} {f : Value}

theorem Calls.evaluate_eq (h : Calls n scope callee es m f vs m') (paren : Token) :
    evaluate (n + 1) scope (.call callee paren es) m =
      (checkArity f vs paren >>= fun _ => invoke (execute n) f vs paren) m' := by
  obtain ⟨hf, hvs⟩ := h
  exact (Run.bind_ok hf).trans (Run.bind_ok hvs)

/-- However the call ends, what was not reached from its callee and arguments is as it was. -/
theorem Calls.alike (h : Calls n scope callee es m f vs m') (paren : Token)
    (hh : ∀ code ∈ m'.hosts, Simulation.Sealed code) :
    m'.Alike (m'.Unreached (f :: vs)) (left (evaluate (n + 1) scope (.call callee paren es) m)) := by
  rw [h.evaluate_eq]
  have hcall : Avoids (m'.Unreached (f :: vs)) (Value.Apart (m'.Unreached (f :: vs))) _ :=
    avoids_called (fun v hv => Machine.apart_value (List.mem_cons_of_mem _ hv))
      (Machine.apart_value List.mem_cons_self) n paren
  exact (hcall m' (Machine.apart_unreached hh _)).alike

end Calls

section Opened

variable {f : Closure} {inner : Nat}

theorem ok_of_newScope {p i : Nat} (h : newScope p m = .ok i m') :
    i = m.scopes.next ∧ m' = { m with scopes := m.scopes.push (some p) } := by
  cases h
  exact ⟨rfl, rfl⟩

theorem ok_defineAll (i : Nat) (ps : List Token) (vs : List Value) (m : Machine) :
    ∃ m', defineAll i ps vs m = .ok () m' := by
  induction ps generalizing m vs with
  | nil => exact ⟨m, rfl⟩
  | cons p ps ih =>
    cases vs with
    | nil => exact ⟨m, rfl⟩
    | cons v vs => exact ih vs { m with scopes := m.scopes.define i p.lexeme v }

/-- The scope of a call is made without fail. -/
theorem ok_opened (f : Closure) (vs : List Value) (m : Machine) :
    ∃ inner m', opened f vs m = .ok inner m' := by
  obtain ⟨m', hd⟩ := ok_defineAll m.scopes.next f.declaration.params vs
    { m with scopes := m.scopes.push (some f.scope) }
  exact ⟨m.scopes.next, m', (Run.bind_ok rfl).trans (Run.bind_ok hd)⟩

/-- A call of a value with code runs the body of the code in the scope that it opens. -/
theorem invoke_of_code {v : Value} {code : Closure} (hcode : v.code? = some code)
    (exec : Nat → Stmt → Run Flow) (vs : List Value) (paren : Token) (m : Machine) :
    ∃ inner m₁, Opens v vs m inner code.declaration.body m₁ ∧ ∃ finish : Flow → Run Value,
      invoke exec v vs paren m = (sequence (exec inner) code.declaration.body >>= finish) m₁ := by
  cases v with
  | function id g =>
    cases hcode
    obtain ⟨inner, m₁, ho⟩ := ok_opened code vs m
    refine ⟨inner, m₁, .function ho, ?_⟩
    rw [invoke, enter_eq, Run.bind_ok ho]
    exact ⟨_, rfl⟩
  | «class» c =>
    obtain ⟨self, m₂, hself⟩ : ∃ self m₂, newInstance c m = .ok self m₂ := ⟨_, _, rfl⟩
    obtain ⟨g, m₃, hg, hbody⟩ : ∃ g m₃, bindMethod code self m₂ = .ok g m₃ ∧
        g.declaration = code.declaration := ⟨_, _, rfl, rfl⟩
    obtain ⟨inner, m₁, ho⟩ := ok_opened g vs m₃
    have hopened : openedInitializer c code vs m = .ok inner m₁ :=
      (Run.bind_ok hself).trans ((Run.bind_ok hg).trans ho)
    have hinit : c.initializer? = some code := hcode
    refine ⟨inner, m₁, .class hinit hopened, ?_⟩
    rw [invoke, construct, Run.bind_ok hself]
    simp only [hinit]
    rw [Run.bind_ok hg, enter_eq, bind_assoc, Run.bind_ok ho, bind_assoc, hbody]
    exact ⟨_, rfl⟩
  | _ => cases hcode

/-- The scope of a call is the next one. -/
theorem eq_next_of_opened (h : opened f vs m = .ok inner m') : inner = m.scopes.next := by
  obtain ⟨i, m₁, hi, h⟩ := Run.ok_of_bind h
  obtain ⟨_, m₂, -, h⟩ := Run.ok_of_bind h
  cases h
  exact (ok_of_newScope hi).1

/-- Before the scope of an initializer there is one for the instance. -/
theorem eq_next_of_openedInitializer {c : Class} (h : openedInitializer c f vs m = .ok inner m') :
    inner = m.scopes.next + 1 := by
  obtain ⟨self, m₁, hself, h⟩ := Run.ok_of_bind h
  obtain ⟨g, m₂, hg, h⟩ := Run.ok_of_bind h
  obtain ⟨i, m₃, hi, hg⟩ := Run.ok_of_bind hg
  obtain ⟨_, m₄, hd, hg⟩ := Run.ok_of_bind hg
  cases hself
  cases hi
  cases hd
  cases hg
  rw [eq_next_of_opened h]
  simp

/-- Each parameter is bound in the scope of the call. -/
theorem own?_of_defineAll {i : Nat} {ps : List Token} (h : defineAll i ps vs m = .ok () m')
    (hi : i < m.scopes.next) (hlen : ps.length = vs.length) :
    (∀ p ∈ ps, (m'.scopes.own? i p.lexeme).isSome) ∧
      ∀ name, (m.scopes.own? i name).isSome → (m'.scopes.own? i name).isSome := by
  induction ps generalizing m vs with
  | nil =>
    cases h
    exact ⟨nofun, fun _ => id⟩
  | cons p ps ih =>
    cases vs with
    | nil => cases hlen
    | cons v vs =>
      obtain ⟨_, m₁, hd, h⟩ := Run.ok_of_bind h
      cases hd
      obtain ⟨hps, hkept⟩ := ih h (by simpa using hi) (by simpa using hlen)
      have hp : (m'.scopes.own? i p.lexeme).isSome :=
        hkept p.lexeme (by rw [Scopes.own?_define_self _ _ _ hi]; rfl)
      refine ⟨List.forall_mem_cons.2 ⟨hp, hps⟩, fun name hname => ?_⟩
      by_cases he : name = p.lexeme
      · exact he ▸ hp
      · exact hkept name (by rwa [Scopes.own?_define_of_ne _ _ (.inr he)])

theorem own?_of_opened (h : opened f vs m = .ok inner m') (hlen : f.arity = vs.length) :
    ∀ p ∈ f.declaration.params, (m'.scopes.own? inner p.lexeme).isSome := by
  obtain ⟨i, m₁, hi, h⟩ := Run.ok_of_bind h
  obtain ⟨_, m₂, hd, h⟩ := Run.ok_of_bind h
  cases h
  obtain ⟨rfl, rfl⟩ := ok_of_newScope hi
  exact (own?_of_defineAll hd (by simp) hlen).1

theorem own?_of_opens {v : Value} {body : List Stmt} {code : Closure}
    (h : Opens v vs m inner body m') (hcode : v.code? = some code) (hlen : code.arity = vs.length) :
    ∀ p ∈ code.declaration.params, (m'.scopes.own? inner p.lexeme).isSome := by
  cases h with
  | function h =>
    cases hcode
    exact own?_of_opened h hlen
  | «class» hi h =>
    obtain rfl : code = _ := Option.some.inj (hcode.symm.trans hi)
    obtain ⟨self, m₁, -, h⟩ := Run.ok_of_bind h
    obtain ⟨g, m₂, hg, h⟩ := Run.ok_of_bind h
    obtain ⟨i, m₃, -, hg⟩ := Run.ok_of_bind hg
    obtain ⟨_, m₄, -, hg⟩ := Run.ok_of_bind hg
    cases hg
    exact own?_of_opened (f := { code with scope := i }) h hlen

theorem next_le_of_opens {v : Value} {body : List Stmt} (h : Opens v vs m inner body m') :
    m.scopes.next ≤ inner := by
  cases h with
  | function h => exact (eq_next_of_opened h).ge
  | «class» _ h => exact eq_next_of_openedInitializer h ▸ Nat.le_succ _

end Opened

end Evaluation

namespace Placement

variable {S : Setting}

/-- A valid value leads to scopes that are there. -/
theorem Valid.lt_next {v : Value} {i : Nat} (h : Valid S m v) (hs : Machine.global < m.scopes.next)
    (hv : v.Refers (.scope i)) : i < m.scopes.next := by
  have hclass {c : Class} (hc : ValidClass S m c) (hci : (Value.class c).Refers (.scope i)) :
      i < m.scopes.next := by
    cases hci with
    | method hb hf => exact (hc _ hb _ _ hf).lt_next hs
  cases h with
  | plain hp => exact absurd hv (Value.not_refers_of_plain hp _)
  | function hf =>
    cases hv
    exact hf.lt_next hs
  | «class» hc => exact hclass hc hv
  | «instance» _ hc =>
    cases hv with
    | classOf hv => exact hclass hc hv

/-- Whatever a sane machine refers to is there. -/
theorem Sane.lt_next {x : Thing} {i : Nat} (h : Sane S m) (hx : m.Refers x (.scope i)) :
    i < m.scopes.next := by
  cases hx with
  | enclosing hp => exact (Scopes.enclosing?_lt hp).trans (Scopes.lt_next_of_enclosing hp)
  | bound hv hi => exact (h.names _ _ _ hv).lt_next h.global hi
  | field hv hi => exact (h.fields _ _ _ hv).lt_next h.global hi

end Placement

end Lox
