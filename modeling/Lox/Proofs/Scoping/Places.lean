import Mathlib.Data.List.Basic
import Lox.Tree

/-!
# Places in a program

A place in a program is a statement or an expression with what encloses it: blocks,
functions, and methods in their classes. The places are read off the tree alone.
-/

set_option autoImplicit false

namespace Lox.Scoping

/-- What may enclose a place in a program. -/
inductive Enclosure where
  | block
  | function (f : Function)
  | method (f : Function)
  | «class» (name : Token) (superclass : Option Reference)

/-- All that encloses a place, innermost first. -/
abbrev Path := List Enclosure

namespace Enclosure

def isRoutine : Enclosure → Bool
  | function _ | method _ => true
  | block | «class» .. => false

/-- The superclass clause of a class. -/
def clause? : Enclosure → Option (Option Reference)
  | «class» _ superclass => some superclass
  | block | function _ | method _ => none

end Enclosure

namespace Path

/-- The innermost function or method. -/
def routine? (p : Path) : Option Enclosure := p.find? (·.isRoutine)

/-- The superclass clause of the innermost class. -/
def clause? (p : Path) : Option (Option Reference) := p.findSome? (·.clause?)

end Path

inductive Node where
  | expr (e : Expr)
  | stmt (s : Stmt)

/-- The statements of a function, each with what encloses it in there. -/
def bodyNodes (enclosing : Path) (f : Function) : List (Path × Node) :=
  f.body.map fun s => (enclosing, .stmt s)

/-- The parts of a statement or an expression, each with what encloses it in there. -/
def Node.children : Node → List (Path × Node)
  | .expr (.literal _) => []
  | .expr (.grouping e) => [([], .expr e)]
  | .expr (.unary _ e) => [([], .expr e)]
  | .expr (.binary l _ r) => [([], .expr l), ([], .expr r)]
  | .expr (.logical l _ r) => [([], .expr l), ([], .expr r)]
  | .expr (.var _) => []
  | .expr (.assign _ e) => [([], .expr e)]
  | .expr (.call callee _ es) => ([], .expr callee) :: es.map fun e => ([], .expr e)
  | .expr (.get e _) => [([], .expr e)]
  | .expr (.set e _ v) => [([], .expr e), ([], .expr v)]
  | .expr (.this _) => []
  | .expr (.super _ _) => []
  | .stmt (.expression e) => [([], .expr e)]
  | .stmt (.print e) => [([], .expr e)]
  | .stmt (.var _ e) => e.toList.map fun e => ([], .expr e)
  | .stmt (.block ss) => ss.map fun s => ([.block], .stmt s)
  | .stmt (.if e yes no) =>
    ([], .expr e) :: ([], .stmt yes) :: no.toList.map fun s => ([], .stmt s)
  | .stmt (.while e s) => [([], .expr e), ([], .stmt s)]
  | .stmt (.function f) => bodyNodes [.function f] f
  | .stmt (.return _ e) => e.toList.map fun e => ([], .expr e)
  | .stmt (.class x r ms) => ms.flatMap fun f => bodyNodes [.method f, .class x r] f

/-- `Inside n p m`: at or below `n` there is `m`, and within `n` it is enclosed by `p`. -/
inductive Inside : Node → Path → Node → Prop
  | here {n : Node} : Inside n [] n
  | child {n m k : Node} {p q : Path} (hm : (p, m) ∈ n.children) (hk : Inside m q k) :
      Inside n (q ++ p) k

/-- The places of a program. -/
def Occurs (program : List Stmt) (p : Path) (n : Node) : Prop :=
  ∃ s ∈ program, Inside (.stmt s) p n

/-- A property of all places at or below `n`, which is itself enclosed by `p`. -/
def Everywhere (P : Path → Node → Prop) (p : Path) (n : Node) : Prop :=
  ∀ q m, Inside n q m → P (q ++ p) m

variable {P Q : Path → Node → Prop} {p : Path} {n : Node}

/-- One step down the tree. -/
theorem everywhere_iff :
    Everywhere P p n ↔ P p n ∧ ∀ c ∈ n.children, Everywhere P (c.1 ++ p) c.2 := by
  constructor
  · intro h
    constructor
    · exact h [] n .here
    · intro c hc q m hm
      rw [← List.append_assoc]
      exact h (q ++ c.1) m (.child hc hm)
  · rintro ⟨hn, hc⟩ q m hm
    cases hm with
    | here => exact hn
    | child hm hk =>
      rw [List.append_assoc]
      exact hc _ hm _ _ hk

theorem forall_methodNodes {P : Path × Node → Prop} {x : Token} {r : Option Reference}
    {ms : List Function} : (∀ c ∈ (Node.stmt (.class x r ms)).children, P c) ↔
      ∀ f ∈ ms, ∀ s ∈ f.body, P ([.method f, .class x r], .stmt s) := by
  unfold Node.children bodyNodes
  constructor
  · intro h f hf s hs
    exact h _ (List.mem_flatMap.2 ⟨f, hf, List.mem_map.2 ⟨s, hs, rfl⟩⟩)
  · intro h c hc
    obtain ⟨f, hf, hc⟩ := List.mem_flatMap.1 hc
    obtain ⟨s, hs, rfl⟩ := List.mem_map.1 hc
    exact h f hf s hs

theorem everywhere_and :
    Everywhere (fun p n => P p n ∧ Q p n) p n ↔ Everywhere P p n ∧ Everywhere Q p n :=
  ⟨fun h => ⟨fun q m hm => (h q m hm).1, fun q m hm => (h q m hm).2⟩,
    fun h q m hm => ⟨h.1 q m hm, h.2 q m hm⟩⟩

theorem everywhere_congr (h : ∀ q m, P q m ↔ Q q m) : Everywhere P p n ↔ Everywhere Q p n :=
  forall₂_congr fun q m => imp_congr_right fun _ => h (q ++ p) m

theorem occurs_iff {program : List Stmt} :
    (∀ p n, Occurs program p n → P p n) ↔ ∀ s ∈ program, Everywhere P [] (.stmt s) := by
  constructor
  · intro h s hs q m hm
    rw [List.append_nil]
    exact h q m ⟨s, hs, hm⟩
  · rintro h p n ⟨s, hs, hn⟩
    have hp := h s hs p n hn
    rwa [List.append_nil] at hp

end Lox.Scoping
