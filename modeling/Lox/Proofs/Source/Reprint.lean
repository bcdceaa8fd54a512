import Mathlib
import Lox.Proofs.Evaluation.Likeness
import Lox.Proofs.Source.Joining
import Lox.Proofs.Source.Printed

/-!
# Reading a printed expression

The source form of an expression that was read is read again, on any line and whatever
identities were taken before. The result is alike: operators have brackets of their own, so
each stands as an operand wherever it stood, and only assignments, which have none, stand
where the grammar has an assignment.

Main statement: the source form is accepted, without brackets, lines and identities its tree
is the one printed, and where no depth is known of the references of either both evaluate to
the same value on the same machine or fail with the same message.
-/

set_option autoImplicit false

namespace Lox

/-- References that name the same. -/
def Reference.Named (r r' : Reference) : Prop := r.name.Like r'.name

namespace Grammar

section Levels

variable {before : Bool → Prop} {e : Expr} {ts : List Token} {n k : Nat} {ds : List Diagnostic}

theorem Derives.looser {c : Chain} (h : Derives before (.expr c.operand e) ts n k ds) :
    Derives before (.expr (.chain c) e) ts n k ds := by
  simpa using h.chain .noOperand

theorem Derives.operand_of_call (h : Derives before (.expr .call e) ts n k ds) (c : Chain) :
    Derives before (.expr c.operand e) ts n k ds := by
  have unary := Derives.noOperator h
  have factor := Derives.looser (c := .factor) unary
  have term := Derives.looser (c := .term) factor
  have comparison := Derives.looser (c := .comparison) term
  have equality := Derives.looser (c := .equality) comparison
  have and := Derives.looser (c := .and) equality
  cases c with
  | factor => exact unary
  | term => exact factor
  | comparison => exact term
  | equality => exact comparison
  | and => exact equality
  | or => exact and

theorem Derives.assignment_of_chain {c : Chain} (h : Derives before (.expr (.chain c) e) ts n k ds) :
    Derives before (.expr .assignment e) ts n k ds := by
  apply Derives.noAssignment
  have or (h : Derives before (.expr (.chain .and) e) ts n k ds) := Derives.looser (c := .or) h
  have and (h : Derives before (.expr (.chain .equality) e) ts n k ds) := Derives.looser (c := .and) h
  have equality (h : Derives before (.expr (.chain .comparison) e) ts n k ds) :=
    Derives.looser (c := .equality) h
  have comparison (h : Derives before (.expr (.chain .term) e) ts n k ds) :=
    Derives.looser (c := .comparison) h
  have term (h : Derives before (.expr (.chain .factor) e) ts n k ds) := Derives.looser (c := .term) h
  cases c with
  | factor => exact or (and (equality (comparison (term h))))
  | term => exact or (and (equality (comparison h)))
  | comparison => exact or (and (equality h))
  | equality => exact or (and h)
  | and => exact or h
  | or => exact h

end Levels

end Grammar

namespace Piece

section Lexemes

variable (line : Nat) (ps : List Piece)

theorem lexemes_lexeme (k : Kind) (cs : List Char) :
    ∃ t line', t.kind = k ∧ t.lexeme = String.ofList cs ∧
      lexemes line (.lexeme k cs :: ps) = t :: lexemes line' ps :=
  ⟨_, _, rfl, rfl, rfl⟩

theorem lexemes_token (t : Token) :
    ∃ t' line', t.Like t' ∧ lexemes line (token t :: ps) = t' :: lexemes line' ps :=
  ⟨⟨t.kind, String.ofList t.lexeme.toList, _⟩, _, ⟨rfl, String.ofList_toList⟩, rfl⟩

theorem lexemes_mark (m : Mark) :
    ∃ t line', t.kind = .mark m ∧ t.lexeme = m.spelling ∧
      lexemes line (mark m :: ps) = t :: lexemes line' ps :=
  ⟨_, _, rfl, String.ofList_toList, rfl⟩

theorem lexemes_space : ∃ line', lexemes line (space :: ps) = lexemes line' ps := ⟨_, rfl⟩

theorem lexemes_behind (qs : List Piece) :
    ∃ line', lexemes line (ps ++ qs) = lexemes line ps ++ lexemes line' qs :=
  ⟨_, lexemes_append line ps qs⟩

end Lexemes

end Piece

namespace Expr

mutual

/-- All numbers in the expression are finite. -/
def Finite : Expr → Prop
  | literal (.number x) => Number.finite x = true
  | literal _ => True
  | grouping e => Finite e
  | unary _ e => Finite e
  | binary l _ r => Finite l ∧ Finite r
  | logical l _ r => Finite l ∧ Finite r
  | var _ => True
  | assign _ e => Finite e
  | call f _ es => Finite f ∧ AllFinite es
  | get e _ => Finite e
  | set e _ v => Finite e ∧ Finite v
  | this _ => True
  | super _ _ => True

def AllFinite : List Expr → Prop
  | [] => True
  | e :: es => Finite e ∧ AllFinite es

end

end Expr

open Grammar Piece

/-- An expression whose printed form reads as an operand: it can take calls and accesses. -/
structure Operand (e : Expr) : Prop where
  placed : Placed e.pieces
  reads (line n : Nat) : ∃ e' k s, e.Like Reference.Named s e' ∧ ∀ {f : Expr} {ts : List Token} {j : Nat},
    Derives Complete (.suffixes e' f) ts k j [] →
      Derives Complete (.expr .call f) (lexemes line e.pieces ++ ts) n j []

/-- An expression whose printed form reads as an expression. -/
structure Whole (e : Expr) : Prop where
  placed : Placed e.pieces
  reads (line n : Nat) : ∃ e' k s, e.Like Reference.Named s e' ∧
    Derives Complete (.expr .assignment e') (lexemes line e.pieces) n k []

/-- Arguments whose printed form reads as arguments behind `count` others. -/
structure Arguments (count : Nat) (es : List Expr) : Prop where
  nonempty : es ≠ []
  placed : Placed (Expr.argumentPieces es)
  reads (line n : Nat) : ∃ es' k s, es.length = es'.length ∧
    (∀ p ∈ es.zip es', p.1.Like Reference.Named s p.2) ∧
      Derives Complete (.arguments count es') (lexemes line (Expr.argumentPieces es)) n k []

namespace Operand

variable {e f l r v : Expr} {x op : Token}

theorem call_reads (h : Operand e) (line n : Nat) : ∃ e' k s, e.Like Reference.Named s e' ∧
    Derives Complete (.expr .call e') (lexemes line e.pieces) n k [] := by
  obtain ⟨e', k, s, he, hd⟩ := h.reads line n
  exact ⟨e', k, s, he, by simpa using hd .noSuffix⟩

theorem whole (h : Operand e) : Whole e where
  placed := h.placed
  reads line n := by
    obtain ⟨e', k, s, he, hd⟩ := h.call_reads line n
    exact ⟨e', k, s, he, .assignment_of_chain (hd.operand_of_call .or)⟩

/-- A single token. -/
theorem single {k : Kind} {cs : List Char} (hp : Placed [.lexeme k cs])
    (he : e.pieces = [.lexeme k cs]) (h : ∀ t : Token, t.kind = k → t.lexeme = String.ofList cs → ∀ n, ∃ e' j s,
      e.Like Reference.Named s e' ∧ Derives Complete (.expr .primary e') [t] n j []) : Operand e where
  placed := he ▸ hp
  reads line n := by
    obtain ⟨t, line', hk, hl, ht⟩ := lexemes_lexeme line [] k cs
    obtain ⟨e', j, s, hlike, hd⟩ := h t hk hl n
    rw [he, ht]
    exact ⟨e', j, s, hlike, hd.call⟩

/-- Brackets around an expression. -/
theorem enclosed {ps : List Piece} (hp : Placed (mark .leftParen :: ps ++ [mark .rightParen]))
    (he : e.pieces = mark .leftParen :: ps ++ [mark .rightParen])
    (h : ∀ line n, ∃ e' k s, e.Like Reference.Named s (.grouping e') ∧
      Derives Complete (.expr .assignment e') (lexemes line ps) n k []) : Operand e where
  placed := he ▸ hp
  reads line n := by
    obtain ⟨o, line₁, ho, -, h₁⟩ := lexemes_mark line (ps ++ [mark .rightParen]) .leftParen
    obtain ⟨line₂, h₂⟩ := lexemes_behind line₁ ps [mark .rightParen]
    obtain ⟨c, line₃, hc, -, h₃⟩ := lexemes_mark line₂ [] .rightParen
    obtain ⟨e', k, s, hlike, hd⟩ := h line₁ n
    refine ⟨_, k, s, hlike, fun hs => ?_⟩
    rw [he, List.cons_append, h₁, h₂, h₃]
    exact (Derives.grouping ho hd hc).call hs

theorem grouping (h : Whole e) : Operand (.grouping e) := by
  apply enclosed h.placed.paren rfl
  intro line n
  obtain ⟨e', k, s, he, hd⟩ := h.reads line n
  exact ⟨e', k, s, he.grouping, hd⟩

theorem unary (h : Operand e) (ho : isUnaryOperator op.kind = true)
    (hl : Lexeme op.kind op.lexeme.toList) : Operand (.unary op e) := by
  apply enclosed (h.placed.unary ho hl) rfl
  intro line n
  obtain ⟨op', line', hop, ht⟩ := lexemes_token line e.pieces op
  obtain ⟨e', k, s, he, hd⟩ := h.call_reads line' n
  rw [ht]
  have ho' : isUnaryOperator op'.kind = true := by rwa [hop.kind]
  refine ⟨.unary op' e', k, s + 1, (he.unary hop).closed, ?_⟩
  exact .assignment_of_chain (c := .factor) (.looser (c := .factor) (.operator ho' hd.noOperator))

theorem pieces_join (c : Chain) : (c.join l op r).pieces = mark .leftParen ::
    (l.pieces ++ space :: token op :: space :: r.pieces) ++ [mark .rightParen] := by
  cases c <;> rfl

theorem join {c : Chain} (h : Operand l) (h' : Operand r) (ho : c.operator op.kind = true)
    (hl : Lexeme op.kind op.lexeme.toList) : Operand (c.join l op r) := by
  apply enclosed (h.placed.binary h'.placed hl) (pieces_join c)
  intro line n
  obtain ⟨line₁, h₁⟩ := lexemes_behind line l.pieces (space :: token op :: space :: r.pieces)
  obtain ⟨line₂, h₂⟩ := lexemes_space line₁ (token op :: space :: r.pieces)
  obtain ⟨op', line₃, hop, h₃⟩ := lexemes_token line₂ (space :: r.pieces) op
  obtain ⟨line₄, h₄⟩ := lexemes_space line₃ r.pieces
  obtain ⟨l', m, s, hlike, hd⟩ := h.call_reads line n
  obtain ⟨r', k, s', hlike', hd'⟩ := h'.call_reads line₄ m
  rw [h₁, h₂, h₃, h₄]
  have ho' : c.operator op'.kind = true := by rwa [hop.kind]
  refine ⟨c.join l' op' r', k, max s s' + 1, ?_, ?_⟩
  · apply Expr.Like.closed
    have hl := hlike.mono (Nat.le_max_left s s')
    have hr := hlike'.mono (Nat.le_max_right s s')
    cases c <;> first | exact hl.binary hop hr | exact hl.logical hop hr
  · apply Derives.assignment_of_chain (c := c)
    simpa using (hd.operand_of_call c).chain (.operand ho' (hd'.operand_of_call c) .noOperand)

theorem get (h : Operand e) (hx : x.kind = .identifier) (hl : Lexeme x.kind x.lexeme.toList) :
    Operand (.get e x) where
  placed := h.placed.access hx hl
  reads line n := by
    obtain ⟨line₁, h₁⟩ := lexemes_behind line e.pieces [mark .dot, token x]
    obtain ⟨dot, line₂, hdot, -, h₂⟩ := lexemes_mark line₁ [token x] .dot
    obtain ⟨x', line₃, hlike, h₃⟩ := lexemes_token line₂ [] x
    obtain ⟨e', k, s, he, hd⟩ := h.reads line n
    refine ⟨.get e' x', k, s, he.get hlike, fun hs => ?_⟩
    rw [Expr.pieces, h₁, h₂, h₃, List.append_assoc]
    exact hd (.property hdot (by rw [hlike.kind, hx]) hs)

theorem emptyCall {c : Token} (h : Operand f) (hc : c.kind = .mark .rightParen)
    (hl : c.lexeme = Mark.rightParen.spelling) : Operand (.call f c []) where
  placed := h.placed.emptyCall
  reads line n := by
    obtain ⟨line₁, h₁⟩ := lexemes_behind line f.pieces [mark .leftParen, mark .rightParen]
    obtain ⟨o', line₂, ho', -, h₂⟩ := lexemes_mark line₁ [mark .rightParen] .leftParen
    obtain ⟨c', line₃, hc', hl', h₃⟩ := lexemes_mark line₂ [] .rightParen
    obtain ⟨f', k, s, hf, hd⟩ := h.reads line n
    have hlike : c.Like c' := ⟨hc'.trans hc.symm, hl'.trans hl.symm⟩
    refine ⟨.call f' c' [], k, s, hf.call hlike rfl (by simp), fun hs => ?_⟩
    have hp : (Expr.call f c []).pieces = f.pieces ++ [mark .leftParen, mark .rightParen] := by
      simp [Expr.pieces, Expr.argumentPieces]
    rw [hp, h₁, h₂, h₃, List.append_assoc]
    exact hd (.emptyCall ho' hc' hs)

theorem call {c : Token} {es : List Expr} (h : Operand f) (hes : Arguments 0 es)
    (hc : c.kind = .mark .rightParen) (hl : c.lexeme = Mark.rightParen.spelling) :
    Operand (.call f c es) where
  placed := h.placed.call hes.placed
  reads line n := by
    obtain ⟨line₁, h₁⟩ := lexemes_behind line f.pieces
      (mark .leftParen :: (Expr.argumentPieces es ++ [mark .rightParen]))
    obtain ⟨o', line₂, ho', -, h₂⟩ :=
      lexemes_mark line₁ (Expr.argumentPieces es ++ [mark .rightParen]) .leftParen
    obtain ⟨line₃, h₃⟩ := lexemes_behind line₂ (Expr.argumentPieces es) [mark .rightParen]
    obtain ⟨c', line₄, hc', hl', h₄⟩ := lexemes_mark line₃ [] .rightParen
    obtain ⟨f', m, s, hf, hd⟩ := h.reads line n
    obtain ⟨es', k, s', hlen, hlikes, hds⟩ := hes.reads line₂ m
    have hlike : c.Like c' := ⟨hc'.trans hc.symm, hl'.trans hl.symm⟩
    refine ⟨.call f' c' es', k, max s s', ?_, fun hs => ?_⟩
    · apply (hf.mono (Nat.le_max_left s s')).call hlike hlen
      exact fun p hp => (hlikes p hp).mono (Nat.le_max_right s s')
    · have hp : (Expr.call f c es).pieces =
          f.pieces ++ mark .leftParen :: (Expr.argumentPieces es ++ [mark .rightParen]) := by
        simp [Expr.pieces]
      rw [hp, h₁, h₂, h₃, h₄, List.append_assoc]
      apply hd
      simpa [lexemes] using Derives.argumentCall ho' hds hc' hs

theorem var {r : Reference} (hx : r.name.kind = .identifier)
    (hl : Lexeme r.name.kind r.name.lexeme.toList) : Operand (.var r) := by
  apply single (Placed.name hx hl) rfl
  intro t hk ht n
  have hlike : r.name.Like t := ⟨hk, ht.trans String.ofList_toList⟩
  exact ⟨.var ⟨n, t⟩, n + 1, 0, .var hlike, .var (by rw [hk, hx])⟩

theorem placed_word (w : Word) : Placed [word w] :=
  Placed.single (.ofWord w) (by simp) fun _ h => h.name

theorem this {r : Reference} (hk : r.name.kind = .word .this)
    (hl : Lexeme r.name.kind r.name.lexeme.toList) : Operand (.this r) := by
  apply single (placed_word .this) rfl
  intro t ht hlex n
  rw [hk] at hl
  have hlike : r.name.Like t := by
    constructor
    · rw [ht, hk]
    · rw [hlex, String.ofList_toList, ← hl.word, String.ofList_toList]
  exact ⟨.this ⟨n, t⟩, n + 1, 0, .this hlike, .this ht⟩

theorem super {r : Reference} (hk : r.name.kind = .word .super)
    (hl : Lexeme r.name.kind r.name.lexeme.toList) (hx : x.kind = .identifier)
    (hlx : Lexeme x.kind x.lexeme.toList) : Operand (.super r x) where
  placed := (placed_word .super).access hx hlx
  reads line n := by
    obtain ⟨t, line₁, ht, hlex, h₁⟩ :=
      lexemes_lexeme line [mark .dot, token x] (.word .super) Word.super.spelling.toList
    obtain ⟨dot, line₂, hdot, -, h₂⟩ := lexemes_mark line₁ [token x] .dot
    obtain ⟨x', line₃, hxlike, h₃⟩ := lexemes_token line₂ [] x
    rw [hk] at hl
    have hlike : r.name.Like t := by
      constructor
      · rw [ht, hk]
      · rw [hlex, String.ofList_toList, ← hl.word, String.ofList_toList]
    refine ⟨.super ⟨n, t⟩ x', n + 1, 0, .super hlike hxlike, fun hs => ?_⟩
    have hd : Derives Complete (.expr .primary (.super ⟨n, t⟩ x')) [t, dot, x'] n (n + 1) [] :=
      .super ht hdot (by rw [hxlike.kind, hx])
    rw [Expr.pieces, word, h₁, h₂, h₃]
    exact hd.call hs

theorem literal {t : Token} {v : Literal} (hv : literal? t.kind = some v)
    (hl : Lexeme t.kind t.lexeme.toList) (hf : (Expr.literal v).Finite) : Operand (.literal v) := by
  have h : Lexeme v.kind v.source.toList ∧ literal? v.kind = some v := by
    unfold literal? at hv
    split at hv
    all_goals cases hv
    · exact ⟨.ofWord .false, rfl⟩
    · exact ⟨.ofWord .true, rfl⟩
    · exact ⟨.ofWord .nil, rfl⟩
    · rename_i x hk
      rw [hk] at hl
      have hx := hl.number_value
      have hfinite : Number.finite x = true := hf
      rw [hx] at hfinite
      apply And.intro _ rfl
      show Lexeme (.number x) (Number.shortText x).toList
      rw [hx]
      exact Number.shortText_ofNumeral hfinite
    · rename_i s hk
      rw [hk] at hl
      have hs := hl.string_text
      rw [hs] at hl
      exact ⟨hl, rfl⟩
  have hp : Placed [.lexeme v.kind v.source.toList] := by
    apply Placed.single h.1
    · intro m hm
      rw [hm] at h
      cases h.2
    · exact fun _ hc => hc.ends_literal v _
  apply single hp rfl
  · intro t ht _ n
    exact ⟨.literal v, n, 0, .literal v, .literal (by rw [ht, h.2])⟩

end Operand

namespace Whole

variable {e v : Expr} {x : Token}

theorem assign {r : Reference} (h : Whole v) (hx : r.name.kind = .identifier)
    (hl : Lexeme r.name.kind r.name.lexeme.toList) : Whole (.assign r v) where
  placed := (Placed.name hx hl).assign h.placed
  reads line n := by
    obtain ⟨x', line₁, hlike, h₁⟩ :=
      lexemes_token line (space :: mark .equal :: space :: v.pieces) r.name
    obtain ⟨line₂, h₂⟩ := lexemes_space line₁ (mark .equal :: space :: v.pieces)
    obtain ⟨q', line₃, hq', -, h₃⟩ := lexemes_mark line₂ (space :: v.pieces) .equal
    obtain ⟨line₄, h₄⟩ := lexemes_space line₃ v.pieces
    obtain ⟨v', k, s, hv, hd⟩ := h.reads line₄ (n + 1)
    refine ⟨.assign ⟨k, x'⟩ v', k + 1, s, ?_, ?_⟩
    · exact .assign hlike hv
    · rw [Expr.pieces, h₁, h₂, h₃, h₄]
      exact .assignVar (by rw [hlike.kind, hx]) hq' hd

theorem set (h : Operand e) (h' : Whole v) (hx : x.kind = .identifier)
    (hl : Lexeme x.kind x.lexeme.toList) : Whole (.set e x v) where
  placed := by
    simpa [Expr.pieces] using (h.placed.access hx hl).assign h'.placed
  reads line n := by
    obtain ⟨line₁, h₁⟩ := lexemes_behind line e.pieces
      (mark .dot :: token x :: space :: mark .equal :: space :: v.pieces)
    obtain ⟨dot, line₂, hdot, -, h₂⟩ :=
      lexemes_mark line₁ (token x :: space :: mark .equal :: space :: v.pieces) .dot
    obtain ⟨x', line₃, hlike, h₃⟩ := lexemes_token line₂ (space :: mark .equal :: space :: v.pieces) x
    obtain ⟨line₄, h₄⟩ := lexemes_space line₃ (mark .equal :: space :: v.pieces)
    obtain ⟨q', line₅, hq', -, h₅⟩ := lexemes_mark line₄ (space :: v.pieces) .equal
    obtain ⟨line₆, h₆⟩ := lexemes_space line₅ v.pieces
    obtain ⟨e', m, s, he, hd⟩ := h.call_reads line n
    obtain ⟨v', k, s', hv, hd'⟩ := h'.reads line₆ m
    refine ⟨.set e' x' v', k, max s s', ?_, ?_⟩
    · exact (he.mono (Nat.le_max_left s s')).set hlike (hv.mono (Nat.le_max_right s s'))
    · rw [Expr.pieces, h₁, h₂, h₃, h₄, h₅, h₆]
      exact .assignProperty hd hdot (by rw [hlike.kind, hx]) hq' hd'

end Whole

namespace Arguments

variable {e : Expr} {es : List Expr} {count : Nat}

theorem one (h : Whole e) (hc : count < maxArity) : Arguments count [e] where
  nonempty := by simp
  placed := h.placed
  reads line n := by
    obtain ⟨e', k, s, he, hd⟩ := h.reads line n
    refine ⟨[e'], k, s, rfl, by simpa using he, ?_⟩
    have hds : Derives Complete (.arguments count [e']) _ n k _ := .argument hd
    rwa [beyond_eq_nil hc] at hds

theorem more (h : Whole e) (hes : Arguments (count + 1) es) (hc : count < maxArity) :
    Arguments count (e :: es) := by
  obtain ⟨a, as, rfl⟩ := List.exists_cons_of_ne_nil hes.nonempty
  refine ⟨by simp, h.placed.comma hes.placed, fun line n => ?_⟩
  obtain ⟨line₁, h₁⟩ := lexemes_behind line e.pieces
    (mark .comma :: space :: Expr.argumentPieces (a :: as))
  obtain ⟨c', line₂, hc', -, h₂⟩ :=
    lexemes_mark line₁ (space :: Expr.argumentPieces (a :: as)) .comma
  obtain ⟨line₃, h₃⟩ := lexemes_space line₂ (Expr.argumentPieces (a :: as))
  obtain ⟨e', m, s, he, hd⟩ := h.reads line n
  obtain ⟨es', k, s', hlen, hlikes, hd'⟩ := hes.reads line₃ m
  refine ⟨e' :: es', k, max s s', ?_, ?_, ?_⟩
  · simp only [List.length_cons, ← hlen]
  · rw [List.zip_cons_cons, List.forall_mem_cons]
    apply And.intro (he.mono (Nat.le_max_left s s'))
    exact fun p hp => (hlikes p hp).mono (Nat.le_max_right s s')
  · rw [Expr.argumentPieces, h₁, h₂, h₃]
    · have hds := hd.moreArguments hc' hd'
      rwa [beyond_eq_nil hc] at hds
    · simp

end Arguments

namespace Grammar

/-- What is known of a phrase once it is derived: the expressions in it are printed in a
form that is read again. -/
def Phrase.Reprints : Phrase → Prop
  | .expr .assignment e => e.Finite → Whole e
  | .expr _ e => e.Finite → Operand e
  | .operands _ l e => e.Finite → l.Finite ∧ (Operand l → Operand e)
  | .suffixes f e => e.Finite → f.Finite ∧ (Operand f → Operand e)
  | .arguments count es => Expr.AllFinite es → Arguments count es
  | _ => True

theorem reprints_operand (c : Chain) (e : Expr) :
    Phrase.Reprints (.expr c.operand e) ↔ (e.Finite → Operand e) := by
  cases c <;> rfl

theorem lt_of_beyond_eq_nil {cause : ParseCause} {count : Nat} {t : Token} {ts : List Token}
    (h : beyond cause count (t :: ts) = []) : count < maxArity := by
  by_contra hc
  rw [beyond, if_pos (Nat.not_lt.1 hc)] at h
  cases h

/-- Everything derived without a violation, of tokens that are lexemes, is read again from
its printed form. -/
theorem Derives.reprints {before : Bool → Prop} {p : Phrase} {ts : List Token} {n k : Nat}
    {ds : List Diagnostic} (h : Derives before p ts n k ds) (hd : ds = [])
    (hts : ∀ t ∈ ts, Lexeme t.kind t.lexeme.toList) : p.Reprints := by
  have hmark {m : Mark} {t : Token} (hk : t.kind = .mark m) (hl : Lexeme t.kind t.lexeme.toList) :
      t.lexeme = m.spelling := by
    rw [hk] at hl
    exact String.toList_inj.1 hl.mark_text
  induction h with
  | literal ht => exact fun hf => .literal ht (hts _ (by simp)) hf
  | this ht => exact fun _ => .this ht (hts _ (by simp))
  | var ht => exact fun _ => .var ht (hts _ (by simp))
  | super ht _ hx => exact fun _ => .super ht (hts _ (by simp)) hx (hts _ (by simp))
  | grouping _ _ _ ih =>
    have ih := ih hd fun t ht => hts t (by simp [ht])
    exact fun hf => .grouping (ih hf)
  | call _ _ ihp ihs =>
    obtain ⟨rfl, rfl⟩ := List.append_eq_nil_iff.1 hd
    have ihp := ihp rfl fun t ht => hts t (by simp [ht])
    have ihs := ihs rfl fun t ht => hts t (by simp [ht])
    exact fun hf => (ihs hf).2 (ihp (ihs hf).1)
  | noSuffix => exact fun hf => ⟨hf, id⟩
  | emptyCall _ hc _ ihs =>
    have ihs := ihs hd fun t ht => hts t (by simp [ht])
    have hlex := hmark hc (hts _ (by simp))
    exact fun hf => ⟨(ihs hf).1.1, fun h => (ihs hf).2 (h.emptyCall hc hlex)⟩
  | argumentCall _ _ hc _ iha ihs =>
    obtain ⟨rfl, rfl⟩ := List.append_eq_nil_iff.1 hd
    have iha := iha rfl fun t ht => hts t (by simp [ht])
    have ihs := ihs rfl fun t ht => hts t (by simp [ht])
    have hlex := hmark hc (hts _ (by simp))
    exact fun hf => ⟨(ihs hf).1.1, fun h => (ihs hf).2 (h.call (iha (ihs hf).1.2) hc hlex)⟩
  | property _ hx _ ihs =>
    have ihs := ihs hd fun t ht => hts t (by simp [ht])
    exact fun hf => ⟨(ihs hf).1, fun h => (ihs hf).2 (h.get hx (hts _ (by simp)))⟩
  | argument he ih =>
    obtain ⟨hb, rfl⟩ := List.append_eq_nil_iff.1 hd
    obtain ⟨t, us, rfl, -⟩ := he.starts rfl
    have ih := ih rfl hts
    exact fun hf => .one (ih hf.1) (lt_of_beyond_eq_nil hb)
  | moreArguments he _ _ ih iha =>
    obtain ⟨hbd, rfl⟩ := List.append_eq_nil_iff.1 hd
    obtain ⟨hb, rfl⟩ := List.append_eq_nil_iff.1 hbd
    obtain ⟨t, us, rfl, -⟩ := he.starts rfl
    have ih := ih rfl fun t ht => hts t (List.mem_append_left _ ht)
    have iha := iha rfl fun t ht => hts t (by simp [ht])
    exact fun hf => .more (ih hf.1) (iha hf.2) (lt_of_beyond_eq_nil hb)
  | operator ho _ ih =>
    have ih := ih hd fun t ht => hts t (by simp [ht])
    exact fun hf => (ih hf).unary ho (hts _ (by simp))
  | noOperator _ ih => exact ih hd hts
  | chain _ _ ihl iho =>
    obtain ⟨rfl, rfl⟩ := List.append_eq_nil_iff.1 hd
    have ihl := (reprints_operand _ _).1 (ihl rfl fun t ht => hts t (by simp [ht]))
    have iho := iho rfl fun t ht => hts t (by simp [ht])
    exact fun hf => (iho hf).2 (ihl (iho hf).1)
  | noOperand => exact fun hf => ⟨hf, id⟩
  | @operand c l r e op ts us n m k ds es ho _ _ ihr ihs =>
    obtain ⟨rfl, rfl⟩ := List.append_eq_nil_iff.1 hd
    have ihr := (reprints_operand _ _).1 (ihr rfl fun t ht => hts t (by simp [ht]))
    have ihs := ihs rfl fun t ht => hts t (by simp [ht])
    have hfinite : (c.join l op r).Finite ↔ l.Finite ∧ r.Finite := by cases c <;> rfl
    intro hf
    have hlr := hfinite.1 (ihs hf).1
    exact ⟨hlr.1, fun h => (ihs hf).2 (h.join (ihr hlr.2) ho (hts _ (by simp)))⟩
  | noAssignment _ ih =>
    have ih := ih hd hts
    exact fun hf => (ih hf).whole
  | assignVar hx _ _ ih =>
    have ih := ih hd fun t ht => hts t (by simp [ht])
    exact fun hf => (ih hf).assign hx (hts _ (by simp))
  | assignProperty _ _ hx _ _ iho ihv =>
    obtain ⟨rfl, rfl⟩ := List.append_eq_nil_iff.1 hd
    have iho := iho rfl fun t ht => hts t (by simp [ht])
    have ihv := ihv rfl fun t ht => hts t (by simp [ht])
    exact fun hf => .set (iho hf.1) (ihv hf.2) hx (hts _ (by simp))
  | invalidTarget => simp at hd
  | _ => trivial

end Grammar

/-- No depth is known of the references in the expression. -/
def Machine.Unresolved (m : Machine) (e : Expr) : Prop :=
  ∀ r ∈ e.references, m.depths.get? r.id = none

/-- The source form of an expression is accepted again. Its tree is the same without
brackets, lines and identities, and ends alike where no depth is known. -/
theorem Front.reprint {n : Nat} {source : String} {e : Expr}
    (h : (Front.expression n source).tree? = some e) (hf : e.Finite) (n' : Nat) :
    ∃ e', (Front.expression n' e.source).tree? = some e' ∧ e'.bare = e.bare ∧
      ∀ (m : Machine) (scope : Nat), m.Unresolved e → m.Unresolved e' →
        ∀ o, (∃ b, Run.ending (Evaluation.evaluate b scope e m) = some o) ↔
          ∃ b, Run.ending (Evaluation.evaluate b scope e' m) = some o := by
  obtain ⟨hfit, hd⟩ := Front.ofSource_tree exact_expression h
  have hwhole : Whole e := hd.reprints rfl (fun t ht => hfit.lexeme t ht) hf
  obtain ⟨e', k, s, hlike, hd'⟩ := hwhole.reads 1 n'
  have hfits : Fits e.pieces := by
    have hnil : Fits [] := trivial
    simpa using hwhole.placed.fits hnil .nil
  have htext : String.ofList (e.pieces.map text).flatten = e.source := by
    apply String.toList_inj.1
    rw [String.toList_ofList]
    exact Expr.joined_pieces e
  have htree := (Front.ofSource_of_fits exact_expression hfits hd').1
  rw [htext] at htree
  refine ⟨e', htree, hlike.bare fun _ _ h => h, fun m scope hm hm' o => ?_⟩
  apply Evaluation.ends_alike (k := s) (hlike.imp ?_)
  exact fun r hr r' hr' hname => ⟨hname, (hm' r' hr').trans (hm r hr).symm⟩

/-- The tree of `f(1.5).c = !d`. -/
def callAssigned : Expr :=
  .set (.call (.var ⟨0, ⟨.identifier, "f", 1⟩⟩) ⟨.mark .rightParen, ")", 1⟩
      [.literal (.number (Number.ofNumeral "1.5".toList))])
    ⟨.identifier, "c", 1⟩ (.unary ⟨.mark .bang, "!", 1⟩ (.var ⟨1, ⟨.identifier, "d", 1⟩⟩))

theorem finite_callAssigned : callAssigned.Finite := by
  refine ⟨⟨trivial, ?_, trivial⟩, trivial⟩
  show Number.finite (Number.ofNumeral "1.5".toList) = true
  unfold Number.finite Number.ofNumeral
  rw [Number.magnitudeBits_ofBits]
  · decide +kernel
  · decide +kernel

theorem cut_callAssigned : Piece.cut "f(1.5).c = !d".toList =
    [.lexeme .identifier ['f'], .lexeme (.mark .leftParen) ['('],
      .lexeme (.number (Number.ofNumeral "1.5".toList)) ['1', '.', '5'],
      .lexeme (.mark .rightParen) [')'], .lexeme (.mark .dot) ['.'], .lexeme .identifier ['c'],
      .blank ' ', .lexeme (.mark .equal) ['='], .blank ' ', .lexeme (.mark .bang) ['!'],
      .lexeme .identifier ['d']] := by
  have hf : Piece.nameKind ['f'] = .identifier := by decide
  have hc : Piece.nameKind ['c'] = .identifier := by decide
  have hd : Piece.nameKind ['d'] = .identifier := by decide
  have htext : "f(1.5).c = !d".toList =
      ['f', '(', '1', '.', '5', ')', '.', 'c', ' ', '=', ' ', '!', 'd'] := rfl
  rw [htext]
  simp [Piece.cut, Piece.first, Piece.isBlank, Piece.isDigit, Piece.startsName,
    Piece.continuesName, Piece.fraction, Piece.single?, Piece.extensible?, hf, hc, hd]

theorem tree_callAssigned :
    (Front.expression 0 "f(1.5).c = !d").tree? = some callAssigned := by
  unfold Front.expression Front.ofSource scan
  rw [cut_callAssigned, callAssigned]
  -- What the number is makes no difference, and nothing should compute it.
  generalize Number.ofNumeral "1.5".toList = x
  cbv

theorem Front.reprint_callAssigned :
    (Front.expression 0 "f(1.5).c = !d").tree? = some callAssigned ∧ callAssigned.Finite ∧
    callAssigned.source = "f(1.5).c = (!d)" ∧
    ∃ e', (Front.expression 7 callAssigned.source).tree? = some e' ∧
      e'.bare = callAssigned.bare ∧
      ∀ (m : Machine) (scope : Nat), m.Unresolved callAssigned → m.Unresolved e' →
        ∀ o, (∃ b, Run.ending (Evaluation.evaluate b scope callAssigned m) = some o) ↔
          ∃ b, Run.ending (Evaluation.evaluate b scope e' m) = some o :=
  ⟨tree_callAssigned, finite_callAssigned, by decide +kernel,
    Front.reprint tree_callAssigned finite_callAssigned 7⟩

end Lox
