import Lox.Proofs.Grammar.Reading
import Lox.Proofs.Scoping.Formed
import Lox.Proofs.Source.Munch
import Lox.Session

/-!
# The tokens of a text without faults

A text has no lexical fault if and only if all its pieces have their forms. Its tokens are
then the lexemes among the pieces, and the end of the input stands behind them all. So the
tree of a text is derived from lexemes, in which the names are no reserved words.
-/

set_option autoImplicit false

namespace Lox.Piece

/-- The tokens of pieces that start on `line`. -/
def lexemes (line : Nat) : List Piece → List Token
  | [] => []
  | .lexeme k cs :: ps =>
    ⟨k, String.ofList cs, line + newlines cs⟩ :: lexemes (line + newlines cs) ps
  | p :: ps => lexemes (line + newlines p.text) ps

theorem tokens_stream (line : Nat) (ps : List Piece) :
    ∃ last, Scanned.tokens (stream line ps) = lexemes line ps ++ [⟨.finish, "", last⟩] := by
  induction ps generalizing line with
  | nil => exact ⟨line, rfl⟩
  | cons p ps ih =>
    obtain ⟨last, h⟩ := ih (line + newlines p.text)
    apply Exists.intro last
    cases p with
    | lexeme k cs => exact congrArg (_ :: ·) h
    | _ => exact h

theorem faults_stream (line : Nat) (ps : List Piece) :
    Scanned.faults (stream line ps) = [] ↔ ∀ p ∈ ps, p.clean = true := by
  induction ps generalizing line with
  | nil => simp [stream, Scanned.faults]
  | cons p ps ih =>
    have h := ih (line + newlines p.text)
    rw [List.forall_mem_cons, ← h]
    cases p with
    | stray | unterminated =>
      constructor
      · intro hf
        cases hf
      · rintro ⟨hc, -⟩
        cases hc
    | _ =>
      constructor
      · exact fun hf => ⟨rfl, hf⟩
      · exact fun hf => hf.2

theorem mem_lexemes {line : Nat} {ps : List Piece} {t : Token} (h : t ∈ lexemes line ps) :
    .lexeme t.kind t.lexeme.toList ∈ ps := by
  induction ps generalizing line with
  | nil => cases h
  | cons p ps ih =>
    cases p with
    | lexeme k cs =>
      rcases List.mem_cons.1 h with rfl | h
      · simp
      · exact List.mem_cons_of_mem _ (ih h)
    | _ => exact List.mem_cons_of_mem _ (ih h)

/-- A lexeme has its form also in a text with faults. -/
theorem lexeme_of_mem_cut {k : Kind} {cs text : List Char} (h : .lexeme k text ∈ cut cs) :
    Lexeme k text := by
  fun_induction cut cs with
  | case1 => cases h
  | case2 c cs ih =>
    rcases List.mem_cons.1 h with h | h
    · have hclean : (first c cs).1.clean = true := by
        rw [← h]
        rfl
      have hs := (first_sound hclean).1
      rw [← h] at hs
      cases hs with
      | lexeme hl => exact hl
    · exact ih h

theorem Sound.clean {p : Piece} (hp : Sound p) : p.clean = true := by
  cases hp <;> rfl

theorem Fits.sound {ps : List Piece} (h : Fits ps) : ∀ p ∈ ps, Sound p := by
  induction ps with
  | nil => exact nofun
  | cons p ps ih =>
    intro q hq
    rcases List.mem_cons.1 hq with rfl | hq
    · exact h.1
    · exact ih h.2.2 q hq

theorem Fits.lexeme {line : Nat} {ps : List Piece} (h : Fits ps) :
    ∀ t ∈ lexemes line ps, Lexeme t.kind t.lexeme.toList := by
  intro t ht
  cases h.sound _ (mem_lexemes ht) with
  | lexeme h => exact h

namespace Lexeme

variable {k : Kind} {cs : List Char}

theorem ne_finish (h : Lexeme k cs) : k ≠ .finish := by
  cases h with
  | @name c cs =>
    unfold nameKind
    split <;> nofun
  | _ => nofun

theorem identifier (h : Lexeme .identifier cs) :
    nameKind cs = .identifier ∧ ∃ c ds, cs = c :: ds ∧ startsName c = true ∧
      ∀ d ∈ ds, continuesName d = true := by
  generalize hk : Kind.identifier = k at h
  cases h with
  | name hc hcs => exact ⟨rfl, _, _, rfl, hc, hcs⟩
  | _ => cases hk

/-- A reserved word is written as it is spelled. -/
theorem word {w : Word} (h : Lexeme (.word w) cs) : String.ofList cs = w.spelling := by
  generalize hk : Kind.word w = k at h
  cases h with
  | @name c cs =>
    unfold nameKind at hk
    split at hk
    · rename_i w' hw
      obtain rfl := Kind.word.inj hk
      have hs := List.find?_some hw
      exact (beq_iff_eq.1 hs).symm
    · cases hk
  | _ => cases hk

end Lexeme

theorem nameKind_identifier {cs : List Char} :
    nameKind cs = .identifier ↔ Word.ofSpelling? (String.ofList cs) = none := by
  unfold nameKind
  split <;> simp_all

end Lox.Piece

namespace Lox

/-- The end of the input is no lexeme. -/
theorem Piece.ne_finish_of_cut {line : Nat} {cs : List Char} :
    ∀ t ∈ Piece.lexemes line (Piece.cut cs), t.kind ≠ .finish :=
  fun _ ht => (Piece.lexeme_of_mem_cut (Piece.mem_lexemes ht)).ne_finish

/-- A name that is no reserved word. -/
def Free (name : String) : Prop := Word.ofSpelling? name = none

instance (name : String) : Decidable (Free name) := inferInstanceAs (Decidable (_ = none))

theorem Free.ne {name : String} (h : Free name) (w : Word) : name ≠ w.spelling := by
  rintro rfl
  rw [Free, Word.ofSpelling?_spelling] at h
  cases h

theorem Free.notReserved {name : String} (h : Free name) : name ∉ ["this", "super"] := by
  intro hm
  rcases List.mem_cons.1 hm with he | hm
  · exact h.ne .this he
  · exact h.ne .super (List.mem_singleton.1 hm)

/-- The tokens of lexemes are spelled as the grammar expects. -/
theorem Piece.Lexeme.spelled {ok : String → Prop} {t : Token} (h : Lexeme t.kind t.lexeme.toList)
    (hok : t.kind = .identifier → Free t.lexeme → ok t.lexeme) : Grammar.Spelled ok t where
  identifier hk := by
    apply hok hk
    rw [hk] at h
    have hn := nameKind_identifier.1 h.identifier.1
    rwa [String.ofList_toList] at hn
  this hk := by
    rw [hk] at h
    exact String.ofList_toList.symm.trans h.word
  super hk := by
    rw [hk] at h
    exact String.ofList_toList.symm.trans h.word

namespace Front

/-- A reader that reads what derives the phrase of its result. -/
def Exact {α : Type} (reader : Nat → List Token → Grammar.Reading α) (phrase : α → Grammar.Phrase) :
    Prop :=
  ∀ {ts : List Token} {finish : Token} {n k : Nat} {a : α}, (∀ t ∈ ts, t.kind ≠ .finish) →
    finish.kind = .finish → (reader n (ts ++ [finish]) = ⟨.ok a, k⟩ ↔
      Grammar.Derives Grammar.Complete (phrase a) ts n k [])

theorem exact_program : Exact Grammar.readProgram .declarations := Grammar.readProgram_eq_ok_iff

theorem exact_expression : Exact Grammar.readExpression (.expr .assignment) :=
  Grammar.readExpression_eq_ok_iff

section Exact

variable {α : Type} {reader : Nat → List Token → Grammar.Reading α} {phrase : α → Grammar.Phrase}
  {n k : Nat} {a : α} (hx : Exact reader phrase)

include hx

/-- The tree of a text without faults is derived from its lexemes. -/
theorem ofSource_tree {source : String} (h : (ofSource reader n source).tree? = some a) :
    Piece.Fits (Piece.cut source.toList) ∧
      Grammar.Derives Grammar.Complete (phrase a) (Piece.lexemes 1 (Piece.cut source.toList)) n
        (ofSource reader n source).nextId [] := by
  unfold tree? at h
  split at h
  · rename_i b hl hr
    obtain rfl := Option.some.inj h
    have hfit := Piece.fits_cut ((Piece.faults_stream 1 _).1 hl)
    apply And.intro hfit
    obtain ⟨last, hts⟩ := Piece.tokens_stream 1 (Piece.cut source.toList)
    have hf : (Token.mk .finish "" last).kind = .finish := rfl
    rw [← hx (fun t ht => (hfit.lexeme t ht).ne_finish) hf, ← hts]
    rw [← hr]
    rfl
  · cases h

/-- Pieces that fit spell a text whose tree is what their lexemes derive. -/
theorem ofSource_of_fits {ps : List Piece} (hfit : Piece.Fits ps)
    (hd : Grammar.Derives Grammar.Complete (phrase a) (Piece.lexemes 1 ps) n k []) :
    (ofSource reader n (String.ofList (ps.map Piece.text).flatten)).tree? = some a ∧
      (ofSource reader n (String.ofList (ps.map Piece.text).flatten)).nextId = k := by
  have hcut := Piece.cut_eq_of_fits hfit
  have hlexical : Scanned.faults (scan (String.ofList (ps.map Piece.text).flatten)) = [] := by
    rw [scan, String.toList_ofList, hcut, Piece.faults_stream]
    exact fun p hp => (hfit.sound p hp).clean
  obtain ⟨last, hts⟩ := Piece.tokens_stream 1 ps
  have hread : reader n (Scanned.tokens (scan (String.ofList (ps.map Piece.text).flatten))) =
      ⟨.ok a, k⟩ := by
    rw [scan, String.toList_ofList, hcut, hts]
    exact (hx (fun t ht => (hfit.lexeme t ht).ne_finish) rfl).2 hd
  constructor
  · simp only [ofSource, tree?, hlexical, hread]
  · simp only [ofSource, hread]

end Exact

theorem program_tree {n : Nat} {source : String} {program : List Stmt}
    (h : (Front.program n source).tree? = some program) :
    Piece.Fits (Piece.cut source.toList) ∧
      Grammar.Derives Grammar.Complete (.declarations program)
        (Piece.lexemes 1 (Piece.cut source.toList)) n (Front.program n source).nextId [] :=
  ofSource_tree exact_program h

theorem program_of_fits {n k : Nat} {ps : List Piece} {program : List Stmt}
    (hfit : Piece.Fits ps)
    (hd : Grammar.Derives Grammar.Complete (.declarations program) (Piece.lexemes 1 ps) n k []) :
    (Front.program n (String.ofList (ps.map Piece.text).flatten)).tree? = some program ∧
      (Front.program n (String.ofList (ps.map Piece.text).flatten)).nextId = k :=
  ofSource_of_fits exact_program hfit hd

end Front

theorem Front.nextId_program (n : Nat) (source : String) :
    n ≤ (Front.program n source).nextId :=
  Grammar.le_nextId_readProgram n _

end Lox
