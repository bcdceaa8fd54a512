import Mathlib
import Lox.Proofs.Grammar.Prompted
import Lox.Proofs.Grammar.Reading
import Lox.Proofs.Grammar.RelaxedDerivation
import Lox.Proofs.Grammar.Tracked

/-!
# The blamed token is the right one

Main statement: if the tokens do not derive from the relaxed grammar, the first diagnostic
that gives something up is at the first token that is wrong. What stands before that token
can be extended to a program, and with that token it cannot.
-/

set_option autoImplicit false

namespace Lox.Grammar

variable {α : Type} {ts us : List Token} {n k : Nat} {ds : List Diagnostic}

section Derivations

/-- A derivation has only violations that reading goes on behind. -/
theorem Derives.mild {before : Bool → Prop} {p : Phrase} (h : Derives before p ts n k ds) :
    ∀ d ∈ ds, d.unwinds = false := by
  have hbeyond {cause : ParseCause} (hc : cause.unwinds = false) (count : Nat) (ts : List Token) :
      ∀ d ∈ beyond cause count ts, d.unwinds = false := by
    intro d hd
    unfold beyond at hd
    split at hd
    · obtain ⟨t, -, rfl⟩ := List.mem_map.1 hd
      exact hc
    · cases hd
  induction h with
  | argument _ ih => exact List.forall_mem_append.2 ⟨hbeyond rfl _ _, ih⟩
  | moreArguments _ _ _ ihe iha =>
    exact List.forall_mem_append.2 ⟨List.forall_mem_append.2 ⟨hbeyond rfl _ _, ihe⟩, iha⟩
  | invalidTarget _ _ _ _ ihe ihv =>
    exact List.forall_mem_append.2 ⟨List.forall_mem_append.2 ⟨ihe, ihv⟩, by simp; rfl⟩
  | parameter => exact hbeyond rfl _ _
  | moreParameters _ _ _ ih => exact List.forall_mem_append.2 ⟨hbeyond rfl _ _, ih⟩
  | _ => simp_all [or_imp]

end Derivations

section Viable

theorem Viable.of_append {e : Ebnf} (h : Viable e (ts ++ us)) : Viable e ts := by
  obtain ⟨vs, h⟩ := h
  exact ⟨us ++ vs, by rwa [← List.append_assoc]⟩

/-- Tokens of which not all have a property have a first one with which it is lost. -/
theorem exists_first {P : List Token → Prop} (hnil : P []) (ts : List Token) (hts : ¬ P ts) :
    ∃ pre t post, ts = pre ++ t :: post ∧ P pre ∧ ¬ P (pre ++ [t]) := by
  induction ts using List.reverseRecOn with
  | nil => exact absurd hnil hts
  | append_singleton ts t ih =>
    by_cases h : P ts
    · exact ⟨ts, t, [], rfl, h, hts⟩
    · obtain ⟨pre, u, post, rfl, hpre, hu⟩ := ih h
      exact ⟨pre, u, post ++ [t], by simp, hpre, hu⟩

/-- A token that is not the last one stands before it. -/
theorem eq_append_cons {vs x : List Token} {t eof : Token} (h : us ++ t :: x = vs ++ [eof])
    (heof : eof.kind = .finish) (ht : t.kind ≠ .finish) : ∃ y, vs = us ++ t :: y := by
  rcases List.eq_nil_or_concat x with rfl | ⟨y, z, rfl⟩
  · obtain ⟨-, ht'⟩ := List.append_inj' h rfl
    obtain rfl := (List.cons.inj ht').1
    exact absurd heof ht
  · have h : (us ++ t :: y) ++ [z] = vs ++ [eof] := by simpa using h
    exact ⟨y, (List.append_inj' h rfl).1.symm⟩

/-- What is up to the end of the input, and that end. -/
def Ebnf.whole (e : Ebnf) : Ebnf := .all [e, .kind .finish]

theorem matches_whole {e : Ebnf} : Matches e.whole ts ↔
    ∃ us t, ts = us ++ [t] ∧ t.kind = .finish ∧ Matches e us := by
  constructor
  · intro h
    obtain ⟨us, vs, rfl, he, hvs⟩ := matches_seq.1 h
    obtain ⟨t, rfl, ht⟩ := (matches_seq_empty.1 hvs).kind_inv
    exact ⟨us, t, rfl, ht, he⟩
  · rintro ⟨us, t, rfl, ht, he⟩
    exact .seq he (matches_seq_empty.2 (.kind ht))

theorem Viable.whole {e : Ebnf} (h : Viable e ts) : Viable e.whole ts := h.seq _

/-- Behind the end of the input nothing can follow. -/
theorem Viable.matches {e : Ebnf} (he : e.unfinished = true) {finish : Token}
    (hf : finish.kind = .finish) (h : Viable e.whole (ts ++ [finish])) :
    Matches e.whole (ts ++ [finish]) := by
  obtain ⟨us, h⟩ := h
  obtain ⟨vs, t, hvs, -, hm⟩ := matches_whole.1 h
  rcases List.eq_nil_or_concat us with rfl | ⟨us, t', rfl⟩
  · rwa [List.append_nil] at h
  · have hvs : (ts ++ [finish] ++ us) ++ [t'] = vs ++ [t] := by simpa using hvs
    have hmem : finish ∈ vs := by
      rw [← (List.append_inj' hvs rfl).1]
      simp
    exact absurd hf (hm.ne_finish he finish hmem)

end Viable

/-- The diagnostics of a reading, none if it succeeds. -/
def Reading.diagnostics (r : Reading α) : List Diagnostic :=
  match r.result with
  | .ok _ => []
  | .error ds => ds

theorem diagnostics_ofStep {p : Nat → Step α} {finish : Token} (hts : ∀ t ∈ ts, t.kind ≠ .finish)
    (hf : finish.kind = .finish) (n : Nat) :
    (Reading.ofStep p n (ts ++ [finish])).diagnostics =
      reported (p ts.length ⟨ts, finish, n, #[]⟩) := by
  simp only [Reading.ofStep, ofTokens_eq hts hf]
  cases p ts.length ⟨ts, finish, n, #[]⟩ with
  | error d c => exact Array.toList_push
  | ok a c =>
    cases hr : c.reports.isEmpty with
    | true => simp [Reading.diagnostics, reported, Array.isEmpty_iff.1 hr]
    | false => simp [Reading.diagnostics, reported, hr]

/-- The first diagnostic that unwinds is at the first token that is wrong: without it what
is before it can be extended to something that derives from `e`, with it it cannot. -/
def BlamesFirstWrong (e : Ebnf) (ts : List Token) (r : Reading α) : Prop :=
  ∃ pre t post cause, ts = pre ++ t :: post ∧ Viable e pre ∧ ¬ Viable e (pre ++ [t]) ∧
    r.diagnostics.find? Diagnostic.unwinds = some (fault cause t)

theorem matches_nonterminal {r : Nonterminal} :
    Matches (.nonterminal r) ts ↔ Matches (Ebnf.rule r) ts :=
  ⟨fun | .nonterminal h => h, .nonterminal⟩

theorem viable_nonterminal {r : Nonterminal} :
    Viable (.nonterminal r) ts ↔ Viable (Ebnf.rule r) ts :=
  exists_congr fun _ => matches_nonterminal

theorem blamesFirstWrong_nonterminal {r : Nonterminal} {x : Reading α} :
    BlamesFirstWrong (.nonterminal r) ts x ↔ BlamesFirstWrong (Ebnf.rule r) ts x := by
  simp only [BlamesFirstWrong, viable_nonterminal]

/-- A reader of what derives from `e`, up to the end of the input. -/
structure Reader (e : Ebnf) (p : Nat → Step α) : Prop where
  unfinished : e.unfinished = true
  prompt (s n : Nat) : Prompt s 0 n e (p n) (p (n + s))
  ends {n : Nat} {c d : Cursor} {a : α} : c.rest.length ≤ n → p n c = .ok a d → d.rest = []
  reads {ts : List Token} {b : Nat} (finish : Token) (n : Nat) : Matches e ts → ts.length ≤ b →
    ∃ a d, p b ⟨ts, finish, n, #[]⟩ = .ok a d ∧ ∀ x ∈ d.reports.toList, x.unwinds = false

namespace Reader

variable {e : Ebnf} {p : Nat → Step α} (hp : Reader e p) {finish : Token}

include hp

/-- With nothing wrong, nothing is blamed. -/
theorem not_blames (hts : Matches e ts) {b : Nat} (hb : ts.length ≤ b) {d : Diagnostic} :
    ¬ Blames ⟨us, finish, n, #[]⟩ d (p b ⟨ts, finish, n, #[]⟩) := by
  rintro ⟨mild, more, hr, -, hd⟩
  obtain ⟨a, c, hok, hmild⟩ := hp.reads finish n hts hb
  rw [hok] at hr
  have hmem : d ∈ c.reports.toList := by
    have hr : c.reports.toList = [] ++ (mild ++ d :: more) := hr
    rw [hr]
    simp
  rw [hmild d hmem] at hd
  cases hd

/-- The first token that is wrong is blamed, whatever stands behind it. -/
theorem blames (hts : ∀ t ∈ ts, t.kind ≠ .finish) (hf : finish.kind = .finish) (n : Nat)
    (hno : ¬ Matches e.whole (ts ++ [finish])) :
    ∃ pre t post cause, ts ++ [finish] = pre ++ t :: post ∧ Viable e.whole pre ∧
      ¬ Viable e.whole (pre ++ [t]) ∧
      Blames ⟨ts, finish, n, #[]⟩ (fault cause t) (p ts.length ⟨ts, finish, n, #[]⟩) := by
  obtain ⟨pre, t, post, hpost, hpre, ht⟩ := exists_first (viable_nil e.whole) (ts ++ [finish])
    fun h => hno (h.matches hp.unfinished hf)
  refine ⟨pre, t, post, ?_⟩
  -- The bound suffices for what the tokens before `t` can be extended to, too.
  obtain ⟨ws, hws⟩ := id hpre
  obtain ⟨vs, eof, hvs, heof, hm⟩ := matches_whole.1 hws
  have hr := (hp.prompt vs.length ts.length).reaches ⟨ts, finish, n, #[]⟩ (Nat.le_refl _)
  generalize hres : p ts.length ⟨ts, finish, n, #[]⟩ = r at hr
  cases hr with
  | @ok a d us _ hrest _ hus =>
    rw [hp.ends (c := ⟨ts, finish, n, #[]⟩) (Nat.le_refl _) hres, List.append_nil] at hrest
    exact absurd (matches_whole.2 ⟨us, finish, congrArg (· ++ [finish]) hrest, hf, hus⟩) hno
  | @stuck _ us rest cause hrest hus hr hsame =>
    have hrest : ts = us ++ rest := hrest
    suffices hhere : rest.headD finish = t from ⟨cause, hpost, hpre, ht, hhere ▸ hr⟩
    have hhead (h : rest ++ [finish] = t :: post) : rest.headD finish = t := by
      cases rest <;> exact (List.cons.inj h).1
    have hat : us ++ (rest ++ [finish]) = pre ++ t :: post := by
      rw [← hpost, hrest, List.append_assoc]
    rcases List.append_eq_append_iff.1 hat with ⟨x, rfl, hx⟩ | ⟨x, rfl, hx⟩
    · cases x with
      | nil => exact hhead hx
      | cons t' x =>
        -- Blamed too early: the step would blame `t'` also where all is right.
        cases rest with
        | nil =>
          have hx : [] = x ++ t :: post := (List.cons.inj hx).2
          exact absurd hx.symm (List.append_ne_nil_of_right_ne_nil x (List.cons_ne_nil t post))
        | cons t'' rest =>
          obtain rfl : t'' = t' := (List.cons.inj hx).1
          rw [List.append_assoc, List.cons_append] at hvs
          obtain ⟨y, rfl⟩ := eq_append_cons hvs heof (hts t'' (by simp [hrest]))
          exact absurd (hsame (t'' :: y) (by simp) rfl) (hp.not_blames hm (Nat.le_add_left ..))
    · cases x with
      | nil => exact hhead hx.symm
      | cons t' x =>
        -- Not blamed in time: what is consumed is viable, and `t` with it.
        obtain rfl := (List.cons.inj hx).1
        have hlonger : Viable e.whole (pre ++ [t] ++ x) := by simpa using hus.whole
        exact absurd hlonger.of_append ht

theorem blamesFirstWrong (hts : ∀ t ∈ ts, t.kind ≠ .finish) (hf : finish.kind = .finish) (n : Nat)
    (hno : ¬ Matches e.whole (ts ++ [finish])) :
    BlamesFirstWrong e.whole (ts ++ [finish]) (Reading.ofStep p n (ts ++ [finish])) := by
  obtain ⟨pre, t, post, cause, hat, hpre, ht, mild, more, hr, hmild, hcause⟩ :=
    hp.blames hts hf n hno
  refine ⟨pre, t, post, cause, hat, hpre, ht, ?_⟩
  have hnone : mild.find? Diagnostic.unwinds = none := by simpa using hmild
  rw [diagnostics_ofStep hts hf, hr, Array.toList_empty, List.nil_append, List.find?_append, hnone,
    Option.none_or, List.find?_cons_of_pos hcause]

/-- The tokens derive from the grammar if and only if no declaration is given up. -/
theorem matches_iff (hts : ∀ t ∈ ts, t.kind ≠ .finish) (hf : finish.kind = .finish) (n : Nat) :
    Matches e.whole (ts ++ [finish]) ↔
      (Reading.ofStep p n (ts ++ [finish])).diagnostics.find? Diagnostic.unwinds = none := by
  constructor
  · intro h
    obtain ⟨us, t, hus, -, hm⟩ := matches_whole.1 h
    obtain rfl := (List.append_inj' hus rfl).1
    obtain ⟨a, d, hok, hmild⟩ := hp.reads finish n hm (Nat.le_refl _)
    rw [diagnostics_ofStep hts hf, hok]
    simpa [reported] using hmild
  · intro h
    by_contra hno
    obtain ⟨_, _, _, _, -, -, -, hsome⟩ := hp.blamesFirstWrong hts hf n hno
    rw [h] at hsome
    cases hsome

end Reader

section Readers

/-- Reading a declaration consumes a token. -/
theorem length_of_declaration {c d : Cursor} {o : Option Stmt} (hne : c.rest ≠ [])
    (hc : c.rest.length ≤ n + 1)
    (h : declarationWith (n + 1) (statement n) (declarations n) c = .ok o d) :
    d.rest.length < c.rest.length := by
  let S : Setting := ⟨⟨0, 0⟩, [], c.finish, #[], 0, False, False.elim⟩
  obtain ⟨hinner, hbody⟩ := Setting.Tracks.statement_declarations (S := S) n
  have hr := (Setting.Tracks.declaring hinner hbody).recovering c _ hne hc
    (S.follows_follower id c)
  rw [← declarationWith_eq, h] at hr
  generalize recovering (declaring _ _ _) _ = r at hr
  cases hr with
  | ok hd _ =>
    have hlen := hd.length
    omega
  | spent hd _ => simpa [hd] using List.length_pos_iff.2 hne

theorem ok_of_bind {β : Type} {p : Step α} {f : α → Step β} {c d : Cursor} {b : β}
    (h : (p >>= f) c = .ok b d) : ∃ a c', p c = .ok a c' ∧ f a c' = .ok b d := by
  rw [bind_apply] at h
  cases hp : p c with
  | ok a c' =>
    rw [hp] at h
    exact ⟨a, c', rfl, h⟩
  | error e c' =>
    rw [hp] at h
    cases h

/-- Nothing is left behind a program. -/
theorem rest_of_topLevel {c d : Cursor} {ss : List Stmt} (hc : c.rest.length ≤ n)
    (h : topLevel n c = .ok ss d) : d.rest = [] := by
  induction n generalizing c ss with
  | zero =>
    cases h
    exact List.length_eq_zero_iff.1 (Nat.le_zero.1 hc)
  | succ n ih =>
    rw [topLevel] at h
    obtain ⟨b, c', hb, h⟩ := ok_of_bind h
    rw [atEnd_eq] at hb
    cases hb
    cases hend : c.rest.isEmpty with
    | true =>
      rw [hend] at h
      cases h
      exact List.isEmpty_iff.1 hend
    | false =>
      rw [hend, if_neg Bool.false_ne_true] at h
      obtain ⟨o, c', ho, h⟩ := ok_of_bind h
      obtain ⟨ss, c'', hss, h⟩ := ok_of_bind h
      cases h
      have hne : c.rest ≠ [] := fun hnil => by simp [hnil] at hend
      have hless := length_of_declaration hne hc ho
      exact ih (by omega) hss

theorem reader_topLevel : Reader Prompt.inside topLevel where
  unfinished := by decide
  prompt := Prompt.topLevel
  ends := rest_of_topLevel
  reads {ts b} finish n hm hb := by
    obtain ⟨cs, hcs, rfl⟩ := hm.parses
    obtain ⟨ss, k, ds, hd, -⟩ := has_declarations hcs.mem_meaning n
    obtain ⟨ss, hd⟩ := hd.derivable
    refine ⟨ss, ⟨[], finish, k, #[] ++ ds.toArray⟩, ?_, by simpa using hd.mild⟩
    simpa [pure_apply] using hd.reads.2 b hb finish #[]

/-- Nothing is left behind an expression on its own. -/
theorem rest_of_wholeExpression {c d : Cursor} {e : Expr} (h : wholeExpression n c = .ok e d) :
    d.rest = [] := by
  obtain ⟨e', c', -, h⟩ := ok_of_bind h
  obtain ⟨b, c'', hb, h⟩ := ok_of_bind h
  rw [atEnd_eq] at hb
  cases hb
  cases hend : c'.rest.isEmpty with
  | true =>
    rw [hend] at h
    cases h
    exact List.isEmpty_iff.1 hend
  | false =>
    rw [hend] at h
    cases h

theorem reader_wholeExpression : Reader .expression wholeExpression where
  unfinished := by decide
  prompt := Prompt.wholeExpression
  ends _ := rest_of_wholeExpression
  reads {ts b} finish n hm hb := by
    obtain ⟨cs, hcs, rfl⟩ := hm.parses
    obtain ⟨_, -, hexpr⟩ := hcs.mem_meaning
    obtain ⟨e, k, ds, hd, -⟩ := hexpr n
    have hd : Derives Complete (.expr .assignment e) (ParseTree.tokensAll cs) n k ds := hd.derivable
    refine ⟨e, ⟨[], finish, k, #[] ++ ds.toArray⟩, ?_, by simpa using hd.mild⟩
    simpa [pure_apply] using hd.wholeExpression hb finish #[]

end Readers

/-- A program, and likewise an expression, that does not derive from the grammar is blamed
on the first token that is wrong. -/
theorem blames_first_wrong {finish : Token} (hts : ∀ t ∈ ts, t.kind ≠ .finish)
    (hf : finish.kind = .finish) (n : Nat) :
    (¬ Matches (.nonterminal .program) (ts ++ [finish]) →
      BlamesFirstWrong (.nonterminal .program) (ts ++ [finish])
        (readProgram n (ts ++ [finish]))) ∧
    (¬ Matches (.nonterminal .input) (ts ++ [finish]) →
      BlamesFirstWrong (.nonterminal .input) (ts ++ [finish])
        (readExpression n (ts ++ [finish]))) := by
  constructor
  · intro hno
    rw [matches_nonterminal] at hno
    exact blamesFirstWrong_nonterminal.2 (reader_topLevel.blamesFirstWrong hts hf n hno)
  · intro hno
    rw [matches_nonterminal] at hno
    exact blamesFirstWrong_nonterminal.2 (reader_wholeExpression.blamesFirstWrong hts hf n hno)

/-- The tokens of `{ print a }`. -/
def bracedPrint : List Token :=
  [⟨.mark .leftBrace, "\x7b", 1⟩, ⟨.word .print, "print", 1⟩, ⟨.identifier, "a", 1⟩,
    ⟨.mark .rightBrace, "\x7d", 1⟩]

theorem blames_first_wrong_bracedPrint : (∀ t ∈ bracedPrint, t.kind ≠ .finish) ∧
    BlamesFirstWrong (.nonterminal .program) (bracedPrint ++ [⟨.finish, "", 1⟩])
      (readProgram 0 (bracedPrint ++ [⟨.finish, "", 1⟩])) ∧
    BlamesFirstWrong (.nonterminal .input) (bracedPrint ++ [⟨.finish, "", 1⟩])
      (readExpression 0 (bracedPrint ++ [⟨.finish, "", 1⟩])) := by
  have hts : ∀ t ∈ bracedPrint, t.kind ≠ .finish := by decide
  have hprogram : ¬ Matches (.nonterminal .program) (bracedPrint ++ [⟨.finish, "", 1⟩]) := by
    rw [matches_nonterminal]
    apply (reader_topLevel.matches_iff hts rfl 0).not.2
    cbv
    exact Option.some_ne_none _
  have hinput : ¬ Matches (.nonterminal .input) (bracedPrint ++ [⟨.finish, "", 1⟩]) := by
    rw [matches_nonterminal]
    apply (reader_wholeExpression.matches_iff hts rfl 0).not.2
    cbv
    exact Option.some_ne_none _
  have h := @blames_first_wrong bracedPrint ⟨.finish, "", 1⟩ hts rfl 0
  exact ⟨hts, h.1 hprogram, h.2 hinput⟩

end Lox.Grammar
