import Lox.Proofs.Grammar.Anywhere
import Lox.Proofs.Grammar.Tracked

/-!
# Faults stay where they are

A program is cut into items, each a declaration or a malformed statement that ends with its
only semicolon. Main statement: reading the whole reports what reading each item on its own
does, in the order of the items. A declaration ends where it ends alone, whatever follows,
and from wherever a malformed statement fails, reading goes on just behind it.
-/

set_option autoImplicit false

namespace Lox.Grammar

/-- The diagnostics of a program, none if it can be read. -/
def diagnostics (n : Nat) (ts : List Token) : List Diagnostic :=
  match (readProgram n ts).result with
  | .ok _ => []
  | .error ds => ds

/-- The tokens derive from `declaration`. -/
structure WellFormed (ts : List Token) : Prop where
  unfinished : ∀ t ∈ ts, t.kind ≠ .finish
  derives : ∃ s k, Derives Anything (.declaration s) ts 0 k []

/-- A statement without braces that ends with its only semicolon. No word in it could begin
another statement, and read alone it fails at one of its own tokens. -/
structure Malformed (ts : List Token) : Prop where
  ends : ∃ us s, ts = us ++ [s] ∧ s.kind = .mark .semicolon ∧ ∀ t ∈ us, t.kind ≠ .mark .semicolon
  unfinished : ∀ t ∈ ts, t.kind ≠ .finish
  braceless : ∀ t ∈ ts, t.kind ≠ .mark .leftBrace ∧ t.kind ≠ .mark .rightBrace
  single : ∀ t ∈ ts.tail, startsStatement t.kind = false
  start : ∀ t ∈ ts.head?, t.kind ≠ .word .else
  fails : ∃ finish d c, declaring ts.length (statement (ts.length - 1))
    (declarations (ts.length - 1)) ⟨ts, finish, 0, #[]⟩ = .error d c ∧ c.rest ≠ []

/-- What can be read on its own. -/
def Item (ts : List Token) : Prop := WellFormed ts ∨ Malformed ts

variable {ts us : List Token} {n : Nat} {ds : List Diagnostic}

/-- From inside a malformed statement a boundary is found behind its semicolon. -/
theorem boundary_semicolon {t s : Token} {us rest : List Token} (hs : s.kind = .mark .semicolon)
    (hts : t :: ts = us ++ [s]) (hus : ∀ u ∈ us, u.kind ≠ .mark .semicolon)
    (hwords : ∀ u ∈ ts, startsStatement u.kind = false) : boundary t (ts ++ rest) = rest := by
  induction ts generalizing t us with
  | nil =>
    obtain ⟨rfl, rfl⟩ : us = [] ∧ t = s := by
      cases us with
      | nil => exact ⟨rfl, (List.cons.inj hts).1⟩
      | cons u us => simp at hts
    cases rest with
    | nil => rfl
    | cons u rest =>
      show boundary t (u :: rest) = u :: rest
      unfold boundary
      rw [if_pos (by simp [hs])]
  | cons u ts ih =>
    cases us with
    | nil => simp at hts
    | cons v us =>
      obtain ⟨rfl, htail⟩ := List.cons.inj hts
      have hstop : (t.kind == .mark .semicolon || startsStatement u.kind) = false := by
        simp [hus t List.mem_cons_self, hwords u List.mem_cons_self]
      show boundary t (u :: (ts ++ rest)) = rest
      unfold boundary
      rw [hstop]
      apply ih htail
      · exact fun w hw => hus w (List.mem_cons_of_mem _ hw)
      · exact fun w hw => hwords w (List.mem_cons_of_mem _ hw)

/-- Wherever they stand, the tokens are read as one declaration, with these diagnostics. -/
def Reports (ts : List Token) (ds : List Diagnostic) : Prop :=
  ∀ n b rest, (ts ++ rest).length ≤ b + 1 → Avoids (· == .word .else) rest → ∃ s k,
    Consumes (declarationWith (b + 1) (statement b) (declarations b)) ts rest n k ds (pure s)

/-- Whatever stands behind it, a malformed statement is passed over as if it stood alone. -/
theorem Malformed.reports (h : Malformed ts) : ∃ ds, ds ≠ [] ∧ Reports ts ds := by
  obtain ⟨finish, d, c, hfail, hrest⟩ := h.fails
  obtain ⟨us, s, hts, hs, hus⟩ := h.ends
  refine ⟨c.reports.toList ++ [d], by simp, ?_⟩
  intro n b rest hb _
  refine ⟨none, c.nextId + n, ?_⟩
  intro finish' reports
  obtain ⟨m, hm⟩ : ∃ m, ts.length = m + 1 := ⟨us.length, by simp [hts]⟩
  obtain ⟨j, rfl⟩ : ∃ j, b = m + j := ⟨b - m, by simp at hb; omega⟩
  let S : Setting := ⟨⟨n, 0⟩, rest, finish', reports, j, False, False.elim⟩
  have hfollows : S.Follows ⟨ts, finish, 0, #[]⟩ ⟨ts ++ rest, finish', n, reports⟩ := {
    rest := by simp [S, Token.map_shift_ids]
    finish := rfl
    same := False.elim
    nextId := (Nat.zero_add n).symm
    reports := by simp [S] }
  obtain ⟨hinner, hbody⟩ := Setting.Tracks.statement_declarations (S := S) m
  have h' := Setting.Tracks.declaring hinner hbody _ _ (Nat.le_of_eq hm) hfollows
  rw [hm, Nat.add_sub_cancel] at hfail
  rw [hfail] at h'
  rw [declarationWith_eq, recovering_apply]
  have hj : m + j + 1 = m + 1 + S.spare := Nat.add_right_comm m j 1
  rw [hj]
  generalize declaring (m + 1 + S.spare) (statement (m + j)) (declarations (m + j))
    ⟨ts ++ rest, finish', n, reports⟩ = r at h' ⊢
  cases h' with
  | spentError hnil => exact absurd hnil hrest
  | @error _ _ c' huntil hf =>
    obtain ⟨vs, hvs, -⟩ := huntil
    obtain ⟨t, ws, hc⟩ := List.exists_cons_of_ne_nil hrest
    have hvs : ts = vs ++ t :: ws := hc ▸ hvs
    obtain ⟨ys, hys, hleft⟩ : ∃ ys, t :: ws = ys ++ [s] ∧ us = vs ++ ys := by
      rcases List.eq_nil_or_concat (t :: ws) with hnil | ⟨ys, y, hy⟩
      · cases hnil
      · rw [hts, hy, List.concat_eq_append, ← List.append_assoc] at hvs
        obtain ⟨hleft, hright⟩ := List.append_inj' hvs rfl
        obtain rfl : s = y := (List.cons.inj hright).1
        exact ⟨ys, hy.trans List.concat_eq_append, hleft⟩
    have hboundary : boundary t (ws ++ rest) = rest := by
      apply boundary_semicolon hs hys
      · intro u hu
        exact hus u (hleft ▸ List.mem_append_right _ hu)
      · intro u hu
        apply h.single
        rw [hvs]
        cases vs with
        | nil => exact hu
        | cons v vs => exact List.mem_append_right _ (List.mem_cons_of_mem _ hu)
    have hrest' : c'.rest = t :: (ws ++ rest) := by
      rw [hf.cons hc, Token.map_shift_ids]
      rfl
    have hreports : c'.reports = reports ++ c.reports := by
      rw [hf.reports]
      congr 1
      exact (Array.map_congr_left fun d _ => Diagnostic.shift_ids n d).trans (Array.map_id _)
    have hd : d.shift S.shift = d := Diagnostic.shift_ids n d
    dsimp only
    rw [hd]
    simp only [Cursor.passOver, hrest', hboundary, hreports, hf.finish, hf.nextId]
    have hpush : c.reports.push d = (c.reports.toList ++ [d]).toArray := Array.ext' (by simp)
    rw [Array.append_push.symm, hpush]
    rfl

/-- A declaration whose tokens stand alone in a program. -/
theorem Derives.single {s : Stmt} {before : Bool → Prop} {k : Nat}
    (h : Derives before (.declarations [s]) ts n k []) :
    Derives before (.declaration s) ts n k [] := by
  generalize hp : Phrase.declarations [s] = p, hds : ([] : List Diagnostic) = ds at h
  cases h with
  | moreDeclarations hs hss =>
    cases hp
    cases hss
    obtain ⟨rfl, -⟩ := List.append_eq_nil_iff.1 hds.symm
    simpa using hs
  | _ => cases hp

/-- Where identities are counted from does not matter. -/
theorem WellFormed.declares (h : WellFormed ts) : Anywhere .declaration ts := by
  obtain ⟨s, k, hs⟩ := h.derives
  obtain ⟨s, hs⟩ := hs.derivable
  exact hs.anywhere rfl

theorem WellFormed.reports (h : WellFormed ts) : Reports ts [] := by
  intro n b rest hb helse
  obtain ⟨s, k, hs⟩ := h.declares n
  exact ⟨some s, k, hs.reads b rest hb helse⟩

theorem Item.reports (h : Item ts) : ∃ ds, Reports ts ds := by
  rcases h with h | h
  · exact ⟨[], h.reports⟩
  · obtain ⟨ds, -, hds⟩ := h.reports
    exact ⟨ds, hds⟩

theorem Item.starts (h : Item ts) : ∃ t us, ts = t :: us ∧ t.kind ≠ .word .else := by
  rcases h with h | h
  · obtain ⟨s, k, hs⟩ := h.derives
    obtain ⟨t, us, rfl, ht⟩ := hs.starts rfl
    refine ⟨t, us, rfl, ?_⟩
    intro hk
    rw [hk] at ht
    cases ht
  · obtain ⟨us, s, hts, -⟩ := h.ends
    cases us with
    | nil => exact ⟨s, [], hts, h.start s (by simp [hts])⟩
    | cons u us => exact ⟨u, us ++ [s], hts, h.start u (by simp [hts])⟩

theorem Item.unfinished (h : Item ts) : ∀ t ∈ ts, t.kind ≠ .finish := by
  rcases h with h | h
  · exact h.unfinished
  · exact h.unfinished

/-- An item in front of tokens that are read to the end. -/
theorem Reports.topLevel {es : List Diagnostic} (h : Reports ts ds) (hts : ts ≠ [])
    (helse : Avoids (· == .word .else) us)
    (hus : ∀ n b, us.length ≤ b → ∃ ss k, Consumes (topLevel b) us [] n k es (pure ss))
    {b : Nat} (hb : (ts ++ us).length ≤ b) :
    ∃ ss k, Consumes (Grammar.topLevel b) (ts ++ us) [] n k (ds ++ es) (pure ss) := by
  obtain ⟨t, ts, rfl⟩ := List.exists_cons_of_ne_nil hts
  obtain ⟨b, rfl⟩ : ∃ b', b = b' + 1 := ⟨b - 1, by simp at hb; omega⟩
  obtain ⟨s, m, hs⟩ := h n b us hb helse
  obtain ⟨ss, k, hss⟩ := hus m b (by simp at hb; omega)
  refine ⟨s.toList ++ ss, k, ?_⟩
  rw [← List.append_nil us] at hs
  exact .atEnd_no (.of_eq (hs.bind (hss.ending rfl)) (by simp) rfl)

theorem diagnostics_eq {ss : List Stmt} {k : Nat} {finish : Token}
    (hts : ∀ t ∈ ts, t.kind ≠ .finish) (hf : finish.kind = .finish)
    (h : Consumes (topLevel ts.length) ts [] n k ds (pure ss)) :
    diagnostics n (ts ++ [finish]) = ds ∧
      (ds = [] → (readProgram n (ts ++ [finish])).result = .ok ss) := by
  have hrun : Grammar.topLevel ts.length ⟨ts, finish, n, #[]⟩ =
      .ok ss ⟨[], finish, k, ds.toArray⟩ := by
    simpa [pure_apply] using h finish #[]
  unfold diagnostics readProgram Reading.ofStep
  simp only [ofTokens_eq hts hf, hrun]
  cases ds with
  | nil => exact ⟨rfl, fun _ => rfl⟩
  | cons d ds => exact ⟨rfl, nofun⟩

theorem Reports.diagnostics {finish : Token} (h : Reports ts ds) (hitem : Item ts)
    (hf : finish.kind = .finish) (n : Nat) : Grammar.diagnostics n (ts ++ [finish]) = ds := by
  obtain ⟨t, us, ht, -⟩ := hitem.starts
  have hnil (n b : Nat) (_ : ([] : List Token).length ≤ b) :
      ∃ ss k, Consumes (Grammar.topLevel b) [] [] n k [] (pure ss) :=
    have hnone : Derives Complete (.declarations []) [] n n [] := .noDeclaration
    ⟨[], n, hnone.reads.2 b (Nat.zero_le b)⟩
  obtain ⟨ss, k, hss⟩ := h.topLevel (n := n) (by simp [ht]) (avoids_nil _) hnil (Nat.le_refl _)
  rw [List.append_nil, List.append_nil] at hss
  exact (diagnostics_eq hitem.unfinished hf hss).1

/-- Items one after another are read one after another. -/
theorem topLevel_items {items : List (List Token)} (h : ∀ ts ∈ items, Item ts) {finish : Token}
    (hf : finish.kind = .finish) (m n b : Nat) (hb : items.flatten.length ≤ b) :
    ∃ ss k, Consumes (topLevel b) items.flatten [] n k
      (items.flatMap fun ts => diagnostics m (ts ++ [finish])) (pure ss) := by
  induction items generalizing n b with
  | nil =>
    have hnone : Derives Complete (.declarations []) [] n n [] := .noDeclaration
    exact ⟨[], n, hnone.reads.2 b hb⟩
  | cons ts items ih =>
    have hitem := h ts List.mem_cons_self
    have hitems (us : List Token) (hus : us ∈ items) := h us (List.mem_cons_of_mem ts hus)
    obtain ⟨ds, hds⟩ := hitem.reports
    obtain ⟨t, us, ht, -⟩ := hitem.starts
    have helse : Avoids (· == .word .else) items.flatten := by
      cases items with
      | nil => exact avoids_nil _
      | cons us items =>
        obtain ⟨u, vs, rfl, hu⟩ := (hitems us List.mem_cons_self).starts
        exact avoids_cons.2 (beq_eq_false_iff_ne.2 hu)
    rw [List.flatMap_cons, hds.diagnostics hitem hf m, List.flatten_cons]
    exact hds.topLevel (by simp [ht]) helse (fun n b hb => ih hitems n b hb) hb

/-- A program made of declarations and malformed statements is read with exactly the
diagnostics that each of them has alone, in order. A declaration has none, and the program
can be read if and only if no statement in it is malformed. -/
theorem diagnostics_items {items : List (List Token)} (h : ∀ ts ∈ items, Item ts)
    {finish : Token} (hf : finish.kind = .finish) (n : Nat) :
    diagnostics n (items.flatten ++ [finish]) =
      (items.flatMap fun ts => diagnostics n (ts ++ [finish])) ∧
    (∀ ts ∈ items, WellFormed ts → diagnostics n (ts ++ [finish]) = []) ∧
    ((∃ program, (readProgram n (items.flatten ++ [finish])).result = .ok program) ↔
      ∀ ts ∈ items, WellFormed ts) := by
  have hts : ∀ t ∈ items.flatten, t.kind ≠ .finish := by
    intro t ht
    obtain ⟨ts, hmem, ht⟩ := List.mem_flatten.1 ht
    exact (h ts hmem).unfinished t ht
  obtain ⟨ss, k, hss⟩ := topLevel_items h hf n n _ (Nat.le_refl _)
  have hnone (ts : List Token) (hw : WellFormed ts) : diagnostics n (ts ++ [finish]) = [] :=
    hw.reports.diagnostics (.inl hw) hf n
  refine ⟨(diagnostics_eq hts hf hss).1, fun ts _ hw => hnone ts hw, ?_, ?_⟩
  · rintro ⟨program, hread⟩ ts hmem
    refine (h ts hmem).resolve_right fun hm => ?_
    obtain ⟨ds, hne, hds⟩ := hm.reports
    have hall : diagnostics n (items.flatten ++ [finish]) = [] := by
      unfold diagnostics
      rw [hread]
    rw [(diagnostics_eq hts hf hss).1] at hall
    have hown := List.flatMap_eq_nil_iff.1 hall ts hmem
    rw [hds.diagnostics (.inr hm) hf n] at hown
    exact hne hown
  · intro hall
    refine ⟨ss, (diagnostics_eq hts hf hss).2 ?_⟩
    exact List.flatMap_eq_nil_iff.2 fun ts hmem => hnone ts (hall ts hmem)

/-- The tokens of `print a;` and of `var ( = b;`. -/
def printName : List Token :=
  [⟨.word .print, "print", 1⟩, .ofName "a" 1, ⟨.mark .semicolon, ";", 1⟩]

def varParen : List Token :=
  [⟨.word .var, "var", 2⟩, ⟨.mark .leftParen, "(", 2⟩, ⟨.mark .equal, "=", 2⟩, .ofName "b" 2,
    ⟨.mark .semicolon, ";", 2⟩]

theorem item_printName : Item printName := by
  refine .inl ⟨by simp [printName, Token.ofName], ?_⟩
  have hts : ∀ t ∈ printName, t.kind ≠ .finish := by simp [printName, Token.ofName]
  have hf : (⟨.finish, "", 1⟩ : Token).kind = .finish := rfl
  have hread : readProgram 0 (printName ++ [⟨.finish, "", 1⟩]) =
      ⟨.ok [.print (.var ⟨0, .ofName "a" 1⟩)], 1⟩ := rfl
  exact ⟨_, _, ((readProgram_eq_ok_iff hts hf).1 hread).single.anything⟩

theorem item_varParen : Item varParen := by
  refine .inr ?_
  exact {
    ends := ⟨varParen.take 4, ⟨.mark .semicolon, ";", 2⟩, rfl, rfl,
      by simp [varParen, Token.ofName]⟩
    unfinished := by simp [varParen, Token.ofName]
    braceless := by simp [varParen, Token.ofName]
    single := by simp [varParen, Token.ofName, startsStatement]
    start := by simp [varParen]
    fails := ⟨⟨.finish, "", 2⟩, _, _, rfl, by simp⟩ }

theorem diagnostics_items_var :
    (∀ ts ∈ [varParen, printName, varParen], Item ts) ∧
    diagnostics 0 (varParen ++ printName ++ varParen ++ [⟨.finish, "", 2⟩]) =
      [.parse 2 (.lexeme "(") (.missing .variableName),
        .parse 2 (.lexeme "(") (.missing .variableName)] := by
  have h : ∀ ts ∈ [varParen, printName, varParen], Item ts := by
    simp only [List.mem_cons, List.not_mem_nil, or_false]
    rintro ts (rfl | rfl | rfl)
    · exact item_varParen
    · exact item_printName
    · exact item_varParen
  have hf : (⟨.finish, "", 2⟩ : Token).kind = .finish := rfl
  exact ⟨h, (diagnostics_items h hf 0).1⟩

end Lox.Grammar
