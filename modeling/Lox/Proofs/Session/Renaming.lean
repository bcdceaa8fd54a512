import Mathlib
import Lox.Proofs.Session.History
import Lox.Proofs.Source.Respelling

/-!
# Renaming a local declaration

Main statement: give a local variable or a parameter, and every occurrence bound to it, a
name that the program does not have. The outcome is accepted with the same depths, and run
from the same session it prints the same, with the same report.
-/

set_option autoImplicit false

namespace Lox

open Scoping Simulation

namespace Scoping

theorem filterMap_outlines (found : List Finding) :
    (outlines found).filterMap id = (lookups found).map fun p => (p.1.id, p.2) := by
  induction found with
  | nil => rfl
  | cons g found ih =>
    cases g with
    | fault => exact ih
    | lookup => exact congrArg (_ :: ·) ih

theorem faults_of_outlines {found found' : List Finding} (h : outlines found' = outlines found)
    (hf : faults found = []) : faults found' = [] := by
  have hiff (l : List Finding) : faults l = [] ↔ none ∉ outlines l := by
    induction l with
    | nil => simp [faults]
    | cons g l ih =>
      cases g with
      | fault => simp [faults, Finding.fault?, Finding.outline]
      | lookup => simpa [faults, Finding.fault?, Finding.outline] using ih
  rw [hiff, h, ← hiff]
  exact hf

/-- The exchange of the old and the new name suits a program without the new one. -/
theorem suits_change {x y : String} (hx : Free x) (hy : Free y) :
    Suits (fun n => Free n ∧ n ≠ y)
      (.swap x y hx.notReserved hy.notReserved)
      (change x y) where
  reserved n hn := ⟨hn.1.ne .this, hn.1.ne .super⟩
  spells n hn := by
    show Equiv.swap x y n = _
    unfold change
    split
    · rename_i he
      rw [he, Equiv.swap_apply_left]
    · rename_i he
      exact Equiv.swap_apply_of_ne_of_ne he hn.2
  fresh n hn := by
    unfold change
    split
    · exact .inr fun h => h.2 rfl
    · exact .inl rfl

/-- The renamed name is one of the program. -/
theorem Renames.named {ok : String → Prop} {x y : String} {fs : Frames} {c c' : Code}
    (h : Renames x y fs c c') (hc : c.Formed ok) : ok x := by
  have hvar {t : Token} {e : Option Expr} {ss : List Stmt} (ht : .var t e ∈ ss)
      (hx : t.lexeme = x) (hss : Stmt.AllFormed ok ss) : ok x := by
    induction ss with
    | nil => cases ht
    | cons s ss ih =>
      rcases List.mem_cons.1 ht with rfl | ht
      · exact hx ▸ hss.1.1
      · exact ih ht hss.2
  induction h with
  | ofBlock ht hx => exact hvar ht hx hc
  | @ofParameter fs p f hp hx =>
    cases f with
    | mk => exact hx ▸ hc.2.1 p hp
  | @ofBody fs t e f ht hx =>
    cases f with
    | mk => exact hvar ht hx hc.2.2
  | inBlock _ ih => exact ih hc
  | inYes _ ih => exact ih hc.2.1
  | inNo _ ih => exact ih hc.2.2.2.1
  | inLoop _ ih => exact ih hc.2.1
  | inFunction _ ih => exact ih hc
  | inBody _ ih => exact ih hc.2.2
  | inClass _ ih => exact ih hc.2.2
  | first _ ih => exact ih hc.1
  | later _ ih => exact ih hc.2
  | firstMethod _ ih => exact ih hc.1
  | laterMethod _ ih => exact ih hc.2

end Scoping

namespace Session

/-- What scoping finds of a reference, without its name. -/
def depths (program : List Stmt) : List (Nat × Option Nat) :=
  (lookups (Scoping.program program)).map fun p => (p.1.id, p.2)

section Renamed

variable {s : Session} {source : String} {program program' : List Stmt} {x y : String}
  (ha : s.accepted? source = some program) (hy : Piece.Lexeme .identifier y.toList)
  (hnew : ∀ t ∈ Scanned.tokens (scan source), t.lexeme ≠ y)
  (hr : Renames x y [] (.stmts program) (.stmts program'))

include ha hnew in
theorem formed_of_new : Stmt.AllFormed (fun n => Free n ∧ n ≠ y) program := by
  obtain ⟨hfit, hd⟩ := derives_of_accepted ha
  obtain ⟨last, hts⟩ := Piece.tokens_stream 1 (Piece.cut source.toList)
  apply hd.formed
  intro t ht
  apply (hfit.lexeme t ht).spelled
  intro _ hn
  apply And.intro hn
  apply hnew t
  rw [scan, hts]
  exact List.mem_append_left _ ht

include ha hy hnew hr

theorem twin_of_renames {known : Known}
    (hk : ∀ p ∈ lookups (Scoping.program program), known p.1 p.2) :
    Twin (.same known) [] [] (.stmts program) (.stmts program') := by
  have hformed := formed_of_new ha hnew
  have hfree : Free y := by
    have hn := Piece.nameKind_identifier.1 hy.identifier.1
    rwa [String.ofList_toList] at hn
  have hx := hr.named (c := .stmts program) hformed
  exact hr.twin (suits_change hx.1 hfree) .none .nil .nil hformed
    (accepts_of_faults (faults_of_accepted ha) hk)

/-- The renamed program is accepted, with the same depths. -/
theorem accepts_renamed : faults (Scoping.program program') = [] ∧ depths program' = depths program := by
  have ht : Twin (.same fun _ _ => True) [] [] (.stmts program) (.stmts program') :=
    twin_of_renames ha hy hnew hr fun _ _ => trivial
  have ho : outlines (Scoping.program program') = outlines (Scoping.program program) := ht.agrees {}
  constructor
  · exact faults_of_outlines ho (faults_of_accepted ha)
  · unfold depths
    rw [← filterMap_outlines, ← filterMap_outlines, ho]

/-- The renamed program has a text. -/
theorem exists_source_renamed :
    ∃ source', (Front.program s.nextId source').tree? = some program' := by
  obtain ⟨hfit, hd⟩ := derives_of_accepted ha
  have hrestores : Restores (fun n => Free n ∧ n ≠ y) (change x y) (change y x) :=
    restores_change x fun h => h.2 rfl
  have hnames : Stmt.mapAllNames (change y x) program' = program :=
    Code.stmts.inj (hr.mapNames hrestores (formed_of_new ha hnew))
  obtain ⟨ts', hts, hd'⟩ := hd.respelled rfl program' hnames
  obtain ⟨ps', hps, rfl⟩ := Piece.exists_respelled hy hfit hts
  exact ⟨_, (Front.program_of_fits (hfit.respelled hy hps) hd').1⟩

/-- Both programs run in step from the machine on which either is noted. -/
theorem run_eq_of_renames {ps : List (List Stmt)} (hs : History ps s) {source' : String}
    (ha' : s.accepted? source' = some program') (bound : Nat) :
    (s.run bound source').map observed = (s.run bound source).map observed := by
  have hmachine : (s.prepared source' program').machine = (s.prepared source program).machine := by
    unfold prepared
    rw [Machine.note_eq, Machine.note_eq,
      Depths.record_congr _ (accepts_renamed ha hy hnew hr).2]
  obtain ⟨w, hm⟩ := hs.coherent.prepared ha
  have ht : Twin (.same (recorded (program :: ps))) [] [] (.stmts program) (.stmts program') :=
    twin_of_renames ha hy hnew hr fun p hp => ⟨program, List.mem_cons_self, hp⟩
  have hm' : Match (.same (recorded (program :: ps))) w (s.prepared source program).machine
      (s.prepared source' program').machine := by
    rw [hmachine]
    exact hm.learn (.exact_same _) hm.depths hm.known
  have hp := hm'.performed ht bound
  rw [run_of_accepted bound ha', run_of_accepted bound ha]
  generalize (s.prepared source program).perform _ = r,
    (s.prepared source' program').perform _ = r' at hp
  cases hp with
  | none => rfl
  | some hp => exact congrArg some (hp.observed fun _ _ hl => hl)

end Renamed

/-- Let a program be accepted, and give one of its local variables or parameters, with all
occurrences that scoping binds to it, a name that the program does not have. The outcome has
a text, it is accepted with the same depths, and from the session at hand each text of it
prints what the old one prints, with the same report. -/
theorem run_renamed {ps : List (List Stmt)} {s : Session} (hs : History ps s) {source : String}
    {program program' : List Stmt} {x y : String} (ha : s.accepted? source = some program)
    (hy : Piece.Lexeme .identifier y.toList)
    (hnew : ∀ t ∈ Scanned.tokens (scan source), t.lexeme ≠ y)
    (hr : Renames x y [] (.stmts program) (.stmts program')) :
    (faults (Scoping.program program') = [] ∧ depths program' = depths program) ∧
    (∃ source', (Front.program s.nextId source').tree? = some program') ∧
    ∀ source', (Front.program s.nextId source').tree? = some program' → ∀ bound,
      (s.run bound source').map observed = (s.run bound source).map observed := by
  have haccepts := accepts_renamed ha hy hnew hr
  refine ⟨haccepts, exists_source_renamed ha hy hnew hr, ?_⟩
  intro source' htree bound
  have ha' : s.accepted? source' = some program' := by
    apply Option.filter_eq_some_iff.2
    exact ⟨htree, List.isEmpty_iff.2 haccepts.1⟩
  exact run_eq_of_renames ha hy hnew hr hs ha' bound

/-- The program `fun f(a) { { print a; var a = "in"; print a; } } f("out");` with another name
for the parameter. -/
def shadowing (name : String) : List Stmt :=
  [.function (.mk (.ofName "f" 1) [.ofName name 1]
    [.block [.print (.var ⟨0, .ofName name 1⟩),
      .var (.ofName "a" 1) (some (.literal (.string "in"))),
      .print (.var ⟨1, .ofName "a" 1⟩)]]),
    .expression (.call (.var ⟨2, .ofName "f" 1⟩) ⟨.mark .rightParen, ")", 1⟩
      [.literal (.string "out")])]

def shadowingText : String :=
  "fun f(a) \x7b \x7b print a; var a = \"in\"; print a; \x7d \x7d f(\"out\");"

theorem accepted_shadowing : (start 0).accepted? shadowingText = some (shadowing "a") := by
  cbv

theorem lexeme_b : Piece.Lexeme .identifier "b".toList := by
  have h : Piece.Lexeme (Piece.nameKind ['b']) ['b'] := .name (by decide) (by simp)
  exact h

theorem new_shadowing : ∀ t ∈ Scanned.tokens (scan shadowingText), t.lexeme ≠ "b" := by
  have h : (Scanned.tokens (scan shadowingText)).all (·.lexeme != "b") = true := by cbv
  simpa using h

theorem renames_shadowing : Renames "a" "b" [] (.stmts (shadowing "a")) (.stmts (shadowing "b")) :=
  .first (.inFunction (.ofParameter List.mem_cons_self rfl))

theorem run_renamed_shadowing : (start 0).accepted? shadowingText = some (shadowing "a") ∧
    Renames "a" "b" [] (.stmts (shadowing "a")) (.stmts (shadowing "b")) ∧
    ∀ source', (Front.program 0 source').tree? = some (shadowing "b") → ∀ bound,
      ((start 0).run bound source').map observed = ((start 0).run bound shadowingText).map observed :=
  ⟨accepted_shadowing, renames_shadowing,
    (run_renamed (.start 0) accepted_shadowing lexeme_b new_shadowing renames_shadowing).2.2⟩

end Session

end Lox
