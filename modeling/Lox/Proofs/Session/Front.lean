import Lox.Proofs.Grammar.Tracked
import Lox.Proofs.Scoping.Shift
import Lox.Proofs.Session.History

/-!
# The identities of a text

What the front end makes of a text does not depend on the identities that were taken before,
but for the identities in the tree itself. So whether a text is accepted does not either.
-/

set_option autoImplicit false

namespace Lox

open Scoping

theorem Depths.get?_record_shift {d d' : Depths} (σ : Shift) {id : Nat}
    (found : List (Reference × Option Nat)) (h : d'.get? (id + σ.ids) = d.get? id) :
    (d'.record (found.map fun p => (p.1.shift σ, p.2))).get? (id + σ.ids) =
      (d.record found).get? id := by
  induction found generalizing d d' with
  | nil => exact h
  | cons p found ih =>
    obtain ⟨r, depth⟩ := p
    apply ih
    cases depth with
    | none => exact h
    | some depth =>
      by_cases hr : id = r.id
      · subst hr
        exact (get?_put_self d' _ depth).trans (get?_put_self d _ depth).symm
      · have hr' : id + σ.ids ≠ (r.shift σ).id := fun he => hr (Nat.add_right_cancel he)
        exact (get?_put_of_ne d' depth hr').trans (h.trans (get?_put_of_ne d depth hr).symm)

namespace Front

/-- The same, but for identities that are counted from a later start. -/
def later (k : Nat) (f : Front (List Stmt)) : Front (List Stmt) where
  lexical := f.lexical
  result := f.result.map (Stmt.shiftAll ⟨k, 0⟩)
  nextId := f.nextId + k

variable (k : Nat)

/-- What the front end makes of a text does not depend on the identities taken before. -/
theorem program_add (n : Nat) (source : String) :
    Front.program (n + k) source = (Front.program n source).later k := by
  obtain ⟨last, hts⟩ := Piece.tokens_stream 1 (Piece.cut source.toList)
  have hread : Grammar.readProgram (n + k) (Scanned.tokens (scan source)) =
      (Grammar.readProgram n (Scanned.tokens (scan source))).shift ⟨k, 0⟩ := by
    have hne : ∀ t ∈ Piece.lexemes 1 (Piece.cut source.toList), t.kind ≠ .finish :=
      Piece.ne_finish_of_cut
    have hf : (⟨.finish, "", last⟩ : Token).kind = .finish := rfl
    have h := Grammar.readProgram_shift ⟨k, 0⟩ hne hf n
    rw [Token.map_shift_ids] at h
    rw [scan, hts]
    exact h
  unfold Front.program ofSource later
  simp only [hread, Grammar.Reading.shift]
  generalize Grammar.readProgram n (Scanned.tokens (scan source)) = r
  obtain ⟨result, nextId⟩ := r
  cases result with
  | ok program => rfl
  | error ds =>
    have hds : ds.map (Diagnostic.shift ⟨k, 0⟩) = ds :=
      (List.map_congr_left fun d _ => d.shift_ids k).trans (List.map_id _)
    simp only [hds]
    rfl

theorem tree?_later (f : Front (List Stmt)) :
    (f.later k).tree? = f.tree?.map (Stmt.shiftAll ⟨k, 0⟩) := by
  obtain ⟨lexical, result, nextId⟩ := f
  cases lexical <;> cases result <;> rfl

theorem found_later (f : Front (List Stmt)) :
    (f.later k).found = f.found.map (Finding.shift ⟨k, 0⟩) := by
  unfold found
  rw [tree?_later]
  cases f.tree? with
  | none => rfl
  | some program => exact program_shift _ program

theorem staticFaults_later (f : Front (List Stmt)) : (f.later k).staticFaults = f.staticFaults := by
  have hfaults : (f.later k).faults = f.faults := by
    obtain ⟨lexical, result, nextId⟩ := f
    cases result <;> rfl
  unfold staticFaults
  rw [tree?_later, hfaults]
  cases f.tree? with
  | none => rfl
  | some program =>
    show Scoping.faults (Scoping.program (Stmt.shiftAll _ program)) = Scoping.faults _
    rw [program_shift, faults_shift]
    exact (List.map_congr_left fun d _ => d.shift_ids k).trans (List.map_id _)

end Front

/-- A text is accepted whatever identities were taken before, or not at all. -/
theorem Session.accepted?_add {s s' : Session} {k : Nat} (h : s'.nextId = s.nextId + k)
    (source : String) : s'.accepted? source = (s.accepted? source).map (Stmt.shiftAll ⟨k, 0⟩) := by
  unfold Session.accepted?
  rw [h, Front.program_add, Front.tree?_later, Option.filter_map]
  congr 2
  funext program
  show (faults (Scoping.program (Stmt.shiftAll _ program))).isEmpty = _
  rw [program_shift, faults_shift, List.isEmpty_map]

end Lox
