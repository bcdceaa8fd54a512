/-!
# Names with values

A list of names, each with one value. Putting a value under a name replaces
the value the name has, or adds the name at the end.
-/

set_option autoImplicit false

namespace Lox

abbrev Names (α : Type) := List (String × α)

namespace Names

variable {α : Type}

def get? (ns : Names α) (name : String) : Option α := ns.lookup name

def put (name : String) (v : α) : Names α → Names α
  | [] => [(name, v)]
  | (n, w) :: ns => if n == name then (n, v) :: ns else (n, w) :: put name v ns

theorem get?_put_self (ns : Names α) (name : String) (v : α) :
    (put name v ns).get? name = some v := by
  induction ns with
  | nil => simp [put, get?]
  | cons p ns ih =>
    obtain ⟨n, w⟩ := p
    by_cases h : n = name
    · subst h; simp [put, get?]
    · have h' : (name == n) = false := by simpa using fun e => h e.symm
      simpa [put, get?, h, List.lookup_cons, h'] using ih

theorem get?_put_of_ne (ns : Names α) {name other : String} (v : α) (h : other ≠ name) :
    (put name v ns).get? other = ns.get? other := by
  induction ns with
  | nil =>
    have h' : (other == name) = false := by simpa using h
    simp [put, get?, List.lookup_cons, h']
  | cons p ns ih =>
    obtain ⟨n, w⟩ := p
    by_cases hn : n = name
    · subst hn
      have h' : (other == n) = false := by simpa using h
      simp [put, get?, List.lookup_cons, h']
    · by_cases ho : other = n
      · subst ho; simp [put, get?, hn]
      · have h' : (other == n) = false := by simpa using ho
        simpa [put, get?, hn, List.lookup_cons, h'] using ih

end Names

end Lox
