import Lox.Proofs.Scoping.Accepted

/-!
# Scoping does not tell twins apart

Main statement: in the renamed scopes scoping finds of a twin what it finds of the tree
itself, fault for fault and depth for depth. What has a twin is a twin of itself, and its
only one if the link leaves no choice.
-/

set_option autoImplicit false

namespace Lox.Scoping

/-- A finding without its names: a fault, or an identity with its depth. -/
def Finding.outline : Finding → Option (Nat × Option Nat)
  | .fault _ => none
  | .lookup r d => some (r.id, d)

abbrev outlines (found : List Finding) : List (Option (Nat × Option Nat)) :=
  found.map Finding.outline

variable {known : Known} {rs : List Renaming} {fs : Frames}

theorem RefTwin.id_eq {r r' : Reference} (h : RefTwin (.same known) rs fs r r') : r'.id = r.id :=
  h.id

theorem outlines_declarationFaults {x x' : Token} (hx : x'.lexeme = ownName rs x.lexeme) :
    outlines (declarationFaults (renamed rs fs) x') = outlines (declarationFaults fs x) := by
  unfold declarationFaults
  rw [hx, redeclares_renamed]
  split <;> rfl

theorem inOwnInitializer_renamed {r r' : Reference} (h : RefTwin (.same known) rs fs r r') :
    inOwnInitializer (renamed rs fs) r'.name.lexeme = inOwnInitializer fs r.name.lexeme := by
  have hname := h.name.lexeme
  have hdepth := h.depth
  cases fs with
  | nil => cases rs <;> rfl
  | cons f fs =>
    cases rs with
    | nil =>
      rw [newName_of_fixed fun _ hr => absurd hr List.not_mem_nil] at hname
      rw [hname]
      rfl
    | cons ρ rs =>
      by_cases hb : f.binds r.name.lexeme = true
      · have hd : depth? (f :: fs) r.name.lexeme = some 0 := by rw [depth?_cons, if_pos hb]
        rw [hname, newName_of_some hd rfl]
        show (some (f.rename ρ)).any _ = (some f).any _
        simp only [Option.any_some, Frame.lookup_rename]
      · have hb' : (f.rename ρ).binds r'.name.lexeme = false := by
          by_contra hc
          rw [renamed, depth?_cons, depth?_cons, if_neg hb, if_pos (Bool.not_eq_false _ ▸ hc)] at hdepth
          cases hd : depth? fs r.name.lexeme <;> rw [hd] at hdepth <;> cases hdepth
        have hnone : f.lookup r.name.lexeme = none := Option.not_isSome_iff_eq_none.1 hb
        have hnone' : (f.rename ρ).lookup r'.name.lexeme = none :=
          Option.not_isSome_iff_eq_none.1 (Bool.eq_false_iff.1 hb')
        show (some (f.rename ρ)).any _ = (some f).any _
        simp only [Option.any_some, hnone, hnone']

theorem outlines_read {r r' : Reference} (h : RefTwin (.same known) rs fs r r') :
    outlines (read (renamed rs fs) r') = outlines (read fs r) := by
  unfold read find
  rw [inOwnInitializer_renamed h, h.depth]
  split
  · simp [Finding.outline, fault, h.id_eq]
  · simp [Finding.outline, h.id_eq]

/-- The faults of a `return` do not depend on where it stands in the text. -/
theorem outlines_returnFaults (ctx : Context) (t t' : Token) {e e' : Option Expr}
    (he : e'.isSome = e.isSome) :
    outlines (returnFaults ctx t' e') = outlines (returnFaults ctx t e) := by
  unfold returnFaults
  rw [he]
  split <;> split <;> rfl

theorem renamed_binding (rs : List Renaming) (fs : Frames) (name : String) :
    renamed rs (binding fs name) = binding (renamed rs fs) (ownName rs name) := by
  unfold binding
  rw [renamed_define, renamed_declare]

theorem parameters_renamed (r : Renaming) (rs : List Renaming) (f : Frame) (fs : Frames) {ps ps' : List Token}
    (hp : ParamsTwin (.same known) r ps ps') :
    (parameters (renamed (r :: rs) (f :: fs)) ps').1 = renamed (r :: rs) (parameters (f :: fs) ps).1 ∧
      outlines (parameters (renamed (r :: rs) (f :: fs)) ps').2 =
        outlines (parameters (f :: fs) ps).2 := by
  induction ps generalizing ps' f with
  | nil =>
    cases ps' with
    | nil => exact ⟨rfl, rfl⟩
    | cons => cases hp
  | cons p ps ih =>
    cases ps' with
    | nil => cases hp
    | cons p' ps' =>
      obtain ⟨hp, hps⟩ := List.forall₂_cons.1 hp
      have hb := renamed_binding (r :: rs) (f :: fs) p.lexeme
      have hname : p'.lexeme = ownName (r :: rs) p.lexeme := hp.lexeme
      rw [← hname] at hb
      have hfault : outlines (declarationFaults (renamed (r :: rs) (f :: fs)) p') =
          outlines (declarationFaults (f :: fs) p) := outlines_declarationFaults hname
      obtain ⟨hframes, hfound⟩ := ih ((p.lexeme, true) :: (if f.binds p.lexeme then f else
        (p.lexeme, false) :: f)) hps
      have hstep : renamed (r :: rs) (((p.lexeme, true) :: (if f.binds p.lexeme then f else
        (p.lexeme, false) :: f)) :: fs) = binding (renamed (r :: rs) (f :: fs)) p'.lexeme := hb
      rw [hstep] at hframes hfound
      constructor
      · exact hframes
      · show outlines (_ ++ _) = outlines (_ ++ _)
        rw [outlines, List.map_append, outlines, List.map_append]
        exact congr (congrArg _ hfault) hfound

/-- What scoping makes of a tree and of its twin; a statement leaves the same scopes. -/
def Agrees (rs : List Renaming) (fs : Frames) : Code → Code → Prop
  | .expr e, .expr e' => ∀ ctx, outlines (expr ctx (renamed rs fs) e') = outlines (expr ctx fs e)
  | .exprs es, .exprs es' =>
    ∀ ctx, outlines (exprs ctx (renamed rs fs) es') = outlines (exprs ctx fs es)
  | .stmt s, .stmt s' => ∀ ctx, (stmt ctx fs s).1 = after fs s ∧
      (stmt ctx (renamed rs fs) s').1 = renamed rs (after fs s) ∧
      outlines (stmt ctx (renamed rs fs) s').2 = outlines (stmt ctx fs s).2
  | .stmts ss, .stmts ss' =>
    ∀ ctx, outlines (stmts ctx (renamed rs fs) ss').2 = outlines (stmts ctx fs ss).2
  | .function f, .function f' =>
    ∀ ctx body, outlines (function ctx (renamed rs fs) body f') = outlines (function ctx fs body f)
  | .functions ms, .functions ms' =>
    ∀ ctx, outlines (methodsFindings ctx (renamed rs fs) ms') = outlines (methodsFindings ctx fs ms)
  | _, _ => False

theorem outlines_append {a b a' b' : List Finding} (h : outlines a' = outlines a)
    (h' : outlines b' = outlines b) : outlines (a' ++ b') = outlines (a ++ b) := by
  rw [outlines, outlines, List.map_append, List.map_append]
  exact congr (congrArg _ h) h'

theorem renamed_cons (r : Renaming) (rs : List Renaming) (f : Frame) (fs : Frames) :
    renamed (r :: rs) (f :: fs) = f.rename r :: renamed rs fs := rfl

/-- Two statements one of which declares nothing. -/
theorem Agrees.branch {s s' : Stmt} (h : Agrees rs fs (.stmt s) (.stmt s')) (hp : s.plain = true)
    (ctx : Context) : (stmt ctx fs s).1 = fs ∧ (stmt ctx (renamed rs fs) s').1 = renamed rs fs ∧
      outlines (stmt ctx (renamed rs fs) s').2 = outlines (stmt ctx fs s).2 := by
  have hs := h ctx
  rw [after_plain hp] at hs
  exact hs

/-- The scopes around a class say of another name what those around its declaration do. -/
theorem RefTwin.binding {link : Link} {r r' : Reference} (h : RefTwin link rs fs r r') {x : String}
    (hx : ownName rs x = x) (hne : r.name.lexeme ≠ x) (hne' : r'.name.lexeme ≠ x) :
    RefTwin link rs (binding fs x) r r' where
  id := h.id
  name := by
    unfold newName
    rw [depth?_binding_of_ne fs hne]
    exact h.name
  depth := by
    rw [renamed_binding, hx, depth?_binding_of_ne _ hne', depth?_binding_of_ne _ hne]
    exact h.depth
  known := by
    rw [depth?_binding_of_ne fs hne]
    exact h.known

theorem Twin.agrees {c c' : Code} (h : Twin (.same known) rs fs c c') : Agrees rs fs c c' := by
  induction h with
  | literal => exact fun _ => rfl
  | grouping _ he => exact he
  | unary _ _ he => exact he
  | binary _ _ _ hl hr => exact fun ctx => outlines_append (hl ctx) (hr ctx)
  | logical _ _ _ hl hr => exact fun ctx => outlines_append (hl ctx) (hr ctx)
  | var hr => exact fun _ => outlines_read hr
  | assign hr _ he =>
    intro ctx
    apply outlines_append (he ctx)
    simp [outlines, find, Finding.outline, hr.id_eq, hr.depth]
  | call _ _ _ hf hes => exact fun ctx => outlines_append (hf ctx) (hes ctx)
  | get _ _ he => exact he
  | set _ _ _ he hv => exact fun ctx => outlines_append (hv ctx) (he ctx)
  | this hr =>
    intro ctx
    simp only [expr, thisFindings]
    cases ctx.family <;> simp [outlines, find, fault, Finding.outline, hr.id_eq, hr.depth]
  | super hr =>
    intro ctx
    simp only [expr, superFindings]
    cases ctx.family <;> simp [outlines, find, fault, Finding.outline, hr.id_eq, hr.depth]
  | noExprs => exact fun _ => rfl
  | moreExprs _ _ he hes => exact fun ctx => outlines_append (he ctx) (hes ctx)
  | expression _ he => exact fun ctx => ⟨rfl, rfl, he ctx⟩
  | print _ he => exact fun ctx => ⟨rfl, rfl, he ctx⟩
  | bareVar hx =>
    intro ctx
    apply And.intro rfl
    apply And.intro
    · rw [after, renamed_binding, ← hx.lexeme]
      rfl
    · exact outlines_append (outlines_declarationFaults hx.lexeme) rfl
  | varWith hx _ he =>
    intro ctx
    have he := he ctx
    rw [renamed_declare, ← hx.lexeme] at he
    apply And.intro rfl
    apply And.intro
    · rw [after, renamed_binding, ← hx.lexeme]
      rfl
    · exact outlines_append (outlines_declarationFaults hx.lexeme) he
  | block _ _ hs => exact fun ctx => ⟨rfl, rfl, hs ctx⟩
  | ifThen _ _ hp he hy =>
    intro ctx
    obtain ⟨hfs, hfs', hfound⟩ := Agrees.branch hy hp ctx
    exact ⟨hfs, hfs', outlines_append (outlines_append (he ctx) hfound) rfl⟩
  | @ifElse _ _ _ _ _ _ no no' _ _ hp _ hq he hy hn =>
    intro ctx
    obtain ⟨hfs, hfs', hfound⟩ := Agrees.branch hy hp ctx
    have hno := Agrees.branch hn hq ctx
    simp only [stmt, optionalStmt, hfs, hfs']
    exact ⟨hno.1, hno.2.1, outlines_append (outlines_append (he ctx) hfound) hno.2.2⟩
  | «while» _ _ hp he hb =>
    intro ctx
    obtain ⟨hfs, hfs', hfound⟩ := Agrees.branch hb hp ctx
    exact ⟨hfs, hfs', outlines_append (he ctx) hfound⟩
  | @declared rs fs f f' hn hf ih =>
    intro ctx
    have hname : f'.name.lexeme = ownName rs f.name.lexeme := hf.outline.1.lexeme.trans hn.symm
    have hbody := ih ctx .function
    have hscopes : renamed rs (binding fs f.name.lexeme) = binding (renamed rs fs) f'.name.lexeme := by
      rw [renamed_binding, hname]
    rw [hscopes] at hbody
    apply And.intro rfl
    apply And.intro
    · exact hscopes.symm
    · exact outlines_append (outlines_declarationFaults hname) hbody
  | bareReturn _ => exact fun ctx => ⟨rfl, rfl, outlines_append (outlines_returnFaults ctx _ _ rfl) rfl⟩
  | returnWith _ _ he =>
    intro ctx
    exact ⟨rfl, rfl, outlines_append (outlines_returnFaults ctx _ _ rfl) (he ctx)⟩
  | @rootClass rs fs x x' ms ms' hn hx _ hm =>
    intro ctx
    have hmethods := hm { ctx with family := .class }
    have hname : x'.lexeme = ownName rs x.lexeme := hx.lexeme.trans hn.symm
    have hscopes : renamed rs (binding fs x.lexeme) = binding (renamed rs fs) x'.lexeme := by
      rw [renamed_binding, hname]
    rw [renamed_cons, hscopes] at hmethods
    apply And.intro rfl
    apply And.intro
    · exact hscopes.symm
    · exact outlines_append (outlines_append (outlines_declarationFaults hname) rfl) hmethods
  | @subclass rs fs x x' r r' ms ms' hn hx hr hd hne hne' _ hm =>
    intro ctx
    have hmethods := hm { ctx with family := .subclass }
    have hname : x'.lexeme = ownName rs x.lexeme := hx.lexeme.trans hn.symm
    have hscopes : renamed rs (binding fs x.lexeme) = binding (renamed rs fs) x'.lexeme := by
      rw [renamed_binding, hname]
    have hread := outlines_read (hr.binding hn hne hne')
    rw [renamed_cons, renamed_cons, hscopes] at hmethods
    rw [hscopes] at hread
    rw [← hx.lexeme] at hne'
    have hsuper : outlines (superclassFindings (binding (renamed rs fs) x'.lexeme) x' (some r')) =
        outlines (superclassFindings (binding fs x.lexeme) x (some r)) := by
      simp only [superclassFindings, if_neg hne, if_neg hne']
      exact hread
    apply And.intro rfl
    apply And.intro
    · exact hscopes.symm
    · exact outlines_append (outlines_append (outlines_declarationFaults hname) hsuper) hmethods
  | noStmts => exact fun ctx => rfl
  | @moreStmts rs fs s s' ss ss' _ _ hs hss =>
    intro ctx
    obtain ⟨hfs, hfs', hfound⟩ := hs ctx
    simp only [stmts, hfs, hfs']
    exact outlines_append hfound (hss ctx)
  | @function rs fs x x' ps ps' ss ss' r _ hx hp _ hs =>
    intro ctx body
    obtain ⟨hframes, hfound⟩ := parameters_renamed r rs [] fs hp
    have hbody := hs { ctx with body }
    rw [← hframes] at hbody
    exact outlines_append hfound hbody
  | noFunctions => exact fun _ => rfl
  | @moreFunctions rs fs f f' gs gs' hf _ ihf ihgs =>
    intro ctx
    have hkind : methodBody f' = methodBody f := by
      unfold methodBody Function.isInitializer
      rw [hf.outline.1.lexeme]
    simp only [methodsFindings, hkind]
    exact outlines_append (ihf ctx _) (ihgs ctx)

/-- As many scopes as renamings, all under their own names. -/
abbrev kept (rs : List Renaming) : List Renaming := rs.map fun _ => .keep

theorem RefTwin.self {link : Link} {r r' : Reference} (h : RefTwin link rs fs r r')
    (hlen : rs.length = fs.length) : RefTwin (.exact link.known) (kept rs) fs r r := by
  have hfixed : ∀ ρ ∈ kept rs, ρ r.name.lexeme = r.name.lexeme := by
    intro ρ hρ
    obtain ⟨_, -, rfl⟩ := List.mem_map.1 hρ
    rfl
  exact {
    id := rfl
    name := ⟨rfl, (newName_of_fixed hfixed).symm, rfl⟩
    depth := depth?_renamed_of_fixed (by rw [List.length_map, hlen]) hfixed
    known := h.known }

theorem ownName_kept (rs : List Renaming) (name : String) : ownName (kept rs) name = name := by
  cases rs <;> rfl

theorem Twin.self {link : Link} {c c' : Code} (h : Twin link rs fs c c')
    (hlen : rs.length = fs.length) : Twin (.exact link.known) (kept rs) fs c c := by
  induction h with
  | literal => exact .literal
  | grouping _ he => exact .grouping (he hlen)
  | unary _ _ he => exact .unary (.refl rfl) (he hlen)
  | binary _ _ _ hl hr => exact .binary (.refl rfl) (hl hlen) (hr hlen)
  | logical _ _ _ hl hr => exact .logical (.refl rfl) (hl hlen) (hr hlen)
  | var hr hd => exact .var (hr.self hlen) hd
  | assign hr _ he => exact .assign (hr.self hlen) (he hlen)
  | call _ _ _ hf hes => exact .call (.refl rfl) (hf hlen) (hes hlen)
  | get _ _ he => exact .get (.refl rfl) (he hlen)
  | set _ _ _ he hv => exact .set (.refl rfl) (he hlen) (hv hlen)
  | this hr hd => exact .this (hr.self hlen) hd
  | super hr hn hd hs => exact .super (hr.self hlen) hn hd hs (.refl rfl)
  | noExprs => exact .noExprs
  | moreExprs _ _ he hes => exact .moreExprs (he hlen) (hes hlen)
  | expression _ he => exact .expression (he hlen)
  | print _ he => exact .print (he hlen)
  | bareVar hx => exact .bareVar ⟨rfl, (ownName_kept _ _).symm, rfl⟩
  | varWith hx _ he =>
    exact .varWith ⟨rfl, (ownName_kept _ _).symm, rfl⟩ (he (by rw [length_declare, hlen]))
  | block _ _ hs => exact .block rfl (hs (congrArg (· + 1) hlen))
  | ifThen _ _ hp he hy => exact .ifThen (he hlen) (hy hlen) hp
  | ifElse _ _ hp _ hq he hy hn => exact .ifElse (he hlen) (hy hlen) hp (hn hlen) hq
  | «while» _ _ hp he hb => exact .while (he hlen) (hb hlen) hp
  | declared hn _ hf => exact .declared (ownName_kept _ _) (hf (by rw [length_binding, hlen]))
  | bareReturn _ => exact .bareReturn (.refl rfl)
  | returnWith _ _ he => exact .returnWith (.refl rfl) (he hlen)
  | @rootClass rs fs x x' ms ms' hn hx _ hm =>
    have hms := hm (by simp [hlen])
    exact .rootClass (ownName_kept _ _) (.refl rfl) hms
  | @subclass rs fs x x' r r' ms ms' hn hx hr hd hne hne' _ hm =>
    have hms := hm (by simp [hlen])
    exact .subclass (ownName_kept _ _) (.refl rfl) (hr.self hlen) hd hne hne hms
  | noStmts => exact .noStmts
  | moreStmts _ _ hs hss => exact .moreStmts (hs hlen) (hss (by rw [length_after, hlen]))
  | @function rs fs x x' ps ps' ss ss' r _ hx hp _ hs =>
    obtain ⟨g, hg, -, -⟩ := parameters_cons [] fs ps
    have hss := hs (by rw [hg, List.length_cons, List.length_cons, hlen])
    exact .function rfl (.refl rfl) (List.forall₂_same.2 fun _ _ => .refl rfl) hss
  | noFunctions => exact .noFunctions
  | moreFunctions _ _ hf hgs => exact .moreFunctions (hf hlen) (hgs hlen)

/-- The link leaves no choice. -/
structure Link.Rigid (link : Link) : Prop where
  id (r : Reference) (d : Option Nat) (j : Nat) : link.known r d → link.id r.id j → j = r.id
  line (l l' : Nat) : link.line l l' → l' = l
  renames (r : Renaming) : link.renames r → r = .keep

section Rigid

variable {link : Link}

theorem NameTwin.eq (h : link.Rigid) {name : String} {t t' : Token} (ht : NameTwin link name t t')
    (hn : name = t.lexeme) : t' = t := by
  obtain ⟨kind, lexeme, line⟩ := t
  obtain ⟨kind', lexeme', line'⟩ := t'
  obtain ⟨hk, hx, hl⟩ := ht
  have hl := h.line _ _ hl
  subst hn
  cases hk
  cases hx
  cases hl
  rfl

theorem ownName_of_keep (hrs : ∀ r ∈ rs, r = .keep) (name : String) : ownName rs name = name := by
  cases rs with
  | nil => rfl
  | cons r rs => exact congrArg (fun r : Renaming => r name) (hrs r List.mem_cons_self)

theorem RefTwin.eq (h : link.Rigid) (hrs : ∀ r ∈ rs, r = .keep) {r r' : Reference}
    (hr : RefTwin link rs fs r r') : r' = r := by
  obtain ⟨id, name⟩ := r
  obtain ⟨id', name'⟩ := r'
  have hid : id' = id := h.id _ _ _ hr.known hr.id
  have hname : name' = name := hr.name.eq h (newName_of_fixed fun ρ hρ => by rw [hrs ρ hρ]; rfl)
  rw [hid, hname]

theorem ParamsTwin.eq (h : link.Rigid) {r : Renaming} (hr : r = .keep) {ps ps' : List Token}
    (hp : ParamsTwin link r ps ps') : ps' = ps := by
  subst hr
  induction hp with
  | nil => rfl
  | cons hp _ ih => rw [NameTwin.eq h hp rfl, ih]

/-- Where the link leaves no choice, the twin of a tree is the tree. -/
theorem Twin.eq (h : link.Rigid) {c c' : Code} (hc : Twin link rs fs c c')
    (hrs : ∀ r ∈ rs, r = .keep) : c' = c := by
  have hcons {r : Renaming} {rs : List Renaming} (hr : r = .keep) (hrs : ∀ r ∈ rs, r = .keep) :
      ∀ ρ ∈ r :: rs, ρ = .keep := List.forall_mem_cons.2 ⟨hr, hrs⟩
  have hown {rs : List Renaming} (hrs : ∀ r ∈ rs, r = .keep) (name : String) := ownName_of_keep hrs name
  induction hc with
  | literal => rfl
  | grouping _ he => cases he hrs; rfl
  | unary ho _ he => cases he hrs; rw [ho.eq h rfl]
  | binary ho _ _ hl hr => cases hl hrs; cases hr hrs; rw [ho.eq h rfl]
  | logical ho _ _ hl hr => cases hl hrs; cases hr hrs; rw [ho.eq h rfl]
  | var hr hd => rw [hr.eq h hrs]
  | assign hr _ he => cases he hrs; rw [hr.eq h hrs]
  | call hp _ _ hf hes => cases hf hrs; cases hes hrs; rw [hp.eq h rfl]
  | get hn _ he => cases he hrs; rw [hn.eq h rfl]
  | set hn _ _ he hv => cases he hrs; cases hv hrs; rw [hn.eq h rfl]
  | this hr hd => rw [hr.eq h hrs]
  | super hr hn hd hs hm => rw [hr.eq h hrs, hm.eq h rfl]
  | noExprs => rfl
  | moreExprs _ _ he hes => cases he hrs; cases hes hrs; rfl
  | expression _ he => cases he hrs; rfl
  | print _ he => cases he hrs; rfl
  | bareVar hx => rw [hx.eq h (hown hrs _)]
  | varWith hx _ he => cases he hrs; rw [hx.eq h (hown hrs _)]
  | block hr _ hs => cases hs (hcons (h.renames _ hr) hrs); rfl
  | ifThen _ _ hp he hy => cases he hrs; cases hy hrs; rfl
  | ifElse _ _ hp _ hq he hy hn => cases he hrs; cases hy hrs; cases hn hrs; rfl
  | «while» _ _ hp he hb => cases he hrs; cases hb hrs; rfl
  | declared hn _ hf => cases hf hrs; rfl
  | bareReturn ht => rw [ht.eq h rfl]
  | returnWith ht _ he => cases he hrs; rw [ht.eq h rfl]
  | rootClass hn hx _ hm => cases hm (hcons rfl hrs); rw [hx.eq h rfl]
  | subclass hn hx hr hd hne hne' _ hm =>
    cases hm (hcons rfl (hcons rfl hrs))
    rw [hx.eq h rfl, hr.eq h hrs]
  | noStmts => rfl
  | moreStmts _ _ hs hss => cases hs hrs; cases hss hrs; rfl
  | function hr hx hp _ hs =>
    cases hs (hcons (h.renames _ hr) hrs)
    rw [hx.eq h rfl, hp.eq h (h.renames _ hr)]
  | noFunctions => rfl
  | moreFunctions _ _ hf hgs => cases hf hrs; cases hgs hrs; rfl

end Rigid

end Lox.Scoping
