import ShaderGen.Proofs.Invocations
import ShaderGen.Proofs.Precision.Printing
import ShaderGen.Proofs.Requests
import ShaderGen.Proofs.SizeUniforms

/-!
# The head of a text

A text starts with its version, the extensions that it names, and the declaration of the fragment
color. The first rule settles most of this. It looks at the program as it is given, before any other
rule has changed it, so what it settles has to be right for what later rules make of the program:
none of them brings in a derivative or a fragment color. The rule for fragment coordinates may name
one more extension, which then comes first; the rules after it name none.

The fragment color is declared under a name that a program may use for something of its own. Then
the text declares the name twice (`fragment_color_is_declared_twice`). Declarations are counted in
the text, by the names that its tokens declare (`Piece.declaredNames`).

## Main definitions

- `pragma`, `colorDeclaration`: what the head of a text is made of, as it is spelled
- `AsksFor`: why a text names an extension
- `HasHead`, `DeclaresColor`: how a text begins, and how often it declares the fragment color

## Key results

- `Legalize.heading_legalize`: what is noted in the end
- `text_has_head`: of every program for which text is generated
-/

namespace ShaderGen

open Glsl

/-- Name under which the fragment color is declared. -/
def fragColorName : String := "sk_FragColor"

/-- Line of a text that names an extension. -/
def pragma (name : String) : String := "#extension " ++ name ++ " : require"

/-- Line of a text that declares the fragment color. -/
def colorDeclaration (profile : Profile) : String :=
  if profile.usesPrecision then "out mediump vec4 sk_FragColor;" else "out vec4 sk_FragColor;"

/-- Extension that lets a fragment program move the origin of its coordinates. -/
def originExtension : String := "GL_ARB_fragment_coord_conventions"

/-- A node that takes a derivative. -/
def Expr.takesDerivative : Expr → Bool
  | .call _ (.intrinsic .dFdx) _ | .call _ (.intrinsic .dFdy) _ => true
  | _ => false

/-- Why the text of a program for a target names an extension. -/
inductive AsksFor (t : Target) (p : Program) (name : String) : Prop
  /-- it has the stage that the extension brings -/
  | geometry : p.stage = .geometry → t.profile.geometryExtension = some name → AsksFor t p name
  /-- it runs several times, as the target can -/
  | invocations : p.stage = .geometry → 1 < p.declaredInvocations →
      t.profile.hasInvocations = true → t.profile.invocationsExtension = some name →
      AsksFor t p name
  | derivative : p.anyNode Expr.takesDerivative = true →
      t.profile.derivativesExtension = some name → AsksFor t p name
  /-- it moves the origin of fragment coordinates -/
  | origin : p.anyNode (Expr.isBuiltin .fragCoord) = true → t.coordPolicy = .legacyExtension →
      name = originExtension → AsksFor t p name

/-- How the text begins that is printed of a program `p'` and a scratch state, where a program `p`
    has become `p'`. -/
structure HasHead (t : Target) (p p' : Program) (s : Scratch) : Prop where
  /-- the first characters are the version and the extensions, a line each -/
  starts : (t.profile.versionLine :: s.extensions.map pragma).flatMap (fun line =>
    line.toList ++ ['\n']) <+: (Piece.render (programPieces t.profile s p')).toList
  /-- nothing else is written as a line as it is -/
  lines : ∃ rest, programPieces t.profile s p' =
    (t.profile.versionLine :: s.extensions.map pragma).map Piece.line ++ rest ∧
      ∀ text, .line text ∉ rest
  once : (s.extensions.map pragma).Nodup
  asked (name : String) : name ∈ s.extensions ↔ AsksFor t p name
  originFirst : p.anyNode (Expr.isBuiltin .fragCoord) = true → t.coordPolicy = .legacyExtension →
    s.extensions.head? = some originExtension
  /-- derivatives that stand in the text are announced -/
  derivatives : (s.printed p').anyNode Expr.takesDerivative = true →
    ∀ name ∈ t.profile.derivativesExtension, name ∈ s.extensions
  /-- so is a fragment color, before any word of the text -/
  colorFirst : p.stage = .fragment → t.profile.isLegacy = false →
    (s.printed p').anyNode (Expr.isBuiltin .fragColor) = true →
      ∃ before output after, programPieces t.profile s p' = before ++ output ++ after ∧
        Piece.render output = colorDeclaration t.profile ++ "\n" ∧ ∀ word, .word word ∉ before

/-- How often the name of the fragment color is declared in the text that is printed of a program
    `p'` and a scratch state, where a program `p` has become `p'`. -/
structure DeclaresColor (t : Target) (p p' : Program) (s : Scratch) : Prop where
  once : p.stage = .fragment → t.profile.isLegacy = false →
    (s.printed p').anyNode (Expr.isBuiltin .fragColor) = true →
      (Piece.declaredNames (programPieces t.profile s p')).count fragColorName = 1
  never : p.stage ≠ .fragment ∨ t.profile.isLegacy = true →
    fragColorName ∉ Piece.declaredNames (programPieces t.profile s p')

namespace Legalize

open Preamble

/-! ### Nodes that no rule brings in -/

/-- What the first rule looks for to announce derivatives. -/
theorem isDerivativeCall_eq : isDerivativeCall = Expr.takesDerivative := by
  funext e
  cases e with
  | call ty callee args =>
    cases callee with
    | intrinsic f => cases f <;> rfl
    | user name => rfl
  | _ => rfl

/-- What the first rule looks for to declare the fragment color. -/
theorem isFragColor_eq : isFragColor = Expr.isBuiltin .fragColor := by
  funext e
  cases e with
  | builtin ty which => cases which <;> rfl
  | _ => rfl

/-- Calls of functions that take a derivative. -/
theorem untouched_derivative : ({ node := Expr.takesDerivative } : Construct).Untouched where
  children e cs := by
    -- Putting other children in leaves the callee of a call as it is.
    unfold Expr.withChildren
    split
    case h_4 callee _ =>
      cases callee with
      | intrinsic f => cases f <;> rfl
      | user name => rfl
    all_goals rfl
  raised e := by
    cases e with
    | call ty callee args =>
      cases callee with
      | intrinsic f => cases f <;> rfl
      | user name => rfl
    | _ => rfl
  made {e} h := by
    cases e with
    | call ty callee args =>
      cases callee with
      | intrinsic f => cases f <;> first | rfl | cases h
      | user name => rfl
    | _ => rfl

/-- References to the fragment color. -/
theorem untouched_fragColor : ({ node := Expr.isBuiltin .fragColor } : Construct).Untouched where
  children e cs := by unfold Expr.withChildren; split <;> rfl
  raised e := by
    -- A reference to a built-in variable keeps which one it is.
    cases e with
    | builtin ty which => cases which <;> rfl
    | _ => rfl
  made {e} h := by
    cases e with
    | builtin ty which => cases which <;> first | rfl | cases h
    | _ => rfl

/-- A node that stands in a text and that neither a rule nor a helper function brings in stood in
    the program. -/
theorem anyNode_of_printed {q : Expr → Bool} (hq : ({ node := q } : Construct).Untouched)
    (hhelper : ∀ ty, (IntAbs.helper ty).anyNode q = false) {t : Target} {p p' : Program}
    {s : Scratch} (hrun : (legalize t p).run.run {} = (.ok p', s))
    (h : (s.printed p').anyNode q = true) : p.anyNode q = true := by
  -- What rules keep is that there is none, so this goes the other way around.
  by_contra hnone
  have hfree : p.Free { node := q } := (free_iff_anyNode hq).mpr (by simpa using hnone)
  have hfree' : p'.Free { node := q } := (free_legalize hq hfree).of_run hrun
  rw [anyNode_printed hhelper hrun, (free_iff_anyNode hq).mp hfree'] at h
  cases h

/-! ### What is noted -/

/-- What a scratch state has noted for the head of a text: some extensions, one more that comes
    before them, and whether the fragment color is declared. -/
structure Heading (names : List String) (first : Option String) (color : Bool) (s : Scratch) :
    Prop where
  once : s.extensions.Nodup
  mem (x : String) : x ∈ s.extensions ↔ x ∈ names ∨ x ∈ first
  first : ∀ x ∈ first, s.extensions.head? = some x
  color : s.declaresFragOutput = color

/-- The extension that brings the layout qualifier for the origin, if a program needs it. -/
def originExtension? (t : Target) (p : Program) : Option String :=
  if t.coordPolicy = .legacyExtension && p.anyNode FragCoord.isFragCoord then
    some FragCoord.conventionsExtension
  else none

/-- The extension is needed by programs that read coordinates, under one policy. -/
theorem originExtension?_eq_some_iff {t : Target} {p : Program} {name : String} :
    originExtension? t p = some name ↔ p.anyNode (Expr.isBuiltin .fragCoord) = true ∧
      t.coordPolicy = .legacyExtension ∧ name = originExtension := by
  rw [originExtension?, FragCoord.isFragCoord_eq]
  have hname : FragCoord.conventionsExtension = originExtension := rfl
  by_cases hpolicy : t.coordPolicy = .legacyExtension
  · cases p.anyNode (Expr.isBuiltin .fragCoord) <;> simp [hpolicy, hname, eq_comm]
  · simp [hpolicy]

namespace Heading

variable {names : List String} {first : Option String} {color : Bool} {s s' : Scratch}
  {t : Target} {p : Program}

/-- The head is told by the extensions and the flag of the output. -/
theorem congr (h : Heading names first color s) (hextensions : s'.extensions = s.extensions)
    (hcolor : s'.declaresFragOutput = s.declaresFragOutput) : Heading names first color s' where
  once := hextensions ▸ h.once
  mem := hextensions ▸ h.mem
  first := hextensions ▸ h.first
  color := hcolor.trans h.color

/-- A global in the text does not change the head. -/
theorem declareGlobal (h : Heading names first color s) (d : Decl) :
    Heading names first color (s.declareGlobal d) := by
  obtain ⟨globals, log, hs⟩ := s.exists_declareGlobal d
  rw [hs]
  exact h.congr rfl rfl

/-- Neither does the origin. -/
theorem declareUpperLeftOrigin (h : Heading names first color s) :
    Heading names first color s.declareUpperLeftOrigin := by
  obtain ⟨globals, hs⟩ := s.exists_declareUpperLeftOrigin
  rw [hs]
  exact h.congr rfl rfl

/-- Neither does a helper. -/
theorem addHelper (h : Heading names first color s) (shape : Shape) (fn : Function) :
    Heading names first color (s.addHelper shape fn) := by
  obtain ⟨helpers, log, hs⟩ := s.exists_addHelper shape fn
  rw [hs]
  exact h.congr rfl rfl

/-- The rules after the one for fragment coordinates name no extension. -/
theorem amendments (names : List String) (first : Option String) (color : Bool) :
    Amendments (steady (Heading names first color)) where
  fresh _ _ hs := ⟨trivial, hs.congr rfl rfl⟩
  emulates _ _ hs := ⟨trivial, hs.congr rfl rfl⟩
  helper _ _ hs := ⟨trivial, hs.addHelper _ _⟩
  counter _ hs := ⟨trivial, hs.declareGlobal _⟩

/-- A rule that keeps what is noted does so with the report that it starts. -/
theorem step {r : Rule}
    (h : (steady (Heading names first color)).gen.Holds (fun _ => True) (r.run t p)) :
    (steady (Heading names first color)).gen.Holds (fun _ => True) (r.step t p) :=
  holds_step (fun _ hs => ⟨trivial, hs.congr rfl rfl⟩) h

/-- A report is not noted for the head. -/
theorem report (event : Event) : Leads (Heading names first color)
    (modify (Scratch.report event) : GenM PUnit) fun _ => Heading names first color :=
  .lift fun _ hs => hs.congr rfl rfl

/-- Several extensions are named, as long as none has to come first. -/
theorem requireExtensions (h : Heading names none color s) (more : List String) :
    Heading (names ++ more) none color
      (more.foldl (fun s name => s.requireExtension name) s) := by
  -- Those named so far become part of what was there before the next one.
  induction more generalizing names s with
  | nil => simpa using h
  | cons name more ih =>
    have hname : Heading (names ++ [name]) none color (s.requireExtension name) := by
      refine ⟨Scratch.nodup_requireExtension name h.once, fun x => ?_, nofun, ?_⟩
      · rw [Scratch.mem_requireExtension, h.mem]
        simp
      · obtain ⟨extensions, hs⟩ := s.exists_requireExtension name
        rw [hs]
        exact h.color
    have hrest := ih hname
    rwa [List.append_assoc, List.singleton_append] at hrest

/-- An extension comes before those that are there. It may be one of them. -/
theorem requireExtensionFirst (h : Heading names none color s) (name : String) :
    Heading names (some name) color (s.requireExtensionFirst name) where
  once := Scratch.nodup_requireExtensionFirst name h.once
  mem x := by
    rw [Scratch.mem_requireExtensionFirst, h.mem]
    simp [eq_comm]
  first _ hx := hx ▸ rfl
  color := h.color

end Heading

section

variable {t : Target} {p p' : Program} {s : Scratch} {names : List String} {color : Bool}

/-- The first rule notes the extensions that a program needs as it is given, and the color. -/
theorem leads_header : Leads (Heading [] none false) (Preamble.legalize t p)
    fun _ => Heading (extensions t.profile p) none (declaresFragOutput t.profile p) := by
  have hnote : Leads (Heading [] none false) (do
      modify fun s =>
        { (extensions t.profile p).foldl (fun s name => s.requireExtension name) s with
          declaresFragOutput := declaresFragOutput t.profile p }
      pure p : GenM Program)
      fun _ => Heading (extensions t.profile p) none (declaresFragOutput t.profile p) := by
    refine Leads.bind (Q := fun _ =>
      Heading (extensions t.profile p) none (declaresFragOutput t.profile p))
      (.lift fun s hs => ?_) fun _ => .pure fun s hs => hs
    have hnamed := hs.requireExtensions (extensions t.profile p)
    exact ⟨hnamed.once, hnamed.mem, nofun, rfl⟩
  unfold Preamble.legalize
  dsimp only
  split
  · -- A geometry program is refused before anything is noted.
    exact Leads.bind (Q := fun _ => Heading [] none false) (.fail _) fun _ => hnote
  · exact hnote

/-- Before fragment coordinates are settled, only the first rule notes something. -/
theorem leads_beforeCoords :
    Leads (Heading [] none false) ((rulesBefore "frag_coord").foldlM (Rule.step t) p) fun _ =>
      Heading (extensions t.profile p) none (declaresFragOutput t.profile p) := by
  have hpipeline : rulesBefore "frag_coord" =
      .always "header" Preamble.legalize :: rulesBetween "header" "frag_coord" := rfl
  rw [hpipeline, List.foldlM_cons]
  refine Leads.bind (Q := fun _ =>
    Heading (extensions t.profile p) none (declaresFragOutput t.profile p)) ?_ fun q => ?_
  · exact (Heading.report _).bind fun _ => leads_header
  · refine .of_steady (foldlM_holds _ (fun r hr q => Heading.step ?_) q)
    -- Raising precisions leaves the state alone.
    obtain rfl := List.mem_singleton.mp hr
    exact (steady _).gen.pure trivial

/-- Declaring a size notes nothing for the head. -/
theorem heading_targetSize (hs : Heading names none color s) :
    Heading names none color ((TargetSize.legalize p).run s).2 := by
  have hwidth : ∀ {s}, Heading names none color s →
      Heading names none color (TargetSize.declareWidth s) :=
    fun hs => (hs.declareGlobal _).congr rfl rfl
  have hheight : ∀ {s}, Heading names none color s →
      Heading names none color (TargetSize.declareHeight s) :=
    fun hs => (hs.declareGlobal _).congr rfl rfl
  -- The rule adds at most two uniforms, and neither of them touches what the header lists.
  rw [TargetSize.run_legalize]
  cases p.anyNode TargetSize.isWidth <;> cases p.anyNode TargetSize.isHeight
  · exact hs
  · exact hheight hs
  · exact hwidth hs
  · exact hheight (hwidth hs)

/-- One policy asks for an extension, if there are coordinates. -/
theorem heading_applyPolicy (hs : Heading names none color s) (q : Program) :
    Heading names (originExtension? t p) color ((FragCoord.applyPolicy t.coordPolicy
      (p.anyNode FragCoord.isFragCoord) q).run s).2 := by
  unfold FragCoord.applyPolicy originExtension?
  cases t.coordPolicy with
  | direct upperLeft =>
    cases p.anyNode FragCoord.isFragCoord <;> cases upperLeft
    -- Only one convention moves the origin.
    case true.true => exact hs.declareUpperLeftOrigin
    all_goals exact hs
  | legacyExtension =>
    cases p.anyNode FragCoord.isFragCoord with
    | true => exact (hs.requireExtensionFirst _).declareUpperLeftOrigin
    | false => exact hs
  | fromHeight =>
    cases p.anyNode FragCoord.isFragCoord with
    | true => exact (hs.declareGlobal _).congr rfl rfl
    | false => exact hs
  | fromVarying =>
    dsimp only
    cases q.stage with
    | vertex => exact hs.declareGlobal _
    | fragment => exact hs.declareGlobal _
    | geometry => exact hs

/-- What is noted in the end is what the program asks for as it is given. -/
theorem heading_legalize (hrun : (Legalize.legalize t p).run.run {} = (.ok p', s)) :
    Heading (extensions t.profile p) (originExtension? t p) (declaresFragOutput t.profile p) s := by
  -- Raising precisions leaves the coordinates where they are.
  have hbefore : Yields (fun q => q.anyNode FragCoord.isFragCoord = p.anyNode FragCoord.isFragCoord)
      ((rulesBefore "frag_coord").foldlM (Rule.step t) p) := by
    refine yields_beforeCoords (fun q hq => ?_) rfl
    rwa [anyNode_highPrecision FragCoord.isFragCoord_withChildren fun e ty =>
      FragCoord.isFragCoord_withTy ty e]
  have hleads := leads_legalize (C := True)
    (K := Heading (extensions t.profile p) (originExtension? t p) (declaresFragOutput t.profile p))
    (.and hbefore leads_beforeCoords) (fun q hq => ?_)
    fun r hr q => Heading.step ((Heading.amendments _ _ _).rule hr t q)
  · exact (hleads {} ⟨.nil, by simp, nofun, rfl⟩ p' s hrun).1
  · -- The rule runs on what became of the program, which needs the origin just if the program does.
    have hsame : originExtension? t p = originExtension? t q := by
      rw [originExtension?, originExtension?, hq]
    rw [hsame]
    refine (Heading.report _).bind fun _ s hs a s' hrun => ⟨?_, trivial⟩
    exact (leads_fragCoord (fun s hs => heading_targetSize hs) (fun event s hs => hs.congr rfl rfl)
      (fun q' s hs => heading_applyPolicy hs q') s hs a s' hrun).1

/-! ### Names that a text declares -/

/-- No rule declares the fragment color but by its own line. -/
theorem isUndeclared_fragColorName : IsUndeclared fragColorName where
  coined := by
    rintro (⟨stem, n, h⟩ | h)
    · -- The name starts with no stem, so it is not drawn from one.
      have hstem : Unnumbered [fragColorName] := unnumbered_of_prefix fun name hname stem => by
        obtain rfl := List.mem_singleton.mp hname
        cases stem <;> decide
      exact hstem _ (List.mem_singleton_self _) stem n h.symm
    · exact absurd h (by decide)
  counter := by decide
  invoked := by decide
  entry := by decide
  coords := by decide

/-- Rules declare the name of the fragment color in no program that does not. -/
theorem fragColorName_notMem_names (hnone : fragColorName ∉ p.names)
    (hrun : (Legalize.legalize t p).run.run {} = (.ok p', s)) : fragColorName ∉ p'.names := by
  -- The program may refer to the name, so references are granted.
  have hp : p.Meets (.sparing fragColorName true) := Program.meets_sparing_iff.mpr
    ⟨hnone, (p.meets_anything.all rfl).mono fun _ _ => .inl rfl⟩
  have hp' : p'.Meets (.sparing fragColorName true) :=
    (legalize_sparing isUndeclared_fragColorName hp fun _ _ _ => .inl rfl).of_run hrun
  exact (Program.meets_sparing_iff.mp hp').1

end

end Legalize

/-! ### The text -/

section

open Legalize Preamble

variable {t : Target} {p p' : Program} {s : Scratch} {name : String}

/-- Two extensions are named by different lines. -/
theorem pragma_injective : Function.Injective pragma := by
  intro a b h
  simpa [pragma, String.append_left_inj, String.append_right_inj] using h

/-- What the header asks for is what the program and the profile ask for. -/
theorem mem_extensions_iff : name ∈ extensions t.profile p ∨ name ∈ originExtension? t p ↔
    AsksFor t p name := by
  rw [Option.mem_def, originExtension?_eq_some_iff]
  constructor
  · rintro (h | ⟨huses, hpolicy, hname⟩)
    · -- Each part of the list is there in one case only.
      simp only [extensions, geometryExtensions, List.mem_append] at h
      rcases h with h | h
      · split at h
        · next hstage =>
          rcases List.mem_append.mp h with h | h
          · exact .geometry hstage (by simpa using h)
          · split at h
            · next hmany =>
              simp only [Bool.and_eq_true, decide_eq_true_eq] at hmany
              exact .invocations hstage hmany.1 hmany.2 (by simpa using h)
            · cases h
        · cases h
      · split at h
        · next huses => exact .derivative (isDerivativeCall_eq ▸ huses) (by simpa using h)
        · cases h
    · exact .origin huses hpolicy hname
  · intro h
    cases h with
    -- Conversely each reason puts the name into its own part.
    | geometry hstage h => simp [extensions, geometryExtensions, hstage, h]
    | invocations hstage hmany hnative h =>
      simp [extensions, geometryExtensions, hstage, hmany, hnative, h]
    | derivative huses h => simp [extensions, isDerivativeCall_eq, huses, h]
    | origin huses hpolicy h => exact .inr ⟨huses, hpolicy, h⟩

/-- What is declared in a text is spelled with words, marks, gaps and qualifiers. -/
theorem line_notMem_declarationPieces (d : Dialect) (s : Scratch) (p : Program) (text : String) :
    .line text ∉ declarationPieces d s p := by
  have hself : Piece.Agree d.qualifying d.qualifying (declarationPieces d s p)
      (declarationPieces d s p) := agree_declarationPieces ⟨rfl, rfl⟩ s (.refl p)
  exact hself.left (.line text)

/-- The lines at the start of a text, as they are spelled. -/
theorem firstLines_eq (profile : Profile) (s : Scratch) :
    firstLines profile s = (profile.versionLine :: s.extensions.map pragma).map Piece.line := by
  rw [List.map_cons, List.map_map]
  rfl

/-- Only the first lines of a text are written as they are. -/
theorem programPieces_firstLines (profile : Profile) (s : Scratch) (p : Program) :
    ∃ rest, programPieces profile s p =
      (profile.versionLine :: s.extensions.map pragma).map Piece.line ++ rest ∧
        ∀ text, .line text ∉ rest := by
  rw [programPieces_eq, firstLines_eq, List.append_assoc, List.append_assoc]
  refine ⟨_, rfl, fun text => ?_⟩
  simp only [List.mem_append, not_or]
  refine ⟨?_, ?_, line_notMem_declarationPieces _ _ _ _⟩
  · split <;> simp
  · cases s.declaresFragOutput <;> cases profile.usesPrecision <;>
      simp [fragOutputPieces, Piece.blank, Piece.lineBreak]

/-- A text starts with the characters of its first lines. -/
theorem render_programPieces_starts (profile : Profile) (s : Scratch) (p : Program) :
    (profile.versionLine :: s.extensions.map pragma).flatMap (fun line =>
      line.toList ++ ['\n']) <+: (Piece.render (programPieces profile s p)).toList := by
  obtain ⟨rest, hpieces, -⟩ := programPieces_firstLines profile s p
  have hline : ∀ line : String, (Piece.line line).text.toList = line.toList ++ ['\n'] :=
    fun line => String.toList_append
  rw [hpieces, Piece.toList_render, List.flatMap_append, List.flatMap_map]
  simp only [hline]
  exact List.prefix_append _ _

/-- The declaration of the fragment color as it is spelled. -/
theorem render_fragOutputPieces (profile : Profile) :
    Piece.render (fragOutputPieces profile.usesPrecision) = colorDeclaration profile ++ "\n" := by
  unfold colorDeclaration
  cases profile.usesPrecision <;> decide

/-- A fragment color that stands in a text has been noted. -/
theorem declaresFragOutput_of_printed (hrun : (Legalize.legalize t p).run.run {} = (.ok p', s))
    (hstage : p.stage = .fragment) (hmodern : t.profile.isLegacy = false)
    (huses : (s.printed p').anyNode (Expr.isBuiltin .fragColor) = true) :
    s.declaresFragOutput = true := by
  have huses' : p.anyNode isFragColor = true :=
    isFragColor_eq ▸ anyNode_of_printed untouched_fragColor (fun _ => rfl) hrun huses
  simp [(heading_legalize hrun).color, declaresFragOutput, hstage, hmodern, huses']

/-- The program that is printed has the head that is asked for. -/
theorem hasHead (hrun : (Legalize.legalize t p).run.run {} = (.ok p', s)) : HasHead t p p' s where
  starts := render_programPieces_starts t.profile s p'
  lines := programPieces_firstLines t.profile s p'
  once := (heading_legalize hrun).once.map pragma_injective
  asked name := ((heading_legalize hrun).mem name).trans mem_extensions_iff
  originFirst huses hpolicy :=
    (heading_legalize hrun).first _ (originExtension?_eq_some_iff.mpr ⟨huses, hpolicy, rfl⟩)
  derivatives huses name hname := by
    have huses' : p.anyNode Expr.takesDerivative = true :=
      anyNode_of_printed untouched_derivative (fun _ => rfl) hrun huses
    exact ((heading_legalize hrun).mem name).mpr (mem_extensions_iff.mpr (.derivative huses' hname))
  colorFirst hstage hmodern huses := by
    -- Before it there are lines alone, and default precisions.
    refine ⟨firstLines t.profile s ++ (if t.profile.usesPrecision then
      [.defaultPrecision "float", .defaultPrecision "sampler2D"] else []),
      fragOutputPieces t.profile.usesPrecision,
      declarationPieces (.ofProfile t.profile p'.stage) s p', ?_, render_fragOutputPieces t.profile,
      fun word => ?_⟩
    · rw [programPieces_eq, declaresFragOutput_of_printed hrun hstage hmodern huses, if_pos rfl]
    · rw [firstLines_eq]
      cases t.profile.usesPrecision <;> simp

/-- A text declares the fragment color if that is noted, and then nothing of its name if the program
    declares nothing of it. -/
theorem declaredNames_of_legalize (hp : p.defect? = none) (hnone : fragColorName ∉ p.names)
    (hrun : (Legalize.legalize t p).run.run {} = (.ok p', s)) :
    ∃ names, fragColorName ∉ names ∧ Piece.declaredNames (programPieces t.profile s p') =
      (if s.declaresFragOutput then [fragColorName] else []) ++ names := by
  obtain ⟨globals, hglobals, hdeclared⟩ := declaredNames_legalize hp hrun
  rw [List.append_assoc, List.append_assoc] at hdeclared
  refine ⟨_, ?_, hdeclared⟩
  simp only [List.mem_append, not_or]
  -- The name is none of the globals, of the helpers and of the program itself.
  refine ⟨fun hglobal => ?_, fun hhelper => ?_, fun hown => ?_⟩
  · have hmem : fragColorName ∈ s.globalNames :=
      hglobals ▸ List.mem_filter.mpr ⟨hglobal, by decide⟩
    exact absurd (globalNames_subset hrun hmem) (by decide)
  · obtain ⟨name, hname, hmem⟩ := List.mem_flatMap.mp hhelper
    obtain ⟨h, hh, rfl⟩ := List.mem_map.mp hname
    rw [(names_helper hrun h hh).2.1] at hmem
    exact absurd hmem (by decide)
  · exact fragColorName_notMem_names hnone hrun (List.mem_of_mem_filter hown)

/-- The fragment color is declared once or never, if the program does not declare it. -/
theorem declaresColor (hp : p.defect? = none) (hnone : fragColorName ∉ p.names)
    (hrun : (Legalize.legalize t p).run.run {} = (.ok p', s)) : DeclaresColor t p p' s := by
  obtain ⟨names, hnames, hdeclared⟩ := declaredNames_of_legalize hp hnone hrun
  constructor
  case once =>
    intro hstage hmodern huses
    -- The printed output is one declaration of the color, and nothing else declares it.
    rw [hdeclared, declaresFragOutput_of_printed hrun hstage hmodern huses, if_pos rfl,
      List.count_append, List.count_eq_zero.mpr hnames, List.count_singleton_self]
  case never =>
    intro hother
    -- Without the flag no output is printed, so the color is not declared at all.
    have hdeclares : s.declaresFragOutput = false := by
      rw [(heading_legalize hrun).color]
      rcases hother with hstage | hlegacy
      · simp [declaresFragOutput, hstage]
      · simp [declaresFragOutput, hlegacy]
    rw [hdeclared, hdeclares]
    exact hnames

/-- The text of a program begins with the extensions that it needs, each once and after the version,
    and with the fragment color where that is an output. If the program declares nothing under the
    name of the fragment color, then this is the only declaration of the name, and texts for which
    the color is no output have none. -/
theorem text_has_head {out : Output} (h : generate t p = .ok out) :
    ∃ p' s, (Legalize.legalize t p).run.run {} = (.ok p', s) ∧
      out.text = Piece.render (programPieces t.profile s p') ∧
      HasHead t p p' s ∧ (fragColorName ∉ p.names → DeclaresColor t p p' s) := by
  obtain ⟨hp, p', s, hrun, -, rfl⟩ := run_of_generate h
  exact ⟨p', s, hrun, rfl, hasHead hrun, fun hnone => declaresColor hp hnone hrun⟩

end

open Legalize

/-- A fragment program that takes the derivative of a coordinate, for a target that moves the origin
    of coordinates by an extension and has another one for derivatives. -/
theorem coordinate_derivative_has_head :
    let coord : Expr := .ofSwizzle (.ofBuiltin .fragCoord) [.x]
    let p : Program := ⟨.fragment, [.function (.entry [.assign (.ofBuiltin .fragColor)
      (.ofConstruct (.halfVec 4) [.ofCall .dFdx [coord]])])]⟩
    let t : Target := { flipsY := true, profile :=
      { coordConvention := .legacyExtension, derivativesExtension := some "derivatives" } }
    fragColorName ∉ p.names ∧ ∃ out p' s, generate t p = .ok out ∧
      out.text = Piece.render (programPieces t.profile s p') ∧
        s.extensions.head? = some originExtension ∧ "derivatives" ∈ s.extensions ∧
          (Piece.declaredNames (programPieces t.profile s p')).count fragColorName = 1 := by
  intro coord p t
  have hnone : fragColorName ∉ p.names := by decide
  obtain ⟨ps, s₁, hpieces, -⟩ := exists_ok_of_any (r := (piecesM t p).run.run {})
    (q := fun _ => true) (by decide +kernel)
  have hout := generate_of_run hpieces
  obtain ⟨p', s, hrun, htext, hhead, hcolor⟩ := text_has_head hout
  -- The color still stands in the text.
  obtain ⟨q, s₂, hrun', huses⟩ := exists_ok_of_any (r := (legalize t p).run.run {})
    (q := fun q => q.anyNode (Expr.isBuiltin .fragColor)) (by decide +kernel)
  obtain ⟨⟨rfl⟩, rfl⟩ := Prod.mk.inj (hrun.symm.trans hrun')
  have hprinted : (s.printed p').anyNode (Expr.isBuiltin .fragColor) = true :=
    (anyNode_printed (fun _ => rfl) hrun).trans huses
  exact ⟨hnone, _, p', s, hout, htext, hhead.originFirst (by decide) (by decide),
    (hhead.asked _).mpr (.derivative (by decide) rfl), (hcolor hnone).once rfl rfl hprinted⟩

/-- A fragment program that has an output under the name of the fragment color, and writes both. Its
    text declares the name twice. -/
theorem fragment_color_is_declared_twice :
    let own : Decl := .uninitialized .output fragColorName (.vec 4)
    let white : Expr := .ofConstruct (.vec 4) [.float .one]
    let p : Program := ⟨.fragment, [.global own,
      .function (.entry [.assign (.ofBuiltin .fragColor) white])]⟩
    let t : Target := { profile := {} }
    p.stage = .fragment ∧ t.profile.isLegacy = false ∧ ∃ out p' s, generate t p = .ok out ∧
      (legalize t p).run.run {} = (.ok p', s) ∧
        out.text = Piece.render (programPieces t.profile s p') ∧
          (s.printed p').anyNode (Expr.isBuiltin .fragColor) = true ∧
            (Piece.declaredNames (programPieces t.profile s p')).count fragColorName = 2 := by
  intro own white p t
  obtain ⟨ps, s₁, hpieces, -⟩ := exists_ok_of_any (r := (piecesM t p).run.run {})
    (q := fun _ => true) (by decide +kernel)
  have hout := generate_of_run hpieces
  obtain ⟨-, p', s, hrun, -, htext⟩ := run_of_generate hout
  -- The run and the count are evaluated together, and then told apart.
  have hboth : (match (legalize t p).run.run {} with
      | (.ok q, s) => (s.printed q).anyNode (Expr.isBuiltin .fragColor) &&
          (Piece.declaredNames (programPieces t.profile s q)).count fragColorName == 2
      | _ => false) = true := by decide +kernel
  rw [hrun] at hboth
  obtain ⟨huses, hcount⟩ := Bool.and_eq_true_iff.mp hboth
  exact ⟨rfl, rfl, _, p', s, hout, hrun, congrArg Output.text htext, huses, eq_of_beq hcount⟩

end ShaderGen
