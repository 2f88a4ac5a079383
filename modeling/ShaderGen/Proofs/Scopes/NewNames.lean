import ShaderGen.Proofs.Scopes.Rules

/-!
# Rules that declare names

Two rules bring in names once and for all: the variables of the prologues for fragment coordinates,
and the name of the function that the invocations call. Others ask stems for names: of flags for
loops, of temporaries, and of functions that initial values move into. Whatever a rule refers to is
declared by what it puts in front of the program, by the element before, or by the body that the
reference stands in.

## Key results

- `keepsTidy_fragCoord`, `keepsTidy_invocations`: names that are brought in once
- `keepsTidy_doWhile`, `keepsTidy_minAbs`, `keepsTidy_fract`: names that stems give out
- `keepsTidy_legalize`: the whole pipeline
-/

namespace ShaderGen.Legalize

open List (Forall₂)
open ShaderGen.Symbol (ofNames Within)

variable {given : List String} {brought : List Symbol} {t : Target} {p : Program} {s : Scratch}

/-! ### Fragment coordinates -/

/-- Names that the prologues for fragment coordinates declare. -/
def coordNames : List String :=
  [FragCoord.flippedName, FragCoord.inverseWName, FragCoord.resolvedName]

/-- The names of the two prologues are no numbered names. -/
theorem unnumbered_coordNames : Unnumbered coordNames := by
  refine unnumbered_of_prefix fun name hname stem => ?_
  simp only [coordNames, List.mem_cons, List.not_mem_nil, or_false] at hname
  rcases hname with rfl | rfl | rfl <;> cases stem <;> decide

/-- Declaring a global uses up no number. -/
theorem counters_declareGlobal (d : Decl) (s : Scratch) :
    (s.declareGlobal d).counters = s.counters := by
  unfold Scratch.declareGlobal
  split <;> rfl

/-- Another global in front of a program. -/
theorem tidy_declareGlobal (d : Decl) (hp : p.Tidy given s) : p.Tidy given (s.declareGlobal d) :=
  hp.mono (List.Subset.refl _) (s.symbols_declareGlobal d) (counters_declareGlobal d s)

/-- Moving the origin declares nothing. -/
theorem tidy_declareUpperLeftOrigin (hp : p.Tidy given s) :
    p.Tidy given s.declareUpperLeftOrigin := by
  refine hp.mono (List.Subset.refl _) ?_ ?_
  · unfold Scratch.declareUpperLeftOrigin
    split
    · exact List.Subset.refl _
    · -- The new global has no symbol of its own, so nothing else comes into scope.
      refine List.append_subset.mpr ⟨?_, List.subset_append_right _ _⟩
      show s.globals.flatMap _ ⊆ (s.globals ++ [_]).flatMap _ ++ _
      rw [List.flatMap_append]
      exact List.subset_append_of_subset_left _ (List.subset_append_left _ _)
  · unfold Scratch.declareUpperLeftOrigin
    split <;> rfl

/-- The sizes that expressions refer to are declared, if nothing else is. -/
theorem sizesIn_of_anyNode
    (hwidth : p.anyNode TargetSize.isWidth = false ∨ .variable TargetSize.widthName ∈ brought)
    (hheight : p.anyNode TargetSize.isHeight = false ∨ .variable TargetSize.heightName ∈ brought) :
    p.All (SizesIn brought) := by
  -- One test for each of the two sizes, to be put together at the end.
  have hone : ∀ {q : Expr → Bool} {x : Symbol}, p.anyNode q = false ∨ x ∈ brought →
      p.All (Expr.Every fun n => !q n || brought.contains x) := by
    intro q x h
    rcases h with h | h
    · exact (Program.anyNode_eq_false_iff.mp h).mono fun e he =>
        Expr.any_mono (fun n hn => by simp_all) he
    · exact (p.meets_anything.all rfl).mono fun e _ => Expr.every_of_forall fun n => by
        simp [h]
  exact (hone hwidth).imp₂ (hone hheight) fun e hw hh => Expr.every_and.mpr ⟨hw, hh⟩

/-- A global is declared if it is called for. -/
theorem tidy_declare (called : Bool) (declare : Scratch → Scratch) {d : Decl}
    (hdeclare : ∀ s, (declare s).symbols = (s.declareGlobal d).symbols ∧
      (declare s).counters = (s.declareGlobal d).counters) (hp : p.Tidy given s) :
    ∃ s', (if called = true then declare s else s) = s' ∧ p.Tidy given s' ∧
      s.symbols ⊆ s'.symbols ∧ (called = false ∨ .variable d.name ∈ s'.symbols) := by
  refine ⟨_, rfl, ?_⟩
  split
  · -- What is declared stays in scope, and no name is used up.
    have hsymbols : s.symbols ⊆ (declare s).symbols :=
      (hdeclare s).1 ▸ s.symbols_declareGlobal d
    have hcounters : (declare s).counters = s.counters :=
      (hdeclare s).2.trans (counters_declareGlobal d s)
    exact ⟨hp.mono (List.Subset.refl _) hsymbols hcounters, hsymbols,
      .inr ((hdeclare s).1 ▸ s.mem_symbols_declareGlobal d)⟩
  · next hcalled => exact ⟨hp, List.Subset.refl _, .inl (by simpa using hcalled)⟩

/-- The uniforms for the size are declared before they are referred to. -/
theorem tidy_targetSize (hp : p.Tidy given s) :
    ((TargetSize.legalize p).run s).1.Tidy given ((TargetSize.legalize p).run s).2 := by
  -- The width comes first, so what its uniform brought into scope is there when the height follows.
  obtain ⟨s₁, h₁, hp₁, -, hwidth⟩ := tidy_declare (p.anyNode TargetSize.isWidth)
    TargetSize.declareWidth (fun _ => ⟨rfl, rfl⟩) hp
  obtain ⟨s₂, h₂, hp₂, hsymbols, hheight⟩ := tidy_declare (p.anyNode TargetSize.isHeight)
    TargetSize.declareHeight (fun _ => ⟨rfl, rfl⟩) hp₁
  have hrun : (TargetSize.legalize p).run s = (p.mapNodes TargetSize.substituteNode, s₂) := by
    rw [TargetSize.run_legalize, ← h₂, ← h₁]
  have hnodes : Yields (fun p' => Element.Spreads s₂.symbols [] p.elements p'.elements)
      (p.mapNodesM fun e => (pure (TargetSize.substituteNode e) : Id Expr)) :=
    Element.mapExprsM_spreads Judgement.yields.verdict
      (fun e he => .pure (grants_substitute he))
      (sizesIn_of_anyNode (hwidth.imp_right fun h => hsymbols h) hheight)
  rw [hrun]
  exact hp₂.spreads hnodes.of_id (List.Subset.refl _)

/-- A function that starts with a prologue reads the variable that the prologue declares. -/
theorem refits_reconstruct {prologue : FragCoord.Prologue}
    (hbound : Stmt.ListBound brought prologue.statements)
    (hholder : prologue.holder ∈ Stmt.listDeclared prologue.statements) (fn : Function) :
    Element.Refits brought (Stmt.listLocals prologue.statements) (.function fn)
      (.function (FragCoord.reconstruct prologue fn)) := by
  unfold FragCoord.reconstruct
  split
  swap
  · exact .refl _
  have hwalk : Yields (Forall₂ (Stmt.Mirrors (Expr.Grants [.variable prologue.holder])) fn.body)
      (Stmt.mapExprsListM (fun e => (pure (e.bottomUp (FragCoord.readLocal prologue)) : Id Expr))
        fn.body) :=
    Stmt.mapExprsListM_mirrors Judgement.yields.verdict (Q := fun _ => True)
      (fun e _ => .pure (Expr.isCongruence_grants.bottomUp
        (grants_readLocal (List.mem_singleton_self _)) e))
      (fun s _ => Stmt.all_iff_fits.mpr (s.fits_of_forall (fun _ => trivial) fun _ => trivial))
  have himages := hwalk.of_id.imp fun _ _ hs => hs.image
  refine .body (fun x => ?_) fun scope hbrought hbody => ?_
  · have hlocals := congrArg (List.count x) (Stmt.Image.listLocals himages)
    rw [Stmt.listLocals_append, List.count_append, Nat.add_comm]
    exact Nat.add_le_add_right (Nat.le_of_eq hlocals) _
  · -- What the prologue declares is in scope in the rest of the body.
    refine Stmt.listBound_append.mpr ⟨hbound.mono (.of_subset hbrought), ?_⟩
    refine Stmt.Image.listBound himages (.of_subset (List.subset_append_left _ _)) ?_ hbody
    refine List.cons_subset.mpr ⟨List.mem_append_right _ ?_, List.nil_subset _⟩
    exact Symbol.mem_ofNames.mpr hholder

/-- Prologues are put before functions once what they refer to is declared. -/
theorem tidy_reconstruct {prologue : FragCoord.Prologue}
    (hnodup : (Stmt.listLocals prologue.statements).Nodup)
    (hnames : Stmt.listLocals prologue.statements ⊆ coordNames)
    (hbound : Stmt.ListBound s.symbols prologue.statements)
    (hholder : prologue.holder ∈ Stmt.listDeclared prologue.statements) (hp : p.Tidy [] s) :
    (p.mapFunctions (FragCoord.reconstruct prologue)).Tidy coordNames s := by
  -- The locals of the prologue are new names, each used once.
  have henters : Enters (s.Used []) (s.Used ([] ++ Stmt.listLocals prologue.statements))
      (Stmt.listLocals prologue.statements) :=
    enters_given hnodup (fun name hname => unnumbered_coordNames name (hnames hname))
      (fun _ _ => List.not_mem_nil) rfl
  have htidy := Tidy.spreads hp
    (Element.mapFunctions_spreads (refits_reconstruct hbound hholder) p) (List.Subset.refl _)
    (List.Subset.refl _) henters
  exact Program.Tidy.mono (p := p.mapFunctions (FragCoord.reconstruct prologue)) htidy hnames
    (List.Subset.refl _) rfl

/-- The prologue that flips is bound where the height is in scope. -/
theorem bound_flipped {scope : List Symbol} (h : .variable TargetSize.heightName ∈ scope) :
    Stmt.ListBound scope FragCoord.flipped.statements := by
  have hheight : TargetSize.height.Bound scope := Expr.bound_ofVar h
  simp [FragCoord.flipped, Stmt.Bound, Decl.plain, Expr.ofBuiltin, hheight]

/-- The prologue that resolves is bound where the varying is in scope. -/
theorem bound_resolved {scope : List Symbol} (h : .variable FragCoord.varyingName ∈ scope) :
    Stmt.ListBound scope FragCoord.resolved.statements := by
  have hof : ∀ {name : String} {ty : Ty} {scope : List Symbol}, .variable name ∈ scope →
      (Expr.ofVar name ty).Bound scope := fun h => Expr.bound_ofVar h
  simp [FragCoord.resolved, Stmt.Bound, Stmt.assign, Stmt.declared, Decl.plain, hof, h]

/-- Whatever the policy, the program stays tidy, with at most the locals of a prologue added. -/
theorem keepsTidy_applyPolicy (policy : CoordPolicy) (usesCoord : Bool) :
    KeepsTidy [] coordNames p (liftM (FragCoord.applyPolicy policy usesCoord p)) := by
  have hmore : ∀ {p : Program} {s : Scratch}, p.Tidy [] s → p.Tidy coordNames s := fun hp =>
    hp.mono (List.nil_subset _) (List.Subset.refl _) rfl
  refine .of_run fun s hp => ?_
  -- Only the last two policies write names into the program, and both declare them before they do.
  unfold FragCoord.applyPolicy
  cases policy with
  | direct upperLeft =>
    dsimp only
    split
    · exact hmore (tidy_declareUpperLeftOrigin hp)
    · exact hmore hp
  | legacyExtension =>
    dsimp only
    split
    · exact hmore (tidy_declareUpperLeftOrigin (s := s.requireExtensionFirst _)
        (hp.mono (List.Subset.refl _) (List.Subset.refl _) rfl))
    · exact hmore hp
  | fromHeight =>
    dsimp only
    split
    · have hdeclared : p.Tidy [] (TargetSize.declareHeight s) :=
        hp.mono (List.Subset.refl _) (s.symbols_declareGlobal _) (counters_declareGlobal _ s)
      exact tidy_reconstruct (by decide) (by decide)
        (bound_flipped (s.mem_symbols_declareGlobal _)) (by decide) hdeclared
    · exact hmore hp
  | fromVarying =>
    dsimp only
    split
    · -- A vertex program passes the position on, for which the varying has to be in scope.
      exact hmore ((tidy_declareGlobal _ hp).spreads
        (mapNodes_spreads (grants_forwardNode (List.mem_singleton_self _)) p)
        (List.cons_subset.mpr ⟨s.mem_symbols_declareGlobal _, List.nil_subset _⟩))
    · -- A fragment program reads the varying, if it reads coordinates at all.
      have hdeclared := tidy_declareGlobal
        (.uninitialized .input FragCoord.varyingName (.vec 4)) hp
      by_cases huses : usesCoord = true
      · subst huses
        exact tidy_reconstruct (by decide) (by decide)
          (bound_resolved (s.mem_symbols_declareGlobal _)) (by decide) hdeclared
      · rw [if_neg huses]
        exact hmore hdeclared
    · exact hmore hp

/-- The rule for fragment coordinates keeps programs tidy. -/
theorem keepsTidy_fragCoord : KeepsTidy [] coordNames p (FragCoord.legalize t p) := by
  -- Flipping declares nothing.
  have hflip : ∀ p : Program, KeepsTidy coordNames coordNames p
      (pure (if t.flipsY = true then FlipY.legalize p else p)) := by
    intro p
    split
    · exact .pure (spreads_flipY p)
    · exact .skip (List.Subset.refl _)
  have hrest : ∀ p usesCoord, KeepsTidy [] coordNames p (do
      modify (Scratch.report (.coordPolicy t.coordPolicy usesCoord))
      let p ← liftM (FragCoord.applyPolicy t.coordPolicy usesCoord p)
      pure (if t.flipsY = true then FlipY.legalize p else p)) :=
    fun p usesCoord => ((keepsTidy_applyPolicy _ usesCoord).bind hflip).report
  unfold FragCoord.legalize
  refine KeepsTidy.bind (.of_run fun s => tidy_targetSize) fun p => ?_
  dsimp only
  split
  · -- Outside of fragment programs, coordinates are refused.
    exact fun s _ p' s' hrun => absurd (congrArg Prod.fst hrun) nofun
  · exact hrest p _

/-! ### Invocations -/

/-- Names that are brought in before stems give out any. -/
def givenNames : List String := coordNames ++ [Invocations.invokeName]

/-- None of the names that rules give is a numbered one. -/
theorem unnumbered_givenNames : Unnumbered givenNames := by
  refine List.forall_mem_append.mpr ⟨unnumbered_coordNames, ?_⟩
  refine unnumbered_of_prefix fun name hname stem => ?_
  obtain rfl := List.mem_singleton.mp hname
  cases stem <;> decide

/-- The entry function under its new name. -/
def invoked (fn : Function) : Function := { fn with name := Invocations.invokeName }

/-- The entry function takes a name that was not in use; its own name was not brought in. -/
theorem spreads_invoked {fn : Function} (hentry : fn.isEntry = true) :
    Element.Spreads [] [Invocations.invokeName] [.function fn] [.function (invoked fn)] := by
  -- The old name is that of the entry function, which nothing refers to as a name that rules
  -- brought in.
  have hname : fn.name = Function.entryName := by simpa [Function.isEntry] using hentry
  have hsymbol : fn.symbol.isSynthesized = false := by
    rw [Function.symbol, Symbol.isSynthesized_ofFunction, hname]
    decide
  -- So whatever is needed is still in scope under the new name.
  have hwithin : ∀ scope added : List Symbol,
      Within (scope ++ fn.symbol :: added) (scope ++ (invoked fn).symbol :: added) := by
    intro scope added sym hsym hsynthesized
    rcases List.mem_append.mp hsym with hsym | hsym
    · exact List.mem_append_left _ hsym
    · rcases List.mem_cons.mp hsym with rfl | hsym
      · exact absurd hsynthesized (by simp [hsymbol])
      · exact List.mem_append_right _ (List.mem_cons_of_mem _ hsym)
  -- What the element declares, and what its body declares, is as before otherwise.
  refine ⟨?_, List.Subset.refl _, fun x hx => ?_, fun el' hel' => ?_, fun _ hbound => ?_⟩
  · intro sym hsym hsynthesized
    obtain rfl : sym = fn.symbol := by simpa [Element.declared] using hsym
    exact absurd hsynthesized (by simp [hsymbol])
  · simp [Element.functions, invoked]
  · obtain rfl := List.mem_singleton.mp hel'
    exact ⟨_, .inr ⟨_, List.mem_singleton_self _, rfl⟩, fun _ => Nat.le_add_right _ _⟩
  · exact ⟨Stmt.ListBound.mono hbound.1 (hwithin _ _), trivial⟩

/-- The first entry function is renamed, if there is one. -/
theorem spreads_mapFirstEntry (els : List Element) :
    Element.Spreads [] [Invocations.invokeName] els (Element.mapFirstEntry invoked els) := by
  have hsame : ∀ els : List Element, Element.Spreads [] [] els els := fun els =>
    .of_forall₂ (List.forall₂_same.mpr fun el _ => .refl el)
  induction els with
  | nil => exact .of_forall₂ .nil
  | cons el els ih =>
    cases el with
    -- Only the first entry function gets the new name; what comes after it stays as it is.
    | function fn =>
      unfold Element.mapFirstEntry
      split
      · next hentry => exact (spreads_invoked hentry).append (hsame els)
      · exact (hsame [.function fn]).append ih
    | global d => exact (hsame [.global d]).append ih
    | layout l => exact (hsame [.layout l]).append ih

/-- After the entry function was renamed, its new name is declared. -/
theorem mem_declared_mapFirstEntry {els : List Element}
    (h : ∃ fn, .function fn ∈ els ∧ fn.isEntry = true) :
    .function Invocations.invokeName ∈
      (Element.mapFirstEntry invoked els).flatMap Element.declared := by
  induction els with
  | nil => exact absurd h (by simp)
  | cons el els ih =>
    obtain ⟨fn, hmem, hentry⟩ := h
    have hlater : .function fn ∈ els → .function Invocations.invokeName ∈
        (Element.mapFirstEntry invoked els).flatMap Element.declared :=
      fun hmem => ih ⟨fn, hmem, hentry⟩
    cases el with
    -- Either this is the entry function, or it comes later.
    | function fn' =>
      unfold Element.mapFirstEntry
      split
      · exact List.mem_append_left _ (List.mem_singleton_self _)
      · next hother =>
        refine List.mem_append_right _ (hlater ((List.mem_cons.mp hmem).resolve_left ?_))
        rintro ⟨rfl⟩
        exact hother hentry
    | global d => exact List.mem_append_right _ (hlater (by simpa using hmem))
    | layout l => exact List.mem_append_right _ (hlater (by simpa using hmem))

/-- Layouts declare nothing, so they may go or change. -/
theorem spreads_scaleElement (count : Nat) (els : List Element) :
    Element.Spreads [] [] els (els.filterMap (Invocations.scaleElement count)) := by
  -- Layouts declare nothing, so it makes no difference that some of them go.
  have hone : ∀ el, Element.Spreads [] [] [el] ((Invocations.scaleElement count el).toList) := by
    intro el
    have hsame : Element.Spreads [] [] [el] [el] :=
      .of_forall₂ (List.forall₂_same.mpr fun el _ => .refl el)
    -- A layout may lose items or go altogether.
    have hlayout : ∀ l (o : Option Layout), Element.Spreads [] [] [.layout l]
        (o.map Element.layout).toList := by
      intro l o
      cases o with
      | none => exact ⟨.refl _, List.Subset.refl _, fun _ _ => Nat.le_refl _, nofun,
          fun _ _ => trivial⟩
      | some l' => exact .of_forall₂ (.cons ⟨rfl, rfl, rfl, fun _ => Nat.le_refl _,
          fun _ _ => trivial⟩ .nil)
    unfold Invocations.scaleElement
    split
    · dsimp only
      split
      · exact hlayout _ none
      · exact hlayout _ (some _)
    · exact hlayout _ (some _)
    · exact hsame
  -- The elements are treated one by one.
  induction els with
  | nil => exact .nil
  | cons el els ih =>
    have hcons : (el :: els).filterMap (Invocations.scaleElement count) =
        (Invocations.scaleElement count el).toList ++
          els.filterMap (Invocations.scaleElement count) := by
      rw [List.filterMap_cons]
      cases Invocations.scaleElement count el <;> rfl
    rw [hcons]
    exact (hone el).append ih

/-- The new entry function is bound where the counter and the old entry function are in scope. -/
theorem bound_runAll {scope : List Symbol} (hcounter : .variable Invocations.counterName ∈ scope)
    (hinvoke : .function Invocations.invokeName ∈ scope) (count : Nat) :
    (Invocations.runAll count).Bound scope := by
  have hread : ∀ {scope}, .variable Invocations.counterName ∈ scope →
      Invocations.counter.Bound scope := fun h => Expr.bound_ofVar h
  have hcall : ∀ {scope}, .function Invocations.invokeName ∈ scope →
      (Expr.ofUserCall Invocations.invokeName [] .void).Bound scope :=
    fun h => Expr.bound_userCall h nofun
  simp [Function.Bound, Invocations.runAll, Function.entry, Stmt.Bound, Stmt.OptionBound,
    Stmt.declared, Stmt.assign, hread, hcall, hcounter, hinvoke]

/-- The rule for invocations keeps programs tidy. -/
theorem keepsTidy_invocations : KeepsTidy coordNames givenNames p (Invocations.legalize p) := by
  intro s hp p' s' hrun
  rw [Invocations.run_legalize_eq] at hrun
  split at hrun
  swap
  · exact absurd (congrArg Prod.fst hrun) nofun
  next hentry =>
  rw [Prod.ext_iff] at hrun
  obtain rfl : Invocations.looped p = p' := Except.ok.inj hrun.1
  have hstate : (s.report _).declareGlobal _ = s' := hrun.2
  have hcounter : .variable Invocations.counterName ∈ s'.symbols :=
    hstate ▸ Scratch.mem_symbols_declareGlobal _
  have hstart : p.Tidy coordNames s' := hstate ▸ tidy_declareGlobal _
    (hp.mono (List.Subset.refl _) (List.Subset.refl _) rfl)
  have hfresh : Invocations.invokeName ∉ coordNames := by decide
  -- The entry function is renamed, layouts are scaled, and the counter is read.
  have hrenamed := Tidy.spreads hstart (spreads_mapFirstEntry p.elements) (List.Subset.refl _)
    (List.nil_subset _) (enters_given (List.nodup_singleton _)
      (fun x hx => unnumbered_givenNames x (List.mem_append_right _ hx))
      (fun x hx => List.mem_singleton.mp hx ▸ hfresh) rfl)
  have hscaled := spreads_scaleElement p.declaredInvocations
    (Element.mapFirstEntry invoked p.elements)
  have hread := mapNodes_spreads
    (grants_readCounter (List.mem_singleton_self (Symbol.variable Invocations.counterName)))
    ⟨p.stage, (Element.mapFirstEntry invoked p.elements).filterMap
      (Invocations.scaleElement p.declaredInvocations)⟩
  have hcounted := (hrenamed.replace hscaled (List.nil_subset _)).replace hread
    (List.cons_subset.mpr ⟨hcounter, List.nil_subset _⟩)
  -- The function that is called in the end is declared throughout.
  refine hcounted.append (bound_runAll (List.mem_append_left _ hcounter)
    (List.mem_append_right _ ?_) _)
    (show isSynthesized Function.entryName = false by decide) rfl
  refine (hscaled.declared.trans hread.declared) _ (mem_declared_mapFirstEntry ?_) (by decide)
  obtain ⟨fn, hfn, hisEntry⟩ := List.any_eq_true.mp hentry
  obtain ⟨el, hel, hfunction⟩ := List.mem_filterMap.mp hfn
  cases el with
  | function fn' => exact ⟨fn', hel, Option.some.inj hfunction ▸ hisEntry⟩
  | _ => exact absurd hfunction nofun

/-! ### Loops that test at the end -/

/-- The flag is declared before the loop that reads it. -/
theorem spreads_replace (flag : String) (s : Stmt) :
    Stmt.Spreads [flag] [s] (DoWhile.replace flag s) := by
  unfold DoWhile.replace
  split
  · next body cond =>
    refine ⟨⟨fun x => ?_, fun {scope} hs => ?_⟩, List.nil_subset _⟩
    · -- The locals are the flag and those of the body.
      have hnames : Stmt.listLocals [.decl (.plain flag .bool (some (.bool false))),
          .whileLoop (.bool true) (.block [DoWhile.exitCheck (.ofVar flag .bool) cond,
            .assign (.ofVar flag .bool) (.bool true), body.toBlock])] =
          [flag] ++ body.locals := by
        simp [Stmt.locals, Stmt.optionLocals, DoWhile.exitCheck, Stmt.assign, Decl.plain]
      have hold : Stmt.listLocals [.doWhile body cond] = body.locals := List.append_nil _
      rw [hnames, hold, List.count_append]
      exact Nat.le_of_eq (Nat.add_comm _ _)
    · -- The condition and the body were bound before the flag came into scope, and stay so.
      obtain ⟨hcond, hbody⟩ := hs.1
      have hwithin : Within scope (scope ++ ofNames [flag]) :=
        .of_subset (List.subset_append_left _ _)
      have hflag : (Expr.ofVar flag .bool).Bound (scope ++ ofNames [flag]) :=
        Expr.bound_ofVar (List.mem_append_right _ (List.mem_singleton_self _))
      have hcond' := hcond.mono hwithin
      have hbody' := Stmt.bound_toBlock (hbody.mono hwithin)
      -- The loop refers to the flag, which is declared right before it.
      have hloop : Stmt.Bound (scope ++ ofNames [flag]) (.whileLoop (.bool true)
          (.block [DoWhile.exitCheck (.ofVar flag .bool) cond,
            .assign (.ofVar flag .bool) (.bool true), body.toBlock])) := by
        simp [Stmt.Bound, Stmt.OptionBound, DoWhile.exitCheck, Stmt.assign, Stmt.declared, hflag,
          hcond', hbody']
      exact ⟨by simp [Stmt.Bound, Decl.plain], hloop, trivial⟩
  · exact .refl _

/-- Visiting a statement uses up a name for a flag if it replaces a loop. -/
theorem spreads_visit (s : Stmt) : (numbering .loopFlag).Holds
    (fun names replace => ∀ s, Stmt.Spreads names [s] (replace s)) (DoWhile.visit s) := by
  unfold DoWhile.visit
  split
  · exact (numbering _).map (numbering_freshName _) fun names flag hnames s =>
      hnames ▸ spreads_replace flag s
  · exact (numbering _).pure fun s => .refl _

/-- The rule for loops that test at the end keeps programs tidy. -/
theorem keepsTidy_doWhile (hgiven : Unnumbered given) :
    KeepsTidy given given p (liftM (DoWhile.legalize p)) := by
  refine .of_naming hgiven (numberingGen_lift
    (Element.mapFunctionsM_spreads (numbering .loopFlag) (fun fn => ?_) p))
  exact (numbering _).map (Stmt.expandListM_spreads _ spreads_visit fn.body)
    fun names body hbody => refits_of_spreads hbody

/-! ### Initial values that move into functions -/

/-- The function is declared right before the global that calls it. -/
theorem spreads_hoisted (name : String) {d : Decl} {value : Expr} (hinit : d.init = some value) :
    Element.Spreads [] [name] [.global d] [.function (HoistInit.initializer name d.ty value),
      .global { d with init := some (.ofUserCall name [] d.ty) }] where
  declared := .of_subset (List.subset_cons_self _ _)
  globals := List.Subset.refl _
  functions x _ := by simp [Element.functions, HoistInit.initializer]
  locals el' hel' := by
    refine ⟨[], .inl rfl, fun x => ?_⟩
    -- Neither the function nor the global has any locals.
    have hnone : el'.locals = [] := by
      simp only [List.mem_cons, List.not_mem_nil, or_false] at hel'
      rcases hel' with rfl | rfl <;> rfl
    simp [hnone]
  bound {scope} _ hbound := by
    -- The value was bound before the function was declared, and the call refers to that function.
    have hvalue : value.Bound scope := hbound.1 value hinit
    refine ⟨⟨?_, trivial⟩, ?_, trivial⟩
    · rintro _ ⟨rfl⟩
      exact hvalue.mono (.of_subset (List.subset_append_left _ _))
    · rintro _ ⟨rfl⟩
      exact Expr.bound_userCall (List.mem_append_right _ (List.mem_singleton_self _))
        (List.forall_mem_nil _)

/-- Moving one initial value uses up a name for a function if there is anything to move. -/
theorem spreads_hoistElement (stem : Stem) (needsFunction : Expr → Bool) (el : Element) :
    (numberingGen stem).Holds (fun names els => Element.Spreads [] names [el] els)
      (HoistInit.hoistElement stem needsFunction el) := by
  obtain ⟨heq, -⟩ | ⟨d, value, rfl, hinit, -, ⟨-, heq⟩ | ⟨-, heq⟩⟩ :=
    HoistInit.hoistElement_cases stem needsFunction el <;> rw [heq]
  · exact (numberingGen stem).pure (.of_forall₂ (List.forall₂_same.mpr fun el _ => .refl el))
  · exact (numberingGen stem).map (numberingGen_lift (numbering_freshName stem))
      fun names name hnames => hnames ▸ spreads_hoisted name hinit
  · exact numberingGen_fail _

/-- The same for all elements of a program. -/
theorem spreads_hoist (stem : Stem) (needsFunction : Expr → Bool) (p : Program) :
    (numberingGen stem).Holds (fun names p' => Element.Spreads [] names p.elements p'.elements)
      (HoistInit.hoist stem needsFunction p) := by
  -- Elements are treated in order, each with the names that are left.
  have hels : ∀ els : List Element, (numberingGen stem).Holds
      (fun names r => Element.Spreads [] names els r.flatten)
      (els.mapM (HoistInit.hoistElement stem needsFunction)) := by
    intro els
    induction els with
    | nil =>
      rw [List.mapM_nil]
      exact (numberingGen stem).pure .nil
    | cons el els ih =>
      rw [List.mapM_cons]
      refine (numberingGen stem).bind (spreads_hoistElement stem needsFunction el)
        fun first r hr => ?_
      exact (numberingGen stem).map ih fun later rs hrs => hr.append hrs
  exact (numberingGen stem).map (hels p.elements) fun names r hr => hr

/-! ### Temporaries -/

/-- The temporaries of a function are declared at the start of its body. -/
theorem refits_withTemporaries {stem : Stem} {f : Expr → TempM Expr}
    (hf : ∀ e, Supplies stem (fun own e' => Expr.Grants (ofNames own) e e') (f e))
    (fn : Function) : (numbering stem).Holds
      (fun names fn' => Element.Refits [] names (.function fn) (.function fn'))
      (withTemporaries f fn) := by
  intro s
  -- While the body is walked, names are taken from the supply, and each node may refer to those
  -- taken so far.
  have hwalk : ∀ names, (settling stem names).Holds
      (Forall₂ (Stmt.Mirrors (Expr.Grants (ofNames names))) fn.body)
      (Stmt.mapExprsListM (Expr.bottomUpM f) fn.body) := by
    intro names
    refine Stmt.mapExprsListM_mirrors (settling stem names) (Q := fun _ => True) (fun e _ => ?_)
      fun s _ => Stmt.all_iff_fits.mpr (s.fits_of_forall (fun _ => trivial) fun _ => trivial)
    refine Expr.isCongruence_grants.bottomUpM_verdict (settling stem names) (fun e => ?_) e
    exact (hf e).settles fun own e' hown h => h.mono (List.map_subset _ hown)
  -- Then the temporaries are declared in front of the body.
  obtain ⟨temps, body, count, hrun, hnames, hinit, hbody⟩ := exists_run_withTemporaries hwalk s
  have himages := hbody.imp fun _ _ hs => hs.image
  refine ⟨count, congrArg Prod.snd hrun, ?_⟩
  rw [hrun, ← hnames]
  -- What is declared is counted first; then scopes.
  refine .body (fun x => ?_) fun scope _ hscope => ?_
  · rw [Stmt.listLocals_append, Stmt.listLocals_decls, Stmt.Image.listLocals himages,
      List.count_append]
    exact Nat.le_of_eq (Nat.add_comm _ _)
  · refine Stmt.listBound_append.mpr ⟨Stmt.listBound_decls hinit, ?_⟩
    rw [Stmt.listDeclared_decls]
    exact Stmt.Image.listBound himages (.of_subset (List.subset_append_left _ _))
      (List.subset_append_right _ _) hscope

/-- The rule for minima keeps programs tidy. -/
theorem keepsTidy_minAbs (hgiven : Unnumbered given) :
    KeepsTidy given given p (MinAbs.legalize p) :=
  (KeepsTidy.of_naming hgiven (spreads_hoist .minAbsInit MinAbs.isMinAbs p)).bind fun p =>
    .of_naming hgiven (Element.mapFunctionsM_spreads (numberingGen .minAbsTemp)
      (fun fn => numberingGen_lift (refits_withTemporaries grants_splitNode fn)) p)

/-- What an element becomes when its fractions are guarded. -/
theorem refits_guardElement (el : Element) : (numbering .fractTemp).Holds
    (fun names el' => Element.Refits [] names el el') (Fract.guardElement el) := by
  cases el with
  -- A global that stays is rewritten without any temporaries.
  | global d =>
    have hguarded : Yields (Element.Refits [] [] (.global d))
        (Element.mapExprsM (fun e => (pure (e.bottomUp Fract.guardPure) : Id Expr)) (.global d)) :=
      Element.mapExprsM_refits Judgement.yields.verdict (Q := fun _ => True)
        (fun e _ => .pure (Expr.isCongruence_grants.bottomUp grants_guardPure e))
        fun _ _ => trivial
    exact (numbering _).pure hguarded.of_id
  | function fn =>
    exact (numbering _).map (refits_withTemporaries grants_guardNode fn) fun names fn' h => h
  | layout l => exact (numbering _).pure (.refl _)

/-- The rule for fractions keeps programs tidy. -/
theorem keepsTidy_fract (hgiven : Unnumbered given) :
    KeepsTidy given given p (Fract.legalize p) := by
  refine (KeepsTidy.of_naming hgiven (spreads_hoist .fractInit Fract.needsTemporary p)).bind
    fun p => ?_
  -- Each function gets temporaries with names of its own.
  have helements : (numbering .fractTemp).Holds
      (fun names els => Forall₂ (Element.Refits [] names) p.elements els)
      (p.elements.mapM Fract.guardElement) :=
    (numbering _).mapM (fun h hnames => h.mono hnames) fun el _ => refits_guardElement el
  exact .of_naming hgiven
    ((numberingGen _).map (numberingGen_lift helements) fun names els h => .of_forall₂ h)

/-! ### The pipeline -/

/-- Rules that run once all names are brought in that do not come from stems. -/
theorem keepsTidy_rules {rules : List Rule}
    (hrules : ∀ r ∈ rules, r ∈ rulesAfter "gs_invocations") :
    KeepsTidy givenNames givenNames p (rules.foldlM (Rule.step t) p) := by
  have hrule : ∀ r ∈ rulesAfter "gs_invocations", ∀ p : Program,
      KeepsTidy givenNames givenNames p (r.run t p) := by
    -- One case for each rule, in the order of the pipeline.
    intro r hr p
    simp only [rulesAfter, pipeline, List.dropWhile, Rule.name_always, String.reduceBNe,
      List.tail_cons, List.mem_cons, List.not_mem_nil, or_false] at hr
    obtain rfl | rfl | rfl | rfl | rfl | rfl | rfl | rfl | rfl | rfl := hr
    · exact keepsTidy_ternaryTarget
    · exact keepsTidy_doWhile unnumbered_givenNames
    · exact keepsTidy_shortCircuit
    · exact keepsTidy_loopCondition
    · exact keepsTidy_constantPow
    · exact keepsTidy_intAbs
    · exact keepsTidy_minAbs unnumbered_givenNames
    · exact keepsTidy_fract unnumbered_givenNames
    · exact keepsTidy_atanOperand
    · exact keepsTidy_swizzle
  -- By induction on the rules: each keeps tidy what the ones before it have left.
  induction rules generalizing p with
  | nil => exact .skip (List.Subset.refl _)
  | cons r rules ih =>
    rw [List.foldlM_cons]
    refine KeepsTidy.bind (.step (List.Subset.refl _) (hrule r (hrules r List.mem_cons_self) p))
      fun p => ih fun r hr => hrules r (List.mem_cons_of_mem _ hr)

/-- The whole pipeline leads from a tidy program to a tidy one. -/
theorem keepsTidy_legalize : KeepsTidy [] givenNames p (legalize t p) := by
  have hsplit : legalize t p = (do
      let p ← Rule.step t p (.always "header" Preamble.legalize)
      let p ← Rule.step t p ⟨"force_high_precision",
        fun t _ => t.profile.usesPrecision && t.profile.forcesHighPrecision,
        fun _ p => pure (HighPrecision.legalize p)⟩
      let p ← Rule.step t p (.always "frag_coord" FragCoord.legalize)
      let p ← Rule.step t p (.always "texture_sample" fun t p =>
        liftMalformed (TextureLookup.legalize t.profile p))
      let p ← Rule.step t p ⟨"gs_invocations", Invocations.enabled,
        fun _ => Invocations.legalize⟩
      (rulesAfter "gs_invocations").foldlM (Rule.step t) p) := rfl
  -- The first five rules are told apart, because the names that are given change with them.
  rw [hsplit]
  refine KeepsTidy.bind (.step (List.Subset.refl _) keepsTidy_header) fun p => ?_
  refine KeepsTidy.bind (.step (List.Subset.refl _) keepsTidy_highPrecision) fun p => ?_
  refine KeepsTidy.bind (.step (List.nil_subset _) keepsTidy_fragCoord) fun p => ?_
  refine KeepsTidy.bind (.step (List.Subset.refl _) keepsTidy_textureLookup) fun p => ?_
  refine KeepsTidy.bind (.step (List.subset_append_left _ _) keepsTidy_invocations) fun p => ?_
  exact keepsTidy_rules fun r hr => hr

end ShaderGen.Legalize
