import ShaderGen.Proofs.Legalize.Calm
import ShaderGen.Proofs.Legalize.Globals

/-!
# Initial values of qualified declarations

A declaration with a storage class, such as `const`, needs an initial value without side effects.
The rules for minima and for fractions, which may bring some in, refuse a program where they would
do so for a qualified global. The rule for absolute values of integers does not, and neither does
any rule for a declaration within a function, so initial values of these kinds may come to call a
function or to assign (`constants_come_to_act`).

## Main definitions

- `Outline.qualified`: what is asked of the initial values of qualified declarations
- `Quiet`, `GlobalValue`, `LocalValue`: what may stand in initial values

## Key results

- `qualified_initializers_stay_quiet`: where neither is the case, no initial value of a qualified
  declaration gets side effects, and a minimum of an absolute value in one of a global is refused
-/

namespace ShaderGen

open Legalize.MinAbs (isMinAbs)

/-- The initial value of a declaration with a storage class is as asked. -/
def Decl.Qualified (Q : Expr → Prop) (d : Decl) : Prop := d.storage ≠ .auto → ∀ e ∈ d.init, Q e

/-- If a statement is a declaration with a storage class, its initial value is as asked. -/
def Stmt.Qualified (Q : Expr → Prop) : Stmt → Prop
  | .decl d => d.Qualified Q
  | _ => True

/-- Whether a declaration with a storage class has an initial value with side effects. -/
def Decl.acts (d : Decl) : Bool := d.storage != .auto && d.init.any Expr.hasSideEffects

def Stmt.acts : Stmt → Bool
  | .decl d => d.acts
  | _ => false

def Element.acts : Element → Bool
  | .global d => d.acts
  | .function f => f.body.any Stmt.acts
  | .layout _ => false

/-- A demand on the initial value of a declaration goes over to its mirror. -/
theorem Decl.Qualified.mirror {R : Expr → Expr → Prop} {Q Q' : Expr → Prop}
    {d d' : Decl} (hQ : d.Qualified Q) (hd : d.Mirrors R d')
    (h : ∀ {e e'}, R e e' → Q e → Q' e') : d'.Qualified Q' := by
  intro hstorage e' he'
  have hinit := hd.init
  rw [Option.mem_def.mp he'] at hinit
  -- There was an initial value before if there is one now.
  cases hinit' : d.init with
  | none => exact absurd (hinit' ▸ hinit) nofun
  | some e =>
    obtain ⟨he⟩ := hinit' ▸ hinit
    exact h he (hQ (hd.storage ▸ hstorage) e hinit')

namespace Outline

variable {R : Expr → Expr → Prop} {G G' L L' : Expr → Prop}

/-- The outline that asks something of the initial values of qualified globals, and of those of
    qualified declarations within functions. -/
def qualified (G L : Expr → Prop) : Outline := everywhere (Stmt.Qualified L) (Decl.Qualified G)

/-- Only declarations with a storage meet a demand, so other statements may be added. -/
theorem lenient_qualified (Q : Expr → Prop) : Stmt.Lenient (Stmt.Qualified Q) where
  other {s} hs := by
    cases s with
    | decl => cases hs
    | _ => trivial
  plain _ _ _ h := absurd rfl h
  starts := trivial
  loop _ _ := trivial

/-- If the demands on values go over, so does the one on programs. -/
theorem turns_qualified (hG : ∀ {e e'}, R e e' → G e → G' e')
    (hL : ∀ {e e'}, R e e' → L e → L' e') : Turns R (qualified G L) (qualified G' L') := by
  refine turns_everywhere (fun {s s'} h hs => ?_)
    (fun h hd => Decl.Qualified.mirror hd h hG) fun h _ e he => ?_
  · cases h with
    | decl hd => exact Decl.Qualified.mirror hs hd hL
    | _ => trivial
  · rw [h] at he
    cases he

/-- A program that meets a demand meets a weaker one. -/
theorem shows_qualified_mono (hG : ∀ {e}, G e → G' e) (hL : ∀ {e}, L e → L' e) {p : Program}
    (hp : p.Shows (qualified G L)) : p.Shows (qualified G' L') := by
  intro el hel
  have h := hp el hel
  cases el with
  | global d => exact fun hstorage e he => hG (h hstorage e he)
  | function fn =>
    -- Only declarations among the statements are qualified.
    refine ⟨trivial, fun s hs => (h.2 s hs).mono fun s hs => ?_⟩
    cases s with
    | decl d => exact fun hstorage e he => hL (hs hstorage e he)
    | _ => trivial
  | layout l => trivial

/-- A moved initial value leaves a plain global, of which nothing is demanded. -/
theorem hoists_qualified : Hoists (qualified G L) where
  header _ _ := trivial
  value _ _ := .intro trivial nofun
  call _ h _ := absurd h

end Outline

namespace Legalize

open ShaderGen.Expr Outline

variable {t : Target} {p : Program}

/-! ### Initial values stay quiet -/

/-- The rule for absolute values of integers is the last one before the one for minima. -/
theorem upToIntAbs : rulesBefore "min_abs" = rulesBefore "int_abs" ++
    [.workaround "int_abs" .emulateIntAbs fun p => liftM (IntAbs.legalize p)] := rfl

section

variable {emulates splits : Bool} (hemulates : t.profile.needs .emulateIntAbs = emulates)
  (hsplits : t.profile.needs .splitMinAbs = splits)

include hemulates in
/-- Where qualified declarations have no absolute values of integers that are emulated, the rules up
    to the one for them bring in no side effects. -/
theorem shows_emulated (hp : p.Shows (qualified (Calm emulates false) (Calm emulates splits))) :
    Yields (Program.Shows (qualified (Calm false false) (Calm false splits)))
      ((rulesBefore "min_abs").foldlM (Rule.step t) p) := by
  have hquiet : ∀ {emulates splits} {e : Expr}, e.Calm emulates splits → e.Calm false false :=
    fun h => calm_mono h nofun nofun
  have hbefore : Turns StaysCalm (qualified (Calm emulates false) (Calm emulates splits))
      (qualified (Calm emulates false) (Calm emulates splits)) :=
    turns_qualified (fun h he => (h.calm (hquiet he)).mpr he) fun h he =>
      (h.calm (hquiet he)).mpr he
  refine foldlM_yields_at upToIntAbs (foldlM_yields (fun r hr p hp => ?_) hp) (fun p hp => ?_)
    fun _ hr => absurd hr List.not_mem_nil
  · -- Before the absolute values are emulated only calm rewrites are made.
    exact shows_early (lenient_qualified _) rewrites_staysCalm hbefore hr hp
  · refine yields_step_cases (fun henabled => ?_) fun hdisabled => ?_
    · obtain rfl : true = emulates := henabled.symm.trans hemulates
      -- What is calm already has no integer absolute value, so it is left as it is.
      have hown : Turns (fun e e' => e.Calm true false → e' = e)
          (qualified (Calm true false) (Calm true splits))
          (qualified (Calm false false) (Calm false splits)) := by
        refine turns_qualified (fun h he => ?_) fun h he => ?_
        · exact h he ▸ hquiet he
        · exact h (calm_mono he id nofun) ▸ calm_mono he nofun id
      exact Replaces.mapNodesM_scratch emulate_calm hown hoists_qualified hp
    · obtain rfl : false = emulates := hdisabled.symm.trans hemulates
      exact hp

/-- Where there are no minima of absolute values either, splitting them does nothing there. -/
theorem shows_split (hp : p.Shows (qualified (Calm false false) (Calm false true))) :
    Yields (Program.Shows (qualified (Calm false false) (Calm false false)))
      (MinAbs.legalize p) := by
  refine (Replaces.shows_hoist hoists_qualified _ (fun _ _ => rfl) hp).bind fun p hp => ?_
  -- Globals are left as they are by then.
  have hlocal : Turns (fun e e' => e.Calm false true → e' = e)
      (qualified (fun _ => True) (Calm false true))
      (qualified (fun _ => True) (Calm false false)) :=
    turns_qualified (fun _ => id) fun h he => h he ▸ calm_mono he nofun nofun
  exact Replaces.shows_mapFunctionsM
    (o := sparing (qualified (Calm false false) (Calm false true)) isMinAbs) (fun d hd => hd.1)
    (fun fn hfn => (Replaces.shows_withTemporaries hlocal split_calm hfn).lift) hp

include hemulates hsplits in
/-- No rule brings side effects into the initial values of qualified declarations then. -/
theorem shows_quiet (hp : p.Shows (qualified (Calm emulates false) (Calm emulates splits))) :
    Yields (Program.Shows (qualified (Calm false false) (Calm false false))) (legalize t p) := by
  have hafter : Turns StaysQuiet (qualified (Calm false false) (Calm false false))
      (qualified (Calm false false) (Calm false false)) := by
    have hkeeps : ∀ {e e' : Expr}, StaysQuiet e e' → e.Calm false false → e'.Calm false false :=
      -- Nor does any rule after the minima are split stir what is quiet.
      fun h he => hasSideEffects_eq_false_iff.mp (h (hasSideEffects_eq_false_iff.mpr he))
    exact turns_qualified hkeeps hkeeps
  refine foldlM_yields_at (pipeline_eq "min_abs" rfl) (shows_emulated hemulates hp)
    (fun p hp => ?_) fun r hr p hp => ?_
  · refine yields_step_cases (fun henabled => ?_) fun hdisabled => ?_
    · obtain rfl : true = splits := henabled.symm.trans hsplits
      exact shows_split hp
    · obtain rfl : false = splits := hdisabled.symm.trans hsplits
      exact hp
  · refine yields_step hp ?_
    simp only [rulesAfter, pipeline, List.dropWhile, Rule.name_always, Rule.name_workaround,
      String.reduceBNe, List.tail_cons, List.mem_cons, List.not_mem_nil, or_false] at hr
    obtain rfl | rfl | rfl := hr
    · -- The fractions, the arc tangents and the swizzles are what is left.
      exact Replaces.fract guard_quiet guardPure_quiet hafter hoists_qualified hp
    · exact Replaces.mapNodes multiply_quiet hafter hoists_qualified hp
    · exact Replaces.mapNodesM normalize_quiet hafter hoists_qualified hp

end

/-! ### Refused programs -/

/-- What is to be split in the initial value of a qualified global is there until the rule for it
    runs. -/
theorem keeps_minAbs {emulates : Bool} (hemulates : t.profile.needs .emulateIntAbs = emulates)
    (hp : HasQualified (fun e => e.Calm emulates false ∧ ¬ e.Calm false true) p) :
    Yields (HasQualified fun e => e.any isMinAbs = true)
      ((rulesBefore "min_abs").foldlM (Rule.step t) p) := by
  have hmin : ∀ {e : Expr}, e.Calm emulates false → ¬ e.Calm false true →
      e.any isMinAbs = true := fun hcalm hstirred => by
    by_contra hnone
    exact hstirred (calm_iff_any.mpr
      ⟨(calm_iff_any.mp hcalm).1, nofun, fun _ => eq_false_of_ne_true hnone⟩)
  refine foldlM_yields_at upToIntAbs (foldlM_yields (fun r hr p hp => ?_) hp) (fun p hp => ?_)
    fun _ hr => absurd hr List.not_mem_nil
  · -- The minimum is kept until its own rule, whatever is rewritten in it.
    refine (keeps_early rewrites_staysCalm hr).mono fun p' hkeeps => ?_
    refine hkeeps.hasQualified (fun e e' h he => ?_) hp
    have hquiet : e.Calm false false := calm_mono he.1 nofun nofun
    exact ⟨(h.calm hquiet).mpr he.1, mt (h.calm hquiet).mp he.2⟩
  · refine yields_step_cases (fun henabled => ?_) fun _ => ?_
    · obtain rfl : true = emulates := henabled.symm.trans hemulates
      have hkeeps : Yields (KeepsGlobals (fun e e' => e.Calm true false → e' = e) p)
          (IntAbs.legalize p) := keeps_mapExprsM emulate_calm
      refine (hkeeps.mono fun p' hkeeps => ?_).lift
      refine hkeeps.hasQualified (fun e e' h he => ?_) hp
      rw [h he.1]
      exact hmin he.1 he.2
    · have hsame : KeepsGlobals Eq p p := keepsGlobals_of_mem (fun _ => rfl) fun _ => id
      exact hsame.hasQualified (fun e e' h he => h ▸ hmin he.1 he.2) hp

section

variable {stem : Stem} {needsFunction : Expr → Bool}

/-- An element is refused for the initial value of a qualified global, and for nothing else. -/
theorem hoistElement_run (el : Element) (s : Scratch) :
    ((∃ els s', (HoistInit.hoistElement stem needsFunction el).run.run s = (.ok els, s')) ∧
      ∀ d, el = .global d → d.storage ≠ .auto → ∀ e ∈ d.init, e.any needsFunction = false) ∨
    ∃ name, (HoistInit.hoistElement stem needsFunction el).run.run s =
      (.error (.unsupported (.initializer name)), s) := by
  obtain ⟨heq, hnone⟩ | ⟨d, value, rfl, -, -, ⟨hauto, heq⟩ | ⟨-, heq⟩⟩ :=
    HoistInit.hoistElement_cases stem needsFunction el <;> rw [heq]
  · exact .inl ⟨⟨_, _, rfl⟩, fun d hd _ => hnone d hd⟩
  · refine .inl ⟨⟨_, _, rfl⟩, ?_⟩
    rintro _ ⟨rfl⟩ hstorage
    exact absurd hauto hstorage
  · exact .inr ⟨d.name, rfl⟩

/-- A program with a qualified global whose initial value needs a function is refused. -/
theorem hoist_refuses (stem : Stem) (hp : HasQualified (fun e => e.any needsFunction = true) p)
    (s : Scratch) :
    ∃ name s', (HoistInit.hoist stem needsFunction p).run.run s =
      (.error (.unsupported (.initializer name)), s') := by
  -- The walk stops at the first initializer that needs a function, at this one or before it.
  have helements : ∀ (els : List Element) (d : Decl), .global d ∈ els → d.storage ≠ .auto →
      (∃ e ∈ d.init, e.any needsFunction = true) → ∀ s, ∃ name s',
        (els.mapM (HoistInit.hoistElement stem needsFunction)).run.run s =
          (.error (.unsupported (.initializer name)), s') := by
    intro els d hd hstorage hneeds
    induction els with
    | nil => exact absurd hd List.not_mem_nil
    | cons el els ih =>
      intro s
      rw [List.mapM_cons]
      rcases hoistElement_run el s with ⟨⟨els', s₁, hrun⟩, hfine⟩ | ⟨name, hrun⟩
      · have hrest : .global d ∈ els := by
          refine (List.mem_cons.mp hd).resolve_left fun heq => ?_
          obtain ⟨e, he, hany⟩ := hneeds
          exact Bool.false_ne_true ((hfine d heq.symm hstorage e he).symm.trans hany)
        obtain ⟨name, s', hrest⟩ := ih hrest s₁
        exact ⟨name, s', (run_bind_of_ok hrun).trans (run_bind_of_error hrest)⟩
      · exact ⟨name, s, run_bind_of_error hrun⟩
  obtain ⟨d, hd, hstorage, hneeds⟩ := hp
  obtain ⟨name, s', hrun⟩ := helements p.elements d hd hstorage hneeds s
  exact ⟨name, s', run_bind_of_error hrun⟩

end

/-- If a rule before the one for minima does not refuse a program for its own reasons, this one does
    where it would have to split a minimum in the initial value of a qualified global. -/
theorem legalize_refuses {emulates : Bool}
    (hemulates : t.profile.needs .emulateIntAbs = emulates)
    (hsplits : t.profile.needs .splitMinAbs = true)
    (hp : HasQualified (fun e => e.Calm emulates false ∧ ¬ e.Calm false true) p) (s : Scratch) :
    ∃ fault s', (legalize t p).run.run s = (.error fault, s') ∧
      (((rulesBefore "min_abs").foldlM (Rule.step t) p).run.run s = (.error fault, s') ∨
        ∃ name, fault = .unsupported (.initializer name)) := by
  let own : Rule := .workaround "min_abs" .splitMinAbs MinAbs.legalize
  -- The pipeline is cut at the rule for minima.
  have hpipeline : legalize t p = ((rulesBefore "min_abs").foldlM (Rule.step t) p >>= fun q =>
      Rule.step t q own >>= fun q => (rulesAfter "min_abs").foldlM (Rule.step t) q) := by
    rw [legalize, pipeline_eq "min_abs" rfl, List.foldlM_append]
    simp only [List.foldlM_cons]
    rfl
  rw [hpipeline]
  cases hrun : ((rulesBefore "min_abs").foldlM (Rule.step t) p).run.run s with
  | mk result s₁ =>
    cases result with
    | error fault => exact ⟨fault, s₁, run_bind_of_error hrun, .inl rfl⟩
    | ok q =>
      -- The rules before it leave a minimum that has to be split in a qualified global, and
      -- moving initial values refuses it.
      have hq := (keeps_minAbs hemulates hp).of_run hrun
      obtain ⟨name, s', hrefused⟩ := hoist_refuses .minAbsInit hq
        (s₁.report (.ruleStarts "min_abs"))
      have hstep : (Rule.step t q own).run.run s₁ =
          (.error (.unsupported (.initializer name)), s') := by
        have henabled : own.enabled t q = true := hsplits
        rw [Rule.step, if_pos henabled]
        exact (run_bind_of_ok rfl).trans (run_bind_of_error hrefused)
      exact ⟨_, s', (run_bind_of_ok hrun).trans (run_bind_of_error hstep), .inr ⟨name, rfl⟩⟩

/-! ### Main result -/

/-- An expression without side effects. -/
def Quiet (e : Expr) : Prop := e.hasSideEffects = false

/-- An expression without side effects and without absolute values of integers that are emulated. -/
def GlobalValue (profile : Profile) (e : Expr) : Prop :=
  Quiet e ∧ (profile.needs .emulateIntAbs = true → e.any isIntAbs = false)

/-- An expression that does not have minima of absolute values that are split either. -/
def LocalValue (profile : Profile) (e : Expr) : Prop :=
  GlobalValue profile e ∧ (profile.needs .splitMinAbs = true → e.any isMinAbs = false)

/-- Where no initial value of a qualified declaration has side effects, or an absolute value of an
    integer that would be emulated, or, within a function, a minimum that would be split, none has
    side effects in the program that the rules make. If such a minimum is in the initial value of a
    qualified global, they make none: unless a rule that runs before refuses the program, this is
    what it is refused for. -/
theorem qualified_initializers_stay_quiet (s : Scratch)
    (hp : p.Shows (qualified (GlobalValue t.profile) (LocalValue t.profile))) :
    (∀ p' s', (legalize t p).run.run s = (.ok p', s') → p'.Shows (qualified Quiet Quiet)) ∧
    (t.profile.needs .splitMinAbs = true → HasQualified (fun e => e.any isMinAbs = true) p →
      ∃ fault s', (legalize t p).run.run s = (.error fault, s') ∧
        (((rulesBefore "min_abs").foldlM (Rule.step t) p).run.run s = (.error fault, s') ∨
          ∃ name, fault = .unsupported (.initializer name))) := by
  have hglobal : ∀ {e}, GlobalValue t.profile e →
      e.Calm (t.profile.needs .emulateIntAbs) false := fun he =>
    calm_iff_any.mpr ⟨he.1, he.2, nofun⟩
  have hlocal : ∀ {e}, LocalValue t.profile e →
      e.Calm (t.profile.needs .emulateIntAbs) (t.profile.needs .splitMinAbs) := fun he =>
    calm_iff_any.mpr ⟨he.1.1, he.1.2, he.2⟩
  refine ⟨fun p' s' hrun => ?_, fun hsplits hmin => ?_⟩
  · have hcalm := shows_qualified_mono hglobal hlocal hp
    refine shows_qualified_mono ?_ ?_ ((shows_quiet rfl rfl hcalm).of_run hrun) <;>
      exact hasSideEffects_eq_false_iff.mpr
  · refine legalize_refuses rfl hsplits ?_ s
    -- The minimum was there from the start, so its rule finds it and has to refuse.
    obtain ⟨d, hd, hstorage, e, he, hany⟩ := hmin
    refine ⟨d, hd, hstorage, e, he, hglobal (hp _ hd hstorage e he), fun hcalm => ?_⟩
    exact Bool.false_ne_true (((calm_iff_any.mp hcalm).2.2 rfl).symm.trans hany)

/-- A constant that is used by one within a function, where both workarounds are needed. -/
theorem constant_stays_quiet :
    let t : Target :=
      { profile := { workarounds :=
          Workarounds.unions [.single .emulateIntAbs, .single .splitMinAbs] } }
    let constants (e : Expr) : Program := ⟨.fragment, [.global ⟨.const, "k", .float, some e⟩,
      .function (.entry [.decl ⟨.const, "c", .float, some (.ofVar "k" .float)⟩])]⟩
    let half : Expr := .ofCall .fract [.float .half]
    let least : Expr := .ofCall .min [.ofCall .abs [.float .minusOne], .float .half]
    (constants half).Shows (qualified (GlobalValue t.profile) (LocalValue t.profile)) ∧
    (constants least).Shows (qualified (GlobalValue t.profile) (LocalValue t.profile)) ∧
    HasQualified (fun e => e.any isMinAbs = true) (constants least) ∧
    (∃ p' s', (legalize t (constants half)).run.run {} = (.ok p', s') ∧
      p'.Shows (qualified Quiet Quiet)) ∧
    ∃ fault s', (legalize t (constants least)).run.run {} = (.error fault, s') := by
  intro t constants half least
  have hshows : ∀ e, GlobalValue t.profile e →
      (constants e).Shows (qualified (GlobalValue t.profile) (LocalValue t.profile)) := by
    intro e he
    refine List.forall_mem_cons.mpr ⟨fun _ _ h => Option.mem_some.mp h ▸ he, ?_⟩
    refine List.forall_mem_singleton.mpr ⟨trivial, List.forall_mem_singleton.mpr ?_⟩
    refine .intro (fun _ _ h => Option.mem_some.mp h ▸ ?_) nofun
    exact ⟨⟨rfl, fun _ => rfl⟩, fun _ => rfl⟩
  have hhalf := hshows half ⟨rfl, fun _ => rfl⟩
  have hleast := hshows least ⟨rfl, fun _ => rfl⟩
  have hmin : HasQualified (fun e => e.any isMinAbs = true) (constants least) :=
    ⟨_, List.mem_cons_self, nofun, least, rfl, rfl⟩
  -- That the rules accept the fraction is found by running them. That the minimum is refused
  -- follows from the general statement.
  obtain ⟨p', s', hrun, -⟩ := exists_ok_of_any (r := (legalize t (constants half)).run.run {})
    (q := fun _ => true) (by decide +kernel)
  obtain ⟨fault, s'', hrefused, -⟩ :=
    (qualified_initializers_stay_quiet {} hleast).2 (by decide) hmin
  exact ⟨hhalf, hleast, hmin,
    ⟨p', s', hrun, (qualified_initializers_stay_quiet {} hhalf).1 p' s' hrun⟩,
    fault, s'', hrefused⟩

/-- If a constant acts, the program does not show quiet initializers. -/
theorem not_shows_of_acts (h : p.elements.any Element.acts = true) :
    ¬ p.Shows (qualified Quiet Quiet) := by
  -- What acts is an initializer with side effects of something other than a plain variable.
  have hdecl : ∀ {d : Decl}, d.acts = true → ¬ d.Qualified Quiet := by
    intro d h hquiet
    obtain ⟨hstorage, hinit⟩ := Bool.and_eq_true_iff.mp h
    obtain ⟨e, he, heffects⟩ := (Option.any_eq_true _ _).mp hinit
    exact Bool.false_ne_true ((hquiet (bne_iff_ne.mp hstorage) e he).symm.trans heffects)
  intro hshows
  obtain ⟨el, hel, h⟩ := List.any_eq_true.mp h
  have hel := hshows el hel
  cases el with
  | global d => exact hdecl h hel
  | function f =>
    obtain ⟨s, hs, h⟩ := List.any_eq_true.mp h
    have hquiet := (hel.2 s hs).here
    cases s with
    | decl d => exact hdecl h hquiet
    | _ => cases h
  | layout l => cases h

/-- An absolute value in a constant becomes a call of a function, and a minimum in a constant of a
    function comes to assign to temporaries. -/
theorem constants_come_to_act :
    let k : Decl := ⟨.const, "k", .int, some (.ofCall .abs [.int (-3)])⟩
    let c : Decl := ⟨.const, "c", .float, some (.ofCall .min
      [.ofCall .abs [.float .minusOne], .float .half])⟩
    let emulated : Target := { profile := { workarounds := .single .emulateIntAbs } }
    let split : Target := { profile := { workarounds := .single .splitMinAbs } }
    let p : Program := ⟨.fragment, [.global k, .function (.entry [])]⟩
    let q : Program := ⟨.fragment, [.function (.entry [.decl c])]⟩
    (p.Shows (qualified Quiet Quiet) ∧ ∃ p' s',
      (legalize emulated p).run.run {} = (.ok p', s') ∧ ¬ p'.Shows (qualified Quiet Quiet)) ∧
    (q.Shows (qualified Quiet Quiet) ∧ ∃ q' s',
      (legalize split q).run.run {} = (.ok q', s') ∧ ¬ q'.Shows (qualified Quiet Quiet)) := by
  intro k c emulated split p q
  -- Both programs are quiet at first; then a call is put into a constant by each workaround.
  refine ⟨⟨?_, ?_⟩, ?_, ?_⟩
  · exact List.forall_mem_cons.mpr ⟨fun _ _ h => Option.mem_some.mp h ▸ rfl,
      List.forall_mem_singleton.mpr ⟨trivial, List.forall_mem_nil _⟩⟩
  · obtain ⟨p', s', hrun, h⟩ := exists_ok_of_any (r := (legalize emulated p).run.run {})
      (q := fun p' => p'.elements.any Element.acts) (by decide +kernel)
    exact ⟨p', s', hrun, not_shows_of_acts h⟩
  · refine List.forall_mem_singleton.mpr ⟨trivial, List.forall_mem_singleton.mpr ?_⟩
    exact .intro (fun _ _ h => Option.mem_some.mp h ▸ rfl) (List.forall_mem_nil _)
  · obtain ⟨q', s', hrun, h⟩ := exists_ok_of_any (r := (legalize split q).run.run {})
      (q := fun q' => q'.elements.any Element.acts) (by decide +kernel)
    exact ⟨q', s', hrun, not_shows_of_acts h⟩

end Legalize

end ShaderGen
