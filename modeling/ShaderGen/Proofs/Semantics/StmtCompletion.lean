import ShaderGen.Proofs.Semantics.ExprCompletion
import ShaderGen.Proofs.Semantics.Exits

/-!
# Programs that complete checked runs

Statements that take the place of another complete its checked runs if they do so part by part, and
the functions of a program if they do so one after the other. Two ways of rewriting a program are
followed through it: other expressions in the place of those that they complete, and other
statements in the place of what emits vertices.

## Key results

- `Stmt.Completes.block`, `.ifElse`, `.forLoop`, `.switchOn`, …: statements by their parts
- `Stmt.completes_mapExprs`, `Stmt.completes_expand`: rewritten statements
- `Checker.Covers.declareAll`: a machine that knows a program covers what a checker knows of one
-/

namespace ShaderGen

open Behaviour List

variable {α : Type} {k : Completion α} {c : Checker α} {m : Machine α}

/-! ### Statements -/

/-- Statements that do what another does, in a run that completes one of the other. -/
structure Stmt.Completes (k : Completion α) (c : Checker α) (m : Machine α) (s : Stmt)
    (ss : List Stmt) : Prop where
  declares : Stmt.listDeclared ss = s.declared
  runs : Behaviour.Refines k.correspondence (s.check c) (Stmt.listBehaviour m ss)

/-- The same for several statements. -/
structure Stmt.ListCompletes (k : Completion α) (c : Checker α) (m : Machine α)
    (ss ss' : List Stmt) : Prop where
  declares : Stmt.listDeclared ss' = Stmt.listDeclared ss
  runs : Behaviour.Refines k.correspondence (Stmt.listCheck c ss) (Stmt.listBehaviour m ss')

/-- The same for a case of a `switch`. -/
inductive Case.Completes (k : Completion α) (c : Checker α) (m : Machine α) : Case → Case → Prop
  | mk (label : Option Int) {body body' : List Stmt} (h : Stmt.ListCompletes k c m body body') :
    Completes k c m (.mk label body) (.mk label body')

namespace Behaviour.Refines

variable {A B : Behaviour (Option α)} {A' B' : Behaviour α} {cond cond' : Expr}

/-- A choice of behaviours is completed through its condition and both behaviours. -/
theorem branch (hm : c.Covers k m) (hcond : cond.Completes k c m cond')
    (hA : Refines k.correspondence A A') (hB : Refines k.correspondence B B') :
    Refines k.correspondence (c.branch cond A B) (Behaviour.branch m cond' A' B') := by
  refine .after hcond.values fun vs vs' hvs => ?_
  obtain ⟨call, rfl⟩ := hm.machine
  obtain rfl := hvs
  show Refines _ (if c.machine.holds vs then A else B) (if c.machine.holds vs then A' else B')
  split
  · exact hA
  · exact hB

/-- The test of a loop is completed through its condition. -/
theorem test (hm : c.Covers k m) (hcond : cond.Completes k c m cond') :
    Refines k.correspondence (c.test cond) (Behaviour.test m cond') :=
  branch hm hcond skip (exit .breakOut)

end Behaviour.Refines

namespace Stmt

variable {s body : Stmt} {ss ss' body' : List Stmt} {cond cond' value value' : Expr}

/-- Nothing is completed by nothing. -/
theorem ListCompletes.nil : ListCompletes k c m [] [] := ⟨rfl, .skip⟩

/-- A list is completed by what completes its statements, one after the other. -/
theorem ListCompletes.cons {ts : List Stmt} (h : s.Completes k c m ts)
    (hrest : ListCompletes k c m ss ss') : ListCompletes k c m (s :: ss) (ts ++ ss') where
  declares := by rw [listDeclared_append, listDeclared_cons, h.declares, hrest.declares]
  runs := by
    rw [listBehaviour_append]
    exact h.runs.seq hrest.runs

/-- The same if each statement stays one statement. -/
theorem ListCompletes.mapExprs {g : Expr → Expr}
    (h : ∀ s ∈ ss, s.Completes k c m [s.mapExprs g]) :
    ListCompletes k c m ss (ss.map (Stmt.mapExprs g)) := by
  induction ss with
  | nil => exact .nil
  | cons s ss ih =>
    obtain ⟨hs, hss⟩ := List.forall_mem_cons.mp h
    exact .cons hs (ih hss)

/-- The same if each statement becomes several. -/
theorem ListCompletes.expand {f : Stmt → List Stmt}
    (h : ∀ s ∈ ss, s.Completes k c m (s.expand f)) :
    ListCompletes k c m ss (expandList f ss) := by
  induction ss with
  | nil => exact .nil
  | cons s ss ih =>
    obtain ⟨hs, hss⟩ := List.forall_mem_cons.mp h
    exact .cons hs (ih hss)

namespace Completes

/-- A single statement in the place of another. -/
theorem of_singleton {s' : Stmt} (hdeclared : s'.declared = s.declared)
    (h : Behaviour.Refines k.correspondence (s.check c) (s'.behaviour m)) :
    s.Completes k c m [s'] where
  declares := by simp [hdeclared]
  runs := by rwa [listBehaviour_singleton]

/-- What stands in a scope of its own is completed in one. -/
theorem inner (h : s.Completes k c m ss) :
    Behaviour.Refines k.correspondence (inScope s.declared (s.check c)) ((ofList ss).inner m) := by
  rw [inner_ofList, h.declares]
  exact h.runs.inScope _

/-- A block is completed through its list. -/
theorem block (h : ListCompletes k c m ss ss') : (Stmt.block ss).Completes k c m [.block ss'] := by
  refine of_singleton rfl ?_
  show Behaviour.Refines _ (inScope _ _) (inScope _ _)
  rw [h.declares]
  exact h.runs.inScope _

/-- A declaration is completed through its initial value, if the name is no place of a variable. -/
theorem decl {d d' : Decl} (hm : c.Covers k m) (hname : d'.name = d.name) (hfree : k.Free d.name)
    (hinit : Option.Rel (Expr.Completes k c m) d.init d'.init) :
    (Stmt.decl d).Completes k c m [.decl d'] := by
  refine of_singleton (congrArg (fun name => [name]) hname) ?_
  obtain ⟨call, rfl⟩ := hm.machine
  show Behaviour.Refines _ (d.check c) (d'.behaviour _)
  unfold Decl.check Decl.behaviour
  rw [hname]
  have hdeclare (content : Nat → α) : Behaviour.Refines k.correspondence
      (.declare d.name fun i => some (content i)) (.declare d.name content) :=
    .change fun σ τ hσ => hσ.setLocal hfree fun _ _ => Option.some.inj
  -- The initial value is there in both declarations, or in neither.
  generalize d.init = init, d'.init = init' at hinit
  cases hinit with
  | none => exact hdeclare _
  | some hvalue =>
    refine .after hvalue.values fun vs vs' hvs => ?_
    obtain rfl := hvs
    exact hdeclare _

/-- A choice of statements is completed through its condition and branches. -/
theorem ifElse (hm : c.Covers k m) (hcond : cond.Completes k c m cond')
    (hthen : s.Completes k c m ss) {elseBranch : Option Stmt} {else' : Option (List Stmt)}
    (helse : Option.Rel (Completes k c m) elseBranch else') :
    (Stmt.ifElse cond s elseBranch).Completes k c m
      [.ifElse cond' (ofList ss) (else'.map ofList)] := by
  refine of_singleton rfl (.branch hm hcond hthen.inner ?_)
  cases helse with
  | none => exact .skip
  | some h => exact h.inner

/-- A `while` loop is completed through its condition and body. -/
theorem whileLoop (hm : c.Covers k m) (hcond : cond.Completes k c m cond')
    (hbody : body.Completes k c m body') :
    (Stmt.whileLoop cond body).Completes k c m [.whileLoop cond' (ofList body')] :=
  of_singleton rfl ((Behaviour.Refines.test hm hcond).seq hbody.inner).forever

/-- A `do` loop is completed through its body and condition. -/
theorem doWhile (hm : c.Covers k m) (hcond : cond.Completes k c m cond')
    (hbody : body.Completes k c m body') :
    (Stmt.doWhile body cond).Completes k c m [.doWhile (ofList body') cond'] :=
  of_singleton rfl (hbody.inner.andThen (.test hm hcond)).forever

/-- A `for` loop is completed through the parts of its header and its body. -/
theorem forLoop (hm : c.Covers k m) {init init' : Option Stmt} {cond cond' step step' : Option Expr}
    (hinit : Option.Rel (fun s s' => s.Completes k c m [s']) init init')
    (hcond : Option.Rel (Expr.Completes k c m) cond cond')
    (hstep : Option.Rel (Expr.Completes k c m) step step') (hbody : body.Completes k c m body') :
    (Stmt.forLoop init cond step body).Completes k c m
      [.forLoop init' cond' step' (ofList body')] := by
  have htest : Behaviour.Refines k.correspondence (cond.elim skip c.test)
      (cond'.elim skip (test m)) := by
    cases hcond with
    | none => exact .skip
    | some h => exact .test hm h
  have hlast : Behaviour.Refines k.correspondence
      (step.elim skip fun e => after (e.check c) fun _ => skip)
      (step'.elim skip fun e => after (e.eval m) fun _ => skip) := by
    cases hstep with
    | none => exact .skip
    | some h => exact .after h.eval fun _ _ _ => .skip
  have hloop := (htest.seq (hbody.inner.andThen hlast)).forever
  refine of_singleton rfl ?_
  -- The scope of the loop is what its first statement declares, which is the same on both sides.
  cases hinit with
  | none => exact (Behaviour.Refines.skip.seq hloop).inScope _
  | @some s s' h =>
    have hdeclared : listDeclared [s'] = listDeclared [s] :=
      h.declares.trans (List.append_nil _).symm
    show Behaviour.Refines _ (inScope (listDeclared [s]) _) (inScope (listDeclared [s']) _)
    rw [hdeclared]
    have hruns := h.runs
    rw [listBehaviour_singleton] at hruns
    exact (hruns.seq hloop).inScope _

/-- A `switch` is completed through its value and the bodies of its cases. -/
theorem switchOn (hm : c.Covers k m) (hvalue : value.Completes k c m value')
    {cases cases' : List Case} (hcases : Forall₂ (Case.Completes k c m) cases cases') :
    (Stmt.switchOn value cases).Completes k c m [.switchOn value' cases'] := by
  have hdeclared : casesDeclared cases' = casesDeclared cases := by
    induction hcases with
    | nil => rfl
    | cons hcase _ ih =>
      cases hcase with
      | mk label hbody => rw [casesDeclared, casesDeclared, hbody.declares, ih]
  have hruns : Forall₂ (fun b b' => b'.1 = b.1 ∧ Behaviour.Refines k.correspondence b.2 b'.2)
      (caseChecks c cases) (caseBehaviours m cases') := by
    clear hdeclared
    induction hcases with
    | nil => exact .nil
    | cons hcase _ ih =>
      cases hcase with
      | mk label hbody => exact .cons ⟨rfl, hbody.runs⟩ ih
  refine of_singleton rfl (.after hvalue.values fun vs vs' hvs => ?_)
  obtain ⟨call, rfl⟩ := hm.machine
  obtain rfl := hvs
  -- Cases are selected by their labels, so both sides select at the same places.
  have hselected := forall₂_selected hruns (fun _ _ hb => hb.1) (c.machine.asInteger vs)
  rw [hdeclared]
  refine (Behaviour.Refines.seqAll ?_).inScope _ |>.catchBreak
  rw [forall₂_map_left_iff, forall₂_map_right_iff]
  exact hselected.imp fun _ _ hb => hb.2

/-- An expression as a statement is completed through the expression. -/
theorem expr {e e' : Expr} (h : e.Completes k c m e') :
    (Stmt.expr e).Completes k c m [.expr e'] :=
  of_singleton rfl (.after h.eval fun _ _ _ => .skip)

/-- A return is completed through its value. -/
theorem returnWith {value value' : Option Expr}
    (h : Option.Rel (Expr.Completes k c m) value value') :
    (Stmt.returnWith value).Completes k c m [.returnWith value'] := by
  refine of_singleton rfl ?_
  cases h with
  | none => exact .exit (.returned .none)
  | some hvalue =>
    refine .after hvalue.values fun vs vs' hvs => ?_
    obtain rfl := hvs
    exact .exit (.returned (.some rfl))

/-- A break stays a break. -/
theorem breakOut : Stmt.breakOut.Completes k c m [.breakOut] := of_singleton rfl (.exit .breakOut)

/-- A `continue` stays one. -/
theorem continueLoop : Stmt.continueLoop.Completes k c m [.continueLoop] :=
  of_singleton rfl (.exit .continueLoop)

/-- A discard stays one. -/
theorem discard : Stmt.discard.Completes k c m [.discard] := of_singleton rfl (.exit .discarded)

/-- The end of a primitive stays one. -/
theorem endPrimitive : Stmt.endPrimitive.Completes k c m [.endPrimitive] :=
  of_singleton rfl (.change fun _ _ hσ => hσ.act (.cons .primitive .nil))

/-- A vertex that shows another as soon as the components of that are assigned. -/
theorem emitVertex (hc : c.Keeps k) (hshows : ∀ ⦃shared shared'⦄, k.Shared shared shared' →
    (∀ cell, c.vertex cell = true → (shared cell.owner cell.lane).isSome) →
      k.Shows shared shared') : Stmt.emitVertex.Completes k c m [.emitVertex] := by
  refine of_singleton rfl ?_
  rintro σ τ hσ _ _ ⟨hassigned, rfl, rfl⟩
  have hemitted : Forall₂ k.Emitted (emissions [.emitVertex σ.shared])
      (emissions [.emitVertex τ.shared]) := .cons (.vertex (hshows hσ.shared hassigned)) .nil
  exact ⟨.normal, _, ⟨rfl, rfl⟩, .normal, (hσ.act hemitted).lose hc⟩

end Completes

end Stmt

namespace Stmt

/-- With expressions in the place of those that they complete, a statement completes what it was. -/
theorem completes_mapExprs (hm : c.Covers k m) {g : Expr → Expr} {Q : Expr → Prop}
    (hg : ∀ e, Q e → e.Completes k c m (g e))
    (hemit : Stmt.emitVertex.Completes k c m [.emitVertex]) (s : Stmt) (hs : s.Fits k.Free Q) :
    s.Completes k c m [s.mapExprs g] := by
  -- An optional expression completes itself, rewritten.
  have hoption {o : Option Expr} (h : ∀ e ∈ o, Q e) :
      Option.Rel (Expr.Completes k c m) o (o.map g) := by
    cases o with
    | none => exact .none
    | some e => exact .some (hg e (h e rfl))
  induction s with
  | block body ih =>
    rw [mapExprs_block]
    exact .block (.mapExprs fun s hs' => ih s hs' (fits_block.mp hs s hs'))
  | decl d =>
    obtain ⟨hname, hinit⟩ := fits_decl.mp hs
    rw [mapExprs_decl]
    exact .decl hm rfl hname (hoption hinit)
  | ifElse cond thenBranch elseBranch iht ihe =>
    obtain ⟨hcond, hthen, helse⟩ := fits_ifElse.mp hs
    rw [mapExprs_ifElse]
    -- A branch that is not there completes one that is not there.
    have hrel : Option.Rel (Stmt.Completes k c m) elseBranch
        (elseBranch.map fun s => [s.mapExprs g]) := by
      cases elseBranch with
      | none => exact .none
      | some s => exact .some (ihe s rfl (helse s rfl))
    have hboth := Completes.ifElse hm (hg cond hcond) (iht hthen) hrel
    rwa [Option.map_map] at hboth
  | forLoop init cond step body ihi ihb =>
    obtain ⟨hinit, hcond, hstep, hbody⟩ := fits_forLoop.mp hs
    rw [mapExprs_forLoop]
    refine .forLoop hm ?_ (hoption hcond) (hoption hstep) (ihb hbody)
    cases init with
    | none => exact .none
    | some s => exact .some (ihi s rfl (hinit s rfl))
  -- The other statements are put together from their own lemmas.
  | whileLoop cond body ih =>
    obtain ⟨hcond, hbody⟩ := fits_whileLoop.mp hs
    exact .whileLoop hm (hg cond hcond) (ih hbody)
  | doWhile body cond ih =>
    obtain ⟨hcond, hbody⟩ := fits_doWhile.mp hs
    exact .doWhile hm (hg cond hcond) (ih hbody)
  | switchOn value cases ih =>
    obtain ⟨hvalue, hcases⟩ := fits_switchOn.mp hs
    rw [mapExprs_switchOn]
    refine .switchOn hm (hg value hvalue) ?_
    -- Labels stay as they are, and each body is a list.
    rw [forall₂_map_right_iff, forall₂_same]
    rintro ⟨label, body⟩ hc
    exact .mk label (.mapExprs fun s hs' => ih label body hc s hs' (hcases _ hc s hs'))
  | expr e => exact .expr (hg e (fits_expr.mp hs))
  | returnWith value =>
    rw [mapExprs_returnWith]
    exact .returnWith (hoption (fits_returnWith.mp hs))
  | breakOut => exact .breakOut
  | continueLoop => exact .continueLoop
  | discard => exact .discard
  | emitVertex => exact hemit
  | endPrimitive => exact .endPrimitive

end Stmt

/-! ### Programs that keep variables in their places -/

section

variable (hplace : ∀ which, k.place which = .builtin which) (hc : c.Keeps k) (hm : c.Covers k m)

include hplace

/-- If every variable is in its own place, no name is taken by one. -/
theorem Completion.free_of_place (name : String) : k.Free name := by
  intro which h
  rw [hplace] at h
  cases h

/-- So each variable is at home where it was. -/
theorem Completion.home_of_place (v : Variable) : k.home v = v := by
  cases v with
  | named name => rfl
  | builtin which => exact hplace which

/-- Where everything is assigned, the same contents complete it. -/
theorem Completion.shared_of_place (hinvariant : ∀ shared, k.Invariant shared)
    (shared : Variable → Nat → α) : k.Shared (fun v i => some (shared v i)) shared where
  agrees v i x hx := by
    rw [k.home_of_place hplace]
    exact Option.some.inj hx
  invariant := hinvariant _

/-- The correspondence is kept if what is shared stays as demanded. -/
theorem Checker.keeps_of_place (hinvariant : ∀ shared, k.Invariant shared) : c.Keeps k where
  home v w _ h := by rwa [k.home_of_place hplace, k.home_of_place hplace] at h
  write _ _ _ := hinvariant _
  lose _ := hinvariant _

include hc hm

/-- An expression completes itself. -/
theorem Expr.completes_self (e : Expr) : e.Completes k c m e := by
  induction e using Expr.induction_children with
  | h e ih =>
    -- Built-in variables may be looked up otherwise, so they are a case of their own.
    by_cases hbuiltin : ∃ ty which, e = .builtin ty which
    · obtain ⟨ty, which, rfl⟩ := hbuiltin
      exact completes_builtin (hplace which) ty
    · have hself := completes_withChildren hc hm (forall₂_same.mpr ih)
        fun ty which he => hbuiltin ⟨ty, which, he⟩
      rwa [withChildren_children] at hself

namespace Stmt

/-- A statement completes itself if what emits vertices does. -/
theorem completes_self (hemit : Stmt.emitVertex.Completes k c m [.emitVertex]) (s : Stmt) :
    s.Completes k c m [s] := by
  have hs : s.Fits k.Free fun _ => True :=
    fits_of_forall (Completion.free_of_place hplace) (fun _ => trivial) s
  have hself := s.completes_mapExprs hm (g := id)
    (fun e _ => e.completes_self hplace hc hm) hemit hs
  rwa [mapExprs_id] at hself

/-- A list of statements completes itself. -/
theorem listCompletes_self (hemit : Stmt.emitVertex.Completes k c m [.emitVertex])
    (ss : List Stmt) : ListCompletes k c m ss ss := by
  induction ss with
  | nil => exact .nil
  | cons s ss ih => exact .cons (s.completes_self hplace hc hm hemit) ih

/-- With something else in the place of what emits vertices, a statement completes what it was, if
    what emits the vertices does. -/
theorem completes_expand {f : Stmt → List Stmt}
    (hemit : Stmt.emitVertex.Completes k c m (f .emitVertex))
    (hother : ∀ s : Stmt, (s = .emitVertex → False) → f s = [s]) (s : Stmt)
    (hs : s.Everywhere StartsPlainly) : s.Completes k c m (s.expand f) := by
  have hexpr (e : Expr) : e.Completes k c m e := e.completes_self hplace hc hm
  have hoption (o : Option Expr) : Option.Rel (Expr.Completes k c m) o o := by
    cases o with
    | none => exact .none
    | some e => exact .some (hexpr e)
  have hdecl (d : Decl) : (Stmt.decl d).Completes k c m [.decl d] :=
    .decl hm rfl (Completion.free_of_place hplace _) (hoption _)
  -- A statement without others inside is left as it is, unless it emits a vertex.
  have hkept {s : Stmt} (hkept : s.expand f = f s) (hne : s = .emitVertex → False)
      (h : s.Completes k c m [s]) : s.Completes k c m (s.expand f) := by
    rwa [hkept, hother s hne]
  induction s with
  | block body ih =>
    obtain ⟨-, hnested⟩ := hs
    rw [expand_block, hother (.block _) (by rintro ⟨⟩)]
    exact .block (.expand fun s hs => ih s hs (hnested s hs))
  | decl d => exact hkept rfl (by rintro ⟨⟩) (hdecl d)
  | ifElse cond thenBranch elseBranch iht ihe =>
    obtain ⟨-, hnested⟩ := hs
    rw [expand_ifElse, hother (.ifElse _ _ _) (by rintro ⟨⟩)]
    have hrel : Option.Rel (Stmt.Completes k c m) elseBranch (elseBranch.map (expand f)) := by
      cases elseBranch with
      | none => exact .none
      | some s => exact .some (ihe s rfl (hnested _ (by simp [nested])))
    have hboth := Completes.ifElse hm (hexpr cond) (iht (hnested _ (by simp [nested]))) hrel
    -- The else branch was expanded before it was put back.
    rwa [Option.map_map] at hboth
  | forLoop init cond step body ihi ihb =>
    obtain ⟨hstart, hnested⟩ := hs
    rw [expand_forLoop, hother (.forLoop _ _ _ _) (by rintro ⟨⟩)]
    refine .forLoop hm ?_ (hoption cond) (hoption step) (ihb (hnested _ (by simp [nested])))
    cases init with
    | none => exact .none
    -- A header starts with a declaration or an expression, neither of which is replaced.
    | some s =>
      cases s with
      | decl d => exact .some (hdecl d)
      | expr e => exact .some (.expr (hexpr e))
      | _ => cases hstart
  | whileLoop cond body ih =>
    obtain ⟨-, hnested⟩ := hs
    rw [expand_whileLoop, hother (.whileLoop _ _) (by rintro ⟨⟩)]
    exact .whileLoop hm (hexpr cond) (ih (hnested _ (by simp [nested])))
  | doWhile body cond ih =>
    obtain ⟨-, hnested⟩ := hs
    rw [expand_doWhile, hother (.doWhile _ _) (by rintro ⟨⟩)]
    exact .doWhile hm (hexpr cond) (ih (hnested _ (by simp [nested])))
  | switchOn value cases ih =>
    obtain ⟨-, hnested⟩ := hs
    rw [expand_switchOn, hother (.switchOn _ _) (by rintro ⟨⟩)]
    refine .switchOn hm (hexpr value) ?_
    -- The cases are the same in number and order.
    rw [forall₂_map_right_iff, forall₂_same]
    rintro ⟨label, body⟩ hc
    refine .mk label (.expand fun s hs => ih label body hc s hs (hnested s ?_))
    exact List.mem_flatMap.mpr ⟨_, hc, hs⟩
  | expr e => exact hkept rfl (by rintro ⟨⟩) (.expr (hexpr e))
  | returnWith value => exact hkept rfl (by rintro ⟨⟩) (.returnWith (hoption value))
  | breakOut => exact hkept rfl (by rintro ⟨⟩) .breakOut
  | continueLoop => exact hkept rfl (by rintro ⟨⟩) .continueLoop
  | discard => exact hkept rfl (by rintro ⟨⟩) .discard
  | emitVertex => exact hemit
  | endPrimitive => exact hkept rfl (by rintro ⟨⟩) .endPrimitive

end Stmt

end

/-! ### Functions -/

namespace Function

variable {f f' : Function} {args : List (Ty × List α)} {shared : Variable → Nat → Option α}
  {shared' : Variable → Nat → α}

/-- The parameters do not depend on what is shared. -/
theorem locals_start (m : Machine α) (f : Function) (args : List (Ty × List α))
    (s s' : Variable → Nat → α) : (f.start m args s).locals = (f.start m args s').locals := by
  unfold start
  generalize f.params.zip args = bound
  have hfold : ∀ (σ σ' : State α), σ.locals = σ'.locals →
      (bound.foldl (fun σ arg =>
        σ.setLocal arg.1.name (some fun i => arg.2.2.getD i m.undefined)) σ).locals =
      (bound.foldl (fun σ arg =>
        σ.setLocal arg.1.name (some fun i => arg.2.2.getD i m.undefined)) σ').locals := by
    induction bound with
    | nil => exact fun _ _ h => h
    -- The state that is given changes nothing about the names that are bound.
    | cons b bound ih =>
      intro σ σ' h
      refine ih _ _ (funext fun x => ?_)
      show (if _ then _ else σ.locals x) = if _ then _ else σ'.locals x
      rw [h]
  exact hfold _ _ rfl

/-- A function starts alike with the same arguments. -/
theorem start_completes (hm : c.Covers k m) (hparams : f'.params = f.params)
    (hfree : ∀ p ∈ f.params, k.Free p.name) (h : k.Shared shared shared') :
    (f.checkStart c args shared).Completes k (f'.start m args shared') := by
  obtain ⟨call, rfl⟩ := hm.machine
  have hsame : f'.start (c.machine.withCalls call) args shared' =
      f.start c.machine args shared' := by
    unfold start
    rw [hparams]
    rfl
  obtain ⟨hshared, htrace, hlocals⟩ := f.start_spec c.machine args shared'
  rw [hsame]
  -- Shared variables, parameters, the free names and the trace are looked at in turn.
  refine ⟨?_, fun name => ?_, fun name hname => ?_, ?_⟩
  · rwa [hshared]
  · show Option.Rel _ (Option.map _ ((f.start c.machine args _).locals name)) _
    rw [locals_start c.machine f args _ shared']
    cases (f.start c.machine args shared').locals name with
    | none => exact .none
    | some content => exact .some fun _ _ => Option.some.inj
  · show Option.map _ ((f.start c.machine args _).locals name) = none
    have hnone : (f.start c.machine args shared').locals name = none :=
      hlocals name fun p hp heq => hname (heq ▸ hfree p hp)
    rw [locals_start c.machine f args _ shared', hnone]
    rfl
  · rw [htrace]
    exact .nil

/-- A function whose body completes that of another gives replies that complete the replies of the
    other. -/
theorem reply?_completes (hm : c.Covers k m) (hparams : f'.params = f.params)
    (hfree : ∀ p ∈ f.params, k.Free p.name) (hbody : Stmt.ListCompletes k c m f.body f'.body)
    (h : k.Shared shared shared') {reply : Reply (Option α)}
    (hreply : f.checkReply? c args shared = some reply) :
    ∃ reply', f'.reply? m args shared' = some reply' ∧ reply.Completes k reply' := by
  obtain ⟨o, σ, hrun, rfl⟩ := checks_of_checkReply? hreply
  obtain ⟨o', τ, hrun', ho, hσ⟩ := hbody.runs (start_completes hm hparams hfree h) hrun
  refine ⟨_, reply?_of_runs hrun', ?_, hσ.shared, hσ.emitted⟩
  -- The outcomes correspond, so the replies have results that do.
  cases ho with
  | returned hvalue =>
    cases hvalue with
    | none => rfl
    | some hvs => exact congrArg some hvs
  | _ => rfl

end Function

/-- What is known of the functions of a program, with one more of them declared. -/
theorem Checker.Covers.declare (hm : c.Covers k m) {f f' : Function} (hname : f'.name = f.name)
    (hparams : f'.params = f.params) (hfree : ∀ p ∈ f.params, k.Free p.name)
    (hbody : Stmt.ListCompletes k c m f.body f'.body) :
    (c.declare f).Covers k (m.declare f') := by
  obtain ⟨call, hcall⟩ := hm.machine
  refine ⟨⟨(m.declare f').call, by rw [hcall]; rfl⟩, ?_⟩
  intro name args shared shared' reply h hreply
  have hcalled : f'.isCalled args name = f.isCalled args name := by
    unfold Function.isCalled
    rw [hname, hparams]
  -- A call of the new function runs its body, any other one is answered as before.
  change (if f.isCalled args name then f.checkReply? c args shared else _) = _ at hreply
  show ∃ reply', (if f'.isCalled args name then f'.reply? m args shared' else _) = _ ∧ _
  rw [hcalled]
  split at hreply
  · next hf =>
    simp only [hf, if_true]
    exact Function.reply?_completes hm hparams hfree hbody h hreply
  · next hf =>
    simp only [hf]
    exact hm.call h hreply

/-- A function that takes the place of another. Its body completes that of the other wherever the
    functions that were declared before do so. -/
structure Function.Completes (k : Completion α) (c : Checker α) (f f' : Function) : Prop where
  name : f'.name = f.name
  params : f'.params = f.params
  free : ∀ p ∈ f.params, k.Free p.name
  body (call) (m : Machine α) (hm : ({ c with call } : Checker α).Covers k m) :
    Stmt.ListCompletes k { c with call } m f.body f'.body

/-- Where variables are kept in their places, a function can stand for itself. -/
theorem Function.completes_self (hplace : ∀ which, k.place which = .builtin which)
    (hinvariant : ∀ shared, k.Invariant shared)
    (hshows : ∀ ⦃shared shared'⦄, k.Shared shared shared' →
      (∀ cell, c.vertex cell = true → (shared cell.owner cell.lane).isSome) →
        k.Shows shared shared') (f : Function) : f.Completes k c f where
  name := rfl
  params := rfl
  free _ _ := Completion.free_of_place hplace _
  body call m hm := by
    have hkeeps : ({ c with call } : Checker α).Keeps k :=
      Checker.keeps_of_place hplace hinvariant
    exact Stmt.listCompletes_self hplace hkeeps hm (.emitVertex hkeeps hshows) f.body

/-- What is known of the functions of a program, with all of them declared. -/
theorem Checker.Covers.declareAll (hm : c.Covers k m) {fs fs' : List Function}
    (h : Forall₂ (Function.Completes k c) fs fs') :
    (fs.foldl Checker.declare c).Covers k (fs'.foldl Machine.declare m) := by
  induction fs generalizing c m fs' with
  | nil =>
    cases h
    exact hm
  -- The new function is declared before those that may call it.
  | cons f fs ih =>
    obtain _ | ⟨hf, hrest⟩ := h
    refine ih (hm.declare hf.name hf.params hf.free (hf.body c.call m hm)) ?_
    exact hrest.imp fun _ _ h => ⟨h.name, h.params, h.free, h.body⟩

end ShaderGen
