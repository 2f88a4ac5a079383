import ShaderGen.Proofs.Semantics.Matching

/-!
# Statements that take the place of others

`Stmt.Stands` says that statements with added variables can take the place of others: they do the
same, and what they declare for the statements after them differs by hidden names only. It is
respected by every kind of statement, so a rule that replaces some statements has to be looked at
only where it applies.

## Key results

- `Stmt.Stands.append`: statements can be replaced one by one
- `Stmt.Stands.block`, `.ifElse`, `.forLoop`, `.whileLoop`, `.doWhile`, `.switchOn`: what statements
  inside others are replaced by
- `Stmt.stands_self`: a statement that does not mention hidden names does not see them
-/

namespace ShaderGen

open Behaviour

variable {α : Type} (hidden : String → Bool)

/-- Whether a declaration has a hidden name or refers to one. -/
def Decl.mentions (d : Decl) : Bool := hidden d.name || d.init.any (Expr.mentions hidden)

namespace Stmt

mutual
/-- Whether a statement declares a variable with a hidden name or refers to one. -/
def mentions (hidden : String → Bool) : Stmt → Bool
  | .block body => listMentions hidden body
  | .decl d => d.mentions hidden
  | .ifElse cond thenBranch elseBranch =>
    cond.mentions hidden || thenBranch.mentions hidden || optionMentions hidden elseBranch
  | .forLoop init cond step body =>
    optionMentions hidden init || cond.any (Expr.mentions hidden) ||
      step.any (Expr.mentions hidden) || body.mentions hidden
  | .whileLoop cond body | .doWhile body cond => cond.mentions hidden || body.mentions hidden
  | .switchOn value cases => value.mentions hidden || casesMention hidden cases
  | .expr e => e.mentions hidden
  | .returnWith value => value.any (Expr.mentions hidden)
  | .breakOut | .continueLoop | .discard | .emitVertex | .endPrimitive => false

/-- Whether a statement that need not be there mentions a hidden name. -/
def optionMentions (hidden : String → Bool) : Option Stmt → Bool
  | none => false
  | some s => s.mentions hidden

/-- Whether one of several statements mentions a hidden name. -/
def listMentions (hidden : String → Bool) : List Stmt → Bool
  | [] => false
  | s :: ss => s.mentions hidden || listMentions hidden ss

/-- Whether one of the cases of a `switch` mentions a hidden name. -/
def casesMention (hidden : String → Bool) : List Case → Bool
  | [] => false
  | .mk _ body :: cases => listMentions hidden body || casesMention hidden cases
end

/-- Statements with added variables do what others do, in whose place they stand. -/
structure Stands (m : Machine α) (ss ss' : List Stmt) : Prop where
  declares : ∀ x, hidden x = false → (x ∈ listDeclared ss' ↔ x ∈ listDeclared ss)
  runs : Matches hidden (listDeclared ss') (listBehaviour m ss) (listBehaviour m ss')

namespace Stands

variable {hidden} {m : Machine α} {s s' : Stmt} {ss ss' tt tt' : List Stmt} {names : List String}

/-- Nothing stands for nothing. -/
theorem nil : Stands hidden m [] [] := ⟨fun _ _ => Iff.rfl, .skip⟩

/-- Lists that stand for lists do so in a row. -/
theorem append (hs : Stands hidden m ss ss') (ht : Stands hidden m tt tt') :
    Stands hidden m (ss ++ tt) (ss' ++ tt') where
  declares x hx := by simp [hs.declares x hx, ht.declares x hx]
  runs := by
    rw [listBehaviour_append, listBehaviour_append, listDeclared_append]
    refine (hs.runs.mono fun x hx => ?_).seq (ht.runs.mono fun x hx => ?_)
    · exact List.mem_append_left _ hx
    · exact List.mem_append_right _ hx

/-- The first statement may be exchanged apart from the rest. -/
theorem cons (hs : Stands hidden m [s] ss) (ht : Stands hidden m tt tt') :
    Stands hidden m (s :: tt) (ss ++ tt') :=
  hs.append ht

/-- One statement stands for one with the same names. -/
theorem single (hdeclared : s'.declared = s.declared)
    (h : Matches hidden s'.declared (s.behaviour m) (s'.behaviour m)) :
    Stands hidden m [s] [s'] where
  declares x _ := by simp [hdeclared]
  runs := by
    rw [listBehaviour_singleton, listBehaviour_singleton]
    exact h.mono fun x hx => List.mem_append_left _ hx

/-- What stands for a list does so in a scope of its own. -/
theorem inScope (h : Stands hidden m ss ss') :
    Matches hidden names (inScope (listDeclared ss) (listBehaviour m ss))
      (Behaviour.inScope (listDeclared ss') (listBehaviour m ss')) :=
  h.runs.inScope h.declares

/-- Where a single statement stands, several can be put into a block. -/
theorem inner (h : Stands hidden m [s] ss) :
    Matches hidden names (s.inner m) ((ofList ss).inner m) := by
  rw [inner_ofList, ← show ofList [s] = s from rfl, inner_ofList]
  exact h.inScope

/-! ### Statements inside statements -/

variable {body body' : Stmt} {cond : Expr}

/-- A block stands for a block through its list. -/
theorem block (h : Stands hidden m ss ss') : Stands hidden m [.block ss] [.block ss'] :=
  single rfl h.inScope

/-- A choice stands for a choice through its branches. -/
theorem ifElse {elseBranch elseBranch' : Option Stmt} (hcond : cond.mentions hidden = false)
    (hthen : Matches hidden [] (s.inner m) (s'.inner m))
    (helse : Matches hidden [] (elseBehaviour m elseBranch) (elseBehaviour m elseBranch')) :
    Stands hidden m [.ifElse cond s elseBranch] [.ifElse cond s' elseBranch'] :=
  single rfl (.branch m hcond hthen helse)

/-- A `while` loop stands for one through its body. -/
theorem whileLoop (hcond : cond.mentions hidden = false)
    (hbody : Matches hidden [] (body.inner m) (body'.inner m)) :
    Stands hidden m [.whileLoop cond body] [.whileLoop cond body'] :=
  single rfl ((Matches.test m hcond).seq hbody).forever

/-- A `do` loop stands for one through its body. -/
theorem doWhile (hcond : cond.mentions hidden = false)
    (hbody : Matches hidden [] (body.inner m) (body'.inner m)) :
    Stands hidden m [.doWhile body cond] [.doWhile body' cond] :=
  single rfl (hbody.andThen (Matches.test m hcond)).forever

/-- An expression that mentions no hidden name stands for itself. -/
theorem expr {e : Expr} (h : e.mentions hidden = false) : Stands hidden m [.expr e] [.expr e] :=
  single rfl (.after (Expr.blind_eval m e h) fun _ => .skip)

/-- A `for` loop stands for one through its body, with the same header. -/
theorem forLoop {init : Option Stmt} {cond step : Option Expr}
    (hinit : Stands hidden m init.toList init.toList)
    (hcond : cond.any (Expr.mentions hidden) = false)
    (hstep : step.any (Expr.mentions hidden) = false)
    (hbody : Matches hidden [] (body.inner m) (body'.inner m)) :
    Stands hidden m [.forLoop init cond step body] [.forLoop init cond step body'] := by
  have htest : Matches hidden [] (cond.elim Behaviour.skip (test m))
      (cond.elim Behaviour.skip (test m)) := by
    cases cond with
    | none => exact .skip
    | some e => exact .test m hcond
  have hstep' : Matches hidden [] (step.elim Behaviour.skip fun e => after (e.eval m) fun _ => skip)
      (step.elim Behaviour.skip fun e => after (e.eval m) fun _ => skip) := by
    cases step with
    | none => exact .skip
    | some e => exact .after (Expr.blind_eval m e hstep) fun _ => .skip
  -- A turn is the test, the body and the step, whatever is hidden from all three.
  have hloop := (htest.seq (hbody.andThen hstep')).forever
  have hinit' := hinit.runs
  rw [← initBehaviour_eq] at hinit'
  exact single rfl ((hinit'.seq (hloop.mono (by simp))).inScope fun _ _ => Iff.rfl)

/-- A declaration that mentions no hidden name stands for itself. -/
theorem decl {d : Decl} (h : d.mentions hidden = false) :
    Stands hidden m [.decl d] [.decl d] := by
  obtain ⟨hname, hinit⟩ := Bool.or_eq_false_iff.mp h
  have hd : Matches hidden [] (d.behaviour m) (d.behaviour m) := by
    unfold Decl.behaviour
    -- The declared name is not hidden, and nor is any in the initial value.
    cases hvalue : d.init with
    | none => exact .declare hname _
    | some e =>
      rw [hvalue] at hinit
      exact .after (Expr.blind_values m hinit) fun vs => .declare hname _
  exact single rfl (hd.mono (by simp))

/-- So does a return. -/
theorem returnWith {value : Option Expr} (h : value.any (Expr.mentions hidden) = false) :
    Stands hidden m [.returnWith value] [.returnWith value] := by
  cases value with
  | none => exact single rfl (.exit _)
  | some e => exact single rfl (.after (Expr.blind_values m h) fun vs => .exit _)

/-! ### Cases of a `switch` -/

/-- The case under the same label. -/
inductive InCase (hidden : String → Bool) (m : Machine α) : Case → Case → Prop
  | mk (label : Option Int) {body body' : List Stmt} (h : Stands hidden m body body') :
    InCase hidden m (.mk label body) (.mk label body')

variable {cases cases' : List Case}

/-- Exchanged cases declare the same names in sight. -/
theorem casesDeclared_iff (h : List.Forall₂ (InCase hidden m) cases cases') (x : String)
    (hx : hidden x = false) : x ∈ casesDeclared cases' ↔ x ∈ casesDeclared cases := by
  induction h with
  | nil => exact Iff.rfl
  | cons hcase _ ih =>
    cases hcase with
    | mk label hbody => simp [casesDeclared, hbody.declares x hx, ih]

/-- Exchanged cases have the same labels, and matching bodies. -/
theorem caseBehaviours_matches (h : List.Forall₂ (InCase hidden m) cases cases') :
    List.Forall₂ (fun b b' => b'.1 = b.1 ∧ Matches hidden (casesDeclared cases') b.2 b'.2)
      (caseBehaviours m cases) (caseBehaviours m cases') := by
  induction h with
  | nil => exact .nil
  | @cons c c' cases cases' hcase _ ih =>
    cases hcase with
    | mk label hbody =>
      refine .cons ⟨rfl, hbody.runs.mono fun x hx => List.mem_append_left _ hx⟩ ?_
      exact ih.imp fun _ _ hb => ⟨hb.1, hb.2.mono fun x hx => List.mem_append_right _ hx⟩

/-- Cases stand for themselves if their bodies do. -/
theorem inCase_of_forall (h : ∀ label body, .mk label body ∈ cases → Stands hidden m body body) :
    List.Forall₂ (InCase hidden m) cases cases := by
  refine List.forall₂_same.mpr fun c hc => ?_
  obtain ⟨label, body⟩ := c
  exact .mk label (h label body hc)

/-- A `switch` stands for one through its cases. -/
theorem switchOn {value : Expr} (hvalue : value.mentions hidden = false)
    (h : List.Forall₂ (InCase hidden m) cases cases') :
    Stands hidden m [.switchOn value cases] [.switchOn value cases'] := by
  refine single rfl (.after (Expr.blind_values m hvalue) fun vs => ?_)
  -- The same cases are selected on both sides.
  have hselected := forall₂_selected (caseBehaviours_matches h) (fun _ _ hb => hb.1)
    (m.asInteger vs)
  have hall : List.Forall₂ (Matches hidden (casesDeclared cases'))
      ((selected (m.asInteger vs) (caseBehaviours m cases)).map Prod.snd)
      ((selected (m.asInteger vs) (caseBehaviours m cases')).map Prod.snd) := by
    rw [List.forall₂_map_left_iff, List.forall₂_map_right_iff]
    exact hselected.imp fun _ _ hb => hb.2
  exact ((Matches.seqAll hall).inScope (casesDeclared_iff h)).catchBreak

end Stands

variable {hidden} {m : Machine α}

/-- A list stands for itself if its statements do. -/
theorem stands_list {ss : List Stmt} (h : ∀ s ∈ ss, Stands hidden m [s] [s]) :
    Stands hidden m ss ss := by
  induction ss with
  | nil => exact .nil
  | cons s ss ih =>
    exact .cons (h s List.mem_cons_self) (ih fun s' hs' => h s' (List.mem_cons_of_mem s hs'))

/-- A list mentions what one of its statements mentions. -/
theorem listMentions_eq_any (ss : List Stmt) :
    listMentions hidden ss = ss.any (mentions hidden) := by
  induction ss with
  | nil => rfl
  | cons s ss ih => simp [listMentions, ih]

/-- It mentions nothing if none of them does. -/
theorem listMentions_eq_false_iff {ss : List Stmt} :
    listMentions hidden ss = false ↔ ∀ s ∈ ss, s.mentions hidden = false := by
  rw [listMentions_eq_any, List.any_eq_false]
  simp only [Bool.not_eq_true]

/-- Cases that mention nothing have bodies that mention nothing. -/
theorem listMentions_of_mem {cases : List Case} (h : casesMention hidden cases = false)
    {label : Option Int} {body : List Stmt} (hmem : .mk label body ∈ cases) :
    listMentions hidden body = false := by
  induction cases with
  | nil => exact absurd hmem List.not_mem_nil
  | cons c cases ih =>
    obtain ⟨label', body'⟩ := c
    obtain ⟨hbody, hrest⟩ := Bool.or_eq_false_iff.mp h
    rcases List.mem_cons.mp hmem with heq | hmem
    · -- The body is that of the first case, or of one behind it.
      cases heq
      exact hbody
    · exact ih hrest hmem

/-- Optional branches match if those that are there do. -/
theorem matches_else {s : Option Stmt} {s' : Option Stmt}
    (h : Option.Rel (fun s s' => Matches hidden [] (s.inner m) (s'.inner m)) s s') :
    Matches hidden [] (elseBehaviour m s) (elseBehaviour m s') := by
  cases h with
  | none => exact .skip
  | some h => exact h

/-- A statement does not see variables that it does not mention. -/
theorem stands_self (s : Stmt) : s.mentions hidden = false → Stands hidden m [s] [s] := by
  -- What is not mentioned by a statement is mentioned by none of its parts.
  induction s with
  | block body ih =>
    intro h
    have h := (listMentions_eq_any body).symm.trans h
    rw [List.any_eq_false] at h
    exact .block (stands_list fun s hs => ih s hs (eq_false_of_ne_true (h s hs)))
  | decl d => exact fun h => .decl h
  | ifElse cond thenBranch elseBranch iht ihe =>
    intro h
    obtain ⟨h, helse⟩ := Bool.or_eq_false_iff.mp h
    obtain ⟨hcond, hthen⟩ := Bool.or_eq_false_iff.mp h
    refine .ifElse hcond (iht hthen).inner (matches_else ?_)
    cases elseBranch with
    | none => exact .none
    | some s => exact .some (ihe s rfl helse).inner
  -- The parts of the header are asked one after the other.
  | forLoop init cond step body ihi ihb =>
    intro h
    obtain ⟨h, hbody⟩ := Bool.or_eq_false_iff.mp h
    obtain ⟨h, hstep⟩ := Bool.or_eq_false_iff.mp h
    obtain ⟨hinit, hcond⟩ := Bool.or_eq_false_iff.mp h
    refine .forLoop ?_ hcond hstep (ihb hbody).inner
    cases init with
    | none => exact .nil
    | some s => exact ihi s rfl hinit
  | whileLoop cond body ih =>
    intro h
    obtain ⟨hcond, hbody⟩ := Bool.or_eq_false_iff.mp h
    exact .whileLoop hcond (ih hbody).inner
  | doWhile body cond ih =>
    intro h
    obtain ⟨hcond, hbody⟩ := Bool.or_eq_false_iff.mp h
    exact .doWhile hcond (ih hbody).inner
  -- The value that selects a case mentions nothing hidden either.
  | switchOn value cases ih =>
    intro h
    obtain ⟨hvalue, hcases⟩ := Bool.or_eq_false_iff.mp h
    refine .switchOn hvalue (Stands.inCase_of_forall fun label body hcase => ?_)
    have hbody := listMentions_of_mem hcases hcase
    rw [listMentions_eq_any, List.any_eq_false] at hbody
    -- Each case is known to mention nothing from the list of all of them.
    exact stands_list fun s hs => ih label body hcase s hs (eq_false_of_ne_true (hbody s hs))
  -- A statement without parts stands for itself.
  | expr e => exact fun h => .expr h
  | returnWith value => exact fun h => .returnWith h
  | breakOut => exact fun _ => .single rfl (.exit _)
  | continueLoop => exact fun _ => .single rfl (.exit _)
  | discard => exact fun _ => .single rfl (.exit _)
  | emitVertex => exact fun _ => .single rfl (.act _ fun _ => rfl)
  | endPrimitive => exact fun _ => .single rfl (.act (fun _ => .endPrimitive) fun _ => rfl)

end Stmt

/-- Whether a function of a program mentions a hidden name. -/
def Program.mentions (p : Program) : Bool :=
  p.functions.any fun f => Stmt.listMentions hidden f.body

/-- The same element, save that a function may have another body: from every state it ends like the
    old one exactly in the states that look like those in which the old one ends so. -/
inductive Element.RunsAlike (m : Machine α) : Element → Element → Prop
  | global (d : Decl) : RunsAlike m (.global d) (.global d)
  | layout (l : Layout) : RunsAlike m (.layout l) (.layout l)
  | function {f f' : Function} (name : f'.name = f.name) (result : f'.result = f.result)
    (params : f'.params = f.params)
    (runs : ∀ (σ : State α) (o : Outcome α) (seen : State α),
      (∃ τ, f'.Runs m σ o τ ∧ τ.visible hidden = seen) ↔
        ∃ τ, f.Runs m σ o τ ∧ τ.visible hidden = seen) :
    RunsAlike m (.function f) (.function f')

variable {hidden}

/-- A body that can stand for another runs alike. -/
theorem Element.RunsAlike.of_stands {m : Machine α} {f : Function} {body : List Stmt}
    (h : Stmt.Stands hidden m f.body body) :
    RunsAlike hidden m (.function f) (.function { f with body }) := by
  refine .function rfl rfl rfl fun σ o seen => ⟨?_, ?_⟩
  · rintro ⟨τ', hrun, rfl⟩
    obtain ⟨τ, hrun', hτ⟩ := h.runs.backward rfl hrun
    exact ⟨τ, hrun', hτ⟩
  · rintro ⟨τ, hrun, rfl⟩
    obtain ⟨τ', hrun', hτ⟩ := h.runs.forward rfl hrun
    exact ⟨τ', hrun', hτ.symm⟩

end ShaderGen
