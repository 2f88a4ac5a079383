import ShaderGen.Proofs.Mirror
import ShaderGen.Proofs.Precision.Twins

/-!
# Programs that differ in precision alone

Statements and programs are twins if they have the same structure over declarations of the same
names and shapes and over expressions that are twins.

## Key results

- `Stmt.Twin.mapExprsM`, `Stmt.Twin.expandM`, `Program.Twin.mapNodesM`: walks over twins make twins,
  if what they do to one expression or to one statement does
-/

namespace ShaderGen

open List (Forall₂)

/-! ### Statements -/

/-- Declarations that are the same but for precision classes. -/
structure Decl.Twin (d d' : Decl) : Prop where
  storage : d.storage = d'.storage
  name : d.name = d'.name
  ty : d.ty.Twin d'.ty
  init : Option.Rel Expr.Twin d.init d'.init

/-- Statements that are the same but for precision classes. -/
inductive Stmt.Twin : Stmt → Stmt → Prop
  | block {ss ss' : List Stmt} (h : List.Forall₂ Twin ss ss') : Twin (.block ss) (.block ss')
  | decl {d d' : Decl} (h : d.Twin d') : Twin (.decl d) (.decl d')
  | ifElse {c c' : Expr} {s s' : Stmt} {o o' : Option Stmt} (hc : c.Twin c') (hs : Twin s s')
    (ho : Option.Rel Twin o o') : Twin (.ifElse c s o) (.ifElse c' s' o')
  | forLoop {i i' : Option Stmt} {c c' t t' : Option Expr} {s s' : Stmt} (hi : Option.Rel Twin i i')
    (hc : Option.Rel Expr.Twin c c') (ht : Option.Rel Expr.Twin t t') (hs : Twin s s') :
    Twin (.forLoop i c t s) (.forLoop i' c' t' s')
  | whileLoop {c c' : Expr} {s s' : Stmt} (hc : c.Twin c') (hs : Twin s s') :
    Twin (.whileLoop c s) (.whileLoop c' s')
  | doWhile {c c' : Expr} {s s' : Stmt} (hs : Twin s s') (hc : c.Twin c') :
    Twin (.doWhile s c) (.doWhile s' c')
  | switchOn {v v' : Expr} {cs cs' : List Case} (hv : v.Twin v')
    (hcs : List.Forall₂ (Case.Over Twin) cs cs') : Twin (.switchOn v cs) (.switchOn v' cs')
  | expr {e e' : Expr} (h : e.Twin e') : Twin (.expr e) (.expr e')
  | returnWith {v v' : Option Expr} (h : Option.Rel Expr.Twin v v') :
    Twin (.returnWith v) (.returnWith v')
  | breakOut : Twin .breakOut .breakOut
  | continueLoop : Twin .continueLoop .continueLoop
  | discard : Twin .discard .discard
  | emitVertex : Twin .emitVertex .emitVertex
  | endPrimitive : Twin .endPrimitive .endPrimitive

/-- A declaration is its own twin. -/
theorem Decl.Twin.refl (d : Decl) : d.Twin d :=
  ⟨rfl, rfl, .refl _, Option.rel_refl fun e _ => .refl e⟩

namespace Stmt

/-- A statement is its own twin. -/
theorem Twin.refl (s : Stmt) : s.Twin s := by
  have hexprs : ∀ o : Option Expr, Option.Rel Expr.Twin o o :=
    fun o => Option.rel_refl fun e _ => .refl e
  induction s with
  | block body ih => exact .block (List.forall₂_same.mpr ih)
  | decl d => exact .decl (.refl d)
  | ifElse c s o ihs iho => exact .ifElse (.refl c) ihs (Option.rel_refl iho)
  | forLoop i c t s ihi ihs => exact .forLoop (Option.rel_refl ihi) (hexprs c) (hexprs t) ihs
  | whileLoop c s ih => exact .whileLoop (.refl c) ih
  | doWhile s c ih => exact .doWhile ih (.refl c)
  -- Cases are twins by their bodies, under one label.
  | switchOn v cs ih =>
    refine .switchOn (.refl v) (List.forall₂_same.mpr fun c hc => ?_)
    obtain ⟨label, body⟩ := c
    exact .mk label (List.forall₂_same.mpr (ih label body hc))
  | expr e => exact .expr (.refl e)
  | returnWith v => exact .returnWith (hexprs v)
  | breakOut => exact .breakOut
  | continueLoop => exact .continueLoop
  | discard => exact .discard
  | emitVertex => exact .emitVertex
  | endPrimitive => exact .endPrimitive

namespace Twin

variable {s s' : Stmt} {ss ss' : List Stmt}

/-- One statement is itself, more of them are a block, on both sides alike. -/
theorem ofList (h : Forall₂ Twin ss ss') : (Stmt.ofList ss).Twin (.ofList ss') := by
  obtain _ | ⟨hs, _ | ⟨ht, hrest⟩⟩ := h
  · exact .block .nil
  · exact hs
  · exact .block (.cons hs (.cons ht hrest))

/-- Bodies that are no blocks are wrapped on both sides. -/
theorem toBlock (h : s.Twin s') : s.toBlock.Twin s'.toBlock := by
  have hself := h
  cases h with
  | block hss => exact .block hss
  | _ => exact .block (.cons hself .nil)

/-- Twins have the same form at the top. -/
theorem isReturn (h : s.Twin s') : s.isReturn = s'.isReturn := by
  cases h <;> rfl

end Twin

end Stmt

/-! ### Walks over statements -/

section

variable {m : Type → Type} [Monad m] [LawfulMonad m] (J : Pairing m)

/-- A rewrite that takes twins to twins does so with initial values. -/
theorem Decl.Twin.mapInitM {f g : Expr → m Expr}
    (hf : ∀ e e', e.Twin e' → J.Holds Expr.Twin (f e) (g e')) {d d' : Decl} (h : d.Twin d') :
    J.Holds Decl.Twin (d.mapInitM f) (d'.mapInitM g) :=
  J.bind (J.mapM_option h.init hf) fun _ _ hinit => J.pure ⟨h.storage, h.name, h.ty, hinit⟩

namespace Stmt.Twin

variable {f g : Expr → m Expr} {visit look : Stmt → m (Stmt → List Stmt)}

omit [LawfulMonad m] in
/-- Walking over several twins is walking over each. -/
private theorem mapExprsListM_step {ss ss' : List Stmt} (hss : Forall₂ Stmt.Twin ss ss')
    (ih : ∀ s ∈ ss, ∀ s', s.Twin s' → J.Holds Stmt.Twin (s.mapExprsM f) (s'.mapExprsM g)) :
    J.Holds (Forall₂ Stmt.Twin) (mapExprsListM f ss) (mapExprsListM g ss') := by
  induction hss with
  | nil => exact J.pure .nil
  | cons hs _ ihs =>
    refine J.bind (ih _ List.mem_cons_self _ hs) fun s s' hs => ?_
    refine J.bind (ihs fun t ht => ih t (List.mem_cons_of_mem _ ht)) fun ss ss' hss => ?_
    exact J.pure (.cons hs hss)

omit [LawfulMonad m] in
/-- An optional statement is related if the one it may hold is. -/
private theorem mapExprsOptionM_step {o o' : Option Stmt} (ho : Option.Rel Stmt.Twin o o')
    (ih : ∀ s ∈ o, ∀ s', s.Twin s' → J.Holds Stmt.Twin (s.mapExprsM f) (s'.mapExprsM g)) :
    J.Holds (Option.Rel Stmt.Twin) (mapExprsOptionM f o) (mapExprsOptionM g o') := by
  cases ho with
  | none => exact J.pure .none
  | some hs => exact J.bind (ih _ rfl _ hs) fun s s' hs => J.pure (.some hs)

/-- Replacing the expressions of twins by twins makes twins. -/
theorem mapExprsM (hf : ∀ e e', e.Twin e' → J.Holds Expr.Twin (f e) (g e')) {s s' : Stmt}
    (h : s.Twin s') : J.Holds Stmt.Twin (s.mapExprsM f) (s'.mapExprsM g) := by
  induction s generalizing s' with
  -- The sub-expressions of a statement come first, then the statements inside it.
  | block body ih =>
    obtain ⟨hbody⟩ := h
    exact J.bind (mapExprsListM_step J hbody fun s hs _ => ih s hs) fun _ _ hss =>
      J.pure (.block hss)
  | decl d =>
    obtain _ | ⟨hd⟩ := h
    exact J.bind (hd.mapInitM J hf) fun _ _ hd => J.pure (.decl hd)
  -- Each part is rewritten on both sides before the next one is.
  | ifElse c s o ihs iho =>
    obtain _ | _ | ⟨hc, hs, ho⟩ := h
    refine J.bind (hf _ _ hc) fun _ _ hc => ?_
    refine J.bind (ihs hs) fun _ _ hs => ?_
    exact J.bind (mapExprsOptionM_step J ho fun s hs _ => iho s hs) fun _ _ ho =>
      J.pure (.ifElse hc hs ho)
  | forLoop i c t s ihi ihs =>
    obtain _ | _ | _ | ⟨hi, hc, ht, hs⟩ := h
    refine J.bind (J.mapM_option hc hf) fun _ _ hc => ?_
    refine J.bind (J.mapM_option ht hf) fun _ _ ht => ?_
    refine J.bind (mapExprsOptionM_step J hi fun s hs _ => ihi s hs) fun _ _ hi => ?_
    exact J.bind (ihs hs) fun _ _ hs => J.pure (.forLoop hi hc ht hs)
  | whileLoop c s ih =>
    obtain _ | _ | _ | _ | ⟨hc, hs⟩ := h
    refine J.bind (hf _ _ hc) fun _ _ hc => ?_
    exact J.bind (ih hs) fun _ _ hs => J.pure (.whileLoop hc hs)
  | doWhile s c ih =>
    obtain _ | _ | _ | _ | _ | ⟨hs, hc⟩ := h
    refine J.bind (hf _ _ hc) fun _ _ hc => ?_
    exact J.bind (ih hs) fun _ _ hs => J.pure (.doWhile hs hc)
  | switchOn v cs ih =>
    obtain _ | _ | _ | _ | _ | _ | @⟨_, _, _, cs', hv, hcs⟩ := h
    -- The cases are related one after the other, each by its body.
    have hcases : J.Holds (Forall₂ (Case.Over Stmt.Twin)) (mapExprsCasesM f cs)
        (mapExprsCasesM g cs') := by
      induction hcs with
      | nil => exact J.pure .nil
      | cons hcase _ ihcs =>
        obtain ⟨label, hbody⟩ := hcase
        refine J.bind (mapExprsListM_step J hbody fun s hs _ =>
          ih _ _ List.mem_cons_self s hs) fun _ _ hbody => ?_
        refine J.bind (ihcs fun label body hmem => ih label body (List.mem_cons_of_mem _ hmem))
          fun _ _ hcs => ?_
        exact J.pure (.cons (.mk label hbody) hcs)
    refine J.bind (hf _ _ hv) fun _ _ hv => ?_
    exact J.bind hcases fun _ _ hcs => J.pure (.switchOn hv hcs)
  -- An expression or a value is all that such a statement has.
  | expr e =>
    obtain _ | _ | _ | _ | _ | _ | _ | ⟨he⟩ := h
    exact J.bind (hf _ _ he) fun _ _ he => J.pure (.expr he)
  | returnWith v =>
    obtain _ | _ | _ | _ | _ | _ | _ | _ | ⟨hv⟩ := h
    exact J.bind (J.mapM_option hv hf) fun _ _ hv => J.pure (.returnWith hv)
  -- Nothing is rewritten here.
  | breakOut | continueLoop | discard | emitVertex | endPrimitive =>
    cases h
    exact J.pure (.refl _)

/-- The same for the statements of a body. -/
theorem mapExprsListM (hf : ∀ e e', e.Twin e' → J.Holds Expr.Twin (f e) (g e'))
    {ss ss' : List Stmt} (h : Forall₂ Stmt.Twin ss ss') :
    J.Holds (Forall₂ Stmt.Twin) (Stmt.mapExprsListM f ss) (Stmt.mapExprsListM g ss') :=
  mapExprsListM_step J h fun _ _ _ hs => hs.mapExprsM J hf

/-- What a statement is replaced by is found out for twins alike, and is the same for twins. -/
def Visits (visit look : Stmt → m (Stmt → List Stmt)) : Prop :=
  ∀ s s', s.Twin s' → J.Holds
    (fun replace replace' => ∀ t t', t.Twin t' → Forall₂ Stmt.Twin (replace t) (replace' t'))
    (visit s) (look s')

omit [LawfulMonad m] in
/-- Lists are related member by member, and what the members become is joined. -/
private theorem expandListM_step {ss ss' : List Stmt} (hss : Forall₂ Stmt.Twin ss ss')
    (ih : ∀ s ∈ ss, ∀ s', s.Twin s' →
      J.Holds (Forall₂ Stmt.Twin) (s.expandM visit) (s'.expandM look)) :
    J.Holds (Forall₂ Stmt.Twin) (expandListM visit ss) (expandListM look ss') := by
  induction hss with
  | nil => exact J.pure .nil
  | cons hs _ ihs =>
    refine J.bind (ih _ List.mem_cons_self _ hs) fun s s' hs => ?_
    refine J.bind (ihs fun t ht => ih t (List.mem_cons_of_mem _ ht)) fun ss ss' hss => ?_
    exact J.pure (List.rel_append hs hss)

omit [LawfulMonad m] in
/-- Replacing the statements of twins alike makes twins. -/
theorem expandM (hvisit : Visits J visit look) {s s' : Stmt} (h : s.Twin s') :
    J.Holds (Forall₂ Stmt.Twin) (s.expandM visit) (s'.expandM look) := by
  induction s generalizing s' with
  -- A visit looks at the statement as it was, and replaces it once its parts are rewritten.
  | block body ih =>
    obtain ⟨hbody⟩ := h
    refine J.bind (hvisit _ _ (.block hbody)) fun _ _ hreplace => ?_
    exact J.bind (expandListM_step J hbody fun s hs _ => ih s hs) fun _ _ hss =>
      J.pure (hreplace _ _ (.block hss))
  | ifElse c s o ihs iho =>
    obtain _ | _ | @⟨_, _, _, _, _, o', hc, hs, ho⟩ := h
    -- A branch that became several statements is one block again.
    have helse : J.Holds (Option.Rel Stmt.Twin) (expandOptionM visit o)
        (expandOptionM look o') := by
      cases ho with
      | none => exact J.pure .none
      | some ht => exact J.bind (iho _ rfl ht) fun _ _ hss => J.pure (.some (.ofList hss))
    refine J.bind (hvisit _ _ (.ifElse hc hs ho)) fun _ _ hreplace => ?_
    refine J.bind (ihs hs) fun _ _ hs => ?_
    exact J.bind helse fun _ _ ho => J.pure (hreplace _ _ (.ifElse hc (.ofList hs) ho))
  | forLoop i c t s ihi ihs =>
    obtain _ | _ | _ | ⟨hi, hc, ht, hs⟩ := h
    refine J.bind (hvisit _ _ (.forLoop hi hc ht hs)) fun _ _ hreplace => ?_
    exact J.bind (ihs hs) fun _ _ hs => J.pure (hreplace _ _ (.forLoop hi hc ht (.ofList hs)))
  -- A loop is visited first, and its body is rewritten after that.
  | whileLoop c s ih =>
    obtain _ | _ | _ | _ | ⟨hc, hs⟩ := h
    refine J.bind (hvisit _ _ (.whileLoop hc hs)) fun _ _ hreplace => ?_
    exact J.bind (ih hs) fun _ _ hs => J.pure (hreplace _ _ (.whileLoop hc (.ofList hs)))
  | doWhile s c ih =>
    obtain _ | _ | _ | _ | _ | ⟨hs, hc⟩ := h
    refine J.bind (hvisit _ _ (.doWhile hs hc)) fun _ _ hreplace => ?_
    exact J.bind (ih hs) fun _ _ hs => J.pure (hreplace _ _ (.doWhile (.ofList hs) hc))
  -- The labels of twins are the same.
  | switchOn v cs ih =>
    obtain _ | _ | _ | _ | _ | _ | @⟨_, _, _, cs', hv, hcs⟩ := h
    have hcases : J.Holds (Forall₂ (Case.Over Stmt.Twin)) (expandCasesM visit cs)
        (expandCasesM look cs') := by
      clear hv
      induction hcs with
      | nil => exact J.pure .nil
      | cons hcase _ ihcs =>
        obtain ⟨label, hbody⟩ := hcase
        refine J.bind (expandListM_step J hbody fun s hs _ =>
          ih _ _ List.mem_cons_self s hs) fun _ _ hbody => ?_
        refine J.bind (ihcs fun label body hmem => ih label body (List.mem_cons_of_mem _ hmem))
          fun _ _ hcs => ?_
        exact J.pure (.cons (.mk label hbody) hcs)
    refine J.bind (hvisit _ _ (.switchOn hv hcs)) fun _ _ hreplace => ?_
    exact J.bind hcases fun _ _ hcs => J.pure (hreplace _ _ (.switchOn hv hcs))
  -- A statement without parts is given to the visit as it is.
  | _ =>
    have hself := h
    cases h
    all_goals exact J.bind (hvisit _ _ hself) fun _ _ hreplace => J.pure (hreplace _ _ hself)

omit [LawfulMonad m] in
/-- The same for the statements of a body. -/
theorem expandListM (hvisit : Visits J visit look) {ss ss' : List Stmt}
    (h : Forall₂ Stmt.Twin ss ss') :
    J.Holds (Forall₂ Stmt.Twin) (Stmt.expandListM visit ss) (Stmt.expandListM look ss') :=
  expandListM_step J h fun _ _ _ hs => hs.expandM J hvisit

end Stmt.Twin

end

/-- The rewrite without a monad, on a list. -/
theorem Stmt.Twin.expandList {f : Stmt → List Stmt}
    (hf : ∀ s s', s.Twin s' → Forall₂ Stmt.Twin (f s) (f s')) {ss ss' : List Stmt}
    (h : Forall₂ Stmt.Twin ss ss') :
    Forall₂ Stmt.Twin (Stmt.expandList f ss) (Stmt.expandList f ss') :=
  Stmt.Twin.expandListM (m := Id) .values (fun _ _ _ => hf) h

/-- Any twin-keeping map of expressions keeps twin statements. -/
theorem Stmt.Twin.mapExprs {f g : Expr → Expr} (hf : ∀ e e', e.Twin e' → (f e).Twin (g e'))
    {s s' : Stmt} (h : s.Twin s') : (s.mapExprs f).Twin (s'.mapExprs g) :=
  Stmt.Twin.mapExprsM (m := Id) .values hf h

section

variable {f g : Stmt → Stmt} (hf : ∀ s s', s.Twin s' → (f s).Twin (g s'))

include hf

/-- Replacing every statement of twins by twins makes twins. -/
theorem Stmt.Twin.bottomUp {s s' : Stmt} (h : s.Twin s') : (s.bottomUp f).Twin (s'.bottomUp g) := by
  -- Lists and optional statements are mapped member by member.
  have hlist : ∀ {ss ss' : List Stmt}, Forall₂ Stmt.Twin ss ss' →
      (∀ s ∈ ss, ∀ s', s.Twin s' → (s.bottomUp f).Twin (s'.bottomUp g)) →
      Forall₂ Stmt.Twin (bottomUpList f ss) (bottomUpList g ss') := by
    intro ss ss' hss ih
    induction hss with
    | nil => exact .nil
    | cons hs _ ihs =>
      exact .cons (ih _ List.mem_cons_self _ hs) (ihs fun t ht => ih t (List.mem_cons_of_mem _ ht))
  have hoption : ∀ {o o' : Option Stmt}, Option.Rel Stmt.Twin o o' →
      (∀ s ∈ o, ∀ s', s.Twin s' → (s.bottomUp f).Twin (s'.bottomUp g)) →
      Option.Rel Stmt.Twin (bottomUpOption f o) (bottomUpOption g o') := by
    intro o o' ho ih
    cases ho with
    | none => exact .none
    | some hs => exact .some (ih _ rfl _ hs)
  induction s generalizing s' with
  | block body ih =>
    obtain ⟨hbody⟩ := h
    exact hf _ _ (.block (hlist hbody fun s hs _ => ih s hs))
  -- The map is applied to a statement whose parts are twins already.
  | ifElse c s o ihs iho =>
    obtain _ | _ | ⟨hc, hs, ho⟩ := h
    exact hf _ _ (.ifElse hc (ihs hs) (hoption ho fun s hs _ => iho s hs))
  | forLoop i c t s ihi ihs =>
    obtain _ | _ | _ | ⟨hi, hc, ht, hs⟩ := h
    exact hf _ _ (.forLoop (hoption hi fun s hs _ => ihi s hs) hc ht (ihs hs))
  | whileLoop c s ih =>
    obtain _ | _ | _ | _ | ⟨hc, hs⟩ := h
    exact hf _ _ (.whileLoop hc (ih hs))
  | doWhile s c ih =>
    obtain _ | _ | _ | _ | _ | ⟨hs, hc⟩ := h
    exact hf _ _ (.doWhile (ih hs) hc)
  | switchOn v cs ih =>
    obtain _ | _ | _ | _ | _ | _ | @⟨_, _, _, cs', hv, hcs⟩ := h
    have hcases : Forall₂ (Case.Over Stmt.Twin) (bottomUpCases f cs) (bottomUpCases g cs') := by
      clear hv
      induction hcs with
      | nil => exact .nil
      | cons hcase _ ihcs =>
        obtain ⟨label, hbody⟩ := hcase
        refine .cons (.mk label (hlist hbody fun s hs _ => ih _ _ List.mem_cons_self s hs)) ?_
        exact ihcs fun label body hmem => ih label body (List.mem_cons_of_mem _ hmem)
    exact hf _ _ (.switchOn hv hcases)
  -- Statements without statements inside are only given to the map.
  | _ =>
    have hself := h
    cases h
    all_goals exact hf _ _ hself

/-- The same for the list of a body. -/
theorem Stmt.Twin.bottomUpList {ss ss' : List Stmt} (h : Forall₂ Stmt.Twin ss ss') :
    Forall₂ Stmt.Twin (Stmt.bottomUpList f ss) (Stmt.bottomUpList g ss') := by
  rw [bottomUpList_eq_map, bottomUpList_eq_map]
  exact List.rel_map (fun _ _ hs => hs.bottomUp hf) h

end

/-- Replacing every statement by itself changes nothing. -/
theorem Stmt.bottomUp_id (s : Stmt) : s.bottomUp id = s := by
  have hlist : ∀ {ss : List Stmt}, (∀ s ∈ ss, s.bottomUp id = s) → bottomUpList id ss = ss := by
    intro ss ih
    rw [bottomUpList_eq_map, List.map_congr_left ih, List.map_id']
  have hoption : ∀ {o : Option Stmt}, (∀ s ∈ o, s.bottomUp id = s) → bottomUpOption id o = o := by
    intro o ih
    cases o with
    | none => rfl
    | some s => exact congrArg some (ih s rfl)
  induction s with
  -- One case a constructor; the children are as they were.
  | block body ih => rw [bottomUp, hlist ih, id]
  | ifElse c s o ihs iho => rw [bottomUp, ihs, hoption iho, id]
  | forLoop i c t s ihi ihs => rw [bottomUp, hoption ihi, ihs, id]
  | whileLoop c s ih => rw [bottomUp, ih, id]
  | doWhile s c ih => rw [bottomUp, ih, id]
  | switchOn v cs ih =>
    -- Each case keeps its label, and its body is a list.
    have hcases : bottomUpCases id cs = cs := by
      induction cs with
      | nil => rfl
      | cons c cs ihcs =>
        obtain ⟨label, body⟩ := c
        rw [bottomUpCases, hlist (ih label body List.mem_cons_self),
          ihcs fun label body hmem => ih label body (List.mem_cons_of_mem _ hmem)]
    rw [bottomUp, hcases, id]
  | _ => rfl

/-! ### What is asked of statements -/

/-- What depends on the expressions of twins in the same way depends in the same way on twins. -/
theorem Stmt.Twin.anyExpr_eq {p : Expr → Bool} (hp : ∀ e e', e.Twin e' → p e = p e') {s s' : Stmt}
    (h : s.Twin s') : s.anyExpr p = s'.anyExpr p := by
  have hexpr : ∀ {o o' : Option Expr}, Option.Rel Expr.Twin o o' → o.any p = o'.any p :=
    fun ho => any_eq_of_rel ho hp
  have hoption : ∀ {o o' : Option Stmt}, Option.Rel Stmt.Twin o o' →
      (∀ s ∈ o, ∀ s', s.Twin s' → s.anyExpr p = s'.anyExpr p) →
      anyExprOption p o = anyExprOption p o' := by
    intro o o' ho ih
    cases ho with
    | none => rfl
    | some hs => exact ih _ rfl _ hs
  have hlist : ∀ {ss ss' : List Stmt}, Forall₂ Stmt.Twin ss ss' →
      (∀ s ∈ ss, ∀ s', s.Twin s' → s.anyExpr p = s'.anyExpr p) →
      anyExprList p ss = anyExprList p ss' := by
    -- What holds of some member is found in the same place on both sides.
    intro ss ss' hss ih
    rw [anyExprList_eq_any, anyExprList_eq_any]
    exact any_eq_of_forall₂ hss ih
  induction s generalizing s' with
  | block body ih =>
    obtain ⟨hbody⟩ := h
    exact hlist hbody fun s hs _ => ih s hs
  -- A search goes through the parts in one order, and it finds the same in each.
  | decl d =>
    obtain _ | ⟨hd⟩ := h
    exact hexpr hd.init
  | ifElse c s o ihs iho =>
    obtain _ | _ | ⟨hc, hs, ho⟩ := h
    rw [anyExpr, anyExpr, hp _ _ hc, ihs hs, hoption ho fun s hs _ => iho s hs]
  | forLoop i c t s ihi ihs =>
    obtain _ | _ | _ | ⟨hi, hc, ht, hs⟩ := h
    rw [anyExpr, anyExpr, hexpr hc, hexpr ht, hoption hi fun s hs _ => ihi s hs, ihs hs]
  | whileLoop c s ih =>
    obtain _ | _ | _ | _ | ⟨hc, hs⟩ := h
    rw [anyExpr, anyExpr, hp _ _ hc, ih hs]
  | doWhile s c ih =>
    obtain _ | _ | _ | _ | _ | ⟨hs, hc⟩ := h
    rw [anyExpr, anyExpr, hp _ _ hc, ih hs]
  | switchOn v cs ih =>
    obtain _ | _ | _ | _ | _ | _ | @⟨_, _, _, cs', hv, hcs⟩ := h
    -- Labels hold no expressions.
    have hcases : anyExprCases p cs = anyExprCases p cs' := by
      clear hv
      induction hcs with
      | nil => rfl
      | cons hcase _ ihcs =>
        obtain ⟨label, hbody⟩ := hcase
        rw [anyExprCases, anyExprCases, hlist hbody fun s hs _ => ih _ _ List.mem_cons_self s hs,
          ihcs fun label body hmem => ih label body (List.mem_cons_of_mem _ hmem)]
    rw [anyExpr, anyExpr, hp _ _ hv, hcases]
  -- The leaves have at most one expression.
  | expr e =>
    obtain _ | _ | _ | _ | _ | _ | _ | ⟨he⟩ := h
    exact hp _ _ he
  | returnWith v =>
    obtain _ | _ | _ | _ | _ | _ | _ | _ | ⟨hv⟩ := h
    exact hexpr hv
  | breakOut | continueLoop | discard | emitVertex | endPrimitive =>
    cases h
    rfl

/-! ### Functions and programs -/

/-- Parameters of the same name and shape. -/
structure Param.Twin (p p' : Param) : Prop where
  name : p.name = p'.name
  ty : p.ty.Twin p'.ty

/-- Functions that are the same but for precision classes. -/
structure Function.Twin (fn fn' : Function) : Prop where
  name : fn.name = fn'.name
  result : fn.result.Twin fn'.result
  params : Forall₂ Param.Twin fn.params fn'.params
  body : Forall₂ Stmt.Twin fn.body fn'.body

/-- Elements that are the same but for precision classes. -/
inductive Element.Twin : Element → Element → Prop
  | global {d d' : Decl} (h : d.Twin d') : Twin (.global d) (.global d')
  | function {fn fn' : Function} (h : fn.Twin fn') : Twin (.function fn) (.function fn')
  | layout (l : Layout) : Twin (.layout l) (.layout l)

/-- Programs that are the same but for precision classes. -/
structure Program.Twin (p p' : Program) : Prop where
  stage : p.stage = p'.stage
  elements : Forall₂ Element.Twin p.elements p'.elements

/-- A function is its own twin. -/
theorem Function.Twin.refl (fn : Function) : fn.Twin fn :=
  ⟨rfl, .refl _, List.forall₂_same.mpr fun _ _ => ⟨rfl, .refl _⟩,
    List.forall₂_same.mpr fun s _ => .refl s⟩

/-- An element is its own twin. -/
theorem Element.Twin.refl : ∀ el : Element, el.Twin el
  | .global d => .global (.refl d)
  | .function fn => .function (.refl fn)
  | .layout l => .layout l

/-- A program is its own twin. -/
theorem Program.Twin.refl (p : Program) : p.Twin p :=
  ⟨rfl, List.forall₂_same.mpr fun el _ => .refl el⟩

namespace Function.Twin

variable {fn fn' : Function}

/-- Twins have one name, so one is the entry point if the other is. -/
theorem isEntry (h : fn.Twin fn') : fn.isEntry = fn'.isEntry := congrArg (· == entryName) h.name

/-- What takes twin bodies to twin bodies takes twin functions to twin functions. -/
theorem mapBody {f : List Stmt → List Stmt}
    (hf : ∀ ss ss', Forall₂ Stmt.Twin ss ss' → Forall₂ Stmt.Twin (f ss) (f ss')) (h : fn.Twin fn') :
    (fn.mapBody f).Twin (fn'.mapBody f) :=
  { h with body := hf _ _ h.body }

/-- Twins have a node of a kind alike, if the kind does not tell twins apart. -/
theorem anyNode {p : Expr → Bool} (hp : ∀ e e', e.Twin e' → p e = p e') (h : fn.Twin fn') :
    fn.anyNode p = fn'.anyNode p := by
  rw [Function.anyNode, Function.anyNode, Stmt.anyExprList_eq_any, Stmt.anyExprList_eq_any]
  exact any_eq_of_forall₂ h.body fun _ _ _ hs => hs.anyExpr_eq fun _ _ he => he.any_eq hp

end Function.Twin

namespace Program.Twin

variable {p p' : Program}

/-- The same for programs. -/
theorem anyNode {q : Expr → Bool} (hq : ∀ e e', e.Twin e' → q e = q e') (h : p.Twin p') :
    p.anyNode q = p'.anyNode q := by
  refine any_eq_of_forall₂ h.elements fun el _ el' hel => ?_
  cases hel with
  | global hd => exact any_eq_of_rel hd.init fun _ _ he => he.any_eq hq
  | function hfn => exact hfn.anyNode hq
  | layout l => rfl

/-- Twins have functions that are twins, in the same order. -/
theorem functions (h : p.Twin p') : Forall₂ Function.Twin p.functions p'.functions := by
  refine List.rel_filterMap ?_ h.elements
  intro el el' hel
  cases hel with
  | global => exact .none
  | function hfn => exact .some hfn
  | layout => exact .none

/-- What is read off elements without telling twins apart is the same for both programs. -/
theorem flatMap_elements {β : Type} {f : Element → List β}
    (hf : ∀ el el', el.Twin el' → f el = f el') (h : p.Twin p') :
    p.elements.flatMap f = p'.elements.flatMap f := by
  rw [List.flatMap_def, List.flatMap_def, map_eq_of_forall₂ h.elements fun el _ => hf el]

section

variable {m : Type → Type} [Monad m] [LawfulMonad m] (J : Pairing m)

/-- Replacing the elements of twins by lists of twins makes twins. -/
theorem mapM_elements {f g : Element → m Element}
    (hf : ∀ el el', el.Twin el' → J.Holds Element.Twin (f el) (g el')) (h : p.Twin p') :
    J.Holds Program.Twin
      (p.elements.mapM f >>= fun elements => pure { p with elements })
      (p'.elements.mapM g >>= fun elements => pure { p' with elements }) :=
  J.bind (J.mapM h.elements fun el _ => hf el) fun _ _ hels => J.pure ⟨h.stage, hels⟩

/-- The monadic map of a program takes twins to twins. -/
theorem mapExprsM {f g : Expr → m Expr} (hf : ∀ e e', e.Twin e' → J.Holds Expr.Twin (f e) (g e'))
    (h : p.Twin p') : J.Holds Program.Twin (p.mapExprsM f) (p'.mapExprsM g) := by
  refine h.mapM_elements J fun el el' hel => ?_
  -- The elements are of one kind, and are walked in the same way.
  cases hel with
  | global hd => exact J.bind (hd.mapInitM J hf) fun _ _ hd => J.pure (.global hd)
  | function hfn =>
    refine J.bind (J.bind (Stmt.Twin.mapExprsListM J hf hfn.body) fun _ _ hbody =>
      J.pure ?_) fun _ _ hfn => J.pure (.function hfn)
    exact { hfn with body := hbody }
  | layout l => exact J.pure (.layout l)

/-- So does the monadic map of its nodes. -/
theorem mapNodesM {f g : Expr → m Expr} (hf : ∀ e e', e.Twin e' → J.Holds Expr.Twin (f e) (g e'))
    (h : p.Twin p') : J.Holds Program.Twin (p.mapNodesM f) (p'.mapNodesM g) :=
  h.mapExprsM J fun _ _ he => he.bottomUpM J hf

/-- So does a monadic map of its functions, if it does so for each. -/
theorem mapFunctionsM {f g : Function → m Function}
    (hf : ∀ fn fn', fn.Twin fn' → J.Holds Function.Twin (f fn) (g fn')) (h : p.Twin p') :
    J.Holds Program.Twin (p.mapFunctionsM f) (p'.mapFunctionsM g) := by
  refine h.mapM_elements J fun el el' hel => ?_
  cases hel with
  | global hd => exact J.pure (.global hd)
  | function hfn => exact J.bind (hf _ _ hfn) fun _ _ hfn => J.pure (.function hfn)
  | layout l => exact J.pure (.layout l)

end

/-- Maps of nodes take twins to twins. -/
theorem mapNodes {f g : Expr → Expr} (hf : ∀ e e', e.Twin e' → (f e).Twin (g e'))
    (h : p.Twin p') : (p.mapNodes f).Twin (p'.mapNodes g) :=
  mapNodesM (m := Id) .values hf h

/-- Maps of functions take twins to twins. -/
theorem mapFunctions {f : Function → Function} (hf : ∀ fn fn', fn.Twin fn' → (f fn).Twin (f fn'))
    (h : p.Twin p') : (p.mapFunctions f).Twin (p'.mapFunctions f) := by
  refine ⟨h.stage, List.rel_map (fun el el' hel => ?_) h.elements⟩
  cases hel with
  | global hd => exact .global hd
  | function hfn => exact .function (hf _ _ hfn)
  | layout l => exact .layout l

/-- Only the entry point is mapped, and it stands in the same place on both sides. -/
theorem mapEntry {f : Function → Function} (hf : ∀ fn fn', fn.Twin fn' → (f fn).Twin (f fn'))
    (h : p.Twin p') : (p.mapEntry f).Twin (p'.mapEntry f) := by
  refine ⟨h.stage, ?_⟩
  -- The map stops at the first entry point, so this is an induction on both lists.
  have helements := h.elements
  show Forall₂ Element.Twin (Element.mapFirstEntry f p.elements)
    (Element.mapFirstEntry f p'.elements)
  generalize p.elements = els, p'.elements = els' at helements
  induction helements with
  | nil => exact .nil
  | @cons el el' els els' hel hels ih =>
    cases hel with
    | global hd => exact .cons (.global hd) ih
    | layout l => exact .cons (.layout l) ih
    | function hfn =>
      rw [Element.mapFirstEntry, Element.mapFirstEntry, hfn.isEntry]
      split
      · exact .cons (.function (hf _ _ hfn)) hels
      · exact .cons (.function hfn) ih

end Program.Twin

end ShaderGen
