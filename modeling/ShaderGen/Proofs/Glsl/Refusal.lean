import ShaderGen.Proofs.Generation
import ShaderGen.Proofs.Invocations
import ShaderGen.Proofs.WellFormed

/-!
# What the printer refuses

The printer looks for obstacles as it goes along the text, and reports the first one. Whatever the
order, it reports one of those there are, and one if there are any (`Reports`); so what it refuses
is told by the nodes of a program one at a time (`Node.Refused`). If none of them is malformed, it
is a float without a numeral, or something that legacy generations lack (`Program.Exceeds`).

## Key results

- `Expr.reports`, `Stmt.reports`, `Glsl.programReports`: what the printer finds
- `printM_refuses_iff`: what it refuses of a program without malformed nodes
-/

namespace ShaderGen

open Glsl

/-! ### What a target cannot express -/

/-- An unsigned integer, or a vector of them. -/
def Ty.IsUnsigned (ty : Ty) : Prop :=
  ty.shape = .scalar .uint ∨ ∃ size, ty.shape = .vector .uint size

namespace Program

/-- A declaration is one of the globals of a program, or stands somewhere in a function. -/
inductive Declares (p : Program) : Decl → Prop where
  | global {d : Decl} (h : .global d ∈ p.elements) : Declares p d
  | inside {depth : Nat} {d : Decl} (h : p.HoldsAt depth (.stmt (.decl d))) : Declares p d

/-- A program spells a type out. -/
inductive Spells (p : Program) : Ty → Prop where
  | decl {d : Decl} (h : p.Declares d) : Spells p d.ty
  | param {f : Function} {x : Param} (hf : .function f ∈ p.elements) (hx : x ∈ f.params) :
    Spells p x.ty
  | result {f : Function} (hf : .function f ∈ p.elements) : Spells p f.result
  | construct {depth : Nat} {ty : Ty} {args : List Expr}
    (h : p.HoldsAt depth (.expr (.construct ty args))) : Spells p ty

/-- A program holds something that a generation, legacy or not, cannot express. -/
inductive Exceeds (legacy : Bool) (p : Program) : Unsupported → Prop where
  | nonFinite {depth : Nat} {ty : Ty} {v : Binary64}
    (h : p.HoldsAt depth (.expr (.literal ty (.float v)))) (hv : v.isFinite = false) :
    Exceeds legacy p (.nonFiniteLiteral v)
  | unsignedType {ty : Ty} (hlegacy : legacy = true) (h : p.Spells ty) (hty : ty.IsUnsigned) :
    Exceeds legacy p .unsignedType
  | unsignedLiteral {depth : Nat} {ty : Ty} {n : Nat} (hlegacy : legacy = true)
    (h : p.HoldsAt depth (.expr (.literal ty (.uint n)))) : Exceeds legacy p .unsignedLiteral
  | fragmentOutput {d : Decl} (hlegacy : legacy = true) (hstage : p.stage = .fragment)
    (h : p.Declares d) (hd : d.storage = .output) : Exceeds legacy p .fragmentOutput

end Program

/-- Nothing that is left of a malformed program stands at a node. -/
structure Node.Printable (n : Node) : Prop where
  size : ∀ ty which, n = .expr (.builtin ty which) → which ≠ .width ∧ which ≠ .height
  mask : ∀ ty base mask, n = .expr (.swizzle ty base mask) → mask.PicksOnly
  loop : ∀ init cond step body, n = .stmt (.forLoop (some init) cond step body) →
    (∃ d, init = .decl d) ∨ ∃ e, init = .expr e

/-! ### Reporting one of several faults -/

/-- The first fault of a list is that of its head, or of the rest. -/
theorem findSome?_cons_orElse {α β : Type} (f : α → Option β) (a : α) (as : List α) :
    (a :: as).findSome? f = (f a <|> as.findSome? f) := by
  rw [List.findSome?_cons]
  cases f a <;> rfl

/-- What is reported is among some faults, and something is if there are any. -/
structure Reports (S : Fault → Prop) (o : Option Fault) : Prop where
  sound : ∀ fault, o = some fault → S fault
  complete : o = none → ∀ fault, ¬ S fault

namespace Reports

variable {α : Type} {S T : Fault → Prop} {a b : Option Fault} {R : α → Fault → Prop}
  {f : α → Option Fault}

/-- A fault reports itself. -/
theorem self (o : Option Fault) : Reports (o = some ·) o :=
  ⟨fun _ h => h, fun h _ h' => absurd (h.symm.trans h') nofun⟩

/-- Where nothing is at fault, nothing is reported. -/
theorem nothing (h : ∀ fault, ¬ S fault) : Reports S none := ⟨nofun, fun _ => h⟩

/-- A fault that is there is reported. -/
theorem found {fault : Fault} (h : S fault) : Reports S (some fault) :=
  ⟨fun _ h' => Option.some.inj h' ▸ h, nofun⟩

/-- What is reported may be said in other words. -/
theorem congr (h : Reports S a) (hST : ∀ fault, S fault ↔ T fault) : Reports T a where
  sound fault ha := (hST fault).mp (h.sound fault ha)
  complete ha fault hT := h.complete ha fault ((hST fault).mpr hT)

/-- The first of two reports is of one of them. -/
theorem orElse (ha : Reports S a) (hb : Reports T b) :
    Reports (fun fault => S fault ∨ T fault) (a <|> b) := by
  cases a with
  | none => exact hb.congr fun fault => (or_iff_right (ha.complete rfl fault)).symm
  | some fault => exact ⟨fun _ h => .inl (ha.sound _ h), nofun⟩

/-- The first fault in a list is one of a member. -/
theorem findSome? {as : List α} (h : ∀ a ∈ as, Reports (R a) (f a)) :
    Reports (fun fault => ∃ a ∈ as, R a fault) (as.findSome? f) where
  sound fault hsome := by
    obtain ⟨a, ha, hfa⟩ := List.exists_of_findSome?_eq_some hsome
    exact ⟨a, ha, (h a ha).sound fault hfa⟩
  complete hnone fault := by
    rintro ⟨a, ha, hR⟩
    exact (h a ha).complete (List.findSome?_eq_none_iff.mp hnone a ha) fault hR

/-- A fault of an optional part is one of the part. -/
theorem bind {o : Option α} (h : ∀ a ∈ o, Reports (R a) (f a)) :
    Reports (fun fault => ∃ a ∈ o, R a fault) (o.bind f) := by
  cases o with
  | none => exact .nothing (by simp)
  | some a => exact (h a rfl).congr (by simp)

end Reports

/-! ### Nodes -/

/-- What stands in the way of an expression itself. -/
def Expr.ownObstacle? (legacy : Bool) : Expr → Option Fault
  | .literal _ value => value.obstacle? legacy
  | .builtin _ which => which.obstacle?
  | .swizzle _ _ mask => mask.obstacle?
  | .construct ty _ => ty.obstacle? legacy
  | _ => none

/-- What the printer refuses of a declaration, its initial value left out. -/
def Decl.Refused (d : Dialect) (decl : Decl) (fault : Fault) : Prop :=
  d.hasStorage decl.storage = false ∧ fault = .unsupported .fragmentOutput ∨
    decl.ty.obstacle? d.legacy = some fault

/-- What the printer refuses of a statement itself. -/
def Stmt.Refused (d : Dialect) : Stmt → Fault → Prop
  | .decl declared, fault => declared.Refused d fault
  | .forLoop init _ _ _, fault =>
    (∃ s ∈ init, s.isLoopInitializer = false) ∧ fault = .malformed .loopInitializer
  | _, _ => False

namespace Node

/-- What the printer refuses of a node, the nodes below it left out. -/
def Refused (d : Dialect) : Node → Fault → Prop
  | .expr e, fault => e.ownObstacle? d.legacy = some fault
  | .stmt s, fault => s.Refused d fault

/-- What the printer refuses of the nodes at and below a node. -/
def RefusedBelow (d : Dialect) (n : Node) (fault : Fault) : Prop :=
  ∃ levels m, n.Holds levels m ∧ m.Refused d fault

variable {d : Dialect} {fault : Fault}

/-- What may be refused in an expression is in its root or below. -/
theorem refusedBelow_expr {e : Expr} : (expr e).RefusedBelow d fault ↔
    e.ownObstacle? d.legacy = some fault ∨ ∃ c ∈ e.children, (expr c).RefusedBelow d fault := by
  unfold RefusedBelow
  rw [exists_holds_iff]
  simp only [children, List.mem_map, exists_exists_and_eq_and, Refused]

/-- What may be refused in a statement is in it, in its expressions or below. -/
theorem refusedBelow_stmt {s : Stmt} : (stmt s).RefusedBelow d fault ↔
    s.Refused d fault ∨ (∃ e ∈ s.own, (expr e).RefusedBelow d fault) ∨
      ∃ t ∈ s.nested, (stmt t).RefusedBelow d fault := by
  unfold RefusedBelow
  rw [exists_holds_iff]
  simp only [children, List.mem_append, List.mem_map, or_and_right, exists_or,
    exists_exists_and_eq_and, Refused]

end Node

namespace Expr

/-- The obstacle of a list of expressions is the first among them. -/
theorem listObstacle?_eq_findSome? (legacy : Bool) (es : List Expr) :
    listObstacle? legacy es = es.findSome? (obstacle? legacy) := by
  induction es with
  | nil => rfl
  | cons e es ih =>
    rw [listObstacle?, ih, findSome?_cons_orElse]

/-- The printer looks at an expression itself before what is inside, or after it. -/
theorem obstacle?_eq (legacy : Bool) (e : Expr) :
    e.obstacle? legacy = (e.ownObstacle? legacy <|> e.children.findSome? (obstacle? legacy)) ∨
      e.obstacle? legacy = (e.children.findSome? (obstacle? legacy) <|> e.ownObstacle? legacy) := by
  cases e with
  | swizzle => exact .inr (by simp [obstacle?, ownObstacle?, children])
  | _ =>
    refine .inl ?_
    simp [obstacle?, ownObstacle?, children, listObstacle?_eq_findSome?, findSome?_cons_orElse]

/-- The printer reports what it refuses of the nodes of an expression. -/
theorem reports (d : Dialect) (e : Expr) :
    Reports ((Node.expr e).RefusedBelow d) (e.obstacle? d.legacy) := by
  induction e using induction_children with
  | h e ih =>
    have hown := Reports.self (e.ownObstacle? d.legacy)
    have hchildren := Reports.findSome? ih
    -- The order matters to which fault is reported, but not to which there are.
    rcases obstacle?_eq d.legacy e with h | h <;> rw [h]
    · exact (hown.orElse hchildren).congr fun _ => Node.refusedBelow_expr.symm
    · exact (hchildren.orElse hown).congr fun _ => or_comm.trans Node.refusedBelow_expr.symm

end Expr

namespace Stmt

variable {d : Dialect}

/-- So is that of a list of statements. -/
theorem listObstacle?_eq_findSome? (d : Dialect) (ss : List Stmt) :
    listObstacle? d ss = ss.findSome? (obstacle? d) := by
  induction ss with
  | nil => rfl
  | cons s ss ih => rw [listObstacle?, ih, findSome?_cons_orElse]

/-- That of an optional statement is that of the statement. -/
theorem optionObstacle?_eq_bind (d : Dialect) (o : Option Stmt) :
    optionObstacle? d o = o.bind (obstacle? d) := by
  cases o <;> rfl

/-- That of cases is the first in their bodies. -/
theorem casesObstacle?_eq_findSome? (d : Dialect) (cases : List Case) :
    casesObstacle? d cases = (cases.flatMap Case.body).findSome? (obstacle? d) := by
  induction cases with
  | nil => rfl
  | cons c cases ih =>
    obtain ⟨label, body⟩ := c
    rw [casesObstacle?, ih, listObstacle?_eq_findSome?, List.flatMap_cons]
    simp [Case.body]

end Stmt

/-- The printer reports what it refuses of a declaration and of its initial value. -/
theorem Decl.reports (d : Dialect) (decl : Decl) :
    Reports (fun fault => decl.Refused d fault ∨
      ∃ e ∈ decl.init, (Node.expr e).RefusedBelow d fault) (decl.obstacle? d) := by
  have hstorage : Reports (fun fault => d.hasStorage decl.storage = false ∧
      fault = .unsupported .fragmentOutput)
      (if d.hasStorage decl.storage then none else some (.unsupported .fragmentOutput)) := by
    split
    · next h => exact .nothing fun _ hfault => absurd (h.symm.trans hfault.1) nofun
    · next h => exact .found ⟨by simpa using h, rfl⟩
  have hinit := Reports.bind (o := decl.init) fun e _ => Expr.reports d e
  -- The storage is looked at first, then the declaration itself, then its initial value.
  exact (hstorage.orElse ((Reports.self _).orElse hinit)).congr fun fault => or_assoc.symm

namespace Stmt

variable {d : Dialect}

/-- The header of a `for` is refused if it starts with another statement, whatever that is. -/
theorem initReports {init : Option Stmt}
    (h : ∀ s ∈ init, Reports ((Node.stmt s).RefusedBelow d) (s.obstacle? d)) :
    Reports (fun fault =>
      ((∃ s ∈ init, s.isLoopInitializer = false) ∧ fault = .malformed .loopInitializer) ∨
        ∃ s ∈ init, (Node.stmt s).RefusedBelow d fault) (initObstacle? d init) := by
  cases init with
  | none => exact .nothing (by simp)
  | some s =>
    cases s with
    | decl | expr => exact (h _ rfl).congr fun fault => by simp [isLoopInitializer]
    -- Another statement is not even looked into.
    | _ => exact .found (.inl ⟨⟨_, rfl, rfl⟩, rfl⟩)

/-- The printer reports what it refuses of the nodes of a statement. -/
theorem reports (d : Dialect) (s : Stmt) :
    Reports ((Node.stmt s).RefusedBelow d) (s.obstacle? d) := by
  induction s using induction_nested with
  | h s ih =>
    have hexpr := Expr.reports d
    have hoption (o : Option Expr) := Reports.bind (o := o) fun e _ => Expr.reports d e
    -- What is refused below a statement is told apart by where it stands: the statement itself, an
    -- expression of its own, or a statement nested in it.
    refine Reports.congr (S := fun fault => s.Refused d fault ∨
      (∃ e ∈ s.own, (Node.expr e).RefusedBelow d fault) ∨
        ∃ t ∈ s.nested, (Node.stmt t).RefusedBelow d fault) ?_
      fun fault => Node.refusedBelow_stmt.symm
    cases s with
    | block body =>
      have h := Reports.findSome? ih
      rw [obstacle?, listObstacle?_eq_findSome?]
      exact h.congr fun fault => by simp [Refused, own, nested]
    | decl declared =>
      exact (Decl.reports d declared).congr fun fault => by simp [Refused, own, nested]
    | ifElse cond thenBranch elseBranch =>
      have helse := Reports.bind fun s (hs : s ∈ elseBranch) =>
        ih s (by simpa [nested] using .inr hs)
      rw [obstacle?, optionObstacle?_eq_bind]
      exact ((hexpr cond).orElse ((ih thenBranch (by simp [nested])).orElse helse)).congr
        fun fault => by simp [Refused, own, nested]
    | forLoop init cond step body =>
      -- The text starts with the header, whose first statement is nested like the body.
      have hinit := initReports fun s (hs : s ∈ init) => ih s (by simpa [nested] using .inl hs)
      have hrest := (hoption cond).orElse ((hoption step).orElse (ih body (by simp [nested])))
      refine (hinit.orElse hrest).congr fun fault => ?_
      simp [Refused, own, nested, or_and_right, exists_or, or_assoc, or_left_comm]
    | whileLoop cond body =>
      exact ((hexpr cond).orElse (ih body (by simp [nested]))).congr
        fun fault => by simp [Refused, own, nested]
    | doWhile body cond =>
      exact ((ih body (by simp [nested])).orElse (hexpr cond)).congr
        fun fault => by simp [Refused, own, nested, or_comm]
    | switchOn value cases =>
      have h := Reports.findSome? ih
      rw [obstacle?, casesObstacle?_eq_findSome?]
      exact ((hexpr value).orElse h).congr fun fault => by simp [Refused, own, nested]
    | expr e => exact (hexpr e).congr fun fault => by simp [Refused, own, nested]
    | returnWith value => exact (hoption value).congr fun fault => by simp [Refused, own, nested]
    | _ => exact .nothing fun fault => by simp [Refused, own, nested]

end Stmt

/-! ### Programs -/

/-- What the printer refuses of an element, the nodes in it left out. -/
def Element.Refused (d : Dialect) : Element → Fault → Prop
  | .global decl, fault => decl.Refused d fault
  | .function f, fault =>
    f.result.obstacle? d.legacy = some fault ∨ ∃ x ∈ f.params, x.ty.obstacle? d.legacy = some fault
  | .layout _, _ => False

/-- The printer reports what it refuses of an element and of the nodes in it. -/
theorem Element.reports (d : Dialect) (el : Element) :
    Reports (fun fault => el.Refused d fault ∨ ∃ r ∈ el.roots, r.RefusedBelow d fault)
      (el.obstacle? d) := by
  cases el with
  | global decl => exact (Decl.reports d decl).congr fun fault => by simp [Refused, roots]
  | function f =>
    -- The signature comes before the body.
    have hparams := Reports.findSome? fun x (_ : x ∈ f.params) =>
      Reports.self (x.ty.obstacle? d.legacy)
    have hbody := Reports.findSome? fun s (_ : s ∈ f.body) => Stmt.reports d s
    rw [obstacle?, Function.obstacle?, Stmt.listObstacle?_eq_findSome?]
    exact ((Reports.self _).orElse (hparams.orElse hbody)).congr
      fun fault => by simp [Refused, roots, or_assoc]
  | layout l => exact .nothing (by simp [Refused, roots])

/-- The printer looks at what stands in front of a program as it does at the program. -/
theorem Glsl.programObstacle?_eq (profile : Profile) (s : Scratch) (p : Program) :
    programObstacle? profile s p =
      (s.printed p).elements.findSome? (Element.obstacle? (.ofProfile profile p.stage)) := by
  -- The origin is not declared as an element, and it is never refused.
  have hglobals (d : Dialect) : s.globals.findSome? (AddedGlobal.obstacle? d) =
      (s.globals.filterMap AddedGlobal.element?).findSome? (Element.obstacle? d) := by
    induction s.globals with
    | nil => rfl
    | cons g gs ih =>
      rw [findSome?_cons_orElse, ih]
      cases g with
      | declared decl => exact (findSome?_cons_orElse (Element.obstacle? d) (.global decl) _).symm
      | upperLeftOrigin => rfl
  rw [programObstacle?, hglobals]
  simp [Scratch.printed, Scratch.preamble, List.findSome?_map, Function.comp_def,
    Element.obstacle?]

/-- What the printer refuses of a program. -/
def Program.Refused (d : Dialect) (p : Program) (fault : Fault) : Prop :=
  (∃ el ∈ p.elements, el.Refused d fault) ∨ ∃ depth n, p.HoldsAt depth n ∧ n.Refused d fault

/-- The printer reports what it refuses of a program and of what stands in front of it. -/
theorem Glsl.programReports (profile : Profile) (s : Scratch) (p : Program) :
    Reports ((s.printed p).Refused (.ofProfile profile p.stage))
      (programObstacle? profile s p) := by
  -- Faults of the elements themselves are told apart from those of the nodes in them.
  rw [programObstacle?_eq]
  refine (Reports.findSome? fun el _ => Element.reports _ el).congr fun fault => ?_
  simp only [and_or_left, exists_or]
  refine or_congr_right ⟨?_, ?_⟩
  · rintro ⟨el, hel, r, hr, levels, n, hn, hrefused⟩
    exact ⟨levels + 1, n, .intro hel hr hn, hrefused⟩
  · rintro ⟨_, n, ⟨hel, hr, hn⟩, hrefused⟩
    exact ⟨_, hel, _, hr, _, n, hn, hrefused⟩

/-! ### What is refused is beyond the target -/

section

variable {legacy : Bool} {fault : Fault}

/-- A type is refused if it is unsigned, in a legacy dialect. -/
theorem Ty.obstacle?_eq_some_iff {ty : Ty} :
    ty.obstacle? legacy = some fault ↔
      legacy = true ∧ ty.IsUnsigned ∧ fault = .unsupported .unsignedType := by
  unfold obstacle? IsUnsigned
  split
  · next h => cases legacy <;> simp [h, eq_comm]
  · next h => cases legacy <;> simp [h, eq_comm]
  · next hscalar hvector =>
    exact iff_of_false nofun fun h => h.2.1.elim hscalar fun ⟨size, hty⟩ => hvector size hty

/-- A literal is refused if it is not finite, or unsigned in a legacy dialect. -/
theorem Literal.obstacle?_eq_some_iff {value : Literal} :
    value.obstacle? legacy = some fault ↔
      (∃ v, value = .float v ∧ v.isFinite = false ∧ fault = .unsupported (.nonFiniteLiteral v)) ∨
        ∃ n, value = .uint n ∧ legacy = true ∧ fault = .unsupported .unsignedLiteral := by
  cases value with
  | float v => cases hv : v.isFinite <;> simp [obstacle?, hv, eq_comm (b := fault)]
  | uint n => cases legacy <;> simp [obstacle?, eq_comm (b := fault)]
  | int | bool => simp [obstacle?]

/-- An output of a fragment program has no storage in a legacy dialect. -/
theorem Glsl.Dialect.hasStorage_eq_false_iff {d : Dialect} {storage : Storage} :
    d.hasStorage storage = false ↔ d.legacy = true ∧ d.stage = .fragment ∧ storage = .output := by
  simp [hasStorage, and_assoc]

end

section

variable {p : Program} {d : Dialect} {fault : Fault}

/-- Of a declaration, the printer refuses what the generation cannot express. -/
theorem exceeds_of_decl {decl : Decl} (hstage : d.stage = p.stage) (hdecl : p.Declares decl)
    (h : decl.Refused d fault) :
    ∃ cause, fault = .unsupported cause ∧ p.Exceeds d.legacy cause := by
  rcases h with ⟨hstorage, rfl⟩ | hty
  · obtain ⟨hlegacy, hfragment, houtput⟩ := Dialect.hasStorage_eq_false_iff.mp hstorage
    exact ⟨_, rfl, .fragmentOutput hlegacy (hstage.symm.trans hfragment) hdecl houtput⟩
  · obtain ⟨hlegacy, hunsigned, rfl⟩ := Ty.obstacle?_eq_some_iff.mp hty
    exact ⟨_, rfl, .unsignedType hlegacy (.decl hdecl) hunsigned⟩

/-- The same of a node, if nothing malformed stands there. -/
theorem exceeds_of_node {depth : Nat} {n : Node} (hstage : d.stage = p.stage)
    (hn : p.HoldsAt depth n) (hprintable : n.Printable) (h : n.Refused d fault) :
    ∃ cause, fault = .unsupported cause ∧ p.Exceeds d.legacy cause := by
  -- Sizes, literal masks and headers of loops are refused as malformed, if they are at all.
  cases n with
  | expr e =>
    cases e with
    -- A literal is refused for its value, or for its type on a legacy target.
    | literal ty value =>
      obtain ⟨v, rfl, hv, rfl⟩ | ⟨n, rfl, hlegacy, rfl⟩ := Literal.obstacle?_eq_some_iff.mp h
      · exact ⟨_, rfl, .nonFinite hn hv⟩
      · exact ⟨_, rfl, .unsignedLiteral hlegacy hn⟩
    | builtin ty which =>
      obtain ⟨hwidth, hheight⟩ := hprintable.size ty which rfl
      cases which with
      | width => exact absurd rfl hwidth
      | height => exact absurd rfl hheight
      | _ => cases h
    -- A mask without literals, which is what can be printed, has nothing to refuse.
    | swizzle ty base mask =>
      have hmask := Mask.any_isLiteral_eq_false_iff.mpr (hprintable.mask ty base mask rfl)
      rw [Node.Refused, Expr.ownObstacle?, Mask.obstacle?, hmask] at h
      cases h
    | construct ty args =>
      obtain ⟨hlegacy, hunsigned, rfl⟩ := Ty.obstacle?_eq_some_iff.mp h
      exact ⟨_, rfl, .unsignedType hlegacy (.construct hn) hunsigned⟩
    | _ => cases h
  | stmt s =>
    cases s with
    | decl declared => exact exceeds_of_decl hstage (.inside hn) h
    -- The first part of a loop is refused only where it is none of the printable ones.
    | forLoop init cond step body =>
      obtain ⟨⟨s, hs, hinit⟩, -⟩ := h
      obtain rfl := Option.mem_def.mp hs
      have hplain := Stmt.isLoopInitializer_iff.mpr (hprintable.loop s cond step body rfl)
      cases hinit.symm.trans hplain
    | _ => exact absurd h id

/-- Of a program without malformed nodes, the printer refuses what the generation cannot
    express. -/
theorem exceeds_of_refused (hstage : d.stage = p.stage)
    (hprintable : ∀ depth n, p.HoldsAt depth n → n.Printable) (h : p.Refused d fault) :
    ∃ cause, fault = .unsupported cause ∧ p.Exceeds d.legacy cause := by
  rcases h with ⟨el, hel, hrefused⟩ | ⟨depth, n, hn, hrefused⟩
  · cases el with
    | global decl => exact exceeds_of_decl hstage (.global hel) hrefused
    | function f =>
      -- A function spells the types of its result and of its parameters.
      have hspells {ty : Ty} (hty : p.Spells ty) (h : ty.obstacle? d.legacy = some fault) :
          ∃ cause, fault = .unsupported cause ∧ p.Exceeds d.legacy cause := by
        obtain ⟨hlegacy, hunsigned, rfl⟩ := Ty.obstacle?_eq_some_iff.mp h
        exact ⟨_, rfl, .unsignedType hlegacy hty hunsigned⟩
      rcases hrefused with hresult | ⟨x, hx, hparam⟩
      · exact hspells (.result hel) hresult
      · exact hspells (.param hel hx) hparam
    | layout l => exact absurd hrefused id
  · exact exceeds_of_node hstage hn (hprintable depth n hn) hrefused

/-- What is refused of a declaration is refused of the program, wherever it is declared. -/
theorem refused_of_declares {decl : Decl} (hdecl : p.Declares decl) (h : decl.Refused d fault) :
    p.Refused d fault := by
  cases hdecl with
  | global hel => exact .inl ⟨_, hel, h⟩
  | inside hn => exact .inr ⟨_, _, hn, h⟩

/-- The printer refuses whatever the generation cannot express. -/
theorem refused_of_exceeds {cause : Unsupported} (hstage : d.stage = p.stage)
    (h : p.Exceeds d.legacy cause) : p.Refused d (.unsupported cause) := by
  cases h with
  | @nonFinite _ _ v hn hv =>
    have hvalue : (Literal.float v).obstacle? d.legacy =
        some (.unsupported (.nonFiniteLiteral v)) :=
      Literal.obstacle?_eq_some_iff.mpr (.inl ⟨v, rfl, hv, rfl⟩)
    exact .inr ⟨_, _, hn, hvalue⟩
  | @unsignedLiteral _ _ n hlegacy hn =>
    have hvalue : (Literal.uint n).obstacle? d.legacy = some (.unsupported .unsignedLiteral) :=
      Literal.obstacle?_eq_some_iff.mpr (.inr ⟨n, rfl, hlegacy, rfl⟩)
    exact .inr ⟨_, _, hn, hvalue⟩
  | fragmentOutput hlegacy hfragment hdecl houtput =>
    refine refused_of_declares hdecl (.inl ⟨?_, rfl⟩)
    exact Dialect.hasStorage_eq_false_iff.mpr ⟨hlegacy, hstage.trans hfragment, houtput⟩
  -- An unsigned type is refused wherever it is spelled.
  | unsignedType hlegacy hspells hunsigned =>
    have hty := Ty.obstacle?_eq_some_iff.mpr ⟨hlegacy, hunsigned, rfl⟩
    cases hspells with
    | decl hdecl => exact refused_of_declares hdecl (.inr hty)
    | param hf hx => exact .inl ⟨_, hf, .inr ⟨_, hx, hty⟩⟩
    | result hf => exact .inl ⟨_, hf, .inl hty⟩
    | construct hn => exact .inr ⟨_, _, hn, hty⟩

end

/-- Of a program without malformed nodes, the printer refuses what the generation of the target
    cannot express, be it in the program or in front of it, and nothing else. The error says so,
    and names the profile. -/
theorem printM_refuses_iff (profile : Profile) {p : Program} {s : Scratch}
    (hprintable : ∀ depth n, (s.printed p).HoldsAt depth n → n.Printable) :
    ((∃ fault, ((printM profile p).run.run s).1 = .error fault) ↔
      ∃ cause, (s.printed p).Exceeds profile.isLegacy cause) ∧
    ∀ fault, ((printM profile p).run.run s).1 = .error fault →
      ∃ cause, fault.toError profile = .unsupported profile.name cause ∧
        (s.printed p).Exceeds profile.isLegacy cause := by
  have hreports := programReports profile s p
  -- The only fault in the answer is the one that was found.
  have hexceeds (fault : Fault) (h : ((printM profile p).run.run s).1 = .error fault) :
      ∃ cause, fault = .unsupported cause ∧ (s.printed p).Exceeds profile.isLegacy cause := by
    rw [run_printM] at h
    cases hobstacle : programObstacle? profile s p with
    | none => exact absurd (hobstacle ▸ h) nofun
    | some found =>
      obtain rfl : found = fault := Except.error.inj (hobstacle ▸ h)
      exact exceeds_of_refused rfl hprintable (hreports.sound _ hobstacle)
  refine ⟨⟨?_, ?_⟩, fun fault h => ?_⟩
  · rintro ⟨fault, h⟩
    obtain ⟨cause, -, hcause⟩ := hexceeds fault h
    exact ⟨cause, hcause⟩
  · rintro ⟨cause, hcause⟩
    rw [run_printM]
    cases hobstacle : programObstacle? profile s p with
    | none => exact absurd (refused_of_exceeds rfl hcause) (hreports.complete hobstacle _)
    | some found => exact ⟨found, rfl⟩
  · obtain ⟨cause, rfl, hcause⟩ := hexceeds fault h
    exact ⟨cause, rfl, hcause⟩

/-- A legacy target refuses an output in front of a program, before an unsigned number inside it;
    another target refuses nothing. -/
theorem legacy_target_refuses_output :
    let old : Profile := { name := "old", generation := .v110 }
    let s : Scratch := { globals := [.declared (.uninitialized .output "color" (.vec 4))] }
    let p : Program := ⟨.fragment, [.function ⟨"one", .uint, [], [.returnWith (some (.uint 1))]⟩]⟩
    (∀ depth n, (s.printed p).HoldsAt depth n → n.Printable) ∧
      ((printM old p).run.run s).1 = .error (.unsupported .fragmentOutput) ∧
      (∃ cause, (s.printed p).Exceeds true cause) ∧
      ∀ cause, ¬ (s.printed p).Exceeds false cause := by
  intro old s p
  have hprintable (depth : Nat) (n : Node) (hn : (s.printed p).HoldsAt depth n) :
      n.Printable := by
    obtain ⟨hel, hr, hn⟩ := hn
    -- The output has no initial value, and the function has one statement with a literal in it.
    obtain rfl | rfl := by
      simpa [Scratch.printed, Scratch.preamble, s, p, AddedGlobal.element?] using hel
    · exact absurd hr List.not_mem_nil
    · obtain rfl := List.mem_singleton.mp hr
      obtain _ | ⟨hc, hn⟩ := hn
      · exact ⟨nofun, nofun, nofun⟩
      · obtain rfl := List.mem_singleton.mp hc
        obtain _ | ⟨hc, -⟩ := hn
        · exact ⟨nofun, nofun, nofun⟩
        · exact absurd hc List.not_mem_nil
  have hold : ((printM old p).run.run s).1 = .error (.unsupported .fragmentOutput) := rfl
  refine ⟨hprintable, hold, ?_, fun cause hcause => ?_⟩
  · -- The same statement is used for the old profile and for the default one.
    exact (printM_refuses_iff old hprintable).1.mp ⟨_, hold⟩
  · obtain ⟨fault, hfault⟩ := (printM_refuses_iff {} hprintable).1.mpr ⟨cause, hcause⟩
    exact absurd hfault nofun

end ShaderGen
