import ShaderGen.Legalize.IntAbs
import ShaderGen.Proofs.Mirror

/-!
# What expressions refer to

A symbol is a variable or a function. An expression is bound in a scope if each symbol in it that
rules bring in is there (`Expr.Bound`); the symbols of the program itself are not looked at. What an
expression is replaced by is bound wherever the expression is, once the symbols that the rule brings
in are in scope (`Expr.Grants`).

## Key results

- `Expr.isCongruence_grants`: it is enough to look at what replaces a node
-/

namespace ShaderGen

open List (Forall₂)
open Legalize

/-- How the names start that rules bring in. -/
def synthesizedPrefixes : List String :=
  ["u_skRT", "sk_", "_invoke", "_absemulation", "minAbsHack", "fractHack", "_tmpLoopSeenOnce"]

/-- Whether a name starts like one that rules bring in. -/
def isSynthesized (name : String) : Bool :=
  synthesizedPrefixes.any fun start => start.toList.isPrefixOf name.toList

/-- What a name stands for. The helper functions for absolute values share their name, and are told
    apart by the shape of what they return. -/
inductive Symbol where
  | variable (name : String)
  | function (name : String)
  | helper (shape : Shape)
deriving DecidableEq, Repr

namespace Symbol

/-- The function of a name that returns a type. -/
def ofFunction (name : String) (result : Ty) : Symbol :=
  if name = IntAbs.helperName then .helper result.shape else .function name

/-- Whether rules brought the symbol in. -/
def isSynthesized : Symbol → Bool
  | .variable name | .function name => ShaderGen.isSynthesized name
  | .helper _ => true

/-- A function is synthesized if its name is. -/
theorem isSynthesized_ofFunction (name : String) (result : Ty) :
    (ofFunction name result).isSynthesized = ShaderGen.isSynthesized name := by
  unfold ofFunction
  split
  · next hname =>
    subst hname
    exact (show ShaderGen.isSynthesized IntAbs.helperName = true by decide).symm
  · rfl

/-- The variables of certain names. -/
def ofNames (names : List String) : List Symbol := names.map .variable

/-- No names have no symbols. -/
@[simp] theorem ofNames_nil : ofNames [] = [] := rfl

/-- The symbols of names are their variables. -/
@[simp] theorem mem_ofNames {name : String} {names : List String} :
    .variable name ∈ ofNames names ↔ name ∈ names := by
  simp [ofNames]

/-- Names in a row have their symbols in a row. -/
theorem ofNames_append (names more : List String) :
    ofNames (names ++ more) = ofNames names ++ ofNames more := List.map_append

/-- Whatever rules brought into one scope is in another one as well. -/
def Within (scope scope' : List Symbol) : Prop :=
  ∀ s ∈ scope, s.isSynthesized = true → s ∈ scope'

namespace Within

variable {scope scope' scope'' : List Symbol}

/-- A scope is within one that has its symbols. -/
theorem of_subset (h : scope ⊆ scope') : Within scope scope' := fun _ hs _ => h hs

/-- A scope is within itself. -/
theorem refl (scope : List Symbol) : Within scope scope := of_subset fun _ => id

/-- Being within goes on through scopes. -/
theorem trans (h : Within scope scope') (h' : Within scope' scope'') : Within scope scope'' :=
  fun s hs hsynthesized => h' s (h s hs hsynthesized) hsynthesized

/-- Wider scopes may both be extended. -/
theorem append {added added' : List Symbol} (h : Within scope scope')
    (hadded : Within added added') : Within (scope ++ added) (scope' ++ added') := by
  intro s hs hsynthesized
  rcases List.mem_append.mp hs with hs | hs
  · exact List.mem_append_left _ (h s hs hsynthesized)
  · exact List.mem_append_right _ (hadded s hs hsynthesized)

/-- The same symbols may be added to both. -/
theorem append_right (h : Within scope scope') (added : List Symbol) :
    Within (scope ++ added) (scope' ++ added) := h.append (refl added)

end Within

end Symbol

/-- What a global of the preamble declares. -/
def AddedGlobal.symbols : AddedGlobal → List Symbol
  | .declared d => [.variable d.name]
  | .upperLeftOrigin => []

namespace Scratch

/-- What stands in front of a program, with helpers told apart by the shapes that they were made
    for. -/
def symbols (s : Scratch) : List Symbol :=
  s.globals.flatMap AddedGlobal.symbols ++ s.helpers.map fun h => .helper h.1

variable {s : Scratch}

/-- Declaring a global keeps the symbols. -/
theorem symbols_declareGlobal (d : Decl) : s.symbols ⊆ (s.declareGlobal d).symbols := by
  unfold declareGlobal
  split
  · exact List.Subset.refl _
  · refine List.append_subset.mpr ⟨?_, List.subset_append_right _ _⟩
    show s.globals.flatMap _ ⊆ (s.globals ++ [_]).flatMap _ ++ _
    rw [List.flatMap_append]
    exact List.subset_append_of_subset_left _ (List.subset_append_left _ _)

/-- A global is declared, whether it was before or not. -/
theorem mem_symbols_declareGlobal (d : Decl) : .variable d.name ∈ (s.declareGlobal d).symbols := by
  unfold declareGlobal
  split
  · next hany =>
    obtain ⟨g, hg, hname⟩ := List.any_eq_true.mp hany
    refine List.mem_append_left _ (List.mem_flatMap.mpr ⟨g, hg, ?_⟩)
    -- The name was declared before, by a global of that name.
    cases g with
    | declared d' =>
      have hsame : d'.name = d.name := by simpa [AddedGlobal.declares] using hname
      simp [AddedGlobal.symbols, hsame]
    | upperLeftOrigin => cases hname
  · have hlast : AddedGlobal.declared d ∈ s.globals ++ [.declared d] :=
      List.mem_append_right _ (List.mem_singleton_self _)
    exact List.mem_append_left _ (List.mem_flatMap.mpr ⟨_, hlast, List.mem_singleton_self _⟩)

/-- Adding a helper keeps the symbols. -/
theorem symbols_addHelper (shape : Shape) (helper : Function) :
    s.symbols ⊆ (s.addHelper shape helper).symbols := by
  unfold addHelper
  split
  · exact List.Subset.refl _
  · refine List.append_subset.mpr ⟨List.subset_append_left _ _, ?_⟩
    show s.helpers.map _ ⊆ _ ++ (s.helpers ++ [_]).map _
    rw [List.map_append]
    exact List.subset_append_of_subset_right _ (List.subset_append_left _ _)

/-- The helper is among the symbols after it is added. -/
theorem mem_symbols_addHelper (shape : Shape) (helper : Function) :
    .helper shape ∈ (s.addHelper shape helper).symbols := by
  unfold addHelper
  split
  · -- If there is a helper of the shape, it is found; else the new one comes last.
    next hany =>
    obtain ⟨h, hmem, hshape⟩ := List.any_eq_true.mp hany
    refine List.mem_append_right _ (List.mem_map.mpr ⟨h, hmem, ?_⟩)
    rw [beq_iff_eq.mp hshape]
  · have hlast : (shape, helper) ∈ s.helpers ++ [(shape, helper)] :=
      List.mem_append_right _ (List.mem_singleton_self _)
    exact List.mem_append_right _ (List.mem_map.mpr ⟨_, hlast, rfl⟩)

end Scratch

namespace Expr

/-- What a node refers to. -/
def symbol? : Expr → Option Symbol
  | .var _ name => some (.variable name)
  | .call ty (.user name) _ => some (.ofFunction name ty)
  | _ => none

/-- Whether the node refers to nothing that rules brought in, or to something in scope. -/
def isBound (scope : List Symbol) (e : Expr) : Bool :=
  e.symbol?.all fun s => !s.isSynthesized || scope.contains s

/-- Whatever an expression refers to that rules brought in is in scope. -/
def Bound (scope : List Symbol) (e : Expr) : Prop := e.Every (isBound scope)

section

variable {scope scope' : List Symbol} {e : Expr}

/-- A node is bound if its symbol is in scope or of the source. -/
theorem isBound_iff : e.isBound scope = true ↔
    ∀ s ∈ e.symbol?, s.isSynthesized = true → s ∈ scope := by
  rw [isBound]
  cases e.symbol? with
  | none => simp
  | some s => cases h : s.isSynthesized <;> simp [h]

/-- A tree is bound if its root is and its subtrees are. -/
theorem bound_iff : e.Bound scope ↔
    (∀ s ∈ e.symbol?, s.isSynthesized = true → s ∈ scope) ∧ ∀ c ∈ e.children, c.Bound scope := by
  rw [Bound, every_iff, isBound_iff]
  rfl

/-- More symbols may be in scope. -/
theorem Bound.mono (h : e.Bound scope) (hscope : Symbol.Within scope scope') : e.Bound scope' :=
  h.imp fun _ hn => isBound_iff.mpr fun s hs hsynthesized =>
    hscope s (isBound_iff.mp hn s hs hsynthesized) hsynthesized

/-- An expression without symbols that rules brought in is bound anywhere. -/
theorem bound_of_unsynthesized
    (h : e.any (fun n => n.symbol?.any Symbol.isSynthesized) = false) : e.Bound scope := by
  refine any_mono (fun n hn => ?_) h
  -- Only a synthesized name has to be in scope, and none is mentioned.
  cases hs : n.symbol? with
  | none => simp [isBound, hs] at hn
  | some s =>
    rw [Option.any_some]
    rw [isBound, hs, Option.all_some] at hn
    cases hsynthesized : s.isSynthesized with
    | true => rfl
    | false => simp [hsynthesized] at hn

end

/-! ### Node by node -/

section

variable {scope : List Symbol} {ty : Ty} {a b c : Expr} {args : List Expr}

attribute [local simp] symbol? children

@[simp] theorem bound_literal (value : Literal) : (literal ty value).Bound scope :=
  bound_iff.mpr ⟨nofun, nofun⟩

@[simp] theorem bound_builtin (which : Builtin) : (builtin ty which).Bound scope :=
  bound_iff.mpr ⟨nofun, nofun⟩

/-- A variable in scope is bound. -/
theorem bound_var {name : String} (h : .variable name ∈ scope) : (var ty name).Bound scope :=
  bound_iff.mpr ⟨fun _ hs _ => Option.some.inj hs ▸ h, nofun⟩

@[simp] theorem bound_unary (op : UnaryOp) : (unary ty op a).Bound scope ↔ a.Bound scope :=
  bound_iff.trans (by simp)

@[simp] theorem bound_binary (op : BinaryOp) :
    (binary ty op a b).Bound scope ↔ a.Bound scope ∧ b.Bound scope :=
  bound_iff.trans (by simp)

@[simp] theorem bound_ternary :
    (ternary ty a b c).Bound scope ↔ a.Bound scope ∧ b.Bound scope ∧ c.Bound scope :=
  bound_iff.trans (by simp)

@[simp] theorem bound_intrinsic (f : Intrinsic) :
    (call ty (.intrinsic f) args).Bound scope ↔ ∀ arg ∈ args, arg.Bound scope :=
  bound_iff.trans (by simp)

/-- A call of a function in scope is bound if its arguments are. -/
theorem bound_userCall {name : String} (h : Symbol.ofFunction name ty ∈ scope)
    (hargs : ∀ arg ∈ args, arg.Bound scope) : (call ty (.user name) args).Bound scope :=
  bound_iff.mpr ⟨fun _ hs _ => Option.some.inj hs ▸ h, hargs⟩

@[simp] theorem bound_swizzle (mask : Mask) : (swizzle ty a mask).Bound scope ↔ a.Bound scope :=
  bound_iff.trans (by simp)

@[simp] theorem bound_index : (index ty a b).Bound scope ↔ a.Bound scope ∧ b.Bound scope :=
  bound_iff.trans (by simp)

@[simp] theorem bound_construct :
    (construct ty args).Bound scope ↔ ∀ arg ∈ args, arg.Bound scope :=
  bound_iff.trans (by simp)

@[simp] theorem bound_group : (group ty a).Bound scope ↔ a.Bound scope :=
  bound_iff.trans (by simp)

/-- The type of a node tells what it refers to only where it calls a function of the program. -/
theorem bound_withTy (h : a.Bound scope) (ha : ∀ ty name args, a ≠ .call ty (.user name) args) :
    (a.withTy ty).Bound scope := by
  -- The name that a node refers to is not part of its type.
  have hsymbol : (a.withTy ty).symbol? = a.symbol? := by
    cases a with
    | call ty callee args =>
      cases callee with
      | intrinsic f => rfl
      | user name => exact absurd rfl (ha ty name args)
    | _ => rfl
  have hchildren : (a.withTy ty).children = a.children := by cases a <;> rfl
  rw [bound_iff, hsymbol, hchildren]
  exact bound_iff.mp h

/-! The same for what builders put together. -/

@[simp] theorem bound_float (value : Binary64) : (float value).Bound scope := bound_literal _

@[simp] theorem bound_int (value : Int) : (int value).Bound scope := bound_literal _

@[simp] theorem bound_bool (value : Bool) : (bool value).Bound scope := bound_literal _

/-- The same for a variable as the rules write it. -/
theorem bound_ofVar {name : String} (h : .variable name ∈ scope) : (ofVar name ty).Bound scope :=
  bound_var h

@[simp] theorem bound_ofUnary (op : UnaryOp) : (ofUnary op a).Bound scope ↔ a.Bound scope :=
  bound_unary op

@[simp] theorem bound_ofBinary (op : BinaryOp) :
    (ofBinary op a b).Bound scope ↔ a.Bound scope ∧ b.Bound scope := bound_binary op

@[simp] theorem bound_assign : (assign a b).Bound scope ↔ a.Bound scope ∧ b.Bound scope :=
  bound_binary _

@[simp] theorem bound_ofTernary :
    (ofTernary a b c).Bound scope ↔ a.Bound scope ∧ b.Bound scope ∧ c.Bound scope := bound_ternary

@[simp] theorem bound_ofCall (f : Intrinsic) :
    (ofCall f args).Bound scope ↔ ∀ arg ∈ args, arg.Bound scope := bound_intrinsic f

@[simp] theorem bound_ofSwizzle (mask : Mask) : (ofSwizzle a mask).Bound scope ↔ a.Bound scope :=
  bound_swizzle mask

@[simp] theorem bound_ofConstruct :
    (ofConstruct ty args).Bound scope ↔ ∀ arg ∈ args, arg.Bound scope := bound_construct

@[simp] theorem bound_ofGroup : (ofGroup a).Bound scope ↔ a.Bound scope := bound_group

end

/-! ### What replaces an expression -/

/-- Where certain symbols are in scope, what replaces an expression is bound if the expression
    is. -/
def Grants (brought : List Symbol) (e e' : Expr) : Prop :=
  ∀ scope, brought ⊆ scope → e.Bound scope → e'.Bound scope

variable {brought more : List Symbol}

/-- An expression needs no more names than itself. -/
theorem Grants.refl (e : Expr) : Grants brought e e := fun _ _ => id

/-- More names may be granted. -/
theorem Grants.mono {e e' : Expr} (h : Grants brought e e') (hmore : brought ⊆ more) :
    Grants more e e' :=
  fun scope hscope => h scope (List.Subset.trans hmore hscope)

/-- A node with the same children that refers to the same. -/
theorem grants_of_same {e e' : Expr} (hsymbol : e'.symbol? = e.symbol?)
    (hchildren : e'.children = e.children) : Grants brought e e' := by
  intro scope _ he
  rw [bound_iff, hsymbol, hchildren]
  exact bound_iff.mp he

/-- A node refers to the same over other children. -/
theorem symbol?_withChildren (e : Expr) (cs : List Expr) :
    (e.withChildren cs).symbol? = e.symbol? := by
  cases e with
  | call ty callee args => cases callee <;> rfl
  | _ => unfold withChildren; split <;> simp_all [symbol?]

/-- Granting goes on through sub-expressions. -/
theorem isCongruence_grants : IsCongruence (Grants brought) where
  trans h h' scope hscope he := h' scope hscope (h scope hscope he)
  congr {e cs} hcs scope hscope he := by
    refine bound_iff.mpr ⟨?_, fun c' hc' => ?_⟩
    · rw [symbol?_withChildren]
      exact (bound_iff.mp he).1
    · obtain ⟨c, hc, hgrants⟩ := exists_related_child hcs c' hc'
      exact hgrants scope hscope ((bound_iff.mp he).2 c hc)

end Expr

end ShaderGen
