import Mathlib.Order.Filter.AtTopBot.Basic
import ShaderGen.Proofs.Glsl.Grammar

/-!
# Reading expressions from the left

A reader that goes through the tokens once, from left to right, with the next token for all of its
decisions. It reads every phrase as the phrase's tree (`readLevel_of_phrase`), so tokens have one
tree at most (`Phrase.unique`). The reader also accepts some tokens that are no phrase, such as an
assignment to a sum. Each call has less fuel than its caller, and with enough of it the result does
not depend on it (`Settles`).
-/

namespace ShaderGen

/-- Operator that a mark in front of an operand stands for. -/
def UnaryOp.before? : Glsl.Token → Option UnaryOp
  | .mark symbol =>
    [UnaryOp.neg, .not, .complement, .preIncrement, .preDecrement].find? (·.symbol == symbol)
  | _ => none

/-- Operator that a mark after an operand stands for. -/
def UnaryOp.after? : Glsl.Token → Option UnaryOp
  | .mark symbol => [UnaryOp.postIncrement, .postDecrement].find? (·.symbol == symbol)
  | _ => none

/-- All binary operators. -/
def BinaryOp.all : List BinaryOp :=
  [.add, .sub, .mul, .div, .mod, .shl, .shr, .lt, .le, .gt, .ge, .eq, .ne, .bitAnd, .bitXor,
    .bitOr, .logicalAnd, .logicalXor, .logicalOr, .assign, .addAssign, .subAssign, .mulAssign,
    .divAssign, .comma]

/-- Operator that a mark between operands stands for. -/
def BinaryOp.between? : Glsl.Token → Option BinaryOp
  | .mark symbol => all.find? (·.symbol == symbol)
  | _ => none

namespace Glsl

/-- What is built from arguments after a word. -/
def applied? : Token → Option (List Tree → Tree)
  | .word name =>
    match Shape.named? name with
    | some shape => some (.construct shape)
    | none => (callee? name).map .call
  | _ => none

/-- Reads the position of an input vertex. -/
def inPosition? : List Token → Option (Nat × List Token)
  | a :: b :: .number text :: c :: d :: e :: rest =>
    if [a, b, c, d, e] =
        [.word "gl_in", .mark "[", .mark "]", .mark ".", .word "gl_Position"] then
      (natural? text.toList).map (·, rest)
    else none
  | _ => none

/-- Reads a mask after a point. -/
def readMask : List Token → Option (Mask × List Token)
  | .word text :: rest => (mask? text).map (·, rest)
  | _ => none

/-- Reads a token. -/
def readToken (token : Token) : List Token → Option (List Token)
  | first :: rest => if first = token then some rest else none
  | [] => none

mutual
/-- Reads an expression of a level, with all that belongs to it. -/
def readLevel : Nat → Precedence → List Token → Option (Tree × List Token)
  | 0, _, _ => none
  | fuel + 1, .trailing, ts => do
    let (t, rest) ← readPrimary fuel ts
    readAfter fuel .trailing t rest
  | fuel + 1, .leading, ts =>
    match ts.head?.bind UnaryOp.before? with
    | some op => do
      let (t, rest) ← readLevel fuel .leading ts.tail
      some (.unary op t, rest)
    | none => readLevel fuel .trailing ts
  | fuel + 1, p, ts => do
    let (t, rest) ← readLevel fuel p.below ts
    readAfter fuel p t rest

/-- Reads a name, a literal, a call, a constructor or what stands in parentheses. -/
def readPrimary : Nat → List Token → Option (Tree × List Token)
  | 0, _ | _, [] => none
  | fuel + 1, first :: rest =>
    if first = .mark "(" then do
      let (t, rest) ← readLevel fuel .sequence rest
      let rest ← readToken (.mark ")") rest
      some (t, rest)
    else if rest.head? = some (.mark "(") then do
      let head ← applied? first
      readArguments fuel head [] rest.tail
    else
      match inPosition? (first :: rest) with
      | some (vertex, rest) => some (.builtin (.inPosition vertex), rest)
      | none => (atom? first).map (·, rest)

/-- Reads arguments up to the parenthesis that closes them, some having been read. -/
def readArguments : Nat → (List Tree → Tree) → List Tree → List Token →
    Option (Tree × List Token)
  | 0, _, _, _ => none
  | fuel + 1, head, done, ts =>
    if done.isEmpty && ts.head? = some (.mark ")") then some (head [], ts.tail)
    else do
      let (t, rest) ← readLevel fuel .assignment ts
      if rest.head? = some (.mark ",") then readArguments fuel head (done ++ [t]) rest.tail
      else do
        let rest ← readToken (.mark ")") rest
        some (head (done ++ [t]), rest)

/-- Reads what goes on with an expression of a level after its first operand. -/
def readAfter : Nat → Precedence → Tree → List Token → Option (Tree × List Token)
  | 0, _, _, _ => none
  | fuel + 1, .trailing, t, ts =>
    if ts.head? = some (.mark ".") then do
      let (mask, rest) ← readMask ts.tail
      readAfter fuel .trailing (.swizzle t mask) rest
    else if ts.head? = some (.mark "[") then do
      let (position, rest) ← readLevel fuel .sequence ts.tail
      let rest ← readToken (.mark "]") rest
      readAfter fuel .trailing (.index t position) rest
    else
      match ts.head?.bind UnaryOp.after? with
      | some op => readAfter fuel .trailing (.unary op t) ts.tail
      | none => some (t, ts)
  | fuel + 1, .ternary, t, ts =>
    if ts.head? = some (.mark "?") then do
      let (ifTrue, rest) ← readLevel fuel .sequence ts.tail
      let rest ← readToken (.mark ":") rest
      let (ifFalse, rest) ← readLevel fuel .assignment rest
      some (.ternary t ifTrue ifFalse, rest)
    else some (t, ts)
  | fuel + 1, p, t, ts =>
    match ts.head?.bind BinaryOp.between? with
    | some op =>
      if Precedence.ofBinary op ≠ p then some (t, ts)
      else if op.isAssignment then do
        let (right, rest) ← readLevel fuel .assignment ts.tail
        some (.binary op t right, rest)
      else do
        let (right, rest) ← readLevel fuel p.below ts.tail
        readAfter fuel p (.binary op t right) rest
    | none => some (t, ts)
end

/-! ### Reading with enough fuel -/

/-- Whether a reader gives a result with any fuel from some amount on. -/
abbrev Settles {α : Type} (reader : Nat → Option α) (result : α) : Prop :=
  ∀ᶠ fuel in Filter.atTop, reader fuel = some result

/-- A reader settles if it does so with one more unit of fuel. -/
theorem Settles.of_step {α : Type} {reader : Nat → Option α} {result : α}
    (h : ∀ᶠ fuel in Filter.atTop, reader (fuel + 1) = some result) : Settles reader result := by
  obtain ⟨n, hn⟩ := Filter.eventually_atTop.mp h
  refine Filter.eventually_atTop.mpr ⟨n + 1, fun fuel hfuel => ?_⟩
  obtain ⟨m, rfl⟩ : ∃ m, fuel = m + 1 := ⟨fuel - 1, by omega⟩
  exact hn m (by omega)

/-- A reader settles on one result at most. -/
theorem Settles.unique {α : Type} {reader : Nat → Option α} {a b : α} (ha : Settles reader a)
    (hb : Settles reader b) : a = b := by
  obtain ⟨fuel, ha, hb⟩ := (ha.and hb).exists
  rw [ha] at hb
  exact Option.some.inj hb

/-! ### What may follow a phrase -/

/-- How loose a phrase can be that a token goes on with or closes, on a scale with two steps for
    each level. A question mark goes on with what is tighter than a choice, and so does an
    assignment. Tokens without a number never follow a phrase. -/
def Token.reach? (token : Token) : Option Nat :=
  match BinaryOp.between? token with
  | some op =>
    some (if op.isAssignment then 2 * Precedence.logicalOr.rank + 1
      else 2 * (Precedence.ofBinary op).rank)
  | none =>
    if token ∈ [".", "[", "++", "--"].map Token.mark then some 0
    else if token = .mark "?" then some (2 * Precedence.logicalOr.rank + 1)
    else if token ∈ [")", "]", ":", ";"].map Token.mark then some (2 * Precedence.top.rank + 1)
    else none

/-- Whether tokens can follow a phrase of a level, within a wider phrase or after it. -/
def Admits (p : Precedence) (ts : List Token) : Prop :=
  ∀ token ∈ ts.head?, ∃ k, token.reach? = some k ∧ 2 * p.rank ≤ k

/-- Whether tokens leave a phrase of a level as it is. -/
def Ends (p : Precedence) (ts : List Token) : Prop :=
  ∀ token ∈ ts.head?, ∃ k, token.reach? = some k ∧ 2 * p.rank < k

variable {p q : Precedence} {ts rest : List Token} {t : Tree}

/-- What follows a phrase of a looser level ends one of a tighter level. -/
theorem Admits.ends (h : Admits q rest) (hpq : p.rank < q.rank) : Ends p rest := by
  intro token htoken
  obtain ⟨k, hk, hle⟩ := h token htoken
  exact ⟨k, hk, by omega⟩

/-- What ends a phrase may follow it. -/
theorem Ends.admits (h : Ends p rest) : Admits p rest := by
  intro token htoken
  obtain ⟨k, hk, hlt⟩ := h token htoken
  exact ⟨k, hk, hlt.le⟩

/-- A token with a great enough number ends a phrase. -/
theorem ends_cons {token : Token} (k : Nat) (rest : List Token) (hk : token.reach? = some k)
    (hlt : 2 * p.rank < k) : Ends p (token :: rest) := by
  intro first hfirst
  obtain rfl : token = first := by simpa using hfirst
  exact ⟨k, hk, hlt⟩

/-- A token with a great enough number may follow a phrase. -/
theorem admits_cons {token : Token} (k : Nat) (rest : List Token) (hk : token.reach? = some k)
    (hle : 2 * p.rank ≤ k) : Admits p (token :: rest) := by
  intro first hfirst
  obtain rfl : token = first := by simpa using hfirst
  exact ⟨k, hk, hle⟩

/-- What follows a choice ends an assignment: no token goes on with the one or the other. -/
theorem Admits.ends_assignment (h : Admits .ternary rest) : Ends .assignment rest := by
  intro token htoken
  obtain ⟨k, hk, hle⟩ := h token htoken
  refine ⟨k, hk, ?_⟩
  rw [Token.reach?] at hk
  -- The token is an operator, or one of the marks that go on with an operand.
  split at hk
  · next op hop =>
    obtain rfl := Option.some.inj hk
    revert hle
    cases op <;> decide
  · split_ifs at hk <;> obtain rfl := Option.some.inj hk <;> revert hle <;> decide

/-- The symbol of a binary operator stands for it. -/
@[simp] theorem between?_symbol (op : BinaryOp) :
    BinaryOp.between? (.mark op.symbol) = some op := by
  cases op <;> decide

/-- An operator after an operand goes on with the tightest phrases only. -/
theorem reach?_of_after? {token : Token} {op : UnaryOp} (h : UnaryOp.after? token = some op) :
    token.reach? = some 0 := by
  cases token with
  | mark symbol =>
    have hmem := List.mem_of_find?_eq_some h
    obtain rfl : op.symbol = symbol := by simpa using List.find?_some h
    cases op <;> first | decide | exact absurd hmem (by decide)
  | word text => exact absurd h (by simp [UnaryOp.after?])
  | number text => exact absurd h (by simp [UnaryOp.after?])

/-- An operator between operands that ends a phrase belongs to a looser level. -/
theorem ofBinary_ne_of_reach? {token : Token} {op : BinaryOp} {k : Nat}
    (hop : BinaryOp.between? token = some op) (hk : token.reach? = some k)
    (hlt : 2 * p.rank < k) : Precedence.ofBinary op ≠ p := by
  rintro rfl
  rw [Token.reach?, hop] at hk
  obtain rfl := Option.some.inj hk
  revert hlt
  cases op <;> decide

/-- Nothing is read after a phrase that has ended. -/
theorem readAfter_of_ends (h : Ends p rest) : Settles (readAfter · p t rest) (t, rest) := by
  refine .of_step (.of_forall fun fuel => ?_)
  -- Where nothing is left to read, no level goes on.
  cases rest with
  | nil => cases p <;> simp [readAfter]
  | cons token rest =>
    obtain ⟨k, hk, hlt⟩ := h token rfl
    -- The token is none of those that the level goes on with, judging by its number.
    have hother : ∀ {other : Token} {n : Nat}, other.reach? = some n → n ≤ 2 * p.rank →
        token ≠ other := by
      rintro other n hn hle rfl
      rw [hn] at hk
      exact absurd (Option.some.inj hk) (by omega)
    have hbetween : ∀ op, BinaryOp.between? token = some op → Precedence.ofBinary op ≠ p :=
      fun op hop => ofBinary_ne_of_reach? hop hk hlt
    -- A postfix level could go on with a point, a bracket or a postfix operator.
    by_cases htrailing : p = .trailing
    · subst htrailing
      have hpoint : token ≠ .mark "." := hother (n := 0) (by decide) (by decide)
      have hbracket : token ≠ .mark "[" := hother (n := 0) (by decide) (by decide)
      have hafter : UnaryOp.after? token = none := by
        cases hop : UnaryOp.after? token with
        | none => rfl
        | some op =>
          rw [reach?_of_after? hop] at hk
          exact absurd (Option.some.inj hk) (by omega)
      rw [readAfter]
      simp [hpoint, hbracket, hafter]
    by_cases hternary : p = .ternary
    · subst hternary
      have hquestion : token ≠ .mark "?" := hother (n := 25) (by decide) (by decide)
      rw [readAfter]
      simp [hquestion]
    · -- All other levels go on with an operator of their own.
      rw [readAfter]
      · cases hop : BinaryOp.between? token with
        | none => simp [hop]
        | some op => simp [hop, hbetween op hop]
      · exact htrailing
      · exact hternary

/-- Nothing belongs to an operator in front of its operand after the operand. -/
theorem readAfter_leading (t : Tree) (rest : List Token) :
    Settles (readAfter · .leading t rest) (t, rest) := by
  refine .of_step (.of_forall fun fuel => ?_)
  rw [readAfter]
  · -- Between leading operands no operator is expected, so nothing is read.
    cases hop : rest.head?.bind BinaryOp.between? with
    | none => rfl
    | some op =>
      have hne : Precedence.ofBinary op ≠ .leading := by cases op <;> decide
      simp [hne]
  · decide
  · decide

/-- A name, a literal, a call, a constructor or parentheses are read before what follows them. -/
theorem readLevel_trailing {result : Tree × List Token} (h : Settles (readPrimary · ts) (t, rest))
    (hafter : Settles (readAfter · .trailing t rest) result) :
    Settles (readLevel · .trailing ts) result := by
  refine .of_step ?_
  filter_upwards [h, hafter] with fuel h hafter
  rw [readLevel]
  simp [h, hafter]

/-- A level that operators between operands belong to is read from the next tighter one. -/
theorem readLevel_below {result : Tree × List Token}
    (hp : Precedence.leading.rank < p.rank) (h : Settles (readLevel · p.below ts) (t, rest))
    (hafter : Settles (readAfter · p t rest) result) : Settles (readLevel · p ts) result := by
  -- The other two levels are read in another way.
  have htrailing : p ≠ .trailing := by rintro rfl; exact absurd hp (by decide)
  have hleading : p ≠ .leading := by rintro rfl; exact absurd hp (by decide)
  refine .of_step ?_
  filter_upwards [h, hafter] with fuel h hafter
  rw [readLevel]
  · simp [h, hafter]
  · exact htrailing
  · exact hleading

/-- An expression that has ended is read at every looser level as well. -/
theorem readLevel_lift (h : Settles (readLevel · p ts) (t, rest))
    (hp : Precedence.leading.rank ≤ p.rank) (hpq : p.rank ≤ q.rank) (hrest : Ends q rest) :
    Settles (readLevel · q ts) (t, rest) := by
  -- Induction on the number of levels between the two.
  obtain ⟨n, hn⟩ : ∃ n, q.rank - p.rank = n := ⟨_, rfl⟩
  induction n generalizing q with
  | zero =>
    obtain rfl : p = q := Precedence.rank_injective (by omega)
    exact h
  | succ n ih =>
    have hbelow := q.rank_below
    have hlevel : Settles (readLevel · q.below ts) (t, rest) :=
      ih (by omega) (hrest.admits.ends (by omega)) (by omega)
    exact readLevel_below (by omega) hlevel (readAfter_of_ends hrest)

/-- A phrase starts with no closing parenthesis, and one of the tightest level with no operator
    either. -/
theorem Phrase.head (h : Phrase p ts t) : ∃ first tail, ts = first :: tail ∧
    first ≠ .mark ")" ∧ (p = .trailing → UnaryOp.before? first = none) := by
  induction h with
  -- An atom is a single token, and no parenthesis.
  | @atom token t h =>
    refine ⟨token, [], rfl, ?_, fun _ => ?_⟩
    · rintro rfl
      exact absurd h (by simp [atom?])
    · cases token with
      | mark symbol => exact absurd h (by simp [atom?])
      | word text => rfl
      | number text => rfl
  | inPosition h => exact ⟨_, _, rfl, by decide, fun _ => rfl⟩
  | parenthesized h ih => exact ⟨_, _, rfl, by decide, fun _ => by decide⟩
  | call hname hargs ih => exact ⟨_, _, rfl, by simp, fun _ => rfl⟩
  | construct hname hargs ih => exact ⟨_, _, rfl, by simp, fun _ => rfl⟩
  | swizzle hbase hmask ih =>
    obtain ⟨first, tail, rfl, hfirst⟩ := ih
    exact ⟨first, _, rfl, hfirst⟩
  | index hbase hposition ihbase ihposition =>
    obtain ⟨first, tail, rfl, hfirst⟩ := ihbase
    exact ⟨first, _, rfl, hfirst⟩
  -- From here on the phrase starts as its left operand does, an operator in front of it apart.
  | unaryAfter hop h ih =>
    obtain ⟨first, tail, rfl, hfirst⟩ := ih
    exact ⟨first, _, rfl, hfirst⟩
  | @unaryBefore text op ts t hop h ih =>
    obtain ⟨-, rfl⟩ := mem_operatorsBefore.mp hop
    exact ⟨_, _, rfl, by cases op <;> decide, fun h => absurd h (by decide)⟩
  | binary hop hp hleft hright ihleft ihright =>
    obtain ⟨first, tail, rfl, hfirst, hbefore⟩ := ihleft
    exact ⟨first, _, rfl, hfirst, hbefore⟩
  | ternary hcond htrue hfalse ihcond ihtrue ihfalse =>
    obtain ⟨first, tail, rfl, hfirst, -⟩ := ihcond
    exact ⟨first, _, rfl, hfirst, fun h => absurd h (by decide)⟩
  | assignment hop hleft hright ihleft ihright =>
    obtain ⟨first, tail, rfl, hfirst, -⟩ := ihleft
    exact ⟨first, _, rfl, hfirst, fun h => absurd h (by decide)⟩
  | looser hp h ih =>
    obtain ⟨first, tail, rfl, hfirst, hbefore⟩ := ih
    exact ⟨first, tail, rfl, hfirst, fun h => hbefore (by rw [h]; rfl)⟩

/-! ### Reading phrases -/

/-- Reading a phrase of a level with what follows it comes to reading what follows, once the tree
    of the phrase has been read. -/
def ReadsAs (p : Precedence) (ts : List Token) (t : Tree) : Prop :=
  ∀ ⦃rest result⦄, Admits p rest → Settles (readAfter · p t rest) result →
    Settles (readLevel · p (ts ++ rest)) result

/-- A phrase is read with what ends it. -/
theorem ReadsAs.ends (h : ReadsAs p ts t) (hrest : Ends p rest) :
    Settles (readLevel · p (ts ++ rest)) (t, rest) :=
  h hrest.admits (readAfter_of_ends hrest)

/-- A token in front of the rest is read. -/
@[simp] theorem readToken_cons (token : Token) (rest : List Token) :
    readToken token (token :: rest) = some rest := by
  simp [readToken]

/-- Arguments are read up to the parenthesis that closes them. -/
theorem readArguments_eq (head : List Tree → Tree) (rest : List Token)
    {args : List (List Token × Tree)} (done : List Tree) (hdone : args = [] → done = [])
    (hargs : ∀ arg ∈ args, Phrase .assignment arg.1 arg.2)
    (hread : ∀ arg ∈ args, ReadsAs .assignment arg.1 arg.2) :
    Settles (readArguments · head done
        ([Token.mark ","].intercalate (args.map (·.1)) ++ .mark ")" :: rest))
      (head (done ++ args.map (·.2)), rest) := by
  -- By induction on the arguments; `done` are those already read.
  induction args generalizing done with
  | nil =>
    refine .of_step (.of_forall fun fuel => ?_)
    rw [hdone rfl, readArguments]
    simp
  | cons arg args ih =>
    obtain ⟨first, tail, hfirst, hparen, -⟩ := (hargs arg List.mem_cons_self).head
    have harg := hread arg List.mem_cons_self
    cases args with
    | nil =>
      -- The last argument ends at the closing parenthesis, the others at the comma after them.
      have hends : Ends .assignment (.mark ")" :: rest) :=
        ends_cons 33 rest (by decide) (by decide)
      have hlevel := harg.ends hends
      rw [hfirst, List.cons_append] at hlevel
      refine .of_step ?_
      filter_upwards [hlevel] with fuel hlevel
      -- The reader looks for the end of the list first, then reads one argument.
      rw [readArguments]
      simp [hfirst, hparen, hlevel]
    | cons arg' args =>
      have hmore := ih (done ++ [arg.2]) (fun h => absurd h (List.cons_ne_nil _ _))
        (fun a ha => hargs a (List.mem_cons_of_mem _ ha))
        (fun a ha => hread a (List.mem_cons_of_mem _ ha))
      -- The comma splits the text, so that the hypothesis applies to what comes after it.
      have hsplit : [Token.mark ","].intercalate ((arg :: arg' :: args).map (·.1)) ++
            .mark ")" :: rest =
          arg.1 ++ .mark "," :: ([Token.mark ","].intercalate ((arg' :: args).map (·.1)) ++
            .mark ")" :: rest) := by
        simp [List.intercalate_cons_cons]
      rw [hsplit]
      generalize [Token.mark ","].intercalate ((arg' :: args).map (·.1)) ++ .mark ")" :: rest =
        more at hmore ⊢
      have hends : Ends .assignment (.mark "," :: more) :=
        ends_cons 30 more (by decide) (by decide)
      have hlevel := harg.ends hends
      rw [hfirst, List.cons_append] at hlevel ⊢
      refine .of_step ?_
      filter_upwards [hlevel, hmore] with fuel hlevel hmore
      rw [readArguments]
      simp [hparen, hlevel, hmore]

/-- No position of an input vertex starts with a name or a literal. -/
theorem inPosition?_eq_none {token : Token} (h : atom? token = some t) :
    inPosition? (token :: rest) = none := by
  unfold inPosition?
  split
  · next heq =>
    split
    · -- It would be the name of the array of inputs, which is no atom.
      next hgl =>
      obtain rfl : token = _ := (List.cons.inj heq).1
      rw [(List.cons.inj hgl).1] at h
      exact absurd h (by rw [show atom? (.word "gl_in") = none by decide]; simp)
    · rfl
  · rfl

/-- What is applied to arguments is read with them. -/
theorem readPrimary_applied {name : String} {head : List Tree → Tree}
    {args : List (List Token × Tree)} (hhead : applied? (.word name) = some head)
    (hargs : ∀ arg ∈ args, Phrase .assignment arg.1 arg.2)
    (hread : ∀ arg ∈ args, ReadsAs .assignment arg.1 arg.2) :
    Settles (readPrimary · (.word name :: .mark "(" ::
        [Token.mark ","].intercalate (args.map (·.1)) ++ [.mark ")"] ++ rest))
      (head (args.map (·.2)), rest) := by
  have hargs' := readArguments_eq head rest [] (fun _ => rfl) hargs hread
  refine .of_step ?_
  filter_upwards [hargs'] with fuel hargs'
  simp only [List.cons_append, List.append_assoc, List.nil_append] at hargs' ⊢
  rw [readPrimary]
  simp [hhead, hargs']

/-! Each kind of phrase is read as its tree if its parts are. What follows stays open in `ReadsAs`,
so a phrase that goes on with another one takes the rest of its own tokens as what follows that
one. -/

/-- A token that stands alone is read as what it is. -/
theorem ReadsAs.atom {token : Token} (h : atom? token = some t) : ReadsAs .trailing [token] t := by
  intro rest result hrest hafter
  -- A name that is no parenthesis, with none after it, is neither a group nor a call.
  have hmark : token ≠ .mark "(" := by
    rintro rfl
    exact absurd h (by simp [atom?])
  have hparen : rest.head? ≠ some (.mark "(") := by
    intro hhead
    obtain ⟨k, hk, -⟩ := hrest _ hhead
    exact absurd hk (by simp [show Token.reach? (.mark "(") = none by decide])
  refine readLevel_trailing (.of_step (.of_forall fun fuel => ?_)) hafter
  rw [List.singleton_append, readPrimary]
  simp [hmark, hparen, inPosition?_eq_none h, h]

/-- The position of an input vertex is read from its six tokens. -/
theorem ReadsAs.inPosition {text : String} {vertex : Nat} (h : natural? text.toList = some vertex) :
    ReadsAs .trailing
      [.word "gl_in", .mark "[", .number text, .mark "]", .mark ".", .word "gl_Position"]
      (.builtin (.inPosition vertex)) := by
  intro rest result hrest hafter
  refine readLevel_trailing (.of_step (.of_forall fun fuel => ?_)) hafter
  rw [List.cons_append, readPrimary]
  simp [inPosition?, h]

/-- What is in parentheses is read to the closing one. -/
theorem ReadsAs.parenthesized (h : ReadsAs .sequence ts t) :
    ReadsAs .trailing (.mark "(" :: ts ++ [.mark ")"]) t := by
  intro rest result hrest hafter
  -- The closing parenthesis ends what stands inside.
  have hends : Ends .sequence (.mark ")" :: rest) := ends_cons 33 rest (by decide) (by decide)
  refine readLevel_trailing (.of_step ?_) hafter
  filter_upwards [h.ends hends] with fuel hinner
  have hsplit : .mark "(" :: ts ++ [.mark ")"] ++ rest =
      .mark "(" :: (ts ++ .mark ")" :: rest) := by simp
  rw [hsplit, readPrimary]
  simp [hinner]

/-- A name before parentheses is applied to the arguments in them. -/
theorem ReadsAs.applied {name : String} {head : List Tree → Tree} {args : List (List Token × Tree)}
    (hhead : applied? (.word name) = some head)
    (hargs : ∀ arg ∈ args, Phrase .assignment arg.1 arg.2)
    (hread : ∀ arg ∈ args, ReadsAs .assignment arg.1 arg.2) :
    ReadsAs .trailing
      (.word name :: .mark "(" :: [Token.mark ","].intercalate (args.map (·.1)) ++ [.mark ")"])
      (head (args.map (·.2))) := by
  intro rest result hrest hafter
  exact readLevel_trailing (readPrimary_applied hhead hargs hread) hafter

/-- A point and a mask are read after what they select from. -/
theorem ReadsAs.swizzle {text : String} {mask : Mask} (hbase : ReadsAs .trailing ts t)
    (hmask : mask? text = some mask) :
    ReadsAs .trailing (ts ++ [.mark ".", .word text]) (.swizzle t mask) := by
  intro rest result hrest hafter
  -- What comes after the base does not end it: the base is read first, then the point goes on
  -- with it.
  have hpoint : Admits .trailing (.mark "." :: .word text :: rest) :=
    admits_cons 0 _ (by decide) (by decide)
  rw [List.append_assoc, List.cons_append, List.singleton_append]
  refine hbase hpoint (.of_step ?_)
  filter_upwards [hafter] with fuel hafter
  rw [readAfter]
  simp [readMask, hmask, hafter]

/-- Brackets are read after what is indexed. -/
theorem ReadsAs.index {us : List Token} {position : Tree} (hbase : ReadsAs .trailing ts t)
    (hposition : ReadsAs .sequence us position) :
    ReadsAs .trailing (ts ++ .mark "[" :: us ++ [.mark "]"]) (.index t position) := by
  intro rest result hrest hafter
  -- A bracket goes on with the base, and the closing one ends the position.
  have hends : Ends .sequence (.mark "]" :: rest) := ends_cons 33 rest (by decide) (by decide)
  have hbracket : Admits .trailing (.mark "[" :: (us ++ .mark "]" :: rest)) :=
    admits_cons 0 _ (by decide) (by decide)
  have hsplit : ts ++ .mark "[" :: us ++ [.mark "]"] ++ rest =
      ts ++ .mark "[" :: (us ++ .mark "]" :: rest) := by simp
  rw [hsplit]
  refine hbase hbracket (.of_step ?_)
  filter_upwards [hposition.ends hends, hafter] with fuel hinner hafter
  rw [readAfter]
  simp [hinner, hafter]

/-- Some operators stand after their operand. -/
theorem ReadsAs.unaryAfter {op : UnaryOp} (hop : op.followsOperand = true)
    (h : ReadsAs .trailing ts t) :
    ReadsAs .trailing (ts ++ [.mark op.symbol]) (.unary op t) := by
  intro rest result hrest hafter
  -- The operator is none of the marks that are looked for first.
  have hmark : UnaryOp.after? (.mark op.symbol) = some op := by
    cases op <;> first | rfl | exact absurd hop (by decide)
  have hpoint : op.symbol ≠ "." := by cases op <;> decide
  have hbracket : op.symbol ≠ "[" := by cases op <;> decide
  rw [List.append_assoc, List.singleton_append]
  refine h (admits_cons 0 rest (reach?_of_after? hmark) (by decide)) (.of_step ?_)
  filter_upwards [hafter] with fuel hafter
  rw [readAfter]
  simp [hmark, hpoint, hbracket, hafter]

/-- The others stand in front of it. -/
theorem ReadsAs.unaryBefore {op : UnaryOp} (hop : op.followsOperand = false)
    (h : ReadsAs .leading ts t) :
    ReadsAs .leading (.mark op.symbol :: ts) (.unary op t) := by
  intro rest result hrest hafter
  -- Nothing is read after a leading phrase, so the result is the phrase.
  obtain rfl := hafter.unique (readAfter_leading _ rest)
  have hbefore : UnaryOp.before? (.mark op.symbol) = some op := by
    cases op <;> first | rfl | exact absurd hop (by decide)
  refine .of_step ?_
  filter_upwards [h hrest (readAfter_leading t rest)] with fuel hinner
  rw [List.cons_append, readLevel]
  simp [hbefore, hinner]

/-- An operator is read between operands that bind more tightly on the right. -/
theorem ReadsAs.binary {op : BinaryOp} {ls rs : List Token} {left right : Tree}
    (hop : op.isAssignment = false) (hleft : ReadsAs (.ofBinary op) ls left)
    (hright : ReadsAs (Precedence.ofBinary op).below rs right) :
    ReadsAs (.ofBinary op) (ls ++ .mark op.symbol :: rs) (.binary op left right) := by
  intro rest result hrest hafter
  have hreach : Token.reach? (.mark op.symbol) = some (2 * (Precedence.ofBinary op).rank) := by
    simp [Token.reach?, hop]
  have hlevel : Precedence.leading.rank < (Precedence.ofBinary op).rank := by cases op <;> decide
  have htrailing : Precedence.ofBinary op ≠ .trailing := by cases op <;> decide
  have hternary : Precedence.ofBinary op ≠ .ternary := by cases op <;> decide
  have hrank := (Precedence.ofBinary op).rank_below
  rw [List.append_assoc, List.cons_append]
  -- After the left operand comes the mark, which binds as loosely as is admitted.
  refine hleft (admits_cons _ _ hreach le_rfl) (.of_step ?_)
  filter_upwards [hright.ends (hrest.ends (by omega)), hafter] with fuel hinner hafter
  rw [readAfter]
  · simp [hop, hinner, hafter]
  · exact htrailing
  · exact hternary

/-- A choice is read with its condition first. -/
theorem ReadsAs.ternary {cs ts fs : List Token} {cond ifTrue ifFalse : Tree}
    (hcond : ReadsAs .logicalOr cs cond) (htrue : ReadsAs .sequence ts ifTrue)
    (hfalse : ReadsAs .assignment fs ifFalse) :
    ReadsAs .ternary (cs ++ .mark "?" :: ts ++ .mark ":" :: fs)
      (.ternary cond ifTrue ifFalse) := by
  intro rest result hrest hafter
  -- A choice takes all it can, so what follows it ends a choice and `result` is the choice
  -- itself.
  have hstop : Ends .ternary rest := hrest.ends_assignment.admits.ends (by decide)
  obtain rfl := hafter.unique (readAfter_of_ends hstop)
  have hcolon : Ends .sequence (.mark ":" :: (fs ++ rest)) :=
    ends_cons 33 _ (by decide) (by decide)
  have hquestion : Ends .logicalOr (.mark "?" :: (ts ++ .mark ":" :: (fs ++ rest))) :=
    ends_cons 25 _ (by decide) (by decide)
  have hsplit : cs ++ .mark "?" :: ts ++ .mark ":" :: fs ++ rest =
      cs ++ .mark "?" :: (ts ++ .mark ":" :: (fs ++ rest)) := by simp
  rw [hsplit]
  refine readLevel_below (by decide) (hcond.ends hquestion) (.of_step ?_)
  filter_upwards [htrue.ends hcolon, hfalse.ends hrest.ends_assignment] with fuel htrue hfalse
  rw [readAfter]
  simp [htrue, hfalse]

/-- An assignment takes the tightest left side, and groups to the right. -/
theorem ReadsAs.assignment {op : BinaryOp} {ls rs : List Token} {left right : Tree}
    (hop : op.isAssignment = true) (hleft : ReadsAs .leading ls left)
    (hright : ReadsAs .assignment rs right) :
    ReadsAs .assignment (ls ++ .mark op.symbol :: rs) (.binary op left right) := by
  intro rest result hrest hafter
  have hternary : Ends .ternary rest := hrest.ends (by decide)
  have hstop : Ends .assignment rest := hternary.admits.ends_assignment
  -- The continuation is what the reader of the level makes of the rest: it stops at once.
  obtain rfl := hafter.unique (readAfter_of_ends hstop)
  have hreach : Token.reach? (.mark op.symbol) = some 25 := by
    simp [Token.reach?, hop, Precedence.rank]
  have hown := Precedence.ofBinary_eq_assignment.mpr hop
  rw [List.append_assoc, List.cons_append]
  -- Nothing goes on with the target up to choices, and none of these with an assignment.
  have hor : Settles (readLevel · .logicalOr (ls ++ .mark op.symbol :: (rs ++ rest)))
      (left, .mark op.symbol :: (rs ++ rest)) :=
    readLevel_lift (hleft.ends (ends_cons 25 _ hreach (by decide))) le_rfl (by decide)
      (ends_cons 25 _ hreach (by decide))
  have hchoice : Settles (readLevel · .ternary (ls ++ .mark op.symbol :: (rs ++ rest)))
      (left, .mark op.symbol :: (rs ++ rest)) := by
    have hquestion : op.symbol ≠ "?" := by cases op <;> decide
    refine readLevel_below (by decide) hor (.of_step (.of_forall fun fuel => ?_))
    rw [readAfter]
    simp [hquestion]
  -- The value is then read at the level of assignments again.
  refine readLevel_below (by decide) hchoice (.of_step ?_)
  filter_upwards [hright.ends hstop] with fuel hright
  rw [readAfter]
  · simp [hown, hop, hright]
  · decide
  · decide

/-- What is read where less is admitted is read where more is. -/
theorem ReadsAs.looser (hphrase : Phrase p.below ts t) (h : ReadsAs p.below ts t) :
    ReadsAs p ts t := by
  intro rest result hrest hafter
  by_cases htrailing : p = .trailing
  · -- The levels without operators of their own are read at once; all others start one level
    -- below.
    subst htrailing
    exact h hrest hafter
  by_cases hleading : p = .leading
  · subst hleading
    obtain rfl := hafter.unique (readAfter_leading t rest)
    obtain ⟨first, tail, rfl, -, hbefore⟩ := hphrase.head
    refine .of_step ?_
    filter_upwards [h.ends (hrest.ends (by decide))] with fuel hinner
    rw [readLevel]
    simp only [List.cons_append, List.head?_cons, Option.bind_some, hbefore rfl]
    exact hinner
  · have hrank : Precedence.leading.rank < p.rank := by
      cases p <;> first | decide | exact absurd rfl htrailing | exact absurd rfl hleading
    have hbelow := p.rank_below
    exact readLevel_below hrank (h.ends (hrest.ends (by omega))) hafter

/-- A phrase is read as its tree. -/
theorem readsAs_of_phrase (h : Phrase p ts t) : ReadsAs p ts t := by
  induction h with
  | atom h => exact .atom h
  | inPosition h => exact .inPosition h
  | parenthesized _ ih => exact .parenthesized ih
  | @call name callee args hname hargs ih =>
    -- A name that is a type would be read as a constructor.
    have hnone : Shape.named? name = none := by
      simpa [isTypeName] using not_isTypeName_of_callee? hname
    have hhead : applied? (.word name) = some (.call callee) := by
      simp [applied?, hnone, hname]
    exact .applied hhead hargs ih
  | @construct name shape args hname hargs ih =>
    have hhead : applied? (.word name) = some (.construct shape) := by
      simp [applied?, hname]
    exact .applied hhead hargs ih
  | swizzle _ hmask ih => exact .swizzle ih hmask
  | index _ _ ihbase ihposition => exact .index ihbase ihposition
  -- Each operator is written in one way, and those between operands have one level.
  | unaryAfter hop _ ih =>
    obtain ⟨hafter, rfl⟩ := mem_operatorsAfter.mp hop
    exact .unaryAfter hafter ih
  | unaryBefore hop _ ih =>
    obtain ⟨hbefore, rfl⟩ := mem_operatorsBefore.mp hop
    exact .unaryBefore hbefore ih
  | @binary p text op ls left rs right hop hp _ _ ihleft ihright =>
    obtain ⟨rfl, rfl⟩ := Precedence.mem_operators.mp hop
    have hbetween : op.isAssignment = false := by
      simpa using mt Precedence.ofBinary_eq_assignment.mpr hp
    exact .binary hbetween ihleft ihright
  | ternary _ _ _ ihcond ihtrue ihfalse => exact .ternary ihcond ihtrue ihfalse
  | assignment hop _ _ ihleft ihright =>
    obtain ⟨hown, rfl⟩ := Precedence.mem_operators.mp hop
    exact .assignment (Precedence.ofBinary_eq_assignment.mp hown.symm) ihleft ihright
  | looser _ h ih => exact .looser h ih

/-- Tokens are a phrase with one tree at most. -/
theorem Phrase.unique {u : Tree} (h : Phrase p ts t) (h' : Phrase p ts u) : t = u := by
  have hnil : Ends p [] := fun token htoken => absurd htoken (by simp)
  have htrees := ((readsAs_of_phrase h).ends hnil).unique ((readsAs_of_phrase h').ends hnil)
  exact congrArg Prod.fst htrees

end Glsl

end ShaderGen
