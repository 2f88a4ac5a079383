import ShaderGen.Glsl.Precedence
import ShaderGen.Proofs.Glsl.Lexicon

/-!
# Grammar of expressions

The expressions of the language as phrases of fifteen levels, from those that bind most tightly to
lists with commas. A phrase of one level is a phrase of every looser one.
-/

namespace ShaderGen.Glsl

namespace Precedence

/-- Operators between operands, with how they are written, by the level they belong to. -/
def operators : Precedence → List (String × BinaryOp)
  | .multiplicative => [("*", .mul), ("/", .div), ("%", .mod)]
  | .additive => [("+", .add), ("-", .sub)]
  | .shift => [("<<", .shl), (">>", .shr)]
  | .relational => [("<", .lt), (">", .gt), ("<=", .le), (">=", .ge)]
  | .equality => [("==", .eq), ("!=", .ne)]
  | .bitAnd => [("&", .bitAnd)]
  | .bitXor => [("^", .bitXor)]
  | .bitOr => [("|", .bitOr)]
  | .logicalAnd => [("&&", .logicalAnd)]
  | .logicalXor => [("^^", .logicalXor)]
  | .logicalOr => [("||", .logicalOr)]
  | .assignment =>
    [("=", .assign), ("+=", .addAssign), ("-=", .subAssign), ("*=", .mulAssign),
      ("/=", .divAssign)]
  | .sequence => [(",", .comma)]
  | .trailing | .leading | .ternary | .top => []

/-- An operator between operands has one level and is written in one way. -/
theorem mem_operators {p : Precedence} {text : String} {op : BinaryOp} :
    (text, op) ∈ p.operators ↔ p = ofBinary op ∧ text = op.symbol := by
  constructor
  · intro h
    have hall : p.operators.all (fun entry => p == ofBinary entry.2 && entry.1 == entry.2.symbol) =
        true := by cases p <;> decide
    simpa using List.all_eq_true.mp hall _ h
  · rintro ⟨rfl, rfl⟩
    cases op <;> decide

/-- The operators of one level are those that write their left operand. -/
theorem ofBinary_eq_assignment {op : BinaryOp} :
    ofBinary op = .assignment ↔ op.isAssignment = true := by
  cases op <;> decide

/-- The next tighter level. Nothing is tighter than the first. -/
def below : Precedence → Precedence
  | .trailing | .leading => .trailing
  | .multiplicative => .leading
  | .additive => .multiplicative
  | .shift => .additive
  | .relational => .shift
  | .equality => .relational
  | .bitAnd => .equality
  | .bitXor => .bitAnd
  | .bitOr => .bitXor
  | .logicalAnd => .bitOr
  | .logicalXor => .logicalAnd
  | .logicalOr => .logicalXor
  | .ternary => .logicalOr
  | .assignment => .ternary
  | .sequence => .assignment
  | .top => .sequence

/-- Levels are numbered without gaps. -/
theorem rank_below (p : Precedence) : p.below.rank = p.rank - 1 := by
  cases p <;> rfl

/-- A level is known by its number. -/
theorem rank_injective {p q : Precedence} (h : p.rank = q.rank) : p = q := by
  cases p <;> cases q <;> first | rfl | exact absurd h (by decide)

end Precedence

/-- Operators in front of their operand, with how they are written. -/
def operatorsBefore : List (String × UnaryOp) :=
  [("-", .neg), ("!", .not), ("~", .complement), ("++", .preIncrement), ("--", .preDecrement)]

/-- Operators after their operand, with how they are written. -/
def operatorsAfter : List (String × UnaryOp) := [("++", .postIncrement), ("--", .postDecrement)]

/-- An operator in front of its operand is written in one way. -/
theorem mem_operatorsBefore {text : String} {op : UnaryOp} :
    (text, op) ∈ operatorsBefore ↔ op.followsOperand = false ∧ text = op.symbol := by
  constructor
  · intro h
    have hall : operatorsBefore.all
        (fun entry => !entry.2.followsOperand && entry.1 == entry.2.symbol) = true := by decide
    simpa using List.all_eq_true.mp hall _ h
  · rintro ⟨hop, rfl⟩
    cases op <;> first | decide | exact absurd hop (by decide)

/-- So is one after its operand. -/
theorem mem_operatorsAfter {text : String} {op : UnaryOp} :
    (text, op) ∈ operatorsAfter ↔ op.followsOperand = true ∧ text = op.symbol := by
  constructor
  · intro h
    have hall : operatorsAfter.all
        (fun entry => entry.2.followsOperand && entry.1 == entry.2.symbol) = true := by decide
    simpa using List.all_eq_true.mp hall _ h
  · rintro ⟨hop, rfl⟩
    cases op <;> first | decide | exact absurd hop (by decide)

/-- `Phrase p ts t` says that the tokens `ts` are an expression of level `p` with the tree `t`. -/
inductive Phrase : Precedence → List Token → Tree → Prop where
  /-- name or literal -/
  | atom {token t} (h : atom? token = some t) : Phrase .trailing [token] t
  /-- position of an input vertex -/
  | inPosition {text vertex} (h : natural? text.toList = some vertex) :
    Phrase .trailing
      [.word "gl_in", .mark "[", .number text, .mark "]", .mark ".", .word "gl_Position"]
      (.builtin (.inPosition vertex))
  | parenthesized {ts t} (h : Phrase .sequence ts t) :
    Phrase .trailing (.mark "(" :: ts ++ [.mark ")"]) t
  /-- call, with the tokens and the tree of each argument -/
  | call {name callee} {args : List (List Token × Tree)} (hname : callee? name = some callee)
    (hargs : ∀ arg ∈ args, Phrase .assignment arg.1 arg.2) :
    Phrase .trailing
      (.word name :: .mark "(" :: [Token.mark ","].intercalate (args.map (·.1)) ++ [.mark ")"])
      (.call callee (args.map (·.2)))
  /-- constructor or cast, with the tokens and the tree of each argument -/
  | construct {name shape} {args : List (List Token × Tree)}
    (hname : Shape.named? name = some shape)
    (hargs : ∀ arg ∈ args, Phrase .assignment arg.1 arg.2) :
    Phrase .trailing
      (.word name :: .mark "(" :: [Token.mark ","].intercalate (args.map (·.1)) ++ [.mark ")"])
      (.construct shape (args.map (·.2)))
  | swizzle {ts base text mask} (hbase : Phrase .trailing ts base)
    (hmask : mask? text = some mask) :
    Phrase .trailing (ts ++ [.mark ".", .word text]) (.swizzle base mask)
  | index {ts base us position} (hbase : Phrase .trailing ts base)
    (hposition : Phrase .sequence us position) :
    Phrase .trailing (ts ++ .mark "[" :: us ++ [.mark "]"]) (.index base position)
  /-- operator after its operand -/
  | unaryAfter {text op ts t} (hop : (text, op) ∈ operatorsAfter) (h : Phrase .trailing ts t) :
    Phrase .trailing (ts ++ [.mark text]) (.unary op t)
  /-- operator before its operand -/
  | unaryBefore {text op ts t} (hop : (text, op) ∈ operatorsBefore) (h : Phrase .leading ts t) :
    Phrase .leading (.mark text :: ts) (.unary op t)
  /-- operator between its operands, grouped from the left -/
  | binary {p text op ls left rs right} (hop : (text, op) ∈ Precedence.operators p)
    (hp : p ≠ .assignment) (hleft : Phrase p ls left) (hright : Phrase p.below rs right) :
    Phrase p (ls ++ .mark text :: rs) (.binary op left right)
  /-- choice; another one in its last arm belongs to that arm -/
  | ternary {cs cond ts ifTrue fs ifFalse} (hcond : Phrase .logicalOr cs cond)
    (htrue : Phrase .sequence ts ifTrue) (hfalse : Phrase .assignment fs ifFalse) :
    Phrase .ternary (cs ++ .mark "?" :: ts ++ .mark ":" :: fs) (.ternary cond ifTrue ifFalse)
  /-- assignment, grouped from the right; what it writes binds more tightly than any operator
      between operands -/
  | assignment {text op ls left rs right}
    (hop : (text, op) ∈ Precedence.assignment.operators) (hleft : Phrase .leading ls left)
    (hright : Phrase .assignment rs right) :
    Phrase .assignment (ls ++ .mark text :: rs) (.binary op left right)
  /-- phrase of the next tighter level -/
  | looser {p ts t} (hp : p ≠ .top) (h : Phrase p.below ts t) : Phrase p ts t

namespace Phrase

variable {p q : Precedence} {ts : List Token} {t : Tree}

/-- A phrase is one of every looser level. -/
theorem weaken (h : Phrase p ts t) (hpq : p.rank ≤ q.rank) (hq : q ≠ .top) : Phrase q ts t := by
  -- Induction on the number of levels between the two.
  obtain ⟨n, hn⟩ : ∃ n, q.rank - p.rank = n := ⟨_, rfl⟩
  induction n generalizing q with
  | zero =>
    obtain rfl : p = q := Precedence.rank_injective (by omega)
    exact h
  | succ n ih =>
    have hbelow := q.rank_below
    refine looser hq (ih (by omega) ?_ (by omega))
    -- The level below another is not the place where anything can stand.
    cases q <;> simp [Precedence.below]

/-- Tokens in parentheses are a phrase of every level. -/
theorem enclosed (h : Phrase .sequence ts t) (hq : q ≠ .top) :
    Phrase q (.mark "(" :: ts ++ [.mark ")"]) t :=
  weaken (parenthesized h) (Nat.zero_le _) hq

end Phrase

end ShaderGen.Glsl
