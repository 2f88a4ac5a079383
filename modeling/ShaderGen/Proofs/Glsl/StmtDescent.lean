import ShaderGen.Proofs.Glsl.Descent
import ShaderGen.Proofs.Glsl.StmtGrammar

/-!
# Reading statements from the left

A reader that takes an `else` for the `if` it has read last, as soon as it sees one. It reads every
statement of the grammar as its tree (`readsStmt_of_sentence`), so tokens have one tree at most
(`Sentence.unique`).
-/

namespace ShaderGen.Glsl

namespace Token

/-- Whether a token is the name of a type. -/
def namesType : Token → Bool
  | .word name => isTypeName name
  | _ => false

/-- Whether an expression can start with a token. -/
def opensPhrase : Token → Bool
  | .number _ => true
  | .mark symbol => symbol == "(" || (UnaryOp.before? (.mark symbol)).isSome
  | .word name =>
    name == "gl_in" || (atom? (.word name)).isSome || (callee? name).isSome || isTypeName name

/-- Whether a declaration or an expression can start with a token. -/
def opensPlain (token : Token) : Bool :=
  token.opensPhrase || (storageWords.map .word).contains token ||
    ([.reduced, .full].map ofPrecision).contains token

/-- Form of a statement. -/
inductive Form where
  | block
  | ifElse
  | forLoop
  | whileLoop
  | doWhile
  | switchOn
  | returnWith
  | fixed
  /-- declaration or expression -/
  | plain
deriving DecidableEq

/-- Forms that are known by the first token. -/
def forms : List (Token × Form) :=
  [(.mark "\x7b", .block), (.word "if", .ifElse), (.word "for", .forLoop),
    (.word "while", .whileLoop), (.word "do", .doWhile), (.word "switch", .switchOn),
    (.word "return", .returnWith), (.word "break", .fixed), (.word "continue", .fixed),
    (.word "discard", .fixed), (.word "EmitVertex", .fixed), (.word "EndPrimitive", .fixed)]

/-- Form of the statement that starts with a token. -/
def form (token : Token) : Form := ((forms.find? (·.1 == token)).map (·.2)).getD .plain

/-- Tokens that end the statements of a block or of a case. -/
def stops : List Token := [.mark "\x7d", .word "case", .word "default"]

end Token

/-- Whether tokens start like an expression. The name of a type that starts one is applied to
    arguments. -/
def startsPhrase : List Token → Bool
  | first :: rest =>
    first.opensPhrase && (!first.namesType || rest.head? == some (.mark "("))
  | [] => false

/-- Reads a word of a class, if there is one. -/
def readClass {α : Type} (all : List α) (token : α → Token) (ts : List Token) :
    Option α × List Token :=
  match ts.head?.bind fun first => all.find? (token · == first) with
  | some a => (some a, ts.tail)
  | none => (none, ts)

/-- Reads something up to a mark that closes it, if it is there. -/
def readUpTo {α : Type} (close : String) (reader : List Token → Option (α × List Token))
    (ts : List Token) : Option (Option α × List Token) :=
  if ts.head? = some (.mark close) then some (none, ts.tail)
  else do
    let (a, rest) ← reader ts
    let rest ← readToken (.mark close) rest
    some (some a, rest)

/-- Reads an expression in parentheses. -/
def readEnclosed (fuel : Nat) (ts : List Token) : Option (Tree × List Token) := do
  let rest ← readToken (.mark "(") ts
  let (t, rest) ← readLevel fuel .sequence rest
  let rest ← readToken (.mark ")") rest
  some (t, rest)

/-- Reads the initial value of a declaration, if there is one. -/
def readInitial (fuel : Nat) (ts : List Token) : Option (Option Tree × List Token) :=
  if ts.head? = some (.mark "=") then do
    let (t, rest) ← readLevel fuel .assignment ts.tail
    some (some t, rest)
  else some (none, ts)

/-- Reads a declaration. -/
def readDecl (fuel : Nat) (ts : List Token) : Option (DeclTree × List Token) :=
  let (storage, rest) := readClass storageWords .word ts
  let (precision, rest) := readClass [.reduced, .full] .ofPrecision rest
  match rest with
  | .word typeName :: .word name :: rest => do
    let shape ← Shape.named? typeName
    let (init, rest) ← readInitial fuel rest
    some (⟨storage, precision, shape, name, init⟩, rest)
  | _ => none

/-- Reads a declaration or an expression. -/
def readPlain (fuel : Nat) (ts : List Token) : Option (StmtTree × List Token) :=
  if startsPhrase ts then (readLevel fuel .sequence ts).map fun (t, rest) => (.expr t, rest)
  else (readDecl fuel ts).map fun (t, rest) => (.decl t, rest)

/-- Reads a statement that is always spelled the same. -/
def readFixed (ts : List Token) : Option (StmtTree × List Token) :=
  fixedStatements.findSome? fun (us, t) =>
    if us.isPrefixOf ts then some (t, ts.drop us.length) else none

/-- Reads a label with the colon. -/
def readLabel (fuel : Nat) (ts : List Token) : Option (Option Tree × List Token) :=
  if ts.head? = some (.word "case") then do
    let (t, rest) ← readLevel fuel .sequence ts.tail
    let rest ← readToken (.mark ":") rest
    some (some t, rest)
  else do
    let rest ← readToken (.word "default") ts
    let rest ← readToken (.mark ":") rest
    some (none, rest)

mutual
/-- Reads a statement, with all that belongs to it. -/
def readStmt : Nat → List Token → Option (StmtTree × List Token)
  | 0, _ | _, [] => none
  | fuel + 1, first :: rest =>
    match first.form with
    | .block => do
      let (body, rest) ← readStmts fuel rest
      let rest ← readToken (.mark "\x7d") rest
      some (.block body, rest)
    | .ifElse => do
      let (cond, rest) ← readEnclosed fuel rest
      let (thenBranch, rest) ← readStmt fuel rest
      if rest.head? = some (.word "else") then do
        let (elseBranch, rest) ← readStmt fuel rest.tail
        some (.ifElse cond thenBranch (some elseBranch), rest)
      else some (.ifElse cond thenBranch none, rest)
    | .forLoop => do
      let rest ← readToken (.mark "(") rest
      let (init, rest) ← readUpTo ";" (readPlain fuel) rest
      let (cond, rest) ← readUpTo ";" (readLevel fuel .sequence) rest
      let (step, rest) ← readUpTo ")" (readLevel fuel .sequence) rest
      let (body, rest) ← readStmt fuel rest
      some (.forLoop init cond step body, rest)
    | .whileLoop => do
      let (cond, rest) ← readEnclosed fuel rest
      let (body, rest) ← readStmt fuel rest
      some (.whileLoop cond body, rest)
    | .doWhile => do
      let (body, rest) ← readStmt fuel rest
      let rest ← readToken (.word "while") rest
      let (cond, rest) ← readEnclosed fuel rest
      let rest ← readToken (.mark ";") rest
      some (.doWhile body cond, rest)
    | .switchOn => do
      let (value, rest) ← readEnclosed fuel rest
      let rest ← readToken (.mark "\x7b") rest
      let (cases, rest) ← readCases fuel rest
      let rest ← readToken (.mark "\x7d") rest
      some (.switchOn value cases, rest)
    | .returnWith => do
      let (value, rest) ← readUpTo ";" (readLevel fuel .sequence) rest
      some (.returnWith value, rest)
    | .fixed => readFixed (first :: rest)
    | .plain => do
      let (t, rest) ← readPlain fuel (first :: rest)
      let rest ← readToken (.mark ";") rest
      some (t, rest)

/-- Reads statements up to a token that ends them. -/
def readStmts : Nat → List Token → Option (List StmtTree × List Token)
  | 0, _ => none
  | fuel + 1, ts =>
    if ts.head?.any (Token.stops.contains ·) then some ([], ts)
    else do
      let (t, rest) ← readStmt fuel ts
      let (us, rest) ← readStmts fuel rest
      some (t :: us, rest)

/-- Reads the cases of a `switch`. -/
def readCases : Nat → List Token → Option (List CaseTree × List Token)
  | 0, _ => none
  | fuel + 1, ts =>
    if ts.head? = some (.mark "\x7d") then some ([], ts)
    else do
      let (label, rest) ← readLabel fuel ts
      let (body, rest) ← readStmts fuel rest
      let (cases, rest) ← readCases fuel rest
      some (.mk label body :: cases, rest)
end

variable {ts rest : List Token} {t : StmtTree}

/-! ### What tokens start with -/

/-- Tokens that start like an expression do so whatever follows them. -/
theorem startsPhrase_append (h : startsPhrase ts = true) (us : List Token) :
    startsPhrase (ts ++ us) = true := by
  cases ts with
  | nil => exact absurd h Bool.false_ne_true
  | cons first tail =>
    rw [startsPhrase, Bool.and_eq_true, Bool.or_eq_true] at h
    rw [List.cons_append, startsPhrase, Bool.and_eq_true, Bool.or_eq_true]
    -- The second token is looked at only when it is there, and then it stays the second.
    refine ⟨h.1, h.2.imp_right fun hhead => ?_⟩
    rw [beq_iff_eq] at hhead ⊢
    rw [List.head?_append, hhead]
    rfl

/-- The name of a type is neither a name nor a literal. -/
theorem atom?_eq_none_of_isTypeName {name : String} (h : isTypeName name = true) :
    atom? (.word name) = none := by
  -- None of the words that are looked for is the name of a type.
  have hother : ∀ {other : String}, isTypeName other = false → name ≠ other := by
    rintro other hother rfl
    rw [h] at hother
    exact Bool.noConfusion hother
  have hid : isIdentifier name = false := by simp [isIdentifier, isReserved, h]
  have hbuiltin : Builtin.named? name = none := by
    unfold Builtin.named?
    split <;> first | rfl | exact absurd rfl (hother (by decide))
  simp [atom?, hother (show isTypeName "true" = false by decide),
    hother (show isTypeName "false" = false by decide), hid, hbuiltin]

/-- A phrase starts like an expression. -/
theorem Phrase.starts {p : Precedence} {u : Tree} (h : Phrase p ts u) : startsPhrase ts = true := by
  induction h with
  | @atom token t h =>
    cases token with
    | number text => rfl
    | mark symbol => exact absurd h (by simp [atom?])
    | word name =>
      -- A word that is an atom by itself is not the name of a type, so nothing has to follow it.
      have htype : isTypeName name = false := by
        rw [Bool.eq_false_iff]
        intro htype
        rw [atom?_eq_none_of_isTypeName htype] at h
        exact absurd h (by simp)
      simp [startsPhrase, Token.opensPhrase, Token.namesType, h, htype]
  | inPosition h => exact @startsPhrase_append [.word "gl_in"] (by decide) _
  | parenthesized h ih => exact @startsPhrase_append [.mark "("] (by decide) _
  -- A call and a constructor start with a name and a parenthesis.
  | call hname hargs ih =>
    simp [startsPhrase, Token.opensPhrase, Token.namesType, hname, not_isTypeName_of_callee? hname]
  | construct hname hargs ih =>
    simp [startsPhrase, Token.opensPhrase, Token.namesType, isTypeName, hname]
  | swizzle hbase hmask ih => exact startsPhrase_append ih _
  | index hbase hposition ihbase ihposition =>
    rw [List.append_assoc]
    exact startsPhrase_append ihbase _
  | unaryAfter hop h ih => exact startsPhrase_append ih _
  -- Any operator in front opens a phrase; the others stand behind their first operand.
  | @unaryBefore text op ts t hop h ih =>
    obtain ⟨-, rfl⟩ := mem_operatorsBefore.mp hop
    refine @startsPhrase_append [.mark op.symbol] ?_ ts
    cases op <;> decide
  | binary hop hp hleft hright ihleft ihright => exact startsPhrase_append ihleft _
  | ternary hcond htrue hfalse ihcond ihtrue ihfalse =>
    rw [List.append_assoc]
    exact startsPhrase_append ihcond _
  | assignment hop hleft hright ihleft ihright => exact startsPhrase_append ihleft _
  | looser hp h ih => exact ih

/-- A phrase starts with a token that a statement can start with. -/
theorem Phrase.opens {p : Precedence} {u : Tree} (h : Phrase p ts u) :
    ∃ first tail, ts = first :: tail ∧ first.opensPlain = true := by
  have hstarts := h.starts
  cases ts with
  | nil => exact absurd hstarts Bool.false_ne_true
  | cons first tail =>
    rw [startsPhrase, Bool.and_eq_true] at hstarts
    exact ⟨first, tail, rfl, by simp [Token.opensPlain, hstarts.1]⟩

/-- A declaration starts with a token that a statement can start with, and not like an
    expression. -/
theorem Declares.opens {u : DeclTree} (h : Declares ts u) :
    ∃ first tail, ts = first :: tail ∧ first.opensPlain = true ∧
      ∀ rest, startsPhrase (first :: (tail ++ rest)) = false := by
  have hclosed : ∀ {token : Token} {rest : List Token}, token.opensPhrase = false →
      startsPhrase (token :: rest) = false := by
    intro token rest h
    rw [startsPhrase, h, Bool.false_and]
  cases h with
  | @decl storage precision typeName shape name ts init hstorage hshape hname hinit =>
    have htype : isTypeName typeName = true := by rw [isTypeName, hshape, Option.isSome_some]
    cases storage with
    | some word =>
      have hmem : word ∈ storageWords := hstorage word rfl
      have hall : storageWords.all (fun w => !(Token.word w).opensPhrase) = true := by decide
      have hword : (Token.word word).opensPhrase = false := by
        simpa using List.all_eq_true.mp hall word hmem
      exact ⟨_, _, rfl, by simp [Token.opensPlain, hmem], fun rest => hclosed hword⟩
    | none =>
      cases precision with
      | some precision =>
        have hword : (Token.ofPrecision precision).opensPhrase = false := by
          cases precision <;> decide
        exact ⟨_, _, rfl, by cases precision <;> decide, fun rest => hclosed hword⟩
      | none =>
        -- The name of a type with another word after it is applied to nothing.
        refine ⟨_, _, rfl, by simp [Token.opensPlain, Token.opensPhrase, htype], fun rest => ?_⟩
        simp [startsPhrase, Token.namesType, htype]

/-- A declaration or an expression starts with a token that it can start with. -/
theorem Plain.opens (h : Plain ts t) :
    ∃ first tail, ts = first :: tail ∧ first.opensPlain = true := by
  cases h with
  | decl h =>
    obtain ⟨first, tail, rfl, hfirst, -⟩ := h.opens
    exact ⟨first, tail, rfl, hfirst⟩
  | expr h => exact h.opens

/-- A token that a declaration or an expression can start with is none that they cannot start
    with. -/
theorem Token.ne_of_opensPlain {token other : Token} (h : token.opensPlain = true)
    (hother : other.opensPlain = false) : token ≠ other := by
  rintro rfl
  rw [h] at hother
  exact Bool.noConfusion hother

/-- What starts like a declaration or an expression is one. -/
theorem Token.form_of_opensPlain {token : Token} (h : token.opensPlain = true) :
    token.form = .plain := by
  -- None of the tokens with a form of their own opens a declaration or an expression.
  have hall : forms.all (!·.1.opensPlain) = true := by decide
  have hnone : forms.find? (·.1 == token) = none := by
    rw [List.find?_eq_none]
    intro f hf heq
    have hother : f.1.opensPlain = false := by simpa using List.all_eq_true.mp hall f hf
    exact ne_of_opensPlain h hother (beq_iff_eq.mp heq).symm
  rw [form, hnone]
  rfl

/-- Tokens in parentheses after a word, with what follows them. -/
theorem Token.headed_append (word : String) (ts rest : List Token) :
    headed word ts ++ rest = .word word :: .mark "(" :: (ts ++ .mark ")" :: rest) := by
  simp [headed]

/-- No statement starts with an `else` or with what ends statements. -/
theorem Sentence.opens (h : Sentence ts t) :
    ∃ first tail, ts = first :: tail ∧ first ∉ Token.word "else" :: Token.stops := by
  cases h with
  | block h => exact ⟨_, _, rfl, by decide⟩
  | plain h =>
    obtain ⟨first, tail, rfl, hfirst⟩ := h.opens
    -- What a plain statement opens with is neither `else` nor the end of a block.
    have hall : (Token.word "else" :: Token.stops).all (!·.opensPlain) = true := by decide
    refine ⟨first, _, rfl, fun hmem => ?_⟩
    have hother : first.opensPlain = false := by simpa using List.all_eq_true.mp hall first hmem
    exact Token.ne_of_opensPlain hfirst hother rfl
  | fixed h =>
    -- The statements without parts are a short list.
    have hall : ∀ f ∈ fixedStatements, ∃ first tail, f.1 = first :: tail ∧
        first ∉ Token.word "else" :: Token.stops := by
      intro f hf
      simp only [fixedStatements, List.mem_cons, List.not_mem_nil, or_false] at hf
      rcases hf with rfl | rfl | rfl | rfl | rfl <;> exact ⟨_, _, rfl, by decide⟩
    exact hall _ h
  | _ => exact ⟨_, _, rfl, by decide⟩

/-- A label ends the statements in front of it, but is no brace. -/
theorem Label.opens {l : Option Tree} (h : Label ts l) :
    ∃ first tail, ts = first :: tail ∧ first ∈ Token.stops ∧ first ≠ .mark "\x7d" := by
  cases h <;> exact ⟨_, _, rfl, by decide, by decide⟩

/-! ### Reading the parts of statements -/

/-- A phrase is read up to a mark that closes it. -/
theorem settles_phrase {u : Tree} (h : Phrase .sequence ts u) (close : String)
    (hclose : Token.reach? (.mark close) = some 33) (rest : List Token) :
    Settles (readLevel · .sequence (ts ++ .mark close :: rest)) (u, .mark close :: rest) :=
  (readsAs_of_phrase h).ends (ends_cons 33 rest hclose (by decide))

/-- An expression in parentheses is read. -/
theorem settles_enclosed {u : Tree} (h : Phrase .sequence ts u) (rest : List Token) :
    Settles (readEnclosed · (.mark "(" :: (ts ++ .mark ")" :: rest))) (u, rest) := by
  filter_upwards [settles_phrase h ")" (by decide) rest] with fuel hphrase
  simp [readEnclosed, hphrase]

/-- What need not be there is read up to a mark that closes it. -/
theorem settles_upTo {α : Type} {P : List Token → α → Prop} {close : String} {a : Option α}
    {reader : Nat → List Token → Option (α × List Token)} (h : Optionally P ts a)
    (hopens : ∀ {ts a}, P ts a → ∃ first tail, ts = first :: tail ∧ first.opensPlain = true)
    (hclose : (Token.mark close).opensPlain = false) (rest : List Token)
    (hread : ∀ {ts a}, P ts a →
      Settles (reader · (ts ++ .mark close :: rest)) (a, .mark close :: rest)) :
    Settles (fun fuel => readUpTo close (reader fuel) (ts ++ .mark close :: rest)) (a, rest) := by
  cases h with
  | none => exact .of_forall fun fuel => by simp [readUpTo]
  | @some ts a h =>
    -- What is there does not start with the closing mark, so it is read.
    obtain ⟨first, tail, rfl, hfirst⟩ := hopens h
    have hne : first ≠ .mark close := Token.ne_of_opensPlain hfirst hclose
    filter_upwards [hread h] with fuel hread
    rw [List.cons_append] at hread
    simp [readUpTo, hne, hread]

/-- An expression that need not be there is read up to a mark that closes it. -/
theorem settles_upTo_phrase {o : Option Tree} (h : Optionally (Phrase .sequence) ts o)
    (close : String) (hopens : (Token.mark close).opensPlain = false)
    (hclose : Token.reach? (.mark close) = some 33) (rest : List Token) :
    Settles (fun fuel => readUpTo close (readLevel fuel .sequence) (ts ++ .mark close :: rest))
      (o, rest) :=
  settles_upTo h (fun h => h.opens) hopens rest fun h => settles_phrase h close hclose rest

/-- The initial value of a declaration is read up to the semicolon. -/
theorem settles_initial {o : Option Tree} (h : Optionally Initial ts o) (rest : List Token) :
    Settles (readInitial · (ts ++ .mark ";" :: rest)) (o, .mark ";" :: rest) := by
  cases h with
  | none => exact .of_forall fun fuel => by simp [readInitial]
  | some h =>
    obtain ⟨h⟩ := h
    have hends : Ends .assignment (.mark ";" :: rest) := ends_cons 33 rest (by decide) (by decide)
    filter_upwards [(readsAs_of_phrase h).ends hends] with fuel hvalue
    simp [readInitial, hvalue]

/-- A word of a class that need not be there is read, if no such word comes after it. -/
theorem readClass_append {α : Type} {all : List α} {token : α → Token} {o : Option α}
    {first : Token} (ho : ∀ a ∈ o, all.find? (token · == token a) = some a)
    (hfirst : ∀ a ∈ all, token a ≠ first) (rest : List Token) :
    readClass all token (o.toList.map token ++ first :: rest) = (o, first :: rest) := by
  cases o with
  | none =>
    have hnone : all.find? (token · == first) = none := by simpa [List.find?_eq_none] using hfirst
    simp [readClass, hnone]
  | some a => simp [readClass, ho a rfl]

/-- A declaration is read up to the semicolon. -/
theorem settles_decl {u : DeclTree} (h : Declares ts u) (rest : List Token) :
    Settles (readDecl · (ts ++ .mark ";" :: rest)) (u, .mark ";" :: rest) := by
  cases h with
  | @decl storage precision typeName shape name ts init hstorage hshape hname hinit =>
    have htype : isTypeName typeName = true := by rw [isTypeName, hshape, Option.isSome_some]
    -- Each class of words is read as long as it lasts, so none may run on into the next.
    have hother : ∀ {token : Token}, token.namesType = false → token ≠ .word typeName := by
      rintro token hno rfl
      exact absurd htype (by simpa [Token.namesType] using hno)
    have hprecision : ∀ us, readClass [.reduced, .full] Token.ofPrecision
        (precision.toList.map Token.ofPrecision ++ .word typeName :: us) =
          (precision, .word typeName :: us) :=
      readClass_append (fun p _ => by cases p <;> decide)
        fun p _ => hother (by cases p <;> decide)
    -- Neither a precision nor the name of a type is a word for a storage class.
    have hnext : ∀ us, ∃ first tail,
        precision.toList.map Token.ofPrecision ++ .word typeName :: us = first :: tail ∧
          ∀ w ∈ storageWords, Token.word w ≠ first := by
      intro us
      cases precision with
      | some precision => exact ⟨_, _, rfl, by cases precision <;> decide⟩
      | none =>
        have hall : storageWords.all (fun w => !(Token.word w).namesType) = true := by decide
        exact ⟨_, _, rfl, fun w hw => hother (by simpa using List.all_eq_true.mp hall w hw)⟩
    have hclass : ∀ us, readClass storageWords Token.word
        (storage.toList.map Token.word ++ (precision.toList.map Token.ofPrecision ++
          .word typeName :: us)) =
          (storage, precision.toList.map Token.ofPrecision ++ .word typeName :: us) := by
      intro us
      -- Each storage word is found among the storage words as itself.
      have hall : ∀ w ∈ storageWords, storageWords.find? (Token.word · == .word w) = some w := by
        decide
      obtain ⟨first, tail, hfirst, hno⟩ := hnext us
      rw [hfirst]
      exact readClass_append (fun w hw => hall w (hstorage w hw)) hno tail
    filter_upwards [settles_initial hinit rest] with fuel hvalue
    rw [List.append_assoc, List.append_assoc, List.cons_append, readDecl, hclass]
    simp [hprecision, hshape, hvalue]

/-- A declaration or an expression is read up to the semicolon. -/
theorem settles_plain (h : Plain ts t) (rest : List Token) :
    Settles (readPlain · (ts ++ .mark ";" :: rest)) (t, .mark ";" :: rest) := by
  cases h with
  | decl h =>
    -- A declaration does not start as an expression does, which is how the two are told apart.
    obtain ⟨first, tail, rfl, -, hstarts⟩ := h.opens
    filter_upwards [settles_decl h rest] with fuel hdecl
    rw [List.cons_append] at hdecl ⊢
    rw [readPlain, hstarts, if_neg Bool.false_ne_true, hdecl]
    rfl
  | expr h =>
    filter_upwards [settles_phrase h ";" (by decide) rest] with fuel hphrase
    rw [readPlain, if_pos (startsPhrase_append h.starts _), hphrase]
    rfl

/-- A statement that is always spelled the same is read by its tokens. -/
theorem readFixed_append (h : (ts, t) ∈ fixedStatements) (rest : List Token) :
    readFixed (ts ++ rest) = some (t, rest) := by
  simp only [fixedStatements, List.mem_cons, List.not_mem_nil, or_false, Prod.mk.injEq] at h
  rcases h with ⟨rfl, rfl⟩ | ⟨rfl, rfl⟩ | ⟨rfl, rfl⟩ | ⟨rfl, rfl⟩ | ⟨rfl, rfl⟩ <;> rfl

/-- A statement that is always spelled the same is known by its first token. -/
theorem form_of_fixed (h : (ts, t) ∈ fixedStatements) :
    ∃ first tail, ts = first :: tail ∧ first.form = .fixed := by
  simp only [fixedStatements, List.mem_cons, List.not_mem_nil, or_false, Prod.mk.injEq] at h
  rcases h with ⟨rfl, rfl⟩ | ⟨rfl, rfl⟩ | ⟨rfl, rfl⟩ | ⟨rfl, rfl⟩ | ⟨rfl, rfl⟩ <;>
    exact ⟨_, _, rfl, rfl⟩

/-- A label is read. -/
theorem settles_label {l : Option Tree} (h : Label ts l) (rest : List Token) :
    Settles (readLabel · (ts ++ rest)) (l, rest) := by
  cases h with
  | value h =>
    filter_upwards [settles_phrase h ":" (by decide) rest] with fuel hphrase
    simp [readLabel, hphrase]
  | default => exact .of_forall fun fuel => by simp [readLabel]

/-! ### Reading statements -/

/-- Tokens of a statement are read as a tree, unless an `else` follows that would belong to it. -/
def ReadsStmt (ts : List Token) (t : StmtTree) : Prop :=
  ∀ ⦃rest⦄, (t.isOpen = true → rest.head? ≠ some (.word "else")) →
    Settles (readStmt · (ts ++ rest)) (t, rest)

/-- Statements are read up to a token that ends them. -/
theorem settles_stmts {parts : List (List Token × StmtTree)} {stop : Token}
    (h : ∀ part ∈ parts, Sentence part.1 part.2) (hread : ∀ part ∈ parts, ReadsStmt part.1 part.2)
    (hstop : stop ∈ Token.stops) (rest : List Token) :
    Settles (readStmts · ((parts.map (·.1)).flatten ++ stop :: rest))
      (parts.map (·.2), stop :: rest) := by
  induction parts with
  -- Nothing but the stop is left, and the reader sees it at once.
  | nil =>
    refine .of_step (.of_forall fun fuel => ?_)
    simp [readStmts, hstop]
  | cons part parts ih =>
    obtain ⟨first, tail, hpart, hfirst⟩ := (h part List.mem_cons_self).opens
    have hmore := ih (fun p hp => h p (List.mem_cons_of_mem _ hp))
      fun p hp => hread p (List.mem_cons_of_mem _ hp)
    -- The next statement starts with no `else`, nor does what ends all of them.
    have helse : ((parts.map (·.1)).flatten ++ stop :: rest).head? ≠ some (.word "else") := by
      cases parts with
      | nil =>
        have hall : Token.stops.all (· != .word "else") = true := by decide
        simpa using List.all_eq_true.mp hall stop hstop
      | cons next parts =>
        obtain ⟨first', tail', hnext, hfirst'⟩ :=
          (h next (List.mem_cons_of_mem _ List.mem_cons_self)).opens
        simp only [List.mem_cons, not_or] at hfirst'
        simp [hnext, hfirst'.1]
    have hsplit : ((part :: parts).map (·.1)).flatten ++ stop :: rest =
        first :: (tail ++ ((parts.map (·.1)).flatten ++ stop :: rest)) := by
      simp [hpart]
    -- The statement is read up to where the rest of the list starts.
    rw [hsplit]
    generalize (parts.map (·.1)).flatten ++ stop :: rest = more at hmore helse ⊢
    have hstmt := hread part List.mem_cons_self fun _ => helse
    rw [hpart, List.cons_append] at hstmt
    have hgoes : first ∉ Token.stops := fun hmem => hfirst (List.mem_cons_of_mem _ hmem)
    refine .of_step ?_
    filter_upwards [hstmt, hmore] with fuel hstmt hmore
    rw [readStmts]
    simp [hgoes, hstmt, hmore]

/-- The cases of a `switch` are read up to the brace that closes them. -/
theorem settles_cases {cases : List CaseTokens}
    (hlabels : ∀ c ∈ cases, Label c.label.1 c.label.2)
    (hbodies : ∀ c ∈ cases, ∀ part ∈ c.body, Sentence part.1 part.2)
    (hread : ∀ c ∈ cases, ∀ part ∈ c.body, ReadsStmt part.1 part.2) (rest : List Token) :
    Settles (readCases · ((cases.map CaseTokens.tokens).flatten ++ .mark "\x7d" :: rest))
      (cases.map CaseTokens.tree, .mark "\x7d" :: rest) := by
  induction cases with
  | nil =>
    -- The brace ends the list of cases.
    refine .of_step (.of_forall fun fuel => ?_)
    simp [readCases]
  | cons c cases ih =>
    have hmore := ih (fun c hc => hlabels c (List.mem_cons_of_mem _ hc))
      (fun c hc => hbodies c (List.mem_cons_of_mem _ hc))
      fun c hc => hread c (List.mem_cons_of_mem _ hc)
    -- What follows a case is the label of the next one or the brace.
    obtain ⟨stop, more, hnext, hstop⟩ : ∃ stop more,
        (cases.map CaseTokens.tokens).flatten ++ .mark "\x7d" :: rest = stop :: more ∧
          stop ∈ Token.stops := by
      cases cases with
      | nil => exact ⟨_, _, rfl, by decide⟩
      | cons next cases =>
        obtain ⟨stop, tail, hnext, hstop, -⟩ :=
          (hlabels next (List.mem_cons_of_mem _ List.mem_cons_self)).opens
        exact ⟨stop, _, by simp [CaseTokens.tokens, hnext]; rfl, hstop⟩
    rw [hnext] at hmore
    have hlabel := hlabels c List.mem_cons_self
    obtain ⟨first, tail, hfirst, -, hbrace⟩ := hlabel.opens
    -- The statements of the case end at that token.
    have hbody := settles_stmts (hbodies c List.mem_cons_self) (hread c List.mem_cons_self) hstop
      more
    have hsplit : ((c :: cases).map CaseTokens.tokens).flatten ++ .mark "\x7d" :: rest =
        c.label.1 ++ ((c.body.map (·.1)).flatten ++ stop :: more) := by
      rw [← hnext]
      simp [CaseTokens.tokens]
    rw [hsplit]
    refine .of_step ?_
    have hread := settles_label hlabel ((c.body.map (·.1)).flatten ++ stop :: more)
    filter_upwards [hread, hbody, hmore] with fuel hlabel hbody hmore
    rw [hfirst, List.cons_append] at hlabel ⊢
    rw [readCases]
    simp [hbrace, hlabel, hbody, hmore, CaseTokens.tree]

/-- A statement is read as its tree. -/
theorem readsStmt_of_sentence (h : Sentence ts t) : ReadsStmt ts t := by
  -- By induction on the sentence. The condition on what follows is passed on to the statement that
  -- ends the sentence; a statement inside is followed by what the sentence has there.
  induction h with
  | @block parts h ih =>
    intro rest hrest
    have hbrace : Token.mark "\x7d" ∈ Token.stops := by decide
    refine .of_step ?_
    filter_upwards [settles_stmts h ih hbrace rest] with fuel hbody
    rw [List.cons_append, List.cons_append, List.append_assoc, List.singleton_append, readStmt]
    simp [show Token.form (.mark "\x7b") = .block from rfl, hbody]
  -- A plain statement ends with its semicolon.
  | @plain ts t h =>
    intro rest hrest
    obtain ⟨first, tail, hts, hfirst⟩ := h.opens
    refine .of_step ?_
    filter_upwards [settles_plain h rest] with fuel hplain
    rw [List.append_assoc, List.singleton_append]
    rw [hts, List.cons_append] at hplain ⊢
    rw [readStmt, Token.form_of_opensPlain hfirst]
    simp [hplain]
  | @ifThen cs cond ts t hcond hthen ih =>
    intro rest hrest
    have helse : rest.head? ≠ some (.word "else") := hrest rfl
    refine .of_step ?_
    filter_upwards [settles_enclosed hcond (ts ++ rest), ih fun _ => helse] with fuel hcond hthen
    rw [List.append_assoc, Token.headed_append, readStmt]
    simp [show Token.form (.word "if") = .ifElse from rfl, hcond, hthen, helse]
  | @ifElse cs cond ts t us u hcond hthen hclosed helse ihthen ihelse =>
    intro rest hrest
    -- The first branch is closed, so the `else` after it is left for this `if`.
    have hthen' := @ihthen (.word "else" :: (us ++ rest)) fun hopen => by
      rw [hclosed] at hopen
      exact absurd hopen Bool.false_ne_true
    refine .of_step ?_
    filter_upwards [settles_enclosed hcond (ts ++ .word "else" :: (us ++ rest)), hthen',
      ihelse hrest] with fuel hcond hthen helse
    rw [List.append_assoc, List.append_assoc, List.cons_append, Token.headed_append, readStmt]
    simp [show Token.form (.word "if") = .ifElse from rfl, hcond, hthen, helse]
  | @forLoop is init cs cond ss step ts t hinit hcond hstep hbody ih =>
    intro rest hrest
    have hsplit : Token.headed "for" (is ++ .mark ";" :: cs ++ .mark ";" :: ss) ++ ts ++ rest =
        .word "for" :: .mark "(" :: (is ++ .mark ";" :: (cs ++ .mark ";" ::
          (ss ++ .mark ")" :: (ts ++ rest)))) := by
      simp [Token.headed]
    -- The header is read from the left: each part ends at its semicolon, the last at the
    -- parenthesis.
    have hstep' := settles_upTo_phrase hstep ")" (by decide) (by decide) (ts ++ rest)
    have hcond' := settles_upTo_phrase hcond ";" (by decide) (by decide)
      (ss ++ .mark ")" :: (ts ++ rest))
    have hinit' := settles_upTo hinit (fun h => h.opens) (by decide)
      (cs ++ .mark ";" :: (ss ++ .mark ")" :: (ts ++ rest))) fun h => settles_plain h _
    rw [hsplit]
    refine .of_step ?_
    filter_upwards [hinit', hcond', hstep', ih hrest] with fuel hinit hcond hstep hbody
    rw [readStmt]
    simp [show Token.form (.word "for") = .forLoop from rfl, hinit, hcond, hstep, hbody]
  | @whileLoop cs cond ts t hcond hbody ih =>
    intro rest hrest
    refine .of_step ?_
    filter_upwards [settles_enclosed hcond (ts ++ rest), ih hrest] with fuel hcond hbody
    rw [List.append_assoc, Token.headed_append, readStmt]
    simp [show Token.form (.word "while") = .whileLoop from rfl, hcond, hbody]
  | @doWhile cs cond ts t hbody hcond ih =>
    intro rest hrest
    have hsplit : .word "do" :: ts ++ Token.headed "while" cs ++ [.mark ";"] ++ rest =
        .word "do" :: (ts ++ .word "while" :: .mark "(" :: (cs ++ .mark ")" ::
          .mark ";" :: rest)) := by
      simp [Token.headed]
    -- A `while` follows the body, and no `else`.
    have hbody' := @ih (.word "while" :: .mark "(" :: (cs ++ .mark ")" ::
      .mark ";" :: rest)) fun _ => by simp
    rw [hsplit]
    refine .of_step ?_
    filter_upwards [hbody', settles_enclosed hcond (.mark ";" :: rest)] with fuel hbody hcond
    rw [readStmt]
    simp [show Token.form (.word "do") = .doWhile from rfl, hbody, hcond]
  | @switchOn vs value cases hvalue hlabels hbodies ih =>
    intro rest hrest
    refine .of_step ?_
    filter_upwards [settles_enclosed hvalue (.mark "\x7b" ::
      ((cases.map CaseTokens.tokens).flatten ++ .mark "\x7d" :: rest)),
      settles_cases hlabels hbodies ih rest] with fuel hvalue hcases
    rw [List.append_assoc, List.append_assoc, Token.headed_append, readStmt]
    simp [show Token.form (.word "switch") = .switchOn from rfl, hvalue, hcases]
  | @returnWith ts value h =>
    intro rest hrest
    refine .of_step ?_
    filter_upwards [settles_upTo_phrase h ";" (by decide) (by decide) rest] with fuel hvalue
    rw [List.cons_append, List.cons_append, List.append_assoc, List.singleton_append, readStmt]
    simp [show Token.form (.word "return") = .returnWith from rfl, hvalue]
  -- The statements without parts are told by their first token.
  | @fixed ts t h =>
    intro rest hrest
    obtain ⟨first, tail, hts, hform⟩ := form_of_fixed h
    refine .of_step (.of_forall fun fuel => ?_)
    have hfixed := readFixed_append h rest
    rw [hts, List.cons_append] at hfixed ⊢
    rw [readStmt, hform]
    exact hfixed

/-- Tokens are a statement with one tree at most. -/
theorem Sentence.unique {u : StmtTree} (h : Sentence ts t) (h' : Sentence ts u) : t = u := by
  have htrees := (@readsStmt_of_sentence _ _ h [] fun _ => by simp).unique
    (readsStmt_of_sentence h' fun _ => by simp)
  exact congrArg Prod.fst htrees

end ShaderGen.Glsl
