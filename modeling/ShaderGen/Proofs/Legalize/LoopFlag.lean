import ShaderGen.Legalize.DoWhile
import ShaderGen.Proofs.Semantics.Exchange

/-!
# A flag in front of a loop

The loop that `DoWhile.replace` makes tests its condition at the start of a turn, unless the flag
says that no turn has been made yet. The invariant is that the flag is set from the first turn on:
a run that stands before the test with the flag set has come to the condition of the original
loop, and one with the flag not set has come to its body (`resumes_of_forever`). The other way,
every turn of the original is a turn of the replacement from behind its test on
(`entered_of_forever`).
-/

namespace ShaderGen.Legalize.DoWhile

open Behaviour Stmt

variable {α : Type} {m : Machine α} {flag : String} {cond : Expr}

/-- The flag is a local variable and has a truth value. -/
def HasFlag (m : Machine α) (flag : String) (b : Bool) (σ : State α) : Prop :=
  ∃ content, σ.locals flag = some content ∧ m.truth (content 0) = b

/-- The state with the flag set. -/
def raise (m : Machine α) (flag : String) (σ : State α) : State α :=
  σ.write ⟨.named flag, 0⟩ (m.literal (.bool true))

/-- Tests the condition once the flag is set. -/
def guard (m : Machine α) (flag : String) (cond : Expr) : Behaviour α :=
  branch m (.ofVar flag .bool) (test m cond) skip

/-- A turn of the replacement from behind its test on. -/
def afterGuard (m : Machine α) (flag : String) (B : Behaviour α) : Behaviour α :=
  seq (change (raise m flag)) B

/-- A turn of the replacement. -/
def turn (m : Machine α) (flag : String) (cond : Expr) (B : Behaviour α) : Behaviour α :=
  seq (guard m flag cond) (afterGuard m flag B)

/-! ### What the pieces of the replacement do -/

/-- A negated condition exchanges the branches. -/
theorem branch_not (cond : Expr) (A B : Behaviour α) :
    branch m (.ofUnary .not cond) A B = branch m cond B A := by
  -- The negation computes the other truth value, with the effects of the condition.
  have hvalues : (Expr.ofUnary .not cond).values m =
      (fun vs => [m.literal (.bool (!m.holds vs))]) <$> cond.values m := by
    simp only [Expr.values, Expr.eval, Expr.ofUnary, UnaryOp.writesOperand, Machine.unaryResult,
      Bool.false_eq_true, if_false, if_true, bind_pure_comp, Functor.map_map,
      Machine.values_temporaries]
    rfl
  unfold branch
  rw [hvalues, after_map]
  refine congrArg (after _) (funext fun vs => ?_)
  cases h : m.holds vs <;> simp [Machine.holds, m.truth_literal]

/-- A constant condition is passed. -/
theorem test_true : test m (.bool true) = skip := by
  have hvalues : (Expr.bool true).values m = pure [m.literal (.bool true)] := rfl
  unfold test branch
  rw [hvalues, after_pure]
  exact if_pos (m.truth_literal true)

/-- A choice on the flag is one on what it holds. -/
theorem branch_var (σ : State α) (A B : Behaviour α) :
    branch m (.ofVar flag .bool) A B σ =
      if m.truth (σ.read (.named flag) 0) then A σ else B σ := by
  show (if m.truth (σ.read (.named flag) 0) then A else B) σ = _
  split <;> rfl

/-- The exit check is what the definition above says. -/
theorem behaviour_exitCheck :
    (exitCheck (.ofVar flag .bool) cond).behaviour m = guard m flag cond := by
  show branch m _ (inner m (.block [_])) skip = guard m flag cond
  rw [inner_block, listBehaviour_singleton]
  show branch m _ (inScope [] (branch m _ (inner m (.block [_])) skip)) skip = guard m flag cond
  rw [inner_block, listBehaviour_singleton, inScope_nil, branch_not]
  show branch m _ (branch m cond skip (inScope [] (exit .breakOut))) skip = guard m flag cond
  rw [inScope_nil]
  rfl

/-- Raising the flag is a change of the state. -/
theorem behaviour_raise :
    (Stmt.assign (.ofVar flag .bool) (.bool true)).behaviour m = change (raise m flag) := by
  rfl

/-- The replacement declares its flag and makes turns. -/
theorem listBehaviour_replace (body : Stmt) :
    listBehaviour m (replace flag (.doWhile body cond)) =
      seq (declare flag fun i => [m.literal (.bool false)].getD i m.undefined)
        (Forever (turn m flag cond (body.inner m))) := by
  have hturn : inner m (.block [exitCheck (.ofVar flag .bool) cond,
      .assign (.ofVar flag .bool) (.bool true), body.toBlock]) =
      turn m flag cond (body.inner m) := by
    -- Nothing in the loop declares a name in its own scope.
    have hnames : listDeclared [exitCheck (.ofVar flag .bool) cond,
        .assign (.ofVar flag .bool) (.bool true), body.toBlock] = [] := by
      simp only [listDeclared_cons, declared_toBlock]
      rfl
    rw [inner_block, hnames]
    show inScope [] (seq _ (seq _ (listBehaviour m [_]))) = _
    rw [inScope_nil, listBehaviour_singleton, behaviour_exitCheck, behaviour_raise,
      behaviour_toBlock]
    rfl
  have hdecl : (Stmt.decl (.plain flag .bool (some (.bool false)))).behaviour m =
      declare flag fun i => [m.literal (.bool false)].getD i m.undefined := rfl
  show seq _ (listBehaviour m [_]) = _
  rw [listBehaviour_singleton, hdecl]
  show seq _ (Forever (seq (test m (.bool true)) (inner m _))) = _
  rw [hturn, test_true, skip_seq]

/-! ### The flag -/

variable {hidden : String → Bool} {b : Bool} {σ σ' τ : State α} {o : Outcome α}

/-- After its declaration the flag is down. -/
theorem hasFlag_declared (σ : State α) :
    HasFlag m flag false
      (σ.setLocal flag (some fun i => [m.literal (.bool false)].getD i m.undefined)) :=
  ⟨_, if_pos rfl, m.truth_literal false⟩

/-- Once raised, the flag is up. -/
theorem HasFlag.raise (h : HasFlag m flag b σ) : HasFlag m flag true (raise m flag σ) := by
  obtain ⟨content, hcontent, -⟩ := h
  refine ⟨fun i => if i = 0 then m.literal (.bool true) else content i, ?_, ?_⟩
  · simp [DoWhile.raise, State.write, hcontent, State.act, State.setLocal]
  · simp [m.truth_literal]

/-- Raising the flag is not seen. -/
theorem HasFlag.visible_raise (h : HasFlag m flag b σ) (hflag : hidden flag = true) :
    (DoWhile.raise m flag σ).visible hidden = σ.visible hidden := by
  obtain ⟨content, hcontent, -⟩ := h
  have haction : (Action.write ⟨.named flag, 0⟩ (m.literal (.bool true))).isHidden hidden = true :=
    hflag
  unfold DoWhile.raise State.write
  rw [State.visible_act_of_hidden haction]
  simp only [hcontent]
  exact State.visible_setLocal_of_hidden hflag _ σ

/-- A run that keeps the flag leaves it as it was. -/
theorem HasFlag.keep (h : HasFlag m flag b σ) (hkeeps : σ.Keeps hidden [] τ)
    (hflag : hidden flag = true) : HasFlag m flag b τ := by
  obtain ⟨content, hcontent, htruth⟩ := h
  exact ⟨content, (hkeeps flag hflag List.not_mem_nil).trans hcontent, htruth⟩

/-- Raising the flag changes no other name. -/
theorem keeps_raise (σ : State α) : σ.Keeps hidden [flag] (raise m flag σ) := by
  intro x _ hx
  unfold raise State.write
  dsimp only
  cases σ.locals flag with
  | none => rfl
  | some content => exact if_neg fun heq => hx (List.mem_singleton.mpr heq)

/-- With the flag set the condition is tested; otherwise nothing is. -/
theorem guard_eq (h : HasFlag m flag b σ) :
    guard m flag cond σ = if b then test m cond σ else skip σ := by
  obtain ⟨content, hcontent, rfl⟩ := h
  unfold guard
  rw [branch_var]
  simp [State.read, hcontent]

/-- The test of a condition lets a loop go on only where the condition holds. -/
theorem eq_normal_of_test (h : test m cond σ o τ) (ho : o.goesOn = true) : o = .normal := by
  unfold test branch after at h
  cases hrun : (cond.values m).run.run σ with
  | none => simp [hrun] at h
  | some r =>
    obtain ⟨r, ρ⟩ := r
    cases r with
    | error d =>
      -- The condition may have stopped the fragment, or it holds, or it breaks.
      simp only [hrun] at h
      rw [h.1] at ho
      cases ho
    | ok vs =>
      simp only [hrun] at h
      split at h
      · exact h.1
      · rw [h.1] at ho
        cases ho

/-! ### From the loop to its replacement and back -/

variable {B B' : Behaviour α}

/-- A run of the replacement that stands behind the test of its turn. -/
def Entered (m : Machine α) (flag : String) (cond : Expr) (B : Behaviour α) : Behaviour α :=
  fun σ o τ =>
    (∃ o' ρ, afterGuard m flag B σ o' ρ ∧ o'.goesOn = true ∧
      Forever (turn m flag cond B) ρ o τ) ∨
    ∃ o', afterGuard m flag B σ o' τ ∧ o'.goesOn = false ∧ o = o'.left

/-- A run of the loop that stands at its condition. -/
def Resumed (m : Machine α) (cond : Expr) (B : Behaviour α) : Behaviour α :=
  fun σ o τ =>
    (∃ ρ, test m cond σ .normal ρ ∧ Forever (andThen B (test m cond)) ρ o τ) ∨
    ∃ o', test m cond σ o' τ ∧ o'.goesOn = false ∧ o = o'.left

/-- With the flag set, a turn of the replacement begins with the test. -/
theorem forever_of_entered {ρ : State α} (hflag : HasFlag m flag true σ)
    (htest : test m cond σ .normal ρ) (h : Entered m flag cond B ρ o τ) :
    Forever (turn m flag cond B) σ o τ := by
  have hguard : guard m flag cond σ .normal ρ := by
    rw [guard_eq hflag]
    exact htest
  rcases h with ⟨o', ρ', hrest, ho, hloop⟩ | ⟨o', hrest, ho, rfl⟩
  · exact .again (.inl ⟨ρ, hguard, hrest⟩) ho hloop
  · exact .leave (.inl ⟨ρ, hguard, hrest⟩) ho rfl

/-- Without the flag set, it begins behind the test. -/
theorem forever_of_entered_first (hflag : HasFlag m flag false σ)
    (h : Entered m flag cond B σ o τ) : Forever (turn m flag cond B) σ o τ := by
  have hguard : guard m flag cond σ .normal σ := by
    rw [guard_eq hflag]
    exact ⟨rfl, rfl⟩
  rcases h with ⟨o', ρ', hrest, ho, hloop⟩ | ⟨o', hrest, ho, rfl⟩
  · exact .again (.inl ⟨σ, hguard, hrest⟩) ho hloop
  · exact .leave (.inl ⟨σ, hguard, hrest⟩) ho rfl

/-- What the body of the loop does, a turn of the replacement does behind its test. -/
theorem exists_afterGuard (hB : Matches hidden [] B B') (hhidden : hidden flag = true)
    (hflag : HasFlag m flag b σ') (hσ : σ.visible hidden = σ'.visible hidden) (h : B σ o τ) :
    ∃ τ', afterGuard m flag B' σ' o τ' ∧ τ.visible hidden = τ'.visible hidden ∧
      HasFlag m flag true τ' := by
  obtain ⟨τ', hB', hτ⟩ := hB.forward (hσ.trans (hflag.visible_raise hhidden).symm) h
  exact ⟨τ', .inl ⟨_, ⟨rfl, rfl⟩, hB'⟩, hτ, hflag.raise.keep (hB.keeps hB') hhidden⟩

/-- A loop that tests at the end is entered with the flag down, and goes on with it up. -/
theorem entered_of_forever (hB : Matches hidden [] B B') (hcond : cond.mentions hidden = false)
    (hhidden : hidden flag = true) (h : Forever (andThen B (test m cond)) σ o τ) :
    ∀ b σ', HasFlag m flag b σ' → σ.visible hidden = σ'.visible hidden →
      ∃ τ', Entered m flag cond B' σ' o τ' ∧ τ.visible hidden = τ'.visible hidden := by
  have hK := Matches.test m hcond
  -- The flag is set behind the body, so the test is reached there.
  induction h with
  | @again σ ρ τ o o₁ first ho₁ rest ih =>
    intro b σ' hflag hσ
    -- Either the body was run and the test held, or the test was not reached.
    rcases first with ⟨o₂, ρ₂, hbody, ho₂, htest⟩ | ⟨hno, -⟩
    · obtain ⟨ρ₂', hbody', hρ₂, hflag₂⟩ := exists_afterGuard hB hhidden hflag hσ hbody
      cases eq_normal_of_test htest ho₁
      obtain ⟨ρ', htest', hρ⟩ := hK.forward hρ₂ htest
      obtain ⟨τ', hentered, hτ⟩ := ih true ρ' (hflag₂.keep (hK.keeps htest') hhidden) hρ
      exact ⟨τ', .inl ⟨o₂, ρ₂', hbody', ho₂, forever_of_entered hflag₂ htest' hentered⟩, hτ⟩
    · rw [ho₁] at hno
      cases hno
  | @leave σ τ o o₁ last ho₁ hout =>
    intro b σ' hflag hσ
    -- The last turn ends in the test, or in the body before it.
    rcases last with ⟨o₂, ρ₂, hbody, ho₂, htest⟩ | ⟨-, hbody⟩
    · obtain ⟨ρ₂', hbody', hρ₂, hflag₂⟩ := exists_afterGuard hB hhidden hflag hσ hbody
      obtain ⟨τ', htest', hτ⟩ := hK.forward hρ₂ htest
      have hguard : guard m flag cond ρ₂' o₁ τ' := by
        rw [guard_eq hflag₂]
        exact htest'
      have hne : o₁ ≠ .normal := by
        rintro rfl
        cases ho₁
      exact ⟨τ', .inl ⟨o₂, ρ₂', hbody', ho₂, .leave (.inr ⟨hne, hguard⟩) ho₁ hout⟩, hτ⟩
    · obtain ⟨τ', hbody', hτ, -⟩ := exists_afterGuard hB hhidden hflag hσ hbody
      exact ⟨τ', .inr ⟨o₁, hbody', ho₁, hout⟩, hτ⟩

/-- What a turn of the replacement does behind its test, the body of the loop does. -/
theorem exists_body (hB : Matches hidden [] B B') (hhidden : hidden flag = true)
    (hflag : HasFlag m flag b σ') (hσ : σ.visible hidden = σ'.visible hidden)
    {τ' : State α} (h : afterGuard m flag B' σ' o τ') :
    ∃ τ, B σ o τ ∧ τ.visible hidden = τ'.visible hidden ∧ HasFlag m flag true τ' := by
  rcases h with ⟨ρ, ⟨-, rfl⟩, hB'⟩ | ⟨hne, ho, -⟩
  · obtain ⟨τ, hbody, hτ⟩ := hB.backward (hσ.trans (hflag.visible_raise hhidden).symm) hB'
    exact ⟨τ, hbody, hτ, hflag.raise.keep (hB.keeps hB') hhidden⟩
  · exact absurd ho hne

/-- Where a run of the replacement stands in the original, as the flag tells: at the condition, or
    at the body. -/
def Standing (m : Machine α) (cond : Expr) (B : Behaviour α) (b : Bool) : Behaviour α :=
  if b then Resumed m cond B else Forever (andThen B (test m cond))

/-- A run that passes the test of its turn and is a run of the loop from there on. -/
theorem standing_of_guard (hcond : cond.mentions hidden = false) (hhidden : hidden flag = true)
    {ρ' τ' : State α} (hflag : HasFlag m flag b σ') (hσ : σ.visible hidden = σ'.visible hidden)
    (hguard : guard m flag cond σ' .normal ρ')
    (hloop : ∀ b ρ, HasFlag m flag b ρ' → ρ.visible hidden = ρ'.visible hidden →
      ∃ τ, Forever (andThen B (test m cond)) ρ o τ ∧ τ.visible hidden = τ'.visible hidden) :
    ∃ τ, Standing m cond B b σ o τ ∧ τ.visible hidden = τ'.visible hidden := by
  rw [guard_eq hflag] at hguard
  -- In the first turn the check is passed over, later it is the test at the end of the turn before.
  cases b with
  | false =>
    obtain ⟨-, rfl⟩ := hguard
    exact hloop false σ hflag hσ
  | true =>
    have hK := Matches.test m hcond
    obtain ⟨ρ, htest, hρ⟩ := hK.backward hσ hguard
    obtain ⟨τ, hrun, hτ⟩ := hloop true ρ (hflag.keep (hK.keeps hguard) hhidden) hρ
    exact ⟨τ, .inl ⟨ρ, htest, hrun⟩, hτ⟩

/-- The other way, each turn with the flag is a turn of the loop. -/
theorem standing_of_forever (hB : Matches hidden [] B B') (hcond : cond.mentions hidden = false)
    (hhidden : hidden flag = true) {τ' : State α} (h : Forever (turn m flag cond B') σ' o τ') :
    ∀ b σ, HasFlag m flag b σ' → σ.visible hidden = σ'.visible hidden →
      ∃ τ, Standing m cond B b σ o τ ∧ τ.visible hidden = τ'.visible hidden := by
  -- By induction on the turns of the replacement, whatever the flag is at its head: before the
  -- first turn it is not set, and after each it is.
  have hK := Matches.test m hcond
  induction h with
  | @again σ' ρ' τ' o o₁ first ho₁ rest ih =>
    intro b σ hflag hσ
    rcases first with ⟨ρ₀, hguard, hrest⟩ | ⟨hne, hguard⟩
    · refine standing_of_guard hcond hhidden hflag hσ hguard fun b ρ hflag₀ hρ => ?_
      obtain ⟨ρ₁, hbody, hρ₁, hflag₁⟩ := exists_body hB hhidden hflag₀ hρ hrest
      obtain ⟨τ, hresumed, hτ⟩ := ih true ρ₁ hflag₁ hρ₁
      refine ⟨τ, ?_, hτ⟩
      rcases hresumed with ⟨ρ₂, htest, hrun⟩ | ⟨o₂, htest, ho₂, hout⟩
      · exact .again (.inl ⟨o₁, ρ₁, hbody, ho₁, htest⟩) rfl hrun
      · exact .leave (.inl ⟨o₁, ρ₁, hbody, ho₁, htest⟩) ho₂ hout
    · -- The test goes on only where it ends normally.
      rw [guard_eq hflag] at hguard
      cases b with
      | false => exact absurd hguard.1 hne
      | true => exact absurd (eq_normal_of_test hguard ho₁) hne
  | @leave σ' τ' o o₁ last ho₁ hout =>
    intro b σ hflag hσ
    rcases last with ⟨ρ₀, hguard, hrest⟩ | ⟨hne, hguard⟩
    · refine standing_of_guard hcond hhidden hflag hσ hguard fun b ρ hflag₀ hρ => ?_
      obtain ⟨τ, hbody, hτ, -⟩ := exists_body hB hhidden hflag₀ hρ hrest
      exact ⟨τ, .leave (.inr ⟨ho₁, hbody⟩) ho₁ hout, hτ⟩
    · rw [guard_eq hflag] at hguard
      cases b with
      | false => exact absurd hguard.1 hne
      | true =>
        obtain ⟨τ, htest, hτ⟩ := hK.backward hσ hguard
        exact ⟨τ, .inr ⟨o₁, htest, ho₁, hout⟩, hτ⟩

/-! ### The replacement -/

/-- A turn changes no hidden name but the flag. -/
theorem keeps_turn (hB : Matches hidden [] B B') (hcond : cond.mentions hidden = false)
    (h : turn m flag cond B' σ o τ) : σ.Keeps hidden [flag] τ := by
  have hguard {o : Outcome α} {τ : State α} (h : guard m flag cond σ o τ) :
      σ.Keeps hidden [flag] τ := by
    unfold guard at h
    rw [branch_var] at h
    split at h
    · exact ((Matches.test m hcond).keeps h).mono (by simp)
    · exact h.2 ▸ .refl
  -- A turn is the check, the raised flag and the body, and may end after each.
  rcases h with ⟨ρ, hg, ⟨ρ', ⟨-, rfl⟩, hb⟩ | ⟨-, -, rfl⟩⟩ | ⟨-, hg⟩
  · exact ((hguard hg).trans (keeps_raise ρ)).trans ((hB.keeps hb).mono (by simp))
  · exact (hguard hg).trans (keeps_raise ρ)
  · exact hguard hg

/-- Neither does a loop of such turns. -/
theorem keeps_forever (hB : Matches hidden [] B B') (hcond : cond.mentions hidden = false)
    (h : Forever (turn m flag cond B') σ o τ) : σ.Keeps hidden [flag] τ := by
  induction h with
  | again first _ _ ih => exact (keeps_turn hB hcond first).trans ih
  | leave last _ _ => exact keeps_turn hB hcond last

/-- The replacement of a loop can stand for it, whatever its body has been replaced by. -/
theorem stands_replace {body body' : Stmt} (hcond : cond.mentions hidden = false)
    (hhidden : hidden flag = true)
    (hB : Matches hidden [] (body.inner m) (body'.inner m)) :
    Stands hidden m [.doWhile body cond] (replace flag (.doWhile body' cond)) where
  declares x hx := by
    have hne : x ≠ flag := by
      rintro rfl
      simp [hhidden] at hx
    simp [replace, declared, hne, Decl.plain]
  runs := by
    rw [listBehaviour_singleton, listBehaviour_replace]
    have hdeclared (σ : State α) (content : Option (Nat → α)) :
        (σ.setLocal flag content).visible hidden = σ.visible hidden :=
      State.visible_setLocal_of_hidden hhidden content σ
    -- The loop is followed by its replacement, the replacement by the loop, and the replacement
    -- keeps all hidden locals but the flag.
    refine ⟨fun {σ σ' τ o} hσ h => ?_, fun {σ σ' τ' o} hσ h => ?_, fun {σ' τ' o} h => ?_⟩
    · have hflag : HasFlag m flag false _ := hasFlag_declared σ'
      obtain ⟨τ', hentered, hτ⟩ := entered_of_forever hB hcond hhidden h false _ hflag
        (hσ.trans (hdeclared σ' _).symm)
      exact ⟨τ', .inl ⟨_, ⟨rfl, rfl⟩, forever_of_entered_first hflag hentered⟩, hτ⟩
    · rcases h with ⟨ρ, ⟨-, rfl⟩, hrun⟩ | ⟨hne, ho, -⟩
      · exact standing_of_forever hB hcond hhidden hrun false σ (hasFlag_declared σ')
          (hσ.trans (hdeclared σ' _).symm)
      · exact absurd ho hne
    · have hset (content : Option (Nat → α)) : σ'.Keeps hidden [flag] (σ'.setLocal flag content) :=
        fun x _ hx => if_neg fun heq => hx (List.mem_singleton.mpr heq)
      rcases h with ⟨ρ, ⟨-, rfl⟩, hrun⟩ | ⟨-, -, rfl⟩
      · exact (hset _).trans (keeps_forever hB hcond hrun)
      · exact hset _

end ShaderGen.Legalize.DoWhile
