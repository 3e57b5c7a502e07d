import MessageCatalog.Proofs.Plural.Depth

/-!
# The descent through an expression

What a descent does besides finding a tree: it counts the levels that are open, so as not to open
too many, it calls itself, and it goes round the loops of the chains. The parsers of a level show
nothing of this, since the room for more levels is a number that they are given. But these are the
parsers that a descent goes through (`Descent.obeys_level`), so the room that they have bounds what
is open at one time. To open a level takes a call of `expression` or of `operand`; on a level that
is open one more call of `operand` may be open without a level of its own, around parentheses.

The depth is not why a descent ends: whatever is called has fewer tokens ahead, or binds tighter.

* `Descent.expression`: the descent, and `Trace`, what is seen of it;
* `Descent.Within`: its limits, which `Descent.obeys_level` shows to hold on every level;
* `Expr.within_descent`: the descent through a text finds what the text denotes, within the limits.
-/

namespace MessageCatalog.Plural

/-- What is seen of a descent. The calls are those of expressions and of operands. -/
structure Trace (α : Type) where
  /-- What was found. -/
  result : Except ExprError α
  /-- The depth at the end. -/
  depth : Nat
  /-- The greatest number of calls that were open at one time. -/
  calls : Nat
  /-- The greatest number of calls that were open at one time, of those that open a level. -/
  levels : Nat
  /-- The numbers of tokens ahead, before and after each pass of the loop of a chain. -/
  passes : List (Nat × Nat)

/-- A descent starts at a depth, which is the number of levels that are open. -/
def Descent (α : Type) := (depth : Nat) → Trace α

namespace Descent

variable {α β : Type}

/-- Nothing is done. -/
def pure (a : α) : Descent α := fun depth =>
  ⟨.ok a, depth, 0, 0, []⟩

/-- One descent after the other. The calls of the first one are no longer open in the second. -/
def bind (x : Descent α) (f : α → Descent β) : Descent β := fun depth =>
  let t := x depth
  match t.result with
  | .error e => ⟨.error e, t.depth, t.calls, t.levels, t.passes⟩
  | .ok a =>
    let u := f a t.depth
    ⟨u.result, u.depth, max t.calls u.calls, max t.levels u.levels, t.passes ++ u.passes⟩

instance : Monad Descent where
  pure := pure
  bind := bind

/-- A step without calls. -/
def lift (x : Except ExprError α) : Descent α := fun depth =>
  ⟨x, depth, 0, 0, []⟩

/-- A pass of a loop. -/
def pass (before after : List Token) : Descent Unit := fun depth =>
  ⟨.ok (), depth, 0, 0, [(before.length, after.length)]⟩

/-- Opens a level, if there may be another one. -/
def enter : Descent Unit := fun depth =>
  ⟨if maxDepth < depth + 1 then .error .tooDeep else .ok (), depth + 1, 0, 0, []⟩

/-- Closes a level. -/
def leave : Descent Unit := fun depth =>
  ⟨.ok (), depth - 1, 0, 0, []⟩

/-- A call is open as long as what it does. -/
def call (x : Descent α) : Descent α := fun depth =>
  let t := x depth
  { t with calls := t.calls + 1 }

/-- What is done on a level of its own. A fault leaves the level open. -/
def onLevel (x : Descent α) : Descent α := do
  enter
  let a ← x
  leave
  return a

/-- A call that opens a level. It is open even if there is no room for the level. -/
def nest (x : Descent α) : Descent α := fun depth =>
  let t := onLevel x depth
  { t with calls := t.calls + 1, levels := t.levels + 1 }

/-- The expression that a token is by itself. -/
def leaf? : Token → Option Expr
  | .count => some .count
  | .number v => some (.literal v)
  | _ => none

section Shorter

variable {tokens rest : List Token} {token : Token}

theorem lt_of_rest_eq {parsed : Parsed tokens} (h : parsed.rest = token :: rest) :
    rest.length < tokens.length := by
  have hshorter := parsed.shorter
  rw [h, List.length_cons] at hshorter
  exact Nat.lt_of_succ_lt hshorter

theorem lt_of_after {first : Parsed rest} (hrest : rest.length < tokens.length)
    (after : { after : List Token // after.length < first.rest.length }) :
    after.1.length < tokens.length :=
  Nat.lt_trans after.2 (Nat.lt_trans first.shorter hrest)

theorem lt_of_second {first : Parsed rest} (hrest : rest.length < tokens.length)
    {after : { after : List Token // after.length < first.rest.length }} (second : Parsed after.1) :
    second.rest.length < tokens.length :=
  Nat.lt_trans second.shorter (lt_of_after hrest after)

end Shorter

variable (fault : Option ExprError)

mutual

/-- An expression, on a level of its own. -/
def expression (tokens : List Token) : Descent (Parsed tokens) :=
  nest do
    let condition ← chain tiers tokens
    match h : condition.rest with
    | .question :: rest =>
      have hrest := lt_of_rest_eq h
      lift (goOn fault rest)
      let yes ← expression rest
      let after ← lift (expect fault .colon yes.rest)
      have := lt_of_after hrest after
      let no ← expression after.1
      return ⟨.choice condition.expr yes.expr no.expr, no.rest, lt_of_second hrest no⟩
    | _ => return condition
termination_by (tokens.length, tiers.length + 3)

/-- Operands joined by the operators of the given tiers. -/
def chain (tiers : List (List BinaryOp)) (tokens : List Token) : Descent (Parsed tokens) :=
  match tiers with
  | [] => operand tokens
  | ops :: tighter => do
    let first ← chain tighter tokens
    have := first.shorter
    let (expr, rest) ← chainFrom ops tighter first.expr first.rest
    return ⟨expr, rest.1, Nat.lt_of_le_of_lt rest.2 first.shorter⟩
termination_by (tokens.length, tiers.length + 2)

/-- Continues an expression with operands joined by operators among `ops`. -/
def chainFrom (ops : List BinaryOp) (tighter : List (List BinaryOp)) (left : Expr)
    (tokens : List Token) : Descent (Expr × { rest : List Token // rest.length ≤ tokens.length }) :=
  match tokens with
  | [] => return (left, ⟨[], Nat.le_refl _⟩)
  | t :: rest =>
    match t.binary?.filter (· ∈ ops) with
    | none => return (left, ⟨t :: rest, Nat.le_refl _⟩)
    | some op => do
      lift (goOn fault rest)
      let right ← chain tighter rest
      have hlt : right.rest.length < (t :: rest).length :=
        Nat.lt_succ_of_lt right.shorter
      pass (t :: rest) right.rest
      let (expr, after) ← chainFrom ops tighter (.binary op left right.expr) right.rest
      return (expr, ⟨after.1, Nat.le_trans after.2 (Nat.le_of_lt hlt)⟩)
termination_by (tokens.length, tighter.length + 2)

/-- An operand. Only an operator in front of it opens a level. -/
def operand (tokens : List Token) : Descent (Parsed tokens) :=
  match tokens with
  | [] => call (lift (.error .unexpectedEnd))
  | t :: rest =>
    match t.unary? with
    | some op => nest do
      lift (goOn fault rest)
      let inner ← operand rest
      return ⟨.unary op inner.expr, inner.rest, Nat.lt_succ_of_lt inner.shorter⟩
    | none => call (primary t rest)
termination_by (tokens.length, 1)

/-- The count, a number, or an expression in parentheses. -/
def primary (token : Token) (rest : List Token) : Descent (Parsed (token :: rest)) :=
  if token = .leftParen then do
    lift (goOn fault rest)
    let inner ← expression rest
    let after ← lift (expect fault .rightParen inner.rest)
    return ⟨inner.expr, after.1, Nat.lt_succ_of_lt (Nat.lt_trans after.2 inner.shorter)⟩
  else match leaf? token with
    | some e => do
      lift (goOn fault rest)
      return ⟨e, rest, Nat.lt_succ_self _⟩
    | none => lift (.error .missingOperand)
termination_by ((token :: rest).length, 0)

end

/-! ### Limits -/

/-- What is seen of a descent at a depth with room for `room` more levels: it finds `y`, and is
    back at the depth if that is no fault; it opens as many levels as there is room for, or one
    more exactly to report it; at most `n` calls are open at one time, and every pass takes
    tokens. -/
structure Within (room n depth : Nat) (t : Trace α) (y : Except ExprError α) : Prop where
  result : t.result = y
  depth_eq : ∀ a, y = .ok a → t.depth = depth
  levels_le : t.levels ≤ room + 1
  tooDeep_iff : room < t.levels ↔ y = .error .tooDeep
  calls_le : t.calls ≤ n
  passes : ∀ pass ∈ t.passes, pass.2 < pass.1

/-- A descent finds `y` within its limits, wherever there is room for `room` more levels. -/
def Obeys (room n : Nat) (x : Descent α) (y : Except ExprError α) : Prop :=
  ∀ depth, depth + room = maxDepth → Within room n depth (x depth) y

section Steps

variable {room n : Nat} {x : Descent α} {y : Except ExprError α}

theorem obeys_lift (hy : y ≠ .error .tooDeep) : Obeys room n (lift y) y :=
  fun _ _ => ⟨rfl, fun _ _ => rfl, Nat.zero_le _, iff_of_false (Nat.not_lt_zero _) hy,
    Nat.zero_le _, nofun⟩

theorem obeys_pure (a : α) : Obeys room n (Pure.pure a) (.ok a) :=
  obeys_lift nofun

theorem obeys_error (e : ExprError) (he : e ≠ .tooDeep) :
    Obeys room n (lift (.error e) : Descent α) (.error e) :=
  obeys_lift fun h => he (Except.error.inj h)

theorem Obeys.mono {m : Nat} (h : Obeys room n x y) (hle : n ≤ m) : Obeys room m x y :=
  fun depth hdepth => { h depth hdepth with calls_le := Nat.le_trans (h depth hdepth).calls_le hle }

theorem Obeys.bind {f : α → Descent β} {g : α → Except ExprError β} (hx : Obeys room n x y)
    (hf : ∀ a, Obeys room n (f a) (g a)) : Obeys room n (x >>= f) (y >>= g) := by
  intro depth hdepth
  have hbind : (x >>= f) depth = Descent.bind x f depth := rfl
  have h := hx depth hdepth
  rw [hbind, Descent.bind, h.result]
  cases y with
  | error e =>
    refine ⟨rfl, nofun, h.levels_le, h.tooDeep_iff.trans ?_, h.calls_le, h.passes⟩
    rw [Except.error.injEq]
    exact (Except.error.injEq ..).to_iff.symm
  | ok a =>
    have hu := hf a depth hdepth
    simp only [h.depth_eq a rfl]
    have hlevels : (x depth).levels ≤ room := Nat.not_lt.1 fun hlt => nomatch h.tooDeep_iff.1 hlt
    refine ⟨hu.result, hu.depth_eq, Nat.max_le.2 ⟨h.levels_le, hu.levels_le⟩,
      Iff.trans ?_ hu.tooDeep_iff, Nat.max_le.2 ⟨h.calls_le, hu.calls_le⟩, ?_⟩
    · show room < max (x depth).levels (f a depth).levels ↔ room < (f a depth).levels
      omega
    · exact fun pass hpass => (List.mem_append.1 hpass).elim (h.passes pass) (hu.passes pass)

theorem Obeys.call (h : Obeys room n x y) : Obeys room (n + 1) (call x) y :=
  fun depth hdepth => { h depth hdepth with
    calls_le := Nat.succ_le_succ (h depth hdepth).calls_le }

/-- What is done on a level is done one level deeper. -/
theorem onLevel_eq (x : Descent α) {depth : Nat} (h : depth < maxDepth) :
    onLevel x depth = { x (depth + 1) with
      depth := match (x (depth + 1)).result with
        | .ok _ => (x (depth + 1)).depth - 1
        | .error _ => (x (depth + 1)).depth } := by
  have henter : enter depth = ⟨.ok (), depth + 1, 0, 0, []⟩ := by
    rw [enter, if_neg (Nat.not_lt.2 h)]
  cases hresult : (x (depth + 1)).result <;>
    simp [onLevel, Bind.bind, Descent.bind, Pure.pure, Descent.pure, henter, leave, hresult]

/-- A level that is open is one less that there is room for. -/
theorem Obeys.nest (h : Obeys room n x y) : Obeys (room + 1) (n + 1) (nest x) y := by
  intro depth hdepth
  have h := h (depth + 1) (by omega)
  rw [Descent.nest, onLevel_eq x (by omega)]
  refine ⟨h.result, fun a ha => ?_, Nat.succ_le_succ h.levels_le,
    Nat.succ_lt_succ_iff.trans h.tooDeep_iff, Nat.succ_le_succ h.calls_le, h.passes⟩
  simp only [h.result, ha, h.depth_eq a ha, Nat.add_sub_cancel]

/-- Without room a level is opened only to report it. -/
theorem obeys_nest_zero (x : Descent α) : Obeys 0 (n + 1) (Descent.nest x) (.error .tooDeep) := by
  intro depth hdepth
  have henter : enter depth = ⟨.error .tooDeep, depth + 1, 0, 0, []⟩ := by
    rw [enter, if_pos (by omega)]
  have hnest : Descent.nest x depth = ⟨.error .tooDeep, depth + 1, 1, 1, []⟩ := by
    simp [Descent.nest, onLevel, Bind.bind, Descent.bind, henter]
  rw [hnest]
  exact ⟨rfl, nofun, Nat.le_refl _, iff_of_true Nat.one_pos rfl, Nat.le_add_left _ _, nofun⟩

/-- A pass that takes tokens makes no difference to what is found. -/
theorem Obeys.pass {before after : List Token} (h : Obeys room n x y)
    (hlt : after.length < before.length) :
    Obeys room n (pass before after >>= fun _ => x) y := by
  have hpass : Obeys room n (Descent.pass before after) (.ok ()) := by
    refine fun _ _ => ⟨rfl, fun _ _ => rfl, Nat.zero_le _, iff_of_false (Nat.not_lt_zero _) nofun,
      Nat.zero_le _, fun p hp => ?_⟩
    rw [List.mem_singleton.1 hp]
    exact hlt
  exact hpass.bind fun _ => h

end Steps

/-! ### The parsers of a level -/

section Level

variable {fault} {room n : Nat} {parser branch group : Parser}

section

variable (hfault : fault ≠ some .tooDeep)

include hfault

theorem goOn_ne_tooDeep (rest : List Token) : goOn fault rest ≠ .error .tooDeep := by
  cases rest with
  | cons t rest => nofun
  | nil =>
    cases fault with
    | none => nofun
    | some e => exact fun h => hfault (congrArg some (Except.error.inj h))

theorem obeys_goOn (rest : List Token) : Obeys room n (lift (goOn fault rest)) (goOn fault rest) :=
  obeys_lift (goOn_ne_tooDeep hfault rest)

theorem obeys_expect (token : Token) (tokens : List Token) :
    Obeys room n (lift (expect fault token tokens)) (expect fault token tokens) := by
  refine obeys_lift fun h => ?_
  cases tokens with
  | nil => cases h
  | cons t rest =>
    rw [expect] at h
    split at h
    · rcases bind_eq_error_iff.1 h with h | ⟨_, -, h⟩
      · exact goOn_ne_tooDeep hfault rest h
      · cases h
    · cases h

theorem obeys_chainFrom {tighter : List (List BinaryOp)} (ops : List BinaryOp)
    (hchain : ∀ tokens, Obeys room n (chain fault tighter tokens)
      (Plural.chain fault parser tighter tokens)) (left : Expr) (tokens : List Token) :
    Obeys room n (chainFrom fault ops tighter left tokens)
      (Plural.chainFrom fault (Plural.chain fault parser tighter) ops left tokens) := by
  rw [chainFrom.eq_def, Plural.chainFrom.eq_def]
  match tokens with
  | [] => exact obeys_pure _
  | t :: rest =>
    dsimp only
    cases t.binary?.filter (· ∈ ops) with
    | none => exact obeys_pure _
    | some op =>
      refine (obeys_goOn hfault rest).bind fun _ => (hchain rest).bind fun right => ?_
      have hlt : right.rest.length < (t :: rest).length := Nat.lt_succ_of_lt right.shorter
      refine Obeys.pass ?_ hlt
      exact (obeys_chainFrom ops hchain _ right.rest).bind fun _ => obeys_pure _
termination_by tokens.length
decreasing_by exact hlt

theorem obeys_chain (hoperand : ∀ tokens, Obeys room n (operand fault tokens) (parser tokens))
    (tiers : List (List BinaryOp)) (tokens : List Token) :
    Obeys room n (chain fault tiers tokens) (Plural.chain fault parser tiers tokens) := by
  induction tiers generalizing tokens with
  | nil =>
    rw [chain, Plural.chain]
    exact hoperand tokens
  | cons ops tighter ih =>
    rw [chain, Plural.chain]
    exact (ih tokens).bind fun first =>
      (obeys_chainFrom hfault ops ih first.expr first.rest).bind fun _ => obeys_pure _

/-- An expression is on a level of its own, and so are its branches. -/
theorem obeys_expression (hoperand : ∀ tokens, Obeys room n (operand fault tokens) (parser tokens))
    (hbranch : ∀ tokens, Obeys room n (expression fault tokens) (branch tokens))
    (tokens : List Token) :
    Obeys (room + 1) (n + 1) (expression fault tokens)
      (conditional fault parser branch tokens) := by
  rw [expression, conditional]
  refine ((obeys_chain hfault hoperand tiers tokens).bind fun condition => ?_).nest
  obtain ⟨e, rest, hlt⟩ := condition
  cases rest with
  | nil => exact obeys_pure _
  | cons t rest =>
    cases t with
    | question =>
      refine (obeys_goOn hfault rest).bind fun _ => (hbranch rest).bind fun yes => ?_
      exact (obeys_expect hfault .colon yes.rest).bind fun after =>
        (hbranch after.1).bind fun _ => obeys_pure _
    | _ => exact obeys_pure _

/-- A primary is on the level of its operand. -/
theorem obeys_primary (hgroup : ∀ tokens, Obeys room n (expression fault tokens) (group tokens))
    {token : Token} (htoken : token.unary? = none) (deeper : Option Parser) (rest : List Token) :
    Obeys room n (primary fault token rest)
      (Plural.operand fault group deeper (token :: rest)) := by
  rw [primary]
  split
  case isTrue hparen =>
    subst hparen
    exact (obeys_goOn hfault rest).bind fun _ => (hgroup rest).bind fun inner =>
      (obeys_expect hfault .rightParen inner.rest).bind fun _ => obeys_pure _
  case isFalse hparen =>
    cases token with
    | leftParen => exact absurd rfl hparen
    | count => exact (obeys_goOn hfault rest).bind fun _ => obeys_pure _
    | number v => exact (obeys_goOn hfault rest).bind fun _ => obeys_pure _
    | minus => cases htoken
    | bang => cases htoken
    | _ => exact obeys_error .missingOperand nofun

/-- An operator in front of an operand opens a level for it, if there is room. -/
theorem obeys_operand (hgroup : ∀ tokens, Obeys room n (expression fault tokens) (group tokens))
    {deeper : Option Parser} (hnone : deeper = none → room = 0)
    (hsome : ∀ parser ∈ deeper, ∃ inner, room = inner + 1 ∧
      ∀ tokens, Obeys inner n (operand fault tokens) (parser tokens)) (tokens : List Token) :
    Obeys room (n + 1) (operand fault tokens) (Plural.operand fault group deeper tokens) := by
  rw [operand.eq_def]
  cases tokens with
  | nil => exact (obeys_error .unexpectedEnd nofun).call
  | cons t rest =>
    cases hop : t.unary? with
    | none =>
      simp only [hop]
      exact (obeys_primary hfault hgroup hop deeper rest).call
    | some op =>
      simp only [hop]
      rw [operand_unary hop]
      cases deeper with
      | none =>
        cases hnone rfl
        exact obeys_nest_zero _
      | some parser =>
        obtain ⟨inner, rfl, hparser⟩ := hsome parser rfl
        exact ((obeys_goOn hfault rest).bind fun _ =>
          (hparser rest).bind fun _ => obeys_pure _).nest

/-- The descent goes through the parsers of the levels, with two calls for each level that is
    open: one for the level and one for an operand on it. -/
theorem obeys_level (room : Nat) :
    (∀ tokens, Obeys room (2 * room + 1) (expression fault tokens)
      ((Plural.level fault room).expression tokens)) ∧
    ∀ tokens, Obeys room (2 * room + 2) (operand fault tokens)
      ((Plural.level fault room).operand tokens) := by
  induction room with
  | zero =>
    have hexpression (tokens : List Token) : Obeys 0 1 (expression fault tokens)
        ((Plural.level fault 0).expression tokens) := by
      rw [expression]
      exact obeys_nest_zero _
    exact ⟨hexpression, obeys_operand hfault hexpression (fun _ => rfl) nofun⟩
  | succ room ih =>
    obtain ⟨hexpression, hoperand⟩ := ih
    have hexpression' := obeys_expression hfault hoperand fun tokens =>
      (hexpression tokens).mono (by omega)
    refine ⟨hexpression', obeys_operand hfault hexpression' nofun ?_⟩
    rintro _ ⟨⟩
    exact ⟨room, rfl, fun tokens => (hoperand tokens).mono (by omega)⟩

end

end Level

end Descent

/-- The descent through all the tokens of a scan. -/
def Scan.descent (scan : Scan) : Descent Expr := do
  Descent.lift (goOn scan.fault scan.tokens)
  let parsed ← Descent.expression scan.fault scan.tokens
  match parsed.rest with
  | [] => return parsed.expr
  | t :: _ => Descent.lift (throw (.trailing t))

/-- The descent through a text, which starts without an open level. -/
def Expr.descent (text : String) : Trace Expr :=
  if maxLength < text.utf8ByteSize then Descent.lift (.error .tooLong) 0
  else (Scan.ofText text.toList).descent 0

open Descent in
theorem Scan.obeys_descent {scan : Scan} (hfault : scan.fault ≠ some .tooDeep) :
    Obeys maxDepth (2 * maxDepth + 1) scan.descent scan.parse := by
  refine (obeys_goOn hfault _).bind fun _ =>
    ((obeys_level hfault maxDepth).1 scan.tokens).bind fun parsed => ?_
  obtain ⟨e, rest, hlt⟩ := parsed
  cases rest with
  | nil => exact obeys_pure _
  | cons t rest => exact obeys_error (.trailing t) nofun

theorem Token.read_ne_tooDeep (c : Char) (rest : List Char) :
    Token.read c rest ≠ .error .tooDeep := by
  intro h
  unfold read at h
  split at h
  case h_17 =>
    split at h
    · rw [readNumber] at h
      split at h <;> cases h
    · cases h
  all_goals first
    | cases h
    | (split at h <;> cases h)

/-- What is wrong with a scan is never its depth. -/
theorem Scan.fault_ofText_ne_tooDeep (text : List Char) :
    (Scan.ofText text).fault ≠ some .tooDeep := by
  fun_induction Scan.ofText text with
  | case1 => rintro ⟨⟩
  | case2 => rintro ⟨⟩
  | case3 text c rest _ _ fault hread =>
    rintro ⟨⟩
    exact Token.read_ne_tooDeep c rest hread
  | case4 => assumption

/-- The descent through a text finds the expression that the text denotes, within the limits. -/
theorem Expr.within_descent (text : String) :
    Descent.Within 64 129 0 (Expr.descent text) (Expr.parse text) := by
  rw [descent, parse]
  split
  · exact Descent.obeys_error .tooLong (by decide) 0 rfl
  · exact Scan.obeys_descent (Scan.fault_ofText_ne_tooDeep _) 0 rfl

end MessageCatalog.Plural
