import Downlevel.Proofs.RoundTrip.Programs
import Downlevel.Proofs.RoundTrip.Trees

/-! Rows of operands with operators between them and no parentheses: how they group by the precedence
of the operators, and which tokens they consist of. With `??`, `||` and `&&` between them, in any
order, they are read as the operators bind, and mixing the first with one of the others is
reported. -/

namespace Downlevel

open Lexeme

/-- Operands with operators between them: the first one, and every other one with the operator in
front of it. -/
structure Row where
  first : Expr
  rest : List (Operator × Expr)

namespace Row

/-- What stands in front of the first use of an operator, and the rows behind each use of it. -/
def split (op : Operator) : List (Operator × Expr) → List (Operator × Expr) × List Row
  | [] => ([], [])
  | (joint, operand) :: rest =>
    let (front, parts) := split op rest
    if joint = op then ([], ⟨operand, front⟩ :: parts) else ((joint, operand) :: front, parts)

/-- The row in front of the first use of an operator. -/
def front (op : Operator) (row : Row) : Row :=
  ⟨row.first, (split op row.rest).1⟩

/-- The rows behind each use of an operator. -/
def parts (op : Operator) (row : Row) : List Row :=
  (split op row.rest).2

/-- The expression of a row whose operators bind the more tightly the later they stand in the list,
and group to the left. -/
def tree : List Operator → Row → Expr
  | [], row => row.first
  | op :: tighter, row =>
    (row.parts op).foldl (fun left part => Expr.binary ⟨0, 0⟩ op left (part.tree tighter))
      ((row.front op).tree tighter)

/-- The tokens of a row. -/
def lexemes (row : Row) : List Lexeme :=
  shapeLexemes row.first.shape
    ++ row.rest.flatMap fun (op, operand) => ofOperator op :: shapeLexemes operand.shape

/-- The tokens of rows with the same operator in front of each. -/
def behind (op : Operator) (parts : List Row) : List Lexeme :=
  parts.flatMap fun part => ofOperator op :: part.lexemes

/-- The expression of rows behind another one with the same operator in front of each. -/
def joined (op : Operator) (tighter : List Operator) (left : Expr) (parts : List Row) : Expr :=
  parts.foldl (fun left part => Expr.binary ⟨0, 0⟩ op left (part.tree tighter)) left

/-- An operand that is no operation, or one of operators that bind more tightly than `&&`. -/
structure IsOperand (e : Expr) : Prop where
  isOperation : e.IsOperation
  tight : Precedence.logicalAnd < e.shape.level

/-- The operators of the row are among the given ones. -/
structure Joins (ops : List Operator) (row : Row) : Prop where
  first : IsOperand row.first
  rest : ∀ joint ∈ row.rest, joint.1 ∈ ops ∧ IsOperand joint.2

variable {op : Operator} {ops : List Operator} {row : Row}

/-- A row prints its front, and the other parts behind it. -/
theorem lexemes_eq (row : Row) (op : Operator) :
    row.lexemes = (row.front op).lexemes ++ behind op (row.parts op) := by
  obtain ⟨first, rest⟩ := row
  simp only [lexemes, front, parts, List.append_assoc, List.append_cancel_left_eq]
  -- A use of the operator starts a part, and everything else goes on with the one before.
  induction rest with
  | nil => rfl
  | cons joint rest ih =>
    obtain ⟨other, operand⟩ := joint
    by_cases same : other = op <;> simp [split, same, ih, behind, lexemes]

/-- A row without operators consists of the tokens of its operand. -/
theorem lexemes_of_rest (none : row.rest = []) : row.lexemes = shapeLexemes row.first.shape := by
  rw [lexemes, none, List.flatMap_nil, List.append_nil]

/-- The parts of a row have all of its operators but the one between them. -/
theorem Joins.split (joins : row.Joins (op :: ops)) :
    (row.front op).Joins ops ∧ ∀ part ∈ row.parts op, part.Joins ops := by
  obtain ⟨first, rest⟩ := row
  obtain ⟨isFirst, joined⟩ := joins
  suffices apart : (∀ joint ∈ (Row.split op rest).1, joint.1 ∈ ops ∧ IsOperand joint.2)
      ∧ ∀ part ∈ (Row.split op rest).2, part.Joins ops from ⟨⟨isFirst, apart.1⟩, apart.2⟩
  clear isFirst
  -- By induction on what is joined: each joint stays in the part in front of it or opens a new one.
  induction rest with
  | nil => exact ⟨nofun, nofun⟩
  | cons joint rest ih =>
    obtain ⟨other, operand⟩ := joint
    obtain ⟨⟨among, isOperand⟩, later⟩ := List.forall_mem_cons.mp joined
    obtain ⟨inFront, inParts⟩ := ih later
    by_cases same : other = op
    · simpa [Row.split, same] using ⟨⟨isOperand, inFront⟩, inParts⟩
    · have among := (List.mem_cons.mp among).resolve_left same
      simpa [Row.split, same] using ⟨⟨⟨among, isOperand⟩, fun _ _ mem => inFront _ mem⟩, inParts⟩

/-- A row without any operators is an operand. -/
theorem Joins.rest_eq_nil (joins : row.Joins []) : row.rest = [] :=
  List.eq_nil_iff_forall_not_mem.mpr fun joint mem => List.not_mem_nil (joins.rest joint mem).1

/-- A row has operators if one of its parts has, or one stands between them. -/
theorem rest_ne_nil (op : Operator) (row : Row) :
    row.rest ≠ [] ↔ (row.front op).rest ≠ [] ∨ row.parts op ≠ [] := by
  obtain ⟨first, rest⟩ := row
  simp only [front, parts]
  cases rest with
  | nil => simp [split]
  | cons joint rest => by_cases same : joint.1 = op <;> simp [split, same]

/-- An operator is used if there are parts behind it. -/
theorem exists_eq_iff (op : Operator) (row : Row) :
    (∃ joint ∈ row.rest, joint.1 = op) ↔ row.parts op ≠ [] := by
  obtain ⟨first, rest⟩ := row
  simp only [parts]
  induction rest with
  | nil => simp [split]
  | cons joint rest ih => by_cases same : joint.1 = op <;> simp [split, same, ← ih]

/-- Others are used if one of the parts has operators. -/
theorem exists_ne_iff (op : Operator) (row : Row) :
    (∃ joint ∈ row.rest, joint.1 ≠ op)
      ↔ (row.front op).rest ≠ [] ∨ ∃ part ∈ row.parts op, part.rest ≠ [] := by
  obtain ⟨first, rest⟩ := row
  simp only [front, parts]
  induction rest with
  | nil => simp [split]
  | cons joint rest ih => by_cases same : joint.1 = op <;> simp [split, same, ih]

end Row

open Printer

/-- The reports are about ambiguous mixtures, and there are any if there is a mixture. -/
structure Ambiguities (told : List Report) (mixed : Prop) : Prop where
  code : ∀ report ∈ told, report.problem.code = "LJ0001"
  any : told ≠ [] ↔ mixed

namespace Ambiguities

variable {told more : List Report} {mixed other : Prop}

/-- Nothing is told where nothing is mixed. -/
theorem none : Ambiguities [] False :=
  ⟨fun _ mem => absurd mem List.not_mem_nil, by simp⟩

/-- One mixture is told once. -/
theorem one (later earlier : Operator) (span : Span) :
    Ambiguities [⟨.ambiguousNullish later earlier, span⟩] True :=
  ⟨by simp [Problem.code], by simp⟩

/-- What is told depends only on whether something is mixed. -/
theorem congr (ambiguities : Ambiguities told mixed) (same : mixed ↔ other) :
    Ambiguities told other :=
  ⟨ambiguities.code, ambiguities.any.trans same⟩

/-- Where nothing is mixed, nothing is told. -/
theorem eq_nil (ambiguities : Ambiguities told mixed) (pure : ¬mixed) : told = [] := by
  by_contra nonempty
  exact pure (ambiguities.any.mp nonempty)

/-- What is told of two parts is told of one or the other. -/
theorem append (ambiguities : Ambiguities told mixed) (others : Ambiguities more other) :
    Ambiguities (told ++ more) (mixed ∨ other) := by
  refine ⟨fun report mem => ?_, ?_⟩
  · rcases List.mem_append.mp mem with mem | mem
    · exact ambiguities.code report mem
    · exact others.code report mem
  · rw [← ambiguities.any, ← others.any, ne_eq, List.append_eq_nil_iff, not_and_or]

/-- Some report has the code of ambiguous mixtures. -/
theorem exists_iff (ambiguities : Ambiguities told mixed) :
    (∃ report ∈ told, report.problem.code = "LJ0001") ↔ mixed := by
  rw [← ambiguities.any]
  constructor
  · rintro ⟨report, mem, -⟩
    exact List.ne_nil_of_mem mem
  · intro nonempty
    obtain ⟨report, mem⟩ := List.exists_mem_of_ne_nil told nonempty
    exact ⟨report, mem, ambiguities.code report mem⟩

end Ambiguities

namespace Parser

open Grammar Row

variable {tape : Tape} {stops : List TokenKind} {ahead : List Lexeme} {level : Nat}
  {goal : Expr → Reader → Prop}

/-- What is reported behind a logical operation is an ambiguous mixture if there is one. -/
theorem Meets.ambiguities {lexeme : Lexeme} {op : Operator} {told : List Report}
    (meets : Meets lexeme op told) :
    Ambiguities told (lexeme.kind = .symbol .questionQuestion) := by
  unfold Meets at meets
  split at meets
  · rename_i nullish
    obtain ⟨span, rfl⟩ := meets
    exact (Ambiguities.one _ _ span).congr (by simp [nullish])
  · rename_i apart
    rw [meets]
    exact Ambiguities.none.congr (by simp [apart])

/-- An operand of a row is read at each level of the operators between them, and then what follows. -/
theorem reaches_operand {e : Expr} (isOperand : IsOperand e) (loose : level ≤ Precedence.logicalAnd + 1)
    (other : level ≠ Precedence.conditional) (admits : Admits level stops)
    (ends : Ends (Precedence.logicalAnd + 1) ahead)
    (goesOn : ∀ soFar : Partial, e.IsSame soFar.left → GoesOn tape level stops soFar ahead goal) :
    ReachesExpr tape level stops (shapeLexemes e.shape ++ ahead) goal := by
  obtain ⟨isOperation, tight⟩ := isOperand
  have noLogical : isLogical e = false := Expr.IsOperation.not_logical tight
  have fits : e.FitsAt level := ⟨loose.trans tight, loose.trans (by decide), other, fun _ => noLogical⟩
  -- What is read at the end of the operand binds at least as tightly as the operand itself.
  have fitsRight : e.FitsAt (Precedence.logicalAnd + 1) :=
    ⟨tight, by decide, by decide, fun _ => noLogical⟩
  have closed : e.shape.IsClosedBy ahead := isOperation.closed_of_ends fitsRight ends
  obtain ⟨next, more, rfl, -⟩ := id ends
  exact (isReread isOperation).bare level stops _ _ (List.cons_ne_nil _ _) fits admits closed
    (.plain (fun logical => absurd logical (by simp [noLogical])) fun found same => goesOn _ same)

/-- A row without operators is read where the right operand of the tightest one is. -/
theorem reads_single {row : Row} (joins : row.Joins [])
    (admits : Admits (Precedence.logicalAnd + 1) stops) (ends : Ends (Precedence.logicalAnd + 1) ahead) :
    ReadsExpr tape (Precedence.logicalAnd + 1) stops (row.lexemes ++ ahead) ahead
      (row.tree []).IsSame := by
  rw [row.lexemes_of_rest joins.rest_eq_nil]
  exact reaches_operand joins.first (Nat.le_refl _) (by decide) admits ends fun _ same =>
    .done ends same

/-- The operator in front of a part ends what is read at the level of its right operands. -/
theorem ends_behind {op : Operator} {parts : List Row} (isInfix : op.IsInfix)
    (ends : Ends (op.precedence + 1) ahead) : Ends (op.precedence + 1) (behind op parts ++ ahead) := by
  cases parts with
  | nil => exact ends
  | cons part parts =>
    exact ⟨_, _, rfl, TokenKind.endsAt_of_lt isInfix.kind (Nat.lt_succ_self _)⟩

/-- Parts with the same operator in front of each are read one after the other, if one part is. -/
theorem goesOn_parts {op : Operator} (tighter : List Operator) (mixes : Row → Prop)
    {parts : List Row} (isInfix : op.IsInfix) (ends : Ends (op.precedence + 1) ahead)
    (round : ∀ part ∈ parts, ∀ tape (left : Expr) (soFar : Partial) ahead,
      Ends (op.precedence + 1) ahead → left.IsSame soFar.left →
      (∀ told, Ambiguities told (mixes part) → ∀ found : Expr,
        Expr.IsSame (Expr.binary ⟨0, 0⟩ op left (part.tree tighter)) found →
        GoesOn (tape.telling told) level stops ⟨found, false⟩ ahead goal) →
      GoesOn tape level stops soFar (ofOperator op :: (part.lexemes ++ ahead)) goal)
    {left : Expr} {soFar : Partial} (same : left.IsSame soFar.left)
    (later : ∀ told, Ambiguities told (∃ part ∈ parts, mixes part) → ∀ soFar : Partial,
      (joined op tighter left parts).IsSame soFar.left →
      GoesOn (tape.telling told) level stops soFar ahead goal) :
    GoesOn tape level stops soFar (behind op parts ++ ahead) goal := by
  -- Along the parts: what each one reports is on the tape for the next one.
  induction parts generalizing tape left soFar with
  | nil =>
    have next := later [] (Ambiguities.none.congr (by simp)) soFar same
    rwa [Tape.telling_nil] at next
  | cons part parts ih =>
    rw [behind, List.flatMap_cons, List.cons_append, List.cons_append, List.append_assoc]
    refine round part List.mem_cons_self tape left soFar _ (ends_behind isInfix ends) same
      fun told ambiguities found shown => ?_
    refine ih (fun part mem => round part (List.mem_cons_of_mem _ mem)) shown
      fun more others soFar same => ?_
    rw [Tape.telling_telling]
    exact later _ ((ambiguities.append others).congr (by simp)) soFar same

/-- The operands behind `&&` are read at the level of that operator. -/
theorem goesOn_conjuncts {parts : List Row} (areParts : ∀ part ∈ parts, part.Joins [])
    (admits : Admits Precedence.logicalAnd stops) (ends : Ends Precedence.logicalAnd ahead)
    {left : Expr} {soFar : Partial} (same : left.IsSame soFar.left) :
    GoesOn tape Precedence.logicalAnd stops soFar (behind .logicalAnd parts ++ ahead)
      (Lands tape ahead (joined .logicalAnd [] left parts).IsSame) := by
  have isInfix : Operator.logicalAnd.IsInfix := ⟨.symbol .ampersandAmpersand, rfl⟩
  -- Conjunctions are the tightest, so their parts are single operands.
  refine goesOn_parts [] (fun _ => False) isInfix (ends.mono (Nat.le_succ _)) ?_ same ?_
  · intro part mem tape left soFar ahead ends same later
    refine .binary admits isInfix rfl (Nat.le_refl _) (fun _ => Nat.lt_succ_self _) same
      (reads_single (areParts part mem) (admits.mono (by decide)) ends) (by simp)
      fun found (shown : Expr.IsSame (Expr.binary ⟨0, 0⟩ _ _ _) found) => ?_
    have next := later [] .none found shown
    rwa [Tape.telling_nil] at next
  · intro told silent soFar same
    rw [silent.eq_nil (by simp), Tape.telling_nil]
    exact .done ends same

/-- A row of operands with `&&` between them is read at the level of that operator. -/
theorem reads_conjunction {row : Row} (joins : row.Joins [.logicalAnd])
    (admits : Admits Precedence.logicalAnd stops) (ends : Ends Precedence.logicalAnd ahead) :
    ReadsExpr tape Precedence.logicalAnd stops (row.lexemes ++ ahead) ahead
      (row.tree [.logicalAnd]).IsSame := by
  obtain ⟨isFront, areParts⟩ := joins.split
  rw [row.lexemes_eq .logicalAnd, Row.lexemes_of_rest isFront.rest_eq_nil, List.append_assoc]
  exact reaches_operand isFront.first (by decide) (by decide) admits
    (ends_behind ⟨.symbol .ampersandAmpersand, rfl⟩ (ends.mono (by decide)))
    fun soFar same => goesOn_conjuncts areParts admits ends same

/-- Where the right operand of nullish coalescing is read, each logical operator between operands that
can be told apart is reported. -/
theorem goesOn_ambiguous {op : Operator} (tighter : List Operator) {parts : List Row}
    (logical : isLogicalOperator op = true)
    (areParts : ∀ part ∈ parts, ∀ tape ahead, Ends (rightLevel op) ahead →
      ReadsExpr tape (rightLevel op) stops (part.lexemes ++ ahead) ahead (part.tree tighter).IsSame)
    (admits : Admits (Precedence.nullish + 1) stops) (ends : Ends (rightLevel op) ahead)
    {left : Expr} {soFar : Partial} (same : left.IsSame soFar.left)
    (later : ∀ told, Ambiguities told (parts ≠ []) → ∀ soFar : Partial,
      (joined op tighter left parts).IsSame soFar.left →
      GoesOn (tape.telling told) (Precedence.nullish + 1) stops soFar ahead goal) :
    GoesOn tape (Precedence.nullish + 1) stops soFar (behind op parts ++ ahead) goal := by
  -- The operators of a mixture all bind to the left.
  have isRight : rightLevel op = op.precedence + 1 := by
    cases op <;> first | rfl | cases logical
  rw [isRight] at areParts ends
  refine goesOn_parts tighter (fun _ => True) (isInfix_of_isLogical logical).1 ends ?_ same
    fun told ambiguities => later told (ambiguities.congr ?_)
  · intro part mem tape left soFar ahead ends same goesOn
    refine .ambiguous admits logical same (fun reports => ?_) (by simp)
      fun span found (shown : Expr.IsSame (Expr.binary ⟨0, 0⟩ _ _ _) found) =>
        goesOn _ (.one _ _ span) found shown
    rw [isRight]
    exact areParts part mem _ ahead ends
  · simp [List.eq_nil_iff_forall_not_mem]

/-- A row of operands with `||` and `&&` between them is read as the right operand of nullish
coalescing, and reported if it has any operators. -/
theorem tells_disjunction {row : Row} (joins : row.Joins [.logicalOr, .logicalAnd])
    (admits : Admits (Precedence.nullish + 1) stops) (ends : Ends (Precedence.nullish + 1) ahead) :
    ReachesExpr tape (Precedence.nullish + 1) stops (row.lexemes ++ ahead)
      (Tells tape ahead fun found told =>
        (row.tree [.logicalOr, .logicalAnd]).IsSame found ∧ Ambiguities told (row.rest ≠ [])) := by
  obtain ⟨isFront, areParts⟩ := joins.split
  obtain ⟨isFirst, areFirst⟩ := isFront.split
  have or : isLogicalOperator .logicalOr = true := rfl
  have and : isLogicalOperator .logicalAnd = true := rfl
  have behindOr : Ends Precedence.logicalAnd (behind .logicalOr (row.parts .logicalOr) ++ ahead) :=
    ends_behind (isInfix_of_isLogical or).1 (ends.mono (by decide))
  rw [row.lexemes_eq .logicalOr, (row.front _).lexemes_eq .logicalAnd,
    Row.lexemes_of_rest isFirst.rest_eq_nil, List.append_assoc, List.append_assoc]
  refine reaches_operand isFirst.first (by decide) (by decide) admits
    (ends_behind (isInfix_of_isLogical and).1 (behindOr.mono (by decide))) fun soFar same => ?_
  -- First come the operands behind `&&`, and then the rows of such operands behind `||`.
  refine goesOn_ambiguous [] and (fun part mem tape ahead =>
    reads_single (areFirst part mem) (admits.mono (by decide))) admits (behindOr.mono (by decide))
    same fun told ambiguities soFar same => ?_
  refine goesOn_ambiguous [.logicalAnd] or (fun part mem tape ahead =>
    reads_conjunction (areParts part mem) (admits.mono (by decide))) admits
    (ends.mono (by decide)) same fun more others soFar same => ?_
  rw [Tape.telling_telling]
  refine GoesOn.imp (.done ends same) fun found later ⟨there, shown⟩ => ⟨_, there, shown, ?_⟩
  refine (ambiguities.append others).congr ?_
  rw [row.rest_ne_nil .logicalOr, (row.front _).rest_ne_nil .logicalAnd]
  simp [isFirst.rest_eq_nil]

section Outside

variable {lexeme : Lexeme} {left : Expr} {soFar : Partial} {parts : List Row}

/-- Behind an operand of the whole row the operands behind `&&` are all read at once, and reported if
nullish coalescing follows. -/
theorem goesOn_firstConjuncts (areParts : ∀ part ∈ parts, part.Joins [])
    (admits : Admits Precedence.comma stops) (ends : Ends Precedence.logicalAnd (lexeme :: ahead))
    (same : left.IsSame soFar.left)
    (later : ∀ told, Ambiguities told (parts ≠ [] ∧ lexeme.kind = .symbol .questionQuestion) →
      ∀ soFar : Partial, (joined .logicalAnd [] left parts).IsSame soFar.left →
        GoesOn (tape.telling told) Precedence.comma stops soFar (lexeme :: ahead) goal) :
    GoesOn tape Precedence.comma stops soFar (behind .logicalAnd parts ++ lexeme :: ahead) goal := by
  cases parts with
  | nil =>
    have next := later [] (Ambiguities.none.congr (by simp)) soFar same
    rwa [Tape.telling_nil] at next
  | cons part parts =>
    obtain ⟨isPart, areParts⟩ := List.forall_mem_cons.mp areParts
    have isInfix : Operator.logicalAnd.IsInfix := (isInfix_of_isLogical rfl).1
    rw [behind, List.flatMap_cons, List.cons_append, List.cons_append, List.append_assoc]
    -- The first operand is read behind its operator, and the others by what goes on inside.
    exact .logical_tells admits rfl (by decide) same
      (reads_single isPart (admits.mono (by decide))
        (ends_behind isInfix (ends.mono (by decide)))) (by simp)
      (fun found (shown : Expr.IsSame (Expr.binary ⟨0, 0⟩ _ _ _) found) =>
        goesOn_conjuncts areParts (admits.mono (by decide)) ends shown) (by simp)
      fun told meets found shown =>
        later told (meets.ambiguities.congr (by simp)) ⟨found, false⟩ shown

/-- In front of rows behind `||` there is no nullish coalescing, unless there are none. -/
theorem behind_or (parts : List Row) (lexeme : Lexeme) (ahead : List Lexeme) :
    ∃ next more, behind .logicalOr parts ++ lexeme :: ahead = next :: more
      ∧ (next.kind = .symbol .questionQuestion
        ↔ parts = [] ∧ lexeme.kind = .symbol .questionQuestion) := by
  cases parts with
  | nil => exact ⟨_, _, rfl, by simp⟩
  | cons part parts =>
    have other : (ofOperator .logicalOr).kind ≠ .symbol .questionQuestion := by decide
    exact ⟨_, _, rfl, by simp [other]⟩

/-- The rows behind `||` are read one after the other, and the last one is reported if nullish
coalescing follows. -/
theorem goesOn_disjuncts (areParts : ∀ part ∈ parts, part.Joins [.logicalAnd])
    (admits : Admits Precedence.comma stops) (ends : Ends Precedence.logicalOr (lexeme :: ahead))
    (same : left.IsSame soFar.left)
    (later : ∀ told, Ambiguities told (parts ≠ [] ∧ lexeme.kind = .symbol .questionQuestion) →
      ∀ soFar : Partial, (joined .logicalOr [.logicalAnd] left parts).IsSame soFar.left →
        GoesOn (tape.telling told) Precedence.comma stops soFar (lexeme :: ahead) goal) :
    GoesOn tape Precedence.comma stops soFar (behind .logicalOr parts ++ lexeme :: ahead) goal := by
  -- By induction on the parts: only the last one meets the token behind the whole.
  induction parts generalizing tape left soFar with
  | nil =>
    have next := later [] (Ambiguities.none.congr (by simp)) soFar same
    rwa [Tape.telling_nil] at next
  | cons part parts ih =>
    obtain ⟨isPart, areParts⟩ := List.forall_mem_cons.mp areParts
    have isInfix : Operator.logicalOr.IsInfix := (isInfix_of_isLogical rfl).1
    have isEnd : Ends Precedence.logicalAnd (behind .logicalOr parts ++ lexeme :: ahead) :=
      ends_behind isInfix (ends.mono (by decide))
    obtain ⟨next, more, shape, meets⟩ := behind_or parts lexeme ahead
    rw [shape] at isEnd ih
    rw [behind, List.flatMap_cons, List.cons_append, List.cons_append, List.append_assoc]
    change GoesOn tape _ stops soFar
      (ofOperator .logicalOr :: (part.lexemes ++ (behind .logicalOr parts ++ lexeme :: ahead))) goal
    rw [shape]
    refine .logical_tells admits rfl (by decide) same
      (reads_conjunction isPart (admits.mono (by decide)) isEnd) (by simp)
      (fun found (shown : Expr.IsSame (Expr.binary ⟨0, 0⟩ _ _ _) found) => .done isEnd shown)
      (Nat.le_refl _) fun told first found shown => ?_
    refine ih areParts shown fun told' others soFar same => ?_
    rw [Tape.telling_telling]
    refine later _ ((first.ambiguities.append others).congr ?_) soFar same
    rw [meets]
    by_cases last : parts = [] <;> simp [last]

/-- The part of a row in front of nullish coalescing is reported if that follows and the part has any
operators. -/
theorem goesOn_firstDisjunction {row : Row} (joins : row.Joins [.logicalOr, .logicalAnd])
    (admits : Admits Precedence.comma stops) (ends : Ends Precedence.logicalOr (lexeme :: ahead))
    (later : ∀ told, Ambiguities told (row.rest ≠ [] ∧ lexeme.kind = .symbol .questionQuestion) →
      ∀ soFar : Partial, (row.tree [.logicalOr, .logicalAnd]).IsSame soFar.left →
        GoesOn (tape.telling told) Precedence.comma stops soFar (lexeme :: ahead) goal) :
    ReachesExpr tape Precedence.comma stops (row.lexemes ++ lexeme :: ahead) goal := by
  obtain ⟨isFront, areParts⟩ := joins.split
  obtain ⟨isFirst, areFirst⟩ := isFront.split
  -- The front is read first, then the conjunctions behind it, then the disjunctions behind those.
  have behindOr : Ends Precedence.logicalAnd
      (behind .logicalOr (row.parts .logicalOr) ++ lexeme :: ahead) :=
    ends_behind (isInfix_of_isLogical rfl).1 (ends.mono (by decide))
  have behindAnd : Ends (Precedence.logicalAnd + 1)
      (behind .logicalAnd ((row.front .logicalOr).parts .logicalAnd)
        ++ (behind .logicalOr (row.parts .logicalOr) ++ lexeme :: ahead)) :=
    ends_behind (isInfix_of_isLogical rfl).1 (behindOr.mono (by decide))
  obtain ⟨next, more, shape, meets⟩ := behind_or (row.parts .logicalOr) lexeme ahead
  rw [row.lexemes_eq .logicalOr, (row.front _).lexemes_eq .logicalAnd,
    Row.lexemes_of_rest isFirst.rest_eq_nil, List.append_assoc, List.append_assoc]
  refine reaches_operand isFirst.first (by decide) (by decide) admits behindAnd fun soFar same => ?_
  rw [shape] at behindOr ⊢
  refine goesOn_firstConjuncts areFirst admits behindOr same fun told ambiguities soFar same => ?_
  rw [← shape]
  refine goesOn_disjuncts areParts admits ends same fun more others soFar same => ?_
  rw [Tape.telling_telling]
  refine later _ ((ambiguities.append others).congr ?_) soFar same
  rw [meets, row.rest_ne_nil .logicalOr, (row.front _).rest_ne_nil .logicalAnd]
  by_cases single : row.parts .logicalOr = [] <;> simp [single, isFirst.rest_eq_nil]

/-- The operators that may not be mixed without parentheses, the loosest one first. -/
def mixtureOperators : List Operator :=
  [.nullishCoalescing, .logicalOr, .logicalAnd]

/-- A row of operands with `??`, `||` and `&&` between them is read as they bind, and reported if there
are both nullish coalescing and another one. -/
theorem tells_row {row : Row} (joins : row.Joins mixtureOperators)
    (admits : Admits Precedence.comma stops) (ends : Ends Precedence.comma (lexeme :: ahead)) :
    ReachesExpr tape Precedence.comma stops (row.lexemes ++ lexeme :: ahead)
      (Tells tape (lexeme :: ahead) fun found told => (row.tree mixtureOperators).IsSame found
        ∧ Ambiguities told ((∃ joint ∈ row.rest, joint.1 = .nullishCoalescing)
          ∧ ∃ joint ∈ row.rest, joint.1 ≠ .nullishCoalescing)) := by
  obtain ⟨isFront, areParts⟩ := joins.split
  have isInfix : Operator.nullishCoalescing.IsInfix := ⟨.symbol .questionQuestion, rfl⟩
  have behindNullish : Ends (Precedence.nullish + 1)
      (behind .nullishCoalescing (row.parts .nullishCoalescing) ++ lexeme :: ahead) :=
    ends_behind isInfix (ends.mono (by decide))
  -- What stands behind the front starts with `??` exactly if there is another part.
  obtain ⟨next, more, shape, isNullish⟩ : ∃ next more,
      behind .nullishCoalescing (row.parts .nullishCoalescing) ++ lexeme :: ahead = next :: more
        ∧ (next.kind = .symbol .questionQuestion ↔ row.parts .nullishCoalescing ≠ []) := by
    cases row.parts .nullishCoalescing with
    | nil =>
      refine ⟨_, _, rfl, fun nullish => ?_, fun absurd => (absurd rfl).elim⟩
      obtain ⟨_, _, ⟨rfl, rfl⟩, own⟩ := ends
      rw [nullish] at own
      cases own
    | cons part parts =>
      exact ⟨_, _, rfl, fun _ => List.cons_ne_nil _ _, fun _ => by decide⟩
  rw [row.lexemes_eq .nullishCoalescing, List.append_assoc]
  rw [shape] at behindNullish ⊢
  refine goesOn_firstDisjunction isFront admits behindNullish fun told ambiguities soFar same => ?_
  rw [← shape]
  refine goesOn_parts [.logicalOr, .logicalAnd] (·.rest ≠ []) isInfix (ends.mono (by decide)) ?_ same
    fun more others soFar same => ?_
  · intro part mem tape left soFar ahead ends same goesOn
    exact .binary_tells admits isInfix rfl (by decide) nofun same
      (tells_disjunction (areParts part mem) (admits.mono (by decide)) ends) (by simp)
      fun reports ambiguous found shown => goesOn reports ambiguous found shown
  rw [Tape.telling_telling]
  refine GoesOn.imp (.done ends same) fun found later ⟨there, shown⟩ => ⟨_, there, shown, ?_⟩
  refine (ambiguities.append others).congr ?_
  rw [row.exists_eq_iff, row.exists_ne_iff, isNullish]
  by_cases single : row.parts .nullishCoalescing = [] <;> simp [single]

end Outside

end Parser

namespace Row

variable {ops : List Operator} {row : Row}

/-- A row opens an operand. -/
theorem Joins.opens (joins : row.Joins ops) : OpensOperand row.lexemes :=
  joins.first.isOperation.opens.append _

/-- A row of infix operators is plain. -/
theorem Joins.arePlain (joins : row.Joins ops) (areInfix : ∀ op ∈ ops, op.IsInfix) :
    ArePlain row.lexemes := by
  refine arePlain_append.mpr ⟨joins.first.isOperation.arePlain, fun lexeme mem => ?_⟩
  obtain ⟨joint, inside, mem⟩ := List.mem_flatMap.mp mem
  obtain ⟨among, isOperand⟩ := joins.rest joint inside
  exact arePlain_cons.mpr
    ⟨isPlain_operator (.inl (areInfix _ among)), isOperand.isOperation.arePlain⟩ lexeme mem

/-- A row does not start like a statement with a label. -/
theorem Joins.isNoLabel (joins : row.Joins ops) (areInfix : ∀ op ∈ ops, op.IsInfix)
    {ending : List Lexeme} (isEnding : Parser.IsEnding ending) :
    IsNoLabel (row.lexemes ++ ending) := by
  obtain ⟨first, rest⟩ := row
  have noLabel := joins.first.isOperation.isNoLabel
  have opens := joins.first.isOperation.opens
  rw [lexemes, List.append_assoc]
  -- A single operand ends the statement, and an operator is no colon.
  cases rest with
  | nil => rcases isEnding with rfl | rfl <;> exact noLabel.append opens (by decide)
  | cons joint rest =>
    refine noLabel.append opens fun same => ?_
    have kind := (areInfix _ (joins.rest joint List.mem_cons_self).1).kind
    rw [same] at kind
    cases kind

end Row

/-- A source that consists of operands with `??`, `||` and `&&` between them, in any order and without
parentheses, is parsed. The tree is the one in which `??` binds loosest and `&&` tightest, and an
ambiguous mixture is reported exactly if there are both `??` and one of the others. -/
theorem parse_mixture {row : Row} (joins : row.Joins Parser.mixtureOperators) {source : String}
    {ending : List Lexeme} (isEnding : Parser.IsEnding ending)
    (spelled : Spells source.toList (row.lexemes ++ ending)) :
    ∃ span found reports, parse source = .ok ⟨⟨[⟨span, .expr found⟩]⟩, reports⟩
      ∧ found.unlocated = (row.tree Parser.mixtureOperators).unlocated
      ∧ ((∃ report ∈ reports, report.problem.code = "LJ0001")
        ↔ (∃ joint ∈ row.rest, joint.1 = .nullishCoalescing)
          ∧ ∃ joint ∈ row.rest, joint.1 = .logicalOr ∨ joint.1 = .logicalAnd) := by
  have areInfix : ∀ op ∈ Parser.mixtureOperators, op.IsInfix := by
    simp only [Parser.mixtureOperators, List.forall_mem_cons]
    exact ⟨⟨.symbol .questionQuestion, rfl⟩, ⟨.symbol .barBar, rfl⟩,
      ⟨.symbol .ampersandAmpersand, rfl⟩, nofun⟩
  obtain ⟨next, more, shape, -⟩ := id (isEnding.ends Precedence.comma)
  obtain ⟨span, found, reports, ran, same, ambiguities⟩ :=
    parse_exprStmt joins.opens (joins.isNoLabel areInfix isEnding) (joins.arePlain areInfix) isEnding
      spelled fun tape => by
        have ends := isEnding.ends Precedence.comma
        rw [shape] at ends ⊢
        exact Parser.tells_row joins (by decide) ends
  refine ⟨span, found, reports, ran, same, ambiguities.exists_iff.trans ?_⟩
  -- An operator of the row that is not `??` is one of the other two.
  have others : (∃ joint ∈ row.rest, joint.1 ≠ .nullishCoalescing)
      ↔ ∃ joint ∈ row.rest, joint.1 = .logicalOr ∨ joint.1 = .logicalAnd := by
    refine exists_congr fun joint => and_congr_right fun mem => ?_
    have among := (joins.rest joint mem).1
    simp only [Parser.mixtureOperators, List.mem_cons, List.not_mem_nil, or_false] at among
    rcases among with is | is | is <;> simp [is]
  rw [others]

/-- Each operator once: the conjunction is reported as the left operand of `??`, and the disjunction as
the right one. -/
theorem parse_mixture_example :
    let name (name : String) : Expr := Expr.id ⟨0, 0⟩ name
    let binary (op : Operator) (left right : Expr) : Expr := Expr.binary ⟨0, 0⟩ op left right
    let row : Row := ⟨name "a",
      [(.logicalAnd, name "b"), (.nullishCoalescing, name "c"), (.logicalOr, name "d")]⟩
    row.Joins Parser.mixtureOperators
      ∧ Spells "a && b ?? c || d;\n".toList (row.lexemes ++ [ofSymbol .semicolon, Lexeme.eof])
      ∧ ∃ span found reports, parse "a && b ?? c || d;\n" = .ok ⟨⟨[⟨span, .expr found⟩]⟩, reports⟩
        ∧ found.unlocated = (binary .nullishCoalescing (binary .logicalAnd (name "a") (name "b"))
          (binary .logicalOr (name "c") (name "d"))).unlocated
        ∧ ∃ report ∈ reports, report.problem.code = "LJ0001" := by
  intro name binary row
  have named (text : String) (read : (Lexer.first text).kind = .identifier
      ∧ (Lexer.first text).text = text) : IsIdentifier text := read
  have a := named "a" (by decide)
  have b := named "b" (by decide)
  have c := named "c" (by decide)
  have d := named "d" (by decide)
  have and : Operator.logicalAnd.IsInfix := ⟨.symbol .ampersandAmpersand, rfl⟩
  have or : Operator.logicalOr.IsInfix := ⟨.symbol .barBar, rfl⟩
  have nullish : Operator.nullishCoalescing.IsInfix := ⟨.symbol .questionQuestion, rfl⟩
  have isOperand {text : String} (named : IsIdentifier text) : Row.IsOperand (name text) :=
    ⟨.id named, Nat.le_of_ble_eq_true rfl⟩
  have joins : row.Joins Parser.mixtureOperators := by
    refine ⟨isOperand a, ?_⟩
    simp only [row, List.forall_mem_cons]
    exact ⟨⟨by decide, isOperand b⟩, ⟨by decide, isOperand c⟩, ⟨by decide, isOperand d⟩, nofun⟩
  have spelled : Spells "a && b ?? c || d;\n".toList
      (row.lexemes ++ [ofSymbol .semicolon, Lexeme.eof]) := by
    -- From the end of the source to its start, one token in front of the others at a time.
    have ending : Spells [';', '\n'] [ofSymbol .semicolon, Lexeme.eof] :=
      spells_closed .semicolon (by decide) (List.cons_ne_nil _ _) spells_lineBreak
    have last := spells_gap (spells_operator (.inl or) (spells_name d.isMemberName rfl ending))
    have right := spells_gap (spells_operator (.inl nullish) (spells_name c.isMemberName rfl last))
    have left := spells_gap (spells_operator (.inl and) (spells_name b.isMemberName rfl right))
    exact spells_name a.isMemberName rfl left
  refine ⟨joins, spelled, ?_⟩
  obtain ⟨span, found, reports, ran, same, mixed⟩ := parse_mixture joins (.inl rfl) spelled
  exact ⟨span, found, reports, ran, same, mixed.mpr (by simp [row])⟩

end Downlevel
