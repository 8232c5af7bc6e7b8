import ShaderBridge.Macro.Expansion
import ShaderBridge.Operator
import ShaderBridge.Token.Basic
import ShaderBridge.Token.Numeral

/-!
The conditions of `#if` and `#elif`: expressions over 64-bit integers that wrap around, in which a
truth value is one or zero and a name that is no macro counts as zero. Both operands of a logical
operator and both branches of a choice are always evaluated, so an error in either is an error.
-/

namespace ShaderBridge

inductive ConditionToken where
  | number (value : BitVec 64)
  | mark (p : Punct)
deriving DecidableEq, Repr

def ConditionToken.text : ConditionToken → String
  | number value => decimal value.toInt
  | mark p => p.spelling

inductive ConditionError where
  | invalidDefined
  | expansion (e : ExpansionError)
  | invalidToken (c : Char)
  | invalidInteger (text : String)
  | unexpectedEnd
  | unexpected (token : ConditionToken)
  | expected (p : Punct)
  | divisionByZero
deriving DecidableEq, Repr

def ConditionError.message : ConditionError → String
  | invalidDefined => "Invalid 'defined' operator"
  | expansion e => e.message
  | invalidToken c => "Invalid token '" ++ String.singleton c ++ "' in preprocessor expression"
  | invalidInteger text => "Invalid integer '" ++ text ++ "' in preprocessor expression"
  | unexpectedEnd => "Unexpected end of preprocessor expression"
  | unexpected token => "Unexpected '" ++ token.text ++ "' in preprocessor expression"
  | expected p => "Expected '" ++ p.spelling ++ "' in preprocessor expression"
  | divisionByZero => "Division by zero in preprocessor expression"

namespace Condition

/-- The name that `defined` asks for, in parentheses or not, and the pieces behind it. -/
def definedName? (ps : List Piece) : Option (String × List Piece) := do
  let (p, rest) ← Piece.next? ps
  if p.isChar '(' then
    let (q, rest) ← Piece.next? rest
    let (r, rest) ← Piece.next? rest
    if q.kind = .word ∧ r.isChar ')' then some (q.name, rest) else none
  else if p.kind = .word then some (p.name, rest)
  else none

theorem length_of_definedName? {ps rest : List Piece} {name : String}
    (h : definedName? ps = some (name, rest)) : rest.length < ps.length := by
  simp only [definedName?, Option.bind_eq_bind, Option.bind_eq_some_iff, Prod.exists] at h
  obtain ⟨p, rest₁, h₁, h⟩ := h
  have l₁ := Piece.length_of_next? h₁
  split at h
  · simp only [Option.bind_eq_some_iff, Prod.exists] at h
    obtain ⟨q, rest₂, h₂, r, rest₃, h₃, h⟩ := h
    have l₂ := Piece.length_of_next? h₂
    have l₃ := Piece.length_of_next? h₃
    split at h
    · simp only [Option.some.injEq, Prod.mk.injEq] at h
      obtain ⟨rfl, rfl⟩ := h
      omega
    · simp at h
  · split at h
    · simp only [Option.some.injEq, Prod.mk.injEq] at h
      obtain ⟨rfl, rfl⟩ := h
      exact l₁
    · simp at h

/-- Answers every question for a definition with `1` or `0`, before macros are expanded. -/
def answerDefined (t : MacroTable) (ps : List Piece) : Except ConditionError (List Char) :=
  match ps with
  | [] => .ok []
  | p :: ps =>
    if p.name = "defined" then
      match _h : definedName? ps with
      | none => .error .invalidDefined
      | some (name, rest) => ((if t.isDefined name then '1' else '0') :: ·) <$> answerDefined t rest
    else (p.text ++ ·) <$> answerDefined t ps
termination_by ps.length
decreasing_by
  · have := length_of_definedName? _h
    simp; omega
  · simp

def marks : List Punct :=
  [.shl, .shr, .ltEq, .gtEq, .eqEq, .bangEq, .ampAmp, .pipePipe, .leftParen, .rightParen, .bang,
    .tilde, .plus, .minus, .star, .slash, .percent, .lt, .gt, .amp, .caret, .pipe, .question,
    .colon]

/-- A number without sign in the given radix, if it fits into 63 bits. -/
def digits? (radix : Nat) (cs : List Char) : Option (BitVec 64) :=
  let n := digitsValue radix cs
  if cs ≠ [] ∧ cs.all (fun c => isHexDigit c && digitValue c < radix) ∧ n < wordCount 63 then
    some (BitVec.ofNat 64 n)
  else none

/-- The value of an integer with any number of suffix letters. -/
def integer (text : List Char) : Except ConditionError (BitVec 64) :=
  let body := dropTailWhile (fun c => c == 'u' || c == 'U' || c == 'l' || c == 'L') text
  let value := match body with
    | '0' :: 'x' :: cs | '0' :: 'X' :: cs => digits? 16 cs
    | '0' :: c :: cs => digits? 8 (c :: cs)
    | cs => digits? 10 cs
  match value with
  | some n => .ok n
  | none => .error (.invalidInteger (String.ofList text))

theorem length_lt_of_trimStart {cs rest tail : List Char} {c : Char}
    (h : trimStart cs = c :: rest) (ht : tail.length ≤ rest.length) : tail.length < cs.length := by
  have : (trimStart cs).length ≤ cs.length := (List.dropWhile_sublist _).length_le
  simp [h] at this
  omega

/-- The tokens of a condition in which macros are expanded. -/
def tokens (cs : List Char) : Except ConditionError (List ConditionToken) :=
  match _h : trimStart cs with
  | [] => .ok []
  | c :: rest =>
    if isDigit c then do
      let n ← integer (c :: rest.takeWhile isWordChar)
      (.number n :: ·) <$> tokens (rest.dropWhile isWordChar)
    else if isWordStart c then (.number 0 :: ·) <$> tokens (rest.dropWhile isWordChar)
    else
      match marks.find? fun p => (after? p.spelling.toList (c :: rest)).isSome with
      | none => .error (.invalidToken c)
      | some p => (.mark p :: ·) <$> tokens (rest.drop (p.spelling.length - 1))
termination_by cs.length
decreasing_by
  · exact length_lt_of_trimStart _h (List.dropWhile_sublist _).length_le
  · exact length_lt_of_trimStart _h (List.dropWhile_sublist _).length_le
  · exact length_lt_of_trimStart _h (List.drop_sublist _ _).length_le

/-- The binary operator that a mark stands for, and how tightly it binds. -/
def operator? : Punct → Option (BinaryOp × Nat)
  | .pipePipe => some (.logicalOr, 1)
  | .ampAmp => some (.logicalAnd, 2)
  | .pipe => some (.bitOr, 3)
  | .caret => some (.bitXor, 4)
  | .amp => some (.bitAnd, 5)
  | .eqEq => some (.eq, 6)
  | .bangEq => some (.ne, 6)
  | .lt => some (.lt, 7)
  | .gt => some (.gt, 7)
  | .ltEq => some (.le, 7)
  | .gtEq => some (.ge, 7)
  | .shl => some (.shl, 8)
  | .shr => some (.shr, 8)
  | .plus => some (.add, 9)
  | .minus => some (.sub, 9)
  | .star => some (.mul, 10)
  | .slash => some (.div, 10)
  | .percent => some (.mod, 10)
  | _ => none

/-- One for what holds, zero for what does not. -/
def truth (b : Bool) : BitVec 64 :=
  if b then 1 else 0

/-- What a binary operator computes. Shift amounts are taken modulo 64. -/
def apply (op : BinaryOp) (a b : BitVec 64) : Except ConditionError (BitVec 64) :=
  match op with
  | .logicalOr => .ok (truth (a != 0 || b != 0))
  | .logicalAnd => .ok (truth (a != 0 && b != 0))
  | .logicalXor => .ok (truth ((a != 0) != (b != 0)))
  | .bitOr => .ok (a ||| b)
  | .bitXor => .ok (a ^^^ b)
  | .bitAnd => .ok (a &&& b)
  | .eq => .ok (truth (a == b))
  | .ne => .ok (truth (a != b))
  | .lt => .ok (truth (a.slt b))
  | .gt => .ok (truth (b.slt a))
  | .le => .ok (truth (a.sle b))
  | .ge => .ok (truth (b.sle a))
  | .shl => .ok (a <<< (b.toNat % 64))
  | .shr => .ok (a.sshiftRight (b.toNat % 64))
  | .add => .ok (a + b)
  | .sub => .ok (a - b)
  | .mul => .ok (a * b)
  | .div => if b = 0 then .error .divisionByZero else .ok (a.sdiv b)
  | .mod => if b = 0 then .error .divisionByZero else .ok (a.srem b)

/-- The tokens behind a mark that has to come next. -/
def expect (p : Punct) : List ConditionToken → Except ConditionError (List ConditionToken)
  | .mark q :: ts => if q = p then .ok ts else .error (.expected p)
  | _ => .error (.expected p)

mutual

/-- The value at the front of the tokens, and the tokens behind it. A step down costs one unit of
fuel, and no token is behind more than four of them. -/
def choice : Nat → List ConditionToken → Except ConditionError (BitVec 64 × List ConditionToken)
  | 0, _ => .error .unexpectedEnd
  | fuel + 1, ts => do
    let (condition, ts) ← binary fuel 1 ts
    match ts with
    | .mark .question :: ts =>
      let (onTrue, ts) ← choice fuel ts
      let ts ← expect .colon ts
      let (onFalse, ts) ← choice fuel ts
      return (if condition ≠ 0 then onTrue else onFalse, ts)
    | ts => return (condition, ts)

/-- A value built with operators that bind at least as tightly as `level`. -/
def binary : Nat → Nat → List ConditionToken →
    Except ConditionError (BitVec 64 × List ConditionToken)
  | 0, _, _ => .error .unexpectedEnd
  | fuel + 1, level, ts => do
    let (left, ts) ← unary fuel ts
    operations fuel level left ts

/-- Applies the operators that follow a left operand, from left to right. -/
def operations : Nat → Nat → BitVec 64 → List ConditionToken →
    Except ConditionError (BitVec 64 × List ConditionToken)
  | 0, _, _, _ => .error .unexpectedEnd
  | fuel + 1, level, left, ts =>
    match ts with
    | .mark p :: rest =>
      match operator? p with
      | some (op, binding) =>
        if binding < level then .ok (left, ts)
        else do
          let (right, rest) ← binary fuel (binding + 1) rest
          let value ← apply op left right
          operations fuel level value rest
      | none => .ok (left, ts)
    | _ => .ok (left, ts)

def unary : Nat → List ConditionToken → Except ConditionError (BitVec 64 × List ConditionToken)
  | 0, _ => .error .unexpectedEnd
  | _ + 1, [] => .error .unexpectedEnd
  | _ + 1, .number value :: ts => .ok (value, ts)
  | fuel + 1, .mark p :: ts =>
    match p with
    | .bang => do
      let (value, ts) ← unary fuel ts
      return (truth (value == 0), ts)
    | .tilde => do
      let (value, ts) ← unary fuel ts
      return (~~~value, ts)
    | .minus => do
      let (value, ts) ← unary fuel ts
      return (-value, ts)
    | .plus => unary fuel ts
    | .leftParen => do
      let (value, ts) ← choice fuel ts
      let ts ← expect .rightParen ts
      return (value, ts)
    | p => .error (.unexpected (.mark p))

end

/-- The value of a whole list of tokens. Nothing at all counts as zero. -/
def valueOf (ts : List ConditionToken) : Except ConditionError (BitVec 64) :=
  if ts.isEmpty then .ok 0
  else do
    let (value, rest) ← choice (4 * ts.length + 4) ts
    match rest with
    | [] => .ok value
    | token :: _ => .error (.unexpected token)

def evaluate (t : MacroTable) (line : Nat) (text : List Char) :
    Except ConditionError (BitVec 64) := do
  let answered ← answerDefined t (pieces text)
  let expanded ← (expand t line [] (pieces answered)).mapError .expansion
  valueOf (← tokens expanded)

end Condition

end ShaderBridge
