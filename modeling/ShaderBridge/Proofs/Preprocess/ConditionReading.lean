import ShaderBridge.Proofs.Macro.Steps
import ShaderBridge.Proofs.Parse.Phrase
import ShaderBridge.Proofs.Preprocess.ConditionTree
import ShaderBridge.Proofs.Token.Spelling

/-!
Conditions as they are written. A tree is written with a space between tokens and with no other
parentheses than those that the precedence of its operators asks for, and what is written is
evaluated to the value of the tree.

As in expressions, an operand is read first, and the operators behind it are then applied as long as
they bind tightly enough. What is shown of tokens depends therefore on where they can stand: as an
operand, in front of operators that bind less tightly, or as a whole condition.
-/

namespace ShaderBridge

namespace ConditionTree

/-! ### Tokens -/

/-- How tightly an operator binds. Operators that bind alike group to the left. -/
def binding : BinaryOp → Nat
  | .mul | .div | .mod => 10
  | .add | .sub => 9
  | .shl | .shr => 8
  | .lt | .gt | .le | .ge => 7
  | .eq | .ne => 6
  | .bitAnd => 5
  | .bitXor => 4
  | .bitOr => 3
  | .logicalAnd => 2
  | .logicalOr | .logicalXor => 1

/-- How tightly the outermost operator of a tree binds. A choice binds least of all. -/
def level : ConditionTree → Nat
  | number _ | unary .. => 11
  | binary op _ _ => binding op
  | choice .. => 0

/-- Tokens as an operand of an operator that wants its operands to bind as tightly as `least`. -/
def grouped (level least : Nat) (ts : List ConditionToken) : List ConditionToken :=
  if level < least then .mark .leftParen :: (ts ++ [.mark .rightParen]) else ts

/-- What a tree is written with. Between the marks of a choice, and behind them, everything can
stand without parentheses. -/
def tokens : ConditionTree → List ConditionToken
  | number n => [.number (BitVec.ofNat 64 n.val)]
  | unary op e => .mark op.val.mark :: grouped e.level 11 e.tokens
  | binary op a b =>
    grouped a.level (binding op) a.tokens ++
      .mark op.val.mark :: grouped b.level (binding op + 1) b.tokens
  | choice c a b =>
    grouped c.level 1 c.tokens ++ .mark .question :: (a.tokens ++ .mark .colon :: b.tokens)

theorem binding_pos (op : BinaryOp) : 0 < binding op := by
  cases op <;> decide

theorem binding_le (op : BinaryOp) : binding op ≤ 10 := by
  cases op <;> decide

theorem level_le (T : ConditionTree) : T.level ≤ 11 := by
  cases T with
  | binary op a b => exact Nat.le_succ_of_le (binding_le op)
  | number | unary => exact Nat.le_refl 11
  | choice => exact Nat.zero_le 11

end ConditionTree

namespace Condition

open ConditionTree (binding grouped)

variable {ts rest : List ConditionToken} {r : Except ConditionError (BitVec 64)} {level : Nat}

theorem operator?_mark {op : BinaryOp} (h : op ≠ .logicalXor) :
    operator? op.mark = some (op, binding op) := by
  cases op <;> first | rfl | exact absurd rfl h

/-- No operator comes next that binds as tightly as `level`. -/
def StopsAt (level : Nat) (rest : List ConditionToken) : Prop :=
  ∀ p tail, rest = .mark p :: tail → ∀ op n, operator? p = some (op, n) → n < level

theorem StopsAt.mono {least : Nat} (h : StopsAt least rest) (hle : least ≤ level) :
    StopsAt level rest :=
  fun p tail hrest op n hop => Nat.lt_of_lt_of_le (h p tail hrest op n hop) hle

theorem stopsAt_nil : StopsAt level [] := by
  rintro p tail ⟨⟩

theorem stopsAt_mark {p : Punct} (h : ∀ op n, operator? p = some (op, n) → n < level) :
    StopsAt level (.mark p :: rest) := by
  rintro q tail ⟨⟩
  exact h

theorem operations_of_stopsAt (h : StopsAt level rest) (fuel : Nat) (left : BitVec 64) :
    operations (fuel + 1) level left rest = .ok (left, rest) := by
  unfold operations
  split
  · rename_i p tail
    split
    · rename_i op n hop
      rw [if_pos (h p tail rfl op n hop)]
    · rfl
  · rfl

theorem operations_mark {p : Punct} {op : BinaryOp} {n : Nat} (hop : operator? p = some (op, n))
    (hle : level ≤ n) (fuel : Nat) (left : BitVec 64) :
    operations (fuel + 1) level left (.mark p :: rest) =
      binary fuel (n + 1) rest >>= fun next =>
        apply op left next.1 >>= fun value => operations fuel level value next.2 := by
  rw [operations]
  simp only [hop, if_neg (Nat.not_lt.2 hle)]

/-! ### Where tokens can stand -/

/-- Tokens that are read as an operand. -/
structure IsOperand (ts : List ConditionToken) (r : Except ConditionError (BitVec 64)) : Prop where
  ne_nil : ts ≠ []
  unary_eq : ∀ fuel rest, 4 * ts.length ≤ fuel + 2 →
    unary fuel (ts ++ rest) = (·, rest) <$> r

/-- Tokens in front of which operators bind as tightly as `level` at most: they are read, and what
follows is then applied to them. -/
structure IsTerm (least : Nat) (ts : List ConditionToken) (r : Except ConditionError (BitVec 64)) :
    Prop where
  binary_eq : ∃ steps, 0 < steps ∧ steps ≤ ts.length ∧ ∀ fuel level rest,
    4 * ts.length ≤ fuel + 1 → level ≤ least → StopsAt (least + 1) rest →
      binary fuel level (ts ++ rest) = r >>= fun v => operations (fuel - steps) level v rest

/-- Tokens that are read as a whole condition. -/
structure IsWhole (ts : List ConditionToken) (r : Except ConditionError (BitVec 64)) : Prop where
  ne_nil : ts ≠ []
  choice_eq : ∀ fuel rest, 4 * ts.length ≤ fuel → StopsAt 1 rest →
    rest.head? ≠ some (.mark .question) → choice fuel (ts ++ rest) = (·, rest) <$> r

/-! ### What is made of tokens -/

theorem isOperand_number (value : BitVec 64) : IsOperand [.number value] (.ok value) where
  ne_nil := List.cons_ne_nil _ _
  unary_eq fuel rest hfuel := by
    obtain ⟨fuel, rfl⟩ : ∃ n, fuel = n + 1 := ⟨fuel - 1, by simp at hfuel; omega⟩
    rfl

theorem IsOperand.unary {op : UnaryOp} (hop : op.isStep = false) (h : IsOperand ts r) :
    IsOperand (.mark op.mark :: ts) (ConditionTree.signedBits op <$> r) where
  ne_nil := List.cons_ne_nil _ _
  unary_eq fuel rest hfuel := by
    obtain ⟨fuel, rfl⟩ : ∃ n, fuel = n + 1 := ⟨fuel - 1, by simp at hfuel; omega⟩
    have hoperand := h.unary_eq fuel rest (by simp at hfuel; omega)
    cases op with
    | plus | minus | bitNot | logicalNot =>
        change Condition.unary (fuel + 1) (.mark _ :: (ts ++ rest)) = _
        simp only [Condition.unary, UnaryOp.mark, hoperand]
        cases r <;> rfl
    | _ => cases hop

theorem IsWhole.isOperand (h : IsWhole ts r) :
    IsOperand (.mark .leftParen :: (ts ++ [.mark .rightParen])) r where
  ne_nil := List.cons_ne_nil _ _
  unary_eq fuel rest hfuel := by
    simp only [List.length_cons, List.length_append, List.length_nil] at hfuel
    obtain ⟨fuel, rfl⟩ : ∃ n, fuel = n + 1 := ⟨fuel - 1, by omega⟩
    have hchoice := h.choice_eq fuel (.mark .rightParen :: rest) (by omega)
      (stopsAt_mark nofun) (by simp)
    rw [List.cons_append, List.append_assoc, List.singleton_append]
    simp only [Condition.unary, hchoice]
    cases r <;> rfl

theorem IsOperand.isTerm (h : IsOperand ts r) (least : Nat) : IsTerm least ts r where
  binary_eq := by
    have hlength := List.length_pos_iff.2 h.ne_nil
    refine ⟨1, Nat.one_pos, hlength, fun fuel level rest hfuel _ _ => ?_⟩
    obtain ⟨fuel, rfl⟩ : ∃ n, fuel = n + 1 := ⟨fuel - 1, by omega⟩
    rw [Condition.binary, h.unary_eq fuel rest (by omega)]
    cases r <;> rfl

/-- An operator takes what stands in front of it where that binds as tightly, and what stands behind
it where that binds more tightly. -/
theorem IsTerm.operation {op : BinaryOp} (hop : op ≠ .logicalXor) {least least' : Nat}
    {ts' : List ConditionToken} {r' : Except ConditionError (BitVec 64)} (h : IsTerm least ts r)
    (h' : IsTerm least' ts' r') (hleast : binding op ≤ least) (hleast' : binding op < least') :
    IsTerm (binding op) (ts ++ .mark op.mark :: ts')
      (r >>= fun x => r' >>= fun y => apply op x y) where
  binary_eq := by
    obtain ⟨steps, hpos, hsteps, hleft⟩ := h.binary_eq
    obtain ⟨steps', hpos', hsteps', hright⟩ := h'.binary_eq
    refine ⟨steps + 1, Nat.succ_pos _, by simp; omega, ?_⟩
    intro fuel level rest hfuel hlevel hstops
    simp only [List.length_append, List.length_cons] at hfuel
    obtain ⟨fuel', hfuel'⟩ : ∃ n, fuel - steps = n + 1 := ⟨fuel - steps - 1, by omega⟩
    obtain ⟨fuel'', hfuel''⟩ : ∃ n, fuel' - steps' = n + 1 := ⟨fuel' - steps' - 1, by omega⟩
    have hmark : StopsAt (least + 1) (.mark op.mark :: (ts' ++ rest)) := by
      apply stopsAt_mark
      intro op' n hn
      rw [operator?_mark hop] at hn
      cases hn
      omega
    rw [List.append_assoc, List.cons_append,
      hleft fuel level _ (by omega) (by omega) hmark, bind_assoc]
    refine congrArg (r >>= ·) (funext fun x => ?_)
    rw [hfuel', operations_mark (operator?_mark hop) hlevel,
      hright fuel' (binding op + 1) rest (by omega) hleast' (hstops.mono (by omega)), bind_assoc,
      bind_assoc]
    refine congrArg (r' >>= ·) (funext fun y => ?_)
    rw [hfuel'', operations_of_stopsAt hstops, Nat.sub_add_eq, hfuel']
    rfl

theorem IsTerm.binary_eq_of_stopsAt {least : Nat} (h : IsTerm least ts r)
    (hleast : 1 ≤ least) {fuel : Nat} (hfuel : 4 * ts.length ≤ fuel + 1) (hstops : StopsAt 1 rest) :
    binary fuel 1 (ts ++ rest) = (·, rest) <$> r := by
  obtain ⟨steps, hpos, hsteps, hbinary⟩ := h.binary_eq
  obtain ⟨fuel', hfuel'⟩ : ∃ n, fuel - steps = n + 1 := ⟨fuel - steps - 1, by omega⟩
  rw [hbinary fuel 1 rest hfuel hleast (hstops.mono (by omega)), hfuel']
  simp only [operations_of_stopsAt hstops]
  cases r <;> rfl

theorem IsTerm.isWhole {least : Nat} (h : IsTerm least ts r) (hleast : 1 ≤ least) :
    IsWhole ts r where
  ne_nil := by
    obtain ⟨steps, hpos, hsteps, _⟩ := h.binary_eq
    exact List.ne_nil_of_length_pos (Nat.lt_of_lt_of_le hpos hsteps)
  choice_eq fuel rest hfuel hstops hquestion := by
    obtain ⟨steps, hpos, hsteps, _⟩ := h.binary_eq
    obtain ⟨fuel, rfl⟩ : ∃ n, fuel = n + 1 := ⟨fuel - 1, by omega⟩
    rw [Condition.choice, h.binary_eq_of_stopsAt hleast (by omega) hstops]
    cases r with
    | error e => rfl
    | ok v =>
        simp only [Functor.map, Except.map, bind, Except.bind]
        split
        · cases hquestion rfl
        · rfl

/-- Both branches of a choice are read as whole conditions. -/
theorem IsTerm.choice {least : Nat} {ts₁ ts₂ : List ConditionToken}
    {r₁ r₂ : Except ConditionError (BitVec 64)} (h : IsTerm least ts r) (hleast : 1 ≤ least)
    (h₁ : IsWhole ts₁ r₁) (h₂ : IsWhole ts₂ r₂) :
    IsWhole (ts ++ .mark .question :: (ts₁ ++ .mark .colon :: ts₂))
      (r >>= fun x => r₁ >>= fun y => r₂ >>= fun z => pure (if x ≠ 0 then y else z)) where
  ne_nil := by simp
  choice_eq fuel rest hfuel hstops hquestion := by
    simp only [List.length_append, List.length_cons] at hfuel
    obtain ⟨fuel, rfl⟩ : ∃ n, fuel = n + 1 := ⟨fuel - 1, by omega⟩
    have htrue := h₁.choice_eq fuel (.mark .colon :: (ts₂ ++ rest)) (by omega)
      (stopsAt_mark nofun) (by simp)
    have hfalse := h₂.choice_eq fuel rest (by omega) hstops hquestion
    have hmark : StopsAt 1 (.mark .question :: (ts₁ ++ .mark .colon :: (ts₂ ++ rest))) :=
      stopsAt_mark nofun
    have hcondition := h.binary_eq_of_stopsAt hleast (by omega : 4 * ts.length ≤ fuel + 1) hmark
    simp only [List.append_assoc, List.cons_append]
    rw [Condition.choice, hcondition]
    cases r with
    | error e => rfl
    | ok x =>
        change Condition.choice fuel _ >>= _ = _
        rw [htrue]
        cases r₁ with
        | error e => rfl
        | ok y =>
            change Condition.choice fuel _ >>= _ = _
            rw [hfalse]
            cases r₂ <;> rfl

end Condition

namespace ConditionTree

open Condition

/-- Where the tokens of a tree can stand. -/
structure Readable (T : ConditionTree) : Prop where
  whole : IsWhole T.tokens T.result
  term : 0 < T.level → IsTerm T.level T.tokens T.result
  operand : T.level = 11 → IsOperand T.tokens T.result

theorem Readable.grouped_operand {T : ConditionTree} (h : T.Readable) :
    IsOperand (grouped T.level 11 T.tokens) T.result := by
  unfold grouped
  split
  · exact h.whole.isOperand
  · exact h.operand (Nat.le_antisymm T.level_le (by omega))

theorem Readable.grouped_term {T : ConditionTree} (h : T.Readable) {least : Nat}
    (hpos : 0 < least) :
    ∃ least', least ≤ least' ∧ IsTerm least' (grouped T.level least T.tokens) T.result := by
  unfold grouped
  split
  · exact ⟨least, Nat.le_refl _, h.whole.isOperand.isTerm least⟩
  · exact ⟨T.level, by omega, h.term (by omega)⟩

theorem readable_of_isOperand {T : ConditionTree}
    (h : IsOperand T.tokens T.result) : T.Readable where
  whole := (h.isTerm 11).isWhole (by decide)
  term _ := h.isTerm T.level
  operand _ := h

theorem readable (T : ConditionTree) : T.Readable := by
  induction T with
  | number n => exact readable_of_isOperand (isOperand_number _)
  | unary op e ih => exact readable_of_isOperand (ih.grouped_operand.unary op.property)
  | binary op a b iha ihb =>
      obtain ⟨least, hleast, ha⟩ := iha.grouped_term (binding_pos op)
      obtain ⟨least', hleast', hb⟩ := ihb.grouped_term (Nat.succ_pos (binding op))
      have hterm : IsTerm (binding op) (binary op a b).tokens (binary op a b).result :=
        ha.operation op.property hb hleast hleast'
      exact ⟨hterm.isWhole (binding_pos op), fun _ => hterm,
        fun h => absurd (h ▸ binding_le op : 11 ≤ 10) (by decide)⟩
  | choice c a b ihc iha ihb =>
      obtain ⟨least, hleast, hc⟩ := ihc.grouped_term Nat.one_pos
      exact ⟨hc.choice hleast iha.whole ihb.whole, nofun, nofun⟩

theorem valueOf_tokens (T : ConditionTree) : valueOf T.tokens = T.result := by
  have hchoice := T.readable.whole.choice_eq (4 * T.tokens.length + 4) []
    (by omega) stopsAt_nil nofun
  rw [List.append_nil] at hchoice
  rw [valueOf, if_neg (by simpa using T.readable.whole.ne_nil), hchoice]
  cases T.result <;> rfl

/-! ### Text -/

/-- The text of a tree, in which a space stands between tokens. -/
def text (T : ConditionTree) : List Char :=
  [' '].intercalate (T.tokens.map fun t => t.text.toList)

end ConditionTree

namespace Condition

/-- The tokens that trees are written with. -/
inductive Written : ConditionToken → Prop
  | number {n : Nat} : n < wordCount 63 → Written (.number (BitVec.ofNat 64 n))
  | mark {p : Punct} : p ∈ marks → Written (.mark p)

theorem text_number {n : Nat} (h : n < wordCount 63) :
    (ConditionToken.number (BitVec.ofNat 64 n)).text.toList = Nat.toDigits 10 n := by
  rw [ConditionToken.text, ConditionTree.toInt_ofNat h]
  exact String.toList_ofList

theorem chars_of_mem_marks {p : Punct} (hp : p ∈ marks) {c : Char} (hc : c ∈ p.spelling.toList) :
    isBlank c = false ∧ isDigit c = false ∧ isWordStart c = false := by
  have hmarks : (marks.all fun p => p.spelling.toList.all fun c =>
      !isBlank c && (!isDigit c && !isWordStart c)) = true := by decide
  have hchar := List.all_eq_true.1 (List.all_eq_true.1 hmarks p hp) c hc
  simpa only [Bool.and_eq_true, Bool.not_eq_true'] using hchar

theorem Written.isWordStart_eq {t : ConditionToken} (h : Written t) {c : Char}
    (hc : c ∈ t.text.toList) : isWordStart c = false := by
  cases h with
  | number hn =>
      rw [text_number hn] at hc
      exact isWordStart_of_isDigit (isDigit_of_mem_toDigits hc)
  | mark hp => exact (chars_of_mem_marks hp hc).2.2

theorem isWordStart_of_mem_intercalate {ts : List ConditionToken} (h : ∀ t ∈ ts, Written t) :
    ∀ c ∈ [' '].intercalate (ts.map fun t => t.text.toList), isWordStart c = false := by
  induction ts with
  | nil => nofun
  | cons t ts ih =>
      intro c hc
      have ht := h t List.mem_cons_self
      cases ts with
      | nil =>
          rw [List.map_singleton, List.intercalate_singleton] at hc
          exact ht.isWordStart_eq hc
      | cons u us =>
          rw [List.map_cons, List.map_cons, List.intercalate_cons_cons] at hc
          rcases List.mem_append.1 hc with hc | hc
          · rcases List.mem_append.1 hc with hc | hc
            · exact ht.isWordStart_eq hc
            · rcases List.mem_singleton.1 hc with rfl
              decide
          · exact ih (fun v hv => h v (List.mem_cons_of_mem _ hv)) c hc

/-! ### Tokens of a text -/

theorem tokens_space (cs : List Char) : tokens (' ' :: cs) = tokens cs := by
  rw [tokens]
  conv_rhs => rw [tokens]
  rfl

theorem tokens_nil : tokens [] = .ok [] := by
  rw [tokens]
  rfl

theorem tokens_cons {c : Char} {cs : List Char} (h : isBlank c = false) :
    tokens (c :: cs) =
      if isDigit c then do
        let n ← integer (c :: cs.takeWhile isWordChar)
        (.number n :: ·) <$> tokens (cs.dropWhile isWordChar)
      else if isWordStart c then (.number 0 :: ·) <$> tokens (cs.dropWhile isWordChar)
      else
        match marks.find? fun p => (after? p.spelling.toList (c :: cs)).isSome with
        | none => .error (.invalidToken c)
        | some p => (.mark p :: ·) <$> tokens (cs.drop (p.spelling.length - 1)) := by
  have htrim : trimStart (c :: cs) = c :: cs := by simp [trimStart, h]
  rw [tokens]
  split
  · rename_i hnil
    cases htrim.symm.trans hnil
  · rename_i hcons
    cases htrim.symm.trans hcons
    rfl

/-- Nothing follows, or a space. -/
def Separated (rest : List Char) : Prop :=
  ∀ c ∈ rest.head?, c = ' '

theorem dropTailWhile_of_forall {p : Char → Bool} {cs : List Char} (h : ∀ c ∈ cs, p c = false) :
    dropTailWhile p cs = cs := by
  induction cs with
  | nil => rfl
  | cons c cs ih =>
      rw [dropTailWhile, ih fun d hd => h d (List.mem_cons_of_mem _ hd)]
      cases cs with
      | nil => simp [h c List.mem_cons_self]
      | cons => rfl

theorem integer_toDigits {n : Nat} (h : n < wordCount 63) :
    integer (Nat.toDigits 10 n) = .ok (BitVec.ofNat 64 n) := by
  have hdigit : ∀ c ∈ Nat.toDigits 10 n, isDigit c := fun c hc => isDigit_of_mem_toDigits hc
  have hbody : dropTailWhile (fun c => c == 'u' || c == 'U' || c == 'l' || c == 'L')
      (Nat.toDigits 10 n) = Nat.toDigits 10 n := by
    apply dropTailWhile_of_forall
    intro c hc
    simp only [Bool.or_eq_false_iff, beq_eq_false_iff_ne]
    refine ⟨⟨⟨?_, ?_⟩, ?_⟩, ?_⟩ <;>
    · rintro rfl
      exact absurd (hdigit _ hc) (by decide)
  have hall : ((Nat.toDigits 10 n).all fun c => isHexDigit c && digitValue c < 10) = true := by
    rw [List.all_eq_true]
    intro c hc
    simp [isHexDigit, hdigit c hc, digitValue_lt (hdigit c hc)]
  have hvalue : digits? 10 (Nat.toDigits 10 n) = some (BitVec.ofNat 64 n) := by
    have hne : Nat.toDigits 10 n ≠ [] := List.ne_nil_of_length_pos Nat.length_toDigits_pos
    unfold digits?
    rw [digitsValue_toDigits, if_pos ⟨hne, hall, h⟩]
  unfold integer
  simp only [hbody]
  -- Only zero itself begins with a zero, and so nothing is read in another radix.
  split
  all_goals
    rename_i heq
    split at heq
    · rename_i hzero
      cases eq_nil_of_toDigits hzero
    · rename_i hzero
      cases eq_nil_of_toDigits hzero
    · rename_i hzero
      cases eq_nil_of_toDigits hzero
    · rw [hvalue] at heq
      cases heq <;> rfl

theorem tokens_number {n : Nat} (h : n < wordCount 63) {rest : List Char} (hrest : Separated rest) :
    tokens (Nat.toDigits 10 n ++ rest) = (.number (BitVec.ofNat 64 n) :: ·) <$> tokens rest := by
  have hdigit : ∀ c ∈ Nat.toDigits 10 n, isDigit c := fun c hc => isDigit_of_mem_toDigits hc
  have hinteger := integer_toDigits h
  cases hdigits : Nat.toDigits 10 n with
  | nil => exact absurd hdigits (List.ne_nil_of_length_pos Nat.length_toDigits_pos)
  | cons d ds =>
      rw [hdigits] at hdigit hinteger
      have hd := hdigit d List.mem_cons_self
      have hds : ∀ c ∈ ds, isWordChar c := fun c hc =>
        isWordChar_of_isDigit (hdigit c (List.mem_cons_of_mem _ hc))
      have hend : rest.takeWhile isWordChar = [] ∧ rest.dropWhile isWordChar = rest := by
        cases rest with
        | nil => exact ⟨rfl, rfl⟩
        | cons c cs =>
            rcases hrest c rfl with rfl
            exact ⟨rfl, rfl⟩
      rw [List.cons_append, tokens_cons (isBlank_of_isDigit hd), if_pos hd,
        List.takeWhile_append_of_pos hds, List.dropWhile_append_of_pos hds, hend.1, hend.2,
        List.append_nil, hinteger]
      rfl

theorem isSome_after?_append {pattern cs rest : List Char} (hpattern : ' ' ∉ pattern)
    (hrest : Separated rest) : (after? pattern (cs ++ rest)).isSome =
      (after? pattern cs).isSome := by
  induction pattern generalizing cs with
  | nil => cases cs <;> rfl
  | cons p pattern ih =>
      cases cs with
      | cons c cs =>
          simp only [List.cons_append, after?]
          split
          · exact ih (List.not_mem_of_not_mem_cons hpattern)
          · rfl
      | nil =>
          cases rest with
          | nil => rfl
          | cons c rest =>
              rcases hrest c rfl with rfl
              simp only [List.nil_append, after?]
              rw [if_neg fun h : p = ' ' => hpattern (h ▸ List.mem_cons_self)]

theorem find?_marks {p : Punct} (hp : p ∈ marks) {rest : List Char} (hrest : Separated rest) :
    (marks.find? fun q => (after? q.spelling.toList (p.spelling.toList ++ rest)).isSome) =
      some p := by
  have hspace (q : Punct) : ' ' ∉ q.spelling.toList := by cases q <;> decide
  have hfind : ∀ p ∈ marks,
      (marks.find? fun q => (after? q.spelling.toList p.spelling.toList).isSome) = some p := by
    decide
  simp only [isSome_after?_append (hspace _) hrest]
  exact hfind p hp

theorem tokens_mark {p : Punct} (hp : p ∈ marks) {rest : List Char} (hrest : Separated rest) :
    tokens (p.spelling.toList ++ rest) = (.mark p :: ·) <$> tokens rest := by
  have hfind := find?_marks hp hrest
  have hlength : p.spelling.length = p.spelling.toList.length := String.length_toList.symm
  have hne : ∀ p ∈ marks, p.spelling.toList ≠ [] := by decide
  cases hspelling : p.spelling.toList with
  | nil => exact absurd hspelling (hne p hp)
  | cons c cs =>
      obtain ⟨hblank, hdigit, hword⟩ :=
        chars_of_mem_marks hp (hspelling ▸ List.mem_cons_self : c ∈ p.spelling.toList)
      rw [hspelling, List.cons_append] at hfind
      rw [hspelling, List.length_cons] at hlength
      rw [List.cons_append, tokens_cons hblank, if_neg (by simp [hdigit]), if_neg (by simp [hword]),
        hfind]
      simp only [hlength, Nat.add_sub_cancel, List.drop_left]

/-- A token is read as itself in front of a space and at the end of a text. -/
theorem Written.tokens_append {t : ConditionToken} (h : Written t) {rest : List Char}
    (hrest : Separated rest) : tokens (t.text.toList ++ rest) = (t :: ·) <$> tokens rest := by
  cases h with
  | number hn =>
      rw [text_number hn]
      exact tokens_number hn hrest
  | mark hp => exact tokens_mark hp hrest

theorem tokens_intercalate {ts : List ConditionToken} (h : ∀ t ∈ ts, Written t) :
    tokens ([' '].intercalate (ts.map fun t => t.text.toList)) = .ok ts := by
  induction ts with
  | nil => exact tokens_nil
  | cons t ts ih =>
      have ht := h t List.mem_cons_self
      have hts := ih fun u hu => h u (List.mem_cons_of_mem _ hu)
      cases ts with
      | nil =>
          have hend : Separated [] := nofun
          have hlast := ht.tokens_append hend
          rw [List.append_nil, tokens_nil] at hlast
          rw [List.map_singleton, List.intercalate_singleton, hlast]
          rfl
      | cons u us =>
          rw [List.map_cons, List.map_cons, List.intercalate_cons_cons, List.append_assoc,
            ht.tokens_append (by rintro c ⟨⟩; rfl), List.singleton_append, tokens_space]
          exact (congrArg _ hts).trans rfl

/-! ### Texts without names -/

theorem evaluate_eq_tokens {cs : List Char} (h : ∀ c ∈ cs, isWordStart c = false) (line : Nat) :
    evaluate {} line cs = tokens cs >>= valueOf := by
  have hpieces : ∀ p ∈ pieces cs, ∀ c ∈ p.text, isWordStart c = false := by
    intro p hp c hc
    apply h
    rw [← Piece.textOf_pieces cs]
    exact List.mem_flatMap.2 ⟨p, hp, hc⟩
  have hname {p : Piece} (hp : p ∈ pieces cs) {name : String}
      (hname : ∃ c ∈ name.toList, isWordStart c) : p.name ≠ name := by
    rintro rfl
    obtain ⟨c, hc, hstart⟩ := hname
    rw [hpieces p hp c (by rwa [Piece.name, String.toList_ofList] at hc)] at hstart
    cases hstart
  have hanswer (ps : List Piece) (hps : ∀ p ∈ ps, p.name ≠ "defined") :
      answerDefined {} ps = .ok (Piece.textOf ps) := by
    induction ps with
    | nil => rw [answerDefined]; rfl
    | cons p ps ih =>
        rw [answerDefined, if_neg (hps p List.mem_cons_self),
          ih fun q hq => hps q (List.mem_cons_of_mem _ hq)]
        rfl
  have hexpand : expand {} line [] (pieces cs) = .ok cs := by
    rw [expand_of_find?, Piece.textOf_pieces]
    intro p hp
    refine ⟨?_, rfl⟩
    have hline : p.name ≠ "__LINE__" := hname hp ⟨'_', by decide, by decide⟩
    simpa [Piece.isLineName] using hline
  unfold evaluate
  rw [hanswer _ fun p hp => hname hp ⟨'d', by decide, by decide⟩, Piece.textOf_pieces]
  change (expand {} line [] (pieces cs)).mapError _ >>= _ = _
  rw [hexpand]
  rfl

end Condition

namespace ConditionTree

open Condition

theorem unaryMark_mem_marks {op : UnaryOp} (h : op.isStep = false) : op.mark ∈ marks := by
  cases op <;> first | decide | cases h

theorem binaryMark_mem_marks {op : BinaryOp} (h : op ≠ .logicalXor) : op.mark ∈ marks := by
  cases op <;> first | decide | exact absurd rfl h

theorem written_of_mem_tokens (T : ConditionTree) : ∀ t ∈ T.tokens, Written t := by
  have hgrouped {level least : Nat} {ts : List ConditionToken} (h : ∀ t ∈ ts, Written t) :
      ∀ t ∈ grouped level least ts, Written t := by
    unfold grouped
    split
    · intro t ht
      simp only [List.mem_cons, List.mem_append, List.not_mem_nil, or_false] at ht
      rcases ht with rfl | ht | rfl
      · exact .mark (by decide)
      · exact h t ht
      · exact .mark (by decide)
    · exact h
  induction T with
  | number n =>
      intro t ht
      rcases List.mem_singleton.1 ht with rfl
      exact .number n.isLt
  | unary op e ih =>
      intro t ht
      rcases List.mem_cons.1 ht with rfl | ht
      · exact .mark (unaryMark_mem_marks op.property)
      · exact hgrouped ih t ht
  | binary op a b iha ihb =>
      intro t ht
      rcases List.mem_append.1 ht with ht | ht
      · exact hgrouped iha t ht
      rcases List.mem_cons.1 ht with rfl | ht
      · exact .mark (binaryMark_mem_marks op.property)
      · exact hgrouped ihb t ht
  | choice c a b ihc iha ihb =>
      intro t ht
      simp only [tokens, List.mem_append, List.mem_cons] at ht
      rcases ht with ht | rfl | ht | rfl | ht
      · exact hgrouped ihc t ht
      · exact .mark (by decide)
      · exact iha t ht
      · exact .mark (by decide)
      · exact ihb t ht

theorem evaluate_text (T : ConditionTree) (line : Nat) : evaluate {} line T.text = T.result := by
  have hwritten := T.written_of_mem_tokens
  unfold text
  rw [evaluate_eq_tokens (isWordStart_of_mem_intercalate hwritten), tokens_intercalate hwritten]
  exact T.valueOf_tokens

/-- With no macro defined, the text of a tree is evaluated to the value of the tree. A division by
zero is reported exactly where there is one in the tree, even where other parts decide the value. -/
theorem evaluates (T : ConditionTree) (line : Nat) :
    (∀ v, T.value? = some v ↔ ∃ bits, evaluate {} line T.text = .ok bits ∧ bits.toInt = v) ∧
      ∀ e, evaluate {} line T.text = .error e ↔
        e = .divisionByZero ∧ ∃ U ∈ T.parts, U.DividesByZero := by
  have hcomputes := T.computes_result
  rw [T.evaluate_text line]
  simp only [← T.value?_eq_none_iff]
  cases hvalue : T.value? with
  | none =>
      rw [hvalue] at hcomputes
      rw [show T.result = _ from hcomputes]
      refine ⟨fun v => ⟨nofun, fun ⟨_, h, _⟩ => nomatch h⟩, fun e => ?_⟩
      rw [Except.error.injEq, eq_comm]
      exact (and_iff_left rfl).symm
  | some n =>
      rw [hvalue] at hcomputes
      obtain ⟨bits, hbits, rfl⟩ := hcomputes
      rw [hbits]
      refine ⟨fun v => ⟨fun h => ⟨bits, rfl, Option.some.inj h⟩, ?_⟩, fun e => ⟨nofun, nofun⟩⟩
      rintro ⟨_, h, rfl⟩
      cases h
      rfl

example : (binary ⟨.sub, nofun⟩ (number ⟨1, by decide⟩)
    (binary ⟨.sub, nofun⟩ (number ⟨2, by decide⟩)
      (unary ⟨.minus, rfl⟩ (number ⟨3, by decide⟩)))).text = "1 - ( 2 - - 3 )".toList := by
  decide

end ConditionTree

end ShaderBridge
