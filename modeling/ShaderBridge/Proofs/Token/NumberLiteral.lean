import ShaderBridge.Proofs.Constant.Folding
import ShaderBridge.Proofs.Parse.Printed
import ShaderBridge.Proofs.Token.RealSpelling

namespace ShaderBridge

/-- The tokens of a text are of the given kinds. -/
def ConsistsOf (cs : List Char) (kinds : List TokenKind) : Prop :=
  ∃ tokens, tokenize (String.ofList cs) = .ok tokens ∧
    tokens.map Token.kind = kinds ++ [.endOfFile]

/-- Nothing is left but the end of the file. -/
def AtEnd (tokens : List Token) : Prop :=
  ∃ place, tokens = [⟨.endOfFile, place⟩]

theorem Lexes.consistsOf {cs : List Char} {kinds : List TokenKind}
    (h : Lexes cs (AreFirst kinds AtEnd)) : ConsistsOf cs kinds := by
  obtain ⟨_, htokens, ts, _, rfl, rfl, place, rfl⟩ := h 0
  exact ⟨_, by rw [tokenize, String.toList_ofList, htokens], by rw [List.map_append]; rfl⟩

theorem lexeme_minus {d : Char} (hassign : d ≠ '=') (hminus : d ≠ '-') (cs : List Char) :
    lexeme '-' (d :: cs) = .token (.punct .minus) 0 := by
  have hmark : UnaryOp.minus.mark.spelling.toList = ['-'] := rfl
  exact lexeme_prefix hmark hassign nofun (fun _ => hminus) cs

theorem lexes_minus {P : List Token → Prop} {d : Char} {cs : List Char} (hd : isDigit d)
    (h : Lexes (d :: cs) P) : Lexes ('-' :: d :: cs) (FirstIs (.punct .minus) P) := by
  have hsign : d ≠ '=' ∧ d ≠ '-' := by
    constructor <;>
    · rintro rfl
      exact absurd hd (by decide)
  exact lexes_mark .minus (lexeme_minus hsign.1 hsign.2 cs) h

theorem lexes_unsignedText {k : IntKind} (bits : BitVec k.width) :
    Lexes (Constant.integer k bits).unsignedText (AreFirst [.number (.integer k bits)] AtEnd) := by
  have hends : Numeral.EndsInteger k [] := nofun
  have h := (lexes_integer bits hends lexes_nil).singleton
  rwa [List.append_nil] at h

namespace Constant

theorem unary_minus_magnitude (k : IntKind) (bits : BitVec k.width) :
    unary .minus (integer k (-bits)) = .ok (integer k bits) := by
  rw [unary, BitVec.neg_neg]

/-- What is written for an integer that is not negative is read as that integer. What is written for
a negative one is read as a minus sign and an integer of the same kind, and folding the negation of
the latter yields the integer. -/
theorem integer_readsBack (k : IntKind) (bits : BitVec k.width) :
    if k.toInt bits < 0 then
      ∃ d : BitVec k.width,
        ConsistsOf (Hlsl.literalText (integer k bits)) [.punct .minus, .number (integer k d)] ∧
        unary .minus (integer k d) = .ok (integer k bits) ∧
        ∀ (s : Shader) (id : ExprId), s.Represents id (.unary .minus (.literal (integer k d))) →
          s.Folds id (integer k bits)
    else ConsistsOf (Hlsl.literalText (integer k bits)) [.number (integer k bits)] := by
  split
  · next hnegative =>
      have hfold := unary_minus_magnitude k bits
      refine ⟨-bits, ?_, hfold, fun s id hid => ?_⟩
      · have hdigits : ∀ x ∈ Nat.toDigits 10 (-bits).toNat, isDigit x :=
          fun x hx => isDigit_of_mem_toDigits hx
        have hnumber := lexes_unsignedText (-bits)
        rw [literalText_of_isNegative (decide_eq_true hnegative)]
        show ConsistsOf ('-' :: (Nat.toDigits 10 (-bits).toNat ++ Hlsl.intSuffix k)) _
        rw [unsignedText] at hnumber
        cases hds : Nat.toDigits 10 (-bits).toNat with
        | nil => exact absurd hds (List.ne_nil_of_length_pos Nat.length_toDigits_pos)
        | cons d ds =>
            rw [hds] at hnumber hdigits
            exact (lexes_minus (hdigits d List.mem_cons_self) hnumber).cons.consistsOf
      · rw [Folding.folds_iff hid]
        show (Except.toOption (unary .minus (integer k (-bits)))) = _
        rw [hfold]
        rfl
  · next hnatural =>
      have hnonneg : (integer k bits).isNegative = false := decide_eq_false hnatural
      rw [unsignedText_of_nonneg hnonneg]
      exact (lexes_unsignedText bits).consistsOf

end Constant

end ShaderBridge

namespace ShaderBridge

open scoped PlainNumbers

/-- The constant that is nearest to a floating-point literal. Its decimal is rounded once, to the
kind that its ending asks for. -/
def Numeral.nearest? : Numeral → Option Constant
  | .real whole fraction exponent kind =>
    some (.real kind (kind.format.ofDecimal (digitsValue 10 (whole ++ fraction))
      (exponent - fraction.length)))
  | .integer .. => none

/-- The text is one number literal, and the constant is both what the literal is read as and what
is nearest to its decimal. -/
def IsLiteral (cs : List Char) (c : Constant) : Prop :=
  ConsistsOf cs [.number c] ∧
    ∃ numeral, Numeral.scan? cs = some (numeral, cs.length) ∧ numeral.nearest? = some c

/-- What is written for a constant is a literal of the constant, or a minus sign in front of a
literal that the sign turns into the constant. -/
def ReadsBack (c : Constant) : Prop :=
  IsLiteral (Hlsl.literalText c) c ∨
    ∃ cs d, Hlsl.literalText c = '-' :: cs ∧
      ConsistsOf (Hlsl.literalText c) [.punct .minus, .number d] ∧ IsLiteral cs d ∧
      Constant.unary .minus d = .ok c

theorem ConsistsOf.unique {cs : List Char} {kinds kinds' : List TokenKind}
    (h : ConsistsOf cs kinds) (h' : ConsistsOf cs kinds') : kinds = kinds' := by
  obtain ⟨tokens, htokens, hkinds⟩ := h
  obtain ⟨tokens', htokens', hkinds'⟩ := h'
  rw [htokens] at htokens'
  cases htokens'
  exact List.append_cancel_right (hkinds.symm.trans hkinds')

theorem not_readsBack {c : Constant} {kinds : List TokenKind}
    (h : ConsistsOf (Hlsl.literalText c) kinds) (hfirst : kinds ≠ [.number c])
    (hsecond : ∀ d, kinds ≠ [.punct .minus, .number d]) : ¬ReadsBack c := by
  rintro (⟨hconsists, -⟩ | ⟨_, d, -, hconsists, -, -⟩)
  · exact hfirst (h.unique hconsists)
  · exact hsecond d (h.unique hconsists)

namespace Spells

variable {cs : List Char} {p : Positional} {e : ℤ} {k : RealKind}

theorem lexes (h : Spells cs p e) {c : Constant}
    (hvalue : (Numeral.real p.whole p.fraction e k).value = .ok c) :
    Lexes (cs ++ realEnding k) (AreFirst [.number c] AtEnd) := by
  obtain ⟨⟨d, hd, hdigit⟩, hscan⟩ := h
  obtain ⟨ds, rfl⟩ := List.head?_eq_some_iff.1 hd
  have hlexeme : lexeme d (ds ++ realEnding k) = _ := lexeme_of_isDigit hdigit (hscan k) hvalue
  have hrest : Lexes ((ds ++ realEnding k).drop (ds ++ realEnding k).length) AtEnd := by
    rw [List.drop_length]
    exact lexes_nil
  exact (lexes_token hlexeme hrest).singleton

theorem isLiteral (h : Spells cs p e) {c : Constant}
    (hvalue : (Numeral.real p.whole p.fraction e k).value = .ok c)
    (hnearest : (Numeral.real p.whole p.fraction e k).nearest? = some c) :
    IsLiteral (cs ++ realEnding k) c :=
  ⟨(h.lexes hvalue).consistsOf, _, h.2 k, hnearest⟩

theorem consistsOf_minus (h : Spells cs p e) {c : Constant}
    (hvalue : (Numeral.real p.whole p.fraction e k).value = .ok c) :
    ConsistsOf ('-' :: (cs ++ realEnding k)) [.punct .minus, .number c] := by
  have hlexes := h.lexes hvalue
  obtain ⟨⟨d, hd, hdigit⟩, -⟩ := h
  obtain ⟨ds, rfl⟩ := List.head?_eq_some_iff.1 hd
  exact (lexes_minus hdigit hlexes).cons.consistsOf

end Spells

namespace Constant

theorem literalText_real {k : RealKind} (hk : k ≠ .double) (bits : BitVec k.format.width) :
    Hlsl.literalText (.real k bits) =
      Hlsl.realText (k.format.decode bits) ++ realEnding k := by
  cases k with
  | half => rfl
  | float => exact (List.append_nil _).symm
  | double => exact absurd rfl hk

theorem realText_finite (negative : Bool) {s : Nat} (hs : 0 < s) (e : ℤ) :
    Hlsl.realText (.finite negative s e) =
      Hlsl.withFraction (Hlsl.signText negative ++
        Hlsl.magnitudeText (Hlsl.quotient s e).1 (Hlsl.quotient s e).2) := by
  cases s with
  | zero => exact absurd hs (Nat.lt_irrefl 0)
  | succ s => rfl

open BinaryFormat in
theorem exists_written (negative : Bool) {n : Nat} (hpos : 0 < n) (hn : n < single.infinityBits) :
    ∃ cs p e, Hlsl.realText (single.decode (single.withSign negative n)) =
        Hlsl.signText negative ++ cs ∧ Spells cs p e ∧
      single.ofDecimal (p.digits e).digits (p.digits e).exponent = single.withSign false n ∧
      single.ofValue (double.decode (double.ofDecimal (p.digits e).digits (p.digits e).exponent)) =
        single.withSign false n := by
  obtain ⟨s, e, hdecode, hvalue⟩ := decode_finite hn negative
  obtain ⟨hlow, hhigh⟩ := magnitude_single_bounds hpos hn
  have hmagnitude : 0 < single.magnitude n := (zpow_pos two_pos _).trans_le hlow
  have hs : 0 < s := Nat.pos_of_ne_zero fun h => by
    rw [h, Nat.cast_zero, zero_mul] at hvalue
    exact hmagnitude.ne hvalue
  obtain ⟨hnum, hden⟩ := Hlsl.quotient_pos hs e
  have hratio := (Hlsl.quotient_div s e).trans hvalue
  rw [← hratio] at hlow hhigh
  have hnear :=
    (significantDigits_spec (n := Hlsl.shownDigits) (by decide) hnum hden hlow hhigh).2.2
  obtain ⟨cs, p, e', htext, hspells, hworth, hleast, hmost⟩ :=
    exists_spells hnum hden hlow hhigh negative
  rw [hratio, ← hworth] at hnear
  refine ⟨cs, p, e', ?_, hspells, decimal_readsBack hpos hn hleast hmost hnear⟩
  rw [hdecode, realText_finite negative hs, htext]

theorem exists_literal {k : RealKind} (hk : k ≠ .double) (negative : Bool) {n : Nat} (hpos : 0 < n)
    (hn : n < k.format.infinityBits) :
    ∃ cs p e, Hlsl.literalText (.real k (k.format.withSign negative n)) =
        Hlsl.signText negative ++ (cs ++ realEnding k) ∧ Spells cs p e ∧
      (Numeral.real p.whole p.fraction e k).value =
        .ok (.real k (k.format.withSign false n)) ∧
      (Numeral.real p.whole p.fraction e k).nearest? =
        some (.real k (k.format.withSign false n)) := by
  rw [literalText_real hk]
  cases k with
  | double => exact absurd rfl hk
  | half | float =>
      obtain ⟨cs, p, e, htext, hspells, honce, htwice⟩ := exists_written negative hpos hn
      exact ⟨cs, p, e, (congrArg (· ++ _) htext).trans (List.append_assoc ..), hspells,
        congrArg (fun bits => Except.ok (real _ bits)) htwice,
        congrArg (fun bits => some (real _ bits)) honce⟩

theorem realText_zero (k : RealKind) (negative : Bool) :
    Hlsl.realText (k.format.decode (k.format.zero negative)) = ['0', '.', '0'] := by
  cases k <;> cases negative <;> rfl

theorem isLiteral_zero {k : RealKind} (hk : k ≠ .double) (negative : Bool) :
    IsLiteral (Hlsl.literalText (.real k (k.format.zero negative)))
      (.real k (k.format.zero false)) := by
  have hdigit : ∀ c ∈ ['0'], isDigit c := fun c hc => isDigit_of_mem_replicate (k := 1) hc
  have hspells : Spells ['0', '.', '0'] _ 0 :=
    Positional.spells_text ⟨['0'], ['0'], List.cons_ne_nil _ _, hdigit, hdigit⟩
      (List.cons_ne_nil _ _)
  have hvalue : (Numeral.real ['0'] ['0'] 0 k).value = .ok (real k (k.format.zero false)) := by
    cases k <;> decide
  have hnearest :
      (Numeral.real ['0'] ['0'] 0 k).nearest? = some (real k (k.format.zero false)) := by
    cases k <;> rfl
  rw [literalText_real hk, realText_zero]
  exact hspells.isLiteral hvalue hnearest

theorem not_readsBack_zero {k : RealKind} (hk : k ≠ .double) :
    ¬ReadsBack (.real k (k.format.zero true)) := by
  refine not_readsBack (isLiteral_zero hk true).1 ?_ nofun
  cases k <;> decide

theorem lexes_wholeWord {c : Char} {w : List Char} (hc : isWordStart c)
    (hw : ∀ x ∈ w, isWordChar x) :
    Lexes (c :: w) (AreFirst [Lexeme.ofWord (String.ofList (c :: w))] AtEnd) := by
  have hend : ∀ x ∈ ([] : List Char).head?, isWordChar x = false := nofun
  have h := (lexes_word hc hw hend lexes_nil).singleton
  rwa [List.append_nil] at h

theorem isWordChar_of_mem_realEnding {k : RealKind} {c : Char} (hc : c ∈ realEnding k) :
    isWordChar c := by
  cases k with
  | float => cases hc
  | half | double =>
      simp only [realEnding, List.mem_cons, List.not_mem_nil, or_false] at hc
      rcases hc with rfl | rfl <;> rfl

theorem not_readsBack_infinite {k : RealKind} (hk : k ≠ .double) {negative : Bool}
    {bits : BitVec k.format.width} (hbits : k.format.decode bits = .infinite negative) :
    ¬ReadsBack (.real k bits) := by
  have hname : Lexes ('i' :: ('n' :: 'f' :: realEnding k)) _ :=
    lexes_wholeWord rfl (List.forall_mem_cons.2 ⟨rfl, List.forall_mem_cons.2
      ⟨rfl, fun _ hc => isWordChar_of_mem_realEnding hc⟩⟩)
  have hword : ∃ name, Lexeme.ofWord (String.ofList ('i' :: ('n' :: 'f' :: realEnding k))) =
      .ident name := by
    cases k <;> exact ⟨_, rfl⟩
  obtain ⟨name, hword⟩ := hword
  rw [hword] at hname
  have htext := literalText_real hk bits
  rw [hbits] at htext
  cases negative with
  | false =>
      have hconsists : ConsistsOf (Hlsl.literalText (real k bits)) [.ident name] := by
        rw [htext]
        exact hname.consistsOf
      exact not_readsBack hconsists nofun nofun
  | true =>
      have hconsists :
          ConsistsOf (Hlsl.literalText (real k bits)) [.punct .minus, .ident name] := by
        rw [htext]
        exact (lexes_mark .minus (lexeme_minus (by decide) (by decide) _) hname).cons.consistsOf
      exact not_readsBack hconsists nofun nofun

theorem not_readsBack_nan {k : RealKind} (hk : k ≠ .double) {bits : BitVec k.format.width}
    (hbits : k.format.decode bits = .nan) : ¬ReadsBack (.real k bits) := by
  have hname : Lexeme.ofWord (String.ofList ['N', 'a', 'N']) = .ident "NaN" := by decide
  have hzero : ∃ d n, lexeme '.' ('0' :: realEnding k) = .token (.number d) n ∧
      ('0' :: realEnding k).drop n = [] := by
    cases k <;> exact ⟨_, _, rfl, rfl⟩
  obtain ⟨d, n, hlexeme, hdrop⟩ := hzero
  have hnumber : Lexes ('.' :: '0' :: realEnding k) (FirstIs (.number d) AtEnd) :=
    lexes_token hlexeme (by rw [hdrop]; exact lexes_nil)
  have hlexes : Lexes ('N' :: (['a', 'N'] ++ '.' :: '0' :: realEnding k))
      (FirstIs (.ident "NaN") (AreFirst [.number d] AtEnd)) := by
    rw [← hname]
    exact lexes_word (w := ['a', 'N']) rfl
      (List.forall_mem_cons.2 ⟨rfl, List.forall_mem_cons.2 ⟨rfl, nofun⟩⟩)
      (fun x hx => by cases hx; rfl) hnumber.singleton
  have hconsists : ConsistsOf (Hlsl.literalText (real k bits)) [.ident "NaN", .number d] := by
    rw [literalText_real hk, hbits]
    exact hlexes.cons.consistsOf
  exact not_readsBack hconsists nofun nofun

/-- A floating-point constant of single precision is read back from what is written for it exactly
if it is a finite number other than the negative zero. -/
theorem real_readsBack_iff {k : RealKind} (hk : k ≠ .double) (bits : BitVec k.format.width) :
    ReadsBack (.real k bits) ↔
      (k.format.decode bits).isFinite ∧ bits ≠ k.format.zero true := by
  constructor
  · intro h
    refine ⟨?_, fun hbits => not_readsBack_zero hk (hbits ▸ h)⟩
    cases hdecode : k.format.decode bits with
    | nan => exact absurd h (not_readsBack_nan hk hdecode)
    | infinite => exact absurd h (not_readsBack_infinite hk hdecode)
    | finite => rfl
  · rintro ⟨hfinite, hzero⟩
    obtain ⟨negative, n, hn, rfl⟩ := BinaryFormat.exists_withSign_of_isFinite hfinite
    rcases Nat.eq_zero_or_pos n with rfl | hpos
    · cases negative with
      | false => exact .inl (isLiteral_zero hk false)
      | true => exact absurd rfl hzero
    · obtain ⟨cs, p, e, htext, hspells, hvalue, hnearest⟩ := exists_literal hk negative hpos hn
      have hliteral := hspells.isLiteral hvalue hnearest
      cases negative with
      | false => exact .inl (htext.symm ▸ hliteral)
      | true =>
          refine .inr ⟨_, _, htext, ?_, hliteral, ?_⟩
          · rw [htext]
            exact hspells.consistsOf_minus hvalue
          · exact congrArg (fun bits => Except.ok (real k bits)) (BinaryFormat.negate_withSign hn)

theorem readsBack_minus_one_point_five :
    RealKind.half ≠ .double ∧ ReadsBack (.real .half (RealKind.half.format.ofRatio true 3 2)) :=
  ⟨by decide, (real_readsBack_iff (k := .half) (by decide) _).2 ⟨by decide, by decide⟩⟩

/-- Folding yields what is not read back: the negation of zero, and a quotient by zero. -/
theorem folded_not_readsBack :
    (unary .minus (.real .float (BinaryFormat.single.zero false)) =
        .ok (.real .float (BinaryFormat.single.zero true)) ∧
      ¬ReadsBack (.real .float (BinaryFormat.single.zero true))) ∧
    (binary .div (.real .float (BinaryFormat.single.ofInt 1))
        (.real .float (BinaryFormat.single.zero false)) =
        .ok (.real .float (BinaryFormat.single.infinity false)) ∧
      ¬ReadsBack (.real .float (BinaryFormat.single.infinity false))) := by
  have hfloat : RealKind.float ≠ .double := by decide
  have hinfinite : RealKind.float.format.decode (BinaryFormat.single.infinity false) =
      .infinite false := by
    decide
  exact ⟨⟨by decide, not_readsBack_zero hfloat⟩,
    by decide, not_readsBack_infinite hfloat hinfinite⟩

end Constant

end ShaderBridge
