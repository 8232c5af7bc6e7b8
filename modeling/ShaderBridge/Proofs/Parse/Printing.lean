import ShaderBridge.Proofs.Parse.Phrase
import ShaderBridge.Proofs.Token.Spelling

namespace ShaderBridge

/-- An integer as it is printed without a sign. -/
def Constant.unsignedText : Constant → List Char
  | integer k bits => Nat.toDigits 10 bits.toNat ++ Hlsl.intSuffix k
  | c => Hlsl.literalText c

def Constant.isInteger : Constant → Bool
  | integer .. => true
  | _ => false

/-- Whether an operator in front of another one is taken for a part of a longer one. -/
def UnaryOp.absorbs : UnaryOp → UnaryOp → Bool
  | .plus, .plus | .plus, .preIncrement | .minus, .minus | .minus, .preDecrement => true
  | _, _ => false

namespace Phrase

def text (name : VarId → String) : Phrase → List Char
  | literal c => c.unsignedText
  | var v => (name v).toList
  | group p => '(' :: (p.text name ++ [')'])
  | prefixed op p => op.mark.spelling.toList ++ p.text name
  | stepped op p => p.text name ++ op.mark.spelling.toList
  | swizzle p field => p.text name ++ '.' :: field.toList
  | operation .sequence l r => l.text name ++ ',' :: ' ' :: r.text name
  | operation op l r => l.text name ++ ' ' :: (op.mark.spelling.toList ++ ' ' :: r.text name)
  | choice c t f => c.text name ++ ' ' :: '?' :: ' ' ::
    (t.text name ++ ' ' :: ':' :: ' ' :: f.text name)

/-- The operator that a phrase begins with. -/
def sign? : Phrase → Option UnaryOp
  | prefixed op _ => some op
  | stepped _ p | swizzle p _ | operation _ p _ | choice p _ _ => p.sign?
  | _ => none

/-- Whether a phrase ends with digits, which a point would continue. -/
def endsBare : Phrase → Bool
  | literal (.integer .int _) => true
  | prefixed _ p | operation _ _ p | choice _ _ p => p.endsBare
  | _ => false

/-- Whether the tokens of a phrase stay apart where nothing stands between them. -/
def Apart (name : VarId → String) : Phrase → Prop
  | literal c => c.isInteger
  | var v => isWord (name v).toList ∧ Lexeme.ofWord (name v) = .ident (name v)
  | group p => p.Apart name
  | prefixed op p => op.isPostfix = false ∧ p.Apart name ∧ ∀ sign ∈ p.sign?, op.absorbs sign = false
  | stepped op p => op.isPostfix ∧ p.Apart name
  | swizzle p field => p.Apart name ∧ p.endsBare = false ∧ isWord field.toList ∧
    Lexeme.ofWord field = .ident field
  | operation op l r => op ≠ .choice ∧ l.Apart name ∧ r.Apart name
  | choice c t f => c.Apart name ∧ t.Apart name ∧ f.Apart name

variable {name : VarId → String} {p : Phrase} {cs : List Char} {P : List Token → Prop}

/-- The character that a phrase begins with belongs to the operator in front of it. Where there is
none, it belongs to a number, a name or a parenthesis. -/
def Begins (p : Phrase) (d : Char) : Prop :=
  (∃ op, p.sign? = some op ∧ op.isPostfix = false ∧ op.mark.spelling.toList.head? = some d) ∨
    p.sign? = none ∧ (isDigit d ∨ isWordStart d ∨ d = '(')

theorem begins_append {q : Phrase} (hsign : q.sign? = p.sign?)
    (h : ∃ d rest, p.text name = d :: rest ∧ p.Begins d) (tail : List Char) :
    ∃ d rest, p.text name ++ tail = d :: rest ∧ q.Begins d := by
  obtain ⟨d, rest, htext, hd⟩ := h
  refine ⟨d, rest ++ tail, by rw [htext, List.cons_append], ?_⟩
  unfold Begins
  rw [hsign]
  exact hd

theorem exists_isWordStart {word : List Char} (hword : isWord word) :
    ∃ d rest, word = d :: rest ∧ isWordStart d := by
  cases word with
  | nil => cases hword
  | cons d rest =>
      refine ⟨d, rest, rfl, ?_⟩
      have hlead := eq_of_beq (Bool.and_eq_true_iff.1 hword).2
      by_contra hd
      rw [leadingWord, if_neg hd] at hlead
      cases hlead

theorem exists_begins (hp : p.Apart name) : ∃ d rest, p.text name = d :: rest ∧ p.Begins d := by
  induction p with
  | literal c =>
      cases c with
      | integer k bits =>
          cases hdigits : Nat.toDigits 10 bits.toNat with
          | nil => exact absurd hdigits (List.ne_nil_of_length_pos Nat.length_toDigits_pos)
          | cons d ds =>
              refine ⟨d, ds ++ Hlsl.intSuffix k, ?_, .inr ⟨rfl, .inl ?_⟩⟩
              · rw [text, Constant.unsignedText, hdigits, List.cons_append]
              · exact isDigit_of_mem_toDigits (hdigits ▸ List.mem_cons_self)
      | bool | real => cases hp
  | var v =>
      obtain ⟨d, rest, hchars, hd⟩ := exists_isWordStart hp.1
      exact ⟨d, rest, hchars, .inr ⟨rfl, .inr (.inl hd)⟩⟩
  | group p ih => exact ⟨'(', p.text name ++ [')'], rfl, .inr ⟨rfl, .inr (.inr rfl)⟩⟩
  | prefixed op p ih =>
      cases hmark : op.mark.spelling.toList with
      | nil => cases op <;> cases hmark
      | cons d rest =>
          refine ⟨d, rest ++ p.text name, ?_, .inl ⟨op, rfl, hp.1, by rw [hmark]; rfl⟩⟩
          rw [text, hmark, List.cons_append]
  | stepped op p ih => exact begins_append rfl (ih hp.2) _
  | swizzle p field ih => exact begins_append rfl (ih hp.1) _
  | operation op l r ihl ihr =>
      cases op with
      | binary | assign | sequence => exact begins_append rfl (ihl hp.2.1) _
      | choice => exact absurd rfl hp.1
  | choice c t f ihc iht ihf => exact begins_append rfl (ihc hp.1) _

theorem Begins.ne_eq {d : Char} (hd : p.Begins d) : d ≠ '=' := by
  rintro rfl
  rcases hd with ⟨op, -, hop, hhead⟩ | ⟨-, hd | hd | hd⟩
  · cases op <;> revert hhead <;> decide
  all_goals exact absurd hd (by decide)

theorem Begins.ne_plus {d : Char} (hd : p.Begins d)
    (h : ∀ sign ∈ p.sign?, UnaryOp.plus.absorbs sign = false) : d ≠ '+' := by
  rintro rfl
  rcases hd with ⟨op, hsign, hop, hhead⟩ | ⟨-, hd | hd | hd⟩
  · have habsorbs := h op hsign
    cases op <;> revert hhead habsorbs hop <;> decide
  all_goals exact absurd hd (by decide)

theorem Begins.ne_minus {d : Char} (hd : p.Begins d)
    (h : ∀ sign ∈ p.sign?, UnaryOp.minus.absorbs sign = false) : d ≠ '-' := by
  rintro rfl
  rcases hd with ⟨op, hsign, hop, hhead⟩ | ⟨-, hd | hd | hd⟩
  · have habsorbs := h op hsign
    cases op <;> revert hhead habsorbs hop <;> decide
  all_goals exact absurd hd (by decide)

end Phrase

theorem scan?_of_not_isDigit {c : Char} (hc : isDigit c = false) (hpoint : c ≠ '.')
    (cs : List Char) : Numeral.scan? (c :: cs) = none := by
  unfold Numeral.scan?
  simp only [List.takeWhile_cons, List.dropWhile_cons, hc]
  split
  · next h =>
      cases h
      exact absurd rfl hpoint
  · rfl

theorem isDigit_of_isWordStart {d : Char} (hd : isWordStart d) : isDigit d = false := by
  by_contra hdigit
  have hdigit : '0' ≤ d ∧ d ≤ '9' := by simpa [isDigit] using hdigit
  have hhigh {x : Char} (hx : '9' < x) : ¬ x ≤ d := fun h =>
    absurd (Char.le_trans h hdigit.2) (Char.not_le.2 hx)
  simp only [isWordStart, Bool.or_eq_true, Bool.and_eq_true, decide_eq_true_eq, beq_iff_eq] at hd
  rcases hd with (hd | hd) | rfl
  · exact hhigh (by decide) hd.1
  · exact hhigh (by decide) hd.1
  · exact absurd hdigit.2 (by decide)

theorem scan?_point {d : Char} (hd : isDigit d = false) (cs : List Char) :
    Numeral.scan? ('.' :: d :: cs) = none := by
  have hfraction : (d :: cs).takeWhile isDigit = [] := by rw [List.takeWhile_cons, hd]; rfl
  show (if _ && ((d :: cs).takeWhile isDigit).isEmpty then _ else _) = _
  rw [hfraction]
  rfl

theorem lexeme_of_punct? {c : Char} (hc : c = '+' ∨ c = '-' ∨ c = '!') {cs : List Char} {p : Punct}
    (h : Lexeme.punct? (c :: cs) = some p) :
    lexeme c cs = .token (.punct p) (p.spelling.length - 1) := by
  unfold lexeme
  rcases hc with rfl | rfl | rfl
  all_goals
    rw [if_neg (by decide), if_neg (by decide), scan?_of_not_isDigit (by decide) (by decide)]
    dsimp only
    rw [h]
    rfl

theorem lexeme_prefix {op : UnaryOp} {c d : Char} {tail : List Char}
    (hmark : op.mark.spelling.toList = c :: tail) (heq : d ≠ '=') (hplus : op = .plus → d ≠ '+')
    (hminus : op = .minus → d ≠ '-') (cs : List Char) :
    lexeme c (tail ++ d :: cs) = .token (.punct op.mark) tail.length := by
  have heq := heq.symm
  cases op with
  | plus =>
      cases hmark
      have hplus := (hplus rfl).symm
      have hpunct : Lexeme.punct? ('+' :: d :: cs) = some .plus := by
        simp [Lexeme.punct?, Punct.longestFirst, Punct.spelling, after?, heq, hplus]
      exact lexeme_of_punct? (.inl rfl) hpunct
  | minus =>
      cases hmark
      have hminus := (hminus rfl).symm
      have hpunct : Lexeme.punct? ('-' :: d :: cs) = some .minus := by
        simp [Lexeme.punct?, Punct.longestFirst, Punct.spelling, after?, heq, hminus]
      exact lexeme_of_punct? (.inr (.inl rfl)) hpunct
  | logicalNot =>
      cases hmark
      have hpunct : Lexeme.punct? ('!' :: d :: cs) = some .bang := by
        simp [Lexeme.punct?, Punct.longestFirst, Punct.spelling, after?, heq]
      exact lexeme_of_punct? (.inr (.inr rfl)) hpunct
  | bitNot | preIncrement | preDecrement | postIncrement | postDecrement =>
      cases hmark
      rfl

theorem lexeme_point {d : Char} (hd : isDigit d = false) (cs : List Char) :
    lexeme '.' (d :: cs) = .token (.punct .dot) 0 := by
  unfold lexeme
  rw [if_neg (by decide), if_neg (by decide), scan?_point hd]
  rfl

/-- Tokens of the given kinds come first, and what follows them has a property. -/
def AreFirst (kinds : List TokenKind) (P : List Token → Prop) (tokens : List Token) : Prop :=
  ∃ ts rest, tokens = ts ++ rest ∧ ts.map Token.kind = kinds ∧ P rest

variable {kind : TokenKind} {kinds kinds' : List TokenKind} {P : List Token → Prop}
  {cs : List Char}

theorem Lexes.cons (h : Lexes cs (FirstIs kind (AreFirst kinds P))) :
    Lexes cs (AreFirst (kind :: kinds) P) := by
  refine h.imp ?_
  rintro _ ⟨place, _, rfl, ts, rest, rfl, rfl, hP⟩
  exact ⟨⟨kind, place⟩ :: ts, rest, rfl, rfl, hP⟩

theorem Lexes.append (h : Lexes cs (AreFirst kinds (AreFirst kinds' P))) :
    Lexes cs (AreFirst (kinds ++ kinds') P) := by
  refine h.imp ?_
  rintro _ ⟨ts, _, rfl, rfl, ts', rest, rfl, rfl, hP⟩
  exact ⟨ts ++ ts', rest, (List.append_assoc ..).symm, List.map_append, hP⟩

theorem Lexes.singleton (h : Lexes cs (FirstIs kind P)) : Lexes cs (AreFirst [kind] P) :=
  Lexes.cons (h.imp fun _ ⟨place, rest, htokens, hP⟩ =>
    ⟨place, rest, htokens, [], rest, rfl, rfl, hP⟩)

namespace Phrase

variable {name : VarId → String} {p : Phrase}

/-- What may follow a printed phrase: nothing that continues the word or the number at its end. -/
def Ends (p : Phrase) (cs : List Char) : Prop :=
  ∀ x ∈ cs.head?, isWordChar x = false ∧ (p.endsBare → x ≠ '.')

theorem ends_cons {c : Char} (hc : isWordChar c = false) (hpoint : c ≠ '.') (p : Phrase)
    (cs : List Char) : p.Ends (c :: cs) := by
  rintro x hx
  cases hx
  exact ⟨hc, fun _ => hpoint⟩

theorem Apart.lexes_text (hp : p.Apart name) (hcs : p.Ends cs) (hrest : Lexes cs P) :
    Lexes (p.text name ++ cs) (AreFirst (p.kinds name) P) := by
  -- What follows a part is lexed first, hence the induction is for all that may follow the phrase.
  induction p generalizing cs P with
  | literal c =>
      cases c with
      | integer k bits =>
          refine (lexes_integer bits (fun x hx => ⟨(hcs x hx).1, fun hk => ?_⟩) hrest).singleton
          subst hk
          exact (hcs x hx).2 rfl
      | bool | real => cases hp
  | var v => exact (lexes_name hp.1 hp.2 (fun x hx => (hcs x hx).1) hrest).singleton
  | group p ih =>
      have hclose : Lexes (')' :: cs) (AreFirst [.punct .rightParen] P) :=
        (lexes_mark .rightParen rfl hrest).singleton
      have hinner := (ih hp (ends_cons (by decide) (by decide) p cs) hclose).append
      have hopen : Lexes ('(' :: (p.text name ++ ')' :: cs)) _ :=
        (lexes_mark .leftParen rfl hinner).cons
      rwa [← List.singleton_append (l := cs), ← List.append_assoc] at hopen
  | prefixed op p ih =>
      obtain ⟨-, hp, hsign⟩ := hp
      obtain ⟨d, rest, htext, hd⟩ := exists_begins hp
      cases hmark : op.mark.spelling.toList with
      | nil => cases op <;> cases hmark
      | cons c tail =>
          have hlexeme := lexeme_prefix hmark hd.ne_eq (fun h => hd.ne_plus (h ▸ hsign))
            (fun h => hd.ne_minus (h ▸ hsign)) (rest ++ cs)
          rw [← List.cons_append, ← htext] at hlexeme
          have h := (lexes_punct hmark hlexeme (ih hp hcs hrest)).cons
          rwa [← List.append_assoc] at h
  | stepped op p ih =>
      obtain ⟨hop, hp⟩ := hp
      have hstep : Lexes (op.mark.spelling.toList ++ cs) (AreFirst [.punct op.mark] P) := by
        cases op with
        | postIncrement => exact (lexes_punct (p := .plusPlus) rfl rfl hrest).singleton
        | postDecrement => exact (lexes_punct (p := .minusMinus) rfl rfl hrest).singleton
        | _ => cases hop
      have hends : p.Ends (op.mark.spelling.toList ++ cs) := by
        cases op with
        | postIncrement | postDecrement => exact ends_cons (by decide) (by decide) p _
        | _ => cases hop
      have h := (ih hp hends hstep).append
      rwa [← List.append_assoc] at h
  | swizzle p field ih =>
      obtain ⟨hp, hbare, hword, hfield⟩ := hp
      have hname : Lexes (field.toList ++ cs) (AreFirst [.ident field] P) :=
        (lexes_name hword hfield (fun x hx => (hcs x hx).1) hrest).singleton
      have hpoint : Lexes ('.' :: (field.toList ++ cs))
          (AreFirst [.punct .dot, .ident field] P) := by
        obtain ⟨d, rest, hchars, hd⟩ := exists_isWordStart hword
        rw [hchars] at hname ⊢
        exact (lexes_mark .dot (lexeme_point (isDigit_of_isWordStart hd) _) hname).cons
      have hends : p.Ends ('.' :: (field.toList ++ cs)) := by
        rintro x hx
        cases hx
        exact ⟨by decide, fun h => by rw [hbare] at h; cases h⟩
      have h := (ih hp hends hpoint).append
      rw [← List.cons_append, ← List.append_assoc] at h
      exact h
  | operation op l r ihl ihr =>
      obtain ⟨hop, hl, hr⟩ := hp
      have hright := lexes_blank (c := ' ') rfl (ihr hr hcs hrest)
      have hmark := (lexes_punct_blank op.mark hright).cons
      cases op with
      | binary | assign =>
          have hmark := lexes_blank (c := ' ') rfl hmark
          have h := (ihl hl (ends_cons (by decide) (by decide) l _) hmark).append
          simpa only [text, kinds, List.append_assoc, List.cons_append] using h
      | sequence =>
          have hmark : Lexes (',' :: ' ' :: (r.text name ++ cs)) _ := hmark
          have h := (ihl hl (ends_cons (by decide) (by decide) l _) hmark).append
          simpa only [text, kinds, List.append_assoc, List.cons_append] using h
      | choice => exact absurd rfl hop
  | choice c t f ihc iht ihf =>
      obtain ⟨hc, ht, hf⟩ := hp
      have hf := lexes_blank (c := ' ') rfl (ihf hf hcs hrest)
      have hf : Lexes (' ' :: ':' :: ' ' :: (f.text name ++ cs)) _ :=
        lexes_blank (c := ' ') rfl (lexes_punct_blank .colon hf).cons
      have ht := (iht ht (ends_cons (by decide) (by decide) t _) hf).append
      have ht : Lexes (' ' :: '?' :: ' ' :: (t.text name ++ _)) _ :=
        lexes_blank (c := ' ') rfl (lexes_punct_blank .question (lexes_blank rfl ht)).cons
      have h := (ihc hc (ends_cons (by decide) (by decide) c _) ht).append
      simpa only [text, kinds, List.append_assoc, List.cons_append] using h

end Phrase

end ShaderBridge
