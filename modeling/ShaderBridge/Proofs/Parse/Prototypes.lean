import ShaderBridge.Proofs.Parse.Prelude
import ShaderBridge.Proofs.Token.Ending

namespace ShaderBridge

namespace Prototypes

/-- The types that prototypes mention, apart from that of no value. -/
def typeWords : List String :=
  ["genFType", "genDType", "genIType", "float", "int", "genUType", "uint", "genBType", "vec2",
    "vec4", "double", "vec3", "dvec3", "mat2", "mat3", "mat4", "mat2x3", "mat3x2", "mat2x4",
    "mat4x2", "mat3x4", "mat4x3", "genBVecType", "genVecType", "genIVecType", "genUVecType",
    "bool", "gvec4", "gsampler1D", "gsampler2D", "gsampler3D", "gsamplerCube", "gsampler1DArray",
    "gsampler2DArray", "gsamplerCubeArray", "sampler2DShadow", "sampler2DArrayShadow",
    "samplerCubeShadow", "ivec2", "ivec3", "gsamplerBuffer", "gsampler2DMS", "gimage1D",
    "gimage2D", "gimage3D", "gimageCube", "gimage2DArray", "gimageBuffer", "uimage2D", "iimage2D",
    "gsubpassInput", "gsubpassInputMS", "uint64_t", "uvec4", "rayQueryEXT",
    "accelerationStructureEXT"]

/-- A number for a word. Two words may share one, but not a keyword and a name of a prototype. -/
def code (w : String) : Nat :=
  w.toByteArray.data.toList.foldl (fun n byte => (n * 31 + byte.toNat) % 65521) 0

/-- The bits that the codes of the keywords stand for. -/
def keywordCodes : Nat :=
  Keyword.table.foldl (fun codes entry => codes ||| 1 <<< code entry.1) 0

def isWord : List Char → Bool
  | [] => false
  | c :: cs => isWordStart c && cs.all isWordChar

def isName (w : List Char) : Bool :=
  isWord w && !keywordCodes.testBit (code (String.ofList w))

def isType (w : List Char) : Bool :=
  isWord w && match typeWords.find? fun t => code t == code (String.ofList w) with
    | some t => t == String.ofList w
    | none => false

theorem testBit_foldl {α : Type} (f : α → Nat) (l : List α) (codes i : Nat) :
    (l.foldl (fun codes a => codes ||| 1 <<< f a) codes).testBit i =
      (codes.testBit i || l.any fun a => f a == i) := by
  induction l generalizing codes with
  | nil => rw [List.foldl_nil, List.any_nil, Bool.or_false]
  | cons a l ih =>
      rw [List.foldl_cons, ih, List.any_cons, Nat.testBit_or, Nat.one_shiftLeft,
        Nat.testBit_two_pow, Bool.or_assoc]
      rfl

theorem ofWord_of_isName {w : List Char} (hw : isName w) :
    Lexeme.ofWord (String.ofList w) = .ident (String.ofList w) := by
  simp only [isName, Bool.and_eq_true, Bool.not_eq_true'] at hw
  have hcodes := hw.2
  rw [keywordCodes, testBit_foldl, Nat.zero_testBit, Bool.false_or, List.any_eq_false] at hcodes
  have hlookup : Keyword.ofSpelling? (String.ofList w) = none := by
    refine List.lookup_eq_none_iff.2 fun entry hentry => ?_
    have hne := hcodes entry hentry
    rw [beq_iff_eq] at hne
    exact bne_iff_ne.2 fun heq => hne (by rw [← heq])
  rw [Lexeme.ofWord, hlookup]

/-- The kind of a token that names a type with values. -/
def namesValues : TokenKind → Bool
  | .keyword (.type t) => t != .void
  | _ => false

theorem ofWord_typeWords :
    ∀ w ∈ typeWords, ∃ t, t ≠ .void ∧ Lexeme.ofWord w = .keyword (.type t) := by
  have hall : (typeWords.all fun w => namesValues (Lexeme.ofWord w)) = true := by
    decide +kernel
  intro w hw
  have hword := List.all_eq_true.1 hall w hw
  unfold namesValues at hword
  split at hword
  · next t ht => exact ⟨t, by simpa using hword, ht⟩
  · cases hword

theorem ofWord_of_isType {w : List Char} (hw : isType w) :
    ∃ t, t ≠ .void ∧ Lexeme.ofWord (String.ofList w) = .keyword (.type t) := by
  simp only [isType, Bool.and_eq_true] at hw
  have htype := hw.2
  split at htype
  · next t ht =>
      rw [← eq_of_beq htype]
      exact ofWord_typeWords t (List.mem_of_find?_eq_some ht)
  · cases htype

/-- The words of a prototype. Those of a parameter stand together. -/
structure Announcement where
  returnType : List Char
  name : List Char
  params : List (List (List Char))

namespace Announcement

/-- The words of a parameter with blanks between them. -/
def paramText : List (List Char) → List Char
  | [] => []
  | [w] => w
  | w :: ws => w ++ ' ' :: paramText ws

/-- Parameters up to the parenthesis behind them. -/
def paramsText : List (List (List Char)) → List Char
  | [] => [')']
  | [p] => paramText p ++ [')']
  | p :: ps => paramText p ++ ',' :: ' ' :: paramsText ps

def text (a : Announcement) : List Char :=
  a.returnType ++ ' ' :: (a.name ++ '(' :: paramsText a.params)

/-- Cuts a prototype into words. -/
def ofText (cs : List Char) : Announcement :=
  let front := cs.takeWhile (· != '(')
  let inside := ((cs.dropWhile (· != '(')).drop 1).dropLast
  let param (cs : List Char) := (cs.dropWhile (· == ' ')).splitOn ' '
  { returnType := front.takeWhile (· != ' ')
    name := (front.dropWhile (· != ' ')).drop 1
    params := if inside.isEmpty then [] else (inside.splitOn ',').map param }

def isParam : List (List Char) → Bool
  | [type, name] => isType type && isName name
  | word :: words => (word == ['o', 'u', 't'] || word == ['i', 'n', 'o', 'u', 't']) && isParam words
  | [] => false

/-- The words are known to be types, names and qualifiers where these belong. -/
def isKnown (a : Announcement) : Bool :=
  (a.returnType == ['v', 'o', 'i', 'd'] || isType a.returnType) &&
    (isName a.name && a.name != ['m', 'a', 'i', 'n']) && a.params.all isParam

end Announcement

theorem lexes_isWord {w cs : List Char} {P : List Token → Prop} (hw : isWord w)
    (hend : ∀ x ∈ cs.head?, isWordChar x = false) (hrest : Lexes cs P) :
    Lexes (w ++ cs) (FirstIs (Lexeme.ofWord (String.ofList w)) P) := by
  cases w with
  | nil => cases hw
  | cons c w =>
      obtain ⟨hc, hw⟩ := Bool.and_eq_true_iff.1 hw
      exact lexes_word hc (List.all_eq_true.1 hw) hend hrest

theorem lexes_isName {w cs : List Char} {P : List Token → Prop} (hw : isName w)
    (hend : ∀ x ∈ cs.head?, isWordChar x = false) (hrest : Lexes cs P) :
    Lexes (w ++ cs) (FirstIs (.ident (String.ofList w)) P) := by
  rw [← ofWord_of_isName hw]
  exact lexes_isWord (Bool.and_eq_true_iff.1 hw).1 hend hrest

theorem lexes_isType {w cs : List Char} {P : List Token → Prop} (hw : isType w)
    (hend : ∀ x ∈ cs.head?, isWordChar x = false) (hrest : Lexes cs P) :
    ∃ t, t ≠ .void ∧ Lexes (w ++ cs) (FirstIs (.keyword (.type t)) P) := by
  obtain ⟨t, ht, hword⟩ := ofWord_of_isType hw
  refine ⟨t, ht, ?_⟩
  rw [← hword]
  exact lexes_isWord (Bool.and_eq_true_iff.1 hw).1 hend hrest

theorem lexes_returnType {w cs : List Char} {P : List Token → Prop}
    (hw : w = ['v', 'o', 'i', 'd'] ∨ isType w) (hend : ∀ x ∈ cs.head?, isWordChar x = false)
    (hrest : Lexes cs P) : ∃ t, Lexes (w ++ cs) (FirstIs (.keyword (.type t)) P) := by
  rcases hw with rfl | hw
  · have hword : Lexeme.ofWord (String.ofList ['v', 'o', 'i', 'd']) = .keyword (.type .void) := by
      decide +kernel
    refine ⟨.void, ?_⟩
    rw [← hword]
    exact lexes_isWord (by decide) hend hrest
  · obtain ⟨t, _, hlexes⟩ := lexes_isType hw hend hrest
    exact ⟨t, hlexes⟩

theorem paramText_cons (w : List Char) {ws : List (List Char)} (hws : Announcement.isParam ws) :
    Announcement.paramText (w :: ws) = w ++ ' ' :: Announcement.paramText ws := by
  cases ws with
  | nil => cases hws
  | cons v ws => rfl

theorem lexes_isParam {ws : List (List Char)} (hws : Announcement.isParam ws) {cs : List Char}
    {P : List Token → Prop} (hend : ∀ x ∈ cs.head?, isWordChar x = false) (hrest : Lexes cs P) :
    Lexes (Announcement.paramText ws ++ cs) fun tokens =>
      ∃ words rest, tokens = words ++ rest ∧ Parse.IsParameter words ∧ P rest := by
  have hblank (cs : List Char) : ∀ x ∈ (' ' :: cs).head?, isWordChar x = false := by
    rintro x ⟨⟩
    rfl
  fun_induction Announcement.isParam ws with
  | case1 type name =>
      obtain ⟨htype, hname⟩ := Bool.and_eq_true_iff.1 hws
      obtain ⟨t, ht, hlexes⟩ := lexes_isType htype (hblank _)
        (lexes_blank rfl (lexes_isName hname hend hrest))
      rw [Announcement.paramText, Announcement.paramText, List.append_assoc]
      · refine hlexes.imp ?_
        rintro _ ⟨p₁, _, rfl, p₂, rest, rfl, hP⟩
        exact ⟨_, rest, rfl, .named t _ p₁ p₂ ht, hP⟩
      · exact fun h => by cases h
  | case2 word words hwords ih =>
      obtain ⟨hword, hwords'⟩ := Bool.and_eq_true_iff.1 hws
      have hqualifier : isWord word = true ∧
          Parse.isParameterQualifier (Lexeme.ofWord (String.ofList word)) = true := by
        rcases Bool.or_eq_true_iff.1 hword with hword | hword <;> rw [eq_of_beq hword] <;>
          decide +kernel
      rw [paramText_cons word hwords', List.append_assoc]
      refine (lexes_isWord hqualifier.1 (hblank _) (lexes_blank rfl (ih hwords'))).imp ?_
      rintro _ ⟨p, _, rfl, words, rest, rfl, hparameter, hP⟩
      exact ⟨_, rest, rfl, .qualified ⟨_, p⟩ hqualifier.2 hparameter, hP⟩
  | case3 => cases hws

theorem lexes_paramsText {params : List (List (List Char))}
    (hparams : ∀ p ∈ params, Announcement.isParam p) {cs : List Char} {P : List Token → Prop}
    (hrest : Lexes cs P) :
    Lexes (Announcement.paramsText params ++ cs) fun tokens =>
      ∃ words rest, tokens = words ++ rest ∧ Parse.IsParameterList words ∧ P rest := by
  have hclose {P : List Token → Prop} (h : Lexes cs P) :
      Lexes (')' :: cs) (FirstIs (.punct .rightParen) P) :=
    lexes_mark .rightParen rfl h
  fun_induction Announcement.paramsText params with
  | case1 =>
      refine (hclose hrest).imp ?_
      rintro _ ⟨p, rest, rfl, hP⟩
      exact ⟨_, rest, rfl, .close p, hP⟩
  | case2 p =>
      rw [List.append_assoc]
      refine (lexes_isParam (hparams p List.mem_cons_self) ?_ (hclose hrest)).imp ?_
      · rintro x ⟨⟩
        rfl
      · rintro _ ⟨words, _, rfl, hwords, p, rest, rfl, hP⟩
        exact ⟨_, rest, by rw [List.append_assoc]; rfl, .last p hwords, hP⟩
  | case3 p ps _ ih =>
      obtain ⟨hp, hps⟩ := List.forall_mem_cons.1 hparams
      rw [List.append_assoc]
      refine (lexes_isParam hp ?_ (lexes_mark .comma rfl (lexes_blank rfl (ih hps)))).imp ?_
      · rintro x ⟨⟩
        rfl
      · rintro _ ⟨words, _, rfl, hwords, p, _, rfl, params, rest, rfl, hparams, hP⟩
        refine ⟨words ++ ⟨.punct .comma, p⟩ :: params, rest, ?_, .more p hwords hparams, hP⟩
        rw [List.append_assoc, List.cons_append]

/-- The mark of the language behind a prototype, up to the next line. -/
def mark : List Char :=
  [' ', '[', '[', 'b', 'u', 'i', 'l', 't', 'i', 'n', ']', ']', ';', '\n']

theorem lexes_mark_builtin {cs : List Char} {P : List Token → Prop} (hrest : Lexes cs P) :
    Lexes (mark ++ cs) fun tokens => ∃ p₁ p₂ p₃ p₄ p₅ p₆ rest,
      tokens = ⟨.punct .leftBracket, p₁⟩ :: ⟨.punct .leftBracket, p₂⟩ :: ⟨.ident "builtin", p₃⟩ ::
        ⟨.punct .rightBracket, p₄⟩ :: ⟨.punct .rightBracket, p₅⟩ :: ⟨.punct .semicolon, p₆⟩ ::
          rest ∧ P rest := by
  have hword : Lexeme.ofWord (String.ofList ['b', 'u', 'i', 'l', 't', 'i', 'n']) =
      .ident "builtin" := by
    decide +kernel
  have hend (cs : List Char) : ∀ x ∈ (']' :: cs).head?, isWordChar x = false := by
    rintro x ⟨⟩
    rfl
  have hclose : Lexes (']' :: ']' :: ';' :: '\n' :: cs) (FirstIs (.punct .rightBracket)
      (FirstIs (.punct .rightBracket) (FirstIs (.punct .semicolon) P))) :=
    lexes_mark _ rfl (lexes_mark _ rfl (lexes_mark _ rfl (lexes_blank rfl hrest)))
  have hattribute := lexes_word (c := 'b') (w := ['u', 'i', 'l', 't', 'i', 'n']) rfl
    (List.all_eq_true.1 rfl) (hend _) hclose
  rw [hword] at hattribute
  refine (lexes_blank rfl (lexes_mark .leftBracket rfl
    (lexes_mark .leftBracket rfl hattribute))).imp ?_
  rintro _ ⟨p₁, _, rfl, p₂, _, rfl, p₃, _, rfl, p₄, _, rfl, p₅, _, rfl, p₆, rest, rfl, hP⟩
  exact ⟨p₁, p₂, p₃, p₄, p₅, p₆, rest, rfl, hP⟩

theorem lexes_isKnown {a : Announcement} (ha : a.isKnown) {cs : List Char}
    (hrest : Lexes cs Parse.Announces) : Lexes (a.text ++ (mark ++ cs)) Parse.Announces := by
  simp only [Announcement.isKnown, Bool.and_eq_true, Bool.or_eq_true, List.all_eq_true,
    beq_iff_eq, bne_iff_ne] at ha
  obtain ⟨⟨htype, hname, hmain⟩, hparams⟩ := ha
  have hblank (cs : List Char) : ∀ x ∈ (' ' :: cs).head?, isWordChar x = false := by
    rintro x ⟨⟩
    rfl
  have hparen (cs : List Char) : ∀ x ∈ ('(' :: cs).head?, isWordChar x = false := by
    rintro x ⟨⟩
    rfl
  have hmain : String.ofList a.name ≠ "main" := fun h => hmain (String.ofList_injective h)
  have hbehind := lexes_blank (c := ' ') rfl (lexes_isName hname (hparen _)
    (lexes_mark .leftParen rfl (lexes_paramsText hparams (lexes_mark_builtin hrest))))
  obtain ⟨t, hlexes⟩ := lexes_returnType htype (hblank _) hbehind
  rw [Announcement.text, List.append_assoc, List.cons_append, List.append_assoc, List.cons_append]
  refine hlexes.imp ?_
  rintro _ ⟨p₁, _, rfl, p₂, _, rfl, p₃, _, rfl, params, _, rfl, hparams, p₄, p₅, p₆, p₇, p₈, p₉,
    rest, rfl, hrest⟩
  exact .prototype t _ p₁ p₂ p₃ p₄ p₅ p₆ p₇ p₈ p₉ hmain hparams hrest

theorem append_ofList {p q : String} {cs ds : List Char} (hp : p = String.ofList cs)
    (hq : q = String.ofList ds) : p ++ q = String.ofList (cs ++ ds) := by
  rw [hp, hq, String.ofList_append]

theorem map_ofList_cons {p : String} {cs : List Char} {ps : List String} {texts : List (List Char)}
    (h : p = String.ofList cs) (hs : ps = texts.map String.ofList) :
    p :: ps = (cs :: texts).map String.ofList := by
  rw [h, hs, List.map_cons]

theorem map_ofList_append {ps qs : List String} {texts more : List (List Char)}
    (hp : ps = texts.map String.ofList) (hq : qs = more.map String.ofList) :
    ps ++ qs = (texts ++ more).map String.ofList := by
  rw [hp, hq, List.map_append]

theorem exists_announcements :
    ∃ texts : List (List Char), all = texts.map String.ofList ∧ texts.all fun cs =>
      (Announcement.ofText cs).text == cs && (Announcement.ofText cs).isKnown := by
  apply Exists.intro
  apply And.intro
  · unfold all trigonometric exponential common floatBits packing geometric matrix relational
      integer textureLookup imageAccess atomicMemory derivatives geometryStreams barriers subgroups
      nonuniformIndexing rayTracing rayQueries
    repeat' apply map_ofList_append
    all_goals
      repeat first
        | apply map_ofList_cons rfl
        | apply map_ofList_cons (append_ofList rfl rfl)
        | apply map_ofList_cons (append_ofList (append_ofList rfl rfl) rfl)
      exact List.map_nil.symm
  · decide +kernel

theorem toList_source {texts : List (List Char)} (h : all = texts.map String.ofList) :
    source.toList = texts.flatMap fun cs => cs ++ mark := by
  have hmark : " [[builtin]];\n" = String.ofList mark := rfl
  rw [source, h, hmark, List.map_map, String.toList_join, List.flatMap_map]
  simp only [Function.comp, String.toList_append, String.toList_ofList]

theorem lexes_texts {texts : List (List Char)} (h : texts.all fun cs =>
      (Announcement.ofText cs).text == cs && (Announcement.ofText cs).isKnown) :
    Lexes (texts.flatMap fun cs => cs ++ mark) Parse.Announces := by
  induction texts with
  | nil =>
      refine lexes_nil.imp ?_
      rintro _ ⟨place, rfl⟩
      exact .done place
  | cons cs texts ih =>
      simp only [List.all_cons, Bool.and_eq_true, beq_iff_eq] at h
      have hlexes := lexes_isKnown h.1.2 (ih h.2)
      rwa [h.1.1, ← List.append_assoc] at hlexes

end Prototypes

namespace Parse

theorem announces_prototypeTokens : Announces prototypeTokens := by
  obtain ⟨texts, htexts, hknown⟩ := Prototypes.exists_announcements
  obtain ⟨tokens, htokens, hannounces⟩ := Prototypes.lexes_texts hknown 0
  rw [← Prototypes.toList_source htexts] at htokens
  rw [prototypeTokens, tokenize, htokens]
  exact hannounces

end Parse

end ShaderBridge
