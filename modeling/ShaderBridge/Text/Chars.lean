/-!
Character lists as texts: their size in bytes, trimming, cutting at a pattern, and the character
classes that the languages of this library are written in.

All source text is handled as a list of characters. Offsets that are shown to the outside are
counted in bytes of UTF-8, and `byteLength` is the bridge between the two.
-/

namespace ShaderBridge

/-- The number of bytes that a text takes in UTF-8. -/
def byteLength : List Char → Nat
  | [] => 0
  | c :: cs => c.utf8Size + byteLength cs

@[simp]
theorem byteLength_nil : byteLength [] = 0 := rfl

@[simp]
theorem byteLength_cons (c : Char) (cs : List Char) :
    byteLength (c :: cs) = c.utf8Size + byteLength cs := rfl

theorem byteLength_append (a b : List Char) :
    byteLength (a ++ b) = byteLength a + byteLength b := by
  induction a with
  | nil => simp
  | cons c cs ih => simp [ih, Nat.add_assoc]

def lineFeeds (cs : List Char) : Nat :=
  cs.count '\n'

/-- The number of the line that holds the byte at an offset, counted from one. -/
def lineOfByte (offset : Nat) : List Char → Nat
  | [] => 1
  | c :: cs =>
    if offset < c.utf8Size then 1
    else (if c = '\n' then 1 else 0) + lineOfByte (offset - c.utf8Size) cs

/-- The characters with the Unicode property `White_Space`. -/
def isBlank (c : Char) : Bool :=
  (0x09 ≤ c.val && c.val ≤ 0x0D) || c.val == 0x20 || c.val == 0x85 || c.val == 0xA0 ||
  c.val == 0x1680 || (0x2000 ≤ c.val && c.val ≤ 0x200A) || c.val == 0x2028 || c.val == 0x2029 ||
  c.val == 0x202F || c.val == 0x205F || c.val == 0x3000

/-- The five blanks of ASCII that separate words: space, tab, line feed, form feed, carriage
return. -/
def isAsciiBlank (c : Char) : Bool :=
  c == ' ' || c == '\t' || c == '\n' || c == '\x0c' || c == '\r'

def isDigit (c : Char) : Bool :=
  '0' ≤ c && c ≤ '9'

def isHexDigit (c : Char) : Bool :=
  isDigit c || ('a' ≤ c && c ≤ 'f') || ('A' ≤ c && c ≤ 'F')

/-- A character that may open an identifier. -/
def isWordStart (c : Char) : Bool :=
  ('a' ≤ c && c ≤ 'z') || ('A' ≤ c && c ≤ 'Z') || c == '_'

/-- A character that may continue an identifier. -/
def isWordChar (c : Char) : Bool :=
  isWordStart c || isDigit c

/-- The leading identifier of a text, empty if the text does not open with one. -/
def leadingWord : List Char → List Char
  | [] => []
  | c :: cs => if isWordStart c then c :: cs.takeWhile isWordChar else []

def isWord (cs : List Char) : Bool :=
  !cs.isEmpty && leadingWord cs == cs

def trimStart (cs : List Char) : List Char :=
  cs.dropWhile isBlank

/-- Drops the longest tail whose characters all satisfy `p`. -/
def dropTailWhile (p : Char → Bool) : List Char → List Char
  | [] => []
  | c :: cs =>
    match dropTailWhile p cs with
    | [] => if p c then [] else [c]
    | rest => c :: rest

def trimEnd (cs : List Char) : List Char :=
  dropTailWhile isBlank cs

def trim (cs : List Char) : List Char :=
  trimEnd (trimStart cs)

/-- What follows `pattern` at the front of a text. -/
def after? : (pattern text : List Char) → Option (List Char)
  | [], cs => some cs
  | _ :: _, [] => none
  | p :: ps, c :: cs => if p = c then after? ps cs else none

/-- The text before and after the first occurrence of `pattern`. -/
def cutAt? (pattern : List Char) : List Char → Option (List Char × List Char)
  | [] => (after? pattern []).map ([], ·)
  | c :: cs =>
    match after? pattern (c :: cs) with
    | some rest => some ([], rest)
    | none => (cutAt? pattern cs).map fun (before, rest) => (c :: before, rest)

/-- The text without a final character `c`. -/
def withoutFinal? (c : Char) (cs : List Char) : Option (List Char) :=
  if cs.getLast? = some c then some cs.dropLast else none

/-- The pieces between the characters equal to `separator`; their number is one more than theirs. -/
def splitAtChar (separator : Char) : List Char → List (List Char)
  | [] => [[]]
  | c :: cs =>
    match splitAtChar separator cs with
    | [] => [[]]
    | piece :: pieces => if c = separator then [] :: piece :: pieces else (c :: piece) :: pieces

def blankSeparated (cs : List Char) : List (List Char) :=
  (cs.splitBy fun a b => isBlank a == isBlank b).filter fun w => !(w.all isBlank)

theorem length_of_after? {pattern text rest : List Char} (h : after? pattern text = some rest) :
    pattern.length + rest.length = text.length := by
  induction pattern generalizing text with
  | nil => simp_all [after?]
  | cons p ps ih =>
    cases text with
    | nil => simp [after?] at h
    | cons c cs =>
      simp only [after?] at h
      split at h
      · have := ih h
        simp; omega
      · simp at h

theorem length_of_cutAt? {pattern text before rest : List Char}
    (h : cutAt? pattern text = some (before, rest)) :
    before.length + pattern.length + rest.length = text.length := by
  induction text generalizing before with
  | nil =>
    simp only [cutAt?, Option.map_eq_some_iff, Prod.mk.injEq] at h
    obtain ⟨_, h, rfl, rfl⟩ := h
    have := length_of_after? h
    simp_all
  | cons c cs ih =>
    simp only [cutAt?] at h
    split at h
    · rename_i heq
      simp only [Option.some.injEq, Prod.mk.injEq] at h
      obtain ⟨rfl, rfl⟩ := h
      have := length_of_after? heq
      simpa using this
    · simp only [Option.map_eq_some_iff, Prod.mk.injEq, Prod.exists] at h
      obtain ⟨b, r, h, rfl, rfl⟩ := h
      have := ih h
      simp; omega

theorem length_dropTailWhile_le (p : Char → Bool) (cs : List Char) :
    (dropTailWhile p cs).length ≤ cs.length := by
  induction cs with
  | nil => simp [dropTailWhile]
  | cons c cs ih =>
    simp only [dropTailWhile]
    split
    · split <;> simp
    · rename_i h
      simp only [List.length_cons]
      omega

theorem length_trim_le (cs : List Char) : (trim cs).length ≤ cs.length := by
  have h1 := length_dropTailWhile_le isBlank (trimStart cs)
  have h2 : (trimStart cs).length ≤ cs.length := (List.dropWhile_sublist _).length_le
  unfold trim trimEnd
  omega

def decimal (n : Int) : String :=
  match n with
  | .ofNat n => String.ofList (Nat.toDigits 10 n)
  | .negSucc n => String.ofList ('-' :: Nat.toDigits 10 (n + 1))

end ShaderBridge
