import ShaderBridge.Number.Binary
import ShaderBridge.Toml.Reader
import ShaderBridge.Toml.Value

namespace ShaderBridge.Toml

/-- What a single letter behind a backslash stands for. -/
def escaped? : Char → Option Char
  | 'b' => some '\x08'
  | 't' => some '\t'
  | 'n' => some '\n'
  | 'f' => some '\x0c'
  | 'r' => some '\r'
  | '"' => some '"'
  | '\\' => some '\\'
  | _ => none

def hexValue (c : Char) : Nat :=
  if isDigit c then c.toNat - '0'.toNat
  else if 'a' ≤ c && c ≤ 'f' then c.toNat - 'a'.toNat + 10
  else c.toNat - 'A'.toNat + 10

def numeral (base : Nat) (digits : List Char) : Nat :=
  digits.foldl (fun n c => base * n + hexValue c) 0

/-- The character with a code in hexadecimal digits. -/
def scalarValue? (digits : List Char) : Option Char :=
  let code := numeral 16 digits
  if digits.all isHexDigit && code.isValidChar then some (Char.ofNat code) else none

/-- The rest of a string in double quotes. -/
def basicTail : List Char → Option (List Char × List Char)
  | '"' :: cs => some ([], cs)
  | '\\' :: 'u' :: a :: b :: c :: d :: cs => do
    let ch ← scalarValue? [a, b, c, d]
    let (text, rest) ← basicTail cs
    return (ch :: text, rest)
  | '\\' :: 'U' :: a :: b :: c :: d :: e :: f :: g :: h :: cs => do
    let ch ← scalarValue? [a, b, c, d, e, f, g, h]
    let (text, rest) ← basicTail cs
    return (ch :: text, rest)
  | '\\' :: letter :: cs => do
    let ch ← escaped? letter
    let (text, rest) ← basicTail cs
    return (ch :: text, rest)
  | c :: cs =>
    if isPlain c then do
      let (text, rest) ← basicTail cs
      return (c :: text, rest)
    else none
  | [] => none

/-- The rest of a string in single quotes. -/
def literalTail : List Char → Option (List Char × List Char)
  | '\'' :: cs => some ([], cs)
  | c :: cs =>
    if isPlain c then do
      let (text, rest) ← literalTail cs
      return (c :: text, rest)
    else none
  | [] => none

/-- The quotes that end a string of several lines, of which three have been read. Up to two more
belong to the string. -/
def closingQuotes (quote : Char) : List Char → List Char × List Char
  | a :: b :: cs =>
    if a = quote then if b = quote then ([quote, quote], cs) else ([quote], b :: cs)
    else ([], a :: b :: cs)
  | [a] => if a = quote then ([quote], []) else ([], [a])
  | [] => ([], [])

/-- Whether only spaces are left of a line. -/
def endsLine (cs : List Char) : Bool :=
  match cs.dropWhile isSpace with
  | '\n' :: _ | '\r' :: '\n' :: _ => true
  | _ => false

/-- The rest of a string of several lines in double quotes. After a backslash at the end of a line,
all blanks up to the next other character are left out. -/
def basicLines (skipping : Bool) : List Char → Option (List Char × List Char)
  | '"' :: '"' :: '"' :: cs => some (closingQuotes '"' cs)
  | '\r' :: '\n' :: cs => do
    let (text, rest) ← basicLines skipping cs
    return (if skipping then text else '\n' :: text, rest)
  | '\\' :: 'u' :: a :: b :: c :: d :: cs => do
    let ch ← scalarValue? [a, b, c, d]
    let (text, rest) ← basicLines false cs
    return (ch :: text, rest)
  | '\\' :: 'U' :: a :: b :: c :: d :: e :: f :: g :: h :: cs => do
    let ch ← scalarValue? [a, b, c, d, e, f, g, h]
    let (text, rest) ← basicLines false cs
    return (ch :: text, rest)
  | '\\' :: letter :: cs =>
    if endsLine (letter :: cs) then basicLines true (letter :: cs)
    else do
      let ch ← escaped? letter
      let (text, rest) ← basicLines false cs
      return (ch :: text, rest)
  | c :: cs =>
    if skipping && (isSpace c || c == '\n') then basicLines true cs
    else if isPlain c || c == '\n' then do
      let (text, rest) ← basicLines false cs
      return (c :: text, rest)
    else none
  | [] => none

/-- The rest of a string of several lines in single quotes. -/
def literalLines : List Char → Option (List Char × List Char)
  | '\'' :: '\'' :: '\'' :: cs => some (closingQuotes '\'' cs)
  | '\r' :: '\n' :: cs => do
    let (text, rest) ← literalLines cs
    return ('\n' :: text, rest)
  | c :: cs =>
    if isPlain c || c == '\n' then do
      let (text, rest) ← literalLines cs
      return (c :: text, rest)
    else none
  | [] => none

def lineString : Reader (List Char) :=
  (do Reader.literal "\""; basicTail) <|> (do Reader.literal "'"; literalTail)

/-- A string between three quotes. A line end right behind the first three is left out. -/
def linesString : Reader (List Char) :=
  (do Reader.literal "\"\"\""; let _ ← Reader.optional newline; basicLines false) <|>
    (do Reader.literal "'''"; let _ ← Reader.optional newline; literalLines)

def string : Reader (List Char) :=
  linesString <|> lineString

/-- Digits that follow a digit. One underscore may stand between two digits. -/
def moreDigits (p : Char → Bool) : List Char → List Char × List Char
  | '_' :: c :: cs =>
    if p c then
      let (digits, rest) := moreDigits p cs
      (c :: digits, rest)
    else ([], '_' :: c :: cs)
  | c :: cs =>
    if p c then
      let (digits, rest) := moreDigits p cs
      (c :: digits, rest)
    else ([], c :: cs)
  | [] => ([], [])

def digits (p : Char → Bool) : Reader (List Char) := do
  let first ← Reader.char p
  return first :: (← fun cs => some (moreDigits p cs))

def sign : Reader Bool :=
  (do Reader.literal "-"; return true) <|> (do Reader.literal "+"; return false) <|> return false

/-- A decimal number without zeros in front. -/
def wholeDigits : Reader (List Char) :=
  (do Reader.literal "0"; return ['0']) <|> digits isDigit

def inRange (i : Int) : Bool :=
  -(wordCount 63 : Int) ≤ i && i < wordCount 63

def decimalInteger : Reader Int := do
  let negative ← sign
  let n := numeral 10 (← wholeDigits)
  return if negative then -(n : Int) else n

def radixInteger (mark : String) (base : Nat) (p : Char → Bool) : Reader Int := do
  Reader.literal mark
  return numeral base (← digits p)

def isOctalDigit (c : Char) : Bool :=
  '0' ≤ c && c ≤ '7'

def isBinaryDigit (c : Char) : Bool :=
  c == '0' || c == '1'

def integer : Reader Int := do
  let i ← radixInteger "0x" 16 isHexDigit <|> radixInteger "0o" 8 isOctalDigit <|>
    radixInteger "0b" 2 isBinaryDigit <|> decimalInteger
  if inRange i then return i else failure

def fraction : Reader (List Char) := do
  Reader.literal "."
  digits isDigit

def exponent : Reader Int := do
  let _ ← Reader.char fun c => c == 'e' || c == 'E'
  let negative ← sign
  let n := numeral 10 (← digits isDigit)
  return if negative then -(n : Int) else n

/-- Whether a decimal number is nearer to infinity than to any number of double precision. -/
def overflows (digits : List Char) (exponent : Int) : Bool :=
  BinaryFormat.double.ofDecimal (numeral 10 digits) exponent == BinaryFormat.double.infinity false

/-- A number with a fraction or an exponent. Only downwards may it leave the range of double
precision. -/
def decimalFloat : Reader Unit := do
  let negative ← sign
  let whole ← wholeDigits
  let part ← Reader.optional fraction
  let scale ← match part with
    | some _ => Reader.optional exponent
    | none => some <$> exponent
  let places := part.getD []
  if !negative && overflows (whole ++ places) (scale.getD 0 - places.length) then failure

def namedFloat : Reader Unit := do
  let _ ← sign
  Reader.literal "inf" <|> Reader.literal "nan"

def float : Reader Unit :=
  decimalFloat <|> namedFloat

def boolean : Reader Bool :=
  (do Reader.literal "true"; return true) <|> (do Reader.literal "false"; return false)

def fixedDigits : Nat → Reader (List Char)
  | 0 => return []
  | n + 1 => do
    let c ← Reader.char isDigit
    return c :: (← fixedDigits n)

/-- A number of two digits between two bounds. -/
def twoDigits (low high : Nat) : Reader Nat := do
  let n := numeral 10 (← fixedDigits 2)
  if low ≤ n && n ≤ high then return n else failure

def isLeapYear (year : Nat) : Bool :=
  year % 4 == 0 && (year % 100 != 0 || year % 400 == 0)

def daysInMonth (year month : Nat) : Nat :=
  if month = 2 then if isLeapYear year then 29 else 28
  else if [4, 6, 9, 11].contains month then 30
  else 31

def date : Reader Unit := do
  let year := numeral 10 (← fixedDigits 4)
  Reader.literal "-"
  let month ← twoDigits 1 12
  Reader.literal "-"
  let _ ← twoDigits 1 (daysInMonth year month)

def hourAndMinute : Reader Unit := do
  let _ ← twoDigits 0 23
  Reader.literal ":"
  let _ ← twoDigits 0 59

/-- A time of day. A leap second is a second too. -/
def time : Reader Unit := do
  hourAndMinute
  Reader.literal ":"
  let _ ← twoDigits 0 60
  let _ ← Reader.optional do
    Reader.literal "."
    let _ ← Reader.char isDigit
    let _ ← Reader.takeWhile isDigit

/-- The distance of a time from universal time. -/
def zone : Reader Unit :=
  (do let _ ← Reader.char fun c => c == 'Z' || c == 'z') <|> do
    let _ ← Reader.char fun c => c == '+' || c == '-'
    hourAndMinute

def timeOfDate : Reader Unit := do
  let _ ← Reader.char fun c => c == 'T' || c == 't' || c == ' '
  time
  let _ ← Reader.optional zone

def datetime : Reader Unit :=
  (do date; let _ ← Reader.optional timeOfDate) <|> time

end ShaderBridge.Toml
