import ImportLint.Json.Magnitude

/-!
# Unquoted values of TOML

Truth values, numbers, dates and times. Such a value is one run of letters, digits and a few signs,
and what counts here is only whether the run is one of them.
-/

namespace ImportLint.Toml

/-- The characters of an unquoted value. -/
def isScalarChar (c : Char) : Bool := c.isAlphanum || ['_', '+', '-', '.', ':'].contains c

/-- Digits of a kind between which single underscores may stand. -/
def isDigitRun (isDigit : Char → Bool) : List Char → Bool
  | [] => false
  | [c] => isDigit c
  | c :: '_' :: r => isDigit c && isDigitRun isDigit r
  | c :: r => isDigit c && isDigitRun isDigit r

/-- Digits in decimal, not led by an idle zero. -/
def isPlainInteger : List Char → Bool
  | ['0'] => true
  | '0' :: _ => false
  | s => isDigitRun Char.isDigit s

/-- A text without its sign. -/
def unsigned : List Char → List Char
  | '+' :: r => r
  | '-' :: r => r
  | s => s

/-- The number that digits of a radix stand for, underscores aside. -/
def radixValue (radix : Nat) (s : List Char) : Nat :=
  s.foldl (fun n c => if c = '_' then n else n * radix + (Json.hexValue? c).getD 0) 0

/-- Whether a run is an integer of 64 bits. -/
def isInteger (s : List Char) : Bool :=
  let fits (radix : Nat) (r : List Char) : Bool := radixValue radix r < Nat.pow 2 63
  match s with
  | '0' :: 'x' :: r => isDigitRun (fun c => (Json.hexValue? c).isSome) r && fits 16 r
  | '0' :: 'o' :: r => isDigitRun (fun c => '0' ≤ c && c ≤ '7') r && fits 8 r
  | '0' :: 'b' :: r => isDigitRun (fun c => c == '0' || c == '1') r && fits 2 r
  | '-' :: r => isPlainInteger r && radixValue 10 r ≤ Nat.pow 2 63
  | s => isPlainInteger (unsigned s) && fits 10 (unsigned s)

/-- Whether the part of a number after its integer is a fraction, an exponent, or both. -/
def isFloatTail (s : List Char) : Bool :=
  let isExponentMark (c : Char) : Bool := c == 'e' || c == 'E'
  let isExponent (r : List Char) : Bool := isDigitRun Char.isDigit (unsigned (r.drop 1))
  match s with
  | '.' :: r =>
    isDigitRun Char.isDigit (r.takeWhile (!isExponentMark ·)) &&
      ((r.dropWhile (!isExponentMark ·)).isEmpty || isExponent (r.dropWhile (!isExponentMark ·)))
  | c :: _ => isExponentMark c && isExponent s
  | [] => false

/-- Whether a run is a floating-point number. One that is too large and positive is not. -/
def isFloat (s : List Char) : Bool :=
  let digits := unsigned s
  let whole (c : Char) : Bool := c.isDigit || c == '_'
  ["inf".toList, "nan".toList].contains digits ||
    (isPlainInteger (digits.takeWhile whole) && isFloatTail (digits.dropWhile whole) &&
      (s.head? == some '-' || Json.isInRange (digits.filter (· != '_'))))

/-- The number that exactly so many digits stand for, and what follows them. -/
def fixedDigits (n : Nat) (s : List Char) : Option (Nat × List Char) :=
  if (s.take n).length = n && (s.take n).all Char.isDigit then
    some (Decimal.ofDigits (s.take n), s.drop n)
  else none

/-- A certain character, and what follows it. -/
def follows (c : Char) : List Char → Option (List Char)
  | d :: r => if d = c then some r else none
  | [] => none

/-- The number of days of a month. -/
def daysOfMonth (year month : Nat) : Nat :=
  if month = 2 then
    if year % 4 = 0 && (year % 100 != 0 || year % 400 = 0) then 29 else 28
  else if [4, 6, 9, 11].contains month then 30 else 31

/-- What follows a date. -/
def afterDate (s : List Char) : Option (List Char) := do
  let (year, s) ← fixedDigits 4 s
  let (month, s) ← fixedDigits 2 (← follows '-' s)
  let (day, s) ← fixedDigits 2 (← follows '-' s)
  if 1 ≤ month && month ≤ 12 && 1 ≤ day && day ≤ daysOfMonth year month then some s else none

/-- What follows an hour and a minute. -/
def afterMinute (s : List Char) : Option (List Char) := do
  let (hour, s) ← fixedDigits 2 s
  let (minute, s) ← fixedDigits 2 (← follows ':' s)
  if hour < 24 && minute < 60 then some s else none

/-- What follows a time of the day. -/
def afterTime (s : List Char) : Option (List Char) := do
  let (second, s) ← fixedDigits 2 (← follows ':' (← afterMinute s))
  if 60 < second then none
  else
    match s with
    | '.' :: r => if r.head?.any Char.isDigit then some (r.dropWhile Char.isDigit) else none
    | s => some s

/-- Whether a text is nothing or an offset from universal time. -/
def isOffset : List Char → Bool
  | [] | ['Z'] | ['z'] => true
  | '+' :: r | '-' :: r => afterMinute r == some []
  | _ => false

/-- Whether a run is a date, a time of the day, or both. -/
def isMoment (s : List Char) : Bool :=
  afterTime s == some [] ||
    match afterDate s with
    | some [] => true
    | some (c :: r) => ['T', 't', ' '].contains c && (afterTime r).any isOffset
    | none => false

/-- The unquoted value at the front of a text, and what follows it. A date and a time may be parted
by a blank. -/
def scalar (s : List Char) : Option (Document × List Char) :=
  let run := s.takeWhile isScalarChar
  let rest := s.dropWhile isScalarChar
  let (run, rest) :=
    match afterDate run, rest with
    | some [], ' ' :: h :: m :: ':' :: r =>
      if h.isDigit && m.isDigit then
        (run ++ ' ' :: (h :: m :: ':' :: r).takeWhile isScalarChar, r.dropWhile isScalarChar)
      else (run, rest)
    | _, _ => (run, rest)
  if run == "true".toList then some (.bool true, rest)
  else if run == "false".toList then some (.bool false, rest)
  else if isMoment run then some (.moment, rest)
  else if isFloat run || isInteger run then some (.number run, rest)
  else none

end ImportLint.Toml
