import Intcode.Toml.Scan

/-! TOML dates and times: a date, a time of day, or both with a blank or the letter T between and
perhaps an offset from universal time. -/
namespace Intcode.Toml

/-- The value of two digits. -/
def twoDigits? (a b : Char) : Option Nat :=
  if a.isDigit && b.isDigit then some (Nat.ofDigitChars 10 [a, b] 0) else none

def isLeapYear (year : Nat) : Bool := year % 4 == 0 && (year % 100 != 0 || year % 400 == 0)

def daysInMonth (year month : Nat) : Nat :=
  if month == 2 then (if isLeapYear year then 29 else 28)
  else if month == 4 || month == 6 || month == 9 || month == 11 then 30
  else 31

def isDate (year month day : Nat) : Bool :=
  1 ≤ month && month ≤ 12 && 1 ≤ day && day ≤ daysInMonth year month

/-- The rest after a date. -/
def afterDate? : List Char → Option (List Char)
  | y₁ :: y₂ :: y₃ :: y₄ :: '-' :: m₁ :: m₂ :: '-' :: d₁ :: d₂ :: rest => do
    let century ← twoDigits? y₁ y₂
    let year ← twoDigits? y₃ y₄
    let month ← twoDigits? m₁ m₂
    let day ← twoDigits? d₁ d₂
    if isDate (100 * century + year) month day then some rest else none
  | _ => none

/-- The rest after a fraction of a second, if there is one. -/
def afterFraction : List Char → List Char
  | '.' :: d :: rest => if d.isDigit then rest.dropWhile Char.isDigit else '.' :: d :: rest
  | cs => cs

/-- The rest after a time of day. A minute may have sixty-one seconds. -/
def afterTime? : List Char → Option (List Char)
  | h₁ :: h₂ :: ':' :: m₁ :: m₂ :: ':' :: s₁ :: s₂ :: rest => do
    let hour ← twoDigits? h₁ h₂
    let minute ← twoDigits? m₁ m₂
    let second ← twoDigits? s₁ s₂
    if hour ≤ 23 && minute ≤ 59 && second ≤ 60 then some (afterFraction rest) else none
  | _ => none

/-- The rest after an offset, which may be left out. -/
def afterOffset? : List Char → Option (List Char)
  | 'Z' :: rest => some rest
  | 'z' :: rest => some rest
  | c :: rest =>
    if c == '+' || c == '-' then
      match rest with
      | h₁ :: h₂ :: ':' :: m₁ :: m₂ :: rest => do
        let hour ← twoDigits? h₁ h₂
        let minute ← twoDigits? m₁ m₂
        if hour ≤ 23 && minute ≤ 59 then some rest else none
      | _ => none
    else some (c :: rest)
  | [] => some []

/-- Whether a time of day follows a date. -/
def startsTime : List Char → Bool
  | c :: h₁ :: h₂ :: ':' :: _ =>
    (c == 'T' || c == 't' || c == ' ') && h₁.isDigit && h₂.isDigit
  | _ => false

/-- Whether a text starts like a date, which no other value does. -/
def startsDate : List Char → Bool
  | y₁ :: y₂ :: y₃ :: y₄ :: '-' :: _ =>
    y₁.isDigit && y₂.isDigit && y₃.isDigit && y₄.isDigit
  | _ => false

/-- Whether a text starts like a time of day, which no other value does. -/
def startsClock : List Char → Bool
  | h₁ :: h₂ :: ':' :: _ => h₁.isDigit && h₂.isDigit
  | _ => false

/-- The rest after a date, with or without a time of day. -/
def afterDatetime? (cs : List Char) : Option (List Char) := do
  let rest ← afterDate? cs
  if startsTime rest then
    let rest ← afterTime? (rest.drop 1)
    afterOffset? rest
  else some rest

/-- What is left out of a text at its end to get another. -/
def cutOff (cs rest : List Char) : String :=
  String.ofList (cs.take (cs.length - rest.length))

end Intcode.Toml
