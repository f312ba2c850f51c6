/-!
The syntax of the time types. Times are kept as text; here it is only checked that a text is
well-formed, in general or under the restrictions of the canonical and distinguished rules.
-/

namespace Asn1

/-- Why a text is no time. -/
inductive TimeError
  | expectedDigit
  | fieldOutOfRange
  | missingSeconds
  | missingMinutesOrSeconds
  | commaInFraction
  | emptyFraction
  | trailingZero
  | illegalZone
  | trailingCharacters
  deriving DecidableEq, Repr

namespace TimeError

def message : TimeError → String
  | expectedDigit => "expected digit"
  | fieldOutOfRange => "field out of range"
  | missingSeconds => "missing seconds"
  | missingMinutesOrSeconds => "missing minutes or seconds"
  | commaInFraction => "fraction must use a full stop"
  | emptyFraction => "empty fraction"
  | trailingZero => "trailing zero in fraction"
  | illegalZone => "missing or illegal time zone"
  | trailingCharacters => "trailing characters"

end TimeError

namespace Time

/-- A check consumes the characters it has looked at. -/
abbrev Check (α : Type) := StateT (List Char) (Except TimeError) α

/-- Takes decimal digits and returns their value, following the value of the digits before them. -/
def digits (value : Nat) : Nat → Check Nat
  | 0 => pure value
  | count + 1 => do
    match ← get with
    | char :: rest =>
      if char.isDigit then
        set rest
        digits (value * 10 + (char.toNat - '0'.toNat)) count
      else throw .expectedDigit
    | [] => throw .expectedDigit

/-- Takes a field of `count` digits whose value lies from `least` to `greatest`. -/
def field (count least greatest : Nat) : Check Nat := do
  let value ← digits 0 count
  if value < least ∨ greatest < value then throw .fieldOutOfRange
  return value

/-- The last day of a month. Leap years are not told apart. -/
def lastDay (month : Nat) : Nat :=
  if month = 2 then 29 else if month ∈ [4, 6, 9, 11] then 30 else 31

def monthAndDay : Check Unit := do
  let month ← field 2 1 12
  discard <| field 2 1 (lastDay month)

def hour : Check Unit := discard <| field 2 0 23

/-- A minute or a second. -/
def sixtieth : Check Unit := discard <| field 2 0 59

def nextIsDigit : Check Bool := do
  return ((← get).head?.map Char.isDigit).getD false

/-- A zone is `Z`, or an offset of hours and minutes that restricted times must not use. If it is
not `required`, an unrestricted time may do without. -/
def zone (restricted required : Bool) : Check Unit := do
  match ← get with
  | 'Z' :: rest => set rest
  | '+' :: rest | '-' :: rest =>
    if restricted then throw .illegalZone
    set rest
    hour
    sixtieth
  | [] => if restricted || required then throw .illegalZone
  | _ => throw .illegalZone

/-- A fraction after its point or comma: at least one digit, the last of which must not be zero in
a restricted time. -/
def fraction (restricted : Bool) : Check Unit := do
  let chars ← get
  let run := chars.takeWhile Char.isDigit
  set (chars.dropWhile Char.isDigit)
  if run.isEmpty then throw .emptyFraction
  if restricted && run.getLast? == some '0' then throw .trailingZero

/-- The fraction of a time, if it has one. -/
def fraction? (restricted : Bool) : Check Unit := do
  match ← get with
  | '.' :: rest =>
    set rest
    fraction restricted
  | ',' :: rest =>
    if restricted then throw .commaInFraction
    set rest
    fraction restricted
  | _ => pure ()

def finish : Check Unit := do
  unless (← get).isEmpty do throw .trailingCharacters

/-- `YYMMDDhhmm[ss]` and a zone. Restricted times have seconds and the zone `Z`. -/
def utc (restricted : Bool) : Check Unit := do
  discard <| field 2 0 99
  monthAndDay
  hour
  sixtieth
  if ← nextIsDigit then sixtieth
  else if restricted then throw .missingSeconds
  zone restricted true
  finish

/-- `YYYYMMDDhh[mm[ss]]`, a fraction and a zone, both of which may be absent. Restricted times have
minutes, seconds, a full stop before the fraction and the zone `Z`. -/
def generalized (restricted : Bool) : Check Unit := do
  discard <| field 4 0 9999
  monthAndDay
  hour
  if ← nextIsDigit then
    sixtieth
    if ← nextIsDigit then sixtieth
    else if restricted then throw .missingMinutesOrSeconds
  else if restricted then throw .missingMinutesOrSeconds
  fraction? restricted
  zone restricted false
  finish

def checkUtc (text : String) (restricted : Bool) : Except TimeError Unit :=
  (utc restricted).run' text.toList

def checkGeneralized (text : String) (restricted : Bool) : Except TimeError Unit :=
  (generalized restricted).run' text.toList

end Time

end Asn1
