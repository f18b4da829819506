import DeltaSlice.Text.Integer

/-!
Documents as trees, and what their plain scalars stand for.
-/

namespace DeltaSlice.Yaml

inductive Node where
  /-- A quoted scalar is always a text; a plain one may stand for something else. -/
  | scalar (text : String) (quoted : Bool)
  | list (items : List Node)
  | mapping (entries : List (String × Node))

def isNullText (s : String) : Bool := ["", "~", "null", "Null", "NULL"].contains s

namespace Node

def null : Node := scalar "" false

def isNull : Node → Bool
  | scalar s quoted => !quoted && isNullText s
  | _ => false

/-- A truth value, also in the older spellings; these may be quoted. -/
def bool? : Node → Option Bool
  | scalar s quoted =>
    if !quoted && ["true", "True", "TRUE"].contains s then some true
    else if !quoted && ["false", "False", "FALSE"].contains s then some false
    else if ["y", "Y", "yes", "on"].contains s then some true
    else if ["n", "N", "no", "off"].contains s then some false
    else none
  | _ => none

/-- Every scalar is a text. -/
def text? : Node → Option String
  | scalar s _ => some s
  | _ => none

end Node

/-- Digits at the start of a text, and the rest. -/
def takeDigits (cs : List Char) : List Char × List Char :=
  (cs.takeWhile Char.isDigit, cs.dropWhile Char.isDigit)

/-- A decimal exponent after its mark. -/
def exponent? : List Char → Option Int
  | [] => some 0
  | c :: cs =>
    if c = 'e' || c = 'E' then
      let (negative, ds) := match cs with
        | '-' :: ds => (true, ds)
        | '+' :: ds => (false, ds)
        | ds => (false, ds)
      if ds.isEmpty || !ds.all Char.isDigit then none
      else (Text.ofDigits? 10 ds).map fun n => if negative then -(n : Int) else n
    else none

/-- A decimal number without sign: digits on at least one side of the point. -/
def decimal? (cs : List Char) : Option Float := do
  let (whole, rest) := takeDigits cs
  let (fraction, rest) ← match rest with
    | '.' :: more =>
      let (fraction, rest) := takeDigits more
      if whole.isEmpty && fraction.isEmpty then none else some (fraction, rest)
    | _ => if whole.isEmpty then none else some ([], rest)
  let e ← exponent? rest
  let m ← Text.ofDigits? 10 (whole ++ fraction)
  let shift := (fraction.length : Int) - e
  return if shift < 0 then .ofScientific m false shift.natAbs else .ofScientific m true shift.toNat

/-- A decimal number cut to a whole one. What lies below the least word counts as the least. -/
def cut? (x : Float) : Option Int64 :=
  if x.isNaN || x.isInf || 9223372036854775808 < x then none
  else if x == 9223372036854775808 then some Int64.minValue
  else some x.toInt64

/-- The whole number that a plain scalar stands for; underscores count for nothing. -/
def wholeNumber? (s : String) : Option Int64 :=
  match s.toList with
  | [] => none
  | c :: cs =>
    if c = '.' then (decimal? (c :: cs)).bind cut?
    else if c.isDigit || c = '-' || c = '+' then
      let plain := (c :: cs).filter (· ≠ '_')
      let n? := Text.integer? plain
      if n?.any fun n => Int64.minValue.toInt ≤ n && n ≤ Int64.maxValue.toInt then
        n?.map Int64.ofInt
      else if c.isDigit && n?.any fun n => n < (UInt64.size : Int) then none
      else match plain with
        | '-' :: ds => if ds = ".inf".toList || ds = ".Inf".toList || ds = ".INF".toList
            then some Int64.minValue
            else (decimal? ds).bind fun x => cut? (-x)
        | '+' :: ds => (decimal? ds).bind cut?
        | ds => (decimal? ds).bind cut?
    else none

def Node.whole? : Node → Option Int64
  | scalar s false => wholeNumber? s
  | _ => none

/-- A list of texts; empty items are left out. -/
def Node.texts? : Node → Option (List String)
  | list items => (items.filter fun i => !i.isNull).mapM Node.text?
  | _ => none

end DeltaSlice.Yaml
