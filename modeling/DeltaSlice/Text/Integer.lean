/-!
Written integers: an optional sign, an optional base after a leading zero (`0x`, `0o`, `0b`, or a bare
zero for octal digits), and digits, which may be grouped by underscores.
-/

namespace DeltaSlice.Text

def digitValue? (c : Char) : Option Nat :=
  if '0' ≤ c && c ≤ '9' then some (c.toNat - '0'.toNat)
  else if 'a' ≤ c && c ≤ 'f' then some (c.toNat - 'a'.toNat + 10)
  else if 'A' ≤ c && c ≤ 'F' then some (c.toNat - 'A'.toNat + 10)
  else none

/-- The number that is written by digits of a base. -/
def ofDigits? (base : Nat) (digits : List Char) : Option Nat :=
  digits.foldlM (fun n c =>
    (digitValue? c).bind fun d => if d < base then some (n * base + d) else none) 0

/-- The base named by the letter after a leading zero. -/
def baseOf? (c : Char) : Option Nat :=
  if c = 'x' || c = 'X' then some 16
  else if c = 'o' || c = 'O' then some 8
  else if c = 'b' || c = 'B' then some 2
  else none

/-- A number without sign and underscores. -/
def natural? : List Char → Option Nat
  | [] => none
  | '0' :: c :: d :: cs =>
    match baseOf? c with
    | some b => ofDigits? b (d :: cs)
    | none => ofDigits? 8 (c :: d :: cs)
  | '0' :: cs => ofDigits? 8 cs
  | cs => ofDigits? 10 cs

/-- A number without underscores. -/
def integer? : List Char → Option Int
  | '-' :: cs => (natural? cs).map fun n => -(n : Int)
  | '+' :: cs => (natural? cs).map Int.ofNat
  | cs => (natural? cs).map Int.ofNat

/-- Whether every underscore stands between digits or follows the base; `afterDigit` says whether a
digit or base comes before. -/
def groupsDigits (hex : Bool) : Bool → List Char → Bool
  | _, [] => true
  | afterDigit, '_' :: cs =>
    match cs with
    | [] => false
    | c :: _ => afterDigit && isDigit c && groupsDigits hex false cs
  | _, c :: cs => groupsDigits hex (isDigit c) cs
where
  isDigit (c : Char) : Bool := (digitValue? c).any fun d => hex || d < 10

/-- Whether the underscores of a number, which may have a sign, group its digits. -/
def isGrouped (cs : List Char) : Bool :=
  let body := if cs.head? = some '-' || cs.head? = some '+' then cs.tail else cs
  match body with
  | '0' :: c :: rest =>
    match baseOf? c with
    | some b => groupsDigits (b = 16) true rest
    | none => groupsDigits false false body
  | _ => groupsDigits false false body

/-- A written integer that fits 64 bits. -/
def word? (s : String) : Option Int64 :=
  let cs := s.toList
  if cs.contains '_' && !isGrouped cs then none
  else (integer? (cs.filter (· ≠ '_'))).bind fun n =>
    if Int64.minValue.toInt ≤ n && n ≤ Int64.maxValue.toInt then some (Int64.ofInt n) else none

end DeltaSlice.Text
