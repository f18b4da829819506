import DeltaSlice.Yaml.Node

/-!
Reading documents. The dialect has one mapping at the top, in lines or in braces, whose values are
scalars, lists in brackets, or lists of lines that start with a dash. Only the first document of a
text is read, and `none` stands for a text that is no document.
-/

namespace DeltaSlice.Yaml

abbrev Chars := List Char

def isBlank (c : Char) : Bool := c = ' ' || c = '\t'

def isBreak (c : Char) : Bool := c = '\n' || c = '\r'

/-- Whether a token ends here. -/
def atEnd : Chars → Bool
  | [] => true
  | c :: _ => isBlank c || isBreak c

def skipBlanks (cs : Chars) : Chars := cs.dropWhile isBlank

/-- Skips blanks, line breaks and comments. -/
def skipSpace (inComment : Bool) : Chars → Chars
  | [] => []
  | c :: cs =>
    if isBreak c then skipSpace false cs
    else if inComment || isBlank c then skipSpace inComment cs
    else if c = '#' then skipSpace true cs
    else c :: cs

/-- From the start of a line: skips empty lines and comments, and measures how far the next line is
indented. -/
def nextLine (column : Nat) (inComment : Bool) : Chars → Nat × Chars
  | [] => (0, [])
  | c :: cs =>
    if isBreak c then nextLine 0 false cs
    else if inComment then nextLine column true cs
    else if c = ' ' then nextLine (column + 1) false cs
    else if c = '#' then nextLine column true cs
    else (column, c :: cs)

/-- Only blanks and a comment may follow; gives the next line. -/
def endLine? (cs : Chars) : Option Chars :=
  match skipBlanks cs with
  | [] => some []
  | c :: rest =>
    if isBreak c then some rest
    else if c = '#' then some (rest.dropWhile fun c => !isBreak c)
    else none

/-- A line that divides documents. -/
def isDivider (column : Nat) (cs : Chars) : Bool :=
  column = 0 && (cs.take 3 = ['-', '-', '-'] || cs.take 3 = ['.', '.', '.']) && atEnd (cs.drop 3)

/-- A dash that starts an item. -/
def isDash : Chars → Bool
  | '-' :: cs => atEnd cs
  | _ => false

/-! Scalars. -/

def singleQuote : Char := Char.ofNat 39

/-- Joins the lines of a scalar: a line break is a blank, and of several the first counts for
nothing. -/
def foldLines (breaks : Nat) : List String → String
  | [] => ""
  | l :: ls =>
    if l.isEmpty && !ls.isEmpty then foldLines (breaks + 1) ls
    else
      let gap := if breaks = 0 then "" else if breaks = 1 then " "
        else String.ofList (List.replicate (breaks - 1) '\n')
      gap ++ l ++ foldLines 1 ls

def trimEnd (cs : Chars) : Chars := (cs.reverse.dropWhile isBlank).reverse

/-- The lines of a quoted text, without the blanks around the breaks. -/
def quotedLines (cs : Chars) : List String :=
  let lines := ((String.ofList cs).splitOn "\n").map (·.toList)
  let last := lines.length - 1
  lines.zipIdx.map fun (l, i) =>
    let l := if i = last then l else trimEnd (l.filter (· ≠ '\r'))
    String.ofList (if i = 0 then l else l.dropWhile isBlank)

def foldQuoted (cs : Chars) : Chars :=
  match quotedLines cs with
  | [] => []
  | l :: ls => (l ++ foldLines 1 ls).toList

/-- The text up to the closing single quote; two quotes stand for one. -/
def single? : Chars → Option (Chars × Chars)
  | [] => none
  | c :: cs =>
    if c = singleQuote then
      match cs with
      | [] => some ([], [])
      | d :: rest =>
        if d = singleQuote then (single? rest).map fun (t, r) => (d :: t, r) else some ([], cs)
    else (single? cs).map fun (t, r) => (c :: t, r)

/-- The text up to the closing double quote, with its escapes. -/
def double? : Chars → Option (Chars × Chars)
  | [] => none
  | '"' :: cs => some ([], cs)
  | '\\' :: c :: cs => (double? cs).map fun (t, r) => ('\\' :: c :: t, r)
  | c :: cs => (double? cs).map fun (t, r) => (c :: t, r)

/-- The code point that an escape letter stands for. -/
def escaped? (c : Char) : Option Nat :=
  [('0', 0), ('a', 7), ('b', 8), ('t', 9), ('\t', 9), ('n', 10), ('v', 11), ('f', 12), ('r', 13),
   ('e', 27), (' ', 32), ('"', 34), ('/', 47), ('\\', 92), ('N', 0x85), ('_', 0xa0), ('L', 0x2028),
   ('P', 0x2029)].lookup c

/-- The number of hexadecimal digits after an escape letter. -/
def escapeWidth? (c : Char) : Option Nat := [('x', 2), ('u', 4), ('U', 8)].lookup c

def unescape? : Nat → Chars → Option Chars
  | 0, _ => none
  | _ + 1, [] => some []
  | fuel + 1, '\\' :: c :: cs =>
    match escaped? c, escapeWidth? c with
    | some n, _ => (unescape? fuel cs).map (Char.ofNat n :: ·)
    | none, some w => do
      let digits := cs.take w
      let n ← if digits.length = w then Text.ofDigits? 16 digits else none
      let rest ← unescape? fuel (cs.drop w)
      if n.isValidChar then some (Char.ofNat n :: rest) else none
    | none, none => none
  | fuel + 1, c :: cs => (unescape? fuel cs).map (c :: ·)

/-- A quoted scalar, if one starts here. -/
def quoted? : Chars → Option (String × Chars)
  | '"' :: cs => do
    let (raw, rest) ← double? cs
    let folded := foldQuoted raw
    let text ← unescape? (folded.length + 1) folded
    return (String.ofList text, rest)
  | c :: cs =>
    if c = singleQuote then (single? cs).map fun (t, r) => (String.ofList (foldQuoted t), r) else none
  | [] => none

def startsQuoted : Chars → Bool
  | c :: _ => c = '"' || c = singleQuote
  | [] => false

/-- Whether a plain scalar may start here. -/
def startsPlain : Chars → Bool
  | [] => false
  | c :: cs =>
    if c = '-' || c = '?' || c = ':' then !atEnd cs
    else !("[]\x7b\x7d,#&*!|>%@\"".toList.contains c || c = singleQuote || c = Char.ofNat 96
      || isBlank c || isBreak c)

def isFlowMark (c : Char) : Bool := "[]\x7b\x7d,".toList.contains c

/-- The characters of a plain scalar on one line. -/
def plainRun (flow : Bool) : Bool → Chars → Chars × Chars
  | _, [] => ([], [])
  | afterBlank, c :: cs =>
    if isBreak c || (c = '#' && afterBlank) || (c = ':' && atEnd cs) || (flow && isFlowMark c) then
      ([], c :: cs)
    else
      let (t, rest) := plainRun flow (isBlank c) cs
      (c :: t, rest)

/-- Whether a plain scalar goes on in the next line, which has to be indented further. -/
def continues (flow : Bool) (indent : Nat) (rest : Chars) : Option (Nat × Chars) :=
  match rest with
  | [] => none
  | c :: _ =>
    if !isBreak c then none
    else
      let space := rest.takeWhile fun c => isBlank c || isBreak c
      let breaks := space.filter (· = '\n') |>.length
      let (column, cs) := nextLine 0 false rest
      let next := rest.drop space.length
      if next.isEmpty || next.head? = some '#' || isDivider column cs then none
      else if flow || indent < column then some (breaks, next)
      else none

/-- The lines of a plain scalar; empty lines stand for further breaks. -/
def plainLines (flow : Bool) (indent : Nat) : Nat → Chars → List String × Chars
  | 0, cs => ([], cs)
  | fuel + 1, cs =>
    let (run, rest) := plainRun flow false cs
    let line := String.ofList (trimEnd run)
    match continues flow indent rest with
    | some (breaks, next) =>
      if (plainRun flow true next).1.isEmpty then ([line], rest)
      else
        let (lines, rest) := plainLines flow indent fuel next
        (line :: List.replicate (breaks - 1) "" ++ lines, rest)
    | none => ([line], rest)

def plain (flow : Bool) (indent : Nat) (cs : Chars) : Node × Chars :=
  let (lines, rest) := plainLines flow indent (cs.length + 1) cs
  (.scalar (foldLines 0 lines) false, rest)

/-! Values in brackets and braces. -/

mutual

def flow? : Nat → Chars → Option (Node × Chars)
  | 0, _ => none
  | fuel + 1, cs =>
    match cs with
    | '[' :: rest => (flowItems? fuel rest).map fun (l, r) => (.list l, r)
    | '\x7b' :: rest => (flowEntries? fuel rest).map fun (l, r) => (.mapping l, r)
    | _ =>
      if startsQuoted cs then (quoted? cs).map fun (s, r) => (.scalar s true, r)
      else if startsPlain cs then some (plain true 0 cs)
      else none

/-- The items up to the closing bracket. -/
def flowItems? : Nat → Chars → Option (List Node × Chars)
  | 0, _ => none
  | fuel + 1, cs =>
    match skipSpace false cs with
    | ']' :: rest => some ([], rest)
    | cs => do
      let (n, rest) ← flow? fuel cs
      match skipSpace false rest with
      | ']' :: rest => some ([n], rest)
      | ',' :: rest => (flowItems? fuel rest).map fun (l, r) => (n :: l, r)
      | _ => none

/-- The entries up to the closing brace; a key without a value has none. -/
def flowEntries? : Nat → Chars → Option (List (String × Node) × Chars)
  | 0, _ => none
  | fuel + 1, cs =>
    match skipSpace false cs with
    | '\x7d' :: rest => some ([], rest)
    | cs => do
      let (k, rest) ← flow? fuel cs
      let key ← k.text?
      let (n, rest) ← match skipSpace false rest with
        | ':' :: rest =>
          match skipSpace false rest with
          | ',' :: more => some (Node.null, ',' :: more)
          | '\x7d' :: more => some (Node.null, '\x7d' :: more)
          | rest => flow? fuel rest
        | rest => some (Node.null, rest)
      match skipSpace false rest with
      | '\x7d' :: rest => some ([(key, n)], rest)
      | ',' :: rest => (flowEntries? fuel rest).map fun (l, r) => ((key, n) :: l, r)
      | _ => none

end

/-! Values in lines. -/

/-- A value that starts on this line, and the next line. -/
def inline? (indent : Nat) (cs : Chars) : Option (Node × Chars) := do
  let (n, rest) ←
    if cs.head? = some '[' || cs.head? = some '\x7b' || startsQuoted cs then flow? (cs.length + 1) cs
    else if startsPlain cs then some (plain false indent cs)
    else none
  return (n, ← endLine? rest)

/-- The value after a key or a dash that stands at a column; it may start on a later line that is
indented further. -/
def valueAfter? (indent : Nat) (cs : Chars) : Option (Node × Chars) :=
  match endLine? cs with
  | none => inline? indent (skipBlanks cs)
  | some rest =>
    let (column, next) := nextLine 0 false rest
    if next.isEmpty || column ≤ indent || isDivider column next then some (.null, rest)
    else inline? indent next

/-- The items of a list whose dashes stand at a column, from the start of a line. -/
def items? (indent : Nat) : Nat → Chars → Option (List Node × Chars)
  | 0, _ => none
  | fuel + 1, cs =>
    let (column, line) := nextLine 0 false cs
    if column = indent && isDash line then do
      let (n, rest) ← valueAfter? indent (line.drop 1)
      let (l, rest) ← items? indent fuel rest
      return (n :: l, rest)
    else some ([], cs)

/-- The value of a key that stands at a column. -/
def value? (indent : Nat) (cs : Chars) : Option (Node × Chars) :=
  match endLine? cs with
  | some rest =>
    let (column, next) := nextLine 0 false rest
    if indent ≤ column && isDash next then
      (items? column (rest.length + 1) rest).map fun (l, r) => (.list l, r)
    else valueAfter? indent cs
  | none => valueAfter? indent cs

/-- A key and what follows its colon. -/
def key? (cs : Chars) : Option (String × Chars) := do
  let (key, rest) ←
    if startsQuoted cs then quoted? cs
    else if startsPlain cs then
      let (run, rest) := plainRun false false cs
      some (String.ofList (trimEnd run), rest)
    else none
  match skipBlanks rest with
  | ':' :: rest => if atEnd rest then some (key, rest) else none
  | _ => none

/-- The entries of a mapping whose keys stand at a column, to the end of the document. -/
def entries? (indent : Nat) : Nat → Chars → Option (List (String × Node))
  | 0, _ => none
  | fuel + 1, cs =>
    let (column, line) := nextLine 0 false cs
    if line.isEmpty || isDivider column line then some []
    else if column ≠ indent then none
    else do
      let (key, rest) ← key? line
      let (n, rest) ← value? indent rest
      let more ← entries? indent fuel rest
      return (key, n) :: more

/-- Whether the document ends here. -/
def endsDocument (cs : Chars) : Bool :=
  let (column, line) := nextLine 0 false cs
  line.isEmpty || isDivider column line

/-- A document that is a single value. -/
def document? (indent : Nat) (cs : Chars) : Option Node :=
  (inline? indent cs).bind fun (n, rest) => if endsDocument rest then some n else none

/-- The document from the start of a line. -/
def body? (cs : Chars) : Option Node :=
  let (column, line) := nextLine 0 false cs
  if line.isEmpty || isDivider column line then some .null
  else if (key? line).isSome then (entries? column (cs.length + 1) cs).map .mapping
  else document? 0 line

/-- The first document of a text. -/
def read? (text : String) : Option Node :=
  let cs := text.toList
  let (column, line) := nextLine 0 false cs
  if isDivider column line && line.head? = some '-' then
    let rest := line.drop 3
    match endLine? rest with
    | some next => body? next
    | none => document? 0 (skipBlanks rest)
  else body? cs

end DeltaSlice.Yaml
