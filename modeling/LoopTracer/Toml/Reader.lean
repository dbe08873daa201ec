import LoopTracer.Toml.Basic

/-! Reading TOML.

A reader takes bytes off the front of the text, or refuses it. Texts have four forms: between
quotes with escapes or between apostrophes without, each on one line or, with the mark three
times, on several. The fuel of the readers for values bounds how deep and how long lists and
tables may be; three times the length of the text is always enough. -/
namespace LoopTracer.Toml

abbrev Reader := StateT (List UInt8) Option

/-! ### Blanks, comments and line ends -/

def skipBlanks : Reader Unit := modify (·.dropWhile isBlank)

/-- Takes one byte that must be `b`. -/
def expect (b : UInt8) : Reader Unit := do
  match ← get with
  | c :: rest => if c == b then set rest else failure
  | [] => failure

/-- The text after a comment, of which the line end is left; a carriage return stands only
before a line feed. -/
def afterComment? (l : List UInt8) : Option (List UInt8) :=
  let body := l.takeWhile (· ≠ 10)
  let rest := l.dropWhile (· ≠ 10)
  let body := if rest ≠ [] && body.getLast? = some 13 then body.dropLast else body
  if isClean body && !body.contains 13 then some rest else none

/-- Takes a comment if one stands here. -/
def skipComment : Reader Unit := do
  if (← get).head? = some 35 then set (← (afterComment? (← get) : Option (List UInt8)))

/-- Takes a line end. -/
def newline : Reader Unit := do
  match ← get with
  | 10 :: rest => set rest
  | 13 :: 10 :: rest => set rest
  | _ => failure

/-- Whether a line ends here. -/
def atLineEnd (l : List UInt8) : Bool := l.head? = some 10 || l.head? = some 13

/-- Takes blanks, comments and line ends. -/
def skipLines : Reader Unit := do go (← get).length
where
  go : Nat → Reader Unit
    | 0 => return
    | n + 1 => do
      skipBlanks
      skipComment
      if atLineEnd (← get) then
        newline
        go n

/-! ### Texts -/

/-- The byte that an escape letter stands for. -/
def escapeLetter? (b : UInt8) : Option UInt8 :=
  match Char.ofNat b.toNat with
  | '"' => some 34
  | '\\' => some 92
  | 'b' => some 8
  | 't' => some 9
  | 'n' => some 10
  | 'f' => some 12
  | 'r' => some 13
  | 'e' => some 27
  | _ => none

/-- The bytes of the code point with the digits. -/
def codePoint? (digits : List UInt8) : Option (List UInt8) := do
  let n ← Text.number? Text.hexValue? 16 digits.length digits
  if Text.isScalar n then some (Utf8.encode n) else none

/-- Whether only blanks stand before the line end. -/
def endsLine : List UInt8 → Bool
  | 10 :: _ => true
  | 13 :: 10 :: _ => true
  | b :: rest => isBlank b && endsLine rest
  | [] => false

/-- The text that stands for itself but for the escapes. With `lines`, a backslash at the end of
a line takes away all blanks and line ends that follow, and `joining` says that they are being
taken away. -/
def unescape (lines : Bool) (joining : Bool) : List UInt8 → Option (List UInt8)
  | [] => some []
  | b :: rest =>
    if joining && (isBlank b || b == 10 || b == 13) then unescape lines true rest
    else if b ≠ 92 then (unescape lines false rest).map (b :: ·)
    else if lines && endsLine rest then unescape lines true rest
    else match rest with
      | 117 :: a :: b :: c :: d :: more => do
        return (← codePoint? [a, b, c, d]) ++ (← unescape lines false more)
      | 85 :: a :: b :: c :: d :: e :: f :: g :: h :: more => do
        return (← codePoint? [a, b, c, d, e, f, g, h]) ++ (← unescape lines false more)
      | l :: more => do return (← escapeLetter? l) :: (← unescape lines false more)
      | [] => none

/-- The bytes up to the mark that ends a text of one line, and those after it. With `escapes`,
the byte after a backslash never ends the text. -/
def line? (mark : UInt8) (escapes : Bool) : List UInt8 → Option (List UInt8 × List UInt8)
  | [] => none
  | b :: rest =>
    if b == mark then some ([], rest)
    else if b == 10 || b == 13 then none
    else if escapes && b == 92 then
      match rest with
      | [] => none
      | c :: rest => (line? mark escapes rest).map fun (t, r) => (b :: c :: t, r)
    else (line? mark escapes rest).map fun (t, r) => (b :: t, r)

/-- The marks that still belong to a text of several lines when three have been seen: at most
two, and a third is refused. -/
def lastMarks? (mark : UInt8) (l : List UInt8) : Option (List UInt8 × List UInt8) :=
  let more := l.takeWhile (· == mark)
  if more.length < 3 then some (more, l.drop more.length) else none

/-- The bytes up to the three marks that end a text of several lines, and those after them. -/
def lines? (mark : UInt8) (escapes : Bool) : List UInt8 → Option (List UInt8 × List UInt8)
  | [] => none
  | b :: rest =>
    if b == mark && rest.take 2 == [mark, mark] then lastMarks? mark (rest.drop 2)
    else if escapes && b == 92 then
      match rest with
      | [] => none
      | c :: rest => (lines? mark escapes rest).map fun (t, r) => (b :: c :: t, r)
    else if b == 13 then
      match rest with
      | 10 :: rest => (lines? mark escapes rest).map fun (t, r) => (13 :: 10 :: t, r)
      | _ => none
    else (lines? mark escapes rest).map fun (t, r) => (b :: t, r)

/-- The bytes without a line end in front. -/
def dropLineEnd : List UInt8 → List UInt8
  | 10 :: rest => rest
  | 13 :: 10 :: rest => rest
  | l => l

/-- A text of one line; its mark, the quote or the apostrophe, has been taken. -/
def lineText (mark : UInt8) : Reader Text := do
  let escapes := mark == 34
  let (body, rest) ← (line? mark escapes (← get) : Option _)
  set rest
  if !isClean body then failure
  return .ofList (← if escapes then unescape false false body else some body)

/-- A text of several lines; its three marks have been taken. -/
def linesText (mark : UInt8) : Reader Text := do
  let escapes := mark == 34
  let (body, rest) ← (lines? mark escapes (← get) : Option _)
  set rest
  if !isClean body then failure
  let body := dropLineEnd body
  return .ofList (← if escapes then unescape true false body else some body)

/-- A text in any of the four forms; its first mark has been taken. -/
def anyText (mark : UInt8) : Reader Text := do
  match ← get with
  | a :: b :: rest =>
    if a == mark && b == mark then
      set rest
      linesText mark
    else lineText mark
  | _ => lineText mark

/-! ### Keys -/

def simpleKey : Reader Text := do
  match ← get with
  | [] => failure
  | b :: rest =>
    if b == 34 || b == 39 then
      set rest
      lineText b
    else if isBare b then
      let l := b :: rest
      set (l.dropWhile isBare)
      return .ofList (l.takeWhile isBare)
    else failure

/-- The further parts of a dotted key. -/
def moreKey : Nat → Reader Key
  | 0 => failure
  | n + 1 => do
    skipBlanks
    match ← get with
    | 46 :: rest =>
      set rest
      skipBlanks
      let part ← simpleKey
      return part :: (← moreKey n)
    | _ => return []

def key : Reader Key := do
  let part ← simpleKey
  return part :: (← moreKey ((← get).length + 1))

/-! ### Numbers and times -/

/-- Whether a date or a time of day starts here: after four digits stands a hyphen, or after
two a colon. -/
def startsMoment (l : List UInt8) : Bool :=
  let digits := (l.takeWhile Reading.isDigit).length
  (digits == 4 && l[4]? == some 45) || (digits == 2 && l[2]? == some 58)

/-- Whether a byte goes on with a date or a time of day. -/
def inMoment (b : UInt8) : Bool :=
  Reading.isDigit b || b == 45 || b == 58 || b == 46 || b == 43 || b == 84 || b == 116 || b == 90
    || b == 122

/-- The bytes of a date or time of day and those after it. One blank may divide the two; it must
stand before a digit, and then the two bytes after it are taken unseen. -/
def moment (divided : Bool) : List UInt8 → List UInt8 × List UInt8
  | [] => ([], [])
  | b :: rest =>
    if inMoment b then
      let (t, r) := moment divided rest
      (b :: t, r)
    else if b == 32 && !divided then
      match rest with
      | d :: c :: more =>
        if Reading.isDigit d then
          let (t, r) := moment true more
          (b :: d :: c :: t, r)
        else ([], b :: rest)
      | [d] => if Reading.isDigit d then ([b, d], []) else ([], [b, d])
      | [] => ([], [b])
    else ([], b :: rest)

/-- Whether one of the names of infinity and not-a-number stands here. -/
def startsName (l : List UInt8) : Bool :=
  l.take 3 == [105, 110, 102] || l.take 3 == [110, 97, 110]

/-- The digits of a base above ten or below, with underscores. -/
def inBase (base : Nat) (b : UInt8) : Bool :=
  b == Reading.underscore || ((Text.hexValue? b).any (· < base))

/-- A number that does not begin with a zero and further bytes. -/
def plainNumber (seen : List UInt8) (fraction : Bool) :
    List UInt8 → Option (Value × List UInt8)
  | [] => finish []
  | b :: rest =>
    if Reading.isDigit b || b == 43 || b == 45 || b == 95 then plainNumber (b :: seen) fraction rest
    else if b == 46 || b == 101 || b == 69 then plainNumber (b :: seen) true rest
    else if b == 105 || b == 110 then
      if startsName (b :: rest) then
        some (.real (seen.reverse ++ (b :: rest.take 2)), rest.drop 2)
      else none
    else finish (b :: rest)
where
  finish (rest : List UInt8) : Option (Value × List UInt8) :=
    if seen.isEmpty then none
    else some (if fraction then .real seen.reverse else .integer seen.reverse, rest)

/-- A number. A zero before anything but a point or an exponent is a number of its own, unless a
mark for a base follows or the text ends with the next byte. -/
def number (l : List UInt8) : Option (Value × List UInt8) :=
  let based (base : Nat) (m : UInt8) (ds : List UInt8) : Option (Value × List UInt8) :=
    some (.integer (48 :: m :: ds.takeWhile (inBase base)), ds.dropWhile (inBase base))
  match l with
  | 48 :: m :: d :: rest =>
    if m == 120 then based 16 m (d :: rest)
    else if m == 111 then based 8 m (d :: rest)
    else if m == 98 then based 2 m (d :: rest)
    else if m == 46 || m == 101 || m == 69 then plainNumber [] false l
    else some (.integer [48], m :: d :: rest)
  | _ => plainNumber [] false l

/-- A number, a date or a time of day. -/
def numberOrMoment : Reader Value := do
  let l ← get
  if 3 ≤ l.length && startsMoment l then
    let (t, rest) := moment false l
    set rest
    return .moment t
  else
    let (v, rest) ← (number l : Option _)
    set rest
    return v

/-! ### Values -/

mutual

def value : Nat → Reader Value
  | 0 => failure
  | n + 1 => do
    match ← get with
    | 34 :: rest =>
      set rest
      return .text (← anyText 34)
    | 39 :: rest =>
      set rest
      return .text (← anyText 39)
    | 91 :: rest =>
      set rest
      return .list (← elements n true)
    | 123 :: rest =>
      set rest
      return .table (← entries n true)
    | 116 :: 114 :: 117 :: 101 :: rest =>
      set rest
      return .flag true
    | 102 :: 97 :: 108 :: 115 :: 101 :: rest =>
      set rest
      return .flag false
    | _ => numberOrMoment

/-- The elements of a list up to its end; a comma may stand before the end. -/
def elements : Nat → (first : Bool) → Reader (List Value)
  | 0, _ => failure
  | n + 1, first => do
    skipLines
    match ← get with
    | 93 :: rest =>
      set rest
      return []
    | 44 :: rest =>
      if first then failure
      set rest
      skipLines
      match ← get with
      | 93 :: rest =>
        set rest
        return []
      | _ => return (← value n) :: (← elements n false)
    | _ =>
      if !first then failure
      return (← value n) :: (← elements n false)

/-- The entries of a table on one line up to its end. -/
def entries : Nat → (first : Bool) → Reader (List (Key × Value))
  | 0, _ => failure
  | n + 1, first => do
    skipBlanks
    match ← get with
    | 125 :: rest =>
      set rest
      return []
    | _ =>
      if !first then
        expect 44
        skipBlanks
      return (← entry n) :: (← entries n false)

def entry : Nat → Reader (Key × Value)
  | 0 => failure
  | n + 1 => do
    let k ← key
    skipBlanks
    expect 61
    skipBlanks
    return (k, ← value n)

end

/-! ### Documents -/

def header : Reader Statement := do
  match ← get with
  | 91 :: 91 :: rest =>
    set rest
    skipBlanks
    let k ← key
    skipBlanks
    expect 93
    expect 93
    return .element k
  | _ =>
    expect 91
    skipBlanks
    let k ← key
    skipBlanks
    expect 93
    return .table k

/-- What a line holds, up to its end. -/
def statement : Reader (Option Statement) := do
  skipBlanks
  match ← get with
  | [] => return none
  | b :: rest =>
    if b == 35 then
      skipComment
      return none
    else if b == 10 || b == 13 then return none
    else
      let s : Statement ← if b == 91 then header else
        (fun (k, v) => .entry k v) <$> entry (3 * (b :: rest).length + 3)
      skipBlanks
      skipComment
      return some s

/-- The statements up to the first that is not well formed, and whether there is none such. -/
def statements : Nat → List UInt8 → List Statement × Bool
  | 0, _ => ([], false)
  | n + 1, l =>
    match statement.run l with
    | none => ([], false)
    | some (s, []) => (s.toList, true)
    | some (s, rest) =>
      match newline.run rest with
      | none => (s.toList, false)
      | some (_, []) => (s.toList, true)
      | some (_, rest) =>
        let (more, whole) := statements n rest
        (s.toList ++ more, whole)

/-- The statements of a document, up to the first that is not well formed, and whether the whole
document is. -/
def read (t : Text) : List Statement × Bool := statements (t.size + 1) t.toList

end LoopTracer.Toml
