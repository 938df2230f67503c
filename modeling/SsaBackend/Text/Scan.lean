import SsaBackend.Text.CharClass

/-!
# Scanning text

Small scanners on character lists and their versions on strings: trimming, looking at the first and
last character, cutting at a mark or at the first blank, and the words and register names of an
operand. Every scanner keeps the characters it returns in order and invents none.
-/

namespace SsaBackend.Text

def trimChars (cs : List Char) : List Char :=
  ((cs.dropWhile isBlank).reverse.dropWhile isBlank).reverse

def trim (s : String) : String := String.ofList (trimChars s.toList)

def beforeMark (mark : List Char) : List Char → List Char
  | [] => []
  | c :: cs => if mark.isPrefixOf (c :: cs) then [] else c :: beforeMark mark cs

def cutAtMark? (mark : List Char) : List Char → Option (List Char × List Char)
  | [] => none
  | c :: cs =>
    if mark.isPrefixOf (c :: cs) then some ([], (c :: cs).drop mark.length)
    else (cutAtMark? mark cs).map fun parts => (c :: parts.1, parts.2)

def cutAtBlank (cs : List Char) : List Char × List Char :=
  (cs.takeWhile fun c => !isBlank c, (cs.dropWhile fun c => !isBlank c).drop 1)

def after? (c : Char) (s : String) : Option String :=
  match s.toList with
  | d :: cs => if d = c then some (String.ofList cs) else none
  | [] => none

def startsWith (c : Char) (s : String) : Bool := s.toList.head? == some c

def endsWith (c : Char) (s : String) : Bool := s.toList.getLast? == some c

def mentions (c : Char) (s : String) : Bool := s.toList.contains c

def afterText? (lead s : String) : Option String :=
  if lead.toList.isPrefixOf s.toList then some (String.ofList (s.toList.drop lead.length)) else none

/-- A lowercase letter or digit of ASCII: what names of registers and mnemonics are made of. -/
def isNameChar (c : Char) : Bool := c.isLower || c.isDigit

/-- The maximal runs of characters that satisfy `p`. The accumulator holds the run in progress,
last character first. -/
def runsFrom (p : Char → Bool) : List Char → List Char → List (List Char)
  | run, [] => if run.isEmpty then [] else [run.reverse]
  | run, c :: cs =>
    if p c then runsFrom p (c :: run) cs
    else if run.isEmpty then runsFrom p [] cs
    else run.reverse :: runsFrom p [] cs

def runs (p : Char → Bool) (cs : List Char) : List (List Char) := runsFrom p [] cs

/-- Whether a run of word characters is a name: lowercase letters and digits, the first a letter. -/
def isName : List Char → Bool
  | [] => false
  | c :: cs => c.isLower && cs.all isNameChar

/-- The words of a text that are names. A name stands alone between word boundaries, so a run with
any other word character in it is no name. -/
def names (s : String) : List String :=
  ((runs isWord s.toList).filter isName).map String.ofList

/-- The names that follow a percent sign: each sign takes the longest run of name characters after
it, and a sign with none after it names nothing. -/
def percentNames (s : String) : List String :=
  (go s.toList).map String.ofList
where
  go : List Char → List (List Char)
    | [] => []
    | c :: cs =>
      let run := cs.takeWhile isNameChar
      if c = '%' && !run.isEmpty then run :: go cs else go cs

end SsaBackend.Text
