/-!
# Quoted strings

Each reader starts behind the opening quotes and returns the text and what follows the closing
quotes. Control characters other than a tab are not allowed; line ends inside a string are line
feeds in the text.
-/
namespace CoroutineCheck.Toml

def isPlain (c : Char) : Bool :=
  c == '\t' || (' ' ≤ c && c.toNat != 0x7F)

private def hexValue? (c : Char) : Option Nat :=
  if c.isDigit then some (c.toNat - '0'.toNat)
  else if 'a' ≤ c && c ≤ 'f' then some (c.toNat - 'a'.toNat + 10)
  else if 'A' ≤ c && c ≤ 'F' then some (c.toNat - 'A'.toNat + 10)
  else none

/-- The character of a code point; surrogates and larger numbers have none. -/
private def codePoint? (digits : List Char) : Option Char := do
  let n := (← digits.mapM hexValue?).foldl (fun n d => n * 16 + d) 0
  if n < 0xD800 || (0xDFFF < n && n < 0x110000) then return Char.ofNat n else none

private def escaped? : Char → Option Char
  | 'b' => some '\x08'
  | 't' => some '\t'
  | 'n' => some '\n'
  | 'f' => some '\x0c'
  | 'r' => some '\r'
  | '"' => some '"'
  | '\\' => some '\\'
  | _ => none

private def push (c : Char) (p : List Char × List Char) : List Char × List Char := (c :: p.1, p.2)

def basic? : List Char → Option (List Char × List Char)
  | [] => none
  | '"' :: rest => some ([], rest)
  | '\\' :: 'u' :: a :: b :: c :: d :: rest =>
    match codePoint? [a, b, c, d] with
    | some x => (basic? rest).map (push x)
    | none => none
  | '\\' :: 'U' :: a :: b :: c :: d :: e :: f :: g :: h :: rest =>
    match codePoint? [a, b, c, d, e, f, g, h] with
    | some x => (basic? rest).map (push x)
    | none => none
  | '\\' :: c :: rest =>
    match escaped? c with
    | some x => (basic? rest).map (push x)
    | none => none
  | c :: rest => if isPlain c && c != '\\' then (basic? rest).map (push c) else none

def literal? : List Char → Option (List Char × List Char)
  | [] => none
  | '\'' :: rest => some ([], rest)
  | c :: rest => if isPlain c then (literal? rest).map (push c) else none

/-- Whether a backslash stands at the end of a line, blanks aside. -/
private def endsLine : List Char → Bool
  | '\n' :: _ => true
  | '\r' :: '\n' :: _ => true
  | c :: rest => (c == ' ' || c == '\t') && endsLine rest
  | [] => false

/-- A string in three double quotes; `skipping` after a backslash at the end of a line. One or two
quotes may stand before the closing ones. -/
def multiBasic? (skipping : Bool) : List Char → Option (List Char × List Char)
  | [] => none
  | '"' :: '"' :: '"' :: '"' :: '"' :: rest => some (['"', '"'], rest)
  | '"' :: '"' :: '"' :: '"' :: rest => some (['"'], rest)
  | '"' :: '"' :: '"' :: rest => some ([], rest)
  | '\r' :: '\n' :: rest =>
    if skipping then multiBasic? true rest else (multiBasic? false rest).map (push '\n')
  | '\\' :: 'u' :: a :: b :: c :: d :: rest =>
    match codePoint? [a, b, c, d] with
    | some x => (multiBasic? false rest).map (push x)
    | none => none
  | '\\' :: 'U' :: a :: b :: c :: d :: e :: f :: g :: h :: rest =>
    match codePoint? [a, b, c, d, e, f, g, h] with
    | some x => (multiBasic? false rest).map (push x)
    | none => none
  | '\\' :: c :: rest =>
    match escaped? c with
    | some x => (multiBasic? false rest).map (push x)
    | none => if endsLine (c :: rest) then multiBasic? true (c :: rest) else none
  | c :: rest =>
    if skipping && (c == ' ' || c == '\t' || c == '\n') then multiBasic? true rest
    else if (isPlain c && c != '\\') || c == '\n' then (multiBasic? false rest).map (push c)
    else none

def multiLiteral? : List Char → Option (List Char × List Char)
  | [] => none
  | '\'' :: '\'' :: '\'' :: '\'' :: '\'' :: rest => some (['\'', '\''], rest)
  | '\'' :: '\'' :: '\'' :: '\'' :: rest => some (['\''], rest)
  | '\'' :: '\'' :: '\'' :: rest => some ([], rest)
  | '\r' :: '\n' :: rest => (multiLiteral? rest).map (push '\n')
  | c :: rest => if isPlain c || c == '\n' then (multiLiteral? rest).map (push c) else none

def dropLineEnd : List Char → List Char
  | '\n' :: rest => rest
  | '\r' :: '\n' :: rest => rest
  | cs => cs

def quoted? : List Char → Option (List Char × List Char)
  | '"' :: '"' :: '"' :: rest => multiBasic? false (dropLineEnd rest)
  | '"' :: rest => basic? rest
  | '\'' :: '\'' :: '\'' :: rest => multiLiteral? (dropLineEnd rest)
  | '\'' :: rest => literal? rest
  | _ => none

end CoroutineCheck.Toml
