import DistillerFS.Recording.Operations

/-!
# The tokens of a TOML file

`next_token` and `scan_string`. A pointer into the text is the text from there on, which
ends where the NUL stands; reading behind its end finds nothing.
-/
namespace DistillerFS.Toml

inductive TokenType where
  | dot
  | comma
  | equal
  | lbrace
  | rbrace
  | newline
  | lbracket
  | rbracket
  | string
  deriving DecidableEq, Repr

structure Token where
  tok : TokenType
  lineno : ℕ
  ptr : CString
  len : ℕ
  eof : Bool
  deriving DecidableEq, Repr

def Token.text (t : Token) : CString := t.ptr.take t.len

/-- What is reported through the error buffer. The last two are no errors of the reader: a
loop that has used up the steps it is given, and a pointer that leads to no table. -/
inductive TomlError where
  | syntaxError (lineno : ℕ) (msg : CString)
  | badKey (lineno : ℕ)
  | keyExists (lineno : ℕ)
  | internal
  | endless
  | dangling
  deriving DecidableEq, Repr

def isdigit (c : Char) : Bool := '0' ≤ c && c ≤ '9'

/-- `n` digits, and the number they stand for behind `ret`. -/
def scanDigits : ℕ → ℕ → CString → Option ℕ
  | 0, ret, _ => some ret
  | _ + 1, _, [] => none
  | n + 1, ret, c :: p =>
    if isdigit c then scanDigits n (10 * ret + (c.toNat - '0'.toNat)) p else none

def scanDate (p : CString) : Option (ℕ × ℕ × ℕ) := do
  let year ← scanDigits 4 0 p
  let month ← if p[4]? = some '-' then scanDigits 2 0 (p.drop 5) else none
  let day ← if p[7]? = some '-' then scanDigits 2 0 (p.drop 8) else none
  return (year, month, day)

def scanTime (p : CString) : Option (ℕ × ℕ × ℕ) := do
  let hour ← scanDigits 2 0 p
  let minute ← if p[2]? = some ':' then scanDigits 2 0 (p.drop 3) else none
  let second ← if p[5]? = some ':' then scanDigits 2 0 (p.drop 6) else none
  return (hour, minute, second)

def stringToken (lineno : ℕ) (p : CString) (len : ℕ) : Token where
  tok := .string
  lineno := lineno
  ptr := p
  len := len
  eof := false

def strstr (pattern : CString) : CString → Option CString
  | [] => none
  | c :: q => if pattern.isPrefixOf (c :: q) then some (c :: q) else strstr pattern q

/-- `while (q[3] == quote) q++` -/
def lastTriple (quote : Char) : CString → CString
  | [] => []
  | c :: q => if q[2]? = some quote then lastTriple quote q else c :: q

/-- The closing `"""`: the first one that no backslash stands before. -/
def closingTriple : Char → CString → Option CString
  | _, [] => none
  | before, c :: q =>
    if "\"\"\"".toList.isPrefixOf (c :: q) = true ∧ before ≠ '\\' then some (c :: q)
    else closingTriple c q

def simpleEscape (c : Char) : Bool := "btnfr\"\\".toList.contains c

def hexDigit (c : Char) : Bool := "0123456789ABCDEF".toList.contains c

/-- `p[strspn(p, " \t\r")] == '\n'` -/
def endsLine (p : CString) : Bool := (p.dropWhile (" \t\r".toList.contains ·)).head? = some '\n'

/-- The escapes of a triple-quoted string, in front of its closing quotes at `q`. -/
def tripleEscapes (lineno : ℕ) (q : CString) : Bool → ℕ → CString → Except TomlError Unit
  | escape, hexreq, [] =>
    if escape = true then .error (.syntaxError lineno "expect an escape char".toList)
    else if hexreq ≠ 0 then .error (.syntaxError lineno "expected more hex char".toList)
    else .ok ()
  | true, hexreq, c :: p =>
    if simpleEscape c then tripleEscapes lineno q false hexreq p
    else if c = 'u' then tripleEscapes lineno q false 4 p
    else if c = 'U' then tripleEscapes lineno q false 8 p
    else if endsLine (c :: p ++ q) then tripleEscapes lineno q false hexreq p
    else .error (.syntaxError lineno "bad escape char".toList)
  | false, hexreq + 1, c :: p =>
    if hexDigit c then tripleEscapes lineno q false hexreq p
    else .error (.syntaxError lineno "expect hex char".toList)
  | false, 0, c :: p => tripleEscapes lineno q (c = '\\') 0 p

/-- The closing quote of a basic string, and its escapes on the way there. -/
def basicEnd (lineno : ℕ) : Bool → ℕ → CString → Except TomlError CString
  | _, _, [] => .error (.syntaxError lineno "unterminated quote".toList)
  | true, hexreq, c :: p =>
    if simpleEscape c then basicEnd lineno false hexreq p
    else if c = 'u' then basicEnd lineno false 4 p
    else if c = 'U' then basicEnd lineno false 8 p
    else .error (.syntaxError lineno "bad escape char".toList)
  | false, hexreq + 1, c :: p =>
    if hexDigit c then basicEnd lineno false hexreq p
    else .error (.syntaxError lineno "expect hex char".toList)
  | false, 0, c :: p =>
    if c = '\\' then basicEnd lineno true 0 p
    else if c = '\'' then
      if "''".toList.isPrefixOf p then
        .error (.syntaxError lineno "triple-s-quote inside string lit".toList)
      else basicEnd lineno false 0 p
    else if c = '\n' then .error (.syntaxError lineno "unterminated quote".toList)
    else if c = '"' then .ok (c :: p)
    else basicEnd lineno false 0 p

def timestampChar (c : Char) : Bool := "0123456789.:+-Tt Zz".toList.contains c

/-- The characters of a timestamp, without the spaces at their end. -/
def timestampLength (p : CString) : ℕ :=
  ((p.takeWhile timestampChar).reverse.dropWhile (· = ' ')).length

def literalChar (dotisspecial : Bool) (c : Char) : Bool :=
  if c = '.' ∧ dotisspecial = true then false
  else 'A' ≤ c && c ≤ 'Z' || 'a' ≤ c && c ≤ 'z' || "0123456789+-_.".toList.contains c

def scanString (p : CString) (lineno : ℕ) (dotisspecial : Bool) : Except TomlError Token :=
  if "'''".toList.isPrefixOf p then
    match strstr "'''".toList (p.drop 3) with
    | none => .error (.syntaxError lineno "unterminated triple-s-quote".toList)
    | some q =>
      .ok (stringToken lineno p (p.length - (lastTriple '\'' q).length + 3))
  else if "\"\"\"".toList.isPrefixOf p then
    match closingTriple '"' (p.drop 3) with
    | none => .error (.syntaxError lineno "unterminated triple-d-quote".toList)
    | some q => do
      let q := lastTriple '"' q
      tripleEscapes lineno q false 0 ((p.drop 3).take (p.length - 3 - q.length))
      return stringToken lineno p (p.length - q.length + 3)
  else if p.head? = some '\'' then
    match (p.drop 1).dropWhile (fun c => c ≠ '\n' ∧ c ≠ '\'') with
    | [] => .error (.syntaxError lineno "unterminated s-quote".toList)
    | c :: q =>
      if c ≠ '\'' then .error (.syntaxError lineno "unterminated s-quote".toList)
      else .ok (stringToken lineno p (p.length - q.length))
  else if p.head? = some '"' then do
    let q ← basicEnd lineno false 0 (p.drop 1)
    return stringToken lineno p (p.length - q.length + 1)
  else if (scanDate p).isSome ∨ (scanTime p).isSome then
    .ok (stringToken lineno p (timestampLength p))
  else .ok (stringToken lineno p (p.takeWhile (literalChar dotisspecial)).length)

def punctuation (c : Char) : Option TokenType :=
  if c = ',' then some .comma
  else if c = '=' then some .equal
  else if c = '{' then some .lbrace
  else if c = '}' then some .rbrace
  else if c = '[' then some .lbracket
  else if c = ']' then some .rbracket
  else if c = '\n' then some .newline
  else none

def charToken (tok : TokenType) (lineno : ℕ) (p : CString) : Token where
  tok := tok
  lineno := lineno
  ptr := p
  len := 1
  eof := false

def eofToken (lineno : ℕ) : Token where
  tok := .newline
  lineno := lineno
  ptr := []
  len := 0
  eof := true

/-- The token at `p` or behind it; a comment ends in front of the next line. -/
def makeToken (lineno : ℕ) (dotisspecial : Bool) : Bool → CString → Except TomlError Token
  | _, [] => .ok (eofToken lineno)
  | true, c :: p =>
    if c = '\n' then .ok (charToken .newline lineno (c :: p))
    else makeToken lineno dotisspecial true p
  | false, c :: p =>
    if c = '#' then makeToken lineno dotisspecial true p
    else if dotisspecial = true ∧ c = '.' then .ok (charToken .dot lineno (c :: p))
    else
      match punctuation c with
      | some tok => .ok (charToken tok lineno (c :: p))
      | none =>
        if c = '\r' ∨ c = ' ' ∨ c = '\t' then makeToken lineno dotisspecial false p
        else scanString (c :: p) lineno dotisspecial

def nextToken (t : Token) (dotisspecial : Bool) : Except TomlError Token :=
  makeToken (t.lineno + t.text.count '\n') dotisspecial false (t.ptr.drop t.len)

end DistillerFS.Toml
